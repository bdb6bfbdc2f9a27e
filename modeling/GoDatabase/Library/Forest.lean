import GoDatabase.Library.Search
import Mathlib.Data.List.Pairwise

/-!
# Subtrees separated by keys

An inner node of a search tree holds one subtree more than keys; each subtree lies
between the keys around it.  A forest is taken apart at a child into a front, the child
and a rest, and put together again with any forest in the place of the child.
-/

namespace Library

open List

section Bounds

variable {K : Type} [LinearOrder K]

/-- The lower bound, if there is one, is at most the key. -/
def Above (lower : Option K) (key : K) : Prop := ∀ bound ∈ lower, bound ≤ key

/-- The key is below the upper bound, if there is one. -/
def Below (upper : Option K) (key : K) : Prop := ∀ bound ∈ upper, key < bound

/-- There is room between two bounds. -/
def Gap (lower upper : Option K) : Prop := ∀ low ∈ lower, ∀ high ∈ upper, low < high

@[simp] theorem above_none (key : K) : Above none key := nofun

@[simp] theorem below_none (key : K) : Below none key := nofun

variable {bound key : K} {lower upper : Option K}

@[simp] theorem above_some : Above (some bound) key ↔ bound ≤ key := by
  simp [Above]

@[simp] theorem below_some : Below (some bound) key ↔ key < bound := by
  simp [Below]

theorem Above.gap (above : Above lower key)
    (below : Below upper key) : Gap lower upper := fun low isLow high isHigh =>
  lt_of_le_of_lt (above low isLow) (below high isHigh)

theorem Gap.above (gap : Gap lower (some bound))
    (atLeast : bound ≤ key) : Above lower key := fun low isLow =>
  (gap low isLow bound rfl).le.trans atLeast

theorem Gap.below (gap : Gap (some bound) upper)
    (atMost : key ≤ bound) : Below upper key := fun high isHigh =>
  lt_of_le_of_lt atMost (gap bound rfl high isHigh)

theorem Gap.trans {middle : K} (left : Gap lower (some middle))
    (right : Gap (some middle) upper) : Gap lower upper := fun low isLow high isHigh =>
  (left low isLow middle rfl).trans (right middle rfl high isHigh)

end Bounds

section Forest

variable {K ν : Type}

/-- Subtrees between two bounds, with the keys that separate them; `Good` says what a
subtree between two bounds is. -/
def Forest (Good : Option K → Option K → ν → Prop) :
    (lower upper : Option K) → (keys : List K) → (children : List ν) → Prop
  | lower, upper, [], [child] => Good lower upper child
  | lower, upper, key :: keys, child :: children =>
    Good lower (some key) child ∧ Forest Good (some key) upper keys children
  | _, _, _, _ => False

/-- The subtrees up to a key: as many as keys, and `reached` is the last key. -/
def Front (Good : Option K → Option K → ν → Prop) :
    (lower reached : Option K) → (keys : List K) → (children : List ν) → Prop
  | lower, reached, [], [] => reached = lower
  | lower, reached, key :: keys, child :: children =>
    Good lower (some key) child ∧ Front Good (some key) reached keys children
  | _, _, _, _ => False

/-- What follows a subtree with the upper bound `start`. -/
def Rest (Good : Option K → Option K → ν → Prop) (start upper : Option K) :
    (keys : List K) → (children : List ν) → Prop
  | [], [] => start = upper
  | key :: keys, children => start = some key ∧ Forest Good (some key) upper keys children
  | [], _ :: _ => False

variable {Good : Option K → Option K → ν → Prop} {lower upper reached start : Option K}

variable {child : ν}

/-- The first subtree and what follows it. -/
theorem forest_first {keys : List K} {children : List ν} :
    Forest Good lower upper keys (child :: children) ↔
      ∃ start, Good lower start child ∧ Rest Good start upper keys children := by
  cases keys with
  | nil =>
    cases children with
    | nil => exact ⟨fun good => ⟨upper, good, rfl⟩, fun ⟨_, good, same⟩ => same ▸ good⟩
    | cons second more => exact ⟨False.elim, fun ⟨_, _, no⟩ => no⟩
  | cons key keys =>
    constructor
    · exact fun ⟨good, more⟩ => ⟨some key, good, rfl, more⟩
    · rintro ⟨_, good, rfl, more⟩
      exact ⟨good, more⟩

namespace Forest

theorem length_children : ∀ {lower : Option K} {keys : List K} {children : List ν},
    Forest Good lower upper keys children → children.length = keys.length + 1
  | _, [], [_], _ => rfl
  | _, _ :: _, _ :: _, forest => congrArg Nat.succ forest.2.length_children
  | _, [], [], no => no.elim
  | _, [], _ :: _ :: _, no => no.elim
  | _, _ :: _, [], no => no.elim

/-- A forest with a new upper bound, if its last subtree allows it. -/
theorem with_upper {upper' : Option K}
    (allows : ∀ ⦃low child⦄, Good low upper child → Good low upper' child) :
    ∀ {lower : Option K} {keys : List K} {children : List ν},
      Forest Good lower upper keys children → Forest Good lower upper' keys children
  | _, [], [_], good => allows good
  | _, _ :: _, _ :: _, ⟨good, forest⟩ => ⟨good, forest.with_upper allows⟩
  | _, [], [], no => no.elim
  | _, [], _ :: _ :: _, no => no.elim
  | _, _ :: _, [], no => no.elim

variable {middle : K}

/-- Two forests with a key between them. -/
theorem join : ∀ {lower : Option K} {left right : List K} {before after : List ν},
    Forest Good lower (some middle) left before → Forest Good (some middle) upper right after →
      Forest Good lower upper (left ++ middle :: right) (before ++ after)
  | _, [], _, [_], _, good, more => ⟨good, more⟩
  | _, _ :: _, _, _ :: _, _, ⟨good, forest⟩, more => ⟨good, forest.join more⟩
  | _, [], _, [], _, no, _ => no.elim
  | _, [], _, _ :: _ :: _, _, no, _ => no.elim
  | _, _ :: _, _, [], _, no, _ => no.elim

/-- A forest is taken apart at any of its keys. -/
theorem split : ∀ {lower : Option K} {left right : List K} {children : List ν},
    Forest Good lower upper (left ++ middle :: right) children →
      Forest Good lower (some middle) left (children.take (left.length + 1)) ∧
        Forest Good (some middle) upper right (children.drop (left.length + 1))
  | _, [], _, _ :: _, ⟨good, more⟩ => ⟨good, more⟩
  | _, _ :: _, _, _ :: _, ⟨good, forest⟩ => ⟨⟨good, forest.split.1⟩, forest.split.2⟩
  | _, [], _, [], no => no.elim
  | _, _ :: _, _, [], no => no.elim

/-- A forest is taken apart at any of its subtrees. -/
theorem focus : ∀ {lower : Option K} {left right : List K} {children : List ν},
    Forest Good lower upper (left ++ right) children →
      ∃ before child after reached start, children = before ++ child :: after ∧
        before.length = left.length ∧ Front Good lower reached left before ∧
        Good reached start child ∧ Rest Good start upper right after
  | lower, [], _, child :: children, forest => by
    obtain ⟨start, good, rest⟩ := forest_first.mp forest
    exact ⟨[], child, children, lower, start, rfl, rfl, rfl, good, rest⟩
  | _, _ :: _, _, first :: children, ⟨good, forest⟩ => by
    obtain ⟨before, child, after, reached, start, rfl, size, front, here, rest⟩ := forest.focus
    exact ⟨first :: before, child, after, reached, start, rfl, congrArg Nat.succ size,
      ⟨good, front⟩, here, rest⟩
  | _, [], [], [], no => no.elim
  | _, [], _ :: _, [], no => no.elim
  | _, _ :: _, _, [], no => no.elim

end Forest

/-- A forest takes the place of a subtree. -/
theorem Front.fill : ∀ {lower : Option K} {left : List K} {before : List ν},
    Front Good lower reached left before → ∀ {keys right : List K} {children after : List ν},
      Forest Good reached start keys children → Rest Good start upper right after →
        Forest Good lower upper (left ++ (keys ++ right)) (before ++ (children ++ after))
  | _, [], [], same, keys, right, children, after, forest, rest => by
    rw [show reached = _ from same] at forest
    cases right with
    | nil =>
      cases after with
      | nil => rw [← show start = upper from rest]; simpa using forest
      | cons _ _ => exact rest.elim
    | cons key right =>
      obtain ⟨rfl, more⟩ := rest
      exact forest.join more
  | _, _ :: _, _ :: _, ⟨good, front⟩, _, _, _, _, forest, rest => ⟨good, front.fill forest rest⟩
  | _, [], _ :: _, no, _, _, _, _, _, _ => no.elim
  | _, _ :: _, [], no, _, _, _, _, _, _ => no.elim

/-- The last subtree of a front. -/
theorem Front.last : ∀ {lower : Option K} {keys : List K} {key : K} {before : List ν} {child : ν},
    Front Good lower reached (keys ++ [key]) (before ++ [child]) →
      ∃ middle, Front Good lower middle keys before ∧ Good middle (some key) child ∧
        reached = some key
  | lower, [], _, [], _, ⟨good, same⟩ => ⟨lower, rfl, good, same⟩
  | _, _ :: _, _, _ :: _, _, ⟨good, front⟩ => by
    obtain ⟨middle, inner, last, same⟩ := front.last
    exact ⟨middle, ⟨good, inner⟩, last, same⟩
  | _, [], _, [_], _, ⟨_, no⟩ => no.elim
  | _, [], _, _ :: _ :: _, _, ⟨_, no⟩ => no.elim
  | _, [_], _, [], _, ⟨_, no⟩ => no.elim
  | _, _ :: _ :: _, _, [], _, ⟨_, no⟩ => no.elim

/-- A subtree is added at the end of a front. -/
theorem Front.snoc {middle : Option K} {key : K} :
    ∀ {lower : Option K} {keys : List K} {before : List ν},
    Front Good lower middle keys before → Good middle (some key) child →
      Front Good lower (some key) (keys ++ [key]) (before ++ [child])
  | _, [], [], same, good => by
    rw [show middle = _ from same] at good
    exact ⟨good, rfl⟩
  | _, _ :: _, _ :: _, ⟨first, front⟩, good => ⟨first, front.snoc good⟩
  | _, [], _ :: _, no, _ => no.elim
  | _, _ :: _, [], no, _ => no.elim

end Forest

section Order

variable {K ν : Type} [LinearOrder K] {Good : Option K → Option K → ν → Prop} {upper : Option K}

section Gaps

variable (apart : ∀ ⦃low high child⦄, Good low high child → Gap low high)
include apart

/-- There is room between the bounds of a forest. -/
theorem Forest.gap : ∀ {lower : Option K} {keys : List K} {children : List ν},
    Forest Good lower upper keys children → Gap lower upper
  | _, [], [_], good => apart good
  | _, _ :: _, _ :: _, ⟨good, forest⟩ => (apart good).trans forest.gap
  | _, [], [], no => no.elim
  | _, [], _ :: _ :: _, no => no.elim
  | _, _ :: _, [], no => no.elim

/-- The keys of a forest lie between its bounds. -/
theorem Forest.gaps : ∀ {lower : Option K} {keys : List K} {children : List ν},
    Forest Good lower upper keys children →
      ∀ key ∈ keys, Gap lower (some key) ∧ Gap (some key) upper
  | _, [], _, _, _, mem => absurd mem not_mem_nil
  | _, _ :: _, _ :: _, ⟨good, forest⟩, key, mem => by
    rcases mem_cons.mp mem with rfl | isLater
    · exact ⟨apart good, forest.gap apart⟩
    · have later := forest.gaps key isLater
      exact ⟨(apart good).trans later.1, later.2⟩
  | _, _ :: _, [], no, _, _ => no.elim

/-- The keys of a forest are strictly ascending. -/
theorem Forest.ascending : ∀ {lower : Option K} {keys : List K} {children : List ν},
    Forest Good lower upper keys children → keys.Pairwise (· < ·)
  | _, [], _, _ => List.Pairwise.nil
  | _, first :: keys, _ :: _, ⟨_, forest⟩ => by
    refine pairwise_cons.mpr ⟨?_, forest.ascending⟩
    exact fun key mem => (forest.gaps apart key mem).1 first rfl key rfl
  | _, _ :: _, [], no => no.elim

/-! ### Keys inside the subtrees

`Holds child key` says that a key occurs in a subtree. -/

section Holds

variable {Holds : ν → K → Prop} {lower reached start : Option K} {key : K}
  (inside : ∀ ⦃low high child key⦄, Good low high child → Holds child key →
    Above low key ∧ Below high key)

include inside

/-- The keys inside the subtrees lie between the bounds of the forest. -/
theorem Forest.between : ∀ {lower : Option K} {keys : List K} {children : List ν},
    Forest Good lower upper keys children →
      ∀ child ∈ children, ∀ {key}, Holds child key → Above lower key ∧ Below upper key
  | _, [], [_], good, child, mem, _, holds => by
    rw [mem_singleton.mp mem] at holds
    exact inside good holds
  | _, separator :: _, _ :: _, ⟨good, forest⟩, child, mem, key, holds => by
    rcases mem_cons.mp mem with rfl | later
    · obtain ⟨above, below⟩ := inside good holds
      exact ⟨above, (forest.gap apart).below (below separator rfl).le⟩
    · obtain ⟨above, below⟩ := forest.between child later holds
      exact ⟨(apart good).above (above separator rfl), below⟩
  | _, [], [], no, _, _, _, _ => no.elim
  | _, [], _ :: _ :: _, no, _, _, _, _ => no.elim
  | _, _ :: _, [], no, _, _, _, _ => no.elim

omit apart in
/-- The keys inside a front are below every key that its separators do not exceed. -/
theorem Front.lt_of_le : ∀ {lower : Option K} {keys : List K} {children : List ν},
    Front Good lower reached keys children → (∀ separator ∈ keys, separator ≤ key) →
      ∀ child ∈ children, ∀ {held}, Holds child held → held < key
  | _, [], [], _, _, _, mem, _, _ => absurd mem not_mem_nil
  | _, separator :: _, _ :: _, ⟨good, front⟩, atMost, child, mem, _, holds => by
    rcases mem_cons.mp mem with rfl | later
    · exact lt_of_lt_of_le ((inside good holds).2 separator rfl) (atMost _ (mem_cons_self ..))
    · exact front.lt_of_le (fun other isOther => atMost other (mem_cons_of_mem _ isOther))
        child later holds
  | _, [], _ :: _, no, _, _, _, _, _ => no.elim
  | _, _ :: _, [], no, _, _, _, _, _ => no.elim

/-- The keys inside a rest are above every key that its separators exceed. -/
theorem Rest.lt_of_lt {keys : List K} {children : List ν}
    (rest : Rest Good start upper keys children) (below : ∀ separator ∈ keys, key < separator) :
    ∀ child ∈ children, ∀ {held}, Holds child held → key < held := by
  intro child mem held holds
  cases keys with
  | nil =>
    cases children with
    | nil => cases mem
    | cons _ _ => exact rest.elim
  | cons separator keys =>
    have above := (rest.2.between apart inside child mem holds).1 separator rfl
    exact lt_of_lt_of_le (below separator (mem_cons_self ..)) above

end Holds

end Gaps

/-- The last key of a front bounds what follows it from below. -/
theorem Front.above {reached : Option K} {key : K} :
    ∀ {lower : Option K} {keys : List K} {children : List ν},
    Front Good lower reached keys children → (∀ separator ∈ keys, separator ≤ key) →
      Above lower key → Above reached key
  | _, [], [], same, _, above => (show reached = _ from same) ▸ above
  | _, separator :: _, _ :: _, ⟨_, front⟩, atMost, _ =>
    front.above (fun other isOther => atMost other (mem_cons_of_mem _ isOther))
      (above_some.mpr (atMost separator (mem_cons_self ..)))
  | _, [], _ :: _, no, _, _ => no.elim
  | _, _ :: _, [], no, _, _ => no.elim

variable {keys : List K} {children : List ν}

/-- The first key of a rest bounds what is before it from above. -/
theorem Rest.below {start : Option K} {key : K}
    (rest : Rest Good start upper keys children) (before : ∀ separator ∈ keys, key < separator)
    (below : Below upper key) : Below start key := by
  cases keys with
  | nil =>
    cases children with
    | nil => exact (show start = upper from rest) ▸ below
    | cons _ _ => exact rest.elim
  | cons separator keys =>
    rw [rest.1]
    exact below_some.mpr (before separator (mem_cons_self ..))

/-- What is below the upper bound of a subtree is below the one of what follows it. -/
theorem Rest.below_upper (gap : ∀ ⦃low high child⦄, Good low high child → Gap low high)
    {start : Option K} {key : K}
    (rest : Rest Good start upper keys children) (below : Below start key) : Below upper key := by
  cases keys with
  | nil =>
    cases children with
    | nil => exact (show start = upper from rest) ▸ below
    | cons _ _ => exact rest.elim
  | cons separator keys => exact (rest.2.gap gap).below (below separator rest.1).le

end Order

end Library
