import GoDatabase.Memory.SetSpec

/-!
# Deletion keeps the invariant

A deletion may leave a subtree with one key too few at its top.  Its parent first sets
the separator before it to the smallest key below it and then takes a key from a sibling
or merges the two, which takes one leaf out of the chain when they are leaves.
-/

namespace GoDatabase.Memory

open Library List Option

variable {maxKeys height least : Nat} {lower upper : Option Bytes}

/-! ## The smallest key -/

/-- The smallest key of a subtree can be its lower bound. -/
theorem minimumKey_spec (two : 2 ≤ maxKeys) : ∀ {height least : Nat} {lower upper : Option Bytes}
    {node : Node}, Ok maxKeys height least lower upper node → 0 < node.keys.length →
      ∃ key, node.minimumKey = some key ∧ Above lower key ∧ Below upper key ∧
        Ok maxKeys height least (some key) upper node
  | 0, _, _, _, .leaf _ (key :: keys) _ _, ⟨_, ascending, sizes, inside, enough, few⟩, _ => by
    have first := inside key (mem_cons_self ..)
    refine ⟨key, by rw [Node.minimumKey]; rfl, first.1, first.2,
      (above_some.mpr (le_refl key)).gap first.2, ascending, sizes, ?_, enough, few⟩
    exact fun held mem => ⟨above_some.mpr (head_le ascending held mem), (inside held mem).2⟩
  | height + 1, _, _, _, .internal keys (child :: children), ⟨forest, enough, few⟩, _ => by
    obtain ⟨start, good, rest⟩ := forest_first.mp forest
    have nonempty : 0 < child.keys.length := by
      have := good.least_le
      omega
    obtain ⟨key, isLeast, above, below, raised⟩ := minimumKey_spec two good nonempty
    refine ⟨key, ?_, above, rest.below_upper (fun _ _ _ => Ok.gap) below,
      forest_first.mpr ⟨start, raised, rest⟩, enough, few⟩
    rw [Node.minimumKey, firstMinimumKey, isLeast]
  | _ + 1, _, _, _, .internal _ [], ⟨forest, _, _⟩, _ => by
    have count := forest.length_children
    rw [length_nil] at count
    omega

/-- The upper bound of a subtree can be raised. -/
theorem Ok.raise : ∀ {height least : Nat} {lower : Option Bytes} {node : Node} {old new : Bytes},
    Ok maxKeys height least lower (some old) node → old ≤ new →
      Ok maxKeys height least lower (some new) node
  | 0, _, _, .leaf _ _ _ _, _, _, ⟨gap, ascending, sizes, inside, enough, few⟩, raised =>
    ⟨fun low isLow _ isHigh => some.inj isHigh ▸ (gap low isLow _ rfl).trans_le raised,
      ascending, sizes, fun held mem => ⟨(inside held mem).1,
        below_some.mpr ((below_some.mp (inside held mem).2).trans_le raised)⟩, enough, few⟩
  | _ + 1, _, _, .internal _ _, _, _, ⟨forest, enough, few⟩, raised =>
    ⟨forest.with_upper fun _ _ good => good.raise raised, enough, few⟩

/-! ## The chain -/

/-- A leaf is merged with the one behind it and takes over its successor. -/
inductive LinkMerge : (before after : List Link) → Prop
  | merge (front back : List Link) (id gone : Nat) (next nextGone : Option Nat) :
      LinkMerge (front ++ (id, next) :: (gone, nextGone) :: back) (front ++ (id, nextGone) :: back)

/-- Any number of merges. -/
abbrev LinkMerges : (before after : List Link) → Prop := Relation.ReflTransGen LinkMerge

theorem LinkMerges.context {before after : List Link} (merges : LinkMerges before after)
    (left right : List Link) :
    LinkMerges (left ++ (before ++ right)) (left ++ (after ++ right)) := by
  refine Relation.ReflTransGen.lift (fun links => left ++ (links ++ right)) ?_ before after merges
  rintro _ _ ⟨front, back, id, gone, next, nextGone⟩
  have merged := LinkMerge.merge (left ++ front) (back ++ right) id gone next nextGone
  simpa [Function.onFun] using merged

/-! ## Taking a key from a sibling -/

/-- Two siblings around a separator, and the ones that have taken their place. -/
structure Rotated (maxKeys height : Nat) (lower upper : Option Bytes) (left right : Node)
    (separator : Bytes) (newLeft newRight : Node) : Prop where
  left_ok : Child maxKeys height lower (some separator) newLeft
  right_ok : Child maxKeys height (some separator) upper newRight
  entries : newLeft.entries ++ newRight.entries = left.entries ++ right.entries
  links : newLeft.links ++ newRight.links = left.links ++ right.links

/-- A rotation puts others in the place of two siblings and their separator. -/
abbrev Rotates (maxKeys height : Nat) (lower upper : Option Bytes) (left right : Node)
    (separator : Bytes) (before after : List Node) (keysBefore keysAfter : List Bytes)
    (rotate : List Bytes → List Node → Option Node) : Prop :=
  ∃ newSeparator newLeft newRight,
    rotate (keysBefore ++ separator :: keysAfter) (before ++ left :: right :: after) =
      some (.internal (keysBefore ++ newSeparator :: keysAfter)
        (before ++ newLeft :: newRight :: after)) ∧
    Rotated maxKeys height lower upper left right newSeparator newLeft newRight

section Pair

variable {separator : Bytes} (before after : List Node) (keysBefore keysAfter : List Bytes)
  (sizes : before.length = keysBefore.length)

include sizes

theorem setAt_separator (key : Bytes) : setAt (keysBefore ++ separator :: keysAfter) before.length
    key = some (keysBefore ++ key :: keysAfter) := by
  rw [sizes, setAt_append]

theorem getElem?_separator :
    (keysBefore ++ separator :: keysAfter)[before.length]? = some separator := by
  simp [sizes]

variable {id : Nat} {leftKeys keys values rightKeys : List Bytes} {next : Option Nat}
  {children : List Node} {left child right : Node}

theorem rotateFromLeft_leaf {leftID : Nat} {leftValues : List Bytes} {leftNext : Option Nat}
    (leftOk : Ok maxKeys 0 (maxKeys / 2) lower (some separator)
      (.leaf leftID leftKeys leftValues leftNext))
    (childOk : Ok maxKeys 0 least (some separator) upper (.leaf id keys values next))
    (lends : maxKeys / 2 < leftKeys.length) (short : keys.length + 1 = maxKeys / 2) :
    Rotates maxKeys 0 lower upper (.leaf leftID leftKeys leftValues leftNext)
      (.leaf id keys values next) separator before after keysBefore keysAfter
      (rotateFromLeft · · (before.length + 1)) := by
  obtain ⟨_, leftAscending, leftSizes, leftInside, _, leftFew⟩ := leftOk
  obtain ⟨gap, ascending, valueSizes, inside, _, few⟩ := childOk
  obtain ⟨rest, key, rfl⟩ :=
    (eq_nil_or_concat' leftKeys).resolve_left (by rintro rfl; simp at lends)
  obtain ⟨restValues, lastValues, rfl, restSizes, lastSize⟩ := values_cut leftSizes
  obtain ⟨value, rfl⟩ := length_eq_one_iff.mp lastSize
  obtain ⟨restAscending, -, restBelow⟩ := pairwise_append.mp leftAscending
  rw [length_append, length_singleton] at lends leftFew
  have keyInside := leftInside key (by simp)
  have keyLess : key < separator := below_some.mp keyInside.2
  obtain ⟨first, isFirst⟩ : ∃ first, first ∈ rest := exists_mem_of_length_pos (by omega)
  have below : ∀ held ∈ rest, held < key :=
    fun held mem => restBelow held mem key (mem_singleton_self key)
  have above : ∀ held ∈ keys, key < held :=
    fun held mem => keyLess.trans_le (above_some.mp (inside held mem).1)
  refine ⟨key, .leaf leftID rest restValues leftNext, .leaf id (key :: keys) (value :: values) next,
    ?_, ⟨?_, restAscending, restSizes, ?_, by omega, by omega⟩,
    ⟨?_, pairwise_cons.mpr ⟨above, ascending⟩, by simpa using valueSizes, ?_, ?_, ?_⟩, ?_, ?_⟩
  · have valueAt : (restValues ++ [value])[rest.length]? = some value := by simp [← restSizes]
    have valuesTaken : (restValues ++ [value]).take rest.length = restValues := by
      simp [← restSizes]
    simp [rotateFromLeft, valueAt, valuesTaken, setAt_separator before keysBefore keysAfter sizes]
  · exact (leftInside first (by simp [isFirst])).1.gap (below_some.mpr (below first isFirst))
  · exact fun held mem =>
      ⟨(leftInside held (by simp [mem])).1, below_some.mpr (below held mem)⟩
  · exact (above_some.mpr (le_refl key)).gap (gap.below keyLess.le)
  · intro held mem
    rcases mem_cons.mp mem with rfl | later
    · exact ⟨above_some.mpr (le_refl _), gap.below keyLess.le⟩
    · exact ⟨above_some.mpr (above held later).le, (inside held later).2⟩
  · rw [length_cons]
    omega
  · rw [length_cons]
    omega
  · rw [entries_leaf, entries_leaf, entries_leaf, entries_leaf, zip_append restSizes]
    simp
  · rw [links_leaf, links_leaf, links_leaf, links_leaf]

theorem rotateFromLeft_internal {leftChildren : List Node}
    (leftOk : Ok maxKeys (height + 1) (maxKeys / 2) lower (some separator)
      (.internal leftKeys leftChildren))
    (childOk : Ok maxKeys (height + 1) least (some separator) upper (.internal keys children))
    (lends : maxKeys / 2 < leftKeys.length) (short : keys.length + 1 = maxKeys / 2) :
    Rotates maxKeys (height + 1) lower upper (.internal leftKeys leftChildren)
      (.internal keys children) separator before after keysBefore keysAfter
      (rotateFromLeft · · (before.length + 1)) := by
  obtain ⟨leftForest, _, leftFew⟩ := leftOk
  obtain ⟨forest, _, few⟩ := childOk
  obtain ⟨rest, key, rfl⟩ :=
    (eq_nil_or_concat' leftKeys).resolve_left (by rintro rfl; simp at lends)
  have count := leftForest.length_children
  obtain ⟨restChildren, moved, rfl⟩ := (eq_nil_or_concat' leftChildren).resolve_left
    (by rintro rfl; simp at count)
  obtain ⟨restForest, movedForest⟩ := leftForest.split
  simp only [length_append, length_singleton] at lends leftFew count
  have restCount : restChildren.length = rest.length + 1 := by omega
  rw [← restCount, take_left' rfl] at restForest
  rw [← restCount, drop_left' rfl] at movedForest
  refine ⟨key, .internal rest restChildren, .internal (separator :: keys) (moved :: children), ?_,
    ⟨restForest, by omega, by omega⟩, ⟨⟨movedForest, forest⟩, ?_, ?_⟩, ?_, ?_⟩
  · simp [rotateFromLeft, getElem?_separator before keysBefore keysAfter sizes,
      setAt_separator before keysBefore keysAfter sizes]
  · rw [length_cons]
    omega
  · rw [length_cons]
    omega
  · simp [Node.entries]
  · simp [Node.links]

theorem rotateFromRight_leaf {rightID : Nat} {rightValues : List Bytes} {rightNext : Option Nat}
    (childOk : Ok maxKeys 0 least lower (some separator) (.leaf id keys values next))
    (rightOk : Ok maxKeys 0 (maxKeys / 2) (some separator) upper
      (.leaf rightID rightKeys rightValues rightNext))
    (lends : maxKeys / 2 < rightKeys.length) (short : keys.length + 1 = maxKeys / 2) :
    Rotates maxKeys 0 lower upper (.leaf id keys values next)
      (.leaf rightID rightKeys rightValues rightNext) separator before after keysBefore keysAfter
      (rotateFromRight · · before.length) := by
  obtain ⟨gap, ascending, valueSizes, inside, _, few⟩ := childOk
  obtain ⟨_, rightAscending, rightSizes, rightInside, _, rightFew⟩ := rightOk
  match rightKeys, rightValues, rightSizes with
  | key :: second :: rest, value :: restValues, rightSizes =>
    obtain ⟨keyBelow, restAscending⟩ := pairwise_cons.mp rightAscending
    have keyInside := rightInside key (by simp)
    have keyLess : key < second := keyBelow second (by simp)
    have secondInside := rightInside second (by simp)
    have atLeast := head_le restAscending
    have below : ∀ held ∈ keys, held < key := fun held mem =>
      (below_some.mp (inside held mem).2).trans_le (above_some.mp keyInside.1)
    simp only [length_cons] at lends rightFew rightSizes
    refine ⟨second, .leaf id (keys ++ [key]) (values ++ [value]) next,
      .leaf rightID (second :: rest) restValues rightNext, ?_,
      ⟨?_, ?_, by simpa using valueSizes, ?_, ?_, ?_⟩,
      ⟨?_, restAscending, by simpa using rightSizes, ?_, ?_, ?_⟩, ?_, ?_⟩
    · simp [rotateFromRight, deleteAt, setAt_separator before keysBefore keysAfter sizes]
    · exact fun low isLow high isHigh => some.inj isHigh ▸
        ((gap low isLow separator rfl).trans_le (above_some.mp keyInside.1)).trans keyLess
    · refine pairwise_append.mpr ⟨ascending, pairwise_singleton _ _, ?_⟩
      intro low isLow high isHigh
      rw [mem_singleton.mp isHigh]
      exact below low isLow
    · intro held mem
      rcases mem_append.mp mem with old | new
      · exact ⟨(inside held old).1, below_some.mpr ((below held old).trans keyLess)⟩
      · rw [mem_singleton.mp new]
        exact ⟨gap.above (above_some.mp keyInside.1), below_some.mpr keyLess⟩
    · rw [length_append, length_singleton]
      omega
    · rw [length_append, length_singleton]
      omega
    · exact (above_some.mpr (le_refl second)).gap secondInside.2
    · exact fun held mem => ⟨above_some.mpr (atLeast held mem),
        (rightInside held (mem_cons_of_mem _ mem)).2⟩
    · rw [length_cons]
      omega
    · rw [length_cons]
      omega
    · rw [entries_leaf, entries_leaf, entries_leaf, entries_leaf, zip_append valueSizes]
      simp
    · rw [links_leaf, links_leaf, links_leaf, links_leaf]
  | [_], _, _ =>
    rw [length_singleton] at lends
    omega
  | [], _, _ => cases lends

theorem rotateFromRight_internal {rightChildren : List Node}
    (childOk : Ok maxKeys (height + 1) least lower (some separator) (.internal keys children))
    (rightOk : Ok maxKeys (height + 1) (maxKeys / 2) (some separator) upper
      (.internal rightKeys rightChildren))
    (lends : maxKeys / 2 < rightKeys.length) (short : keys.length + 1 = maxKeys / 2) :
    Rotates maxKeys (height + 1) lower upper (.internal keys children)
      (.internal rightKeys rightChildren) separator before after keysBefore keysAfter
      (rotateFromRight · · before.length) := by
  obtain ⟨forest, _, few⟩ := childOk
  obtain ⟨rightForest, _, rightFew⟩ := rightOk
  match rightKeys, rightChildren, rightForest with
  | key :: rest, moved :: restChildren, ⟨movedOk, restForest⟩ =>
    rw [length_cons] at lends rightFew
    refine ⟨key, .internal (keys ++ [separator]) (children ++ [moved]), .internal rest restChildren,
      ?_, ⟨forest.join movedOk, ?_, ?_⟩, ⟨restForest, by omega, by omega⟩, ?_, ?_⟩
    · simp [rotateFromRight, deleteAt, getElem?_separator before keysBefore keysAfter sizes,
        setAt_separator before keysBefore keysAfter sizes]
    · rw [length_append, length_singleton]
      omega
    · rw [length_append, length_singleton]
      omega
    · simp [Node.entries]
    · simp [Node.links]
  | [], _, _ => cases lends

theorem rotateFromLeft_spec (leftOk : Child maxKeys height lower (some separator) left)
    (childOk : Ok maxKeys height least (some separator) upper child)
    (lends : maxKeys / 2 < left.keys.length) (short : child.keys.length + 1 = maxKeys / 2) :
    Rotates maxKeys height lower upper left child separator before after keysBefore keysAfter
      (rotateFromLeft · · (before.length + 1)) := by
  match height, left, child, leftOk, childOk with
  | 0, .leaf _ _ _ _, .leaf _ _ _ _, leftOk, childOk =>
    exact rotateFromLeft_leaf before after keysBefore keysAfter sizes leftOk childOk lends short
  | _ + 1, .internal _ _, .internal _ _, leftOk, childOk =>
    exact rotateFromLeft_internal before after keysBefore keysAfter sizes leftOk childOk lends short

theorem rotateFromRight_spec (childOk : Ok maxKeys height least lower (some separator) child)
    (rightOk : Child maxKeys height (some separator) upper right)
    (lends : maxKeys / 2 < right.keys.length) (short : child.keys.length + 1 = maxKeys / 2) :
    Rotates maxKeys height lower upper child right separator before after keysBefore keysAfter
      (rotateFromRight · · before.length) := by
  match height, child, right, childOk, rightOk with
  | 0, .leaf _ _ _ _, .leaf _ _ _ _, childOk, rightOk =>
    exact rotateFromRight_leaf before after keysBefore keysAfter sizes childOk rightOk lends short
  | _ + 1, .internal _ _, .internal _ _, childOk, rightOk =>
    exact rotateFromRight_internal before after keysBefore keysAfter sizes childOk rightOk
      lends short

/-- Two siblings that are merged. -/
theorem mergeChildren_spec {leftLeast rightLeast : Nat}
    (leftOk : Ok maxKeys height leftLeast lower (some separator) left)
    (rightOk : Ok maxKeys height rightLeast (some separator) upper right)
    (enough : maxKeys / 2 ≤ left.keys.length + right.keys.length)
    (few : left.keys.length + right.keys.length + 1 ≤ maxKeys) : ∃ merged,
      mergeChildren (keysBefore ++ separator :: keysAfter) (before ++ left :: right :: after)
          before.length = some (.internal (keysBefore ++ keysAfter) (before ++ merged :: after)) ∧
      Child maxKeys height lower upper merged ∧
      merged.entries = left.entries ++ right.entries ∧
      LinkMerges (left.links ++ right.links) merged.links := by
  have keysDeleted : deleteAt (keysBefore ++ separator :: keysAfter) before.length =
      some (keysBefore ++ keysAfter) := by rw [sizes, deleteAt_append]
  match height, left, right, leftOk, rightOk with
  | 0, .leaf id leftKeys leftValues next, .leaf gone rightKeys rightValues nextGone, leftOk,
      rightOk =>
    obtain ⟨leftGap, leftAscending, leftSizes, leftInside, -, -⟩ := leftOk
    obtain ⟨rightGap, rightAscending, rightSizes, rightInside, -, -⟩ := rightOk
    rw [Node.keys, Node.keys] at enough few
    refine ⟨.leaf id (leftKeys ++ rightKeys) (leftValues ++ rightValues) nextGone, ?_,
      ⟨leftGap.trans rightGap, ?_, ?_, ?_, ?_, ?_⟩, ?_, ?_⟩
    · simp [mergeChildren, keysDeleted]
    · refine pairwise_append.mpr ⟨leftAscending, rightAscending, ?_⟩
      intro low isLow high isHigh
      exact (below_some.mp (leftInside low isLow).2).trans_le
        (above_some.mp (rightInside high isHigh).1)
    · rw [length_append, length_append, leftSizes, rightSizes]
    · intro held mem
      rcases mem_append.mp mem with inLeft | inRight
      · have here := leftInside held inLeft
        exact ⟨here.1, rightGap.below (below_some.mp here.2).le⟩
      · have here := rightInside held inRight
        exact ⟨leftGap.above (above_some.mp here.1), here.2⟩
    · rw [length_append]
      omega
    · rw [length_append]
      omega
    · rw [entries_leaf, entries_leaf, entries_leaf, zip_append leftSizes]
    · rw [links_leaf, links_leaf, links_leaf]
      exact .single (.merge [] [] id gone next nextGone)
  | height + 1, .internal leftKeys leftChildren, .internal rightKeys rightChildren, leftOk,
      rightOk =>
    obtain ⟨leftForest, -, -⟩ := leftOk
    obtain ⟨rightForest, -, -⟩ := rightOk
    rw [Node.keys, Node.keys] at enough few
    refine ⟨.internal (leftKeys ++ separator :: rightKeys) (leftChildren ++ rightChildren), ?_,
      ⟨leftForest.join rightForest, ?_, ?_⟩, ?_, ?_⟩
    · simp [mergeChildren, getElem?_separator before keysBefore keysAfter sizes, keysDeleted]
    · rw [length_append, length_cons]
      omega
    · rw [length_append, length_cons]
      omega
    · simp [Node.entries]
    · rw [links_internal, links_internal, links_internal, flatAll_append]

end Pair

/-! ## Rebalancing -/

section Rebalance

/-- The children of a node and the ones that have taken their place. -/
structure Rebalanced (maxKeys height : Nat) (lower upper : Option Bytes) (keys : List Bytes)
    (children : List Node) (newKeys : List Bytes) (newChildren : List Node) : Prop where
  forest : Forest (Child maxKeys height) lower upper newKeys newChildren
  enough : keys.length ≤ newKeys.length + 1
  few : newKeys.length ≤ keys.length
  entries : flatAll entryView newChildren = flatAll entryView children
  links : LinkMerges (flatAll linkView children) (flatAll linkView newChildren)

/-- A child is rebalanced. -/
abbrev Rebalances (maxKeys height : Nat) (lower upper : Option Bytes) (keys : List Bytes)
    (children : List Node) (childIdx : Nat) : Prop := ∃ newKeys newChildren,
  rebalanceChild (maxKeys / 2) keys children childIdx = some (.internal newKeys newChildren) ∧
    Rebalanced maxKeys height lower upper keys children newKeys newChildren

variable {reached start : Option Bytes} {keysBefore keysAfter : List Bytes}
  {before after : List Node} {left right child : Node} {separator : Bytes}

section

variable (front : Front (Child maxKeys height) lower reached keysBefore before)
  (rest : Rest (Child maxKeys height) start upper keysAfter after)
include front rest

/-- Two neighbours are replaced by a forest between the same bounds. -/
theorem rebalanced_of_forest {separators : List Bytes} {nodes : List Node}
    (forest : Forest (Child maxKeys height) reached start separators nodes)
    (one : separators.length ≤ 1)
    (entries : flatAll entryView nodes = left.entries ++ right.entries)
    (links : LinkMerges (left.links ++ right.links) (flatAll linkView nodes)) :
    Rebalanced maxKeys height lower upper (keysBefore ++ separator :: keysAfter)
      (before ++ left :: right :: after) (keysBefore ++ (separators ++ keysAfter))
      (before ++ (nodes ++ after)) where
  forest := front.fill forest rest
  enough := by
    simp only [length_append, length_cons]
    omega
  few := by
    simp only [length_append, length_cons]
    omega
  entries := by simp [entries]
  links := by simpa using links.context (flatAll linkView before) (flatAll linkView after)

theorem rebalanced_of_rotated {newLeft newRight : Node} {newSeparator : Bytes}
    (rotated : Rotated maxKeys height reached start left right newSeparator newLeft newRight) :
    Rebalanced maxKeys height lower upper (keysBefore ++ separator :: keysAfter)
      (before ++ left :: right :: after) (keysBefore ++ newSeparator :: keysAfter)
      (before ++ newLeft :: newRight :: after) := by
  refine @rebalanced_of_forest _ _ _ _ _ _ _ _ _ _ left right separator front rest [newSeparator]
    [newLeft, newRight] ⟨rotated.left_ok, rotated.right_ok⟩ (Nat.le_refl 1) ?_ ?_
  · simpa using rotated.entries
  · have links := rotated.links
    simp only [flatAll_cons, flatAll_nil, append_nil]
    rw [links]

theorem rebalanced_of_merged {merged : Node}
    (ok : Child maxKeys height reached start merged)
    (entries : merged.entries = left.entries ++ right.entries)
    (links : LinkMerges (left.links ++ right.links) merged.links) :
    Rebalanced maxKeys height lower upper (keysBefore ++ separator :: keysAfter)
      (before ++ left :: right :: after) (keysBefore ++ keysAfter) (before ++ merged :: after) := by
  refine @rebalanced_of_forest _ _ _ _ _ _ _ _ _ _ left right separator front rest [] [merged] ok
    (Nat.zero_le 1) ?_ ?_
  · simpa using entries
  · simpa using links

end

/-- Which way a child is rebalanced. -/
theorem rebalanceChild_eq {minKeys childIdx : Nat} {keys : List Bytes} {children : List Node}
    {left right : Bool} (isLeft : leftLends minKeys children childIdx = some left)
    (isRight : rightLends minKeys children childIdx = some right) :
    rebalanceChild minKeys keys children childIdx =
      if left then rotateFromLeft keys children childIdx
      else if right then rotateFromRight keys children childIdx
      else if 0 < childIdx then mergeChildren keys children (childIdx - 1)
      else mergeChildren keys children childIdx := by
  simp only [rebalanceChild, isLeft, isRight, bind_eq_bind, bind_some]

theorem leftLends_append (minKeys : Nat) (before after : List Node) (left child : Node) :
    leftLends minKeys (before ++ left :: child :: after) (before.length + 1) =
      some (decide (minKeys < left.keys.length)) := by
  rw [leftLends, if_pos (Nat.succ_pos _), Nat.add_sub_cancel]
  simp

theorem rightLends_append (minKeys : Nat) (before after : List Node) (child right : Node) :
    rightLends minKeys (before ++ child :: right :: after) before.length =
      some (decide (minKeys < right.keys.length)) := by
  rw [rightLends, if_pos (by simp)]
  simp

/-- A child without a left sibling. -/
theorem rebalanceChild_first (childOk : Ok maxKeys height least lower (some separator) child)
    (rightOk : Child maxKeys height (some separator) start right)
    (rest : Rest (Child maxKeys height) start upper keysAfter after)
    (short : child.keys.length + 1 = maxKeys / 2) :
    Rebalances maxKeys height lower upper (separator :: keysAfter) (child :: right :: after) 0 := by
  have front : Front (Child maxKeys height) lower lower [] [] := rfl
  have isLeft : leftLends (maxKeys / 2) (child :: right :: after) 0 = some false := rfl
  have isRight : rightLends (maxKeys / 2) (child :: right :: after) 0 = _ :=
    rightLends_append (maxKeys / 2) [] after child right
  rw [Rebalances, rebalanceChild_eq isLeft isRight, if_neg Bool.false_ne_true]
  by_cases lends : maxKeys / 2 < right.keys.length
  · obtain ⟨newSeparator, newChild, newRight, result, rotated⟩ :=
      rotateFromRight_spec [] after [] keysAfter rfl childOk rightOk lends short
    rw [if_pos (decide_eq_true lends)]
    exact ⟨_, _, result, rebalanced_of_rotated front rest rotated⟩
  · have enough := rightOk.least_le
    obtain ⟨merged, result, ok, entries, links⟩ :=
      mergeChildren_spec [] after [] keysAfter rfl childOk rightOk (by omega) (by omega)
    rw [if_neg (by simpa using lends), if_neg (Nat.lt_irrefl 0)]
    exact ⟨_, _, result, rebalanced_of_merged front rest ok entries links⟩

section

variable (front : Front (Child maxKeys height) lower reached keysBefore before)
  (leftOk : Child maxKeys height reached (some separator) left)
  (childOk : Ok maxKeys height least (some separator) start child)
  (rest : Rest (Child maxKeys height) start upper keysAfter after)
  (sizes : before.length = keysBefore.length) (short : child.keys.length + 1 = maxKeys / 2)
include front leftOk childOk rest sizes short

/-- A child that has a left sibling is merged with it if neither neighbour lends a key. -/
theorem rebalanceChild_merge {right : Bool} (keeps : ¬ maxKeys / 2 < left.keys.length)
    (isRight : rightLends (maxKeys / 2) (before ++ left :: child :: after) (before.length + 1) =
      some right) (keepsRight : right = false) :
    Rebalances maxKeys height lower upper (keysBefore ++ separator :: keysAfter)
      (before ++ left :: child :: after) (before.length + 1) := by
  have enough := leftOk.least_le
  obtain ⟨merged, result, ok, entries, links⟩ :=
    mergeChildren_spec before after keysBefore keysAfter sizes leftOk childOk (by omega) (by omega)
  rw [Rebalances, rebalanceChild_eq (leftLends_append ..) isRight, if_neg (by simpa using keeps),
    if_neg (by simp [keepsRight]), if_pos (Nat.succ_pos _), Nat.add_sub_cancel]
  exact ⟨_, _, result, rebalanced_of_merged front rest ok entries links⟩

/-- A child with a left sibling. -/
theorem rebalanceChild_later :
    Rebalances maxKeys height lower upper (keysBefore ++ separator :: keysAfter)
      (before ++ left :: child :: after) (before.length + 1) := by
  have shift : ∀ more : List Node, before ++ left :: more = (before ++ [left]) ++ more := by simp
  have shiftSize : before.length + 1 = (before ++ [left]).length := by simp
  cases after with
  | nil =>
    have isRight : rightLends (maxKeys / 2) (before ++ [left, child]) (before.length + 1) =
        some false := if_neg (by simp)
    by_cases lends : maxKeys / 2 < left.keys.length
    · obtain ⟨newSeparator, newLeft, newChild, result, rotated⟩ :=
        rotateFromLeft_spec before [] keysBefore keysAfter sizes leftOk childOk lends short
      rw [Rebalances, rebalanceChild_eq (leftLends_append ..) isRight,
        if_pos (decide_eq_true lends)]
      exact ⟨_, _, result, rebalanced_of_rotated front rest rotated⟩
    · exact rebalanceChild_merge front leftOk childOk rest sizes short lends isRight rfl
  | cons right after =>
    have isRight : rightLends (maxKeys / 2) (before ++ left :: child :: right :: after)
        (before.length + 1) = some (decide (maxKeys / 2 < right.keys.length)) := by
      rw [shift, shiftSize, rightLends_append]
    by_cases lends : maxKeys / 2 < left.keys.length
    · obtain ⟨newSeparator, newLeft, newChild, result, rotated⟩ :=
        rotateFromLeft_spec before (right :: after) keysBefore keysAfter sizes leftOk childOk lends
          short
      rw [Rebalances, rebalanceChild_eq (leftLends_append ..) isRight,
        if_pos (decide_eq_true lends)]
      exact ⟨_, _, result, rebalanced_of_rotated front rest rotated⟩
    · by_cases rightLends : maxKeys / 2 < right.keys.length
      · obtain ⟨next, more, rfl, rfl, forest⟩ : ∃ next more, keysAfter = next :: more ∧
            start = some next ∧ Forest (Child maxKeys height) (some next) upper more
              (right :: after) := by
          cases keysAfter with
          | nil => exact rest.elim
          | cons next more => exact ⟨next, more, rfl, rest⟩
        obtain ⟨start, rightOk, rest⟩ := forest_first.mp forest
        obtain ⟨newSeparator, newChild, newRight, result, rotated⟩ :=
          rotateFromRight_spec (before ++ [left]) after (keysBefore ++ [separator]) more
            (by simp [sizes]) childOk rightOk rightLends short
        rw [Rebalances, rebalanceChild_eq (leftLends_append ..) isRight,
          if_neg (by simpa using lends), if_pos (decide_eq_true rightLends)]
        have rebalanced := @rebalanced_of_rotated _ _ _ _ _ _ _ _ _ _ _ _ next
          (front.snoc leftOk) rest _ _ _ rotated
        simp only [append_assoc, singleton_append, length_append,
          length_singleton] at result rebalanced
        exact ⟨_, _, result, rebalanced⟩
      · exact rebalanceChild_merge front leftOk childOk rest sizes short lends isRight
          (decide_eq_false rightLends)

end

/-- A child with one key too few and at least one sibling is rebalanced. -/
theorem rebalanceChild_spec
    (front : Front (Child maxKeys height) lower reached keysBefore before)
    (childOk : Ok maxKeys height least reached start child)
    (rest : Rest (Child maxKeys height) start upper keysAfter after)
    (sizes : before.length = keysBefore.length) (short : child.keys.length + 1 = maxKeys / 2)
    (sibling : 0 < (keysBefore ++ keysAfter).length) :
    Rebalances maxKeys height lower upper (keysBefore ++ keysAfter) (before ++ child :: after)
      before.length := by
  rcases eq_nil_or_concat' before with rfl | ⟨before, left, rfl⟩
  · obtain rfl := length_eq_zero_iff.mp sizes.symm
    obtain rfl : reached = lower := front
    cases keysAfter with
    | nil => exact absurd sibling (Nat.lt_irrefl 0)
    | cons separator keysAfter =>
      obtain ⟨rfl, forest⟩ := rest
      cases after with
      | nil => cases forest.length_children
      | cons right after =>
        obtain ⟨start, rightOk, rest⟩ := forest_first.mp forest
        exact rebalanceChild_first childOk rightOk rest short
  · rcases eq_nil_or_concat' keysBefore with rfl | ⟨keysBefore, separator, rfl⟩
    · simp at sizes
    · obtain ⟨middle, farther, leftOk, rfl⟩ := front.last
      have sizes : before.length = keysBefore.length := by simpa using sizes
      have result := rebalanceChild_later farther leftOk childOk rest sizes short
      simpa using result

end Rebalance

/-! ## The whole deletion -/

section Delete

variable {reached start : Option Bytes} {keysBefore keysAfter : List Bytes}
  {before after : List Node} {key : Bytes}

/-- The separator before a child is set to the smallest key below it, or kept. -/
theorem refreshSeparator_spec {child : Node} (two : 2 ≤ maxKeys)
    (front : Front (Child maxKeys height) lower reached keysBefore before)
    (childOk : Ok maxKeys height least reached start child) (keysAfter : List Bytes) :
    ∃ newKeys newReached, refreshSeparator (keysBefore ++ keysAfter) keysBefore.length child =
        some (newKeys ++ keysAfter) ∧ newKeys.length = keysBefore.length ∧
      Front (Child maxKeys height) lower newReached newKeys before ∧
      Ok maxKeys height least newReached start child := by
  by_cases refreshed : 0 < keysBefore.length ∧ 0 < child.keys.length
  · obtain ⟨least, isLeast, above, below, raised⟩ := minimumKey_spec two childOk refreshed.2
    rcases eq_nil_or_concat' keysBefore with rfl | ⟨keysBefore, separator, rfl⟩
    · exact absurd refreshed.1 (Nat.lt_irrefl 0)
    rcases eq_nil_or_concat' before with rfl | ⟨before, left, rfl⟩
    · cases keysBefore with
      | nil => exact front.elim
      | cons _ _ => exact front.elim
    obtain ⟨middle, farther, leftOk, rfl⟩ := front.last
    refine ⟨keysBefore ++ [least], some least, ?_, by simp,
      farther.snoc (leftOk.raise (above_some.mp above)), raised⟩
    rw [refreshSeparator, if_pos refreshed, isLeast]
    simp
  · exact ⟨keysBefore, reached, if_neg refreshed, rfl, front, childOk⟩

/-- A node after the key was removed from one of its children. -/
theorem afterDelete_spec {child newChild : Node} (two : 2 ≤ maxKeys)
    (front : Front (Child maxKeys height) lower reached keysBefore before)
    (childOk : Ok maxKeys height (maxKeys / 2 - 1) reached start newChild)
    (rest : Rest (Child maxKeys height) start upper keysAfter after)
    (sizes : before.length = keysBefore.length) (sibling : 0 < (keysBefore ++ keysAfter).length) :
    ∃ newKeys newChildren,
      afterDelete (maxKeys / 2) (keysBefore ++ keysAfter) (before ++ child :: after) before.length
        newChild = some (.internal newKeys newChildren) ∧
      Rebalanced maxKeys height lower upper (keysBefore ++ keysAfter) (before ++ newChild :: after)
        newKeys newChildren := by
  obtain ⟨newKeys, newReached, refreshed, newSizes, newFront, newOk⟩ :=
    refreshSeparator_spec two front childOk keysAfter
  have replaced : (before ++ child :: after).set before.length newChild = before ++
    newChild :: after := by
    simp
  have sameLength : (newKeys ++ keysAfter).length = (keysBefore ++ keysAfter).length := by
    simp [newSizes]
  rw [afterDelete, sizes, refreshed]
  dsimp only [bind_eq_bind, bind_some]
  rw [← sizes, replaced]
  by_cases short : newChild.keys.length < maxKeys / 2
  · have enough := childOk.least_le
    obtain ⟨finalKeys, finalChildren, result, rebalanced⟩ :=
      rebalanceChild_spec newFront newOk rest (sizes.trans newSizes.symm) (by omega)
        (by rw [sameLength]; exact sibling)
    rw [if_pos short, result]
    refine ⟨finalKeys, finalChildren, rfl, rebalanced.forest, ?_, ?_, rebalanced.entries,
      rebalanced.links⟩
    · rw [← sameLength]
      exact rebalanced.enough
    · rw [← sameLength]
      exact rebalanced.few
  · rw [if_neg short]
    have kept : Forest (Child maxKeys height) newReached start [] [newChild] :=
      newOk.relax (not_lt.mp short)
    exact ⟨_, _, rfl, newFront.fill kept rest, by omega, by omega, rfl, .refl⟩

theorem deleteFromChild_append (minKeys : Nat) (key : Bytes) (before after : List Node)
    (child : Node) : deleteFromChild minKeys key before.length (before ++ child :: after) =
      child.deleteFrom minKeys key := by
  induction before with
  | nil => rw [length_nil, nil_append, deleteFromChild]
  | cons first before ih => rw [length_cons, cons_append, deleteFromChild, ih]

/-- What a deletion makes of a subtree: nothing if the key is absent. -/
structure Deletes (maxKeys : Nat) (key : Bytes) (height least : Nat) (lower upper : Option Bytes)
    (node newNode : Node) : Prop where
  ok : Ok maxKeys height (least - 1) lower upper newNode
  present : node.Holds key
  entries : newNode.entries = SortedMap.erase key node.entries
  links : LinkMerges node.links newNode.links

theorem deleteFrom_leaf_spec {id : Nat} {keys values : List Bytes} {next : Option Nat}
    (ok : Ok maxKeys 0 least lower upper (.leaf id keys values next)) :
    ((Node.leaf id keys values next).deleteFrom (maxKeys / 2) key = some none ∧
        ¬ (Node.leaf id keys values next).Holds key) ∨
      ∃ newNode, (Node.leaf id keys values next).deleteFrom (maxKeys / 2) key =
        some (some newNode) ∧ Deletes maxKeys key 0 least lower upper
          (.leaf id keys values next) newNode := by
  obtain ⟨gap, ascending, sizes, inside, enough, few⟩ := ok
  obtain ⟨left, right, rfl, below, cut⟩ := search_cut ascending key
  obtain ⟨leftValues, rightValues, rfl, leftSize, rightSize⟩ := values_cut sizes
  have absentLeft : ∀ entry ∈ List.zipWith Binding.mk left leftValues, entry.key ≠ key :=
    fun entry mem => (below _ (key_mem_of_mem_zip mem)).ne
  rw [Node.deleteFrom]
  rcases cut with ⟨found, rest, rfl⟩ | ⟨found, strictly⟩
  · obtain ⟨old, oldRest, rfl⟩ : ∃ old oldRest, rightValues = old :: oldRest :=
      exists_cons_of_length_eq_add_one rightSize
    obtain ⟨leftAscending, rightAscending, across⟩ := pairwise_append.mp ascending
    obtain ⟨above, restAscending⟩ := pairwise_cons.mp rightAscending
    have absentRest : ∀ entry ∈ List.zipWith Binding.mk rest oldRest, entry.key ≠ key :=
      fun entry mem => (above _ (key_mem_of_mem_zip mem)).ne'
    have zipped : List.zipWith Binding.mk (left ++ key :: rest) (leftValues ++ old :: oldRest) =
        List.zipWith Binding.mk left leftValues ++
          ([⟨key, old⟩] ++ List.zipWith Binding.mk rest oldRest) := zip_append leftSize
    rw [found]
    dsimp only
    rw [if_pos rfl, deleteAt_append, ← leftSize]
    dsimp only [bind_eq_bind, bind_some]
    rw [deleteAt_append]
    simp only [length_append, length_cons] at sizes enough few
    refine .inr ⟨.leaf id (left ++ rest) (leftValues ++ oldRest) next, rfl,
      ⟨gap, ?_, ?_, ?_, ?_, ?_⟩, ⟨⟨key, old⟩, ?_, rfl⟩, ?_, ?_⟩
    · exact pairwise_append.mpr ⟨leftAscending, restAscending, fun low isLow high isHigh =>
        across low isLow high (mem_cons_of_mem _ isHigh)⟩
    · simp only [length_append]
      omega
    · intro held mem
      refine inside held ?_
      rcases mem_append.mp mem with inLeft | inRest
      · exact mem_append_left _ inLeft
      · exact mem_append_right _ (mem_cons_of_mem _ inRest)
    · simp only [length_append]
      omega
    · simp only [length_append]
      omega
    · rw [entries_leaf, zipped]
      simp
    · rw [entries_leaf, entries_leaf, zipped, SortedMap.erase_middle absentLeft absentRest,
        zip_append leftSize]
      simp [SortedMap.erase]
    · rw [links_leaf, links_leaf]
  · rw [found]
    dsimp only
    rw [if_neg Bool.false_ne_true]
    refine .inl ⟨rfl, ?_⟩
    rintro ⟨entry, mem, same⟩
    rw [entries_leaf, zip_append leftSize] at mem
    rcases mem_append.mp mem with inLeft | inRight
    · exact absentLeft entry inLeft same
    · exact (strictly _ (key_mem_of_mem_zip inRight)).ne' same

theorem deleteFrom_spec (two : 2 ≤ maxKeys) : ∀ {height least : Nat} {lower upper : Option Bytes}
    {node : Node}, Ok maxKeys height least lower upper node → 1 ≤ least → Above lower key →
      Below upper key → (node.deleteFrom (maxKeys / 2) key = some none ∧ ¬ node.Holds key) ∨
        ∃ newNode, node.deleteFrom (maxKeys / 2) key = some (some newNode) ∧
          Deletes maxKeys key height least lower upper node newNode
  | 0, _, _, _, .leaf _ _ _ _, ok, _, _, _ => deleteFrom_leaf_spec ok
  | height + 1, least, lower, upper, .internal keys children, ok, nonempty, above, below => by
    obtain ⟨forest, enough, few⟩ := ok
    obtain ⟨left, right, rfl, atMost, past, chosen⟩ :=
      childIndex_cut (forest.ascending fun _ _ _ => Ok.gap) key
    obtain ⟨before, child, after, reached, start, rfl, sizes, front, good, rest⟩ := forest.focus
    obtain ⟨entriesBefore, entriesAfter⟩ := entries_around front rest atMost past
    have absentBefore : ∀ entry ∈ flatAll entryView before, entry.key ≠ key :=
      fun entry mem => (entriesBefore entry mem).ne
    have absentAfter : ∀ entry ∈ flatAll entryView after, entry.key ≠ key :=
      fun entry mem => (entriesAfter entry mem).ne'
    have step := deleteFromChild_append (maxKeys / 2) key before after child
    rw [Node.deleteFrom, chosen, ← sizes, step]
    rcases deleteFrom_spec two good (by omega) (front.above atMost above) (rest.below past below)
      with ⟨result, absent⟩ | ⟨newChild, result, ok, present, entries, links⟩
    · rw [result]
      refine .inl ⟨rfl, ?_⟩
      rintro ⟨entry, mem, same⟩
      rw [entries_internal, flatAll_append, flatAll_cons] at mem
      rcases mem_append.mp mem with inBefore | inside
      · exact absentBefore entry inBefore same
      rcases mem_append.mp inside with inChild | inAfter
      · exact absent ⟨entry, inChild, same⟩
      · exact absentAfter entry inAfter same
    · rw [result]
      obtain ⟨newKeys, newChildren, done, rebalanced⟩ :=
        @afterDelete_spec _ _ _ _ _ _ _ _ _ _ child newChild two front ok rest sizes (by omega)
      dsimp only [bind_eq_bind, bind_some]
      rw [done]
      refine .inr ⟨.internal newKeys newChildren, rfl, ⟨rebalanced.forest, ?_, ?_⟩, ?_, ?_, ?_⟩
      · have := rebalanced.enough
        omega
      · exact rebalanced.few.trans few
      · obtain ⟨entry, mem, same⟩ := present
        refine ⟨entry, ?_, same⟩
        rw [entries_internal, flatAll_append, flatAll_cons]
        exact mem_append_right _ (mem_append_left _ mem)
      · rw [entries_internal, rebalanced.entries, entries_internal, flatAll_append, flatAll_cons,
          flatAll_append, flatAll_cons, SortedMap.erase_middle absentBefore absentAfter, ← entries]
      · refine Relation.ReflTransGen.trans ?_ rebalanced.links
        rw [links_internal, flatAll_append, flatAll_cons, flatAll_append, flatAll_cons]
        exact links.context _ _

end Delete

end GoDatabase.Memory
