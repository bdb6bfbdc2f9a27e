import GoDatabase.Tree.Shape

/-!
# What a deletion makes of the children of a node

The four ways in which a node takes in a child that a deletion has changed, each with the sizes
under which it happens.  What a deletion does to a tree as a whole is read off from
them.
-/

namespace GoDatabase

open Library List Option

variable {h : Nat}

/-- A child that is merged if it can be. -/
def Small (items : List (Item Unit h)) : Prop := items.length = 0 ∨ pageBytes items ≤ pageSize / 4

/-- The children of a node after the items of the child between `before` and `after` have
changed. -/
inductive Settles (before after : List (Item Unit (h + 1))) (items : List (Item Unit h)) :
    List (Item Unit (h + 1)) → Prop
  | left (front : List (Item Unit (h + 1))) (sibling : Item Unit (h + 1))
      (shape : before = front ++ [sibling]) (small : Small items)
      (inside : pageBytes (sibling.items ++ items) ≤ pageSize) :
      Settles before after items (front ++ Item.node () (sibling.items ++ items) :: after)
  | right (sibling : Item Unit (h + 1)) (back : List (Item Unit (h + 1)))
      (shape : after = sibling :: back) (small : Small items)
      (apart : ∀ front sibling, before = front ++ [sibling] →
        pageSize < pageBytes (sibling.items ++ items))
      (inside : pageBytes (items ++ sibling.items) ≤ pageSize) :
      Settles before after items (before ++ Item.node () (items ++ sibling.items) :: back)
  | dropped (alone : before = [] ∧ after = []) (empty : items = []) : Settles before after items []
  | kept (nonempty : items ≠ [])
      (apart : Small items →
        (∀ front sibling, before = front ++ [sibling] → pageSize <
          pageBytes (sibling.items ++ items)) ∧
        ∀ sibling back, after = sibling :: back → pageSize < pageBytes (items ++ sibling.items)) :
      Settles before after items (before ++ Item.node () items :: after)

/-- At most one child goes. -/
theorem Settles.length_le {before after result : List (Item Unit (h + 1))}
    {items : List (Item Unit h)}
    (settles : Settles before after items result) : before.length + after.length ≤
      result.length := by
  cases settles with
  | left front sibling shape small inside =>
    simp only [shape, length_append, length_cons, length_nil]
    omega
  | right sibling back shape small apart inside =>
    simp only [shape, length_append, length_cons]
    omega
  | dropped alone empty => simp [alone.1, alone.2]
  | kept nonempty apart =>
    simp only [length_append, length_cons]
    omega

section Rebalance

variable {before after : List (Item Unit (h + 1))} {child : Item Unit (h + 1)}
  {items : List (Item Unit h)}

theorem siblingMerge_small (children : List (Item Unit (h + 1))) (idx : Nat) (small : Small items) :
    siblingMerge children idx items =
      (leftMerge children idx items).or (rightMerge children idx items) := if_pos small

theorem leftMerge_concat (front : List (Item Unit (h + 1))) (sibling : Item Unit (h + 1)) :
    leftMerge (front ++ [sibling] ++ child :: after) (front ++ [sibling]).length items =
      if pageBytes (sibling.items ++ items) ≤ pageSize then
        some ⟨front.length, sibling, sibling.items ++ items⟩ else none := by
  have here : (front ++ [sibling] ++ child :: after)[(front ++ [sibling]).length - 1]? =
      some sibling := by simp
  have width : (front ++ [sibling]).length - 1 = front.length := by simp
  rw [leftMerge, if_pos (by simp), here, width]

theorem rightMerge_cons (sibling : Item Unit (h + 1)) (back : List (Item Unit (h + 1))) :
    rightMerge (before ++ child :: sibling :: back) before.length items =
      if pageBytes (items ++ sibling.items) ≤ pageSize then
        some ⟨before.length, sibling, items ++ sibling.items⟩ else none := by
  have here : (before ++ child :: sibling :: back)[before.length + 1]? = some sibling := by simp
  rw [rightMerge, here]

theorem rightMerge_last : rightMerge (before ++ [child]) before.length items = none := by
  have none : (before ++ [child])[before.length + 1]? = none := by simp
  rw [rightMerge, none]

/-- What a left merge leaves. -/
theorem rebalance_left (front : List (Item Unit (h + 1))) (sibling : Item Unit (h + 1))
    (small : Small items) (inside : pageBytes (sibling.items ++ items) ≤ pageSize) :
    rebalance (front ++ [sibling] ++ child :: after) (front ++ [sibling]).length items =
      boundedItems (front ++ Item.node () (sibling.items ++ items) :: after) := by
  have taken : (front ++ [sibling] ++ child :: after).take front.length = front := by simp
  have dropped : (front ++ [sibling] ++ child :: after).drop (front.length + 2) = after := by
    simp [drop_append]
  rw [rebalance, siblingMerge_small _ _ small, leftMerge_concat, if_pos inside]
  simp only [some_or, taken, dropped]

/-- What a right merge leaves. -/
theorem rebalance_right (sibling : Item Unit (h + 1)) (back : List (Item Unit (h + 1)))
    (small : Small items)
    (apart : leftMerge (before ++ child :: sibling :: back) before.length items = none)
    (inside : pageBytes (items ++ sibling.items) ≤ pageSize) :
    rebalance (before ++ child :: sibling :: back) before.length items =
      boundedItems (before ++ Item.node () (items ++ sibling.items) :: back) := by
  have taken : (before ++ child :: sibling :: back).take before.length = before := by simp
  have dropped : (before ++ child :: sibling :: back).drop (before.length + 2) = back := by
    simp [drop_append]
  rw [rebalance, siblingMerge_small _ _ small, apart, rightMerge_cons, if_pos inside]
  simp only [none_or, taken, dropped]

/-- A child that is not merged stays or, if it is empty, goes. -/
theorem rebalance_apart
    (apart : siblingMerge (before ++ child :: after) before.length items = none) :
    rebalance (before ++ child :: after) before.length items =
      if items.length = 0 then .removed (before ++ after)
      else boundedItems (before ++ Item.node () items :: after) := by
  have taken : (before ++ child :: after).take before.length = before := by simp
  have dropped : (before ++ child :: after).drop (before.length + 1) = after := by simp
  rw [rebalance, apart]
  simp only [taken, dropped]

theorem leftMerge_eq_none : leftMerge (before ++ child :: after) before.length items = none ↔
    ∀ front sibling, before = front ++ [sibling] → pageSize <
      pageBytes (sibling.items ++ items) := by
  rcases eq_nil_or_concat before with rfl | ⟨front, sibling, rfl⟩
  · rw [leftMerge, if_neg (by simp)]
    simp
  rw [concat_eq_append, leftMerge_concat]
  constructor
  · intro none other otherSibling same
    obtain ⟨-, sameSibling⟩ := append_inj' same rfl
    rw [← singleton_inj.mp sameSibling]
    by_contra inside
    rw [if_pos (Nat.le_of_not_lt inside)] at none
    cases none
  · intro large
    rw [if_neg (Nat.not_le.mpr (large front sibling rfl))]

theorem rightMerge_eq_none : rightMerge (before ++ child :: after) before.length items = none ↔
    ∀ sibling back, after = sibling :: back → pageSize < pageBytes (items ++ sibling.items) := by
  cases after with
  | nil => simp [rightMerge_last]
  | cons sibling back =>
    rw [rightMerge_cons]
    constructor
    · rintro none other otherBack ⟨⟩
      by_contra inside
      rw [if_pos (Nat.le_of_not_lt inside)] at none
      cases none
    · intro large
      rw [if_neg (Nat.not_le.mpr (large sibling back rfl))]

/-- An empty child goes, one way or the other. -/
theorem siblingMerge_eq_none_of_empty (fit : ∀ item ∈ before ++ child :: after, item.Fit)
    (apart : siblingMerge (before ++ child :: after) before.length ([] : List (Item Unit h)) = none)
      :
    before = [] ∧ after = [] := by
  rw [siblingMerge_small _ _ (.inl rfl), or_eq_none_iff, leftMerge_eq_none,
    rightMerge_eq_none] at apart
  constructor
  · by_contra nonempty
    obtain ⟨front, sibling, rfl⟩ := (eq_nil_or_concat before).resolve_left nonempty
    have large := apart.1 front sibling concat_eq_append
    rw [append_nil] at large
    exact absurd (fit sibling (by simp)).inside (Nat.not_le.mpr large)
  · cases after with
    | nil => rfl
    | cons sibling back =>
      have large := apart.2 sibling back rfl
      rw [nil_append] at large
      exact absurd (fit sibling (by simp)).inside (Nat.not_le.mpr large)

/-- The ways in which a node takes in a changed child. -/
theorem rebalance_settles (fit : ∀ item ∈ before ++ child :: after, item.Fit)
    (items : List (Item Unit h)) : ∃ result, Settles before after items result ∧
      rebalance (before ++ child :: after) before.length items = boundedItems result := by
  by_cases apart : siblingMerge (before ++ child :: after) before.length items = none
  · rw [rebalance_apart apart]
    by_cases empty : items.length = 0
    · obtain rfl := length_eq_zero_iff.mp empty
      obtain ⟨rfl, rfl⟩ := siblingMerge_eq_none_of_empty fit apart
      exact ⟨[], .dropped ⟨rfl, rfl⟩ rfl, rfl⟩
    · rw [if_neg empty]
      refine ⟨_, .kept (fun none => empty (by rw [none]; rfl)) fun small => ?_, rfl⟩
      rw [siblingMerge_small _ _ small, or_eq_none_iff] at apart
      exact ⟨leftMerge_eq_none.mp apart.1, rightMerge_eq_none.mp apart.2⟩
  · have small : Small items := by
      by_contra large
      exact apart (by rw [siblingMerge]; exact if_neg large)
    by_cases leftApart : leftMerge (before ++ child :: after) before.length items = none
    · rw [siblingMerge_small _ _ small, leftApart, none_or] at apart
      cases after with
      | nil => exact absurd rightMerge_last apart
      | cons sibling back =>
        rw [rightMerge_cons] at apart
        have inside : pageBytes (items ++ sibling.items) ≤ pageSize := by
          by_contra large
          exact apart (if_neg large)
        exact ⟨_, .right sibling back rfl small (leftMerge_eq_none.mp leftApart) inside,
          rebalance_right sibling back small leftApart inside⟩
    · rcases eq_nil_or_concat before with rfl | ⟨front, sibling, rfl⟩
      · exact absurd (leftMerge_eq_none.mpr (by simp)) leftApart
      · rw [concat_eq_append] at leftApart ⊢
        rw [leftMerge_concat] at leftApart
        have inside : pageBytes (sibling.items ++ items) ≤ pageSize := by
          by_contra large
          exact leftApart (if_neg large)
        exact ⟨_, .left front sibling rfl small inside, rebalance_left front sibling small inside⟩

end Rebalance

/-! ## Deletion below a node -/

section Delete

variable {key : Bytes} {items before after : List (Item Unit (h + 1))} {child : Item Unit (h + 1)}

theorem deleteItems_eq (around : Around items key before child after) : deleteItems key items =
      match deleteItems key child.items with
      | .absent => .absent
      | .overflow => .overflow
      | .removed updated => rebalance (before ++ child :: after) before.length updated := by
  rewrite [deleteItems_succ, around.getElem?_eq, around.index, around.shape]
  rfl

/-- A deletion below a child changes the node in one of the four ways. -/
theorem deleteItems_of_removed (descends : Descends items key)
    (around : Around items key before child after) {updated : List (Item Unit h)}
    (removed : deleteItems key child.items = .removed updated) :
    ∃ result, Settles before after updated result ∧ deleteItems key items =
      boundedItems result := by
  rw [deleteItems_eq around, removed]
  exact rebalance_settles (around.shape ▸ descends.fit) updated

/-- A successful deletion comes from one below the child that the key belongs to. -/
theorem deleteItems_inversion (descends : Descends items key)
    (around : Around items key before child after) {result : List (Item Unit (h + 1))}
    (removed : deleteItems key items = .removed result) :
    ∃ updated, deleteItems key child.items = .removed updated ∧
      Settles before after updated result ∧ pageBytes result ≤ pageSize := by
  cases outcome : deleteItems key child.items with
  | absent =>
    rw [deleteItems_eq around, outcome] at removed
    cases removed
  | overflow =>
    rw [deleteItems_eq around, outcome] at removed
    cases removed
  | removed updated =>
    obtain ⟨settled, settles, bounded⟩ := deleteItems_of_removed descends around outcome
    rw [removed] at bounded
    obtain ⟨rfl, inside⟩ := boundedItems_eq_removed bounded.symm
    exact ⟨updated, rfl, settles, inside⟩

end Delete

end GoDatabase
