import Mathlib.Data.List.GetD
import Mathlib.Data.List.Nodup
import Mathlib.Order.Lattice

/-!
# Binary search

The loop behind `sort.Search`: it narrows a half-open interval until it is empty
and returns the lower end.  On a predicate that switches from false to true once
the result is the switching point.
-/

namespace Library

open List

/-- One run of the halving loop on `[low, high)`.  The interval shrinks in every
round, so `high - low` rounds are enough. -/
def searchLoop (accept : Nat → Bool) : (rounds low high : Nat) → Nat
  | 0, low, _ => low
  | rounds + 1, low, high =>
    if low < high then
      let middle := (low + high) / 2
      if accept middle then
        searchLoop accept rounds low middle
      else
        searchLoop accept rounds (middle + 1) high
    else
      low

/-- The smallest accepted index of `[0, size)`, or `size`. -/
def search (size : Nat) (accept : Nat → Bool) : Nat := searchLoop accept size 0 size

/-- A predicate on `[0, size)` that never switches back to false. -/
def Ascending (size : Nat) (accept : Nat → Bool) : Prop :=
  ∀ left right, left ≤ right → right < size → accept left = true → accept right = true

variable {accept : Nat → Bool} {size : Nat} {α : Type} {values : List α}

theorem searchLoop_spec (ascending : Ascending size accept) :
    ∀ rounds low high, low ≤ high → high ≤ size → high - low ≤ rounds →
      (∀ index, index < low → accept index = false) →
      (∀ index, high ≤ index → index < size → accept index = true) →
      searchLoop accept rounds low high ≤ high ∧
      (∀ index, index < searchLoop accept rounds low high → accept index = false) ∧
      (∀ index, searchLoop accept rounds low high ≤ index → index < size →
        accept index = true) := by
  intro rounds
  induction rounds with
  | zero =>
    intro low high ordered _ enough below above
    have closed : low = high := by omega
    subst closed
    exact ⟨Nat.le_refl _, below, above⟩
  | succ rounds ih =>
    intro low high ordered inside enough below above
    unfold searchLoop
    by_cases proper : low < high
    · rw [if_pos proper]
      dsimp only
      by_cases accepted : accept ((low + high) / 2) = true
      · rw [if_pos accepted]
        have result := ih low ((low + high) / 2) (by omega) (by omega) (by omega) below (by
          intro index past bound
          exact ascending _ _ past bound accepted)
        exact ⟨by omega, result.2⟩
      · rw [if_neg accepted]
        apply ih ((low + high) / 2 + 1) high (by omega) inside (by omega) ?_ above
        intro index before
        -- an accepted index up to the middle would make the middle accepted
        by_contra wrong
        exact accepted (ascending index _ (by omega) (by omega) (by simpa using wrong))
    · rw [if_neg proper]
      have closed : low = high := by omega
      subst closed
      exact ⟨Nat.le_refl _, below, above⟩

/-- The result of a search separates the rejected from the accepted indices. -/
theorem search_spec (ascending : Ascending size accept) : search size accept ≤ size ∧
      (∀ index, index < search size accept → accept index = false) ∧
      (∀ index, search size accept ≤ index → index < size → accept index = true) := by
  apply searchLoop_spec ascending size 0 size (by omega) (Nat.le_refl _) (by omega)
  · intro index negative
    omega
  · intro index past bound
    omega

/-- A separating index is the result of the search. -/
theorem search_eq {point : Nat} (bound : point ≤ size)
    (below : ∀ index, index < point → accept index = false)
    (above : ∀ index, point ≤ index → index < size → accept index = true) :
    search size accept = point := by
  have ascending : Ascending size accept := by
    intro left right ordered inside accepted
    apply above right ?_ inside
    by_contra early
    have rejected := below left (by omega)
    rw [rejected] at accepted
    exact Bool.noConfusion accepted
  obtain ⟨resultBound, resultBelow, resultAbove⟩ := search_spec ascending
  by_contra ne
  rcases Nat.lt_or_gt_of_ne ne with early | late
  · have accepted := resultAbove _ (Nat.le_refl (search size accept)) (by omega)
    rw [below _ early] at accepted
    exact Bool.noConfusion accepted
  · have rejected := resultBelow _ late
    rw [above _ (Nat.le_refl point) (by omega)] at rejected
    exact Bool.noConfusion rejected

/-- A list on which a predicate switches from false to true once is cut at the switching
point, and the search over its indices finds the cut. -/
theorem exists_cut (accept : α → Bool) (default : α)
    (ascending : values.Pairwise fun left right => accept left = true → accept right = true) :
    ∃ left right, values = left ++ right ∧ (∀ value ∈ left, accept value = false) ∧
      (∀ value ∈ right, accept value = true) ∧
      search values.length (fun idx => accept (values.getD idx default)) = left.length := by
  have cut : ∃ left right, values = left ++ right ∧ (∀ value ∈ left, accept value = false) ∧
      ∀ value ∈ right, accept value = true := by
    induction values with
    | nil => exact ⟨[], [], rfl, nofun, nofun⟩
    | cons first rest ih =>
      obtain ⟨later, ascendingRest⟩ := pairwise_cons.mp ascending
      by_cases accepted : accept first = true
      · refine ⟨[], first :: rest, rfl, nofun, ?_⟩
        exact forall_mem_cons.mpr ⟨accepted, fun value mem => later value mem accepted⟩
      · obtain ⟨left, right, rfl, below, above⟩ := ih ascendingRest
        refine ⟨first :: left, right, rfl, ?_, above⟩
        exact forall_mem_cons.mpr ⟨Bool.eq_false_iff.mpr accepted, below⟩
  obtain ⟨left, right, rfl, below, above⟩ := cut
  refine ⟨left, right, rfl, below, above, search_eq (by simp) ?_ ?_⟩
  · intro idx inLeft
    rw [getD_append _ _ _ _ inLeft, getD_eq_getElem _ _ inLeft]
    exact below _ (getElem_mem inLeft)
  · intro idx past inside
    have inRight : idx - left.length < right.length := by
      rw [length_append] at inside
      omega
    rw [getD_append_right _ _ _ _ past, getD_eq_getElem _ _ inRight]
    exact above _ (getElem_mem inRight)

/-- An element is found by a mark that no other element has. -/
theorem find?_of_nodup {β : Type} [DecidableEq β] {mark : α → β}
    (distinct : (values.map mark).Nodup) {value : α} (mem : value ∈ values) :
    (values.find? fun other => mark other = mark value) = some value := by
  induction values with
  | nil => cases mem
  | cons first rest ih =>
    obtain ⟨absent, distinctRest⟩ := nodup_cons.mp distinct
    rcases mem_cons.mp mem with rfl | later
    · exact List.find?_cons_of_pos (by simp)
    · have ne : mark first ≠ mark value := fun same =>
        absent (same ▸ mem_map_of_mem later)
      rw [List.find?_cons_of_neg (by simpa using ne)]
      exact ih distinctRest later

end Library
