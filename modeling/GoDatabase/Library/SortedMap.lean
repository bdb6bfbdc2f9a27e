import Mathlib.Data.List.Basic
import Mathlib.Order.Lattice

/-!
# Finite maps as sorted lists of bindings

The ordered map that a search tree represents.  A tree keeps its bindings in the
leaves, so the list of a tree is the concatenation of the lists of its subtrees;
the append lemmas say that an update only touches the part in whose key range it
falls.
-/

namespace Library

open List Option

/-- A key together with its value. -/
structure Binding (K V : Type) where
  key : K
  value : V
  deriving DecidableEq, Repr

namespace SortedMap

variable {K V : Type} [LinearOrder K]

/-- The keys are strictly ascending. -/
def Sorted (bindings : List (Binding K V)) : Prop :=
  bindings.Pairwise fun left right => left.key < right.key

/-- The value bound to a key. -/
def lookup (bindings : List (Binding K V)) (key : K) : Option V :=
  (bindings.find? fun binding => binding.key = key).map Binding.value

/-- Bind a key, replacing an earlier value. -/
def put (key : K) (value : V) : List (Binding K V) → List (Binding K V)
  | [] => [⟨key, value⟩]
  | binding :: rest =>
    if key < binding.key then ⟨key, value⟩ :: binding :: rest
    else if key = binding.key then ⟨key, value⟩ :: rest
    else binding :: put key value rest

/-- Remove the binding of a key. -/
def erase (key : K) (bindings : List (Binding K V)) : List (Binding K V) :=
  bindings.filter fun binding => binding.key ≠ key

/-! ## Lookup -/

@[simp] theorem lookup_nil (key : K) : lookup ([] : List (Binding K V)) key = none := rfl

theorem lookup_cons (binding : Binding K V) (rest : List (Binding K V)) (key : K) :
    lookup (binding :: rest) key =
      if binding.key = key then some binding.value else lookup rest key := by
  rw [lookup, List.find?_cons]
  by_cases same : binding.key = key
  · simp [same]
  · simp [same, lookup]

variable {bindings before middle after : List (Binding K V)} {key : K} {binding : Binding K V}
  {value : V}

theorem lookup_eq_none
    (absent : ∀ binding ∈ bindings, binding.key ≠ key) : lookup bindings key = none := by
  induction bindings with
  | nil => rfl
  | cons binding rest ih =>
    rw [lookup_cons, if_neg (absent binding (mem_cons_self ..))]
    exact ih fun other mem => absent other (mem_cons_of_mem _ mem)

theorem ne_of_lookup_eq_none
    (absent : lookup bindings key = none) : ∀ binding ∈ bindings, binding.key ≠ key := by
  induction bindings with
  | nil => nofun
  | cons head rest ih =>
    rw [lookup_cons] at absent
    split_ifs at absent with same
    exact forall_mem_cons.mpr ⟨same, ih absent⟩

theorem lookup_append (left right : List (Binding K V)) (key : K) :
    lookup (left ++ right) key = (lookup left key).or (lookup right key) := by
  induction left with
  | nil => rfl
  | cons binding left ih =>
    rw [cons_append, lookup_cons, lookup_cons, ih]
    split <;> rfl

/-- A filter that looks at the keys only. -/
theorem lookup_filter (keep : K → Bool) (bindings : List (Binding K V)) (key : K) :
    lookup (bindings.filter fun binding => keep binding.key) key =
      if keep key then lookup bindings key else none := by
  induction bindings with
  | nil => exact (ite_self none).symm
  | cons binding rest ih =>
    rw [filter_cons, lookup_cons]
    by_cases kept : keep binding.key = true
    · rw [if_pos kept, lookup_cons, ih]
      by_cases same : binding.key = key
      · rw [if_pos same, if_pos same, if_pos (same ▸ kept)]
      · rw [if_neg same, if_neg same]
    · rw [if_neg kept, ih]
      by_cases same : binding.key = key
      · rw [if_neg (same ▸ kept), if_neg (same ▸ kept)]
      · rw [if_neg same]

/-- Keys that are listed with a value for each. -/
theorem lookup_map (value : K → V) (keys : List K) (key : K) :
    lookup (keys.map fun key => ⟨key, value key⟩) key = if key ∈ keys then some (value key)
      else none := by
  induction keys with
  | nil => rfl
  | cons first rest ih =>
    rw [map_cons, lookup_cons, ih]
    by_cases same : first = key
    · rw [if_pos same, if_pos (mem_cons.mpr (.inl same.symm)), same]
    · rw [if_neg same]
      refine if_congr ?_ rfl rfl
      rw [mem_cons]
      exact (or_iff_right (Ne.symm same)).symm

/-- Looking up in a concatenation whose outer parts do not hold the key. -/
theorem lookup_middle (absentBefore : ∀ binding ∈ before, binding.key ≠ key)
    (absentAfter : ∀ binding ∈ after, binding.key ≠ key) :
    lookup (before ++ (middle ++ after)) key = lookup middle key := by
  rw [lookup_append, lookup_append, lookup_eq_none absentBefore, lookup_eq_none absentAfter,
    none_or, or_none]

theorem lookup_eq_some_of_mem (sorted : Sorted bindings) (mem : binding ∈ bindings) :
    lookup bindings binding.key = some binding.value := by
  induction bindings with
  | nil => cases mem
  | cons head rest ih =>
    obtain ⟨least, sortedRest⟩ := pairwise_cons.mp sorted
    rw [lookup_cons]
    rcases mem_cons.mp mem with rfl | later
    · rw [if_pos rfl]
    · rw [if_neg (least binding later).ne]
      exact ih sortedRest later

theorem mem_of_lookup_eq_some
    (found : lookup bindings key = some value) : ⟨key, value⟩ ∈ bindings := by
  induction bindings with
  | nil => cases found
  | cons binding rest ih =>
    rw [lookup_cons] at found
    by_cases same : binding.key = key
    · rw [if_pos same] at found
      rw [← same, ← some.inj found]
      exact mem_cons_self ..
    · rw [if_neg same] at found
      exact mem_cons_of_mem _ (ih found)

/-- Sorted lists with the same bindings are the same. -/
theorem ext_lookup {left right : List (Binding K V)} (sortedLeft : Sorted left)
    (sortedRight : Sorted right) (same : ∀ key, lookup left key = lookup right key) : left =
      right := by
  have contains : ∀ {left right : List (Binding K V)}, Sorted left →
      (∀ key, lookup left key = lookup right key) → ∀ binding ∈ left, binding ∈ right := by
    intro left right sorted same binding mem
    have found := lookup_eq_some_of_mem sorted mem
    rw [same] at found
    exact mem_of_lookup_eq_some found
  have nodup : ∀ {bindings : List (Binding K V)}, Sorted bindings → bindings.Nodup :=
    fun sorted => List.Pairwise.imp (fun less same => less.ne (congrArg Binding.key same)) sorted
  have perm : left.Perm right := (perm_ext_iff_of_nodup (nodup sortedLeft) (nodup sortedRight)).mpr
    fun binding =>
      ⟨contains sortedLeft same binding, contains sortedRight (fun key => (same key).symm) binding⟩
  exact perm.eq_of_pairwise (fun _ _ _ _ less greater => absurd less greater.asymm) sortedLeft
    sortedRight

/-! ## Update -/

theorem put_append_of_lt {before rest : List (Binding K V)} {key : K} {value : V}
    (below : ∀ binding ∈ before, binding.key < key) :
    put key value (before ++ rest) = before ++ put key value rest := by
  induction before with
  | nil => rfl
  | cons binding before ih =>
    have less := below binding (mem_cons_self ..)
    rw [cons_append, put, if_neg less.not_gt, if_neg less.ne', cons_append,
      ih fun other mem => below other (mem_cons_of_mem _ mem)]

theorem put_append_of_gt {bindings after : List (Binding K V)} {key : K} {value : V}
    (above : ∀ binding ∈ after, key < binding.key) :
    put key value (bindings ++ after) = put key value bindings ++ after := by
  induction bindings with
  | nil =>
    cases after with
    | nil => rfl
    | cons binding after =>
      have first := above binding (mem_cons_self ..)
      simp only [nil_append, put, if_pos first, cons_append]
  | cons binding bindings ih =>
    rw [cons_append, put, put, ih]
    split_ifs <;> rfl

/-- Binding a key in the middle of three parts. -/
theorem put_middle (below : ∀ binding ∈ before, binding.key < key)
    (above : ∀ binding ∈ after, key < binding.key) :
    put key value (before ++ (middle ++ after)) = before ++ (put key value middle ++ after) := by
  rw [put_append_of_lt below, put_append_of_gt above]

theorem mem_put
    (mem : binding ∈ put key value bindings) : binding = ⟨key, value⟩ ∨ binding ∈ bindings := by
  induction bindings with
  | nil => exact .inl (mem_singleton.mp mem)
  | cons head rest ih =>
    rw [put] at mem
    split_ifs at mem with before same
    · rcases mem_cons.mp mem with new | old
      · exact .inl new
      · exact .inr old
    · rcases mem_cons.mp mem with new | old
      · exact .inl new
      · exact .inr (mem_cons_of_mem _ old)
    · rcases mem_cons.mp mem with first | later
      · exact .inr (first ▸ mem_cons_self ..)
      · rcases ih later with new | old
        · exact .inl new
        · exact .inr (mem_cons_of_mem _ old)

theorem sorted_put (sorted : Sorted bindings) (key : K)
    (value : V) : Sorted (put key value bindings) := by
  induction bindings with
  | nil => exact pairwise_singleton _ _
  | cons head rest ih =>
    obtain ⟨least, sortedRest⟩ := pairwise_cons.mp sorted
    rw [put]
    split_ifs with before same
    · refine pairwise_cons.mpr ⟨?_, sorted⟩
      intro binding mem
      rcases mem_cons.mp mem with rfl | later
      · exact before
      · exact before.trans (least binding later)
    · refine pairwise_cons.mpr ⟨?_, sortedRest⟩
      intro binding mem
      rw [same]
      exact least binding mem
    · refine pairwise_cons.mpr ⟨?_, ih sortedRest⟩
      intro binding mem
      rcases mem_put mem with rfl | old
      · exact lt_of_le_of_ne (not_lt.mp before) (Ne.symm same)
      · exact least binding old

/-- A new key adds one binding. -/
theorem put_perm (absent : ∀ binding ∈ bindings, binding.key ≠ key) (value : V) :
    (put key value bindings).Perm (⟨key, value⟩ :: bindings) := by
  induction bindings with
  | nil => exact .refl _
  | cons binding rest ih =>
    rw [put, if_neg (absent binding mem_cons_self).symm]
    by_cases first : key < binding.key
    · rw [if_pos first]
    · rw [if_neg first]
      exact ((ih fun other mem => absent other (mem_cons_of_mem _ mem)).cons _).trans
        (.swap ..)

theorem lookup_put_self (bindings : List (Binding K V)) (key : K) (value : V) :
    lookup (put key value bindings) key = some value := by
  induction bindings with
  | nil => rw [put, lookup_cons, if_pos rfl]
  | cons head rest ih =>
    rw [put]
    split_ifs with before same
    · rw [lookup_cons, if_pos rfl]
    · rw [lookup_cons, if_pos rfl]
    · rw [lookup_cons, if_neg (Ne.symm same), ih]

variable {other : K}

theorem lookup_put_of_ne (bindings : List (Binding K V)) (value : V)
    (ne : other ≠ key) : lookup (put key value bindings) other = lookup bindings other := by
  induction bindings with
  | nil => rw [put, lookup_cons, if_neg (Ne.symm ne)]
  | cons head rest ih =>
    rw [put]
    split_ifs with before same
    · rw [lookup_cons, if_neg (Ne.symm ne)]
    · rw [lookup_cons, if_neg (Ne.symm ne), lookup_cons, if_neg]
      exact fun headIsOther => ne (headIsOther.symm.trans same.symm)
    · rw [lookup_cons, ih, lookup_cons]

/-! ## Removal -/

theorem erase_append (key : K) (left right : List (Binding K V)) :
    erase key (left ++ right) = erase key left ++ erase key right := filter_append ..

theorem erase_of_absent
    (absent : ∀ binding ∈ bindings, binding.key ≠ key) : erase key bindings = bindings := by
  apply filter_eq_self.mpr
  intro binding mem
  simpa using absent binding mem

/-- Removing a key in the middle of three parts. -/
theorem erase_middle {before middle after : List (Binding K V)} {key : K}
    (absentBefore : ∀ binding ∈ before, binding.key ≠ key)
    (absentAfter : ∀ binding ∈ after, binding.key ≠ key) :
    erase key (before ++ (middle ++ after)) = before ++ (erase key middle ++ after) := by
  rw [erase_append, erase_append, erase_of_absent absentBefore, erase_of_absent absentAfter]

theorem sorted_erase (sorted : Sorted bindings) (key : K) :
    Sorted (erase key bindings) := List.Pairwise.filter _ sorted

theorem lookup_erase_self (bindings : List (Binding K V)) (key : K) :
    lookup (erase key bindings) key = none := by
  apply lookup_eq_none
  intro binding mem
  simpa using (mem_filter.mp mem).2

theorem lookup_erase_of_ne (bindings : List (Binding K V))
    (ne : other ≠ key) : lookup (erase key bindings) other = lookup bindings other := by
  induction bindings with
  | nil => rfl
  | cons head rest ih =>
    rw [erase] at ih ⊢
    by_cases removed : head.key = key
    · rw [filter_cons_of_neg (by simpa using removed), ih, lookup_cons, if_neg]
      exact fun headIsOther => ne (headIsOther.symm.trans removed)
    · rw [filter_cons_of_pos (by simpa using removed), lookup_cons, lookup_cons, ih]

end SortedMap

end Library
