import GoDatabase.Memory.SetSpec
import GoDatabase.Structures.Interface
import Mathlib.Data.List.Sort

/-!
# The hash map and the sorted slice

`internal/structures/map.go` and `internal/structures/sorted_slice.go`, and that both are
ordered maps.
-/

namespace GoDatabase.Structures

open Library SortedMap List

variable {τ : Type} [Sink τ]

/-- `observer.emit` of the structures that report one key at a time. -/
def emitKey (type : EventType) (key : Bytes) (detail : String) : Traced τ Unit :=
  emit ⟨type, "", "backing", key, [], detail, []⟩

/-! ## The map -/

/-- The order in which one `range` loop over a map visits the keys. -/
structure KeyOrder where
  walk : List Bytes → List Bytes
  perm : ∀ keys, (walk keys).Perm keys

/-- The map has no order of its own; it is kept by key here.  `scans` counts the loops over it,
each of which has its own order. -/
structure Map where
  values : List (Binding Bytes Bytes)
  scans : Nat

namespace Map

def set (m : Map) (key value : Bytes) : Traced τ (Option GoError × Map) := do
  let m := { m with values := put key value m.values }
  emitKey .mutation key "Hash map entry stored"
  pure (none, m)

def get (m : Map) (key : Bytes) : Traced τ (Lookup × Map) := do
  emitKey .lookup key "Hash map lookup; Go bucket internals are not exposed"
  let value := lookup m.values key
  pure (⟨value.getD [], value.isSome, none⟩, m)

def delete (m : Map) (key : Bytes) : Traced τ (Removal × Map) := do
  emitKey .mutation key "Hash map delete"
  let found := (lookup m.values key).isSome
  pure (⟨found, none⟩, { m with values := erase key m.values })

def range (orders : Nat → KeyOrder) (m : Map) (start stop : Bytes) : Traced τ (Scan × Map) := do
  emitKey .traversal [] "Scan map entries and sort matching keys"
  let visited := (orders m.scans).walk (m.values.map Binding.key)
  let keys := visited.filter fun key => start ≤ key ∧ key ≤ stop
  let sorted := keys.mergeSort
  let entries := sorted.map fun key => ⟨key, (lookup m.values key).getD []⟩
  pure (⟨entries, none⟩, { m with scans := m.scans + 1 })

def methods (orders : Nat → KeyOrder) : Methods Map τ := ⟨get, range orders, set, delete⟩

end Map

/-! ## The sorted slice -/

structure SortedSlice where
  entries : List (Binding Bytes Bytes)

namespace SortedSlice

/-- The reported comparison of the binary search. -/
def compared (key : Bytes) : Traced τ Unit :=
  emit ⟨.comparison, "", "backing", key, [key], "Binary search comparison", []⟩

def position (s : SortedSlice) (key : Bytes) : Traced τ Nat :=
  searchM s.entries.length fun i => do
    let entry ← StateT.lift s.entries[i]?
    compared entry.key
    pure (decide (key ≤ entry.key))

def get (s : SortedSlice) (key : Bytes) : Traced τ (Lookup × SortedSlice) := do
  let i ← s.position key
  if i = s.entries.length then
    pure (⟨[], false, none⟩, s)
  else do
    let entry ← StateT.lift s.entries[i]?
    if entry.key ≠ key then
      pure (⟨[], false, none⟩, s)
    else
      pure (⟨entry.value, true, none⟩, s)

/-- Store in front of index `i`, by moving the entries from there on. -/
def insertAt (s : SortedSlice) (i : Nat) (key value : Bytes) : Traced τ
    (Option GoError × SortedSlice) := do
  let entries ← StateT.lift (Memory.insertAt s.entries i ⟨key, value⟩)
  pure (none, ⟨entries⟩)

def set (s : SortedSlice) (key value : Bytes) : Traced τ (Option GoError × SortedSlice) := do
  emitKey .mutation key "Store entry in sorted array"
  let i ← s.position key
  if i < s.entries.length then do
    let entry ← StateT.lift s.entries[i]?
    if entry.key = key then
      pure (none, ⟨s.entries.set i ⟨entry.key, value⟩⟩)
    else
      s.insertAt i key value
  else
    s.insertAt i key value

def delete (s : SortedSlice) (key : Bytes) : Traced τ (Removal × SortedSlice) := do
  emitKey .mutation key "Remove entry from sorted array"
  let i ← s.position key
  if i = s.entries.length then
    pure (⟨false, none⟩, s)
  else do
    let entry ← StateT.lift s.entries[i]?
    if entry.key ≠ key then
      pure (⟨false, none⟩, s)
    else do
      let entries ← StateT.lift (Memory.deleteAt s.entries i)
      pure (⟨true, none⟩, ⟨entries⟩)

/-- The loop of `Range`, over the entries from its index on. -/
def collect (stop : Bytes) : List (Binding Bytes Bytes) → Traced τ (List (Binding Bytes Bytes))
  | [] => pure []
  | entry :: rest =>
    if entry.key ≤ stop then do
      emitKey .traversal entry.key "Read matching array entry"
      let entries ← collect stop rest
      pure (entry :: entries)
    else
      pure []

def range (s : SortedSlice) (start stop : Bytes) : Traced τ (Scan × SortedSlice) := do
  let i ← s.position start
  let entries ← collect stop (s.entries.drop i)
  pure (⟨entries, none⟩, s)

def methods : Methods SortedSlice τ := ⟨get, range, set, delete⟩

end SortedSlice

/-! ## Both are ordered maps -/

namespace Map

/-- A map stands for its bindings. -/
def Stands (m : Map) (contents : List (Binding Bytes Bytes)) : Prop :=
  m.values = contents ∧ Sorted contents

/-- Sorting the visited keys undoes the order of the loop. -/
theorem sorted_keys {contents : List (Binding Bytes Bytes)} (sorted : Sorted contents)
    (order : KeyOrder) (start stop : Bytes) : ((order.walk (contents.map Binding.key)).filter
        fun key => start ≤ key ∧ key ≤ stop).mergeSort =
      (contents.filter fun entry => start ≤ entry.key ∧ entry.key ≤ stop).map Binding.key := by
  have perm := (order.perm (contents.map Binding.key)).filter fun key => start ≤ key ∧ key ≤ stop
  rw [filter_map] at perm
  refine List.Perm.eq_of_pairwise' (pairwise_mergeSort' (· ≤ ·) _) ?_
    ((mergeSort_perm _ _).trans perm)
  refine pairwise_map.mpr ((sorted.filter _).imp ?_)
  exact fun lt => le_of_lt lt

theorem range_erases (orders : Nat → KeyOrder) {m : Map} (sorted : Sorted m.values)
    (start stop : Bytes) : Erases (m.range orders start stop : Traced τ _)
    (some (⟨m.values.filter fun entry => start ≤ entry.key ∧ entry.key ≤ stop, none⟩,
      { m with scans := m.scans + 1 })) := by
  have entries : (m.values.filter fun entry => start ≤ entry.key ∧ entry.key ≤ stop) =
      ((((orders m.scans).walk (m.values.map Binding.key)).filter
        fun key => start ≤ key ∧ key ≤ stop).mergeSort).map
          fun key => ⟨key, (lookup m.values key).getD []⟩ := by
    rw [sorted_keys sorted, map_map]
    refine (map_id _).symm.trans (map_congr_left fun entry mem => ?_)
    have found := lookup_eq_some_of_mem sorted (mem_of_mem_filter mem)
    simp only [id_eq, Function.comp_apply, found, Option.getD_some]
  rw [entries]
  exact emit_andThen (.pure _)

theorem implements (orders : Nat → KeyOrder) : Implements
    (methods orders : Methods Map τ) Stands where
  get := by
    rintro m _ ⟨rfl, sorted⟩ key
    exact ⟨m, emit_andThen (.pure _), rfl, sorted⟩
  range := by
    rintro m _ ⟨rfl, sorted⟩ start stop
    exact ⟨{ m with scans := m.scans + 1 }, range_erases orders sorted start stop, rfl, sorted⟩
  set := by
    rintro m _ ⟨rfl, sorted⟩ key value
    exact ⟨{ m with values := put key value m.values },
      emit_andThen (.pure _), rfl, sorted_put sorted key value⟩
  delete := by
    rintro m _ ⟨rfl, sorted⟩ key
    exact ⟨{ m with values := erase key m.values },
      emit_andThen (.pure _), rfl, sorted_erase sorted key⟩

end Map

namespace SortedSlice

/-- A slice stands for its entries. -/
def Stands (s : SortedSlice) (contents : List (Binding Bytes Bytes)) : Prop :=
  s.entries = contents ∧ Sorted contents

/-- The binary search finds the first key that is not below the given one. -/
theorem position_cut {s : SortedSlice} (sorted : Sorted s.entries) (key : Bytes) :
    ∃ left right, s.entries = left ++ right ∧ (∀ entry ∈ left, entry.key < key) ∧
      (∀ entry ∈ right, key ≤ entry.key) ∧
      Erases (s.position key : Traced τ Nat) (some left.length) := by
  obtain ⟨left, right, shape, below, above, found⟩ :=
    exists_cut (fun entry : Binding Bytes Bytes => decide (key ≤ entry.key)) ⟨[], []⟩
      (sorted.imp
        fun lt le => by simp only [decide_eq_true_eq] at le ⊢; exact le.trans (le_of_lt lt))
  refine ⟨left, right, shape, ?_, ?_, ?_⟩
  · intro entry mem
    simpa using below entry mem
  · intro entry mem
    simpa using above entry mem
  · rw [← found]
    refine searchM_erases fun index inside => ?_
    have here : s.entries[index]? = some (s.entries.getD index ⟨[], []⟩) := by
      rw [getD_eq_getElem _ _ inside, List.getElem?_eq_getElem inside]
    rw [here]
    exact emit_andThen (.pure _)

variable {s : SortedSlice} {left right : List (Binding Bytes Bytes)} {entry : Binding Bytes Bytes}
  {key : Bytes}

/-- The entry at the position that the search returns. -/
theorem at_cut
    (shape : s.entries = left ++ entry :: right) : s.entries[left.length]? = some entry := by
  rw [shape]
  simp

theorem lookup_cut (below : ∀ entry ∈ left, entry.key < key) :
    lookup (left ++ right) key = lookup right key := by
  rw [SortedMap.lookup_append, lookup_eq_none fun entry mem => (below entry mem).ne]
  rfl

/-- A key is behind the cut, first or not at all. -/
theorem lookup_behind
    (sorted : Sorted (entry :: right)) (above : key ≤ entry.key) (ne : entry.key ≠ key) :
    lookup (entry :: right) key = none := by
  refine lookup_eq_none (forall_mem_cons.mpr ⟨ne, fun other mem => ?_⟩)
  exact (lt_of_le_of_lt above ((pairwise_cons.mp sorted).1 other mem)).ne'

theorem get_erases (sorted : Sorted s.entries) (key : Bytes) :
    Erases (s.get key : Traced τ _) (some (⟨(lookup s.entries key).getD [],
      (lookup s.entries key).isSome, none⟩, s)) := by
  obtain ⟨left, right, shape, below, above, found⟩ := @position_cut τ _ s sorted key
  refine found.step ?_
  cases right with
  | nil =>
    rw [append_nil] at shape
    rw [if_pos (by rw [shape]), shape,
      lookup_eq_none fun entry mem => (below entry mem).ne]
    exact .pure _
  | cons entry right =>
    have sortedRight : Sorted (entry :: right) :=
      List.Pairwise.sublist (sublist_append_right left _) (shape ▸ sorted)
    rw [if_neg (by rw [shape]; simp), at_cut shape, shape, lookup_cut below]
    refine Erases.step (.lift (some entry)) ?_
    by_cases same : entry.key = key
    · rw [if_neg (not_not.mpr same), SortedMap.lookup_cons, if_pos same]
      exact .pure _
    · rw [if_pos same, lookup_behind sortedRight (above entry mem_cons_self) same]
      exact .pure _

omit [Sink τ] in
theorem insertAt_erases {s : SortedSlice} {left right : List (Binding Bytes Bytes)}
    (shape : s.entries = left ++ right) (key value : Bytes) :
    Erases (s.insertAt left.length key value : Traced τ _)
      (some (none, ⟨left ++ ⟨key, value⟩ :: right⟩)) := by
  rw [insertAt, shape, Memory.insertAt_append]
  exact Erases.step (.lift (some _)) (.pure _)

theorem set_erases (sorted : Sorted s.entries) (key value : Bytes) :
    Erases (s.set key value : Traced τ _) (some (none, ⟨put key value s.entries⟩)) := by
  obtain ⟨left, right, shape, below, above, found⟩ := @position_cut τ _ s sorted key
  refine emit_andThen (found.step ?_)
  have inserted := @insertAt_erases τ s left right shape key value
  rw [shape, put_append_of_lt below]
  cases right with
  | nil =>
    rw [if_neg (by simp)]
    exact inserted
  | cons entry right =>
    rw [if_pos (by simp), ← shape, at_cut shape, put]
    refine Erases.step (.lift (some entry)) ?_
    by_cases same : entry.key = key
    · rw [if_pos same, if_neg (not_lt.mpr (le_of_eq same)), if_pos same.symm, shape, same]
      simp only [set_append_right _ _ (Nat.le_refl _), Nat.sub_self, set_cons_zero]
      exact .pure _
    · have before := lt_of_le_of_ne (above entry mem_cons_self) (Ne.symm same)
      rw [if_neg same, if_pos before]
      exact inserted

theorem delete_erases (sorted : Sorted s.entries) (key : Bytes) :
    Erases (s.delete key : Traced τ _) (some (⟨(lookup s.entries key).isSome, none⟩,
      ⟨erase key s.entries⟩)) := by
  obtain ⟨left, right, shape, below, above, found⟩ := @position_cut τ _ s sorted key
  refine emit_andThen (found.step ?_)
  have leftKept := erase_of_absent fun entry mem => (below entry mem).ne
  cases right with
  | nil =>
    have absent := lookup_eq_none fun entry mem => (below entry mem).ne
    rw [append_nil] at shape
    rw [if_pos (by rw [shape]), shape, absent, leftKept, ← shape]
    exact .pure _
  | cons entry right =>
    have sortedRight : Sorted (entry :: right) :=
      List.Pairwise.sublist (sublist_append_right left _) (shape ▸ sorted)
    have later : ∀ other ∈ right, other.key ≠ key := fun other mem =>
      (lt_of_le_of_lt (above entry mem_cons_self)
        ((pairwise_cons.mp sortedRight).1 other mem)).ne'
    rw [if_neg (by rw [shape]; simp), at_cut shape, shape, lookup_cut below,
      SortedMap.erase_append, leftKept]
    refine Erases.step (.lift (some entry)) ?_
    by_cases same : entry.key = key
    · have rightKept : erase key (entry :: right) = right := by
        rw [erase, filter_cons, if_neg (by simp [same])]
        exact erase_of_absent later
      rw [if_neg (not_not.mpr same), SortedMap.lookup_cons, if_pos same, rightKept,
        Memory.deleteAt_append]
      exact Erases.step (.lift (some _)) (.pure _)
    · rw [if_pos same, lookup_behind sortedRight (above entry mem_cons_self) same,
        erase_of_absent (forall_mem_cons.mpr ⟨same, later⟩), ← shape]
      exact .pure _

theorem collect_erases (stop : Bytes) : ∀ entries : List (Binding Bytes Bytes),
    Sorted entries → Erases (collect stop entries : Traced τ _)
      (some (entries.filter fun entry => entry.key ≤ stop)) := by
  intro entries
  induction entries with
  | nil => exact fun _ => .pure _
  | cons entry entries ih =>
    intro sorted
    obtain ⟨later, sortedRest⟩ := pairwise_cons.mp sorted
    rw [collect, filter_cons]
    by_cases inside : entry.key ≤ stop
    · rw [if_pos inside, if_pos (by simpa using inside)]
      exact emit_andThen (Erases.step (ih sortedRest) (.pure _))
    · -- the loop stops here, and no later entry is in the range
      have none : (entries.filter fun entry => entry.key ≤ stop) = [] := by
        refine filter_eq_nil_iff.mpr fun other mem inRange => inside ?_
        exact (le_of_lt (later other mem)).trans (by simpa using inRange)
      rw [if_neg inside, if_neg (by simpa using inside), none]
      exact .pure _

theorem range_erases (sorted : Sorted s.entries) (start stop : Bytes) :
    Erases (s.range start stop : Traced τ _)
      (some (⟨s.entries.filter fun entry => start ≤ entry.key ∧ entry.key ≤ stop, none⟩, s)) := by
  obtain ⟨left, right, shape, below, above, found⟩ := @position_cut τ _ s sorted start
  have sortedRight : Sorted right :=
    List.Pairwise.sublist (sublist_append_right left _) (shape ▸ sorted)
  have entries : (s.entries.filter fun entry => start ≤ entry.key ∧ entry.key ≤ stop) =
      right.filter fun entry => entry.key ≤ stop := by
    rw [shape]
    exact filter_from_cut below above
  rw [entries]
  refine found.step ?_
  rw [shape, drop_left]
  exact Erases.step (collect_erases stop right sortedRight) (.pure _)

theorem implements : Implements (methods : Methods SortedSlice τ) Stands where
  get := by
    rintro s _ ⟨rfl, sorted⟩ key
    exact ⟨s, get_erases sorted key, rfl, sorted⟩
  range := by
    rintro s _ ⟨rfl, sorted⟩ start stop
    exact ⟨s, range_erases sorted start stop, rfl, sorted⟩
  set := by
    rintro s _ ⟨rfl, sorted⟩ key value
    exact ⟨_, set_erases sorted key value, rfl, sorted_put sorted key value⟩
  delete := by
    rintro s _ ⟨rfl, sorted⟩ key
    exact ⟨_, delete_erases sorted key, rfl, sorted_erase sorted key⟩

end SortedSlice

end GoDatabase.Structures
