import GoDatabase.Library.Journal
import GoDatabase.Relational.Contents

/-!
# The buffer of a transaction

A transaction keeps the last change to each key, and the keys in the order in which they
were first changed.  It is compared with the journal of everything that was recorded: what
the transaction reads, and what its commit publishes, is the journal played over the
contents.
-/

namespace GoDatabase.Db

open Library Journal SortedMap List

/-- Changes as writes to the contents. -/
def writes (changes : Changes) : List (Binding Bytes (Option Bytes)) :=
  changes.map fun change => ⟨change.key, change.value.result⟩

/-- What a transaction with this journal should see under a key. -/
def overlaid (contents : List Item) (journal : Changes) (key : Bytes) : Option Bytes :=
  match Journal.latest journal key with
  | some change => change.result
  | none => SortedMap.lookup contents key

theorem overlaid_eq (contents : List Item) (journal : Changes) (key : Bytes) :
    overlaid contents journal key = lookup (play contents (writes journal)) key := by
  rw [lookup_play, writes, latest_map, overlaid]
  cases latest journal key with
  | none => rfl
  | some change => rfl

/-- The buffer stands for a journal. -/
structure Tx.Holds (tx : Tx) (journal : Changes) : Prop where
  sorted : SortedMap.Sorted tx.changes
  changes : ∀ key, SortedMap.lookup tx.changes key = Journal.latest journal key
  nodup : tx.order.Nodup
  order : ∀ key, key ∈ tx.order ↔ Journal.latest journal key ≠ none

/-! ## Recording -/

theorem Tx.holds_begin (readOnly : Bool) : Tx.Holds ⟨readOnly, false, [], []⟩ [] where
  sorted := List.Pairwise.nil
  changes _ := rfl
  nodup := nodup_nil
  order _ := by simp

variable {tx : Tx} {journal : Changes}

theorem Tx.Holds.recordLocked (holds : tx.Holds journal)
    (key : Bytes) (change : Change) : (tx.recordLocked key change).Holds
      (journal ++ [⟨key, change⟩]) := by
  have latest : ∀ other, latest (journal ++ [⟨key, change⟩]) other =
      if key = other then some change else latest journal other := by
    intro other
    rw [latest_append, latest_cons, latest_nil, Option.none_or]
    split_ifs <;> rfl
  have known : lookup tx.changes key = none ↔ key ∉ tx.order := by
    rw [holds.changes, holds.order, not_not]
  refine ⟨sorted_put holds.sorted key change, fun other => ?_, ?_, fun other => ?_⟩
  · rw [latest]
    by_cases same : key = other
    · rw [if_pos same, ← same]
      exact lookup_put_self ..
    · rw [if_neg same, ← holds.changes]
      exact lookup_put_of_ne _ _ (Ne.symm same)
  · rw [Tx.recordLocked]
    dsimp only
    split_ifs with fresh
    · exact holds.nodup.append (nodup_singleton key)
        (disjoint_singleton.mpr (known.mp fresh))
    · exact holds.nodup
  · rw [latest, Tx.recordLocked]
    dsimp only
    by_cases same : key = other
    · subst same
      rw [if_pos rfl]
      refine iff_of_true ?_ (Option.some_ne_none change)
      split_ifs with fresh
      · exact mem_append_right _ (mem_singleton_self key)
      · exact not_not.mp fun absent => fresh (known.mpr absent)
    · rw [if_neg same, ← holds.order other]
      split_ifs
      · rw [mem_append, mem_singleton]
        exact or_iff_left (Ne.symm same)
      · rfl

theorem Tx.Holds.recordAll (holds : tx.Holds journal)
    (changes : Changes) : (tx.recordAll changes).Holds (journal ++ changes) := by
  induction changes generalizing tx journal with
  | nil =>
    rw [append_nil]
    exact holds
  | cons change rest ih =>
    rw [← singleton_append, ← append_assoc]
    exact ih (holds.recordLocked change.key change.value)

/-- The flags of a transaction are no part of its buffer. -/
theorem Tx.Holds.congr {other : Tx} (holds : tx.Holds journal)
    (changes : other.changes = tx.changes) (order : other.order = tx.order) :
      other.Holds journal where
  sorted := changes ▸ holds.sorted
  changes key := changes ▸ holds.changes key
  nodup := order ▸ holds.nodup
  order key := order ▸ holds.order key

/-! ## Reading through the buffer -/

section Exact

variable {σ : Type} {store : Store σ} {view : σ → List Item}

variable {tx : Tx} {journal : Changes} {items : List Item}

theorem Tx.Holds.valueLocked_eq (holds : tx.Holds journal)
    (exact : store.Models view) (d : Database σ) {key : Bytes} (nonempty : key ≠ []) :
    tx.valueLocked store d key = .ok (overlaid (d.contents view) journal key) := by
  rw [Tx.valueLocked, holds.changes, overlaid]
  cases latest journal key with
  | some change => rfl
  | none => exact getLocked_exact exact d nonempty

theorem mem_filter_between {start stop : Bytes} {item : Item} :
    item ∈ items.filter (between start stop) ↔ item ∈ items ∧ start ≤ item.key ∧ item.key ≤
      stop := by
  rw [mem_filter, between, Bool.and_eq_true, decide_eq_true_eq, decide_eq_true_eq]

/-- Collecting sorted items in a map gives them back. -/
theorem collect_eq (sorted : Sorted items) :
    items.foldl (fun values item => put item.key item.value values) [] = items := by
  have collected : items.foldl (fun values item => put item.key item.value values) [] =
      play [] (items.map fun item => ⟨item.key, some item.value⟩) := by
    rw [play, foldl_map]
    rfl
  have distinct : (items.map Binding.key).Nodup :=
    pairwise_map.mpr (List.Pairwise.imp (fun less same => less.ne same) sorted)
  rw [collected]
  refine ext_lookup (sorted_play List.Pairwise.nil _) sorted fun key => ?_
  rw [lookup_play, latest_map, latest_eq_lookup distinct]
  cases lookup items key <;> rfl

/-- The test of `between` as one of the key. -/
def inBounds (start stop key : Bytes) : Bool := start ≤ key && key ≤ stop

theorem lookup_between (start stop : Bytes) (items : List Item) (key : Bytes) :
    lookup (items.filter (between start stop)) key =
      if inBounds start stop key then lookup items key else none :=
  lookup_filter (inBounds start stop) items key

/-- The changes within the bounds are written, and the others are skipped. -/
theorem foldl_overlayChange (start stop : Bytes) (values : List Item)
    (changes : Changes) : changes.foldl (Tx.overlayChange start stop) values =
      play values (writes (changes.filter fun change => inBounds start stop change.key)) := by
  induction changes generalizing values with
  | nil => rfl
  | cons change rest ih =>
    rw [foldl_cons, ih, Tx.overlayChange, filter_cons]
    by_cases outside : change.key < start ∨ stop < change.key
    · have skipped : ¬ inBounds start stop change.key = true := by
        rw [inBounds, Bool.and_eq_true, decide_eq_true_eq, decide_eq_true_eq, not_and_or,
          not_le, not_le]
        exact outside
      rw [if_pos outside, if_neg skipped]
    · have kept : inBounds start stop change.key = true := by
        rw [inBounds, Bool.and_eq_true, decide_eq_true_eq, decide_eq_true_eq]
        exact (not_or.mp outside).imp not_lt.mp not_lt.mp
      have written : (if change.value.delete then erase change.key values
          else put change.key change.value.value values) =
            write values ⟨change.key, change.value.result⟩ := by
        rw [write, Change.result]
        cases change.value.delete <;> rfl
      rw [if_neg outside, if_pos kept, written]
      rfl

theorem Tx.Holds.range_eq (holds : tx.Holds journal)
    (exact : store.Exact view) {d : Database σ} (sorted : Sorted (d.contents view))
    (usable : tx.usable d = .ok ()) (start stop : Bytes) : tx.range store d start stop =
      .ok ((play (d.contents view) (writes journal)).filter (between start stop)) := by
  rw [Tx.range, usable]
  dsimp only
  split_ifs with reversed
  · have empty : (play (d.contents view) (writes journal)).filter (between start stop) = [] := by
      apply filter_eq_nil_iff.mpr
      intro item _ inside
      rw [between, Bool.and_eq_true, decide_eq_true_eq, decide_eq_true_eq] at inside
      exact (inside.1.trans inside.2).not_gt reversed
    rw [empty]
  · have sortedPart : Sorted ((d.contents view).filter (between start stop)) :=
      List.Pairwise.filter _ sorted
    have distinct : (tx.changes.filter fun change => inBounds start stop change.key).map
      Binding.key |>.Nodup :=
      pairwise_map.mpr
        (List.Pairwise.imp (fun less same => less.ne same) (List.Pairwise.filter _ holds.sorted))
    rw [rangeLocked_unbounded exact]
    dsimp only
    rw [collect_eq sortedPart, foldl_overlayChange]
    refine congrArg Except.ok (ext_lookup (sorted_play sortedPart _)
      (List.Pairwise.filter _ (sorted_play sorted _)) fun key => ?_)
    rw [lookup_play, writes, latest_map, latest_eq_lookup distinct,
      lookup_filter (inBounds start stop), holds.changes, lookup_between, lookup_between,
      lookup_play, writes, latest_map]
    split_ifs <;> rfl

/-! ## Publishing -/

/-- A mutation as a write to the contents. -/
theorem Mutation.apply_eq_write (data : List Item) (mutation : Mutation) : mutation.apply data =
      write data ⟨mutation.key, if mutation.delete then none else some mutation.value⟩ := by
  rw [Mutation.apply, write]
  cases mutation.delete <;> rfl

/-- The batch of a commit has the effect of the whole journal. -/
theorem Tx.Holds.foldl_mutations (holds : tx.Holds journal)
    {contents : List Item} (sorted : Sorted contents) :
    tx.mutations.foldl Mutation.apply contents = play contents (writes journal) := by
  have played : tx.mutations.foldl Mutation.apply contents =
      play contents (writes (tx.order.map fun key =>
        ⟨key, (lookup tx.changes key).getD ⟨[], false⟩⟩)) := by
    rw [Tx.mutations, play, writes, foldl_map, foldl_map, foldl_map]
    refine congrFun (congrFun (congrArg List.foldl ?_) _) _
    funext data key
    exact Mutation.apply_eq_write ..
  rw [played]
  refine play_congr sorted fun key => ?_
  rw [writes, writes, latest_map, latest_map]
  refine congrArg (Option.map Change.result) ?_
  have distinct : ((tx.order.map fun key => (⟨key, (lookup tx.changes key).getD ⟨[], false⟩⟩ :
      Binding Bytes Change)).map Binding.key).Nodup := by
    rw [map_map]
    exact (map_id tx.order).symm ▸ holds.nodup
  rw [latest_eq_lookup distinct, lookup_map, holds.changes]
  cases found : latest journal key with
  | none => rw [if_neg fun ordered => (holds.order key).mp ordered found]
  | some change =>
    have ordered : key ∈ tx.order := (holds.order key).mpr (found ▸ Option.some_ne_none change)
    rw [if_pos ordered]
    rfl

end Exact

end GoDatabase.Db
