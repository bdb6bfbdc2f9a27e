import GoDatabase.Relational.Mirror
import GoDatabase.Store.Serving

/-!
# The durable engine

`btreeStore` of `internal/engine/durable.go` passes the calls of a database on to the handle of
a file.  As long as the handle is open and certain about its file, it models a map.
-/

namespace GoDatabase.Db

open Library SortedMap

/-- What a method returns for the outcome of its call. -/
def returned {α : Type} (value : KV.Outcome → α) (outcome : KV.Outcome) : Except GoError α :=
  match outcome.err with
  | none => .ok (value outcome)
  | some err => .error err

/-- The call of `ApplyBatch`. -/
def batchCall (mutations : List Mutation) : KV.Call :=
  .applyBatch (mutations.map fun mutation => ⟨mutation.key, mutation.value, mutation.delete⟩)

/-- `btreeStore`, each of whose calls meets the faults of its handle.  The error of closing the
file is left out. -/
def btreeStore (faults : KV → Faults) : Store KV where
  get kv key := kv.get key
  range kv start stop := kv.range start stop
  set kv key value := (kv.call (faults kv) (.set key value)).map (returned fun _ => ()) id
  delete kv key := (kv.call (faults kv) (.delete key)).map (returned KV.Outcome.changed) id
  applyBatch kv mutations :=
    (kv.call (faults kv) (batchCall mutations)).map (returned fun _ => ()) id
  close kv := (.ok (), kv.close)

/-- An open handle that is certain about its file, with the tree that it holds. -/
structure Handle where
  kv : KV
  tree : Root
  holds : kv.Holds tree
  isOpen : kv.closed = false
  certain : kv.uncertain = false

namespace Handle

variable (faults : KV → Faults) (handle : Handle) {α : Type} (value : KV.Outcome → α)
  (request : KV.Call)

/-- The handle after a call.  A handle that is left uncertain has to be repaired; the one before
the call is kept instead. -/
noncomputable def after : Handle :=
  let next := handle.holds.call_apply handle.isOpen handle.certain (faults handle.kv) request
  if certain : (handle.kv.call (faults handle.kv) request).2.uncertain = false then
    ⟨_, next.choose, next.choose_spec.1, next.choose_spec.2.1, certain⟩
  else
    handle

/-- Otherwise it is the one that the call leaves. -/
theorem kv_after (certain : (handle.kv.call (faults handle.kv) request).2.uncertain = false) :
    (handle.after faults request).kv = (handle.kv.call (faults handle.kv) request).2 := by
  rw [after, dif_pos certain]

/-- The contents that the handle serves. -/
def view : List Item := handle.tree.bindings

theorem serves : handle.kv.Serves handle.view := handle.holds.serves handle.isOpen

theorem length_le {item : Item} (mem : item ∈ handle.view) : item.key.length ≤ maxKeySize := by
  rw [view] at mem
  cases tree : handle.tree with
  | empty =>
    rw [tree] at mem
    cases mem
  | tree held =>
    rw [tree] at mem
    exact held.fit.length_le item (List.mem_of_mem_tail mem)

theorem range_eq (start stop : Bytes) : handle.kv.range start stop =
    if maxKeySize < start.length then .error (.errorf "start key exceeds max size" [])
    else if maxKeySize < stop.length then .error (.errorf "end key exceeds max size" [])
    else .ok (handle.view.filter (between start stop)) := by
  split_ifs with long stopLong
  · simp only [KV.range, handle.isOpen, Bool.false_eq_true, if_false, rangeValues, if_pos long]
  · simp only [KV.range, handle.isOpen, Bool.false_eq_true, if_false, rangeValues, if_neg long,
      if_pos stopLong]
  · rw [handle.serves.range _ _ (not_lt.mp long) (not_lt.mp stopLong)]
    exact congrArg Except.ok (List.filter_congr fun _ _ => Bool.decide_and _ _)

theorem view_after : (handle.after faults request).view =
    (handle.kv.call (faults handle.kv) request).1.apply request handle.view := by
  have spec := (handle.holds.call_apply handle.isOpen handle.certain (faults handle.kv)
    request).choose_spec
  rw [after]
  split_ifs with certain
  · exact spec.2.2.1
  · refine (if_neg fun done => certain (spec.2.2.2.2 ?_)).symm
    exact Option.isNone_iff_eq_none.mp done

theorem settles {result : α}
    (same : (handle.kv.call (faults handle.kv) request).1.err = none →
      value (handle.kv.call (faults handle.kv) request).1 = result) :
    Settles view handle (returned value (handle.kv.call (faults handle.kv) request).1,
        handle.after faults request) result
      (request.calls.foldl (fun items call => call.updateBindings items) handle.view) := by
  have left := handle.view_after faults request
  rw [KV.Outcome.apply] at left
  rw [returned]
  cases failed : (handle.kv.call (faults handle.kv) request).1.err with
  | none =>
    rw [failed] at left
    exact .inl ⟨congrArg Except.ok (same failed), left⟩
  | some err =>
    rw [failed] at left
    exact .inr ⟨⟨err, rfl⟩, left⟩

end Handle

/-- `btreeStore` on open handles that are certain.  No database calls a store that it has
closed. -/
noncomputable def handleStore (faults : KV → Faults) : Store Handle where
  get handle := (btreeStore faults).get handle.kv
  range handle := (btreeStore faults).range handle.kv
  set handle key value :=
    (((btreeStore faults).set handle.kv key value).1, handle.after faults (.set key value))
  delete handle key :=
    (((btreeStore faults).delete handle.kv key).1, handle.after faults (.delete key))
  applyBatch handle mutations := (((btreeStore faults).applyBatch handle.kv mutations).1,
    handle.after faults (batchCall mutations))
  close handle := (.ok (), handle)

/-- The engine is the map that the database relies on. -/
theorem handleStore_models (faults : KV → Faults) : (handleStore faults).Models Handle.view where
  sorted handle := handle.serves.sorted
  get handle := handle.serves.get
  range handle start stop low high := by
    have short {key : Bytes} (bounded : Bounded handle.view key) : ¬ maxKeySize < key.length := by
      rcases bounded with le | ⟨item, mem, le⟩
      · exact not_lt.mpr le
      · exact not_lt.mpr (le.trans (handle.length_le mem))
    refine (handle.range_eq start stop).trans ?_
    rw [if_neg (short low), if_neg (short high)]
  reads left right same := by
    refine ⟨funext fun key => ?_, funext fun start => funext fun stop => ?_⟩
    · change left.kv.get key = right.kv.get key
      by_cases empty : key = []
      · rw [empty, KV.Holds.get_empty left.isOpen, KV.Holds.get_empty right.isOpen]
      · rw [left.serves.get key empty, right.serves.get key empty, same]
    · change left.kv.range start stop = right.kv.range start stop
      rw [Handle.range_eq, Handle.range_eq, same]
  set handle key value := handle.settles faults (fun _ => ()) (.set key value) fun _ => rfl
  delete handle key := handle.settles faults _ (.delete key)
    (handle.holds.delete_changed handle.isOpen handle.certain _)
  applyBatch handle mutations := by
    have settles := handle.settles faults (fun _ => ()) (batchCall mutations) fun _ => rfl
    rw [batchCall, KV.Call.calls, List.map_map, List.foldl_map] at settles
    have effect : (fun items (mutation : Mutation) => TreeCall.updateBindings items
        (GoDatabase.Mutation.call ⟨mutation.key, mutation.value, mutation.delete⟩)) =
          Mutation.apply := by
      funext items mutation
      rw [GoDatabase.Mutation.call, Mutation.apply]
      cases mutation.delete <;> rfl
    exact effect ▸ settles
  close _ := rfl

/-- A database that starts with a new file stays consistent. -/
theorem Run.consistent_of_handle {faults : KV → Faults} {handle : Handle} {events : Events}
    {s : System Handle} (fresh : handle.view = [])
    (run : Run (handleStore faults) (System.opened (.durable handle)) events s)
    (respectful : Respectful events) : Consistent (s.db.contents Handle.view) := by
  have empty : (System.opened (.durable handle)).db.contents Handle.view = [] := fresh
  obtain ⟨journals, coherent⟩ := run.coherent (handleStore_models faults) empty respectful
  exact coherent.consistent

end GoDatabase.Db
