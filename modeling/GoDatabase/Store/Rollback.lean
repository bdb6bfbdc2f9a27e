import GoDatabase.Store.Ownership

/-!
# Failed and idle calls

A call that returns an error or changes nothing leaves the tree, the page map and the page
manager as they were.  A call that changes nothing does not write to the file either.
-/

namespace GoDatabase

open Library

namespace KV

/-- Everything of a handle but its file and what is known about it. -/
structure Unchanged (kv next : KV) : Prop where
  root : next.root = kv.root
  pages : next.pages = kv.pages
  /-- All nine fields of the page manager, the free set among them. -/
  pm : next.pm = kv.pm
  closed : next.closed = kv.closed

/-- Nothing was written and nothing published; the file may have been truncated. -/
def Idle (kv next : KV) : Prop :=
  next.disk.log = kv.disk.log ∨ ∃ size, next.disk.log = .truncate size :: kv.disk.log

namespace Unchanged

variable {kv next : KV}

theorem get (unchanged : Unchanged kv next) (key : Bytes) : next.get key = kv.get key := by
  rw [KV.get, KV.get, unchanged.closed, unchanged.pages, unchanged.root]

theorem range (unchanged : Unchanged kv next) (start stop : Bytes) :
    next.range start stop = kv.range start stop := by
  rw [KV.range, KV.range, unchanged.closed, unchanged.pages, unchanged.root]

end Unchanged

theorem unchanged_onFile (kv : KV) (disk : Disk Note) : Unchanged kv (kv.onFile disk) :=
  ⟨rfl, rfl, rfl, rfl⟩

theorem idle_truncate (kv : KV) (size : Nat) : Idle kv (kv.onFile (kv.disk.truncate size)) := by
  change (kv.disk.truncate size).log = _ ∨ ∃ cut, (kv.disk.truncate size).log = _
  rw [Disk.truncate]
  split_ifs
  · exact .inl rfl
  · exact .inr ⟨size, rfl⟩

section Updates

variable {kv : KV} {change : Change} {result : Outcome × KV}

/-- Only a commit changes the handle. -/
theorem Updated.restores (updated : Updated change kv result)
    (ended : result.1.err ≠ none ∨ result.1.changed = false) : Unchanged kv result.2 := by
  cases updated with
  | statFailed => exact ⟨rfl, rfl, rfl, rfl⟩
  | refused | unchanged | dataFailed => exact kv.unchanged_onFile _
  | publishFailed => exact ⟨rfl, rfl, rfl, rfl⟩
  | committed =>
    rcases ended with failed | same
    · exact absurd rfl failed
    · cases same

theorem Updated.idle (updated : Updated change kv result) (same : result.1.changed = false) :
    Idle kv result.2 := by
  cases updated with
  | statFailed => exact .inl rfl
  | refused | unchanged => exact kv.idle_truncate _
  | dataFailed | publishFailed | committed => cases same

/-- An update changes nothing when its mutations do not. -/
theorem Updated.changed_eq_false (updated : Updated change kv result)
    (still : ∀ root work, change kv.root (Work.begin kv.pages kv.pm) ≠ .ok (true, root) work) :
    result.1.changed = false := by
  cases updated with
  | statFailed | unchanged => rfl
  | refused _ _ changing =>
    rw [← Bool.not_eq_true]
    intro isTrue
    obtain ⟨root, work, run⟩ := changing isTrue
    exact still root work run
  | dataFailed changed | publishFailed changed | committed changed =>
    exact absurd changed.run (still _ _)

end Updates

/-- A certain handle does its update without a repair. -/
theorem call_cases {kv : KV} {tree : Root} (holds : kv.Holds tree) (certain : kv.uncertain = false)
    (faults : Faults) (request : Call) :
    kv.call faults request = (⟨false, some errClosed⟩, kv.meeting faults) ∨
      (kv.closed = false ∧ Updated request.change (kv.meeting faults)
        (kv.call faults request)) := by
  cases closed : kv.closed with
  | true => exact .inl (call_closed closed faults request)
  | false =>
    have noRepair : ¬ (kv.meeting faults).uncertain = true := by
      rw [show (kv.meeting faults).uncertain = kv.uncertain from rfl, certain]
      exact Bool.false_ne_true
    rw [call_open closed, update, if_neg noRepair]
    have mirrors : (kv.meeting faults).pm.Mirrors := holds.mirrors
    exact .inr ⟨rfl, updateCertain_cases mirrors request.change⟩

/-- Deleting keys that are not there changes nothing. -/
theorem Updated.changed_of_absent {kv : KV} {tree : Root} {faults : Faults} {request : Call}
    {result : Outcome × KV} (updated : Updated request.change (kv.meeting faults) result)
    (holds : kv.Holds tree) (absent : ∀ call ∈ request.calls, ∃ key, call = .delete key ∧
      SortedMap.lookup tree.bindings key = none) : result.1.changed = false := by
  refine updated.changed_eq_false fun root work run => ?_
  have outcome := request.change_absent holds.stored holds.sound absent
  rw [holds.root] at outcome
  change request.change kv.root (Work.begin kv.pages kv.pm) = _ at run
  rw [run] at outcome
  rcases outcome with same | ⟨err, next, failed⟩
  · cases same
  · cases failed

/-- A call on a certain handle that returns an error or changes nothing leaves the handle as it
was, so it reads the same afterwards.  Without a change nothing is written or published, and
there is no change when all that a call does is to delete keys that are not there. -/
theorem call_restores {kv : KV} (reached : kv.Reached) (certain : kv.uncertain = false)
    (faults : Faults) (request : Call) :
    ((kv.call faults request).1.err ≠ none ∨ (kv.call faults request).1.changed = false →
      Unchanged kv (kv.call faults request).2 ∧
      (∀ key, (kv.call faults request).2.get key = kv.get key) ∧
      ∀ start stop, (kv.call faults request).2.range start stop = kv.range start stop) ∧
    ((kv.call faults request).1.changed = false → Idle kv (kv.call faults request).2) ∧
    ((∀ call ∈ request.calls, ∃ key, call = .delete key ∧ kv.get key = .ok none) →
      (kv.call faults request).1.changed = false) := by
  obtain ⟨tree, holds⟩ := reached.holds
  rcases call_cases holds certain faults request with closed | ⟨isOpen, updated⟩
  · have same : Unchanged kv (kv.call faults request).2 := by
      rw [closed]
      exact kv.unchanged_onFile _
    refine ⟨fun _ => ⟨same, same.get, same.range⟩, fun _ => ?_, fun _ => ?_⟩
    · rw [closed]
      exact .inl rfl
    · rw [closed]
  · refine ⟨fun ended => ?_, fun still => ?_, fun missing => ?_⟩
    · have same : Unchanged kv (kv.call faults request).2 := by
        have spec := updated.restores ended
        exact ⟨spec.root, spec.pages, spec.pm, spec.closed⟩
      exact ⟨same, same.get, same.range⟩
    · exact updated.idle still
    · refine updated.changed_of_absent holds fun call mem => ?_
      obtain ⟨key, isDelete, found⟩ := missing call mem
      by_cases empty : key = []
      · rw [empty, Holds.get_empty isOpen] at found
        cases found
      · rw [holds.get_eq isOpen empty] at found
        exact ⟨key, isDelete, Except.ok.inj found⟩

/-- A new store after a `Set`. -/
def oneBinding : KV := ((Generation.newStore true).call .none (.set [1] [2])).2

/-- A batch that deletes the binding and then fails. -/
def badBatch : Call := .applyBatch [⟨[1], [], true⟩, ⟨[], [], true⟩]

/-- The batch leaves the binding, and the deletion of another key leaves the file. -/
theorem call_restores_batch :
    (oneBinding.get [1]).toOption = some (some [2]) ∧
      (oneBinding.call .none badBatch).1.err ≠ none ∧ Unchanged oneBinding
      (oneBinding.call .none badBatch).2 ∧
      (oneBinding.call .none badBatch).2.get [1] = oneBinding.get [1] ∧
      Idle oneBinding (oneBinding.call .none (.delete [3])).2 := by
  have reached : oneBinding.Reached := .called (.opened (Generation.openFile_new true)) _ _
  have certain : oneBinding.uncertain = false := by decide +kernel
  have failed : (oneBinding.call .none badBatch).1.err ≠ none := by decide +kernel
  obtain ⟨same, get, -⟩ := (call_restores reached certain .none badBatch).1 (.inl failed)
  refine ⟨by decide +kernel, failed, same, get [1], ?_⟩
  exact (call_restores reached certain .none (.delete [3])).2.1 (by decide +kernel)

end KV

end GoDatabase
