import GoDatabase.Store.KV

/-!
# What an update does

The ways in which an update can end.  In all of them but a successful commit the page
manager, the root and the pages of the handle are what they were before.
-/

namespace GoDatabase

open Library

namespace PageManager

/-- The free set mirrors the free list. -/
def Mirrors (pm : PageManager) : Prop := pm.freePageSet = pm.freePageIDs.toFinset

end PageManager

namespace KV

/-- The handle with a change of its file only. -/
def onFile (kv : KV) (disk : Disk Note) : KV := { kv with disk := disk }

/-- The handle whose file calls meet these faults. -/
def meeting (kv : KV) (faults : Faults) : KV := kv.onFile { kv.disk with faults := faults }

variable {kv : KV}

theorem call_closed (closed : kv.closed = true) (faults : Faults) (request : Call) :
    kv.call faults request = (⟨false, some errClosed⟩, kv.meeting faults) := if_pos closed

theorem call_open (isOpen : kv.closed = false) (faults : Faults) (request : Call) :
    kv.call faults request = (kv.meeting faults).update request.change :=
  if_neg (ne_of_eq_of_ne isOpen Bool.false_ne_true)

/-- The mutations of an update ran on the working copy, and changed the tree. -/
structure Changed (change : Change) (kv : KV) (size root : Nat) (work : Work) : Prop where
  stat : kv.statSize = .ok size
  run : change kv.root (Work.begin kv.pages kv.pm) = .ok (true, root) work
  clean : work.callbackErr = none

/-- The state in which `publishRoot` is called. -/
def announced (root : Nat) (work : Work) (managed : Managed Note) : Managed Note :=
  let note := Event.note (.publishing (managed.pm.generation + 1) root work.working)
  { managed with disk := managed.disk.record note }

/-- The ways in which an update can end. -/
inductive Updated (change : Change) (kv : KV) : Outcome × KV → Prop
  | statFailed {err : GoError} (stat : kv.statSize = .error err) :
      Updated change kv (⟨false, some err⟩, kv)
  /-- The mutations failed, or one of their callbacks did. -/
  | refused {outcome : Outcome} {size : Nat} (stat : kv.statSize = .ok size)
      (failed : outcome.err ≠ none)
      (changing : outcome.changed = true → ∃ root work,
        change kv.root (Work.begin kv.pages kv.pm) = .ok (true, root) work) :
      Updated change kv (outcome, kv.onFile (kv.disk.truncate size))
  | unchanged {size root : Nat} {work : Work} (stat : kv.statSize = .ok size)
      (run : change kv.root (Work.begin kv.pages kv.pm) = .ok (false, root) work)
      (clean : work.callbackErr = none) :
      Updated change kv (⟨false, none⟩, kv.onFile (kv.disk.truncate size))
  | dataFailed {size root : Nat} {work : Work} {err : GoError} {managed : Managed Note}
      (changed : Changed change kv size root work)
      (data : writeData work.pending ⟨work.pm, kv.disk⟩ = .error err managed) :
      Updated change kv (⟨true, some err⟩, kv.onFile (managed.disk.truncate size))
  | publishFailed {size root : Nat} {work : Work} {err : GoError} {managed last : Managed Note}
      (changed : Changed change kv size root work)
      (data : writeData work.pending ⟨work.pm, kv.disk⟩ = .ok () managed)
      (published : Managed.publishRoot root (announced root work managed) = .error err last) :
      Updated change kv (⟨true, some err⟩, { kv.onFile last.disk with uncertain := true })
  | committed {size root : Nat} {work : Work} {managed last : Managed Note}
      (changed : Changed change kv size root work)
      (data : writeData work.pending ⟨work.pm, kv.disk⟩ = .ok () managed)
      (published : Managed.publishRoot root (announced root work managed) = .ok () last) :
      Updated change kv (⟨true, none⟩, { kv with
        pm := last.pm
        root := root
        pages := reachablePageMap work.working root
        disk := last.disk.record (.note (.committed last.pm.generation)) })

/-- A rollback puts back what the update began with. -/
theorem rollback_snapshot (mirrors : kv.pm.Mirrors) (size : Nat) (pm : PageManager)
    (root : Nat) (disk : Disk Note) :
    { kv with pm := pm, root := root, disk := disk }.rollback kv.pm.snapshot kv.root kv.pages size =
      kv.onFile (disk.truncate size) := by
  rw [rollback, PageManager.restore_snapshot mirrors]
  rfl

theorem publish_cases {change : Change} {size root : Nat} {work : Work}
    (mirrors : kv.pm.Mirrors) (changed : Changed change kv size root work) :
    let published :=
      { kv with pm := work.pm, root := root }.publish kv.pm.snapshot kv.root size work
    Updated change kv (⟨true, published.1⟩, published.2) := by
  dsimp only
  rw [publish]
  cases data : writeData work.pending ⟨work.pm, kv.disk⟩ with
  | error err managed =>
    simp only [KV.managed, data]
    rw [rollback_snapshot mirrors]
    exact .dataFailed changed data
  | ok value managed =>
    simp only [KV.managed, data]
    cases published : Managed.publishRoot root (announced root work managed) with
    | error err last =>
      have run := published
      rw [announced] at run
      simp only [run]
      rw [PageManager.restore_snapshot mirrors]
      exact .publishFailed changed data published
    | ok value last =>
      have run := published
      rw [announced] at run
      simp only [run]
      exact .committed changed data published

theorem updateCertain_cases (mirrors : kv.pm.Mirrors) (change : Change) :
    Updated change kv (kv.updateCertain change) := by
  rw [updateCertain]
  cases stat : kv.statSize with
  | error err => exact .statFailed stat
  | ok size =>
    cases run : change kv.root (Work.begin kv.pages kv.pm) with
    | error err work =>
      dsimp only
      rw [rollback_snapshot mirrors]
      exact .refused stat (Option.some_ne_none _) nofun
    | ok result work =>
      obtain ⟨changed, root⟩ := result
      dsimp only
      cases clean : work.callbackErr with
      | some err =>
        dsimp only
        rw [rollback_snapshot mirrors]
        refine .refused stat (Option.some_ne_none _) fun (isTrue : changed = true) => ?_
        rw [← isTrue]
        exact ⟨root, work, run⟩
      | none =>
        cases changed with
        | false =>
          dsimp only
          rw [if_neg (by simp), rollback_snapshot mirrors]
          exact .unchanged stat run clean
        | true => exact publish_cases mirrors ⟨stat, run, clean⟩

end KV

end GoDatabase
