import GoDatabase.Manager.PublishSpec
import GoDatabase.Store.Batch
import GoDatabase.Store.Generation
import GoDatabase.Store.Reachable
import GoDatabase.Store.Update

/-!
# Page ownership over the life of a handle

Between two calls a handle holds a tree: the pages of the tree and the lists of the page
manager are the pages of the file, each of them once.  Opening a file establishes this, and
every call keeps it, whatever its file calls do.
-/

namespace GoDatabase

open Library List

/-- The handle holds the tree: its page map is the tree, and its page manager owns the rest of
the file. -/
structure KV.Holds (kv : KV) (tree : Root) : Prop where
  root : tree.pageID = kv.root
  published : kv.pm.rootPageID = kv.root
  stored : tree.Stored kv.pages
  keys : kv.pages.keys.Perm tree.labels
  owns : kv.pm.Owns tree.labels

/-- The handles that opening a file and any calls lead to. -/
inductive KV.Reached : KV → Prop
  | opened {created : Bool} {faults : Faults} {file : Bytes} {kv : KV}
      (run : KV.openFile created faults file = .ok kv) : Reached kv
  | called {kv : KV} (before : Reached kv) (faults : Faults) (request : KV.Call) :
      Reached (kv.call faults request).2
  | closed {kv : KV} (before : Reached kv) : Reached kv.close

namespace KV

open Fallible

/-! ## Opening and repairing -/

/-- What is recovered from an aligned file is held. -/
theorem holds_recovered {view : FileView} {size : Nat} {pm : PageManager} {pages : PageMap}
    (small : size ≤ maxFileSize)
    (run : recoverCommittedPages view (pagesOf size + 1) = .ok (pm, pages)) (closed : Bool)
    (disk : Disk Note) : ∃ tree, Holds ⟨pm, pm.rootPageID, pages, closed, false, disk⟩ tree := by
  obtain ⟨slot, metadata, -, -, taken⟩ := recoverCommittedPages_ok run
  obtain ⟨tree, recovered⟩ := recoverCandidate_sound taken
  have bounded := pagesOf_lt small
  have owns := recovered.owns (Nat.succ_pos _) (by omega)
  have root : tree.pageID = pm.rootPageID := by
    rw [recovered.pm_eq]
    exact recovered.loaded.root
  exact ⟨tree, root, rfl, recovered.loaded.stored, recovered.loaded.keys, owns⟩

theorem writePending_wrote (pending : PageMap) : ∀ (pages : List Nat) (managed : Managed Note),
    (after (writePending pending pages managed)).pm = managed.pm ∧
      Disk.Wrote pages managed.disk (after (writePending pending pages managed)).disk := by
  intro pages
  induction pages with
  | nil => exact fun managed => ⟨rfl, .refl _ _⟩
  | cons pageID rest ih =>
    intro managed
    rw [writePending, get_bind_apply]
    exact Managed.wrote_cons (Managed.writePage_wrote _ _ _ _) ih

/-- Writing the pages of the new tree does not touch the page manager. -/
theorem writeData_pm {pending : PageMap} {managed last : Managed Note}
    (run : writeData pending managed = .ok () last) : last.pm = managed.pm := by
  rw [writeData] at run
  obtain ⟨⟨⟩, written, writes, run⟩ := exists_of_bind_ok run
  have samePM := (writePending_wrote pending (pending.keys.mergeSort (· ≤ ·)) managed).1
  rw [writes] at samePM
  rw [get_bind_apply, Managed.onDisk_sync] at run
  split_ifs at run
  cases run
  exact samePM

/-! ## Calls -/

namespace Holds

variable {kv : KV} {tree : Root}

theorem mirrors (holds : kv.Holds tree) : kv.pm.Mirrors := holds.owns.set_eq

theorem onFile (holds : kv.Holds tree) (disk : Disk Note) : (kv.onFile disk).Holds tree :=
  ⟨holds.root, holds.published, holds.stored, holds.keys, holds.owns⟩

/-- Lookups read the bindings of the tree. -/
theorem get_eq (holds : kv.Holds tree) (isOpen : kv.closed = false) {key : Bytes}
    (nonempty : key ≠ []) : kv.get key = .ok (SortedMap.lookup tree.bindings key) := by
  rw [KV.get, if_neg (ne_of_eq_of_ne isOpen Bool.false_ne_true), ← holds.root]
  exact getValue_spec holds.stored holds.owns.nodup_live nonempty

theorem get_empty (isOpen : kv.closed = false) : kv.get [] = .error
    (.errorf "key is empty" []) := by
  rw [KV.get, if_neg (ne_of_eq_of_ne isOpen Bool.false_ne_true)]
  rfl

/-- The working copy of an update begins with the tree. -/
theorem sound (holds : kv.Holds tree) : (Work.begin kv.pages kv.pm).Sound (tree.labels ++ []) := by
  rw [append_nil]
  refine Work.sound_begin holds.owns fun pageID mem => ?_
  exact holds.keys.mem_iff.mp (AList.mem_keys.mp mem)

theorem result (holds : kv.Holds tree) (request : Call) :
    BatchResult request.calls tree (Work.begin kv.pages kv.pm) [] false
      (request.change kv.root (Work.begin kv.pages kv.pm)) := by
  rw [← holds.root]
  exact request.result holds.stored holds.sound

/-- A mutated tree with all of its effects. -/
theorem applied (holds : kv.Holds tree) {request : Call} {size root : Nat} {work : Work}
    (changed : Changed request.change kv size root work) : ∃ updated, updated.pageID = root ∧
      Applied request.calls tree (Work.begin kv.pages kv.pm) [] updated work := by
  have spec := holds.result request
  rw [changed.run] at spec
  generalize same : (true, root) = value at spec
  cases spec with
  | failed failed => exact absurd changed.clean failed
  | applied applied _ =>
    cases same
    exact ⟨_, rfl, applied⟩

/-- A committed update holds the tree that it published. -/
theorem committed {request : Call} {root : Nat} {work : Work} {managed last : Managed Note}
    {updated : Root} (applied : Applied request.calls tree (Work.begin kv.pages kv.pm) []
      updated work) (root_eq : updated.pageID = root)
    (data : writeData work.pending ⟨work.pm, kv.disk⟩ = .ok () managed)
    (published : Managed.publishRoot root (announced root work managed) = .ok () last)
    (disk : Disk Note) :
    Holds { kv with
      pm := last.pm
      root := root
      pages := reachablePageMap work.working root
      disk := disk } updated := by
  have owns : managed.pm.Owns updated.labels := by
    rw [writeData_pm data, ← append_nil updated.labels]
    exact applied.sound.owns
  obtain ⟨ownsLast, rootLast⟩ := Managed.publishRoot_ok
    (show (announced root work managed).pm.Owns updated.labels from owns) published
  have positive : ∀ pageID ∈ updated.labels, pageID ≠ 0 := fun pageID mem =>
    Nat.ne_of_gt (owns.mem_iff.mp (.inl mem)).1
  obtain ⟨stored, keys⟩ := reachablePageMap_spec applied.stored owns.nodup_live positive
  rw [root_eq] at stored keys
  exact ⟨root_eq, rootLast, stored, keys, ownsLast⟩

/-- One update, whatever its file calls do. -/
theorem updateCertain (holds : kv.Holds tree) (request : Call) :
    ∃ updated, (kv.updateCertain request.change).2.Holds updated := by
  have spec := updateCertain_cases holds.mirrors request.change
  generalize kv.updateCertain request.change = outcome at spec
  cases spec with
  | statFailed => exact ⟨tree, holds⟩
  | refused | unchanged | dataFailed => exact ⟨tree, holds.onFile _⟩
  | publishFailed =>
    exact ⟨tree, holds.root, holds.published, holds.stored, holds.keys, holds.owns⟩
  | committed changed data published =>
    obtain ⟨updated, root_eq, applied⟩ := holds.applied changed
    exact ⟨updated, committed applied root_eq data published _⟩

theorem update (holds : kv.Holds tree) (request : Call) :
    ∃ updated, (kv.update request.change).2.Holds updated := by
  rw [KV.update]
  by_cases uncertain : kv.uncertain
  · rw [if_pos uncertain]
    cases repaired : kv.repair with
    | error err => exact ⟨tree, holds⟩
    | ok next =>
      obtain ⟨small, pm, pages, recovered, rfl⟩ := repair_ok repaired
      obtain ⟨other, holdsOther⟩ := holds_recovered small recovered kv.closed kv.disk
      exact holdsOther.updateCertain request
  · rw [if_neg uncertain]
    exact holds.updateCertain request

theorem call (holds : kv.Holds tree) (faults : Faults) (request : Call) :
    ∃ updated, (kv.call faults request).2.Holds updated := by
  have holdsFaults : (kv.meeting faults).Holds tree := holds.onFile _
  cases closed : kv.closed with
  | true =>
    rw [call_closed closed]
    exact ⟨tree, holdsFaults⟩
  | false =>
    rw [call_open closed]
    exact holdsFaults.update request

end Holds

/-- Every handle between two calls holds a tree. -/
theorem Reached.holds {kv : KV} (reached : kv.Reached) : ∃ tree, kv.Holds tree := by
  induction reached with
  | opened run =>
    obtain ⟨small, pm, pages, recovered, same⟩ := openFile_ok run
    rw [same]
    exact holds_recovered small recovered false _
  | called _ faults request ih =>
    obtain ⟨tree, holds⟩ := ih
    exact holds.call faults request
  | closed _ ih =>
    obtain ⟨tree, holds⟩ := ih
    exact ⟨tree, holds.root, holds.published, holds.stored, holds.keys, holds.owns⟩

/-! ## Owners -/

/-- Who may own a page. -/
inductive Owner where
  | tree
  | free
  | retired
  | pendingFree
  | freeList
  deriving DecidableEq

/-- The page is reachable from the root, or in one of the lists. -/
def Owner.Has (kv : KV) (pageID : Nat) : Owner → Prop
  | .tree => Reachable kv.pages kv.root pageID
  | .free => pageID ∈ kv.pm.freePageIDs
  | .retired => pageID ∈ kv.pm.retiredPageIDs
  | .pendingFree => pageID ∈ kv.pm.pendingFreePageIDs
  | .freeList => pageID ∈ kv.pm.freeListPageIDs

variable {pageID : Nat}

/-- Different owners have different pages. -/
theorem Holds.owner_unique {kv : KV} {tree : Root} (holds : kv.Holds tree)
    {owner other : Owner} (has : owner.Has kv pageID) (hasOther : other.Has kv pageID) :
    owner = other := by
  have reachable : Reachable kv.pages tree.pageID pageID ↔ pageID ∈ tree.labels :=
    holds.stored.reachable_iff
  have nodup := holds.owns.nodup
  rw [holds.root] at reachable
  rw [PageManager.listed] at nodup
  have count := nodup_iff_count_le_one.mp nodup pageID
  simp only [count_append] at count
  -- Each list that has the page counts it once.
  cases owner <;> cases other <;> first
    | rfl
    | (simp only [Owner.Has, reachable, ← count_pos_iff] at has hasOther
       omega)

theorem Holds.exists_owner {kv : KV} {tree : Root} (holds : kv.Holds tree) :
    (∃ owner : Owner, owner.Has kv pageID) ↔ 0 < pageID ∧ pageID < kv.pm.nextPageID := by
  have reachable : Reachable kv.pages tree.pageID pageID ↔ pageID ∈ tree.labels :=
    holds.stored.reachable_iff
  rw [holds.root] at reachable
  rw [← holds.owns.mem_iff, PageManager.mem_listed, ← reachable]
  constructor
  · rintro ⟨owner, has⟩
    cases owner with
    | tree => exact .inl has
    | free => exact .inr (.inl has)
    | retired => exact .inr (.inr (.inl has))
    | pendingFree => exact .inr (.inr (.inr (.inl has)))
    | freeList => exact .inr (.inr (.inr (.inr has)))
  · rintro (isLive | isFree | isRetired | isPending | isNode)
    · exact ⟨.tree, isLive⟩
    · exact ⟨.free, isFree⟩
    · exact ⟨.retired, isRetired⟩
    · exact ⟨.pendingFree, isPending⟩
    · exact ⟨.freeList, isNode⟩

/-- Between two calls every page of the file has exactly one owner, no list names a page twice,
the page map is the tree, and the free set is the free list. -/
theorem pages_partitioned {kv : KV} (reached : kv.Reached) :
    (∀ pageID, 0 < pageID → pageID < kv.pm.nextPageID → ∃! owner : Owner, owner.Has kv pageID) ∧
      (∀ pageID (owner : Owner), owner.Has kv pageID → 0 < pageID ∧ pageID < kv.pm.nextPageID) ∧
      kv.pm.freePageIDs.Nodup ∧ kv.pm.retiredPageIDs.Nodup ∧ kv.pm.pendingFreePageIDs.Nodup ∧
      kv.pm.freeListPageIDs.Nodup ∧
      (∀ pageID, pageID ∈ kv.pages ↔ Reachable kv.pages kv.root pageID) ∧
      kv.pm.freePageSet = kv.pm.freePageIDs.toFinset := by
  obtain ⟨tree, holds⟩ := reached.holds
  have nodup := holds.owns.nodup_listed
  rw [PageManager.listed] at nodup
  have later := nodup.of_append_right
  have latest := later.of_append_right
  refine ⟨?_, fun pageID owner has => holds.exists_owner.mp ⟨owner, has⟩, nodup.of_append_left,
    later.of_append_left, latest.of_append_left, latest.of_append_right, ?_, holds.owns.set_eq⟩
  · intro pageID positive inside
    obtain ⟨owner, has⟩ := holds.exists_owner.mpr ⟨positive, inside⟩
    exact ⟨owner, has, fun other hasOther => holds.owner_unique hasOther has⟩
  · intro pageID
    rw [← holds.root, holds.stored.reachable_iff, AList.mem_keys, holds.keys.mem_iff]

/-- A new store after its first call. -/
theorem pages_partitioned_set : ∃ kv, KV.openFile true .none [] = .ok kv ∧
      let next := (kv.call .none (.set [1] [2])).2
      ∀ pageID, 0 < pageID → pageID < next.pm.nextPageID → ∃! owner : Owner,
        owner.Has next pageID :=
  ⟨_, Generation.openFile_new true,
    (pages_partitioned (.called (.opened (Generation.openFile_new true)) .none (.set [1] [2]))).1⟩

end KV

end GoDatabase
