import GoDatabase.Manager.SnapshotSpec

/-!
# What publishing a root does

The ways in which `publishRoot` can end, with the file operations up to there.  A published
page manager owns the same pages as before, and those that the file was extended by.
-/

namespace GoDatabase

open Library
open List

namespace Managed

open Fallible

variable {ν : Type} {managed middle last : Managed ν} {rootPageID : Nat} {metadata : RootMetadata}

/-! ## Writes that may fail -/

/-- A page write changes its page of the file at most. -/
theorem writePage_wrote (fault : Option Nat) (pageID : Nat) (page : Bytes) (managed : Managed ν) :
    (after (writePage fault pageID page managed)).pm = managed.pm ∧
      Disk.Wrote [pageID] managed.disk (after (writePage fault pageID page managed)).disk := by
  rw [writePage, get_bind_apply]
  cases valid : managed.pm.validateExistingPageID pageID with
  | error err =>
    rw [bind_of_error (lift_of_error rfl managed)]
    exact ⟨rfl, .refl _ _⟩
  | ok done =>
    rw [lift_bind_of_ok rfl]
    by_cases whole : page.length = pageSize
    · rw [if_neg (not_not.mpr whole)]
      cases found : dataPageOffset pageID with
      | error err =>
        rw [bind_of_error (lift_of_error rfl managed)]
        exact ⟨rfl, .refl _ _⟩
      | ok offset =>
        obtain ⟨-, -, rfl⟩ := dataPageOffset_ok found
        rw [lift_bind_of_ok rfl, onDisk]
        cases write : Disk.writeAt fault (pageOffset pageID) page managed.disk with
        | ok done disk =>
          obtain ⟨small, rfl⟩ := Disk.writeAt_ok write
          rw [whole] at small
          exact ⟨rfl, .write _ (mem_singleton_self _) whole small⟩
        | error err disk =>
          rcases (Disk.writeAt_error write).2 with rfl | ⟨written, -, small, rfl⟩
          · exact ⟨rfl, .refl _ _⟩
          · rw [whole] at small
            exact ⟨rfl, .write _ (mem_singleton_self _) whole small⟩
    · rw [if_pos whole]
      exact ⟨rfl, .refl _ _⟩

/-- Writes of pages one after the other, until one of them fails. -/
theorem wrote_cons {α : Type} {first : Fallible (Managed ν) Unit} {later : Fallible (Managed ν) α}
    {pageID : Nat} {pages : List Nat} (here : (after (first managed)).pm = managed.pm ∧
      Disk.Wrote [pageID] managed.disk (after (first managed)).disk)
    (rest : ∀ middle, (after (later middle)).pm = middle.pm ∧
      Disk.Wrote pages middle.disk (after (later middle)).disk) :
    (after ((first >>= fun _ => later) managed)).pm = managed.pm ∧
      Disk.Wrote (pageID :: pages) managed.disk
        (after ((first >>= fun _ => later) managed)).disk := by
  have one : [pageID] ⊆ pageID :: pages :=
    cons_subset.mpr ⟨mem_cons_self .., nil_subset _⟩
  cases result : first managed with
  | error err middle =>
    rw [result] at here
    rw [bind_of_error result]
    exact ⟨here.1, here.2.mono one⟩
  | ok done middle =>
    rw [result] at here
    rw [bind_of_ok result]
    obtain ⟨samePM, wrote⟩ := rest middle
    exact ⟨samePM.trans here.1, (here.2.mono one).trans (wrote.mono (subset_cons_self ..))⟩

theorem writeFreeListNodes_wrote (entries : List Nat) : ∀ (pages : List Nat) (i : Nat)
    (managed : Managed ν), (after (writeFreeListNodes entries i pages managed)).pm = managed.pm ∧
      Disk.Wrote pages managed.disk (after (writeFreeListNodes entries i pages managed)).disk := by
  intro pages
  induction pages with
  | nil => exact fun _ managed => ⟨rfl, .refl _ _⟩
  | cons pageID rest ih =>
    intro i managed
    rw [writeFreeListNodes]
    cases encodeFreeListNode ⟨rest.headD 0, i * freeListPageCapacity, nodeEntries entries i⟩ with
    | error err =>
      rw [bind_of_error (lift_of_error rfl managed)]
      exact ⟨rfl, .refl _ _⟩
    | ok page =>
      rw [lift_bind_of_ok rfl, get_bind_apply]
      exact wrote_cons (writePage_wrote _ _ _ _) (ih (i + 1))

/-! ## The ends of `publishRoot` -/

/-- The generation that a call of `publishRoot` writes. -/
def nextGeneration (managed : Managed ν) : Nat := (managed.pm.generation + 1) % 2 ^ 64

/-- The slot of that generation. -/
def nextSlot (managed : Managed ν) : Nat := managed.nextGeneration % metadataSlotCount

/-- The write of the slot. -/
def slotEvent (managed : Managed ν) (metadata : RootMetadata) (written : Nat) : Event ν :=
  .write (managed.nextSlot * pageSize) (rootMetadataPage metadata) written

/-- The lists of the next generation are on the file, and the file is synced. -/
structure Listed (rootPageID : Nat) (managed : Managed ν) (metadata : RootMetadata)
    (middle : Managed ν) : Prop where
  root : checkRoot managed.pm rootPageID = .ok ()
  snapshot : writeFreeListSnapshot managed.nextGeneration rootPageID managed = .ok metadata middle

/-- The ways in which `publishRoot` can end. -/
inductive Publishing (rootPageID : Nat) (managed : Managed ν) :
    EStateM.Result GoError (Managed ν) Unit → Prop
  | refused {err : GoError} (root : checkRoot managed.pm rootPageID = .error err) :
      Publishing rootPageID managed (.error err managed)
  | snapshotFailed {err : GoError} {last : Managed ν}
      (snapshot : writeFreeListSnapshot managed.nextGeneration rootPageID managed =
        .error err last) :
      Publishing rootPageID managed (.error err last)
  | listSyncFailed {metadata : RootMetadata} {middle : Managed ν}
      (listed : Listed rootPageID managed metadata middle)
      (fault : managed.disk.faults.syncFreeList = true) :
      Publishing rootPageID managed (.error errFile middle)
  | slotFailed {metadata : RootMetadata} {middle : Managed ν} {written : Nat}
      (listed : Listed rootPageID managed metadata middle)
      (fault : middle.disk.faults.slotWrite = some written) :
      Publishing rootPageID managed (.error errFile { middle with
        disk := (middle.disk.record .sync).record (managed.slotEvent metadata written) })
  | slotSyncFailed {metadata : RootMetadata} {middle : Managed ν}
      (listed : Listed rootPageID managed metadata middle)
      (fault : managed.disk.faults.syncMetadata = true) :
      Publishing rootPageID managed (.error errFile { middle with
        disk := (middle.disk.record .sync).record (managed.slotEvent metadata pageSize) })
  | published {metadata : RootMetadata} {middle : Managed ν}
      (listed : Listed rootPageID managed metadata middle) :
      Publishing rootPageID managed (.ok () (commit metadata { middle with
        disk := ((middle.disk.record .sync).record
          (managed.slotEvent metadata pageSize)).record .sync }))

theorem onDisk_sync (fails : Bool) (managed : Managed ν) : onDisk (Disk.sync fails) managed =
      if fails then .error errFile managed
      else .ok () { managed with disk := managed.disk.record .sync } := by
  rw [onDisk, Disk.sync]
  cases fails <;> rfl

variable {slot : Nat}

/-- A slot is inside of any file. -/
theorem slot_fits (isSlot : slot < metadataSlotCount) (metadata : RootMetadata) :
    slot * pageSize + (rootMetadataPage metadata).length ≤ maxFileSize := by
  rw [length_rootMetadataPage]
  exact (slot_le_pageOffset isSlot 1).trans (by decide)

theorem onDisk_writeSlot (isSlot : slot < metadataSlotCount) (metadata : RootMetadata)
    (managed : Managed ν) : onDisk (writeRootMetadataSlot slot metadata) managed =
      match managed.disk.faults.slotWrite with
      | none => .ok () { managed with
          disk := managed.disk.record
            (.write (slot * pageSize) (rootMetadataPage metadata) pageSize) }
      | some written => .error errFile { managed with
          disk := managed.disk.record
            (.write (slot * pageSize) (rootMetadataPage metadata) written) } := by
  have fits := slot_fits isSlot metadata
  rw [onDisk, writeRootMetadataSlot, Disk.writeAt.eq_def, if_neg (Nat.not_lt.mpr fits)]
  cases managed.disk.faults.slotWrite with
  | none =>
    simp only [length_rootMetadataPage]
  | some written => rfl

theorem slot_lt (managed : Managed ν) : managed.nextSlot < metadataSlotCount :=
  Nat.mod_lt _ (by decide)

/-- The steps, by the generation and the slot that they are for. -/
theorem publishRoot_eq (rootPageID : Nat) (managed : Managed ν) :
    publishRoot rootPageID managed = (do
      liftM (checkRoot managed.pm rootPageID)
      let metadata ← writeFreeListSnapshot managed.nextGeneration rootPageID
      onDisk (Disk.sync managed.disk.faults.syncFreeList)
      onDisk (writeRootMetadataSlot managed.nextSlot metadata)
      onDisk (Disk.sync managed.disk.faults.syncMetadata)
      modify (commit metadata) : Fallible (Managed ν) Unit) managed := rfl

theorem publishRoot_cases (rootPageID : Nat) (managed : Managed ν) :
    Publishing rootPageID managed (publishRoot rootPageID managed) := by
  rw [publishRoot_eq]
  cases root : checkRoot managed.pm rootPageID with
  | error err =>
    rw [bind_of_error (lift_of_error rfl managed)]
    exact .refused root
  | ok done =>
    rw [lift_bind_of_ok rfl]
    cases snapshot : writeFreeListSnapshot managed.nextGeneration rootPageID managed with
    | error err last =>
      rw [bind_of_error snapshot]
      exact .snapshotFailed snapshot
    | ok metadata middle =>
      have listed : Listed rootPageID managed metadata middle := ⟨root, snapshot⟩
      rw [bind_of_ok snapshot]
      cases listSync : managed.disk.faults.syncFreeList with
      | true =>
        rw [bind_of_error (onDisk_sync true middle)]
        exact .listSyncFailed listed listSync
      | false =>
        rw [bind_of_ok (onDisk_sync false middle)]
        have put := onDisk_writeSlot managed.slot_lt metadata
          { middle with disk := middle.disk.record .sync }
        cases slotWrite : middle.disk.faults.slotWrite with
        | some written =>
          simp only [Disk.record_faults, slotWrite] at put
          rw [bind_of_error put]
          exact .slotFailed listed slotWrite
        | none =>
          simp only [Disk.record_faults, slotWrite] at put
          rw [bind_of_ok put]
          cases slotSync : managed.disk.faults.syncMetadata with
          | true =>
            rw [bind_of_error (onDisk_sync true _)]
            exact .slotSyncFailed listed slotSync
          | false =>
            rw [bind_of_ok (onDisk_sync false _)]
            exact .published listed

/-! ## Ownership -/

theorem extendPages_bounded : ∀ {count : Nat} {managed last : Managed ν} {pages : List Nat},
    managed.pm.nextPageID ≤ maxPageID + 1 → extendPages count managed = .ok pages last →
    last.pm.nextPageID ≤ maxPageID + 1 := by
  intro count
  induction count with
  | zero =>
    intro managed last pages bounded run
    cases run
    exact bounded
  | succ count ih =>
    intro managed last pages bounded run
    rw [extendPages, get_bind_apply] at run
    obtain ⟨offset, found, run⟩ := exists_of_lift_bind_ok run
    rw [set_bind_apply] at run
    obtain ⟨rest, middle, more, run⟩ := exists_of_bind_ok run
    cases run
    exact ih (Nat.succ_le_succ (dataPageOffset_ok found).2.1) more

theorem writeFreeListSnapshot_bounded {generation : Nat}
    (bounded : managed.pm.nextPageID ≤ maxPageID + 1)
    (run : writeFreeListSnapshot generation rootPageID managed = .ok metadata last) :
    last.pm.nextPageID ≤ maxPageID + 1 := by
  rw [writeFreeListSnapshot, get_bind_apply, set_bind_apply] at run
  obtain ⟨fresh, middle, extended, run⟩ := exists_of_bind_ok run
  obtain ⟨⟨⟩, written, nodes, run⟩ := exists_of_bind_ok run
  have samePM := (writeFreeListNodes_wrote (managed.pm.freeListPlan managed.disk.view).entries
    ((managed.pm.freeListPlan managed.disk.view).reused ++ fresh) 0 middle).1
  rw [nodes] at samePM
  rw [modify_bind_apply, get_bind_apply] at run
  cases run
  have count : written.pm.nextPageID = middle.pm.nextPageID :=
    congrArg PageManager.nextPageID samePM
  change written.pm.nextPageID ≤ _
  rw [count]
  exact @extendPages_bounded _ _ (managed.takeReused _) _ _ bounded extended

namespace Listed

variable {live : List Nat} (listed : Listed rootPageID managed metadata middle)
include listed

/-- The committed page manager owns what the lists of the new generation hold. -/
theorem owns_commit (owns : managed.pm.Owns live) (disk : Disk ν) :
    (commit metadata { middle with disk := disk }).pm.Owns live := by
  have written := writeFreeListSnapshot_ok owns listed.snapshot
  have next := written.nextPageID_eq
  have positive := owns.positive
  have bounded := writeFreeListSnapshot_bounded owns.bounded listed.snapshot
  refine ⟨?_, bounded, ?_, rfl⟩
  · change 0 < middle.pm.nextPageID
    omega
  have range : List.range' 1 (middle.pm.nextPageID - 1) =
      List.range' 1 (managed.pm.nextPageID - 1) ++
        List.range' managed.pm.nextPageID (managed.pm.freshCount managed.disk.view) := by
    rw [next, show managed.pm.nextPageID + managed.pm.freshCount managed.disk.view - 1 =
      (managed.pm.nextPageID - 1) + managed.pm.freshCount managed.disk.view by omega,
      ← List.range'_append_1, Nat.add_sub_cancel' positive]
  have lists : (commit metadata { middle with disk := disk }).pm.listed =
      (managed.pm.freeListPlan managed.disk.view).eligible ++
        ((managed.pm.freeListPlan managed.disk.view).protectedIDs ++
          managed.pm.nodePageIDs managed.disk.view) := by
    simp only [PageManager.listed, commit, written.pm_eq, nil_append]
  calc live ++ (commit metadata { middle with disk := disk }).pm.listed
    _ = live ++ ((managed.pm.freeListPlan managed.disk.view).entries ++
          managed.pm.nodePageIDs managed.disk.view) := by
        rw [lists, FreeListPlan.entries, append_assoc]
    _ ~ live ++ (managed.pm.nodePageIDs managed.disk.view ++
          (managed.pm.freeListPlan managed.disk.view).entries) :=
        perm_append_comm.append_left _
    _ ~ live ++ (managed.pm.listed ++
          List.range' managed.pm.nextPageID (managed.pm.freshCount managed.disk.view)) :=
        (managed.pm.nodePageIDs_append_entries managed.disk.view).append_left _
    _ = (live ++ managed.pm.listed) ++
          List.range' managed.pm.nextPageID (managed.pm.freshCount managed.disk.view) :=
        (append_assoc ..).symm
    _ ~ List.range' 1 (middle.pm.nextPageID - 1) := by
        rw [range]
        exact owns.partition.append_right _

theorem root_eq (owns : managed.pm.Owns live) : metadata.rootPageID = rootPageID := by
  rw [(writeFreeListSnapshot_ok owns listed.snapshot).metadata_eq]
  rfl

end Listed

/-- A published page manager owns the pages of its tree and its lists, and belongs to the new
root. -/
theorem publishRoot_ok {live : List Nat} (owns : managed.pm.Owns live)
    (run : publishRoot rootPageID managed = .ok () last) :
    last.pm.Owns live ∧ last.pm.rootPageID = rootPageID := by
  have spec := publishRoot_cases rootPageID managed
  rw [run] at spec
  cases spec with
  | published listed => exact ⟨listed.owns_commit owns _, listed.root_eq owns⟩

end Managed

end GoDatabase
