import GoDatabase.Store.Opening

/-!
# Files with one generation

The first slot of the file holds its only generation, the second is blank.  An empty file is given
such slots for an empty tree, so that it is opened as an empty store.
-/

namespace GoDatabase

open Library Fallible

/-! ## Opening without faults -/

section Opening

variable {ν : Type} {disk : Disk ν} {pm : PageManager} {pages : PageMap} {nextPageID : Nat}

/-- The file of a store that was opened without faults. -/
def Disk.opened (created : Bool) (disk : Disk ν) : Disk ν :=
  if created then disk.record .sync else disk

theorem openStore_of_prepared (created : Bool) {prepared : Disk ν}
    (noFault : prepared.faults = .none) (checked : openPageManager disk = .ok nextPageID prepared)
    (recovered : recoverCommittedPages prepared.view nextPageID = .ok (pm, pages)) :
    openStore created disk = .ok (pm, pages) (prepared.opened created) := by
  rw [openStore, bind_of_ok checked, get_bind_apply]
  cases created with
  | false => exact lift_of_ok recovered prepared
  | true =>
    have synced : Disk.sync prepared.faults.syncData prepared =
        .ok () (prepared.record .sync) := by
      rw [noFault]
      rfl
    rw [if_pos rfl, bind_of_ok synced, noFault]
    exact lift_of_ok recovered (prepared.record .sync)

theorem openPageManager_empty (noFault : disk.faults = .none)
    (empty : disk.bytes = []) (checked : checkFile disk.initialized.view = .ok nextPageID) :
    openPageManager disk = .ok nextPageID disk.initialized := by
  have stat : disk.view.size = .ok disk.bytes.length := by
    rw [FileView.size, if_neg]
    · rfl
    · rw [show disk.view.bytes = [] from empty, show disk.view.stat = false from
        congrArg Faults.stat noFault]
      decide
  have made : initializeFile disk = .ok () disk.initialized := by
    have resized : Disk.resize metadataSize disk =
        .ok () (disk.record (.truncate metadataSize)) := by
      rw [Disk.resize, noFault]
      rfl
    have written := writeRootMetadataSlot_none (show 0 < metadataSlotCount by decide) {}
      (show (disk.record (.truncate metadataSize)).faults.slotWrite = none by
        rw [Disk.record_faults, noFault]; rfl)
    rw [initializeFile, bind_of_ok resized, bind_of_ok written, get_bind_apply, Disk.sync]
    simp only [Disk.record_faults, noFault]
    rfl
  rw [openPageManager, get_bind_apply, lift_bind_of_ok stat, if_pos (by rw [empty]; rfl)]
  exact (bind_of_ok made).trans (lift_of_ok checked disk.initialized)

/-- A file that is not empty is checked as it is. -/
theorem openPageManager_of_check (nonempty : disk.view.bytes.length ≠ 0)
    (checked : checkFile disk.view = .ok nextPageID) : openPageManager disk =
      .ok nextPageID disk := by
  obtain ⟨size, stat, -⟩ := bind_ok_iff.mp checked
  obtain ⟨rfl, -⟩ := FileView.size_ok stat
  rw [openPageManager, get_bind_apply, lift_bind_of_ok stat, if_neg nonempty]
  exact lift_of_ok checked disk

end Opening

namespace Generation

/-- The file with these data pages whose first slot holds the metadata. -/
def slotFile (metadata : RootMetadata) (data : Bytes) : Bytes :=
  writeAt (truncateTo [] metadataSize ++ data) (0 * pageSize) (rootMetadataPage metadata)

theorem errInvalidPageData_is : errInvalidPageData.is errInvalidPageData = true :=
  GoError.is_sentinel _

section Slots

variable {metadata : RootMetadata} {data : Bytes} (small : metadataSize + data.length ≤ maxFileSize)
include small

theorem slotWritten_slotFile :
    SlotWritten (truncateTo [] metadataSize ++ data) 0 metadata (slotFile metadata data) := by
  refine Sized.writeAt_slot ⟨?_, ?_⟩ (by decide) metadata
  all_goals rw [List.length_append, length_truncateTo]
  · exact Nat.le_add_right _ _
  · exact small

theorem length_slotFile : (slotFile metadata data).length = metadataSize + data.length := by
  rw [(slotWritten_slotFile small).length_eq, List.length_append, length_truncateTo]

theorem sized_slotFile : Sized (slotFile metadata data) := by
  constructor
  all_goals rw [length_slotFile small]
  · exact Nat.le_add_right _ _
  · exact small

/-- The second slot is blank. -/
theorem readSlot_second :
    readRootMetadataSlot (.ofBytes (slotFile metadata data)) 1 = .error errInvalidPageData := by
  have blank : slotAt (slotFile metadata data) 1 = zeros pageSize := by
    have second : At (truncateTo [] metadataSize ++ data) (1 * pageSize) (zeros pageSize) := by
      rw [show truncateTo [] metadataSize = zeros metadataSize from rfl]
      refine ⟨?_, ?_⟩
      · rw [length_zeros, List.length_append, length_zeros]
        exact Nat.le_add_right _ _
      · rw [length_zeros, slice_append_left (by rw [length_zeros]; decide)]
        exact slice_zeros (by decide)
    have kept : At (slotFile metadata data) (1 * pageSize) (zeros pageSize) :=
      second.writeAt_disjoint (.inr (by
        rw [length_rootMetadataPage, Nat.zero_mul, Nat.zero_add, Nat.one_mul]))
    exact kept.slice_sub (length_zeros _)
  rcases (sized_slotFile small).readRootMetadataSlot_found
    (show 1 < metadataSlotCount by decide) with
    ⟨_, -, intact, -⟩ | invalid
  · have magic := intact.magic
    rw [blank, slice_zeros (by decide)] at magic
    exact absurd magic (by decide)
  · exact invalid

variable (read : readRootMetadataSlot (.ofBytes (slotFile metadata data)) 0 = .ok metadata)
include read

/-- Only the first slot is a candidate. -/
theorem recover_slotFile {nextPageID : Nat} {result : PageManager × PageMap}
    (taken : recoverCandidate (.ofBytes (slotFile metadata data)) nextPageID metadata =
      .ok result) :
    recoverCommittedPages (.ofBytes (slotFile metadata data)) nextPageID = .ok result := by
  have second : readCandidates (.ofBytes (slotFile metadata data)) [1] = .ok [] := by
    rw [readCandidates, readSlot_second small]
    dsimp only
    rw [if_pos errInvalidPageData_is, readCandidates]
  have candidates : readCandidates (.ofBytes (slotFile metadata data)) [0, 1] = .ok [metadata] := by
    rw [readCandidates, read]
    dsimp only
    rw [second, ok_bind]
    rfl
  have one : ¬ [metadata].length = 0 := Nat.one_ne_zero
  rw [recoverCommittedPages, show List.range metadataSlotCount = [0, 1] from rfl, candidates,
    ok_bind, if_neg one]
  exact recoverCandidates_take taken none

theorem check_slotFile (aligned : data.length % pageSize = 0)
    (root : metadata.rootPageID ≤ data.length / pageSize) (noFree : metadata.freePageIDs = []) :
    checkFile (.ofBytes (slotFile metadata data)) = .ok (data.length / pageSize + 1) := by
  have chosen : readRootMetadata (.ofBytes (slotFile metadata data)) = .ok metadata := by
    rw [readRootMetadata, read, readSlot_second small]
    simp only [betterMetadata, ok_bind, if_pos errInvalidPageData_is]
    rfl
  rw [checkFile, FileView.size_ofBytes (sized_slotFile small).small, ok_bind, length_slotFile small,
    if_neg, chosen, ok_bind, pagesOf, Nat.add_sub_cancel_left]
  · dsimp only
    rw [if_neg (by omega), if_neg (by simp [noFree])]
    rfl
  · rw [Unaligned, Nat.add_sub_cancel_left]
    omega

/-- The file is opened with what is recovered from its generation. -/
theorem openFile_slotFile {pm : PageManager} {pages : PageMap}
    (aligned : data.length % pageSize = 0) (root : metadata.rootPageID ≤ data.length / pageSize)
    (noFree : metadata.freePageIDs = [])
    (taken : recoverCandidate (.ofBytes (slotFile metadata data)) (data.length / pageSize + 1)
      metadata = .ok (pm, pages)) : KV.openFile false .none (slotFile metadata data) =
      .ok ⟨pm, pm.rootPageID, pages, false, false, ⟨slotFile metadata data, [], .none⟩⟩ := by
  have checked := check_slotFile small read aligned root noFree
  have prepared := @openPageManager_of_check Note ⟨slotFile metadata data, [], .none⟩ _
    (Nat.ne_of_gt (Nat.lt_of_lt_of_le (by decide) (sized_slotFile small).slots)) checked
  rw [KV.openFile, openStore_of_prepared false rfl prepared (recover_slotFile small read taken)]
  rfl

end Slots

/-- A new file after it was given its slots. -/
theorem readSlot_new : readRootMetadataSlot (.ofBytes (slotFile {} [])) 0 = .ok {} := by
  have small : metadataSize + ([] : Bytes).length ≤ maxFileSize := by decide
  have consistent : ({} : RootMetadata).Consistent := by
    refine ⟨?_, Nat.le_refl _, rfl, rfl, rfl, rfl, rfl, List.nodup_nil, nofun, nofun, nofun⟩
    change ∀ word ∈ [0, 0, 0, 0, 0, 0, 0, 0], word < 256 ^ 8
    decide
  exact consistent.readSlot rfl (sized_slotFile small) (Nat.zero_le _) (by decide)
    (slotWritten_slotFile small).written

/-- An empty store on its file. -/
def newStore (created : Bool) : KV :=
  ⟨.onFile 1, 0, ∅, false, false, Disk.opened created (Disk.initialized ⟨[], [], .none⟩)⟩

/-- A new file is opened as an empty store. -/
theorem openFile_new (created : Bool) :
    KV.openFile created .none [] = .ok (newStore created) := by
  have small : metadataSize + ([] : Bytes).length ≤ maxFileSize := by decide
  have view : (Disk.initialized ⟨[], [], .none⟩ : Disk Note).view = .ofBytes (slotFile {} []) := by
    have whole := List.take_of_length_le (Nat.le_of_eq (length_rootMetadataPage {}))
    have same : (Disk.initialized ⟨[], [], .none⟩ : Disk Note).bytes = slotFile {} [] := by
      simp only [Disk.initialized, Disk.bytes, Disk.record, contents]
      rw [whole, slotFile, List.append_nil]
    rw [Disk.view, same]
    rfl
  have taken : recoverCandidate (.ofBytes (slotFile {} [])) 1 {} = .ok (.onFile 1, ∅) := rfl
  have checked := check_slotFile small readSlot_new rfl (Nat.zero_le _) rfl
  have recovered := recover_slotFile small readSlot_new taken
  rw [← view] at checked recovered
  have prepared := @openPageManager_empty Note ⟨[], [], .none⟩ _ rfl rfl checked
  rw [KV.openFile, openStore_of_prepared created rfl prepared recovered]
  rfl

end Generation

end GoDatabase
