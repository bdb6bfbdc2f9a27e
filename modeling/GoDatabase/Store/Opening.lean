import GoDatabase.Store.KV
import GoDatabase.Store.RecoverSpec

/-!
# Opening and repairing a handle

What `Open` and `repair` did when they succeed: one of the slots of the file was recovered.
-/

namespace GoDatabase

open Library Fallible

section Opening

variable {ν : Type} {disk last : Disk ν} {nextPageID : Nat} {pm : PageManager} {pages : PageMap}

/-- An empty file after it was given its slots. -/
def Disk.initialized (disk : Disk ν) : Disk ν :=
  ((disk.record (.truncate metadataSize)).record
    (.write (0 * pageSize) (rootMetadataPage {}) pageSize)).record .sync

theorem checkFile_ok {view : FileView} (checked : checkFile view = .ok nextPageID) :
    view.bytes.length ≤ maxFileSize ∧ nextPageID = pagesOf view.bytes.length + 1 := by
  rw [checkFile, bind_ok_iff] at checked
  obtain ⟨size, stat, checked⟩ := checked
  obtain ⟨rfl, small⟩ := FileView.size_ok stat
  rw [guard_eq_ok] at checked
  obtain ⟨-, checked⟩ := checked
  rw [bind_ok_iff] at checked
  obtain ⟨metadata, -, checked⟩ := checked
  rw [guard_eq_ok, guard_eq_ok] at checked
  exact ⟨small, (Except.ok.inj checked.2.2).symm⟩

theorem openPageManager_ok (run : openPageManager disk = .ok nextPageID last) :
    checkFile last.view = .ok nextPageID := by
  rw [openPageManager, get_bind_apply] at run
  obtain ⟨size, -, run⟩ := exists_of_lift_bind_ok run
  by_cases empty : size = 0
  · rw [if_pos empty] at run
    obtain ⟨⟨⟩, initialized, -, checked⟩ := exists_of_bind_ok run
    obtain ⟨passed, rfl⟩ := of_lift_ok (show (liftM (checkFile initialized.view) :
      Fallible (Disk ν) Nat) initialized = _ from checked)
    exact passed
  · rw [if_neg empty] at run
    obtain ⟨passed, rfl⟩ := of_lift_ok (show (liftM (checkFile disk.view) :
      Fallible (Disk ν) Nat) disk = _ from run)
    exact passed

/-- A successful `Open` recovered one of the slots of the file that it leaves. -/
theorem openStore_ok {created : Bool}
    (run : openStore created disk = .ok (pm, pages) last) :
    last.bytes.length ≤ maxFileSize ∧
      recoverCommittedPages last.view (pagesOf last.bytes.length + 1) = .ok (pm, pages) := by
  rw [openStore] at run
  obtain ⟨nextPageID, middle, first, later⟩ := exists_of_bind_ok run
  obtain ⟨small, rfl⟩ := checkFile_ok (openPageManager_ok first)
  rw [get_bind_apply] at later
  cases created with
  | false =>
    obtain ⟨recovered, rfl⟩ := of_lift_ok (show (liftM (recoverCommittedPages middle.view
      (pagesOf middle.bytes.length + 1)) : Fallible (Disk ν) _) middle = _ from later)
    exact ⟨small, recovered⟩
  | true =>
    rw [if_pos rfl] at later
    obtain ⟨⟨⟩, synced, sync, final⟩ := exists_of_bind_ok later
    rw [Disk.sync] at sync
    split_ifs at sync
    cases sync
    by_cases failed : middle.faults.syncDirectory
    · rw [if_pos failed] at final
      cases final
    · rw [if_neg failed] at final
      obtain ⟨recovered, rfl⟩ := of_lift_ok (show (liftM (recoverCommittedPages
        (middle.record .sync).view (pagesOf middle.bytes.length + 1)) : Fallible (Disk ν) _)
        (middle.record .sync) = _ from final)
      exact ⟨small, recovered⟩

end Opening

namespace KV

variable {kv : KV}

theorem repair_ok {next : KV} (run : kv.repair = .ok next) :
    kv.disk.bytes.length ≤ maxFileSize ∧
      ∃ pm pages, recoverCommittedPages kv.disk.view (pagesOf kv.disk.bytes.length + 1) =
          .ok (pm, pages) ∧ next = ⟨pm, pm.rootPageID, pages, kv.closed, false, kv.disk⟩ := by
  rw [repair, bind_ok_iff] at run
  obtain ⟨size, stat, run⟩ := run
  obtain ⟨rfl, small⟩ := FileView.size_ok stat
  rw [guard_eq_ok] at run
  obtain ⟨-, run⟩ := run
  rw [bind_ok_iff] at run
  obtain ⟨⟨pm, pages⟩, recovered, last⟩ := run
  exact ⟨small, pm, pages, recovered, (Except.ok.inj last).symm⟩

theorem openFile_ok {created : Bool} {faults : Faults} {file : Bytes}
    (run : openFile created faults file = .ok kv) :
    kv.disk.bytes.length ≤ maxFileSize ∧ ∃ pm pages,
      recoverCommittedPages kv.disk.view (pagesOf kv.disk.bytes.length + 1) = .ok (pm, pages) ∧
      kv = ⟨pm, pm.rootPageID, pages, false, false, kv.disk⟩ := by
  rw [openFile] at run
  cases store : openStore created (⟨file, [], faults⟩ : Disk Note) with
  | error err last =>
    rw [store] at run
    cases run
  | ok result last =>
    obtain ⟨pm, pages⟩ := result
    rw [store] at run
    obtain rfl := Except.ok.inj run
    obtain ⟨small, recovered⟩ := openStore_ok store
    exact ⟨small, pm, pages, recovered, rfl⟩

end KV

end GoDatabase
