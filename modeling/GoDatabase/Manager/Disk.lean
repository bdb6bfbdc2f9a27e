import GoDatabase.Library.Fallible
import GoDatabase.Library.File
import GoDatabase.Manager.Allocator

/-!
# The database file

The calls that the page manager makes on its file.  Every call of the database comes
with the faults that its file calls meet: a write may fail after a part of its data, any
other file call may fail without an effect.  In one call of the database every page and
the metadata slot are written at most once and every sync happens at most once, so a
fault is named by what it hits.
-/

namespace GoDatabase

open Library

/-- The error of a file call that the operating system refused. -/
def errFile : GoError := .sentinel "file error"

/-- `io.EOF` -/
def errEOF : GoError := .sentinel "EOF"

/-- A file size is an `int64`. -/
def maxFileSize : Nat := 2 ^ 63 - 1

/-- The faults that the file calls of one database call meet.  A write fault gives the
number of bytes that were written. -/
structure Faults where
  /-- `file.Stat` while metadata is read. -/
  stat : Bool := false
  /-- `file.Stat` at the beginning of an update. -/
  statUpdate : Bool := false
  /-- The positions from which nothing can be read. -/
  unreadable : Nat → Bool := fun _ => false
  truncate : Bool := false
  /-- Writes of tree pages, by page. -/
  pageWrite : Nat → Option Nat := fun _ => none
  syncData : Bool := false
  /-- Writes of free-list pages, by page. -/
  freeListWrite : Nat → Option Nat := fun _ => none
  syncFreeList : Bool := false
  slotWrite : Option Nat := none
  syncMetadata : Bool := false
  syncDirectory : Bool := false

/-- No file call fails. -/
def Faults.none : Faults := {}

/-- The position of a data page in the file. -/
def pageOffset (pageID : Nat) : Nat := metadataSize + (pageID - 1) * pageSize

variable {pageID : Nat}

theorem dataPageOffset_eq (positive : pageID ≠ 0) (small : pageID ≤ maxPageID) :
    dataPageOffset pageID = .ok (pageOffset pageID) := by
  rw [dataPageOffset, if_neg positive, if_neg (Nat.not_lt.mpr small), pageOffset]

/-- The number of data pages of a file. -/
def pagesOf (size : Nat) : Nat := (size - metadataSize) / pageSize

theorem pagesOf_lt {size : Nat} (small : size ≤ maxFileSize) : pagesOf size < maxPageID := by
  have limit : maxPageID = (maxFileSize - metadataSize) / pageSize + 1 := rfl
  have monotone := @Nat.div_le_div_right _ _ pageSize (Nat.sub_le_sub_right small metadataSize)
  rw [pagesOf, limit]
  omega

/-- A page of the file ends inside of it. -/
theorem pageOffset_le {size : Nat} (positive : pageID ≠ 0) (inside : pageID ≤ pagesOf size)
    (slots : metadataSize ≤ size) : pageOffset pageID + pageSize ≤ size := by
  have whole : pagesOf size * pageSize ≤ size - metadataSize := Nat.div_mul_le_self _ _
  have last : (pageID - 1) * pageSize + pageSize ≤ pagesOf size * pageSize := by
    rw [← Nat.succ_mul]
    exact Nat.mul_le_mul_right _ (by omega)
  rw [pageOffset]
  omega

/-- What the read calls see. -/
structure FileView where
  bytes : Bytes
  stat : Bool
  unreadable : Nat → Bool

namespace FileView

/-- The size that `file.Stat` reports. -/
def size (view : FileView) : Except GoError Nat :=
  if view.stat ∨ maxFileSize < view.bytes.length then .error errFile else .ok view.bytes.length

/-- `file.ReadAt` -/
def readAt (view : FileView) (pos count : Nat) : Except GoError Bytes :=
  if view.unreadable pos then .error errFile
  else if view.bytes.length < pos + count then .error errEOF
  else .ok (slice view.bytes pos count)

/-- A file whose read calls succeed. -/
def ofBytes (bytes : Bytes) : FileView := ⟨bytes, false, fun _ => false⟩

theorem size_ofBytes {bytes : Bytes} (small : bytes.length ≤ maxFileSize) :
    (ofBytes bytes).size = .ok bytes.length := by
  have passed : ¬ (false = true ∨ maxFileSize < bytes.length) := by
    rintro (failed | large)
    · cases failed
    · exact absurd small (Nat.not_le.mpr large)
  exact if_neg passed

theorem size_ok {view : FileView} {size : Nat} (stat : view.size = .ok size) :
    size = view.bytes.length ∧ view.bytes.length ≤ maxFileSize := by
  rw [FileView.size, guard_eq_ok, not_or] at stat
  obtain ⟨⟨-, small⟩, same⟩ := stat
  exact ⟨(Except.ok.inj same).symm, Nat.not_lt.mp small⟩

theorem readAt_ofBytes {bytes data : Bytes} {pos : Nat} (here : At bytes pos data) :
    (ofBytes bytes).readAt pos data.length = .ok data := by
  have inside : ¬ bytes.length < pos + data.length := Nat.not_lt.mpr here.inside
  have read : (ofBytes bytes).readAt pos data.length = .ok (slice bytes pos data.length) :=
    if_neg inside
  rw [read, here.slice_eq]

end FileView

/-- The file of an open database: what it held when it was opened, and the operations
since then.  The notes in the log are of type `ν`. -/
structure Disk (ν : Type) where
  initial : Bytes
  log : List (Event ν)
  faults : Faults

namespace Disk

variable {ν : Type}

def bytes (disk : Disk ν) : Bytes := contents disk.initial disk.log

def view (disk : Disk ν) : FileView := ⟨disk.bytes, disk.faults.stat, disk.faults.unreadable⟩

/-- Record an operation. -/
def record (event : Event ν) (disk : Disk ν) : Disk ν := { disk with log := event :: disk.log }

/-- `file.WriteAt` -/
def writeAt (fault : Option Nat) (pos : Nat) (data : Bytes) : Fallible (Disk ν) Unit := fun disk =>
  if maxFileSize < pos + data.length then
    .error errFile disk
  else
    match fault with
    | none => .ok () (disk.record (.write pos data data.length))
    | some written => .error errFile (disk.record (.write pos data written))

/-- `file.Sync` -/
def sync (fails : Bool) : Fallible (Disk ν) Unit := fun disk =>
  if fails then .error errFile disk else .ok () (disk.record .sync)

/-- `_ = file.Truncate(size)`: the caller does not look at the error. -/
def truncate (size : Nat) (disk : Disk ν) : Disk ν :=
  if disk.faults.truncate then disk else disk.record (.truncate size)

@[simp] theorem record_faults (event : Event ν) (disk : Disk ν) :
    (disk.record event).faults = disk.faults := rfl

theorem bytes_write (disk : Disk ν) (pos : Nat) (data : Bytes) (written : Nat) :
    (disk.record (.write pos data written)).bytes =
      Library.writeAt disk.bytes pos (data.take written) := rfl

variable {pos : Nat} {data : Bytes} {fault : Option Nat} {disk last : Disk ν}

theorem writeAt_none (fits : pos + data.length ≤ maxFileSize) (disk : Disk ν) :
    writeAt none pos data disk = .ok () (disk.record (.write pos data data.length)) :=
  if_neg (Nat.not_lt.mpr fits)

theorem writeAt_ok (run : writeAt fault pos data disk = .ok () last) :
    pos + data.length ≤ maxFileSize ∧ last = disk.record (.write pos data data.length) := by
  rw [writeAt.eq_def] at run
  split_ifs at run with large
  cases fault with
  | none =>
    cases run
    exact ⟨Nat.not_lt.mp large, rfl⟩
  | some written => cases run

theorem writeAt_error {err : GoError} (failed : writeAt fault pos data disk = .error err last) :
    err = errFile ∧ (last = disk ∨ ∃ written, fault = some written ∧
      pos + data.length ≤ maxFileSize ∧ last = disk.record (.write pos data written)) := by
  rw [writeAt.eq_def] at failed
  split_ifs at failed with large
  · cases failed
    exact ⟨rfl, .inl rfl⟩
  · cases fault with
    | none => cases failed
    | some written =>
      cases failed
      exact ⟨rfl, .inr ⟨written, rfl, Nat.not_lt.mp large, rfl⟩⟩

end Disk

end GoDatabase
