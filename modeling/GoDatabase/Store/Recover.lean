import GoDatabase.Manager.Snapshot
import GoDatabase.Store.Loader

/-!
# Recovery

How a database file is opened: `openPageManager` of `internal/btree/page_manager.go`,
`recoverCommittedPages` and `Open` of `internal/btree/kv.go`.  The slots are tried from the
newest generation on; a slot is taken when its tree can be loaded and no page has two owners.
-/

namespace GoDatabase

open Library BNode

/-! ## Page ownership -/

/-- The owner of each page that was claimed so far. -/
abbrev Owners := AList fun _ : Nat => String

def claim (nextPageID : Nat) (owner : String) (owners : Owners) (pageID : Nat) :
    Except GoError Owners :=
  if pageID = 0 ∨ nextPageID ≤ pageID then
    .error (.errorf "%s contains invalid page id %d" [.text owner, .int pageID])
  else
    match owners.lookup pageID with
    | some previous =>
      .error (.errorf "page %d is owned by both %s and %s"
        [.int pageID, .text previous, .text owner])
    | none => .ok (owners.insert pageID owner)

/-- Pages that nobody claims are handed to the next commit. -/
def reconcilePageOwnership (pm : PageManager) (livePages : PageMap) : Except GoError PageManager :=
  do
  let owners ← livePages.keys.foldlM (claim pm.nextPageID "live tree") ∅
  let owners ← pm.freePageIDs.foldlM (claim pm.nextPageID "reusable free list") owners
  let owners ← pm.retiredPageIDs.foldlM (claim pm.nextPageID "protected free list") owners
  let owners ← pm.freeListPageIDs.foldlM (claim pm.nextPageID "free-list structure") owners
  return { pm with
    pendingFreePageIDs := pm.pendingFreePageIDs ++
      (List.range' 1 (pm.nextPageID - 1)).filter fun pageID => (owners.lookup pageID).isNone }

/-! ## Recovery -/

/-- The state for the metadata of a slot. -/
def RootMetadata.state (metadata : RootMetadata) (nextPageID : Nat) : PageManagerState where
  nextPageID := nextPageID
  committedPageCount := metadata.pageCount
  rootPageID := metadata.rootPageID
  generation := metadata.generation
  freePageIDs := metadata.freePageIDs
  retiredPageIDs := metadata.retiredPageIDs
  pendingFreePageIDs := []
  freeListPageIDs := metadata.freeListPageIDs

/-- One round of the loop over the candidates. -/
def recoverCandidate (view : FileView) (nextPageID : Nat) (metadata : RootMetadata) :
    Except GoError (PageManager × PageMap) :=
  if nextPageID ≤ metadata.rootPageID then
    .error (.errorf "generation %d root page %d is not allocated"
      [.int metadata.generation, .int metadata.rootPageID])
  else
    let pm := PageManager.restore (metadata.state nextPageID)
    let recovered : Except GoError (PageManager × PageMap) := do
      let pages ← loadCommittedPages pm view
      let pm ← reconcilePageOwnership pm pages
      return (pm, pages)
    match recovered with
    | .error err => .error (.wrap "generation %d: %w" [.int metadata.generation] err)
    | .ok result => .ok result

/-- `errors.Join` of the errors so far and the next one. -/
def joinErrors : Option GoError → GoError → GoError
  | none, err => err
  | some sofar, err => .join sofar err

def recoverCandidates (view : FileView) (nextPageID : Nat) :
    List RootMetadata → (recoveryErr : Option GoError) → Except GoError (PageManager × PageMap)
  | [], recoveryErr =>
    .error (.wrap "no valid committed B+Tree: %w" [] (recoveryErr.getD errInvalidPageData))
  | metadata :: rest, recoveryErr =>
    match recoverCandidate view nextPageID metadata with
    | .ok result => .ok result
    | .error err => recoverCandidates view nextPageID rest (some (joinErrors recoveryErr err))

/-- The slots that can be read; any error but invalid data ends the recovery. -/
def readCandidates (view : FileView) : (slots : List Nat) → Except GoError (List RootMetadata)
  | [] => .ok []
  | slot :: rest =>
    match readRootMetadataSlot view slot with
    | .error err => if err.is errInvalidPageData then readCandidates view rest else .error err
    | .ok metadata => do
      let candidates ← readCandidates view rest
      return metadata :: candidates

/-- `sort.Slice` by descending generation, for two slots. -/
def newestFirst : List RootMetadata → List RootMetadata
  | [first, second] =>
    if first.generation < second.generation then [second, first] else [first, second]
  | candidates => candidates

def recoverCommittedPages (view : FileView) (nextPageID : Nat) :
    Except GoError (PageManager × PageMap) := do
  let candidates ← readCandidates view (List.range metadataSlotCount)
  if candidates.length = 0 then
    .error (.wrap "%w: no valid committed metadata" [] errInvalidPageData)
  else
    recoverCandidates view nextPageID (newestFirst candidates) none

/-! ## Opening -/

def errUnaligned (size : Nat) : GoError :=
  .wrap "%w: file size %d is not page aligned" [.int size] errInvalidPageData

/-- `(size - metadataSize) % pageSize != 0`, or not even the slots. -/
def Unaligned (size : Nat) : Prop := size < metadataSize ∨ (size - metadataSize) % pageSize ≠ 0

instance : DecidablePred Unaligned := fun size =>
  inferInstanceAs (Decidable (size < metadataSize ∨ (size - metadataSize) % pageSize ≠ 0))

/-- The checks of `openPageManager` on a file that is not empty.  What it reads of the
metadata is read again by `recoverCommittedPages`. -/
def checkFile (view : FileView) : Except GoError Nat := do
  let size ← view.size
  if Unaligned size then
    .error (errUnaligned size)
  else
    let metadata ← readRootMetadata view
    let nextPageID := pagesOf size + 1
    if metadata.rootPageID ≠ 0 ∧ nextPageID ≤ metadata.rootPageID then
      .error (.wrap "%w: root page %d is not allocated" [.int metadata.rootPageID] errInvalidPageID)
    else if ∃ pageID ∈ metadata.freePageIDs, pageID = metadata.rootPageID ∨ nextPageID ≤ pageID then
      .error (.wrap "%w: invalid free page %d" [.int ((metadata.freePageIDs.find? fun pageID =>
        pageID = metadata.rootPageID ∨ nextPageID ≤ pageID).getD 0)] errInvalidPageData)
    else
      return nextPageID

section

variable {ν : Type}

/-- `file.Truncate` where its error counts. -/
def Disk.resize (size : Nat) : Fallible (Disk ν) Unit := fun disk =>
  if disk.faults.truncate then .error errFile disk else .ok () (disk.record (.truncate size))

/-- An empty file gets its slots, with a first generation of an empty tree. -/
def initializeFile : Fallible (Disk ν) Unit := do
  Disk.resize metadataSize
  writeRootMetadataSlot 0 {}
  let disk ← get
  Disk.sync disk.faults.syncMetadata

def openPageManager : Fallible (Disk ν) Nat := do
  let disk ← get
  let size ← liftM disk.view.size
  if size = 0 then
    initializeFile
  let disk ← get
  liftM (checkFile disk.view)

/-- `Open`, after its path was checked.  A file that was created is synced together with its
directory. -/
def openStore (created : Bool) : Fallible (Disk ν) (PageManager × PageMap) := do
  let nextPageID ← openPageManager
  let disk ← get
  if created then
    Disk.sync disk.faults.syncData
    if disk.faults.syncDirectory then throw errFile
  let disk ← get
  liftM (recoverCommittedPages disk.view nextPageID)

end

end GoDatabase
