import GoDatabase.Manager.FreeList

/-!
# Root metadata

The two metadata slots at the beginning of the file: how a slot is written and read,
with the free list that a slot of the current version points to.  Slots of versions one
and two can still be read.
-/

namespace GoDatabase

open Library

/-- The four bytes `GDBM`. -/
def metadataMagic : Bytes := [0x47, 0x44, 0x42, 0x4d]

def metadataVersion : Nat := 3
def metadataMagicOffset : Nat := 0
def metadataVersionOffset : Nat := 4
def metadataGenerationOffset : Nat := 8
def metadataRootPageOffset : Nat := 16
def metadataPageCountOffset : Nat := 24
def metadataFreeListHeadOffset : Nat := 32
def metadataFreeListTailOffset : Nat := 40
def metadataHeadSequenceOffset : Nat := 48
def metadataTailSequenceOffset : Nat := 56
def metadataMaxSequenceOffset : Nat := 64
def metadataChecksumOffset : Nat := 72
def legacyFreeCountOffset : Nat := 32
def legacyRetiredCountOffset : Nat := 34
def legacyChecksumOffset : Nat := 36
def legacyPageIDsOffset : Nat := 40
def legacyMaxPageIDs : Nat := (pageSize - legacyPageIDsOffset) / 8

structure RootMetadata where
  generation : Nat := 0
  rootPageID : Nat := 0
  pageCount : Nat := 0
  freeListHeadPageID : Nat := 0
  freeListTailPageID : Nat := 0
  headSequence : Nat := 0
  tailSequence : Nat := 0
  maxSequence : Nat := 0
  freePageIDs : List Nat := []
  retiredPageIDs : List Nat := []
  freeListPageIDs : List Nat := []
  deriving DecidableEq

/-! ## Writing a slot -/

/-- The page that `writeRootMetadataSlot` writes. -/
def rootMetadataPage (metadata : RootMetadata) : Bytes :=
  let page := patch (zeros pageSize) metadataMagicOffset metadataMagic
  let page := writeLE page metadataVersionOffset 2 metadataVersion
  let page := writeLE page metadataGenerationOffset 8 metadata.generation
  let page := writeLE page metadataRootPageOffset 8 metadata.rootPageID
  let page := writeLE page metadataPageCountOffset 8 metadata.pageCount
  let page := writeLE page metadataFreeListHeadOffset 8 metadata.freeListHeadPageID
  let page := writeLE page metadataFreeListTailOffset 8 metadata.freeListTailPageID
  let page := writeLE page metadataHeadSequenceOffset 8 metadata.headSequence
  let page := writeLE page metadataTailSequenceOffset 8 metadata.tailSequence
  let page := writeLE page metadataMaxSequenceOffset 8 metadata.maxSequence
  putChecksum page metadataChecksumOffset

def writeRootMetadataSlot {ν : Type} (slot : Nat) (metadata : RootMetadata) :
    Fallible (Disk ν) Unit := fun disk =>
  disk.writeAt disk.faults.slotWrite (slot * pageSize) (rootMetadataPage metadata)

/-! ## Reading a slot -/

/-- The checksum of a slot, which earlier versions stored elsewhere.  The field is not
read again, so it does not matter that the source clears it in the page. -/
def slotChecksumHolds (version : Nat) (page : Bytes) : Bool :=
  if version = 1 then
    checksumIEEE (slice (writeLE page 32 4 0) 0 36) = readLE page 32 4
  else
    let checksumOffset := if version = 2 then legacyChecksumOffset else metadataChecksumOffset
    ChecksumHolds page checksumOffset

/-- The page identifiers of a slot of version two, the free ones first. -/
def readLegacyPageIDs (page : Bytes) (freeCount : Nat) :
    (remaining i : Nat) → RootMetadata → Except GoError RootMetadata
  | 0, _, metadata => .ok metadata
  | remaining + 1, i, metadata =>
    let pageID := readLE page (legacyPageIDsOffset + i * 8) 8
    if pageID = 0 ∨ metadata.pageCount < pageID ∨ pageID = metadata.rootPageID then
      .error errInvalidPageData
    else if pageID ∈ metadata.freePageIDs ∨ pageID ∈ metadata.retiredPageIDs then
      .error errInvalidPageData
    else if i < freeCount then
      readLegacyPageIDs page freeCount remaining (i + 1)
        { metadata with freePageIDs := metadata.freePageIDs ++ [pageID] }
    else
      readLegacyPageIDs page freeCount remaining (i + 1)
        { metadata with retiredPageIDs := metadata.retiredPageIDs ++ [pageID] }

/-- The entries of one free-list page.  The pages seen so far are `freeListPageIDs`, the
entries seen so far are the two lists that they go to. -/
def loadFreeListEntries : List Nat → (expectedSequence : Nat) → RootMetadata →
    Except GoError (Nat × RootMetadata)
  | [], expectedSequence, metadata => .ok (expectedSequence, metadata)
  | entryID :: rest, expectedSequence, metadata =>
    if metadata.pageCount < entryID ∨ entryID = metadata.rootPageID then
      .error errInvalidPageData
    else if entryID ∈ metadata.freeListPageIDs then
      .error errInvalidPageData
    else if entryID ∈ metadata.freePageIDs ∨ entryID ∈ metadata.retiredPageIDs then
      .error errInvalidPageData
    else if expectedSequence < metadata.maxSequence then
      loadFreeListEntries rest ((expectedSequence + 1) % 2 ^ 64)
        { metadata with freePageIDs := metadata.freePageIDs ++ [entryID] }
    else
      loadFreeListEntries rest ((expectedSequence + 1) % 2 ^ 64)
        { metadata with retiredPageIDs := metadata.retiredPageIDs ++ [entryID] }

/-- The loop of `loadFreeListMetadata` over the pages of the list.  No page is loaded
twice and none is behind `pageCount`, so the rounds never run out. -/
def loadFreeListPages (view : FileView) : (rounds pageID expectedSequence : Nat) → RootMetadata →
    Except GoError (Nat × RootMetadata)
  | 0, _, _, _ => .error errInvalidPageData
  | rounds + 1, pageID, expectedSequence, metadata =>
    if pageID = 0 then
      .ok (expectedSequence, metadata)
    else if metadata.pageCount < pageID ∨ pageID = metadata.rootPageID then
      .error errInvalidPageData
    else if pageID ∈ metadata.freeListPageIDs then
      .error errInvalidPageData
    else do
      let page ← readRawDataPage view pageID
      match decodeFreeListNode page with
      | .error _ => .error errInvalidPageData
      | .ok node =>
        if node.sequence ≠ expectedSequence then
          .error errInvalidPageData
        else
          let metadata := { metadata with
            freeListPageIDs := metadata.freeListPageIDs ++ [pageID] }
          let (expectedSequence, metadata) ←
            loadFreeListEntries node.pageIDs expectedSequence metadata
          if node.nextPageID = 0 ∧ pageID ≠ metadata.freeListTailPageID then
            .error errInvalidPageData
          else
            loadFreeListPages view rounds node.nextPageID expectedSequence metadata

def loadFreeListMetadata (view : FileView) (metadata : RootMetadata) :
    Except GoError RootMetadata :=
  if metadata.freeListHeadPageID = 0 then
    if metadata.freeListTailPageID ≠ 0 ∨ metadata.headSequence ≠ 0 ∨
        metadata.tailSequence ≠ 0 ∨ metadata.maxSequence ≠ 0 then
      .error errInvalidPageData
    else
      .ok metadata
  else if metadata.freeListTailPageID = 0 ∨ metadata.maxSequence < metadata.headSequence ∨
      metadata.tailSequence < metadata.maxSequence then
    .error errInvalidPageData
  else do
    let (expectedSequence, metadata) ← loadFreeListPages view (metadata.pageCount + 2)
      metadata.freeListHeadPageID metadata.headSequence metadata
    if expectedSequence ≠ metadata.tailSequence then
      .error errInvalidPageData
    else if ∃ pageID ∈ metadata.freeListPageIDs,
        pageID ∈ metadata.freePageIDs ∨ pageID ∈ metadata.retiredPageIDs then
      .error errInvalidPageData
    else
      return metadata

/-- What a slot holds, after its checksum was verified. -/
def decodeRootMetadata (view : FileView) (page : Bytes) : Except GoError RootMetadata := do
  let version := readLE page metadataVersionOffset 2
  let metadata : RootMetadata := {
    generation := readLE page metadataGenerationOffset 8
    rootPageID := readLE page metadataRootPageOffset 8
    pageCount := readLE page metadataPageCountOffset 8 }
  if metadata.pageCount < metadata.rootPageID then
    .error errInvalidPageData
  else
    let size ← view.size
    if size < metadataSize ∨ (size - metadataSize) / pageSize < metadata.pageCount then
      .error errInvalidPageData
    else if version = 2 then
      let freeCount := readLE page legacyFreeCountOffset 2
      let retiredCount := readLE page legacyRetiredCountOffset 2
      if legacyMaxPageIDs < freeCount + retiredCount then
        .error errInvalidPageData
      else
        readLegacyPageIDs page freeCount (freeCount + retiredCount) 0 metadata
    else if version = metadataVersion then
      loadFreeListMetadata view { metadata with
        freeListHeadPageID := readLE page metadataFreeListHeadOffset 8
        freeListTailPageID := readLE page metadataFreeListTailOffset 8
        headSequence := readLE page metadataHeadSequenceOffset 8
        tailSequence := readLE page metadataTailSequenceOffset 8
        maxSequence := readLE page metadataMaxSequenceOffset 8 }
    else
      return metadata

def readRootMetadataSlot (view : FileView) (slot : Nat) : Except GoError RootMetadata := do
  let page ← view.readAt (slot * pageSize) pageSize
  let version := readLE page metadataVersionOffset 2
  if slice page metadataMagicOffset 4 ≠ metadataMagic then
    .error errInvalidPageData
  else if version ≠ 1 ∧ version ≠ 2 ∧ version ≠ metadataVersion then
    .error errInvalidPageData
  else if ¬ slotChecksumHolds version page then
    .error errInvalidPageData
  else
    decodeRootMetadata view page

/-- One round of `readRootMetadata`: the best slot so far and the next one. -/
def betterMetadata (best : Option RootMetadata) (slot : Except GoError RootMetadata) :
    Except GoError (Option RootMetadata) :=
  match slot with
  | .error err => if err.is errInvalidPageData then .ok best else .error err
  | .ok metadata =>
    match best with
    | none => .ok (some metadata)
    | some held => .ok (some (if held.generation < metadata.generation then metadata else held))

def readRootMetadata (view : FileView) : Except GoError RootMetadata := do
  let best ← betterMetadata none (readRootMetadataSlot view 0)
  let best ← betterMetadata best (readRootMetadataSlot view 1)
  match best with
  | none => .error (.wrap "%w: no valid committed metadata" [] errInvalidPageData)
  | some metadata => return metadata

end GoDatabase
