import GoDatabase.Library.Checksum
import GoDatabase.Manager.Disk

/-!
# Free-list pages

`internal/btree/free_list.go`: the pages that store the lists of reusable and of
protected pages.  A page that was encoded decodes to what it was made of.
-/

namespace GoDatabase

open Library List

/-- The four bytes `GDFL`. -/
def freeListMagic : Bytes := [0x47, 0x44, 0x46, 0x4c]

def freeListVersion : Nat := 1
def freeListHeaderSize : Nat := 32
def freeListPageCapacity : Nat := (pageSize - freeListHeaderSize) / 8
def freeListVersionOffset : Nat := 4
def freeListCountOffset : Nat := 6
def freeListNextOffset : Nat := 8
def freeListSequenceOffset : Nat := 16
def freeListChecksumOffset : Nat := 24

structure FreeListNode where
  nextPageID : Nat
  sequence : Nat
  pageIDs : List Nat
  deriving DecidableEq

/-- The loop of `encodeFreeListNode`. -/
def putPageIDs (page : Bytes) : (pos : Nat) → List Nat → Except GoError Bytes
  | _, [] => .ok page
  | pos, pageID :: rest =>
    if pageID = 0 then
      .error (.wrap "%w: free-list page id is zero" [] errInvalidPageData)
    else
      putPageIDs (writeLE page pos 8 pageID) (pos + 8) rest

def encodeFreeListNode (node : FreeListNode) : Except GoError Bytes :=
  if node.pageIDs.length = 0 ∨ freeListPageCapacity < node.pageIDs.length then
    .error (.wrap "%w: free-list entry count %d" [.int node.pageIDs.length] errInvalidPageData)
  else do
    let page := patch (zeros pageSize) 0 freeListMagic
    let page := writeLE page freeListVersionOffset 2 freeListVersion
    let page := writeLE page freeListCountOffset 2 node.pageIDs.length
    let page := writeLE page freeListNextOffset 8 node.nextPageID
    let page := writeLE page freeListSequenceOffset 8 node.sequence
    let page ← putPageIDs page freeListHeaderSize node.pageIDs
    return putChecksum page freeListChecksumOffset

/-- The loop of `decodeFreeListNode`. -/
def getPageIDs (page : Bytes) : (pos count : Nat) → Except GoError (List Nat)
  | _, 0 => .ok []
  | pos, count + 1 =>
    let pageID := readLE page pos 8
    if pageID = 0 then
      .error errInvalidPageData
    else do
      let rest ← getPageIDs page (pos + 8) count
      return pageID :: rest

def decodeFreeListNode (page : Bytes) : Except GoError FreeListNode :=
  if page.length ≠ pageSize then
    .error errInvalidPageSize
  else if slice page 0 4 ≠ freeListMagic ∨
      readLE page freeListVersionOffset 2 ≠ freeListVersion then
    .error errInvalidPageData
  else if ¬ ChecksumHolds page freeListChecksumOffset then
    .error errInvalidPageData
  else
    let count := readLE page freeListCountOffset 2
    if count = 0 ∨ freeListPageCapacity < count then
      .error errInvalidPageData
    else do
      let pageIDs ← getPageIDs page freeListHeaderSize count
      return {
        nextPageID := readLE page freeListNextOffset 8
        sequence := readLE page freeListSequenceOffset 8
        pageIDs := pageIDs }

def readRawDataPage (view : FileView) (pageID : Nat) : Except GoError Bytes := do
  let offset ← dataPageOffset pageID
  view.readAt offset pageSize

/-! ## Encoding and decoding -/

/-- A node that can be stored: at least one and at most a page full of identifiers,
all of them pages. -/
structure FreeListNode.Storable (node : FreeListNode) : Prop where
  nonempty : node.pageIDs ≠ []
  fits : node.pageIDs.length ≤ freeListPageCapacity
  positive : ∀ pageID ∈ node.pageIDs, pageID ≠ 0
  small : ∀ pageID ∈ node.pageIDs, pageID < 256 ^ 8
  nextSmall : node.nextPageID < 256 ^ 8
  sequenceSmall : node.sequence < 256 ^ 8

theorem putPageIDs_eq : ∀ (pageIDs : List Nat) (page : Bytes) (pos : Nat),
    (∀ pageID ∈ pageIDs, pageID ≠ 0) → pos + 8 * pageIDs.length ≤ page.length →
    putPageIDs page pos pageIDs = .ok (patch page pos (wordBytes pageIDs))
  | [], page, pos, _, _ => by
    rw [putPageIDs]
    simp [patch, wordBytes]
  | pageID :: rest, page, pos, positive, inside => by
    rw [length_cons] at inside
    have room : pos + (leBytes 8 pageID).length ≤ page.length := by
      rw [length_leBytes]
      omega
    have joined := @patch_patch page (leBytes 8 pageID) (wordBytes rest) pos room
    rw [length_leBytes] at joined
    rw [putPageIDs, if_neg (positive pageID (mem_cons_self ..)),
      putPageIDs_eq rest _ _ (fun other mem => positive other (mem_cons_of_mem _ mem))
        (by rw [length_writeLE (by omega)]; omega), writeLE, joined]
    rfl

theorem getPageIDs_eq : ∀ (pageIDs : List Nat) (before after : Bytes),
    (∀ pageID ∈ pageIDs, pageID ≠ 0) → (∀ pageID ∈ pageIDs, pageID < 256 ^ 8) →
    getPageIDs (before ++ (wordBytes pageIDs ++ after)) before.length pageIDs.length = .ok pageIDs
  | [], _, _, _, _ => rfl
  | pageID :: rest, before, after, positive, small => by
    have shape : before ++ (wordBytes (pageID :: rest) ++ after) =
        before ++ (leBytes 8 pageID ++ (wordBytes rest ++ after)) := by
      rw [wordBytes, flatMap_cons, append_assoc, ← wordBytes]
    have first : readLE (before ++ (leBytes 8 pageID ++ (wordBytes rest ++ after)))
        before.length 8 = pageID := readLE_middle rfl (small pageID (mem_cons_self ..))
    have others := getPageIDs_eq rest (before ++ leBytes 8 pageID) after
      (fun other mem => positive other (mem_cons_of_mem _ mem))
      (fun other mem => small other (mem_cons_of_mem _ mem))
    rw [append_assoc, length_append, length_leBytes] at others
    rw [shape, length_cons, getPageIDs, first, if_neg (positive pageID (mem_cons_self ..)), others]
    rfl

/-- The part of a free-list page before its checksum. -/
def freeListFront (node : FreeListNode) : Bytes :=
  freeListMagic ++ (leBytes 2 freeListVersion ++ (leBytes 2 node.pageIDs.length ++
    (leBytes 8 node.nextPageID ++ leBytes 8 node.sequence)))

/-- The part of a free-list page behind its checksum. -/
def freeListBack (node : FreeListNode) : Bytes :=
  zeros 4 ++ (wordBytes node.pageIDs ++
    zeros (pageSize - freeListHeaderSize - 8 * node.pageIDs.length))

theorem length_freeListFront (node : FreeListNode) :
    (freeListFront node).length = freeListChecksumOffset := by
  simp [freeListFront, freeListMagic, freeListChecksumOffset]

/-- The fields before the checksum, written into an empty page. -/
theorem freeListHeader_eq (node : FreeListNode) :
    writeLE (writeLE (writeLE (writeLE (patch (zeros pageSize) 0 freeListMagic)
        freeListVersionOffset 2 freeListVersion) freeListCountOffset 2 node.pageIDs.length)
        freeListNextOffset 8 node.nextPageID) freeListSequenceOffset 8 node.sequence =
      freeListFront node ++ zeros 4072 := by
  have magic : freeListMagic.length = 4 := rfl
  rw [patch_zeros, writeLE_append_zeros (show _ = freeListVersionOffset from magic),
    writeLE_append_zeros (by simp [magic, freeListCountOffset]),
    writeLE_append_zeros (by simp [magic, freeListNextOffset]),
    writeLE_append_zeros (by simp [magic, freeListSequenceOffset])]
  simp only [freeListFront, append_assoc]
  rfl

namespace FreeListNode.Storable

variable {node : FreeListNode}

section

variable (storable : node.Storable)
include storable

theorem filled : ¬ (node.pageIDs.length = 0 ∨ freeListPageCapacity < node.pageIDs.length) := by
  rintro (none | many)
  · exact storable.nonempty (length_eq_zero_iff.mp none)
  · exact absurd storable.fits (Nat.not_le.mpr many)

theorem length_back : (freeListBack node).length = pageSize - freeListChecksumOffset - 4 := by
  have fits := storable.fits
  have capacity : freeListPageCapacity = 508 := rfl
  simp only [freeListBack, length_append, length_zeros, length_wordBytes, pageSize,
    freeListHeaderSize, freeListChecksumOffset]
  omega

theorem length_page : (sealBlock (freeListFront node) (freeListBack node)).length = pageSize := by
  rw [length_sealBlock, length_freeListFront, storable.length_back]
  decide

theorem encode_eq :
    encodeFreeListNode node = .ok (sealBlock (freeListFront node) (freeListBack node)) := by
  have fits := storable.fits
  have capacity : freeListPageCapacity = 508 := rfl
  have front := length_freeListFront node
  have blank : zeros 4072 = (leBytes 4 0 ++ zeros 4) ++ zeros 4064 := rfl
  rw [encodeFreeListNode, if_neg storable.filled]
  dsimp only
  rw [freeListHeader_eq, putPageIDs_eq _ _ _ storable.positive (by
      simp [front, freeListHeaderSize, freeListChecksumOffset]; omega), blank, ← append_assoc,
    patch_append_zeros (by simp [front, freeListHeaderSize, freeListChecksumOffset]),
    length_wordBytes, append_assoc, append_assoc, append_assoc]
  exact congrArg _ (putChecksum_blank front)

/-- The fields of a page before its checksum. -/
theorem front_fields (rest : Bytes) : slice (freeListFront node ++ rest) 0 4 = freeListMagic ∧
    readLE (freeListFront node ++ rest) freeListVersionOffset 2 = freeListVersion ∧
    readLE (freeListFront node ++ rest) freeListCountOffset 2 = node.pageIDs.length ∧
    readLE (freeListFront node ++ rest) freeListNextOffset 8 = node.nextPageID ∧
    readLE (freeListFront node ++ rest) freeListSequenceOffset 8 = node.sequence := by
  have fits := storable.fits
  have capacity : freeListPageCapacity = 508 := rfl
  have magic : freeListMagic.length = 4 := rfl
  simp only [freeListFront, append_assoc]
  refine ⟨@slice_middle [] freeListMagic _ 0 4 rfl rfl, ?_, ?_, ?_, ?_⟩
  · rw [readLE_append_right (by decide)]
    exact readLE_front (by decide)
  · rw [readLE_append_right (by decide), readLE_append_right (by rw [length_leBytes]; decide),
      length_leBytes]
    exact readLE_front (by omega)
  · rw [readLE_append_right (by decide), readLE_append_right (by rw [length_leBytes]; decide),
      readLE_append_right (by simp only [length_leBytes]; decide)]
    simp only [length_leBytes]
    exact readLE_front storable.nextSmall
  · rw [readLE_append_right (by decide), readLE_append_right (by rw [length_leBytes]; decide),
      readLE_append_right (by simp only [length_leBytes]; decide),
      readLE_append_right (by simp only [length_leBytes]; decide)]
    simp only [length_leBytes]
    exact readLE_front storable.sequenceSmall

/-- The identifiers of a page behind its checksum. -/
theorem back_pageIDs (checksum : Nat) :
    getPageIDs (freeListFront node ++ (leBytes 4 checksum ++ freeListBack node)) freeListHeaderSize
      node.pageIDs.length = .ok node.pageIDs := by
  have read := getPageIDs_eq node.pageIDs (freeListFront node ++ (leBytes 4 checksum ++ zeros 4))
    (zeros (pageSize - freeListHeaderSize - 8 * node.pageIDs.length)) storable.positive
    storable.small
  have start : (freeListFront node ++ (leBytes 4 checksum ++ zeros 4)).length =
      freeListHeaderSize := by
    rw [length_append, length_freeListFront, length_append, length_leBytes, length_zeros]
    rfl
  rw [start, append_assoc, append_assoc] at read
  exact read

/-- An encoded page decodes to its node. -/
theorem decode_eq :
    decodeFreeListNode (sealBlock (freeListFront node) (freeListBack node)) = .ok node := by
  have sealed := @checksumHolds_sealBlock _ (freeListBack node) _ (length_freeListFront node)
  have length := storable.length_page
  rw [sealBlock] at sealed length ⊢
  generalize checksumIEEE _ = checksum at sealed length ⊢
  obtain ⟨magic, version, count, next, sequence⟩ :=
    storable.front_fields (leBytes 4 checksum ++ freeListBack node)
  rw [decodeFreeListNode, if_neg (not_not.mpr length), magic, version,
    if_neg (by simp), if_neg (not_not.mpr sealed)]
  dsimp only
  rw [count, if_neg storable.filled, storable.back_pageIDs, next, sequence]
  rfl

end

end FreeListNode.Storable

end GoDatabase
