import GoDatabase.Manager.Metadata

/-!
# Reading back written metadata

A slot and the free-list pages that belong to it are read back as they were written.
What does not pass its checksum, or was written for an older generation, is not taken
for the newest metadata.
-/

namespace GoDatabase

open Library List

/-! ## The layout of a slot -/

/-- The numbers that a slot stores, in the order of their fields. -/
def RootMetadata.words (metadata : RootMetadata) : List Nat :=
  [metadata.generation, metadata.rootPageID, metadata.pageCount, metadata.freeListHeadPageID,
    metadata.freeListTailPageID, metadata.headSequence, metadata.tailSequence, metadata.maxSequence]

/-- The part of a slot before its checksum. -/
def metadataFront (metadata : RootMetadata) : Bytes :=
  (metadataMagic ++ (leBytes 2 metadataVersion ++ zeros 2)) ++ wordBytes metadata.words

/-- The part of a slot behind its checksum. -/
def metadataBack : Bytes := zeros (pageSize - metadataChecksumOffset - 4)

theorem length_metadataFront (metadata : RootMetadata) :
    (metadataFront metadata).length = metadataChecksumOffset := by
  rw [metadataFront, length_append, length_wordBytes]
  rfl

theorem rootMetadataPage_eq (metadata : RootMetadata) :
    rootMetadataPage metadata = sealBlock (metadataFront metadata) metadataBack := by
  have magic : metadataMagic.length = 4 := rfl
  have gap : zeros 4090 = zeros 2 ++ zeros 4088 := (zeros_append 2 4088).symm
  have blank : zeros 4024 = leBytes 4 0 ++ metadataBack := (zeros_append 4 4020).symm
  rw [rootMetadataPage, show metadataMagicOffset = 0 from rfl, patch_zeros,
    writeLE_append_zeros (show _ = metadataVersionOffset from magic)]
  rw [show pageSize - metadataMagic.length - 2 = 4090 from rfl, gap, ← append_assoc,
    writeLE_append_zeros (by simp [magic, metadataGenerationOffset]),
    writeLE_append_zeros (by simp [magic, metadataRootPageOffset]),
    writeLE_append_zeros (by simp [magic, metadataPageCountOffset]),
    writeLE_append_zeros (by simp [magic, metadataFreeListHeadOffset]),
    writeLE_append_zeros (by simp [magic, metadataFreeListTailOffset]),
    writeLE_append_zeros (by simp [magic, metadataHeadSequenceOffset]),
    writeLE_append_zeros (by simp [magic, metadataTailSequenceOffset]),
    writeLE_append_zeros (by simp [magic, metadataMaxSequenceOffset])]
  rw [show 4088 - 8 - 8 - 8 - 8 - 8 - 8 - 8 - 8 = 4024 from rfl, blank]
  rw [← putChecksum_blank (length_metadataFront metadata), metadataFront]
  simp only [RootMetadata.words, wordBytes, flatMap_cons, flatMap_nil, append_nil,
    append_assoc]

theorem length_rootMetadataPage (metadata : RootMetadata) :
    (rootMetadataPage metadata).length = pageSize := by
  rw [rootMetadataPage_eq, length_sealBlock, length_metadataFront, metadataBack, length_zeros]
  rfl

/-- All fields of a slot are `uint64`. -/
def RootMetadata.Small (metadata : RootMetadata) : Prop := ∀ word ∈ metadata.words, word < 256 ^ 8

/-- The fields of a written slot. -/
theorem RootMetadata.Small.readLE_page {metadata : RootMetadata} (small : metadata.Small)
    {idx word pos : Nat} (found : metadata.words[idx]? = some word) (start : 8 + 8 * idx = pos) :
    readLE (rootMetadataPage metadata) pos 8 = word := by
  rw [rootMetadataPage_eq, sealBlock, metadataFront, append_assoc]
  exact readLE_wordBytes found (small word (mem_of_getElem? found)) start

/-! ## Intact slots -/

/-- The page passes the checks that do not depend on the rest of the file. -/
structure SlotIntact (page : Bytes) : Prop where
  magic : slice page metadataMagicOffset 4 = metadataMagic
  version : readLE page metadataVersionOffset 2 = 1 ∨ readLE page metadataVersionOffset 2 = 2 ∨
    readLE page metadataVersionOffset 2 = metadataVersion
  checksum : slotChecksumHolds (readLE page metadataVersionOffset 2) page = true

/-- The generation field of a slot. -/
def slotGeneration (page : Bytes) : Nat := readLE page metadataGenerationOffset 8

theorem version_rootMetadataPage (metadata : RootMetadata) :
    readLE (rootMetadataPage metadata) metadataVersionOffset 2 = metadataVersion := by
  rw [rootMetadataPage_eq, sealBlock, metadataFront, append_assoc, append_assoc,
    append_assoc, readLE_append_right (by decide),
    show metadataVersionOffset - metadataMagic.length = 0 from rfl]
  exact readLE_front (by decide)

theorem slotIntact_rootMetadataPage (metadata : RootMetadata) :
    SlotIntact (rootMetadataPage metadata) := by
  refine ⟨?_, .inr (.inr (version_rootMetadataPage metadata)), ?_⟩
  · rw [rootMetadataPage_eq, sealBlock, metadataFront, append_assoc, append_assoc,
      slice_append_left (by decide)]
    rfl
  · rw [version_rootMetadataPage, slotChecksumHolds, if_neg (by decide)]
    dsimp only
    rw [if_neg (by decide), decide_eq_true_eq, rootMetadataPage_eq]
    exact checksumHolds_sealBlock (length_metadataFront metadata)

/-! ## Errors of a slot -/

/-- A reading step that finds what it looks for, or reports invalid data. -/
def FoundOr {α : Type} (found : α → Prop) (result : Except GoError α) : Prop :=
  (∃ value, result = .ok value ∧ found value) ∨ result = .error errInvalidPageData

namespace FoundOr

variable {α β : Type} {found : α → Prop} {result : Except GoError α}

theorem invalid : FoundOr found (.error errInvalidPageData) := .inr rfl

theorem ok {value : α} (here : found value) : FoundOr found (.ok value) := .inl ⟨value, rfl, here⟩

theorem bind {next : α → Except GoError β} {last : β → Prop} (first : FoundOr found result)
    (second : ∀ value, found value → FoundOr last (next value)) : FoundOr last
      (result >>= next) := by
  rcases first with ⟨value, rfl, here⟩ | rfl
  · exact second value here
  · exact .inr rfl

theorem mono {last : α → Prop} (implies : ∀ value, found value → last value)
    (first : FoundOr found result) : FoundOr last result := by
  rcases first with ⟨value, rfl, here⟩ | rfl
  · exact .ok (implies value here)
  · exact .invalid

/-- A check that reports invalid data. -/
theorem check {condition : Prop} [Decidable condition] (rest : ¬ condition → FoundOr found result) :
    FoundOr found (if condition then .error errInvalidPageData else result) := by
  split_ifs with failed
  · exact invalid
  · exact rest failed

end FoundOr

/-- The fields that do not change while the free list is loaded. -/
def RootMetadata.header (metadata : RootMetadata) : Nat × Nat × Nat :=
  (metadata.generation, metadata.rootPageID, metadata.pageCount)

theorem RootMetadata.pageCount_eq {metadata loaded : RootMetadata}
    (same : loaded.header = metadata.header) : loaded.pageCount = metadata.pageCount :=
  congrArg (fun header => header.2.2) same

theorem readLegacyPageIDs_found (page : Bytes) (freeCount : Nat) :
    ∀ (remaining i : Nat) (metadata : RootMetadata),
      FoundOr (fun loaded => loaded.header = metadata.header)
        (readLegacyPageIDs page freeCount remaining i metadata) := by
  intro remaining
  induction remaining with
  | zero => exact fun _ metadata => .ok rfl
  | succ remaining ih =>
    intro i metadata
    rw [readLegacyPageIDs]
    refine FoundOr.check fun _ => FoundOr.check fun _ => ?_
    split_ifs
    · exact ih _ _
    · exact ih _ _

theorem loadFreeListEntries_found : ∀ (entries : List Nat) (sequence : Nat)
    (metadata : RootMetadata),
    FoundOr (fun loaded => loaded.2.header = metadata.header)
      (loadFreeListEntries entries sequence metadata) := by
  intro entries
  induction entries with
  | nil => exact fun _ metadata => .ok rfl
  | cons entryID rest ih =>
    intro sequence metadata
    rw [loadFreeListEntries]
    refine FoundOr.check fun _ => FoundOr.check fun _ => FoundOr.check fun _ => ?_
    split_ifs
    · exact ih _ _
    · exact ih _ _

/-- The bytes of a data page of the file. -/
def pageAt (file : Bytes) (pageID : Nat) : Bytes := slice file (pageOffset pageID) pageSize

/-- A file that a database may have: both slots are there, and its size is an `int64`. -/
structure Sized (file : Bytes) : Prop where
  slots : metadataSize ≤ file.length
  small : file.length ≤ maxFileSize

section

variable {file : Bytes} (sized : Sized file)
include sized

theorem Sized.at_page {pageID : Nat} (positive : pageID ≠ 0)
    (inside : pageID ≤ pagesOf file.length) : At file (pageOffset pageID) (pageAt file pageID) :=
  At.of_slice (pageOffset_le positive inside sized.slots)

theorem Sized.readRawDataPage {pageID : Nat}
    (positive : pageID ≠ 0) (inside : pageID ≤ pagesOf file.length) :
    readRawDataPage (.ofBytes file) pageID = .ok (pageAt file pageID) := by
  have small := pagesOf_lt sized.small
  have here := sized.at_page positive inside
  have read := FileView.readAt_ofBytes here
  rw [pageAt, length_slice (pageOffset_le positive inside sized.slots)] at read
  rw [GoDatabase.readRawDataPage, dataPageOffset_eq positive (by omega)]
  exact read

theorem loadFreeListPages_found : ∀ (rounds pageID sequence : Nat) (metadata : RootMetadata),
      metadata.pageCount ≤ pagesOf file.length →
      FoundOr (fun loaded => loaded.2.header = metadata.header)
        (loadFreeListPages (.ofBytes file) rounds pageID sequence metadata) := by
  intro rounds
  induction rounds with
  | zero => exact fun _ _ _ _ => .invalid
  | succ rounds ih =>
    intro pageID sequence metadata counted
    rw [loadFreeListPages]
    split_ifs with zero outside seen
    · exact .ok rfl
    · exact .invalid
    · exact .invalid
    · rw [sized.readRawDataPage zero (by omega), ok_bind]
      cases decodeFreeListNode (pageAt file pageID) with
      | error err => exact .invalid
      | ok node =>
        refine FoundOr.check fun _ => FoundOr.bind (loadFreeListEntries_found _ _ _) ?_
        rintro ⟨sequence, loaded⟩ same
        refine FoundOr.check fun _ => ?_
        have counts := RootMetadata.pageCount_eq same
        have last := ih node.nextPageID sequence loaded (by simp only at counts; omega)
        rwa [same] at last

theorem loadFreeListMetadata_found {metadata : RootMetadata}
    (counted : metadata.pageCount ≤ pagesOf file.length) :
    FoundOr (fun loaded => loaded.header = metadata.header)
      (loadFreeListMetadata (.ofBytes file) metadata) := by
  rw [loadFreeListMetadata]
  split_ifs
  · exact .invalid
  · exact .ok rfl
  · exact .invalid
  · refine FoundOr.bind (loadFreeListPages_found sized _ _ _ _ counted) ?_
    rintro ⟨sequence, loaded⟩ same
    refine FoundOr.check fun _ => FoundOr.check fun _ => ?_
    exact .ok same

end

/-- The bytes of a metadata slot of the file. -/
def slotAt (file : Bytes) (slot : Nat) : Bytes := slice file (slot * pageSize) pageSize

variable {slot : Nat}

section

variable {file : Bytes} (sized : Sized file) (isSlot : slot < metadataSlotCount)
include sized isSlot

theorem Sized.slot_inside : slot * pageSize + pageSize ≤ file.length := by
  have slots := sized.slots
  have whole : metadataSize = 2 * pageSize := rfl
  have few : slot < 2 := isSlot
  have step := Nat.mul_le_mul_right pageSize (Nat.succ_le_of_lt few)
  rw [Nat.succ_mul] at step
  omega

theorem Sized.readAt_slot :
    (FileView.ofBytes file).readAt (slot * pageSize) pageSize = .ok (slotAt file slot) := by
  have inside := sized.slot_inside isSlot
  have read := FileView.readAt_ofBytes (At.of_slice inside)
  rwa [length_slice inside] at read

/-- A slot that is read was intact, and its generation field counts. -/
theorem Sized.readRootMetadataSlot_found :
    FoundOr (fun metadata => SlotIntact (slotAt file slot) ∧
        metadata.generation = slotGeneration (slotAt file slot))
      (readRootMetadataSlot (.ofBytes file) slot) := by
  rw [readRootMetadataSlot, sized.readAt_slot isSlot, ok_bind]
  refine FoundOr.check fun magic => FoundOr.check fun version => FoundOr.check fun checksum => ?_
  have intact : SlotIntact (slotAt file slot) := by
    refine ⟨not_not.mp magic, ?_, not_not.mp checksum⟩
    simpa only [not_and_or, not_not] using version
  rw [decodeRootMetadata]
  dsimp only
  refine FoundOr.check fun _ => ?_
  rw [FileView.size_ofBytes sized.small, ok_bind]
  split_ifs with outside legacy many current
  · exact .invalid
  · exact .invalid
  · refine FoundOr.mono (fun loaded same => ?_) (readLegacyPageIDs_found _ _ _ _ _)
    exact ⟨intact, congrArg Prod.fst same⟩
  · refine FoundOr.mono (fun loaded same => ?_) (loadFreeListMetadata_found sized ?_)
    · exact ⟨intact, congrArg Prod.fst same⟩
    · exact Nat.not_lt.mp (not_or.mp outside).2
  · exact .ok ⟨intact, rfl⟩

end

/-! ## A free list on the file -/

/-- The pages of a free list hold its entries, each but the last page to its capacity. -/
def FreeListChain (file : Bytes) : (pages : List Nat) → (start : Nat) → (entries : List Nat) → Prop
  | [], _, entries => entries = []
  | pageID :: rest, start, entries =>
    (∃ page, encodeFreeListNode ⟨rest.headD 0, start, entries.take freeListPageCapacity⟩ =
      .ok page ∧ At file (pageOffset pageID) page) ∧
    FreeListChain file rest (start + freeListPageCapacity) (entries.drop freeListPageCapacity)

/-- Entries with their sequence numbers from `start` on, sorted into the two lists. -/
def RootMetadata.fill (metadata : RootMetadata) (start : Nat) (entries : List Nat) : RootMetadata :=
  { metadata with
    freePageIDs := metadata.freePageIDs ++ entries.take (metadata.maxSequence - start)
    retiredPageIDs := metadata.retiredPageIDs ++ entries.drop (metadata.maxSequence - start) }

theorem RootMetadata.fill_nil (metadata : RootMetadata) (start : Nat) :
    metadata.fill start [] = metadata := by
  simp only [fill, take_nil, drop_nil, append_nil]

theorem RootMetadata.fill_append (metadata : RootMetadata) (start : Nat) (left right : List Nat) :
    (metadata.fill start left).fill (start + left.length) right =
      metadata.fill start (left ++ right) := by
  have rest : metadata.maxSequence - start - left.length =
      metadata.maxSequence - (start + left.length) := by omega
  simp only [fill, take_append, drop_append, append_assoc, rest]

/-- Entries that a page of the list may name. -/
structure Listable (metadata : RootMetadata) (entries : List Nat) : Prop where
  inside : ∀ pageID ∈ entries, pageID ≤ metadata.pageCount
  notRoot : ∀ pageID ∈ entries, pageID ≠ metadata.rootPageID
  notNode : ∀ pageID ∈ entries, pageID ∉ metadata.freeListPageIDs
  notFree : ∀ pageID ∈ entries, pageID ∉ metadata.freePageIDs
  notRetired : ∀ pageID ∈ entries, pageID ∉ metadata.retiredPageIDs
  nodup : entries.Nodup

theorem loadFreeListEntries_eq : ∀ (entries : List Nat) (start : Nat) (metadata : RootMetadata),
    Listable metadata entries → start + entries.length < 2 ^ 64 →
    loadFreeListEntries entries start metadata =
      .ok (start + entries.length, metadata.fill start entries) := by
  intro entries
  induction entries with
  | nil =>
    intro start metadata _ _
    rw [metadata.fill_nil, loadFreeListEntries]
    rfl
  | cons entryID rest ih =>
    intro start metadata listable bounded
    rw [length_cons] at bounded
    have own : entryID ∈ entryID :: rest := mem_cons_self ..
    have later : ∀ pageID ∈ rest, pageID ∈ entryID :: rest ∧ pageID ≠ entryID := by
      intro pageID mem
      refine ⟨mem_cons_of_mem _ mem, ?_⟩
      rintro rfl
      exact (nodup_cons.mp listable.nodup).1 mem
    have inside : ¬ (metadata.pageCount < entryID ∨ entryID = metadata.rootPageID) := by
      rintro (outside | isRoot)
      · exact absurd (listable.inside entryID own) (Nat.not_le.mpr outside)
      · exact listable.notRoot entryID own isRoot
    have unseen : ¬ (entryID ∈ metadata.freePageIDs ∨ entryID ∈ metadata.retiredPageIDs) := by
      rintro (isFree | isRetired)
      · exact listable.notFree entryID own isFree
      · exact listable.notRetired entryID own isRetired
    have step : (metadata.fill start [entryID]).fill (start + 1) rest =
        metadata.fill start (entryID :: rest) := metadata.fill_append start [entryID] rest
    have listableRest : Listable (metadata.fill start [entryID]) rest := by
      refine ⟨fun pageID mem => listable.inside pageID (later pageID mem).1,
        fun pageID mem => listable.notRoot pageID (later pageID mem).1,
        fun pageID mem => listable.notNode pageID (later pageID mem).1, ?_, ?_,
        (nodup_cons.mp listable.nodup).2⟩
      · intro pageID mem seen
        rcases mem_append.mp seen with old | new
        · exact listable.notFree pageID (later pageID mem).1 old
        · exact (later pageID mem).2 (mem_singleton.mp (mem_of_mem_take new))
      · intro pageID mem seen
        rcases mem_append.mp seen with old | new
        · exact listable.notRetired pageID (later pageID mem).1 old
        · exact (later pageID mem).2 (mem_singleton.mp (mem_of_mem_drop new))
    have run := ih (start + 1) (metadata.fill start [entryID]) listableRest (by omega)
    rw [step, show start + 1 + rest.length = start + (rest.length + 1) by omega] at run
    rw [loadFreeListEntries, if_neg inside, if_neg (listable.notNode entryID own), if_neg unseen,
      Nat.mod_eq_of_lt (by omega), length_cons]
    split_ifs with isFree
    · have filled : metadata.fill start [entryID] =
          { metadata with freePageIDs := metadata.freePageIDs ++ [entryID] } := by
        obtain ⟨room, count⟩ : ∃ room, metadata.maxSequence - start = room + 1 :=
          ⟨metadata.maxSequence - start - 1, by omega⟩
        simp only [RootMetadata.fill, count, take_succ_cons, take_nil, drop_succ_cons,
          drop_nil, append_nil]
      rwa [filled] at run
    · have filled : metadata.fill start [entryID] =
          { metadata with retiredPageIDs := metadata.retiredPageIDs ++ [entryID] } := by
        simp only [RootMetadata.fill, Nat.sub_eq_zero_of_le (Nat.not_lt.mp isFree), take_zero,
          drop_zero, append_nil]
      rwa [filled] at run

/-- A page whose contents are known. -/
theorem Sized.pageAt_eq {file page : Bytes} {pageID : Nat} (here : At file (pageOffset pageID) page)
    (whole : page.length = pageSize) : pageAt file pageID = page := here.slice_sub whole

/-- What the loader of a free list relies on. -/
structure Loadable (metadata : RootMetadata) (pages entries : List Nat) (start : Nat) : Prop where
  listable : Listable metadata (pages ++ entries)
  positive : ∀ pageID ∈ pages ++ entries, pageID ≠ 0
  counted : metadata.pageCount < 2 ^ 64
  bounded : start + entries.length < 2 ^ 64
  tail : ∀ pageID ∈ pages.getLast?, pageID = metadata.freeListTailPageID

namespace Loadable

variable {metadata : RootMetadata} {pageID start : Nat} {pages entries : List Nat}

section

variable (loadable : Loadable metadata (pageID :: pages) entries start)
include loadable

/-- The first page of a list can be decoded. -/
theorem storable {page : Bytes}
    (encoded : encodeFreeListNode ⟨pages.headD 0, start, entries.take freeListPageCapacity⟩ =
      .ok page) :
    FreeListNode.Storable ⟨pages.headD 0, start, entries.take freeListPageCapacity⟩ := by
  rw [encodeFreeListNode, guard_eq_ok, not_or] at encoded
  have mem : ∀ other ∈ entries.take freeListPageCapacity, other ∈ (pageID :: pages) ++ entries :=
    fun other found => mem_append_right _ (mem_of_mem_take found)
  have small : ∀ other ∈ (pageID :: pages) ++ entries, other < 256 ^ 8 := fun other found =>
    Nat.lt_of_le_of_lt (loadable.listable.inside other found) loadable.counted
  refine ⟨fun none => encoded.1.1 (by rw [none]; rfl), Nat.not_lt.mp encoded.1.2,
    fun other found => loadable.positive other (mem other found),
    fun other found => small other (mem other found), ?_, ?_⟩
  · cases shape : pages with
    | nil => exact (by decide : (0 : Nat) < 256 ^ 8)
    | cons next others => exact small next (by simp [shape])
  · have bounded := loadable.bounded
    exact Nat.lt_of_le_of_lt (Nat.le_add_right ..) bounded

/-- The entries of the first page. -/
theorem first :
    Listable { metadata with freeListPageIDs := metadata.freeListPageIDs ++ [pageID] }
      (entries.take freeListPageCapacity) := by
  have listable := loadable.listable
  have mem : ∀ other ∈ entries.take freeListPageCapacity, other ∈ (pageID :: pages) ++ entries :=
    fun other found => mem_append_right _ (mem_of_mem_take found)
  have nodup := nodup_append.mp listable.nodup
  refine ⟨fun other found => listable.inside other (mem other found),
    fun other found => listable.notRoot other (mem other found), ?_,
    fun other found => listable.notFree other (mem other found),
    fun other found => listable.notRetired other (mem other found),
    nodup.2.1.sublist (take_sublist _ _)⟩
  intro other found seen
  rcases mem_append.mp seen with old | new
  · exact listable.notNode other (mem other found) old
  · exact nodup.2.2 pageID (mem_cons_self ..) other (mem_of_mem_take found)
      (mem_singleton.mp new).symm

/-- The rest of the list after its first page. -/
theorem rest :
    Loadable (({ metadata with freeListPageIDs := metadata.freeListPageIDs ++ [pageID] } :
        RootMetadata).fill start (entries.take freeListPageCapacity)) pages
      (entries.drop freeListPageCapacity) (start + (entries.take freeListPageCapacity).length) := by
  have listable := loadable.listable
  have mem : ∀ other ∈ pages ++ entries.drop freeListPageCapacity,
      other ∈ (pageID :: pages) ++ entries := by
    intro other found
    rcases mem_append.mp found with isPage | isEntry
    · exact mem_append_left _ (mem_cons_of_mem _ isPage)
    · exact mem_append_right _ (mem_of_mem_drop isEntry)
  have split : entries.take freeListPageCapacity ++ entries.drop freeListPageCapacity = entries :=
    take_append_drop _ _
  have nodup : (pageID :: (pages ++ (entries.take freeListPageCapacity ++
      entries.drop freeListPageCapacity))).Nodup := by
    rw [split]
    exact listable.nodup
  -- An entry of the first page is neither a later page nor a later entry.
  have apart : ∀ other ∈ pages ++ entries.drop freeListPageCapacity,
      other ∉ entries.take freeListPageCapacity := by
    intro other found isFirst
    have tail := (nodup_cons.mp nodup).2
    rcases mem_append.mp found with isPage | isEntry
    · exact disjoint_of_nodup_append tail isPage (mem_append_left _ isFirst)
    · exact disjoint_of_nodup_append tail.of_append_right isFirst isEntry
  refine ⟨⟨fun other found => listable.inside other (mem other found),
    fun other found => listable.notRoot other (mem other found), ?_, ?_, ?_, ?_⟩,
    fun other found => loadable.positive other (mem other found), loadable.counted, ?_, ?_⟩
  · intro other found seen
    rcases mem_append.mp seen with old | new
    · exact listable.notNode other (mem other found) old
    · rw [mem_singleton.mp new] at found
      apply (nodup_cons.mp nodup).1
      rcases mem_append.mp found with isPage | isEntry
      · exact mem_append_left _ isPage
      · exact mem_append_right _ (mem_append_right _ isEntry)
  · intro other found seen
    rcases mem_append.mp seen with old | new
    · exact listable.notFree other (mem other found) old
    · exact apart other found (mem_of_mem_take new)
  · intro other found seen
    rcases mem_append.mp seen with old | new
    · exact listable.notRetired other (mem other found) old
    · exact apart other found (mem_of_mem_drop new)
  · exact (nodup_cons.mp listable.nodup).2.sublist
      ((List.Sublist.refl _).append (drop_sublist _ _))
  · have bounded := loadable.bounded
    rwa [← split, length_append, ← Nat.add_assoc] at bounded
  · intro other isLast
    apply loadable.tail other
    cases shape : pages with
    | nil =>
      rw [shape] at isLast
      cases isLast
    | cons next others => rwa [shape] at isLast

end

end Loadable

/-- Only the last page of a list may have room left. -/
theorem FreeListChain.step {file : Bytes} {pages entries : List Nat} {start : Nat}
    (chain : FreeListChain file pages (start + freeListPageCapacity)
      (entries.drop freeListPageCapacity)) :
    FreeListChain file pages (start + (entries.take freeListPageCapacity).length)
      (entries.drop freeListPageCapacity) := by
  cases pages with
  | nil => exact chain
  | cons pageID rest =>
    obtain ⟨⟨page, encoded, -⟩, -⟩ := id chain
    have full : (entries.take freeListPageCapacity).length = freeListPageCapacity := by
      rw [encodeFreeListNode, guard_eq_ok, not_or] at encoded
      have nonempty := encoded.1.1
      simp only [length_take, length_drop] at nonempty ⊢
      omega
    rwa [full]

/-- A free list on the file is loaded. -/
theorem loadFreeListPages_chain {file : Bytes} (sized : Sized file) :
    ∀ (pages entries : List Nat) (start rounds : Nat) (metadata : RootMetadata),
      FreeListChain file pages start entries → Loadable metadata pages entries start →
      metadata.pageCount ≤ pagesOf file.length → pages.length < rounds →
      loadFreeListPages (.ofBytes file) rounds (pages.headD 0) start metadata =
        .ok (start + entries.length,
          ({ metadata with freeListPageIDs := metadata.freeListPageIDs ++ pages } :
            RootMetadata).fill start entries) := by
  intro pages
  induction pages with
  | nil =>
    intro entries start rounds metadata chain _ _ enough
    obtain ⟨rounds, rfl⟩ : ∃ fewer, rounds = fewer + 1 := ⟨rounds - 1, by simp at enough; omega⟩
    rw [show entries = [] from chain, RootMetadata.fill_nil, loadFreeListPages]
    simp
  | cons pageID pages ih =>
    intro entries start rounds metadata chain loadable counted enough
    obtain ⟨rounds, rfl⟩ : ∃ fewer, rounds = fewer + 1 := ⟨rounds - 1, by simp at enough; omega⟩
    obtain ⟨⟨page, encoded, here⟩, later⟩ := chain
    have storable := loadable.storable encoded
    have own : pageID ∈ pageID :: pages ++ entries := mem_cons_self ..
    have positive := loadable.positive pageID own
    have inside := loadable.listable.inside pageID own
    have notRoot := loadable.listable.notRoot pageID own
    have unseen := loadable.listable.notNode pageID own
    rw [storable.encode_eq] at encoded
    obtain rfl := Except.ok.inj encoded
    have loaded : pageAt file pageID = _ := Sized.pageAt_eq here storable.length_page
    have bounded := loadable.bounded
    have few : (entries.take freeListPageCapacity).length ≤ entries.length :=
      length_take_le' ..
    have next := ih (entries.drop freeListPageCapacity) _ rounds _ later.step loadable.rest counted
      (by simpa using enough)
    have total : start + (entries.take freeListPageCapacity).length +
        (entries.drop freeListPageCapacity).length = start + entries.length := by
      rw [Nat.add_assoc, ← length_append, take_append_drop]
    have tail : ¬ (pages.headD 0 = 0 ∧ pageID ≠ metadata.freeListTailPageID) := by
      rintro ⟨ended, other⟩
      cases shape : pages with
      | nil => exact other (loadable.tail pageID (by simp [shape]))
      | cons following others =>
        rw [shape] at ended
        exact loadable.positive following (by simp [shape]) ended
    rw [headD_cons, loadFreeListPages, if_neg positive, if_neg (by omega), if_neg unseen,
      sized.readRawDataPage positive (by omega), ok_bind, loaded, storable.decode_eq]
    dsimp only
    rw [if_neg (not_not.mpr rfl), loadFreeListEntries_eq _ _ _ loadable.first (by omega), ok_bind]
    dsimp only
    refine (if_neg tail).trans (next.trans ?_)
    have joined := RootMetadata.fill_append ({ metadata with
      freeListPageIDs := metadata.freeListPageIDs ++ pageID :: pages } : RootMetadata) start
      (entries.take freeListPageCapacity) (entries.drop freeListPageCapacity)
    rw [take_append_drop] at joined
    rw [total, ← joined]
    simp only [RootMetadata.fill, append_assoc, singleton_append]

/-! ## Written metadata -/

/-- Different pages of a file are no more than the file has. -/
theorem length_le_of_pages {pages : List Nat} {count : Nat} (nodup : pages.Nodup)
    (inside : ∀ pageID ∈ pages, pageID ≠ 0 ∧ pageID ≤ count) : pages.length ≤ count := by
  have subset : ∀ pageID ∈ pages, pageID ∈ List.range' 1 count := by
    intro pageID mem
    have range := inside pageID mem
    rw [mem_range'_1]
    omega
  have few := (subperm_of_subset nodup subset).length_le
  rwa [length_range'] at few

namespace RootMetadata

/-- The fields of a slot agree with its free list, as `writeFreeListSnapshot` makes
them. -/
structure Consistent (metadata : RootMetadata) : Prop where
  small : metadata.Small
  root : metadata.rootPageID ≤ metadata.pageCount
  head : metadata.freeListHeadPageID = metadata.freeListPageIDs.headD 0
  tail : metadata.freeListTailPageID = metadata.freeListPageIDs.getLastD 0
  headSequence : metadata.headSequence = 0
  tailSequence : metadata.tailSequence =
    (metadata.freePageIDs ++ metadata.retiredPageIDs).length
  maxSequence : metadata.maxSequence = metadata.freePageIDs.length
  nodup : (metadata.freeListPageIDs ++ (metadata.freePageIDs ++ metadata.retiredPageIDs)).Nodup
  positive : ∀ pageID ∈ metadata.freeListPageIDs ++
    (metadata.freePageIDs ++ metadata.retiredPageIDs), pageID ≠ 0
  inside : ∀ pageID ∈ metadata.freeListPageIDs ++
    (metadata.freePageIDs ++ metadata.retiredPageIDs), pageID ≤ metadata.pageCount
  notRoot : ∀ pageID ∈ metadata.freeListPageIDs ++
    (metadata.freePageIDs ++ metadata.retiredPageIDs), pageID ≠ metadata.rootPageID

/-- The fields of a slot, before its free list is loaded. -/
def unloaded (metadata : RootMetadata) : RootMetadata :=
  { metadata with freePageIDs := [], retiredPageIDs := [], freeListPageIDs := [] }

variable {metadata : RootMetadata} {file : Bytes}

section

variable (consistent : metadata.Consistent)
include consistent

theorem Consistent.loadable : Loadable metadata.unloaded metadata.freeListPageIDs
      (metadata.freePageIDs ++ metadata.retiredPageIDs) 0 := by
  have tailSmall := consistent.small metadata.tailSequence (by simp [words])
  refine ⟨⟨consistent.inside, consistent.notRoot, fun _ _ => not_mem_nil,
    fun _ _ => not_mem_nil, fun _ _ => not_mem_nil, consistent.nodup⟩,
    consistent.positive, consistent.small metadata.pageCount (by simp [words]), ?_, ?_⟩
  · rw [Nat.zero_add, ← consistent.tailSequence]
    exact tailSmall
  · intro pageID isLast
    change pageID = metadata.freeListTailPageID
    rw [consistent.tail, getLastD_eq_getLast?, Option.mem_def.mp isLast]
    rfl

theorem Consistent.fill_unloaded :
    ({ metadata.unloaded with
        freeListPageIDs := metadata.unloaded.freeListPageIDs ++ metadata.freeListPageIDs } :
      RootMetadata).fill 0 (metadata.freePageIDs ++ metadata.retiredPageIDs) = metadata := by
  have count : metadata.maxSequence - 0 = metadata.freePageIDs.length := by
    rw [consistent.maxSequence, Nat.sub_zero]
  simp only [fill, unloaded, nil_append, count, take_left, drop_left]

theorem Consistent.length_pages_le : metadata.freeListPageIDs.length ≤ metadata.pageCount :=
  length_le_of_pages consistent.nodup.of_append_left fun pageID mem =>
    ⟨consistent.positive pageID (mem_append_left _ mem),
      consistent.inside pageID (mem_append_left _ mem)⟩

variable (list : FreeListChain file metadata.freeListPageIDs 0
  (metadata.freePageIDs ++ metadata.retiredPageIDs))
include list

/-- Metadata without a free list. -/
theorem Consistent.load_none (shape : metadata.freeListPageIDs = []) :
    loadFreeListMetadata (.ofBytes file) metadata.unloaded = .ok metadata := by
  rw [shape] at list
  have none : metadata.freePageIDs ++ metadata.retiredPageIDs = [] := list
  have filled := consistent.fill_unloaded
  rw [none, fill_nil, shape] at filled
  have same : metadata.unloaded = metadata := filled
  have head := consistent.head
  have tail := consistent.tail
  have last := consistent.tailSequence
  have most := consistent.maxSequence
  rw [shape] at head tail
  rw [none] at last
  rw [(append_eq_nil_iff.mp none).1] at most
  rw [same, loadFreeListMetadata, if_pos (show metadata.freeListHeadPageID = 0 from head), if_neg]
  rintro (nonzero | nonzero | nonzero | nonzero)
  · exact nonzero tail
  · exact nonzero consistent.headSequence
  · exact nonzero last
  · exact nonzero most

variable (sized : Sized file) (counted : metadata.pageCount ≤ pagesOf file.length)
include sized counted

theorem Consistent.loadFreeList :
    loadFreeListMetadata (.ofBytes file) metadata.unloaded = .ok metadata := by
  by_cases shape : metadata.freeListPageIDs = []
  · exact consistent.load_none list shape
  have nonzero : ∀ pageID ∈ metadata.freeListPageIDs, pageID ≠ 0 := fun pageID mem =>
    consistent.positive pageID (mem_append_left _ mem)
  have head : metadata.freeListHeadPageID ≠ 0 := by
    rw [consistent.head, headD_eq_head?, List.head?_eq_some_head shape]
    exact nonzero _ (head_mem shape)
  have tail : metadata.freeListTailPageID ≠ 0 := by
    rw [consistent.tail, getLastD_eq_getLast?, List.getLast?_eq_some_getLast shape]
    exact nonzero _ (getLast_mem shape)
  have first := consistent.headSequence
  have last := consistent.tailSequence
  have most := consistent.maxSequence
  rw [length_append] at last
  have ordered : ¬ (metadata.unloaded.freeListTailPageID = 0 ∨
      metadata.unloaded.maxSequence < metadata.unloaded.headSequence ∨
      metadata.unloaded.tailSequence < metadata.unloaded.maxSequence) := by
    simp only [unloaded]
    omega
  have few := consistent.length_pages_le
  have run := loadFreeListPages_chain sized _ _ 0 (metadata.pageCount + 2) metadata.unloaded
    list consistent.loadable counted (by omega)
  rw [consistent.fill_unloaded, ← consistent.head] at run
  have start : metadata.unloaded.headSequence = 0 := first
  rw [loadFreeListMetadata, if_neg (show metadata.unloaded.freeListHeadPageID ≠ 0 from head),
    if_neg ordered, start, show metadata.unloaded.freeListHeadPageID = metadata.freeListHeadPageID
      from rfl, show metadata.unloaded.pageCount = metadata.pageCount from rfl, run, ok_bind]
  dsimp only
  rw [if_neg (by rw [length_append]; omega), if_neg]
  · rfl
  · rintro ⟨pageID, isPage, isEntry⟩
    exact disjoint_of_nodup_append consistent.nodup isPage (mem_append.mpr isEntry)

/-- A written slot is read back. -/
theorem Consistent.readSlot {slot : Nat} (isSlot : slot < metadataSlotCount)
    (written : At file (slot * pageSize) (rootMetadataPage metadata)) :
    readRootMetadataSlot (.ofBytes file) slot = .ok metadata := by
  have held : slotAt file slot = rootMetadataPage metadata :=
    written.slice_sub (length_rootMetadataPage metadata)
  have intact := slotIntact_rootMetadataPage metadata
  have version := version_rootMetadataPage metadata
  have fields := @consistent.small.readLE_page
  have slots := sized.slots
  rw [readRootMetadataSlot, sized.readAt_slot isSlot, ok_bind, held]
  dsimp only
  rw [if_neg (not_not.mpr intact.magic), if_neg (by rw [version]; decide),
    if_neg (not_not.mpr intact.checksum), decodeRootMetadata, version]
  dsimp only
  have generation := @fields 0 _ metadataGenerationOffset rfl rfl
  have root := @fields 1 _ metadataRootPageOffset rfl rfl
  have count := @fields 2 _ metadataPageCountOffset rfl rfl
  have head := @fields 3 _ metadataFreeListHeadOffset rfl rfl
  have tail := @fields 4 _ metadataFreeListTailOffset rfl rfl
  have first := @fields 5 _ metadataHeadSequenceOffset rfl rfl
  have last := @fields 6 _ metadataTailSequenceOffset rfl rfl
  have most := @fields 7 _ metadataMaxSequenceOffset rfl rfl
  simp only [generation, root, count, head, tail, first, last, most]
  rw [if_neg (Nat.not_lt.mpr consistent.root), FileView.size_ofBytes sized.small, ok_bind,
    if_neg (by rw [pagesOf] at counted; omega), if_neg (by decide), if_pos trivial]
  exact consistent.loadFreeList list sized counted

end

end RootMetadata

end GoDatabase
