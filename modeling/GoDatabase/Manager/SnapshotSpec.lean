import GoDatabase.Manager.MetadataSpec
import GoDatabase.Manager.Snapshot

/-!
# Reading back a written free list

Writing pages changes nothing but these pages.  After `writeFreeListSnapshot` the new
lists are on the file, and a slot with its metadata is read back as it was written.
-/

namespace GoDatabase

open Library
open List

/-! ## Page writes -/

variable {other slot : Nat} {file : Bytes}

/-- The blocks of different pages are disjoint. -/
theorem pageOffset_disjoint {pageID : Nat} (positive : pageID ≠ 0) (otherPositive : other ≠ 0)
    (ne : pageID ≠ other) : pageOffset pageID + pageSize ≤ pageOffset other ∨
      pageOffset other + pageSize ≤ pageOffset pageID := by
  simp only [pageOffset, pageSize]
  omega

/-- A page that ends inside of the file is one of its pages. -/
theorem le_pagesOf {pageID size : Nat}
    (inside : pageOffset pageID + pageSize ≤ size) : pageID ≤ pagesOf size := by
  rw [pagesOf, Nat.le_div_iff_mul_le (by decide)]
  simp only [pageOffset, pageSize] at inside ⊢
  omega

/-- The slots stand before all pages. -/
theorem slot_le_pageOffset (isSlot : slot < metadataSlotCount) (pageID : Nat) :
    slot * pageSize + pageSize ≤ pageOffset pageID := by
  simp only [metadataSlotCount, pageOffset, metadataSize, pageSize] at isSlot ⊢
  omega

/-- A page stays when another page is written, in part or as a whole. -/
theorem at_page_writeAt {page bytes : Bytes} {pageID : Nat}
    (here : At file (pageOffset pageID) page) (whole : page.length = pageSize)
    (few : bytes.length ≤ pageSize) (positive : pageID ≠ 0) (otherPositive : other ≠ 0)
    (ne : pageID ≠ other) :
    At (writeAt file (pageOffset other) bytes) (pageOffset pageID) page := by
  refine here.writeAt_disjoint ?_
  have disjoint := pageOffset_disjoint positive otherPositive ne
  rw [whole]
  omega

/-- The file operations between two moments are writes of the given pages. -/
structure Disk.Wrote {ν : Type} (pages : List Nat) (disk last : Disk ν) : Prop where
  log : ∃ events, last.log = events ++ disk.log ∧
    ∀ event ∈ events, ∃ pageID ∈ pages, ∃ data written,
      event = .write (pageOffset pageID) data written ∧ data.length = pageSize ∧
        pageOffset pageID + pageSize ≤ maxFileSize
  initial : last.initial = disk.initial
  faults : last.faults = disk.faults

namespace Disk.Wrote

variable {ν : Type} {pages more : List Nat} {disk middle last : Disk ν}

theorem refl (pages : List Nat) (disk : Disk ν) : Wrote pages disk disk :=
  ⟨⟨[], rfl, fun _ none => nomatch none⟩, rfl, rfl⟩

theorem mono (wrote : Wrote pages disk last) (subset : pages ⊆ more) : Wrote more disk last := by
  obtain ⟨events, grown, writes⟩ := wrote.log
  refine ⟨⟨events, grown, fun event mem => ?_⟩, wrote.initial, wrote.faults⟩
  obtain ⟨pageID, isPage, rest⟩ := writes event mem
  exact ⟨pageID, subset isPage, rest⟩

theorem trans (first : Wrote pages disk middle) (second : Wrote pages middle last) :
    Wrote pages disk last := by
  obtain ⟨early, grown, writes⟩ := first.log
  obtain ⟨late, grownMore, writesMore⟩ := second.log
  refine ⟨⟨late ++ early, by rw [grownMore, grown, append_assoc], ?_⟩,
    second.initial.trans first.initial, second.faults.trans first.faults⟩
  intro event mem
  rcases mem_append.mp mem with isLate | isEarly
  · exact writesMore event isLate
  · exact writes event isEarly

variable {pageID : Nat}

theorem write {data : Bytes} (written : Nat) (isPage : pageID ∈ pages)
    (whole : data.length = pageSize) (small : pageOffset pageID + pageSize ≤ maxFileSize) :
    Wrote pages disk (disk.record (.write (pageOffset pageID) data written)) := by
  refine ⟨⟨[_], rfl, fun event mem => ?_⟩, rfl, rfl⟩
  exact ⟨pageID, isPage, data, written, mem_singleton.mp mem, whole, small⟩

/-- What no write of these pages destroys. -/
theorem keeps {property : Bytes → Prop} (wrote : Wrote pages disk last)
    (kept : ∀ file pageID bytes, pageID ∈ pages → bytes.length ≤ pageSize →
      pageOffset pageID + pageSize ≤ maxFileSize → property file →
      property (Library.writeAt file (pageOffset pageID) bytes))
    (before : property disk.bytes) : property last.bytes := by
  obtain ⟨events, grown, writes⟩ := wrote.log
  rw [Disk.bytes, wrote.initial, grown]
  clear grown
  induction events with
  | nil => exact before
  | cons event events ih =>
    obtain ⟨pageID, isPage, data, written, rfl, whole, small⟩ :=
      writes event (mem_cons_self ..)
    refine kept _ pageID _ isPage ?_ small
      (ih fun other mem => writes other (mem_cons_of_mem _ mem))
    exact Nat.le_trans (length_take_le' ..) (Nat.le_of_eq whole)

theorem at_page (wrote : Wrote pages disk last) {page : Bytes}
    (here : At disk.bytes (pageOffset pageID) page) (whole : page.length = pageSize)
    (positive : ∀ other ∈ pageID :: pages, other ≠ 0) (other : pageID ∉ pages) :
    At last.bytes (pageOffset pageID) page := by
  refine @keeps _ _ _ _ (fun file => At file (pageOffset pageID) page) wrote ?_ here
  intro file written bytes isPage few _ still
  have ne : pageID ≠ written := fun same => other (same ▸ isPage)
  exact at_page_writeAt still whole few (positive pageID (mem_cons_self ..))
    (positive written (mem_cons_of_mem _ isPage)) ne

theorem length_le (wrote : Wrote pages disk last) : disk.bytes.length ≤ last.bytes.length := by
  refine @keeps _ _ _ _ (fun file => disk.bytes.length ≤ file.length) wrote ?_ (Nat.le_refl _)
  intro file pageID bytes _ _ _ longer
  exact longer.trans (length_le_writeAt _ _ _)

theorem sized (wrote : Wrote pages disk last) (before : Sized disk.bytes) : Sized last.bytes := by
  refine ⟨before.slots.trans wrote.length_le, ?_⟩
  refine @keeps _ _ _ _ (fun file => file.length ≤ maxFileSize) wrote ?_ before.small
  intro file pageID bytes _ few small fits
  by_cases nonempty : bytes = []
  · rw [nonempty, writeAt_nil]
    exact fits
  · rw [length_writeAt nonempty]
    omega

end Disk.Wrote

namespace Managed

open Fallible

variable {ν : Type} {managed last : Managed ν}

/-- A page that was written is an existing page, and its data is on the file. -/
structure PageWritten (managed : Managed ν) (pageID : Nat) (page : Bytes) (last : Managed ν) :
    Prop where
  positive : pageID ≠ 0
  inside : pageID < managed.pm.nextPageID
  whole : page.length = pageSize
  small : pageOffset pageID + pageSize ≤ maxFileSize
  last_eq : last = { managed with
    disk := managed.disk.record (.write (pageOffset pageID) page pageSize) }

theorem onDisk_ok {call : Fallible (Disk ν) Unit} (run : onDisk call managed = .ok () last) :
    ∃ disk, call managed.disk = .ok () disk ∧ last = { managed with disk := disk } := by
  rw [onDisk] at run
  cases result : call managed.disk with
  | ok value disk =>
    rw [result] at run
    cases run
    exact ⟨disk, rfl, rfl⟩
  | error err disk =>
    rw [result] at run
    cases run

theorem validateExistingPageID_ok {pm : PageManager} {pageID : Nat}
    (valid : pm.validateExistingPageID pageID = .ok ()) :
    pageID ≠ 0 ∧ pageID < pm.nextPageID ∧ pageID ∉ pm.freePageSet := by
  rw [PageManager.validateExistingPageID] at valid
  split_ifs at valid with outside free
  exact ⟨fun zero => outside (.inl zero), Nat.not_le.mp fun large => outside (.inr large), free⟩

theorem dataPageOffset_ok {pageID offset : Nat} (found : dataPageOffset pageID = .ok offset) :
    pageID ≠ 0 ∧ pageID ≤ maxPageID ∧ offset = pageOffset pageID := by
  rw [dataPageOffset] at found
  split_ifs at found with zero large
  exact ⟨zero, Nat.not_lt.mp large, (Except.ok.inj found).symm⟩

theorem writePage_none {pageID : Nat} {page : Bytes}
    (valid : managed.pm.validateExistingPageID pageID = .ok ()) (whole : page.length = pageSize)
    (offset : dataPageOffset pageID = .ok (pageOffset pageID))
    (small : pageOffset pageID + pageSize ≤ maxFileSize) :
    writePage none pageID page managed = .ok () { managed with
      disk := managed.disk.record (.write (pageOffset pageID) page pageSize) } := by
  rw [writePage, get_bind_apply, lift_bind_of_ok valid, if_neg (not_not.mpr whole),
    lift_bind_of_ok offset, onDisk, Disk.writeAt_none (by rw [whole]; exact small), whole]

theorem writePage_ok {fault : Option Nat} {pageID : Nat} {page : Bytes}
    (run : writePage fault pageID page managed = .ok () last) :
    PageWritten managed pageID page last := by
  rw [writePage, get_bind_apply] at run
  obtain ⟨⟨⟩, valid, run⟩ := exists_of_lift_bind_ok run
  by_cases whole : page.length = pageSize
  · rw [if_neg (not_not.mpr whole)] at run
    obtain ⟨offset, found, run⟩ := exists_of_lift_bind_ok run
    obtain ⟨disk, write, rfl⟩ := onDisk_ok run
    obtain ⟨positive, -, rfl⟩ := dataPageOffset_ok found
    obtain ⟨small, rfl⟩ := Disk.writeAt_ok write
    rw [whole] at small ⊢
    exact ⟨positive, (validateExistingPageID_ok valid).2.1, whole, small, rfl⟩
  · rw [if_pos whole] at run
    cases run

namespace PageWritten

variable {pageID : Nat} {page : Bytes}

theorem wrote (written : PageWritten managed pageID page last) :
    Disk.Wrote [pageID] managed.disk last.disk := by
  rw [written.last_eq]
  exact .write _ (mem_singleton_self _) written.whole written.small

theorem at_page (written : PageWritten managed pageID page last) :
    At last.disk.bytes (pageOffset pageID) page := by
  have nonempty : page ≠ [] := by
    intro empty
    have whole := written.whole
    rw [empty] at whole
    cases whole
  have here := @At.writeAt_self managed.disk.bytes page (pageOffset pageID) nonempty
  rw [written.last_eq, Disk.bytes_write, take_of_length_le (Nat.le_of_eq written.whole)]
  exact here

end PageWritten

/-- The pages of the list are on the file after they were written.  By induction on the
pages: a later write does not touch the pages before it. -/
theorem writeFreeListNodes_ok {entries : List Nat} :
    ∀ (pages : List Nat) (i : Nat) (managed last : Managed ν), pages.Nodup →
      entries.length ≤ (i + pages.length) * freeListPageCapacity →
      writeFreeListNodes entries i pages managed = .ok () last →
      last.pm = managed.pm ∧ Disk.Wrote pages managed.disk last.disk ∧
        (∀ pageID ∈ pages, pageID ≠ 0 ∧ pageOffset pageID + pageSize ≤ last.disk.bytes.length) ∧
        FreeListChain last.disk.bytes pages (i * freeListPageCapacity)
          (entries.drop (i * freeListPageCapacity)) := by
  intro pages
  induction pages with
  | nil =>
    intro i managed last _ few run
    cases run
    refine ⟨rfl, .refl _ _, ?_, drop_eq_nil_of_le few⟩
    exact fun _ none => nomatch none
  | cons pageID rest ih =>
    intro i managed last nodup few run
    obtain ⟨notLater, nodupRest⟩ := nodup_cons.mp nodup
    rw [length_cons] at few
    obtain ⟨page, encoded, run⟩ := exists_of_lift_bind_ok run
    rw [get_bind_apply] at run
    obtain ⟨⟨⟩, middle, write, run⟩ := exists_of_bind_ok run
    have written := writePage_ok write
    obtain ⟨samePM, wrote, inside, chain⟩ := ih (i + 1) middle last nodupRest
      (few.trans (Nat.le_of_eq (by congr 1; omega))) run
    have here := wrote.at_page written.at_page written.whole
      (fun other mem => by
        rcases mem_cons.mp mem with rfl | later
        · exact written.positive
        · exact (inside other later).1) notLater
    refine ⟨samePM.trans (by rw [written.last_eq]),
      (written.wrote.mono (cons_subset.mpr ⟨mem_cons_self .., nil_subset _⟩)).trans
        (wrote.mono (subset_cons_self ..)), ?_, ⟨page, encoded, here⟩, ?_⟩
    · intro other mem
      rcases mem_cons.mp mem with rfl | later
      · have ends := here.inside
        rw [written.whole] at ends
        exact ⟨written.positive, ends⟩
      · exact inside other later
    · rw [drop_drop]
      simpa only [Nat.succ_mul] using chain

end Managed

/-! ## Slot writes -/

/-- A list stays on the file as long as its pages do. -/
theorem FreeListChain.mono {other : Bytes} : ∀ {pages : List Nat} {start : Nat}
    {entries : List Nat}, (∀ pageID ∈ pages, ∀ page, At file (pageOffset pageID) page →
      At other (pageOffset pageID) page) →
    FreeListChain file pages start entries → FreeListChain other pages start entries
  | [], _, _, _, chain => chain
  | pageID :: _, _, _, kept, ⟨⟨page, encoded, here⟩, later⟩ =>
    ⟨⟨page, encoded, kept pageID (mem_cons_self ..) page here⟩,
      later.mono fun other mem => kept other (mem_cons_of_mem _ mem)⟩

theorem writeRootMetadataSlot_none {ν : Type} (isSlot : slot < metadataSlotCount)
    (metadata : RootMetadata) {disk : Disk ν} (noFault : disk.faults.slotWrite = none) :
    writeRootMetadataSlot slot metadata disk =
      .ok () (disk.record (.write (slot * pageSize) (rootMetadataPage metadata) pageSize)) := by
  have whole := length_rootMetadataPage metadata
  have fits : slot * pageSize + (rootMetadataPage metadata).length ≤ maxFileSize := by
    rw [whole]
    exact (slot_le_pageOffset isSlot 1).trans (by decide)
  have write := Disk.writeAt_none fits disk
  rw [whole] at write
  rw [writeRootMetadataSlot, noFault]
  exact write

/-- A file after its slot was written. -/
structure SlotWritten (file : Bytes) (slot : Nat) (metadata : RootMetadata) (last : Bytes) :
    Prop where
  written : At last (slot * pageSize) (rootMetadataPage metadata)
  length_eq : last.length = file.length
  pages : ∀ pageID page, At file (pageOffset pageID) page → At last (pageOffset pageID) page

theorem Sized.writeAt_slot (sized : Sized file)
    (isSlot : slot < metadataSlotCount) (metadata : RootMetadata) :
    SlotWritten file slot metadata
      (writeAt file (slot * pageSize) (rootMetadataPage metadata)) := by
  have whole := length_rootMetadataPage metadata
  have inside := sized.slot_inside isSlot
  have nonempty : rootMetadataPage metadata ≠ [] := by
    intro empty
    rw [empty] at whole
    cases whole
  refine ⟨At.writeAt_self nonempty, ?_, fun pageID page here => here.writeAt_disjoint (.inr ?_)⟩
  · rw [length_writeAt nonempty, whole]
    omega
  · rw [whole]
    exact slot_le_pageOffset isSlot pageID

/-- A slot and its list are read back. -/
theorem SlotWritten.readSlot {last : Bytes} {metadata : RootMetadata}
    (slotWritten : SlotWritten file slot metadata last) (consistent : metadata.Consistent)
    (sized : Sized file) (isSlot : slot < metadataSlotCount)
    (list : FreeListChain file metadata.freeListPageIDs 0
      (metadata.freePageIDs ++ metadata.retiredPageIDs))
    (counted : metadata.pageCount ≤ pagesOf file.length) :
    readRootMetadataSlot (.ofBytes last) slot = .ok metadata := by
  have same := slotWritten.length_eq
  refine consistent.readSlot (list.mono fun pageID _ => slotWritten.pages pageID) ⟨?_, ?_⟩ ?_
    isSlot slotWritten.written
  · exact same ▸ sized.slots
  · exact same ▸ sized.small
  · exact same ▸ counted

/-! ## The new lists -/

variable {count : Nat}

theorem headD_le {pages : List Nat} (inside : ∀ pageID ∈ pages, pageID ≤ count) :
    pages.headD 0 ≤ count := by
  cases pages with
  | nil => exact Nat.zero_le _
  | cons pageID rest => exact inside pageID (mem_cons_self ..)

theorem getLastD_le {pages : List Nat} (inside : ∀ pageID ∈ pages, pageID ≤ count) :
    pages.getLastD 0 ≤ count := by
  rw [getLastD_eq_getLast?]
  cases last : pages.getLast? with
  | none => exact Nat.zero_le _
  | some pageID => exact inside pageID (mem_of_getLast? last)

namespace PageManager

variable (pm : PageManager) (view : FileView)

/-- How many pages the file is extended by. -/
def freshCount : Nat := (pm.freeListPlan view).nodeCount - (pm.freeListPlan view).reused.length

/-- The pages that the new list is written to. -/
def nodePageIDs : List Nat :=
  (pm.freeListPlan view).reused ++ List.range' pm.nextPageID (pm.freshCount view)

/-- The new lists hold what the old lists held, and the new pages. -/
theorem nodePageIDs_append_entries : (pm.nodePageIDs view ++ (pm.freeListPlan view).entries).Perm
      (pm.listed ++ List.range' pm.nextPageID (pm.freshCount view)) := by
  let plan := pm.freeListPlan view
  let fresh := List.range' pm.nextPageID (pm.freshCount view)
  calc plan.reused ++ fresh ++ plan.entries
    _ = plan.reused ++ (fresh ++ plan.entries) := append_assoc ..
    _ ~ plan.reused ++ (plan.entries ++ fresh) := perm_append_comm.append_left _
    _ = plan.reused ++ plan.eligible ++ (plan.protectedIDs ++ fresh) := by
        simp only [FreeListPlan.entries, append_assoc]
    _ ~ pm.freePageIDs ++ pm.retiredPageIDs ++ (plan.protectedIDs ++ fresh) :=
        (pm.reused_append_eligible view).append_right _
    _ = pm.listed ++ fresh := by
        have others : plan.protectedIDs = pm.pendingFreePageIDs ++ pm.freeListPageIDs := rfl
        simp only [listed, others, append_assoc]

variable {pm view} {live : List Nat}

theorem length_nodePageIDs (some : 1 ≤ pm.totalEntries) :
    (pm.nodePageIDs view).length = (pm.freeListPlan view).nodeCount := by
  have few := (pm.freeListPlan_exact view some).reused_le
  rw [nodePageIDs, length_append, length_range', freshCount]
  omega

/-- The pages of the new list hold all entries. -/
theorem length_entries_le : (pm.freeListPlan view).entries.length ≤
      (0 + (pm.nodePageIDs view).length) * freeListPageCapacity := by
  rw [Nat.zero_add, pm.length_entries view]
  by_cases some : 1 ≤ pm.totalEntries
  · rw [length_nodePageIDs some]
    exact (pm.freeListPlan_exact view some).fits
  · omega

namespace Owns

theorem nodup_fresh (owns : pm.Owns live) (count : Nat) :
    (pm.listed ++ List.range' pm.nextPageID count).Nodup := by
  refine nodup_append.mpr ⟨owns.nodup_listed, nodup_range', ?_⟩
  rintro pageID isListed _ isFresh rfl
  have old := (owns.mem_iff.mp (.inr isListed)).2
  have new := (mem_range'_1.mp isFresh).1
  omega

theorem nodup_nodePageIDs (owns : pm.Owns live) :
    (pm.nodePageIDs view ++ (pm.freeListPlan view).entries).Nodup :=
  (pm.nodePageIDs_append_entries view).nodup_iff.mpr (owns.nodup_fresh _)

/-- The pages of the new lists are pages of the extended file, and none of them is live. -/
theorem mem_nodePageIDs (owns : pm.Owns live) {pageID : Nat}
    (mem : pageID ∈ pm.nodePageIDs view ++ (pm.freeListPlan view).entries) :
    pageID ≠ 0 ∧ pageID < pm.nextPageID + pm.freshCount view ∧ pageID ∉ live := by
  rcases mem_append.mp ((pm.nodePageIDs_append_entries view).mem_iff.mp mem) with
    isListed | isFresh
  · have range := owns.mem_iff.mp (.inr isListed)
    exact ⟨by omega, by omega, fun isLive => owns.not_listed isLive isListed⟩
  · have range := mem_range'_1.mp isFresh
    have positive := owns.positive
    refine ⟨by omega, range.2, fun isLive => ?_⟩
    have old := (owns.mem_iff.mp (.inl isLive)).2
    omega

end Owns

end PageManager

namespace Managed

open Fallible

variable {ν : Type} {managed last : Managed ν} {generation rootPageID : Nat}
  {metadata : RootMetadata} {live : List Nat}

/-- What `writeFreeListSnapshot` leaves behind. -/
structure SnapshotWritten (generation rootPageID : Nat) (managed : Managed ν)
    (metadata : RootMetadata) (last : Managed ν) : Prop where
  pm_eq : last.pm = { managed.pm with
    nextPageID := managed.pm.nextPageID + managed.pm.freshCount managed.disk.view
    freePageSet := (managed.pm.freeListPlan managed.disk.view).reused.foldl Finset.erase
      managed.pm.freePageSet
    freePageIDs := (managed.pm.freeListPlan managed.disk.view).eligible
    retiredPageIDs := (managed.pm.freeListPlan managed.disk.view).protectedIDs
    freeListPageIDs := managed.pm.nodePageIDs managed.disk.view }
  metadata_eq : metadata = last.snapshotMetadata generation rootPageID
    (managed.pm.freeListPlan managed.disk.view) (managed.pm.nodePageIDs managed.disk.view)
  wrote : Disk.Wrote (managed.pm.nodePageIDs managed.disk.view) managed.disk last.disk
  inside : ∀ pageID ∈ managed.pm.nodePageIDs managed.disk.view,
    pageOffset pageID + pageSize ≤ last.disk.bytes.length
  list : FreeListChain last.disk.bytes (managed.pm.nodePageIDs managed.disk.view) 0
    (managed.pm.freeListPlan managed.disk.view).entries

theorem writeFreeListSnapshot_ok (owns : managed.pm.Owns live)
    (run : writeFreeListSnapshot generation rootPageID managed = .ok metadata last) :
    SnapshotWritten generation rootPageID managed metadata last := by
  rw [writeFreeListSnapshot, get_bind_apply, set_bind_apply] at run
  obtain ⟨fresh, middle, extended, run⟩ := exists_of_bind_ok run
  obtain ⟨rfl, rfl⟩ := extendPages_ok _ _ _ _ extended
  obtain ⟨⟨⟩, after, written, run⟩ := exists_of_bind_ok run
  obtain ⟨samePM, wrote, inside, chain⟩ := writeFreeListNodes_ok _ _ _ _
    owns.nodup_nodePageIDs.of_append_left PageManager.length_entries_le written
  rw [modify_bind_apply, get_bind_apply] at run
  cases run
  rw [Nat.zero_mul, drop_zero] at chain
  refine ⟨?_, rfl, wrote, fun pageID mem => (inside pageID mem).2, chain⟩
  simp only [install, samePM, takeReused]
  rfl

namespace SnapshotWritten

variable (written : SnapshotWritten generation rootPageID managed metadata last)
include written

theorem nextPageID_eq :
    last.pm.nextPageID = managed.pm.nextPageID + managed.pm.freshCount managed.disk.view := by
  rw [written.pm_eq]

theorem pageCount_eq : metadata.pageCount = last.pm.nextPageID - 1 := by
  rw [written.metadata_eq]
  rfl

variable (held : managed.pm.nextPageID - 1 ≤ pagesOf managed.disk.bytes.length)
include held

/-- All pages of the new generation are on the file. -/
theorem counted : metadata.pageCount ≤ pagesOf last.disk.bytes.length := by
  rw [written.pageCount_eq, written.nextPageID_eq]
  cases count : managed.pm.freshCount managed.disk.view with
  | zero =>
    have grown := written.wrote.length_le
    rw [Nat.add_zero]
    exact held.trans (Nat.div_le_div_right (Nat.sub_le_sub_right grown metadataSize))
  | succ fewer =>
    -- The last new page is on the file, so everything before it is.
    have isNode : managed.pm.nextPageID + fewer ∈ managed.pm.nodePageIDs managed.disk.view := by
      refine mem_append_right _ (mem_range'_1.mpr ?_)
      omega
    exact le_pagesOf (written.inside _ isNode)

/-- The numbers of the metadata fit into their fields. -/
theorem small (sized : Sized managed.disk.bytes)
    (smallGeneration : generation < 2 ^ 64) (root : rootPageID ≤ metadata.pageCount)
    (inside : ∀ pageID ∈ managed.pm.nodePageIDs managed.disk.view, pageID ≤ metadata.pageCount)
    (few : (managed.pm.nodePageIDs managed.disk.view ++
      (managed.pm.freeListPlan managed.disk.view).entries).length ≤ metadata.pageCount) :
    metadata.Small := by
  have counted := written.counted held
  have bounded := pagesOf_lt (written.wrote.sized sized).small
  have limit : maxPageID < 2 ^ 64 := by decide
  have width : 256 ^ 8 = 2 ^ 64 := by decide
  have head := headD_le inside
  have tail := getLastD_le inside
  rw [length_append, FreeListPlan.entries, length_append] at few
  obtain rfl := written.metadata_eq
  intro word mem
  rw [width]
  simp only [RootMetadata.words, snapshotMetadata, FreeListPlan.entries, length_append,
    mem_cons, not_mem_nil, or_false] at mem
  simp only [snapshotMetadata] at counted root few head tail
  omega

/-- The metadata fits the new lists. -/
theorem consistent (sized : Sized managed.disk.bytes) (owns : managed.pm.Owns live)
    (root : rootPageID = 0 ∨ rootPageID ∈ live) (smallGeneration : generation < 2 ^ 64) :
    metadata.Consistent := by
  have next := written.nextPageID_eq
  have count := written.pageCount_eq
  have pages : ∀ pageID ∈ managed.pm.nodePageIDs managed.disk.view ++
      (managed.pm.freeListPlan managed.disk.view).entries,
      pageID ≠ 0 ∧ pageID ≤ metadata.pageCount ∧ pageID ∉ live := by
    intro pageID mem
    have range := owns.mem_nodePageIDs mem
    exact ⟨range.1, by omega, range.2.2⟩
  have few := length_le_of_pages owns.nodup_nodePageIDs fun pageID mem =>
    ⟨(pages pageID mem).1, (pages pageID mem).2.1⟩
  have rootInside : rootPageID ≤ metadata.pageCount := by
    rcases root with rfl | isLive
    · exact Nat.zero_le _
    · have range := (owns.mem_iff.mp (.inl isLive)).2
      omega
  have small := written.small held sized smallGeneration rootInside
    (fun pageID mem => (pages pageID (mem_append_left _ mem)).2.1) few
  obtain rfl := written.metadata_eq
  refine ⟨small, rootInside, rfl, rfl, rfl, rfl, rfl, owns.nodup_nodePageIDs,
    fun pageID mem => (pages pageID mem).1,
    fun pageID mem => (pages pageID mem).2.1, ?_⟩
  rintro pageID mem rfl
  rcases root with zero | isLive
  · exact (pages _ mem).1 zero
  · exact (pages _ mem).2.2 isLive

end SnapshotWritten

/-- A written snapshot whose metadata is put into a slot is read back from there.  The
new lists hold the pages of the old ones and the pages that the file was extended by. -/
theorem writeFreeListSnapshot_readSlot {slot : Nat} {final : Disk ν}
    (owns : managed.pm.Owns live) (sized : Sized managed.disk.bytes)
    (held : managed.pm.nextPageID - 1 ≤ pagesOf managed.disk.bytes.length)
    (root : rootPageID = 0 ∨ rootPageID ∈ live) (smallGeneration : generation < 2 ^ 64)
    (isSlot : slot < metadataSlotCount)
    (run : writeFreeListSnapshot generation rootPageID managed = .ok metadata last)
    (put : writeRootMetadataSlot slot metadata last.disk = .ok () final) :
    readRootMetadataSlot (.ofBytes final.bytes) slot = .ok metadata ∧
      metadata.generation = generation ∧ metadata.rootPageID = rootPageID ∧
      metadata.pageCount = last.pm.nextPageID - 1 ∧ metadata.freePageIDs = last.pm.freePageIDs ∧
      metadata.retiredPageIDs = last.pm.retiredPageIDs ∧
      metadata.freeListPageIDs = last.pm.freeListPageIDs ∧
      (last.pm.freePageIDs ++ last.pm.retiredPageIDs ++ last.pm.freeListPageIDs).Perm
        (managed.pm.listed ++ List.range' managed.pm.nextPageID
          (last.pm.nextPageID - managed.pm.nextPageID)) := by
  have written := writeFreeListSnapshot_ok owns run
  have consistent := written.consistent held sized owns root smallGeneration
  have counted := written.counted held
  have sizedLast := written.wrote.sized sized
  have slotWritten : SlotWritten last.disk.bytes slot metadata final.bytes := by
    rw [(Disk.writeAt_ok put).2, Disk.bytes_write, List.take_length]
    exact sizedLast.writeAt_slot isSlot metadata
  have next := written.nextPageID_eq
  have pm_eq := written.pm_eq
  have metadata_eq := written.metadata_eq
  refine ⟨slotWritten.readSlot consistent sizedLast isSlot ?_ counted, ?_, ?_, written.pageCount_eq,
    ?_, ?_, ?_, ?_⟩
  · rw [metadata_eq]
    exact written.list
  · rw [metadata_eq]
    rfl
  · rw [metadata_eq]
    rfl
  · rw [metadata_eq, pm_eq]
    rfl
  · rw [metadata_eq, pm_eq]
    rfl
  · rw [metadata_eq, pm_eq]
    rfl
  · rw [next, Nat.add_sub_cancel_left, pm_eq]
    exact List.perm_append_comm.trans (managed.pm.nodePageIDs_append_entries managed.disk.view)

/-- The node of a list with a single page. -/
theorem storable_single : FreeListNode.Storable ⟨0, 0, [1]⟩ := by
  constructor <;> decide

/-- A page that was freed in the update is protected by the new list, which gets a page
of its own. -/
theorem writeFreeListSnapshot_readSlot_pending :
    ∃ (last : Managed Unit) (final : Disk Unit) (metadata : RootMetadata), writeFreeListSnapshot 1 0
        ⟨{ PageManager.onFile 2 with pendingFreePageIDs := [1] },
          ⟨zeros (metadataSize + pageSize), [], .none⟩⟩ = .ok metadata last ∧
      last.pm.retiredPageIDs = [1] ∧ last.pm.freeListPageIDs = [2] ∧
      readRootMetadataSlot (.ofBytes final.bytes) 1 = .ok metadata := by
  let managed : Managed Unit := ⟨{ PageManager.onFile 2 with pendingFreePageIDs := [1] },
    ⟨zeros (metadataSize + pageSize), [], .none⟩⟩
  have owns : managed.pm.Owns [] := ⟨by decide, by decide, by decide, rfl⟩
  have size : managed.disk.bytes.length = metadataSize + pageSize := length_zeros _
  have sized : Sized managed.disk.bytes := ⟨by rw [size]; decide, by rw [size]; decide⟩
  have held : managed.pm.nextPageID - 1 ≤ pagesOf managed.disk.bytes.length := by
    rw [size]
    decide
  let extended : Managed Unit := { managed with pm := { managed.pm with nextPageID := 3 } }
  have valid : extended.pm.validateExistingPageID 2 = .ok () := by decide
  have offset : dataPageOffset 2 = .ok (pageOffset 2) := by decide
  have fits : pageOffset 2 + pageSize ≤ maxFileSize := by decide
  obtain ⟨last, nodes⟩ : ∃ last, writeFreeListNodes [1] 0 [2] extended = .ok () last := by
    have page := writePage_none valid storable_single.length_page offset fits
    exact ⟨_, (lift_bind_of_ok storable_single.encode_eq _).trans
      ((get_bind_apply _ _).trans (bind_of_ok page))⟩
  have plan : managed.pm.freeListPlan managed.disk.view = ⟨1, [], [], [1]⟩ := by
    have total : managed.pm.totalEntries = 1 := rfl
    have old : managed.pm.recyclable managed.disk.view = [] := rfl
    have counts : freeListCounts 1 0 = (1, 0) := by decide
    rw [PageManager.freeListPlan, total, old]
    simp only [List.length_nil, counts]
    rfl
  have run : writeFreeListSnapshot 1 0 managed =
      .ok ((install ⟨1, [], [], [1]⟩ [2] last).snapshotMetadata 1 0 ⟨1, [], [], [1]⟩ [2])
        (install ⟨1, [], [], [1]⟩ [2] last) := by
    have fresh : extendPages 1 (managed.takeReused []) = .ok [2] extended := rfl
    rw [writeFreeListSnapshot, get_bind_apply, set_bind_apply, plan]
    exact (bind_of_ok fresh).trans (bind_of_ok nodes)
  have noFault : (install ⟨1, [], [], [1]⟩ [2] last).disk.faults.slotWrite = none := by
    rw [(writeFreeListSnapshot_ok owns run).wrote.faults]
    rfl
  generalize (install ⟨1, [], [], [1]⟩ [2] last).snapshotMetadata 1 0 ⟨1, [], [], [1]⟩ [2] =
    metadata at run
  have put := writeRootMetadataSlot_none (show 1 < metadataSlotCount by decide) metadata noFault
  exact ⟨_, _, _, run, rfl, rfl, (writeFreeListSnapshot_readSlot owns sized held (.inl rfl)
    (by decide) (by decide) run put).1⟩

end Managed

end GoDatabase
