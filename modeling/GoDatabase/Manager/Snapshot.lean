import GoDatabase.Manager.Metadata
import Mathlib.Data.List.Perm.Subperm

/-!
# Writing the free list and publishing

`writeFreeListSnapshot` of `internal/btree/page_manager.go`: a commit writes the lists of
reusable and of protected pages to pages of their own.  Old free-list pages among the
reusable ones are taken first, further pages extend the file.  Taking a page also removes
an entry, so the number of pages is searched for; where the search finds nothing, the
list is written without taking old pages.
-/

namespace GoDatabase

open Library List

/-- A page manager with its file. -/
structure Managed (ν : Type) where
  pm : PageManager
  disk : Disk ν

namespace Managed

variable {ν α : Type}

/-- A file call of the page manager. -/
def onDisk (call : Fallible (Disk ν) α) : Fallible (Managed ν) α := fun managed =>
  match call managed.disk with
  | .ok value disk => .ok value { managed with disk := disk }
  | .error err disk => .error err { managed with disk := disk }

def writePage (fault : Option Nat) (pageID : Nat) (page : Bytes) : Fallible (Managed ν) Unit := do
  let managed ← get
  liftM (managed.pm.validateExistingPageID pageID)
  if page.length ≠ pageSize then
    throw (.wrap "%w: page size %d, want %d" [.int page.length, .int pageSize] errInvalidPageData)
  else
    let offset ← liftM (dataPageOffset pageID)
    onDisk (Disk.writeAt fault offset page)

end Managed

/-! ## The number of pages -/

/-- The loop over the candidates from `candidate` on. -/
def searchCandidates (totalEntries recyclable : Nat) :
    (remaining candidate : Nat) → Option (Nat × Nat)
  | 0, _ => none
  | remaining + 1, candidate =>
    let reused := if recyclable < candidate then recyclable else candidate
    let needed := (totalEntries - reused + freeListPageCapacity - 1) / freeListPageCapacity
    if needed = candidate then
      some (candidate, reused)
    else
      searchCandidates totalEntries recyclable remaining (candidate + 1)

/-- `nodeCount` and `reusedNodeCount` -/
def freeListCounts (totalEntries recyclable : Nat) : Nat × Nat :=
  if 0 < totalEntries then
    let maxNodes := (totalEntries + freeListPageCapacity - 1) / freeListPageCapacity
    match searchCandidates totalEntries recyclable maxNodes 1 with
    | some counts => counts
    | none => (maxNodes, 0)
  else
    (0, 0)

/-! ## The pages and their entries -/

/-- The pages that still hold an old part of the free list. -/
def recyclablePages (view : FileView) (eligible : List Nat) : List Nat :=
  eligible.filter fun pageID =>
    match readRawDataPage view pageID with
    | .error _ => false
    | .ok page =>
      match decodeFreeListNode page with
      | .error _ => false
      | .ok _ => true

def removePageID : List Nat → (target : Nat) → List Nat
  | [], _ => []
  | pageID :: rest, target => if pageID = target then rest else pageID :: removePageID rest target

/-- What `writeFreeListSnapshot` decides before it changes anything. -/
structure FreeListPlan where
  nodeCount : Nat
  /-- The old free-list pages that are taken again, in the order of their use. -/
  reused : List Nat
  eligible : List Nat
  protectedIDs : List Nat

def FreeListPlan.entries (plan : FreeListPlan) : List Nat := plan.eligible ++ plan.protectedIDs

namespace PageManager

/-- The number of entries before any page is taken. -/
def totalEntries (pm : PageManager) : Nat :=
  (pm.freePageIDs ++ pm.retiredPageIDs).length +
    (pm.pendingFreePageIDs ++ pm.freeListPageIDs).length

def recyclable (pm : PageManager) (view : FileView) : List Nat :=
  recyclablePages view (pm.freePageIDs ++ pm.retiredPageIDs)

/-- The old pages are taken from the end of `recyclable`. -/
def freeListPlan (pm : PageManager) (view : FileView) : FreeListPlan :=
  let counts := freeListCounts pm.totalEntries (pm.recyclable view).length
  let reused := (pm.recyclable view).reverse.take counts.2
  { nodeCount := counts.1
    reused := reused
    eligible := reused.foldl removePageID (pm.freePageIDs ++ pm.retiredPageIDs)
    protectedIDs := pm.pendingFreePageIDs ++ pm.freeListPageIDs }

end PageManager

/-- `entries[start:end]` for the page with number `i`. -/
def nodeEntries (entries : List Nat) (i : Nat) : List Nat :=
  (entries.drop (i * freeListPageCapacity)).take freeListPageCapacity

namespace Managed

variable {ν : Type}

/-- Extend the file by the pages that are still missing. -/
def extendPages : (count : Nat) → Fallible (Managed ν) (List Nat)
  | 0 => pure []
  | count + 1 => do
    let managed ← get
    let pageID := managed.pm.nextPageID
    let _ ← liftM (dataPageOffset pageID)
    set { managed with pm := { managed.pm with nextPageID := pageID + 1 } }
    let rest ← extendPages count
    return pageID :: rest

/-- The loop that writes the pages, from the page with number `i` on.  A failing
`beforeFreeListWrite` is a write that fails without having written anything. -/
def writeFreeListNodes (entries : List Nat) : (i : Nat) → List Nat → Fallible (Managed ν) Unit
  | _, [] => pure ()
  | i, pageID :: rest => do
    let page ← liftM (encodeFreeListNode
      ⟨rest.headD 0, i * freeListPageCapacity, nodeEntries entries i⟩)
    let managed ← get
    writePage (managed.disk.faults.freeListWrite pageID) pageID page
    writeFreeListNodes entries (i + 1) rest

/-- The page manager gives up the taken pages before anything can fail. -/
def takeReused (reused : List Nat) (managed : Managed ν) : Managed ν :=
  { managed with pm := { managed.pm with
      freePageSet := reused.foldl Finset.erase managed.pm.freePageSet } }

/-- The new lists, after their pages were written. -/
def install (plan : FreeListPlan) (nodePageIDs : List Nat) (managed : Managed ν) : Managed ν :=
  { managed with pm := { managed.pm with
      freePageIDs := plan.eligible
      retiredPageIDs := plan.protectedIDs
      freeListPageIDs := nodePageIDs } }

/-- The metadata for the new lists. -/
def snapshotMetadata (generation rootPageID : Nat) (plan : FreeListPlan) (nodePageIDs : List Nat)
    (managed : Managed ν) : RootMetadata where
  generation := generation
  rootPageID := rootPageID
  pageCount := managed.pm.nextPageID - 1
  freeListHeadPageID := nodePageIDs.headD 0
  freeListTailPageID := nodePageIDs.getLastD 0
  headSequence := 0
  tailSequence := plan.entries.length
  maxSequence := plan.eligible.length
  freePageIDs := plan.eligible
  retiredPageIDs := plan.protectedIDs
  freeListPageIDs := nodePageIDs

def writeFreeListSnapshot (generation rootPageID : Nat) :
    Fallible (Managed ν) RootMetadata := do
  let managed ← get
  let plan := managed.pm.freeListPlan managed.disk.view
  set (managed.takeReused plan.reused)
  let fresh ← extendPages (plan.nodeCount - plan.reused.length)
  let nodePageIDs := plan.reused ++ fresh
  writeFreeListNodes plan.entries 0 nodePageIDs
  modify (install plan nodePageIDs)
  let managed ← get
  return managed.snapshotMetadata generation rootPageID plan nodePageIDs

/-! ## Publishing a root

`publishRoot`: the free list of the next generation is written and synced before the metadata
slot, and the page manager moves on only when the slot is synced too.  On an error its lists
may have changed already; the caller restores them. -/

/-- The checks of the root before anything is written. -/
def checkRoot (pm : PageManager) (rootPageID : Nat) : Except GoError Unit := do
  if rootPageID ≠ 0 then
    pm.validateExistingPageID rootPageID
  if rootPageID ≠ 0 ∧ (rootPageID ∈ pm.retiredPageIDs ∨ rootPageID ∈ pm.pendingFreePageIDs) then
    .error (.wrap "%w: root page %d is marked obsolete" [.int rootPageID] errInvalidPageID)
  else if rootPageID ∈ pm.freeListPageIDs then
    .error (.wrap "%w: root page %d stores the active free list" [.int rootPageID] errInvalidPageID)
  else
    .ok ()

/-- The page manager after the metadata was synced. -/
def commit (metadata : RootMetadata) (managed : Managed ν) : Managed ν :=
  { managed with pm := { managed.pm with
      rootPageID := metadata.rootPageID
      generation := metadata.generation
      committedPageCount := metadata.pageCount
      pendingFreePageIDs := []
      freePageSet := managed.pm.freePageIDs.toFinset } }

/-- A failing `beforeWrite` is a sync of the free list that fails. -/
def publishRoot (rootPageID : Nat) : Fallible (Managed ν) Unit := do
  let managed ← get
  liftM (checkRoot managed.pm rootPageID)
  let nextGeneration := (managed.pm.generation + 1) % 2 ^ 64
  let metadata ← writeFreeListSnapshot nextGeneration rootPageID
  onDisk (Disk.sync managed.disk.faults.syncFreeList)
  onDisk (writeRootMetadataSlot (nextGeneration % metadataSlotCount) metadata)
  onDisk (Disk.sync managed.disk.faults.syncMetadata)
  modify (commit metadata)

end Managed

/-! ## The sizes fit -/

theorem length_nodeEntries_le (entries : List Nat) (i : Nat) :
    (nodeEntries entries i).length ≤ freeListPageCapacity := by
  rw [nodeEntries, length_take]
  exact Nat.min_le_left _ _

theorem flatMap_range_nodeEntries (entries : List Nat) (nodes : Nat) :
    (List.range nodes).flatMap (nodeEntries entries) =
      entries.take (nodes * freeListPageCapacity) := by
  induction nodes with
  | zero => rw [Nat.zero_mul, take_zero, range_zero, flatMap_nil]
  | succ nodes ih =>
    rw [range_succ, flatMap_append, ih, flatMap_singleton, nodeEntries,
      Nat.succ_mul, take_add]

/-- The entries that are left fill the pages, none of which is empty. -/
structure ExactCounts (entries recyclable nodes reused : Nat) : Prop where
  reused_le : reused ≤ min nodes recyclable
  left : 1 ≤ entries - reused
  filled : (nodes - 1) * freeListPageCapacity < entries - reused
  fits : entries - reused ≤ nodes * freeListPageCapacity

/-- A number of pages that is rounded up is exact. -/
theorem ceil_capacity {count nodes : Nat} (some : 1 ≤ count ∨ 1 ≤ nodes)
    (rounded : (count + freeListPageCapacity - 1) / freeListPageCapacity = nodes) :
    1 ≤ count ∧ (nodes - 1) * freeListPageCapacity < count ∧
      count ≤ nodes * freeListPageCapacity := by
  have capacity : freeListPageCapacity = 508 := rfl
  rw [capacity] at rounded ⊢
  omega

theorem searchCandidates_exact {entries recyclable : Nat} :
    ∀ (remaining candidate : Nat) (counts : Nat × Nat), 1 ≤ candidate →
      searchCandidates entries recyclable remaining candidate = some counts →
      ExactCounts entries recyclable counts.1 counts.2 := by
  intro remaining
  induction remaining with
  | zero => exact fun _ _ _ none => nomatch none
  | succ remaining ih =>
    intro candidate counts positive found
    rw [searchCandidates] at found
    split_ifs at found with few needed needed
    · -- All recyclable pages are taken.
      obtain rfl := Option.some.inj found
      obtain ⟨left, filled, fits⟩ := ceil_capacity (.inr positive) needed
      exact ⟨by simp only; omega, left, filled, fits⟩
    · exact ih (candidate + 1) counts (by omega) found
    · obtain rfl := Option.some.inj found
      obtain ⟨left, filled, fits⟩ := ceil_capacity (.inr positive) needed
      exact ⟨by simp only; omega, left, filled, fits⟩
    · exact ih (candidate + 1) counts (by omega) found

theorem freeListCounts_exact {entries recyclable : Nat} (some : 1 ≤ entries) :
    ExactCounts entries recyclable (freeListCounts entries recyclable).1
      (freeListCounts entries recyclable).2 := by
  rw [freeListCounts, if_pos (show 0 < entries from some)]
  dsimp only
  cases search : searchCandidates entries recyclable
      ((entries + freeListPageCapacity - 1) / freeListPageCapacity) 1 with
  | some counts => exact searchCandidates_exact _ 1 counts (Nat.le_refl _) search
  | none =>
    obtain ⟨-, filled, fits⟩ := ceil_capacity (.inl some) rfl
    exact ⟨Nat.zero_le _, some, filled, fits⟩

namespace ExactCounts

variable {total recyclable nodes reused : Nat} {entries : List Nat}

variable {i : Nat}

section

variable (exact_ : ExactCounts total recyclable nodes reused)
  (count : entries.length = total - reused)
include exact_ count

/-- Every page begins inside of the entries. -/
theorem start_lt (isNode : i < nodes) : i * freeListPageCapacity < entries.length := by
  have before := @Nat.mul_le_mul_right i (nodes - 1) freeListPageCapacity (by omega)
  have filled := exact_.filled
  omega

theorem nodeEntries_pos (isNode : i < nodes) : 1 ≤ (nodeEntries entries i).length := by
  have inside := exact_.start_lt count isNode
  have capacity : freeListPageCapacity = 508 := rfl
  rw [nodeEntries, length_take, length_drop]
  omega

/-- The pages hold all entries. -/
theorem flatMap_nodeEntries : (List.range nodes).flatMap (nodeEntries entries) = entries := by
  have fits := exact_.fits
  rw [← count] at fits
  rw [flatMap_range_nodeEntries, take_of_length_le fits]

end

end ExactCounts

/-! ## The plan -/

theorem removePageID_eq (pageIDs : List Nat) (target : Nat) :
    removePageID pageIDs target = pageIDs.erase target := by
  induction pageIDs with
  | nil => rfl
  | cons pageID rest ih =>
    rw [removePageID, erase_cons, ih]
    simp only [beq_iff_eq]

theorem foldl_removePageID (pageIDs targets : List Nat) :
    targets.foldl removePageID pageIDs = pageIDs.diff targets := by
  rw [diff_eq_foldl]
  congr 1
  funext list target
  exact removePageID_eq list target

namespace PageManager

variable (pm : PageManager) (view : FileView)

theorem reused_subperm :
    (pm.freeListPlan view).reused.Subperm (pm.freePageIDs ++ pm.retiredPageIDs) := by
  have taken : (pm.freeListPlan view).reused.Sublist (pm.recyclable view).reverse :=
    take_sublist _ _
  have kept : (pm.recyclable view).Sublist (pm.freePageIDs ++ pm.retiredPageIDs) :=
    filter_sublist
  exact taken.subperm.trans ((reverse_perm _).subperm.trans kept.subperm)

/-- The pages that are taken and those that stay are the eligible pages. -/
theorem reused_append_eligible :
    ((pm.freeListPlan view).reused ++ (pm.freeListPlan view).eligible).Perm
      (pm.freePageIDs ++ pm.retiredPageIDs) := by
  have rest : (pm.freeListPlan view).eligible =
      (pm.freePageIDs ++ pm.retiredPageIDs).diff (pm.freeListPlan view).reused :=
    foldl_removePageID _ _
  rw [rest]
  exact subperm_append_diff_self_of_count_le
    (subperm_ext_iff.mp (pm.reused_subperm view))

theorem length_reused (some : 1 ≤ pm.totalEntries) : (pm.freeListPlan view).reused.length =
      (freeListCounts pm.totalEntries (pm.recyclable view).length).2 := by
  have few := (@freeListCounts_exact pm.totalEntries (pm.recyclable view).length some).reused_le
  simp only [freeListPlan, length_take, length_reverse]
  omega

/-- The counts of the plan fit, if there is anything to write. -/
theorem freeListPlan_exact (some : 1 ≤ pm.totalEntries) :
    ExactCounts pm.totalEntries (pm.recyclable view).length (pm.freeListPlan view).nodeCount
      (pm.freeListPlan view).reused.length := by
  rw [pm.length_reused view some]
  exact freeListCounts_exact some

theorem length_entries : (pm.freeListPlan view).entries.length =
      pm.totalEntries - (pm.freeListPlan view).reused.length := by
  have total := (pm.reused_append_eligible view).length_eq
  have others : (pm.freeListPlan view).protectedIDs =
      pm.pendingFreePageIDs ++ pm.freeListPageIDs := rfl
  rw [length_append] at total
  rw [FreeListPlan.entries, length_append, totalEntries, others]
  omega

/-- Without entries there are no pages. -/
theorem freeListPlan_none (none : pm.totalEntries = 0) :
    (pm.freeListPlan view).nodeCount = 0 ∧ (pm.freeListPlan view).reused = [] := by
  simp only [freeListPlan, none, freeListCounts, Nat.lt_irrefl, ↓reduceIte, take_zero,
    and_self]

end PageManager

/-! ## The errors of writing -/

/-- Not the error for a page with too few or too many entries. -/
def NotEntryCount (err : GoError) : Prop :=
  ∀ count : Nat, err ≠ .wrap "%w: free-list entry count %d" [.int count] errInvalidPageData

theorem putPageIDs_error : ∀ (pageIDs : List Nat) (page : Bytes) (pos : Nat) (err : GoError),
    putPageIDs page pos pageIDs = .error err →
      err = .wrap "%w: free-list page id is zero" [] errInvalidPageData := by
  intro pageIDs
  induction pageIDs with
  | nil => exact fun _ _ _ failed => nomatch failed
  | cons pageID rest ih =>
    intro page pos err failed
    rw [putPageIDs] at failed
    split_ifs at failed
    · exact (Except.error.inj failed).symm
    · exact ih _ _ err failed

variable {err : GoError} {pageID : Nat}

theorem encodeFreeListNode_error {node : FreeListNode} (some : 1 ≤ node.pageIDs.length)
    (fits : node.pageIDs.length ≤ freeListPageCapacity)
    (failed : encodeFreeListNode node = .error err) : NotEntryCount err := by
  rw [encodeFreeListNode, if_neg (by omega)] at failed
  dsimp only at failed
  intro count
  cases ids : putPageIDs
      (writeLE (writeLE
        (writeLE (writeLE (patch (zeros pageSize) 0 freeListMagic) freeListVersionOffset 2
          freeListVersion) freeListCountOffset 2 node.pageIDs.length)
      freeListNextOffset 8 node.nextPageID) freeListSequenceOffset 8 node.sequence)
      freeListHeaderSize node.pageIDs with
  | ok page =>
    rw [ids] at failed
    cases failed
  | error other =>
    rw [ids] at failed
    obtain rfl : other = err := Except.error.inj failed
    rw [putPageIDs_error _ _ _ _ ids]
    simp

theorem dataPageOffset_error (failed : dataPageOffset pageID = .error err) : NotEntryCount err := by
  intro count
  rw [dataPageOffset] at failed
  split_ifs at failed
  · rw [← Except.error.inj failed]
    simp
  · rw [← Except.error.inj failed]
    simp

theorem validateExistingPageID_error {pm : PageManager}
    (failed : pm.validateExistingPageID pageID = .error err) : NotEntryCount err := by
  intro count
  rw [PageManager.validateExistingPageID] at failed
  split_ifs at failed
  · rw [← Except.error.inj failed]
    simp
  · rw [← Except.error.inj failed]
    simp

namespace Managed

open Fallible

variable {ν : Type}

theorem onDisk_writeAt_errors (fault : Option Nat) (pos : Nat) (data : Bytes) :
    ErrorsIn NotEntryCount (onDisk (Disk.writeAt fault pos data) : Fallible (Managed ν) Unit) := by
  intro managed err last failed count
  have isFile : err = errFile := by
    rw [onDisk] at failed
    cases write : Disk.writeAt fault pos data managed.disk with
    | ok value disk =>
      rw [write] at failed
      cases failed
    | error other disk =>
      rw [write] at failed
      cases failed
      exact (Disk.writeAt_error write).1
  rw [isFile]
  exact fun same => nomatch same

theorem writePage_errors (fault : Option Nat) (pageID : Nat) (page : Bytes) :
    ErrorsIn NotEntryCount (writePage fault pageID page : Fallible (Managed ν) Unit) := by
  refine ErrorsIn.get_bind fun managed => ErrorsIn.bind
    (ErrorsIn.lift fun err failed => validateExistingPageID_error failed) fun _ _ _ _ => ?_
  split_ifs
  · exact ErrorsIn.throw fun count => by simp
  · exact ErrorsIn.bind (ErrorsIn.lift fun err failed => dataPageOffset_error failed)
      fun _ offset _ _ => onDisk_writeAt_errors fault offset page

theorem extendPages_errors (count : Nat) :
    ErrorsIn NotEntryCount (extendPages count : Fallible (Managed ν) (List Nat)) := by
  induction count with
  | zero => exact ErrorsIn.pure _
  | succ count ih =>
    refine ErrorsIn.get_bind fun managed => ErrorsIn.bind
      (ErrorsIn.lift fun err failed => dataPageOffset_error failed) fun _ _ _ _ => ?_
    exact ErrorsIn.set_bind (ErrorsIn.bind ih fun _ _ _ _ => ErrorsIn.pure _)

theorem writeFreeListNodes_errors {entries : List Nat} : ∀ (pages : List Nat) (i : Nat),
    (∀ j < i + pages.length, 1 ≤ (nodeEntries entries j).length) →
    ErrorsIn NotEntryCount (writeFreeListNodes entries i pages : Fallible (Managed ν) Unit) := by
  intro pages
  induction pages with
  | nil => exact fun _ _ => ErrorsIn.pure _
  | cons pageID rest ih =>
    intro i filled
    rw [length_cons] at filled
    refine ErrorsIn.bind (ErrorsIn.lift fun err failed => ?_) fun _ page _ _ =>
      ErrorsIn.get_bind fun managed => ErrorsIn.bind (writePage_errors _ pageID page) fun _ _ _ _ =>
        ih (i + 1) fun j inside => filled j (by omega)
    exact encodeFreeListNode_error (filled i (by omega)) (length_nodeEntries_le entries i) failed

/-- The new pages are the next ones of the file. -/
theorem extendPages_ok : ∀ (count : Nat) (managed last : Managed ν) (pages : List Nat),
    extendPages count managed = .ok pages last → pages = List.range' managed.pm.nextPageID count ∧
      last = { managed with pm := { managed.pm with
        nextPageID := managed.pm.nextPageID + count } } := by
  intro count
  induction count with
  | zero =>
    intro managed last pages run
    cases run
    exact ⟨rfl, rfl⟩
  | succ count ih =>
    intro managed last pages run
    rw [extendPages, get_bind_apply] at run
    obtain ⟨offset, checked, run⟩ := exists_of_lift_bind_ok run
    rw [set_bind_apply] at run
    obtain ⟨rest, after, more, run⟩ := exists_of_bind_ok run
    cases run
    obtain ⟨rfl, rfl⟩ := ih _ _ _ more
    refine ⟨rfl, ?_⟩
    simp only [Nat.add_assoc, Nat.add_comm 1 count]

theorem writeFreeListSnapshot_errors (generation rootPageID : Nat) : ErrorsIn NotEntryCount
      (writeFreeListSnapshot generation rootPageID : Fallible (Managed ν) RootMetadata) := by
  refine ErrorsIn.get_bind fun managed => ErrorsIn.set_bind ?_
  refine ErrorsIn.bind (extendPages_errors _) fun before fresh _ extended => ?_
  obtain ⟨rfl, -⟩ := extendPages_ok _ _ _ _ extended
  refine ErrorsIn.bind (writeFreeListNodes_errors _ _ fun j inside => ?_) fun _ _ _ _ =>
    ErrorsIn.modify_bind (ErrorsIn.get_bind fun _ => ErrorsIn.pure _)
  rw [Nat.zero_add, length_append, length_range'] at inside
  by_cases some : 1 ≤ managed.pm.totalEntries
  · have counts := managed.pm.freeListPlan_exact managed.disk.view some
    have few := counts.reused_le
    exact counts.nodeEntries_pos (managed.pm.length_entries managed.disk.view) (by omega)
  · obtain ⟨noNodes, noReused⟩ :=
      managed.pm.freeListPlan_none managed.disk.view (by omega)
    rw [noNodes, noReused] at inside
    exact absurd inside (Nat.not_lt_zero _)

end Managed

/-- The search for the number of free-list pages, whether it finds a candidate or not:
every page gets at least one and at most a page full of entries, and all entries have a
page.  Writing the list never meets a page of another size. -/
theorem freeListCounts_spec {total : Nat} (recyclable : Nat) (some : 1 ≤ total) :
    ExactCounts total recyclable (freeListCounts total recyclable).1
        (freeListCounts total recyclable).2 ∧
      (∀ entries : List Nat, entries.length = total - (freeListCounts total recyclable).2 →
        (∀ i < (freeListCounts total recyclable).1, i * freeListPageCapacity < entries.length ∧
          1 ≤ (nodeEntries entries i).length ∧
          (nodeEntries entries i).length ≤ freeListPageCapacity ∧ ∀ next sequence err,
            encodeFreeListNode ⟨next, sequence, nodeEntries entries i⟩ = .error err →
            NotEntryCount err) ∧
        (List.range (freeListCounts total recyclable).1).flatMap (nodeEntries entries) = entries) ∧
      ∀ {ν : Type} (managed : Managed ν), managed.pm.totalEntries = total →
        (managed.pm.recyclable managed.disk.view).length = recyclable →
        (managed.pm.freeListPlan managed.disk.view).nodeCount =
            (freeListCounts total recyclable).1 ∧
          (managed.pm.freeListPlan managed.disk.view).reused.length =
            (freeListCounts total recyclable).2 ∧
          (managed.pm.freeListPlan managed.disk.view).entries.length =
            total - (freeListCounts total recyclable).2 ∧ ∀ generation rootPageID err last,
            Managed.writeFreeListSnapshot generation rootPageID managed = .error err last →
            NotEntryCount err := by
  have counts := @freeListCounts_exact total recyclable some
  refine ⟨counts, fun entries count => ⟨fun i isNode => ?_, counts.flatMap_nodeEntries count⟩, ?_⟩
  · have filled := counts.nodeEntries_pos count isNode
    have fits := length_nodeEntries_le entries i
    exact ⟨counts.start_lt count isNode, filled, fits, fun next sequence err failed =>
      encodeFreeListNode_error filled fits failed⟩
  · rintro ν managed rfl rfl
    have reused : (managed.pm.freeListPlan managed.disk.view).reused.length =
        (freeListCounts managed.pm.totalEntries
          (managed.pm.recyclable managed.disk.view).length).2 :=
      managed.pm.length_reused managed.disk.view some
    refine ⟨rfl, reused, ?_, fun generation rootPageID err last failed =>
      Managed.writeFreeListSnapshot_errors generation rootPageID managed err last failed⟩
    rw [← reused]
    exact managed.pm.length_entries managed.disk.view

/-- A single recyclable entry: no candidate is a fixed point, and the page is written
without taking the old one. -/
theorem freeListCounts_spec_single :
    freeListCounts 1 1 = (1, 0) ∧ ExactCounts 1 1 (freeListCounts 1 1).1 (freeListCounts 1 1).2 :=
  ⟨by decide, (freeListCounts_spec 1 (by decide)).1⟩

end GoDatabase
