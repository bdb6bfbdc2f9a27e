import GoDatabase.Page.Format
import Mathlib.Data.Finset.Dedup
import Mathlib.Data.Finset.Empty
import Mathlib.Data.Finset.Erase
import Mathlib.Data.List.Perm.Basic

/-!
# Page allocation

The in-memory half of `internal/btree/page_manager.go`: the page lists of a page
manager, reserving and freeing a page, and the snapshot that a failed update goes
back to.

`Owns` is the ownership invariant: the live pages and the four lists of the page
manager hold every page below `nextPageID` exactly once.
-/

namespace GoDatabase

open Library List

def metadataSlotCount : Nat := 2
def metadataSize : Nat := metadataSlotCount * pageSize

def errInvalidPageID : GoError := .sentinel "invalid page id"
def errInvalidPageData : GoError := .sentinel "invalid page data"

/-- The largest page whose offset does not overflow `int64`. -/
def maxPageID : Nat := (2 ^ 63 - 1 - metadataSize) / pageSize + 1

/-- The file offset of a data page. -/
def dataPageOffset (pageID : Nat) : Except GoError Nat :=
  if pageID = 0 then
    .error (.wrap "%w: %d" [.int pageID] errInvalidPageID)
  else if maxPageID < pageID then
    .error (.wrap "%w: %d overflows file offset" [.int pageID] errInvalidPageID)
  else
    .ok (metadataSize + (pageID - 1) * pageSize)

/-- The fields of a `pageManager` other than its file and its test hooks. -/
structure PageManager where
  nextPageID : Nat
  committedPageCount : Nat
  rootPageID : Nat
  generation : Nat
  freePageIDs : List Nat
  retiredPageIDs : List Nat
  pendingFreePageIDs : List Nat
  freePageSet : Finset Nat
  freeListPageIDs : List Nat
  deriving DecidableEq

/-- `&pageManager{file: file, nextPageID: nextPageID}` -/
def PageManager.onFile (nextPageID : Nat) : PageManager where
  nextPageID := nextPageID
  committedPageCount := 0
  rootPageID := 0
  generation := 0
  freePageIDs := []
  retiredPageIDs := []
  pendingFreePageIDs := []
  freePageSet := ∅
  freeListPageIDs := []

/-- `pageManagerState`: everything but the set, which `restore` rebuilds. -/
structure PageManagerState where
  nextPageID : Nat
  committedPageCount : Nat
  rootPageID : Nat
  generation : Nat
  freePageIDs : List Nat
  retiredPageIDs : List Nat
  pendingFreePageIDs : List Nat
  freeListPageIDs : List Nat
  deriving DecidableEq

namespace PageManager

def snapshot (pm : PageManager) : PageManagerState where
  nextPageID := pm.nextPageID
  committedPageCount := pm.committedPageCount
  rootPageID := pm.rootPageID
  generation := pm.generation
  freePageIDs := pm.freePageIDs
  retiredPageIDs := pm.retiredPageIDs
  pendingFreePageIDs := pm.pendingFreePageIDs
  freeListPageIDs := pm.freeListPageIDs

/-- Every field is replaced, so the receiver's old fields do not matter. -/
def restore (state : PageManagerState) : PageManager where
  nextPageID := state.nextPageID
  committedPageCount := state.committedPageCount
  rootPageID := state.rootPageID
  generation := state.generation
  freePageIDs := state.freePageIDs
  retiredPageIDs := state.retiredPageIDs
  pendingFreePageIDs := state.pendingFreePageIDs
  freePageSet := state.freePageIDs.toFinset
  freeListPageIDs := state.freeListPageIDs

def validateExistingPageID (pm : PageManager) (pageID : Nat) : Except GoError Unit :=
  if pageID = 0 ∨ pm.nextPageID ≤ pageID then
    .error (.wrap "%w: %d" [.int pageID] errInvalidPageID)
  else if pageID ∈ pm.freePageSet then
    .error (.wrap "%w: page %d is free" [.int pageID] errInvalidPageID)
  else
    .ok ()

/-- Take the last free page, or extend the file by one page. -/
def reservePage (pm : PageManager) : Except GoError (Nat × PageManager) :=
  match pm.freePageIDs.getLast? with
  | some pageID =>
    .ok (pageID, { pm with
      freePageIDs := pm.freePageIDs.dropLast
      freePageSet := pm.freePageSet.erase pageID })
  | none =>
    match dataPageOffset pm.nextPageID with
    | .error err => .error err
    | .ok _ => .ok (pm.nextPageID, { pm with nextPageID := pm.nextPageID + 1 })

def freePage (pm : PageManager) (pageID : Nat) : Except GoError PageManager :=
  match pm.validateExistingPageID pageID with
  | .error err => .error err
  | .ok () =>
    if pageID ∈ pm.freeListPageIDs then
      .error (.wrap "%w: page %d stores the active free list" [.int pageID] errInvalidPageID)
    else if pageID ∈ pm.retiredPageIDs ∨ pageID ∈ pm.pendingFreePageIDs then
      .error (.wrap "%w: page %d is already freed" [.int pageID] errInvalidPageID)
    else
      .ok { pm with pendingFreePageIDs := pm.pendingFreePageIDs ++ [pageID] }

/-! ## Ownership -/

/-- The pages that the page manager holds outside the tree. -/
def listed (pm : PageManager) : List Nat :=
  pm.freePageIDs ++ (pm.retiredPageIDs ++ (pm.pendingFreePageIDs ++ pm.freeListPageIDs))

/-- The live pages and the listed pages are the pages below `nextPageID`, each of
them once, and the free set mirrors the free list. -/
structure Owns (pm : PageManager) (live : List Nat) : Prop where
  positive : 0 < pm.nextPageID
  bounded : pm.nextPageID ≤ maxPageID + 1
  partition : (live ++ pm.listed).Perm (List.range' 1 (pm.nextPageID - 1))
  set_eq : pm.freePageSet = pm.freePageIDs.toFinset

namespace Owns

variable {pm : PageManager} {live : List Nat} (owns : pm.Owns live)
include owns

theorem perm {other : List Nat} (same : live.Perm other) : pm.Owns other where
  positive := owns.positive
  bounded := owns.bounded
  partition := (same.symm.append_right _).trans owns.partition
  set_eq := owns.set_eq

theorem nodup : (live ++ pm.listed).Nodup :=
  owns.partition.nodup_iff.mpr nodup_range'

theorem nodup_live : live.Nodup := owns.nodup.of_append_left

theorem nodup_listed : pm.listed.Nodup := owns.nodup.of_append_right

variable {pageID : Nat}

theorem mem_iff :
    (pageID ∈ live ∨ pageID ∈ pm.listed) ↔ 0 < pageID ∧ pageID < pm.nextPageID := by
  rw [← mem_append, owns.partition.mem_iff, mem_range'_1]
  have := owns.positive
  omega

theorem not_listed (isLive : pageID ∈ live) :
    pageID ∉ pm.listed := fun isListed =>
  disjoint_of_nodup_append owns.nodup isLive isListed

end Owns

variable {pageID : Nat}

theorem mem_listed {pm : PageManager} :
    pageID ∈ pm.listed ↔ pageID ∈ pm.freePageIDs ∨ pageID ∈ pm.retiredPageIDs ∨
      pageID ∈ pm.pendingFreePageIDs ∨ pageID ∈ pm.freeListPageIDs := by
  simp only [listed, mem_append]

/-- Pages that the allocator may still hand out. -/
def Available (pm : PageManager) (pageID : Nat) : Prop :=
  pageID ∈ pm.freePageIDs ∨ pm.nextPageID ≤ pageID

theorem Owns.not_available {pm : PageManager} {live : List Nat} (owns : pm.Owns live)
    (isLive : pageID ∈ live) : ¬ pm.Available pageID := by
  rintro (free | outside)
  · exact owns.not_listed isLive (mem_listed.mpr (.inl free))
  · have := (owns.mem_iff.mp (.inl isLive)).2
    omega

/-- One page manager results from another by handing out pages. -/
structure Extends (pm next : PageManager) : Prop where
  available : ∀ pageID, next.Available pageID → pm.Available pageID
  committed : next.committedPageCount = pm.committedPageCount
  root : next.rootPageID = pm.rootPageID
  generation : next.generation = pm.generation
  retired : next.retiredPageIDs = pm.retiredPageIDs
  pendingFree : next.pendingFreePageIDs = pm.pendingFreePageIDs
  freeList : next.freeListPageIDs = pm.freeListPageIDs

theorem Extends.refl (pm : PageManager) : pm.Extends pm :=
  ⟨fun _ available => available, rfl, rfl, rfl, rfl, rfl, rfl⟩

variable {next : PageManager}

theorem Extends.trans {pm middle : PageManager} (first : pm.Extends middle)
    (second : middle.Extends next) : pm.Extends next where
  available := fun pageID available => first.available pageID (second.available pageID available)
  committed := second.committed.trans first.committed
  root := second.root.trans first.root
  generation := second.generation.trans first.generation
  retired := second.retired.trans first.retired
  pendingFree := second.pendingFree.trans first.pendingFree
  freeList := second.freeList.trans first.freeList

/-- What reserving a page does: the page becomes live and is no longer available. -/
structure Reserved (pm : PageManager) (live : List Nat) (pageID : Nat) (next : PageManager) :
    Prop where
  owns : next.Owns (pageID :: live)
  fresh : pm.Available pageID
  taken : ¬ next.Available pageID
  extends_ : pm.Extends next

section

variable {pm : PageManager} {live : List Nat} (owns : pm.Owns live)
include owns

theorem reserved_of_free {front : List Nat} (shape : pm.freePageIDs = front ++ [pageID]) :
    Reserved pm live pageID { pm with
      freePageIDs := front
      freePageSet := pm.freePageSet.erase pageID } := by
  have nodup := owns.nodup_listed
  have mem : pageID ∈ pm.listed := mem_listed.mpr (.inl (by simp [shape]))
  have freeNodup : (front ++ [pageID]).Nodup := by
    rw [listed, shape] at nodup
    exact nodup.of_append_left
  have notFront : pageID ∉ front := fun inFront =>
    disjoint_of_nodup_append freeNodup inFront (mem_singleton_self _)
  refine ⟨⟨owns.positive, owns.bounded, ?_, ?_⟩, .inl (by simp [shape]), ?_, ?_⟩
  · refine List.Perm.trans ?_ owns.partition
    have moved := @List.perm_middle _ pageID (live ++ front)
      (pm.retiredPageIDs ++ (pm.pendingFreePageIDs ++ pm.freeListPageIDs))
    simpa only [listed, shape, append_assoc, cons_append, nil_append] using
      moved.symm
  · rw [owns.set_eq, shape]
    ext other
    simp only [Finset.mem_erase, mem_toFinset, mem_append, mem_singleton]
    constructor
    · rintro ⟨ne, inFront | same⟩
      · exact inFront
      · exact absurd same ne
    · exact fun inFront => ⟨fun same => notFront (same ▸ inFront), .inl inFront⟩
  · rintro (free | outside)
    · exact notFront free
    · have := (owns.mem_iff.mp (.inr mem)).2
      exact absurd outside (by simpa using this)
  · refine ⟨?_, rfl, rfl, rfl, rfl, rfl, rfl⟩
    rintro other (free | outside)
    · exact .inl (by simp [shape, show other ∈ front from free])
    · exact .inr outside

theorem reserved_of_next (bounded : pm.nextPageID ≤ maxPageID) :
    Reserved pm live pm.nextPageID { pm with nextPageID := pm.nextPageID + 1 } := by
  have positive := owns.positive
  refine ⟨⟨Nat.succ_pos _, by simpa using bounded, ?_, owns.set_eq⟩, .inr (Nat.le_refl _), ?_, ?_⟩
  · have range : List.range' 1 (pm.nextPageID + 1 - 1) =
        List.range' 1 (pm.nextPageID - 1) ++ [pm.nextPageID] := by
      rw [show pm.nextPageID + 1 - 1 = pm.nextPageID - 1 + 1 by omega, List.range'_concat]
      congr 2
      omega
    simp only [range]
    apply perm_cons_append_cons
    rw [append_nil]
    exact owns.partition
  · rintro (free | outside)
    · have := (owns.mem_iff.mp (.inr (mem_listed.mpr (.inl free)))).2
      omega
    · exact absurd outside (by simp)
  · refine ⟨?_, rfl, rfl, rfl, rfl, rfl, rfl⟩
    rintro other (free | outside)
    · exact .inl free
    · exact .inr (Nat.le_of_succ_le outside)

/-- Reserving a page fails only when the file has no more offsets. -/
theorem exhausted_of_reservePage {err : GoError} (failed : pm.reservePage = .error err) :
    maxPageID < pm.nextPageID := by
  rw [reservePage] at failed
  cases last : pm.freePageIDs.getLast? with
  | some lastID =>
    rw [last] at failed
    cases failed
  | none =>
    have positive := owns.positive
    by_contra bounded
    rw [last, dataPageOffset, if_neg (by omega), if_neg bounded] at failed
    cases failed

theorem reservePage_spec (reserved : pm.reservePage = .ok (pageID, next)) :
    Reserved pm live pageID next := by
  rw [reservePage] at reserved
  cases last : pm.freePageIDs.getLast? with
  | some lastID =>
    rw [last] at reserved
    obtain ⟨rfl, rfl⟩ : lastID = pageID ∧ _ = next := by simpa using reserved
    obtain ⟨front, shape⟩ := List.getLast?_eq_some_iff.mp last
    have front_eq : pm.freePageIDs.dropLast = front := by rw [shape, dropLast_concat]
    rw [front_eq]
    exact reserved_of_free owns shape
  | none =>
    rw [last] at reserved
    by_cases bounded : pm.nextPageID ≤ maxPageID
    · have offset : dataPageOffset pm.nextPageID =
          .ok (metadataSize + (pm.nextPageID - 1) * pageSize) := by
        have positive := owns.positive
        rw [dataPageOffset, if_neg (by omega), if_neg (by omega)]
      rw [offset] at reserved
      obtain ⟨rfl, rfl⟩ : pm.nextPageID = pageID ∧ _ = next := by simpa using reserved
      exact reserved_of_next owns bounded
    · have positive := owns.positive
      rw [dataPageOffset, if_neg (by omega), if_pos (by omega)] at reserved
      cases reserved

end

/-- A live page can be freed. -/
theorem freePage_live {pm : PageManager} {live : List Nat} (owns : pm.Owns (pageID :: live)) :
    pm.freePage pageID =
        .ok { pm with pendingFreePageIDs := pm.pendingFreePageIDs ++ [pageID] } ∧
      PageManager.Owns { pm with pendingFreePageIDs := pm.pendingFreePageIDs ++ [pageID] }
        live := by
  have isLive : pageID ∈ pageID :: live := mem_cons_self ..
  have range := owns.mem_iff.mp (.inl isLive)
  have unlisted := owns.not_listed isLive
  simp only [mem_listed, not_or] at unlisted
  obtain ⟨notFree, notRetired, notPending, notNode⟩ := unlisted
  constructor
  · have notInSet : pageID ∉ pm.freePageSet := by
      rw [owns.set_eq, mem_toFinset]
      exact notFree
    rw [freePage, validateExistingPageID, if_neg (by omega), if_neg notInSet]
    simp only
    rw [if_neg notNode, if_neg (by simp [notRetired, notPending])]
  · refine ⟨owns.positive, owns.bounded, ?_, owns.set_eq⟩
    refine List.Perm.trans ?_ owns.partition
    have moved := @List.perm_middle _ pageID
      (live ++ (pm.freePageIDs ++ (pm.retiredPageIDs ++ pm.pendingFreePageIDs))) pm.freeListPageIDs
    simpa only [listed, append_assoc, cons_append, nil_append] using moved

/-- A page manager without pages owns nothing. -/
theorem owns_onFile : (onFile 1).Owns [] := ⟨Nat.one_pos, by decide, .refl _, rfl⟩

theorem restore_snapshot {pm : PageManager} (set_eq : pm.freePageSet = pm.freePageIDs.toFinset) :
    restore pm.snapshot = pm := by
  simp only [restore, snapshot, ← set_eq]

end PageManager

end GoDatabase
