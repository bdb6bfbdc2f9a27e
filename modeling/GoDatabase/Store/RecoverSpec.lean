import GoDatabase.Store.LoaderSpec
import GoDatabase.Store.Recover

/-!
# What recovery establishes

A recovered page manager owns every page of the file exactly once: the pages of the loaded
tree, the pages of its lists, and the orphans that nobody claimed.
-/

namespace GoDatabase

open Library BNode
open List

/-! ## Claims -/

section Claims

variable {nextPageID : Nat} {owner : String}

variable {owners : Owners} {pageID : Nat}

theorem claim_ok {last : Owners} (run : claim nextPageID owner owners pageID = .ok last) :
    (pageID ≠ 0 ∧ pageID < nextPageID) ∧ pageID ∉ owners ∧ last = owners.insert pageID owner := by
  rw [claim, guard_eq_ok, not_or, Nat.not_le] at run
  obtain ⟨range, run⟩ := run
  cases found : owners.lookup pageID with
  | some previous =>
    rw [found] at run
    cases run
  | none =>
    rw [found] at run
    exact ⟨range, AList.lookup_eq_none.mp found, (Except.ok.inj run).symm⟩

/-- Pages that were claimed are different pages of the file without an earlier owner. -/
theorem claims_sound : ∀ {pageIDs : List Nat} {owners last : Owners},
    pageIDs.foldlM (claim nextPageID owner) owners = .ok last →
    (∀ pageID ∈ pageIDs, pageID ≠ 0 ∧ pageID < nextPageID) ∧
      last.keys.Perm (pageIDs ++ owners.keys) := by
  intro pageIDs
  induction pageIDs with
  | nil =>
    intro owners last run
    cases run
    exact ⟨nofun, .refl _⟩
  | cons pageID rest ih =>
    intro owners last run
    rw [foldlM_cons, bind_ok_iff] at run
    obtain ⟨middle, first, run⟩ := run
    obtain ⟨range, absent, rfl⟩ := claim_ok first
    obtain ⟨ranges, keys⟩ := ih run
    refine ⟨forall_mem_cons.mpr ⟨range, ranges⟩, ?_⟩
    rw [Gains.keys_insert absent] at keys
    exact keys.trans perm_middle

end Claims

/-! ## Ownership -/

/-- The pages of the file that are not among the given ones. -/
def orphans (nextPageID : Nat) (owned : List Nat) : List Nat :=
  (List.range' 1 (nextPageID - 1)).filter fun pageID => pageID ∉ owned

/-- Owned pages and orphans are all pages. -/
theorem append_orphans_perm {nextPageID : Nat} {owned : List Nat} (nodup : owned.Nodup)
    (inside : ∀ pageID ∈ owned, pageID ≠ 0 ∧ pageID < nextPageID) :
    (owned ++ orphans nextPageID owned).Perm (List.range' 1 (nextPageID - 1)) := by
  have members : ((List.range' 1 (nextPageID - 1)).filter fun pageID => pageID ∈ owned).Perm
    owned := by
    refine (perm_ext_iff_of_nodup (List.Nodup.filter _ nodup_range') nodup).mpr fun pageID => ?_
    rw [mem_filter, mem_range'_1, decide_eq_true_eq]
    refine ⟨And.right, fun mem => ⟨?_, mem⟩⟩
    have range := inside pageID mem
    omega
  have split := filter_append_perm (fun pageID => decide (pageID ∈ owned))
    (List.range' 1 (nextPageID - 1))
  refine (members.symm.append_right _).trans ?_
  simpa only [orphans, decide_not] using split

/-- Everything that has an owner before the orphans are handed out. -/
def PageManager.claimed (pm : PageManager) (live : List Nat) : List Nat :=
  pm.freeListPageIDs ++ (pm.retiredPageIDs ++ (pm.freePageIDs ++ live))

/-- The page manager after its orphans were handed to the next commit. -/
def PageManager.adopt (pm : PageManager) (live : List Nat) : PageManager :=
  { pm with pendingFreePageIDs :=
      pm.pendingFreePageIDs ++ orphans pm.nextPageID (pm.claimed live) }

theorem reconcilePageOwnership_ok {pm next : PageManager} {pages : PageMap}
    (run : reconcilePageOwnership pm pages = .ok next) :
    (∀ pageID ∈ pm.claimed pages.keys, pageID ≠ 0 ∧ pageID < pm.nextPageID) ∧
      (pm.claimed pages.keys).Nodup ∧ next = pm.adopt pages.keys := by
  rw [reconcilePageOwnership] at run
  simp only [bind_ok_iff] at run
  obtain ⟨live, claimLive, free, claimFree, retired, claimRetired, nodes, claimNodes, last⟩ := run
  obtain ⟨liveInside, liveKeys⟩ := claims_sound claimLive
  obtain ⟨freeInside, freeKeys⟩ := claims_sound claimFree
  obtain ⟨retiredInside, retiredKeys⟩ := claims_sound claimRetired
  obtain ⟨nodesInside, nodesKeys⟩ := claims_sound claimNodes
  have keys : nodes.keys.Perm (pm.claimed pages.keys) := by
    rw [show (∅ : Owners).keys = [] from rfl, append_nil] at liveKeys
    exact nodesKeys.trans ((retiredKeys.trans ((freeKeys.trans
      (liveKeys.append_left _)).append_left _)).append_left _)
  have same : ((List.range' 1 (pm.nextPageID - 1)).filter fun pageID =>
      (nodes.lookup pageID).isNone) = orphans pm.nextPageID (pm.claimed pages.keys) := by
    refine filter_congr fun pageID _ => ?_
    rw [Bool.eq_iff_iff, Option.isNone_iff_eq_none, AList.lookup_eq_none, decide_eq_true_eq,
      AList.mem_keys, keys.mem_iff]
  refine ⟨?_, keys.nodup_iff.mp nodes.keys_nodup, ?_⟩
  · simp only [PageManager.claimed, forall_mem_append]
    exact ⟨nodesInside, retiredInside, freeInside, liveInside⟩
  · rw [← Except.ok.inj last, PageManager.adopt, same]

/-! ## Candidates -/

/-- The page manager that a candidate begins with. -/
def RootMetadata.manager (metadata : RootMetadata) (nextPageID : Nat) : PageManager :=
  PageManager.restore (metadata.state nextPageID)

/-- What a candidate that was taken gives. -/
structure Recovered (view : FileView) (nextPageID : Nat) (metadata : RootMetadata)
    (pm : PageManager) (pages : PageMap) (tree : Root) : Prop where
  loaded : Loaded (metadata.manager nextPageID) view pages tree
  inside : ∀ pageID ∈ (metadata.manager nextPageID).claimed pages.keys,
    pageID ≠ 0 ∧ pageID < nextPageID
  nodup : ((metadata.manager nextPageID).claimed pages.keys).Nodup
  pm_eq : pm = (metadata.manager nextPageID).adopt pages.keys

section Candidates

variable {view : FileView} {nextPageID : Nat} {metadata : RootMetadata} {pm : PageManager}
  {pages : PageMap}

theorem recoverCandidate_sound
    (taken : recoverCandidate view nextPageID metadata = .ok (pm, pages)) :
    ∃ tree, Recovered view nextPageID metadata pm pages tree := by
  rw [recoverCandidate, guard_eq_ok] at taken
  obtain ⟨-, taken⟩ := taken
  have run : (do
      let pages ← loadCommittedPages (metadata.manager nextPageID) view
      let pm ← reconcilePageOwnership (metadata.manager nextPageID) pages
      return (pm, pages)) = Except.ok (pm, pages) := by
    dsimp only at taken
    split at taken
    next => cases taken
    next result found => exact found.trans taken
  rw [bind_ok_iff] at run
  obtain ⟨loaded, load, run⟩ := run
  rw [bind_ok_iff] at run
  obtain ⟨adopted, reconcile, last⟩ := run
  obtain ⟨rfl, rfl⟩ := Prod.mk.inj (Except.ok.inj last)
  obtain ⟨tree, loaded⟩ := loadCommittedPages_sound load
  obtain ⟨inside, nodup, pm_eq⟩ := reconcilePageOwnership_ok reconcile
  exact ⟨tree, loaded, inside, nodup, pm_eq⟩

/-- The recovered page manager owns all pages of the file. -/
theorem Recovered.owns {tree : Root} (recovered : Recovered view nextPageID metadata pm pages tree)
    (positive : 0 < nextPageID) (bounded : nextPageID ≤ maxPageID + 1) : pm.Owns tree.labels := by
  have keys := recovered.loaded.keys
  have all := append_orphans_perm recovered.nodup recovered.inside
  generalize orphaned : orphans nextPageID ((metadata.manager nextPageID).claimed pages.keys) = lost
    at all
  have listed : ((metadata.manager nextPageID).adopt pages.keys).listed =
      metadata.freePageIDs ++ (metadata.retiredPageIDs ++ (lost ++ metadata.freeListPageIDs)) := by
    rw [← orphaned]
    rfl
  have claimed : (metadata.manager nextPageID).claimed pages.keys =
      metadata.freeListPageIDs ++
        (metadata.retiredPageIDs ++ (metadata.freePageIDs ++ pages.keys)) :=
    rfl
  rw [recovered.pm_eq]
  refine ⟨positive, bounded, List.Perm.trans ?_ all, rfl⟩
  rw [listed, claimed, perm_iff_count]
  intro pageID
  simp only [count_append, keys.count_eq]
  omega

variable {candidates : List RootMetadata} {result : PageManager × PageMap}

/-- Candidates are tried until one is taken. -/
theorem recoverCandidates_ok : ∀ {recoveryErr : Option GoError},
      recoverCandidates view nextPageID candidates recoveryErr = .ok result →
      ∃ metadata ∈ candidates, recoverCandidate view nextPageID metadata = .ok result := by
  induction candidates with
  | nil => exact fun run => nomatch run
  | cons metadata rest ih =>
    intro recoveryErr run
    rw [recoverCandidates] at run
    cases taken : recoverCandidate view nextPageID metadata with
    | ok other =>
      rw [taken] at run
      exact ⟨metadata, mem_cons_self .., taken.trans run⟩
    | error err =>
      rw [taken] at run
      obtain ⟨later, isLater, takenLater⟩ := ih run
      exact ⟨later, mem_cons_of_mem _ isLater, takenLater⟩

theorem recoverCandidates_take
    (taken : recoverCandidate view nextPageID metadata = .ok result)
    (recoveryErr : Option GoError) :
    recoverCandidates view nextPageID (metadata :: candidates) recoveryErr = .ok result := by
  rw [recoverCandidates, taken]

theorem mem_readCandidates {slots : List Nat} : ∀ {candidates : List RootMetadata},
    readCandidates view slots = .ok candidates → ∀ metadata ∈ candidates,
      ∃ slot ∈ slots, readRootMetadataSlot view slot = .ok metadata := by
  induction slots with
  | nil =>
    intro candidates run
    cases run
    exact nofun
  | cons slot rest ih =>
    intro candidates run metadata mem
    rw [readCandidates] at run
    cases read : readRootMetadataSlot view slot with
    | error err =>
      rw [read] at run
      dsimp only at run
      split_ifs at run
      obtain ⟨other, isOther, readOther⟩ := ih run metadata mem
      exact ⟨other, mem_cons_of_mem _ isOther, readOther⟩
    | ok found =>
      rw [read] at run
      dsimp only at run
      rw [bind_ok_iff] at run
      obtain ⟨others, later, last⟩ := run
      obtain rfl := Except.ok.inj last
      rcases mem_cons.mp mem with rfl | isLater
      · exact ⟨slot, mem_cons_self .., read⟩
      · obtain ⟨other, isOther, readOther⟩ := ih later metadata isLater
        exact ⟨other, mem_cons_of_mem _ isOther, readOther⟩

theorem mem_newestFirst : metadata ∈ newestFirst candidates ↔ metadata ∈ candidates := by
  rw [newestFirst.eq_def]
  split
  · split_ifs
    · simp only [mem_cons, not_mem_nil, or_false]
      exact or_comm
    · exact Iff.rfl
  · exact Iff.rfl

/-- What is recovered comes from one of the slots. -/
theorem recoverCommittedPages_ok (run : recoverCommittedPages view nextPageID = .ok (pm, pages)) :
    ∃ slot metadata, slot < metadataSlotCount ∧ readRootMetadataSlot view slot = .ok metadata ∧
      recoverCandidate view nextPageID metadata = .ok (pm, pages) := by
  rw [recoverCommittedPages, bind_ok_iff] at run
  obtain ⟨candidates, read, run⟩ := run
  rw [guard_eq_ok] at run
  obtain ⟨metadata, isCandidate, taken⟩ := recoverCandidates_ok run.2
  obtain ⟨slot, isSlot, found⟩ := mem_readCandidates read metadata (mem_newestFirst.mp isCandidate)
  exact ⟨slot, metadata, mem_range.mp isSlot, found, taken⟩

end Candidates

end GoDatabase
