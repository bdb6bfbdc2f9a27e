import GoDatabase.Tree.Calls
import Mathlib.Data.List.Chain

/-!
# Splitting updated nodes

An insertion visits one page of every level.  Each node that it builds from a visited page
is split into one to three pages with the same entries, none of them empty, and no two
neighbours fit in one page.
-/

namespace GoDatabase

open Library BNode List

/-- The pages that `insertNode` is called on, with the number of descents that are left: the
root, and below an internal page the child that the key belongs to. -/
inductive InsertVisits (pages : PageMap) (root : Nat) (key : Bytes) : (descents : Nat) →
    BNode → Prop
  | root {node : BNode} (nonzero : root ≠ 0) (found : pages.lookup root = some node) :
      InsertVisits pages root key pages.descents node
  | child {descents idx : Nat} {node child : BNode}
      (visited : InsertVisits pages root key (descents + 1) node)
      (internal : btype node ≠ nodeTypeLeaf) (lookup : nodeLookupLE node key = .ok idx)
      (found : pages.lookup (getPtr node idx) = some child) :
      InsertVisits pages root key descents child

/-- What splitting a node into pages is for. -/
structure SplitsInto (node : BNode) (parts : List BNode) : Prop where
  some : 1 ≤ parts.length
  few : parts.length ≤ 3
  valid : ∀ part ∈ parts, validateBNode part = .ok ()
  typed : ∀ part ∈ parts, btype part = btype node
  nonempty : ∀ part ∈ parts, 0 < nkeys part
  entries : parts.flatMap recordsOf = recordsOf node
  tight : parts.IsChain fun left right =>
    pageSize < nodeSize (recordsOf left ++ recordsOf right) ∧
      mergeEncodedNodes left right = .ok none

section Visits

variable {work : Work} {key : Bytes}

/-- A page that the insertion works on stores items of the tree. -/
structure WorksOn (work : Work) (key : Bytes) (descents : Nat) (node : BNode) {h : Nat}
    (items : List (Item Nat h)) (rest : List Nat) : Prop where
  deep : h < descents
  valid : ValidPage node (nodeType h) (items.map Item.record)
  stored : ∀ item ∈ items, item.Stored work.working
  descends : Descends items key
  sound : work.Sound (labelsOf items ++ rest)

variable {descents h : Nat} {node : BNode} {items : List (Item Nat h)} {rest : List Nat}

theorem WorksOn.inside
    (works : WorksOn work key descents node items rest) : pageBytes items ≤ pageSize :=
  works.valid.pageBytes_le

/-- The visited child of a page stores the items below it. -/
theorem WorksOn.child {idx : Nat} {child : BNode}
    (works : WorksOn work key (descents + 1) node items rest)
    (internal : btype node ≠ nodeTypeLeaf) (lookup : nodeLookupLE node key = .ok idx)
    (found : work.working.lookup (getPtr node idx) = some child) :
    ∃ (k : Nat) (below : List (Item Nat k)) (others : List Nat),
      WorksOn work key descents child below others := by
  cases h with
  | zero => exact absurd works.valid.holds.type_eq internal
  | succ h =>
    obtain ⟨before, item, after, around⟩ := works.descends.around
    have isItem : item ∈ items := by simp [around.shape]
    obtain rfl := Except.ok.inj ((nodeLookupLE_eq works.valid.holds around).symm.trans lookup)
    have pointer : getPtr node before.length = item.label := by
      rw [works.valid.holds.ptr_eq (by simp [around.shape])]
      simp [around.shape, Item.record]
    obtain ⟨page, isPage, valid⟩ := (works.stored item isItem).page
    rw [pointer, isPage] at found
    obtain rfl := Option.some.inj found
    exact ⟨h, item.items, _, Nat.lt_of_succ_lt_succ works.deep, valid,
      (works.stored item isItem).items, works.descends.child around, works.sound.below around.shape⟩

theorem InsertVisits.worksOn {root : Root} (stored : root.Stored work.working)
    (sound : work.Sound (root.labels ++ rest))
    (visits : InsertVisits work.working root.pageID key descents node) :
    ∃ (h : Nat) (items : List (Item Nat h)) (others : List Nat),
      WorksOn work key descents node items others := by
  induction visits with
  | root nonzero found =>
    cases root with
    | empty => exact absurd rfl nonzero
    | tree held =>
      obtain ⟨page, isPage, valid⟩ := stored.pages.page
      obtain rfl := Option.some.inj (isPage.symm.trans found)
      exact ⟨_, held.top.items, held.top.label :: rest, stored.height_lt sound, valid,
        stored.pages.items, held.descends key, sound.below_root⟩
  | child _ internal lookup found ih =>
    obtain ⟨h, items, others, works⟩ := ih
    exact works.child internal lookup found

end Visits

/-- The parts of an oversized node are tight. -/
theorem tight_splitItems {ι : Type} {h : Nat} (items : List (Item ι h)) :
    (splitItems items).IsChain fun left right => pageSize < pageBytes (left ++ right) := by
  rw [splitItems]
  split_ifs
  · exact .singleton _
  · refine (Packing.tight_pack items).imp fun left right adjacent => ?_
    rw [pageBytes, Packing.total_append]
    omega

section Split

variable {h : Nat} {items : List (Item Nat h)}

/-- Neighbours among the pages of the parts are not merged. -/
theorem tight_pages (encodable : Encodable items) (split : Parts items (splitItems items)) :
    ((splitItems items).map (encodeItems pageSize)).IsChain fun left right =>
      pageSize < nodeSize (recordsOf left ++ recordsOf right) ∧
        mergeEncodedNodes left right = .ok none := by
  have storing := split.storing encodable
  refine (isChain_map _).mpr (isChain_iff_forall_rel_of_append_cons_cons.mpr ?_)
  intro left right before after shape
  have large := isChain_iff_forall_rel_of_append_cons_cons.mp (tight_splitItems items) shape
  have adjacent : Encodable (left ++ right) := by
    rw [← split.flatten, shape, flatten_append, flatten_cons, flatten_cons,
      ← append_assoc left] at encodable
    exact encodable.segment
  have isLeft : Storing left := storing left (by simp [shape])
  have isRight : Storing right := storing right (by simp [shape])
  constructor
  · rw [isLeft.validPage.holds.recordsOf_eq, isRight.validPage.holds.recordsOf_eq, ← map_append,
      nodeSize_records]
    exact large
  · rw [mergeEncodedNodes_items isLeft.validPage.holds isRight.validPage.holds isLeft.inside
      isRight.inside adjacent, if_neg (Nat.not_le.mpr large)]

/-- The pages of the parts of an updated node. -/
theorem splitsInto_encodeItems (encodable : Encodable items)
    (light : pageBytes items ≤ 2 * pageSize) (split : Parts items (splitItems items)) :
    SplitsInto (encodeItems (2 * pageSize) items)
      ((splitItems items).map (encodeItems pageSize)) := by
  have holds := encodable.holds light (by decide)
  have storing := split.storing encodable
  have records : ∀ part ∈ splitItems items, recordsOf (encodeItems pageSize part) =
    part.map Item.record :=
    fun part isPart => (storing part isPart).validPage.holds.recordsOf_eq
  refine ⟨?_, ?_, ?_, ?_, ?_, ?_, ?_⟩
  · rw [length_map]
    exact length_pos_iff.mpr split.ne_nil
  · rw [length_map]
    exact split.few
  · refine forall_mem_map.mpr fun part isPart => ?_
    exact (storing part isPart).validPage.valid
  · refine forall_mem_map.mpr fun part isPart => ?_
    rw [holds.type_eq, (storing part isPart).validPage.holds.type_eq]
  · refine forall_mem_map.mpr fun part isPart => ?_
    rw [(storing part isPart).validPage.holds.count_eq, length_map]
    exact length_pos_iff.mpr (split.nonempty part isPart)
  · rw [holds.recordsOf_eq, flatMap_map, ← split.flatten, map_flatten, flatMap_def,
      split.flatten]
    exact congrArg List.flatten (map_congr_left records)
  · exact tight_pages encodable split

end Split

/-- Every node that an insertion builds is split into one to three valid pages of its type.
Together they hold its entries in their order, none is empty, and no two neighbours fit in
one page. -/
theorem nodeSplit3_preserves {work : Work} {live : List Nat} {root : Nat} (sound : work.Sound live)
    (owned : ∀ pageID, Reachable work.working root pageID → pageID ∈ live)
    (invariant : TreeInvariant work.working root) {key value : Bytes}
    (limits : validateTreeEntry key value = .ok ()) {descents : Nat} {node : BNode}
    (visited : InsertVisits work.working root key descents node) {updated : BNode}
    {obsolete : List Nat} {next : Work}
    (built : insertNode key value descents node work = .ok (updated, obsolete) next) :
    btype updated = btype node ∧
      ∃ parts, nodeSplit3 updated = .ok parts ∧ SplitsInto updated parts := by
  have storable : Storable key value := by
    by_contra refused
    obtain ⟨err, failed⟩ := validateTreeEntry_error refused
    rw [limits] at failed
    cases failed
  obtain ⟨tree, rfl, stored, rest, soundTree⟩ := exists_root sound owned invariant
  obtain ⟨h, items, others, works⟩ := visited.worksOn stored soundTree
  rcases insertNode_spec storable works.deep works.valid works.stored works.descends
    works.sound with
    ⟨result, _, _, run, inserted⟩ | ⟨err, _, run, -⟩
  · rw [built] at run
    cases run
    have doubled := inserted.doubled storable works.descends works.inside
    have split := inserted.parts storable works.descends works.inside
    refine ⟨?_, _, inserted.nodeSplit3_ok storable works.descends works.inside,
      splitsInto_encodeItems inserted.encodable doubled split⟩
    rw [works.valid.holds.type_eq]
    exact (inserted.encodable.holds doubled (by decide)).type_eq
  · rw [built] at run
    cases run

/-- A second large binding, for which the leaf is split in two. -/
theorem nodeSplit3_preserves_large : ∃ node updated obsolete next parts,
    InsertVisits (emptyDatabase.run [.insert [1] (replicate 3000 0)]).work.working
      (emptyDatabase.run [.insert [1] (replicate 3000 0)]).root [3]
      (emptyDatabase.run [.insert [1] (replicate 3000 0)]).work.working.descents node ∧
    insertNode [3] (replicate 3000 0)
      (emptyDatabase.run [.insert [1] (replicate 3000 0)]).work.working.descents node
      (emptyDatabase.run [.insert [1] (replicate 3000 0)]).work = .ok (updated, obsolete) next ∧
    btype updated = btype node ∧ nodeSplit3 updated = .ok parts ∧ SplitsInto updated parts ∧
      parts.length = 2 := by
  have storable : Storable [3] (replicate 3000 0) :=
    ⟨by decide, by decide, Nat.le_of_eq length_replicate⟩
  obtain ⟨tree, rest, tracks, outline, room⟩ := emptyDatabase_reshapes
    (show [TreeCall.insert [1] (replicate 3000 0)].length ≤ 20 by decide)
    (show TreeCall.reshapeAll _ _ =
      some (.tree 0 [.ofEntry ⟨[], []⟩, .ofEntry ⟨[1], replicate 3000 0⟩]) by decide +kernel)
  obtain ⟨reached, -, updated, obsolete, next, parts, run, -, split, count⟩ :=
    tracks.insertNode_root outline room storable
  obtain ⟨nonzero, found, -⟩ := tracks.stored.topPage outline
  rw [tracks.pageID] at nonzero found
  have visited := @InsertVisits.root _ _ [3] _ nonzero found
  obtain ⟨type, others, same, into⟩ := nodeSplit3_preserves tracks.sound tracks.invariant.2.2
    tracks.invariant.1 (validateTreeEntry_ok storable) visited run
  obtain rfl := Except.ok.inj (split.symm.trans same)
  exact ⟨_, updated, obsolete, next, parts, visited, run, type, split, into,
    count.trans (by decide +kernel)⟩

end GoDatabase
