import GoDatabase.Tree.DeleteSpec
import GoDatabase.Tree.InsertSpec
import GoDatabase.Tree.Root

/-!
# Insertion and deletion at the root

An insertion binds its key in the tree of the database, a deletion removes it.  Both
replace the tree by one on new pages and hand back exactly the pages that are no
longer part of it.
-/

namespace GoDatabase

open Library BNode Fallible SortedMap List Item

/-- The tree under a node, without its pages. -/
def Item.outline {k : Nat} (top : Item Nat (k + 1)) : Outline := .tree k (top.items.map Item.erase)

def Root.outline : Root → Outline
  | .empty => .empty
  | .tree held => held.top.outline

section

variable {held : Tree} {work : Work} {rest : List Nat}
  (sound : work.Sound ((Root.tree held).labels ++ rest))
include sound

theorem Root.Stored.height_lt (stored : (Root.tree held).Stored work.working) :
    held.height < work.working.descents :=
  held.height_lt_descents stored.pages sound.owns.nodup_live.of_append_left

/-- The live pages below a root. -/
theorem Work.Sound.below_root :
    work.Sound (labelsOf held.top.items ++ (held.top.label :: rest)) :=
  sound.perm perm_middle.symm

end

/-- The tree of a database was replaced, and its obsolete pages were handed back. -/
structure Replaced (root updated : Root) (work middle next : Work) (rest obsolete : List Nat) :
    Prop where
  stored : updated.Stored middle.working
  sound : middle.Sound (updated.labels ++ (obsolete ++ rest))
  extended : work.Extends middle
  replaced : ∀ pageID ∈ obsolete, pageID ∈ root.labels
  releases : TreeM.Releases middle obsolete next
  soundNext : next.Sound (updated.labels ++ rest)

namespace Replaced

variable {root updated : Root} {work middle next : Work} {rest obsolete : List Nat}

section

variable (replaced : Replaced root updated work middle next rest obsolete)
include replaced

theorem storedNext : updated.Stored next.working := by
  rw [replaced.releases.working]
  exact replaced.stored

theorem kept : ∀ pageID page, work.working.lookup pageID = some page →
      next.working.lookup pageID = some page := by
  intro pageID page found
  rw [replaced.releases.working]
  exact replaced.extended.kept pageID page found

theorem released : next.released = work.released ++ obsolete := by
  rw [replaced.releases.released, replaced.extended.released]

theorem nodup_obsolete :
    obsolete.Nodup := replaced.sound.owns.nodup_live.of_append_right.of_append_left

end

variable {pageID : Nat}

section

variable (replaced : Replaced root updated work middle next rest obsolete)
  (sound : work.Sound (root.labels ++ rest))
include replaced sound

/-- The pages handed back are those of the old tree that the new one does not use. -/
theorem mem_obsolete : pageID ∈ obsolete ↔ pageID ∈ root.labels ∧ pageID ∉ updated.labels := by
  constructor
  · intro mem
    refine ⟨replaced.replaced pageID mem, fun still => ?_⟩
    exact disjoint_of_nodup_append replaced.sound.owns.nodup_live still
      (mem_append_left _ mem)
  · rintro ⟨old, gone⟩
    have live := sound.still_live replaced.extended replaced.sound pageID
      (mem_append_left _ old)
    rcases mem_append.mp ((mem_append.mp live).resolve_left gone) with mem | isRest
    · exact mem
    · exact absurd isRest (disjoint_of_nodup_append sound.owns.nodup_live old)

/-- The pages that the operation created belong to the new tree. -/
theorem mem_updated_of_new (mem : pageID ∈ next.working)
    (new : pageID ∉ work.working) : pageID ∈ updated.labels := by
  rw [replaced.releases.working] at mem
  have pending := (replaced.extended.added pageID mem).resolve_left new
  rcases replaced.extended.created pageID pending with old | ⟨fresh, taken⟩
  · obtain ⟨page, found⟩ := Option.isSome_iff_exists.mp (AList.lookup_isSome.mpr old)
    exact absurd (AList.lookup_isSome.mp (by rw [sound.pending_working pageID page found]; rfl)) new
  rcases mem_append.mp
    (sound.created_live replaced.extended replaced.sound fresh taken) with isUpdated | others
  · exact isUpdated
  · exfalso
    apply sound.owns.not_available ?_ fresh
    exact (mem_append.mp others).elim
      (fun old => mem_append_left _ (replaced.replaced pageID old))
      (fun isRest => mem_append_right _ isRest)

end

end Replaced

/-- An operation that a callback made fail, although it returned no error. -/
structure GaveUp (work next : Work) : Prop where
  failed : next.callbackErr ≠ none
  kept : ∀ pageID page, work.working.lookup pageID = some page →
    next.working.lookup pageID = some page
  exhausted : maxPageID < next.pm.nextPageID

/-- After a failure the remaining pages are not handed back. -/
theorem TreeM.delAll_failed : ∀ (pageIDs : List Nat) {work : Work}, work.callbackErr ≠ none →
    delAll pageIDs work = .ok () { work with released := work.released ++ pageIDs } := by
  intro pageIDs
  induction pageIDs with
  | nil =>
    intro work _
    rw [append_nil]
    rfl
  | cons pageID rest ih =>
    intro work failed
    obtain ⟨err, failure⟩ := Option.ne_none_iff_exists'.mp failed
    have step : del pageID work = .ok () { work with released := work.released ++ [pageID] } := by
      simp only [del, failure]
    have failedNext : ({ work with released := work.released ++ [pageID] } : Work).callbackErr ≠
        none := failed
    rw [delAll, bind_of_ok step, ih failedNext]
    simp only [append_assoc, singleton_append]

/-! ## The new root -/

section Grow

variable {h : Nat} {updated : List (Item Nat h)} {work : Work} {live : List Nat}

/-- A node over all items of an updated root. -/
structure Grown (updated : List (Item Nat h)) (work : Work) (live : List Nat) {k : Nat}
    (top : Item Nat (k + 1)) (next : Work) : Prop where
  fit : top.Fit
  entries : top.entries = entriesOf updated
  stored : top.Stored next.working
  sound : next.Sound (top.labels ++ live)
  extended : work.Extends next

variable {pageID : Nat} {next : Work} {parts : List (List (Item Nat h))}
  {children : List (Item Nat (h + 1))}

/-- One part becomes the root itself. -/
theorem grown_single {part : List (Item Nat h)} (storing : Storing part)
    (stored : ∀ item ∈ part, item.Stored work.working)
    (stores : TreeM.Stores work (labelsOf part ++ live) (encodeItems pageSize part) pageID next) :
    Grown part work live (Item.node pageID part) next where
  fit := storing.fit pageID
  entries := rfl
  stored := by
    refine ⟨⟨_, stores.stored, storing.validPage⟩, fun item mem => ?_⟩
    exact (stored item mem).mono fun pageID _ => stores.extended.kept pageID
  sound := stores.sound
  extended := stores.extended

/-- Several parts become the children of a new root. -/
theorem grown_over (split : Parts updated parts)
    (encodable : Encodable updated) (stored : ∀ item ∈ updated, item.Stored work.working)
    {middle : Work}
    (allocated : Allocated work (labelsOf updated ++ live) parts children middle)
    (childrenEncodable : Encodable children) (inside : pageBytes children ≤ pageSize)
    (stores : TreeM.Stores middle (children.map label ++ (labelsOf updated ++ live))
      (encodeItems pageSize children) pageID next) :
    Grown updated work live (Item.node pageID children) next := by
  have nonempty : children ≠ [] := by
    intro none
    have items := allocated.items
    rw [none] at items
    exact split.ne_nil items.symm
  have storing : Storing children := ⟨nonempty, childrenEncodable, inside⟩
  have childrenStored := allocated.tree_stored (split.storing encodable)
    (by rw [split.flatten]; exact stored)
  refine ⟨storing.fit pageID, ?_, ⟨⟨_, stores.stored, storing.validPage⟩, ?_⟩, ?_,
    allocated.extended.trans stores.extended⟩
  · rw [entries_succ, items_node, flatMap_entries, entriesOf_items, allocated.items,
      split.flatten]
  · intro child isChild
    exact (childrenStored child isChild).mono fun pageID _ => stores.extended.kept pageID
  · refine stores.sound.perm ?_
    rw [labels_succ, label_node, items_node, flatMap_labels, cons_append]
    refine List.Perm.cons _ ?_
    have nodes := labelsOf_perm children
    rw [allocated.items, split.flatten] at nodes
    rw [← append_assoc]
    exact (nodes.symm.append_right _)

/-- The nodes over the parts of a root can be written into one page. -/
theorem nodes_encodable (split : Parts updated parts)
    (sorted : Sorted (entriesOf updated)) :
    Encodable (parts.map (Item.node 1)) ∧ pageBytes (parts.map (Item.node 1)) ≤ pageSize := by
  constructor
  · refine encodable_of_sorted ?_ ?_ ?_
    · intro item mem
      obtain ⟨part, isPart, rfl⟩ := mem_map.mp mem
      exact split.fit_node isPart 1
    · rwa [entriesOf_nodes, split.flatten]
    · intro item mem
      obtain ⟨part, -, rfl⟩ := mem_map.mp mem
      exact ⟨Nat.one_pos, show 1 < 2 ^ 64 by decide⟩
  · have nodes := total_nodes_le split.few (fun part isPart => split.fit_node isPart 1)
    have limit : pageHeaderSize + insertLimit ≤ pageSize := by decide
    rw [pageBytes]
    omega

/-- A new root over several parts. -/
theorem growOver_spec {grow : TreeM Nat} (split : Parts updated parts)
    (encodable : Encodable updated) (sorted : Sorted (entriesOf updated))
    (stored : ∀ item ∈ updated, item.Stored work.working)
    (sound : work.Sound (labelsOf updated ++ live))
    (grows : grow = appendChildren (setHeader (zeros pageSize) nodeTypeInternal parts.length) 0
      (parts.map (encodeItems pageSize)) >>= TreeM.new) :
    (∃ (top : Item Nat (h + 1 + 1)) (next : Work), grow work = .ok top.label next ∧
        Grown updated work live top next ∧ top.items.map items = parts) ∨
    (∃ next, grow work = .ok 0 next ∧ Failed work next) ∨ Fails work (grow work) := by
  obtain ⟨nodesEncodable, inside⟩ := nodes_encodable split sorted
  have fits := fits_items inside (by decide)
  have room := fits.inside
  have counted := fits.counted
  rw [length_map, length_map] at room counted
  have sizes : recordBytes ((parts.map (Item.node 1)).map record) =
      recordBytes (parts.map fun part => (Item.node 0 part).record) := by
    simp only [recordBytes, map_map]
    rfl
  have started : setHeader (zeros pageSize) nodeTypeInternal parts.length =
      layout pageSize nodeTypeInternal parts.length [] := setHeader_zeros (by omega)
  have empty : Fits pageSize parts.length [] :=
    ⟨Nat.zero_le _, counted, by rw [recordBytes_nil]; omega, by decide⟩
  have tailKeys : ∀ part ∈ parts.tail, (Item.node 0 part).key ≠ [] := by
    intro part isPart
    apply nodesEncodable.key_ne_nil (Item.node 1 part)
    rw [← map_tail]
    exact mem_map_of_mem isPart
  rw [grows, started]
  rcases appendChildren_spec parts [] work _ sound (split.storing encodable)
      (fun late => absurd rfl late) tailKeys empty (by simp)
      (by rw [recordBytes_nil, Nat.zero_add, ← sizes]; exact room) with
    ⟨children, middle, run, allocated⟩ | fails
  · rw [nil_append, length_nil] at run
    have same : children.map items = (parts.map (Item.node 1)).map items := by
      rw [allocated.items, map_map]
      exact (map_id _).symm
    have lengths : parts.length = (children.map record).length := by
      rw [← allocated.items, length_map, length_map]
    have childrenEncodable : Encodable children := by
      have relabelled := @Encodable.relabel _ [] [] (parts.map (Item.node 1)) children
        (by rwa [append_nil]) same allocated.addressed
      rwa [append_nil] at relabelled
    have childrenInside : pageBytes children ≤ pageSize := by
      have relabelled := @pageBytes_relabel _ [] [] (parts.map (Item.node 1)) children same
      rw [append_nil, append_nil] at relabelled
      exact relabelled ▸ inside
    rw [bind_of_ok run, lengths]
    rcases TreeM.new_spec allocated.sound (encodeItems pageSize children) with
      ⟨pageID, next, last, stores⟩ | ⟨next, last, failed⟩
    · exact .inl ⟨Item.node pageID children, next, last,
        grown_over split encodable stored allocated childrenEncodable childrenInside stores,
        allocated.items⟩
    · exact .inr (.inl ⟨next, last, failed.after allocated.extended⟩)
  · exact .inr (.inr fails.bind)

/-- The nodes over parts, without their pages. -/
theorem erase_nodes (above : children.map items = parts) :
    children.map erase = (parts.map fun part => part.map erase).map (Item.node ()) := by
  rw [← above, map_map, map_map]
  rfl

/-- The parts of an updated root become the new root. -/
theorem growRoot_spec (encodable : Encodable updated)
    (sorted : Sorted (entriesOf updated)) (split : Parts updated (splitItems updated))
    (stored : ∀ item ∈ updated, item.Stored work.working)
    (sound : work.Sound (labelsOf updated ++ live)) :
    (∃ (k : Nat) (top : Item Nat (k + 1)) (next : Work),
      growRoot ((splitItems updated).map (encodeItems pageSize)) work = .ok top.label next ∧
        Grown updated work live top next ∧ top.outline = growOutline (updated.map erase)) ∨
    (∃ next, growRoot ((splitItems updated).map (encodeItems pageSize)) work = .ok 0 next ∧
      Failed work next) ∨
    Fails work (growRoot ((splitItems updated).map (encodeItems pageSize)) work) := by
  have storing := split.storing encodable
  cases shape : splitItems updated with
  | nil => exact absurd shape split.ne_nil
  | cons part others =>
    cases others with
    | nil =>
      have whole : part = updated := by
        have flatten := split.flatten
        rw [shape] at flatten
        simpa using flatten
      subst whole
      rw [shape] at storing
      rcases TreeM.new_spec sound (encodeItems pageSize part) with
        ⟨pageID, next, run, stores⟩ | ⟨next, run, failed⟩
      · refine .inl ⟨h, Item.node pageID part, next, run,
          grown_single (storing part (mem_singleton_self _)) stored stores, ?_⟩
        rw [growOutline, splitItems_erase, shape]
        rfl
      · exact .inr (.inl ⟨next, run, failed⟩)
    | cons second others =>
      have run : growRoot ((part :: second :: others).map (encodeItems pageSize)) =
          appendChildren (setHeader (zeros pageSize) nodeTypeInternal
            (part :: second :: others).length) 0
            ((part :: second :: others).map (encodeItems pageSize)) >>= TreeM.new := by
        rw [map_cons, map_cons, growRoot]
        · simp
        · simp
      rw [← shape] at run ⊢
      rcases growOver_spec split encodable sorted stored sound run with
        ⟨top, next, grown, spec, above⟩ | failure
      · refine .inl ⟨h + 1, top, next, grown, spec, ?_⟩
        rw [outline, erase_nodes above, growOutline, splitItems_erase, shape]
        rfl
      · exact .inr failure

end Grow

/-! ## Insertion -/

section Insert

variable {key value : Bytes} {work : Work} {rest : List Nat}

/-- The items of the first leaf: the sentinel and one binding. -/
def firstItems (key value : Bytes) : List (Item Nat 0) :=
  [Item.ofEntry ⟨[], []⟩, Item.ofEntry ⟨key, value⟩]

section

variable (storable : Storable key value)
include storable

theorem validateTreeEntry_ok :
    validateTreeEntry key value = .ok () := by
  rw [validateTreeEntry, if_neg (mt length_eq_zero_iff.mp storable.nonempty),
    if_neg (Nat.not_lt.mpr storable.key_le), if_neg (Nat.not_lt.mpr storable.value_le)]

theorem firstItems_storing : Storing (firstItems key value) := by
  refine ⟨cons_ne_nil _ _, ⟨?_, ?_, fun _ _ => trivial⟩, ?_⟩
  · intro item mem
    rcases mem_cons.mp mem with rfl | mem
    · exact ⟨Nat.zero_le _, Nat.zero_le _, fun _ => rfl⟩
    · rw [mem_singleton.mp mem]
      exact storable.fit
  · exact pairwise_pair.mpr (Tree.nil_lt storable.nonempty)
  · have keyLe := storable.key_le
    have valueLe := storable.value_le
    have size : pageBytes (firstItems key value) =
      16 + (14 + (14 + key.length + value.length)) := by
      rw [pageBytes_leaf]
      simp only [firstItems, entryWeight, Packing.total, pageHeaderSize, pagePtrSize,
        pageOffsetSize, map_cons, map_nil, sum_cons, sum_nil]
      change 16 + (8 + 2 + (4 + 0 + 0) + (8 + 2 + (4 + key.length + value.length) + 0)) = _
      omega
    rw [size]
    simp only [maxKeySize, maxValueSize, pageSize] at keyLe valueLe ⊢
    omega

theorem firstRoot_eq :
    firstRoot key value = .ok (encodeItems pageSize (firstItems key value)) := by
  have storing := firstItems_storing storable
  have fits := fits_items storing.inside (by decide)
  have admissible : AllAdmissible nodeTypeLeaf ((firstItems key value).map record) :=
    storing.encodable.admissible
  have sentinel :=
    @appendKV_ok pageSize nodeTypeLeaf [] [⟨0, key, value⟩] _ fits admissible ⟨0, [], []⟩ rfl
  have entry :=
    @appendKV_ok pageSize nodeTypeLeaf [⟨0, [], []⟩] [] _ fits admissible ⟨0, key, value⟩ rfl
  have started := @setHeader_start pageSize nodeTypeLeaf _ fits
  have two : setHeader (zeros pageSize) nodeTypeLeaf 2 =
      layout pageSize nodeTypeLeaf ((firstItems key value).map record).length [] := started
  have last : nodeAppendKV (layout pageSize nodeTypeLeaf
      ((firstItems key value).map record).length [⟨0, [], []⟩]) 1 0 key value =
      .ok (encodeItems pageSize (firstItems key value)) := entry
  have first : nodeAppendKV (layout pageSize nodeTypeLeaf
      ((firstItems key value).map record).length []) 0 0 [] [] = .ok (layout pageSize nodeTypeLeaf
      ((firstItems key value).map record).length [⟨0, [], []⟩]) := sentinel
  rw [firstRoot, two, first, ok_bind, last]

/-- The first binding of a database. -/
theorem insert_empty (sound : work.Sound rest) :
    (∃ updated next, insert 0 key value work = .ok updated.pageID next ∧
      Replaced .empty updated work next next rest [] ∧ updated.bindings = [⟨key, value⟩] ∧
      updated.outline = insertOutline key value .empty) ∨
    (∃ next, insert 0 key value work = .ok 0 next ∧ GaveUp work next) := by
  have storing := firstItems_storing storable
  rw [insert, lift_bind_of_ok (validateTreeEntry_ok storable), if_pos rfl,
    lift_bind_of_ok (firstRoot_eq storable)]
  rcases TreeM.new_spec sound (encodeItems pageSize (firstItems key value)) with
    ⟨pageID, next, run, stores⟩ | ⟨next, run, failed⟩
  · left
    have entries : (Item.node pageID (firstItems key value)).entries =
        [⟨[], []⟩, ⟨key, value⟩] := rfl
    let held : Tree := ⟨0, Item.node pageID (firstItems key value), storing.fit pageID,
      by rw [entries]; exact pairwise_pair.mpr (Tree.nil_lt storable.nonempty), rfl⟩
    have soundNext : next.Sound (held.top.labels ++ rest) := stores.sound
    exact ⟨.tree held, next, run, ⟨⟨⟨⟨_, stores.stored, storing.validPage⟩, fun _ _ => trivial⟩,
      stores.sound.addressed (mem_cons_self ..)⟩, soundNext, stores.extended, by simp,
      ⟨rfl, rfl, by simp, by simp⟩, soundNext⟩, rfl, rfl⟩
  · exact .inr ⟨next, run, failed.failed, failed.extended.kept, failed.exhausted⟩

theorem insert_tree {held : Tree} (stored : (Root.tree held).Stored work.working) : ∃ page,
    ValidPage page (nodeType held.height) (held.top.items.map record) ∧
    insert (Root.tree held).pageID key value work =
      (insertNode key value work.working.descents page >>= fun updatedRoot => do
        let rootParts ← nodeSplit3 updatedRoot.1
        let newRootID ← growRoot rootParts
        TreeM.delAll (updatedRoot.2 ++ [held.top.label]) return newRootID) work := by
  obtain ⟨page, found, valid⟩ := stored.pages.page
  refine ⟨page, valid, ?_⟩
  rw [Root.pageID, insert, lift_bind_of_ok (validateTreeEntry_ok storable), if_neg stored.nonzero,
    bind_of_ok (TreeM.get_of_lookup found)]
  exact lift_bind_of_ok (validatePage_ok valid.valid) work

end

variable {obsolete : List Nat} {middle : Work}

/-- The obsolete pages of an operation are handed back together. -/
theorem delAll_obsolete {live : List Nat} {label : Nat}
    (sound : middle.Sound (live ++ (obsolete ++ (label :: rest)))) :
    middle.Sound (live ++ ((obsolete ++ [label]) ++ rest)) ∧
      ∃ next, TreeM.delAll (obsolete ++ [label]) middle = .ok () next ∧
        next.Sound (live ++ rest) ∧ TreeM.Releases middle (obsolete ++ [label]) next := by
  have grouped : middle.Sound (live ++ ((obsolete ++ [label]) ++ rest)) := by
    rw [append_assoc obsolete]
    exact sound
  refine ⟨grouped, TreeM.delAll_spec (grouped.perm ?_)⟩
  rw [← append_assoc live, ← append_assoc _ live]
  exact perm_append_comm.append_right _

theorem mem_labels_of_obsolete {held : Tree}
    (below : ∀ pageID ∈ obsolete, pageID ∈ labelsOf held.top.items) :
    ∀ pageID ∈ obsolete ++ [held.top.label], pageID ∈ held.top.labels := by
  intro pageID mem
  rcases mem_append.mp mem with old | isRoot
  · exact mem_cons_of_mem _ (below pageID old)
  · rw [mem_singleton.mp isRoot]
    exact mem_cons_self ..

/-- The tree over an updated root, after its obsolete pages were handed back. -/
theorem Grown.replaced {held : Tree} {h : Nat} {updated : List (Item Nat h)} {last : Work} {k : Nat}
    {top : Item Nat (k + 1)}
    (grown : Grown updated middle (obsolete ++ (held.top.label :: rest)) top last)
    (extended : work.Extends middle)
    (below : ∀ pageID ∈ obsolete, pageID ∈ labelsOf held.top.items) {bound : List Entry}
    (entries : entriesOf updated = ⟨[], []⟩ :: bound) (sorted : Sorted (entriesOf updated)) :
    ∃ new next, new.pageID = top.label ∧
      TreeM.delAll (obsolete ++ [held.top.label]) last = .ok () next ∧
      Replaced (.tree held) new work last next rest (obsolete ++ [held.top.label]) ∧
      new.bindings = bound ∧ new.outline = top.outline := by
  have topEntries : top.entries = ⟨[], []⟩ :: bound := grown.entries.trans entries
  let tree : Tree := ⟨k, top, grown.fit, grown.entries ▸ sorted, by rw [topEntries]; rfl⟩
  have own : top.label ∈ top.labels ++ (obsolete ++ (held.top.label :: rest)) :=
    mem_append_left _ (mem_cons_self ..)
  obtain ⟨grouped, next, run, soundNext, releases⟩ := delAll_obsolete grown.sound
  refine ⟨.tree tree, next, rfl, run, ⟨⟨grown.stored, grown.sound.addressed own⟩, grouped,
    extended.trans grown.extended, mem_labels_of_obsolete below, releases, soundNext⟩, ?_, rfl⟩
  change top.entries.tail = bound
  rw [topEntries]
  rfl

/-- An insertion binds its key, unless the allocator fails. -/
theorem insert_spec {root : Root} (storable : Storable key value)
    (stored : root.Stored work.working) (sound : work.Sound (root.labels ++ rest)) :
    (∃ updated middle next obsolete, insert root.pageID key value work = .ok updated.pageID next ∧
      Replaced root updated work middle next rest obsolete ∧
      updated.bindings = put key value root.bindings ∧
      updated.outline = insertOutline key value root.outline) ∨
    (∃ next, insert root.pageID key value work = .ok 0 next ∧ GaveUp work next) ∨
    Fails work (insert root.pageID key value work) := by
  cases root with
  | empty =>
    rcases insert_empty storable sound with ⟨updated, next, run, replaced, shape⟩ | failure
    · exact .inl ⟨updated, next, next, [], run, replaced, shape⟩
    · exact .inr (.inl failure)
  | tree held =>
    obtain ⟨page, valid, run⟩ := insert_tree storable stored
    have descends := held.descends key
    rw [run]
    rcases insertNode_spec storable (stored.height_lt sound) valid stored.pages.items descends
        sound.below_root with
      ⟨updated, obsolete, middle, inner, inserted⟩ | fails
    · have entries := (inserted.entries descends).trans (held.put_entries storable.nonempty value)
      have sorted : Sorted (entriesOf updated) := by
        rw [inserted.entries descends]
        exact sorted_put descends.sorted key value
      rw [bind_of_ok inner]
      dsimp only
      rw [lift_bind_of_ok (inserted.nodeSplit3_ok storable descends held.fit.inside)]
      rcases growRoot_spec inserted.encodable sorted
          (inserted.parts storable descends held.fit.inside) inserted.stored inserted.sound with
        ⟨k, top, last, grow, grown, outline⟩ | ⟨last, grow, failed⟩ | fails
      · left
        obtain ⟨new, next, label, freed, replaced, bindings, same⟩ :=
          grown.replaced inserted.extended inserted.replaced entries sorted
        refine ⟨new, last, next, _, ?_, replaced, bindings, ?_⟩
        · rw [bind_of_ok grow, bind_of_ok freed, label]
          rfl
        · rw [same, outline, inserted.shape]
          rfl
      · right
        left
        refine ⟨_, (bind_of_ok grow).trans
          (bind_of_ok (TreeM.delAll_failed _ failed.failed)), failed.failed, ?_,
          failed.exhausted⟩
        exact (inserted.extended.trans failed.extended).kept
      · exact .inr (.inr (fails.after inserted.extended).bind)
    · exact .inr (.inr fails.bind)

end Insert

/-! ## Deletion -/

section Delete

variable {key : Bytes} {work : Work} {rest : List Nat}

/-- The updated root is stored, replaced by its only child, or dropped with the
sentinel. -/
theorem shrinkRoot_spec {h : Nat} {updated : List (Item Nat h)} {live : List Nat}
    (storing : Storing updated) (stored : ∀ item ∈ updated, item.Stored work.working)
    (sound : work.Sound (labelsOf updated ++ live)) :
    (∃ (k : Nat) (top : Item Nat (k + 1)) (next : Work),
      shrinkRoot (encodeItems pageSize updated) work = .ok top.label next ∧
        Grown updated work live top next ∧ top.outline = shrinkOutline (updated.map erase)) ∨
    (shrinkRoot (encodeItems pageSize updated) work = .ok 0 work ∧
      (entriesOf updated).length = 1 ∧ labelsOf updated = [] ∧
      shrinkOutline (updated.map erase) = .empty) ∨
    (∃ next, shrinkRoot (encodeItems pageSize updated) work = .ok 0 next ∧ Failed work next) := by
  have holds := storing.validPage.holds
  have count : nkeys (encodeItems pageSize updated) = updated.length := by
    rw [holds.count_eq, length_map]
  have stores : (∃ (top : Item Nat (h + 1)) (next : Work),
      TreeM.new (encodeItems pageSize updated) work = .ok top.label next ∧
        Grown updated work live top next ∧ top.items = updated) ∨
      (∃ next, TreeM.new (encodeItems pageSize updated) work = .ok 0 next ∧ Failed work next) := by
    rcases TreeM.new_spec sound (encodeItems pageSize updated) with
      ⟨pageID, next, run, stores⟩ | ⟨next, run, failed⟩
    · exact .inl ⟨Item.node pageID updated, next, run, grown_single storing stored stores, rfl⟩
    · exact .inr ⟨next, run, failed⟩
  rw [shrinkRoot, count, holds.type_eq]
  cases h with
  | zero =>
    by_cases single : updated.length = 1
    · right
      left
      rw [if_pos ⟨rfl, single⟩]
      refine ⟨rfl, by rw [entriesOf_zero, length_map, single], labelsOf_zero _, ?_⟩
      rw [shrinkOutline, if_pos (by rw [length_map, single])]
    · rw [if_neg (fun both => single both.2), if_neg (fun both => absurd both.1 (by decide)),
        if_neg (fun both => absurd both.1 (by decide))]
      rcases stores with ⟨top, next, run, grown, rfl⟩ | failed
      · refine .inl ⟨0, top, next, run, grown, ?_⟩
        rw [shrinkOutline, if_neg (by rwa [length_map])]
        rfl
      · exact .inr (.inr failed)
  | succ h =>
    have notLeaf : nodeType (h + 1) ≠ nodeTypeLeaf :=
      show nodeTypeInternal ≠ nodeTypeLeaf by decide
    have nonempty : updated.length ≠ 0 := mt length_eq_zero_iff.mp storing.nonempty
    rw [if_neg (fun both => notLeaf both.1), if_neg (fun both => nonempty both.2)]
    by_cases single : updated.length = 1
    · left
      obtain ⟨child, rfl⟩ := length_eq_one_iff.mp single
      have isChild : child ∈ [child] := mem_singleton_self _
      have pointer : getPtr (encodeItems pageSize [child]) 0 = child.label := by
        rw [holds.ptr_eq (by simp)]
        rfl
      rw [if_pos ⟨rfl, rfl⟩, pointer]
      refine ⟨h, child, work, rfl, ⟨storing.encodable.fit child isChild, ?_, stored child isChild,
        ?_, .refl _⟩, rfl⟩
      · rw [entriesOf_cons, entriesOf_nil, append_nil]
      · rwa [labelsOf_cons, show labelsOf ([] : List (Item Nat (h + 1))) = [] from rfl,
          append_nil] at sound
    · rw [if_neg (fun both => single both.2)]
      rcases stores with ⟨top, next, run, grown, rfl⟩ | failed
      · refine .inl ⟨h + 1, top, next, run, grown, ?_⟩
        cases shape : top.items with
        | nil => exact absurd shape storing.nonempty
        | cons first others =>
          cases others with
          | nil => exact absurd (by rw [shape]; rfl) single
          | cons second others =>
            rw [outline, shape]
            rfl
      · exact .inr (.inr failed)

section

variable (nonempty : key ≠ []) (keyLe : key.length ≤ maxKeySize)
include nonempty keyLe

theorem delete_empty : delete 0 key work = .ok (false, 0) work := by
  rw [delete, if_neg (mt length_eq_zero_iff.mp nonempty), if_neg (Nat.not_lt.mpr keyLe), if_pos rfl]
  rfl

theorem delete_tree {held : Tree} (stored : (Root.tree held).Stored work.working) : ∃ page,
    ValidPage page (nodeType held.height) (held.top.items.map record) ∧
    delete (Root.tree held).pageID key work =
      (deleteNode key work.working.descents page >>= fun result => match result with
        | none => pure (false, held.top.label)
        | some (updatedRoot, obsolete) => do
          let newRootID ← shrinkRoot updatedRoot
          TreeM.delAll (obsolete ++ [held.top.label])
          return (true, newRootID)) work := by
  obtain ⟨page, found, valid⟩ := stored.pages.page
  refine ⟨page, valid, ?_⟩
  rw [Root.pageID, delete, if_neg (mt length_eq_zero_iff.mp nonempty),
    if_neg (Nat.not_lt.mpr keyLe), if_neg stored.nonzero, bind_of_ok (TreeM.get_of_lookup found)]
  exact lift_bind_of_ok (validatePage_ok valid.valid) work

end

/-- What a deletion may return, apart from failures of the allocator. -/
inductive DeleteResult (key : Bytes) (root : Root) (work : Work) (rest : List Nat) :
    EStateM.Result GoError Work (Bool × Nat) → Prop
  | absent (missing : SortedMap.lookup root.bindings key = none)
      (outline : deleteOutline key root.outline = .absent) :
      DeleteResult key root work rest (.ok (false, root.pageID) work)
  | removed {updated : Root} {middle next : Work} {obsolete : List Nat}
      (present : SortedMap.lookup root.bindings key ≠ none)
      (replaced : Replaced root updated work middle next rest obsolete)
      (bindings : updated.bindings = SortedMap.erase key root.bindings)
      (outline : deleteOutline key root.outline = .removed updated.outline) :
      DeleteResult key root work rest (.ok (true, updated.pageID) next)
  | overflow {next : Work} (present : SortedMap.lookup root.bindings key ≠ none)
      (overflowed : Overflowed work next) (outline : deleteOutline key root.outline = .overflow) :
      DeleteResult key root work rest (.error errNodeFull next)

/-- The bindings of a key that a deletion looks for. -/
theorem Tree.lookup_ne_none (tree : Tree) (nonempty : key ≠ [])
    (present : ∃ entry ∈ tree.top.entries, entry.key = key) :
    lookup tree.bindings key ≠ none := by
  obtain ⟨entry, mem, rfl⟩ := present
  rw [← tree.lookup_entries nonempty, lookup_eq_some_of_mem tree.sorted mem]
  exact Option.some_ne_none _

/-- The last steps of a deletion that found its key. -/
theorem delete_finish {held : Tree} {updated : List (Item Nat held.height)} {obsolete : List Nat}
    {middle : Work} (nonempty : key ≠ []) (present : ∃ entry ∈ held.top.entries, entry.key = key)
    (entries : entriesOf updated = erase key held.top.entries)
    (shape : deleteItems key (held.top.items.map erase) = .removed (updated.map erase))
    (deleted : Deleted held.top.items work (held.top.label :: rest) updated obsolete middle) :
    (DeleteResult key (.tree held) work rest
      ((shrinkRoot (encodeItems pageSize updated) >>= fun newRootID => do
        TreeM.delAll (obsolete ++ [held.top.label]) return (true, newRootID)) middle)) ∨
    (∃ next, (shrinkRoot (encodeItems pageSize updated) >>= fun newRootID => do
        TreeM.delAll (obsolete ++ [held.top.label])
        return (true, newRootID)) middle = .ok (true, 0) next ∧ GaveUp work next) := by
  have sorted : Sorted (entriesOf updated) := by
    rw [entries]
    exact sorted_erase held.sorted key
  rw [held.erase_entries nonempty] at entries
  have storing : Storing updated := by
    refine ⟨?_, deleted.encodable, deleted.inside⟩
    rintro rfl
    cases entries
  have outline : deleteOutline key (Root.tree held).outline =
      .removed (shrinkOutline (updated.map erase)) := by
    rw [Root.outline, outline, deleteOutline, shape]
  rcases shrinkRoot_spec storing deleted.stored deleted.sound with
    ⟨k, top, last, shrunk, grown, topOutline⟩ | ⟨shrunk, single, unlabelled, none⟩ |
      ⟨last, shrunk, failed⟩
  · left
    obtain ⟨new, next, label, freed, replaced, bindings, same⟩ :=
      grown.replaced deleted.extended deleted.replaced entries sorted
    rw [bind_of_ok shrunk, bind_of_ok freed, ← label]
    refine .removed (held.lookup_ne_none nonempty present) replaced bindings ?_
    rw [outline, same, topOutline]
  · left
    have sound := deleted.sound
    rw [unlabelled] at sound
    obtain ⟨grouped, next, freed, soundNext, releases⟩ := delAll_obsolete sound
    have unbound : erase key held.bindings = [] := by
      rw [entries, length_cons] at single
      exact length_eq_zero_iff.mp (by omega)
    rw [bind_of_ok shrunk, bind_of_ok freed]
    exact @DeleteResult.removed _ _ _ _ .empty middle next _ (held.lookup_ne_none nonempty present)
      ⟨trivial, grouped, deleted.extended, mem_labels_of_obsolete deleted.replaced, releases,
        soundNext⟩ unbound.symm (outline.trans (congrArg _ none))
  · right
    refine ⟨_, (bind_of_ok shrunk).trans
      (bind_of_ok (TreeM.delAll_failed _ failed.failed)), failed.failed, ?_,
      failed.exhausted⟩
    exact (deleted.extended.trans failed.extended).kept

variable {root : Root}

section

variable (nonempty : key ≠ []) (keyLe : key.length ≤ maxKeySize) (stored : root.Stored work.working)
  (sound : work.Sound (root.labels ++ rest))
include nonempty keyLe stored sound

/-- A deletion of a key that is not there changes nothing. -/
theorem delete_absent (missing : lookup root.bindings key = none) :
    delete root.pageID key work = .ok (false, root.pageID) work := by
  cases root with
  | empty => exact delete_empty nonempty keyLe
  | tree held =>
    obtain ⟨page, valid, run⟩ := delete_tree nonempty keyLe stored
    have others : ∀ entry ∈ entriesOf held.top.items, entry.key ≠ key := by
      change lookup held.bindings key = none at missing
      rw [← held.lookup_entries nonempty] at missing
      exact ne_of_lookup_eq_none missing
    rw [run, bind_of_ok (deleteNode_absent (stored.height_lt sound) valid stored.pages.items
      (held.descends key) sound.below_root others)]
    rfl

/-- A deletion removes its key, unless a node outgrows its page or the allocator
fails. -/
theorem delete_spec : DeleteResult key root work rest (delete root.pageID key work) ∨
    (∃ next, delete root.pageID key work = .ok (true, 0) next ∧ GaveUp work next) ∨
    Fails work (delete root.pageID key work) := by
  cases root with
  | empty =>
    left
    rw [show delete (Root.pageID .empty) key work = _ from delete_empty nonempty keyLe]
    exact .absent rfl rfl
  | tree held =>
    obtain ⟨page, valid, run⟩ := delete_tree nonempty keyLe stored
    have descends := held.descends key
    have spec := deleteItems_spec descends.erase (by rw [pageBytes_erase]; exact held.fit.inside)
    rw [run]
    rcases deleteNode_spec (stored.height_lt sound) valid stored.pages.items descends
        sound.below_root with follows | fails
    · cases outcome : deleteItems key (held.top.items.map erase) with
      | absent =>
        rw [outcome] at follows spec
        left
        rw [bind_of_ok follows]
        refine .absent ?_ (by rw [Root.outline, outline, deleteOutline, outcome])
        change lookup held.bindings key = none
        rw [← held.lookup_entries nonempty]
        apply lookup_eq_none
        intro entry mem
        exact spec entry (by rw [entriesOf_erase]; exact mem)
      | overflow =>
        rw [outcome] at follows spec
        obtain ⟨next, inner, overflowed⟩ := follows
        left
        rw [bind_of_error inner]
        refine .overflow (held.lookup_ne_none nonempty ?_) overflowed
          (by rw [Root.outline, outline, deleteOutline, outcome])
        obtain ⟨entry, mem, same⟩ := spec
        exact ⟨entry, by rw [entriesOf_erase] at mem; exact mem, same⟩
      | removed shape =>
        rw [outcome] at follows spec
        obtain ⟨_, updated, obsolete, middle, inner, rfl, rfl, deleted⟩ := follows
        obtain ⟨present, entries, -, -⟩ := spec
        rw [entriesOf_erase, entriesOf_erase] at entries
        rw [entriesOf_erase] at present
        rw [bind_of_ok inner]
        rcases delete_finish nonempty present entries outcome deleted with result | failure
        · exact .inl result
        · exact .inr (.inl failure)
    · exact .inr (.inr fails.bind)

end

end Delete

end GoDatabase
