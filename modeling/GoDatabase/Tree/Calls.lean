import GoDatabase.Tree.Growth

/-!
# Calls on pages that satisfy the invariant

What single calls do on any pages that satisfy the structural invariant, whether a run
has reached them or not.  A range scan returns the bindings within its bounds, and an
insertion of an entry within the limits always finds room.
-/

namespace GoDatabase

open Library BNode List SortedMap Item Option

/-! ## The bindings on pages -/

/-- A leaf that can be reached from the root holds the entry, which is not the sentinel. -/
def StoredEntry (pages : PageMap) (root : Nat) (entry : Entry) : Prop :=
  entry.key ≠ [] ∧ ∃ pageID node idx, Reachable pages root pageID ∧ pages.lookup pageID =
    some node ∧ btype node = nodeTypeLeaf ∧ idx < nkeys node ∧
      (⟨getKey node idx, getVal node idx⟩ : Entry) = entry

section Leaves

variable {pages : PageMap}

/-- The page of a leaf holds its entries. -/
theorem Item.Stored.mem_leaf {tree : Item Nat 1} (stored : tree.Stored pages) {node : BNode}
    (found : pages.lookup tree.label = some node) (entry : Entry) : entry ∈ tree.entries ↔
      ∃ idx, idx < nkeys node ∧ (⟨getKey node idx, getVal node idx⟩ : Entry) = entry := by
  obtain ⟨page, here, valid⟩ := stored.page
  obtain rfl := some.inj (here.symm.trans found)
  have count : nkeys page = tree.items.length := by
    rw [valid.holds.count_eq, length_map]
  have entryAt (idx : Nat) (inside : idx < tree.items.length) :
      (⟨getKey page idx, getVal page idx⟩ : Entry) = tree.items[idx].entry := by
    have recorded : idx < (tree.items.map record).length := by
      rwa [length_map]
    rw [valid.holds.key_eq recorded, valid.holds.val_eq recorded, getElem_map]
    rfl
  rw [entries_succ, flatMap_entries, entriesOf_zero, count]
  constructor
  · intro mem
    obtain ⟨item, isItem, rfl⟩ := mem_map.mp mem
    obtain ⟨idx, inside, rfl⟩ := getElem_of_mem isItem
    exact ⟨idx, inside, entryAt idx inside⟩
  · rintro ⟨idx, inside, rfl⟩
    rw [entryAt idx inside]
    exact mem_map_of_mem (getElem_mem inside)

/-- The entries of a stored tree are those of its leaf pages. -/
theorem Item.Stored.mem_entries : ∀ {h : Nat} {tree : Item Nat (h + 1)}, tree.Stored pages →
    ∀ entry : Entry, entry ∈ tree.entries ↔ ∃ pageID node idx, pageID ∈ tree.labels ∧
      pages.lookup pageID = some node ∧ btype node = nodeTypeLeaf ∧ idx < nkeys node ∧
      (⟨getKey node idx, getVal node idx⟩ : Entry) = entry
  | 0, tree, stored, entry => by
    obtain ⟨page, here, valid⟩ := stored.page
    rw [stored.mem_leaf here]
    constructor
    · rintro ⟨idx, inside, rfl⟩
      exact ⟨tree.label, page, idx, mem_cons_self .., here, valid.holds.type_eq, inside, rfl⟩
    · rintro ⟨pageID, node, idx, mem, found, -, inside, rfl⟩
      rw [labels_succ, flatMap_labels, labelsOf_zero, mem_singleton] at mem
      subst mem
      obtain rfl := some.inj (here.symm.trans found)
      exact ⟨idx, inside, rfl⟩
  | h + 1, tree, stored, entry => by
    rw [entries_succ]
    constructor
    · intro mem
      obtain ⟨child, isChild, below⟩ := mem_flatMap.mp mem
      obtain ⟨pageID, node, idx, isLabel, rest⟩ :=
        ((stored.items child isChild).mem_entries entry).mp below
      exact ⟨pageID, node, idx,
        mem_cons_of_mem _ (mem_flatMap.mpr ⟨child, isChild, isLabel⟩), rest⟩
    · rintro ⟨pageID, node, idx, mem, found, isLeaf, rest⟩
      rcases mem_cons.mp mem with rfl | below
      · -- the page of the node itself is no leaf
        obtain ⟨page, here, valid⟩ := stored.page
        obtain rfl := some.inj (here.symm.trans found)
        rw [valid.holds.type_eq] at isLeaf
        exact absurd isLeaf (show nodeTypeInternal ≠ nodeTypeLeaf by decide)
      · obtain ⟨child, isChild, isLabel⟩ := mem_flatMap.mp below
        exact mem_flatMap.mpr ⟨child, isChild,
          ((stored.items child isChild).mem_entries entry).mpr
            ⟨pageID, node, idx, isLabel, found, isLeaf, rest⟩⟩

theorem Item.Stored.storedEntry_iff {h : Nat} {tree : Item Nat (h + 1)} (stored : tree.Stored pages)
    (nonzero : tree.label ≠ 0) (entry : Entry) :
    StoredEntry pages tree.label entry ↔ entry.key ≠ [] ∧ entry ∈ tree.entries := by
  simp only [StoredEntry, stored.reachable_iff nonzero, stored.mem_entries entry]

theorem Root.Stored.storedEntry_iff {root : Root} (stored : root.Stored pages) (entry : Entry) :
    StoredEntry pages root.pageID entry ↔ entry ∈ root.bindings := by
  cases root with
  | empty =>
    refine ⟨?_, fun mem => absurd mem not_mem_nil⟩
    rintro ⟨-, pageID, node, idx, reached, -⟩
    exact absurd (stored.reachable_iff.mp reached) not_mem_nil
  | tree held =>
    have whole := stored.pages.storedEntry_iff stored.nonzero entry
    rw [held.entries_eq, mem_cons] at whole
    refine whole.trans ⟨?_, fun mem => ⟨held.key_ne_nil mem, .inr mem⟩⟩
    rintro ⟨nonempty, rfl | mem⟩
    · exact absurd rfl nonempty
    · exact mem

theorem Root.sorted_bindings (root : Root) : Sorted root.bindings := by
  cases root with
  | empty => exact List.Pairwise.nil
  | tree held =>
    have sorted := held.sorted
    rw [held.entries_eq] at sorted
    exact (pairwise_cons.mp sorted).2

end Leaves

/-! ## Range scans -/

/-- A range scan returns exactly the bindings within its bounds, in ascending order. -/
theorem rangeValues_exact {pages : PageMap} {root : Nat} (invariant : TreeInvariant pages root)
    (bounded : root < 2 ^ 64) {start stop : Bytes} (startLe : start.length ≤ maxKeySize)
    (stopLe : stop.length ≤ maxKeySize) :
    ∃ entries, rangeValues pages root start stop = .ok entries ∧
      entries.Pairwise (fun left right => left.key < right.key) ∧
      ∀ entry, entry ∈ entries ↔
        StoredEntry pages root entry ∧ start ≤ entry.key ∧ entry.key ≤ stop := by
  obtain ⟨tree, rfl, stored, nodup⟩ := invariant.exists_stored bounded
  refine ⟨_, rangeValues_spec stored nodup startLe stopLe, tree.sorted_bindings.filter _, ?_⟩
  intro entry
  rw [List.mem_filter, decide_eq_true_eq, stored.storedEntry_iff]

/-- The scan goes from the second leaf to the third. -/
theorem rangeValues_exact_threeLeaves : ∃ entries,
    rangeValues threeLeaves.work.working threeLeaves.root [3] [4] = .ok entries ∧
      entries.Pairwise (fun left right => left.key < right.key) ∧
      (∀ entry, entry ∈ entries ↔ StoredEntry threeLeaves.work.working threeLeaves.root entry ∧
        [3] ≤ entry.key ∧ entry.key ≤ [4]) ∧
      ⟨[3], replicate 1500 0⟩ ∈ entries ∧ ⟨[4], replicate 600 0⟩ ∈ entries := by
  obtain ⟨tree, rest, tracks, outline, -⟩ := threeLeaves_reshapes
  obtain ⟨entries, run, sorted, exact⟩ := rangeValues_exact tracks.invariant.1 tracks.invariant.2.1
    (show ([3] : Bytes).length ≤ maxKeySize by decide)
    (show ([4] : Bytes).length ≤ maxKeySize by decide)
  refine ⟨entries, run, sorted, exact, ?_⟩
  rw [exact, exact, ← tracks.pageID, tracks.stored.storedEntry_iff, tracks.stored.storedEntry_iff,
    ← tree.bindings_outline, outline]
  decide +kernel

/-! ## Room for an insertion -/

/-- The 16-bit arithmetic on a node does not wrap around: its offsets are the sums of the
record sizes, and its positions stay within the buffer. -/
structure Unwrapped (capacity : Nat) (node : BNode) : Prop where
  offset : ∀ idx, idx ≤ nkeys node → getOffset node idx = recordBytes ((recordsOf node).take idx)
  position : ∀ idx, idx ≤ nkeys node → kvPos node idx =
    pageHeaderSize + nkeys node * (pagePtrSize + pageOffsetSize) + getOffset node idx
  inside : nbytes node ≤ capacity

/-- An updated node fits the work buffer and is split into at most three pages. -/
structure Splittable (node updated : BNode) : Prop where
  built : Unwrapped (2 * pageSize) updated
  count : nkeys node ≤ nkeys updated ∧ nkeys updated ≤ nkeys node + 2
  parts : ∃ parts, nodeSplit3 updated = .ok parts ∧ 1 ≤ parts.length ∧ parts.length ≤ 3 ∧
    ∀ part ∈ parts, Unwrapped pageSize part

theorem Holds.recordsOf_eq {node : BNode} {nodeType : Nat} {records : List Record}
    (holds : Holds node nodeType records) : recordsOf node = records := by
  apply ext_getElem
  · rw [length_recordsOf, holds.count_eq]
  · intro idx inNode inRecords
    rw [getElem_recordsOf]
    exact holds.record_eq idx inRecords

/-- A node that holds records within a small buffer. -/
theorem Holds.unwrapped {node : BNode} {nodeType capacity : Nat} {records : List Record}
    (holds : Holds node nodeType records) (inside : nodeSize records ≤ capacity)
    (bounded : capacity < 2 ^ 16) : Unwrapped capacity node := by
  have count := holds.count_eq
  refine ⟨?_, ?_, ?_⟩
  · intro idx bound
    rw [holds.recordsOf_eq]
    exact holds.offset_eq idx (count ▸ bound)
  · intro idx bound
    have part := recordBytes_take_le records idx
    rw [nodeSize] at inside
    rw [kvPos, holds.offset_eq idx (count ▸ bound), count, Nat.mod_eq_of_lt (by omega),
      Nat.mod_eq_of_lt (by omega)]
  · rw [holds.nbytes_eq (by omega)]
    exact inside

theorem length_put_bounds (key value : Bytes) (entries : List Entry) :
    entries.length ≤ (put key value entries).length ∧
      (put key value entries).length ≤ entries.length + 1 := by
  induction entries with
  | nil => exact ⟨Nat.zero_le _, Nat.le_refl _⟩
  | cons entry entries ih =>
    rw [put]
    split_ifs <;> simp only [length_cons] <;> omega

/-- An insertion adds at most two items to a node. -/
theorem length_insertItems {key value : Bytes} (storable : Storable key value) {h : Nat}
    {items : List (Item Unit h)} (descends : Descends items key)
    (inside : pageBytes items ≤ pageSize) :
    items.length ≤ (insertItems key value items).length ∧
      (insertItems key value items).length ≤ items.length + 2 := by
  cases h with
  | zero =>
    have bounds := length_put_bounds key value (items.map entry)
    rw [length_map] at bounds
    rw [insertItems, length_map]
    omega
  | succ h =>
    obtain ⟨before, child, after, around⟩ := descends.around
    have childFit := around.fit descends.fit
    have childDescends := descends.child around
    obtain ⟨fit, light⟩ := insertItems_spec storable childDescends childFit.inside
    have split := splitItems_parts fit (insertItems_ne_nil childDescends)
      (light.trans (Nat.add_le_add_right childFit.inside _))
    have some := length_pos_iff.mpr split.ne_nil
    have few := split.few
    rw [insertItems_around around, around.shape]
    simp only [length_append, length_map, length_cons]
    omega

/-- The updated node of an insertion. -/
theorem Inserted.splittable {key value : Bytes} {h : Nat} {items updated : List (Item Nat h)}
    {work next : Work} {rest obsolete : List Nat} {node : BNode}
    (inserted : Inserted key value items work rest updated obsolete next)
    (storable : Storable key value) (descends : Descends items key)
    (valid : ValidPage node (nodeType h) (items.map record)) :
    Splittable node (encodeItems (2 * pageSize) updated) := by
  have inside := valid.pageBytes_le
  have doubled := inserted.doubled storable descends inside
  have holds := inserted.encodable.holds doubled (by decide)
  have split := inserted.parts storable descends inside
  have bounds := length_insertItems storable descends.erase (by rwa [pageBytes_erase])
  rw [← inserted.shape, length_map, length_map] at bounds
  refine ⟨holds.unwrapped (by rwa [nodeSize_records]) (by decide), ?_, _,
    inserted.nodeSplit3_ok storable descends inside, ?_, ?_, ?_⟩
  · rw [holds.count_eq, valid.holds.count_eq, length_map, length_map]
    exact bounds
  · rw [length_map]
    exact length_pos_iff.mpr split.ne_nil
  · rw [length_map]
    exact split.few
  · intro page isPage
    obtain ⟨part, isPart, rfl⟩ := mem_map.mp isPage
    have storing := split.storing inserted.encodable part isPart
    exact storing.validPage.holds.unwrapped storing.validPage.inside (by decide)

/-- Every page of a stored tree is the top of a part of it. -/
theorem Item.Stored.exists_part {pages : PageMap} {pageID : Nat} :
    ∀ {h : Nat} {tree : Item Nat (h + 1)}, tree.Stored pages → tree.Fit →
    Sorted tree.entries → pageID ∈ tree.labels →
    ∃ (k : Nat) (part : Item Nat (k + 1)) (others : List Nat), k ≤ h ∧ part.label = pageID ∧
      part.Stored pages ∧ part.Fit ∧ Sorted part.entries ∧
      tree.labels.Perm (labelsOf part.items ++ (pageID :: others))
  | h, tree, stored, fit, sorted, mem => by
    rcases mem_cons.mp mem with rfl | below
    · refine ⟨h, tree, [], Nat.le_refl _, rfl, stored, fit, sorted, ?_⟩
      rw [labels_succ, flatMap_labels]
      exact perm_append_singleton .. |>.symm
    obtain ⟨child, isChild, isLabel⟩ := mem_flatMap.mp below
    cases h with
    | zero => exact absurd isLabel not_mem_nil
    | succ h =>
      obtain ⟨k, part, others, small, label, partStored, partFit, partSorted, perm⟩ :=
        (stored.items child isChild).exists_part (fit.items child isChild)
          (sorted_entries_of_mem sorted isChild) isLabel
      obtain ⟨before, after, shape⟩ := append_of_mem isChild
      refine ⟨k, part, others ++
        (tree.label :: (labelsOf before ++
          labelsOf after)), by omega, label, partStored, partFit, partSorted, ?_⟩
      rw [labels_succ, flatMap_labels, shape, labelsOf_append, labelsOf_cons]
      have front : (tree.label :: (labelsOf before ++ (child.labels ++ labelsOf after))).Perm
          (child.labels ++ (tree.label :: (labelsOf before ++ labelsOf after))) := by
        refine (List.Perm.cons _ ?_).trans perm_middle.symm
        rw [← append_assoc, ← append_assoc]
        exact perm_append_comm.append_right _
      refine front.trans ((perm.append_right _).trans ?_)
      rw [append_assoc, cons_append]

/-- Within the limits an insertion succeeds unless a callback fails; on every page that it
may update, the updated node fits the work buffer and is split into at most three pages. -/
theorem insert_succeeds {work : Work} {live : List Nat} {root : Nat} (sound : work.Sound live)
    (owned : ∀ pageID, Reachable work.working root pageID → pageID ∈ live)
    (invariant : TreeInvariant work.working root) {key value : Bytes} (nonempty : key ≠ [])
    (keyLe : key.length ≤ 1000) (valueLe : value.length ≤ 3000) :
    ((Fallible.after (insert root key value work)).callbackErr = none →
      ∃ newRoot next, insert root key value work = .ok newRoot next) ∧
    ∀ pageID, Reachable work.working root pageID → getKey (work.working.page pageID) 0 ≤ key →
      ∀ updated obsolete next, insertNode key value work.working.descents
        (work.working.page pageID) work = .ok (updated, obsolete) next →
      Splittable (work.working.page pageID) updated := by
  obtain ⟨tree, rfl, stored, rest, soundTree⟩ := exists_root sound owned invariant
  have storable : Storable key value := ⟨nonempty, keyLe, valueLe⟩
  constructor
  · intro clean
    rcases insert_spec storable stored soundTree with
      ⟨updated, middle, next, obsolete, run, -⟩ | ⟨next, run, -⟩ | ⟨err, next, run, failed⟩
    · exact ⟨_, _, run⟩
    · exact ⟨_, _, run⟩
    · rw [run] at clean
      exact absurd clean failed.failed
  · intro pageID reached low updated obsolete next run
    cases tree with
    | empty => exact absurd (stored.reachable_iff.mp reached) List.not_mem_nil
    | tree held =>
      obtain ⟨k, part, others, small, rfl, partStored, partFit, partSorted, perm⟩ :=
        stored.pages.exists_part held.fit held.sorted (stored.reachable_iff.mp reached)
      obtain ⟨page, found, valid⟩ := partStored.page
      have here : work.working.page part.label = page := PageMap.page_of_lookup found
      have deep := stored.height_lt soundTree
      rw [here] at low run ⊢
      have descends : Descends part.items key := by
        refine ⟨partFit.items, partSorted, ?_⟩
        cases shape : part.items with
        | nil => exact absurd shape partFit.nonempty
        | cons first rest =>
          refine ⟨first, rest, rfl, ?_⟩
          rw [shape] at valid
          rwa [valid.holds.key_eq (by simp), List.getElem_map, Item.key_record] at low
      have soundPart : work.Sound (labelsOf part.items ++ (part.label :: (others ++ rest))) := by
        refine soundTree.perm ?_
        have grouped := perm.append_right rest
        rwa [List.append_assoc, List.cons_append] at grouped
      rcases insertNode_spec storable (Nat.lt_of_le_of_lt small deep) valid
          partStored.items descends soundPart with
        ⟨items, pages, last, inner, inserted⟩ | ⟨err, last, inner, -⟩
      · rw [inner] at run
        obtain ⟨⟨⟩⟩ := run
        exact inserted.splittable storable descends valid
      · rw [inner] at run
        cases run

/-- Where pages are left, the node of the root is rewritten as its shape says. -/
theorem TreeState.Tracks.insertNode_root {state : TreeState} {tree : Root} {rest : List Nat}
    {h : Nat} {items : List (Item Unit h)} {key value : Bytes} (tracks : state.Tracks tree rest)
    (outline : tree.outline = .tree h items) (room : 4 * state.work.reserved + 7 ≤ maxPageID)
    (storable : Storable key value) :
    Reachable state.work.working state.root state.root ∧
    getKey (state.work.working.page state.root) 0 ≤ key ∧ ∃ updated obsolete next parts,
      insertNode key value state.work.working.descents (state.work.working.page state.root)
        state.work = .ok (updated, obsolete) next ∧
      nkeys updated = (insertItems key value items).length ∧
      nodeSplit3 updated = .ok parts ∧
      parts.length = (splitItems (insertItems key value items)).length := by
  cases tree with
  | empty => cases outline
  | tree held =>
    obtain ⟨rfl, same⟩ := Outline.tree.inj outline
    obtain rfl := eq_of_heq same
    obtain ⟨page, found, valid⟩ := tracks.stored.pages.page
    have descends := held.descends key
    have few := tracks.sound.descents_le
    have limit : (Fallible.after (insertNode key value _ page state.work)).reserved ≤ _ + 3 * _ :=
      insertNode_reserves key value state.work.working.descents page state.work
    rw [← tracks.pageID, show state.work.working.page (Root.tree held).pageID = page from
      PageMap.page_of_lookup found]
    refine ⟨.root tracks.stored.nonzero, ?_, ?_⟩
    · obtain ⟨first, others, shape, low⟩ := descends.low
      have records : held.top.items.map record =
        first.record :: others.map record := by rw [shape]; rfl
      rw [valid.holds.key_eq (by simp [records])]
      simpa [records] using low
    rcases insertNode_spec storable (tracks.stored.height_lt tracks.sound) valid
        tracks.stored.pages.items descends tracks.sound.below_root with
      ⟨updated, obsolete, next, run, inserted⟩ | ⟨err, next, run, failed⟩
    · have inside := valid.pageBytes_le
      have holds := inserted.encodable.holds (inserted.doubled storable descends inside) (by decide)
      refine ⟨_, obsolete, next, _, run, ?_, inserted.nodeSplit3_ok storable descends inside, ?_⟩
      · rw [holds.count_eq, ← inserted.shape, length_map, length_map]
      · rw [← inserted.shape, splitItems_erase, length_map, length_map]
    · rw [run] at limit
      exact absurd failed.exhausted (Nat.not_lt.mpr (limit.trans (by omega)))

theorem TreeCall.insert_of_run {key value : Bytes} {root newRoot : Nat} {work next : Work}
    {changed : Bool} (run : (TreeCall.insert key value).run root work =
      .ok (changed, newRoot) next) :
    GoDatabase.insert root key value work = .ok newRoot next := by
  rw [TreeCall.run] at run
  cases outcome : GoDatabase.insert root key value work with
  | ok made after =>
    rw [Fallible.bind_of_ok outcome] at run
    cases run
    rfl
  | error err after =>
    rw [Fallible.bind_of_error outcome] at run
    cases run

/-- A longer value splits the second leaf, and the root gets a fourth child. -/
theorem insert_succeeds_split : ∃ newRoot next updated obsolete last,
    insert threeLeaves.root [3] (replicate 3000 1) threeLeaves.work = .ok newRoot next ∧
      insertNode [3] (replicate 3000 1) threeLeaves.work.working.descents
        (threeLeaves.work.working.page threeLeaves.root) threeLeaves.work =
          .ok (updated, obsolete) last ∧ nkeys updated = 4 ∧
      Splittable (threeLeaves.work.working.page threeLeaves.root) updated := by
  have storable : Storable [3] (replicate 3000 1) :=
    ⟨by decide, by decide, Nat.le_of_eq length_replicate⟩
  obtain ⟨tree, rest, tracks, outline, room⟩ := threeLeaves_reshapes
  obtain ⟨reached, low, updated, obsolete, last, -, rewritten, count, -⟩ :=
    tracks.insertNode_root outline room storable
  obtain ⟨clean, splittable⟩ := insert_succeeds tracks.sound tracks.invariant.2.2
    tracks.invariant.1 storable.nonempty storable.key_le storable.value_le
  obtain ⟨_, _, _, _, _, _, _, _, run, replaced, -⟩ :=
    @threeLeaves_call (.insert [3] (replicate 3000 1)) _ storable rfl
  obtain ⟨newRoot, next, inserted⟩ := clean (by
    rw [TreeCall.insert_of_run run]
    exact replaced.soundNext.clean)
  refine ⟨newRoot, next, updated, obsolete, last, inserted, rewritten, ?_,
    splittable _ reached low updated obsolete last rewritten⟩
  rw [count]
  decide +kernel

end GoDatabase
