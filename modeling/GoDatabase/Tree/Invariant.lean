import GoDatabase.Tree.Root

/-!
# The structural invariant on pages

The invariant of the persistent tree in terms of pages alone, without the tree that
they represent: what the pages below a root have to satisfy so that every operation
works on them.  It holds exactly of the pages that store a tree.
-/

namespace GoDatabase

open Library BNode List SortedMap Item

/-- The keys of a page. -/
def pageKeys (node : BNode) : List Bytes := (List.range (nkeys node)).map (getKey node)

/-- The child pointers of a page. -/
def childPages (node : BNode) : List Nat := (List.range (nkeys node)).map (getPtr node)

section Below

variable (pages : PageMap)

/-- The pages at and below a page whose leaves are `height` levels down. -/
def pagesBelow : (height : Nat) → (pageID : Nat) → List Nat
  | 0, pageID => [pageID]
  | height + 1, pageID =>
    pageID :: (childPages (pages.page pageID)).flatMap (pagesBelow height)

/-- The keys of these pages. -/
def keysBelow : (height : Nat) → (pageID : Nat) → List Bytes
  | 0, pageID => pageKeys (pages.page pageID)
  | height + 1, pageID =>
    pageKeys (pages.page pageID) ++
      (childPages (pages.page pageID)).flatMap (keysBelow height)

/-- The path along first children. -/
def leftmostPath : (height : Nat) → (pageID : Nat) → List Nat
  | 0, pageID => [pageID]
  | height + 1, pageID => pageID :: leftmostPath height (getPtr (pages.page pageID) 0)

/-- What is required of a page by itself. -/
structure PageSound (nodeType pageID : Nat) : Prop where
  valid : validateBNode (pages.page pageID) = .ok ()
  typed : btype (pages.page pageID) = nodeType
  size : nbytes (pages.page pageID) ≤ pageSize
  nonempty : 0 < nkeys (pages.page pageID)

/-- What is required of the separator of a child: it is the child's first key, and
the next separator is above everything below the child. -/
structure Separated (height : Nat) (node : BNode) (idx : Nat) : Prop where
  first : getKey node idx = getKey (pages.page (getPtr node idx)) 0
  below : idx + 1 < nkeys node →
    ∀ key ∈ keysBelow pages height (getPtr node idx), key < getKey node (idx + 1)

/-- All leaves are `height` levels down, every page is sound and every child is
separated. -/
def WellStructured : (height : Nat) → (pageID : Nat) → Prop
  | 0, pageID => PageSound pages nodeTypeLeaf pageID
  | height + 1, pageID =>
    PageSound pages nodeTypeInternal pageID ∧
      ∀ idx, idx < nkeys (pages.page pageID) →
        Separated pages height (pages.page pageID) idx ∧
          WellStructured height (getPtr (pages.page pageID) idx)

/-- The structural invariant of the tree below a nonzero root. -/
structure TreeShape (root height : Nat) : Prop where
  structured : WellStructured pages height root
  /-- No page is referenced twice. -/
  unique : (pagesBelow pages height root).Nodup
  /-- The sentinel is the first key of the pages on the leftmost path, and occurs
  nowhere else. -/
  sentinel : ∀ pageID ∈ pagesBelow pages height root, ∀ idx, idx < nkeys (pages.page pageID) →
    (getKey (pages.page pageID) idx = [] ↔ idx = 0 ∧ pageID ∈ leftmostPath pages height root)

def TreeInvariant (root : Nat) : Prop := root ≠ 0 → ∃ height, TreeShape pages root height

end Below

variable {pages : PageMap}

/-! ## The tree that the pages represent -/

/-- The tree below a page whose leaves are `height` levels down. -/
def itemBelow (pages : PageMap) : (height : Nat) → (pageID : Nat) → Item Nat (height + 1)
  | 0, pageID =>
    Item.node pageID ((recordsOf (pages.page pageID)).map fun record =>
      Item.ofEntry ⟨record.key, record.value⟩)
  | height + 1, pageID =>
    Item.node pageID ((childPages (pages.page pageID)).map (itemBelow pages height))

@[simp] theorem label_itemBelow (height pageID : Nat) :
    (itemBelow pages height pageID).label = pageID := by
  cases height <;> rfl

theorem labels_itemBelow : ∀ height pageID,
    (itemBelow pages height pageID).labels = pagesBelow pages height pageID
  | 0, pageID => by
    rw [itemBelow, labels_succ, flatMap_labels, labelsOf_zero]
    rfl
  | height + 1, pageID => by
    rw [itemBelow, labels_succ, pagesBelow, label_node, items_node, flatMap_map]
    congr 2
    funext child
    exact labels_itemBelow height child

/-- A page in memory that passes validation is loaded. -/
theorem PageSound.found {nodeType pageID : Nat} (sound : PageSound pages nodeType pageID) :
    pages.lookup pageID = some (pages.page pageID) := by
  cases found : pages.lookup pageID with
  | some page => rw [PageMap.page, found, Option.getD_some]
  | none =>
    have valid := sound.valid
    rw [PageMap.page, found, Option.getD_none] at valid
    cases valid

theorem PageSound.validPage {nodeType pageID : Nat} (sound : PageSound pages nodeType pageID) :
    ValidPage (pages.page pageID) nodeType (recordsOf (pages.page pageID)) :=
  sound.typed ▸ validPage_of_valid sound.valid

/-- What the tree below a well-structured page satisfies. -/
structure Represents (pages : PageMap) {h : Nat} (tree : Item Nat (h + 1)) : Prop where
  stored : tree.Stored pages
  fit : tree.Fit
  key_eq : tree.key = getKey (pages.page tree.label) 0
  known : ∀ entry ∈ tree.entries, entry.key ∈ keysBelow pages h tree.label
  sorted : SortedMap.Sorted tree.entries

/-- The common part of both cases: the items of a page are its records. -/
theorem represents_of_records {h pageID : Nat} {items : List (Item Nat h)}
    (sound : PageSound pages (nodeType h) pageID)
    (records : items.map record = recordsOf (pages.page pageID))
    (fit : ∀ item ∈ items, item.Fit) (stored : ∀ item ∈ items, item.Stored pages)
    (known : ∀ entry ∈ entriesOf items, entry.key ∈ keysBelow pages h pageID)
    (sorted : Sorted (entriesOf items)) : Represents pages (Item.node pageID items) := by
  have valid : ValidPage (pages.page pageID) (nodeType h) (items.map record) :=
    records ▸ sound.validPage
  have length : items.length = nkeys (pages.page pageID) := by
    rw [← length_recordsOf, ← records, length_map]
  have nonempty : items ≠ [] := by
    intro none
    have positive := sound.nonempty
    rw [← length, none] at positive
    exact absurd positive (Nat.lt_irrefl 0)
  refine ⟨⟨⟨_, sound.found, valid⟩, stored⟩, fit_node nonempty valid.pageBytes_le fit, ?_,
    known, sorted⟩
  cases shape : items with
  | nil => exact absurd shape nonempty
  | cons first rest =>
    rw [shape] at valid
    rw [label_node, valid.holds.key_eq (by simp)]
    simp only [map_cons, getElem_cons_zero, key_record]
    rfl

theorem mem_pageKeys {node : BNode} {idx : Nat} (inside : idx < nkeys node) :
    getKey node idx ∈ pageKeys node :=
  mem_map_of_mem (mem_range.mpr inside)

/-- The entries of a leaf. -/
theorem represents_leaf {pageID : Nat} (sound : PageSound pages nodeTypeLeaf pageID) :
    Represents pages (itemBelow pages 0 pageID) := by
  have valid := sound.validPage
  have records : ((recordsOf (pages.page pageID)).map fun record =>
      (ofEntry ⟨record.key, record.value⟩ : Item Nat 0)).map record =
      recordsOf (pages.page pageID) := by
    rw [map_map]
    refine (map_congr_left ?_).trans (map_id _)
    intro record mem
    obtain ⟨idx, inside, rfl⟩ := getElem_of_mem mem
    have child := (valid.admissible idx inside).leaf rfl
    simp only [Function.comp_apply, record, id]
    rw [← child]
    rfl
  have entries : entriesOf ((recordsOf (pages.page pageID)).map fun record =>
      (ofEntry ⟨record.key, record.value⟩ : Item Nat 0)) =
      (recordsOf (pages.page pageID)).map fun record => (⟨record.key, record.value⟩ : Entry) := by
    rw [entriesOf_zero, map_map]
    rfl
  refine represents_of_records sound records ?_ (fun _ _ => trivial) ?_ ?_
  · intro item mem
    obtain ⟨record, isRecord, rfl⟩ := mem_map.mp mem
    obtain ⟨idx, inside, rfl⟩ := getElem_of_mem isRecord
    have admissible := valid.admissible idx inside
    exact ⟨admissible.key_le, admissible.value_le, admissible.sentinel⟩
  · intro entry mem
    rw [entries] at mem
    obtain ⟨record, isRecord, rfl⟩ := mem_map.mp mem
    obtain ⟨idx, inside, rfl⟩ := getElem_of_mem isRecord
    rw [getElem_recordsOf]
    exact mem_pageKeys (by simpa using inside)
  · rw [entries]
    exact pairwise_map.mpr valid.ascend

/-- The children of an internal page. -/
theorem represents_internal {height pageID : Nat} (sound : PageSound pages nodeTypeInternal pageID)
    (separated : ∀ idx, idx < nkeys (pages.page pageID) →
      Separated pages height (pages.page pageID) idx)
    (below : ∀ idx, idx < nkeys (pages.page pageID) →
      Represents pages (itemBelow pages height (getPtr (pages.page pageID) idx))) :
    Represents pages (itemBelow pages (height + 1) pageID) := by
  obtain ⟨node, node_eq⟩ : ∃ node, node = pages.page pageID := ⟨_, rfl⟩
  have valid := sound.validPage
  rw [itemBelow]
  rw [← node_eq] at separated below valid ⊢
  have keyAt : ∀ idx, idx < nkeys node →
      (itemBelow pages height (getPtr node idx)).key = getKey node idx := by
    intro idx inside
    rw [(below idx inside).key_eq, label_itemBelow, (separated idx inside).first]
  have records : ((childPages node).map (itemBelow pages height)).map record =
      recordsOf node := by
    rw [childPages, recordsOf, map_map, map_map]
    apply map_congr_left
    intro idx inside
    have inRange : idx < nkeys node := mem_range.mp inside
    have value := ((valid.admissible idx (by simpa using inRange)).internal rfl).2
    rw [getElem_recordsOf] at value
    simp only [Function.comp_apply, record, label_itemBelow, keyAt idx inRange, recordAt,
      Record.mk.injEq, true_and]
    exact value.symm
  have members : ∀ item ∈ (childPages node).map (itemBelow pages height),
      ∃ idx, idx < nkeys node ∧ item = itemBelow pages height (getPtr node idx) := by
    intro item mem
    obtain ⟨child, isChild, rfl⟩ := mem_map.mp mem
    obtain ⟨idx, inside, rfl⟩ := mem_map.mp isChild
    exact ⟨idx, mem_range.mp inside, rfl⟩
  refine represents_of_records sound (node_eq ▸ records) ?_ ?_ ?_ ?_
  · intro item mem
    obtain ⟨idx, inside, rfl⟩ := members item mem
    exact (below idx inside).fit
  · intro item mem
    obtain ⟨idx, inside, rfl⟩ := members item mem
    exact (below idx inside).stored
  · intro entry mem
    obtain ⟨item, isItem, isEntry⟩ := mem_flatMap.mp mem
    obtain ⟨idx, inside, rfl⟩ := members item isItem
    have known := (below idx inside).known entry isEntry
    rw [label_itemBelow] at known
    rw [keysBelow, ← node_eq]
    exact mem_append_right _ (mem_flatMap.mpr
      ⟨_, mem_map_of_mem (mem_range.mpr inside), known⟩)
  · -- entries of an earlier child stay below the separator that follows it
    refine pairwise_flatMap.mpr ⟨?_, ?_⟩
    · intro item mem
      obtain ⟨idx, inside, rfl⟩ := members item mem
      exact (below idx inside).sorted
    rw [childPages, pairwise_map, pairwise_map]
    refine List.Pairwise.imp_of_mem ?_ pairwise_lt_range
    intro left right leftInside rightInside before entry isLeft other isRight
    rw [mem_range] at leftInside rightInside
    have known := (below left leftInside).known entry isLeft
    rw [label_itemBelow] at known
    have separator := (separated left leftInside).below (by omega) _ known
    have least := key_le_of_mem_entries (below right rightInside).fit
      (below right rightInside).sorted isRight
    rw [keyAt right rightInside] at least
    have ordered : getKey node (left + 1) ≤ getKey node right := by
      rcases Nat.lt_or_eq_of_le before with further | rfl
      · have keys := pairwise_iff_getElem.mp valid.ascend (left + 1) right
          (by simp; omega) (by simpa using rightInside) further
        rw [getElem_recordsOf, getElem_recordsOf] at keys
        exact le_of_lt keys
      · exact le_refl _
    exact lt_of_lt_of_le separator (ordered.trans least)

/-- Well-structured pages represent a tree. -/
theorem WellStructured.represents : ∀ {height pageID : Nat},
    WellStructured pages height pageID → Represents pages (itemBelow pages height pageID)
  | 0, _, structured => represents_leaf structured
  | _ + 1, _, structured =>
    represents_internal structured.1 (fun idx inside => (structured.2 idx inside).1)
      fun idx inside => WellStructured.represents (structured.2 idx inside).2

/-- Entries with the sentinel key are empty. -/
theorem Item.Fit.sentinel_value {ι : Type} : ∀ {h : Nat} {item : Item ι h}, item.Fit →
    ∀ entry ∈ item.entries, entry.key = [] → entry.value = []
  | 0, item, fit, entry, mem, empty => by
    rw [mem_singleton.mp mem] at empty ⊢
    exact fit.2.2 empty
  | h + 1, tree, fit, entry, mem, empty => by
    obtain ⟨item, isItem, isEntry⟩ := mem_flatMap.mp mem
    exact (fit.items item isItem).sentinel_value entry isEntry empty

/-- Pages that satisfy the invariant store a tree. -/
theorem TreeInvariant.exists_stored {root : Nat} (invariant : TreeInvariant pages root)
    (bounded : root < 2 ^ 64) :
    ∃ tree : Root, tree.pageID = root ∧ tree.Stored pages ∧ tree.labels.Nodup := by
  by_cases empty : root = 0
  · exact ⟨.empty, empty.symm, trivial, nodup_nil⟩
  obtain ⟨height, shape⟩ := invariant empty
  have represents := shape.structured.represents
  have labels := @labels_itemBelow pages height root
  have own : root ∈ pagesBelow pages height root := by
    rw [← labels, labels_succ, label_itemBelow]
    exact mem_cons_self ..
  have leftmost : root ∈ leftmostPath pages height root := by
    cases height <;> exact mem_cons_self ..
  have positive : 0 < nkeys (pages.page root) := by
    cases height with
    | zero => exact PageSound.nonempty shape.structured
    | succ height => exact shape.structured.1.nonempty
  have key := represents.key_eq
  rw [label_itemBelow, (shape.sentinel root own 0 positive).mpr ⟨rfl, leftmost⟩] at key
  obtain ⟨value, rest, entries⟩ := represents.fit.entries_eq_cons
  have nothing := represents.fit.sentinel_value _ (entries ▸ mem_cons_self ..) key
  have sentinel : (itemBelow pages height root).entries.head? = some ⟨[], []⟩ := by
    rw [entries, key, show value = [] from nothing]
    rfl
  refine ⟨.tree ⟨height, _, represents.fit, represents.sorted, sentinel⟩,
    label_itemBelow height root, ⟨represents.stored, ?_⟩, ?_⟩
  · change 0 < (itemBelow pages height root).label ∧ (itemBelow pages height root).label < 2 ^ 64
    rw [label_itemBelow]
    exact ⟨Nat.pos_of_ne_zero empty, bounded⟩
  · change (itemBelow pages height root).labels.Nodup
    rw [labels]
    exact shape.unique

/-! ## The pages of a stored tree -/

section Stored

variable {h : Nat} {tree : Item Nat (h + 1)}

theorem Holds.pageKeys_eq {node : BNode} {nodeType : Nat} {items : List (Item Nat h)}
    (holds : Holds node nodeType (items.map record)) : pageKeys node = items.map key := by
  have count : nkeys node = items.length := by rw [holds.count_eq, length_map]
  apply ext_getElem
  · simp [pageKeys, count]
  · intro idx left right
    rw [length_map] at right
    simp only [pageKeys, getElem_map, getElem_range]
    rw [holds.key_eq (by simpa using right), getElem_map, key_record]

theorem Holds.childPages_eq {node : BNode} {nodeType : Nat} {items : List (Item Nat (h + 1))}
    (holds : Holds node nodeType (items.map record)) :
    childPages node = items.map label := by
  have count : nkeys node = items.length := by rw [holds.count_eq, length_map]
  apply ext_getElem
  · simp [childPages, count]
  · intro idx left right
    rw [length_map] at right
    simp only [childPages, getElem_map, getElem_range]
    rw [holds.ptr_eq (by simpa using right), getElem_map]
    rfl

/-- The page of a stored node. -/
theorem Item.Stored.page_valid (stored : tree.Stored pages) :
    ValidPage (pages.page tree.label) (nodeType h) (tree.items.map record) := by
  obtain ⟨page, found, valid⟩ := stored.page
  rw [PageMap.page, found, Option.getD_some]
  exact valid

theorem Item.Stored.pageSound (stored : tree.Stored pages)
    (fit : tree.Fit) : PageSound pages (nodeType h) tree.label where
  valid := stored.page_valid.valid
  typed := stored.page_valid.holds.type_eq
  size := by
    rw [stored.page_valid.nbytes_eq]
    exact stored.page_valid.inside
  nonempty := by
    rw [stored.page_valid.holds.count_eq, length_map]
    exact length_pos_iff.mpr fit.nonempty

theorem Item.Stored.pagesBelow_eq : ∀ {h : Nat} {tree : Item Nat (h + 1)}, tree.Stored pages →
    pagesBelow pages h tree.label = tree.labels
  | 0, tree, _ => by
    rw [pagesBelow, labels_succ, flatMap_labels, labelsOf_zero]
  | h + 1, tree, stored => by
    rw [pagesBelow, stored.page_valid.holds.childPages_eq, flatMap_map, labels_succ]
    congr 1
    exact flatMap_congr fun item mem => (stored.items item mem).pagesBelow_eq

/-- The keys of the pages of a tree are keys of its entries. -/
theorem Item.Stored.mem_keysBelow : ∀ {h : Nat} {tree : Item Nat (h + 1)}, tree.Stored pages →
    tree.Fit → ∀ key ∈ keysBelow pages h tree.label, ∃ entry ∈ tree.entries, entry.key = key
  | 0, tree, stored, fit, key, mem => by
    rw [keysBelow, stored.page_valid.holds.pageKeys_eq] at mem
    obtain ⟨item, isItem, rfl⟩ := mem_map.mp mem
    exact ⟨item.entry, mem_flatMap.mpr ⟨item, isItem, mem_singleton_self _⟩, rfl⟩
  | h + 1, tree, stored, fit, key, mem => by
    rw [keysBelow, stored.page_valid.holds.pageKeys_eq, stored.page_valid.holds.childPages_eq,
      flatMap_map] at mem
    rcases mem_append.mp mem with here | below
    · obtain ⟨item, isItem, rfl⟩ := mem_map.mp here
      obtain ⟨value, first⟩ := mem_entries_of_key (fit.items item isItem)
      exact ⟨_, mem_flatMap.mpr ⟨item, isItem, first⟩, rfl⟩
    · obtain ⟨item, isItem, isKey⟩ := mem_flatMap.mp below
      obtain ⟨entry, isEntry, same⟩ :=
        (stored.items item isItem).mem_keysBelow (fit.items item isItem) key isKey
      exact ⟨entry, mem_flatMap.mpr ⟨item, isItem, isEntry⟩, same⟩

theorem Item.Stored.first_key (stored : tree.Stored pages)
    (fit : tree.Fit) : getKey (pages.page tree.label) 0 = tree.key := by
  obtain ⟨first, rest, shape⟩ := fit.exists_cons
  have valid := stored.page_valid
  rw [shape] at valid
  rw [valid.holds.key_eq (by simp), key_of_items shape]
  simp

theorem Item.Stored.wellStructured : ∀ {h : Nat} {tree : Item Nat (h + 1)}, tree.Stored pages →
    tree.Fit → Sorted tree.entries → WellStructured pages h tree.label
  | 0, tree, stored, fit, _ => stored.pageSound fit
  | h + 1, tree, stored, fit, sorted => by
    have holds := stored.page_valid.holds
    refine ⟨stored.pageSound fit, ?_⟩
    intro idx inside
    rw [holds.count_eq, length_map] at inside
    have mem : tree.items[idx] ∈ tree.items := getElem_mem inside
    have pointer : getPtr (pages.page tree.label) idx = tree.items[idx].label := by
      rw [holds.ptr_eq (by simpa using inside), getElem_map]
      rfl
    have keyAt : ∀ idx (inside : idx < tree.items.length),
        getKey (pages.page tree.label) idx = tree.items[idx].key := by
      intro idx inside
      rw [holds.key_eq (by simpa using inside), getElem_map, key_record]
    have childStored := stored.items _ mem
    have childFit := fit.items _ mem
    rw [pointer]
    refine ⟨⟨?_, ?_⟩, childStored.wellStructured childFit (sorted_entries_of_mem sorted mem)⟩
    · rw [pointer, keyAt idx inside, childStored.first_key childFit]
    intro further key isKey
    rw [holds.count_eq, length_map] at further
    rw [pointer] at isKey
    obtain ⟨entry, isEntry, rfl⟩ := childStored.mem_keysBelow childFit key isKey
    rw [keyAt (idx + 1) further]
    obtain ⟨value, first⟩ := mem_entries_of_key (fit.items _ (getElem_mem further))
    have ordered := pairwise_iff_getElem.mp (pairwise_flatMap.mp sorted).2 idx (idx + 1)
      inside further (Nat.lt_succ_self idx)
    exact ordered entry isEntry _ first

/-- The keys of a page of the tree are among those of the whole tree. -/
theorem Item.Stored.pageKeys_below : ∀ {h : Nat} {tree : Item Nat (h + 1)}, tree.Stored pages →
    ∀ pageID ∈ tree.labels, ∀ key ∈ pageKeys (pages.page pageID), key ∈ keysBelow pages h tree.label
  | 0, tree, _, pageID, mem, key, isKey => by
    rw [labels_succ, flatMap_labels, labelsOf_zero] at mem
    rwa [keysBelow, ← mem_singleton.mp mem]
  | h + 1, tree, stored, pageID, mem, key, isKey => by
    rw [keysBelow, stored.page_valid.holds.childPages_eq, flatMap_map]
    rcases mem_cons.mp mem with rfl | below
    · exact mem_append_left _ isKey
    · obtain ⟨item, isItem, isLabel⟩ := mem_flatMap.mp below
      exact mem_append_right _ (mem_flatMap.mpr
        ⟨item, isItem, (stored.items item isItem).pageKeys_below pageID isLabel key isKey⟩)

theorem Item.Stored.leftmost_mem : ∀ {h : Nat} {tree : Item Nat (h + 1)}, tree.Stored pages →
    tree.Fit → ∀ pageID ∈ leftmostPath pages h tree.label, pageID ∈ tree.labels
  | 0, tree, _, _, pageID, mem => by
    rw [mem_singleton.mp mem]
    exact mem_cons_self ..
  | h + 1, tree, stored, fit, pageID, mem => by
    obtain ⟨first, rest, shape⟩ := fit.exists_cons
    have isItem : first ∈ tree.items := by simp [shape]
    have pointer : getPtr (pages.page tree.label) 0 = first.label := by
      rw [stored.page_valid.holds.ptr_eq (by simp [shape])]
      simp [shape, record]
    rw [leftmostPath, pointer] at mem
    rcases mem_cons.mp mem with rfl | below
    · exact mem_cons_self ..
    · exact mem_cons_of_mem _ (mem_flatMap.mpr ⟨first, isItem,
        (stored.items first isItem).leftmost_mem (fit.items first isItem) pageID below⟩)

/-- Without the sentinel at its left end a tree has no empty key. -/
theorem Item.Stored.no_sentinel (stored : tree.Stored pages)
    (fit : tree.Fit) (sorted : Sorted tree.entries) (high : tree.key ≠ []) {pageID : Nat}
    (mem : pageID ∈ tree.labels) {idx : Nat} (inside : idx < nkeys (pages.page pageID)) :
    getKey (pages.page pageID) idx ≠ [] := by
  intro empty
  have isKey := stored.pageKeys_below pageID mem _ (mem_pageKeys inside)
  obtain ⟨entry, isEntry, same⟩ := stored.mem_keysBelow fit _ isKey
  have least := key_le_of_mem_entries fit sorted isEntry
  rw [same, empty] at least
  exact high (le_antisymm least (not_lt.mp (List.not_lt_nil _)))

/-- On the top page of a tree with the sentinel only the first key is empty. -/
theorem Item.Stored.sentinel_top (stored : tree.Stored pages)
    (fit : tree.Fit) (low : tree.key = []) {idx : Nat}
    (inside : idx < nkeys (pages.page tree.label)) :
    getKey (pages.page tree.label) idx = [] ↔ idx = 0 := by
  constructor
  · intro empty
    by_contra late
    have encodable := stored.page_valid.encodable fit.items
    rw [stored.page_valid.holds.count_eq, length_map] at inside
    have ordered := pairwise_iff_getElem.mp encodable.ascending 0 idx (by omega) inside
      (Nat.pos_of_ne_zero late)
    rw [stored.page_valid.holds.key_eq (by simpa using inside), getElem_map,
      key_record] at empty
    rw [empty] at ordered
    exact List.not_lt_nil _ ordered
  · rintro rfl
    rw [stored.first_key fit, low]

/-- The sentinel is the first key of the pages on the leftmost path. -/
theorem Item.Stored.sentinel_iff : ∀ {h : Nat} {tree : Item Nat (h + 1)}, tree.Stored pages →
    tree.Fit → Sorted tree.entries → tree.key = [] → ∀ pageID ∈ tree.labels,
      ∀ idx, idx < nkeys (pages.page pageID) → (getKey (pages.page pageID) idx = [] ↔
          idx = 0 ∧ pageID ∈ leftmostPath pages h tree.label)
  | 0, tree, stored, fit, _, low, pageID, mem, idx, inside => by
    rw [labels_succ, flatMap_labels, labelsOf_zero] at mem
    obtain rfl := mem_singleton.mp mem
    rw [stored.sentinel_top fit low inside]
    simp [leftmostPath]
  | h + 1, tree, stored, fit, sorted, low, pageID, mem, idx, inside => by
    by_cases top : pageID = tree.label
    · subst top
      rw [stored.sentinel_top fit low inside]
      simp [leftmostPath]
    cases shape : tree.items with
    | nil => exact absurd shape fit.nonempty
    | cons first rest =>
      have isFirst : first ∈ tree.items := by simp [shape]
      have firstStored := stored.items first isFirst
      have firstFit := fit.items first isFirst
      have firstLow : first.key = [] := (key_of_items shape).symm.trans low
      have firstIff := firstStored.sentinel_iff firstFit (sorted_entries_of_mem sorted isFirst)
        firstLow
      have pointer : getPtr (pages.page tree.label) 0 = first.label := by
        rw [stored.page_valid.holds.ptr_eq (by simp [shape])]
        simp [shape, record]
      have path : pageID ∈ leftmostPath pages (h + 1) tree.label ↔
          pageID ∈ leftmostPath pages h first.label := by
        rw [leftmostPath, pointer, mem_cons, or_iff_right top]
      rw [path]
      have below := (mem_cons.mp mem).resolve_left top
      rw [shape, flatMap_cons, mem_append] at below
      rcases below with inFirst | later
      · exact firstIff pageID inFirst idx inside
      -- the other children are above the sentinel
      obtain ⟨item, isRest, isLabel⟩ := mem_flatMap.mp later
      have isItem : item ∈ tree.items := by simp [shape, isRest]
      have high : item.key ≠ [] := by
        apply (stored.page_valid.encodable fit.items).key_ne_nil item
        rw [shape]
        exact isRest
      have none : ∀ {idx : Nat}, idx < nkeys (pages.page pageID) →
          getKey (pages.page pageID) idx ≠ [] :=
        (stored.items item isItem).no_sentinel (fit.items item isItem)
          (sorted_entries_of_mem sorted isItem) high isLabel
      constructor
      · exact fun empty => absurd empty (none inside)
      · rintro ⟨rfl, onPath⟩
        exact (firstIff pageID (firstStored.leftmost_mem firstFit pageID onPath) 0 inside).mpr
          ⟨rfl, onPath⟩

end Stored

/-- The pages of a stored tree satisfy the invariant. -/
theorem Root.Stored.treeInvariant {root : Root} (stored : root.Stored pages)
    (nodup : root.labels.Nodup) : TreeInvariant pages root.pageID := by
  cases root with
  | empty => exact fun nonzero => absurd rfl nonzero
  | tree held =>
    intro _
    refine ⟨held.height, stored.pages.wellStructured held.fit held.sorted, ?_, ?_⟩
    · rw [show Root.pageID (.tree held) = held.top.label from rfl, stored.pages.pagesBelow_eq]
      exact nodup
    · rw [show Root.pageID (.tree held) = held.top.label from rfl, stored.pages.pagesBelow_eq]
      exact stored.pages.sentinel_iff held.fit held.sorted held.key_eq

end GoDatabase
