import GoDatabase.Tree.WellFormed

/-!
# Trees on pages

How a tree labelled with page identifiers is laid out in pages: the record of each
item, the encoded page of a node, and when a page map stores a tree.
-/

namespace GoDatabase

open Library BNode List Item

namespace Item

variable {h : Nat}

/-- The record of an item in the page of its parent. -/
def record : {h : Nat} → Item Nat h → Record
  | 0, item => ⟨0, item.entry.key, item.entry.value⟩
  | _ + 1, tree => ⟨tree.label, tree.key, []⟩

@[simp] theorem key_record : ∀ {h : Nat} (item : Item Nat h), item.record.key = item.key
  | 0, _ => rfl
  | _ + 1, _ => rfl

theorem weight_eq : ∀ {h : Nat} (item : Item Nat h),
    item.weight = pagePtrSize + pageOffsetSize + item.record.size
  | 0, _ => rfl
  | _ + 1, _ => rfl

/-- The label of a node is a page identifier. -/
def Addressed : {h : Nat} → Item Nat h → Prop
  | 0, _ => True
  | _ + 1, tree => 0 < tree.label ∧ tree.label < 2 ^ 64

/-- The pages hold every node of the tree under its label. -/
def Stored (pages : PageMap) : {h : Nat} → Item Nat h → Prop
  | 0, _ => True
  | h + 1, tree =>
    (∃ page, pages.lookup tree.label = some page ∧
      ValidPage page (nodeType h) (tree.items.map record)) ∧
    ∀ item ∈ tree.items, Stored pages item

variable {pages : PageMap} {tree : Item Nat (h + 1)}

theorem Stored.page (stored : tree.Stored pages) : ∃ page, pages.lookup tree.label = some page ∧
      ValidPage page (nodeType h) (tree.items.map record) := stored.1

theorem Stored.items (stored : tree.Stored pages) :
    ∀ item ∈ tree.items, item.Stored pages := stored.2

/-- A tree stays stored as long as its pages keep their contents. -/
theorem Stored.mono {next : PageMap} : ∀ {h : Nat} {item : Item Nat h}, item.Stored pages →
    (∀ pageID ∈ item.labels, ∀ page, pages.lookup pageID = some page →
      next.lookup pageID = some page) → item.Stored next
  | 0, _, _, _ => trivial
  | h + 1, tree, stored, kept => by
    obtain ⟨page, found, valid⟩ := stored.page
    refine ⟨⟨page, kept tree.label (mem_cons_self ..) page found, valid⟩, ?_⟩
    intro item mem
    apply (stored.items item mem).mono
    intro pageID isLabel
    exact kept pageID (mem_cons_of_mem _ (mem_flatMap.mpr ⟨item, mem, isLabel⟩))

end Item

/-- The page under construction that holds a list of items. -/
def encodeItems {h : Nat} (capacity : Nat) (items : List (Item Nat h)) : BNode :=
  layout capacity (nodeType h) (items.map Item.record).length (items.map Item.record)

/-- The labels of a list of items. -/
def labelsOf {ι : Type} {h : Nat} (items : List (Item ι h)) : List ι := items.flatMap Item.labels

variable {ι : Type}

@[simp] theorem flatMap_labels {h : Nat} (items : List (Item ι h)) :
    items.flatMap Item.labels = labelsOf items := rfl

@[simp] theorem labelsOf_cons {h : Nat} (item : Item ι h) (items : List (Item ι h)) :
    labelsOf (item :: items) = item.labels ++ labelsOf items := rfl

@[simp] theorem labelsOf_append {h : Nat} (left right : List (Item ι h)) :
    labelsOf (left ++ right) = labelsOf left ++ labelsOf right := List.flatMap_append ..

theorem labelsOf_zero (items : List (Item ι 0)) : labelsOf items = [] :=
  flatMap_eq_nil_iff.mpr fun _ _ => rfl

/-- The labels of nodes are their own labels and those of their items. -/
theorem labelsOf_perm {h : Nat} (trees : List (Item ι (h + 1))) :
    (labelsOf trees).Perm (trees.map label ++ labelsOf (trees.map items).flatten) := by
  induction trees with
  | nil => exact .refl _
  | cons tree trees ih =>
    simp only [labelsOf, flatMap_cons, labels_succ, map_cons, flatten_cons,
      flatMap_append, cons_append] at ih ⊢
    refine List.Perm.cons _ ((ih.append_left _).trans ?_)
    rw [← append_assoc, ← append_assoc]
    exact perm_append_comm.append_right _

/-- Items that can be written into a node. -/
structure Encodable {h : Nat} (items : List (Item Nat h)) : Prop where
  fit : ∀ item ∈ items, item.Fit
  ascending : items.Pairwise fun left right => left.key < right.key
  addressed : ∀ item ∈ items, item.Addressed

section Encoding

variable {h : Nat} {items : List (Item Nat h)}

theorem nodeType_typed (h : Nat) : nodeType h = nodeTypeLeaf ∨ nodeType h = nodeTypeInternal := by
  cases h with
  | zero => exact .inl rfl
  | succ h => exact .inr rfl

theorem recordBytes_records (items : List (Item Nat h)) :
    (items.map record).length * (pagePtrSize + pageOffsetSize) +
        recordBytes (items.map record) = Packing.total weight items := by
  induction items with
  | nil => rfl
  | cons item items ih =>
    rw [map_cons, length_cons, recordBytes_cons, Packing.total_cons, weight_eq,
      Nat.succ_mul]
    omega

theorem nodeSize_records (items : List (Item Nat h)) :
    nodeSize (items.map record) = pageBytes items := by
  rw [nodeSize, pageBytes, ← recordBytes_records]
  omega

theorem fits_items {capacity : Nat} (inside : pageBytes items ≤ capacity)
    (bounded : capacity < 2 ^ 16) :
    Fits capacity (items.map record).length (items.map record) :=
  fits_of_nodeSize (by rwa [nodeSize_records]) bounded

namespace Encodable

theorem segment {before middle after : List (Item Nat h)}
    (encodable : Encodable (before ++ (middle ++ after))) : Encodable middle where
  fit := fun item mem => encodable.fit item (by simp [mem])
  ascending := (pairwise_append.mp (pairwise_append.mp encodable.ascending).2.1).1
  addressed := fun item mem => encodable.addressed item (by simp [mem])

section

variable (encodable : Encodable items)
include encodable

/-- Only the first item may have the empty key. -/
theorem key_ne_nil : ∀ item ∈ items.tail, item.key ≠ [] := by
  intro item mem empty
  cases items with
  | nil => cases mem
  | cons first rest =>
    have ordered := (pairwise_cons.mp encodable.ascending).1 item mem
    rw [empty] at ordered
    exact List.not_lt_nil _ ordered

theorem admissible : AllAdmissible (nodeType h) (items.map record) := by
  intro idx inRange
  rw [length_map] at inRange
  have mem : items[idx] ∈ items := getElem_mem inRange
  have fit := encodable.fit _ mem
  have keyNeNil : idx ≠ 0 → items[idx].record.key ≠ [] := by
    intro late empty
    have ordered := pairwise_iff_getElem.mp encodable.ascending 0 idx (by omega) inRange
      (by omega)
    rw [key_record] at empty
    rw [empty] at ordered
    exact List.not_lt_nil _ ordered
  rw [getElem_map]
  cases h with
  | zero =>
    exact ⟨.inl rfl, fit.1, fit.2.1, keyNeNil, fit.2.2, fun _ => rfl,
      fun wrong => absurd wrong (by decide), show 0 < 2 ^ 64 by decide⟩
  | succ h =>
    have addressed := encodable.addressed _ mem
    exact ⟨.inr rfl, fit.key_le, Nat.zero_le _, keyNeNil, fun _ => rfl,
      fun wrong => absurd wrong (show nodeTypeInternal ≠ nodeTypeLeaf by decide), fun _ =>
        ⟨Nat.pos_iff_ne_zero.mp addressed.1, rfl⟩,
      addressed.2⟩

theorem keysAscend : KeysAscend (items.map record) := by
  rw [KeysAscend, pairwise_map]
  simpa using encodable.ascending

/-- A complete node is read back as written. -/
theorem holds {capacity : Nat} (inside : pageBytes items ≤ capacity) (bounded : capacity < 2 ^ 16) :
    Holds (encodeItems capacity items) (nodeType h) (items.map record) := by
  apply holds_layout (fits_items inside bounded) encodable.admissible
  rcases nodeType_typed h with isLeaf | isInternal
  · rw [isLeaf]
    decide
  · rw [isInternal]
    decide

theorem validPage (inside : pageBytes items ≤ pageSize) :
    ValidPage (encodeItems pageSize items) (nodeType h) (items.map record) :=
  validPage_layout (nodeType_typed h) (by rwa [nodeSize_records]) encodable.admissible
    encodable.keysAscend

end

end Encodable

/-- Sorted items can be written. -/
theorem encodable_of_sorted (fit : ∀ item ∈ items, item.Fit)
    (sorted : SortedMap.Sorted (entriesOf items)) (addressed : ∀ item ∈ items, item.Addressed) :
    Encodable items := ⟨fit, keys_pairwise fit sorted, addressed⟩

theorem ValidPage.pageBytes_le {page : BNode} {type : Nat} {items : List (Item Nat h)}
    (valid : ValidPage page type (items.map record)) : pageBytes items ≤ pageSize := by
  rw [← nodeSize_records]
  exact valid.inside

/-- The items of a stored node can be written again. -/
theorem ValidPage.encodable {page : BNode} {items : List (Item Nat h)}
    (valid : ValidPage page (nodeType h) (items.map record))
    (fit : ∀ item ∈ items, item.Fit) : Encodable items where
  fit := fit
  ascending := by
    have ascend := valid.ascend
    rw [KeysAscend, pairwise_map] at ascend
    simpa using ascend
  addressed := by
    intro item mem
    cases h with
    | zero => trivial
    | succ h =>
      obtain ⟨idx, inRange, rfl⟩ := getElem_of_mem mem
      have admissible := valid.admissible idx (by simpa using inRange)
      rw [getElem_map] at admissible
      exact ⟨Nat.pos_of_ne_zero (admissible.internal rfl).1, admissible.pageID_lt⟩

/-! ## Relabelling -/

section Relabel

variable {before after old new : List (Item Nat (h + 1))}

/-- The key of a node depends on its items only. -/
def keyOfItems {ι : Type} : List (Item ι h) → Bytes
  | [] => []
  | first :: _ => first.key

variable {ι : Type}

theorem key_eq_keyOfItems (tree : Item ι (h + 1)) : tree.key = keyOfItems tree.items := by
  cases shape : tree.items with
  | nil => rw [key, shape, keyOfItems]
  | cons first rest => rw [key_of_items shape, keyOfItems]

theorem map_key_eq (trees : List (Item ι (h + 1))) :
    trees.map Item.key = (trees.map Item.items).map keyOfItems := by
  rw [map_map]
  exact map_congr_left fun tree _ => key_eq_keyOfItems tree

theorem map_weight_eq (trees : List (Item ι (h + 1))) :
    trees.map Item.weight = (trees.map Item.items).map
      fun items => pagePtrSize + pageOffsetSize + (4 + (keyOfItems items).length) := by
  rw [map_map]
  refine map_congr_left fun tree _ => ?_
  rw [Item.weight_succ, key_eq_keyOfItems]
  rfl

theorem pageBytes_relabel (same : new.map Item.items = old.map Item.items) :
    pageBytes (before ++ (new ++ after)) = pageBytes (before ++ (old ++ after)) := by
  simp only [pageBytes, Packing.total, map_append, map_weight_eq new, same,
    ← map_weight_eq old]

/-- Nodes may get other pages. -/
theorem Encodable.relabel (encodable : Encodable (before ++ (old ++ after)))
    (same : new.map Item.items = old.map Item.items) (addressed : ∀ tree ∈ new, tree.Addressed) :
    Encodable (before ++ (new ++ after)) where
  fit := by
    intro tree mem
    rcases mem_append.mp mem with isBefore | mem
    · exact encodable.fit tree (by simp [isBefore])
    · rcases mem_append.mp mem with isNew | isAfter
      · have isItems : tree.items ∈ old.map Item.items := same ▸ mem_map_of_mem isNew
        obtain ⟨original, isOld, sameItems⟩ := mem_map.mp isItems
        exact (encodable.fit original (by simp [isOld])).of_items sameItems
      · exact encodable.fit tree (by simp [isAfter])
  ascending := by
    have ascending := encodable.ascending
    rw [← pairwise_map] at ascending ⊢
    rw [map_append, map_append] at ascending ⊢
    rwa [map_key_eq new, same, ← map_key_eq old]
  addressed := by
    intro tree mem
    rcases mem_append.mp mem with isBefore | mem
    · exact encodable.addressed tree (by simp [isBefore])
    · rcases mem_append.mp mem with isNew | isAfter
      · exact addressed tree isNew
      · exact encodable.addressed tree (by simp [isAfter])

end Relabel

/-- The search in a node finds the item that a key belongs to. -/
theorem nodeLookupLE_eq {node : BNode} {nodeType : Nat} {before after : List (Item Nat h)}
    {item : Item Nat h} {key : Bytes} (holds : Holds node nodeType (items.map record))
    (around : Around items key before item after) : nodeLookupLE node key = .ok before.length := by
  have shape : items = before ++ [item] ++ after := by
    rw [around.shape, append_assoc, singleton_append]
  have count : nkeys node = items.length := by rw [holds.count_eq, length_map]
  have total : items.length = before.length + 1 + after.length := by
    rw [around.shape]
    simp only [length_append, length_cons]
    omega
  have keyAt : ∀ idx (inRange : idx < items.length), getKey node idx = items[idx].key := by
    intro idx inRange
    rw [holds.key_eq (by simpa using inRange), getElem_map, key_record]
  have point : search (nkeys node) (fun i => key < getKey node i) = before.length + 1 := by
    apply search_eq
    · omega
    · intro index early
      have inRange : index < items.length := by omega
      rw [keyAt index inRange, decide_eq_false_iff_not, not_lt]
      have mem : items[index] ∈ before ++ [item] := by
        simp only [shape]
        rw [getElem_append_left (by simpa using early)]
        exact getElem_mem _
      rcases mem_append.mp mem with isBefore | isItem
      · exact around.before_low _ isBefore
      · rw [mem_singleton.mp isItem]
        exact around.low
    · intro index late bound
      rw [count] at bound
      rw [keyAt index bound, decide_eq_true_eq]
      apply around.high
      simp only [shape]
      rw [getElem_append_right (by simpa using late)]
      exact getElem_mem _
  rw [nodeLookupLE, point]
  simp

end Encoding

/-- The page of the child that a key belongs to. -/
theorem Around.child_page {pages : PageMap} {node : BNode}
    {items before after : List (Item Nat (h + 1))} {child : Item Nat (h + 1)} {key : Bytes}
    (around : Around items key before child after)
    (valid : ValidPage node nodeTypeInternal (items.map record))
    (stored : ∀ item ∈ items, item.Stored pages) : ∃ page,
      pages.lookup (getPtr node before.length) = some page ∧ getPtr node before.length =
        child.label ∧
      ValidPage page (nodeType h) (child.items.map record) ∧
      ∀ item ∈ child.items, item.Stored pages := by
  obtain ⟨page, found, childValid⟩ := (stored child (by simp [around.shape])).page
  have pointer : getPtr node before.length = child.label := by
    rw [valid.holds.ptr_eq (by simp [around.shape])]
    simp [around.shape, record]
  exact ⟨page, pointer ▸ found, pointer, childValid, (stored child (by simp [around.shape])).items⟩

theorem ValidPage.not_leaf {node : BNode} {records : List Record}
    (valid : ValidPage node nodeTypeInternal records) : btype node ≠ nodeTypeLeaf := by
  rw [valid.holds.type_eq]
  decide

theorem validatePage_ok {format : String} {args : List ErrorArg} {node : BNode}
    (valid : validateBNode node = .ok ()) : validatePage format args node = .ok () := by
  rw [validatePage, valid]

end GoDatabase
