import GoDatabase.Tree.WellFormed

/-!
# Insertion and deletion without pages

What `insertNode` and `deleteNode` do to the shape of a tree, apart from the pages
that hold it.  Both work on the items of a node: insertion may leave a node that has
to be split by its parent, deletion a node that is empty or that its parent merges
with a sibling.  A deletion fails when a separator grows beyond its page.
-/

namespace GoDatabase

open Library Packing SortedMap List

variable {h : Nat}

/-- The items of a node after an insertion below it. -/
def insertItems (key value : Bytes) : {h : Nat} → List (Item Unit h) → List (Item Unit h)
  | 0, items => (SortedMap.put key value (items.map Item.entry)).map Item.ofEntry
  | _ + 1, items =>
    match items[lowerIndex items key]? with
    | none => items
    | some child =>
      items.take (lowerIndex items key) ++
        ((splitItems (insertItems key value child.items)).map (Item.node ()) ++
          items.drop (lowerIndex items key + 1))

/-- The outcome of a deletion below a node. -/
inductive Deletion (α : Type) where
  | absent
  | overflow
  | removed (result : α)
  deriving DecidableEq

/-- Items that become a page unless they are too large. -/
def boundedItems {ι : Type} (items : List (Item ι h)) : Deletion (List (Item ι h)) :=
  if pageSize < pageBytes items then .overflow else .removed items

/-- A node that replaces a child and one of its siblings. -/
structure Merge (ι : Type) (h : Nat) where
  /-- The first of the two indices that it replaces. -/
  first : Nat
  sibling : Item ι (h + 1)
  items : List (Item ι h)

/-- The merge of an updated child with its left sibling. -/
def leftMerge {ι : Type} (children : List (Item ι (h + 1))) (idx : Nat) (items : List (Item ι h)) :
    Option (Merge ι h) :=
  if 0 < idx then
    match children[idx - 1]? with
    | none => none
    | some left =>
      if pageBytes (left.items ++ items) ≤ pageSize then some ⟨idx - 1, left, left.items ++ items⟩
      else none
  else
    none

def rightMerge {ι : Type} (children : List (Item ι (h + 1))) (idx : Nat) (items : List (Item ι h)) :
    Option (Merge ι h) :=
  match children[idx + 1]? with
  | none => none
  | some right =>
    if pageBytes (items ++ right.items) ≤ pageSize then some ⟨idx, right, items ++ right.items⟩
    else none

/-- A small child is merged with a sibling, the left one first. -/
def siblingMerge {ι : Type} (children : List (Item ι (h + 1))) (idx : Nat)
    (items : List (Item ι h)) : Option (Merge ι h) :=
  if items.length = 0 ∨ pageBytes items ≤ pageSize / 4 then
    (leftMerge children idx items).or (rightMerge children idx items)
  else
    none

/-- The children of a node after the items of child `idx` have changed. -/
def rebalance (children : List (Item Unit (h + 1))) (idx : Nat) (items : List (Item Unit h)) :
    Deletion (List (Item Unit (h + 1))) :=
  match siblingMerge children idx items with
  | some merge =>
    boundedItems
      (children.take merge.first ++ (Item.node () merge.items :: children.drop (merge.first + 2)))
  | none =>
    if items.length = 0 then
      .removed (children.take idx ++ children.drop (idx + 1))
    else
      boundedItems (children.take idx ++ (Item.node () items :: children.drop (idx + 1)))

/-- The items of a node after a deletion below it. -/
def deleteItems (key : Bytes) : {h : Nat} → List (Item Unit h) → Deletion (List (Item Unit h))
  | 0, items =>
    if key ∈ items.map Item.key then
      .removed ((SortedMap.erase key (items.map Item.entry)).map Item.ofEntry)
    else
      .absent
  | _ + 1, items =>
    match items[lowerIndex items key]? with
    | none => .absent
    | some child =>
      match deleteItems key child.items with
      | .absent => .absent
      | .overflow => .overflow
      | .removed updated => rebalance items (lowerIndex items key) updated

/-! ## Whole trees -/

/-- The tree of a database without its pages: nothing, or the items of the root. -/
inductive Outline where
  | empty
  | tree (height : Nat) (items : List (Item Unit height))
  deriving DecidableEq

/-- The root over the items that an insertion leaves. -/
def growOutline (items : List (Item Unit h)) : Outline :=
  match splitItems items with
  | [part] => .tree h part
  | parts => .tree (h + 1) (parts.map (Item.node ()))

/-- The root over the items that a deletion leaves: a leaf with nothing but the sentinel is
dropped, and a single child replaces its parent. -/
def shrinkOutline : {h : Nat} → List (Item Unit h) → Outline
  | 0, items => if items.length = 1 then .empty else .tree 0 items
  | _ + 1, [] => .empty
  | h + 1, [child] => .tree h child.items
  | h + 1, items => .tree (h + 1) items

def insertOutline (key value : Bytes) : Outline → Outline
  | .empty => .tree 0 [Item.ofEntry ⟨[], []⟩, Item.ofEntry ⟨key, value⟩]
  | .tree _ items => growOutline (insertItems key value items)

def deleteOutline (key : Bytes) : Outline → Deletion Outline
  | .empty => .absent
  | .tree _ items =>
    match deleteItems key items with
    | .absent => .absent
    | .overflow => .overflow
    | .removed updated => .removed (shrinkOutline updated)

theorem deleteOutline_eq_removed {key : Bytes} {h : Nat} {items : List (Item Unit h)}
    {updated : Outline} (removed : deleteOutline key (.tree h items) = .removed updated) :
    ∃ result, deleteItems key items = .removed result ∧ updated = shrinkOutline result := by
  rw [deleteOutline] at removed
  cases outcome : deleteItems key items with
  | absent | overflow =>
    rw [outcome] at removed
    cases removed
  | removed result =>
    rw [outcome] at removed
    exact ⟨result, rfl, (Deletion.removed.inj removed).symm⟩

/-! ## Leaves as lists of entries -/

/-- The bytes of a leaf that hold an entry. -/
def entryWeight (entry : Entry) : Nat :=
  pagePtrSize + pageOffsetSize + (4 + entry.key.length + entry.value.length)

theorem pageBytes_leaf {ι : Type} (items : List (Item ι 0)) :
    pageBytes items = pageHeaderSize + total entryWeight (items.map Item.entry) := by
  rw [pageBytes, total, total, map_map]
  rfl

@[simp] theorem map_entry_ofEntry {ι : Type} (entries : List Entry) :
    (entries.map (Item.ofEntry : Entry → Item ι 0)).map Item.entry = entries := by
  rw [List.map_map]
  exact List.map_id _

/-! ## Insertion -/

section Insertion

variable {key value : Bytes}

variable {ι : Type} {items before after : List (Item ι h)} {item : Item ι h}

/-- The child that a key belongs to is the one at `lowerIndex`. -/
theorem Around.getElem?_eq
    (around : Around items key before item after) : items[lowerIndex items key]? = some item := by
  rw [around.index, around.shape]
  simp

theorem Around.take_eq (around : Around items key before item after) :
    items.take (lowerIndex items key) = before := by
  rw [around.index, around.shape]
  simp

theorem Around.drop_eq (around : Around items key before item after) :
    items.drop (lowerIndex items key + 1) = after := by
  rw [around.index, around.shape]
  simp

theorem insertItems_around {items before after : List (Item Unit (h + 1))}
    {child : Item Unit (h + 1)} (around : Around items key before child after) :
    insertItems key value items = before ++
      ((splitItems (insertItems key value child.items)).map (Item.node ()) ++ after) := by
  rw [insertItems, around.getElem?_eq]
  simp only [around.take_eq, around.drop_eq]

theorem flatten_splitItems (items : List (Item ι h)) : (splitItems items).flatten = items := by
  rw [splitItems]
  split
  · simp
  · exact flatten_pack items

theorem entriesOf_nodes (label : ι) (parts : List (List (Item ι h))) :
    entriesOf (parts.map (Item.node label)) = entriesOf parts.flatten := by
  have same : (parts.map (Item.node label)).map Item.items = parts := by
    rw [map_map]
    exact map_id _
  rw [entriesOf_items, same]

/-- An insertion binds the key in the entries of the node. -/
theorem entriesOf_insertItems : ∀ {h : Nat} {items : List (Item Unit h)}, Descends items key →
    entriesOf (insertItems key value items) = put key value (entriesOf items)
  | 0, items, _ => by
    rw [insertItems, entriesOf_zero, entriesOf_zero, map_entry_ofEntry]
  | h + 1, items, descends => by
    obtain ⟨before, child, after, around⟩ := descends.around
    rw [insertItems_around around, entriesOf_append, entriesOf_append, entriesOf_nodes,
      flatten_splitItems, entriesOf_insertItems (descends.child around), around.entries_eq,
      put_middle (around.entries_before descends) (around.entries_after descends)]
    rfl

/-- The entries that an update may bind. -/
structure Storable (key value : Bytes) : Prop where
  nonempty : key ≠ []
  key_le : key.length ≤ maxKeySize
  value_le : value.length ≤ maxValueSize

theorem Storable.fit {ι : Type} (storable : Storable key value) :
    (Item.ofEntry ⟨key, value⟩ : Item ι 0).Fit :=
  ⟨storable.key_le, storable.value_le, fun empty => absurd empty storable.nonempty⟩

/-- The most that one insertion adds to a node. -/
def insertLimit : Nat := pagePtrSize + pageOffsetSize + (4 + maxKeySize + maxValueSize)

/-- What splitting guarantees for an oversized node. -/
structure Parts {ι : Type} (items : List (Item ι h)) (parts : List (List (Item ι h))) : Prop where
  flatten : parts.flatten = items
  ne_nil : parts ≠ []
  few : parts.length ≤ 3
  nonempty : ∀ part ∈ parts, part ≠ []
  inside : ∀ part ∈ parts, pageBytes part ≤ pageSize
  fit : ∀ part ∈ parts, ∀ item ∈ part, item.Fit

theorem splitItems_parts (fit : ∀ item ∈ items, item.Fit)
    (nonempty : items ≠ []) (light : pageBytes items ≤ pageSize + insertLimit) :
    Parts items (splitItems items) := by
  have flatten := flatten_splitItems items
  have fitParts : ∀ part ∈ splitItems items, ∀ item ∈ part, item.Fit := by
    intro part isPart item mem
    apply fit item
    rw [← flatten]
    exact mem_flatten.mpr ⟨part, isPart, mem⟩
  by_cases single : pageBytes items ≤ pageSize
  · have one : splitItems items = [items] := by rw [splitItems, if_pos single]
    rw [one] at flatten fitParts ⊢
    refine ⟨flatten, by simp, by simp, ?_, ?_, fitParts⟩ <;>
      intro part isPart <;> rw [mem_singleton] at isPart <;> rwa [isPart]
  · have packed : splitItems items = pack Item.weight pageHeaderSize pageSize items := by
      rw [splitItems, if_neg single]
    have alone : ∀ item ∈ items, pageHeaderSize + item.weight ≤ pageSize := by
      intro item mem
      have limit := (fit item mem).weight_le
      simp only [pageHeaderSize, pageSize, pagePtrSize, pageOffsetSize, maxKeySize,
        maxValueSize] at limit ⊢
      omega
    refine ⟨flatten, ?_, ?_, ?_, ?_, fitParts⟩
    · intro none
      rw [none, flatten_nil] at flatten
      exact nonempty flatten.symm
    · rw [packed]
      apply length_pack_le_three (by decide)
      simp only [pageBytes, insertLimit, pageHeaderSize, pageSize, pagePtrSize, pageOffsetSize,
        maxKeySize, maxValueSize] at light ⊢
      omega
    · intro part isPart
      rw [packed] at isPart
      exact nonempty_of_mem_pack isPart
    · intro part isPart
      rw [packed] at isPart
      exact total_le_of_mem_pack alone isPart

theorem total_put_le (weight : Entry → Nat) (entries : List Entry) :
    total weight (put key value entries) ≤
      total weight entries + weight ⟨key, value⟩ := by
  induction entries with
  | nil => simp [put]
  | cons entry entries ih =>
    rw [put]
    split_ifs <;> simp only [total_cons] <;> omega

variable {parts : List (List (Item ι h))}

/-- The nodes over at most three parts are no larger than one entry can be. -/
theorem total_nodes_le (few : parts.length ≤ 3)
    {label : ι} (fit : ∀ part ∈ parts, (Item.node label part).Fit) :
    total Item.weight (parts.map (Item.node label)) ≤ insertLimit := by
  have bound : ∀ parts : List (List (Item ι h)), (∀ part ∈ parts, (Item.node label part).Fit) →
      total Item.weight (parts.map (Item.node label)) ≤ parts.length * 1014 := by
    intro parts
    induction parts with
    | nil => simp
    | cons part parts ih =>
      intro fit
      have first := (fit part (mem_cons_self ..)).key_le
      have rest := ih fun other mem => fit other (mem_cons_of_mem _ mem)
      rw [map_cons, total_cons, Item.weight_succ, length_cons]
      simp only [pagePtrSize, pageOffsetSize, maxKeySize] at first ⊢
      omega
  have total := bound parts fit
  simp only [insertLimit, pagePtrSize, pageOffsetSize, maxKeySize, maxValueSize]
  omega

theorem Parts.fit_node
    (split : Parts items parts) {part : List (Item ι h)} (isPart : part ∈ parts) (label : ι) :
    (Item.node label part).Fit :=
  Item.fit_node (split.nonempty part isPart) (split.inside part isPart) (split.fit part isPart)

theorem insertItems_ne_nil {items : List (Item Unit h)} (descends : Descends items key) :
    insertItems key value items ≠ [] := by
  intro empty
  have found := lookup_put_self (entriesOf items) key value
  rw [← entriesOf_insertItems descends, empty, entriesOf_nil, SortedMap.lookup_nil] at found
  cases found

/-- An insertion keeps the limits below the node and enlarges it by at most one
entry. -/
theorem insertItems_spec (storable : Storable key value) : ∀ {h : Nat} {items : List (Item Unit h)},
    Descends items key → pageBytes items ≤ pageSize →
    (∀ item ∈ insertItems key value items, item.Fit) ∧
      pageBytes (insertItems key value items) ≤ pageBytes items + insertLimit
  | 0, items, descends, _ => by
    rw [insertItems]
    constructor
    · intro item mem
      obtain ⟨entry, isEntry, rfl⟩ := mem_map.mp mem
      rcases mem_put isEntry with rfl | old
      · exact storable.fit
      · obtain ⟨original, isItem, rfl⟩ := mem_map.mp old
        exact descends.fit original isItem
    · have bound := @total_put_le key value entryWeight (items.map Item.entry)
      have limit : entryWeight ⟨key, value⟩ ≤ insertLimit :=
        (@Storable.fit _ _ Unit storable).weight_le
      rw [pageBytes_leaf, pageBytes_leaf, map_entry_ofEntry]
      omega
  | h + 1, items, descends, _ => by
    obtain ⟨before, child, after, around⟩ := descends.around
    have childFit := around.fit descends.fit
    obtain ⟨fit, light⟩ := insertItems_spec storable (descends.child around) childFit.inside
    have split := splitItems_parts fit (insertItems_ne_nil (descends.child around))
      (light.trans (Nat.add_le_add_right childFit.inside _))
    have nodes := total_nodes_le split.few (fun part isPart => split.fit_node isPart ())
    rw [insertItems_around around]
    constructor
    · intro item mem
      rcases mem_append.mp mem with isBefore | mem
      · exact descends.fit item (by simp [around.shape, isBefore])
      · rcases mem_append.mp mem with isPart | isAfter
        · obtain ⟨part, inParts, rfl⟩ := mem_map.mp isPart
          exact split.fit_node inParts ()
        · exact descends.fit item (by simp [around.shape, isAfter])
    · rw [around.shape, pageBytes, pageBytes, total_append, total_append,
        total_append, total_cons]
      omega

end Insertion

/-! ## Deletion -/

section Deletion

variable {key : Bytes} {ι : Type} {before after : List (Item ι (h + 1))} {child : Item ι (h + 1)}
  {items : List (Item ι h)} {merge : Merge ι h}

/-- The sibling that a small child is merged with. -/
inductive MergesWith {ι : Type} (before after : List (Item ι (h + 1))) (items : List (Item ι h)) :
    Merge ι h → Prop
  | left (front : List (Item ι (h + 1))) (sibling : Item ι (h + 1))
      (shape : before = front ++ [sibling])
      (inside : pageBytes (sibling.items ++ items) ≤ pageSize) :
      MergesWith before after items ⟨front.length, sibling, sibling.items ++ items⟩
  | right (sibling : Item ι (h + 1)) (back : List (Item ι (h + 1)))
      (shape : after = sibling :: back) (inside : pageBytes (items ++ sibling.items) ≤ pageSize) :
      MergesWith before after items ⟨before.length, sibling, items ++ sibling.items⟩

theorem leftMerge_spec
    (merges : leftMerge (before ++ child :: after) before.length items = some merge) :
    MergesWith before after items merge := by
  rw [leftMerge] at merges
  rcases eq_nil_or_concat before with rfl | ⟨front, sibling, rfl⟩
  · cases merges
  have at_left : (front.concat sibling ++ child :: after)[(front.concat sibling).length - 1]? =
      some sibling := by simp
  rw [if_pos (by simp), at_left] at merges
  simp only at merges
  split_ifs at merges with inside
  obtain rfl := Option.some.inj merges
  have width : (front.concat sibling).length - 1 = front.length := by simp
  rw [width]
  exact .left front sibling (concat_eq_append) inside

theorem rightMerge_spec
    (merges : rightMerge (before ++ child :: after) before.length items = some merge) :
    MergesWith before after items merge := by
  rw [rightMerge] at merges
  cases after with
  | nil => simp at merges
  | cons sibling back =>
    have at_right : (before ++ child :: sibling :: back)[before.length + 1]? = some sibling := by
      simp
    rw [at_right] at merges
    simp only at merges
    split_ifs at merges with inside
    obtain rfl := Option.some.inj merges
    exact .right sibling back rfl inside

theorem siblingMerge_spec
    (merges : siblingMerge (before ++ child :: after) before.length items = some merge) :
    MergesWith before after items merge := by
  rw [siblingMerge] at merges
  split_ifs at merges
  rcases Option.or_eq_some_iff.mp merges with left | ⟨-, right⟩
  · exact leftMerge_spec left
  · exact rightMerge_spec right

/-- The children around a merged node. -/
structure Replaces {ι : Type} (before after : List (Item ι (h + 1))) (items : List (Item ι h))
    (merge : Merge ι h) (child : Item ι (h + 1)) (front gone back : List (Item ι (h + 1))) :
    Prop where
  shape : before ++ child :: after = front ++ (gone ++ back)
  first : merge.first = front.length
  pair : gone.Perm [child, merge.sibling]
  front_old : ∀ item ∈ front, item ∈ before
  back_old : ∀ item ∈ back, item ∈ after
  entries : entriesOf front ++ (entriesOf merge.items ++ entriesOf back) =
    entriesOf before ++ (entriesOf items ++ entriesOf after)

theorem MergesWith.replaces (merges : MergesWith before after items merge)
    (child : Item ι (h + 1)) : ∃ front gone back,
      Replaces before after items merge child front gone back := by
  cases merges with
  | left front sibling shape inside =>
    refine ⟨front, [sibling, child], after, by simp [shape], rfl, List.Perm.swap .., ?_,
      fun _ mem => mem, by simp [shape]⟩
    intro item mem
    simp [shape, mem]
  | right sibling back shape inside =>
    refine ⟨before, [child, sibling], back, by simp [shape], rfl, .refl _,
      fun _ mem => mem, ?_, by simp [shape]⟩
    intro item mem
    simp [shape, mem]

namespace Replaces

variable {front gone back : List (Item ι (h + 1))}

section

variable (replaces : Replaces before after items merge child front gone back)
include replaces

theorem length_gone : gone.length = 2 := replaces.pair.length_eq

theorem take_eq : (before ++ child :: after).take merge.first = front := by
  rw [replaces.shape, replaces.first, take_left]

theorem drop_eq : (before ++ child :: after).drop (merge.first + 2) = back := by
  rw [replaces.shape, replaces.first, ← replaces.length_gone, ← append_assoc,
    ← length_append, drop_left]

end

end Replaces

section

variable (merges : MergesWith before after items merge)
include merges

theorem MergesWith.sibling_mem : merge.sibling ∈ before ∨ merge.sibling ∈ after := by
  cases merges with
  | left front sibling shape inside => exact .inl (by simp [shape])
  | right sibling back shape inside => exact .inr (by simp [shape])

theorem MergesWith.inside : pageBytes merge.items ≤ pageSize := by
  cases merges with
  | left front sibling shape inside => exact inside
  | right sibling back shape inside => exact inside

theorem MergesWith.perm : merge.items.Perm (items ++ merge.sibling.items) := by
  cases merges with
  | left front sibling shape inside => exact perm_append_comm
  | right sibling back shape inside => exact .refl _

end

theorem MergesWith.fit (merges : MergesWith before after items merge)
    (fitBefore : ∀ item ∈ before, item.Fit) (fitAfter : ∀ item ∈ after, item.Fit)
    (fitItems : ∀ item ∈ items, item.Fit) (label : ι) : (Item.node label merge.items).Fit := by
  have siblingFit := merges.sibling_mem.elim (fitBefore _) (fitAfter _)
  refine Item.fit_node ?_ merges.inside ?_
  · intro empty
    have both := merges.perm
    rw [empty] at both
    exact siblingFit.nonempty (append_eq_nil_iff.mp both.nil_eq.symm).2
  · intro item mem
    exact (mem_append.mp (merges.perm.mem_iff.mp mem)).elim (fitItems item)
      (siblingFit.items item)

/-! ### Merging without labels -/

def Merge.erase {ι : Type} (merge : Merge ι h) : Merge Unit h :=
  ⟨merge.first, merge.sibling.erase, merge.items.map Item.erase⟩

section Erase

variable {ι : Type} (children : List (Item ι (h + 1))) (idx : Nat) (items : List (Item ι h))

theorem leftMerge_erase : leftMerge (children.map Item.erase) idx (items.map Item.erase) =
    (leftMerge children idx items).map Merge.erase := by
  rw [leftMerge, leftMerge, List.getElem?_map]
  split_ifs with positive
  · cases children[idx - 1]? with
    | none => rfl
    | some left =>
      simp only [Option.map_some, Item.erase_succ, Item.items_node, ← map_append,
        pageBytes_erase]
      split_ifs <;> rfl
  · rfl

theorem rightMerge_erase : rightMerge (children.map Item.erase) idx (items.map Item.erase) =
    (rightMerge children idx items).map Merge.erase := by
  rw [rightMerge, rightMerge, List.getElem?_map]
  cases children[idx + 1]? with
  | none => rfl
  | some right =>
    simp only [Option.map_some, Item.erase_succ, Item.items_node, ← map_append,
      pageBytes_erase]
    split_ifs <;> rfl

theorem siblingMerge_erase : siblingMerge (children.map Item.erase) idx (items.map Item.erase) =
    (siblingMerge children idx items).map Merge.erase := by
  rw [siblingMerge, siblingMerge, leftMerge_erase, rightMerge_erase, pageBytes_erase,
    length_map]
  split_ifs
  · rw [Option.map_or]
  · rfl

end Erase

/-- What a successful change of the children of a node preserves. -/
structure Rebalanced (before after : List (Item Unit (h + 1))) (items : List (Item Unit h))
    (result : List (Item Unit (h + 1))) : Prop where
  entries : entriesOf result = entriesOf before ++ (entriesOf items ++ entriesOf after)
  fit : ∀ item ∈ result, item.Fit
  inside : pageBytes result ≤ pageSize

theorem boundedItems_eq_removed {result : List (Item ι h)}
    (bounded : boundedItems items = .removed result) :
    result = items ∧ pageBytes items ≤ pageSize := by
  rw [boundedItems] at bounded
  split_ifs at bounded with large
  injection bounded with same
  exact ⟨same.symm, Nat.le_of_not_lt large⟩

theorem rebalance_spec {before after result : List (Item Unit (h + 1))} {child : Item Unit (h + 1)}
    {items : List (Item Unit h)} (fit : ∀ item ∈ before ++ child :: after, item.Fit)
    (inside : pageBytes (before ++ child :: after) ≤ pageSize)
    (fitItems : ∀ item ∈ items, item.Fit) (insideItems : pageBytes items ≤ pageSize)
    (removed : rebalance (before ++ child :: after) before.length items = .removed result) :
    Rebalanced before after items result := by
  have fitBefore : ∀ item ∈ before, item.Fit := fun item mem => fit item (by simp [mem])
  have fitAfter : ∀ item ∈ after, item.Fit := fun item mem => fit item (by simp [mem])
  rw [rebalance] at removed
  cases choice : siblingMerge (before ++ child :: after) before.length items with
  | some chosen =>
    rw [choice] at removed
    have merges := siblingMerge_spec choice
    obtain ⟨front, gone, back, replaces⟩ := merges.replaces child
    simp only [replaces.take_eq, replaces.drop_eq] at removed
    obtain ⟨rfl, bounded⟩ := boundedItems_eq_removed removed
    refine ⟨?_, ?_, bounded⟩
    · rw [entriesOf_append, entriesOf_cons, ← replaces.entries]
      rfl
    · intro item mem
      rcases mem_append.mp mem with isFront | mem
      · exact fitBefore item (replaces.front_old item isFront)
      · rcases mem_cons.mp mem with rfl | isBack
        · exact merges.fit fitBefore fitAfter fitItems ()
        · exact fitAfter item (replaces.back_old item isBack)
  | none =>
    have taken : (before ++ child :: after).take before.length = before := by simp
    have dropped : (before ++ child :: after).drop (before.length + 1) = after := by simp
    rw [choice] at removed
    simp only [taken, dropped] at removed
    by_cases empty : items.length = 0
    · rw [if_pos empty] at removed
      injection removed with same
      rw [length_eq_zero_iff] at empty
      subst same empty
      refine ⟨by simp, ?_, ?_⟩
      · intro item mem
        exact (mem_append.mp mem).elim (fitBefore item) (fitAfter item)
      · simp only [pageBytes, total_append, total_cons] at inside ⊢
        omega
    · rw [if_neg empty] at removed
      obtain ⟨rfl, bounded⟩ := boundedItems_eq_removed removed
      refine ⟨by simp, ?_, bounded⟩
      intro item mem
      rcases mem_append.mp mem with isBefore | mem
      · exact fitBefore item isBefore
      · rcases mem_cons.mp mem with rfl | isAfter
        · exact Item.fit_node (fun none => empty (by rw [none]; rfl)) insideItems fitItems
        · exact fitAfter item isAfter

/-- What a deletion below a node does to its entries. -/
def DeletionSpec (key : Bytes) (items : List (Item Unit h)) :
    Deletion (List (Item Unit h)) → Prop
  | .absent => ∀ entry ∈ entriesOf items, entry.key ≠ key
  | .overflow => ∃ entry ∈ entriesOf items, entry.key = key
  | .removed result =>
    (∃ entry ∈ entriesOf items, entry.key = key) ∧
      entriesOf result = SortedMap.erase key (entriesOf items) ∧
      (∀ item ∈ result, item.Fit) ∧ pageBytes result ≤ pageSize

theorem total_filter_le (weight : Entry → Nat) (keep : Entry → Bool) (entries : List Entry) :
    total weight (entries.filter keep) ≤ total weight entries := by
  induction entries with
  | nil => simp
  | cons entry entries ih =>
    rw [filter_cons]
    split <;> simp only [total_cons] <;> omega

theorem deleteItems_zero (items : List (Item Unit 0)) : deleteItems key items =
    if key ∈ items.map Item.key then
      .removed ((erase key (items.map Item.entry)).map Item.ofEntry)
    else .absent := rfl

theorem deleteItems_succ (items : List (Item Unit (h + 1))) : deleteItems key items =
    match items[lowerIndex items key]? with
    | none => .absent
    | some child =>
      match deleteItems key child.items with
      | .absent => .absent
      | .overflow => .overflow
      | .removed updated => rebalance items (lowerIndex items key) updated := rfl

theorem deleteItems_leaf {items : List (Item Unit 0)} (fit : ∀ item ∈ items, item.Fit)
    (inside : pageBytes items ≤ pageSize) : DeletionSpec key items (deleteItems key items) := by
  rw [deleteItems_zero]
  split_ifs with present
  · obtain ⟨item, mem, sameKey⟩ := mem_map.mp present
    refine ⟨⟨item.entry, ?_, sameKey⟩, ?_, ?_, ?_⟩
    · rw [entriesOf_zero]
      exact mem_map_of_mem mem
    · rw [entriesOf_zero, entriesOf_zero, map_entry_ofEntry]
    · intro item mem
      obtain ⟨entry, isEntry, rfl⟩ := mem_map.mp mem
      obtain ⟨original, isItem, rfl⟩ := mem_map.mp (mem_filter.mp isEntry).1
      exact fit original isItem
    · rw [pageBytes_leaf] at inside
      rw [pageBytes_leaf, map_entry_ofEntry, erase]
      exact (Nat.add_le_add_left (total_filter_le entryWeight _ _) _).trans inside
  · intro entry mem sameKey
    rw [entriesOf_zero] at mem
    obtain ⟨item, isItem, rfl⟩ := mem_map.mp mem
    exact present (mem_map.mpr ⟨item, isItem, sameKey⟩)

/-- A deletion removes the key from the entries of the node and keeps the limits. -/
theorem deleteItems_spec : ∀ {h : Nat} {items : List (Item Unit h)}, Descends items key →
    pageBytes items ≤ pageSize → DeletionSpec key items (deleteItems key items)
  | 0, items, descends, inside => deleteItems_leaf descends.fit inside
  | h + 1, items, descends, inside => by
    obtain ⟨before, child, after, around⟩ := descends.around
    have childFit := around.fit descends.fit
    have recursive := deleteItems_spec (descends.child around) childFit.inside
    rw [deleteItems_succ, around.getElem?_eq]
    simp only
    cases outcome : deleteItems key child.items with
    | absent =>
      rw [outcome] at recursive
      exact fun entry mem same => recursive entry (around.mem_of_key descends mem same) same
    | overflow =>
      rw [outcome] at recursive
      obtain ⟨entry, mem, sameKey⟩ := recursive
      exact ⟨entry, around.mem_entries mem, sameKey⟩
    | removed updated =>
      rw [outcome] at recursive
      obtain ⟨⟨entry, mem, sameKey⟩, entries, fit, bounded⟩ := recursive
      have present : ∃ entry ∈ entriesOf items, entry.key = key :=
        ⟨entry, around.mem_entries mem, sameKey⟩
      change DeletionSpec key items (rebalance items (lowerIndex items key) updated)
      cases balance : rebalance items (lowerIndex items key) updated with
      | absent =>
        exfalso
        rw [rebalance] at balance
        split at balance
        · rw [boundedItems] at balance
          split_ifs at balance
        · rw [boundedItems] at balance
          split_ifs at balance
      | overflow => exact present
      | removed result =>
        rw [around.index, around.shape] at balance
        have spec := rebalance_spec (around.shape ▸ descends.fit) (around.shape ▸ inside) fit
          bounded balance
        refine ⟨present, ?_, spec.fit, spec.inside⟩
        rw [spec.entries, entries, around.erase_eq descends]
        rfl

end Deletion

end GoDatabase
