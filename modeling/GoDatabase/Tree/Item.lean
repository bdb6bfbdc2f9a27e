import GoDatabase.Library.Packing
import GoDatabase.Tree.Encoded
import GoDatabase.Page.Validate

/-!
# Balanced trees of items

The tree that a set of pages represents.  An item of height zero is an entry of a
leaf; an item of height `h + 1` is a node with a label and items of height `h`.  All
leaves of an item are therefore at the same depth.  A node of a stored tree is
labelled with its page; a tree whose pages do not matter has trivial labels.

Separator keys are not part of a tree: the key of a node is the key of its first
item, and the record of a child is derived from it.
-/

namespace GoDatabase

open Library Packing List

/-- A node under a label. -/
structure Node (ι α : Type) where
  label : ι
  items : List α
  deriving DecidableEq

/-- Entries at height zero, nodes above. -/
def Item (ι : Type) : Nat → Type
  | 0 => Entry
  | h + 1 => Node ι (Item ι h)

instance Item.instDecidableEq {ι : Type} [DecidableEq ι] : (h : Nat) → DecidableEq (Item ι h)
  | 0 => inferInstanceAs (DecidableEq Entry)
  | h + 1 =>
    have : DecidableEq (Item ι h) := instDecidableEq h
    inferInstanceAs (DecidableEq (Node ι (Item ι h)))

namespace Item

variable {ι : Type} {h : Nat}

/-- A leaf entry as an item. -/
def ofEntry (entry : Entry) : Item ι 0 := entry

/-- The entry of an item of height zero. -/
def entry (item : Item ι 0) : Entry := item

/-- A node over items. -/
def node (label : ι) (items : List (Item ι h)) : Item ι (h + 1) :=
  (⟨label, items⟩ : Node ι (Item ι h))

def label (tree : Item ι (h + 1)) : ι := Node.label tree

def items (tree : Item ι (h + 1)) : List (Item ι h) := Node.items tree

@[simp] theorem label_node (label : ι) (items : List (Item ι h)) :
    (node label items).label = label := rfl

@[simp] theorem items_node (label : ι) (items : List (Item ι h)) :
    (node label items).items = items := rfl

/-- The key under which an item is found: for a node, the key of its first item. -/
def key : {h : Nat} → Item ι h → Bytes
  | 0, item => item.entry.key
  | _ + 1, tree =>
    match tree.items with
    | [] => []
    | first :: _ => key first

/-- The entries below an item, in order. -/
def entries : {h : Nat} → Item ι h → List Entry
  | 0, item => [item.entry]
  | _ + 1, tree => tree.items.flatMap entries

/-- The bytes of the page that hold an item: pointer, offset and record. -/
def weight : {h : Nat} → Item ι h → Nat
  | 0, item => pagePtrSize + pageOffsetSize + (4 + item.entry.key.length + item.entry.value.length)
  | _ + 1, tree => pagePtrSize + pageOffsetSize + (4 + tree.key.length)

/-- The labels of an item, each node before its items. -/
def labels : {h : Nat} → Item ι h → List ι
  | 0, _ => []
  | _ + 1, tree => tree.label :: tree.items.flatMap labels

/-- The item without its labels. -/
def erase : {h : Nat} → Item ι h → Item Unit h
  | 0, item => ofEntry item.entry
  | _ + 1, tree => node () (tree.items.map erase)

@[simp] theorem key_zero (item : Item ι 0) : item.key = item.entry.key := rfl

theorem key_of_items {tree : Item ι (h + 1)} {first : Item ι h} {rest : List (Item ι h)}
    (shape : tree.items = first :: rest) : tree.key = first.key := by
  rw [key, shape]

@[simp] theorem entries_zero (item : Item ι 0) : item.entries = [item.entry] := rfl

@[simp] theorem entries_succ (tree : Item ι (h + 1)) :
    tree.entries = tree.items.flatMap entries := rfl

@[simp] theorem weight_zero (item : Item ι 0) : item.weight =
    pagePtrSize + pageOffsetSize + (4 + item.entry.key.length + item.entry.value.length) := rfl

@[simp] theorem weight_succ (tree : Item ι (h + 1)) :
    tree.weight = pagePtrSize + pageOffsetSize + (4 + tree.key.length) := rfl

@[simp] theorem labels_zero (item : Item ι 0) : item.labels = [] := rfl

@[simp] theorem labels_succ (tree : Item ι (h + 1)) :
    tree.labels = tree.label :: tree.items.flatMap labels := rfl

@[simp] theorem erase_succ (tree : Item ι (h + 1)) :
    tree.erase = node () (tree.items.map erase) := rfl

/-! ## Erasing the labels -/

@[simp] theorem key_erase : ∀ {h : Nat} (item : Item ι h), item.erase.key = item.key
  | 0, _ => rfl
  | h + 1, tree => by
    rw [erase_succ]
    cases shape : tree.items with
    | nil => rw [key, key, shape]; rfl
    | cons first rest =>
      have erased : (node () ((first :: rest).map erase)).items = first.erase :: rest.map erase :=
        rfl
      rw [key_of_items shape, key_of_items erased]
      exact key_erase first

@[simp] theorem weight_erase : ∀ {h : Nat} (item : Item ι h), item.erase.weight = item.weight
  | 0, _ => rfl
  | h + 1, tree => by rw [weight_succ, weight_succ, key_erase]

@[simp] theorem entries_erase : ∀ {h : Nat} (item : Item ι h), item.erase.entries = item.entries
  | 0, _ => rfl
  | h + 1, tree => by
    rw [erase_succ, entries_succ, entries_succ, items_node, List.flatMap_map]
    congr 1
    funext item
    exact entries_erase item

end Item

/-! ## Lists of items -/

section Items

variable {ι : Type} {h : Nat}

/-- The encoded size of a node with these items. -/
def pageBytes (items : List (Item ι h)) : Nat := pageHeaderSize + Packing.total Item.weight items

/-- The parts of a node: itself if it fits in a page, otherwise greedily packed pages. -/
def splitItems (items : List (Item ι h)) : List (List (Item ι h)) :=
  if pageBytes items ≤ pageSize then [items]
  else Packing.pack Item.weight pageHeaderSize pageSize items

/-- The index of the last item whose key is at most `key`. -/
def lowerIndex (items : List (Item ι h)) (key : Bytes) : Nat :=
  (items.takeWhile fun item => item.key ≤ key).length - 1

/-- The type tag of a node whose items have height `h`. -/
def nodeType : Nat → Nat
  | 0 => nodeTypeLeaf
  | _ + 1 => nodeTypeInternal

theorem total_erase (items : List (Item ι h)) :
    total Item.weight (items.map Item.erase) = total Item.weight items := by
  induction items with
  | nil => rfl
  | cons item items ih =>
    rw [map_cons, total_cons, total_cons, Item.weight_erase, ih]

@[simp] theorem pageBytes_erase (items : List (Item ι h)) :
    pageBytes (items.map Item.erase) = pageBytes items := by
  rw [pageBytes, pageBytes, total_erase]

theorem packFrom_erase (items : List (Item ι h)) : ∀ bin : List (Item ι h),
    packFrom Item.weight pageHeaderSize pageSize (bin.map Item.erase)
        (items.map Item.erase) =
      (packFrom Item.weight pageHeaderSize pageSize bin items).map
        fun part => part.map Item.erase := by
  induction items with
  | nil => intro bin; rfl
  | cons item items ih =>
    intro bin
    rw [map_cons, packFrom, packFrom, total_erase, Item.weight_erase]
    have extended := ih (bin ++ [item])
    have opened := ih [item]
    rw [map_append, map_singleton] at extended
    rw [map_singleton] at opened
    split
    · exact extended
    · rw [opened, map_cons]

theorem splitItems_erase (items : List (Item ι h)) : splitItems (items.map Item.erase) =
      (splitItems items).map fun part => part.map Item.erase := by
  rw [splitItems, splitItems, pageBytes_erase]
  split
  · rfl
  · cases items with
    | nil => rfl
    | cons item items => exact packFrom_erase items [item]

@[simp] theorem lowerIndex_erase (items : List (Item ι h)) (key : Bytes) :
    lowerIndex (items.map Item.erase) key = lowerIndex items key := by
  rw [lowerIndex, lowerIndex, List.takeWhile_map, List.length_map]
  simp only [Function.comp_def, Item.key_erase]

end Items

end GoDatabase
