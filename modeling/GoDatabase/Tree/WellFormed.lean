import GoDatabase.Tree.Item
import Mathlib.Data.List.TakeWhile

/-!
# Well-formed trees

`Item.Fit` collects the limits that hold of every node by itself: no node is empty,
every node fits in a page, and entries respect the key and value limits.  The
global condition is that the entries of the whole tree are sorted; it implies the
order of the separators at every level.
-/

namespace GoDatabase

open Library SortedMap List Item

/-- The entries of a list of items, in order. -/
def entriesOf {ι : Type} {h : Nat} (items : List (Item ι h)) : List Entry :=
  items.flatMap Item.entries

namespace Item

variable {ι : Type} {h : Nat}

/-- Every node is nonempty and fits in a page, every entry respects the limits. -/
def Fit : {h : Nat} → Item ι h → Prop
  | 0, item =>
    item.entry.key.length ≤ maxKeySize ∧ item.entry.value.length ≤ maxValueSize ∧
      (item.entry.key = [] → item.entry.value = [])
  | _ + 1, tree =>
    tree.items ≠ [] ∧ pageBytes tree.items ≤ pageSize ∧ ∀ item ∈ tree.items, Fit item

theorem fit_node {label : ι} {items : List (Item ι h)} (nonempty : items ≠ [])
    (inside : pageBytes items ≤ pageSize) (fit : ∀ item ∈ items, item.Fit) :
    (node label items).Fit := ⟨nonempty, inside, fit⟩

variable {tree : Item ι (h + 1)}

theorem Fit.nonempty (fit : tree.Fit) : tree.items ≠ [] := fit.1

theorem Fit.inside (fit : tree.Fit) : pageBytes tree.items ≤ pageSize :=
  fit.2.1

theorem Fit.items (fit : tree.Fit) : ∀ item ∈ tree.items, item.Fit :=
  fit.2.2

theorem Fit.exists_cons (fit : tree.Fit) : ∃ first rest, tree.items = first :: rest :=
  exists_cons_of_ne_nil fit.nonempty

theorem Fit.of_items {other : Item ι (h + 1)} (fit : other.Fit)
    (same : other.items = tree.items) : tree.Fit := by
  rw [Fit] at fit ⊢
  rwa [← same]

@[simp] theorem fit_erase : ∀ {h : Nat} (item : Item ι h), item.erase.Fit ↔ item.Fit
  | 0, _ => Iff.rfl
  | h + 1, tree => by
    have sizes : pageBytes tree.erase.items = pageBytes tree.items := pageBytes_erase tree.items
    constructor
    · intro fit
      refine fit_node (fun empty => fit.nonempty (List.map_eq_nil_iff.mpr empty))
        (sizes ▸ fit.inside) ?_
      intro item mem
      exact (fit_erase item).mp (fit.items _ (List.mem_map_of_mem mem))
    · intro fit
      refine fit_node (fun empty => fit.nonempty (List.map_eq_nil_iff.mp empty))
        (sizes.symm ▸ fit.inside) ?_
      intro item mem
      obtain ⟨original, isItem, rfl⟩ := List.mem_map.mp mem
      exact (fit_erase original).mpr (fit.items original isItem)

/-- The first entry below an item carries the key of the item. -/
theorem Fit.entries_eq_cons : ∀ {h : Nat} {item : Item ι h}, item.Fit →
    ∃ value rest, item.entries = ⟨item.key, value⟩ :: rest
  | 0, item, _ => ⟨item.entry.value, [], rfl⟩
  | h + 1, tree, fit => by
    obtain ⟨first, others, shape⟩ := fit.exists_cons
    have firstFit := fit.items first (by simp [shape])
    obtain ⟨value, rest, firstEntries⟩ := firstFit.entries_eq_cons
    refine ⟨value, rest ++ entriesOf others, ?_⟩
    rw [entries_succ, shape, flatMap_cons, firstEntries, key_of_items shape]
    rfl

theorem Fit.length_le : ∀ {h : Nat} {item : Item ι h}, item.Fit →
    ∀ entry ∈ item.entries, entry.key.length ≤ maxKeySize
  | 0, _, fit, _, mem => mem_singleton.mp mem ▸ fit.1
  | _ + 1, _, fit, entry, mem => by
    obtain ⟨item, isItem, below⟩ := mem_flatMap.mp mem
    exact (fit.items item isItem).length_le entry below

theorem Fit.key_le {item : Item ι h} (fit : item.Fit) : item.key.length ≤ maxKeySize := by
  obtain ⟨value, rest, shape⟩ := fit.entries_eq_cons
  exact fit.length_le _ (shape ▸ mem_cons_self ..)

/-- A single item leaves most of a page unused. -/
theorem Fit.weight_le : ∀ {h : Nat} {item : Item ι h}, item.Fit →
    item.weight ≤ pagePtrSize + pageOffsetSize + (4 + maxKeySize + maxValueSize)
  | 0, item, fit => by
    have := fit.1
    have := fit.2.1
    rw [weight_zero]
    omega
  | h + 1, tree, fit => by
    have := fit.key_le
    rw [weight_succ]
    omega

end Item

/-! ## Order -/

section Order

variable {ι : Type} {h : Nat}

@[simp] theorem flatMap_entries (items : List (Item ι h)) :
    items.flatMap Item.entries = entriesOf items := rfl

@[simp] theorem entriesOf_nil : entriesOf ([] : List (Item ι h)) = [] := rfl

@[simp] theorem entriesOf_cons (item : Item ι h) (items : List (Item ι h)) :
    entriesOf (item :: items) = item.entries ++ entriesOf items := rfl

@[simp] theorem entriesOf_append (left right : List (Item ι h)) :
    entriesOf (left ++ right) = entriesOf left ++ entriesOf right := List.flatMap_append ..

theorem entriesOf_zero (items : List (Item ι 0)) : entriesOf items = items.map entry := by
  induction items with
  | nil => rfl
  | cons item items ih => rw [entriesOf_cons, ih]; rfl

@[simp] theorem entriesOf_erase (items : List (Item ι h)) :
    entriesOf (items.map Item.erase) = entriesOf items := by
  rw [entriesOf, List.flatMap_map]
  simp only [Item.entries_erase]
  rfl

/-- The entries of nodes are those of their items. -/
theorem entriesOf_items (trees : List (Item ι (h + 1))) :
    entriesOf trees = entriesOf (trees.map items).flatten := by
  induction trees with
  | nil => rfl
  | cons tree trees ih =>
    rw [entriesOf_cons, ih, map_cons, flatten_cons, entriesOf_append]
    rfl

variable {entry : Entry} {items : List (Item ι h)} {item : Item ι h}

theorem mem_entriesOf (mem : item ∈ items)
    (below : entry ∈ item.entries) : entry ∈ entriesOf items :=
  mem_flatMap.mpr ⟨item, mem, below⟩

/-- The parts of a sorted concatenation are sorted, and the first part is below the
second. -/
theorem sorted_append {left right : List Entry} :
    Sorted (left ++ right) ↔ Sorted left ∧ Sorted right ∧
      ∀ entry ∈ left, ∀ other ∈ right, entry.key < other.key := pairwise_append

/-- The key of a sorted item is the least key below it. -/
theorem key_le_of_mem_entries (fit : item.Fit)
    (sorted : Sorted item.entries) (mem : entry ∈ item.entries) :
    item.key ≤ entry.key := by
  obtain ⟨value, rest, shape⟩ := fit.entries_eq_cons
  rw [shape] at sorted mem
  rcases mem_cons.mp mem with rfl | later
  · exact le_refl _
  · exact le_of_lt ((pairwise_cons.mp sorted).1 entry later)

theorem mem_entries_of_key (fit : item.Fit) :
    ∃ value, (⟨item.key, value⟩ : Entry) ∈ item.entries := by
  obtain ⟨value, rest, shape⟩ := fit.entries_eq_cons
  exact ⟨value, by rw [shape]; exact mem_cons_self ..⟩

theorem sorted_entries_of_mem
    (sorted : Sorted (entriesOf items))
    {item : Item ι h} (mem : item ∈ items) : Sorted item.entries := by
  obtain ⟨before, after, rfl⟩ := append_of_mem mem
  rw [entriesOf_append, entriesOf_cons] at sorted
  exact (sorted_append.mp (sorted_append.mp sorted).2.1).1

/-- The separators of a node are strictly ascending. -/
theorem keys_pairwise (fit : ∀ item ∈ items, item.Fit)
    (sorted : Sorted (entriesOf items)) :
    items.Pairwise fun left right => left.key < right.key := by
  induction items with
  | nil => exact List.Pairwise.nil
  | cons item items ih =>
    rw [entriesOf_cons] at sorted
    obtain ⟨-, sortedRest, below⟩ := sorted_append.mp sorted
    refine pairwise_cons.mpr
      ⟨?_, ih (fun other mem => fit other (mem_cons_of_mem _ mem)) sortedRest⟩
    intro other mem
    obtain ⟨value, first⟩ := mem_entries_of_key (fit item (mem_cons_self ..))
    obtain ⟨otherValue, otherFirst⟩ :=
      mem_entries_of_key (fit other (mem_cons_of_mem _ mem))
    exact below _ first _ (mem_entriesOf mem otherFirst)

/-- The items of a node around the one that a key belongs to. -/
structure Around (items : List (Item ι h)) (key : Bytes) (before : List (Item ι h))
    (item : Item ι h) (after : List (Item ι h)) : Prop where
  shape : items = before ++ item :: after
  index : lowerIndex items key = before.length
  low : item.key ≤ key
  before_low : ∀ other ∈ before, other.key ≤ key
  high : ∀ other ∈ after, key < other.key

theorem exists_around {first : Item ι h} {rest : List (Item ι h)}
    (shape : items = first :: rest)
    (ascending : items.Pairwise fun left right => left.key < right.key) {key : Bytes}
    (low : first.key ≤ key) : ∃ before item after, Around items key before item after := by
  have split := @List.takeWhile_append_dropWhile _ (fun item : Item ι h => item.key ≤ key) items
  have nonempty : items.takeWhile (fun item => item.key ≤ key) ≠ [] := by
    rw [shape, takeWhile_cons_of_pos (by simpa using low)]
    exact cons_ne_nil _ _
  obtain ⟨before, item, front⟩ := eq_nil_or_concat _ |>.resolve_left nonempty
  have allLow : ∀ other ∈ before ++ [item], other.key ≤ key := by
    intro other mem
    rw [← concat_eq_append, ← front] at mem
    simpa using mem_takeWhile_imp mem
  rw [concat_eq_append] at front
  rw [front, append_assoc, singleton_append] at split
  refine ⟨before, item, _, split.symm, ?_, allLow item (by simp),
    fun other mem => allLow other (by simp [mem]), ?_⟩
  · rw [lowerIndex, front, length_append, length_singleton, Nat.add_sub_cancel]
  intro other mem
  cases back : items.dropWhile (fun item => item.key ≤ key) with
  | nil =>
    rw [back] at mem
    cases mem
  | cons head tail =>
    have headHigh : key < head.key := by
      have notLow := @List.head_dropWhile_not _ (fun item : Item ι h => decide (item.key ≤ key))
        items (by rw [back]; exact cons_ne_nil _ _)
      simpa [back] using notLow
    rw [back] at mem split
    rcases mem_cons.mp mem with rfl | later
    · exact headHigh
    · rw [← split] at ascending
      have tailAscending := (pairwise_append.mp ascending).2.1
      have ordered := (pairwise_cons.mp (pairwise_cons.mp tailAscending).2).1
      exact headHigh.trans (ordered other later)

namespace Around

variable {before after : List (Item ι h)} {key : Bytes}
  (around : Around items key before item after)
include around

theorem entries_eq :
    entriesOf items = entriesOf before ++ (item.entries ++ entriesOf after) := by
  rw [around.shape, entriesOf_append, entriesOf_cons]

theorem erase :
    Around (items.map erase) key (before.map erase) item.erase (after.map erase) where
  shape := by rw [around.shape, map_append, map_cons]
  index := by rw [lowerIndex_erase, around.index, length_map]
  low := by rw [key_erase]; exact around.low
  before_low := by
    intro other mem
    obtain ⟨original, isBefore, rfl⟩ := mem_map.mp mem
    rw [key_erase]
    exact around.before_low original isBefore
  high := by
    intro other mem
    obtain ⟨original, isAfter, rfl⟩ := mem_map.mp mem
    rw [key_erase]
    exact around.high original isAfter

theorem fit (fit : ∀ item ∈ items, item.Fit) :
    item.Fit := fit item (by simp [around.shape])

theorem sorted_item (sorted : Sorted (entriesOf items)) : Sorted item.entries :=
  sorted_entries_of_mem sorted (by simp [around.shape])

theorem mem_entries (mem : entry ∈ item.entries) : entry ∈ entriesOf items :=
  mem_entriesOf (by simp [around.shape]) mem

end Around

/-- The condition under which an operation may descend into a node. -/
structure Descends (items : List (Item ι h)) (key : Bytes) : Prop where
  fit : ∀ item ∈ items, item.Fit
  sorted : SortedMap.Sorted (entriesOf items)
  low : ∃ first rest, items = first :: rest ∧ first.key ≤ key

namespace Descends

variable {key : Bytes}

theorem around (descends : Descends items key) :
    ∃ before item after, Around items key before item after := by
  obtain ⟨first, rest, shape, low⟩ := descends.low
  exact exists_around shape (keys_pairwise descends.fit descends.sorted) low

end Descends

section

variable {before after : List (Item ι h)} {key : Bytes}
  (around : Around items key before item after) (descends : Descends items key)
include around descends

theorem Around.entries_before : ∀ entry ∈ entriesOf before, entry.key < key := by
  intro entry mem
  have sorted := descends.sorted
  rw [around.entries_eq] at sorted
  obtain ⟨value, first⟩ := mem_entries_of_key (around.fit descends.fit)
  have less := (sorted_append.mp sorted).2.2 entry mem _ (mem_append_left _ first)
  exact lt_of_lt_of_le less around.low

theorem Around.entries_after : ∀ entry ∈ entriesOf after, key < entry.key := by
  intro entry mem
  obtain ⟨other, isAfter, below⟩ := mem_flatMap.mp mem
  have inItems : other ∈ items := by simp [around.shape, isAfter]
  exact lt_of_lt_of_le (around.high other isAfter) (key_le_of_mem_entries
    (descends.fit other inItems) (sorted_entries_of_mem descends.sorted inItems) below)

/-- No other item can bind the key. -/
theorem Around.mem_of_key (mem : entry ∈ entriesOf items) (same : entry.key = key) :
    entry ∈ item.entries := by
  rw [around.entries_eq] at mem
  rcases mem_append.mp mem with isBefore | mem
  · exact absurd same (around.entries_before descends entry isBefore).ne
  · rcases mem_append.mp mem with isItem | isAfter
    · exact isItem
    · exact absurd same (around.entries_after descends entry isAfter).ne'

theorem Around.lookup_eq : lookup (entriesOf items) key = lookup item.entries key := by
  rw [around.entries_eq]
  exact lookup_middle (fun entry mem => (around.entries_before descends entry mem).ne)
    fun entry mem => (around.entries_after descends entry mem).ne'

theorem Around.erase_eq : SortedMap.erase key (entriesOf items) =
    entriesOf before ++ (SortedMap.erase key item.entries ++ entriesOf after) := by
  rw [around.entries_eq]
  exact erase_middle (fun entry mem => (around.entries_before descends entry mem).ne)
    fun entry mem => (around.entries_after descends entry mem).ne'

end

namespace Descends

variable {key : Bytes}

theorem child {items before after : List (Item ι (h + 1))} {child : Item ι (h + 1)}
    (descends : Descends items key) (around : Around items key before child after) :
    Descends child.items key where
  fit := (around.fit descends.fit).items
  sorted := around.sorted_item descends.sorted
  low := by
    obtain ⟨first, rest, shape⟩ := (around.fit descends.fit).exists_cons
    exact ⟨first, rest, shape, key_of_items shape ▸ around.low⟩

theorem erase (descends : Descends items key) :
    Descends (items.map Item.erase) key where
  fit := by
    intro item mem
    obtain ⟨original, isItem, rfl⟩ := mem_map.mp mem
    exact (Item.fit_erase original).mpr (descends.fit original isItem)
  sorted := by
    rw [entriesOf_erase]
    exact descends.sorted
  low := by
    obtain ⟨first, rest, rfl, low⟩ := descends.low
    exact ⟨first.erase, rest.map Item.erase, rfl, by rwa [Item.key_erase]⟩

end Descends

end Order

end GoDatabase
