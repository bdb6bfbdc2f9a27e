import GoDatabase.Tree.Pages

/-!
# The tree of a database

A database holds at most one tree.  Its first entry is the empty sentinel key, which
gives every lookup a lower bound; the entries after it are the bindings of the
database.
-/

namespace GoDatabase

open Library BNode SortedMap Option

/-- A tree with the limits and the order that the operations rely on. -/
structure Tree where
  height : Nat
  top : Item Nat (height + 1)
  fit : top.Fit
  sorted : SortedMap.Sorted top.entries
  sentinel : top.entries.head? = some ⟨[], []⟩

/-- Page zero stands for the empty tree. -/
inductive Root where
  | empty
  | tree (tree : Tree)

namespace Tree

/-- The entries after the sentinel. -/
def bindings (tree : Tree) : List Entry := tree.top.entries.tail

theorem entries_eq (tree : Tree) : tree.top.entries = ⟨[], []⟩ :: tree.bindings := by
  have sentinel := tree.sentinel
  rw [bindings]
  cases shape : tree.top.entries with
  | nil =>
    rw [shape] at sentinel
    cases sentinel
  | cons first rest =>
    rw [shape] at sentinel
    rw [some.inj sentinel]
    rfl

theorem key_eq (tree : Tree) : tree.top.key = [] := by
  obtain ⟨value, rest, shape⟩ := tree.fit.entries_eq_cons
  have sentinel := tree.sentinel
  rw [shape] at sentinel
  exact congrArg Binding.key (some.inj sentinel)

/-- Every binding has a nonempty key. -/
theorem key_ne_nil (tree : Tree) {entry : Entry} (mem : entry ∈ tree.bindings) :
    entry.key ≠ [] := by
  intro empty
  have sorted := tree.sorted
  rw [tree.entries_eq] at sorted
  have above := (List.pairwise_cons.mp sorted).1 entry mem
  rw [empty] at above
  exact List.not_lt_nil _ above

variable {key : Bytes}

/-- The bindings are found in the whole list of entries. -/
theorem lookup_entries (tree : Tree) (nonempty : key ≠ []) :
    lookup tree.top.entries key = lookup tree.bindings key := by
  rw [tree.entries_eq, lookup_cons, if_neg (fun empty => nonempty empty.symm)]

theorem nil_lt (nonempty : key ≠ []) : [] < key :=
  lt_of_le_of_ne (not_lt.mp (List.not_lt_nil key)) nonempty.symm

/-- Binding a key leaves the sentinel alone. -/
theorem put_entries (tree : Tree) (nonempty : key ≠ []) (value : Bytes) :
    put key value tree.top.entries =
      ⟨[], []⟩ :: put key value tree.bindings := by
  rw [tree.entries_eq]
  refine @put_append_of_lt _ _ _ [⟨[], []⟩] tree.bindings key value ?_
  intro entry mem
  rw [List.mem_singleton.mp mem]
  exact nil_lt nonempty

/-- Removing a key leaves the sentinel alone. -/
theorem erase_entries (tree : Tree) (nonempty : key ≠ []) :
    erase key tree.top.entries = ⟨[], []⟩ :: erase key tree.bindings := by
  have kept : erase key [(⟨[], []⟩ : Entry)] = [⟨[], []⟩] := by
    apply erase_of_absent
    intro entry mem
    rw [List.mem_singleton.mp mem]
    exact nonempty.symm
  rw [tree.entries_eq, ← List.singleton_append, erase_append, kept]
  rfl

/-- An operation may descend into the root. -/
theorem descends (tree : Tree) (key : Bytes) : Descends tree.top.items key where
  fit := tree.fit.items
  sorted := tree.sorted
  low := by
    obtain ⟨first, rest, shape⟩ := tree.fit.exists_cons
    refine ⟨first, rest, shape, ?_⟩
    rw [← Item.key_of_items shape, tree.key_eq]
    exact not_lt.mp (List.not_lt_nil key)

end Tree

namespace Root

def pageID : Root → Nat
  | .empty => 0
  | .tree held => held.top.label

def labels : Root → List Nat
  | .empty => []
  | .tree held => held.top.labels

def bindings : Root → List Entry
  | .empty => []
  | .tree held => held.bindings

def Stored (pages : PageMap) : Root → Prop
  | .empty => True
  | .tree held => held.top.Stored pages ∧ held.top.Addressed

variable {held : Tree}

theorem Stored.pages {pages : PageMap} (stored : (tree held).Stored pages) :
    held.top.Stored pages := stored.1

theorem Stored.nonzero {pages : PageMap} (stored : (tree held).Stored pages) :
    held.top.label ≠ 0 := stored.2.1.ne'

/-- A stored tree stays stored as long as its pages keep their contents. -/
theorem Stored.mono {pages next : PageMap} {root : Root} (stored : root.Stored pages)
    (kept : ∀ pageID ∈ root.labels, ∀ page, pages.lookup pageID = some page →
      next.lookup pageID = some page) : root.Stored next := by
  cases root with
  | empty => trivial
  | tree held => exact ⟨stored.pages.mono kept, stored.2⟩

end Root

/-! ## Pages of a stored tree -/

section Pages

variable {pages : PageMap}

theorem Item.Stored.mem_pages : ∀ {h : Nat} {item : Item Nat h}, item.Stored pages →
    ∀ pageID ∈ item.labels, pageID ∈ pages
  | 0, _, _, _, mem => absurd mem List.not_mem_nil
  | h + 1, tree, stored, pageID, mem => by
    rcases List.mem_cons.mp mem with rfl | below
    · obtain ⟨page, found, -⟩ := stored.page
      exact AList.lookup_isSome.mp (by rw [found]; rfl)
    · obtain ⟨item, isItem, isLabel⟩ := List.mem_flatMap.mp below
      exact (stored.items item isItem).mem_pages pageID isLabel

variable {root : Root}

theorem Root.Stored.mem_pages (stored : root.Stored pages) :
    ∀ pageID ∈ root.labels, pageID ∈ pages := by
  cases root with
  | empty => exact fun _ mem => absurd mem List.not_mem_nil
  | tree held => exact stored.pages.mem_pages

/-- A path to a leaf has different pages. -/
theorem Item.Fit.height_le {ι : Type} : ∀ {h : Nat} {item : Item ι h}, item.Fit →
    h ≤ item.labels.length
  | 0, _, _ => Nat.zero_le _
  | h + 1, tree, fit => by
    obtain ⟨first, rest, shape⟩ := fit.exists_cons
    have firstHeight := (fit.items first (by simp [shape])).height_le
    rw [Item.labels_succ, shape, List.flatMap_cons, List.length_cons, List.length_append]
    omega

theorem length_labels_le {labels : List Nat} (nodup : labels.Nodup)
    (known : ∀ pageID ∈ labels, pageID ∈ pages) : labels.length ≤ pages.keys.length :=
  (List.subperm_of_subset nodup fun pageID mem => AList.mem_keys.mpr (known pageID mem)).length_le

/-- No descent through a stored tree runs out of steps. -/
theorem Tree.height_lt_descents (tree : Tree) (stored : tree.top.Stored pages)
    (nodup : tree.top.labels.Nodup) : tree.height < pages.descents := by
  have height := tree.fit.height_le
  have few := length_labels_le nodup stored.mem_pages
  rw [PageMap.descents]
  omega

/-- The pages that can be reached from a root. -/
inductive Reachable (pages : PageMap) (root : Nat) : Nat → Prop
  | root (nonzero : root ≠ 0) : Reachable pages root root
  | child {pageID idx : Nat} {node : BNode} (parent : Reachable pages root pageID)
      (found : pages.lookup pageID = some node) (isInternal : btype node = nodeTypeInternal)
      (inRange : idx < nkeys node) : Reachable pages root (getPtr node idx)

/-- A reachable page is below some node of the tree. -/
theorem Item.Stored.reachable_child : ∀ {h : Nat} {tree : Item Nat (h + 1)}, tree.Stored pages →
    ∀ {pageID idx : Nat} {node : BNode}, pageID ∈ tree.labels → pages.lookup pageID = some node →
      btype node = nodeTypeInternal → idx < nkeys node → getPtr node idx ∈ tree.labels
  | 0, tree, stored, pageID, idx, node, mem, found, isInternal, inRange => by
    obtain ⟨page, here, valid⟩ := stored.page
    rcases List.mem_cons.mp mem with rfl | below
    · rw [here] at found
      obtain rfl := some.inj found
      rw [show btype page = nodeTypeLeaf from valid.holds.type_eq] at isInternal
      exact absurd isInternal (by decide)
    · obtain ⟨item, -, isLabel⟩ := List.mem_flatMap.mp below
      exact absurd isLabel List.not_mem_nil
  | h + 1, tree, stored, pageID, idx, node, mem, found, isInternal, inRange => by
    rcases List.mem_cons.mp mem with rfl | below
    · obtain ⟨page, here, valid⟩ := stored.page
      rw [here] at found
      obtain rfl := some.inj found
      rw [valid.holds.count_eq] at inRange
      rw [valid.holds.ptr_eq inRange, List.getElem_map]
      rw [List.length_map] at inRange
      exact List.mem_cons_of_mem _
        (List.mem_flatMap.mpr ⟨_, List.getElem_mem inRange, List.mem_cons_self ..⟩)
    · obtain ⟨item, isItem, isLabel⟩ := List.mem_flatMap.mp below
      exact List.mem_cons_of_mem _ (List.mem_flatMap.mpr ⟨item, isItem,
        (stored.items item isItem).reachable_child isLabel found isInternal inRange⟩)

/-- Every node of a stored tree can be reached from any page that reaches its top. -/
theorem Item.Stored.reachable_of_mem {root : Nat} : ∀ {h : Nat} {tree : Item Nat (h + 1)},
    tree.Stored pages → Reachable pages root tree.label →
    ∀ pageID ∈ tree.labels, Reachable pages root pageID
  | 0, tree, stored, reached, pageID, mem => by
    rcases List.mem_cons.mp mem with rfl | below
    · exact reached
    · obtain ⟨item, -, isLabel⟩ := List.mem_flatMap.mp below
      exact absurd isLabel List.not_mem_nil
  | h + 1, tree, stored, reached, pageID, mem => by
    rcases List.mem_cons.mp mem with rfl | below
    · exact reached
    obtain ⟨item, isItem, isLabel⟩ := List.mem_flatMap.mp below
    obtain ⟨page, here, valid⟩ := stored.page
    obtain ⟨idx, inRange, rfl⟩ := List.getElem_of_mem isItem
    have recorded : idx < (tree.items.map Item.record).length := by simpa using inRange
    have child := Reachable.child reached here valid.holds.type_eq
      (by rw [valid.holds.count_eq]; exact recorded)
    rw [valid.holds.ptr_eq recorded, List.getElem_map] at child
    exact (stored.items _ isItem).reachable_of_mem child pageID isLabel

theorem Item.Stored.reachable_iff {h : Nat} {tree : Item Nat (h + 1)} (stored : tree.Stored pages)
    (nonzero : tree.label ≠ 0) {pageID : Nat} :
    Reachable pages tree.label pageID ↔ pageID ∈ tree.labels := by
  constructor
  · intro reached
    induction reached with
    | root _ => exact List.mem_cons_self ..
    | child _ found isInternal inRange ih =>
      exact stored.reachable_child ih found isInternal inRange
  · exact stored.reachable_of_mem (.root nonzero) pageID

/-- The pages of a stored tree are the reachable ones. -/
theorem Root.Stored.reachable_iff (stored : root.Stored pages) {pageID : Nat} :
    Reachable pages root.pageID pageID ↔ pageID ∈ root.labels := by
  cases root with
  | empty =>
    refine ⟨fun reached => ?_, fun mem => absurd mem List.not_mem_nil⟩
    induction reached with
    | root nonzero => exact absurd rfl nonzero
    | child _ _ _ _ ih => exact absurd ih List.not_mem_nil
  | tree held => exact stored.pages.reachable_iff stored.nonzero

end Pages

end GoDatabase
