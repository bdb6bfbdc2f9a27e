import GoDatabase.Store.KV
import GoDatabase.Store.LoaderSpec

/-!
# The pages that an update keeps

After a commit only the pages of the new tree stay in memory.
-/

namespace GoDatabase

open Library BNode List

variable {pages : PageMap}

/-- The pages of a tree are added to those reached before. -/
theorem reachableLoop_gains : ∀ {h rounds : Nat} {tree : Item Nat (h + 1)} {reachable : PageMap},
    tree.Stored pages → tree.labels.Nodup → (∀ pageID ∈ tree.labels, pageID ≠ 0) → h < rounds →
    (∀ pageID ∈ tree.labels, pageID ∉ reachable) →
    Gains [tree] reachable (reachableLoop pages rounds tree.label reachable)
  | 0, rounds + 1, tree, reachable, stored, _, positive, _, absent => by
    have own : tree.label ∈ tree.labels := mem_cons_self ..
    have page := stored.page_valid
    have isLeaf : btype (pages.page tree.label) ≠ nodeTypeInternal := by
      rw [page.holds.type_eq]
      exact show nodeTypeLeaf ≠ nodeTypeInternal by decide
    rw [reachableLoop, if_neg (positive _ own)]
    dsimp only
    rw [if_neg isLeaf]
    exact .leaf (absent _ own) page
  | h + 1, rounds + 1, tree, reachable, stored, nodup, positive, deep, absent => by
    have own : tree.label ∈ tree.labels := mem_cons_self ..
    have page := stored.page_valid
    have isInternal : btype (pages.page tree.label) = nodeTypeInternal := page.holds.type_eq
    have size : nkeys (pages.page tree.label) = tree.items.length := by
      rw [page.holds.count_eq, length_map]
    rw [reachableLoop, if_neg (positive _ own)]
    dsimp only
    rw [if_pos isInternal]
    refine Gains.node (absent _ own) page ?_
    have loop := @foldl_range_keeps PageMap
      (fun reachable idx => reachableLoop pages rounds (getPtr (pages.page tree.label) idx)
        reachable)
      (fun idx state => Gains (tree.items.take idx)
        (reachable.insert tree.label (pages.page tree.label)) state)
      (nkeys (pages.page tree.label)) _ (.nil _) ?_
    · rwa [size, take_length, ← size] at loop
    intro idx state inside gains
    rw [size] at inside
    have mem := getElem_mem inside
    have pointer : getPtr (pages.page tree.label) idx = tree.items[idx].label := by
      rw [page.holds.ptr_eq (by simpa using inside), getElem_map]
      rfl
    have isBelow : ∀ pageID ∈ tree.items[idx].labels, pageID ∈ tree.labels :=
      fun pageID isLabel =>
      mem_cons_of_mem _ (mem_flatMap.mpr ⟨_, mem, isLabel⟩)
    have nodupBelow := nodup
    rw [Item.labels_succ, nodup_cons, nodup_flatMap] at nodupBelow
    rw [take_succ_eq_append_getElem inside]
    rw [pointer]
    exact gains.concat (reachableLoop_gains (stored.items _ mem) (nodupBelow.2.1 _ mem)
      (fun pageID isLabel => positive pageID (isBelow pageID isLabel))
      (Nat.lt_of_succ_lt_succ deep)
      (gains.absent_child nodup absent inside))

/-- Exactly the pages of the tree are reached. -/
theorem reachablePageMap_spec {root : Root} (stored : root.Stored pages) (nodup : root.labels.Nodup)
    (positive : ∀ pageID ∈ root.labels, pageID ≠ 0) :
    root.Stored (reachablePageMap pages root.pageID) ∧
      (reachablePageMap pages root.pageID).keys.Perm root.labels := by
  cases root with
  | empty =>
    have none : reachablePageMap pages (Root.pageID .empty) = ∅ := by
      rw [reachablePageMap, PageMap.descents, reachableLoop,
        if_pos (show Root.pageID .empty = 0 from rfl)]
    rw [none]
    exact ⟨trivial, .refl _⟩
  | tree held =>
    have gains := reachableLoop_gains stored.pages nodup positive
      (held.height_lt_descents stored.pages nodup) fun pageID _ => AList.notMem_empty pageID
    refine ⟨⟨gains.stored _ (mem_singleton_self _), stored.2⟩, ?_⟩
    have keys := gains.keys
    rw [AList.keys_empty, append_nil] at keys
    exact keys.trans (.of_eq (append_nil _))

end GoDatabase
