import GoDatabase.Tree.Root

/-!
# Reading a stored tree

A point lookup finds exactly the binding of its key, and a range scan delivers
exactly the bindings between its bounds, in order.
-/

namespace GoDatabase

open Library BNode SortedMap List Item

variable {pages : PageMap}

theorem PageMap.page_of_lookup {pageID : Nat} {page : BNode}
    (found : pages.lookup pageID = some page) : pages.page pageID = page := by
  rw [PageMap.page, found, Option.getD_some]

/-! ## Point lookup -/

section Lookup

variable {key : Bytes}

/-- The descent finds the binding of the key below the node. -/
theorem getValueLoop_spec : ∀ {h : Nat} {items : List (Item Nat h)} {node : BNode} {descents : Nat},
    h < descents → ValidPage node (nodeType h) (items.map record) →
    (∀ item ∈ items, item.Stored pages) → Descends items key →
    getValueLoop pages key descents node = .ok (lookup (entriesOf items) key)
  | 0, items, node, descents + 1, enough, valid, _, descends => by
    obtain ⟨before, item, after, around⟩ := descends.around
    have holds := valid.holds
    rw [around.shape, map_append, map_cons] at holds
    have here : recordAt node before.length = item.record := by
      rw [recordAt, holds.record_eq _ (by simp)]
      simp
    have keyHere : getKey node before.length = item.entry.key := congrArg Record.key here
    have valueHere : getVal node before.length = item.entry.value := congrArg Record.value here
    rw [getValueLoop, validatePage_ok valid.valid, ok_bind, nodeLookupLE_eq valid.holds around,
      ok_bind, if_pos (show btype node = nodeTypeLeaf from valid.holds.type_eq), keyHere, valueHere,
      around.lookup_eq descends, entries_zero, SortedMap.lookup_cons]
    by_cases same : item.entry.key = key
    · rw [if_neg (not_not.mpr same), if_pos same]
      rfl
    · rw [if_pos same, if_neg same]
      rfl
  | h + 1, items, node, descents + 1, enough, valid, stored, descends => by
    obtain ⟨before, child, after, around⟩ := descends.around
    obtain ⟨page, found, -, childValid, childStored⟩ := around.child_page valid stored
    rw [getValueLoop, validatePage_ok valid.valid, ok_bind, nodeLookupLE_eq valid.holds around,
      ok_bind, if_neg (ValidPage.not_leaf valid), PageMap.page_of_lookup found,
      getValueLoop_spec (Nat.lt_of_succ_lt_succ enough) childValid childStored
        (descends.child around), around.lookup_eq descends]
    rfl

/-- A point lookup returns the binding of the key. -/
theorem getValue_spec {root : Root} (stored : root.Stored pages) (nodup : root.labels.Nodup)
    (nonempty : key ≠ []) :
    getValue pages root.pageID key = .ok (lookup root.bindings key) := by
  rw [getValue, if_neg (mt length_eq_zero_iff.mp nonempty)]
  cases root with
  | empty => rfl
  | tree held =>
    obtain ⟨page, found, valid⟩ := stored.pages.page
    rw [if_neg (show Root.pageID (.tree held) ≠ 0 from stored.nonzero),
      PageMap.page_of_lookup (show pages.lookup (Root.pageID (.tree held)) = some page from found),
      getValueLoop_spec (held.height_lt_descents stored.pages nodup) valid stored.pages.items
        (held.descends key)]
    exact congrArg Except.ok (held.lookup_entries nonempty)

end Lookup

/-! ## Range scan -/

section Range

variable {start stop : Bytes}

/-- The entries of a scan. -/
def inRange (start stop : Bytes) (entry : Entry) : Bool :=
  entry.key ≠ [] ∧ start ≤ entry.key ∧ entry.key ≤ stop

/-- The path of a cursor stands for the entries after the current leaf.  The count
bounds the number of leaves that hold them. -/
inductive Ahead (pages : PageMap) : (h : Nat) → List CursorFrame → List Entry → Nat → Prop
  | nil {h : Nat} : Ahead pages h [] [] 0
  | cons {h : Nat} {frame : CursorFrame} {path : List CursorFrame} {rest : List Entry} {count : Nat}
      {before after : List (Item Nat (h + 1))} {child : Item Nat (h + 1)}
      (deep : h < pages.descents)
      (valid : ValidPage frame.node nodeTypeInternal ((before ++ child :: after).map Item.record))
      (index : frame.childIdx = before.length) (stored : ∀ item ∈ after, item.Stored pages)
      (fit : ∀ item ∈ after, item.Fit) (path_ahead : Ahead pages (h + 1) path rest count) :
      Ahead pages h (frame :: path) (entriesOf after ++ rest) ((labelsOf after).length + count)

/-- A leaf that a cursor has reached, and what lies ahead of it. -/
structure AtLeaf (pages : PageMap) (leaf : BNode) (items : List (Item Nat 0))
    (path : List CursorFrame) (rest : List Entry) (count : Nat) : Prop where
  valid : ValidPage leaf nodeTypeLeaf (items.map Item.record)
  ahead : Ahead pages 0 path rest count

/-- The descent along first children reaches the first leaf below a node. -/
theorem descendFirst_spec : ∀ {h : Nat} {items : List (Item Nat h)} {node : BNode}
    {descents count : Nat} {path : List CursorFrame} {rest : List Entry}, h < descents →
    h < pages.descents → ValidPage node (nodeType h) (items.map record) →
    (∀ item ∈ items, item.Stored pages) → (∀ item ∈ items, item.Fit) → items ≠ [] →
    Ahead pages h path rest count → ∃ leaf leafItems leafPath leafRest leafCount,
      descendFirst pages descents node path = .ok (leaf, leafPath) ∧
      AtLeaf pages leaf leafItems leafPath leafRest leafCount ∧
      entriesOf leafItems ++ leafRest = entriesOf items ++ rest ∧
      leafCount ≤ (labelsOf items).length + count
  | 0, items, node, descents + 1, count, path, rest, enough, _, valid, _, _, _, ahead => by
    refine ⟨node, items, path, rest, count, ?_, ⟨valid, ahead⟩, rfl, Nat.le_add_left ..⟩
    rw [descendFirst, validatePage_ok valid.valid, ok_bind,
      if_pos (show btype node = nodeTypeLeaf from valid.holds.type_eq)]
    rfl
  | h + 1, items, node, descents + 1, count, path, rest, enough, deep, valid, stored, fit, nonempty,
      ahead => by
      cases items with
      | nil => exact absurd rfl nonempty
      | cons child after =>
        have isChild : child ∈ child :: after := mem_cons_self ..
        obtain ⟨page, found, childValid⟩ := (stored child isChild).page
        have pointer : getPtr node 0 = child.label := by
          rw [valid.holds.ptr_eq (by simp)]
          rfl
        have further : Ahead pages h (⟨node, 0⟩ :: path) (entriesOf after ++ rest)
            ((labelsOf after).length + count) :=
          @Ahead.cons _ _ ⟨node, 0⟩ _ _ _ [] after child (by omega) valid rfl
            (fun item mem => stored item (mem_cons_of_mem _ mem))
            (fun item mem => fit item (mem_cons_of_mem _ mem)) ahead
        obtain ⟨leaf, leafItems, leafPath, leafRest, leafCount, run, reached, entries, fewer⟩ :=
          descendFirst_spec (Nat.lt_of_succ_lt_succ enough) (by omega) childValid
            (stored child isChild).items (fit child isChild).items (fit child isChild).nonempty
            further
        refine ⟨leaf, leafItems, leafPath, leafRest, leafCount, ?_, reached, ?_, ?_⟩
        · rw [descendFirst, validatePage_ok valid.valid, ok_bind,
            if_neg (ValidPage.not_leaf valid), pointer, PageMap.page_of_lookup found]
          exact run
        · rw [entries, entriesOf_cons, append_assoc]
          rfl
        · rw [labelsOf_cons, labels_succ, flatMap_labels, length_append, length_cons]
          omega

/-- The cursor moves to the next leaf, or everything has been delivered. -/
theorem nextLeaf_spec : ∀ {path : List CursorFrame} {h count : Nat} {rest : List Entry},
    Ahead pages h path rest count → (nextLeaf pages path = .ok none ∧ rest = []) ∨
    (∃ leaf leafItems leafPath leafRest leafCount,
      nextLeaf pages path = .ok (some (leaf, leafPath)) ∧
      AtLeaf pages leaf leafItems leafPath leafRest leafCount ∧
      entriesOf leafItems ++ leafRest = rest ∧ leafCount < count) := by
  intro path
  induction path with
  | nil =>
    intro h count rest ahead
    cases ahead
    exact .inl ⟨rfl, rfl⟩
  | cons frame path ih =>
    intro h count rest ahead
    cases ahead with
    | @cons _ _ _ rest count before after child deep valid index stored fit path_ahead =>
      have total : nkeys frame.node = before.length + (after.length + 1) := by
        rw [valid.holds.count_eq, length_map, length_append, length_cons]
      cases after with
      | nil =>
        rw [nextLeaf, if_pos (by rw [total, index]; simp)]
        simpa [labelsOf] using ih path_ahead
      | cons next after =>
        right
        have isNext : next ∈ next :: after := mem_cons_self ..
        obtain ⟨page, found, nextValid⟩ := (stored next isNext).page
        have pointer : getPtr frame.node (frame.childIdx + 1) = next.label := by
          rw [index, valid.holds.ptr_eq (by simp)]
          simp [record]
        have shape : before ++ child :: next :: after = (before ++ [child]) ++ next :: after := by
          simp
        have further : Ahead pages h (⟨frame.node, frame.childIdx + 1⟩ :: path)
            (entriesOf after ++ rest) ((labelsOf after).length + count) :=
          @Ahead.cons _ _ ⟨frame.node, frame.childIdx + 1⟩ _ _ _ (before ++ [child]) after next
            deep (shape ▸ valid) (by simp [index])
            (fun item mem => stored item (mem_cons_of_mem _ mem))
            (fun item mem => fit item (mem_cons_of_mem _ mem)) path_ahead
        obtain ⟨leaf, leafItems, leafPath, leafRest, leafCount, run, reached, entries, fewer⟩ :=
          descendFirst_spec deep deep nextValid (stored next isNext).items
            (fit next isNext).items (fit next isNext).nonempty further
        refine ⟨leaf, leafItems, leafPath, leafRest, leafCount, ?_, reached, ?_, ?_⟩
        · rw [nextLeaf, if_neg (by rw [total, index, length_cons]; omega)]
          simp only [pointer, PageMap.page_of_lookup found, run, ok_bind]
          rfl
        · rw [entries, entriesOf_cons, append_assoc]
          rfl
        · rw [labelsOf_cons, labels_succ, flatMap_labels, length_append, length_cons]
          omega

/-- Entries beyond the end of the range are not delivered. -/
theorem filter_above {entries : List Entry} (above : ∀ entry ∈ entries, stop < entry.key) :
    entries.filter (inRange start stop) = [] := by
  apply filter_eq_nil_iff.mpr
  intro entry mem
  simp only [inRange, decide_eq_true_eq, not_and, not_le]
  exact fun _ _ => above entry mem

/-- Entries before the start of the range are not delivered. -/
theorem filter_below {entries : List Entry} (below : ∀ entry ∈ entries, entry.key < start) :
    entries.filter (inRange start stop) = [] := by
  apply filter_eq_nil_iff.mpr
  intro entry mem
  simp only [inRange, decide_eq_true_eq, not_and]
  exact fun _ low => absurd low (not_le.mpr (below entry mem))

/-- The scan of a leaf delivers its entries in the range; if it stops early, nothing
else of the tree is in the range. -/
theorem scanLeaf_spec {leaf : BNode} {items : List (Item Nat 0)}
    (holds : Holds leaf nodeTypeLeaf (items.map record)) (rest : List Entry) :
    ∀ (todo done : List (Item Nat 0)) (entries : List Entry), items = done ++ todo →
      Sorted (entriesOf todo ++ rest) →
      ∃ taken finished, scanLeaf leaf start stop todo.length done.length entries =
          (entries ++ taken, finished) ∧
        taken = (if finished then (entriesOf todo ++ rest).filter (inRange start stop)
          else (entriesOf todo).filter (inRange start stop)) := by
  intro todo
  induction todo with
  | nil =>
    intro done entries _ _
    exact ⟨[], false, by rw [length_nil, scanLeaf, append_nil], by simp⟩
  | cons item todo ih =>
    intro done entries shape sorted
    have here : recordAt leaf done.length = item.record := by
      rw [recordAt, holds.record_eq _ (by simp [shape])]
      simp [shape]
    have keyHere : getKey leaf done.length = item.entry.key := congrArg Record.key here
    have valueHere : getVal leaf done.length = item.entry.value := congrArg Record.value here
    rw [entriesOf_cons, entries_zero, append_assoc, singleton_append] at sorted
    obtain ⟨least, sortedRest⟩ := pairwise_cons.mp sorted
    have next := ih (done ++ [item])
    rw [length_append, length_singleton] at next
    have further : items = (done ++ [item]) ++ todo := by simp [shape]
    have all : ∀ others, (entriesOf (item :: todo) ++ others).filter (inRange start stop) =
        (if inRange start stop item.entry then [item.entry] else []) ++
          (entriesOf todo ++ others).filter (inRange start stop) := by
      intro others
      rw [entriesOf_cons, entries_zero, append_assoc, singleton_append,
        filter_cons]
      split <;> rfl
    have own := all []
    rw [append_nil, append_nil] at own
    rw [all rest, own, length_cons, scanLeaf]
    simp only [keyHere, valueHere, length_eq_zero_iff]
    by_cases early : item.entry.key = [] ∨ item.entry.key < start
    · have outside : ¬ inRange start stop item.entry := by
        simp only [inRange, decide_eq_true_eq, not_and]
        intro nonempty low
        exact absurd low (not_le.mpr (early.resolve_left nonempty))
      rw [if_pos early, if_neg outside, nil_append, nil_append]
      exact next entries further sortedRest
    · rw [if_neg early]
      rw [not_or, not_lt] at early
      by_cases late : stop < item.entry.key
      · have outside : ¬ inRange start stop item.entry := by
          simp only [inRange, decide_eq_true_eq, not_and, not_le]
          exact fun _ _ => late
        have beyond := @filter_above start stop _
          fun entry mem => late.trans (least entry mem)
        refine ⟨[], true, by rw [if_pos late, append_nil], ?_⟩
        rw [if_pos rfl, if_neg outside, beyond]
        rfl
      · have inside : inRange start stop item.entry := by
          simp only [inRange, decide_eq_true_eq]
          exact ⟨early.1, early.2, not_lt.mp late⟩
        obtain ⟨taken, finished, run, delivered⟩ :=
          next (entries ++ [⟨item.entry.key, item.entry.value⟩]) further sortedRest
        refine ⟨item.entry :: taken, finished, ?_, ?_⟩
        · rw [if_neg late, run, append_assoc]
          rfl
        · rw [delivered, if_pos inside]
          split <;> rfl

/-- The scan from a leaf on delivers all entries ahead that are in the range. -/
theorem rangeLoop_spec : ∀ {leaves count : Nat} {leaf : BNode} {done todo : List (Item Nat 0)}
    {path : List CursorFrame} {rest : List Entry} (entries : List Entry), count < leaves →
    AtLeaf pages leaf (done ++ todo) path rest count → Sorted (entriesOf todo ++ rest) →
    rangeLoop pages start stop leaves leaf done.length path entries =
      .ok (entries ++ (entriesOf todo ++ rest).filter (inRange start stop)) := by
  intro leaves
  induction leaves with
  | zero =>
    intro count leaf done todo path rest entries enough
    exact absurd enough (Nat.not_lt_zero _)
  | succ leaves ih =>
    intro count leaf done todo path rest entries enough reached sorted
    have total : nkeys leaf - done.length = todo.length := by
      rw [reached.valid.holds.count_eq, length_map, length_append]
      omega
    obtain ⟨taken, finished, run, delivered⟩ :=
      scanLeaf_spec reached.valid.holds rest todo done entries rfl sorted
    rw [rangeLoop, total, run]
    cases finished with
    | true =>
      rw [delivered, if_pos rfl]
      rfl
    | false =>
      rw [if_neg Bool.false_ne_true] at delivered
      simp only [Bool.false_eq_true, if_false]
      rcases nextLeaf_spec reached.ahead with
        ⟨ended, rfl⟩ | ⟨next, nextItems, nextPath, nextRest, nextCount, step, at_next, ahead, fewer⟩
      · rw [ended, ok_bind, delivered, append_nil]
        rfl
      rw [step, ok_bind]
      have sortedNext : Sorted (entriesOf nextItems ++ nextRest) := by
        rw [ahead]
        exact (sorted_append.mp sorted).2.1
      have last := @ih nextCount next [] nextItems nextPath nextRest (entries ++ taken)
        (by omega) at_next sortedNext
      rw [length_nil] at last
      simp only [last]
      rw [ahead, delivered, append_assoc, filter_append]

/-- The position in a leaf at which a scan begins. -/
theorem search_start {leaf : BNode} {items : List (Item Nat 0)}
    (valid : ValidPage leaf nodeTypeLeaf (items.map record)) :
    ∃ done todo, items = done ++ todo ∧
      search (nkeys leaf) (fun i => start ≤ getKey leaf i) = done.length ∧
      ∀ item ∈ done, item.entry.key < start := by
  have count : nkeys leaf = items.length := by rw [valid.holds.count_eq, length_map]
  have keyAt : ∀ idx (inside : idx < items.length), getKey leaf idx = items[idx].entry.key := by
    intro idx inside
    rw [valid.holds.key_eq (by simpa using inside), getElem_map]
    rfl
  have ascending : Ascending (nkeys leaf) (fun i => decide (start ≤ getKey leaf i)) := by
    intro left right ordered inside accepted
    rw [count] at inside
    simp only [decide_eq_true_eq] at accepted ⊢
    rcases Nat.lt_or_eq_of_le ordered with before | rfl
    · have keys := pairwise_iff_getElem.mp valid.ascend left right (by simp; omega)
        (by simpa using inside) before
      rw [keyAt left (by omega)] at accepted
      rw [keyAt right inside]
      simp only [getElem_map] at keys
      exact accepted.trans (le_of_lt keys)
    · exact accepted
  obtain ⟨bound, below, -⟩ := search_spec ascending
  obtain ⟨point, point_eq⟩ : ∃ point,
      point = search (nkeys leaf) (fun i => decide (start ≤ getKey leaf i)) := ⟨_, rfl⟩
  rw [← point_eq, count] at bound
  rw [← point_eq] at below
  refine ⟨items.take point, items.drop point, (take_append_drop ..).symm, ?_, ?_⟩
  · rw [← point_eq, length_take]
    omega
  · intro item mem
    obtain ⟨idx, inside, rfl⟩ := getElem_of_mem mem
    rw [length_take] at inside
    have early := below idx (by omega)
    rw [keyAt idx (by omega), decide_eq_false_iff_not, not_le] at early
    rwa [getElem_take]

/-- The descent to the start of a range passes only entries before it. -/
theorem seekLoop_spec : ∀ {h : Nat} {items : List (Item Nat h)} {node : BNode}
    {descents count : Nat} {path : List CursorFrame} {rest : List Entry}, h < descents →
    h < pages.descents → ValidPage node (nodeType h) (items.map record) →
    (∀ item ∈ items, item.Stored pages) → Descends items start → Ahead pages h path rest count →
    ∃ leaf done todo leafPath leafRest leafCount passed,
      seekLoop pages start descents node path = .ok (leaf, done.length, leafPath) ∧
      AtLeaf pages leaf (done ++ todo) leafPath leafRest leafCount ∧
      entriesOf items ++ rest = passed ++ (entriesOf todo ++ leafRest) ∧
      (∀ entry ∈ passed, entry.key < start) ∧ leafCount ≤ (labelsOf items).length + count
  | 0, items, node, descents + 1, count, path, rest, enough, _, valid, _, _, ahead => by
    obtain ⟨done, todo, rfl, point, early⟩ := @search_start start _ _ valid
    refine ⟨node, done, todo, path, rest, count, entriesOf done, ?_, ⟨valid, ahead⟩, ?_, ?_,
      Nat.le_add_left ..⟩
    · rw [seekLoop, validatePage_ok valid.valid, ok_bind,
        if_pos (show btype node = nodeTypeLeaf from valid.holds.type_eq), point]
      rfl
    · rw [entriesOf_append, append_assoc]
    · intro entry mem
      rw [entriesOf_zero] at mem
      obtain ⟨item, isItem, rfl⟩ := mem_map.mp mem
      exact early item isItem
  | h + 1, items, node, descents + 1, count, path, rest, enough, deep, valid, stored, descends,
      ahead => by
      obtain ⟨before, child, after, around⟩ := descends.around
      obtain ⟨page, found, -, childValid, childStored⟩ := around.child_page valid stored
      have further : Ahead pages h (⟨node, before.length⟩ :: path) (entriesOf after ++ rest)
          ((labelsOf after).length + count) :=
        @Ahead.cons _ _ ⟨node, before.length⟩ _ _ _ before after child (by omega)
          (around.shape ▸ valid) rfl (fun item mem => stored item (by simp [around.shape, mem]))
          (fun item mem => descends.fit item (by simp [around.shape, mem])) ahead
      obtain ⟨leaf, done, todo, leafPath, leafRest, leafCount, passed, run, reached, entries, early,
          fewer⟩ :=
        seekLoop_spec (Nat.lt_of_succ_lt_succ enough) (by omega) childValid childStored
          (descends.child around) further
      refine ⟨leaf, done, todo, leafPath, leafRest, leafCount, entriesOf before ++ passed,
        ?_, reached, ?_, ?_, ?_⟩
      · rw [seekLoop, validatePage_ok valid.valid, ok_bind,
          if_neg (ValidPage.not_leaf valid), nodeLookupLE_eq valid.holds around, ok_bind,
            PageMap.page_of_lookup found]
        exact run
      · rw [around.entries_eq, append_assoc, append_assoc, append_assoc, ← entries]
        rfl
      · intro entry mem
        exact (mem_append.mp mem).elim
          (around.entries_before descends entry) (early entry)
      · rw [around.shape, labelsOf_append, labelsOf_cons, labels_succ, flatMap_labels,
          length_append, length_append, length_cons]
        omega

/-- A range scan returns exactly the bindings between its bounds. -/
theorem rangeValues_spec {root : Root} (stored : root.Stored pages) (nodup : root.labels.Nodup)
    (startLe : start.length ≤ maxKeySize) (stopLe : stop.length ≤ maxKeySize) :
    rangeValues pages root.pageID start stop =
      .ok (root.bindings.filter fun entry => start ≤ entry.key ∧ entry.key ≤ stop) := by
  rw [rangeValues, if_neg (Nat.not_lt.mpr startLe), if_neg (Nat.not_lt.mpr stopLe)]
  by_cases reversed : stop < start
  · rw [if_pos (.inl reversed)]
    congr 1
    symm
    apply filter_eq_nil_iff.mpr
    intro entry _
    simp only [decide_eq_true_eq, not_and, not_le]
    exact fun low => lt_of_lt_of_le reversed low
  · cases root with
    | empty =>
      rw [if_pos (.inr rfl)]
      rfl
    | tree held =>
      obtain ⟨page, found, valid⟩ := stored.pages.page
      have deep := held.height_lt_descents stored.pages nodup
      obtain ⟨leaf, done, todo, leafPath, leafRest, leafCount, passed, run, reached, entries, early,
          fewer⟩ := seekLoop_spec deep deep valid stored.pages.items (held.descends start) .nil
      have all : held.top.entries = passed ++ (entriesOf todo ++ leafRest) := by
        rw [← entries, append_nil]
        rfl
      have sorted := held.sorted
      rw [all] at sorted
      have labels := length_labels_le nodup stored.mem_pages
      rw [show Root.labels (.tree held) = held.top.label :: labelsOf held.top.items from rfl,
        length_cons] at labels
      have scanned := @rangeLoop_spec pages start stop pages.descents leafCount leaf done todo
        leafPath leafRest [] (by rw [PageMap.descents]; omega) reached (sorted_append.mp sorted).2.1
      rw [if_neg (by simp [reversed, show Root.pageID (.tree held) ≠ 0 from stored.nonzero]),
        seekRangeStart,
        PageMap.page_of_lookup (show pages.lookup (Root.pageID (.tree held)) =
          some page from found),
        run, ok_bind]
      simp only [scanned, nil_append]
      congr 1
      have delivered : (entriesOf todo ++ leafRest).filter (inRange start stop) =
          held.top.entries.filter (inRange start stop) := by
        rw [all, filter_append passed, filter_below early, nil_append]
      rw [delivered, held.entries_eq, filter_cons_of_neg (by simp [inRange])]
      apply filter_congr
      intro entry mem
      simp [inRange, held.key_ne_nil mem]

end Range

end GoDatabase
