import GoDatabase.Memory.Invariant

/-!
# Insertion keeps the invariant

An insertion turns a subtree into one or two subtrees between the same bounds.  It binds
the key in the list of entries, and it puts at most one new leaf into the chain, right
behind the leaf that was split.
-/

namespace GoDatabase.Memory

open Library List SortedMap Option

/-! ## Searching a node -/

variable {keys : List Bytes}

theorem childIndex_cut (ascending : keys.Pairwise (· < ·)) (key : Bytes) :
    ∃ left right, keys = left ++ right ∧ (∀ separator ∈ left, separator ≤ key) ∧
      (∀ separator ∈ right, key < separator) ∧ childIndex keys key = left.length := by
  obtain ⟨left, right, whole, below, above, found⟩ :=
    exists_cut (fun separator => decide (key < separator)) []
      (ascending.imp fun less above => decide_eq_true ((of_decide_eq_true above).trans less))
  refine ⟨left, right, whole, fun separator mem => ?_, fun separator mem => ?_, found⟩
  · exact not_lt.mp (of_decide_eq_false (below separator mem))
  · exact of_decide_eq_true (above separator mem)

/-- The search ends at the key, or between the keys below it and the keys above it. -/
theorem search_cut (ascending : keys.Pairwise (· < ·)) (key : Bytes) :
    ∃ left right, keys = left ++ right ∧ (∀ held ∈ left, held < key) ∧
      ((search keys key = (left.length, true) ∧ ∃ rest, right = key :: rest) ∨
        (search keys key = (left.length, false) ∧ ∀ held ∈ right, key < held)) := by
  obtain ⟨left, right, whole, below, above, found⟩ :=
    exists_cut (fun held => decide (key ≤ held)) []
      (ascending.imp fun less above => decide_eq_true ((of_decide_eq_true above).trans less.le))
  have found : Library.search keys.length (fun idx => decide (key ≤ keys.getD idx [])) =
      left.length := found
  have here : keys[left.length]? = right.head? := by
    rw [whole, List.getElem?_append_right (Nat.le_refl _), Nat.sub_self, List.head?_eq_getElem?]
  refine ⟨left, right, whole, fun held mem => ?_, ?_⟩
  · exact not_le.mp (of_decide_eq_false (below held mem))
  rw [search, found, here]
  cases right with
  | nil => exact .inr ⟨rfl, nofun⟩
  | cons first rest =>
    rw [List.head?_cons]
    by_cases same : first = key
    · exact .inl ⟨by simp [same], rest, by rw [same]⟩
    have first_above : key < first :=
      lt_of_le_of_ne (of_decide_eq_true (above first (mem_cons_self ..))) (Ne.symm same)
    rw [whole] at ascending
    have ordered := (pairwise_cons.mp (pairwise_append.mp ascending).2.1).1
    refine .inr ⟨by simp [same], ?_⟩
    exact forall_mem_cons.mpr ⟨first_above, fun held mem =>
      first_above.trans (ordered held mem)⟩

theorem insertChild_append (maxKeys fresh : Nat) (key value : Bytes) (before after : List Node)
    (child : Node) : insertChild maxKeys fresh key value before.length (before ++ child :: after) =
      child.insert maxKeys fresh key value := by
  induction before with
  | nil => rw [length_nil, nil_append, insertChild]
  | cons first before ih => rw [length_cons, cons_append, insertChild, ih]

/-! ## Leaves -/

variable {left right values : List Bytes}

theorem head_le {key : Bytes} (ascending : (key :: right).Pairwise (· < ·)) :
    ∀ held ∈ key :: right, key ≤ held := by
  intro held mem
  rcases mem_cons.mp mem with rfl | later
  · exact le_refl _
  · exact ((pairwise_cons.mp ascending).1 held later).le

/-- The values of a leaf, cut where its keys are cut. -/
theorem values_cut (sizes : values.length = (left ++ right).length) :
    ∃ leftValues rightValues, values = leftValues ++ rightValues ∧
      leftValues.length = left.length ∧ rightValues.length = right.length := by
  rw [length_append] at sizes
  refine ⟨values.take left.length, values.drop left.length, (take_append_drop ..).symm, ?_, ?_⟩
  · rw [length_take]
    omega
  · rw [length_drop]
    omega

theorem zip_append {leftValues rightValues : List Bytes} (sizes : leftValues.length = left.length) :
    List.zipWith Binding.mk (left ++ right) (leftValues ++ rightValues) =
      List.zipWith Binding.mk left leftValues ++ List.zipWith Binding.mk right rightValues :=
  zipWith_append sizes.symm

theorem key_mem_of_mem_zip {entry : Binding Bytes Bytes}
    (mem : entry ∈ List.zipWith Binding.mk keys values) : entry.key ∈ keys := by
  obtain ⟨idx, inside, rfl⟩ := getElem_of_mem mem
  rw [getElem_zipWith]
  exact getElem_mem _

theorem insertIntoLeaf_spec (ascending : keys.Pairwise (· < ·))
    (sizes : values.length = keys.length) (key value : Bytes) :
    ∃ newKeys newValues, insertIntoLeaf keys values key value = some (newKeys, newValues) ∧
      newKeys.Pairwise (· < ·) ∧ newValues.length = newKeys.length ∧
      (∀ held ∈ newKeys, held = key ∨ held ∈ keys) ∧
      keys.length ≤ newKeys.length ∧ newKeys.length ≤ keys.length + 1 ∧
      List.zipWith Binding.mk newKeys newValues =
        put key value (List.zipWith Binding.mk keys values) := by
  obtain ⟨left, right, rfl, below, cut⟩ := search_cut ascending key
  obtain ⟨leftValues, rightValues, rfl, leftSize, rightSize⟩ := values_cut sizes
  have before : ∀ entry ∈ List.zipWith Binding.mk left leftValues, entry.key < key :=
    fun entry mem => below _ (key_mem_of_mem_zip mem)
  rw [insertIntoLeaf, zip_append leftSize, put_append_of_lt before]
  rcases cut with ⟨found, rest, rfl⟩ | ⟨found, strictly⟩
  · -- the key is at the cut: only its value changes
    obtain ⟨old, oldRest, rfl⟩ : ∃ old oldRest, rightValues = old :: oldRest :=
      exists_cons_of_length_eq_add_one rightSize
    rw [found, ← leftSize]
    dsimp only
    rw [if_pos rfl, setAt_append]
    refine ⟨left ++ key :: rest, leftValues ++ value :: oldRest, rfl, ascending, ?_,
      fun _ => .inr, Nat.le_refl _, Nat.le_succ _, ?_⟩
    · simpa using sizes
    · rw [zip_append leftSize, zipWith_cons_cons, zipWith_cons_cons, put,
        if_neg (lt_irrefl key), if_pos rfl]
  · rw [found]
    dsimp only
    rw [if_neg Bool.false_ne_true, insertAt_append, ← leftSize]
    dsimp only [bind_eq_bind, bind_some]
    rw [insertAt_append]
    refine ⟨left ++ key :: right, leftValues ++ value :: rightValues, rfl, ?_, ?_, ?_, ?_, ?_, ?_⟩
    · obtain ⟨leftAscending, rightAscending, across⟩ := pairwise_append.mp ascending
      refine pairwise_append.mpr ⟨leftAscending,
        pairwise_cons.mpr ⟨strictly, rightAscending⟩, ?_⟩
      intro low isLow high isHigh
      rcases mem_cons.mp isHigh with rfl | later
      · exact below low isLow
      · exact across low isLow high later
    · simp only [length_append, length_cons] at sizes ⊢
      omega
    · intro held mem
      rcases mem_append.mp mem with inLeft | inRight
      · exact .inr (mem_append_left _ inLeft)
      · exact (mem_cons.mp inRight).imp_right (mem_append_right _)
    · simp only [length_append, length_cons]
      omega
    · simp only [length_append, length_cons]
      omega
    · rw [zip_append leftSize, zipWith_cons_cons]
      cases right with
      | nil => rw [zipWith_nil_left, put]
      | cons first rest =>
        obtain ⟨old, oldRest, rfl⟩ : ∃ old oldRest, rightValues = old :: oldRest :=
          exists_cons_of_length_eq_add_one rightSize
        rw [zipWith_cons_cons, put, if_pos (strictly first (mem_cons_self ..))]

/-! ## The chain -/

/-- At most one leaf is split: its new right half is put behind it. -/
def LinkSplit (fresh : Nat) (before after : List Link) : Prop :=
  after = before ∨ ∃ front id next back, before = front ++ (id, next) :: back ∧
    after = front ++ (id, some fresh) :: (fresh, next) :: back

theorem LinkSplit.context {fresh : Nat} {before after : List Link}
    (split : LinkSplit fresh before after) (left right : List Link) :
    LinkSplit fresh (left ++ (before ++ right)) (left ++ (after ++ right)) := by
  rcases split with rfl | ⟨front, id, next, back, rfl, rfl⟩
  · exact .inl rfl
  · exact .inr ⟨left ++ front, id, next, back ++ right, by simp, by simp⟩

/-! ## Splitting a node that is too large -/

theorem splitLeaf_spec {maxKeys id fresh : Nat} {keys values : List Bytes} {next : Option Nat}
    {lower upper : Option Bytes} (two : 2 ≤ maxKeys) (full : keys.length = maxKeys + 1)
    (ascending : keys.Pairwise (· < ·)) (sizes : values.length = keys.length)
    (inside : ∀ key ∈ keys, Above lower key ∧ Below upper key) :
    ∃ split, splitLeaf id keys values next fresh = some split ∧
      Ok maxKeys 0 (maxKeys / 2) lower (some split.key) split.left ∧
      Ok maxKeys 0 (maxKeys / 2) (some split.key) upper split.right ∧
      split.left.entries ++ split.right.entries = List.zipWith Binding.mk keys values ∧
      split.left.links ++ split.right.links = [(id, some fresh), (fresh, next)] := by
  obtain ⟨left, right, rfl, leftSize⟩ : ∃ left right, keys = left ++ right ∧
      left.length = keys.length / 2 :=
    ⟨keys.take (keys.length / 2), keys.drop (keys.length / 2), (take_append_drop ..).symm, by
      rw [length_take]
      omega⟩
  obtain ⟨leftValues, rightValues, rfl, leftValuesSize, rightValuesSize⟩ := values_cut sizes
  have total : left.length + right.length = maxKeys + 1 := by rw [← length_append, full]
  obtain ⟨key, rest, rfl⟩ : ∃ key rest, right = key :: rest := by
    cases right with
    | nil =>
      rw [length_nil] at total
      omega
    | cons key rest => exact ⟨key, rest, rfl⟩
  obtain ⟨leftAscending, rightAscending, across⟩ := pairwise_append.mp ascending
  have isKey : Above lower key ∧ Below upper key := inside key (by simp)
  have ahead : ∀ held ∈ left, held < key :=
    fun held mem => across held mem key (mem_cons_self ..)
  have least := head_le rightAscending
  have leftNonempty : ∃ first, first ∈ left :=
    exists_mem_of_length_pos (by omega)
  obtain ⟨first, isFirst⟩ := leftNonempty
  refine ⟨⟨key, .leaf id left leftValues (some fresh), .leaf fresh (key :: rest) rightValues next⟩,
    ?_, ⟨?_, leftAscending, leftValuesSize, ?_, by omega, by omega⟩,
    ⟨?_, rightAscending, rightValuesSize, ?_, by omega, by omega⟩,
      ?_, by simp [Node.links, linkView]⟩
  · rw [splitLeaf, ← leftSize, cutAt_append]
    dsimp only [bind_eq_bind, bind_some]
    rw [← leftValuesSize, cutAt_append]
    rfl
  · exact (inside first (by simp [isFirst])).1.gap (below_some.mpr (ahead first isFirst))
  · exact fun held mem => ⟨(inside held (by simp [mem])).1, below_some.mpr (ahead held mem)⟩
  · exact (above_some.mpr (le_refl key)).gap isKey.2
  · exact fun held mem => ⟨above_some.mpr (least held mem),
      (inside held (mem_append_right _ mem)).2⟩
  · simp only [Node.entries, flat_leaf, entryView, zip_append leftValuesSize]

variable {height : Nat} {lower upper : Option Bytes}

theorem splitInternal_spec {maxKeys : Nat} {children : List Node} (two : 2 ≤ maxKeys)
    (full : keys.length = maxKeys + 1)
    (forest : Forest (Child maxKeys height) lower upper keys children) :
    ∃ split, splitInternal keys children = some split ∧
      Ok maxKeys (height + 1) (maxKeys / 2) lower (some split.key) split.left ∧
      Ok maxKeys (height + 1) (maxKeys / 2) (some split.key) upper split.right ∧
      ∀ {β : Type} (view : Nat → List Bytes → List Bytes → Option Nat → List β),
        split.left.flat view ++ split.right.flat view = flatAll view children := by
  have middle : keys.length / 2 < keys.length := by omega
  have count := forest.length_children
  obtain ⟨left, promoted, right, rfl, leftSize⟩ : ∃ left promoted right,
      keys = left ++ promoted :: right ∧ left.length = keys.length / 2 := by
    refine ⟨keys.take (keys.length / 2), keys.get ⟨_, middle⟩,
      keys.drop (keys.length / 2 + 1), ?_, ?_⟩
    · rw [get_eq_getElem, getElem_cons_drop, take_append_drop]
    · rw [length_take]
      omega
  obtain ⟨leftForest, rightForest⟩ := forest.split
  have total : (left ++ promoted :: right).length = left.length + (right.length + 1) := by simp
  refine ⟨⟨promoted, .internal left (children.take (left.length + 1)),
    .internal right (children.drop (left.length + 1))⟩, ?_,
    ⟨leftForest, by omega, by omega⟩, ⟨rightForest, by omega, by omega⟩, ?_⟩
  · rw [splitInternal, ← leftSize]
    have keysCut : cutAt (left ++ promoted :: right) (left.length + 1) =
        some (left ++ [promoted], right) := by
      simpa using cutAt_append (left ++ [promoted]) right
    have childrenCut : cutAt children (left.length + 1) =
        some (children.take (left.length + 1), children.drop (left.length + 1)) :=
      if_pos (by omega)
    simp [keysCut, childrenCut]
  · intro β view
    rw [flat_internal, flat_internal, ← flatAll_append, take_append_drop]

/-! ## The whole insertion -/

/-- The subtrees that have taken the place of a node. -/
def Inserted.nodes : Inserted → List Node
  | .whole node => [node]
  | .halves split => [split.left, split.right]

/-- The key between them. -/
def Inserted.separators : Inserted → List Bytes
  | .whole _ => []
  | .halves split => [split.key]

/-- One subtree between the bounds of the node, or two halves around a key. -/
def Inserted.Fits (maxKeys height least : Nat) (lower upper : Option Bytes) : Inserted → Prop
  | .whole node => Ok maxKeys height least lower upper node
  | .halves split => Child maxKeys height lower (some split.key) split.left ∧
      Child maxKeys height (some split.key) upper split.right

theorem Inserted.Fits.forest {maxKeys : Nat}
    {inserted : Inserted} (fits : inserted.Fits maxKeys height (maxKeys / 2) lower upper) :
    Forest (Child maxKeys height) lower upper inserted.separators inserted.nodes := by
  cases inserted with
  | whole node => exact fits
  | halves split => exact fits

/-- What an insertion makes of a subtree. -/
structure Inserts (maxKeys fresh : Nat) (key value : Bytes) (height least : Nat)
    (lower upper : Option Bytes) (node : Node) (inserted : Inserted) : Prop where
  fits : inserted.Fits maxKeys height least lower upper
  entries : flatAll entryView inserted.nodes = SortedMap.put key value node.entries
  links : LinkSplit fresh node.links (flatAll linkView inserted.nodes)

section Insert

variable {maxKeys fresh : Nat} {key value : Bytes}

variable {lower upper : Option Bytes}

theorem insert_leaf_spec (two : 2 ≤ maxKeys) {least id : Nat}
    {keys values : List Bytes} {next : Option Nat}
    (ok : Ok maxKeys 0 least lower upper (.leaf id keys values next)) (above : Above lower key)
    (below : Below upper key) :
    ∃ inserted, (Node.leaf id keys values next).insert maxKeys fresh key value = some inserted ∧
      Inserts maxKeys fresh key value 0 least lower upper (.leaf id keys values next) inserted := by
  obtain ⟨gap, ascending, sizes, inside, enough, few⟩ := ok
  obtain ⟨newKeys, newValues, result, newAscending, newSizes, known, grown, bound, zipped⟩ :=
    insertIntoLeaf_spec ascending sizes key value
  have newInside : ∀ held ∈ newKeys, Above lower held ∧ Below upper held := by
    intro held mem
    rcases known held mem with rfl | old
    · exact ⟨above, below⟩
    · exact inside held old
  rw [Node.insert, result]
  dsimp only [bind_eq_bind, bind_some]
  by_cases room : newKeys.length ≤ maxKeys
  · rw [if_pos room]
    refine ⟨.whole (.leaf id newKeys newValues next), rfl,
      ⟨gap, newAscending, newSizes, newInside, by omega, room⟩, ?_, .inl ?_⟩
    · simpa [Inserted.nodes, Node.entries, entryView] using zipped
    · simp [Inserted.nodes, Node.links, linkView]
  · rw [if_neg room]
    obtain ⟨split, isSplit, left, right, entries, links⟩ :=
      @splitLeaf_spec maxKeys id fresh _ _ next _ _ two (by omega) newAscending newSizes newInside
    rw [isSplit]
    refine ⟨.halves split, rfl, ⟨left, right⟩, ?_, .inr ⟨[], id, next, [], ?_, ?_⟩⟩
    · simpa [Inserted.nodes, Node.entries, entryView] using entries.trans zipped
    · simp [Node.links, linkView]
    · simpa [Inserted.nodes] using links

/-- A separator and two subtrees are put in the place of a child. -/
theorem insertIntoInternal_append (left right : List Bytes) (before after : List Node)
    (child : Node) (split : NodeSplit) (sizes : before.length = left.length) :
    insertIntoInternal (left ++ right) (before ++ child :: after) left.length split =
      some (left ++ split.key :: right, before ++ split.left :: split.right :: after) := by
  rw [insertIntoInternal, insertAt_append, ← sizes]
  simp

/-- Entries before the chosen child are below the key, entries behind it above. -/
theorem entries_around {height : Nat} {reached start : Option Bytes}
    {left right : List Bytes} {before after : List Node}
    (front : Front (Child maxKeys height) lower reached left before)
    (rest : Rest (Child maxKeys height) start upper right after)
    (atMost : ∀ separator ∈ left, separator ≤ key) (past : ∀ separator ∈ right, key < separator) :
    (∀ entry ∈ flatAll entryView before, entry.key < key) ∧
      ∀ entry ∈ flatAll entryView after, key < entry.key := by
  have inside : ∀ ⦃low high child key⦄, Child maxKeys height low high child →
      child.Holds key → Above low key ∧ Below high key := fun _ _ _ _ good holds =>
    good.between holds
  constructor
  · intro entry mem
    obtain ⟨child, isChild, held⟩ := (mem_flatAll _).mp mem
    exact front.lt_of_le inside atMost child isChild ⟨entry, held, rfl⟩
  · intro entry mem
    obtain ⟨child, isChild, held⟩ := (mem_flatAll _).mp mem
    exact rest.lt_of_lt (fun _ _ _ => Ok.gap) inside past child isChild ⟨entry, held, rfl⟩

theorem insert_spec (two : 2 ≤ maxKeys) : ∀ {height least : Nat} {lower upper : Option Bytes}
    {node : Node}, Ok maxKeys height least lower upper node → Above lower key → Below upper key →
      ∃ inserted, node.insert maxKeys fresh key value = some inserted ∧
        Inserts maxKeys fresh key value height least lower upper node inserted
  | 0, _, _, _, .leaf _ _ _ _, ok, above, below => insert_leaf_spec two ok above below
  | height + 1, least, lower, upper, .internal keys children, ok, above, below => by
    obtain ⟨forest, enough, few⟩ := ok
    obtain ⟨left, right, rfl, atMost, past, chosen⟩ :=
      childIndex_cut (forest.ascending fun _ _ _ => Ok.gap) key
    obtain ⟨before, child, after, reached, start, rfl, sizes, front, good, rest⟩ := forest.focus
    obtain ⟨inner, result, fits, entries, links⟩ :=
      insert_spec two good (front.above atMost above) (rest.below past below)
    obtain ⟨entriesBefore, entriesAfter⟩ := entries_around front rest atMost past
    have step : insertChild maxKeys fresh key value left.length (before ++ child :: after) =
        some inner := by rw [← sizes, insertChild_append, result]
    have newForest := front.fill fits.forest rest
    have newEntries : flatAll entryView (before ++ (inner.nodes ++ after)) =
        put key value (Node.internal (left ++ right) (before ++ child :: after)).entries := by
      rw [entries_internal, flatAll_append, flatAll_append, entries, flatAll_append, flatAll_cons,
        put_middle entriesBefore entriesAfter]
    have newLinks : LinkSplit fresh (Node.internal (left ++ right) (before ++ child :: after)).links
        (flatAll linkView (before ++ (inner.nodes ++ after))) := by
      rw [links_internal, flatAll_append, flatAll_append, flatAll_append, flatAll_cons]
      exact links.context _ _
    rw [Node.insert, chosen, step]
    dsimp only [bind_eq_bind, bind_some]
    cases inner with
    | whole kept =>
      dsimp only
      rw [← sizes, set_append_right _ _ (Nat.le_refl _), Nat.sub_self]
      refine ⟨.whole (.internal (left ++ right) (before ++ kept :: after)), rfl,
        ⟨newForest, enough, few⟩, ?_, ?_⟩
      · simpa [Inserted.nodes] using newEntries
      · simpa [Inserted.nodes] using newLinks
    | halves split =>
      dsimp only
      rw [insertIntoInternal_append _ _ _ _ _ _ sizes]
      have more : (left ++ split.key :: right).length = (left ++ right).length + 1 := by
        simp only [length_append, length_cons]
        omega
      dsimp only [bind_some]
      by_cases room : (left ++ split.key :: right).length ≤ maxKeys
      · rw [if_pos room]
        refine ⟨.whole (.internal (left ++ split.key :: right)
          (before ++ split.left :: split.right :: after)), rfl, ⟨newForest, by omega, room⟩, ?_, ?_⟩
        · simpa [Inserted.nodes] using newEntries
        · simpa [Inserted.nodes] using newLinks
      · rw [if_neg room]
        have tooLarge : (left ++ split.key :: right).length = maxKeys + 1 := by omega
        have newForest : Forest (Child maxKeys height) lower upper
            (left ++ split.key :: right) (before ++ split.left :: split.right :: after) := newForest
        obtain ⟨outer, isOuter, leftOk, rightOk, flat⟩ := splitInternal_spec two tooLarge newForest
        rw [isOuter]
        have same : ∀ {β : Type} (view : Nat → List Bytes → List Bytes → Option Nat → List β),
            flatAll view (Inserted.halves outer).nodes =
              flatAll view (before ++ ((Inserted.halves split).nodes ++ after)) := by
          intro β view
          rw [Inserted.nodes, flatAll_cons, flatAll_cons, flatAll_nil, append_nil]
          exact flat view
        exact ⟨.halves outer, rfl, ⟨leftOk, rightOk⟩, (same entryView).trans newEntries,
          (same linkView).symm ▸ newLinks⟩

end Insert

end GoDatabase.Memory
