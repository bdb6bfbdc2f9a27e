import GoDatabase.Memory.Runs
import GoDatabase.Memory.Traced

/-!
# The in-memory tree as an ordered map

`internal/btree/memory.go`: the adapter with the byte-oriented interface.  `Get` descends
to a leaf; `Range` descends to the leaf of its lower bound and follows the chain from
there.  On a balanced tree both read the entries in order.
-/

namespace GoDatabase.Memory

open Library Structures SortedMap List

/-! ## Reading the chain -/

/-- What a leaf holds. -/
structure Leaf where
  id : Nat
  keys : List Bytes
  values : List Bytes
  next : Option Nat

def Leaf.entries (leaf : Leaf) : List (Binding Bytes Bytes) :=
  List.zipWith Binding.mk leaf.keys leaf.values

def leafView (id : Nat) (keys values : List Bytes) (next : Option Nat) : List Leaf :=
  [⟨id, keys, values, next⟩]

/-- The leaves from left to right. -/
abbrev Node.leaves (node : Node) : List Leaf := node.flat leafView

mutual

/-- The loop `for !n.leaf`: the leaf that a key belongs to. -/
def Node.leafFor (key : Bytes) : Node → Option Leaf
  | .leaf id keys values next => some ⟨id, keys, values, next⟩
  | .internal keys children => leafForChild key (childIndex keys key) children

def leafForChild (key : Bytes) : Nat → List Node → Option Leaf
  | _, [] => none
  | 0, child :: _ => child.leafFor key
  | idx + 1, _ :: children => leafForChild key idx children

end

/-- The inner loop of `Range`, over the keys and values from an index on: the entries it appends
and whether it met a key above the upper bound. -/
def scanLeaf (upper : Bytes) :
    (keys values : List Bytes) → Option (List (Binding Bytes Bytes) × Bool)
  | [], _ => some ([], false)
  | key :: keys, values =>
    if upper < key then some ([], true)
    else
      match values with
      | [] => none
      | value :: values => do
        let (entries, stopped) ← scanLeaf upper keys values
        some (⟨key, value⟩ :: entries, stopped)

/-- The outer loop of `Range`, for at most the given number of leaves. -/
def scanLeaves (leaves : List Leaf) (upper : Bytes) :
    (rounds : Nat) → (n : Option Nat) → (idx : Nat) → Option (List (Binding Bytes Bytes))
  | _, none, _ => some []
  | 0, some _, _ => none
  | rounds + 1, some id, idx => do
    let leaf ← leaves.find? fun leaf => leaf.id = id
    let (entries, stopped) ← scanLeaf upper (leaf.keys.drop idx) (leaf.values.drop idx)
    if stopped then
      some entries
    else do
      let rest ← scanLeaves leaves upper rounds leaf.next 0
      some (entries ++ rest)

/-- `Memory.Range`; the chain of a tree is followed for as many rounds as it has leaves. -/
def Tree.range (t : Tree) (lower upper : Bytes) : Option (List (Binding Bytes Bytes)) :=
  match t.root with
  | none => some []
  | some root =>
    if upper < lower then some []
    else do
      let leaf ← root.leafFor lower
      let (idx, _) := search leaf.keys lower
      scanLeaves root.leaves upper root.leaves.length (some leaf.id) idx

/-! ## The adapter -/

section Adapter

variable {τ : Type} [Sink τ]

def get (t : Tree) (key : Bytes) : Traced τ (Lookup × Tree) := do
  match ← t.tracedGet key with
  | none => pure (⟨[], false, none⟩, t)
  | some value => pure (⟨value, true, none⟩, t)

def set (t : Tree) (key value : Bytes) : Traced τ (Option GoError × Tree) := do
  let t ← t.tracedSet key value
  pure (none, t)

def delete (t : Tree) (key : Bytes) : Traced τ (Removal × Tree) := do
  let (t, found) ← t.tracedDelete key
  pure (⟨found, none⟩, t)

def range (t : Tree) (start stop : Bytes) : Traced τ (Scan × Tree) := do
  let entries ← StateT.lift (t.range start stop)
  pure (⟨entries, none⟩, t)

def methods : Methods Tree τ := ⟨get, range, set, delete⟩

end Adapter

/-! ## Views of the leaves -/

section Leaves

variable {β : Type} (view : Nat → List Bytes → List Bytes → Option Nat → List β)

mutual

/-- Every view of a subtree is one of its leaves. -/
theorem flat_eq_leaves : ∀ node : Node,
    node.flat view = node.leaves.flatMap fun leaf => view leaf.id leaf.keys leaf.values leaf.next
  | .leaf _ _ _ _ => by simp [leafView]
  | .internal _ children => by
    rw [flat_internal, Node.leaves, flat_internal]
    exact flatAll_eq_leaves children

theorem flatAll_eq_leaves : ∀ children : List Node, flatAll view children =
      (flatAll leafView children).flatMap fun leaf => view leaf.id leaf.keys leaf.values leaf.next
  | [] => by simp
  | child :: children => by
    rw [flatAll_cons, flatAll_cons, flatMap_append, flat_eq_leaves child,
      flatAll_eq_leaves children]

end

end Leaves

theorem links_eq (node : Node) : node.links = node.leaves.map fun leaf => (leaf.id, leaf.next) := by
  rw [Node.links, flat_eq_leaves]
  exact (map_eq_flatMap).symm

theorem entries_eq (node : Node) : node.entries = node.leaves.flatMap Leaf.entries :=
  flat_eq_leaves entryView node

/-! ## Order -/

section Order

variable {maxKeys : Nat}

theorem sorted_zip : ∀ {keys values : List Bytes}, keys.Pairwise (· < ·) →
    Sorted (List.zipWith Binding.mk keys values)
  | [], _, _ => List.Pairwise.nil
  | _ :: _, [], _ => List.Pairwise.nil
  | _ :: _, _ :: _, ascending => by
    obtain ⟨above, rest⟩ := pairwise_cons.mp ascending
    exact pairwise_cons.mpr ⟨fun entry mem => above _ (key_mem_of_mem_zip mem),
      sorted_zip rest⟩

variable {height least : Nat} {upper : Option Bytes}

/-- The subtrees of a node are read in the order of their keys. -/
theorem sorted_forest (inner : ∀ {low high child}, Ok maxKeys height least low high child →
      Sorted child.entries) :
    ∀ {lower : Option Bytes} {keys : List Bytes} {children : List Node},
      Forest (Ok maxKeys height least) lower upper keys children →
        Sorted (flatAll entryView children)
  | _, [], [child], good => by
    rw [flatAll_cons, flatAll_nil, append_nil]
    exact inner good
  | _, separator :: keys, child :: children, ⟨good, forest⟩ => by
    rw [flatAll_cons]
    refine pairwise_append.mpr ⟨inner good, sorted_forest inner forest, ?_⟩
    intro left inChild right inChildren
    obtain ⟨other, isChild, held⟩ := (mem_flatAll _).mp inChildren
    have inside : ∀ ⦃low high child key⦄, Ok maxKeys height least low high child →
        child.Holds key → Above low key ∧ Below high key := fun _ _ _ _ good holds =>
      good.between holds
    have below := below_some.mp (good.between ⟨left, inChild, rfl⟩).2
    have above := (forest.between (fun _ _ _ => Ok.gap) inside other isChild ⟨right, held, rfl⟩).1
    exact lt_of_lt_of_le below (above_some.mp above)
  | _, [], [], no => no.elim
  | _, [], _ :: _ :: _, no => no.elim
  | _, _ :: _, [], no => no.elim

/-- A subtree is read in the order of its keys. -/
theorem Ok.sorted : ∀ {height least : Nat} {lower upper : Option Bytes} {node : Node},
    Ok maxKeys height least lower upper node → Sorted node.entries
  | 0, _, _, _, .leaf _ keys values _, ok => by
    rw [entries_leaf]
    exact sorted_zip ok.2.1
  | height + 1, _, _, _, .internal keys children, ok => by
    rw [entries_internal]
    exact sorted_forest Ok.sorted ok.1

/-- The child that a key belongs to, and where the entries of the others are. -/
theorem Ok.chosen_child {lower : Option Bytes} {keys : List Bytes}
    {children : List Node}
    (ok : Ok maxKeys (height + 1) least lower upper (.internal keys children))
    (key : Bytes) : ∃ before child after low high, children = before ++ child :: after ∧
      childIndex keys key = before.length ∧ Child maxKeys height low high child ∧
      (∀ entry ∈ flatAll entryView before, entry.key < key) ∧
      ∀ entry ∈ flatAll entryView after, key < entry.key := by
  obtain ⟨forest, -, -⟩ := ok
  obtain ⟨left, right, rfl, atMost, past, chosen⟩ :=
    childIndex_cut (forest.ascending fun _ _ _ => Ok.gap) key
  obtain ⟨before, child, after, reached, start, rfl, sizes, front, good, rest⟩ := forest.focus
  obtain ⟨entriesBefore, entriesAfter⟩ := entries_around front rest atMost past
  exact ⟨before, child, after, reached, start, rfl, chosen.trans sizes.symm, good, entriesBefore,
    entriesAfter⟩

/-! ## Get -/

variable {τ : Type} [Sink τ]

theorem tracedGetChild_append (key : Bytes) (before after : List Node) (child : Node) :
    (tracedGetChild key before.length (before ++ child :: after) : Traced τ _) =
      child.tracedGet key := by
  induction before with
  | nil => rw [length_nil, nil_append, tracedGetChild]
  | cons first before ih => rw [length_cons, cons_append, tracedGetChild, ih]

theorem Ok.tracedGet_erases {key : Bytes} :
    ∀ {height least : Nat} {lower upper : Option Bytes} {node : Node},
      Ok maxKeys height least lower upper node →
        Erases (node.tracedGet key : Traced τ _) (some (lookup node.entries key))
  | 0, _, _, _, .leaf _ keys values _, ok => by
    obtain ⟨-, ascending, sizes, -, -, -⟩ := ok
    rw [Node.tracedGet, entries_leaf]
    refine emit_andThen (Erases.step (tracedSearch_erases keys key) ?_)
    obtain ⟨left, right, rfl, below, found | missing⟩ := search_cut ascending key
    · obtain ⟨found, rest, rfl⟩ := found
      obtain ⟨leftValues, rightValues, rfl, leftSize, rightSize⟩ := values_cut sizes
      obtain ⟨value, others, rfl⟩ := exists_cons_of_length_eq_add_one rightSize
      have absent : ∀ entry ∈ List.zipWith Binding.mk left leftValues, entry.key ≠ key :=
        fun entry mem => (below _ (key_mem_of_mem_zip mem)).ne
      rw [found, zip_append leftSize, SortedMap.lookup_append, lookup_eq_none absent,
        zipWith_cons_cons, SortedMap.lookup_cons, if_pos rfl]
      have here : (leftValues ++ value :: others)[left.length]? = some value := by
        rw [← leftSize]
        simp
      dsimp only
      rw [if_pos rfl, here]
      exact Erases.step (.lift (some value)) (.pure _)
    · obtain ⟨missing, above⟩ := missing
      have absent : ∀ entry ∈ List.zipWith Binding.mk (left ++ right) values, entry.key ≠ key := by
        intro entry mem
        rcases mem_append.mp (key_mem_of_mem_zip mem) with inLeft | inRight
        · exact (below _ inLeft).ne
        · exact (above _ inRight).ne'
      rw [missing, lookup_eq_none absent]
      exact .pure _
  | height + 1, _, _, _, .internal keys children, ok => by
    obtain ⟨before, child, after, low, high, rfl, chosen, good, below, above⟩ := ok.chosen_child key
    rw [Node.tracedGet, entries_internal, flatAll_append, flatAll_cons,
      lookup_middle (fun entry mem => (below entry mem).ne)
        fun entry mem => (above entry mem).ne']
    refine emit_andThen
      (Erases.step (tracedChildIndex_erases keys key) ?_)
    rw [chosen, tracedGetChild_append]
    exact good.tracedGet_erases

end Order

/-! ## Range -/

section Range

variable {maxKeys : Nat}

theorem leafForChild_append (key : Bytes) (before after : List Node) (child : Node) :
    leafForChild key before.length (before ++ child :: after) = child.leafFor key := by
  induction before with
  | nil => rw [length_nil, nil_append, leafForChild]
  | cons first before ih => rw [length_cons, cons_append, leafForChild, ih]

/-- A leaf with ascending keys and one value for each. -/
def Leaf.Ok (leaf : Leaf) : Prop :=
  leaf.keys.Pairwise (· < ·) ∧ leaf.values.length = leaf.keys.length

/-- The leaf that a key belongs to, and where the entries of the others are. -/
theorem Ok.leafFor_cut (key : Bytes) :
    ∀ {height least : Nat} {lower upper : Option Bytes} {node : Node},
      Memory.Ok maxKeys height least lower upper node →
      ∃ before leaf after, node.leafFor key = some leaf ∧ node.leaves = before ++ leaf :: after ∧
        (∀ entry ∈ before.flatMap Leaf.entries, entry.key < key) ∧
        ∀ entry ∈ after.flatMap Leaf.entries, key < entry.key
  | 0, _, _, _, .leaf id keys values next, ok =>
    ⟨[], ⟨id, keys, values, next⟩, [], by rw [Node.leafFor], by simp [leafView], nofun, nofun⟩
  | height + 1, _, _, _, .internal keys children, ok => by
    obtain ⟨front, child, back, low, high, rfl, chosen, good, below, above⟩ := ok.chosen_child key
    obtain ⟨before, leaf, after, found, shape, belowLeaf, aboveLeaf⟩ := good.leafFor_cut key
    refine ⟨flatAll leafView front ++ before, leaf, after ++ flatAll leafView back, ?_, ?_, ?_, ?_⟩
    · rw [Node.leafFor, chosen, leafForChild_append, found]
    · rw [Node.leaves, flat_internal, flatAll_append, flatAll_cons]
      simp only [Node.leaves] at shape
      rw [shape]
      simp
    · intro entry mem
      rw [flatMap_append] at mem
      rcases mem_append.mp mem with inFront | inBefore
      · exact below entry (flatAll_eq_leaves entryView front ▸ inFront)
      · exact belowLeaf entry inBefore
    · intro entry mem
      rw [flatMap_append] at mem
      rcases mem_append.mp mem with inAfter | inBack
      · exact aboveLeaf entry inAfter
      · exact above entry (flatAll_eq_leaves entryView back ▸ inBack)

theorem Ok.leaf_ok : ∀ {height least : Nat} {lower upper : Option Bytes} {node : Node},
    Memory.Ok maxKeys height least lower upper node → ∀ leaf ∈ node.leaves, leaf.Ok
  | 0, _, _, _, .leaf id keys values next, ok, leaf, mem => by
    rw [Node.leaves, flat_leaf] at mem
    obtain rfl := mem_singleton.mp mem
    exact ⟨ok.2.1, ok.2.2.1⟩
  | height + 1, _, _, _, .internal keys children, ok, leaf, mem => by
    rw [Node.leaves, flat_internal] at mem
    obtain ⟨child, isChild, inChild⟩ := (mem_flatAll _).mp mem
    obtain ⟨idx, here⟩ := List.getElem?_of_mem isChild
    obtain ⟨low, high, good, -⟩ := forest_child ok.1 here
    exact good.leaf_ok leaf inChild

/-- The inner loop collects the entries up to the bound. -/
theorem scanLeaf_eq (upper : Bytes) : ∀ {keys values : List Bytes}, keys.Pairwise (· < ·) →
    values.length = keys.length → scanLeaf upper keys values =
      some ((List.zipWith Binding.mk keys values).filter fun entry => entry.key ≤ upper,
        keys.any fun key => upper < key)
  | [], _, _, _ => by
    rw [scanLeaf]
    rfl
  | key :: keys, value :: values, ascending, sizes => by
    obtain ⟨above, rest⟩ := pairwise_cons.mp ascending
    rw [scanLeaf, zipWith_cons_cons, filter_cons, any_cons]
    by_cases stops : upper < key
    · have none : ((List.zipWith Binding.mk keys values).filter fun entry => entry.key ≤ upper) =
        [] := by
        refine filter_eq_nil_iff.mpr fun entry mem inRange => ?_
        exact absurd (stops.trans (above _ (key_mem_of_mem_zip mem)))
          (not_lt.mpr (by simpa using inRange))
      rw [if_pos stops, if_neg (by simpa using stops), none]
      simp [stops]
    · rw [if_neg stops, scanLeaf_eq upper rest (by simpa using sizes),
        if_pos (by simpa using stops)]
      simp [stops]

/-- One leaf of the outer loop, given what the leaves behind it yield. -/
theorem scanLeaves_step {leaves back : List Leaf} {leaf : Leaf} {upper : Bytes} {rounds idx : Nat}
    (distinct : (leaves.map Leaf.id).Nodup) (mem : leaf ∈ leaves) (good : leaf.Ok)
    (sorted : Sorted (leaf.entries ++ back.flatMap Leaf.entries))
    (rest : scanLeaves leaves upper rounds leaf.next 0 =
      some ((back.flatMap Leaf.entries).filter fun entry => entry.key ≤ upper)) :
    scanLeaves leaves upper (rounds + 1) (some leaf.id) idx =
      some ((leaf.entries.drop idx ++ back.flatMap Leaf.entries).filter
        fun entry => entry.key ≤ upper) := by
  obtain ⟨ascending, sizes⟩ := good
  have scanned := scanLeaf_eq upper (ascending.sublist (drop_sublist idx leaf.keys))
    (show (leaf.values.drop idx).length = _ by rw [length_drop, length_drop, sizes])
  rw [← drop_zipWith] at scanned
  simp only [scanLeaves, Option.bind_eq_bind]
  rw [find?_of_nodup distinct mem, Option.bind_some, scanned, Option.bind_some, filter_append]
  by_cases stopped : (leaf.keys.drop idx).any (fun key => upper < key) = true
  · rw [if_pos stopped]
    -- a key above the bound is below all keys of the leaves behind
    obtain ⟨key, inKeys, past⟩ := any_eq_true.mp stopped
    obtain ⟨position, inside, rfl⟩ := getElem_of_mem (mem_of_mem_drop inKeys)
    have stored : (⟨leaf.keys[position], leaf.values[position]⟩ : Binding Bytes Bytes) ∈
        leaf.entries := by
      have here : leaf.entries[position]? = some ⟨leaf.keys[position], leaf.values[position]⟩ := by
        simp [Leaf.entries, inside, sizes ▸ inside]
      exact mem_of_getElem? here
    have none : ((back.flatMap Leaf.entries).filter fun entry => entry.key ≤ upper) = [] := by
      refine filter_eq_nil_iff.mpr fun entry mem inRange => ?_
      have order := (pairwise_append.mp sorted).2.2 _ stored entry mem
      exact absurd ((of_decide_eq_true past).trans order) (not_lt.mpr (by simpa using inRange))
    rw [none, append_nil]
    rfl
  · rw [if_neg stopped, rest]
    rfl

theorem Linked.of_append : ∀ {front back : List Link}, Linked (front ++ back) → Linked back
  | [], _, linked => linked
  | (_, _) :: _, _, ⟨_, linked⟩ => linked.of_append

/-- The outer loop reads the leaves to the right. -/
theorem scanLeaves_eq {leaves : List Leaf} {upper : Bytes} (distinct : (leaves.map Leaf.id).Nodup)
    (good : ∀ leaf ∈ leaves, leaf.Ok) : ∀ (back : List Leaf) (rounds : Nat), back.length ≤ rounds →
      back <:+ leaves → Linked (back.map fun leaf => (leaf.id, leaf.next)) →
      Sorted (back.flatMap Leaf.entries) →
      scanLeaves leaves upper rounds (back.head?.map Leaf.id) 0 =
        some ((back.flatMap Leaf.entries).filter fun entry => entry.key ≤ upper) := by
  intro back
  induction back with
  | nil =>
    intro rounds _ _ _ _
    rw [scanLeaves.eq_def]
    rfl
  | cons leaf back ih =>
    rintro (_ | rounds) enough isSuffix linked sorted
    · cases enough
    obtain ⟨points, more⟩ := linked
    rw [flatMap_cons] at sorted ⊢
    have mem := isSuffix.subset mem_cons_self
    have rest := ih rounds (Nat.le_of_succ_le_succ enough)
      ((suffix_cons _ _).trans isSuffix) more (pairwise_append.mp sorted).2.1
    have next : leaf.next = back.head?.map Leaf.id := by
      rw [points, List.head?_map, Option.map_map]
      rfl
    rw [← next] at rest
    have step := @scanLeaves_step leaves back leaf upper rounds 0 distinct mem
      (good leaf mem) sorted rest
    rwa [drop_zero] at step

end Range

/-- The search cuts a leaf at the first key that is not below the given one. -/
theorem search_entries {leaf : Leaf} (good : leaf.Ok) (key : Bytes) :
    ∃ left right, leaf.entries = left ++ right ∧ (search leaf.keys key).1 = left.length ∧
      (∀ entry ∈ left, entry.key < key) ∧ ∀ entry ∈ right, key ≤ entry.key := by
  obtain ⟨ascending, sizes⟩ := good
  obtain ⟨left, right, shape, below, found⟩ := search_cut ascending key
  rw [shape] at sizes
  obtain ⟨leftValues, rightValues, values, leftSize, -⟩ := values_cut sizes
  refine ⟨List.zipWith Binding.mk left leftValues, List.zipWith Binding.mk right rightValues,
    by rw [Leaf.entries, shape, values, zip_append leftSize], ?_,
    fun entry mem => below _ (key_mem_of_mem_zip mem), fun entry mem => ?_⟩
  · rw [length_zipWith, leftSize, Nat.min_self]
    rcases found with ⟨found, -⟩ | ⟨found, -⟩ <;> rw [found]
  have inRight := key_mem_of_mem_zip mem
  rcases found with ⟨-, rest, rfl⟩ | ⟨-, above⟩
  · rcases mem_cons.mp inRight with same | later
    · exact le_of_eq same.symm
    · rw [shape] at ascending
      exact le_of_lt ((pairwise_cons.mp (pairwise_append.mp ascending).2.1).1 _ later)
  · exact le_of_lt (above _ inRight)

/-- `Range` reads the entries between its bounds. -/
theorem Tree.Sound.range_eq {t : Tree} {maxKeys : Nat} (sound : t.Sound maxKeys)
    (start stop : Bytes) : t.range start stop =
      some (t.entries.filter fun entry => start ≤ entry.key ∧ entry.key ≤ stop) := by
  rw [Tree.range, Tree.entries]
  cases shape : t.root with
  | none => rfl
  | some root =>
    obtain ⟨⟨height, ok⟩, chained⟩ := sound.root root shape
    dsimp only
    by_cases reversed : stop < start
    · rw [if_pos reversed, filter_eq_nil_iff.mpr]
      intro entry _ inRange
      simp only [decide_eq_true_eq] at inRange
      exact absurd (inRange.1.trans inRange.2) (not_le.mpr reversed)
    · rw [if_neg reversed]
      obtain ⟨before, leaf, after, found, leaves, below, above⟩ := ok.leafFor_cut start
      have sorted := ok.sorted
      rw [entries_eq, leaves, flatMap_append, flatMap_cons] at sorted
      have sortedBack := (pairwise_append.mp sorted).2.1
      have distinct : (root.leaves.map Leaf.id).Nodup := by
        have distinct := chained.distinct
        rwa [links_eq, map_map] at distinct
      have mem : leaf ∈ root.leaves := by
        rw [leaves]
        exact mem_append_right _ mem_cons_self
      have linked : Linked ((leaf :: after).map fun leaf => (leaf.id, leaf.next)) := by
        have whole := chained.linked
        rw [links_eq, leaves, map_append] at whole
        exact whole.of_append
      obtain ⟨left, right, cut, position, belowLeft, aboveRight⟩ :=
        search_entries (ok.leaf_ok leaf mem) start
      obtain ⟨points, more⟩ := linked
      have next : leaf.next = after.head?.map Leaf.id := by
        rw [points, List.head?_map, Option.map_map]
        rfl
      have rest := @scanLeaves_eq root.leaves stop distinct ok.leaf_ok after
        (before.length + after.length) (by omega)
        ⟨before ++ [leaf], by rw [leaves]; simp⟩ more (pairwise_append.mp sortedBack).2.1
      rw [← next] at rest
      have scanned := @scanLeaves_step _ _ _ _ _ (search leaf.keys start).1 distinct mem
        (ok.leaf_ok leaf mem) sortedBack rest
      rw [position, cut, drop_left] at scanned
      have rounds : root.leaves.length = before.length + after.length + 1 := by
        rw [leaves, length_append, length_cons, Nat.add_assoc]
      have selected : (root.entries.filter fun entry => start ≤ entry.key ∧ entry.key ≤ stop) =
          (right ++ after.flatMap Leaf.entries).filter fun entry => entry.key ≤ stop := by
        have whole : root.entries =
            (before.flatMap Leaf.entries ++ left) ++ (right ++ after.flatMap Leaf.entries) := by
          rw [entries_eq, leaves, flatMap_append, flatMap_cons, cut]
          simp only [append_assoc]
        refine whole ▸ filter_from_cut ?_ ?_
        · exact forall_mem_append.mpr ⟨below, belowLeft⟩
        · exact forall_mem_append.mpr ⟨aboveRight, fun entry mem => le_of_lt (above entry mem)⟩
      simp only [found, Option.bind_eq_bind, Option.bind_some, position, rounds, scanned, selected]

/-! ## An ordered map -/

/-- A tree stands for its entries. -/
def Stands (t : Tree) (contents : List (Binding Bytes Bytes)) : Prop :=
  t.Sound 3 ∧ t.entries = contents

theorem isSome_lookup {contents : List (Binding Bytes Bytes)} {key : Bytes} :
    (lookup contents key).isSome = true ↔ ∃ entry ∈ contents, entry.key = key := by
  constructor
  · intro found
    obtain ⟨value, found⟩ := Option.isSome_iff_exists.mp found
    exact ⟨_, mem_of_lookup_eq_some found, rfl⟩
  · rintro ⟨entry, mem, same⟩
    by_contra absent
    exact ne_of_lookup_eq_none (Option.not_isSome_iff_eq_none.mp absent) entry mem same

theorem implements {τ : Type} [Sink τ] : Implements (methods : Methods Tree τ) Stands where
  get := by
    rintro t _ ⟨sound, rfl⟩ key
    have found : Erases (t.tracedGet key : Traced τ _) (some (lookup t.entries key)) := by
      rw [Tree.tracedGet, Tree.entries]
      cases shape : t.root with
      | none => exact .pure _
      | some root =>
        obtain ⟨⟨height, ok⟩, -⟩ := sound.root root shape
        exact ok.tracedGet_erases
    refine ⟨t, found.step ?_, sound, rfl⟩
    cases lookup t.entries key with
    | none => exact .pure _
    | some value => exact .pure _
  range := by
    rintro t _ ⟨sound, rfl⟩ start stop
    have read : Erases (StateT.lift (t.range start stop) : Traced τ _)
        (some (t.entries.filter fun entry => start ≤ entry.key ∧ entry.key ≤ stop)) :=
      sound.range_eq start stop ▸ .lift _
    exact ⟨t, read.step (.pure _), sound, rfl⟩
  set := by
    rintro t _ ⟨sound, rfl⟩ key value
    obtain ⟨next, result, nextSound, entries⟩ := sound.set (by decide) key value
    exact ⟨next, Erases.step (result ▸ tracedSet_erases t key value) (.pure _), nextSound, entries⟩
  delete := by
    rintro t _ ⟨sound, rfl⟩ key
    obtain ⟨next, found, result, nextSound, entries, present⟩ := sound.delete (by decide) key
    have flag : found = (lookup t.entries key).isSome :=
      Bool.eq_iff_iff.mpr (present.trans isSome_lookup.symm)
    refine ⟨next, ?_, nextSound, entries⟩
    rw [← flag]
    exact Erases.step (result ▸ tracedDelete_erases t key) (.pure _)

end GoDatabase.Memory
