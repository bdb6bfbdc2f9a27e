import GoDatabase.Memory.DeleteSpec

/-!
# Runs of the in-memory tree

Every sequence of `set` and `delete` calls on an empty tree succeeds, that is no index is
ever out of range, and leaves a balanced tree whose leaves are chained from left to right.
-/

namespace GoDatabase.Memory

open Library List Option

/-! ## The chain -/

/-- Every leaf points to the one behind it, the last one to none. -/
def Linked : List Link → Prop
  | [] => True
  | (_, next) :: rest => next = rest.head?.map Prod.fst ∧ Linked rest

/-- Follow the chain, at most the given number of steps: the leaves that are visited. -/
def walk (links : List Link) : (steps : Nat) → (origin : Option Nat) → Option (List Nat)
  | _, none => some []
  | 0, some _ => none
  | steps + 1, some id => do
    let next ← links.lookup id
    let visited ← walk links steps next
    some (id :: visited)

/-- Replacing the end of a chain by one that starts with the same leaf. -/
theorem Linked.replace {back newBack : List Link}
    (start : newBack.head?.map Prod.fst = back.head?.map Prod.fst)
    (linked : Linked back → Linked newBack) :
    ∀ {front : List Link}, Linked (front ++ back) → Linked (front ++ newBack)
  | [], whole => linked whole
  | (_, _) :: front, ⟨points, whole⟩ => by
    refine ⟨points.trans ?_, whole.replace start linked⟩
    cases front with
    | nil => exact start.symm
    | cons _ _ => rfl

theorem LinkSplit.linked {fresh : Nat} {before after : List Link}
    (split : LinkSplit fresh before after) (linked : Linked before) : Linked after := by
  rcases split with rfl | ⟨front, id, next, back, rfl, rfl⟩
  · exact linked
  · refine @Linked.replace ((id, next) :: back) ((id, some fresh) :: (fresh, next) :: back) rfl ?_
      front linked
    exact fun ⟨points, more⟩ => ⟨rfl, points, more⟩

theorem LinkMerges.linked {before after : List Link} (merges : LinkMerges before after)
    (linked : Linked before) : Linked after := by
  induction merges with
  | refl => exact linked
  | tail _ merge ih =>
    obtain ⟨front, back, id, gone, next, nextGone⟩ := merge
    refine @Linked.replace ((id, next) :: (gone, nextGone) :: back) ((id, nextGone) :: back) rfl ?_
      front ih
    exact fun ⟨_, points, more⟩ => ⟨points, more⟩

/-- The chain has distinct leaves, made before the given identity. -/
structure Chained (fresh : Nat) (links : List Link) : Prop where
  linked : Linked links
  distinct : (links.map Prod.fst).Nodup
  known : ∀ id ∈ links.map Prod.fst, id < fresh

namespace Chained

variable {fresh : Nat} {before after links : List Link}

theorem split (chained : Chained fresh before) (split : LinkSplit fresh before after) :
    Chained (fresh + 1) after := by
  refine ⟨split.linked chained.linked, ?_, ?_⟩
  · rcases split with rfl | ⟨front, id, next, back, rfl, rfl⟩
    · exact chained.distinct
    · have moved : ((front ++ (id, some fresh) :: (fresh, next) :: back).map Prod.fst).Perm
          (fresh :: (front ++ (id, next) :: back).map Prod.fst) := by
        simpa using @List.perm_middle _ fresh (front.map Prod.fst ++ [id]) (back.map Prod.fst)
      refine moved.nodup_iff.mpr (nodup_cons.mpr ⟨?_, chained.distinct⟩)
      exact fun old => Nat.lt_irrefl _ (chained.known fresh old)
  · intro id mem
    rcases split with rfl | ⟨front, splitID, next, back, rfl, rfl⟩
    · exact Nat.lt_succ_of_lt (chained.known id mem)
    have known := chained.known id
    simp only [map_append, map_cons, mem_append, mem_cons] at mem known
    rcases mem with inFront | same | new | inBack
    · exact Nat.lt_succ_of_lt (known (.inl inFront))
    · exact Nat.lt_succ_of_lt (known (.inr (.inl same)))
    · exact new ▸ Nat.lt_succ_self _
    · exact Nat.lt_succ_of_lt (known (.inr (.inr inBack)))

theorem merge (chained : Chained fresh before) (merges : LinkMerges before after) :
    Chained fresh after := by
  have fewer : (after.map Prod.fst).Sublist (before.map Prod.fst) := by
    clear chained
    induction merges with
    | refl => exact List.Sublist.refl _
    | tail _ merge ih =>
      obtain ⟨front, back, id, gone, next, nextGone⟩ := merge
      refine List.Sublist.trans ?_ ih
      simp
  exact ⟨merges.linked chained.linked, chained.distinct.sublist fewer,
    fun id mem => chained.known id (fewer.subset mem)⟩

/-- A leaf is found by its identity. -/
theorem lookup_eq : ∀ {links : List Link} {id : Nat} {next : Option Nat},
    (links.map Prod.fst).Nodup → (id, next) ∈ links → links.lookup id = some next
  | (first, _) :: rest, id, next, distinct, mem => by
    obtain ⟨absent, distinctRest⟩ := nodup_cons.mp distinct
    rcases mem_cons.mp mem with same | later
    · obtain ⟨rfl, rfl⟩ := Prod.mk.inj same
      exact lookup_cons_self
    · have ne : (id == first) = false := by
        rw [beq_eq_false_iff_ne]
        rintro rfl
        exact absent (mem_map.mpr ⟨_, later, rfl⟩)
      rw [lookup_cons, ne]
      exact lookup_eq distinctRest later

/-- The chain visits the leaves from left to right and ends. -/
theorem walk_eq (chained : Chained fresh links) :
    walk links links.length (links.head?.map Prod.fst) = some (links.map Prod.fst) := by
  have visits : ∀ back, back <:+ links → Linked back →
      walk links back.length (back.head?.map Prod.fst) = some (back.map Prod.fst) := by
    intro back
    induction back with
    | nil => exact fun _ _ => by rw [walk.eq_def]; rfl
    | cons link back ih =>
      intro isSuffix linked
      obtain ⟨id, next⟩ := link
      obtain ⟨points, more⟩ := linked
      have found : links.lookup id = some next :=
        lookup_eq chained.distinct (isSuffix.subset (mem_cons_self ..))
      have later := ih ((suffix_cons _ _).trans isSuffix) more
      rw [← points] at later
      simp [walk, found, later]
  exact visits links (suffix_refl _) chained.linked

end Chained

/-! ## What the invariant says of every node -/

/-- A node of a tree: its depth, and the separators of all its ancestors that it lies
behind and before. -/
inductive Occurs (root : Node) : (depth : Nat) → (lowers uppers : List Bytes) → Node → Prop
  | root : Occurs root 0 [] [] root
  | child {depth idx : Nat} {lowers uppers keys : List Bytes} {children : List Node} {child : Node}
      (parent : Occurs root depth lowers uppers (.internal keys children))
      (here : children[idx]? = some child) :
      Occurs root (depth + 1) (lowers ++ (if idx = 0 then [] else (keys[idx - 1]?).toList))
        (uppers ++ (keys[idx]?).toList) child

/-- A balanced tree of nodes with at most `maxKeys` keys, with its leaves in a chain. -/
structure Balanced (maxKeys : Nat) (root : Node) : Prop where
  few : ∀ {depth lowers uppers node}, Occurs root depth lowers uppers node →
    node.keys.length ≤ maxKeys
  enough : ∀ {depth lowers uppers node}, Occurs root depth lowers uppers node → 0 < depth →
    maxKeys / 2 ≤ node.keys.length
  ascending : ∀ {depth lowers uppers node}, Occurs root depth lowers uppers node →
    node.keys.Pairwise (· < ·)
  arity : ∀ {depth lowers uppers keys children},
    Occurs root depth lowers uppers (.internal keys children) → children.length = keys.length + 1
  between : ∀ {depth lowers uppers node}, Occurs root depth lowers uppers node →
    ∀ key ∈ node.keys, (∀ bound ∈ lowers, bound ≤ key) ∧ ∀ bound ∈ uppers, key < bound
  level : ∃ height, ∀ {depth lowers uppers id keys values next},
    Occurs root depth lowers uppers (.leaf id keys values next) →
      depth = height ∧ values.length = keys.length
  distinct : (root.links.map Prod.fst).Nodup
  chain : walk root.links root.links.length (root.links.head?.map Prod.fst) =
    some (root.links.map Prod.fst)

/-- A child of a forest lies between the keys around it. -/
theorem forest_child {maxKeys height : Nat} {lower upper : Option Bytes} {keys : List Bytes}
    {children : List Node} {idx : Nat} {child : Node}
    (forest : Forest (Child maxKeys height) lower upper keys children)
    (here : children[idx]? = some child) :
    ∃ low high, Child maxKeys height low high child ∧
      (∀ key, Above low key → Above lower key ∧
        ∀ bound ∈ (if idx = 0 then [] else (keys[idx - 1]?).toList), bound ≤ key) ∧
      ∀ key, Below high key → Below upper key ∧ ∀ bound ∈ (keys[idx]?).toList, key < bound := by
  induction children generalizing lower keys idx with
  | nil => cases here
  | cons first rest ih =>
    obtain ⟨start, good, others⟩ := forest_first.mp forest
    cases idx with
    | zero =>
      obtain rfl := some.inj here
      refine ⟨lower, start, good, fun key above => ⟨above, nofun⟩, fun key below =>
        ⟨others.below_upper (fun _ _ _ => Ok.gap) below, ?_⟩⟩
      intro bound isBound
      cases keys with
      | nil => cases isBound
      | cons separator more =>
        obtain rfl : bound = separator := by simpa using isBound
        exact below bound others.1
    | succ idx =>
      cases keys with
      | nil =>
        cases rest with
        | nil => cases here
        | cons _ _ => exact others.elim
      | cons separator more =>
        obtain ⟨rfl, more⟩ := others
        obtain ⟨low, high, ok, above, below⟩ := ih more here
        refine ⟨low, high, ok, fun key isAbove => ?_, fun key isBelow => ?_⟩
        · obtain ⟨pastSeparator, pastBefore⟩ := above key isAbove
          refine ⟨good.gap.above (above_some.mp pastSeparator), ?_⟩
          intro bound isBound
          cases idx with
          | zero =>
            obtain rfl : bound = separator := by simpa using isBound
            exact above_some.mp pastSeparator
          | succ idx => exact pastBefore bound (by simpa using isBound)
        · obtain ⟨beforeUpper, beforeNext⟩ := below key isBelow
          exact ⟨beforeUpper, fun bound isBound => beforeNext bound (by simpa using isBound)⟩

variable {root : Node}

/-- Every node of a tree is a subtree of its height, between the separators of its
ancestors. -/
theorem Occurs.ok {maxKeys height : Nat} (top : Ok maxKeys height 1 none none root) :
    ∀ {depth lowers uppers node}, Occurs root depth lowers uppers node →
      ∃ below least lower upper, height = depth + below ∧ (0 < depth → least = maxKeys / 2) ∧
        Ok maxKeys below least lower upper node ∧
        (∀ key, Above lower key → ∀ bound ∈ lowers, bound ≤ key) ∧
        ∀ key, Below upper key → ∀ bound ∈ uppers, key < bound := by
  intro depth lowers uppers node occurs
  induction occurs with
  | root => exact ⟨height, 1, none, none, by omega, nofun, top, fun _ _ => nofun, fun _ _ => nofun⟩
  | child parent here ih =>
    obtain ⟨below, least, lower, upper, level, -, ok, above, beneath⟩ := ih
    match below, ok with
    | below + 1, ⟨forest, _, _⟩ =>
      obtain ⟨low, high, childOk, childAbove, childBelow⟩ := forest_child forest here
      refine ⟨below, maxKeys / 2, low, high, by omega, fun _ => rfl, childOk, ?_, ?_⟩
      · intro key isAbove bound isBound
        rcases mem_append.mp isBound with fromAncestor | fromParent
        · exact above key (childAbove key isAbove).1 bound fromAncestor
        · exact (childAbove key isAbove).2 bound fromParent
      · intro key isBelow bound isBound
        rcases mem_append.mp isBound with fromAncestor | fromParent
        · exact beneath key (childBelow key isBelow).1 bound fromAncestor
        · exact (childBelow key isBelow).2 bound fromParent

namespace Ok

variable {maxKeys height least : Nat} {lower upper : Option Bytes} {node : Node}

theorem few (ok : Ok maxKeys height least lower upper node) : node.keys.length ≤ maxKeys := by
  match height, node, ok with
  | 0, .leaf _ _ _ _, ok => exact ok.2.2.2.2.2
  | _ + 1, .internal _ _, ok => exact ok.2.2

theorem ascending (ok : Ok maxKeys height least lower upper node) : node.keys.Pairwise (· < ·) := by
  match height, node, ok with
  | 0, .leaf _ _ _ _, ok => exact ok.2.1
  | _ + 1, .internal _ _, ok => exact ok.1.ascending fun _ _ _ => gap

theorem keys_between (ok : Ok maxKeys height least lower upper node) :
    ∀ key ∈ node.keys, Above lower key ∧ Below upper key := by
  match height, node, ok with
  | 0, .leaf _ _ _ _, ok => exact ok.2.2.2.1
  | _ + 1, .internal _ _, ok =>
    intro key mem
    obtain ⟨behind, ahead⟩ := ok.1.gaps (fun _ _ _ => gap) key mem
    exact ⟨behind.above (le_refl key), ahead.below (le_refl key)⟩

end Ok

theorem balanced_of_ok {maxKeys height fresh : Nat}
    (top : Ok maxKeys height 1 none none root) (chained : Chained fresh root.links) :
    Balanced maxKeys root where
  few := fun occurs => by
    obtain ⟨_, _, _, _, _, _, ok, _⟩ := occurs.ok top
    exact ok.few
  enough := fun occurs deep => by
    obtain ⟨_, _, _, _, _, least, ok, _⟩ := occurs.ok top
    exact least deep ▸ ok.least_le
  ascending := fun occurs => by
    obtain ⟨_, _, _, _, _, _, ok, _⟩ := occurs.ok top
    exact ok.ascending
  arity := fun occurs => by
    obtain ⟨below, _, _, _, _, _, ok, _⟩ := occurs.ok top
    match below, ok with
    | _ + 1, ok => exact ok.1.length_children
  between := fun occurs key mem => by
    obtain ⟨_, _, _, _, _, _, ok, lowers, uppers⟩ := occurs.ok top
    obtain ⟨above, below⟩ := ok.keys_between key mem
    exact ⟨lowers key above, uppers key below⟩
  level := ⟨height, fun occurs => by
    obtain ⟨below, _, _, _, level, _, ok, _⟩ := occurs.ok top
    match below, ok with
    | 0, ok => exact ⟨by omega, ok.2.2.1⟩⟩
  distinct := chained.distinct
  chain := chained.walk_eq

/-! ## Calls and runs -/

inductive Call where
  | set (key value : Bytes)
  | delete (key : Bytes)

/-- One call; `none` is a panic. -/
def Tree.call (t : Tree) : Call → Option Tree
  | .set key value => t.set key value
  | .delete key => (t.delete key).map Prod.fst

/-- The tree after a sequence of calls. -/
def Tree.run (t : Tree) : List Call → Option Tree
  | [] => some t
  | call :: calls => do
    let next ← t.call call
    next.run calls

/-- An empty tree. -/
def Tree.empty (maxKeys : Nat) : Tree := ⟨none, maxKeys, 0⟩

/-- What the tree stores, in order. -/
def Tree.entries (t : Tree) : List (Binding Bytes Bytes) :=
  match t.root with
  | none => []
  | some root => root.entries

/-- What holds of the tree between calls. -/
structure Tree.Sound (t : Tree) (maxKeys : Nat) : Prop where
  limit : t.limit = maxKeys
  root : ∀ root, t.root = some root →
    (∃ height, Ok maxKeys height 1 none none root) ∧ Chained t.fresh root.links

namespace Tree.Sound

variable {t : Tree} {maxKeys : Nat}

/-- A tree with a stored limit, given by its root. -/
theorem of_root {root : Node} {fresh height : Nat} (two : 2 ≤ maxKeys)
    (ok : Ok maxKeys height 1 none none root) (chained : Chained fresh root.links) :
    (⟨some root, maxKeys, fresh⟩ : Tree).Sound maxKeys where
  limit := if_neg (Nat.ne_of_gt (Nat.lt_of_lt_of_le (by decide) two))
  root := by
    rintro _ isRoot
    obtain rfl := some.inj isRoot
    exact ⟨⟨height, ok⟩, chained⟩

theorem set (sound : t.Sound maxKeys) (two : 2 ≤ maxKeys) (key value : Bytes) :
    ∃ next, t.set key value = some next ∧ next.Sound maxKeys ∧
      next.entries = SortedMap.put key value t.entries := by
  rw [Tree.set, Tree.entries, sound.limit]
  cases shape : t.root with
  | none =>
    have ok : Ok maxKeys 0 1 none none (.leaf t.fresh [key] [value] none) :=
      ⟨nofun, pairwise_singleton _ _, rfl, fun _ _ => ⟨above_none _, below_none _⟩,
        Nat.le_refl 1, (by decide : 1 ≤ 2).trans two⟩
    refine ⟨_, rfl, of_root two ok ?_, entries_leaf t.fresh _ _ none⟩
    rw [links_leaf]
    exact ⟨⟨rfl, trivial⟩, nodup_singleton _, by simp⟩
  | some root =>
    obtain ⟨⟨height, ok⟩, chained⟩ := sound.root root shape
    obtain ⟨inserted, result, fits, entries, links⟩ :=
      @insert_spec maxKeys t.fresh key value two height 1 none none root ok (above_none _)
        (below_none _)
    dsimp only
    rw [result]
    cases inserted with
    | whole node =>
      refine ⟨⟨some node, maxKeys, t.fresh + 1⟩, rfl, of_root two fits (chained.split ?_), ?_⟩
      · simpa [Inserted.nodes] using links
      · simpa [Inserted.nodes, Tree.entries] using entries
    | halves split =>
      have ok : Ok maxKeys (height + 1) 1 none none
          (.internal [split.key] [split.left, split.right]) :=
        ⟨fits, Nat.le_refl 1, (by decide : 1 ≤ 2).trans two⟩
      refine ⟨_, rfl, of_root two ok (chained.split ?_),
        (entries_internal [split.key] _).trans entries⟩
      rw [links_internal]
      exact links

theorem delete (sound : t.Sound maxKeys) (two : 2 ≤ maxKeys) (key : Bytes) :
    ∃ next found, t.delete key = some (next, found) ∧ next.Sound maxKeys ∧
      next.entries = SortedMap.erase key t.entries ∧
      (found = true ↔ ∃ entry ∈ t.entries, entry.key = key) := by
  rw [Tree.delete, Tree.entries]
  cases shape : t.root with
  | none => exact ⟨t, false, rfl, sound, by rw [Tree.entries, shape]; rfl, by simp⟩
  | some root =>
    obtain ⟨⟨height, ok⟩, chained⟩ := sound.root root shape
    dsimp only
    rw [Tree.minKeys, sound.limit]
    rcases deleteFrom_spec two ok (Nat.le_refl 1) (above_none key) (below_none key) with
      ⟨result, absent⟩ | ⟨newRoot, result, deletes⟩
    · rw [result]
      refine ⟨t, false, rfl, sound, ?_, by simpa [Node.Holds] using absent⟩
      rw [Tree.entries, shape]
      exact (SortedMap.erase_of_absent fun entry mem same => absent ⟨entry, mem, same⟩).symm
    · rw [result]
      have chainedNew := chained.merge deletes.links
      have present : true = true ↔ ∃ entry ∈ root.entries, entry.key = key :=
        ⟨fun _ => deletes.present, fun _ => rfl⟩
      dsimp only [bind_eq_bind, bind_some]
      by_cases empty : newRoot.keys.length = 0
      · rw [if_pos empty]
        match height, newRoot, deletes.ok, deletes.entries with
        | 0, .leaf _ keys _ _, _, entries =>
          refine ⟨{ t with root := none }, true, rfl, ⟨sound.limit, nofun⟩, ?_, present⟩
          obtain rfl := length_eq_zero_iff.mp empty
          rw [← entries, entries_leaf]
          rfl
        | height + 1, .internal keys children, ⟨forest, _, _⟩, entries =>
          obtain rfl := length_eq_zero_iff.mp empty
          obtain ⟨child, rfl⟩ := length_eq_one_iff.mp forest.length_children
          refine ⟨{ t with root := some child }, true, rfl, ⟨sound.limit, ?_⟩, ?_, present⟩
          · rintro root isRoot
            obtain rfl := some.inj isRoot
            have childOk : Child maxKeys height none none child := forest
            have enough := childOk.least_le
            refine ⟨⟨height, childOk.relax (by omega)⟩, ?_⟩
            rw [links_internal] at chainedNew
            simpa using chainedNew
          · rw [entries_internal] at entries
            simpa [Tree.entries] using entries
      · rw [if_neg empty]
        refine ⟨{ t with root := some newRoot }, true, rfl, ⟨sound.limit, ?_⟩, deletes.entries,
          present⟩
        rintro root isRoot
        obtain rfl := some.inj isRoot
        exact ⟨⟨height, deletes.ok.relax (Nat.pos_of_ne_zero empty)⟩, chainedNew⟩

/-- One call keeps the invariant. -/
theorem call (sound : t.Sound maxKeys) (two : 2 ≤ maxKeys) (call : Call) :
    ∃ next, t.call call = some next ∧ next.Sound maxKeys := by
  cases call with
  | set key value =>
    obtain ⟨next, result, nextSound, -⟩ := sound.set two key value
    exact ⟨next, result, nextSound⟩
  | delete key =>
    obtain ⟨next, found, result, nextSound, -⟩ := sound.delete two key
    exact ⟨next, by rw [Tree.call, result]; rfl, nextSound⟩

/-- A whole run keeps the invariant. -/
theorem run (two : 2 ≤ maxKeys) (calls : List Call) : ∀ {t : Tree}, t.Sound maxKeys →
    ∃ final, t.run calls = some final ∧ final.Sound maxKeys := by
  induction calls with
  | nil => exact fun sound => ⟨_, rfl, sound⟩
  | cons call calls ih =>
    intro t sound
    obtain ⟨next, result, nextSound⟩ := sound.call two call
    obtain ⟨final, rest, finalSound⟩ := ih nextSound
    exact ⟨final, by rw [Tree.run, result]; exact rest, finalSound⟩

end Tree.Sound

/-- No sequence of calls on an empty tree panics, and it leaves no tree or a balanced one
with its leaves in a chain. -/
theorem memory_run_balanced (maxKeys : Nat) (two : 2 ≤ maxKeys) (calls : List Call) :
    ∃ t, (Tree.empty maxKeys).run calls = some t ∧
      ∀ root, t.root = some root → Balanced maxKeys root := by
  have start : (Tree.empty maxKeys).Sound maxKeys := 
    ⟨if_neg (Nat.ne_of_gt (Nat.lt_of_lt_of_le (by decide) two)), nofun⟩
  obtain ⟨t, result, sound⟩ := start.run two calls
  refine ⟨t, result, fun root isRoot => ?_⟩
  obtain ⟨⟨height, ok⟩, chained⟩ := sound.root root isRoot
  exact balanced_of_ok ok chained

theorem memory_run_balanced_two :
    ∃ t, (Tree.empty 2).run [.set [1] [], .set [2] [], .set [3] [], .delete [1]] = some t ∧
      ∀ root, t.root = some root → Balanced 2 root :=
  memory_run_balanced 2 (by decide) _

end GoDatabase.Memory
