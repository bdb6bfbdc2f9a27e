import GoDatabase.Manager.SnapshotSpec
import GoDatabase.Store.Loader
import Mathlib.Data.Finset.Basic

/-!
# What the loader accepts

Pages that the loader accepts store a tree, with every page below the root exactly once.  The
tree respects the occupancy rule, and its root has two items or is a leaf.
-/

namespace GoDatabase

open Library BNode Item
open List

/-! ## Growing page maps -/

/-- A page map that has gained the pages of these trees. -/
structure Gains {h : Nat} (items : List (Item Nat h)) (pages next : PageMap) : Prop where
  stored : ∀ item ∈ items, item.Stored next
  keys : next.keys.Perm (labelsOf items ++ pages.keys)
  kept : ∀ pageID page, pages.lookup pageID = some page → next.lookup pageID = some page

namespace Gains

variable {h : Nat} {pages next : PageMap}

theorem nil (pages : PageMap) : Gains ([] : List (Item Nat h)) pages pages :=
  ⟨nofun, .refl _, fun _ _ found => found⟩

variable {pageID : Nat} {page : BNode} {items : List (Item Nat h)} {state : PageMap}

theorem keys_insert {β : Type} {map : AList fun _ : Nat => β} {value : β} (absent : pageID ∉ map) :
    (map.insert pageID value).keys = pageID :: map.keys := by
  rw [AList.keys_insert, erase_of_not_mem fun mem => absent (AList.mem_keys.mpr mem)]

theorem lookup_insert_kept {node : BNode} (absent : pageID ∉ pages) (other : Nat)
    (page : BNode) (found : pages.lookup other = some page) :
    (pages.insert pageID node).lookup other = some page := by
  rw [AList.lookup_insert_ne]
  · exact found
  · rintro rfl
    exact absent (AList.lookup_isSome.mp (by rw [found]; rfl))

/-- A node is gained with its page and its children. -/
theorem node {tree : Item Nat (h + 1)} (absent : tree.label ∉ pages)
    (valid : ValidPage page (nodeType h) (tree.items.map record))
    (gains : Gains tree.items (pages.insert tree.label page) next) : Gains [tree] pages next where
  stored := by
    intro item mem
    rw [mem_singleton.mp mem]
    exact ⟨⟨page, gains.kept _ _ (AList.lookup_insert _), valid⟩, gains.stored⟩
  keys := by
    have labels : labelsOf [tree] = tree.label :: labelsOf tree.items := append_nil _
    rw [labels]
    refine gains.keys.trans ?_
    rw [keys_insert absent]
    exact perm_middle
  kept := fun other page found => gains.kept other page (lookup_insert_kept absent other page found)

/-- A leaf is gained with its page. -/
theorem leaf {tree : Item Nat 1} (absent : tree.label ∉ pages)
    (valid : ValidPage page nodeTypeLeaf (tree.items.map record)) :
    Gains [tree] pages (pages.insert tree.label page) := by
  refine node absent valid ⟨fun _ _ => trivial, ?_, fun _ _ found => found⟩
  rw [labelsOf_zero]
  exact .refl _

/-- Pages that were there before stay. -/
theorem page_eq (gains : Gains items pages next)
    (known : pageID ∈ pages) : next.page pageID = pages.page pageID := by
  obtain ⟨page, found⟩ := Option.isSome_iff_exists.mp (AList.lookup_isSome.mpr known)
  rw [PageMap.page, PageMap.page, found, gains.kept pageID page found]

theorem concat {item : Item Nat h}
    (gains : Gains items pages state) (last : Gains [item] state next) :
    Gains (items ++ [item]) pages next where
  stored := by
    intro other mem
    rcases mem_append.mp mem with old | new
    · exact (gains.stored other old).mono fun pageID _ => last.kept pageID
    · exact last.stored other new
  keys := by
    have own : labelsOf [item] = item.labels := append_nil _
    have labels : labelsOf (items ++ [item]) = labelsOf items ++ item.labels := by
      rw [labelsOf, flatMap_append, flatMap_singleton]
      rfl
    rw [labels]
    calc next.keys
      _ ~ item.labels ++ state.keys := own ▸ last.keys
      _ ~ item.labels ++ (labelsOf items ++ pages.keys) := gains.keys.append_left _
      _ ~ labelsOf items ++ item.labels ++ pages.keys := by
          rw [← append_assoc]
          exact perm_append_comm.append_right _
  kept := fun other page found => last.kept other page (gains.kept other page found)

/-- The pages of a child are missing until it is gained itself. -/
theorem absent_child {tree : Item Nat (h + 1 + 1)} {idx : Nat}
    (nodup : tree.labels.Nodup) (absent : ∀ pageID ∈ tree.labels, pageID ∉ pages)
    (inside : idx < tree.items.length)
    (gains : Gains (tree.items.take idx) (pages.insert tree.label page) state) :
    ∀ pageID ∈ tree.items[idx].labels, pageID ∉ state := by
  have split : tree.items = tree.items.take idx ++ tree.items[idx] :: tree.items.drop
    (idx + 1) := by
    rw [getElem_cons_drop, take_append_drop]
  have labels : tree.labels = tree.label :: (labelsOf (tree.items.take idx) ++
      (tree.items[idx].labels ++ labelsOf (tree.items.drop (idx + 1)))) := by
    rw [labels_succ]
    conv_lhs => rw [split]
    rw [flatMap_append, flatMap_cons]
    rfl
  intro pageID mem loaded
  have isBelow : pageID ∈ tree.labels :=
    mem_cons_of_mem _ (mem_flatMap.mpr ⟨_, getElem_mem inside, mem⟩)
  rw [labels] at nodup
  obtain ⟨notTop, nodupRest⟩ := nodup_cons.mp nodup
  rcases mem_append.mp (gains.keys.mem_iff.mp (AList.mem_keys.mp loaded)) with earlier | before
  · exact disjoint_of_nodup_append nodupRest earlier (mem_append_left _ mem)
  · rw [keys_insert (absent _ (mem_cons_self ..))] at before
    rcases mem_cons.mp before with rfl | old
    · exact notTop (mem_append_right _ (mem_append_left _ mem))
    · exact absent pageID isBelow (AList.mem_keys.mpr old)

end Gains

namespace Loader

/-! ## One page -/

/-- What `checkNode` checks. -/
structure NodeChecked (lower upper : Option Bytes) (root : Bool) (node : BNode) : Prop where
  valid : validateBNode node = .ok ()
  nonempty : nkeys node ≠ 0
  sentinel : root = true → getKey node 0 = []
  arity : root = true → btype node = nodeTypeInternal → 2 ≤ nkeys node
  first : ∀ key ∈ lower, getKey node 0 = key
  last : ∀ key ∈ upper, getKey node (nkeys node - 1) < key

theorem nbytes_le_of_valid {node : BNode} (valid : validateBNode node = .ok ()) :
    nbytes node ≤ pageSize := by
  have page := validPage_of_valid valid
  rw [page.nbytes_eq]
  exact page.inside

theorem checkNode_ok {pageID : Nat} {lower upper : Option Bytes} {root : Bool} {node : BNode}
    (run : checkNode pageID lower upper root node = .ok ()) :
      NodeChecked lower upper root node := by
  rw [checkNode] at run
  cases valid : validateBNode node with
  | error err =>
    rw [valid] at run
    cases run
  | ok done =>
    simp only [valid, guard_eq_ok, and_true] at run
    obtain ⟨nonempty, -, sentinel, arity, first, last⟩ := run
    refine ⟨valid, nonempty, fun isRoot => ?_, fun isRoot isInternal => ?_, fun key isKey => ?_,
      fun key isKey => ?_⟩
    · by_contra missing
      exact sentinel ⟨isRoot, fun none => missing (length_eq_zero_iff.mp none)⟩
    · exact Nat.le_of_not_lt fun few => arity ⟨isRoot, isInternal, few⟩
    · by_contra ne
      exact first ⟨key, isKey, ne⟩
    · exact lt_of_not_ge fun crosses => last ⟨key, isKey, crosses⟩

theorem checkDepth_ok {depth : Nat} {loading after : Loading}
    (run : checkDepth depth loading = .ok after) : (∀ other ∈ loading.leafDepth, other = depth) ∧
      after = { loading with leafDepth := some depth } := by
  rw [checkDepth] at run
  cases known : loading.leafDepth with
  | none =>
    rw [known] at run
    exact ⟨nofun, (Except.ok.inj run).symm⟩
  | some other =>
    simp only [known, guard_eq_ok, not_not, Except.ok.injEq] at run
    obtain ⟨rfl, rfl⟩ := run
    refine ⟨fun _ isSame => (Option.mem_some_iff.mp isSame).symm, ?_⟩
    rw [← known]

/-- The variables after a page was entered. -/
def enter (pageID : Nat) (node : BNode) (loading : Loading) : Loading :=
  { loading with
    visiting := Insert.insert pageID loading.visiting
    pages := loading.pages.insert pageID node }

section Walk

variable {readPage : Nat → Except GoError Bytes} {count rounds pageID depth : Nat}
  {lower upper : Option Bytes} {root : Bool} {loading next : Loading}

/-- What follows the checks of a page. -/
def below (readPage : Nat → Except GoError Bytes) (count rounds pageID depth : Nat)
    (upper : Option Bytes) (node : BNode) (loading : Loading) : Except GoError Loading :=
  if btype node = nodeTypeLeaf then
    checkDepth depth loading
  else do
    let loading ← (List.range (nkeys node)).foldlM (fun loading idx =>
      walk readPage count rounds (getPtr node idx) (depth + 1) (some (getKey node idx))
        (childUpper node idx upper) false loading) loading
    checkUnderfull loading.pages pageID node (nkeys node) 0
    pure loading

/-- A page that can be entered. -/
structure Entered (readPage : Nat → Except GoError Bytes) (count pageID : Nat)
    (lower upper : Option Bytes) (root : Bool) (loading : Loading) (node : BNode) : Prop where
  positive : pageID ≠ 0
  inside : pageID ≤ count
  unvisited : pageID ∉ loading.visiting
  unloaded : pageID ∉ loading.pages
  read : readPage pageID = .ok node
  checked : NodeChecked lower upper root node

theorem walk_ok
    (run : walk readPage count (rounds + 1) pageID depth lower upper root loading = .ok next) :
    ∃ node after, Entered readPage count pageID lower upper root loading node ∧
      below readPage count rounds pageID depth upper node (enter pageID node loading) = .ok after ∧
      next = { after with visiting := after.visiting.erase pageID } := by
  rw [walk, guard_eq_ok, guard_eq_ok, guard_eq_ok, not_or, Nat.not_lt] at run
  obtain ⟨⟨positive, inside⟩, unvisited, unloaded, run⟩ := run
  cases read : readPage pageID with
  | error err =>
    rw [read] at run
    cases run
  | ok node =>
    rw [read] at run
    dsimp only at run
    rw [bind_ok_iff] at run
    obtain ⟨⟨⟩, checked, run⟩ := run
    have steps :
        (below readPage count rounds pageID depth upper node (enter pageID node loading) >>=
          fun after => pure { after with visiting := after.visiting.erase pageID }) = .ok next := by
      rw [below]
      by_cases isLeaf : btype node = nodeTypeLeaf
      · rw [if_pos isLeaf] at run ⊢
        exact run
      · rw [if_neg isLeaf] at run ⊢
        simp only [bind_assoc, pure_bind] at run ⊢
        exact run
    rw [bind_ok_iff] at steps
    obtain ⟨after, below, last⟩ := steps
    exact ⟨node, after, ⟨positive, inside, unvisited, unloaded, read, checkNode_ok checked⟩, below,
      (Except.ok.inj last).symm⟩

end Walk

/-! ## Soundness -/

/-- Trees beside each other that were loaded one after the other. -/
structure Walked (readPage : Nat → Except GoError Bytes) (count depth : Nat)
    (loading next : Loading) {h : Nat} (trees : List (Item Nat (h + 1))) : Prop where
  gains : Gains trees loading.pages next.pages
  fit : ∀ tree ∈ trees, tree.Fit
  occupied : ∀ tree ∈ trees, Occupied tree.items
  sorted : SortedMap.Sorted (entriesOf trees)
  read : ∀ pageID ∈ labelsOf trees, pageID ≠ 0 ∧ pageID ≤ count ∧
    readPage pageID = .ok (next.pages.page pageID)
  depth_eq : next.leafDepth = if trees.length = 0 then loading.leafDepth else some (depth + h)
  agrees : trees.length ≠ 0 → ∀ other ∈ loading.leafDepth, other = depth + h
  visiting : next.visiting = loading.visiting

/-- The tree below a page that was loaded. -/
structure Subtree (readPage : Nat → Except GoError Bytes) (count depth : Nat)
    (lower upper : Option Bytes) (loading next : Loading) {h : Nat} (tree : Item Nat (h + 1)) :
    Prop where
  walked : Walked readPage count depth loading next [tree]
  first : ∀ key ∈ lower, tree.key = key
  beneath : ∀ bound ∈ upper, ∀ entry ∈ tree.entries, entry.key < bound

section Sound

variable {readPage : Nat → Except GoError Bytes} {count pageID depth h : Nat}
  {lower upper : Option Bytes} {root : Bool} {loading state next after : Loading} {node : BNode}
  {tree : Item Nat (h + 1)} {trees : List (Item Nat (h + 1))}

theorem entriesOf_single : entriesOf [tree] = tree.entries := append_nil _

theorem labelsOf_single : labelsOf [tree] = tree.labels := append_nil _

theorem walked_nil (loading : Loading) :
    Walked readPage count depth loading loading ([] : List (Item Nat (h + 1))) where
  gains := .nil _
  fit := nofun
  occupied := nofun
  sorted := List.Pairwise.nil
  read := nofun
  depth_eq := rfl
  agrees := fun some => absurd rfl some
  visiting := rfl

theorem Walked.concat (walked : Walked readPage count depth loading state trees)
    (last : Walked readPage count depth state next [tree])
    (ascend : ∀ entry ∈ entriesOf trees, ∀ other ∈ tree.entries, entry.key < other.key) :
    Walked readPage count depth loading next (trees ++ [tree]) where
  gains := walked.gains.concat last.gains
  fit := forall_mem_append.mpr ⟨walked.fit, last.fit⟩
  occupied := forall_mem_append.mpr ⟨walked.occupied, last.occupied⟩
  sorted := by
    rw [entriesOf_append]
    refine sorted_append.mpr ⟨walked.sorted, last.sorted, ?_⟩
    rw [entriesOf_single]
    exact ascend
  read := by
    intro pageID mem
    rw [labelsOf, flatMap_append] at mem
    rcases mem_append.mp mem with old | new
    · have known := AList.mem_keys.mpr (walked.gains.keys.mem_iff.mpr (mem_append_left _ old))
      rw [last.gains.page_eq known]
      exact walked.read pageID old
    · exact last.read pageID new
  depth_eq := by
    rw [if_neg (by simp)]
    exact last.depth_eq
  agrees := by
    intro _ other isOther
    by_cases none : trees.length = 0
    · refine last.agrees Nat.one_ne_zero other ?_
      rw [walked.depth_eq, if_pos none]
      exact isOther
    · exact walked.agrees none other isOther
  visiting := last.visiting.trans walked.visiting

theorem Entered.erase_visiting
    (entered : Entered readPage count pageID lower upper root loading node)
    (same : after.visiting = (enter pageID node loading).visiting) :
    after.visiting.erase pageID = loading.visiting := by
  rw [same, enter]
  exact Finset.erase_insert entered.unvisited

theorem page_enter (pageID : Nat) (node : BNode) (loading : Loading) :
    (enter pageID node loading).pages.page pageID = node := by
  rw [PageMap.page, show (enter pageID node loading).pages.lookup pageID = some node from
    AList.lookup_insert _, Option.getD_some]

/-- The keys of a page are below what its last key is below. -/
theorem getKey_lt_of_last (valid : validateBNode node = .ok ()) {bound : Bytes}
    (last : getKey node (nkeys node - 1) < bound) {idx : Nat} (inside : idx < nkeys node) :
    getKey node idx < bound := by
  rcases Nat.lt_or_eq_of_le (Nat.le_sub_one_of_lt inside) with before | same
  · have ascend := pairwise_iff_getElem.mp (validPage_of_valid valid).ascend idx
      (nkeys node - 1) (by simpa using inside) (by simp; omega) before
    rw [getElem_recordsOf, getElem_recordsOf] at ascend
    exact lt_trans ascend last
  · rw [same]
    exact last

/-- A leaf. -/
theorem Entered.leaf (entered : Entered readPage count pageID lower upper root loading node)
    (isLeaf : btype node = nodeTypeLeaf)
    (run : checkDepth depth (enter pageID node loading) = .ok after) :
    ∃ tree : Item Nat 1, tree.label = pageID ∧ Subtree readPage count depth lower upper loading
        { after with visiting := after.visiting.erase pageID } tree := by
  have checked := entered.checked
  obtain ⟨agrees, rfl⟩ := checkDepth_ok run
  have page := page_enter pageID node loading
  have sound : PageSound (enter pageID node loading).pages nodeTypeLeaf pageID := by
    refine ⟨?_, ?_, ?_, ?_⟩
    · rw [page]
      exact checked.valid
    · rw [page]
      exact isLeaf
    · rw [page]
      exact nbytes_le_of_valid checked.valid
    · rw [page]
      exact Nat.pos_of_ne_zero checked.nonempty
  have represents := represents_leaf sound
  have gains := Gains.leaf entered.unloaded (page ▸ represents.stored.page_valid)
  refine ⟨_, rfl, ⟨gains, forall_mem_singleton.mpr represents.fit,
    forall_mem_singleton.mpr trivial, ?_, ?_, rfl, fun _ => agrees,
    entered.erase_visiting rfl⟩, ?_, ?_⟩
  · rw [entriesOf_single]
    exact represents.sorted
  · intro other mem
    rw [labelsOf_single, labels_itemBelow, pagesBelow, mem_singleton] at mem
    rw [mem, page]
    exact ⟨entered.positive, entered.inside, entered.read⟩
  · intro key isKey
    rw [represents.key_eq, label_itemBelow, page]
    exact checked.first key isKey
  · intro bound isBound entry isEntry
    have known := represents.known entry isEntry
    rw [label_itemBelow, keysBelow, page] at known
    obtain ⟨idx, inside, same⟩ := mem_map.mp known
    rw [← same]
    exact getKey_lt_of_last checked.valid (checked.last bound isBound) (mem_range.mp inside)

/-- The children of an internal page that were loaded so far. -/
structure Children (readPage : Nat → Except GoError Bytes) (count depth : Nat)
    (upper : Option Bytes) (node : BNode) (start : Loading) (done : Nat) (state : Loading) {h : Nat}
    (items : List (Item Nat (h + 1))) : Prop where
  records : items.map Item.record = (recordsOf node).take done
  walked : Walked readPage count (depth + 1) start state items
  beneath : ∀ idx, done = idx + 1 → ∀ bound ∈ childUpper node idx upper,
    ∀ entry ∈ entriesOf items, entry.key < bound

section

variable {start : Loading} {done : Nat}

section

variable (children : Children readPage count depth upper node start done state trees)
include children

theorem Children.length_eq (inside : done ≤ nkeys node) : trees.length = done := by
  have length := congrArg List.length children.records
  rw [length_map, length_take, length_recordsOf] at length
  omega

/-- One more child. -/
theorem Children.concat
    (valid : validateBNode node = .ok ()) (isInternal : btype node = nodeTypeInternal)
    (inside : done < nkeys node) (label : tree.label = getPtr node done)
    (subtree : Subtree readPage count (depth + 1) (some (getKey node done))
      (childUpper node done upper) state next tree) :
    Children readPage count depth upper node start (done + 1) next (trees ++ [tree]) := by
  have page := validPage_of_valid valid
  have key : tree.key = getKey node done := subtree.first _ rfl
  have fit := subtree.walked.fit tree (mem_singleton_self _)
  have sorted := subtree.walked.sorted
  rw [entriesOf_single] at sorted
  -- the entries before the child are below its separator
  have before : ∀ entry ∈ entriesOf trees, entry.key < getKey node done := by
    intro entry isEntry
    obtain _ | idx := done
    · have none : trees = [] := length_eq_zero_iff.mp (children.length_eq (Nat.zero_le _))
      rw [none] at isEntry
      exact absurd isEntry not_mem_nil
    · refine children.beneath idx rfl _ ?_ entry isEntry
      rw [childUpper, if_pos inside]
      rfl
  have least : ∀ entry ∈ tree.entries, getKey node done ≤ entry.key := fun entry isEntry =>
    key ▸ key_le_of_mem_entries fit sorted isEntry
  have record : tree.record = recordAt node done := by
    have value := ((page.admissible done (by simpa using inside)).internal isInternal).2
    rw [getElem_recordsOf] at value
    simp only [record, recordAt, label, key, Record.mk.injEq, true_and]
    exact value.symm
  refine ⟨?_, children.walked.concat subtree.walked fun entry isEntry other isOther =>
    lt_of_lt_of_le (before entry isEntry) (least other isOther), ?_⟩
  · rw [map_append, children.records, map_singleton, record,
      take_succ_eq_append_getElem (by simpa using inside), getElem_recordsOf]
  intro idx same bound isBound entry isEntry
  obtain rfl : done = idx := Nat.succ_inj.mp same
  rw [entriesOf_append, entriesOf_single] at isEntry
  rcases mem_append.mp isEntry with old | new
  · obtain ⟨value, isFirst⟩ := mem_entries_of_key fit
    have above := subtree.beneath bound isBound _ isFirst
    rw [key] at above
    exact lt_trans (before entry old) above
  · exact subtree.beneath bound isBound entry new

/-- One more child; all leaves are at the same depth. -/
theorem Children.step {k : Nat} {tree : Item Nat (k + 1)}
    (valid : validateBNode node = .ok ()) (isInternal : btype node = nodeTypeInternal)
    (inside : done < nkeys node) (label : tree.label = getPtr node done)
    (subtree : Subtree readPage count (depth + 1) (some (getKey node done))
      (childUpper node done upper) state next tree) : ∃ more : List (Item Nat (k + 1)),
      Children readPage count depth upper node start (done + 1) next more := by
  have length := children.length_eq (Nat.le_of_lt inside)
  have depth_eq := children.walked.depth_eq
  by_cases first : done = 0
  · -- before the first child its height does not matter
    have none : trees = [] := length_eq_zero_iff.mp (length.trans first)
    have walked := children.walked
    subst none first
    have unread : Walked readPage count (depth + 1) start state ([] : List (Item Nat (k + 1))) :=
      ⟨⟨nofun, walked.gains.keys, walked.gains.kept⟩, nofun, nofun, List.Pairwise.nil, nofun,
        walked.depth_eq, fun some => absurd rfl some, walked.visiting⟩
    have none : Children readPage count depth upper node start 0 state _ := ⟨rfl, unread, nofun⟩
    exact ⟨_, none.concat valid isInternal inside label subtree⟩
  · have sameHeight : h = k := by
      rw [length, if_neg first] at depth_eq
      have agrees := subtree.walked.agrees Nat.one_ne_zero (depth + 1 + h) (by rw [depth_eq]; rfl)
      omega
    subst sameHeight
    exact ⟨_, children.concat valid isInternal inside label subtree⟩

end

end

/-- An internal page whose children were all loaded. -/
theorem Entered.internal (entered : Entered readPage count pageID lower upper root loading node)
    (isInternal : btype node = nodeTypeInternal) {items : List (Item Nat (h + 1))}
    (children : Children readPage count depth upper node (enter pageID node loading) (nkeys node)
      after items) (underfull : checkUnderfull after.pages pageID node (nkeys node) 0 = .ok ()) :
    Subtree readPage count depth lower upper loading
      { after with visiting := after.visiting.erase pageID } (Item.node pageID items) := by
  have checked := entered.checked
  have page := validPage_of_valid checked.valid
  have length := children.length_eq (Nat.le_refl _)
  have walked := children.walked
  have records : items.map record = recordsOf node := by
    rw [children.records, take_of_length_le (Nat.le_of_eq (length_recordsOf node))]
  have valid : ValidPage node (nodeType (h + 1)) (items.map record) := by
    rw [records, show nodeType (h + 1) = btype node from isInternal.symm]
    exact page
  have nonempty : items.length ≠ 0 := length ▸ checked.nonempty
  have gains : Gains [Item.node pageID items] loading.pages after.pages :=
    Gains.node entered.unloaded valid walked.gains
  have found : after.pages.lookup pageID = some node :=
    walked.gains.kept pageID node (AList.lookup_insert _)
  have stored := gains.stored _ (mem_singleton_self _)
  have fit : (Item.node pageID items).Fit :=
    fit_node (fun none => nonempty (by rw [none]; rfl)) valid.pageBytes_le walked.fit
  have key : (Item.node pageID items).key = getKey node 0 := by
    rw [← stored.first_key fit, label_node, PageMap.page, found, Option.getD_some]
  have lastIndex : nkeys node = nkeys node - 1 + 1 := by
    have positive := checked.nonempty
    omega
  have sameDepth : depth + 1 + h = depth + (h + 1) := by omega
  refine ⟨⟨gains, forall_mem_singleton.mpr fit, forall_mem_singleton.mpr
    ⟨(stored.checkUnderfull_iff found).mp underfull, walked.occupied⟩, ?_, ?_, ?_, fun _ => ?_,
    entered.erase_visiting walked.visiting⟩, ?_, ?_⟩
  · rw [entriesOf_single]
    exact walked.sorted
  · intro other mem
    rw [labelsOf_single] at mem
    rcases mem_cons.mp mem with rfl | isBelow
    · rw [show after.pages.page other = node by rw [PageMap.page, found, Option.getD_some]]
      exact ⟨entered.positive, entered.inside, entered.read⟩
    · exact walked.read other isBelow
  · rw [walked.depth_eq, if_neg nonempty, sameDepth]
    rfl
  · rw [← sameDepth]
    exact walked.agrees nonempty
  · intro bound isBound
    rw [key]
    exact checked.first bound isBound
  · intro bound isBound entry isEntry
    refine children.beneath (nkeys node - 1) lastIndex bound ?_ entry isEntry
    rw [childUpper, if_neg (by omega)]
    exact isBound

/-- Where the loader succeeds it has found a tree.  By induction on the rounds; the loop over
the children keeps `Children`. -/
theorem walk_sound : ∀ {rounds pageID depth : Nat} {lower upper : Option Bytes} {root : Bool}
    {loading next : Loading},
    walk readPage count rounds pageID depth lower upper root loading = .ok next →
    ∃ (h : Nat) (tree : Item Nat (h + 1)), tree.label = pageID ∧
      Subtree readPage count depth lower upper loading next tree ∧
      (root = true → tree.key = [] ∧ (h ≠ 0 → 2 ≤ tree.items.length)) := by
  intro rounds
  induction rounds with
  | zero => exact fun run => nomatch run
  | succ rounds ih =>
    intro pageID depth lower upper root loading next walked
    obtain ⟨node, after, entered, run, rfl⟩ := walk_ok walked
    have checked := entered.checked
    have page := validPage_of_valid checked.valid
    -- the facts about a root follow from the page that holds it
    have rooted : ∀ {h : Nat} {tree : Item Nat (h + 1)}, tree.label = pageID →
        Subtree readPage count depth lower upper loading
          { after with visiting := after.visiting.erase pageID } tree →
        (root = true → tree.key = [] ∧ (h ≠ 0 → 2 ≤ tree.items.length)) := by
      intro h tree label subtree isRoot
      have own := mem_singleton_self tree
      have stored := subtree.walked.gains.stored tree own
      have read := (subtree.walked.read pageID (label ▸ mem_cons_self ..)).2.2
      have held : after.pages.page pageID = node :=
        (Except.ok.inj (entered.read.symm.trans read)).symm
      have top := stored.page_valid
      have key := stored.first_key (subtree.walked.fit tree own)
      rw [label, held] at top key
      refine ⟨key ▸ checked.sentinel isRoot, fun inner => ?_⟩
      have count := top.holds.count_eq
      rw [length_map] at count
      obtain ⟨height, rfl⟩ := Nat.exists_eq_succ_of_ne_zero inner
      rw [← count]
      exact checked.arity isRoot top.holds.type_eq
    rw [below] at run
    by_cases isLeaf : btype node = nodeTypeLeaf
    · rw [if_pos isLeaf] at run
      obtain ⟨tree, label, subtree⟩ := entered.leaf isLeaf run
      exact ⟨0, tree, label, subtree, rooted label subtree⟩
    have isInternal := (pageChecked_of_valid checked.valid).typed.resolve_left isLeaf
    rw [if_neg isLeaf, bind_ok_iff] at run
    obtain ⟨state, loop, run⟩ := run
    rw [bind_ok_iff] at run
    obtain ⟨⟨⟩, underfull, last⟩ := run
    obtain rfl := Except.ok.inj last
    obtain ⟨h, items, children⟩ : ∃ (h : Nat) (items : List (Item Nat (h + 1))),
        Children readPage count depth upper node (enter pageID node loading) (nkeys node) state
          items := by
      refine @foldlM_range_ok _ _
        (fun done state => ∃ (h : Nat) (items : List (Item Nat (h + 1))),
          Children readPage count depth upper node (enter pageID node loading) done state items)
        _ _ _ loop ⟨0, [], rfl, walked_nil _, nofun⟩ ?_
      rintro idx state next inside ⟨h, items, children⟩ walked
      obtain ⟨k, tree, label, subtree, -⟩ := ih walked
      exact ⟨k, children.step checked.valid isInternal inside label subtree⟩
    have subtree := entered.internal isInternal children underfull
    exact ⟨h + 1, _, rfl, subtree, rooted rfl subtree⟩

end Sound

end Loader

/-! ## Whole trees -/

/-- What the loader requires of a tree besides its structure. -/
def Root.Accepted : Root → Prop
  | .empty => True
  | .tree held => Occupied held.top.items ∧ (held.height ≠ 0 → 2 ≤ held.top.items.length)

variable {pm : PageManager} {view : FileView}

theorem PageManager.readPage_ok {pageID : Nat} {page : Bytes}
    (read : pm.readPage view pageID = .ok page) :
    pageID ≠ 0 ∧ pageID < pm.nextPageID ∧ pageID ≤ maxPageID ∧ pageID ∉ pm.freePageSet ∧
      view.readAt (pageOffset pageID) pageSize = .ok page := by
  rw [PageManager.readPage, bind_ok_iff] at read
  obtain ⟨⟨⟩, valid, read⟩ := read
  rw [bind_ok_iff] at read
  obtain ⟨offset, found, read⟩ := read
  obtain ⟨positive, inside, notFree⟩ := Managed.validateExistingPageID_ok valid
  obtain ⟨-, small, rfl⟩ := Managed.dataPageOffset_ok found
  exact ⟨positive, inside, small, notFree, read⟩

/-- The loaded pages are those of a tree, which was read from the file. -/
structure Loaded (pm : PageManager) (view : FileView) (pages : PageMap) (tree : Root) : Prop where
  root : tree.pageID = pm.rootPageID
  stored : tree.Stored pages
  keys : pages.keys.Perm tree.labels
  accepted : tree.Accepted
  read : ∀ pageID ∈ tree.labels, pageID ≤ pm.committedPageCount ∧
    pm.readPage view pageID = .ok (pages.page pageID)

theorem loadCommittedPages_sound {pages : PageMap}
    (load : loadCommittedPages pm view = .ok pages) : ∃ tree, Loaded pm view pages tree := by
  rw [loadCommittedPages] at load
  split_ifs at load with empty
  · obtain rfl := Except.ok.inj load
    exact ⟨.empty, empty.symm, trivial, .refl _, trivial, nofun⟩
  rw [bind_ok_iff] at load
  obtain ⟨loading, walked, last⟩ := load
  obtain rfl := Except.ok.inj last
  obtain ⟨h, tree, label, subtree, rooted⟩ := Loader.walk_sound walked
  obtain ⟨key, arity⟩ := rooted rfl
  have walked := subtree.walked
  have mem := mem_singleton_self tree
  have fit := walked.fit tree mem
  have sorted := walked.sorted
  have keys := walked.gains.keys
  rw [Loader.entriesOf_single] at sorted
  rw [Loader.labelsOf_single, show Loader.start.pages.keys = [] from rfl, append_nil] at keys
  obtain ⟨value, rest, entries⟩ := fit.entries_eq_cons
  have nothing := fit.sentinel_value _ (entries ▸ mem_cons_self ..) key
  have sentinel : tree.entries.head? = some ⟨[], []⟩ := by
    rw [entries, key, show value = [] from nothing]
    rfl
  have own := (walked.read tree.label (mem_cons_self ..)).2.2
  have small := (PageManager.readPage_ok own).2.2.1
  have limit : maxPageID < 2 ^ 64 := by decide
  refine ⟨.tree ⟨h, tree, fit, sorted, sentinel⟩, label, ⟨walked.gains.stored tree mem, ?_, ?_⟩,
    keys, ⟨walked.occupied tree mem, arity⟩, ?_⟩
  · rw [label]
    exact Nat.pos_of_ne_zero empty
  · exact Nat.lt_of_le_of_lt small limit
  · intro pageID isLabel
    exact (walked.read pageID (Loader.labelsOf_single ▸ isLabel)).2

end GoDatabase
