import GoDatabase.Tree.Runs

/-!
# How many pages a call reserves

A call on the tree reserves a bounded number of pages, so that a short run on a new database
never runs out of them.  The shape of the tree then follows from the calls.
-/

namespace GoDatabase

open Library BNode Fallible List

/-! ## Pages reserved by one call -/

/-- The first page that was never used. -/
def Work.reserved (work : Work) : Nat := work.pm.nextPageID

namespace TreeM

/-- The computation reserves at most this many pages. -/
abbrev Reserves {α : Type} (limit : Nat) (computation : TreeM α) : Prop :=
  Adds Work.reserved limit computation

theorem get_reserves (pageID : Nat) : Reserves 0 (get pageID) := by
  intro work
  rw [get]
  cases work.working.lookup pageID with
  | some page => exact Nat.le_refl _
  | none => exact Nat.le_refl _

theorem new_reserves (node : BNode) : Reserves 1 (new node) := by
  intro work
  rw [new]
  cases work.callbackErr with
  | some err => exact Nat.le_succ _
  | none =>
    cases reserved : work.pm.reservePage with
    | error err => exact Nat.le_succ _
    | ok result =>
      obtain ⟨pageID, pm⟩ := result
      rw [PageManager.reservePage] at reserved
      simp only [Fallible.after, Work.reserved]
      split at reserved
      · cases reserved
        exact Nat.le_succ _
      · split at reserved
        · cases reserved
        · cases reserved
          exact Nat.le_refl _

theorem del_reserves (pageID : Nat) : Reserves 0 (del pageID) := by
  intro work
  rw [del]
  dsimp only
  cases work.callbackErr with
  | some err => exact Nat.le_refl _
  | none =>
    cases freed : work.pm.freePage pageID with
    | error err => exact Nat.le_refl _
    | ok pm =>
      rw [PageManager.freePage] at freed
      simp only [Fallible.after, Work.reserved]
      split at freed
      · cases freed
      · split_ifs at freed
        cases freed
        exact Nat.le_refl _

theorem delAll_reserves (pageIDs : List Nat) : Reserves 0 (delAll pageIDs) := by
  induction pageIDs with
  | nil => exact .pure _
  | cons pageID rest ih => exact (del_reserves pageID).bind fun _ => ih

end TreeM

open TreeM

theorem appendChildren_reserves (children : List BNode) : ∀ (updated : BNode) (idx : Nat),
    Reserves children.length (appendChildren updated idx children) := by
  induction children with
  | nil => exact fun updated idx => .pure _
  | cons child rest ih =>
    intro updated idx
    refine ((new_reserves child).bind fun pageID => Adds.lift_bind fun next _ =>
      ih next (idx + 1)).mono ?_
    rw [length_cons, Nat.add_comm]

theorem replaceChild_reserves (parent : BNode) (idx : Nat) (children : List BNode) :
    Reserves children.length (replaceChild parent idx children) := by
  refine Adds.lift_bind fun updated _ => ?_
  exact (appendChildren_reserves children updated idx).bind fun updated => .lift _

/-- A node is split into at most three parts. -/
theorem length_splitLoop (node : BNode) : ∀ (rounds start : Nat) (parts result : List BNode),
    parts.length ≤ 3 → splitLoop node rounds start parts = .ok result → result.length ≤ 3 := by
  intro rounds
  induction rounds with
  | zero =>
    intro start parts result few split
    cases split
    exact few
  | succ rounds ih =>
    intro start parts result few split
    rw [splitLoop] at split
    dsimp only at split
    split_ifs at split
    · simp only [bind_ok_iff] at split
      obtain ⟨part, -, split⟩ := split
      split_ifs at split with many
      exact ih _ _ _ (Nat.le_of_not_lt many) split
    · cases split
      exact few

variable {parts : List BNode} {root : Root} {work : Work}

theorem length_nodeSplit3 {node : BNode} (split : nodeSplit3 node = .ok parts) :
    parts.length ≤ 3 := by
  rw [nodeSplit3] at split
  split_ifs at split
  · simp only [bind_ok_iff] at split
    obtain ⟨fixed, -, same⟩ := split
    cases same
    exact Nat.le_of_ble_eq_true rfl
  · exact length_splitLoop node _ _ _ _ (by decide) split

theorem insertNode_reserves (key value : Bytes) : ∀ (descents : Nat) (node : BNode),
    Reserves (3 * descents) (insertNode key value descents node) := by
  intro descents
  induction descents with
  | zero => exact fun node => .throw _
  | succ descents ih =>
    intro node
    refine Adds.lift_bind fun idx _ => Adds.ite (Adds.ite ?_ ?_) ?_
    · exact Adds.mono (Adds.lift_bind fun updated _ => .pure _) (Nat.zero_le _)
    · exact Adds.mono (Adds.lift_bind fun updated _ => .pure _) (Nat.zero_le _)
    · exact (get_reserves _).after_silent fun child => Adds.lift_bind fun _ _ =>
        (ih child).bind fun updated => Adds.lift_bind fun parts split =>
          ((replaceChild_reserves node idx parts).mono (length_nodeSplit3 split)).bind fun _ =>
            .pure _

theorem growRoot_reserves (few : parts.length ≤ 3) : Reserves 4 (growRoot parts) := by
  have several (parts : List BNode) (few : parts.length ≤ 3) : Reserves 4 (do
      let newRoot ← appendChildren
        (setHeader (zeros pageSize) nodeTypeInternal parts.length) 0 parts
      TreeM.new newRoot) :=
    ((appendChildren_reserves parts _ 0).bind fun newRoot => new_reserves newRoot).mono (by omega)
  rw [growRoot.eq_def]
  split
  · exact (new_reserves _).mono (by decide)
  · exact several _ few

theorem replaceChildrenAfterDelete_reserves (parent : BNode) (idx removeCount : Nat)
    (child : BNode) : Reserves 1 (replaceChildrenAfterDelete parent idx removeCount child) := by
  refine Adds.lift_bind fun updated _ => ?_
  exact (new_reserves child).bind fun childPageID => Adds.lift_bind fun updated _ => .lift _

theorem mergeSibling_reserves (node : BNode) (idx : Nat) (updatedChild : BNode) :
    Reserves 0 (mergeSibling node idx updatedChild) := by
  have left : Reserves 0 (mergeLeft node idx updatedChild) :=
    Adds.ite ((get_reserves _).bind fun left => Adds.lift_bind fun merged _ => .pure _) (.pure _)
  have right : Reserves 0 (mergeRight node idx updatedChild) :=
    Adds.ite ((get_reserves _).bind fun right => Adds.lift_bind fun merged _ => .pure _) (.pure _)
  refine Adds.ite (left.after_silent fun merged => ?_) (.pure _)
  cases merged with
  | some merged => exact .pure _
  | none => exact right

theorem rebalanceChild_reserves (node : BNode) (idx : Nat) (updatedChild : BNode) :
    Reserves 1 (rebalanceChild node idx updatedChild) := by
  refine (mergeSibling_reserves node idx updatedChild).after_silent fun merged => ?_
  cases merged with
  | some merged => exact (replaceChildrenAfterDelete_reserves node _ 2 _).bind fun _ => .pure _
  | none =>
    refine Adds.ite (Adds.mono (Adds.lift_bind fun updated _ => .pure _) (Nat.zero_le _)) ?_
    exact (replaceChildrenAfterDelete_reserves node idx 1 updatedChild).bind fun _ => .pure _

theorem deleteNode_reserves (key : Bytes) : ∀ (descents : Nat) (node : BNode),
    Reserves descents (deleteNode key descents node) := by
  intro descents
  induction descents with
  | zero => exact fun node => .throw _
  | succ descents ih =>
    intro node
    refine Adds.lift_bind fun idx _ => Adds.ite (Adds.ite ?_ ?_) ?_
    · exact Adds.mono (.pure _) (Nat.zero_le _)
    · exact Adds.mono (Adds.lift_bind fun updated _ => .pure _) (Nat.zero_le _)
    · refine (get_reserves _).after_silent fun child => Adds.lift_bind fun _ _ =>
        (ih child).bind fun result => ?_
      cases result with
      | none => exact Adds.mono (.pure _) (Nat.zero_le _)
      | some result => exact (rebalanceChild_reserves node idx result.1).bind fun _ => .pure _

theorem shrinkRoot_reserves (node : BNode) : Reserves 1 (shrinkRoot node) := by
  refine Adds.ite ?_ (Adds.ite ?_ (Adds.ite ?_ (new_reserves node)))
  all_goals exact Adds.mono (.pure _) (Nat.zero_le _)

theorem insert_reserved_le (key value : Bytes) (stored : root.Stored work.working) :
    (Fallible.after (insert root.pageID key value work)).reserved ≤
      work.reserved + (3 * work.working.descents + 4) := by
  by_cases storable : Storable key value
  · cases root with
    | empty =>
      have once : Reserves (3 * work.working.descents + 4) (insert 0 key value) := by
        refine Adds.lift_bind fun _ _ => ?_
        rw [if_pos rfl]
        exact Adds.lift_bind fun node _ => (new_reserves node).mono (by omega)
      exact once work
    | tree held =>
      obtain ⟨page, -, run⟩ := insert_tree storable stored
      rw [run]
      refine ((insertNode_reserves key value _ page).bind fun updated =>
        Adds.lift_bind fun parts split =>
          (growRoot_reserves (length_nodeSplit3 split)).bind fun _ =>
          (delAll_reserves _).bind fun _ => .pure _) work
  · obtain ⟨err, refused⟩ := validateTreeEntry_error storable
    have run : insert root.pageID key value work = .error err work :=
      Fallible.bind_of_error (Fallible.lift_of_error refused work)
    rw [run]
    exact Nat.le_add_right _ _

theorem delete_reserved_le (key : Bytes) (stored : root.Stored work.working) :
    (Fallible.after (delete root.pageID key work)).reserved ≤
      work.reserved + (3 * work.working.descents + 4) := by
  by_cases empty : key.length = 0
  · rw [delete, if_pos empty]
    exact Nat.le_add_right _ _
  by_cases long : maxKeySize < key.length
  · rw [delete, if_neg empty, if_pos long]
    exact Nat.le_add_right _ _
  cases root with
  | empty =>
    rw [delete, if_neg empty, if_neg long, if_pos (show Root.pageID .empty = 0 from rfl)]
    exact Nat.le_add_right _ _
  | tree held =>
    have nonempty : key ≠ [] := fun none => empty (by rw [none]; rfl)
    obtain ⟨page, -, run⟩ := delete_tree nonempty (Nat.le_of_not_lt long) stored
    rw [run]
    refine (Adds.mono (@Adds.bind _ _ _ _ _ 1 _ _ (deleteNode_reserves key _ page) fun result => ?_)
      (by omega)) work
    cases result with
    | none => exact Adds.mono (.pure _) (Nat.zero_le _)
    | some result =>
      exact (shrinkRoot_reserves _).bind fun _ => (delAll_reserves _).bind fun _ => .pure _

/-- What a call reserves is bounded by the number of pages in memory. -/
theorem TreeCall.reserved_le (call : TreeCall) (stored : root.Stored work.working) :
    (Fallible.after (call.run root.pageID work)).reserved ≤
      work.reserved + (3 * work.working.descents + 4) := by
  cases call with
  | insert key value =>
    have bound := insert_reserved_le key value stored
    rw [TreeCall.run]
    cases run : GoDatabase.insert root.pageID key value work with
    | ok newRoot next =>
      rw [run] at bound
      rwa [Fallible.bind_of_ok run]
    | error err next =>
      rw [run] at bound
      rwa [Fallible.bind_of_error run]
  | delete key => exact delete_reserved_le key stored

/-! ## Runs that do not run out of pages -/

theorem Work.Sound.descents_le {live : List Nat} (sound : work.Sound live) :
    work.working.descents ≤ work.reserved + 1 := by
  have below : ∀ pageID ∈ work.working.keys, pageID ∈ List.range work.reserved := by
    intro pageID mem
    have used := sound.used pageID (AList.mem_keys.mp mem)
    exact mem_range.mpr (Nat.lt_of_not_le fun unused => used (.inr unused))
  have few := (subperm_of_subset work.working.nodupKeys below).length_le
  rw [length_range] at few
  exact Nat.succ_le_succ few

namespace TreeCall

/-- The shape of the tree after calls that all change it. -/
def reshapeAll : List TreeCall → Outline → Option Outline
  | [], outline => some outline
  | call :: calls, outline =>
    if call.Admitted then
      match call.reshape outline with
      | .removed next => reshapeAll calls next
      | _ => none
    else
      none

/-- A call that finds enough pages changes the tree as it changes its shape. -/
theorem result_of_room {call : TreeCall} {root : Root} {work : Work} {rest : List Nat}
    {next : Outline} (stored : root.Stored work.working) (sound : work.Sound (root.labels ++ rest))
    (room : 4 * work.reserved + 7 ≤ maxPageID) (admitted : call.Admitted)
    (reshaped : call.reshape root.outline = .removed next) :
    ∃ (updated : Root) (middle after : Work) (obsolete : List Nat),
      call.run root.pageID work = .ok (true, updated.pageID) after ∧
      Replaced root updated work middle after rest obsolete ∧
      updated.bindings = call.updateBindings root.bindings ∧ updated.outline = next ∧
      after.reserved ≤ 4 * work.reserved + 7 := by
  have spec := call.result stored sound
  have bound := call.reserved_le stored
  have few := sound.descents_le
  have limit : (Fallible.after (call.run root.pageID work)).reserved ≤ 4 * work.reserved + 7 := by
    omega
  cases outcome : call.run root.pageID work with
  | ok value after =>
    rw [outcome] at spec limit
    cases spec with
    | absent _ _ outline =>
      rw [reshaped] at outline
      cases outline
    | @changed updated middle _ obsolete replaced bindings _ outline _ =>
      rw [reshaped] at outline
      injection outline with same
      exact ⟨updated, middle, after, obsolete, rfl, replaced, bindings, same.symm, limit⟩
    | gaveUp gaveUp => exact absurd gaveUp.exhausted (Nat.not_lt.mpr (limit.trans room))
  | error err after =>
    rw [outcome] at spec limit
    cases spec with
    | refused _ _ reason =>
      rcases reason with refused | overflow
      · exact absurd admitted refused
      · rw [reshaped] at overflow
        cases overflow
    | failed failed => exact absurd failed.exhausted (Nat.not_lt.mpr (limit.trans room))

end TreeCall

variable {outline : Outline}

/-- The shape of the tree at the end of a run follows from the calls. -/
theorem TreeState.Tracks.run_reshapes (calls : List TreeCall) : ∀ {state : TreeState}
    {root : Root} {rest : List Nat}, state.Tracks root rest →
    4 ^ calls.length * (state.work.reserved + 3) ≤ maxPageID →
    TreeCall.reshapeAll calls root.outline = some outline →
    ∃ last rest, (state.run calls).Tracks last rest ∧ last.outline = outline ∧
      (state.run calls).work.reserved + 3 ≤ 4 ^ calls.length * (state.work.reserved + 3) := by
  induction calls with
  | nil =>
    intro state root rest tracks room reshaped
    exact ⟨root, rest, tracks, Option.some.inj reshaped, by simp [TreeState.run]⟩
  | cons call calls ih =>
    intro state root rest tracks room reshaped
    rw [TreeCall.reshapeAll] at reshaped
    split_ifs at reshaped with admitted
    cases reshape : call.reshape root.outline with
    | absent =>
      rw [reshape] at reshaped
      cases reshaped
    | overflow =>
      rw [reshape] at reshaped
      cases reshaped
    | removed next =>
      rw [reshape] at reshaped
      have power : 1 ≤ 4 ^ calls.length := Nat.one_le_two_pow.trans
        (Nat.pow_le_pow_left (by decide) _)
      rw [length_cons, Nat.pow_succ, Nat.mul_assoc] at room ⊢
      have here : 4 * state.work.reserved + 7 ≤ maxPageID := by
        have := Nat.mul_le_mul_right (4 * (state.work.reserved + 3)) power
        omega
      obtain ⟨updated, middle, after, obsolete, run, replaced, bindings, rfl, limit⟩ :=
        TreeCall.result_of_room tracks.stored tracks.sound here admitted reshape
      rw [tracks.pageID] at run
      obtain ⟨tracksNext, afterwards⟩ := tracks.replaced run replaced bindings
      have grown := Nat.mul_le_mul_left (4 ^ calls.length)
        (show (state.step call).work.reserved + 3 ≤ 4 * (state.work.reserved + 3) by
          rw [afterwards]
          omega)
      obtain ⟨last, lastRest, tracksLast, shape, final⟩ := ih tracksNext (grown.trans room) reshaped
      exact ⟨last, lastRest, tracksLast, shape, final.trans grown⟩

/-- The tree after a short run on an empty database, with enough pages left for another call. -/
theorem emptyDatabase_reshapes {calls : List TreeCall} (few : calls.length ≤ 20)
    (reshaped : TreeCall.reshapeAll calls .empty = some outline) :
    ∃ root rest, (emptyDatabase.run calls).Tracks root rest ∧ root.outline = outline ∧
      4 * (emptyDatabase.run calls).work.reserved + 7 ≤ maxPageID := by
  have power : 4 ^ calls.length ≤ 4 ^ 20 := Nat.pow_le_pow_right (by decide) few
  have addresses : 4 * (4 ^ 20 * 4) ≤ maxPageID := by decide
  have start : emptyDatabase.work.reserved = 1 := rfl
  rw [emptyDatabase] at start ⊢
  obtain ⟨root, rest, tracks, same, limit⟩ :=
    (TreeState.tracks_start sound_emptyDatabase).run_reshapes calls (by rw [start]; omega) reshaped
  refine ⟨root, rest, tracks, same, ?_⟩
  rw [start] at limit
  omega

/-! ## A tree of three leaves -/

/-- The entries after the sentinel. -/
def Outline.bindings : Outline → List Entry
  | .empty => []
  | .tree _ items => (entriesOf items).tail

theorem Root.bindings_outline (root : Root) : root.outline.bindings = root.bindings := by
  cases root with
  | empty => rfl
  | tree held =>
    rw [Root.outline, Item.outline, Outline.bindings, entriesOf_erase]
    rfl

def fourInserts : List TreeCall :=
  [.insert [1] (replicate 3000 0), .insert [2] (replicate 2000 0),
    .insert [3] (replicate 1500 0), .insert [4] (replicate 600 0)]

/-- Four bindings in three leaves: `[1]` beside the sentinel, `[2]` and `[3]`, and `[4]`. -/
def threeLeaves : TreeState := emptyDatabase.run fourInserts

def threeLeavesOutline : Outline :=
  .tree 1 [.node () [.ofEntry ⟨[], []⟩, .ofEntry ⟨[1], replicate 3000 0⟩],
    .node () [.ofEntry ⟨[2], replicate 2000 0⟩, .ofEntry ⟨[3], replicate 1500 0⟩],
    .node () [.ofEntry ⟨[4], replicate 600 0⟩]]

/-- Without `[1]` the sentinel moves to the second leaf. -/
def twoLeavesOutline : Outline :=
  .tree 1 [.node () [.ofEntry ⟨[], []⟩, .ofEntry ⟨[2], replicate 2000 0⟩,
      .ofEntry ⟨[3], replicate 1500 0⟩], .node () [.ofEntry ⟨[4], replicate 600 0⟩]]

theorem delete_threeLeavesOutline :
    (TreeCall.delete [1]).reshape threeLeavesOutline = .removed twoLeavesOutline := by
  decide +kernel

theorem threeLeaves_reshapes : ∃ tree rest, threeLeaves.Tracks tree rest ∧
    tree.outline = threeLeavesOutline ∧ 4 * threeLeaves.work.reserved + 7 ≤ maxPageID := by
  rw [threeLeaves]
  exact emptyDatabase_reshapes (by decide) (by decide +kernel)

/-- A call that changes the three leaves. -/
theorem threeLeaves_call {call : TreeCall} {next : Outline} (admitted : call.Admitted)
    (reshaped : call.reshape threeLeavesOutline = .removed next) : ∃ (tree updated : Root)
      (rest obsolete : List Nat) (middle after : Work),
      threeLeaves.Tracks tree rest ∧ tree.outline = threeLeavesOutline ∧
      call.run threeLeaves.root threeLeaves.work = .ok (true, updated.pageID) after ∧
      Replaced tree updated threeLeaves.work middle after rest obsolete ∧
      updated.outline = next := by
  obtain ⟨tree, rest, tracks, outline, room⟩ := threeLeaves_reshapes
  rw [← outline] at reshaped
  obtain ⟨updated, middle, after, obsolete, run, replaced, -, shape, -⟩ :=
    TreeCall.result_of_room tracks.stored tracks.sound room admitted reshaped
  rw [tracks.pageID] at run
  exact ⟨tree, updated, rest, obsolete, middle, after, tracks, outline, run, replaced, shape⟩

/-- The root page of a stored tree of this shape. -/
theorem Root.Stored.topPage {pages : PageMap} {h : Nat} {items : List (Item Unit h)} :
    ∀ {root : Root}, root.Stored pages → root.outline = .tree h items →
      root.pageID ≠ 0 ∧ pages.lookup root.pageID = some (pages.page root.pageID) ∧
        nkeys (pages.page root.pageID) = items.length
  | .tree held, stored, outline => by
    obtain ⟨page, found, valid⟩ := stored.pages.page
    obtain ⟨rfl, same⟩ := Outline.tree.inj outline
    rw [Root.pageID, PageMap.page_of_lookup found, valid.holds.count_eq, length_map,
      ← eq_of_heq same, length_map]
    exact ⟨stored.nonzero, found, rfl⟩

theorem run_treeInvariant_threeLeaves :
    nkeys (threeLeaves.work.working.page threeLeaves.root) = 3 ∧
      TreeInvariant threeLeaves.work.working threeLeaves.root := by
  obtain ⟨tree, rest, tracks, outline, -⟩ := threeLeaves_reshapes
  constructor
  · rw [← tracks.pageID]
    exact (tracks.stored.topPage outline).2.2
  · rw [threeLeaves, emptyDatabase]
    exact run_treeInvariant sound_emptyDatabase fourInserts

/-- The deletion merges the first two leaves. -/
theorem call_copyOnWrite_merge : ∃ newRoot next,
    (TreeCall.delete [1]).run threeLeaves.root threeLeaves.work = .ok (true, newRoot) next ∧
      next.callbackErr = none ∧
      CopyOnWrite threeLeaves.work threeLeaves.root (.ok (true, newRoot) next) := by
  obtain ⟨tree, updated, rest, obsolete, middle, next, tracks, -, run, replaced, -⟩ :=
    threeLeaves_call (by decide) delete_threeLeavesOutline
  refine ⟨updated.pageID, next, run, replaced.soundNext.clean, ?_⟩
  rw [← run]
  exact call_copyOnWrite tracks.sound tracks.invariant.2.2 tracks.invariant.1 (.delete [1])

end GoDatabase
