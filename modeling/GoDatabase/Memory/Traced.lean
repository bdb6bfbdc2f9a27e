import GoDatabase.Memory.Tree
import GoDatabase.Structures.Interface

/-!
# The in-memory tree with its trace

`internal/btree/trace.go` and the reports in `internal/btree/tree.go`.  With a listening
sink the tree searches with code of its own, and all of `get`, `set` and `delete` report
the nodes that they pass and change.  The reports change no result: `set` and `delete`
are those of `Memory.Tree`.
-/

namespace GoDatabase.Memory

open Library Structures Option

variable {τ : Type} [Sink τ]

def snapshotKeys : Nat := 16

def emitNode (keys : List Bytes) (type : EventType) (key : Bytes) (detail : String)
    (operand : Bytes) : Traced τ Unit :=
  emit ⟨type, "btree-memory", "backing", key, keys.take snapshotKeys, detail, operand⟩

/-- `t.search`: the search of the node, unless a sink listens. -/
def tracedSearch (keys : List Bytes) (key : Bytes) : Traced τ (Nat × Bool) := do
  let sink ← get
  if listening sink then do
    let idx ← searchM keys.length fun i => do
      emitNode keys .comparison key "lower bound: key <= " (keys.getD i [])
      pure (decide (key ≤ keys.getD i []))
    pure (idx, keys[idx]? = some key)
  else
    pure (search keys key)

/-- `t.childIndex` -/
def tracedChildIndex (keys : List Bytes) (key : Bytes) : Traced τ Nat := do
  let sink ← get
  if listening sink then
    searchM keys.length fun i => do
      emitNode keys .comparison key "child selection: key < " (keys.getD i [])
      pure (decide (key < keys.getD i []))
  else
    pure (childIndex keys key)

/-! ## Get -/

mutual

/-- The loop of `get` -/
def Node.tracedGet (key : Bytes) : Node → Traced τ (Option Bytes)
  | .leaf _ keys values _ => do
    emitNode keys .traversal key "visit leaf" []
    let (idx, found) ← tracedSearch keys key
    if found then do
      let value ← StateT.lift values[idx]?
      pure (some value)
    else
      pure none
  | .internal keys children => do
    emitNode keys .traversal key "visit internal node" []
    let idx ← tracedChildIndex keys key
    tracedGetChild key idx children

def tracedGetChild (key : Bytes) : Nat → List Node → Traced τ (Option Bytes)
  | _, [] => StateT.lift none
  | 0, child :: _ => child.tracedGet key
  | idx + 1, _ :: children => tracedGetChild key idx children

end

/-- `tree.get` -/
def Tree.tracedGet (t : Tree) (key : Bytes) : Traced τ (Option Bytes) :=
  match t.root with
  | none => pure none
  | some root => root.tracedGet key

/-! ## Set -/

/-- The reports on the halves of a split node. -/
def emitSplit (split : NodeSplit) (key : Bytes) (left right : String) : Traced τ Inserted := do
  emitNode split.left.keys .split key left []
  emitNode split.right.keys .split key right []
  pure (.halves split)

mutual

/-- `insert` -/
def Node.tracedInsert (maxKeys fresh : Nat) (key value : Bytes) : Node → Traced τ Inserted
  | .leaf id keys values next => do
    emitNode keys .traversal key "visit node for set" []
    let (keys, values) ← StateT.lift (insertIntoLeaf keys values key value)
    emitNode keys .mutation key "store leaf entry" []
    if keys.length ≤ maxKeys then
      pure (.whole (.leaf id keys values next))
    else do
      let split ← StateT.lift (splitLeaf id keys values next fresh)
      emitSplit split key "split leaf: left" "split leaf: right"
  | .internal keys children => do
    emitNode keys .traversal key "visit node for set" []
    let childIdx ← tracedChildIndex keys key
    let inserted ← tracedInsertChild maxKeys fresh key value childIdx children
    match inserted with
    | .whole child => pure (.whole (.internal keys (children.set childIdx child)))
    | .halves childSplit => do
      let (keys, children) ← StateT.lift (insertIntoInternal keys children childIdx childSplit)
      emitNode keys .mutation key "insert separator and child" []
      if keys.length ≤ maxKeys then
        pure (.whole (.internal keys children))
      else do
        let split ← StateT.lift (splitInternal keys children)
        emitSplit split key "split internal node: left" "split internal node: right"

def tracedInsertChild (maxKeys fresh : Nat) (key value : Bytes) :
    Nat → List Node → Traced τ Inserted
  | _, [] => StateT.lift none
  | 0, child :: _ => child.tracedInsert maxKeys fresh key value
  | idx + 1, _ :: children => tracedInsertChild maxKeys fresh key value idx children

end

/-- `tree.set` -/
def Tree.tracedSet (t : Tree) (key value : Bytes) : Traced τ Tree :=
  match t.root with
  | none => do
    emitNode [key] .mutation key "create root leaf" []
    pure ⟨some (.leaf t.fresh [key] [value] none), t.limit, t.fresh + 1⟩
  | some root => do
    let inserted ← root.tracedInsert t.limit t.fresh key value
    match inserted with
    | .whole root => pure ⟨some root, t.limit, t.fresh + 1⟩
    | .halves split => do
      emitNode [split.key] .mutation key "create root after split" []
      pure ⟨some (.internal [split.key] [split.left, split.right]), t.limit, t.fresh + 1⟩

/-! ## Delete -/

mutual

/-- `minimumKey` -/
def Node.tracedMinimumKey : Node → Traced τ Bytes
  | .leaf _ keys _ _ => do
    emitNode keys .traversal [] "read minimum for separator" []
    StateT.lift keys[0]?
  | .internal keys children => do
    emitNode keys .traversal [] "seek minimum for separator" []
    tracedFirstMinimumKey children

def tracedFirstMinimumKey : List Node → Traced τ Bytes
  | [] => StateT.lift none
  | child :: _ => child.tracedMinimumKey

end

/-- `parent.children[idx]` -/
def Node.childAt : Node → Nat → Option Node
  | .leaf _ _ _ _, _ => none
  | .internal _ children, idx => children[idx]?

/-- `emitNode` of a child, which is looked up whether or not a sink listens. -/
def emitChild (parent : Node) (idx : Nat) (type : EventType) (detail : String) : Traced τ Unit := do
  let child ← StateT.lift (parent.childAt idx)
  emitNode child.keys type [] detail []

/-- `mergeChildren` and its reports. -/
def tracedMerge (keys : List Bytes) (children : List Node) (leftIdx : Nat) : Traced τ Node := do
  let parent ← StateT.lift (mergeChildren keys children leftIdx)
  emitChild parent leftIdx .merge "merged siblings"
  emitNode parent.keys .mutation [] "remove merged child" []
  pure parent

/-- `rebalanceChild` -/
def tracedRebalanceChild (minKeys : Nat) (keys : List Bytes) (children : List Node)
    (childIdx : Nat) : Traced τ Node := do
  if ← StateT.lift (leftLends minKeys children childIdx) then do
    let parent ← StateT.lift (rotateFromLeft keys children childIdx)
    emitChild parent (childIdx - 1) .mutation "rotate from left: donor"
    emitChild parent childIdx .mutation "rotate from left: receiver"
    emitNode parent.keys .mutation [] "rotate from left: parent" []
    pure parent
  else if ← StateT.lift (rightLends minKeys children childIdx) then do
    let parent ← StateT.lift (rotateFromRight keys children childIdx)
    emitChild parent (childIdx + 1) .mutation "rotate from right: donor"
    emitChild parent childIdx .mutation "rotate from right: receiver"
    emitNode parent.keys .mutation [] "rotate from right: parent" []
    pure parent
  else if 0 < childIdx then
    tracedMerge keys children (childIdx - 1)
  else
    tracedMerge keys children childIdx

def tracedRefreshSeparator (keys : List Bytes) (childIdx : Nat) (child : Node) (key : Bytes) :
    Traced τ (List Bytes) :=
  if 0 < childIdx ∧ 0 < child.keys.length then do
    let least ← child.tracedMinimumKey
    let keys ← StateT.lift (setAt keys (childIdx - 1) least)
    emitNode keys .mutation key "refresh separator" []
    pure keys
  else
    pure keys

/-- What `deleteFromNode` does after the key was removed from a child. -/
def tracedAfterDelete (minKeys : Nat) (keys : List Bytes) (children : List Node) (childIdx : Nat)
    (child : Node) (key : Bytes) : Traced τ Node := do
  let keys ← tracedRefreshSeparator keys childIdx child key
  let children := children.set childIdx child
  if child.keys.length < minKeys then
    tracedRebalanceChild minKeys keys children childIdx
  else
    pure (.internal keys children)

mutual

/-- `deleteFromNode` -/
def Node.tracedDeleteFrom (minKeys : Nat) (key : Bytes) : Node → Traced τ (Option Node)
  | .leaf id keys values next => do
    emitNode keys .traversal key "visit node for delete" []
    let (idx, found) ← tracedSearch keys key
    if found then do
      let keys ← StateT.lift (deleteAt keys idx)
      let values ← StateT.lift (deleteAt values idx)
      emitNode keys .mutation key "remove leaf entry" []
      pure (some (.leaf id keys values next))
    else
      pure none
  | .internal keys children => do
    emitNode keys .traversal key "visit node for delete" []
    let childIdx ← tracedChildIndex keys key
    let deleted ← tracedDeleteFromChild minKeys key childIdx children
    match deleted with
    | none => pure none
    | some child => do
      let node ← tracedAfterDelete minKeys keys children childIdx child key
      pure (some node)

def tracedDeleteFromChild (minKeys : Nat) (key : Bytes) : Nat → List Node → Traced τ (Option Node)
  | _, [] => StateT.lift none
  | 0, child :: _ => child.tracedDeleteFrom minKeys key
  | idx + 1, _ :: children => tracedDeleteFromChild minKeys key idx children

end

/-- The end of `tree.delete`: a root without keys is replaced by its only child, if any. -/
def Tree.replaceRoot (t : Tree) (root : Node) : Option (Tree × Bool) :=
  match root with
  | .leaf _ _ _ _ => some ({ t with root := none }, true)
  | .internal _ children => do
    let child ← children[0]?
    some ({ t with root := some child }, true)

/-- `tree.delete` -/
def Tree.tracedDelete (t : Tree) (key : Bytes) : Traced τ (Tree × Bool) :=
  match t.root with
  | none => pure (t, false)
  | some root => do
    let deleted ← root.tracedDeleteFrom t.minKeys key
    match deleted with
    | none => pure (t, false)
    | some root =>
      if root.keys.length = 0 then do
        emitNode root.keys .mutation key "remove empty root" []
        StateT.lift (t.replaceRoot root)
      else
        pure ({ t with root := some root }, true)

/-! ## The reports change nothing -/

theorem tracedSearch_erases (keys : List Bytes) (key : Bytes) :
    Erases (tracedSearch keys key : Traced τ _) (some (search keys key)) := by
  refine Erases.whatever fun sink => ?_
  by_cases listens : listening sink = true
  · rw [if_pos listens]
    refine Erases.step (searchM_erases fun idx _ => ?_) (.pure _)
    exact emit_andThen (.pure _)
  · rw [if_neg listens]
    exact .pure _

theorem tracedChildIndex_erases (keys : List Bytes) (key : Bytes) :
    Erases (tracedChildIndex keys key : Traced τ _) (some (childIndex keys key)) := by
  refine Erases.whatever fun sink => ?_
  by_cases listens : listening sink = true
  · rw [if_pos listens]
    refine searchM_erases fun idx _ => ?_
    exact emit_andThen (.pure _)
  · rw [if_neg listens]
    exact .pure _

theorem emitSplit_erases (split : NodeSplit) (key : Bytes) (left right : String) :
    Erases (emitSplit split key left right : Traced τ _) (some (.halves split)) :=
  emit_andThen (emit_andThen (.pure _))

mutual

theorem tracedInsert_erases (maxKeys fresh : Nat) (key value : Bytes) : ∀ node : Node,
    Erases (node.tracedInsert maxKeys fresh key value : Traced τ _)
      (node.insert maxKeys fresh key value)
  | .leaf id keys values next => by
    rw [Node.tracedInsert, Node.insert]
    refine emit_andThen (Erases.bind (.lift _) fun stored => ?_)
    refine emit_andThen (Erases.ite (fun _ => .pure _) fun _ => ?_)
    exact Erases.bind (.lift _) fun split => emitSplit_erases split _ _ _
  | .internal keys children => by
    rw [Node.tracedInsert, Node.insert]
    refine emit_andThen ?_
    refine Erases.step (tracedChildIndex_erases keys key) ?_
    refine Erases.bind (tracedInsertChild_erases maxKeys fresh key value _ children)
      fun inserted => ?_
    cases inserted with
    | whole child => exact .pure _
    | halves childSplit =>
      refine Erases.bind (.lift _) fun grown => ?_
      refine emit_andThen
        (Erases.ite (fun _ => .pure _) fun _ => ?_)
      exact Erases.bind (.lift _) fun split => emitSplit_erases split _ _ _

theorem tracedInsertChild_erases (maxKeys fresh : Nat) (key value : Bytes) :
    ∀ (idx : Nat) (children : List Node),
      Erases (tracedInsertChild maxKeys fresh key value idx children : Traced τ _)
        (insertChild maxKeys fresh key value idx children)
  | _, [] => by
    rw [tracedInsertChild, insertChild]
    exact .lift none
  | 0, child :: _ => by
    rw [tracedInsertChild, insertChild]
    exact tracedInsert_erases maxKeys fresh key value child
  | idx + 1, _ :: children => by
    rw [tracedInsertChild, insertChild]
    exact tracedInsertChild_erases maxKeys fresh key value idx children

end

theorem tracedSet_erases (t : Tree) (key value : Bytes) :
    Erases (t.tracedSet key value : Traced τ _) (t.set key value) := by
  rw [Tree.tracedSet, Tree.set]
  cases t.root with
  | none => exact emit_andThen (.pure _)
  | some root =>
    refine Erases.bind (tracedInsert_erases _ _ _ _ root) fun inserted => ?_
    cases inserted with
    | whole root => exact .pure _
    | halves split => exact emit_andThen (.pure _)

mutual

theorem tracedMinimumKey_erases : ∀ node : Node,
    Erases (node.tracedMinimumKey : Traced τ _) node.minimumKey
  | .leaf id keys values next => by
    rw [Node.tracedMinimumKey, Node.minimumKey]
    exact emit_andThen (.lift _)
  | .internal keys children => by
    rw [Node.tracedMinimumKey, Node.minimumKey]
    exact emit_andThen (tracedFirstMinimumKey_erases children)

theorem tracedFirstMinimumKey_erases : ∀ children : List Node,
    Erases (tracedFirstMinimumKey children : Traced τ _) (firstMinimumKey children)
  | [] => by
    rw [tracedFirstMinimumKey, firstMinimumKey]
    exact .lift none
  | child :: _ => by
    rw [tracedFirstMinimumKey, firstMinimumKey]
    exact tracedMinimumKey_erases child

end

variable {α : Type} {idx : Nat}

theorem setAt_eq_some {values result : List α} {value : α}
    (changed : setAt values idx value = some result) :
    idx < values.length ∧ result.length = values.length := by
  rw [setAt] at changed
  by_cases inside : idx < values.length
  · rw [if_pos inside] at changed
    obtain rfl := some.inj changed
    exact ⟨inside, List.length_set⟩
  · rw [if_neg inside] at changed
    cases changed

/-- A rotation leaves a parent with as many children. -/
def Keeps (children : List Node) (parent : Node) : Prop :=
  ∃ keys after, parent = .internal keys after ∧ after.length = children.length

variable {children : List Node} {parent : Node} {keys : List Bytes} {childIdx : Nat}

theorem Keeps.childAt (keeps : Keeps children parent)
    (inside : idx < children.length) : ∃ child, parent.childAt idx = some child := by
  obtain ⟨keys, after, rfl, length⟩ := keeps
  exact ⟨after[idx], List.getElem?_eq_getElem (length ▸ inside)⟩

theorem rotateFromLeft_keeps (rotated : rotateFromLeft keys children childIdx = some parent) :
    Keeps children parent ∧ childIdx - 1 < children.length ∧ childIdx < children.length := by
  simp only [rotateFromLeft, bind_eq_bind, bind_eq_some_iff] at rotated
  obtain ⟨left, atLeft, child, atChild, rotated⟩ := rotated
  have leftInside := (List.getElem?_eq_some_iff.mp atLeft).1
  have childInside := (List.getElem?_eq_some_iff.mp atChild).1
  refine ⟨?_, leftInside, childInside⟩
  cases left with
  | leaf _ _ _ _ =>
    cases child with
    | leaf _ _ _ _ =>
      simp only [bind_eq_some_iff] at rotated
      obtain ⟨_, _, _, _, _, _, first, setFirst, second, setSecond, same⟩ := rotated
      obtain rfl := some.inj same
      exact ⟨_, _, rfl, (setAt_eq_some setSecond).2.trans (setAt_eq_some setFirst).2⟩
    | internal _ _ => cases rotated
  | internal _ _ =>
    cases child with
    | leaf _ _ _ _ => cases rotated
    | internal _ _ =>
      simp only [bind_eq_some_iff] at rotated
      obtain ⟨_, _, _, _, _, _, _, _, first, setFirst, second, setSecond, same⟩ := rotated
      obtain rfl := some.inj same
      exact ⟨_, _, rfl, (setAt_eq_some setSecond).2.trans (setAt_eq_some setFirst).2⟩

theorem rotateFromRight_keeps (rotated : rotateFromRight keys children childIdx = some parent) :
    Keeps children parent ∧ childIdx < children.length ∧ childIdx + 1 < children.length := by
  simp only [rotateFromRight, bind_eq_bind, bind_eq_some_iff] at rotated
  obtain ⟨child, atChild, right, atRight, rotated⟩ := rotated
  have childInside := (List.getElem?_eq_some_iff.mp atChild).1
  have rightInside := (List.getElem?_eq_some_iff.mp atRight).1
  refine ⟨?_, childInside, rightInside⟩
  cases child with
  | leaf _ _ _ _ =>
    cases right with
    | leaf _ _ _ _ =>
      simp only [bind_eq_some_iff] at rotated
      obtain ⟨_, _, _, _, _, _, _, _, _, _, _, _, first, setFirst, second, setSecond, same⟩ :=
        rotated
      obtain rfl := some.inj same
      exact ⟨_, _, rfl, (setAt_eq_some setSecond).2.trans (setAt_eq_some setFirst).2⟩
    | internal _ _ => cases rotated
  | internal _ _ =>
    cases right with
    | leaf _ _ _ _ => cases rotated
    | internal _ _ =>
      simp only [bind_eq_some_iff] at rotated
      obtain ⟨_, _, _, _, _, _, _, _, _, _, _, _, first, setFirst, second, setSecond, same⟩ :=
        rotated
      obtain rfl := some.inj same
      exact ⟨_, _, rfl, (setAt_eq_some setSecond).2.trans (setAt_eq_some setFirst).2⟩

/-- The merged child stands at the index of the left one. -/
theorem mergeChildren_childAt {leftIdx : Nat}
    (merged : mergeChildren keys children leftIdx = some parent) :
    ∃ child, parent.childAt leftIdx = some child := by
  have written : ∀ {node : Node} {keys : List Bytes} {first second : List Node},
      setAt children leftIdx node = some first → deleteAt first (leftIdx + 1) = some second →
        ∃ child, (Node.internal keys second).childAt leftIdx = some child := by
    intro node keys first second placed removed
    obtain ⟨inside, length⟩ := setAt_eq_some placed
    rw [deleteAt] at removed
    by_cases more : leftIdx + 1 < first.length
    · rw [if_pos more] at removed
      obtain rfl := some.inj removed
      refine ⟨_, List.getElem?_eq_getElem ?_⟩
      simp only [List.length_append, List.length_take, List.length_drop]
      omega
    · rw [if_neg more] at removed
      cases removed
  simp only [mergeChildren, bind_eq_bind, bind_eq_some_iff] at merged
  obtain ⟨left, -, right, -, merged⟩ := merged
  cases left with
  | leaf _ _ _ _ =>
    cases right with
    | leaf _ _ _ _ =>
      simp only [bind_some, bind_eq_some_iff] at merged
      obtain ⟨first, placed, _, _, second, removed, same⟩ := merged
      obtain rfl := some.inj same
      exact written placed removed
    | internal _ _ => cases merged
  | internal _ _ =>
    cases right with
    | leaf _ _ _ _ => cases merged
    | internal _ _ =>
      simp only [bind_some, bind_eq_some_iff] at merged
      obtain ⟨_, _, first, placed, _, _, second, removed, same⟩ := merged
      obtain rfl := some.inj same
      exact written placed removed

omit [Sink τ] in
/-- Reports on a result that is returned afterwards. -/
theorem reported_erases {result : Option α} {next : α → Traced τ α}
    (reports : ∀ value, result = some value → Erases (next value) (some value)) :
    Erases (StateT.lift result >>= next) result := by
  cases result with
  | none => exact fun _ => rfl
  | some value => exact Erases.step (.lift (some value)) (reports value rfl)

theorem emitChild_erases (type : EventType) (detail : String)
    (here : ∃ child, parent.childAt idx = some child) :
    Erases (emitChild parent idx type detail : Traced τ Unit) (some ()) := by
  obtain ⟨child, found⟩ := here
  rw [emitChild, found]
  exact Erases.step (.lift (some child)) (emit_erases _)

theorem tracedMerge_erases (keys : List Bytes) (children : List Node) (leftIdx : Nat) :
    Erases (tracedMerge keys children leftIdx : Traced τ _)
      (mergeChildren keys children leftIdx) := by
  refine reported_erases fun parent merged => ?_
  exact Erases.andThen (emitChild_erases _ _ (mergeChildren_childAt merged))
    (emit_andThen (.pure _))

theorem tracedRebalanceChild_erases (minKeys : Nat) (keys : List Bytes) (children : List Node)
    (childIdx : Nat) : Erases (tracedRebalanceChild minKeys keys children childIdx : Traced τ _)
      (rebalanceChild minKeys keys children childIdx) := by
  rw [tracedRebalanceChild, rebalanceChild]
  refine Erases.bind (.lift _) fun left => Erases.ite (fun _ => ?_) fun _ => ?_
  · refine reported_erases fun parent rotated => ?_
    obtain ⟨keeps, donor, receiver⟩ := rotateFromLeft_keeps rotated
    exact Erases.andThen (emitChild_erases _ _ (keeps.childAt donor))
      (Erases.andThen (emitChild_erases _ _ (keeps.childAt receiver))
        (emit_andThen (.pure _)))
  · refine Erases.bind (.lift _) fun right => Erases.ite (fun _ => ?_) fun _ => ?_
    · refine reported_erases fun parent rotated => ?_
      obtain ⟨keeps, receiver, donor⟩ := rotateFromRight_keeps rotated
      exact Erases.andThen (emitChild_erases _ _ (keeps.childAt donor))
        (Erases.andThen (emitChild_erases _ _ (keeps.childAt receiver))
          (emit_andThen (.pure _)))
    · exact Erases.ite (fun _ => tracedMerge_erases _ _ _) fun _ => tracedMerge_erases _ _ _

theorem tracedAfterDelete_erases (minKeys : Nat) (keys : List Bytes) (children : List Node)
    (childIdx : Nat) (child : Node) (key : Bytes) :
    Erases (tracedAfterDelete minKeys keys children childIdx child key : Traced τ _)
      (afterDelete minKeys keys children childIdx child) := by
  rw [tracedAfterDelete, afterDelete]
  have refreshed : Erases (tracedRefreshSeparator keys childIdx child key : Traced τ _)
      (refreshSeparator keys childIdx child) := by
    rw [tracedRefreshSeparator, refreshSeparator]
    refine Erases.ite (fun _ => ?_) fun _ => .pure _
    refine Erases.bind (tracedMinimumKey_erases child) fun least => ?_
    exact reported_erases fun keys _ => emit_andThen (.pure _)
  refine refreshed.bind fun keys => ?_
  exact Erases.ite (fun _ => tracedRebalanceChild_erases _ _ _ _) fun _ => .pure _

mutual

theorem tracedDeleteFrom_erases (minKeys : Nat) (key : Bytes) : ∀ node : Node,
    Erases (node.tracedDeleteFrom minKeys key : Traced τ _) (node.deleteFrom minKeys key)
  | .leaf id keys values next => by
    rw [Node.tracedDeleteFrom, Node.deleteFrom]
    refine emit_andThen ?_
    refine Erases.step (tracedSearch_erases keys key) (Erases.ite (fun _ => ?_) fun _ => .pure _)
    refine Erases.bind (.lift _) fun keys => Erases.bind (.lift _) fun values => ?_
    exact emit_andThen (.pure _)
  | .internal keys children => by
    rw [Node.tracedDeleteFrom, Node.deleteFrom]
    refine emit_andThen ?_
    refine Erases.step (tracedChildIndex_erases keys key) ?_
    refine Erases.bind (tracedDeleteFromChild_erases minKeys key _ children) fun deleted => ?_
    cases deleted with
    | none => exact .pure _
    | some child =>
      exact Erases.bind (tracedAfterDelete_erases _ _ _ _ child key) fun node => .pure _

theorem tracedDeleteFromChild_erases (minKeys : Nat) (key : Bytes) :
    ∀ (idx : Nat) (children : List Node),
      Erases (tracedDeleteFromChild minKeys key idx children : Traced τ _)
        (deleteFromChild minKeys key idx children)
  | _, [] => by
    rw [tracedDeleteFromChild, deleteFromChild]
    exact .lift none
  | 0, child :: _ => by
    rw [tracedDeleteFromChild, deleteFromChild]
    exact tracedDeleteFrom_erases minKeys key child
  | idx + 1, _ :: children => by
    rw [tracedDeleteFromChild, deleteFromChild]
    exact tracedDeleteFromChild_erases minKeys key idx children

end

theorem tracedDelete_erases (t : Tree) (key : Bytes) :
    Erases (t.tracedDelete key : Traced τ _) (t.delete key) := by
  rw [Tree.tracedDelete, Tree.delete]
  cases t.root with
  | none => exact .pure _
  | some root =>
    refine Erases.bind (tracedDeleteFrom_erases _ _ root) fun deleted => ?_
    cases deleted with
    | none => exact .pure _
    | some root =>
      refine Erases.ite (fun _ => ?_) fun _ => .pure _
      refine emit_andThen ?_
      cases root with
      | leaf _ _ _ _ => exact .lift _
      | internal _ children => exact .lift _

end GoDatabase.Memory
