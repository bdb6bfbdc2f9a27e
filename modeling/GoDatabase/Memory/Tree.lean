import GoDatabase.Library.Bytes
import GoDatabase.Library.Search

/-!
# The in-memory B+Tree

The pointer-based tree behind the in-memory structure.  Nodes are changed in place, so
an operation maps a node to the node it has become.  A leaf is also reached through the
`next` pointer of the leaf before it: leaves carry an identity, and a pointer is the
identity of its target.  An index or slice bound out of range is a panic, here `none`.
-/

namespace GoDatabase.Memory

open Library

/-- `node`: a leaf has values and a successor, an internal node has children. -/
inductive Node where
  | leaf (id : Nat) (keys values : List Bytes) (next : Option Nat)
  | internal (keys : List Bytes) (children : List Node)

namespace Node

def keys : Node → List Bytes
  | leaf _ keys _ _ => keys
  | internal keys _ => keys

end Node

/-- `tree`: the root, the largest number of keys in a node (zero stands for three), and
the identity that the next leaf will get. -/
structure Tree where
  root : Option Node
  maxKeys : Nat
  fresh : Nat

/-- `n.search`: the first index whose key is not below `key`, and whether it holds `key`. -/
def search (keys : List Bytes) (key : Bytes) : Nat × Bool :=
  let idx := Library.search keys.length fun i => decide (key ≤ keys.getD i [])
  (idx, keys[idx]? = some key)

/-- `n.childIndex`: the first index whose key is above `key`. -/
def childIndex (keys : List Bytes) (key : Bytes) : Nat :=
  Library.search keys.length fun i => decide (key < keys.getD i [])

/-! ## Slices -/

section Slices

variable {α : Type}

/-- `insertString` and `insertNode` -/
def insertAt (values : List α) (idx : Nat) (value : α) : Option (List α) :=
  if idx ≤ values.length then some (values.take idx ++ value :: values.drop idx) else none

/-- `deleteString` and `deleteNode` -/
def deleteAt (values : List α) (idx : Nat) : Option (List α) :=
  if idx < values.length then some (values.take idx ++ values.drop (idx + 1)) else none

/-- `values[idx] = value` -/
def setAt (values : List α) (idx : Nat) (value : α) : Option (List α) :=
  if idx < values.length then some (values.set idx value) else none

/-- `values[:idx]` and `values[idx:]` -/
def cutAt (values : List α) (idx : Nat) : Option (List α × List α) :=
  if idx ≤ values.length then some (values.take idx, values.drop idx) else none

end Slices

/-! ## Set -/

/-- `nodeSplit` -/
structure NodeSplit where
  key : Bytes
  left : Node
  right : Node

/-- What `insert` makes of a node: the node itself, or its two halves. -/
inductive Inserted where
  | whole (node : Node)
  | halves (split : NodeSplit)

def insertIntoLeaf (keys values : List Bytes) (key value : Bytes) :
    Option (List Bytes × List Bytes) :=
  let (idx, found) := search keys key
  if found then do
    let values ← setAt values idx value
    some (keys, values)
  else do
    let keys ← insertAt keys idx key
    let values ← insertAt values idx value
    some (keys, values)

def insertIntoInternal (keys : List Bytes) (children : List Node) (childIdx : Nat)
    (split : NodeSplit) : Option (List Bytes × List Node) := do
  let keys ← insertAt keys childIdx split.key
  let children ← setAt children childIdx split.left
  let children ← insertAt children (childIdx + 1) split.right
  some (keys, children)

/-- `splitLeaf`: the right half is a new leaf between the left half and its successor. -/
def splitLeaf (id : Nat) (keys values : List Bytes) (next : Option Nat) (fresh : Nat) :
    Option NodeSplit := do
  let mid := keys.length / 2
  let (leftKeys, rightKeys) ← cutAt keys mid
  let (leftValues, rightValues) ← cutAt values mid
  let key ← rightKeys[0]?
  some ⟨key, .leaf id leftKeys leftValues (some fresh), .leaf fresh rightKeys rightValues next⟩

def splitInternal (keys : List Bytes) (children : List Node) : Option NodeSplit := do
  let mid := keys.length / 2
  let promoted ← keys[mid]?
  let (_, rightKeys) ← cutAt keys (mid + 1)
  let (leftChildren, rightChildren) ← cutAt children (mid + 1)
  some ⟨promoted, .internal (keys.take mid) leftChildren, .internal rightKeys rightChildren⟩

mutual

/-- `insert` -/
def Node.insert (maxKeys fresh : Nat) (key value : Bytes) : Node → Option Inserted
  | .leaf id keys values next => do
    let (keys, values) ← insertIntoLeaf keys values key value
    if keys.length ≤ maxKeys then
      some (.whole (.leaf id keys values next))
    else do
      let split ← splitLeaf id keys values next fresh
      some (.halves split)
  | .internal keys children => do
    let childIdx := childIndex keys key
    let inserted ← insertChild maxKeys fresh key value childIdx children
    match inserted with
    | .whole child => some (.whole (.internal keys (children.set childIdx child)))
    | .halves childSplit => do
      let (keys, children) ← insertIntoInternal keys children childIdx childSplit
      if keys.length ≤ maxKeys then
        some (.whole (.internal keys children))
      else do
        let split ← splitInternal keys children
        some (.halves split)

/-- `insert` on the child at an index. -/
def insertChild (maxKeys fresh : Nat) (key value : Bytes) : Nat → List Node → Option Inserted
  | _, [] => none
  | 0, child :: _ => child.insert maxKeys fresh key value
  | idx + 1, _ :: children => insertChild maxKeys fresh key value idx children

end

/-- `maxKeys`, with the default for a tree that has none yet. -/
def Tree.limit (t : Tree) : Nat := if t.maxKeys = 0 then 3 else t.maxKeys

def Tree.minKeys (t : Tree) : Nat := t.limit / 2

/-- `tree.set` -/
def Tree.set (t : Tree) (key value : Bytes) : Option Tree :=
  match t.root with
  | none => some ⟨some (.leaf t.fresh [key] [value] none), t.limit, t.fresh + 1⟩
  | some root => do
    let inserted ← root.insert t.limit t.fresh key value
    match inserted with
    | .whole root => some ⟨some root, t.limit, t.fresh + 1⟩
    | .halves split =>
      some ⟨some (.internal [split.key] [split.left, split.right]), t.limit, t.fresh + 1⟩

/-! ## Delete -/

mutual

/-- `minimumKey` -/
def Node.minimumKey : Node → Option Bytes
  | .leaf _ keys _ _ => keys[0]?
  | .internal _ children => firstMinimumKey children

/-- `minimumKey` of the first child. -/
def firstMinimumKey : List Node → Option Bytes
  | [] => none
  | child :: _ => child.minimumKey

end

/-- `rotateFromLeft`.  Siblings are always of one kind: a mixed pair has no values or no children
to take from. -/
def rotateFromLeft (keys : List Bytes) (children : List Node) (childIdx : Nat) : Option Node := do
  let left ← children[childIdx - 1]?
  let child ← children[childIdx]?
  match left, child with
  | .leaf leftID leftKeys leftValues leftNext, .leaf id childKeys childValues next => do
    let last := leftKeys.length - 1
    let key ← leftKeys[last]?
    let value ← leftValues[last]?
    let keys ← setAt keys (childIdx - 1) key
    let children ← setAt children (childIdx - 1)
      (.leaf leftID (leftKeys.take last) (leftValues.take last) leftNext)
    let children ← setAt children childIdx (.leaf id (key :: childKeys) (value :: childValues) next)
    some (.internal keys children)
  | .internal leftKeys leftChildren, .internal childKeys childChildren => do
    let separator ← keys[childIdx - 1]?
    let last := leftKeys.length - 1
    let lastChild := leftChildren.length - 1
    let moved ← leftChildren[lastChild]?
    let key ← leftKeys[last]?
    let keys ← setAt keys (childIdx - 1) key
    let children ← setAt children (childIdx - 1)
      (.internal (leftKeys.take last) (leftChildren.take lastChild))
    let children ← setAt children childIdx
      (.internal (separator :: childKeys) (moved :: childChildren))
    some (.internal keys children)
  | _, _ => none

/-- `rotateFromRight`: the new separator is the first key that the right sibling keeps, for
leaves, and the key it loses, for internal nodes. -/
def rotateFromRight (keys : List Bytes) (children : List Node) (childIdx : Nat) : Option Node := do
  let child ← children[childIdx]?
  let right ← children[childIdx + 1]?
  match child, right with
  | .leaf id childKeys childValues next, .leaf rightID rightKeys rightValues rightNext => do
    let key ← rightKeys[0]?
    let value ← rightValues[0]?
    let rightKeys ← deleteAt rightKeys 0
    let rightValues ← deleteAt rightValues 0
    let separator ← rightKeys[0]?
    let keys ← setAt keys childIdx separator
    let children ← setAt children childIdx
      (.leaf id (childKeys ++ [key]) (childValues ++ [value]) next)
    let children ← setAt children (childIdx + 1) (.leaf rightID rightKeys rightValues rightNext)
    some (.internal keys children)
  | .internal childKeys childChildren, .internal rightKeys rightChildren => do
    let separator ← keys[childIdx]?
    let moved ← rightChildren[0]?
    let key ← rightKeys[0]?
    let keys ← setAt keys childIdx key
    let rightKeys ← deleteAt rightKeys 0
    let rightChildren ← deleteAt rightChildren 0
    let children ← setAt children childIdx
      (.internal (childKeys ++ [separator]) (childChildren ++ [moved]))
    let children ← setAt children (childIdx + 1) (.internal rightKeys rightChildren)
    some (.internal keys children)
  | _, _ => none

/-- `mergeChildren` -/
def mergeChildren (keys : List Bytes) (children : List Node) (leftIdx : Nat) : Option Node := do
  let left ← children[leftIdx]?
  let right ← children[leftIdx + 1]?
  let merged ← match left, right with
    | .leaf id leftKeys leftValues _, .leaf _ rightKeys rightValues rightNext =>
      some (.leaf id (leftKeys ++ rightKeys) (leftValues ++ rightValues) rightNext)
    | .internal leftKeys leftChildren, .internal rightKeys rightChildren => do
      let separator ← keys[leftIdx]?
      some (.internal (leftKeys ++ separator :: rightKeys) (leftChildren ++ rightChildren))
    | _, _ => none
  let children ← setAt children leftIdx merged
  let keys ← deleteAt keys leftIdx
  let children ← deleteAt children (leftIdx + 1)
  some (.internal keys children)

/-- `childIdx > 0 && len(parent.children[childIdx-1].keys) > t.minKeys()` -/
def leftLends (minKeys : Nat) (children : List Node) (childIdx : Nat) : Option Bool :=
  if 0 < childIdx then
    (children[childIdx - 1]?).map fun left => decide (minKeys < left.keys.length)
  else
    some false

/-- `childIdx+1 < len(parent.children) && len(parent.children[childIdx+1].keys) > t.minKeys()` -/
def rightLends (minKeys : Nat) (children : List Node) (childIdx : Nat) : Option Bool :=
  if childIdx + 1 < children.length then
    (children[childIdx + 1]?).map fun right => decide (minKeys < right.keys.length)
  else
    some false

/-- `rebalanceChild` -/
def rebalanceChild (minKeys : Nat) (keys : List Bytes) (children : List Node) (childIdx : Nat) :
    Option Node := do
  if ← leftLends minKeys children childIdx then
    rotateFromLeft keys children childIdx
  else if ← rightLends minKeys children childIdx then
    rotateFromRight keys children childIdx
  else if 0 < childIdx then
    mergeChildren keys children (childIdx - 1)
  else
    mergeChildren keys children childIdx

/-- The separator before the child is set to the smallest key below it, unless the child has
become empty. -/
def refreshSeparator (keys : List Bytes) (childIdx : Nat) (child : Node) : Option (List Bytes) :=
  if 0 < childIdx ∧ 0 < child.keys.length then do
    let least ← child.minimumKey
    setAt keys (childIdx - 1) least
  else
    some keys

/-- What `deleteFromNode` does after the key was removed from a child. -/
def afterDelete (minKeys : Nat) (keys : List Bytes) (children : List Node) (childIdx : Nat)
    (child : Node) : Option Node := do
  let keys ← refreshSeparator keys childIdx child
  let children := children.set childIdx child
  if child.keys.length < minKeys then
    rebalanceChild minKeys keys children childIdx
  else
    some (.internal keys children)

mutual

/-- `deleteFromNode`: the node it has become, or `none` inside if the key was absent. -/
def Node.deleteFrom (minKeys : Nat) (key : Bytes) : Node → Option (Option Node)
  | .leaf id keys values next =>
    let (idx, found) := search keys key
    if found then do
      let keys ← deleteAt keys idx
      let values ← deleteAt values idx
      some (some (.leaf id keys values next))
    else
      some none
  | .internal keys children => do
    let childIdx := childIndex keys key
    let deleted ← deleteFromChild minKeys key childIdx children
    match deleted with
    | none => some none
    | some child => do
      let node ← afterDelete minKeys keys children childIdx child
      some (some node)

/-- `deleteFromNode` on the child at an index. -/
def deleteFromChild (minKeys : Nat) (key : Bytes) : Nat → List Node → Option (Option Node)
  | _, [] => none
  | 0, child :: _ => child.deleteFrom minKeys key
  | idx + 1, _ :: children => deleteFromChild minKeys key idx children

end

/-- `tree.delete`: the tree and whether the key was there. -/
def Tree.delete (t : Tree) (key : Bytes) : Option (Tree × Bool) :=
  match t.root with
  | none => some (t, false)
  | some root => do
    let deleted ← root.deleteFrom t.minKeys key
    match deleted with
    | none => some (t, false)
    | some root =>
      if root.keys.length = 0 then
        match root with
        | .leaf _ _ _ _ => some ({ t with root := none }, true)
        | .internal _ children => do
          let child ← children[0]?
          some ({ t with root := some child }, true)
      else
        some ({ t with root := some root }, true)

end GoDatabase.Memory
