import GoDatabase.Library.Search
import GoDatabase.Library.SortedMap
import GoDatabase.Tree.Callbacks

/-!
# The persistent B+Tree on encoded nodes

`internal/btree/page_tree.go`.  Readers take the page map; the two mutations run
under the callbacks of an update and return the new root, which the caller stores
only if there was no error.

The loops and recursions over child pages take the number of descents they may
still make.  Go would follow a cyclic page map forever; here the descent then ends
with `errEndlessDescent`.
-/

namespace GoDatabase

open Library BNode

/-- `treeEntry` -/
abbrev Entry := Binding Bytes Bytes

/-- Stands for a descent that never returns. -/
def errEndlessDescent : GoError := .sentinel "endless descent through a cyclic page map"

/-- The page under an identifier, `nil` if there is none. -/
def PageMap.page (pages : PageMap) (pageID : Nat) : BNode := (pages.lookup pageID).getD []

/-- More descents than a tree on these pages can need. -/
def PageMap.descents (pages : PageMap) : Nat := pages.keys.length + 1

/-- `validateBNode` with the error wrapped. -/
def validatePage (format : String) (args : List ErrorArg) (node : BNode) : Except GoError Unit :=
  match validateBNode node with
  | .error err => .error (.wrap format args err)
  | .ok () => .ok ()

/-- The index of the last key that is at most `key`. -/
def nodeLookupLE (node : BNode) (key : Bytes) : Except GoError Nat :=
  let idx := search (nkeys node) fun i => key < getKey node i
  if idx = 0 then
    .error (.errorf "node does not contain lower bound for key" [])
  else
    .ok (idx - 1)

/-! ## Point lookup -/

/-- The descent of `getValue`. -/
def getValueLoop (pages : PageMap) (key : Bytes) :
    (descents : Nat) → BNode → Except GoError (Option Bytes)
  | 0, _ => .error errEndlessDescent
  | descents + 1, node => do
    validatePage "read page: %w" [] node
    let idx ← nodeLookupLE node key
    if btype node = nodeTypeLeaf then
      if getKey node idx ≠ key then
        return none
      else
        return some (getVal node idx)
    else
      getValueLoop pages key descents (pages.page (getPtr node idx))

def getValue (pages : PageMap) (root : Nat) (key : Bytes) : Except GoError (Option Bytes) :=
  if key.length = 0 then
    .error (.errorf "key is empty" [])
  else if root = 0 then
    .ok none
  else
    getValueLoop pages key pages.descents (pages.page root)

/-! ## Range scan -/

/-- `pageTreeCursorFrame` -/
structure CursorFrame where
  node : BNode
  childIdx : Nat

/-- The descent of `seekRangeStart`.  The path is a stack, its top first. -/
def seekLoop (pages : PageMap) (start : Bytes) :
    (descents : Nat) → BNode → List CursorFrame → Except GoError (BNode × Nat × List CursorFrame)
  | 0, _, _ => .error errEndlessDescent
  | descents + 1, node, path => do
    validatePage "read range page: %w" [] node
    if btype node = nodeTypeLeaf then
      return (node, search (nkeys node) fun i => start ≤ getKey node i, path)
    else
      let idx ← nodeLookupLE node start
      seekLoop pages start descents (pages.page (getPtr node idx)) (⟨node, idx⟩ :: path)

def seekRangeStart (pages : PageMap) (root : Nat) (start : Bytes) :
    Except GoError (BNode × Nat × List CursorFrame) :=
  seekLoop pages start pages.descents (pages.page root) []

/-- The descent of `nextLeaf` along first children. -/
def descendFirst (pages : PageMap) :
    (descents : Nat) → BNode → List CursorFrame → Except GoError (BNode × List CursorFrame)
  | 0, _, _ => .error errEndlessDescent
  | descents + 1, node, path => do
    validatePage "read range page: %w" [] node
    if btype node = nodeTypeLeaf then
      return (node, path)
    else
      descendFirst pages descents (pages.page (getPtr node 0)) (⟨node, 0⟩ :: path)

/-- The leaf after the one that a path leads to. -/
def nextLeaf (pages : PageMap) : List CursorFrame →
    Except GoError (Option (BNode × List CursorFrame))
  | [] => .ok none
  | frame :: path =>
    if nkeys frame.node ≤ frame.childIdx + 1 then
      nextLeaf pages path
    else do
      let childIdx := frame.childIdx + 1
      let leaf ← descendFirst pages pages.descents (pages.page (getPtr frame.node childIdx))
        (⟨frame.node, childIdx⟩ :: path)
      return some leaf

/-- The inner loop of `rangeValues` over the entries of one leaf.  The flag says
that an entry beyond the end ended the scan. -/
def scanLeaf (leaf : BNode) (start stop : Bytes) :
    (remaining idx : Nat) → List Entry → List Entry × Bool
  | 0, _, entries => (entries, false)
  | remaining + 1, idx, entries =>
    let key := getKey leaf idx
    if key.length = 0 ∨ key < start then
      scanLeaf leaf start stop remaining (idx + 1) entries
    else if stop < key then
      (entries, true)
    else
      scanLeaf leaf start stop remaining (idx + 1) (entries ++ [⟨key, getVal leaf idx⟩])

/-- The outer loop of `rangeValues` over the leaves. -/
def rangeLoop (pages : PageMap) (start stop : Bytes) :
    (leaves : Nat) → BNode → Nat → List CursorFrame → List Entry → Except GoError (List Entry)
  | 0, _, _, _, _ => .error errEndlessDescent
  | leaves + 1, leaf, entryIdx, path, entries => do
    let (entries, finished) := scanLeaf leaf start stop (nkeys leaf - entryIdx) entryIdx entries
    if finished then
      return entries
    else
      match ← nextLeaf pages path with
      | none => return entries
      | some (leaf, path) => rangeLoop pages start stop leaves leaf 0 path entries

def rangeValues (pages : PageMap) (root : Nat) (start stop : Bytes) :
    Except GoError (List Entry) :=
  if maxKeySize < start.length then
    .error (.errorf "start key exceeds max size" [])
  else if maxKeySize < stop.length then
    .error (.errorf "end key exceeds max size" [])
  else if stop < start ∨ root = 0 then
    .ok []
  else do
    let (leaf, entryIdx, path) ← seekRangeStart pages root start
    rangeLoop pages start stop pages.descents leaf entryIdx path []

/-! ## Building updated nodes -/

def leafInsertEncoded (old : BNode) (idx : Nat) (key value : Bytes) : Except GoError BNode := do
  let updated := setHeader (zeros (2 * pageSize)) nodeTypeLeaf (nkeys old + 1)
  let updated ← nodeAppendRange updated old 0 0 idx
  let updated ← nodeAppendKV updated idx 0 key value
  nodeAppendRange updated old (idx + 1) idx (nkeys old - idx)

def leafUpdateEncoded (old : BNode) (idx : Nat) (key value : Bytes) : Except GoError BNode := do
  let updated := setHeader (zeros (2 * pageSize)) nodeTypeLeaf (nkeys old)
  let updated ← nodeAppendRange updated old 0 0 idx
  let updated ← nodeAppendKV updated idx 0 key value
  nodeAppendRange updated old (idx + 1) (idx + 1) (nkeys old - idx - 1)

def leafDeleteEncoded (old : BNode) (idx : Nat) : Except GoError BNode := do
  let updated := setHeader (zeros pageSize) nodeTypeLeaf (nkeys old - 1)
  let updated ← nodeAppendRange updated old 0 0 idx
  nodeAppendRange updated old idx (idx + 1) (nkeys old - idx - 1)

def removeChildEncoded (parent : BNode) (idx : Nat) : Except GoError BNode := do
  let updated := setHeader (zeros pageSize) nodeTypeInternal (nkeys parent - 1)
  let updated ← nodeAppendRange updated parent 0 0 idx
  nodeAppendRange updated parent idx (idx + 1) (nkeys parent - idx - 1)

/-- The concatenation of two sibling nodes, if it fits in one page. -/
def mergeEncodedNodes (left right : BNode) : Except GoError (Option BNode) :=
  if btype left ≠ btype right then
    .error (.errorf "cannot merge different node types" [])
  else
    let keyCount := (nkeys left + nkeys right) % 2 ^ 16
    let recordBytes := getOffset left (nkeys left) + getOffset right (nkeys right)
    let mergedSize := pageHeaderSize + keyCount * (pagePtrSize + pageOffsetSize) + recordBytes
    if pageSize < mergedSize then
      .ok none
    else do
      let merged := setHeader (zeros pageSize) (btype left) keyCount
      let merged ← nodeAppendRange merged left 0 0 (nkeys left)
      let merged ← nodeAppendRange merged right (nkeys left) 0 (nkeys right)
      return some merged

/-! ## Splitting -/

def nodeRangeSize (node : BNode) (start count : Nat) : Nat :=
  pageHeaderSize + count * (pagePtrSize + pageOffsetSize) +
    (getOffset node (start + count) + 2 ^ 16 - getOffset node start) % 2 ^ 16

def copyNodeRange (node : BNode) (start count : Nat) : Except GoError BNode := do
  let copyNode := setHeader (zeros pageSize) (btype node) count
  let copyNode ← nodeAppendRange copyNode node 0 start count
  validateBNode copyNode
  return copyNode

/-- The inner loop of `nodeSplit3`: extend the part that begins at `start`. -/
def splitEnd (node : BNode) (start : Nat) : (rounds stop : Nat) → Nat
  | 0, stop => stop
  | rounds + 1, stop =>
    if stop < nkeys node ∧ nodeRangeSize node start (stop - start + 1) ≤ pageSize then
      splitEnd node start rounds (stop + 1)
    else
      stop

/-- The outer loop of `nodeSplit3`. -/
def splitLoop (node : BNode) : (rounds start : Nat) → List BNode → Except GoError (List BNode)
  | 0, _, parts => .ok parts
  | rounds + 1, start, parts =>
    if start < nkeys node then
      let stop := splitEnd node start (nkeys node) (start + 1)
      let count := stop - start
      if pageSize < nodeRangeSize node start count then
        .error (.errorf "encoded entry does not fit in page" [])
      else do
        let part ← copyNodeRange node start count
        let parts := parts ++ [part]
        if 3 < parts.length then
          .error (.errorf "oversized node requires more than three pages" [])
        else
          splitLoop node rounds stop parts
    else
      .ok parts

def nodeSplit3 (node : BNode) : Except GoError (List BNode) :=
  if nbytes node ≤ pageSize then do
    let fixed ← copyNodeRange node 0 (nkeys node)
    return [fixed]
  else
    splitLoop node (nkeys node) 0 []

/-! ## Insert -/

def validateTreeEntry (key value : Bytes) : Except GoError Unit :=
  if key.length = 0 then
    .error (.errorf "key is empty" [])
  else if maxKeySize < key.length then
    .error (.errorf "key exceeds max size" [])
  else if maxValueSize < value.length then
    .error (.errorf "value exceeds max size" [])
  else
    .ok ()

/-- Store nodes and append them to a parent under construction. -/
def appendChildren : BNode → Nat → List BNode → TreeM BNode
  | updated, _, [] => pure updated
  | updated, idx, child :: rest => do
    let pageID ← TreeM.new child
    let updated ← nodeAppendKV updated idx pageID (getKey child 0) []
    appendChildren updated (idx + 1) rest

def replaceChild (parent : BNode) (idx : Nat) (children : List BNode) : TreeM BNode := do
  let updated := setHeader (zeros (2 * pageSize)) nodeTypeInternal
    (nkeys parent + children.length - 1)
  let updated ← nodeAppendRange updated parent 0 0 idx
  let updated ← appendChildren updated idx children
  nodeAppendRange updated parent (idx + children.length) (idx + 1) (nkeys parent - idx - 1)

/-- The updated node, not yet split, and the pages that it replaces below. -/
def insertNode (key value : Bytes) : (descents : Nat) → BNode → TreeM (BNode × List Nat)
  | 0, _ => throw errEndlessDescent
  | descents + 1, node => do
    let idx ← nodeLookupLE node key
    if btype node = nodeTypeLeaf then
      if getKey node idx = key then
        let updated ← leafUpdateEncoded node idx key value
        return (updated, [])
      else
        let updated ← leafInsertEncoded node (idx + 1) key value
        return (updated, [])
    else
      let childPageID := getPtr node idx
      let child ← TreeM.get childPageID
      validatePage "read child page %d: %w" [.int childPageID] child
      let (updatedChild, obsolete) ← insertNode key value descents child
      let childParts ← nodeSplit3 updatedChild
      let updated ← replaceChild node idx childParts
      return (updated, obsolete ++ [childPageID])

/-- The first entry of an empty tree brings the sentinel with it. -/
def firstRoot (key value : Bytes) : Except GoError BNode := do
  let root := setHeader (zeros pageSize) nodeTypeLeaf 2
  let root ← nodeAppendKV root 0 0 [] []
  nodeAppendKV root 1 0 key value

/-- The root over the parts of the updated root node. -/
def growRoot (rootParts : List BNode) : TreeM Nat :=
  match rootParts with
  | [part] => TreeM.new part
  | parts => do
    let newRoot := setHeader (zeros pageSize) nodeTypeInternal parts.length
    let newRoot ← appendChildren newRoot 0 parts
    TreeM.new newRoot

def insert (root : Nat) (key value : Bytes) : TreeM Nat := do
  validateTreeEntry key value
  if root = 0 then
    let node ← firstRoot key value
    TreeM.new node
  else
    let oldRoot ← TreeM.get root
    validatePage "read root page: %w" [] oldRoot
    let descents := (← getThe Work).working.descents
    let (updatedRoot, obsolete) ← insertNode key value descents oldRoot
    let rootParts ← nodeSplit3 updatedRoot
    let newRootID ← growRoot rootParts
    TreeM.delAll (obsolete ++ [root])
    return newRootID

/-! ## Delete -/

def replaceChildrenAfterDelete (parent : BNode) (idx removeCount : Nat) (child : BNode) :
    TreeM BNode := do
  let updated := setHeader (zeros pageSize) nodeTypeInternal (nkeys parent - removeCount + 1)
  let updated ← nodeAppendRange updated parent 0 0 idx
  let childPageID ← TreeM.new child
  let updated ← nodeAppendKV updated idx childPageID (getKey child 0) []
  let tailStart := idx + removeCount
  nodeAppendRange updated parent (idx + 1) tailStart (nkeys parent - tailStart)

/-- Merge with the left sibling.  The result is the merged node, the sibling's page
and the first index that it replaces. -/
def mergeLeft (node : BNode) (idx : Nat) (updatedChild : BNode) :
    TreeM (Option (BNode × Nat × Nat)) :=
  if 0 < idx then do
    let leftID := getPtr node (idx - 1)
    let left ← TreeM.get leftID
    let merged ← mergeEncodedNodes left updatedChild
    return merged.map fun merged => (merged, leftID, idx - 1)
  else
    return none

def mergeRight (node : BNode) (idx : Nat) (updatedChild : BNode) :
    TreeM (Option (BNode × Nat × Nat)) :=
  if idx + 1 < nkeys node then do
    let rightID := getPtr node (idx + 1)
    let right ← TreeM.get rightID
    let merged ← mergeEncodedNodes updatedChild right
    return merged.map fun merged => (merged, rightID, idx)
  else
    return none

/-- Merge a child that became small with a sibling, the left one first. -/
def mergeSibling (node : BNode) (idx : Nat) (updatedChild : BNode) :
    TreeM (Option (BNode × Nat × Nat)) :=
  if nkeys updatedChild = 0 ∨ nbytes updatedChild ≤ pageSize / 4 then do
    match ← mergeLeft node idx updatedChild with
    | some merged => return some merged
    | none => mergeRight node idx updatedChild
  else
    return none

/-- The tail of `deleteNode`: merge an updated child that became small, drop one that
became empty, or store it.  The result is the updated node and the page of a merged
sibling. -/
def rebalanceChild (node : BNode) (idx : Nat) (updatedChild : BNode) : TreeM (BNode × List Nat) :=
  do
  match ← mergeSibling node idx updatedChild with
  | some (merged, siblingID, first) =>
    let updated ← replaceChildrenAfterDelete node first 2 merged
    return (updated, [siblingID])
  | none =>
    if nkeys updatedChild = 0 then
      let updated ← removeChildEncoded node idx
      return (updated, [])
    else
      let updated ← replaceChildrenAfterDelete node idx 1 updatedChild
      return (updated, [])

/-- The updated node and the pages that it replaces below; nothing if the key is
absent. -/
def deleteNode (key : Bytes) : (descents : Nat) → BNode → TreeM (Option (BNode × List Nat))
  | 0, _ => throw errEndlessDescent
  | descents + 1, node => do
    let idx ← nodeLookupLE node key
    if btype node = nodeTypeLeaf then
      if getKey node idx ≠ key then
        return none
      else
        let updated ← leafDeleteEncoded node idx
        return some (updated, [])
    else
      let childPageID := getPtr node idx
      let child ← TreeM.get childPageID
      validatePage "read child page %d: %w" [.int childPageID] child
      match ← deleteNode key descents child with
      | none => return none
      | some (updatedChild, obsolete) =>
        let (updated, absorbed) ← rebalanceChild node idx updatedChild
        return some (updated, obsolete ++ childPageID :: absorbed)

/-- The root after a deletion: none for an empty tree, the only child of an internal
node, or the updated node itself. -/
def shrinkRoot (updatedRoot : BNode) : TreeM Nat :=
  if btype updatedRoot = nodeTypeLeaf ∧ nkeys updatedRoot = 1 then
    return 0
  else if btype updatedRoot = nodeTypeInternal ∧ nkeys updatedRoot = 0 then
    return 0
  else if btype updatedRoot = nodeTypeInternal ∧ nkeys updatedRoot = 1 then
    return getPtr updatedRoot 0
  else
    TreeM.new updatedRoot

/-- Whether the key was present, and the new root. -/
def delete (root : Nat) (key : Bytes) : TreeM (Bool × Nat) :=
  if key.length = 0 then
    throw (.errorf "key is empty" [])
  else if maxKeySize < key.length then
    throw (.errorf "key exceeds max size" [])
  else if root = 0 then
    return (false, root)
  else do
    let oldRoot ← TreeM.get root
    validatePage "read root page: %w" [] oldRoot
    let descents := (← getThe Work).working.descents
    match ← deleteNode key descents oldRoot with
    | none => return (false, root)
    | some (updatedRoot, obsolete) =>
      let newRootID ← shrinkRoot updatedRoot
      TreeM.delAll (obsolete ++ [root])
      return (true, newRootID)

end GoDatabase
