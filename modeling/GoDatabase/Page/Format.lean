import GoDatabase.Library.GoError

/-!
# The page format of the persistent B+Tree

`internal/btree/page.go`: the encoded node, its accessors, the two append
operations that build a node record by record, and the validator that every page
read from a file has to pass.

A node is a byte string.  Go indexes it with `uint16` and panics outside of it;
here a read past the end sees no bytes, and the arithmetic that Go performs modulo
`2^16` is written with its modulus.  Page identifiers are natural numbers; page
zero is never a data page.
-/

namespace GoDatabase

open Library

def pageSize : Nat := 4096

/-- The four bytes `GDBT`. -/
def pageMagic : Bytes := [0x47, 0x44, 0x42, 0x54]

def pageFormat : Nat := 2
def pageHeaderSize : Nat := 16
def pageOffsetSize : Nat := 2
def pagePtrSize : Nat := 8
def nodeTypeInternal : Nat := 1
def nodeTypeLeaf : Nat := 2
def maxKeySize : Nat := 1000
def maxValueSize : Nat := 3000

def errInvalidPageSize : GoError := .sentinel "invalid page size"
def errInvalidMagic : GoError := .sentinel "invalid page magic"
def errInvalidVersion : GoError := .sentinel "invalid page version"
def errInvalidNodeType : GoError := .sentinel "invalid node type"

/-- The encoded representation of one persistent B+Tree node. -/
abbrev BNode := Bytes

namespace BNode

def btype (node : BNode) : Nat := readLE node 6 2

def nkeys (node : BNode) : Nat := readLE node 8 2

def setHeader (node : BNode) (nodeType keyCount : Nat) : BNode :=
  let node := patch node 0 pageMagic
  let node := writeLE node 4 2 pageFormat
  let node := writeLE node 6 2 nodeType
  writeLE node 8 2 keyCount

def getPtr (node : BNode) (idx : Nat) : Nat :=
  readLE node (pageHeaderSize + idx * pagePtrSize) pagePtrSize

def setPtr (node : BNode) (idx : Nat) (pageID : Nat) : BNode :=
  writeLE node (pageHeaderSize + idx * pagePtrSize) pagePtrSize pageID

/-- The offset of record `idx` from the start of the record area. -/
def getOffset (node : BNode) (idx : Nat) : Nat :=
  if idx = 0 then 0
  else readLE node
    (pageHeaderSize + nkeys node * pagePtrSize + (idx - 1) * pageOffsetSize) pageOffsetSize

def setOffset (node : BNode) (idx offset : Nat) : BNode :=
  writeLE node
    (pageHeaderSize + nkeys node * pagePtrSize + (idx - 1) * pageOffsetSize) pageOffsetSize offset

def kvPos (node : BNode) (idx : Nat) : Nat :=
  let metadataSize := pageHeaderSize + nkeys node * (pagePtrSize + pageOffsetSize)
  (metadataSize % 2 ^ 16 + getOffset node idx) % 2 ^ 16

def getKey (node : BNode) (idx : Nat) : Bytes :=
  let pos := kvPos node idx
  slice node (pos + 4) (readLE node pos 2)

def getVal (node : BNode) (idx : Nat) : Bytes :=
  let pos := kvPos node idx
  slice node (pos + 4 + readLE node pos 2) (readLE node (pos + 2) 2)

def nbytes (node : BNode) : Nat := kvPos node (nkeys node)

end BNode

open BNode

/-- Append one record.  The caller fills the indices in ascending order. -/
def nodeAppendKV (node : BNode) (idx : Nat) (pageID : Nat) (key value : Bytes) :
    Except GoError BNode :=
  if nkeys node ≤ idx then
    .error (.errorf "entry index %d outside key count %d" [.int idx, .int (nkeys node)])
  else if maxKeySize < key.length then
    .error (.errorf "key %d exceeds max size" [.int idx])
  else if key.length = 0 ∧ idx ≠ 0 then
    .error (.errorf "key %d is empty" [.int idx])
  else if key.length = 0 ∧ value.length ≠ 0 then
    .error (.errorf "sentinel entry has value" [])
  else if maxValueSize < value.length then
    .error (.errorf "value %d exceeds max size" [.int idx])
  else if btype node = nodeTypeLeaf ∧ pageID ≠ 0 then
    .error (.errorf "leaf entry %d has child page" [.int idx])
  else if btype node = nodeTypeInternal ∧ pageID = 0 then
    .error (.errorf "child page %d is zero" [.int idx])
  else if btype node = nodeTypeInternal ∧ value.length ≠ 0 then
    .error (.errorf "internal entry %d has value" [.int idx])
  else if btype node ≠ nodeTypeLeaf ∧ btype node ≠ nodeTypeInternal then
    .error (.wrap "%w: %d" [.int (btype node)] errInvalidNodeType)
  else
    let pos := kvPos node idx
    let recordSize := 4 + key.length + value.length
    if node.length < pos + recordSize then
      .error (.errorf "encoded node exceeds page size" [])
    else
      let node := setPtr node idx pageID
      let node := writeLE node pos 2 key.length
      let node := writeLE node (pos + 2) 2 value.length
      let node := patch node (pos + 4) key
      let node := patch node (pos + 4 + key.length) value
      .ok (setOffset node (idx + 1) ((getOffset node idx + recordSize) % 2 ^ 16))

/-- The copy loop of `nodeAppendRange`, `count` records from `i` on. -/
def nodeAppendRangeLoop (src : BNode) (dstStart srcStart : Nat) :
    (count i : Nat) → (dst : BNode) → Except GoError BNode
  | 0, _, dst => .ok dst
  | count + 1, i, dst =>
    match nodeAppendKV dst (dstStart + i) (getPtr src (srcStart + i))
        (getKey src (srcStart + i)) (getVal src (srcStart + i)) with
    | .error err => .error err
    | .ok dst => nodeAppendRangeLoop src dstStart srcStart count (i + 1) dst

def nodeAppendRange (dst src : BNode) (dstStart srcStart count : Nat) : Except GoError BNode :=
  if nkeys dst < dstStart + count ∨ nkeys src < srcStart + count then
    .error (.errorf "entry range outside node" [])
  else
    nodeAppendRangeLoop src dstStart srcStart count 0 dst

/-- First loop of `validateBNode`: the pointer array agrees with the node type. -/
def validatePointers (node : BNode) (nodeType : Nat) :
    (remaining i : Nat) → Except GoError Unit
  | 0, _ => .ok ()
  | remaining + 1, i =>
    let pageID := readLE node (pageHeaderSize + i * pagePtrSize) pagePtrSize
    if nodeType = nodeTypeInternal ∧ pageID = 0 then
      .error (.errorf "child page %d is zero" [.int i])
    else if nodeType = nodeTypeLeaf ∧ pageID ≠ 0 then
      .error (.errorf "leaf entry %d has child page" [.int i])
    else
      validatePointers node nodeType remaining (i + 1)

/-- Second loop of `validateBNode`: offsets, record lengths, limits and key order. -/
def validateRecords (node : BNode) (nodeType keyCount recordStart : Nat) :
    (remaining i previousOffset : Nat) → (previousKey : Bytes) → Except GoError Unit
  | 0, _, _, _ => .ok ()
  | remaining + 1, i, previousOffset, previousKey =>
    let offsetPos := pageHeaderSize + keyCount * pagePtrSize + i * pageOffsetSize
    let endOffset := readLE node offsetPos pageOffsetSize
    let recordPos := recordStart + previousOffset
    let recordEnd := recordStart + endOffset
    let keySize := readLE node recordPos 2
    let valueSize := readLE node (recordPos + 2) 2
    let key := slice node (recordPos + 4) keySize
    if endOffset < previousOffset then
      .error (.errorf "offset %d moves backward" [.int (i + 1)])
    else if pageSize < recordStart + endOffset then
      .error (.errorf "offset %d outside page" [.int (i + 1)])
    else if recordEnd - recordPos < 4 then
      .error (.errorf "record %d is too small" [.int i])
    else if keySize = 0 ∧ i ≠ 0 then
      .error (.errorf "record %d has empty key" [.int i])
    else if keySize = 0 ∧ valueSize ≠ 0 then
      .error (.errorf "sentinel record has value" [])
    else if maxKeySize < keySize then
      .error (.errorf "record %d key exceeds max size" [.int i])
    else if maxValueSize < valueSize then
      .error (.errorf "record %d value exceeds max size" [.int i])
    else if nodeType = nodeTypeInternal ∧ valueSize ≠ 0 then
      .error (.errorf "internal record %d has value" [.int i])
    else if recordPos + 4 + keySize + valueSize ≠ recordEnd then
      .error (.errorf "record %d length mismatch" [.int i])
    else if 0 < i ∧ key ≤ previousKey then
      .error (.errorf "keys are not strictly sorted" [])
    else
      validateRecords node nodeType keyCount recordStart remaining (i + 1) endOffset key

def validateBNode (node : BNode) : Except GoError Unit :=
  let nodeType := readLE node 6 2
  let keyCount := readLE node 8 2
  let recordStart := pageHeaderSize + keyCount * (pagePtrSize + pageOffsetSize)
  if node.length ≠ pageSize then
    .error errInvalidPageSize
  else if slice node 0 4 ≠ pageMagic then
    .error errInvalidMagic
  else if readLE node 4 2 ≠ pageFormat then
    .error (.wrap "%w: %d" [.int (readLE node 4 2)] errInvalidVersion)
  else if nodeType ≠ nodeTypeLeaf ∧ nodeType ≠ nodeTypeInternal then
    .error (.wrap "%w: %d" [.int nodeType] errInvalidNodeType)
  else if pageSize < recordStart then
    .error (.errorf "page metadata exceeds page size" [])
  else
    match validatePointers node nodeType keyCount 0 with
    | .error err => .error err
    | .ok () => validateRecords node nodeType keyCount recordStart keyCount 0 0 []

end GoDatabase
