import GoDatabase.Page.Codec

/-!
# The page reader stays inside the page

The functions of `Page.Format` read nothing past the end of a page where Go panics.  Here
the validator, the decoder and the accessors are given once more with the panic as an
outcome, each read at the place where the source has it.  No input of the decoder panics,
and after it accepted a page no accessor does.
-/

namespace GoDatabase

open Library List Option

namespace BNode

def btype? (node : BNode) : Option Nat := readLE? node 6 2

def nkeys? (node : BNode) : Option Nat := readLE? node 8 2

def getPtr? (node : BNode) (idx : Nat) : Option Nat :=
  readLE? node (pageHeaderSize + idx * pagePtrSize) pagePtrSize

def getOffset? (node : BNode) (idx : Nat) : Option Nat :=
  if idx = 0 then some 0
  else do
    let keyCount ← nkeys? node
    readLE? node (pageHeaderSize + keyCount * pagePtrSize + (idx - 1) * pageOffsetSize)
      pageOffsetSize

def kvPos? (node : BNode) (idx : Nat) : Option Nat := do
  let keyCount ← nkeys? node
  let offset ← getOffset? node idx
  let metadataSize := pageHeaderSize + keyCount * (pagePtrSize + pageOffsetSize)
  some ((metadataSize % 2 ^ 16 + offset) % 2 ^ 16)

def getKey? (node : BNode) (idx : Nat) : Option Bytes := do
  let pos ← kvPos? node idx
  let keySize ← readLE? node pos 2
  slice? node (pos + 4) keySize

def getVal? (node : BNode) (idx : Nat) : Option Bytes := do
  let pos ← kvPos? node idx
  let keySize ← readLE? node pos 2
  let valueSize ← readLE? node (pos + 2) 2
  slice? node (pos + 4 + keySize) valueSize

def nbytes? (node : BNode) : Option Nat := do
  let keyCount ← nkeys? node
  kvPos? node keyCount

end BNode

open BNode PageNode

def validatePointers? (node : BNode) (nodeType : Nat) :
    (remaining i : Nat) → Option (Except GoError Unit)
  | 0, _ => some (.ok ())
  | remaining + 1, i => do
    let pageID ← readLE? node (pageHeaderSize + i * pagePtrSize) pagePtrSize
    if nodeType = nodeTypeInternal ∧ pageID = 0 then
      some (.error (.errorf "child page %d is zero" [.int i]))
    else if nodeType = nodeTypeLeaf ∧ pageID ≠ 0 then
      some (.error (.errorf "leaf entry %d has child page" [.int i]))
    else
      validatePointers? node nodeType remaining (i + 1)

def validateRecords? (node : BNode) (nodeType keyCount recordStart : Nat) :
    (remaining i previousOffset : Nat) → (previousKey : Bytes) → Option (Except GoError Unit)
  | 0, _, _, _ => some (.ok ())
  | remaining + 1, i, previousOffset, previousKey => do
    let offsetPos := pageHeaderSize + keyCount * pagePtrSize + i * pageOffsetSize
    let endOffset ← readLE? node offsetPos pageOffsetSize
    let recordPos := recordStart + previousOffset
    let recordEnd := recordStart + endOffset
    if endOffset < previousOffset then
      some (.error (.errorf "offset %d moves backward" [.int (i + 1)]))
    else if pageSize < recordStart + endOffset then
      some (.error (.errorf "offset %d outside page" [.int (i + 1)]))
    else if recordEnd - recordPos < 4 then
      some (.error (.errorf "record %d is too small" [.int i]))
    else do
      let keySize ← readLE? node recordPos 2
      let valueSize ← readLE? node (recordPos + 2) 2
      if keySize = 0 ∧ i ≠ 0 then
        some (.error (.errorf "record %d has empty key" [.int i]))
      else if keySize = 0 ∧ valueSize ≠ 0 then
        some (.error (.errorf "sentinel record has value" []))
      else if maxKeySize < keySize then
        some (.error (.errorf "record %d key exceeds max size" [.int i]))
      else if maxValueSize < valueSize then
        some (.error (.errorf "record %d value exceeds max size" [.int i]))
      else if nodeType = nodeTypeInternal ∧ valueSize ≠ 0 then
        some (.error (.errorf "internal record %d has value" [.int i]))
      else if recordPos + 4 + keySize + valueSize ≠ recordEnd then
        some (.error (.errorf "record %d length mismatch" [.int i]))
      else do
        let key ← slice? node (recordPos + 4) keySize
        if 0 < i ∧ key ≤ previousKey then
          some (.error (.errorf "keys are not strictly sorted" []))
        else
          validateRecords? node nodeType keyCount recordStart remaining (i + 1) endOffset key

def validateBNode? (node : BNode) : Option (Except GoError Unit) :=
  if node.length ≠ pageSize then
    some (.error errInvalidPageSize)
  else do
    let magic ← slice? node 0 4
    if magic ≠ pageMagic then
      some (.error errInvalidMagic)
    else do
      let version ← readLE? node 4 2
      if version ≠ pageFormat then
        some (.error (.wrap "%w: %d" [.int version] errInvalidVersion))
      else do
        let nodeType ← readLE? node 6 2
        if nodeType ≠ nodeTypeLeaf ∧ nodeType ≠ nodeTypeInternal then
          some (.error (.wrap "%w: %d" [.int nodeType] errInvalidNodeType))
        else do
          let keyCount ← readLE? node 8 2
          let recordStart := pageHeaderSize + keyCount * (pagePtrSize + pageOffsetSize)
          if pageSize < recordStart then
            some (.error (.errorf "page metadata exceeds page size" []))
          else
            match ← validatePointers? node nodeType keyCount 0 with
            | .error err => some (.error err)
            | .ok () => validateRecords? node nodeType keyCount recordStart keyCount 0 0 []

def decodePageNode? (page : Bytes) : Option (Except GoError PageNode) := do
  match ← validateBNode? page with
  | .error err => some (.error err)
  | .ok () =>
    let indices := List.range (← nkeys? page)
    let leaf := decide ((← btype? page) = nodeTypeLeaf)
    let keys ← indices.mapM (getKey? page)
    let values ← if leaf then indices.mapM (getVal? page) else some []
    let childPages ← if leaf then some [] else indices.mapM (getPtr? page)
    some (.ok {
      leaf := leaf
      keys := keys
      values := values
      childPages := childPages.map UInt64.ofNat })

/-! ## The validator -/

section Validate

variable {node : BNode} {nodeType keyCount : Nat}

theorem validatePointers?_eq (whole : node.length = pageSize) :
    ∀ remaining i, pageHeaderSize + (i + remaining) * pagePtrSize ≤ pageSize →
      validatePointers? node nodeType remaining i =
        some (validatePointers node nodeType remaining i) := by
  intro remaining
  induction remaining with
  | zero => intros; rfl
  | succ remaining ih =>
    intro i inside
    have here : pageHeaderSize + i * pagePtrSize + pagePtrSize ≤ node.length := by
      simp only [pagePtrSize] at inside ⊢
      omega
    rw [validatePointers?, validatePointers, readLE?_eq here]
    refine some_guard fun _ => some_guard fun _ => ih (i + 1) ?_
    rwa [Nat.add_assoc, Nat.add_comm 1]

theorem validateRecords?_eq (whole : node.length = pageSize)
    (start : pageHeaderSize + keyCount * (pagePtrSize + pageOffsetSize) ≤ pageSize)
    {recordStart : Nat} : ∀ remaining i previousOffset previousKey, i + remaining ≤ keyCount →
      validateRecords? node nodeType keyCount recordStart remaining i previousOffset previousKey =
        some (validateRecords node nodeType keyCount recordStart remaining i previousOffset
          previousKey) := by
  intro remaining
  induction remaining with
  | zero => intros; rfl
  | succ remaining ih =>
    intro i previousOffset previousKey bound
    have atOffset : pageHeaderSize + keyCount * pagePtrSize + i * pageOffsetSize +
        pageOffsetSize ≤ node.length := by
      simp only [pageHeaderSize, pagePtrSize, pageOffsetSize] at start ⊢
      omega
    rw [validateRecords?, validateRecords, readLE?_eq atOffset]
    refine some_guard fun _ => some_guard fun inside => some_guard fun large => ?_
    rw [readLE?_eq (by omega), readLE?_eq (by omega)]
    refine some_guard fun _ => some_guard fun _ => some_guard fun _ => some_guard fun _ =>
      some_guard fun _ => some_guard fun ends => ?_
    rw [slice?_eq (by omega)]
    exact some_guard fun _ => ih (i + 1) _ _ (by omega)

theorem validateBNode?_eq (node : BNode) : validateBNode? node = some (validateBNode node) := by
  rw [validateBNode?, validateBNode]
  refine some_guard fun sized => ?_
  have whole : node.length = pageSize := not_not.mp sized
  have long : 4096 ≤ node.length := Nat.le_of_eq whole.symm
  rw [slice?_eq (by omega)]
  refine some_guard fun _ => ?_
  rw [readLE?_eq (by omega)]
  refine some_guard fun _ => ?_
  rw [readLE?_eq (by omega)]
  refine some_guard fun _ => ?_
  rw [readLE?_eq (by omega)]
  refine some_guard fun small => ?_
  have start := Nat.le_of_not_lt small
  rw [validatePointers?_eq whole _ 0 ?_]
  · cases validatePointers node (readLE node 6 2) (readLE node 8 2) 0 with
    | error err => rfl
    | ok done => exact validateRecords?_eq whole start _ 0 0 [] (by omega)
  · simp only [pageHeaderSize, pagePtrSize, pageOffsetSize] at start ⊢
    omega

end Validate

/-! ## The accessors of an accepted page -/

namespace PageChecked

variable {node : BNode}

theorem btype?_eq (checked : PageChecked node) : btype? node = some (btype node) :=
  readLE?_eq (by rw [checked.whole]; decide)

theorem nkeys?_eq (checked : PageChecked node) : nkeys? node = some (nkeys node) :=
  readLE?_eq (by rw [checked.whole]; decide)

variable {idx : Nat}

section

variable (checked : PageChecked node)
include checked

theorem getPtr?_eq (inRange : idx < nkeys node) : getPtr? node idx = some (getPtr node idx) := by
  refine readLE?_eq ?_
  have start := checked.start
  have whole := checked.whole
  simp only [pageHeaderSize, pagePtrSize, pageOffsetSize] at start ⊢
  omega

/-- The end of the last record has an offset, too. -/
theorem kvPos?_eq (bound : idx ≤ nkeys node) : kvPos? node idx = some (kvPos node idx) := by
  have offset : getOffset? node idx = some (getOffset node idx) := by
    rw [getOffset?, getOffset]
    by_cases first : idx = 0
    · rw [if_pos first, if_pos first]
    · rw [if_neg first, if_neg first, checked.nkeys?_eq]
      refine readLE?_eq ?_
      have start := checked.start
      have whole := checked.whole
      simp only [pageHeaderSize, pagePtrSize, pageOffsetSize] at start ⊢
      omega
  rw [kvPos?, checked.nkeys?_eq, offset]
  rfl

theorem getKey?_eq (inRange : idx < nkeys node) : getKey? node idx = some (getKey node idx) := by
  obtain ⟨inside, key, value⟩ := length_recordAt checked inRange
  simp only [recordAt, Record.size, key, value] at inside
  rw [getKey?, checked.kvPos?_eq (Nat.le_of_lt inRange)]
  simp only [bind_eq_bind, bind_some]
  rw [readLE?_eq (by omega), bind_some, slice?_eq (by omega)]
  rfl

theorem getVal?_eq (inRange : idx < nkeys node) : getVal? node idx = some (getVal node idx) := by
  obtain ⟨inside, key, value⟩ := length_recordAt checked inRange
  simp only [recordAt, Record.size, key, value] at inside
  rw [getVal?, checked.kvPos?_eq (Nat.le_of_lt inRange)]
  simp only [bind_eq_bind, bind_some]
  rw [readLE?_eq (by omega), bind_some, readLE?_eq (by omega), bind_some,
    slice?_eq (by omega)]
  rfl

theorem nbytes?_eq : nbytes? node = some (nbytes node) := by
  rw [nbytes?, checked.nkeys?_eq]
  exact checked.kvPos?_eq (Nat.le_refl _)

end

end PageChecked

/-- A loop over indices in which no step panics. -/
theorem mapM_range_eq_some {α : Type} {count : Nat} {step? : Nat → Option α} {step : Nat → α}
    (agree : ∀ {idx}, idx < count → step? idx = some (step idx)) :
    (List.range count).mapM step? = some ((List.range count).map step) := by
  induction count with
  | zero => rfl
  | succ count ih =>
    rw [range_succ, mapM_append, ih fun inside => agree (inside.trans (Nat.lt_succ_self _)),
      map_append]
    simp [agree]

theorem decodePageNode?_eq (page : Bytes) : decodePageNode? page = some (decodePageNode page) := by
  rw [decodePageNode?, decodePageNode, validateBNode?_eq]
  cases valid : validateBNode page with
  | error err => rfl
  | ok done =>
    have checked := pageChecked_of_valid valid
    simp only [bind_eq_bind, bind_some, checked.nkeys?_eq, checked.btype?_eq,
      mapM_range_eq_some checked.getKey?_eq, mapM_range_eq_some checked.getVal?_eq,
      mapM_range_eq_some checked.getPtr?_eq]
    cases decide (btype page = nodeTypeLeaf) with
    | true => rfl
    | false => simp [Function.comp_def]

/-! ## The codec -/

/-- Encoding succeeds on exactly the well-formed nodes that fit and decoding inverts it.
Decoding never reads outside of the page; what it accepts can be read without
a panic, and encodes again to an equal node, byte for byte if the padding is zero. -/
theorem page_node_codec : (∀ n : Option PageNode, (∃ page, encodePageNode n = .ok page) ↔
      ∃ node, n = some node ∧ node.WellFormed ∧ node.encodedSize ≤ 4096) ∧
    (∀ n page, encodePageNode (some n) = .ok page →
      decodePageNode page = .ok n ∧ nbytes page = n.encodedSize) ∧
    (∀ page, decodePageNode? page = some (decodePageNode page)) ∧
    (∀ page n, decodePageNode page = .ok n →
      (∀ idx, idx < nkeys page → getKey? page idx = some (getKey page idx) ∧
        getVal? page idx = some (getVal page idx) ∧ getPtr? page idx = some (getPtr page idx)) ∧
      (nbytes? page = some (nbytes page) ∧ nbytes page ≤ page.length) ∧
      ∃ again, encodePageNode (some n) = .ok again ∧ decodePageNode again = .ok n ∧
        (slice page 10 6 = zeros 6 →
          page.drop (nbytes page) = zeros (page.length - nbytes page) → again = page)) := by
  refine ⟨?_, ?_, decodePageNode?_eq, ?_⟩
  · intro n
    cases n with
    | none =>
      constructor
      · rintro ⟨page, encoded⟩
        cases encoded
      · rintro ⟨node, isSome, -⟩
        cases isSome
    | some n =>
      simp only [encodePageNode_eq_ok, encodedSize_eq]
      constructor
      · rintro ⟨page, formed, inside, -⟩
        exact ⟨n, rfl, formed, inside⟩
      · rintro ⟨_, ⟨⟩, formed, inside⟩
        exact ⟨_, formed, inside, rfl⟩
  · intro n page encoded
    obtain ⟨formed, inside, rfl⟩ := encodePageNode_eq_ok.mp encoded
    rw [encodedSize_eq]
    exact decode_layout formed inside
  · intro page n decoded
    obtain ⟨valid, formed, records, type⟩ := decodePageNode_ok decoded
    have checked := pageChecked_of_valid valid
    have held := validPage_of_valid valid
    have size := held.nbytes_eq
    have inside : nodeSize n.records ≤ pageSize := records ▸ held.inside
    refine ⟨fun idx inRange => ⟨checked.getKey?_eq inRange, checked.getVal?_eq inRange,
      checked.getPtr?_eq inRange⟩, ⟨checked.nbytes?_eq, ?_⟩, _,
      encodePageNode_eq_ok.mpr ⟨formed, inside, rfl⟩, (decode_layout formed inside).1, ?_⟩
    · rw [size, held.length_eq]
      exact held.inside
    · intro reserved tail
      rw [records, type]
      exact layout_recordsOf checked reserved tail size

end GoDatabase
