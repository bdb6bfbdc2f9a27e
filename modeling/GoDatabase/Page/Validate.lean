import GoDatabase.Page.Build

/-!
# What the page validator accepts

`validateBNode` is complete for the layouts that the append operations produce, and
sound for arbitrary bytes: an accepted page holds admissible records with strictly
ascending keys inside 4096 bytes.
-/

namespace GoDatabase

open Library BNode List

/-- The keys of a node are strictly ascending. -/
def KeysAscend (records : List Record) : Prop :=
  records.Pairwise fun left right => left.key < right.key

/-! ## Completeness -/

/-- A page with exactly these records. -/
abbrev pageOf (nodeType : Nat) (records : List Record) : BNode :=
  layout pageSize nodeType records.length records

section Complete

variable {nodeType : Nat} {records : List Record}

theorem validatePointers_layout (admissible : AllAdmissible nodeType records) :
    ∀ remaining i, i + remaining = records.length →
      validatePointers (pageOf nodeType records) nodeType remaining i = .ok () := by
  intro remaining
  induction remaining with
  | zero => intros; rfl
  | succ remaining ih =>
    intro i total
    have inRange : i < records.length := by omega
    have limits := admissible i inRange
    have pointer : getPtr (pageOf nodeType records) i = records[i].pageID :=
      getPtr_layout inRange limits.pageID_lt
    rw [getPtr] at pointer
    rw [validatePointers, pointer]
    rw [if_neg (by rintro ⟨isInternal, zero⟩; exact (limits.internal isInternal).1 zero),
      if_neg (by rintro ⟨isLeaf, child⟩; exact child (limits.leaf isLeaf))]
    exact ih (i + 1) (by omega)

/-- The key that the record loop remembers before record `i`. -/
def previousKey (records : List Record) (i : Nat) : Bytes :=
  match records[i - 1]? with
  | some record => if i = 0 then [] else record.key
  | none => []

theorem validateRecords_layout (fits : Fits pageSize records.length records)
    (admissible : AllAdmissible nodeType records) (ascend : KeysAscend records) :
    ∀ remaining i, i + remaining = records.length →
      validateRecords (pageOf nodeType records) nodeType records.length
        (pageHeaderSize + records.length * (pagePtrSize + pageOffsetSize)) remaining i
        (recordBytes (records.take i)) (previousKey records i) = .ok () := by
  intro remaining
  induction remaining with
  | zero => intros; rfl
  | succ remaining ih =>
    intro i total
    have inRange : i < records.length := by omega
    have limits := admissible i inRange
    have keyLe := limits.key_le
    have valueLe := limits.value_le
    have keySmall : records[i].key.length < 2 ^ 16 := by
      simp only [maxKeySize] at keyLe
      omega
    have valueSmall : records[i].value.length < 2 ^ 16 := by
      simp only [maxValueSize] at valueLe
      omega
    have step := recordBytes_take_succ inRange
    have le := recordBytes_take_le records (i + 1)
    have inside := fits.inside
    have endOffset : getOffset (pageOf nodeType records) (i + 1) =
        recordBytes (records.take (i + 1)) := getOffset_layout fits (by omega)
    rw [getOffset, if_neg (by omega), nkeys_layout fits.counted, Nat.add_sub_cancel] at endOffset
    obtain ⟨before, after, shape, position⟩ :
        ∃ before after, pageOf nodeType records = before ++ (records[i].encode ++ after) ∧
          before.length = kvPos (pageOf nodeType records) i :=
      layout_split_record fits inRange
    rw [kvPos_layout fits (by omega)] at position
    have keySize : readLE (pageOf nodeType records)
        (pageHeaderSize + records.length * (pagePtrSize + pageOffsetSize) +
          recordBytes (records.take i)) 2 = records[i].key.length := by
      rw [shape, Record.encode, append_assoc, readLE_middle position (by omega)]
    have valueSize : readLE (pageOf nodeType records)
        (pageHeaderSize + records.length * (pagePtrSize + pageOffsetSize) +
          recordBytes (records.take i) + 2) 2 = records[i].value.length := by
      rw [shape, Record.encode, append_assoc, ← append_assoc before,
        append_assoc (leBytes 2 records[i].value.length),
        readLE_middle (by simp [position]) (by omega)]
    have key : getKey (pageOf nodeType records) i = records[i].key :=
      getKey_layout fits inRange keySmall
    rw [getKey, kvPos_layout fits (by omega)] at key
    rw [keySize] at key
    have size : records[i].size = 4 + records[i].key.length + records[i].value.length := rfl
    rw [validateRecords, endOffset]
    rw [keySize, valueSize, key, step]
    rw [if_neg (by omega), if_neg (by omega), if_neg (by omega),
      if_neg (by
        rintro ⟨empty, late⟩
        exact limits.key_ne_nil late (length_eq_zero_iff.mp empty)),
      if_neg (by
        rintro ⟨empty, valued⟩
        exact valued (by rw [limits.sentinel (length_eq_zero_iff.mp empty)]; rfl)),
      if_neg (by omega), if_neg (by omega),
      if_neg (by
        rintro ⟨isInternal, valued⟩
        exact valued (by rw [(limits.internal isInternal).2]; rfl)),
      if_neg (by omega), if_neg]
    · have rest := ih (i + 1) (by omega)
      rw [step] at rest
      have remembered : previousKey records (i + 1) = records[i].key := by
        simp [previousKey, inRange]
      rwa [remembered] at rest
    · rintro ⟨positive, disorder⟩
      have ordered : records[i - 1].key < records[i].key :=
        pairwise_iff_getElem.mp ascend (i - 1) i (by omega) inRange (by omega)
      have remembered : previousKey records i = records[i - 1].key := by
        rw [previousKey, List.getElem?_eq_getElem (by omega)]
        dsimp only
        rw [if_neg (by omega)]
      rw [remembered] at disorder
      exact absurd ordered (not_lt.mpr disorder)

/-- Every page that the append operations complete is accepted. -/
theorem validateBNode_layout (typed : nodeType = nodeTypeLeaf ∨ nodeType = nodeTypeInternal)
    (inside : nodeSize records ≤ pageSize) (admissible : AllAdmissible nodeType records)
    (ascend : KeysAscend records) :
    validateBNode (pageOf nodeType records) = .ok () := by
  have fits := fits_of_nodeSize inside (by decide)
  have typeRead : btype (pageOf nodeType records) = nodeType := btype_layout (nodeType_lt typed)
  have countRead : nkeys (pageOf nodeType records) = records.length := nkeys_layout fits.counted
  rw [btype] at typeRead
  rw [nkeys] at countRead
  have magic : slice (pageOf nodeType records) 0 4 = pageMagic := by
    rw [pageOf, layout, header, append_assoc, slice_append_left (by decide)]
    exact slice_all pageMagic
  have version : readLE (pageOf nodeType records) 4 2 = pageFormat := by
    rw [pageOf, layout, header, append_assoc, append_assoc]
    exact readLE_middle rfl (by decide)
  have start := inside
  simp only [nodeSize] at start
  rw [validateBNode]
  rw [typeRead, countRead, length_layout fits, if_neg (by simp), if_neg (by rw [magic]; simp),
    if_neg (by rw [version]; simp),
    if_neg (by rintro ⟨notLeaf, notInternal⟩; exact typed.elim notLeaf notInternal),
    if_neg (by omega), validatePointers_layout admissible records.length 0 (by omega)]
  dsimp only
  have whole := validateRecords_layout fits admissible ascend records.length 0 (by omega)
  have nothing : previousKey records 0 = [] := by
    simp only [previousKey]
    split <;> rfl
  rwa [take_zero, recordBytes_nil, nothing] at whole

end Complete

/-! ## Soundness -/

/-- The record that the accessors see at an index. -/
def recordAt (node : BNode) (idx : Nat) : Record :=
  ⟨getPtr node idx, getKey node idx, getVal node idx⟩

/-- All records that the accessors see. -/
def recordsOf (node : BNode) : List Record := (List.range (nkeys node)).map (recordAt node)

@[simp] theorem length_recordsOf (node : BNode) : (recordsOf node).length = nkeys node := by
  simp [recordsOf]

@[simp] theorem getElem_recordsOf {node : BNode} {idx : Nat}
    (inRange : idx < (recordsOf node).length) : (recordsOf node)[idx] = recordAt node idx := by
  simp [recordsOf]

/-- What one round of the record loop establishes. -/
structure RecordChecked (node : BNode) (nodeType idx : Nat) : Prop where
  next : getOffset node (idx + 1) = getOffset node idx + (recordAt node idx).size
  inside : pageHeaderSize + nkeys node * (pagePtrSize + pageOffsetSize) +
    getOffset node (idx + 1) ≤ pageSize
  exact_end : kvPos node idx + 4 + readLE node (kvPos node idx) 2 +
    readLE node (kvPos node idx + 2) 2 =
      pageHeaderSize + nkeys node * (pagePtrSize + pageOffsetSize) + getOffset node (idx + 1)
  key_le : (getKey node idx).length ≤ maxKeySize
  value_le : (getVal node idx).length ≤ maxValueSize
  key_ne_nil : idx ≠ 0 → getKey node idx ≠ []
  sentinel : getKey node idx = [] → getVal node idx = []
  internal : nodeType = nodeTypeInternal → getVal node idx = []
  ordered : 0 < idx → getKey node (idx - 1) < getKey node idx

section Sound

variable {node : BNode} {nodeType : Nat}

theorem kvPos_of_inside {idx : Nat} (inside : pageHeaderSize +
    nkeys node * (pagePtrSize + pageOffsetSize) + getOffset node idx ≤ pageSize) :
    kvPos node idx = pageHeaderSize + nkeys node * (pagePtrSize + pageOffsetSize) +
      getOffset node idx := by
  rw [kvPos]
  simp only [pageSize] at inside
  rw [Nat.mod_eq_of_lt (by omega), Nat.mod_eq_of_lt (by omega)]

theorem validatePointers_sound : ∀ remaining i,
    validatePointers node nodeType remaining i = .ok () → ∀ idx, i ≤ idx → idx < i + remaining →
      (nodeType = nodeTypeInternal → getPtr node idx ≠ 0) ∧
      (nodeType = nodeTypeLeaf → getPtr node idx = 0) := by
  intro remaining
  induction remaining with
  | zero =>
    intro i _ idx low high
    omega
  | succ remaining ih =>
    intro i accepted idx low high
    rw [validatePointers] at accepted
    simp only [guard_eq_ok] at accepted
    obtain ⟨zeroChild, leafChild, accepted⟩ := accepted
    by_cases current : idx = i
    · subst current
      refine ⟨fun isInternal zero => zeroChild ⟨isInternal, zero⟩, fun isLeaf => ?_⟩
      by_contra child
      exact leafChild ⟨isLeaf, child⟩
    · exact ih (i + 1) accepted idx (by omega) (by omega)

theorem validateRecords_sound (whole : node.length = pageSize) :
    ∀ remaining i previousOffset previousKey, validateRecords node nodeType (nkeys node)
        (pageHeaderSize + nkeys node * (pagePtrSize + pageOffsetSize)) remaining i previousOffset
        previousKey = .ok () → previousOffset = getOffset node i →
      pageHeaderSize + nkeys node * (pagePtrSize + pageOffsetSize) + previousOffset ≤ pageSize →
      (0 < i → previousKey = getKey node (i - 1)) →
      ∀ idx, i ≤ idx → idx < i + remaining → RecordChecked node nodeType idx := by
  intro remaining
  induction remaining with
  | zero =>
    intro i _ _ _ _ _ _ idx low high
    omega
  | succ remaining ih =>
    intro i previousOffset previousKey accepted offsetEq inside remembered idx low high
    have endOffset : getOffset node (i + 1) = readLE node
        (pageHeaderSize + nkeys node * pagePtrSize + i * pageOffsetSize) pageOffsetSize := by
      rw [getOffset, if_neg (by omega), Nat.add_sub_cancel]
    have position := kvPos_of_inside (offsetEq ▸ inside)
    rw [validateRecords, ← endOffset] at accepted
    subst offsetEq
    rw [← position] at accepted
    simp only [guard_eq_ok] at accepted
    obtain ⟨backward, outside, small, late, sentinel, longKey, longValue, internal, mismatch,
      disorder, accepted⟩ := accepted
    have lengthKey : (getKey node i).length = readLE node (kvPos node i) 2 :=
      length_slice (by omega)
    have lengthValue : (getVal node i).length = readLE node (kvPos node i + 2) 2 :=
      length_slice (by omega)
    have noKey : getKey node i = [] → readLE node (kvPos node i) 2 = 0 := by
      intro empty
      rw [← lengthKey, empty, length_nil]
    have noValue : ¬ readLE node (kvPos node i + 2) 2 ≠ 0 → getVal node i = [] := by
      intro empty
      apply length_eq_zero_iff.mp
      omega
    by_cases current : idx = i
    · subst current
      refine ⟨?_, ?_, not_not.mp mismatch, ?_, ?_, ?_, ?_, ?_, ?_⟩
      · simp only [recordAt, Record.size]
        omega
      · omega
      · omega
      · omega
      · exact fun positive empty => late ⟨noKey empty, positive⟩
      · exact fun empty => noValue fun valued => sentinel ⟨noKey empty, valued⟩
      · exact fun isInternal => noValue fun valued => internal ⟨isInternal, valued⟩
      · intro positive
        rw [← remembered positive]
        exact not_le.mp fun le => disorder ⟨positive, le⟩
    · exact ih (i + 1) _ _ accepted rfl (by omega) (fun _ => rfl) idx (by omega) (by omega)

variable (checked : ∀ idx, idx < nkeys node → RecordChecked node nodeType idx)
include checked

/-- The offsets that passed the check add up to the sizes of the records. -/
theorem getOffset_of_checked : ∀ idx, idx ≤ nkeys node → getOffset node idx =
    recordBytes ((recordsOf node).take idx) := by
  intro idx
  induction idx with
  | zero =>
    intro _
    rw [take_zero, recordBytes_nil, getOffset, if_pos rfl]
  | succ idx ih =>
    intro bound
    have inRange : idx < (recordsOf node).length := by
      rw [length_recordsOf]
      omega
    rw [(checked idx (by omega)).next, ih (by omega), recordBytes_take_succ inRange,
      getElem_recordsOf]

theorem holds_of_checked : Holds node (btype node) (recordsOf node) where
  type_eq := rfl
  count_eq := (length_recordsOf node).symm
  offset_eq := by
    intro idx bound
    rw [length_recordsOf] at bound
    exact getOffset_of_checked checked idx bound
  record_eq := fun _ inRange => (getElem_recordsOf inRange).symm

theorem nodeSize_of_checked (start : pageHeaderSize + nkeys node * (pagePtrSize + pageOffsetSize) ≤
      pageSize) : nodeSize (recordsOf node) ≤ pageSize := by
  have total := getOffset_of_checked checked (nkeys node) (Nat.le_refl _)
  rw [← length_recordsOf, take_length, length_recordsOf] at total
  rw [nodeSize, length_recordsOf, ← total]
  by_cases empty : nkeys node = 0
  · rw [empty, getOffset, if_pos rfl]
    rw [empty] at start
    exact start
  · have last := (checked (nkeys node - 1) (by omega)).inside
    rwa [show nkeys node - 1 + 1 = nkeys node by omega] at last

theorem ascend_of_checked : KeysAscend (recordsOf node) := by
  apply pairwise_iff_getElem.mpr
  intro left right leftBound rightBound before
  rw [getElem_recordsOf, getElem_recordsOf]
  rw [length_recordsOf] at rightBound
  clear leftBound
  induction right with
  | zero => omega
  | succ right ih =>
    have step : getKey node right < getKey node (right + 1) := by
      simpa using (checked (right + 1) (by omega)).ordered (by omega)
    by_cases adjacent : left = right
    · rwa [adjacent]
    · exact lt_trans (ih (by omega) (by omega)) step

end Sound

/-- A page that the validator accepts, together with what it holds. -/
structure ValidPage (node : BNode) (nodeType : Nat) (records : List Record) : Prop where
  valid : validateBNode node = .ok ()
  typed : nodeType = nodeTypeLeaf ∨ nodeType = nodeTypeInternal
  holds : Holds node nodeType records
  admissible : AllAdmissible nodeType records
  ascend : KeysAscend records
  inside : nodeSize records ≤ pageSize

/-- What the validator has checked of a page that it accepts. -/
structure PageChecked (node : BNode) : Prop where
  whole : node.length = pageSize
  magic : slice node 0 4 = pageMagic
  format : readLE node 4 2 = pageFormat
  typed : btype node = nodeTypeLeaf ∨ btype node = nodeTypeInternal
  start : pageHeaderSize + nkeys node * (pagePtrSize + pageOffsetSize) ≤ pageSize
  pointers : ∀ idx, idx < nkeys node →
    (btype node = nodeTypeInternal → getPtr node idx ≠ 0) ∧
    (btype node = nodeTypeLeaf → getPtr node idx = 0)
  records : ∀ idx, idx < nkeys node → RecordChecked node (btype node) idx

theorem pageChecked_of_valid {node : BNode} (valid : validateBNode node = .ok ()) :
    PageChecked node := by
  have typeRead : readLE node 6 2 = btype node := rfl
  have countRead : readLE node 8 2 = nkeys node := rfl
  rw [validateBNode] at valid
  simp only [guard_eq_ok, not_not, typeRead, countRead] at valid
  obtain ⟨whole, magic, format, typed, start, accepted⟩ := valid
  cases pointers : validatePointers node (btype node) (nkeys node) 0 with
  | error err =>
    rw [pointers] at accepted
    cases accepted
  | ok done =>
    rw [pointers] at accepted
    refine ⟨whole, magic, format, ?_, by omega, ?_, ?_⟩
    · by_contra neither
      exact typed (not_or.mp neither)
    · intro idx inRange
      exact validatePointers_sound _ 0 pointers idx (by omega) (by omega)
    · intro idx inRange
      exact validateRecords_sound whole _ 0 0 [] accepted rfl (by omega)
        (fun positive => absurd positive (Nat.lt_irrefl 0)) idx (by omega) (by omega)

/-- Every accepted page holds the records that its accessors see. -/
theorem validPage_of_valid {node : BNode} (valid : validateBNode node = .ok ()) :
    ValidPage node (btype node) (recordsOf node) := by
  have page := pageChecked_of_valid valid
  refine ⟨valid, page.typed, holds_of_checked page.records, ?_, ascend_of_checked page.records,
    nodeSize_of_checked page.records page.start⟩
  intro idx inRange
  rw [getElem_recordsOf]
  rw [length_recordsOf] at inRange
  have record := page.records idx inRange
  have pointer := page.pointers idx inRange
  exact ⟨page.typed, record.key_le, record.value_le, record.key_ne_nil, record.sentinel,
    pointer.2, fun isInternal => ⟨pointer.1 isInternal, record.internal isInternal⟩,
    readLE_lt _ _ _⟩

/-- Every complete layout of admissible, ascending records is an accepted page. -/
theorem validPage_layout {nodeType : Nat} {records : List Record}
    (typed : nodeType = nodeTypeLeaf ∨ nodeType = nodeTypeInternal)
    (inside : nodeSize records ≤ pageSize) (admissible : AllAdmissible nodeType records)
    (ascend : KeysAscend records) :
    ValidPage (pageOf nodeType records) nodeType records where
  valid := validateBNode_layout typed inside admissible ascend
  typed := typed
  holds := by
    apply holds_layout (fits_of_nodeSize inside (by decide)) admissible
    rcases typed with isLeaf | isInternal
    · rw [isLeaf]
      decide
    · rw [isInternal]
      decide
  admissible := admissible
  ascend := ascend
  inside := inside

namespace ValidPage

variable {node : BNode} {nodeType : Nat} {records : List Record}

theorem length_eq (page : ValidPage node nodeType records) : node.length = pageSize := by
  have accepted := page.valid
  rw [validateBNode] at accepted
  simp only [guard_eq_ok, not_not] at accepted
  exact accepted.1

theorem nbytes_eq (page : ValidPage node nodeType records) : nbytes node = nodeSize records := by
  apply page.holds.nbytes_eq
  have inside := page.inside
  simp only [pageSize] at inside
  omega

end ValidPage

end GoDatabase
