import GoDatabase.Page.Format

/-!
# The exact bytes of a node under construction

A buffer that `setHeader` and `nodeAppendKV` have filled with the first records of
a node is determined by the buffer size, the header fields and those records.
`layout` writes it down, and the appends move from one layout to the next.

`Holds` is the reading side: the accessors of a node see a given type and a given
list of records.  It holds of every complete layout, and the validator establishes
it for arbitrary pages.
-/

namespace GoDatabase

open Library BNode List

/-- One decoded entry of a node: a child page for an internal node, a value for a
leaf. -/
structure Record where
  pageID : Nat
  key : Bytes
  value : Bytes
  deriving DecidableEq, Repr

namespace Record

/-- Bytes that the record occupies in the record area. -/
def size (record : Record) : Nat := 4 + record.key.length + record.value.length

/-- The record as stored: key length, value length, key, value. -/
def encode (record : Record) : Bytes :=
  leBytes 2 record.key.length ++
    (leBytes 2 record.value.length ++ (record.key ++ record.value))

@[simp] theorem length_encode (record : Record) : record.encode.length = record.size := by
  simp only [encode, size, List.length_append, length_leBytes]
  omega

end Record

/-- Bytes that a list of records occupies in the record area. -/
def recordBytes (records : List Record) : Nat := (records.map Record.size).sum

@[simp] theorem recordBytes_nil : recordBytes [] = 0 := rfl

@[simp] theorem recordBytes_cons (record : Record) (records : List Record) :
    recordBytes (record :: records) = record.size + recordBytes records := by
  simp [recordBytes]

@[simp] theorem recordBytes_append (left right : List Record) :
    recordBytes (left ++ right) = recordBytes left + recordBytes right := by
  simp [recordBytes]

theorem recordBytes_take_le (records : List Record) (count : Nat) :
    recordBytes (records.take count) ≤ recordBytes records := by
  have whole := congrArg recordBytes (take_append_drop count records)
  rw [recordBytes_append] at whole
  omega

variable {idx : Nat}

theorem recordBytes_take_succ {records : List Record} (inRange : idx < records.length) :
    recordBytes (records.take (idx + 1)) = recordBytes (records.take idx) + records[idx].size := by
  rw [take_succ_eq_append_getElem inRange, recordBytes_append, recordBytes_cons,
    recordBytes_nil, Nat.add_zero]

/-- Encoded size of a complete node. -/
def nodeSize (records : List Record) : Nat :=
  pageHeaderSize + records.length * (pagePtrSize + pageOffsetSize) + recordBytes records

/-- The child pointer array. -/
def pointerArray (records : List Record) : Bytes :=
  records.flatMap fun record => leBytes pagePtrSize record.pageID

/-- The array of record end offsets, counted from `start`. -/
def offsetArray : (start : Nat) → List Record → Bytes
  | _, [] => []
  | start, record :: records =>
    leBytes pageOffsetSize (start + record.size) ++
      offsetArray (start + record.size) records

/-- The record area. -/
def recordArea (records : List Record) : Bytes := records.flatMap Record.encode

@[simp] theorem length_pointerArray (records : List Record) :
    (pointerArray records).length = records.length * pagePtrSize := by
  induction records with
  | nil => rfl
  | cons record records ih =>
    simp only [pointerArray, List.flatMap_cons, List.length_append, length_leBytes,
      List.length_cons, Nat.succ_mul] at ih ⊢
    omega

@[simp] theorem length_offsetArray (start : Nat) (records : List Record) :
    (offsetArray start records).length = records.length * pageOffsetSize := by
  induction records generalizing start with
  | nil => rfl
  | cons record records ih =>
    simp only [offsetArray, List.length_append, length_leBytes, ih, List.length_cons, Nat.succ_mul]
    omega

@[simp] theorem length_recordArea (records : List Record) :
    (recordArea records).length = recordBytes records := by
  induction records with
  | nil => rfl
  | cons record records ih =>
    simp only [recordArea, List.flatMap_cons, List.length_append] at ih ⊢
    rw [ih]
    simp

theorem pointerArray_append (left right : List Record) :
    pointerArray (left ++ right) = pointerArray left ++ pointerArray right := by
  simp [pointerArray]

theorem recordArea_append (left right : List Record) :
    recordArea (left ++ right) = recordArea left ++ recordArea right := by
  simp [recordArea]

theorem offsetArray_append (start : Nat) (left right : List Record) :
    offsetArray start (left ++ right) =
      offsetArray start left ++ offsetArray (start + recordBytes left) right := by
  induction left generalizing start with
  | nil => simp [offsetArray]
  | cons record left ih =>
    simp only [cons_append, offsetArray, ih, append_assoc, recordBytes_cons]
    rw [Nat.add_assoc]

/-- The sixteen header bytes. -/
def header (nodeType keyCount : Nat) : Bytes :=
  pageMagic ++ (leBytes 2 pageFormat ++ (leBytes 2 nodeType ++ (leBytes 2 keyCount ++ zeros 6)))

@[simp] theorem length_header (nodeType keyCount : Nat) :
    (header nodeType keyCount).length = pageHeaderSize := by
  simp [header, pageMagic, pageHeaderSize]

/-- A buffer of `capacity` bytes with the header of a node of `keyCount` entries
and its first records in place. -/
def layout (capacity nodeType keyCount : Nat) (records : List Record) : BNode :=
  header nodeType keyCount ++
    (pointerArray records ++ (zeros ((keyCount - records.length) * pagePtrSize) ++
      (offsetArray 0 records ++ (zeros ((keyCount - records.length) * pageOffsetSize) ++
        (recordArea records ++
          zeros (capacity - (pageHeaderSize + keyCount * (pagePtrSize + pageOffsetSize) +
            recordBytes records)))))))

/-- The records placed so far leave the buffer large enough. -/
structure Fits (capacity keyCount : Nat) (records : List Record) : Prop where
  placed : records.length ≤ keyCount
  counted : keyCount < 2 ^ 16
  inside : pageHeaderSize + keyCount * (pagePtrSize + pageOffsetSize) + recordBytes records ≤
    capacity
  bounded : capacity < 2 ^ 16

section Layout

variable {capacity nodeType keyCount : Nat} {records : List Record}

theorem length_layout (fits : Fits capacity keyCount records) :
    (layout capacity nodeType keyCount records).length = capacity := by
  obtain ⟨placed, _, inside, _⟩ := fits
  simp only [layout, length_append, length_header, length_pointerArray, length_zeros,
    length_offsetArray, length_recordArea]
  simp only [pageHeaderSize, pagePtrSize, pageOffsetSize] at inside ⊢
  omega

/-- A zeroed buffer with a header is the layout without records. -/
theorem setHeader_zeros
    (inside : pageHeaderSize + keyCount * (pagePtrSize + pageOffsetSize) ≤ capacity) :
    setHeader (zeros capacity) nodeType keyCount = layout capacity nodeType keyCount [] := by
  have split : zeros capacity =
      zeros 4 ++ (zeros 2 ++ (zeros 2 ++ (zeros 2 ++ zeros (capacity - 10)))) := by
    simp only [zeros_append]
    congr 1
    simp only [pageHeaderSize, pagePtrSize, pageOffsetSize] at inside
    omega
  have magicLength : pageMagic.length = 4 := rfl
  simp only [setHeader, writeLE]
  rw [split, patch_append_left (by simp [magicLength])]
  rw [show patch (zeros 4) 0 pageMagic = pageMagic from rfl]
  rw [patch_middle (by simp [magicLength]) (by simp)]
  rw [← append_assoc, patch_middle (by simp [magicLength]) (by simp)]
  rw [← append_assoc, patch_middle (by simp [magicLength]) (by simp)]
  simp only [layout, header, pointerArray, offsetArray, recordArea, flatMap_nil,
    nil_append, length_nil, append_assoc, zeros_append, recordBytes_nil]
  congr 5
  simp only [pageHeaderSize, pagePtrSize, pageOffsetSize] at inside ⊢
  omega

@[simp] theorem btype_layout (small : nodeType < 2 ^ 16) :
    btype (layout capacity nodeType keyCount records) = nodeType := by
  simp only [btype, layout, header]
  rw [← List.append_assoc pageMagic]
  simp only [List.append_assoc]
  rw [← List.append_assoc pageMagic, readLE_middle (by simp [pageMagic]) (by omega)]

theorem nkeys_header (rest : Bytes) (small : keyCount < 2 ^ 16) :
    nkeys (header nodeType keyCount ++ rest) = keyCount := by
  simp only [nkeys, header, append_assoc]
  rw [← append_assoc pageMagic, ← append_assoc (pageMagic ++ _),
    readLE_middle (by simp [pageMagic]) (by omega)]

@[simp] theorem nkeys_layout (small : keyCount < 2 ^ 16) :
    nkeys (layout capacity nodeType keyCount records) = keyCount := nkeys_header _ small

/-- The pointer array with the room for the pointers to come. -/
def pointerSlots (keyCount : Nat) (records : List Record) : Bytes :=
  pointerArray records ++ zeros ((keyCount - records.length) * pagePtrSize)

/-- The offset array with the room for the offsets to come. -/
def offsetSlots (keyCount : Nat) (records : List Record) : Bytes :=
  offsetArray 0 records ++ zeros ((keyCount - records.length) * pageOffsetSize)

theorem length_pointerSlots (placed : records.length ≤ keyCount) :
    (pointerSlots keyCount records).length = keyCount * pagePtrSize := by
  rw [pointerSlots, length_append, length_pointerArray, length_zeros, ← Nat.add_mul,
    Nat.add_sub_cancel' placed]

theorem length_offsetSlots (placed : records.length ≤ keyCount) :
    (offsetSlots keyCount records).length = keyCount * pageOffsetSize := by
  rw [offsetSlots, length_append, length_offsetArray, length_zeros, ← Nat.add_mul,
    Nat.add_sub_cancel' placed]

theorem layout_segments : layout capacity nodeType keyCount records = header nodeType keyCount ++
      (pointerSlots keyCount records ++ (offsetSlots keyCount records ++ (recordArea records ++
        zeros (capacity - (pageHeaderSize + keyCount * (pagePtrSize + pageOffsetSize) +
          recordBytes records))))) := by
  simp only [layout, pointerSlots, offsetSlots, append_assoc]

variable {idx : Nat} {pointers offsets area : Bytes}

/-- The child pointer of a placed record. -/
theorem getPtr_layout (inRange : idx < records.length) (small : records[idx].pageID < 2 ^ 64) :
    getPtr (layout capacity nodeType keyCount records) idx = records[idx].pageID := by
  have split : records = records.take idx ++ records[idx] :: records.drop (idx + 1) := by
    simp
  have pointers : pointerArray records =
      pointerArray (records.take idx) ++ (leBytes pagePtrSize records[idx].pageID ++
        pointerArray (records.drop (idx + 1))) := by
    conv_lhs => rw [split]
    rw [pointerArray_append]
    simp only [pointerArray, flatMap_cons]
  rw [getPtr, layout, pointers]
  simp only [append_assoc]
  rw [← append_assoc (header nodeType keyCount), readLE_middle]
  · simp only [length_append, length_header, length_pointerArray, length_take]
    rw [Nat.min_eq_left (by omega)]
  · simp only [pagePtrSize]
    omega

section

variable (fits : Fits capacity keyCount records)
include fits

/-- The offset of a record in a node whose arrays are still being filled. -/
theorem getOffset_segments (bound : idx ≤ records.length)
    (sized : pointers.length = keyCount * pagePtrSize) :
    getOffset (header nodeType keyCount ++ (pointers ++ (offsetSlots keyCount records ++ area)))
      idx = recordBytes (records.take idx) := by
  have slots := length_offsetSlots fits.placed
  cases idx with
  | zero => simp [getOffset]
  | succ idx =>
    have inRange : idx < records.length := by omega
    have placed := fits.placed
    have small : recordBytes (records.take (idx + 1)) < 256 ^ pageOffsetSize := by
      have le := recordBytes_take_le records (idx + 1)
      have inside := fits.inside
      have bounded := fits.bounded
      simp only [pageOffsetSize]
      omega
    have offsets : offsetArray 0 records = offsetArray 0 (records.take idx) ++
        (leBytes pageOffsetSize (recordBytes (records.take (idx + 1))) ++
          offsetArray (recordBytes (records.take (idx + 1))) (records.drop (idx + 1))) := by
      conv_lhs =>
        rw [show records = records.take idx ++ records[idx] :: records.drop (idx + 1) by simp]
      rw [offsetArray_append]
      simp only [offsetArray, Nat.zero_add, recordBytes_take_succ inRange]
    rw [getOffset, if_neg (Nat.succ_ne_zero idx), nkeys_header _ fits.counted, offsetSlots, offsets]
    simp only [append_assoc]
    rw [← append_assoc (header ..), ← append_assoc (header .. ++ _)]
    apply readLE_middle ?_ small
    simp only [length_append, length_header, sized, length_offsetArray, length_take,
      Nat.add_sub_cancel]
    rw [Nat.min_eq_left (by omega)]

/-- The offset of a placed record is the size of the records before it. -/
theorem getOffset_layout (bound : idx ≤ records.length) :
    getOffset (layout capacity nodeType keyCount records) idx = recordBytes (records.take idx) := by
  rw [layout_segments]
  exact getOffset_segments fits bound (length_pointerSlots fits.placed)

/-- A record starts behind the two arrays and the records before it. -/
theorem kvPos_layout {idx : Nat}
    (bound : idx ≤ records.length) : kvPos (layout capacity nodeType keyCount records) idx =
      pageHeaderSize + keyCount * (pagePtrSize + pageOffsetSize) +
        recordBytes (records.take idx) := by
  have le := recordBytes_take_le records idx
  have inside := fits.inside
  have bounded := fits.bounded
  rw [kvPos, nkeys_layout fits.counted, getOffset_layout fits bound]
  rw [Nat.mod_eq_of_lt (by omega), Nat.mod_eq_of_lt (by omega)]

theorem kvPos_layout_end : kvPos (layout capacity nodeType keyCount records) records.length =
      pageHeaderSize + keyCount * (pagePtrSize + pageOffsetSize) + recordBytes records := by
  rw [kvPos_layout fits (Nat.le_refl _), take_length]

theorem layout_split_record {idx : Nat}
    (inRange : idx < records.length) : ∃ before after, layout capacity nodeType keyCount records =
        before ++ (records[idx].encode ++ after) ∧
      before.length = kvPos (layout capacity nodeType keyCount records) idx := by
  have split : records = records.take idx ++ records[idx] :: records.drop (idx + 1) := by
    simp
  have area : recordArea records = recordArea (records.take idx) ++
      (records[idx].encode ++ recordArea (records.drop (idx + 1))) := by
    conv_lhs => rw [split]
    rw [recordArea_append]
    simp only [recordArea, flatMap_cons]
  refine ⟨header nodeType keyCount ++ (pointerSlots keyCount records ++
    (offsetSlots keyCount records ++ recordArea (records.take idx))),
    recordArea (records.drop (idx + 1)) ++ zeros (capacity -
      (pageHeaderSize + keyCount * (pagePtrSize + pageOffsetSize) + recordBytes records)), ?_, ?_⟩
  · rw [layout_segments, area]
    simp only [append_assoc]
  · rw [kvPos_layout fits inRange.le, Nat.mul_add]
    simp only [length_append, length_header, length_pointerSlots fits.placed,
      length_offsetSlots fits.placed, length_recordArea, Nat.add_assoc]

theorem getKey_layout (inRange : idx < records.length) (small : records[idx].key.length < 2 ^ 16) :
    getKey (layout capacity nodeType keyCount records) idx = records[idx].key := by
  obtain ⟨before, after, shape, position⟩ :=
    @layout_split_record _ nodeType _ _ fits _ inRange
  rw [getKey, ← position, shape]
  simp only [Record.encode, append_assoc]
  rw [readLE_middle rfl (by omega), ← append_assoc, ← append_assoc, slice_middle]
  · simp only [length_append, length_leBytes]
  · rfl

theorem getVal_layout (inRange : idx < records.length) (smallKey : records[idx].key.length < 2 ^ 16)
    (smallValue : records[idx].value.length < 2 ^ 16) :
    getVal (layout capacity nodeType keyCount records) idx = records[idx].value := by
  obtain ⟨before, after, shape, position⟩ :=
    @layout_split_record _ nodeType _ _ fits _ inRange
  rw [getVal, ← position, shape]
  simp only [Record.encode, append_assoc]
  rw [readLE_middle rfl (by omega)]
  rw [← append_assoc before, readLE_middle (by simp) (by omega)]
  rw [← append_assoc (before ++ _), ← append_assoc (before ++ _ ++ _), slice_middle]
  · simp only [length_append, length_leBytes]
  · rfl

end

/-! ## Appending one record -/

/-- The pointer array after one more pointer. -/
theorem patch_pointers (record : Record) (room : records.length < keyCount) :
    patch (pointerSlots keyCount records) (records.length * pagePtrSize)
      (leBytes pagePtrSize record.pageID) = pointerSlots keyCount (records ++ [record]) := by
  rw [pointerSlots, patch_append_right (by simp), length_pointerArray, Nat.sub_self, patch_zeros,
    pointerSlots, pointerArray_append]
  simp only [pointerArray, flatMap_cons, flatMap_nil, append_nil, length_leBytes,
    append_assoc, length_append, length_singleton]
  congr 3
  simp only [pagePtrSize]
  omega

theorem setPtr_segments (record : Record) (room : records.length < keyCount) :
    setPtr (header nodeType keyCount ++ (pointerSlots keyCount records ++ area)) records.length
      record.pageID = header nodeType keyCount ++ (pointerSlots keyCount (records ++ [record]) ++
        area) := by
  rw [setPtr, writeLE, patch_append_right (by simp), length_header, Nat.add_sub_cancel_left,
    patch_append_left, patch_pointers record room]
  rw [length_pointerSlots room.le, length_leBytes, ← Nat.succ_mul]
  exact Nat.mul_le_mul_right _ room

/-- The offset array after one more end offset. -/
theorem patch_offsets (record : Record) (room : records.length < keyCount) :
    patch (offsetSlots keyCount records) (records.length * pageOffsetSize)
        (leBytes pageOffsetSize (recordBytes records + record.size)) =
      offsetSlots keyCount (records ++ [record]) := by
  rw [offsetSlots, patch_append_right (by simp), length_offsetArray, Nat.sub_self, patch_zeros,
    offsetSlots, offsetArray_append]
  simp only [offsetArray, Nat.zero_add, append_nil, length_leBytes, append_assoc, length_append,
    length_singleton]
  congr 3
  simp only [pageOffsetSize]
  omega

/-- A write behind the two arrays. -/
theorem patch_area (pointersLength : pointers.length = keyCount * pagePtrSize)
    (offsetsLength : offsets.length = keyCount * pageOffsetSize) (data : Bytes) {pos : Nat}
    (extra : Nat) (start : pos = pageHeaderSize + keyCount * (pagePtrSize + pageOffsetSize) + extra)
      :
    patch (header nodeType keyCount ++ (pointers ++ (offsets ++ area))) pos data =
      header nodeType keyCount ++ (pointers ++ (offsets ++ patch area extra data)) := by
  rw [Nat.mul_add] at start
  rw [patch_append_right (by rw [length_header]; omega), length_header,
    patch_append_right (by omega), patch_append_right (by omega), pointersLength, offsetsLength]
  congr 4
  omega

/-- The record area after one more record, written field by field. -/
theorem patch_record (record : Record) (free : Nat) :
    patch (patch (patch (patch (recordArea records ++ zeros free) (recordBytes records)
        (leBytes 2 record.key.length)) (recordBytes records + 2) (leBytes 2 record.value.length))
        (recordBytes records + 4) record.key)
        (recordBytes records + 4 + record.key.length) record.value =
      recordArea (records ++ [record]) ++ zeros (free - record.size) := by
  have step : ∀ (written data : Bytes) (pos free : Nat),
      pos = recordBytes records + written.length →
      patch (recordArea records ++ (written ++ zeros free)) pos data =
        recordArea records ++ ((written ++ data) ++ zeros (free - data.length)) := by
    intro written data pos free at_end
    rw [patch_append_right (by simp; omega), length_recordArea,
      patch_append_right (by omega), show pos - recordBytes records - written.length = 0 by omega,
      patch_zeros, append_assoc]
  have first := step [] (leBytes 2 record.key.length) (recordBytes records) free (by simp)
  rw [nil_append, nil_append] at first
  rw [first, step _ _ _ _ (by simp), step _ _ _ _ (by simp),
    step _ _ _ _ (by simp; omega)]
  rw [recordArea_append]
  simp only [recordArea, flatMap_cons, flatMap_nil, append_nil, Record.encode,
    append_assoc, length_leBytes]
  congr 6
  simp only [Record.size]
  omega

end Layout

/-- A record that the append and the validator accept at index `idx` of a node. -/
structure Admissible (nodeType idx : Nat) (record : Record) : Prop where
  typed : nodeType = nodeTypeLeaf ∨ nodeType = nodeTypeInternal
  key_le : record.key.length ≤ maxKeySize
  value_le : record.value.length ≤ maxValueSize
  key_ne_nil : idx ≠ 0 → record.key ≠ []
  sentinel : record.key = [] → record.value = []
  leaf : nodeType = nodeTypeLeaf → record.pageID = 0
  internal : nodeType = nodeTypeInternal → record.pageID ≠ 0 ∧ record.value = []
  pageID_lt : record.pageID < 2 ^ 64

theorem nodeType_lt {nodeType : Nat}
    (typed : nodeType = nodeTypeLeaf ∨ nodeType = nodeTypeInternal) : nodeType < 2 ^ 16 := by
  rcases typed with rfl | rfl
  · decide
  · decide

/-- With an admissible record only the space check of the append remains. -/
theorem nodeAppendKV_eq {node : BNode} {record : Record} (room : idx < nkeys node)
    (admissible : Admissible (btype node) idx record) :
    nodeAppendKV node idx record.pageID record.key record.value =
      if node.length < kvPos node idx + record.size then
        .error (.errorf "encoded node exceeds page size" [])
      else
        let pos := kvPos node idx
        let node := setPtr node idx record.pageID
        let node := writeLE node pos 2 record.key.length
        let node := writeLE node (pos + 2) 2 record.value.length
        let node := patch node (pos + 4) record.key
        let node := patch node (pos + 4 + record.key.length) record.value
        .ok (setOffset node (idx + 1) ((getOffset node idx + record.size) % 2 ^ 16)) := by
  obtain ⟨typed, keyLe, valueLe, keyNe, sentinel, leaf, internal, _⟩ := admissible
  rw [nodeAppendKV, if_neg (by omega), if_neg (by omega),
    if_neg (by rintro ⟨empty, late⟩; exact keyNe late (length_eq_zero_iff.mp empty)),
    if_neg (by
      rintro ⟨empty, valued⟩
      exact valued (by rw [sentinel (length_eq_zero_iff.mp empty)]; rfl)),
    if_neg (by omega),
    if_neg (by rintro ⟨isLeaf, child⟩; exact child (leaf isLeaf)),
    if_neg (by rintro ⟨isInternal, zero⟩; exact (internal isInternal).1 zero),
    if_neg (by rintro ⟨isInternal, valued⟩; exact valued (by rw [(internal isInternal).2]; rfl)),
    if_neg (by rintro ⟨notLeaf, notInternal⟩; exact typed.elim notLeaf notInternal)]
  rfl

section Append

variable {capacity nodeType keyCount : Nat} {records : List Record} {record : Record}

section

variable (fits : Fits capacity keyCount records) (room : records.length < keyCount)
include fits room

/-- Appending an admissible record that fits extends the layout. -/
theorem nodeAppendKV_layout (admissible : Admissible nodeType records.length record)
    (inside : pageHeaderSize + keyCount * (pagePtrSize + pageOffsetSize) +
      (recordBytes records + record.size) ≤ capacity) :
    nodeAppendKV (layout capacity nodeType keyCount records) records.length record.pageID
        record.key record.value =
      .ok (layout capacity nodeType keyCount (records ++ [record])) := by
  have counted := fits.counted
  have bounded := fits.bounded
  have slots := length_offsetSlots fits.placed
  have sized : (pointerSlots keyCount (records ++ [record])).length = keyCount * pagePtrSize :=
    length_pointerSlots (by rw [length_append]; exact room)
  rw [nodeAppendKV_eq (by rw [nkeys_layout counted]; exact room)
      (by rw [btype_layout (nodeType_lt admissible.typed)]; exact admissible),
    length_layout fits, kvPos_layout_end fits, if_neg (by omega)]
  dsimp only
  rw [layout_segments, setPtr_segments record room]
  -- the four fields of the record go into the record area
  simp only [writeLE]
  rw [patch_area sized slots _ (recordBytes records) rfl,
    patch_area sized slots _ (recordBytes records + 2) (by omega),
    patch_area sized slots _ (recordBytes records + 4) (by omega),
    patch_area sized slots _ (recordBytes records + 4 + record.key.length) (by omega), patch_record]
  -- the end offset goes into the offset array
  rw [getOffset_segments fits (Nat.le_refl _) sized, take_length, setOffset,
    nkeys_header _ counted, writeLE, Nat.add_sub_cancel, Nat.mod_eq_of_lt (by omega),
    patch_append_right (by rw [length_header]; omega), length_header,
    patch_append_right (by omega), sized,
    show pageHeaderSize + keyCount * pagePtrSize + records.length * pageOffsetSize -
      pageHeaderSize - keyCount * pagePtrSize = records.length * pageOffsetSize by omega,
    patch_append_left, patch_offsets record room, layout_segments]
  · simp only [recordBytes_append, recordBytes_cons, recordBytes_nil, Nat.add_zero]
    congr 6
    omega
  · rw [slots, length_leBytes, ← Nat.succ_mul]
    exact Nat.mul_le_mul_right _ room

/-- An admissible record that does not fit any more is refused. -/
theorem nodeAppendKV_layout_full (admissible : Admissible nodeType records.length record)
    (outside : capacity < pageHeaderSize + keyCount * (pagePtrSize + pageOffsetSize) +
      (recordBytes records + record.size)) :
    nodeAppendKV (layout capacity nodeType keyCount records) records.length record.pageID
        record.key record.value = .error (.errorf "encoded node exceeds page size" []) := by
  rw [nodeAppendKV_eq (by rw [nkeys_layout fits.counted]; exact room)
      (by rw [btype_layout (nodeType_lt admissible.typed)]; exact admissible),
    length_layout fits, kvPos_layout_end fits, if_pos (by omega)]

theorem Fits.append (inside : pageHeaderSize + keyCount * (pagePtrSize + pageOffsetSize) +
      (recordBytes records + record.size) ≤ capacity) :
    Fits capacity keyCount (records ++ [record]) where
  placed := by
    simp only [length_append, length_singleton]
    omega
  counted := fits.counted
  inside := by simpa using inside
  bounded := fits.bounded

end

end Append

/-! ## Reading a node -/

/-- The accessors of `node` see the type `nodeType` and the entries `records`. -/
structure Holds (node : BNode) (nodeType : Nat) (records : List Record) : Prop where
  type_eq : btype node = nodeType
  count_eq : nkeys node = records.length
  offset_eq : ∀ idx, idx ≤ records.length → getOffset node idx = recordBytes (records.take idx)
  record_eq : ∀ idx (inRange : idx < records.length),
    (⟨getPtr node idx, getKey node idx, getVal node idx⟩ : Record) = records[idx]

namespace Holds

variable {node : BNode} {nodeType : Nat} {records : List Record}

variable {idx : Nat}

section

variable (holds : Holds node nodeType records)
include holds

theorem ptr_eq (inRange : idx < records.length) :
    getPtr node idx = records[idx].pageID := congrArg Record.pageID (holds.record_eq idx inRange)

theorem key_eq (inRange : idx < records.length) :
    getKey node idx = records[idx].key := congrArg Record.key (holds.record_eq idx inRange)

theorem val_eq (inRange : idx < records.length) :
    getVal node idx = records[idx].value := congrArg Record.value (holds.record_eq idx inRange)

theorem total_eq : getOffset node (nkeys node) = recordBytes records := by
  rw [holds.count_eq, holds.offset_eq _ (Nat.le_refl _), take_length]

/-- The encoded size, unless it wraps around. -/
theorem nbytes_eq (small : nodeSize records < 2 ^ 16) : nbytes node = nodeSize records := by
  rw [nbytes, kvPos, holds.total_eq, holds.count_eq]
  dsimp only [nodeSize] at small ⊢
  rw [Nat.mod_eq_of_lt (by omega), Nat.mod_eq_of_lt (by omega)]

/-- A node holds at most one list of records. -/
theorem records_unique {other : List Record}
    (same : Holds node nodeType other) : records = other := by
  apply ext_getElem
  · rw [← holds.count_eq, same.count_eq]
  · intro idx left right
    rw [← holds.record_eq idx left, same.record_eq idx right]

end

end Holds

/-- The error of an append that runs out of space. -/
def errNodeFull : GoError := .errorf "encoded node exceeds page size" []

/-- Appending a range of another node's records either extends the layout by them
or, when they do not fit, fails for lack of space. -/
theorem nodeAppendRangeLoop_layout {capacity nodeType keyCount srcType : Nat} {src : BNode}
    {source : List Record} (holds : Holds src srcType source) (dstStart srcStart : Nat) :
    ∀ (count i : Nat) (records : List Record), Fits capacity keyCount records →
      records.length = dstStart + i → dstStart + i + count ≤ keyCount →
      srcStart + i + count ≤ source.length →
      (∀ idx (inRange : idx < source.length), srcStart + i ≤ idx → idx < srcStart + i + count →
        Admissible nodeType (idx - srcStart + dstStart) source[idx]) →
      nodeAppendRangeLoop src dstStart srcStart count i
        (layout capacity nodeType keyCount records) = if pageHeaderSize + keyCount *
            (pagePtrSize + pageOffsetSize) + recordBytes
            (records ++ (source.drop (srcStart + i)).take count) ≤ capacity then
          .ok (layout capacity nodeType keyCount
            (records ++ (source.drop (srcStart + i)).take count))
        else .error errNodeFull := by
  intro count
  induction count with
  | zero =>
    intro i records fits _ _ _ _
    rw [take_zero, append_nil, if_pos fits.inside, nodeAppendRangeLoop]
  | succ count ih =>
    intro i records fits position dstRoom srcRoom admissible
    have inRange : srcStart + i < source.length := by omega
    have room : records.length < keyCount := by omega
    have chunk : (source.drop (srcStart + i)).take (count + 1) =
        source[srcStart + i] :: (source.drop (srcStart + (i + 1))).take count := by
      rw [drop_eq_getElem_cons inRange, take_succ_cons, Nat.add_assoc]
    have admissibleHere : Admissible nodeType records.length source[srcStart + i] := by
      have here := admissible (srcStart + i) inRange (Nat.le_refl _) (by omega)
      rwa [show srcStart + i - srcStart + dstStart = records.length by omega] at here
    rw [nodeAppendRangeLoop, holds.ptr_eq inRange, holds.key_eq inRange, holds.val_eq inRange,
      ← position, chunk]
    by_cases inside : pageHeaderSize + keyCount * (pagePtrSize + pageOffsetSize) +
        (recordBytes records + source[srcStart + i].size) ≤ capacity
    · rw [nodeAppendKV_layout fits room admissibleHere inside]
      dsimp only
      have rest := ih (i + 1) (records ++ [source[srcStart + i]]) (fits.append room inside)
        (by rw [length_append, length_singleton]; omega) (by omega) (by omega)
        (by
          intro idx bound low high
          exact admissible idx bound (by omega) (by omega))
      rw [append_assoc, singleton_append] at rest
      exact rest
    · rw [nodeAppendKV_layout_full fits room admissibleHere (by omega), if_neg]
      · rfl
      · rw [recordBytes_append, recordBytes_cons]
        omega

/-- A complete layout holds its records. -/
theorem holds_layout {capacity nodeType : Nat} {records : List Record}
    (fits : Fits capacity records.length records)
    (admissible : ∀ idx (inRange : idx < records.length), Admissible nodeType idx records[idx])
    (typeSmall : nodeType < 2 ^ 16) :
    Holds (layout capacity nodeType records.length records) nodeType records where
  type_eq := btype_layout typeSmall
  count_eq := nkeys_layout fits.counted
  offset_eq := fun _ bound => getOffset_layout fits bound
  record_eq := by
    intro idx inRange
    have limits := admissible idx inRange
    have keySmall : records[idx].key.length < 2 ^ 16 := by
      have := limits.key_le
      simp only [maxKeySize] at this
      omega
    have valueSmall : records[idx].value.length < 2 ^ 16 := by
      have := limits.value_le
      simp only [maxValueSize] at this
      omega
    rw [getPtr_layout inRange limits.pageID_lt, getKey_layout fits inRange keySmall,
      getVal_layout fits inRange keySmall valueSmall]

end GoDatabase
