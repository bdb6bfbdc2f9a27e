import GoDatabase.Relational.Row

/-!
# Stored schemas and index definitions

The catalog keeps a descriptor for every table and a definition for every index.
Reading back a stored descriptor or definition gives what was stored.
-/

namespace GoDatabase

open Library List

/-- The bytes of `GDTB`. -/
def descriptorMagic : Bytes := [71, 68, 84, 66]

/-- The bytes of `GDXI`. -/
def indexMagic : Bytes := [71, 68, 88, 73]

/-! ## Descriptors -/

/-- The number of the primary column, zero if there is none. -/
def primaryID : List Column → (id pk : Nat) → Nat
  | [], _, pk => pk
  | c :: rest, id, pk => primaryID rest (id + 1) (if c.primaryKey then id else pk)

/-- The columns of a descriptor; `id` is the number of the first one. -/
def encodeDefinitions : List Column → (id : Nat) → Bytes
  | [], _ => []
  | c :: rest, id =>
    leBytes 2 id ++ ([c.type, boolByte c.nullable] ++
      (leBytes 2 c.name.length ++ (c.name ++ encodeDefinitions rest (id + 1))))

def encodeDescriptor (s : TableSchema) : Bytes :=
  descriptorMagic ++
    (leBytes 2 2 ++
      ([0, 0] ++
        (leBytes 4 1 ++
          (leBytes 2 s.name.length ++
            (s.name ++
              (leBytes 2 (primaryID s.columns 1 0) ++
                (leBytes 2 s.columns.length ++ encodeDefinitions s.columns 1)))))))

/-- The loop of `decodeDescriptor` over the data that is left. -/
def decodeDefinitions (pk : Nat) : (count id : Nat) → (data : Bytes) → Except GoError (List Column)
  | 0, _, data => if data ≠ [] then .error errInvalidSchema else .ok []
  | count + 1, id, data =>
    match data with
    | low :: high :: typ :: flags :: lengthLow :: lengthHigh :: rest =>
      let number := leNat [low, high]
      let length := leNat [lengthLow, lengthHigh]
      if number ≠ id ∨ 1 < flags ∨ (number = pk ∧ flags ≠ 0) ∨ rest.length < length then
        .error errInvalidSchema
      else do
        let others ← decodeDefinitions pk count (id + 1) (rest.drop length)
        return ⟨rest.take length, typ, number = pk, flags &&& 1 ≠ 0 ∧ number ≠ pk⟩ :: others
    | _ => .error errInvalidSchema

def decodeDescriptor (b : Bytes) : Except GoError TableSchema :=
  if b.length < 6 ∨ b.take 4 ≠ descriptorMagic then
    .error errInvalidSchema
  else if readLE b 4 2 ≠ 2 then
    .error (unsupported errInvalidSchema)
  else if b.length < 18 ∨ 3000 < b.length ∨ b[6]? ≠ some 0 ∨ b[7]? ≠ some 0 ∨ readLE b 8 4 ≠ 1 then
    .error errInvalidSchema
  else
    let nl := readLE b 12 2
    if b.length < 14 + nl + 4 then
      .error errInvalidSchema
    else do
      let columns ← decodeDefinitions (readLE b (14 + nl) 2) (readLE b (14 + nl + 2) 2) 1
        (b.drop (18 + nl))
      let s : TableSchema := ⟨slice b 14 nl, columns⟩
      validateSchema s
      return s

/-! ## Index definitions -/

def validateIndex (index : Index) (schema : TableSchema) : Except GoError Unit :=
  if index.name = [] ∨ 128 < index.name.length ∨ index.column = [] then
    .error errInvalidSchema
  else
    match findColumn schema index.column with
    | none => .error errInvalidSchema
    | some column => if column.primaryKey then .error errInvalidSchema else .ok ()

def encodeIndexMetadata (index : Index) : Bytes :=
  indexMagic ++ (leBytes 2 2 ++ ([boolByte index.unique, 0] ++
    (leBytes 2 index.column.length ++ index.column)))

def decodeIndexMetadata (indexName data : Bytes) : Except GoError Index :=
  if data.length < 6 ∨ data.take 4 ≠ indexMagic then
    .error errInvalidSchema
  else if readLE data 4 2 ≠ 2 then
    .error (unsupported errInvalidSchema)
  else if data.length < 10 ∨ data[7]? ≠ some 0 ∨ indexName.length = 0 ∨ 128 < indexName.length then
    .error errInvalidSchema
  else
    let nameLength := readLE data 8 2
    let flags := data.getD 6 0
    if 10 + nameLength ≠ data.length ∨ flags &&& ~~~1 ≠ 0 ∨ nameLength = 0 ∨ 128 < nameLength then
      .error errInvalidSchema
    else
      .ok ⟨indexName, data.drop 10, flags &&& 1 ≠ 0⟩

/-! ## Round trip of descriptors -/

variable {s : TableSchema}

/-- The primary column of an accepted schema stands alone. -/
theorem TableSchema.Valid.split_columns (valid : s.Valid) :
    ∃ before primary after, s.columns = before ++ primary :: after ∧ primary.primaryKey = true ∧
      (∀ c ∈ before, c.primaryKey = false) ∧ ∀ c ∈ after, c.primaryKey = false := by
  obtain ⟨before, after, shape⟩ := append_of_mem valid.findPrimary_mem.1
  have key := valid.findPrimary_mem.2
  have count := valid.primary
  rw [shape, countP_append, countP_cons_of_pos key] at count
  have none_of : ∀ columns : List Column, columns.countP Column.primaryKey = 0 →
      ∀ c ∈ columns, c.primaryKey = false :=
    fun columns zero c mem => by simpa using countP_eq_zero.mp zero c mem
  exact ⟨before, _, after, shape, key, none_of before (by omega), none_of after (by omega)⟩

theorem primaryID_of_plain {columns : List Column} (plain : ∀ c ∈ columns, c.primaryKey = false) :
    ∀ id pk, primaryID columns id pk = pk := by
  induction columns with
  | nil => exact fun id pk => rfl
  | cons c rest ih =>
    intro id pk
    rw [primaryID, plain c (mem_cons_self ..)]
    exact ih (fun other mem => plain other (mem_cons_of_mem _ mem)) _ _

theorem primaryID_append {before after : List Column} {primary : Column}
    (plainBefore : ∀ c ∈ before, c.primaryKey = false) (key : primary.primaryKey = true)
    (plainAfter : ∀ c ∈ after, c.primaryKey = false) : ∀ id pk,
    primaryID (before ++ primary :: after) id pk = id + before.length := by
  induction before with
  | nil =>
    intro id pk
    rw [nil_append, primaryID, if_pos key]
    exact primaryID_of_plain plainAfter _ _
  | cons c before ih =>
    intro id pk
    rw [cons_append, primaryID, plainBefore c (mem_cons_self ..),
      ih fun other mem => plainBefore other (mem_cons_of_mem _ mem), length_cons]
    omega

/-- The number of the primary column marks it. -/
theorem TableSchema.Valid.primaryID_eq (valid : s.Valid) {idx : Nat} {c : Column}
    (here : s.columns[idx]? = some c) : c.primaryKey =
      decide (1 + idx = primaryID s.columns 1 0) := by
  obtain ⟨before, primary, after, shape, key, plainBefore, plainAfter⟩ := valid.split_columns
  rw [shape] at here ⊢
  rw [primaryID_append plainBefore key plainAfter]
  rcases lt_trichotomy idx before.length with left | rfl | right
  · rw [List.getElem?_append_left left] at here
    rw [plainBefore c (mem_of_getElem? here), decide_eq_false (by omega)]
  · rw [List.getElem?_append_right le_rfl, Nat.sub_self] at here
    cases here
    rw [key, decide_eq_true rfl]
  · obtain ⟨past, rfl⟩ : ∃ past, idx = before.length + (past + 1) :=
      ⟨idx - before.length - 1, by omega⟩
    rw [List.getElem?_append_right (by omega), Nat.add_sub_cancel_left,
      List.getElem?_cons_succ] at here
    rw [plainAfter c (mem_of_getElem? here), decide_eq_false (by omega)]

theorem primaryID_le (valid : s.Valid) : primaryID s.columns 1 0 ≤ s.columns.length := by
  obtain ⟨before, primary, after, shape, key, plainBefore, plainAfter⟩ := valid.split_columns
  rw [shape, primaryID_append plainBefore key plainAfter, length_append, length_cons]
  omega

theorem leBytes_two (value : Nat) : leBytes 2 value =
    [UInt8.ofNat (value % 256), UInt8.ofNat (value / 256 % 256)] := rfl

theorem decodeDefinitions_encodeDefinitions {pk : Nat} (columns : List Column) : ∀ id,
    (∀ c ∈ columns, c.name.length ≤ 128 ∧ (c.primaryKey = true → c.nullable = false)) →
    (∀ idx c, columns[idx]? = some c → c.primaryKey = decide (id + idx = pk)) →
    id + columns.length ≤ 65536 →
    decodeDefinitions pk columns.length id (encodeDefinitions columns id) = .ok columns := by
  induction columns with
  | nil => exact fun id _ _ _ => rfl
  | cons c rest ih =>
    intro id valid marked fits
    obtain ⟨short, notNull⟩ := valid c (mem_cons_self ..)
    rw [length_cons] at fits
    have isKey : c.primaryKey = decide (id = pk) := marked 0 c rfl
    have number : leNat (leBytes 2 id) = id := leNat_leBytes (by omega)
    have length : leNat (leBytes 2 c.name.length) = c.name.length := leNat_leBytes (by omega)
    have others := ih (id + 1) (fun other mem => valid other (mem_cons_of_mem _ mem))
      (fun idx other here => by
        rw [marked (idx + 1) other here]
        congr 1
        rw [Nat.add_assoc, Nat.add_comm 1 idx])
      (by omega)
    have flagsZero : id = pk → boolByte c.nullable = 0 := by
      intro same
      rw [notNull (isKey.trans (decide_eq_true same))]
      rfl
    have flagsSmall : ¬ 1 < boolByte c.nullable := by
      cases c.nullable with
      | true => decide
      | false => decide
    have flag : decide (boolByte c.nullable &&& 1 ≠ 0 ∧ id ≠ pk) = c.nullable := by
      by_cases same : id = pk
      · rw [notNull (isKey.trans (decide_eq_true same))]
        simp [same]
      · cases c.nullable with
        | true => simp [same, boolByte]
        | false => simp [boolByte]
    rw [leBytes_two] at number length
    rw [encodeDefinitions, length_cons]
    simp only [leBytes_two, cons_append, nil_append]
    rw [decodeDefinitions]
    simp only [number, length, take_left, drop_left, others, flag]
    rw [if_neg]
    · rw [ok_bind, ← isKey]
      rfl
    · rintro (ne | large | ⟨same, nonzero⟩ | short)
      · exact ne rfl
      · exact flagsSmall large
      · exact nonzero (flagsZero same)
      · rw [length_append] at short
        omega

/-- An accepted schema whose descriptor is small enough is read back. -/
theorem decodeDescriptor_encodeDescriptor (valid : s.Valid)
    (small : (encodeDescriptor s).length ≤ 3000) : decodeDescriptor (encodeDescriptor s) =
      .ok s := by
  have few := valid.few
  have short := valid.short
  have keyFits := primaryID_le valid
  have magic : (encodeDescriptor s).take 4 = descriptorMagic := take_left' rfl
  have version : readLE (encodeDescriptor s) 4 2 = 2 := readLE_middle rfl (by decide)
  have total : (encodeDescriptor s).length =
      18 + s.name.length + (encodeDefinitions s.columns 1).length := by
    simp only [encodeDescriptor, descriptorMagic, length_append, length_cons, length_nil,
      length_leBytes]
    omega
  have schema : readLE (encodeDescriptor s) 8 4 = 1 := by
    rw [encodeDescriptor, ← append_assoc, ← append_assoc]
    exact readLE_middle rfl (by decide)
  have nameLength : readLE (encodeDescriptor s) 12 2 = s.name.length := by
    rw [encodeDescriptor, ← append_assoc, ← append_assoc, ← append_assoc]
    exact readLE_middle rfl (by omega)
  have front : encodeDescriptor s = (descriptorMagic ++ leBytes 2 2 ++ [0, 0] ++ leBytes 4 1 ++
      leBytes 2 s.name.length) ++ (s.name ++ (leBytes 2 (primaryID s.columns 1 0) ++
        (leBytes 2 s.columns.length ++ encodeDefinitions s.columns 1))) := by
    simp only [encodeDescriptor, append_assoc]
  have name : slice (encodeDescriptor s) 14 s.name.length = s.name := by
    rw [front]
    exact slice_middle rfl rfl
  have primary : readLE (encodeDescriptor s) (14 + s.name.length) 2 = primaryID s.columns 1 0 := by
    rw [front, ← append_assoc]
    exact readLE_middle (by simp [descriptorMagic]; omega) (by omega)
  have count : readLE (encodeDescriptor s) (14 + s.name.length + 2) 2 = s.columns.length := by
    rw [front, ← append_assoc, ← append_assoc]
    exact readLE_middle (by simp [descriptorMagic]; omega) (by omega)
  have rest : (encodeDescriptor s).drop (18 + s.name.length) = encodeDefinitions s.columns 1 := by
    rw [front, ← append_assoc, ← append_assoc, ← append_assoc]
    exact drop_left' (by simp [descriptorMagic]; omega)
  have columns : decodeDefinitions (primaryID s.columns 1 0) s.columns.length 1
      (encodeDefinitions s.columns 1) = .ok s.columns :=
    decodeDefinitions_encodeDefinitions s.columns 1
      (fun c mem => ⟨(valid.columns.each c mem).short, (valid.columns.each c mem).key_not_null⟩)
      (fun idx c here => valid.primaryID_eq here) (by omega)
  rw [decodeDescriptor, if_neg, if_neg (not_not.mpr version), if_neg]
  · simp only [nameLength, primary, count, rest, columns, name]
    rw [if_neg (by omega), ok_bind, validateSchema_eq_ok.mpr valid]
    rfl
  · rintro (tooShort | tooLong | reserved | reserved | other)
    · omega
    · omega
    · exact reserved rfl
    · exact reserved rfl
    · exact other schema
  · rintro (tooShort | other)
    · omega
    · exact other magic

/-! ## Round trip of index definitions -/

/-- An index that a table can have. -/
structure Index.Valid (index : Index) (schema : TableSchema) : Prop where
  named : index.name ≠ []
  short : index.name.length ≤ 128
  column : ∃ column ∈ schema.columns, column.name = index.column ∧ column.primaryKey = false

variable {index : Index} {schema : TableSchema}

theorem validateIndex_eq_ok (valid : schema.Valid) :
    validateIndex index schema = .ok () ↔ index.Valid schema := by
  rw [validateIndex, guard_eq_ok]
  constructor
  · rintro ⟨shape, run⟩
    simp only [not_or, not_lt] at shape
    refine ⟨shape.1, shape.2.1, ?_⟩
    cases found : findColumn schema index.column with
    | none =>
      rw [found] at run
      cases run
    | some column =>
      rw [found] at run
      dsimp only at run
      split_ifs at run with key
      exact ⟨column, mem_of_find?_eq_some found, by simpa using List.find?_some found,
        Bool.eq_false_iff.mpr key⟩
  · rintro ⟨named, short, column, mem, same, plain⟩
    have found := valid.findColumn_name mem
    rw [same] at found
    refine ⟨?_, ?_⟩
    · rintro (unnamed | long | empty)
      · exact named unnamed
      · omega
      · exact (valid.columns.each column mem).named (same.trans empty)
    · rw [found]
      exact if_neg (Bool.eq_false_iff.mp plain)

theorem Index.Valid.column_length (valid : schema.Valid)
    (isValid : index.Valid schema) : 0 < index.column.length ∧ index.column.length ≤ 128 := by
  obtain ⟨column, mem, same, -⟩ := isValid.column
  have each := valid.columns.each column mem
  rw [← same]
  exact ⟨length_pos_of_ne_nil each.named, each.short⟩

theorem Index.Valid.known_column (isValid : index.Valid schema)
    (valid : schema.Valid) : (columnByName schema index.column).type.Known := by
  obtain ⟨column, mem, same, -⟩ := isValid.column
  rw [columnByName, ← same, valid.findColumn_name mem]
  exact (valid.columns.each column mem).known

theorem decodeIndexMetadata_name {name data : Bytes}
    (decoded : decodeIndexMetadata name data = .ok index) : index.name = name := by
  rw [decodeIndexMetadata, guard_eq_ok, guard_eq_ok, guard_eq_ok] at decoded
  obtain ⟨-, -, -, decoded⟩ := decoded
  dsimp only at decoded
  rw [guard_eq_ok] at decoded
  rw [← Except.ok.inj decoded.2]

theorem decodeIndexMetadata_encodeIndexMetadata (named : index.name ≠ [])
    (short : index.name.length ≤ 128) (column : 0 < index.column.length)
    (columnShort : index.column.length ≤ 128) :
    decodeIndexMetadata index.name (encodeIndexMetadata index) = .ok index := by
  have nameLength := length_pos_of_ne_nil named
  have magic : (encodeIndexMetadata index).take 4 = indexMagic := take_left' rfl
  have version : readLE (encodeIndexMetadata index) 4 2 = 2 := readLE_middle rfl (by decide)
  have total : (encodeIndexMetadata index).length = 10 + index.column.length := by
    simp only [encodeIndexMetadata, indexMagic, length_append, length_cons, length_nil,
      length_leBytes]
    omega
  have length : readLE (encodeIndexMetadata index) 8 2 = index.column.length := by
    rw [encodeIndexMetadata, ← append_assoc, ← append_assoc]
    exact readLE_middle rfl (by omega)
  have rest : (encodeIndexMetadata index).drop 10 = index.column := by
    rw [encodeIndexMetadata, ← append_assoc, ← append_assoc, ← append_assoc]
    exact drop_left' rfl
  have flags : (encodeIndexMetadata index).getD 6 0 = boolByte index.unique := rfl
  have unique : boolByte index.unique &&& ~~~1 = 0 ∧ decide (boolByte index.unique &&& 1 ≠ 0) =
    index.unique := by
    cases index.unique with
    | true => decide
    | false => decide
  rw [decodeIndexMetadata, if_neg, if_neg (not_not.mpr version), if_neg]
  · simp only [length, flags, rest, unique.2]
    rw [if_neg]
    rintro (ne | masked | none | long)
    · omega
    · exact masked unique.1
    · omega
    · omega
  · rintro (tooShort | reserved | unnamed | long)
    · omega
    · exact reserved rfl
    · omega
    · omega
  · rintro (tooShort | other)
    · omega
    · exact other magic

theorem Index.Valid.decode_encode (isValid : index.Valid s) (valid : s.Valid) :
    decodeIndexMetadata index.name (encodeIndexMetadata index) = .ok index := by
  obtain ⟨nonempty, short⟩ := isValid.column_length valid
  exact decodeIndexMetadata_encodeIndexMetadata isValid.named isValid.short nonempty short

/-! ## Indexed columns -/

variable {row : Row} {enc value : Bytes}

/-- The columns that an index can be on are read back as they were written. -/
theorem EncodesRow.get_decoded {decoded : Row}
    (encodes : EncodesRow s row enc value) (read : decodeRow s value = .ok decoded)
    (valid : index.Valid s) : decoded.get index.column = row.get index.column := by
  rw [encodes.decodeRow_eq] at read
  obtain rfl := Except.ok.inj read
  obtain ⟨column, mem, named, plain⟩ := valid.column
  have listed : index.column ∈ (plainColumns s.columns).map Column.name :=
    mem_map.mpr ⟨column, mem_filter.mpr ⟨mem, by rw [plain]; rfl⟩, named⟩
  rw [Row.get, Row.lookup_select, if_pos listed]
  rfl

/-- Two rows with one value have the same columns that an index can be on. -/
theorem EncodesRow.get_eq {other : Row} {otherEnc : Bytes}
    (encodes : EncodesRow s row enc value) (also : EncodesRow s other otherEnc value)
    (valid : index.Valid s) : other.get index.column = row.get index.column := by
  rw [← encodes.get_decoded also.decodeRow_eq valid, ← also.get_decoded also.decodeRow_eq valid]

end GoDatabase
