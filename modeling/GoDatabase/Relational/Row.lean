import GoDatabase.Library.SortedMap
import GoDatabase.Relational.Keys

/-!
# Stored rows

A row is stored under its primary key; its value lists the other columns by number,
each with the length of its encoded value.  Reading back what was written gives every
column of the schema, those that were left out as NULL.
-/

namespace GoDatabase

open Library SortedMap List

/-- `map[string]any`, by name. -/
abbrev Row := List (Binding Bytes Value)

/-- `row[name]`: a missing column reads as nil. -/
def Row.get (row : Row) (name : Bytes) : Value := (lookup row name).getD .null

def errUnsupportedRelationalFormat : GoError := .sentinel
  "unsupported relational format: export with the original version and import into a new database"

/-- `fmt.Errorf("%w: %w", ...)` -/
def unsupported (err : GoError) : GoError :=
  .wrap "%w: %w" [] (.join err errUnsupportedRelationalFormat)

/-- The bytes of `GDRW`. -/
def rowMagic : Bytes := [71, 68, 82, 87]

/-! ## Encoding -/

/-- The first loop of `encodeRow`, over the names of the row. -/
def checkNames (s : TableSchema) (row : Row) : Except GoError Unit :=
  match row.find? fun binding => (findColumn s binding.key).isNone with
  | some binding => .error (.wrap "%w: unknown column %s" [.bytes binding.key] errInvalidRow)
  | none => .ok ()

/-- The second loop of `encodeRow`: the value of the primary column. -/
def primaryValue (row : Row) : List Column → (pk : Value) → Except GoError Value
  | [], pk => .ok pk
  | c :: rest, pk =>
    if lookup row c.name = none ∧ ¬ c.nullable then
      .error (.wrap "%w: missing column %s" [.bytes c.name] errInvalidRow)
    else
      primaryValue row rest (if c.primaryKey then row.get c.name else pk)

/-- The third loop of `encodeRow`; `id` is the number of the first column. -/
def encodeColumns (row : Row) : List Column → (id : Nat) → Except GoError Bytes
  | [], _ => .ok []
  | c :: rest, id =>
    if c.primaryKey then
      encodeColumns row rest (id + 1)
    else do
      let ev ← encodeValue c (row.get c.name)
      let out ← encodeColumns row rest (id + 1)
      return leBytes 2 id ++ ([0, 0] ++ (leBytes 4 ev.length ++ (ev ++ out)))

/-- Version 2 of the format, schema version 1, and the number of columns that follow. -/
def rowHeader (count : Nat) : Bytes := rowMagic ++ (leBytes 2 2 ++ (leBytes 4 1 ++ leBytes 2 count))

def encodeRow (s : TableSchema) (row : Row) : Except GoError (Bytes × Bytes) :=
  if 65535 < s.columns.length ∨ validateSchema s ≠ .ok () then
    .error errInvalidSchema
  else do
    checkNames s row
    let pk ← primaryValue row s.columns .null
    let enc ← encodeValue (findPrimary s) pk
    let key := rowPrefix s.name ++ enc
    if 1000 < key.length then
      .error errInvalidRow
    else do
      let columns ← encodeColumns row s.columns 1
      let out := rowHeader (s.columns.length - 1) ++ columns
      if 3000 < out.length then .error errInvalidRow else .ok (key, out)

/-! ## Decoding -/

/-- The loop of `decodeRow` over the data that is left. -/
def decodeColumns (s : TableSchema) : (count lastID : Nat) → (data : Bytes) → Row →
    Except GoError Row
  | 0, _, data, row => if data ≠ [] then .error errInvalidRow else .ok row
  | count + 1, lastID, data, row =>
    if data.length < 8 then
      .error errInvalidRow
    else
      let id := readLE data 0 2
      let length := readLE data 4 4
      let rest := data.drop 8
      if id ≤ lastID ∨ data[2]? ≠ some 0 ∨ data[3]? ≠ some 0 ∨ rest.length < length then
        .error errInvalidRow
      else
        match s.columns[id - 1]? with
        | none => .error errInvalidRow
        | some column =>
          if column.primaryKey then
            .error errInvalidRow
          else do
            let value ← decodeValue column (rest.take length)
            decodeColumns s count id (rest.drop length) (put column.name value row)

def decodeRow (s : TableSchema) (data : Bytes) : Except GoError Row :=
  if data.length < 6 ∨ data.take 4 ≠ rowMagic then
    .error errInvalidRow
  else if readLE data 4 2 ≠ 2 then
    .error (unsupported errInvalidRow)
  else if data.length < 12 ∨ 3000 < data.length ∨ 65535 < s.columns.length ∨
      validateSchema s ≠ .ok () then
    .error errInvalidRow
  else if readLE data 6 4 ≠ 1 then
    .error errInvalidRow
  else if readLE data 10 2 ≠ s.columns.length - 1 then
    .error errInvalidRow
  else
    decodeColumns s (readLE data 10 2) 0 (data.drop 12) []

/-! ## Values -/

variable {c : Column} {v : Value} {word : Bytes}

theorem decodePrimaryKey_of_encodes (encodes : Encodes c v word)
    (key : c.primaryKey = true) (type : c.type = columnInt64 ∨ c.type = columnString) :
    decodePrimaryKey c word = .ok v := by
  rcases encodes.key_cases key type with ⟨isInt, x, rfl, rfl⟩ | ⟨isString, x, rfl, rfl⟩
  · rw [decodePrimaryKey, if_pos ⟨isInt, length_int64Bytes x⟩, int64Of_int64Bytes]
  · have other : ¬ (c.type = columnInt64 ∧ word.length = 8) := by
      rintro ⟨isInt, -⟩
      exact absurd (isInt.symm.trans isString) (by decide)
    rw [decodePrimaryKey, if_neg other, if_pos isString]

theorem decodeValue_of_encodes (encodes : Encodes c v word)
    (plain : c.primaryKey = false) : decodeValue c word = .ok v := by
  have notKey : c.primaryKey ≠ true := Bool.eq_false_iff.mp plain
  rw [decodeValue.eq_def, if_neg notKey, if_neg encodes.known]
  cases encodes with
  | keyInt64 _ key | keyString _ key => exact absurd key notKey
  | null _ nullable => simp [nullable, plain]
  | int64 type _ x =>
    dsimp only
    rw [if_neg (by decide), if_neg (not_not.mpr type.symm), decodeTyped.eq_def, if_pos type,
      if_neg (not_not.mpr (length_int64Bytes x)), int64Of_int64Bytes]
  | string type _ x =>
    dsimp only
    rw [if_neg (by decide), if_neg (not_not.mpr type.symm), decodeTyped.eq_def,
      if_neg (by rw [type]; decide), if_pos type, decodeEscapedComponent_eq_some.mpr rfl]
  | bytes type x =>
    dsimp only
    rw [if_neg (by decide), if_neg (not_not.mpr type.symm), decodeTyped.eq_def,
      if_neg (by rw [type]; decide), if_neg (by rw [type]; decide), if_pos type,
      decodeEscapedComponent_eq_some.mpr rfl]
  | bool type x =>
    dsimp only
    rw [if_neg (by decide), if_neg (not_not.mpr type.symm), decodeTyped.eq_def,
      if_neg (by rw [type]; decide), if_neg (by rw [type]; decide), if_neg (by rw [type]; decide),
      if_pos type]
    cases x with
    | false => rfl
    | true => rfl

/-! ## Round trip -/

/-- The columns outside the primary key. -/
def plainColumns (columns : List Column) : List Column := columns.filter fun c => !c.primaryKey

/-- A row with the given columns, as they are read from another row. -/
def Row.select (row : Row) (columns : List Column) (start : Row) : Row :=
  columns.foldl (fun result c => put c.name (row.get c.name) result) start

/-- One column of the value of a row. -/
def columnBytesOf (id : Nat) (ev rest : Bytes) : Bytes :=
  leBytes 2 id ++ ([0, 0] ++ (leBytes 4 ev.length ++ (ev ++ rest)))

theorem length_columnBytesOf (id : Nat) (ev rest : Bytes) :
    (columnBytesOf id ev rest).length = 8 + ev.length + rest.length := by
  simp only [columnBytesOf, length_append, length_leBytes, length_cons, length_nil]
  omega

variable {id : Nat} {ev : Bytes} {s : TableSchema} {row : Row}

theorem columnBytesOf_id (fits : id < 65536) (ev rest : Bytes) :
    readLE (columnBytesOf id ev rest) 0 2 = id := readLE_front (by omega)

theorem columnBytesOf_length (fits : ev.length ≤ 3000) (id : Nat) (rest : Bytes) :
    readLE (columnBytesOf id ev rest) 4 4 = ev.length := by
  rw [columnBytesOf, ← append_assoc]
  exact readLE_middle (by simp) (by omega)

theorem columnBytesOf_flags (id : Nat) (ev rest : Bytes) :
    (columnBytesOf id ev rest)[2]? = some 0 ∧ (columnBytesOf id ev rest)[3]? = some 0 := by
  have flags : ∀ idx, (columnBytesOf id ev rest)[2 + idx]? =
      ([0, 0] ++ (leBytes 4 ev.length ++ (ev ++ rest)))[idx]? := by
    intro idx
    rw [columnBytesOf, List.getElem?_append_right (by simp)]
    simp
  exact ⟨flags 0, flags 1⟩

theorem columnBytesOf_drop (id : Nat) (ev rest : Bytes) :
    (columnBytesOf id ev rest).drop 8 = ev ++ rest := by
  have front : columnBytesOf id ev rest =
      (leBytes 2 id ++ ([0, 0] ++ leBytes 4 ev.length)) ++ (ev ++ rest) := by
    simp only [columnBytesOf, append_assoc]
  rw [front]
  exact drop_left' (by simp)

/-- The loop reads back one encoded column. -/
theorem decodeColumns_columnBytesOf {lastID count : Nat}
    {rest : Bytes} {value : Value} (here : s.columns[id - 1]? = some c)
    (plain : c.primaryKey = false) (encodes : Encodes c value ev) (later : lastID < id)
    (idFits : id < 65536) (fits : ev.length ≤ 3000) :
    decodeColumns s (count + 1) lastID (columnBytesOf id ev rest) row =
      decodeColumns s count id rest (put c.name value row) := by
  have long : ¬ (columnBytesOf id ev rest).length < 8 := by
    rw [length_columnBytesOf]
    omega
  have accepted : ¬ (id ≤ lastID ∨ (columnBytesOf id ev rest)[2]? ≠ some 0 ∨
      (columnBytesOf id ev rest)[3]? ≠ some 0 ∨ (ev ++ rest).length < ev.length) := by
    obtain ⟨flags, reserved⟩ := columnBytesOf_flags id ev rest
    rw [flags, reserved, length_append]
    simp only [ne_eq, not_true_eq_false, false_or]
    omega
  rw [decodeColumns, if_neg long]
  simp only [columnBytesOf_id idFits, columnBytesOf_length fits, columnBytesOf_drop]
  rw [if_neg accepted, here]
  dsimp only
  rw [if_neg (Bool.eq_false_iff.mp plain), take_left, drop_left,
    decodeValue_of_encodes encodes plain, ok_bind]

theorem encodeColumns_cons_eq_ok {rest : List Column} {out : Bytes} (plain : c.primaryKey = false) :
    encodeColumns row (c :: rest) id = .ok out ↔
      ∃ ev tail, Encodes c (row.get c.name) ev ∧ encodeColumns row rest (id + 1) = .ok tail ∧
        out = columnBytesOf id ev tail := by
  rw [encodeColumns, if_neg (Bool.eq_false_iff.mp plain)]
  cases encoded : encodeValue c (row.get c.name) with
  | error err =>
    constructor
    · intro run
      cases run
    · rintro ⟨ev, tail, encodes, -⟩
      rw [encodeValue_of_encodes encodes] at encoded
      cases encoded
  | ok ev =>
    rw [ok_bind]
    cases later : encodeColumns row rest (id + 1) with
    | error err =>
      constructor
      · intro run
        cases run
      · rintro ⟨_, _, _, absurd, -⟩
        cases absurd
    | ok tail =>
      constructor
      · intro run
        cases run
        exact ⟨ev, tail, encodes_of_encodeValue encoded, rfl, rfl⟩
      · rintro ⟨other, _, encodes, same, rfl⟩
        cases same
        rw [encodeValue_of_encodes encodes] at encoded
        cases encoded
        rfl

/-- The loops undo each other.  The induction is on the columns that are left; those before
them give the number of the next column. -/
theorem decodeColumns_encodeColumns (row : Row) (few : s.columns.length ≤ 65535)
    (columns : List Column) : ∀ (before : List Column) (lastID : Nat) (out : Bytes) (start : Row),
    s.columns = before ++ columns → encodeColumns row columns (before.length + 1) = .ok out →
    out.length ≤ 3000 → lastID < before.length + 1 →
    decodeColumns s (plainColumns columns).length lastID out start =
      .ok (row.select (plainColumns columns) start) := by
  induction columns with
  | nil =>
    intro before lastID out start shape encoded small later
    cases encoded
    rfl
  | cons c rest ih =>
    intro before lastID out start shape encoded small later
    have next : s.columns = (before ++ [c]) ++ rest := by rw [shape]; simp
    have size : (before ++ [c]).length + 1 = before.length + 1 + 1 := by simp
    by_cases key : c.primaryKey = true
    · rw [encodeColumns, if_pos key, ← size] at encoded
      have skipped : plainColumns (c :: rest) = plainColumns rest :=
        filter_cons_of_neg (by simp [key])
      rw [skipped]
      exact ih _ lastID out start next encoded small (by omega)
    · have plain := Bool.eq_false_iff.mpr key
      have kept : plainColumns (c :: rest) = c :: plainColumns rest :=
        filter_cons_of_pos (by simp [plain])
      obtain ⟨ev, tail, encodes, others, rfl⟩ := (encodeColumns_cons_eq_ok plain).mp encoded
      rw [length_columnBytesOf] at small
      have here : s.columns[before.length + 1 - 1]? = some c := by
        rw [shape, Nat.add_sub_cancel, List.getElem?_append_right le_rfl, Nat.sub_self]
        rfl
      have inside : before.length < s.columns.length := by
        rw [shape, length_append, length_cons]
        omega
      rw [kept, length_cons, decodeColumns_columnBytesOf here plain encodes later (by omega)
        (by omega)]
      rw [← size] at others
      exact ih _ _ tail _ next others (by omega) (by omega)

/-! ## Accepted rows -/

/-- A row that is stored under the primary key `enc` with a value. -/
structure EncodesRow (s : TableSchema) (row : Row) (enc value : Bytes) : Prop where
  valid : s.Valid
  known : ∀ binding ∈ row, (findColumn s binding.key).isSome
  present : ∀ c ∈ s.columns, c.nullable = false → lookup row c.name ≠ none
  primary : Encodes (findPrimary s) (row.get (findPrimary s).name) enc
  short : (rowPrefix s.name ++ enc).length ≤ 1000
  columns : ∃ out, encodeColumns row s.columns 1 = .ok out ∧
    value = rowHeader (s.columns.length - 1) ++ out
  small : value.length ≤ 3000

theorem checkNames_eq_ok :
    checkNames s row = .ok () ↔ ∀ binding ∈ row, (findColumn s binding.key).isSome := by
  rw [checkNames]
  cases found : row.find? fun binding => (findColumn s binding.key).isNone with
  | none =>
    have all := List.find?_eq_none.mp found
    refine iff_of_true rfl fun binding mem => ?_
    have known := all binding mem
    cases column : findColumn s binding.key with
    | none => simp [column] at known
    | some _ => rfl
  | some binding =>
    refine iff_of_false (by simp) fun all => ?_
    have missing := List.find?_some found
    have known := all binding (mem_of_find?_eq_some found)
    cases column : findColumn s binding.key with
    | none => simp [column] at known
    | some _ => simp [column] at missing

theorem primaryValue_eq_ok : ∀ {columns : List Column} {pk value : Value},
    primaryValue row columns pk = .ok value ↔
      (∀ c ∈ columns, c.nullable = false → lookup row c.name ≠ none) ∧
      value = columns.foldl (fun pk c => if c.primaryKey then row.get c.name else pk) pk
  | [], pk, value => by
    rw [primaryValue, Except.ok.injEq]
    exact ⟨fun same => ⟨nofun, same.symm⟩, fun accepted => accepted.2.symm⟩
  | c :: rest, pk, value => by
    rw [primaryValue, guard_eq_ok, primaryValue_eq_ok, forall_mem_cons, foldl_cons,
      not_and_or, not_not]
    constructor
    · rintro ⟨here, others, same⟩
      refine ⟨⟨fun notNull absent => ?_, others⟩, same⟩
      rcases here with present | nullable
      · exact present absent
      · rw [notNull] at nullable
        cases nullable
    · rintro ⟨⟨here, others⟩, same⟩
      refine ⟨?_, others, same⟩
      cases nullable : c.nullable with
      | true => simp
      | false => exact .inl (here nullable)

/-- The primary value is the one of the primary column. -/
theorem foldl_primary (valid : s.Valid) (row : Row) (pk : Value) :
    s.columns.foldl (fun pk c => if c.primaryKey then row.get c.name else pk) pk =
      row.get (findPrimary s).name := by
  have only : ∀ c ∈ s.columns, c.primaryKey = true → c = findPrimary s :=
    fun c mem => valid.eq_findPrimary mem
  have found := valid.findPrimary_mem
  generalize findPrimary s = primary at only found
  obtain ⟨mem, key⟩ := found
  generalize s.columns = columns at only mem
  -- once the primary column is passed, its value stays
  have stays : ∀ (columns : List Column) (value : Value),
      (∀ c ∈ columns, c.primaryKey = true → c = primary) → value = row.get primary.name →
      columns.foldl (fun pk c => if c.primaryKey then row.get c.name else pk) value =
        row.get primary.name := by
    intro columns
    induction columns with
    | nil => exact fun value _ same => same
    | cons c rest ih =>
      intro value only same
      rw [foldl_cons]
      refine ih _ (fun other mem => only other (mem_cons_of_mem _ mem)) ?_
      split_ifs with isKey
      · rw [only c (mem_cons_self ..) isKey]
      · exact same
  induction columns generalizing pk with
  | nil => cases mem
  | cons c rest ih =>
    have others : ∀ c ∈ rest, c.primaryKey = true → c = primary :=
      fun other isMember => only other (mem_cons_of_mem _ isMember)
    rw [foldl_cons]
    rcases mem_cons.mp mem with rfl | later
    · exact stays rest _ others (if_pos key)
    · exact ih _ others later

variable {value enc : Bytes}

theorem encodeRow_eq_ok {key : Bytes} : encodeRow s row = .ok (key, value) ↔
      ∃ enc, key = rowPrefix s.name ++ enc ∧ EncodesRow s row enc value := by
  rw [encodeRow, guard_eq_ok]
  constructor
  · rintro ⟨checked, run⟩
    rw [not_or, not_not, validateSchema_eq_ok] at checked
    obtain ⟨-, valid⟩ := checked
    cases names : checkNames s row with
    | error err => rw [names] at run; cases run
    | ok _ =>
      rw [names, ok_bind] at run
      cases pk : primaryValue row s.columns .null with
      | error err => rw [pk] at run; cases run
      | ok primary =>
        rw [pk, ok_bind] at run
        obtain ⟨present, rfl⟩ := primaryValue_eq_ok.mp pk
        rw [foldl_primary valid] at run
        cases encoded : encodeValue (findPrimary s) (row.get (findPrimary s).name) with
        | error err => rw [encoded] at run; cases run
        | ok enc =>
          rw [encoded, ok_bind] at run
          dsimp only at run
          rw [guard_eq_ok] at run
          obtain ⟨short, run⟩ := run
          cases columns : encodeColumns row s.columns 1 with
          | error err => rw [columns] at run; cases run
          | ok out =>
            rw [columns, ok_bind, guard_eq_ok] at run
            obtain ⟨small, same⟩ := run
            cases same
            exact ⟨enc, rfl, valid, checkNames_eq_ok.mp names, present,
              encodes_of_encodeValue encoded, not_lt.mp short, ⟨out, columns, rfl⟩, not_lt.mp small⟩
  · rintro ⟨enc, rfl, encodes⟩
    obtain ⟨out, columns, rfl⟩ := encodes.columns
    refine ⟨?_, ?_⟩
    · rw [not_or, not_not, validateSchema_eq_ok]
      exact ⟨not_lt.mpr encodes.valid.few, encodes.valid⟩
    · rw [checkNames_eq_ok.mpr encodes.known, ok_bind,
        primaryValue_eq_ok.mpr ⟨encodes.present, rfl⟩, ok_bind, foldl_primary encodes.valid,
        encodeValue_of_encodes encodes.primary, ok_bind]
      dsimp only
      rw [if_neg (not_lt.mpr encodes.short), columns, ok_bind, if_neg (not_lt.mpr encodes.small)]

theorem length_plainColumns (valid : s.Valid) :
    (plainColumns s.columns).length = s.columns.length - 1 := by
  have split := length_eq_countP_add_countP Column.primaryKey (l := s.columns)
  rw [valid.primary, countP_eq_length_filter (l := s.columns)] at split
  have same : (plainColumns s.columns) = s.columns.filter (fun c => decide ¬ c.primaryKey =
    true) := by
    apply filter_congr
    intro c _
    cases c.primaryKey with
    | true => rfl
    | false => rfl
  rw [same]
  omega

theorem length_rowHeader (count : Nat) : (rowHeader count).length = 12 := by simp
    [rowHeader, rowMagic]

/-- The fields of the header of a stored row. -/
theorem rowHeader_fields {count : Nat} (fits : count < 65536) (out : Bytes) :
    (rowHeader count ++ out).take 4 = rowMagic ∧ readLE (rowHeader count ++ out) 4 2 = 2 ∧
      readLE (rowHeader count ++ out) 6 4 = 1 ∧ readLE (rowHeader count ++ out) 10 2 = count := by
  have version : rowHeader count ++ out =
      rowMagic ++ (leBytes 2 2 ++ (leBytes 4 1 ++ (leBytes 2 count ++ out))) := by
    simp only [rowHeader, append_assoc]
  have schema : rowHeader count ++ out =
      (rowMagic ++ leBytes 2 2) ++ (leBytes 4 1 ++ (leBytes 2 count ++ out)) := by
    simp only [rowHeader, append_assoc]
  have columns : rowHeader count ++ out =
      (rowMagic ++ (leBytes 2 2 ++ leBytes 4 1)) ++ (leBytes 2 count ++ out) := by
    simp only [rowHeader, append_assoc]
  refine ⟨?_, ?_, ?_, ?_⟩
  · rw [version]
    exact take_left' rfl
  · rw [version]
    exact readLE_middle rfl (by decide)
  · rw [schema]
    exact readLE_middle rfl (by decide)
  · rw [columns]
    exact readLE_middle rfl (by omega)

/-- Reading a stored row gives its columns outside the primary key. -/
theorem EncodesRow.decodeRow_eq (encodes : EncodesRow s row enc value) :
    decodeRow s value = .ok (row.select (plainColumns s.columns) []) := by
  obtain ⟨out, columns, rfl⟩ := encodes.columns
  have small := encodes.small
  have few := encodes.valid.few
  have size := length_rowHeader (s.columns.length - 1)
  obtain ⟨magic, version, schema, count⟩ :=
    @rowHeader_fields (s.columns.length - 1) (by omega) out
  have rest : (rowHeader (s.columns.length - 1) ++ out).drop 12 = out := drop_left' size
  have whole : (rowHeader (s.columns.length - 1) ++ out).length = 12 + out.length := by
    rw [length_append, size]
  rw [whole] at small
  rw [decodeRow, if_neg, if_neg, if_neg, if_neg, if_neg, count, rest,
    ← length_plainColumns encodes.valid]
  · exact decodeColumns_encodeColumns row few s.columns [] 0 out [] rfl columns (by omega) (by simp)
  · exact not_not.mpr count
  · exact not_not.mpr schema
  · rw [whole]
    rintro (tooShort | tooLong | tooMany | invalid)
    · omega
    · omega
    · omega
    · exact invalid (validateSchema_eq_ok.mpr encodes.valid)
  · exact not_not.mpr version
  · rintro (tooShort | other)
    · omega
    · exact other magic

/-! ## The row that is read back -/

/-- The primary key of a row is read back from its encoding. -/
theorem EncodesRow.decodePrimaryKey_eq (encodes : EncodesRow s row enc value) :
    decodePrimaryKey (findPrimary s) enc = .ok (row.get (findPrimary s).name) :=
  decodePrimaryKey_of_encodes encodes.primary encodes.valid.findPrimary_mem.2
    encodes.valid.primary_type

theorem Row.lookup_select (row : Row) (columns : List Column) : ∀ (start : Row) (name : Bytes),
    lookup (row.select columns start) name =
      if name ∈ columns.map Column.name then some (row.get name) else lookup start name := by
  induction columns with
  | nil => exact fun start name => (if_neg not_mem_nil).symm
  | cons c rest ih =>
    intro start name
    change lookup (row.select rest (put c.name (row.get c.name) start)) name = _
    rw [ih, map_cons]
    by_cases later : name ∈ rest.map Column.name
    · rw [if_pos later, if_pos (mem_cons_of_mem _ later)]
    · rw [if_neg later]
      by_cases here : name = c.name
      · rw [here, lookup_put_self, if_pos (mem_cons_self ..)]
      · rw [lookup_put_of_ne _ _ here, if_neg]
        exact fun mem => (mem_cons.mp mem).elim here later

/-- The row as `Get`, `Scan` and `Range` return it: every column of the schema. -/
def Row.complete (s : TableSchema) (row : Row) : Row :=
  put (findPrimary s).name (row.get (findPrimary s).name)
    (row.select (plainColumns s.columns) [])

theorem Row.lookup_complete (valid : s.Valid) (row : Row) (name : Bytes) :
    lookup (row.complete s) name = (findColumn s name).map fun c => row.get c.name := by
  have primary := valid.findPrimary_mem
  rw [Row.complete]
  by_cases isPrimary : name = (findPrimary s).name
  · rw [isPrimary, lookup_put_self, valid.findColumn_name primary.1]
    rfl
  rw [lookup_put_of_ne _ _ isPrimary, Row.lookup_select]
  cases found : findColumn s name with
  | none =>
    rw [if_neg]
    · rfl
    · intro mem
      obtain ⟨c, isColumn, rfl⟩ := mem_map.mp mem
      rw [valid.findColumn_name (mem_of_mem_filter isColumn)] at found
      cases found
  | some c =>
    have isColumn := mem_of_find?_eq_some found
    have named : c.name = name := by simpa using List.find?_some found
    have plain : c.primaryKey = false := by
      by_contra key
      exact isPrimary (named.symm.trans
        (congrArg Column.name (valid.eq_findPrimary isColumn (by simpa using key))))
    have listed : name ∈ (plainColumns s.columns).map Column.name :=
      mem_map.mpr ⟨c, mem_filter.mpr ⟨isColumn, by rw [plain]; rfl⟩, named⟩
    rw [if_pos listed, Option.map_some, named]

end GoDatabase
