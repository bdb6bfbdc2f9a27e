import GoDatabase.Relational.Row

/-!
# The row format

The decoder of a stored row is given once more with the panic on an index out of range as
an outcome, each read at the place where the source has it; no input panics.  What it
accepts is canonical: the decoded columns are encoded to the bytes they were read from.
-/

namespace GoDatabase

open Library SortedMap List Option

/-! ## The decoder with its panics -/

/-- The loop of `decodeEscapedComponent` with its index.  Running out of fuel counts as a
panic. -/
def unescape? (data : Bytes) : (fuel i : Nat) → (decoded : Bytes) → Option (Option Bytes)
  | 0, _, _ => none
  | fuel + 1, i, decoded =>
    if data.length - 2 ≤ i then some (some decoded)
    else do
      let b ← data[i]?
      if b ≠ 0 then
        unescape? data fuel (i + 1) (decoded ++ [b])
      else if data.length - 2 ≤ i + 1 then
        some none
      else do
        let mark ← data[i + 1]?
        if mark ≠ 0xff then some none else unescape? data fuel (i + 2) (decoded ++ [0])

def decodeEscapedComponent? (data : Bytes) : Option (Option Bytes) :=
  if data.length < 2 then some none
  else do
    let first ← data[data.length - 2]?
    if first ≠ 0 then some none
    else do
      let second ← data[data.length - 1]?
      if second ≠ 0 then some none else unescape? data data.length 0 []

/-- `binary.BigEndian.Uint64` -/
def beUint64? (data : Bytes) : Option UInt64 := (slice? data 0 8).map fun word =>
    UInt64.ofNat (beNat word)

def decodePrimaryKey? (c : Column) (data : Bytes) : Option (Except GoError Value) :=
  if c.type = columnInt64 ∧ data.length = 8 then do
    let word ← beUint64? data
    some (.ok (.int64 (flipSign word).toInt64))
  else if c.type = columnString then
    some (.ok (.string data))
  else
    some (.error errInvalidRow)

def decodeTyped? (c : Column) (data : Bytes) : Option (Except GoError Value) :=
  if c.type = columnInt64 then
    if data.length ≠ 8 then some (.error errInvalidRow)
    else do
      let word ← beUint64? data
      some (.ok (.int64 (flipSign word).toInt64))
  else if c.type = columnString then do
    match ← decodeEscapedComponent? data with
    | none => some (.error errInvalidRow)
    | some value => some (.ok (.string value))
  else if c.type = columnBytes then do
    match ← decodeEscapedComponent? data with
    | none => some (.error errInvalidRow)
    | some value => some (.ok (.bytes value))
  else if c.type = columnBool then
    if data.length ≠ 1 then some (.error errInvalidRow)
    else do
      let b ← data[0]?
      if 1 < b then some (.error errInvalidRow) else some (.ok (.bool (b = 1)))
  else
    some (.error errInvalidRow)

def decodeValue? (c : Column) (data : Bytes) : Option (Except GoError Value) :=
  if c.primaryKey then
    decodePrimaryKey? c data
  else if c.type < columnInt64 ∨ columnBool < c.type then
    some (.error errInvalidRow)
  else if data.length = 0 then
    some (.error errInvalidRow)
  else do
    let tag ← data[0]?
    if tag = 0 then
      if data.length ≠ 1 ∨ ¬ c.nullable ∨ c.primaryKey then some (.error errInvalidRow)
      else some (.ok .null)
    else if tag ≠ c.type then
      some (.error errInvalidRow)
    else do
      decodeTyped? c (← slice? data 1 (data.length - 1))

/-- The loop of `decodeRow` with its position. -/
def decodeColumns? (s : TableSchema) (data : Bytes) : (count lastID pos : Nat) → Row →
    Option (Except GoError Row)
  | 0, _, pos, row => some (if pos ≠ data.length then .error errInvalidRow else .ok row)
  | count + 1, lastID, pos, row =>
    if data.length < pos + 8 then some (.error errInvalidRow)
    else do
      let id ← readLE? data pos 2
      let flags ← data[pos + 2]?
      let reserved ← data[pos + 3]?
      let length ← readLE? data (pos + 4) 4
      if id ≤ lastID ∨ flags ≠ 0 ∨ reserved ≠ 0 ∨ data.length - (pos + 8) < length then
        some (.error errInvalidRow)
      else if s.columns.length % 2 ^ 16 < id then
        some (.error errInvalidRow)
      else do
        let column ← s.columns[id - 1]?
        if column.primaryKey then some (.error errInvalidRow)
        else do
          match ← decodeValue? column (← slice? data (pos + 8) length) with
          | .error err => some (.error err)
          | .ok value =>
            decodeColumns? s data count id (pos + 8 + length) (put column.name value row)

def decodeRow? (s : TableSchema) (data : Bytes) : Option (Except GoError Row) :=
  if data.length < 6 then some (.error errInvalidRow)
  else do
    let magic ← slice? data 0 4
    if magic ≠ rowMagic then some (.error errInvalidRow)
    else do
      let version ← readLE? data 4 2
      if version ≠ 2 then some (.error (unsupported errInvalidRow))
      else if data.length < 12 ∨ 3000 < data.length ∨ 65535 < s.columns.length ∨
          validateSchema s ≠ .ok () then
        some (.error errInvalidRow)
      else do
        let schemaVersion ← readLE? data 6 4
        if schemaVersion ≠ 1 then some (.error errInvalidRow)
        else do
          let count ← readLE? data 10 2
          if count ≠ s.columns.length - 1 then some (.error errInvalidRow)
          else decodeColumns? s data count 0 12 []

/-! ## No panic -/

/-- The first element of what is left of a list. -/
theorem of_drop_eq_cons {α : Type} {list rest : List α} {idx : Nat} {first : α}
    (left : list.drop idx = first :: rest) :
    idx < list.length ∧ list[idx]? = some first ∧ list.drop (idx + 1) = rest := by
  refine ⟨?_, ?_, ?_⟩
  · have size := congrArg List.length left
    rw [length_drop, length_cons] at size
    omega
  · rw [← List.head?_drop, left]
    rfl
  · rw [← drop_drop, left]
    rfl

/-- The loop decodes what is left of the component.  The induction is on the fuel, which
exceeds the number of bytes left. -/
theorem unescape?_eq {body mark : Bytes} (two : mark.length = 2) :
    ∀ fuel i decoded, body.length - i < fuel →
      unescape? (body ++ mark) fuel i decoded =
        some ((unescape (body.drop i)).map (decoded ++ ·)) := by
  have size : (body ++ mark).length - 2 = body.length := by
    rw [length_append, two, Nat.add_sub_cancel]
  intro fuel
  induction fuel with
  | zero =>
    intro i decoded enough
    omega
  | succ fuel ih =>
    intro i decoded enough
    rw [unescape?, size]
    cases left : body.drop i with
    | nil =>
      rw [if_pos (drop_eq_nil_iff.mp left), unescape, Option.map_some, append_nil]
    | cons b rest =>
      obtain ⟨inside, here, later⟩ := of_drop_eq_cons left
      rw [if_neg (Nat.not_le.mpr inside), List.getElem?_append_left inside, here,
        Option.bind_eq_bind, Option.bind_some]
      by_cases zero : b = 0
      · rw [if_neg (not_not.mpr zero)]
        cases rest with
        | nil =>
          rw [if_pos (drop_eq_nil_iff.mp later), unescape, if_neg (not_not.mpr zero)]
          rfl
        | cons second rest =>
          obtain ⟨insideToo, next, last⟩ := of_drop_eq_cons later
          rw [if_neg (Nat.not_le.mpr insideToo), List.getElem?_append_left insideToo, next,
            Option.bind_some, unescape, if_neg (not_not.mpr zero)]
          by_cases escaped : second = 0xff
          · rw [if_neg (not_not.mpr escaped), if_neg (not_not.mpr escaped), ih _ _ (by omega), last,
              Option.map_map]
            congr 2
            funext part
            simp
          · rw [if_pos escaped, if_pos escaped]
            rfl
      · rw [if_pos zero, ih _ _ (by omega), later, unescape_cons_of_ne zero, Option.map_map]
        congr 2
        funext part
        simp

theorem decodeEscapedComponent?_eq (data : Bytes) :
    decodeEscapedComponent? data = some (decodeEscapedComponent data) := by
  rw [decodeEscapedComponent?, decodeEscapedComponent]
  by_cases short : data.length < 2
  · rw [if_pos short, if_pos (.inl short)]
  rw [if_neg short, List.getElem?_eq_getElem (by omega), List.getElem?_eq_getElem (by omega),
    bind_eq_bind, bind_some]
  by_cases first : data[data.length - 2] = 0
  · rw [if_neg (not_not.mpr first), bind_some]
    by_cases second : data[data.length - 1] = 0
    · have shape := take_append_drop (data.length - 2) data
      have two : (data.drop (data.length - 2)).length = 2 := by
        rw [length_drop]
        omega
      have loop := @unescape?_eq (data.take (data.length - 2)) _ two data.length 0 []
        (by rw [length_take]; omega)
      rw [shape, drop_zero] at loop
      rw [if_neg (not_not.mpr second), loop, if_neg (by simp [short, first, second])]
      simp
    · rw [if_pos second, if_pos (by simp [second])]
  · rw [if_pos first, if_pos (by simp [first])]

variable {data : Bytes} {s : TableSchema}

theorem beUint64?_eq (size : data.length = 8) :
    beUint64? data = some (UInt64.ofNat (beNat data)) := by
  rw [beUint64?, slice?_eq (Nat.le_of_eq size.symm), ← size, slice_all]
  rfl

theorem decodePrimaryKey?_eq (c : Column) (data : Bytes) :
    decodePrimaryKey? c data = some (decodePrimaryKey c data) := by
  rw [decodePrimaryKey?, decodePrimaryKey]
  split_ifs with isInt isString
  · rw [beUint64?_eq isInt.2]
    rfl
  · rfl
  · rfl

theorem decodeTyped?_eq (c : Column) (data : Bytes) :
    decodeTyped? c data = some (decodeTyped c data) := by
  rw [decodeTyped?, decodeTyped.eq_def, decodeEscapedComponent?_eq]
  split_ifs with isInt sized isString isBytes isBool single
  · rfl
  · rw [beUint64?_eq (not_not.mp sized)]
    rfl
  · cases decodeEscapedComponent data with
    | none | some => rfl
  · cases decodeEscapedComponent data with
    | none | some => rfl
  · cases data with
    | nil => rfl
    | cons b rest =>
      cases rest with
      | nil => exact absurd rfl single
      | cons => rfl
  · obtain ⟨b, rfl⟩ := length_eq_one_iff.mp (not_not.mp single)
    change (if 1 < b then _ else _) = some (if 1 < b then _ else _)
    exact some_guard fun _ => rfl
  · rfl

theorem decodeValue?_eq (c : Column) (data : Bytes) :
    decodeValue? c data = some (decodeValue c data) := by
  rw [decodeValue?, decodeValue.eq_def]
  by_cases key : c.primaryKey = true
  · rw [if_pos key, if_pos key]
    exact decodePrimaryKey?_eq c data
  rw [if_neg key, if_neg key]
  refine some_guard fun _ => ?_
  cases data with
  | nil => rfl
  | cons tag data =>
    have rest : slice? (tag :: data) 1 ((tag :: data).length - 1) = some data := by
      rw [slice?_eq (by rw [length_cons]; omega), slice]
      simp
    have longer : (tag :: data).length ≠ 1 ↔ data ≠ [] := by simp
    rw [if_neg (by simp), rest]
    change (if tag = 0 then _ else _) = some (if tag = 0 then _ else _)
    by_cases null : tag = 0
    · rw [if_pos null, if_pos null]
      simp only [longer]
      exact some_guard fun _ => rfl
    · rw [if_neg null, if_neg null]
      exact some_guard fun _ => decodeTyped?_eq c data

/-- The loop decodes what is left of the row. -/
theorem decodeColumns?_eq (few : s.columns.length ≤ 65535) (data : Bytes) :
    ∀ count lastID pos row, pos ≤ data.length → decodeColumns? s data count lastID pos row =
        some (decodeColumns s count lastID (data.drop pos) row) := by
  intro count
  induction count with
  | zero =>
    intro lastID pos row inside
    have ended : pos ≠ data.length ↔ data.drop pos ≠ [] := by
      rw [ne_eq, ne_eq, drop_eq_nil_iff]
      omega
    rw [decodeColumns?, decodeColumns]
    simp only [ended]
  | succ count ih =>
    intro lastID pos row inside
    have left : (data.drop pos).length < 8 ↔ data.length < pos + 8 := by
      rw [length_drop]
      omega
    rw [decodeColumns?, decodeColumns]
    simp only [left]
    refine some_guard fun room => ?_
    have flags : data[pos + 2]? = some data[pos + 2] := List.getElem?_eq_getElem (by omega)
    have reserved : data[pos + 3]? = some data[pos + 3] := List.getElem?_eq_getElem (by omega)
    rw [readLE?_eq (by omega), readLE?_eq (by omega), flags, reserved]
    simp only [bind_eq_bind, bind_some, readLE_drop, List.getElem?_drop, drop_drop,
      length_drop, flags, reserved, Nat.add_zero, some.injEq, ne_eq]
    refine some_guard fun accepted => ?_
    simp only [not_or, not_not] at accepted
    obtain ⟨later, -, -, enough⟩ := accepted
    rw [Nat.mod_eq_of_lt (by omega)]
    cases here : s.columns[readLE data pos 2 - 1]? with
    | none =>
      have past := List.getElem?_eq_none_iff.mp here
      rw [if_pos (by omega)]
    | some column =>
      obtain ⟨bound, -⟩ := List.getElem?_eq_some_iff.mp here
      rw [if_neg (by omega), bind_some]
      refine some_guard fun _ => ?_
      rw [slice?_eq (by omega), bind_some, decodeValue?_eq, bind_some]
      change _ = some (decodeValue column (slice data (pos + 8) (readLE data (pos + 4) 4)) >>= _)
      cases decodeValue column (slice data (pos + 8) (readLE data (pos + 4) 4)) with
      | error err => rfl
      | ok value => exact ih _ _ _ (by omega)

theorem decodeRow?_eq (s : TableSchema) (data : Bytes) : decodeRow? s data = some
    (decodeRow s data) := by
  rw [decodeRow?, decodeRow]
  by_cases short : data.length < 6
  · rw [if_pos short, if_pos (.inl short)]
  rw [if_neg short, slice?_eq (by omega), bind_eq_bind, bind_some, readLE?_eq (by omega)]
  have front : (data.length < 6 ∨ data.take 4 ≠ rowMagic) ↔ slice data 0 4 ≠ rowMagic := by
    rw [slice, drop_zero]
    exact or_iff_right short
  simp only [front]
  refine some_guard fun _ => some_guard fun _ => some_guard fun checked => ?_
  simp only [not_or, not_lt] at checked
  rw [readLE?_eq (by omega)]
  refine some_guard fun _ => ?_
  rw [readLE?_eq (by omega)]
  exact some_guard fun _ => decodeColumns?_eq checked.2.2.1 data _ 0 12 [] checked.1

/-! ## What the decoder accepts -/

variable {c : Column} {v : Value} {count lastID : Nat}

theorem encodes_of_decodeTyped (plain : c.primaryKey = false)
    (decoded : decodeTyped c data = .ok v) : Encodes c v (c.type :: data) := by
  rw [decodeTyped.eq_def] at decoded
  split_ifs at decoded with isInt sized isString isBytes isBool
  · rw [← Except.ok.inj decoded, isInt]
    have same := Encodes.int64 isInt plain (int64Of data)
    rwa [int64Bytes_int64Of (not_not.mp sized)] at same
  · cases part : decodeEscapedComponent data with
    | none =>
      rw [part] at decoded
      cases decoded
    | some value =>
      rw [part] at decoded
      rw [← Except.ok.inj decoded, isString, decodeEscapedComponent_eq_some.mp part]
      exact .string isString plain value
  · cases part : decodeEscapedComponent data with
    | none =>
      rw [part] at decoded
      cases decoded
    | some value =>
      rw [part] at decoded
      rw [← Except.ok.inj decoded, isBytes, decodeEscapedComponent_eq_some.mp part]
      exact .bytes isBytes value
  · split at decoded
    · rename_i b
      rw [guard_eq_ok] at decoded
      obtain ⟨small, same⟩ := decoded
      have flag : b = boolByte (b = 1) := by
        rw [boolByte]
        split_ifs with one
        · exact of_decide_eq_true one
        · rw [decide_eq_true_eq, ← UInt8.toNat_inj] at one
          rw [UInt8.lt_iff_toNat_lt] at small
          change ¬ 1 < b.toNat at small
          change ¬ b.toNat = 1 at one
          exact UInt8.toNat_inj.mp (show b.toNat = 0 by omega)
      rw [← Except.ok.inj same, isBool]
      have encodes := Encodes.bool isBool (decide (b = 1))
      rwa [← flag] at encodes
    · cases decoded

/-- Outside the primary key the decoder accepts the encoded values only. -/
theorem encodes_of_decodeValue {word : Bytes} (plain : c.primaryKey = false)
    (decoded : decodeValue c word = .ok v) : Encodes c v word := by
  rw [decodeValue.eq_def, if_neg (Bool.eq_false_iff.mp plain), guard_eq_ok] at decoded
  obtain ⟨known, decoded⟩ := decoded
  cases word with
  | nil => cases decoded
  | cons tag data =>
    dsimp only at decoded
    by_cases null : tag = 0
    · rw [if_pos null, guard_eq_ok] at decoded
      obtain ⟨shape, same⟩ := decoded
      simp only [not_or, not_not] at shape
      rw [← Except.ok.inj same, null, shape.1]
      exact .null known shape.2.1 plain
    · rw [if_neg null, guard_eq_ok, not_not] at decoded
      rw [decoded.1]
      exact encodes_of_decodeTyped plain decoded.2

/-- The eight bytes before a value are its column's number, two zero bytes and its length. -/
theorem eq_columnBytesOf (long : 8 ≤ data.length) (flags : data[2]? = some 0)
    (reserved : data[3]? = some 0) (enough : readLE data 4 4 ≤ (data.drop 8).length) :
    data = columnBytesOf (readLE data 0 2) ((data.drop 8).take (readLE data 4 4))
      ((data.drop 8).drop (readLE data 4 4)) := by
  have zeros : slice data 2 2 = [0, 0] := slice_two flags reserved
  have size : ((data.drop 8).take (readLE data 4 4)).length = readLE data 4 4 :=
    length_take_of_le enough
  rw [columnBytesOf, size, leBytes_readLE (by omega), leBytes_readLE (by omega), ← zeros,
    take_append_drop, slice_append_drop, slice_append_drop, slice_append_drop, drop_zero]

/-- One round of the loop: the next column, with its number above the last one. -/
theorem decodeColumns_succ_eq_ok {start row : Row} :
    decodeColumns s (count + 1) lastID data start = .ok row →
    ∃ id c ev rest value, data = columnBytesOf id ev rest ∧ lastID < id ∧
      s.columns[id - 1]? = some c ∧ c.primaryKey = false ∧ Encodes c value ev ∧
      decodeColumns s count id rest (put c.name value start) = .ok row := by
  intro decoded
  rw [decodeColumns, guard_eq_ok] at decoded
  obtain ⟨long, decoded⟩ := decoded
  dsimp only at decoded
  rw [guard_eq_ok] at decoded
  obtain ⟨shape, decoded⟩ := decoded
  simp only [not_or, not_not, not_lt, not_le] at shape
  obtain ⟨later, flags, reserved, enough⟩ := shape
  cases here : s.columns[readLE data 0 2 - 1]? with
  | none =>
    rw [here] at decoded
    cases decoded
  | some c =>
    rw [here] at decoded
    dsimp only at decoded
    rw [guard_eq_ok, bind_ok_iff] at decoded
    obtain ⟨notKey, value, isValue, rest⟩ := decoded
    have plain := Bool.eq_false_iff.mpr notKey
    exact ⟨_, c, _, _, value, eq_columnBytesOf (not_lt.mp long) flags reserved enough, later,
      here, plain, encodes_of_decodeValue plain isValue, rest⟩

/-- A column outside the primary key is one of those left before it and not one of those
left after it. -/
theorem length_plainColumns_drop {id : Nat} (later : lastID < id)
    (here : s.columns[id - 1]? = some c) (plain : c.primaryKey = false) :
    (plainColumns (s.columns.drop id)).length < (plainColumns (s.columns.drop lastID)).length := by
  obtain ⟨bound, isColumn⟩ := List.getElem?_eq_some_iff.mp here
  have reached : s.columns.drop (id - 1) = c :: s.columns.drop id := by
    rw [drop_eq_getElem_cons bound, isColumn, show id - 1 + 1 = id by omega]
  have suffix : c :: s.columns.drop id <:+ s.columns.drop lastID := by
    rw [← reached, show id - 1 = lastID + (id - 1 - lastID) by omega, ← drop_drop]
    exact drop_suffix _ _
  have kept : plainColumns (c :: s.columns.drop id) = c :: plainColumns (s.columns.drop id) :=
    filter_cons_of_pos (by simp [plain])
  have more : (plainColumns (c :: s.columns.drop id)).length ≤
    (plainColumns (s.columns.drop lastID)).length :=
    (suffix.sublist.filter fun c : Column => !c.primaryKey).length_le
  rwa [kept, length_cons] at more

/-- As many columns outside the primary key follow the last one as are decoded. -/
theorem le_plainColumns_of_decodeColumns : ∀ {count lastID : Nat} {data : Bytes}
    {start row : Row}, decodeColumns s count lastID data start = .ok row →
    count ≤ (plainColumns (s.columns.drop lastID)).length
  | 0, _, _, _, _, _ => Nat.zero_le _
  | count + 1, lastID, data, start, row, decoded => by
    obtain ⟨id, c, ev, rest, value, -, later, here, plain, -, others⟩ :=
      decodeColumns_succ_eq_ok decoded
    exact Nat.lt_of_le_of_lt (le_plainColumns_of_decodeColumns others)
      (length_plainColumns_drop later here plain)

/-- A name that no later column has keeps its value. -/
theorem lookup_decodeColumns {name : Bytes} : ∀ {count lastID : Nat} {data : Bytes}
    {start row : Row}, decodeColumns s count lastID data start = .ok row →
    (∀ c ∈ s.columns.drop lastID, c.name ≠ name) →
    lookup row name = lookup start name
  | 0, lastID, data, start, row, decoded, _ => by
    rw [decodeColumns, guard_eq_ok] at decoded
    rw [← Except.ok.inj decoded.2]
  | count + 1, lastID, data, start, row, decoded, absent => by
    obtain ⟨id, c, ev, rest, value, -, later, here, -, -, others⟩ :=
      decodeColumns_succ_eq_ok decoded
    have inside : c ∈ s.columns.drop lastID := by
      apply mem_of_getElem? (i := id - 1 - lastID)
      rw [List.getElem?_drop, show lastID + (id - 1 - lastID) = id - 1 by omega, here]
    have after : ∀ c ∈ s.columns.drop id, c.name ≠ name := by
      intro other mem
      rw [show id = lastID + (id - lastID) by omega, ← drop_drop] at mem
      exact absent other (mem_of_mem_drop mem)
    rw [lookup_decodeColumns others after, lookup_put_of_ne _ _ (absent c inside).symm]

/-- Only columns of the schema are added to the row. -/
theorem known_of_decodeColumns : ∀ {count lastID : Nat} {data : Bytes}
    {start row : Row}, decodeColumns s count lastID data start = .ok row →
    (∀ binding ∈ start, ∃ c ∈ s.columns, c.name = binding.key) →
    ∀ binding ∈ row, ∃ c ∈ s.columns, c.name = binding.key
  | 0, lastID, data, start, row, decoded, known => by
    rw [decodeColumns, guard_eq_ok] at decoded
    rwa [← Except.ok.inj decoded.2]
  | count + 1, lastID, data, start, row, decoded, known => by
    obtain ⟨id, c, ev, rest, value, -, -, here, -, -, others⟩ := decodeColumns_succ_eq_ok decoded
    refine known_of_decodeColumns others fun binding mem => ?_
    rcases mem_put mem with rfl | old
    · exact ⟨c, mem_of_getElem? here, rfl⟩
    · exact known binding old

/-- The loop accepts one encoding of the columns that are left.  Behind the last number,
`before` has only the primary column; as many columns are to be decoded as there are outside
the primary key, so that none can be left out. -/
theorem encodeColumns_of_decodeColumns (distinct : (s.columns.map Column.name).Nodup) :
    ∀ (columns before : List Column) {lastID : Nat} {data : Bytes} {start row : Row},
    s.columns = before ++ columns → lastID ≤ before.length →
    (∀ c ∈ before.drop lastID, c.primaryKey = true) →
    decodeColumns s (plainColumns columns).length lastID data start = .ok row →
    (∀ c ∈ plainColumns columns, lookup row c.name ≠ none) ∧
      ∀ full : Row, (∀ c ∈ plainColumns columns, full.get c.name = row.get c.name) →
        encodeColumns full columns (before.length + 1) = .ok data
  | [], before, lastID, data, start, row, _, _, _, decoded => by
    rw [plainColumns, filter_nil, length_nil, decodeColumns, guard_eq_ok, not_not] at decoded
    rw [decoded.1]
    exact ⟨fun _ mem => absurd mem not_mem_nil, fun _ _ => rfl⟩
  | c :: columns, before, lastID, data, start, row, shape, behind, keys, decoded => by
    have next : s.columns = (before ++ [c]) ++ columns := by rw [shape]; simp
    have size : (before ++ [c]).length = before.length + 1 := by simp
    by_cases key : c.primaryKey = true
    · have skipped : plainColumns (c :: columns) = plainColumns columns :=
        filter_cons_of_neg (by simp [key])
      have onlyKeys : ∀ other ∈ (before ++ [c]).drop lastID, other.primaryKey = true := by
        rw [drop_append_of_le_length behind]
        intro other mem
        rcases mem_append.mp mem with old | new
        · exact keys other old
        · rw [mem_singleton.mp new, key]
      rw [skipped] at decoded ⊢
      obtain ⟨present, encoded⟩ :=
        encodeColumns_of_decodeColumns distinct columns _ next (by omega) onlyKeys decoded
      refine ⟨present, fun full reads => ?_⟩
      rw [encodeColumns, if_pos key, ← size]
      exact encoded full reads
    · have plain := Bool.eq_false_iff.mpr key
      have kept : plainColumns (c :: columns) = c :: plainColumns columns :=
        filter_cons_of_pos (by simp [plain])
      rw [kept, length_cons] at decoded
      obtain ⟨id, other, ev, rest, value, rfl, later, here, otherPlain, encodes, others⟩ :=
        decodeColumns_succ_eq_ok decoded
      -- the next number is that of `c`: a smaller one is a primary column, a larger one skips `c`
      have number : id = before.length + 1 := by
        rcases lt_trichotomy id (before.length + 1) with smaller | same | larger
        · have inside : other ∈ before.drop lastID := by
            apply mem_of_getElem? (i := id - 1 - lastID)
            rw [List.getElem?_drop, show lastID + (id - 1 - lastID) =
              id - 1 by omega, ← here, shape, List.getElem?_append_left (by omega)]
          exact absurd (keys other inside) (Bool.eq_false_iff.mp otherPlain)
        · exact same
        · have fewer := le_plainColumns_of_decodeColumns others
          have more := length_plainColumns_drop larger here otherPlain
          rw [next, ← size, drop_left, ← next] at more
          omega
      subst number
      have isHere : s.columns[before.length + 1 - 1]? = some c := by
        rw [shape, Nat.add_sub_cancel, List.getElem?_append_right le_rfl, Nat.sub_self]
        rfl
      obtain rfl := some.inj (here.symm.trans isHere)
      have unnamed : ∀ later ∈ s.columns.drop (before.length + 1), later.name ≠ other.name := by
        rw [next, ← size, drop_left]
        rw [shape, map_append, map_cons] at distinct
        obtain ⟨absent, -⟩ := nodup_cons.mp (List.Nodup.of_append_right distinct)
        exact fun later mem same => absent (mem_map.mpr ⟨later, mem, same⟩)
      have found : lookup row other.name = some value := by
        rw [lookup_decodeColumns others unnamed, lookup_put_self]
      obtain ⟨present, encoded⟩ := encodeColumns_of_decodeColumns distinct columns _ next size.ge
        (by rw [← size, drop_length]; rintro _ ⟨⟩) others
      rw [kept]
      refine ⟨forall_mem_cons.mpr ⟨by rw [found]; rintro ⟨⟩, present⟩, fun full reads => ?_⟩
      obtain ⟨first, tails⟩ := forall_mem_cons.mp reads
      have read : row.get other.name = value := by rw [Row.get, found]; rfl
      rw [encodeColumns_cons_eq_ok plain, first, read, ← size]
      exact ⟨ev, rest, encodes, encoded full tails, rfl⟩

/-! ## Rows -/

/-- The header of a row is fixed by the number of columns. -/
theorem eq_rowHeader (long : 12 ≤ data.length)
    (magic : data.take 4 = rowMagic) (version : readLE data 4 2 = 2) (schema : readLE data 6 4 = 1)
    (columns : readLE data 10 2 = count) : data = rowHeader count ++ data.drop 12 := by
  have first : rowMagic = slice data 0 4 := magic.symm
  have second : leBytes 2 2 = slice data 4 2 := leBytes_of_readLE (by omega) version
  have third : leBytes 4 1 = slice data 6 4 := leBytes_of_readLE (by omega) schema
  have fourth : leBytes 2 count = slice data 10 2 := leBytes_of_readLE (by omega) columns
  rw [rowHeader, first, second, third, fourth]
  simp only [append_assoc]
  rw [slice_append_drop, slice_append_drop, slice_append_drop, slice_append_drop, drop_zero]

variable {decoded : Row}

/-- An accepted row is a header and the columns of a valid schema. -/
theorem decodeRow_inversion (accepted : decodeRow s data = .ok decoded) :
    s.Valid ∧ data.length ≤ 3000 ∧ ∃ out, data = rowHeader (s.columns.length - 1) ++ out ∧
      decodeColumns s (plainColumns s.columns).length 0 out [] = .ok decoded := by
  rw [decodeRow, guard_eq_ok, guard_eq_ok, guard_eq_ok, guard_eq_ok, guard_eq_ok] at accepted
  obtain ⟨front, version, shape, schema, count, columns⟩ := accepted
  simp only [not_or, not_not, not_lt] at front version shape schema count
  obtain ⟨long, small, -, valid⟩ := shape
  rw [validateSchema_eq_ok] at valid
  refine ⟨valid, small, data.drop 12, eq_rowHeader long front.2 version schema count, ?_⟩
  rwa [length_plainColumns valid, ← count]

/-- A column outside the primary key is found among them. -/
theorem TableSchema.Valid.mem_plainColumns (valid : s.Valid)
    (mem : c ∈ s.columns) (other : c.name ≠ (findPrimary s).name) : c ∈ plainColumns s.columns := by
  refine mem_filter.mpr ⟨mem, ?_⟩
  cases key : c.primaryKey with
  | false => rfl
  | true => exact absurd (congrArg Column.name (valid.eq_findPrimary mem key)) other

theorem TableSchema.Valid.name_ne_of_plain (valid : s.Valid)
    (mem : c ∈ plainColumns s.columns) : c.name ≠ (findPrimary s).name := by
  obtain ⟨isColumn, plain⟩ := mem_filter.mp mem
  intro same
  have primary := valid.findPrimary_mem
  have found := valid.findColumn_name isColumn
  rw [same, valid.findColumn_name primary.1] at found
  rw [← some.inj found, primary.2] at plain
  cases plain

/-- An accepted row with any primary key that fits is encoded to the same bytes. -/
theorem encodeRow_of_decodeRow {enc : Bytes} {pk : Value}
    (accepted : decodeRow s data = .ok decoded) (encoded : encodeValue (findPrimary s) pk = .ok enc)
    (short : (rowPrefix s.name ++ enc).length ≤ 1000) :
    encodeRow s (put (findPrimary s).name pk decoded) = .ok (rowPrefix s.name ++ enc, data) := by
  obtain ⟨valid, small, out, rfl, columns⟩ := decodeRow_inversion accepted
  have primary := valid.findPrimary_mem
  obtain ⟨present, encodedColumns⟩ :=
    encodeColumns_of_decodeColumns valid.columns.distinct s.columns [] rfl le_rfl nofun columns
  have others : ∀ c ∈ plainColumns s.columns,
      lookup (put (findPrimary s).name pk decoded) c.name =
        lookup decoded c.name :=
    fun c mem => lookup_put_of_ne _ _ (valid.name_ne_of_plain mem)
  refine encodeRow_eq_ok.mpr ⟨enc, rfl, valid, ?_, ?_, ?_, short, ⟨out, ?_, rfl⟩, small⟩
  · intro binding mem
    rcases mem_put mem with rfl | old
    · rw [valid.findColumn_name primary.1]
      rfl
    · obtain ⟨c, isColumn, named⟩ := known_of_decodeColumns columns nofun binding old
      rw [← named, valid.findColumn_name isColumn]
      rfl
  · intro c mem _
    by_cases isPrimary : c.name = (findPrimary s).name
    · rw [isPrimary, lookup_put_self]
      exact nofun
    · have plain := valid.mem_plainColumns mem isPrimary
      rw [others c plain]
      exact present c plain
  · rw [Row.get, lookup_put_self]
    exact encodes_of_encodeValue encoded
  · refine encodedColumns _ fun c mem => ?_
    rw [Row.get, Row.get, others c mem]

/-- No two byte strings are accepted as one row. -/
theorem decodeRow_inj {other : Bytes}
    (accepted : decodeRow s data = .ok decoded) (also : decodeRow s other = .ok decoded) :
    data = other := by
  obtain ⟨valid, -, out, rfl, columns⟩ := decodeRow_inversion accepted
  obtain ⟨-, -, otherOut, rfl, otherColumns⟩ := decodeRow_inversion also
  have encodes :=
    (encodeColumns_of_decodeColumns valid.columns.distinct s.columns
      [] rfl le_rfl nofun columns).2 decoded fun _ _ => rfl
  have otherEncodes :=
    (encodeColumns_of_decodeColumns valid.columns.distinct s.columns
      [] rfl le_rfl nofun otherColumns).2 decoded fun _ _ => rfl
  rw [Except.ok.inj (encodes.symm.trans otherEncodes)]

/-- A Go value in the map of a row.  Other than `Value` it tells a nil slice from an empty
one; the encoder only ranges over a slice, so that it cannot. -/
inductive Any where
  | nil
  | int64 (value : Int64)
  | string (value : Bytes)
  | bytes (value : Option Bytes)
  | bool (value : Bool)
  | other

/-- The value that the codec sees: a nil slice is an empty one. -/
def Any.value : Any → Value
  | .nil => .null
  | .int64 value => .int64 value
  | .string value => .string value
  | .bytes value => .bytes (value.getD [])
  | .bool value => .bool value
  | .other => .other

/-- `map[string]any` with its slices. -/
abbrev RowMap := List (Binding Bytes Any)

/-- `row[name]` -/
def RowMap.get (row : RowMap) (name : Bytes) : Any := (lookup row name).getD .nil

def RowMap.row (row : RowMap) : Row := row.map fun binding => ⟨binding.key, binding.value.value⟩

theorem RowMap.get_row (row : RowMap) (name : Bytes) : row.row.get name = (row.get name).value := by
  have found : lookup row.row name = (lookup row name).map Any.value := by
    rw [RowMap.row]
    induction row with
    | nil => rfl
    | cons binding rest ih =>
      rw [map_cons, SortedMap.lookup_cons, SortedMap.lookup_cons, ih]
      split_ifs
      · rfl
      · rfl
  rw [Row.get, RowMap.get, found]
  cases lookup row name with
  | none | some => rfl

/-- Stored rows are read back, the decoder panics on no input, and it accepts only what
`encodeRow` writes. -/
theorem row_codec (s : TableSchema) :
    (∀ (row : RowMap) (key value : Bytes), validateSchema s = .ok () →
      encodeRow s row.row = .ok (key, value) →
      (∃ decoded, decodeRow s value = .ok decoded ∧ ∀ name, SortedMap.lookup decoded name =
        if name ∈ (plainColumns s.columns).map Column.name then some (row.get name).value
          else none) ∧
      rowPrefix s.name <+: key ∧
      decodePrimaryKey (findPrimary s) (key.drop (rowPrefix s.name).length) =
        .ok (row.get (findPrimary s).name).value) ∧
    (∀ data, decodeRow? s data = some (decodeRow s data)) ∧
    ∀ data decoded, decodeRow s data = .ok decoded →
      (∀ pk enc, encodeValue (findPrimary s) pk = .ok enc →
        (rowPrefix s.name ++ enc).length ≤ 1000 →
          encodeRow s (put (findPrimary s).name pk decoded) =
            .ok (rowPrefix s.name ++ enc, data)) ∧
      ∀ other, decodeRow s other = .ok decoded → other = data := by
  refine ⟨fun row key value _ stored => ?_, decodeRow?_eq s, fun data decoded accepted => ⟨?_, ?_⟩⟩
  · obtain ⟨enc, rfl, encodes⟩ := encodeRow_eq_ok.mp stored
    refine ⟨⟨_, encodes.decodeRow_eq, fun name => ?_⟩, List.prefix_append _ _, ?_⟩
    · rw [Row.lookup_select, RowMap.get_row]
      rfl
    · rw [List.drop_left, encodes.decodePrimaryKey_eq, RowMap.get_row]
  · exact fun pk enc => encodeRow_of_decodeRow accepted
  · exact fun other also => decodeRow_inj also accepted

/-- A row with a nil slice and without its nullable column is read back. -/
theorem row_codec_nilSlice : ∃ decoded, decodeRow
        ⟨[0x74], [⟨[0x69], columnInt64, true, false⟩, ⟨[0x62], columnBytes, false, false⟩,
          ⟨[0x6e], columnBool, false, true⟩]⟩
        (rowHeader 2 ++ [2, 0, 0, 0, 3, 0, 0, 0, 3, 0, 0, 3, 0, 0, 0, 1, 0, 0, 0, 0]) =
          .ok decoded ∧
      ∀ name, SortedMap.lookup decoded name =
        if name ∈ [[0x62], [0x6e]] then
          some (RowMap.get [⟨[0x62], .bytes none⟩, ⟨[0x69], .int64 7⟩] name).value
        else none :=
  ((row_codec ⟨[0x74], [⟨[0x69], columnInt64, true, false⟩, ⟨[0x62], columnBytes, false, false⟩,
    ⟨[0x6e], columnBool, false, true⟩]⟩).1 [⟨[0x62], .bytes none⟩, ⟨[0x69], .int64 7⟩] _ _
      rfl rfl).1

end GoDatabase
