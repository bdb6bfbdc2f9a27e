import GoDatabase.Relational.Value

/-!
# Keys of the relational layer

Table descriptors, index definitions, rows and index entries share one ordered key
space.  Every key starts with a byte for its kind, followed by the escaped names; the
rest of the key is a value, a primary key, or both.
-/

namespace GoDatabase

open Library List

structure Index where
  name : Bytes
  column : Bytes
  unique : Bool
  deriving DecidableEq, Repr

def descriptorKey (name : Bytes) : Bytes := 0x10 :: escape name

def rowPrefix (name : Bytes) : Bytes := 0x20 :: escape name

def indexMetadataKey (tableName indexName : Bytes) : Bytes :=
  0x11 :: (escape tableName ++ escape indexName)

def indexEntryPrefix (tableName indexName : Bytes) : Bytes :=
  0x30 :: (escape tableName ++ escape indexName)

/-- `encodeIndexValue`: the column is encoded as one outside the primary key. -/
def encodeIndexValue (column : Column) (value : Value) : Except GoError Bytes :=
  encodeValue { column with primaryKey := false } value

def indexValuePrefix (tableName : Bytes) (index : Index) (encoded : Bytes) : Bytes :=
  indexEntryPrefix tableName index.name ++ encoded

def indexEntryKey (tableName : Bytes) (index : Index) (indexedValue primaryKey : Bytes) : Bytes :=
  let key := indexValuePrefix tableName index indexedValue
  if index.unique then key else key ++ primaryKey

def hasPrefix (value front : Bytes) : Bool := front.isPrefixOf value

/-- `prefixEnd`: the last byte that is not `ff` is incremented and ends the result. -/
def prefixEnd (front : Bytes) : Bytes :=
  match front.reverse.dropWhile (· = 0xff) with
  | [] => front ++ [0]
  | last :: before => before.reverse ++ [last + 1]

/-! ## What a key stands for -/

/-- What is fixed per table and per index: the primary column of a table, and the column
and the uniqueness of an index. -/
structure KeyTypes where
  primary : (table : Bytes) → Column
  column : (table index : Bytes) → Column
  unique : (table index : Bytes) → Bool

/-- An object with a key of its own.  A unique index has one entry per value, any other
index one per value and row. -/
inductive KeyObject where
  | table (table : Bytes)
  | index (table index : Bytes)
  | row (table : Bytes) (primaryKey : Value)
  | uniqueEntry (table index : Bytes) (value : Value)
  | entry (table index : Bytes) (value primaryKey : Value)

namespace KeyTypes

def index (types : KeyTypes) (table name : Bytes) : Index where
  name := name
  column := (types.column table name).name
  unique := types.unique table name

/-- The key under which the source stores an object. -/
inductive Names (types : KeyTypes) : KeyObject → Bytes → Prop
  | table (table : Bytes) : Names types (.table table) (descriptorKey table)
  | index (table index : Bytes) : Names types (.index table index) (indexMetadataKey table index)
  | row (table : Bytes) {primaryKey : Value} {encoded : Bytes}
      (key : encodeValue (types.primary table) primaryKey = .ok encoded) :
      Names types (.row table primaryKey) (rowPrefix table ++ encoded)
  | uniqueEntry (table index : Bytes) {value : Value} {encoded : Bytes} (primaryKey : Bytes)
      (unique : types.unique table index = true)
      (indexed : encodeIndexValue (types.column table index) value = .ok encoded) :
      Names types (.uniqueEntry table index value)
        (indexEntryKey table (types.index table index) encoded primaryKey)
  | entry (table index : Bytes) {value primaryKey : Value} {encoded encodedKey : Bytes}
      (shared : types.unique table index = false)
      (indexed : encodeIndexValue (types.column table index) value = .ok encoded)
      (key : encodeValue (types.primary table) primaryKey = .ok encodedKey) :
      Names types (.entry table index value primaryKey)
        (indexEntryKey table (types.index table index) encoded encodedKey)

end KeyTypes

/-- An entry of an index for a value. -/
def KeyObject.IsEntryOf (object : KeyObject) (table index : Bytes) (value : Value) : Prop :=
  object = .uniqueEntry table index value ∨
    ∃ primaryKey, object = .entry table index value primaryKey

/-! ## Reading a key back -/

theorem indexEntryKey_of_unique {index : Index} (unique : index.unique = true)
    (table value primaryKey : Bytes) :
    indexEntryKey table index value primaryKey = indexValuePrefix table index value := if_pos unique

theorem indexEntryKey_of_shared {index : Index} (shared : index.unique = false)
    (table value primaryKey : Bytes) : indexEntryKey table index value primaryKey =
      indexValuePrefix table index value ++ primaryKey := by
  rw [indexEntryKey, shared]
  rfl

theorem indexEntryKey_eq_cons (table : Bytes) (index : Index) (value primaryKey : Bytes) :
    indexEntryKey table index value primaryKey =
      0x30 :: (indexEntryKey table index value primaryKey).tail := by
  rw [indexEntryKey]
  split_ifs <;> rfl

variable {leftRest rightRest : Bytes} {c : Column}

theorem rowPrefix_append_inj {left right : Bytes}
    (same : rowPrefix left ++ leftRest = rowPrefix right ++ rightRest) :
    left = right ∧ leftRest = rightRest := escape_append_inj (List.cons.inj same).2

/-- The names at the front of an index entry can be read back. -/
theorem indexEntryPrefix_append_inj {leftTable rightTable leftIndex rightIndex : Bytes}
    (same : indexEntryPrefix leftTable leftIndex ++ leftRest =
      indexEntryPrefix rightTable rightIndex ++ rightRest) :
    leftTable = rightTable ∧ leftIndex = rightIndex ∧ leftRest = rightRest := by
  have tails : escape leftTable ++ escape leftIndex ++ leftRest =
      escape rightTable ++ escape rightIndex ++ rightRest := (List.cons.inj same).2
  rw [append_assoc, append_assoc] at tails
  obtain ⟨tables, rest⟩ := escape_append_inj tails
  obtain ⟨indexes, rests⟩ := escape_append_inj rest
  exact ⟨tables, indexes, rests⟩

theorem encodeIndexValue_delimited (column : Column) :
    Delimited fun value word => encodeIndexValue column value = .ok word := by
  intro left right leftWord rightWord leftRest rightRest isLeft isRight same
  exact encodes_delimited (c := { column with primaryKey := false }) rfl
    (encodeValue_eq_ok.mp isLeft) (encodeValue_eq_ok.mp isRight) same

/-- Every value of the column can be looked for. -/
theorem Column.Admits.encodeIndexValue_eq {value : Value} (admits : c.Admits value)
    (known : c.type.Known) : ∃ encoded, encodeIndexValue c value = .ok encoded := by
  have same : Column.Admits { c with primaryKey := false } value := by
    cases value <;> exact admits
  obtain ⟨word, encodes⟩ := same.encodes known rfl
  exact ⟨word, encodeValue_of_encodes encodes⟩

theorem encodeValue_inj {left right : Value} {word : Bytes}
    (isLeft : encodeValue c left = .ok word) (isRight : encodeValue c right = .ok word) :
    left = right := (encodeValue_eq_ok.mp isLeft).inj (encodeValue_eq_ok.mp isRight)

namespace KeyTypes.Names

variable {types : KeyTypes} {object : KeyObject} {key : Bytes}

variable {table encoded : Bytes} {value : Value}

/-- Only rows of a table have keys that start with its row prefix. -/
theorem row_of_rowPrefix (names : types.Names object key)
    (starts : rowPrefix table <+: key) : ∃ primaryKey, object = .row table primaryKey := by
  obtain ⟨rest, whole⟩ := starts
  cases names with
  | table | index => exact absurd (List.cons.inj whole).1 (by decide)
  | @row other primaryKey encoded =>
    obtain ⟨rfl, -⟩ := rowPrefix_append_inj whole
    exact ⟨primaryKey, rfl⟩
  | uniqueEntry | entry =>
    rw [indexEntryKey_eq_cons] at whole
    exact absurd (List.cons.inj whole).1 (by decide)

section

variable {index : Bytes} (names : types.Names object key)
  (indexed : encodeIndexValue (types.column table index) value = .ok encoded)
include names indexed

/-- Only entries of an index for a value have keys that start with the prefix of that
index and value. -/
theorem entry_of_indexValuePrefix
    (starts : indexValuePrefix table (types.index table index) encoded <+: key) :
    object.IsEntryOf table index value := by
  obtain ⟨rest, whole⟩ := starts
  cases names with
  | table | index | row => exact absurd (List.cons.inj whole).1 (by decide)
  | uniqueEntry otherTable otherIndex primaryKey unique otherIndexed =>
    rw [indexEntryKey_of_unique unique, indexValuePrefix, indexValuePrefix, append_assoc] at whole
    obtain ⟨rfl, rfl, tails⟩ := indexEntryPrefix_append_inj whole
    obtain ⟨rfl, -⟩ := encodeIndexValue_delimited _ indexed otherIndexed
      (tails.trans (append_nil _).symm)
    exact .inl rfl
  | @entry otherTable otherIndex _ primaryKey _ _ shared otherIndexed =>
    rw [indexEntryKey_of_shared shared, indexValuePrefix, indexValuePrefix, append_assoc,
      append_assoc] at whole
    obtain ⟨rfl, rfl, tails⟩ := indexEntryPrefix_append_inj whole
    obtain ⟨rfl, -⟩ := encodeIndexValue_delimited _ indexed otherIndexed tails
    exact .inr ⟨primaryKey, rfl⟩

/-- Whatever shares its key with an index entry is an entry of the same index for the same
value. -/
theorem entry_of_indexEntryKey {primaryKey : Bytes}
    (same : key = indexEntryKey table (types.index table index) encoded primaryKey) :
    object.IsEntryOf table index value := by
  apply names.entry_of_indexValuePrefix indexed
  rw [same, indexEntryKey]
  split_ifs
  · exact prefix_refl _
  · exact prefix_append _ _

end

/-- Objects with one key are the same. -/
theorem unique {other : KeyObject} (names : types.Names object key)
    (otherNames : types.Names other key) : object = other := by
  cases names with
  | table table =>
    generalize whole : descriptorKey table = key at otherNames
    cases otherNames with
    | table other => rw [escape_inj (List.cons.inj whole).2]
    | index | row => exact absurd (List.cons.inj whole).1 (by decide)
    | uniqueEntry | entry =>
      rw [indexEntryKey_eq_cons] at whole
      exact absurd (List.cons.inj whole).1 (by decide)
  | index table index =>
    generalize whole : indexMetadataKey table index = key at otherNames
    cases otherNames with
    | table | row => exact absurd (List.cons.inj whole).1 (by decide)
    | index otherTable otherIndex =>
      obtain ⟨rfl, rest⟩ := escape_append_inj (List.cons.inj whole).2
      rw [escape_inj rest]
    | uniqueEntry | entry =>
      rw [indexEntryKey_eq_cons] at whole
      exact absurd (List.cons.inj whole).1 (by decide)
  | @row table primaryKey encoded isKey =>
    obtain ⟨otherKey, rfl⟩ := otherNames.row_of_rowPrefix (prefix_append _ _)
    generalize whole : rowPrefix table ++ encoded = key at otherNames
    cases otherNames with
    | row _ isOther =>
      obtain ⟨-, rfl⟩ := rowPrefix_append_inj whole
      rw [encodeValue_inj isKey isOther]
  | uniqueEntry table index primaryKey isUnique indexed =>
    rcases otherNames.entry_of_indexEntryKey indexed rfl with rfl | ⟨otherKey, rfl⟩
    · rfl
    · generalize indexEntryKey _ _ _ _ = key at otherNames
      cases otherNames with
      | entry _ _ shared => exact absurd (isUnique.symm.trans shared) (by decide)
  | @entry table index value primaryKey encoded encodedKey shared indexed isKey =>
    rcases otherNames.entry_of_indexEntryKey indexed rfl with rfl | ⟨otherKey, rfl⟩
    · generalize indexEntryKey _ _ _ _ = key at otherNames
      cases otherNames with
      | uniqueEntry _ _ _ isUnique => exact absurd (isUnique.symm.trans shared) (by decide)
    generalize whole : indexEntryKey _ _ _ _ = key at otherNames
    cases otherNames with
    | entry _ _ otherShared otherIndexed isOther =>
      rw [indexEntryKey_of_shared shared, indexEntryKey_of_shared shared,
        Except.ok.inj (indexed.symm.trans otherIndexed)] at whole
      obtain rfl := append_cancel_left whole
      rw [encodeValue_inj isKey isOther]

end KeyTypes.Names

/-- The keys of distinct objects differ, the row prefix of a table starts the keys of its
rows only, and the prefix of an index and a value starts the keys of the entries for that
value only. -/
theorem relational_keys_unambiguous (types : KeyTypes) :
    (∀ object other key, types.Names object key → types.Names other key → object = other) ∧
    (∀ object key table, types.Names object key → rowPrefix table <+: key →
      ∃ primaryKey, object = .row table primaryKey) ∧
    ∀ object key table index value encoded, types.Names object key →
      encodeIndexValue (types.column table index) value = .ok encoded →
      indexValuePrefix table (types.index table index) encoded <+: key →
      object.IsEntryOf table index value :=
  ⟨fun _ _ _ names otherNames => names.unique otherNames,
    fun _ _ _ names starts => names.row_of_rowPrefix starts,
    fun _ _ _ _ _ _ names indexed starts => names.entry_of_indexValuePrefix indexed starts⟩

/-- The row with the empty key of the table whose name is one zero byte is the only object
under its key. -/
theorem relational_keys_unambiguous_zeroName :
    ∃ types : KeyTypes, types.Names (.row [0] (.string [])) [0x20, 0, 0xff, 0, 0] ∧
      ∀ other, types.Names other [0x20, 0, 0xff, 0, 0] → other = .row [0] (.string []) := by
  let types : KeyTypes := ⟨fun _ => ⟨[0x69], columnString, true, false⟩,
    fun _ _ => ⟨[0x6e], columnString, false, true⟩, fun _ _ => false⟩
  have row : types.Names (.row [0] (.string [])) (rowPrefix [0] ++ []) := .row [0] rfl
  exact ⟨types, row, fun other names => (relational_keys_unambiguous types).1 other _ _ names row⟩

end GoDatabase
