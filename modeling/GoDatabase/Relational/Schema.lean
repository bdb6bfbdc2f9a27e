import GoDatabase.Library.GoError
import Mathlib.Data.List.Nodup

/-!
# Table schemas

Columns, schemas and the values of a row, with the check that `CreateTable` makes
before it stores a schema and `OpenTable` makes again after reading it back.
-/

namespace GoDatabase

open Library List

/-- `ColumnType`: any byte can be asked for, four of them name a type. -/
abbrev ColumnType := UInt8

def columnInt64 : ColumnType := 1
def columnString : ColumnType := 2
def columnBytes : ColumnType := 3
def columnBool : ColumnType := 4

structure Column where
  name : Bytes
  type : ColumnType
  primaryKey : Bool
  nullable : Bool
  deriving DecidableEq, Repr

structure TableSchema where
  name : Bytes
  columns : List Column
  deriving DecidableEq, Repr

/-- A value held by a row.  A byte slice is given by its contents, so that a nil slice
and an empty one are the same value; `other` stands for every Go value of a type that no
column has. -/
inductive Value where
  | null
  | int64 (value : Int64)
  | string (value : Bytes)
  | bytes (value : Bytes)
  | bool (value : Bool)
  | other
  deriving DecidableEq

def errInvalidSchema : GoError := .sentinel "invalid table schema"
def errInvalidRow : GoError := .sentinel "invalid table row"

/-- The column type is one of the four. -/
def ColumnType.Known (type : ColumnType) : Prop := ¬ (type < columnInt64 ∨ columnBool < type)

instance (type : ColumnType) : Decidable type.Known := inferInstanceAs (Decidable (¬ _))

/-! ## The check of a schema -/

/-- The loop of `validateSchema` over the columns: the names seen so far and the number of
primary columns. -/
def validateColumns : (columns : List Column) → (seen : List Bytes) → (primary : Nat) →
    Except GoError Nat
  | [], _, primary => .ok primary
  | c :: rest, seen, primary =>
    if c.name = [] ∨ 128 < c.name.length ∨ c.name ∈ seen ∨ c.type < columnInt64 ∨
        columnBool < c.type then
      .error errInvalidSchema
    else if c.primaryKey then
      if c.nullable ∨ (c.type ≠ columnInt64 ∧ c.type ≠ columnString) then
        .error errInvalidSchema
      else
        validateColumns rest (c.name :: seen) (primary + 1)
    else
      validateColumns rest (c.name :: seen) primary

def validateSchema (s : TableSchema) : Except GoError Unit :=
  if s.name.length = 0 ∨ 128 < s.name.length ∨ s.columns.length = 0 ∨ 65535 < s.columns.length then
    .error errInvalidSchema
  else do
    let primary ← validateColumns s.columns [] 0
    if primary ≠ 1 then .error errInvalidSchema else .ok ()

def findColumn (schema : TableSchema) (name : Bytes) : Option Column :=
  schema.columns.find? fun column => column.name = name

/-- The zero `Column`. -/
def Column.zero : Column := ⟨[], 0, false, false⟩

def columnByName (schema : TableSchema) (name : Bytes) : Column :=
  (findColumn schema name).getD .zero

def findPrimary (s : TableSchema) : Column :=
  (s.columns.find? fun c => c.primaryKey).getD .zero

/-! ## What an accepted schema satisfies -/

namespace Column

/-- What the check asks of one column by itself. -/
structure Valid (c : Column) : Prop where
  named : c.name ≠ []
  short : c.name.length ≤ 128
  known : c.type.Known
  key_not_null : c.primaryKey = true → c.nullable = false
  key_type : c.primaryKey = true → c.type = columnInt64 ∨ c.type = columnString

end Column

/-- A list of columns that the loop accepts after the names `seen`. -/
structure ValidColumns (columns : List Column) (seen : List Bytes) : Prop where
  each : ∀ c ∈ columns, c.Valid
  fresh : ∀ c ∈ columns, c.name ∉ seen
  distinct : (columns.map Column.name).Nodup

variable {seen : List Bytes}

theorem validColumns_cons {c : Column} {rest : List Column} : ValidColumns (c :: rest) seen ↔
      (c.Valid ∧ c.name ∉ seen) ∧ ValidColumns rest (c.name :: seen) := by
  constructor
  · rintro ⟨each, fresh, distinct⟩
    obtain ⟨absent, distinctRest⟩ := nodup_cons.mp distinct
    refine ⟨⟨each c (mem_cons_self ..), fresh c (mem_cons_self ..)⟩,
      fun other mem => each other (mem_cons_of_mem _ mem), ?_, distinctRest⟩
    intro other mem inSeen
    rcases mem_cons.mp inSeen with same | earlier
    · exact absent (mem_map.mpr ⟨other, mem, same⟩)
    · exact fresh other (mem_cons_of_mem _ mem) earlier
  · rintro ⟨⟨valid, new⟩, ⟨each, fresh, distinct⟩⟩
    refine ⟨?_, ?_, nodup_cons.mpr ⟨?_, distinct⟩⟩
    · exact forall_mem_cons.mpr ⟨valid, each⟩
    · refine forall_mem_cons.mpr ⟨new, ?_⟩
      intro other mem inSeen
      exact fresh other mem (mem_cons_of_mem _ inSeen)
    · intro repeated
      obtain ⟨other, mem, same⟩ := mem_map.mp repeated
      exact fresh other mem (same ▸ mem_cons_self ..)

/-- The loop counts the primary columns of an acceptable list and rejects every other one. -/
theorem validateColumns_eq_ok {columns : List Column} {primary total : Nat} :
    validateColumns columns seen primary = .ok total ↔
      ValidColumns columns seen ∧ total = primary + columns.countP Column.primaryKey := by
  induction columns generalizing seen primary with
  | nil =>
    rw [validateColumns, Except.ok.injEq, countP_nil, Nat.add_zero, eq_comm]
    exact ⟨fun eq => ⟨⟨nofun, nofun, nodup_nil⟩, eq⟩, And.right⟩
  | cons c rest ih =>
    rw [validateColumns, guard_eq_ok, validColumns_cons]
    by_cases primaryKey : c.primaryKey = true
    · rw [if_pos primaryKey, guard_eq_ok, ih, countP_cons_of_pos primaryKey]
      constructor
      · rintro ⟨shape, keyShape, validRest, count⟩
        simp only [not_or, not_and_or, not_not, Bool.not_eq_true] at shape keyShape
        obtain ⟨named, short, new, known⟩ := shape
        refine ⟨⟨⟨⟨named, not_lt.mp short, ?_, fun _ => keyShape.1, fun _ => keyShape.2⟩, new⟩,
          validRest⟩, by omega⟩
        exact not_or.mpr known
      · rintro ⟨⟨⟨valid, new⟩, validRest⟩, count⟩
        refine ⟨?_, ?_, validRest, by omega⟩
        · rintro (unnamed | long | old | unknown)
          · exact valid.named unnamed
          · exact absurd valid.short (not_le.mpr long)
          · exact new old
          · exact valid.known unknown
        · rintro (null | ⟨notInt, notString⟩)
          · rw [valid.key_not_null primaryKey] at null
            cases null
          · exact (valid.key_type primaryKey).elim notInt notString
    · rw [if_neg primaryKey, ih, countP_cons_of_neg primaryKey]
      constructor
      · rintro ⟨shape, validRest, count⟩
        simp only [not_or] at shape
        obtain ⟨named, short, new, known⟩ := shape
        refine ⟨⟨⟨⟨named, not_lt.mp short, ?_, ?_, ?_⟩, new⟩, validRest⟩, count⟩
        · exact not_or.mpr known
        · exact fun key => absurd key primaryKey
        · exact fun key => absurd key primaryKey
      · rintro ⟨⟨⟨valid, new⟩, validRest⟩, count⟩
        refine ⟨?_, validRest, count⟩
        rintro (unnamed | long | old | unknown)
        · exact valid.named unnamed
        · exact absurd valid.short (not_le.mpr long)
        · exact new old
        · exact valid.known unknown

namespace TableSchema

/-- A schema that `validateSchema` accepts. -/
structure Valid (s : TableSchema) : Prop where
  named : s.name ≠ []
  short : s.name.length ≤ 128
  nonempty : s.columns ≠ []
  few : s.columns.length ≤ 65535
  columns : ValidColumns s.columns []
  primary : s.columns.countP Column.primaryKey = 1

end TableSchema

theorem validateSchema_eq_ok {s : TableSchema} : validateSchema s = .ok () ↔ s.Valid := by
  rw [validateSchema, guard_eq_ok]
  constructor
  · rintro ⟨shape, loop⟩
    simp only [not_or, length_eq_zero_iff, not_lt] at shape
    obtain ⟨named, short, nonempty, few⟩ := shape
    cases result : validateColumns s.columns [] 0 with
    | error err => rw [result] at loop; cases loop
    | ok primary =>
      rw [result, ok_bind, guard_eq_ok, not_not] at loop
      obtain ⟨columns, count⟩ := validateColumns_eq_ok.mp result
      exact ⟨named, short, nonempty, few, columns, by omega⟩
  · intro valid
    refine ⟨?_, ?_⟩
    · simp only [not_or, length_eq_zero_iff, not_lt]
      exact ⟨valid.named, valid.short, valid.nonempty, valid.few⟩
    · rw [validateColumns_eq_ok.mpr ⟨valid.columns, rfl⟩, ok_bind, valid.primary]
      rfl

namespace TableSchema.Valid

variable {s : TableSchema}

/-- The primary column of an accepted schema is one of its columns. -/
theorem findPrimary_mem (valid : s.Valid) :
    findPrimary s ∈ s.columns ∧ (findPrimary s).primaryKey = true := by
  have some : (s.columns.find? fun c => c.primaryKey).isSome := by
    rw [List.find?_isSome, ← countP_pos_iff]
    have one := valid.primary
    change 0 < s.columns.countP Column.primaryKey
    omega
  obtain ⟨c, found⟩ := Option.isSome_iff_exists.mp some
  rw [findPrimary, found]
  exact ⟨mem_of_find?_eq_some found, List.find?_some found⟩

theorem primary_type (valid : s.Valid) :
    (findPrimary s).type = columnInt64 ∨ (findPrimary s).type = columnString := by
  obtain ⟨mem, key⟩ := valid.findPrimary_mem
  exact (valid.columns.each _ mem).key_type key

variable {c : Column}

/-- There is no second primary column. -/
theorem eq_findPrimary (valid : s.Valid) (mem : c ∈ s.columns)
    (primaryKey : c.primaryKey = true) : c = findPrimary s := by
  have one : (s.columns.filter Column.primaryKey).length = 1 := by
    rw [← countP_eq_length_filter]
    exact valid.primary
  obtain ⟨only, shape⟩ := length_eq_one_iff.mp one
  have isOnly : ∀ other ∈ s.columns, other.primaryKey = true → other = only := by
    intro other isMember isPrimary
    have kept := mem_filter.mpr ⟨isMember, isPrimary⟩
    rw [shape] at kept
    exact mem_singleton.mp kept
  have chosen := valid.findPrimary_mem
  rw [isOnly c mem primaryKey, isOnly _ chosen.1 chosen.2]

/-- A column is found under its name. -/
theorem findColumn_name (valid : s.Valid) (mem : c ∈ s.columns) :
    findColumn s c.name = some c := by
  have distinct := valid.columns.distinct
  rw [findColumn]
  generalize s.columns = columns at mem distinct
  induction columns with
  | nil => cases mem
  | cons first rest ih =>
    obtain ⟨absent, distinctRest⟩ := nodup_cons.mp distinct
    rcases mem_cons.mp mem with rfl | later
    · exact List.find?_cons_of_pos (decide_eq_true rfl)
    · rw [List.find?_cons_of_neg, ih later distinctRest]
      intro same
      exact absent (mem_map.mpr ⟨c, later, (of_decide_eq_true same).symm⟩)

end TableSchema.Valid

/-- A table with a text key and a nullable column. -/
def flagSchema : TableSchema :=
  ⟨[1], [⟨[1], columnString, true, false⟩, ⟨[2], columnBool, false, true⟩]⟩

end GoDatabase
