import GoDatabase.Sql.Parser
import GoDatabase.Relational.Tables

/-!
# The executor of the SQL subset

A statement is executed through the methods of a database and of one table handle.  A
`SELECT` looks for its rows by the primary key where a predicate allows it, by a range of
primary keys where two of them do, and by a scan otherwise; every row that it finds is
checked against all predicates.
-/

namespace GoDatabase.Sql

open Library Db

/-! ## Values -/

/-- `%T` -/
def typeName : Value → String
  | .null => "<nil>"
  | .int64 _ => "int64"
  | .string _ => "string"
  | .bytes _ => "[]uint8"
  | .bool _ => "bool"
  | .other => "other"

/-- `%v` -/
def printed : Value → ErrorArg
  | .null => .text "<nil>"
  | .int64 value => .text (toString value.toInt)
  | .string value | .bytes value => .bytes value
  | .bool value => .text (toString value)
  | .other => .text "other"

/-- The number of a token type. -/
def TokenType.number (kind : TokenType) : Nat := kind.ctorIdx

/-- The first switch of `literalValue`: the value agrees with its kind. -/
def checkLiteral (literal : Literal) : Except GoError Unit :=
  match literal.kind with
  | .null => .error (.errorf "NULL literals are unsupported" [])
  | .integer =>
    match literal.value with
    | .int64 _ => .ok ()
    | value =>
      .error (.errorf "integer literal requires int64 value, got %T" [.text (typeName value)])
  | .string =>
    match literal.value with
    | .string _ => .ok ()
    | value =>
      .error (.errorf "string literal requires string value, got %T" [.text (typeName value)])
  | .true | .false =>
    if literal.value = .bool (literal.kind = .true) then
      .ok ()
    else
      .error (.errorf "%s literal requires matching bool value, got %v (%T)"
        [.text literal.kind.name, printed literal.value, .text (typeName literal.value)])
  | kind => .error (.errorf "unsupported literal kind %s (%d)" [.text kind.name, .int kind.number])

/-- `[]byte(value)` for a string. -/
def asBytes : Value → Value
  | .string value => .bytes value
  | value => value

def literalValue (literal : Literal) (columnType : ColumnType) : Except GoError Value := do
  checkLiteral literal
  if columnType = columnInt64 ∧ literal.kind = .integer then
    return literal.value
  else if columnType = columnString ∧ literal.kind = .string then
    return literal.value
  else if columnType = columnBytes ∧ literal.kind = .string then
    return asBytes literal.value
  else if columnType = columnBool ∧ (literal.kind = .true ∨ literal.kind = .false) then
    return literal.value
  else
    .error (.errorf "literal %s is incompatible with column type %d"
      [.text literal.kind.name, .int columnType.toNat])

/-- The last switch of `compare`, for the order of the two values. -/
def ordered (order : Ordering) : TokenType → Bool
  | .equal => order = .eq
  | .notEqual => order ≠ .eq
  | .less => order = .lt
  | .lessEqual => order ≠ .gt
  | .greater => order = .gt
  | .greaterEqual => order ≠ .lt
  | _ => false

/-- The order of two elements, smaller ones first. -/
def orderOf {α : Type} [LT α] [DecidableLT α] (left right : α) : Ordering :=
  if left < right then .lt else if right < left then .gt else .eq

/-- Values of different types, and nil, do not compare. -/
def compare (left right : Value) (operator : TokenType) : Bool :=
  match left, right with
  | .int64 left, .int64 right => ordered (orderOf left.toInt right.toInt) operator
  | .string left, .string right => ordered (orderOf left right) operator
  | .bytes left, .bytes right => ordered (orderOf left right) operator
  | .bool left, .bool right => ordered (orderOf left right) operator
  | _, _ => false

/-- `matches`: the row satisfies every predicate. -/
def rowMatches (row : Row) (schema : TableSchema) : List Predicate → Bool
  | [] => true
  | predicate :: rest =>
    match findColumn schema predicate.column with
    | none => false
    | some column =>
      match literalValue predicate.value column.type with
      | .error _ => false
      | .ok value =>
        if compare (row.get predicate.column) value predicate.op then rowMatches row schema rest
          else false

def project (row : Row) (columns : List Bytes) : Row :=
  columns.foldl (fun projected column => SortedMap.put column (row.get column) projected) []

/-! ## SELECT -/

section Database

variable {σ : Type} (store : Store σ) (d : Database σ)

/-- The first loop of `selectRows`: the first predicate that gives the primary key. -/
def equalKey (primary : Column) (predicates : List Predicate) : Option Predicate :=
  predicates.find? fun predicate => predicate.column = primary.name && predicate.op = .equal

/-- One round of the second loop of `selectRows`, for the greatest lower and the least upper
bound so far. -/
def tighten (primary : Column) (bounds : Option Value × Option Value) (predicate : Predicate) :
    Except GoError (Option Value × Option Value) :=
  if predicate.column ≠ primary.name then
    .ok bounds
  else if predicate.op = .greater ∨ predicate.op = .greaterEqual ∨ predicate.op = .less ∨
      predicate.op = .lessEqual then
    match literalValue predicate.value primary.type with
    | .error err => .error (.wrap "sql: primary key predicate: %w" [] err)
    | .ok value =>
      if predicate.op = .greater ∨ predicate.op = .greaterEqual then
        .ok (if bounds.1.all (compare value · .greater) then some value else bounds.1, bounds.2)
      else
        .ok (bounds.1, if bounds.2.all (compare value · .less) then some value else bounds.2)
  else
    .ok bounds

def selectRows (table : Table) (primary : Column) (predicates : List Predicate) : Except GoError
    (List Row) :=
  match equalKey primary predicates with
  | some predicate =>
    match literalValue predicate.value primary.type with
    | .error err => .error (.wrap "sql: primary key predicate: %w" [] err)
    | .ok key => do
      let row ← table.get store d key
      return row.toList
  | none => do
    match ← predicates.foldlM (tighten primary) (none, none) with
    | (some lower, some upper) => table.range store d lower upper
    | _ => table.scan store d

/-- The loop of `executeSelect` that checks the predicates. -/
def checkPredicates (schema : TableSchema) : List Predicate → Except GoError Unit
  | [] => .ok ()
  | predicate :: rest =>
    match findColumn schema predicate.column with
    | none => .error (.errorf "sql: unknown predicate column %q" [.bytes predicate.column])
    | some column =>
      if ¬ isComparison predicate.op then
        .error (.errorf "sql: unsupported comparison operator %s (%d)"
          [.text predicate.op.name, .int predicate.op.number])
      else
        match literalValue predicate.value column.type with
        | .error err => .error (.wrap "sql: predicate column %q: %w" [.bytes predicate.column] err)
        | .ok _ => checkPredicates schema rest

def executeSelect (statement : SelectStatement) : Except GoError (List Row) :=
  if statement.table = [] then
    .error (.errorf "sql: SELECT requires a table name" [])
  else if (statement.all ∧ statement.columns ≠ []) ∨ (¬ statement.all ∧ statement.columns = []) then
    .error (.errorf "sql: SELECT requires either * or a nonempty column list" [])
  else do
    let table ← openTable store d statement.table
    let schema := table.schema
    match if statement.all then none else statement.columns.find? fun name =>
      (findColumn schema name).isNone with
    | some name => .error (.errorf "sql: unknown column %q" [.bytes name])
    | none =>
      match schema.columns.find? fun c => c.primaryKey with
      | none => .error (.errorf "sql: table %q has no primary key" [.bytes statement.table])
      | some primary => do
        checkPredicates schema statement.where_
        let rows ← selectRows store d table primary statement.where_
        let found := rows.filter fun row => rowMatches row schema statement.where_
        return if statement.all then found else found.map (project · statement.columns)

/-! ## CREATE TABLE and INSERT -/

def databaseColumnType : TokenType → Except GoError ColumnType
  | .int64 => .ok columnInt64
  | .stringType => .ok columnString
  | .bytes => .ok columnBytes
  | .bool => .ok columnBool
  | kind => .error (.errorf "sql: unsupported column type %s" [.text kind.name])

def databaseColumn (column : ColumnDefinition) : Except GoError Column := do
  let columnType ← databaseColumnType column.type
  return ⟨column.name, columnType, column.primaryKey, !column.notNull && !column.primaryKey⟩

def executeCreateTable (statement : CreateTableStatement) : Except GoError Unit × Database σ :=
  match statement.columns.mapM databaseColumn with
  | .error err => (.error err, d)
  | .ok columns =>
    match createTable store d ⟨statement.name, columns⟩ with
    | (.error err, d) => (.error err, d)
    | (.ok _, d) => (.ok (), d)

/-- The loop of `executeInsert` over the columns of the statement. -/
def insertedRow (schema : TableSchema) : List Bytes → List Literal → Row → Except GoError Row
  | name :: names, literal :: literals, row =>
    match findColumn schema name with
    | none => .error (.errorf "sql: unknown column %q" [.bytes name])
    | some column =>
      if (SortedMap.lookup row name).isSome then
        .error (.errorf "sql: duplicate column %q" [.bytes name])
      else
        match literalValue literal column.type with
        | .error err => .error (.wrap "sql: column %q: %w" [.bytes name] err)
        | .ok value => insertedRow schema names literals (SortedMap.put name value row)
  | _, _, row => .ok row

/-- The last loop of `executeInsert`: every column of the schema is given. -/
def checkComplete (row : Row) : List Column → Except GoError Unit
  | [] => .ok ()
  | column :: rest =>
    if (SortedMap.lookup row column.name).isNone then
      if column.nullable then
        .error (.errorf "sql: omitted nullable column %q: NULL values are unsupported"
          [.bytes column.name])
      else
        .error (.errorf "sql: missing required column %q" [.bytes column.name])
    else
      checkComplete row rest

/-- The row of an `INSERT` and the handle through which it is inserted. -/
def insertArguments (statement : InsertStatement) : Except GoError (Table × Row) :=
  if statement.table = [] then
    .error (.errorf "sql: INSERT requires a table name" [])
  else if statement.columns = [] ∨ statement.columns.length ≠ statement.values.length then
    .error (.errorf "sql: INSERT requires a nonempty column list with matching value count" [])
  else do
    let table ← openTable store d statement.table
    let row ← insertedRow table.schema statement.columns statement.values []
    checkComplete row table.schema.columns
    return (table, row)

def executeInsert (statement : InsertStatement) (order : MapOrder) :
    Except GoError Unit × Database σ :=
  match insertArguments store d statement with
  | .error err => (.error err, d)
  | .ok (table, row) =>
    match table.mutate store d ((RowMethod.insert row order).change store d) with
    | (.error err, d, _) => (.error err, d)
    | (.ok _, d, _) => (.ok (), d)

/-- `Execute`; only a `SELECT` has rows. -/
def execute (order : MapOrder) : Statement → Except GoError (List Row) × Database σ
  | .createTable statement =>
    let (result, d) := executeCreateTable store d statement
    (result.map fun _ => [], d)
  | .insert statement =>
    let (result, d) := executeInsert store d statement order
    (result.map fun _ => [], d)
  | .select statement => (executeSelect store d statement, d)

end Database

end GoDatabase.Sql
