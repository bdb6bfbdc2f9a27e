import GoDatabase.Relational.Catalog
import GoDatabase.Relational.Database

/-!
# Tables

The methods of a table handle, and the row methods of a transaction.  A row method first
collects everything that it is going to record, so that a failure records nothing.
-/

namespace GoDatabase.Db

open Library SortedMap

def errTableExists : GoError := .sentinel "table already exists"
def errTableNotFound : GoError := .sentinel "table not found"
def errDuplicatePrimary : GoError := .sentinel "duplicate primary key"
def errIndexExists : GoError := .errorf "index already exists" []
def errIndexNotFound : GoError := .errorf "index not found" []
def errDuplicateIndexed : GoError := .errorf "duplicate indexed value" []
def errRowNotFound : GoError := .errorf "row not found" []
def errForeignTransactionTable : GoError := .sentinel "table belongs to another database"

/-- A handle: its schema, and the index definitions when they were last read, by name. -/
structure Table where
  schema : TableSchema
  indexes : List (Binding Bytes Index)

/-- The order in which Go walks the map of indexes; it can be any one. -/
structure MapOrder where
  walk : List Index → List Index
  perm : ∀ indexes, (walk indexes).Perm indexes

/-- The order of the names. -/
def MapOrder.sorted : MapOrder := ⟨fun indexes => indexes, fun indexes => .refl indexes⟩

section Locked

variable {σ : Type} (store : Store σ) (d : Database σ)

/-! ## Reading the catalog -/

/-- The loop of `loadIndexesLocked` over the entries that were read. -/
def loadEntries (schema : TableSchema) (start : Bytes) : List Item → List (Binding Bytes Index) →
    Except GoError (List (Binding Bytes Index))
  | [], indexes => .ok indexes
  | entry :: rest, indexes =>
    if entry.key.length ≤ start.length ∨ ¬ hasPrefix entry.key start then
      loadEntries schema start rest indexes
    else
      match decodeEscapedComponent (entry.key.drop start.length) with
      | none => .error errInvalidSchema
      | some name => do
        let index ← decodeIndexMetadata name entry.value
        validateIndex index schema
        loadEntries schema start rest (put name index indexes)

/-- The prefix of the index definitions of a table. -/
def indexMetadataPrefix (tableName : Bytes) : Bytes := 0x11 :: escape tableName

def loadIndexesLocked (schema : TableSchema) : Except GoError (List (Binding Bytes Index)) := do
  let start := indexMetadataPrefix schema.name
  let entries ← d.rangeLocked store start (prefixEnd start)
  loadEntries schema start entries []

def tableRowsLocked (tableName : Bytes) : Except GoError (List Item) := do
  let front := rowPrefix tableName
  let entries ← d.rangeLocked store front (prefixEnd front)
  return entries.filter fun entry => hasPrefix entry.key front

/-- `refreshIndexesLocked`; the old definitions stay when they cannot be read. -/
def Table.refreshIndexesLocked (t : Table) : Except GoError Unit × Table :=
  match loadIndexesLocked store d t.schema with
  | .error err => (.error err, t)
  | .ok indexes => (.ok (), { t with indexes := indexes })

def Table.rowKey (t : Table) (primaryKey : Value) : Except GoError Bytes := do
  let encoded ← encodeValue (findPrimary t.schema) primaryKey
  let key := rowPrefix t.schema.name ++ encoded
  if 1000 < key.length then .error errInvalidRow else .ok key

/-! ## Row methods of a transaction -/

/-- The loop of `transactionIndexEntries` over the indexes. -/
def indexEntries (tx : Tx) (schema : TableSchema) (row : Row) (primaryKey : Bytes)
    (allowExisting : Bool) : List Index → Except GoError (List Item)
  | [] => .ok []
  | index :: rest => do
    let indexedValue ← encodeIndexValue (columnByName schema index.column) (row.get index.column)
    let key := indexEntryKey schema.name index indexedValue primaryKey
    if index.unique then
      let existing ← tx.valueLocked store d key
      if existing.isSome ∧ (¬ allowExisting ∨ existing ≠ some primaryKey) then
        .error errDuplicateIndexed
      else do
        let entries ← indexEntries tx schema row primaryKey allowExisting rest
        return ⟨key, primaryKey⟩ :: entries
    else do
      let entries ← indexEntries tx schema row primaryKey allowExisting rest
      return ⟨key, primaryKey⟩ :: entries

def transactionIndexEntries (tx : Tx) (table : Table) (row : Row) (rowKey : Bytes)
    (allowExisting : Bool) (order : MapOrder) : Except GoError (List Item) :=
  indexEntries store d tx table.schema row (rowKey.drop (rowPrefix table.schema.name).length)
    allowExisting (order.walk (table.indexes.map Binding.value))

/-- Entries to be written, as changes. -/
def written (entries : List Item) : Changes :=
  entries.map fun entry => ⟨entry.key, ⟨entry.value, false⟩⟩

/-- Entries to be removed, as changes. -/
def removed (entries : List Item) : Changes :=
  entries.map fun entry => ⟨entry.key, ⟨[], true⟩⟩

/-- The changes that `insertRowLocked` records. -/
def insertRowLocked (tx : Tx) (table : Table) (row : Row) (order : MapOrder) :
    Except GoError Changes := do
  let (key, value) ← encodeRow table.schema row
  let existing ← tx.valueLocked store d key
  if existing.isSome then
    .error errDuplicatePrimary
  else do
    let entries ← transactionIndexEntries store d tx table row key false order
    return ⟨key, ⟨value, false⟩⟩ :: written entries

/-- The changes that `updateRowLocked` records; the indexes are walked twice. -/
def updateRowLocked (tx : Tx) (table : Table) (row : Row) (oldOrder newOrder : MapOrder) :
    Except GoError Changes := do
  let (key, value) ← encodeRow table.schema row
  match ← tx.valueLocked store d key with
  | none => .error errRowNotFound
  | some oldValue => do
    let oldRow ← decodeRow table.schema oldValue
    let oldEntries ← transactionIndexEntries store d tx table oldRow key true oldOrder
    let newEntries ← transactionIndexEntries store d tx table row key true newOrder
    return removed oldEntries ++ ⟨key, ⟨value, false⟩⟩ :: written newEntries

/-- The changes that `deleteRowLocked` records; there are none when there is no row. -/
def deleteRowLocked (tx : Tx) (table : Table) (primaryKey : Value) (order : MapOrder) :
    Except GoError (Option Changes) := do
  let key ← table.rowKey primaryKey
  match ← tx.valueLocked store d key with
  | none => return none
  | some value => do
    let row ← decodeRow table.schema value
    let entries ← transactionIndexEntries store d tx table row key true order
    return some (⟨key, ⟨[], true⟩⟩ :: removed entries)

/-! ## Reading rows -/

/-- The loop of `decodeRows`. -/
def Table.decodeRows (t : Table) : List Item → Except GoError (List Row)
  | [] => .ok []
  | entry :: rest =>
    if ¬ hasPrefix entry.key (rowPrefix t.schema.name) then
      t.decodeRows rest
    else do
      let row ← decodeRow t.schema entry.value
      let primary ← decodePrimaryKey (findPrimary t.schema)
        (entry.key.drop (rowPrefix t.schema.name).length)
      let rows ← t.decodeRows rest
      return put (findPrimary t.schema).name primary row :: rows

def Table.scan (t : Table) : Except GoError (List Row) :=
  if d.closed then .error errClosed
  else do
    let entries ← tableRowsLocked store d t.schema.name
    t.decodeRows entries

def Table.range (t : Table) (start stop : Value) : Except GoError (List Row) :=
  if d.closed then .error errClosed
  else do
    let startKey ← t.rowKey start
    let endKey ← t.rowKey stop
    if endKey < startKey then return []
    else do
      let entries ← d.rangeLocked store startKey endKey
      t.decodeRows entries

def Table.get (t : Table) (primaryKey : Value) : Except GoError (Option Row) :=
  if d.closed then .error errClosed
  else do
    let key ← t.rowKey primaryKey
    match ← d.getLocked store key with
    | none => return none
    | some raw => do
      let row ← decodeRow t.schema raw
      return some (put (findPrimary t.schema).name primaryKey row)

/-- The loop of `FindByIndex` over the entries under a prefix. -/
def Table.indexedRows (t : Table) (index : Index) (encoded front : Bytes) : List Item →
    Except GoError (List Row)
  | [] => .ok []
  | entry :: rest =>
    if ¬ hasPrefix entry.key front then
      t.indexedRows index encoded front rest
    else do
      let primaryKey := if index.unique then entry.value else entry.key.drop front.length
      if (index.unique ∧ entry.key.length ≠ front.length) ∨
        (¬ index.unique ∧ primaryKey ≠ entry.value) then
        .error errInvalidRow
      else
        match ← d.getLocked store (rowPrefix t.schema.name ++ primaryKey) with
        | none => .error errInvalidRow
        | some rowValue => do
          let row ← decodeRow t.schema rowValue
          match encodeIndexValue (columnByName t.schema index.column) (row.get index.column) with
          | .error _ => .error errInvalidRow
          | .ok actual =>
            if actual ≠ encoded then
              .error errInvalidRow
            else do
              let primary ← decodePrimaryKey (findPrimary t.schema) primaryKey
              let rows ← t.indexedRows index encoded front rest
              return put (findPrimary t.schema).name primary row :: rows

def Table.findByIndex (t : Table) (indexName : Bytes) (value : Value) : Except GoError
    (List Row) × Table :=
  if d.closed then (.error errClosed, t)
  else
    match t.refreshIndexesLocked store d with
    | (.error err, t) => (.error err, t)
    | (.ok (), t) =>
      (match lookup t.indexes indexName with
      | none => .error errIndexNotFound
      | some index => do
        let encoded ← encodeIndexValue (columnByName t.schema index.column) value
        let front := indexValuePrefix t.schema.name index encoded
        let entries ← d.rangeLocked store front (prefixEnd front)
        t.indexedRows store d index encoded front entries, t)

/-! ## Creating tables and indexes -/

def createTable (schema : TableSchema) : Except GoError Table × Database σ :=
  if d.closed then (.error errClosed, d)
  else if d.writerActive then (.error errWriteTransactionActive, d)
  else
    match validateSchema schema with
    | .error err => (.error err, d)
    | .ok () =>
      match d.getLocked store (descriptorKey schema.name) with
      | .error err => (.error err, d)
      | .ok (some _) => (.error errTableExists, d)
      | .ok none =>
        let descriptor := encodeDescriptor schema
        if 3000 < descriptor.length then
          (.error (.wrap "%w: descriptor exceeds 3000 bytes" [] errInvalidSchema), d)
        else
          let stored := d.setLocked store (descriptorKey schema.name) descriptor
          match stored.1 with
          | .error err => (.error err, stored.2)
          | .ok () => (.ok ⟨schema, []⟩, stored.2)

def openTable (name : Bytes) : Except GoError Table :=
  if d.closed then .error errClosed
  else do
    match ← d.getLocked store (descriptorKey name) with
    | none => .error errTableNotFound
    | some value => do
      let schema ← decodeDescriptor value
      if schema.name ≠ name then
        .error (.wrap "%w: descriptor name does not match catalog key" [] errInvalidSchema)
      else do
        let indexes ← loadIndexesLocked store d schema
        return ⟨schema, indexes⟩

/-- The loop of `CreateIndex` over the rows; `seen` are the values of a unique index so far. -/
def backfill (schema : TableSchema) (index : Index) : List Item →
    (seen : List (Binding Bytes Bytes)) → Except GoError (List Mutation)
  | [], _ => .ok []
  | entry :: rest, seen => do
    let row ← decodeRow schema entry.value
    let indexedValue ← encodeIndexValue (columnByName schema index.column) (row.get index.column)
    let primaryKey := entry.key.drop (rowPrefix schema.name).length
    let key := indexEntryKey schema.name index indexedValue primaryKey
    if index.unique ∧ (lookup seen indexedValue).any (· ≠ primaryKey) then
      .error errDuplicateIndexed
    else do
      let mutations ← backfill schema index rest
        (if index.unique then put indexedValue primaryKey seen else seen)
      return ⟨key, primaryKey, false⟩ :: mutations

/-- The batch of `CreateIndex`. -/
def indexBatch (t : Table) (index : Index) : Except GoError (List Mutation) := do
  validateIndex index t.schema
  if (lookup t.indexes index.name).isSome then
    .error errIndexExists
  else do
    let metadataKey := indexMetadataKey t.schema.name index.name
    match ← d.getLocked store metadataKey with
    | some _ => .error errIndexExists
    | none => do
      let rows ← tableRowsLocked store d t.schema.name
      let mutations ← backfill t.schema index rows []
      return mutations ++ [⟨metadataKey, encodeIndexMetadata index, false⟩]

def Table.createIndex (t : Table) (index : Index) : Except GoError Unit × Database σ × Table :=
  if d.closed then (.error errClosed, d, t)
  else if d.writerActive then (.error errWriteTransactionActive, d, t)
  else
    match t.refreshIndexesLocked store d with
    | (.error err, t) => (.error err, d, t)
    | (.ok (), t) =>
      match indexBatch store d t index with
      | .error err => (.error err, d, t)
      | .ok mutations =>
        let published := d.applyBatchLocked store mutations
        match published.1 with
        | .error err => (.error err, published.2, t)
        | .ok () =>
          (.ok (), published.2, { t with indexes := put index.name index t.indexes })

/-! ## Mutations -/

/-- What a mutation of a table returns, and the changes that it records. -/
abbrev Mutator (α : Type) := Table → Tx → Except GoError (α × Changes)

/-- `mutate`: a transaction of its own, which is published at once. -/
def Table.mutate {α : Type} (t : Table)
    (change : Mutator α) :
    Except GoError α × Database σ × Table :=
  if d.closed then (.error errClosed, d, t)
  else if d.writerActive then (.error errWriteTransactionActive, d, t)
  else
    match t.refreshIndexesLocked store d with
    | (.error err, t) => (.error err, d, t)
    | (.ok (), t) =>
      match change t .empty with
      | .error err => (.error err, d, t)
      | .ok (value, changes) =>
        match (Tx.empty.recordAll changes).commitLocked store d with
        | (.error err, d, _) => (.error err, d, t)
        | (.ok (), d, _) => (.ok value, d, t)

/-- `mutateTable`: the same within an open transaction.  A table of another database, and
nil, are no table here. -/
def Tx.mutateTable {α : Type} (tx : Tx) (table : Option Table)
    (change : Mutator α) :
    Except GoError α × Tx × Option Table :=
  match tx.writable d with
  | .error err => (.error err, tx, table)
  | .ok () =>
    match table with
    | none => (.error errForeignTransactionTable, tx, none)
    | some t =>
      match t.refreshIndexesLocked store d with
      | (.error err, t) => (.error err, tx, some t)
      | (.ok (), t) =>
        match change t tx with
        | .error err => (.error err, tx, some t)
        | .ok (value, changes) => (.ok value, tx.recordAll changes, some t)

/-- The three row methods, as what they return and record. -/
inductive RowMethod where
  | insert (row : Row) (order : MapOrder)
  | update (row : Row) (oldOrder newOrder : MapOrder)
  | delete (primaryKey : Value) (order : MapOrder)

/-- Only `Delete` returns a value: whether there was a row. -/
def RowMethod.change (method : RowMethod) (t : Table) (tx : Tx) :
    Except GoError (Bool × Changes) :=
  match method with
  | .insert row order => do
    let changes ← insertRowLocked store d tx t row order
    return (true, changes)
  | .update row oldOrder newOrder => do
    let changes ← updateRowLocked store d tx t row oldOrder newOrder
    return (true, changes)
  | .delete primaryKey order => do
    match ← deleteRowLocked store d tx t primaryKey order with
    | none => return (false, [])
    | some changes => return (true, changes)

end Locked

end GoDatabase.Db
