import GoDatabase.Relational.Published

/-!
# Reads outside a transaction

A method that only reads depends on the database through what `getLocked` and
`rangeLocked` answer.  A call of a transaction leaves these answers alone unless it is a
commit that succeeds.
-/

namespace GoDatabase.Db

open Library

/-- The calls that only read. -/
def Call.Reads : Call → Prop
  | .get _ | .range _ _ | .txGet _ _ | .txRange _ _ _ | .openTable _ | .tableGet _ _ | .tableScan _
  | .tableRange _ _ _ | .findByIndex _ _ _ => True
  | _ => False

/-- The calls on the transaction `i`. -/
def Call.On (i : Nat) : Call → Prop
  | .txGet tx _ | .txSet tx _ _ | .txDelete tx _ | .txRange tx _ _ | .txRow tx _ _ | .commit tx
  | .rollback tx => tx = i
  | _ => False

section Reads

variable {σ : Type} {store : Store σ} {view : σ → List Item}

/-- Two databases that answer every read alike. -/
structure Database.SameReads (store : Store σ) (d other : Database σ) : Prop where
  closed : d.closed = other.closed
  get : d.getLocked store = other.getLocked store
  range : d.rangeLocked store = other.rangeLocked store

theorem Table.decodeRows_of_schema {t handle : Table} (schema : t.schema = handle.schema) :
    t.decodeRows = handle.decodeRows := by
  funext entries
  induction entries with
  | nil => rfl
  | cons entry rest ih => rw [Table.decodeRows, Table.decodeRows, ih, schema]

namespace Database.SameReads

variable {d other : Database σ} (same : d.SameReads store other)
include same

theorem get_eq (key : Bytes) : d.get store key = other.get store key := by
  rw [Database.get, Database.get, same.closed, same.get]

theorem range_eq (start stop : Bytes) :
    d.range store start stop = other.range store start stop := by
  rw [Database.range, Database.range, same.closed, same.range]

theorem usable_eq (tx : Tx) : tx.usable d = tx.usable other := by
  rw [Tx.usable, Tx.usable, same.closed]

theorem txGet_eq (tx : Tx) (key : Bytes) : tx.get store d key = tx.get store other key := by
  rw [Tx.get, Tx.get, same.usable_eq, Tx.valueLocked, Tx.valueLocked, same.get]

theorem txRange_eq (tx : Tx) (start stop : Bytes) :
    tx.range store d start stop = tx.range store other start stop := by
  rw [Tx.range, Tx.range, same.usable_eq, same.range]

theorem loadIndexesLocked_eq (schema : TableSchema) :
    loadIndexesLocked store d schema = loadIndexesLocked store other schema := by
  rw [loadIndexesLocked, loadIndexesLocked, same.range]

theorem openTable_eq (name : Bytes) : openTable store d name = openTable store other name := by
  simp only [openTable, same.closed, same.get, same.loadIndexesLocked_eq]

variable {t handle : Table}

theorem tableGet_eq (schema : t.schema = handle.schema) (primaryKey : Value) :
    t.get store d primaryKey = handle.get store other primaryKey := by
  rw [Table.get, Table.get, Table.rowKey, Table.rowKey, same.closed, same.get, schema]

theorem scan_eq (schema : t.schema = handle.schema) : t.scan store d = handle.scan store other := by
  rw [Table.scan, Table.scan, same.closed, tableRowsLocked, tableRowsLocked, same.range,
    Table.decodeRows_of_schema schema, schema]

theorem tableRange_eq (schema : t.schema = handle.schema) (start stop : Value) :
    t.range store d start stop = handle.range store other start stop := by
  rw [Table.range, Table.range, Table.rowKey, Table.rowKey, Table.rowKey, Table.rowKey, same.closed,
    same.range, Table.decodeRows_of_schema schema, schema]

theorem indexedRows_eq (t : Table) (index : Index) (encoded front : Bytes) (entries : List Item) :
    t.indexedRows store d index encoded front entries =
      t.indexedRows store other index encoded front entries := by
  induction entries with
  | nil => rfl
  | cons entry rest ih => rw [Table.indexedRows, Table.indexedRows, ih, same.get]

/-- The definitions that the handle had before do not matter. -/
theorem findByIndex_eq (schema : t.schema = handle.schema) (indexName : Bytes) (value : Value) :
    (t.findByIndex store d indexName value).1 =
    (handle.findByIndex store other indexName value).1 := by
  rw [Table.findByIndex, Table.findByIndex, Table.refreshIndexesLocked, Table.refreshIndexesLocked,
    same.closed, same.loadIndexesLocked_eq, schema]
  split_ifs
  · rfl
  cases loadIndexesLocked store other handle.schema with
  | error err => rfl
  | ok indexes =>
    dsimp only
    cases SortedMap.lookup indexes indexName with
    | none => rfl
    | some index => simp only [same.range, same.indexedRows_eq]

end Database.SameReads

/-! ## Reads of a system -/

theorem withTx_outcome (s : System σ) (i : Nat) (method : Tx → Outcome × Database σ × Tx) :
    (s.withTx i method).1 = (s.txs[i]?.map fun held => (method held).1).getD .nothing := by
  rw [System.withTx]
  cases s.txs[i]? <;> rfl

theorem withTable_outcome (s : System σ) (i : Nat) (method : Table → Outcome × Database σ × Table) :
    (s.withTable i method).1 = (s.tables[i]?.map fun held => (method held).1).getD .nothing := by
  rw [System.withTable]
  cases s.tables[i]? <;> rfl

variable {s next : System σ} {i : Nat} {call : Call}

/-- A method of a table that only looks at the schema of its handle. -/
theorem withTable_read_eq (tables : next.tables.map Table.schema = s.tables.map Table.schema)
    (i : Nat) {method other : Table → Outcome × Database σ × Table}
    (same : ∀ t handle : Table, t.schema = handle.schema → (method t).1 = (other handle).1) :
    (next.withTable i method).1 = (s.withTable i other).1 := by
  have schemas : next.tables[i]?.map Table.schema = s.tables[i]?.map Table.schema := by
    rw [← List.getElem?_map, ← List.getElem?_map, tables]
  rw [withTable_outcome, withTable_outcome]
  cases there : next.tables[i]? with
  | none =>
    rw [there] at schemas
    rw [Option.map_eq_none_iff.mp schemas.symm]
    rfl
  | some t =>
    rw [there] at schemas
    obtain ⟨handle, found, schema⟩ := Option.map_eq_some_iff.mp schemas.symm
    rw [found]
    exact same t handle schema.symm

/-- What a read returns does not depend on the transaction `i`. -/
theorem read_eq (db : next.db.SameReads store s.db) (txs : ∀ j, j ≠ i → next.txs[j]? = s.txs[j]?)
    (tables : next.tables.map Table.schema = s.tables.map Table.schema) (reads : call.Reads)
    (outside : ¬ call.On i) : (next.step store call).1 = (s.step store call).1 := by
  cases call with
  | get key => exact congrArg Outcome.value (db.get_eq key)
  | range start stop => exact congrArg Outcome.items (db.range_eq start stop)
  | txGet j key =>
    rw [System.step, System.step, withTx_outcome, withTx_outcome, txs j outside]
    simp only [db.txGet_eq]
  | txRange j start stop =>
    rw [System.step, System.step, withTx_outcome, withTx_outcome, txs j outside]
    simp only [db.txRange_eq]
  | openTable name =>
    have length : next.tables.length = s.tables.length := by
      rw [← List.length_map Table.schema, tables, List.length_map]
    rw [System.step, System.step, db.openTable_eq, length]
    cases openTable store s.db name <;> rfl
  | tableGet j primaryKey =>
    exact withTable_read_eq tables j fun t handle schema =>
      congrArg Outcome.row (db.tableGet_eq schema primaryKey)
  | tableScan j =>
    exact withTable_read_eq tables j fun t handle schema =>
      congrArg Outcome.rows (db.scan_eq schema)
  | tableRange j start stop =>
    exact withTable_read_eq tables j fun t handle schema =>
      congrArg Outcome.rows (db.tableRange_eq schema start stop)
  | findByIndex j indexName value =>
    exact withTable_read_eq tables j fun t handle schema =>
      congrArg Outcome.rows (db.findByIndex_eq schema indexName value)
  | _ => cases reads

/-! ## Calls of a transaction -/

theorem Database.SameReads.of_backend {d other : Database σ} (closed : d.closed = other.closed)
    (backend : d.backend = other.backend) : d.SameReads store other where
  closed := closed
  get := by
    funext key
    rw [Database.getLocked, Database.getLocked, backend]
  range := by
    funext start stop
    rw [Database.rangeLocked, Database.rangeLocked, backend]

/-- A batch that is refused. -/
theorem applyBatchLocked_sameReads (exact : store.Models view) (d : Database σ)
    (mutations : List Mutation)
    (failed : ∃ err, (d.applyBatchLocked store mutations).1 = .error err) :
    (d.applyBatchLocked store mutations).2.SameReads store d := by
  obtain ⟨err, failed⟩ := failed
  have contents : (d.applyBatchLocked store mutations).2.contents view = d.contents view :=
    (applyBatchLocked_settles exact d mutations).kept failed
  rw [Database.applyBatchLocked] at failed contents ⊢
  by_cases closed : d.closed = true
  · rw [if_pos closed]
    exact .of_backend rfl rfl
  rw [if_neg closed] at failed contents ⊢
  cases here : d.backend with
  | memory data =>
    rw [here] at failed
    dsimp only at failed ⊢
    split_ifs at failed ⊢
    exact .of_backend rfl rfl
  | durable state =>
    rw [here] at contents
    have same : view (store.applyBatch state mutations).2 = view state := by
      rw [Database.contents, Database.contents, here] at contents
      exact contents
    obtain ⟨get, range⟩ := exact.reads _ _ same
    refine ⟨rfl, funext fun key => ?_, funext fun start => funext fun stop => ?_⟩
    · rw [Database.getLocked, Database.getLocked, here]
      dsimp only
      rw [get]
    · rw [Database.rangeLocked, Database.rangeLocked, here]
      dsimp only
      rw [range]

/-- A call on a transaction, unless it publishes. -/
theorem Effect.sameReads (exact : store.Models view) {outcome : Outcome}
    (effect : Effect store s call outcome next) (on : call.On i)
    (unpublished : (call, outcome) ≠ (.commit i, .unit (.ok ()))) :
    next.db.SameReads store s.db ∧ next.db.contents view = s.db.contents view ∧
      ∀ j, j ≠ i → next.txs[j]? = s.txs[j]? := by
  have others {changed : Tx} {j : Nat} (txs : next.txs = s.txs.set j changed) (own : j = i) :
      ∀ k, k ≠ i → next.txs[k]? = s.txs[k]? := by
    intro k ne
    rw [txs, own, List.getElem?_set_ne (Ne.symm ne)]
  cases effect with
  | keep _ db txs => exact ⟨.of_backend (db ▸ rfl) (db ▸ rfl), db ▸ rfl, fun _ _ => txs ▸ rfl⟩
  | refused => cases on
  | missing => exact ⟨.of_backend rfl rfl, rfl, fun _ _ => rfl⟩
  | write direct =>
    cases call with
    | set | delete | createTable | createIndex | tableRow => cases on
    | _ => cases direct
  | close => cases on
  | begin => cases on
  | @record _ _ _ j _ _ records _ _ db txs =>
    have own : j = i := by
      cases call with
      | txSet | txDelete | txRow => exact records.symm.trans on
      | _ => cases records
    exact ⟨.of_backend (db ▸ rfl) (db ▸ rfl), db ▸ rfl, others txs own⟩
  | @commit j =>
    obtain rfl : j = i := on
    exact absurd rfl unpublished
  | failedCommit _ _ failed db txs =>
    rw [db]
    refine ⟨applyBatchLocked_sameReads exact s.db _ failed, ?_, fun _ _ => txs ▸ rfl⟩
    obtain ⟨err, failed⟩ := failed
    exact (applyBatchLocked_settles exact s.db _).kept failed
  | refusedCommit _ _ _ db txs =>
    exact ⟨.of_backend (db ▸ rfl) (db ▸ rfl), db ▸ rfl, others txs on⟩
  | rollback _ _ db txs =>
    rw [db]
    exact ⟨.of_backend rfl rfl, rfl, others txs on⟩
  | rollbackClosed _ _ db txs =>
    exact ⟨.of_backend (db ▸ rfl) (db ▸ rfl), db ▸ rfl, fun _ _ => txs ▸ rfl⟩

theorem refreshIndexesLocked_schema (t : Table) (d : Database σ) :
    (t.refreshIndexesLocked store d).2.schema = t.schema := by
  rw [Table.refreshIndexesLocked]
  cases loadIndexesLocked store d t.schema <;> rfl

theorem mutate_schema {α : Type} (t : Table) (d : Database σ)
    (change : Mutator α) :
    (t.mutate store d change).2.2.schema = t.schema := by
  have schema := @refreshIndexesLocked_schema σ store t d
  rw [Table.mutate]
  split_ifs
  · rfl
  · rfl
  · split
    next result =>
      rw [result] at schema
      exact schema
    next result =>
      rw [result] at schema
      split
      next => exact schema
      next =>
        split
        next => exact schema
        next => exact schema

theorem Tx.mutateTable_schema {α : Type} (tx : Tx) (d : Database σ) (table : Option Table)
    (change : Mutator α) :
    (tx.mutateTable store d table change).2.2.map Table.schema = table.map Table.schema := by
  rw [Tx.mutateTable.eq_def]
  cases tx.writable d with
  | error err => rfl
  | ok done =>
    cases table with
    | none => rfl
    | some t =>
      have schema := @refreshIndexesLocked_schema σ store t d
      dsimp only
      split
      next result =>
        rw [result] at schema
        exact congrArg some schema
      next result =>
        rw [result] at schema
        split
        next => exact congrArg some schema
        next => exact congrArg some schema

/-- The calls of a transaction refresh a handle, but do not change what it is a handle of. -/
theorem step_schemas (on : call.On i) :
    (s.step store call).2.tables.map Table.schema = s.tables.map Table.schema := by
  have withTx_tables (j : Nat) (method : Tx → Outcome × Database σ × Tx) :
      (s.withTx j method).2.tables = s.tables := by
    rw [System.withTx]
    cases s.txs[j]? <;> rfl
  cases call with
  | txGet | txSet | txDelete | txRange | commit | rollback => exact congrArg _ (withTx_tables _ _)
  | txRow j table method =>
    rw [System.step, System.txRow]
    cases s.txs[j]? with
    | none => rfl
    | some held =>
      have schema := @Tx.mutateTable_schema σ store Bool held s.db (table.bind (s.tables[·]?))
        (method.change store s.db)
      dsimp only
      split
      next k t refreshed =>
        rw [refreshed] at schema
        have found : (s.tables[k]?).map Table.schema = some t.schema := schema.symm
        rw [← List.getElem?_map] at found
        obtain ⟨inside, value⟩ := List.getElem?_eq_some_iff.mp found
        rw [List.map_set, ← value]
        exact List.set_getElem_self inside
      next => rfl
  | _ => cases on

/-- Unless a transaction publishes its changes, its calls change neither the contents nor
what anybody else reads. -/
theorem reads_unaffected (exact : store.Models view) (on : call.On i)
    (unpublished : (call, (s.step store call).1) ≠ (.commit i, .unit (.ok ()))) :
    (s.step store call).2.db.contents view = s.db.contents view ∧
      ∀ read : Call, read.Reads → ¬ read.On i →
        ((s.step store call).2.step store read).1 = (s.step store read).1 := by
  obtain ⟨same, contents, txs⟩ := (step_effect s call).sameReads exact on unpublished
  exact ⟨contents, fun read reads outside => read_eq same txs (step_schemas on) reads outside⟩

end Reads

end GoDatabase.Db
