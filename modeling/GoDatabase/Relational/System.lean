import GoDatabase.Relational.Contents
import GoDatabase.Relational.Tables

/-!
# A database and its clients

Any number of clients call the methods of one database, of its transactions and of its
table handles.  The mutex makes every call one step, so that an interleaving of clients is
a sequence of calls.
-/

namespace GoDatabase.Db

open Library List

/-- The database with every transaction and every table handle that it has returned. -/
structure System (σ : Type) where
  db : Database σ
  txs : List Tx
  tables : List Table

/-- The public calls.  A transaction or a table is named by its position among those that
were returned; a table that is no table of this database is none. -/
inductive Call where
  | close
  | set (key value : Bytes)
  | get (key : Bytes)
  | delete (key : Bytes)
  | range (start stop : Bytes)
  | begin (readOnly : Bool)
  | txGet (tx : Nat) (key : Bytes)
  | txSet (tx : Nat) (key value : Bytes)
  | txDelete (tx : Nat) (key : Bytes)
  | txRange (tx : Nat) (start stop : Bytes)
  | txRow (tx : Nat) (table : Option Nat) (method : RowMethod)
  | commit (tx : Nat)
  | rollback (tx : Nat)
  | createTable (schema : TableSchema)
  | openTable (name : Bytes)
  | createIndex (table : Nat) (index : Index)
  | tableRow (table : Nat) (method : RowMethod)
  | tableGet (table : Nat) (primaryKey : Value)
  | tableScan (table : Nat)
  | tableRange (table : Nat) (start stop : Value)
  | findByIndex (table : Nat) (indexName : Bytes) (value : Value)

/-- What a call returns.  A call on a handle that does not exist returns nothing. -/
inductive Outcome where
  | unit (result : Except GoError Unit)
  | value (result : Except GoError (Option Bytes))
  | flag (result : Except GoError Bool)
  | items (result : Except GoError (List Item))
  | handle (result : Except GoError Nat)
  | row (result : Except GoError (Option Row))
  | rows (result : Except GoError (List Row))
  | nothing

/-- The calls of a run with their outcomes. -/
abbrev Events := List (Call × Outcome)

namespace System

variable {σ : Type} (store : Store σ) (s : System σ)

/-- A call on one transaction. -/
def withTx (tx : Nat) (call : Tx → Outcome × Database σ × Tx) : Outcome × System σ :=
  match s.txs[tx]? with
  | none => (.nothing, s)
  | some held =>
    let (outcome, db, changed) := call held
    (outcome, { s with db := db, txs := s.txs.set tx changed })

/-- A call on one table handle. -/
def withTable (table : Nat) (call : Table → Outcome × Database σ × Table) : Outcome × System σ :=
  match s.tables[table]? with
  | none => (.nothing, s)
  | some held =>
    let (outcome, db, changed) := call held
    (outcome, { s with db := db, tables := s.tables.set table changed })

/-- A row method of a transaction. -/
def txRow (tx : Nat) (table : Option Nat) (method : RowMethod) : Outcome × System σ :=
  match s.txs[tx]? with
  | none => (.nothing, s)
  | some held =>
    let (result, changed, refreshed) := held.mutateTable store s.db (table.bind (s.tables[·]?))
      (method.change store s.db)
    (.flag result, { s with
      txs := s.txs.set tx changed
      tables := match table, refreshed with
        | some table, some t => s.tables.set table t
        | _, _ => s.tables })

def step : Call → Outcome × System σ
  | .close =>
    let (result, db) := s.db.close store
    (.unit result, { s with db := db })
  | .set key value =>
    let (result, db) := s.db.set store key value
    (.unit result, { s with db := db })
  | .get key => (.value (s.db.get store key), s)
  | .delete key =>
    let (result, db) := s.db.delete store key
    (.flag result, { s with db := db })
  | .range start stop => (.items (s.db.range store start stop), s)
  | .begin readOnly =>
    match s.db.begin readOnly with
    | (.error err, db) => (.handle (.error err), { s with db := db })
    | (.ok tx, db) => (.handle (.ok s.txs.length), { s with db := db, txs := s.txs ++ [tx] })
  | .txGet tx key => s.withTx tx fun held => (.value (held.get store s.db key), s.db, held)
  | .txSet tx key value => s.withTx tx fun held =>
    let (result, changed) := held.set s.db key value
    (.unit result, s.db, changed)
  | .txDelete tx key => s.withTx tx fun held =>
    let (result, changed) := held.delete store s.db key
    (.flag result, s.db, changed)
  | .txRange tx start stop => s.withTx tx fun held =>
    (.items (held.range store s.db start stop), s.db, held)
  | .txRow tx table method => s.txRow store tx table method
  | .commit tx => s.withTx tx fun held =>
    let (result, db, changed) := held.commitLocked store s.db
    (.unit result, db, changed)
  | .rollback tx => s.withTx tx fun held => (.unit (.ok ()), held.rollback s.db)
  | .createTable schema =>
    match Db.createTable store s.db schema with
    | (.error err, db) => (.handle (.error err), { s with db := db })
    | (.ok table, db) =>
      (.handle (.ok s.tables.length), { s with db := db, tables := s.tables ++ [table] })
  | .openTable name =>
    match Db.openTable store s.db name with
    | .error err => (.handle (.error err), s)
    | .ok table => (.handle (.ok s.tables.length), { s with tables := s.tables ++ [table] })
  | .createIndex table index => s.withTable table fun held =>
    let (result, db, changed) := held.createIndex store s.db index
    (.unit result, db, changed)
  | .tableRow table method => s.withTable table fun held =>
    let (result, db, changed) := held.mutate store s.db (method.change store s.db)
    (.flag result, db, changed)
  | .tableGet table primaryKey => s.withTable table fun held =>
    (.row (held.get store s.db primaryKey), s.db, held)
  | .tableScan table => s.withTable table fun held => (.rows (held.scan store s.db), s.db, held)
  | .tableRange table start stop => s.withTable table fun held =>
    (.rows (held.range store s.db start stop), s.db, held)
  | .findByIndex table indexName value => s.withTable table fun held =>
    let (result, changed) := held.findByIndex store s.db indexName value
    (.rows result, s.db, changed)

end System

/-- The calls of a run with their outcomes, oldest first, and the state after them. -/
inductive Run {σ : Type} (store : Store σ) (start : System σ) :
    Events → System σ → Prop
  | start : Run store start [] start
  | call {events : Events} {s : System σ} (run : Run store start events s) (call : Call) :
      Run store start (events ++ [(call, (s.step store call).1)]) (s.step store call).2

/-! ## What a step can do -/

/-- A call that neither opens nor ends a transaction. -/
def Call.Plain : Call → Prop
  | .begin _ | .commit _ | .rollback _ => False
  | _ => True

/-- The calls that change the contents without a transaction. -/
def Call.Direct : Call → Prop
  | .set _ _ | .delete _ | .createTable _ | .createIndex _ _ | .tableRow _ _ => True
  | _ => False

/-- The calls that record changes in a transaction. -/
def Call.Records (i : Nat) : Call → Prop
  | .txSet tx _ _ | .txDelete tx _ | .txRow tx _ _ => tx = i
  | _ => False

theorem Call.Records.plain {i : Nat} {call : Call} (records : call.Records i) : call.Plain := by
  cases call with
  | begin | commit | rollback => cases records
  | _ => trivial

/-- The effect of a call on the database and on the transactions. -/
inductive Effect {σ : Type} (store : Store σ) (s : System σ) : Call → Outcome → System σ → Prop
  /-- Nothing changes. -/
  | keep {call : Call} {outcome : Outcome} {next : System σ} (plain : call.Plain)
      (db : next.db = s.db) (txs : next.txs = s.txs) : Effect store s call outcome next
  /-- `Begin` fails. -/
  | refused {readOnly : Bool} {err : GoError} :
      Effect store s (.begin readOnly) (.handle (.error err)) s
  /-- The method has no handle to work on. -/
  | missing {call : Call} (plain : ∀ readOnly, call ≠ .begin readOnly) :
      Effect store s call .nothing s
  /-- Only the backend changes, and no transaction is writing. -/
  | write {call : Call} {outcome : Outcome} {next : System σ} (direct : call.Direct)
      (isOpen : s.db.closed = false) (idle : s.db.writerActive = false) (backend : Backend σ)
      (db : next.db = { s.db with backend := backend }) (txs : next.txs = s.txs) :
      Effect store s call outcome next
  | close {outcome : Outcome} {next : System σ} (db : next.db = (s.db.close store).2)
      (txs : next.txs = s.txs) : Effect store s .close outcome next
  | begin {readOnly : Bool} {next : System σ} (isOpen : s.db.closed = false)
      (admitted : readOnly = true ∨ s.db.writerActive = false)
      (db : next.db = { s.db with writerActive := s.db.writerActive || !readOnly })
      (txs : next.txs = s.txs ++ [⟨readOnly, false, [], []⟩]) :
      Effect store s (.begin readOnly) (.handle (.ok s.txs.length)) next
  /-- A transaction records changes. -/
  | record {call : Call} {outcome : Outcome} {next : System σ} {i : Nat} {tx : Tx}
      (changes : Changes) (records : call.Records i) (here : s.txs[i]? = some tx)
      (writable : tx.writable s.db = .ok ()) (db : next.db = s.db)
      (txs : next.txs = s.txs.set i (tx.recordAll changes)) : Effect store s call outcome next
  | commit {i : Nat} {tx : Tx} {next : System σ} (here : s.txs[i]? = some tx)
      (writable : tx.writable s.db = .ok ())
      (published : (s.db.applyBatchLocked store tx.mutations).1 = .ok ())
      (db : next.db = { (s.db.applyBatchLocked store tx.mutations).2 with writerActive := false })
      (txs : next.txs = s.txs.set i { tx with closed := true }) :
      Effect store s (.commit i) (.unit (.ok ())) next
  | failedCommit {i : Nat} {tx : Tx} {err : GoError} {next : System σ} (here : s.txs[i]? = some tx)
      (writable : tx.writable s.db = .ok ())
      (failed : ∃ err, (s.db.applyBatchLocked store tx.mutations).1 = .error err)
      (db : next.db = (s.db.applyBatchLocked store tx.mutations).2) (txs : next.txs = s.txs) :
      Effect store s (.commit i) (.unit (.error err)) next
  /-- A commit that is refused closes a read-only transaction. -/
  | refusedCommit {i : Nat} {tx changed : Tx} {err : GoError} {next : System σ}
      (here : s.txs[i]? = some tx) (ended : tx.closed = true ∨ tx.readOnly = true ∨
        s.db.closed = true)
      (kept : changed = tx ∨ (tx.readOnly = true ∧ changed = { tx with closed := true }))
      (db : next.db = s.db) (txs : next.txs = s.txs.set i changed) :
      Effect store s (.commit i) (.unit (.error err)) next
  | rollback {i : Nat} {tx : Tx} {next : System σ} (here : s.txs[i]? = some tx)
      (isOpen : tx.closed = false)
      (db : next.db = { s.db with writerActive := s.db.writerActive && tx.readOnly })
      (txs : next.txs = s.txs.set i { tx with closed := true }) :
      Effect store s (.rollback i) (.unit (.ok ())) next
  | rollbackClosed {i : Nat} {tx : Tx} {next : System σ} (here : s.txs[i]? = some tx)
      (ended : tx.closed = true) (db : next.db = s.db) (txs : next.txs = s.txs) :
      Effect store s (.rollback i) (.unit (.ok ())) next

section Effects

variable {σ : Type} {store : Store σ}

/-- Whether the contents are kept in memory. -/
def Backend.inMemory : Backend σ → Bool
  | .memory _ => true
  | .durable _ => false

/-- Only the backend differs, and is of the same kind. -/
def Database.SameFlags (d next : Database σ) : Prop :=
  ∃ backend, backend.inMemory = d.backend.inMemory ∧ next = { d with backend := backend }

theorem setLocked_flags (d : Database σ) (key value : Bytes) :
    d.SameFlags (d.setLocked store key value).2 := by
  rw [Database.setLocked]
  cases here : d.backend with
  | memory data => exact ⟨_, here ▸ rfl, rfl⟩
  | durable state => exact ⟨_, here ▸ rfl, rfl⟩

theorem deleteLocked_flags (d : Database σ) (key : Bytes) :
    d.SameFlags (d.deleteLocked store key).2 := by
  rw [Database.deleteLocked]
  cases here : d.backend with
  | memory data =>
    dsimp only
    split_ifs
    · exact ⟨d.backend, rfl, rfl⟩
    · exact ⟨_, here ▸ rfl, rfl⟩
  | durable state => exact ⟨_, here ▸ rfl, rfl⟩

theorem applyBatchLocked_flags (d : Database σ) (mutations : List Mutation) :
    d.SameFlags (d.applyBatchLocked store mutations).2 := by
  rw [Database.applyBatchLocked]
  by_cases closed : d.closed = true
  · rw [if_pos closed]
    exact ⟨d.backend, rfl, rfl⟩
  rw [if_neg closed]
  cases here : d.backend with
  | memory data =>
    dsimp only
    split_ifs
    · exact ⟨d.backend, rfl, rfl⟩
    · exact ⟨_, here ▸ rfl, rfl⟩
  | durable state => exact ⟨_, here ▸ rfl, rfl⟩

/-- What a method without a transaction may do to the database. -/
def Database.Guarded (d next : Database σ) : Prop :=
  next = d ∨ (d.closed = false ∧ d.writerActive = false ∧ d.SameFlags next)

variable {d : Database σ} {α : Type} {s next : System σ} {call : Call} {outcome : Outcome}

theorem Database.guarded {next : Database σ} (closed : ¬ d.closed = true)
    (active : ¬ d.writerActive = true) (same : d.SameFlags next) : d.Guarded next :=
  .inr ⟨Bool.eq_false_iff.mpr closed, Bool.eq_false_iff.mpr active, same⟩

theorem set_guarded (d : Database σ) (key value : Bytes) : d.Guarded (d.set store key value).2 := by
  rw [Database.set]
  split_ifs with closed active empty
  · exact .inl rfl
  · exact .inl rfl
  · exact .inl rfl
  · exact Database.guarded closed active (setLocked_flags d key value)

theorem delete_guarded (d : Database σ) (key : Bytes) : d.Guarded (d.delete store key).2 := by
  rw [Database.delete]
  split_ifs with closed active empty
  · exact .inl rfl
  · exact .inl rfl
  · exact .inl rfl
  · exact Database.guarded closed active (deleteLocked_flags d key)

theorem createTable_guarded (d : Database σ) (schema : TableSchema) :
    d.Guarded (createTable store d schema).2 := by
  rw [createTable]
  split_ifs with closed active
  · exact .inl rfl
  · exact .inl rfl
  · split
    next => exact .inl rfl
    next =>
      split
      next => exact .inl rfl
      next => exact .inl rfl
      next =>
        dsimp only
        split_ifs
        · exact .inl rfl
        · split
          next => exact Database.guarded closed active (setLocked_flags d _ _)
          next => exact Database.guarded closed active (setLocked_flags d _ _)

theorem createTable_step_db (schema : TableSchema) :
    (s.step store (.createTable schema)).2.db = (createTable store s.db schema).2 := by
  rw [System.step]
  split
  next result => rw [result]
  next result => rw [result]

theorem createIndex_guarded (d : Database σ) (t : Table) (index : Index) :
    d.Guarded (t.createIndex store d index).2.1 := by
  rw [Table.createIndex]
  split_ifs with closed active
  · exact .inl rfl
  · exact .inl rfl
  · split
    next => exact .inl rfl
    next =>
      split
      next => exact .inl rfl
      next =>
        dsimp only
        split
        next => exact Database.guarded closed active (applyBatchLocked_flags d _)
        next => exact Database.guarded closed active (applyBatchLocked_flags d _)

theorem commitLocked_flags {d : Database σ} (idle : d.writerActive = false) (tx : Tx) :
    d.SameFlags (tx.commitLocked store d).2.1 := by
  rw [Tx.commitLocked]
  split
  next => exact ⟨d.backend, rfl, rfl⟩
  next =>
    split_ifs
    · exact ⟨d.backend, rfl, rfl⟩
    obtain ⟨backend, kind, same⟩ := @applyBatchLocked_flags σ store d tx.mutations
    dsimp only
    split
    next => exact ⟨backend, kind, same⟩
    next =>
      refine ⟨backend, kind, ?_⟩
      rw [same, ← idle]

theorem mutate_guarded (d : Database σ) (t : Table)
    (change : Mutator α) :
    d.Guarded (t.mutate store d change).2.1 := by
  rw [Table.mutate]
  split_ifs with closed active
  · exact .inl rfl
  · exact .inl rfl
  · split
    next => exact .inl rfl
    next =>
      split
      next => exact .inl rfl
      next value changes _ =>
        have flags := @commitLocked_flags σ store d (Bool.eq_false_iff.mpr active)
          (Tx.empty.recordAll changes)
        split
        next err published _ result =>
          rw [result] at flags
          exact Database.guarded closed active flags
        next published _ result =>
          rw [result] at flags
          exact Database.guarded closed active flags

/-- A guarded method is a write, or changes nothing. -/
theorem Effect.of_guarded
    (guarded : s.db.Guarded next.db) (direct : call.Direct) (plain : call.Plain)
    (txs : next.txs = s.txs) : Effect store s call outcome next := by
  rcases guarded with same | ⟨isOpen, idle, backend, -, same⟩
  · exact .keep plain same txs
  · exact .write direct isOpen idle backend same txs

/-- A method of a transaction that reads. -/
theorem Effect.of_withTx_read (call : Call) (plain : call.Plain) (i : Nat) (read : Tx → Outcome) :
    Effect store s call (s.withTx i fun held => (read held, s.db, held)).1
      (s.withTx i fun held => (read held, s.db, held)).2 := by
  rw [System.withTx]
  cases here : s.txs[i]? with
  | none => exact .keep plain rfl rfl
  | some held =>
    obtain ⟨inside, rfl⟩ := List.getElem?_eq_some_iff.mp here
    exact .keep plain rfl (set_getElem_self inside)

/-- A method of a transaction that records changes when it succeeds. -/
theorem Effect.of_withTx_record (call : Call) {i : Nat} (records : call.Records i)
    (record : Tx → Outcome × Tx) (spec : ∀ held, (record held).2 = held ∨
      (held.writable s.db = .ok () ∧ ∃ changes, (record held).2 = held.recordAll changes)) :
    Effect store s call (s.withTx i fun held => ((record held).1, s.db, (record held).2)).1
      (s.withTx i fun held => ((record held).1, s.db, (record held).2)).2 := by
  rw [System.withTx]
  cases here : s.txs[i]? with
  | none => exact .keep records.plain rfl rfl
  | some held =>
    dsimp only
    rcases spec held with same | ⟨writable, changes, recorded⟩
    · obtain ⟨inside, rfl⟩ := List.getElem?_eq_some_iff.mp here
      rw [same]
      exact .keep records.plain rfl (set_getElem_self inside)
    · rw [recorded]
      exact .record changes records here writable rfl rfl

/-- A method of a table that does not change the contents. -/
theorem Effect.of_withTable_read (call : Call) (plain : call.Plain) (i : Nat)
    (read : Table → Outcome × Table) :
    Effect store s call (s.withTable i fun held => ((read held).1, s.db, (read held).2)).1
      (s.withTable i fun held => ((read held).1, s.db, (read held).2)).2 := by
  rw [System.withTable]
  cases s.tables[i]? with
  | none => exact .keep plain rfl rfl
  | some held => exact .keep plain rfl rfl

/-- A method of a table that changes the contents. -/
theorem Effect.of_withTable_write (call : Call) (direct : call.Direct) (plain : call.Plain)
    (i : Nat) (method : Table → Outcome × Database σ × Table)
    (guarded : ∀ held, s.db.Guarded (method held).2.1) :
    Effect store s call (s.withTable i method).1 (s.withTable i method).2 := by
  rw [System.withTable]
  cases s.tables[i]? with
  | none => exact .keep plain rfl rfl
  | some held => exact .of_guarded (guarded held) direct plain rfl

theorem Tx.set_record (tx : Tx) (d : Database σ) (key value : Bytes) : (tx.set d key value).2 = tx ∨
      (tx.writable d = .ok () ∧ ∃ changes, (tx.set d key value).2 = tx.recordAll changes) := by
  rw [Tx.set]
  split
  next => exact .inl rfl
  next writable =>
    split_ifs
    · exact .inl rfl
    · exact .inr ⟨writable, [⟨key, ⟨value, false⟩⟩], rfl⟩

theorem Tx.delete_record (tx : Tx) (d : Database σ) (key : Bytes) : (tx.delete store d key).2 = tx ∨
      (tx.writable d = .ok () ∧ ∃ changes, (tx.delete store d key).2 = tx.recordAll changes) := by
  rw [Tx.delete]
  split
  next => exact .inl rfl
  next writable =>
    split_ifs
    · exact .inl rfl
    · split
      next => exact .inl rfl
      next => exact .inr ⟨writable, [⟨key, ⟨[], true⟩⟩], rfl⟩

theorem Tx.mutateTable_record (tx : Tx) (d : Database σ) (table : Option Table)
    (change : Mutator α) :
    (tx.mutateTable store d table change).2.1 = tx ∨ (tx.writable d = .ok () ∧
        ∃ changes, (tx.mutateTable store d table change).2.1 = tx.recordAll changes) := by
  rw [Tx.mutateTable.eq_def]
  split
  next => exact .inl rfl
  next writable =>
    split
    next => exact .inl rfl
    next =>
      split
      next => exact .inl rfl
      next =>
        split
        next => exact .inl rfl
        next changes _ => exact .inr ⟨writable, changes, rfl⟩

theorem Effect.of_txRow (s : System σ) (i : Nat) (table : Option Nat) (method : RowMethod) :
    Effect store s (.txRow i table method) (s.txRow store i table method).1
      (s.txRow store i table method).2 := by
  rw [System.txRow]
  cases here : s.txs[i]? with
  | none => exact .keep trivial rfl rfl
  | some held =>
    dsimp only
    rcases held.mutateTable_record s.db (table.bind (s.tables[·]?)) (method.change store s.db) with
      same | ⟨writable, changes, recorded⟩
    · obtain ⟨inside, rfl⟩ := List.getElem?_eq_some_iff.mp here
      rw [same]
      exact .keep trivial rfl (set_getElem_self inside)
    · rw [recorded]
      exact .record changes rfl here writable rfl rfl

theorem Tx.writable_eq_ok {tx : Tx} :
    tx.writable d = .ok () ↔ tx.closed = false ∧ d.closed = false ∧ tx.readOnly = false := by
  rw [Tx.writable, Tx.usable]
  cases tx.closed <;> cases d.closed <;> cases tx.readOnly <;> decide

theorem Effect.of_commit (s : System σ) (i : Nat) :
    Effect store s (.commit i) (s.step store (.commit i)).1 (s.step store (.commit i)).2 := by
  rw [System.step, System.withTx]
  cases here : s.txs[i]? with
  | none => exact .missing nofun
  | some held =>
    dsimp only
    rw [Tx.commitLocked, Tx.usable]
    by_cases ended : held.closed = true
    · rw [if_pos ended]
      exact .refusedCommit here (.inl ended) (.inl rfl) rfl rfl
    by_cases closed : s.db.closed = true
    · rw [if_neg ended, if_pos closed]
      exact .refusedCommit here (.inr (.inr closed)) (.inl rfl) rfl rfl
    rw [if_neg ended, if_neg closed]
    dsimp only
    by_cases readOnly : held.readOnly = true
    · rw [if_pos readOnly]
      exact .refusedCommit here (.inr (.inl readOnly)) (.inr ⟨readOnly, rfl⟩) rfl rfl
    rw [if_neg readOnly]
    have writable : held.writable s.db = .ok () := Tx.writable_eq_ok.mpr
      ⟨Bool.eq_false_iff.mpr ended, Bool.eq_false_iff.mpr closed, Bool.eq_false_iff.mpr readOnly⟩
    cases published : (s.db.applyBatchLocked store held.mutations).1 with
    | error err =>
      obtain ⟨inside, same⟩ := List.getElem?_eq_some_iff.mp here
      refine .failedCommit here writable ⟨err, published⟩ rfl ?_
      rw [← same]
      exact set_getElem_self inside
    | ok done => exact .commit here writable published rfl rfl

theorem Effect.of_rollback (s : System σ) (i : Nat) :
    Effect store s (.rollback i) (s.step store (.rollback i)).1 (s.step store (.rollback i)).2 := by
  rw [System.step, System.withTx]
  cases here : s.txs[i]? with
  | none => exact .missing nofun
  | some held =>
    dsimp only
    rw [Tx.rollback]
    by_cases ended : held.closed = true
    · obtain ⟨inside, same⟩ := List.getElem?_eq_some_iff.mp here
      rw [if_pos ended]
      refine .rollbackClosed here ended rfl ?_
      rw [← same]
      exact set_getElem_self inside
    · rw [if_neg ended]
      refine .rollback here (Bool.eq_false_iff.mpr ended) ?_ rfl
      cases held.readOnly
      · rw [Bool.and_false]
        rfl
      · rw [Bool.and_true]
        rfl

theorem Effect.of_begin (s : System σ) (readOnly : Bool) :
    Effect store s (.begin readOnly) (s.step store (.begin readOnly)).1
      (s.step store (.begin readOnly)).2 := by
  rw [System.step, Database.begin]
  by_cases closed : s.db.closed = true
  · rw [if_pos closed]
    exact .refused
  by_cases busy : ¬ readOnly = true ∧ s.db.writerActive = true
  · rw [if_neg closed, if_pos busy]
    exact .refused
  rw [if_neg closed, if_neg busy]
  refine .begin (Bool.eq_false_iff.mpr closed) ?_ ?_ rfl
  · cases readOnly
    · exact .inr (Bool.eq_false_iff.mpr fun active => busy ⟨Bool.false_ne_true, active⟩)
    · exact .inl rfl
  · cases readOnly
    · rw [Bool.not_false, Bool.or_true]
      rfl
    · rw [Bool.not_true, Bool.or_false]
      rfl

/-- Every call has one of the effects. -/
theorem step_effect (s : System σ) (call : Call) :
    Effect store s call (s.step store call).1 (s.step store call).2 := by
  cases call with
  | close => exact .close rfl rfl
  | set key value => exact .of_guarded (set_guarded s.db key value) trivial trivial rfl
  | get key => exact .keep trivial rfl rfl
  | delete key => exact .of_guarded (delete_guarded s.db key) trivial trivial rfl
  | range start stop => exact .keep trivial rfl rfl
  | begin readOnly => exact .of_begin s readOnly
  | txGet i key => exact .of_withTx_read (.txGet i key) trivial i _
  | txSet i key value =>
    exact .of_withTx_record (.txSet i key value) rfl
      (fun held => (.unit (held.set s.db key value).1, (held.set s.db key value).2))
      fun held => held.set_record s.db key value
  | txDelete i key =>
    exact .of_withTx_record (.txDelete i key) rfl
      (fun held => (.flag (held.delete store s.db key).1, (held.delete store s.db key).2))
      fun held => held.delete_record s.db key
  | txRange i start stop => exact .of_withTx_read (.txRange i start stop) trivial i _
  | txRow i table method => exact .of_txRow s i table method
  | commit i => exact .of_commit s i
  | rollback i => exact .of_rollback s i
  | createTable schema =>
    have guarded := @createTable_guarded σ store s.db schema
    rw [System.step]
    split
    next err db result =>
      rw [result] at guarded
      exact .of_guarded guarded trivial trivial rfl
    next table db result =>
      rw [result] at guarded
      exact .of_guarded guarded trivial trivial rfl
  | openTable name =>
    rw [System.step]
    split
    next => exact .keep trivial rfl rfl
    next => exact .keep trivial rfl rfl
  | createIndex table index =>
    exact .of_withTable_write (.createIndex table index) trivial trivial table _ fun held =>
      createIndex_guarded s.db held index
  | tableRow table method =>
    exact .of_withTable_write (.tableRow table method) trivial trivial table _ fun held =>
      mutate_guarded s.db held _
  | tableGet table primaryKey =>
    exact .of_withTable_read (.tableGet table primaryKey) trivial table fun held =>
      (.row (held.get store s.db primaryKey), held)
  | tableScan table =>
    exact .of_withTable_read (.tableScan table) trivial table fun held =>
      (.rows (held.scan store s.db), held)
  | tableRange table start stop =>
    exact .of_withTable_read (.tableRange table start stop) trivial table fun held =>
      (.rows (held.range store s.db start stop), held)
  | findByIndex table indexName value =>
    exact .of_withTable_read (.findByIndex table indexName value) trivial table fun held =>
      (.rows (held.findByIndex store s.db indexName value).1,
        (held.findByIndex store s.db indexName value).2)

/-- Transactions are never forgotten. -/
theorem Effect.length_le
    (effect : Effect store s call outcome next) : s.txs.length ≤ next.txs.length := by
  cases effect with
  | refused | missing => exact le_rfl
  | begin _ _ _ txs => rw [txs, length_append]; exact Nat.le_add_right ..
  | keep _ _ txs | write _ _ _ _ _ txs | close _ txs | failedCommit _ _ _ _ txs
  | rollbackClosed _ _ _ txs => rw [txs]
  | record _ _ _ _ _ txs | commit _ _ _ _ txs | refusedCommit _ _ _ _ txs | rollback _ _ _ txs =>
    rw [txs, length_set]

end Effects

end GoDatabase.Db
