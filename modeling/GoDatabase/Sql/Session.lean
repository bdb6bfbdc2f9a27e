import GoDatabase.Sql.Select

/-!
# Sessions

Texts that are executed one after the other on a database.  The tables stay maps from primary
keys to rows: an `INSERT` that succeeds adds the row of its literals under a free key, nothing
else changes them, and a `SELECT` that succeeds returns the rows of its table that it asks for.
-/

namespace GoDatabase.Sql

open Library Db SortedMap

/-! ## Predicates that pass their checks -/

theorem checkPredicates_ok {schema : TableSchema} {predicates : List Predicate}
    (run : checkPredicates schema predicates = .ok ()) : ∀ p ∈ predicates, p.Typed schema := by
  induction predicates with
  | nil => exact List.forall_mem_nil _
  | cons p rest ih =>
    rw [checkPredicates] at run
    cases found : findColumn schema p.column with
    | none =>
      rw [found] at run
      cases run
    | some column =>
      simp only [found, guard_eq_ok] at run
      cases converted : literalValue p.value column.type with
      | error err =>
        rw [converted] at run
        cases run.2
      | ok value =>
        rw [converted] at run
        exact List.forall_mem_cons.mpr ⟨⟨not_not.mp run.1, column, value, found,
          denotes_of_literalValue converted⟩, ih run.2⟩

/-! ## The row of an `INSERT` -/

/-- The row after some columns: what was there stays, each column has the value of its literal,
and there is no other column. -/
structure Assigned (schema : TableSchema) (names : List Bytes) (literals : List Literal)
    (row result : Row) : Prop where
  kept : ∀ name value, lookup row name = some value → lookup result name = some value
  given : ∀ name literal, (name, literal) ∈ names.zip literals → ∃ column value,
    findColumn schema name = some column ∧ Denotes literal column.type value ∧
      lookup result name = some value
  only : ∀ name, lookup result name ≠ none → lookup row name ≠ none ∨ name ∈ names

theorem insertedRow_ok {schema : TableSchema} : ∀ {names : List Bytes} {literals : List Literal}
    {row result : Row}, insertedRow schema names literals row = .ok result →
    Assigned schema names literals row result
  | [], _, row, _, run | _ :: _, [], row, _, run => by
    cases run
    exact ⟨fun _ _ found => found, nofun, fun _ found => .inl found⟩
  | name :: names, literal :: literals, row, result, run => by
    rw [insertedRow] at run
    cases found : findColumn schema name with
    | none =>
      rw [found] at run
      cases run
    | some column =>
      simp only [found, guard_eq_ok] at run
      obtain ⟨free, run⟩ := run
      cases converted : literalValue literal column.type with
      | error err =>
        rw [converted] at run
        cases run
      | ok value =>
        rw [converted] at run
        obtain ⟨kept, given, only⟩ := insertedRow_ok run
        have own := kept name value (lookup_put_self ..)
        refine ⟨fun other held isHeld => kept other held ?_, fun other held mem => ?_,
          fun other isThere => ?_⟩
        · rw [lookup_put_of_ne, isHeld]
          rintro rfl
          exact free (by rw [isHeld]; rfl)
        · rcases List.mem_cons.mp mem with same | isLater
          · cases same
            exact ⟨column, value, found, denotes_of_literalValue converted, own⟩
          · exact given other held isLater
        · by_cases same : other = name
          · exact .inr (same ▸ List.mem_cons_self)
          · rw [← lookup_put_of_ne _ value same]
            exact (only other isThere).imp_right (List.mem_cons_of_mem name)

theorem checkComplete_ok {row : Row} {columns : List Column}
    (run : checkComplete row columns = .ok ()) : ∀ column ∈ columns, lookup row column.name ≠
      none := by
  induction columns with
  | nil => exact List.forall_mem_nil _
  | cons column columns ih =>
    rw [checkComplete] at run
    split_ifs at run with missing
    exact List.forall_mem_cons.mpr ⟨fun none => missing (by rw [none]; rfl), ih run⟩

section Session

variable {σ : Type} (store : Store σ) (view : σ → List Item) (d : Database σ) (order : MapOrder)

/-- `Exec`: a text that does not parse is not executed. -/
def exec (input : Bytes) : Except Halt (List Row) × Database σ :=
  match parse input with
  | .error halt => (.error halt, d)
  | .ok statement =>
    let result := execute store d order statement
    (result.1.mapError .error, result.2)

/-- An `INSERT` names every column of its table, and adds the row of its literals under a key that
was free. -/
structure AddsRow (contents : List Item) (statement : InsertStatement) (before after : Rows)
    (schema : TableSchema) (pk : Value) (row : Row) : Prop where
  defined : Defines contents schema
  name : schema.name = statement.table
  key : lookup row (findPrimary schema).name = some pk
  free : before schema.name pk = none
  added : after = fun name key =>
    if name = schema.name ∧ key = pk then some row else before name key
  complete : ∀ column ∈ schema.columns, column.name ∈ statement.columns
  given : ∀ name literal, (name, literal) ∈ statement.columns.zip statement.values → ∃ column value,
    findColumn schema name = some column ∧ Denotes literal column.type value ∧
      lookup row name = some value

/-- A `SELECT` returns what it asks for of the rows of its table, in the order of their keys. -/
structure AnswersRows (contents : List Item) (statement : SelectStatement) (rows : Rows)
    (schema : TableSchema) (keys : List Value) (answer : List Row) : Prop where
  defined : Defines contents schema
  typed : statement.Typed schema
  sorted : keys.Pairwise fun left right => left.below right = true
  members : ∀ pk, pk ∈ keys ↔ rows schema.name pk ≠ none
  selects : Selects schema statement (keys.filterMap (rows schema.name)) answer

/-- What a text makes of the tables, and what it returns. -/
def Changes (input : Bytes) (before after : Rows) : Prop :=
  match parse input, (exec store d order input).1 with
  | .ok (.insert statement), .ok _ =>
    ∃ schema pk row, AddsRow (d.contents view) statement before after schema pk row
  | .ok (.select statement), .ok answer =>
    after = before ∧ ∃ schema keys, AnswersRows (d.contents view) statement before schema
      keys answer
  | _, _ => after = before

/-- The texts lead from the tables to tables that the contents stand for. -/
def Follows : List (MapOrder × Bytes) → Database σ → Rows → Prop
  | [], d, rows => Consistent (d.contents view) ∧ Represents (d.contents view) rows
  | (order, input) :: rest, d, rows => ∃ after, Changes store view d order input rows after ∧
    Follows rest (exec store d order input).2 after

/-- What the texts return. -/
def answers : List (MapOrder × Bytes) → Database σ → List (Except Halt (List Row))
  | [], _ => []
  | (order, input) :: rest, d =>
    (exec store d order input).1 :: answers rest (exec store d order input).2

variable {store view d order} {statement : InsertStatement} {table : Table} {row : Row}
  {rows : Rows} {select : SelectStatement} {answer : List Row}

theorem insertArguments_ok (run : insertArguments store d statement = .ok (table, row)) :
    openTable store d statement.table = .ok table ∧
      Assigned table.schema statement.columns statement.values [] row ∧
      ∀ column ∈ table.schema.columns, lookup row column.name ≠ none := by
  rw [insertArguments, guard_eq_ok, guard_eq_ok, bind_ok_iff] at run
  obtain ⟨-, -, opened, isOpened, run⟩ := run
  rw [bind_ok_iff] at run
  obtain ⟨assigned, assigns, run⟩ := run
  rw [bind_ok_iff] at run
  obtain ⟨⟨⟩, complete, last⟩ := run
  obtain ⟨rfl, rfl⟩ := Prod.mk.inj (Except.ok.inj last)
  exact ⟨isOpened, insertedRow_ok assigns, checkComplete_ok complete⟩

theorem executeInsert_eq (arguments : insertArguments store d statement = .ok (table, row)) :
    let result := table.mutate store d ((RowMethod.insert row order).change store d)
    executeInsert store d statement order = (result.1.map fun _ => (), result.2.1) := by
  rw [executeInsert, arguments]
  dsimp only
  generalize table.mutate store d ((RowMethod.insert row order).change store d) = result
  rcases result with ⟨_ | _, _⟩ <;> rfl

section

variable (exact : store.Models view) (agrees : Consistent (d.contents view))
  (represents : Represents (d.contents view) rows)
include exact agrees represents

/-- An `INSERT` fails and changes nothing, or it adds its row. -/
theorem executeInsert_adds (order : MapOrder) (statement : InsertStatement) :
    Consistent ((executeInsert store d statement order).2.contents view) ∧
      ((∃ err, (executeInsert store d statement order).1 = .error err) ∧
          Represents ((executeInsert store d statement order).2.contents view) rows ∨
        (executeInsert store d statement order).1 = .ok () ∧ ∃ after,
          Represents ((executeInsert store d statement order).2.contents view) after ∧
          ∃ schema pk row, AddsRow (d.contents view) statement rows after schema pk row) := by
  cases arguments : insertArguments store d statement with
  | error err =>
    rw [executeInsert, arguments]
    exact ⟨agrees, .inl ⟨⟨err, rfl⟩, represents⟩⟩
  | ok result =>
    obtain ⟨table, row⟩ := result
    obtain ⟨opened, assigned, complete⟩ := insertArguments_ok arguments
    obtain ⟨defined, name⟩ := openTable_defines exact agrees opened
    rw [executeInsert_eq arguments]
    refine ⟨(mutate_keeps exact agrees defined (.insert row order)).consistent, ?_⟩
    rcases mutate_writesRow exact agrees (.insert row order) with
      ⟨⟨err, failed⟩, same⟩ | ⟨flag, enc, done, free, writes, tables⟩
    · exact .inl ⟨⟨err, by rw [failed]; rfl⟩, by rw [same]; exact represents⟩
    refine .inr ⟨by rw [done]; rfl, _, represents.writesRow writes defined tables,
      table.schema, _, row.complete table.schema, defined, name, lookup_put_self ..,
      (represents.table _ defined _).trans free, rfl, ?_, ?_⟩
    · intro column mem
      exact (assigned.only _ (complete column mem)).resolve_left fun some => some rfl
    · intro name literal mem
      obtain ⟨column, value, found, denotes, held⟩ := assigned.given name literal mem
      have named : column.name = name := by simpa using List.find?_some found
      refine ⟨column, value, found, denotes, ?_⟩
      rw [Row.lookup_complete defined.valid, found, Option.map_some, named, Row.get, held]
      rfl

omit represents in
/-- The checks of a `SELECT` that succeeds. -/
theorem executeSelect_typed (run : executeSelect store d select = .ok answer) : ∃ schema,
      Defines (d.contents view) schema ∧ d.closed = false ∧ select.Typed schema := by
  rw [executeSelect, guard_eq_ok, guard_eq_ok, bind_ok_iff] at run
  obtain ⟨-, shape, ⟨schema, indexes⟩, opened, run⟩ := run
  obtain ⟨defined, name⟩ := openTable_defines exact agrees opened
  rw [openTable, guard_eq_ok] at opened
  dsimp only at run name defined
  split at run
  next => cases run
  next known =>
    rw [find?_primary defined.valid] at run
    obtain ⟨⟨⟩, checked, -⟩ := bind_ok_iff.mp run
    have all : select.all = true ↔ select.columns = [] := by tauto
    refine ⟨schema, defined, by simpa using opened.1, name.symm, all, fun column mem => ?_,
      checkPredicates_ok checked⟩
    rw [if_neg (mt all.mp (List.ne_nil_of_mem mem))] at known
    simpa [Option.isSome_iff_ne_none] using List.find?_eq_none.mp known column mem

/-- A `SELECT` that succeeds finds the rows that it asks for. -/
theorem executeSelect_answers (run : executeSelect store d select = .ok answer) :
    ∃ schema keys, AnswersRows (d.contents view) select rows schema keys answer := by
  obtain ⟨schema, defined, isOpen, typed⟩ := executeSelect_typed exact agrees run
  obtain ⟨own, -, executed⟩ := executeSelect_eq exact agrees defined isOpen typed
  rw [executed] at run
  have table : rows schema.name = tableOf (d.contents view) schema :=
    funext (represents.table _ defined)
  refine ⟨schema, _, defined, typed, agrees.sorted_keys defined, fun pk => ?_, ?_⟩
  · rw [table]
    exact agrees.mem_keys defined
  rcases selectRows_finds (t := ⟨schema, own⟩) exact agrees defined isOpen typed.predicates with
    ⟨-, found, selected, finds⟩ | ⟨-, failed⟩
  · rw [selected, ok_bind] at run
    dsimp only at run
    rw [finds] at run
    obtain rfl := Except.ok.inj run
    rw [table, ← agrees.map_rowUnder defined fun _ mem => mem]
    simp only [rowMatches_eq_all]
    exact selects_answer schema select _
  · rw [failed] at run
    cases run

/-- One text. -/
theorem exec_changes (order : MapOrder) (input : Bytes) : ∃ after,
    Changes store view d order input rows after ∧
    Consistent ((exec store d order input).2.contents view) ∧
    Represents ((exec store d order input).2.contents view) after := by
  unfold Changes exec
  cases parse input with
  | error halt => exact ⟨rows, rfl, agrees, represents⟩
  | ok statement =>
    cases statement with
    | select statement =>
      dsimp only [execute]
      refine ⟨rows, ?_, agrees, represents⟩
      cases ran : executeSelect store d statement with
      | error err => exact rfl
      | ok answer => exact ⟨rfl, executeSelect_answers exact agrees represents ran⟩
    | createTable statement =>
      refine ⟨rows, rfl, ?_⟩
      dsimp only [execute, executeCreateTable]
      cases statement.columns.mapM databaseColumn with
      | error err => exact ⟨agrees, represents⟩
      | ok columns =>
        have kept := createTable_consistent exact agrees ⟨statement.name, columns⟩
        have held := createTable_represents exact represents agrees ⟨statement.name, columns⟩
        dsimp only
        generalize createTable store d ⟨statement.name, columns⟩ = result at kept held
        rcases result with ⟨_ | _, next⟩ <;> exact ⟨kept, held⟩
    | insert statement =>
      dsimp only [execute]
      obtain ⟨kept, ⟨⟨err, failed⟩, held⟩ | ⟨done, after, held, adds⟩⟩ :=
        executeInsert_adds exact agrees represents order statement
      · rw [failed]
        exact ⟨rows, rfl, kept, held⟩
      · rw [done]
        exact ⟨after, adds, kept, held⟩

theorem follows (texts : List (MapOrder × Bytes)) : Follows store view texts d rows := by
  induction texts generalizing d rows with
  | nil => exact ⟨agrees, represents⟩
  | cons text rest ih =>
    obtain ⟨after, changes, kept, held⟩ := exec_changes exact agrees represents text.1 text.2
    exact ⟨after, changes, ih kept held⟩

end

/-- After any texts on an empty database the indexes mirror the rows, and the tables hold exactly
the rows that the `INSERT`s added. -/
theorem session_follows (exact : store.Models view) (fresh : d.contents view = [])
    (texts : List (MapOrder × Bytes)) : Follows store view texts d fun _ _ => none := by
  refine follows exact (fresh ▸ consistent_nil) ⟨fun s defined => ?_, fun _ _ _ => rfl⟩ texts
  have stored := defined.stored
  rw [fresh] at stored
  cases stored

/-- Two rows are added to a new database in memory, and one of them is asked for. -/
def twoRows : List (MapOrder × Bytes) :=
  ["CREATE TABLE t (id INT64 PRIMARY KEY, name STRING NOT NULL)",
    "INSERT INTO t (id, name) VALUES (1, 'x')", "INSERT INTO t (name, id) VALUES ('y', 2)",
    "SELECT name FROM t WHERE id > 1 AND name != 'x'"].map fun text => (.sorted, text.toUTF8.toList)

theorem session_follows_select :
    answers mapStore twoRows Database.new = [.ok [], .ok [], .ok [],
      .ok [[⟨"name".toUTF8.toList, .string "y".toUTF8.toList⟩]]] ∧
    Follows mapStore Subtype.val twoRows Database.new fun _ _ => none :=
  ⟨by decide +kernel, session_follows mapStore_exact.toModels rfl twoRows⟩

end Session

end GoDatabase.Sql
