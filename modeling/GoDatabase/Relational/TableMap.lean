import GoDatabase.Relational.Rows

/-!
# Tables as ordered maps

The abstract state of a database without write transactions is one finite map per table,
from primary keys to rows.  A row method that returns without an error changes one place
of one map; every other call changes none.  The reading methods of every handle return
what these maps say, in the order of the primary keys.
-/

namespace GoDatabase

open Library Journal SortedMap List

/-! ## The order of primary keys -/

/-- Integers are compared as numbers and texts byte by byte. -/
def Value.below : Value → Value → Bool
  | .int64 left, .int64 right => left.toInt < right.toInt
  | .string left, .string right => left < right
  | _, _ => false

def Value.atMost (left right : Value) : Bool := left = right || left.below right

variable {c : Column} {left right : Value} {leftWord rightWord : Bytes}

section

variable (key : c.primaryKey = true) (isLeft : Encodes c left leftWord)
  (isRight : Encodes c right rightWord) (type : c.type = columnInt64 ∨ c.type = columnString)
include key isLeft isRight type

/-- The encodings of primary keys are in the order of the keys. -/
theorem Encodes.lt_iff : leftWord < rightWord ↔ left.below right = true := by
  rcases isLeft.key_cases key type with ⟨isInt, x, rfl, rfl⟩ | ⟨isString, x, rfl, rfl⟩
  · rcases isRight.key_cases key type with ⟨-, y, rfl, rfl⟩ | ⟨isString, -⟩
    · rw [int64Bytes_lt, Value.below, decide_eq_true_eq]
    · exact absurd (isInt.symm.trans isString) (by decide)
  · rcases isRight.key_cases key type with ⟨isInt, -⟩ | ⟨-, y, rfl, rfl⟩
    · exact absurd (isInt.symm.trans isString) (by decide)
    · rw [Value.below, decide_eq_true_eq]

theorem Encodes.le_iff : leftWord ≤ rightWord ↔ left.atMost right = true := by
  rw [le_iff_eq_or_lt, isLeft.lt_iff key isRight type, Value.atMost, Bool.or_eq_true,
    decide_eq_true_eq]
  refine or_congr ⟨?_, ?_⟩ Iff.rfl
  · rintro rfl
    exact isLeft.inj isRight
  · rintro rfl
    exact Except.ok.inj
      ((encodeValue_of_encodes isLeft).symm.trans (encodeValue_of_encodes isRight))

end

namespace Db

/-! ## The maps -/

/-- The rows by the name of the table and the primary key. -/
abbrev Rows := Bytes → Value → Option Row

/-- The place that a row method writes, -/
def RowMethod.key (s : TableSchema) : RowMethod → Value
  | .insert row _ | .update row _ _ => row.get (findPrimary s).name
  | .delete primaryKey _ => primaryKey

/-- and what is there afterwards: the row with nil in the columns that were left out. -/
def RowMethod.result (s : TableSchema) : RowMethod → Option Row
  | .insert row _ | .update row _ _ => some (row.complete s)
  | .delete _ _ => none

def Rows.apply (rows : Rows) (s : TableSchema) (method : RowMethod) : Rows := fun name pk =>
  if name = s.name ∧ pk = method.key s then method.result s else rows name pk

/-- A row method of a handle changes the maps when it returns without an error. -/
def System.writeRows {σ : Type} (s : System σ) (rows : Rows) : Call → Outcome → Rows
  | .tableRow i method, .flag (.ok _) =>
    match s.tables[i]? with
    | some t => rows.apply t.schema method
    | none => rows
  | _, _ => rows

/-- A run with the maps after it. -/
inductive Tabled {σ : Type} (store : Store σ) (start : System σ) :
    Events → System σ → Rows → Prop
  | start : Tabled store start [] start fun _ _ => none
  | call {events : Events} {s : System σ} {rows : Rows} (before : Tabled store start events s rows)
      (call : Call) :
      Tabled store start (events ++ [(call, (s.step store call).1)]) (s.step store call).2
        (s.writeRows rows call (s.step store call).1)

/-- The table that the contents hold. -/
def tableOf (contents : List Item) (s : TableSchema) (pk : Value) : Option Row :=
  match encodeValue (findPrimary s) pk with
  | .error _ => none
  | .ok enc => (SortedMap.lookup contents (rowPrefix s.name ++ enc)).map fun _ =>
    rowUnder contents s enc

/-- The maps stand for the contents. -/
structure Represents (contents : List Item) (rows : Rows) : Prop where
  table : ∀ s, Defines contents s → ∀ pk, rows s.name pk = tableOf contents s pk
  other : ∀ name, (∀ s, Defines contents s → s.name ≠ name) → ∀ pk, rows name pk = none

section Contents

variable {contents after : List Item} {s : TableSchema} {rows : Rows}

variable {pk : Value} {enc : Bytes}

theorem tableOf_eq (encoded : encodeValue (findPrimary s) pk = .ok enc) : tableOf contents s pk =
      (lookup contents (rowPrefix s.name ++ enc)).map fun _ => rowUnder contents s enc := by
  rw [tableOf, encoded]

/-- A table depends on its own rows only. -/
theorem tableOf_congr (same : ∀ enc, encodeValue (findPrimary s) pk = .ok enc →
      lookup after (rowPrefix s.name ++ enc) = lookup contents (rowPrefix s.name ++ enc)) :
    tableOf after s pk = tableOf contents s pk := by
  cases encoded : encodeValue (findPrimary s) pk with
  | error err => rw [tableOf, tableOf, encoded]
  | ok enc => rw [tableOf_eq encoded, tableOf_eq encoded, rowUnder, rowUnder, same enc encoded]

theorem Represents.of_same (represents : Represents contents rows)
    (tables : ∀ s, Defines after s ↔ Defines contents s)
    (same : ∀ rest, lookup after (0x20 :: rest) = lookup contents (0x20 :: rest)) :
    Represents after rows := by
  constructor
  · intro s defined pk
    rw [represents.table s ((tables s).mp defined), tableOf_congr fun enc _ => same _]
  · intro name undefined
    exact represents.other name fun s defined => undefined s ((tables s).mpr defined)

theorem Represents.of_reserved (represents : Represents contents rows)
    (same : ∀ key, Reserved key → lookup after key = lookup contents key) :
    Represents after rows :=
  represents.of_same (fun _ => Defines.congr fun rest => same _ (.table rest)) fun rest =>
    same _ (.row rest)

/-- A new table is empty. -/
theorem Represents.put_descriptor (represents : Represents contents rows)
    (agrees : Consistent contents)
    (valid : s.Valid) (small : (encodeDescriptor s).length ≤ 3000)
    (absent : lookup contents (descriptorKey s.name) = none) :
    Represents (put (descriptorKey s.name) (encodeDescriptor s) contents) rows := by
  have fresh : ∀ other, Defines contents other → other.name ≠ s.name := by
    intro other defined same
    have stored := defined.stored
    rw [same, absent] at stored
    cases stored
  have same (rest : Bytes) :=
    @lookup_put_descriptor contents s.name (encodeDescriptor s) rest 0x20 (by decide)
  constructor
  · intro t defined pk
    rw [tableOf_congr fun enc _ => same _]
    rcases (defines_put valid small absent).mp defined with old | rfl
    · exact represents.table t old pk
    rw [represents.other t.name fresh pk, tableOf]
    cases encodeValue (findPrimary t) pk with
    | error err => rfl
    | ok enc =>
      cases found : lookup contents (rowPrefix t.name ++ enc) with
      | none =>
        dsimp only
        rw [found]
        rfl
      | some value =>
        obtain ⟨owner, row, own, owns, -, key⟩ := agrees.rows _ _ found
        have whole : rowPrefix t.name ++ enc = rowPrefix owner.name ++ own := key
        exact absurd (rowPrefix_append_inj whole).1.symm (fresh owner owns)
  · intro name undefined
    exact represents.other name fun t defined =>
      undefined t ((defines_put valid small absent).mpr (.inl defined))

/-! ## Row methods -/

/-- A list of changes with one change of a row. -/
theorem lookup_play_row {before later : Changes} {key : Bytes}
    (noneBefore : ∀ other ∈ before, other.key ≠ key) (noneLater : ∀ other ∈ later, other.key ≠ key)
    (place : Bytes) (change : Change) :
    lookup (play contents (writes (before ++ ⟨place, change⟩ :: later))) key =
      if place = key then change.result else lookup contents key := by
  rw [lookup_play, writes, latest_map, latest_append, latest_cons,
    latest_eq_none noneBefore, latest_eq_none noneLater]
  split_ifs <;> rfl

variable {read : Bytes → Option Bytes} {row : Row} {allowExisting : Bool} {indexes : List Index}
  {entries : List Item}

theorem EntriesFor.written_not_row
    (accepted : EntriesFor read s row enc allowExisting indexes entries) (rest : Bytes) :
    ∀ change ∈ written entries, change.key ≠ 0x20 :: rest := by
  intro change mem
  obtain ⟨entry, listed, rfl⟩ := mem_map.mp mem
  obtain ⟨index, -, isEntry, -⟩ := accepted.of_entry listed
  obtain ⟨tail, kind⟩ := isEntry.kind
  dsimp only
  rw [kind]
  exact fun same => absurd (List.cons.inj same).1 (by decide)

theorem EntriesFor.removed_not_row
    (accepted : EntriesFor read s row enc allowExisting indexes entries) (rest : Bytes) :
    ∀ change ∈ removed entries, change.key ≠ 0x20 :: rest := by
  intro change mem
  obtain ⟨entry, listed, rfl⟩ := mem_map.mp mem
  exact accepted.written_not_row rest ⟨entry.key, ⟨entry.value, false⟩⟩
    (mem_map.mpr ⟨entry, listed, rfl⟩)

/-- A row method replaces the row under its key. -/
structure WritesRow (contents after : List Item) (s : TableSchema) (method : RowMethod)
    (enc : Bytes) : Prop where
  key : encodeValue (findPrimary s) (method.key s) = .ok enc
  result : tableOf after s (method.key s) = method.result s
  other : ∀ rest, 0x20 :: rest ≠ rowPrefix s.name ++ enc →
    SortedMap.lookup after (0x20 :: rest) = SortedMap.lookup contents (0x20 :: rest)

/-- What a row method requires: the key is free, or it is taken. -/
def RowMethod.Requires (method : RowMethod) (flag : Bool) (row : Option Row) : Prop :=
  match method with
  | .insert _ _ => row = none
  | .update _ _ _ => row ≠ none
  | .delete _ _ => flag = row.isSome

/-- The row that was written is in the table. -/
theorem tableOf_stored {value : Bytes} (encodes : EncodesRow s row enc value)
    (found : lookup after (rowPrefix s.name ++ enc) = some value) :
    tableOf after s (row.get (findPrimary s).name) = some (row.complete s) := by
  rw [tableOf_eq (encodeValue_of_encodes encodes.primary), found,
    Stores.rowUnder_eq ⟨value, encodes, found⟩]
  rfl

variable {method : RowMethod}

theorem Yields.writesRow {flag : Bool} {changes : Changes}
    (yields : Yields (lookup contents) s indexes method flag changes) :
    method.Requires flag (tableOf contents s (method.key s)) ∧
      ∃ enc, WritesRow contents (play contents (writes changes)) s method enc := by
  cases yields with
  | @insert row order enc value entries encodes absent accepted =>
    have lookups (rest : Bytes) :=
      @lookup_play_row contents [] (written entries) (0x20 :: rest) nofun
        (accepted.written_not_row rest) (rowPrefix s.name ++ enc) ⟨value, false⟩
    have key := encodeValue_of_encodes encodes.primary
    refine ⟨?_, enc, key, tableOf_stored encodes ?_, fun rest ne => ?_⟩
    · rw [RowMethod.Requires, RowMethod.key, tableOf_eq key, absent]
      rfl
    · exact (lookups _).trans (if_pos rfl)
    · exact (lookups rest).trans (if_neg ne.symm)
  | @update row oldRow oldOrder newOrder enc value oldValue oldEntries newEntries encodes present
      decoded old new =>
    have lookups (rest : Bytes) :=
      @lookup_play_row contents (removed oldEntries) (written newEntries) (0x20 :: rest)
        (old.removed_not_row rest) (new.written_not_row rest) (rowPrefix s.name ++ enc)
          ⟨value, false⟩
    have key := encodeValue_of_encodes encodes.primary
    refine ⟨?_, enc, key, tableOf_stored encodes ?_, fun rest ne => ?_⟩
    · rw [RowMethod.Requires, RowMethod.key, tableOf_eq key, present]
      exact Option.some_ne_none _
    · exact (lookups _).trans (if_pos rfl)
    · exact (lookups rest).trans (if_neg ne.symm)
  | @deleteNothing primaryKey order enc encoded short absent =>
    have table : tableOf contents s primaryKey = none := by
      rw [tableOf_eq encoded, absent]
      rfl
    refine ⟨?_, enc, encoded, table, fun rest _ => rfl⟩
    rw [RowMethod.Requires, RowMethod.key, table]
    rfl
  | @delete primaryKey order enc oldValue oldRow entries encoded short present decoded old =>
    have lookups (rest : Bytes) :=
      @lookup_play_row contents [] (removed entries) (0x20 :: rest) nofun (old.removed_not_row rest)
        (rowPrefix s.name ++ enc) ⟨[], true⟩
    refine ⟨?_, enc, encoded, ?_, fun rest ne => ?_⟩
    · rw [RowMethod.Requires, RowMethod.key, tableOf_eq encoded, present]
      rfl
    · rw [RowMethod.key, tableOf_eq encoded]
      exact congrArg (Option.map _) ((lookups _).trans (if_pos rfl))
    · exact (lookups rest).trans (if_neg ne.symm)

/-- The maps after a row method. -/
theorem Represents.writesRow (represents : Represents contents rows)
    (writesRow : WritesRow contents after s method enc) (defined : Defines contents s)
    (tables : ∀ s, Defines after s ↔ Defines contents s) : Represents after
      (rows.apply s method) := by
  constructor
  · intro t isTable pk
    have old := (tables t).mp isTable
    rw [Rows.apply]
    by_cases here : t.name = s.name ∧ pk = method.key s
    · obtain ⟨sameName, rfl⟩ := here
      obtain rfl := old.unique defined sameName
      rw [if_pos ⟨rfl, rfl⟩]
      exact writesRow.result.symm
    · rw [if_neg here, represents.table t old, tableOf_congr]
      intro own encoded
      apply Eq.symm
      apply writesRow.other
      intro whole
      obtain ⟨sameName, rfl⟩ :=
        rowPrefix_append_inj (show rowPrefix t.name ++ own = rowPrefix s.name ++ enc from whole)
      obtain rfl := old.unique defined sameName
      exact here ⟨rfl, encodeValue_inj encoded writesRow.key⟩
  · intro name undefined pk
    rw [Rows.apply, if_neg]
    · exact represents.other name (fun t isTable => undefined t ((tables t).mpr isTable)) pk
    · rintro ⟨rfl, -⟩
      exact undefined s ((tables s).mpr defined) rfl

end Contents

/-! ## Runs -/

/-- The call begins no write transaction and leaves the keys of the relational layer alone. -/
def Call.Tabular (call : Call) : Prop := call.Respects ∧ call ≠ .begin false

section Runs

variable {σ : Type} {store : Store σ} {view : σ → List Item} {s : System σ} {rows : Rows}
  {call : Call} {journals : Nat → Changes}

variable {events : Events} {d : Database σ} {t : Table} {backend : Backend σ}

theorem Tabled.run {start : System σ} (tabled : Tabled store start events s rows) :
    Run store start events s := by
  induction tabled with
  | start => exact .start
  | call _ call ih => exact ih.call call

/-- Without a writer only the direct methods change the contents. -/
theorem Effect.contents_of_idle (exact : store.Models view) {next : System σ} {outcome : Outcome}
    (effect : Effect store s call outcome next) (indirect : ¬ call.Direct)
    (idle : ∀ i, ¬ s.Writing i) :
    next.db.contents view = s.db.contents view := by
  cases effect with
  | refused | missing => rfl
  | keep _ db _ | record _ _ _ _ db _ | refusedCommit _ _ _ db _ | rollbackClosed _ _ db _ =>
    rw [db]
  | write direct => exact absurd direct indirect
  | close db _ => rw [db, close_contents exact.close]
  | begin _ _ db _ | rollback _ _ db _ =>
    rw [db]
    rfl
  | @commit i tx _ here writable | @failedCommit i tx _ _ here writable =>
    obtain ⟨isOpen, -, writes⟩ := Tx.writable_eq_ok.mp writable
    exact absurd ⟨tx, here, writes, isOpen⟩ (idle i)

theorem writeRows_of_indirect (rows : Rows) (outcome : Outcome) (indirect : ¬ call.Direct) :
    s.writeRows rows call outcome = rows := by
  cases call with
  | tableRow => exact absurd trivial indirect
  | _ => rfl

section

variable (exact : store.Models view)
include exact

section

variable (represents : Represents (d.contents view) rows)
include represents

theorem set_represents {key : Bytes} (outside : ¬ Reserved key) (value : Bytes) :
    Represents ((d.set store key value).2.contents view) rows := by
  rw [Database.set]
  split_ifs
  · exact represents
  · exact represents
  · exact represents
  · rcases setLocked_settles exact d key value with ⟨-, published⟩ | ⟨-, same⟩
    · rw [published]
      exact represents.of_reserved fun other reserved =>
        lookup_put_of_ne _ _ fun same => outside (same ▸ reserved)
    · rw [same]
      exact represents

theorem delete_represents {key : Bytes} (outside : ¬ Reserved key) :
    Represents ((d.delete store key).2.contents view) rows := by
  rw [Database.delete]
  split_ifs
  · exact represents
  · exact represents
  · exact represents
  · rcases deleteLocked_settles exact d key with ⟨-, published⟩ | ⟨-, same⟩
    · rw [published]
      exact represents.of_reserved fun other reserved =>
        lookup_erase_of_ne _ fun same => outside (same ▸ reserved)
    · rw [same]
      exact represents

theorem createTable_represents (agrees : Consistent (d.contents view))
    (schema : TableSchema) : Represents ((createTable store d schema).2.contents view) rows := by
  rcases createTable_spec exact d schema with ⟨-, same⟩ | ⟨valid, absent, small, -, published⟩
  · rw [same]
    exact represents
  · rw [published]
    exact represents.put_descriptor agrees (validateSchema_eq_ok.mp valid) small absent

theorem createIndex_represents (agrees : Consistent (d.contents view))
    (defined : Defines (d.contents view) t.schema) (index : Index) :
    Represents ((t.createIndex store d index).2.1.contents view) rows := by
  rcases createIndex_spec exact d t index with ⟨-, same⟩ |
    ⟨indexes, mutations, -, batch, -, published⟩
  · rw [same]
    exact represents
  · obtain ⟨valid, fresh, filled, isFilled, rfl⟩ := indexBatch_eq_ok exact batch defined
    have adds :=
      isFilled.addsIndex agrees defined ((validateIndex_eq_ok defined.valid).mp valid) fresh
    rw [published]
    exact represents.of_same (fun _ => adds.defines) (adds.lookup_of_kind (by decide) (by decide))

end

/-- A row method of a handle replaces one row, or it fails and changes nothing. -/
theorem mutate_writesRow (agrees : Consistent (d.contents view))
    (method : RowMethod) : ((∃ err, (t.mutate store d (method.change store d)).1 = .error err) ∧
        (t.mutate store d (method.change store d)).2.1.contents view = d.contents view) ∨
      ∃ flag enc, (t.mutate store d (method.change store d)).1 = .ok flag ∧
        method.Requires flag (tableOf (d.contents view) t.schema (method.key t.schema)) ∧
        WritesRow (d.contents view) ((t.mutate store d (method.change store d)).2.1.contents view)
          t.schema method enc ∧
        ∀ s, Defines ((t.mutate store d (method.change store d)).2.1.contents view) s ↔
          Defines (d.contents view) s := by
  rcases mutate_spec exact agrees.sorted t (method.change store d) with
    ⟨failed, same⟩ | ⟨indexes, flag, changes, -, -, loaded, changed, done, -, published⟩
  · exact .inl ⟨failed, same⟩
  have reading : Reading store d .empty (lookup (d.contents view)) :=
    fun key nonempty => getLocked_exact exact d nonempty
  have yields := (change_eq_ok reading).mp changed
  obtain ⟨requires, enc, writesRow⟩ := yields.writesRow
  refine .inr ⟨flag, enc, done, requires, ?_, fun s => ?_⟩
  · rw [published]
    exact writesRow
  · rw [published]
    exact Uncatalogued.defines yields.uncatalogued s

end

theorem Represents.step (represents : Represents (s.db.contents view) rows)
    (coherent : Coherent view s journals)
    (exact : store.Models view) (idle : ∀ i, ¬ s.Writing i) (respects : call.Respects) :
    Represents ((s.step store call).2.db.contents view)
      (s.writeRows rows call (s.step store call).1) := by
  have agrees := coherent.consistent
  by_cases direct : call.Direct
  · cases call with
    | set key value => exact set_represents exact represents respects value
    | delete key => exact delete_represents exact represents respects
    | createTable schema =>
      rw [createTable_step_db]
      exact createTable_represents exact represents agrees schema
    | createIndex i index =>
      rw [System.step, System.withTable]
      cases found : s.tables[i]? with
      | none => exact represents
      | some t =>
        have defined := coherent.handles t (mem_of_getElem? found)
        exact createIndex_represents exact represents agrees defined index
    | tableRow i method =>
      rw [System.step, System.withTable, System.writeRows.eq_def]
      cases found : s.tables[i]? with
      | none => exact represents
      | some t =>
        dsimp only
        have defined := coherent.handles t (mem_of_getElem? found)
        rcases mutate_writesRow exact agrees (t := t) method with
          ⟨⟨err, failed⟩, same⟩ | ⟨flag, enc, done, -, writesRow, tables⟩
        · rw [failed, same]
          exact represents
        · rw [done]
          dsimp only
          rw [found]
          exact represents.writesRow writesRow defined tables
    | _ => cases direct
  · rw [(step_effect s call).contents_of_idle exact direct idle, writeRows_of_indirect _ _ direct]
    exact represents

/-- A run in which every call is tabular has no writer. -/
theorem Run.idle
    (run : Run store (System.opened backend) events s) (tabular : ∀ event ∈ events, event.1.Tabular)
    (i : Nat) :
    ¬ s.Writing i := fun writing =>
  (tabular _ ((run.admission.writer i).mp writing).1).2 rfl

theorem Tabled.represents (exact : store.Models view)
    (fresh : (System.opened backend).db.contents view = [])
    (tabled : Tabled store (System.opened backend) events s rows)
    (tabular : ∀ event ∈ events, event.1.Tabular) :
    Represents (s.db.contents view) rows := by
  induction tabled with
  | start =>
    rw [fresh]
    refine ⟨fun s defined => ?_, fun _ _ _ => rfl⟩
    cases defined.stored
  | @call events s rows before call ih =>
    have earlier : ∀ event ∈ events, event.1.Tabular := fun event mem =>
      tabular event (mem_append_left _ mem)
    obtain ⟨respects, -⟩ := tabular _ (mem_append_right _ (mem_singleton_self _))
    obtain ⟨journals, coherent⟩ := before.run.coherent exact fresh fun event mem =>
      (earlier event mem).1
    exact (ih earlier).step coherent exact (before.run.idle earlier) respects

end Runs

/-! ## The keys of a table -/

/-- The primary key of the row under an encoded key. -/
def keyUnder (contents : List Item) (s : TableSchema) (enc : Bytes) : Value :=
  (rowUnder contents s enc).get (findPrimary s).name

section Keys

variable {contents : List Item} {s : TableSchema} {enc : Bytes}

theorem Stores.keyUnder_eq {row : Row} (stores : Stores contents s row enc) :
    keyUnder contents s enc = row.get (findPrimary s).name := by
  obtain ⟨value, encodes, found⟩ := stores
  rw [keyUnder, Stores.rowUnder_eq ⟨value, encodes, found⟩, Row.get,
    Row.lookup_complete encodes.valid,
      encodes.valid.findColumn_name encodes.valid.findPrimary_mem.1]
  rfl

section

variable (agrees : Consistent contents) (defined : Defines contents s)
include agrees defined

theorem Consistent.encodes_keyUnder
    (mem : enc ∈ primaryKeys contents s.name) : Encodes (findPrimary s)
      (keyUnder contents s enc) enc := by
  obtain ⟨row, value, encodes, found⟩ := agrees.stores_of_mem defined mem
  rw [Stores.keyUnder_eq ⟨value, encodes, found⟩]
  exact encodes.primary

theorem Consistent.tableOf_keyUnder (mem : enc ∈ primaryKeys contents s.name) :
    tableOf contents s (keyUnder contents s enc) = some (rowUnder contents s enc) := by
  have encodes := agrees.encodes_keyUnder defined mem
  obtain ⟨value, found⟩ := (mem_primaryKeys agrees.sorted).mp mem
  rw [tableOf_eq (encodeValue_of_encodes encodes), found]
  rfl

theorem Consistent.mem_keys {pk : Value} :
    pk ∈ (primaryKeys contents s.name).map (keyUnder contents s) ↔ tableOf contents s pk ≠
      none := by
  rw [mem_map]
  constructor
  · rintro ⟨enc, mem, rfl⟩
    rw [agrees.tableOf_keyUnder defined mem]
    exact Option.some_ne_none _
  · intro present
    cases encoded : encodeValue (findPrimary s) pk with
    | error err =>
      rw [tableOf, encoded] at present
      exact absurd rfl present
    | ok enc =>
      rw [tableOf_eq encoded] at present
      obtain ⟨value, found⟩ := Option.ne_none_iff_exists'.mp fun none =>
        present (congrArg (Option.map fun _ => rowUnder contents s enc) none)
      have mem := (mem_primaryKeys agrees.sorted).mpr ⟨value, found⟩
      refine ⟨enc, mem, ?_⟩
      exact (agrees.encodes_keyUnder defined mem).inj (encodes_of_encodeValue encoded)

theorem Consistent.sorted_keys :
    ((primaryKeys contents s.name).map (keyUnder contents s)).Pairwise fun left right =>
      left.below right = true := by
  obtain ⟨-, key⟩ := defined.valid.findPrimary_mem
  rw [pairwise_map]
  refine (sorted_primaryKeys agrees.sorted s.name).pairwise.imp_of_mem fun
    {left right} isLeft isRight less => ?_
  exact ((agrees.encodes_keyUnder defined isLeft).lt_iff key
    (agrees.encodes_keyUnder defined isRight) defined.valid.primary_type).mp less

/-- The rows in the order of their keys. -/
theorem Consistent.map_rowUnder
    {encs : List Bytes} (members : ∀ enc ∈ encs, enc ∈ primaryKeys contents s.name) :
    encs.map (rowUnder contents s) = (encs.map (keyUnder contents s)).filterMap
      (tableOf contents s) := by
  rw [filterMap_map, ← filterMap_eq_map]
  apply filterMap_congr
  intro enc mem
  exact (agrees.tableOf_keyUnder defined (members enc mem)).symm

theorem Consistent.filter_keys
    {start stop : Value} {low high : Bytes} (isLow : encodeValue (findPrimary s) start = .ok low)
    (isHigh : encodeValue (findPrimary s) stop = .ok high) :
    ((primaryKeys contents s.name).filter fun enc => decide (low ≤ enc ∧ enc ≤ high)).map
      (keyUnder contents s) = ((primaryKeys contents s.name).map (keyUnder contents s)).filter
        fun pk => start.atMost pk && pk.atMost stop := by
  obtain ⟨-, key⟩ := defined.valid.findPrimary_mem
  have type := defined.valid.primary_type
  rw [filter_map]
  congr 1
  apply filter_congr
  intro enc mem
  have encodes := agrees.encodes_keyUnder defined mem
  rw [Function.comp_apply, Bool.eq_iff_iff, decide_eq_true_eq, Bool.and_eq_true,
    (encodes_of_encodeValue isLow).le_iff key encodes type, encodes.le_iff key
    (encodes_of_encodeValue isHigh) type]

end

end Keys

/-! ## The main result -/

section Main

variable {σ : Type} {store : Store σ} {view : σ → List Item} {s : System σ} {rows : Rows}

/-- Every handle reads its table as an ordered map, and the row methods need a free or a
taken key. -/
theorem table_is_ordered_map (exact : store.Models view) {backend : Backend σ}
    (fresh : (System.opened backend).db.contents view = []) {events : Events}
    (tabled : Tabled store (System.opened backend) events s rows)
    (tabular : ∀ event ∈ events, event.1.Tabular)
    (isOpen : s.db.closed = false) {i : Nat} {t : Table} (here : s.tables[i]? = some t) :
    ∃ keys : List Value, (keys.Pairwise fun left right => left.below right = true) ∧
      (∀ pk, pk ∈ keys ↔ rows t.schema.name pk ≠ none) ∧
      (s.step store (.tableScan i)).1 = .rows (.ok (keys.filterMap (rows t.schema.name))) ∧
      (∀ start stop startKey stopKey, t.rowKey start = .ok startKey → t.rowKey stop = .ok stopKey →
        (s.step store (.tableRange i start stop)).1 =
          .rows (.ok ((keys.filter fun pk => start.atMost pk && pk.atMost stop).filterMap
            (rows t.schema.name)))) ∧
      (∀ pk key, t.rowKey pk = .ok key →
        (s.step store (.tableGet i pk)).1 = .row (.ok (rows t.schema.name pk))) ∧
      (∀ method flag, (s.step store (.tableRow i method)).1 = .flag (.ok flag) →
        method.Requires flag (rows t.schema.name (method.key t.schema))) ∧
      (∀ method err, (s.step store (.tableRow i method)).1 = .flag (.error err) →
        (s.step store (.tableRow i method)).2.db.contents view = s.db.contents view) := by
  obtain ⟨journals, coherent⟩ := tabled.run.coherent exact fresh fun event mem =>
    (tabular event mem).1
  have agrees := coherent.consistent
  have defined := coherent.handles t (List.mem_of_getElem? here)
  have table : rows t.schema.name = tableOf (s.db.contents view) t.schema :=
    funext ((tabled.represents exact fresh tabular).table _ defined)
  refine ⟨(primaryKeys (s.db.contents view) t.schema.name).map
    (keyUnder (s.db.contents view) t.schema), agrees.sorted_keys defined, fun pk =>
      ?_, ?_, fun start stop startKey stopKey isStart isStop => ?_,
    fun pk key isKey => ?_, fun method flag done => ?_, fun method err failed => ?_⟩
  · rw [table]
    exact agrees.mem_keys defined
  · rw [tableScan_outcome here, scan_eq exact agrees defined isOpen, table,
      agrees.map_rowUnder defined fun enc mem => mem]
  · obtain ⟨low, isLow, -, rfl⟩ := rowKey_eq_ok.mp isStart
    obtain ⟨high, isHigh, -, rfl⟩ := rowKey_eq_ok.mp isStop
    have ranged := range_eq exact agrees defined isOpen isStart isStop
    rw [System.step, withTable_outcome, here, table, ← agrees.filter_keys defined isLow isHigh,
      ← agrees.map_rowUnder defined fun enc mem => List.mem_of_mem_filter mem]
    exact congrArg Outcome.rows ranged
  · obtain ⟨enc, encoded, -, rfl⟩ := rowKey_eq_ok.mp isKey
    have got := get_eq exact agrees defined isOpen isKey
    rw [System.step, withTable_outcome, here, table, tableOf_eq encoded]
    exact congrArg Outcome.row got
  · rw [System.step, withTable_outcome, here] at done
    have result : (t.mutate store s.db (method.change store s.db)).1 = .ok flag :=
      Outcome.flag.inj done
    rcases mutate_writesRow exact agrees (t := t) method with ⟨⟨err, failed⟩, -⟩ |
      ⟨own, enc, ok, requires, -, -⟩
    · cases failed.symm.trans result
    · obtain rfl := Except.ok.inj (ok.symm.trans result)
      rw [table]
      exact requires
  · rw [System.step, withTable_outcome, here] at failed
    have result : (t.mutate store s.db (method.change store s.db)).1 = .error err :=
      Outcome.flag.inj failed
    rw [System.step, System.withTable, here]
    rcases mutate_writesRow exact agrees (t := t) method with ⟨-, same⟩ | ⟨own, enc, ok, -, -, -⟩
    · exact same
    · cases ok.symm.trans result

theorem table_is_ordered_map_inserted :
    ∃ (s : System SortedItems) (events : Events) (rows : Rows) (keys : List Value),
      Tabled mapStore (System.opened (.memory [])) events s rows ∧
        rows [1] (.string [7]) = some [⟨[1], .string [7]⟩, ⟨[2], .null⟩] ∧
        (∀ pk, pk ∈ keys ↔ rows [1] pk ≠ none) ∧
        (s.step mapStore (.tableScan 0)).1 = .rows (.ok (keys.filterMap (rows [1]))) := by
  have tabled : Tabled mapStore (System.opened (.memory [])) _ _ _ :=
    (Tabled.start.call (.createTable flagSchema)).call
    (.tableRow 0 (.insert [⟨[1], .string [7]⟩] .sorted))
  obtain ⟨keys, -, members, scanned, -⟩ :=
    @table_is_ordered_map _ _ Subtype.val _ _ mapStore_exact.toModels _ rfl _ tabled
      (by simp [Call.Tabular, Call.Respects]) rfl 0 ⟨flagSchema, []⟩ rfl
  exact ⟨_, _, _, keys, tabled, rfl, members, scanned⟩

end Main

end Db

end GoDatabase
