import GoDatabase.Relational.Creating
import GoDatabase.Relational.Visibility

/-!
# Indexes mirror rows

In every run of a new database that leaves the keys of the relational layer to it, the
contents stay consistent, every handle is the handle of a table that is there, and what an
open transaction would publish is consistent too.  The last of these carries the induction
through a commit.
-/

namespace GoDatabase.Db

open List

open Library Journal SortedMap

/-- The call writes no key of the relational layer by itself. -/
def Call.Respects : Call → Prop
  | .set key _ | .delete key | .txSet _ key _ | .txDelete _ key => ¬ Reserved key
  | _ => True

/-! ## Changes that leave the catalog alone -/

/-- The contents stay consistent and keep their tables. -/
structure Keeps (before after : List Item) : Prop where
  consistent : Consistent after
  tables : ∀ s, Defines before s → Defines after s

/-- No change concerns a table or the definition of an index. -/
def Uncatalogued (changes : Changes) : Prop :=
  ∀ change ∈ changes, ∀ rest, change.key ≠ 0x10 :: rest ∧ change.key ≠ 0x11 :: rest

section Changes

variable {contents after : List Item} {changes : Changes}

theorem Consistent.keeps (agrees : Consistent contents) : Keeps contents contents :=
  ⟨agrees, fun _ defined => defined⟩

theorem Consistent.keeps_of_same (agrees : Consistent contents)
    (sorted : Sorted after)
    (same : ∀ key, Reserved key → lookup after key = lookup contents key) :
    Keeps contents after :=
  ⟨agrees.of_same sorted same, fun _ => (Defines.congr fun rest => same _ (.table rest)).mpr⟩

variable {key : Bytes}

theorem lookup_play_of_absent (absent : ∀ change ∈ changes, change.key ≠ key) :
    lookup (play contents (writes changes)) key = lookup contents key := by
  rw [lookup_play, writes, latest_map, latest_eq_none absent]
  rfl

theorem Uncatalogued.defines (free : Uncatalogued changes) (s : TableSchema) :
    Defines (play contents (writes changes)) s ↔ Defines contents s :=
  Defines.congr fun rest => lookup_play_of_absent fun change mem => (free change mem rest).1

theorem Uncatalogued.indexesOf (free : Uncatalogued changes) (sorted : Sorted contents)
    (s : TableSchema) :
    indexesOf (play contents (writes changes)) s = indexesOf contents s :=
  indexesOf_congr (sorted_play sorted _) sorted
    (fun rest => lookup_play_of_absent fun change mem => (free change mem rest).2) s

/-- What an open transaction would publish. -/
structure Pending (contents : List Item) (changes : Changes) : Prop where
  consistent : Consistent (Journal.play contents (writes changes))
  free : Uncatalogued changes

theorem Pending.keeps (pending : Pending contents changes) :
    Keeps contents (play contents (writes changes)) :=
  ⟨pending.consistent, fun s => (pending.free.defines s).mpr⟩

theorem Consistent.pending_nil (agrees : Consistent contents) : Pending contents
    [] := ⟨agrees, nofun⟩

theorem Pending.append {more : Changes} (pending : Pending contents changes)
    (next : Pending (play contents (writes changes)) more) : Pending contents
      (changes ++ more) := by
  constructor
  · rw [writes, map_append, play_append]
    exact next.consistent
  · intro change mem
    rcases mem_append.mp mem with earlier | later
    · exact pending.free change earlier
    · exact next.free change later

/-- A change of a key that the relational layer does not use. -/
theorem Consistent.pending_change (agrees : Consistent contents) (outside : ¬ Reserved key)
    (change : Change) : Pending contents [⟨key, change⟩] := by
  constructor
  · refine agrees.of_same (sorted_play agrees.sorted _) fun other reserved => ?_
    refine lookup_play_of_absent fun only mem same => outside ?_
    obtain rfl := mem_singleton.mp mem
    obtain rfl : key = other := same
    exact reserved
  · intro only mem rest
    obtain rfl := mem_singleton.mp mem
    refine ⟨?_, ?_⟩
    · rintro rfl
      exact outside (.table rest)
    · rintro rfl
      exact outside (.index rest)

theorem Consistent.pending_onOk (agrees : Consistent contents) (outside : ¬ Reserved key)
    (change : Change) {α : Type} (result : Except GoError α) : Pending contents
      (onOk result [⟨key, change⟩]) := by
  cases result with
  | error err => exact agrees.pending_nil
  | ok value => exact agrees.pending_change outside change

end Changes

/-! ## Rows and entries -/

/-- The row under an encoded primary key as it is decoded, without its primary column. -/
def RowAt (contents : List Item) (s : TableSchema) (pk : Bytes) (row : Row) : Prop :=
  ∃ value, lookup contents (rowPrefix s.name ++ pk) = some value ∧
    decodeRow s value = .ok row

section Entries

variable {contents : List Item} {schema : TableSchema} {index : Index}

variable {pk : Bytes} {row : Row}

section

variable (agrees : Consistent contents) (defined : Defines contents schema)
include agrees defined

theorem Consistent.stored_row
    {value : Bytes} (found : lookup contents (rowPrefix schema.name ++ pk) = some value) :
    ∃ row, EncodesRow schema row pk value := by
  obtain ⟨owner, row, enc, owns, encodes, key⟩ := agrees.rows _ _ found
  have same : rowPrefix schema.name ++ pk = rowPrefix owner.name ++ enc := key
  obtain ⟨sameName, rfl⟩ := rowPrefix_append_inj same
  obtain rfl := defined.unique owns sameName
  exact ⟨row, encodes⟩

/-- The entry of a row is the entry of the row that is decoded. -/
theorem RowAt.entryFor (valid : index.Valid schema) (isRow : RowAt contents schema pk row) :
    ∃ stored, Stores contents schema stored pk ∧
      ∀ entry, EntryFor schema stored pk index entry ↔ EntryFor schema row pk index entry := by
  obtain ⟨value, found, decoded⟩ := isRow
  obtain ⟨stored, encodes⟩ := agrees.stored_row defined found
  refine ⟨stored, ⟨value, encodes, found⟩, fun entry => ?_⟩
  exact (EntryFor.congr (encodes.get_decoded decoded valid)).symm

/-- The entries under the prefix of an index are those of the rows. -/
theorem Consistent.lookup_entry (isIndex : DefinesIndex contents schema index) {key : Bytes}
    (starts : indexEntryPrefix schema.name index.name <+: key) :
    lookup contents key = some pk ↔
      ∃ row, RowAt contents schema pk row ∧ EntryFor schema row pk index ⟨key, pk⟩ := by
  constructor
  · obtain ⟨tail, rfl⟩ := starts
    intro found
    obtain ⟨owner, other, stored, owns, isOther, isStored, isEntry⟩ := agrees.sound _ _ found
    obtain ⟨front, begins⟩ := isEntry.starts
    have same : indexEntryPrefix owner.name other.name ++ front =
        indexEntryPrefix schema.name index.name ++ tail := begins
    obtain ⟨sameTable, sameName, -⟩ := indexEntryPrefix_append_inj same
    obtain rfl := owns.unique defined sameTable
    obtain rfl := isOther.unique owns isIndex sameName
    obtain ⟨value, encodes, present⟩ := isStored
    refine ⟨_, ⟨value, present, encodes.decodeRow_eq⟩, ?_⟩
    exact (EntryFor.congr (encodes.get_decoded encodes.decodeRow_eq isOther.valid)).mpr isEntry
  · rintro ⟨row, isRow, isEntry⟩
    obtain ⟨stored, isStored, entries⟩ := isRow.entryFor agrees defined isIndex.valid
    obtain ⟨entry, isOwn, found⟩ := agrees.complete _ _ _ _ defined isIndex isStored
    rw [isOwn.unique ((entries _).mpr isEntry)] at found
    exact found

/-- A row has an entry. -/
theorem Consistent.exists_entry
    (isIndex : DefinesIndex contents schema index) (isRow : RowAt contents schema pk row) :
    ∃ entry, EntryFor schema row pk index entry ∧ lookup contents entry.key = some pk := by
  obtain ⟨stored, isStored, entries⟩ := isRow.entryFor agrees defined isIndex.valid
  obtain ⟨entry, isOwn, found⟩ := agrees.complete _ _ _ _ defined isIndex isStored
  exact ⟨entry, (entries _).mp isOwn, found⟩

end

theorem Consistent.defines_of_descriptor (agrees : Consistent contents)
    {name descriptor : Bytes}
    (found : lookup contents (descriptorKey name) = some descriptor)
    (decoded : decodeDescriptor descriptor = .ok schema) : Defines contents schema ∧ schema.name =
      name := by
  obtain ⟨owner, owns, key⟩ := agrees.tables _ _ found
  have stored := owns.stored
  rw [← key] at stored
  obtain rfl := Option.some.inj (found.symm.trans stored)
  rw [decodeDescriptor_encodeDescriptor owns.valid owns.small] at decoded
  obtain rfl := Except.ok.inj decoded
  exact ⟨owns, (escape_inj (cons.inj key).2).symm⟩

theorem Consistent.definesIndex_of_metadata (agrees : Consistent contents)
    (defined : Defines contents schema) {indexName metadata : Bytes}
    (found : lookup contents (indexMetadataKey schema.name indexName) = some metadata)
    (decoded : decodeIndexMetadata indexName metadata = .ok index) :
    DefinesIndex contents schema index ∧ index.name = indexName := by
  obtain ⟨owner, other, owns, isOther, key⟩ := agrees.indexes _ _ found
  have same : indexMetadataKey schema.name indexName = indexMetadataKey owner.name other.name := key
  obtain ⟨sameTable, rfl⟩ := indexMetadataKey_inj same
  obtain rfl := owns.unique defined sameTable.symm
  have stored := isOther.stored
  obtain rfl := Option.some.inj (found.symm.trans stored)
  rw [isOther.valid.decode_encode owns.valid] at decoded
  obtain rfl := Except.ok.inj decoded
  exact ⟨isOther, rfl⟩

end Entries

section System

variable {σ : Type} {store : Store σ} {view : σ → List Item}

/-! ## Row methods -/

variable {method : RowMethod} {flag : Bool} {changes : Changes} {d : Database σ}
  {tx : Tx} {t : Table}

theorem Yields.uncatalogued {read : Bytes → Option Bytes} {schema : TableSchema}
    {indexes : List Index}
    (yields : Yields read schema indexes method flag changes) : Uncatalogued changes := by
  intro change mem rest
  obtain ⟨tail, isRow | isEntry⟩ := yields.kind change mem
  · rw [isRow]
    exact ⟨fun same => absurd (cons.inj same).1 (by decide), fun same => absurd (cons.inj same).1
      (by decide)⟩
  · rw [isEntry]
    exact ⟨fun same => absurd (cons.inj same).1 (by decide), fun same => absurd (cons.inj same).1
      (by decide)⟩

/-- The changes of a row method over the contents that it reads. -/
theorem change_pending {contents : List Item}
    (reading : Reading store d tx (lookup contents)) (agrees : Consistent contents)
    (defined : Defines contents t.schema) {indexes : List (Binding Bytes Index)}
    (loaded : indexesOf contents t.schema = .ok indexes)
    (changed : method.change store d { t with indexes := indexes } tx = .ok (flag, changes)) :
    Pending contents changes := by
  have yields := (change_eq_ok reading).mp changed
  exact ⟨yields.consistent (agrees.mem_indexesOf defined loaded) agrees defined,
    yields.uncatalogued⟩

theorem mutate_keeps (exact : store.Models view) (agrees : Consistent (d.contents view))
    (defined : Defines (d.contents view) t.schema) (method : RowMethod) :
    Keeps (d.contents view) ((t.mutate store d (method.change store d)).2.1.contents view) := by
  rcases mutate_spec exact agrees.sorted t (method.change store d) with
    ⟨-, same⟩ | ⟨indexes, flag, changes, -, -, loaded, changed, -, -, published⟩
  · rw [same]
    exact agrees.keeps
  · have reading : Reading store d .empty (lookup (d.contents view)) :=
      fun key nonempty => getLocked_exact exact d nonempty
    rw [defined.loadIndexesLocked_eq exact] at loaded
    rw [published]
    exact (change_pending reading agrees defined loaded changed).keeps

/-- The changes that a transaction records for a row method. -/
theorem Tx.Holds.tableChanges_pending {journal : Changes}
    (holds : tx.Holds journal)
    (exact : store.Models view) (sorted : Sorted (d.contents view))
    (pending : Pending (d.contents view) journal) {table : Option Table}
    (defined : ∀ t ∈ table, Defines (d.contents view) t.schema) (method : RowMethod) :
    Pending (play (d.contents view) (writes journal))
      (tx.tableChanges store d table (method.change store d)) := by
  have reading : Reading store d tx (lookup (play (d.contents view) (writes journal))) := by
    intro key nonempty
    rw [holds.valueLocked_eq exact d nonempty, overlaid_eq]
  have none := pending.consistent.pending_nil
  rw [Tx.tableChanges.eq_def]
  cases tx.writable d with
  | error err => exact none
  | ok done =>
    cases table with
    | none => exact none
    | some t =>
      have isTable := (pending.free.defines t.schema).mpr (defined t rfl)
      dsimp only
      rw [Table.refreshIndexesLocked, (defined t rfl).loadIndexesLocked_eq exact]
      cases loaded : indexesOf (d.contents view) t.schema with
      | error err => exact none
      | ok indexes =>
        rw [← pending.free.indexesOf sorted] at loaded
        dsimp only
        cases changed : method.change store d { t with indexes := indexes } tx with
        | error err => exact none
        | ok result => exact change_pending reading pending.consistent isTable loaded changed

/-! ## Methods without a transaction -/

variable {key : Bytes}

section

variable (exact : store.Models view) (agrees : Consistent (d.contents view))
include exact agrees

theorem set_keeps (outside : ¬ Reserved key) (value : Bytes) :
    Keeps (d.contents view) ((d.set store key value).2.contents view) := by
  rw [Database.set]
  split_ifs
  · exact agrees.keeps
  · exact agrees.keeps
  · exact agrees.keeps
  · rcases setLocked_settles exact d key value with ⟨-, published⟩ | ⟨-, same⟩
    · rw [published]
      refine agrees.keeps_of_same (sorted_put agrees.sorted _ _) fun other reserved => ?_
      exact lookup_put_of_ne _ _ fun same => outside (same ▸ reserved)
    · rw [same]
      exact agrees.keeps

theorem delete_keeps
    (outside : ¬ Reserved key) : Keeps (d.contents view)
      ((d.delete store key).2.contents view) := by
  rw [Database.delete]
  split_ifs
  · exact agrees.keeps
  · exact agrees.keeps
  · exact agrees.keeps
  · rcases deleteLocked_settles exact d key with ⟨-, published⟩ | ⟨-, same⟩
    · rw [published]
      refine agrees.keeps_of_same (sorted_erase agrees.sorted _) fun other reserved => ?_
      exact lookup_erase_of_ne _ fun same => outside (same ▸ reserved)
    · rw [same]
      exact agrees.keeps

theorem createTable_keeps
    (schema : TableSchema) : Keeps (d.contents view)
      ((createTable store d schema).2.contents view) := by
  refine ⟨createTable_consistent exact agrees schema, fun s defined => ?_⟩
  rcases createTable_spec exact d schema with ⟨-, same⟩ | ⟨valid, absent, small, -, published⟩
  · rwa [same]
  · rw [published]
    exact (defines_put (validateSchema_eq_ok.mp valid) small absent).mpr (.inl defined)

theorem createIndex_keeps (defined : Defines (d.contents view) t.schema) (index : Index) :
    Keeps (d.contents view) ((t.createIndex store d index).2.1.contents view) := by
  refine ⟨createIndex_consistent exact agrees defined index, fun s isTable => ?_⟩
  rcases createIndex_spec exact d t index with ⟨-, same⟩ |
    ⟨indexes, mutations, -, batch, -, published⟩
  · rwa [same]
  · obtain ⟨valid, fresh, filled, isFilled, rfl⟩ := indexBatch_eq_ok exact batch defined
    rw [published]
    exact (isFilled.addsIndex agrees defined ((validateIndex_eq_ok defined.valid).mp valid)
      fresh).defines.mpr isTable

end

/-! ## The invariant -/

/-- The state of a database whose relational layer is intact, for the journals of its
transactions. -/
structure Coherent (view : σ → List Item) (s : System σ) (journals : Nat → Changes) : Prop where
  consistent : Consistent (s.db.contents view)
  handles : ∀ t ∈ s.tables, Defines (s.db.contents view) t.schema
  pending : ∀ i, s.Writing i → Pending (s.db.contents view) (journals i)

variable {s : System σ} {journals : Nat → Changes} {call : Call}

variable {i : Nat}

theorem withTable_keeps (coherent : Coherent view s journals) (i : Nat)
    (method : Table → Outcome × Database σ × Table)
    (after : ∀ held : Table, Defines (s.db.contents view) held.schema →
      Keeps (s.db.contents view) ((method held).2.1.contents view)) :
    Keeps (s.db.contents view) ((s.withTable i method).2.db.contents view) := by
  rw [System.withTable]
  cases found : s.tables[i]? with
  | none => exact coherent.consistent.keeps
  | some held => exact after held (coherent.handles held (mem_of_getElem? found))

section

variable (coherent : Coherent view s journals) (exact : store.Models view)
  (buffered : Buffered s journals)
include coherent exact buffered

theorem Coherent.recorded (respects : call.Respects) (writing : s.Writing i) :
    Pending (s.db.contents view) (journals i ++ s.recorded store call i) := by
  have pending := coherent.pending i writing
  by_cases records : call.Records i
  · obtain ⟨held, there, -, -⟩ := writing
    apply pending.append
    cases call with
    | txSet j key value =>
      obtain rfl : j = i := records
      rw [System.recorded.eq_def, there]
      dsimp only
      rw [if_pos rfl]
      exact pending.consistent.pending_onOk respects _ _
    | txDelete j key =>
      obtain rfl : j = i := records
      rw [System.recorded.eq_def, there]
      dsimp only
      split_ifs
      · exact pending.consistent.pending_onOk respects _ _
      · exact pending.consistent.pending_nil
    | txRow j table method =>
      obtain rfl : j = i := records
      rw [System.recorded.eq_def, there]
      dsimp only
      rw [if_pos rfl]
      refine (buffered.holds j held there).tableChanges_pending
        exact coherent.consistent.sorted pending (fun t isTable => ?_) method
      obtain ⟨position, -, found⟩ := Option.bind_eq_some_iff.mp isTable
      exact coherent.handles t (mem_of_getElem? found)
    | _ => cases records
  · rw [recorded_of_not_records records, append_nil]
    exact pending

/-- The contents after a call that works through a transaction or reads. -/
theorem Effect.keeps {next : System σ} {outcome : Outcome}
    (effect : Effect store s call outcome next) (indirect : ¬ call.Direct) :
    Keeps (s.db.contents view) (next.db.contents view) := by
  have kept := coherent.consistent.keeps
  cases effect with
  | refused | missing => exact kept
  | keep _ db _ | record _ _ _ _ db _ | refusedCommit _ _ _ db _ | rollbackClosed _ _ db _ =>
    rw [db]
    exact kept
  | write direct => exact absurd direct indirect
  | close db _ =>
    rw [db, close_contents exact.close]
    exact kept
  | begin _ _ db _ | rollback _ _ db _ =>
    rw [db]
    exact kept
  | failedCommit _ _ failed db _ =>
    obtain ⟨err, failed⟩ := failed
    have same := (applyBatchLocked_settles exact s.db _).kept failed
    rw [db, show Database.contents view _ = _ from same]
    exact kept
  | @commit i tx _ here writable published db _ =>
    obtain ⟨isOpen, -, writes⟩ := Tx.writable_eq_ok.mp writable
    have done := (applyBatchLocked_settles exact s.db tx.mutations).published published
    rw [(buffered.holds i tx here).foldl_mutations coherent.consistent.sorted] at done
    rw [db]
    change Keeps _ (Database.contents view (s.db.applyBatchLocked store tx.mutations).2)
    rw [done]
    exact (coherent.pending i ⟨tx, here, writes, isOpen⟩).keeps

theorem Coherent.keeps (respects : call.Respects) :
    Keeps (s.db.contents view) ((s.step store call).2.db.contents view) := by
  by_cases direct : call.Direct
  · cases call with
    | set key value => exact set_keeps exact coherent.consistent respects value
    | delete key => exact delete_keeps exact coherent.consistent respects
    | createTable schema =>
      rw [createTable_step_db]
      exact createTable_keeps exact coherent.consistent schema
    | createIndex table index =>
      exact withTable_keeps coherent table _ fun held defined =>
        createIndex_keeps exact coherent.consistent defined index
    | tableRow table method =>
      exact withTable_keeps coherent table _ fun held defined =>
        mutate_keeps exact coherent.consistent defined method
    | _ => cases direct
  · exact (step_effect s call).keeps coherent exact buffered direct

end

/-! ## Handles -/

/-- A handle keeps its schema. -/
theorem withTable_schema {s : System σ} (i : Nat) (method : Table → Outcome × Database σ × Table)
    (schema : ∀ held, (method held).2.2.schema = held.schema)
    (mem : t ∈ (s.withTable i method).2.tables) : ∃ old ∈ s.tables, t.schema = old.schema := by
  rw [System.withTable] at mem
  cases found : s.tables[i]? with
  | none =>
    rw [found] at mem
    exact ⟨t, mem, rfl⟩
  | some held =>
    rw [found] at mem
    rcases mem_or_eq_of_mem_set mem with old | rfl
    · exact ⟨t, old, rfl⟩
    · exact ⟨held, mem_of_getElem? found, schema held⟩

theorem createIndex_schema (d : Database σ) (t : Table) (index : Index) :
    (t.createIndex store d index).2.2.schema = t.schema := by
  have schema := @refreshIndexesLocked_schema σ store t d
  rw [Table.createIndex]
  split_ifs
  · rfl
  · rfl
  · split
    next result =>
      rw [result] at schema
      exact schema
    next result =>
      rw [result] at schema
      split
      next => exact schema
      next =>
        dsimp only
        split
        next => exact schema
        next => exact schema

theorem findByIndex_schema (d : Database σ) (t : Table) (indexName : Bytes) (value : Value) :
    (t.findByIndex store d indexName value).2.schema = t.schema := by
  have schema := @refreshIndexesLocked_schema σ store t d
  rw [Table.findByIndex]
  split_ifs
  · rfl
  split
  next result =>
    rw [result] at schema
    exact schema
  next result =>
    rw [result] at schema
    exact schema

/-- The handle that `OpenTable` returns. -/
theorem openTable_defines (exact : store.Models view) (agrees : Consistent (d.contents view))
    {name : Bytes} (opened : openTable store d name = .ok t) :
    Defines (d.contents view) t.schema ∧ t.schema.name = name := by
  have nonempty : descriptorKey name ≠ [] := cons_ne_nil _ _
  rw [openTable, guard_eq_ok, getLocked_exact exact d nonempty, ok_bind] at opened
  obtain ⟨-, opened⟩ := opened
  cases found : lookup (d.contents view) (descriptorKey name) with
  | none =>
    rw [found] at opened
    cases opened
  | some value =>
    rw [found] at opened
    obtain ⟨schema, decoded, opened⟩ := bind_ok_iff.mp opened
    rw [guard_eq_ok] at opened
    obtain ⟨indexes, -, built⟩ := bind_ok_iff.mp opened.2
    obtain rfl := Except.ok.inj built
    exact ⟨(agrees.defines_of_descriptor found decoded).1, not_not.mp opened.1⟩

/-- Every handle after a call was there before, or is the handle of a table. -/
theorem step_handles (exact : store.Models view) (agrees : Consistent (s.db.contents view))
    (mem : t ∈ (s.step store call).2.tables) :
    (∃ old ∈ s.tables, t.schema = old.schema) ∨
      Defines ((s.step store call).2.db.contents view) t.schema := by
  have old (known : t ∈ s.tables) : ∃ old ∈ s.tables, t.schema = old.schema := ⟨t, known, rfl⟩
  -- The calls of a transaction keep the list of schemas.
  have ofTx {i : Nat} (on : call.On i) : ∃ old ∈ s.tables, t.schema = old.schema := by
    have listed : t.schema ∈ (s.step store call).2.tables.map Table.schema := mem_map_of_mem mem
    rw [step_schemas on] at listed
    obtain ⟨known, isKnown, same⟩ := mem_map.mp listed
    exact ⟨known, isKnown, same.symm⟩
  cases call with
  | close | set | get | delete | range => exact .inl (old mem)
  | begin readOnly =>
    left
    apply old
    rw [System.step] at mem
    split at mem <;> exact mem
  | txGet i | txSet i | txDelete i | txRange i | txRow i | commit i | rollback i =>
    exact .inl (ofTx (i := i) rfl)
  | createTable schema =>
    have spec := createTable_spec exact s.db schema
    rw [System.step] at mem ⊢
    split at mem
    next => exact .inl (old mem)
    next created db result =>
      rw [result] at spec
      rcases mem_append.mp mem with known | new
      · exact .inl (old known)
      right
      rcases spec with ⟨⟨err, failed⟩, -⟩ | ⟨valid, absent, small, made, published⟩
      · cases failed
      · obtain rfl := Except.ok.inj made
        rw [mem_singleton.mp new]
        change Defines (Database.contents view db) schema
        rw [published]
        exact (defines_put (validateSchema_eq_ok.mp valid) small absent).mpr (.inr rfl)
  | openTable name =>
    rw [System.step] at mem ⊢
    split at mem
    next => exact .inl (old mem)
    next opened result =>
      rcases mem_append.mp mem with known | new
      · exact .inl (old known)
      · right
        rw [mem_singleton.mp new]
        exact (openTable_defines exact agrees result).1
  | createIndex i index =>
    exact .inl (withTable_schema i _ (fun held => createIndex_schema s.db held index) mem)
  | tableRow i method =>
    exact .inl (withTable_schema i _ (fun held => mutate_schema held s.db _) mem)
  | tableGet i | tableScan i | tableRange i =>
    exact .inl (withTable_schema i _ (fun held => rfl) mem)
  | findByIndex i indexName value =>
    exact .inl (withTable_schema i _ (fun held => findByIndex_schema s.db held indexName value) mem)

/-! ## Runs -/

variable {events : Events}

/-- While a transaction writes, the contents stay as they are. -/
theorem Effect.writing (exact : store.Models view) (admission : Admission events s)
    {next : System σ} {outcome : Outcome} (effect : Effect store s call outcome next)
    (writing : next.Writing i) :
    next.db.contents view = s.db.contents view ∧ (s.Writing i ∨ s.txs.length ≤ i) := by
  cases effect with
  | refused | missing => exact ⟨rfl, .inl writing⟩
  | keep _ db txs | rollbackClosed _ _ db txs =>
    exact ⟨congrArg _ db, .inl ((writing_of_txs_eq txs i).mp writing)⟩
  | record changes _ here _ db txs =>
    refine ⟨congrArg _ db, .inl ?_⟩
    exact (writing_set here (recordAll_flags _ changes).1 (recordAll_flags _ changes).2 txs i).mp
      writing
  | refusedCommit here _ kept db txs =>
    refine ⟨congrArg _ db, .inl ?_⟩
    rcases kept with rfl | ⟨-, rfl⟩
    · exact (writing_set here rfl rfl txs i).mp writing
    · exact ((writing_set_closed here txs i).mp writing).1
  | write _ _ idle _ _ txs =>
    have active := admission.active.mpr ⟨i, (writing_of_txs_eq txs i).mp writing⟩
    exact absurd (idle.symm.trans active) Bool.false_ne_true
  | close db txs =>
    rw [db]
    exact ⟨close_contents exact.close s.db, .inl ((writing_of_txs_eq txs i).mp writing)⟩
  | begin _ _ db txs =>
    rw [db]
    refine ⟨rfl, ?_⟩
    rcases (writing_append txs rfl i).mp writing with before | ⟨new, -⟩
    · exact .inl before
    · exact .inr new.ge
  | rollback here _ db txs =>
    rw [db]
    exact ⟨rfl, .inl ((writing_set_closed here txs i).mp writing).1⟩
  | failedCommit _ _ failed db txs =>
    obtain ⟨err, failed⟩ := failed
    rw [db]
    exact ⟨(applyBatchLocked_settles exact s.db _).kept failed,
      .inl ((writing_of_txs_eq txs i).mp writing)⟩
  | commit here writable _ _ txs =>
    obtain ⟨isOpen, -, writes⟩ := Tx.writable_eq_ok.mp writable
    obtain ⟨before, other⟩ := (writing_set_closed here txs i).mp writing
    exact absurd (admission.one _ _ before ⟨_, here, writes, isOpen⟩) other

theorem Coherent.step (coherent : Coherent view s journals)
    (exact : store.Models view) (admission : Admission events s) (buffered : Buffered s journals)
    (respects : call.Respects) :
    Coherent view (s.step store call).2 fun i => journals i ++ s.recorded store call i := by
  have kept := coherent.keeps exact buffered respects
  refine ⟨kept.consistent, fun t mem => ?_, fun i writing => ?_⟩
  · rcases step_handles exact coherent.consistent mem with ⟨old, isOld, same⟩ | defined
    · rw [same]
      exact kept.tables _ (coherent.handles old isOld)
    · exact defined
  · obtain ⟨same, before | outside⟩ := (step_effect s call).writing exact admission writing
    · rw [same]
      exact coherent.recorded exact buffered respects before
    · rw [buffered.fresh i outside, recorded_of_outside outside]
      exact kept.consistent.pending_nil

/-- A run whose calls leave the keys of the relational layer to it. -/
def Respectful (events : Events) : Prop := ∀ event ∈ events, event.1.Respects

theorem respectful_nil : Respectful [] := fun _ mem => absurd mem not_mem_nil

theorem respectful_snoc {event : Call × Outcome} :
    Respectful (events ++ [event]) ↔ Respectful events ∧ event.1.Respects := by
  simp only [Respectful, mem_append, mem_singleton, or_imp, forall_and, forall_eq]

variable {backend : Backend σ}

theorem Journaled.coherent (exact : store.Models view)
    (fresh : (System.opened backend).db.contents view = [])
    (run : Journaled store (System.opened backend) events s journals)
    (respectful : Respectful events) :
    Coherent view s journals := by
  induction run with
  | start =>
    refine ⟨?_, nofun, ?_⟩
    · rw [fresh]
      exact consistent_nil
    · rintro i ⟨tx, found, -⟩
      cases found
  | @call events s journals before call ih =>
    obtain ⟨earlier, respects⟩ := respectful_snoc.mp respectful
    exact (ih earlier).step exact before.run.admission (before.buffered rfl) respects

theorem Run.coherent (exact : store.Models view)
    (fresh : (System.opened backend).db.contents view = [])
    (run : Run store (System.opened backend) events s) (respectful : Respectful events) :
    ∃ journals, Coherent view s journals := by
  obtain ⟨journals, journaled⟩ := run.journaled
  exact ⟨journals, journaled.coherent exact fresh respectful⟩

/-! ## The main result -/

/-- In every state of a run the entries of every index are exactly one per row, and two
rows never share a value of a unique index. -/
theorem indexes_mirror_rows (exact : store.Models view) {backend : Backend σ}
    (fresh : (System.opened backend).db.contents view = []) {events : Events}
    (run : Run store (System.opened backend) events s) (respectful : Respectful events)
    {name descriptor indexName metadata : Bytes} {schema : TableSchema} {index : Index}
    (table : lookup (s.db.contents view) (descriptorKey name) = some descriptor)
    (read : decodeDescriptor descriptor = .ok schema)
    (definition : lookup (s.db.contents view) (indexMetadataKey name indexName) =
      some metadata)
    (decoded : decodeIndexMetadata indexName metadata = .ok index) :
    (∀ pk, (lookup (s.db.contents view) (rowPrefix name ++ pk)).isSome →
      ∃ row encoded, RowAt (s.db.contents view) schema pk row ∧
        encodeIndexValue (columnByName schema index.column) (row.get index.column) = .ok encoded) ∧
    (∀ key pk, indexEntryPrefix name indexName <+: key →
      (lookup (s.db.contents view) key = some pk ↔
        ∃ row encoded, RowAt (s.db.contents view) schema pk row ∧
          encodeIndexValue (columnByName schema index.column) (row.get index.column) = .ok encoded ∧
          key = indexEntryKey name index encoded pk)) ∧
    (index.unique = true → ∀ pk otherPk row other encoded,
      RowAt (s.db.contents view) schema pk row → RowAt (s.db.contents view) schema otherPk other →
      encodeIndexValue (columnByName schema index.column) (row.get index.column) = .ok encoded →
      encodeIndexValue (columnByName schema index.column) (other.get index.column) = .ok encoded →
      pk = otherPk) := by
  obtain ⟨journals, coherent⟩ := run.coherent exact fresh respectful
  have agrees := coherent.consistent
  obtain ⟨defined, rfl⟩ := agrees.defines_of_descriptor table read
  obtain ⟨isIndex, rfl⟩ := agrees.definesIndex_of_metadata defined definition decoded
  refine ⟨fun pk present => ?_, fun key pk starts => ?_,
    fun unique pk otherPk row other encoded isRow isOther encodes otherEncodes => ?_⟩
  · obtain ⟨value, found⟩ := Option.isSome_iff_exists.mp present
    obtain ⟨stored, isStored⟩ := agrees.stored_row defined found
    have isRow : RowAt (s.db.contents view) schema pk _ := ⟨value, found, isStored.decodeRow_eq⟩
    obtain ⟨entry, ⟨encoded, indexed, -⟩, -⟩ := agrees.exists_entry defined isIndex isRow
    exact ⟨_, encoded, isRow, indexed⟩
  · rw [agrees.lookup_entry defined isIndex starts]
    refine exists_congr fun row => ?_
    constructor
    · rintro ⟨isRow, encoded, indexed, whole⟩
      exact ⟨encoded, isRow, indexed, (Binding.mk.inj whole).1⟩
    · rintro ⟨encoded, isRow, indexed, rfl⟩
      exact ⟨isRow, encoded, indexed, rfl⟩
  · -- Both rows have the same entry, whose value is the primary key of either.
    obtain ⟨entry, ⟨own, indexed, rfl⟩, found⟩ := agrees.exists_entry defined isIndex isRow
    obtain ⟨_, ⟨otherOwn, otherIndexed, rfl⟩, otherFound⟩ :=
      agrees.exists_entry defined isIndex isOther
    obtain rfl := Except.ok.inj (encodes.symm.trans indexed)
    obtain rfl := Except.ok.inj (otherEncodes.symm.trans otherIndexed)
    dsimp only [indexEntryKey] at found otherFound
    rw [if_pos unique] at found otherFound
    exact Option.some.inj (found.symm.trans otherFound)

/-- A unique index on the nullable column. -/
def flagIndex : Index := ⟨[1], [2], true⟩

theorem indexes_mirror_rows_inserted : ∃ (s : System SortedItems) (events : Events),
      Run mapStore (System.opened (.memory [])) events s ∧
        ∃ row encoded, RowAt (s.db.contents Subtype.val) flagSchema [7] row ∧
          encodeIndexValue (columnByName flagSchema [2]) (row.get [2]) = .ok encoded := by
  have run : Run mapStore (System.opened (.memory [])) _ _ :=
    ((Run.start.call (.createTable flagSchema)).call (.createIndex 0 flagIndex)).call
      (.tableRow 0 (.insert [⟨[1], .string [7]⟩] .sorted))
  have mirrored := @indexes_mirror_rows _ _ Subtype.val _ mapStore_exact.toModels _ rfl _ run
    (by simp only [respectful_snoc, respectful_nil, Call.Respects, and_self]) [1]
    (encodeDescriptor flagSchema) [1] (encodeIndexMetadata flagIndex) flagSchema flagIndex
    rfl (by decide) rfl (by decide)
  exact ⟨_, _, run, mirrored.1 [7] rfl⟩

end System

end GoDatabase.Db
