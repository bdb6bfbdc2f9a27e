import GoDatabase.Relational.Buffer
import GoDatabase.Relational.System

/-!
# What the methods publish

Over an exact store every method either fails and leaves the contents as they are, or
publishes the writes that the lemmas below name.
-/

namespace GoDatabase.Db

open Library SortedMap

section Exact

variable {σ : Type} {store : Store σ} {view : σ → List Item}

variable {tx : Tx} {d : Database σ} {α : Type}

theorem Tx.Holds.commitLocked_settles {journal : Changes}
    (holds : tx.Holds journal)
    (exact : store.Models view) (sorted : Sorted (d.contents view)) :
    Settles (Database.contents view) d ((tx.commitLocked store d).1, (tx.commitLocked store d).2.1)
      () (Journal.play (d.contents view) (writes journal)) := by
  rw [Tx.commitLocked]
  split
  next => exact .inr ⟨⟨_, rfl⟩, rfl⟩
  next =>
    split_ifs
    · exact .inr ⟨⟨_, rfl⟩, rfl⟩
    have settles := applyBatchLocked_settles exact d tx.mutations
    rw [holds.foldl_mutations sorted] at settles
    dsimp only
    cases result : (d.applyBatchLocked store tx.mutations).1 with
    | error err => exact .inr ⟨⟨err, rfl⟩, settles.kept result⟩
    | ok done => exact .inl ⟨rfl, settles.published result⟩

theorem applyBatch_of_commitLocked (committed : (tx.commitLocked store d).1 = .ok ()) :
    (d.applyBatchLocked store tx.mutations).1 = .ok () := by
  rw [Tx.commitLocked] at committed
  split at committed
  next => cases committed
  next =>
    split_ifs at committed
    dsimp only at committed
    split at committed
    next => cases committed
    next published => exact published

/-- A mutation of a table that returns `value` publishes its changes. -/
theorem mutate_spec (exact : store.Models view) (sorted : Sorted (d.contents view))
    (t : Table) (change : Mutator α) :
    ((∃ err, (t.mutate store d change).1 = .error err) ∧
        (t.mutate store d change).2.1.contents view = d.contents view) ∨
      ∃ indexes value changes, d.closed = false ∧ d.writerActive = false ∧
        loadIndexesLocked store d t.schema = .ok indexes ∧
        change { t with indexes := indexes } .empty = .ok (value, changes) ∧
        (t.mutate store d change).1 = .ok value ∧
        (d.applyBatchLocked store (Tx.empty.recordAll changes).mutations).1 = .ok () ∧
        (t.mutate store d change).2.1.contents view = Journal.play (d.contents view)
        (writes changes) := by
  rw [Table.mutate]
  split_ifs with closed active
  · exact .inl ⟨⟨_, rfl⟩, rfl⟩
  · exact .inl ⟨⟨_, rfl⟩, rfl⟩
  · rw [Table.refreshIndexesLocked]
    cases loaded : loadIndexesLocked store d t.schema with
    | error err => exact .inl ⟨⟨_, rfl⟩, rfl⟩
    | ok indexes =>
      dsimp only
      cases changed : change { t with indexes := indexes } .empty with
      | error err => exact .inl ⟨⟨_, rfl⟩, rfl⟩
      | ok result =>
        obtain ⟨value, changes⟩ := result
        dsimp only
        have settles := ((Tx.holds_begin false).recordAll changes).commitLocked_settles exact sorted
        rw [List.nil_append] at settles
        change Settles _ d (((Tx.empty.recordAll changes).commitLocked store d).1,
          ((Tx.empty.recordAll changes).commitLocked store d).2.1) _ _ at settles
        split
        next err published _ result =>
          rw [result] at settles
          exact .inl ⟨⟨_, rfl⟩, settles.kept rfl⟩
        next published _ result =>
          have applied := applyBatch_of_commitLocked (congrArg Prod.fst result)
          rw [result] at settles
          exact .inr ⟨indexes, value, changes, Bool.eq_false_iff.mpr closed,
            Bool.eq_false_iff.mpr active, rfl, changed, rfl, applied, settles.published rfl⟩

theorem createTable_spec (exact : store.Models view) (d : Database σ) (schema : TableSchema) :
    ((∃ err, (createTable store d schema).1 = .error err) ∧
        (createTable store d schema).2.contents view = d.contents view) ∨
      (validateSchema schema = .ok () ∧ lookup (d.contents view) (descriptorKey schema.name) =
        none ∧ (encodeDescriptor schema).length ≤ 3000 ∧ (createTable store d schema).1 =
          .ok ⟨schema, []⟩ ∧
        (createTable store d schema).2.contents view =
          put (descriptorKey schema.name) (encodeDescriptor schema) (d.contents view)) := by
  rw [createTable]
  split_ifs with closed active
  · exact .inl ⟨⟨_, rfl⟩, rfl⟩
  · exact .inl ⟨⟨_, rfl⟩, rfl⟩
  · cases valid : validateSchema schema with
    | error err => exact .inl ⟨⟨_, rfl⟩, rfl⟩
    | ok done =>
      have nonempty : descriptorKey schema.name ≠ [] := List.cons_ne_nil _ _
      rw [getLocked_exact exact d nonempty]
      cases absent : lookup (d.contents view) (descriptorKey schema.name) with
      | some value => exact .inl ⟨⟨_, rfl⟩, rfl⟩
      | none =>
        dsimp only
        split_ifs with large
        · exact .inl ⟨⟨_, rfl⟩, rfl⟩
        have settles :=
          setLocked_settles exact d (descriptorKey schema.name) (encodeDescriptor schema)
        cases stored :
          (d.setLocked store (descriptorKey schema.name) (encodeDescriptor schema)).1 with
        | error err => exact .inl ⟨⟨_, rfl⟩, settles.kept stored⟩
        | ok done => exact .inr ⟨rfl, rfl, not_lt.mp large, rfl, settles.published stored⟩

theorem createIndex_spec (exact : store.Models view) (d : Database σ) (t : Table) (index : Index) :
    ((∃ err, (t.createIndex store d index).1 = .error err) ∧
        (t.createIndex store d index).2.1.contents view = d.contents view) ∨
      ∃ indexes mutations, loadIndexesLocked store d t.schema = .ok indexes ∧
        indexBatch store d { t with indexes := indexes } index = .ok mutations ∧
        (t.createIndex store d index).1 = .ok () ∧
        (t.createIndex store d index).2.1.contents view = mutations.foldl Mutation.apply
        (d.contents view) := by
  rw [Table.createIndex]
  split_ifs with closed active
  · exact .inl ⟨⟨_, rfl⟩, rfl⟩
  · exact .inl ⟨⟨_, rfl⟩, rfl⟩
  · rw [Table.refreshIndexesLocked]
    cases loaded : loadIndexesLocked store d t.schema with
    | error err => exact .inl ⟨⟨_, rfl⟩, rfl⟩
    | ok indexes =>
      dsimp only
      cases batch : indexBatch store d { t with indexes := indexes } index with
      | error err => exact .inl ⟨⟨_, rfl⟩, rfl⟩
      | ok mutations =>
        dsimp only
        have settles := applyBatchLocked_settles exact d mutations
        cases applied : (d.applyBatchLocked store mutations).1 with
        | error err => exact .inl ⟨⟨_, rfl⟩, settles.kept applied⟩
        | ok done => exact .inr ⟨indexes, mutations, rfl, batch, rfl, settles.published applied⟩

/-! ## The contents stay sorted -/

theorem Settles.sorted {result : Except GoError α × Database σ} {value : α}
    {after : List Item} (settles : Settles (Database.contents view) d result value after)
    (before : Sorted (d.contents view)) (afterwards : Sorted after) :
    Sorted (result.2.contents view) := by
  rcases settles with ⟨-, same⟩ | ⟨-, same⟩
  · rw [same]
    exact afterwards
  · rw [same]
    exact before

section

variable (exact : store.Models view) (sorted : SortedMap.Sorted (d.contents view))
include exact sorted

theorem set_sorted
    (key value : Bytes) : Sorted ((d.set store key value).2.contents view) := by
  rw [Database.set]
  split_ifs
  · exact sorted
  · exact sorted
  · exact sorted
  · exact (setLocked_settles exact d key value).sorted sorted (sorted_put sorted key value)

theorem delete_sorted (key : Bytes) : Sorted ((d.delete store key).2.contents view) := by
  rw [Database.delete]
  split_ifs
  · exact sorted
  · exact sorted
  · exact sorted
  · exact (deleteLocked_settles exact d key).sorted sorted (sorted_erase sorted key)

theorem createTable_sorted (schema : TableSchema) :
    Sorted ((createTable store d schema).2.contents view) := by
  rcases createTable_spec exact d schema with ⟨-, same⟩ | ⟨-, -, -, -, published⟩
  · rw [same]
    exact sorted
  · rw [published]
    exact sorted_put sorted _ _

theorem createIndex_sorted (t : Table) (index : Index) :
    Sorted ((t.createIndex store d index).2.1.contents view) := by
  rcases createIndex_spec exact d t index with ⟨-, same⟩ | ⟨_, mutations, -, -, -, published⟩
  · rw [same]
    exact sorted
  · rw [published]
    exact Mutation.sorted_foldl sorted mutations

theorem mutate_sorted
    (t : Table) (change : Mutator α) :
    Sorted ((t.mutate store d change).2.1.contents view) := by
  rcases mutate_spec exact sorted t change with ⟨-, same⟩ |
    ⟨_, _, changes, -, -, -, -, -, -, published⟩
  · rw [same]
    exact sorted
  · rw [published]
    exact Journal.sorted_play sorted _

end

variable {s : System σ}

/-- A method of a table keeps what it keeps for each handle. -/
theorem withTable_db {P : Database σ → Prop} (before : P s.db) (i : Nat)
    (method : Table → Outcome × Database σ × Table) (after : ∀ held, P (method held).2.1) :
    P (s.withTable i method).2.db := by
  rw [System.withTable]
  cases s.tables[i]? with
  | none => exact before
  | some held => exact after held

theorem Effect.sorted (exact : store.Models view) {next : System σ} {call : Call}
    {outcome : Outcome} (effect : Effect store s call outcome next) (indirect : ¬ call.Direct)
    (sorted : Sorted (s.db.contents view)) : Sorted (next.db.contents view) := by
  cases effect with
  | refused | missing => exact sorted
  | keep _ db _ | record _ _ _ _ db _ | refusedCommit _ _ _ db _ | rollbackClosed _ _ db _ =>
    rw [db]
    exact sorted
  | write direct => exact absurd direct indirect
  | close db _ =>
    rw [db, close_contents exact.close]
    exact sorted
  | begin _ _ db _ | rollback _ _ db _ =>
    rw [db]
    exact sorted
  | commit _ _ _ db _ | failedCommit _ _ _ db _ =>
    rw [db]
    exact (applyBatchLocked_settles exact s.db _).sorted sorted (Mutation.sorted_foldl sorted _)

theorem step_sorted (exact : store.Models view) (sorted : Sorted (s.db.contents view))
    (call : Call) : Sorted ((s.step store call).2.db.contents view) := by
  by_cases direct : call.Direct
  · cases call with
    | set key value => exact set_sorted exact sorted key value
    | delete key => exact delete_sorted exact sorted key
    | createTable schema =>
      rw [createTable_step_db]
      exact createTable_sorted exact sorted schema
    | createIndex table index =>
      exact withTable_db (P := fun d => Sorted (d.contents view)) sorted table _
        fun held => createIndex_sorted exact sorted held index
    | tableRow table method =>
      exact withTable_db (P := fun d => Sorted (d.contents view)) sorted table _
        fun held => mutate_sorted exact sorted held _
    | _ => cases direct
  · exact (step_effect s call).sorted exact direct sorted

theorem Run.sorted (exact : store.Models view) {start : System σ} {events : Events}
    (run : Run store start events s) (sorted : Sorted (start.db.contents view)) :
    Sorted (s.db.contents view) := by
  induction run with
  | start => exact sorted
  | call _ call ih => exact step_sorted exact ih call

end Exact

end GoDatabase.Db
