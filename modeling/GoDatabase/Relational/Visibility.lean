import GoDatabase.Relational.Admission
import GoDatabase.Relational.Reads

/-!
# What transactions see, and when others see them

Along a run every transaction has a journal of the changes that it has recorded.  A
transaction reads its journal over the contents, a commit publishes it in one step, and
until then nobody else reads anything of it.
-/

namespace GoDatabase.Db

open Library SortedMap List Option

/-! ## Journals -/

section Journals

variable {σ : Type} (store : Store σ)

/-- The changes of a method that returned without an error. -/
def onOk {α : Type} (result : Except GoError α) (changes : Changes) :
    Changes :=
  match result with
  | .ok _ => changes
  | .error _ => []

/-- The changes of a row method within a transaction. -/
def Tx.tableChanges {α : Type} (tx : Tx) (d : Database σ) (table : Option Table)
    (change : Mutator α) : Changes :=
  match tx.writable d, table with
  | .ok (), some t =>
    match t.refreshIndexesLocked store d with
    | (.ok (), t) =>
      match change t tx with
      | .ok (_, changes) => changes
      | .error _ => []
    | (.error _, _) => []
  | _, _ => []

/-- The changes that a call records in the transaction `i`. -/
def System.recorded (s : System σ) (call : Call) (i : Nat) : Changes :=
  match call, s.txs[i]? with
  | .txSet tx key value, some held =>
    if tx = i then onOk (held.set s.db key value).1 [⟨key, ⟨value, false⟩⟩] else []
  | .txDelete tx key, some held =>
    if tx = i ∧ key ≠ [] then onOk (held.delete store s.db key).1 [⟨key, ⟨[], true⟩⟩] else []
  | .txRow tx table method, some held =>
    if tx = i then held.tableChanges store s.db (table.bind (s.tables[·]?))
      (method.change store s.db) else []
  | _, _ => []

/-- A run together with the journal of each transaction, oldest change first. -/
inductive Journaled (start : System σ) :
    Events → System σ → (Nat → Changes) → Prop
  | start : Journaled start [] start fun _ => []
  | call {events : Events} {s : System σ} {journals : Nat → Changes}
      (before : Journaled start events s journals) (call : Call) :
      Journaled start (events ++ [(call, (s.step store call).1)]) (s.step store call).2
        fun i => journals i ++ s.recorded store call i

end Journals

variable {σ : Type} {store : Store σ} {view : σ → List Item}

variable {start s : System σ} {events : Events} {i : Nat} {tx : Tx}
  {journal : Changes} {journals : Nat → Changes}

/-- A run with journals is a run, -/
theorem Journaled.run (journaled : Journaled store start events s journals) :
    Run store start events s := by
  induction journaled with
  | start => exact .start
  | call _ call ih => exact ih.call call

/-- and every run has journals. -/
theorem Run.journaled (run : Run store start events s) :
    ∃ journals, Journaled store start events s journals := by
  induction run with
  | start => exact ⟨_, .start⟩
  | call _ call ih =>
    obtain ⟨journals, before⟩ := ih
    exact ⟨_, before.call call⟩

/-! ## The buffers hold the journals -/

theorem Tx.Holds.set (holds : tx.Holds journal)
    (d : Database σ) (key value : Bytes) :
    (tx.set d key value).2.Holds
    (journal ++ onOk (tx.set d key value).1 [⟨key, ⟨value, false⟩⟩]) := by
  have kept : tx.Holds (journal ++ []) := (append_nil journal).symm ▸ holds
  rw [Tx.set]
  split
  next => exact kept
  next =>
    split_ifs
    · exact kept
    · exact holds.recordLocked key ⟨value, false⟩

theorem Tx.Holds.delete (holds : tx.Holds journal)
    (d : Database σ) {key : Bytes} (nonempty : key ≠ []) :
    (tx.delete store d key).2.Holds
    (journal ++ onOk (tx.delete store d key).1 [⟨key, ⟨[], true⟩⟩]) := by
  have kept : tx.Holds (journal ++ []) := (append_nil journal).symm ▸ holds
  rw [Tx.delete]
  split
  next => exact kept
  next =>
    rw [if_neg nonempty]
    split
    next => exact kept
    next => exact holds.recordLocked key ⟨[], true⟩

theorem Tx.delete_empty (tx : Tx) (d : Database σ) : (tx.delete store d []).2 = tx := by
  rw [Tx.delete]
  split
  next => rfl
  next => rw [if_pos rfl]

theorem Tx.Holds.mutateTable {α : Type} (holds : tx.Holds journal) (d : Database σ)
    (table : Option Table) (change : Mutator α) :
    (tx.mutateTable store d table change).2.1.Holds
      (journal ++ tx.tableChanges store d table change) := by
  have kept : tx.Holds (journal ++ []) := (append_nil journal).symm ▸ holds
  rw [Tx.mutateTable.eq_def, Tx.tableChanges.eq_def]
  cases tx.writable d with
  | error err => exact kept
  | ok done =>
    cases table with
    | none => exact kept
    | some t =>
      dsimp only
      rcases t.refreshIndexesLocked store d with ⟨err | done, refreshed⟩
      · exact kept
      · dsimp only
        rcases change refreshed tx with err | ⟨value, changes⟩
        · exact kept
        · exact holds.recordAll changes

/-- The buffers of all transactions, and that there is no journal without a transaction. -/
structure Buffered (s : System σ) (journals : Nat → Changes) : Prop where
  holds : ∀ i (tx : Tx), s.txs[i]? = some tx → tx.Holds (journals i)
  fresh : ∀ i, s.txs.length ≤ i → journals i = []

variable {call : Call}

theorem recorded_of_not_records (quiet : ¬ call.Records i) :
    s.recorded store call i = [] := by
  rw [System.recorded.eq_def]
  cases call with
  | txSet tx key value =>
    cases s.txs[i]? with
    | none => rfl
    | some held => exact if_neg quiet
  | txDelete tx key =>
    cases s.txs[i]? with
    | none => rfl
    | some held => exact if_neg fun both => quiet both.1
  | txRow tx table method =>
    cases s.txs[i]? with
    | none => rfl
    | some held => exact if_neg quiet
  | _ => rfl

theorem recorded_of_outside (outside : s.txs.length ≤ i) :
    s.recorded store call i = [] := by
  rw [System.recorded.eq_def, List.getElem?_eq_none outside]
  cases call <;> rfl

/-- A call that does not record in a transaction leaves its buffer alone. -/
theorem Effect.buffer_eq {next : System σ} {outcome : Outcome}
    (effect : Effect store s call outcome next) (quiet : ¬ call.Records i)
    (here : next.txs[i]? = some tx) :
    (∃ old, s.txs[i]? = some old ∧ tx.changes = old.changes ∧ tx.order = old.order) ∨
      (s.txs.length ≤ i ∧ tx.changes = [] ∧ tx.order = []) := by
  -- The transaction at `j` is replaced by one with the same buffer.
  have replaced {j : Nat} {held changed : Tx} (there : s.txs[j]? = some held)
      (txs : next.txs = s.txs.set j changed) (changes : changed.changes = held.changes)
      (order : changed.order = held.order) :
      ∃ old, s.txs[i]? = some old ∧ tx.changes = old.changes ∧ tx.order = old.order := by
    rw [txs] at here
    by_cases same : j = i
    · subst same
      rw [List.getElem?_set_self (List.getElem?_eq_some_iff.mp there).1] at here
      obtain rfl := some.inj here
      exact ⟨held, there, changes, order⟩
    · rw [List.getElem?_set_ne same] at here
      exact ⟨tx, here, rfl, rfl⟩
  cases effect with
  | refused | missing => exact .inl ⟨tx, here, rfl, rfl⟩
  | keep _ _ txs | write _ _ _ _ _ txs | close _ txs | failedCommit _ _ _ _ txs
  | rollbackClosed _ _ _ txs =>
    rw [txs] at here
    exact .inl ⟨tx, here, rfl, rfl⟩
  | begin _ _ _ txs =>
    rw [txs] at here
    by_cases inside : i < s.txs.length
    · rw [List.getElem?_append_left inside] at here
      exact .inl ⟨tx, here, rfl, rfl⟩
    · rw [List.getElem?_append_right (not_lt.mp inside)] at here
      have new := mem_singleton.mp (mem_of_getElem? here)
      rw [new]
      exact .inr ⟨not_lt.mp inside, rfl, rfl⟩
  | @record _ _ _ j held changes records there _ _ txs =>
    have ne : j ≠ i := by
      rintro rfl
      exact quiet records
    rw [txs, List.getElem?_set_ne ne] at here
    exact .inl ⟨tx, here, rfl, rfl⟩
  | commit there _ _ _ txs => exact .inl (replaced there txs rfl rfl)
  | refusedCommit there _ kept _ txs =>
    rcases kept with rfl | ⟨-, rfl⟩
    · exact .inl (replaced there txs rfl rfl)
    · exact .inl (replaced there txs rfl rfl)
  | rollback there _ _ txs => exact .inl (replaced there txs rfl rfl)

theorem withTx_tx {method : Tx → Outcome × Database σ × Tx}
    (here : (s.withTx i method).2.txs[i]? = some tx) :
    ∃ held, s.txs[i]? = some held ∧ tx = (method held).2.2 := by
  rw [System.withTx] at here
  cases there : s.txs[i]? with
  | none =>
    rw [there] at here
    cases there.symm.trans here
  | some held =>
    rw [there] at here
    refine ⟨held, rfl, ?_⟩
    have replaced : (s.txs.set i (method held).2.2)[i]? = some tx := here
    rw [List.getElem?_set_self (List.getElem?_eq_some_iff.mp there).1] at replaced
    exact (some.inj replaced).symm

theorem txRow_tx {table : Option Nat} {method : RowMethod}
    (here : (s.txRow store i table method).2.txs[i]? = some tx) : ∃ held, s.txs[i]? = some held ∧
      tx = (held.mutateTable store s.db (table.bind (s.tables[·]?))
        (method.change store s.db)).2.1 := by
  rw [System.txRow] at here
  cases there : s.txs[i]? with
  | none =>
    rw [there] at here
    cases there.symm.trans here
  | some held =>
    rw [there] at here
    refine ⟨held, rfl, ?_⟩
    have replaced : (s.txs.set i (held.mutateTable store s.db (table.bind (s.tables[·]?))
      (method.change store s.db)).2.1)[i]? = some tx := here
    rw [List.getElem?_set_self (List.getElem?_eq_some_iff.mp there).1] at replaced
    exact (some.inj replaced).symm

theorem Buffered.holds_step (buffered : Buffered s journals) (call : Call)
    (here : (s.step store call).2.txs[i]? = some tx) :
    tx.Holds (journals i ++ s.recorded store call i) := by
  by_cases records : call.Records i
  · cases call with
    | txSet j key value =>
      obtain rfl : j = i := records
      obtain ⟨held, there, rfl⟩ := withTx_tx here
      have recorded : s.recorded store (.txSet j key value) j =
          onOk (held.set s.db key value).1 [⟨key, ⟨value, false⟩⟩] := by
        rw [System.recorded.eq_def, there]
        exact if_pos rfl
      rw [recorded]
      exact (buffered.holds j held there).set s.db key value
    | txDelete j key =>
      obtain rfl : j = i := records
      obtain ⟨held, there, rfl⟩ := withTx_tx here
      by_cases empty : key = []
      · subst empty
        have recorded : s.recorded store (.txDelete j []) j = [] := by
          rw [System.recorded.eq_def, there]
          exact if_neg fun both => both.2 rfl
        rw [recorded, append_nil]
        dsimp only
        rw [Tx.delete_empty]
        exact buffered.holds j held there
      · have recorded : s.recorded store (.txDelete j key) j =
            onOk (held.delete store s.db key).1 [⟨key, ⟨[], true⟩⟩] := by
          rw [System.recorded.eq_def, there]
          exact if_pos ⟨rfl, empty⟩
        rw [recorded]
        exact (buffered.holds j held there).delete s.db empty
    | txRow j table method =>
      obtain rfl : j = i := records
      obtain ⟨held, there, rfl⟩ := txRow_tx here
      have recorded : s.recorded store (.txRow j table method) j =
          held.tableChanges store s.db (table.bind (s.tables[·]?)) (method.change store s.db) := by
        rw [System.recorded.eq_def, there]
        exact if_pos rfl
      rw [recorded]
      exact (buffered.holds j held there).mutateTable s.db _ _
    | _ => cases records
  · rw [recorded_of_not_records records, append_nil]
    rcases (step_effect s call).buffer_eq records here with ⟨old, there, changes, order⟩ |
      ⟨outside, changes, order⟩
    · exact (buffered.holds i old there).congr changes order
    · rw [buffered.fresh i outside]
      exact (Tx.holds_begin false).congr changes order

theorem Journaled.buffered (journaled : Journaled store start events s journals)
    (none : start.txs = []) : Buffered s journals := by
  induction journaled with
  | start =>
    refine ⟨fun i tx here => ?_, fun _ _ => rfl⟩
    rw [none] at here
    cases here
  | @call events s journals _ call ih =>
    refine ⟨fun i tx here => ih.holds_step call here, fun i outside => ?_⟩
    have before := (step_effect s call).length_le.trans outside
    rw [ih.fresh i before, recorded_of_outside before, append_nil]

/-! ## What a transaction returns -/

section Methods

theorem Tx.usable_of_open {d : Database σ} (isOpen : tx.closed = false)
    (database : d.closed = false) : tx.usable d = .ok () := by
  rw [Tx.usable, isOpen, database]
  rfl

theorem txRange_outcome (exact : store.Exact view) (sorted : Sorted (s.db.contents view))
    (here : s.txs[i]? = some tx) (holds : tx.Holds journal) (usable : tx.usable s.db = .ok ())
    (start stop : Bytes) :
    ∃ items, (s.step store (.txRange i start stop)).1 = .items (.ok items) ∧ Sorted items ∧
      ∀ key value, ⟨key, value⟩ ∈ items ↔
        start ≤ key ∧ key ≤ stop ∧ overlaid (s.db.contents view) journal key = some value := by
  have sortedPlay := Journal.sorted_play sorted (writes journal)
  refine ⟨_, ?_, List.Pairwise.filter (between start stop) sortedPlay, fun key value => ?_⟩
  · rw [System.step, withTx_outcome, here]
    exact congrArg Outcome.items (holds.range_eq exact sorted usable start stop)
  · rw [mem_filter_between, overlaid_eq, and_comm, and_assoc]
    refine and_congr_right fun _ => and_congr_right fun _ => ?_
    exact ⟨lookup_eq_some_of_mem sortedPlay, mem_of_lookup_eq_some⟩

variable {key : Bytes} (models : store.Models view)
include models

theorem txGet_outcome (here : s.txs[i]? = some tx)
    (holds : tx.Holds journal) (usable : tx.usable s.db = .ok ()) (nonempty : key ≠ []) :
    (s.step store (.txGet i key)).1 = .value (.ok (overlaid (s.db.contents view) journal key)) := by
  rw [System.step, withTx_outcome, here]
  refine congrArg Outcome.value ?_
  rw [Tx.get, usable]
  exact holds.valueLocked_eq models s.db nonempty

theorem txDelete_outcome (here : s.txs[i]? = some tx)
    (holds : tx.Holds journal) (writable : tx.writable s.db = .ok ()) (nonempty : key ≠ []) :
    (s.step store (.txDelete i key)).1 =
      .flag (.ok (overlaid (s.db.contents view) journal key).isSome) := by
  rw [System.step, withTx_outcome, here]
  refine congrArg Outcome.flag ?_
  rw [Tx.delete, writable]
  dsimp only
  rw [if_neg nonempty, holds.valueLocked_eq models s.db nonempty]

theorem commit_publishes (sorted : Sorted (s.db.contents view))
    {journals : Nat → Changes} (buffered : Buffered s journals)
    (committed : (s.step store (.commit i)).1 = .unit (.ok ())) :
    (s.step store (.commit i)).2.db.contents view =
      Journal.play (s.db.contents view) (writes (journals i)) := by
  have effect := @step_effect σ store s (.commit i)
  rw [committed] at effect
  generalize (s.step store (.commit i)).2 = next at effect ⊢
  cases effect with
  | keep plain => cases plain
  | write direct => cases direct
  | record changes records => cases records
  | @commit _ tx _ here writable published db txs =>
    rw [db]
    refine ((applyBatchLocked_settles models s.db tx.mutations).published published).trans ?_
    exact (buffered.holds i tx here).foldl_mutations sorted

end Methods

/-- In every run of any clients over an exact map, a transaction reads its own changes over
the contents.  Its calls change neither the contents nor the reads of anybody else, except
a commit that succeeds: that replaces the contents by what the transaction has read. -/
theorem transaction_view (exact : store.Exact view) {backend : Backend σ}
    (sorted : Sorted ((System.opened backend).db.contents view)) {events : Events}
    {s : System σ} {journals : Nat → Changes}
    (run : Journaled store (System.opened backend) events s journals) (i : Nat) :
    (s.db.closed = false → (∀ key, key ≠ [] →
        (s.step store (.get key)).1 = .value (.ok (lookup (s.db.contents view) key))) ∧
      ∀ start stop, (s.step store (.range start stop)).1 =
        .items (.ok ((s.db.contents view).filter (between start stop)))) ∧
    (∀ tx, s.txs[i]? = some tx → tx.closed = false → s.db.closed = false →
      (∀ key, key ≠ [] → (s.step store (.txGet i key)).1 =
        .value (.ok (overlaid (s.db.contents view) (journals i) key))) ∧
      (∀ start stop, ∃ items, (s.step store (.txRange i start stop)).1 = .items (.ok items) ∧
        Sorted items ∧ ∀ key value, ⟨key, value⟩ ∈ items ↔
          start ≤ key ∧ key ≤ stop ∧ overlaid (s.db.contents view) (journals i) key = some value) ∧
      (tx.readOnly = false → ∀ key, key ≠ [] → (s.step store (.txDelete i key)).1 =
        .flag (.ok (overlaid (s.db.contents view) (journals i) key).isSome))) ∧
    (∀ call, call.On i → (call, (s.step store call).1) ≠ (.commit i, .unit (.ok ())) →
      (s.step store call).2.db.contents view = s.db.contents view ∧
        ∀ read : Call, read.Reads → ¬ read.On i →
          ((s.step store call).2.step store read).1 = (s.step store read).1) ∧
    ((s.step store (.commit i)).1 = .unit (.ok ()) →
      Sorted ((s.step store (.commit i)).2.db.contents view) ∧
        ∀ key, SortedMap.lookup ((s.step store (.commit i)).2.db.contents view) key =
          overlaid (s.db.contents view) (journals i) key) := by
  have models := exact.toModels
  have sortedNow := run.run.sorted models sorted
  have buffered := run.buffered rfl
  refine ⟨?_, ?_, ?_, ?_⟩
  · intro isOpen
    refine ⟨fun key nonempty => ?_, fun start stop => ?_⟩
    · refine congrArg Outcome.value ?_
      rw [Database.get, isOpen, if_neg Bool.false_ne_true, if_neg nonempty,
        getLocked_exact models s.db nonempty]
    · refine congrArg Outcome.items ?_
      rw [Database.range, isOpen, if_neg Bool.false_ne_true, rangeLocked_unbounded exact]
  · intro tx here isOpen database
    have holds := buffered.holds i tx here
    have usable := Tx.usable_of_open isOpen database
    refine ⟨fun key nonempty => ?_, fun start stop => ?_, fun writes key nonempty => ?_⟩
    · exact txGet_outcome models here holds usable nonempty
    · exact txRange_outcome exact sortedNow here holds usable start stop
    · exact txDelete_outcome models here holds
        (Tx.writable_eq_ok.mpr ⟨isOpen, database, writes⟩) nonempty
  · intro call on unpublished
    exact reads_unaffected models on unpublished
  · intro committed
    have published := commit_publishes models sortedNow buffered committed
    rw [published]
    exact ⟨Journal.sorted_play sortedNow _, fun key => (overlaid_eq _ _ key).symm⟩

/-- A transaction that has set a key reads it, and others do not until it is committed. -/
theorem transaction_view_set :
    ∃ (s : System SortedItems) (events : Events) (journals : Nat → Changes),
      Journaled mapStore (System.opened (.durable ⟨[], List.Pairwise.nil⟩)) events s journals ∧
        (s.step mapStore (.get [1])).1 = .value (.ok none) ∧
        (s.step mapStore (.txGet 0 [1])).1 = .value (.ok (some [2])) ∧
        lookup ((s.step mapStore (.commit 0)).2.db.contents Subtype.val) [1] =
          some [2] := by
  have run : Journaled mapStore (System.opened (.durable ⟨[], List.Pairwise.nil⟩)) _ _ _ :=
    (Journaled.start.call (.begin false)).call (.txSet 0 [1] [2])
  have sorted : Sorted
      ((System.opened (.durable (⟨[], List.Pairwise.nil⟩ : SortedItems))).db.contents
        Subtype.val) :=
    List.Pairwise.nil
  obtain ⟨outside, inside, -, commit⟩ := transaction_view mapStore_exact sorted run 0
  refine ⟨_, _, _, run, ?_, ?_, ?_⟩
  · exact (outside rfl).1 [1] (List.cons_ne_nil _ _)
  · exact (inside _ rfl rfl rfl).1 [1] (List.cons_ne_nil _ _)
  · exact (commit rfl).2 [1]

end GoDatabase.Db
