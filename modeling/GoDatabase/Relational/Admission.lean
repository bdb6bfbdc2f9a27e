import GoDatabase.Relational.System

/-!
# Admission of writers

`writerActive` is a lock that `Begin` takes and that `Commit` and `Rollback` release.  It
is compared with the history of the calls: at any time at most one transaction that was
begun for writing has not ended, the flag says whether there is one, and as long as there
is, nobody else changes the contents.
-/

namespace GoDatabase.Db

open Library List

/-- The transaction `i` was begun for writing, and has neither been committed nor rolled
back. -/
def Writer (events : Events) (i : Nat) : Prop :=
  (.begin false, .handle (.ok i)) ∈ events ∧ (.commit i, .unit (.ok ())) ∉ events ∧
    (.rollback i, .unit (.ok ())) ∉ events

/-- A call that ends the transaction `i` when it returns without an error. -/
def Ends (event : Call × Outcome) (i : Nat) : Prop :=
  event = (.commit i, .unit (.ok ())) ∨ event = (.rollback i, .unit (.ok ()))

variable {events : Events} {event : Call × Outcome}

theorem writer_snoc {i : Nat} : Writer (events ++ [event]) i ↔
      (Writer events i ∨ (event = (.begin false, .handle (.ok i)) ∧
        ∀ past ∈ events, ¬ Ends past i)) ∧ ¬ Ends event i := by
  simp only [Writer, Ends, mem_append, mem_singleton]
  constructor
  · rintro ⟨begun, noCommit, noRollback⟩
    rw [not_or] at noCommit noRollback
    refine ⟨?_, not_or.mpr ⟨fun same => noCommit.2 same.symm, fun same => noRollback.2 same.symm⟩⟩
    rcases begun with old | new
    · exact .inl ⟨old, noCommit.1, noRollback.1⟩
    · refine .inr ⟨new.symm, ?_⟩
      rintro past mem (rfl | rfl)
      · exact noCommit.1 mem
      · exact noRollback.1 mem
  · rintro ⟨begun, open'⟩
    rw [not_or] at open'
    rcases begun with ⟨old, noCommit, noRollback⟩ | ⟨new, none⟩
    · exact ⟨.inl old, not_or.mpr ⟨noCommit, fun same => open'.1 same.symm⟩,
        not_or.mpr ⟨noRollback, fun same => open'.2 same.symm⟩⟩
    · exact ⟨.inr new.symm,
        not_or.mpr ⟨fun mem => none _ mem (.inl rfl), fun same => open'.1 same.symm⟩, not_or.mpr
          ⟨fun mem => none _ mem (.inr rfl), fun same => open'.2 same.symm⟩⟩

variable {σ : Type} {store : Store σ}

/-- The transaction `i` is open for writing. -/
def System.Writing (s : System σ) (i : Nat) : Prop :=
  ∃ tx, s.txs[i]? = some tx ∧ tx.readOnly = false ∧ tx.closed = false

/-! ## How a call changes the writers -/

theorem recordAll_flags (tx : Tx) (changes : Changes) :
    (tx.recordAll changes).readOnly = tx.readOnly ∧ (tx.recordAll changes).closed = tx.closed := by
  induction changes generalizing tx with
  | nil => exact ⟨rfl, rfl⟩
  | cons change rest ih => exact ih (tx.recordLocked change.key change.value)

section Writing

variable {s next : System σ} {i : Nat} {tx changed : Tx}

theorem writing_of_txs_eq (txs : next.txs = s.txs) (j : Nat) : next.Writing j ↔ s.Writing j := by
  rw [System.Writing, System.Writing, txs]

/-- A transaction that keeps its flags. -/
theorem writing_set (here : s.txs[i]? = some tx) (readOnly : changed.readOnly = tx.readOnly)
    (closed : changed.closed = tx.closed) (txs : next.txs = s.txs.set i changed) (j : Nat) :
    next.Writing j ↔ s.Writing j := by
  rw [System.Writing, System.Writing, txs]
  by_cases same : i = j
  · subst same
    have inside := (List.getElem?_eq_some_iff.mp here).1
    simp only [List.getElem?_set_self inside, here, Option.some.injEq, exists_eq_left',
      readOnly, closed]
  · rw [List.getElem?_set_ne same]

/-- A transaction that ends. -/
theorem writing_set_closed (here : s.txs[i]? = some tx)
    (txs : next.txs = s.txs.set i { tx with closed := true }) (j : Nat) :
    next.Writing j ↔ s.Writing j ∧ j ≠ i := by
  rw [System.Writing, System.Writing, txs]
  by_cases same : i = j
  · subst same
    have inside := (List.getElem?_eq_some_iff.mp here).1
    simp [List.getElem?_set_self inside]
  · rw [List.getElem?_set_ne same]
    exact (and_iff_left (Ne.symm same)).symm

/-- A transaction that begins. -/
theorem writing_append (txs : next.txs = s.txs ++ [tx]) (closed : tx.closed = false) (j : Nat) :
    next.Writing j ↔ s.Writing j ∨ (j = s.txs.length ∧ tx.readOnly = false) := by
  rw [System.Writing, System.Writing, txs]
  rcases lt_trichotomy j s.txs.length with below | rfl | above
  · rw [List.getElem?_append_left below]
    exact (or_iff_left fun last => below.ne last.1).symm
  · simp [closed]
  · have outside : (s.txs ++ [tx]).length ≤ j := by
      rw [length_append]
      exact above
    rw [List.getElem?_eq_none outside, List.getElem?_eq_none above.le]
    simp [above.ne']

theorem not_writing (here : s.txs[i]? = some tx) (ended : tx.closed = true ∨ tx.readOnly = true) :
    ¬ s.Writing i := by
  rintro ⟨other, found, writes, isOpen⟩
  obtain rfl := Option.some.inj (here.symm.trans found)
  rcases ended with closed | readOnly
  · exact Bool.false_ne_true (isOpen.symm.trans closed)
  · exact Bool.false_ne_true (writes.symm.trans readOnly)

end Writing

/-- What a call means for the writers. -/
inductive Turn (s next : System σ) (event : Call × Outcome) : Prop
  /-- The writer, or that there is none, stays. -/
  | same (writing : ∀ i, next.Writing i ↔ s.Writing i) (active : next.db.writerActive =
      s.db.writerActive) (quiet : ∀ i, event ≠ (.begin false, .handle (.ok i)))
      (ends : ∀ i, Ends event i → ¬ s.Writing i ∧ i < s.txs.length)
  | opened (begun : event = (.begin false, .handle (.ok s.txs.length)))
      (idle : s.db.writerActive = false) (writing : ∀ i, next.Writing i ↔ s.Writing i ∨ i =
        s.txs.length)
      (active : next.db.writerActive = true)
  | ended (i : Nat) (ends : Ends event i) (only : ∀ j, Ends event j → j = i) (was : s.Writing i)
      (writing : ∀ j, next.Writing j ↔ s.Writing j ∧ j ≠ i) (active : next.db.writerActive = false)
      (quiet : ∀ j, event ≠ (.begin false, .handle (.ok j)))

variable {call : Call} {outcome : Outcome} {s next : System σ}

/-- A call that neither opens nor ends a transaction for writing. -/
theorem Turn.of_plain (plain : call.Plain)
    (writing : ∀ i, next.Writing i ↔ s.Writing i) (active : next.db.writerActive =
      s.db.writerActive) :
    Turn s next (call, outcome) := by
  refine .same writing active ?_ ?_
  · rintro i same
    obtain ⟨rfl, -⟩ := Prod.mk.inj same
    exact plain
  · rintro i (same | same)
    · obtain ⟨rfl, -⟩ := Prod.mk.inj same
      exact plain.elim
    · obtain ⟨rfl, -⟩ := Prod.mk.inj same
      exact plain.elim

/-- A call that returns something else than the end of a transaction. -/
theorem Turn.of_outcome
    (writing : ∀ i, next.Writing i ↔ s.Writing i) (active : next.db.writerActive =
      s.db.writerActive)
    (quiet : ∀ i, (call, outcome) ≠ (.begin false, .handle (.ok i)))
    (fails : outcome ≠ .unit (.ok ())) :
    Turn s next (call, outcome) := by
  refine .same writing active quiet ?_
  rintro i (same | same)
  · exact absurd (Prod.mk.inj same).2 fails
  · exact absurd (Prod.mk.inj same).2 fails

theorem Effect.turn
    (effect : Effect store s call outcome next) : Turn s next (call, outcome) := by
  cases effect with
  | keep plain db txs =>
    exact .of_plain plain (writing_of_txs_eq txs) (congrArg Database.writerActive db)
  | refused => exact .of_outcome (fun _ => Iff.rfl) rfl (by rintro _ ⟨⟩) (by rintro ⟨⟩)
  | missing notBegin =>
    refine .of_outcome (fun _ => Iff.rfl) rfl (fun _ same => ?_) (by rintro ⟨⟩)
    exact notBegin false (Prod.mk.inj same).1
  | write direct isOpen idle backend db txs =>
    have plain : call.Plain := by
      cases call with
      | begin | commit | rollback => cases direct
      | _ => trivial
    refine .of_plain plain (writing_of_txs_eq txs) ?_
    rw [db]
  | close db txs =>
    refine .of_plain trivial (writing_of_txs_eq txs) ?_
    rw [db, Database.close]
    split_ifs
    · rfl
    · cases s.db.backend with
      | memory => rfl
      | durable => rfl
  | @begin readOnly _ isOpen admitted db txs =>
    have writing := writing_append txs rfl
    cases readOnly with
    | false =>
      refine .opened rfl (admitted.resolve_left Bool.false_ne_true) (fun i => ?_) ?_
      · rw [writing i, and_iff_left rfl]
      · rw [db, Bool.not_false, Bool.or_true]
    | true =>
      refine .of_outcome (fun i => ?_) ?_ (by rintro _ ⟨⟩) (by rintro ⟨⟩)
      · rw [writing i]
        exact or_iff_left fun last => Bool.false_ne_true last.2.symm
      · rw [db, Bool.not_true, Bool.or_false]
  | record changes records here writable db txs =>
    exact .of_plain records.plain
      (writing_set here (recordAll_flags _ changes).1 (recordAll_flags _ changes).2 txs)
      (congrArg Database.writerActive db)
  | @commit i tx _ here writable published db txs =>
    obtain ⟨isOpen, -, writes⟩ := Tx.writable_eq_ok.mp writable
    refine .ended i (.inl rfl) ?_ ⟨tx, here, writes, isOpen⟩ (writing_set_closed here txs) ?_
      fun _ same => Call.noConfusion (Prod.mk.inj same).1
    · rintro j (same | same)
      · exact (Call.commit.inj (Prod.mk.inj same).1).symm
      · exact Call.noConfusion (Prod.mk.inj same).1
    · rw [db]
  | failedCommit here writable failed db txs =>
    refine .of_outcome (writing_of_txs_eq txs) ?_ (by rintro _ ⟨⟩) (by rintro ⟨⟩)
    obtain ⟨backend, -, same⟩ := @applyBatchLocked_flags σ store s.db _
    rw [db, same]
  | @refusedCommit i tx changed err next here ended kept db txs =>
    refine .of_outcome (fun j => ?_) (congrArg Database.writerActive db)
      (by rintro _ ⟨⟩) (by rintro ⟨⟩)
    rcases kept with rfl | ⟨readOnly, rfl⟩
    · exact writing_set here rfl rfl txs j
    · rw [writing_set_closed here txs j]
      refine and_iff_left_of_imp fun writing same => ?_
      exact not_writing here (.inr readOnly) (same ▸ writing)
  | @rollback i tx next here isOpen db txs =>
    have writing := writing_set_closed here txs
    cases readOnly : tx.readOnly with
    | false =>
      refine .ended i (.inr rfl) ?_ ⟨tx, here, readOnly, isOpen⟩ writing ?_
        fun _ same => Call.noConfusion (Prod.mk.inj same).1
      · rintro j (same | same)
        · exact Call.noConfusion (Prod.mk.inj same).1
        · exact (Call.rollback.inj (Prod.mk.inj same).1).symm
      · rw [db, readOnly, Bool.and_false]
    | true =>
      have idle := not_writing here (.inr readOnly)
      refine .same (fun j => ?_) ?_ (fun _ same => Call.noConfusion (Prod.mk.inj same).1) ?_
      · rw [writing j]
        exact and_iff_left_of_imp fun writes same => idle (same ▸ writes)
      · rw [db, readOnly, Bool.and_true]
      · rintro j (same | same)
        · exact Call.noConfusion (Prod.mk.inj same).1
        · obtain rfl := Call.rollback.inj (Prod.mk.inj same).1
          exact ⟨idle, (List.getElem?_eq_some_iff.mp here).1⟩
  | @rollbackClosed i tx next here ended db txs =>
    refine .same (writing_of_txs_eq txs) (congrArg Database.writerActive db)
      (fun _ same => Call.noConfusion (Prod.mk.inj same).1) ?_
    rintro j (same | same)
    · exact Call.noConfusion (Prod.mk.inj same).1
    · obtain rfl := Call.rollback.inj (Prod.mk.inj same).1
      exact ⟨not_writing here (.inl ended), (List.getElem?_eq_some_iff.mp here).1⟩

/-! ## The invariant -/

/-- The flag, the transactions and the history agree. -/
structure Admission (events : Events) (s : System σ) : Prop where
  writer : ∀ i, s.Writing i ↔ Writer events i
  active : s.db.writerActive = true ↔ ∃ i, s.Writing i
  one : ∀ i j, s.Writing i → s.Writing j → i = j
  known : ∀ event ∈ events, ∀ i, Ends event i → i < s.txs.length

/-- A database as `New` or `Open` returns it. -/
def System.opened (backend : Backend σ) : System σ := ⟨⟨backend, false, false⟩, [], []⟩

theorem admission_opened (backend : Backend σ) : Admission [] (System.opened backend) where
  writer i := by
    refine iff_of_false ?_ ?_
    · rintro ⟨tx, found, -⟩
      cases found
    · rintro ⟨begun, -⟩
      cases begun
  active := by
    refine iff_of_false Bool.false_ne_true ?_
    rintro ⟨i, tx, found, -⟩
    cases found
  one := by
    rintro i j ⟨tx, found, -⟩
    cases found
  known event mem := by cases mem

theorem Admission.turn
    (admission : Admission events s) (turn : Turn s next event)
    (grows : s.txs.length ≤ next.txs.length) :
    Admission (events ++ [event]) next := by
  cases turn with
  | same writing active quiet ends =>
    refine ⟨fun i => ?_, ?_, fun i j left right => ?_, ?_⟩
    · rw [writing i, writer_snoc, admission.writer i]
      constructor
      · intro was
        exact ⟨.inl was, fun ended => (ends i ended).1 ((admission.writer i).mpr was)⟩
      · rintro ⟨was | ⟨begun, -⟩, -⟩
        · exact was
        · exact absurd begun (quiet i)
    · rw [active, admission.active]
      exact exists_congr fun i => (writing i).symm
    · exact admission.one i j ((writing i).mp left) ((writing j).mp right)
    · intro past mem i ended
      rcases mem_append.mp mem with old | new
      · exact (admission.known past old i ended).trans_le grows
      · obtain rfl := mem_singleton.mp new
        exact (ends i ended).2.trans_le grows
  | opened begun idle writing active =>
    have none : ∀ i, ¬ s.Writing i := fun i writes =>
      Bool.false_ne_true (idle.symm.trans (admission.active.mpr ⟨i, writes⟩))
    have notEnd : ∀ i, ¬ Ends event i := by
      rintro i (ended | ended)
      · exact Call.noConfusion (Prod.mk.inj (begun.symm.trans ended)).1
      · exact Call.noConfusion (Prod.mk.inj (begun.symm.trans ended)).1
    refine ⟨fun i => ?_, ?_, fun i j left right => ?_, ?_⟩
    · rw [writing i, writer_snoc, ← admission.writer i, and_iff_left (notEnd i)]
      refine or_congr Iff.rfl ?_
      constructor
      · rintro rfl
        exact ⟨begun, fun past mem ended => (admission.known past mem _ ended).false⟩
      · rintro ⟨same, -⟩
        have outcome := (Prod.mk.inj (begun.symm.trans same)).2
        exact (Except.ok.inj (Outcome.handle.inj outcome)).symm
    · rw [active]
      exact iff_of_true rfl ⟨s.txs.length, (writing _).mpr (.inr rfl)⟩
    · rw [((writing i).mp left).resolve_left (none i), ((writing j).mp right).resolve_left (none j)]
    · intro past mem i ended
      rcases mem_append.mp mem with old | new
      · exact (admission.known past old i ended).trans_le grows
      · obtain rfl := mem_singleton.mp new
        exact absurd ended (notEnd i)
  | ended i ends only was writing active quiet =>
    refine ⟨fun j => ?_, ?_, fun j k left right => ?_, ?_⟩
    · rw [writing j, writer_snoc, admission.writer j]
      constructor
      · rintro ⟨writes, ne⟩
        exact ⟨.inl writes, fun ended => ne (only j ended)⟩
      · rintro ⟨writes | ⟨begun, -⟩, open'⟩
        · refine ⟨writes, ?_⟩
          rintro rfl
          exact open' ends
        · exact absurd begun (quiet j)
    · rw [active]
      refine iff_of_false Bool.false_ne_true ?_
      rintro ⟨j, writes⟩
      obtain ⟨before, ne⟩ := (writing j).mp writes
      exact ne (admission.one j i before was)
    · exact admission.one j k ((writing j).mp left).1 ((writing k).mp right).1
    · intro past mem j ended
      rcases mem_append.mp mem with old | new
      · exact (admission.known past old j ended).trans_le grows
      · obtain rfl := mem_singleton.mp new
        rw [only j ended]
        obtain ⟨tx, here, -⟩ := was
        exact (List.getElem?_eq_some_iff.mp here).1.trans_le grows

variable {backend : Backend σ}

theorem Run.admission
    (run : Run store (System.opened backend) events s) : Admission events s := by
  induction run with
  | start => exact admission_opened backend
  | @call events s _ call ih =>
    have effect := @step_effect σ store s call
    exact ih.turn effect.turn effect.length_le

/-! ## The contents while a transaction writes -/

variable {view : σ → List Item} {t : System σ} {later : Events}

theorem Run.append {start s : System σ} (run : Run store start events s)
    (rest : Run store s later t) : Run store start (events ++ later) t := by
  induction rest with
  | start =>
    rw [append_nil]
    exact run
  | call _ call ih =>
    rw [← append_assoc]
    exact ih.call call

/-- A writer that is still open was open at every time since it began. -/
theorem Writer.of_append {i : Nat} (begun : Writer events i)
    (still : Writer (events ++ later) i) {past : Events} (sublist : past <+: later) :
    Writer (events ++ past) i := by
  have within : ∀ event ∈ events ++ past, event ∈ events ++ later := fun event mem =>
    (prefix_append_right_inj events |>.mpr sublist).subset mem
  exact ⟨mem_append_left _ begun.1, fun mem => still.2.1 (within _ mem),
    fun mem => still.2.2 (within _ mem)⟩

section

variable (closing : ∀ state, view (store.close state).2 = view state)
include closing

/-- Only the writer is let through to the contents. -/
theorem Effect.contents_eq {s next : System σ} (effect : Effect store s call outcome next) {i : Nat}
    (active : s.db.writerActive = true) (only : ∀ j, s.Writing j → j = i)
    (other : call ≠ .commit i) :
    next.db.contents view = s.db.contents view := by
  -- Another transaction that may write would be a second writer.
  have notOwn {j : Nat} {tx : Tx} (here : s.txs[j]? = some tx)
      (writable : tx.writable s.db = .ok ()) (isCommit : call = .commit j) : False := by
    obtain ⟨isOpen, -, writes⟩ := Tx.writable_eq_ok.mp writable
    obtain rfl := only j ⟨tx, here, writes, isOpen⟩
    exact other isCommit
  cases effect with
  | refused | missing => rfl
  | keep _ db _ | record _ _ _ _ db _ | refusedCommit _ _ _ db _ | rollbackClosed _ _ db _ =>
    rw [db]
  | write _ _ idle => exact absurd (idle.symm.trans active) Bool.false_ne_true
  | close db _ => rw [db, close_contents closing]
  | begin _ _ db _ | rollback _ _ db _ => rw [db]; rfl
  | commit here writable => exact (notOwn here writable rfl).elim
  | failedCommit here writable => exact (notOwn here writable rfl).elim

theorem Admission.contents_step {s : System σ} (admission : Admission events s) {i : Nat}
    (writer : Writer events i) (other : call ≠ .commit i) :
    (s.step store call).2.db.contents view = s.db.contents view := by
  have writing := (admission.writer i).mpr writer
  exact (step_effect s call).contents_eq closing (admission.active.mpr ⟨i, writing⟩)
    (fun j also => admission.one j i also writing) other

/-- While a transaction stays open and does not commit, the contents stay. -/
theorem Run.contents_eq (run : Run store (System.opened backend) events s) {i : Nat}
    (begun : Writer events i) (rest : Run store s later t) (still : Writer (events ++ later) i)
    (uncommitted : ∀ outcome, (.commit i, outcome) ∉ later) : t.db.contents view =
      s.db.contents view := by
  induction rest with
  | start => rfl
  | @call past u before call ih =>
    have earlier : Writer (events ++ past) i := begun.of_append still (prefix_append ..)
    have other : call ≠ .commit i := by
      rintro rfl
      exact uncommitted _ (mem_append_right _ (mem_singleton_self _))
    rw [(run.append before).admission.contents_step closing earlier other]
    exact ih earlier fun outcome mem => uncommitted outcome (mem_append_left _ mem)

end

/-- In every run of any clients, the flag of the database says whether a transaction that
was begun for writing has not ended; there is at most one.  As long as there is one, no
other call changes the contents, so that it commits over the contents that it has read. -/
theorem writer_admission (store : Store σ) (view : σ → List Item)
    (closing : ∀ state, view (store.close state).2 = view state) (backend : Backend σ)
    {events : Events} {s : System σ} (run : Run store (System.opened backend) events s) :
    (s.db.writerActive = true ↔ ∃ i, Writer events i) ∧
      (∀ i j, Writer events i → Writer events j → i = j) ∧
      (∀ i, Writer events i → ∀ call, call ≠ .commit i →
        (s.step store call).2.db.contents view = s.db.contents view) ∧
      ∀ i, Writer events i → ∀ later t, Run store s later t → Writer (events ++ later) i →
        (∀ outcome, (.commit i, outcome) ∉ later) → t.db.contents view = s.db.contents view := by
  have admission := run.admission
  refine ⟨?_, ?_, ?_, ?_⟩
  · rw [admission.active]
    exact exists_congr admission.writer
  · intro i j left right
    exact admission.one i j ((admission.writer i).mpr left) ((admission.writer j).mpr right)
  · intro i writer call other
    exact admission.contents_step closing writer other
  · intro i begun later t rest still uncommitted
    exact run.contents_eq closing begun rest still uncommitted

theorem writer_admission_begun : ∃ s : System SortedItems,
      Run mapStore (System.opened (.memory [])) [(.begin false, .handle (.ok 0))] s ∧
        s.db.writerActive = true ∧
        (s.db.writerActive = true ↔ ∃ i, Writer [(.begin false, .handle (.ok 0))] i) := by
  have run : Run mapStore (System.opened (.memory [])) _ _ := Run.start.call (.begin false)
  exact ⟨_, run, rfl,
    (writer_admission mapStore Subtype.val mapStore_exact.close (.memory []) run).1⟩

end GoDatabase.Db
