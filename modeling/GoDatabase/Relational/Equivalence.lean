import GoDatabase.Relational.RowChanges
import GoDatabase.Relational.Visibility

/-!
# Transactions and direct execution

A sequence of operations is executed directly, one publication per operation, and within
one transaction that is committed at the end.  The second execution follows the first: the
journal of the transaction over the old contents is what the direct execution has
published so far.
-/

namespace GoDatabase.Db

open Library Journal List SortedMap Option

/-! ## Operations -/

/-- The operations that a database and a transaction both have. -/
inductive Operation where
  | set (key value : Bytes)
  | delete (key : Bytes)
  | row (table : Nat) (method : RowMethod)

def Operation.direct : Operation → Call
  | .set key value => .set key value
  | .delete key => .delete key
  | .row table method => .tableRow table method

def Operation.within (tx : Nat) : Operation → Call
  | .set key value => .txSet tx key value
  | .delete key => .txDelete tx key
  | .row table method => .txRow tx (some table) method

/-- A key of 1 to 1000 bytes that does not belong to the relational layer. -/
structure PlainKey (key : Bytes) : Prop where
  nonempty : key ≠ []
  short : key.length ≤ 1000
  unreserved : key.head? ≠ some 0x10 ∧ key.head? ≠ some 0x11 ∧ key.head? ≠ some 0x20 ∧ key.head? ≠
    some 0x30

def Operation.Allowed : Operation → Prop
  | .set key value => PlainKey key ∧ value.length ≤ 3000
  | .delete key => PlainKey key
  | .row _ _ => True

/-- The same operation, up to the orders in which Go walks the indexes. -/
def Operation.Alike : Operation → Operation → Prop
  | .set key value, .set otherKey otherValue => key = otherKey ∧ value = otherValue
  | .delete key, .delete otherKey => key = otherKey
  | .row table method, .row otherTable otherMethod => table = otherTable ∧ method.Alike otherMethod
  | _, _ => False

/-- The call returned without an error. -/
def Outcome.Succeeded : Outcome → Prop
  | .unit (.ok _) | .value (.ok _) | .flag (.ok _) | .items (.ok _) | .handle (.ok _) | .row (.ok _)
  | .rows (.ok _) => True
  | _ => False

variable {σ : Type}

/-- One call after the other. -/
def System.perform (store : Store σ) (s : System σ) : List Call → List Outcome × System σ
  | [] => ([], s)
  | call :: rest =>
    let (outcomes, last) := (s.step store call).2.perform store rest
    ((s.step store call).1 :: outcomes, last)

/-- The mutations that a store takes: it refuses a batch exactly when it refuses one of its
mutations, and none within the limits. -/
structure Store.Takes (store : Store σ) (fits : Mutation → Prop) : Prop where
  limits : ∀ mutation : Mutation, mutation.withinLimits = true → fits mutation
  batch : ∀ state mutations,
    (store.applyBatch state mutations).1 = .ok () ↔ ∀ mutation ∈ mutations, fits mutation

/-- The mutations that a database takes. -/
def Database.Fits (fits : Mutation → Prop) (d : Database σ) (mutation : Mutation) : Prop :=
  if d.backend.inMemory then mutation.withinLimits = true else fits mutation

variable {store : Store σ} {view : σ → List Item} {fits : Mutation → Prop}

theorem translate_eq_ok {α : Type} {result : Except GoError α} {value : α} :
    translate result = .ok value ↔ result = .ok value := by
  cases result with
  | error err => exact iff_of_false nofun nofun
  | ok other => rfl

theorem Store.Takes.fits_of_limits (takes : store.Takes fits) (d : Database σ) {mutation : Mutation}
    (within : mutation.withinLimits = true) : d.Fits fits mutation := by
  rw [Database.Fits]
  split_ifs
  · exact within
  · exact takes.limits mutation within

theorem applyBatchLocked_eq_ok (takes : store.Takes fits) {d : Database σ}
    (isOpen : d.closed = false) {mutations : List Mutation} :
    (d.applyBatchLocked store mutations).1 = .ok () ↔ ∀ mutation ∈ mutations,
      d.Fits fits mutation := by
  rw [Database.applyBatchLocked, isOpen, if_neg Bool.false_ne_true]
  simp only [Database.Fits]
  cases d.backend with
  | memory data =>
    simp only [Backend.inMemory, if_true]
    by_cases exceeds : (mutations.any fun mutation => !mutation.withinLimits) = true
    · rw [if_pos exceeds]
      refine iff_of_false nofun fun all => ?_
      obtain ⟨mutation, mem, outside⟩ := any_eq_true.mp exceeds
      rw [all mutation mem] at outside
      cases outside
    · rw [if_neg exceeds]
      refine iff_of_true rfl fun mutation mem => ?_
      by_contra outside
      refine exceeds (any_eq_true.mpr ⟨mutation, mem, ?_⟩)
      rw [Bool.eq_false_iff.mpr outside]
      rfl
  | durable state => exact translate_eq_ok.trans (takes.batch state mutations)

/-- The mutations of a commit are the last changes. -/
theorem Tx.Holds.forall_mutations {tx : Tx} {journal : Changes}
    (holds : tx.Holds journal) {P : Mutation → Prop} : (∀ mutation ∈ tx.mutations, P mutation) ↔
      ∀ key change, latest journal key = some change → P ⟨key, change.value, change.delete⟩ := by
  rw [Tx.mutations, List.forall_mem_map]
  constructor
  · intro all key change found
    have accepted := all key ((holds.order key).mpr (found ▸ some_ne_none change))
    rw [holds.changes, found] at accepted
    exact accepted
  · intro all key ordered
    rw [holds.changes]
    cases found : latest journal key with
    | none => exact absurd found ((holds.order key).mp ordered)
    | some change => exact all key change found

/-! ## The two executions -/

/-- `t` executes within its transaction `i` what `s` executes directly. -/
structure Mirrors (view : σ → List Item) (fits : Mutation → Prop) (s t : System σ) (i : Nat)
    (journal : Changes) : Prop where
  isOpen : s.db.closed = false
  idle : s.db.writerActive = false
  stillOpen : t.db.closed = false
  sorted : Sorted (t.db.contents view)
  kind : s.db.backend.inMemory = t.db.backend.inMemory
  schemas : t.tables.map Table.schema = s.tables.map Table.schema
  tx : ∃ tx : Tx, t.txs[i]? = some tx ∧ tx.closed = false ∧ tx.readOnly = false ∧ tx.Holds journal
  contents : s.db.contents view = Journal.play (t.db.contents view) (writes journal)
  definitions : ∀ change ∈ journal, ∀ rest, change.key ≠ 0x11 :: rest
  fits : ∀ key change, Journal.latest journal key = some change →
    t.db.Fits fits ⟨key, change.value, change.delete⟩

namespace Mirrors

variable {s t : System σ} {i : Nat} {journal : Changes}
  (mirrors : Mirrors view fits s t i journal)
include mirrors

/-- Both executions read the same. -/
theorem overlaid_eq (key : Bytes) :
    overlaid (t.db.contents view) journal key = lookup (s.db.contents view) key := by
  rw [Db.overlaid_eq, mirrors.contents]

theorem sortedDirect : Sorted (s.db.contents view) := by
  rw [mirrors.contents]
  exact sorted_play mirrors.sorted _

/-- Both executions find the same definitions of indexes. -/
theorem indexesOf_eq (schema : TableSchema) :
    indexesOf (s.db.contents view) schema = indexesOf (t.db.contents view) schema := by
  refine indexesOf_congr mirrors.sortedDirect mirrors.sorted (fun rest => ?_) schema
  have untouched : latest (writes journal) (0x11 :: rest) = none := by
    rw [writes, latest_map, map_eq_none_iff]
    exact latest_eq_none fun change mem => mirrors.definitions change mem rest
  rw [mirrors.contents, lookup_play, untouched]
  rfl

variable {next : System σ} {tx : Tx} {key : Bytes}

/-- One more step on both sides. -/
theorem extend {after : System σ} {changes : Changes}
    (flags : next.db.closed = s.db.closed ∧ next.db.writerActive = s.db.writerActive ∧
      next.db.backend.inMemory = s.db.backend.inMemory)
    (published : next.db.contents view = play (s.db.contents view) (writes changes))
    (db : after.db = t.db) (schemas : after.tables.map Table.schema = next.tables.map Table.schema)
    (here : after.txs[i]? = some tx) (isOpen : tx.closed = false) (writes : tx.readOnly = false)
    (holds : tx.Holds (journal ++ changes)) (definitions : ∀ change ∈ changes, ∀ rest, change.key ≠
      0x11 :: rest)
    (fit : ∀ key change, latest changes key = some change →
      t.db.Fits fits ⟨key, change.value, change.delete⟩) :
    Mirrors view fits next after i (journal ++ changes) where
  isOpen := flags.1.trans mirrors.isOpen
  idle := flags.2.1.trans mirrors.idle
  stillOpen := db ▸ mirrors.stillOpen
  sorted := db ▸ mirrors.sorted
  kind := by rw [flags.2.2, mirrors.kind, db]
  schemas := schemas
  tx := ⟨tx, here, isOpen, writes, holds⟩
  contents := by
    rw [published, mirrors.contents, db, Db.writes, Db.writes, Db.writes, map_append, play_append]
  definitions := by
    intro change mem
    rcases mem_append.mp mem with old | new
    · exact mirrors.definitions change old
    · exact definitions change new
  fits := by
    intro key change found
    rw [db]
    rw [latest_append] at found
    cases last : latest changes key with
    | some latest =>
      rw [last] at found
      exact fit key change (last.trans found)
    | none =>
      rw [last, none_or] at found
      exact mirrors.fits key change found

/-- A key-value operation on both sides. -/
theorem extend_plain (takes : store.Takes fits)
    {changed : Tx} (plain : PlainKey key) (change : Change)
    (small : change.delete = true ∨ change.value.length ≤ 3000) (flags : s.db.SameFlags next.db)
    (tables : next.tables = s.tables)
    (published : next.db.contents view = play (s.db.contents view) [⟨key, change.result⟩])
    (here : t.txs[i]? = some tx) (isOpen : tx.closed = false) (readWrite : tx.readOnly = false)
    (holds : tx.Holds journal) (recorded : changed = tx.recordLocked key change) :
    Mirrors view fits next { t with db := t.db, txs := t.txs.set i changed } i
      (journal ++ [⟨key, change⟩]) := by
  obtain ⟨backend, kind, same⟩ := flags
  have within : (⟨key, change.value, change.delete⟩ : Mutation).withinLimits = true := by
    have size : key.length ≠ 0 := mt length_eq_zero_iff.mp plain.nonempty
    rw [Mutation.withinLimits, Bool.and_eq_true, Bool.and_eq_true, Bool.or_eq_true,
      decide_eq_true_eq, decide_eq_true_eq, decide_eq_true_eq]
    exact ⟨⟨size, plain.short⟩, small⟩
  have inside := (List.getElem?_eq_some_iff.mp here).1
  subst recorded
  refine mirrors.extend ⟨?_, ?_, ?_⟩ published rfl ?_ (List.getElem?_set_self inside) isOpen
    readWrite (holds.recordLocked key change) ?_ ?_
  · rw [same]
  · rw [same]
  · rw [same]
    exact kind
  · rw [tables]
    exact mirrors.schemas
  · intro entry mem rest
    obtain rfl := mem_singleton.mp mem
    rintro rfl
    exact plain.unreserved.2.1 rfl
  · intro other last found
    obtain ⟨rfl, rfl⟩ := Binding.mk.inj (mem_singleton.mp (mem_of_latest_eq_some found))
    exact takes.fits_of_limits t.db within

variable (exact : store.Exact view) (takes : store.Takes fits)
include exact takes

theorem step_set {value : Bytes} (plain : PlainKey key) (small : value.length ≤ 3000)
    (succeeded : (s.step store (.set key value)).1.Succeeded) :
    (t.step store (.txSet i key value)).1 = (s.step store (.set key value)).1 ∧
      ∃ journal', Mirrors view fits (s.step store (.set key value)).2
        (t.step store (.txSet i key value)).2 i journal' := by
  obtain ⟨tx, here, isOpen, readWrite, holds⟩ := mirrors.tx
  have direct : s.db.set store key value = s.db.setLocked store key value := by
    rw [Database.set, mirrors.isOpen, if_neg Bool.false_ne_true, mirrors.idle,
      if_neg Bool.false_ne_true, if_neg plain.nonempty]
  have buffered : tx.set t.db key value = (.ok (), tx.recordLocked key ⟨value, false⟩) := by
    rw [Tx.set, Tx.writable_eq_ok.mpr ⟨isOpen, mirrors.stillOpen, readWrite⟩]
    exact if_neg plain.nonempty
  have stepped : t.step store (.txSet i key value) =
      (.unit (.ok ()),
        { t with db := t.db, txs := t.txs.set i (tx.recordLocked key ⟨value, false⟩) }) := by
    rw [System.step, System.withTx, here]
    dsimp only
    rw [buffered]
  rw [System.step, direct] at succeeded ⊢
  rw [stepped]
  rcases setLocked_settles exact.toModels s.db key value with ⟨done, published⟩ | ⟨⟨err, failed⟩, -⟩
  · refine ⟨congrArg Outcome.unit done.symm, _, mirrors.extend_plain takes plain ⟨value, false⟩
      (.inr small) (setLocked_flags s.db key value) rfl published here isOpen readWrite holds rfl⟩
  · change (Outcome.unit (s.db.setLocked store key value).1).Succeeded at succeeded
    rw [failed] at succeeded
    cases succeeded

theorem step_delete (plain : PlainKey key)
    (succeeded : (s.step store (.delete key)).1.Succeeded) :
    (t.step store (.txDelete i key)).1 = (s.step store (.delete key)).1 ∧
      ∃ journal', Mirrors view fits (s.step store (.delete key)).2
        (t.step store (.txDelete i key)).2 i journal' := by
  obtain ⟨tx, here, isOpen, readWrite, holds⟩ := mirrors.tx
  have direct : s.db.delete store key = s.db.deleteLocked store key := by
    rw [Database.delete, mirrors.isOpen, if_neg Bool.false_ne_true, mirrors.idle,
      if_neg Bool.false_ne_true, if_neg plain.nonempty]
  have buffered : tx.delete store t.db key =
      (.ok (lookup (s.db.contents view) key).isSome, tx.recordLocked key ⟨[], true⟩) := by
    rw [Tx.delete, Tx.writable_eq_ok.mpr ⟨isOpen, mirrors.stillOpen, readWrite⟩]
    dsimp only
    rw [if_neg plain.nonempty, holds.valueLocked_eq exact.toModels t.db plain.nonempty,
      mirrors.overlaid_eq]
  have stepped : t.step store (.txDelete i key) =
      (.flag (.ok (lookup (s.db.contents view) key).isSome),
        { t with db := t.db, txs := t.txs.set i (tx.recordLocked key ⟨[], true⟩) }) := by
    rw [System.step, System.withTx, here]
    dsimp only
    rw [buffered]
  rw [System.step, direct] at succeeded ⊢
  rw [stepped]
  rcases deleteLocked_settles exact.toModels s.db key with ⟨done, published⟩ | ⟨⟨err, failed⟩, -⟩
  · refine ⟨congrArg Outcome.flag done.symm, _, mirrors.extend_plain takes plain ⟨[], true⟩
      (.inl rfl) (deleteLocked_flags s.db key) rfl published here isOpen readWrite holds rfl⟩
  · change (Outcome.flag (s.db.deleteLocked store key).1).Succeeded at succeeded
    rw [failed] at succeeded
    cases succeeded

theorem step_row (table : Nat) {method other : RowMethod} (alike : method.Alike other)
    (succeeded : (s.step store (.tableRow table method)).1.Succeeded) :
    (t.step store (.txRow i (some table) other)).1 = (s.step store (.tableRow table method)).1 ∧
      ∃ journal', Mirrors view fits (s.step store (.tableRow table method)).2
        (t.step store (.txRow i (some table) other)).2 i journal' := by
  obtain ⟨tx, here, isOpen, readWrite, holds⟩ := mirrors.tx
  have schemas : t.tables[table]?.map Table.schema = s.tables[table]?.map Table.schema := by
    rw [← List.getElem?_map, ← List.getElem?_map, mirrors.schemas]
  rw [System.step, System.withTable] at succeeded ⊢
  cases found : s.tables[table]? with
  | none =>
    rw [found] at succeeded
    cases succeeded
  | some held =>
    rw [found] at succeeded schemas
    dsimp only at succeeded ⊢
    obtain ⟨handle, foundThere, sameSchema⟩ := map_eq_some_iff.mp schemas
    rcases mutate_spec exact.toModels mirrors.sortedDirect held (method.change store s.db) with
      ⟨⟨err, failed⟩, -⟩ | ⟨indexes, flag, changes, -, -, loaded, changed, done, applied, published⟩
    · rw [failed] at succeeded
      cases succeeded
    -- Both sides read the same indexes and the same rows.
    rw [loadIndexesLocked_exact (rangeLocked_unbounded exact ..)] at loaded
    have names := indexesOf_names loaded
    have loadedThere : loadIndexesLocked store t.db handle.schema = .ok indexes := by
      rw [loadIndexesLocked_exact (rangeLocked_unbounded exact ..), sameSchema,
        ← mirrors.indexesOf_eq]
      exact loaded
    have readingDirect : Reading store s.db .empty (lookup (s.db.contents view)) :=
      fun key nonempty => (Tx.holds_begin false).valueLocked_eq exact.toModels s.db nonempty
    have readingWithin : Reading store t.db tx (lookup (s.db.contents view)) := by
      intro key nonempty
      rw [holds.valueLocked_eq exact.toModels t.db nonempty, mirrors.overlaid_eq]
    obtain ⟨reordered, yields, latest⟩ :=
      ((change_eq_ok readingDirect).mp changed).alike names alike
    have recorded : tx.mutateTable store t.db (some handle) (other.change store t.db) =
        (.ok flag, tx.recordAll reordered, some { handle with indexes := indexes }) := by
      have accepted : other.change store t.db { handle with indexes := indexes } tx =
        .ok (flag, reordered) := by
        apply (change_eq_ok readingWithin).mpr
        dsimp only
        rw [sameSchema]
        exact yields
      rw [Tx.mutateTable, Tx.writable_eq_ok.mpr ⟨isOpen, mirrors.stillOpen, readWrite⟩]
      dsimp only
      rw [Table.refreshIndexesLocked, loadedThere]
      dsimp only
      rw [accepted]
    have stepped : t.step store (.txRow i (some table) other) =
        (.flag (.ok flag), { t with
          txs := t.txs.set i (tx.recordAll reordered)
          tables := t.tables.set table { handle with indexes := indexes } }) := by
      rw [System.step, System.txRow, here, bind_some, foundThere]
      dsimp only
      rw [recorded]
    rw [stepped]
    refine ⟨congrArg Outcome.flag done.symm, journal ++ reordered, ?_⟩
    have inside := (List.getElem?_eq_some_iff.mp here).1
    have flags := recordAll_flags tx reordered
    refine mirrors.extend ?_ ?_ rfl ?_ (List.getElem?_set_self inside) (flags.2.trans isOpen)
      (flags.1.trans readWrite) (holds.recordAll reordered) ?_ ?_
    · rcases mutate_guarded s.db held (method.change store s.db) with same |
        ⟨-, -, backend, kind, same⟩
      · dsimp only
        rw [same]
        exact ⟨rfl, rfl, rfl⟩
      · dsimp only
        rw [same]
        exact ⟨rfl, rfl, kind⟩
    · refine Eq.trans published (play_congr mirrors.sortedDirect fun key => ?_)
      rw [writes, writes, latest_map, latest_map, latest]
    · dsimp only
      rw [map_set, map_set, mirrors.schemas, sameSchema, mutate_schema]
    · intro change mem rest same
      obtain ⟨tail, row | entry⟩ := yields.kind change mem
      · exact absurd (List.cons.inj (row.symm.trans same)).1 (by decide)
      · exact absurd (List.cons.inj (entry.symm.trans same)).1 (by decide)
    · intro key change last
      have all := (applyBatchLocked_eq_ok takes mirrors.isOpen).mp applied
      have holdsDirect : (Tx.empty.recordAll changes).Holds changes :=
        (Tx.holds_begin false).recordAll changes
      rw [holdsDirect.forall_mutations] at all
      have fit := all key change ((latest key).symm.trans last)
      rw [Database.Fits, mirrors.kind] at fit
      exact fit

theorem step {operation other : Operation} (allowed : operation.Allowed)
    (alike : operation.Alike other) (succeeded : (s.step store operation.direct).1.Succeeded) :
    (t.step store (other.within i)).1 = (s.step store operation.direct).1 ∧
      ∃ journal', Mirrors view fits (s.step store operation.direct).2
        (t.step store (other.within i)).2 i journal' := by
  cases operation with
  | set key value =>
    cases other with
    | set otherKey otherValue =>
      obtain ⟨rfl, rfl⟩ := alike
      exact mirrors.step_set exact takes allowed.1 allowed.2 succeeded
    | delete | row => cases alike
  | delete key =>
    cases other with
    | delete otherKey =>
      obtain rfl : key = otherKey := alike
      exact mirrors.step_delete exact takes allowed succeeded
    | set | row => cases alike
  | row table method =>
    cases other with
    | row otherTable otherMethod =>
      obtain ⟨rfl, alike⟩ := alike
      exact mirrors.step_row exact takes table alike succeeded
    | set | delete => cases alike

theorem run {operations others : List Operation}
    (allowed : ∀ operation ∈ operations, operation.Allowed)
    (alike : List.Forall₂ Operation.Alike operations others)
    (succeeded : ∀ outcome ∈ (s.perform store (operations.map Operation.direct)).1,
      outcome.Succeeded) :
    (t.perform store (others.map (Operation.within i))).1 =
        (s.perform store (operations.map Operation.direct)).1 ∧
      ∃ journal', Mirrors view fits (s.perform store (operations.map Operation.direct)).2
        (t.perform store (others.map (Operation.within i))).2 i journal' := by
  induction alike generalizing s t journal with
  | nil => exact ⟨rfl, journal, mirrors⟩
  | @cons operation other rest otherRest here _ ih =>
    obtain ⟨first, restAllowed⟩ := forall_mem_cons.mp allowed
    obtain ⟨now, later⟩ := forall_mem_cons.mp succeeded
    obtain ⟨same, journal', next⟩ := mirrors.step exact takes first here now
    obtain ⟨sameRest, last⟩ := ih next restAllowed later
    refine ⟨?_, last⟩
    rw [map_cons, map_cons, System.perform, System.perform]
    dsimp only
    rw [same, sameRest]

/-- The commit at the end. -/
theorem commit : (t.step store (.commit i)).1 = .unit (.ok ()) ∧
      (t.step store (.commit i)).2.db.contents view = s.db.contents view := by
  obtain ⟨tx, here, isOpen, readWrite, holds⟩ := mirrors.tx
  have applied : (t.db.applyBatchLocked store tx.mutations).1 = .ok () := by
    rw [applyBatchLocked_eq_ok takes mirrors.stillOpen, holds.forall_mutations]
    exact mirrors.fits
  have committed : (tx.commitLocked store t.db).1 = .ok () := by
    rw [Tx.commitLocked, Tx.usable_of_open isOpen mirrors.stillOpen]
    dsimp only
    rw [readWrite, if_neg Bool.false_ne_true, applied]
  rw [System.step, System.withTx, here]
  refine ⟨congrArg Outcome.unit committed, ?_⟩
  rw [mirrors.contents]
  exact (holds.commitLocked_settles exact.toModels mirrors.sorted).published committed

end Mirrors

/-- Operations that succeed one by one also succeed within a transaction, with the same
results; its commit succeeds and leaves the same contents. -/
theorem transaction_equivalent (exact : store.Exact view) (takes : store.Takes fits) {s : System σ}
    (isOpen : s.db.closed = false) (idle : s.db.writerActive = false)
    (sorted : Sorted (s.db.contents view)) {operations others : List Operation}
    (allowed : ∀ operation ∈ operations, operation.Allowed)
    (alike : List.Forall₂ Operation.Alike operations others)
    (succeeded : ∀ outcome ∈ (s.perform store (operations.map Operation.direct)).1,
      outcome.Succeeded) :
    ∃ tx begun, s.step store (.begin false) = (.handle (.ok tx), begun) ∧
      (begun.perform store (others.map (Operation.within tx))).1 =
        (s.perform store (operations.map Operation.direct)).1 ∧
      ((begun.perform store (others.map (Operation.within tx))).2.step store (.commit tx)).1 =
        .unit (.ok ()) ∧
      ((begun.perform store (others.map (Operation.within tx))).2.step store
        (.commit tx)).2.db.contents view =
          (s.perform store (operations.map Operation.direct)).2.db.contents view := by
  have begins : s.step store (.begin false) = (.handle (.ok s.txs.length),
      { s with db := { s.db with writerActive := true }, txs := s.txs ++
        [⟨false, false, [], []⟩] }) := by
    have admitted : ¬ (¬ false = true ∧ s.db.writerActive = true) := fun busy =>
      Bool.false_ne_true (idle.symm.trans busy.2)
    rw [System.step, Database.begin, if_neg (Bool.eq_false_iff.mp isOpen), if_neg admitted]
    rfl
  have mirrors : Mirrors view fits s
      { s with db := { s.db with writerActive := true }, txs := s.txs ++ [⟨false, false, [], []⟩] }
      s.txs.length [] := by
    refine ⟨isOpen, idle, isOpen, sorted, rfl, rfl,
      ⟨⟨false, false, [], []⟩, ?_, rfl, rfl, Tx.holds_begin false⟩, rfl, fun _ mem =>
        absurd mem List.not_mem_nil, by rintro _ _ ⟨⟩⟩
    exact List.getElem?_concat_length
  obtain ⟨same, journal, last⟩ := mirrors.run exact takes allowed alike succeeded
  exact ⟨_, _, begins, same, last.commit exact takes⟩

theorem mapStore_takes : mapStore.Takes fun mutation => mutation.withinLimits = true where
  limits _ within := within
  batch state mutations := by
    rw [mapStore]
    dsimp only
    split_ifs with all
    · exact iff_of_true rfl (all_eq_true.mp all)
    · exact iff_of_false (by rintro ⟨⟩) fun every => all (all_eq_true.mpr every)

/-- A new database with a table. -/
def oneTable : System SortedItems :=
  ((System.opened (.memory [])).step mapStore (.createTable flagSchema)).2

/-- A key that is set and deleted, and a row that is inserted. -/
def mixed : List Operation :=
  [.set [1] [2], .delete [1], .row 0 (.insert [⟨[1], .string [7]⟩] .sorted)]

theorem transaction_equivalent_row :
    ∃ tx begun, oneTable.step mapStore (.begin false) = (.handle (.ok tx), begun) ∧
      (begun.perform mapStore (mixed.map (Operation.within tx))).1 =
        [.unit (.ok ()), .flag (.ok true), .flag (.ok true)] ∧
      (SortedMap.lookup (((begun.perform mapStore (mixed.map (Operation.within tx))).2.step mapStore
        (.commit tx)).2.db.contents Subtype.val) (rowPrefix [1] ++ [7])).isSome := by
  have plain : PlainKey [1] := ⟨List.cons_ne_nil _ _, by decide, by decide⟩
  have allowed : ∀ operation ∈ mixed, operation.Allowed := List.forall_mem_cons.mpr
    ⟨⟨plain, by decide⟩, List.forall_mem_cons.mpr ⟨plain, List.forall_mem_singleton.mpr trivial⟩⟩
  have alike : List.Forall₂ Operation.Alike mixed mixed :=
    .cons ⟨rfl, rfl⟩ (.cons rfl (.cons ⟨rfl, rfl⟩ .nil))
  have outcomes : (oneTable.perform mapStore (mixed.map Operation.direct)).1 =
      [.unit (.ok ()), .flag (.ok true), .flag (.ok true)] := rfl
  have sorted : Sorted (oneTable.db.contents Subtype.val) := by
    rw [Sorted]
    decide +kernel
  obtain ⟨tx, begun, begins, same, -, published⟩ := transaction_equivalent mapStore_exact
    mapStore_takes (s := oneTable) rfl rfl sorted allowed alike
    (by rw [outcomes]; simp [Outcome.Succeeded])
  refine ⟨tx, begun, begins, same.trans outcomes, ?_⟩
  rw [published]
  decide +kernel

end GoDatabase.Db
