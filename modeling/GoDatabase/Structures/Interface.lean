import GoDatabase.Library.Erasure
import GoDatabase.Library.GoError
import GoDatabase.Library.SortedMap

/-!
# The key-value interface of the educational structures

`internal/structures/interface.go` and the trace sinks of `internal/trace`.  A structure
with this interface is a record of operations on its state; `none` is a panic.  An ordered
map is the common meaning of the structures: `answer` is what each call returns and
leaves, and a structure implements it if its states stand for ordered maps throughout.
-/

namespace GoDatabase.Structures

open Library SortedMap Option

/-! ## Tracing -/

/-- `trace.EventType`, with the values that the structures write out as text. -/
inductive EventType where
  | lookup | comparison | traversal | mutation | split | merge
  | cacheHit | cacheMiss | cacheEviction | cacheFill | cacheInvalidation | cacheBypass
  deriving DecidableEq, Repr

/-- `trace.Event`: the fields that do not name a run, a pointer or a sequence number.  The
detail text may end in a key, `operand`. -/
structure Event where
  type : EventType
  structureName : String
  layer : String
  key : Bytes
  keys : List Bytes
  detail : String
  operand : Bytes

/-- `trace.Sink`, as an interface to whatever is behind it. -/
class Sink (τ : Type) where
  enabled : τ → Bool
  emit : τ → Event → τ

/-- `trace.Recorder`: the events in the order of their sequence numbers. -/
structure Recorder where
  events : List Event

instance : Sink Recorder := ⟨fun _ => true, fun recorder event => ⟨recorder.events ++ [event]⟩⟩

/-- Code that may report to an attached sink. -/
abbrev Traced (τ : Type) := StateT (Option τ) Option

section Tracing

variable {τ : Type} [Sink τ]

/-- `sink != nil && sink.Enabled()` -/
def listening : Option τ → Bool
  | none => false
  | some sink => Sink.enabled sink

/-- What an event makes of the sink. -/
def record (event : Event) : Option τ → Option τ
  | none => none
  | some sink => if Sink.enabled sink then some (Sink.emit sink event) else some sink

def emit (event : Event) : Traced τ Unit := fun sink => some ((), record event sink)

theorem emit_erases (event : Event) : Erases (emit event : Traced τ Unit) (some ()) := fun _ => rfl

theorem emit_andThen {α : Type} {event : Event} {computation : Traced τ α} {result : Option α}
    (rest : Erases computation result) : Erases (do emit event; computation) result :=
  .andThen (emit_erases event) rest

end Tracing

/-- A structure and the sink attached to it. -/
structure Observed (α τ : Type) where
  data : α
  sink : Option τ

/-- A method of an observed structure. -/
def method {α β τ : Type} (body : α → Traced τ (β × α)) : StateT (Observed α τ) Option β :=
  fun observed => do
    let ((result, data), sink) ← body observed.data observed.sink
    some (result, ⟨data, sink⟩)

/-- A method returns what its body returns without the reports. -/
theorem method_eq {α β τ : Type} (body : α → Traced τ (β × α)) (observed : Observed α τ)
    {result : β} {data : α} (erases : Erases (body observed.data) (some (result, data))) :
    ∃ sink, method body observed = some (result, ⟨data, sink⟩) := by
  obtain ⟨sink, ran⟩ := erases.exists_state observed.sink
  exact ⟨sink, by rw [method, ran]; rfl⟩

/-! ## The interface -/

/-- The results of `Get`. -/
structure Lookup where
  value : Bytes
  found : Bool
  err : Option GoError

/-- The results of `Range`. -/
structure Scan where
  entries : List (Binding Bytes Bytes)
  err : Option GoError

/-- The results of `Delete`. -/
structure Removal where
  found : Bool
  err : Option GoError

/-- `KV` -/
structure KV (σ : Type) where
  get : Bytes → StateT σ Option Lookup
  range : Bytes → Bytes → StateT σ Option Scan
  set : Bytes → Bytes → StateT σ Option (Option GoError)
  delete : Bytes → StateT σ Option Removal

inductive Call where
  | get (key : Bytes)
  | range (start stop : Bytes)
  | set (key value : Bytes)
  | delete (key : Bytes)
  deriving DecidableEq

inductive Outcome where
  | got (lookup : Lookup)
  | ranged (scan : Scan)
  | stored (err : Option GoError)
  | removed (removal : Removal)

def Outcome.err : Outcome → Option GoError
  | got lookup => lookup.err
  | ranged scan => scan.err
  | stored err => err
  | removed removal => removal.err

namespace KV

variable {σ : Type} (kv : KV σ)

def call : Call → StateT σ Option Outcome
  | .get key => do
    let lookup ← kv.get key
    pure (.got lookup)
  | .range start stop => do
    let scan ← kv.range start stop
    pure (.ranged scan)
  | .set key value => do
    let err ← kv.set key value
    pure (.stored err)
  | .delete key => do
    let removal ← kv.delete key
    pure (.removed removal)

/-- A sequence of calls and what each of them returned. -/
def run : List Call → StateT σ Option (List Outcome)
  | [] => pure []
  | call :: calls => do
    let outcome ← kv.call call
    let outcomes ← run calls
    pure (outcome :: outcomes)

variable {kv} {state next : σ}

variable {key : Bytes}

theorem call_get {lookup : Lookup} (ran : kv.get key state = some (lookup, next)) :
    kv.call (.get key) state = some (.got lookup, next) := by
  simp only [call, bind, StateT.bind, ran]
  rfl

theorem call_range {start stop : Bytes} {scan : Scan}
    (ran : kv.range start stop state = some (scan, next)) :
    kv.call (.range start stop) state = some (.ranged scan, next) := by
  simp only [call, bind, StateT.bind, ran]
  rfl

theorem call_set {value : Bytes} {err : Option GoError}
    (ran : kv.set key value state = some (err, next)) :
    kv.call (.set key value) state = some (.stored err, next) := by
  simp only [call, bind, StateT.bind, ran]
  rfl

theorem call_delete {removal : Removal} (ran : kv.delete key state = some (removal, next)) :
    kv.call (.delete key) state = some (.removed removal, next) := by
  simp only [call, bind, StateT.bind, ran]
  rfl

/-- One more call at the end of a run. -/
theorem run_snoc {calls : List Call} {call : Call} {outcomes : List Outcome} {outcome : Outcome}
    {last : σ} : ∀ {state : σ}, kv.run calls state = some (outcomes, next) →
      kv.call call next = some (outcome, last) →
        kv.run (calls ++ [call]) state = some (outcomes ++ [outcome], last) := by
  induction calls generalizing outcomes with
  | nil =>
    intro state ran called
    cases ran
    simp only [List.nil_append, run, bind, StateT.bind, called]
    rfl
  | cons first calls ih =>
    intro state ran called
    simp only [run, bind, StateT.bind, bind_eq_some_iff] at ran
    obtain ⟨⟨firstOutcome, between⟩, began, ⟨rest, reached⟩, continued, same⟩ := ran
    cases same
    simp only [List.cons_append, run, bind, StateT.bind, began, bind_some,
      ih continued called]
    rfl

end KV

/-! ## Ordered maps -/

/-- What a call on an ordered map returns, and the map it leaves. -/
def answer (contents : List (Binding Bytes Bytes)) : Call → Outcome × List (Binding Bytes Bytes)
  | .get key =>
    (.got ⟨(lookup contents key).getD [], (lookup contents key).isSome, none⟩,
      contents)
  | .range start stop =>
    (.ranged ⟨contents.filter fun entry => start ≤ entry.key ∧ entry.key ≤ stop, none⟩, contents)
  | .set key value => (.stored none, put key value contents)
  | .delete key =>
    (.removed ⟨(lookup contents key).isSome, none⟩, erase key contents)

/-- A range read from the first key that is not below its start. -/
theorem filter_from_cut {left right : List (Binding Bytes Bytes)} {start stop : Bytes}
    (below : ∀ entry ∈ left, entry.key < start) (above : ∀ entry ∈ right, start ≤ entry.key) :
    ((left ++ right).filter fun entry => start ≤ entry.key ∧ entry.key ≤ stop) =
      right.filter fun entry => entry.key ≤ stop := by
  rw [List.filter_append, List.filter_eq_nil_iff.mpr, List.nil_append]
  · exact List.filter_congr fun entry mem => by simp [above entry mem]
  · intro entry mem inRange
    simp only [decide_eq_true_eq] at inRange
    exact absurd (below entry mem) (not_lt.mpr inRange.1)

def answers (contents : List (Binding Bytes Bytes)) : List Call → List Outcome
  | [] => []
  | call :: calls => (answer contents call).1 :: answers (answer contents call).2 calls

theorem err_answers {contents : List (Binding Bytes Bytes)} {calls : List Call} :
    ∀ outcome ∈ answers contents calls, outcome.err = none := by
  induction calls generalizing contents with
  | nil => nofun
  | cons call calls ih =>
    refine List.forall_mem_cons.mpr ⟨?_, ih⟩
    cases call <;> rfl

/-- The methods of a structure that reports to a sink. -/
structure Methods (α τ : Type) where
  get : α → Bytes → Traced τ (Lookup × α)
  range : α → Bytes → Bytes → Traced τ (Scan × α)
  set : α → Bytes → Bytes → Traced τ (Option GoError × α)
  delete : α → Bytes → Traced τ (Removal × α)

def Methods.kv {α τ : Type} (methods : Methods α τ) : KV (Observed α τ) where
  get key := method fun data => methods.get data key
  range start stop := method fun data => methods.range data start stop
  set key value := method fun data => methods.set data key value
  delete key := method fun data => methods.delete data key

/-- The states of a structure stand for ordered maps, method by method. -/
structure Implements {α τ : Type} (methods : Methods α τ)
    (stands : α → List (Binding Bytes Bytes) → Prop) : Prop where
  get : ∀ {data contents}, stands data contents → ∀ key, ∃ next,
    Erases (methods.get data key) (some (⟨(lookup contents key).getD [],
      (lookup contents key).isSome, none⟩, next)) ∧ stands next contents
  range : ∀ {data contents}, stands data contents → ∀ start stop, ∃ next,
    Erases (methods.range data start stop)
      (some (⟨contents.filter fun entry => start ≤ entry.key ∧ entry.key ≤ stop, none⟩, next)) ∧
      stands next contents
  set : ∀ {data contents}, stands data contents → ∀ key value, ∃ next,
    Erases (methods.set data key value) (some (none, next)) ∧
      stands next (put key value contents)
  delete : ∀ {data contents}, stands data contents → ∀ key, ∃ next,
    Erases (methods.delete data key) (some (⟨(lookup contents key).isSome, none⟩, next)) ∧
      stands next (erase key contents)

namespace Implements

variable {α τ : Type} {methods : Methods α τ} {stands : α → List (Binding Bytes Bytes) → Prop}

section Method

variable {observed : Observed α τ} {contents : List (Binding Bytes Bytes)}

section

variable (implements : Implements methods stands) (standing : stands observed.data contents)
include implements standing

theorem kv_get
    (key : Bytes) : ∃ next, methods.kv.get key observed = some (⟨(lookup contents key).getD [],
      (lookup contents key).isSome, none⟩, next) ∧ stands next.data contents := by
  obtain ⟨data, erases, standingNext⟩ := implements.get standing key
  obtain ⟨sink, ran⟩ := method_eq (fun data => methods.get data key) observed erases
  exact ⟨⟨data, sink⟩, ran, standingNext⟩

theorem kv_range (start stop : Bytes) : ∃ next, methods.kv.range start stop observed =
      some (⟨contents.filter fun entry => start ≤ entry.key ∧ entry.key ≤ stop, none⟩, next) ∧
      stands next.data contents := by
  obtain ⟨data, erases, standingNext⟩ := implements.range standing start stop
  obtain ⟨sink, ran⟩ := method_eq (fun data => methods.range data start stop) observed erases
  exact ⟨⟨data, sink⟩, ran, standingNext⟩

theorem kv_set (key value : Bytes) : ∃ next, methods.kv.set key value observed = some (none, next) ∧
      stands next.data (put key value contents) := by
  obtain ⟨data, erases, standingNext⟩ := implements.set standing key value
  obtain ⟨sink, ran⟩ := method_eq (fun data => methods.set data key value) observed erases
  exact ⟨⟨data, sink⟩, ran, standingNext⟩

theorem kv_delete (key : Bytes) : ∃ next,
      methods.kv.delete key observed = some (⟨(lookup contents key).isSome, none⟩, next) ∧
      stands next.data (erase key contents) := by
  obtain ⟨data, erases, standingNext⟩ := implements.delete standing key
  obtain ⟨sink, ran⟩ := method_eq (fun data => methods.delete data key) observed erases
  exact ⟨⟨data, sink⟩, ran, standingNext⟩

end

/-- Every call on a structure returns what the ordered map answers. -/
theorem call (implements : Implements methods stands) (standing : stands observed.data contents)
    (call : Call) : ∃ next, methods.kv.call call observed = some ((answer contents call).1, next) ∧
      stands next.data (answer contents call).2 := by
  cases call with
  | get key =>
    obtain ⟨next, ran, standingNext⟩ := implements.kv_get standing key
    exact ⟨next, KV.call_get ran, standingNext⟩
  | range start stop =>
    obtain ⟨next, ran, standingNext⟩ := implements.kv_range standing start stop
    exact ⟨next, KV.call_range ran, standingNext⟩
  | set key value =>
    obtain ⟨next, ran, standingNext⟩ := implements.kv_set standing key value
    exact ⟨next, KV.call_set ran, standingNext⟩
  | delete key =>
    obtain ⟨next, ran, standingNext⟩ := implements.kv_delete standing key
    exact ⟨next, KV.call_delete ran, standingNext⟩

end Method

end Implements

/-! ## Runs with changing sinks -/

/-- A call, or `SetTrace`. -/
inductive Step (τ : Type) where
  | call (call : Call)
  | setTrace (sink : Option τ)

/-- The calls of a run. -/
def Step.calls {τ : Type} : List (Step τ) → List Call
  | [] => []
  | .call made :: steps => made :: calls steps
  | .setTrace _ :: steps => calls steps

/-- The outcomes of the calls of a run. -/
def runSteps {α τ : Type} (kv : KV (Observed α τ)) : List (Step τ) →
    StateT (Observed α τ) Option (List Outcome)
  | [] => pure []
  | .call call :: steps => do
    let outcome ← kv.call call
    let outcomes ← runSteps kv steps
    pure (outcome :: outcomes)
  | .setTrace sink :: steps => do
    modify fun observed => { observed with sink := sink }
    runSteps kv steps

/-- A structure that implements an ordered map answers as one, whatever sinks are attached. -/
theorem Implements.runSteps_eq {α τ : Type} {methods : Methods α τ}
    {stands : α → List (Binding Bytes Bytes) → Prop} (implements : Implements methods stands)
    {steps : List (Step τ)} : ∀ {observed contents}, stands observed.data contents →
      ∃ final, runSteps methods.kv steps observed =
        some (answers contents (Step.calls steps), final) := by
  induction steps with
  | nil => exact fun _ => ⟨_, rfl⟩
  | cons step steps ih =>
    intro observed contents standing
    cases step with
    | call call =>
      obtain ⟨next, called, standingNext⟩ := implements.call standing call
      obtain ⟨final, rest⟩ := ih standingNext
      refine ⟨final, ?_⟩
      simp only [runSteps, bind, StateT.bind, called, bind_some, rest]
      rfl
    | setTrace sink =>
      have same : stands ({ observed with sink := sink } : Observed α τ).data contents := standing
      exact ih same

end GoDatabase.Structures
