import GoDatabase.Library.Bytes

/-!
# Go error values

An error is a sentinel made by `errors.New`, a formatted error, a formatted error
that wraps another one with `%w`, or the join of two errors.  The format string
and its arguments are kept apart, so that an error carries exactly what the source
passes to `fmt.Errorf`; rendering them to one text is left to the reader.
-/

namespace Library

open List

/-- A formatted argument. -/
inductive ErrorArg where
  | int (value : Nat)
  | bytes (value : Bytes)
  | text (value : String)
  deriving DecidableEq, Repr

/-- A non-nil Go error. -/
inductive GoError where
  | sentinel (text : String)
  | errorf (format : String) (args : List ErrorArg)
  | wrap (format : String) (args : List ErrorArg) (inner : GoError)
  | join (left right : GoError)
  deriving DecidableEq, Repr

namespace GoError

/-- `errors.Is`: the target occurs among the wrapped errors. -/
def is : GoError → (target : GoError) → Bool
  | .sentinel text, target => .sentinel text = target
  | .errorf format args, target => .errorf format args = target
  | .wrap format args inner, target => .wrap format args inner = target || is inner target
  | .join left right, target => .join left right = target || is left target || is right target

theorem is_sentinel (text : String) : is (.sentinel text) (.sentinel text) = true := by
  rw [is, decide_eq_true_eq]

end GoError

variable {α β : Type} {condition : Prop} {err : GoError} {rest : Except GoError α}

theorem ok_bind {ε : Type} (value : α) (next : α → Except ε β) :
    ((.ok value : Except ε α) >>= next) = next value := rfl

/-- A sequence succeeds when both of its steps do. -/
theorem bind_ok_iff {first : Except GoError α} {next : α → Except GoError β} {value : β} :
    (first >>= next) = .ok value ↔ ∃ middle, first = .ok middle ∧ next middle = .ok value := by
  cases first with
  | error err =>
    refine iff_of_false nofun ?_
    rintro ⟨_, failed, -⟩
    cases failed
  | ok middle =>
    refine ⟨fun done => ⟨middle, rfl, done⟩, ?_⟩
    rintro ⟨_, same, done⟩
    cases same
    exact done

/-- A checked condition is passed exactly when it does not hold. -/
theorem guard_eq_ok [Decidable condition] {value : α} :
    (if condition then .error err else rest) = .ok value ↔ ¬ condition ∧ rest = .ok value := by
  by_cases failed : condition
  · simp [failed]
  · simp [failed]

/-- A check that fails the same way with and without the panics of what follows it. -/
theorem some_guard [Decidable condition] {checked : Option (Except GoError α)}
    (agree : ¬ condition → checked = some rest) :
    (if condition then some (.error err) else checked) =
      some (if condition then .error err else rest) := by
  by_cases failed : condition
  · rw [if_pos failed, if_pos failed]
  · rw [if_neg failed, if_neg failed, agree failed]

/-! ## Counting loops -/

/-- What every round of a loop keeps. -/
theorem foldl_range_keeps {σ : Type} {step : σ → Nat → σ} {invariant : Nat → σ → Prop} :
    ∀ {count : Nat} {start : σ}, invariant 0 start →
    (∀ idx state, idx < count → invariant idx state → invariant (idx + 1) (step state idx)) →
    invariant count ((List.range count).foldl step start) := by
  intro count
  induction count with
  | zero => exact fun holds _ => holds
  | succ count ih =>
    intro start holds kept
    rw [range_succ, foldl_append, foldl_cons, foldl_nil]
    exact kept count _ (Nat.lt_succ_self count)
      (ih holds fun idx state inside => kept idx state (Nat.lt_succ_of_lt inside))

section Loops

variable {σ : Type} {step : σ → Nat → Except GoError σ} {invariant : Nat → σ → Prop}

theorem foldlM_range_succ (count : Nat) (start : σ) : (List.range (count + 1)).foldlM step start =
      (List.range count).foldlM step start >>= fun state => step state count := by
  rw [range_succ, foldlM_append]
  congr 1
  funext state
  rw [foldlM_cons]
  cases step state count with
  | error err => rfl
  | ok next => rfl

/-- What every round keeps holds after a loop that succeeds. -/
theorem foldlM_range_ok : ∀ {count : Nat} {start last : σ},
    (List.range count).foldlM step start = .ok last → invariant 0 start →
    (∀ idx state next, idx < count → invariant idx state → step state idx = .ok next →
      invariant (idx + 1) next) → invariant count last := by
  intro count
  induction count with
  | zero =>
    intro start last run holds _
    cases run
    exact holds
  | succ count ih =>
    intro start last run holds kept
    rw [foldlM_range_succ, bind_ok_iff] at run
    obtain ⟨state, before, here⟩ := run
    refine kept count state last (Nat.lt_succ_self count) (ih before holds ?_) here
    exact fun idx state next inside => kept idx state next (Nat.lt_succ_of_lt inside)

end Loops

end Library
