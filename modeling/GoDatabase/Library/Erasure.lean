import GoDatabase.Library.Search

/-!
# Computations that only write to their state

A program that reports what it does to an observer has the result of the program without
the reports.  `Erases` says so of a computation over a state that may panic (`none`); its
rules follow the structure of the computation.
-/

namespace Library

/-- Whatever the state, the computation has this result. -/
def Erases {τ α : Type} (computation : StateT τ Option α) (result : Option α) : Prop :=
  ∀ state, (computation state).map Prod.fst = result

namespace Erases

variable {τ α β : Type} {computation : StateT τ Option α} {result : Option α}

theorem pure (value : α) : Erases (pure value : StateT τ Option α) (some value) := fun _ => rfl

theorem lift (result : Option α) : Erases (StateT.lift result : StateT τ Option α) result := by
  intro state
  cases result with
  | none => rfl
  | some value => rfl

theorem bind {next : α → StateT τ Option β} {after : α → Option β}
    (first : Erases computation result) (second : ∀ value, Erases (next value) (after value)) :
    Erases (computation >>= next) (result >>= after) := by
  intro state
  have start := first state
  change ((computation state).bind fun step => next step.1 step.2).map Prod.fst = result.bind after
  cases ran : computation state with
  | none =>
    rw [ran] at start
    rw [← start]
    rfl
  | some step =>
    rw [ran] at start
    rw [← start]
    exact second step.1 step.2

variable {value : α}

/-- A step of which the result is known. -/
theorem step {next : α → StateT τ Option β} {after : Option β}
    (first : Erases computation (some value)) (second : Erases (next value) after) :
    Erases (computation >>= next) after := by
  intro state
  obtain ⟨⟨_, reached⟩, ran, rfl⟩ := Option.map_eq_some_iff.mp (first state)
  change ((computation state).bind fun step => next step.1 step.2).map Prod.fst = after
  rw [ran]
  exact second reached

/-- A report before a computation. -/
theorem andThen {report : StateT τ Option Unit} (reported : Erases report (some ()))
    (rest : Erases computation result) : Erases (do report; computation) result :=
  step reported rest

/-- Whatever the computation does with the state that it reads. -/
theorem whatever {next : τ → StateT τ Option α} (same : ∀ state, Erases (next state) result) :
    Erases (get >>= next) result := fun state => same state state

theorem ite {condition : Prop} [Decidable condition] {left right : StateT τ Option α}
    {leftResult rightResult : Option α} (yes : condition → Erases left leftResult)
    (no : ¬ condition → Erases right rightResult) :
    Erases (if condition then left else right) (if condition then leftResult else rightResult) := by
  by_cases holds : condition
  · rw [if_pos holds, if_pos holds]
    exact yes holds
  · rw [if_neg holds, if_neg holds]
    exact no holds

/-- A computation with a result ends in some state. -/
theorem exists_state (erases : Erases computation (some value)) (state : τ) :
    ∃ after, computation state = some (value, after) := by
  have result := erases state
  obtain ⟨⟨_, after⟩, step, rfl⟩ := Option.map_eq_some_iff.mp result
  exact ⟨after, step⟩

end Erases

/-! ## Binary search with reports -/

/-- `searchLoop` with a predicate that reports its comparisons. -/
def searchLoopM {τ : Type} (accept : Nat → StateT τ Option Bool) :
    (rounds low high : Nat) → StateT τ Option Nat
  | 0, low, _ => pure low
  | rounds + 1, low, high =>
    if low < high then do
      let middle := (low + high) / 2
      if ← accept middle then
        searchLoopM accept rounds low middle
      else
        searchLoopM accept rounds (middle + 1) high
    else
      pure low

/-- `search` with a predicate that reports its comparisons. -/
def searchM {τ : Type} (size : Nat) (accept : Nat → StateT τ Option Bool) : StateT τ Option Nat :=
  searchLoopM accept size 0 size

theorem searchM_erases {τ : Type} {acceptM : Nat → StateT τ Option Bool} {accept : Nat → Bool}
    {size : Nat} (agree : ∀ index, index < size → Erases (acceptM index) (some (accept index))) :
    Erases (searchM size acceptM) (some (search size accept)) := by
  have loop : ∀ rounds low high, high ≤ size → Erases (searchLoopM acceptM rounds low high)
      (some (searchLoop accept rounds low high)) := by
    intro rounds
    induction rounds with
    | zero => exact fun low _ _ => .pure low
    | succ rounds ih =>
      intro low high inside
      rw [searchLoopM, searchLoop]
      by_cases proper : low < high
      · rw [if_pos proper, if_pos proper]
        have halves : ∀ accepted : Bool,
            Erases (if accepted then searchLoopM acceptM rounds low ((low + high) / 2)
              else searchLoopM acceptM rounds ((low + high) / 2 + 1) high)
            (some (if accepted then searchLoop accept rounds low ((low + high) / 2)
              else searchLoop accept rounds ((low + high) / 2 + 1) high)) := by
          intro accepted
          cases accepted with
          | true => exact ih _ _ (by omega)
          | false => exact ih _ _ inside
        exact (agree ((low + high) / 2) (by omega)).bind halves
      · rw [if_neg proper, if_neg proper]
        exact .pure low
  exact loop size 0 size (Nat.le_refl size)

end Library
