import GoDatabase.Library.GoError

/-!
# Computations that change a state and may fail

A Go method that mutates what it reaches and returns an error: the effects up to
the failure stay.  The rules below run such a computation one step at a time.
-/

namespace Library

/-- A computation over a state; a failure keeps the state reached so far. -/
abbrev Fallible (σ : Type) := EStateM GoError σ

namespace Fallible

variable {σ α β : Type}

instance : MonadLift (Except GoError) (Fallible σ) where
  monadLift := MonadExcept.ofExcept

/-- The state at the end, whether or not there was a failure. -/
def after : EStateM.Result GoError σ α → σ
  | .ok _ state => state
  | .error _ state => state

variable {first : Fallible σ α} {next : α → Fallible σ β} {state last : σ} {value : α}
  {err : GoError} {result : Except GoError α}

theorem bind_of_ok {after : σ}
    (result : first state = .ok value after) : (first >>= next) state = next value after := by
  simp only [bind, EStateM.bind, result]

theorem bind_of_error {after : σ} (result : first state = .error err after) :
    (first >>= next) state = .error err after := by
  simp only [bind, EStateM.bind, result]

theorem lift_of_ok (eq : result = .ok value) (state : σ) :
    (liftM result : Fallible σ α) state = .ok value state := by
  rw [eq]
  rfl

theorem lift_of_error (eq : result = .error err)
    (state : σ) : (liftM result : Fallible σ α) state = .error err state := by
  rw [eq]
  rfl

theorem lift_bind_of_ok (eq : result = .ok value) (state : σ) :
    ((liftM result : Fallible σ α) >>= next) state = next value state :=
  bind_of_ok (lift_of_ok eq state)

/-- Two steps without effects are one. -/
theorem lift_bind_lift (first : Except GoError α) (next : α → Except GoError β) (state : σ) :
    ((liftM first : Fallible σ α) >>= fun value => liftM (next value)) state =
      (liftM (first >>= next) : Fallible σ β) state := by
  cases first with
  | error err => rfl
  | ok value => rfl

@[simp] theorem pure_apply (value : α) (state : σ) :
    (pure value : Fallible σ α) state = .ok value state := rfl

@[simp] theorem get_bind_apply (next : σ → Fallible σ β) (state : σ) :
    ((get : Fallible σ σ) >>= next) state = next state state := rfl

@[simp] theorem set_bind_apply (value : σ) (next : PUnit → Fallible σ β) (state : σ) :
    ((set value : Fallible σ PUnit) >>= next) state = next ⟨⟩ value := rfl

@[simp] theorem modify_bind_apply (change : σ → σ) (next : PUnit → Fallible σ β) (state : σ) :
    ((modify change : Fallible σ PUnit) >>= next) state = next ⟨⟩ (change state) := rfl

/-- A successful sequence of two steps. -/
theorem exists_of_bind_ok {result : β} (run : (first >>= next) state = .ok result last) :
    ∃ value middle, first state = .ok value middle ∧ next value middle = .ok result last := by
  cases step : first state with
  | ok value middle =>
    rw [bind_of_ok step] at run
    exact ⟨value, middle, rfl, run⟩
  | error err middle =>
    rw [bind_of_error step] at run
    cases run

/-- A successful sequence that begins with a step without effects. -/
theorem exists_of_lift_bind_ok {final : β}
    (run : ((liftM result : Fallible σ α) >>= next) state = .ok final last) :
    ∃ value, result = .ok value ∧ next value state = .ok final last := by
  cases result with
  | ok value => exact ⟨value, rfl, run⟩
  | error err => cases run

/-- A successful step without effects. -/
theorem of_lift_ok (run : (liftM result : Fallible σ α) state = .ok value last) :
    result = .ok value ∧ last = state := by
  cases result with
  | ok found =>
    cases run
    exact ⟨rfl, rfl⟩
  | error err => cases run

/-! ## The errors of a computation -/

/-- Every error that the computation reports is an expected one. -/
def ErrorsIn (expected : GoError → Prop) (computation : Fallible σ α) : Prop :=
  ∀ state err last, computation state = .error err last → expected err

namespace ErrorsIn

variable {expected : GoError → Prop}

theorem pure (value : α) : ErrorsIn expected (Pure.pure value : Fallible σ α) :=
  fun _ _ _ failed => nomatch failed

theorem throw {err : GoError} (here : expected err) :
    ErrorsIn expected (MonadExcept.throw err : Fallible σ α) := by
  intro state other last failed
  cases failed
  exact here

theorem lift {result : Except GoError α} (here : ∀ err, result = .error err → expected err) :
    ErrorsIn expected (liftM result : Fallible σ α) := by
  intro state err last failed
  cases result with
  | ok value => cases failed
  | error other =>
    cases failed
    exact here _ rfl

theorem bind {first : Fallible σ α} {next : α → Fallible σ β} (early : ErrorsIn expected first)
    (late : ∀ state value middle, first state = .ok value middle → ErrorsIn expected (next value)) :
    ErrorsIn expected (first >>= next) := by
  intro state err last failed
  cases step : first state with
  | ok value middle =>
    rw [bind_of_ok step] at failed
    exact late state value middle step middle err last failed
  | error other middle =>
    rw [bind_of_error step] at failed
    cases failed
    exact early state _ _ step

theorem get_bind {next : σ → Fallible σ β} (late : ∀ state, ErrorsIn expected (next state)) :
    ErrorsIn expected ((get : Fallible σ σ) >>= next) :=
  fun state => late state state

variable {next : PUnit → Fallible σ β}

theorem set_bind {state : σ} (late : ErrorsIn expected (next ⟨⟩)) :
    ErrorsIn expected ((set state : Fallible σ PUnit) >>= next) :=
  fun _ => late state

theorem modify_bind {change : σ → σ} (late : ErrorsIn expected (next ⟨⟩)) :
    ErrorsIn expected ((modify change : Fallible σ PUnit) >>= next) :=
  fun state => late (change state)

end ErrorsIn

/-! ## Bounds on what a computation adds -/

/-- The computation adds at most `limit` to a measure of the state, whether or not it fails. -/
def Adds (measure : σ → Nat) (limit : Nat) (computation : Fallible σ α) : Prop :=
  ∀ state, measure (after (computation state)) ≤ measure state + limit

namespace Adds

variable {measure : σ → Nat} {limit more : Nat}

theorem pure (value : α) : Adds measure 0 (Pure.pure value : Fallible σ α) := fun _ => Nat.le_refl _

theorem throw (err : GoError) : Adds measure 0 (MonadExcept.throw err : Fallible σ α) :=
  fun _ => Nat.le_refl _

theorem lift (result : Except GoError α) : Adds measure 0 (liftM result : Fallible σ α) := by
  intro state
  cases result with
  | ok value => exact Nat.le_refl _
  | error err => exact Nat.le_refl _

theorem mono {computation : Fallible σ α} (adds : Adds measure limit computation)
    (fewer : limit ≤ more) : Adds measure more computation :=
  fun state => (adds state).trans (Nat.add_le_add_left fewer _)

theorem bind {first : Fallible σ α} {next : α → Fallible σ β} (adds : Adds measure limit first)
    (addsNext : ∀ value, Adds measure more (next value)) :
    Adds measure (limit + more) (first >>= next) := by
  intro state
  have here := adds state
  cases result : first state with
  | ok value middle =>
    have there := addsNext value middle
    rw [result] at here
    rw [bind_of_ok result]
    simp only [after] at here
    omega
  | error err middle =>
    rw [result] at here
    rw [bind_of_error result]
    simp only [after] at here ⊢
    omega

variable {next : α → Fallible σ β}

/-- A first step that adds nothing. -/
theorem after_silent {first : Fallible σ α} (silent : Adds measure 0 first)
    (adds : ∀ value, Adds measure limit (next value)) : Adds measure limit (first >>= next) :=
  (silent.bind adds).mono (Nat.le_of_eq (Nat.zero_add _))

/-- A step without effects; what follows may depend on its result. -/
theorem lift_bind {result : Except GoError α}
    (adds : ∀ value, result = .ok value → Adds measure limit (next value)) :
    Adds measure limit ((liftM result : Fallible σ α) >>= next) := by
  intro state
  cases outcome : result with
  | ok value =>
    rw [lift_bind_of_ok rfl]
    exact adds value outcome state
  | error err => exact Nat.le_add_right _ _

theorem ite {condition : Prop} [Decidable condition] {yes no : Fallible σ α}
    (addsYes : Adds measure limit yes) (addsNo : Adds measure limit no) :
    Adds measure limit (if condition then yes else no) := by
  split
  · exact addsYes
  · exact addsNo

end Adds

end Fallible

end Library
