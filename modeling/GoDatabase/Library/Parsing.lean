import GoDatabase.Library.GoError

/-!
# Parsers over a token list

A parser holds the tokens that are still to be read.  It reads the current token,
steps over it, and stops with an error of its own or with the run-time panic of an
index past the end.

Two properties of a parser are kept apart.  `Reads` says exactly which tokens a
parser accepts: those of a language, when what comes next belongs to a set that the
parser has to see before it stops.  `Safe` says that a parser does not panic on a
list that holds an end token, and leaves that token unread.
-/

namespace Library

open List

/-- The ways in which a computation ends without a value. -/
inductive Halt where
  | error (err : GoError)
  | panic
  deriving DecidableEq, Repr

abbrev Parser (τ : Type) := StateT (List τ) (Except Halt)

namespace Parser

variable {τ α β : Type}

/-- The current token; there is none past the end. -/
def current : Parser τ τ
  | [] => .error .panic
  | token :: rest => .ok (token, token :: rest)

def advance : Parser τ Unit := fun tokens => .ok ((), tokens.tail)

/-- Reads one item, and another one after each separator. -/
def sequenceLoop (isSeparator : τ → Bool) (item : Parser τ α) : Nat → Parser τ (List α)
  | 0 => fun _ => .error .panic
  | rounds + 1 => do
    let value ← item
    if isSeparator (← current) then
      advance
      let values ← sequenceLoop isSeparator item rounds
      return value :: values
    else
      return [value]

/-- Every round but the last one steps over a separator, so that there are at most as
many rounds as tokens. -/
def sequence (isSeparator : τ → Bool) (item : Parser τ α) : Parser τ (List α) :=
  fun tokens => sequenceLoop isSeparator item tokens.length tokens

variable {first : Parser τ α} {next : α → Parser τ β} {tokens rest : List τ} {token : τ}

theorem bind_eq_ok {value : β} : (first >>= next) tokens = .ok (value, rest) ↔
      ∃ middle left, first tokens = .ok (middle, left) ∧ next middle left = .ok (value, rest) := by
  change (first tokens >>= fun result => next result.1 result.2) = _ ↔ _
  cases result : first tokens with
  | error halt =>
    constructor
    · intro absurd
      cases absurd
    · rintro ⟨_, _, absurd, _⟩
      cases absurd
  | ok pair =>
    constructor
    · exact fun run => ⟨pair.1, pair.2, rfl, run⟩
    · rintro ⟨middle, left, same, run⟩
      cases same
      exact run

theorem bind_eq_panic : (first >>= next) tokens = .error .panic ↔ first tokens = .error .panic ∨
        ∃ middle left, first tokens = .ok (middle, left) ∧ next middle left = .error .panic := by
  change (first tokens >>= fun result => next result.1 result.2) = _ ↔ _
  cases result : first tokens with
  | error halt =>
    change Except.error halt = _ ↔ _
    constructor
    · intro run
      cases run
      exact .inl rfl
    · rintro (run | ⟨_, _, absurd, _⟩)
      · cases run
        rfl
      · cases absurd
  | ok pair =>
    constructor
    · exact fun run => .inr ⟨pair.1, pair.2, rfl, run⟩
    · rintro (absurd | ⟨middle, left, same, run⟩)
      · cases absurd
      · cases same
        exact run

theorem pure_eq_ok {value result : α} :
    (pure value : Parser τ α) tokens = .ok (result, rest) ↔ value = result ∧ tokens = rest := by
  change Except.ok (value, tokens) = _ ↔ _
  rw [Except.ok.injEq, Prod.mk.injEq]

theorem current_eq_ok :
    current tokens = .ok (token, rest) ↔ tokens = rest ∧ ∃ after, tokens = token :: after := by
  cases tokens with
  | nil => simp [current]
  | cons first after =>
    simp only [current, Except.ok.injEq, Prod.mk.injEq, List.cons.injEq, exists_eq_right']
    exact and_comm

theorem advance_eq_ok : advance tokens = .ok ((), rest) ↔ tokens.tail = rest := by
  simp [advance]

theorem advance_bind (next : Unit → Parser τ α) :
    (advance >>= next) tokens = next () tokens.tail := rfl

/-! ## Languages -/

/-- Items of a language with separators between them. -/
inductive SepBy (isSeparator : τ → Bool) (Item : List τ → α → Prop) : List τ → List α → Prop
  | one {tokens : List τ} {value : α} (item : Item tokens value) :
      SepBy isSeparator Item tokens [value]
  | more {tokens rest : List τ} {separator : τ} {value : α} {values : List α}
      (item : Item tokens value) (isSep : isSeparator separator)
      (items : SepBy isSeparator Item rest values) :
      SepBy isSeparator Item (tokens ++ separator :: rest) (value :: values)

theorem SepBy.ne_nil {isSeparator : τ → Bool} {Item : List τ → α → Prop}
    {values : List α} (items : SepBy isSeparator Item tokens values) : values ≠ [] := by
  cases items with
  | one => simp
  | more => simp

/-- The next token exists and fails a test. -/
def NextNot (test : τ → Bool) (tokens : List τ) : Prop :=
  ∃ token rest, tokens = token :: rest ∧ test token = false

theorem nextNot_cons {test : τ → Bool} : NextNot test (token :: rest) ↔ test token = false := by
  constructor
  · rintro ⟨_, _, same, fails⟩
    cases same
    exact fails
  · exact fun fails => ⟨token, rest, rfl, fails⟩

/-- A parser accepts exactly the tokens of a language before an admitted rest. -/
def Reads (parser : Parser τ α) (Language : List τ → α → Prop) (Follow : List τ → Prop) : Prop :=
  ∀ tokens value rest, parser tokens = .ok (value, rest) ↔
    ∃ read, tokens = read ++ rest ∧ Language read value ∧ Follow rest

section Single

variable {parser : Parser τ α} {Item : τ → α → Prop} {value : α}

/-- A parser that steps over one token. -/
theorem single_eq_ok (needs : parser [] = .error .panic)
    (steps : ∀ token after value rest, parser (token :: after) = .ok (value, rest) ↔
      Item token value ∧ after = rest) :
    parser tokens = .ok (value, rest) ↔ ∃ token, tokens = token :: rest ∧ Item token value := by
  cases tokens with
  | nil => simp [needs]
  | cons token after =>
    rw [steps]
    constructor
    · rintro ⟨item, rfl⟩
      exact ⟨token, rfl, item⟩
    · rintro ⟨_, shape, item⟩
      cases shape
      exact ⟨item, rfl⟩

theorem reads_single (steps : ∀ {tokens value rest}, parser tokens = .ok (value, rest) ↔
      ∃ token, tokens = token :: rest ∧ Item token value) :
    Reads parser (fun read value => ∃ token, read = [token] ∧ Item token value)
      (fun _ => True) := by
  intro tokens value rest
  rw [steps]
  constructor
  · rintro ⟨token, rfl, item⟩
    exact ⟨[token], rfl, ⟨token, rfl, item⟩, trivial⟩
  · rintro ⟨_, rfl, ⟨token, rfl, item⟩, -⟩
    exact ⟨token, rfl, item⟩

end Single

section Sequence

variable {isSeparator : τ → Bool} {item : Parser τ α} {Item : List τ → α → Prop}
  {Follow : List τ → Prop}

section

variable (reads : Reads item Item Follow)
  (admits : ∀ separator rest, isSeparator separator → Follow (separator :: rest))
include reads admits

/-- With enough rounds the loop reads every item up to the first token that is no
separator. -/
theorem sequenceLoop_reads (rounds : Nat) : ∀ tokens values rest, tokens.length ≤ rounds →
      (sequenceLoop isSeparator item rounds tokens = .ok (values, rest) ↔
        ∃ read, tokens = read ++ rest ∧ SepBy isSeparator Item read values ∧
          Follow rest ∧ NextNot isSeparator rest) := by
  induction rounds with
  | zero =>
    intro tokens values rest few
    obtain rfl : tokens = [] := length_eq_zero_iff.mp (Nat.le_zero.mp few)
    constructor
    · intro run
      cases run
    · rintro ⟨read, shape, -, -, ⟨token, after, more, -⟩⟩
      simp [more] at shape
  | succ rounds ih =>
    intro tokens values rest few
    rw [sequenceLoop]
    simp only [bind_eq_ok, current_eq_ok, reads _ _ _]
    constructor
    · rintro ⟨value, left, ⟨read, rfl, isItem, follow⟩, next, _, ⟨rfl, after, rfl⟩, run⟩
      by_cases separates : isSeparator next
      · rw [if_pos separates, advance_bind] at run
        obtain ⟨others, left, loop, done⟩ := bind_eq_ok.mp run
        obtain ⟨rfl, rfl⟩ := pure_eq_ok.mp done
        have fewer : after.length ≤ rounds := by
          simp only [length_append, length_cons] at few
          omega
        obtain ⟨more, rfl, items, ends⟩ := (ih after _ _ fewer).mp loop
        exact ⟨read ++ next :: more, by simp, .more isItem separates items, ends⟩
      · rw [if_neg separates] at run
        obtain ⟨rfl, rfl⟩ := pure_eq_ok.mp run
        exact ⟨read, rfl, .one isItem, follow, nextNot_cons.mpr (by simpa using separates)⟩
    · rintro ⟨read, rfl, items, follow, ends⟩
      cases items with
      | one isItem =>
        obtain ⟨next, after, rfl, fails⟩ := ends
        refine ⟨_, _, ⟨read, rfl, isItem, follow⟩, next, _, ⟨rfl, after, rfl⟩, ?_⟩
        rw [if_neg (by simp [fails])]
        exact pure_eq_ok.mpr ⟨rfl, rfl⟩
      | @more first more separator value others isItem separates items =>
        refine ⟨value, separator :: (more ++ rest), ⟨first, by simp, isItem, admits _ _ separates⟩,
          separator, _, ⟨rfl, _, rfl⟩, ?_⟩
        rw [if_pos separates]
        have fewer : (more ++ rest).length ≤ rounds := by
          simp only [length_append, length_cons] at few ⊢
          omega
        exact bind_eq_ok.mpr ⟨(), _, rfl, bind_eq_ok.mpr ⟨others, rest,
          (ih _ _ _ fewer).mpr ⟨more, rfl, items, follow, ends⟩, pure_eq_ok.mpr ⟨rfl, rfl⟩⟩⟩

theorem Reads.sequence : Reads (sequence isSeparator item) (SepBy isSeparator Item)
      (fun rest => Follow rest ∧ NextNot isSeparator rest) :=
  fun tokens values rest =>
    sequenceLoop_reads reads admits tokens.length tokens values rest le_rfl

end

end Sequence

/-! ## No index past the end -/

section Safe

variable {isEnd : τ → Prop}

def Ended (isEnd : τ → Prop) (tokens : List τ) : Prop := ∃ token ∈ tokens, isEnd token

/-- No panic before an end token, which stays unread. -/
structure Safe (isEnd : τ → Prop) (parser : Parser τ α) : Prop where
  runs : ∀ tokens, Ended isEnd tokens → parser tokens ≠ .error .panic
  keeps : ∀ tokens value rest, Ended isEnd tokens → parser tokens = .ok (value, rest) →
    Ended isEnd rest
  shrinks : ∀ tokens value rest, parser tokens = .ok (value, rest) → rest.length ≤ tokens.length

theorem Safe.bind {first : Parser τ α} {next : α → Parser τ β} (safe : Safe isEnd first)
    (after : ∀ value, Safe isEnd (next value)) : Safe isEnd (first >>= next) where
  runs tokens ended panics := by
    rcases bind_eq_panic.mp panics with failed | ⟨value, left, run, failed⟩
    · exact safe.runs tokens ended failed
    · exact (after value).runs left (safe.keeps _ _ _ ended run) failed
  keeps tokens value rest ended run := by
    obtain ⟨middle, left, early, late⟩ := bind_eq_ok.mp run
    exact (after middle).keeps _ _ _ (safe.keeps _ _ _ ended early) late
  shrinks tokens value rest run := by
    obtain ⟨middle, left, early, late⟩ := bind_eq_ok.mp run
    exact ((after middle).shrinks _ _ _ late).trans (safe.shrinks _ _ _ early)

theorem Safe.pure (value : α) : Safe isEnd (pure value : Parser τ α) where
  runs tokens ended panics := by cases panics
  keeps tokens value rest ended run := by
    obtain ⟨-, rfl⟩ := pure_eq_ok.mp run
    exact ended
  shrinks tokens value rest run := by
    obtain ⟨-, rfl⟩ := pure_eq_ok.mp run
    exact le_rfl

theorem Ended.exists_cons {tokens : List τ} (ended : Ended isEnd tokens) :
    ∃ token rest, tokens = token :: rest := by
  obtain ⟨token, mem, -⟩ := ended
  exact exists_cons_of_ne_nil (ne_nil_of_mem mem)

theorem Ended.tail {token : τ} {rest : List τ} (ended : Ended isEnd (token :: rest))
    (inner : ¬ isEnd token) : Ended isEnd rest := by
  obtain ⟨last, mem, isLast⟩ := ended
  rcases mem_cons.mp mem with rfl | later
  · exact absurd isLast inner
  · exact ⟨last, later, isLast⟩

theorem safe_error (error : τ → GoError) :
    Safe isEnd (current >>= fun token => fun _ => .error (.error (error token)) : Parser τ α) where
  runs tokens ended panics := by
    obtain ⟨token, rest, rfl⟩ := ended.exists_cons
    cases panics
  keeps tokens value rest ended run := by
    obtain ⟨_, _, _, absurd⟩ := bind_eq_ok.mp run
    cases absurd
  shrinks tokens value rest run := by
    obtain ⟨_, _, _, absurd⟩ := bind_eq_ok.mp run
    cases absurd

/-- A parser may depend on the current token, and steps over it only when it is not the
end. -/
theorem Safe.of_current {next : τ → Parser τ α} (after : ∀ token, Safe isEnd (next token) ∨
      (¬ isEnd token ∧ ∃ later, Safe isEnd later ∧ next token = advance >>= fun _ => later)) :
    Safe isEnd (current >>= next) where
  runs tokens ended panics := by
    obtain ⟨token, rest, rfl⟩ := ended.exists_cons
    rcases after token with safe | ⟨inner, later, safe, shape⟩
    · exact safe.runs _ ended panics
    · change next token (token :: rest) = _ at panics
      rw [shape] at panics
      exact safe.runs rest (ended.tail inner) panics
  keeps tokens value left ended run := by
    obtain ⟨token, rest, rfl⟩ := ended.exists_cons
    rcases after token with safe | ⟨inner, later, safe, shape⟩
    · exact safe.keeps _ _ _ ended run
    · change next token (token :: rest) = _ at run
      rw [shape] at run
      exact safe.keeps rest _ _ (ended.tail inner) run
  shrinks tokens value left run := by
    obtain ⟨token, _, here, run⟩ := bind_eq_ok.mp run
    obtain ⟨rfl, rest, rfl⟩ := current_eq_ok.mp here
    rcases after token with safe | ⟨inner, later, safe, shape⟩
    · exact safe.shrinks _ _ _ run
    · rw [shape] at run
      exact (safe.shrinks rest _ _ run).trans (by simp)

section Sequence

variable {isSeparator : τ → Bool} {item : Parser τ α}

/-- One round: an item, and the rest of the loop when there is a separator. -/
theorem sequenceLoop_succ_eq_ok {rounds : Nat} {tokens rest : List τ} {values : List α}
    (run : sequenceLoop isSeparator item (rounds + 1) tokens = .ok (values, rest)) :
    ∃ value next after, item tokens = .ok (value, next :: after) ∧
      ((isSeparator next = false ∧ rest = next :: after) ∨ (isSeparator next = true ∧ ∃ others,
          sequenceLoop isSeparator item rounds after = .ok (others, rest))) := by
  rw [sequenceLoop] at run
  simp only [bind_eq_ok, current_eq_ok] at run
  obtain ⟨value, left, first, next, _, ⟨rfl, after, rfl⟩, run⟩ := run
  refine ⟨value, next, after, first, ?_⟩
  by_cases separates : isSeparator next
  · rw [if_pos separates, advance_bind] at run
    obtain ⟨others, left, loop, done⟩ := bind_eq_ok.mp run
    obtain ⟨-, rfl⟩ := pure_eq_ok.mp done
    exact .inr ⟨separates, others, loop⟩
  · rw [if_neg separates] at run
    obtain ⟨-, rfl⟩ := pure_eq_ok.mp run
    exact .inl ⟨by simpa using separates, rfl⟩

theorem sequenceLoop_shrinks (safe : Safe isEnd item) (rounds : Nat) :
    ∀ tokens values rest, sequenceLoop isSeparator item rounds tokens = .ok (values, rest) →
      rest.length ≤ tokens.length := by
  induction rounds with
  | zero =>
    intro tokens values rest run
    cases run
  | succ rounds ih =>
    intro tokens values rest run
    obtain ⟨value, next, after, first, next_ends | ⟨-, others, loop⟩⟩ := sequenceLoop_succ_eq_ok run
    · obtain ⟨-, rfl⟩ := next_ends
      exact safe.shrinks _ _ _ first
    · have less := safe.shrinks _ _ _ first
      have least := ih _ _ _ loop
      rw [length_cons] at less
      omega

section

variable (safe : Safe isEnd item) (inner : ∀ token, isSeparator token → ¬ isEnd token)
include safe inner

theorem sequenceLoop_keeps (rounds : Nat) : ∀ tokens values rest, Ended isEnd tokens →
      sequenceLoop isSeparator item rounds tokens = .ok (values, rest) → Ended isEnd rest := by
  induction rounds with
  | zero =>
    intro tokens values rest ended run
    cases run
  | succ rounds ih =>
    intro tokens values rest ended run
    obtain ⟨value, next, after, first, ⟨-, rfl⟩ | ⟨separates, others, loop⟩⟩ :=
      sequenceLoop_succ_eq_ok run
    · exact safe.keeps _ _ _ ended first
    · exact ih _ _ _ ((safe.keeps _ _ _ ended first).tail (inner _ separates)) loop

theorem sequenceLoop_runs (rounds : Nat) : ∀ tokens, tokens.length ≤ rounds → Ended isEnd tokens →
      sequenceLoop isSeparator item rounds tokens ≠ .error .panic := by
  induction rounds with
  | zero =>
    intro tokens few ended
    obtain ⟨token, rest, rfl⟩ := ended.exists_cons
    exact absurd few (by simp)
  | succ rounds ih =>
    intro tokens few ended panics
    rw [sequenceLoop] at panics
    rcases bind_eq_panic.mp panics with failed | ⟨value, left, first, panics⟩
    · exact safe.runs tokens ended failed
    have kept := safe.keeps _ _ _ ended first
    have less := safe.shrinks _ _ _ first
    obtain ⟨next, after, rfl⟩ := kept.exists_cons
    change (if isSeparator next then _ else _ : Parser τ (List α)) (next :: after) = _ at panics
    by_cases separates : isSeparator next
    · rw [if_pos separates] at panics
      change (sequenceLoop isSeparator item rounds >>= fun values => pure (value :: values)) after =
        _ at panics
      have fewer : after.length ≤ rounds := by
        rw [length_cons] at less
        omega
      rcases bind_eq_panic.mp panics with failed | ⟨_, _, _, absurd⟩
      · exact ih after fewer (kept.tail (inner _ separates)) failed
      · cases absurd
    · rw [if_neg separates] at panics
      cases panics

theorem Safe.sequence : Safe isEnd (sequence isSeparator item) where
  runs tokens ended := sequenceLoop_runs safe inner _ tokens le_rfl ended
  keeps tokens values rest ended run := sequenceLoop_keeps safe inner _ tokens values rest ended run
  shrinks tokens values rest run := sequenceLoop_shrinks safe _ tokens values rest run

end

end Sequence

end Safe

end Parser

end Library
