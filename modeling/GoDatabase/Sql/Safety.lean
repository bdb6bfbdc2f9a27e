import GoDatabase.Sql.Grammar

/-!
# The parser stays inside the token list

Every function of the parser steps only over tokens that are not the end token, so that
the end token is always still ahead.
-/

namespace GoDatabase.Sql

open Library Library.Parser

namespace Parse

def IsEof (token : Token) : Prop := token.type = .eof

variable {α : Type} {kind : TokenType}

theorem safe_errorf (format : String) (args : Token → List ErrorArg) :
    Safe IsEof (errorf format args : Parser Token α) :=
  safe_error fun token =>
    .errorf ("sql: parse error at byte %d: " ++ format) (.int token.pos :: args token)

/-- A token of another kind is not the end. -/
theorem not_eof {token : Token} (type : token.type = kind) (inner : kind ≠ .eof) :
    ¬ IsEof token := fun isEof => inner (type.symm.trans isEof)

theorem safe_expect (inner : kind ≠ .eof) : Safe IsEof (expect kind) := by
  refine Safe.of_current fun token => ?_
  by_cases type : token.type = kind
  · rw [if_neg (not_not.mpr type)]
    exact .inr ⟨not_eof type inner, pure (), .pure (), rfl⟩
  · rw [if_pos type]
    exact .inl (safe_errorf _ _)

theorem safe_identifier (context : String) : Safe IsEof (identifier context) := by
  refine Safe.of_current fun token => ?_
  by_cases type : token.type = .identifier
  · rw [if_neg (not_not.mpr type)]
    exact .inr ⟨not_eof type (by decide), _, .pure token.text, rfl⟩
  · rw [if_pos type]
    exact .inl (safe_errorf _ _)

theorem safe_optionalSemicolon : Safe IsEof optionalSemicolon := by
  refine Safe.of_current fun token => ?_
  by_cases type : token.type = .semicolon
  · rw [if_pos type]
    exact .inr ⟨not_eof type (by decide), pure (), .pure (), rfl⟩
  · rw [if_neg type]
    exact .inl (.pure ())

theorem safe_literal : Safe IsEof literal := by
  refine Safe.of_current fun token => ?_
  split
  next type => exact .inr ⟨not_eof type (by decide), _, .pure _, rfl⟩
  next type =>
    split
    next => exact .inl (safe_errorf _ _)
    next => exact .inr ⟨not_eof type (by decide), _, .pure _, rfl⟩
  next type => exact .inr ⟨not_eof type (by decide), _, .pure _, rfl⟩
  next type => exact .inr ⟨not_eof type (by decide), _, .pure _, rfl⟩
  next type => exact .inr ⟨not_eof type (by decide), _, .pure _, rfl⟩
  next => exact .inl (safe_errorf _ _)

theorem safe_sequence {item : Parser Token α} (inner : kind ≠ .eof)
    (safe : Safe IsEof item) : Safe IsEof (sequence (Token.is kind) item) :=
  safe.sequence fun _ isKind => not_eof (of_decide_eq_true isKind) inner

theorem safe_openList (context : String) : Safe IsEof (openList context) where
  runs tokens ended panics := by
    rw [openList] at panics
    split at panics
    next => cases panics
    next => exact (safe_expect (by decide)).runs tokens ended panics
  keeps tokens value rest ended run := by
    obtain ⟨token, rfl, type⟩ := openList_eq_ok.mp run
    exact ended.tail (not_eof type (by decide))
  shrinks tokens value rest run := by
    obtain ⟨token, rfl, -⟩ := openList_eq_ok.mp run
    exact Nat.le_succ _

theorem safe_identifierList (context : String) : Safe IsEof (identifierList context) :=
  (safe_openList context).bind fun _ =>
    (safe_sequence (by decide) (safe_identifier context)).bind fun names =>
      (safe_expect (by decide)).bind fun _ => .pure names

theorem safe_constraints (rounds : Nat) : ∀ column, (unset column).length < rounds →
    Safe IsEof (constraints column rounds) := by
  induction rounds with
  | zero => exact fun column few => absurd few (Nat.not_lt_zero _)
  | succ rounds ih =>
    intro column few
    refine Safe.of_current fun token => ?_
    have later : ∀ which, isSet which column = false →
        Safe IsEof (expect (second which) >>= fun _ => constraints (set which column) rounds) := by
      intro which free
      have fewer := unset_set free
      have inner : second which ≠ .eof := by
        cases which with
        | primaryKey => decide
        | notNull => decide
      exact (safe_expect inner).bind fun _ => ih _ (by omega)
    by_cases primary : token.type = .primary
    · rw [if_pos primary]
      by_cases taken : column.primaryKey = true
      · rw [if_pos taken]
        exact .inl (safe_errorf _ _)
      · rw [if_neg taken]
        exact .inr ⟨not_eof primary (by decide), _,
          later .primaryKey (eq_false_of_ne_true taken), rfl⟩
    · rw [if_neg primary]
      by_cases isNot : token.type = .not
      · rw [if_pos isNot]
        by_cases taken : column.notNull = true
        · rw [if_pos taken]
          exact .inl (safe_errorf _ _)
        · rw [if_neg taken]
          exact .inr ⟨not_eof isNot (by decide), _,
            later .notNull (eq_false_of_ne_true taken), rfl⟩
      · rw [if_neg isNot]
        exact .inl (.pure column)

theorem safe_columnDefinition : Safe IsEof columnDefinition := by
  refine (safe_identifier _).bind fun name => Safe.of_current fun token => ?_
  by_cases type : isColumnType token.type
  · rw [if_neg (not_not.mpr type)]
    have inner : ¬ IsEof token := by
      intro isEof
      rw [isEof] at type
      cases type
    exact .inr ⟨inner, _, (safe_constraints 3 _ (by simp [unset, isSet])).bind fun _ =>
      .pure _, rfl⟩
  · rw [if_pos type]
    exact .inl (safe_errorf _ _)

theorem safe_predicate : Safe IsEof predicate := by
  refine (safe_identifier _).bind fun column => Safe.of_current fun token => ?_
  by_cases type : isComparison token.type
  · rw [if_neg (not_not.mpr type)]
    have inner : ¬ IsEof token := by
      intro isEof
      rw [isEof] at type
      cases type
    exact .inr ⟨inner, _, safe_literal.bind fun _ => .pure _, rfl⟩
  · rw [if_pos type]
    exact .inl (safe_errorf _ _)

theorem safe_createTable : Safe IsEof createTable :=
  (safe_expect (by decide)).bind fun _ => (safe_expect (by decide)).bind fun _ =>
    (safe_identifier _).bind fun _ => (safe_expect (by decide)).bind fun _ =>
    (safe_sequence (by decide) safe_columnDefinition).bind fun _ =>
    (safe_expect (by decide)).bind fun _ => safe_optionalSemicolon.bind fun _ => .pure _

theorem safe_insert : Safe IsEof insert := by
  refine (safe_expect (by decide)).bind fun _ => (safe_expect (by decide)).bind fun _ =>
    (safe_identifier _).bind fun table => (safe_identifierList _).bind fun columns =>
    (safe_expect (by decide)).bind fun _ => (safe_expect (by decide)).bind fun _ =>
    (safe_sequence (by decide) safe_literal).bind fun values =>
    (safe_expect (by decide)).bind fun _ =>
    safe_optionalSemicolon.bind fun _ => ?_
  by_cases counts : columns.length ≠ values.length
  · rw [if_pos counts]
    exact safe_errorf _ _
  · rw [if_neg counts]
    exact .pure _

theorem safe_selectList : Safe IsEof selectList := by
  refine Safe.of_current fun token => ?_
  by_cases type : token.type = .star
  · rw [if_pos type]
    exact .inr ⟨not_eof type (by decide), _, .pure _, rfl⟩
  · rw [if_neg type]
    exact .inl ((safe_sequence (by decide) (safe_identifier _)).bind fun _ => .pure _)

theorem safe_whereClause : Safe IsEof whereClause := by
  refine Safe.of_current fun token => ?_
  by_cases type : token.type = .where
  · rw [if_pos type]
    exact .inr ⟨not_eof type (by decide), _, safe_sequence (by decide) safe_predicate, rfl⟩
  · rw [if_neg type]
    exact .inl (.pure _)

theorem safe_selectStatement : Safe IsEof selectStatement :=
  (safe_expect (by decide)).bind fun _ => safe_selectList.bind fun _ =>
    (safe_expect (by decide)).bind fun _ => (safe_identifier _).bind fun _ =>
    safe_whereClause.bind fun _ => safe_optionalSemicolon.bind fun _ => .pure _

theorem safe_statement : Safe IsEof statement := by
  refine Safe.of_current fun token => .inl ?_
  split
  next => exact safe_createTable
  next => exact safe_insert
  next => exact safe_selectStatement
  next => exact safe_errorf _ _

end Parse

end GoDatabase.Sql
