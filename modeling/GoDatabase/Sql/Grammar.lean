import GoDatabase.Sql.Parser
import GoDatabase.Sql.Spelling

/-!
# The grammar of the SQL subset

The statements that a list of tokens derives, and the proof that the parser accepts
exactly those.
-/

namespace GoDatabase.Sql

open Library Library.Parser List

namespace Grammar

def Ident (tokens : List Token) (name : Bytes) : Prop :=
  ∃ token, tokens = [token] ∧ token.type = .identifier ∧ token.text = name

inductive IsLiteral : Token → Literal → Prop
  | string {token : Token} (kind : token.type = .string) : IsLiteral token
      ⟨.string, .string token.text⟩
  | integer {token : Token} {value : Int64} (kind : token.type = .integer)
      (parsed : Lexer.parseInt token.text = some value) : IsLiteral token ⟨.integer, .int64 value⟩
  | true {token : Token} (kind : token.type = .true) : IsLiteral token ⟨.true, .bool true⟩
  | false {token : Token} (kind : token.type = .false) : IsLiteral token ⟨.false, .bool false⟩
  | null {token : Token} (kind : token.type = .null) : IsLiteral token ⟨.null, .null⟩

def Lit (tokens : List Token) (value : Literal) : Prop :=
  ∃ token, tokens = [token] ∧ IsLiteral token value

inductive Constraint where
  | primaryKey
  | notNull
  deriving DecidableEq

def Constraint.kinds : Constraint → List TokenType
  | .primaryKey => [.primary, .key]
  | .notNull => [.not, .null]

/-- A name, a type and each constraint at most once, in any order. -/
inductive ColDef : List Token → ColumnDefinition → Prop
  | intro {name type : Token} {rest : List Token} {constraints : List Constraint}
      (isName : name.type = .identifier) (isType : isColumnType type.type)
      (once : constraints.Nodup)
      (kinds : rest.map Token.type = constraints.flatMap Constraint.kinds) :
      ColDef (name :: type :: rest)
        ⟨name.text, type.type, decide (.primaryKey ∈ constraints),
          decide (.notNull ∈ constraints ∨ .primaryKey ∈ constraints)⟩

inductive Pred : List Token → Predicate → Prop
  | intro {column op value : Token} {literal : Literal} (isColumn : column.type = .identifier)
      (isOp : isComparison op.type) (isValue : IsLiteral value literal) :
      Pred [column, op, value] ⟨column.text, op.type, literal⟩

inductive SelectList : List Token → List Bytes × Bool → Prop
  | all {star : Token} (kind : star.type = .star) : SelectList [star] ([], true)
  | columns {tokens : List Token} {names : List Bytes}
      (items : SepBy (Token.is .comma) Ident tokens names) : SelectList tokens (names, false)

inductive WhereClause : List Token → List Predicate → Prop
  | none : WhereClause [] []
  | some {first : Token} {tokens : List Token} {predicates : List Predicate}
      (kind : first.type = .where) (items : SepBy (Token.is .and) Pred tokens predicates) :
        WhereClause (first :: tokens) predicates

inductive Ends : List Token → Prop
  | bare : Ends []
  | semicolon {token : Token} (kind : token.type = .semicolon) : Ends [token]

/-- The statement that tokens derive. -/
inductive Derives : List Token → Statement → Prop
  | createTable {create table name lParen rParen : Token} {definitions ends : List Token}
      {columns : List ColumnDefinition}
      (opening : [create, table, name, lParen].map Token.type =
        [.create, .table, .identifier, .lParen])
      (items : SepBy (Token.is .comma) ColDef definitions columns)
      (closing : rParen.type = .rParen) (last : Ends ends) :
      Derives (create :: table :: name :: lParen :: (definitions ++ rParen :: ends))
        (.createTable ⟨name.text, columns⟩)
  | insert {insert into table lParen rParen values valuesParen close : Token}
      {names literals ends : List Token} {columns : List Bytes} {values' : List Literal}
      (opening : [insert, into, table, lParen].map Token.type =
        [.insert, .into, .identifier, .lParen])
      (columnNames : SepBy (Token.is .comma) Ident names columns)
      (middle : [rParen, values, valuesParen].map Token.type = [.rParen, .values, .lParen])
      (items : SepBy (Token.is .comma) Lit literals values')
      (closing : close.type = .rParen) (last : Ends ends)
      (counts : columns.length = values'.length) :
      Derives (insert :: into :: table :: lParen :: (names ++ rParen :: values :: valuesParen ::
        (literals ++ close :: ends))) (.insert ⟨table.text, columns, values'⟩)
  | select {select from_ table : Token} {list clause ends : List Token} {columns : List Bytes}
      {all : Bool} {predicates : List Predicate} (opening : select.type = .select)
      (selected : SelectList list (columns, all))
      (middle : [from_, table].map Token.type = [.from, .identifier])
      (filtered : WhereClause clause predicates) (last : Ends ends) :
      Derives (select :: (list ++ from_ :: table :: (clause ++ ends)))
        (.select ⟨table.text, columns, all, predicates⟩)

end Grammar

namespace Parse

open Grammar

variable {tokens rest : List Token}

theorem errorf_ne_ok {α : Type} {format : String} {args : Token → List ErrorArg} {value : α} :
    errorf format args tokens ≠ .ok (value, rest) := by
  intro run
  obtain ⟨_, _, _, absurd⟩ := bind_eq_ok.mp run
  cases absurd

variable {kind : TokenType} {value : Unit} {context : String} {name : Bytes}

theorem expect_eq_ok :
    expect kind tokens = .ok (value, rest) ↔ ∃ token, tokens = token :: rest ∧ token.type =
      kind := by
  apply single_eq_ok rfl
  intro token after value rest
  change (if token.type ≠ kind then _ else _ : Parser Token Unit) (token :: after) = _ ↔ _
  by_cases same : token.type = kind
  · rw [if_neg (not_not.mpr same), advance_eq_ok]
    exact ⟨fun left => ⟨same, left⟩, And.right⟩
  · rw [if_pos same]
    exact ⟨fun run => absurd run errorf_ne_ok, fun run => absurd run.1 same⟩

theorem identifier_eq_ok : identifier context tokens = .ok (name, rest) ↔
      ∃ token, tokens = token :: rest ∧ token.type = .identifier ∧ token.text = name := by
  apply single_eq_ok rfl
  intro token after value rest
  change (if token.type ≠ .identifier then _ else _ : Parser Token Bytes) (token :: after) = _ ↔ _
  by_cases same : token.type = .identifier
  · rw [if_neg (not_not.mpr same)]
    change Except.ok (token.text, after) = _ ↔ _
    simp [same]
  · rw [if_pos same]
    exact ⟨fun run => absurd run errorf_ne_ok, fun run => absurd run.1.1 same⟩

/-- A token that is taken as it stands. -/
theorem advance_pure_eq_ok {token : Token} {after : List Token} {taken value : Literal} :
    (do advance; return taken : Parser Token Literal) (token :: after) = .ok (value, rest) ↔
      taken = value ∧ after = rest :=
  pure_eq_ok

theorem literal_eq_ok {token : Token} {after : List Token} {value : Literal} :
    literal (token :: after) = .ok (value, rest) ↔ IsLiteral token value ∧ after = rest := by
  rw [literal, bind_eq_ok]
  simp only [current_eq_ok]
  constructor
  · rintro ⟨_, _, ⟨rfl, _, shape⟩, run⟩
    obtain ⟨rfl, rfl⟩ := List.cons.inj shape
    cases kind : token.type with
    | string =>
      rw [kind] at run
      obtain ⟨rfl, rfl⟩ := advance_pure_eq_ok.mp run
      exact ⟨.string kind, rfl⟩
    | integer =>
      rw [kind] at run
      dsimp only at run
      cases parsed : Lexer.parseInt token.text with
      | none =>
        rw [parsed] at run
        exact absurd run errorf_ne_ok
      | some number =>
        rw [parsed] at run
        obtain ⟨rfl, rfl⟩ := advance_pure_eq_ok.mp run
        exact ⟨.integer kind parsed, rfl⟩
    | true =>
      rw [kind] at run
      obtain ⟨rfl, rfl⟩ := advance_pure_eq_ok.mp run
      exact ⟨.true kind, rfl⟩
    | false =>
      rw [kind] at run
      obtain ⟨rfl, rfl⟩ := advance_pure_eq_ok.mp run
      exact ⟨.false kind, rfl⟩
    | null =>
      rw [kind] at run
      obtain ⟨rfl, rfl⟩ := advance_pure_eq_ok.mp run
      exact ⟨.null kind, rfl⟩
    | _ =>
      rw [kind] at run
      exact absurd run errorf_ne_ok
  · rintro ⟨item, rfl⟩
    refine ⟨token, _, ⟨rfl, after, rfl⟩, ?_⟩
    cases item with
    | string kind | true kind | false kind | null kind =>
      rw [kind]
      exact advance_pure_eq_ok.mpr ⟨rfl, rfl⟩
    | integer kind parsed =>
      rw [kind]
      dsimp only
      rw [parsed]
      exact advance_pure_eq_ok.mpr ⟨rfl, rfl⟩

theorem literal_reads : Reads literal Lit (fun _ => True) :=
  reads_single (single_eq_ok rfl fun _ _ _ _ => literal_eq_ok)

/-! ## Column definitions -/

section Constraints

def isSet : Constraint → ColumnDefinition → Bool
  | .primaryKey, column => column.primaryKey
  | .notNull, column => column.notNull

def set : Constraint → ColumnDefinition → ColumnDefinition
  | .primaryKey, column => { column with primaryKey := true }
  | .notNull, column => { column with notNull := true }

/-- The token that starts a constraint and the one that ends it. -/
def first : Constraint → TokenType
  | .primaryKey => .primary
  | .notNull => .not

def second : Constraint → TokenType
  | .primaryKey => .key
  | .notNull => .null

def isFirst (token : Token) : Bool := token.type = .primary || token.type = .not

theorem isFirst_eq_true {token : Token} :
    isFirst token = true ↔ ∃ which, token.type = first which := by
  rw [isFirst, Bool.or_eq_true, decide_eq_true_eq, decide_eq_true_eq]
  constructor
  · rintro (kind | kind)
    · exact ⟨.primaryKey, kind⟩
    · exact ⟨.notNull, kind⟩
  · rintro ⟨which, kind⟩
    cases which with
    | primaryKey => exact .inl kind
    | notNull => exact .inr kind

theorem first_inj {left right : Constraint} (same : first left = first right) : left = right := by
  cases left with
  | primaryKey | notNull =>
    cases right with
    | primaryKey | notNull => first | rfl | cases same

variable {column result : ColumnDefinition} {rounds : Nat} {token : Token} {after : List Token}
  {which : Constraint}

theorem constraints_of_set (kind : token.type = first which) (taken : isSet which column = true) :
    constraints column (rounds + 1) (token :: after) ≠ .ok (result, rest) := by
  obtain ⟨_, text, pos⟩ := token
  obtain ⟨name, type, primaryKey, notNull⟩ := column
  cases which with
  | primaryKey =>
    obtain rfl : _ = TokenType.primary := kind
    obtain rfl : primaryKey = true := taken
    intro run
    cases run
  | notNull =>
    obtain rfl : _ = TokenType.not := kind
    obtain rfl : notNull = true := taken
    intro run
    cases run

theorem constraints_of_unset (kind : token.type = first which)
    (unset : isSet which column = false) : constraints column (rounds + 1) (token :: after) =
      (expect (second which) >>= fun _ => constraints (set which column) rounds) after := by
  obtain ⟨_, text, pos⟩ := token
  obtain ⟨name, type, primaryKey, notNull⟩ := column
  cases which with
  | primaryKey =>
    obtain rfl : _ = TokenType.primary := kind
    obtain rfl : primaryKey = false := unset
    rfl
  | notNull =>
    obtain rfl : _ = TokenType.not := kind
    obtain rfl : notNull = false := unset
    rfl

/-- One round at the start of a constraint. -/
theorem constraints_first (kind : token.type = first which) :
    constraints column (rounds + 1) (token :: after) = .ok (result, rest) ↔
      isSet which column = false ∧ ∃ last left, after = last :: left ∧ last.type = second which ∧
        constraints (set which column) rounds left = .ok (result, rest) := by
  cases taken : isSet which column with
  | true => exact ⟨fun run => absurd run (constraints_of_set kind taken), fun run => by cases run.1⟩
  | false =>
    rw [constraints_of_unset kind taken, bind_eq_ok]
    simp only [expect_eq_ok]
    constructor
    · rintro ⟨_, left, ⟨last, rfl, isLast⟩, run⟩
      exact ⟨trivial, last, left, rfl, isLast, run⟩
    · rintro ⟨-, last, left, rfl, isLast, run⟩
      exact ⟨(), left, ⟨last, rfl, isLast⟩, run⟩

theorem constraints_other (other : isFirst token = false) :
    constraints column (rounds + 1) (token :: after) = .ok (column, token :: after) := by
  rw [isFirst, Bool.or_eq_false_iff, decide_eq_false_iff_not, decide_eq_false_iff_not] at other
  rw [constraints]
  change (if token.type = .primary then _ else if token.type = .not then _ else _ :
    Parser Token _) _ = _
  rw [if_neg other.1, if_neg other.2]
  rfl

/-- The constraints that a column definition can still be given. -/
def unset (column : ColumnDefinition) : List Constraint :=
  [.primaryKey, .notNull].filter fun which => !isSet which column

theorem unset_set (free : isSet which column = false) :
    (unset (set which column)).length + 1 = (unset column).length := by
  obtain ⟨name, type, primaryKey, notNull⟩ := column
  cases which with
  | primaryKey =>
    obtain rfl : primaryKey = false := free
    cases notNull with
    | false | true => rfl
  | notNull =>
    obtain rfl : notNull = false := free
    cases primaryKey with
    | false | true => rfl

theorem isSet_set {other : Constraint} :
    isSet other (set which column) = false ↔ other ≠ which ∧ isSet other column = false := by
  cases which with
  | primaryKey | notNull =>
    cases other with
    | primaryKey | notNull => simp [isSet, set]

theorem kinds_eq (which : Constraint) : which.kinds = [first which, second which] := by
  cases which with
  | primaryKey | notNull => rfl

/-- With a round for each constraint that is not set yet and one more, the loop reads
every constraint, each at most once. -/
theorem constraints_eq_ok (rounds : Nat) : ∀ (column : ColumnDefinition) (tokens : List Token)
    (result : ColumnDefinition) (rest : List Token), (unset column).length < rounds →
    (constraints column rounds tokens = .ok (result, rest) ↔
      ∃ (read : List Token) (given : List Constraint), tokens = read ++ rest ∧
        NextNot isFirst rest ∧ given.Nodup ∧ (∀ which ∈ given, isSet which column = false) ∧
        read.map Token.type = given.flatMap Constraint.kinds ∧
        result = given.foldl (fun column which => set which column) column) := by
  induction rounds with
  | zero =>
    intro column tokens result rest few
    exact absurd few (Nat.not_lt_zero _)
  | succ rounds ih =>
    intro column tokens result rest few
    cases tokens with
    | nil =>
      constructor
      · intro run
        cases run
      · rintro ⟨read, given, shape, ⟨next, after, rfl, -⟩, -⟩
        simp at shape
    | cons token after =>
      by_cases starts : isFirst token = true
      · obtain ⟨which, kind⟩ := isFirst_eq_true.mp starts
        rw [constraints_first kind]
        constructor
        · rintro ⟨free, last, left, rfl, isLast, run⟩
          have fewer := unset_set free
          obtain ⟨read, given, rfl, next, once, others, kinds, rfl⟩ :=
            (ih _ _ _ _ (by omega)).mp run
          refine ⟨token :: last :: read, which :: given, rfl, next, ?_, ?_, ?_, rfl⟩
          · exact nodup_cons.mpr
              ⟨fun mem => (isSet_set.mp (others which mem)).1 rfl, once⟩
          · intro other mem
            rcases mem_cons.mp mem with rfl | later
            · exact free
            · exact (isSet_set.mp (others other later)).2
          · rw [flatMap_cons, kinds_eq, map_cons, map_cons, kind, isLast, kinds]
            rfl
        · rintro ⟨read, given, shape, next, once, free, kinds, rfl⟩
          cases given with
          | nil =>
            obtain rfl : read = [] := by simpa using kinds
            obtain ⟨_, _, rfl, fails⟩ := next
            cases shape
            rw [starts] at fails
            cases fails
          | cons other given =>
            rw [flatMap_cons, kinds_eq] at kinds
            obtain ⟨head, tail, rfl, isHead, tailKinds⟩ := map_eq_cons_iff.mp kinds
            obtain ⟨last, left, rfl, isLast, leftKinds⟩ := map_eq_cons_iff.mp tailKinds
            obtain ⟨rfl, rfl⟩ := List.cons.inj shape
            obtain rfl : which = other := first_inj (kind.symm.trans isHead)
            obtain ⟨fresh, once⟩ := nodup_cons.mp once
            have isFree := free which (mem_cons_self ..)
            have fewer := unset_set isFree
            refine ⟨isFree, last, _, rfl, isLast, (ih _ _ _ _ (by omega)).mpr
              ⟨left, given, rfl, next, once, ?_, leftKinds, rfl⟩⟩
            intro other mem
            exact isSet_set.mpr ⟨fun same => fresh (same ▸ mem),
              free other (mem_cons_of_mem _ mem)⟩
      · rw [Bool.not_eq_true] at starts
        rw [constraints_other starts]
        constructor
        · intro run
          cases run
          exact ⟨[], [], rfl, nextNot_cons.mpr starts, .nil, by simp, rfl, rfl⟩
        · rintro ⟨read, given, shape, next, once, free, kinds, rfl⟩
          cases given with
          | nil =>
            obtain rfl : read = [] := by simpa using kinds
            rw [nil_append] at shape
            rw [shape]
            rfl
          | cons other given =>
            rw [flatMap_cons, kinds_eq] at kinds
            cases read with
            | nil => cases kinds
            | cons head tail =>
              cases shape
              rw [isFirst_eq_true.mpr ⟨other, (List.cons.inj kinds).1⟩] at starts
              cases starts

theorem foldl_set (given : List Constraint) : ∀ column : ColumnDefinition,
    given.foldl (fun column which => set which column) column =
      ⟨column.name, column.type, column.primaryKey || decide (.primaryKey ∈ given),
        column.notNull || decide (.notNull ∈ given)⟩ := by
  induction given with
  | nil =>
    intro column
    simp
  | cons which given ih =>
    intro column
    rw [foldl_cons, ih]
    cases which with
    | primaryKey | notNull => simp [set]

end Constraints

/-- Three rounds are enough for a column without constraints. -/
theorem constraints_fresh_eq_ok {type : TokenType} {column : ColumnDefinition} :
    constraints ⟨name, type, false, false⟩ 3 tokens = .ok (column, rest) ↔
      ∃ (read : List Token) (given : List Constraint), tokens = read ++ rest ∧
        NextNot isFirst rest ∧ given.Nodup ∧ read.map Token.type = given.flatMap Constraint.kinds ∧
        column = ⟨name, type, decide (.primaryKey ∈ given), decide (.notNull ∈ given)⟩ := by
  rw [constraints_eq_ok 3 _ _ _ _ (by simp [unset, isSet])]
  simp only [foldl_set, Bool.false_or]
  have fresh : ∀ which, isSet which ⟨name, type, false, false⟩ = false := by
    intro which
    cases which with
    | primaryKey | notNull => rfl
  constructor
  · rintro ⟨read, given, shape, next, once, -, kinds, same⟩
    exact ⟨read, given, shape, next, once, kinds, same⟩
  · rintro ⟨read, given, shape, next, once, kinds, same⟩
    exact ⟨read, given, shape, next, once, fun which _ => fresh which, kinds, same⟩

theorem columnDefinition_reads : Reads columnDefinition ColDef (NextNot isFirst) := by
  intro tokens column rest
  rw [columnDefinition]
  simp only [bind_eq_ok, identifier_eq_ok, current_eq_ok]
  constructor
  · rintro ⟨name, _, ⟨nameToken, rfl, isName, rfl⟩, type, _, ⟨rfl, after, rfl⟩, run⟩
    by_cases isType : isColumnType type.type
    · rw [if_neg (not_not.mpr isType), advance_bind] at run
      obtain ⟨built, left, loop, done⟩ := bind_eq_ok.mp run
      obtain ⟨rfl, rfl⟩ := pure_eq_ok.mp done
      obtain ⟨read, given, shape, next, once, kinds, rfl⟩ := constraints_fresh_eq_ok.mp loop
      refine ⟨nameToken :: type :: read, ?_, ?_, next⟩
      · rw [cons_append, cons_append, ← shape]
        rfl
      · simpa using ColDef.intro isName isType once kinds
    · rw [if_pos isType] at run
      exact absurd run errorf_ne_ok
  · rintro ⟨_, rfl, @⟨name, type, read, given, isName, isType, once, kinds⟩, next⟩
    refine ⟨_, _, ⟨name, rfl, isName, rfl⟩, type, _, ⟨rfl, _, rfl⟩, ?_⟩
    rw [if_neg (not_not.mpr isType)]
    refine bind_eq_ok.mpr ⟨(), _, rfl, bind_eq_ok.mpr ⟨_, rest,
      constraints_fresh_eq_ok.mpr ⟨read, given, rfl, next, once, kinds, rfl⟩, ?_⟩⟩
    exact pure_eq_ok.mpr ⟨by simp, rfl⟩

/-! ## Predicates and clauses -/

theorem predicate_reads : Reads predicate Pred (fun _ => True) := by
  intro tokens result rest
  rw [predicate]
  simp only [bind_eq_ok, identifier_eq_ok, current_eq_ok]
  constructor
  · rintro ⟨_, _, ⟨column, rfl, isColumn, rfl⟩, op, _, ⟨rfl, after, rfl⟩, run⟩
    by_cases isOp : isComparison op.type
    · rw [if_neg (not_not.mpr isOp), advance_bind] at run
      obtain ⟨value, left, read, done⟩ := bind_eq_ok.mp run
      obtain ⟨rfl, rfl⟩ := pure_eq_ok.mp done
      obtain ⟨_, shape, ⟨token, rfl, isValue⟩, -⟩ := (literal_reads _ _ _).mp read
      obtain rfl : after = token :: left := shape
      exact ⟨[column, op, token], rfl, .intro isColumn isOp isValue, trivial⟩
    · rw [if_pos isOp] at run
      exact absurd run errorf_ne_ok
  · rintro ⟨_, rfl, @⟨column, op, value, literal, isColumn, isOp, isValue⟩, -⟩
    refine ⟨_, _, ⟨column, rfl, isColumn, rfl⟩, op, _, ⟨rfl, _, rfl⟩, ?_⟩
    rw [if_neg (not_not.mpr isOp)]
    exact bind_eq_ok.mpr ⟨(), _, rfl, bind_eq_ok.mpr ⟨literal, rest,
      literal_eq_ok.mpr ⟨isValue, rfl⟩, pure_eq_ok.mpr ⟨rfl, rfl⟩⟩⟩

/-- Names up to the first token that is no comma. -/
theorem identifiers_reads (context : String) :
    Reads (sequence (Token.is .comma) (identifier context)) (SepBy (Token.is .comma) Ident)
      (fun rest => True ∧ NextNot (Token.is .comma) rest) :=
  (reads_single identifier_eq_ok).sequence fun _ _ _ => trivial

theorem openList_eq_ok : openList context tokens = .ok (value, rest) ↔
      ∃ token, tokens = token :: rest ∧ token.type = .lParen := by
  have same : openList context tokens = .ok (value, rest) ↔ expect .lParen tokens =
    .ok (value, rest) := by
    rw [openList]
    split
    next err failed =>
      rw [failed]
      exact iff_of_false (by simp) (by simp)
    next => rfl
  rw [same, expect_eq_ok]

/-- A kind of token is not another one. -/
theorem is_eq_false {other : TokenType} {token : Token} (type : token.type = kind)
    (differs : kind ≠ other) : Token.is other token = false := by
  rw [Token.is, type, decide_eq_false differs]

theorem identifierList_eq_ok {names : List Bytes} :
    identifierList context tokens = .ok (names, rest) ↔
      ∃ lParen read rParen, tokens = lParen :: (read ++ rParen :: rest) ∧ lParen.type = .lParen ∧
        rParen.type = .rParen ∧ SepBy (Token.is .comma) Ident read names := by
  rw [identifierList]
  simp only [bind_eq_ok, openList_eq_ok, expect_eq_ok, identifiers_reads context _ _ _, pure_eq_ok]
  constructor
  · rintro ⟨_, _, ⟨lParen, rfl, opens⟩, _, _, ⟨read, rfl, items, -, -⟩, _, _, ⟨rParen, rfl, closes⟩,
      rfl, rfl⟩
    exact ⟨lParen, read, rParen, rfl, opens, closes, items⟩
  · rintro ⟨lParen, read, rParen, rfl, opens, closes, items⟩
    exact ⟨(), _, ⟨lParen, rfl, opens⟩, names, _,
      ⟨read, rfl, items, trivial, nextNot_cons.mpr (is_eq_false closes (by decide))⟩,
      (), _, ⟨rParen, rfl, closes⟩, rfl, rfl⟩

theorem selectList_eq_ok {result : List Bytes × Bool} : selectList tokens = .ok (result, rest) ↔
      ∃ read, tokens = read ++ rest ∧ SelectList read result ∧
        (result.2 = false → NextNot (Token.is .comma) rest) := by
  rw [selectList, bind_eq_ok]
  simp only [current_eq_ok]
  constructor
  · rintro ⟨token, _, ⟨rfl, after, rfl⟩, run⟩
    by_cases isStar : token.type = .star
    · rw [if_pos isStar, advance_bind] at run
      obtain ⟨rfl, rfl⟩ := pure_eq_ok.mp run
      exact ⟨[token], rfl, .all isStar, by simp⟩
    · rw [if_neg isStar] at run
      obtain ⟨names, left, read, done⟩ := bind_eq_ok.mp run
      obtain ⟨rfl, rfl⟩ := pure_eq_ok.mp done
      obtain ⟨read, shape, items, -, next⟩ := (identifiers_reads _ _ _ _).mp read
      exact ⟨read, shape, .columns items, fun _ => next⟩
  · rintro ⟨read, rfl, selected, next⟩
    cases selected with
    | @all star kind =>
      refine ⟨star, _, ⟨rfl, _, rfl⟩, ?_⟩
      rw [if_pos kind]
      rfl
    | @columns read names items =>
      obtain ⟨first, after, shape, isFirst⟩ : ∃ first after, read = first :: after ∧
          first.type = .identifier := by
        cases items with
        | one item =>
          obtain ⟨first, rfl, kind, -⟩ := item
          exact ⟨first, [], rfl, kind⟩
        | more item =>
          obtain ⟨first, rfl, kind, -⟩ := item
          exact ⟨first, _, rfl, kind⟩
      refine ⟨first, _, ⟨rfl, after ++ rest, by rw [shape, cons_append]⟩, ?_⟩
      rw [if_neg (by simp [isFirst])]
      exact bind_eq_ok.mpr ⟨names, rest, (identifiers_reads _ _ _ _).mpr
        ⟨read, rfl, items, trivial, next rfl⟩, pure_eq_ok.mpr ⟨rfl, rfl⟩⟩

theorem whereClause_eq_ok {predicates : List Predicate} :
    whereClause tokens = .ok (predicates, rest) ↔
      ∃ read, tokens = read ++ rest ∧ WhereClause read predicates ∧
        (read = [] → NextNot (Token.is .where) rest) ∧
        (read ≠ [] → NextNot (Token.is .and) rest) := by
  have items_reads : Reads (sequence (Token.is .and) predicate) (SepBy (Token.is .and) Pred)
      (fun rest => True ∧ NextNot (Token.is .and) rest) :=
    predicate_reads.sequence fun _ _ _ => trivial
  rw [whereClause, bind_eq_ok]
  simp only [current_eq_ok]
  constructor
  · rintro ⟨token, _, ⟨rfl, after, rfl⟩, run⟩
    by_cases isWhere : token.type = .where
    · rw [if_pos isWhere, advance_bind] at run
      obtain ⟨read, shape, items, -, next⟩ := (items_reads _ _ _).mp run
      obtain rfl : after = read ++ rest := shape
      exact ⟨token :: read, rfl, .some isWhere items, by simp, fun _ => next⟩
    · rw [if_neg isWhere] at run
      obtain ⟨rfl, rfl⟩ := pure_eq_ok.mp run
      exact ⟨[], rfl, .none, fun _ => nextNot_cons.mpr (decide_eq_false isWhere), by simp⟩
  · rintro ⟨read, rfl, clause, bare, full⟩
    cases clause with
    | none =>
      obtain ⟨token, after, rfl, other⟩ := bare rfl
      refine ⟨token, _, ⟨rfl, after, rfl⟩, ?_⟩
      rw [if_neg (of_decide_eq_false other)]
      rfl
    | @some first read predicates kind items =>
      refine ⟨first, _, ⟨rfl, _, rfl⟩, ?_⟩
      rw [if_pos kind]
      exact bind_eq_ok.mpr ⟨(), read ++ rest, rfl,
        (items_reads _ _ _).mpr ⟨read, rfl, items, trivial, full (by simp)⟩⟩

/-! ## Statements

A statement is read up to the end of the tokens. -/

section Statements

variable {last : Token} {after : List Token} (isLast : last.type = .eof)

include isLast

theorem optionalSemicolon_eq_ok {value : Unit} :
    optionalSemicolon tokens = .ok (value, last :: after) ↔
      ∃ ends, tokens = ends ++ last :: after ∧ Ends ends := by
  rw [optionalSemicolon, bind_eq_ok]
  simp only [current_eq_ok]
  constructor
  · rintro ⟨token, _, ⟨rfl, left, rfl⟩, run⟩
    by_cases isSemicolon : token.type = .semicolon
    · rw [if_pos isSemicolon] at run
      obtain rfl : left = last :: after := advance_eq_ok.mp run
      exact ⟨[token], rfl, .semicolon isSemicolon⟩
    · rw [if_neg isSemicolon] at run
      obtain ⟨-, shape⟩ := pure_eq_ok.mp run
      exact ⟨[], shape, .bare⟩
  · rintro ⟨ends, rfl, finish⟩
    cases finish with
    | bare =>
      refine ⟨last, _, ⟨rfl, after, rfl⟩, ?_⟩
      rw [if_neg (by simp [isLast])]
      rfl
    | @semicolon token kind =>
      refine ⟨token, _, ⟨rfl, _, rfl⟩, ?_⟩
      rw [if_pos kind]
      rfl

/-- What follows the last part of a statement. -/
theorem ends_nextNot {ends : List Token} (finish : Ends ends)
    {kind : TokenType} (eof : .eof ≠ kind) (semicolon : .semicolon ≠ kind) :
    NextNot (Token.is kind) (ends ++ last :: after) := by
  cases finish with
  | bare => exact nextNot_cons.mpr (is_eq_false isLast eof)
  | semicolon isSemicolon => exact nextNot_cons.mpr (is_eq_false isSemicolon semicolon)

variable {result : Statement}

theorem createTable_eq_ok : createTable tokens = .ok (result, last :: after) ↔
      ∃ read, tokens = read ++ last :: after ∧ Derives read result ∧
        ∃ statement, result = .createTable statement := by
  have items_reads : Reads (sequence (Token.is .comma) columnDefinition)
      (SepBy (Token.is .comma) ColDef) (fun rest => NextNot isFirst rest ∧
        NextNot (Token.is .comma) rest) := by
    refine columnDefinition_reads.sequence fun separator rest isComma => nextNot_cons.mpr ?_
    have kind : separator.type = .comma := of_decide_eq_true isComma
    simp [isFirst, kind]
  rw [createTable]
  simp only [bind_eq_ok, expect_eq_ok, identifier_eq_ok, items_reads _ _ _, pure_eq_ok]
  constructor
  · rintro ⟨_, _, ⟨create, rfl, isCreate⟩, _, _, ⟨table, rfl, isTable⟩, _, _,
      ⟨name, rfl, isName, rfl⟩, _, _, ⟨lParen, rfl, opens⟩, columns, _,
        ⟨definitions, rfl, items, -, -⟩,
      _, _, ⟨rParen, rfl, closes⟩, _, _, finish, rfl, rfl⟩
    obtain ⟨ends, rfl, ending⟩ := (optionalSemicolon_eq_ok isLast).mp finish
    refine ⟨create :: table :: name :: lParen :: (definitions ++ rParen :: ends), by simp,
      .createTable ?_ items closes ending, _, rfl⟩
    simp [isCreate, isTable, isName, opens]
  · rintro ⟨_, rfl, derives, statement, rfl⟩
    obtain @⟨create, table, name, lParen, rParen, definitions, ends, columns, opening, items,
      closes, finish⟩ := derives
    simp only [map_cons, map_nil, List.cons.injEq] at opening
    obtain ⟨isCreate, isTable, isName, opens, -⟩ := opening
    refine ⟨(), _, ⟨create, rfl, isCreate⟩, (), _, ⟨table, rfl, isTable⟩, _, _,
      ⟨name, rfl, isName, rfl⟩, (), _, ⟨lParen, rfl, opens⟩, columns,
        rParen :: (ends ++ last :: after),
      ⟨definitions, by simp, items, ?_, ?_⟩, (), _, ⟨rParen, rfl, closes⟩, (), _,
      (optionalSemicolon_eq_ok isLast).mpr ⟨ends, rfl, finish⟩, rfl, rfl⟩
    · exact nextNot_cons.mpr (by simp [isFirst, closes])
    · exact nextNot_cons.mpr (is_eq_false closes (by decide))

theorem insert_eq_ok : insert tokens = .ok (result, last :: after) ↔
      ∃ read, tokens = read ++ last :: after ∧ Derives read result ∧
        ∃ statement, result = .insert statement := by
  have items_reads : Reads (sequence (Token.is .comma) literal) (SepBy (Token.is .comma) Lit)
      (fun rest => True ∧ NextNot (Token.is .comma) rest) :=
    literal_reads.sequence fun _ _ _ => trivial
  rw [insert]
  simp only [bind_eq_ok, expect_eq_ok, identifier_eq_ok, identifierList_eq_ok, items_reads _ _ _]
  constructor
  · rintro ⟨_, _, ⟨insert, rfl, isInsert⟩, _, _, ⟨into, rfl, isInto⟩, _, _,
      ⟨table, rfl, isTable, rfl⟩, columns, _,
        ⟨lParen, names, rParen, rfl, opens, closes, columnNames⟩, _, _, ⟨values, rfl, isValues⟩,
      _, _, ⟨valuesParen, rfl, valuesOpen⟩, literals, _, ⟨read, rfl, items, -, -⟩,
      _, _, ⟨close, rfl, valuesClose⟩, _, _, finish, run⟩
    by_cases counts : columns.length = literals.length
    · rw [if_neg (not_not.mpr counts)] at run
      obtain ⟨rfl, rfl⟩ := pure_eq_ok.mp run
      obtain ⟨ends, rfl, ending⟩ := (optionalSemicolon_eq_ok isLast).mp finish
      refine ⟨insert :: into :: table :: lParen :: (names ++ rParen :: values :: valuesParen ::
        (read ++ close :: ends)), by simp,
        .insert ?_ columnNames ?_ items valuesClose ending counts, _, rfl⟩
      · simp [isInsert, isInto, isTable, opens]
      · simp [closes, isValues, valuesOpen]
    · rw [if_pos counts] at run
      exact absurd run errorf_ne_ok
  · rintro ⟨_, rfl, derives, statement, rfl⟩
    obtain - | @⟨insert, into, table, lParen, rParen, values, valuesParen, close, names, read, ends,
      columns, literals, opening, columnNames, middle, items, valuesClose, finish, counts⟩ :=
        derives
    simp only [map_cons, map_nil, List.cons.injEq] at opening middle
    obtain ⟨isInsert, isInto, isTable, opens, -⟩ := opening
    obtain ⟨closes, isValues, valuesOpen, -⟩ := middle
    refine ⟨(), _, ⟨insert, rfl, isInsert⟩, (), _, ⟨into, rfl, isInto⟩, _, _,
      ⟨table, rfl, isTable, rfl⟩, columns, values :: valuesParen ::
        (read ++ close :: (ends ++ last :: after)),
      ⟨lParen, names, rParen, by simp, opens, closes, columnNames⟩, (), _, ⟨values, rfl, isValues⟩,
      (), _, ⟨valuesParen, rfl, valuesOpen⟩, literals, _, ⟨read, rfl, items, trivial, ?_⟩,
      (), _, ⟨close, rfl, valuesClose⟩, (), _,
      (optionalSemicolon_eq_ok isLast).mpr ⟨ends, rfl, finish⟩, ?_⟩
    · exact nextNot_cons.mpr (is_eq_false valuesClose (by decide))
    · rw [if_neg (not_not.mpr counts)]
      exact pure_eq_ok.mpr ⟨rfl, rfl⟩

theorem selectStatement_eq_ok : selectStatement tokens = .ok (result, last :: after) ↔
      ∃ read, tokens = read ++ last :: after ∧ Derives read result ∧
        ∃ statement, result = .select statement := by
  rw [selectStatement]
  simp only [bind_eq_ok, expect_eq_ok, identifier_eq_ok, selectList_eq_ok, whereClause_eq_ok,
    pure_eq_ok]
  constructor
  · rintro ⟨_, _, ⟨select, rfl, isSelect⟩, ⟨columns, all⟩, _, ⟨list, rfl, selected, -⟩,
      _, _, ⟨from_, rfl, isFrom⟩, _, _, ⟨table, rfl, isTable, rfl⟩, predicates, _,
      ⟨clause, rfl, filtered, -, -⟩, _, _, finish, rfl, rfl⟩
    obtain ⟨ends, rfl, ending⟩ := (optionalSemicolon_eq_ok isLast).mp finish
    refine ⟨select :: (list ++ from_ :: table :: (clause ++ ends)), by simp,
      .select isSelect selected ?_ filtered ending, _, rfl⟩
    simp [isFrom, isTable]
  · rintro ⟨_, rfl, derives, statement, rfl⟩
    obtain - | - | @⟨select, from_, table, list, clause, ends, columns, all, predicates, isSelect,
      selected, middle, filtered, finish⟩ := derives
    simp only [map_cons, map_nil, List.cons.injEq] at middle
    obtain ⟨isFrom, isTable, -⟩ := middle
    refine ⟨(), _, ⟨select, rfl, isSelect⟩, (columns, all),
      from_ :: table :: (clause ++ (ends ++ last :: after)), ⟨list, by simp, selected, ?_⟩,
      (), _, ⟨from_, rfl, isFrom⟩, _, _, ⟨table, rfl, isTable, rfl⟩, predicates, _,
      ⟨clause, rfl, filtered, ?_, ?_⟩, (), _,
      (optionalSemicolon_eq_ok isLast).mpr ⟨ends, rfl, finish⟩, rfl, rfl⟩
    · exact fun _ => nextNot_cons.mpr (is_eq_false isFrom (by decide))
    · exact fun _ => ends_nextNot isLast finish (by decide) (by decide)
    · exact fun _ => ends_nextNot isLast finish (by decide) (by decide)

/-- The first token of a statement says which one it is. -/
def keyword : Statement → TokenType
  | .createTable _ => .create
  | .insert _ => .insert
  | .select _ => .select

omit isLast in
theorem derives_head {read : List Token} (derives : Derives read result) :
    ∃ token left, read = token :: left ∧ token.type = keyword result := by
  cases derives with
  | createTable opening =>
    simp only [map_cons, List.cons.injEq] at opening
    exact ⟨_, _, rfl, opening.1⟩
  | insert opening =>
    simp only [map_cons, List.cons.injEq] at opening
    exact ⟨_, _, rfl, opening.1⟩
  | select opening => exact ⟨_, _, rfl, opening⟩

omit isLast in
theorem statement_cons (token : Token) (left : List Token) : statement (token :: left) =
      if token.type = .create then createTable (token :: left)
      else if token.type = .insert then insert (token :: left)
      else if token.type = .select then selectStatement (token :: left)
      else errorf "expected CREATE, INSERT, or SELECT" (fun _ => []) (token :: left) := by
  obtain ⟨kind, text, pos⟩ := token
  cases kind with
  | _ => rfl

theorem statement_eq_ok : statement tokens = .ok (result, last :: after) ↔
      ∃ read, tokens = read ++ last :: after ∧ Derives read result := by
  constructor
  · intro run
    cases tokens with
    | nil => cases run
    | cons token left =>
      rw [statement_cons] at run
      split_ifs at run
      · obtain ⟨read, shape, derives, -⟩ := (createTable_eq_ok isLast).mp run
        exact ⟨read, shape, derives⟩
      · obtain ⟨read, shape, derives, -⟩ := (insert_eq_ok isLast).mp run
        exact ⟨read, shape, derives⟩
      · obtain ⟨read, shape, derives, -⟩ := (selectStatement_eq_ok isLast).mp run
        exact ⟨read, shape, derives⟩
      · exact absurd run errorf_ne_ok
  · rintro ⟨read, rfl, derives⟩
    obtain ⟨token, left, rfl, kind⟩ := derives_head derives
    rw [cons_append, statement_cons, kind]
    cases result with
    | createTable statement =>
      exact (createTable_eq_ok isLast).mpr ⟨_, rfl, derives, statement, rfl⟩
    | insert statement =>
      exact (insert_eq_ok isLast).mpr ⟨_, rfl, derives, statement, rfl⟩
    | select statement =>
      exact (selectStatement_eq_ok isLast).mpr ⟨_, rfl, derives, statement, rfl⟩

end Statements

end Parse

end GoDatabase.Sql
