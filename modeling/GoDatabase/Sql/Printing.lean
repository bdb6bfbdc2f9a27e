import GoDatabase.Sql.Safety
import Mathlib.Data.Nat.Digits.Lemmas

/-!
# Printed statements

A statement is printed as the spellings of its tokens, each one before a blank.  The
parser returns exactly the statements of the grammar, and so it gives back every
statement that is printed.
-/

namespace GoDatabase.Sql

open Library Library.Parser Lexer Grammar List

/-! ## Words -/

/-- A token as it is printed. -/
structure Word where
  kind : TokenType
  text : Bytes
  spelling : Bytes

/-- A keyword or a punctuation mark. -/
def Word.fixed (kind : TokenType) : Word := ⟨kind, ascii kind.name, ascii kind.name⟩

def Word.name (name : Bytes) : Word := ⟨.identifier, name, name⟩

/-- The decimal digits of a number. -/
def digits (value : Nat) : Bytes :=
  if value = 0 then [48]
    else ((Nat.digits 10 value).map fun digit => UInt8.ofNat (48 + digit)).reverse

def number (value : Int64) : Bytes :=
  if value.toInt < 0 then minus :: digits value.toInt.natAbs else digits value.toInt.natAbs

def Literal.word (literal : Literal) : Word :=
  match literal.value with
  | .int64 value => ⟨.integer, number value, number value⟩
  | .string value => ⟨.string, value, quote :: (doubled value ++ [quote])⟩
  | .bool true => .fixed .true
  | .bool false => .fixed .false
  | _ => .fixed .null

def separated (separator : Word) : List (List Word) → List Word
  | [] => []
  | [words] => words
  | words :: next :: rest => words ++ separator :: separated separator (next :: rest)

def ColumnDefinition.words (column : ColumnDefinition) : List Word :=
  .name column.name :: .fixed column.type ::
    if column.primaryKey then [.fixed .primary, .fixed .key]
    else if column.notNull then [.fixed .not, .fixed .null] else []

def Predicate.words (predicate : Predicate) : List Word :=
  [.name predicate.column, .fixed predicate.op, predicate.value.word]

def names (columns : List Bytes) : List Word :=
  separated (.fixed .comma) (columns.map fun column => [.name column])

def Statement.words : Statement → List Word
  | .createTable statement =>
    .fixed .create :: .fixed .table :: .name statement.name :: .fixed .lParen ::
      (separated (.fixed .comma) (statement.columns.map ColumnDefinition.words) ++ [.fixed .rParen])
  | .insert statement =>
    .fixed .insert :: .fixed .into :: .name statement.table :: .fixed .lParen ::
      (names statement.columns ++ .fixed .rParen :: .fixed .values :: .fixed .lParen ::
        (separated (.fixed .comma) (statement.values.map fun literal => [literal.word]) ++
          [.fixed .rParen]))
  | .select statement =>
    .fixed .select :: ((if statement.all then [.fixed .star] else names statement.columns) ++
      .fixed .from :: .name statement.table ::
        (if statement.where_ = [] then []
        else .fixed .where :: separated (.fixed .and) (statement.where_.map Predicate.words)))

def render (words : List Word) : Bytes := words.flatMap fun word => word.spelling ++ [32]

def print (statement : Statement) : Bytes := render statement.words

/-! ## What can be printed -/

/-- The statements that a text can hold: names that are no keywords, at least one column,
literals whose kind is that of their value. -/
def Literal.Printable (literal : Literal) : Prop :=
  match literal.value with
  | .int64 _ => literal.kind = .integer
  | .string _ => literal.kind = .string
  | .bool true => literal.kind = .true
  | .bool false => literal.kind = .false
  | .null => literal.kind = .null
  | _ => False

def Name (name : Bytes) : Prop := Spells .identifier name name

structure ColumnDefinition.Printable (column : ColumnDefinition) : Prop where
  name : Name column.name
  type : isColumnType column.type
  primary : column.primaryKey → column.notNull

structure Predicate.Printable (predicate : Predicate) : Prop where
  column : Name predicate.column
  op : isComparison predicate.op
  value : predicate.value.Printable

def Statement.Printable : Statement → Prop
  | .createTable statement =>
    Name statement.name ∧ statement.columns ≠ [] ∧ ∀ column ∈ statement.columns, column.Printable
  | .insert statement =>
    Name statement.table ∧ statement.columns ≠ [] ∧ (∀ column ∈ statement.columns, Name column) ∧
      (∀ literal ∈ statement.values, literal.Printable) ∧
      statement.columns.length = statement.values.length
  | .select statement =>
    Name statement.table ∧ (statement.all ↔ statement.columns = []) ∧
      (∀ column ∈ statement.columns, Name column) ∧
      ∀ predicate ∈ statement.where_, predicate.Printable

/-! ## The tokens of printed words -/

/-- Words at the byte positions at which they are printed. -/
def place : Nat → List Word → List Token
  | _, [] => []
  | pos, word :: rest => ⟨word.kind, word.text, pos⟩ :: place (pos + word.spelling.length + 1) rest

theorem place_append (left right : List Word) : ∀ pos, ∃ next,
    place pos (left ++ right) = place pos left ++ place next right := by
  induction left with
  | nil => exact fun pos => ⟨pos, rfl⟩
  | cons word left ih =>
    intro pos
    obtain ⟨next, shape⟩ := ih (pos + word.spelling.length + 1)
    exact ⟨next, congrArg (_ :: ·) shape⟩

/-- A word whose spelling is read as its token. -/
def Word.Valid (word : Word) : Prop := Spells word.kind word.text word.spelling

theorem spelled_render (words : List Word) (valid : ∀ word ∈ words, word.Valid) :
    ∀ (pos : Nat) (gap : Bytes), (∀ ch ∈ gap, isSpace ch) →
      Spelled Breaks pos (place (pos + gap.length) words) (gap ++ render words) := by
  induction words with
  | nil =>
    intro pos gap white
    rw [render, flatMap_nil, append_nil]
    exact .done white
  | cons word words ih =>
    intro pos gap white
    have blank : ∀ ch ∈ [(32 : UInt8)], isSpace ch := forall_mem_singleton.mpr rfl
    have rest := ih (fun word mem => valid word (mem_cons_of_mem _ mem))
      (pos + gap.length + word.spelling.length) [32] blank
    rw [render, flatMap_cons, append_assoc]
    refine .token white (valid word (mem_cons_self ..)) ?_ rest
    intro ch first
    obtain rfl : 32 = ch := Option.some.inj first
    decide

theorem lex_render (words : List Word) (valid : ∀ word ∈ words, word.Valid) :
    lex (render words) = .ok (place 0 words ++ [⟨.eof, [], (render words).length⟩]) :=
  lex_of_spelled (spelled_render words valid 0 [] (by simp))

/-! ## Valid words -/

variable {kind : TokenType}

theorem fixed_keyword (mem : kind ∈ keywords.map Prod.snd) : (Word.fixed kind).Valid := by
  have spelled : ∀ kind ∈ keywords.map Prod.snd, ∃ ch rest, ascii kind.name = ch :: rest ∧
      isIdentifierStart ch ∧ (∀ part ∈ rest, isIdentifierPart part) ∧
        keywords.lookup (toUpper (ch :: rest)) = some kind := by
    simp only [keywords, map_cons, map_nil, forall_mem_cons]
    refine ⟨?_, ?_, ?_, ?_, ?_, ?_, ?_, ?_, ?_, ?_, ?_, ?_, ?_, ?_, ?_, ?_, ?_, ?_, ?_, by simp⟩
    all_goals exact ⟨_, _, rfl, rfl, all_eq_true.mp (by decide), by decide⟩
  obtain ⟨ch, rest, shape, start, parts, found⟩ := spelled kind mem
  rw [Word.Valid, Word.fixed, shape]
  exact .keyword start parts found

theorem fixed_punctuation {ch : UInt8} {kind : TokenType}
    (found : punctuationKinds.lookup ch = some kind) : (Word.fixed kind).Valid := by
  have spelled : ∀ entry ∈ punctuationKinds, ascii entry.2.name = [entry.1] := by decide
  have shape : ascii kind.name = [ch] := spelled _ (lookup_mem found)
  rw [Word.Valid, Word.fixed, shape]
  exact .punctuation found

theorem fixed_columnType (type : isColumnType kind) : (Word.fixed kind).Valid := by
  apply fixed_keyword
  simp only [isColumnType, Bool.or_eq_true, decide_eq_true_eq] at type
  rcases type with ((rfl | rfl) | rfl) | rfl
  all_goals decide

theorem fixed_comparison (op : isComparison kind) : (Word.fixed kind).Valid := by
  simp only [isComparison, Bool.or_eq_true, decide_eq_true_eq] at op
  rcases op with ((((rfl | rfl) | rfl) | rfl) | rfl) | rfl
  · exact @fixed_punctuation 61 _ rfl
  · exact .notEqual
  · exact @fixed_punctuation 60 _ rfl
  · exact .lessEqual
  · exact @fixed_punctuation 62 _ rfl
  · exact .greaterEqual

/-! ### Numbers -/

variable {digit : Nat}

theorem digit_toNat (small : digit < 10) : (UInt8.ofNat (48 + digit)).toNat = 48 + digit := by
  rw [UInt8.toNat_ofNat']
  omega

theorem isDigit_ofNat (small : digit < 10) : isDigit (UInt8.ofNat (48 + digit)) := by
  simp only [isDigit, Bool.and_eq_true, decide_eq_true_eq, UInt8.le_iff_toNat_le, digit_toNat small,
    UInt8.reduceToNat]
  omega

theorem digits_isDigit (value : Nat) : ∀ ch ∈ digits value, isDigit ch := by
  rw [digits]
  split_ifs with zero
  · exact forall_mem_singleton.mpr rfl
  · intro ch mem
    obtain ⟨digit, isDigit, rfl⟩ := mem_map.mp (mem_reverse.mp mem)
    exact isDigit_ofNat (Nat.digits_lt_base (by decide) isDigit)

theorem digits_ne_nil (value : Nat) : digits value ≠ [] := by
  rw [digits]
  split_ifs with zero
  · simp
  · simpa using Nat.digits_ne_nil_iff_ne_zero.mpr zero

theorem decimal_map {list : List Nat} (small : ∀ digit ∈ list, digit < 10) :
    decimal (list.map fun digit => UInt8.ofNat (48 + digit)).reverse = Nat.ofDigits 10 list := by
  rw [decimal, foldl_reverse]
  induction list with
  | nil => rfl
  | cons digit list ih =>
    rw [map_cons, foldr_cons, Nat.ofDigits_cons,
      ih fun other mem => small other (mem_cons_of_mem _ mem),
      digit_toNat (small digit (mem_cons_self ..))]
    omega

theorem decimal_digits (value : Nat) : decimal (digits value) = value := by
  rw [digits]
  split_ifs with zero
  · rw [zero]
    rfl
  · rw [decimal_map fun digit mem => Nat.digits_lt_base (by decide) mem, Nat.ofDigits_digits]

theorem signLength_of_digit {ch : UInt8} {rest : Bytes} (digit : isDigit ch) :
    signLength (ch :: rest) = 0 := by
  rw [signLength_cons, if_neg]
  rintro (rfl | rfl)
  · cases digit
  · cases digit

theorem parseInt_digits_eq (value : Nat) (small : value < 2 ^ 63) :
    parseInt (digits value) = some (Int64.ofInt value) := by
  have all := digits_isDigit value
  have same := decimal_digits value
  obtain ⟨ch, rest, shape⟩ := exists_cons_of_ne_nil (digits_ne_nil value)
  rw [shape] at all same ⊢
  have first := all ch (mem_cons_self ..)
  rw [parseInt, signLength_of_digit first, drop_zero, same]
  rw [if_neg (by simpa using all), if_neg, if_pos small]
  intro isMinus
  obtain rfl : ch = minus := Option.some.inj isMinus
  cases first

theorem parseInt_minus_digits (value : Nat) (small : value ≤ 2 ^ 63) :
    parseInt (minus :: digits value) = some (Int64.ofInt (-value)) := by
  have valid : ¬ (digits value = [] ∨ (digits value).any (fun ch => !isDigit ch)) := by
    simpa using ⟨digits_ne_nil value, digits_isDigit value⟩
  have rest : (minus :: digits value).drop (signLength (minus :: digits value)) = digits value := by
    rw [signLength_cons, if_pos (Or.inr rfl)]
    rfl
  rw [parseInt, rest, decimal_digits, if_neg valid, List.head?_cons, if_pos rfl, if_pos small]

theorem parseInt_number (value : Int64) : parseInt (number value) = some value := by
  have low := Int64.le_toInt value
  have high := Int64.toInt_lt value
  rw [number]
  split_ifs with negative
  · have same : (-(value.toInt.natAbs : Int)) = value.toInt := by omega
    rw [parseInt_minus_digits _ (by omega), same, Int64.ofInt_toInt]
  · have same : (value.toInt.natAbs : Int) = value.toInt := by omega
    rw [parseInt_digits_eq _ (by omega), same, Int64.ofInt_toInt]

/-! ## Derivations of printed statements -/

variable {literal : Literal} {column : ColumnDefinition} {predicate : Predicate}
  {columns : List Bytes} {statement : Statement}

theorem Literal.Printable.word_spec (printable : literal.Printable) :
    literal.word.Valid ∧ ∀ pos, IsLiteral ⟨literal.word.kind, literal.word.text, pos⟩ literal := by
  obtain ⟨kind, value⟩ := literal
  cases value with
  | null =>
    obtain rfl : kind = .null := printable
    exact ⟨fixed_keyword (by decide), fun pos => .null rfl⟩
  | int64 value =>
    obtain rfl : kind = .integer := printable
    exact ⟨.integer (parseInt_number value), fun pos => .integer rfl (parseInt_number value)⟩
  | string value =>
    obtain rfl : kind = .string := printable
    exact ⟨.string value, fun pos => .string rfl⟩
  | bool value =>
    cases value with
    | false =>
      obtain rfl : kind = .false := printable
      exact ⟨fixed_keyword (by decide), fun pos => .false rfl⟩
    | true =>
      obtain rfl : kind = .true := printable
      exact ⟨fixed_keyword (by decide), fun pos => .true rfl⟩
  | bytes value => cases printable
  | other => cases printable

theorem ColumnDefinition.Printable.derives (printable : column.Printable)
    (pos : Nat) : ColDef (place pos column.words) column := by
  obtain ⟨name, type, primaryKey, notNull⟩ := column
  have built : ∀ given : List Constraint, ∀ rest : List Token, given.Nodup →
      rest.map Token.type = given.flatMap Constraint.kinds →
      decide (.primaryKey ∈ given) = primaryKey →
      decide (.notNull ∈ given ∨ .primaryKey ∈ given) = notNull →
      ∀ next, ColDef (⟨.identifier, name, pos⟩ :: ⟨type, ascii type.name, next⟩ :: rest)
        ⟨name, type, primaryKey, notNull⟩ := by
    rintro given rest once kinds rfl rfl next
    exact .intro rfl printable.type once kinds
  cases primaryKey with
  | true =>
    obtain rfl : notNull = true := printable.primary rfl
    exact built [.primaryKey] _ (by decide) rfl rfl rfl _
  | false =>
    cases notNull with
    | true => exact built [.notNull] _ (by decide) rfl rfl rfl _
    | false => exact built [] _ (by decide) rfl rfl rfl _

theorem Predicate.Printable.derives (printable : predicate.Printable)
    (pos : Nat) : Pred (place pos predicate.words) predicate :=
  .intro rfl printable.op (printable.value.word_spec.2 _)

/-- Items with a separator between them derive their list. -/
theorem place_separated {α : Type} {Item : List Token → α → Prop} {kind : TokenType}
    {words : α → List Word} : ∀ {items : List α}, items ≠ [] →
    (∀ item ∈ items, ∀ pos, Item (place pos (words item)) item) → ∀ pos,
      SepBy (Token.is kind) Item (place pos (separated (.fixed kind) (items.map words))) items
  | [], nonempty, _, _ => absurd rfl nonempty
  | [item], _, derives, pos => .one (derives item (mem_singleton_self _) pos)
  | item :: next :: rest, _, derives, pos => by
    obtain ⟨after, shape⟩ := place_append (words item)
      (.fixed kind :: separated (.fixed kind) ((next :: rest).map words)) pos
    have isKind : Token.is kind ⟨kind, ascii kind.name, after⟩ := decide_eq_true rfl
    have more := @place_separated α Item kind words (next :: rest) (by simp)
      (fun item mem => derives item (mem_cons_of_mem _ mem))
      (after + (Word.fixed kind).spelling.length + 1)
    have all := SepBy.more (derives item (mem_cons_self ..) pos) isKind more
    rw [map_cons, map_cons, separated, ← map_cons, shape]
    exact all

theorem place_names (nonempty : columns ≠ []) (pos : Nat) :
    SepBy (Token.is .comma) Ident (place pos (names columns)) columns :=
  place_separated nonempty (fun column _ pos => ⟨⟨.identifier, column, pos⟩, rfl, rfl, rfl⟩) pos

theorem Statement.Printable.derives (printable : statement.Printable)
    (pos : Nat) : Derives (place pos statement.words) statement := by
  cases statement with
  | createTable statement =>
    obtain ⟨-, nonempty, columns⟩ := printable
    have items := @place_separated _ ColDef .comma ColumnDefinition.words statement.columns nonempty
      fun column mem => (columns column mem).derives
    rw [Statement.words]
    simp only [place]
    obtain ⟨next, shape⟩ := place_append
      (separated (.fixed .comma) (statement.columns.map ColumnDefinition.words)) [.fixed .rParen] _
    rw [shape]
    exact .createTable rfl (items _) rfl .bare
  | insert statement =>
    obtain ⟨-, nonempty, -, literals, counts⟩ := printable
    have some_values : statement.values ≠ [] := by
      rintro empty
      rw [empty] at counts
      exact nonempty (length_eq_zero_iff.mp counts)
    have items := @place_separated _ Lit .comma (fun literal => [literal.word]) statement.values
      some_values fun literal mem pos =>
        ⟨_, rfl, (literals literal mem).word_spec.2 pos⟩
    rw [Statement.words]
    simp only [place]
    obtain ⟨next, shape⟩ :=
      place_append (names statement.columns)
        (.fixed .rParen :: .fixed .values :: .fixed .lParen ::
          (separated (.fixed .comma) (statement.values.map fun literal => [literal.word]) ++
            [.fixed .rParen])) _
    rw [shape]
    simp only [place]
    obtain ⟨last, shape⟩ := place_append
      (separated (.fixed .comma) (statement.values.map fun literal => [literal.word]))
      [.fixed .rParen] _
    rw [shape]
    exact .insert rfl (place_names nonempty _) rfl (items _) rfl .bare counts
  | select statement =>
    obtain ⟨-, all, -, predicates⟩ := printable
    have selected : ∀ pos, SelectList
        (place pos (if statement.all then [.fixed .star] else names statement.columns))
        (statement.columns, statement.all) := by
      intro pos
      cases every : statement.all with
      | true =>
        rw [if_pos rfl, all.mp every]
        exact .all rfl
      | false =>
        rw [if_neg (by simp)]
        exact .columns (place_names (fun empty => by simp [all.mpr empty] at every) pos)
    have filtered : ∀ pos, WhereClause (place pos (if statement.where_ = [] then []
        else .fixed .where :: separated (.fixed .and) (statement.where_.map Predicate.words)))
        statement.where_ := by
      intro pos
      by_cases bare : statement.where_ = []
      · rw [if_pos bare, bare]
        exact .none
      · rw [if_neg bare]
        exact .some rfl (place_separated bare
          (fun predicate mem => (predicates predicate mem).derives) _)
    rw [Statement.words]
    simp only [place]
    obtain ⟨next, shape⟩ := place_append
      (if statement.all then [.fixed .star] else names statement.columns)
      (.fixed .from :: .name statement.table :: (if statement.where_ = [] then []
        else .fixed .where :: separated (.fixed .and) (statement.where_.map Predicate.words))) _
    rw [shape]
    simp only [place]
    rw [← append_nil (place _ (if statement.where_ = [] then [] else _))]
    exact .select rfl (selected _) rfl (filtered _) .bare

theorem separated_valid {separator : Word} (valid : separator.Valid) : ∀ {items : List (List Word)},
    (∀ words ∈ items, ∀ word ∈ words, word.Valid) → ∀ word ∈ separated separator items, word.Valid
  | [], _, _, mem => absurd mem not_mem_nil
  | [words], all, word, mem => all words (mem_singleton_self _) word mem
  | words :: next :: rest, all, word, mem => by
    rcases mem_append.mp mem with here | later
    · exact all words (mem_cons_self ..) word here
    · rcases mem_cons.mp later with rfl | later
      · exact valid
      · exact separated_valid valid (fun words mem => all words (mem_cons_of_mem _ mem))
          word later

theorem names_valid (valid : ∀ column ∈ columns, Name column) :
    ∀ word ∈ names columns, word.Valid := by
  refine separated_valid (@fixed_punctuation 44 _ rfl) ?_
  intro words mem word isWord
  obtain ⟨column, isColumn, rfl⟩ := mem_map.mp mem
  obtain rfl := mem_singleton.mp isWord
  exact valid column isColumn

theorem ColumnDefinition.Printable.words_valid (printable : column.Printable) :
    ∀ word ∈ column.words, word.Valid := by
  have keywords : ∀ word ∈ [Word.fixed .primary, .fixed .key, .fixed .not, .fixed .null],
    word.Valid := by
    simp only [forall_mem_cons]
    exact ⟨fixed_keyword (by decide), fixed_keyword (by decide), fixed_keyword (by decide),
      fixed_keyword (by decide), by simp⟩
  rw [ColumnDefinition.words]
  intro word mem
  rcases mem_cons.mp mem with rfl | mem
  · exact printable.name
  rcases mem_cons.mp mem with rfl | mem
  · exact fixed_columnType printable.type
  apply keywords
  split_ifs at mem
  · simp only [mem_cons] at mem ⊢
    tauto
  · simp only [mem_cons] at mem ⊢
    tauto
  · exact absurd mem not_mem_nil

theorem Statement.Printable.words_valid (printable : statement.Printable) :
    ∀ word ∈ statement.words, word.Valid := by
  have comma : (Word.fixed .comma).Valid := @fixed_punctuation 44 _ rfl
  have lParen : (Word.fixed .lParen).Valid := @fixed_punctuation 40 _ rfl
  have rParen : (Word.fixed .rParen).Valid := @fixed_punctuation 41 _ rfl
  cases statement with
  | createTable statement =>
    obtain ⟨name, -, columns⟩ := printable
    have items := @separated_valid _ comma (statement.columns.map ColumnDefinition.words) (by
      intro words mem
      obtain ⟨column, isColumn, rfl⟩ := mem_map.mp mem
      exact (columns column isColumn).words_valid)
    simp only [Statement.words, forall_mem_cons, forall_mem_append]
    exact ⟨fixed_keyword (by decide), fixed_keyword (by decide), name, lParen, items,
      rParen, by simp⟩
  | insert statement =>
    obtain ⟨table, -, columns, literals, -⟩ := printable
    have items := @separated_valid _ comma (statement.values.map fun literal => [literal.word]) (by
      intro words mem word isWord
      obtain ⟨literal, isLiteral, rfl⟩ := mem_map.mp mem
      obtain rfl := mem_singleton.mp isWord
      exact (literals literal isLiteral).word_spec.1)
    simp only [Statement.words, forall_mem_cons, forall_mem_append]
    exact ⟨fixed_keyword (by decide), fixed_keyword (by decide), table, lParen, names_valid columns,
      rParen, fixed_keyword (by decide), lParen, items, rParen, by simp⟩
  | select statement =>
    obtain ⟨table, -, columns, predicates⟩ := printable
    have list : ∀ word ∈ if statement.all then [.fixed .star] else names statement.columns,
        Word.Valid word := by
      split_ifs
      · simpa using @fixed_punctuation 42 _ rfl
      · exact names_valid columns
    have clause : ∀ word ∈ if statement.where_ = [] then []
        else .fixed .where :: separated (.fixed .and) (statement.where_.map Predicate.words),
        Word.Valid word := by
      split_ifs
      · simp
      refine forall_mem_cons.mpr
        ⟨fixed_keyword (by decide), separated_valid (fixed_keyword (by decide)) ?_⟩
      intro words mem
      obtain ⟨predicate, isPredicate, rfl⟩ := mem_map.mp mem
      have valid := predicates predicate isPredicate
      simp only [Predicate.words, forall_mem_cons]
      exact ⟨valid.column, fixed_comparison valid.op, valid.value.word_spec.1, by simp⟩
    simp only [Statement.words, forall_mem_cons, forall_mem_append]
    exact ⟨fixed_keyword (by decide), list, fixed_keyword (by decide), table, clause⟩

/-! ## What is derived can be printed -/

/-- The tokens come from a text. -/
def Written (tokens : List Token) : Prop :=
  ∀ token ∈ tokens, ∃ spelling, Spells token.type token.text spelling

variable {tokens : List Token} {input : Bytes} {token : Token}

theorem written_of_spelled {After : Bytes → Prop} {pos : Nat}
    (spelled : Spelled After pos tokens input) : Written tokens := by
  induction spelled with
  | done => exact fun _ mem => absurd mem not_mem_nil
  | token _ spells _ _ ih => exact forall_mem_cons.mpr ⟨⟨_, spells⟩, ih⟩

theorem name_of_spells {spelling : Bytes} (spells : Spells token.type token.text spelling)
    (kind : token.type = .identifier) : Name token.text := by
  obtain ⟨type, text, pos⟩ := token
  obtain rfl : type = .identifier := kind
  have keyword : ∀ entry ∈ keywords, entry.2 ≠ .identifier := by decide
  have punctuation : ∀ entry ∈ punctuationKinds, entry.2 ≠ .identifier := by decide
  cases spells with
  | identifier start parts free => exact .identifier start parts free
  | keyword _ _ found => exact absurd rfl (keyword _ (lookup_mem found))
  | punctuation found => exact absurd rfl (punctuation _ (lookup_mem found))

/-- A property of the items of a list, from written tokens. -/
theorem forall_of_sepBy {α : Type} {isSeparator : Token → Bool} {Item : List Token → α → Prop}
    {Good : α → Prop} {values : List α}
    (items : SepBy isSeparator Item tokens values) (written : Written tokens)
    (good : ∀ tokens value, Item tokens value → Written tokens → Good value) :
    ∀ value ∈ values, Good value := by
  induction items with
  | one item => simpa using good _ _ item written
  | more item _ _ ih =>
    obtain ⟨here, later⟩ := forall_mem_append.mp written
    exact forall_mem_cons.mpr ⟨good _ _ item here, ih (forall_mem_cons.mp later).2⟩

theorem name_of_ident {name : Bytes} (ident : Ident tokens name)
    (written : Written tokens) : Name name := by
  obtain ⟨token, rfl, kind, rfl⟩ := ident
  obtain ⟨spelling, spells⟩ := written token (mem_singleton_self _)
  exact name_of_spells spells kind

theorem printable_of_isLiteral (isLiteral : IsLiteral token literal) : literal.Printable := by
  cases isLiteral with
  | _ => rfl

theorem printable_of_colDef (derived : ColDef tokens column)
    (written : Written tokens) : column.Printable := by
  obtain ⟨isName, isType, once, kinds⟩ := derived
  obtain ⟨spelling, spells⟩ := written _ (mem_cons_self ..)
  exact ⟨name_of_spells spells isName, isType, by simp +contextual⟩

theorem printable_of_pred (derived : Pred tokens predicate)
    (written : Written tokens) : predicate.Printable := by
  obtain ⟨isColumn, isOp, isValue⟩ := derived
  obtain ⟨spelling, spells⟩ := written _ (mem_cons_self ..)
  exact ⟨name_of_spells spells isColumn, isOp, printable_of_isLiteral isValue⟩

theorem printable_of_selectList {all : Bool}
    (derived : SelectList tokens (columns, all)) (written : Written tokens) :
    (all ↔ columns = []) ∧ ∀ column ∈ columns, Name column := by
  cases derived with
  | all => simp
  | columns items =>
    exact ⟨by simpa using items.ne_nil, forall_of_sepBy items written fun _ _ => name_of_ident⟩

theorem printable_of_derives
    (derived : Derives tokens statement) (written : Written tokens) : statement.Printable := by
  cases derived with
  | createTable opening items closing last =>
    simp only [Written, forall_mem_cons, forall_mem_append] at written
    obtain ⟨-, -, ⟨_, name⟩, -, definitions, -⟩ := written
    simp only [map_cons, map_nil, List.cons.injEq] at opening
    exact ⟨name_of_spells name opening.2.2.1, items.ne_nil,
      forall_of_sepBy items definitions fun _ _ => printable_of_colDef⟩
  | insert opening columnNames middle items closing last counts =>
    simp only [Written, forall_mem_cons, forall_mem_append] at written
    obtain ⟨-, -, ⟨_, table⟩, -, columns, -, -, -, literals, -⟩ := written
    simp only [map_cons, map_nil, List.cons.injEq] at opening
    refine ⟨name_of_spells table opening.2.2.1, columnNames.ne_nil,
      forall_of_sepBy columnNames columns fun _ _ => name_of_ident, ?_, counts⟩
    refine forall_of_sepBy items literals fun _ _ item _ => ?_
    obtain ⟨token, -, isLiteral⟩ := item
    exact printable_of_isLiteral isLiteral
  | select opening selected middle filtered last =>
    simp only [Written, forall_mem_cons, forall_mem_append] at written
    obtain ⟨-, list, -, ⟨_, table⟩, clause, -⟩ := written
    simp only [map_cons, map_nil, List.cons.injEq] at middle
    obtain ⟨all, columns⟩ := printable_of_selectList selected list
    refine ⟨name_of_spells table middle.2.1, all, columns, ?_⟩
    cases filtered with
    | none => simp
    | some _ items =>
      exact forall_of_sepBy items (forall_mem_cons.mp clause).2 fun _ _ => printable_of_pred

/-! ## The parser and its grammar -/

/-- The end token is the last one and the only one of its kind. -/
theorem lex_eq_ok {result : List Token} (run : lex input = .ok result) :
    ∃ tokens last, result = tokens ++ [last] ∧ last.type = .eof ∧ Written tokens ∧
      ∀ token ∈ tokens, token.type ≠ .eof := by
  obtain ⟨tokens, shape, spelled⟩ := lex_spelled run
  exact ⟨tokens, _, shape, rfl, written_of_spelled spelled, spelled.ne_eof⟩

/-- A list is cut at its only end token in one way. -/
theorem eq_of_append_eof {read after : List Token} {last eof : Token}
    (same : tokens ++ [last] = read ++ eof :: after) (isEof : eof.type = .eof)
    (inner : ∀ token ∈ tokens, token.type ≠ .eof) : tokens = read ∧ last = eof := by
  rcases append_eq_append_iff.mp same with ⟨more, rfl, shape⟩ | ⟨more, rfl, shape⟩
  · cases more with
    | nil =>
      cases shape
      exact ⟨(append_nil _).symm, rfl⟩
    | cons token more => simp at shape
  · cases more with
    | nil =>
      cases shape
      exact ⟨append_nil _, rfl⟩
    | cons token more =>
      cases shape
      exact absurd isEof (inner _ (mem_append_right _ (mem_cons_self ..)))

theorem parse_of_lex (lexed : lex input = .ok tokens) :
    parse input = match Parse.statement tokens with
      | .error halt => .error halt
      | .ok (statement, rest) =>
        match Parse.expect .eof rest with
        | .error halt => .error halt
        | .ok _ => .ok statement := by
  rw [parse, lexed]
  change (Parse.statement tokens >>= _) = _
  cases Parse.statement tokens with
  | error halt => rfl
  | ok result =>
    change (Parse.expect .eof result.2 >>= _) = match Parse.expect .eof result.2 with
      | .error halt => .error halt
      | .ok _ => .ok result.1
    cases Parse.expect .eof result.2 with
    | error halt => rfl
    | ok _ => rfl

theorem parse_eq_ok : parse input = .ok statement ↔
      ∃ tokens last, lex input = .ok (tokens ++ [last]) ∧ last.type = .eof ∧
        Derives tokens statement := by
  constructor
  · intro run
    cases lexed : lex input with
    | error halt =>
      rw [parse, lexed] at run
      cases run
    | ok result =>
      obtain ⟨tokens, last, rfl, isLast, -, inner⟩ := lex_eq_ok lexed
      rw [parse_of_lex lexed] at run
      split at run
      next => cases run
      next built rest read =>
        split at run
        next => cases run
        next value ended =>
          cases run
          obtain ⟨eof, rfl, isEof⟩ := Parse.expect_eq_ok.mp ended
          obtain ⟨derived, shape, derives⟩ := (Parse.statement_eq_ok isEof).mp read
          obtain ⟨rfl, rfl⟩ := eq_of_append_eof shape isEof inner
          exact ⟨tokens, last, rfl, isLast, derives⟩
  · rintro ⟨tokens, last, lexed, isLast, derives⟩
    have read : Parse.statement (tokens ++ [last]) = .ok (statement, [last]) :=
      (Parse.statement_eq_ok isLast).mpr ⟨tokens, rfl, derives⟩
    have ended : Parse.expect .eof [last] = .ok ((), []) :=
      Parse.expect_eq_ok.mpr ⟨last, rfl, isLast⟩
    rw [parse_of_lex lexed, read]
    dsimp only
    rw [ended]

theorem parse_ne_panic (input : Bytes) : parse input ≠ .error .panic := by
  intro panics
  cases lexed : lex input with
  | error halt =>
    rw [parse, lexed] at panics
    cases panics
    exact lex_ne_panic input lexed
  | ok result =>
    obtain ⟨tokens, last, rfl, isLast, -⟩ := lex_eq_ok lexed
    have ended : Ended Parse.IsEof (tokens ++ [last]) := ⟨last, by simp, isLast⟩
    rw [parse_of_lex lexed] at panics
    split at panics
    next failed =>
      cases panics
      exact Parse.safe_statement.runs _ ended failed
    next statement rest read =>
      obtain ⟨token, after, rfl⟩ := (Parse.safe_statement.keeps _ _ _ ended read).exists_cons
      split at panics
      next failed =>
        cases panics
        change (if token.type ≠ .eof then _ else _ : Parser Token Unit) _ = _ at failed
        split_ifs at failed
        · cases failed
        · cases failed
      next => cases panics

theorem parse_print (printable : statement.Printable) : parse (print statement) = .ok statement :=
  parse_eq_ok.mpr ⟨_, _, lex_render _ printable.words_valid, rfl, printable.derives 0⟩

theorem printable_of_parse (run : parse input = .ok statement) : statement.Printable := by
  obtain ⟨tokens, last, lexed, -, derives⟩ := parse_eq_ok.mp run
  obtain ⟨others, eof, shape, -, written, -⟩ := lex_eq_ok lexed
  obtain ⟨rfl, -⟩ := append_inj' shape rfl
  exact printable_of_derives derives written

/-- The parser accepts exactly its grammar.  It gives back every printed statement, the
statements that can be printed are those it can return, and it never reads past the
last token. -/
theorem parse_accepts_grammar : (∀ input statement, parse input = .ok statement ↔
      ∃ tokens last, lex input = .ok (tokens ++ [last]) ∧ last.type = .eof ∧
        Derives tokens statement) ∧
    (∀ statement : Statement, statement.Printable → parse (print statement) = .ok statement) ∧
    (∀ statement : Statement, statement.Printable ↔ ∃ input, parse input = .ok statement) ∧
    ∀ input, parse input ≠ .error .panic :=
  ⟨fun _ _ => parse_eq_ok, fun _ => parse_print,
    fun _ => ⟨fun printable => ⟨_, parse_print printable⟩, fun ⟨_, run⟩ => printable_of_parse run⟩,
    parse_ne_panic⟩

/-- A statement with a string that holds a quote and a negative number. -/
theorem parse_accepts_grammar_insert :
    let statement : Statement := .insert ⟨ascii "t", [ascii "a", ascii "b"],
      [⟨.string, .string [39, 120]⟩, ⟨.integer, .int64 (-5)⟩]⟩
    statement.Printable ∧ parse (print statement) = .ok statement := by
  have name : ∀ ch, isIdentifierStart ch → keywords.lookup (toUpper [ch]) = none → Name [ch] :=
    fun ch start free => .identifier start (by simp) free
  have printable : (Statement.insert ⟨ascii "t", [ascii "a", ascii "b"],
      [⟨.string, .string [39, 120]⟩, ⟨.integer, .int64 (-5)⟩]⟩).Printable := by
    refine ⟨name 116 (by decide) (by decide), by simp, ?_, ?_, rfl⟩
    · simp only [List.forall_mem_cons]
      exact ⟨name 97 (by decide) (by decide), name 98 (by decide) (by decide), by simp⟩
    · simp only [List.forall_mem_cons]
      exact ⟨rfl, rfl, by simp⟩
  exact ⟨printable, parse_accepts_grammar.2.1 _ printable⟩

end GoDatabase.Sql
