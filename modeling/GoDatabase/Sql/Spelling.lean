import GoDatabase.Sql.Lexer

/-!
# Spellings

What a token looks like in the input.  The lexer reads a token exactly where its
spelling stands, and a text of spelled tokens with whitespace between them gives back
the tokens.
-/

namespace GoDatabase.Sql

open Library List Option

namespace Lexer

/-- Every quote of a string is written twice. -/
def doubled : Bytes → Bytes
  | [] => []
  | ch :: rest => if ch = quote then quote :: quote :: doubled rest else ch :: doubled rest

/-- A spelling of a token of a type and a text. -/
inductive Spells : TokenType → (text spelling : Bytes) → Prop
  | identifier {ch : UInt8} {rest : Bytes} (start : isIdentifierStart ch)
      (parts : ∀ part ∈ rest, isIdentifierPart part)
      (free : keywords.lookup (toUpper (ch :: rest)) = none) :
      Spells .identifier (ch :: rest) (ch :: rest)
  | keyword {ch : UInt8} {rest : Bytes} {kind : TokenType} (start : isIdentifierStart ch)
      (parts : ∀ part ∈ rest, isIdentifierPart part)
      (found : keywords.lookup (toUpper (ch :: rest)) = some kind) :
      Spells kind (ch :: rest) (ch :: rest)
  | string (value : Bytes) : Spells .string value (quote :: (doubled value ++ [quote]))
  | integer {text : Bytes} {value : Int64} (parsed : parseInt text = some value) :
      Spells .integer text text
  | punctuation {ch : UInt8} {kind : TokenType} (found : punctuationKinds.lookup ch = some kind) :
      Spells kind [ch] [ch]
  | notEqual : Spells .notEqual [bang, equals] [bang, equals]
  | lessEqual : Spells .lessEqual [60, equals] [60, equals]
  | greaterEqual : Spells .greaterEqual [62, equals] [62, equals]

/-! ## Classes of characters -/

variable {ch : UInt8} {pos : Nat} {rest : Bytes}

theorem not_space_of_part (part : isIdentifierPart ch) : isSpace ch = false := by
  simp only [isIdentifierPart, isIdentifierStart, isDigit, isSpace, Bool.or_eq_true,
    Bool.and_eq_true, decide_eq_true_eq, Bool.or_eq_false_iff, Bool.and_eq_false_iff,
      decide_eq_false_iff_not,
    UInt8.le_iff_toNat_le, ← UInt8.toNat_inj, UInt8.reduceToNat] at part ⊢
  omega

theorem part_of_digit (digit : isDigit ch) : isIdentifierPart ch := by
  rw [isIdentifierPart, digit, Bool.or_true]

theorem not_start_of_digit (digit : isDigit ch) : isIdentifierStart ch = false := by
  simp only [isIdentifierStart, isDigit, Bool.and_eq_true, decide_eq_true_eq, Bool.or_eq_false_iff,
    Bool.and_eq_false_iff, decide_eq_false_iff_not, UInt8.le_iff_toNat_le, ← UInt8.toNat_inj,
    UInt8.reduceToNat] at digit ⊢
  omega

theorem ne_of_digit {other : UInt8} (digit : isDigit ch) (no : isDigit other = false) :
    ch ≠ other := by
  rintro rfl
  rw [digit] at no
  cases no

/-- What may follow a token: the end of the input or whitespace. -/
def Breaks (rest : Bytes) : Prop := ∀ ch ∈ rest.head?, isSpace ch

theorem Breaks.not_part (breaks : Breaks rest) :
    ∀ ch ∈ rest.head?, isIdentifierPart ch = false := by
  intro ch mem
  by_contra part
  have space := breaks ch mem
  rw [not_space_of_part (by simpa using part)] at space
  cases space

theorem Breaks.not_digit (breaks : Breaks rest) :
    ∀ ch ∈ rest.head?, isDigit ch = false := by
  intro ch mem
  by_contra digit
  have part := part_of_digit (by simpa using digit)
  rw [breaks.not_part ch mem] at part
  cases part

theorem Breaks.head_ne (breaks : Breaks rest) (visible : isSpace ch = false) :
    rest.head? ≠ some ch := by
  intro first
  have space := breaks ch first
  rw [visible] at space
  cases space

/-! ## Maximal runs -/

variable {test : UInt8 → Bool} {run : Bytes}

theorem takeWhile_append_of_head
    (all : ∀ ch ∈ run, test ch) (stops : ∀ ch ∈ rest.head?, test ch = false) :
    (run ++ rest).takeWhile test = run := by
  rw [takeWhile_append_of_pos all]
  cases rest with
  | nil => simp
  | cons ch rest => simp [stops ch rfl]

theorem dropWhile_append_of_head
    (all : ∀ ch ∈ run, test ch) (stops : ∀ ch ∈ rest.head?, test ch = false) :
    (run ++ rest).dropWhile test = rest := by
  rw [dropWhile_append_of_pos all]
  cases rest with
  | nil => rfl
  | cons ch rest => simp [stops ch rfl]

/-! ## Strings and numbers -/

theorem stringBody_doubled (stops : rest.head? ≠ some quote) :
    ∀ value : Bytes, stringBody (doubled value ++ quote :: rest) = some (value, rest)
  | [] => by
    cases rest with
    | nil => rfl
    | cons next rest =>
      rw [doubled, nil_append, stringBody, if_neg (by simp), if_neg (by simpa using stops)]
  | ch :: value => by
    have ih := stringBody_doubled stops value
    rw [doubled]
    split_ifs with isQuote
    · rw [isQuote, cons_append, cons_append, stringBody, if_neg (by simp), if_pos rfl, ih]
      rfl
    · obtain ⟨next, more, shape⟩ : ∃ next more, doubled value ++ quote :: rest = next :: more :=
        exists_cons_of_ne_nil (by simp)
      rw [cons_append, shape, stringBody, if_pos isQuote, ← shape, ih]
      rfl

variable {input text : Bytes}

theorem stringBody_eq_some {value rest : Bytes} (read : stringBody input = some (value, rest)) :
    input = doubled value ++ quote :: rest := by
  fun_induction stringBody input generalizing value with
  | case1 => cases read
  | case2 =>
    cases read
    rfl
  | case3 => cases read
  | case4 ch next after plain ih =>
    obtain ⟨⟨body, left⟩, inner, same⟩ := map_eq_some_iff.mp read
    cases same
    rw [ih inner, doubled, if_neg plain]
    rfl
  | case5 ch after isQuote ih =>
    obtain ⟨⟨body, left⟩, inner, same⟩ := map_eq_some_iff.mp read
    cases same
    rw [ih inner, doubled, if_pos rfl, not_not.mp isQuote]
    rfl
  | case6 ch next after isQuote single =>
    cases read
    rw [not_not.mp isQuote]
    rfl

/-- A parsed number is an optional sign before digits. -/
theorem parseInt_digits {value : Int64} (parsed : parseInt text = some value) :
    text.drop (signLength text) ≠ [] ∧ ∀ ch ∈ text.drop (signLength text), isDigit ch := by
  by_cases bad : text.drop (signLength text) = [] ∨
      (text.drop (signLength text)).any (fun ch => !isDigit ch)
  · rw [parseInt, if_pos bad] at parsed
    cases parsed
  · simpa using bad

/-! ## One token -/

theorem lookup_mem {α β : Type} [BEq α] [LawfulBEq α] {entries : List (α × β)} {key : α} {value : β}
    (found : entries.lookup key = some value) : (key, value) ∈ entries := by
  obtain ⟨before, after, shape, -⟩ := lookup_eq_some_iff.mp found
  rw [shape]
  exact mem_append_right _ (mem_cons_self ..)

theorem identifier_spells (pos : Nat) {ch : UInt8} {rest : Bytes} (start : isIdentifierStart ch) :
    ∃ kind text, identifier pos ch rest = (⟨kind, text, pos⟩, rest.dropWhile isIdentifierPart) ∧
      ch :: rest = text ++ rest.dropWhile isIdentifierPart ∧ Spells kind text text := by
  refine ⟨_, _, rfl, by rw [cons_append, takeWhile_append_dropWhile], ?_⟩
  have parts : ∀ part ∈ rest.takeWhile isIdentifierPart, isIdentifierPart part :=
    fun part mem => mem_takeWhile_imp mem
  cases found : keywords.lookup (toUpper (ch :: rest.takeWhile isIdentifierPart)) with
  | none => exact .identifier start parts found
  | some kind => exact .keyword start parts found

variable {left spelling : Bytes} {token : Token} {kind : TokenType}

theorem integer_spells (read : integer pos input = .ok (token, left)) :
    ∃ text, token = ⟨.integer, text, pos⟩ ∧ input = text ++ left ∧ Spells .integer text text := by
  rw [integer] at read
  split at read
  next value parsed =>
    cases read
    refine ⟨_, rfl, ?_, .integer parsed⟩
    rw [append_assoc, takeWhile_append_dropWhile, take_append_drop]
  next => cases read

theorem punctuation_spells
    (read : punctuation pos ch rest = some (token, left)) :
    ∃ kind text, token = ⟨kind, text, pos⟩ ∧ ch :: rest = text ++ left ∧ Spells kind text text := by
  have head_tail : ∀ {next : UInt8}, rest.head? = some next → rest = next :: rest.tail := by
    intro next first
    cases rest with
    | nil => cases first
    | cons head tail =>
      cases first
      rfl
  rw [punctuation] at read
  split_ifs at read with isBang doubles
  · cases read
    exact ⟨_, _, rfl, by rw [head_tail doubles]; rfl, isBang ▸ .notEqual⟩
  split at read
  next => cases read
  next kind found =>
    have mem := lookup_mem found
    split_ifs at read with wide isLess
    · cases read
      obtain rfl : ch = 60 := by simpa [isLess, punctuationKinds] using mem
      exact ⟨_, _, rfl, by rw [head_tail wide.2]; rfl, .lessEqual⟩
    · cases read
      obtain rfl := wide.1.resolve_left isLess
      obtain rfl : ch = 62 := by simpa [punctuationKinds] using mem
      exact ⟨_, _, rfl, by rw [head_tail wide.2]; rfl, .greaterEqual⟩
    · cases read
      exact ⟨_, _, rfl, rfl, .punctuation found⟩

/-- The lexer steps exactly over a spelling of the token it returns. -/
theorem lexToken_spells
    (read : lexToken pos ch rest = .ok (token, left)) :
    ∃ spelling, token.pos = pos ∧ ch :: rest = spelling ++ left ∧
      Spells token.type token.text spelling := by
  rw [lexToken] at read
  split_ifs at read with start isQuote number
  · obtain ⟨kind, text, same, shape, spells⟩ := @identifier_spells pos ch rest start
    rw [same] at read
    cases read
    exact ⟨text, rfl, shape, spells⟩
  · rw [stringLiteral] at read
    split at read
    next value after body =>
      cases read
      refine ⟨_, rfl, ?_, .string value⟩
      rw [isQuote, stringBody_eq_some body]
      simp
    next => cases read
  · obtain ⟨text, rfl, shape, spells⟩ := integer_spells read
    exact ⟨text, rfl, shape, spells⟩
  · split at read
    next result punctuated =>
      cases read
      obtain ⟨kind, text, rfl, shape, spells⟩ := punctuation_spells punctuated
      exact ⟨text, rfl, shape, spells⟩
    next => cases read

theorem lexToken_ne_panic (pos : Nat) (ch : UInt8) (rest : Bytes) :
    lexToken pos ch rest ≠ .error .panic := by
  rw [lexToken, stringLiteral, integer]
  split_ifs
  · simp
  · split <;> simp
  · split <;> simp
  · split <;> simp

theorem Spells.ne_nil (spells : Spells kind text spelling) : spelling ≠ [] := by
  cases spells with
  | integer parsed =>
    rintro rfl
    exact (parseInt_digits parsed).1 rfl
  | _ => simp

theorem Spells.ne_eof (spells : Spells kind text spelling) : kind ≠ .eof := by
  have keyword : ∀ entry ∈ keywords, entry.2 ≠ .eof := by decide
  have punctuation : ∀ entry ∈ punctuationKinds, entry.2 ≠ .eof := by decide
  cases spells with
  | keyword _ _ found => exact keyword _ (lookup_mem found)
  | punctuation found => exact punctuation _ (lookup_mem found)
  | _ => simp

/-! The other direction: a spelling before whitespace or the end is read as its token. -/

section Reads

theorem lexToken_identifier {parts : Bytes} (start : isIdentifierStart ch)
    (all : ∀ part ∈ parts, isIdentifierPart part) (breaks : Breaks rest) :
    lexToken pos ch (parts ++ rest) =
      .ok (⟨(keywords.lookup (toUpper (ch :: parts))).getD .identifier, ch :: parts, pos⟩,
        rest) := by
  rw [lexToken, if_pos start, identifier, takeWhile_append_of_head all breaks.not_part,
    dropWhile_append_of_head all breaks.not_part]

theorem lexToken_string {value : Bytes} (breaks : Breaks rest) :
    lexToken pos quote (doubled value ++ quote :: rest) = .ok (⟨.string, value, pos⟩, rest) := by
  rw [lexToken, if_neg (by decide), if_pos rfl, stringLiteral,
    stringBody_doubled (breaks.head_ne (by decide))]

theorem lexToken_punctuation {kind : TokenType}
    (found : punctuationKinds.lookup ch = some kind) (breaks : Breaks rest) :
    lexToken pos ch rest = .ok (⟨kind, [ch], pos⟩, rest) := by
  have plain : ∀ entry ∈ punctuationKinds, isIdentifierStart entry.1 = false ∧ entry.1 ≠ quote ∧
      isDigit entry.1 = false ∧ entry.1 ≠ plus ∧ entry.1 ≠ minus ∧ entry.1 ≠ bang := by decide
  obtain ⟨start, isQuote, digit, isPlus, isMinus, isBang⟩ := plain _ (lookup_mem found)
  rw [lexToken, if_neg (by simp [start]), if_neg isQuote, if_neg (by simp [digit, isPlus, isMinus]),
    punctuation, if_neg isBang, found]
  simp [breaks.head_ne (show isSpace equals = false by decide)]

theorem signLength_cons (ch : UInt8) (tail : Bytes) :
    signLength (ch :: tail) = if ch = plus ∨ ch = minus then 1 else 0 := by
  simp only [signLength, List.head?_cons, some.injEq]

/-- The digits run up to the whitespace. -/
theorem integer_of_digits {text : Bytes} {value : Int64} (parsed : parseInt text = some value)
    (breaks : Breaks rest) : integer pos (text ++ rest) = .ok (⟨.integer, text, pos⟩, rest) := by
  obtain ⟨nonempty, digits⟩ := parseInt_digits parsed
  have same : signLength (text ++ rest) = signLength text := by
    cases text with
    | nil => exact absurd rfl nonempty
    | cons ch tail => rw [cons_append, signLength_cons, signLength_cons]
  have short : signLength text ≤ text.length := by
    by_contra long
    exact nonempty (drop_eq_nil_of_le (by omega))
  rw [integer, same, drop_append_of_le_length short, take_append_of_le_length short]
  rw [takeWhile_append_of_head digits breaks.not_digit,
    dropWhile_append_of_head digits breaks.not_digit, take_append_drop, parsed]

theorem lexToken_integer {tail : Bytes} {value : Int64}
    (parsed : parseInt (ch :: tail) = some value) (breaks : Breaks rest) :
    lexToken pos ch (tail ++ rest) = .ok (⟨.integer, ch :: tail, pos⟩, rest) := by
  obtain ⟨nonempty, digits⟩ := parseInt_digits parsed
  have read := @integer_of_digits pos rest _ _ parsed breaks
  rw [signLength_cons] at nonempty digits
  by_cases signed : ch = plus ∨ ch = minus
  · rw [if_pos signed, drop_succ_cons, drop_zero] at nonempty digits
    obtain ⟨digit, more, rfl⟩ := exists_cons_of_ne_nil nonempty
    have isNumber : (isDigit ch || ((ch = plus || ch = minus) &&
        (digit :: more ++ rest).head?.any isDigit)) = true := by
      simpa [digits digit] using Or.inr signed
    have other : isIdentifierStart ch = false ∧ ch ≠ quote := by
      rcases signed with rfl | rfl
      · decide
      · decide
    rw [lexToken, if_neg (by simp [other.1]), if_neg other.2, if_pos isNumber]
    exact read
  · rw [if_neg signed, drop_zero] at digits
    have digit := digits ch (mem_cons_self ..)
    rw [lexToken, if_neg (by simp [not_start_of_digit digit]),
      if_neg (ne_of_digit digit (by decide)), if_pos (by simp [digit])]
    exact read

/-- A spelling is read as its token. -/
theorem Spells.lexToken_eq {kind : TokenType} {text spelling : Bytes}
    (spells : Spells kind text spelling) (breaks : Breaks rest) :
    ∃ ch tail, spelling = ch :: tail ∧ isSpace ch = false ∧
      lexToken pos ch (tail ++ rest) = .ok (⟨kind, text, pos⟩, rest) := by
  cases spells with
  | identifier start parts free =>
    refine ⟨_, _, rfl, not_space_of_part (by simp [isIdentifierPart, start]), ?_⟩
    rw [lexToken_identifier start parts breaks, free]
    rfl
  | keyword start parts found =>
    refine ⟨_, _, rfl, not_space_of_part (by simp [isIdentifierPart, start]), ?_⟩
    rw [lexToken_identifier start parts breaks, found]
    rfl
  | string value =>
    refine ⟨_, _, rfl, by decide, ?_⟩
    rw [append_assoc, singleton_append]
    exact lexToken_string breaks
  | integer parsed =>
    cases text with
    | nil => exact absurd rfl (parseInt_digits parsed).1
    | cons ch tail =>
      refine ⟨ch, tail, rfl, ?_, lexToken_integer parsed breaks⟩
      obtain ⟨nonempty, digits⟩ := parseInt_digits parsed
      rw [signLength_cons] at digits
      by_cases signed : ch = plus ∨ ch = minus
      · rcases signed with rfl | rfl
        · decide
        · decide
      · rw [if_neg signed, drop_zero] at digits
        exact not_space_of_part (part_of_digit (digits ch (mem_cons_self ..)))
  | punctuation found =>
    have visible : ∀ entry ∈ punctuationKinds, isSpace entry.1 = false := by decide
    exact ⟨_, [], rfl, visible _ (lookup_mem found), lexToken_punctuation found breaks⟩
  | notEqual => exact ⟨_, _, rfl, by decide, rfl⟩
  | lessEqual => exact ⟨_, _, rfl, by decide, rfl⟩
  | greaterEqual => exact ⟨_, _, rfl, by decide, rfl⟩

end Reads

/-! ## The whole input -/

/-- A text of spelled tokens from byte `pos` on, with whitespace before each of them and at
the end; after each token the text goes on as `After` says. -/
inductive Spelled (After : Bytes → Prop) : (pos : Nat) → List Token → Bytes → Prop
  | done {pos : Nat} {gap : Bytes} (white : ∀ ch ∈ gap, isSpace ch) : Spelled After pos [] gap
  | token {gap spelling rest : Bytes} {kind : TokenType} {text : Bytes} {pos : Nat}
      {tokens : List Token} (white : ∀ ch ∈ gap, isSpace ch) (spells : Spells kind text spelling)
      (after : After rest) (more : Spelled After (pos + gap.length + spelling.length) tokens rest) :
      Spelled After pos (⟨kind, text, pos + gap.length⟩ :: tokens) (gap ++ (spelling ++ rest))

variable {tokens : List Token} {length : Nat}

theorem Spelled.ne_eof {After : Bytes → Prop} {pos : Nat}
    (spelled : Spelled After pos tokens input) : ∀ token ∈ tokens, token.type ≠ .eof := by
  induction spelled with
  | done => simp
  | token _ spells _ _ ih =>
    intro token mem
    rcases mem_cons.mp mem with rfl | later
    · exact spells.ne_eof
    · exact ih token later

theorem skipWhitespace_gap {gap rest : Bytes} (white : ∀ ch ∈ gap, isSpace ch)
    (visible : ∀ ch ∈ rest.head?, isSpace ch = false) : skipWhitespace (gap ++ rest) = rest :=
  dropWhile_append_of_head white visible

theorem lexLoop_of_spelled {pos : Nat}
    (spelled : Spelled Breaks pos tokens input) : ∀ rounds, pos + input.length = length →
      input.length < rounds → lexLoop length rounds input =
        .ok (tokens ++ [⟨.eof, [], length⟩]) := by
  induction spelled with
  | @done pos gap white =>
    intro rounds _ enough
    obtain ⟨rounds, rfl⟩ := Nat.exists_eq_succ_of_ne_zero (Nat.ne_zero_of_lt enough)
    have skipped := @skipWhitespace_gap gap [] white (by simp)
    rw [append_nil] at skipped
    rw [lexLoop, skipped]
    rfl
  | @token gap spelling rest kind text pos tokens white spells after more ih =>
    intro rounds total enough
    obtain ⟨rounds, rfl⟩ := Nat.exists_eq_succ_of_ne_zero (Nat.ne_zero_of_lt enough)
    obtain ⟨ch, tail, rfl, visible, read⟩ :=
      @Spells.lexToken_eq (pos + gap.length) rest _ _ _ spells after
    simp only [length_append, length_cons] at total enough
    have place : length - ((tail ++ rest).length + 1) = pos + gap.length := by
      rw [length_append]
      omega
    rw [lexLoop, skipWhitespace_gap white (by simpa using visible)]
    simp only [cons_append, place, read]
    have loop := ih rounds (by rw [length_cons]; omega) (by omega)
    exact congrArg (fun run => run >>= fun tokens => pure (_ :: tokens)) loop

/-- What one successful round of the loop does. -/
theorem lexLoop_succ_eq_ok {rounds : Nat} {result : List Token}
    (run : lexLoop length (rounds + 1) input = .ok result) :
    (skipWhitespace input = [] ∧ result = [⟨.eof, [], length⟩]) ∨
      ∃ ch after token left tokens, skipWhitespace input = ch :: after ∧
        lexToken (length - (after.length + 1)) ch after = .ok (token, left) ∧
        lexLoop length rounds left = .ok tokens ∧ result = token :: tokens := by
  rw [lexLoop] at run
  cases shape : skipWhitespace input with
  | nil =>
    rw [shape] at run
    cases run
    exact .inl ⟨rfl, rfl⟩
  | cons ch after =>
    rw [shape] at run
    cases read : lexToken (length - (after.length + 1)) ch after with
    | error halt =>
      simp only [read] at run
      cases run
    | ok pair =>
      simp only [read] at run
      change (lexLoop length rounds pair.2 >>= fun tokens => pure (pair.1 :: tokens)) = _ at run
      cases loop : lexLoop length rounds pair.2 with
      | error halt =>
        rw [loop] at run
        cases run
      | ok tokens =>
        rw [loop] at run
        cases run
        exact .inr ⟨ch, after, pair.1, pair.2, tokens, rfl, read, loop, rfl⟩

theorem lexLoop_spelled (rounds : Nat) : ∀ {input : Bytes} {result : List Token},
    lexLoop length rounds input = .ok result → input.length ≤ length →
    ∃ tokens, result = tokens ++ [⟨.eof, [], length⟩] ∧
      Spelled (fun _ => True) (length - input.length) tokens input := by
  induction rounds with
  | zero =>
    intro input result run
    cases run
  | succ rounds ih =>
    intro input result run inside
    have split : input = input.takeWhile isSpace ++ skipWhitespace input :=
      takeWhile_append_dropWhile.symm
    have white : ∀ ch ∈ input.takeWhile isSpace, isSpace ch := fun ch => mem_takeWhile_imp
    generalize input.takeWhile isSpace = gap at split white
    rcases lexLoop_succ_eq_ok run with ⟨empty, rfl⟩ |
      ⟨ch, after, token, left, more, shape, read, loop, rfl⟩
    · rw [empty, append_nil] at split
      exact ⟨[], rfl, .done (split ▸ white)⟩
    obtain ⟨spelling, place, cut, spells⟩ := lexToken_spells read
    rw [shape] at split
    have size : (ch :: after).length = spelling.length + left.length := by
      rw [cut, length_append]
    rw [length_cons] at size
    have whole : input.length = gap.length + (spelling.length + left.length) := by
      rw [split, cut, length_append, length_append]
    obtain ⟨tokens, rfl, spelled⟩ := ih loop (by omega)
    have start : length - (after.length + 1) = length - input.length + gap.length := by omega
    have next : length - left.length =
        length - input.length + gap.length + spelling.length := by omega
    refine ⟨token :: tokens, rfl, ?_⟩
    rw [show token = ⟨token.type, token.text, length - input.length + gap.length⟩ by
      rw [← start, ← place]]
    rw [next] at spelled
    rw [show input = gap ++ (spelling ++ left) by rw [split, cut]] at spelled ⊢
    exact .token white spells trivial spelled

theorem lexLoop_ne_panic (rounds : Nat) : ∀ {input : Bytes}, input.length < rounds →
    lexLoop length rounds input ≠ .error .panic := by
  induction rounds with
  | zero =>
    intro input enough
    exact absurd enough (Nat.not_lt_zero _)
  | succ rounds ih =>
    intro input enough panics
    have less : (skipWhitespace input).length ≤ input.length := length_dropWhile_le ..
    rw [lexLoop] at panics
    cases shape : skipWhitespace input with
    | nil =>
      rw [shape] at panics
      cases panics
    | cons ch after =>
      rw [shape] at panics less
      cases read : lexToken (length - (after.length + 1)) ch after with
      | error halt =>
        simp only [read] at panics
        cases panics
        exact lexToken_ne_panic _ _ _ read
      | ok pair =>
        simp only [read] at panics
        obtain ⟨spelling, -, cut, spells⟩ := lexToken_spells read
        have size : (ch :: after).length = spelling.length + pair.2.length := by
          rw [cut, length_append]
        have positive := length_pos_of_ne_nil spells.ne_nil
        have safe := @ih pair.2 (by omega)
        change (lexLoop length rounds pair.2 >>= fun tokens => pure (pair.1 :: tokens)) = _
          at panics
        cases loop : lexLoop length rounds pair.2 with
        | error halt =>
          rw [loop] at panics
          cases panics
          exact safe loop
        | ok tokens =>
          rw [loop] at panics
          cases panics

end Lexer

variable {input : Bytes}

/-- The tokens of an accepted text stand in it one after the other, before the end token. -/
theorem lex_spelled {result : List Token} (run : lex input = .ok result) :
    ∃ tokens, result = tokens ++ [⟨.eof, [], input.length⟩] ∧
      Lexer.Spelled (fun _ => True) 0 tokens input := by
  obtain ⟨tokens, shape, spelled⟩ := Lexer.lexLoop_spelled _ run le_rfl
  rw [Nat.sub_self] at spelled
  exact ⟨tokens, shape, spelled⟩

theorem lex_of_spelled {tokens : List Token} (spelled : Lexer.Spelled Lexer.Breaks 0 tokens input) :
    lex input = .ok (tokens ++ [⟨.eof, [], input.length⟩]) :=
  Lexer.lexLoop_of_spelled spelled _ (Nat.zero_add _) (Nat.lt_succ_self _)

theorem lex_ne_panic (input : Bytes) : lex input ≠ .error .panic :=
  Lexer.lexLoop_ne_panic _ (Nat.lt_succ_self _)

end GoDatabase.Sql
