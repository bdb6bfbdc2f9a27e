import GoDatabase.Sql.Spelling

/-!
# The lexer by positions

`internal/sql/lexer.go` reads its input by index.  The functions below do so as the source
does, where an index or a slice bound outside of the input ends the program.  They agree
with the lexer over the rest of the input, so no such access ever happens.
-/

namespace GoDatabase.Sql

open Library List Option

namespace Lexer

/-- `l.input[pos]` -/
def byteAt (input : Bytes) (pos : Nat) : Except Halt UInt8 :=
  match input[pos]? with
  | some ch => .ok ch
  | none => .error .panic

/-- `l.input[start:stop]` -/
def textAt (input : Bytes) (start stop : Nat) : Except Halt Bytes :=
  if start ≤ stop ∧ stop ≤ input.length then .ok (slice input start (stop - start))
  else .error .panic

/-- `for l.pos < len(l.input) && test(l.input[l.pos]) { l.pos++ }` -/
def scanAt (test : UInt8 → Bool) (input : Bytes) : (rounds pos : Nat) → Except Halt Nat
  | 0, _ => .error .panic
  | rounds + 1, pos =>
    if pos < input.length then do
      let ch ← byteAt input pos
      if test ch then scanAt test input rounds (pos + 1) else return pos
    else
      return pos

def identifierAt (input : Bytes) (pos : Nat) : Except Halt (Token × Nat) := do
  let stop ← scanAt isIdentifierPart input (input.length + 1) (pos + 1)
  let text ← textAt input pos stop
  return (⟨(keywords.lookup (toUpper text)).getD .identifier, text, pos⟩, stop)

/-- The loop of `stringLiteral`; without a closing quote there is no result. -/
def stringLoopAt (input : Bytes) :
    (rounds pos : Nat) → (value : Bytes) → Except Halt (Option (Bytes × Nat))
  | 0, _, _ => .error .panic
  | rounds + 1, pos, value =>
    if pos < input.length then do
      let ch ← byteAt input pos
      if ch ≠ quote then
        stringLoopAt input rounds (pos + 1) (value ++ [ch])
      else if pos + 1 < input.length then
        let next ← byteAt input (pos + 1)
        if next = quote then
          stringLoopAt input rounds (pos + 2) (value ++ [quote])
        else
          return some (value, pos + 1)
      else
        return some (value, pos + 1)
    else
      return none

def stringLiteralAt (input : Bytes) (pos : Nat) : Except Halt (Token × Nat) := do
  match ← stringLoopAt input (input.length + 1) (pos + 1) [] with
  | some (value, stop) => return (⟨.string, value, pos⟩, stop)
  | none => .error (.error (.errorf "sql: unterminated string at byte %d" [.int pos]))

def integerAt (input : Bytes) (pos : Nat) : Except Halt (Token × Nat) := do
  let ch ← byteAt input pos
  let digits := if ch = plus ∨ ch = minus then pos + 1 else pos
  let stop ← scanAt isDigit input (input.length + 1) digits
  let text ← textAt input pos stop
  match parseInt text with
  | some _ => return (⟨.integer, text, pos⟩, stop)
  | none => .error (.error (.errorf "sql: invalid int64 %q at byte %d" [.bytes text, .int pos]))

/-- `pos < len(l.input) && l.input[pos] == '='` -/
def equalsAt (input : Bytes) (pos : Nat) : Except Halt Bool :=
  if pos < input.length then do
    let ch ← byteAt input pos
    return decide (ch = equals)
  else
    return false

def punctuationAt (input : Bytes) (pos : Nat) : Except Halt (Option (Token × Nat)) := do
  let text ← textAt input pos (pos + 1)
  let ch ← byteAt input pos
  if ch = bang then
    if ← equalsAt input (pos + 1) then
      let text ← textAt input pos (pos + 2)
      return some (⟨.notEqual, text, pos⟩, pos + 2)
    else
      return none
  else
    match punctuationKinds.lookup ch with
    | none => return none
    | some kind =>
      if kind = .less ∨ kind = .greater then
        if ← equalsAt input (pos + 1) then
          let wide := if kind = .less then .lessEqual else .greaterEqual
          return some (⟨wide, text ++ [equals], pos⟩, pos + 2)
        else
          return some (⟨kind, text, pos⟩, pos + 1)
      else
        return some (⟨kind, text, pos⟩, pos + 1)

/-- The condition for an integer. -/
def numberAt (input : Bytes) (pos : Nat) (ch : UInt8) : Except Halt Bool :=
  if isDigit ch then
    return true
  else if (ch = plus ∨ ch = minus) ∧ pos + 1 < input.length then do
    let next ← byteAt input (pos + 1)
    return isDigit next
  else
    return false

def lexTokenAt (input : Bytes) (pos : Nat) : Except Halt (Token × Nat) := do
  let ch ← byteAt input pos
  if isIdentifierStart ch then
    identifierAt input pos
  else if ch = quote then
    stringLiteralAt input pos
  else if ← numberAt input pos ch then
    integerAt input pos
  else
    match ← punctuationAt input pos with
    | some result => return result
    | none =>
      .error (.error (.errorf "sql: invalid character %q at byte %d" [.int ch.toNat, .int pos]))

def lexLoopAt (input : Bytes) : (rounds pos : Nat) → Except Halt (List Token)
  | 0, _ => .error .panic
  | rounds + 1, pos => do
    let pos ← scanAt isSpace input (input.length + 1) pos
    if pos = input.length then
      return [⟨.eof, [], pos⟩]
    else
      let (token, pos) ← lexTokenAt input pos
      let tokens ← lexLoopAt input rounds pos
      return token :: tokens

end Lexer

/-- The lexer as the source runs it. -/
def lexAt (input : Bytes) : Except Halt (List Token) :=
  Lexer.lexLoopAt input (input.length + 1) 0

/-! ## Agreement -/

namespace Lexer

variable {input rest : Bytes} {pos : Nat} {ch : UInt8} (here : input.drop pos = ch :: rest)

section

include here

theorem byteAt_eq : byteAt input pos = .ok ch := by
  have found : input[pos]? = some ch := by
    rw [← List.head?_drop, here]
    rfl
  rw [byteAt, found]

/-- The input up to a position and the rest from there on. -/
theorem length_of_drop : input.length = pos + (rest.length + 1) := by
  have size := congrArg List.length here
  rw [length_drop, length_cons] at size
  omega

theorem drop_succ_of_drop : input.drop (pos + 1) = rest := by
  rw [← drop_drop, here, drop_succ_cons, drop_zero]

end

theorem textAt_eq {stop : Nat} (forward : pos ≤ stop) (inside : stop ≤ input.length) :
    textAt input pos stop = .ok ((input.drop pos).take (stop - pos)) :=
  if_pos ⟨forward, inside⟩

theorem scanAt_eq (test : UInt8 → Bool) (input : Bytes) : ∀ rounds pos,
    input.length < pos + rounds → pos ≤ input.length →
    scanAt test input rounds pos = .ok (pos + ((input.drop pos).takeWhile test).length) := by
  intro rounds
  induction rounds with
  | zero => intro pos enough inside; omega
  | succ rounds ih =>
    intro pos enough inside
    rw [scanAt]
    cases here : input.drop pos with
    | nil =>
      rw [if_neg (not_lt.mpr (drop_eq_nil_iff.mp here))]
      rfl
    | cons ch rest =>
      have size := length_of_drop here
      rw [if_pos (by omega), byteAt_eq here, ok_bind, takeWhile_cons]
      by_cases passes : test ch = true
      · have next := ih (pos + 1) (by omega) (by omega)
        rw [drop_succ_of_drop here] at next
        rw [if_pos passes, if_pos passes, next, length_cons]
        congr 1
        omega
      · rw [if_neg passes, if_neg passes]
        rfl

/-- A position in the input that is given by the rest from there on. -/
def stopOf (input left : Bytes) : Nat := input.length - left.length

/-- The result of reading a token, by positions. -/
def positioned (input : Bytes) (result : Except Halt (Token × Bytes)) : Except Halt (Token × Nat) :=
  result.map fun read => (read.1, stopOf input read.2)

theorem take_length_takeWhile (test : UInt8 → Bool) (bytes : Bytes) :
    bytes.take (bytes.takeWhile test).length = bytes.takeWhile test :=
  (prefix_iff_eq_take.mp (List.takeWhile_prefix test)).symm

theorem drop_length_takeWhile (test : UInt8 → Bool) (bytes : Bytes) :
    bytes.drop (bytes.takeWhile test).length = bytes.dropWhile test :=
  (congrArg (List.drop _) takeWhile_append_dropWhile).symm.trans drop_left

theorem stringLoopAt_eq (input : Bytes) : ∀ rounds pos value,
    input.length < pos + rounds → pos ≤ input.length →
    stringLoopAt input rounds pos value = .ok ((stringBody (input.drop pos)).map fun body =>
      (value ++ body.1, stopOf input body.2)) := by
  intro rounds
  induction rounds with
  | zero => intro pos value enough inside; omega
  | succ rounds ih =>
    intro pos value enough inside
    rw [stringLoopAt]
    cases here : input.drop pos with
    | nil =>
      rw [if_neg (not_lt.mpr (drop_eq_nil_iff.mp here))]
      rfl
    | cons ch rest =>
      have size := length_of_drop here
      have later := drop_succ_of_drop here
      rw [if_pos (by omega), byteAt_eq here, ok_bind]
      cases rest with
      | nil =>
        rw [length_nil] at size
        by_cases plain : ch ≠ quote
        · have next := ih (pos + 1) (value ++ [ch]) (by omega) (by omega)
          rw [later] at next
          rw [if_pos plain, next, stringBody, stringBody, if_neg plain]
          rfl
        · rw [if_neg plain, if_neg (by omega), stringBody, if_pos (not_not.mp plain)]
          simp only [Option.map_some, append_nil, stopOf, length_nil]
          rw [size]
          rfl
      | cons next rest =>
        rw [length_cons] at size
        by_cases plain : ch ≠ quote
        · have loop := ih (pos + 1) (value ++ [ch]) (by omega) (by omega)
          rw [later] at loop
          rw [if_pos plain, loop, stringBody, if_pos plain, Option.map_map]
          simp only [Function.comp_def, append_assoc, singleton_append]
        · rw [if_neg plain, if_pos (by omega), byteAt_eq later, ok_bind, stringBody,
            if_neg plain]
          by_cases doubles : next = quote
          · have loop := ih (pos + 2) (value ++ [quote]) (by omega) (by omega)
            rw [drop_succ_of_drop later] at loop
            rw [if_pos doubles, if_pos doubles, loop, Option.map_map]
            simp only [Function.comp_def, append_assoc, singleton_append]
          · rw [if_neg doubles, if_neg doubles]
            simp only [Option.map_some, append_nil, stopOf, length_cons]
            rw [show input.length - (rest.length + 1) = pos + 1 by omega]
            rfl

theorem equalsAt_eq (input : Bytes) (pos : Nat) :
    equalsAt input pos = .ok (decide ((input.drop pos).head? = some equals)) := by
  rw [equalsAt]
  cases here : input.drop pos with
  | nil =>
    rw [if_neg (not_lt.mpr (drop_eq_nil_iff.mp here))]
    rfl
  | cons ch rest =>
    have size := length_of_drop here
    rw [if_pos (by omega), byteAt_eq here, ok_bind, List.head?_cons]
    simp only [some.injEq]
    rfl

section

include here

theorem identifierAt_eq :
    identifierAt input pos = positioned input (.ok (identifier pos ch rest)) := by
  have size := length_of_drop here
  have split := congrArg List.length (@List.takeWhile_append_dropWhile _ isIdentifierPart rest)
  rw [length_append] at split
  have text : (input.drop pos).take (pos + 1 + (rest.takeWhile isIdentifierPart).length - pos) =
      ch :: rest.takeWhile isIdentifierPart := by
    rw [here, show pos + 1 + (rest.takeWhile isIdentifierPart).length - pos =
      (rest.takeWhile isIdentifierPart).length + 1 by omega, take_succ_cons]
    rw [take_length_takeWhile]
  rw [identifierAt, scanAt_eq _ _ _ _ (by omega) (by omega), ok_bind, drop_succ_of_drop here,
    textAt_eq (by omega) (by omega), ok_bind, text, positioned, identifier]
  simp only [Except.map, stopOf]
  rw [show input.length - (rest.dropWhile isIdentifierPart).length =
    pos + 1 + (rest.takeWhile isIdentifierPart).length by omega]
  rfl

theorem stringLiteralAt_eq :
    stringLiteralAt input pos = positioned input (stringLiteral pos rest) := by
  have size := length_of_drop here
  rw [stringLiteralAt, stringLoopAt_eq _ _ _ _ (by omega) (by omega), ok_bind,
    drop_succ_of_drop here, stringLiteral]
  cases stringBody rest with
  | none => rfl
  | some body => rfl

theorem integerAt_eq :
    integerAt input pos = positioned input (integer pos (ch :: rest)) := by
  have size := length_of_drop here
  have digits : (if ch = plus ∨ ch = minus then pos + 1 else pos) =
      pos + signLength (ch :: rest) := by
    rw [signLength_cons]
    split_ifs <;> rfl
  have short : signLength (ch :: rest) ≤ 1 := by
    rw [signLength_cons]
    split_ifs <;> omega
  have later : input.drop (pos + signLength (ch :: rest)) =
      (ch :: rest).drop (signLength (ch :: rest)) := by rw [← drop_drop, here]
  have split := congrArg List.length (@List.takeWhile_append_dropWhile _ isDigit
    ((ch :: rest).drop (signLength (ch :: rest))))
  rw [length_append, length_drop, length_cons] at split
  rw [integerAt, byteAt_eq here, ok_bind]
  dsimp only
  rw [digits, scanAt_eq _ _ _ _ (by omega) (by omega), ok_bind, later,
    textAt_eq (by omega) (by omega), ok_bind, here, Nat.add_assoc, Nat.add_sub_cancel_left,
    take_add, take_length_takeWhile, integer]
  cases parseInt ((ch :: rest).take (signLength (ch :: rest)) ++
      ((ch :: rest).drop (signLength (ch :: rest))).takeWhile isDigit) with
  | none => rfl
  | some value =>
    simp only [positioned, Except.map, stopOf]
    rw [show input.length -
      (((ch :: rest).drop (signLength (ch :: rest))).dropWhile isDigit).length =
        pos + (signLength (ch :: rest) +
          (((ch :: rest).drop (signLength (ch :: rest))).takeWhile isDigit).length) by omega]
    rfl

theorem punctuationAt_eq : punctuationAt input pos =
      .ok ((punctuation pos ch rest).map fun read => (read.1, stopOf input read.2)) := by
  have size := length_of_drop here
  have later := drop_succ_of_drop here
  have one : textAt input pos (pos + 1) = .ok [ch] := by
    rw [textAt_eq (by omega) (by omega), here, Nat.add_sub_cancel_left]
    rfl
  rw [punctuationAt, one, ok_bind, byteAt_eq here, ok_bind, equalsAt_eq, later, punctuation]
  by_cases doubles : rest.head? = some equals
  · obtain ⟨after, rfl⟩ : ∃ after, rest = equals :: after := by
      cases rest with
      | nil => cases doubles
      | cons next after =>
        cases doubles
        exact ⟨after, rfl⟩
    rw [length_cons] at size
    have two : textAt input pos (pos + 2) = .ok [ch, equals] := by
      rw [textAt_eq (by omega) (by omega), here, Nat.add_sub_cancel_left]
      rfl
    have stop : stopOf input after = pos + 2 := by
      rw [stopOf]
      omega
    have stopOne : stopOf input (equals :: after) = pos + 1 := by
      rw [stopOf, length_cons]
      omega
    simp only [List.head?_cons, decide_true, ok_bind, two, tail_cons, and_true, ↓reduceIte]
    split_ifs with isBang
    · rw [map_some, stop]
      rfl
    · cases punctuationKinds.lookup ch with
      | none => rfl
      | some kind =>
        dsimp only
        split_ifs <;> simp only [map_some, stop, stopOne] <;> rfl
  · have stopOne : stopOf input rest = pos + 1 := by
      rw [stopOf]
      omega
    simp only [doubles, decide_false, ok_bind, and_false, Bool.false_eq_true, if_false]
    split_ifs with isBang
    · rfl
    · cases punctuationKinds.lookup ch with
      | none => rfl
      | some kind =>
        dsimp only
        rw [map_some, stopOne]
        split_ifs <;> rfl

theorem numberAt_eq : numberAt input pos ch =
      .ok (isDigit ch || ((ch = plus || ch = minus) && rest.head?.any isDigit)) := by
  have size := length_of_drop here
  have later := drop_succ_of_drop here
  rw [numberAt]
  by_cases digit : isDigit ch = true
  · rw [if_pos digit, digit]
    rfl
  rw [if_neg digit, eq_false_of_ne_true digit, Bool.false_or]
  cases rest with
  | nil =>
    rw [length_nil] at size
    rw [if_neg (by omega)]
    simp only [List.head?_nil, any_none, Bool.and_false]
    rfl
  | cons next after =>
    rw [length_cons] at size
    rw [byteAt_eq later, ok_bind]
    by_cases signed : ch = plus ∨ ch = minus
    · rw [if_pos ⟨signed, by omega⟩]
      have both : (decide (ch = plus) || decide (ch = minus)) = true := by simpa using signed
      rw [both]
      rfl
    · rw [if_neg fun both => signed both.1]
      have neither : (decide (ch = plus) || decide (ch = minus)) = false := by simpa using signed
      rw [neither]
      rfl

theorem lexTokenAt_eq :
    lexTokenAt input pos = positioned input (lexToken pos ch rest) := by
  rw [lexTokenAt, byteAt_eq here, ok_bind, identifierAt_eq here, stringLiteralAt_eq here,
    numberAt_eq here, ok_bind, integerAt_eq here, punctuationAt_eq here, ok_bind, lexToken]
  split_ifs
  · rfl
  · rfl
  · rfl
  · cases punctuation pos ch rest with
    | none => rfl
    | some read => rfl

end

/-- The loop over the positions is the loop over the rest of the input. -/
theorem lexLoopAt_eq (input : Bytes) : ∀ rounds pos, pos ≤ input.length →
    lexLoopAt input rounds pos = lexLoop input.length rounds (input.drop pos) := by
  intro rounds
  induction rounds with
  | zero => exact fun _ _ => rfl
  | succ rounds ih =>
    intro pos inside
    have white := congrArg List.length (@List.takeWhile_append_dropWhile _ isSpace (input.drop pos))
    rw [length_append, length_drop] at white
    have left : input.drop (pos + ((input.drop pos).takeWhile isSpace).length) =
        skipWhitespace (input.drop pos) := by
      rw [← drop_drop, skipWhitespace, drop_length_takeWhile]
    rw [lexLoopAt, scanAt_eq _ _ _ _ (by omega) inside, ok_bind, lexLoop]
    have bound : pos + ((input.drop pos).takeWhile isSpace).length ≤ input.length := by omega
    generalize pos + ((input.drop pos).takeWhile isSpace).length = start at left bound ⊢
    cases shape : skipWhitespace (input.drop pos) with
    | nil =>
      rw [shape, drop_eq_nil_iff] at left
      have atEnd : start = input.length := by omega
      rw [if_pos atEnd, atEnd]
      rfl
    | cons ch after =>
      rw [shape] at left
      have size := length_of_drop left
      have place : input.length - (after.length + 1) = start := by omega
      rw [if_neg (by omega), lexTokenAt_eq left]
      dsimp only
      rw [place]
      cases read : lexToken start ch after with
      | error halt => rfl
      | ok pair =>
        obtain ⟨spelling, -, cut, -⟩ := lexToken_spells read
        have suffix : pair.2 <:+ input :=
          (cut ▸ suffix_append _ _ : pair.2 <:+ ch :: after).trans
            (left ▸ drop_suffix _ _)
        have rest := ih (stopOf input pair.2) (Nat.sub_le _ _)
        rw [stopOf, ← suffix_iff_eq_drop.mp suffix] at rest
        simp only [positioned, Except.map, ok_bind]
        exact congrArg (fun run => run >>= fun tokens => pure (pair.1 :: tokens)) rest

end Lexer

/-- No access of the lexer is outside of its input. -/
theorem lexAt_eq (input : Bytes) : lexAt input = lex input :=
  Lexer.lexLoopAt_eq input _ 0 (Nat.zero_le _)

/-! ## Tokens and their places -/

namespace Lexer

/-- A token in a spelling of it, and the whitespace before it. -/
structure Lexeme where
  gap : Bytes
  kind : TokenType
  text : Bytes
  spelling : Bytes
  white : ∀ ch ∈ gap, isSpace ch
  spells : Spells kind text spelling

/-- The text of a list of tokens, which ends with `last`. -/
def joined : List Lexeme → (last : Bytes) → Bytes
  | [], last => last
  | lexeme :: rest, last => lexeme.gap ++ (lexeme.spelling ++ joined rest last)

/-- The tokens of a text that begins at `pos`. -/
def placed : (pos : Nat) → List Lexeme → List Token
  | _, [] => []
  | pos, lexeme :: rest =>
    ⟨lexeme.kind, lexeme.text, pos + lexeme.gap.length⟩ ::
      placed (pos + lexeme.gap.length + lexeme.spelling.length) rest

variable {last : Bytes}

/-- A text goes on with whitespace when all its tokens have some before them. -/
theorem breaks_joined {lexemes : List Lexeme} (white : ∀ ch ∈ last, isSpace ch)
    (separate : ∀ lexeme ∈ lexemes, lexeme.gap ≠ []) : Breaks (joined lexemes last) := by
  intro ch first
  cases lexemes with
  | nil => exact white ch (mem_of_head? first)
  | cons lexeme rest =>
    have nonempty := separate lexeme (mem_cons_self ..)
    rw [joined, List.head?_append_of_ne_nil _ nonempty] at first
    exact lexeme.white ch (mem_of_head? first)

theorem spelled_joined (white : ∀ ch ∈ last, isSpace ch) :
    ∀ (lexemes : List Lexeme) (pos : Nat), (∀ lexeme ∈ lexemes.tail, lexeme.gap ≠ []) →
      Spelled Breaks pos (placed pos lexemes) (joined lexemes last) := by
  intro lexemes
  induction lexemes with
  | nil => exact fun _ _ => .done white
  | cons lexeme rest ih =>
    intro pos separate
    rw [tail_cons] at separate
    exact .token lexeme.white lexeme.spells (breaks_joined white separate)
      (ih _ fun later mem => separate later (mem_of_mem_tail mem))

/-- The spans of the tokens of a text from `pos` on, each from its first byte to the byte
behind it: a span holds a spelling of its token, and everything between is whitespace. -/
structure Spans (text : Bytes) (pos : Nat) (tokens : List Token) (spans : List (Nat × Nat)) :
    Prop where
  spells : List.Forall₂ (fun token span => token.pos = span.1 ∧
    Spells token.type token.text (slice text span.1 (span.2 - span.1))) tokens spans
  ordered : spans.Pairwise fun span later => span.2 ≤ later.1
  inside : ∀ span ∈ spans, pos ≤ span.1 ∧ span.1 < span.2 ∧ span.2 ≤ text.length
  white : ∀ i ch, pos ≤ i → text[i]? = some ch →
    (∃ span ∈ spans, span.1 ≤ i ∧ i < span.2) ∨ isSpace ch

theorem Spelled.exists_spans {After : Bytes → Prop} {pos : Nat} {tokens : List Token}
    {input : Bytes}
    (spelled : Spelled After pos tokens input) : ∀ before : Bytes, before.length = pos →
      ∃ spans, Spans (before ++ input) pos tokens spans := by
  induction spelled with
  | @done pos gap white =>
    intro before length
    refine ⟨[], .nil, .nil, (fun _ none => nomatch none), fun i ch late found => .inr ?_⟩
    rw [List.getElem?_append_right (by omega)] at found
    exact white ch (mem_of_getElem? found)
  | @token gap spelling rest kind text pos tokens white spells after more ih =>
    intro before length
    obtain ⟨spans, later⟩ := ih (before ++ (gap ++ spelling)) (by
      rw [length_append, length_append]
      omega)
    have shape : before ++ (gap ++ spelling) ++ rest = before ++ (gap ++ (spelling ++ rest)) := by
      simp only [append_assoc]
    rw [shape] at later
    have positive := length_pos_of_ne_nil spells.ne_nil
    have held : slice (before ++ (gap ++ (spelling ++ rest))) (pos + gap.length)
        (pos + gap.length + spelling.length - (pos + gap.length)) = spelling := by
      rw [← append_assoc]
      exact slice_middle (by rw [length_append, length]) (by omega)
    refine ⟨(pos + gap.length, pos + gap.length + spelling.length) :: spans,
      .cons ⟨rfl, ?_⟩ later.spells, .cons ?_ later.ordered, ?_, ?_⟩
    · rw [held]
      exact spells
    · exact fun span mem => (later.inside span mem).1
    · intro span mem
      rcases mem_cons.mp mem with rfl | other
      · simp only [length_append]
        omega
      · obtain ⟨start, rest⟩ := later.inside span other
        exact ⟨by omega, rest⟩
    · intro i ch late found
      by_cases behind : pos + gap.length + spelling.length ≤ i
      · rcases later.white i ch behind found with ⟨span, mem, within⟩ | space
        · exact .inl ⟨span, mem_cons_of_mem _ mem, within⟩
        · exact .inr space
      · by_cases inGap : i < pos + gap.length
        · rw [List.getElem?_append_right (by omega), List.getElem?_append_left (by omega)] at found
          exact .inr (white ch (mem_of_getElem? found))
        · exact .inl ⟨_, mem_cons_self .., by omega, by omega⟩

end Lexer

open Lexer in
/-- Spellings with whitespace between them are read as their tokens.  The tokens of any
accepted input stand in it one after the other, and whatever else is in the input is
whitespace.  The lexer stays inside of its input and ends. -/
theorem lex_lossless : (∀ (lexemes : List Lexeme) (last : Bytes), (∀ ch ∈ last, isSpace ch) →
      (∀ lexeme ∈ lexemes.tail, lexeme.gap ≠ []) → lexAt (joined lexemes last) =
        .ok (placed 0 lexemes ++ [⟨.eof, [], (joined lexemes last).length⟩])) ∧
    (∀ (input : Bytes) (result : List Token), lexAt input = .ok result →
      ∃ tokens spans, result = tokens ++ [⟨.eof, [], input.length⟩] ∧ Spans input 0 tokens spans) ∧
    ∀ input : Bytes, lexAt input ≠ .error .panic := by
  refine ⟨fun lexemes last white separate => ?_, fun input result run => ?_, fun input => ?_⟩
  · rw [lexAt_eq]
    exact lex_of_spelled (spelled_joined white lexemes 0 separate)
  · rw [lexAt_eq] at run
    obtain ⟨tokens, shape, spelled⟩ := lex_spelled run
    obtain ⟨spans, spanned⟩ := spelled.exists_spans [] rfl
    exact ⟨tokens, spans, shape, spanned⟩
  · rw [lexAt_eq]
    exact lex_ne_panic input

end GoDatabase.Sql
