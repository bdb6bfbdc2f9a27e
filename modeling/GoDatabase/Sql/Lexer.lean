import GoDatabase.Library.Parsing
import Mathlib.Data.List.TakeWhile

/-!
# The lexer of the SQL subset

`Lex` cuts its input into tokens.  The input that is still to be read stands for the
position of the source's lexer: every byte the source looks at is the first or the
second one of that rest, and is matched on here where the source compares the position
with the length.
-/

namespace GoDatabase.Sql

open Library

inductive TokenType where
  | illegal | eof | identifier | string | integer | true | false
  | create | table | primary | key | not | null | insert | into | values | select
  | from | where | and | int64 | stringType | bytes | bool
  | lParen | rParen | comma | semicolon | star
  | equal | notEqual | less | lessEqual | greater | greaterEqual
  deriving DecidableEq, Repr

/-- `tokenNames`. -/
def TokenType.name : TokenType → String
  | .illegal => "illegal"
  | .eof => "EOF"
  | .identifier => "identifier"
  | .string => "string"
  | .integer => "integer"
  | .true => "TRUE"
  | .false => "FALSE"
  | .create => "CREATE"
  | .table => "TABLE"
  | .primary => "PRIMARY"
  | .key => "KEY"
  | .not => "NOT"
  | .null => "NULL"
  | .insert => "INSERT"
  | .into => "INTO"
  | .values => "VALUES"
  | .select => "SELECT"
  | .from => "FROM"
  | .where => "WHERE"
  | .and => "AND"
  | .int64 => "INT64"
  | .stringType => "STRING"
  | .bytes => "BYTES"
  | .bool => "BOOL"
  | .lParen => "("
  | .rParen => ")"
  | .comma => ","
  | .semicolon => ";"
  | .star => "*"
  | .equal => "="
  | .notEqual => "!="
  | .less => "<"
  | .lessEqual => "<="
  | .greater => ">"
  | .greaterEqual => ">="

/-- The text is the decoded value of a string and the spelling of any other token. -/
structure Token where
  type : TokenType
  text : Bytes
  pos : Nat
  deriving DecidableEq, Repr

namespace Lexer

/-! ## Characters -/

/-- The bytes of an ASCII text. -/
def ascii (text : String) : Bytes := text.toList.map Char.toUInt8

def quote : UInt8 := 39
def plus : UInt8 := 43
def minus : UInt8 := 45
def equals : UInt8 := 61
def bang : UInt8 := 33

def isDigit (ch : UInt8) : Bool := 48 ≤ ch && ch ≤ 57

def isIdentifierStart (ch : UInt8) : Bool :=
  ch = 95 || (97 ≤ ch && ch ≤ 122) || (65 ≤ ch && ch ≤ 90)

def isIdentifierPart (ch : UInt8) : Bool := isIdentifierStart ch || isDigit ch

/-- `unicode.IsSpace` of a rune below 256. -/
def isSpace (ch : UInt8) : Bool := (9 ≤ ch && ch ≤ 13) || ch = 32 || ch = 0x85 || ch = 0xA0

/-- `strings.ToUpper` on ASCII bytes. -/
def toUpper (text : Bytes) : Bytes :=
  text.map fun ch => if 97 ≤ ch ∧ ch ≤ 122 then ch - 32 else ch

/-- The number of bytes of a leading sign. -/
def signLength (text : Bytes) : Nat :=
  if text.head? = some plus ∨ text.head? = some minus then 1 else 0

/-- The value of decimal digits. -/
def decimal (digits : Bytes) : Nat :=
  digits.foldl (fun value digit => 10 * value + (digit.toNat - 48)) 0

/-- `strconv.ParseInt(text, 10, 64)`: an optional sign and decimal digits, in range. -/
def parseInt (text : Bytes) : Option Int64 :=
  let digits := text.drop (signLength text)
  if digits = [] ∨ digits.any (fun ch => !isDigit ch) then none
  else if text.head? = some minus then
    if decimal digits ≤ 2 ^ 63 then some (Int64.ofInt (-decimal digits)) else none
  else if decimal digits < 2 ^ 63 then some (Int64.ofInt (decimal digits)) else none

/-! ## Tokens -/

def keywords : List (Bytes × TokenType) :=
  [(ascii "CREATE", .create), (ascii "TABLE", .table), (ascii "PRIMARY", .primary),
    (ascii "KEY", .key), (ascii "NOT", .not), (ascii "NULL", .null), (ascii "INSERT", .insert),
    (ascii "INTO", .into), (ascii "VALUES", .values), (ascii "SELECT", .select),
    (ascii "FROM", .from), (ascii "WHERE", .where), (ascii "AND", .and),
    (ascii "INT64", .int64), (ascii "STRING", .stringType), (ascii "BYTES", .bytes),
    (ascii "BOOL", .bool), (ascii "TRUE", .true), (ascii "FALSE", .false)]

def identifier (pos : Nat) (ch : UInt8) (rest : Bytes) : Token × Bytes :=
  let text := ch :: rest.takeWhile isIdentifierPart
  (⟨(keywords.lookup (toUpper text)).getD .identifier, text, pos⟩, rest.dropWhile isIdentifierPart)

/-- The value and what follows the closing quote; two quotes stand for one. -/
def stringBody : Bytes → Option (Bytes × Bytes)
  | [] => none
  | [ch] => if ch = quote then some ([], []) else none
  | ch :: next :: rest =>
    if ch ≠ quote then (stringBody (next :: rest)).map fun body => (ch :: body.1, body.2)
    else if next = quote then (stringBody rest).map fun body => (quote :: body.1, body.2)
    else some ([], next :: rest)

/-- `rest` is what follows the opening quote. -/
def stringLiteral (pos : Nat) (rest : Bytes) : Except Halt (Token × Bytes) :=
  match stringBody rest with
  | some (value, rest) => .ok (⟨.string, value, pos⟩, rest)
  | none => .error (.error (.errorf "sql: unterminated string at byte %d" [.int pos]))

def integer (pos : Nat) (rest : Bytes) : Except Halt (Token × Bytes) :=
  let digits := rest.drop (signLength rest)
  let text := rest.take (signLength rest) ++ digits.takeWhile isDigit
  match parseInt text with
  | some _ => .ok (⟨.integer, text, pos⟩, digits.dropWhile isDigit)
  | none => .error (.error (.errorf "sql: invalid int64 %q at byte %d" [.bytes text, .int pos]))

def punctuationKinds : List (UInt8 × TokenType) :=
  [(40, .lParen), (41, .rParen), (44, .comma), (59, .semicolon), (42, .star), (61, .equal),
    (60, .less), (62, .greater)]

def punctuation (pos : Nat) (ch : UInt8) (rest : Bytes) : Option (Token × Bytes) :=
  if ch = bang then
    if rest.head? = some equals then some (⟨.notEqual, [ch, equals], pos⟩, rest.tail) else none
  else
    match punctuationKinds.lookup ch with
    | none => none
    | some kind =>
      if (kind = .less ∨ kind = .greater) ∧ rest.head? = some equals then
        some (⟨if kind = .less then .lessEqual else .greaterEqual, [ch, equals], pos⟩, rest.tail)
      else some (⟨kind, [ch], pos⟩, rest)

/-- The token that starts with `ch` at byte `pos`, and what follows it. -/
def lexToken (pos : Nat) (ch : UInt8) (rest : Bytes) : Except Halt (Token × Bytes) :=
  if isIdentifierStart ch then .ok (identifier pos ch rest)
  else if ch = quote then stringLiteral pos rest
  else if isDigit ch || ((ch = plus || ch = minus) && rest.head?.any isDigit) then
    integer pos (ch :: rest)
  else
    match punctuation pos ch rest with
    | some result => .ok result
    | none =>
      .error (.error (.errorf "sql: invalid character %q at byte %d" [.int ch.toNat, .int pos]))

def skipWhitespace (rest : Bytes) : Bytes := rest.dropWhile isSpace

/-- Every round reads a token of at least one byte. -/
def lexLoop (length : Nat) : (rounds : Nat) → Bytes → Except Halt (List Token)
  | 0, _ => .error .panic
  | rounds + 1, rest =>
    match skipWhitespace rest with
    | [] => .ok [⟨.eof, [], length⟩]
    | ch :: after => do
      let (token, left) ← lexToken (length - (after.length + 1)) ch after
      let tokens ← lexLoop length rounds left
      return token :: tokens

end Lexer

/-- The position of a byte is the length of the input less what is left from it on. -/
def lex (input : Bytes) : Except Halt (List Token) :=
  Lexer.lexLoop input.length (input.length + 1) input

end GoDatabase.Sql
