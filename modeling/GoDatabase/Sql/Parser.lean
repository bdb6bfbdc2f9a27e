import GoDatabase.Sql.Lexer
import GoDatabase.Relational.Schema

/-!
# The parser of the SQL subset

A recursive-descent parser with one token of lookahead.  The tokens that are left
stand for the parser's position; `current` past the last token is the index out of range
of the source.
-/

namespace GoDatabase.Sql

open Library Library.Parser

structure ColumnDefinition where
  name : Bytes
  type : TokenType
  primaryKey : Bool
  notNull : Bool
  deriving DecidableEq, Repr

/-- `Value` is an `int64`, a string, a `bool` or nil. -/
structure Literal where
  kind : TokenType
  value : Value
  deriving DecidableEq

structure Predicate where
  column : Bytes
  op : TokenType
  value : Literal
  deriving DecidableEq

structure CreateTableStatement where
  name : Bytes
  columns : List ColumnDefinition
  deriving DecidableEq

structure InsertStatement where
  table : Bytes
  columns : List Bytes
  values : List Literal
  deriving DecidableEq

structure SelectStatement where
  table : Bytes
  columns : List Bytes
  all : Bool
  where_ : List Predicate
  deriving DecidableEq

inductive Statement where
  | createTable (statement : CreateTableStatement)
  | insert (statement : InsertStatement)
  | select (statement : SelectStatement)
  deriving DecidableEq

def isColumnType (kind : TokenType) : Bool :=
  kind = .int64 || kind = .stringType || kind = .bytes || kind = .bool

def isComparison (kind : TokenType) : Bool :=
  kind = .equal || kind = .notEqual || kind = .less || kind = .lessEqual || kind = .greater ||
    kind = .greaterEqual

def Token.is (kind : TokenType) (token : Token) : Bool := token.type = kind

namespace Parse

/-- `errorf`: the position and the type of the current token can be part of the text. -/
def errorf {α : Type} (format : String) (args : Token → List ErrorArg) : Parser Token α :=
  current >>= fun token _ =>
    .error (.error (.errorf ("sql: parse error at byte %d: " ++ format)
      (.int token.pos :: args token)))

def expect (kind : TokenType) : Parser Token Unit := do
  let token ← current
  if token.type ≠ kind then
    errorf "expected %s, got %s" fun token => [.text kind.name, .text token.type.name]
  else
    advance

def identifier (context : String) : Parser Token Bytes := do
  let token ← current
  if token.type ≠ .identifier then
    errorf "expected %s, got %s" fun token => [.text context, .text token.type.name]
  else
    advance
    return token.text

def optionalSemicolon : Parser Token Unit := do
  let token ← current
  if token.type = .semicolon then advance else return ()

def literal : Parser Token Literal := do
  let token ← current
  match token.type with
  | .string => do
    advance
    return ⟨.string, .string token.text⟩
  | .integer =>
    match Lexer.parseInt token.text with
    | none => errorf "invalid integer %q" fun _ => [.bytes token.text]
    | some value => do
      advance
      return ⟨.integer, .int64 value⟩
  | .true => do
    advance
    return ⟨.true, .bool true⟩
  | .false => do
    advance
    return ⟨.false, .bool false⟩
  | .null => do
    advance
    return ⟨.null, .null⟩
  | _ => errorf "expected literal, got %s" fun token => [.text token.type.name]

def identifierSequence (context : String) : Parser Token (List Bytes) :=
  sequence (Token.is .comma) (identifier context)

/-- The failure of the opening parenthesis is wrapped. -/
def openList (context : String) : Parser Token Unit := fun tokens =>
  match expect .lParen tokens with
  | .error (.error err) => .error (.error (.wrap "sql: expected %s: %w" [.text context] err))
  | other => other

def identifierList (context : String) : Parser Token (List Bytes) := do
  openList context
  let names ← sequence (Token.is .comma) (identifier context)
  expect .rParen
  return names

/-- The constraints after a column type.  Each round sets a flag that it found unset. -/
def constraints (column : ColumnDefinition) : (rounds : Nat) → Parser Token ColumnDefinition
  | 0 => fun _ => .error .panic
  | rounds + 1 => do
    let token ← current
    if token.type = .primary then
      if column.primaryKey then
        errorf "duplicate PRIMARY KEY constraint" fun _ => []
      else
        advance
        expect .key
        constraints { column with primaryKey := true } rounds
    else if token.type = .not then
      if column.notNull then
        errorf "duplicate NOT NULL constraint" fun _ => []
      else
        advance
        expect .null
        constraints { column with notNull := true } rounds
    else
      return column

def columnDefinition : Parser Token ColumnDefinition := do
  let name ← identifier "column name"
  let token ← current
  if ¬ isColumnType token.type then
    errorf "expected column type, got %s" fun token => [.text token.type.name]
  else
    advance
    let column ← constraints ⟨name, token.type, false, false⟩ 3
    return { column with notNull := column.notNull || column.primaryKey }

def createTable : Parser Token Statement := do
  expect .create
  expect .table
  let name ← identifier "table name"
  expect .lParen
  let columns ← sequence (Token.is .comma) columnDefinition
  expect .rParen
  optionalSemicolon
  return .createTable ⟨name, columns⟩

def insert : Parser Token Statement := do
  expect .insert
  expect .into
  let table ← identifier "table name"
  let columns ← identifierList "column list"
  expect .values
  expect .lParen
  let values ← sequence (Token.is .comma) literal
  expect .rParen
  optionalSemicolon
  if columns.length ≠ values.length then
    errorf "column count %d does not match value count %d"
      fun _ => [.int columns.length, .int values.length]
  else
    return .insert ⟨table, columns, values⟩

/-- The columns, and whether all of them are asked for. -/
def selectList : Parser Token (List Bytes × Bool) := do
  let token ← current
  if token.type = .star then
    advance
    return ([], true)
  else
    let columns ← identifierSequence "select list"
    return (columns, false)

def predicate : Parser Token Predicate := do
  let column ← identifier "predicate column"
  let token ← current
  if ¬ isComparison token.type then
    errorf "expected comparison operator, got %s" fun token => [.text token.type.name]
  else
    advance
    let value ← literal
    return ⟨column, token.type, value⟩

def whereClause : Parser Token (List Predicate) := do
  let token ← current
  if token.type = .where then
    advance
    sequence (Token.is .and) predicate
  else
    return []

def selectStatement : Parser Token Statement := do
  expect .select
  let (columns, all) ← selectList
  expect .from
  let table ← identifier "table name"
  let predicates ← whereClause
  optionalSemicolon
  return .select ⟨table, columns, all, predicates⟩

def statement : Parser Token Statement := do
  let token ← current
  match token.type with
  | .create => createTable
  | .insert => insert
  | .select => selectStatement
  | _ => errorf "expected CREATE, INSERT, or SELECT" fun _ => []

end Parse

/-- `Parse`. -/
def parse (input : Bytes) : Except Halt Statement := do
  let tokens ← lex input
  let (statement, rest) ← Parse.statement tokens
  let _ ← Parse.expect .eof rest
  return statement

end GoDatabase.Sql
