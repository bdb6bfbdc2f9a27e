import GoDatabase.Library.KeyCode
import GoDatabase.Relational.Schema
import Mathlib.Algebra.Group.Int.Defs

/-!
# Encoded values

Strings inside a key are escaped, so that their end can be seen; integers are written
with the sign bit flipped and most significant byte first, so that they sort.  A value
outside the primary key starts with a byte for its type, or zero for NULL.
-/

namespace GoDatabase

open Library Option List

/-! ## Escaped components -/

/-- `escape`: a zero byte becomes `00 ff`, and `00 00` ends the component. -/
def escape : Bytes → Bytes
  | [] => [0, 0]
  | b :: rest => if b = 0 then 0 :: 0xff :: escape rest else b :: escape rest

/-- The loop of `decodeEscapedComponent` over the bytes before the end mark. -/
def unescape : Bytes → Option Bytes
  | [] => some []
  | [b] => if b ≠ 0 then some [b] else none
  | b :: mark :: rest =>
    if b ≠ 0 then
      (unescape (mark :: rest)).map (b :: ·)
    else if mark ≠ 0xff then
      none
    else
      (unescape rest).map (0 :: ·)

def decodeEscapedComponent (data : Bytes) : Option Bytes :=
  if data.length < 2 ∨ data[data.length - 2]? ≠ some 0 ∨ data[data.length - 1]? ≠ some 0 then
    none
  else
    unescape (data.take (data.length - 2))

theorem escape_cons_zero (rest : Bytes) : escape (0 :: rest) = 0 :: 0xff :: escape rest := rfl

variable {b : UInt8} {left right : Bytes}

theorem escape_cons_of_ne (nonzero : b ≠ 0) (rest : Bytes) :
    escape (b :: rest) = b :: escape rest := if_neg nonzero

/-- The component without its end mark. -/
def escapeBody : Bytes → Bytes
  | [] => []
  | b :: rest => if b = 0 then 0 :: 0xff :: escapeBody rest else b :: escapeBody rest

theorem escape_eq (part : Bytes) : escape part = escapeBody part ++ [0, 0] := by
  induction part with
  | nil => rfl
  | cons b rest ih =>
    rw [escape, escapeBody, ih]
    split <;> rfl

theorem unescape_cons_of_ne (nonzero : b ≠ 0) (rest : Bytes) :
    unescape (b :: rest) = (unescape rest).map (b :: ·) := by
  cases rest with
  | nil => exact if_pos nonzero
  | cons mark rest => exact if_pos nonzero

theorem unescape_escapeBody (part : Bytes) : unescape (escapeBody part) = some part := by
  induction part with
  | nil => rfl
  | cons b rest ih =>
    by_cases zero : b = 0
    · rw [escapeBody, if_pos zero, unescape, if_neg (not_not.mpr rfl), if_neg (not_not.mpr rfl), ih,
        zero]
      rfl
    · rw [escapeBody, if_neg zero, unescape_cons_of_ne zero, ih]
      rfl

/-- The loop accepts only bodies of escaped components. -/
theorem eq_escapeBody_of_unescape : ∀ {body part : Bytes}, unescape body = some part →
    body = escapeBody part
  | [], part, decoded => by
    rw [← some.inj decoded]
    rfl
  | [b], part, decoded => by
    rw [unescape] at decoded
    split_ifs at decoded with nonzero
    rw [← some.inj decoded, escapeBody, if_neg nonzero]
    rfl
  | b :: mark :: rest, part, decoded => by
    rw [unescape] at decoded
    split_ifs at decoded with nonzero isMark
    · obtain ⟨inner, isInner, rfl⟩ := map_eq_some_iff.mp decoded
      rw [escapeBody, if_neg nonzero, eq_escapeBody_of_unescape isInner]
    · obtain ⟨inner, isInner, rfl⟩ := map_eq_some_iff.mp decoded
      rw [not_not.mp nonzero, not_not.mp isMark, escapeBody, if_pos rfl,
        eq_escapeBody_of_unescape isInner]

variable {data : Bytes}

/-- The decoder accepts exactly the escaped components. -/
theorem decodeEscapedComponent_eq_some {part : Bytes} :
    decodeEscapedComponent data = some part ↔ data = escape part := by
  constructor
  · intro decoded
    rw [decodeEscapedComponent] at decoded
    split_ifs at decoded with shape
    simp only [not_or, not_lt, not_not] at shape
    obtain ⟨long, secondLast, last⟩ := shape
    have tail : data.drop (data.length - 2) = [0, 0] := by
      apply ext_getElem?
      intro idx
      rw [getElem?_drop]
      match idx with
      | 0 => exact secondLast
      | 1 => rwa [show data.length - 2 + 1 = data.length - 1 by omega]
      | idx + 2 => exact getElem?_eq_none (by omega)
    rw [escape_eq, ← eq_escapeBody_of_unescape decoded, ← tail, take_append_drop]
  · rintro rfl
    have size : (escape part).length = (escapeBody part).length + 2 := by
      rw [escape_eq, length_append]
      rfl
    rw [decodeEscapedComponent, size, Nat.add_sub_cancel, if_neg]
    · rw [escape_eq, take_left', unescape_escapeBody]
      rfl
    · rw [escape_eq]
      simp

/-- Escaped components sort as the strings do, whatever follows them.  The recursion is on
both strings; a zero byte takes two bytes on either side. -/
theorem escape_append_lt_of_lt : ∀ {left right : Bytes} (leftRest rightRest : Bytes), left < right →
    escape left ++ leftRest < escape right ++ rightRest
  | [], [], _, _, less => absurd less (lt_irrefl _)
  | _ :: _, [], _, _, less => absurd less (not_lt_nil _)
  | [], c :: right, _, _, _ => by
    by_cases zero : c = 0
    · -- the end mark `00 00` is below the escaped zero `00 ff`
      rw [zero, escape_cons_zero]
      exact cons_lt_cons_self.mpr (List.Lex.rel (by decide))
    · rw [escape_cons_of_ne zero]
      exact List.Lex.rel (UInt8.pos_iff_ne_zero.mpr zero)
  | b :: left, c :: right, leftRest, rightRest, less => by
    rcases cons_lt_cons_iff.mp less with smaller | ⟨rfl, tails⟩
    · have rightNonzero : c ≠ 0 := UInt8.pos_iff_ne_zero.mp (lt_of_le_of_lt b.zero_le smaller)
      rw [escape_cons_of_ne rightNonzero]
      by_cases zero : b = 0
      · rw [zero, escape_cons_zero]
        exact List.Lex.rel (UInt8.pos_iff_ne_zero.mpr rightNonzero)
      · rw [escape_cons_of_ne zero]
        exact List.Lex.rel smaller
    · have rest := escape_append_lt_of_lt leftRest rightRest tails
      by_cases zero : b = 0
      · rw [zero, escape_cons_zero, escape_cons_zero]
        exact cons_lt_cons_self.mpr (cons_lt_cons_self.mpr rest)
      · rw [escape_cons_of_ne zero, escape_cons_of_ne zero]
        exact cons_lt_cons_self.mpr rest

/-- The end of an escaped component can be seen. -/
theorem escape_append_inj {leftRest rightRest : Bytes}
    (same : escape left ++ leftRest = escape right ++ rightRest) :
    left = right ∧ leftRest = rightRest := by
  rcases lt_trichotomy left right with smaller | rfl | larger
  · exact absurd same (escape_append_lt_of_lt leftRest rightRest smaller).ne
  · exact ⟨rfl, append_cancel_left same⟩
  · exact absurd same (escape_append_lt_of_lt rightRest leftRest larger).ne'

theorem escape_delimited : Delimited fun (part word : Bytes) => word = escape part := by
  rintro left right _ _ leftRest rightRest rfl rfl same
  exact escape_append_inj same

theorem escape_inj (same : escape left = escape right) : left = right :=
  (escape_append_inj (congrArg (· ++ []) same)).1

theorem escape_append_lt (ne : left ≠ right) (leftRest rightRest : Bytes) :
    escape left ++ leftRest < escape right ++ rightRest ↔ left < right := by
  constructor
  · intro less
    rcases lt_trichotomy left right with smaller | same | larger
    · exact smaller
    · exact absurd same ne
    · exact absurd less (not_lt.mpr (escape_append_lt_of_lt rightRest leftRest larger).le)
  · exact escape_append_lt_of_lt leftRest rightRest

theorem escape_lt : escape left < escape right ↔ left < right := by
  by_cases same : left = right
  · rw [same]
    exact iff_of_false (lt_irrefl _) (lt_irrefl _)
  · have appended := escape_append_lt same [] []
    rwa [append_nil, append_nil] at appended

/-- Escaped components are read back, show where they end, and sort as the strings they
stand for. -/
theorem escaped_components (a b : Bytes) : decodeEscapedComponent (escape a) = some a ∧
    (∀ data, (decodeEscapedComponent data).isSome = true ↔ ∃ part, data = escape part) ∧
    (∀ rest, escape a <+: escape b ++ rest → a = b) ∧ (escape a < escape b ↔ a < b) ∧
    (a ≠ b → ∀ leftRest rightRest, escape a ++ leftRest < escape b ++ rightRest ↔ a < b) := by
  refine ⟨decodeEscapedComponent_eq_some.mpr rfl, fun data => ?_, fun rest starts => ?_, escape_lt,
    escape_append_lt⟩
  · rw [Option.isSome_iff_exists]
    exact exists_congr fun part => decodeEscapedComponent_eq_some
  · exact escape_delimited.eq_of_isPrefix rfl rfl starts

/-- The empty string sorts below one zero byte, and no suffix of the former changes that. -/
theorem escaped_components_zero : ([] : Bytes) ≠ [0] ∧ escape [] ++ [0xff] < escape [0] ++ [] :=
  ⟨by decide, ((escaped_components [] [0]).2.2.2.2 (by decide) [0xff] []).mpr (by decide)⟩

/-! ## Integers -/

/-- `uint64(x) ^ (1 << 63)` -/
def flipSign (x : UInt64) : UInt64 := x ^^^ ((1 : UInt64) <<< 63)

theorem flipSign_flipSign (x : UInt64) : flipSign (flipSign x) = x := by
  rw [flipSign, flipSign, UInt64.xor_assoc, UInt64.xor_self, UInt64.xor_zero]

theorem xor_two_pow_of_lt {number bit : Nat} (small : number < 2 ^ bit) :
    number ^^^ 2 ^ bit = number + 2 ^ bit := by
  rw [Nat.add_comm, ← Nat.mul_one (2 ^ bit), Nat.two_pow_add_eq_or_of_lt small, Nat.mul_one]
  apply Nat.eq_of_testBit_eq
  intro idx
  rw [Nat.testBit_xor, Nat.testBit_or, Nat.testBit_two_pow]
  by_cases same : bit = idx
  · rw [← same, Nat.testBit_lt_two_pow small]
    simp
  · simp [same]

/-- Flipping the sign bit moves the range of `int64` to the one of `uint64`. -/
theorem toNat_flipSign (x : Int64) : ((flipSign x.toUInt64).toNat : Int) = x.toInt + 2 ^ 63 := by
  have bound := x.toUInt64.toNat_lt
  have signed : x.toInt = if 2 * x.toUInt64.toNat < 2 ^ 64 then (x.toUInt64.toNat : Int)
      else x.toUInt64.toNat - 2 ^ 64 := BitVec.toInt_eq_toNat_cond x.toBitVec
  rw [flipSign, UInt64.toNat_xor, show ((1 : UInt64) <<< 63).toNat = 2 ^ 63 from by decide, signed]
  generalize x.toUInt64.toNat = number at *
  by_cases positive : number < 2 ^ 63
  · rw [xor_two_pow_of_lt positive, if_pos (by omega)]
    omega
  · obtain ⟨low, rfl⟩ : ∃ low, number = 2 ^ 63 + low := ⟨number - 2 ^ 63, by omega⟩
    have small : low < 2 ^ 63 := by omega
    rw [if_neg (by omega), Nat.add_comm, ← xor_two_pow_of_lt small, Nat.xor_assoc, Nat.xor_self,
      Nat.xor_zero, xor_two_pow_of_lt small]
    omega

/-- The eight bytes of an `int64` in a key. -/
def int64Bytes (x : Int64) : Bytes := beBytes 8 (flipSign x.toUInt64).toNat

/-- `int64(binary.BigEndian.Uint64(data) ^ (1 << 63))` -/
def int64Of (data : Bytes) : Int64 := (flipSign (UInt64.ofNat (beNat data))).toInt64

theorem flipSign_fits (x : UInt64) : (flipSign x).toNat < 256 ^ 8 := (flipSign x).toNat_lt

@[simp] theorem length_int64Bytes (x : Int64) : (int64Bytes x).length = 8 := length_beBytes ..

theorem int64Of_int64Bytes (x : Int64) : int64Of (int64Bytes x) = x := by
  rw [int64Of, int64Bytes, beNat_beBytes (flipSign_fits _), UInt64.ofNat_toNat, flipSign_flipSign]
  rfl

theorem int64Bytes_int64Of (size : data.length = 8) : int64Bytes (int64Of data) = data := by
  have fits : beNat data < 256 ^ 8 := size ▸ beNat_lt data
  have number : (UInt64.ofNat (beNat data)).toNat = beNat data := by
    rw [UInt64.toNat_ofNat']
    exact Nat.mod_eq_of_lt (by omega)
  show beBytes 8 (flipSign (flipSign (UInt64.ofNat (beNat data)))).toNat = data
  rw [flipSign_flipSign, number, ← size, beBytes_beNat]

theorem int64Bytes_inj {left right : Int64} (same : int64Bytes left = int64Bytes right) :
    left = right := by
  rw [← int64Of_int64Bytes left, same, int64Of_int64Bytes]

/-- Encoded integers sort as the integers. -/
theorem int64Bytes_lt {left right : Int64} :
    int64Bytes left < int64Bytes right ↔ left.toInt < right.toInt := by
  have leftNumber := toNat_flipSign left
  have rightNumber := toNat_flipSign right
  rw [int64Bytes, int64Bytes, beBytes_lt_beBytes (flipSign_fits _) (flipSign_fits _)]
  omega

/-! ## Values -/

def boolByte (v : Bool) : UInt8 := if v then 1 else 0

/-- `v.(int64)` -/
def Value.asInt64 : Value → Option Int64
  | .int64 x => some x
  | _ => none

/-- `v.(string)` -/
def Value.asString : Value → Option Bytes
  | .string x => some x
  | _ => none

/-- `v.([]byte)` -/
def Value.asBytes : Value → Option Bytes
  | .bytes x => some x
  | _ => none

/-- `v.(bool)` -/
def Value.asBool : Value → Option Bool
  | .bool x => some x
  | _ => none

def encodeValue (c : Column) (v : Value) : Except GoError Bytes :=
  if c.type < columnInt64 ∨ columnBool < c.type then
    .error errInvalidRow
  else if v = .null then
    if c.nullable ∧ ¬ c.primaryKey then
      .ok [0]
    else
      .error (.wrap "%w: null column %s" [.bytes c.name] errInvalidRow)
  else if c.type = columnInt64 then
    match v.asInt64 with
    | none => .error errInvalidRow
    | some x => .ok (if c.primaryKey then int64Bytes x else c.type :: int64Bytes x)
  else if c.type = columnString then
    match v.asString with
    | none => .error errInvalidRow
    | some x => .ok (if c.primaryKey then x else c.type :: escape x)
  else if c.type = columnBytes then
    match v.asBytes with
    | none => .error errInvalidRow
    | some x => .ok (c.type :: escape x)
  else if c.type = columnBool then
    match v.asBool with
    | none => .error errInvalidRow
    | some x => .ok [c.type, boolByte x]
  else
    .error errInvalidRow

def decodePrimaryKey (c : Column) (data : Bytes) : Except GoError Value :=
  if c.type = columnInt64 ∧ data.length = 8 then
    .ok (.int64 (int64Of data))
  else if c.type = columnString then
    .ok (.string data)
  else
    .error errInvalidRow

/-- The switch of `decodeValue` on the column type, after the type byte. -/
def decodeTyped (c : Column) (data : Bytes) : Except GoError Value :=
  if c.type = columnInt64 then
    if data.length ≠ 8 then .error errInvalidRow else .ok (.int64 (int64Of data))
  else if c.type = columnString then
    match decodeEscapedComponent data with
    | none => .error errInvalidRow
    | some value => .ok (.string value)
  else if c.type = columnBytes then
    match decodeEscapedComponent data with
    | none => .error errInvalidRow
    | some value => .ok (.bytes value)
  else if c.type = columnBool then
    match data with
    | [b] => if 1 < b then .error errInvalidRow else .ok (.bool (b = 1))
    | _ => .error errInvalidRow
  else
    .error errInvalidRow

def decodeValue (c : Column) (data : Bytes) : Except GoError Value :=
  if c.primaryKey then
    decodePrimaryKey c data
  else if c.type < columnInt64 ∨ columnBool < c.type then
    .error errInvalidRow
  else
    match data with
    | [] => .error errInvalidRow
    | tag :: data =>
      if tag = 0 then
        if data ≠ [] ∨ ¬ c.nullable ∨ c.primaryKey then .error errInvalidRow else .ok .null
      else if tag ≠ c.type then
        .error errInvalidRow
      else
        decodeTyped c data

/-- The words that stand for the values of a column. -/
inductive Encodes (c : Column) : Value → Bytes → Prop
  | null (known : c.type.Known) (nullable : c.nullable = true) (plain : c.primaryKey = false) :
      Encodes c .null [0]
  | keyInt64 (type : c.type = columnInt64) (key : c.primaryKey = true) (x : Int64) :
      Encodes c (.int64 x) (int64Bytes x)
  | int64 (type : c.type = columnInt64) (plain : c.primaryKey = false) (x : Int64) :
      Encodes c (.int64 x) (columnInt64 :: int64Bytes x)
  | keyString (type : c.type = columnString) (key : c.primaryKey = true) (x : Bytes) :
      Encodes c (.string x) x
  | string (type : c.type = columnString) (plain : c.primaryKey = false) (x : Bytes) :
      Encodes c (.string x) (columnString :: escape x)
  | bytes (type : c.type = columnBytes) (x : Bytes) :
      Encodes c (.bytes x) (columnBytes :: escape x)
  | bool (type : c.type = columnBool) (x : Bool) :
      Encodes c (.bool x) [columnBool, boolByte x]

theorem known_of_eq {type : ColumnType} (named : type = columnInt64 ∨ type = columnString ∨
    type = columnBytes ∨ type = columnBool) : type.Known := by
  rcases named with rfl | rfl | rfl | rfl <;> decide

variable {c : Column} {v : Value} {word : Bytes}

theorem Encodes.known (encodes : Encodes c v word) : c.type.Known := by
  cases encodes with
  | null known => exact known
  | keyInt64 type | int64 type => exact known_of_eq (.inl type)
  | keyString type | string type => exact known_of_eq (.inr (.inl type))
  | bytes type => exact known_of_eq (.inr (.inr (.inl type)))
  | bool type => exact known_of_eq (.inr (.inr (.inr type)))

theorem encodeValue_of_encodes (encodes : Encodes c v word) : encodeValue c v = .ok word := by
  rw [encodeValue, if_neg encodes.known]
  cases encodes with
  | null known nullable plain => rw [if_pos rfl, if_pos ⟨nullable, by rw [plain]; decide⟩]
  | keyInt64 type key x =>
    rw [if_neg nofun, if_pos type, Value.asInt64, key]
    rfl
  | int64 type plain x =>
    rw [if_neg nofun, if_pos type, Value.asInt64, plain, type]
    rfl
  | keyString type key x =>
    rw [if_neg nofun, if_neg (by rw [type]; decide), if_pos type, Value.asString, key]
    rfl
  | string type plain x =>
    rw [if_neg nofun, if_neg (by rw [type]; decide), if_pos type, Value.asString, plain, type]
    rfl
  | bytes type x =>
    rw [if_neg nofun, if_neg (by rw [type]; decide), if_neg (by rw [type]; decide), if_pos type,
      type, Value.asBytes]
  | bool type x =>
    rw [if_neg nofun, if_neg (by rw [type]; decide), if_neg (by rw [type]; decide),
      if_neg (by rw [type]; decide), if_pos type, type, Value.asBool]

theorem encodes_of_encodeValue (encoded : encodeValue c v = .ok word) : Encodes c v word := by
  rw [encodeValue, guard_eq_ok] at encoded
  obtain ⟨known, encoded⟩ := encoded
  split_ifs at encoded with isNull nullable isInt intKey isString stringKey isBytes isBool
  · rw [isNull, ← Except.ok.inj encoded]
    exact .null known nullable.1 (Bool.eq_false_iff.mpr nullable.2)
  · cases v with
    | int64 x =>
      rw [← Except.ok.inj encoded]
      exact .keyInt64 isInt intKey x
    | null | string _ | bytes _ | bool _ | other => cases encoded
  · cases v with
    | int64 x =>
      rw [← Except.ok.inj encoded, isInt]
      exact .int64 isInt (Bool.eq_false_iff.mpr intKey) x
    | null | string _ | bytes _ | bool _ | other => cases encoded
  · cases v with
    | string x =>
      rw [← Except.ok.inj encoded]
      exact .keyString isString stringKey x
    | null | int64 _ | bytes _ | bool _ | other => cases encoded
  · cases v with
    | string x =>
      rw [← Except.ok.inj encoded, isString]
      exact .string isString (Bool.eq_false_iff.mpr stringKey) x
    | null | int64 _ | bytes _ | bool _ | other => cases encoded
  · cases v with
    | bytes x =>
      rw [← Except.ok.inj encoded, isBytes]
      exact .bytes isBytes x
    | null | int64 _ | string _ | bool _ | other => cases encoded
  · cases v with
    | bool x =>
      rw [← Except.ok.inj encoded, isBool]
      exact .bool isBool x
    | null | int64 _ | string _ | bytes _ | other => cases encoded

theorem encodeValue_eq_ok : encodeValue c v = .ok word ↔ Encodes c v word :=
  ⟨encodes_of_encodeValue, encodeValue_of_encodes⟩

/-- The encodings of a primary key. -/
theorem Encodes.key_cases (encodes : Encodes c v word)
    (key : c.primaryKey = true) (type : c.type = columnInt64 ∨ c.type = columnString) :
    (c.type = columnInt64 ∧ ∃ x, v = .int64 x ∧ word = int64Bytes x) ∨
      (c.type = columnString ∧ ∃ x, v = .string x ∧ word = x) := by
  have notPlain : c.primaryKey ≠ false := by rw [key]; decide
  cases encodes with
  | null _ _ plain | int64 _ plain | string _ plain => exact absurd plain notPlain
  | bytes other | bool other => exact absurd (other ▸ type) (by decide)
  | keyInt64 isInt _ x => exact .inl ⟨isInt, x, rfl, rfl⟩
  | keyString isString => exact .inr ⟨isString, word, rfl, rfl⟩

/-- The value has the type of the column, or it is nil and the column is nullable. -/
def Column.Admits (c : Column) : Value → Prop
  | .null => c.nullable = true
  | .int64 _ => c.type = columnInt64
  | .string _ => c.type = columnString
  | .bytes _ => c.type = columnBytes
  | .bool _ => c.type = columnBool
  | .other => False

/-- Outside the primary key every such value is encoded. -/
theorem Column.Admits.encodes (admits : c.Admits v) (known : c.type.Known)
    (plain : c.primaryKey = false) : ∃ word, Encodes c v word := by
  cases v with
  | null => exact ⟨_, .null known admits plain⟩
  | int64 x => exact ⟨_, .int64 admits plain x⟩
  | string x => exact ⟨_, .string admits plain x⟩
  | bytes x => exact ⟨_, .bytes admits x⟩
  | bool x => exact ⟨_, .bool admits x⟩
  | other => exact admits.elim

theorem boolByte_inj {left right : Bool} (same : boolByte left = boolByte right) :
    left = right := by
  revert same
  cases left <;> cases right <;> decide

/-- Outside the primary key the end of an encoded value can be seen. -/
theorem encodes_delimited (plain : c.primaryKey = false) : Delimited (Encodes c) := by
  intro left right leftWord rightWord leftRest rightRest isLeft isRight same
  have notKey : c.primaryKey ≠ true := Bool.eq_false_iff.mp plain
  cases isLeft with
  | keyInt64 _ key | keyString _ key => exact absurd key notKey
  | null =>
    cases isRight with
    | null => exact ⟨rfl, append_cancel_left same⟩
    | int64 | string | bytes | bool => exact absurd (cons.inj same).1 (by decide)
    | keyInt64 _ key | keyString _ key => exact absurd key notKey
  | int64 type _ x =>
    cases isRight with
    | null => exact absurd (cons.inj same).1 (by decide)
    | int64 _ _ y =>
      obtain ⟨words, rests⟩ := append_inj (cons.inj same).2
        ((length_int64Bytes x).trans (length_int64Bytes y).symm)
      exact ⟨by rw [int64Bytes_inj words], rests⟩
    | string other | bytes other | bool other => exact absurd (type.symm.trans other) (by decide)
    | keyInt64 _ key | keyString _ key => exact absurd key notKey
  | string type _ x =>
    cases isRight with
    | null => exact absurd (cons.inj same).1 (by decide)
    | string _ _ y =>
      obtain ⟨parts, rests⟩ := escape_append_inj (cons.inj same).2
      exact ⟨by rw [parts], rests⟩
    | int64 other | bytes other | bool other => exact absurd (type.symm.trans other) (by decide)
    | keyInt64 _ key | keyString _ key => exact absurd key notKey
  | bytes type x =>
    cases isRight with
    | null => exact absurd (cons.inj same).1 (by decide)
    | bytes _ y =>
      obtain ⟨parts, rests⟩ := escape_append_inj (cons.inj same).2
      exact ⟨by rw [parts], rests⟩
    | int64 other | string other | bool other => exact absurd (type.symm.trans other) (by decide)
    | keyInt64 _ key | keyString _ key => exact absurd key notKey
  | bool type x =>
    cases isRight with
    | null => exact absurd (cons.inj same).1 (by decide)
    | bool _ y =>
      obtain ⟨flags, rests⟩ := cons.inj (cons.inj same).2
      exact ⟨by rw [boolByte_inj flags], rests⟩
    | int64 other | string other | bytes other => exact absurd (type.symm.trans other) (by decide)
    | keyInt64 _ key | keyString _ key => exact absurd key notKey

/-- A word stands for at most one value of a column. -/
theorem Encodes.inj {left right : Value} (isLeft : Encodes c left word)
    (isRight : Encodes c right word) : left = right := by
  by_cases key : c.primaryKey = true
  · have notPlain : c.primaryKey ≠ false := by rw [key]; decide
    cases isLeft with
    | null _ _ plain | int64 _ plain | string _ plain => exact absurd plain notPlain
    | keyInt64 type _ x =>
      generalize whole : int64Bytes x = word at isRight
      cases isRight with
      | null _ _ plain | int64 _ plain | string _ plain => exact absurd plain notPlain
      | keyInt64 _ _ y => rw [int64Bytes_inj whole]
      | keyString other | bytes other | bool other =>
        exact absurd (type.symm.trans other) (by decide)
    | keyString type =>
      cases isRight with
      | null _ _ plain | int64 _ plain | string _ plain => exact absurd plain notPlain
      | keyString => rfl
      | keyInt64 other | bytes other | bool other =>
        exact absurd (type.symm.trans other) (by decide)
    | bytes type x =>
      generalize whole : columnBytes :: escape x = word at isRight
      cases isRight with
      | null _ _ plain | int64 _ plain | string _ plain => exact absurd plain notPlain
      | bytes _ y => rw [escape_inj (cons.inj whole).2]
      | keyInt64 other | keyString other | bool other =>
        exact absurd (type.symm.trans other) (by decide)
    | bool type x =>
      generalize whole : [columnBool, boolByte x] = word at isRight
      cases isRight with
      | null _ _ plain | int64 _ plain | string _ plain => exact absurd plain notPlain
      | bool _ y => rw [boolByte_inj (cons.inj (cons.inj whole).2).1]
      | keyInt64 other | keyString other | bytes other =>
        exact absurd (type.symm.trans other) (by decide)
  · exact (encodes_delimited (Bool.eq_false_iff.mpr key) isLeft isRight
      (rfl : word ++ [] = word ++ [])).1

end GoDatabase
