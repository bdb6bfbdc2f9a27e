import Mathlib.Algebra.GroupWithZero.Nat
import Mathlib.Data.List.Lex
import Mathlib.Order.Lattice

/-!
# Byte strings

Slices, in-place overwrites and fixed-width little-endian numbers over lists of
bytes, with the read-over-write laws that a verified binary layout needs.  A
slice or an overwrite past the end of the string is truncated rather than an
error; the laws carry the length hypotheses under which that never happens.
-/

namespace Library

open List

/-- Bytes are ordered by value, with the comparison the core library fixes. -/
instance linearOrderUInt8 : LinearOrder UInt8 where
  le_refl := UInt8.le_refl
  le_trans := fun _ _ _ => UInt8.le_trans
  le_antisymm := fun _ _ => UInt8.le_antisymm
  le_total := UInt8.le_total
  lt_iff_le_not_ge := by
    intro left right
    simp only [UInt8.lt_iff_toNat_lt, UInt8.le_iff_toNat_le]
    omega
  toDecidableLE := inferInstance

/-- A byte string.  Its order is the lexicographic one. -/
abbrev Bytes := List UInt8

variable {bytes : Bytes}

/-- The empty byte string is below every other one. -/
theorem nil_lt_of_ne_nil (nonempty : bytes ≠ []) : [] < bytes := by
  cases bytes with
  | nil => exact (nonempty rfl).elim
  | cons byte rest => exact nil_lt_cons byte rest

/-! ## Slices and overwrites -/

/-- The `size` bytes of `bytes` from position `pos` on. -/
def slice (bytes : Bytes) (pos size : Nat) : Bytes := (bytes.drop pos).take size

/-- Overwrite `bytes` from position `pos` on with `data`. -/
def patch (bytes : Bytes) (pos : Nat) (data : Bytes) : Bytes :=
  bytes.take pos ++ (data ++ bytes.drop (pos + data.length))

/-- A run of zero bytes, the contents of a freshly allocated buffer. -/
def zeros (size : Nat) : Bytes := List.replicate size 0

@[simp] theorem length_zeros (size : Nat) : (zeros size).length = size := by
  simp [zeros]

@[simp] theorem zeros_zero : zeros 0 = [] := rfl

theorem zeros_append (left right : Nat) : zeros left ++ zeros right = zeros (left + right) := by
  simp [zeros]

variable {pos size : Nat}

theorem length_slice (inside : pos + size ≤ bytes.length) :
    (slice bytes pos size).length = size := by
  simp only [slice, length_take, length_drop]
  omega

theorem length_slice_le (bytes : Bytes) (pos size : Nat) :
    (slice bytes pos size).length ≤ size := by
  simp only [slice, length_take]
  omega

@[simp] theorem slice_zero_size (bytes : Bytes) (pos : Nat) : slice bytes pos 0 = [] := by
  simp [slice]

theorem slice_zeros {total : Nat} (inside : pos + size ≤ total) :
    slice (zeros total) pos size = zeros size := by
  simp only [slice, zeros, drop_replicate, take_replicate]
  rw [Nat.min_eq_left (by omega)]

theorem slice_all (bytes : Bytes) : slice bytes 0 bytes.length = bytes := by
  simp [slice]

theorem slice_append_slice (bytes : Bytes) (pos left right : Nat) :
    slice bytes pos left ++ slice bytes (pos + left) right = slice bytes pos (left + right) := by
  rw [slice, slice, slice, take_add, drop_drop]

theorem slice_append_drop (bytes : Bytes) (pos size : Nat) :
    slice bytes pos size ++ bytes.drop (pos + size) = bytes.drop pos := by
  rw [slice, ← drop_drop, take_append_drop]

theorem slice_two {first second : UInt8} (here : bytes[pos]? = some first)
    (next : bytes[pos + 1]? = some second) : slice bytes pos 2 = [first, second] := by
  apply ext_getElem?
  intro idx
  rw [slice, List.getElem?_take, List.getElem?_drop]
  match idx with
  | 0 => exact here
  | 1 => exact next
  | idx + 2 => exact if_neg (by omega)

/-- A slice expression; `none` is the panic on an index out of range. -/
def slice? (bytes : Bytes) (pos size : Nat) : Option Bytes :=
  if pos + size ≤ bytes.length then some (slice bytes pos size) else none

theorem slice?_eq (inside : pos + size ≤ bytes.length) :
    slice? bytes pos size = some (slice bytes pos size) := if_pos inside

variable {data left right front : Bytes}

theorem length_patch (inside : pos + data.length ≤ bytes.length) :
    (patch bytes pos data).length = bytes.length := by
  simp only [patch, length_append, length_take, length_drop]
  omega

/-- A slice that ends inside the left half of a concatenation. -/
theorem slice_append_left (inside : pos + size ≤ left.length) :
    slice (left ++ right) pos size = slice left pos size := by
  simp only [slice]
  rw [drop_append_of_le_length (by omega), take_append_of_le_length]
  simp only [length_drop]
  omega

/-- A slice that starts inside the right half of a concatenation. -/
theorem slice_append_right (past : left.length ≤ pos) :
    slice (left ++ right) pos size = slice right (pos - left.length) size := by
  simp only [slice]
  rw [drop_append, drop_eq_nil_of_le past, nil_append]

/-- The slice that a segment of a concatenation occupies is that segment. -/
theorem slice_middle {left middle right : Bytes} {pos size : Nat}
    (start : left.length = pos) (width : middle.length = size) :
    slice (left ++ (middle ++ right)) pos size = middle := by
  rw [slice_append_right (by omega), slice_append_left (by omega)]
  simp only [slice]
  rw [show pos - left.length = 0 by omega, ← width]
  simp

/-- An overwrite inside the left half of a concatenation. -/
theorem patch_append_left (inside : pos + data.length ≤ left.length) :
    patch (left ++ right) pos data = patch left pos data ++ right := by
  simp only [patch]
  rw [take_append_of_le_length (by omega), drop_append_of_le_length inside]
  simp

/-- An overwrite inside the right half of a concatenation. -/
theorem patch_append_right (past : left.length ≤ pos) :
    patch (left ++ right) pos data = left ++ patch right (pos - left.length) data := by
  simp only [patch]
  rw [take_append, take_of_length_le past, drop_append,
    drop_eq_nil_of_le (by omega)]
  simp only [nil_append, append_assoc]
  rw [show pos + data.length - left.length = pos - left.length + data.length by omega]

/-- Overwriting exactly one segment of a concatenation replaces it. -/
theorem patch_middle {middle : Bytes}
    (start : left.length = pos) (width : middle.length = data.length) :
    patch (left ++ (middle ++ right)) pos data = left ++ (data ++ right) := by
  rw [patch_append_right (by omega), patch_append_left (by omega)]
  simp only [patch]
  rw [show pos - left.length = 0 by omega]
  simp [← width]

/-- Writing at the front of a zero run consumes part of it. -/
theorem patch_zeros (data : Bytes) (size : Nat) :
    patch (zeros size) 0 data = data ++ zeros (size - data.length) := by
  simp [patch, zeros]

/-- Writing behind the used part of a zeroed buffer. -/
theorem patch_append_zeros (start : front.length = pos) :
    patch (front ++ zeros size) pos data = (front ++ data) ++ zeros (size - data.length) := by
  rw [patch_append_right (by omega), show pos - front.length = 0 by omega, patch_zeros,
    append_assoc]

/-- Two writes behind each other are one. -/
theorem patch_patch {bytes left right : Bytes} {pos : Nat}
    (inside : pos + left.length ≤ bytes.length) :
    patch (patch bytes pos left) (pos + left.length) right = patch bytes pos (left ++ right) := by
  have start : (bytes.take pos).length = pos := by
    rw [length_take]
    omega
  have inner : patch bytes pos left = (bytes.take pos ++ left) ++
    bytes.drop (pos + left.length) := by
    rw [patch, append_assoc]
  rw [inner, patch_append_right (by rw [length_append]; omega), patch, patch]
  simp only [length_append, start, Nat.sub_self, take_zero, nil_append, Nat.zero_add,
    drop_drop, append_assoc, Nat.add_assoc]

/-- A slice that an overwrite does not touch. -/
theorem slice_patch_of_disjoint {start : Nat} (inside : pos + data.length ≤ bytes.length)
    (disjoint : start + size ≤ pos ∨ pos + data.length ≤ start) :
    slice (patch bytes pos data) start size = slice bytes start size := by
  have takeLength : (bytes.take pos).length = pos := by
    simp only [length_take]
    omega
  rcases disjoint with before | after
  · have split : bytes = bytes.take pos ++ bytes.drop pos := (take_append_drop pos bytes).symm
    rw [patch, slice_append_left (by omega)]
    conv_rhs => rw [split]
    rw [slice_append_left (by omega)]
  · have split : bytes = bytes.take (pos + data.length) ++ bytes.drop (pos + data.length) :=
      (take_append_drop _ bytes).symm
    have splitLength : (bytes.take (pos + data.length)).length = pos + data.length := by
      simp only [length_take]
      omega
    rw [patch, slice_append_right (by omega), slice_append_right (by omega)]
    conv_rhs => rw [split]
    rw [slice_append_right (by omega), takeLength, splitLength]
    congr 1
    omega

/-! ## Little-endian numbers -/

/-- The `width` little-endian bytes of `value`, modulo `256 ^ width`. -/
def leBytes : (width value : Nat) → Bytes
  | 0, _ => []
  | width + 1, value => UInt8.ofNat (value % 256) :: leBytes width (value / 256)

/-- The number that a little-endian byte string denotes. -/
def leNat : Bytes → Nat
  | [] => 0
  | byte :: rest => byte.toNat + 256 * leNat rest

@[simp] theorem length_leBytes (width value : Nat) : (leBytes width value).length = width := by
  induction width generalizing value with
  | zero => rfl
  | succ width ih => simp [leBytes, ih]

theorem leNat_lt (bytes : Bytes) : leNat bytes < 256 ^ bytes.length := by
  induction bytes with
  | nil => simp [leNat]
  | cons byte rest ih =>
    have small := byte.toNat_lt
    simp only [leNat, length_cons, Nat.pow_succ]
    omega

variable {width value : Nat}

theorem leNat_leBytes (fits : value < 256 ^ width) : leNat (leBytes width value) = value := by
  induction width generalizing value with
  | zero =>
    simp only [Nat.pow_zero, Nat.lt_one_iff] at fits
    simp [leBytes, leNat, fits]
  | succ width ih =>
    have shrunk : value / 256 < 256 ^ width := by
      rw [Nat.div_lt_iff_lt_mul (by omega), ← Nat.pow_succ]
      exact fits
    have low : (UInt8.ofNat (value % 256)).toNat = value % 256 :=
      UInt8.toNat_ofNat_of_lt (Nat.mod_lt _ (by decide))
    rw [leBytes, leNat, ih shrunk, low]
    omega

theorem leBytes_leNat (bytes : Bytes) : leBytes bytes.length (leNat bytes) = bytes := by
  induction bytes with
  | nil => rfl
  | cons byte rest ih =>
    have small := byte.toNat_lt
    have low : (byte.toNat + 256 * leNat rest) % 256 = byte.toNat := by omega
    have high : (byte.toNat + 256 * leNat rest) / 256 = leNat rest := by omega
    simp only [leNat, length_cons, leBytes, low, high, ih, UInt8.ofNat_toNat]

/-- Read `width` little-endian bytes at `pos`. -/
def readLE (bytes : Bytes) (pos width : Nat) : Nat := leNat (slice bytes pos width)

/-- Write `value` as `width` little-endian bytes at `pos`. -/
def writeLE (bytes : Bytes) (pos width value : Nat) : Bytes :=
  patch bytes pos (leBytes width value)

theorem readLE_drop (bytes : Bytes) (start pos width : Nat) :
    readLE (bytes.drop start) pos width = readLE bytes (start + pos) width := by
  rw [readLE, readLE, slice, slice, drop_drop]

/-- The same with the panic on an index out of range. -/
def readLE? (bytes : Bytes) (pos width : Nat) : Option Nat :=
  (slice? bytes pos width).map leNat

theorem readLE?_eq (inside : pos + width ≤ bytes.length) :
    readLE? bytes pos width = some (readLE bytes pos width) := by
  rw [readLE?, slice?_eq inside, Option.map_some, readLE]

/-- The bytes that a number was read from. -/
theorem leBytes_readLE (inside : pos + width ≤ bytes.length) :
    leBytes width (readLE bytes pos width) = slice bytes pos width := by
  have same := leBytes_leNat (slice bytes pos width)
  rwa [length_slice inside] at same

theorem leBytes_of_readLE (inside : pos + width ≤ bytes.length)
    (here : readLE bytes pos width = value) : leBytes width value = slice bytes pos width := by
  rw [← here, leBytes_readLE inside]

theorem readLE_lt (bytes : Bytes) (pos width : Nat) : readLE bytes pos width < 256 ^ width := by
  have bound := leNat_lt (slice bytes pos width)
  have monotone : 256 ^ (slice bytes pos width).length ≤ 256 ^ width :=
    Nat.pow_le_pow_right (by decide) (length_slice_le bytes pos width)
  exact Nat.lt_of_lt_of_le bound monotone

theorem length_writeLE (inside : pos + width ≤ bytes.length) :
    (writeLE bytes pos width value).length = bytes.length := by
  apply length_patch
  simpa using inside

/-- Reading a number off the segment of a concatenation that encodes it. -/
theorem readLE_middle {left right : Bytes} {pos width value : Nat}
    (start : left.length = pos) (fits : value < 256 ^ width) :
    readLE (left ++ (leBytes width value ++ right)) pos width = value := by
  rw [readLE, slice_middle start (length_leBytes width value), leNat_leBytes fits]

/-- Filling in the next number of a zeroed buffer. -/
theorem writeLE_append_zeros (start : front.length = pos) :
    writeLE (front ++ zeros size) pos width value =
      (front ++ leBytes width value) ++ zeros (size - width) := by
  rw [writeLE, patch_append_zeros start, length_leBytes]

theorem readLE_append_right (past : left.length ≤ pos) :
    readLE (left ++ right) pos width = readLE right (pos - left.length) width := by
  rw [readLE, slice_append_right past, readLE]

theorem readLE_front (fits : value < 256 ^ width) :
    readLE (leBytes width value ++ right) 0 width = value :=
  @readLE_middle [] right 0 width value rfl fits

/-! ## Arrays of 64-bit words -/

/-- Consecutive words of eight bytes. -/
def wordBytes (words : List Nat) : Bytes := words.flatMap (leBytes 8)

theorem wordBytes_cons (word : Nat) (words : List Nat) :
    wordBytes (word :: words) = leBytes 8 word ++ wordBytes words := rfl

theorem length_wordBytes (words : List Nat) : (wordBytes words).length = 8 * words.length := by
  induction words with
  | nil => rfl
  | cons word words ih =>
    rw [wordBytes_cons, length_append, length_leBytes, ih, length_cons]
    omega

/-- Reading one word of an array. -/
theorem readLE_wordBytes {before after : Bytes} : ∀ {words : List Nat} {idx word pos : Nat},
    words[idx]? = some word → word < 256 ^ 8 → before.length + 8 * idx = pos →
    readLE (before ++ (wordBytes words ++ after)) pos 8 = word := by
  intro words
  induction words generalizing before with
  | nil =>
    intro idx word pos found
    cases found
  | cons first words ih =>
    intro idx word pos found small start
    rw [wordBytes_cons, append_assoc]
    cases idx with
    | zero =>
      obtain rfl := Option.some.inj found
      exact readLE_middle start small
    | succ idx =>
      rw [← append_assoc]
      exact ih found small (by rw [length_append, length_leBytes]; omega)

end Library
