import GoDatabase.Library.Bytes

/-!
# Files

A file is a byte string that a write may extend: the gap between its end and the
position of a write is filled with zeros.  `At file pos data` says that `data` stands
in the file at `pos`; what is known about a file is a collection of such facts, and the
laws below say which of them an operation keeps.  The operations of a program are recorded
in a log, the newest first, which gives the contents of the file as the program sees them.
-/

namespace Library

open List

/-- Overwrite the file from `pos` on.  Writing nothing does not extend it. -/
def writeAt (file : Bytes) (pos : Nat) (data : Bytes) : Bytes :=
  if data = [] then file else patch (file ++ zeros (pos - file.length)) pos data

/-- Cut the file off at `size`, or extend it with zeros. -/
def truncateTo (file : Bytes) (size : Nat) : Bytes :=
  file.take size ++ zeros (size - file.length)

/-- The bytes `data` stand in the file at `pos`. -/
structure At (file : Bytes) (pos : Nat) (data : Bytes) : Prop where
  inside : pos + data.length ≤ file.length
  slice_eq : slice file pos data.length = data

theorem writeAt_nil (file : Bytes) (pos : Nat) : writeAt file pos [] = file := if_pos rfl

theorem length_writeAt {file data : Bytes} {pos : Nat} (nonempty : data ≠ []) :
    (writeAt file pos data).length = max file.length (pos + data.length) := by
  rw [writeAt, if_neg nonempty]
  simp only [patch, length_append, length_take, length_drop, length_zeros]
  omega

theorem length_le_writeAt (file : Bytes) (pos : Nat) (data : Bytes) :
    file.length ≤ (writeAt file pos data).length := by
  by_cases nonempty : data = []
  · rw [nonempty, writeAt_nil]
  · rw [length_writeAt nonempty]
    exact Nat.le_max_left _ _

theorem length_truncateTo (file : Bytes) (size : Nat) : (truncateTo file size).length = size := by
  simp only [truncateTo, length_append, length_take, length_zeros]
  omega

/-- A slice that ends before the cut. -/
theorem slice_take {bytes : Bytes} {pos size stop : Nat} (inside : pos + size ≤ stop) :
    slice (bytes.take stop) pos size = slice bytes pos size := by
  rw [slice, slice, drop_take, take_take, Nat.min_eq_left (by omega)]

namespace At

variable {file data : Bytes} {pos : Nat}

variable {size : Nat}

theorem of_slice (inside : pos + size ≤ file.length) : At file pos (slice file pos size) := by
  have width := length_slice inside
  exact ⟨by rw [width]; exact inside, by rw [width]⟩

theorem slice_sub (here : At file pos data) (width : data.length = size) :
    slice file pos size = data := by
  rw [← width]
  exact here.slice_eq

/-- A write elsewhere. -/
theorem writeAt_disjoint {other : Bytes} {start : Nat} (here : At file pos data)
    (disjoint : pos + data.length ≤ start ∨ start + other.length ≤ pos) :
    At (writeAt file start other) pos data := by
  have inside := here.inside
  refine ⟨Nat.le_trans inside (length_le_writeAt file start other), ?_⟩
  by_cases nonempty : other = []
  · rw [nonempty, writeAt_nil]
    exact here.slice_eq
  rw [writeAt, if_neg nonempty]
  by_cases fits : start + other.length ≤ file.length
  · rw [show start - file.length = 0 by omega, zeros_zero, append_nil,
      slice_patch_of_disjoint fits disjoint]
    exact here.slice_eq
  -- The write reaches past the end, so it starts behind the data.
  have before : pos + data.length ≤ start := by omega
  have front : pos + data.length ≤
      ((file ++ zeros (start - file.length)).take start).length := by
    simp only [length_take, length_append, length_zeros]
    omega
  rw [patch, slice_append_left front, slice_take before, slice_append_left inside]
  exact here.slice_eq

/-- A write puts its data where it says. -/
theorem writeAt_self (nonempty : data ≠ []) : At (writeAt file pos data) pos data := by
  refine ⟨by rw [length_writeAt nonempty]; exact Nat.le_max_right _ _, ?_⟩
  rw [writeAt, if_neg nonempty, patch, slice_middle]
  · simp only [length_take, length_append, length_zeros]
    omega
  · rfl

end At

/-! ## Logs -/

/-- A file operation, or a note of the program that does not touch the file. -/
inductive Event (ν : Type) where
  /-- The first `written` bytes of `data` were written at `pos`. -/
  | write (pos : Nat) (data : Bytes) (written : Nat)
  | truncate (size : Nat)
  | sync
  | note (content : ν)

variable {ν : Type}

/-- The file after the operations of a log. -/
def contents (initial : Bytes) : List (Event ν) → Bytes
  | [] => initial
  | .write pos data written :: log => writeAt (contents initial log) pos (data.take written)
  | .truncate size :: log => truncateTo (contents initial log) size
  | .sync :: log => contents initial log
  | .note _ :: log => contents initial log

end Library
