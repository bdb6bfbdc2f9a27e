import GoDatabase.Library.Bytes

/-!
# Codes for the parts of a key

A key is the concatenation of coded parts.  It can be taken apart again when every
part but the last shows where it ends, and it sorts as its parts do when every code
keeps the order.  Fixed-width big-endian numbers have both properties.
-/

namespace Library

open List

section Delimited

variable {α β γ : Type}

/-- The words of a code show where they end: whatever follows them, two words agree
only if they stand for the same value. -/
def Delimited (Code : α → List γ → Prop) : Prop :=
  ∀ {left right : α} {leftWord rightWord leftRest rightRest : List γ},
    Code left leftWord → Code right rightWord →
    leftWord ++ leftRest = rightWord ++ rightRest → left = right ∧ leftRest = rightRest

namespace Delimited

/-- A word that starts another word followed by anything stands for the same value. -/
theorem eq_of_isPrefix {Code : α → List γ → Prop} (delimited : Delimited Code) {left right : α}
    {leftWord rightWord rest : List γ} (isLeft : Code left leftWord)
    (isRight : Code right rightWord) (starts : leftWord <+: rightWord ++ rest) : left = right := by
  obtain ⟨remaining, whole⟩ := starts
  exact (delimited isLeft isRight whole).1

end Delimited

end Delimited

/-! ## Order of concatenations -/

variable {left right : Bytes}

theorem append_lt_append_left (front : Bytes) : front ++ left < front ++ right ↔ left < right := by
  induction front with
  | nil => rfl
  | cons byte front ih => rw [cons_append, cons_append, cons_lt_cons_self, ih]

theorem append_le_append_left (front : Bytes) : front ++ left ≤ front ++ right ↔ left ≤ right := by
  rw [← not_lt, ← not_lt, append_lt_append_left]

/-! ## Big-endian numbers -/

/-- A number as `width` bytes, most significant byte first. -/
def beBytes : (width value : Nat) → Bytes
  | 0, _ => []
  | width + 1, value => UInt8.ofNat (value / 256 ^ width) :: beBytes width (value % 256 ^ width)

/-- The number with the given bytes, most significant byte first. -/
def beNat : Bytes → Nat
  | [] => 0
  | byte :: rest => byte.toNat * 256 ^ rest.length + beNat rest

@[simp] theorem length_beBytes (width value : Nat) : (beBytes width value).length = width := by
  induction width generalizing value with
  | zero => rfl
  | succ width ih => rw [beBytes, List.length_cons, ih]

theorem beNat_lt (bytes : Bytes) : beNat bytes < 256 ^ bytes.length := by
  induction bytes with
  | nil => exact Nat.one_pos
  | cons byte rest ih =>
    have small := byte.toNat_lt
    have carried : (byte.toNat + 1) * 256 ^ rest.length ≤ 256 * 256 ^ rest.length :=
      Nat.mul_le_mul_right _ (by omega)
    rw [beNat, length_cons, Nat.pow_succ']
    rw [Nat.add_mul, Nat.one_mul] at carried
    omega

variable {width value : Nat}

theorem toNat_topByte (fits : value < 256 ^ (width + 1)) :
    (UInt8.ofNat (value / 256 ^ width)).toNat = value / 256 ^ width := by
  rw [UInt8.toNat_ofNat', Nat.mod_eq_of_lt]
  exact Nat.div_lt_of_lt_mul (by rwa [Nat.pow_succ] at fits)

theorem beNat_beBytes (fits : value < 256 ^ width) : beNat (beBytes width value) = value := by
  induction width generalizing value with
  | zero =>
    rw [Nat.pow_zero] at fits
    exact (Nat.lt_one_iff.mp fits).symm
  | succ width ih =>
    rw [beBytes, beNat, length_beBytes, toNat_topByte fits,
      ih (Nat.mod_lt _ (Nat.pow_pos (by omega))), Nat.mul_comm]
    exact Nat.div_add_mod value (256 ^ width)

theorem beBytes_beNat (bytes : Bytes) : beBytes bytes.length (beNat bytes) = bytes := by
  induction bytes with
  | nil => rfl
  | cons byte rest ih =>
    have small := beNat_lt rest
    have positive : 0 < 256 ^ rest.length := Nat.pow_pos (by omega)
    have top : (byte.toNat * 256 ^ rest.length + beNat rest) / 256 ^ rest.length = byte.toNat := by
      rw [Nat.add_comm, Nat.add_mul_div_right _ _ positive, Nat.div_eq_of_lt small, Nat.zero_add]
    have low : (byte.toNat * 256 ^ rest.length + beNat rest) % 256 ^ rest.length = beNat rest := by
      rw [Nat.add_comm, Nat.add_mul_mod_self_right, Nat.mod_eq_of_lt small]
    rw [length_cons, beBytes, beNat, top, low, ih, UInt8.ofNat_toNat]

/-- Big-endian numbers of one width sort as the numbers do. -/
theorem beBytes_lt_beBytes {left right : Nat} (leftFits : left < 256 ^ width)
    (rightFits : right < 256 ^ width) : beBytes width left < beBytes width right ↔ left <
      right := by
  induction width generalizing left right with
  | zero =>
    rw [Nat.pow_zero] at leftFits rightFits
    refine iff_of_false (List.not_lt_nil _) (by omega)
  | succ width ih =>
    have positive : 0 < 256 ^ width := Nat.pow_pos (by omega)
    rw [beBytes, beBytes, cons_lt_cons_iff, UInt8.lt_iff_toNat_lt, ← UInt8.toNat_inj,
      toNat_topByte leftFits, toNat_topByte rightFits,
      ih (Nat.mod_lt _ positive) (Nat.mod_lt _ positive)]
    have leftParts := Nat.div_add_mod left (256 ^ width)
    have rightParts := Nat.div_add_mod right (256 ^ width)
    have leftLow := Nat.mod_lt left positive
    have rightLow := Nat.mod_lt right positive
    constructor
    · rintro (top | ⟨top, low⟩)
      · exact lt_of_not_ge fun reversed => Nat.not_le.mpr top (Nat.div_le_div_right reversed)
      · rw [top] at leftParts
        omega
    · intro less
      rcases Nat.lt_or_ge (left / 256 ^ width) (right / 256 ^ width) with top | top
      · exact .inl top
      · have same : left / 256 ^ width = right / 256 ^ width :=
          Nat.le_antisymm (Nat.div_le_div_right less.le) top
        rw [same] at leftParts
        exact .inr ⟨same, by omega⟩

end Library
