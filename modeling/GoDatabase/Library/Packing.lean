import Mathlib.Algebra.BigOperators.Group.List.Basic
import Mathlib.Algebra.GroupWithZero.Nat
import Mathlib.Data.List.Basic

/-!
# Greedy packing

Items are put into bins in their order; a bin is closed as soon as the next item
would exceed the capacity.  Every bin has a fixed overhead.  Two adjacent bins
together exceed the capacity of one, which bounds the number of bins by the total
weight.
-/

namespace Library

open List

namespace Packing

variable {α : Type} (weight : α → Nat) (overhead capacity : Nat)

/-- The weight of the items of a bin, without its overhead. -/
def total (items : List α) : Nat := (items.map weight).sum

@[simp] theorem total_nil : total weight [] = 0 := rfl

@[simp] theorem total_cons (item : α) (items : List α) :
    total weight (item :: items) = weight item + total weight items := by
  simp [total]

@[simp] theorem total_append (left right : List α) :
    total weight (left ++ right) = total weight left + total weight right := by
  simp [total]

/-- Continue with an open bin. -/
def packFrom : (bin : List α) → List α → List (List α)
  | bin, [] => [bin]
  | bin, item :: rest =>
    if overhead + total weight bin + weight item ≤ capacity then
      packFrom (bin ++ [item]) rest
    else
      bin :: packFrom [item] rest

/-- Pack all items. -/
def pack : List α → List (List α)
  | [] => []
  | item :: rest => packFrom weight overhead capacity [item] rest

variable {weight overhead capacity}

theorem flatten_packFrom (items : List α) : ∀ bin,
    (packFrom weight overhead capacity bin items).flatten = bin ++ items := by
  induction items with
  | nil => intro bin; simp [packFrom]
  | cons item rest ih =>
    intro bin
    rw [packFrom]
    split
    · rw [ih, append_assoc, singleton_append]
    · rw [flatten_cons, ih, singleton_append]

/-- Packing keeps all items in their order. -/
theorem flatten_pack (items : List α) : (pack weight overhead capacity items).flatten = items := by
  cases items with
  | nil => rfl
  | cons item rest => exact flatten_packFrom rest [item]

theorem nonempty_of_mem_packFrom (items : List α) : ∀ bin, bin ≠ [] →
    ∀ part ∈ packFrom weight overhead capacity bin items, part ≠ [] := by
  induction items with
  | nil =>
    intro bin nonempty part mem
    rw [packFrom, mem_singleton] at mem
    rwa [mem]
  | cons item rest ih =>
    intro bin nonempty part mem
    rw [packFrom] at mem
    split at mem
    · exact ih _ (by simp) part mem
    · rcases mem_cons.mp mem with first | later
      · rwa [first]
      · exact ih _ (by simp) part later

variable {items part : List α}

theorem nonempty_of_mem_pack (mem : part ∈ pack weight overhead capacity items) : part ≠ [] := by
  cases items with
  | nil => cases mem
  | cons item rest => exact nonempty_of_mem_packFrom rest [item] (by simp) part mem

theorem total_le_of_mem_packFrom (items : List α)
    (single : ∀ item ∈ items, overhead + weight item ≤ capacity) :
    ∀ bin, overhead + total weight bin ≤ capacity →
      ∀ part ∈ packFrom weight overhead capacity bin items,
        overhead + total weight part ≤ capacity := by
  induction items with
  | nil =>
    intro bin inside part mem
    rw [packFrom, mem_singleton] at mem
    rwa [mem]
  | cons item rest ih =>
    intro bin inside part mem
    have later := ih fun other old => single other (mem_cons_of_mem _ old)
    rw [packFrom] at mem
    by_cases room : overhead + total weight bin + weight item ≤ capacity
    · rw [if_pos room] at mem
      exact later (bin ++ [item]) (by simpa [Nat.add_assoc] using room) part mem
    · rw [if_neg room] at mem
      rcases mem_cons.mp mem with first | mem
      · rwa [first]
      · exact later [item] (by simpa using single item (mem_cons_self ..)) part mem

/-- If every item fits alone, no bin exceeds the capacity. -/
theorem total_le_of_mem_pack (single : ∀ item ∈ items, overhead + weight item ≤ capacity)
    (mem : part ∈ pack weight overhead capacity items) :
    overhead + total weight part ≤ capacity := by
  cases items with
  | nil => cases mem
  | cons item rest =>
    apply total_le_of_mem_packFrom rest
      (fun other old => single other (mem_cons_of_mem _ old)) [item] ?_ part mem
    simpa using single item (mem_cons_self ..)

/-- Adjacent bins could not have been one. -/
def Tight (parts : List (List α)) : Prop :=
  parts.IsChain fun left right => capacity < overhead + total weight left + total weight right

theorem packFrom_eq_cons (items : List α) : ∀ bin, ∃ first parts,
    packFrom weight overhead capacity bin items = first :: parts ∧
      total weight bin ≤ total weight first := by
  induction items with
  | nil => exact fun bin => ⟨bin, [], rfl, Nat.le_refl _⟩
  | cons item rest ih =>
    intro bin
    rw [packFrom]
    split
    · obtain ⟨first, parts, shape, le⟩ := ih (bin ++ [item])
      rw [total_append] at le
      exact ⟨first, parts, shape, by omega⟩
    · exact ⟨bin, _, rfl, Nat.le_refl _⟩

theorem tight_packFrom (items : List α) : ∀ bin,
    @Tight _ weight overhead capacity (packFrom weight overhead capacity bin items) := by
  induction items with
  | nil => exact fun bin => .singleton _
  | cons item rest ih =>
    intro bin
    rw [packFrom]
    split
    · exact ih _
    obtain ⟨first, parts, shape, le⟩ :=
      @packFrom_eq_cons _ weight overhead capacity rest [item]
    have tail := ih [item]
    rw [shape] at tail ⊢
    refine isChain_cons_cons.mpr ⟨?_, tail⟩
    rw [total_cons, total_nil] at le
    omega

theorem tight_pack (items : List α) :
    @Tight _ weight overhead capacity (pack weight overhead capacity items) := by
  cases items with
  | nil => exact .nil
  | cons item rest => exact tight_packFrom rest [item]

/-- Every second bin accounts for more than one capacity. -/
theorem length_le_of_tight (room : overhead ≤ capacity) : ∀ parts : List (List α),
    @Tight _ weight overhead capacity parts →
      parts.length / 2 * (capacity - overhead + 1) ≤ total weight parts.flatten
  | [], _ => by simp
  | [_], _ => by simp
  | left :: right :: parts, tight => by
    obtain ⟨adjacent, tail⟩ := isChain_cons_cons.mp tight
    have rest := length_le_of_tight room parts tail.of_cons
    have half : (left :: right :: parts).length / 2 = parts.length / 2 + 1 := by
      simp only [length_cons]
      omega
    rw [half, Nat.succ_mul, flatten_cons, flatten_cons, total_append, total_append]
    omega

/-- Items of less than twice the room of a bin need at most three bins. -/
theorem length_pack_le_three (room : overhead ≤ capacity)
    (light : total weight items < 2 * (capacity - overhead + 1)) :
    (pack weight overhead capacity items).length ≤ 3 := by
  have bound := length_le_of_tight room _ (@tight_pack _ weight overhead capacity items)
  rw [flatten_pack] at bound
  by_contra many
  have twice : 2 ≤ (pack weight overhead capacity items).length / 2 := by omega
  have := Nat.mul_le_mul_right (capacity - overhead + 1) twice
  omega

end Packing

end Library
