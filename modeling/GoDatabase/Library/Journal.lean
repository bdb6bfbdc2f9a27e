import GoDatabase.Library.SortedMap
import Mathlib.Data.List.Nodup

/-!
# Journals of writes

A journal is a list of writes to a map, oldest first; a write binds its key or removes it.
What a journal makes of a map depends only on the last write to each key, so that a
journal may be reordered and freed of overwritten entries.
-/

namespace Library.Journal

open SortedMap List Option

variable {K V W : Type} [LinearOrder K]

/-- The last entry for a key. -/
def latest (journal : List (Binding K V)) (key : K) : Option V := lookup journal.reverse key

@[simp] theorem latest_nil (key : K) : latest ([] : List (Binding K V)) key = none := rfl

theorem latest_append (older newer : List (Binding K V)) (key : K) :
    latest (older ++ newer) key = (latest newer key).or (latest older key) := by
  rw [latest, reverse_append, SortedMap.lookup_append]
  rfl

theorem latest_cons (entry : Binding K V) (rest : List (Binding K V)) (key : K) :
    latest (entry :: rest) key =
      (latest rest key).or (if entry.key = key then some entry.value else none) := by
  rw [← singleton_append, latest_append]
  exact congrArg _ (lookup_cons entry [] key)

theorem latest_map (f : V → W) (journal : List (Binding K V)) (key : K) :
    latest (journal.map fun entry => ⟨entry.key, f entry.value⟩) key =
      (latest journal key).map f := by
  induction journal with
  | nil => rfl
  | cons entry rest ih =>
    rw [map_cons, latest_cons, latest_cons, ih]
    dsimp only
    cases latest rest key with
    | some value => rfl
    | none =>
      rw [map_none, none_or, none_or]
      split_ifs <;> rfl

/-- One value for many keys. -/
theorem latest_const (value : V) (keys : List K) (key : K) [Decidable (key ∈ keys)] :
    latest (keys.map fun key => (⟨key, value⟩ : Binding K V)) key = if key ∈ keys then some value
      else none := by
  rw [latest, ← map_reverse, lookup_map fun _ => value]
  exact if_congr mem_reverse rfl rfl

variable {journal : List (Binding K V)} {key : K}

theorem mem_of_latest_eq_some {value : V}
    (found : latest journal key = some value) : ⟨key, value⟩ ∈ journal :=
  mem_reverse.mp (mem_of_lookup_eq_some found)

theorem latest_eq_none (absent : ∀ entry ∈ journal, entry.key ≠ key) : latest journal key = none :=
  lookup_eq_none fun entry mem => absent entry (mem_reverse.mp mem)

/-- Without overwritten entries the order does not matter. -/
theorem latest_eq_lookup (distinct : (journal.map Binding.key).Nodup)
    (key : K) : latest journal key = lookup journal key := by
  induction journal with
  | nil => rfl
  | cons entry rest ih =>
    obtain ⟨fresh, distinctRest⟩ := nodup_cons.mp distinct
    rw [latest_cons, SortedMap.lookup_cons, ih distinctRest]
    split_ifs with same
    · have absent : lookup rest key = none := lookup_eq_none fun other mem clash =>
        fresh (mem_map.mpr ⟨other, mem, clash.trans same.symm⟩)
      rw [absent, none_or]
    · rw [or_none]

/-- Entries with distinct keys may be written in any order. -/
theorem latest_perm {left right : List (Binding K V)} (perm : left.Perm right)
    (distinct : (left.map Binding.key).Nodup) (key : K) : latest left key = latest right key := by
  have mem {journal : List (Binding K V)} (unique : (journal.map Binding.key).Nodup) (value : V) :
      latest journal key = some value ↔ ⟨key, value⟩ ∈ journal := by
    refine ⟨mem_of_latest_eq_some, fun listed => ?_⟩
    cases found : latest journal key with
    | none => exact absurd rfl (ne_of_lookup_eq_none found _ (mem_reverse.mpr listed))
    | some other =>
      have same := inj_on_of_nodup_map unique (mem_of_latest_eq_some found) listed rfl
      rw [(Binding.mk.inj same).2]
  apply Option.ext
  intro value
  rw [mem distinct, mem ((perm.map Binding.key).nodup_iff.mp distinct), perm.mem_iff]

/-! ## Playing a journal -/

/-- One write. -/
def write (bindings : List (Binding K V)) (entry : Binding K (Option V)) : List (Binding K V) :=
  match entry.value with
  | some value => put entry.key value bindings
  | none => erase entry.key bindings

/-- All writes of a journal. -/
def play (bindings : List (Binding K V)) (journal : List (Binding K (Option V))) : List
    (Binding K V) :=
  journal.foldl write bindings

theorem play_cons (bindings : List (Binding K V)) (entry : Binding K (Option V))
    (rest : List (Binding K (Option V))) :
    play bindings (entry :: rest) = play (write bindings entry) rest := rfl

variable {bindings : List (Binding K V)}

theorem sorted_write (sorted : Sorted bindings)
    (entry : Binding K (Option V)) : Sorted (write bindings entry) := by
  rw [write]
  cases entry.value with
  | some value => exact sorted_put sorted _ _
  | none => exact sorted_erase sorted _

theorem lookup_write (bindings : List (Binding K V)) (entry : Binding K (Option V)) (key : K) :
    lookup (write bindings entry) key = if entry.key = key then entry.value
      else lookup bindings key := by
  rw [write]
  split_ifs with same
  · subst same
    cases entry.value with
    | some value => exact lookup_put_self ..
    | none => exact lookup_erase_self ..
  · cases entry.value with
    | some value => exact lookup_put_of_ne _ _ (Ne.symm same)
    | none => exact lookup_erase_of_ne _ (Ne.symm same)

theorem sorted_play (sorted : Sorted bindings)
    (journal : List (Binding K (Option V))) : Sorted (play bindings journal) := by
  induction journal generalizing bindings with
  | nil => exact sorted
  | cons entry rest ih => exact ih (sorted_write sorted entry)

theorem lookup_play (bindings : List (Binding K V)) (journal : List (Binding K (Option V)))
    (key : K) :
    lookup (play bindings journal) key = (latest journal key).getD (lookup bindings key) := by
  induction journal generalizing bindings with
  | nil => rfl
  | cons entry rest ih =>
    rw [play_cons, ih, latest_cons, lookup_write]
    cases latest rest key with
    | some value => rfl
    | none =>
      rw [none_or]
      split_ifs <;> rfl

theorem play_append (bindings : List (Binding K V)) (older newer : List (Binding K (Option V))) :
    play bindings (older ++ newer) = play (play bindings older) newer := foldl_append

/-- Journals with the same last writes have the same effect. -/
theorem play_congr (sorted : Sorted bindings)
    {left right : List (Binding K (Option V))} (same : ∀ key, latest left key = latest right key) :
    play bindings left = play bindings right :=
  ext_lookup (sorted_play sorted left) (sorted_play sorted right) fun key => by
    rw [lookup_play, lookup_play, same key]

end Library.Journal
