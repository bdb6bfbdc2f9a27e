import GoDatabase.Relational.Buffer
import GoDatabase.Relational.Tables
import Mathlib.Data.List.TakeWhile

/-!
# Scans of a prefix

The relational layer reads all keys with a prefix by a range from the prefix to
`prefixEnd`, of which the keys without the prefix are dropped.
-/

namespace GoDatabase

open Library List SortedMap

variable {front key : Bytes} {last kind : UInt8}

theorem hasPrefix_iff {value : Bytes} : hasPrefix value front = true ↔ front <+: value :=
  isPrefixOf_iff_prefix

/-- The end of a prefix whose last byte is not `ff`. -/
theorem prefixEnd_append (init : Bytes) (small : last ≠ 0xff) :
    prefixEnd (init ++ [last]) = init ++ [last + 1] := by
  have kept : (last :: init.reverse).dropWhile (· = 0xff) = last :: init.reverse :=
    dropWhile_cons_of_neg (by simpa using small)
  rw [prefixEnd, reverse_append, reverse_singleton, singleton_append, kept]
  dsimp only
  rw [reverse_reverse]

theorem le_append (front rest : Bytes) : front ≤ front ++ rest := by
  have nil_le : ([] : Bytes) ≤ rest := not_lt.mp (List.not_lt_nil rest)
  calc front = front ++ [] := (append_nil front).symm
    _ ≤ front ++ rest := (append_le_append_left front).mpr nil_le

/-- A prefix ends after its last byte that is not `ff`; only `ff` follows that byte. -/
theorem exists_prefixEnd (mem : kind ∈ front) (low : kind ≠ 0xff) :
    ∃ init last count, last ≠ 0xff ∧ front = init ++ last :: List.replicate count 0xff ∧
      prefixEnd front = init ++ [last + 1] := by
  have split := takeWhile_append_dropWhile (p := fun b : UInt8 => b = 0xff) (l := front.reverse)
  rw [prefixEnd]
  cases dropped : front.reverse.dropWhile (· = 0xff) with
  | nil =>
    have all := dropWhile_eq_nil_iff.mp dropped kind (mem_reverse.mpr mem)
    exact absurd (of_decide_eq_true all) low
  | cons last before =>
    have small : ¬ decide (last = 0xff) = true := by
      have nonempty : front.reverse.dropWhile (fun b => decide (b = 0xff)) ≠ [] := by
        rw [dropped]
        exact cons_ne_nil _ _
      have first := head_dropWhile_not (fun b : UInt8 => decide (b = 0xff)) nonempty
      simpa only [dropped, head_cons, Bool.not_eq_true] using first
    obtain ⟨count, skipped⟩ : ∃ count, front.reverse.takeWhile (fun b => decide (b = 0xff)) =
        List.replicate count 0xff :=
      ⟨_, eq_replicate_of_mem fun byte inside => by simpa using mem_takeWhile_imp inside⟩
    refine ⟨before.reverse, last, count, by simpa using small, ?_, rfl⟩
    rw [dropped, skipped] at split
    have whole := congrArg List.reverse split
    rw [reverse_append, reverse_cons, reverse_reverse, reverse_replicate,
      append_assoc, singleton_append] at whole
    exact whole.symm

theorem lt_add_one_of_ne (small : last ≠ 0xff) : last < last + 1 := by
  have bound := last.toNat_lt
  have ne : last.toNat ≠ 255 := fun same => small (UInt8.toNat_inj.mp same)
  rw [UInt8.lt_iff_toNat_lt, UInt8.toNat_add]
  change last.toNat < (last.toNat + 1) % 256
  omega

theorem le_of_lt_add_one {byte : UInt8} (small : last ≠ 0xff) (below : byte < last + 1) :
    byte ≤ last := by
  have bound := last.toNat_lt
  have ne : last.toNat ≠ 255 := fun same => small (UInt8.toNat_inj.mp same)
  rw [UInt8.lt_iff_toNat_lt, UInt8.toNat_add] at below
  change byte.toNat < (last.toNat + 1) % 256 at below
  rw [UInt8.le_iff_toNat_le]
  omega

/-- A key with a prefix is within the range of the prefix. -/
theorem prefix_bounds (mem : kind ∈ front) (low : kind ≠ 0xff)
    (starts : front <+: key) : front ≤ key ∧ key < prefixEnd front := by
  obtain ⟨init, last, count, small, rfl, ends⟩ := exists_prefixEnd mem low
  obtain ⟨rest, rfl⟩ := starts
  constructor
  · exact le_append _ rest
  · rw [ends, append_assoc]
    exact (append_lt_append_left init).mpr (List.Lex.rel (lt_add_one_of_ne small))

/-- A key from `init, last, tail` to before `init, last + 1` goes on like the lower bound up
to `last`. -/
theorem shares_of_bounds (small : last ≠ 0xff) {tail : Bytes} :
    ∀ {init key : Bytes}, init ++ last :: tail ≤ key → key < init ++ [last + 1] →
    ∃ rest, key = init ++ last :: rest ∧ tail ≤ rest
  | [], [], above, _ => absurd above (not_le.mpr (nil_lt_of_ne_nil (cons_ne_nil _ _)))
  | _ :: _, [], above, _ => absurd above (not_le.mpr (nil_lt_of_ne_nil (cons_ne_nil _ _)))
  | [], first :: rest, above, below => by
    have upper : first ≤ last := by
      rcases cons_lt_cons_iff.mp below with smaller | ⟨-, short⟩
      · exact le_of_lt_add_one small smaller
      · exact absurd short (List.not_lt_nil _)
    have same : first = last :=
      le_antisymm upper (not_lt.mp fun less => not_lt.mpr above (List.Lex.rel less))
    rw [same] at above ⊢
    exact ⟨rest, rfl, not_lt.mp fun less => not_lt.mpr above (cons_lt_cons_self.mpr less)⟩
  | byte :: init, first :: key, above, below => by
    have lower : ¬ first < byte := fun less => not_lt.mpr above (List.Lex.rel less)
    have upper : ¬ byte < first := fun less => not_lt.mpr below.le (List.Lex.rel less)
    obtain rfl := le_antisymm (not_lt.mp upper) (not_lt.mp lower)
    obtain ⟨rest, rfl, tails⟩ := shares_of_bounds small
      ((append_le_append_left [first]).mp above) (cons_lt_cons_self.mp below)
    exact ⟨rest, rfl, tails⟩

/-- Nothing follows a run of `ff` except what starts with it. -/
theorem replicate_isPrefix_of_le : ∀ {count : Nat} {rest : Bytes},
    List.replicate count 0xff ≤ rest → List.replicate count 0xff <+: rest
  | 0, rest, _ => nil_prefix
  | count + 1, [], above => absurd above (not_le.mpr (nil_lt_of_ne_nil (cons_ne_nil _ _)))
  | count + 1, byte :: rest, above => by
    rw [replicate_succ] at above ⊢
    have lower : ¬ byte < 0xff := fun less => not_lt.mpr above (List.Lex.rel less)
    have top : byte = 0xff := by
      have bound := byte.toNat_lt
      rw [UInt8.lt_iff_toNat_lt] at lower
      change ¬ byte.toNat < 255 at lower
      exact UInt8.toNat_inj.mp (show byte.toNat = 255 by omega)
    rw [top] at above ⊢
    exact cons_prefix_cons.mpr
      ⟨rfl, replicate_isPrefix_of_le ((append_le_append_left [0xff]).mp above)⟩

/-- The range of a prefix holds the keys with the prefix and no others. -/
theorem isPrefix_iff_bounds (mem : kind ∈ front)
    (low : kind ≠ 0xff) : front <+: key ↔ front ≤ key ∧ key < prefixEnd front := by
  refine ⟨prefix_bounds mem low, ?_⟩
  rintro ⟨above, below⟩
  obtain ⟨init, last, count, small, rfl, ends⟩ := exists_prefixEnd mem low
  rw [ends] at below
  obtain ⟨rest, rfl, tails⟩ := shares_of_bounds small above below
  obtain ⟨more, rfl⟩ := replicate_isPrefix_of_le tails
  exact ⟨more, by simp⟩

theorem length_prefixEnd_le (mem : kind ∈ front)
    (low : kind ≠ 0xff) : (prefixEnd front).length ≤ front.length := by
  obtain ⟨init, last, count, -, shape, ends⟩ := exists_prefixEnd mem low
  rw [ends, shape]
  simp only [length_append, length_cons, length_nil, length_replicate]
  omega

/-- Every key within the range of a prefix starts with the first byte of the prefix. -/
theorem head_of_bounds {low high : Bytes} (above : kind :: low ≤ key) (below : key ≤ kind :: high) :
    ∃ rest, key = kind :: rest := by
  cases key with
  | nil => exact absurd above (not_le.mpr (nil_lt_of_ne_nil (cons_ne_nil _ _)))
  | cons first rest =>
    have lower : ¬ first < kind := fun less => not_lt.mpr above (List.Lex.rel less)
    have upper : ¬ kind < first := fun less => not_lt.mpr below (List.Lex.rel less)
    exact ⟨rest, by rw [le_antisymm (not_lt.mp upper) (not_lt.mp lower)]⟩

namespace Db

/-- The name at the end of a prefix is escaped, so that it ends with a zero byte. -/
theorem indexMetadataPrefix_eq (name : Bytes) :
    indexMetadataPrefix name = (0x11 :: (escapeBody name ++ [0])) ++ [0] := by
  rw [indexMetadataPrefix, escape_eq]
  simp

/-- A scan returns the items with the prefix. -/
theorem filter_scan {front : Bytes} {kind : UInt8} (mem : kind ∈ front) (low : kind ≠ 0xff)
    (items : List Item) :
    (items.filter (between front (prefixEnd front))).filter (fun item => hasPrefix item.key front) =
      items.filter fun item => hasPrefix item.key front := by
  rw [filter_filter]
  apply filter_congr
  intro item _
  rw [Bool.and_eq_left_iff_imp]
  intro starts
  obtain ⟨above, below⟩ := prefix_bounds mem low (hasPrefix_iff.mp starts)
  rw [between, decide_eq_true above, decide_eq_true below.le]
  rfl

/-- A scan as `tableRowsLocked` makes it, of any prefix. -/
def scanLocked {σ : Type} (store : Store σ) (d : Database σ) (front : Bytes) :
    Except GoError (List Item) := do
  let entries ← d.rangeLocked store front (prefixEnd front)
  return entries.filter fun entry => hasPrefix entry.key front

section Exact

variable {σ : Type} {store : Store σ} {view : σ → List Item}

variable {front : Bytes}

/-- The range of a prefix was read. -/
def Scanned (store : Store σ) (view : σ → List Item) (d : Database σ) (front : Bytes) : Prop :=
  d.rangeLocked store front (prefixEnd front) =
    .ok ((d.contents view).filter (between front (prefixEnd front)))

theorem scanLocked_exact {d : Database σ} (scanned : Scanned store view d front) {kind : UInt8}
    (mem : kind ∈ front) (low : kind ≠ 0xff) : scanLocked store d front =
      .ok ((d.contents view).filter fun item => hasPrefix item.key front) := by
  rw [scanLocked, scanned, ok_bind]
  exact congrArg Except.ok (filter_scan mem low _)

/-- The prefixes that the relational layer scans: the rows of a table, the definitions of its
indexes, and the entries of an index for a value. -/
inductive TablePrefix : Bytes → Prop
  | rows (table : Bytes) : TablePrefix (rowPrefix table)
  | definitions (table : Bytes) : TablePrefix (indexMetadataPrefix table)
  | entries (table : Bytes) (index : Index) (encoded : Bytes) :
      TablePrefix (indexValuePrefix table index encoded)

theorem TablePrefix.exists_low (built : TablePrefix front) : ∃ byte ∈ front, byte ≠ 0xff := by
  cases built with
  | rows | definitions | entries => exact ⟨_, mem_cons_self .., by decide⟩

/-- The range of a prefix with a byte other than `ff` delimits the keys with the prefix, and
a scan of it returns the items with these keys.  Every prefix of the relational layer has
such a byte. -/
theorem prefixEnd_delimits : (∀ front, TablePrefix front → ∃ byte ∈ front, byte ≠ 0xff) ∧
    ∀ front : Bytes, (∃ byte ∈ front, byte ≠ 0xff) →
      (∀ key, hasPrefix key front = true ↔ front ≤ key ∧ key < prefixEnd front) ∧
      (prefixEnd front).length ≤ front.length ∧
      ∀ {σ : Type} (store : Store σ) (view : σ → List Item), store.Exact view →
        ∀ d : Database σ, scanLocked store d front =
          .ok ((d.contents view).filter fun item => hasPrefix item.key front) := by
  refine ⟨fun front => TablePrefix.exists_low, ?_⟩
  rintro front ⟨byte, mem, low⟩
  refine ⟨fun key => ?_, length_prefixEnd_le mem low, fun store view exact d => ?_⟩
  · rw [hasPrefix_iff, isPrefix_iff_bounds mem low]
  · exact scanLocked_exact (rangeLocked_unbounded exact d _ _) mem low

/-- The keys with the prefix `01 ff` are those from `01 ff` to before `02`. -/
theorem prefixEnd_delimits_carry :
    hasPrefix [1, 0xff, 7] [1, 0xff] = true ∧ ([1, 0xff] : Bytes) ≤ [1, 0xff, 7] ∧
      ([1, 0xff, 7] : Bytes) < prefixEnd [1, 0xff] :=
  ⟨rfl, ((prefixEnd_delimits.2 [1, 0xff] ⟨1, by decide, by decide⟩).1 [1, 0xff, 7]).mp rfl⟩

/-- The definitions that are read from the contents. -/
def indexesOf (contents : List Item) (schema : TableSchema) : Except GoError
    (List (Binding Bytes Index)) :=
  loadEntries schema (indexMetadataPrefix schema.name)
    (contents.filter
      (between (indexMetadataPrefix schema.name) (prefixEnd (indexMetadataPrefix schema.name)))) []

theorem loadIndexesLocked_exact {d : Database σ} {schema : TableSchema}
    (scanned : Scanned store view d (indexMetadataPrefix schema.name)) :
    loadIndexesLocked store d schema = indexesOf (d.contents view) schema := by
  rw [loadIndexesLocked, scanned, ok_bind, indexesOf]

/-- Only the items of the kind of a definition matter. -/
theorem indexesOf_congr {contents other : List Item} (sorted : Sorted contents)
    (sortedOther : Sorted other)
    (same : ∀ rest, lookup contents (0x11 :: rest) = lookup other (0x11 :: rest))
    (schema : TableSchema) : indexesOf contents schema = indexesOf other schema := by
  have bounds : prefixEnd (indexMetadataPrefix schema.name) =
      0x11 :: (escapeBody schema.name ++ [0] ++ [1]) := by
    rw [indexMetadataPrefix_eq, prefixEnd_append _ (by decide)]
    rfl
  have scans : contents.filter (between (indexMetadataPrefix schema.name)
      (prefixEnd (indexMetadataPrefix schema.name))) =
        other.filter
          (between (indexMetadataPrefix schema.name)
            (prefixEnd (indexMetadataPrefix schema.name))) := by
    refine ext_lookup (List.Pairwise.filter _ sorted) (List.Pairwise.filter _ sortedOther)
      fun key => ?_
    rw [lookup_between, lookup_between]
    split_ifs with inside
    · rw [inBounds, Bool.and_eq_true, decide_eq_true_eq, decide_eq_true_eq, bounds] at inside
      obtain ⟨rest, rfl⟩ := head_of_bounds inside.1 inside.2
      exact same rest
    · rfl
  rw [indexesOf, indexesOf, scans]

end Exact

end Db

end GoDatabase
