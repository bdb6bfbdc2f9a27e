import GoDatabase.Relational.Scan
import Mathlib.Data.List.Perm.Basic

/-!
# What the row methods record

The row methods look at the contents through `valueLocked` only.  For whatever it answers,
the lemmas below say when a method succeeds and what it records.
-/

namespace GoDatabase.Db

open Library Journal List SortedMap

/-! ## Index entries -/

/-- The entry of a row in an index. -/
def EntryFor (schema : TableSchema) (row : Row) (primaryKey : Bytes) (index : Index)
    (entry : Item) : Prop :=
  ∃ encoded, encodeIndexValue (columnByName schema index.column) (row.get index.column) =
    .ok encoded ∧ entry = ⟨indexEntryKey schema.name index encoded primaryKey, primaryKey⟩

/-- The value of a unique entry is not taken by another row, or by any row. -/
def Vacant (read : Bytes → Option Bytes) (allowExisting : Bool) (index : Index)
    (entry : Item) : Prop :=
  index.unique = true → ∀ existing, read entry.key = some existing → allowExisting = true ∧
    existing = entry.value

variable {α β : Type} {R : α → β → Prop} {left : List α} {right : List β}

/-- Everything on the right of a relation between lists has a partner on the left, -/
theorem exists_left_of_mem
    (all : List.Forall₂ R left right) {b : β} (mem : b ∈ right) : ∃ a ∈ left, R a b := by
  induction all with
  | nil => cases mem
  | @cons a _ _ _ related _ ih =>
    rcases mem_cons.mp mem with rfl | later
    · exact ⟨a, mem_cons_self .., related⟩
    · obtain ⟨other, isOther, holds⟩ := ih later
      exact ⟨other, mem_cons_of_mem _ isOther, holds⟩

/-- and the other way round. -/
theorem exists_right_of_mem
    (all : List.Forall₂ R left right) {a : α} (mem : a ∈ left) : ∃ b ∈ right, R a b :=
  exists_left_of_mem (R := fun b a => R a b) all.flip mem

/-- The entries of a row in a list of indexes. -/
def EntriesFor (read : Bytes → Option Bytes) (schema : TableSchema) (row : Row) (primaryKey : Bytes)
    (allowExisting : Bool) : List Index → List Item → Prop :=
  List.Forall₂ fun index entry =>
    EntryFor schema row primaryKey index entry ∧ Vacant read allowExisting index entry

section Methods

variable {σ : Type} {store : Store σ} {d : Database σ} {tx : Tx} {read : Bytes → Option Bytes}

/-- What a transaction reads. -/
def Reading (store : Store σ) (d : Database σ) (tx : Tx) (read : Bytes → Option Bytes) : Prop :=
  ∀ key, key ≠ [] → tx.valueLocked store d key = .ok (read key)

theorem indexEntryKey_ne_nil (table : Bytes) (index : Index) (value primaryKey : Bytes) :
    indexEntryKey table index value primaryKey ≠ [] := by
  rw [indexEntryKey]
  split_ifs
  · exact cons_ne_nil _ _
  · exact cons_ne_nil _ _

variable {row : Row} {allowExisting : Bool} {entries : List Item} {t : Table} {order : MapOrder}

theorem indexEntries_eq_ok (reading : Reading store d tx read) {schema : TableSchema}
    {primaryKey : Bytes} {indexes : List Index} :
    indexEntries store d tx schema row primaryKey allowExisting indexes = .ok entries ↔
      EntriesFor read schema row primaryKey allowExisting indexes entries := by
  induction indexes generalizing entries with
  | nil =>
    rw [indexEntries, EntriesFor, forall₂_nil_left_iff, Except.ok.injEq]
    exact eq_comm
  | cons index rest ih =>
    have tail : ∀ key : Bytes, (do
        let entries ← indexEntries store d tx schema row primaryKey allowExisting rest
        return (⟨key, primaryKey⟩ : Item) :: entries) = .ok entries ↔
          ∃ others, EntriesFor read schema row primaryKey allowExisting rest others ∧
            entries = ⟨key, primaryKey⟩ :: others := by
      intro key
      rw [bind_ok_iff]
      refine exists_congr fun others => and_congr ih ?_
      exact ⟨fun same => (Except.ok.inj same).symm, fun same => congrArg Except.ok same.symm⟩
    rw [indexEntries, bind_ok_iff, EntriesFor, forall₂_cons_left_iff]
    constructor
    · rintro ⟨encoded, indexed, run⟩
      dsimp only at run
      cases unique : index.unique with
      | false =>
        rw [unique, if_neg Bool.false_ne_true, tail] at run
        obtain ⟨others, accepted, rfl⟩ := run
        refine ⟨_, others, ⟨⟨encoded, indexed, rfl⟩, fun isUnique => ?_⟩, accepted, rfl⟩
        exact absurd (unique.symm.trans isUnique) Bool.false_ne_true
      | true =>
        rw [unique, if_pos rfl, reading _ (indexEntryKey_ne_nil _ _ _ _), ok_bind, guard_eq_ok,
          tail] at run
        obtain ⟨vacant, others, accepted, rfl⟩ := run
        refine ⟨_, others, ⟨⟨encoded, indexed, rfl⟩, fun _ existing found => ?_⟩, accepted, rfl⟩
        rw [found] at vacant
        by_contra clash
        refine vacant ⟨rfl, ?_⟩
        rcases not_and_or.mp clash with refused | ne
        · exact .inl refused
        · exact .inr fun same => ne (Option.some.inj same)
    · rintro ⟨_, others, ⟨⟨encoded, indexed, rfl⟩, vacant⟩, accepted, rfl⟩
      refine ⟨encoded, indexed, ?_⟩
      dsimp only
      cases unique : index.unique with
      | false =>
        rw [if_neg Bool.false_ne_true, tail]
        exact ⟨others, accepted, rfl⟩
      | true =>
        rw [if_pos rfl, reading _ (indexEntryKey_ne_nil _ _ _ _), ok_bind, guard_eq_ok, tail]
        refine ⟨?_, others, accepted, rfl⟩
        rintro ⟨taken, clash⟩
        obtain ⟨existing, found⟩ := Option.isSome_iff_exists.mp taken
        obtain ⟨allowed, same⟩ := vacant unique existing found
        rcases clash with refused | ne
        · exact refused allowed
        · exact ne (found.trans (congrArg some same))

theorem transactionIndexEntries_eq_ok (reading : Reading store d tx read) {enc : Bytes} :
    transactionIndexEntries store d tx t row (rowPrefix t.schema.name ++ enc) allowExisting order =
      .ok entries ↔ EntriesFor read t.schema row enc allowExisting
        (order.walk (t.indexes.map Binding.value)) entries := by
  rw [transactionIndexEntries, drop_left, indexEntries_eq_ok reading]

/-! ## The row methods -/

/-- What a row method returns and records, for what is read. -/
inductive Yields (read : Bytes → Option Bytes) (schema : TableSchema) (indexes : List Index) :
    RowMethod → Bool → Changes → Prop
  | insert {row : Row} {order : MapOrder} {enc value : Bytes} {entries : List Item}
      (encodes : EncodesRow schema row enc value)
      (absent : read (rowPrefix schema.name ++ enc) = none)
      (accepted : EntriesFor read schema row enc false (order.walk indexes) entries) :
      Yields read schema indexes (.insert row order) true
        (⟨rowPrefix schema.name ++ enc, ⟨value, false⟩⟩ :: written entries)
  | update {row oldRow : Row} {oldOrder newOrder : MapOrder} {enc value oldValue : Bytes}
      {oldEntries newEntries : List Item} (encodes : EncodesRow schema row enc value)
      (present : read (rowPrefix schema.name ++ enc) = some oldValue)
      (decoded : decodeRow schema oldValue = .ok oldRow)
      (old : EntriesFor read schema oldRow enc true (oldOrder.walk indexes) oldEntries)
      (new : EntriesFor read schema row enc true (newOrder.walk indexes) newEntries) :
      Yields read schema indexes (.update row oldOrder newOrder) true
        (removed oldEntries ++ ⟨rowPrefix schema.name ++ enc, ⟨value, false⟩⟩ :: written newEntries)
  | deleteNothing {primaryKey : Value} {order : MapOrder} {enc : Bytes}
      (encoded : encodeValue (findPrimary schema) primaryKey = .ok enc)
      (short : (rowPrefix schema.name ++ enc).length ≤ 1000)
      (absent : read (rowPrefix schema.name ++ enc) = none) :
      Yields read schema indexes (.delete primaryKey order) false []
  | delete {primaryKey : Value} {order : MapOrder} {enc oldValue : Bytes} {oldRow : Row}
      {entries : List Item} (encoded : encodeValue (findPrimary schema) primaryKey = .ok enc)
      (short : (rowPrefix schema.name ++ enc).length ≤ 1000)
      (present : read (rowPrefix schema.name ++ enc) = some oldValue)
      (decoded : decodeRow schema oldValue = .ok oldRow)
      (old : EntriesFor read schema oldRow enc true (order.walk indexes) entries) :
      Yields read schema indexes (.delete primaryKey order) true
        (⟨rowPrefix schema.name ++ enc, ⟨[], true⟩⟩ :: removed entries)

variable {primaryKey : Value} {changes : Changes}

theorem rowKey_eq_ok {key : Bytes} : t.rowKey primaryKey = .ok key ↔
      ∃ enc, encodeValue (findPrimary t.schema) primaryKey = .ok enc ∧
        (rowPrefix t.schema.name ++ enc).length ≤ 1000 ∧ key = rowPrefix t.schema.name ++ enc := by
  rw [Table.rowKey, bind_ok_iff]
  refine exists_congr fun enc => and_congr_right fun _ => ?_
  dsimp only
  rw [guard_eq_ok, not_lt, Except.ok.injEq]
  exact and_congr_right fun _ => eq_comm

theorem rowPrefix_append_ne_nil (name enc : Bytes) : rowPrefix name ++ enc ≠
    [] := cons_ne_nil _ _

section

variable (reading : Reading store d tx read)
include reading

theorem insertRowLocked_eq_ok : insertRowLocked store d tx t row order = .ok changes ↔
      ∃ enc value entries, EncodesRow t.schema row enc value ∧
        read (rowPrefix t.schema.name ++ enc) = none ∧ EntriesFor read t.schema row enc false
          (order.walk (t.indexes.map Binding.value)) entries ∧
        changes = ⟨rowPrefix t.schema.name ++ enc, ⟨value, false⟩⟩ :: written entries := by
  rw [insertRowLocked, bind_ok_iff]
  constructor
  · rintro ⟨⟨key, value⟩, encoded, run⟩
    obtain ⟨enc, rfl, encodes⟩ := encodeRow_eq_ok.mp encoded
    dsimp only at run
    rw [reading _ (rowPrefix_append_ne_nil _ _), ok_bind, guard_eq_ok, bind_ok_iff] at run
    obtain ⟨absent, entries, accepted, done⟩ := run
    rw [Option.not_isSome_iff_eq_none] at absent
    exact ⟨enc, value, entries, encodes, absent, (transactionIndexEntries_eq_ok reading).mp
      accepted, (Except.ok.inj done).symm⟩
  · rintro ⟨enc, value, entries, encodes, absent, accepted, rfl⟩
    refine ⟨(rowPrefix t.schema.name ++ enc, value), encodeRow_eq_ok.mpr ⟨enc, rfl, encodes⟩, ?_⟩
    dsimp only
    rw [reading _ (rowPrefix_append_ne_nil _ _), ok_bind, guard_eq_ok, bind_ok_iff, absent]
    exact ⟨Bool.false_ne_true, entries, (transactionIndexEntries_eq_ok reading).mpr accepted, rfl⟩

theorem updateRowLocked_eq_ok {oldOrder newOrder : MapOrder} :
    updateRowLocked store d tx t row oldOrder newOrder = .ok changes ↔
      ∃ enc value oldValue oldRow oldEntries newEntries, EncodesRow t.schema row enc value ∧
        read (rowPrefix t.schema.name ++ enc) = some oldValue ∧ decodeRow t.schema oldValue =
          .ok oldRow ∧
        EntriesFor read t.schema oldRow enc true (oldOrder.walk (t.indexes.map Binding.value))
          oldEntries ∧
        EntriesFor read t.schema row enc true (newOrder.walk (t.indexes.map Binding.value))
          newEntries ∧
        changes = removed oldEntries ++
          ⟨rowPrefix t.schema.name ++ enc, ⟨value, false⟩⟩ :: written newEntries := by
  rw [updateRowLocked, bind_ok_iff]
  constructor
  · rintro ⟨⟨key, value⟩, encoded, run⟩
    obtain ⟨enc, rfl, encodes⟩ := encodeRow_eq_ok.mp encoded
    dsimp only at run
    rw [reading _ (rowPrefix_append_ne_nil _ _), ok_bind] at run
    cases present : read (rowPrefix t.schema.name ++ enc) with
    | none =>
      rw [present] at run
      cases run
    | some oldValue =>
      rw [present] at run
      dsimp only at run
      obtain ⟨oldRow, decoded, run⟩ := bind_ok_iff.mp run
      obtain ⟨oldEntries, old, run⟩ := bind_ok_iff.mp run
      obtain ⟨newEntries, new, done⟩ := bind_ok_iff.mp run
      exact ⟨enc, value, oldValue, oldRow, oldEntries, newEntries, encodes, present, decoded,
        (transactionIndexEntries_eq_ok reading).mp old,
        (transactionIndexEntries_eq_ok reading).mp new,
        (Except.ok.inj done).symm⟩
  · rintro ⟨enc, value, oldValue, oldRow, oldEntries, newEntries, encodes, present, decoded, old,
      new, rfl⟩
    refine ⟨(rowPrefix t.schema.name ++ enc, value), encodeRow_eq_ok.mpr ⟨enc, rfl, encodes⟩, ?_⟩
    dsimp only
    rw [reading _ (rowPrefix_append_ne_nil _ _), ok_bind, present]
    dsimp only
    rw [decoded, ok_bind, (transactionIndexEntries_eq_ok reading).mpr old, ok_bind,
      (transactionIndexEntries_eq_ok reading).mpr new, ok_bind]
    rfl

theorem deleteRowLocked_eq_ok {result : Option Changes} :
    deleteRowLocked store d tx t primaryKey order = .ok result ↔
      ∃ enc, encodeValue (findPrimary t.schema) primaryKey = .ok enc ∧
        (rowPrefix t.schema.name ++ enc).length ≤ 1000 ∧
        ((read (rowPrefix t.schema.name ++ enc) = none ∧ result = none) ∨
          ∃ oldValue oldRow entries, read (rowPrefix t.schema.name ++ enc) = some oldValue ∧
            decodeRow t.schema oldValue = .ok oldRow ∧
            EntriesFor read t.schema oldRow enc true (order.walk (t.indexes.map Binding.value))
              entries ∧
            result = some (⟨rowPrefix t.schema.name ++ enc, ⟨[], true⟩⟩ :: removed entries)) := by
  rw [deleteRowLocked, bind_ok_iff]
  constructor
  · rintro ⟨key, found, run⟩
    obtain ⟨enc, encoded, short, rfl⟩ := rowKey_eq_ok.mp found
    refine ⟨enc, encoded, short, ?_⟩
    rw [reading _ (rowPrefix_append_ne_nil _ _), ok_bind] at run
    cases present : read (rowPrefix t.schema.name ++ enc) with
    | none =>
      rw [present] at run
      exact .inl ⟨rfl, (Except.ok.inj run).symm⟩
    | some oldValue =>
      rw [present] at run
      dsimp only at run
      obtain ⟨oldRow, decoded, run⟩ := bind_ok_iff.mp run
      obtain ⟨entries, old, done⟩ := bind_ok_iff.mp run
      exact .inr ⟨oldValue, oldRow, entries, rfl, decoded,
        (transactionIndexEntries_eq_ok reading).mp old, (Except.ok.inj done).symm⟩
  · rintro ⟨enc, encoded, short, result⟩
    refine ⟨rowPrefix t.schema.name ++ enc, rowKey_eq_ok.mpr ⟨enc, encoded, short, rfl⟩, ?_⟩
    rw [reading _ (rowPrefix_append_ne_nil _ _), ok_bind]
    rcases result with ⟨absent, rfl⟩ | ⟨oldValue, oldRow, entries, present, decoded, old, rfl⟩
    · rw [absent]
      rfl
    · rw [present]
      dsimp only
      rw [decoded, ok_bind, (transactionIndexEntries_eq_ok reading).mpr old, ok_bind]
      rfl

theorem change_eq_ok {method : RowMethod} {flag : Bool} :
    method.change store d t tx = .ok (flag, changes) ↔
      Yields read t.schema (t.indexes.map Binding.value) method flag changes := by
  cases method with
  | insert row order =>
    rw [RowMethod.change, bind_ok_iff]
    constructor
    · rintro ⟨_, run, done⟩
      obtain ⟨rfl, rfl⟩ := Prod.mk.inj (Except.ok.inj done)
      obtain ⟨enc, value, entries, encodes, absent, accepted, rfl⟩ :=
        (insertRowLocked_eq_ok reading).mp run
      exact .insert encodes absent accepted
    · intro yields
      cases yields with
      | insert encodes absent accepted =>
        exact ⟨_, (insertRowLocked_eq_ok reading).mpr ⟨_, _, _, encodes, absent, accepted, rfl⟩,
          rfl⟩
  | update row oldOrder newOrder =>
    rw [RowMethod.change, bind_ok_iff]
    constructor
    · rintro ⟨_, run, done⟩
      obtain ⟨rfl, rfl⟩ := Prod.mk.inj (Except.ok.inj done)
      obtain ⟨enc, value, oldValue, oldRow, _, _, encodes, present, decoded, old, new, rfl⟩ :=
        (updateRowLocked_eq_ok reading).mp run
      exact .update encodes present decoded old new
    · intro yields
      cases yields with
      | update encodes present decoded old new =>
        exact ⟨_, (updateRowLocked_eq_ok reading).mpr
          ⟨_, _, _, _, _, _, encodes, present, decoded, old, new, rfl⟩, rfl⟩
  | delete primaryKey order =>
    rw [RowMethod.change, bind_ok_iff]
    constructor
    · rintro ⟨result, run, done⟩
      obtain ⟨enc, encoded, short, ⟨absent, rfl⟩ |
        ⟨oldValue, oldRow, entries, present, decoded, old, rfl⟩⟩ :=
        (deleteRowLocked_eq_ok reading).mp run
      · obtain ⟨rfl, rfl⟩ := Prod.mk.inj (Except.ok.inj done)
        exact .deleteNothing encoded short absent
      · obtain ⟨rfl, rfl⟩ := Prod.mk.inj (Except.ok.inj done)
        exact .delete encoded short present decoded old
    · intro yields
      cases yields with
      | deleteNothing encoded short absent =>
        exact ⟨none, (deleteRowLocked_eq_ok reading).mpr ⟨_, encoded, short, .inl ⟨absent, rfl⟩⟩,
          rfl⟩
      | delete encoded short present decoded old =>
        exact ⟨some _, (deleteRowLocked_eq_ok reading).mpr
          ⟨_, encoded, short, .inr ⟨_, _, _, present, decoded, old, rfl⟩⟩, rfl⟩

end

end Methods

/-! ## The order in which Go walks the indexes -/

section Order

variable {read : Bytes → Option Bytes} {schema : TableSchema} {row : Row} {primaryKey : Bytes}
  {allowExisting : Bool} {indexes : List Index} {entries : List Item}

variable {index : Index} {entry : Item} {others : List Item}

/-- The names of the table and of the index can be read back from the key of an entry. -/
theorem EntryFor.names_eq {otherSchema : TableSchema} {other : Row} {otherKey : Bytes}
    {otherIndex : Index} {otherEntry : Item} (isEntry : EntryFor schema row primaryKey index entry)
    (isOther : EntryFor otherSchema other otherKey otherIndex otherEntry)
    (same : entry.key = otherEntry.key) :
    schema.name = otherSchema.name ∧ index.name = otherIndex.name := by
  have starts : ∀ (table : Bytes) (index : Index) (value primaryKey : Bytes), ∃ rest,
      indexEntryKey table index value primaryKey = indexEntryPrefix table index.name ++ rest := by
    intro table index value primaryKey
    rw [indexEntryKey]
    split_ifs
    · exact ⟨value, rfl⟩
    · exact ⟨value ++ primaryKey, append_assoc ..⟩
  obtain ⟨encoded, -, rfl⟩ := isEntry
  obtain ⟨otherEncoded, -, rfl⟩ := isOther
  obtain ⟨rest, left⟩ := starts schema.name index encoded primaryKey
  obtain ⟨otherRest, right⟩ := starts otherSchema.name otherIndex otherEncoded otherKey
  obtain ⟨tables, indexes, -⟩ := indexEntryPrefix_append_inj (left.symm.trans (same.trans right))
  exact ⟨tables, indexes⟩

section

variable (accepted : EntriesFor read schema row primaryKey allowExisting indexes entries)
include accepted

theorem EntriesFor.perm {others : List Index} (perm : indexes.Perm others) :
    ∃ reordered, EntriesFor read schema row primaryKey allowExisting others reordered ∧
      entries.Perm reordered := by
  obtain ⟨reordered, forall₂, same⟩ := perm_comp_forall₂ perm.symm accepted
  exact ⟨reordered, forall₂, same.symm⟩

theorem EntriesFor.of_entry (listed : entry ∈ entries) :
    ∃ index ∈ indexes, EntryFor schema row primaryKey index entry ∧
      Vacant read allowExisting index entry :=
  exists_left_of_mem accepted listed

theorem EntriesFor.of_index (mem : index ∈ indexes) :
    ∃ entry ∈ entries, EntryFor schema row primaryKey index entry ∧
      Vacant read allowExisting index entry :=
  exists_right_of_mem accepted mem

theorem EntriesFor.distinct (names : (indexes.map Index.name).Nodup) :
    (entries.map Binding.key).Nodup := by
  rw [EntriesFor] at accepted
  induction accepted with
  | nil => exact nodup_nil
  | @cons index entry rest others isEntry tail ih =>
    obtain ⟨fresh, restNames⟩ := nodup_cons.mp names
    refine nodup_cons.mpr ⟨fun clash => ?_, ih restNames⟩
    obtain ⟨other, listed, same⟩ := mem_map.mp clash
    obtain ⟨otherIndex, mem, isOther, -⟩ := EntriesFor.of_entry tail listed
    exact fresh (mem_map.mpr ⟨otherIndex, mem, (isOther.names_eq isEntry.1 same).2⟩)

end

theorem latest_written_perm (perm : entries.Perm others)
    (distinct : (entries.map Binding.key).Nodup) (key : Bytes) :
    latest (written others) key = latest (written entries) key := by
  refine (latest_perm (perm.map _) ?_ key).symm
  rw [map_map]
  exact distinct

theorem latest_removed_perm (perm : entries.Perm others)
    (distinct : (entries.map Binding.key).Nodup) (key : Bytes) :
    latest (removed others) key = latest (removed entries) key := by
  refine (latest_perm (perm.map _) ?_ key).symm
  rw [map_map]
  exact distinct

end Order

/-- The same method, up to the orders in which it walks the indexes. -/
def RowMethod.Alike : RowMethod → RowMethod → Prop
  | .insert row _, .insert other _ => row = other
  | .update row _ _, .update other _ _ => row = other
  | .delete primaryKey _, .delete otherKey _ => primaryKey = otherKey
  | _, _ => False

theorem MapOrder.walk_perm (order other : MapOrder) (indexes : List Index) :
    (order.walk indexes).Perm (other.walk indexes) :=
    (order.perm indexes).trans (other.perm indexes).symm

theorem MapOrder.names_nodup (order : MapOrder) {indexes : List Index}
    (names : (indexes.map Index.name).Nodup) :
    ((order.walk indexes).map Index.name).Nodup :=
    ((order.perm indexes).map Index.name).nodup_iff.mpr names

variable {method : RowMethod} {flag : Bool} {changes : Changes}
  {read : Bytes → Option Bytes} {schema : TableSchema} {indexes : List Index}

/-- The orders change neither whether a method succeeds nor what it leaves. -/
theorem Yields.alike (names : (indexes.map Index.name).Nodup) {other : RowMethod}
    (yields : Yields read schema indexes method flag changes)
    (alike : method.Alike other) : ∃ reordered, Yields read schema indexes other flag reordered ∧
      ∀ key, latest reordered key = latest changes key := by
  cases yields with
  | @insert row order enc value entries encodes absent accepted =>
    cases other with
    | insert otherRow otherOrder =>
      obtain rfl : row = otherRow := alike
      obtain ⟨reordered, accepted', perm⟩ := accepted.perm (order.walk_perm otherOrder indexes)
      refine ⟨_, .insert encodes absent accepted', fun key => ?_⟩
      rw [latest_cons, latest_cons,
        latest_written_perm perm (accepted.distinct (order.names_nodup names))]
    | update | delete => cases alike
  | @update row oldRow oldOrder newOrder enc value oldValue oldEntries newEntries encodes present
      decoded old new =>
    cases other with
    | update otherRow otherOld otherNew =>
      obtain rfl : row = otherRow := alike
      obtain ⟨olds, old', oldPerm⟩ := old.perm (oldOrder.walk_perm otherOld indexes)
      obtain ⟨news, new', newPerm⟩ := new.perm (newOrder.walk_perm otherNew indexes)
      refine ⟨_, .update encodes present decoded old' new', fun key => ?_⟩
      rw [latest_append, latest_append, latest_cons, latest_cons,
        latest_removed_perm oldPerm (old.distinct (oldOrder.names_nodup names)),
        latest_written_perm newPerm (new.distinct (newOrder.names_nodup names))]
    | insert | delete => cases alike
  | deleteNothing encoded short absent =>
    cases other with
    | delete otherKey otherOrder =>
      obtain rfl := alike
      exact ⟨[], .deleteNothing encoded short absent, fun _ => rfl⟩
    | insert | update => cases alike
  | @delete primaryKey order enc oldValue oldRow entries encoded short present decoded old =>
    cases other with
    | delete otherKey otherOrder =>
      obtain rfl : primaryKey = otherKey := alike
      obtain ⟨reordered, old', perm⟩ := old.perm (order.walk_perm otherOrder indexes)
      refine ⟨_, .delete encoded short present decoded old', fun key => ?_⟩
      rw [latest_cons, latest_cons,
        latest_removed_perm perm (old.distinct (order.names_nodup names))]
    | insert | update => cases alike

/-! ## The keys that are written -/

theorem EntryFor.kind {row : Row} {primaryKey : Bytes} {index : Index} {entry : Item}
    (isEntry : EntryFor schema row primaryKey index entry) : ∃ rest, entry.key = 0x30 :: rest := by
  obtain ⟨encoded, -, rfl⟩ := isEntry
  dsimp only
  rw [indexEntryKey]
  split_ifs
  · exact ⟨_, rfl⟩
  · exact ⟨_, rfl⟩

/-- The row methods write rows and index entries only. -/
theorem Yields.kind (yields : Yields read schema indexes method flag changes) :
    ∀ change ∈ changes, ∃ rest, change.key = 0x20 :: rest ∨ change.key = 0x30 :: rest := by
  have written_kind {row : Row} {enc : Bytes} {allow : Bool} {order : List Index}
      {entries : List Item} (accepted : EntriesFor read schema row enc allow order entries) :
      ∀ entry ∈ entries, ∃ rest, entry.key = 0x20 :: rest ∨ entry.key = 0x30 :: rest := by
    intro entry listed
    obtain ⟨index, -, isEntry, -⟩ := accepted.of_entry listed
    obtain ⟨rest, starts⟩ := isEntry.kind
    exact ⟨rest, .inr starts⟩
  intro change mem
  cases yields with
  | insert _ _ accepted =>
    rcases mem_cons.mp mem with rfl | later
    · exact ⟨_, .inl rfl⟩
    · obtain ⟨entry, listed, rfl⟩ := mem_map.mp later
      exact written_kind accepted entry listed
  | update _ _ _ old new =>
    rcases mem_append.mp mem with first | rest
    · obtain ⟨entry, listed, rfl⟩ := mem_map.mp first
      exact written_kind old entry listed
    · rcases mem_cons.mp rest with rfl | later
      · exact ⟨_, .inl rfl⟩
      · obtain ⟨entry, listed, rfl⟩ := mem_map.mp later
        exact written_kind new entry listed
  | deleteNothing => cases mem
  | delete _ _ _ _ old =>
    rcases mem_cons.mp mem with rfl | later
    · exact ⟨_, .inl rfl⟩
    · obtain ⟨entry, listed, rfl⟩ := mem_map.mp later
      exact written_kind old entry listed

/-! ## The definitions that are read -/

/-- What is read of the catalog is a map by the names of the indexes. -/
theorem loadEntries_spec {start : Bytes} {entries : List Item}
    {before indexes : List (Binding Bytes Index)} (sorted : Sorted before)
    (named : ∀ binding ∈ before, binding.value.name = binding.key)
    (loaded : loadEntries schema start entries before = .ok indexes) :
    Sorted indexes ∧ ∀ binding ∈ indexes, binding.value.name = binding.key := by
  induction entries generalizing before with
  | nil =>
    obtain rfl := Except.ok.inj loaded
    exact ⟨sorted, named⟩
  | cons entry rest ih =>
    rw [loadEntries] at loaded
    split_ifs at loaded
    · exact ih sorted named loaded
    cases component : decodeEscapedComponent (entry.key.drop start.length) with
    | none =>
      rw [component] at loaded
      cases loaded
    | some name =>
      rw [component] at loaded
      obtain ⟨index, decoded, loaded⟩ := bind_ok_iff.mp loaded
      obtain ⟨_, -, loaded⟩ := bind_ok_iff.mp loaded
      refine ih (sorted_put sorted name index) ?_ loaded
      intro binding mem
      rcases mem_put mem with rfl | old
      · exact decodeIndexMetadata_name decoded
      · exact named binding old

theorem indexesOf_names {contents : List Item} {indexes : List (Binding Bytes Index)}
    (loaded : indexesOf contents schema = .ok indexes) :
    ((indexes.map Binding.value).map Index.name).Nodup := by
  obtain ⟨sorted, named⟩ := loadEntries_spec List.Pairwise.nil nofun loaded
  have keys : (indexes.map Binding.value).map Index.name = indexes.map Binding.key := by
    rw [map_map]
    exact map_congr_left named
  rw [keys]
  exact pairwise_map.mpr (List.Pairwise.imp (fun less same => less.ne same) sorted)

end GoDatabase.Db
