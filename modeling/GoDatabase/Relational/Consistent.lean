import GoDatabase.Relational.RowChanges

/-!
# Consistent contents

Contents in which every key of the relational layer has its place: descriptors of tables,
definitions of indexes on these tables, rows of these tables, and for every row exactly
one entry in every index of its table.  Every method of the relational layer keeps
contents consistent.
-/

namespace GoDatabase.Db

open Library Journal SortedMap Option

/-! ## What contents say -/

/-- The contents have a table with this schema. -/
structure Defines (contents : List Item) (s : TableSchema) : Prop where
  valid : s.Valid
  small : (encodeDescriptor s).length ≤ 3000
  stored : lookup contents (descriptorKey s.name) = some (encodeDescriptor s)

section

variable {σ : Type} {store : Store σ} {view : σ → List Item} {d : Database σ} {s : TableSchema}
  (defined : Defines (d.contents view) s) (exact : store.Models view)
include defined exact

/-- The prefixes of a table are as long as the key of its descriptor. -/
theorem Defines.scanned {kind : UInt8} (low : kind ≠ 0xff) :
    Scanned store view d (kind :: escape s.name) := by
  have bounded {key : Bytes} (le : key.length ≤ (descriptorKey s.name).length) :
      Bounded (d.contents view) key := .inr ⟨_, mem_of_lookup_eq_some defined.stored, le⟩
  exact rangeLocked_exact exact (bounded le_rfl)
    (bounded (length_prefixEnd_le (List.mem_cons_self ..) low))

theorem Defines.tableRowsLocked_eq : tableRowsLocked store d s.name =
      .ok ((d.contents view).filter fun item => hasPrefix item.key (rowPrefix s.name)) :=
  scanLocked_exact (defined.scanned exact (by decide)) (List.mem_cons_self ..) (by decide)

theorem Defines.loadIndexesLocked_eq :
    loadIndexesLocked store d s = indexesOf (d.contents view) s :=
  loadIndexesLocked_exact (defined.scanned exact (by decide))

end

/-- The contents have an index on the table. -/
structure DefinesIndex (contents : List Item) (s : TableSchema) (index : Index) : Prop where
  valid : index.Valid s
  stored : lookup contents (indexMetadataKey s.name index.name) =
    some (encodeIndexMetadata index)

/-- The contents have a row of the table with the encoded primary key `enc`. -/
def Stores (contents : List Item) (s : TableSchema) (row : Row) (enc : Bytes) : Prop :=
  ∃ value, EncodesRow s row enc value ∧ lookup contents (rowPrefix s.name ++ enc) =
    some value

structure Consistent (contents : List Item) : Prop where
  sorted : Sorted contents
  tables : ∀ rest value, lookup contents (0x10 :: rest) = some value →
    ∃ s, Defines contents s ∧ 0x10 :: rest = descriptorKey s.name
  indexes : ∀ rest value, lookup contents (0x11 :: rest) = some value →
    ∃ s index, Defines contents s ∧ DefinesIndex contents s index ∧
      0x11 :: rest = indexMetadataKey s.name index.name
  rows : ∀ rest value, lookup contents (0x20 :: rest) = some value →
    ∃ s row enc, Defines contents s ∧ EncodesRow s row enc value ∧ 0x20 :: rest =
      rowPrefix s.name ++ enc
  /-- Every entry stands for a row, -/
  sound : ∀ rest value, lookup contents (0x30 :: rest) = some value →
    ∃ s index row, Defines contents s ∧ DefinesIndex contents s index ∧
      Stores contents s row value ∧ EntryFor s row value index ⟨0x30 :: rest, value⟩
  /-- and every row has its entries. -/
  complete : ∀ s index row enc, Defines contents s → DefinesIndex contents s index →
    Stores contents s row enc → ∃ entry, EntryFor s row enc index entry ∧
      lookup contents entry.key = some enc

/-- No table, no index, no row. -/
theorem consistent_nil : Consistent [] where
  sorted := List.Pairwise.nil
  tables := nofun
  indexes := nofun
  rows := nofun
  sound := nofun
  complete _ _ _ _ defined := nomatch defined.stored

section Unique

variable {contents : List Item} {s other : TableSchema}

/-- A name has one schema. -/
theorem Defines.unique (defined : Defines contents s) (also : Defines contents other)
    (name : s.name = other.name) : s = other := by
  have same : encodeDescriptor s = encodeDescriptor other := by
    have stored := also.stored
    rw [← name, defined.stored] at stored
    exact some.inj stored
  have decoded := decodeDescriptor_encodeDescriptor defined.valid defined.small
  rw [same, decodeDescriptor_encodeDescriptor also.valid also.small] at decoded
  exact (Except.ok.inj decoded).symm

/-- A table has one index of a name. -/
theorem DefinesIndex.unique {index otherIndex : Index} (defined : Defines contents s)
    (isIndex : DefinesIndex contents s index) (also : DefinesIndex contents s otherIndex)
    (name : index.name = otherIndex.name) : index = otherIndex := by
  have same : encodeIndexMetadata index = encodeIndexMetadata otherIndex := by
    have stored := also.stored
    rw [← name, isIndex.stored] at stored
    exact some.inj stored
  have decoded := isIndex.valid.decode_encode defined.valid
  rw [same, name, also.valid.decode_encode defined.valid] at decoded
  exact (Except.ok.inj decoded).symm

end Unique

/-! ## Entries -/

variable {row : Row} {index : Index} {entry : Item}

theorem EntryFor.congr {s : TableSchema} {other : Row} {enc : Bytes}
    (same : other.get index.column = row.get index.column) :
    EntryFor s other enc index entry ↔ EntryFor s row enc index entry := by
  rw [EntryFor, EntryFor, same]

section

variable {s : TableSchema} {enc : Bytes} (isEntry : EntryFor s row enc index entry)
include isEntry

/-- A row has one entry in an index. -/
theorem EntryFor.unique {other : Item} (also : EntryFor s row enc index other) : entry = other := by
  obtain ⟨encoded, indexed, rfl⟩ := isEntry
  obtain ⟨otherEncoded, otherIndexed, rfl⟩ := also
  rw [Except.ok.inj (indexed.symm.trans otherIndexed)]

/-- The value of an entry is the primary key. -/
theorem EntryFor.value_eq : entry.value = enc := by
  obtain ⟨_, -, rfl⟩ := isEntry
  rfl

/-- A shared key of two entries of one table: the index is the same, and so is the row
unless the index is unique. -/
theorem EntryFor.key_inj {other : Row} {otherEnc : Bytes} {otherEntry : Item}
    (also : EntryFor s other otherEnc index otherEntry) (same : entry.key = otherEntry.key) :
    index.unique = true ∨ enc = otherEnc := by
  obtain ⟨encoded, indexed, rfl⟩ := isEntry
  obtain ⟨otherEncoded, otherIndexed, rfl⟩ := also
  cases unique : index.unique with
  | true => exact .inl rfl
  | false =>
    right
    dsimp only at same
    rw [indexEntryKey_of_shared unique, indexEntryKey_of_shared unique, indexValuePrefix,
      indexValuePrefix, List.append_assoc, List.append_assoc] at same
    obtain ⟨-, -, tails⟩ := indexEntryPrefix_append_inj same
    exact (encodeIndexValue_delimited _ indexed otherIndexed tails).2

end

/-! ## Writes outside the relational layer -/

/-- The keys of the relational layer. -/
inductive Reserved : Bytes → Prop
  | table (rest : Bytes) : Reserved (0x10 :: rest)
  | index (rest : Bytes) : Reserved (0x11 :: rest)
  | row (rest : Bytes) : Reserved (0x20 :: rest)
  | entry (rest : Bytes) : Reserved (0x30 :: rest)

section Transport

variable {contents after : List Item} {s : TableSchema}

theorem Defines.congr
    (same : ∀ rest, lookup after (0x10 :: rest) = lookup contents (0x10 :: rest)) :
    Defines after s ↔ Defines contents s := by
  constructor
  · intro defined
    exact ⟨defined.valid, defined.small, (same _).symm.trans defined.stored⟩
  · intro defined
    exact ⟨defined.valid, defined.small, (same _).trans defined.stored⟩

theorem DefinesIndex.congr {index : Index}
    (same : ∀ rest, lookup after (0x11 :: rest) = lookup contents (0x11 :: rest)) :
    DefinesIndex after s index ↔ DefinesIndex contents s index := by
  constructor
  · intro defined
    exact ⟨defined.valid, (same _).symm.trans defined.stored⟩
  · intro defined
    exact ⟨defined.valid, (same _).trans defined.stored⟩

theorem Stores.congr {row : Row} {enc : Bytes}
    (same : lookup after (rowPrefix s.name ++ enc) = lookup contents (rowPrefix s.name ++ enc)) :
    Stores after s row enc ↔ Stores contents s row enc := by
  rw [Stores, Stores, same]

end Transport

/-- Consistency is about the reserved keys only. -/
theorem Consistent.of_same {contents after : List Item} (agrees : Consistent contents)
    (sorted : Sorted after)
    (same : ∀ key, Reserved key → lookup after key = lookup contents key) :
    Consistent after where
  sorted := sorted
  tables rest value found := by
    rw [same _ (.table rest)] at found
    obtain ⟨s, defined, key⟩ := agrees.tables rest value found
    exact ⟨s, (Defines.congr fun rest => same _ (.table rest)).mpr defined, key⟩
  indexes rest value found := by
    rw [same _ (.index rest)] at found
    obtain ⟨s, index, defined, isIndex, key⟩ := agrees.indexes rest value found
    exact ⟨s, index, (Defines.congr fun rest => same _ (.table rest)).mpr defined,
      (DefinesIndex.congr fun rest => same _ (.index rest)).mpr isIndex, key⟩
  rows rest value found := by
    rw [same _ (.row rest)] at found
    obtain ⟨s, row, enc, defined, encodes, key⟩ := agrees.rows rest value found
    exact ⟨s, row, enc, (Defines.congr fun rest => same _ (.table rest)).mpr defined, encodes, key⟩
  sound rest value found := by
    rw [same _ (.entry rest)] at found
    obtain ⟨s, index, row, defined, isIndex, stored, isEntry⟩ := agrees.sound rest value found
    exact ⟨s, index, row, (Defines.congr fun rest => same _ (.table rest)).mpr defined,
      (DefinesIndex.congr fun rest => same _ (.index rest)).mpr isIndex,
      (Stores.congr (same _ (.row _))).mpr stored, isEntry⟩
  complete s index row enc defined isIndex stored := by
    obtain ⟨entry, isEntry, found⟩ := agrees.complete s index row enc
      ((Defines.congr fun rest => same _ (.table rest)).mp defined)
      ((DefinesIndex.congr fun rest => same _ (.index rest)).mp isIndex)
      ((Stores.congr (same _ (.row _))).mp stored)
    obtain ⟨rest, kind⟩ := isEntry.kind
    refine ⟨entry, isEntry, ?_⟩
    rw [same _ (kind ▸ .entry rest), found]

/-! ## Replacing one row -/

/-- What it takes to replace the row under one primary key, or to add or remove one: the
old and the new row are given by the columns that indexes can be on. -/
structure Replaces (contents after : List Item) (s : TableSchema) (enc : Bytes)
    (old new : Option Row) : Prop where
  /-- The old row is the one that was stored, -/
  before : ∀ row, Stores contents s row enc →
    ∃ o ∈ old, ∀ index : Index, index.Valid s → o.get index.column = row.get index.column
  /-- the new row is the one that is stored. -/
  encoded : ∀ value, lookup after (rowPrefix s.name ++ enc) = some value →
    ∃ n ∈ new, EncodesRow s n enc value
  stored : ∀ n ∈ new, Stores after s n enc
  added : ∀ n ∈ new, ∀ index, DefinesIndex contents s index →
    ∃ entry, EntryFor s n enc index entry ∧ lookup after entry.key = some enc
  /-- Under the keys of old and new entries there are only new ones. -/
  affected : ∀ row, row ∈ old ∨ row ∈ new → ∀ index, DefinesIndex contents s index → ∀ entry,
    EntryFor s row enc index entry → ∀ value, lookup after entry.key = some value →
      value = enc ∧ ∃ n ∈ new, ∃ other, DefinesIndex contents s other ∧ EntryFor s n enc other
        ⟨entry.key, enc⟩
  /-- No other row had an entry under one of these keys. -/
  vacant : ∀ row, row ∈ old ∨ row ∈ new → ∀ index, DefinesIndex contents s index →
    index.unique = true → ∀ entry, EntryFor s row enc index entry →
      ∀ existing, lookup contents entry.key = some existing → existing = enc
  /-- All other keys keep their values. -/
  other : ∀ key, key ≠ rowPrefix s.name ++ enc →
    (∀ row, row ∈ old ∨ row ∈ new → ∀ index, DefinesIndex contents s index →
      ¬ EntryFor s row enc index ⟨key, enc⟩) →
    lookup after key = lookup contents key

namespace Replaces

variable {contents after : List Item} {s : TableSchema} {enc : Bytes} {old new : Option Row}

section

variable (replaces : Replaces contents after s enc old new)
include replaces

/-- Neither a row nor an entry. -/
theorem lookup_of_kind {kind : UInt8}
    (notRow : kind ≠ 0x20) (notEntry : kind ≠ 0x30) (rest : Bytes) :
    lookup after (kind :: rest) = lookup contents (kind :: rest) := by
  refine replaces.other _ (fun same => notRow (List.cons.inj same).1) fun row _ index _ isEntry =>
    ?_
  obtain ⟨tail, starts⟩ := isEntry.kind
  exact notEntry (List.cons.inj starts).1

/-- A row under another primary key or in another table. -/
theorem lookup_of_row {rest : Bytes} (ne : 0x20 :: rest ≠ rowPrefix s.name ++ enc) :
    lookup after (0x20 :: rest) = lookup contents (0x20 :: rest) := by
  refine replaces.other _ ne fun row _ index _ isEntry => ?_
  obtain ⟨tail, starts⟩ := isEntry.kind
  exact absurd (List.cons.inj starts).1 (by decide)

/-- An entry of another row is not affected. -/
theorem entry_ne (defined : Defines contents s)
    {otherSchema : TableSchema} (otherDefined : Defines contents otherSchema) {otherIndex : Index}
    (isOther : DefinesIndex contents otherSchema otherIndex) {other : Row} {otherEnc : Bytes}
    {entry : Item}
    (otherEntry : EntryFor otherSchema other otherEnc otherIndex entry)
    (found : lookup contents entry.key = some otherEnc)
    (ne : rowPrefix otherSchema.name ++ otherEnc ≠ rowPrefix s.name ++ enc) :
    lookup after entry.key = lookup contents entry.key := by
  obtain ⟨tail, kind⟩ := otherEntry.kind
  refine replaces.other _ ?_ fun row affected index isIndex isEntry => ?_
  · rw [kind]
    exact fun same => absurd (List.cons.inj same).1 (by decide)
  · obtain ⟨tables, names⟩ := otherEntry.names_eq isEntry rfl
    obtain rfl := otherDefined.unique defined tables
    obtain rfl := isOther.unique defined isIndex names
    rcases otherEntry.key_inj isEntry rfl with unique | rfl
    · exact ne (by rw [replaces.vacant row affected _ isIndex unique _ isEntry otherEnc found])
    · exact ne rfl

theorem consistent (agrees : Consistent contents)
    (sorted : Sorted after) (defined : Defines contents s) : Consistent after := by
  have tables (other : TableSchema) : Defines after other ↔ Defines contents other :=
    Defines.congr fun rest => replaces.lookup_of_kind (by decide) (by decide) rest
  have indexes (other : TableSchema) (index : Index) :
      DefinesIndex after other index ↔ DefinesIndex contents other index :=
    DefinesIndex.congr fun rest => replaces.lookup_of_kind (by decide) (by decide) rest
  -- Another row is stored as before.
  have rows {other : TableSchema} {row : Row} {otherEnc : Bytes}
      (ne : rowPrefix other.name ++ otherEnc ≠ rowPrefix s.name ++ enc) :
      Stores after other row otherEnc ↔ Stores contents other row otherEnc :=
    Stores.congr (replaces.lookup_of_row ne)
  refine ⟨sorted, ?_, ?_, ?_, ?_, ?_⟩
  · intro rest value found
    rw [replaces.lookup_of_kind (by decide) (by decide)] at found
    obtain ⟨other, isTable, key⟩ := agrees.tables rest value found
    exact ⟨other, (tables other).mpr isTable, key⟩
  · intro rest value found
    rw [replaces.lookup_of_kind (by decide) (by decide)] at found
    obtain ⟨other, index, isTable, isIndex, key⟩ := agrees.indexes rest value found
    exact ⟨other, index, (tables other).mpr isTable, (indexes other index).mpr isIndex, key⟩
  · intro rest value found
    by_cases same : 0x20 :: rest = rowPrefix s.name ++ enc
    · rw [same] at found
      obtain ⟨row, -, encodes⟩ := replaces.encoded value found
      exact ⟨s, row, enc, (tables s).mpr defined, encodes, same⟩
    · rw [replaces.lookup_of_row same] at found
      obtain ⟨other, row, otherEnc, isTable, encodes, key⟩ := agrees.rows rest value found
      exact ⟨other, row, otherEnc, (tables other).mpr isTable, encodes, key⟩
  · intro rest value found
    by_cases affected : ∃ row, (row ∈ old ∨ row ∈ new) ∧ ∃ index, DefinesIndex contents s index ∧
        EntryFor s row enc index ⟨0x30 :: rest, enc⟩
    · obtain ⟨row, which, index, isIndex, isEntry⟩ := affected
      obtain ⟨rfl, n, isNew, other, isOther, newEntry⟩ :=
        replaces.affected row which index isIndex _ isEntry value found
      exact ⟨s, other, n, (tables s).mpr defined, (indexes s other).mpr isOther,
        replaces.stored n isNew, newEntry⟩
    · have kept : lookup after (0x30 :: rest) = lookup contents (0x30 :: rest) := by
        refine replaces.other _ (fun same => absurd (List.cons.inj same).1 (by decide)) ?_
        exact fun row which index isIndex isEntry => affected ⟨row, which, index, isIndex, isEntry⟩
      rw [kept] at found
      obtain ⟨other, index, row, isTable, isIndex, isRow, isEntry⟩ := agrees.sound rest value found
      refine ⟨other, index, row, (tables other).mpr isTable, (indexes other index).mpr isIndex,
        ?_, isEntry⟩
      refine (rows fun same => ?_).mpr isRow
      -- The old row has its entries among the affected ones.
      obtain ⟨name, rfl⟩ := rowPrefix_append_inj same
      obtain rfl := isTable.unique defined name
      obtain ⟨o, isOld, gets⟩ := replaces.before row isRow
      exact affected
        ⟨o, .inl isOld, index, isIndex, (EntryFor.congr (gets index isIndex.valid)).mpr isEntry⟩
  · intro other index row otherEnc isTable isIndex isRow
    rw [tables] at isTable
    rw [indexes] at isIndex
    by_cases same : rowPrefix other.name ++ otherEnc = rowPrefix s.name ++ enc
    · obtain ⟨name, rfl⟩ := rowPrefix_append_inj same
      obtain rfl := isTable.unique defined name
      obtain ⟨value, encodes, found⟩ := isRow
      obtain ⟨n, isNew, newEncodes⟩ := replaces.encoded value found
      obtain ⟨entry, isEntry, added⟩ := replaces.added n isNew index isIndex
      exact ⟨entry, (EntryFor.congr (encodes.get_eq newEncodes isIndex.valid)).mp isEntry, added⟩
    · obtain ⟨entry, isEntry, found⟩ := agrees.complete other index row otherEnc isTable isIndex
        ((rows same).mp isRow)
      refine ⟨entry, isEntry, ?_⟩
      rw [replaces.entry_ne defined isTable isIndex isEntry found same, found]

end

end Replaces

/-! ## Row methods -/

/-- The entries of a row in all indexes of its table. -/
structure Listed (contents : List Item) (s : TableSchema) (enc : Bytes) (row : Option Row)
    (entries : List Item) : Prop where
  all : ∀ r ∈ row, ∀ index, DefinesIndex contents s index → ∃ entry ∈ entries,
    EntryFor s r enc index entry ∧
      (index.unique = true → ∀ existing, lookup contents entry.key = some existing →
        existing = enc)
  only : ∀ entry ∈ entries, ∃ r ∈ row, ∃ index, DefinesIndex contents s index ∧
    EntryFor s r enc index entry

theorem listed_none (contents : List Item) (s : TableSchema) (enc : Bytes) :
    Listed contents s enc none [] := ⟨nofun, nofun⟩

section Rows

variable {contents after : List Item} {s : TableSchema} {enc : Bytes} {old new : Option Row}
  {oldEntries newEntries : List Item}

variable {indexes : List Index} {row : Row} {entries : List Item} {method : RowMethod} {flag : Bool}
  {changes : Changes}

theorem EntriesFor.listed (all : ∀ index, index ∈ indexes ↔ DefinesIndex contents s index)
    {allowExisting : Bool} {order : MapOrder}
    (accepted : EntriesFor (lookup contents) s row enc allowExisting (order.walk indexes) entries) :
    Listed contents s enc (some row) entries := by
  have walked (index : Index) : index ∈ order.walk indexes ↔ DefinesIndex contents s index :=
    (order.perm indexes).mem_iff.trans (all index)
  constructor
  · rintro r isRow index isIndex
    obtain rfl := mem_some.mp isRow
    obtain ⟨entry, listed, isEntry, vacant⟩ := accepted.of_index ((walked index).mpr isIndex)
    refine ⟨entry, listed, isEntry, fun unique existing found => ?_⟩
    rw [(vacant unique existing found).2, isEntry.value_eq]
  · intro entry listed
    obtain ⟨index, mem, isEntry, -⟩ := accepted.of_entry listed
    exact ⟨row, rfl, index, (walked index).mp mem, isEntry⟩

/-- The contents after the old entries are removed, the row is written or removed, and the
new entries are written. -/
theorem replaces_of_lookup {newValue : Option Bytes} (isOld : Listed contents s enc old oldEntries)
    (isNew : Listed contents s enc new newEntries) (before : ∀ row, Stores contents s row enc →
      ∃ o ∈ old, ∀ index : Index, index.Valid s → o.get index.column = row.get index.column)
    (encoded : ∀ value, newValue = some value → ∃ n ∈ new, EncodesRow s n enc value)
    (stored : ∀ n ∈ new, ∃ value, EncodesRow s n enc value ∧ newValue = some value)
    (lookups : ∀ key, lookup after key = if key ∈ newEntries.map Binding.key then some enc
      else if rowPrefix s.name ++ enc = key then newValue
      else if key ∈ oldEntries.map Binding.key then none
      else lookup contents key) :
    Replaces contents after s enc old new := by
  have entry_ne_row {row : Row} {index : Index} {entry : Item}
      (isEntry : EntryFor s row enc index entry) : rowPrefix s.name ++ enc ≠ entry.key := by
    obtain ⟨rest, kind⟩ := isEntry.kind
    rw [kind]
    exact fun same => absurd (List.cons.inj same).1 (by decide)
  have rowNotNew : rowPrefix s.name ++ enc ∉ newEntries.map Binding.key := by
    intro mem
    obtain ⟨entry, listed, same⟩ := List.mem_map.mp mem
    obtain ⟨_, -, _, -, isEntry⟩ := isNew.only entry listed
    exact entry_ne_row isEntry same.symm
  have rowLookup : lookup after (rowPrefix s.name ++ enc) = newValue := by
    rw [lookups, if_neg rowNotNew, if_pos rfl]
  -- An entry of the old or of the new row is in one of the lists.
  have mem {row : Row} (which : row ∈ old ∨ row ∈ new) {index : Index}
      (isIndex : DefinesIndex contents s index) {entry : Item}
      (isEntry : EntryFor s row enc index entry) :
      (entry.key ∈ oldEntries.map Binding.key ∨ entry.key ∈ newEntries.map Binding.key) ∧
        (index.unique = true → ∀ existing, lookup contents entry.key = some existing → existing =
          enc) := by
    rcases which with inOld | inNew
    · obtain ⟨other, listed, also, vacant⟩ := isOld.all row inOld index isIndex
      obtain rfl := isEntry.unique also
      exact ⟨.inl (List.mem_map_of_mem listed), vacant⟩
    · obtain ⟨other, listed, also, vacant⟩ := isNew.all row inNew index isIndex
      obtain rfl := isEntry.unique also
      exact ⟨.inr (List.mem_map_of_mem listed), vacant⟩
  -- What is in one of the lists is such an entry.
  have only {row : Option Row} {entries : List Item} (isListed : Listed contents s enc row entries)
      {key : Bytes} (listed : key ∈ entries.map Binding.key) :
      ∃ r ∈ row, ∃ index, DefinesIndex contents s index ∧ EntryFor s r enc index ⟨key, enc⟩ := by
    obtain ⟨entry, inList, rfl⟩ := List.mem_map.mp listed
    obtain ⟨r, isRow, index, isIndex, isEntry⟩ := isListed.only entry inList
    have same : (⟨entry.key, enc⟩ : Item) = entry := by
      rw [← isEntry.value_eq]
    exact ⟨r, isRow, index, isIndex, same ▸ isEntry⟩
  refine ⟨before, fun value found => encoded value (rowLookup.symm.trans found), fun n inNew => ?_,
    fun n inNew index isIndex => ?_, fun row which index isIndex entry isEntry value found => ?_,
    fun row which index isIndex unique entry isEntry => (mem which isIndex isEntry).2 unique,
    fun key notRow unaffected => ?_⟩
  · obtain ⟨value, encodes, isValue⟩ := stored n inNew
    exact ⟨value, encodes, rowLookup.trans isValue⟩
  · obtain ⟨entry, listed, isEntry, -⟩ := isNew.all n inNew index isIndex
    refine ⟨entry, isEntry, ?_⟩
    rw [lookups, if_pos (List.mem_map_of_mem listed)]
  · rw [lookups] at found
    by_cases inNew : entry.key ∈ newEntries.map Binding.key
    · rw [if_pos inNew] at found
      exact ⟨(some.inj found).symm, only isNew inNew⟩
    · have inOld := (mem which isIndex isEntry).1.resolve_right inNew
      rw [if_neg inNew, if_neg (entry_ne_row isEntry), if_pos inOld] at found
      cases found
  · have notNew : key ∉ newEntries.map Binding.key := fun listed => by
      obtain ⟨r, isRow, index, isIndex, isEntry⟩ := only isNew listed
      exact unaffected r (.inr isRow) index isIndex isEntry
    have notOld : key ∉ oldEntries.map Binding.key := fun listed => by
      obtain ⟨r, isRow, index, isIndex, isEntry⟩ := only isOld listed
      exact unaffected r (.inl isRow) index isIndex isEntry
    rw [lookups, if_neg notNew, if_neg (Ne.symm notRow), if_neg notOld]

theorem latest_written (isListed : Listed contents s enc new entries) (key : Bytes) :
    latest (written entries) key = if key ∈ entries.map Binding.key then some ⟨enc, false⟩
      else none := by
  have same : written entries = (entries.map Binding.key).map fun key => ⟨key, ⟨enc, false⟩⟩ := by
    rw [written, List.map_map]
    apply List.map_congr_left
    intro entry listed
    obtain ⟨_, -, _, -, isEntry⟩ := isListed.only entry listed
    rw [isEntry.value_eq]
    rfl
  rw [same, latest_const]

theorem latest_removed (entries : List Item) (key : Bytes) :
    latest (removed entries) key = if key ∈ entries.map Binding.key then some ⟨[], true⟩
      else none := by
  have same : removed entries = (entries.map Binding.key).map fun key => ⟨key, ⟨[], true⟩⟩ := by
    rw [removed, List.map_map]
    rfl
  rw [same, latest_const]

/-- What an insertion or an update leaves. -/
theorem lookup_update (oldEntries : List Item) (isNew : Listed contents s enc new newEntries)
    (value key : Bytes) : lookup (play contents (writes (removed oldEntries ++
        ⟨rowPrefix s.name ++ enc, ⟨value, false⟩⟩ :: written newEntries))) key =
      if key ∈ newEntries.map Binding.key then some enc
      else if rowPrefix s.name ++ enc = key then some value
      else if key ∈ oldEntries.map Binding.key then none
      else lookup contents key := by
  rw [lookup_play, writes, latest_map, latest_append, latest_cons,
    latest_written isNew, latest_removed]
  split_ifs <;> rfl

/-- What a deletion leaves. -/
theorem lookup_delete (key : Bytes) : lookup (play contents (writes
        (⟨rowPrefix s.name ++ enc, ⟨[], true⟩⟩ :: removed oldEntries))) key =
      if key ∈ ([] : List Item).map Binding.key then some enc
      else if rowPrefix s.name ++ enc = key then none
      else if key ∈ oldEntries.map Binding.key then none
      else lookup contents key := by
  rw [lookup_play, writes, latest_map, latest_cons, latest_removed, List.map_nil,
    if_neg List.not_mem_nil]
  split_ifs <;> rfl

/-- The row that is decoded stands for the one that is stored. -/
theorem stores_decoded {oldValue : Bytes} {oldRow : Row}
    (present : lookup contents (rowPrefix s.name ++ enc) = some oldValue)
    (decoded : decodeRow s oldValue = .ok oldRow) (stored : Stores contents s row enc) :
    ∃ o ∈ some oldRow, ∀ index : Index, index.Valid s → o.get index.column =
      row.get index.column := by
  obtain ⟨value, encodes, found⟩ := stored
  obtain rfl := some.inj (present.symm.trans found)
  exact ⟨oldRow, rfl, fun index valid => encodes.get_decoded decoded valid⟩

section

variable (all : ∀ index, index ∈ indexes ↔ DefinesIndex contents s index)
  (yields : Yields (lookup contents) s indexes method flag changes)
include all yields

/-- A row method replaces one row, or does nothing. -/
theorem Yields.replaces :
    changes = [] ∨ ∃ enc old new, Replaces contents (play contents (writes changes)) s enc old
      new := by
  cases yields with
  | @insert row order enc value entries encodes absent accepted =>
    refine .inr
      ⟨enc, none, some row, replaces_of_lookup (listed_none ..) (accepted.listed all) ?_ ?_ ?_
        (lookup_update [] (accepted.listed all) value)⟩
    · rintro other ⟨otherValue, -, found⟩
      cases absent.symm.trans found
    · rintro _ ⟨rfl⟩
      exact ⟨row, rfl, encodes⟩
    · rintro _ ⟨rfl⟩
      exact ⟨value, encodes, rfl⟩
  | @update row oldRow _ _ enc value oldValue _ _ encodes present decoded olds news =>
    refine .inr ⟨enc, some oldRow, some row, replaces_of_lookup (olds.listed all) (news.listed all)
      (fun _ stored => stores_decoded present decoded stored) ?_ ?_
      (lookup_update _ (news.listed all) value)⟩
    · rintro _ ⟨rfl⟩
      exact ⟨row, rfl, encodes⟩
    · rintro _ ⟨rfl⟩
      exact ⟨value, encodes, rfl⟩
  | deleteNothing => exact .inl rfl
  | @delete primaryKey order enc oldValue oldRow entries encoded short present decoded olds =>
    refine .inr ⟨enc, some oldRow, none, replaces_of_lookup (olds.listed all) (listed_none ..)
      (fun _ stored => stores_decoded present decoded stored) ?_ ?_ lookup_delete⟩
    · exact nofun
    · exact nofun

theorem Yields.consistent (before : Consistent contents)
    (defined : Defines contents s) : Consistent (play contents (writes changes)) := by
  rcases yields.replaces all with rfl | ⟨enc, old, new, replaces⟩
  · exact before
  · exact replaces.consistent before (sorted_play before.sorted _) defined

end

end Rows

/-! ## Reading the index definitions -/

section Definitions

variable {contents : List Item} {s : TableSchema}

/-- The entry that defines an index. -/
def definition (s : TableSchema) (index : Index) : Item :=
  ⟨indexMetadataKey s.name index.name, encodeIndexMetadata index⟩

/-- An entry that `loadEntries` reads as an index of the table, or skips. -/
def Readable (contents : List Item) (s : TableSchema) (entry : Item) : Prop :=
  (entry.key.length ≤ (indexMetadataPrefix s.name).length ∨
    ¬ hasPrefix entry.key (indexMetadataPrefix s.name)) ∨
  ∃ index, DefinesIndex contents s index ∧ entry = definition s index

/-- The definitions by name. -/
def Collected (contents : List Item) (s : TableSchema) (indexes : List (Binding Bytes Index))
    : Prop :=
  ∀ name index, lookup indexes name = some index → DefinesIndex contents s index ∧
    index.name = name

variable {index : Index} {indexes : List (Binding Bytes Index)}

theorem loadEntries_definition (defined : Defines contents s)
    (isIndex : DefinesIndex contents s index) (rest : List Item)
    (before : List (Binding Bytes Index)) :
    loadEntries s (indexMetadataPrefix s.name) (definition s index :: rest) before =
      loadEntries s (indexMetadataPrefix s.name) rest (put index.name index before) := by
  have key : (definition s index).key = indexMetadataPrefix s.name ++ escape index.name := rfl
  have positive : 0 < (escape index.name).length := by
    rw [escape_eq, List.length_append]
    exact Nat.lt_of_lt_of_le Nat.two_pos (Nat.le_add_left _ _)
  have taken : ¬ ((definition s index).key.length ≤ (indexMetadataPrefix s.name).length ∨
      ¬ hasPrefix (definition s index).key (indexMetadataPrefix s.name)) := by
    rw [key, not_or, not_not, hasPrefix_iff, List.length_append]
    exact ⟨by omega, List.prefix_append _ _⟩
  have decoded : decodeIndexMetadata index.name (definition s index).value = .ok index :=
    isIndex.valid.decode_encode defined.valid
  rw [loadEntries, if_neg taken, key, List.drop_left, decodeEscapedComponent_eq_some.mpr rfl]
  dsimp only
  rw [decoded, ok_bind, (validateIndex_eq_ok defined.valid).mpr isIndex.valid, ok_bind]

theorem Collected.put (collected : Collected contents s indexes)
    (isIndex : DefinesIndex contents s index) :
    Collected contents s (put index.name index indexes) := by
  intro name other found
  by_cases same : name = index.name
  · rw [same, lookup_put_self] at found
    obtain rfl := some.inj found
    exact ⟨isIndex, same.symm⟩
  · rw [lookup_put_of_ne _ _ same] at found
    exact collected name other found

/-- Definitions are never overwritten by other ones. -/
theorem Collected.lookup_put (collected : Collected contents s indexes)
    (defined : Defines contents s) (isIndex : DefinesIndex contents s index) {name : Bytes}
    {other : Index} (found : lookup indexes name = some other) :
    lookup (SortedMap.put index.name index indexes) name = some other := by
  by_cases same : name = index.name
  · obtain ⟨isOther, named⟩ := collected name other found
    rw [same, lookup_put_self, isIndex.unique defined isOther (same.symm.trans named.symm)]
  · rwa [lookup_put_of_ne _ _ same]

/-- The loop reads every definition. -/
theorem loadEntries_collects (defined : Defines contents s) {entries : List Item}
    (readable : ∀ entry ∈ entries, Readable contents s entry) {before : List (Binding Bytes Index)}
    (collected : Collected contents s before) :
    ∃ indexes, loadEntries s (indexMetadataPrefix s.name) entries before = .ok indexes ∧
      Collected contents s indexes ∧
      (∀ name index, lookup before name = some index → lookup indexes name = some index) ∧
      ∀ index, DefinesIndex contents s index → definition s index ∈ entries →
        lookup indexes index.name = some index := by
  induction entries generalizing before with
  | nil => exact ⟨before, rfl, collected, fun _ _ found => found, fun _ _ mem =>
    absurd mem List.not_mem_nil⟩
  | cons entry rest ih =>
    have later := fun other mem => readable other (List.mem_cons_of_mem _ mem)
    rcases readable entry (List.mem_cons_self ..) with skipped | ⟨index, isIndex, rfl⟩
    · obtain ⟨indexes, loaded, all, kept, read⟩ := ih later collected
      refine ⟨indexes, ?_, all, kept, fun index isIndex mem => ?_⟩
      · rw [loadEntries, if_pos skipped]
        exact loaded
      rcases List.mem_cons.mp mem with rfl | mem
      · -- a definition is longer than the prefix and starts with it
        exfalso
        have key : (definition s index).key = indexMetadataPrefix s.name ++ escape index.name :=
          rfl
        rw [key, hasPrefix_iff, List.length_append, escape_eq, List.length_append] at skipped
        rcases skipped with short | other
        · exact absurd short (by simp)
        · exact other (List.prefix_append _ _)
      · exact read index isIndex mem
    · obtain ⟨indexes, loaded, all, kept, read⟩ := ih later (collected.put isIndex)
      refine ⟨indexes, (loadEntries_definition defined isIndex rest before).trans loaded, all,
        fun name other found => kept name other (collected.lookup_put defined isIndex found),
        fun other isOther mem => ?_⟩
      rcases List.mem_cons.mp mem with same | mem
      · have named : indexMetadataKey s.name other.name = indexMetadataKey s.name index.name :=
          congrArg Binding.key same
        have sameName : other.name = index.name :=
          escape_inj (List.append_cancel_left (List.cons.inj named).2)
        obtain rfl := isOther.unique defined isIndex sameName
        exact kept _ _ (lookup_put_self ..)
      · exact read other isOther mem

section

variable (agrees : Consistent contents) (defined : Defines contents s)
include agrees defined

/-- In consistent contents every entry under the prefix of a table can be read. -/
theorem Consistent.readable
    {entry : Item} (mem : entry ∈ contents) : Readable contents s entry := by
  by_cases skipped : entry.key.length ≤ (indexMetadataPrefix s.name).length ∨
      ¬ hasPrefix entry.key (indexMetadataPrefix s.name)
  · exact .inl skipped
  right
  rw [not_or, not_not, hasPrefix_iff] at skipped
  obtain ⟨rest, whole⟩ := skipped.2
  have found := lookup_eq_some_of_mem agrees.sorted mem
  rw [← whole] at found
  obtain ⟨owner, index, owns, isIndex, key⟩ := agrees.indexes _ _ found
  have names : escape s.name ++ rest = escape owner.name ++ escape index.name :=
    (List.cons.inj key).2
  obtain ⟨sameName, -⟩ := escape_append_inj names
  obtain rfl := defined.unique owns sameName
  refine ⟨index, isIndex, ?_⟩
  have same : entry.key = indexMetadataKey s.name index.name := whole.symm.trans key
  have value := isIndex.stored
  rw [← same, lookup_eq_some_of_mem agrees.sorted mem] at value
  cases entry
  exact congrArg₂ Binding.mk same (some.inj value)

/-- The definitions that are read are the indexes of the table. -/
theorem Consistent.indexesOf_eq_ok : ∃ indexes, indexesOf contents s = .ok indexes ∧
      ∀ name index, lookup indexes name = some index ↔
        DefinesIndex contents s index ∧ index.name = name := by
  obtain ⟨indexes, loaded, all, -, read⟩ := loadEntries_collects defined
    (fun entry mem => agrees.readable defined (List.mem_of_mem_filter mem))
    (show Collected contents s [] from nofun)
  refine ⟨indexes, loaded, fun name index => ⟨all name index, ?_⟩⟩
  rintro ⟨isIndex, rfl⟩
  apply read index isIndex
  have bounds : indexMetadataPrefix s.name ≤ (definition s index).key ∧
      (definition s index).key < prefixEnd (indexMetadataPrefix s.name) :=
    prefix_bounds (List.mem_cons_self ..) (by decide) (List.prefix_append _ (escape index.name))
  refine List.mem_filter.mpr ⟨mem_of_lookup_eq_some isIndex.stored, ?_⟩
  rw [between, decide_eq_true bounds.1, decide_eq_true bounds.2.le]
  rfl

theorem Consistent.mem_indexesOf (loaded : indexesOf contents s = .ok indexes) (index : Index) :
    index ∈ indexes.map Binding.value ↔ DefinesIndex contents s index := by
  obtain ⟨all, read, names⟩ := agrees.indexesOf_eq_ok defined
  obtain rfl := Except.ok.inj (loaded.symm.trans read)
  obtain ⟨sorted, named⟩ := loadEntries_spec List.Pairwise.nil nofun loaded
  constructor
  · intro mem
    obtain ⟨binding, isBinding, rfl⟩ := List.mem_map.mp mem
    exact ((names _ _).mp (lookup_eq_some_of_mem sorted isBinding)).1
  · intro isIndex
    exact List.mem_map_of_mem (mem_of_lookup_eq_some ((names _ _).mpr ⟨isIndex, rfl⟩))

end

end Definitions

end GoDatabase.Db
