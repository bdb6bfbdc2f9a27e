import GoDatabase.Relational.Consistent
import GoDatabase.Relational.Published

/-!
# Creating tables and indexes

A new table has no rows and no indexes.  A new index is filled from the rows that the
table has; no entry is there before, because every entry belongs to an index.
-/

namespace GoDatabase.Db

open Library Journal SortedMap List Option

/-! ## A new table -/

section Table

variable {contents : List Item} {s : TableSchema}

theorem lookup_put_descriptor (name value rest : Bytes) {kind : UInt8} (other : kind ≠ 0x10) :
    lookup (put (descriptorKey name) value contents) (kind :: rest) =
      lookup contents (kind :: rest) :=
  lookup_put_of_ne _ _ fun same => other (List.cons.inj same).1

/-- The tables after a new one. -/
theorem defines_put {t : TableSchema} (valid : s.Valid) (small : (encodeDescriptor s).length ≤ 3000)
    (absent : lookup contents (descriptorKey s.name) = none) :
    Defines (put (descriptorKey s.name) (encodeDescriptor s) contents) t ↔
      Defines contents t ∨ t = s := by
  by_cases sameName : t.name = s.name
  · have new : Defines (put (descriptorKey s.name) (encodeDescriptor s) contents) s :=
      ⟨valid, small, lookup_put_self ..⟩
    constructor
    · exact fun defined => .inr (defined.unique new sameName)
    · rintro (defined | rfl)
      · have stored := defined.stored
        rw [sameName, absent] at stored
        cases stored
      · exact new
  · have otherKey : descriptorKey t.name ≠ descriptorKey s.name := fun same =>
      sameName (escape_inj (List.cons.inj same).2)
    constructor
    · intro defined
      have stored := defined.stored
      rw [lookup_put_of_ne _ _ otherKey] at stored
      exact .inl ⟨defined.valid, defined.small, stored⟩
    · rintro (defined | rfl)
      · refine ⟨defined.valid, defined.small, ?_⟩
        rw [lookup_put_of_ne _ _ otherKey]
        exact defined.stored
      · exact absurd rfl sameName

/-- A new table leaves the contents consistent. -/
theorem Consistent.put_descriptor (agrees : Consistent contents) (valid : s.Valid)
    (small : (encodeDescriptor s).length ≤ 3000)
    (absent : lookup contents (descriptorKey s.name) = none) :
    Consistent (put (descriptorKey s.name) (encodeDescriptor s) contents) := by
  have defines (t : TableSchema) := @defines_put contents s t valid small absent
  have sameIndex (t : TableSchema) (index : Index) :
      DefinesIndex (put (descriptorKey s.name) (encodeDescriptor s) contents) t index ↔
        DefinesIndex contents t index :=
    DefinesIndex.congr fun rest => lookup_put_descriptor _ _ rest (by decide)
  have sameStores (t : TableSchema) (row : Row) (enc : Bytes) :
      Stores (put (descriptorKey s.name) (encodeDescriptor s) contents) t row enc ↔
        Stores contents t row enc :=
    Stores.congr (lookup_put_descriptor _ _ _ (by decide))
  refine ⟨sorted_put agrees.sorted _ _, fun rest value found => ?_,
    fun rest value found => ?_, fun rest value found => ?_, fun rest value found => ?_,
    fun t index row enc defined isIndex stored => ?_⟩
  · by_cases new : 0x10 :: rest = descriptorKey s.name
    · exact ⟨s, (defines s).mpr (.inr rfl), new⟩
    · rw [lookup_put_of_ne _ _ new] at found
      obtain ⟨t, defined, key⟩ := agrees.tables rest value found
      exact ⟨t, (defines t).mpr (.inl defined), key⟩
  · rw [lookup_put_descriptor _ _ _ (by decide)] at found
    obtain ⟨t, index, defined, isIndex, key⟩ := agrees.indexes rest value found
    exact ⟨t, index, (defines t).mpr (.inl defined), (sameIndex t index).mpr isIndex, key⟩
  · rw [lookup_put_descriptor _ _ _ (by decide)] at found
    obtain ⟨t, row, enc, defined, encodes, key⟩ := agrees.rows rest value found
    exact ⟨t, row, enc, (defines t).mpr (.inl defined), encodes, key⟩
  · rw [lookup_put_descriptor _ _ _ (by decide)] at found
    obtain ⟨t, index, row, defined, isIndex, stored, isEntry⟩ := agrees.sound rest value found
    exact ⟨t, index, row, (defines t).mpr (.inl defined), (sameIndex t index).mpr isIndex,
      (sameStores t row value).mpr stored, isEntry⟩
  · have oldIndex := (sameIndex t index).mp isIndex
    rcases (defines t).mp defined with oldTable | rfl
    · obtain ⟨entry, isEntry, found⟩ :=
        agrees.complete t index row enc oldTable oldIndex ((sameStores t row enc).mp stored)
      refine ⟨entry, isEntry, ?_⟩
      obtain ⟨rest, kind⟩ := isEntry.kind
      rw [kind, lookup_put_descriptor _ _ _ (by decide), ← kind]
      exact found
    · -- an index of the new table would belong to an old one of the same name
      exfalso
      obtain ⟨owner, other, owns, -, key⟩ := agrees.indexes _ _ oldIndex.stored
      have sameName := (escape_append_inj (List.cons.inj key).2).1
      have known := owns.stored
      rw [← sameName, absent] at known
      cases known

end Table

/-! ## A new index -/

/-- The contents after an index was added to a table, with an entry for every row. -/
structure AddsIndex (contents after : List Item) (s : TableSchema) (index : Index) : Prop where
  valid : index.Valid s
  fresh : lookup contents (indexMetadataKey s.name index.name) = none
  stored : lookup after (indexMetadataKey s.name index.name) =
    some (encodeIndexMetadata index)
  sound : ∀ key value, indexEntryPrefix s.name index.name <+: key →
    lookup after key = some value →
    ∃ row, Stores contents s row value ∧ EntryFor s row value index ⟨key, value⟩
  complete : ∀ row enc, Stores contents s row enc →
    ∃ entry, EntryFor s row enc index entry ∧ lookup after entry.key = some enc
  other : ∀ key, key ≠ indexMetadataKey s.name index.name →
    ¬ indexEntryPrefix s.name index.name <+: key → lookup after key =
      lookup contents key

theorem EntryFor.starts {s : TableSchema} {row : Row} {enc : Bytes} {index : Index} {entry : Item}
    (isEntry : EntryFor s row enc index entry) : indexEntryPrefix s.name index.name <+:
      entry.key := by
  obtain ⟨encoded, -, rfl⟩ := isEntry
  dsimp only
  rw [indexEntryKey]
  split_ifs
  · exact prefix_append _ _
  · rw [indexValuePrefix, append_assoc]
    exact prefix_append _ _

theorem indexMetadataKey_inj {table otherTable name otherName : Bytes}
    (same : indexMetadataKey table name = indexMetadataKey otherTable otherName) :
    table = otherTable ∧ name = otherName := by
  obtain ⟨sameTable, sameRest⟩ := escape_append_inj (List.cons.inj same).2
  exact ⟨sameTable, escape_inj sameRest⟩

namespace AddsIndex

variable {contents after : List Item} {s t : TableSchema} {index other : Index}
  (adds : AddsIndex contents after s index)
include adds

theorem lookup_of_kind {kind : UInt8} (notIndex : kind ≠ 0x11) (notEntry : kind ≠ 0x30)
    (rest : Bytes) : lookup after (kind :: rest) = lookup contents (kind :: rest) := by
  apply adds.other
  · exact fun same => notIndex (List.cons.inj same).1
  · rintro ⟨tail, same⟩
    exact notEntry (List.cons.inj same).1.symm

theorem defines : Defines after t ↔ Defines contents t :=
  Defines.congr (adds.lookup_of_kind (by decide) (by decide))

theorem stores {row : Row} {enc : Bytes} :
    Stores after t row enc ↔ Stores contents t row enc :=
  Stores.congr (adds.lookup_of_kind (by decide) (by decide) _)

/-- The indexes of the contents stay. -/
theorem keeps (isIndex : DefinesIndex contents t other) :
    DefinesIndex after t other := by
  refine ⟨isIndex.valid, ?_⟩
  rw [adds.other]
  · exact isIndex.stored
  · intro same
    have stored := isIndex.stored
    rw [same, adds.fresh] at stored
    cases stored
  · rintro ⟨tail, same⟩
    exact absurd (List.cons.inj same).1 (by decide)

/-- An index of the new contents is the new one or an old one. -/
theorem old_or_new (defined : Defines contents s)
    (owns : Defines contents t) (isIndex : DefinesIndex after t other) :
    (t = s ∧ other = index) ∨
    (DefinesIndex contents t other ∧ ¬ (t.name = s.name ∧ other.name = index.name)) := by
  by_cases same : indexMetadataKey t.name other.name = indexMetadataKey s.name index.name
  · obtain ⟨sameTable, sameName⟩ := indexMetadataKey_inj same
    obtain rfl := owns.unique defined sameTable
    have new : DefinesIndex after t index := ⟨adds.valid, adds.stored⟩
    exact .inl ⟨rfl, isIndex.unique (adds.defines.mpr defined) new sameName⟩
  · right
    refine ⟨⟨isIndex.valid, ?_⟩, fun both => same (by rw [both.1, both.2])⟩
    have stored := isIndex.stored
    rwa [adds.other _ same] at stored
    rintro ⟨tail, clash⟩
    exact absurd (List.cons.inj clash).1 (by decide)

theorem consistent (before : Consistent contents)
    (sorted : Sorted after) (defined : Defines contents s) : Consistent after := by
  refine ⟨sorted, fun rest value found => ?_, fun rest value found => ?_,
    fun rest value found => ?_, fun rest value found => ?_, fun t i row enc owns isIndex stored =>
      ?_⟩
  · rw [adds.lookup_of_kind (by decide) (by decide)] at found
    obtain ⟨t, owns, key⟩ := before.tables rest value found
    exact ⟨t, adds.defines.mpr owns, key⟩
  · by_cases new : 0x11 :: rest = indexMetadataKey s.name index.name
    · exact ⟨s, index, adds.defines.mpr defined, ⟨adds.valid, adds.stored⟩, new⟩
    · rw [adds.other _ new] at found
      · obtain ⟨t, i, owns, isIndex, key⟩ := before.indexes rest value found
        exact ⟨t, i, adds.defines.mpr owns, adds.keeps isIndex, key⟩
      · rintro ⟨tail, clash⟩
        exact absurd (List.cons.inj clash).1 (by decide)
  · rw [adds.lookup_of_kind (by decide) (by decide)] at found
    obtain ⟨t, row, enc, owns, encodes, key⟩ := before.rows rest value found
    exact ⟨t, row, enc, adds.defines.mpr owns, encodes, key⟩
  · by_cases new : indexEntryPrefix s.name index.name <+: 0x30 :: rest
    · obtain ⟨row, stored, isEntry⟩ := adds.sound _ _ new found
      exact ⟨s, index, row, adds.defines.mpr defined, ⟨adds.valid, adds.stored⟩,
        adds.stores.mpr stored, isEntry⟩
    · rw [adds.other _ (fun same => absurd (List.cons.inj same).1 (by decide)) new] at found
      obtain ⟨t, i, row, owns, isIndex, stored, isEntry⟩ := before.sound rest value found
      exact ⟨t, i, row, adds.defines.mpr owns, adds.keeps isIndex, adds.stores.mpr stored, isEntry⟩
  · have oldTable := adds.defines.mp owns
    have oldStored := adds.stores.mp stored
    rcases adds.old_or_new defined oldTable isIndex with ⟨rfl, rfl⟩ | ⟨oldIndex, otherNames⟩
    · exact adds.complete row enc oldStored
    obtain ⟨entry, isEntry, found⟩ := before.complete t i row enc oldTable oldIndex oldStored
    refine ⟨entry, isEntry, ?_⟩
    rw [adds.other]
    · exact found
    · obtain ⟨tail, kind⟩ := isEntry.kind
      rw [kind]
      exact fun same => absurd (List.cons.inj same).1 (by decide)
    · rintro ⟨tail, key⟩
      obtain ⟨front, begins⟩ := isEntry.starts
      obtain ⟨sameTable, sameName, -⟩ := indexEntryPrefix_append_inj (begins.trans key.symm)
      exact otherNames ⟨sameTable, sameName⟩

end AddsIndex

/-! ## Filling a new index -/

section Backfill

variable {s : TableSchema} {index : Index}

/-- The mutation that writes the entry of a row. -/
def Fills (s : TableSchema) (index : Index) (entry : Item) (mutation : Mutation) : Prop :=
  ∃ row, decodeRow s entry.value = .ok row ∧
    EntryFor s row (entry.key.drop (rowPrefix s.name).length) index ⟨mutation.key, mutation.value⟩ ∧
    mutation.delete = false

/-- What the loop guarantees; the values that it has seen belong to one row each. -/
structure Filled (s : TableSchema) (index : Index) (rows : List Item)
    (seen : List (Binding Bytes Bytes)) (mutations : List Mutation) : Prop where
  each : List.Forall₂ (Fills s index) rows mutations
  seen : index.unique = true → ∀ mutation ∈ mutations, ∀ value primaryKey,
    SortedMap.lookup seen value = some primaryKey →
    mutation.key = indexValuePrefix s.name index value → mutation.value = primaryKey
  once : index.unique = true → mutations.Pairwise fun left right =>
    left.key = right.key → left.value = right.value

variable {seen : List (Binding Bytes Bytes)}

/-- A value that was seen belongs to the row that comes next, if that has the same. -/
theorem lookup_seen {indexed primaryKey value other : Bytes}
    (fresh : ¬ (lookup seen indexed).any (· ≠ primaryKey) = true)
    (found : lookup seen value = some other) :
    lookup (put indexed primaryKey seen) value = some other := by
  by_cases same : value = indexed
  · subst same
    rw [found, any_some, decide_eq_true_eq, not_not] at fresh
    rw [lookup_put_self, fresh]
  · rwa [lookup_put_of_ne _ _ same]

theorem backfill_filled : ∀ {rows : List Item} {seen : List (Binding Bytes Bytes)}
    {mutations : List Mutation},
    backfill s index rows seen = .ok mutations → Filled s index rows seen mutations
  | [], seen, mutations, filled => by
    obtain rfl := Except.ok.inj filled
    exact ⟨.nil, fun _ _ mem => absurd mem not_mem_nil, fun _ => .nil⟩
  | entry :: rest, seen, mutations, filled => by
    obtain ⟨row, decoded, filled⟩ := bind_ok_iff.mp filled
    obtain ⟨indexed, encoded, filled⟩ := bind_ok_iff.mp filled
    dsimp only at filled
    rw [guard_eq_ok] at filled
    obtain ⟨fresh, filled⟩ := filled
    obtain ⟨others, below, same⟩ := bind_ok_iff.mp filled
    obtain rfl := Except.ok.inj same
    have tail := backfill_filled below
    have first : Fills s index entry ⟨indexEntryKey s.name index indexed
        (entry.key.drop (rowPrefix s.name).length), entry.key.drop (rowPrefix s.name).length,
          false⟩ :=
      ⟨row, decoded, ⟨indexed, encoded, rfl⟩, rfl⟩
    refine ⟨.cons first tail.each, fun unique mutation mem value primaryKey found key => ?_,
      fun unique => ?_⟩
    · have fresh := fun clash => fresh ⟨unique, clash⟩
      rcases mem_cons.mp mem with rfl | later
      · rw [indexEntryKey_of_unique unique] at key
        obtain rfl := append_cancel_left key
        rw [found, any_some, decide_eq_true_eq] at fresh
        exact (not_not.mp fresh).symm
      · refine tail.seen unique mutation later value primaryKey ?_ key
        rw [if_pos unique]
        exact lookup_seen fresh found
    · refine pairwise_cons.mpr ⟨fun mutation later key => ?_, tail.once unique⟩
      rw [indexEntryKey_of_unique unique] at key
      refine (tail.seen unique mutation later indexed _ ?_ key.symm).symm
      rw [if_pos unique, lookup_put_self]

/-- Mutations of one key write one value. -/
theorem Filled.value_eq {rows : List Item} {mutations : List Mutation}
    (filled : Filled s index rows seen mutations) {left right : Mutation}
    (isLeft : left ∈ mutations)
    (isRight : right ∈ mutations) (key : left.key = right.key) : left.value = right.value := by
  cases unique : index.unique with
  | true =>
    have once := filled.once unique
    have flipped := once.imp fun holds same => (holds (Eq.symm same)).symm
    exact once.forall_of_forall_of_flip (fun _ _ _ => rfl) flipped isLeft isRight key
  | false =>
    obtain ⟨_, -, _, -, isEntry, -⟩ := exists_left_of_mem filled.each isLeft
    obtain ⟨_, -, _, -, isOther, -⟩ := exists_left_of_mem filled.each isRight
    have same :=
      (isEntry.key_inj isOther key).resolve_left (by rw [unique]; exact Bool.false_ne_true)
    exact isEntry.value_eq.trans (same.trans isOther.value_eq.symm)

end Backfill

/-! ## The batch of a new index -/

section Batch

variable {contents : List Item} {s : TableSchema} {index : Index}

/-- The writes of a batch. -/
def batchWrites (mutations : List Mutation) : List (Binding Bytes (Option Bytes)) :=
  mutations.map fun mutation =>
    ⟨mutation.key, if mutation.delete then none else some mutation.value⟩

theorem foldl_apply_eq_play (mutations : List Mutation) (contents : List Item) :
    mutations.foldl Mutation.apply contents = play contents (batchWrites mutations) := by
  rw [play, batchWrites, foldl_map]
  refine congrFun (congrFun (congrArg List.foldl ?_) _) _
  funext data mutation
  exact Mutation.apply_eq_write data mutation

variable {entry : Item}

/-- The rows of a table as they are scanned. -/
theorem Consistent.scanned (agrees : Consistent contents) (defined : Defines contents s)
    (mem : entry ∈ contents.filter fun item => hasPrefix item.key (rowPrefix s.name)) :
    ∃ row enc, EncodesRow s row enc entry.value ∧ entry.key = rowPrefix s.name ++ enc := by
  obtain ⟨listed, starts⟩ := mem_filter.mp mem
  obtain ⟨tail, whole⟩ := hasPrefix_iff.mp starts
  have found := lookup_eq_some_of_mem agrees.sorted listed
  rw [← whole] at found
  obtain ⟨owner, row, enc, owns, encodes, key⟩ := agrees.rows _ _ found
  have same : rowPrefix s.name ++ tail = rowPrefix owner.name ++ enc := key
  obtain ⟨sameName, -⟩ := rowPrefix_append_inj same
  obtain rfl := defined.unique owns sameName
  exact ⟨row, enc, encodes, whole.symm.trans key⟩

/-- The entry that a mutation of the batch writes is that of a stored row. -/
theorem Fills.of_scanned {mutation : Mutation} (fills : Fills s index entry mutation)
    (valid : index.Valid s) {row : Row} {enc : Bytes} (encodes : EncodesRow s row enc entry.value)
    (key : entry.key = rowPrefix s.name ++ enc) :
    EntryFor s row enc index ⟨mutation.key, mutation.value⟩ := by
  obtain ⟨decoded, read, isEntry, -⟩ := fills
  rw [key, drop_left] at isEntry
  exact (EntryFor.congr (encodes.get_decoded read valid)).mp isEntry

/-- No entry is there before the index is. -/
theorem Consistent.no_entry (agrees : Consistent contents)
    (fresh : lookup contents (indexMetadataKey s.name index.name) = none) {key : Bytes}
    (starts : indexEntryPrefix s.name index.name <+: key) : lookup contents key = none := by
  obtain ⟨tail, rfl⟩ := starts
  by_contra present
  obtain ⟨value, found⟩ := ne_none_iff_exists'.mp present
  obtain ⟨owner, other, row, owns, isIndex, -, isEntry⟩ := agrees.sound _ _ found
  obtain ⟨front, begins⟩ := isEntry.starts
  have same : indexEntryPrefix owner.name other.name ++ front =
    indexEntryPrefix s.name index.name ++ tail := begins
  obtain ⟨sameTable, sameName, -⟩ := indexEntryPrefix_append_inj same
  have stored := isIndex.stored
  rw [sameTable, sameName, fresh] at stored
  cases stored

/-- The batch adds the index. -/
theorem Filled.addsIndex {mutations : List Mutation} (agrees : Consistent contents)
    (defined : Defines contents s) (valid : index.Valid s)
    (fresh : lookup contents (indexMetadataKey s.name index.name) = none)
    (filled : Filled s index (contents.filter fun item => hasPrefix item.key (rowPrefix s.name))
      [] mutations) :
    AddsIndex contents
      ((mutations ++
        [(⟨indexMetadataKey s.name index.name, encodeIndexMetadata index, false⟩ : Mutation)]).foldl
          Mutation.apply contents) s index := by
  have parts : batchWrites
      (mutations ++ [⟨indexMetadataKey s.name index.name, encodeIndexMetadata index, false⟩]) =
        batchWrites mutations ++
          [⟨indexMetadataKey s.name index.name, some (encodeIndexMetadata index)⟩] :=
    map_append
  rw [foldl_apply_eq_play, parts]
  -- every mutation writes the entry of a row
  have each (mutation : Mutation) (mem : mutation ∈ mutations) : mutation.delete = false ∧
      ∃ row, Stores contents s row mutation.value ∧
        EntryFor s row mutation.value index ⟨mutation.key, mutation.value⟩ := by
    obtain ⟨entry, listed, fills⟩ := exists_left_of_mem filled.each mem
    obtain ⟨row, enc, encodes, key⟩ := agrees.scanned defined listed
    have isEntry := fills.of_scanned valid encodes key
    obtain rfl : mutation.value = enc := isEntry.value_eq
    have stored := lookup_eq_some_of_mem agrees.sorted (mem_of_mem_filter listed)
    rw [key] at stored
    exact ⟨fills.choose_spec.2.2, row, ⟨entry.value, encodes, stored⟩, isEntry⟩
  have written (key : Bytes) (value : Option Bytes)
      (mem : (⟨key, value⟩ : Binding Bytes (Option Bytes)) ∈ batchWrites mutations) :
      ∃ mutation ∈ mutations, mutation.key = key ∧ value = some mutation.value := by
    obtain ⟨mutation, listed, same⟩ := mem_map.mp mem
    rw [(each mutation listed).1] at same
    obtain ⟨sameKey, sameValue⟩ := Binding.mk.inj same
    exact ⟨mutation, listed, sameKey, sameValue.symm⟩
  have entryKey (mutation : Mutation) (mem : mutation ∈ mutations) :
      indexEntryPrefix s.name index.name <+: mutation.key := by
    obtain ⟨-, row, -, isEntry⟩ := each mutation mem
    exact isEntry.starts
  have notMetadata {key : Bytes} (starts : indexEntryPrefix s.name index.name <+: key) :
      indexMetadataKey s.name index.name ≠ key := by
    rintro rfl
    obtain ⟨tail, clash⟩ := starts
    exact absurd (List.cons.inj clash).1 (by decide)
  refine ⟨valid, fresh, ?_, fun key value starts found => ?_, fun row enc stored => ?_,
    fun key ne outside => ?_⟩
  · rw [lookup_play, latest_append, latest_cons, latest_nil, none_or,
      if_pos rfl]
    rfl
  · rw [lookup_play, latest_append, latest_cons, latest_nil, none_or,
      if_neg (notMetadata starts), none_or] at found
    cases last : latest (batchWrites mutations) key with
    | none =>
      rw [last, getD_none, agrees.no_entry fresh starts] at found
      cases found
    | some result =>
      obtain ⟨mutation, mem, rfl, rfl⟩ := written key result (mem_of_latest_eq_some last)
      rw [last, getD_some] at found
      obtain rfl := some.inj found
      exact (each mutation mem).2
  · obtain ⟨value, encodes, found⟩ := stored
    have listed : (⟨rowPrefix s.name ++ enc, value⟩ : Item) ∈
        contents.filter fun item => hasPrefix item.key (rowPrefix s.name) :=
      mem_filter.mpr ⟨mem_of_lookup_eq_some found, hasPrefix_iff.mpr (prefix_append _ _)⟩
    obtain ⟨mutation, mem, fills⟩ := exists_right_of_mem filled.each listed
    have isEntry := fills.of_scanned valid encodes rfl
    refine ⟨_, isEntry, ?_⟩
    rw [lookup_play, latest_append, latest_cons, latest_nil, none_or,
      if_neg (notMetadata isEntry.starts), none_or]
    cases last : latest (batchWrites mutations) mutation.key with
    | none =>
      have listed : (⟨mutation.key, if mutation.delete then none else some mutation.value⟩ :
          Binding Bytes (Option Bytes)) ∈ batchWrites mutations := mem_map_of_mem mem
      exact absurd rfl (ne_of_lookup_eq_none last _ (mem_reverse.mpr listed))
    | some result =>
      obtain ⟨other, isOther, sameKey, rfl⟩ :=
        written mutation.key result (mem_of_latest_eq_some last)
      rw [getD_some, filled.value_eq isOther mem sameKey]
      exact congrArg some isEntry.value_eq
  · rw [lookup_play, latest_append, latest_cons, latest_nil, none_or,
      if_neg (Ne.symm ne), none_or, latest_eq_none, getD_none]
    intro entry mem same
    obtain ⟨mutation, isMutation, rfl⟩ := mem_map.mp mem
    rw [← same] at outside
    exact outside (entryKey mutation isMutation)

end Batch

/-! ## The two methods -/

section Methods

variable {σ : Type} {store : Store σ} {view : σ → List Item}

variable {d : Database σ} {t : Table}

theorem indexBatch_eq_ok (exact : store.Models view) {index : Index}
    {mutations : List Mutation} (batch : indexBatch store d t index = .ok mutations)
    (defined : Defines (d.contents view) t.schema) :
    validateIndex index t.schema = .ok () ∧
      lookup (d.contents view) (indexMetadataKey t.schema.name index.name) = none ∧
      ∃ filled, Filled t.schema index
          ((d.contents view).filter fun item => hasPrefix item.key (rowPrefix t.schema.name))
          [] filled ∧
        mutations = filled ++
          [⟨indexMetadataKey t.schema.name index.name, encodeIndexMetadata index, false⟩] := by
  obtain ⟨⟨⟩, valid, batch⟩ := bind_ok_iff.mp batch
  rw [guard_eq_ok] at batch
  obtain ⟨-, batch⟩ := batch
  have nonempty : indexMetadataKey t.schema.name index.name ≠ [] := cons_ne_nil _ _
  dsimp only at batch
  rw [getLocked_exact exact d nonempty, ok_bind] at batch
  cases found : lookup (d.contents view) (indexMetadataKey t.schema.name index.name) with
  | some value =>
    rw [found] at batch
    cases batch
  | none =>
    rw [found] at batch
    dsimp only at batch
    rw [defined.tableRowsLocked_eq exact, ok_bind] at batch
    obtain ⟨filled, run, same⟩ := bind_ok_iff.mp batch
    exact ⟨valid, rfl, filled, backfill_filled run, (Except.ok.inj same).symm⟩

section

variable (exact : store.Models view) (agrees : Consistent (d.contents view))
include exact agrees

/-- Creating a table keeps the contents consistent. -/
theorem createTable_consistent
    (schema : TableSchema) : Consistent ((createTable store d schema).2.contents view) := by
  rcases createTable_spec exact d schema with ⟨-, same⟩ | ⟨valid, absent, small, -, published⟩
  · rwa [same]
  · rw [published]
    exact agrees.put_descriptor (validateSchema_eq_ok.mp valid) small absent

/-- So does creating an index through the handle of a table that is there. -/
theorem createIndex_consistent (defined : Defines (d.contents view) t.schema) (index : Index) :
    Consistent ((t.createIndex store d index).2.1.contents view) := by
  rcases createIndex_spec exact d t index with ⟨-, same⟩ |
    ⟨indexes, mutations, -, batch, -, published⟩
  · rwa [same]
  · obtain ⟨valid, fresh, filled, isFilled, rfl⟩ := indexBatch_eq_ok exact batch defined
    rw [published]
    refine (isFilled.addsIndex agrees defined ((validateIndex_eq_ok defined.valid).mp valid)
      fresh).consistent agrees ?_ defined
    rw [foldl_apply_eq_play]
    exact sorted_play agrees.sorted _

end

end Methods

end GoDatabase.Db
