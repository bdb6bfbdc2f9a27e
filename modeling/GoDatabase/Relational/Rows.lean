import GoDatabase.Relational.Mirror
import Mathlib.Data.List.Sort

/-!
# Reading rows

What the reading methods of a table return when the contents are consistent.  A table is
the list of its encoded primary keys, in order, with the row under each; a scan returns
all of them, a range those within the bounds, and an index the ones with a given value.
-/

namespace GoDatabase.Db

open Library SortedMap List

/-! ## The rows of a table -/

/-- The encoded primary keys of a table, in order. -/
def primaryKeys (contents : List Item) (name : Bytes) : List Bytes :=
  (contents.filter fun item => hasPrefix item.key (rowPrefix name)).map fun item =>
    item.key.drop (rowPrefix name).length

/-- The row under an encoded primary key, as the methods return it. -/
def rowUnder (contents : List Item) (s : TableSchema) (pk : Bytes) : Row :=
  match SortedMap.lookup contents (rowPrefix s.name ++ pk) with
  | none => []
  | some value =>
    match decodeRow s value, decodePrimaryKey (findPrimary s) pk with
    | .ok row, .ok primary => SortedMap.put (findPrimary s).name primary row
    | _, _ => []

section Contents

variable {contents : List Item} {s : TableSchema}

variable {pk : Bytes}

theorem mem_primaryKeys (sorted : Sorted contents) {name : Bytes} :
    pk ∈ primaryKeys contents name ↔ ∃ value, lookup contents (rowPrefix name ++ pk) =
      some value := by
  rw [primaryKeys, mem_map]
  constructor
  · rintro ⟨item, listed, rfl⟩
    obtain ⟨mem, starts⟩ := mem_filter.mp listed
    obtain ⟨tail, whole⟩ := hasPrefix_iff.mp starts
    rw [← whole, drop_left, whole]
    exact ⟨item.value, lookup_eq_some_of_mem sorted mem⟩
  · rintro ⟨value, found⟩
    refine ⟨⟨rowPrefix name ++ pk, value⟩, mem_filter.mpr ⟨mem_of_lookup_eq_some found, ?_⟩,
      drop_left⟩
    exact hasPrefix_iff.mpr (prefix_append _ _)

theorem sorted_primaryKeys (sorted : Sorted contents) (name : Bytes) :
    (primaryKeys contents name).SortedLT := by
  rw [sortedLT_iff_pairwise, primaryKeys, pairwise_map]
  refine (List.Pairwise.filter _ sorted).imp_of_mem fun {left right} isLeft isRight less => ?_
  obtain ⟨leftTail, leftWhole⟩ := hasPrefix_iff.mp (mem_filter.mp isLeft).2
  obtain ⟨rightTail, rightWhole⟩ := hasPrefix_iff.mp (mem_filter.mp isRight).2
  rw [← leftWhole, ← rightWhole, append_lt_append_left] at less
  rw [← leftWhole, ← rightWhole, drop_left, drop_left]
  exact less

/-- The row that was written is returned with every column of the schema. -/
theorem Stores.rowUnder_eq {row : Row} {enc : Bytes} (stores : Stores contents s row enc) :
    rowUnder contents s enc = row.complete s := by
  obtain ⟨value, encodes, found⟩ := stores
  rw [rowUnder, found]
  dsimp only
  rw [encodes.decodeRow_eq, encodes.decodePrimaryKey_eq]
  rfl

theorem Consistent.stores_of_mem (agrees : Consistent contents) (defined : Defines contents s)
    (mem : pk ∈ primaryKeys contents s.name) : ∃ row, Stores contents s row pk := by
  obtain ⟨value, found⟩ := (mem_primaryKeys agrees.sorted).mp mem
  obtain ⟨row, encodes⟩ := agrees.stored_row defined found
  exact ⟨row, value, encodes, found⟩

end Contents

section Methods

variable {σ : Type} {store : Store σ} {view : σ → List Item} {d : Database σ} {t : Table}

/-! ## Scans and ranges -/

variable {entries : List Item}

/-- The loop over items of the contents skips what is no row of the table. -/
theorem decodeRows_eq {contents : List Item} (agrees : Consistent contents)
    (defined : Defines contents t.schema) (listed : ∀ entry ∈ entries, entry ∈ contents) :
    t.decodeRows entries =
      .ok ((entries.filter fun item => hasPrefix item.key (rowPrefix t.schema.name)).map fun item =>
        rowUnder contents t.schema (item.key.drop (rowPrefix t.schema.name).length)) := by
  induction entries with
  | nil => rfl
  | cons entry rest ih =>
    obtain ⟨mem, others⟩ := forall_mem_cons.mp listed
    rw [Table.decodeRows]
    by_cases starts : hasPrefix entry.key (rowPrefix t.schema.name) = true
    · obtain ⟨row, enc, encodes, whole⟩ := agrees.scanned defined (mem_filter.mpr ⟨mem, starts⟩)
      have found := lookup_eq_some_of_mem agrees.sorted mem
      rw [whole] at found
      rw [if_neg (not_not.mpr starts), filter_cons, if_pos starts, ih others,
        encodes.decodeRow_eq, whole, drop_left, map_cons, whole, drop_left,
          encodes.decodePrimaryKey_eq,
        Stores.rowUnder_eq ⟨_, encodes, found⟩]
      rfl
    · rw [if_pos starts, filter_cons, if_neg starts]
      exact ih others

theorem Table.length_rowKey (t : Table) {value : Value} {key : Bytes}
    (isKey : t.rowKey value = .ok key) : key.length ≤ 1000 := by
  obtain ⟨encoded, -, fits⟩ := bind_ok_iff.mp isKey
  dsimp only at fits
  rw [guard_eq_ok] at fits
  rw [← Except.ok.inj fits.2]
  exact not_lt.mp fits.1

section

variable (exact : store.Models view) (agrees : Consistent (d.contents view))
  (defined : Defines (d.contents view) t.schema) (isOpen : d.closed = false)
include exact agrees defined isOpen

theorem scan_eq : t.scan store d =
      .ok ((primaryKeys (d.contents view) t.schema.name).map
        (rowUnder (d.contents view) t.schema)) := by
  rw [Table.scan, isOpen, if_neg Bool.false_ne_true, defined.tableRowsLocked_eq exact, ok_bind,
    decodeRows_eq agrees defined fun entry mem => mem_of_mem_filter mem, filter_filter]
  simp only [Bool.and_self, primaryKeys, map_map]
  rfl

theorem range_eq {start stop : Value} {low high : Bytes}
    (startKey : t.rowKey start = .ok (rowPrefix t.schema.name ++ low))
    (stopKey : t.rowKey stop = .ok (rowPrefix t.schema.name ++ high)) : t.range store d start stop =
      .ok (((primaryKeys (d.contents view) t.schema.name).filter fun pk =>
        decide (low ≤ pk ∧ pk ≤ high)).map
        (rowUnder (d.contents view) t.schema)) := by
  rw [Table.range, isOpen, if_neg Bool.false_ne_true, startKey, stopKey]
  simp only [ok_bind]
  by_cases reversed : rowPrefix t.schema.name ++ high < rowPrefix t.schema.name ++ low
  · have none : (primaryKeys (d.contents view) t.schema.name).filter
        (fun pk => decide (low ≤ pk ∧ pk ≤ high)) = [] := by
      rw [append_lt_append_left] at reversed
      refine filter_eq_nil_iff.mpr fun pk _ inside => ?_
      obtain ⟨above, below⟩ := of_decide_eq_true inside
      exact absurd (above.trans below) (not_le.mpr reversed)
    rw [if_pos reversed, none]
    rfl
  · rw [if_neg reversed, rangeLocked_exact exact (.inl (t.length_rowKey startKey))
        (.inl (t.length_rowKey stopKey)), ok_bind,
      decodeRows_eq agrees defined fun entry mem => mem_of_mem_filter mem, primaryKeys,
      filter_map, map_map, filter_filter, filter_filter]
    -- Among the rows of the table the bounds are those of the primary keys.
    have bounds : ∀ item : Item, (hasPrefix item.key (rowPrefix t.schema.name) &&
          between (rowPrefix t.schema.name ++ low) (rowPrefix t.schema.name ++ high) item) =
        (decide (low ≤ item.key.drop (rowPrefix t.schema.name).length ∧
            item.key.drop (rowPrefix t.schema.name).length ≤ high) &&
          hasPrefix item.key (rowPrefix t.schema.name)) := by
      intro item
      rw [Bool.and_comm]
      by_cases starts : hasPrefix item.key (rowPrefix t.schema.name) = true
      · obtain ⟨tail, whole⟩ := hasPrefix_iff.mp starts
        rw [starts, Bool.and_true, Bool.and_true, between, ← whole, drop_left]
        simp only [append_le_append_left, Bool.decide_and]
      · rw [Bool.eq_false_iff.mpr starts, Bool.and_false, Bool.and_false]
    simp only [bounds]
    rfl

/-! ## Single rows -/

theorem get_eq {primaryKey : Value} {enc : Bytes}
    (key : t.rowKey primaryKey = .ok (rowPrefix t.schema.name ++ enc)) : t.get store d primaryKey =
      .ok ((lookup (d.contents view) (rowPrefix t.schema.name ++ enc)).map fun _ =>
        rowUnder (d.contents view) t.schema enc) := by
  rw [Table.get, isOpen, if_neg Bool.false_ne_true, key, ok_bind,
    getLocked_exact exact d (rowPrefix_append_ne_nil _ _), ok_bind]
  cases found : lookup (d.contents view) (rowPrefix t.schema.name ++ enc) with
  | none => rfl
  | some value =>
    obtain ⟨row, encodes⟩ := agrees.stored_row defined found
    obtain ⟨other, encoded, -, whole⟩ := rowKey_eq_ok.mp key
    obtain rfl := append_cancel_left whole
    have same := encodeValue_inj (encodeValue_of_encodes encodes.primary) encoded
    dsimp only
    rw [encodes.decodeRow_eq, ok_bind, Option.map_some,
      Stores.rowUnder_eq ⟨_, encodes, found⟩, ← same]
    rfl

end

/-! ## Lookups in an index -/

section Indexed

variable {contents : List Item} {s : TableSchema} {index : Index} {value : Value} {encoded : Bytes}

section

variable (agrees : Consistent contents) (defined : Defines contents s)
include agrees defined

/-- An entry under the prefix of a value. -/
theorem Consistent.entry_under (isIndex : DefinesIndex contents s index)
    (encodes : encodeIndexValue (columnByName s index.column) value = .ok encoded) {entry : Item}
    (mem : entry ∈ contents) (starts : indexValuePrefix s.name index encoded <+: entry.key) :
    ∃ row, RowAt contents s entry.value row ∧
      encodeIndexValue (columnByName s index.column) (row.get index.column) = .ok encoded ∧
      entry.key = indexEntryKey s.name index encoded entry.value := by
  have found := lookup_eq_some_of_mem agrees.sorted mem
  have begins : indexEntryPrefix s.name index.name <+: entry.key := (prefix_append _ _).trans starts
  obtain ⟨row, isRow, own, indexed, whole⟩ := (agrees.lookup_entry defined isIndex begins).mp found
  have key : entry.key = indexEntryKey s.name index own entry.value := congrArg Binding.key whole
  obtain ⟨tail, isTail⟩ := starts
  -- The value can be read off the key, so that the entry has the value that is looked for.
  have same : ∃ rest, own ++ rest = encoded ++ tail := by
    rw [key, indexEntryKey, indexValuePrefix, indexValuePrefix, append_assoc] at isTail
    split_ifs at isTail
    · exact ⟨[], by rw [append_nil]; exact (append_cancel_left isTail).symm⟩
    · rw [append_assoc] at isTail
      exact ⟨_, (append_cancel_left isTail).symm⟩
  obtain ⟨rest, same⟩ := same
  obtain ⟨values, -⟩ := encodeIndexValue_delimited _ indexed encodes same
  rw [values, encodes] at indexed
  obtain rfl := Except.ok.inj indexed
  exact ⟨row, isRow, values ▸ encodes, key⟩

/-- The column of an index in the row that is returned. -/
theorem RowAt.get_rowUnder
    (valid : index.Valid s) {pk : Bytes} {row : Row} (isRow : RowAt contents s pk row) :
    (rowUnder contents s pk).get index.column = row.get index.column := by
  obtain ⟨data, found, decoded⟩ := isRow
  obtain ⟨stored, encodes⟩ := agrees.stored_row defined found
  obtain ⟨column, mem, named, -⟩ := valid.column
  rw [Stores.rowUnder_eq ⟨_, encodes, found⟩, encodes.get_decoded decoded valid, Row.get,
    Row.lookup_complete defined.valid, ← named, defined.valid.findColumn_name mem]
  rfl

/-- The entries under the prefix of a value are in the order of the primary keys. -/
theorem Consistent.sorted_entries (isIndex : DefinesIndex contents s index)
    (encodes : encodeIndexValue (columnByName s index.column) value = .ok encoded) :
    ((contents.filter fun item => hasPrefix item.key (indexValuePrefix s.name index encoded)).map
      Binding.value).SortedLT := by
  rw [sortedLT_iff_pairwise, pairwise_map]
  refine (List.Pairwise.filter _ agrees.sorted).imp_of_mem fun {left right} isLeft isRight less =>
    ?_
  obtain ⟨leftMember, leftStarts⟩ := mem_filter.mp isLeft
  obtain ⟨rightMember, rightStarts⟩ := mem_filter.mp isRight
  obtain ⟨_, -, -, leftKey⟩ :=
    agrees.entry_under defined isIndex encodes leftMember (hasPrefix_iff.mp leftStarts)
  obtain ⟨_, -, -, rightKey⟩ :=
    agrees.entry_under defined isIndex encodes rightMember (hasPrefix_iff.mp rightStarts)
  rw [leftKey, rightKey, indexEntryKey, indexEntryKey] at less
  -- A unique index has one entry under the prefix at most.
  split_ifs at less
  · exact absurd less (lt_irrefl _)
  · exact (append_lt_append_left _).mp less

/-- The primary keys under the prefix of a value are those of the rows with the value. -/
theorem Consistent.entries_eq (isIndex : DefinesIndex contents s index)
    (encodes : encodeIndexValue (columnByName s index.column) value = .ok encoded) :
    (contents.filter fun item => hasPrefix item.key (indexValuePrefix s.name index encoded)).map
      Binding.value = (primaryKeys contents s.name).filter fun pk =>
        decide ((rowUnder contents s pk).get index.column = value) := by
  refine (agrees.sorted_entries defined isIndex encodes).eq_of_mem_iff
    (List.Pairwise.filter _ (sorted_primaryKeys agrees.sorted s.name).pairwise).sortedLT fun pk =>
      ?_
  rw [mem_map, mem_filter, decide_eq_true_eq]
  constructor
  · rintro ⟨entry, listed, rfl⟩
    obtain ⟨mem, starts⟩ := mem_filter.mp listed
    obtain ⟨row, isRow, indexed, -⟩ :=
      agrees.entry_under defined isIndex encodes mem (hasPrefix_iff.mp starts)
    obtain ⟨data, found, -⟩ := id isRow
    refine ⟨(mem_primaryKeys agrees.sorted).mpr ⟨data, found⟩, ?_⟩
    rw [isRow.get_rowUnder agrees defined isIndex.valid]
    exact encodeValue_inj indexed encodes
  · rintro ⟨mem, same⟩
    obtain ⟨stored, data, isStored, found⟩ := agrees.stores_of_mem defined mem
    have isRow : RowAt contents s pk _ := ⟨data, found, isStored.decodeRow_eq⟩
    obtain ⟨entry, ⟨own, indexed, rfl⟩, present⟩ := agrees.exists_entry defined isIndex isRow
    rw [← isRow.get_rowUnder agrees defined isIndex.valid, same, encodes] at indexed
    obtain rfl := Except.ok.inj indexed
    refine ⟨_, mem_filter.mpr ⟨mem_of_lookup_eq_some present, hasPrefix_iff.mpr ?_⟩, rfl⟩
    rw [indexEntryKey]
    split_ifs
    · exact prefix_rfl
    · exact prefix_append _ _

end

end Indexed

/-- The loop of `FindByIndex` over items of the contents. -/
theorem indexedRows_eq (exact : store.Models view) (agrees : Consistent (d.contents view))
    (defined : Defines (d.contents view) t.schema) {index : Index}
    (isIndex : DefinesIndex (d.contents view) t.schema index) {value : Value} {encoded : Bytes}
    (encodes : encodeIndexValue (columnByName t.schema index.column) value = .ok encoded)
    (listed : ∀ entry ∈ entries, entry ∈ d.contents view) :
    t.indexedRows store d index encoded (indexValuePrefix t.schema.name index encoded) entries =
      .ok ((entries.filter fun item => hasPrefix item.key
        (indexValuePrefix t.schema.name index encoded)).map fun item => rowUnder
          (d.contents view) t.schema item.value) := by
  induction entries with
  | nil => rfl
  | cons entry rest ih =>
    obtain ⟨mem, others⟩ := forall_mem_cons.mp listed
    rw [Table.indexedRows]
    by_cases starts : hasPrefix entry.key (indexValuePrefix t.schema.name index encoded) = true
    · obtain ⟨row, isRow, indexed, key⟩ :=
        agrees.entry_under defined isIndex encodes mem (hasPrefix_iff.mp starts)
      have primaryKey : (if index.unique then entry.value
          else entry.key.drop (indexValuePrefix t.schema.name index encoded).length) =
            entry.value := by
        rw [key, indexEntryKey]
        split_ifs
        · rfl
        · exact drop_left
      have accepted : ¬ ((index.unique = true ∧
            entry.key.length ≠ (indexValuePrefix t.schema.name index encoded).length) ∨
          (¬ index.unique = true ∧ entry.value ≠ entry.value)) := by
        rintro (⟨unique, ne⟩ | ⟨-, ne⟩)
        · rw [key, indexEntryKey, if_pos unique] at ne
          exact ne rfl
        · exact ne rfl
      obtain ⟨data, found, decoded⟩ := isRow
      obtain ⟨stored, isStored⟩ := agrees.stored_row defined found
      rw [if_neg (not_not.mpr starts), filter_cons, if_pos starts, map_cons, primaryKey,
        if_neg accepted, getLocked_exact exact d (rowPrefix_append_ne_nil _ _), found, ok_bind]
      dsimp only
      rw [decoded, ok_bind, indexed]
      dsimp only
      rw [if_neg (not_not.mpr rfl), isStored.decodePrimaryKey_eq, ok_bind, ih others, ok_bind,
        rowUnder, found]
      dsimp only
      rw [decoded, isStored.decodePrimaryKey_eq]
      rfl
    · rw [if_pos starts, filter_cons, if_neg starts]
      exact ih others

/-- An index returns the rows of a scan that have the value. -/
theorem findByIndex_eq (exact : store.Exact view) (agrees : Consistent (d.contents view))
    (defined : Defines (d.contents view) t.schema) (isOpen : d.closed = false) {index : Index}
    (isIndex : DefinesIndex (d.contents view) t.schema index) {value : Value} {encoded : Bytes}
    (encodes : encodeIndexValue (columnByName t.schema index.column) value = .ok encoded) :
    (t.findByIndex store d index.name value).1 =
      .ok (((primaryKeys (d.contents view) t.schema.name).map
        (rowUnder (d.contents view) t.schema)).filter fun row => decide
          (row.get index.column = value)) := by
  obtain ⟨indexes, loaded, names⟩ := agrees.indexesOf_eq_ok defined
  have known := (names index.name index).mpr ⟨isIndex, rfl⟩
  have kind : (0x30 : UInt8) ∈ indexValuePrefix t.schema.name index encoded := mem_cons_self ..
  have scanned := filter_scan kind (by decide) (d.contents view)
  rw [Table.findByIndex, isOpen, if_neg Bool.false_ne_true, Table.refreshIndexesLocked,
    defined.loadIndexesLocked_eq exact.toModels, loaded]
  dsimp only
  rw [known]
  dsimp only
  rw [encodes, ok_bind, rangeLocked_unbounded exact, ok_bind,
    indexedRows_eq (t := ⟨t.schema, indexes⟩) exact.toModels agrees defined isIndex encodes]
  · have keys := agrees.entries_eq defined isIndex encodes
    have split : ((d.contents view).filter fun item =>
        hasPrefix item.key (indexValuePrefix t.schema.name index encoded)).map
          (fun item => rowUnder (d.contents view) t.schema item.value) =
        (((d.contents view).filter fun item =>
          hasPrefix item.key (indexValuePrefix t.schema.name index encoded)).map Binding.value).map
            (rowUnder (d.contents view) t.schema) := by
      rw [map_map]
      rfl
    dsimp only
    rw [scanned, split, keys, filter_map]
    rfl
  · exact fun entry mem => mem_of_mem_filter mem

/-! ## In a run -/

variable {s : System σ} {i : Nat}

theorem tableScan_outcome (here : s.tables[i]? = some t) :
    (s.step store (.tableScan i)).1 = .rows (t.scan store s.db) := by
  rw [System.step, withTable_outcome, here]
  rfl

theorem findByIndex_outcome (here : s.tables[i]? = some t) (indexName : Bytes) (value : Value) :
    (s.step store (.findByIndex i indexName value)).1 =
      .rows (t.findByIndex store s.db indexName value).1 := by
  rw [System.step, withTable_outcome, here]
  rfl

/-- A lookup in an index returns the rows of a scan whose column has the value, in the
order of the scan. -/
theorem index_lookup_is_filtered_scan (exact : store.Exact view) {backend : Backend σ}
    (fresh : (System.opened backend).db.contents view = []) {events : Events}
    (run : Run store (System.opened backend) events s) (respectful : Respectful events)
    (isOpen : s.db.closed = false) (here : s.tables[i]? = some t) {indexName metadata : Bytes}
    {index : Index}
    (definition : SortedMap.lookup (s.db.contents view) (indexMetadataKey t.schema.name indexName) =
      some metadata)
    (decoded : decodeIndexMetadata indexName metadata = .ok index) {value : Value}
    (admits : (columnByName t.schema index.column).Admits value) :
    ∃ rows, (s.step store (.tableScan i)).1 = .rows (.ok rows) ∧
      (s.step store (.findByIndex i indexName value)).1 =
        .rows (.ok (rows.filter fun row => decide (row.get index.column = value))) := by
  obtain ⟨journals, coherent⟩ := run.coherent exact.toModels fresh respectful
  have agrees := coherent.consistent
  have defined := coherent.handles t (List.mem_of_getElem? here)
  obtain ⟨isIndex, rfl⟩ := agrees.definesIndex_of_metadata defined definition decoded
  obtain ⟨encoded, encodes⟩ := admits.encodeIndexValue_eq (isIndex.valid.known_column defined.valid)
  rw [tableScan_outcome here, findByIndex_outcome here,
    scan_eq exact.toModels agrees defined isOpen,
    findByIndex_eq exact agrees defined isOpen isIndex encodes]
  exact ⟨_, rfl, rfl⟩

theorem index_lookup_is_filtered_scan_null :
    ∃ (s : System SortedItems) (events : Events),
      Run mapStore (System.opened (.memory [])) events s ∧
        ∃ rows, (s.step mapStore (.tableScan 0)).1 = .rows (.ok rows) ∧
          (s.step mapStore (.findByIndex 0 [1] .null)).1 =
            .rows (.ok (rows.filter fun row => decide (row.get [2] = .null))) := by
  have run : Run mapStore (System.opened (.memory [])) _ _ :=
    ((Run.start.call (.createTable flagSchema)).call (.createIndex 0 flagIndex)).call
      (.tableRow 0 (.insert [⟨[1], .string [7]⟩] .sorted))
  exact ⟨_, _, run, @index_lookup_is_filtered_scan _ _ Subtype.val ⟨flagSchema, [⟨[1], flagIndex⟩]⟩
    _ 0 mapStore_exact _ rfl _ run
      (by simp only [respectful_snoc, respectful_nil, Call.Respects, and_self]) rfl rfl [1]
    (encodeIndexMetadata flagIndex) flagIndex (by decide) (by decide) .null rfl⟩

end Methods

end GoDatabase.Db
