import GoDatabase.Relational.Catalog

/-!
# The descriptor format

The decoder of a table descriptor is given once more with its positions and with the panic
on an index out of range as an outcome; no input panics.  It accepts only descriptors of
valid schemas, and only as `encodeDescriptor` writes them.
-/

namespace GoDatabase

open Library List

/-! ## The decoder with its panics -/

/-- The loop of `decodeDescriptor` with its position. -/
def decodeDefinitions? (pk : Nat) (b : Bytes) : (count i p : Nat) → List Column →
    Option (Except GoError (List Column))
  | 0, _, p, columns => some (if p ≠ b.length then .error errInvalidSchema else .ok columns)
  | count + 1, i, p, columns =>
    if b.length < p + 6 then some (.error errInvalidSchema)
    else do
      let id ← readLE? b p 2
      let typ ← b[p + 2]?
      let flags ← b[p + 3]?
      let l ← readLE? b (p + 4) 2
      if id ≠ i + 1 ∨ 1 < flags ∨ (id = pk ∧ flags ≠ 0) ∨ b.length < p + 6 + l then
        some (.error errInvalidSchema)
      else do
        let name ← slice? b (p + 6) l
        decodeDefinitions? pk b count (i + 1) (p + 6 + l)
          (columns ++ [⟨name, typ, id = pk, flags &&& 1 ≠ 0 ∧ id ≠ pk⟩])

def decodeDescriptor? (b : Bytes) : Option (Except GoError TableSchema) :=
  if b.length < 6 then some (.error errInvalidSchema)
  else do
    let magic ← slice? b 0 4
    if magic ≠ descriptorMagic then some (.error errInvalidSchema)
    else do
      let version ← readLE? b 4 2
      if version ≠ 2 then some (.error (unsupported errInvalidSchema))
      else if b.length < 18 ∨ 3000 < b.length then some (.error errInvalidSchema)
      else do
        let flags ← b[6]?
        let reserved ← b[7]?
        let schemaVersion ← readLE? b 8 4
        if flags ≠ 0 ∨ reserved ≠ 0 ∨ schemaVersion ≠ 1 then some (.error errInvalidSchema)
        else do
          let nl ← readLE? b 12 2
          if b.length < 14 + nl + 4 then some (.error errInvalidSchema)
          else do
            let name ← slice? b 14 nl
            let pk ← readLE? b (14 + nl) 2
            let n ← readLE? b (14 + nl + 2) 2
            match ← decodeDefinitions? pk b n 0 (18 + nl) [] with
            | .error err => some (.error err)
            | .ok columns =>
              match validateSchema ⟨name, columns⟩ with
              | .error err => some (.error err)
              | .ok () => some (.ok ⟨name, columns⟩)

/-! ## No panic -/

section Definitions

variable {pk count id : Nat} {data : Bytes}

theorem decodeDefinitions_short (short : data.length < 6) :
    decodeDefinitions pk (count + 1) id data = .error errInvalidSchema := by
  match data, short with
  | [], _ | [_], _ | [_, _], _ | [_, _, _], _ | [_, _, _, _], _ | [_, _, _, _, _], _ => rfl

/-- One round of the loop, with its fields read by position. -/
theorem decodeDefinitions_long {typ flags : UInt8} (long : 6 ≤ data.length)
    (isType : data[2]? = some typ) (isFlags : data[3]? = some flags) :
    decodeDefinitions pk (count + 1) id data =
      if readLE data 0 2 ≠ id ∨ 1 < flags ∨ (readLE data 0 2 = pk ∧ flags ≠ 0) ∨
          (data.drop 6).length < readLE data 4 2 then
        .error errInvalidSchema
      else do
        let others ← decodeDefinitions pk count (id + 1) ((data.drop 6).drop (readLE data 4 2))
        return ⟨(data.drop 6).take (readLE data 4 2), typ, readLE data 0 2 = pk,
          flags &&& 1 ≠ 0 ∧ readLE data 0 2 ≠ pk⟩ :: others := by
  match data, long with
  | low :: high :: _ :: _ :: lengthLow :: lengthHigh :: rest, _ =>
    cases isType
    cases isFlags
    rfl

end Definitions

/-- The loop decodes what is left of the descriptor. -/
theorem decodeDefinitions?_eq (pk : Nat) (b : Bytes) : ∀ count i p columns, p ≤ b.length →
    decodeDefinitions? pk b count i p columns =
      some ((decodeDefinitions pk count (i + 1) (b.drop p)).map (columns ++ ·)) := by
  intro count
  induction count with
  | zero =>
    intro i p columns inside
    rw [decodeDefinitions?, decodeDefinitions]
    by_cases ended : p = b.length
    · rw [if_neg (not_not.mpr ended), if_neg (not_not.mpr (drop_eq_nil_iff.mpr ended.ge)),
        Except.map, append_nil]
    · have left : b.drop p ≠ [] := by
        rw [ne_eq, drop_eq_nil_iff]
        omega
      rw [if_pos ended, if_pos left]
      rfl
  | succ count ih =>
    intro i p columns inside
    rw [decodeDefinitions?]
    by_cases room : b.length < p + 6
    · rw [if_pos room, decodeDefinitions_short (by rw [length_drop]; omega)]
      rfl
    have typ : b[p + 2]? = some b[p + 2] := List.getElem?_eq_getElem (by omega)
    have flags : b[p + 3]? = some b[p + 3] := List.getElem?_eq_getElem (by omega)
    rw [if_neg room, readLE?_eq (by omega), readLE?_eq (by omega), typ, flags,
      decodeDefinitions_long (by rw [length_drop]; omega) (by rw [List.getElem?_drop, typ])
        (by rw [List.getElem?_drop, flags])]
    simp only [Option.bind_eq_bind, Option.bind_some, readLE_drop, drop_drop, length_drop,
      Nat.add_zero]
    have enough : b.length < p + 6 + readLE b (p + 4) 2 ↔
        b.length - (p + 6) < readLE b (p + 4) 2 := by omega
    simp only [enough]
    by_cases rejected : readLE b p 2 ≠ i + 1 ∨ 1 < b[p + 3] ∨ (readLE b p 2 = pk ∧ b[p + 3] ≠ 0) ∨
        b.length - (p + 6) < readLE b (p + 4) 2
    · rw [if_pos rejected, if_pos rejected]
      rfl
    rw [if_neg rejected, if_neg rejected]
    simp only [not_or, not_lt] at rejected
    rw [slice?_eq (by omega), Option.bind_some, ih _ _ _ (by omega)]
    change _ = some (Except.map (columns ++ ·) (decodeDefinitions pk count (i + 1 + 1) _ >>= _))
    cases decodeDefinitions pk count (i + 1 + 1) (b.drop (p + 6 + readLE b (p + 4) 2)) with
    | error err => rfl
    | ok others =>
      refine congrArg (fun columns => some (Except.ok columns)) ?_
      simp [slice]

theorem decodeDescriptor?_eq (b : Bytes) : decodeDescriptor? b = some (decodeDescriptor b) := by
  rw [decodeDescriptor?, decodeDescriptor]
  by_cases short : b.length < 6
  · rw [if_pos short, if_pos (.inl short)]
  rw [if_neg short, slice?_eq (by omega), Option.bind_eq_bind, Option.bind_some,
    readLE?_eq (by omega)]
  have front : (b.length < 6 ∨ b.take 4 ≠ descriptorMagic) ↔ slice b 0 4 ≠ descriptorMagic := by
    rw [slice, drop_zero]
    exact or_iff_right short
  simp only [front]
  refine some_guard fun _ => some_guard fun _ => ?_
  by_cases sized : b.length < 18 ∨ 3000 < b.length
  · rw [if_pos sized, if_pos (sized.elim .inl fun large => .inr (.inl large))]
  have flags : b[6]? = some b[6] := List.getElem?_eq_getElem (by omega)
  have reserved : b[7]? = some b[7] := List.getElem?_eq_getElem (by omega)
  have rest : (b.length < 18 ∨ 3000 < b.length ∨ b[6]? ≠ some 0 ∨ b[7]? ≠ some 0 ∨
      readLE b 8 4 ≠ 1) ↔ (b[6] ≠ 0 ∨ b[7] ≠ 0 ∨ readLE b 8 4 ≠ 1) := by
    rw [flags, reserved, ← or_assoc, or_iff_right sized]
    simp
  simp only [rest]
  rw [if_neg sized, readLE?_eq (by omega), flags, reserved]
  refine some_guard fun _ => ?_
  rw [readLE?_eq (by omega)]
  refine some_guard fun room => ?_
  rw [slice?_eq (by omega), readLE?_eq (by omega), readLE?_eq (by omega)]
  simp only [Option.bind_eq_bind, Option.bind_some]
  rw [decodeDefinitions?_eq _ _ _ _ _ _ (by omega)]
  cases decodeDefinitions (readLE b (14 + readLE b 12 2) 2)
      (readLE b (14 + readLE b 12 2 + 2) 2) 1 (b.drop (18 + readLE b 12 2)) with
  | error err => rfl
  | ok columns =>
    change (match validateSchema ⟨_, columns⟩ with | .error err => _ | .ok () => _) = _
    rw [ok_bind]
    cases validateSchema ⟨slice b 14 (readLE b 12 2), columns⟩ with
    | error err => rfl
    | ok done => rfl

/-! ## What the decoder accepts -/

theorem eq_boolByte {flags : UInt8} (small : ¬ 1 < flags) : flags = boolByte (flags &&& 1 ≠ 0) := by
  have cases : flags = 0 ∨ flags = 1 := by
    rw [UInt8.lt_iff_toNat_lt] at small
    change ¬ 1 < flags.toNat at small
    rw [← UInt8.toNat_inj, ← UInt8.toNat_inj]
    change flags.toNat = 0 ∨ flags.toNat = 1
    omega
  rcases cases with rfl | rfl
  · rfl
  · rfl

/-- The columns that the loop accepts are encoded to what was read, and the primary column
is the one with the number `pk`. -/
theorem encodeDefinitions_of_decodeDefinitions {pk : Nat} : ∀ {count id : Nat} {data : Bytes}
    {columns : List Column}, decodeDefinitions pk count id data = .ok columns →
    columns.length = count ∧ encodeDefinitions columns id = data ∧
      ∀ idx c, columns[idx]? = some c → c.primaryKey = decide (id + idx = pk)
  | 0, id, data, columns, decoded => by
    rw [decodeDefinitions, guard_eq_ok, not_not] at decoded
    rw [← Except.ok.inj decoded.2, decoded.1]
    refine ⟨rfl, rfl, ?_⟩
    rintro idx c ⟨⟩
  | count + 1, id, data, columns, decoded => by
    by_cases long : data.length < 6
    · rw [decodeDefinitions_short long] at decoded
      cases decoded
    have isType : data[2]? = some data[2] := List.getElem?_eq_getElem (by omega)
    have isFlags : data[3]? = some data[3] := List.getElem?_eq_getElem (by omega)
    rw [decodeDefinitions_long (not_lt.mp long) isType isFlags, guard_eq_ok,
      bind_ok_iff] at decoded
    obtain ⟨shape, others, isOthers, same⟩ := decoded
    simp only [not_or, not_and_or, not_not, not_lt] at shape
    obtain ⟨number, small, notNull, enough⟩ := shape
    obtain ⟨size, encoded, marked⟩ := encodeDefinitions_of_decodeDefinitions isOthers
    obtain rfl := Except.ok.inj same
    refine ⟨by rw [length_cons, size], ?_, ?_⟩
    · have nameSize : ((data.drop 6).take (readLE data 4 2)).length = readLE data 4 2 :=
        length_take_of_le enough
      have nullable : boolByte (data[3] &&& 1 ≠ 0 ∧ readLE data 0 2 ≠ pk) = data[3] := by
        by_cases key : readLE data 0 2 = pk
        · rw [notNull.resolve_left (not_not.mpr key)]
          simp [boolByte]
        · have flag := eq_boolByte (not_lt.mpr small)
          rw [decide_eq_decide.mpr (and_iff_left key)]
          exact flag.symm
      have middle : slice data 2 2 = [data[2], data[3]] := slice_two isType isFlags
      rw [encodeDefinitions, encoded, nameSize, nullable, leBytes_of_readLE (by omega) number,
        leBytes_readLE (by omega), take_append_drop, ← middle, slice_append_drop,
          slice_append_drop,
        slice_append_drop, drop_zero]
    · intro idx c here
      cases idx with
      | zero =>
        obtain rfl := Option.some.inj here
        rw [number, Nat.add_zero]
      | succ idx =>
        rw [marked idx c here, Nat.add_assoc, Nat.add_comm 1 idx]

variable {s : TableSchema}

/-- The number of the primary column is the one that marks it. -/
theorem TableSchema.Valid.primaryID_of_marked (valid : s.Valid) {pk : Nat}
    (marked : ∀ idx c, s.columns[idx]? = some c → c.primaryKey = decide (1 + idx = pk)) :
    primaryID s.columns 1 0 = pk := by
  obtain ⟨idx, here⟩ := List.getElem?_of_mem valid.findPrimary_mem.1
  have isKey := valid.findPrimary_mem.2
  have first := (valid.primaryID_eq here).symm.trans isKey
  have second := (marked idx _ here).symm.trans isKey
  rw [← of_decide_eq_true first, of_decide_eq_true second]

/-- An accepted descriptor is that of a valid schema, byte for byte. -/
theorem encodeDescriptor_of_decodeDescriptor {b : Bytes}
    (accepted : decodeDescriptor b = .ok s) : s.Valid ∧ encodeDescriptor s = b := by
  rw [decodeDescriptor, guard_eq_ok, guard_eq_ok, guard_eq_ok] at accepted
  obtain ⟨front, version, shape, accepted⟩ := accepted
  dsimp only at accepted
  rw [guard_eq_ok, bind_ok_iff] at accepted
  obtain ⟨room, columns, isColumns, accepted⟩ := accepted
  rw [bind_ok_iff] at accepted
  obtain ⟨_, checked, same⟩ := accepted
  obtain rfl := Except.ok.inj same
  simp only [not_or, not_not, not_lt] at front version shape room
  obtain ⟨long, -, flags, reserved, schema⟩ := shape
  have valid := validateSchema_eq_ok.mp checked
  obtain ⟨size, encoded, marked⟩ := encodeDefinitions_of_decodeDefinitions isColumns
  refine ⟨valid, ?_⟩
  have name : (slice b 14 (readLE b 12 2)).length = readLE b 12 2 := length_slice (by omega)
  have magic : descriptorMagic = slice b 0 4 := front.2.symm
  have second : leBytes 2 2 = slice b 4 2 := leBytes_of_readLE (by omega) version
  have third : ([0, 0] : Bytes) = slice b 6 2 := (slice_two flags reserved).symm
  have fourth : leBytes 4 1 = slice b 8 4 := leBytes_of_readLE (by omega) schema
  rw [encodeDescriptor, magic, second, third, fourth]
  dsimp only
  rw [name, valid.primaryID_of_marked marked, size, encoded, leBytes_readLE (by omega),
    leBytes_readLE (by omega), leBytes_readLE (by omega), show 18 + readLE b 12 2 =
      14 + readLE b 12 2 + 2 + 2 by omega,
    slice_append_drop, slice_append_drop, slice_append_drop, slice_append_drop, slice_append_drop,
    slice_append_drop, slice_append_drop, slice_append_drop, drop_zero]

/-- Descriptors are read back, the decoder panics on no input, and it accepts only the
descriptors of valid schemas. -/
theorem descriptor_codec : (∀ s, validateSchema s = .ok () → (encodeDescriptor s).length ≤ 3000 →
      decodeDescriptor (encodeDescriptor s) = .ok s) ∧
    ∀ b, decodeDescriptor? b = some (decodeDescriptor b) ∧
      ∀ s, decodeDescriptor b = .ok s → validateSchema s = .ok () ∧ encodeDescriptor s = b := by
  refine ⟨fun s valid => decodeDescriptor_encodeDescriptor (validateSchema_eq_ok.mp valid), fun b =>
    ⟨decodeDescriptor?_eq b, fun s accepted => ?_⟩⟩
  obtain ⟨valid, same⟩ := encodeDescriptor_of_decodeDescriptor accepted
  exact ⟨validateSchema_eq_ok.mpr valid, same⟩

theorem descriptor_codec_flag :
    decodeDescriptor (encodeDescriptor flagSchema) = .ok flagSchema :=
  descriptor_codec.1 flagSchema rfl (by decide)

end GoDatabase
