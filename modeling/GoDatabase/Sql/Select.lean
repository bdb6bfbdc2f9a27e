import GoDatabase.Sql.Executor
import GoDatabase.Relational.TableMap

/-!
# SELECT and its access paths

Where every literal that becomes a row key is within the limit of a key, a `SELECT`
returns the rows of a scan that satisfy its predicates, whatever path it takes to them.
Where one is not, it fails.
-/

namespace GoDatabase.Sql

open Library Db List

/-! ## Literals -/

/-- The value that a literal stands for in a column of a type. -/
inductive Denotes : Literal → ColumnType → Value → Prop
  | int64 (x : Int64) : Denotes ⟨.integer, .int64 x⟩ columnInt64 (.int64 x)
  | string (x : Bytes) : Denotes ⟨.string, .string x⟩ columnString (.string x)
  | bytes (x : Bytes) : Denotes ⟨.string, .string x⟩ columnBytes (.bytes x)
  | isTrue : Denotes ⟨.true, .bool true⟩ columnBool (.bool true)
  | isFalse : Denotes ⟨.false, .bool false⟩ columnBool (.bool false)

variable {literal : Literal} {value : Value} {c : Column}

theorem Denotes.literalValue_eq {type : ColumnType}
    (denotes : Denotes literal type value) : literalValue literal type = .ok value := by
  cases denotes <;> rfl

theorem denotes_of_literalValue {type : ColumnType}
    (run : literalValue literal type = .ok value) : Denotes literal type value := by
  obtain ⟨kind, given⟩ := literal
  rw [literalValue, bind_ok_iff] at run
  obtain ⟨⟨⟩, checked, run⟩ := run
  split_ifs at run with int string bytes bool
  all_goals cases run
  · obtain ⟨rfl, rfl⟩ := int
    cases given <;> cases checked
    exact .int64 _
  · obtain ⟨rfl, rfl⟩ := string
    cases given <;> cases checked
    exact .string _
  · obtain ⟨rfl, rfl⟩ := bytes
    cases given <;> cases checked
    exact .bytes _
  · obtain ⟨rfl, rfl | rfl⟩ := bool
    · obtain rfl : given = .bool true := by simpa [checkLiteral] using checked
      exact .isTrue
    · obtain rfl : given = .bool false := by simpa [checkLiteral] using checked
      exact .isFalse

/-- In the type of a primary key a literal stands for its own value. -/
theorem Denotes.key (denotes : Denotes literal c.type value)
    (key : c.primaryKey = true) (type : c.type = columnInt64 ∨ c.type = columnString) :
    literal.value = value ∧ ∃ enc, Encodes c value enc := by
  generalize isType : c.type = found at denotes
  rw [isType] at type
  cases denotes with
  | int64 x => exact ⟨rfl, _, .keyInt64 isType key x⟩
  | string x => exact ⟨rfl, _, .keyString isType key x⟩
  | bytes x | isTrue | isFalse => exact absurd type (by decide)

/-! ## Comparisons -/

/-- The relation that an operator stands for in an order. -/
def TokenType.Relates {α : Type} [LinearOrder α] (left right : α) : TokenType → Prop
  | .equal => left = right
  | .notEqual => left ≠ right
  | .less => left < right
  | .lessEqual => left ≤ right
  | .greater => right < left
  | .greaterEqual => right ≤ left
  | _ => False

theorem ordered_orderOf {α : Type} [LinearOrder α] [DecidableLT α] (left right : α)
    (op : TokenType) :
    ordered (orderOf left right) op = true ↔ op.Relates left right := by
  rw [orderOf]
  rcases lt_trichotomy left right with less | rfl | more
  · cases op <;> simp [ordered, TokenType.Relates, less, less.le, less.ne]
  · cases op <;> simp [ordered, TokenType.Relates]
  · cases op <;> simp [ordered, TokenType.Relates, more, more.le, more.ne', more.not_gt]

/-- Integers are compared as numbers, texts and bytes in the order of their bytes, and `FALSE` is
less than `TRUE`.  Values of different types, and nil, are in no relation. -/
inductive Compares (op : TokenType) : Value → Value → Prop
  | int64 {left right : Int64} (relates : op.Relates left.toInt right.toInt) :
      Compares op (.int64 left) (.int64 right)
  | string {left right : Bytes} (relates : op.Relates left right) :
      Compares op (.string left) (.string right)
  | bytes {left right : Bytes} (relates : op.Relates left right) :
      Compares op (.bytes left) (.bytes right)
  | bool {left right : Bool} (relates : op.Relates left right) :
      Compares op (.bool left) (.bool right)

variable {left right : Value} {op : TokenType}

theorem compare_eq_true : compare left right op = true ↔ Compares op left right := by
  constructor
  · intro holds
    cases left <;> cases right <;> first
      | cases holds
      | exact .int64 ((ordered_orderOf _ _ _).mp holds)
      | exact .string ((ordered_orderOf _ _ _).mp holds)
      | exact .bytes ((ordered_orderOf _ _ _).mp holds)
      | exact .bool ((ordered_orderOf _ _ _).mp holds)
  · rintro (relates | relates | relates | relates)
    all_goals exact (ordered_orderOf _ _ _).mpr relates

/-- Primary keys compare as their encodings. -/
theorem compare_keys (key : c.primaryKey = true)
    (type : c.type = columnInt64 ∨ c.type = columnString) {leftWord rightWord : Bytes}
    (isLeft : Encodes c left leftWord) (isRight : Encodes c right rightWord) :
    compare left right op = true ↔ op.Relates leftWord rightWord := by
  rw [← ordered_orderOf]
  rcases isLeft.key_cases key type with ⟨isInt, x, rfl, rfl⟩ | ⟨isString, x, rfl, rfl⟩
  · rcases isRight.key_cases key type with ⟨-, y, rfl, rfl⟩ | ⟨isString, -⟩
    · simp only [compare, orderOf, int64Bytes_lt]
    · exact absurd (isInt.symm.trans isString) (by decide)
  · rcases isRight.key_cases key type with ⟨isInt, -⟩ | ⟨-, y, rfl, rfl⟩
    · exact absurd (isInt.symm.trans isString) (by decide)
    · rfl

/-! ## Predicates -/

/-- The check of one predicate against a row. -/
def Predicate.accepts (schema : TableSchema) (row : Row) (p : Predicate) : Bool :=
  match findColumn schema p.column with
  | none => false
  | some column =>
    match literalValue p.value column.type with
    | .error _ => false
    | .ok value => compare (row.get p.column) value p.op

theorem rowMatches_eq_all (row : Row) (schema : TableSchema) (predicates : List Predicate) :
    rowMatches row schema predicates = predicates.all (Predicate.accepts schema row) := by
  induction predicates with
  | nil => rfl
  | cons p rest ih =>
    rw [rowMatches, all_cons, Predicate.accepts, ih]
    cases findColumn schema p.column with
    | none => rfl
    | some column =>
      dsimp only
      cases literalValue p.value column.type with
      | error err => rfl
      | ok value =>
        dsimp only
        cases compare (row.get p.column) value p.op <;> rfl

/-- The row has a value in the column that is in the relation to what the literal stands for. -/
def Predicate.Holds (schema : TableSchema) (row : Row) (p : Predicate) : Prop :=
  ∃ column value, findColumn schema p.column = some column ∧ Denotes p.value column.type value ∧
    Compares p.op (row.get p.column) value

theorem Predicate.accepts_eq_true {schema : TableSchema} {row : Row} {p : Predicate} :
    p.accepts schema row = true ↔ p.Holds schema row := by
  rw [Predicate.accepts]
  constructor
  · intro accepted
    split at accepted
    · cases accepted
    · next column found =>
      split at accepted
      · cases accepted
      · next value converted =>
        exact ⟨column, value, found, denotes_of_literalValue converted, compare_eq_true.mp accepted⟩
  · rintro ⟨column, value, found, denotes, compares⟩
    rw [found]
    dsimp only
    rw [denotes.literalValue_eq]
    exact compare_eq_true.mpr compares

/-- A predicate on a column of the table, with a comparison and a literal of its type. -/
structure Predicate.Typed (schema : TableSchema) (p : Predicate) : Prop where
  comparison : isComparison p.op = true
  operand : ∃ column value, findColumn schema p.column = some column ∧
    Denotes p.value column.type value

/-- A lower bound of the primary key. -/
def Predicate.isLower (primary : Column) (p : Predicate) : Bool :=
  p.column = primary.name && (p.op = .greater || p.op = .greaterEqual)

def Predicate.isUpper (primary : Column) (p : Predicate) : Bool :=
  p.column = primary.name && (p.op = .less || p.op = .lessEqual)

section Predicates

variable {schema : TableSchema} {p : Predicate}

/-- A predicate on the primary key. -/
theorem Predicate.Typed.key (typed : p.Typed schema) (valid : schema.Valid)
    (own : p.column = (findPrimary schema).name) :
    literalValue p.value (findPrimary schema).type = .ok p.value.value ∧
      ∃ enc, Encodes (findPrimary schema) p.value.value enc := by
  obtain ⟨mem, key⟩ := valid.findPrimary_mem
  obtain ⟨column, value, found, denotes⟩ := typed.operand
  rw [own, valid.findColumn_name mem] at found
  obtain rfl := Option.some.inj found
  obtain ⟨same, encodes⟩ := denotes.key key valid.primary_type
  rw [same]
  exact ⟨denotes.literalValue_eq, encodes⟩

variable {word enc : Bytes}

/-- It compares the encoded keys. -/
theorem Predicate.Typed.accepts_key (typed : p.Typed schema) (valid : schema.Valid)
    (own : p.column = (findPrimary schema).name) {row : Row}
    (encodes : Encodes (findPrimary schema) p.value.value word)
    (isKey : Encodes (findPrimary schema) (row.get (findPrimary schema).name) enc) :
    p.accepts schema row = true ↔ p.op.Relates enc word := by
  obtain ⟨mem, key⟩ := valid.findPrimary_mem
  rw [Predicate.accepts, own, valid.findColumn_name mem]
  dsimp only
  rw [(typed.key valid own).1]
  exact compare_keys key valid.primary_type isKey encodes

end Predicates

theorem equalKey_eq_some {primary : Column} {predicates : List Predicate} {p : Predicate}
    (found : equalKey primary predicates = some p) : p ∈ predicates ∧ p.column = primary.name ∧
      p.op = .equal := by
  rw [equalKey] at found
  have accepted := List.find?_some found
  rw [Bool.and_eq_true, decide_eq_true_eq, decide_eq_true_eq] at accepted
  exact ⟨mem_of_find?_eq_some found, accepted⟩

/-! ## The bounds of the primary key -/

/-- One bound after a predicate: the value replaces what it improves on. -/
def improve (op : TokenType) (value : Value) (best : Option Value) : Option Value :=
  if best.all (compare value · op) then some value else best

theorem atMost_antisymm (below : left.atMost right = true) (above : right.atMost left = true) :
    left = right := by
  rw [Value.atMost, Bool.or_eq_true, decide_eq_true_eq] at below above
  by_contra other
  have less := below.resolve_left other
  have more := above.resolve_left (Ne.symm other)
  cases left <;> cases right <;> first
    | cases less
    | exact absurd (of_decide_eq_true less) (of_decide_eq_true more).asymm

theorem atMost_trans {middle : Value} (first : left.atMost middle = true)
    (second : middle.atMost right = true) : left.atMost right = true := by
  rw [Value.atMost, Bool.or_eq_true, decide_eq_true_eq] at *
  rcases first with rfl | first
  · exact second
  rcases second with rfl | second
  · exact .inr first
  refine .inr ?_
  cases left <;> cases middle <;> first
    | cases first
    | cases right <;> first
        | cases second
        | exact decide_eq_true ((of_decide_eq_true first).trans (of_decide_eq_true second))

section Bounds

variable {schema : TableSchema} {p : Predicate}

theorem tighten_eq (typed : p.Typed schema) (valid : schema.Valid)
    (bounds : Option Value × Option Value) : tighten (findPrimary schema) bounds p =
      .ok (if p.isLower (findPrimary schema) then improve .greater p.value.value bounds.1
        else bounds.1, if p.isUpper (findPrimary schema) then improve .less p.value.value bounds.2
          else bounds.2) := by
  rw [tighten, Predicate.isLower, Predicate.isUpper]
  by_cases own : p.column = (findPrimary schema).name
  · rw [if_neg (not_not.mpr own), decide_eq_true own, Bool.true_and, Bool.true_and,
      (typed.key valid own).1]
    cases p.op <;> rfl
  · rw [if_pos own, decide_eq_false own]
    rfl

/-- The best of the bounds among some predicates. -/
structure Best (bound : Predicate → Bool) (le : Value → Value → Prop)
    (predicates : List Predicate) (best : Option Value) : Prop where
  empty : best = none → ∀ p ∈ predicates, bound p = false
  found : ∀ value, best = some value → ∃ p ∈ predicates, bound p = true ∧ p.value.value = value
  least : ∀ value, best = some value → ∀ p ∈ predicates, bound p = true → le p.value.value value

variable {bound : Predicate → Bool} {le : Value → Value → Prop} {predicates : List Predicate}
  {best : Option Value}

theorem Best.skip (isBest : Best bound le predicates best) (other : bound p = false) :
    Best bound le (predicates ++ [p]) best where
  empty none := forall_mem_append.mpr ⟨isBest.empty none, forall_mem_singleton.mpr other⟩
  found value isValue := by
    obtain ⟨q, mem, holds⟩ := isBest.found value isValue
    exact ⟨q, mem_append_left _ mem, holds⟩
  least value isValue := by
    refine forall_mem_append.mpr ⟨isBest.least value isValue, forall_mem_singleton.mpr ?_⟩
    rw [other]
    nofun

/-- A bound either improves on the best one so far or is covered by it. -/
theorem Best.step (isBest : Best bound le predicates best) (isBound : bound p = true)
    (refl : ∀ value, le value value) (trans : ∀ {a b c}, le a b → le b c → le a c)
    (better : ∀ q ∈ predicates, bound q = true →
      if compare p.value.value q.value.value op = true then le q.value.value p.value.value
      else le p.value.value q.value.value) :
    Best bound le (predicates ++ [p]) (improve op p.value.value best) := by
  have here : p ∈ predicates ++ [p] := mem_append_right _ (mem_singleton_self _)
  rw [improve]
  cases best with
  | none =>
    rw [Option.all_none, if_pos rfl]
    refine ⟨nofun, fun _ isValue => ⟨p, here, isBound, Option.some.inj isValue⟩, ?_⟩
    rintro _ ⟨⟩
    refine forall_mem_append.mpr ⟨fun q mem isOther => ?_, forall_mem_singleton.mpr fun _ => refl _⟩
    rw [isBest.empty rfl q mem] at isOther
    cases isOther
  | some value =>
    obtain ⟨q, mem, isOther, rfl⟩ := isBest.found value rfl
    have covers := better q mem isOther
    have least := isBest.least _ rfl
    rw [Option.all_some]
    split_ifs at covers ⊢
    · refine ⟨nofun, fun _ isValue => ⟨p, here, isBound, Option.some.inj isValue⟩, ?_⟩
      rintro _ ⟨⟩
      exact forall_mem_append.mpr ⟨fun r isOld isThis => trans (least r isOld isThis) covers,
        forall_mem_singleton.mpr fun _ => refl _⟩
    · refine ⟨nofun, fun _ isValue => ⟨q, mem_append_left _ mem, isOther, Option.some.inj isValue⟩,
        ?_⟩
      rintro _ ⟨⟩
      exact forall_mem_append.mpr ⟨least, forall_mem_singleton.mpr fun _ => covers⟩

/-- The greatest lower and the least upper bound. -/
structure Bounded (schema : TableSchema) (predicates : List Predicate)
    (bounds : Option Value × Option Value) : Prop where
  lower : Best (Predicate.isLower (findPrimary schema)) (fun left right => left.atMost right = true)
    predicates bounds.1
  upper : Best (Predicate.isUpper (findPrimary schema)) (fun left right => right.atMost left = true)
    predicates bounds.2

theorem isLower_iff : p.isLower (findPrimary schema) = true ↔
    p.column = (findPrimary schema).name ∧ (p.op = .greater ∨ p.op = .greaterEqual) := by
  simp [Predicate.isLower]

theorem isUpper_iff : p.isUpper (findPrimary schema) = true ↔
    p.column = (findPrimary schema).name ∧ (p.op = .less ∨ p.op = .lessEqual) := by
  simp [Predicate.isUpper]

variable {bounds : Option Value × Option Value}

theorem Bounded.step (bounded : Bounded schema predicates bounds)
    (valid : schema.Valid) (typed : ∀ q ∈ predicates ++ [p], q.Typed schema) :
    ∃ next, tighten (findPrimary schema) bounds p = .ok next ∧
      Bounded schema (predicates ++ [p]) next := by
  obtain ⟨old, new⟩ := forall_mem_append.mp typed
  have isTyped := forall_mem_singleton.mp new
  have type := valid.primary_type
  obtain ⟨-, key⟩ := valid.findPrimary_mem
  -- Two bounds of the primary key compare as their encodings.
  have words (q : Predicate) (mem : q ∈ predicates) (own : p.column = (findPrimary schema).name)
      (same : q.column = (findPrimary schema).name) :=
    And.intro (isTyped.key valid own).2 ((old q mem).key valid same).2
  refine ⟨_, tighten_eq isTyped valid bounds, ?_, ?_⟩
  · dsimp only
    split_ifs with isLower
    · refine bounded.lower.step isLower (fun _ => by simp [Value.atMost]) atMost_trans ?_
      intro q mem isBound
      obtain ⟨⟨enc, encodes⟩, word, isWord⟩ :=
        words q mem (isLower_iff.mp isLower).1 (isLower_iff.mp isBound).1
      split_ifs with more <;> rw [compare_keys key type encodes isWord] at more
      · exact (isWord.le_iff key encodes type).mp (le_of_lt more)
      · exact (encodes.le_iff key isWord type).mp (not_lt.mp more)
    · exact bounded.lower.skip (Bool.eq_false_iff.mpr isLower)
  · dsimp only
    split_ifs with isUpper
    · refine bounded.upper.step isUpper (fun _ => by simp [Value.atMost])
        (fun first second => atMost_trans second first) ?_
      intro q mem isBound
      obtain ⟨⟨enc, encodes⟩, word, isWord⟩ :=
        words q mem (isUpper_iff.mp isUpper).1 (isUpper_iff.mp isBound).1
      split_ifs with less <;> rw [compare_keys key type encodes isWord] at less
      · exact (encodes.le_iff key isWord type).mp (le_of_lt less)
      · exact (isWord.le_iff key encodes type).mp (not_lt.mp less)
    · exact bounded.upper.skip (Bool.eq_false_iff.mpr isUpper)

/-- The loop computes both bounds. -/
theorem foldlM_tighten {rest : List Predicate}
    (bounded : Bounded schema predicates bounds) (valid : schema.Valid)
    (typed : ∀ q ∈ predicates ++ rest, q.Typed schema) :
    ∃ result, rest.foldlM (tighten (findPrimary schema)) bounds = .ok result ∧
      Bounded schema (predicates ++ rest) result := by
  induction rest generalizing predicates bounds with
  | nil =>
    refine ⟨bounds, rfl, ?_⟩
    rw [append_nil]
    exact bounded
  | cons p rest ih =>
    rw [append_cons] at typed ⊢
    obtain ⟨next, stepped, isNext⟩ := bounded.step (p := p) valid fun q mem =>
      typed q (mem_append_left _ mem)
    rw [foldlM_cons, stepped, ok_bind]
    exact ih isNext typed

end Bounds

/-! ## Access paths -/

/-- The key of the row with this primary key is within the limit. -/
def keyFits (schema : TableSchema) (value : Value) : Prop :=
  ∀ enc, encodeValue (findPrimary schema) value = .ok enc →
    (rowPrefix schema.name ++ enc).length ≤ 1000

/-- The literals that a `SELECT` turns into row keys are within the limit: the first one
that the primary key is compared with for equality, or else the greatest lower and the
least upper bound when there are both. -/
def KeysFit (schema : TableSchema) (predicates : List Predicate) : Prop :=
  match equalKey (findPrimary schema) predicates with
  | some p => keyFits schema p.value.value
  | none => ∀ lower ∈ predicates, ∀ upper ∈ predicates, lower.isLower (findPrimary schema) = true →
      upper.isUpper (findPrimary schema) = true →
      (∀ p ∈ predicates, p.isLower (findPrimary schema) = true →
        p.value.value.atMost lower.value.value = true) →
      (∀ p ∈ predicates, p.isUpper (findPrimary schema) = true →
        upper.value.value.atMost p.value.value = true) →
      keyFits schema lower.value.value ∧ keyFits schema upper.value.value

/-- Rows that are dropped anyway can be left out before. -/
theorem filter_map_of_imp {α β : Type} {f : α → β} {accepts : β → Bool} {keep : α → Bool}
    {items : List α} (kept : ∀ item ∈ items, accepts (f item) = true → keep item = true) :
    ((items.filter keep).map f).filter accepts = (items.map f).filter accepts := by
  rw [filter_map, filter_map, filter_filter]
  congr 1
  apply filter_congr
  intro item mem
  rw [Bool.and_eq_left_iff_imp]
  exact kept item mem

section Paths

variable {σ : Type} {store : Store σ} {view : σ → List Item} {d : Database σ} {t : Table}
  {predicates : List Predicate}

variable {enc : Bytes}

theorem rowKey_of_encodes {value : Value} (encodes : Encodes (findPrimary t.schema) value enc) :
    (t.rowKey value = .ok (rowPrefix t.schema.name ++ enc) ∧ keyFits t.schema value) ∨
      (t.rowKey value = .error errInvalidRow ∧ ¬ keyFits t.schema value) := by
  have encoded := encodeValue_of_encodes encodes
  rw [Table.rowKey, encoded, ok_bind]
  dsimp only
  by_cases long : 1000 < (rowPrefix t.schema.name ++ enc).length
  · rw [if_pos long]
    exact .inr ⟨rfl, fun fits => absurd (fits enc encoded) (not_le.mpr long)⟩
  · rw [if_neg long]
    refine .inl ⟨rfl, fun own isOwn => ?_⟩
    obtain rfl := Except.ok.inj (encoded.symm.trans isOwn)
    exact not_lt.mp long

/-- What a path to the rows has to find. -/
def Finds (contents : List Item) (schema : TableSchema) (predicates : List Predicate)
    (rows : List Row) : Prop :=
  rows.filter (rowMatches · schema predicates) =
    ((primaryKeys contents schema.name).map (rowUnder contents schema)).filter
    (rowMatches · schema predicates)

variable {contents : List Item} {schema : TableSchema} {p : Predicate}

section

variable (agrees : Consistent contents) (defined : Defines contents schema)
  (mem : p ∈ predicates) (typed : p.Typed schema) (own : p.column = (findPrimary schema).name)
include agrees defined mem typed own

/-- The rows that satisfy a predicate on the primary key. -/
theorem accepts_of_rowMatches {word : Bytes}
    (encodes : Encodes (findPrimary schema) p.value.value word)
    (isKey : enc ∈ primaryKeys contents schema.name)
    (accepted : rowMatches (rowUnder contents schema enc) schema predicates = true) :
    p.op.Relates enc word := by
  rw [rowMatches_eq_all, all_eq_true] at accepted
  rw [← typed.accepts_key defined.valid own encodes (agrees.encodes_keyUnder defined isKey)]
  exact accepted p mem

/-- The row under the primary key, if there is one. -/
theorem get_finds (op : p.op = .equal) (encodes : Encodes (findPrimary schema) p.value.value enc) :
    Finds contents schema predicates
      ((SortedMap.lookup contents (rowPrefix schema.name ++ enc)).map fun _ =>
      rowUnder contents schema enc).toList := by
  have nodup := (sorted_primaryKeys agrees.sorted schema.name).nodup
  have single : ((SortedMap.lookup contents (rowPrefix schema.name ++ enc)).map fun _ =>
      rowUnder contents schema enc).toList =
        ((primaryKeys contents schema.name).filter fun key => key = enc).map
        (rowUnder contents schema) := by
    rw [filter_eq]
    cases found : SortedMap.lookup contents (rowPrefix schema.name ++ enc) with
    | none =>
      have absent : enc ∉ primaryKeys contents schema.name := by
        rw [mem_primaryKeys agrees.sorted, found]
        rintro ⟨value, isValue⟩
        cases isValue
      rw [count_eq_zero_of_not_mem absent]
      rfl
    | some value =>
      rw [count_eq_one_of_mem nodup ((mem_primaryKeys agrees.sorted).mpr ⟨value, found⟩)]
      rfl
  rw [Finds, single]
  refine filter_map_of_imp fun key isKey accepted => decide_eq_true ?_
  have compared := accepts_of_rowMatches agrees defined mem typed own encodes isKey accepted
  rw [op] at compared
  exact compared

end

/-- The rows within the bounds. -/
theorem range_finds (agrees : Consistent contents)
    (defined : Defines contents schema) {lower upper : Predicate} (isMember : lower ∈ predicates)
    (alsoMember : upper ∈ predicates) (typed : ∀ p ∈ predicates, p.Typed schema)
    (isLower : lower.isLower (findPrimary schema) = true)
    (isUpper : upper.isUpper (findPrimary schema) = true)
    {low high : Bytes} (isLow : Encodes (findPrimary schema) lower.value.value low)
    (isHigh : Encodes (findPrimary schema) upper.value.value high) :
    Finds contents schema predicates (((primaryKeys contents schema.name).filter fun enc =>
      decide (low ≤ enc ∧ enc ≤ high)).map (rowUnder contents schema)) := by
  refine filter_map_of_imp fun enc isKey accepted => decide_eq_true ⟨?_, ?_⟩
  · have compared := accepts_of_rowMatches agrees defined isMember (typed _ isMember)
      (isLower_iff.mp isLower).1 isLow isKey accepted
    rcases (isLower_iff.mp isLower).2 with op | op <;> rw [op] at compared
    · exact le_of_lt compared
    · exact compared
  · have compared := accepts_of_rowMatches agrees defined alsoMember (typed _ alsoMember)
      (isUpper_iff.mp isUpper).1 isHigh isKey accepted
    rcases (isUpper_iff.mp isUpper).2 with op | op <;> rw [op] at compared
    · exact le_of_lt compared
    · exact compared

theorem bounded_nil (schema : TableSchema) : Bounded schema [] (none, none) :=
  ⟨⟨fun _ _ mem => absurd mem not_mem_nil, nofun, nofun⟩,
    ⟨fun _ _ mem => absurd mem not_mem_nil, nofun, nofun⟩⟩

/-- The bounds of the loop are the ones that have to be within the limit. -/
theorem Bounded.keysFit {lower upper : Value}
    (bounded : Bounded schema predicates (some lower, some upper))
    (noEqual : equalKey (findPrimary schema) predicates = none) :
    KeysFit schema predicates ↔ keyFits schema lower ∧ keyFits schema upper := by
  obtain ⟨low, lowMember, isLower, rfl⟩ := bounded.lower.found _ rfl
  obtain ⟨high, highMember, isUpper, rfl⟩ := bounded.upper.found _ rfl
  have leastLower := bounded.lower.least _ rfl
  have greatestUpper := bounded.upper.least _ rfl
  rw [KeysFit, noEqual]
  constructor
  · intro fits
    exact fits low lowMember high highMember isLower isUpper leastLower greatestUpper
  · rintro ⟨lowFits, highFits⟩ p mem q also isP isQ leastP greatestQ
    -- Two greatest lower bounds are the same value.
    rw [atMost_antisymm (leastLower p mem isP) (leastP low lowMember isLower),
      atMost_antisymm (greatestQ high highMember isUpper) (greatestUpper q also isQ)]
    exact ⟨lowFits, highFits⟩

/-- Every path finds the rows, or fails for a key that is too long. -/
theorem selectRows_finds (exact : store.Models view) (agrees : Consistent (d.contents view))
    (defined : Defines (d.contents view) t.schema) (isOpen : d.closed = false)
    (typed : ∀ p ∈ predicates, p.Typed t.schema) :
    (KeysFit t.schema predicates ∧ ∃ rows, selectRows store d t (findPrimary t.schema) predicates =
        .ok rows ∧ Finds (d.contents view) t.schema predicates rows) ∨
          (¬ KeysFit t.schema predicates ∧
        selectRows store d t (findPrimary t.schema) predicates = .error errInvalidRow) := by
  have valid := defined.valid
  rw [selectRows]
  cases found : equalKey (findPrimary t.schema) predicates with
  | some p =>
    obtain ⟨mem, own, isEqual⟩ := equalKey_eq_some found
    obtain ⟨literal, enc, encodes⟩ := (typed p mem).key valid own
    have fits : KeysFit t.schema predicates ↔
      keyFits t.schema p.value.value := by rw [KeysFit, found]
    rw [fits]
    dsimp only
    rw [literal]
    dsimp only
    rcases rowKey_of_encodes encodes with ⟨key, isFit⟩ | ⟨failed, tooLong⟩
    · left
      rw [get_eq exact agrees defined isOpen key]
      exact ⟨isFit, _, rfl, get_finds agrees defined mem (typed p mem) own isEqual encodes⟩
    · right
      rw [Table.get, isOpen, if_neg Bool.false_ne_true, failed]
      exact ⟨tooLong, rfl⟩
  | none =>
    obtain ⟨⟨lower, upper⟩, run, bounded⟩ := foldlM_tighten (bounded_nil t.schema) valid
      (by rwa [nil_append])
    rw [nil_append] at bounded
    dsimp only
    rw [run, ok_bind]
    have scanned := scan_eq exact agrees defined isOpen
    -- A bound that is missing on either side leads to a scan.
    have unbounded (missing : lower = none ∨ upper = none) : KeysFit t.schema predicates := by
      rw [KeysFit, found]
      intro low lowMember high highMember isLower isUpper
      rcases missing with rfl | rfl
      · rw [bounded.lower.empty rfl low lowMember] at isLower
        cases isLower
      · rw [bounded.upper.empty rfl high highMember] at isUpper
        cases isUpper
    cases lower with
    | none => exact .inl ⟨unbounded (.inl rfl), _, scanned, rfl⟩
    | some lower =>
      cases upper with
      | none => exact .inl ⟨unbounded (.inr rfl), _, scanned, rfl⟩
      | some upper =>
        obtain ⟨low, lowMember, isLower, rfl⟩ := bounded.lower.found _ rfl
        obtain ⟨high, highMember, isUpper, rfl⟩ := bounded.upper.found _ rfl
        obtain ⟨-, lowWord, isLow⟩ := (typed low lowMember).key valid (isLower_iff.mp isLower).1
        obtain ⟨-, highWord, isHigh⟩ := (typed high highMember).key valid (isUpper_iff.mp isUpper).1
        rw [bounded.keysFit found]
        dsimp only
        rcases rowKey_of_encodes isLow with ⟨lowKey, lowFits⟩ | ⟨failed, tooLong⟩
        · rcases rowKey_of_encodes isHigh with ⟨highKey, highFits⟩ | ⟨failed, tooLong⟩
          · rw [range_eq exact agrees defined isOpen lowKey highKey]
            exact .inl ⟨⟨lowFits, highFits⟩, _, rfl,
              range_finds agrees defined lowMember highMember typed isLower isUpper isLow isHigh⟩
          · rw [Table.range, isOpen, if_neg Bool.false_ne_true, lowKey, failed]
            exact .inr ⟨fun fits => tooLong fits.2, rfl⟩
        · rw [Table.range, isOpen, if_neg Bool.false_ne_true, failed]
          exact .inr ⟨fun fits => tooLong fits.1, rfl⟩

end Paths

/-! ## Whole statements -/

/-- A statement whose columns and predicates the table has. -/
structure SelectStatement.Typed (schema : TableSchema) (statement : SelectStatement) : Prop where
  table : statement.table = schema.name
  shape : statement.all = true ↔ statement.columns = []
  columns : ∀ name ∈ statement.columns, (findColumn schema name).isSome
  predicates : ∀ p ∈ statement.where_, p.Typed schema

/-- The rows that satisfy every predicate, with the columns that are asked for. -/
def SelectStatement.answer (schema : TableSchema) (statement : SelectStatement) (rows : List Row) :
    List Row :=
  let found := rows.filter fun row => statement.where_.all (Predicate.accepts schema row)
  if statement.all then found else found.map (project · statement.columns)

/-- A row as it was, or with nothing but the columns that are asked for. -/
def SelectStatement.Shows (statement : SelectStatement) (row result : Row) : Prop :=
  if statement.all then result = row
  else ∀ name value, SortedMap.lookup result name = some value ↔
    name ∈ statement.columns ∧ row.get name = value

/-- The answer shows the rows that satisfy every predicate, in their order. -/
inductive Selects (schema : TableSchema) (statement : SelectStatement) : List Row → List Row → Prop
  | nil : Selects schema statement [] []
  | skip {row : Row} {rows answer : List Row} (fails : ∃ p ∈ statement.where_, ¬ p.Holds schema row)
      (rest : Selects schema statement rows answer) : Selects schema statement (row :: rows) answer
  | take {row result : Row} {rows answer : List Row}
      (holds : ∀ p ∈ statement.where_, p.Holds schema row) (shown : statement.Shows row result)
      (rest : Selects schema statement rows answer) :
      Selects schema statement (row :: rows) (result :: answer)

theorem lookup_project (row : Row) (columns : List Bytes) (name : Bytes) (value : Value) :
    SortedMap.lookup (project row columns) name = some value ↔
      name ∈ columns ∧ row.get name = value := by
  have selected : project row columns =
      row.select (columns.map fun name => ⟨name, 0, false, false⟩) [] := by
    rw [project, Row.select, foldl_map]
  rw [selected, Row.lookup_select, map_map, SortedMap.lookup_nil]
  simp

/-- What the executor answers is what the statement asks for. -/
theorem selects_answer (schema : TableSchema) (statement : SelectStatement) (rows : List Row) :
    Selects schema statement rows (statement.answer schema rows) := by
  induction rows with
  | nil =>
    rw [SelectStatement.answer, filter_nil, map_nil, ite_self]
    exact .nil
  | cons row rows ih =>
    rw [SelectStatement.answer] at ih ⊢
    rw [filter_cons]
    split_ifs at ih ⊢ with isAll accepted accepted
    all_goals simp only [all_eq_true, Predicate.accepts_eq_true, not_forall] at accepted
    · exact .take accepted (by rw [SelectStatement.Shows, if_pos isAll]) ih
    · exact .skip (by simpa using accepted) ih
    · refine .take accepted ?_ ih
      rw [SelectStatement.Shows, if_neg isAll]
      exact lookup_project row statement.columns
    · exact .skip (by simpa using accepted) ih

theorem checkPredicates_eq_ok {schema : TableSchema} : ∀ {predicates : List Predicate},
    (∀ p ∈ predicates, p.Typed schema) → checkPredicates schema predicates = .ok ()
  | [], _ => rfl
  | p :: rest, typed => by
    obtain ⟨first, others⟩ := forall_mem_cons.mp typed
    obtain ⟨column, value, found, denotes⟩ := first.operand
    rw [checkPredicates, found]
    dsimp only
    rw [if_neg (not_not.mpr first.comparison), denotes.literalValue_eq]
    exact checkPredicates_eq_ok others

section Statements

variable {σ : Type} {store : Store σ} {view : σ → List Item} {d : Database σ} {schema : TableSchema}

theorem find?_primary (valid : schema.Valid) :
    (schema.columns.find? fun c => c.primaryKey) = some (findPrimary schema) := by
  obtain ⟨mem, key⟩ := valid.findPrimary_mem
  cases found : schema.columns.find? fun c => c.primaryKey with
  | none => exact absurd key (List.find?_eq_none.mp found _ mem)
  | some c => rw [findPrimary, found, Option.getD_some]

section

variable (exact : store.Models view) (agrees : Consistent (d.contents view))
  (defined : Defines (d.contents view) schema) (isOpen : d.closed = false)
include exact agrees defined isOpen

theorem openTable_eq :
    ∃ indexes, openTable store d schema.name = .ok ⟨schema, indexes⟩ := by
  obtain ⟨indexes, loaded, -⟩ := agrees.indexesOf_eq_ok defined
  have nonempty : descriptorKey schema.name ≠ [] := cons_ne_nil _ _
  refine ⟨indexes, ?_⟩
  rw [openTable, isOpen, if_neg Bool.false_ne_true, getLocked_exact exact d nonempty,
    defined.stored, ok_bind]
  dsimp only
  rw [decodeDescriptor_encodeDescriptor defined.valid defined.small, ok_bind,
    if_neg (not_not.mpr rfl), defined.loadIndexesLocked_eq exact, loaded]
  rfl

/-- The checks pass, and the rest is a search of rows. -/
theorem executeSelect_eq {statement : SelectStatement} (typed : statement.Typed schema) :
    ∃ indexes, openTable store d statement.table = .ok ⟨schema, indexes⟩ ∧
      executeSelect store d statement = (do
        let rows ← selectRows store d ⟨schema, indexes⟩ (findPrimary schema) statement.where_
        let found := rows.filter fun row => rowMatches row schema statement.where_
        return if statement.all then found else found.map (project · statement.columns)) := by
  obtain ⟨indexes, opened⟩ := openTable_eq exact agrees defined isOpen
  rw [← typed.table] at opened
  refine ⟨indexes, opened, ?_⟩
  have named : statement.table ≠ [] := typed.table ▸ defined.valid.named
  have shape : ¬ ((statement.all = true ∧ statement.columns ≠ []) ∨
      (¬ statement.all = true ∧ statement.columns = [])) := by
    rintro (⟨isAll, given⟩ | ⟨notAll, none⟩)
    · exact given (typed.shape.mp isAll)
    · exact notAll (typed.shape.mpr none)
  have known : (if statement.all = true then none
      else statement.columns.find? fun name => (findColumn schema name).isNone) = none := by
    split_ifs
    · rfl
    refine List.find?_eq_none.mpr fun name mem unknown => ?_
    have isColumn := typed.columns name mem
    cases found : findColumn schema name with
    | none =>
      rw [found] at isColumn
      cases isColumn
    | some column =>
      rw [found] at unknown
      cases unknown
  rw [executeSelect, if_neg named, if_neg shape, opened, ok_bind]
  dsimp only
  rw [known, find?_primary defined.valid]
  dsimp only
  rw [checkPredicates_eq_ok typed.predicates, ok_bind]

end

/-- A `SELECT` returns the rows of a scan that satisfy its predicates, in the order of the
scan, exactly when the literals that it turns into row keys are within the limit. -/
theorem select_is_filtered_scan_iff (exact : store.Models view) {backend : Backend σ}
    (fresh : (System.opened backend).db.contents view = []) {events : Events} {s : System σ}
    (run : Run store (System.opened backend) events s) (respectful : Respectful events)
    (isOpen : s.db.closed = false) {descriptor : Bytes} {statement : SelectStatement}
    (table : SortedMap.lookup (s.db.contents view) (descriptorKey statement.table) =
      some descriptor)
    (read : decodeDescriptor descriptor = .ok schema) (typed : statement.Typed schema) :
    (∃ t rows, openTable store s.db statement.table = .ok t ∧ t.scan store s.db = .ok rows ∧
        executeSelect store s.db statement = .ok (statement.answer schema rows)) ↔
      KeysFit schema statement.where_ := by
  obtain ⟨journals, coherent⟩ := run.coherent exact fresh respectful
  have agrees := coherent.consistent
  obtain ⟨defined, -⟩ := agrees.defines_of_descriptor table read
  obtain ⟨indexes, opened, executed⟩ := executeSelect_eq exact agrees defined isOpen typed
  have scanned := scan_eq (t := ⟨schema, indexes⟩) exact agrees defined isOpen
  rcases selectRows_finds (t := ⟨schema, indexes⟩) exact agrees defined isOpen typed.predicates with
    ⟨fits, rows, selected, finds⟩ | ⟨tooLong, failed⟩
  · refine iff_of_true ⟨_, _, opened, scanned, ?_⟩ fits
    rw [executed, selected, ok_bind]
    dsimp only
    rw [finds]
    simp only [SelectStatement.answer, rowMatches_eq_all]
    rfl
  · refine iff_of_false ?_ tooLong
    rintro ⟨_, rows, -, -, answered⟩
    rw [executed, failed] at answered
    cases answered

/-- A `SELECT *` by the primary key of the table `flagSchema`. -/
def selectByKey (text : Bytes) : SelectStatement :=
  ⟨[1], [], true, [⟨[1], .equal, ⟨.string, .string text⟩⟩]⟩

theorem selectByKey_typed (text : Bytes) : (selectByKey text).Typed flagSchema where
  table := rfl
  shape := iff_of_true rfl rfl
  columns := nofun
  predicates := forall_mem_singleton.mpr ⟨rfl, _, _, rfl, .string text⟩

theorem keysFit_selectByKey {text : Bytes} :
    KeysFit flagSchema (selectByKey text).where_ ↔ (rowPrefix [1] ++ text).length ≤ 1000 := by
  change keyFits flagSchema (.string text) ↔ _
  constructor
  · exact fun fits => fits text rfl
  · intro short enc encoded
    obtain rfl : text = enc := Except.ok.inj encoded
    exact short

theorem select_is_filtered_scan_short :
    ∃ (s : System SortedItems) (events : Events) (t : Table) (rows : List Row),
      Run mapStore (System.opened (.memory [])) events s ∧ openTable mapStore s.db [1] = .ok t ∧
        t.scan mapStore s.db = .ok rows ∧
        executeSelect mapStore s.db (selectByKey [7]) =
          .ok ((selectByKey [7]).answer flagSchema rows) := by
  have run : Run mapStore (System.opened (.memory [])) _ _ :=
    (Run.start.call (.createTable flagSchema)).call
    (.tableRow 0 (.insert [⟨[1], .string [7]⟩] .sorted))
  obtain ⟨t, rows, selected⟩ :=
    (@select_is_filtered_scan_iff _ _ Subtype.val flagSchema mapStore_exact.toModels _ rfl _ _ run
      (by simp only [respectful_snoc, respectful_nil, Call.Respects, and_self]) rfl
      (encodeDescriptor flagSchema)
    (selectByKey [7]) rfl (by decide) (selectByKey_typed [7])).mpr
      (keysFit_selectByKey.mpr (by decide))
  exact ⟨_, _, t, rows, run, selected⟩

/-- A text that is too long for a row key makes a `SELECT` by the primary key fail. -/
theorem select_long_key_fails :
    ∃ (s : System SortedItems) (events : Events) (statement : SelectStatement),
      Run mapStore (System.opened (.memory [])) events s ∧ Respectful events ∧ s.db.closed = false ∧
        SortedMap.lookup (s.db.contents Subtype.val) (descriptorKey statement.table) =
          some (encodeDescriptor flagSchema) ∧
        decodeDescriptor (encodeDescriptor flagSchema) = .ok flagSchema ∧
          statement.Typed flagSchema ∧
        executeSelect mapStore s.db statement = .error errInvalidRow := by
  have run : Run mapStore (System.opened (.memory [])) _ _ :=
    Run.start.call (.createTable flagSchema)
  have respectful : Respectful ([] ++ [(Call.createTable flagSchema,
      ((System.opened (.memory []) : System SortedItems).step mapStore
        (.createTable flagSchema)).1)]) := by
    simp only [respectful_snoc, respectful_nil, Call.Respects, and_self]
  have long : ¬ KeysFit flagSchema (selectByKey (List.replicate 1000 97)).where_ := by
    rw [keysFit_selectByKey, List.length_append, List.length_replicate]
    decide
  obtain ⟨journals, coherent⟩ := run.coherent mapStore_exact.toModels rfl respectful
  obtain ⟨defined, -⟩ := @Consistent.defines_of_descriptor _ flagSchema coherent.consistent [1]
    (encodeDescriptor flagSchema) rfl (by decide)
  have typed := selectByKey_typed (List.replicate 1000 97)
  obtain ⟨indexes, -, executed⟩ :=
    executeSelect_eq mapStore_exact.toModels coherent.consistent defined rfl typed
  rcases selectRows_finds (t := ⟨flagSchema, indexes⟩) mapStore_exact.toModels coherent.consistent
      defined rfl typed.predicates with
    ⟨fits, -⟩ | ⟨-, failed⟩
  · exact absurd fits long
  · refine ⟨_, _, _, run, respectful, rfl, rfl, by decide, typed, ?_⟩
    rw [executed, failed]
    rfl

end Statements

end GoDatabase.Sql
