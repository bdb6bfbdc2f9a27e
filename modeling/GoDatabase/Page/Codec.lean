import GoDatabase.Page.Validate
import Mathlib.Data.List.Chain

/-!
# Decoded nodes

`encodePageNode`, `decodePageNode` and `validatePageNode` of `internal/btree/page.go`:
the decoded form of a node, the checks that it has to pass before it is encoded, and the
two directions of the codec.

The decoded form and the record list of a page carry the same information
(`PageNode.records`, `PageNode.ofRecords`), so that both directions come down to the
page layout.
-/

namespace GoDatabase

open Library BNode List

/-- A decoded node; the slice that its type does not use is empty. -/
structure PageNode where
  leaf : Bool
  keys : List Bytes
  values : List Bytes
  childPages : List UInt64
  deriving DecidableEq, Repr

def pageNodeType (n : PageNode) : Nat := if n.leaf then nodeTypeLeaf else nodeTypeInternal

/-- The key loop of `validatePageNode`; `previous` is the key at `i - 1`. -/
def validateKeys (n : PageNode) :
    (keys : List Bytes) → (i : Nat) → (previous : Bytes) → Except GoError Unit
  | [], _, _ => .ok ()
  | key :: keys, i, previous =>
    if key = [] ∧ i ≠ 0 then
      .error (.errorf "key %d is empty" [.int i])
    else if key = [] ∧ n.leaf ∧ i < n.values.length ∧ n.values.getD i [] ≠ [] then
      .error (.errorf "sentinel entry has value" [])
    else if maxKeySize < key.length then
      .error (.errorf "key %d exceeds max size" [.int i])
    else if 0 < i ∧ key ≤ previous then
      .error (.errorf "keys are not strictly sorted" [])
    else
      validateKeys n keys (i + 1) key

def validateValues : (values : List Bytes) → (i : Nat) → Except GoError Unit
  | [], _ => .ok ()
  | value :: values, i =>
    if maxValueSize < value.length then
      .error (.errorf "value %d exceeds max size" [.int i])
    else
      validateValues values (i + 1)

def validateChildPages : (childPages : List UInt64) → (i : Nat) → Except GoError Unit
  | [], _ => .ok ()
  | childPage :: childPages, i =>
    if childPage = 0 then
      .error (.errorf "child page %d is zero" [.int i])
    else
      validateChildPages childPages (i + 1)

/-- The part of `validatePageNode` after the key loop. -/
def validatePayload (n : PageNode) : Except GoError Unit :=
  if n.leaf then
    if n.values.length ≠ n.keys.length then
      .error (.errorf "leaf has %d values for %d keys" [.int n.values.length, .int n.keys.length])
    else if n.childPages.length ≠ 0 then
      .error (.errorf "leaf has child pages" [])
    else
      validateValues n.values 0
  else if n.values.length ≠ 0 then
    .error (.errorf "internal node has values" [])
  else if n.childPages.length ≠ n.keys.length then
    .error (.errorf "internal node has %d child pages for %d keys"
      [.int n.childPages.length, .int n.keys.length])
  else
    validateChildPages n.childPages 0

/-- The nil pointer is `none`. -/
def validatePageNode : Option PageNode → Except GoError Unit
  | none => .error (.errorf "node is nil" [])
  | some n =>
    if 65535 < n.keys.length then
      .error (.errorf "too many keys" [])
    else if pageSize < pageHeaderSize + n.keys.length * (pagePtrSize + pageOffsetSize) then
      .error (.errorf "page metadata exceeds page size" [])
    else
      match validateKeys n n.keys 0 [] with
      | .error err => .error err
      | .ok () => validatePayload n

/-- The loop of `encodePageNode` over the keys from index `i` on. -/
def appendEntries (n : PageNode) : (keys : List Bytes) → (i : Nat) → (node : BNode) →
    Except GoError BNode
  | [], _, node => .ok node
  | key :: keys, i, node =>
    let pageID := if n.leaf then 0 else (n.childPages.getD i 0).toNat
    let value := if n.leaf then n.values.getD i [] else []
    match nodeAppendKV node i pageID key value with
    | .error err => .error err
    | .ok node => appendEntries n keys (i + 1) node

def encodePageNode (n : Option PageNode) : Except GoError Bytes :=
  match validatePageNode n with
  | .error err => .error err
  | .ok () =>
    match n with
    | none => .ok []  -- not reached, the check fails on the nil pointer
    | some n =>
      match appendEntries n n.keys 0
          (setHeader (zeros pageSize) (pageNodeType n) n.keys.length) with
      | .error err => .error err
      | .ok node =>
        match validateBNode node with
        | .error err => .error err
        | .ok () => .ok node

def decodePageNode (page : Bytes) : Except GoError PageNode :=
  match validateBNode page with
  | .error err => .error err
  | .ok () =>
    let indices := List.range (nkeys page)
    let leaf := decide (btype page = nodeTypeLeaf)
    .ok {
      leaf := leaf
      keys := indices.map (getKey page)
      values := if leaf then indices.map (getVal page) else []
      childPages := if leaf then [] else
        indices.map fun idx => UInt64.ofNat (getPtr page idx) }

namespace PageNode

/-- A node that may be encoded if it is small enough. -/
structure WellFormed (n : PageNode) : Prop where
  ascending : n.keys.Pairwise (· < ·)
  sentinel : ∀ idx, n.keys[idx]? = some [] → idx = 0 ∧ (n.leaf = true → n.values[idx]? = some [])
  key_le : ∀ key ∈ n.keys, key.length ≤ maxKeySize
  value_le : ∀ value ∈ n.values, value.length ≤ maxValueSize
  leaf : n.leaf = true → n.values.length = n.keys.length ∧ n.childPages = []
  internal : n.leaf = false →
    n.values = [] ∧ n.childPages.length = n.keys.length ∧ 0 ∉ n.childPages

/-- The entries of a node as the records of a page. -/
def records (n : PageNode) : List Record :=
  if n.leaf then (n.keys.zip n.values).map fun (key, value) => ⟨0, key, value⟩
  else (n.keys.zip n.childPages).map fun (key, childPage) => ⟨childPage.toNat, key, []⟩

/-- The header and, for each entry, its pointer, its offset and its record. -/
def encodedSize (n : PageNode) : Nat :=
  16 + (n.records.map fun record => 14 + record.key.length + record.value.length).sum

/-- The node with the given records. -/
def ofRecords (leaf : Bool) (records : List Record) : PageNode where
  leaf := leaf
  keys := records.map Record.key
  values := if leaf then records.map Record.value else []
  childPages := if leaf then [] else records.map fun record => UInt64.ofNat record.pageID

end PageNode

/-! ## The checks of a decoded node -/

theorem validateKeys_eq_ok (n : PageNode) : ∀ keys i previous,
    validateKeys n keys i previous = .ok () ↔ (∀ idx, keys[idx]? = some [] →
        i + idx = 0 ∧ (n.leaf = true → n.values.getD 0 [] = [])) ∧
      (∀ key ∈ keys, key.length ≤ maxKeySize) ∧
      (0 < i → ∀ key ∈ keys.head?, previous < key) ∧ keys.IsChain (· < ·) := by
  intro keys
  induction keys with
  | nil =>
    intro i previous
    simp [validateKeys]
  | cons key keys ih =>
    intro i previous
    simp only [validateKeys, guard_eq_ok, ih, isChain_cons]
    constructor
    · rintro ⟨late, valued, long, disorder, empties, lengths, follows, chain⟩
      refine ⟨?_, ?_, ?_, follows (Nat.succ_pos i), chain⟩
      · intro idx empty
        cases idx with
        | zero =>
          have isEmpty : key = [] := by simpa using empty
          have first : i = 0 := by_contra fun other => late ⟨isEmpty, other⟩
          refine ⟨first, fun isLeaf => by_contra fun some => valued ⟨isEmpty, isLeaf, ?_, ?_⟩⟩
          · by_contra none
            exact some (by rw [getD_eq_getElem?_getD, List.getElem?_eq_none (by omega)]; rfl)
          · rwa [first]
        | succ idx =>
          have := (empties idx (by simpa using empty)).1
          omega
      · intro other mem
        rcases mem_cons.mp mem with rfl | mem
        · omega
        · exact lengths other mem
      · rintro positive _ ⟨⟩
        exact not_le.mp fun le => disorder ⟨positive, le⟩
    · rintro ⟨empties, lengths, follows, next, chain⟩
      refine ⟨?_, ?_, ?_, ?_, ?_, ?_, fun _ => next, chain⟩
      · rintro ⟨rfl, other⟩
        exact other (empties 0 rfl).1
      · rintro ⟨rfl, isLeaf, -, valued⟩
        obtain ⟨first, unvalued⟩ := empties 0 rfl
        have : i = 0 := first
        exact valued (this ▸ unvalued isLeaf)
      · exact not_lt.mpr (lengths key mem_cons_self)
      · rintro ⟨positive, le⟩
        exact absurd le (not_le.mpr (follows positive key rfl))
      · -- a later empty key would follow a smaller one
        intro idx empty
        have := (empties (idx + 1) (by simpa using empty)).1
        omega
      · exact fun other mem => lengths other (mem_cons_of_mem _ mem)

theorem validateValues_eq_ok : ∀ values i,
    validateValues values i = .ok () ↔ ∀ value ∈ values, value.length ≤ maxValueSize := by
  intro values
  induction values with
  | nil => simp [validateValues]
  | cons value values ih =>
    intro i
    simp only [validateValues, guard_eq_ok, ih, not_lt, forall_mem_cons]

theorem validateChildPages_eq_ok : ∀ childPages i,
    validateChildPages childPages i = .ok () ↔ 0 ∉ childPages := by
  intro childPages
  induction childPages with
  | nil => simp [validateChildPages]
  | cons childPage childPages ih =>
    intro i
    simp only [validateChildPages, guard_eq_ok, ih, mem_cons, not_or]
    rw [eq_comm]

theorem validatePayload_eq_ok (n : PageNode) : validatePayload n = .ok () ↔
      (n.leaf = true → n.values.length = n.keys.length ∧ n.childPages = []) ∧
      (n.leaf = false → n.values = [] ∧ n.childPages.length = n.keys.length ∧ 0 ∉ n.childPages) ∧
      ∀ value ∈ n.values, value.length ≤ maxValueSize := by
  rw [validatePayload]
  cases n.leaf with
  | true =>
    simp only [if_true, guard_eq_ok, not_not, validateValues_eq_ok, length_eq_zero_iff,
      forall_const, reduceCtorEq, false_implies, true_and, and_assoc]
  | false =>
    simp only [Bool.false_eq_true, if_false, guard_eq_ok, not_not, validateChildPages_eq_ok,
      length_eq_zero_iff, false_implies, true_and, forall_const]
    constructor
    · rintro ⟨values, counts, nonzero⟩
      exact ⟨⟨values, counts, nonzero⟩, by simp [values]⟩
    · exact fun checked => checked.1

theorem validatePageNode_eq_ok (n : PageNode) : validatePageNode (some n) = .ok () ↔ n.WellFormed ∧
      pageHeaderSize + n.keys.length * (pagePtrSize + pageOffsetSize) ≤ pageSize := by
  rw [validatePageNode]
  simp only [guard_eq_ok, not_lt]
  have start := validateKeys_eq_ok n n.keys 0 []
  simp only [Nat.lt_irrefl, false_implies, true_and, Nat.zero_add,
    isChain_iff_pairwise] at start
  constructor
  · rintro ⟨-, small, accepted⟩
    cases keys : validateKeys n n.keys 0 [] with
    | error err =>
      rw [keys] at accepted
      cases accepted
    | ok done =>
      rw [keys] at accepted
      obtain ⟨empties, lengths, ascending⟩ := start.mp keys
      obtain ⟨leaf, internal, values⟩ := (validatePayload_eq_ok n).mp accepted
      refine ⟨⟨ascending, ?_, lengths, values, leaf, internal⟩, small⟩
      intro idx empty
      obtain ⟨rfl, unvalued⟩ := empties idx empty
      refine ⟨rfl, fun isLeaf => ?_⟩
      obtain ⟨inRange, -⟩ := List.getElem?_eq_some_iff.mp empty
      have valued : 0 < n.values.length := (leaf isLeaf).1 ▸ inRange
      have value := unvalued isLeaf
      rw [getD_eq_getElem?_getD, List.getElem?_eq_getElem valued, Option.getD_some] at value
      rw [List.getElem?_eq_getElem valued, value]
  · rintro ⟨formed, small⟩
    have keys : validateKeys n n.keys 0 [] = .ok () := by
      refine start.mpr ⟨?_, formed.key_le, formed.ascending⟩
      intro idx empty
      obtain ⟨rfl, unvalued⟩ := formed.sentinel idx empty
      refine ⟨rfl, fun isLeaf => ?_⟩
      rw [getD_eq_getElem?_getD, unvalued isLeaf, Option.getD_some]
    refine ⟨?_, small, ?_⟩
    · simp only [pageHeaderSize, pagePtrSize, pageOffsetSize, pageSize] at small
      omega
    · rw [keys]
      exact (validatePayload_eq_ok n).mpr ⟨formed.leaf, formed.internal, formed.value_le⟩

/-! ## Nodes and records -/

namespace PageNode

variable {n : PageNode}

theorem WellFormed.map_key (formed : n.WellFormed) : n.records.map Record.key = n.keys := by
  rw [records]
  cases isLeaf : n.leaf with
  | true =>
    rw [if_pos rfl, map_map]
    exact map_fst_zip (Nat.le_of_eq (formed.leaf isLeaf).1.symm)
  | false =>
    rw [if_neg (by decide), map_map]
    exact map_fst_zip (Nat.le_of_eq (formed.internal isLeaf).2.1.symm)

theorem WellFormed.length_records (formed : n.WellFormed) : n.records.length = n.keys.length := by
  rw [← formed.map_key, length_map]

variable {idx : Nat} {record : Record}

theorem records_getElem?_leaf (isLeaf : n.leaf = true) (here : n.records[idx]? = some record) :
    record.pageID = 0 ∧ n.keys[idx]? = some record.key ∧ n.values[idx]? = some record.value := by
  rw [records, if_pos isLeaf, List.getElem?_map] at here
  obtain ⟨⟨key, value⟩, entry, rfl⟩ := Option.map_eq_some_iff.mp here
  exact ⟨rfl, List.getElem?_zip_eq_some.mp entry⟩

theorem records_getElem?_internal (isInternal : n.leaf = false)
    (here : n.records[idx]? = some record) : record.value = [] ∧ n.keys[idx]? = some record.key ∧
      ∃ childPage, n.childPages[idx]? = some childPage ∧ record.pageID = childPage.toNat := by
  rw [records, isInternal, if_neg (by decide), List.getElem?_map] at here
  obtain ⟨⟨key, childPage⟩, entry, rfl⟩ := Option.map_eq_some_iff.mp here
  obtain ⟨atKeys, atChildren⟩ := List.getElem?_zip_eq_some.mp entry
  exact ⟨rfl, atKeys, childPage, atChildren, rfl⟩

theorem WellFormed.ascend (formed : n.WellFormed) : KeysAscend n.records :=
  pairwise_map.mp (formed.map_key ▸ formed.ascending)

theorem WellFormed.admissible (formed : n.WellFormed) :
    AllAdmissible (pageNodeType n) n.records := by
  intro idx inRange
  have here : n.records[idx]? = some n.records[idx] := List.getElem?_eq_getElem inRange
  cases isLeaf : n.leaf with
  | true =>
    have type : pageNodeType n = nodeTypeLeaf := if_pos isLeaf
    obtain ⟨noChild, atKeys, atValues⟩ := records_getElem?_leaf isLeaf here
    have keys := fun empty => formed.sentinel idx (atKeys.trans (congrArg some empty))
    exact {
      typed := .inl type
      key_le := formed.key_le _ (mem_of_getElem? atKeys)
      value_le := formed.value_le _ (mem_of_getElem? atValues)
      key_ne_nil := fun later empty => later (keys empty).1
      sentinel := fun empty => Option.some.inj (atValues.symm.trans ((keys empty).2 isLeaf))
      leaf := fun _ => noChild
      internal := fun isInternal => absurd (type.symm.trans isInternal) (by decide)
      pageID_lt := by rw [noChild]; decide }
  | false =>
    have type : pageNodeType n = nodeTypeInternal := by rw [pageNodeType, isLeaf]; rfl
    obtain ⟨noValue, atKeys, childPage, atChildren, child⟩ :=
      records_getElem?_internal isLeaf here
    have nonzero : childPage ≠ 0 := fun zero =>
      (formed.internal isLeaf).2.2 (zero ▸ mem_of_getElem? atChildren)
    exact {
      typed := .inr type
      key_le := formed.key_le _ (mem_of_getElem? atKeys)
      value_le := by rw [noValue]; exact Nat.zero_le _
      key_ne_nil := fun later empty =>
        later (formed.sentinel idx (atKeys.trans (congrArg some empty))).1
      sentinel := fun _ => noValue
      leaf := fun isLeaf => absurd (type.symm.trans isLeaf) (by decide)
      internal := fun _ => ⟨fun zero => nonzero (UInt64.toNat_inj.mp (child.symm.trans zero)),
        noValue⟩
      pageID_lt := by rw [child]; exact childPage.toNat_lt }

theorem ofRecords_records (formed : n.WellFormed) : ofRecords n.leaf n.records = n := by
  obtain ⟨leaf, keys, values, childPages⟩ := n
  cases leaf with
  | true =>
    obtain ⟨counts, none⟩ := formed.leaf rfl
    simp only [ofRecords, formed.map_key, if_true, mk.injEq, true_and]
    refine ⟨?_, none.symm⟩
    rw [records, if_pos rfl, map_map]
    exact map_snd_zip (Nat.le_of_eq counts)
  | false =>
    obtain ⟨none, counts, -⟩ := formed.internal rfl
    simp only [ofRecords, formed.map_key, Bool.false_eq_true, if_false, mk.injEq, true_and]
    refine ⟨none.symm, ?_⟩
    rw [records, if_neg Bool.false_ne_true, map_map]
    have restore : ((fun record : Record => UInt64.ofNat record.pageID) ∘
        fun entry : Bytes × UInt64 => (⟨entry.2.toNat, entry.1, []⟩ : Record)) = Prod.snd := by
      funext entry
      simp
    exact restore ▸ map_snd_zip (Nat.le_of_eq counts)

variable {leaf : Bool} {records : List Record}

theorem records_ofRecords
    (admissible : AllAdmissible (pageNodeType (ofRecords leaf records)) records) :
    (ofRecords leaf records).records = records := by
  apply ext_getElem
  · cases leaf <;> simp [ofRecords, PageNode.records]
  intro idx inRange inRecords
  have here := admissible idx inRecords
  cases leaf with
  | true =>
    have noChild := here.leaf rfl
    simp [ofRecords, PageNode.records, ← noChild]
  | false =>
    obtain ⟨-, noValue⟩ := here.internal rfl
    have wide : (UInt64.ofNat records[idx].pageID).toNat = records[idx].pageID := by
      rw [UInt64.toNat_ofNat', Nat.mod_eq_of_lt here.pageID_lt]
    simp only [ofRecords, PageNode.records, Bool.false_eq_true, if_false, zip_map',
      map_map, getElem_map, Function.comp_apply, wide, ← noValue]

theorem wellFormed_ofRecords
    (admissible : AllAdmissible (pageNodeType (ofRecords leaf records)) records)
    (ascend : KeysAscend records) : (ofRecords leaf records).WellFormed where
  ascending := pairwise_map.mpr ascend
  sentinel := by
    intro idx empty
    rw [ofRecords, List.getElem?_map] at empty
    obtain ⟨record, here, isEmpty⟩ := Option.map_eq_some_iff.mp empty
    obtain ⟨inRange, rfl⟩ := List.getElem?_eq_some_iff.mp here
    have entry := admissible idx inRange
    refine ⟨by_contra fun later => entry.key_ne_nil later isEmpty, ?_⟩
    rintro rfl
    rw [ofRecords, if_pos rfl, List.getElem?_map, here, Option.map_some, entry.sentinel isEmpty]
  key_le := by
    intro key mem
    obtain ⟨record, stored, rfl⟩ := mem_map.mp mem
    obtain ⟨idx, entry⟩ := admissible.of_mem stored
    exact entry.key_le
  value_le := by
    intro value mem
    cases leaf with
    | true =>
      obtain ⟨record, stored, rfl⟩ := mem_map.mp mem
      obtain ⟨idx, entry⟩ := admissible.of_mem stored
      exact entry.value_le
    | false => cases mem
  leaf := by
    rintro rfl
    simp [ofRecords]
  internal := by
    rintro rfl
    refine ⟨rfl, by simp [ofRecords], ?_⟩
    intro mem
    obtain ⟨record, stored, zero⟩ := mem_map.mp mem
    obtain ⟨idx, entry⟩ := admissible.of_mem stored
    have wide := congrArg UInt64.toNat zero
    rw [UInt64.toNat_ofNat', Nat.mod_eq_of_lt entry.pageID_lt] at wide
    exact (entry.internal rfl).1 wide

theorem encodedSize_eq (n : PageNode) : n.encodedSize = nodeSize n.records := by
  rw [encodedSize, nodeSize]
  induction n.records with
  | nil => rfl
  | cons record records ih =>
    simp only [map_cons, sum_cons, length_cons, recordBytes_cons, Record.size,
      pageHeaderSize, pagePtrSize, pageOffsetSize] at ih ⊢
    omega

end PageNode

/-! ## Encoding -/

open PageNode

section Encode

variable {n : PageNode}

/-- The encoding loop from an intermediate page on: it writes the rest of the records
or runs out of space. -/
theorem appendEntries_eq (formed : n.WellFormed) :
    ∀ rest done, n.records = done ++ rest → Fits pageSize n.records.length done →
      appendEntries n (rest.map Record.key) done.length
          (layout pageSize (pageNodeType n) n.records.length done) =
        if nodeSize n.records ≤ pageSize then
          .ok (layout pageSize (pageNodeType n) n.records.length n.records)
        else .error errNodeFull := by
  intro rest
  induction rest with
  | nil =>
    intro done shape fits
    rw [append_nil] at shape
    rw [map_nil, appendEntries, if_pos, shape]
    exact shape ▸ fits.inside
  | cons record rest ih =>
    intro done shape fits
    have here : n.records[done.length]? = some record := by
      rw [shape]
      simp
    have entry : (if n.leaf then 0 else (n.childPages.getD done.length 0).toNat) = record.pageID ∧
        (if n.leaf then n.values.getD done.length [] else []) = record.value := by
      cases isLeaf : n.leaf with
      | true =>
        obtain ⟨noChild, -, value⟩ := records_getElem?_leaf isLeaf here
        simp [noChild, value]
      | false =>
        obtain ⟨noValue, -, childPage, child, pageID⟩ := records_getElem?_internal isLeaf here
        simp [noValue, child, pageID]
    have bytes : recordBytes n.records =
        recordBytes done + (record.size + recordBytes rest) := by
      rw [shape, recordBytes_append, recordBytes_cons]
    have room : done.length < n.records.length := by
      rw [shape]
      simp
    have admissible : Admissible (pageNodeType n) done.length record := by
      have at_done := formed.admissible done.length room
      rwa [(List.getElem?_eq_some_iff.mp here).2] at at_done
    rw [map_cons, appendEntries, entry.1, entry.2]
    by_cases inside : pageHeaderSize + n.records.length * (pagePtrSize + pageOffsetSize) +
        (recordBytes done + record.size) ≤ pageSize
    · rw [nodeAppendKV_layout fits room admissible inside]
      have step := ih (done ++ [record]) (by simp [shape]) (fits.append room inside)
      rwa [length_append, length_singleton] at step
    · rw [nodeAppendKV_layout_full fits room admissible (by omega), if_neg]
      · rfl
      · rw [nodeSize]
        omega

/-- The nodes that can be encoded, and their pages. -/
theorem encodePageNode_eq_ok {page : Bytes} :
    encodePageNode (some n) = .ok page ↔ n.WellFormed ∧ nodeSize n.records ≤ pageSize ∧
      page = layout pageSize (pageNodeType n) n.records.length n.records := by
  have typed : pageNodeType n = nodeTypeLeaf ∨ pageNodeType n = nodeTypeInternal := by
    cases isLeaf : n.leaf <;> simp [pageNodeType, isLeaf]
  rw [encodePageNode]
  cases checked : validatePageNode (some n) with
  | error err =>
    constructor
    · rintro ⟨⟩
    · rintro ⟨formed, inside, -⟩
      rw [(validatePageNode_eq_ok n).mpr ⟨formed, ?_⟩] at checked
      · cases checked
      · rw [nodeSize, formed.length_records] at inside
        omega
  | ok done =>
    obtain ⟨formed, start⟩ := (validatePageNode_eq_ok n).mp checked
    have empty : Fits pageSize n.records.length [] := by
      refine ⟨Nat.zero_le _, ?_, ?_, by decide⟩
      · rw [formed.length_records]
        simp only [pageHeaderSize, pagePtrSize, pageOffsetSize, pageSize] at start
        omega
      · rwa [formed.length_records, recordBytes_nil, Nat.add_zero]
    have loop := appendEntries_eq formed n.records [] rfl empty
    rw [formed.map_key, length_nil, formed.length_records] at loop
    dsimp only
    rw [setHeader_zeros start, loop]
    by_cases inside : nodeSize n.records ≤ pageSize
    · rw [if_pos inside]
      dsimp only
      rw [← formed.length_records, validateBNode_layout typed inside formed.admissible
        formed.ascend]
      simp only [Except.ok.injEq, formed, inside, true_and, eq_comm]
    · rw [if_neg inside]
      constructor
      · rintro ⟨⟩
      · exact fun spec => absurd spec.2.1 inside

end Encode

/-! ## Decoding -/

theorem decodePageNode_eq {page : Bytes} (valid : validateBNode page = .ok ()) :
    decodePageNode page =
      .ok (ofRecords (decide (btype page = nodeTypeLeaf)) (recordsOf page)) := by
  rw [decodePageNode, valid]
  simp only [ofRecords, recordsOf, map_map]
  rfl

theorem pageNodeType_ofRecords {page : Bytes} (page_ok : PageChecked page) (records : List Record) :
    pageNodeType (ofRecords (decide (btype page = nodeTypeLeaf)) records) = btype page := by
  rcases page_ok.typed with isLeaf | isInternal
  · simp [pageNodeType, ofRecords, isLeaf]
  · simp [pageNodeType, ofRecords, isInternal, nodeTypeLeaf, nodeTypeInternal]

/-- A node read back from its own page. -/
theorem decode_layout {n : PageNode} (formed : n.WellFormed)
    (inside : nodeSize n.records ≤ pageSize) :
    let page := layout pageSize (pageNodeType n) n.records.length n.records
    decodePageNode page = .ok n ∧ nbytes page = nodeSize n.records := by
  intro page
  have typed : pageNodeType n = nodeTypeLeaf ∨ pageNodeType n = nodeTypeInternal := by
    cases isLeaf : n.leaf <;> simp [pageNodeType, isLeaf]
  have written : ValidPage page (pageNodeType n) n.records :=
    validPage_layout typed inside formed.admissible formed.ascend
  have type : btype page = pageNodeType n := written.holds.type_eq
  have same : recordsOf page = n.records :=
    (type ▸ (validPage_of_valid written.valid).holds).records_unique written.holds
  refine ⟨?_, written.nbytes_eq⟩
  rw [decodePageNode_eq written.valid, same, type]
  have leaf : decide (pageNodeType n = nodeTypeLeaf) = n.leaf := by
    cases isLeaf : n.leaf <;> simp [pageNodeType, isLeaf, nodeTypeLeaf, nodeTypeInternal]
  rw [leaf, ofRecords_records formed]

/-- An accepted page decodes to a well-formed node with its records. -/
theorem decodePageNode_ok {page : Bytes} {n : PageNode} (decoded : decodePageNode page = .ok n) :
    validateBNode page = .ok () ∧ n.WellFormed ∧ n.records = recordsOf page ∧
      pageNodeType n = btype page := by
  cases valid : validateBNode page with
  | error err =>
    rw [decodePageNode, valid] at decoded
    cases decoded
  | ok done =>
    rw [decodePageNode_eq valid] at decoded
    obtain rfl := Except.ok.inj decoded
    have type := pageNodeType_ofRecords (pageChecked_of_valid valid) (recordsOf page)
    have held := validPage_of_valid valid
    have admissible := type.symm ▸ held.admissible
    exact ⟨rfl, wellFormed_ofRecords admissible held.ascend, records_ofRecords admissible, type⟩

/-! ## Accepted bytes are canonical up to their padding -/

section Canonical

variable {page : Bytes} (checked : PageChecked page)
include checked

theorem header_eq (reserved : slice page 10 6 = zeros 6) :
    header (btype page) (nkeys page) = slice page 0 pageHeaderSize := by
  have whole := checked.whole
  simp only [pageSize] at whole
  rw [header, ← checked.magic, ← checked.format, btype, nkeys, leBytes_readLE (by omega),
    leBytes_readLE (by omega), leBytes_readLE (by omega), ← reserved]
  simp only [slice_append_slice page _ _ _]
  rfl

/-- The pointers of the first `count` records. -/
theorem pointerArray_take : ∀ count, count ≤ nkeys page →
    pointerArray ((recordsOf page).take count) = slice page pageHeaderSize
      (count * pagePtrSize) := by
  intro count
  induction count with
  | zero => simp [pointerArray]
  | succ count ih =>
    intro bound
    have inRange : count < (recordsOf page).length := by
      rw [length_recordsOf]
      omega
    have start := checked.start
    have whole := checked.whole
    have pointer : leBytes pagePtrSize (recordAt page count).pageID =
        slice page (pageHeaderSize + count * pagePtrSize) pagePtrSize := by
      refine leBytes_readLE ?_
      simp only [pageHeaderSize, pagePtrSize, pageOffsetSize] at start ⊢
      omega
    rw [take_succ_eq_append_getElem inRange, pointerArray_append, ih (by omega),
      getElem_recordsOf, Nat.succ_mul, ← slice_append_slice, ← pointer]
    simp [pointerArray]

/-- The end offsets of the first `count` records. -/
theorem offsetArray_take : ∀ count, count ≤ nkeys page →
    offsetArray 0 ((recordsOf page).take count) =
      slice page (pageHeaderSize + nkeys page * pagePtrSize) (count * pageOffsetSize) := by
  intro count
  induction count with
  | zero => simp [offsetArray]
  | succ count ih =>
    intro bound
    have inRange : count < (recordsOf page).length := by
      rw [length_recordsOf]
      omega
    have start := checked.start
    have whole := checked.whole
    have next := getOffset_of_checked checked.records (count + 1) bound
    rw [recordBytes_take_succ inRange, getOffset, if_neg (Nat.succ_ne_zero count),
      Nat.add_sub_cancel] at next
    have offset : leBytes pageOffsetSize
        (recordBytes ((recordsOf page).take count) + (recordsOf page)[count].size) =
          slice page (pageHeaderSize + nkeys page * pagePtrSize + count * pageOffsetSize)
            pageOffsetSize := by
      rw [← next]
      refine leBytes_readLE ?_
      simp only [pageHeaderSize, pagePtrSize, pageOffsetSize] at start ⊢
      omega
    rw [take_succ_eq_append_getElem inRange, offsetArray_append, ih (by omega),
      Nat.succ_mul, ← slice_append_slice, ← offset]
    simp [offsetArray]

variable {idx : Nat}

/-- The stored lengths of a record are those of its key and value. -/
theorem length_recordAt (inRange : idx < nkeys page) :
    kvPos page idx + (recordAt page idx).size ≤ page.length ∧
      (getKey page idx).length = readLE page (kvPos page idx) 2 ∧
      (getVal page idx).length = readLE page (kvPos page idx + 2) 2 := by
  have stored := checked.records idx inRange
  have whole := checked.whole
  have ends := stored.exact_end
  have inside := stored.inside
  have key : (getKey page idx).length = readLE page (kvPos page idx) 2 :=
    length_slice (by omega)
  have value : (getVal page idx).length = readLE page (kvPos page idx + 2) 2 :=
    length_slice (by omega)
  refine ⟨?_, key, value⟩
  simp only [recordAt, Record.size, key, value]
  omega

/-- One record as stored. -/
theorem encode_recordAt (inRange : idx < nkeys page) :
    (recordAt page idx).encode = slice page (kvPos page idx) (recordAt page idx).size := by
  obtain ⟨inside, key, value⟩ := length_recordAt checked inRange
  simp only [recordAt, Record.size] at inside
  have content : getKey page idx ++ getVal page idx =
      slice page (kvPos page idx + 4) ((getKey page idx).length + (getVal page idx).length) := by
    rw [← slice_append_slice, key, value]
    rfl
  simp only [recordAt, Record.encode, Record.size]
  rw [content, key, value, leBytes_readLE (by omega), leBytes_readLE (by omega),
    slice_append_slice page (kvPos page idx + 2) 2, slice_append_slice]
  congr 1
  omega

/-- The first `count` records. -/
theorem recordArea_take : ∀ count, count ≤ nkeys page →
    recordArea ((recordsOf page).take count) =
      slice page (pageHeaderSize + nkeys page * (pagePtrSize + pageOffsetSize))
        (recordBytes ((recordsOf page).take count)) := by
  intro count
  induction count with
  | zero => simp [recordArea]
  | succ count ih =>
    intro bound
    have inRange : count < (recordsOf page).length := by
      rw [length_recordsOf]
      omega
    have stored := checked.records count (by omega)
    have position : kvPos page count =
        pageHeaderSize + nkeys page * (pagePtrSize + pageOffsetSize) +
          recordBytes ((recordsOf page).take count) := by
      rw [← getOffset_of_checked checked.records count (by omega)]
      exact kvPos_of_inside (by have := stored.next; have := stored.inside; omega)
    rw [recordBytes_take_succ inRange, take_succ_eq_append_getElem inRange,
      recordArea_append, ih (by omega), ← slice_append_slice, ← position, getElem_recordsOf,
      ← encode_recordAt checked (by omega)]
    simp [recordArea]

/-- An accepted page with zeroed padding is the layout of its records. -/
theorem layout_recordsOf (reserved : slice page 10 6 = zeros 6)
    (tail : page.drop (nbytes page) = zeros (page.length - nbytes page))
    (size : nbytes page = nodeSize (recordsOf page)) :
    layout pageSize (btype page) (recordsOf page).length (recordsOf page) = page := by
  have pointers := pointerArray_take checked _ (Nat.le_refl _)
  have offsets := offsetArray_take checked _ (Nat.le_refl _)
  have area := recordArea_take checked _ (Nat.le_refl _)
  rw [← length_recordsOf, take_length, length_recordsOf] at pointers offsets area
  have positions : pageHeaderSize + nkeys page * pagePtrSize + nkeys page * pageOffsetSize =
      pageHeaderSize + nkeys page * (pagePtrSize + pageOffsetSize) := by
    rw [Nat.mul_add, Nat.add_assoc]
  have rest : zeros (pageSize - (pageHeaderSize +
      nkeys page * (pagePtrSize + pageOffsetSize) + recordBytes (recordsOf page))) =
        page.drop (pageHeaderSize + nkeys page * (pagePtrSize + pageOffsetSize) +
          recordBytes (recordsOf page)) := by
    rw [size, nodeSize, length_recordsOf, checked.whole] at tail
    exact tail.symm
  rw [layout, length_recordsOf, Nat.sub_self, Nat.zero_mul, Nat.zero_mul, zeros_zero,
    nil_append, nil_append, header_eq checked reserved, pointers, offsets, area, rest,
    slice_append_drop, ← positions, slice_append_drop, slice_append_drop]
  exact slice_append_drop page 0 pageHeaderSize

end Canonical

end GoDatabase
