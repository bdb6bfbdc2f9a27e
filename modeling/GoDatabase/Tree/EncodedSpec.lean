import GoDatabase.Tree.Pages

/-!
# What the node builders produce

Every builder of `page_tree.go` is given by the list of records that its result
holds.  A node built in a buffer that is large enough is the layout of those
records; a node that outgrows its page is reported by the append that runs out of
space.
-/

namespace GoDatabase

open Library BNode Packing List Item

section Records

variable {before after all : List Record} {key value : Bytes}

section

variable (shape : all = before ++ ⟨0, key, value⟩ :: after)
  (fits : Fits (2 * pageSize) all.length all) (admissible : AllAdmissible nodeTypeLeaf all)
include shape fits admissible

theorem leafInsertEncoded_eq {old : BNode} (holds : Holds old nodeTypeLeaf (before ++ after)) :
    leafInsertEncoded old before.length key value =
      .ok (layout (2 * pageSize) nodeTypeLeaf all.length all) := by
  have count : nkeys old = before.length + after.length := by
    rw [holds.count_eq, length_append]
  have total : nkeys old + 1 = all.length := by
    rw [count, shape, length_append, length_cons]
    omega
  have front := appendFront_ok fits admissible holds shape
  have middle := appendKV_ok fits admissible shape
  have back := appendBack_ok fits admissible holds
    (show all = (before ++ [⟨0, key, value⟩]) ++ after by rw [shape, append_cons])
    (show before.length + 1 = _ by simp) rfl (show nkeys old - before.length = _ by omega)
  rw [leafInsertEncoded, total, setHeader_start fits]
  simp only [front, middle, back, ok_bind]

theorem leafUpdateEncoded_eq {old : BNode} {record : Record}
    (holds : Holds old nodeTypeLeaf (before ++ record :: after)) :
    leafUpdateEncoded old before.length key value =
      .ok (layout (2 * pageSize) nodeTypeLeaf all.length all) := by
  have count : nkeys old = before.length + (after.length + 1) := by
    rw [holds.count_eq, length_append, length_cons]
  have total : nkeys old = all.length := by
    rw [count, shape, length_append, length_cons]
  have front := appendFront_ok fits admissible holds shape
  have middle := appendKV_ok fits admissible shape
  rw [append_cons] at holds
  have back := appendBack_ok fits admissible holds
    (show all = (before ++ [⟨0, key, value⟩]) ++ after by rw [shape, append_cons])
    (show before.length + 1 = _ by simp) (show before.length + 1 = _ by simp)
    (show nkeys old - before.length - 1 = _ by omega)
  rw [leafUpdateEncoded, total, setHeader_start fits, ← total]
  simp only [total, front, middle, ok_bind]
  rwa [total] at back

end

variable {nodeType : Nat} {old node : BNode} {record : Record} {done segment rest : List Record}

/-- Both deletions of a record leave the records before and after it. -/
theorem removeRecord_eq (holds : Holds old nodeType (before ++ record :: after))
    (shape : all = before ++ after) (fits : Fits pageSize all.length all)
    (admissible : AllAdmissible nodeType all) :
    (do
      let updated := setHeader (zeros pageSize) nodeType (nkeys old - 1)
      let updated ← nodeAppendRange updated old 0 0 before.length
      nodeAppendRange updated old before.length (before.length + 1) (nkeys old - before.length - 1))
        =
      .ok (layout pageSize nodeType all.length all) := by
  have count : nkeys old = before.length + (after.length + 1) := by
    rw [holds.count_eq, length_append, length_cons]
  have total : nkeys old - 1 = all.length := by
    rw [count, shape, length_append]
    omega
  have front := appendFront_ok fits admissible holds shape
  rw [append_cons] at holds
  have back := appendBack_ok fits admissible holds shape rfl
    (show before.length + 1 = _ by simp) (show nkeys old - before.length - 1 = _ by omega)
  rw [total, setHeader_start fits]
  simp only [front, back, ok_bind]

theorem leafDeleteEncoded_eq (holds : Holds old nodeTypeLeaf (before ++ record :: after))
    (shape : all = before ++ after) (fits : Fits pageSize all.length all)
    (admissible : AllAdmissible nodeTypeLeaf all) :
    leafDeleteEncoded old before.length = .ok (layout pageSize nodeTypeLeaf all.length all) :=
  removeRecord_eq holds shape fits admissible

theorem removeChildEncoded_eq {parent : BNode}
    (holds : Holds parent nodeTypeInternal (before ++ record :: after))
    (shape : all = before ++ after) (fits : Fits pageSize all.length all)
    (admissible : AllAdmissible nodeTypeInternal all) : removeChildEncoded parent before.length =
      .ok (layout pageSize nodeTypeInternal all.length all) :=
  removeRecord_eq holds shape fits admissible

theorem mergeEncodedNodes_eq {left right : BNode} {leftRecords rightRecords : List Record}
    (holdsLeft : Holds left nodeType leftRecords) (holdsRight : Holds right nodeType rightRecords)
    (small : leftRecords.length + rightRecords.length < 2 ^ 16)
    (admissible : AllAdmissible nodeType (leftRecords ++ rightRecords)) :
    mergeEncodedNodes left right = .ok
      (if nodeSize (leftRecords ++ rightRecords) ≤ pageSize then
        some (layout pageSize nodeType (leftRecords ++ rightRecords).length
          (leftRecords ++ rightRecords))
      else none) := by
  have count : (nkeys left + nkeys right) % 2 ^ 16 = (leftRecords ++ rightRecords).length := by
    rw [holdsLeft.count_eq, holdsRight.count_eq, length_append, Nat.mod_eq_of_lt small]
  have size : pageHeaderSize + (leftRecords ++ rightRecords).length *
      (pagePtrSize + pageOffsetSize) +
      (getOffset left (nkeys left) + getOffset right (nkeys right)) =
      nodeSize (leftRecords ++ rightRecords) := by
    rw [holdsLeft.total_eq, holdsRight.total_eq, nodeSize, recordBytes_append]
  rw [mergeEncodedNodes, if_neg (by simp [holdsLeft.type_eq, holdsRight.type_eq]), count,
    holdsLeft.type_eq]
  simp only [size]
  by_cases inside : nodeSize (leftRecords ++ rightRecords) ≤ pageSize
  · have fits := fits_of_nodeSize inside (by decide)
    have front := @appendFront_ok pageSize nodeType rightRecords _ fits admissible left nodeType
      leftRecords [] (by rwa [append_nil]) rfl
    have back := @appendBack_ok pageSize nodeType leftRecords _ fits admissible right nodeType []
      rightRecords holdsRight rfl _ 0 _ holdsLeft.count_eq rfl holdsRight.count_eq
    rw [if_neg (by omega), if_pos inside, setHeader_start fits, holdsLeft.count_eq]
    rw [holdsLeft.count_eq] at back
    simp only [front, back, ok_bind]
    rfl
  · rw [if_pos (by omega), if_neg inside]

theorem nodeRangeSize_eq (holds : Holds node nodeType (done ++ (segment ++ rest)))
    (small : recordBytes (done ++ (segment ++ rest)) < 2 ^ 16) :
    nodeRangeSize node done.length segment.length = nodeSize segment := by
  have start : getOffset node done.length = recordBytes done := by
    rw [holds.offset_eq _ (by simp), take_left]
  have stop : getOffset node (done.length + segment.length) =
      recordBytes done + recordBytes segment := by
    rw [holds.offset_eq _ (by simp), ← append_assoc, ← length_append,
      take_left, recordBytes_append]
  rw [recordBytes_append, recordBytes_append] at small
  rw [nodeRangeSize, start, stop, nodeSize]
  omega

theorem copyNodeRange_eq (holds : Holds node nodeType (done ++ (segment ++ rest)))
    (typed : nodeType = nodeTypeLeaf ∨ nodeType = nodeTypeInternal)
    (inside : nodeSize segment ≤ pageSize) (admissible : AllAdmissible nodeType segment)
    (ascend : KeysAscend segment) : copyNodeRange node done.length segment.length =
      .ok (layout pageSize nodeType segment.length segment) := by
  have fits := fits_of_nodeSize inside (by decide)
  have copied := @appendRange_ok pageSize nodeType [] [] segment fits admissible node nodeType
    done segment rest holds (by simp)
  rw [nil_append] at copied
  have accepted := validateBNode_layout typed inside admissible ascend
  rw [copyNodeRange, holds.type_eq, setHeader_start fits]
  simp only [length_nil] at copied
  simp only [copied, accepted, ok_bind]
  rfl

end Records

/-! ## Splitting -/

section Split

variable {h : Nat} {node : BNode} {items : List (Item Nat h)}

theorem recordBytes_le_pageBytes (items : List (Item Nat h)) :
    recordBytes (items.map record) ≤ pageBytes items := by
  rw [← nodeSize_records, nodeSize]
  omega

variable {done segment rest : List (Item Nat h)}

section

variable (holds : Holds node (nodeType h) (items.map Item.record))
include holds

theorem nodeRangeSize_items
    (light : pageBytes items < 2 ^ 16) (shape : items = done ++ (segment ++ rest)) :
    nodeRangeSize node done.length segment.length = pageBytes segment := by
  have bytes := recordBytes_le_pageBytes items
  subst shape
  rw [map_append, map_append] at holds bytes
  rw [← nodeSize_records, ← nodeRangeSize_eq holds (by omega), length_map, length_map]

theorem copyNodeRange_items (shape : items = done ++ (segment ++ rest))
    (encodable : Encodable segment) (inside : pageBytes segment ≤ pageSize) :
    copyNodeRange node done.length segment.length = .ok (encodeItems pageSize segment) := by
  subst shape
  rw [map_append, map_append] at holds
  have copied := copyNodeRange_eq holds (nodeType_typed h) (by rwa [nodeSize_records])
    encodable.admissible encodable.keysAscend
  rw [encodeItems, ← copied, length_map, length_map]

/-- The inner loop closes a part where the packing closes its bin. -/
theorem splitEnd_eq (light : pageBytes items < 2 ^ 16) (done : List (Item Nat h)) :
    ∀ (rest bin : List (Item Nat h)) (rounds : Nat), items = done ++ (bin ++ rest) →
      rest.length ≤ rounds → ∃ taken others, rest = taken ++ others ∧
        splitEnd node done.length rounds (done.length + bin.length) =
          done.length + (bin ++ taken).length ∧
        packFrom weight pageHeaderSize pageSize bin rest =
          (bin ++ taken) :: pack weight pageHeaderSize pageSize others := by
  intro rest
  induction rest with
  | nil =>
    intro bin rounds shape _
    refine ⟨[], [], rfl, ?_, by simp [packFrom, pack]⟩
    have count : nkeys node = done.length + bin.length := by
      rw [holds.count_eq, shape]
      simp
    cases rounds with
    | zero => simp [splitEnd]
    | succ rounds => rw [splitEnd, if_neg (by omega), append_nil]
  | cons item rest ih =>
    intro bin rounds shape enough
    obtain ⟨rounds, rfl⟩ : ∃ fewer, rounds = fewer + 1 :=
      ⟨rounds - 1, by rw [length_cons] at enough; omega⟩
    have longer : items = done ++ ((bin ++ [item]) ++ rest) := by
      rw [shape, append_assoc, singleton_append]
    have within : done.length + bin.length < nkeys node := by
      rw [holds.count_eq, shape]
      simp
    have size := nodeRangeSize_items holds light longer
    rw [length_append, length_singleton] at size
    have binSize : pageBytes (bin ++ [item]) =
        pageHeaderSize + total weight bin + item.weight := by
      rw [pageBytes, total_append, total_cons, total_nil]
      omega
    rw [splitEnd, packFrom, show done.length + bin.length - done.length + 1 =
      bin.length + 1 by omega, size, binSize]
    by_cases room : pageHeaderSize + total weight bin + item.weight ≤ pageSize
    · obtain ⟨taken, others, restShape, stop, packed⟩ := ih (bin ++ [item]) rounds longer
        (by rw [length_cons] at enough; omega)
      refine ⟨item :: taken, others, by rw [restShape, cons_append], ?_, ?_⟩
      · rw [if_pos ⟨within, room⟩]
        rw [length_append, length_singleton, ← Nat.add_assoc] at stop
        rw [stop, append_assoc, singleton_append]
      · rw [if_pos room, packed, append_assoc, singleton_append]
    · refine ⟨[], item :: rest, rfl, ?_, ?_⟩
      · rw [if_neg (by simp [room]), append_nil]
      · rw [if_neg room, append_nil, pack]

theorem splitLoop_eq (encodable : Encodable items) (light : pageBytes items < 2 ^ 16) :
    ∀ (rounds : Nat) (rest done : List (Item Nat h)) (parts : List BNode), items = done ++ rest →
      rest.length ≤ rounds →
      (∀ part ∈ pack weight pageHeaderSize pageSize rest, pageBytes part ≤ pageSize) →
      parts.length + (pack weight pageHeaderSize pageSize rest).length ≤ 3 →
      splitLoop node rounds done.length parts = .ok (parts ++
        (pack weight pageHeaderSize pageSize rest).map (encodeItems pageSize)) := by
  intro rounds
  induction rounds with
  | zero =>
    intro rest done parts shape enough _ _
    have empty : rest = [] := length_eq_zero_iff.mp (by omega)
    rw [empty, splitLoop, pack, map_nil, append_nil]
  | succ rounds ih =>
    intro rest done parts shape enough inside few
    have count : nkeys node = done.length + rest.length := by
      rw [holds.count_eq, shape]
      simp
    cases rest with
    | nil =>
      rw [length_nil] at count
      rw [splitLoop, if_neg (by omega), pack, map_nil, append_nil]
    | cons item rest =>
      rw [length_cons] at count enough
      obtain ⟨taken, others, restShape, stop, packed⟩ :=
        splitEnd_eq holds light done rest [item] (nkeys node) shape (by omega)
      rw [length_singleton] at stop
      rw [pack, packed] at inside few ⊢
      have cut : items = done ++ (([item] ++ taken) ++ others) := by
        rw [shape, restShape]
        simp
      have width : done.length + ([item] ++ taken).length - done.length =
          ([item] ++ taken).length := by omega
      have partInside := inside _ (mem_cons_self ..)
      have partEncodable : Encodable ([item] ++ taken) := (cut ▸ encodable).segment
      have following := ih others (done ++ ([item] ++ taken))
        (parts ++ [encodeItems pageSize ([item] ++ taken)])
        (by rw [cut]; simp only [append_assoc])
        (by
          have := congrArg List.length restShape
          rw [length_append] at this
          omega)
        (fun part mem => inside part (mem_cons_of_mem _ mem))
        (by
          rw [length_cons] at few
          rw [length_append, length_singleton]
          omega)
      rw [length_append] at following
      have room : ¬ 3 < (parts ++ [encodeItems pageSize ([item] ++ taken)]).length := by
        rw [length_cons] at few
        rw [length_append, length_singleton]
        omega
      rw [splitLoop, if_pos (by omega), stop]
      simp only [width, nodeRangeSize_items holds light cut, if_neg (Nat.not_lt.mpr partInside),
        copyNodeRange_items holds cut partEncodable partInside, ok_bind, if_neg room]
      rw [following, map_cons, append_assoc, singleton_append]

end

/-- Splitting an encoded node yields the pages of its parts. -/
theorem nodeSplit3_eq (encodable : Encodable items) (light : pageBytes items ≤ 2 * pageSize)
    (few : (splitItems items).length ≤ 3)
    (inside : ∀ part ∈ splitItems items, pageBytes part ≤ pageSize) :
    nodeSplit3 (encodeItems (2 * pageSize) items) =
      .ok ((splitItems items).map (encodeItems pageSize)) := by
  have holds := encodable.holds light (by decide)
  have small : pageBytes items < 2 ^ 16 := by
    simp only [pageSize] at light
    omega
  have size : nbytes (encodeItems (2 * pageSize) items) = pageBytes items := by
    rw [holds.nbytes_eq (by rwa [nodeSize_records]), nodeSize_records]
  have count : nkeys (encodeItems (2 * pageSize) items) = items.length := by
    rw [holds.count_eq, length_map]
  rw [nodeSplit3, size]
  by_cases single : pageBytes items ≤ pageSize
  · have whole : items = [] ++ (items ++ []) := by simp
    have copied := copyNodeRange_items holds whole encodable single
    rw [length_nil, ← count] at copied
    rw [if_pos single, copied, splitItems, if_pos single]
    rfl
  · rw [splitItems, if_neg single] at few inside ⊢
    rw [if_neg single]
    exact splitLoop_eq holds encodable small _ items [] [] rfl (by rw [count]) inside
      (by simpa using few)

end Split

end GoDatabase
