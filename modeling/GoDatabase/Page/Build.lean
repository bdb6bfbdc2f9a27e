import GoDatabase.Page.Layout

/-!
# Building a node from pieces of other nodes

Every mutation of the tree writes a fresh node: it sets the header for the final
number of entries and then appends single records and ranges of existing nodes.
Each intermediate buffer is the layout of the records appended so far.
-/

namespace GoDatabase

open Library BNode List

/-- Every record of a node may stand at its index. -/
def AllAdmissible (nodeType : Nat) (records : List Record) : Prop :=
  ∀ idx (inRange : idx < records.length), Admissible nodeType idx records[idx]

variable {records : List Record}

theorem AllAdmissible.of_mem {nodeType : Nat}
    (admissible : AllAdmissible nodeType records) {record : Record} (mem : record ∈ records) :
    ∃ idx, Admissible nodeType idx record := by
  obtain ⟨idx, inRange, rfl⟩ := getElem_of_mem mem
  exact ⟨idx, admissible idx inRange⟩

/-- Enough room for a complete node. -/
theorem fits_of_nodeSize {capacity : Nat} (inside : nodeSize records ≤ capacity)
    (bounded : capacity < 2 ^ 16) : Fits capacity records.length records where
  placed := Nat.le_refl _
  counted := by
    simp only [nodeSize, pageHeaderSize, pagePtrSize, pageOffsetSize] at inside
    omega
  inside := inside
  bounded := bounded

/-- The first records of a node that fits. -/
theorem Fits.front {capacity keyCount : Nat} {front back : List Record}
    (fits : Fits capacity keyCount (front ++ back)) : Fits capacity keyCount front where
  placed := by
    have placed := fits.placed
    rw [length_append] at placed
    omega
  counted := fits.counted
  inside := by
    have inside := fits.inside
    rw [recordBytes_append] at inside
    omega
  bounded := fits.bounded

/-- Appending a range of another node's records succeeds exactly when they fit. -/
theorem nodeAppendRange_layout {capacity nodeType keyCount srcType : Nat} {src : BNode}
    {pre segment post records : List Record} (holds : Holds src srcType (pre ++ (segment ++ post)))
    (fits : Fits capacity keyCount records) (room : records.length + segment.length ≤ keyCount)
    (admissible : ∀ idx (inRange : idx < segment.length),
      Admissible nodeType (records.length + idx) segment[idx]) :
    nodeAppendRange (layout capacity nodeType keyCount records) src records.length pre.length
        segment.length =
      if pageHeaderSize + keyCount * (pagePtrSize + pageOffsetSize) +
          recordBytes (records ++ segment) ≤ capacity then
        .ok (layout capacity nodeType keyCount (records ++ segment))
      else .error errNodeFull := by
  have total : (pre ++ (segment ++ post)).length = pre.length + segment.length + post.length := by
    simp only [length_append]
    omega
  have cut : ((pre ++ (segment ++ post)).drop (pre.length + 0)).take segment.length = segment := by
    simp
  rw [nodeAppendRange, nkeys_layout fits.counted, holds.count_eq, if_neg (by omega),
    nodeAppendRangeLoop_layout holds _ _ _ _ _ fits rfl (by omega) (by omega) ?_, cut]
  intro idx inRange low high
  have shifted : idx - pre.length < segment.length := by omega
  have moved := admissible (idx - pre.length) shifted
  have copied : (pre ++ (segment ++ post))[idx] = segment[idx - pre.length] := by
    rw [getElem_append_right (by omega), getElem_append_left]
  rw [copied]
  rwa [Nat.add_comm] at moved

section Complete

variable {capacity nodeType : Nat} {done rest all : List Record}
  (fits : Fits capacity all.length all)
include fits

/-- The buffer before the first append. -/
theorem setHeader_start :
    setHeader (zeros capacity) nodeType all.length = layout capacity nodeType all.length [] := by
  apply setHeader_zeros
  have inside := fits.inside
  omega

variable (admissible : AllAdmissible nodeType all)
include admissible

/-- One record of a complete node. -/
theorem appendKV_ok {record : Record} (shape : all = done ++ record :: rest) :
    nodeAppendKV (layout capacity nodeType all.length done) done.length record.pageID record.key
        record.value = .ok (layout capacity nodeType all.length (done ++ [record])) := by
  have inside := fits.inside
  have width : done.length < all.length := by
    rw [shape, length_append, length_cons]
    omega
  have here := admissible done.length width
  have isRecord : all[done.length] = record := by
    simp only [shape]
    rw [getElem_append_right (Nat.le_refl _)]
    simp
  rw [isRecord] at here
  refine nodeAppendKV_layout ?_ width here ?_
  · exact @Fits.front _ _ done (record :: rest) (shape ▸ fits)
  · have bytes : recordBytes all = recordBytes done + (record.size + recordBytes rest) := by
      rw [shape, recordBytes_append, recordBytes_cons]
    omega

variable {src : BNode} {srcType : Nat}

/-- A range of records of a complete node. -/
theorem appendRange_ok {pre segment post : List Record}
    (holds : Holds src srcType (pre ++ (segment ++ post)))
    (shape : all = done ++ (segment ++ rest)) :
    nodeAppendRange (layout capacity nodeType all.length done) src done.length pre.length
        segment.length = .ok (layout capacity nodeType all.length (done ++ segment)) := by
  have width : done.length + segment.length ≤ all.length := by
    rw [shape, length_append, length_append]
    omega
  rw [nodeAppendRange_layout holds ?_ width ?_, if_pos]
  · have inside := fits.inside
    have bytes : recordBytes all = recordBytes (done ++ segment) + recordBytes rest := by
      rw [shape, ← append_assoc, recordBytes_append]
    omega
  · exact @Fits.front _ _ done (segment ++ rest) (shape ▸ fits)
  · intro idx inRange
    have here := admissible (done.length + idx) (by omega)
    have copied : all[done.length + idx] = segment[idx] := by
      simp only [shape]
      rw [getElem_append_right (by omega), getElem_append_left (by omega)]
      simp
    rwa [copied] at here

/-- The first range of a complete node. -/
theorem appendFront_ok {front post : List Record} (holds : Holds src srcType (front ++ post))
    (shape : all = front ++ rest) :
    nodeAppendRange (layout capacity nodeType all.length []) src 0 0 front.length =
      .ok (layout capacity nodeType all.length front) :=
  @appendRange_ok capacity nodeType [] rest all fits admissible src srcType [] front post holds
    shape

/-- The last range of a complete node. -/
theorem appendBack_ok {pre back : List Record} (holds : Holds src srcType (pre ++ back))
    (shape : all = done ++ back)
    {dstStart srcStart count : Nat} (dstEq : dstStart = done.length) (srcEq : srcStart = pre.length)
    (countEq : count = back.length) :
    nodeAppendRange (layout capacity nodeType all.length done) src dstStart srcStart count =
      .ok (layout capacity nodeType all.length all) := by
  subst dstEq srcEq countEq
  have whole : pre ++ back = pre ++ (back ++ []) := by rw [append_nil]
  have shapeNil : all = done ++ (back ++ []) := by rw [append_nil, shape]
  have step := appendRange_ok fits admissible (whole ▸ holds) shapeNil
  rwa [← shape] at step

end Complete

end GoDatabase
