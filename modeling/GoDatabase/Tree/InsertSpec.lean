import GoDatabase.Tree.Rewrite

/-!
# Insertion into a stored tree

The encoded insertion on a stored tree: the tree that it stores has the shape that
`insertItems` describes, the pages of the old tree are either part of the new one or
reported as obsolete, and every page keeps its contents.  The only failure is that
the allocator runs out of pages.
-/

namespace GoDatabase

open Library BNode Fallible SortedMap List Item

section Children

variable {h : Nat}

/-- The parts of a child take its place in the parent. -/
theorem replaceChild_spec {before after : List (Item Nat (h + 1))} {child : Item Nat (h + 1)}
    {parts : List (List (Item Nat h))} {parent : BNode} {work : Work} {live : List Nat}
    (holds : Holds parent nodeTypeInternal ((before ++ child :: after).map record))
    (encodable : Encodable (before ++ (parts.map (Item.node 1) ++ after)))
    (inside : pageBytes (before ++ (parts.map (Item.node 1) ++ after)) ≤ 2 * pageSize)
    (storing : ∀ part ∈ parts, Storing part) (nonempty : parts ≠ []) (sound : work.Sound live) :
    (∃ children next, replaceChild parent before.length (parts.map (encodeItems pageSize)) work =
        .ok (encodeItems (2 * pageSize) (before ++ (children ++ after))) next ∧
      Encodable (before ++ (children ++ after)) ∧ Allocated work live parts children next) ∨
    Fails work (replaceChild parent before.length (parts.map (encodeItems pageSize)) work) := by
  have positive : 0 < parts.length := length_pos_iff.mpr nonempty
  -- the records with placeholder pages, which have the sizes of the final ones
  obtain ⟨placed, placed_eq⟩ :
      ∃ placed, placed = (before ++ (parts.map (Item.node 1) ++ after)).map record := ⟨_, rfl⟩
  have placedShape : placed = before.map record ++
      ((parts.map (Item.node 1)).map record ++ after.map record) := by
    rw [placed_eq, map_append, map_append]
  have bounded : 2 * pageSize < 2 ^ 16 := by decide
  have fits : Fits (2 * pageSize) placed.length placed := placed_eq ▸ fits_items inside bounded
  have admissible : AllAdmissible nodeTypeInternal placed := placed_eq ▸ encodable.admissible
  have frontFits : Fits (2 * pageSize) placed.length (before.map record) := by
    have whole := fits
    rw [placedShape] at whole
    rw [placedShape]
    exact whole.front
  rw [map_append, map_cons] at holds
  have count : nkeys parent = before.length + (after.length + 1) := by
    rw [holds.count_eq, length_append, length_cons, length_map, length_map]
  have placedLength : placed.length = before.length + (parts.length + after.length) := by
    rw [placedShape]
    simp only [length_append, length_map]
  have total : nkeys parent + (parts.map (encodeItems pageSize)).length - 1 = placed.length := by
    rw [count, placedLength, length_map]
    omega
  have front := appendFront_ok fits admissible holds placedShape
  rw [length_map] at front
  have bytes : recordBytes placed = recordBytes (before.map record) +
      (recordBytes (parts.map fun part => (Item.node 0 part).record) +
        recordBytes (after.map record)) := by
    rw [placedShape, recordBytes_append, recordBytes_append]
    simp only [recordBytes, map_map]
    rfl
  have keys : before.map record ≠ [] → ∀ part ∈ parts, (Item.node 0 part).key ≠ [] := by
    intro late part isPart
    cases before with
    | nil => exact absurd rfl late
    | cons first before =>
      exact encodable.key_ne_nil (Item.node 1 part) (by simp [mem_map_of_mem isPart])
  have tailKeys : ∀ part ∈ parts.tail, (Item.node 0 part).key ≠ [] := by
    intro part isPart
    apply encodable.key_ne_nil (Item.node 1 part)
    cases parts with
    | nil => cases isPart
    | cons first parts =>
      have isNode : Item.node 1 part ∈ parts.map (Item.node 1) := mem_map_of_mem isPart
      cases before with
      | nil => exact mem_append_left _ isNode
      | cons other before =>
        exact mem_append_right _ (mem_append_left _ (mem_cons_of_mem _ isNode))
  rw [replaceChild, total, setHeader_start fits, lift_bind_of_ok front]
  rcases appendChildren_spec parts (before.map record) work live sound storing keys tailKeys
      frontFits (by rw [length_map]; omega) (by have := fits.inside; omega) with
    ⟨children, next, run, allocated⟩ | fails
  · left
    have same : children.map items = (parts.map (Item.node 1)).map items := by
      rw [allocated.items, map_map]
      exact (map_id _).symm
    have final := encodable.relabel same allocated.addressed
    have finalInside : pageBytes (before ++ (children ++ after)) ≤ 2 * pageSize := by
      rwa [pageBytes_relabel same]
    have lengths : children.length = parts.length := by
      rw [← allocated.items, length_map]
    have sameTotal : ((before ++ (children ++ after)).map record).length = placed.length := by
      rw [placedLength]
      simp only [length_append, length_map, lengths]
    refine ⟨children, next, ?_, final, allocated⟩
    rw [length_map] at run
    rw [bind_of_ok run]
    apply lift_of_ok
    rw [← sameTotal]
    rw [append_cons] at holds
    refine appendBack_ok (fits_items finalInside bounded) final.admissible holds ?_ ?_ ?_ ?_
    · simp only [map_append, append_assoc]
    · simp only [length_append, length_map, lengths]
    · simp
    · rw [length_map, count]
      omega
  · rw [length_map] at fails
    exact .inr fails.bind

end Children

/-! ## The recursion -/

section Insert

variable {key value : Bytes}

/-- An insertion below a node rewrites it as `insertItems` says. -/
structure Inserted {h : Nat} (key value : Bytes) (items : List (Item Nat h)) (work : Work)
    (rest : List Nat) (updated : List (Item Nat h)) (obsolete : List Nat) (next : Work) : Prop
    extends Rewritten items work rest updated obsolete next where
  shape : updated.map Item.erase = insertItems key value (items.map Item.erase)

namespace Inserted

variable {h : Nat} {items updated : List (Item Nat h)} {work next : Work}
  {rest obsolete : List Nat}

section

variable (inserted : Inserted key value items work rest updated obsolete next)
include inserted

theorem entries (descends : Descends items key) :
    entriesOf updated = put key value (entriesOf items) := by
  rw [← entriesOf_erase, inserted.shape, entriesOf_insertItems descends.erase, entriesOf_erase]

variable (storable : Storable key value) (descends : Descends items key)
  (inside : pageBytes items ≤ pageSize)
include storable descends inside

theorem light : pageBytes updated ≤ pageSize + insertLimit := by
  have limit := (insertItems_spec storable descends.erase (by rwa [pageBytes_erase])).2
  rw [← inserted.shape, pageBytes_erase, pageBytes_erase] at limit
  omega

theorem doubled : pageBytes updated ≤ 2 * pageSize :=
  (inserted.light storable descends inside).trans (by decide)

theorem parts : Parts updated (splitItems updated) := by
  refine splitItems_parts inserted.encodable.fit ?_ (inserted.light storable descends inside)
  intro empty
  apply @insertItems_ne_nil _ key value _ descends.erase
  rw [← inserted.shape, empty, map_nil]

/-- The parts of the updated node are written as they are. -/
theorem nodeSplit3_ok : nodeSplit3 (encodeItems (2 * pageSize) updated) =
    .ok ((splitItems updated).map (encodeItems pageSize)) := by
  have split := inserted.parts storable descends inside
  exact nodeSplit3_eq inserted.encodable (inserted.doubled storable descends inside) split.few
    split.inside

end

end Inserted

section Parent

variable {h : Nat} {items before after : List (Item Nat (h + 1))} {child : Item Nat (h + 1)}
  {updated : List (Item Nat h)} {work middle next : Work} {rest obsolete : List Nat}

/-- The node in which the parts of the updated child replace the child. -/
theorem Inserted.parent_erase (inserted : Inserted key value child.items work
      (child.label :: (labelsOf before ++ (labelsOf after ++ rest))) updated obsolete middle)
    (around : Around items key before child after) {children : List (Item Nat (h + 1))}
    (same : children.map erase =
      ((splitItems updated).map fun part => part.map erase).map (Item.node ())) :
    (before ++ (children ++ after)).map erase =
      insertItems key value (items.map erase) := by
  rw [insertItems_around around.erase, map_append, map_append, same, ← splitItems_erase,
    inserted.shape]
  rfl

section

variable
  (inserted : Inserted key value child.items work
    (child.label :: (labelsOf before ++ (labelsOf after ++ rest))) updated obsolete middle)
include inserted

/-- The parts of the updated child can be written into the parent. -/
theorem Inserted.parent_encodable (storable : Storable key value) (descends : Descends items key)
    (inside : pageBytes items ≤ pageSize) (around : Around items key before child after)
    (encodable : Encodable items) :
    Encodable (before ++ ((splitItems updated).map (Item.node 1) ++ after)) ∧
      pageBytes (before ++ ((splitItems updated).map (Item.node 1) ++ after)) ≤ 2 * pageSize := by
  have shape := @Inserted.parent_erase _ _ _ _ _ _ _ _ _ _ _ _ inserted around
    ((splitItems updated).map (Item.node 1)) (by rw [map_map, map_map]; rfl)
  obtain ⟨fit, light⟩ := insertItems_spec storable descends.erase (by rwa [pageBytes_erase])
  have sorted := sorted_put descends.erase.sorted key value
  rw [← entriesOf_insertItems descends.erase] at sorted
  rw [← shape] at fit light sorted
  rw [entriesOf_erase] at sorted
  rw [pageBytes_erase, pageBytes_erase] at light
  have limit : pageSize + insertLimit ≤ 2 * pageSize := by decide
  refine ⟨encodable_of_sorted ?_ sorted ?_, by omega⟩
  · intro item mem
    exact (fit_erase item).mp (fit _ (mem_map_of_mem mem))
  intro item mem
  rcases mem_append.mp mem with isBefore | mem
  · exact encodable.addressed item (by simp [around.shape, isBefore])
  · rcases mem_append.mp mem with isNode | isAfter
    · obtain ⟨part, -, rfl⟩ := mem_map.mp isNode
      exact ⟨Nat.one_pos, show 1 < 2 ^ 64 by decide⟩
    · exact encodable.addressed item (by simp [around.shape, isAfter])

/-- The insertion below a child becomes one below its parent. -/
theorem Inserted.parent (around : Around items key before child after)
    (stored : ∀ item ∈ items, item.Stored work.working) {children : List (Item Nat (h + 1))}
    (storing : ∀ part ∈ splitItems updated, Storing part)
    (allocated : Allocated middle (labelsOf updated ++
      (obsolete ++ (child.label :: (labelsOf before ++ (labelsOf after ++ rest)))))
      (splitItems updated) children next) (encodable : Encodable (before ++ (children ++ after))) :
    Inserted key value items work rest (before ++ (children ++ after)) (obsolete ++ [child.label])
      next := by
  refine ⟨allocated.rewritten (show items = before ++ ([child] ++ after) from around.shape)
    inserted.extended ?_ encodable stored ?_ storing ?_,
    inserted.parent_erase around allocated.erase⟩
  · rw [flatten_splitItems, append_assoc]
    exact .refl _
  · rw [flatten_splitItems]
    exact inserted.stored
  · intro pageID mem
    rw [around.shape, labelsOf_append, labelsOf_cons, labels_succ, flatMap_labels]
    rcases mem_append.mp mem with below | isChild
    · simp [inserted.replaced pageID below]
    · simp [mem_singleton.mp isChild]

end

end Parent

/-- A leaf with one more binding. -/
def putItems (key value : Bytes) (items : List (Item Nat 0)) : List (Item Nat 0) :=
  (SortedMap.put key value (items.map Item.entry)).map Item.ofEntry

theorem putItems_erase (items : List (Item Nat 0)) :
    (putItems key value items).map erase = insertItems key value (items.map erase) := by
  rw [putItems, insertItems, map_map, map_map]
  rfl

theorem encodable_putItems (storable : Storable key value) {items : List (Item Nat 0)}
    (descends : Descends items key) : Encodable (putItems key value items) where
  fit := by
    intro item mem
    obtain ⟨entry, isEntry, rfl⟩ := mem_map.mp mem
    rcases mem_put isEntry with rfl | old
    · exact storable.fit
    · obtain ⟨original, isItem, rfl⟩ := mem_map.mp old
      exact descends.fit original isItem
  ascending := by
    have sorted := descends.sorted
    rw [entriesOf_zero] at sorted
    exact pairwise_map.mpr (sorted_put sorted key value)
  addressed := fun _ _ => trivial

theorem pageBytes_putItems (storable : Storable key value) {items : List (Item Nat 0)}
    (inside : pageBytes items ≤ pageSize) : pageBytes (putItems key value items) ≤
      2 * pageSize := by
  have bound := @total_put_le key value entryWeight (items.map entry)
  have limit : entryWeight ⟨key, value⟩ ≤ insertLimit := (@Storable.fit _ _ Nat storable).weight_le
  rw [pageBytes_leaf] at inside
  rw [putItems, pageBytes_leaf, map_entry_ofEntry]
  simp only [insertLimit, pagePtrSize, pageOffsetSize, maxKeySize, maxValueSize] at limit
  simp only [pageSize] at inside ⊢
  omega

/-- Where the binding of a leaf ends up. -/
theorem putItems_around {items before after : List (Item Nat 0)} {item : Item Nat 0}
    (descends : Descends items key) (around : Around items key before item after) :
    putItems key value items = before ++
      (if item.key = key then ofEntry ⟨key, value⟩ :: after
        else item :: ofEntry ⟨key, value⟩ :: after) := by
  have below := around.entries_before descends
  have above := around.entries_after descends
  rw [entriesOf_zero] at below above
  have same : ∀ items : List (Item Nat 0), (items.map entry).map ofEntry = items := by
    intro items
    rw [map_map]
    exact map_id _
  rw [putItems, around.shape, map_append, map_cons, put_append_of_lt below,
    map_append, same, put,
    if_neg (show ¬ key < item.entry.key from not_lt.mpr around.low)]
  congr 1
  by_cases found : item.key = key
  · rw [if_pos (show key = item.entry.key from found.symm), if_pos found, map_cons, same]
  · have last : put key value (after.map entry) =
        ⟨key, value⟩ :: after.map entry :=
      @put_append_of_gt _ _ _ [] _ key value above
    rw [if_neg (show key ≠ item.entry.key from fun same => found same.symm), if_neg found, last,
      map_cons, map_cons, same]
    rfl

variable {node : BNode} {idx descents : Nat}

/-- The leaf case: the entry is replaced or inserted in its place. -/
theorem insertLeaf_eq (storable : Storable key value) {items : List (Item Nat 0)}
    (valid : ValidPage node nodeTypeLeaf (items.map record)) (descends : Descends items key)
    {before after : List (Item Nat 0)} {item : Item Nat 0}
    (around : Around items key before item after) :
    (if getKey node before.length = key then leafUpdateEncoded node before.length key value
      else leafInsertEncoded node (before.length + 1) key value) =
      .ok (encodeItems (2 * pageSize) (putItems key value items)) := by
  have holds := valid.holds
  rw [around.shape, map_append, map_cons] at holds
  have keyHere : getKey node before.length = item.key := by
    rw [holds.key_eq (by simp)]
    simp
  have admissible := (encodable_putItems storable descends).admissible
  have fits := @fits_items _ (putItems key value items) (2 * pageSize)
    (pageBytes_putItems storable valid.pageBytes_le) (by decide)
  have shape := @putItems_around key value _ _ _ _ descends around
  rw [keyHere]
  by_cases found : item.key = key
  · rw [if_pos found] at shape ⊢
    have result := @leafUpdateEncoded_eq (before.map record) (after.map record)
      ((putItems key value items).map record) key value
      (by rw [shape, map_append, map_cons]; rfl) fits admissible node item.record holds
    rwa [length_map] at result
  · rw [if_neg found] at shape ⊢
    rw [append_cons] at holds
    have result := @leafInsertEncoded_eq (before.map record ++ [item.record])
      (after.map record) ((putItems key value items).map record) key value
      (by rw [shape, map_append, map_cons, map_cons]; simp; rfl) fits admissible node holds
    rwa [length_append, length_map, length_singleton] at result

theorem insertNode_leaf {updated : BNode}
    (lookup : nodeLookupLE node key = .ok idx) (isLeaf : btype node = nodeTypeLeaf)
    (built : (if getKey node idx = key then leafUpdateEncoded node idx key value
      else leafInsertEncoded node (idx + 1) key value) = .ok updated) (work : Work) :
    insertNode key value (descents + 1) node work = .ok (updated, []) work := by
  rw [insertNode, lift_bind_of_ok lookup, if_pos isLeaf]
  split_ifs at built ⊢
  · exact lift_bind_of_ok built work
  · exact lift_bind_of_ok built work

theorem insertNode_internal {child : BNode} {work : Work}
    (lookup : nodeLookupLE node key = .ok idx) (isInternal : btype node = nodeTypeInternal)
    (found : work.working.lookup (getPtr node idx) = some child)
    (valid : validateBNode child = .ok ()) : insertNode key value (descents + 1) node work =
      (insertNode key value descents child >>= fun updatedChild => do
        let childParts ← nodeSplit3 updatedChild.1
        let updated ← replaceChild node idx childParts
        return (updated, updatedChild.2 ++ [getPtr node idx])) work := by
  have notLeaf : btype node ≠ nodeTypeLeaf := by rw [isInternal]; decide
  rw [insertNode, lift_bind_of_ok lookup, if_neg notLeaf]
  exact (bind_of_ok (TreeM.get_of_lookup found)).trans
    (lift_bind_of_ok (validatePage_ok valid) work)

/-- The encoded insertion stores a tree of the shape that `insertItems` gives. -/
theorem insertNode_spec (storable : Storable key value) : ∀ {h : Nat} {items : List (Item Nat h)}
    {node : BNode} {work : Work} {rest : List Nat} {descents : Nat}, h < descents →
    ValidPage node (nodeType h) (items.map record) →
    (∀ item ∈ items, item.Stored work.working) → Descends items key →
    work.Sound (labelsOf items ++ rest) →
    (∃ updated obsolete next, insertNode key value descents node work =
        .ok (encodeItems (2 * pageSize) updated, obsolete) next ∧
      Inserted key value items work rest updated obsolete next) ∨
    Fails work (insertNode key value descents node work)
  | 0, items, node, work, rest, descents + 1, enough, valid, _, descends, sound => by
    obtain ⟨before, item, after, around⟩ := descends.around
    left
    refine ⟨putItems key value items, [], work, ?_, ⟨encodable_putItems storable descends,
      fun _ _ => trivial, ?_, .refl _, by simp⟩, putItems_erase items⟩
    · exact insertNode_leaf (nodeLookupLE_eq valid.holds around) valid.holds.type_eq
        (insertLeaf_eq storable valid descends around) work
    · rw [labelsOf_zero] at sound ⊢
      exact sound
  | h + 1, items, node, work, rest, descents + 1, enough, valid, stored, descends, sound => by
    obtain ⟨before, child, after, around⟩ := descends.around
    have childFit := around.fit descends.fit
    have childDescends := descends.child around
    obtain ⟨page, found, pointer, childValid, childStored⟩ := around.child_page valid stored
    rw [insertNode_internal (nodeLookupLE_eq valid.holds around) valid.holds.type_eq found
      childValid.valid, pointer]
    rcases insertNode_spec storable (Nat.lt_of_succ_lt_succ enough) childValid childStored
        childDescends (sound.below around.shape) with
      ⟨updated, obsolete, middle, run, inserted⟩ | fails
    · have split := inserted.parts storable childDescends childFit.inside
      have storing := split.storing inserted.encodable
      obtain ⟨encodable, room⟩ := inserted.parent_encodable storable descends valid.pageBytes_le
        around (valid.encodable descends.fit)
      rw [bind_of_ok run]
      dsimp only
      rw [lift_bind_of_ok (inserted.nodeSplit3_ok storable childDescends childFit.inside)]
      rcases replaceChild_spec (around.shape ▸ valid.holds) encodable room storing split.ne_nil
          inserted.sound with
        ⟨children, next, replaced, final, allocated⟩ | fails
      · left
        exact ⟨_, _, next, bind_of_ok replaced,
          inserted.parent around stored storing allocated final⟩
      · exact .inr (fails.after inserted.extended).bind
    · exact .inr fails.bind

end Insert

end GoDatabase
