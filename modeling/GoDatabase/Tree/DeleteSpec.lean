import GoDatabase.Tree.Rewrite

/-!
# Deletion from a stored tree

The encoded deletion on a stored tree follows `deleteItems`: it reports an absent
key without touching anything, fails where a separator outgrows its page, and
otherwise stores a tree of the shape that `deleteItems` gives.
-/

namespace GoDatabase

open Library BNode Fallible List Packing SortedMap

section Merge

variable {h : Nat} {before after : List (Item Nat (h + 1))} {child : Item Nat (h + 1)}
  {node : BNode} {updated : List (Item Nat h)} {work : Work}

/-- Two neighbouring nodes whose items together can be written. -/
theorem mergeEncodedNodes_items {left right : BNode} {leftItems rightItems : List (Item Nat h)}
    (holdsLeft : Holds left (nodeType h) (leftItems.map Item.record))
    (holdsRight : Holds right (nodeType h) (rightItems.map Item.record))
    (insideLeft : pageBytes leftItems ≤ pageSize) (insideRight : pageBytes rightItems ≤ pageSize)
    (encodable : Encodable (leftItems ++ rightItems)) : mergeEncodedNodes left right = .ok
      (if pageBytes (leftItems ++ rightItems) ≤ pageSize then
        some (encodeItems pageSize (leftItems ++ rightItems)) else none) := by
  have admissible := encodable.admissible
  have few : ∀ items : List (Item Nat h), pageBytes items ≤ pageSize →
      (items.map Item.record).length < 2 ^ 15 := by
    intro items inside
    have room := (fits_items inside (by decide)).inside
    simp only [pageHeaderSize, pagePtrSize, pageOffsetSize, pageSize] at room
    omega
  have fewLeft := few leftItems insideLeft
  have fewRight := few rightItems insideRight
  rw [map_append] at admissible
  rw [mergeEncodedNodes_eq holdsLeft holdsRight (by omega) admissible, ← map_append,
    nodeSize_records]
  rfl

/-- A child whose items have changed, among its stored siblings. -/
structure Changed (before after : List (Item Nat (h + 1))) (child : Item Nat (h + 1))
    (updated : List (Item Nat h)) (pages : PageMap) : Prop where
  stored : ∀ item ∈ before ++ child :: after, item.Stored pages
  fit : ∀ item ∈ before ++ child :: after, item.Fit
  encodable : Encodable updated
  inside : pageBytes updated ≤ pageSize
  sorted : SortedMap.Sorted (entriesOf before ++ (entriesOf updated ++ entriesOf after))

namespace Changed

variable {pages : PageMap} {sibling : Item Nat (h + 1)}
  (changed : Changed before after child updated pages)
include changed

/-- The page of a sibling. -/
theorem page (mem : sibling ∈ before ++ child :: after) : ∃ page, pages.lookup sibling.label =
      some page ∧ ValidPage page (nodeType h) (sibling.items.map Item.record) :=
        (changed.stored sibling mem).page

/-- Items of siblings can be written together with the updated ones. -/
theorem encodable_among {sibling : Item Nat (h + 1)} (mem : sibling ∈ before ++ child :: after)
    {items : List (Item Nat h)} (known : ∀ item ∈ items, item ∈ updated ∨ item ∈ sibling.items)
    (sorted : Sorted (entriesOf items)) : Encodable items := by
  obtain ⟨page, -, valid⟩ := changed.page mem
  have siblingEncodable := valid.encodable (changed.fit sibling mem).items
  refine encodable_of_sorted ?_ sorted ?_
  · intro item isItem
    exact (known item isItem).elim (changed.encodable.fit item) (siblingEncodable.fit item)
  · intro item isItem
    exact (known item isItem).elim (changed.encodable.addressed item)
      (siblingEncodable.addressed item)

theorem encodable_left {front : List (Item Nat (h + 1))}
    (shape : before = front ++ [sibling]) : Encodable (sibling.items ++ updated) := by
  refine @encodable_among _ _ _ _ _ _ changed sibling (by simp [shape]) _ ?_ ?_
  · intro item isItem
    exact (mem_append.mp isItem).symm
  · have sorted := changed.sorted
    rw [shape, entriesOf_append, entriesOf_cons, entriesOf_nil, append_nil, append_assoc,
      ← append_assoc sibling.entries] at sorted
    rw [entriesOf_append]
    exact (sorted_append.mp (sorted_append.mp sorted).2.1).1

theorem encodable_right {back : List (Item Nat (h + 1))}
    (shape : after = sibling :: back) : Encodable (updated ++ sibling.items) := by
  refine @encodable_among _ _ _ _ _ _ changed sibling (by simp [shape]) _ ?_ ?_
  · intro item isItem
    exact mem_append.mp isItem
  · have sorted := changed.sorted
    rw [shape, entriesOf_cons, ← append_assoc (entriesOf updated)] at sorted
    rw [entriesOf_append]
    exact (sorted_append.mp (sorted_append.mp sorted).2.1).1

end Changed

/-- A merge as the code reports it: the merged node, the page of the sibling and the
first index that is replaced. -/
def Merge.encoded (merge : Merge Nat h) : BNode × Nat × Nat :=
  (encodeItems pageSize merge.items, merge.sibling.label, merge.first)

section

variable (changed : Changed before after child updated work.working)
  (holds : Holds node nodeTypeInternal ((before ++ child :: after).map Item.record))
include changed holds

theorem mergeLeft_eq : mergeLeft node before.length (encodeItems pageSize updated) work =
      .ok ((leftMerge (before ++ child :: after) before.length updated).map Merge.encoded)
        work := by
  rw [mergeLeft, leftMerge]
  rcases eq_nil_or_concat before with rfl | ⟨front, sibling, shape⟩
  · rfl
  rw [concat_eq_append] at shape
  have mem : sibling ∈ before ++ child :: after := by simp [shape]
  have positive : 0 < before.length := by simp [shape]
  have here : (before ++ child :: after)[before.length - 1]? = some sibling := by simp [shape]
  have pointer : getPtr node (before.length - 1) = sibling.label := by
    rw [holds.ptr_eq (by simp; omega)]
    simp [shape, Item.record]
  obtain ⟨page, found, valid⟩ := changed.page mem
  have merged := mergeEncodedNodes_items valid.holds
    (changed.encodable.holds changed.inside (by decide)) (changed.fit sibling mem).inside
    changed.inside (changed.encodable_left shape)
  rw [if_pos positive, if_pos positive, here, pointer,
    bind_of_ok (TreeM.get_of_lookup found), lift_bind_of_ok merged]
  dsimp only
  split_ifs <;> rfl

theorem mergeRight_eq : mergeRight node before.length (encodeItems pageSize updated) work =
      .ok ((rightMerge (before ++ child :: after) before.length updated).map Merge.encoded)
        work := by
  have count : nkeys node = before.length + (after.length + 1) := by
    rw [holds.count_eq, length_map, length_append, length_cons]
  rw [mergeRight, rightMerge, count]
  cases after with
  | nil => simp
  | cons sibling back =>
    have mem : sibling ∈ before ++ child :: sibling :: back := by simp
    have room : before.length + 1 < before.length + ((sibling :: back).length + 1) := by
      rw [length_cons]
      omega
    have here : (before ++ child :: sibling :: back)[before.length + 1]? = some sibling := by simp
    have pointer : getPtr node (before.length + 1) = sibling.label := by
      rw [holds.ptr_eq (by simp)]
      simp [Item.record]
    obtain ⟨page, found, valid⟩ := changed.page mem
    have merged := mergeEncodedNodes_items (changed.encodable.holds changed.inside (by decide))
      valid.holds changed.inside (changed.fit sibling mem).inside (changed.encodable_right rfl)
    rw [if_pos room, here, pointer, bind_of_ok (TreeM.get_of_lookup found),
      lift_bind_of_ok merged]
    dsimp only
    split_ifs <;> rfl

/-- The merge that the code makes is the one of the shape. -/
theorem mergeSibling_eq : mergeSibling node before.length (encodeItems pageSize updated) work =
      .ok ((siblingMerge (before ++ child :: after) before.length updated).map Merge.encoded)
        work := by
  have childHolds := changed.encodable.holds changed.inside (by decide)
  have count : nkeys (encodeItems pageSize updated) = updated.length := by
    rw [childHolds.count_eq, length_map]
  have size : nbytes (encodeItems pageSize updated) = pageBytes updated := by
    rw [(changed.encodable.validPage changed.inside).nbytes_eq, nodeSize_records]
  rw [mergeSibling, siblingMerge, count, size]
  split_ifs with small
  · rw [bind_of_ok (mergeLeft_eq changed holds)]
    cases leftMerge (before ++ child :: after) before.length updated with
    | some merge => rfl
    | none => exact mergeRight_eq changed holds
  · rfl

end

end Merge

/-! ## Replacing children -/

/-- The entries after the first range: one record, and the end of the old node. -/
theorem appendRecordAndBack_eq {total : Nat} {front gone back all : List Record} {record : Record}
    {parent : BNode} (holds : Holds parent nodeTypeInternal (front ++ (gone ++ back)))
    (fits : Fits pageSize total front) (shape : all = front ++ record :: back)
    (total_eq : total = all.length) (admissible : AllAdmissible nodeTypeInternal all) :
    (nodeAppendKV (layout pageSize nodeTypeInternal total front) front.length record.pageID
        record.key record.value >>= fun updated =>
      nodeAppendRange updated parent (front.length + 1) (front.length + gone.length) back.length) =
      if nodeSize all ≤ pageSize then .ok (layout pageSize nodeTypeInternal total all)
      else .error errNodeFull := by
  have width : total = front.length + (back.length + 1) := by
    rw [total_eq, shape, length_append, length_cons]
  have bytes : recordBytes all = recordBytes front + record.size + recordBytes back := by
    rw [shape, recordBytes_append, recordBytes_cons, Nat.add_assoc]
  have here : Admissible nodeTypeInternal front.length record := by
    have found := admissible front.length (by omega)
    simpa [shape] using found
  rw [nodeSize, ← total_eq]
  by_cases room : pageHeaderSize + total * (pagePtrSize + pageOffsetSize) +
      (recordBytes front + record.size) ≤ pageSize
  · have longer : Fits pageSize total (front ++ [record]) := fits.append (by omega) room
    have whole : front ++ (gone ++ back) = (front ++ gone) ++ (back ++ []) := by simp
    have start : (front ++ [record]).length = front.length + 1 := by simp
    have appended := @nodeAppendRange_layout pageSize nodeTypeInternal total nodeTypeInternal parent
      (front ++ gone) back [] (front ++ [record]) (whole ▸ holds) longer (by omega) (by
        intro idx inRange
        have bound : front.length + 1 + idx < all.length := by omega
        have found := admissible (front.length + 1 + idx) bound
        have copied : all[front.length + 1 + idx] = back[idx] := by
          simp only [shape]
          rw [getElem_append_right (by omega)]
          simp only [show front.length + 1 + idx - front.length = idx + 1 by omega,
            getElem_cons_succ]
        rw [copied] at found
        rwa [start])
    have joined : front ++ [record] ++ back = all := by
      rw [shape, append_assoc, singleton_append]
    rw [nodeAppendKV_layout fits (by omega) here room, ok_bind, ← start, ← length_append,
      appended, joined]
  · rw [nodeAppendKV_layout_full fits (by omega) here (by omega), if_neg (by omega)]
    rfl

section Replace

variable {h : Nat} {front gone back : List (Item Nat (h + 1))} {part : List (Item Nat h)}
  {parent : BNode} {work : Work} {live : List Nat}

/-- A node takes the place of one or two children, if the parent still fits in its
page. -/
theorem replaceChildrenAfterDelete_spec
    (holds : Holds parent nodeTypeInternal ((front ++ (gone ++ back)).map Item.record))
    (inside : pageBytes (front ++ (gone ++ back)) ≤ pageSize) (nonempty : gone ≠ [])
    (encodable : Encodable (front ++ ([Item.node 1 part] ++ back))) (storing : Storing part)
    (sound : work.Sound live) :
    (∃ pageID next, replaceChildrenAfterDelete parent front.length gone.length
        (encodeItems pageSize part) work =
          (if pageBytes (front ++ ([Item.node 1 part] ++ back)) ≤ pageSize then
            .ok (encodeItems pageSize (front ++ ([Item.node pageID part] ++ back))) next
          else .error errNodeFull next) ∧
        Encodable (front ++ ([Item.node pageID part] ++ back)) ∧
        Allocated work live [part] [Item.node pageID part] next) ∨
    Fails work (replaceChildrenAfterDelete parent front.length gone.length
      (encodeItems pageSize part) work) := by
  have positive : 0 < gone.length := length_pos_iff.mpr nonempty
  have oldFits := fits_items inside (by decide)
  have oldInside := oldFits.inside
  have counted := oldFits.counted
  simp only [map_append, length_append, length_map, recordBytes_append] at oldInside counted
  have count : nkeys parent = front.length + (gone.length + back.length) := by
    rw [holds.count_eq]
    simp only [map_append, length_append, length_map]
  -- the number of entries of the updated node
  obtain ⟨total, total_eq⟩ : ∃ total, total = front.length + (1 + back.length) := ⟨_, rfl⟩
  have total_le : total * (pagePtrSize + pageOffsetSize) ≤
      (front.length + (gone.length + back.length)) * (pagePtrSize + pageOffsetSize) :=
    Nat.mul_le_mul_right _ (by omega)
  have updatedCount : nkeys parent - gone.length + 1 = total := by omega
  have started : setHeader (zeros pageSize) nodeTypeInternal total =
      layout pageSize nodeTypeInternal total [] := setHeader_zeros (by omega)
  have emptyFits : Fits pageSize total [] :=
    ⟨Nat.zero_le _, by omega, by rw [recordBytes_nil]; omega, by decide⟩
  have frontFits : Fits pageSize total (front.map Item.record) :=
    ⟨by rw [length_map]; omega, by omega, by omega, by decide⟩
  rw [map_append, map_append] at holds
  have copied : nodeAppendRange (layout pageSize nodeTypeInternal total []) parent 0 0
      front.length = .ok (layout pageSize nodeTypeInternal total (front.map Item.record)) := by
    have step := @nodeAppendRange_layout pageSize nodeTypeInternal total nodeTypeInternal parent []
      (front.map Item.record) _ [] holds emptyFits (by rw [length_map]; simp; omega) (by
        intro idx inRange
        have found := encodable.admissible idx (by simp at inRange ⊢; omega)
        simp only [map_append] at found
        rw [getElem_append_left inRange] at found
        rw [length_nil, Nat.zero_add]
        exact found)
    rw [length_map, if_pos (by rw [nil_append]; omega)] at step
    exact step
  rw [replaceChildrenAfterDelete, updatedCount, started, lift_bind_of_ok copied]
  rcases TreeM.new_spec sound (encodeItems pageSize part) with
    ⟨pageID, next, allocated, stores⟩ | ⟨next, exhausted, failed⟩
  · left
    have address := stores.sound.addressed (mem_cons_self ..)
    have final := @Encodable.relabel _ front back [Item.node 1 part] [Item.node pageID part]
      encodable rfl (fun tree mem => by rw [mem_singleton.mp mem]; exact address)
    have bytes := @pageBytes_relabel _ front back [Item.node 1 part] [Item.node pageID part] rfl
    have first : getKey (encodeItems pageSize part) 0 = (Item.node pageID part).record.key :=
      storing.getKey_zero pageID
    have rest := @appendRecordAndBack_eq total (front.map Item.record) (gone.map Item.record)
      (back.map Item.record) ((front ++ ([Item.node pageID part] ++ back)).map Item.record)
      (Item.node pageID part).record parent holds frontFits (by simp) (by simp; omega)
      final.admissible
    have tail : back.length = nkeys parent - (front.length + gone.length) := by omega
    rw [nodeSize_records, bytes, length_map, length_map, length_map, tail] at rest
    refine ⟨pageID, next, ?_, final, ?_⟩
    · rw [bind_of_ok allocated, first]
      refine (lift_bind_lift _ _ next).trans ?_
      have width : ((front ++ ([Item.node pageID part] ++ back)).map Item.record).length =
        total := by
        simp only [length_map, length_append, length_singleton]
        omega
      rw [encodeItems, width]
      split_ifs at rest ⊢
      · exact lift_of_ok rest next
      · exact lift_of_error rest next
    · refine ⟨rfl, ?_, stores.sound, stores.extended⟩
      intro child isChild
      rw [mem_singleton.mp isChild]
      exact stores.stored
  · right
    have refused : nodeAppendKV (layout pageSize nodeTypeInternal total (front.map Item.record))
        front.length 0 (getKey (encodeItems pageSize part) 0) [] =
        .error (.errorf "child page %d is zero" [.int front.length]) := by
      rw [storing.getKey_zero 0]
      apply nodeAppendKV_zero_child
      · rw [nkeys_layout frontFits.counted]
        omega
      · exact btype_layout (by decide)
      · exact (storing.fit 0).key_le
      · intro late
        apply encodable.key_ne_nil (Item.node 1 part)
        cases front with
        | nil => exact absurd rfl late
        | cons other front => simp
    refine ⟨.errorf "child page %d is zero" [.int front.length], next, ?_, failed⟩
    rw [bind_of_ok exhausted]
    exact bind_of_error (lift_of_error refused next)

/-- A deletion below a node rewrites it within its page. -/
structure Deleted {h : Nat} (items : List (Item Nat h)) (work : Work) (rest : List Nat)
    (updated : List (Item Nat h)) (obsolete : List Nat) (next : Work) : Prop
    extends Rewritten items work rest updated obsolete next where
  inside : pageBytes updated ≤ pageSize

/-- A deletion that was given up because a node outgrew its page.  The pages that it
had allocated are lost. -/
structure Overflowed (work next : Work) : Prop where
  extended : work.Extends next
  sound : ∃ live, next.Sound live

/-- The run of the code that corresponds to the outcome of a deletion on shapes.  A
result reports the updated node and the pages that it replaces. -/
def Follows {h : Nat} {α : Type} (items : List (Item Nat h)) (work : Work) (rest : List Nat)
    (absent : EStateM.Result GoError Work α → Prop) (reports : α → BNode → List Nat → Prop) :
    Deletion (List (Item Unit h)) → EStateM.Result GoError Work α → Prop
  | .absent, result => absent result
  | .overflow, result => ∃ next, result = .error errNodeFull next ∧ Overflowed work next
  | .removed shape, result => ∃ value updated obsolete next, result = .ok value next ∧
      reports value (encodeItems pageSize updated) obsolete ∧
      updated.map Item.erase = shape ∧ Deleted items work rest updated obsolete next

/-- A run that follows the shape, unless the allocator fails. -/
def Attempts {h : Nat} {α : Type} (items : List (Item Nat h)) (work : Work) (rest : List Nat)
    (absent : EStateM.Result GoError Work α → Prop) (reports : α → BNode → List Nat → Prop)
    (outcome : Deletion (List (Item Unit h))) (result : EStateM.Result GoError Work α) : Prop :=
  Follows items work rest absent reports outcome result ∨ Fails work result

/-- A step that cannot fail after one that is not about an absent key. -/
theorem Attempts.bind {h : Nat} {α β : Type} {items : List (Item Nat h)} {work middle : Work}
    {rest : List Nat} {reports : α → BNode → List Nat → Prop}
    {outcome : Deletion (List (Item Unit h))} {first : TreeM α}
    (attempts : Attempts items work rest (fun _ => False) reports outcome (first middle))
    {absent : EStateM.Result GoError Work β → Prop} {reportsAfter : β → BNode → List Nat → Prop}
    (after : α → β) (reported : ∀ value node obsolete, reports value node obsolete →
      reportsAfter (after value) node obsolete) :
    Attempts items work rest absent reportsAfter outcome
      ((first >>= fun value => pure (after value)) middle) := by
  rcases attempts with follows | fails
  · left
    cases outcome with
    | absent => exact follows.elim
    | overflow =>
      obtain ⟨next, run, overflowed⟩ := follows
      exact ⟨next, bind_of_error run, overflowed⟩
    | removed shape =>
      obtain ⟨value, updated, obsolete, next, run, report, same, deleted⟩ := follows
      exact ⟨after value, updated, obsolete, next, bind_of_ok run,
        reported value _ obsolete report, same, deleted⟩
  · exact .inr fails.bind

/-- The replacement of children follows the size check of the shape. -/
theorem replaceChildrenAfterDelete_follows {items : List (Item Nat (h + 1))} {middle : Work}
    {rest obsolete : List Nat} (shape : items = front ++ (gone ++ back))
    (holds : Holds parent nodeTypeInternal (items.map Item.record))
    (inside : pageBytes items ≤ pageSize) (nonempty : gone ≠ [])
    (encodable : Encodable (front ++ ([Item.node 1 part] ++ back))) (storing : Storing part)
    (sound : middle.Sound live) (accounted : live.Perm
      (labelsOf part ++ (obsolete ++ (labelsOf front ++ (labelsOf back ++ rest)))))
    (extended : work.Extends middle) (stored : ∀ item ∈ items, item.Stored work.working)
    (storedPart : ∀ item ∈ part, item.Stored middle.working)
    (replaced : ∀ pageID ∈ obsolete, pageID ∈ labelsOf items) :
    Attempts items work rest (fun _ => False)
      (fun value updated dropped => value = updated ∧ dropped = obsolete)
      (boundedItems ((front.map Item.erase) ++
        (Item.node () (part.map Item.erase) :: back.map Item.erase)))
      (replaceChildrenAfterDelete parent front.length gone.length (encodeItems pageSize part)
        middle) := by
  have placed : (front.map Item.erase) ++
      (Item.node () (part.map Item.erase) :: back.map Item.erase) =
      (front ++ ([Item.node 1 part] ++ back)).map Item.erase := by
    rw [map_append, map_append]
    rfl
  have flat : [part].flatten = part := by simp
  rcases replaceChildrenAfterDelete_spec (shape ▸ holds) (shape ▸ inside) nonempty encodable storing
      sound with ⟨pageID, next, run, final, allocated⟩ | fails
  · left
    rw [run, placed, boundedItems, pageBytes_erase]
    by_cases room : pageBytes (front ++ ([Item.node 1 part] ++ back)) ≤ pageSize
    · rw [if_pos room, if_neg (Nat.not_lt.mpr room)]
      have bytes := @pageBytes_relabel _ front back [Item.node 1 part] [Item.node pageID part] rfl
      refine ⟨_, _, obsolete, next, rfl, ⟨rfl, rfl⟩, ?_, allocated.rewritten shape extended ?_ final
        stored ?_ ?_ replaced, bytes ▸ room⟩
      · rw [map_append, map_append, map_append, map_append]
        rfl
      · rwa [flat]
      · rwa [flat]
      · intro other mem
        rwa [mem_singleton.mp mem]
    · rw [if_neg room, if_pos (Nat.lt_of_not_le room)]
      exact ⟨next, rfl, extended.trans allocated.extended, _, allocated.sound⟩
  · exact .inr (fails.after extended)

end Replace

/-! ## Rebalancing -/

section Rebalance

variable {h : Nat} {before after : List (Item Nat (h + 1))} {child : Item Nat (h + 1)}
  {node : BNode} {updated : List (Item Nat h)} {work middle : Work} {rest obsolete : List Nat}

/-- What the deletion below a child hands to its parent. -/
structure Rebalancing (before after : List (Item Nat (h + 1))) (child : Item Nat (h + 1))
    (node : BNode) (updated : List (Item Nat h)) (work middle : Work) (rest obsolete : List Nat) :
    Prop where
  valid : ValidPage node nodeTypeInternal ((before ++ child :: after).map Item.record)
  stored : ∀ item ∈ before ++ child :: after, item.Stored work.working
  fit : ∀ item ∈ before ++ child :: after, item.Fit
  sorted : SortedMap.Sorted (entriesOf before ++ (entriesOf updated ++ entriesOf after))
  deleted : Deleted child.items work
    (child.label :: (labelsOf before ++ (labelsOf after ++ rest))) updated obsolete middle

namespace Rebalancing

variable (state : Rebalancing before after child node updated work middle rest obsolete)
include state

theorem inside : pageBytes (before ++ child :: after) ≤ pageSize := state.valid.pageBytes_le

theorem changed : Changed before after child updated middle.working where
  stored := fun item mem => (state.stored item mem).mono
    fun pageID _ => state.deleted.extended.kept pageID
  fit := state.fit
  encodable := state.deleted.encodable
  inside := state.deleted.inside
  sorted := state.sorted

theorem replaced : ∀ pageID ∈ obsolete ++ [child.label], pageID ∈ labelsOf
    (before ++ child :: after) := by
  intro pageID mem
  rw [labelsOf_append, labelsOf_cons, Item.labels_succ, flatMap_labels]
  rcases mem_append.mp mem with below | isChild
  · simp [state.deleted.replaced pageID below]
  · simp [mem_singleton.mp isChild]

/-- New children among old ones can be written. -/
theorem encodable {front new back : List (Item Nat (h + 1))}
    (frontOld : ∀ item ∈ front, item ∈ before ++ child :: after)
    (backOld : ∀ item ∈ back, item ∈ before ++ child :: after)
    (fitNew : ∀ item ∈ new, item.Fit) (addressedNew : ∀ item ∈ new, item.Addressed)
    (entries : entriesOf front ++ (entriesOf new ++ entriesOf back) =
      entriesOf before ++ (entriesOf updated ++ entriesOf after)) :
    Encodable (front ++ (new ++ back)) := by
  have old := state.valid.encodable state.fit
  refine encodable_of_sorted ?_ ?_ ?_
  · intro item mem
    rcases mem_append.mp mem with isFront | mem
    · exact state.fit item (frontOld item isFront)
    · exact (mem_append.mp mem).elim (fitNew item)
        (fun isBack => state.fit item (backOld item isBack))
  · rw [entriesOf_append, entriesOf_append, entries]
    exact state.sorted
  · intro item mem
    rcases mem_append.mp mem with isFront | mem
    · exact old.addressed item (frontOld item isFront)
    · exact (mem_append.mp mem).elim (addressedNew item)
        (fun isBack => old.addressed item (backOld item isBack))

/-- The merged node replaces the child and its sibling. -/
theorem merge_follows {merge : Merge Nat h} (merges : MergesWith before after updated merge) :
    Attempts (before ++ child :: after) work rest (fun _ => False)
      (fun value final dropped => value = final ∧
        dropped = obsolete ++ [child.label, merge.sibling.label])
      (boundedItems (((before ++ child :: after).take merge.first).map Item.erase ++
        (Item.node () (merge.items.map Item.erase) ::
          ((before ++ child :: after).drop (merge.first + 2)).map Item.erase)))
      (replaceChildrenAfterDelete node merge.first 2 (encodeItems pageSize merge.items)
        middle) := by
  obtain ⟨front, gone, back, replaces⟩ := merges.replaces child
  have fitBefore : ∀ item ∈ before, item.Fit := fun item mem => state.fit item (by simp [mem])
  have fitAfter : ∀ item ∈ after, item.Fit := fun item mem => state.fit item (by simp [mem])
  have fit := merges.fit fitBefore fitAfter state.deleted.encodable.fit
  have siblingOld : merge.sibling ∈ before ++ child :: after := by
    rcases merges.sibling_mem with isBefore | isAfter
    · simp [isBefore]
    · simp [isAfter]
  have mergedEncodable : Encodable merge.items := by
    cases merges with
    | left front sibling shape inside => exact state.changed.encodable_left shape
    | right sibling back shape inside => exact state.changed.encodable_right shape
  have encodable := @Rebalancing.encodable _ _ _ _ _ _ _ _ _ _ state front [Item.node 1 merge.items]
    back (fun item mem => by simp [replaces.front_old item mem])
    (fun item mem => by simp [replaces.back_old item mem])
    (fun item mem => by rw [mem_singleton.mp mem]; exact fit 1)
    (fun item mem => by
      rw [mem_singleton.mp mem]
      exact ⟨Nat.one_pos, show 1 < 2 ^ 64 by decide⟩)
    (by rw [← replaces.entries]; simp)
  rw [replaces.take_eq, replaces.drop_eq, replaces.first, ← replaces.length_gone]
  refine replaceChildrenAfterDelete_follows replaces.shape state.valid.holds state.inside ?_
    encodable ⟨(fit 1).nonempty, mergedEncodable, merges.inside⟩ state.deleted.sound ?_
    state.deleted.extended state.stored ?_ ?_
  · intro none
    have two := replaces.length_gone
    rw [none] at two
    cases two
  · -- the pages of the sibling move to the merged node, its own page becomes obsolete
    rw [perm_iff_count]
    intro pageID
    have both := (merges.perm.flatMap_right Item.labels).count_eq pageID
    have pair := (replaces.pair.flatMap_right Item.labels).count_eq pageID
    have all := congrArg (fun items => List.count pageID (labelsOf items)) replaces.shape
    simp only [flatMap_labels, labelsOf_append, labelsOf_cons, Item.labels_succ, count_append,
      count_cons, cons_append] at both pair all
    simp only [count_append, count_cons, count_nil, both]
    simp only [labelsOf, flatMap_nil, count_nil] at pair all ⊢
    omega
  · intro item mem
    rcases mem_append.mp (merges.perm.mem_iff.mp mem) with isUpdated | isSibling
    · exact state.deleted.stored item isUpdated
    · exact (state.changed.stored _ siblingOld).items item isSibling
  · intro pageID mem
    rw [show obsolete ++ [child.label, merge.sibling.label] =
      (obsolete ++ [child.label]) ++ [merge.sibling.label] by simp] at mem
    rcases mem_append.mp mem with old | isSibling
    · exact state.replaced pageID old
    · rw [mem_singleton.mp isSibling]
      exact mem_flatMap.mpr ⟨_, siblingOld, mem_cons_self ..⟩

/-- A child that is not merged is stored again. -/
theorem replace_follows (nonempty : updated ≠ []) :
    Attempts (before ++ child :: after) work rest (fun _ => False)
      (fun value final dropped => value = final ∧ dropped = obsolete ++ [child.label])
      (boundedItems (before.map Item.erase ++
        (Item.node () (updated.map Item.erase) :: after.map Item.erase)))
      (replaceChildrenAfterDelete node before.length 1 (encodeItems pageSize updated)
        middle) := by
  have storing : Storing updated := ⟨nonempty, state.deleted.encodable, state.deleted.inside⟩
  have encodable := @Rebalancing.encodable _ _ _ _ _ _ _ _ _ _ state before [Item.node 1 updated]
    after (fun item mem => by simp [mem]) (fun item mem => by simp [mem])
    (fun item mem => by rw [mem_singleton.mp mem]; exact storing.fit 1)
    (fun item mem => by
      rw [mem_singleton.mp mem]
      exact ⟨Nat.one_pos, show 1 < 2 ^ 64 by decide⟩)
    (by simp)
  refine @replaceChildrenAfterDelete_follows _ before [child] after updated node work _ _
    middle rest (obsolete ++ [child.label]) rfl state.valid.holds state.inside (cons_ne_nil _ _)
    encodable storing state.deleted.sound ?_ state.deleted.extended state.stored
    state.deleted.stored state.replaced
  rw [append_assoc]
  exact .refl _

/-- A child that became empty is dropped. -/
theorem remove_follows (empty : updated = []) :
    Attempts (before ++ child :: after) work rest (fun _ => False)
      (fun value final dropped => value = final ∧ dropped = obsolete ++ [child.label])
      (.removed (before.map Item.erase ++ after.map Item.erase))
      ((liftM (removeChildEncoded node before.length) : TreeM BNode) middle) := by
  have encodable := @Rebalancing.encodable _ _ _ _ _ _ _ _ _ _ state before [] after
    (fun item mem => by simp [mem]) (fun item mem => by simp [mem])
    (by simp) (by simp) (by simp [empty])
  have inside : pageBytes (before ++ ([] ++ after)) ≤ pageSize := by
    have whole := state.inside
    simp only [pageBytes, nil_append, total_append, total_cons] at whole ⊢
    omega
  have holds := state.valid.holds
  rw [map_append, map_cons] at holds
  have admissible : AllAdmissible nodeTypeInternal ((before ++ ([] ++ after)).map Item.record) :=
    encodable.admissible
  have removed := removeChildEncoded_eq holds (by simp) (fits_items inside (by decide)) admissible
  rw [length_map] at removed
  have nothing : Allocated middle _ ([] : List (List (Item Nat h))) [] middle :=
    ⟨rfl, fun _ mem => absurd mem not_mem_nil, state.deleted.sound, .refl _⟩
  refine .inl ⟨_, _, _, middle, lift_of_ok removed middle, ⟨rfl, rfl⟩, by simp,
    nothing.rewritten (show _ = before ++ ([child] ++ after) from rfl) state.deleted.extended ?_
      encodable state.stored (by simp) (by simp) state.replaced, inside⟩
  subst empty
  simp only [labelsOf, flatMap_nil, flatten_nil, nil_append, append_assoc]
  exact .refl _

end Rebalancing

/-- The code rebalances a child as the shape does. -/
theorem rebalanceChild_follows
    (state : Rebalancing before after child node updated work middle rest obsolete) :
    Attempts (before ++ child :: after) work rest (fun _ => False)
      (fun value final dropped => value.1 = final ∧ dropped = obsolete ++ child.label :: value.2)
      (rebalance ((before ++ child :: after).map Item.erase) before.length
        (updated.map Item.erase))
      (rebalanceChild node before.length (encodeItems pageSize updated) middle) := by
  have count : nkeys (encodeItems pageSize updated) = updated.length := by
    rw [(state.deleted.encodable.holds state.deleted.inside (by decide)).count_eq, length_map]
  rw [rebalance, siblingMerge_erase, rebalanceChild,
    bind_of_ok (mergeSibling_eq state.changed state.valid.holds)]
  cases choice : siblingMerge (before ++ child :: after) before.length updated with
  | some merge =>
    simp only [Option.map_some, Merge.erase, Merge.encoded, ← map_take, ← map_drop]
    refine (state.merge_follows (siblingMerge_spec choice)).bind
      (fun value => (value, [merge.sibling.label])) ?_
    rintro value final dropped ⟨rfl, rfl⟩
    exact ⟨rfl, rfl⟩
  | none =>
    have taken : ((before ++ child :: after).map Item.erase).take before.length =
        before.map Item.erase := by simp
    have dropped : ((before ++ child :: after).map Item.erase).drop (before.length + 1) =
        after.map Item.erase := by
      rw [← map_drop]
      simp
    simp only [Option.map_none, length_map, taken, dropped, count]
    by_cases empty : updated.length = 0
    · rw [if_pos empty, if_pos empty]
      refine (state.remove_follows (length_eq_zero_iff.mp empty)).bind
        (fun value => (value, [])) ?_
      rintro value final dropped ⟨rfl, rfl⟩
      exact ⟨rfl, rfl⟩
    · rw [if_neg empty, if_neg empty]
      refine (state.replace_follows (fun none => empty (by rw [none]; rfl))).bind
        (fun value => (value, [])) ?_
      rintro value final dropped ⟨rfl, rfl⟩
      exact ⟨rfl, rfl⟩

end Rebalance

/-! ## The recursion -/

section Delete

variable {key : Bytes}

variable {node : BNode} {work : Work}

theorem deleteNode_internal {child : BNode} {idx descents : Nat}
    (lookup : nodeLookupLE node key = .ok idx) (isInternal : btype node = nodeTypeInternal)
    (found : work.working.lookup (getPtr node idx) = some child)
    (valid : validateBNode child = .ok ()) : deleteNode key (descents + 1) node work =
      (deleteNode key descents child >>= fun result => match result with
        | none => pure none
        | some (updatedChild, obsolete) => do
          let (updated, absorbed) ← rebalanceChild node idx updatedChild
          return some (updated, obsolete ++ getPtr node idx :: absorbed)) work := by
  have notLeaf : btype node ≠ nodeTypeLeaf := by rw [isInternal]; decide
  rw [deleteNode, lift_bind_of_ok lookup, if_neg notLeaf]
  exact (bind_of_ok (TreeM.get_of_lookup found)).trans
    (lift_bind_of_ok (validatePage_ok valid) work)

/-- The leaf case: the entry is dropped if its key matches. -/
theorem deleteNode_leaf {items : List (Item Nat 0)} {node : BNode} {work : Work} {rest : List Nat}
    {descents : Nat} (valid : ValidPage node nodeTypeLeaf (items.map Item.record))
    (descends : Descends items key) (sound : work.Sound (labelsOf items ++ rest)) :
    Follows items work rest (· = .ok none work)
      (fun value updated obsolete => value = some (updated, obsolete))
      (deleteItems key (items.map Item.erase)) (deleteNode key (descents + 1) node work) := by
  obtain ⟨before, item, after, around⟩ := descends.around
  have holds := valid.holds
  rw [around.shape, map_append, map_cons] at holds
  have keyHere : getKey node before.length = item.key := by
    rw [holds.key_eq (by simp)]
    simp
  have keys : (items.map Item.erase).map Item.key = items.map Item.key := by
    rw [map_map]
    exact map_congr_left fun item _ => Item.key_erase item
  rw [deleteNode, lift_bind_of_ok (nodeLookupLE_eq valid.holds around),
    if_pos (show btype node = nodeTypeLeaf from valid.holds.type_eq), keyHere,
      deleteItems_zero, keys]
  by_cases found : item.key = key
  · rw [if_pos (by rw [around.shape, ← found]; simp), if_neg (not_not.mpr found)]
    have encodable : Encodable (before ++ after) := by
      have whole := valid.encodable descends.fit
      rw [around.shape] at whole
      have kept : (before ++ after).Sublist (before ++ item :: after) :=
        (sublist_cons_self ..).append_left _
      exact ⟨fun other mem => whole.fit other (kept.subset mem), whole.ascending.sublist kept,
        fun other mem => whole.addressed other (kept.subset mem)⟩
    have inside : pageBytes (before ++ after) ≤ pageSize := by
      have whole := valid.pageBytes_le
      rw [around.shape] at whole
      simp only [pageBytes, total_append, total_cons] at whole ⊢
      omega
    have deleted := leafDeleteEncoded_eq holds map_append (fits_items inside (by decide))
      encodable.admissible
    rw [length_map] at deleted
    refine ⟨_, before ++ after, [], work, lift_bind_of_ok deleted work, rfl, ?_,
      ⟨encodable, fun _ _ => trivial, ?_, .refl _, by simp⟩, inside⟩
    · have entries : erase key (items.map Item.entry) =
          before.map Item.entry ++ after.map Item.entry := by
        have gone : erase key item.entries = [] := by
          simp [erase, Item.entries, show item.entry.key = key from found]
        rw [← entriesOf_zero, around.erase_eq descends, gone, entriesOf_zero, entriesOf_zero]
        rfl
      have same : (items.map Item.erase).map Item.entry = items.map Item.entry := by
        rw [map_map]
        rfl
      rw [same, entries, map_append, map_append, map_map, map_map]
      rfl
    · rw [labelsOf_zero] at sound ⊢
      exact sound
  · rw [if_neg, if_pos found]
    · rfl
    · intro present
      obtain ⟨other, mem, sameKey⟩ := mem_map.mp present
      have bound := around.mem_of_key descends (mem_entriesOf mem (mem_singleton_self _)) sameKey
      exact found ((congrArg Binding.key (mem_singleton.mp bound)).symm.trans sameKey)

/-- What the recursion leaves for the parent to rebalance. -/
theorem rebalancing_of_deleted {h : Nat} {items before after : List (Item Nat (h + 1))}
    {child : Item Nat (h + 1)} {updated : List (Item Nat h)} {middle : Work}
    {rest obsolete : List Nat} (valid : ValidPage node nodeTypeInternal (items.map Item.record))
    (stored : ∀ item ∈ items, item.Stored work.working) (descends : Descends items key)
    (around : Around items key before child after)
    (shape : deleteItems key (child.items.map Item.erase) = .removed (updated.map Item.erase))
    (deleted : Deleted child.items work
      (child.label :: (labelsOf before ++ (labelsOf after ++ rest))) updated obsolete middle) :
    Rebalancing before after child node updated work middle rest obsolete := by
  have childFit := around.fit descends.fit
  have spec := deleteItems_spec (descends.child around).erase (by
    rw [pageBytes_erase]
    exact childFit.inside)
  rw [shape] at spec
  have entries := spec.2.1
  rw [entriesOf_erase, entriesOf_erase] at entries
  refine ⟨around.shape ▸ valid, around.shape ▸ stored, around.shape ▸ descends.fit, ?_, deleted⟩
  have sorted := sorted_erase descends.sorted key
  rw [around.erase_eq descends] at sorted
  rwa [entries]

/-- The encoded deletion follows `deleteItems`, unless the allocator fails. -/
theorem deleteNode_spec : ∀ {h : Nat} {items : List (Item Nat h)} {node : BNode} {work : Work}
    {rest : List Nat} {descents : Nat}, h < descents →
    ValidPage node (nodeType h) (items.map Item.record) →
    (∀ item ∈ items, item.Stored work.working) → Descends items key →
    work.Sound (labelsOf items ++ rest) → Attempts items work rest (· = .ok none work)
      (fun value updated obsolete => value = some (updated, obsolete))
      (deleteItems key (items.map Item.erase)) (deleteNode key descents node work)
  | 0, items, node, work, rest, descents + 1, enough, valid, _, descends, sound => by
    exact .inl (deleteNode_leaf valid descends sound)
  | h + 1, items, node, work, rest, descents + 1, enough, valid, stored, descends, sound => by
    obtain ⟨before, child, after, around⟩ := descends.around
    obtain ⟨page, found, pointer, childValid, childStored⟩ := around.child_page valid stored
    have here : child.erase.items = child.items.map Item.erase := rfl
    rw [deleteNode_internal (nodeLookupLE_eq valid.holds around) valid.holds.type_eq
      found childValid.valid, pointer, deleteItems_succ, around.erase.getElem?_eq]
    simp only [here]
    rcases deleteNode_spec (Nat.lt_of_succ_lt_succ enough) childValid childStored
        (descends.child around) (sound.below around.shape) with follows | fails
    · cases outcome : deleteItems key (child.items.map Item.erase) with
      | absent =>
        rw [outcome] at follows
        exact .inl (bind_of_ok follows)
      | overflow =>
        rw [outcome] at follows
        obtain ⟨next, run, overflowed⟩ := follows
        exact .inl ⟨next, bind_of_error run, overflowed⟩
      | removed shape =>
        rw [outcome] at follows
        obtain ⟨_, updated, obsolete, middle, run, rfl, rfl, deleted⟩ := follows
        have state := rebalancing_of_deleted valid stored descends around outcome deleted
        rw [bind_of_ok run, around.erase.index, length_map, around.shape]
        refine (rebalanceChild_follows state).bind
          (fun value => some (value.1, obsolete ++ child.label :: value.2)) ?_
        rintro value final dropped ⟨rfl, rfl⟩
        rfl
    · exact .inr fails.bind

/-- A key that is not there is looked for and nothing else happens. -/
theorem deleteNode_absent : ∀ {h : Nat} {items : List (Item Nat h)} {node : BNode} {work : Work}
    {rest : List Nat} {descents : Nat}, h < descents →
    ValidPage node (nodeType h) (items.map Item.record) →
    (∀ item ∈ items, item.Stored work.working) → Descends items key →
    work.Sound (labelsOf items ++ rest) → (∀ entry ∈ entriesOf items, entry.key ≠ key) →
    deleteNode key descents node work = .ok none work
  | 0, items, node, work, rest, descents + 1, enough, valid, _, descends, sound, missing => by
    have outcome : deleteItems key (items.map Item.erase) = .absent := by
      refine if_neg fun mem => ?_
      obtain ⟨item, isItem, sameKey⟩ := mem_map.mp mem
      refine missing item.entry ?_ sameKey
      rw [← entriesOf_erase, entriesOf_zero]
      exact mem_map_of_mem isItem
    have follows := @deleteNode_leaf key items node work rest descents valid descends sound
    rw [outcome] at follows
    exact follows
  | h + 1, items, node, work, rest, descents + 1, enough, valid, stored, descends, sound,
      missing => by
    obtain ⟨before, child, after, around⟩ := descends.around
    obtain ⟨page, found, pointer, childValid, childStored⟩ := around.child_page valid stored
    rw [deleteNode_internal (nodeLookupLE_eq valid.holds around) valid.holds.type_eq
      found childValid.valid, pointer]
    refine bind_of_ok (deleteNode_absent (Nat.lt_of_succ_lt_succ enough) childValid
      childStored (descends.child around) (sound.below around.shape) ?_)
    exact fun entry mem => missing entry (around.mem_entries mem)

end Delete

end GoDatabase
