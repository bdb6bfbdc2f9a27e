import GoDatabase.Tree.Canonical

/-!
# Deletions that do not fit

A deletion removes a record from a leaf, and yet a page above may grow: where the key is a
separator, its successor takes its place, and no page is split on this way.  The sizes of
the pages after a deletion follow from those before it, and with them whether one of them
grows beyond a page.
-/

namespace GoDatabase

open Library List Packing Item Option

variable {h : Nat}

/-! ## Sizes after a deletion -/

/-- What becomes of the child that a deletion has changed. -/
inductive Fate where
  | left | right | dropped | kept
  deriving DecidableEq

/-- The fate of a child between its siblings: whether it is empty, and its new size. -/
def fate (before after : List (Item Unit (h + 1))) (empty : Bool) (size : Nat) : Fate :=
  if empty ∨ size ≤ pageSize / 4 then
    if before.getLast?.any fun sibling =>
      pageBytes sibling.items + size ≤ pageSize + pageHeaderSize then
      .left
    else if after.head?.any fun sibling =>
      size + pageBytes sibling.items ≤ pageSize + pageHeaderSize then
      .right
    else if empty then
      .dropped
    else
      .kept
  else
    .kept

/-- The entries below a node that a deletion leaves. -/
def entriesAfter (key : Bytes) (items : List (Item Unit h)) : List Entry :=
  SortedMap.erase key (entriesOf items)

/-- The record of a child whose first entry is the first of these. -/
def separatorWeight (entries : List Entry) : Nat :=
  pagePtrSize + pageOffsetSize + (4 + ((entries.head?.map Binding.key).getD []).length)

/-- The encoded size of a node after a deletion below it. -/
def sizeAfter (key : Bytes) : {h : Nat} → List (Item Unit h) → Nat
  | 0, items => pageHeaderSize + Packing.total entryWeight (entriesAfter key items)
  | _ + 1, items =>
    match items[lowerIndex items key]? with
    | none => pageBytes items
    | some child =>
      let before := items.take (lowerIndex items key)
      let after := items.drop (lowerIndex items key + 1)
      let separator := separatorWeight (entriesAfter key child.items ++ entriesOf after)
      match fate before after (entriesAfter key child.items).isEmpty
        (sizeAfter key child.items) with
      | .left => pageBytes (before ++ after)
      | .right => pageBytes (before ++ after.tail) + separator
      | .dropped => pageBytes (before ++ after)
      | .kept => pageBytes (before ++ after) + separator

/-- A page on the way to the key has it as a separator and does not take its successor. -/
def SeparatorOverflows (key : Bytes) : {h : Nat} → List (Item Unit h) → Prop
  | 0, _ => False
  | _ + 1, items =>
    match items[lowerIndex items key]? with
    | none => False
    | some child =>
      SeparatorOverflows key child.items ∨ child.key = key ∧ pageSize < sizeAfter key items

section Sizes

variable {key : Bytes} {items before after : List (Item Unit (h + 1))} {child : Item Unit (h + 1)}

theorem sizeAfter_around (around : Around items key before child after) : sizeAfter key items =
      match fate before after (entriesAfter key child.items).isEmpty
        (sizeAfter key child.items) with
      | .left => pageBytes (before ++ after)
      | .right => pageBytes (before ++ after.tail) +
          separatorWeight (entriesAfter key child.items ++ entriesOf after)
      | .dropped => pageBytes (before ++ after)
      | .kept => pageBytes (before ++ after) +
          separatorWeight (entriesAfter key child.items ++ entriesOf after) := by
  rw [sizeAfter, around.getElem?_eq]
  simp only [around.take_eq, around.drop_eq]

theorem separatorOverflows_around (around : Around items key before child after) :
    SeparatorOverflows key items ↔
      SeparatorOverflows key child.items ∨ child.key = key ∧ pageSize < sizeAfter key items := by
  rw [SeparatorOverflows, around.getElem?_eq]

variable {ι : Type}

/-- Two nodes share one header when they are merged. -/
theorem pageBytes_append (left right : List (Item ι h)) :
    pageBytes (left ++ right) + pageHeaderSize = pageBytes left + pageBytes right := by
  rw [pageBytes, pageBytes, pageBytes, total_append]
  omega

theorem merge_le_iff (left right : List (Item ι h)) : pageBytes (left ++ right) ≤ pageSize ↔
      pageBytes left + pageBytes right ≤ pageSize + pageHeaderSize := by
  rw [← pageBytes_append]
  omega

theorem pageBytes_insert (before after : List (Item ι h)) (item : Item ι h) :
    pageBytes (before ++ item :: after) = pageBytes (before ++ after) + item.weight := by
  rw [pageBytes, pageBytes, total_append, total_append, total_cons]
  omega

/-- The record of a node is that of its first entry. -/
theorem weight_eq_separator {tree : Item Unit (h + 1)} (fit : tree.Fit) (others : List Entry) :
    tree.weight = separatorWeight (tree.entries ++ others) := by
  obtain ⟨value, rest, shape⟩ := fit.entries_eq_cons
  rw [weight_succ, separatorWeight, shape]
  rfl

section Fate

variable {updated : List (Item Unit h)}

theorem small_iff : Small updated ↔
    (updated.isEmpty = true ∨ pageBytes updated ≤ pageSize / 4) := by
  rw [Small, length_eq_zero_iff, List.isEmpty_iff]

variable {sibling : Item Unit (h + 1)}

theorem fate_left {front : List (Item Unit (h + 1))} (small : Small updated)
    (fits : pageBytes (sibling.items ++ updated) ≤ pageSize) :
    fate (front ++ [sibling]) after updated.isEmpty (pageBytes updated) = .left := by
  rw [fate, if_pos (small_iff.mp small), if_pos]
  rw [List.getLast?_concat, any_some, decide_eq_true_eq]
  exact (merge_le_iff _ _).mp fits

/-- The sibling on the left is too large to take the child. -/
theorem large_left (apart : ∀ front sibling, before = front ++ [sibling] →
      pageSize < pageBytes (sibling.items ++ updated)) :
    ∀ left ∈ before.getLast?, pageSize + pageHeaderSize <
      pageBytes left.items + pageBytes updated := by
  intro left isLast
  obtain ⟨front, shape⟩ := List.getLast?_eq_some_iff.mp isLast
  exact Nat.lt_of_not_le fun fits =>
    absurd (apart front left shape) (Nat.not_lt.mpr ((merge_le_iff _ _).mpr fits))

theorem large_right (apart : ∀ sibling back, after = sibling :: back →
      pageSize < pageBytes (updated ++ sibling.items)) :
    ∀ right ∈ after.head?, pageSize + pageHeaderSize <
      pageBytes updated + pageBytes right.items := by
  intro right isFirst
  obtain ⟨back, shape⟩ := List.head?_eq_some_iff.mp isFirst
  exact Nat.lt_of_not_le fun fits =>
    absurd (apart right back shape) (Nat.not_lt.mpr ((merge_le_iff _ _).mpr fits))

theorem not_any_of_large {siblings : Option (Item Unit (h + 1))} {size : Item Unit (h + 1) → Nat}
    (large : ∀ sibling ∈ siblings, pageSize + pageHeaderSize < size sibling) :
    ¬ (siblings.any fun sibling => size sibling ≤ pageSize + pageHeaderSize) = true := by
  intro some
  obtain ⟨sibling, isSibling, fits⟩ := (any_eq_true _ _).mp some
  exact absurd (large sibling isSibling) (Nat.not_lt.mpr (of_decide_eq_true fits))

theorem fate_right {back : List (Item Unit (h + 1))} (small : Small updated)
    (apart : ∀ front sibling, before = front ++ [sibling] →
      pageSize < pageBytes (sibling.items ++ updated))
    (fits : pageBytes (updated ++ sibling.items) ≤ pageSize) :
    fate before (sibling :: back) updated.isEmpty (pageBytes updated) = .right := by
  rw [fate, if_pos (small_iff.mp small), if_neg (not_any_of_large (large_left apart)), if_pos]
  rw [List.head?_cons, any_some, decide_eq_true_eq]
  exact (merge_le_iff _ _).mp fits

theorem fate_kept (nonempty : updated ≠ []) (apart : Small updated →
      (∀ front sibling, before = front ++ [sibling] → pageSize <
        pageBytes (sibling.items ++ updated)) ∧
      ∀ sibling back, after = sibling :: back → pageSize < pageBytes (updated ++ sibling.items)) :
    fate before after updated.isEmpty (pageBytes updated) = .kept := by
  have some : ¬ updated.isEmpty = true := fun empty => nonempty (isEmpty_iff.mp empty)
  rw [fate]
  split_ifs with small left right
  · exact absurd left (not_any_of_large (large_left (apart (small_iff.mpr small)).1))
  · exact absurd right (not_any_of_large (large_right (apart (small_iff.mpr small)).2))
  · rfl
  · rfl

end Fate

variable {result : List (Item Unit (h + 1))}

/-- The size of a node that has taken in a changed child. -/
theorem Settles.pageBytes_eq {updated : List (Item Unit h)}
    (settles : Settles before after updated result)
    (fitBefore : ∀ item ∈ before, item.Fit) (fitAfter : ∀ item ∈ after, item.Fit)
    (fit : ∀ item ∈ updated, item.Fit) (inside : pageBytes updated ≤ pageSize) : pageBytes result =
      match fate before after updated.isEmpty (pageBytes updated) with
      | .left => pageBytes (before ++ after)
      | .right => pageBytes (before ++ after.tail) +
          separatorWeight (entriesOf updated ++ entriesOf after)
      | .dropped => pageBytes (before ++ after)
      | .kept => pageBytes (before ++ after) +
          separatorWeight (entriesOf updated ++ entriesOf after) := by
  cases settles with
  | left front sibling shape small fits =>
    subst shape
    have siblingFit := fitBefore sibling (by simp)
    have sameKey : (Item.node () (sibling.items ++ updated)).weight = sibling.weight := by
      cases items : sibling.items with
      | nil => exact absurd items siblingFit.nonempty
      | cons first rest =>
        rw [weight_succ, weight_succ, key_of_items items]
        rfl
    rw [fate_left small fits, pageBytes_insert, sameKey, append_assoc, singleton_append,
      pageBytes_insert]
  | right sibling back shape small apart fits =>
    subst shape
    have siblingFit := fitAfter sibling (by simp)
    have merged : (Item.node () (updated ++ sibling.items)).Fit := by
      refine fit_node (fun none => siblingFit.nonempty (append_eq_nil_iff.mp none).2) fits ?_
      intro item mem
      exact (mem_append.mp mem).elim (fit item) (siblingFit.items item)
    rw [fate_right small apart fits, pageBytes_insert, weight_eq_separator merged (entriesOf back)]
    simp
  | dropped alone empty =>
    obtain ⟨rfl, rfl⟩ := alone
    subst empty
    rfl
  | kept nonempty apart =>
    have stays : (Item.node () updated).Fit := fit_node nonempty inside fit
    rw [fate_kept nonempty apart, pageBytes_insert, weight_eq_separator stays (entriesOf after)]
    rfl

/-- A deletion leaves a node without items if it leaves no entries below it. -/
theorem isEmpty_deleteItems {items updated : List (Item Unit h)} (descends : Descends items key)
    (inside : pageBytes items ≤ pageSize) (removed : deleteItems key items = .removed updated) :
    updated.isEmpty = (entriesAfter key items).isEmpty := by
  have spec := deleteItems_spec descends inside
  rw [removed] at spec
  obtain ⟨-, entries, fit, -⟩ := spec
  rw [entriesAfter, ← entries, Bool.eq_iff_iff, List.isEmpty_iff, List.isEmpty_iff]
  refine ⟨fun none => by rw [none]; rfl, fun none => length_eq_zero_iff.mp ?_⟩
  have few := length_le_entriesOf fit
  rw [none] at few
  exact Nat.le_zero.mp few

/-- The size of a node that has taken in a child after a deletion below the child. -/
theorem Settles.pageBytes_eq_sizeAfter {updated : List (Item Unit h)}
    (settles : Settles before after updated result) (descends : Descends items key)
    (around : Around items key before child after)
    (removed : deleteItems key child.items = .removed updated)
    (size : pageBytes updated = sizeAfter key child.items) :
    pageBytes result = sizeAfter key items := by
  have childFit := around.fit descends.fit
  have childDescends := descends.child around
  have spec := deleteItems_spec childDescends childFit.inside
  rw [removed] at spec
  obtain ⟨-, entries, fit, inside⟩ := spec
  have fitBefore : ∀ item ∈ before, item.Fit := fun item mem =>
    descends.fit item (by simp [around.shape, mem])
  have fitAfter : ∀ item ∈ after, item.Fit := fun item mem =>
    descends.fit item (by simp [around.shape, mem])
  rw [settles.pageBytes_eq fitBefore fitAfter fit inside, sizeAfter_around around,
    isEmpty_deleteItems childDescends childFit.inside removed, size, entries]
  rfl

end Sizes

/-- The sizes after a deletion are those of the nodes that it leaves. -/
theorem pageBytes_deleteItems {key : Bytes} : ∀ {h : Nat} {items result : List (Item Unit h)},
    Descends items key → deleteItems key items = .removed result →
    pageBytes result = sizeAfter key items
  | 0, items, result, descends, removed => by
    rw [deleteItems_zero] at removed
    split_ifs at removed
    obtain rfl := Deletion.removed.inj removed
    rw [pageBytes_leaf, map_entry_ofEntry, sizeAfter, entriesAfter, entriesOf_zero]
  | h + 1, items, result, descends, removed => by
    obtain ⟨before, child, after, around⟩ := descends.around
    obtain ⟨updated, below, settles, -⟩ := deleteItems_inversion descends around removed
    exact settles.pageBytes_eq_sizeAfter descends around below
      (pageBytes_deleteItems (descends.child around) below)

section Overflow

variable {key : Bytes} {items before after : List (Item Unit (h + 1))} {child : Item Unit (h + 1)}

/-- A node grows only if the key was the separator of the child. -/
theorem sizeAfter_le (descends : Descends items key) (around : Around items key before child after)
    (other : child.key ≠ key) : sizeAfter key items ≤ pageBytes items := by
  have childFit := around.fit descends.fit
  have separator : separatorWeight (entriesAfter key child.items ++ entriesOf after) =
    child.weight := by
    obtain ⟨value, rest, shape⟩ := childFit.entries_eq_cons
    have kept : entriesAfter key child.items = ⟨child.key, value⟩ :: SortedMap.erase key rest := by
      change SortedMap.erase key child.entries = _
      rw [shape, SortedMap.erase, filter_cons, if_pos (by simpa using other)]
      rfl
    rw [kept, separatorWeight, weight_succ]
    rfl
  have tail : pageBytes (before ++ after.tail) ≤ pageBytes (before ++ after) := by
    cases after with
    | nil => exact Nat.le_refl _
    | cons first rest =>
      rw [tail_cons, pageBytes_insert]
      exact Nat.le_add_right _ _
  rw [sizeAfter_around around, separator, around.shape, pageBytes_insert]
  split
  · exact Nat.le_add_right _ _
  · exact Nat.add_le_add_right tail _
  · exact Nat.le_add_right _ _
  · exact Nat.le_refl _

end Overflow

/-- A deletion fails where a separator overflows. -/
theorem deleteItems_overflow_iff {key : Bytes} : ∀ {h : Nat} {items : List (Item Unit h)},
    Descends items key → pageBytes items ≤ pageSize →
    (deleteItems key items = .overflow ↔ SeparatorOverflows key items)
  | 0, items, _, _ => by
    rw [deleteItems_zero, SeparatorOverflows, iff_false]
    split_ifs <;> rintro ⟨⟩
  | h + 1, items, descends, inside => by
    obtain ⟨before, child, after, around⟩ := descends.around
    have childFit := around.fit descends.fit
    have childDescends := descends.child around
    have below := deleteItems_overflow_iff childDescends childFit.inside
    rw [separatorOverflows_around around, ← below]
    cases outcome : deleteItems key child.items with
    | absent =>
      have spec := deleteItems_spec childDescends childFit.inside
      obtain ⟨value, mem⟩ := mem_entries_of_key childFit
      rw [outcome] at spec
      rw [deleteItems_eq around, outcome]
      simp [spec _ mem]
    | overflow =>
      rw [deleteItems_eq around, outcome]
      simp
    | removed updated =>
      obtain ⟨result, settles, bounded⟩ := deleteItems_of_removed descends around outcome
      have size := settles.pageBytes_eq_sizeAfter descends around outcome
        (pageBytes_deleteItems childDescends outcome)
      have grows : pageSize < sizeAfter key items → child.key = key := by
        intro large
        by_contra other
        exact absurd (sizeAfter_le descends around other) (Nat.not_le.mpr (inside.trans_lt large))
      rw [bounded, boundedItems, size]
      split_ifs with large
      · simp [grows large, large]
      · simp [large]

/-! ## Deletions from a database -/

def Outline.SeparatorOverflows (key : Bytes) : Outline → Prop
  | .empty => False
  | .tree _ items => GoDatabase.SeparatorOverflows key items

theorem deleteOutline_overflow_iff {key : Bytes} {outline : Outline} (sound : outline.Sound) :
    deleteOutline key outline = .overflow ↔ outline.SeparatorOverflows key := by
  cases outline with
  | empty => exact ⟨nofun, fun overflows => absurd overflows id⟩
  | tree height items =>
    have rooted : Rooted items := sound
    rw [Outline.SeparatorOverflows, ← deleteItems_overflow_iff (rooted.descends key) rooted.inside,
      deleteOutline]
    cases deleteItems key items <;> simp

/-- A deletion of a key within the limits from a tree that a run has built returns no error, unless
a callback fails or a separator on the way to the key does not fit in its page. -/
theorem run_delete_ok_iff {work : Work} {live : List Nat} (sound : work.Sound live)
    (calls : List TreeCall) (key : Bytes) (nonempty : key ≠ []) (keyLe : key.length ≤ maxKeySize)
    (clean : (Fallible.after (delete ((TreeState.start work).run calls).root key
      ((TreeState.start work).run calls).work)).callbackErr = none) :
    ∃ tree : Root, tree.pageID = ((TreeState.start work).run calls).root ∧
      tree.Stored ((TreeState.start work).run calls).work.working ∧
      ((∃ result next, delete ((TreeState.start work).run calls).root key
          ((TreeState.start work).run calls).work = .ok result next) ↔
        ¬ tree.outline.SeparatorOverflows key) := by
  obtain ⟨tree, rest, tracks⟩ := (TreeState.tracks_start sound).run calls
  refine ⟨tree, tracks.pageID, tracks.stored, ?_⟩
  rw [← deleteOutline_overflow_iff tree.sound_outline]
  rw [← tracks.pageID] at clean ⊢
  rcases delete_spec nonempty keyLe tracks.stored tracks.sound with result | ⟨next, run, gaveUp⟩ |
      ⟨err, next, run, failed⟩
  · cases outcome : delete tree.pageID key ((TreeState.start work).run calls).work with
    | ok value next =>
      rw [outcome] at result
      cases result with
      | absent _ outline => simp [outline]
      | removed _ _ _ outline => simp [outline]
    | error err next =>
      rw [outcome] at result
      cases result with
      | overflow _ _ outline => simp [outline]
  · rw [run] at clean
    exact absurd clean gaveUp.failed
  · rw [run] at clean
    exact absurd clean failed.failed

/-- The separator of the second leaf is deleted, and `[3]` takes its place. -/
theorem run_delete_ok_iff_leaves : ∃ tree : Root,
    tree.pageID = threeLeaves.root ∧ tree.Stored threeLeaves.work.working ∧
      (∃ result next, delete threeLeaves.root [2] threeLeaves.work = .ok result next) ∧
      ¬ tree.outline.SeparatorOverflows [2] := by
  obtain ⟨_, updated, _, _, _, after, -, -, run, replaced, -⟩ :=
    @threeLeaves_call (.delete [2]) (.tree 1 [.node () [ofEntry ⟨[], []⟩,
        ofEntry ⟨[1], replicate 3000 0⟩], .node () [ofEntry ⟨[3], replicate 1500 0⟩],
      .node () [ofEntry ⟨[4], replicate 600 0⟩]]) (by decide) (by decide +kernel)
  have deleted : delete _ [2] _ = _ := run
  have begun : emptyDatabase = .start (Work.begin ∅ (PageManager.onFile 1)) := rfl
  rw [threeLeaves, begun] at deleted ⊢
  obtain ⟨tree, pageID, stored, returned⟩ :=
    run_delete_ok_iff sound_emptyDatabase fourInserts [2] (by decide) (by decide) (by
      rw [deleted]
      exact replaced.soundNext.clean)
  exact ⟨tree, pageID, stored, ⟨_, _, deleted⟩, returned.mp ⟨_, _, deleted⟩⟩

/-- Four bindings under long keys and two under short ones fill the root page but for a few
bytes.  The last leaf has a short key and a long one. -/
def longSuccessor : List TreeCall :=
  [.insert (1 :: List.replicate 999 0) (List.replicate 3000 0),
    .insert (2 :: List.replicate 999 0) (List.replicate 3000 0),
    .insert (3 :: List.replicate 999 0) (List.replicate 3000 0),
    .insert (4 :: List.replicate 999 0) (List.replicate 3000 0),
    .insert [5] (List.replicate 3000 0), .insert [6] (List.replicate 3000 0),
    .insert (7 :: List.replicate 999 0) []]

theorem reshapeAll_longSuccessor :
    ((TreeCall.reshapeAll longSuccessor .empty).map fun outline => deleteOutline [6] outline) =
      some .overflow := by
  decide +kernel

/-- A run after which a stored key cannot be deleted. -/
theorem run_delete_overflow :
    (emptyDatabase.run longSuccessor).contents [6] ≠ none ∧
      ∃ next, delete (emptyDatabase.run longSuccessor).root [6]
          (emptyDatabase.run longSuccessor).work =
        .error errNodeFull next ∧ next.callbackErr = none := by
  obtain ⟨outline, reshaped, overflow⟩ := Option.map_eq_some_iff.mp reshapeAll_longSuccessor
  obtain ⟨tree, rest, tracks, rfl, room⟩ := emptyDatabase_reshapes (by decide) reshaped
  generalize emptyDatabase.run longSuccessor = state
    at tracks room ⊢
  have bound := delete_reserved_le [6] tracks.stored
  have descents := tracks.sound.descents_le
  have limit : (Fallible.after (delete tree.pageID [6] state.work)).reserved ≤ maxPageID := by omega
  rw [tracks.contents [6] (List.cons_ne_nil _ _), ← tracks.pageID]
  rcases delete_spec (List.cons_ne_nil 6 []) (by decide) tracks.stored tracks.sound with
    result | ⟨next, run, gaveUp⟩ | ⟨err, next, run, failed⟩
  · cases outcome : delete tree.pageID [6] state.work with
    | ok value next =>
      rw [outcome] at result
      cases result with
      | absent _ outline => exact absurd (overflow.symm.trans outline) nofun
      | removed _ _ _ outline => exact absurd (overflow.symm.trans outline) nofun
    | error err next =>
      rw [outcome] at result
      cases result with
      | overflow present overflowed _ =>
        obtain ⟨live, sound⟩ := overflowed.sound
        exact ⟨present, next, rfl, sound.clean⟩
  · rw [run] at limit
    exact absurd gaveUp.exhausted (Nat.not_lt.mpr limit)
  · rw [run] at limit
    exact absurd failed.exhausted (Nat.not_lt.mpr limit)

end GoDatabase
