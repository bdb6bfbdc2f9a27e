import GoDatabase.Tree.EncodedSpec
import GoDatabase.Tree.Shape

/-!
# Rewriting the children of a stored node

Both mutations replace children of a node by nodes on new pages.  Old pages keep
their contents; the pages of the old children are part of the new node or reported
as obsolete.
-/

namespace GoDatabase

open Library BNode List Fallible Item

variable {work next : Work} {live after : List Nat} {pageID : Nat}

/-- Live pages are page identifiers. -/
theorem Work.Sound.addressed (sound : work.Sound live) (isLive : pageID ∈ live) :
    0 < pageID ∧ pageID < 2 ^ 64 := by
  have range := sound.owns.mem_iff.mp (.inl isLive)
  have bounded := sound.owns.bounded
  have limit : maxPageID + 1 ≤ 2 ^ 64 := by decide
  omega

section

variable (sound : work.Sound live) (extended : work.Extends next) (soundNext : next.Sound after)
include sound extended soundNext

/-- Live pages stay live as long as no page is handed back. -/
theorem Work.Sound.still_live : ∀ pageID ∈ live, pageID ∈ after := by
  intro pageID isLive
  have range := sound.owns.mem_iff.mp (.inl isLive)
  have unlisted := sound.owns.not_listed isLive
  have untouched : ¬ next.pm.Available pageID := fun available =>
    sound.owns.not_available isLive (extended.pm.available pageID available)
  rw [PageManager.Available, not_or, Nat.not_le] at untouched
  rcases soundNext.owns.mem_iff.mpr ⟨range.1, untouched.2⟩ with isAfter | listed
  · exact isAfter
  · exfalso
    rw [PageManager.mem_listed] at listed unlisted
    rw [extended.pm.retired, extended.pm.pendingFree, extended.pm.freeList] at listed
    rcases listed with free | others
    · exact untouched.1 free
    · exact unlisted (.inr others)

/-- Pages that were handed out in the meantime are live. -/
theorem Work.Sound.created_live
    (fresh : work.pm.Available pageID) (taken : ¬ next.pm.Available pageID) : pageID ∈ after := by
  have positive : 0 < pageID := by
    rcases fresh with free | outside
    · exact (sound.owns.mem_iff.mp (.inr (PageManager.mem_listed.mpr (.inl free)))).1
    · exact Nat.lt_of_lt_of_le sound.owns.positive outside
  rw [PageManager.Available, not_or, Nat.not_le] at taken
  rcases soundNext.owns.mem_iff.mpr ⟨positive, taken.2⟩ with isAfter | listed
  · exact isAfter
  exfalso
  rw [PageManager.mem_listed, extended.pm.retired, extended.pm.pendingFree,
    extended.pm.freeList] at listed
  have others := listed.resolve_left taken.1
  rcases fresh with free | outside
  · have nodup := sound.owns.nodup_listed
    rw [PageManager.listed] at nodup
    refine disjoint_of_nodup_append nodup free ?_
    simpa only [mem_append] using others
  · have inside := (sound.owns.mem_iff.mp (.inr (PageManager.mem_listed.mpr (.inr others)))).2
    omega

/-- The live pages of an operation that was given up, with those that it lost. -/
theorem Work.Sound.with_lost : ∃ lost, next.Sound (live ++ lost) := by
  obtain ⟨kept, sameKept, sublist⟩ := subperm_of_subset sound.owns.nodup_live
    (sound.still_live extended soundNext)
  obtain ⟨lost, same⟩ := sublist.exists_perm_append
  exact ⟨lost, soundNext.perm (same.trans (sameKept.append_right lost))⟩

end

/-- Page zero is refused as a child. -/
theorem nodeAppendKV_zero_child {node : BNode} {idx : Nat} {key : Bytes} (room : idx < nkeys node)
    (isInternal : btype node = nodeTypeInternal) (key_le : key.length ≤ maxKeySize)
    (nonempty : idx ≠ 0 → key ≠ []) :
    nodeAppendKV node idx 0 key [] = .error (.errorf "child page %d is zero" [.int idx]) := by
  rw [nodeAppendKV, if_neg (by omega), if_neg (by omega), if_neg, if_neg (by simp),
    if_neg (by simp), if_neg (by simp), if_pos ⟨isInternal, rfl⟩]
  rintro ⟨empty, late⟩
  exact nonempty late (length_eq_zero_iff.mp empty)

section Children

variable {h : Nat}

/-- Nodes stored for the parts of an updated node. -/
structure Allocated (work : Work) (live : List Nat) (parts : List (List (Item Nat h)))
    (children : List (Item Nat (h + 1))) (next : Work) : Prop where
  items : children.map Item.items = parts
  stored : ∀ child ∈ children,
    next.working.lookup child.label = some (encodeItems pageSize child.items)
  sound : next.Sound (children.map Item.label ++ live)
  extended : work.Extends next

/-- A part that can be stored as a page. -/
structure Storing (part : List (Item Nat h)) : Prop where
  nonempty : part ≠ []
  encodable : Encodable part
  inside : pageBytes part ≤ pageSize

theorem Storing.fit {part : List (Item Nat h)} (storing : Storing part) (label : Nat) :
    (Item.node label part).Fit :=
  fit_node storing.nonempty storing.inside storing.encodable.fit

variable {part : List (Item Nat h)} {parts : List (List (Item Nat h))} {work next : Work}
  {live : List Nat} {children : List (Item Nat (h + 1))}

theorem Storing.validPage (storing : Storing part) :
    ValidPage (encodeItems pageSize part) (nodeType h) (part.map record) :=
  storing.encodable.validPage storing.inside

/-- The first key of an encoded part is the key of its node. -/
theorem Storing.getKey_zero (storing : Storing part) (label : Nat) :
    getKey (encodeItems pageSize part) 0 = (Item.node label part).key := by
  cases part with
  | nil => exact absurd rfl storing.nonempty
  | cons first rest =>
    rw [storing.validPage.holds.key_eq (by simp)]
    simp only [map_cons, getElem_cons_zero, key_record]
    rfl

theorem Parts.storing {items : List (Item Nat h)}
    (split : Parts items parts) (encodable : Encodable items) : ∀ part ∈ parts, Storing part := by
  intro part isPart
  refine ⟨split.nonempty part isPart, ?_, split.inside part isPart⟩
  obtain ⟨before, after, shape⟩ := append_of_mem isPart
  rw [← split.flatten, shape, flatten_append, flatten_cons] at encodable
  exact encodable.segment

/-- Storing parts and appending them to a parent whose buffer is large enough. -/
theorem appendChildren_spec {capacity keyCount : Nat} : ∀ (parts : List (List (Item Nat h)))
    (done : List Record) (work : Work) (live : List Nat), work.Sound live →
    (∀ part ∈ parts, Storing part) → (done ≠ [] → ∀ part ∈ parts, (Item.node 0 part).key ≠ []) →
    (∀ part ∈ parts.tail, (Item.node 0 part).key ≠ []) →
    Fits capacity keyCount done → done.length + parts.length ≤ keyCount →
    pageHeaderSize + keyCount * (pagePtrSize + pageOffsetSize) + (recordBytes done +
      recordBytes (parts.map fun part => (Item.node 0 part).record)) ≤ capacity →
    (∃ children next, appendChildren (layout capacity nodeTypeInternal keyCount done) done.length
        (parts.map (encodeItems pageSize)) work =
          .ok (layout capacity nodeTypeInternal keyCount (done ++ children.map record)) next ∧
        Allocated work live parts children next) ∨
    Fails work (appendChildren (layout capacity nodeTypeInternal keyCount done) done.length
      (parts.map (encodeItems pageSize)) work) := by
  intro parts
  induction parts with
  | nil =>
    intro done work live sound _ _ _ _ _ _
    left
    refine ⟨[], work, ?_, rfl, fun _ mem => absurd mem not_mem_nil, sound, .refl _⟩
    rw [map_nil, map_nil, append_nil]
    rfl
  | cons part parts ih =>
    intro done work live sound storing keys tailKeys fits room inside
    have keyHere : done.length ≠ 0 → (Item.node 0 part).key ≠ [] := fun late =>
      keys (fun empty => late (by rw [empty]; rfl)) part (mem_cons_self ..)
    have storingPart := storing part (mem_cons_self ..)
    rw [map_cons, recordBytes_cons] at inside
    rw [length_cons] at room
    rw [map_cons, appendChildren]
    rcases TreeM.new_spec sound (encodeItems pageSize part) with
      ⟨pageID, middle, allocated, stores⟩ | ⟨next, exhausted, failed⟩
    · -- the page is stored, so its record can be appended
      have address := stores.sound.addressed (mem_cons_self ..)
      let child : Item Nat (h + 1) := Item.node pageID part
      have sameKey : child.key = (Item.node 0 part).key := rfl
      have keyLe := (storingPart.fit pageID).key_le
      have admissible : Admissible nodeTypeInternal done.length child.record :=
        ⟨.inr rfl, keyLe, Nat.zero_le _, keyHere, fun _ => rfl,
          fun wrong => absurd wrong (by decide), fun _ => ⟨address.1.ne', rfl⟩,
          address.2⟩
      have sameSize : child.record.size = (Item.node 0 part).record.size := rfl
      have appended := nodeAppendKV_layout fits (by omega) admissible (by omega)
      have longer : Fits capacity keyCount (done ++ [child.record]) :=
        fits.append (by omega) (by omega)
      have first : getKey (encodeItems pageSize part) 0 = child.record.key :=
        storingPart.getKey_zero pageID
      have step : (TreeM.new (encodeItems pageSize part) >>= fun pageID => do
          let updated ← nodeAppendKV (layout capacity nodeTypeInternal keyCount done) done.length
            pageID (getKey (encodeItems pageSize part) 0) []
          appendChildren updated (done.length + 1) (parts.map (encodeItems pageSize))) work =
          appendChildren (layout capacity nodeTypeInternal keyCount (done ++ [child.record]))
            (done ++ [child.record]).length (parts.map (encodeItems pageSize)) middle := by
        rw [bind_of_ok allocated, first, length_append, length_singleton]
        exact lift_bind_of_ok appended middle
      rw [step]
      rcases ih (done ++ [child.record]) middle (pageID :: live) stores.sound
          (fun other mem => storing other (mem_cons_of_mem _ mem))
          (fun _ => tailKeys) (fun other mem => tailKeys other (mem_of_mem_tail mem))
          longer (by rw [length_append, length_singleton]; omega)
          (by rw [recordBytes_append, recordBytes_cons, recordBytes_nil]; omega) with
        ⟨children, next, run, result⟩ | fails
      · left
        refine ⟨child :: children, next, ?_, ?_, ?_, ?_, stores.extended.trans result.extended⟩
        · rw [run, map_cons, append_assoc, singleton_append]
        · rw [map_cons, result.items]
          rfl
        · intro other mem
          rcases mem_cons.mp mem with rfl | later
          · exact result.extended.kept pageID _ stores.stored
          · exact result.stored other later
        · refine result.sound.perm ?_
          rw [map_cons, cons_append]
          exact perm_middle
      · exact .inr (fails.after stores.extended)
    · -- no page: page zero is refused
      right
      have refused : nodeAppendKV (layout capacity nodeTypeInternal keyCount done) done.length 0
          (getKey (encodeItems pageSize part) 0) [] =
          .error (.errorf "child page %d is zero" [.int done.length]) := by
        rw [storingPart.getKey_zero 0]
        apply nodeAppendKV_zero_child
        · rw [nkeys_layout fits.counted]
          omega
        · exact btype_layout (by decide)
        · exact (storingPart.fit 0).key_le
        · exact keyHere
      refine ⟨.errorf "child page %d is zero" [.int done.length], next, ?_, failed⟩
      rw [bind_of_ok exhausted]
      exact bind_of_error (lift_of_error refused next)

section

variable (allocated : Allocated work live parts children next)
include allocated

/-- The nodes of a list of parts are addressed once they are live. -/
theorem Allocated.addressed :
    ∀ child ∈ children, child.Addressed := fun _ mem =>
  allocated.sound.addressed (mem_append_left _ (mem_map_of_mem mem))

theorem Allocated.erase :
    children.map erase = (parts.map fun part => part.map erase).map (Item.node ()) := by
  rw [← allocated.items, map_map, map_map]
  rfl

/-- The nodes over stored items are stored. -/
theorem Allocated.tree_stored (storing : ∀ part ∈ parts, Storing part)
    (stored : ∀ item ∈ parts.flatten, item.Stored work.working) :
    ∀ child ∈ children, child.Stored next.working := by
  intro child isChild
  have isPart : child.items ∈ parts := allocated.items ▸ mem_map_of_mem isChild
  refine ⟨⟨_, allocated.stored child isChild, (storing _ isPart).validPage⟩, ?_⟩
  intro item mem
  refine (stored item (mem_flatten.mpr ⟨_, isPart, mem⟩)).mono ?_
  exact fun pageID _ => allocated.extended.kept pageID

end

/-- What an operation below a node leaves behind: the updated items are stored, and
the old pages are among theirs or obsolete. -/
structure Rewritten (items : List (Item Nat h)) (work : Work) (rest : List Nat)
    (updated : List (Item Nat h)) (obsolete : List Nat) (next : Work) : Prop where
  encodable : Encodable updated
  stored : ∀ item ∈ updated, item.Stored next.working
  sound : next.Sound (labelsOf updated ++ (obsolete ++ rest))
  extended : work.Extends next
  replaced : ∀ pageID ∈ obsolete, pageID ∈ labelsOf items

variable {items : List (Item Nat (h + 1))} {rest : List Nat}

/-- The live pages apart from those below a child. -/
theorem Work.Sound.below {before after : List (Item Nat (h + 1))} {child : Item Nat (h + 1)}
    (shape : items = before ++ child :: after)
    (sound : work.Sound (labelsOf items ++ rest)) : work.Sound (labelsOf child.items ++
      (child.label :: (labelsOf before ++ (labelsOf after ++ rest)))) := by
  refine sound.perm ?_
  rw [shape, perm_iff_count]
  intro pageID
  simp only [labelsOf_append, labelsOf_cons, labels_succ, count_append,
    cons_append, count_cons, flatMap_labels]
  omega

/-- New nodes take the place of neighbouring children. -/
theorem Allocated.rewritten {front gone back : List (Item Nat (h + 1))} {middle : Work}
    {obsolete : List Nat} (allocated : Allocated middle live parts children next)
    (shape : items = front ++ (gone ++ back)) (extended : work.Extends middle)
    (accounted : live.Perm
      (labelsOf parts.flatten ++ (obsolete ++ (labelsOf front ++ (labelsOf back ++ rest)))))
    (encodable : Encodable (front ++ (children ++ back)))
    (stored : ∀ item ∈ items, item.Stored work.working)
    (storedParts : ∀ item ∈ parts.flatten, item.Stored middle.working)
    (storing : ∀ part ∈ parts, Storing part)
    (replaced : ∀ pageID ∈ obsolete, pageID ∈ labelsOf items) :
    Rewritten items work rest (front ++ (children ++ back)) obsolete next where
  encodable := encodable
  stored := by
    have kept : ∀ item ∈ items, item.Stored next.working := fun item mem =>
      (stored item mem).mono fun pageID _ => (extended.trans allocated.extended).kept pageID
    intro item mem
    rcases mem_append.mp mem with isFront | mem
    · exact kept item (by simp [shape, isFront])
    · rcases mem_append.mp mem with isNew | isBack
      · exact allocated.tree_stored storing storedParts item isNew
      · exact kept item (by simp [shape, isBack])
  sound := by
    refine allocated.sound.perm ?_
    rw [perm_iff_count]
    intro pageID
    have nodes := (labelsOf_perm children).count_eq pageID
    have others := accounted.count_eq pageID
    rw [allocated.items, count_append] at nodes
    simp only [count_append] at others
    simp only [labelsOf_append, count_append, nodes, others]
    omega
  extended := extended.trans allocated.extended
  replaced := replaced

end Children

end GoDatabase
