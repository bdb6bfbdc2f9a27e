import GoDatabase.Tree.Calls
import GoDatabase.Tree.Settle

/-!
# Canonical roots

The loader requires that an internal root has two children, and a tree without bindings should
have no pages.  An insertion keeps both.  A deletion replaces a root with a single child by that
child, but only once: if the child has a single item itself, the root is not canonical.
-/

namespace GoDatabase

open Library BNode List SortedMap Item Option

variable {h : Nat} {key value : Bytes}

/-- The root has two items: the sentinel and a binding, or two children. -/
def Outline.Canonical : Outline → Prop
  | .empty => True
  | .tree _ items => 2 ≤ items.length

/-- The root has two children, the first with one item and the second with one entry, under the
key. -/
def Outline.LosesRoot (key : Bytes) : Outline → Prop
  | .tree (_ + 1) [first, second] =>
    first.items.length = 1 ∧ ∀ entry ∈ second.entries, entry.key = key
  | _ => False

theorem Outline.LosesRoot.pair : ∀ {items : List (Item Unit (h + 1))},
    (Outline.tree (h + 1) items).LosesRoot key → items.length = 2
  | [_, _], _ => rfl
  | [], loses => absurd loses id
  | [_], loses => absurd loses id
  | _ :: _ :: _ :: _, loses => absurd loses id

/-- The items of a root. -/
structure Rooted (items : List (Item Unit h)) : Prop where
  fit : ∀ item ∈ items, item.Fit
  sorted : SortedMap.Sorted (entriesOf items)
  inside : pageBytes items ≤ pageSize
  sentinel : (entriesOf items).head? = some ⟨[], []⟩

def Outline.Sound : Outline → Prop
  | .empty => True
  | .tree _ items => Rooted items

theorem Root.sound_outline (root : Root) : root.outline.Sound := by
  cases root with
  | empty => trivial
  | tree held =>
    have descends := (held.descends []).erase
    refine ⟨descends.fit, descends.sorted, ?_, ?_⟩
    · rw [pageBytes_erase]
      exact held.fit.inside
    · rw [entriesOf_erase]
      exact held.sentinel

namespace Rooted

variable {items : List (Item Unit h)}

theorem nonempty (rooted : Rooted items) : items ≠ [] := by
  rintro rfl
  cases rooted.sentinel

/-- The sentinel is below the first item. -/
theorem first_key (rooted : Rooted items) {first : Item Unit h} {rest : List (Item Unit h)}
    (shape : items = first :: rest) : first.key = [] := by
  have sentinel := rooted.sentinel
  obtain ⟨value, others, entries⟩ := (rooted.fit first (by simp [shape])).entries_eq_cons
  rw [shape, entriesOf_cons, entries] at sentinel
  exact congrArg Binding.key (some.inj sentinel)

theorem descends (rooted : Rooted items) (key : Bytes) : Descends items key where
  fit := rooted.fit
  sorted := rooted.sorted
  low := by
    cases shape : items with
    | nil => exact absurd shape rooted.nonempty
    | cons first rest =>
      exact ⟨first, rest, rfl, rooted.first_key shape ▸ not_lt.mp (List.not_lt_nil key)⟩

end Rooted

theorem length_le_entriesOf {ι : Type} {items : List (Item ι h)} (fit : ∀ item ∈ items, item.Fit) :
    items.length ≤ (entriesOf items).length := by
  induction items with
  | nil => exact Nat.zero_le _
  | cons item items ih =>
    have rest := ih fun other mem => fit other (mem_cons_of_mem _ mem)
    obtain ⟨value, others, shape⟩ := (fit item mem_cons_self).entries_eq_cons
    rw [entriesOf_cons, shape, length_append, length_cons, length_cons]
    omega

/-! ## Insertion -/

theorem canonical_insert {outline : Outline} (storable : Storable key value) (sound : outline.Sound)
    (canonical : outline.Canonical) : (insertOutline key value outline).Canonical := by
  cases outline with
  | empty => exact Nat.le_refl 2
  | tree height items =>
    have rooted : Rooted items := sound
    have descends := rooted.descends key
    have grown := (length_insertItems storable descends rooted.inside).1
    obtain ⟨fit, light⟩ := insertItems_spec storable descends rooted.inside
    have split := splitItems_parts fit (insertItems_ne_nil descends)
      (light.trans (Nat.add_le_add_right rooted.inside _))
    have flatten := split.flatten
    rw [insertOutline, growOutline]
    cases parts : splitItems (insertItems key value items) with
    | nil => exact absurd parts split.ne_nil
    | cons part others =>
      cases others with
      | nil =>
        rw [parts] at flatten
        have whole : part = insertItems key value items := by simpa using flatten
        rw [whole]
        exact Nat.le_trans canonical grown
      | cons second others => simp [Outline.Canonical]

/-! ## Deletion -/

variable {updated : List (Item Unit h)}

theorem entriesOf_deleteItems {items : List (Item Unit h)} (descends : Descends items key)
    (inside : pageBytes items ≤ pageSize) (removed : deleteItems key items = .removed updated) :
    entriesOf updated = erase key (entriesOf items) := by
  have spec := deleteItems_spec descends inside
  rw [removed] at spec
  exact spec.2.1

/-- A child that holds a lower bound of the key is not emptied. -/
theorem deleteItems_ne_nil {items : List (Item Unit h)} (descends : Descends items key)
    (inside : pageBytes items ≤ pageSize) {entry : Entry} (mem : entry ∈ entriesOf items)
    (other : entry.key ≠ key) (removed : deleteItems key items = .removed updated) :
      updated ≠ [] := by
  rintro rfl
  have entries := entriesOf_deleteItems descends inside removed
  have kept : entry ∈ erase key (entriesOf items) :=
    mem_filter.mpr ⟨mem, by simpa using other⟩
  rw [← entries] at kept
  cases kept

theorem canonical_shrink {items : List (Item Unit (h + 1))} (many : 2 ≤ items.length) :
    (shrinkOutline items).Canonical := by
  cases items with
  | nil => exact absurd many (by simp)
  | cons first rest =>
    cases rest with
    | nil => exact absurd many (by simp)
    | cons second rest => exact many

section Internal

variable {items before after : List (Item Unit (h + 1))} {child : Item Unit (h + 1)}

variable {first second : Item Unit (h + 1)} {updated : List (Item Unit h)}

/-- A key belongs to the first or the second of two children. -/
theorem around_pair (around : Around [first, second] key before child after) :
    (before = [] ∧ child = first ∧ after = [second] ∧ key < second.key) ∨
      (before = [first] ∧ child = second ∧ after = []) := by
  have shape := around.shape
  cases before with
  | nil =>
    injection shape with sameChild sameAfter
    refine .inl ⟨rfl, sameChild.symm, sameAfter.symm, around.high second ?_⟩
    rw [← sameAfter]
    exact mem_singleton_self _
  | cons front others =>
    injection shape with same tail
    cases others with
    | nil =>
      injection tail with sameChild sameAfter
      exact .inr ⟨by rw [same], sameChild.symm, sameAfter.symm⟩
    | cons next others =>
      have lengths := congrArg List.length tail
      simp at lengths

/-- A deletion empties a node with nothing but the key. -/
theorem deleteItems_eq_nil_iff {items : List (Item Unit h)} (descends : Descends items key)
    (inside : pageBytes items ≤ pageSize) (removed : deleteItems key items = .removed updated) :
    updated = [] ↔ ∀ entry ∈ entriesOf items, entry.key = key := by
  constructor
  · intro empty entry mem
    by_contra other
    exact deleteItems_ne_nil descends inside mem other removed empty
  · intro only
    have entries := entriesOf_deleteItems descends inside removed
    have none : erase key (entriesOf items) = [] :=
      filter_eq_nil_iff.mpr fun entry mem => by simpa using only entry mem
    have fit := deleteItems_spec descends inside
    rw [removed] at fit
    cases updated with
    | nil => rfl
    | cons first rest =>
      obtain ⟨value, others, shape⟩ := (fit.2.2.1 first mem_cons_self).entries_eq_cons
      rw [none, entriesOf_cons, shape] at entries
      cases entries

/-- A deletion from a root with two children leaves a canonical root, unless the root is lost. -/
theorem canonical_pair
    {result : List (Item Unit (h + 1))} (rooted : Rooted [first, second]) (nonempty : key ≠ [])
    (around : Around [first, second] key before child after)
    (removed : deleteItems key child.items = .removed updated)
    (settles : Settles before after updated result) :
    (shrinkOutline result).Canonical ↔ ¬ (Outline.tree (h + 1) [first, second]).LosesRoot key := by
  have childDescends := (rooted.descends key).child around
  have childFit := around.fit rooted.fit
  have emptied := deleteItems_eq_nil_iff childDescends childFit.inside removed
  have firstItems : 1 ≤ first.items.length :=
    length_pos_iff.mpr (rooted.fit first (by simp)).nonempty
  have secondItems : 1 ≤ second.items.length :=
    length_pos_iff.mpr (rooted.fit second (by simp)).nonempty
  rcases around_pair around with ⟨rfl, rfl, rfl, above⟩ | ⟨rfl, rfl, rfl⟩
  · -- the sentinel stays in the first child, and the key is not in the second
    have kept : updated ≠ [] := by
      obtain ⟨value, mem⟩ := mem_entries_of_key childFit
      rw [rooted.first_key rfl] at mem
      exact fun empty => nonempty (emptied.mp empty _ mem).symm
    have safe : ¬ (Outline.tree (h + 1) [child, second]).LosesRoot key := by
      rintro ⟨-, only⟩
      obtain ⟨value, mem⟩ := mem_entries_of_key (rooted.fit second (by simp))
      exact absurd above (not_lt.mpr (le_of_eq (only _ mem)))
    have some : 1 ≤ updated.length := length_pos_iff.mpr kept
    refine ⟨fun _ => safe, fun _ => ?_⟩
    cases settles with
    | left front sibling shape small inside => exact absurd shape (by simp)
    | right sibling back shape small apart inside =>
      obtain ⟨rfl, rfl⟩ := List.cons.inj shape
      change 2 ≤ (updated ++ second.items).length
      rw [length_append]
      omega
    | dropped alone empty => exact absurd empty kept
    | kept _ apart => exact canonical_shrink (Nat.le_refl 2)
  · have loses : (Outline.tree (h + 1) [first, child]).LosesRoot key ↔
        first.items.length = 1 ∧ updated = [] := by
      rw [emptied]
      rfl
    rw [loses]
    cases settles with
    | left front sibling shape small inside =>
      obtain ⟨rfl, same⟩ := append_inj' (show [] ++ [first] = front ++ [sibling] from shape) rfl
      obtain rfl := singleton_inj.mp same
      change 2 ≤ (first.items ++ updated).length ↔ _
      rw [length_append, ← length_eq_zero_iff]
      omega
    | right sibling back shape small apart inside => cases shape
    | dropped alone empty => cases alone.1
    | kept some apart =>
      exact ⟨fun _ both => some both.2, fun _ => canonical_shrink (Nat.le_refl 2)⟩

/-- A deletion leaves a canonical root, unless the root is lost. -/
theorem canonical_delete {outline updated : Outline} (nonempty : key ≠ []) (sound : outline.Sound)
    (canonical : outline.Canonical) (removed : deleteOutline key outline = .removed updated) :
    updated.Canonical ↔ ¬ outline.LosesRoot key := by
  cases outline with
  | empty => cases removed
  | tree height items =>
    have rooted : Rooted items := sound
    have many : 2 ≤ items.length := canonical
    have descends := rooted.descends key
    obtain ⟨result, outcome, rfl⟩ := deleteOutline_eq_removed removed
    cases height with
    | zero =>
      have sentinel : (⟨[], []⟩ : Entry) ∈ entriesOf items :=
        mem_of_mem_head? rooted.sentinel
      have kept := deleteItems_ne_nil descends rooted.inside sentinel nonempty.symm outcome
      have some := length_pos_iff.mpr kept
      refine ⟨fun _ => id, fun _ => ?_⟩
      rw [shrinkOutline]
      split_ifs with single
      · trivial
      · change 2 ≤ result.length
        omega
    | succ height =>
      obtain ⟨before, child, after, around⟩ := descends.around
      obtain ⟨below, removedBelow, settles, -⟩ := deleteItems_inversion descends around outcome
      by_cases pair : items.length = 2
      · obtain ⟨first, second, rfl⟩ := length_eq_two.mp pair
        exact canonical_pair rooted nonempty around removedBelow settles
      · have shorter := settles.length_le
        have lengths := congrArg List.length around.shape
        rw [length_append, length_cons] at lengths
        exact ⟨fun _ loses => pair loses.pair, fun _ => canonical_shrink (by omega)⟩

end Internal

/-! ## Roots on pages -/

/-- The root page has two children, the page of the first has one record, and there is no other
key than `key` below the second. -/
def LosesRoot (pages : PageMap) (root : Nat) (key : Bytes) : Prop :=
  root ≠ 0 ∧ ∃ node first, pages.lookup root = some node ∧ btype node = nodeTypeInternal ∧
    nkeys node = 2 ∧ pages.lookup (getPtr node 0) = some first ∧ nkeys first = 1 ∧
    ∀ entry, StoredEntry pages (getPtr node 1) entry → entry.key = key

variable {pages : PageMap}

/-- The sentinel is the only entry with an empty key. -/
theorem Tree.key_ne_nil_of_second {held : Tree} {k : Nat} {first second : Item Nat k}
    (shape : held.top.entries = entriesOf [first, second]) (fit : first.Fit) :
    ∀ entry ∈ second.entries, entry.key ≠ [] := by
  intro entry mem empty
  obtain ⟨value, rest, entries⟩ := fit.entries_eq_cons
  have sorted := held.sorted
  rw [shape, entriesOf_cons, entriesOf_cons, entries] at sorted
  have above := (pairwise_cons.mp sorted).1 entry (by simp [mem])
  rw [empty] at above
  exact absurd above (List.not_lt_nil _)

/-- A deletion loses the root of a stored tree if it loses that of its shape. -/
theorem Root.Stored.losesRoot_iff : ∀ {root : Root}, root.Stored pages →
    (LosesRoot pages root.pageID key ↔ root.outline.LosesRoot key)
  | .empty, _ => ⟨fun loses => loses.1 rfl, False.elim⟩
  | .tree ⟨0, top, fit, sorted, sentinel⟩, stored => by
    refine ⟨fun ⟨_, node, _, found, isInternal, _⟩ => ?_, False.elim⟩
    obtain ⟨page, here, valid⟩ := stored.pages.page
    obtain rfl := some.inj (here.symm.trans found)
    rw [valid.holds.type_eq] at isInternal
    exact absurd isInternal (show nodeTypeLeaf ≠ nodeTypeInternal by decide)
  | .tree ⟨height + 1, top, fit, sorted, sentinel⟩, stored => by
    obtain ⟨page, found, valid⟩ := stored.pages.page
    have count : nkeys page = top.items.length := by rw [valid.holds.count_eq, length_map]
    change _ ↔ (Outline.tree (height + 1) (top.items.map erase)).LosesRoot key
    by_cases pair : top.items.length = 2
    · obtain ⟨first, second, shape⟩ := length_eq_two.mp pair
      have storedSecond := stored.pages.items second (by rw [shape]; simp)
      obtain ⟨firstPage, foundFirst, validFirst⟩ :=
        (stored.pages.items first (by rw [shape]; simp)).page
      have records : top.items.map record = [first.record, second.record] := by rw [shape]; rfl
      have atFirst : getPtr page 0 = first.label := by
        rw [valid.holds.ptr_eq (by simp [shape])]
        simp [records, record]
      have atSecond : getPtr page 1 = second.label := by
        rw [valid.holds.ptr_eq (by simp [shape])]
        simp [records, record]
      have nonzero : second.label ≠ 0 := by
        have admissible := valid.admissible 1 (by simp [shape])
        simpa [records, record] using (admissible.internal rfl).1
      have single : nkeys firstPage = first.erase.items.length := by
        rw [validFirst.holds.count_eq, length_map, erase_succ, items_node, length_map]
      have named := @Tree.key_ne_nil_of_second ⟨_, top, fit, sorted, sentinel⟩ _ first second
        (by rw [← shape]; rfl) (fit.items first (by rw [shape]; simp))
      have below (entry : Entry) :
          StoredEntry pages (getPtr page 1) entry ↔ entry ∈ second.erase.entries := by
        rw [atSecond, storedSecond.storedEntry_iff nonzero, entries_erase]
        exact ⟨And.right, fun mem => ⟨named entry mem, mem⟩⟩
      rw [shape]
      constructor
      · rintro ⟨-, node, other, here, -, -, foundOther, one, only⟩
        obtain rfl := some.inj (found.symm.trans here)
        rw [atFirst] at foundOther
        obtain rfl := some.inj (foundFirst.symm.trans foundOther)
        exact ⟨single ▸ one, fun entry mem => only entry ((below entry).mpr mem)⟩
      · rintro ⟨one, only⟩
        exact ⟨stored.nonzero, page, firstPage, found, valid.holds.type_eq, count.trans pair,
          atFirst ▸ foundFirst, single.trans one,
          fun entry mem => only entry ((below entry).mp mem)⟩
    · constructor
      · rintro ⟨-, node, -, here, -, two, -⟩
        obtain rfl := some.inj (found.symm.trans here)
        exact absurd (count.symm.trans two) pair
      · intro loses
        have two := loses.pair
        rw [length_map] at two
        exact absurd two pair

/-- The root is page zero exactly if nothing is stored, and has two children if it is internal. -/
structure CanonicalRoot (state : TreeState) : Prop where
  zero_iff : state.root = 0 ↔ ∀ key, key ≠ [] → state.contents key = none
  children : state.root ≠ 0 → ∀ node, state.work.working.lookup state.root = some node →
    btype node = nodeTypeInternal → 2 ≤ nkeys node

namespace TreeState.Tracks

variable {state : TreeState} {root : Root} {rest : List Nat}

theorem canonicalRoot (tracks : state.Tracks root rest) (canonical : root.outline.Canonical) :
    CanonicalRoot state := by
  have contents := tracks.contents
  have stored := tracks.stored
  have zero_iff := tracks.pageID
  cases root with
  | empty =>
    exact ⟨⟨fun _ => contents, fun _ => zero_iff.symm⟩, fun nonzero => absurd zero_iff.symm nonzero⟩
  | tree held =>
    have many : 2 ≤ held.top.items.length := by
      rw [← length_map erase]
      exact canonical
    refine ⟨⟨fun zero => absurd (zero_iff.trans zero) stored.nonzero, fun unbound => ?_⟩, ?_⟩
    · have entries : 2 ≤ held.top.entries.length :=
        many.trans (length_le_entriesOf held.fit.items)
      cases bindings : held.bindings with
      | nil =>
        rw [held.entries_eq, bindings] at entries
        exact absurd entries (by decide)
      | cons first others =>
        have mem : first ∈ held.bindings := by rw [bindings]; exact mem_cons_self
        have found := lookup_eq_some_of_mem (Root.tree held).sorted_bindings mem
        rw [← contents first.key (held.key_ne_nil mem), unbound _ (held.key_ne_nil mem)] at found
        cases found
    · intro _ node found _
      obtain ⟨page, here, valid⟩ := stored.pages.page
      rw [← zero_iff] at found
      obtain rfl := some.inj (here.symm.trans found)
      rw [valid.holds.count_eq, length_map]
      exact many

/-- A call hands back the pages that the new tree does not use. -/
theorem reachable_or_released (tracks : state.Tracks root rest) (call : TreeCall) {pageID : Nat}
    (reached : Reachable state.work.working state.root pageID) :
    Reachable (state.step call).work.working (state.step call).root pageID ∨
      pageID ∈ (state.step call).work.released := by
  rw [← tracks.pageID, tracks.stored.reachable_iff] at reached
  obtain ⟨next, nextRest, tracksNext, step⟩ := tracks.step call
  rw [← tracksNext.pageID, tracksNext.stored.reachable_iff]
  rcases step with rfl | reshaped
  · exact .inl reached
  · exact reshaped.released pageID reached

/-- Calls that do not lose the root keep it canonical. -/
theorem run_canonical (calls : List TreeCall) : ∀ {state : TreeState} {root : Root}
    {rest : List Nat}, state.Tracks root rest → root.outline.Canonical →
    (∀ done key others result next, calls = done ++ .delete key :: others →
      delete (state.run done).root key (state.run done).work = .ok result next →
      next.callbackErr = none →
      ¬ LosesRoot (state.run done).work.working (state.run done).root key) →
    ∃ last lastRest, (state.run calls).Tracks last lastRest ∧ last.outline.Canonical := by
  induction calls with
  | nil => exact fun tracks canonical _ => ⟨_, _, tracks, canonical⟩
  | cons call calls ih =>
    intro state root rest tracks canonical kept
    obtain ⟨next, nextRest, tracksNext, step⟩ := tracks.step call
    have canonicalNext : next.outline.Canonical := by
      rcases step with rfl | reshaped
      · exact canonical
      cases call with
      | insert key value =>
        rw [← Deletion.removed.inj reshaped.outline]
        exact canonical_insert reshaped.admitted root.sound_outline canonical
      | delete key =>
        refine (canonical_delete reshaped.admitted.1 root.sound_outline canonical
          reshaped.outline).mpr ?_
        rw [← tracks.stored.losesRoot_iff, tracks.pageID]
        obtain ⟨result, after, run, clean⟩ := reshaped.returned
        exact kept [] key calls result after rfl run clean
    refine ih tracksNext canonicalNext ?_
    rintro done key others result after rfl
    exact kept (call :: done) key others result after rfl

end TreeState.Tracks

/-- In a run whose successful deletions do not lose the root, the root is canonical in every
state, and the call that removes the last binding hands back every page of the tree. -/
theorem run_canonicalRoot {work : Work} {live : List Nat} (sound : work.Sound live)
    (calls : List TreeCall) (kept : ∀ done key others result next,
      calls = done ++ .delete key :: others →
      delete ((TreeState.start work).run done).root key ((TreeState.start work).run done).work =
        .ok result next → next.callbackErr = none →
      ¬ LosesRoot ((TreeState.start work).run done).work.working
        ((TreeState.start work).run done).root key) :
    CanonicalRoot ((TreeState.start work).run calls) ∧ ∀ done call, calls = done ++ [call] →
        (∀ key, key ≠ [] → ((TreeState.start work).run calls).contents key = none) →
        ∀ pageID, Reachable ((TreeState.start work).run done).work.working
            ((TreeState.start work).run done).root pageID →
          pageID ∈ ((TreeState.start work).run calls).work.released := by
  obtain ⟨last, lastRest, tracks, canonical⟩ :=
    (TreeState.tracks_start sound).run_canonical calls trivial kept
  have canonicalRoot := tracks.canonicalRoot canonical
  refine ⟨canonicalRoot, ?_⟩
  rintro done call rfl unbound pageID reached
  obtain ⟨root, rest, tracksBefore⟩ := (TreeState.tracks_start sound).run done
  have last : (TreeState.start work).run (done ++ [call]) =
      ((TreeState.start work).run done).step call := by
    rw [TreeState.run, List.foldl_append]
    rfl
  rw [last] at unbound canonicalRoot ⊢
  refine (tracksBefore.reachable_or_released call reached).resolve_left ?_
  rw [canonicalRoot.zero_iff.mpr unbound]
  exact not_reachable_zero _ pageID

/-- Two deletions: the first merges two of three leaves, the second removes one of two. -/
theorem run_canonicalRoot_leaves :
    CanonicalRoot (emptyDatabase.run (fourInserts ++ [.delete [1]] ++ [.delete [4]])) := by
  have begun : emptyDatabase = .start (Work.begin ∅ (PageManager.onFile 1)) := rfl
  rw [begun]
  refine (run_canonicalRoot sound_emptyDatabase _ ?_).1
  intro done key others _ _ split _ _
  rw [← begun]
  rcases eq_nil_or_concat others with rfl | ⟨init, last, rfl⟩
  · obtain ⟨rfl, -⟩ := append_inj' split rfl
    obtain ⟨tree, rest, tracks, outline, -⟩ := emptyDatabase_reshapes
      (show (fourInserts ++ [TreeCall.delete [1]]).length ≤ 20 by decide)
      (show TreeCall.reshapeAll _ _ = some twoLeavesOutline by decide +kernel)
    rw [← tracks.pageID, tracks.stored.losesRoot_iff, outline]
    exact fun loses => absurd loses.1 (by decide)
  · rw [concat_eq_append, ← cons_append, ← append_assoc] at split
    obtain ⟨split, -⟩ := append_inj' split rfl
    rcases eq_nil_or_concat init with rfl | ⟨init, last, rfl⟩
    · obtain ⟨rfl, -⟩ := append_inj' split rfl
      obtain ⟨tree, rest, tracks, outline, -⟩ := threeLeaves_reshapes
      rw [← threeLeaves, ← tracks.pageID, tracks.stored.losesRoot_iff, outline]
      exact id
    · rw [concat_eq_append, ← cons_append, ← append_assoc] at split
      obtain ⟨split, -⟩ := append_inj' split rfl
      have mem : TreeCall.delete key ∈ fourInserts := by simp [split]
      simp only [fourInserts, mem_cons, reduceCtorEq, not_mem_nil, false_or] at mem

/-- Three bindings `[1]`, `[2]` and `[3]`, the last two of which fill a leaf, deleted so that the
sentinel is left alone in the first leaf while the second still has two bindings. -/
def sentinelAlone : List TreeCall :=
  [.insert [1] (List.replicate 3000 0), .insert [2] (List.replicate 3000 0),
    .insert [3] (List.replicate 1050 0), .delete [1], .delete [3], .delete [2]]

theorem reshapeAll_sentinelAlone :
    TreeCall.reshapeAll sentinelAlone .empty = some (.tree 0 [ofEntry ⟨[], []⟩]) := by
  decide +kernel

/-- A run after which nothing is stored, and yet there is a root page. -/
theorem run_not_canonicalRoot :
    (emptyDatabase.run sentinelAlone).root ≠ 0 ∧
      ∀ key, key ≠ [] →
        (emptyDatabase.run sentinelAlone).contents key =
          none := by
  obtain ⟨last, rest, tracks, outline, -⟩ :=
    emptyDatabase_reshapes (by decide) reshapeAll_sentinelAlone
  have unbound : last.bindings = [] := by
    rw [← last.bindings_outline, outline]
    rfl
  rw [← tracks.pageID]
  constructor
  · cases last with
    | empty => cases outline
    | tree held => exact tracks.stored.nonzero
  · intro key nonempty
    rw [tracks.contents key nonempty, unbound]
    rfl

end GoDatabase
