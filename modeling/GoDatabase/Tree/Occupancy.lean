import GoDatabase.Tree.Overflow
import Mathlib.Data.List.Chain

/-!
# The occupancy rule

The loader rejects a tree in which a child of at most a quarter page could be merged with a
sibling.  A deletion looks at the siblings of the child it has changed and merges at most
once, so that it may leave such a child: the changed child shrinks beside a small
sibling, a merged child is still small, or two internal nodes are merged whose outer children
then become siblings.
-/

namespace GoDatabase

open Library BNode List Item

variable {h : Nat}

/-! ## The rule without pages -/

/-- Siblings of these sizes are not to be merged. -/
def Apart (left right : Nat) : Prop :=
  left ≤ pageSize / 4 ∨ right ≤ pageSize / 4 → pageSize + pageHeaderSize < left + right

instance : DecidableRel Apart := fun left right =>
  inferInstanceAs (Decidable (left ≤ pageSize / 4 ∨ right ≤ pageSize / 4 →
    pageSize + pageHeaderSize < left + right))

/-- The sizes of the children of a node; the items of a leaf are no children. -/
def childSizes {ι : Type} : {h : Nat} → List (Item ι h) → List Nat
  | 0, _ => []
  | _ + 1, children => children.map fun child => pageBytes child.items

/-- No two siblings at or below the node are to be merged. -/
def Occupied {ι : Type} : {h : Nat} → List (Item ι h) → Prop
  | 0, _ => True
  | _ + 1, children =>
    (childSizes children).IsChain Apart ∧ ∀ child ∈ children, Occupied child.items

instance Occupied.instDecidable {ι : Type} : {h : Nat} → (items : List (Item ι h)) →
    Decidable (Occupied items)
  | 0, _ => inferInstanceAs (Decidable True)
  | h + 1, children =>
    have : DecidablePred fun child : Item ι (h + 1) => Occupied child.items :=
      fun child => instDecidable child.items
    inferInstanceAs (Decidable ((childSizes children).IsChain Apart ∧
      ∀ child ∈ children, Occupied child.items))

section Rule

variable {ι : Type}

theorem childSizes_append (left right : List (Item ι h)) :
    childSizes (left ++ right) = childSizes left ++ childSizes right := by
  cases h with
  | zero => rfl
  | succ h => exact map_append

theorem occupied_nil : Occupied ([] : List (Item ι h)) := by
  cases h with
  | zero => trivial
  | succ h => exact ⟨.nil, forall_mem_nil _⟩

theorem childSizes_cons (child : Item ι (h + 1)) (children : List (Item ι (h + 1))) :
    childSizes (child :: children) = pageBytes child.items :: childSizes children := rfl

/-- The rule below a node whose items come from two: their outer children are siblings now. -/
theorem occupied_append (left right : List (Item ι h)) : Occupied (left ++ right) ↔
    Occupied left ∧ Occupied right ∧
      ∀ last ∈ (childSizes left).getLast?, ∀ first ∈ (childSizes right).head?,
        Apart last first := by
  cases h with
  | zero => exact ⟨fun _ => ⟨trivial, trivial, nofun⟩, fun _ => trivial⟩
  | succ h =>
    rw [Occupied, Occupied, Occupied, childSizes_append, isChain_append, forall_mem_append]
    tauto

/-- The rule below a node, from one of its children outwards. -/
theorem occupied_around (before after : List (Item ι (h + 1))) (child : Item ι (h + 1)) :
    Occupied (before ++ child :: after) ↔ Occupied before ∧ Occupied after ∧ Occupied child.items ∧
      (∀ left ∈ before.getLast?, Apart (pageBytes left.items) (pageBytes child.items)) ∧
      ∀ right ∈ after.head?, Apart (pageBytes child.items) (pageBytes right.items) := by
  have single : Occupied (child :: after) ↔ Occupied child.items ∧ Occupied after ∧
      ∀ right ∈ after.head?, Apart (pageBytes child.items) (pageBytes right.items) := by
    rw [Occupied, Occupied, childSizes_cons, isChain_cons, forall_mem_cons]
    simp only [childSizes, head?_map, Option.mem_def, Option.map_eq_some_iff]
    grind
  rw [occupied_append, single]
  simp only [childSizes, getLast?_map, Option.mem_def, Option.map_eq_some_iff]
  grind

end Rule

/-! ## What a deletion leaves to be merged -/

/-- The sizes of the children of a node once the one between these has shrunk to a size. -/
def settledSizes (before after : List (Item Unit (h + 1))) (empty : Bool) (size : Nat) : List Nat :=
  match fate before after empty size with
  | .left => (childSizes before).dropLast ++
      (((childSizes before).getLast?.getD 0 + size - pageHeaderSize) :: childSizes after)
  | .right => childSizes before ++
      ((size + (childSizes after).head?.getD 0 - pageHeaderSize) :: (childSizes after).tail)
  | .dropped => []
  | .kept => childSizes before ++ size :: childSizes after

/-- The sizes of the children of a node after a deletion below it. -/
def childSizesAfter (key : Bytes) : {h : Nat} → List (Item Unit h) → List Nat
  | 0, _ => []
  | _ + 1, items =>
    match items[lowerIndex items key]? with
    | none => childSizes items
    | some child =>
      settledSizes (items.take (lowerIndex items key)) (items.drop (lowerIndex items key + 1))
        (entriesAfter key child.items).isEmpty (sizeAfter key child.items)

/-- A sibling can take in a child that has shrunk to this size. -/
def Takes (sibling : Item Unit (h + 1)) (size : Nat) : Prop :=
  size ≤ pageSize / 4 ∧ pageBytes sibling.items + size ≤ pageSize + pageHeaderSize

section Patterns

variable (before after : List (Item Unit (h + 1))) (size : Nat)

/-- A small sibling beside a child that has shrunk but is not small: only the child is looked at. -/
def SmallSibling : Prop :=
  pageSize / 4 < size ∧ ∃ sibling, (sibling ∈ before.getLast? ∨ sibling ∈ after.head?) ∧
    pageBytes sibling.items ≤ pageSize / 4 ∧
    pageBytes sibling.items + size ≤ pageSize + pageHeaderSize

/-- The left sibling takes the child in, and the two are to be merged with the right sibling as
well: only one merge is made. -/
def MergedSmall : Prop :=
  ∃ left ∈ before.getLast?, Takes left size ∧ ∃ right ∈ after.head?,
    ¬ Apart (pageBytes left.items + size - pageHeaderSize) (pageBytes right.items)

/-- A sibling takes in a child with these children, and the two of them that become siblings are
to be merged: only the child itself is looked at, not those below it. -/
def MergedAbove (children : List Nat) : Prop :=
  (∃ left ∈ before.getLast?, Takes left size ∧
    ∃ last ∈ (childSizes left.items).getLast?, ∃ first ∈ children.head?, ¬ Apart last first) ∨
  (∀ left ∈ before.getLast?, ¬ Takes left size) ∧ ∃ right ∈ after.head?, Takes right size ∧
    ∃ last ∈ children.getLast?, ∃ first ∈ (childSizes right.items).head?, ¬ Apart last first

/-- A deletion that leaves a child of this size, with children of these sizes, leaves siblings
that are to be merged. -/
def CrowdedAt (children : List Nat) : Prop :=
  SmallSibling before after size ∨ MergedSmall before after size ∨
    MergedAbove before after size children

end Patterns

/-- This happens at a node on the way to the key. -/
def Crowded (key : Bytes) : {h : Nat} → List (Item Unit h) → Prop
  | 0, _ => False
  | _ + 1, items =>
    match items[lowerIndex items key]? with
    | none => False
    | some child =>
      CrowdedAt (items.take (lowerIndex items key)) (items.drop (lowerIndex items key + 1))
        (sizeAfter key child.items) (childSizesAfter key child.items) ∨ Crowded key child.items

section After

variable {key : Bytes} {items before after : List (Item Unit (h + 1))} {child : Item Unit (h + 1)}

theorem childSizesAfter_around (around : Around items key before child after) :
    childSizesAfter key items = settledSizes before after (entriesAfter key child.items).isEmpty
      (sizeAfter key child.items) := by
  rw [childSizesAfter, around.getElem?_eq]
  simp only [around.take_eq, around.drop_eq]

theorem crowded_around (around : Around items key before child after) : Crowded key items ↔
    CrowdedAt before after (sizeAfter key child.items) (childSizesAfter key child.items) ∨
      Crowded key child.items := by
  rw [Crowded, around.getElem?_eq]
  simp only [around.take_eq, around.drop_eq]

variable {updated : List (Item Unit h)} {result : List (Item Unit (h + 1))}

/-- The sizes of the children of a node that has taken in a changed child. -/
theorem Settles.childSizes_eq (settles : Settles before after updated result) :
    childSizes result = settledSizes before after updated.isEmpty (pageBytes updated) := by
  rw [settledSizes]
  cases settles with
  | left front sibling shape small fits =>
    subst shape
    have merged := pageBytes_append sibling.items updated
    have last : childSizes [sibling] = [pageBytes sibling.items] := rfl
    rw [fate_left small fits, childSizes_append, childSizes_cons, items_node, childSizes_append,
      last]
    simp only [dropLast_concat, List.getLast?_concat, Option.getD_some, ← merged,
      Nat.add_sub_cancel]
  | right sibling back shape small apart fits =>
    subst shape
    have merged := pageBytes_append updated sibling.items
    rw [fate_right small apart fits, childSizes_append, childSizes_cons, childSizes_cons,
      items_node]
    simp only [List.head?_cons, Option.getD_some, tail_cons, ← merged, Nat.add_sub_cancel]
  | dropped alone empty =>
    obtain ⟨rfl, rfl⟩ := alone
    subst empty
    rfl
  | kept nonempty apart =>
    rw [fate_kept nonempty apart, childSizes_append, childSizes_cons, items_node]

theorem Apart.mono {left right largerLeft largerRight : Nat} (apart : Apart left right)
    (growsLeft : left ≤ largerLeft) (growsRight : right ≤ largerRight) :
    Apart largerLeft largerRight := by
  rw [Apart] at *
  omega

theorem pageBytes_le_append (left right : List (Item Unit h)) :
    pageBytes left ≤ pageBytes (left ++ right) ∧ pageBytes right ≤ pageBytes (left ++ right) := by
  rw [pageBytes, pageBytes, pageBytes, Packing.total_append]
  omega

section Cases

variable {sibling : Item Unit (h + 1)}

/-- What a left merge leaves to be merged. -/
theorem occupied_left {front : List (Item Unit (h + 1))}
    (takes : Takes sibling (pageBytes updated)) (occupiedBefore : Occupied (front ++ [sibling]))
    (occupiedAfter : Occupied after) :
    Occupied (front ++ Item.node () (sibling.items ++ updated) :: after) ↔
      ¬ CrowdedAt (front ++ [sibling]) after (pageBytes updated) (childSizes updated) ∧
      Occupied updated := by
  obtain ⟨occupiedFront, -, inside, apart, -⟩ := (occupied_around _ _ _).mp occupiedBefore
  have frontApart : ∀ left ∈ front.getLast?,
      Apart (pageBytes left.items) (pageBytes (sibling.items ++ updated)) := fun left isLast =>
    (apart left isLast).mono (Nat.le_refl _) (pageBytes_le_append _ _).1
  have merged : pageBytes sibling.items + pageBytes updated - pageHeaderSize =
      pageBytes (sibling.items ++ updated) := by
    rw [← pageBytes_append, Nat.add_sub_cancel]
  have small := Nat.not_lt.mpr takes.1
  rw [occupied_around, items_node, occupied_append]
  simp only [CrowdedAt, SmallSibling, MergedSmall, MergedAbove, List.getLast?_concat,
    Option.mem_some_iff, exists_eq_left', forall_eq', takes, small, merged]
  grind

/-- What a right merge leaves to be merged. -/
theorem occupied_right {back : List (Item Unit (h + 1))}
    (takes : Takes sibling (pageBytes updated)) (large : ∀ left ∈ before.getLast?,
      pageSize + pageHeaderSize < pageBytes left.items + pageBytes updated)
    (occupiedBefore : Occupied before) (occupiedAfter : Occupied (sibling :: back)) :
    Occupied (before ++ Item.node () (updated ++ sibling.items) :: back) ↔
      ¬ CrowdedAt before (sibling :: back) (pageBytes updated) (childSizes updated) ∧
      Occupied updated := by
  obtain ⟨-, occupiedBack, inside, -, apart⟩ := (occupied_around [] _ _).mp occupiedAfter
  have backApart : ∀ right ∈ back.head?,
      Apart (pageBytes (updated ++ sibling.items)) (pageBytes right.items) := fun right isFirst =>
    (apart right isFirst).mono (pageBytes_le_append _ _).2 (Nat.le_refl _)
  have beforeApart : ∀ left ∈ before.getLast?,
      Apart (pageBytes left.items) (pageBytes (updated ++ sibling.items)) := by
    intro left isLast _
    exact (large left isLast).trans_le (Nat.add_le_add_left (pageBytes_le_append _ _).1 _)
  have refused : ∀ left ∈ before.getLast?, ¬ Takes left (pageBytes updated) :=
    fun left isLast taken => absurd taken.2 (Nat.not_le.mpr (large left isLast))
  have small := Nat.not_lt.mpr takes.1
  rw [occupied_around, items_node, occupied_append]
  simp only [CrowdedAt, SmallSibling, MergedSmall, MergedAbove, List.head?_cons,
    Option.mem_some_iff, exists_eq_left', takes, small]
  grind

/-- What a child that is not merged leaves to be merged. -/
theorem occupied_kept (large : pageBytes updated ≤ pageSize / 4 →
      (∀ left ∈ before.getLast?, pageSize + pageHeaderSize <
        pageBytes left.items + pageBytes updated) ∧
      ∀ right ∈ after.head?, pageSize + pageHeaderSize < pageBytes updated + pageBytes right.items)
    (occupiedBefore : Occupied before) (occupiedAfter : Occupied after) :
    Occupied (before ++ Item.node () updated :: after) ↔
      ¬ CrowdedAt before after (pageBytes updated) (childSizes updated) ∧ Occupied updated := by
  rw [occupied_around, items_node]
  simp only [CrowdedAt, SmallSibling, MergedSmall, MergedAbove, Takes, Apart]
  grind

end Cases

/-- The rule below a node that has taken in a changed child. -/
theorem Settles.occupied_iff (settles : Settles before after updated result)
    (occupiedBefore : Occupied before) (occupiedAfter : Occupied after) : Occupied result ↔
      ¬ CrowdedAt before after (pageBytes updated) (childSizes updated) ∧ Occupied updated := by
  have smaller (small : Small updated) : pageBytes updated ≤ pageSize / 4 := by
    rcases small with empty | small
    · rw [length_eq_zero_iff.mp empty, pageBytes, Packing.total_nil]
      decide
    · exact small
  cases settles with
  | left front sibling shape small fits =>
    subst shape
    exact occupied_left ⟨smaller small, (merge_le_iff _ _).mp fits⟩ occupiedBefore occupiedAfter
  | right sibling back shape small apart fits =>
    subst shape
    rw [merge_le_iff, Nat.add_comm] at fits
    exact occupied_right ⟨smaller small, fits⟩ (large_left apart) occupiedBefore occupiedAfter
  | dropped alone empty =>
    obtain ⟨rfl, rfl⟩ := alone
    subst empty
    simp [CrowdedAt, SmallSibling, MergedSmall, MergedAbove, occupiedBefore, occupied_nil]
  | kept nonempty apart =>
    refine occupied_kept (fun small => ?_) occupiedBefore occupiedAfter
    obtain ⟨apartLeft, apartRight⟩ := apart (.inr small)
    exact ⟨large_left apartLeft, large_right apartRight⟩

end After

theorem childSizes_deleteItems {key : Bytes} {items result : List (Item Unit h)}
    (descends : Descends items key) (removed : deleteItems key items = .removed result) :
    childSizes result = childSizesAfter key items := by
  cases h with
  | zero => rfl
  | succ h =>
    obtain ⟨before, child, after, around⟩ := descends.around
    obtain ⟨updated, below, settles, -⟩ := deleteItems_inversion descends around removed
    have childDescends := descends.child around
    rw [settles.childSizes_eq, childSizesAfter_around around,
      isEmpty_deleteItems childDescends (around.fit descends.fit).inside below,
      pageBytes_deleteItems childDescends below]

/-- A deletion below a node keeps the rule unless it meets one of the patterns on its way. -/
theorem occupied_deleteItems {key : Bytes} : ∀ {h : Nat} {items result : List (Item Unit h)},
    Descends items key → Occupied items → deleteItems key items = .removed result →
    (Occupied result ↔ ¬ Crowded key items)
  | 0, _, _, _, _, _ => ⟨fun _ => id, fun _ => trivial⟩
  | h + 1, items, result, descends, occupied, removed => by
    obtain ⟨before, child, after, around⟩ := descends.around
    obtain ⟨updated, below, settles, -⟩ := deleteItems_inversion descends around removed
    have childDescends := descends.child around
    rw [around.shape, occupied_around] at occupied
    obtain ⟨occupiedBefore, occupiedAfter, inside, -⟩ := occupied
    rw [settles.occupied_iff occupiedBefore occupiedAfter, crowded_around around,
      pageBytes_deleteItems childDescends below, childSizes_deleteItems childDescends below,
      occupied_deleteItems childDescends inside below, not_or]

/-! ## Whole trees -/

def Outline.Occupied : Outline → Prop
  | .empty => True
  | .tree _ items => GoDatabase.Occupied items

instance : DecidablePred Outline.Occupied
  | .empty => inferInstanceAs (Decidable True)
  | .tree _ items => inferInstanceAs (Decidable (GoDatabase.Occupied items))

def Outline.Crowded (key : Bytes) : Outline → Prop
  | .empty => False
  | .tree _ items => GoDatabase.Crowded key items

/-- A root that is dropped or replaced by its child breaks no rule. -/
theorem occupied_shrinkOutline : ∀ {h : Nat} (items : List (Item Unit h)),
    (shrinkOutline items).Occupied ↔ Occupied items
  | 0, items => by
    rw [shrinkOutline]
    split_ifs <;> exact Iff.rfl
  | h + 1, [] => ⟨fun _ => occupied_nil, fun _ => trivial⟩
  | h + 1, [child] => by
    change Occupied child.items ↔ _
    exact ⟨fun occupied => ⟨.singleton _, by simpa using occupied⟩,
      fun occupied => occupied.2 child mem_cons_self⟩
  | h + 1, _ :: _ :: _ => Iff.rfl

/-- A deletion keeps the rule unless it meets one of the patterns. -/
theorem occupied_deleteOutline {key : Bytes} {outline updated : Outline} (sound : outline.Sound)
    (occupied : outline.Occupied) (removed : deleteOutline key outline = .removed updated) :
    updated.Occupied ↔ ¬ outline.Crowded key := by
  cases outline with
  | empty => cases removed
  | tree height items =>
    have rooted : Rooted items := sound
    have descends := rooted.descends key
    obtain ⟨result, outcome, rfl⟩ := deleteOutline_eq_removed removed
    rw [occupied_shrinkOutline, occupied_deleteItems descends occupied outcome]
    exact Iff.rfl

/-! ## The rule on pages -/

def encodedMergeSize (left right : BNode) : Nat :=
  pageHeaderSize + (nkeys left + nkeys right) % 2 ^ 16 * (pagePtrSize + pageOffsetSize) +
    getOffset left (nkeys left) + getOffset right (nkeys right)

/-- The last loop of `walk` in `loadCommittedPages`, over the children of an internal page. -/
def checkUnderfull (pages : PageMap) (pageID : Nat) (node : BNode) :
    (remaining idx : Nat) → Except GoError Unit
  | 0, _ => .ok ()
  | remaining + 1, idx =>
    let child := pages.page (getPtr node idx)
    if pageSize / 4 < nbytes child then
      checkUnderfull pages pageID node remaining (idx + 1)
    else if 0 < idx ∧ encodedMergeSize (pages.page (getPtr node (idx - 1))) child ≤ pageSize then
      .error (.errorf "page %d child %d is underfull and mergeable with its left sibling"
        [.int pageID, .int (getPtr node idx)])
    else if idx + 1 < nkeys node ∧
        encodedMergeSize child (pages.page (getPtr node (idx + 1))) ≤ pageSize then
      .error (.errorf "page %d child %d is underfull and mergeable with its right sibling"
        [.int pageID, .int (getPtr node idx)])
    else
      checkUnderfull pages pageID node remaining (idx + 1)

/-- The loader's check passes for every internal page of the tree. -/
def OccupancyRule (pages : PageMap) (root : Nat) : Prop :=
  ∀ pageID node, Reachable pages root pageID → pages.lookup pageID = some node →
    btype node = nodeTypeInternal → checkUnderfull pages pageID node (nkeys node) 0 = .ok ()

section Pages

variable {pages : PageMap}

/-- What the loop checks of one child. -/
def NotUnderfull (pages : PageMap) (node : BNode) (idx : Nat) : Prop :=
  nbytes (pages.page (getPtr node idx)) ≤ pageSize / 4 →
    (0 < idx → pageSize < encodedMergeSize (pages.page (getPtr node (idx - 1)))
      (pages.page (getPtr node idx))) ∧
    (idx + 1 < nkeys node → pageSize < encodedMergeSize (pages.page (getPtr node idx))
      (pages.page (getPtr node (idx + 1))))

theorem checkUnderfull_eq_ok (pageID : Nat) (node : BNode) : ∀ (remaining idx : Nat),
    checkUnderfull pages pageID node remaining idx = .ok () ↔
      ∀ other, idx ≤ other → other < idx + remaining → NotUnderfull pages node other := by
  intro remaining
  induction remaining with
  | zero => exact fun idx => ⟨fun _ other low high => absurd low (by omega), fun _ => rfl⟩
  | succ remaining ih =>
    intro idx
    have split : (∀ other, idx ≤ other → other < idx + (remaining + 1) →
        NotUnderfull pages node other) ↔ NotUnderfull pages node idx ∧
          ∀ other, idx + 1 ≤ other → other < idx + 1 + remaining →
            NotUnderfull pages node other := by
      constructor
      · exact fun all => ⟨all idx (Nat.le_refl _) (by omega),
          fun other low high => all other (by omega) (by omega)⟩
      · rintro ⟨here, later⟩ other low high
        by_cases same : other = idx
        · exact same ▸ here
        · exact later other (by omega) (by omega)
    rw [split, ← ih, checkUnderfull, NotUnderfull]
    split_ifs with large left right
    · exact ⟨fun ok => ⟨fun small => absurd large (Nat.not_lt.mpr small), ok⟩, fun both => both.2⟩
    · refine ⟨nofun, fun both => ?_⟩
      exact absurd ((both.1 (Nat.le_of_not_lt large)).1 left.1) (Nat.not_lt.mpr left.2)
    · refine ⟨nofun, fun both => ?_⟩
      exact absurd ((both.1 (Nat.le_of_not_lt large)).2 right.1) (Nat.not_lt.mpr right.2)
    · refine ⟨fun ok => ⟨fun _ => ⟨fun some => ?_, fun some => ?_⟩, ok⟩, fun both => both.2⟩
      · exact Nat.lt_of_not_le fun fits => left ⟨some, fits⟩
      · exact Nat.lt_of_not_le fun fits => right ⟨some, fits⟩

/-- The page of a stored node has the size of the node. -/
theorem Item.Stored.nbytes_page {tree : Item Nat (h + 1)} (stored : tree.Stored pages) :
    nbytes (pages.page tree.label) = pageBytes tree.items := by
  obtain ⟨page, found, valid⟩ := stored.page
  rw [PageMap.page, found, Option.getD_some, valid.nbytes_eq, nodeSize_records]

theorem Item.Stored.encodedMergeSize_page {left right : Item Nat (h + 1)}
    (storedLeft : left.Stored pages) (storedRight : right.Stored pages) :
    encodedMergeSize (pages.page left.label) (pages.page right.label) + pageHeaderSize =
      pageBytes left.items + pageBytes right.items := by
  obtain ⟨leftPage, foundLeft, validLeft⟩ := storedLeft.page
  obtain ⟨rightPage, foundRight, validRight⟩ := storedRight.page
  have leftInside := validLeft.inside
  have rightInside := validRight.inside
  rw [encodedMergeSize, PageMap.page, PageMap.page, foundLeft, foundRight, Option.getD_some,
    Option.getD_some, validLeft.holds.total_eq, validRight.holds.total_eq, validLeft.holds.count_eq,
    validRight.holds.count_eq, ← nodeSize_records left.items, ← nodeSize_records right.items]
  simp only [nodeSize, pageHeaderSize, pagePtrSize, pageOffsetSize, pageSize] at *
  rw [Nat.mod_eq_of_lt (by omega)]
  omega

/-- The loop accepts a stored node whose children are to be left alone. -/
theorem Item.Stored.checkUnderfull_iff {tree : Item Nat (h + 1 + 1)} (stored : tree.Stored pages)
    {node : BNode} (found : pages.lookup tree.label = some node) :
    checkUnderfull pages tree.label node (nkeys node) 0 = .ok () ↔
      (childSizes tree.items).IsChain Apart := by
  obtain ⟨page, here, valid⟩ := stored.page
  obtain rfl := Option.some.inj (here.symm.trans found)
  have count : nkeys page = tree.items.length := by rw [valid.holds.count_eq, length_map]
  have pointer (idx : Nat) (inside : idx < tree.items.length) :
      getPtr page idx = tree.items[idx].label := by
    rw [valid.holds.ptr_eq (by rwa [length_map]), getElem_map]
    rfl
  have size (idx : Nat) (inside : idx < tree.items.length) :
      nbytes (pages.page (getPtr page idx)) = pageBytes tree.items[idx].items := by
    rw [pointer idx inside]
    exact (stored.items _ (getElem_mem inside)).nbytes_page
  have merge (idx : Nat) (inside : idx + 1 < tree.items.length) :
      pageSize < encodedMergeSize (pages.page (getPtr page idx))
        (pages.page (getPtr page (idx + 1))) ↔ pageSize + pageHeaderSize <
          pageBytes (tree.items[idx]).items + pageBytes (tree.items[idx + 1]).items := by
    rw [pointer idx (by omega), pointer (idx + 1) inside]
    have both := (stored.items _ (getElem_mem (Nat.lt_of_succ_lt inside))).encodedMergeSize_page
      (stored.items _ (getElem_mem inside))
    omega
  rw [checkUnderfull_eq_ok, isChain_iff_getElem]
  simp only [childSizes, length_map, getElem_map, Apart, NotUnderfull, Nat.zero_le,
    true_implies, Nat.zero_add, count]
  constructor
  · intro checked idx inside small
    rw [← merge idx inside]
    rcases small with left | right
    · exact (checked idx (by omega) (by rwa [size idx (by omega)])).2 inside
    · exact (checked (idx + 1) inside (by rwa [size (idx + 1) inside])).1 (Nat.succ_pos idx)
  · intro chain idx inside small
    rw [size idx inside] at small
    constructor
    · intro positive
      obtain ⟨previous, rfl⟩ : ∃ previous, idx = previous + 1 := ⟨idx - 1, by omega⟩
      exact (merge previous inside).mpr (chain previous inside (.inr small))
    · intro next
      exact (merge idx next).mpr (chain idx next (.inl small))

/-- The loop accepts every internal node of a stored tree that respects the rule. -/
theorem Item.Stored.occupied_iff : ∀ {h : Nat} {tree : Item Nat (h + 1)}, tree.Stored pages →
    ((∀ pageID ∈ tree.labels, ∀ node, pages.lookup pageID = some node →
      btype node = nodeTypeInternal → checkUnderfull pages pageID node (nkeys node) 0 = .ok ()) ↔
        Occupied tree.items)
  | 0, tree, stored => by
    refine ⟨fun _ => trivial, fun _ pageID mem node found isInternal => ?_⟩
    rw [labels_succ, flatMap_labels, labelsOf_zero, mem_singleton] at mem
    obtain ⟨page, here, valid⟩ := stored.page
    rw [← mem] at here
    obtain rfl := Option.some.inj (here.symm.trans found)
    rw [valid.holds.type_eq] at isInternal
    exact absurd isInternal (show nodeTypeLeaf ≠ nodeTypeInternal by decide)
  | h + 1, tree, stored => by
    obtain ⟨page, here, valid⟩ := stored.page
    have top := stored.checkUnderfull_iff here
    have below (child : Item Nat (h + 1)) (isChild : child ∈ tree.items) :=
      (stored.items child isChild).occupied_iff
    constructor
    · intro checked
      refine ⟨top.mp (checked _ mem_cons_self page here valid.holds.type_eq), ?_⟩
      intro child isChild
      refine (below child isChild).mp fun pageID mem => checked pageID ?_
      exact mem_cons_of_mem _ (mem_flatMap.mpr ⟨child, isChild, mem⟩)
    · rintro ⟨chain, occupied⟩ pageID mem node found isInternal
      rcases mem_cons.mp mem with rfl | isBelow
      · obtain rfl := Option.some.inj (here.symm.trans found)
        exact top.mpr chain
      · obtain ⟨child, isChild, isLabel⟩ := mem_flatMap.mp isBelow
        exact (below child isChild).mpr (occupied child isChild) pageID isLabel node found
          isInternal

variable {ι : Type}

theorem childSizes_erase (items : List (Item ι h)) :
    childSizes (items.map erase) = childSizes items := by
  cases h with
  | zero => rfl
  | succ h =>
    rw [childSizes, childSizes, map_map]
    refine map_congr_left fun child _ => ?_
    exact pageBytes_erase child.items

theorem occupied_erase : ∀ {h : Nat} (items : List (Item ι h)),
    Occupied (items.map erase) ↔ Occupied items
  | 0, _ => Iff.rfl
  | h + 1, items => by
    rw [Occupied, Occupied, childSizes_erase, forall_mem_map]
    exact and_congr_right fun _ => forall₂_congr fun child _ => occupied_erase child.items

/-- The loader's rule is the one on shapes. -/
theorem Root.Stored.occupancyRule_iff {root : Root} (stored : root.Stored pages) :
    OccupancyRule pages root.pageID ↔ root.outline.Occupied := by
  have reachable (pageID : Nat) : Reachable pages root.pageID pageID ↔ pageID ∈ root.labels :=
    stored.reachable_iff
  simp only [OccupancyRule, reachable]
  cases root with
  | empty => exact ⟨fun _ => trivial, fun _ _ _ mem => absurd mem not_mem_nil⟩
  | tree held =>
    rw [Root.outline, Item.outline, Outline.Occupied, occupied_erase, ← stored.pages.occupied_iff]
    exact ⟨fun rule pageID mem node => rule pageID node mem,
      fun rule pageID node mem => rule pageID mem node⟩

end Pages

/-! ## Deletions -/

/-- A successful deletion from a tree that respects the rule leaves one that does, unless a small
sibling stands beside the child that it shrinks, a merged child is still to be merged, or so are
children that a merge above them has made adjacent. -/
theorem delete_occupancyRule_iff {work : Work} {live : List Nat} {root : Nat}
    (sound : work.Sound live) (owned : ∀ pageID, Reachable work.working root pageID → pageID ∈ live)
    (invariant : TreeInvariant work.working root) (rule : OccupancyRule work.working root)
    (key : Bytes) {deleted : Bool} {newRoot : Nat} {next : Work}
    (ran : delete root key work = .ok (deleted, newRoot) next) (clean : next.callbackErr = none) :
    ∃ tree : Root, tree.pageID = root ∧ tree.Stored work.working ∧
      (OccupancyRule next.working newRoot ↔
        ((∃ value, StoredEntry work.working root ⟨key, value⟩) → ¬ tree.outline.Crowded key)) := by
  obtain ⟨tree, rfl, stored, rest, soundTree⟩ := exists_root sound owned invariant
  refine ⟨tree, rfl, stored, ?_⟩
  have spec := (TreeCall.delete key).result stored soundTree
  have run : (TreeCall.delete key).run tree.pageID work = .ok (deleted, newRoot) next := ran
  rw [run] at spec
  simp only [stored.storedEntry_iff]
  cases spec with
  | absent isDelete missing _ =>
    obtain ⟨⟩ := isDelete
    refine ⟨fun _ ⟨value, mem⟩ => ?_, fun _ => rule⟩
    rw [SortedMap.lookup_eq_some_of_mem tree.sorted_bindings mem] at missing
    cases missing
  | @changed updated _ _ _ replaced _ _ outline present =>
    obtain ⟨value, found⟩ := Option.ne_none_iff_exists'.mp (present key rfl)
    have bound : ∃ value, (⟨key, value⟩ : Entry) ∈ tree.bindings :=
      ⟨value, SortedMap.mem_of_lookup_eq_some found⟩
    rw [replaced.storedNext.occupancyRule_iff, occupied_deleteOutline tree.sound_outline
      (stored.occupancyRule_iff.mp rule) outline]
    exact ⟨fun clear _ => clear, fun clear => clear bound⟩
  | gaveUp gaveUp => exact absurd clean gaveUp.failed

/-- The deletion merges the first two leaves, and nothing more is to be merged. -/
theorem delete_occupancyRule_iff_merge : ∃ newRoot next,
    delete threeLeaves.root [1] threeLeaves.work = .ok (true, newRoot) next ∧
      OccupancyRule next.working newRoot ∧ ∃ tree : Root,
        tree.pageID = threeLeaves.root ∧ tree.Stored threeLeaves.work.working ∧
        (∃ value, StoredEntry threeLeaves.work.working threeLeaves.root ⟨[1], value⟩) ∧
        ¬ tree.outline.Crowded [1] := by
  obtain ⟨tree, updated, rest, _, _, next, tracks, outline, run, replaced, shape⟩ :=
    threeLeaves_call (by decide) delete_threeLeavesOutline
  have rule := tracks.stored.occupancyRule_iff.mpr (by rw [outline]; decide +kernel)
  have kept := replaced.storedNext.occupancyRule_iff.mpr (by rw [shape]; decide +kernel)
  have present : ∃ value, StoredEntry threeLeaves.work.working threeLeaves.root ⟨[1], value⟩ := by
    refine ⟨replicate 3000 0, ?_⟩
    rw [← tracks.pageID, tracks.stored.storedEntry_iff, ← tree.bindings_outline, outline]
    decide +kernel
  rw [tracks.pageID] at rule
  obtain ⟨same, pageID, stored, exact⟩ := delete_occupancyRule_iff tracks.sound
    tracks.invariant.2.2 tracks.invariant.1 rule [1] run replaced.soundNext.clean
  exact ⟨updated.pageID, next, run, kept, same, pageID, stored, present, exact.mp kept present⟩

/-- The second leaf shrinks beside the third, which is small. -/
theorem delete_breaks_occupancyRule :
    OccupancyRule threeLeaves.work.working threeLeaves.root ∧ ∃ newRoot next,
      delete threeLeaves.root [3] threeLeaves.work = .ok (true, newRoot) next ∧
        next.callbackErr = none ∧ ¬ OccupancyRule next.working newRoot := by
  obtain ⟨tree, updated, _, _, _, next, tracks, outline, run, replaced, shape⟩ :=
    @threeLeaves_call (.delete [3]) (.tree 1 [.node () [ofEntry ⟨[], []⟩,
        ofEntry ⟨[1], replicate 3000 0⟩], .node () [ofEntry ⟨[2], replicate 2000 0⟩],
      .node () [ofEntry ⟨[4], replicate 600 0⟩]]) (by decide) (by decide +kernel)
  constructor
  · rw [← tracks.pageID, tracks.stored.occupancyRule_iff, outline]
    decide +kernel
  · refine ⟨updated.pageID, next, run, replaced.soundNext.clean, ?_⟩
    rw [replaced.storedNext.occupancyRule_iff, shape]
    decide +kernel

end GoDatabase
