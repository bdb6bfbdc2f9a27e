import GoDatabase.Library.Forest
import GoDatabase.Library.SortedMap
import GoDatabase.Memory.Tree
import Mathlib.Logic.Relation

/-!
# The invariant of the in-memory tree

A subtree is described by its height, by the bounds its keys lie between and by the
least number of keys at its top.  The leaves of a tree in order give its entries and the
chain of its `next` pointers.
-/

namespace GoDatabase.Memory

open Library

/-! ## Slices at a known position -/

section Slices

variable {α : Type} (before after : List α) (value other new : α)

@[simp] theorem insertAt_append :
    insertAt (before ++ after) before.length new = some (before ++ new :: after) := by
  simp [insertAt]

@[simp] theorem insertAt_append_succ : insertAt (before ++ value :: after) (before.length + 1) new =
      some (before ++ value :: new :: after) := by
  simpa using insertAt_append (before ++ [value]) after new

@[simp] theorem deleteAt_append :
    deleteAt (before ++ value :: after) before.length = some (before ++ after) := by
  simp [deleteAt]

@[simp] theorem deleteAt_append_succ :
    deleteAt (before ++ value :: other :: after) (before.length + 1) =
      some (before ++ value :: after) := by
  simpa using deleteAt_append (before ++ [value]) after other

@[simp] theorem setAt_append :
    setAt (before ++ value :: after) before.length new = some (before ++ new :: after) := by
  simp [setAt]

@[simp] theorem setAt_append_succ :
    setAt (before ++ value :: other :: after) (before.length + 1) new =
      some (before ++ value :: new :: after) := by
  simpa using setAt_append (before ++ [value]) after other new

@[simp] theorem cutAt_append : cutAt (before ++ after) before.length = some (before, after) := by
  simp [cutAt]

end Slices

/-! ## Leaves in order -/

section Leaves

variable {β : Type} (view : Nat → List Bytes → List Bytes → Option Nat → List β)

mutual

/-- What a view shows of the leaves of a subtree, from left to right. -/
def Node.flat : Node → List β
  | .leaf id keys values next => view id keys values next
  | .internal _ children => flatAll children

def flatAll : List Node → List β
  | [] => []
  | child :: children => child.flat ++ flatAll children

end

@[simp] theorem flat_leaf (id : Nat) (keys values : List Bytes) (next : Option Nat) :
    (Node.leaf id keys values next).flat view = view id keys values next := by rw [Node.flat]

@[simp] theorem flat_internal (keys : List Bytes) (children : List Node) :
    (Node.internal keys children).flat view = flatAll view children := by rw [Node.flat]

@[simp] theorem flatAll_nil : flatAll view [] = [] := by rw [flatAll]

@[simp] theorem flatAll_cons (child : Node) (children : List Node) :
    flatAll view (child :: children) = child.flat view ++ flatAll view children := by rw [flatAll]

@[simp] theorem flatAll_append (left right : List Node) :
    flatAll view (left ++ right) = flatAll view left ++ flatAll view right := by
  induction left with
  | nil => simp
  | cons child left ih => simp [ih]

theorem mem_flatAll {element : β} {children : List Node} :
    element ∈ flatAll view children ↔ ∃ child ∈ children, element ∈ child.flat view := by
  induction children with
  | nil => simp
  | cons child children ih => simp [ih]

end Leaves

/-- A leaf as seen along the chain: its identity and the one it points to. -/
abbrev Link := Nat × Option Nat

def linkView (id : Nat) (_ _ : List Bytes) (next : Option Nat) : List Link := [(id, next)]

def entryView (_ : Nat) (keys values : List Bytes) (_ : Option Nat) : List (Binding Bytes Bytes) :=
  List.zipWith Binding.mk keys values

/-- The chain as the leaves have it, from left to right. -/
abbrev Node.links (node : Node) : List Link := node.flat linkView

/-- The entries, from left to right. -/
abbrev Node.entries (node : Node) : List (Binding Bytes Bytes) := node.flat entryView

theorem links_internal (keys : List Bytes) (children : List Node) :
    (Node.internal keys children).links = flatAll linkView children := flat_internal ..

theorem entries_internal (keys : List Bytes) (children : List Node) :
    (Node.internal keys children).entries = flatAll entryView children := flat_internal ..

theorem links_leaf (id : Nat) (keys values : List Bytes) (next : Option Nat) :
    (Node.leaf id keys values next).links = [(id, next)] := flat_leaf ..

theorem entries_leaf (id : Nat) (keys values : List Bytes) (next : Option Nat) :
    (Node.leaf id keys values next).entries = List.zipWith Binding.mk keys values := flat_leaf ..

/-- A key occurs in a subtree. -/
def Node.Holds (node : Node) (key : Bytes) : Prop := ∃ entry ∈ node.entries, entry.key = key

/-! ## Subtrees -/

/-- A subtree of a tree with at most `maxKeys` keys in a node. -/
def Ok (maxKeys : Nat) : (height least : Nat) → (lower upper : Option Bytes) → Node → Prop
  | 0, least, lower, upper, .leaf _ keys values _ =>
    Gap lower upper ∧ keys.Pairwise (· < ·) ∧ values.length = keys.length ∧
      (∀ key ∈ keys, Above lower key ∧ Below upper key) ∧
      least ≤ keys.length ∧ keys.length ≤ maxKeys
  | height + 1, least, lower, upper, .internal keys children =>
    Forest (Ok maxKeys height (maxKeys / 2)) lower upper keys children ∧
      least ≤ keys.length ∧ keys.length ≤ maxKeys
  | 0, _, _, _, .internal _ _ => False
  | _ + 1, _, _, _, .leaf _ _ _ _ => False

/-- A child has half of the keys at least. -/
abbrev Child (maxKeys height : Nat) := Ok maxKeys height (maxKeys / 2)

namespace Ok

variable {maxKeys height least : Nat} {lower upper : Option Bytes} {node : Node}

theorem least_le (ok : Ok maxKeys height least lower upper node) : least ≤ node.keys.length := by
  match height, node, ok with
  | 0, .leaf _ _ _ _, ok => exact ok.2.2.2.2.1
  | _ + 1, .internal _ _, ok => exact ok.2.1

/-- The least number of keys is given by the keys there are. -/
theorem relax {least' : Nat} (ok : Ok maxKeys height least lower upper node)
    (enough : least' ≤ node.keys.length) : Ok maxKeys height least' lower upper node := by
  match height, node, ok with
  | 0, .leaf _ _ _ _, ⟨gap, ascending, sizes, inside, _, few⟩ =>
    exact ⟨gap, ascending, sizes, inside, enough, few⟩
  | _ + 1, .internal _ _, ⟨forest, _, few⟩ => exact ⟨forest, enough, few⟩

theorem gap : ∀ {height least : Nat} {lower upper : Option Bytes} {node : Node},
    Ok maxKeys height least lower upper node → Gap lower upper
  | 0, _, _, _, .leaf _ _ _ _, ok => ok.1
  | _ + 1, _, _, _, .internal _ _, ok => ok.1.gap fun _ _ _ => gap

/-- The keys inside a subtree are between its bounds. -/
theorem between : ∀ {height least : Nat} {lower upper : Option Bytes} {node : Node} {key : Bytes},
    Ok maxKeys height least lower upper node → node.Holds key → Above lower key ∧ Below upper key
  | 0, _, _, _, .leaf _ keys values _, _, ok, ⟨entry, mem, same⟩ => by
    rw [Node.entries, flat_leaf, entryView] at mem
    obtain ⟨idx, inside, rfl⟩ := List.getElem_of_mem mem
    rw [← same, List.getElem_zipWith]
    exact ok.2.2.2.1 _ (List.getElem_mem _)
  | height + 1, _, _, _, .internal keys children, _, ok, ⟨entry, mem, same⟩ => by
    rw [Node.entries, flat_internal, mem_flatAll] at mem
    obtain ⟨child, isChild, mem⟩ := mem
    have inside : ∀ ⦃low high child key⦄, Child maxKeys height low high child →
        child.Holds key → Above low key ∧ Below high key :=
      fun _ _ _ _ good holds => between good holds
    exact ok.1.between (fun _ _ _ => gap) inside child isChild ⟨entry, mem, same⟩

end Ok

end GoDatabase.Memory
