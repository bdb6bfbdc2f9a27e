import GoDatabase.Manager.Metadata
import GoDatabase.Tree.Occupancy
import Mathlib.Data.Finset.Insert

/-!
# Loading a committed tree

`loadCommittedPages` of `internal/btree/kv.go`: the tree below the committed root is read
page by page.  Every page is validated, its keys are held against the bounds that its parent
gives, no page may occur twice, all leaves have to be at the same depth, and children that
should have been merged are refused.
-/

namespace GoDatabase

open Library BNode

def PageManager.readPage (pm : PageManager) (view : FileView) (pageID : Nat) :
    Except GoError Bytes := do
  pm.validateExistingPageID pageID
  let offset ← dataPageOffset pageID
  view.readAt offset pageSize

/-- The variables that the calls of `walk` share. -/
structure Loading where
  pages : PageMap
  visiting : Finset Nat
  leafDepth : Option Nat

namespace Loader

/-- The variables before the first call. -/
def start : Loading := ⟨∅, ∅, none⟩

/-- What a page has to satisfy by itself and between the bounds of its parent. -/
def checkNode (pageID : Nat) (lower upper : Option Bytes) (root : Bool) (node : BNode) :
    Except GoError Unit :=
  match validateBNode node with
  | .error err => .error (.wrap "validate page %d: %w" [.int pageID] err)
  | .ok () =>
    let firstKey := getKey node 0
    let lastKey := getKey node (nkeys node - 1)
    if nkeys node = 0 then
      .error (.errorf "page %d has no entries" [.int pageID])
    else if pageSize < nbytes node then
      .error (.errorf "page %d exceeds page size" [.int pageID])
    else if root ∧ firstKey.length ≠ 0 then
      .error (.errorf "root page %d is missing the lower-bound sentinel" [.int pageID])
    else if root ∧ btype node = nodeTypeInternal ∧ nkeys node < 2 then
      .error (.errorf "internal root page %d has fewer than two children" [.int pageID])
    else if ∃ key ∈ lower, firstKey ≠ key then
      .error (.errorf "page %d lower bound %q does not match parent key %q"
        [.int pageID, .bytes firstKey, .bytes (lower.getD [])])
    else if ∃ key ∈ upper, key ≤ lastKey then
      .error (.errorf "page %d key %q crosses upper bound %q"
        [.int pageID, .bytes lastKey, .bytes (upper.getD [])])
    else
      .ok ()

/-- Leaves are to be at one depth. -/
def checkDepth (depth : Nat) (loading : Loading) : Except GoError Loading :=
  match loading.leafDepth with
  | none => .ok { loading with leafDepth := some depth }
  | some other =>
    if other ≠ depth then .error (.errorf "leaf depth %d differs from %d" [.int depth, .int other])
    else .ok loading

/-- The upper bound of a child: the next separator, or that of its parent. -/
def childUpper (node : BNode) (idx : Nat) (upper : Option Bytes) : Option Bytes :=
  if idx + 1 < nkeys node then some (getKey node (idx + 1)) else upper

/-- Each call that is under way has marked a page of its own, so the rounds never run out. -/
def walk (readPage : Nat → Except GoError Bytes) (committedPageCount : Nat) :
    (rounds pageID depth : Nat) → (lower upper : Option Bytes) → (root : Bool) → Loading →
      Except GoError Loading
  | 0, _, _, _, _, _, _ => .error errInvalidPageData
  | rounds + 1, pageID, depth, lower, upper, root, loading =>
    if pageID = 0 ∨ committedPageCount < pageID then
      .error (.errorf "invalid child page id %d" [.int pageID])
    else if pageID ∈ loading.visiting then
      .error (.errorf "B+Tree contains a page cycle at %d" [.int pageID])
    else if pageID ∈ loading.pages then
      .error (.errorf "B+Tree references page %d more than once" [.int pageID])
    else
      match readPage pageID with
      | .error err => .error (.wrap "read page %d: %w" [.int pageID] err)
      | .ok node => do
        checkNode pageID lower upper root node
        let loading : Loading := { loading with
          visiting := Insert.insert pageID loading.visiting
          pages := loading.pages.insert pageID node }
        let loading ←
          if btype node = nodeTypeLeaf then
            checkDepth depth loading
          else do
            let loading ← (List.range (nkeys node)).foldlM (fun loading idx =>
              walk readPage committedPageCount rounds (getPtr node idx) (depth + 1)
                (some (getKey node idx)) (childUpper node idx upper) false loading) loading
            checkUnderfull loading.pages pageID node (nkeys node) 0
            pure loading
        return { loading with visiting := loading.visiting.erase pageID }

end Loader

def loadCommittedPages (pm : PageManager) (view : FileView) : Except GoError PageMap :=
  if pm.rootPageID = 0 then
    .ok ∅
  else do
    let loading ← Loader.walk (pm.readPage view) pm.committedPageCount (pm.committedPageCount + 2)
      pm.rootPageID 0 none none true Loader.start
    return loading.pages

end GoDatabase
