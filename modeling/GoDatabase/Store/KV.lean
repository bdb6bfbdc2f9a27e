import GoDatabase.Store.Recover

/-!
# The durable store

`KV` of `internal/btree/kv.go`.  An update runs its mutations on a working copy of the
committed pages, writes the new pages, syncs, and publishes the new root.  When something
fails before the root is published, everything is rolled back; when publishing fails, the
handle is put back too, but what is on the file is uncertain and is read again before the
next update.

Every call comes with the faults that its file calls meet.  A failing `beforePageWrite` is
a page write that fails without having written anything.
-/

namespace GoDatabase

open Library BNode

structure Mutation where
  key : Bytes
  value : Bytes
  delete : Bool

/-- The call of the tree for one mutation. -/
def Mutation.call (mutation : Mutation) : TreeCall :=
  if mutation.delete then .delete mutation.key else .insert mutation.key mutation.value

/-- What statements about a run need to know besides the file operations. -/
inductive Note where
  /-- `publishRoot` is called for the tree at `root` in these pages. -/
  | publishing (generation root : Nat) (pages : PageMap)
  /-- The update that published the generation returns without an error. -/
  | committed (generation : Nat)

structure KV where
  pm : PageManager
  root : Nat
  pages : PageMap
  closed : Bool
  uncertain : Bool
  disk : Disk Note

/-- The calls that may change the store.  The tree has the new root when they succeed. -/
abbrev Change := (root : Nat) → TreeM (Bool × Nat)

/-- The loop of `ApplyBatch`. -/
def applyMutations : List Mutation → (changed : Bool) → Change
  | [], changed, root => pure (changed, root)
  | mutation :: rest, changed, root => do
    let (applied, root) ← mutation.call.run root
    applyMutations rest (changed || applied) root

/-- The pages that can be reached from a page, which are added to those reached so far. -/
def reachableLoop (pages : PageMap) : (rounds pageID : Nat) → PageMap → PageMap
  | 0, _, reachable => reachable
  | rounds + 1, pageID, reachable =>
    if pageID = 0 then reachable
    else
      let node := pages.page pageID
      let reachable := reachable.insert pageID node
      if btype node = nodeTypeInternal then
        (List.range (nkeys node)).foldl
          (fun reachable idx => reachableLoop pages rounds (getPtr node idx) reachable) reachable
      else
        reachable

/-- No page of a tree is below itself, so the rounds suffice. -/
def reachablePageMap (pages : PageMap) (root : Nat) : PageMap :=
  reachableLoop pages pages.descents root ∅

def errClosed : GoError := .sentinel "database is closed"

namespace KV

/-- The page manager with its file, as an update leaves it before the pages are written. -/
def managed (kv : KV) : Managed Note := ⟨kv.pm, kv.disk⟩

def rollback (state : PageManagerState) (root : Nat) (pages : PageMap) (originalSize : Nat)
    (kv : KV) : KV :=
  { kv with
    pm := PageManager.restore state
    root := root
    pages := pages
    disk := kv.disk.truncate originalSize }

def repair (kv : KV) : Except GoError KV := do
  let size ← kv.disk.view.size
  if Unaligned size then
    .error (errUnaligned size)
  else
    let (pm, pages) ← recoverCommittedPages kv.disk.view (pagesOf size + 1)
    return { kv with
      pm := pm
      pages := pages
      root := pm.rootPageID
      uncertain := false }

/-- `file.Stat` at the beginning of an update. -/
def statSize (kv : KV) : Except GoError Nat :=
  if kv.disk.faults.statUpdate then .error errFile else .ok kv.disk.bytes.length

/-- The loop that writes the pending pages, by ascending page. -/
def writePending (pending : PageMap) : List Nat → Fallible (Managed Note) Unit
  | [] => pure ()
  | pageID :: rest => do
    let managed ← get
    Managed.writePage (managed.disk.faults.pageWrite pageID) pageID (pending.page pageID)
    writePending pending rest

/-- The pages of the new tree are written and synced. -/
def writeData (pending : PageMap) : Fallible (Managed Note) Unit := do
  writePending pending (pending.keys.mergeSort (· ≤ ·))
  let managed ← get
  Managed.onDisk (Disk.sync managed.disk.faults.syncData)

/-- What a call returns: whether it changed the store, and its error. -/
structure Outcome where
  changed : Bool
  err : Option GoError

/-- The part of an update that follows the mutations; `kv` has their effects on the page
manager and on the root. -/
def publish (state : PageManagerState) (oldRoot originalSize : Nat) (work : Work) (kv : KV) :
    Option GoError × KV :=
  match writeData work.pending kv.managed with
  | .error err managed =>
    (some err, { kv with pm := managed.pm, disk := managed.disk }.rollback state oldRoot kv.pages
      originalSize)
  | .ok () managed =>
    let note := Event.note (.publishing (managed.pm.generation + 1) kv.root work.working)
    match Managed.publishRoot kv.root { managed with disk := managed.disk.record note } with
    | .error err managed =>
      (some err, { kv with
        pm := PageManager.restore state
        root := oldRoot
        uncertain := true
        disk := managed.disk })
    | .ok () managed =>
      (none, { kv with
        pm := managed.pm
        pages := reachablePageMap work.working kv.root
        disk := managed.disk.record (.note (.committed managed.pm.generation)) })

/-- An update of a handle that knows what is on its file.  `errors.Join` of a single error is
that error. -/
def updateCertain (change : Change) (kv : KV) : Outcome × KV :=
  let state := kv.pm.snapshot
  match kv.statSize with
  | .error err => (⟨false, some err⟩, kv)
  | .ok originalSize =>
    match change kv.root (Work.begin kv.pages kv.pm) with
    | .error err work =>
      let joined := match work.callbackErr with
        | none => err
        | some callbackErr => .join err callbackErr
      (⟨false, some joined⟩, { kv with pm := work.pm }.rollback state kv.root kv.pages originalSize)
    | .ok (changed, root) work =>
      let changing := { kv with pm := work.pm, root := root }
      match work.callbackErr with
      | some err => (⟨changed, some err⟩, changing.rollback state kv.root kv.pages originalSize)
      | none =>
        if changed then
          let (err, kv) := changing.publish state kv.root originalSize work
          (⟨true, err⟩, kv)
        else
          (⟨false, none⟩, changing.rollback state kv.root kv.pages originalSize)

def update (change : Change) (kv : KV) : Outcome × KV :=
  if kv.uncertain then
    match kv.repair with
    | .error err => (⟨false, some (.wrap "repair metadata: %w" [] err)⟩, kv)
    | .ok kv => kv.updateCertain change
  else
    kv.updateCertain change

/-! ## Calls -/

/-- A call that may change the store. -/
inductive Call where
  | set (key value : Bytes)
  | delete (key : Bytes)
  | applyBatch (mutations : List Mutation)

def Call.change : Call → Change
  | .set key value => (TreeCall.insert key value).run
  | .delete key => (TreeCall.delete key).run
  | .applyBatch mutations => applyMutations mutations false

/-- `Set`, `Delete` and `ApplyBatch`, under the faults of this call. -/
def call (faults : Faults) (request : Call) (kv : KV) : Outcome × KV :=
  let kv := { kv with disk := { kv.disk with faults := faults } }
  if kv.closed then (⟨false, some errClosed⟩, kv)
  else kv.update request.change

def get (key : Bytes) (kv : KV) : Except GoError (Option Bytes) :=
  if kv.closed then .error errClosed else getValue kv.pages kv.root key

def range (start stop : Bytes) (kv : KV) : Except GoError (List Entry) :=
  if kv.closed then .error errClosed else rangeValues kv.pages kv.root start stop

def close (kv : KV) : KV := { kv with closed := true }

/-- `Open` on a file. -/
def openFile (created : Bool) (faults : Faults) (file : Bytes) : Except GoError KV :=
  match openStore created ⟨file, [], faults⟩ with
  | .error err _ => .error err
  | .ok (pm, pages) disk => .ok {
      pm := pm
      root := pm.rootPageID
      pages := pages
      closed := false
      uncertain := false
      disk := disk }

end KV

end GoDatabase
