import GoDatabase.Library.SortedMap
import GoDatabase.Relational.Schema

/-!
# The database and its transactions

A database keeps its contents in memory or in a durable store.  Every method holds the
mutex of the database from its first read to its return, so that a method is one step of
the system.  A transaction buffers its changes and hands them over as one batch.
-/

namespace GoDatabase.Db

open Library SortedMap

/-- `Item`: a key and its value. -/
abbrev Item := Binding Bytes Bytes

structure Mutation where
  key : Bytes
  value : Bytes
  delete : Bool
  deriving DecidableEq, Repr

/-- The sizes that a batch is checked for. -/
def Mutation.withinLimits (mutation : Mutation) : Bool :=
  mutation.key.length ≠ 0 && mutation.key.length ≤ 1000 &&
    (mutation.delete || mutation.value.length ≤ 3000)

/-- `engine.Store`, over the states of the store. -/
structure Store (σ : Type) where
  get : σ → Bytes → Except GoError (Option Bytes)
  range : σ → (start stop : Bytes) → Except GoError (List Item)
  set : σ → (key value : Bytes) → Except GoError Unit × σ
  delete : σ → Bytes → Except GoError Bool × σ
  applyBatch : σ → List Mutation → Except GoError Unit × σ
  close : σ → Except GoError Unit × σ

def errEmptyKey : GoError := .sentinel "key cannot be empty"
def errClosed : GoError := .sentinel "database is closed"
def errTransactionClosed : GoError := .sentinel "transaction is closed"
def errReadOnlyTransaction : GoError := .sentinel "transaction is read-only"
def errWriteTransactionActive : GoError := .sentinel "write transaction already active"

/-- `translateError`; the closed error of the engine has the same text. -/
def translateError (err : GoError) : GoError := if err.is errClosed then errClosed else err

def translate {α : Type} : Except GoError α → Except GoError α
  | .error err => .error (translateError err)
  | .ok value => .ok value

/-- The two places of the contents.  The map in memory is listed by its keys, which the
source sorts wherever their order can be seen. -/
inductive Backend (σ : Type) where
  | memory (data : List Item)
  | durable (state : σ)

structure Database (σ : Type) where
  backend : Backend σ
  closed : Bool
  writerActive : Bool

/-- The keys from `start` to `stop`, both included. -/
def between (start stop : Bytes) (item : Item) : Bool := start ≤ item.key && item.key ≤ stop

/-- One mutation of the map in memory. -/
def Mutation.apply (data : List Item) (mutation : Mutation) : List Item :=
  if mutation.delete then erase mutation.key data
  else put mutation.key mutation.value data

namespace Database

variable {σ : Type} (store : Store σ) (d : Database σ)

/-- `New` -/
def new : Database σ := ⟨.memory [], false, false⟩

/-! ## Access to the contents -/

def getLocked (key : Bytes) : Except GoError (Option Bytes) :=
  match d.backend with
  | .memory data => .ok (lookup data key)
  | .durable state => translate (store.get state key)

def rangeLocked (start stop : Bytes) : Except GoError (List Item) :=
  match d.backend with
  | .memory data => .ok (data.filter (between start stop))
  | .durable state => translate (store.range state start stop)

def setLocked (key value : Bytes) : Except GoError Unit × Database σ :=
  match d.backend with
  | .memory data => (.ok (), { d with backend := .memory (put key value data) })
  | .durable state =>
    let result := store.set state key value
    (translate result.1, { d with backend := .durable result.2 })

/-- The part of `Delete` after its checks. -/
def deleteLocked (key : Bytes) : Except GoError Bool × Database σ :=
  match d.backend with
  | .memory data =>
    if lookup data key = none then (.ok false, d)
    else (.ok true, { d with backend := .memory (erase key data) })
  | .durable state =>
    let result := store.delete state key
    (translate result.1, { d with backend := .durable result.2 })

def applyBatchLocked (mutations : List Mutation) : Except GoError Unit × Database σ :=
  if d.closed then
    (.error errClosed, d)
  else
    match d.backend with
    | .memory data =>
      if mutations.any fun mutation => !mutation.withinLimits then
        (.error errInvalidRow, d)
      else
        (.ok (), { d with backend := .memory (mutations.foldl Mutation.apply data) })
    | .durable state =>
      let result := store.applyBatch state mutations
      (translate result.1, { d with backend := .durable result.2 })

/-! ## Methods without a transaction -/

def close : Except GoError Unit × Database σ :=
  if d.closed then
    (.ok (), d)
  else
    match d.backend with
    | .memory _ => (.ok (), { d with closed := true })
    | .durable state =>
      let result := store.close state
      (result.1, { d with closed := true, backend := .durable result.2 })

def set (key value : Bytes) : Except GoError Unit × Database σ :=
  if d.closed then (.error errClosed, d)
  else if d.writerActive then (.error errWriteTransactionActive, d)
  else if key = [] then (.error errEmptyKey, d)
  else d.setLocked store key value

def get (key : Bytes) : Except GoError (Option Bytes) :=
  if d.closed then .error errClosed
  else if key = [] then .ok none
  else d.getLocked store key

def delete (key : Bytes) : Except GoError Bool × Database σ :=
  if d.closed then (.error errClosed, d)
  else if d.writerActive then (.error errWriteTransactionActive, d)
  else if key = [] then (.ok false, d)
  else d.deleteLocked store key

def range (start stop : Bytes) : Except GoError (List Item) :=
  if d.closed then .error errClosed else d.rangeLocked store start stop

end Database

/-! ## Transactions -/

/-- `transactionChange` -/
structure Change where
  value : Bytes
  delete : Bool
  deriving DecidableEq, Repr

/-- What a change leaves under its key. -/
def Change.result (change : Change) : Option Bytes :=
  if change.delete then none else some change.value

abbrev Changes := List (Binding Bytes Change)

/-- The changes by key, and the keys in the order in which they were first changed. -/
structure Tx where
  readOnly : Bool
  closed : Bool
  order : List Bytes
  changes : Changes

/-- `Begin` -/
def Database.begin {σ : Type} (d : Database σ) (readOnly : Bool) : Except GoError Tx × Database σ :=
  if d.closed then
    (.error errClosed, d)
  else if ¬ readOnly ∧ d.writerActive then
    (.error errWriteTransactionActive, d)
  else
    (.ok ⟨readOnly, false, [], []⟩, if readOnly then d else { d with writerActive := true })

namespace Tx

variable {σ : Type} (store : Store σ) (d : Database σ) (tx : Tx)

/-- The transaction of a single table mutation, before its changes. -/
def empty : Tx := ⟨false, false, [], []⟩

def recordLocked (key : Bytes) (change : Change) : Tx :=
  { tx with
    order := if lookup tx.changes key = none then tx.order ++ [key] else tx.order
    changes := put key change tx.changes }

/-- Changes that are recorded one after the other. -/
def recordAll (changes : Changes) : Tx :=
  changes.foldl (fun tx change => tx.recordLocked change.key change.value) tx

def valueLocked (key : Bytes) : Except GoError (Option Bytes) :=
  match lookup tx.changes key with
  | some change => .ok change.result
  | none => d.getLocked store key

/-- The checks that every method of a transaction starts with. -/
def usable : Except GoError Unit :=
  if tx.closed then .error errTransactionClosed
  else if d.closed then .error errClosed
  else .ok ()

/-- The checks of the methods that change something. -/
def writable : Except GoError Unit :=
  match tx.usable d with
  | .error err => .error err
  | .ok () => if tx.readOnly then .error errReadOnlyTransaction else .ok ()

def get (key : Bytes) : Except GoError (Option Bytes) :=
  match tx.usable d with
  | .error err => .error err
  | .ok () => tx.valueLocked store d key

/-- `Set`, which calls `buffer`. -/
def set (key value : Bytes) : Except GoError Unit × Tx :=
  match tx.writable d with
  | .error err => (.error err, tx)
  | .ok () =>
    if key = [] then (.error errEmptyKey, tx)
    else (.ok (), tx.recordLocked key ⟨value, false⟩)

def delete (key : Bytes) : Except GoError Bool × Tx :=
  match tx.writable d with
  | .error err => (.error err, tx)
  | .ok () =>
    if key = [] then (.ok false, tx)
    else
      match tx.valueLocked store d key with
      | .error err => (.error err, tx)
      | .ok value => (.ok value.isSome, tx.recordLocked key ⟨[], true⟩)

/-- One buffered change of a range, over the items that were read. -/
def overlayChange (start stop : Bytes) (values : List Item) (change : Binding Bytes Change) :
    List Item :=
  if change.key < start ∨ stop < change.key then values
  else if change.value.delete then erase change.key values
  else put change.key change.value.value values

/-- The values by key are sorted at the end, so that a list by key stands for them from the
start. -/
def range (start stop : Bytes) : Except GoError (List Item) :=
  match tx.usable d with
  | .error err => .error err
  | .ok () =>
    if stop < start then .ok []
    else
      match d.rangeLocked store start stop with
      | .error err => .error err
      | .ok items =>
        let values := items.foldl (fun values item => put item.key item.value values) []
        .ok (tx.changes.foldl (overlayChange start stop) values)

/-- The batch of a commit. -/
def mutations : List Mutation :=
  tx.order.map fun key =>
    let change := (lookup tx.changes key).getD ⟨[], false⟩
    ⟨key, change.value, change.delete⟩

/-- `commitLocked`; a read-only transaction is closed by the attempt. -/
def commitLocked : Except GoError Unit × Database σ × Tx :=
  match tx.usable d with
  | .error err => (.error err, d, tx)
  | .ok () =>
    if tx.readOnly then (.error errReadOnlyTransaction, d, { tx with closed := true })
    else
      let published := d.applyBatchLocked store tx.mutations
      match published.1 with
      | .error err => (.error err, published.2, tx)
      | .ok () => (.ok (), { published.2 with writerActive := false }, { tx with closed := true })

/-- `Rollback` never fails. -/
def rollback : Database σ × Tx :=
  if tx.closed then (d, tx)
  else (if tx.readOnly then d else { d with writerActive := false }, { tx with closed := true })

end Tx

end GoDatabase.Db
