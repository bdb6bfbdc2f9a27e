import GoDatabase.Relational.Database

/-!
# The contents of a database

The database relies on its store as on an exact map.  The laws below say what that means;
with them both kinds of database are the same list of items by key.
-/

namespace GoDatabase.Db

open Library SortedMap

/-- An operation that either returns `value` and leaves `after`, or fails and leaves the
contents as they were. -/
def Settles {σ α : Type} (view : σ → List Item) (before : σ) (result : Except GoError α × σ)
    (value : α) (after : List Item) : Prop :=
  (result.1 = .ok value ∧ view result.2 = after) ∨
    ((∃ err, result.1 = .error err) ∧ view result.2 = view before)

section

variable {σ α : Type} {view : σ → List Item} {before : σ} {result : Except GoError α × σ}
  {value : α} {after : List Item} (settles : Settles view before result value after)
include settles

theorem Settles.kept {err : GoError} (failed : result.1 = .error err) :
    view result.2 = view before := by
  rcases settles with ⟨done, -⟩ | ⟨-, kept⟩
  · cases failed.symm.trans done
  · exact kept

theorem Settles.published {other : α} (done : result.1 = .ok other) : view result.2 = after := by
  rcases settles with ⟨-, published⟩ | ⟨⟨err, failed⟩, -⟩
  · exact published
  · cases done.symm.trans failed

end

/-- The keys of at most 1000 bytes, and those that are not longer than one in the contents. -/
def Bounded (contents : List Item) (key : Bytes) : Prop :=
  key.length ≤ 1000 ∨ ∃ item ∈ contents, key.length ≤ item.key.length

/-- A store that behaves as an exact map with the contents `view`.  Reading is exact for
every key that can be stored, and for ranges between such keys.  Writing may fail, for
example for a key that is too long, and then has no effect. -/
structure Store.Models {σ : Type} (store : Store σ) (view : σ → List Item) : Prop where
  sorted : ∀ state, Sorted (view state)
  get : ∀ state key, key ≠ [] → store.get state key = .ok (lookup (view state) key)
  range : ∀ state start stop, Bounded (view state) start → Bounded (view state) stop →
    store.range state start stop = .ok ((view state).filter (between start stop))
  reads : ∀ left right, view left = view right →
    store.get left = store.get right ∧ store.range left = store.range right
  set : ∀ state key value,
    Settles view state (store.set state key value) () (put key value (view state))
  delete : ∀ state key, Settles view state (store.delete state key)
    (lookup (view state) key).isSome (erase key (view state))
  applyBatch : ∀ state mutations,
    Settles view state (store.applyBatch state mutations) ()
      (mutations.foldl Mutation.apply (view state))
  close : ∀ state, view (store.close state).2 = view state

/-- An exact map with ranges between any keys. -/
structure Store.Exact {σ : Type} (store : Store σ) (view : σ → List Item) : Prop
    extends store.Models view where
  ranges : ∀ state start stop, store.range state start stop =
    .ok ((view state).filter (between start stop))

/-- The contents of a database over a store with the contents `view`. -/
def Database.contents {σ : Type} (view : σ → List Item) (d : Database σ) : List Item :=
  match d.backend with
  | .memory data => data
  | .durable state => view state

section Exact

variable {σ : Type} {store : Store σ} {view : σ → List Item}

theorem getLocked_exact (exact : store.Models view) (d : Database σ) {key : Bytes}
    (nonempty : key ≠ []) :
    d.getLocked store key = .ok (lookup (d.contents view) key) := by
  rw [Database.getLocked, Database.contents]
  cases d.backend with
  | memory data => rfl
  | durable state =>
    dsimp only
    rw [exact.get state key nonempty]
    rfl

theorem rangeLocked_of {d : Database σ} {start stop : Bytes}
    (exact : ∀ state, d.contents view = view state →
      store.range state start stop = .ok ((view state).filter (between start stop))) :
    d.rangeLocked store start stop = .ok ((d.contents view).filter (between start stop)) := by
  rw [Database.contents] at exact
  rw [Database.rangeLocked, Database.contents]
  cases here : d.backend with
  | memory data => rfl
  | durable state =>
    rw [here] at exact
    dsimp only
    rw [exact state rfl]
    rfl

theorem rangeLocked_exact (exact : store.Models view) {d : Database σ} {start stop : Bytes}
    (low : Bounded (d.contents view) start) (high : Bounded (d.contents view) stop) :
    d.rangeLocked store start stop = .ok ((d.contents view).filter (between start stop)) :=
  rangeLocked_of fun state same => exact.range state start stop (same ▸ low) (same ▸ high)

theorem rangeLocked_unbounded (exact : store.Exact view) (d : Database σ)
    (start stop : Bytes) :
    d.rangeLocked store start stop = .ok ((d.contents view).filter (between start stop)) :=
  rangeLocked_of fun state _ => exact.ranges state start stop

/-- What holds of the store holds of the database over it. -/
theorem Settles.durable {α : Type} {d : Database σ} {state : σ} (here : d.backend = .durable state)
    {result : Except GoError α × σ} {value : α} {after : List Item}
    (settles : Settles view state result value after) : Settles (Database.contents view) d
      (translate result.1, { d with backend := .durable result.2 }) value after := by
  rcases settles with ⟨done, published⟩ | ⟨⟨err, failed⟩, kept⟩
  · refine .inl ⟨?_, published⟩
    rw [done]
    rfl
  · refine .inr ⟨⟨translateError err, ?_⟩, ?_⟩
    · rw [failed]
      rfl
    · rw [Database.contents, Database.contents, here]
      exact kept

theorem Database.contents_durable {d : Database σ} {state : σ}
    (here : d.backend = .durable state) : d.contents view = view state := by
  rw [Database.contents, here]

theorem setLocked_settles (exact : store.Models view) (d : Database σ) (key value : Bytes) :
    Settles (Database.contents view) d (d.setLocked store key value) ()
      (put key value (d.contents view)) := by
  rw [Database.setLocked]
  cases here : d.backend with
  | memory data =>
    refine .inl ⟨rfl, ?_⟩
    rw [Database.contents, Database.contents, here]
  | durable state =>
    rw [Database.contents_durable here]
    exact (exact.set state key value).durable here

theorem deleteLocked_settles (exact : store.Models view) (d : Database σ) (key : Bytes) :
    Settles (Database.contents view) d (d.deleteLocked store key)
      (lookup (d.contents view) key).isSome (erase key (d.contents view)) := by
  rw [Database.deleteLocked]
  cases here : d.backend with
  | memory data =>
    have contents : d.contents view = data := by
      rw [Database.contents, here]
    dsimp only
    rw [contents]
    split_ifs with absent
    · refine .inl ⟨by rw [absent]; rfl, ?_⟩
      rw [contents]
      exact (erase_of_absent (ne_of_lookup_eq_none absent)).symm
    · exact .inl ⟨congrArg Except.ok (Option.isSome_iff_ne_none.mpr absent).symm, rfl⟩
  | durable state =>
    rw [Database.contents_durable here]
    exact (exact.delete state key).durable here

theorem applyBatchLocked_settles (exact : store.Models view) (d : Database σ)
    (mutations : List Mutation) :
    Settles (Database.contents view) d (d.applyBatchLocked store mutations) ()
      (mutations.foldl Mutation.apply (d.contents view)) := by
  rw [Database.applyBatchLocked]
  by_cases closed : d.closed = true
  · rw [if_pos closed]
    exact .inr ⟨⟨_, rfl⟩, rfl⟩
  rw [if_neg closed]
  cases here : d.backend with
  | memory data =>
    have contents : d.contents view = data := by
      rw [Database.contents, here]
    dsimp only
    rw [contents]
    split_ifs
    · exact .inr ⟨⟨_, rfl⟩, rfl⟩
    · exact .inl ⟨rfl, rfl⟩
  | durable state =>
    rw [Database.contents_durable here]
    exact (exact.applyBatch state mutations).durable here

theorem close_contents (closing : ∀ state, view (store.close state).2 = view state)
    (d : Database σ) : (d.close store).2.contents view = d.contents view := by
  rw [Database.close]
  by_cases closed : d.closed = true
  · rw [if_pos closed]
  · rw [if_neg closed, Database.contents, Database.contents]
    cases d.backend with
    | memory data => rfl
    | durable state => exact closing state

end Exact

/-! ## A store that is a map -/

variable {data : List Item}

theorem Mutation.sorted_apply (sorted : Sorted data) (mutation : Mutation) :
    Sorted (mutation.apply data) := by
  rw [Mutation.apply]
  split_ifs
  · exact sorted_erase sorted _
  · exact sorted_put sorted _ _

theorem Mutation.sorted_foldl (sorted : Sorted data) (mutations : List Mutation) :
    Sorted (mutations.foldl Mutation.apply data) := by
  induction mutations generalizing data with
  | nil => exact sorted
  | cons mutation rest ih => exact ih (mutation.sorted_apply sorted)

/-- The items of a map, by key. -/
abbrev SortedItems := { items : List Item // Sorted items }

/-- The map itself as a store.  It takes a batch unless one of its mutations exceeds the
limits. -/
def mapStore : Store SortedItems where
  get state key := .ok (lookup state.1 key)
  range state start stop := .ok (state.1.filter (between start stop))
  set state key value := (.ok (), ⟨_, sorted_put state.2 key value⟩)
  delete state key :=
    (.ok (lookup state.1 key).isSome, ⟨_, sorted_erase state.2 key⟩)
  applyBatch state mutations :=
    if mutations.all Mutation.withinLimits
      then (.ok (), ⟨_, Mutation.sorted_foldl state.2 mutations⟩)
    else (.error errInvalidRow, state)
  close state := (.ok (), state)

theorem mapStore_exact : mapStore.Exact Subtype.val where
  sorted state := state.2
  get _ _ _ := rfl
  range _ _ _ _ _ := rfl
  ranges _ _ _ := rfl
  reads _ _ same := Subtype.ext same ▸ ⟨rfl, rfl⟩
  set _ _ _ := .inl ⟨rfl, rfl⟩
  delete _ _ := .inl ⟨rfl, rfl⟩
  applyBatch state mutations := by
    rw [mapStore]
    dsimp only
    split_ifs
    · exact .inl ⟨rfl, rfl⟩
    · exact .inr ⟨⟨_, rfl⟩, rfl⟩
  close _ := rfl

end GoDatabase.Db
