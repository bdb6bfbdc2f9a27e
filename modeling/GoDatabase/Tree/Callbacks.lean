import GoDatabase.Library.Fallible
import GoDatabase.Manager.Allocator
import Mathlib.Data.List.AList

/-!
# The page callbacks of an update

`KV.update` gives the tree three callbacks: `get` reads the working page map,
`new` reserves a page and records it as pending, and `del` hands a page back.  A
callback cannot return an error, so the first failure is kept in `callbackErr` and
later allocations return page zero.
-/

namespace GoDatabase

open Library

/-- Pages in memory. -/
abbrev PageMap := AList fun _ : Nat => BNode

/-- The variables that the callbacks of one update share. -/
structure Work where
  working : PageMap
  pending : PageMap
  pm : PageManager
  callbackErr : Option GoError
  /-- The arguments of the `del` calls so far; only statements look at it. -/
  released : List Nat

/-- The variables at the beginning of an update. -/
def Work.begin (pages : PageMap) (pm : PageManager) : Work := ⟨pages, ∅, pm, none, []⟩

/-- A tree operation under the callbacks of an update. -/
abbrev TreeM := Fallible Work

namespace TreeM

def get (pageID : Nat) : TreeM BNode := fun work =>
  match work.working.lookup pageID with
  | some page => .ok page work
  | none =>
    .ok [] { work with
      callbackErr := work.callbackErr.or
        (some (.errorf "page %d is not loaded" [.int pageID])) }

def new (node : BNode) : TreeM Nat := fun work =>
  match work.callbackErr with
  | some _ => .ok 0 work
  | none =>
    match work.pm.reservePage with
    | .error err => .ok 0 { work with callbackErr := some err }
    | .ok (pageID, pm) =>
      .ok pageID { work with
        working := work.working.insert pageID node
        pending := work.pending.insert pageID node
        pm := pm }

def del (pageID : Nat) : TreeM Unit := fun work =>
  let work := { work with released := work.released ++ [pageID] }
  match work.callbackErr with
  | some _ => .ok () work
  | none =>
    match work.pm.freePage pageID with
    | .error err => .ok () { work with callbackErr := some err }
    | .ok pm => .ok () { work with pm := pm }

/-- `for _, pageID := range obsolete { tree.del(pageID) }` -/
def delAll : List Nat → TreeM Unit
  | [] => pure ()
  | pageID :: rest => do
    del pageID
    delAll rest

end TreeM

/-! ## What the callbacks preserve -/

namespace Work

/-- No callback has failed, `live` and the page lists own all pages, and the
allocator will not hand out a page of the working map. -/
structure Sound (work : Work) (live : List Nat) : Prop where
  clean : work.callbackErr = none
  owns : work.pm.Owns live
  used : ∀ pageID ∈ work.working, ¬ work.pm.Available pageID
  pending_working : ∀ pageID page, work.pending.lookup pageID = some page →
    work.working.lookup pageID = some page

theorem Sound.perm {work : Work} {live other : List Nat} (sound : work.Sound live)
    (same : live.Perm other) : work.Sound other :=
  ⟨sound.clean, sound.owns.perm same, sound.used, sound.pending_working⟩

/-- The pages of a tree, and page lists that own all others. -/
theorem sound_begin {pages : PageMap} {pm : PageManager} {live : List Nat} (owns : pm.Owns live)
    (known : ∀ pageID ∈ pages, pageID ∈ live) : (Work.begin pages pm).Sound live where
  clean := rfl
  owns := owns
  used := fun pageID mem => owns.not_available (known pageID mem)
  pending_working := fun _ _ found => by cases found

/-- What every part of a tree operation before its `del` calls respects: pages are
added, and none is changed or handed back. -/
structure Extends (work next : Work) : Prop where
  kept : ∀ pageID page, work.working.lookup pageID = some page →
    next.working.lookup pageID = some page
  pm : work.pm.Extends next.pm
  released : next.released = work.released
  added : ∀ pageID ∈ next.working, pageID ∈ work.working ∨ pageID ∈ next.pending
  pending_kept : ∀ pageID ∈ work.pending, pageID ∈ next.pending
  created : ∀ pageID ∈ next.pending, pageID ∈ work.pending ∨
    (work.pm.Available pageID ∧ ¬ next.pm.Available pageID)

theorem Extends.refl (work : Work) : work.Extends work where
  kept := fun _ _ found => found
  pm := .refl _
  released := rfl
  added := fun _ mem => .inl mem
  pending_kept := fun _ mem => mem
  created := fun _ mem => .inl mem

theorem Extends.trans {work middle next : Work} (first : work.Extends middle)
    (second : middle.Extends next) : work.Extends next where
  kept := fun pageID page found => second.kept pageID page (first.kept pageID page found)
  pm := first.pm.trans second.pm
  released := second.released.trans first.released
  added := by
    intro pageID mem
    rcases second.added pageID mem with old | new
    · rcases first.added pageID old with older | pending
      · exact .inl older
      · exact .inr (second.pending_kept pageID pending)
    · exact .inr new
  pending_kept := fun pageID mem => second.pending_kept pageID (first.pending_kept pageID mem)
  created := by
    intro pageID mem
    rcases second.created pageID mem with old | ⟨fresh, taken⟩
    · rcases first.created pageID old with older | ⟨fresh, taken⟩
      · exact .inl older
      · exact .inr ⟨fresh, fun still => taken (second.pm.available pageID still)⟩
    · exact .inr ⟨first.pm.available pageID fresh, taken⟩

end Work

/-- A tree operation that a callback made fail: there were no more pages. -/
structure Failed (work next : Work) : Prop where
  failed : next.callbackErr ≠ none
  extended : work.Extends next
  exhausted : maxPageID < next.pm.nextPageID

theorem Failed.after {work middle next : Work} (extended : work.Extends middle)
    (failed : Failed middle next) : Failed work next :=
  ⟨failed.failed, extended.trans failed.extended, failed.exhausted⟩

/-- A run that a callback made fail. -/
def Fails {α : Type} (work : Work) (result : EStateM.Result GoError Work α) : Prop :=
  ∃ err next, result = .error err next ∧ Failed work next

theorem Fails.bind {α β : Type} {work middle : Work} {first : TreeM α} {rest : α → TreeM β} :
    Fails work (first middle) → Fails work ((first >>= rest) middle)
  | ⟨err, next, run, failed⟩ => ⟨err, next, Fallible.bind_of_error run, failed⟩

theorem Fails.after {α : Type} {work middle : Work} {result : EStateM.Result GoError Work α}
    (extended : work.Extends middle) : Fails middle result → Fails work result
  | ⟨err, next, run, failed⟩ => ⟨err, next, run, failed.after extended⟩

namespace TreeM

open Work

variable {work : Work} {live : List Nat}

theorem get_of_lookup {pageID : Nat} {page : BNode}
    (found : work.working.lookup pageID = some page) : get pageID work = .ok page work := by
  rw [get, found]

/-- A page that `new` stored. -/
structure Stores (work : Work) (live : List Nat) (node : BNode) (pageID : Nat) (next : Work) :
    Prop where
  sound : next.Sound (pageID :: live)
  extended : work.Extends next
  stored : next.working.lookup pageID = some node
  fresh : work.pm.Available pageID

/-- `new` stores the node under an unused page, or fails and returns page zero. -/
theorem new_spec (sound : work.Sound live) (node : BNode) :
    (∃ pageID next, new node work = .ok pageID next ∧ Stores work live node pageID next) ∨
    (∃ next, new node work = .ok 0 next ∧ Failed work next) := by
  cases reserved : work.pm.reservePage with
  | error err =>
    right
    refine ⟨{ work with callbackErr := some err }, ?_, by simp, ?_,
      PageManager.exhausted_of_reservePage sound.owns reserved⟩
    · simp only [new, sound.clean, reserved]
    · exact ⟨fun _ _ found => found, .refl _, rfl, fun _ mem => .inl mem,
        fun _ mem => mem, fun _ mem => .inl mem⟩
  | ok result =>
    obtain ⟨pageID, pm⟩ := result
    left
    have step := PageManager.reservePage_spec sound.owns reserved
    have unused : pageID ∉ work.working := fun mem => sound.used pageID mem step.fresh
    refine ⟨pageID, _, by simp only [new, sound.clean, reserved]; rfl, ?_⟩
    refine ⟨⟨rfl, step.owns, ?_, ?_⟩, ⟨?_, step.extends_, rfl, ?_, ?_, ?_⟩,
      AList.lookup_insert _, step.fresh⟩
    · intro other mem
      rcases (AList.mem_insert _).mp mem with rfl | old
      · exact step.taken
      · exact fun still => sound.used other old (step.extends_.available other still)
    · intro other page found
      by_cases same : other = pageID
      · subst same
        rw [AList.lookup_insert] at found ⊢
        exact found
      · rw [AList.lookup_insert_ne same] at found ⊢
        exact sound.pending_working other page found
    · intro other page found
      rwa [AList.lookup_insert_ne]
      rintro rfl
      exact unused (AList.lookup_isSome.mp (by rw [found]; rfl))
    · intro other mem
      rcases (AList.mem_insert _).mp mem with rfl | old
      · exact .inr ((AList.mem_insert _).mpr (.inl rfl))
      · exact .inl old
    · exact fun other mem => (AList.mem_insert _).mpr (.inr mem)
    · intro other mem
      rcases (AList.mem_insert _).mp mem with rfl | old
      · exact .inr ⟨step.fresh, step.taken⟩
      · exact .inl old

/-- The effect of handing back pages: they become pending, and the pages in memory
stay as they are. -/
structure Releases (work : Work) (pageIDs : List Nat) (next : Work) : Prop where
  working : next.working = work.working
  pending : next.pending = work.pending
  released : next.released = work.released ++ pageIDs
  pm : next.pm = { work.pm with
    pendingFreePageIDs := work.pm.pendingFreePageIDs ++ pageIDs }

/-- Live pages are handed back without a failure. -/
theorem delAll_spec : ∀ {pageIDs live : List Nat} {work : Work}, work.Sound (pageIDs ++ live) →
    ∃ next, delAll pageIDs work = .ok () next ∧ next.Sound live ∧ Releases work pageIDs next := by
  intro pageIDs
  induction pageIDs with
  | nil =>
    intro live work sound
    exact ⟨work, rfl, sound, rfl, rfl, by simp, by simp⟩
  | cons pageID rest ih =>
    intro live work sound
    obtain ⟨freed, owns⟩ := PageManager.freePage_live sound.owns
    let middle : Work := { work with
      released := work.released ++ [pageID]
      pm := { work.pm with pendingFreePageIDs := work.pm.pendingFreePageIDs ++ [pageID] } }
    have step : del pageID work = .ok () middle := by
      simp only [del, sound.clean, freed, middle]
    have soundMiddle : middle.Sound (rest ++ live) :=
      ⟨sound.clean, owns, sound.used, sound.pending_working⟩
    obtain ⟨next, run, soundNext, releases⟩ := ih soundMiddle
    refine ⟨next, (Fallible.bind_of_ok step).trans run, soundNext, releases.working,
      releases.pending, ?_, ?_⟩
    · rw [releases.released, List.append_assoc, List.singleton_append]
    · rw [releases.pm]
      simp only [middle, List.append_assoc, List.singleton_append]

end TreeM

end GoDatabase
