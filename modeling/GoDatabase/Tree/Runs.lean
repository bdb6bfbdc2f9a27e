import GoDatabase.Tree.Invariant
import GoDatabase.Tree.ReadSpec
import GoDatabase.Tree.UpdateSpec

/-!
# Runs of the persistent tree

Any sequence of insertions and deletions on one page map, under the callbacks of an
update.  The tree refines a finite map, keeps its structural invariant, and every call
accounts for the pages that it replaces.

A call whose callbacks failed counts as one that returned an error, and the update
that made it discards its effects.
-/

namespace GoDatabase

open Library Fallible SortedMap List

/-- A call of one of the two mutations. -/
inductive TreeCall where
  | insert (key value : Bytes)
  | delete (key : Bytes)

namespace TreeCall

/-- Whether the call changed the tree, and the root after it. -/
def run (root : Nat) : TreeCall → TreeM (Bool × Nat)
  | .insert key value => do
    let root ← GoDatabase.insert root key value
    return (true, root)
  | .delete key => GoDatabase.delete root key

/-- The effect of a call on the abstract map. -/
def update (contents : Bytes → Option Bytes) : TreeCall → Bytes → Option Bytes
  | .insert key value, other => if other = key then some value else contents other
  | .delete key, other => if other = key then none else contents other

/-- The effect of a call on the bindings of the tree. -/
def updateBindings (bindings : List Entry) : TreeCall → List Entry
  | .insert key value => SortedMap.put key value bindings
  | .delete key => SortedMap.erase key bindings

/-- The calls whose arguments respect the limits. -/
def Admitted : TreeCall → Prop
  | .insert key value => Storable key value
  | .delete key => key ≠ [] ∧ key.length ≤ maxKeySize

instance : DecidablePred Admitted
  | .insert key value => decidable_of_iff
      (key ≠ [] ∧ key.length ≤ maxKeySize ∧ value.length ≤ maxValueSize)
      ⟨fun ⟨nonempty, keyLe, valueLe⟩ => ⟨nonempty, keyLe, valueLe⟩,
        fun storable => ⟨storable.nonempty, storable.key_le, storable.value_le⟩⟩
  | .delete key => inferInstanceAs (Decidable (key ≠ [] ∧ key.length ≤ maxKeySize))

/-- The effect of a call on the shape of the tree. -/
def reshape (outline : Outline) : TreeCall → Deletion Outline
  | .insert key value => .removed (insertOutline key value outline)
  | .delete key => deleteOutline key outline

end TreeCall

/-- What a call on a stored tree may return. -/
inductive CallResult (call : TreeCall) (root : Root) (work : Work) (rest : List Nat) :
    EStateM.Result GoError Work (Bool × Nat) → Prop
  | absent {key : Bytes} (isDelete : call = .delete key)
      (missing : SortedMap.lookup root.bindings key = none)
      (outline : call.reshape root.outline = .absent) :
      CallResult call root work rest (.ok (false, root.pageID) work)
  | changed {updated : Root} {middle next : Work} {obsolete : List Nat}
      (replaced : Replaced root updated work middle next rest obsolete)
      (bindings : updated.bindings = call.updateBindings root.bindings)
      (admitted : call.Admitted) (outline : call.reshape root.outline = .removed updated.outline)
      (present : ∀ key, call = .delete key → SortedMap.lookup root.bindings key ≠ none) :
      CallResult call root work rest (.ok (true, updated.pageID) next)
  | refused {err : GoError} {next : Work} (extended : work.Extends next)
      (sound : ∃ live, next.Sound live)
      (reason : ¬ call.Admitted ∨ call.reshape root.outline = .overflow) :
      CallResult call root work rest (.error err next)
  | failed {err : GoError} {next : Work} (failed : Failed work next) :
      CallResult call root work rest (.error err next)
  | gaveUp {result : Bool × Nat} {next : Work} (gaveUp : GaveUp work next) :
      CallResult call root work rest (.ok result next)

section Call

variable {root : Root} {work : Work} {rest : List Nat}

/-- Entries that cannot be stored are refused before anything happens. -/
theorem validateTreeEntry_error {key value : Bytes} (refused : ¬ Storable key value) :
    ∃ err, validateTreeEntry key value = .error err := by
  rw [validateTreeEntry]
  split_ifs with empty longKey longValue
  · exact ⟨_, rfl⟩
  · exact ⟨_, rfl⟩
  · exact ⟨_, rfl⟩
  · refine absurd ⟨?_, Nat.le_of_not_lt longKey, Nat.le_of_not_lt longValue⟩ refused
    rintro rfl
    exact empty rfl

variable (stored : root.Stored work.working) (sound : work.Sound (root.labels ++ rest))
include stored sound

theorem insert_result (key value : Bytes) : CallResult (.insert key value) root work rest
      ((TreeCall.insert key value).run root.pageID work) := by
  rw [TreeCall.run]
  by_cases storable : Storable key value
  · rcases insert_spec storable stored sound with
      ⟨updated, middle, next, obsolete, run, replaced, bindings, outline⟩ | ⟨next, run, gaveUp⟩ |
        ⟨err, next, run, failed⟩
    · rw [bind_of_ok run]
      exact .changed replaced bindings storable (congrArg _ outline.symm) nofun
    · rw [bind_of_ok run]
      exact .gaveUp gaveUp
    · rw [bind_of_error run]
      exact .failed failed
  · obtain ⟨err, refused⟩ := validateTreeEntry_error storable
    have run : GoDatabase.insert root.pageID key value work = .error err work := by
      rw [GoDatabase.insert]
      exact bind_of_error (lift_of_error refused work)
    rw [bind_of_error run]
    exact .refused (.refl _) ⟨_, sound⟩ (.inl storable)

theorem delete_result (key : Bytes) :
    CallResult (.delete key) root work rest ((TreeCall.delete key).run root.pageID work) := by
  rw [TreeCall.run]
  by_cases empty : key = []
  · have run : GoDatabase.delete root.pageID key work =
      .error (.errorf "key is empty" []) work := by
      rw [GoDatabase.delete, if_pos (by rw [empty]; rfl)]
      rfl
    rw [run]
    exact .refused (.refl _) ⟨_, sound⟩ (.inl fun admitted => admitted.1 empty)
  · by_cases keyLe : key.length ≤ maxKeySize
    · rcases delete_spec empty keyLe stored sound with result | ⟨next, run, gaveUp⟩ |
        ⟨err, next, run, failed⟩
      · cases outcome : GoDatabase.delete root.pageID key work with
        | ok value next =>
          rw [outcome] at result
          cases result with
          | absent missing outline => exact .absent rfl missing outline
          | removed present replaced bindings outline =>
            refine .changed replaced bindings ⟨empty, keyLe⟩ outline ?_
            rintro other ⟨⟩
            exact present
        | error err next =>
          rw [outcome] at result
          cases result with
          | overflow present overflowed outline =>
            exact .refused overflowed.extended overflowed.sound (.inr outline)
      · rw [run]
        exact .gaveUp gaveUp
      · rw [run]
        exact .failed failed
    · have positive : key.length ≠ 0 := mt length_eq_zero_iff.mp empty
      have run : GoDatabase.delete root.pageID key work =
          .error (.errorf "key exceeds max size" []) work := by
        rw [GoDatabase.delete, if_neg positive, if_pos (Nat.lt_of_not_le keyLe)]
        rfl
      rw [run]
      exact .refused (.refl _) ⟨_, sound⟩ (.inl fun admitted => keyLe admitted.2)

/-- Every call on a stored tree ends in one of these ways. -/
theorem TreeCall.result (call : TreeCall) :
    CallResult call root work rest (call.run root.pageID work) := by
  cases call with
  | insert key value => exact insert_result stored sound key value
  | delete key => exact delete_result stored sound key

end Call

/-! ## Page accounting of one call -/

/-- The pages that a call handed back, and where the new ones are. -/
structure Accounted (work : Work) (root : Nat) (next : Work) (newRoot : Nat) (dropped : List Nat) :
    Prop where
  released : next.released = work.released ++ dropped
  once : dropped.Nodup
  exactly : ∀ pageID, pageID ∈ dropped ↔
    Reachable work.working root pageID ∧ ¬ Reachable next.working newRoot pageID
  created : ∀ pageID, pageID ∈ next.working → pageID ∉ work.working →
    Reachable next.working newRoot pageID

/-- No page changes; a call that changes the tree hands back exactly the pages that
the new tree does not use, and any other call hands back none. -/
structure CopyOnWrite (work : Work) (root : Nat)
    (result : EStateM.Result GoError Work (Bool × Nat)) : Prop where
  kept : ∀ pageID page, work.working.lookup pageID = some page →
    (Fallible.after result).working.lookup pageID = some page
  changed : ∀ newRoot next, result = .ok (true, newRoot) next → next.callbackErr = none →
    ∃ dropped, Accounted work root next newRoot dropped
  absent : ∀ newRoot next, result = .ok (false, newRoot) next → next.callbackErr = none →
    newRoot = root ∧ next.released = work.released
  refused : ∀ err next, result = .error err next → next.released = work.released

theorem CallResult.copyOnWrite {call : TreeCall} {root : Root} {work : Work} {rest : List Nat}
    {result : EStateM.Result GoError Work (Bool × Nat)}
    (spec : CallResult call root work rest result) (stored : root.Stored work.working)
    (sound : work.Sound (root.labels ++ rest)) : CopyOnWrite work root.pageID result := by
  cases spec with
  | absent isDelete missing _ =>
    refine ⟨fun _ _ found => found, nofun, ?_, nofun⟩
    rintro newRoot next ⟨⟩ _
    exact ⟨rfl, rfl⟩
  | @changed updated middle next obsolete replaced =>
    refine ⟨replaced.kept, ?_, nofun, nofun⟩
    rintro newRoot next ⟨⟩ _
    refine ⟨obsolete, replaced.released, replaced.nodup_obsolete, ?_, ?_⟩
    · intro pageID
      rw [stored.reachable_iff, replaced.storedNext.reachable_iff]
      exact replaced.mem_obsolete sound
    · intro pageID mem new
      rw [replaced.storedNext.reachable_iff]
      exact replaced.mem_updated_of_new sound mem new
  | refused extended _ _ =>
    refine ⟨extended.kept, nofun, nofun, ?_⟩
    rintro err next ⟨⟩
    exact extended.released
  | failed failed =>
    refine ⟨failed.extended.kept, nofun, nofun, ?_⟩
    rintro err next ⟨⟩
    exact failed.extended.released
  | gaveUp gaveUp =>
    refine ⟨gaveUp.kept, ?_, ?_, nofun⟩
    · rintro newRoot next ⟨⟩ clean
      exact absurd clean gaveUp.failed
    · rintro newRoot next ⟨⟩ clean
      exact absurd clean gaveUp.failed

/-- A tree on pages that satisfy the invariant and belong to it. -/
theorem exists_root {work : Work} {live : List Nat} {root : Nat} (sound : work.Sound live)
    (owned : ∀ pageID, Reachable work.working root pageID → pageID ∈ live)
    (invariant : TreeInvariant work.working root) :
    ∃ tree : Root, tree.pageID = root ∧ tree.Stored work.working ∧
      ∃ rest, work.Sound (tree.labels ++ rest) := by
  have bounded : root < 2 ^ 64 := by
    by_cases empty : root = 0
    · omega
    · exact (sound.addressed (owned root (.root empty))).2
  obtain ⟨tree, rfl, stored, nodup⟩ := invariant.exists_stored bounded
  have within : ∀ pageID ∈ tree.labels, pageID ∈ live := fun pageID mem =>
    owned pageID (stored.reachable_iff.mpr mem)
  obtain ⟨kept, sameKept, sublist⟩ := subperm_of_subset nodup within
  obtain ⟨rest, same⟩ := sublist.exists_perm_append
  exact ⟨tree, rfl, stored, rest, sound.perm (same.trans (sameKept.append_right rest))⟩

/-- Copy-on-write page accounting. -/
theorem call_copyOnWrite {work : Work} {live : List Nat} {root : Nat} (sound : work.Sound live)
    (owned : ∀ pageID, Reachable work.working root pageID → pageID ∈ live)
    (invariant : TreeInvariant work.working root) (call : TreeCall) :
    CopyOnWrite work root (call.run root work) := by
  obtain ⟨tree, rfl, stored, rest, soundTree⟩ := exists_root sound owned invariant
  exact (call.result stored soundTree).copyOnWrite stored soundTree

/-- No page is reachable in an empty database. -/
theorem not_reachable_zero (pages : PageMap) (pageID : Nat) : ¬ Reachable pages 0 pageID := by
  intro reached
  have empty : Root.Stored pages .empty := trivial
  exact absurd (empty.reachable_iff.mp reached) not_mem_nil

/-! ## Runs -/

/-- The variables of an update between two calls, and the abstract map. -/
structure TreeState where
  work : Work
  root : Nat
  contents : Bytes → Option Bytes

namespace TreeState

/-- The state before the first call. -/
def start (work : Work) : TreeState := ⟨work, 0, fun _ => none⟩

/-- One call.  After an error the root and the map are as before; after a failed
callback so is everything else. -/
def step (state : TreeState) (call : TreeCall) : TreeState :=
  match call.run state.root state.work with
  | .ok (_, root) next =>
    if next.callbackErr.isNone then ⟨next, root, call.update state.contents⟩ else state
  | .error _ next =>
    if next.callbackErr.isNone then { state with work := next } else state

def run (state : TreeState) (calls : List TreeCall) : TreeState := calls.foldl step state

/-- The pages hold a tree whose bindings are the abstract map. -/
structure Tracks (state : TreeState) (root : Root) (rest : List Nat) : Prop where
  pageID : root.pageID = state.root
  stored : root.Stored state.work.working
  sound : state.work.Sound (root.labels ++ rest)
  contents : ∀ key, key ≠ [] → state.contents key = SortedMap.lookup root.bindings key

theorem tracks_start {work : Work} {live : List Nat} (sound : work.Sound live) :
    (start work).Tracks .empty live := ⟨rfl, trivial, sound, fun _ _ => rfl⟩

variable {contents : Bytes → Option Bytes} {bindings : List Entry}

theorem lookup_updateBindings (call : TreeCall)
    (same : ∀ key, key ≠ [] → contents key = lookup bindings key) : ∀ key, key ≠ [] →
      call.update contents key = lookup (call.updateBindings bindings) key := by
  intro key nonempty
  cases call with
  | insert other value =>
    rw [TreeCall.update, TreeCall.updateBindings]
    by_cases hit : key = other
    · rw [if_pos hit, hit, lookup_put_self]
    · rw [if_neg hit, lookup_put_of_ne _ _ hit, same key nonempty]
  | delete other =>
    rw [TreeCall.update, TreeCall.updateBindings]
    by_cases hit : key = other
    · rw [if_pos hit, hit, lookup_erase_self]
    · rw [if_neg hit, lookup_erase_of_ne _ hit, same key nonempty]

/-- Deleting an absent key does not change the map. -/
theorem update_absent {key : Bytes}
    (same : ∀ key, key ≠ [] → contents key = lookup bindings key)
    (missing : lookup bindings key = none) : ∀ other, other ≠ [] →
      (TreeCall.delete key).update contents other = lookup bindings other := by
  intro other nonempty
  rw [TreeCall.update]
  by_cases hit : other = key
  · rw [if_pos hit, hit, missing]
  · rw [if_neg hit, same other nonempty]

/-- The effect of a call that replaced the tree. -/
structure Reshaped (call : TreeCall) (before : TreeState) (root updated : Root) : Prop where
  admitted : call.Admitted
  returned : ∃ result next, call.run before.root before.work = .ok result next ∧
    next.callbackErr = none
  outline : call.reshape root.outline = .removed updated.outline
  released : ∀ pageID ∈ root.labels,
    pageID ∈ updated.labels ∨ pageID ∈ (before.step call).work.released

variable {state : TreeState} {root : Root} {rest : List Nat}

section

variable (tracks : state.Tracks root rest)
include tracks

/-- The state after a call that replaced the tree. -/
theorem Tracks.replaced {updated : Root} {obsolete : List Nat}
    {middle next : Work} {call : TreeCall} {changed : Bool}
    (run : call.run state.root state.work = .ok (changed, updated.pageID) next)
    (replaced : Replaced root updated state.work middle next rest obsolete)
    (bindings : updated.bindings = call.updateBindings root.bindings) :
    (state.step call).Tracks updated rest ∧ (state.step call).work = next := by
  rw [TreeState.step, run]
  dsimp only
  rw [if_pos (by rw [replaced.soundNext.clean]; rfl)]
  refine ⟨⟨rfl, replaced.storedNext, replaced.soundNext, ?_⟩, rfl⟩
  rw [bindings]
  exact lookup_updateBindings call tracks.contents

/-- One call keeps the tree and the abstract map in step. -/
theorem Tracks.step (call : TreeCall) : ∃ next rest, (state.step call).Tracks next rest ∧
      (next = root ∨ Reshaped call state root next) := by
  have spec := call.result tracks.stored tracks.sound
  rw [tracks.pageID] at spec
  cases outcome : call.run state.root state.work with
  | ok value next =>
    obtain ⟨changed, newRoot⟩ := value
    rw [outcome] at spec
    cases spec with
    | absent isDelete missing _ =>
      subst isDelete
      rw [TreeState.step, outcome]
      dsimp only
      rw [if_pos (by rw [tracks.sound.clean]; rfl)]
      exact ⟨root, rest, ⟨rfl, tracks.stored, tracks.sound,
        update_absent tracks.contents missing⟩, .inl rfl⟩
    | @changed updated _ _ _ replaced bindings admitted outline present =>
      obtain ⟨tracksNext, work⟩ := tracks.replaced outcome replaced bindings
      refine ⟨updated, rest, tracksNext, .inr ⟨admitted,
        ⟨_, _, outcome, replaced.soundNext.clean⟩, outline, fun pageID mem => ?_⟩⟩
      rw [work, replaced.released]
      by_cases still : pageID ∈ updated.labels
      · exact .inl still
      · exact .inr (mem_append_right _ ((replaced.mem_obsolete tracks.sound).mpr
          ⟨mem, still⟩))
    | gaveUp gaveUp =>
      rw [TreeState.step, outcome]
      dsimp only
      rw [if_neg fun clean => gaveUp.failed (Option.isNone_iff_eq_none.mp clean)]
      exact ⟨root, rest, tracks, .inl rfl⟩
  | error err next =>
    rw [outcome] at spec
    rw [TreeState.step, outcome]
    dsimp only
    split_ifs with clean
    · cases spec with
      | refused extended sound _ =>
        obtain ⟨live, soundNext⟩ := sound
        obtain ⟨lost, soundLost⟩ := tracks.sound.with_lost extended soundNext
        rw [append_assoc] at soundLost
        exact ⟨root, rest ++ lost, ⟨tracks.pageID,
          tracks.stored.mono fun pageID _ => extended.kept pageID, soundLost, tracks.contents⟩,
          .inl rfl⟩
      | failed failed => exact absurd (Option.isNone_iff_eq_none.mp clean) failed.failed
    · exact ⟨root, rest, tracks, .inl rfl⟩

theorem Tracks.run (calls : List TreeCall) : ∃ root rest, (state.run calls).Tracks root rest := by
  induction calls generalizing state root rest with
  | nil => exact ⟨root, rest, tracks⟩
  | cons call calls ih =>
    obtain ⟨nextRoot, nextRest, next, -⟩ := tracks.step call
    exact ih next

theorem Tracks.nodup : root.labels.Nodup :=
  tracks.sound.owns.nodup_live.of_append_left

/-- The pages after a run satisfy the hypotheses of the calls. -/
theorem Tracks.invariant : TreeInvariant state.work.working state.root ∧ state.root < 2 ^ 64 ∧
    ∀ pageID, Reachable state.work.working state.root pageID → pageID ∈ root.labels ++ rest := by
  rw [← tracks.pageID]
  refine ⟨tracks.stored.treeInvariant tracks.nodup, ?_, ?_⟩
  · cases root with
    | empty => exact Nat.two_pow_pos 64
    | tree held => exact tracks.stored.2.2
  · intro pageID reached
    exact mem_append_left _ (tracks.stored.reachable_iff.mp reached)

end

end TreeState

/-- An empty tree, and the page manager of a new file. -/
def emptyDatabase : TreeState := .start (Work.begin ∅ (PageManager.onFile 1))

theorem sound_emptyDatabase : (Work.begin ∅ (PageManager.onFile 1)).Sound [] :=
  Work.sound_begin PageManager.owns_onFile fun _ mem => absurd mem (AList.notMem_empty _)

/-- The persistent tree refines a finite map in every run. -/
theorem run_refines_map {work : Work} {live : List Nat} (sound : work.Sound live)
    (calls : List TreeCall) : (∀ key, key ≠ [] →
      getValue ((TreeState.start work).run calls).work.working
          ((TreeState.start work).run calls).root key =
        .ok (((TreeState.start work).run calls).contents key)) ∧ (∀ key deleted newRoot next,
      delete ((TreeState.start work).run calls).root key ((TreeState.start work).run calls).work =
        .ok (deleted, newRoot) next → next.callbackErr = none →
      (deleted = true ↔ ((TreeState.start work).run calls).contents key ≠ none)) := by
  obtain ⟨root, rest, tracks⟩ := (TreeState.tracks_start sound).run calls
  constructor
  · intro key nonempty
    rw [← tracks.pageID, getValue_spec tracks.stored tracks.nodup nonempty,
      tracks.contents key nonempty]
  · intro key deleted newRoot next run clean
    have nonempty : key ≠ [] := by
      rintro rfl
      rw [delete, if_pos List.length_nil] at run
      cases run
    have spec := (TreeCall.delete key).result tracks.stored tracks.sound
    rw [tracks.pageID, TreeCall.run, run] at spec
    rw [tracks.contents key nonempty]
    cases spec with
    | absent isDelete missing _ =>
      obtain ⟨⟩ := isDelete
      simp [missing]
    | changed _ _ _ _ present => simp [present key rfl]
    | gaveUp gaveUp => exact absurd clean gaveUp.failed

theorem run_refines_map_insert : getValue (emptyDatabase.run [.insert [1] [2]]).work.working
      (emptyDatabase.run [.insert [1] [2]]).root [1] =
    .ok ((emptyDatabase.run [.insert [1] [2]]).contents [1]) := by
  rw [emptyDatabase]
  exact (run_refines_map sound_emptyDatabase [.insert [1] [2]]).1 [1] (List.cons_ne_nil _ _)

/-- The structural invariant holds in every run. -/
theorem run_treeInvariant {work : Work} {live : List Nat} (sound : work.Sound live)
    (calls : List TreeCall) : TreeInvariant ((TreeState.start work).run calls).work.working
      ((TreeState.start work).run calls).root := by
  obtain ⟨root, rest, tracks⟩ := (TreeState.tracks_start sound).run calls
  exact tracks.invariant.1

end GoDatabase
