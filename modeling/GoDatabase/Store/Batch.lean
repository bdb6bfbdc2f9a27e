import GoDatabase.Store.KV

/-!
# The mutations of an update

A batch applies its mutations one after the other to the working pages.  It ends with a tree
that has all of their effects, or it is refused; a callback that failed on the way shows at
the end.
-/

namespace GoDatabase

open Library Fallible SortedMap List

/-- The calls of the tree that a call of the store makes. -/
def KV.Call.calls : KV.Call → List TreeCall
  | .set key value => [.insert key value]
  | .delete key => [.delete key]
  | .applyBatch mutations => mutations.map Mutation.call

/-- The tree after calls that all succeeded. -/
structure Applied (calls : List TreeCall) (root : Root) (work : Work) (rest : List Nat)
    (updated : Root) (next : Work) : Prop where
  stored : updated.Stored next.working
  sound : next.Sound (updated.labels ++ rest)
  bindings : updated.bindings =
    calls.foldl (fun bindings call => call.updateBindings bindings) root.bindings

/-- What a sequence of calls on a stored tree may return. -/
inductive BatchResult (calls : List TreeCall) (root : Root) (work : Work) (rest : List Nat)
    (initial : Bool) : EStateM.Result GoError Work (Bool × Nat) → Prop
  | applied {updated : Root} {next : Work} {changed : Bool}
      (applied : Applied calls root work rest updated next)
      (unchanged : changed = false → initial = false ∧ updated = root ∧ next = work) :
      BatchResult calls root work rest initial (.ok (changed, updated.pageID) next)
  | failed {result : Bool × Nat} {next : Work} (failed : next.callbackErr ≠ none) :
      BatchResult calls root work rest initial (.ok result next)
  | refused {err : GoError} {next : Work} :
      BatchResult calls root work rest initial (.error err next)

section Batch

variable {root : Root} {work : Work} {rest : List Nat}

variable {call : TreeCall} {next : Work} {changed : Bool} {newRoot : Nat} {key : Bytes}

/-- A call that succeeds has accepted its arguments. -/
theorem TreeCall.admitted_of_ok {pageID : Nat} {work : Work}
    {result : Bool × Nat} (run : call.run pageID work = .ok result next) : call.Admitted := by
  cases call with
  | insert key value =>
    rw [TreeCall.run, GoDatabase.insert] at run
    obtain ⟨inserted, middle, insertion, -⟩ := exists_of_bind_ok run
    obtain ⟨⟨⟩, valid, -⟩ := exists_of_lift_bind_ok insertion
    by_contra refused
    obtain ⟨err, failed⟩ := validateTreeEntry_error refused
    rw [failed] at valid
    cases valid
  | delete key =>
    rw [TreeCall.run, GoDatabase.delete] at run
    by_cases empty : key.length = 0
    · rw [if_pos empty] at run
      cases run
    · by_cases long : maxKeySize < key.length
      · rw [if_neg empty, if_pos long] at run
        cases run
      · exact ⟨fun none => empty (by rw [none]; rfl), Nat.le_of_not_lt long⟩

/-- Without a tree and after a failure nothing happens any more. -/
theorem TreeCall.run_zero_failed {work : Work}
    (failed : work.callbackErr ≠ none) (run : call.run 0 work = .ok (changed, newRoot) next) :
    newRoot = 0 ∧ next = work := by
  cases call with
  | insert key value =>
    obtain ⟨err, failure⟩ := Option.ne_none_iff_exists'.mp failed
    rw [TreeCall.run, GoDatabase.insert] at run
    obtain ⟨inserted, middle, insertion, last⟩ := exists_of_bind_ok run
    cases last
    obtain ⟨⟨⟩, -, insertion⟩ := exists_of_lift_bind_ok insertion
    rw [if_pos rfl] at insertion
    obtain ⟨node, -, insertion⟩ := exists_of_lift_bind_ok insertion
    rw [TreeM.new, failure] at insertion
    cases insertion
    exact ⟨rfl, rfl⟩
  | delete key =>
    obtain ⟨nonempty, keyLe⟩ : (TreeCall.delete key).Admitted := admitted_of_ok run
    have positive : key.length ≠ 0 := fun none => nonempty (length_eq_zero_iff.mp none)
    rw [TreeCall.run, GoDatabase.delete, if_neg positive, if_neg (Nat.not_lt.mpr keyLe),
      if_pos rfl] at run
    cases run
    exact ⟨rfl, rfl⟩

theorem Applied.trans {calls more : List TreeCall} {middleRoot updated : Root} {middle : Work}
    (first : Applied calls root work rest middleRoot middle)
    (second : Applied more middleRoot middle rest updated next) :
    Applied (calls ++ more) root work rest updated next where
  stored := second.stored
  sound := second.sound
  bindings := by rw [second.bindings, first.bindings, foldl_append]

variable (stored : root.Stored work.working) (sound : work.Sound (root.labels ++ rest))

section

include stored sound

/-- A deletion that finds nothing changes nothing. -/
theorem applied_absent (missing : lookup root.bindings key = none) :
    Applied [.delete key] root work rest root work where
  stored := stored
  sound := sound
  bindings := (erase_of_absent (ne_of_lookup_eq_none missing)).symm

/-- A single call. -/
theorem TreeCall.batch (call : TreeCall) :
    BatchResult [call] root work rest false (call.run root.pageID work) := by
  have spec := call.result stored sound
  cases outcome : call.run root.pageID work with
  | error err next => exact .refused
  | ok value next =>
    rw [outcome] at spec
    cases spec with
    | absent isDelete missing =>
      subst isDelete
      exact .applied (applied_absent stored sound missing) fun _ => ⟨rfl, rfl, rfl⟩
    | changed replaced bindings =>
      exact .applied ⟨replaced.storedNext, replaced.soundNext, bindings⟩ nofun
    | gaveUp gaveUp => exact .failed gaveUp.failed

/-- A call that a callback made fail returns no page. -/
theorem TreeCall.root_of_failed (run : call.run root.pageID work = .ok (changed, newRoot) next)
    (failed : next.callbackErr ≠ none) : newRoot = 0 := by
  cases call with
  | insert key value =>
    have storable : Storable key value := TreeCall.admitted_of_ok run
    rw [TreeCall.run] at run
    obtain ⟨inserted, middle, insertion, last⟩ := exists_of_bind_ok run
    cases last
    rcases insert_spec storable stored sound with
      ⟨updated, middle, after, obsolete, spec, replaced, -⟩ | ⟨after, spec, -⟩ |
        ⟨err, after, spec, -⟩
    · rw [spec] at insertion
      cases insertion
      exact absurd replaced.soundNext.clean failed
    · rw [spec] at insertion
      cases insertion
      rfl
    · rw [spec] at insertion
      cases insertion
  | delete key =>
    obtain ⟨nonempty, keyLe⟩ : (TreeCall.delete key).Admitted := TreeCall.admitted_of_ok run
    rw [TreeCall.run] at run
    rcases delete_spec nonempty keyLe stored sound with spec | ⟨after, spec, -⟩ |
      ⟨err, after, spec, -⟩
    · rw [run] at spec
      cases spec with
      | absent _ _ => exact absurd sound.clean failed
      | removed _ replaced _ _ => exact absurd replaced.soundNext.clean failed
    · rw [spec] at run
      cases run
      rfl
    · rw [spec] at run
      cases run

end

/-- After a failure the calls of a batch go on without a tree. -/
theorem applyMutations_failed : ∀ {mutations : List Mutation} {changed : Bool} {work : Work}
    {result : Bool × Nat} {next : Work}, work.callbackErr ≠ none →
    applyMutations mutations changed 0 work = .ok result next → next.callbackErr ≠ none := by
  intro mutations
  induction mutations with
  | nil =>
    intro changed work result next failed run
    cases run
    exact failed
  | cons mutation mutations ih =>
    intro changed work result next failed run
    obtain ⟨⟨applied, newRoot⟩, middle, first, later⟩ := exists_of_bind_ok run
    obtain ⟨rfl, rfl⟩ := TreeCall.run_zero_failed failed first
    exact ih failed later

theorem applyMutations_result : ∀ {mutations : List Mutation} {root : Root} {work : Work}
    {initial : Bool}, root.Stored work.working → work.Sound (root.labels ++ rest) →
    BatchResult (mutations.map Mutation.call) root work rest initial
      (applyMutations mutations initial root.pageID work) := by
  intro mutations
  induction mutations with
  | nil =>
    intro root work initial stored sound
    exact .applied ⟨stored, sound, rfl⟩ fun same => ⟨same, rfl, rfl⟩
  | cons mutation mutations ih =>
    intro root work initial stored sound
    have spec := mutation.call.batch stored sound
    rw [applyMutations]
    cases first : mutation.call.run root.pageID work with
    | error err middle =>
      rw [bind_of_error first]
      exact .refused
    | ok value middle =>
      obtain ⟨changed, newRoot⟩ := value
      rw [bind_of_ok first]
      dsimp only
      by_cases failed : middle.callbackErr = none
      · rw [first] at spec
        cases spec with
        | failed other => exact absurd failed other
        | @applied updated _ _ applied unchanged =>
          have later := @ih updated middle (initial || changed) applied.stored applied.sound
          cases outcome : applyMutations mutations (initial || changed) updated.pageID middle with
          | error err next => exact .refused
          | ok result next =>
            rw [outcome] at later
            cases later with
            | failed failed => exact .failed failed
            | applied appliedLater unchangedLater =>
              refine .applied (applied.trans appliedLater) fun same => ?_
              obtain ⟨none, rfl, rfl⟩ := unchangedLater same
              obtain ⟨noneBefore, here⟩ := Bool.or_eq_false_iff.mp none
              exact ⟨noneBefore, (unchanged here).2⟩
      · obtain rfl := TreeCall.root_of_failed stored sound first failed
        cases outcome : applyMutations mutations (initial || changed) 0 middle with
        | error err next => exact .refused
        | ok result next => exact .failed (applyMutations_failed failed outcome)

include stored sound

/-- A call that deletes a key which is not there is refused or changes nothing. -/
theorem TreeCall.run_absent (missing : lookup root.bindings key = none) :
    (TreeCall.delete key).run root.pageID work = .ok (false, root.pageID) work ∨
      ∃ err next, (TreeCall.delete key).run root.pageID work = .error err next := by
  by_cases empty : key = []
  · subst empty
    exact .inr ⟨_, _, rfl⟩
  · by_cases long : maxKeySize < key.length
    · rw [TreeCall.run, GoDatabase.delete, if_neg (mt length_eq_zero_iff.mp empty), if_pos long]
      exact .inr ⟨_, _, rfl⟩
    · exact .inl (delete_absent empty (Nat.not_lt.mp long) stored sound missing)

theorem applyMutations_absent (changed : Bool) : ∀ {mutations : List Mutation},
    (∀ call ∈ mutations.map Mutation.call, ∃ key, call = .delete key ∧
      lookup root.bindings key = none) →
    applyMutations mutations changed root.pageID work = .ok (changed, root.pageID) work ∨
      ∃ err next, applyMutations mutations changed root.pageID work = .error err next := by
  intro mutations
  induction mutations with
  | nil => exact fun _ => .inl rfl
  | cons mutation mutations ih =>
    intro missing
    obtain ⟨⟨key, isDelete, absent⟩, later⟩ := forall_mem_cons.mp missing
    rw [applyMutations, isDelete]
    rcases TreeCall.run_absent stored sound absent with run | ⟨err, next, failed⟩
    · have same : changed = (changed || false) := (Bool.or_false changed).symm
      rw [bind_of_ok run]
      dsimp only
      rw [← same]
      exact ih later
    · exact .inr ⟨err, next, bind_of_error failed⟩

/-- Deletions of keys that are not there are refused or change nothing. -/
theorem KV.Call.change_absent (request : KV.Call)
    (missing : ∀ call ∈ request.calls, ∃ key, call = .delete key ∧
      lookup root.bindings key = none) :
    request.change root.pageID work = .ok (false, root.pageID) work ∨
      ∃ err next, request.change root.pageID work = .error err next := by
  cases request with
  | set key value =>
    obtain ⟨_, isDelete, -⟩ := missing _ (mem_singleton_self _)
    cases isDelete
  | delete key =>
    obtain ⟨_, isDelete, absent⟩ := missing _ (mem_singleton_self _)
    cases isDelete
    exact TreeCall.run_absent stored sound absent
  | applyBatch mutations => exact applyMutations_absent stored sound false missing

/-- The mutations of a call of the store. -/
theorem KV.Call.result (request : KV.Call) :
    BatchResult request.calls root work rest false (request.change root.pageID work) := by
  cases request with
  | set key value => exact (TreeCall.insert key value).batch stored sound
  | delete key => exact (TreeCall.delete key).batch stored sound
  | applyBatch mutations => exact applyMutations_result stored sound

end Batch

end GoDatabase
