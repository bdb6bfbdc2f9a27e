import GoDatabase.Store.Rollback

/-!
# What a handle serves

`Open` accepts a well-formed tree only, and holds it byte for byte as the file has it.  From
then on reads are those of a map, which exactly the acknowledged calls change.
-/

namespace GoDatabase

open Library BNode

namespace KV

variable {kv : KV} {tree : Root}

/-- Whatever bytes the file has: a handle that `Open` returns holds a well-formed tree that also
passes the occupancy check, its internal root has two children, and every page in memory belongs
to the tree and is what the file holds at its offset. -/
theorem openFile_accepts {created : Bool} {faults : Faults} {file : Bytes}
    (run : openFile created faults file = .ok kv) :
    TreeInvariant kv.pages kv.root ∧ OccupancyRule kv.pages kv.root ∧
      (∀ node, kv.pages.lookup kv.root = some node → btype node = nodeTypeInternal →
        2 ≤ nkeys node) ∧
      ∀ pageID ∈ kv.pages, Reachable kv.pages kv.root pageID ∧
        kv.pages.page pageID = slice kv.disk.bytes (pageOffset pageID) pageSize := by
  obtain ⟨small, pm, pages, recovered, same⟩ := openFile_ok run
  obtain ⟨slot, metadata, -, -, taken⟩ := recoverCommittedPages_ok recovered
  obtain ⟨tree, found⟩ := recoverCandidate_sound taken
  have loaded := found.loaded
  have stored := loaded.stored
  have nodup : tree.labels.Nodup := loaded.keys.nodup_iff.mp pages.keys_nodup
  have root : tree.pageID = pm.rootPageID := by
    rw [found.pm_eq]
    exact loaded.root
  rw [show kv.pages = pages by rw [same], show kv.root = pm.rootPageID by rw [same], ← root]
  refine ⟨stored.treeInvariant nodup, stored.occupancyRule_iff.mpr ?_, ?_, ?_⟩
  · cases tree with
    | empty => trivial
    | tree held => exact (occupied_erase held.top.items).mpr loaded.accepted.1
  · intro node isRoot isInternal
    cases tree with
    | empty =>
      have isKey := AList.mem_keys.mp (AList.lookup_isSome.mp (Option.isSome_of_mem isRoot))
      exact absurd (loaded.keys.mem_iff.mp isKey) List.not_mem_nil
    | tree held =>
      obtain ⟨page, top, valid⟩ := stored.pages.page
      obtain rfl := Option.some.inj (isRoot.symm.trans top)
      have inner : held.height ≠ 0 := fun leaf => by
        have kind := valid.holds.type_eq
        rw [leaf, isInternal] at kind
        cases kind
      rw [valid.holds.count_eq, List.length_map]
      exact loaded.accepted.2 inner
  · intro pageID mem
    have isLabel := loaded.keys.mem_iff.mp (AList.mem_keys.mp mem)
    refine ⟨stored.reachable_iff.mpr isLabel, ?_⟩
    obtain ⟨-, -, -, -, read⟩ := PageManager.readPage_ok (loaded.read pageID isLabel).2
    rw [FileView.readAt, guard_eq_ok, guard_eq_ok] at read
    exact (Except.ok.inj read.2.2).symm

/-- A generation whose tree is page one. -/
def onePage : RootMetadata := { generation := 2, rootPageID := 1, pageCount := 1 }

/-- A file with the page of a tree. -/
theorem openFile_accepts_page : ∃ file kv, openFile false .none file = .ok kv ∧ kv.root = 1 ∧
    (kv.get [1]).toOption = some (some [2]) ∧ TreeInvariant kv.pages kv.root ∧
    OccupancyRule kv.pages kv.root := by
  have size : (oneBinding.pages.page 1).length = pageSize := by decide +kernel
  have small : metadataSize + (oneBinding.pages.page 1).length ≤ maxFileSize := by
    rw [size]
    decide
  have consistent : onePage.Consistent := by
    refine ⟨?_, Nat.le_refl _, rfl, rfl, rfl, rfl, rfl, List.nodup_nil, nofun, nofun, nofun⟩
    change ∀ word ∈ [2, 1, 1, 0, 0, 0, 0, 0], word < 256 ^ 8
    decide
  have read := consistent.readSlot rfl (Generation.sized_slotFile small) (by
      rw [Generation.length_slotFile small, size]
      decide) (by decide) (Generation.slotWritten_slotFile small).written
  have recovered : ((recoverCandidate (.ofBytes (Generation.slotFile onePage
      (oneBinding.pages.page 1))) 2 onePage).toOption.map fun result => (result.1.rootPageID,
        (getValue result.2 result.1.rootPageID [1]).toOption)) = some (1, some (some [2])) := by
    decide +kernel
  cases taken : recoverCandidate (.ofBytes (Generation.slotFile onePage
      (oneBinding.pages.page 1))) 2 onePage with
  | error err =>
    rw [taken] at recovered
    cases recovered
  | ok result =>
    rw [taken] at recovered
    obtain ⟨root, held⟩ := Prod.mk.inj (Option.some.inj recovered)
    have run :=
      Generation.openFile_slotFile small read (by rw [size]; rfl) (by rw [size]; decide) rfl
        (by rw [size]; exact taken)
    have accepted := openFile_accepts run
    exact ⟨_, _, run, root, held, accepted.1, accepted.2.1⟩

/-! ## Reads -/

/-- The reads of the handle, of keys that are not empty and between keys of at most 1000 bytes,
are those of the contents. -/
structure Serves (kv : KV) (contents : List Entry) : Prop where
  sorted : SortedMap.Sorted contents
  get : ∀ key, key ≠ [] → kv.get key = .ok (SortedMap.lookup contents key)
  range : ∀ start stop, start.length ≤ maxKeySize → stop.length ≤ maxKeySize →
    kv.range start stop = .ok (contents.filter fun entry => start ≤ entry.key ∧ entry.key ≤ stop)

theorem Holds.serves (holds : kv.Holds tree) (isOpen : kv.closed = false) :
    kv.Serves tree.bindings where
  sorted := tree.sorted_bindings
  get _ nonempty := holds.get_eq isOpen nonempty
  range start stop startLe stopLe := by
    rw [KV.range, if_neg (ne_of_eq_of_ne isOpen Bool.false_ne_true), ← holds.root]
    exact rangeValues_spec holds.stored holds.owns.nodup_live startLe stopLe

/-! ## Histories -/

/-- The contents after a call: a call that returns no error has all of its effects, another one
has none. -/
def Outcome.apply (outcome : Outcome) (request : Call) (contents : List Entry) : List Entry :=
  if outcome.err.isNone then
    request.calls.foldl (fun contents call => call.updateBindings contents) contents
  else
    contents

/-- Calls one after the other, each under its own faults, with the contents that they are to
leave. -/
def serve : List (Faults × Call) → KV → List Entry → KV × List Entry
  | [], kv, contents => (kv, contents)
  | (faults, request) :: rest, kv, contents =>
    let result := kv.call faults request
    serve rest result.2 (result.1.apply request contents)

/-- No call finds the handle uncertain about what is on its file. -/
def StaysCertain : List (Faults × Call) → KV → Prop
  | [], _ => True
  | (faults, request) :: rest, kv =>
    kv.uncertain = false ∧ StaysCertain rest (kv.call faults request).2

/-- One call on a certain handle. -/
theorem Holds.call_apply (holds : kv.Holds tree) (isOpen : kv.closed = false)
    (certain : kv.uncertain = false) (faults : Faults) (request : Call) :
    ∃ updated, (kv.call faults request).2.Holds updated ∧
      (kv.call faults request).2.closed = false ∧
      updated.bindings = (kv.call faults request).1.apply request tree.bindings ∧
      ((kv.call faults request).1.changed = false → updated = tree) ∧
      ((kv.call faults request).1.err = none → (kv.call faults request).2.uncertain = false) := by
  have meets : (kv.meeting faults).Holds tree := holds.onFile _
  rcases call_cases holds certain faults request with closed | ⟨-, updated⟩
  · rw [closed]
    exact ⟨tree, meets, isOpen, rfl, fun _ => rfl, nofun⟩
  generalize kv.call faults request = result at updated
  cases updated with
  | statFailed => exact ⟨tree, meets, isOpen, rfl, fun _ => rfl, nofun⟩
  | refused _ failed =>
    refine ⟨tree, meets.onFile _, isOpen, ?_, fun _ => rfl, fun done => absurd done failed⟩
    rw [Outcome.apply, if_neg (by rwa [Option.isNone_iff_eq_none])]
  | unchanged _ run =>
    have spec := meets.result request
    rw [run] at spec
    generalize same : (false, _) = value at spec
    cases spec with
    | failed failed => exact absurd ‹_› failed
    | applied applied unchanged =>
      obtain ⟨-, rfl, -⟩ := unchanged (congrArg Prod.fst same).symm
      exact ⟨_, meets.onFile _, isOpen, applied.bindings, fun _ => rfl, fun _ => certain⟩
  | dataFailed => exact ⟨tree, meets.onFile _, isOpen, rfl, nofun, nofun⟩
  | publishFailed =>
    exact ⟨tree, ⟨holds.root, holds.published, holds.stored, holds.keys, holds.owns⟩, isOpen, rfl,
      nofun, nofun⟩
  | committed changed data published =>
    obtain ⟨updated, root_eq, applied⟩ := meets.applied changed
    exact ⟨updated, Holds.committed applied root_eq data published _, isOpen, applied.bindings,
      nofun, fun _ => certain⟩

/-- A deletion returns whether the key was there. -/
theorem Holds.delete_changed (holds : kv.Holds tree) (isOpen : kv.closed = false)
    (certain : kv.uncertain = false) (faults : Faults) {key : Bytes}
    (done : (kv.call faults (.delete key)).1.err = none) :
    (kv.call faults (.delete key)).1.changed = (SortedMap.lookup tree.bindings key).isSome := by
  obtain ⟨updated, -, -, bindings, unchanged, -⟩ :=
    holds.call_apply isOpen certain faults (.delete key)
  cases changed : (kv.call faults (.delete key)).1.changed with
  | false =>
    rw [unchanged changed, Outcome.apply, if_pos (Option.isNone_iff_eq_none.mpr done)] at bindings
    rw [bindings]
    exact (congrArg Option.isSome (SortedMap.lookup_erase_self tree.bindings key)).symm
  | true =>
    cases found : SortedMap.lookup tree.bindings key with
    | some value => rfl
    | none =>
      rcases call_cases holds certain faults (.delete key) with closed | ⟨-, updated⟩
      · rw [closed] at changed
        cases changed
      · cases changed.symm.trans (updated.changed_of_absent holds fun call mem =>
          ⟨key, List.mem_singleton.mp mem, found⟩)

theorem Holds.serve : ∀ {history : List (Faults × Call)} {kv : KV} {tree : Root},
    kv.Holds tree → kv.closed = false → StaysCertain history kv →
    ∃ last, (serve history kv tree.bindings).1.Holds last ∧
      (serve history kv tree.bindings).1.closed = false ∧
      last.bindings = (serve history kv tree.bindings).2 := by
  intro history
  induction history with
  | nil => exact fun holds isOpen _ => ⟨_, holds, isOpen, rfl⟩
  | cons call rest ih =>
    intro kv tree holds isOpen certain
    obtain ⟨updated, holdsNext, openNext, bindings, -⟩ :=
      holds.call_apply isOpen certain.1 call.1 call.2
    have later := ih holdsNext openNext certain.2
    rwa [bindings] at later

/-- An open handle serves a sorted list of bindings, and keeps a well-formed tree.  After any
calls under any faults it serves what the acknowledged ones make of that list, and nothing else,
as long as no call finds it uncertain. -/
theorem history_serves (reached : kv.Reached) (isOpen : kv.closed = false) :
    TreeInvariant kv.pages kv.root ∧ ∃ contents, kv.Serves contents ∧
      ∀ history, StaysCertain history kv →
        (serve history kv contents).1.Serves (serve history kv contents).2 := by
  obtain ⟨tree, holds⟩ := reached.holds
  refine ⟨holds.root ▸ holds.stored.treeInvariant holds.owns.nodup_live, _, holds.serves isOpen, ?_⟩
  intro history certain
  obtain ⟨last, holdsLast, openLast, bindings⟩ := holds.serve isOpen certain
  rw [← bindings]
  exact holdsLast.serves openLast

/-- A new store before and after a call. -/
theorem history_serves_set : ∃ kv contents, openFile true .none [] = .ok kv ∧ kv.Serves contents ∧
    (serve [(.none, .set [1] [2])] kv contents).1.Serves
      (serve [(.none, .set [1] [2])] kv contents).2 := by
  obtain ⟨-, contents, serves, later⟩ := history_serves (.opened (Generation.openFile_new true)) rfl
  exact ⟨_, contents, Generation.openFile_new true, serves, later _ ⟨rfl, trivial⟩⟩

end KV

end GoDatabase
