import Mathlib.Data.List.Induction
import GoDatabase.Structures.Basic

/-!
# The LRU cache

`internal/structures/cache.go`: a read-through cache over a backing `KV`, with a list of the
cached entries by recency and a map from keys into that list.  Writes go to the backing
structure and take their key out of the cache.
-/

namespace GoDatabase.Structures

open Library SortedMap List

/-- A `list.Element` and its `cacheEntry`; a pointer to it is its identity. -/
structure Element where
  id : Nat
  key : Bytes
  value : Bytes

/-- `CacheStats`, without the time spent. -/
structure CacheStats where
  hits : Nat
  misses : Nat
  evictions : Nat
  backingCalls : Nat

/-- `Cache`: the list from the front, that is from the most recent entry on, and the map by key. -/
structure Cache (σ τ : Type) where
  backing : σ
  capacity : Nat
  order : List Element
  entries : List (Binding Bytes Nat)
  stats : CacheStats
  sink : Option τ
  fresh : Nat

def newCache {σ τ : Type} (backing : Option σ) (capacity : Int) : Except GoError (Cache σ τ) :=
  match backing with
  | none => .error (.sentinel "invalid cache configuration")
  | some backing =>
    if capacity < 1 ∨ 256 < capacity then
      .error (.sentinel "invalid cache configuration")
    else
      .ok ⟨backing, capacity.toNat, [], [], ⟨0, 0, 0, 0⟩, none, 0⟩

namespace Cache

variable {σ τ : Type} [Sink τ]

def emit (c : Cache σ τ) (type : EventType) (key : Bytes) (detail : String) : Cache σ τ :=
  { c with sink := record ⟨type, "", "cache", key, [], detail, []⟩ c.sink }

/-- `order.Remove` -/
def remove (order : List Element) (id : Nat) : List Element :=
  order.filter fun element => element.id ≠ id

def invalidate (c : Cache σ τ) (key : Bytes) : Cache σ τ :=
  match lookup c.entries key with
  | none => c
  | some id => { c with order := remove c.order id, entries := erase key c.entries }

/-- A call of the backing structure, with `record`. -/
def callBacking {β : Type} (c : Cache σ τ) (call : StateT σ Option β) : Option (β × Cache σ τ) := do
  let (result, backing) ← call c.backing
  some (result, { c with
    backing := backing, stats.backingCalls := c.stats.backingCalls + 1 })

/-- `Get` on a cached key: the entry moves to the front. -/
def hit (c : Cache σ τ) (key : Bytes) (id : Nat) : Option (Lookup × Cache σ τ) := do
  let c := { c with stats.hits := c.stats.hits + 1 }
  let c := c.emit .cacheHit key "Return cached value"
  let element ← c.order.find? fun element => element.id = id
  let c := { c with order := element :: remove c.order id }
  some (⟨element.value, true, none⟩, c)

/-- Room for one more entry. -/
def makeRoom (c : Cache σ τ) : Option (Cache σ τ) :=
  if c.entries.length = c.capacity then do
    let last ← c.order.getLast?
    let c := c.emit .cacheEviction last.key "Evict least recently used entry"
    some { c with
      entries := erase last.key c.entries, order := remove c.order last.id,
      stats.evictions := c.stats.evictions + 1 }
  else
    some c

def pushFront (c : Cache σ τ) (key value : Bytes) : Cache σ τ :=
  { c with
    order := ⟨c.fresh, key, value⟩ :: c.order, entries := put key c.fresh c.entries,
    fresh := c.fresh + 1 }

/-- What `Get` makes of the answer of the backing structure. -/
def fill (c : Cache σ τ) (key : Bytes) (found : Lookup) : Option (Lookup × Cache σ τ) :=
  if found.err.isSome ∨ found.found = false then
    some (found, c)
  else do
    let c ← c.makeRoom
    let c := c.pushFront key found.value
    some (⟨found.value, true, none⟩, c.emit .cacheFill key "Cache backing result")

/-- `Get` on any other key. -/
def miss (kv : KV σ) (c : Cache σ τ) (key : Bytes) : Option (Lookup × Cache σ τ) := do
  let c := { c with stats.misses := c.stats.misses + 1 }
  let c := c.emit .cacheMiss key "Read through to backing structure"
  let (found, c) ← c.callBacking (kv.get key)
  c.fill key found

def get (kv : KV σ) (key : Bytes) (c : Cache σ τ) : Option (Lookup × Cache σ τ) :=
  match lookup c.entries key with
  | some id => c.hit key id
  | none => c.miss kv key

/-- The end of `Set` and `Delete`: a successful write takes its key out of the cache. -/
def settle (c : Cache σ τ) (err : Option GoError) (key : Bytes) (detail : String) : Cache σ τ :=
  if err.isNone then (c.invalidate key).emit .cacheInvalidation key detail else c

def set (kv : KV σ) (key value : Bytes) (c : Cache σ τ) : Option (Option GoError × Cache σ τ) := do
  let (err, c) ← c.callBacking (kv.set key value)
  some (err, c.settle err key "Invalidate after backing write")

def delete (kv : KV σ) (key : Bytes) (c : Cache σ τ) : Option (Removal × Cache σ τ) := do
  let (removal, c) ← c.callBacking (kv.delete key)
  some (removal, c.settle removal.err key "Invalidate after backing delete")

def range (kv : KV σ) (start stop : Bytes) (c : Cache σ τ) : Option (Scan × Cache σ τ) :=
  (c.emit .cacheBypass [] "Range reads backing structure").callBacking (kv.range start stop)

/-- `Cache` as a `KV`. -/
def kv (backing : KV σ) : KV (Cache σ τ) :=
  ⟨get backing, range backing, set backing, delete backing⟩

end Cache

/-! ## Backing structures -/

/-- A structure that can be cached.  What its methods return, and what they make of the
contents, is given by the contents that a state stands for; reads and failed writes leave
them, and a write of one key leaves what is read under the others. -/
structure Backing {σ : Type} (kv : KV σ) (γ : Type) where
  stands : σ → γ → Prop
  lookup : γ → Bytes → Lookup
  scan : γ → Bytes → Bytes → Scan
  store : γ → Bytes → Bytes → Option GoError × γ
  remove : γ → Bytes → Removal × γ
  get_eq : ∀ {state data}, stands state data → ∀ key, ∃ next,
    kv.get key state = some (lookup data key, next) ∧ stands next data
  range_eq : ∀ {state data}, stands state data → ∀ start stop, ∃ next,
    kv.range start stop state = some (scan data start stop, next) ∧ stands next data
  set_eq : ∀ {state data}, stands state data → ∀ key value, ∃ next,
    kv.set key value state = some ((store data key value).1, next) ∧
      stands next (store data key value).2
  delete_eq : ∀ {state data}, stands state data → ∀ key, ∃ next,
    kv.delete key state = some ((remove data key).1, next) ∧ stands next (remove data key).2
  set_failed : ∀ data key value, (store data key value).1 ≠ none → (store data key value).2 = data
  delete_failed : ∀ data key, (remove data key).1.err ≠ none → (remove data key).2 = data
  set_other : ∀ data key value other, (store data key value).1 = none → other ≠ key →
    lookup (store data key value).2 other = lookup data other
  delete_other : ∀ data key other, (remove data key).1.err = none → other ≠ key →
    lookup (remove data key).2 other = lookup data other

/-- A structure that implements an ordered map can be cached. -/
def Implements.backing {α τ : Type} {methods : Methods α τ}
    {stands : α → List (Binding Bytes Bytes) → Prop} (implements : Implements methods stands) :
    Backing methods.kv (List (Binding Bytes Bytes)) where
  stands observed := stands observed.data
  lookup contents key :=
    ⟨(lookup contents key).getD [], (lookup contents key).isSome, none⟩
  scan contents start stop :=
    ⟨contents.filter fun entry => start ≤ entry.key ∧ entry.key ≤ stop, none⟩
  store contents key value := (none, put key value contents)
  remove contents key :=
    (⟨(lookup contents key).isSome, none⟩, erase key contents)
  get_eq := implements.kv_get
  range_eq := implements.kv_range
  set_eq := implements.kv_set
  delete_eq := implements.kv_delete
  set_failed _ _ _ failed := absurd rfl failed
  delete_failed _ _ failed := absurd rfl failed
  set_other contents key value other _ ne := by
    rw [lookup_put_of_ne contents value ne]
  delete_other contents key other _ ne := by
    rw [lookup_erase_of_ne contents ne]

/-! ## Recency -/

/-- The number of the last `Get` of a key in a sequence of calls, zero if there is none. -/
def lastGet (calls : List Call) (key : Bytes) : Nat :=
  calls.length - calls.reverse.findIdx fun call => call = .get key

theorem lastGet_le (calls : List Call) (key : Bytes) : lastGet calls key ≤ calls.length :=
  Nat.sub_le _ _

theorem lastGet_self (calls : List Call) (key : Bytes) :
    lastGet (calls ++ [.get key]) key = calls.length + 1 := by
  simp [lastGet, findIdx_cons]

theorem lastGet_other (calls : List Call) {call : Call} {key : Bytes} (other : call ≠ .get key) :
    lastGet (calls ++ [call]) key = lastGet calls key := by
  simp [lastGet, findIdx_cons, other]

/-! ## Coherence -/

/-- The list and the map describe the same entries, with the values that the backing structure
has, and the list has them by their last `Get`. -/
structure Coherent (capacity fresh : Nat) (order : List Element)
    (entries : List (Binding Bytes Nat)) (answer : Bytes → Lookup)
    (recency : Bytes → Nat) : Prop where
  sorted : Sorted entries
  same : (order.map fun element => (⟨element.key, element.id⟩ : Binding Bytes Nat)).Perm entries
  ids : (order.map Element.id).Nodup
  known : ∀ element ∈ order, element.id < fresh
  few : entries.length ≤ capacity
  values : ∀ element ∈ order, answer element.key = ⟨element.value, true, none⟩
  recent : order.Pairwise fun newer older => recency older.key < recency newer.key

namespace Coherent

variable {capacity fresh : Nat} {order : List Element} {entries : List (Binding Bytes Nat)}
  {answer : Bytes → Lookup} {recency : Bytes → Nat}

theorem keys (coherent : Coherent capacity fresh order entries answer recency) :
    (order.map Element.key).Nodup := by
  have perm := coherent.same.map Binding.key
  rw [map_map] at perm
  refine perm.nodup_iff.mpr (pairwise_map.mpr (coherent.sorted.imp ?_))
  exact fun lt => lt.ne

variable {key : Bytes} {left right element : Element} {newRecency : Bytes → Nat}

section

variable (coherent : Coherent capacity fresh order entries answer recency)
include coherent

/-- The map leads to the elements of the list. -/
theorem lookup_eq_some {id : Nat} :
    lookup entries key = some id ↔ ∃ element ∈ order, element.key = key ∧ element.id = id := by
  constructor
  · intro found
    have mem := coherent.same.mem_iff.mpr (mem_of_lookup_eq_some found)
    obtain ⟨element, isElement, pair⟩ := mem_map.mp mem
    exact ⟨element, isElement, congrArg Binding.key pair, congrArg Binding.value pair⟩
  · rintro ⟨element, isElement, rfl, rfl⟩
    have mem := coherent.same.mem_iff.mp (mem_map_of_mem isElement)
    exact lookup_eq_some_of_mem coherent.sorted mem

theorem ne_of_lookup_eq_none
    (absent : lookup entries key = none) : ∀ element ∈ order, element.key ≠ key := by
  intro element mem same
  have found := coherent.lookup_eq_some.mpr ⟨element, mem, same, rfl⟩
  rw [absent] at found
  cases found

theorem eq_of_key_eq (inLeft : left ∈ order) (inRight : right ∈ order)
    (same : left.key = right.key) : left = right :=
  inj_on_of_nodup_map coherent.keys inLeft inRight same

theorem eq_of_id_eq
    (inLeft : left ∈ order) (inRight : right ∈ order) (same : left.id = right.id) : left = right :=
  inj_on_of_nodup_map coherent.ids inLeft inRight same

/-- Taking out an element takes out its key. -/
theorem remove_eq (mem : element ∈ order) :
    Cache.remove order element.id = order.filter fun other => other.key ≠ element.key := by
  refine filter_congr fun other isOther => ?_
  have both : other.id = element.id ↔ other.key = element.key :=
    ⟨fun same => congrArg Element.key (coherent.eq_of_id_eq isOther mem same),
      fun same => congrArg Element.id (coherent.eq_of_key_eq isOther mem same)⟩
  simp [both]

/-- The cache without one key, over a backing structure that may have changed under that key. -/
theorem without
    {newAnswer : Bytes → Lookup} (others : ∀ other, other ≠ key → newAnswer other = answer other) :
    Coherent capacity fresh (order.filter fun element => element.key ≠ key)
      (erase key entries) newAnswer recency where
  sorted := sorted_erase coherent.sorted key
  same := by
    have perm := coherent.same.filter fun binding => binding.key ≠ key
    rw [filter_map] at perm
    exact perm.trans (.of_eq (filter_congr fun _ _ => by simp))
  ids := coherent.ids.sublist (filter_sublist.map _)
  known := fun element mem => coherent.known element (mem_of_mem_filter mem)
  few := (length_filter_le _ _).trans coherent.few
  values := by
    intro element mem
    obtain ⟨isElement, ne⟩ := mem_filter.mp mem
    rw [others element.key (by simpa using ne)]
    exact coherent.values element isElement
  recent := coherent.recent.filter _

/-- A cached key moves to the front when it is read. -/
theorem moved
    (mem : element ∈ order) (others : ∀ key, key ≠ element.key → newRecency key = recency key)
    (newest : ∀ key, key ≠ element.key → newRecency key < newRecency element.key) :
    Coherent capacity fresh (element :: Cache.remove order element.id) entries answer
      newRecency := by
  have perm : (element :: Cache.remove order element.id).Perm order := by
    obtain ⟨front, back, rfl⟩ := append_of_mem mem
    have ids := coherent.ids
    rw [map_append, map_cons] at ids
    obtain ⟨-, idsBack, apart⟩ := nodup_append.mp ids
    have inFront : Cache.remove front element.id = front :=
      filter_eq_self.mpr fun other isOther => by
        simpa using apart _ (mem_map_of_mem isOther) _ mem_cons_self
    have inBack : Cache.remove back element.id = back :=
      filter_eq_self.mpr fun other isOther => by
        have ne : other.id ≠ element.id := fun same =>
          (nodup_cons.mp idsBack).1 (same ▸ mem_map_of_mem isOther)
        simpa using ne
    rw [Cache.remove, filter_append, filter_cons_of_neg (by simp)]
    simp only [Cache.remove] at inFront inBack
    rw [inFront, inBack]
    exact perm_middle.symm
  refine ⟨coherent.sorted, (perm.map _).trans coherent.same,
    (perm.map _).nodup_iff.mpr coherent.ids, fun other isOther =>
      coherent.known other (perm.mem_iff.mp isOther), coherent.few,
    fun other isOther => coherent.values other (perm.mem_iff.mp isOther), ?_⟩
  rw [coherent.remove_eq mem]
  have ne : ∀ other ∈ order.filter fun other => other.key ≠ element.key,
      other.key ≠ element.key := fun other isOther => by simpa using (mem_filter.mp isOther).2
  refine pairwise_cons.mpr ⟨fun other isOther => newest _ (ne other isOther), ?_⟩
  refine (coherent.recent.filter _).imp_of_mem fun isNewer isOlder earlier => ?_
  rw [others _ (ne _ isNewer), others _ (ne _ isOlder)]
  exact earlier

/-- A key that is not cached comes to the front. -/
theorem pushed {value : Bytes}
    (absent : ∀ element ∈ order, element.key ≠ key) (room : entries.length < capacity)
    (valued : answer key = ⟨value, true, none⟩)
    (others : ∀ other, other ≠ key → newRecency other = recency other)
    (newest : ∀ other, other ≠ key → newRecency other < newRecency key) :
    Coherent capacity (fresh + 1) (⟨fresh, key, value⟩ :: order) (put key fresh entries)
      answer newRecency := by
  have perm : (put key fresh entries).Perm (⟨key, fresh⟩ :: entries) := by
    refine put_perm (fun binding mem same => ?_) fresh
    obtain ⟨element, isElement, rfl⟩ := mem_map.mp (coherent.same.mem_iff.mpr mem)
    exact absent element isElement same
  refine ⟨sorted_put coherent.sorted key fresh, (coherent.same.cons _).trans perm.symm,
    nodup_cons.mpr ⟨?_, coherent.ids⟩, ?_, perm.length_eq.trans_le room, ?_, ?_⟩
  · intro mem
    obtain ⟨element, isElement, same⟩ := mem_map.mp mem
    exact absurd (coherent.known element isElement) (by rw [same]; exact Nat.lt_irrefl _)
  · refine forall_mem_cons.mpr ⟨Nat.lt_succ_self fresh, fun element mem => ?_⟩
    exact Nat.lt_succ_of_lt (coherent.known element mem)
  · exact forall_mem_cons.mpr ⟨valued, coherent.values⟩
  · refine pairwise_cons.mpr ⟨fun older mem => newest _ (absent older mem), ?_⟩
    refine coherent.recent.imp_of_mem fun isNewer isOlder earlier => ?_
    rw [others _ (absent _ isNewer), others _ (absent _ isOlder)]
    exact earlier

/-- Only the reads of cached keys matter. -/
theorem recency_congr (same : ∀ element ∈ order, newRecency element.key = recency element.key) :
    Coherent capacity fresh order entries answer newRecency := by
  refine { coherent with recent := coherent.recent.imp_of_mem fun isNewer isOlder earlier => ?_ }
  rw [same _ isNewer, same _ isOlder]
  exact earlier

/-- The oldest element of the list. -/
theorem oldest {last : Element} (isLast : order.getLast? = some last) (mem : element ∈ order)
    (ne : element.key ≠ last.key) : recency last.key < recency element.key := by
  obtain ⟨front, rfl⟩ := List.getLast?_eq_some_iff.mp isLast
  rcases mem_append.mp mem with inFront | same
  · exact (pairwise_append.mp coherent.recent).2.2 element inFront last mem_cons_self
  · exact absurd (congrArg Element.key (mem_singleton.mp same)) ne

end

end Coherent

/-! ## Calls -/

namespace Cache

variable {σ τ γ : Type} [Sink τ] {store : KV σ}

/-- The cached keys, the most recent one first. -/
def cached (c : Cache σ τ) : List Bytes := c.order.map Element.key

/-- What holds of a cache after a sequence of calls, given what the backing structure returns. -/
def Holds (c : Cache σ τ) (answer : Bytes → Lookup) (calls : List Call) : Prop :=
  Coherent c.capacity c.fresh c.order c.entries answer (lastGet calls)

/-- A step drops at most the key with the oldest read. -/
def DropsOldest (before after : Cache σ τ) (calls : List Call) : Prop :=
  ∀ victim ∈ before.cached, victim ∉ after.cached →
    ∀ other ∈ before.cached, other ≠ victim → lastGet calls victim < lastGet calls other

/-- Two caches that differ in what a call does not look at. -/
structure SameShelf (c other : Cache σ τ) : Prop where
  capacity : other.capacity = c.capacity
  fresh : other.fresh = c.fresh
  order : other.order = c.order
  entries : other.entries = c.entries

variable {c : Cache σ τ} {answer newAnswer : Bytes → Lookup} {calls : List Call} {key : Bytes}
  {data : γ}

omit [Sink τ] in
theorem SameShelf.holds {other : Cache σ τ} (same : SameShelf c other)
    (holds : c.Holds answer calls) : other.Holds answer calls := by
  rw [Holds, same.capacity, same.fresh, same.order, same.entries]
  exact holds

omit [Sink τ] in
theorem callBacking_eq {β : Type} {call : StateT σ Option β} {result : β} {next : σ}
    (called : call c.backing = some (result, next)) :
    ∃ after, c.callBacking call = some (result, after) ∧ after.backing = next ∧
      SameShelf c after := by
  rw [callBacking, called]
  exact ⟨_, rfl, rfl, rfl, rfl, rfl, rfl⟩

theorem newest (calls : List Call) (key other : Bytes) (ne : other ≠ key) :
    lastGet (calls ++ [.get key]) other < lastGet (calls ++ [.get key]) key := by
  rw [lastGet_self, lastGet_other calls (by simpa using ne.symm)]
  exact Nat.lt_succ_of_le (lastGet_le calls other)

theorem hit_eq (holds : c.Holds answer calls) {id : Nat}
    (found : lookup c.entries key = some id) :
    ∃ next, c.hit key id = some (answer key, next) ∧ next.backing = c.backing ∧
      next.capacity = c.capacity ∧ next.Holds answer (calls ++ [.get key]) ∧
      DropsOldest c next calls := by
  obtain ⟨element, mem, rfl, rfl⟩ := holds.lookup_eq_some.mp found
  have moved := holds.moved mem
    (fun other ne => lastGet_other calls (by simpa using ne.symm))
    (newest calls element.key)
  have ran : c.hit element.key element.id = some (⟨element.value, true, none⟩, { c with
      order := element :: remove c.order element.id, stats.hits := c.stats.hits + 1,
      sink := (c.emit .cacheHit element.key "Return cached value").sink }) := by
    rw [hit]
    simp only [emit]
    rw [find?_of_nodup holds.ids mem]
    rfl
  rw [holds.values element mem, ran]
  refine ⟨_, rfl, rfl, rfl, moved, ?_⟩
  intro victim isVictim gone
  obtain ⟨other, isOther, rfl⟩ := mem_map.mp isVictim
  refine absurd ?_ gone
  by_cases same : other.key = element.key
  · exact mem_cons.mpr (.inl same)
  · refine mem_cons_of_mem _ (mem_map_of_mem ?_)
    rw [holds.remove_eq mem]
    exact mem_filter.mpr ⟨isOther, by simpa using same⟩

/-- Making room drops at most the oldest key. -/
theorem makeRoom_eq (holds : c.Holds answer calls) (positive : 0 < c.capacity) :
    ∃ next, c.makeRoom = some next ∧ next.backing = c.backing ∧ next.capacity = c.capacity ∧
      next.Holds answer calls ∧ next.entries.length < next.capacity ∧
      next.order.Sublist c.order ∧ DropsOldest c next calls := by
  rw [makeRoom]
  have lengths : c.order.length = c.entries.length := by
    rw [← holds.same.length_eq, length_map]
  by_cases full : c.entries.length = c.capacity
  · rw [if_pos full]
    have nonempty : c.order ≠ [] := fun empty => by
      rw [empty, length_nil] at lengths
      omega
    have isLast := List.getLast?_eq_some_getLast nonempty
    have mem := getLast_mem nonempty
    generalize c.order.getLast nonempty = last at isLast mem
    have smaller := holds.without fun other (_ : other ≠ last.key) => rfl
    rw [← holds.remove_eq mem] at smaller
    have ran : (do
        let last ← c.order.getLast?
        let c := c.emit .cacheEviction last.key "Evict least recently used entry"
        some { c with
          entries := erase last.key c.entries, order := remove c.order last.id,
          stats.evictions := c.stats.evictions + 1 }) = some { c with
      entries := erase last.key c.entries, order := remove c.order last.id,
      stats.evictions := c.stats.evictions + 1,
      sink := (c.emit .cacheEviction last.key "Evict least recently used entry").sink } := by
      rw [isLast]
      rfl
    rw [ran]
    refine ⟨_, rfl, rfl, rfl, smaller, ?_, filter_sublist, ?_⟩
    · have shorter : (remove c.order last.id).length < c.order.length :=
        length_filter_lt_length_iff_exists.mpr ⟨last, mem, by simp⟩
      have same := smaller.same.length_eq
      rw [length_map] at same
      change (erase last.key c.entries).length < c.capacity
      omega
    · intro victim isVictim gone other isOther ne
      obtain ⟨element, isElement, rfl⟩ := mem_map.mp isVictim
      obtain ⟨another, isAnother, rfl⟩ := mem_map.mp isOther
      -- only the last element has gone
      have same : element.key = last.key := by
        by_contra kept
        refine gone (mem_map_of_mem ?_)
        rw [holds.remove_eq mem]
        exact mem_filter.mpr ⟨isElement, by simpa using kept⟩
      rw [same] at ne ⊢
      exact holds.oldest isLast isAnother ne
  · rw [if_neg full]
    exact ⟨c, rfl, rfl, rfl, holds, Nat.lt_of_le_of_ne holds.few full, List.Sublist.refl _,
      fun victim isVictim gone => absurd isVictim gone⟩

theorem fill_eq (holds : c.Holds answer calls) (positive : 0 < c.capacity)
    (uncached : ∀ element ∈ c.order, element.key ≠ key) :
    ∃ next, c.fill key (answer key) = some (answer key, next) ∧ next.backing = c.backing ∧
      next.capacity = c.capacity ∧ next.Holds answer (calls ++ [.get key]) ∧
      DropsOldest c next calls := by
  have unread : ∀ other, other ≠ key → lastGet (calls ++ [.get key]) other = lastGet calls other :=
    fun other ne => lastGet_other calls (by simpa using ne.symm)
  rw [fill]
  by_cases unfilled : (answer key).err.isSome ∨ (answer key).found = false
  · rw [if_pos unfilled]
    refine ⟨c, rfl, rfl, rfl, holds.recency_congr fun element mem => ?_, ?_⟩
    · exact unread _ (uncached element mem)
    · exact fun victim isVictim gone => absurd isVictim gone
  · rw [if_neg unfilled]
    have valued : answer key = ⟨(answer key).value, true, none⟩ := by
      obtain ⟨noError, found⟩ := not_or.mp unfilled
      rw [Bool.not_eq_false] at found
      rw [Option.not_isSome_iff_eq_none] at noError
      rw [← found, ← noError]
    obtain ⟨roomy, made, sameBacking, sameCapacity, roomyHolds, room, fewer, oldest⟩ :=
      makeRoom_eq holds positive
    have pushed := roomyHolds.pushed (fun element mem => uncached element (fewer.subset mem))
      room valued unread (newest calls key)
    rw [made, ← valued]
    refine ⟨_, rfl, sameBacking, sameCapacity, pushed, ?_⟩
    intro victim isVictim gone
    exact oldest victim isVictim fun kept => gone (mem_cons_of_mem _ kept)

/-- `Get` returns what the backing structure has. -/
theorem get_eq (backing : Backing store γ)
    (standing : backing.stands c.backing data) (holds : c.Holds (backing.lookup data) calls)
    (positive : 0 < c.capacity) (key : Bytes) :
    ∃ next, c.get store key = some (backing.lookup data key, next) ∧
      backing.stands next.backing data ∧ next.capacity = c.capacity ∧
      next.Holds (backing.lookup data) (calls ++ [.get key]) ∧ DropsOldest c next calls := by
  rw [get]
  cases found : lookup c.entries key with
  | some id =>
    obtain ⟨next, ran, sameBacking, capacity, nextHolds, oldest⟩ := hit_eq holds found
    exact ⟨next, ran, sameBacking ▸ standing, capacity, nextHolds, oldest⟩
  | none =>
    obtain ⟨state, called, standingNext⟩ := backing.get_eq standing key
    let noted := ({ c with stats.misses := c.stats.misses + 1 } : Cache σ τ).emit .cacheMiss key
      "Read through to backing structure"
    obtain ⟨asked, ran, reached, same⟩ := callBacking_eq (c := noted) called
    have askedHolds : asked.Holds (backing.lookup data) calls := same.holds holds
    obtain ⟨next, filled, sameBacking, capacity, nextHolds, oldest⟩ := fill_eq askedHolds
      (same.capacity ▸ positive) fun element mem =>
        holds.ne_of_lookup_eq_none found element (same.order ▸ mem)
    refine ⟨next, ?_, ?_, capacity.trans same.capacity, nextHolds, ?_⟩
    · change (noted.callBacking (store.get key)).bind _ = _
      rw [ran]
      exact filled
    · rw [sameBacking, reached]
      exact standingNext
    · have cached : asked.cached = c.cached := congrArg (List.map Element.key) same.order
      rw [DropsOldest, ← cached]
      exact oldest

omit [Sink τ] in
/-- Invalidating takes a key out of the list and the map. -/
theorem invalidate_holds (holds : c.Holds answer calls)
    (others : ∀ other, other ≠ key → newAnswer other = answer other) :
    (c.invalidate key).Holds newAnswer calls ∧ (c.invalidate key).backing = c.backing ∧
      (c.invalidate key).capacity = c.capacity := by
  have smaller := holds.without others
  rw [invalidate]
  cases found : lookup c.entries key with
  | none =>
    have uncached := holds.ne_of_lookup_eq_none found
    rw [filter_eq_self.mpr fun element mem => by simpa using uncached element mem,
      erase_of_absent (ne_of_lookup_eq_none found)] at smaller
    exact ⟨smaller, rfl, rfl⟩
  | some id =>
    obtain ⟨element, mem, rfl, rfl⟩ := holds.lookup_eq_some.mp found
    rw [← holds.remove_eq mem] at smaller
    exact ⟨smaller, rfl, rfl⟩

/-- A write that succeeds takes its key out of the cache, one that fails leaves it. -/
theorem settle_holds (holds : c.Holds answer calls) {err : Option GoError} (detail : String)
    (failed : err ≠ none → newAnswer = answer)
    (stored : err = none → ∀ other, other ≠ key → newAnswer other = answer other) :
    (c.settle err key detail).Holds newAnswer calls ∧
      (c.settle err key detail).backing = c.backing ∧
      (c.settle err key detail).capacity = c.capacity := by
  cases err with
  | none => exact invalidate_holds holds (stored rfl)
  | some err => exact ⟨failed nofun ▸ holds, rfl, rfl⟩

omit [Sink τ] in
/-- A call that is not a `Get` changes no recency. -/
theorem Holds.later (holds : c.Holds answer calls) {call : Call} (other : ∀ key, call ≠ .get key) :
    c.Holds answer (calls ++ [call]) :=
  holds.recency_congr fun element _ => lastGet_other calls (other element.key)

/-- Every call returns what it returns on the backing structure. -/
theorem call_eq (backing : Backing store γ) {alone : σ}
    (standing : backing.stands c.backing data) (level : backing.stands alone data)
    (holds : c.Holds (backing.lookup data) calls) (positive : 0 < c.capacity) (call : Call) :
    ∃ outcome next after newData, (kv store).call call c = some (outcome, next) ∧
      store.call call alone = some (outcome, after) ∧ backing.stands next.backing newData ∧
      backing.stands after newData ∧ next.Holds (backing.lookup newData) (calls ++ [call]) ∧
      next.capacity = c.capacity := by
  cases call with
  | get key =>
    obtain ⟨next, ran, standingNext, capacity, nextHolds, -⟩ :=
      get_eq backing standing holds positive key
    obtain ⟨after, called, levelNext⟩ := backing.get_eq level key
    exact ⟨_, next, after, data, KV.call_get ran, KV.call_get called, standingNext, levelNext,
      nextHolds, capacity⟩
  | range start stop =>
    obtain ⟨state, read, standingNext⟩ := backing.range_eq standing start stop
    obtain ⟨after, called, levelNext⟩ := backing.range_eq level start stop
    let noted := c.emit .cacheBypass [] "Range reads backing structure"
    obtain ⟨next, ran, reached, same⟩ := callBacking_eq (c := noted) read
    have nextHolds : next.Holds (backing.lookup data) calls := same.holds holds
    exact ⟨_, next, after, data, KV.call_range ran, KV.call_range called,
      reached ▸ standingNext, levelNext, nextHolds.later nofun, same.capacity⟩
  | set key value =>
    obtain ⟨state, written, standingNext⟩ := backing.set_eq standing key value
    obtain ⟨after, called, levelNext⟩ := backing.set_eq level key value
    obtain ⟨asked, ran, reached, same⟩ := callBacking_eq written
    obtain ⟨nextHolds, kept, capacity⟩ := settle_holds (same.holds holds)
      "Invalidate after backing write"
      (fun failed => congrArg backing.lookup (backing.set_failed data key value failed))
      (fun stored other => backing.set_other data key value other stored)
    refine ⟨_, _, after, _, KV.call_set (by simp only [kv, set, ran]; rfl), KV.call_set called, ?_,
      levelNext, nextHolds.later nofun, capacity.trans same.capacity⟩
    rw [kept, reached]
    exact standingNext
  | delete key =>
    obtain ⟨state, written, standingNext⟩ := backing.delete_eq standing key
    obtain ⟨after, called, levelNext⟩ := backing.delete_eq level key
    obtain ⟨asked, ran, reached, same⟩ := callBacking_eq written
    obtain ⟨nextHolds, kept, capacity⟩ := settle_holds (same.holds holds)
      "Invalidate after backing delete"
      (fun failed => congrArg backing.lookup (backing.delete_failed data key failed))
      (fun stored other => backing.delete_other data key other stored)
    refine ⟨_, _, after, _, KV.call_delete (by simp only [kv, delete, ran]; rfl),
      KV.call_delete called, ?_, levelNext, nextHolds.later nofun, capacity.trans same.capacity⟩
    rw [kept, reached]
    exact standingNext

/-- A run through a new cache and the same run on the backing structure. -/
theorem run_eq (backing : Backing store γ) (new : Cache σ τ)
    (standing : backing.stands new.backing data) (empty : new.order = [] ∧ new.entries = [])
    (positive : 0 < new.capacity) (calls : List Call) :
    ∃ outcomes cache final last, (kv store).run calls new = some (outcomes, cache) ∧
      store.run calls new.backing = some (outcomes, final) ∧ backing.stands cache.backing last ∧
      backing.stands final last ∧ cache.Holds (backing.lookup last) calls ∧
      cache.capacity = new.capacity := by
  induction calls using List.reverseRecOn with
  | nil =>
    refine ⟨[], new, new.backing, data, rfl, rfl, standing, standing, ?_, rfl⟩
    rw [Holds, empty.1, empty.2]
    exact ⟨List.Pairwise.nil, .refl _, nodup_nil, nofun, Nat.zero_le _, nofun, List.Pairwise.nil⟩
  | append_singleton calls call ih =>
    obtain ⟨outcomes, cache, final, last, ran, alone, reached, level, holds, capacity⟩ := ih
    obtain ⟨outcome, next, after, newLast, called, calledAlone, reachedNext, levelNext, nextHolds,
      capacityNext⟩ := call_eq backing reached level holds (capacity ▸ positive) call
    exact ⟨outcomes ++ [outcome], next, after, newLast, KV.run_snoc ran called,
      KV.run_snoc alone calledAlone, reachedNext, levelNext, nextHolds, capacityNext.trans capacity⟩

end Cache

/-- A run through a cache returns what it returns on the backing structure alone.  At its end, and
so at every point of a run, the cache has at most `capacity` keys, its list and its map
describe the same entries with the values of the backing structure, and a `Get` that
evicts takes the key with the oldest last `Get`. -/
theorem cache_transparent {σ τ γ : Type} [Sink τ] {store : KV σ} (backing : Backing store γ)
    (start : σ)
    (data : γ) (standing : backing.stands start data) (capacity : Int) (low : 1 ≤ capacity)
    (high : capacity ≤ 256) (calls : List Call) :
    ∃ (new cache : Cache σ τ) (outcomes : List Outcome) (final : σ),
      newCache (some start) capacity = .ok new ∧
      (Cache.kv store).run calls new = some (outcomes, cache) ∧
      store.run calls start = some (outcomes, final) ∧
      cache.cached.Nodup ∧ cache.cached.length ≤ capacity ∧
      (∀ key id, SortedMap.lookup cache.entries key = some id ↔
        ∃ element ∈ cache.order, element.key = key ∧ element.id = id) ∧
      (∀ element ∈ cache.order, ∃ state,
        store.get element.key cache.backing = some (⟨element.value, true, none⟩, state)) ∧
      ∀ key, ∃ outcome next, (Cache.kv store).call (.get key) cache = some (outcome, next) ∧
        Cache.DropsOldest cache next calls := by
  let new : Cache σ τ := ⟨start, capacity.toNat, [], [], ⟨0, 0, 0, 0⟩, none, 0⟩
  have positive : 0 < new.capacity := by
    change 0 < capacity.toNat
    omega
  obtain ⟨outcomes, cache, final, last, ran, alone, reached, -, holds, sameCapacity⟩ :=
    Cache.run_eq backing new standing ⟨rfl, rfl⟩ positive calls
  refine ⟨new, cache, outcomes, final, ?_, ran, alone, holds.keys, ?_,
    fun _ _ => holds.lookup_eq_some, ?_, ?_⟩
  · rw [newCache, if_neg (by omega)]
  · have few := holds.few
    rw [← holds.same.length_eq, List.length_map, sameCapacity] at few
    have bound : new.capacity = capacity.toNat := rfl
    rw [Cache.cached, List.length_map]
    omega
  · intro element mem
    obtain ⟨state, called, -⟩ := backing.get_eq reached element.key
    rw [holds.values element mem] at called
    exact ⟨state, called⟩
  · intro key
    obtain ⟨next, got, -, -, -, oldest⟩ :=
      Cache.get_eq backing reached holds (sameCapacity ▸ positive) key
    exact ⟨_, next, KV.call_get got, oldest⟩

/-- One entry of room over a sorted slice with two, so that the second read evicts. -/
theorem cache_transparent_sortedSlice :
    ∃ (new cache : Cache (Observed SortedSlice Recorder) Recorder) (outcomes : List Outcome)
      (final : Observed SortedSlice Recorder),
      newCache (some ⟨⟨[⟨[1], [10]⟩, ⟨[2], [20]⟩]⟩, none⟩) 1 = .ok new ∧
      (Cache.kv SortedSlice.methods.kv).run [.get [1], .get [2], .set [2] [21], .get [2]] new =
        some (outcomes, cache) ∧
      SortedSlice.methods.kv.run [.get [1], .get [2], .set [2] [21], .get [2]]
        ⟨⟨[⟨[1], [10]⟩, ⟨[2], [20]⟩]⟩, none⟩ = some (outcomes, final) := by
  obtain ⟨new, cache, outcomes, final, made, ran, alone, -⟩ := cache_transparent (τ := Recorder)
    (SortedSlice.implements (τ := Recorder)).backing ⟨⟨[⟨[1], [10]⟩, ⟨[2], [20]⟩]⟩, none⟩
    [⟨[1], [10]⟩, ⟨[2], [20]⟩] ⟨rfl, List.pairwise_pair.mpr (by decide)⟩ 1 (by decide) (by decide)
    [.get [1], .get [2], .set [2] [21], .get [2]]
  exact ⟨new, cache, outcomes, final, made, ran, alone⟩

end GoDatabase.Structures
