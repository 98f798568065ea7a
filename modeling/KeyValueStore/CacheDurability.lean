import KeyValueStore.CacheRuns

/-!
# What the files hold while the cache is in use

The cache writes to the store only what its dictionary says: the value of a key when the node of the
key is evicted, and its absence when the key is deleted. So whatever the operating system finds in
the files at any moment is, for each key, a value that the key has had since the server started; and
the keys for which it is not the current one are keys of linked nodes.

* `calls_storesOnly` — every value in the store comes from some dictionary of the run.
* `cacheCleanRounds_spec` — so it does while `cache_clean` is running.
-/

namespace KeyValueStore

open Run

variable {P : Triple → Option Chars256 → Prop} {store : KVStore} {ptr : KVMessage}

/-! ## Stores that hold only what is allowed -/

theorem StoreRep.unique {m m' : Triple → Option Chars256} (h : StoreRep store m)
    (h' : StoreRep store m') : m = m' := by
  funext t
  have hread := (KVStore.readFromDb_eq h ⟨0, t.key, emptyString, t.hash1, t.hash2⟩).symm.trans
    (KVStore.readFromDb_eq h' ⟨0, t.key, emptyString, t.hash1, t.hash2⟩)
  have hanswer := Except.ok.inj hread
  have hkey : (⟨0, t.key, emptyString, t.hash1, t.hash2⟩ : KVMessage).triple = t := rfl
  rw [readAnswer, readAnswer, hkey] at hanswer
  cases hm : m t <;> cases hm' : m' t <;> simp_all

/-- The store holds under every triple what `P` allows there. -/
def StoresOnly (P : Triple → Option Chars256 → Prop) (store : KVStore) : Prop :=
  ∃ m, StoreRep store m ∧ ∀ t, P t (m t)

namespace StoresOnly

theorem update {m : Triple → Option Chars256} (hm : ∀ t, P t (m t)) {t : Triple}
    {o : Option Chars256} (ho : P t o) : ∀ t', P t' (Function.update m t o t') := by
  intro t'
  by_cases ht : t' = t
  · rw [ht, Function.update_self]
    exact ho
  · rw [Function.update_of_ne ht]
    exact hm t'

theorem writeToDb (h : StoresOnly P store) (hptr : P ptr.triple (some ptr.value)) :
    Ensures (store.writeToDb ptr) (StoresOnly P) := by
  obtain ⟨m, hrep, hm⟩ := h
  intro store' hwrite
  exact ⟨_, (KVStore.writeToDb_spec hrep ptr).of_ok hwrite, update hm hptr⟩

theorem deleteFromDb (h : StoresOnly P store) (hptr : P ptr.triple none) :
    Ensures (store.deleteFromDb ptr) fun r => StoresOnly P r.2 := by
  obtain ⟨m, hrep, hm⟩ := h
  obtain ⟨store', hdel, hrep'⟩ := KVStore.deleteFromDb_spec hrep ptr
  rw [hdel]
  exact Ensures.ok ⟨_, hrep', update hm hptr⟩

end StoresOnly

/-- `P` allows what the dictionary says. -/
def Allows (P : Triple → Option Chars256 → Prop) (d : Dict) : Prop := ∀ k, P (tripleOf k) (d k)

namespace KVState

variable {s : KVState} {L : Layout} {held : List NodePtr} {d : Dict} {p : NodePtr} {n : Nat}

/-! ## The operations -/

/-- An eviction writes what the dictionary says of the victim's key. -/
theorem evictLocked_storesOnly (h : Represents s L held d) (hd : Allows P d)
    (hs : StoresOnly P s.store) {e : Nat} (htail : (s.cache.lruEvictionTable e).tail = some p) :
    Ensures (s.evictLocked e (hashTableIdx (s.cache.message p))) fun r =>
      StoresOnly P r.2.store := by
  have hp := (h.wf.tail_linked htail).1
  have hnode := hd (s.cache.message p).key
  rw [h.cached p hp, ← h.wf.hashed p hp, nodeValue] at hnode
  rcases h.wf.present p hp with hdirty | hdirty
  · rw [evictLocked_dirty htail hdirty]
    rw [if_neg (by rw [hdirty]; decide)] at hnode
    exact (hs.writeToDb hnode).bind fun store' hstore' => Ensures.ok hstore'
  · rw [evictLocked_toDelete htail hdirty]
    rw [if_pos hdirty] at hnode
    exact (hs.deleteFromDb hnode).bind fun r hr => Ensures.ok hr

theorem cacheEviction_storesOnly (h : Represents s L held d) (hd : Allows P d)
    (hs : StoresOnly P s.store) : Ensures s.cacheEviction fun r => StoresOnly P r.2.store := by
  obtain ⟨i, ⟨e, hscan, hh⟩ | ⟨hscan, -⟩⟩ := scan_eq h.wf
  · have hrep := Represents.setCounters h i s.cache.lruTableInsertIdx
    obtain ⟨p, htail⟩ := h.wf.tail_of_head hh
    have hv : KVCache.victimBucket { s.cache with lruEvictionIdx := i } e =
        .ok (hashTableIdx (s.cache.message p)) := by
      rw [KVCache.victimBucket, htail]
    have hev := evictLocked_ensures hrep.wf (e := e) (p := p) htail
    rw [cacheEviction_of_some hscan hv fun r hr => ⟨p, (hev r hr).1⟩]
    exact evictLocked_storesOnly hrep hd hs htail
  · rw [cacheEviction_of_none hscan]
    exact Ensures.ok hs

theorem newInstance_storesOnly (h : Represents s L held d) (hd : Allows P d)
    (hs : StoresOnly P s.store) : Ensures s.newInstance fun r => StoresOnly P r.2.store := by
  rw [newInstance]
  split_ifs
  · exact cacheEviction_storesOnly h hd hs
  · exact ensures_true.bind fun r _ => Ensures.ok hs

theorem cachePUTNewEntry_storesOnly (h : Represents s L held d) (hd : Allows P d)
    (hs : StoresOnly P s.store) (ptr : KVMessage) (i : Nat) :
    Ensures (s.cachePUTNewEntry ptr i) fun r => StoresOnly P r.2.store := by
  rw [cachePUTNewEntry]
  refine (newInstance_storesOnly h hd hs).bind fun r hr => ?_
  obtain ⟨res, s₁⟩ := r
  cases res with
  | none => exact Ensures.error
  | some p => exact Ensures.ok hr

theorem cacheGET_storesOnly (h : Holds n s d) (hd : Allows P d) (hs : StoresOnly P s.store)
    (ptr : KVMessage) : Ensures (s.cacheGET ptr) fun r => StoresOnly P r.2.2.store := by
  obtain ⟨L, hrep, -⟩ := h
  obtain ⟨r, s₁, L₁, hget, hrep₁, -, -, hstore, -⟩ := getSearch_spec hrep ptr.calculateKeyHash rfl
  have hs₁ : StoresOnly P s₁.store := by rwa [hstore]
  rw [cacheGET, cacheGETPtr, hget]
  cases r with
  | done res ptr' => exact Ensures.ok hs₁
  | load ptr' =>
    refine Ensures.bind (P := fun r => StoresOnly P r.2.2.store) ?_ fun r hr => Ensures.ok hr
    exact (cachePUTNewEntry_storesOnly hrep₁ hd hs₁ ptr' _).bind fun r hr => Ensures.ok hr

theorem cachePUT_storesOnly (h : Holds n s d) (hd : Allows P d) (hs : StoresOnly P s.store)
    (ptr : KVMessage) : Ensures (s.cachePUT ptr) fun s' => StoresOnly P s'.store := by
  obtain ⟨L, hrep, -⟩ := h
  obtain ⟨found, hf⟩ := hrep.wf.findEntry_ok ptr.calculateKeyHash
  rw [cachePUT, hf, ok_bind]
  cases found with
  | some p =>
    obtain ⟨hp, htriple⟩ := hrep.wf.findEntry_some hf
    obtain ⟨s', L', hput, -, -, -, hstore⟩ := upgradePut_spec hrep hp (congrArg Triple.key htriple)
    dsimp only
    rw [hput]
    exact Ensures.ok (by rwa [hstore])
  | none => exact (cachePUTNewEntry_storesOnly hrep hd hs _ _).bind fun r hr => Ensures.ok hr

/-- A deletion reaches the store at once where the key has no node. -/
theorem deleteSearch_storesOnly (h : Represents s L held d) (hs : StoresOnly P s.store)
    (ptr : KVMessage) (hptr : P ptr.triple none) :
    Ensures (s.deleteSearch ptr) fun r => StoresOnly P r.2.store := by
  obtain ⟨found, hf⟩ := h.wf.findEntry_ok ptr
  rw [deleteSearch, hf, ok_bind]
  cases found with
  | none => exact (hs.deleteFromDb hptr).bind fun r hr => Ensures.ok hr
  | some p =>
    obtain ⟨hp, -⟩ := h.wf.findEntry_some hf
    rcases h.wf.present p hp with hdirty | hdirty <;> simp only [hdirty] <;> exact Ensures.ok hs

theorem cacheDELETE_storesOnly (h : Holds n s d) (hs : StoresOnly P s.store) (ptr : KVMessage)
    (hptr : P (tripleOf ptr.key) none) :
    Ensures (s.cacheDELETE ptr) fun r => StoresOnly P r.2.store := by
  obtain ⟨L, hrep, -⟩ := h
  obtain ⟨r, s₁, hdel, -, hr⟩ := deleteSearch_spec hrep ptr.calculateKeyHash rfl
  have hs₁ := deleteSearch_storesOnly hrep hs ptr.calculateKeyHash hptr _ hdel
  rw [cacheDELETE, hdel, ok_bind]
  cases r with
  | done res => exact Ensures.ok hs₁
  | upgrade p =>
    obtain ⟨rfl, hp, -⟩ := hr
    obtain ⟨s', L', hup, -, -, -, hstore⟩ := upgradeDelete_spec hrep hp
    simp only [hup, ok_bind]
    exact Ensures.ok (by rwa [hstore])

theorem cacheEvictionSimpleLoop_storesOnly (h : Holds n s d) (hd : Allows P d)
    (hs : StoresOnly P s.store) (k : Nat) :
    Ensures (s.cacheEvictionSimpleLoop k) fun s' => StoresOnly P s'.store := by
  induction k generalizing s with
  | zero => exact Ensures.ok hs
  | succ k ih =>
    obtain ⟨L, hrep, hn⟩ := h
    have hrep₁ : Represents { s with cache := s.cache.getNextEvictionQueueIdx.2 } L [] d :=
      Represents.setCounters hrep _ s.cache.lruTableInsertIdx
    have hn₁ : s.cache.getNextEvictionQueueIdx.2.cacheNodeMemoryPool.allocated = n := hn
    rw [cacheEvictionSimpleLoop]
    generalize s.cache.getNextEvictionQueueIdx = next at hrep₁ hn₁
    obtain ⟨e, c⟩ := next
    dsimp only at hrep₁ hn₁ ⊢
    by_cases hh : (c.lruEvictionTable e).head = none
    · rw [if_pos hh]
      exact ih ⟨L, hrep₁, hn₁⟩ hs
    · rw [if_neg hh]
      obtain ⟨p, htail⟩ := hrep₁.wf.tail_of_head hh
      rw [KVCache.victimBucket, htail, ok_bind]
      have hflushed := (evictLocked_spec hrep₁ htail).ensures
      refine (hflushed.and (evictLocked_storesOnly hrep₁ hd hs htail)).bind fun r hr => ?_
      obtain ⟨res, s₁⟩ := r
      obtain ⟨⟨rfl, hrep₂, hcache⟩, hs₁⟩ := hr
      obtain ⟨c', L₂, hrel, hrep₃, halloc⟩ := Represents.release hrep₂ (List.mem_singleton_self p)
      rw [List.erase_cons_head] at hrep₃
      show Ensures ((s₁.cache.releaseInstance p).bind _) _
      rw [hrel]
      refine ih ⟨_, hrep₃, ?_⟩ hs₁
      rw [halloc, hcache]
      exact hn₁

/-- **Every request** keeps the store to what `P` allows of the dictionary before and after it. -/
theorem call_storesOnly (h : Holds n s d) (hd : Allows P d) (hs : StoresOnly P s.store)
    (c : CacheCall) (hd' : Allows P (dictCall d c).2) :
    Ensures (s.call c) fun r => StoresOnly P r.2.store := by
  cases c with
  | get ptr => exact (cacheGET_storesOnly h hd hs ptr).bind fun r hr => Ensures.ok hr
  | put ptr => exact (cachePUT_storesOnly h hd hs ptr).bind fun s' hs' => Ensures.ok hs'
  | delete ptr =>
    have hptr : P (tripleOf ptr.key) (Function.update d ptr.key none ptr.key) := hd' ptr.key
    rw [Function.update_self] at hptr
    exact (cacheDELETE_storesOnly h hs ptr hptr).bind fun r hr => Ensures.ok hr
  | evictionSimple =>
    exact (cacheEvictionSimpleLoop_storesOnly h hd hs 10).bind fun s' hs' => Ensures.ok hs'

/-- Over a run, `P` has to allow every dictionary that the run goes through. -/
theorem calls_storesOnly (h : Holds n s d) (hpos : 0 < n) (hs : StoresOnly P s.store)
    (cs : List CacheCall) (hP : ∀ cs', cs' <+: cs → Allows P (specCalls dictCall d cs').2) :
    Ensures (calls call s cs) fun r => StoresOnly P r.2.store := by
  induction cs generalizing s d with
  | nil => exact Ensures.ok hs
  | cons c cs ih =>
    have hd : Allows P d := hP [] (List.nil_prefix)
    have hd' : Allows P (dictCall d c).2 := hP [c] ⟨cs, rfl⟩
    refine ((call_spec h hpos c).ensures.and (call_storesOnly h hd hs c hd')).bind fun r hr => ?_
    obtain ⟨⟨-, hr⟩, hstore⟩ := hr
    refine (ih hr hstore fun cs' hcs' => ?_).bind fun rs hrs => Ensures.ok hrs
    exact hP (c :: cs') (List.cons_prefix_cons.2 ⟨rfl, hcs'⟩)

/-! ## `cache_clean`, whole or cut short -/

/-- The first `k` rounds of the loop of `cache_clean`. -/
def cacheCleanRounds : Nat → KVState → Except Fault KVState
  | 0, s => .ok s
  | k + 1, s => do
    match ← s.cacheEviction with
    | (none, s) => return s
    | (some _, s) => cacheCleanRounds k s

/-- A loop that ends is all of its rounds. -/
theorem cacheCleanRounds_of_cacheClean {fuel : Nat} {s' : KVState}
    (h : s.cacheClean fuel = .ok s') : s.cacheCleanRounds fuel = .ok s' := by
  induction fuel generalizing s with
  | zero => cases h
  | succ fuel ih =>
    rw [cacheClean] at h
    rw [cacheCleanRounds]
    cases hev : s.cacheEviction with
    | error e =>
      rw [hev] at h
      cases h
    | ok r =>
      rw [hev] at h
      obtain ⟨res, s₁⟩ := r
      cases res with
      | none => exact h
      | some p => exact ih h

/-- **However far `cache_clean` gets**, the dictionary is what it was, no more nodes are linked than
before, and the store holds what is allowed. -/
theorem cacheCleanRounds_spec (h : Represents s L held d) (hd : Allows P d)
    (hs : StoresOnly P s.store) (k : Nat) :
    SucceedsUnlessFull (s.cacheCleanRounds k) fun s' =>
      (∃ L' held', Represents s' L' held' d ∧ L'.linked.length ≤ L.linked.length) ∧
        StoresOnly P s'.store := by
  induction k generalizing s L held with
  | zero => exact Excused.ok ⟨⟨L, held, h, Nat.le_refl _⟩, hs⟩
  | succ k ih =>
    rw [cacheCleanRounds]
    by_cases hnil : L.linked = []
    · obtain ⟨i, hev⟩ := cacheEviction_empty h hnil
      rw [hev]
      exact Excused.ok
        ⟨⟨L, held, Represents.setCounters h i s.cache.lruTableInsertIdx, Nat.le_refl _⟩, hs⟩
    · have hev := (cacheEviction_storesOnly h hd hs).and (cacheEviction_spec h hnil).ensures
      refine (hev.excused (cacheEviction_spec h hnil)).bind fun r hr => ?_
      obtain ⟨res, s₁⟩ := r
      obtain ⟨hs₁, p, rfl, hp, L₁, hrep₁, hL₁, -⟩ := hr
      refine (ih hrep₁ hs₁).mono fun s' hs' => ?_
      obtain ⟨⟨L', held', hrep', hlen⟩, hstore⟩ := hs'
      have herase : L₁.linked.length ≤ L.linked.length := by
        rw [hL₁]
        exact List.length_erase_le
      exact ⟨⟨L', held', hrep', hlen.trans herase⟩, hstore⟩

end KVState

end KeyValueStore
