import KeyValueStore.CacheRuns

/-!
# The victim of a full cache

`cache_PUT_new_entry` writes to the node that `cache_eviction` returns without a test, and
`cache_eviction` returns null when no node is linked. With at least one node this cannot happen: all
nodes are linked or free, a full cache has none that is free, and the scan passes every queue. A
cache of size 0 is full and empty, and the first entry dereferences null
(`full_cache_yields_victim_iff`).
-/

namespace KeyValueStore

open Run

namespace KVState

/-- The state in which a call enters `cache_PUT_new_entry`, if it does. -/
def newEntryState (s : KVState) : CacheCall → Option KVState
  | .get ptr =>
    match s.getSearch ptr.calculateKeyHash with
    | .ok (.load _, s') => some s'
    | _ => none
  | .put ptr =>
    match s.cache.findEntry ptr.calculateKeyHash with
    | .ok none => some s
    | _ => none
  | _ => none

/-- A full cache yields a victim, and the new entry has a node. -/
def YieldsNode (s : KVState) : Prop :=
  (s.cache.isFull = true → ∀ s', s.cacheEviction ≠ .ok (none, s')) ∧
    ∀ s', s.newInstance ≠ .ok (none, s')

variable {s s' : KVState} {L : Layout} {d : Dict} {n cacheSize : Nat}
  {files : Nat → Option (List UInt8)} {ptr : KVMessage} {a : CacheCall}

theorem newEntryState_eq (h : Wf s.cache L []) (ha : s.newEntryState a = some s') : s' = s := by
  cases a with
  | get ptr =>
    rw [newEntryState] at ha
    split at ha
    · rename_i ptr' s₁ hsearch
      obtain rfl := Option.some.inj ha
      rcases getSearch_ensures h ptr.calculateKeyHash _ hsearch with ⟨p, -, -, -, res, m, hdone⟩ |
        ⟨-, hs, -⟩
      · cases hdone
      · exact hs
    · cases ha
  | put ptr =>
    rw [newEntryState] at ha
    split at ha
    · exact (Option.some.inj ha).symm
    · cases ha
  | delete ptr => cases ha
  | evictionSimple => cases ha

theorem linked_ne_nil_of_full (h : Wf s.cache L [])
    (hn : s.cache.cacheNodeMemoryPool.allocated = n) (hpos : 0 < n)
    (hfull : s.cache.isFull = true) : L.linked ≠ [] := by
  intro hnil
  have hcount := h.count
  rw [hnil, (isFull_iff h).1 hfull, hn] at hcount
  simp only [List.length_nil] at hcount
  omega

/-- **With at least one node** a full cache yields a victim. -/
theorem yieldsNode_of_inv (h : CacheInv n s.cache) (hpos : 0 < n) : YieldsNode s := by
  obtain ⟨L, hwf, -, hn⟩ := h
  have hvictim : s.cache.isFull = true → ∀ s', s.cacheEviction ≠ .ok (none, s') := by
    intro hfull s' hev
    rcases cacheEviction_ensures hwf _ hev with ⟨-, hnil⟩ | ⟨p, e, hp, -⟩
    · exact linked_ne_nil_of_full hwf hn hpos hfull hnil
    · cases hp
  refine ⟨hvictim, ?_⟩
  intro s' hnew
  rw [newInstance] at hnew
  by_cases hfull : s.cache.isFull = true
  · rw [if_pos hfull] at hnew
    exact hvictim hfull s' hnew
  · rw [if_neg hfull] at hnew
    obtain ⟨p, pool, free', hacq, -⟩ := hwf.acquireInstance
    rw [hacq] at hnew
    cases hnew

/-- Over well-formed files the new entry does get its node, unless a write of the victim meets the
size limit of its file. -/
theorem newInstance_of_holds (h : Holds n s d) (hpos : 0 < n) (ha : s.newEntryState a = some s') :
    SucceedsUnlessFull s'.newInstance fun r => ∃ p, r.1 = some p := by
  obtain ⟨L, hrep, hn⟩ := h
  obtain rfl := newEntryState_eq hrep.wf ha
  refine (newInstance_spec hrep ?_).mono fun r hr => ?_
  · by_contra hne
    rw [not_or, not_not, not_not] at hne
    exact linked_ne_nil_of_full hrep.wf hn hpos ((isFull_iff hrep.wf).2 hne.2) hne.1
  · obtain ⟨p, -, hp, -⟩ := hr
    exact ⟨p, hp⟩

/-! ## Size 0 -/

theorem nextNonEmptyQueue_of_empty (k e : Nat) {c : KVCache}
    (h : ∀ q, (c.lruEvictionTable q).head = none) : (c.nextNonEmptyQueue k e).1 = none := by
  induction k generalizing c e with
  | zero => rw [KVCache.nextNonEmptyQueue, if_pos (h e)]
  | succ k ih =>
    rw [KVCache.nextNonEmptyQueue, if_pos (h e)]
    exact ih _ (c := c.getNextEvictionQueueIdx.2) h

theorem cacheEviction_of_empty (h : ∀ q, (s.cache.lruEvictionTable q).head = none) :
    ∃ s', s.cacheEviction = .ok (none, s') := by
  obtain ⟨c, hscan⟩ : ∃ c, s.cache.getNextEvictionQueueIdx.2.nextNonEmptyQueue cacheTableLen
      s.cache.getNextEvictionQueueIdx.1 = (none, c) :=
    ⟨_, Prod.ext (nextNonEmptyQueue_of_empty cacheTableLen _
      (c := s.cache.getNextEvictionQueueIdx.2) h) rfl⟩
  exact ⟨{ s with cache := c }, cacheEviction_of_none hscan⟩

/-- The server starts with as many free nodes as the cache has, and with empty lists. -/
theorem start_empty (cacheSize : Nat) (files : Nat → Option (List UInt8)) :
    ∃ s, start cacheSize files = .ok s ∧ s.cache.cacheNodeMemoryPool.n = cacheSize ∧
      (∀ q, (s.cache.lruEvictionTable q).head = none) ∧
      ∀ ptr, s.cache.findEntry ptr = .ok none := by
  obtain ⟨pool, hpool, hrep, -⟩ := MemoryPool.rep_init cacheSize 2
  refine ⟨_, by rw [start, KVCache.new, hpool]; rfl, ?_, fun _ => rfl, fun ptr => ?_⟩
  · exact hrep.count.trans List.length_range
  · rw [KVCache.findEntry]
    cases pool.allocated <;> rfl

/-- With size 0 the first `cache_PUT` gets no node. -/
theorem put_of_size_zero (files : Nat → Option (List UInt8)) (ptr : KVMessage) :
    ∃ s, start 0 files = .ok s ∧ s.newEntryState (.put ptr) = some s ∧ s.cache.isFull = true ∧
      (∃ s', s.cacheEviction = .ok (none, s')) ∧ s.call (.put ptr) = .error .nullPointer := by
  obtain ⟨s, hs, hn, hempty, hfind⟩ := start_empty 0 files
  have hfull : s.cache.isFull = true := by rw [KVCache.isFull, hn]; rfl
  obtain ⟨s', hev⟩ := cacheEviction_of_empty hempty
  refine ⟨s, hs, by rw [newEntryState, hfind], hfull, ⟨s', hev⟩, ?_⟩
  rw [call, cachePUT, hfind, ok_bind]
  dsimp only
  rw [cachePUTNewEntry, newInstance, if_pos hfull, hev]
  rfl

/-- **A full cache yields a victim** in every run, exactly when the cache has a node at all. -/
theorem full_cache_yields_victim_iff (cacheSize : Nat) (files : Nat → Option (List UInt8)) :
    (∀ s, start cacheSize files = .ok s → ∀ cs r, calls call s cs = .ok r →
      ∀ a s', r.2.newEntryState a = some s' → YieldsNode s') ↔ 1 ≤ cacheSize := by
  constructor
  · intro h
    by_contra hzero
    obtain rfl : cacheSize = 0 := by omega
    obtain ⟨s, hs, hentry, hfull, ⟨s', hev⟩, -⟩ := put_of_size_zero files .empty
    exact (h s hs [] ([], s) rfl (.put .empty) s hentry).1 hfull s' hev
  · intro hsize s hs cs r hr a s' ha
    obtain ⟨c, hc, hwf, halloc⟩ := Wf.new hsize
    have hstart : start cacheSize files = .ok ⟨c, KVStore.initKvstore files⟩ := by
      rw [start, hc]; rfl
    obtain rfl := Except.ok.inj (hstart.symm.trans hs)
    have hinv : CacheInv cacheSize r.2.cache :=
      calls_ensures (I := fun s : KVState => CacheInv cacheSize s.cache)
        (fun _ a h => call_ensures h a) cs
        ⟨_, hwf, fun _ hp => (List.not_mem_nil hp).elim, halloc⟩ r hr
    obtain ⟨L, hL, -⟩ := id hinv
    obtain rfl := newEntryState_eq hL ha
    exact yieldsNode_of_inv hinv hsize

/-- A server with `CACHE_SIZE` 0 and no files, at its first PUT. -/
theorem full_cache_without_victim : ∃ s, start 0 (fun _ => none) = .ok s ∧
    s.newEntryState (.put .empty) = some s ∧ s.cache.isFull = true ∧
    (∃ s', s.cacheEviction = .ok (none, s')) ∧ s.call (.put .empty) = .error .nullPointer :=
  put_of_size_zero _ _

end KVState

end KeyValueStore
