import KeyValueStore.CacheRefinement

/-!
# The operations of one thread

Between two operations no node is held. `Holds n s d` says that the state represents `d` with all
`n` nodes linked or free; every operation keeps it, for the dictionary its specification yields.

`cache_eviction` is called on a full cache, where it finds a victim (`cacheEviction_spec`), and by
`cache_clean`, where it returns null when and only when every queue is empty
(`cacheEviction_empty`).
-/

namespace KeyValueStore

open Run

variable {s : KVState} {c : KVCache} {L : Layout} {held : List NodePtr} {d : Dict} {ptr : KVMessage}

namespace KVState

/-! ## Eviction -/

theorem Represents.setCounters (h : Represents s L held d) (i j : Nat) :
    Represents { s with cache := { s.cache with lruEvictionIdx := i, lruTableInsertIdx := j } }
      L held d :=
  h.congr (h.wf.setCounters i j) (fun _ => Iff.rfl) (fun _ _ => rfl) fun _ _ => rfl

/-- What an eviction leaves: the victim is held and the dictionary what it was. -/
def Flushed (s : KVState) (L : Layout) (held : List NodePtr) (d : Dict) (p : NodePtr)
    (s' : KVState) : Prop :=
  p ∈ L.linked ∧ ∃ L', Represents s' L' (p :: held) d ∧ L'.linked = L.linked.erase p ∧
    s'.cache.message = s.cache.message ∧
    s'.cache.cacheNodeMemoryPool = s.cache.cacheNodeMemoryPool

/-- The locked section on a queue that has a head. -/
theorem evict_spec (h : Represents s L held d) {e : Nat}
    (hh : (s.cache.lruEvictionTable e).head ≠ none) :
    ∃ hqIdx, s.cache.victimBucket e = .ok hqIdx ∧
      SucceedsUnlessFull (s.evictLocked e hqIdx) fun r =>
        ∃ p, r.1 = some p ∧ Flushed s L held d p r.2 := by
  obtain ⟨p, htail⟩ := h.wf.tail_of_head hh
  refine ⟨hashTableIdx (s.cache.message p), by rw [KVCache.victimBucket, htail], ?_⟩
  refine (evictLocked_spec h htail).mono fun r hr => ?_
  obtain ⟨hp, hrep, hcache⟩ := hr
  refine ⟨p, hp, (h.wf.tail_linked htail).1, _, hrep, rfl, ?_, ?_⟩
  · rw [hcache]
    rfl
  · rw [hcache]
    rfl

/-- **`cache_eviction` evicts a node** when there is one. -/
theorem cacheEviction_spec (h : Represents s L held d) (hne : L.linked ≠ []) :
    SucceedsUnlessFull s.cacheEviction fun r => ∃ p, r.1 = some p ∧ Flushed s L held d p r.2 := by
  obtain ⟨i, ⟨e, hscan, hh⟩ | ⟨-, hnil⟩⟩ := scan_eq h.wf
  · have hrep := Represents.setCounters h i s.cache.lruTableInsertIdx
    obtain ⟨hqIdx, hv, hev⟩ := evict_spec hrep hh
    rw [cacheEviction_of_some hscan hv fun r hr => (hev.of_ok hr).imp fun p hp => hp.1]
    exact hev
  · exact absurd hnil hne

/-- **`cache_eviction` of an empty cache** returns null. -/
theorem cacheEviction_empty (h : Represents s L held d) (hnil : L.linked = []) :
    ∃ i, s.cacheEviction =
      .ok (none, { s with cache := { s.cache with lruEvictionIdx := i } }) := by
  obtain ⟨i, ⟨e, -, hh⟩ | ⟨hscan, -⟩⟩ := scan_eq h.wf
  · obtain ⟨p, htail⟩ := h.wf.tail_of_head hh
    have hp := (h.wf.tail_linked htail).1
    rw [hnil] at hp
    cases hp
  · exact ⟨i, cacheEviction_of_none hscan⟩

/-! ## New nodes -/

/-- **A node for a new entry**: from the pool, or a victim if the pool is empty. -/
theorem newInstance_spec (h : Represents s L held d) (hne : L.linked ≠ [] ∨ L.free ≠ []) :
    SucceedsUnlessFull s.newInstance fun r => ∃ p L', r.1 = some p ∧
      Represents r.2 L' (p :: held) d ∧ (∀ q ∈ L'.linked, q ∈ L.linked) ∧
      r.2.cache.message = s.cache.message ∧
      r.2.cache.cacheNodeMemoryPool.allocated = s.cache.cacheNodeMemoryPool.allocated := by
  rw [newInstance]
  by_cases hfull : s.cache.isFull = true
  · rw [if_pos hfull]
    have hlinked := hne.resolve_right fun hf => hf ((isFull_iff h.wf).1 hfull)
    refine (cacheEviction_spec h hlinked).mono fun r hr => ?_
    obtain ⟨p, hp, -, L', hrep, hL', hmsg, hpool⟩ := hr
    refine ⟨p, L', hp, hrep, fun q hq => ?_, hmsg, by rw [hpool]⟩
    rw [hL'] at hq
    exact List.mem_of_mem_erase hq
  · rw [if_neg hfull]
    obtain ⟨p, c, L', hacq, hrep, hL', hmsg, -, -, halloc⟩ := acquireInstance_spec h
    refine Or.inr ⟨(some p, { s with cache := c }), ?_, p, L', rfl, hrep, fun q hq => hL' ▸ hq,
      hmsg, halloc fun hfree => hfull ((isFull_iff h.wf).2 hfree)⟩
    show (s.cache.acquireInstance).bind _ = _
    rw [hacq]
    rfl

/-- All `n` nodes are linked or free, and the state represents `d`. -/
def Holds (n : Nat) (s : KVState) (d : Dict) : Prop :=
  ∃ L, Represents s L [] d ∧ s.cache.cacheNodeMemoryPool.allocated = n

variable {n : Nat}

/-- **`cache_PUT_new_entry`** sets a key that has no node. -/
theorem cachePUTNewEntry_spec (h : Represents s L [] d)
    (hn : s.cache.cacheNodeMemoryPool.allocated = n) (hpos : 0 < n)
    (hptr : ptr.triple = tripleOf ptr.key)
    (hfresh : ∀ q ∈ L.linked, (s.cache.message q).key ≠ ptr.key) :
    SucceedsUnlessFull (s.cachePUTNewEntry ptr (hashTableIdx ptr)) fun r =>
      Holds n r.2 (Function.update d ptr.key (some ptr.value)) := by
  have hcount := h.wf.count
  have hne : L.linked ≠ [] ∨ L.free ≠ [] := by
    by_contra hcon
    rw [not_or, not_not, not_not] at hcon
    rw [hcon.1, hcon.2, hn] at hcount
    exact absurd hcount (by simp; omega)
  rw [cachePUTNewEntry]
  refine (newInstance_spec h hne).bind fun r hr => ?_
  obtain ⟨res, s₁⟩ := r
  obtain ⟨p, L₁, rfl, hrep₁, hsub, hmsg, halloc⟩ := hr
  have hp : p ∈ [p] := List.mem_singleton_self p
  obtain ⟨hrep₂, hlt⟩ := fill_spec hrep₁ hp ptr
  have hmsgp := s₁.cache.fill_message_self p ptr
  have hout := hrep₁.wf.not_linked_of_held hp
  have hlink := link_spec hrep₂ hp (i := hashTableIdx ptr) (q := (s₁.cache.fill ptr p).1)
    (by rw [hmsgp]; rfl) (s₁.cache.fill_lruIdx_self p ptr) hlt (by rw [hmsgp]; exact hptr)
    (s₁.cache.fill_dirtyBit_self p ptr) (fun x hx => by
      rw [hmsgp, s₁.cache.fill_message_of_ne p ptr (ne_of_mem_of_not_mem hx hout), hmsg]
      exact hfresh x (hsub x hx))
  simp only [hmsgp, List.erase_cons_head] at hlink
  exact Excused.ok ⟨_, hlink, halloc.trans hn⟩

/-! ## The requests -/

theorem cacheGETPtr_spec (h : Holds n s d) (hpos : 0 < n) (ptr : KVMessage) :
    SucceedsUnlessFull (s.cacheGETPtr ptr) fun r =>
      (r.1.isSome, r.2.1) = dictGet d ptr.calculateKeyHash ∧ Holds n r.2.2 d := by
  obtain ⟨L, hrep, hn⟩ := h
  obtain ⟨r, s₁, L₁, hget, hrep₁, hL₁, hsame, hstore, hr⟩ :=
    getSearch_spec hrep ptr.calculateKeyHash rfl
  have hn₁ : s₁.cache.cacheNodeMemoryPool.allocated = n := by rw [hsame.pool, hn]
  rw [cacheGETPtr, hget]
  cases r with
  | done res ptr' => exact Or.inr ⟨(res, ptr', s₁), rfl, hr, L₁, hrep₁, hn₁⟩
  | load ptr' =>
    obtain ⟨hload, rfl, hfresh⟩ := hr
    obtain ⟨v, hv, hptr'⟩ := dictGet_eq_true.1 hload.symm
    have hkey : ptr'.key = ptr.key := by rw [hptr']; rfl
    have hval : d ptr.key = some ptr'.value := by rw [hptr']; exact hv
    have hptr : ptr'.triple = tripleOf ptr'.key := by rw [hptr']; rfl
    have hput := cachePUTNewEntry_spec hrep hn hpos hptr (by rw [hkey]; exact hfresh)
    rw [hkey, ← hval, Function.update_eq_self] at hput
    show SucceedsUnlessFull ((s₁.cachePUTNewEntry ptr' (hashTableIdx ptr')).bind _) _
    exact hput.bind fun r hr => Excused.ok ⟨hload, hr⟩

/-- **`cache_GET`** answers from the dictionary. -/
theorem cacheGET_spec (h : Holds n s d) (hpos : 0 < n) (ptr : KVMessage) :
    SucceedsUnlessFull (s.cacheGET ptr) fun r =>
      (r.1, r.2.1) = dictGet d ptr.calculateKeyHash ∧ Holds n r.2.2 d :=
  (cacheGETPtr_spec h hpos ptr).bind fun _ hr => Excused.ok hr

/-- **`cache_PUT`** sets the key. -/
theorem cachePUT_spec (h : Holds n s d) (hpos : 0 < n) (ptr : KVMessage) :
    SucceedsUnlessFull (s.cachePUT ptr) fun s' =>
      Holds n s' (Function.update d ptr.key (some ptr.value)) := by
  obtain ⟨L, hrep, hn⟩ := h
  obtain ⟨found, hf⟩ := hrep.wf.findEntry_ok ptr.calculateKeyHash
  rw [cachePUT, hf, ok_bind]
  cases found with
  | some p =>
    obtain ⟨hp, htriple⟩ := hrep.wf.findEntry_some hf
    obtain ⟨s', L', hput, hrep', -, hsame, -⟩ :=
      upgradePut_spec hrep hp (congrArg Triple.key htriple)
    exact Or.inr ⟨s', hput, L', hrep', by rw [hsame.pool]; exact hn⟩
  | none =>
    have hfresh := hrep.key_ne ptr.calculateKeyHash rfl hf
    exact (cachePUTNewEntry_spec hrep hn hpos rfl hfresh).bind fun r hr => Excused.ok hr

/-- **`cache_DELETE`** says whether the key is there, and removes it. -/
theorem cacheDELETE_spec (h : Holds n s d) (ptr : KVMessage) :
    ∃ s', s.cacheDELETE ptr = .ok ((d ptr.key).isSome, s') ∧
      Holds n s' (Function.update d ptr.key none) := by
  obtain ⟨L, hrep, hn⟩ := h
  obtain ⟨r, s₁, hdel, hcache, hr⟩ := deleteSearch_spec hrep ptr.calculateKeyHash rfl
  rw [cacheDELETE, hdel, ok_bind]
  cases r with
  | done res =>
    obtain ⟨rfl, hrep₁⟩ := hr
    exact ⟨s₁, rfl, L, hrep₁, by rw [hcache, hn]⟩
  | upgrade p =>
    obtain ⟨rfl, hp, htriple⟩ := hr
    have hkey : (s₁.cache.message p).key = ptr.key := congrArg Triple.key htriple
    obtain ⟨s', L', hup, hrep', -, hsame, -⟩ := upgradeDelete_spec hrep hp
    rw [hkey] at hup hrep'
    refine ⟨s', ?_, L', hrep', by rw [hsame.pool]; exact hn⟩
    simp only [hup, ok_bind]
    rfl

/-! ## Evicting without need -/

theorem Represents.release (h : Represents s L held d) {p : NodePtr} (hp : p ∈ held) :
    ∃ c L', s.cache.releaseInstance p = .ok c ∧
      Represents { s with cache := c } L' (held.erase p) d ∧
      c.cacheNodeMemoryPool.allocated = s.cache.cacheNodeMemoryPool.allocated := by
  obtain ⟨pool, hrel, hwf, halloc⟩ := h.wf.releaseInstance hp
  exact ⟨_, _, hrel, h.congr hwf (fun _ => Iff.rfl) (fun _ _ => rfl) fun _ _ => rfl, halloc⟩

theorem cacheEvictionSimpleLoop_spec (h : Holds n s d) (k : Nat) :
    SucceedsUnlessFull (s.cacheEvictionSimpleLoop k) fun s' => Holds n s' d := by
  induction k generalizing s with
  | zero => exact Excused.ok h
  | succ k ih =>
    obtain ⟨L, hrep, hn⟩ := h
    have hrep₁ : Represents { s with cache := s.cache.getNextEvictionQueueIdx.2 } L [] d :=
      Represents.setCounters hrep _ s.cache.lruTableInsertIdx
    have hn₁ : s.cache.getNextEvictionQueueIdx.2.cacheNodeMemoryPool.allocated = n := hn
    rw [cacheEvictionSimpleLoop]
    generalize s.cache.getNextEvictionQueueIdx = next at hrep₁ hn₁
    obtain ⟨e, c⟩ := next
    dsimp only at hrep₁ hn₁ ⊢
    by_cases hh : (c.lruEvictionTable e).head = none
    · rw [if_pos hh]
      exact ih ⟨L, hrep₁, hn₁⟩
    · rw [if_neg hh]
      obtain ⟨hqIdx, hv, hev⟩ := evict_spec hrep₁ hh
      rw [hv, ok_bind]
      refine hev.bind fun r hr => ?_
      obtain ⟨res, s₁⟩ := r
      obtain ⟨p, rfl, -, L₁, hrep₂, -, -, hpool⟩ := hr
      obtain ⟨c', L₂, hrel, hrep₃, halloc⟩ := Represents.release hrep₂ (List.mem_singleton_self p)
      rw [List.erase_cons_head] at hrep₃
      show SucceedsUnlessFull ((s₁.cache.releaseInstance p).bind _) _
      rw [hrel]
      refine ih ⟨L₂, hrep₃, ?_⟩
      rw [halloc, hpool]
      exact hn₁

/-- **`cache_eviction_simple`** does not touch the dictionary. -/
theorem cacheEvictionSimple_spec (h : Holds n s d) :
    SucceedsUnlessFull s.cacheEvictionSimple fun s' => Holds n s' d :=
  cacheEvictionSimpleLoop_spec h 10

/-- **`cache_clean`** ends after one call more than there are nodes, with no node linked. -/
theorem cacheClean_spec (h : Represents s L held d) :
    ∃ x, (∀ fuel > L.linked.length, s.cacheClean fuel = x) ∧
      SucceedsUnlessFull x fun s' => ∃ L' held', Represents s' L' held' d ∧ L'.linked = [] := by
  generalize hm : L.linked.length = m
  induction m generalizing s L held with
  | zero =>
    have hnil := List.length_eq_zero_iff.1 hm
    obtain ⟨i, hev⟩ := cacheEviction_empty h hnil
    refine ⟨_, fun fuel hfuel => ?_, Excused.ok ⟨L, held,
      Represents.setCounters h i s.cache.lruTableInsertIdx, hnil⟩⟩
    cases fuel with
    | zero => exact absurd hfuel (Nat.lt_irrefl 0)
    | succ fuel =>
      rw [cacheClean, hev]
      rfl
  | succ m ih =>
    have hne : L.linked ≠ [] := by
      intro hnil
      rw [hnil] at hm
      cases hm
    -- one eviction, and then the induction hypothesis for what it leaves
    rcases cacheEviction_spec h hne with hfull | ⟨⟨res, s₁⟩, hev, p, rfl, hp, L₁, hrep₁, hL₁, -⟩
    · refine ⟨.error .fileTooLarge, fun fuel hfuel => ?_, Or.inl rfl⟩
      cases fuel with
      | zero => exact absurd hfuel (Nat.not_lt_zero _)
      | succ fuel =>
        rw [cacheClean, hfull]
        rfl
    · have hlen : L₁.linked.length = m := by
        rw [hL₁, List.length_erase_of_mem hp, hm]
        rfl
      obtain ⟨x, hx, hspec⟩ := ih hrep₁ hlen
      refine ⟨x, fun fuel hfuel => ?_, hspec⟩
      cases fuel with
      | zero => exact absurd hfuel (Nat.not_lt_zero _)
      | succ fuel =>
        rw [cacheClean, hev]
        exact hx fuel (Nat.lt_of_succ_lt_succ hfuel)

end KVState

end KeyValueStore
