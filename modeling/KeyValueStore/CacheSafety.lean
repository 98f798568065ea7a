import KeyValueStore.CacheInvariant

/-!
# The cache over any store

What the operations do to the layout does not depend on what the store answers. Here the store is
arbitrary, and an operation is only considered if it returns.

* `evictLocked_ensures`, `getSearch_ensures`, … — the locked sections keep the layout.
* `CacheInv n c` — the representation invariant between two operations, with `n` nodes.
* `call_ensures` — every operation keeps it.
-/

namespace KeyValueStore

open Run

variable {s : KVState} {c : KVCache} {L : Layout} {held : List NodePtr} {p : NodePtr}
  {ptr : KVMessage}

/-! ## The round of the eviction queues -/

theorem round_robin {size e q : Nat} (he : e < size) (hq : q < size) :
    (e + (q + size - e) % size) % size = q := by
  rw [Nat.add_mod_mod, show e + (q + size - e) = q + size by omega, Nat.add_mod_right,
    Nat.mod_eq_of_lt hq]

/-- The loop stops at a queue with a head, or it has seen every queue it came to empty. -/
theorem nextNonEmptyQueue_eq (k : Nat) {e : Nat} (he : e < c.lruTableSize)
    (hidx : c.lruEvictionIdx = (e + 1) % c.lruTableSize) :
    ∃ i, (c.nextNonEmptyQueue k e).2 = { c with lruEvictionIdx := i } ∧
      ((∃ e', (c.nextNonEmptyQueue k e).1 = some e' ∧ (c.lruEvictionTable e').head ≠ none) ∨
       ((c.nextNonEmptyQueue k e).1 = none ∧
        ∀ j ≤ k, (c.lruEvictionTable ((e + j) % c.lruTableSize)).head = none)) := by
  induction k generalizing e c with
  | zero =>
    refine ⟨c.lruEvictionIdx, rfl, ?_⟩
    rw [KVCache.nextNonEmptyQueue]
    by_cases hh : (c.lruEvictionTable e).head = none
    · refine Or.inr ⟨if_pos hh, fun j hj => ?_⟩
      rwa [Nat.le_zero.1 hj, Nat.add_zero, Nat.mod_eq_of_lt he]
    · exact Or.inl ⟨e, if_neg hh, hh⟩
  | succ k ih =>
    rw [KVCache.nextNonEmptyQueue]
    -- an empty queue: the loop asks for the next index, that of the queue behind it
    by_cases hh : (c.lruEvictionTable e).head = none
    · rw [if_pos hh]
      have hnext : c.getNextEvictionQueueIdx.1 = (e + 1) % c.lruTableSize := by
        show c.lruEvictionIdx % c.lruTableSize = _
        rw [hidx, Nat.mod_mod]
      have hlt : c.getNextEvictionQueueIdx.1 < c.lruTableSize := Nat.mod_lt _ (by omega)
      obtain ⟨i, hc, hcase⟩ := ih (c := c.getNextEvictionQueueIdx.2) hlt (by
        show (c.lruEvictionIdx + 1) % c.lruTableSize = _
        rw [hidx, hnext]
        rfl)
      refine ⟨i, hc, hcase.imp_right fun hnone => ⟨hnone.1, fun j hj => ?_⟩⟩
      cases j with
      | zero => rwa [Nat.add_zero, Nat.mod_eq_of_lt he]
      | succ j =>
        have hj' : (c.lruEvictionTable
            ((c.getNextEvictionQueueIdx.1 + j) % c.lruTableSize)).head = none :=
          hnone.2 j (by omega)
        rwa [hnext, Nat.mod_add_mod, Nat.add_assoc, Nat.add_comm 1 j] at hj'
    · rw [if_neg hh]
      exact ⟨c.lruEvictionIdx, rfl, Or.inl ⟨e, rfl, hh⟩⟩

theorem nextNonEmptyQueue_none (h : Wf c L held)
    (hnone : (c.getNextEvictionQueueIdx.2.nextNonEmptyQueue cacheTableLen
      c.getNextEvictionQueueIdx.1).1 = none) : L.linked = [] := by
  have he : c.getNextEvictionQueueIdx.1 < c.lruTableSize := Nat.mod_lt _ h.tableSize_pos
  obtain ⟨-, -, hcase⟩ := nextNonEmptyQueue_eq (c := c.getNextEvictionQueueIdx.2) cacheTableLen he
    (Nat.mod_add_mod _ _ _).symm
  rcases hcase with ⟨e', hsome, -⟩ | ⟨-, hall⟩
  · rw [hnone] at hsome
    cases hsome
  · refine List.eq_nil_iff_forall_not_mem.2 fun p hp => ?_
    have hq := h.queue_lt p hp
    have hempty :=
      hall ((c.lruIdx p + c.lruTableSize - c.getNextEvictionQueueIdx.1) % c.lruTableSize)
      (le_trans (Nat.mod_lt _ h.tableSize_pos).le h.tableSize_le)
    have hround : (c.getNextEvictionQueueIdx.1 +
        (c.lruIdx p + c.lruTableSize - c.getNextEvictionQueueIdx.1) % c.lruTableSize) %
        c.getNextEvictionQueueIdx.2.lruTableSize = c.lruIdx p := round_robin he hq
    rw [hround] at hempty
    have hhead : (L.queue (c.lruIdx p)).head? = none := (h.head_eq _).symm.trans hempty
    have hmem := (h.mem_queue _ p).2 ⟨hp, rfl⟩
    rw [List.head?_eq_none_iff.1 hhead] at hmem
    cases hmem

/-- What the loop of `cache_eviction` finds: a queue with a head, or that no node is linked. -/
theorem scan_eq (h : Wf c L held) : ∃ i,
    (∃ e, c.getNextEvictionQueueIdx.2.nextNonEmptyQueue cacheTableLen c.getNextEvictionQueueIdx.1 =
      (some e, { c with lruEvictionIdx := i }) ∧ (c.lruEvictionTable e).head ≠ none) ∨
    c.getNextEvictionQueueIdx.2.nextNonEmptyQueue cacheTableLen c.getNextEvictionQueueIdx.1 =
      (none, { c with lruEvictionIdx := i }) ∧ L.linked = [] := by
  obtain ⟨i, hc, hcase⟩ := nextNonEmptyQueue_eq (c := c.getNextEvictionQueueIdx.2) cacheTableLen
    (Nat.mod_lt _ h.tableSize_pos) (Nat.mod_add_mod _ _ _).symm
  refine ⟨i, ?_⟩
  rcases hcase with ⟨e, hsome, hh⟩ | ⟨hnone, -⟩
  · exact Or.inl ⟨e, Prod.ext hsome hc, hh⟩
  · exact Or.inr ⟨Prod.ext hnone hc, nextNonEmptyQueue_none h hnone⟩

/-- The queue that `cache_eviction` selects. -/
def KVCache.evictionQueue (c : KVCache) : Option Nat :=
  (c.getNextEvictionQueueIdx.2.nextNonEmptyQueue cacheTableLen c.getNextEvictionQueueIdx.1).1

theorem Wf.tail_of_head (h : Wf c L held) {e : Nat} (hh : (c.lruEvictionTable e).head ≠ none) :
    ∃ p, (c.lruEvictionTable e).tail = some p := by
  rw [h.head_eq] at hh
  rw [h.tail_eq]
  cases hq : L.queue e with
  | nil => rw [hq] at hh; exact absurd rfl hh
  | cons x xs => exact ⟨_, List.getLast?_eq_getLast_of_ne_nil (List.cons_ne_nil x xs)⟩

/-! ## The locked sections -/

/-- No two linked nodes have the same key. -/
def DistinctKeys (c : KVCache) (L : Layout) : Prop :=
  ∀ p ∈ L.linked, ∀ p' ∈ L.linked, (c.message p).key = (c.message p').key → p = p'

theorem DistinctKeys.of_subset {c' : KVCache} {L' : Layout} (h : DistinctKeys c L)
    (hsub : ∀ p ∈ L'.linked, p ∈ L.linked)
    (hkey : ∀ p ∈ L'.linked, (c'.message p).key = (c.message p).key) : DistinctKeys c' L' := by
  intro p hp p' hp' heq
  rw [hkey p hp, hkey p' hp'] at heq
  exact h p (hsub p hp) p' (hsub p' hp') heq

/-- The node of a message's key, if it has one. -/
def KVCache.nodeOf (c : KVCache) (ptr : KVMessage) : Option NodePtr :=
  match c.findEntry ptr.calculateKeyHash with
  | .ok r => r
  | .error _ => none

theorem nodeOf_eq {r : Option NodePtr} (hf : c.findEntry ptr.calculateKeyHash = .ok r) :
    c.nodeOf ptr = r := by rw [KVCache.nodeOf, hf]

theorem nodeOf_eq_some (h : Wf c L held) (hd : DistinctKeys c L) (hp : p ∈ L.linked)
    (hkey : (c.message p).key = ptr.key) : c.nodeOf ptr = some p := by
  obtain ⟨r, hf⟩ := h.findEntry_ok ptr.calculateKeyHash
  rw [nodeOf_eq hf]
  cases r with
  | none =>
    refine absurd ?_ (h.findEntry_none hf p hp)
    rw [h.hashed p hp, hkey]
    rfl
  | some p' =>
    obtain ⟨hp', htriple⟩ := h.findEntry_some hf
    exact congrArg some (hd p' hp' p hp ((congrArg Triple.key htriple).trans hkey.symm))

theorem readFromDb_triple (store : KVStore) (ptr : KVMessage) :
    Ensures (store.readFromDb ptr) fun r => r.2.triple = ptr.triple := by
  rw [KVStore.readFromDb, KVStore.readFromDbIf]
  by_cases hbit : store.fileExistsStatus (KVStore.fileIdx ptr) = false
  · rw [if_pos hbit]
    exact Ensures.ok rfl
  · rw [if_neg hbit]
    cases store.openFile true (KVStore.fileIdx ptr) with
    | none => exact Ensures.ok rfl
    | some f =>
      refine (ensures_true (x := readValue f ptr)).bind fun v _ => ?_
      cases v with
      | none => exact Ensures.ok rfl
      | some v => exact Ensures.ok rfl

namespace KVState

theorem evictLocked_dirty {e : Nat} (htail : (s.cache.lruEvictionTable e).tail = some p)
    (hd : s.cache.dirtyBit p = .dirty) (i : Nat) :
    s.evictLocked e i = (s.store.writeToDb (s.cache.message p)).bind fun store =>
      .ok (some p, ⟨(s.cache.removeFromDllHT i p).removeFromDllLRU e p, store⟩) := by
  have hbit : ((s.cache.removeFromDllHT i p).removeFromDllLRU e p).dirtyBit p = .dirty := hd
  rw [evictLocked, htail]
  dsimp only
  rw [hd, if_neg (by decide), hbit]
  rfl

theorem evictLocked_toDelete {e : Nat} (htail : (s.cache.lruEvictionTable e).tail = some p)
    (hd : s.cache.dirtyBit p = .toDelete) (i : Nat) :
    s.evictLocked e i = (s.store.deleteFromDb (s.cache.message p)).bind fun r =>
      .ok (some p, ⟨(s.cache.removeFromDllHT i p).removeFromDllLRU e p, r.2⟩) := by
  have hbit : ((s.cache.removeFromDllHT i p).removeFromDllLRU e p).dirtyBit p = .toDelete := hd
  rw [evictLocked, htail]
  dsimp only
  rw [hd, if_neg (by decide), hbit]
  rfl

theorem evictLocked_ensures (h : Wf s.cache L held) {e : Nat}
    (htail : (s.cache.lruEvictionTable e).tail = some p) :
    Ensures (s.evictLocked e (hashTableIdx (s.cache.message p))) fun r =>
      r.1 = some p ∧ Wf r.2.cache (Wf.unlinked s.cache L p) (p :: held) ∧
      r.2.cache =
        (s.cache.removeFromDllHT (hashTableIdx (s.cache.message p)) p).removeFromDllLRU e p := by
  obtain ⟨hp, rfl⟩ := h.tail_linked htail
  have hwf := h.unlink hp
  rcases h.present p hp with hd | hd
  · rw [evictLocked_dirty htail hd]
    exact ensures_true.bind fun store _ => Ensures.ok ⟨rfl, hwf, rfl⟩
  · rw [evictLocked_toDelete htail hd]
    exact ensures_true.bind fun r _ => Ensures.ok ⟨rfl, hwf, rfl⟩

/-- The search of `cache_GET` moves the node it finds, or asks the store. -/
theorem getSearch_ensures (h : Wf s.cache L held) (ptr : KVMessage) :
    Ensures (s.getSearch ptr) fun r =>
      (∃ p ∈ L.linked, s.cache.findEntry ptr = .ok (some p) ∧
        s.cache.moveToHeadLRU p = .ok r.2.cache ∧ ∃ res ptr', r.1 = .done res ptr') ∨
      (s.cache.findEntry ptr = .ok none ∧ r.2 = s ∧
        ∀ ptr', r.1 = .load ptr' → ptr'.triple = ptr.triple) := by
  obtain ⟨found, hf⟩ := h.findEntry_ok ptr
  rw [getSearch, hf, ok_bind]
  cases found with
  | some p =>
    obtain ⟨hp, -⟩ := h.findEntry_some hf
    obtain ⟨c, hc, -⟩ := h.moveToHeadLRU hp
    simp only [hc, ok_bind]
    exact Ensures.ok (Or.inl ⟨p, hp, rfl, hc, _, _, rfl⟩)
  | none =>
    refine (readFromDb_triple s.store ptr).bind fun r hr => Ensures.ok (Or.inr ⟨rfl, rfl, ?_⟩)
    obtain ⟨found, ptr'⟩ := r
    intro ptr'' hload
    cases found with
    | false => cases hload
    | true => exact GetSearch.load.inj hload ▸ hr

theorem deleteSearch_ensures (h : Wf s.cache L held) (ptr : KVMessage) :
    Ensures (s.deleteSearch ptr) fun r => r.2.cache = s.cache ∧
      match r.1 with
      | .done _ => ∀ p, s.cache.findEntry ptr = .ok (some p) → s.cache.dirtyBit p = .toDelete
      | .upgrade p => s.cache.findEntry ptr = .ok (some p) ∧ s.cache.dirtyBit p ≠ .toDelete ∧
          p ∈ L.linked ∧ (s.cache.message p).triple = ptr.triple := by
  obtain ⟨found, hf⟩ := h.findEntry_ok ptr
  rw [deleteSearch, hf, ok_bind]
  cases found with
  | some p =>
    have hmatch := h.findEntry_some hf
    rcases h.present p hmatch.1 with hd | hd
    · simp only [hd]
      exact Ensures.ok ⟨rfl, rfl, by rw [hd]; decide, hmatch⟩
    · simp only [hd]
      refine Ensures.ok ⟨rfl, fun q hq => ?_⟩
      obtain rfl := Option.some.inj (Except.ok.inj hq)
      exact hd
  | none => exact ensures_true.bind fun r _ => Ensures.ok ⟨rfl, nofun⟩

theorem setValue_key (c : KVCache) (p : NodePtr) (v : Chars256) (q : NodePtr) :
    ((c.setValue p v).message q).key = (c.message q).key := by
  by_cases hq : q = p
  · rw [hq]
    simp [KVCache.setValue]
  · simp [KVCache.setValue, hq]

/-- Whatever the upgrade of `cache_PUT` does to the dirty bit of a linked node, it ends up dirty. -/
theorem upgradePut_dirtyBit (h : Wf s.cache L held) (hp : p ∈ L.linked) (ptr : KVMessage) :
    (if ptr.value = (s.cache.message p).value then
      if s.cache.dirtyBit p = .toDelete then s.cache.setDirtyBit p .dirty else s.cache
    else s.cache.setDirtyBit p .dirty) = s.cache.setDirtyBit p .dirty := by
  split_ifs with hv hd
  · rfl
  · have hdirty := (h.present p hp).resolve_right hd
    rw [KVCache.setDirtyBit, Function.update_eq_self_iff.2 hdirty.symm]
  · rfl

theorem upgradePut_eq (h : Wf s.cache L held) (hp : p ∈ L.linked) (ptr : KVMessage) :
    s.upgradePut ptr p =
      (((s.cache.setDirtyBit p .dirty).setValue p ptr.value).moveToHeadLRU p).bind fun c =>
        .ok { s with cache := c } := by
  rw [upgradePut, if_neg (h.notInCache_ne hp), upgradePut_dirtyBit h hp]
  rfl

theorem upgradeDelete_eq (h : Wf s.cache L held) (hp : p ∈ L.linked) :
    s.upgradeDelete p =
      if s.cache.dirtyBit p = .toDelete then .ok (some false, s)
      else ((s.cache.setDirtyBit p .toDelete).moveToHeadLRU p).bind fun c =>
        .ok (some true, { s with cache := c }) := by
  rw [upgradeDelete]
  rcases h.present p hp with hdirty | hdirty
  · simp only [hdirty]
    rfl
  · simp only [hdirty]
    rfl

/-- What an upgrade leaves: its node is at the head of its queue. -/
structure Upgraded (c : KVCache) (L : Layout) (held : List NodePtr) (p : NodePtr) (c' : KVCache) :
    Prop where
  wf : Wf c' (Wf.touched c L p) held
  key : ∀ q, (c'.message q).key = (c.message q).key
  size : c'.lruTableSize = c.lruTableSize
  pool : c'.cacheNodeMemoryPool = c.cacheNodeMemoryPool

theorem upgradePut_ensures (h : Wf s.cache L held) (hp : p ∈ L.linked) (ptr : KVMessage) :
    Ensures (s.upgradePut ptr p) fun s' => Upgraded s.cache L held p s'.cache := by
  have hwf := (h.setDirtyBit (p := p) (Or.inl rfl)).setValue (p := p) ptr.value
  obtain ⟨c, hc, hwf', hsame⟩ := hwf.moveToHeadLRU hp
  rw [upgradePut_eq h hp, hc]
  refine Ensures.ok ⟨hwf', fun q => ?_, hsame.lruTableSize, hsame.pool⟩
  rw [hsame.message, setValue_key]
  rfl

theorem upgradeDelete_ensures (h : Wf s.cache L held) (hp : p ∈ L.linked)
    (hd : s.cache.dirtyBit p ≠ .toDelete) :
    Ensures (s.upgradeDelete p) fun r => r.1.isSome ∧
      Upgraded s.cache L held p r.2.cache := by
  rw [upgradeDelete_eq h hp, if_neg hd]
  obtain ⟨c, hc, hwf, hsame⟩ := (h.setDirtyBit (p := p) (Or.inr rfl)).moveToHeadLRU hp
  rw [hc]
  refine Ensures.ok ⟨rfl, hwf, fun q => ?_, hsame.lruTableSize, hsame.pool⟩
  rw [hsame.message]
  rfl

/-! ## Evictions -/

/-- What an eviction leaves: the last node of queue `e` is held, and nothing else has changed. -/
structure Evicted (c : KVCache) (L : Layout) (held : List NodePtr) (e : Nat) (p : NodePtr)
    (c' : KVCache) : Prop where
  last : (L.queue e).getLast? = some p
  wf : Wf c' (Wf.unlinked c L p) (p :: held)
  same : SameNodes c c'

theorem Evicted.linked {c' : KVCache} {e : Nat} (h : Wf c L held) (hev : Evicted c L held e p c') :
    p ∈ L.linked := ((h.mem_queue e p).1 (List.mem_of_getLast? hev.last)).1

theorem evict_ensures (h : Wf s.cache L held) {e : Nat}
    (hh : (s.cache.lruEvictionTable e).head ≠ none) :
    ∃ hqIdx, s.cache.victimBucket e = .ok hqIdx ∧
      Ensures (s.evictLocked e hqIdx) fun r =>
        ∃ p, r.1 = some p ∧ Evicted s.cache L held e p r.2.cache := by
  obtain ⟨p, htail⟩ := h.tail_of_head hh
  refine ⟨hashTableIdx (s.cache.message p), by rw [KVCache.victimBucket, htail], ?_⟩
  refine (evictLocked_ensures h htail).mono fun r hr => ?_
  obtain ⟨hp, hwf, hcache⟩ := hr
  refine ⟨p, hp, (h.tail_eq e).symm.trans htail, hwf, ?_⟩
  rw [hcache]
  exact ⟨rfl, rfl, rfl, rfl, rfl⟩

theorem cacheEviction_of_none (hscan : s.cache.getNextEvictionQueueIdx.2.nextNonEmptyQueue
    cacheTableLen s.cache.getNextEvictionQueueIdx.1 = (none, c)) :
    s.cacheEviction = .ok (none, { s with cache := c }) := by
  rw [cacheEviction, cacheEvictionFrom]
  dsimp only
  rw [hscan]
  rfl

/-- `cache_eviction` is the locked section on the queue it finds, if that takes a node. -/
theorem cacheEviction_of_some {e hqIdx : Nat}
    (hscan : s.cache.getNextEvictionQueueIdx.2.nextNonEmptyQueue cacheTableLen
      s.cache.getNextEvictionQueueIdx.1 = (some e, c)) (hv : c.victimBucket e = .ok hqIdx)
    (htakes : Ensures (evictLocked { s with cache := c } e hqIdx) fun r => ∃ p, r.1 = some p) :
    s.cacheEviction = evictLocked { s with cache := c } e hqIdx := by
  rw [cacheEviction, cacheEvictionFrom]
  dsimp only
  rw [hscan]
  dsimp only
  rw [hv, ok_bind]
  cases hev : evictLocked { s with cache := c } e hqIdx with
  | error err => rfl
  | ok r =>
    obtain ⟨res, s'⟩ := r
    obtain ⟨p, rfl⟩ := htakes _ hev
    rfl

/-- `cache_eviction` evicts the last node of the queue it selects. -/
theorem cacheEviction_ensures (h : Wf s.cache L held) :
    Ensures s.cacheEviction fun r => (r.1 = none ∧ L.linked = []) ∨
      ∃ p e, r.1 = some p ∧ s.cache.evictionQueue = some e ∧
        Evicted s.cache L held e p r.2.cache := by
  obtain ⟨i, ⟨e, hscan, hh⟩ | ⟨hscan, hnil⟩⟩ := scan_eq h
  · have hwf := h.setCounters i s.cache.lruTableInsertIdx
    obtain ⟨hqIdx, hv, hev⟩ := evict_ensures (s := ⟨_, s.store⟩) hwf hh
    have htakes := hev.mono fun r hr => Exists.imp (fun p hp => hp.1) hr
    rw [cacheEviction_of_some hscan hv htakes, KVCache.evictionQueue, hscan]
    refine hev.mono fun r hr => ?_
    obtain ⟨p, hp, hlast, hwf', hsame⟩ := hr
    exact Or.inr ⟨p, e, hp, rfl, hlast, hwf', hsame.message, hsame.dirtyBit, hsame.lruIdx,
      hsame.lruTableSize, hsame.pool⟩
  · rw [cacheEviction_of_none hscan]
    exact Ensures.ok (Or.inl ⟨rfl, hnil⟩)

theorem isFull_iff (h : Wf c L held) : c.isFull = true ↔ L.free = [] := by
  rw [KVCache.isFull, beq_iff_eq, h.pool.count, List.length_eq_zero_iff]

/-- Where `cache_PUT_new_entry` has its node from. -/
inductive NewNode (c : KVCache) (L : Layout) (held : List NodePtr) (p : NodePtr) (c' : KVCache) :
    Prop
  | acquired (free' : List NodePtr) (hfree : L.free ≠ [])
    (hwf : Wf c' { L with free := free' } (p :: held)) (hmsg : c'.message = c.message)
    (hsize : c'.lruTableSize = c.lruTableSize)
    (halloc : c'.cacheNodeMemoryPool.allocated = c.cacheNodeMemoryPool.allocated)
  | evicted (e : Nat) (hfull : L.free = []) (hev : Evicted c L held e p c')

theorem newInstance_ensures (h : Wf s.cache L held) :
    Ensures s.newInstance fun r => ∀ p, r.1 = some p → NewNode s.cache L held p r.2.cache := by
  rw [newInstance]
  by_cases hfull : s.cache.isFull = true
  · rw [if_pos hfull]
    refine (cacheEviction_ensures h).mono fun r hr p hp => ?_
    rcases hr with ⟨hnone, -⟩ | ⟨p', e, hp', -, hev⟩
    · rw [hnone] at hp
      cases hp
    · obtain rfl := Option.some.inj (hp'.symm.trans hp)
      exact .evicted e ((isFull_iff h).1 hfull) hev
  · rw [if_neg hfull]
    have hfree : L.free ≠ [] := fun hfree => hfull ((isFull_iff h).2 hfree)
    obtain ⟨p, pool, free', hacq, hwf, halloc⟩ := h.acquireInstance
    rw [hacq]
    refine Ensures.ok fun q hq => ?_
    obtain rfl := Option.some.inj hq
    exact .acquired free' hfree hwf rfl rfl (halloc hfree)

/-! ## What an operation does to the nodes -/

/-- **The effect of an operation** on the layout, and the node that it touches: one that it hits, or
one that it fills and links in, from the pool or from the end of a queue. -/
inductive Edit (c : KVCache) (L : Layout) (c' : KVCache) (L' : Layout) : Option NodePtr → Prop
  | keep (hlinked : L'.linked = L.linked) (hqueue : L'.queue = L.queue)
    (hkey : ∀ x ∈ L.linked, (c'.message x).key = (c.message x).key) : Edit c L c' L' none
  | hit {p : NodePtr} (hp : p ∈ L.linked) (hlinked : L'.linked = L.linked)
    (hqueue : L'.queue = (Wf.touched c L p).queue)
    (hkey : ∀ x ∈ L.linked, (c'.message x).key = (c.message x).key) : Edit c L c' L' (some p)
  | insert {p : NodePtr} (q : Nat) (hfree : L.free ≠ []) (hp : p ∉ L.linked)
    (hlinked : L'.linked = p :: L.linked)
    (hqueue : L'.queue = Function.update L.queue q (p :: L.queue q))
    (hkey : ∀ x ∈ L.linked, (c'.message x).key = (c.message x).key)
    (hfresh : ∀ x ∈ L.linked, (c.message x).key ≠ (c'.message p).key) : Edit c L c' L' (some p)
  | replace {p : NodePtr} (e q : Nat) (hfull : L.free = []) (hp : p ∈ L.linked)
    (hlast : (L.queue e).getLast? = some p) (hlinked : L'.linked = p :: L.linked.erase p)
    (hqueue : L'.queue = Function.update (Wf.unlinked c L p).queue q
      (p :: (Wf.unlinked c L p).queue q))
    (hkey : ∀ x ∈ L.linked, x ≠ p → (c'.message x).key = (c.message x).key)
    (hfresh : ∀ x ∈ L.linked, (c.message x).key ≠ (c'.message p).key) : Edit c L c' L' (some p)

/-- **The representation invariant** between two operations: the cache has a layout in which no node
is held and no key occurs twice, and all `n` nodes are linked or free. -/
def CacheInv (n : Nat) (c : KVCache) : Prop :=
  ∃ L, Wf c L [] ∧ DistinctKeys c L ∧ c.cacheNodeMemoryPool.allocated = n

/-- The invariant holds again after an operation, which has touched the node `o`. -/
def Edited (n : Nat) (c : KVCache) (L : Layout) (c' : KVCache) (o : Option NodePtr) : Prop :=
  ∃ L', Wf c' L' [] ∧ DistinctKeys c' L' ∧ c'.cacheNodeMemoryPool.allocated = n ∧
    c'.lruTableSize = c.lruTableSize ∧ Edit c L c' L' o

variable {n : Nat} {o : Option NodePtr}

theorem Edited.inv {c' : KVCache} (h : Edited n c L c' o) : CacheInv n c' := by
  obtain ⟨L', hwf, hd, hn, -, -⟩ := h
  exact ⟨L', hwf, hd, hn⟩

/-- A new node has been taken from the cache, then filled and linked in. -/
theorem wf_fill_link (h : Wf c L [p]) (hptr : ptr.triple = tripleOf ptr.key) :
    Wf ((c.fill ptr p).2.link (hashTableIdx ptr) (c.fill ptr p).1 p)
      (Wf.linkedIn L (hashTableIdx ptr) (c.fill ptr p).1 p) [] := by
  have hp : p ∈ [p] := List.mem_singleton_self p
  have hmsg := c.fill_message_self p ptr
  have hlru := c.fill_lruIdx_self p ptr
  have hidx : hashTableIdx ((c.fill ptr p).2.message p) = hashTableIdx ptr := by rw [hmsg]; rfl
  have hlinked := (h.fill hp ptr).link hp (by rw [hlru]; exact h.fill_lt p ptr)
    (by rw [hmsg]; exact hptr) (Or.inl (c.fill_dirtyBit_self p ptr))
  rwa [hidx, hlru, List.erase_cons_head] at hlinked

theorem distinctKeys_fill_link {L₁ : Layout} {h q : Nat} (hwf : Wf c L₁ [p])
    (hd : DistinctKeys c L) (hsub : ∀ x ∈ L₁.linked, x ∈ L.linked)
    (hfresh : ∀ x ∈ L.linked, (c.message x).key ≠ ptr.key) :
    DistinctKeys ((c.fill ptr p).2.link h q p) (Wf.linkedIn L₁ h q p) := by
  intro x hx y hy hkey
  have hout := hwf.not_linked_of_held (List.mem_singleton_self p)
  have hmsg := c.fill_message_self p ptr
  have hold : ∀ x ∈ L₁.linked, (c.fill ptr p).2.message x = c.message x := fun x hx =>
    c.fill_message_of_ne p ptr (ne_of_mem_of_not_mem hx hout)
  change ((c.fill ptr p).2.message x).key = ((c.fill ptr p).2.message y).key at hkey
  rcases List.mem_cons.1 hx with hxp | hx' <;> rcases List.mem_cons.1 hy with hyp | hy'
  · exact hxp.trans hyp.symm
  · rw [hxp, hmsg, hold y hy'] at hkey
    exact absurd hkey.symm (hfresh y (hsub y hy'))
  · rw [hyp, hmsg, hold x hx'] at hkey
    exact absurd hkey (hfresh x (hsub x hx'))
  · rw [hold x hx', hold y hy'] at hkey
    exact hd x (hsub x hx') y (hsub y hy') hkey

/-- Filling and linking a new node, for a key that has none. -/
theorem fill_link {c₁ : KVCache} (h : Wf c L []) (hd : DistinctKeys c L)
    (hn : c.cacheNodeMemoryPool.allocated = n) (hnew : NewNode c L [] p c₁)
    (hptr : ptr.triple = tripleOf ptr.key)
    (hfresh : ∀ q ∈ L.linked, (c.message q).key ≠ ptr.key) :
    Edited n c L ((c₁.fill ptr p).2.link (hashTableIdx ptr) (c₁.fill ptr p).1 p) (some p) ∧
      (((c₁.fill ptr p).2.link (hashTableIdx ptr) (c₁.fill ptr p).1 p).message p).key =
        ptr.key := by
  have hself : (((c₁.fill ptr p).2.link (hashTableIdx ptr) (c₁.fill ptr p).1 p).message p).key =
      ptr.key := (congrArg KVMessage.key (c₁.fill_message_self p ptr) :)
  refine ⟨?_, hself⟩
  cases hnew with
  -- the node comes from the pool
  | acquired free' hfree hwf hmsg₁ hsize halloc =>
    have hout : p ∉ L.linked := hwf.not_linked_of_held (List.mem_singleton_self p)
    have hd₁ := distinctKeys_fill_link (L := L) (h := hashTableIdx ptr) (q := (c₁.fill ptr p).1)
      hwf (by rwa [DistinctKeys, hmsg₁]) (fun _ hx => hx) (by rwa [hmsg₁])
    refine ⟨_, wf_fill_link hwf hptr, hd₁, halloc.trans hn, hsize, ?_⟩
    refine .insert (c₁.fill ptr p).1 hfree hout rfl rfl (fun x hx => ?_) fun x hx => ?_
    · have hx' := c₁.fill_message_of_ne p ptr (ne_of_mem_of_not_mem hx hout)
      rw [hmsg₁] at hx'
      exact congrArg KVMessage.key hx'
    · rw [hself]
      exact hfresh x hx
  -- the node is the victim, whose key leaves the cache
  | evicted e hfull hev =>
    have hsub : ∀ x ∈ (Wf.unlinked c L p).linked, x ∈ L.linked := fun x hx =>
      List.mem_of_mem_erase hx
    have hmsg₁ := hev.same.message
    have hd₁ := distinctKeys_fill_link (L := L) (h := hashTableIdx ptr) (q := (c₁.fill ptr p).1)
      hev.wf (by rwa [DistinctKeys, hmsg₁]) hsub (by rwa [hmsg₁])
    refine ⟨_, wf_fill_link hev.wf hptr, hd₁, ?_, hev.same.lruTableSize, ?_⟩
    · rw [← hn, ← hev.same.pool]
      rfl
    refine .replace e (c₁.fill ptr p).1 hfull (hev.linked h) hev.last rfl rfl (fun x _ hxp => ?_)
      fun x hx => ?_
    · have hx' := c₁.fill_message_of_ne p ptr hxp
      rw [hmsg₁] at hx'
      exact congrArg KVMessage.key hx'
    · rw [hself]
      exact hfresh x hx

theorem cachePUTNewEntry_ensures (h : Wf s.cache L []) (hd : DistinctKeys s.cache L)
    (hn : s.cache.cacheNodeMemoryPool.allocated = n) (hptr : ptr.triple = tripleOf ptr.key)
    (hfresh : ∀ q ∈ L.linked, (s.cache.message q).triple ≠ ptr.triple) :
    Ensures (s.cachePUTNewEntry ptr (hashTableIdx ptr)) fun r =>
      Edited n s.cache L r.2.cache (some r.1) ∧
        ∀ a : KVMessage, a.key = ptr.key → r.2.cache.nodeOf a = some r.1 := by
  have hkey : ∀ q ∈ L.linked, (s.cache.message q).key ≠ ptr.key := fun q hq heq =>
    hfresh q hq (by rw [h.hashed q hq, heq, hptr])
  rw [cachePUTNewEntry]
  refine (newInstance_ensures h).bind fun r hr => ?_
  obtain ⟨res, s₁⟩ := r
  cases res with
  | none => exact Ensures.error
  | some p =>
    obtain ⟨⟨L', hwf', hd', hn', hsize, hedit⟩, hself⟩ := fill_link h hd hn (hr p rfl) hptr hkey
    have hp : p ∈ L'.linked := by
      cases hedit with
      | hit hp hlinked => rwa [hlinked]
      | insert q _ _ hlinked => rw [hlinked]; exact List.mem_cons_self
      | replace e q _ _ _ hlinked => rw [hlinked]; exact List.mem_cons_self
    exact Ensures.ok ⟨⟨L', hwf', hd', hn', hsize, hedit⟩,
      fun a ha => nodeOf_eq_some hwf' hd' hp (hself.trans ha.symm)⟩

theorem Edited.keep (h : Wf c L []) (hd : DistinctKeys c L)
    (hn : c.cacheNodeMemoryPool.allocated = n) : Edited n c L c none :=
  ⟨L, h, hd, hn, rfl, .keep rfl rfl fun _ _ => rfl⟩

theorem Upgraded.edited {c' : KVCache} (h : Upgraded c L [] p c') (hp : p ∈ L.linked)
    (hd : DistinctKeys c L) (hn : c.cacheNodeMemoryPool.allocated = n) :
    Edited n c L c' (some p) :=
  ⟨_, h.wf, hd.of_subset (fun _ hq => hq) fun q _ => h.key q, by rw [h.pool, hn], h.size,
    .hit hp rfl rfl fun x _ => h.key x⟩

/-- The node that `cache_GET` and `cache_PUT` touch, on a hit or on a miss. -/
def nodeBeforeOrAfter (c c' : KVCache) (ptr : KVMessage) : Option NodePtr :=
  (c.nodeOf ptr).or (c'.nodeOf ptr)

theorem cacheGET_ensures (h : Wf s.cache L []) (hd : DistinctKeys s.cache L)
    (hn : s.cache.cacheNodeMemoryPool.allocated = n) (ptr : KVMessage) :
    Ensures (s.cacheGET ptr) fun r =>
      Edited n s.cache L r.2.2.cache (nodeBeforeOrAfter s.cache r.2.2.cache ptr) := by
  rw [cacheGET, cacheGETPtr]
  refine Ensures.bind (P := fun r =>
    Edited n s.cache L r.2.2.cache (nodeBeforeOrAfter s.cache r.2.2.cache ptr)) ?_
    fun r hr => Ensures.ok hr
  refine (getSearch_ensures h ptr.calculateKeyHash).bind fun r hr => ?_
  obtain ⟨res, s₁⟩ := r
  rcases hr with ⟨p, hp, hf, hmove, res, ptr', rfl⟩ | ⟨hf, rfl, hload⟩
  · obtain ⟨c, hc, hwf₁, hsame⟩ := h.moveToHeadLRU hp
    obtain rfl := Except.ok.inj (hc.symm.trans hmove)
    have hup : Upgraded s.cache L [] p s₁.cache :=
      ⟨hwf₁, fun q => by rw [hsame.message], hsame.lruTableSize, hsame.pool⟩
    apply Ensures.ok
    dsimp only
    rw [nodeBeforeOrAfter, nodeOf_eq hf]
    exact hup.edited hp hd hn
  · cases res with
    | done res ptr' =>
      apply Ensures.ok
      dsimp only
      rw [nodeBeforeOrAfter, nodeOf_eq hf]
      exact Edited.keep h hd hn
    | load ptr' =>
      have htriple := hload ptr' rfl
      have hkey : ptr'.key = ptr.key := congrArg Triple.key htriple
      refine (cachePUTNewEntry_ensures h hd hn ?_ ?_).bind fun r hr => Ensures.ok ?_
      · rw [htriple, hkey]
        rfl
      · rw [htriple]
        exact h.findEntry_none hf
      · dsimp only
        rw [nodeBeforeOrAfter, nodeOf_eq hf, Option.none_or, hr.2 ptr hkey.symm]
        exact hr.1

theorem cachePUT_ensures (h : Wf s.cache L []) (hd : DistinctKeys s.cache L)
    (hn : s.cache.cacheNodeMemoryPool.allocated = n) (ptr : KVMessage) :
    Ensures (s.cachePUT ptr) fun s' =>
      Edited n s.cache L s'.cache (nodeBeforeOrAfter s.cache s'.cache ptr) := by
  obtain ⟨found, hf⟩ := h.findEntry_ok ptr.calculateKeyHash
  simp only [nodeBeforeOrAfter, nodeOf_eq hf]
  rw [cachePUT, hf, ok_bind]
  cases found with
  | some p =>
    obtain ⟨hp, -⟩ := h.findEntry_some hf
    exact (upgradePut_ensures h hp ptr.calculateKeyHash).mono fun s' hs' => hs'.edited hp hd hn
  | none =>
    refine (cachePUTNewEntry_ensures h hd hn rfl (h.findEntry_none hf)).bind fun r hr =>
      Ensures.ok ?_
    rw [Option.none_or, hr.2 ptr rfl]
    exact hr.1

theorem cacheDELETE_ensures (h : Wf s.cache L []) (hd : DistinctKeys s.cache L)
    (hn : s.cache.cacheNodeMemoryPool.allocated = n) (ptr : KVMessage) :
    Ensures (s.cacheDELETE ptr) fun r => Edited n s.cache L r.2.cache
      ((s.cache.nodeOf ptr).filter fun p => s.cache.dirtyBit p ≠ .toDelete) := by
  rw [cacheDELETE]
  refine (deleteSearch_ensures h ptr.calculateKeyHash).bind fun r hr => ?_
  obtain ⟨res, s₁⟩ := r
  obtain ⟨hcache, hres⟩ := hr
  dsimp only at hcache hres ⊢
  cases res with
  | done res =>
    have hnone : (s.cache.nodeOf ptr).filter (fun p => s.cache.dirtyBit p ≠ .toDelete) = none := by
      obtain ⟨found, hf⟩ := h.findEntry_ok ptr.calculateKeyHash
      rw [nodeOf_eq hf]
      cases found with
      | none => rfl
      | some p => simp [Option.filter, hres p hf]
    apply Ensures.ok
    rw [hnone]
    dsimp only
    rw [hcache]
    exact Edited.keep h hd hn
  | upgrade p =>
    obtain ⟨hf, hdirty, hp, -⟩ := hres
    have hsome :
        (s.cache.nodeOf ptr).filter (fun p => s.cache.dirtyBit p ≠ .toDelete) = some p := by
      rw [nodeOf_eq hf]
      simp [Option.filter, hdirty]
    rw [hsome]
    refine (upgradeDelete_ensures (s := s₁) (hcache ▸ h) hp (hcache ▸ hdirty)).bind fun r hr => ?_
    obtain ⟨res, s₂⟩ := r
    obtain ⟨hres, hup⟩ := hr
    cases res with
    | none => cases hres
    | some res =>
      rw [hcache] at hup
      exact Ensures.ok (hup.edited hp hd hn)

theorem cacheEvictionSimpleLoop_ensures (h : CacheInv n s.cache) (k : Nat) :
    Ensures (s.cacheEvictionSimpleLoop k) fun s' => CacheInv n s'.cache := by
  induction k generalizing s with
  | zero => exact Ensures.ok h
  | succ k ih =>
    obtain ⟨L, hwf, hd, hn⟩ := h
    have hwf₁ : Wf s.cache.getNextEvictionQueueIdx.2 L [] :=
      hwf.setCounters _ s.cache.lruTableInsertIdx
    have hd₁ : DistinctKeys s.cache.getNextEvictionQueueIdx.2 L := hd
    have hn₁ : s.cache.getNextEvictionQueueIdx.2.cacheNodeMemoryPool.allocated = n := hn
    rw [cacheEvictionSimpleLoop]
    generalize s.cache.getNextEvictionQueueIdx = next at hwf₁ hd₁ hn₁
    obtain ⟨e, c⟩ := next
    dsimp only at hwf₁ hd₁ hn₁ ⊢
    by_cases hh : (c.lruEvictionTable e).head = none
    · rw [if_pos hh]
      exact ih ⟨L, hwf₁, hd₁, hn₁⟩
    · rw [if_neg hh]
      obtain ⟨hqIdx, hv, hev⟩ := evict_ensures (s := ⟨c, s.store⟩) hwf₁ hh
      rw [show c.victimBucket e = .ok hqIdx from hv, ok_bind]
      refine hev.bind fun r hr => ?_
      obtain ⟨res, s₁⟩ := r
      obtain ⟨p, rfl, -, hwf₂, hsame⟩ := hr
      obtain ⟨pool, hrel, hwf₃, halloc⟩ := hwf₂.releaseInstance (List.mem_singleton_self p)
      rw [List.erase_cons_head] at hwf₃
      dsimp only
      rw [hrel, ok_bind]
      refine ih ⟨_, hwf₃, hd₁.of_subset (fun q hq => ?_) fun q _ => ?_, ?_⟩
      · exact List.mem_of_mem_erase hq
      · exact congrArg KVMessage.key (congrFun hsame.message q)
      · rw [← hn₁, ← show s₁.cache.cacheNodeMemoryPool = _ from hsame.pool]
        exact halloc

/-- **Every call keeps the representation invariant**, whatever the store answers. -/
theorem call_ensures (h : CacheInv n s.cache) (a : CacheCall) :
    Ensures (s.call a) fun r => CacheInv n r.2.cache := by
  have hinv := h
  obtain ⟨L, hwf, hd, hn⟩ := h
  cases a with
  | get ptr => exact (cacheGET_ensures hwf hd hn ptr).bind fun r hr => Ensures.ok hr.inv
  | put ptr => exact (cachePUT_ensures hwf hd hn ptr).bind fun s' hs' => Ensures.ok hs'.inv
  | delete ptr => exact (cacheDELETE_ensures hwf hd hn ptr).bind fun r hr => Ensures.ok hr.inv
  | evictionSimple =>
    exact (cacheEvictionSimpleLoop_ensures hinv 10).bind fun s' hs' => Ensures.ok hs'

/-! ## The invariant in full -/

/-- A header and its link maps spell out a doubly linked list. -/
structure WellFormedList (d : DoublyLinked.Links NodePtr) (xs : List NodePtr) : Prop where
  nodup : xs.Nodup
  chain : DoublyLinked.Seg d.prev d.next none d.head xs d.tail none
  ends : d.head = none ↔ d.tail = none
  prev_of_next : ∀ p ∈ xs, ∀ q, d.next p = some q → q ∈ xs ∧ d.prev q = some p
  next_of_prev : ∀ q ∈ xs, ∀ p, d.prev q = some p → p ∈ xs ∧ d.next p = some q

theorem WellFormedList.of_rep {d : DoublyLinked.Links NodePtr} {xs : List NodePtr}
    (h : d.Rep xs) : WellFormedList d xs :=
  ⟨h.2, h.1, h.head_eq_none_iff, fun _ hp _ => h.prev_of_next hp, fun _ hq _ => h.next_of_prev hq⟩

/-- What the representation invariant says of the fields of a cache with `n` nodes. -/
structure WellFormedCache (n : Nat) (c : KVCache) (L : Layout) : Prop where
  bucket : ∀ i, WellFormedList (c.bucketLinks i) (L.bucket i)
  queue : ∀ i, WellFormedList (c.queueLinks i) (L.queue i)
  mem_bucket : ∀ i p, p ∈ L.bucket i ↔ p ∈ L.linked ∧ hashTableIdx (c.message p) = i
  mem_queue : ∀ i p, p ∈ L.queue i ↔ p ∈ L.linked ∧ c.lruIdx p = i
  queue_lt : ∀ p ∈ L.linked, c.lruIdx p < c.lruTableSize
  hashed : ∀ p ∈ L.linked, (c.message p).calculateKeyHash = c.message p
  distinct : ∀ p ∈ L.linked, ∀ q ∈ L.linked, (c.message p).key = (c.message q).key → p = q
  present : ∀ p ∈ L.linked, c.dirtyBit p = .dirty ∨ c.dirtyBit p = .toDelete
  nodup : L.linked.Nodup
  count : L.linked.length + c.cacheNodeMemoryPool.n = n
  apart : ∀ p ∈ L.linked, ∀ i < c.cacheNodeMemoryPool.n, c.cacheNodeMemoryPool.pool i ≠ some p

theorem WellFormedCache.of_wf (hwf : Wf c L []) (hd : DistinctKeys c L)
    (hn : c.cacheNodeMemoryPool.allocated = n) : WellFormedCache n c L where
  bucket i := WellFormedList.of_rep (hwf.buckets.rep i)
  queue i := WellFormedList.of_rep (hwf.queues.rep i)
  mem_bucket := hwf.mem_bucket
  mem_queue := hwf.mem_queue
  queue_lt := hwf.queue_lt
  hashed p hp := calculateKeyHash_eq_self.2 (hwf.hashed p hp)
  distinct := hd
  present := hwf.present
  nodup := hwf.linked_nodup
  count := by
    have hcount := hwf.count
    rwa [List.length_nil, Nat.add_zero, ← hwf.pool.count, hn] at hcount
  apart p hp i hi hpool := by
    rw [hwf.pool.count] at hi
    rw [hwf.pool.stack i hi] at hpool
    exact hwf.not_linked_of_free (List.mem_of_getElem? hpool) hp

theorem CacheInv.wellFormed (h : CacheInv n c) : ∃ L, WellFormedCache n c L := by
  obtain ⟨L, hwf, hd, hn⟩ := h
  exact ⟨L, WellFormedCache.of_wf hwf hd hn⟩

end KVState

end KeyValueStore
