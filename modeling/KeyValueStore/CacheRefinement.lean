import KeyValueStore.CacheSafety
import KeyValueStore.StoreRefinement

/-!
# The cache over the store refines a dictionary

`Represents s L held d` says that the cache is laid out as `L`, with at most one node for a key, and
that the dictionary `d` is what the nodes and the store say together: a linked node decides its
key, absent if it is marked `toDelete`; a key without a node is what the store holds for it.

First the locked sections, then the operations of one thread that are made of them.

* `evictLocked_spec`, `link_spec`, `upgradePut_spec`, `upgradeDelete_spec`, … — the sections.
* `cacheGET_spec`, `cachePUT_spec`, `cacheDELETE_spec` — the operations.
-/

namespace KeyValueStore

open Run

/-- The dictionary the whole program is to be. -/
abbrev Dict := Chars256 → Option Chars256

/-- What a linked node says of its key. -/
def nodeValue (c : KVCache) (p : NodePtr) : Option Chars256 :=
  if c.dirtyBit p = .toDelete then none else some (c.message p).value

/-- Cache and store hold the dictionary `d`. -/
structure Represents (s : KVState) (L : Layout) (held : List NodePtr) (d : Dict) : Prop where
  wf : Wf s.cache L held
  distinct : DistinctKeys s.cache L
  cached : ∀ p ∈ L.linked, d (s.cache.message p).key = nodeValue s.cache p
  stored : ∃ m, StoreRep s.store m ∧
    ∀ k, (∀ p ∈ L.linked, (s.cache.message p).key ≠ k) → d k = m (tripleOf k)

/-- What `cache_GET` answers, and leaves in `*ptr`, for the dictionary `d`. -/
def dictGet (d : Dict) (ptr : KVMessage) : Bool × KVMessage :=
  match d ptr.key with
  | some v => (true, { ptr with value := v })
  | none => (false, ptr)

variable {s : KVState} {c : KVCache} {L L' : Layout} {held held' : List NodePtr} {d : Dict}
  {p : NodePtr} {ptr : KVMessage}

theorem dictGet_fst : (dictGet d ptr).1 = (d ptr.key).isSome := by
  rw [dictGet]
  cases d ptr.key <;> rfl

theorem dictGet_eq_true {ptr' : KVMessage} :
    dictGet d ptr = (true, ptr') ↔ ∃ v, d ptr.key = some v ∧ ptr' = { ptr with value := v } := by
  rw [dictGet]
  cases d ptr.key <;> simp [eq_comm]

namespace Represents

theorem congr (h : Represents s L held d) (hwf : Wf c L' held')
    (hl : ∀ p, p ∈ L'.linked ↔ p ∈ L.linked)
    (hm : ∀ p ∈ L.linked, c.message p = s.cache.message p)
    (hd : ∀ p ∈ L.linked, c.dirtyBit p = s.cache.dirtyBit p) :
    Represents { s with cache := c } L' held' d where
  wf := hwf
  distinct p hp p' hp' hkey := by
    rw [hl] at hp hp'
    simp only [hm p hp, hm p' hp'] at hkey
    exact h.distinct p hp p' hp' hkey
  cached p hp := by
    rw [hl] at hp
    simp only [nodeValue, hm p hp, hd p hp]
    exact h.cached p hp
  stored := by
    obtain ⟨m, hrep, hm'⟩ := h.stored
    refine ⟨m, hrep, fun k hk => hm' k fun p hp => ?_⟩
    have := hk p ((hl p).2 hp)
    simpa only [hm p hp] using this

theorem touch (h : Represents s L held d) (hp : p ∈ L.linked) :
    ∃ c, s.cache.moveToHeadLRU p = .ok c ∧
      Represents { s with cache := c } (Wf.touched s.cache L p) held d ∧ SameNodes s.cache c := by
  obtain ⟨c, hc, hwf, hsame⟩ := h.wf.moveToHeadLRU hp
  refine ⟨c, hc, ?_, hsame⟩
  exact h.congr hwf (fun _ => Iff.rfl) (fun q _ => congrFun hsame.message q) fun q _ =>
    congrFun hsame.dirtyBit q

/-- A new value, or a deletion mark, for the key of a linked node. -/
theorem setNode (h : Represents s L held d) (hp : p ∈ L.linked) {v : Option Chars256}
    (hwf : Wf c L held) (htriple : ∀ q, (c.message q).triple = (s.cache.message q).triple)
    (hother : ∀ q, q ≠ p → nodeValue c q = nodeValue s.cache q) (hv : nodeValue c p = v) :
    Represents { s with cache := c } L held (Function.update d (s.cache.message p).key v) := by
  have hkey : ∀ q, (c.message q).key = (s.cache.message q).key := fun q =>
    congrArg Triple.key (htriple q)
  refine ⟨hwf, ?_, ?_, ?_⟩
  · intro q hq q' hq' hk
    simp only [hkey] at hk
    exact h.distinct q hq q' hq' hk
  · intro q hq
    simp only [hkey]
    by_cases hqp : q = p
    · rw [hqp, Function.update_self, hv]
    · rw [Function.update_of_ne fun hk => hqp (h.distinct q hq p hp hk), hother q hqp]
      exact h.cached q hq
  · obtain ⟨m, hrep, hm⟩ := h.stored
    refine ⟨m, hrep, ?_⟩
    intro k hk
    simp only [hkey] at hk
    rw [Function.update_of_ne (Ne.symm (hk p hp))]
    exact hm k hk

/-- A key found by no search belongs to no linked node. -/
theorem key_ne (h : Represents s L held d) (ptr : KVMessage) (hptr : ptr.triple = tripleOf ptr.key)
    (hf : s.cache.findEntry ptr = .ok none) :
    ∀ p ∈ L.linked, (s.cache.message p).key ≠ ptr.key := by
  intro p hp hkey
  apply h.wf.findEntry_none hf p hp
  rw [h.wf.hashed p hp, hkey, hptr]

theorem readFromDb_eq (h : Represents s L held d) (ptr : KVMessage)
    (hptr : ptr.triple = tripleOf ptr.key) (hf : s.cache.findEntry ptr = .ok none) :
    s.store.readFromDb ptr = .ok (dictGet d ptr) := by
  obtain ⟨m, hrep, hm⟩ := h.stored
  have hd := hm ptr.key (h.key_ne ptr hptr hf)
  rw [KVStore.readFromDb_eq hrep]
  cases hv : d ptr.key <;> simp [readAnswer, dictGet, hptr, ← hd, hv]

end Represents

/-! ## The locked sections -/

namespace KVState

/-- **Evicting** the tail of a queue from its own bucket writes what its node says to the store. -/
theorem evictLocked_spec (h : Represents s L held d) {e : Nat}
    (htail : (s.cache.lruEvictionTable e).tail = some p) :
    SucceedsUnlessFull (s.evictLocked e (hashTableIdx (s.cache.message p))) fun r =>
      r.1 = some p ∧ Represents r.2 (Wf.unlinked s.cache L p) (p :: held) d ∧
      r.2.cache =
        (s.cache.removeFromDllHT (hashTableIdx (s.cache.message p)) p).removeFromDllLRU e p := by
  obtain ⟨hp, he⟩ := h.wf.tail_linked htail
  subst he
  have hwf := h.wf.unlink hp
  have hmem : ∀ q, q ∈ (Wf.unlinked s.cache L p).linked ↔ q ∈ L.linked ∧ q ≠ p := by
    intro q
    rw [Wf.unlinked, h.wf.linked_nodup.mem_erase_iff]
    exact and_comm
  -- the dictionary, once the store says of the victim's key what its node said
  have hdone : ∀ store' m', StoreRep store' m' →
      (∃ m, StoreRep s.store m ∧ (∀ k, (∀ q ∈ L.linked, (s.cache.message q).key ≠ k) →
        d k = m (tripleOf k)) ∧
        m' = Function.update m (tripleOf (s.cache.message p).key) (nodeValue s.cache p)) →
      Represents ⟨(s.cache.removeFromDllHT (hashTableIdx (s.cache.message p)) p).removeFromDllLRU
        (s.cache.lruIdx p) p, store'⟩ (Wf.unlinked s.cache L p) (p :: held) d := by
    rintro store' m' hrep' ⟨m, -, hm, rfl⟩
    refine ⟨hwf, ?_, ?_, _, hrep', ?_⟩
    · intro q hq q' hq' hkey
      exact h.distinct q ((hmem q).1 hq).1 q' ((hmem q').1 hq').1 hkey
    · intro q hq
      exact h.cached q ((hmem q).1 hq).1
    · intro k hk
      by_cases hkp : k = (s.cache.message p).key
      · rw [hkp, Function.update_self, h.cached p hp]
      · rw [Function.update_of_ne fun ht => hkp (tripleOf_inj.1 ht)]
        refine hm k fun q hq => ?_
        by_cases hqp : q = p
        · rw [hqp]
          exact Ne.symm hkp
        · exact hk q ((hmem q).2 ⟨hq, hqp⟩)
  obtain ⟨m, hrep, hm⟩ := h.stored
  have htriple := h.wf.hashed p hp
  rcases h.wf.present p hp with hd | hd
  · rw [evictLocked_dirty htail hd]
    refine (KVStore.writeToDb_spec hrep (s.cache.message p)).bind fun store' hrep' => Excused.ok ?_
    refine ⟨rfl, hdone store' _ hrep' ⟨m, hrep, hm, ?_⟩, rfl⟩
    rw [htriple, nodeValue, hd, if_neg (by decide)]
  · rw [evictLocked_toDelete htail hd]
    obtain ⟨store', hdel, hrep'⟩ := KVStore.deleteFromDb_spec hrep (s.cache.message p)
    refine Or.inr ⟨(some p, ⟨_, store'⟩), ?_, rfl, hdone store' _ hrep' ⟨m, hrep, hm, ?_⟩, rfl⟩
    · rw [hdel]
      rfl
    · rw [htriple, nodeValue, hd, if_pos rfl]

/-- **The search of `cache_GET`** answers from the dictionary, or loads the value it has. -/
theorem getSearch_spec (h : Represents s L held d) (ptr : KVMessage)
    (hptr : ptr.triple = tripleOf ptr.key) :
    ∃ r s' L', s.getSearch ptr = .ok (r, s') ∧ Represents s' L' held d ∧ L'.linked = L.linked ∧
      SameNodes s.cache s'.cache ∧ s'.store = s.store ∧
      match r with
      | .done res ptr' => (res.isSome, ptr') = dictGet d ptr
      | .load ptr' => (true, ptr') = dictGet d ptr ∧ s' = s ∧
          ∀ p ∈ L.linked, (s.cache.message p).key ≠ ptr.key := by
  obtain ⟨found, hf⟩ := h.wf.findEntry_ok ptr
  cases found with
  | some p =>
    obtain ⟨hp, htriple⟩ := h.wf.findEntry_some hf
    obtain ⟨c, hc, hrep, hsame⟩ := h.touch hp
    have hd := h.cached p hp
    rw [show (s.cache.message p).key = ptr.key from congrArg Triple.key htriple] at hd
    rw [nodeValue] at hd
    -- a tombstone is found and moved, but nothing is answered from it
    by_cases hdel : s.cache.dirtyBit p = .toDelete
    · rw [if_pos hdel] at hd
      refine ⟨.done none ptr, ⟨c, s.store⟩, _, ?_, hrep, rfl, hsame, rfl, by simp [dictGet, hd]⟩
      rw [getSearch, hf, ok_bind]
      simp only [hdel, hc, decide_true, if_true]
      rfl
    · rw [if_neg hdel] at hd
      refine ⟨.done (some p) { ptr with value := (s.cache.message p).value }, ⟨c, s.store⟩, _, ?_,
        hrep, rfl, hsame, rfl, by simp [dictGet, hd]⟩
      rw [getSearch, hf, ok_bind]
      simp only [hdel, hc, decide_false]
      rfl
  | none =>
    have hkey := h.key_ne ptr hptr hf
    refine ⟨if (dictGet d ptr).1 then .load (dictGet d ptr).2 else .done none (dictGet d ptr).2,
      s, L, ?_, h, rfl, ⟨rfl, rfl, rfl, rfl, rfl⟩, rfl, ?_⟩
    · rw [getSearch, hf, ok_bind]
      show (s.store.readFromDb ptr).bind _ = _
      rw [h.readFromDb_eq ptr hptr hf, dictGet]
      cases d ptr.key <;> rfl
    · cases hv : d ptr.key with
      | none => simp [dictGet, hv]
      | some v => simpa [dictGet, hv] using hkey

/-- **The search of `cache_DELETE`** answers from the dictionary, or finds a node to mark. -/
theorem deleteSearch_spec (h : Represents s L held d) (ptr : KVMessage)
    (hptr : ptr.triple = tripleOf ptr.key) :
    ∃ r s', s.deleteSearch ptr = .ok (r, s') ∧ s'.cache = s.cache ∧
      match r with
      | .done res => res = (d ptr.key).isSome ∧
          Represents s' L held (Function.update d ptr.key none)
      | .upgrade p => s' = s ∧ p ∈ L.linked ∧ (s.cache.message p).triple = ptr.triple := by
  obtain ⟨found, hf⟩ := h.wf.findEntry_ok ptr
  cases found with
  | some p =>
    obtain ⟨hp, htriple⟩ := h.wf.findEntry_some hf
    have hd := h.cached p hp
    rw [show (s.cache.message p).key = ptr.key from congrArg Triple.key htriple, nodeValue] at hd
    rcases h.wf.present p hp with hdirty | hdirty
    · -- the node is marked later, by `upgradeDelete`
      refine ⟨.upgrade p, s, ?_, rfl, rfl, hp, htriple⟩
      rw [deleteSearch, hf, ok_bind]
      simp only [hdirty]
      rfl
    · rw [if_pos hdirty] at hd
      -- the node is marked already, so the key is not there
      refine ⟨.done false, s, ?_, rfl, by rw [hd]; rfl, ?_⟩
      · rw [deleteSearch, hf, ok_bind]
        simp only [hdirty]
        rfl
      · rwa [Function.update_eq_self_iff.2 hd.symm]
  | none =>
    have hkey := h.key_ne ptr hptr hf
    obtain ⟨m, hrep, hm⟩ := h.stored
    obtain ⟨store', hdel, hrep'⟩ := KVStore.deleteFromDb_spec hrep ptr
    refine ⟨.done (d ptr.key).isSome, { s with store := store' }, ?_, rfl, rfl, ?_⟩
    · rw [deleteSearch, hf, ok_bind]
      show (s.store.deleteFromDb ptr).bind _ = _
      rw [hdel, hptr, ← hm ptr.key hkey]
      rfl
    · refine ⟨h.wf, h.distinct, ?_, _, hrep', ?_⟩
      · intro p hp
        rw [Function.update_of_ne (hkey p hp)]
        exact h.cached p hp
      · intro k hk
        rw [hptr]
        by_cases hkp : k = ptr.key
        · rw [hkp, Function.update_self, Function.update_self]
        · rw [Function.update_of_ne hkp, Function.update_of_ne fun ht => hkp (tripleOf_inj.1 ht)]
          exact hm k hk

/-- **The upgrade of `cache_PUT`** on a linked node of its key sets the key. -/
theorem upgradePut_spec (h : Represents s L held d) (hp : p ∈ L.linked)
    (hkey : (s.cache.message p).key = ptr.key) :
    ∃ s' L', s.upgradePut ptr p = .ok s' ∧
      Represents s' L' held (Function.update d ptr.key (some ptr.value)) ∧ L'.linked = L.linked ∧
      SameNodes ((s.cache.setDirtyBit p .dirty).setValue p ptr.value) s'.cache ∧
      s'.store = s.store := by
  have hwf := (h.wf.setDirtyBit (p := p) (Or.inl rfl)).setValue (p := p) ptr.value
  have hset : Represents { s with cache := (s.cache.setDirtyBit p .dirty).setValue p ptr.value }
      L held (Function.update d ptr.key (some ptr.value)) := by
    rw [← hkey]
    refine h.setNode hp hwf (fun q => ?_) (fun q hq => ?_) ?_
    · by_cases hq : q = p
      · rw [hq]
        simp [KVCache.setValue, KVMessage.triple, KVCache.setDirtyBit]
      · simp [KVCache.setValue, KVCache.setDirtyBit, hq]
    · simp [nodeValue, KVCache.setValue, KVCache.setDirtyBit, KVCache.setMessage, hq]
    · simp [nodeValue, KVCache.setValue, KVCache.setDirtyBit, KVCache.setMessage]
  obtain ⟨c, hc, hrep, hsame⟩ := hset.touch hp
  refine ⟨⟨c, s.store⟩, _, ?_, hrep, rfl, hsame, rfl⟩
  rw [upgradePut_eq h.wf hp, hc]
  rfl

/-- **The upgrade of `cache_DELETE`** on a linked node removes its key. -/
theorem upgradeDelete_spec (h : Represents s L held d) (hp : p ∈ L.linked) :
    ∃ s' L', s.upgradeDelete p = .ok (some (d (s.cache.message p).key).isSome, s') ∧
      Represents s' L' held (Function.update d (s.cache.message p).key none) ∧
      L'.linked = L.linked ∧ SameNodes (s.cache.setDirtyBit p .toDelete) s'.cache ∧
      s'.store = s.store := by
  have hd := h.cached p hp
  rw [nodeValue] at hd
  rcases h.wf.present p hp with hdirty | hdirty
  · have hset : Represents { s with cache := s.cache.setDirtyBit p .toDelete } L held
        (Function.update d (s.cache.message p).key none) := by
      refine h.setNode hp (h.wf.setDirtyBit (Or.inr rfl)) (fun _ => rfl) (fun q hq => ?_) ?_
      · simp [nodeValue, KVCache.setDirtyBit, hq]
      · simp [nodeValue]
    obtain ⟨c, hc, hrep, hsame⟩ := hset.touch hp
    refine ⟨⟨c, s.store⟩, _, ?_, hrep, rfl, hsame, rfl⟩
    have hne : s.cache.dirtyBit p ≠ .toDelete := by rw [hdirty]; decide
    rw [hd, if_neg hne, upgradeDelete_eq h.wf hp, if_neg hne, hc]
    rfl
  · rw [if_pos hdirty] at hd
    refine ⟨s, L, ?_, ?_, rfl, ⟨rfl, ?_, rfl, rfl, rfl⟩, rfl⟩
    · rw [hd, upgradeDelete_eq h.wf hp, if_pos hdirty]
      rfl
    · rwa [Function.update_eq_self_iff.2 hd.symm]
    · rw [KVCache.setDirtyBit_dirtyBit, Function.update_eq_self_iff.2 hdirty.symm]

/-- **Acquiring a node** does not touch the dictionary. -/
theorem acquireInstance_spec (h : Represents s L held d) :
    ∃ p c L', s.cache.acquireInstance = .ok (some p, c) ∧
      Represents { s with cache := c } L' (p :: held) d ∧ L'.linked = L.linked ∧
      c.message = s.cache.message ∧ c.dirtyBit = s.cache.dirtyBit ∧ c.lruIdx = s.cache.lruIdx ∧
      (L.free ≠ [] → c.cacheNodeMemoryPool.allocated = s.cache.cacheNodeMemoryPool.allocated) := by
  obtain ⟨p, pool, free', hacq, hwf, halloc⟩ := h.wf.acquireInstance
  refine ⟨p, _, { L with free := free' }, hacq, ?_, rfl, rfl, rfl, rfl, halloc⟩
  exact h.congr hwf (fun _ => Iff.rfl) (fun _ _ => rfl) fun _ _ => rfl

/-- **Filling a held node** does not touch the dictionary. -/
theorem fill_spec (h : Represents s L held d) (hp : p ∈ held) (ptr : KVMessage) :
    Represents { s with cache := (s.cache.fill ptr p).2 } L held d ∧
      (s.cache.fill ptr p).1 < (s.cache.fill ptr p).2.lruTableSize := by
  have hout := h.wf.not_linked_of_held hp
  refine ⟨h.congr (h.wf.fill hp ptr) (fun _ => Iff.rfl) ?_ ?_, ?_⟩
  · intro q hq
    exact s.cache.fill_message_of_ne p ptr (ne_of_mem_of_not_mem hq hout)
  · intro q hq
    exact Function.update_of_ne (ne_of_mem_of_not_mem hq hout) _ _
  · exact h.wf.fill_lt p ptr

/-- **Linking a new node in** sets its key, which no other node may have. -/
theorem link_spec (h : Represents s L held d) (hp : p ∈ held) {i q : Nat}
    (hi : hashTableIdx (s.cache.message p) = i) (hq : s.cache.lruIdx p = q)
    (hlt : q < s.cache.lruTableSize)
    (hhash : (s.cache.message p).triple = tripleOf (s.cache.message p).key)
    (hdirty : s.cache.dirtyBit p = .dirty)
    (hfresh : ∀ x ∈ L.linked, (s.cache.message x).key ≠ (s.cache.message p).key) :
    Represents { s with cache := s.cache.link i q p } (Wf.linkedIn L i q p) (held.erase p)
      (Function.update d (s.cache.message p).key (some (s.cache.message p).value)) := by
  subst hi hq
  refine ⟨h.wf.link hp hlt hhash (Or.inl hdirty), ?_, ?_, ?_⟩
  · intro x hx y hy hkey
    change (s.cache.message x).key = (s.cache.message y).key at hkey
    change x ∈ p :: L.linked at hx
    change y ∈ p :: L.linked at hy
    rcases List.mem_cons.1 hx with rfl | hx' <;> rcases List.mem_cons.1 hy with rfl | hy'
    · rfl
    · exact absurd hkey.symm (hfresh y hy')
    · exact absurd hkey (hfresh x hx')
    · exact h.distinct x hx' y hy' hkey
  · intro x hx
    show Function.update d _ _ (s.cache.message x).key = nodeValue s.cache x
    rcases List.mem_cons.1 hx with rfl | hx
    · rw [Function.update_self, nodeValue, if_neg (by rw [hdirty]; decide)]
    · rw [Function.update_of_ne (hfresh x hx)]
      exact h.cached x hx
  · obtain ⟨m, hrep, hm⟩ := h.stored
    refine ⟨m, hrep, ?_⟩
    intro k hk
    have hkp : (s.cache.message p).key ≠ k := hk p List.mem_cons_self
    rw [Function.update_of_ne hkp.symm]
    exact hm k fun x hx => hk x (List.mem_cons_of_mem _ hx)

end KVState

end KeyValueStore
