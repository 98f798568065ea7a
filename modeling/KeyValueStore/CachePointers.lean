import KeyValueStore.Cache

/-!
# Where the pointers of the cache lead

Every pointer of a bucket, of a queue or of a node leads to a node that `set_all` was called on,
and so to one that is not marked `notInCache`: the constructor sets that mark and nothing else does.
This needs no list to be in order, so it holds of the cache of any number of threads, whatever they
do to each other's lists. It also bounds the nodes, as long as the pool hands out none past the
bound.

`Sound P c` says it, for the nodes with `P`. `Keeps P c c'` is what every locked section does.
-/

namespace KeyValueStore

open Run DoublyLinked

variable {P : NodePtr → Prop} {c c' c₁ c₂ : KVCache} {p : NodePtr} {h q : Nat} {ptr : KVMessage}
  {s s' : KVState}

/-- The node was entered into the cache at some time. -/
def KVCache.Entered (c : KVCache) (p : NodePtr) : Prop := c.dirtyBit p ≠ .notInCache

/-- All pointers lead to nodes with `P` that were entered into the cache. -/
structure Sound (P : NodePtr → Prop) (c : KVCache) : Prop where
  buckets : ∀ h, (c.bucketLinks h).Within fun p => P p ∧ c.Entered p
  queues : ∀ q, (c.queueLinks q).Within fun p => P p ∧ c.Entered p

/-- A step that creates no pointer to a fresh node. -/
structure Keeps (P : NodePtr → Prop) (c c' : KVCache) : Prop where
  sound : Sound P c'
  entered : ∀ p, c.Entered p → c'.Entered p
  pool : c'.cacheNodeMemoryPool = c.cacheNodeMemoryPool

theorem Keeps.refl (hs : Sound P c) : Keeps P c c := ⟨hs, fun _ hp => hp, rfl⟩

theorem Keeps.trans (h₁ : Keeps P c c₁) (h₂ : Keeps P c₁ c₂) : Keeps P c c₂ :=
  ⟨h₂.sound, fun p hp => h₂.entered p (h₁.entered p hp), h₂.pool.trans h₁.pool⟩

theorem Sound.counters (hs : Sound P c) (i j : Nat) :
    Keeps P c { c with lruEvictionIdx := i, lruTableInsertIdx := j } :=
  ⟨⟨hs.buckets, hs.queues⟩, fun _ hp => hp, rfl⟩

/-! ## The edits -/

theorem forall_update_ptr {Q : NodePtr → Prop} {table : Nat → CacheNodeQueuePtr}
    {d : Links NodePtr}
    (htable : ∀ i, (∀ x ∈ (table i).head, Q x) ∧ ∀ x ∈ (table i).tail, Q x) (hd : d.Within Q)
    (i : Nat) : (∀ x ∈ (Function.update table h ⟨d.head, d.tail⟩ i).head, Q x) ∧
      ∀ x ∈ (Function.update table h ⟨d.head, d.tail⟩ i).tail, Q x := by
  by_cases hi : i = h
  · rw [hi, Function.update_self]
    exact ⟨hd.head, hd.tail⟩
  · rw [Function.update_of_ne hi]
    exact htable i

theorem Sound.setBucket {d : Links NodePtr} (hs : Sound P c)
    (hd : d.Within fun p => P p ∧ c.Entered p) : Keeps P c (c.setBucket h d) := by
  have htable := forall_update_ptr (h := h)
    (fun i => ⟨(hs.buckets i).head, (hs.buckets i).tail⟩) hd
  exact ⟨⟨fun i => ⟨(htable i).1, (htable i).2, hd.prev, hd.next⟩, hs.queues⟩, fun _ hp => hp, rfl⟩

theorem Sound.setQueue {d : Links NodePtr} (hs : Sound P c)
    (hd : d.Within fun p => P p ∧ c.Entered p) : Keeps P c (c.setQueue q d) := by
  have htable := forall_update_ptr (h := q)
    (fun i => ⟨(hs.queues i).head, (hs.queues i).tail⟩) hd
  exact ⟨⟨hs.buckets, fun i => ⟨(htable i).1, (htable i).2, hd.prev, hd.next⟩⟩, fun _ hp => hp, rfl⟩

theorem Sound.moveToHeadLRU (hs : Sound P c) (hp : P p ∧ c.Entered p) :
    Ensures (c.moveToHeadLRU p) (Keeps P c) := by
  rw [KVCache.moveToHeadLRU]
  split_ifs
  · exact Ensures.ok (hs.setQueue ((hs.queues _).moveToFront hp))
  · exact Ensures.error

theorem Sound.unlink (hs : Sound P c) (h q : Nat) (p : NodePtr) :
    Keeps P c ((c.removeFromDllHT h p).removeFromDllLRU q p) := by
  have hbucket : Keeps P c (c.removeFromDllHT h p) := hs.setBucket ((hs.buckets h).unlink p)
  exact hbucket.trans (hbucket.sound.setQueue ((hbucket.sound.queues q).unlink p))

theorem Sound.link (hs : Sound P c) (hp : P p ∧ c.Entered p) : Keeps P c (c.link h q p) := by
  have hbucket : Keeps P c (c.insertToHeadHT h p) := hs.setBucket ((hs.buckets h).pushFront hp)
  have hp' := And.intro hp.1 (hbucket.entered p hp.2)
  exact hbucket.trans (hbucket.sound.setQueue ((hbucket.sound.queues q).pushFront hp'))

theorem update_ne_notInCache {f : NodePtr → DirtyBit} {b : DirtyBit} (hb : b ≠ .notInCache)
    {x : NodePtr} (hx : f x ≠ .notInCache) : Function.update f p b x ≠ .notInCache := by
  by_cases hxp : x = p
  · rwa [hxp, Function.update_self]
  · rwa [Function.update_of_ne hxp]

theorem Sound.setDirtyBit {b : DirtyBit} (hs : Sound P c) (hb : b ≠ .notInCache) :
    Keeps P c (c.setDirtyBit p b) := by
  have hentered : ∀ x, c.Entered x → (c.setDirtyBit p b).Entered x := fun x hx =>
    update_ne_notInCache hb hx
  refine ⟨⟨?_, ?_⟩, hentered, rfl⟩
  · intro i
    exact (hs.buckets i).mono fun x hx => ⟨hx.1, hentered x hx.2⟩
  · intro i
    exact (hs.queues i).mono fun x hx => ⟨hx.1, hentered x hx.2⟩

theorem Sound.setMessage (hs : Sound P c) (p : NodePtr) (m : KVMessage) :
    Keeps P c (c.setMessage p m) := ⟨⟨hs.buckets, hs.queues⟩, fun _ hx => hx, rfl⟩

theorem Sound.fill (hs : Sound P c) (ptr : KVMessage) (p : NodePtr) :
    Keeps P c (c.fill ptr p).2 ∧ (c.fill ptr p).2.Entered p := by
  have hself : (c.fill ptr p).2.Entered p := by
    simp [KVCache.Entered, KVCache.fill, KVCache.setAll]
  have hentered : ∀ x, c.Entered x → (c.fill ptr p).2.Entered x := fun x hx =>
    update_ne_notInCache (by decide) hx
  have hmono : ∀ x, P x ∧ c.Entered x → P x ∧ (c.fill ptr p).2.Entered x := fun x hx =>
    ⟨hx.1, hentered x hx.2⟩
  refine ⟨⟨⟨?_, ?_⟩, hentered, rfl⟩, hself⟩
  · intro i
    have hi := (hs.buckets i).mono hmono
    exact ⟨hi.head, hi.tail, Links.forall_mem_update hi.prev nofun,
      Links.forall_mem_update hi.next nofun⟩
  · intro i
    have hi := (hs.queues i).mono hmono
    exact ⟨hi.head, hi.tail, Links.forall_mem_update hi.prev nofun,
      Links.forall_mem_update hi.next nofun⟩

theorem Sound.findFrom (hs : Sound P c) (fuel : Nat) {f : Option NodePtr}
    (hf : ∀ p ∈ f, P p ∧ c.Entered p) :
    Ensures (c.findFrom ptr fuel f) fun r => ∀ p ∈ r, P p ∧ c.Entered p := by
  induction fuel generalizing f with
  | zero =>
    cases f with
    | none => exact Ensures.ok nofun
    | some p => exact Ensures.error
  | succ fuel ih =>
    cases f with
    | none => exact Ensures.ok nofun
    | some p =>
      rw [KVCache.findFrom]
      split_ifs
      · exact Ensures.ok hf
      · exact ih ((hs.buckets 0).next p)

theorem Sound.findEntry (hs : Sound P c) (ptr : KVMessage) :
    Ensures (c.findEntry ptr) fun r => ∀ p ∈ r, P p ∧ c.Entered p :=
  hs.findFrom _ (hs.buckets _).head

/-! ## The locked sections -/

theorem Sound.getSearch (hs : Sound P s.cache) (ptr : KVMessage) :
    Ensures (s.getSearch ptr) fun r => Keeps P s.cache r.2.cache := by
  unfold KVState.getSearch
  refine (hs.findEntry ptr).bind fun found hfound => ?_
  cases found with
  | some p => exact (hs.moveToHeadLRU (hfound p rfl)).bind fun c hc => Ensures.ok hc
  | none => exact ensures_true.bind fun r _ => Ensures.ok (Keeps.refl hs)

theorem Sound.deleteSearch (hs : Sound P s.cache) (ptr : KVMessage) :
    Ensures (s.deleteSearch ptr) fun r => r.2.cache = s.cache ∧
      ∀ p, r.1 = .upgrade p → P p ∧ s.cache.Entered p := by
  unfold KVState.deleteSearch
  refine (hs.findEntry ptr).bind fun found hfound => ?_
  cases found with
  | some p =>
    dsimp only
    split
    · exact Ensures.ok ⟨rfl, nofun⟩
    · exact Ensures.ok ⟨rfl, nofun⟩
    · exact Ensures.ok ⟨rfl, fun x hx => DeleteSearch.upgrade.inj hx ▸ hfound p rfl⟩
  | none => exact ensures_true.bind fun r _ => Ensures.ok ⟨rfl, nofun⟩

/-- The check after the lock upgrade of `cache_PUT` finds a node that was entered. -/
theorem Sound.upgradePut (hs : Sound P s.cache) (hp : P p ∧ s.cache.Entered p) (ptr : KVMessage) :
    Ensures (s.upgradePut ptr p) fun s' => Keeps P s.cache s'.cache := by
  unfold KVState.upgradePut
  rw [if_neg hp.2]
  -- the mark is `dirty` or stays
  generalize hc : (if ptr.value = (s.cache.message p).value then
    if s.cache.dirtyBit p = .toDelete then s.cache.setDirtyBit p .dirty else s.cache
    else s.cache.setDirtyBit p .dirty) = c
  have hmark : Keeps P s.cache c := by
    rw [← hc]
    split_ifs
    · exact hs.setDirtyBit (by decide)
    · exact Keeps.refl hs
    · exact hs.setDirtyBit (by decide)
  have hvalue : Keeps P s.cache (c.setValue p ptr.value) :=
    hmark.trans (hmark.sound.setMessage p _)
  refine (hvalue.sound.moveToHeadLRU ⟨hp.1, hvalue.entered p hp.2⟩).bind fun c' hc' => ?_
  exact Ensures.ok (hvalue.trans hc')

theorem Sound.upgradeDelete (hs : Sound P s.cache) (hp : P p ∧ s.cache.Entered p) :
    Ensures (s.upgradeDelete p) fun r => Keeps P s.cache r.2.cache ∧ r.1 ≠ none := by
  unfold KVState.upgradeDelete
  split
  · exact Ensures.ok ⟨Keeps.refl hs, nofun⟩
  · exact absurd ‹_› hp.2
  · have hmark : Keeps P s.cache (s.cache.setDirtyBit p .toDelete) := hs.setDirtyBit (by decide)
    refine (hmark.sound.moveToHeadLRU ⟨hp.1, hmark.entered p hp.2⟩).bind fun c hc => ?_
    exact Ensures.ok ⟨hmark.trans hc, nofun⟩

/-- An eviction finds a tail that was entered, and does not start over. -/
theorem Sound.evictLocked (hs : Sound P s.cache) (e i : Nat) :
    Ensures (s.evictLocked e i) fun r => Keeps P s.cache r.2.cache ∧
      ∃ p, r.1 = some p ∧ P p ∧ r.2.cache.Entered p := by
  unfold KVState.evictLocked
  cases htail : (s.cache.lruEvictionTable e).tail with
  | none => exact Ensures.error
  | some p =>
    have hp := (hs.queues e).tail p htail
    have hkeeps := hs.unlink i e p
    have hp' := And.intro hp.1 (hkeeps.entered p hp.2)
    dsimp only
    rw [if_neg hp.2]
    split
    · exact ensures_true.bind fun r _ => Ensures.ok ⟨hkeeps, p, rfl, hp'⟩
    · exact ensures_true.bind fun r _ => Ensures.ok ⟨hkeeps, p, rfl, hp'⟩
    · exact Ensures.ok ⟨hkeeps, p, rfl, hp'⟩

theorem sound_start {cacheSize : Nat} {files : Nat → Option (List UInt8)}
    (hs : KVState.start cacheSize files = .ok s) : Sound P s.cache := by
  obtain ⟨pool, hpool, -⟩ := MemoryPool.rep_init cacheSize 2
  rw [KVState.start, KVCache.new, hpool] at hs
  obtain rfl := Except.ok.inj hs
  exact ⟨fun _ => ⟨nofun, nofun, nofun, nofun⟩, fun _ => ⟨nofun, nofun, nofun, nofun⟩⟩

end KeyValueStore
