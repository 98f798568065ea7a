import KeyValueStore.CacheSafety
import KeyValueStore.Threads

/-!
# The invariant of the threads

`Threads c L held pc` says what a thread at each point relies on: the node it is about to fill or to
link in is its own, and the node that its search has found is still linked and still holds its key.

A step of one thread keeps what the others rely on as long as it does what `Frame` says. There is
one frame lemma for each thing a step does to the cache, and `runThread_ensures` puts them together.
The store is arbitrary.

Two things can go wrong, and both in the locked section of `cache_eviction`.

* `VictimInBucket` — the tail is in the bucket whose lock is held.
* `KeepsTargets` — the tail is not the node that another thread is about to upgrade.
-/

namespace KeyValueStore

open Run

variable {c c' : KVCache} {L L' : Layout} {held held' : List NodePtr} {p : NodePtr}

/-! ## Frames -/

/-- The nodes that a step treats specially: `own` is the one that only this thread has, `moved` the
one it may move to the head of its queue, `victim` the one it unlinks, `linked` the one it links
in. -/
structure Access where
  own : Option NodePtr
  moved : Option NodePtr
  victim : Option NodePtr
  linked : Option NodePtr

/-- What other threads may rely on over a step. -/
structure Frame (c : KVCache) (L : Layout) (held : List NodePtr) (a : Access)
    (c' : KVCache) (L' : Layout) (held' : List NodePtr) : Prop where
  wf : Wf c' L' held'
  size : c'.lruTableSize = c.lruTableSize
  held : ∀ p ∈ held, a.own ≠ some p → p ∈ held' ∧ c'.message p = c.message p ∧
    c'.dirtyBit p = c.dirtyBit p ∧ c'.lruIdx p = c.lruIdx p
  linked : ∀ p ∈ L.linked, a.victim ≠ some p → p ∈ L'.linked
  origin : ∀ p ∈ L'.linked, a.victim ≠ some p ∧ (p ∈ L.linked ∨ a.linked = some p)
  triple : ∀ p ∈ L'.linked, (c'.message p).triple = (c.message p).triple
  tail : ∀ q p, (c.lruEvictionTable q).tail = some p → a.victim ≠ some p →
    (a.moved = some p → (c.lruEvictionTable q).head = some p) →
    (c'.lruEvictionTable q).tail = some p

namespace Frame

variable {a : Access}

theorem victim_ne (hv : a.victim = none) (p : NodePtr) : a.victim ≠ some p := by
  rw [hv]
  exact (Option.some_ne_none p).symm

theorem counters (h : Wf c L held) (hv : a.victim = none) (i j : Nat) :
    Frame c L held a { c with lruEvictionIdx := i, lruTableInsertIdx := j } L held where
  wf := h.setCounters i j
  size := rfl
  held _ hp _ := ⟨hp, rfl, rfl, rfl⟩
  linked _ hp _ := hp
  origin p hp := ⟨victim_ne hv p, Or.inl hp⟩
  triple _ _ := rfl
  tail _ _ ht _ _ := ht

theorem refl (h : Wf c L held) (hv : a.victim = none) : Frame c L held a c L held :=
  counters h hv c.lruEvictionIdx c.lruTableInsertIdx

/-- The last node of a queue, when another node has been moved to the head or it is the only one. -/
theorem getLast_moveToFront {xs : List NodePtr} {x : NodePtr} (hnd : xs.Nodup) (hp : p ∈ xs)
    (hlast : xs.getLast? = some x) (hx : p = x → xs.head? = some x) :
    (p :: xs.erase p).getLast? = some x := by
  by_cases hpx : p = x
  · subst hpx
    -- the first node is also the last: there is one
    have hxs : xs = [p] := by
      cases xs with
      | nil => cases hp
      | cons y ys =>
        obtain rfl : y = p := Option.some.inj (hx rfl)
        cases ys with
        | nil => rfl
        | cons z zs =>
          have hmem : y ∈ z :: zs := by
            rw [List.getLast?_cons_cons] at hlast
            exact List.mem_of_getLast? hlast
          exact absurd hmem (List.nodup_cons.1 hnd).1
    rw [hxs, List.erase_cons_head]
    rfl
  · obtain ⟨ys, rfl⟩ : ∃ ys, xs = ys ++ [x] := List.getLast?_eq_some_iff.1 hlast
    have hys : p ∈ ys := by
      rcases List.mem_append.1 hp with h | h
      · exact h
      · exact absurd (List.mem_singleton.1 h) hpx
    rw [List.erase_append_left _ hys, ← List.cons_append, List.getLast?_append]
    rfl

theorem touch (h : Wf c L held) (hp : p ∈ L.linked) (hm : a.moved = some p) (hv : a.victim = none)
    (hc : c.moveToHeadLRU p = .ok c') : Frame c L held a c' (Wf.touched c L p) held := by
  obtain ⟨c₁, hc₁, hwf, hsame⟩ := h.moveToHeadLRU hp
  obtain rfl := Except.ok.inj (hc₁.symm.trans hc)
  refine ⟨hwf, hsame.lruTableSize, fun q hq _ => ?_, fun _ hq _ => hq,
    fun q hq => ⟨victim_ne hv q, Or.inl hq⟩, fun q _ => by rw [hsame.message], ?_⟩
  · exact ⟨hq, congrFun hsame.message q, congrFun hsame.dirtyBit q, congrFun hsame.lruIdx q⟩
  · intro q x ht _ hmoved
    rw [hm, h.head_eq] at hmoved
    rw [h.tail_eq] at ht
    rw [hwf.tail_eq]
    dsimp only [Wf.touched]
    by_cases hq : q = c.lruIdx p
    · subst hq
      rw [Function.update_self]
      exact getLast_moveToFront (h.queues.rep _).2 ((h.mem_queue _ p).2 ⟨hp, rfl⟩) ht
        fun hpx => hmoved (congrArg some hpx)
    · rwa [Function.update_of_ne hq]

/-- A step from a cache whose linked nodes have other values or dirty bits. -/
theorem of_content {c₁ : KVCache} (h : Frame c₁ L held a c' L' held')
    (hsize : c₁.lruTableSize = c.lruTableSize) (hlru : c₁.lruIdx = c.lruIdx)
    (hqueues : c₁.lruEvictionTable = c.lruEvictionTable)
    (htriple : ∀ p, (c₁.message p).triple = (c.message p).triple)
    (hheld : ∀ p ∈ held, c₁.message p = c.message p ∧ c₁.dirtyBit p = c.dirtyBit p) :
    Frame c L held a c' L' held' where
  wf := h.wf
  size := h.size.trans hsize
  held p hp hown := by
    obtain ⟨hp', hm, hd, hl⟩ := h.held p hp hown
    exact ⟨hp', hm.trans (hheld p hp).1, hd.trans (hheld p hp).2, hl.trans (congrFun hlru p)⟩
  linked := h.linked
  origin := h.origin
  triple p hp := (h.triple p hp).trans (htriple p)
  tail q p := by
    rw [← hqueues]
    exact h.tail q p

theorem write (h : Wf c L held) (hp : p ∈ L.linked) (hm : a.moved = some p) (hv : a.victim = none)
    (v : Chars256) (hc : ((c.setDirtyBit p .dirty).setValue p v).moveToHeadLRU p = .ok c') :
    Frame c L held a c' (Wf.touched c L p) held := by
  have hwf := (h.setDirtyBit (p := p) (Or.inl rfl)).setValue (p := p) v
  have htouch : Frame ((c.setDirtyBit p .dirty).setValue p v) L held a c' (Wf.touched c L p) held :=
    touch hwf hp hm hv hc
  refine htouch.of_content rfl rfl rfl (fun q => ?_) fun q hq => ?_
  · by_cases hq : q = p
    · rw [hq]
      simp [KVCache.setValue, KVMessage.triple, KVCache.setDirtyBit]
    · simp [KVCache.setValue, KVCache.setDirtyBit, hq]
  · have hne : q ≠ p := (ne_of_mem_of_not_mem hp (h.not_linked_of_held hq)).symm
    simp [KVCache.setValue, KVCache.setDirtyBit, KVCache.setMessage, hne]

theorem mark (h : Wf c L held) (hp : p ∈ L.linked) (hm : a.moved = some p) (hv : a.victim = none)
    (hc : (c.setDirtyBit p .toDelete).moveToHeadLRU p = .ok c') :
    Frame c L held a c' (Wf.touched c L p) held := by
  have htouch : Frame (c.setDirtyBit p .toDelete) L held a c' (Wf.touched c L p) held :=
    touch (h.setDirtyBit (Or.inr rfl)) hp hm hv hc
  refine htouch.of_content rfl rfl rfl (fun _ => rfl) fun q hq => ?_
  have hne : q ≠ p := (ne_of_mem_of_not_mem hp (h.not_linked_of_held hq)).symm
  exact ⟨rfl, Function.update_of_ne hne _ _⟩

theorem acquire {pool : MemoryPool} {free : List NodePtr} (hv : a.victim = none)
    (hwf : Wf { c with cacheNodeMemoryPool := pool } { L with free := free } (p :: held)) :
    Frame c L held a { c with cacheNodeMemoryPool := pool } { L with free := free }
      (p :: held) where
  wf := hwf
  size := rfl
  held _ hq _ := ⟨List.mem_cons_of_mem p hq, rfl, rfl, rfl⟩
  linked _ hq _ := hq
  origin q hq := ⟨victim_ne hv q, Or.inl hq⟩
  triple _ _ := rfl
  tail _ _ ht _ _ := ht

theorem evict (h : Wf c L held) {e : Nat} (htail : (c.lruEvictionTable e).tail = some p)
    (hv : a.victim = some p) :
    Frame c L held a ((c.removeFromDllHT (hashTableIdx (c.message p)) p).removeFromDllLRU e p)
      (Wf.unlinked c L p) (p :: held) := by
  obtain ⟨hp, rfl⟩ := h.tail_linked htail
  have hwf := h.unlink hp
  have hmem : ∀ q, q ∈ (Wf.unlinked c L p).linked ↔ q ≠ p ∧ q ∈ L.linked := fun q =>
    h.linked_nodup.mem_erase_iff
  refine ⟨hwf, rfl, fun q hq _ => ⟨List.mem_cons_of_mem p hq, rfl, rfl, rfl⟩, ?_,
    ?_, fun _ _ => rfl, ?_⟩
  · intro q hq hne
    exact (hmem q).2 ⟨fun hqp => hne (by rw [hv, hqp]), hq⟩
  · intro q hq
    obtain ⟨hqp, hq'⟩ := (hmem q).1 hq
    exact ⟨fun hpq => hqp (Option.some.inj (hpq.symm.trans hv)), Or.inl hq'⟩
  · intro q x ht hne _
    have hq : q ≠ c.lruIdx p := fun hq => hne (by rw [hv, ← ht, hq, htail])
    rw [hwf.tail_eq]
    dsimp only [Wf.unlinked]
    rw [Function.update_of_ne hq, ← h.tail_eq, ht]

theorem fill (h : Wf c L held) (hp : p ∈ held) (ho : a.own = some p) (hv : a.victim = none)
    (ptr : KVMessage) : Frame c L held a (c.fill ptr p).2 L held where
  wf := h.fill hp ptr
  size := rfl
  held q hq hown := by
    have hne : q ≠ p := fun hqp => hown (by rw [ho, hqp])
    exact ⟨hq, Function.update_of_ne hne _ _, Function.update_of_ne hne _ _,
      Function.update_of_ne hne _ _⟩
  linked _ hq _ := hq
  origin q hq := ⟨victim_ne hv q, Or.inl hq⟩
  triple q hq := congrArg KVMessage.triple
    (c.fill_message_of_ne p ptr (ne_of_mem_of_not_mem hq (h.not_linked_of_held hp)))
  tail _ _ ht _ _ := ht

theorem link (h : Wf c L held) (hp : p ∈ held) (ho : a.own = some p) (hl : a.linked = some p)
    (hv : a.victim = none) (hq : c.lruIdx p < c.lruTableSize)
    (hhash : (c.message p).triple = tripleOf (c.message p).key) (hdirty : c.dirtyBit p = .dirty) :
    Frame c L held a (c.link (hashTableIdx (c.message p)) (c.lruIdx p) p)
      (Wf.linkedIn L (hashTableIdx (c.message p)) (c.lruIdx p) p) (held.erase p) := by
  have hwf := h.link hp hq hhash (Or.inl hdirty)
  refine ⟨hwf, rfl, ?_, fun x hx _ => List.mem_cons_of_mem p hx,
    fun x hx => ⟨victim_ne hv x, ?_⟩, fun _ _ => rfl, ?_⟩
  · intro x hx hown
    have hne : x ≠ p := fun hxp => hown (by rw [ho, hxp])
    exact ⟨(List.mem_erase_of_ne hne).2 hx, rfl, rfl, rfl⟩
  · rcases List.mem_cons.1 hx with rfl | hx
    · exact Or.inr hl
    · exact Or.inl hx
  · intro q x ht _ _
    rw [h.tail_eq] at ht
    rw [hwf.tail_eq]
    dsimp only [Wf.linkedIn]
    by_cases hql : q = c.lruIdx p
    · subst hql
      rw [Function.update_self, List.getLast?_cons, ht]
      rfl
    · rwa [Function.update_of_ne hql]

end Frame

/-! ## What a thread relies on -/

/-- The node that only a thread at this point has. -/
def Pc.own : Pc → Option NodePtr
  | .fill _ p => some p
  | .link _ _ p => some p
  | _ => none

/-- The node that a thread at this point is about to upgrade. -/
def Pc.target : Pc → Option NodePtr
  | .upgrade _ p => some p
  | _ => none

/-- The hashes are those of the key. -/
def Task.Hashed (task : Task) : Prop := task.ptr.triple = tripleOf task.ptr.key

/-- The operation is one that enters its key into the cache. -/
def Task.Enters (task : Task) : Prop := task.Hashed ∧ task.op ≠ .delete

/-- The node has the content that `set_all` has given it. -/
structure Filled (c : KVCache) (task : Task) (q : Nat) (p : NodePtr) : Prop where
  message : c.message p = { task.ptr with statusCode := (c.message p).statusCode }
  dirtyBit : c.dirtyBit p = .dirty
  lruIdx : c.lruIdx p = q
  queue_lt : q < c.lruTableSize

theorem Filled.fill (task : Task) (p : NodePtr) (hsize : 0 < c.lruTableSize) :
    Filled (c.fill task.ptr p).2 task (c.fill task.ptr p).1 p where
  message := by simp [KVCache.fill]
  dirtyBit := c.fill_dirtyBit_self p task.ptr
  lruIdx := c.fill_lruIdx_self p task.ptr
  queue_lt := Nat.mod_lt _ hsize

/-- What a thread relies on at each point. -/
def ThreadOk (c : KVCache) (L : Layout) (held : List NodePtr) : Pc → Prop
  | .idle => True
  | .search task => task.Hashed
  | .newEntry task | .acquire task | .evictStart task | .evictTest task _ _ | .evictHash task _
  | .evictLock task _ _ => task.Enters
  | .fill task p => task.Enters ∧ p ∈ held
  | .link task q p => task.Enters ∧ p ∈ held ∧ Filled c task q p
  | .upgrade task p =>
    task.Hashed ∧ task.op ≠ .get ∧ p ∈ L.linked ∧ (c.message p).triple = task.ptr.triple
  | .deleteDb _ => False

/-- What all threads rely on. -/
structure Threads (c : KVCache) (L : Layout) (held : List NodePtr) (pc : Nat → Pc) : Prop where
  ok : ∀ t, ThreadOk c L held (pc t)
  apart : ∀ t t' p, (pc t).own = some p → (pc t').own = some p → t = t'

theorem ThreadOk.own_held {pc : Pc} (h : ThreadOk c L held pc) (hp : pc.own = some p) :
    p ∈ held := by
  cases pc with
  | fill task q =>
    obtain rfl := Option.some.inj hp
    exact h.2
  | link task q p' =>
    obtain rfl := Option.some.inj hp
    exact h.2.1
  | _ => cases hp

/-- **The frame rule**: a thread can go on relying on what it did. -/
theorem ThreadOk.frame {pc : Pc} {a : Access} (h : ThreadOk c L held pc)
    (hf : Frame c L held a c' L' held') (hown : ∀ p, pc.own = some p → a.own ≠ some p)
    (hv : ∀ p, pc.target = some p → a.victim ≠ some p) : ThreadOk c' L' held' pc := by
  cases pc with
  | fill task p => exact ⟨h.1, (hf.held p h.2 (hown p rfl)).1⟩
  | link task q p =>
    obtain ⟨henters, hp, hfilled⟩ := h
    obtain ⟨hp', hm, hd, hl⟩ := hf.held p hp (hown p rfl)
    refine ⟨henters, hp', ?_, ?_, ?_, ?_⟩
    · rw [hm]
      exact hfilled.message
    · rw [hd, hfilled.dirtyBit]
    · rw [hl, hfilled.lruIdx]
    · rw [hf.size]
      exact hfilled.queue_lt
  | upgrade task p =>
    obtain ⟨hhashed, hop, hp, htriple⟩ := h
    have hp' := hf.linked p hp (hv p rfl)
    exact ⟨hhashed, hop, hp', (hf.triple p hp').trans htriple⟩
  | _ => exact h

theorem Threads.update {pc : Nat → Pc} {t : Nat} {pc' : Pc} {a : Access} (h : Threads c L held pc)
    (ha : a.own = (pc t).own) (hf : Frame c L held a c' L' held')
    (hv : ∀ t' ≠ t, ∀ p, (pc t').target = some p → a.victim ≠ some p)
    (hok : ThreadOk c' L' held' pc')
    (hown : ∀ p, pc'.own = some p → (pc t).own = some p ∨ p ∉ held) :
    Threads c' L' held' (Function.update pc t pc') := by
  -- no other thread has the node that `t` ends up with
  have hother : ∀ t' ≠ t, ∀ p, (pc t').own = some p → pc'.own ≠ some p := by
    intro t' ht' p hp hp'
    rcases hown p hp' with h' | h'
    · exact ht' (h.apart t' t p hp h')
    · exact h' ((h.ok t').own_held hp)
  constructor
  · intro t'
    by_cases ht : t' = t
    · rwa [ht, Function.update_self]
    · rw [Function.update_of_ne ht]
      exact (h.ok t').frame hf (fun p hp hpt => ht (h.apart t' t p hp (ha ▸ hpt))) (hv t' ht)
  · intro t₁ t₂ p h₁ h₂
    by_cases ht₁ : t₁ = t <;> by_cases ht₂ : t₂ = t
    · rw [ht₁, ht₂]
    · rw [ht₁, Function.update_self] at h₁
      rw [Function.update_of_ne ht₂] at h₂
      exact absurd h₁ (hother t₂ ht₂ p h₂)
    · rw [Function.update_of_ne ht₁] at h₁
      rw [ht₂, Function.update_self] at h₂
      exact absurd h₂ (hother t₁ ht₁ p h₁)
    · rw [Function.update_of_ne ht₁] at h₁
      rw [Function.update_of_ne ht₂] at h₂
      exact h.apart t₁ t₂ p h₁ h₂

/-! ## Steps -/

namespace SharedCache

variable {σ σ' : SharedCache} {t : Nat} {task : Task}

/-- The linked node that the next step of `t` may move to the head of its queue. -/
def moved (σ : SharedCache) (t : Nat) : Option NodePtr :=
  match σ.pc t with
  | .search task =>
    match task.op, σ.state.cache.findEntry task.ptr with
    | .get, .ok found => found
    | _, _ => none
  | .upgrade task p =>
    if task.op = .delete ∧ σ.state.cache.dirtyBit p = .toDelete then none else some p
  | _ => none

/-- The node that the next step of `t` evicts. -/
def victim (σ : SharedCache) (t : Nat) : Option NodePtr :=
  match σ.pc t with
  | .evictLock _ eqIdx _ => (σ.state.cache.lruEvictionTable eqIdx).tail
  | _ => none

/-- The nodes that the next step of `t` treats specially. -/
def access (σ : SharedCache) (t : Nat) : Access where
  own := (σ.pc t).own
  moved := σ.moved t
  victim := σ.victim t
  linked :=
    match σ.pc t with
    | .link _ _ p => some p
    | _ => none

theorem access_victim_of_ne (h : ∀ task e i, σ.pc t ≠ .evictLock task e i) :
    (σ.access t).victim = none := by
  show σ.victim t = none
  rw [victim]
  split
  · next hpc => exact absurd hpc (h _ _ _)
  · rfl

/-- An eviction finds its victim in the bucket whose lock it holds. -/
def VictimInBucket (σ : SharedCache) (t : Nat) : Prop :=
  ∀ task eqIdx hqIdx v, σ.pc t = .evictLock task eqIdx hqIdx → σ.victim t = some v →
    hashTableIdx (σ.state.cache.message v) = hqIdx

/-- An eviction does not take the node that another thread is about to upgrade. -/
def KeepsTargets (σ : SharedCache) (t : Nat) : Prop :=
  ∀ v, σ.victim t = some v → ∀ t' ≠ t, (σ.pc t').target ≠ some v

/-- The invariant, for the layout `L` and the nodes `held` between pool and lists. -/
structure Inv (σ : SharedCache) (L : Layout) (held : List NodePtr) : Prop where
  wf : Wf σ.state.cache L held
  threads : Threads σ.state.cache L held σ.pc

/-- A step of `t` to `σ'` within its frame. -/
def Steps (σ : SharedCache) (t : Nat) (L : Layout) (held : List NodePtr) (σ' : SharedCache) :
    Prop :=
  ∃ L' held' pc',
    Frame σ.state.cache L held (σ.access t) σ'.state.cache L' held' ∧
    σ'.pc = Function.update σ.pc t pc' ∧ ThreadOk σ'.state.cache L' held' pc' ∧
    ∀ p, pc'.own = some p → (σ.pc t).own = some p ∨ p ∉ held

theorem Steps.goto {pc' : Pc} {s : KVState}
    (hf : Frame σ.state.cache L held (σ.access t) s.cache L' held')
    (hok : ThreadOk s.cache L' held' pc')
    (hown : ∀ p, pc'.own = some p → (σ.pc t).own = some p ∨ p ∉ held) :
    Steps σ t L held (σ.goto t pc' s) := ⟨L', held', pc', hf, rfl, hok, hown⟩

theorem Steps.finish {ret : CacheAnswer} {s : KVState}
    (hf : Frame σ.state.cache L held (σ.access t) s.cache L' held') :
    Steps σ t L held (σ.finish t task ret s) :=
  ⟨L', held', .idle, hf, rfl, trivial, fun _ hp => by cases hp⟩

section

variable (h : Inv σ L held)
include h

theorem runSearch_ensures (hpc : σ.pc t = .search task) :
    Ensures (σ.runSearch t task) (Steps σ t L held) := by
  have hvictim : (σ.access t).victim = none := access_victim_of_ne (by simp [hpc])
  have hhashed : task.Hashed := by
    have hok := h.threads.ok t
    rwa [hpc] at hok
  have hsame : Frame σ.state.cache L held (σ.access t) σ.state.cache L held :=
    Frame.refl h.wf hvictim
  rw [runSearch]
  cases hop : task.op with
  | get =>
    refine (KVState.getSearch_ensures h.wf task.ptr).bind fun r hr => ?_
    obtain ⟨res, s⟩ := r
    rcases hr with ⟨p, hp, hf, hmove, res, ptr', rfl⟩ | ⟨hf, rfl, hload⟩
    · have hmoved : (σ.access t).moved = some p := by simp only [access, moved, hpc, hop, hf]
      exact Ensures.ok (Steps.finish (Frame.touch h.wf hp hmoved hvictim hmove))
    · cases res with
      | done res ptr' => exact Ensures.ok (Steps.finish hsame)
      | load ptr' =>
        refine Ensures.ok (Steps.goto hsame ⟨?_, by simp⟩ fun p hp => by cases hp)
        -- what the store is asked for is the entry of the task
        have htriple := hload ptr' rfl
        show ptr'.triple = tripleOf ptr'.key
        rw [htriple, show ptr'.key = task.ptr.key from congrArg Triple.key htriple]
        exact hhashed
  | put =>
    obtain ⟨found, hf⟩ := h.wf.findEntry_ok task.ptr
    simp only [hf, ok_bind]
    cases found with
    | some p =>
      obtain ⟨hp, htriple⟩ := h.wf.findEntry_some hf
      exact Ensures.ok (Steps.goto hsame ⟨hhashed, by simp [hop], hp, htriple⟩
        fun p hp => by cases hp)
    | none =>
      exact Ensures.ok (Steps.goto hsame ⟨hhashed, by simp [hop]⟩ fun p hp => by cases hp)
  | delete =>
    refine (KVState.deleteSearch_ensures h.wf task.ptr).bind fun r hr => ?_
    obtain ⟨res, s⟩ := r
    obtain ⟨hcache, hup⟩ := hr
    dsimp only at hcache hup
    -- a `DELETE` may have read the store, which is no part of the invariant
    have hsame' : Frame σ.state.cache L held (σ.access t) s.cache L held := by rwa [hcache]
    cases res with
    | done res => exact Ensures.ok (Steps.finish hsame')
    | upgrade p =>
      obtain ⟨-, -, hp, htriple⟩ := hup
      refine Ensures.ok (Steps.goto hsame' ⟨hhashed, by simp [hop], hp, ?_⟩ fun p hp => by cases hp)
      rw [hcache]
      exact htriple

theorem runUpgrade_ensures {p : NodePtr} (hpc : σ.pc t = .upgrade task p) :
    Ensures (σ.runUpgrade t task p) (Steps σ t L held) := by
  have hvictim : (σ.access t).victim = none := access_victim_of_ne (by simp [hpc])
  obtain ⟨-, hget, hp, -⟩ : ThreadOk σ.state.cache L held (.upgrade task p) := hpc ▸ h.threads.ok t
  rw [runUpgrade]
  cases hop : task.op with
  | get => exact absurd hop hget
  | put =>
    have hmoved : (σ.access t).moved = some p := by simp [access, moved, hpc, hop]
    obtain ⟨c, hc, -⟩ :=
      ((h.wf.setDirtyBit (p := p) (Or.inl rfl)).setValue (p := p) task.ptr.value).moveToHeadLRU hp
    dsimp only
    rw [KVState.upgradePut_eq h.wf hp, hc]
    exact Ensures.ok (Steps.finish (Frame.write h.wf hp hmoved hvictim _ hc))
  | delete =>
    dsimp only
    rw [KVState.upgradeDelete_eq h.wf hp]
    split_ifs with hd
    · exact Ensures.ok (Steps.finish (Frame.refl h.wf hvictim))
    · have hmoved : (σ.access t).moved = some p := by simp [access, moved, hpc, hd]
      obtain ⟨c, hc, -⟩ := (h.wf.setDirtyBit (p := p) (Or.inr rfl)).moveToHeadLRU hp
      rw [hc]
      exact Ensures.ok (Steps.finish (Frame.mark h.wf hp hmoved hvictim hc))

/-- **The locked section of an eviction.** -/
theorem runEvictLock_ensures {e i : Nat} (hpc : σ.pc t = .evictLock task e i)
    (hin : σ.VictimInBucket t) : Ensures (σ.runThread t) (Steps σ t L held) := by
  have henters : ThreadOk σ.state.cache L held (.evictLock task e i) := hpc ▸ h.threads.ok t
  rw [runThread, hpc]
  dsimp only
  cases htail : (σ.state.cache.lruEvictionTable e).tail with
  | none =>
    rw [KVState.evictLocked, htail]
    exact Ensures.error
  | some v =>
    have hvictim : (σ.access t).victim = some v := by simp only [access, victim, hpc, htail]
    obtain rfl := hin task e i v hpc hvictim
    refine (KVState.evictLocked_ensures h.wf htail).bind fun r hr => ?_
    obtain ⟨res, s⟩ := r
    obtain ⟨rfl, -, hcache⟩ := hr
    have hf : Frame σ.state.cache L held (σ.access t) s.cache (Wf.unlinked σ.state.cache L v)
        (v :: held) := by
      rw [show s.cache = _ from hcache]
      exact Frame.evict h.wf htail hvictim
    refine Ensures.ok (Steps.goto hf ⟨henters, List.mem_cons_self⟩ fun p hp => Or.inr ?_)
    obtain rfl := Option.some.inj hp
    exact fun hheld => h.wf.not_linked_of_held hheld (h.wf.tail_linked htail).1

/-- **Every step stays within its frame**, and leaves the thread what it relies on. -/
theorem runThread_ensures (hin : σ.VictimInBucket t) :
    Ensures (σ.runThread t) (Steps σ t L held) := by
  by_cases hlock : ∃ task e i, σ.pc t = .evictLock task e i
  · obtain ⟨task, e, i, hpc⟩ := hlock
    exact runEvictLock_ensures h hpc hin
  have hvictim : (σ.access t).victim = none := access_victim_of_ne fun task e i hpc =>
    hlock ⟨task, e, i, hpc⟩
  have hok := h.threads.ok t
  have hrefl := Frame.refl (a := σ.access t) h.wf hvictim
  have hnext : Frame σ.state.cache L held (σ.access t)
      σ.state.cache.getNextEvictionQueueIdx.2 L held :=
    Frame.counters h.wf hvictim _ σ.state.cache.lruTableInsertIdx
  cases hpc : σ.pc t with
  | evictLock task e i => exact absurd ⟨task, e, i, hpc⟩ hlock
  | search task =>
    rw [runThread, hpc]
    exact runSearch_ensures h hpc
  | upgrade task p =>
    rw [runThread, hpc]
    exact runUpgrade_ensures h hpc
  | deleteDb task =>
    rw [hpc] at hok
    exact hok.elim
  | idle =>
    rw [runThread, hpc]
    exact Ensures.ok ⟨L, held, .idle, hrefl, by rw [← hpc, Function.update_eq_self], trivial,
      fun p hp => by cases hp⟩
  | newEntry task =>
    rw [hpc] at hok
    rw [runThread, hpc]
    refine Ensures.ok (Steps.goto hrefl ?_ ?_)
    · split_ifs <;> exact hok
    · split_ifs <;> exact fun p hp => by cases hp
  | acquire task =>
    rw [hpc] at hok
    obtain ⟨p, pool, free', hacq, hwf, -⟩ := h.wf.acquireInstance
    rw [runThread, hpc]
    dsimp only
    rw [hacq]
    refine Ensures.ok (Steps.goto (Frame.acquire hvictim hwf) ⟨hok, List.mem_cons_self⟩
      fun q hq => Or.inr ?_)
    obtain rfl := Option.some.inj hq
    have hnd := (List.nodup_append.1 (List.nodup_append.1 hwf.nodup).1).2.1
    exact (List.nodup_cons.1 hnd).1
  | evictStart task =>
    rw [hpc] at hok
    rw [runThread, hpc]
    exact Ensures.ok (Steps.goto hnext hok fun p hp => by cases hp)
  | evictTest task e i =>
    rw [hpc] at hok
    rw [runThread, hpc]
    dsimp only
    rw [runEvictTest]
    split_ifs
    · exact Ensures.ok (Steps.goto hnext hok fun p hp => by cases hp)
    · exact Ensures.error
    · exact Ensures.ok (Steps.goto hrefl hok fun p hp => by cases hp)
  | evictHash task e =>
    rw [hpc] at hok
    rw [runThread, hpc]
    refine ensures_true.bind fun i _ => ?_
    exact Ensures.ok (Steps.goto hrefl hok fun p hp => by cases hp)
  | fill task p =>
    have hown : (σ.access t).own = some p := by rw [access, hpc]; rfl
    rw [hpc] at hok
    rw [runThread, hpc]
    refine Ensures.ok (Steps.goto (Frame.fill h.wf hok.2 hown hvictim task.ptr)
      ⟨hok.1, hok.2, Filled.fill task p h.wf.tableSize_pos⟩ fun q hq => Or.inl ?_)
    rw [hpc]
    exact hq
  -- what `fill` has left of the node is what the lists require of it
  | link task q p =>
    have hown : (σ.access t).own = some p := by rw [access, hpc]; rfl
    have hlinked : (σ.access t).linked = some p := by rw [access, hpc]
    rw [hpc] at hok
    obtain ⟨henters, hp, hfilled⟩ := hok
    have hidx : hashTableIdx (σ.state.cache.message p) = hashTableIdx task.ptr := by
      rw [hfilled.message]
      rfl
    have hhash : (σ.state.cache.message p).triple = tripleOf (σ.state.cache.message p).key := by
      rw [hfilled.message]
      exact henters.1
    have hlt := hfilled.queue_lt
    rw [← hfilled.lruIdx] at hlt
    have hf := Frame.link h.wf hp hown hlinked hvictim hlt hhash hfilled.dirtyBit
    rw [hidx, hfilled.lruIdx] at hf
    rw [runThread, hpc]
    exact Ensures.ok (Steps.finish hf)

end

/-- **The step lemma.** -/
theorem Inv.of_runThread (h : Inv σ L held) (hin : σ.VictimInBucket t) (hkeep : σ.KeepsTargets t)
    (hstep : σ.runThread t = .ok σ') :
    ∃ L' held', Frame σ.state.cache L held (σ.access t) σ'.state.cache L' held' ∧
      Inv σ' L' held' := by
  obtain ⟨L', held', pc', hf, hpc, hok, hown⟩ := runThread_ensures h hin σ' hstep
  refine ⟨L', held', hf, hf.wf, ?_⟩
  rw [hpc]
  exact h.threads.update rfl hf (fun t' ht' p hp hv => hkeep p hv t' ht' hp) hok hown

theorem Inv.of_invoke (h : Inv σ L held) (t : Nat) (op : Op) (ptr : KVMessage) :
    Inv (σ.invoke t op ptr) L held := by
  rw [invoke]
  cases hpc : σ.pc t with
  | idle =>
    refine ⟨h.wf, h.threads.update (a := ⟨(σ.pc t).own, none, none, none⟩) rfl
      (Frame.refl h.wf rfl) (fun _ _ _ _ => by simp) ?_ fun p hp => by cases hp⟩
    show KVMessage.triple (KVMessage.calculateKeyHash ptr) = _
    exact calculateKeyHash_triple ptr
  | _ => exact h

/-- An eviction, if the step is one, unlinks a node that no other thread is about to upgrade from
the bucket that the node is in. -/
def EvictsSafely (σ : SharedCache) : Action → Prop
  | .invoke _ _ _ => True
  | .run t => σ.VictimInBucket t ∧ σ.KeepsTargets t

theorem Inv.of_step {a : Action} (h : Inv σ L held) (hsafe : σ.EvictsSafely a)
    (hstep : σ.step a = .ok σ') : ∃ L' held', Inv σ' L' held' := by
  cases a with
  | invoke t op ptr =>
    obtain rfl := Except.ok.inj hstep
    exact ⟨L, held, h.of_invoke t op ptr⟩
  | run t =>
    obtain ⟨L', held', -, h'⟩ := h.of_runThread hsafe.1 hsafe.2 hstep
    exact ⟨L', held', h'⟩

theorem inv_start {cacheSize : Nat} {files : Nat → Option (List UInt8)} {s : KVState}
    (hsize : 1 ≤ cacheSize) (hs : KVState.start cacheSize files = .ok s) :
    ∃ L, Inv (start s) L [] ∧ L.linked = [] := by
  obtain ⟨c, hc, hwf, -⟩ := Wf.new hsize
  rw [KVState.start, hc] at hs
  obtain rfl := Except.ok.inj hs
  exact ⟨_, ⟨hwf, fun _ => trivial, fun _ _ _ h => by cases h⟩, rfl⟩

/-- **The invariant holds in every state reached.** -/
theorem Inv.of_run {as : List Action} (h : Inv σ L held)
    (hsafe : Meets step EvictsSafely σ as) (hrun : run step σ as = .ok σ') :
    ∃ L' held', Inv σ' L' held' :=
  run_invariant (I := fun σ => ∃ L held, Inv σ L held)
    (fun _ _ _ hI hC hstep => by
      obtain ⟨L, held, hI⟩ := hI
      exact hI.of_step hC hstep) ⟨L, held, h⟩ hsafe hrun

end SharedCache

end KeyValueStore
