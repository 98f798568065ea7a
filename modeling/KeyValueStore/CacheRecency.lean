import KeyValueStore.CacheRuns
import KeyValueStore.Lib.Lru
import KeyValueStore.Threads

/-!
# The LRU queues

The operations of one thread touch at most one node each: the one that they hit, or the one that
they insert. `Timed` is a cache with the time of each node's last touch, which is the number of the
call, and a textbook LRU cache that is touched along with it.

* `touchedNode_ensures` — the node touched is one that the search finds, or that is newly entered.
* `Edit.ordered` — every operation leaves every queue sorted by the time of the last touch.
* `Edit.keys` — with one queue, it does to its keys what the touch does to the textbook cache.
* `lru_order` — so after any sequence of operations the queues are sorted, `cache_eviction` removes
  the least recently touched node of its queue, and a small cache holds the keys of the textbook
  cache.
-/

namespace KeyValueStore

open Run Recency KVState

/-! ## Touches -/

/-- The node that an operation touches, which leads from `s` to `s'`: for `cache_GET` and
`cache_PUT` the node of the key, found or inserted, and for `cache_DELETE` the node that it newly
marks. -/
def touchedNode (s s' : KVState) (ptr : KVMessage) : Op → Option NodePtr
  | .delete => (s.cache.nodeOf ptr).filter fun p => s.cache.dirtyBit p ≠ .toDelete
  | _ => nodeBeforeOrAfter s.cache s'.cache ptr

/-- A cache and what was touched so far. -/
structure Timed (cacheSize : Nat) where
  state : KVState
  /-- The number of operations called. -/
  now : Nat
  lastTouch : NodePtr → Nat
  lru : Lru Chars256 cacheSize

variable {cacheSize : Nat}

namespace Timed

def start (s : KVState) : Timed cacheSize := ⟨s, 0, fun _ => 0, Lru.empty⟩

/-- An operation leads to `s` and touches the node that is given, if any. -/
def next (t : Timed cacheSize) (s : KVState) : Option NodePtr → Timed cacheSize
  | none => { t with state := s, now := t.now + 1 }
  | some p =>
    { state := s
      now := t.now + 1
      lastTouch := Function.update t.lastTouch p t.now
      lru := t.lru.touch (s.cache.message p).key }

def call (t : Timed cacheSize) (a : Op × KVMessage) :
    Except Fault (CacheAnswer × Timed cacheSize) := do
  let (answer, s) ← t.state.call (a.1.call a.2)
  return (answer, t.next s (touchedNode t.state s a.2 a.1))

end Timed

variable {c c' : KVCache} {L L' : Layout} {held : List NodePtr} {p : NodePtr} {o : Option NodePtr}
  {s : KVState}

/-- An operation for `ptr` that leads from `s` to `s'` finds the node, or `cache_PUT_new_entry` has
entered it; if there is none, the cache stays as it is. -/
def FindsOrEnters (s s' : KVState) (ptr : KVMessage) : Option NodePtr → Prop
  | none => s'.cache = s.cache
  | some p => s.cache.findEntry ptr.calculateKeyHash = .ok (some p) ∨
      ∃ ptr', ptr'.key = ptr.key ∧ s.cachePUTNewEntry ptr' (hashTableIdx ptr') = .ok (p, s')

section

variable {ptr : KVMessage}

theorem findsOrEnters_hit (hf : s.cache.findEntry ptr.calculateKeyHash = .ok (some p))
    (s' : KVState) : FindsOrEnters s s' ptr (nodeBeforeOrAfter s.cache s'.cache ptr) := by
  rw [nodeBeforeOrAfter, nodeOf_eq hf]
  exact Or.inl hf

/-- What a new entry is filled into is found afterwards. -/
theorem cachePUTNewEntry_enters (h : Wf s.cache L []) (hd : DistinctKeys s.cache L)
    (hf : s.cache.findEntry ptr.calculateKeyHash = .ok none) {ptr' : KVMessage}
    (hptr : ptr'.triple = ptr.calculateKeyHash.triple) :
    Ensures (s.cachePUTNewEntry ptr' (hashTableIdx ptr')) fun r =>
      FindsOrEnters s r.2 ptr (nodeBeforeOrAfter s.cache r.2.cache ptr) := by
  have hkey : ptr'.key = ptr.key := congrArg Triple.key hptr
  have hown : ptr'.triple = tripleOf ptr'.key := by
    rw [hptr, hkey]
    rfl
  have hnew := cachePUTNewEntry_ensures h hd rfl hown (hptr ▸ h.findEntry_none hf)
  intro r hr
  rw [nodeBeforeOrAfter, nodeOf_eq hf, Option.none_or, (hnew r hr).2 ptr hkey.symm]
  exact Or.inr ⟨ptr', hkey, hr⟩

theorem cacheGET_touches (h : Wf s.cache L []) (hd : DistinctKeys s.cache L) :
    Ensures (s.cacheGET ptr) fun r =>
      FindsOrEnters s r.2.2 ptr (nodeBeforeOrAfter s.cache r.2.2.cache ptr) := by
  rw [cacheGET, cacheGETPtr]
  refine Ensures.bind (P := fun r =>
    FindsOrEnters s r.2.2 ptr (nodeBeforeOrAfter s.cache r.2.2.cache ptr)) ?_
    fun r hr => Ensures.ok hr
  refine (getSearch_ensures h ptr.calculateKeyHash).bind fun r hr => ?_
  obtain ⟨res, s₁⟩ := r
  rcases hr with ⟨p, -, hf, -, res, ptr', rfl⟩ | ⟨hf, rfl, hload⟩
  · exact Ensures.ok (findsOrEnters_hit hf s₁)
  · cases res with
    | done res ptr' =>
      apply Ensures.ok
      dsimp only
      rw [nodeBeforeOrAfter, nodeOf_eq hf]
      rfl
    | load ptr' =>
      exact (cachePUTNewEntry_enters h hd hf (hload ptr' rfl)).bind fun r hr => Ensures.ok hr

theorem cachePUT_touches (h : Wf s.cache L []) (hd : DistinctKeys s.cache L) :
    Ensures (s.cachePUT ptr) fun s' =>
      FindsOrEnters s s' ptr (nodeBeforeOrAfter s.cache s'.cache ptr) := by
  obtain ⟨found, hf⟩ := h.findEntry_ok ptr.calculateKeyHash
  rw [cachePUT, hf, ok_bind]
  cases found with
  | some p => exact fun s' _ => findsOrEnters_hit hf s'
  | none => exact (cachePUTNewEntry_enters h hd hf rfl).bind fun r hr => Ensures.ok hr

theorem cacheDELETE_touches (h : Wf s.cache L []) : Ensures (s.cacheDELETE ptr) fun r =>
    FindsOrEnters s r.2 ptr
      ((s.cache.nodeOf ptr).filter fun p => s.cache.dirtyBit p ≠ .toDelete) := by
  obtain ⟨found, hf⟩ := h.findEntry_ok ptr.calculateKeyHash
  rw [nodeOf_eq hf, cacheDELETE]
  refine (deleteSearch_ensures h ptr.calculateKeyHash).bind fun r hr => ?_
  obtain ⟨res, s₁⟩ := r
  obtain ⟨hcache, hres⟩ := hr
  dsimp only at hcache hres ⊢
  cases res with
  | done res =>
    apply Ensures.ok
    cases found with
    | none => exact hcache
    | some p =>
      rw [Option.filter_some_neg (by simpa using hres p hf)]
      exact hcache
  | upgrade p =>
    obtain ⟨hf', hdirty, -⟩ := hres
    obtain rfl := Except.ok.inj (hf.symm.trans hf')
    rw [Option.filter_some_pos (by simpa using hdirty)]
    exact fun _ _ => Or.inl hf

end

/-- **What is touched** is the node that the search finds, or the one that `cache_PUT_new_entry`
enters. -/
theorem touchedNode_ensures (h : Wf s.cache L []) (hd : DistinctKeys s.cache L) (op : Op)
    (ptr : KVMessage) :
    Ensures (s.call (op.call ptr)) fun r =>
      FindsOrEnters s r.2 ptr (touchedNode s r.2 ptr op) := by
  cases op with
  | get => exact (cacheGET_touches h hd).bind fun r hr => Ensures.ok hr
  | put => exact (cachePUT_touches h hd).bind fun r hr => Ensures.ok hr
  | delete => exact (cacheDELETE_touches h).bind fun r hr => Ensures.ok hr

/-! ## The queues after a touch -/

theorem update_erase {B : Nat → List NodePtr} {i : Nat} (hp : ∀ j, p ∈ B j → j = i) (j : Nat) :
    Function.update B i ((B i).erase p) j = (B j).erase p := by
  by_cases hj : j = i
  · rw [hj, Function.update_self]
  · rw [Function.update_of_ne hj, List.erase_of_not_mem fun hm => hj (hp j hm)]

theorem Wf.unlinked_queue (h : Wf c L held) (p : NodePtr) (q : Nat) :
    (Wf.unlinked c L p).queue q = (L.queue q).erase p :=
  update_erase (fun j hj => ((h.mem_queue j p).1 hj).2.symm) q

theorem Wf.unlinked_bucket (h : Wf c L held) (p : NodePtr) (i : Nat) :
    (Wf.unlinked c L p).bucket i = (L.bucket i).erase p :=
  update_erase (fun j hj => ((h.mem_bucket j p).1 hj).2.symm) i

/-- Moving a node to the head is unlinking it and linking it in again. -/
theorem Wf.touched_queue : (Wf.touched c L p).queue =
    Function.update (Wf.unlinked c L p).queue (c.lruIdx p)
      (p :: (Wf.unlinked c L p).queue (c.lruIdx p)) := by
  simp only [Wf.touched, Wf.unlinked, Function.update_self, Function.update_idem]

/-- **A touch puts its node at the head of a queue**, and out of all other places. -/
theorem Edit.queue_eq (h : Wf c L held) (hedit : Edit c L c' L' (some p)) :
    ∃ Q q, L'.queue = Function.update Q q (p :: Q q) ∧
      ∀ i, (Q i).Sublist (L.queue i) ∧ p ∉ Q i := by
  have hunlinked : ∀ i, ((Wf.unlinked c L p).queue i).Sublist (L.queue i) ∧
      p ∉ (Wf.unlinked c L p).queue i := by
    intro i
    rw [h.unlinked_queue]
    exact ⟨List.erase_sublist, (h.queues.rep i).2.not_mem_erase⟩
  cases hedit with
  | hit hp _ hqueue => exact ⟨_, _, hqueue.trans Wf.touched_queue, hunlinked⟩
  | insert q _ hp _ hqueue =>
    exact ⟨_, q, hqueue, fun i => ⟨List.Sublist.refl _, h.not_mem_queue hp i⟩⟩
  | replace e q _ hp _ _ hqueue => exact ⟨_, q, hqueue, hunlinked⟩

theorem Edit.linked_subset (hedit : Edit c L c' L' (some p)) {x : NodePtr} (hx : x ∈ L'.linked) :
    x = p ∨ x ∈ L.linked := by
  cases hedit with
  | hit _ hlinked => exact Or.inr (hlinked ▸ hx)
  | insert _ _ _ hlinked => exact List.mem_cons.1 (hlinked ▸ hx)
  | replace _ _ _ _ _ hlinked =>
    exact (List.mem_cons.1 (hlinked ▸ hx)).imp_right List.mem_of_mem_erase

/-- **Every queue stays sorted.** -/
theorem Edit.ordered {t : Timed cacheSize} (h : Wf c L held) (hedit : Edit c L c' L' o)
    (hord : ∀ q, Ordered t.lastTouch (L.queue q)) (hpast : ∀ x ∈ L.linked, t.lastTouch x < t.now) :
    (∀ q, Ordered (t.next s o).lastTouch (L'.queue q)) ∧
      ∀ x ∈ L'.linked, (t.next s o).lastTouch x < (t.next s o).now := by
  cases o with
  | none =>
    cases hedit with
    | keep hlinked hqueue =>
      refine ⟨fun q => hqueue ▸ hord q, ?_⟩
      intro x hx
      exact Nat.lt_succ_of_lt (hpast x (hlinked ▸ hx))
  | some p =>
    constructor
    · intro i
      obtain ⟨Q, q, hqueue, hQ⟩ := Edit.queue_eq h hedit
      obtain ⟨hsub, hp⟩ := hQ i
      have hQi := (hord i).sublist hsub
      rw [hqueue]
      by_cases hi : i = q
      · rw [hi, Function.update_self]
        refine Ordered.touch (hi ▸ hQi) (hi ▸ hp) fun x hx => hpast x ?_
        exact ((h.mem_queue q x).1 ((hi ▸ hsub).subset hx)).1
      · rw [Function.update_of_ne hi]
        exact hQi.untouched hp
    · intro x hx
      show Function.update t.lastTouch p t.now x < t.now + 1
      by_cases hxp : x = p
      · rw [hxp, Function.update_self]
        exact Nat.lt_succ_self _
      · rw [Function.update_of_ne hxp]
        exact Nat.lt_succ_of_lt (hpast x ((Edit.linked_subset hedit hx).resolve_left hxp))

/-! ## One queue -/

theorem Wf.queue_zero (h : Wf c L held) (hone : c.lruTableSize = 1) {i : Nat}
    (hp : p ∈ L.queue i) : i = 0 := by
  obtain ⟨hl, rfl⟩ := (h.mem_queue i p).1 hp
  have hlt := h.queue_lt p hl
  omega

theorem Wf.queue_perm (h : Wf c L held) (hone : c.lruTableSize = 1) :
    (L.queue 0).Perm L.linked := by
  refine (List.perm_ext_iff_of_nodup (h.queues.rep 0).2 h.linked_nodup).2 fun p => ?_
  refine ⟨fun hp => ((h.mem_queue 0 p).1 hp).1, ?_⟩
  intro hp
  have hm := (h.mem_queue _ p).2 ⟨hp, rfl⟩
  rwa [h.queue_zero hone hm] at hm

/-- **A touch does to the keys of the queue what it does to the textbook cache.** -/
theorem Edit.keys {t : Timed cacheSize} (h : Wf c L []) (h' : Wf s.cache L' [])
    (hn : c.cacheNodeMemoryPool.allocated = cacheSize) (hone : c.lruTableSize = 1)
    (hone' : s.cache.lruTableSize = 1) (hedit : Edit c L s.cache L' o)
    (hkeys : ((L.queue 0).map fun x => (c.message x).key) = t.lru.keys) :
    ((L'.queue 0).map fun x => (s.cache.message x).key) = (t.next s o).lru.keys := by
  have hcount := h.count
  have hperm := h.queue_perm hone
  have hlinked : ∀ x ∈ L.queue 0, x ∈ L.linked := fun x hx => hperm.mem_iff.1 hx
  have hfresh : ∀ k, (∀ x ∈ L.linked, (c.message x).key ≠ k) → k ∉ t.lru.keys := by
    rintro k hk hmem
    rw [← hkeys] at hmem
    obtain ⟨x, hx, hxk⟩ := List.mem_map.1 hmem
    exact hk x (hlinked x hx) hxk
  -- the keys of nodes that keep theirs
  have hmap : ∀ xs : List NodePtr, (∀ x ∈ xs, (s.cache.message x).key = (c.message x).key) →
      (xs.map fun x => (s.cache.message x).key) = xs.map fun x => (c.message x).key :=
    fun xs hxs => List.map_congr_left hxs
  cases hedit with
  | keep _ hqueue hkey =>
    rw [hqueue, hmap _ fun x hx => hkey x (hlinked x hx)]
    exact hkeys
  | @hit p hp _ hqueue hkey =>
    have hmem := (h.mem_queue _ p).2 ⟨hp, rfl⟩
    have hidx := h.queue_zero hone hmem
    rw [hidx] at hmem
    rw [hqueue, Wf.touched, hidx]
    show (Function.update L.queue 0 (p :: (L.queue 0).erase p) 0).map _ = _
    rw [Function.update_self]
    exact Lru.keys_touch_hit ((hmap _ fun x hx => hkey x (hlinked x hx)).trans hkeys) hmem
  | @insert p q hfree hp hl hqueue hkey hne =>
    have hq : q = 0 := h'.queue_zero (p := p) hone' (by rw [hqueue, Function.update_self]; simp)
    have hroom : (L.queue 0).length < cacheSize := by
      have hpos := List.length_pos_iff.2 hfree
      rw [hperm.length_eq, ← hn, ← hcount]
      omega
    rw [hqueue, hq, Function.update_self, List.map_cons,
      hmap _ fun x hx => hkey x (hlinked x hx)]
    exact Lru.keys_touch_insert hkeys (hfresh _ hne) hroom
  | @replace p e q hfull hp hlast hl hqueue hkey hne =>
    have hq : q = 0 := h'.queue_zero (p := p) hone' (by rw [hqueue, Function.update_self]; simp)
    rw [h.queue_zero hone (List.mem_of_getLast? hlast)] at hlast
    obtain ⟨xs, hxs⟩ := List.getLast?_eq_some_iff.1 hlast
    have hnd := (h.queues.rep 0).2
    rw [hxs] at hnd hkeys hlinked
    have hout : p ∉ xs := fun hm =>
      (List.nodup_append.1 hnd).2.2 p hm p (List.mem_singleton_self p) rfl
    have hsize : (xs ++ [p]).length = cacheSize := by
      rw [← hxs, hperm.length_eq, ← hn, ← hcount, hfull]
      rfl
    rw [hqueue, hq, Function.update_self, h.unlinked_queue, hxs, List.erase_append_right _ hout,
      List.erase_cons_head, List.append_nil, List.map_cons, hmap _ fun x hx => hkey x
        (hlinked x (List.mem_append_left _ hx)) (ne_of_mem_of_not_mem hx hout)]
    exact Lru.keys_touch_replace hkeys (hfresh _ hne) hsize

/-! ## Runs -/

namespace Timed

/-- The invariant of the operations of one thread. -/
structure Inv (t : Timed cacheSize) (L : Layout) : Prop where
  wf : Wf t.state.cache L []
  distinct : DistinctKeys t.state.cache L
  allocated : t.state.cache.cacheNodeMemoryPool.allocated = cacheSize
  tableSize : cacheSize < 1024 → t.state.cache.lruTableSize = 1
  ordered : ∀ q, Ordered t.lastTouch (L.queue q)
  past : ∀ p ∈ L.linked, t.lastTouch p < t.now
  keys : cacheSize < 1024 →
    ((L.queue 0).map fun x => (t.state.cache.message x).key) = t.lru.keys

variable {t : Timed cacheSize}

theorem Inv.next (h : t.Inv L) (hs : Edited cacheSize t.state.cache L s.cache o) :
    ∃ L', (t.next s o).Inv L' := by
  obtain ⟨L', hwf, hd, hn, hsize, hedit⟩ := hs
  obtain ⟨hord, hpast⟩ := Edit.ordered (s := s) h.wf hedit h.ordered h.past
  have hstate : (t.next s o).state = s := by cases o <;> rfl
  refine ⟨L', ?_, ?_, ?_, ?_, hord, hpast, ?_⟩
  · rwa [hstate]
  · rwa [hstate]
  · rwa [hstate]
  · intro hsmall
    rw [hstate, hsize, h.tableSize hsmall]
  · intro hsmall
    have hone := h.tableSize hsmall
    rw [hstate]
    exact Edit.keys h.wf hwf h.allocated hone (hsize.trans hone) hedit (h.keys hsmall)

/-- **Every operation keeps the invariant**, whatever the store answers. -/
theorem call_ensures (h : t.Inv L) (a : Op × KVMessage) :
    Ensures (t.call a) fun r => ∃ L', r.2.Inv L' := by
  have hedited : Ensures (t.state.call (a.1.call a.2)) fun r =>
      Edited cacheSize t.state.cache L r.2.cache (touchedNode t.state r.2 a.2 a.1) := by
    obtain ⟨op, ptr⟩ := a
    cases op with
    | get =>
      exact (cacheGET_ensures h.wf h.distinct h.allocated ptr).bind fun r hr => Ensures.ok hr
    | put =>
      exact (cachePUT_ensures h.wf h.distinct h.allocated ptr).bind fun r hr => Ensures.ok hr
    | delete =>
      exact (cacheDELETE_ensures h.wf h.distinct h.allocated ptr).bind fun r hr => Ensures.ok hr
  exact hedited.bind fun r hr => Ensures.ok (h.next hr)

theorem lruTableSize_new (hc : KVCache.new cacheSize = .ok c) (hsmall : cacheSize < 1024) :
    c.lruTableSize = 1 := by
  obtain ⟨pool, hpool, -⟩ := MemoryPool.rep_init cacheSize 2
  rw [KVCache.new, hpool] at hc
  obtain rfl := Except.ok.inj hc
  show (if 10240 ≤ cacheSize then 128 else if 1024 ≤ cacheSize then 32 else 1) = 1
  rw [if_neg (by omega), if_neg (by omega)]

theorem inv_start (hsize : 1 ≤ cacheSize) {files : Nat → Option (List UInt8)} :
    ∃ s, KVState.start cacheSize files = .ok s ∧ ∃ L, (start s : Timed cacheSize).Inv L := by
  obtain ⟨c, hc, hwf, halloc⟩ := Wf.new hsize
  refine ⟨⟨c, KVStore.initKvstore files⟩, by rw [KVState.start, hc]; rfl, _, hwf,
    fun _ hp => (List.not_mem_nil hp).elim, halloc, lruTableSize_new hc, fun q => List.Pairwise.nil,
    fun _ hp => (List.not_mem_nil hp).elim, fun _ => rfl⟩

/-- The law of recency, for a cache laid out as `L`. -/
structure LruLaw (t : Timed cacheSize) (L : Layout) : Prop where
  wellFormed : WellFormedCache cacheSize t.state.cache L
  /-- From head to tail, the times of the last touch decrease. -/
  ordered : ∀ q, (L.queue q).Pairwise fun x y => t.lastTouch y < t.lastTouch x
  /-- `cache_eviction` takes out the least recently touched node of the queue that it selects, or
  there is none. -/
  eviction : Ensures t.state.cacheEviction fun r => (r.1 = none ∧ L.linked = []) ∨
    ∃ p q, r.1 = some p ∧ t.state.cache.evictionQueue = some q ∧ p ∈ L.queue q ∧
      (∀ x ∈ L.queue q, x ≠ p → t.lastTouch p < t.lastTouch x) ∧
      ∀ i, WellFormedList (r.2.cache.queueLinks i) ((L.queue i).erase p) ∧
        WellFormedList (r.2.cache.bucketLinks i) ((L.bucket i).erase p)
  /-- A cache of one queue holds the keys of the textbook cache. -/
  replacement : cacheSize < 1024 → t.state.cache.lruTableSize = 1 ∧
    ∀ k, (∃ p ∈ L.linked, (t.state.cache.message p).key = k) ↔ k ∈ t.lru.keys

theorem Inv.lruLaw (h : t.Inv L) : t.LruLaw L where
  wellFormed := WellFormedCache.of_wf h.wf h.distinct h.allocated
  ordered := h.ordered
  eviction := by
    refine (KVState.cacheEviction_ensures h.wf).mono fun r hr => hr.imp_right ?_
    rintro ⟨p, q, hp, hq, hev⟩
    refine ⟨p, q, hp, hq, List.mem_of_getLast? hev.last, (h.ordered q).lt_of_last hev.last,
      fun i => ⟨?_, ?_⟩⟩
    · rw [← h.wf.unlinked_queue]
      exact WellFormedList.of_rep (hev.wf.queues.rep i)
    · rw [← h.wf.unlinked_bucket]
      exact WellFormedList.of_rep (hev.wf.buckets.rep i)
  replacement hsmall := by
    have hone := h.tableSize hsmall
    refine ⟨hone, ?_⟩
    intro k
    rw [← h.keys hsmall, List.mem_map]
    exact exists_congr fun p => and_congr_left' (h.wf.queue_perm hone).mem_iff.symm

theorem call_spec {d : Dict} (h : KVState.Holds cacheSize t.state d) (hpos : 0 < cacheSize)
    (a : Op × KVMessage) :
    SucceedsUnlessFull (t.call a) fun r => r.1 = (dictCall d (a.1.call a.2)).1 ∧
      KVState.Holds cacheSize r.2.state (dictCall d (a.1.call a.2)).2 := by
  refine (KVState.call_spec h hpos (a.1.call a.2)).bind fun r hr => Excused.ok ⟨hr.1, ?_⟩
  have hstate : ∀ o, (t.next r.2 o).state = r.2 := fun o => by cases o <;> rfl
  rw [hstate]
  exact hr.2

theorem cacheEviction_returns {d : Dict} (h : KVState.Holds cacheSize t.state d) :
    SucceedsUnlessFull t.state.cacheEviction fun _ => True := by
  obtain ⟨L, hrep, -⟩ := h
  by_cases hnil : L.linked = []
  · obtain ⟨i, hev⟩ := cacheEviction_empty hrep hnil
    exact Or.inr ⟨_, hev, trivial⟩
  · exact (cacheEviction_spec hrep hnil).mono fun _ _ => trivial

/-- **The LRU queues.** After any sequence of operations, for every cache size and every directory,
the law of recency holds; and if the files are well formed the operations do return, and so does
`cache_eviction`. -/
theorem lru_order (hsize : 1 ≤ cacheSize) (files : Nat → Option (List UInt8)) :
    ∃ s, KVState.start cacheSize files = .ok s ∧ ∀ cs,
      (Ensures (calls Timed.call (start s : Timed cacheSize) cs) fun r => ∃ L, r.2.LruLaw L) ∧
      (WellFormedFiles files →
        SucceedsUnlessFull (calls Timed.call (start s : Timed cacheSize) cs) fun r =>
          (∃ L, r.2.LruLaw L) ∧ SucceedsUnlessFull r.2.state.cacheEviction fun _ => True) := by
  obtain ⟨s, hs, hinv⟩ := @inv_start _ hsize files
  refine ⟨s, hs, ?_⟩
  intro cs
  have hlaw : Ensures (calls Timed.call (start s : Timed cacheSize) cs) fun r =>
      ∃ L, r.2.LruLaw L :=
    (calls_ensures (I := fun t : Timed cacheSize => ∃ L, t.Inv L)
      (fun t a ⟨L, h⟩ => call_ensures h a) cs hinv).mono fun r ⟨L, h⟩ => ⟨L, h.lruLaw⟩
  refine ⟨hlaw, ?_⟩
  intro hfiles
  obtain ⟨m, hm⟩ := hfiles.exists_rep
  obtain ⟨s', hs', -, hrep, hn⟩ := start_spec hsize hm
  obtain rfl := Except.ok.inj (hs.symm.trans hs')
  have hcalls := simulation (fun (t : Timed cacheSize) d => KVState.Holds cacheSize t.state d)
    (fun t d a h => call_spec h hsize a) cs (s := start s) ⟨_, hrep, hn⟩
  rcases hcalls with hfull | ⟨r, hr, hspec⟩
  · exact Or.inl hfull
  · exact Or.inr ⟨r, hr, hlaw r hr, cacheEviction_returns hspec.2⟩

/-- `PUT` of `k`, `1`. -/
def putOne (k : UInt8) : Op × KVMessage :=
  (.put, ⟨0, Chars256.ofText [k], Chars256.ofText [49], 0, 0⟩)

/-- A cache of three nodes is filled, hit, tombstoned and filled beyond its size. -/
theorem lru_order_three : ∃ s, KVState.start 3 (fun _ => none) = .ok s ∧
    SucceedsUnlessFull (calls Timed.call (start s : Timed 3)
      [putOne 97, putOne 98, putOne 99, (.get, (putOne 97).2), (.delete, (putOne 98).2),
        (.get, (putOne 98).2), putOne 100])
      fun r => (∃ L, r.2.LruLaw L) ∧ SucceedsUnlessFull r.2.state.cacheEviction fun _ => True := by
  obtain ⟨s, hs, hcalls⟩ := @lru_order 3 (by decide) fun _ => none
  exact ⟨s, hs, (hcalls _).2 wellFormedFiles_none⟩

end Timed

end KeyValueStore
