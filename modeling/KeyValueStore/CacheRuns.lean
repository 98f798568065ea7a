import KeyValueStore.CacheOperations
import KeyValueStore.StoreRuns

/-!
# Runs of the cache

Any sequence of requests, one after another, on a cache that starts empty over a directory of
well-formed files. The specification is a dictionary.

* `cache_refines_dictionary` — every request answers as the dictionary does.
* `reachable_caches` — every state reached is well formed.
* `clean_shutdown` — after `cache_clean` and a restart, every lookup answers as before.
-/

namespace KeyValueStore

open Run

/-- The same call on a dictionary. -/
def dictCall (d : Dict) : CacheCall → CacheAnswer × Dict
  | .get ptr => (.get (dictGet d ptr.calculateKeyHash).1 (dictGet d ptr.calculateKeyHash).2, d)
  | .put ptr => (.put, Function.update d ptr.key (some ptr.value))
  | .delete ptr => (.delete (d ptr.key).isSome, Function.update d ptr.key none)
  | .evictionSimple => (.evictionSimple, d)

namespace KVState

variable {s : KVState} {L : Layout} {held : List NodePtr} {d : Dict} {n cacheSize : Nat}
  {files : Nat → Option (List UInt8)}

theorem lookup_eq (h : Represents s L held d) (key : Chars256) : s.lookup key = .ok (d key) := by
  rw [lookup]
  generalize hptr : KVMessage.calculateKeyHash { KVMessage.empty with key := key } = ptr
  have hkey : ptr.key = key := by rw [← hptr]; rfl
  have htriple : ptr.triple = tripleOf ptr.key := by rw [← hptr]; rfl
  obtain ⟨found, hf⟩ := h.wf.findEntry_ok ptr
  simp only [hf, ok_bind]
  cases found with
  | some p =>
    obtain ⟨hp, hmatch⟩ := h.wf.findEntry_some hf
    have hd := h.cached p hp
    rw [show (s.cache.message p).key = key from (congrArg Triple.key hmatch).trans hkey] at hd
    rw [hd]
    rfl
  | none =>
    rw [h.readFromDb_eq ptr htriple hf, ok_bind, dictGet, ← hkey]
    cases d ptr.key <;> rfl

/-- **One request of the cache is one request of the dictionary.** -/
theorem call_spec (h : Holds n s d) (hpos : 0 < n) (c : CacheCall) :
    SucceedsUnlessFull (s.call c) fun r =>
      r.1 = (dictCall d c).1 ∧ Holds n r.2 (dictCall d c).2 := by
  cases c with
  | get ptr =>
    refine (cacheGET_spec h hpos ptr).bind fun r hr => ?_
    obtain ⟨found, ptr', s'⟩ := r
    obtain ⟨hget, hs'⟩ := hr
    refine Excused.ok ⟨?_, hs'⟩
    show CacheAnswer.get found ptr' = .get _ _
    rw [← hget]
  | put ptr => exact (cachePUT_spec h hpos ptr).bind fun s' hs' => Excused.ok ⟨rfl, hs'⟩
  | delete ptr =>
    obtain ⟨s', hdel, hs'⟩ := cacheDELETE_spec h ptr
    exact Or.inr ⟨_, by rw [call, hdel]; rfl, rfl, hs'⟩
  | evictionSimple => exact (cacheEvictionSimple_spec h).bind fun s' hs' => Excused.ok ⟨rfl, hs'⟩

theorem calls_spec (h : Holds n s d) (hpos : 0 < n) (cs : List CacheCall) :
    SucceedsUnlessFull (calls call s cs) fun r =>
      r.1 = (specCalls dictCall d cs).1 ∧ Holds n r.2 (specCalls dictCall d cs).2 :=
  simulation (Holds n) (fun _ _ c h => call_spec h hpos c) cs h

/-- The server starts with the dictionary that the files hold. -/
theorem start_spec (hsize : 1 ≤ cacheSize) {m : Triple → Option Chars256}
    (hm : StoreRep (KVStore.initKvstore files) m) :
    ∃ s, start cacheSize files = .ok s ∧ s.store = KVStore.initKvstore files ∧
      Represents s ⟨[], fun _ => [], fun _ => [], List.range cacheSize⟩ []
        (fun k => m (tripleOf k)) ∧
      s.cache.cacheNodeMemoryPool.allocated = cacheSize := by
  obtain ⟨c, hc, hwf, halloc⟩ := Wf.new hsize
  refine ⟨⟨c, KVStore.initKvstore files⟩, by rw [start, hc]; rfl, rfl, ?_, halloc⟩
  exact ⟨hwf, fun _ hp => (List.not_mem_nil hp).elim, by simp, m, hm, fun _ _ => rfl⟩

/-- What the store of a state without nodes answers. -/
theorem readFromDb_of_rep {store : KVStore} {m : Triple → Option Chars256} (hm : StoreRep store m)
    (hd : ∀ k, d k = m (tripleOf k)) (ptr : KVMessage) :
    store.readFromDb ptr.calculateKeyHash = .ok (dictGet d ptr.calculateKeyHash) := by
  rw [KVStore.readFromDb_eq hm]
  cases hv : d ptr.key <;> simp [readAnswer, dictGet, ← hd, hv]

theorem start_dict (hsize : 1 ≤ cacheSize) (hfiles : WellFormedFiles files) :
    ∃ s d, start cacheSize files = .ok s ∧
      (∀ ptr : KVMessage,
        s.store.readFromDb ptr.calculateKeyHash = .ok (dictGet d ptr.calculateKeyHash)) ∧
      Represents s ⟨[], fun _ => [], fun _ => [], List.range cacheSize⟩ [] d ∧
      s.cache.cacheNodeMemoryPool.allocated = cacheSize := by
  obtain ⟨m, hm⟩ := hfiles.exists_rep
  obtain ⟨s, hs, hstore, hrep, hn⟩ := start_spec hsize hm
  refine ⟨s, fun k => m (tripleOf k), hs, ?_, hrep, hn⟩
  intro ptr
  rw [hstore]
  exact readFromDb_of_rep hm (fun _ => rfl) ptr

/-- **Cache and store refine a dictionary**: for every cache size, every directory of well-formed
files and every sequence of requests. -/
theorem cache_refines_dictionary (hsize : 1 ≤ cacheSize) (hfiles : WellFormedFiles files) :
    ∃ (s : KVState) (d : Dict), start cacheSize files = .ok s ∧
      (∀ ptr : KVMessage,
        s.store.readFromDb ptr.calculateKeyHash = .ok (dictGet d ptr.calculateKeyHash)) ∧
      ∀ cs, SucceedsUnlessFull (calls call s cs) fun r =>
        r.1 = (specCalls dictCall d cs).1 ∧
        ∀ key, r.2.lookup key = .ok ((specCalls dictCall d cs).2 key) := by
  obtain ⟨s, d, hs, hread, hrep, hn⟩ := start_dict hsize hfiles
  refine ⟨s, d, hs, hread, ?_⟩
  intro cs
  refine (calls_spec ⟨_, hrep, hn⟩ hsize cs).mono fun r hr => ⟨hr.1, fun key => ?_⟩
  obtain ⟨L, hrep', -⟩ := hr.2
  exact lookup_eq hrep' key

/-- Calls that evict: the first two keys are of one chain of the store, each is written back and
loaded again, and the first one is evicted when it is marked as deleted. -/
def evictingCalls : List CacheCall :=
  [.put pairD1, .put pairAc2, .get pairD1, .delete pairD1, .put (entry 98 3), .get pairAc2,
    .get pairD1, .evictionSimple, .put pairD1]

theorem cache_refines_dictionary_one : ∃ (s : KVState) (d : Dict),
    start 1 (fun _ => none) = .ok s ∧
      (∀ ptr : KVMessage,
        s.store.readFromDb ptr.calculateKeyHash = .ok (dictGet d ptr.calculateKeyHash)) ∧
      SucceedsUnlessFull (calls call s evictingCalls) fun r =>
        r.1 = (specCalls dictCall d evictingCalls).1 ∧
        ∀ key, r.2.lookup key = .ok ((specCalls dictCall d evictingCalls).2 key) := by
  obtain ⟨s, d, hs, hd, hcalls⟩ :=
    cache_refines_dictionary (le_refl 1) wellFormedFiles_none
  exact ⟨s, d, hs, hd, hcalls _⟩

/-- **Every state reached is well formed**, for every cache size, every directory and every sequence
of calls; and if the files are well formed the calls do return. -/
theorem reachable_caches (hsize : 1 ≤ cacheSize) (files : Nat → Option (List UInt8)) :
    ∃ s, start cacheSize files = .ok s ∧ ∀ cs,
      (Ensures (calls call s cs) fun r => ∃ L, WellFormedCache cacheSize r.2.cache L) ∧
      (WellFormedFiles files → SucceedsUnlessFull (calls call s cs) fun r =>
        ∃ L, WellFormedCache cacheSize r.2.cache L) := by
  obtain ⟨c, hc, hwf, halloc⟩ := Wf.new hsize
  have hstart : start cacheSize files = .ok ⟨c, KVStore.initKvstore files⟩ := by rw [start, hc]; rfl
  refine ⟨_, hstart, ?_⟩
  intro cs
  have hinv : CacheInv cacheSize c := ⟨_, hwf, fun _ hp => (List.not_mem_nil hp).elim, halloc⟩
  have hcalls := (calls_ensures (I := fun s : KVState => CacheInv cacheSize s.cache)
    (fun _ a h => call_ensures h a) cs (s := ⟨c, KVStore.initKvstore files⟩) hinv).mono
    fun r hr => CacheInv.wellFormed hr
  refine ⟨hcalls, ?_⟩
  intro hfiles
  obtain ⟨m, hm⟩ := hfiles.exists_rep
  obtain ⟨s, hs, -, hrep, hn⟩ := start_spec hsize hm
  obtain rfl := Except.ok.inj (hstart.symm.trans hs)
  exact hcalls.excused (calls_spec ⟨_, hrep, hn⟩ hsize cs)

theorem reachable_caches_one : ∃ s, start 1 (fun _ => none) = .ok s ∧
    SucceedsUnlessFull (calls call s evictingCalls) fun r =>
      ∃ L, WellFormedCache 1 r.2.cache L := by
  obtain ⟨s, hs, hcalls⟩ := reachable_caches (le_refl 1) fun _ => none
  exact ⟨s, hs, (hcalls _).2 wellFormedFiles_none⟩

/-! ## Shutdown and restart -/

/-- While the pool has free nodes, `cache_GET` writes nothing and cannot fail. -/
theorem cacheGET_of_free (h : Represents s L [] d) (hn : s.cache.cacheNodeMemoryPool.allocated = n)
    (hpos : 0 < n) (hfree : L.free ≠ []) (ptr : KVMessage) :
    ∃ t, s.cacheGET ptr =
      .ok ((dictGet d ptr.calculateKeyHash).1, (dictGet d ptr.calculateKeyHash).2, t) := by
  have hok : ∃ r, s.cacheGET ptr = .ok r := by
    obtain ⟨r, s₁, -, hget, -, -, -, -, hr⟩ :=
      getSearch_spec h ptr.calculateKeyHash rfl
    rw [cacheGET, cacheGETPtr, hget]
    cases r with
    | done res ptr' => exact ⟨_, rfl⟩
    | load ptr' =>
      obtain ⟨-, rfl, -⟩ := hr
      obtain ⟨p, c, -, hacq, -⟩ := acquireInstance_spec h
      have hfull : ¬ s₁.cache.isFull = true := fun hf => hfree ((isFull_iff h.wf).1 hf)
      have hnew : s₁.newInstance = .ok (some p, { s₁ with cache := c }) := by
        rw [newInstance, if_neg hfull, hacq]
        rfl
      simp only [ok_bind, cachePUTNewEntry, hnew]
      exact ⟨_, rfl⟩
  obtain ⟨⟨found, ptr', t⟩, hr⟩ := hok
  have hspec := ((cacheGET_spec ⟨L, h, hn⟩ hpos ptr).of_ok hr).1
  exact ⟨t, by rw [hr, ← hspec]⟩

theorem empty_of_linked_nil (h : Wf s.cache L held) (hnil : L.linked = []) :
    (∀ i, s.cache.hashTable i = ⟨none, none⟩) ∧ ∀ i, s.cache.lruEvictionTable i = ⟨none, none⟩ := by
  have hbucket : ∀ i, L.bucket i = [] := fun i => List.eq_nil_iff_forall_not_mem.2 fun p hp => by
    have hl := ((h.mem_bucket i p).1 hp).1
    rw [hnil] at hl
    cases hl
  have hqueue : ∀ i, L.queue i = [] := fun i => List.eq_nil_iff_forall_not_mem.2 fun p hp => by
    have hl := ((h.mem_queue i p).1 hp).1
    rw [hnil] at hl
    cases hl
  constructor
  · intro i
    have hrep := h.buckets.rep i
    rw [hbucket] at hrep
    have hhead : (s.cache.hashTable i).head = none := hrep.head_eq
    have htail : (s.cache.hashTable i).tail = none := hrep.tail_eq
    rw [← hhead]
    conv_rhs => arg 2; rw [hhead, ← htail]
  · intro i
    have hhead : (s.cache.lruEvictionTable i).head = none := by rw [h.head_eq, hqueue]; rfl
    have htail : (s.cache.lruEvictionTable i).tail = none := by rw [h.tail_eq, hqueue]; rfl
    rw [← hhead]
    conv_rhs => arg 2; rw [hhead, ← htail]

/-- With no node linked, the files alone hold the dictionary. -/
theorem cacheClean_leaves (h : Represents s L held d) :
    ∃ x, (∀ fuel > L.linked.length, s.cacheClean fuel = x) ∧
      SucceedsUnlessFull x fun s' => ∀ ptr : KVMessage,
        (KVStore.initKvstore s'.store.files).readFromDb ptr.calculateKeyHash =
          .ok (dictGet d ptr.calculateKeyHash) := by
  obtain ⟨x, hx, hclean⟩ := cacheClean_spec h
  refine ⟨x, hx, hclean.mono fun s' hs' ptr => ?_⟩
  obtain ⟨L', held', hrep', hnil⟩ := hs'
  obtain ⟨m', hm', hd⟩ := hrep'.stored
  refine readFromDb_of_rep hm'.restart (fun k => hd k fun p hp => ?_) ptr
  rw [hnil] at hp
  cases hp

/-- **A clean shutdown makes everything durable.** After any sequence of requests `cache_clean` ends
with an empty cache, and the files it leaves hold the dictionary: in a restarted server, of any
cache size, every lookup answers as `cache_GET` would have answered before. -/
theorem clean_shutdown (hsize : 1 ≤ cacheSize) (hfiles : WellFormedFiles files) :
    ∃ s, start cacheSize files = .ok s ∧
      ∀ cs, SucceedsUnlessFull (calls call s cs) fun r =>
        ∃ x, (∀ fuel > cacheSize, r.2.cacheClean fuel = x) ∧
        SucceedsUnlessFull x fun s' =>
          (∀ i, s'.cache.hashTable i = ⟨none, none⟩) ∧
          (∀ i, s'.cache.lruEvictionTable i = ⟨none, none⟩) ∧
          ∀ ptr : KVMessage, ∃ found ptr', SucceedsUnlessFull (r.2.cacheGET ptr)
              (fun a => (a.1, a.2.1) = (found, ptr')) ∧
            (KVStore.initKvstore s'.store.files).readFromDb ptr.calculateKeyHash =
              .ok (found, ptr') ∧
            ∀ size ≥ 1, ∃ s'', start size s'.store.files = .ok s'' ∧
              ∃ t, s''.cacheGET ptr = .ok (found, ptr', t) := by
  obtain ⟨m, hm⟩ := hfiles.exists_rep
  obtain ⟨s, hs, -, hrep, hn⟩ := start_spec hsize hm
  refine ⟨s, hs, ?_⟩
  intro cs
  refine (calls_spec ⟨_, hrep, hn⟩ hsize cs).mono fun r hr => ?_
  obtain ⟨-, L, hrep', hn'⟩ := hr
  have hlen : L.linked.length ≤ cacheSize := by
    have hcount := hrep'.wf.count
    omega
  obtain ⟨x, hx, hclean⟩ := cacheClean_spec hrep'
  refine ⟨x, fun fuel hfuel => hx fuel (lt_of_le_of_lt hlen hfuel), hclean.mono fun s' hs' => ?_⟩
  obtain ⟨L', held', hrep'', hnil⟩ := hs'
  obtain ⟨hbuckets, hqueues⟩ := empty_of_linked_nil hrep''.wf hnil
  refine ⟨hbuckets, hqueues, ?_⟩
  intro ptr
  -- with no node linked, the store alone holds the dictionary
  obtain ⟨m', hm', hd⟩ := hrep''.stored
  have hd' : ∀ k, (specCalls dictCall (fun k => m (tripleOf k)) cs).2 k = m' (tripleOf k) := by
    intro k
    refine hd k fun p hp => ?_
    rw [hnil] at hp
    cases hp
  refine ⟨_, _, (cacheGET_spec ⟨L, hrep', hn'⟩ hsize ptr).mono fun _ ha => ha.1,
    readFromDb_of_rep hm'.restart hd' ptr, fun size hpos => ?_⟩
  obtain ⟨s'', hs'', -, hrepr, hnr⟩ := start_spec hpos hm'.restart
  refine ⟨s'', hs'', ?_⟩
  have hfree : List.range size ≠ [] := by
    rw [ne_eq, List.range_eq_nil]
    omega
  have hsame : (fun k => m' (tripleOf k)) = (specCalls dictCall (fun k => m (tripleOf k)) cs).2 :=
    funext fun k => (hd' k).symm
  rw [hsame] at hrepr
  exact cacheGET_of_free hrepr hnr hpos hfree ptr

theorem clean_shutdown_one : ∃ s, start 1 (fun _ => none) = .ok s ∧
    SucceedsUnlessFull (calls call s evictingCalls) fun r =>
      ∃ x, (∀ fuel > 1, r.2.cacheClean fuel = x) ∧
      SucceedsUnlessFull x fun s' =>
        (∀ i, s'.cache.hashTable i = ⟨none, none⟩) ∧
        (∀ i, s'.cache.lruEvictionTable i = ⟨none, none⟩) ∧
        ∃ found ptr',
          SucceedsUnlessFull (r.2.cacheGET pairAc2) (fun a => (a.1, a.2.1) = (found, ptr')) ∧
          (KVStore.initKvstore s'.store.files).readFromDb pairAc2.calculateKeyHash =
            .ok (found, ptr') := by
  obtain ⟨s, hs, hclean⟩ :=
    clean_shutdown (le_refl 1) wellFormedFiles_none
  refine ⟨s, hs, (hclean evictingCalls).mono fun r hr => ?_⟩
  obtain ⟨x, hx, hspec⟩ := hr
  refine ⟨x, hx, hspec.mono fun s' hs' => ⟨hs'.1, hs'.2.1, ?_⟩⟩
  obtain ⟨found, ptr', hget, hread, -⟩ := hs'.2.2 pairAc2
  exact ⟨found, ptr', hget, hread⟩

end KVState

end KeyValueStore
