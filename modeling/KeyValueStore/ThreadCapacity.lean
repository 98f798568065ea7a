import KeyValueStore.CachePointers
import KeyValueStore.ThreadSafety
import Mathlib.Data.Set.Card

/-!
# The capacity of the cache under threads

`is_full` looks at the pool, and `acquire_instance` takes a node from it later, under another lock.
Between the two a thread counts on a free node. As long as there are enough of them for all the
threads that do, the pool stays with its first block, and the cache with `cache_size` nodes
(`capacity_kept`).

The invariant is independent of the order in the lists. It holds of runs in which threads evict each
other's nodes, too.
-/

namespace KeyValueStore

open Run DoublyLinked

variable {P : NodePtr → Prop} {c c' : KVCache} {p : NodePtr}

/-- What a thread has a pointer to. -/
def PcIn (P : NodePtr → Prop) (c : KVCache) : Pc → Prop
  | .fill _ p => P p
  | .link _ _ p | .upgrade _ p => P p ∧ c.Entered p
  | _ => True

theorem PcIn.keeps {pc : Pc} (h : PcIn P c pc) (hk : ∀ p, c.Entered p → c'.Entered p) :
    PcIn P c' pc := by
  cases pc with
  | link task q p => exact ⟨h.1, hk p h.2⟩
  | upgrade task p => exact ⟨h.1, hk p h.2⟩
  | _ => exact h

namespace SharedCache

variable {σ σ' : SharedCache} {s : KVState} {t : Nat} {task : Task} {as : List Action}
  {cacheSize : Nat} {files : Nat → Option (List UInt8)}

/-- The thread has found the cache not full, and takes a node of the pool next. -/
def Acquiring (σ : SharedCache) (t : Nat) : Prop := ∃ task, σ.pc t = .acquire task

/-! ## Steps that leave the pool alone -/

/-- Thread `t` goes on at a point where it has no pointer to a fresh node, and does not count on a
free one. -/
structure Passes (P : NodePtr → Prop) (σ : SharedCache) (t : Nat) (σ' : SharedCache) : Prop where
  keeps : Keeps P σ.state.cache σ'.state.cache
  pc : ∃ pc', σ'.pc = Function.update σ.pc t pc' ∧ PcIn P σ'.state.cache pc' ∧
    ∀ task, pc' = .acquire task → ∃ task', σ.pc t = .newEntry task'

theorem Passes.goto {pc : Pc} (hk : Keeps P σ.state.cache s.cache) (hpc : PcIn P s.cache pc)
    (hnot : ∀ task, pc = .acquire task → ∃ task', σ.pc t = .newEntry task') :
    Passes P σ t (σ.goto t pc s) := ⟨hk, pc, rfl, hpc, hnot⟩

theorem Passes.finish {ret : CacheAnswer} (hk : Keeps P σ.state.cache s.cache) :
    Passes P σ t (σ.finish t task ret s) := ⟨hk, .idle, rfl, trivial, nofun⟩

theorem runSearch_passes (hs : Sound P σ.state.cache) :
    Ensures (σ.runSearch t task) (Passes P σ t) := by
  unfold runSearch
  cases task.op with
  | get =>
    refine (hs.getSearch task.ptr).bind fun r hr => ?_
    obtain ⟨res, s⟩ := r
    cases res with
    | done res ptr => exact Ensures.ok (Passes.finish hr)
    | load ptr => exact Ensures.ok (Passes.goto hr trivial nofun)
  | put =>
    refine (hs.findEntry task.ptr).bind fun found hfound => ?_
    cases found with
    | some p => exact Ensures.ok (Passes.goto (Keeps.refl hs) (hfound p rfl) nofun)
    | none => exact Ensures.ok (Passes.goto (Keeps.refl hs) trivial nofun)
  | delete =>
    refine (hs.deleteSearch task.ptr).bind fun r hr => ?_
    obtain ⟨res, s⟩ := r
    obtain ⟨hcache, hfound⟩ := hr
    have hk : Keeps P σ.state.cache s.cache := by
      rw [show s.cache = σ.state.cache from hcache]
      exact Keeps.refl hs
    cases res with
    | done res => exact Ensures.ok (Passes.finish hk)
    | upgrade p =>
      obtain ⟨hp, hentered⟩ := hfound p rfl
      exact Ensures.ok (Passes.goto hk ⟨hp, hk.entered p hentered⟩ nofun)

theorem runUpgrade_passes (hs : Sound P σ.state.cache) {p : NodePtr}
    (hp : P p ∧ σ.state.cache.Entered p) : Ensures (σ.runUpgrade t task p) (Passes P σ t) := by
  unfold runUpgrade
  split
  · refine (hs.upgradeDelete hp).bind fun r hr => ?_
    obtain ⟨res, s⟩ := r
    cases res with
    | some res => exact Ensures.ok (Passes.finish hr.1)
    | none => exact absurd rfl hr.2
  · exact (hs.upgradePut hp task.ptr).bind fun s hs' => Ensures.ok (Passes.finish hs')

/-- **Every step but an acquisition leaves the pool alone.** -/
theorem runThread_passes (hs : Sound P σ.state.cache) (hpc : PcIn P σ.state.cache (σ.pc t))
    (hnot : ¬ σ.Acquiring t) : Ensures (σ.runThread t) (Passes P σ t) := by
  unfold runThread
  cases h : σ.pc t with
  | idle =>
    have hsame : σ.pc = Function.update σ.pc t .idle := by rw [← h, Function.update_eq_self]
    exact Ensures.ok ⟨Keeps.refl hs, .idle, hsame, trivial, nofun⟩
  | search task => exact runSearch_passes hs
  | newEntry task =>
    refine Ensures.ok (Passes.goto (Keeps.refl hs) ?_ fun _ _ => ⟨task, h⟩)
    split_ifs <;> trivial
  | acquire task => exact absurd ⟨task, h⟩ hnot
  | evictStart task => exact Ensures.ok (Passes.goto (hs.counters _ _) trivial nofun)
  | evictTest task e i =>
    dsimp only
    unfold runEvictTest
    split_ifs
    · exact Ensures.ok (Passes.goto (hs.counters _ _) trivial nofun)
    · exact Ensures.error
    · exact Ensures.ok (Passes.goto (Keeps.refl hs) trivial nofun)
  | evictHash task e =>
    exact ensures_true.bind fun i _ => Ensures.ok (Passes.goto (Keeps.refl hs) trivial nofun)
  | evictLock task e i =>
    refine (hs.evictLocked e i).bind fun r hr => ?_
    obtain ⟨res, s⟩ := r
    obtain ⟨hk, p, hres, hp⟩ := hr
    -- the thread holds the node of its victim, so none is allocated
    obtain rfl : res = some p := hres
    exact Ensures.ok (Passes.goto hk hp.1 nofun)
  | fill task p =>
    obtain ⟨hk, hentered⟩ := hs.fill task.ptr p
    rw [h] at hpc
    exact Ensures.ok (Passes.goto hk ⟨hpc, hentered⟩ nofun)
  | link task q p =>
    rw [h] at hpc
    exact Ensures.ok (Passes.finish (hs.link hpc))
  | upgrade task p =>
    rw [h] at hpc
    exact runUpgrade_passes hs hpc
  | deleteDb task => exact ensures_true.bind fun r _ => Ensures.ok (Passes.finish (Keeps.refl hs))

/-! ## The invariant -/

/-- The pool has its first block only, every pointer leads into it, and there is a free node for
every thread that counts on one. -/
structure Capacity (n : Nat) (σ : SharedCache) : Prop where
  sound : Sound (· < n) σ.state.cache
  pcs : ∀ t, PcIn (· < n) σ.state.cache (σ.pc t)
  free : ∃ free, MemoryPool.Rep σ.state.cache.cacheNodeMemoryPool free ∧ free.length ≤ n ∧
    ∀ p ∈ free, p < n
  blocks : σ.state.cache.cacheNodeMemoryPool.memoryBlockPointers.length = 1
  blockSize : σ.state.cache.cacheNodeMemoryPool.blockSize = n
  waiting : {t | σ.Acquiring t}.encard ≤ σ.state.cache.cacheNodeMemoryPool.n

/-- A thread that finds the cache not full finds more free nodes than there are threads that count
on one. -/
def FindsSpare (σ : SharedCache) : Action → Prop
  | .invoke _ _ _ => True
  | .run t => ∀ task, σ.pc t = .newEntry task → σ.state.cache.isFull = false →
    {t' | σ.Acquiring t'}.encard < σ.state.cache.cacheNodeMemoryPool.n

variable {n : Nat}

theorem Capacity.of_passes (h : Capacity n σ) (hp : Passes (· < n) σ t σ')
    (hwaiting : {t | σ'.Acquiring t}.encard ≤ σ.state.cache.cacheNodeMemoryPool.n) :
    Capacity n σ' := by
  obtain ⟨pc', hpc, hin, -⟩ := hp.pc
  have hpool := hp.keeps.pool
  refine ⟨hp.keeps.sound, fun t' => ?_, hpool ▸ h.free, hpool ▸ h.blocks, hpool ▸ h.blockSize,
    hpool ▸ hwaiting⟩
  rw [hpc]
  by_cases ht : t' = t
  · rwa [ht, Function.update_self]
  · rw [Function.update_of_ne ht]
    exact (h.pcs t').keeps hp.keeps.entered

theorem acquiring_of_update {pc' : Pc} (hpc : σ'.pc = Function.update σ.pc t pc') {t' : Nat}
    (ht : t' ≠ t) : σ'.Acquiring t' ↔ σ.Acquiring t' := by
  unfold Acquiring
  rw [hpc, Function.update_of_ne ht]

theorem Capacity.allocated (h : Capacity n σ) :
    σ.state.cache.cacheNodeMemoryPool.allocated = n := by
  rw [MemoryPool.allocated, h.blocks, h.blockSize, Nat.one_mul]

theorem Capacity.acquire (h : Capacity n σ) (hn : 1 ≤ n) (hpc : σ.pc t = .acquire task)
    (hstep : σ.runThread t = .ok σ') : Capacity n σ' := by
  obtain ⟨free, hrep, hlen, hfree⟩ := h.free
  have hacq : t ∈ {t | σ.Acquiring t} := ⟨task, hpc⟩
  obtain ⟨p, pool, free', hacquire, hrep', hsize, hcases⟩ :=
    hrep.acquireInstance (by rw [h.allocated]; exact hlen) (by rw [h.blockSize]; exact hn)
  -- its own presence rules out the empty pool
  have hne : free ≠ [] := by
    rintro rfl
    have hzero := h.waiting
    rw [hrep.count, List.length_nil, Nat.cast_zero, nonpos_iff_eq_zero, Set.encard_eq_zero] at hzero
    rw [hzero] at hacq
    exact hacq
  obtain ⟨hsplit, hblocks⟩ : free = free' ++ [p] ∧
      pool.memoryBlockPointers = σ.state.cache.cacheNodeMemoryPool.memoryBlockPointers := by
    rcases hcases with ⟨-, hsplit, hblocks⟩ | ⟨hnil, -⟩
    · exact ⟨hsplit, hblocks⟩
    · exact absurd hnil hne
  rw [runThread, hpc] at hstep
  dsimp only at hstep
  rw [KVCache.acquireInstance, hacquire] at hstep
  obtain ⟨hpc', hcache⟩ : σ'.pc = Function.update σ.pc t (.fill task p) ∧
      σ'.state.cache = { σ.state.cache with cacheNodeMemoryPool := pool } := by
    obtain rfl := Except.ok.inj hstep
    exact ⟨rfl, rfl⟩
  subst hsplit
  rw [List.length_append, List.length_singleton] at hlen
  refine ⟨hcache ▸ ⟨h.sound.buckets, h.sound.queues⟩, ?_, ?_, ?_, ?_, ?_⟩
  · intro t'
    rw [hpc', hcache]
    by_cases ht : t' = t
    · rw [ht, Function.update_self]
      exact hfree p (List.mem_append_right _ (List.mem_singleton_self p))
    · rw [Function.update_of_ne ht]
      exact (h.pcs t').keeps fun _ hp => hp
  · rw [hcache]
    exact ⟨free', hrep', by omega, fun q hq => hfree q (List.mem_append_left _ hq)⟩
  · rw [hcache]
    exact (congrArg List.length hblocks).trans h.blocks
  · rw [hcache]
    exact hsize.trans h.blockSize
  · -- one thread less counts on one free node less
    have hself : t ∉ {t' | σ'.Acquiring t'} := by
      rintro ⟨task', ht⟩
      rw [hpc', Function.update_self] at ht
      cases ht
    have hsub : insert t {t' | σ'.Acquiring t'} ⊆ {t' | σ.Acquiring t'} := by
      refine Set.insert_subset hacq fun t' ht' => ?_
      have hne : t' ≠ t := fun heq => hself (heq ▸ ht')
      exact (acquiring_of_update hpc' hne).1 ht'
    have hle := (Set.encard_le_encard hsub).trans h.waiting
    rw [Set.encard_insert_of_notMem hself, hrep.count, List.length_append, List.length_singleton,
      Nat.cast_add, Nat.cast_one, ENat.add_le_add_iff_right (by decide)] at hle
    rw [hcache]
    exact hle.trans_eq (congrArg Nat.cast hrep'.count.symm)

theorem Capacity.of_runThread (h : Capacity n σ) (hn : 1 ≤ n) (hspare : σ.FindsSpare (.run t))
    (hstep : σ.runThread t = .ok σ') : Capacity n σ' := by
  by_cases hacq : σ.Acquiring t
  · obtain ⟨task, hpc⟩ := hacq
    exact h.acquire hn hpc hstep
  · have hp := runThread_passes h.sound (h.pcs t) hacq σ' hstep
    obtain ⟨pc', hpc, -, hnew⟩ := hp.pc
    apply h.of_passes hp
    have hsub : {t' | σ'.Acquiring t'} ⊆ insert t {t' | σ.Acquiring t'} := by
      intro t' ht'
      by_cases ht : t' = t
      · exact Or.inl ht
      · exact Or.inr ((acquiring_of_update hpc ht).1 ht')
    by_cases ht : σ'.Acquiring t
    · -- it has just found the cache not full
      obtain ⟨task, ht⟩ := ht
      rw [hpc, Function.update_self] at ht
      obtain ⟨task', hold⟩ := hnew task ht
      have hfull : σ.state.cache.isFull = false := by
        rw [runThread, hold] at hstep
        cases hfull : σ.state.cache.isFull with
        | false => rfl
        | true =>
          obtain rfl := Except.ok.inj hstep
          rw [hfull, if_pos rfl, goto_pc] at hpc
          have heq := congrFun hpc t
          rw [Function.update_self, Function.update_self, ht] at heq
          cases heq
      have hlt := hspare task' hold hfull
      refine (Set.encard_le_encard hsub).trans ((Set.encard_insert_le _ _).trans ?_)
      exact Order.add_one_le_of_lt hlt
    · refine (Set.encard_le_encard fun t' ht' => ?_).trans h.waiting
      exact (hsub ht').resolve_left fun heq => ht (heq ▸ ht')

theorem Capacity.of_invoke (h : Capacity n σ) (t : Nat) (op : Op) (ptr : KVMessage) :
    Capacity n (σ.invoke t op ptr) := by
  rw [invoke]
  cases hpc : σ.pc t with
  | idle =>
    refine ⟨h.sound, ?_, h.free, h.blocks, h.blockSize, ?_⟩
    · intro t'
      dsimp only
      by_cases ht : t' = t
      · rw [ht, Function.update_self]
        trivial
      · rw [Function.update_of_ne ht]
        exact h.pcs t'
    · refine (Set.encard_le_encard ?_).trans h.waiting
      rintro t' ⟨task, ht'⟩
      by_cases ht : t' = t
      · rw [ht] at ht'
        dsimp only at ht'
        rw [Function.update_self] at ht'
        cases ht'
      · exact ⟨task, (Function.update_of_ne ht _ _).symm.trans ht'⟩
  | _ => exact h

theorem Capacity.of_step {a : Action} (h : Capacity n σ) (hn : 1 ≤ n) (hspare : σ.FindsSpare a)
    (hstep : σ.step a = .ok σ') : Capacity n σ' := by
  cases a with
  | invoke t op ptr =>
    obtain rfl := Except.ok.inj hstep
    exact h.of_invoke t op ptr
  | run t => exact h.of_runThread hn hspare hstep

theorem capacity_start (hs : KVState.start cacheSize files = .ok s) :
    Capacity cacheSize (start s) := by
  have hsound : Sound (· < cacheSize) s.cache := sound_start hs
  obtain ⟨pool, hpool, hrep, hblocks, hsize⟩ := MemoryPool.rep_init cacheSize 2
  rw [KVState.start, KVCache.new, hpool] at hs
  obtain rfl := Except.ok.inj hs
  refine ⟨hsound, fun _ => trivial, ⟨_, hrep, ?_, fun p hp => List.mem_range.1 hp⟩, hblocks, hsize,
    ?_⟩
  · rw [List.length_range]
  · refine (Set.encard_le_encard (t := ∅) ?_).trans (by simp)
    rintro t ⟨task, ht⟩
    cases ht

/-! ## The nodes that are linked -/

/-- The node is reached from the head of a bucket. -/
def LinkedInTable (σ : SharedCache) (p : NodePtr) : Prop :=
  ∃ h x, (σ.state.cache.hashTable h).head = some x ∧
    Relation.ReflTransGen (fun a b => σ.state.cache.l1Right a = some b) x p

/-- No more than `n` nodes are linked in the hash table, and the pool has its first block only. -/
def WithinCapacity (n : Nat) (σ : SharedCache) : Prop :=
  {p | σ.LinkedInTable p}.encard ≤ n ∧
    σ.state.cache.cacheNodeMemoryPool.memoryBlockPointers.length = 1

theorem Capacity.withinCapacity (h : Capacity n σ) : σ.WithinCapacity n := by
  refine ⟨?_, h.blocks⟩
  have hsub : {p | σ.LinkedInTable p} ⊆ Finset.range n := by
    rintro p ⟨i, x, hx, hreach⟩
    rw [Finset.coe_range, Set.mem_Iio]
    cases hreach with
    | refl => exact ((h.sound.buckets i).head p hx).1
    | @tail q _ _ hnext => exact ((h.sound.buckets i).next q p hnext).1
  apply (Set.encard_le_encard hsub).trans_eq
  rw [Set.encard_coe_eq_coe_finsetCard, Finset.card_range]

/-- **The cache keeps to its capacity**, as long as no thread finds the cache not full when all free
nodes are already counted on by others. -/
theorem capacity_kept (hsize : 1 ≤ cacheSize) (hs : KVState.start cacheSize files = .ok s)
    (hspare : Meets step FindsSpare (start s) as) (hrun : run step (start s) as = .ok σ) :
    σ.WithinCapacity cacheSize :=
  (run_invariant (I := Capacity cacheSize) (fun _ _ _ h hC => h.of_step hsize hC)
    (capacity_start hs) hspare hrun).withinCapacity

/-! ## Two threads -/

def acquires (σ : SharedCache) (t : Nat) : Bool :=
  match σ.pc t with
  | .acquire _ => true
  | _ => false

/-- Threads 0 and 1 leave a free node to a thread that finds the cache not full. -/
def findsSpare (σ : SharedCache) : Action → Bool
  | .invoke _ _ _ => true
  | .run t =>
    match σ.pc t with
    | .newEntry _ => σ.state.cache.isFull ||
      decide (([0, 1].filter σ.acquires).length <
        σ.state.cache.cacheNodeMemoryPool.n)
    | _ => true

theorem findsSpare_of_idle (σ : SharedCache) (a : Action) (hidle : ∀ t ∉ [0, 1], σ.pc t = .idle)
    (h : σ.findsSpare a = true) : σ.FindsSpare a := by
  cases a with
  | invoke t op ptr => trivial
  | run t =>
    intro task hpc hfull
    rw [findsSpare, hpc] at h
    dsimp only at h
    rw [hfull, Bool.false_or, decide_eq_true_eq] at h
    refine lt_of_le_of_lt ?_ (Nat.cast_lt.2 h)
    have hsub : {t' | σ.Acquiring t'} ⊆ ([0, 1].filter σ.acquires).toFinset := by
      rintro t' ⟨task', ht'⟩
      rw [List.coe_toFinset, Set.mem_ofPred_eq, List.mem_filter, acquires, ht']
      refine ⟨?_, rfl⟩
      by_contra hmem
      rw [hidle t' hmem] at ht'
      cases ht'
    calc {t' | σ.Acquiring t'}.encard
        ≤ _ := Set.encard_le_encard hsub
      _ = _ := Set.encard_coe_eq_coe_finsetCard _
      _ ≤ _ := Nat.cast_le.2 (List.toFinset_card_le _)

/-- Two threads both count on a free node of two, and take them. A third key takes the node of a
deleted one. -/
def putThreeKeys : List Action :=
  does 0 .put (entry 97 1) 2 ++ does 1 .put (entry 98 2) 5 ++ steps 0 3 ++
    does 0 .delete (entry 98 0) 2 ++ does 1 .put (entry 97 3) 2 ++ does 0 .put (entry 99 4) 8

theorem capacity_kept_put : ∃ s σ, KVState.start 2 (fun _ => none) = .ok s ∧
    run step (start s) putThreeKeys = .ok σ ∧ σ.WithinCapacity 2 := by
  obtain ⟨s, σ, hs, hspare, hrun, -⟩ := exists_of_passes 2 putThreeKeys findsSpare
    (fun _ => true) (by decide +kernel)
  exact ⟨s, σ, hs, hrun, capacity_kept one_le_two hs (meets_of_checkRun_idle findsSpare_of_idle
    (fun _ _ => rfl) (by decide) hspare) hrun⟩

/-- Two threads find the one free node, and the second to take it gets a node of a new block. -/
def foundFreeTwice : List Action :=
  does 0 .put (entry 97 1) 2 ++ does 1 .put (entry 98 2) 5 ++ steps 0 3

theorem foundFreeTwice_exceeds : ∃ s σ, KVState.start 1 (fun _ => none) = .ok s ∧
    run step (start s) foundFreeTwice = .ok σ ∧ 1 < {p | σ.LinkedInTable p}.encard ∧
    σ.state.cache.cacheNodeMemoryPool.memoryBlockPointers.length = 2 := by
  obtain ⟨s, σ, hs, -, hrun, hcheck⟩ := exists_of_passes 1 foundFreeTwice (fun _ _ => true)
    (fun σ => decide ((σ.state.cache.hashTable (hashTableIdx (entry 97 1).calculateKeyHash)).head ≠
      (σ.state.cache.hashTable (hashTableIdx (entry 98 2).calculateKeyHash)).head ∧
      (σ.state.cache.hashTable (hashTableIdx (entry 97 1).calculateKeyHash)).head.isSome ∧
      (σ.state.cache.hashTable (hashTableIdx (entry 98 2).calculateKeyHash)).head.isSome ∧
      σ.state.cache.cacheNodeMemoryPool.memoryBlockPointers.length = 2)) (by decide +kernel)
  obtain ⟨hne, hfirst, hsecond, hblocks⟩ := of_decide_eq_true hcheck
  obtain ⟨p, hp⟩ := Option.isSome_iff_exists.1 hfirst
  obtain ⟨q, hq⟩ := Option.isSome_iff_exists.1 hsecond
  refine ⟨s, σ, hs, hrun, ?_, hblocks⟩
  rw [Set.one_lt_encard_iff]
  exact ⟨p, q, ⟨_, p, hp, .refl⟩, ⟨_, q, hq, .refl⟩, fun hpq => hne (by rw [hp, hq, hpq])⟩

end SharedCache

end KeyValueStore
