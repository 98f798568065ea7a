import KeyValueStore.ThreadInvariant

/-!
# What any interleaving keeps, and what it does not

Three properties of the cache under any number of threads. Each fails in some runs, and holds in
every state of the runs whose steps meet a condition on the state they are taken in.

* `upgrades_own_key` — an upgrade writes a node of its own key.
* `one_node_per_key` — no key has two nodes.
* `evicts_from_own_bucket` — an eviction unlinks its victim from the bucket the victim is in.

After a lock has been released the code does not look again: `cache_PUT_new_entry` does not search
a second time, `cache_eviction` does not compute the bucket a second time, and the check of
`dirty_bit` after a lock upgrade finds nothing, as an evicted node is never marked `notInCache`.
-/

namespace KeyValueStore

open Run

variable {c c' : KVCache} {L L' : Layout} {held held' : List NodePtr} {p : NodePtr}

/-- The queue whose head a thread has tested, until its eviction has the locks. -/
def Pc.window : Pc → Option Nat
  | .evictHash _ e => some e
  | .evictLock _ e _ => some e
  | _ => none

/-- The nodes met on a walk along bucket `h`. -/
def KVCache.bucketNodes (c : KVCache) (h : Nat) : List NodePtr :=
  DoublyLinked.walk c.l1Right c.cacheNodeMemoryPool.allocated (c.hashTable h).head

theorem Wf.bucketNodes_eq (h : Wf c L held) (i : Nat) : c.bucketNodes i = L.bucket i := by
  have hrep := h.buckets.rep i
  apply DoublyLinked.walk_of_seg hrep.1
  have hle := (List.Nodup.subperm hrep.2 (h.bucket_subset i)).length_le
  have hcount := h.count
  omega

/-- The keys stay distinct if the key of the node linked in is new. -/
theorem Frame.distinct {a : Access} (hf : Frame c L held a c' L' held') (hd : DistinctKeys c L)
    (hfresh : ∀ p, a.linked = some p → ∀ q ∈ L.linked, (c.message q).key ≠ (c.message p).key) :
    DistinctKeys c' L' := by
  have hkey : ∀ p ∈ L'.linked, (c'.message p).key = (c.message p).key := fun p hp =>
    congrArg Triple.key (hf.triple p hp)
  intro p hp q hq heq
  rw [hkey p hp, hkey q hq] at heq
  rcases (hf.origin p hp).2 with hp' | hp' <;> rcases (hf.origin q hq).2 with hq' | hq'
  · exact hd p hp' q hq' heq
  · exact absurd heq (hfresh q hq' p hp')
  · exact absurd heq.symm (hfresh p hp' q hq')
  · exact Option.some.inj (hp'.symm.trans hq')

namespace SharedCache

variable {σ σ' : SharedCache} {s : KVState} {t : Nat} {task : Task} {as : List Action}
  {cacheSize : Nat} {files : Nat → Option (List UInt8)}

/-! ## Lock upgrades -/

/-- The node is linked in the bucket of the task's key, and holds that key. -/
def HoldsKey (σ : SharedCache) (task : Task) (p : NodePtr) : Prop :=
  p ∈ σ.state.cache.bucketNodes (hashTableIdx task.ptr) ∧
    (σ.state.cache.message p).key = task.ptr.key

/-- A lock upgrade finds its node where it was, and changes no node that does not hold its key. -/
def UpgradesOwnKey (σ : SharedCache) : Prop :=
  ∀ t task p, σ.pc t = .upgrade task p →
    (σ.state.cache.dirtyBit p ≠ .notInCache → σ.HoldsKey task p) ∧
    ∀ σ', σ.runThread t = .ok σ' → ∀ q,
      (σ'.state.cache.message q ≠ σ.state.cache.message q ∨
        σ'.state.cache.dirtyBit q ≠ σ.state.cache.dirtyBit q) → σ.HoldsKey task q

theorem Inv.upgrade_other (h : Inv σ L held) (hpc : σ.pc t = .upgrade task p) :
    Ensures (σ.runThread t) fun σ' => ∀ q, q ≠ p →
      σ'.state.cache.message q = σ.state.cache.message q ∧
      σ'.state.cache.dirtyBit q = σ.state.cache.dirtyBit q := by
  obtain ⟨-, hget, hp, -⟩ : ThreadOk σ.state.cache L held (.upgrade task p) := hpc ▸ h.threads.ok t
  rw [runThread, hpc]
  dsimp only
  rw [runUpgrade]
  cases hop : task.op with
  | get => exact absurd hop hget
  | put =>
    obtain ⟨c, hc, -, hsame⟩ :=
      ((h.wf.setDirtyBit (p := p) (Or.inl rfl)).setValue (p := p) task.ptr.value).moveToHeadLRU hp
    dsimp only
    rw [KVState.upgradePut_eq h.wf hp, hc]
    refine Ensures.ok fun q hq =>
      ⟨(congrFun hsame.message q).trans ?_, (congrFun hsame.dirtyBit q).trans ?_⟩
    · exact Function.update_of_ne hq _ _
    · exact Function.update_of_ne hq _ _
  | delete =>
    dsimp only
    rw [KVState.upgradeDelete_eq h.wf hp]
    split_ifs with hd
    · exact Ensures.ok fun q _ => ⟨rfl, rfl⟩
    · obtain ⟨c, hc, -, hsame⟩ := (h.wf.setDirtyBit (p := p) (Or.inr rfl)).moveToHeadLRU hp
      rw [hc]
      refine Ensures.ok fun q hq => ⟨congrFun hsame.message q, (congrFun hsame.dirtyBit q).trans ?_⟩
      exact Function.update_of_ne hq _ _

theorem Inv.upgradesOwnKey (h : Inv σ L held) : σ.UpgradesOwnKey := by
  intro t task p hpc
  obtain ⟨-, -, hp, htriple⟩ : ThreadOk σ.state.cache L held (.upgrade task p) :=
    hpc ▸ h.threads.ok t
  have hholds : σ.HoldsKey task p := by
    refine ⟨?_, congrArg Triple.key htriple⟩
    rw [h.wf.bucketNodes_eq, h.wf.mem_bucket]
    exact ⟨hp, congrArg (fun m => m.hash1.toNat % cacheTableLen) htriple⟩
  refine ⟨fun _ => hholds, ?_⟩
  intro σ' hstep q hq
  by_cases hqp : q = p
  · rwa [hqp]
  · obtain ⟨hmsg, hdirty⟩ := h.upgrade_other hpc σ' hstep q hqp
    exact hq.elim (absurd hmsg) (absurd hdirty)

/-- **A lock upgrade never touches another key's entry**, as long as every eviction unlinks a node
that no other thread is about to upgrade from the bucket the node is in. -/
theorem upgrades_own_key (hsize : 1 ≤ cacheSize) (hs : KVState.start cacheSize files = .ok s)
    (hsafe : Meets step EvictsSafely (start s) as) (hrun : run step (start s) as = .ok σ) :
    σ.UpgradesOwnKey := by
  obtain ⟨L, h, -⟩ := inv_start hsize hs
  obtain ⟨L', held', h'⟩ := h.of_run hsafe hrun
  exact h'.upgradesOwnKey

/-! ## Concrete runs -/

/-- The run of a server with an empty directory passes the checks: `condition` before every action,
`check` at its end. -/
def passes (cacheSize : Nat) (as : List Action) (condition : SharedCache → Action → Bool)
    (check : SharedCache → Bool) : Bool :=
  returns (KVState.start cacheSize fun _ => none) fun s =>
    checkRun step condition (start s) as && returns (run step (start s) as) check

theorem exists_of_passes (cacheSize : Nat) (as : List Action)
    (condition : SharedCache → Action → Bool) (check : SharedCache → Bool)
    (h : passes cacheSize as condition check = true) :
    ∃ s σ, KVState.start cacheSize (fun _ => none) = .ok s ∧
      checkRun step condition (start s) as = true ∧ run step (start s) as = .ok σ ∧
      check σ = true := by
  obtain ⟨s, hs, h⟩ := exists_of_returns h
  rw [Bool.and_eq_true] at h
  obtain ⟨σ, hσ, hcheck⟩ := exists_of_returns h.2
  exact ⟨s, σ, hs, h.1, hσ, hcheck⟩

/-- Thread `t` takes `k` steps. -/
def steps (t k : Nat) : List Action := List.replicate k (.run t)

/-- Thread `t` calls an operation and takes `k` steps. -/
def does (t : Nat) (op : Op) (ptr : KVMessage) (k : Nat) : List Action :=
  .invoke t op ptr :: steps t k

/-- What holds at every step of a run of the threads `T`, while all others are between two
operations. -/
theorem meets_of_checkRun_idle {T : List Nat} {C : SharedCache → Action → Prop}
    {check : SharedCache → Action → Bool}
    (hC : ∀ σ a, (∀ t ∉ T, σ.pc t = .idle) → check σ a = true → C σ a)
    (hidle : ∀ t ∉ T, σ.pc t = .idle) (has : ∀ a ∈ as, a.thread ∈ T)
    (h : checkRun step check σ as = true) : Meets step C σ as := by
  induction as generalizing σ with
  | nil => trivial
  | cons a as ih =>
    obtain ⟨ha, has⟩ := List.forall_mem_cons.1 has
    rw [checkRun, Bool.and_eq_true] at h
    refine ⟨hC σ a hidle h.1, fun σ' hstep => ih (fun t ht => ?_) has ?_⟩
    · rw [step_pc hstep fun heq => ht (by rwa [heq]), hidle t ht]
    · rw [hstep] at h
      exact h.2

/-- Threads 0 and 1 do not disturb the step: its victim is in the bucket that is locked, and they
are not about to upgrade it. -/
def evictsSafely (σ : SharedCache) : Action → Bool
  | .invoke _ _ _ => true
  | .run t => (σ.victim t).all fun v =>
    (match σ.pc t with
      | .evictLock _ _ hqIdx => hashTableIdx (σ.state.cache.message v) == hqIdx
      | _ => true) &&
    [0, 1].all fun t' => t' == t || (σ.pc t').target != some v

theorem evictsSafely_of_idle (σ : SharedCache) (a : Action)
    (hidle : ∀ t ∉ [0, 1], σ.pc t = .idle) (h : σ.evictsSafely a = true) : σ.EvictsSafely a := by
  cases a with
  | invoke t op ptr => trivial
  | run t =>
    constructor
    · intro task eqIdx hqIdx v hpc hv
      simp only [evictsSafely, hv, hpc, Option.all_some, Bool.and_eq_true, beq_iff_eq] at h
      exact h.1
    · intro v hv t' ht htarget
      simp only [evictsSafely, hv, Option.all_some, Bool.and_eq_true, List.all_eq_true] at h
      by_cases hmem : t' ∈ [0, 1]
      · simpa [ht, htarget] using h.2 t' hmem
      · rw [hidle t' hmem] at htarget
        cases htarget

/-- Thread 0 puts a key and deletes it, and puts another. It is about to change the other key's node
when thread 1 puts a third key, which takes the node of the first. -/
def putWhileEvicting : List Action :=
  does 0 .put (entry 97 1) 5 ++ does 0 .delete (entry 97 0) 2 ++ does 0 .put (entry 98 2) 5 ++
    does 0 .put (entry 98 3) 1 ++ does 1 .put (entry 99 4) 8

theorem upgrades_own_key_put : ∃ s σ, KVState.start 2 (fun _ => none) = .ok s ∧
    run step (start s) putWhileEvicting = .ok σ ∧ (∃ task p, σ.pc 0 = .upgrade task p) ∧
    σ.UpgradesOwnKey := by
  obtain ⟨s, σ, hs, hsafe, hrun, hpc⟩ := exists_of_passes 2 putWhileEvicting evictsSafely
    (fun σ => (σ.pc 0).target.isSome) (by decide +kernel)
  refine ⟨s, σ, hs, hrun, ?_, ?_⟩
  · cases h : σ.pc 0 with
    | upgrade task p => exact ⟨task, p, rfl⟩
    | _ => rw [h] at hpc; cases hpc
  · exact upgrades_own_key one_le_two hs (meets_of_checkRun_idle evictsSafely_of_idle
      (fun _ _ => rfl) (by decide) hsafe) hrun

/-- Thread 0 puts a key, deletes it and puts it again. Its search has found the node when thread 1,
which puts another key, evicts that node and links it in for the other key. -/
def recycledNode : List Action :=
  does 0 .put (entry 97 1) 5 ++ does 0 .delete (entry 97 0) 2 ++ does 0 .put (entry 97 2) 1 ++
    does 1 .put (entry 98 9) 8

/-- The thread is about to change a node that is not of its key. -/
def upgradesOtherKey (σ : SharedCache) (t : Nat) : Bool :=
  match σ.pc t with
  | .upgrade task p =>
    decide ((σ.state.cache.message p).key ≠ task.ptr.key) &&
      returns (σ.runThread t) fun σ' =>
        decide (σ'.state.cache.message p ≠ σ.state.cache.message p)
  | _ => false

/-- Thread 0 is about to store its value under the other key. -/
theorem recycledNode_upgraded : ∃ s σ, KVState.start 1 (fun _ => none) = .ok s ∧
    run step (start s) recycledNode = .ok σ ∧ ¬ σ.UpgradesOwnKey := by
  obtain ⟨s, σ, hs, -, hrun, hcheck⟩ := exists_of_passes 1 recycledNode (fun _ _ => true)
    (upgradesOtherKey · 0) (by decide +kernel)
  refine ⟨s, σ, hs, hrun, ?_⟩
  intro hown
  rw [upgradesOtherKey] at hcheck
  cases hpc : σ.pc 0 with
  | upgrade task p =>
    rw [hpc, Bool.and_eq_true, decide_eq_true_eq] at hcheck
    obtain ⟨σ', hstep, hchanged⟩ := exists_of_returns hcheck.2
    have hholds := (hown 0 task p hpc).2 σ' hstep p (Or.inl (of_decide_eq_true hchanged))
    exact hcheck.1 hholds.2
  | _ => rw [hpc] at hcheck; cases hcheck

/-! ## One node for each key -/

/-- No bucket has two nodes for one key. -/
def OneNodePerKey (σ : SharedCache) : Prop :=
  ∀ i, (σ.state.cache.bucketNodes i).Nodup ∧
    ∀ p ∈ σ.state.cache.bucketNodes i, ∀ q ∈ σ.state.cache.bucketNodes i,
      (σ.state.cache.message p).key = (σ.state.cache.message q).key → p = q

/-- A new node is linked in for a key that has none. -/
def InsertsFresh (σ : SharedCache) : Action → Prop
  | .invoke _ _ _ => True
  | .run t => ∀ task q p, σ.pc t = .link task q p → σ.state.cache.findEntry task.ptr = .ok none

theorem Inv.oneNodePerKey (h : Inv σ L held) (hd : DistinctKeys σ.state.cache L) :
    σ.OneNodePerKey := by
  intro i
  rw [h.wf.bucketNodes_eq]
  exact ⟨(h.wf.buckets.rep i).2, fun p hp q hq =>
    hd p (h.wf.bucket_subset i p hp) q (h.wf.bucket_subset i q hq)⟩

/-- A step that inserts fresh keys keeps the keys distinct. -/
theorem Inv.of_runThread_distinct (h : Inv σ L held) (hd : DistinctKeys σ.state.cache L)
    (hsafe : σ.EvictsSafely (.run t)) (hfresh : σ.InsertsFresh (.run t))
    (hstep : σ.runThread t = .ok σ') :
    ∃ L' held', Inv σ' L' held' ∧ DistinctKeys σ'.state.cache L' := by
  obtain ⟨L', held', hf, h'⟩ := h.of_runThread hsafe.1 hsafe.2 hstep
  refine ⟨L', held', h', hf.distinct hd fun p hp q hq hkey => ?_⟩
  -- only the step that links a node in has one
  cases hpc : σ.pc t with
  | link task i p' =>
    have hlinked : (σ.access t).linked = some p' := by rw [access, hpc]
    obtain rfl : p' = p := Option.some.inj (hlinked.symm.trans hp)
    obtain ⟨henters, -, hfilled⟩ : ThreadOk σ.state.cache L held (.link task i p') :=
      hpc ▸ h.threads.ok t
    have hne := h.wf.findEntry_none (hfresh task i p' hpc) q hq
    rw [h.wf.hashed q hq, hkey, hfilled.message] at hne
    exact hne henters.1.symm
  | _ =>
    have hnone : (σ.access t).linked = none := by rw [access, hpc]
    exact absurd (hnone.symm.trans hp) (by simp)

/-- **One node for each key**, as long as every node is linked in for a key that has none, and every
eviction is safe. -/
theorem one_node_per_key (hsize : 1 ≤ cacheSize) (hs : KVState.start cacheSize files = .ok s)
    (hsafe : Meets step (fun σ a => σ.EvictsSafely a ∧ σ.InsertsFresh a) (start s) as)
    (hrun : run step (start s) as = .ok σ) : σ.OneNodePerKey := by
  obtain ⟨L, h, hnil⟩ := inv_start hsize hs
  have hd : DistinctKeys s.cache L := fun p hp => by rw [hnil] at hp; cases hp
  obtain ⟨L', held', h', hd'⟩ := run_invariant
    (I := fun σ : SharedCache => ∃ L held, Inv σ L held ∧ DistinctKeys σ.state.cache L)
    (fun σ a σ' hI hC hstep => by
      obtain ⟨L, held, hI, hd⟩ := hI
      cases a with
      | invoke t op ptr =>
        obtain rfl := Except.ok.inj hstep
        exact ⟨L, held, hI.of_invoke t op ptr, by rw [state_invoke]; exact hd⟩
      | run t => exact hI.of_runThread_distinct hd hC.1 hC.2 hstep) ⟨L, [], h, hd⟩ hsafe hrun
  exact h'.oneNodePerKey hd'

/-- The step links no node in for a key that has one. -/
def linksFresh (σ : SharedCache) : Action → Bool
  | .invoke _ _ _ => true
  | .run t =>
    match σ.pc t with
    | .link task _ _ =>
      match σ.state.cache.findEntry task.ptr with
      | .ok none => true
      | _ => false
    | _ => true

theorem insertsFresh_of_linksFresh (σ : SharedCache) (a : Action) (h : σ.linksFresh a = true) :
    σ.InsertsFresh a := by
  cases a with
  | invoke t op ptr => trivial
  | run t =>
    intro task q p hpc
    simp only [linksFresh, hpc] at h
    split at h
    · assumption
    · cases h

theorem one_node_per_key_put : ∃ s σ, KVState.start 2 (fun _ => none) = .ok s ∧
    run step (start s) (putWhileEvicting ++ steps 0 1) = .ok σ ∧ σ.OneNodePerKey := by
  obtain ⟨s, σ, hs, hfresh, hrun, -⟩ := exists_of_passes 2 (putWhileEvicting ++ steps 0 1)
    (fun σ a => σ.evictsSafely a && σ.linksFresh a) (fun _ => true) (by decide +kernel)
  refine ⟨s, σ, hs, hrun, one_node_per_key one_le_two hs
    (meets_of_checkRun_idle (T := [0, 1]) (fun σ a hidle h => ?_) (fun _ _ => rfl) (by decide)
      hfresh) hrun⟩
  rw [Bool.and_eq_true] at h
  exact ⟨evictsSafely_of_idle σ a hidle h.1, insertsFresh_of_linksFresh σ a h.2⟩

/-- Two threads put the same key. Neither finds a node, and both link one in. -/
def missedTwice : List Action :=
  does 0 .put (entry 97 1) 3 ++ does 1 .put (entry 97 2) 5 ++ steps 0 2

theorem missedTwice_linked : ∃ s σ, KVState.start 2 (fun _ => none) = .ok s ∧
    run step (start s) missedTwice = .ok σ ∧ ¬ σ.OneNodePerKey := by
  obtain ⟨s, σ, hs, -, hrun, hcheck⟩ := exists_of_passes 2 missedTwice (fun _ _ => true)
    (fun σ =>
      let nodes := σ.state.cache.bucketNodes (hashTableIdx (entry 97 1).calculateKeyHash)
      decide (0 ∈ nodes ∧ 1 ∈ nodes ∧
        (σ.state.cache.message 0).key = (σ.state.cache.message 1).key)) (by decide +kernel)
  refine ⟨s, σ, hs, hrun, ?_⟩
  intro hone
  obtain ⟨h₀, h₁, hkey⟩ := of_decide_eq_true hcheck
  exact absurd ((hone _).2 0 h₀ 1 h₁ hkey) (by decide)

/-! ## Victims in their own bucket -/

/-- An eviction that has reached its locked section unlinks the tail of its queue from the bucket
that the tail is in, and no other node from any bucket. -/
def EvictsFromOwnBucket (σ : SharedCache) : Prop :=
  ∀ t task e hq, σ.pc t = .evictLock task e hq →
    ∃ v, (σ.state.cache.lruEvictionTable e).tail = some v ∧
      hashTableIdx (σ.state.cache.message v) = hq ∧ v ∈ σ.state.cache.bucketNodes hq ∧
      ∀ σ', σ.runThread t = .ok σ' → ∀ i,
        σ'.state.cache.bucketNodes i = (σ.state.cache.bucketNodes i).erase v ∧
        (i ≠ hq → σ'.state.cache.hashTable i = σ.state.cache.hashTable i)

/-- The tail of a queue stays where it is while another thread has tested the head of the queue and
does not have the locks yet: it is not evicted, and not moved unless it is the head as well. -/
def KeepsTails (σ : SharedCache) : Action → Prop
  | .invoke _ _ _ => True
  | .run t => ∀ t' ≠ t, ∀ e, (σ.pc t').window = some e →
    ∀ v, (σ.state.cache.lruEvictionTable e).tail = some v →
      σ.victim t ≠ some v ∧ (σ.moved t = some v → (σ.state.cache.lruEvictionTable e).head = some v)

/-- The queue that thread `t` has tested has a tail, and the bucket it has computed is the
tail's. -/
def WindowOk (σ : SharedCache) (t : Nat) : Prop :=
  ∀ e, (σ.pc t).window = some e → ∃ v, (σ.state.cache.lruEvictionTable e).tail = some v ∧
    ∀ task hq, σ.pc t = .evictLock task e hq → hashTableIdx (σ.state.cache.message v) = hq

theorem windowOk_of_none (h : (σ.pc t).window = none) : σ.WindowOk t := by
  intro e he
  rw [h] at he
  cases he

theorem windowOk_goto {pc' : Pc} {s : KVState} (h : pc'.window = none) :
    (σ.goto t pc' s).WindowOk t := by
  apply windowOk_of_none
  rw [goto_pc, Function.update_self, h]

theorem windowOk_finish {ret : CacheAnswer} {s : KVState} : (σ.finish t task ret s).WindowOk t := by
  apply windowOk_of_none
  rw [finish_pc, Function.update_self]
  rfl

theorem windowOk_invoke (hw : σ.WindowOk t) (t' : Nat) (op : Op) (ptr : KVMessage) :
    (σ.invoke t' op ptr).WindowOk t := by
  rw [invoke]
  split
  · by_cases ht : t = t'
    · subst ht
      exact windowOk_of_none (by dsimp only; rw [Function.update_self]; rfl)
    · dsimp only [WindowOk]
      rw [Function.update_of_ne ht]
      exact hw
  · exact hw

theorem runSearch_windowOk : Ensures (σ.runSearch t task) fun σ' => σ'.WindowOk t := by
  rw [runSearch]
  cases task.op with
  | get =>
    refine ensures_true.bind fun r _ => ?_
    obtain ⟨res, s⟩ := r
    cases res with
    | done res ptr' => exact Ensures.ok windowOk_finish
    | load ptr' => exact Ensures.ok (windowOk_goto rfl)
  | put =>
    refine ensures_true.bind fun found _ => ?_
    cases found with
    | some p => exact Ensures.ok (windowOk_goto rfl)
    | none => exact Ensures.ok (windowOk_goto rfl)
  | delete =>
    refine ensures_true.bind fun r _ => ?_
    obtain ⟨res, s⟩ := r
    cases res with
    | done res => exact Ensures.ok windowOk_finish
    | upgrade p => exact Ensures.ok (windowOk_goto rfl)

theorem runUpgrade_windowOk : Ensures (σ.runUpgrade t task p) fun σ' => σ'.WindowOk t := by
  rw [runUpgrade]
  split
  · refine ensures_true.bind fun r _ => ?_
    obtain ⟨res, s⟩ := r
    cases res with
    | some res => exact Ensures.ok windowOk_finish
    | none => exact Ensures.ok (windowOk_goto rfl)
  · exact ensures_true.bind fun s _ => Ensures.ok windowOk_finish

/-- A thread tests the head before it reads the tail, and computes the bucket from the tail. -/
theorem Inv.windowOk_self (h : Inv σ L held) (hw : σ.WindowOk t) :
    Ensures (σ.runThread t) fun σ' => σ'.WindowOk t := by
  rw [runThread]
  cases hpc : σ.pc t with
  | idle => exact Ensures.ok hw
  | search task => exact runSearch_windowOk
  | newEntry task =>
    refine Ensures.ok (windowOk_goto ?_)
    split_ifs <;> rfl
  | acquire task =>
    refine ensures_true.bind fun r _ => ?_
    obtain ⟨p, c⟩ := r
    cases p with
    | some p => exact Ensures.ok (windowOk_goto rfl)
    | none => exact Ensures.error
  | evictStart task => exact Ensures.ok (windowOk_goto rfl)
  -- here the window opens
  | evictTest task e i =>
    dsimp only
    rw [runEvictTest]
    split_ifs with hhead hi
    · exact Ensures.ok (windowOk_goto rfl)
    · exact Ensures.error
    · obtain ⟨v, hv⟩ := h.wf.tail_of_head hhead
      refine Ensures.ok fun e' he' => ?_
      rw [goto_pc, Function.update_self] at he'
      obtain rfl : e = e' := Option.some.inj he'
      refine ⟨v, hv, ?_⟩
      intro task' hq hpc'
      rw [goto_pc, Function.update_self] at hpc'
      cases hpc'
  -- the bucket is that of the tail, which has not moved since the test
  | evictHash task e =>
    have hwin : (σ.pc t).window = some e := by rw [hpc]; rfl
    obtain ⟨v, hv, -⟩ := hw e hwin
    dsimp only
    rw [KVCache.victimBucket, hv]
    refine Ensures.ok fun e' he' => ?_
    rw [goto_pc, Function.update_self] at he'
    obtain rfl : e = e' := Option.some.inj he'
    refine ⟨v, hv, ?_⟩
    intro task' hq hpc'
    rw [goto_pc, Function.update_self] at hpc'
    exact (Pc.evictLock.inj hpc').2.2
  | evictLock task e i =>
    refine ensures_true.bind fun r _ => ?_
    obtain ⟨p, s⟩ := r
    cases p with
    | some p => exact Ensures.ok (windowOk_goto rfl)
    | none => exact Ensures.ok (windowOk_goto rfl)
  | fill task p => exact Ensures.ok (windowOk_goto rfl)
  | link task q p => exact Ensures.ok windowOk_finish
  | upgrade task p => exact runUpgrade_windowOk
  | deleteDb task => exact ensures_true.bind fun r _ => Ensures.ok windowOk_finish

theorem WindowOk.victimInBucket (hw : σ.WindowOk t) : σ.VictimInBucket t := by
  intro task e hq v hpc hv
  have hwin : (σ.pc t).window = some e := by rw [hpc]; rfl
  obtain ⟨v', hv', hbucket⟩ := hw e hwin
  have htail : σ.victim t = (σ.state.cache.lruEvictionTable e).tail := by rw [victim, hpc]
  obtain rfl : v' = v := Option.some.inj (hv'.symm.trans (htail.symm.trans hv))
  exact hbucket task hq hpc

/-- A step of another thread leaves the tail where it is. -/
theorem Steps.windowOk (hsteps : Steps σ t L held σ') {t' : Nat} (ht : t' ≠ t)
    (hkeep : σ.KeepsTails (.run t)) (hw : σ.WindowOk t') : σ'.WindowOk t' := by
  obtain ⟨L', held', pc', hf, hpc, -, -⟩ := hsteps
  have hsame : σ'.pc t' = σ.pc t' := by rw [hpc, Function.update_of_ne ht]
  intro e he
  rw [hsame] at he ⊢
  obtain ⟨v, hv, hbucket⟩ := hw e he
  obtain ⟨hvictim, hmoved⟩ := hkeep t' ht e he v hv
  have hv' := hf.tail e v hv hvictim hmoved
  refine ⟨v, hv', ?_⟩
  intro task hq hlock
  have htriple := hf.triple v (hf.wf.tail_linked hv').1
  rw [← hbucket task hq hlock]
  exact congrArg (fun m => m.hash1.toNat % cacheTableLen) htriple

/-- What the locked section of an eviction does to the buckets. -/
theorem Inv.evictsFromOwnBucket (h : Inv σ L held) (hw : ∀ t, σ.WindowOk t) :
    σ.EvictsFromOwnBucket := by
  intro t task e hq hpc
  have hwin : (σ.pc t).window = some e := by rw [hpc]; rfl
  obtain ⟨v, hv, hbucket⟩ := hw t e hwin
  obtain rfl := hbucket task hq hpc
  have hlinked := (h.wf.tail_linked hv).1
  have hmem : ∀ i, v ∈ L.bucket i ↔ hashTableIdx (σ.state.cache.message v) = i := fun i =>
    (h.wf.mem_bucket i v).trans (and_iff_right hlinked)
  refine ⟨v, hv, rfl, by rw [h.wf.bucketNodes_eq, hmem], ?_⟩
  intro σ' hstep i
  -- the step is the locked section
  have hens : Ensures (σ.runThread t) fun σ' =>
      Wf σ'.state.cache (Wf.unlinked σ.state.cache L v) (v :: held) ∧
      σ'.state.cache = (σ.state.cache.removeFromDllHT (hashTableIdx (σ.state.cache.message v)) v
        ).removeFromDllLRU e v := by
    rw [runThread, hpc]
    refine (KVState.evictLocked_ensures h.wf hv).bind fun r hr => ?_
    obtain ⟨res, s⟩ := r
    obtain ⟨rfl, hwf, hcache⟩ := hr
    exact Ensures.ok ⟨hwf, hcache⟩
  obtain ⟨hwf, hcache⟩ := hens σ' hstep
  constructor
  · rw [h.wf.bucketNodes_eq, hwf.bucketNodes_eq]
    dsimp only [Wf.unlinked]
    by_cases hi : i = hashTableIdx (σ.state.cache.message v)
    · rw [hi, Function.update_self]
    · rw [Function.update_of_ne hi, List.erase_of_not_mem fun hm => hi ((hmem i).1 hm).symm]
  · intro hi
    rw [hcache]
    exact Function.update_of_ne hi _ _

/-- **An eviction unlinks its victim from the victim's own bucket**, as long as no step takes away
the tail of a queue that another thread is about to evict from, nor a node that another thread is
about to upgrade. -/
theorem evicts_from_own_bucket (hsize : 1 ≤ cacheSize)
    (hs : KVState.start cacheSize files = .ok s)
    (hsafe : Meets step (fun σ a => σ.KeepsTails a ∧ ∀ t, a = .run t → σ.KeepsTargets t)
      (start s) as)
    (hrun : run step (start s) as = .ok σ) : σ.EvictsFromOwnBucket := by
  obtain ⟨L, h, -⟩ := inv_start hsize hs
  obtain ⟨⟨L', held', h'⟩, hw'⟩ := run_invariant
    (I := fun σ : SharedCache => (∃ L held, Inv σ L held) ∧ ∀ t, σ.WindowOk t)
    (fun σ a σ' hI hC hstep => by
      obtain ⟨⟨L, held, h⟩, hw⟩ := hI
      cases a with
      | invoke t op ptr =>
        obtain rfl := Except.ok.inj hstep
        exact ⟨⟨L, held, h.of_invoke t op ptr⟩, fun t' => windowOk_invoke (hw t') t op ptr⟩
      | run t =>
        have hin := (hw t).victimInBucket
        obtain ⟨L', held', -, h'⟩ := h.of_runThread hin (hC.2 t rfl) hstep
        refine ⟨⟨L', held', h'⟩, ?_⟩
        intro t'
        by_cases ht : t' = t
        · rw [ht]
          exact h.windowOk_self (hw t) σ' hstep
        · exact (runThread_ensures h hin σ' hstep).windowOk ht hC.1 (hw t'))
    ⟨⟨L, [], h⟩, fun t => windowOk_of_none rfl⟩ hsafe hrun
  exact h'.evictsFromOwnBucket hw'

/-- The step takes no tail away that thread 0 or 1 is about to evict. -/
def keepsTails (σ : SharedCache) : Action → Bool
  | .invoke _ _ _ => true
  | .run t => [0, 1].all fun t' => t' == t || (σ.pc t').window.all fun e =>
    (σ.state.cache.lruEvictionTable e).tail.all fun v =>
      σ.victim t != some v &&
        (σ.moved t != some v || (σ.state.cache.lruEvictionTable e).head == some v)

theorem keepsTails_of_idle (σ : SharedCache) (a : Action)
    (hidle : ∀ t ∉ [0, 1], σ.pc t = .idle) (h : σ.keepsTails a = true) : σ.KeepsTails a := by
  cases a with
  | invoke t op ptr => trivial
  | run t =>
    intro t' ht e hwin v hv
    by_cases hmem : t' ∈ [0, 1]
    · have hkeeps := List.all_eq_true.1 h t' hmem
      simp only [beq_eq_false_iff_ne.2 ht, Bool.false_or, hwin, Option.all_some, hv,
        Bool.and_eq_true, bne_iff_ne, Bool.or_eq_true, beq_iff_eq] at hkeeps
      exact ⟨hkeeps.1, fun hmoved => hkeeps.2.resolve_left fun hne => hne hmoved⟩
    · rw [hidle t' hmem] at hwin
      cases hwin

/-- Two keys fill the cache. Thread 0 puts a third and has tested the head of the queue. Thread 1
puts the key at that head again, and then a fourth, and both reach the locks of the eviction. -/
def evictBoth : List Action :=
  does 0 .put (entry 97 1) 5 ++ does 0 .put (entry 98 2) 5 ++ does 0 .put (entry 99 3) 4 ++
    does 1 .put (entry 98 4) 2 ++ does 1 .put (entry 100 5) 5 ++ steps 0 1

theorem evicts_from_own_bucket_put : ∃ s σ, KVState.start 2 (fun _ => none) = .ok s ∧
    run step (start s) evictBoth = .ok σ ∧
    (∀ t ∈ [0, 1], ∃ task e hq, σ.pc t = .evictLock task e hq) ∧ σ.EvictsFromOwnBucket := by
  obtain ⟨s, σ, hs, hkeeps, hrun, hpc⟩ := exists_of_passes 2 evictBoth
    (fun σ a => σ.evictsSafely a && σ.keepsTails a) (fun σ => [0, 1].all fun t =>
      match σ.pc t with
      | .evictLock _ _ _ => true
      | _ => false) (by decide +kernel)
  refine ⟨s, σ, hs, hrun, fun t ht => ?_, evicts_from_own_bucket one_le_two hs
    (meets_of_checkRun_idle (T := [0, 1]) (fun σ a hidle h => ?_) (fun _ _ => rfl) (by decide)
      hkeeps) hrun⟩
  · have hlock := List.all_eq_true.1 hpc t ht
    split at hlock
    · exact ⟨_, _, _, ‹_›⟩
    · cases hlock
  · rw [Bool.and_eq_true] at h
    refine ⟨keepsTails_of_idle σ a hidle h.2, fun t ha => ?_⟩
    obtain rfl := ha
    exact (evictsSafely_of_idle σ _ hidle h.1).2

/-- Thread 0 has computed the bucket of the only node, and waits for the locks. Thread 1 evicts the
node and links it in for a key of another bucket. -/
def staleBucket : List Action :=
  does 0 .put (entry 97 1) 5 ++ does 0 .delete (entry 97 0) 2 ++ does 0 .put (entry 98 2) 5 ++
    does 1 .put (entry 99 3) 8

/-- The thread is about to lock a bucket that its victim is not in. -/
def locksOtherBucket (σ : SharedCache) (t : Nat) : Bool :=
  match σ.pc t with
  | .evictLock _ e hq =>
    match (σ.state.cache.lruEvictionTable e).tail with
    | some v => decide (hashTableIdx (σ.state.cache.message v) ≠ hq)
    | none => false
  | _ => false

theorem staleBucket_locked : ∃ s σ, KVState.start 1 (fun _ => none) = .ok s ∧
    run step (start s) staleBucket = .ok σ ∧ ¬ σ.EvictsFromOwnBucket := by
  obtain ⟨s, σ, hs, -, hrun, hcheck⟩ := exists_of_passes 1 staleBucket (fun _ _ => true)
    (locksOtherBucket · 0) (by decide +kernel)
  refine ⟨s, σ, hs, hrun, ?_⟩
  intro hown
  rw [locksOtherBucket] at hcheck
  cases hpc : σ.pc 0 with
  | evictLock task e hq =>
    obtain ⟨v, hv, hbucket, -⟩ := hown 0 task e hq hpc
    rw [hpc] at hcheck
    dsimp only at hcheck
    rw [hv] at hcheck
    exact of_decide_eq_true hcheck hbucket
  | _ => rw [hpc] at hcheck; cases hcheck

end SharedCache

end KeyValueStore
