import KeyValueStore.CacheRuns
import KeyValueStore.ThreadSafety

/-!
# Serial order

The requests of any number of threads answer as if they were made one at a time of a dictionary, in
an order that respects which request ended before which began; and cache and store hold that
dictionary. An operation takes effect in the step that returns: `cache_GET` that has loaded a value
when it links the node in, and `cache_PUT` and `cache_DELETE` under their writer locks.

This fails in some runs (`recycledNode_read`). It holds in the runs where evictions are safe, a node
is linked in for a key that has none, and the value that `cache_GET` has loaded is still the one in
the store when its node is linked in (`serializable`).
-/

namespace KeyValueStore

open Run Linearizability

variable {s : KVState} {L L' : Layout} {held held' : List NodePtr} {d d₀ : Dict}

/-- The dictionary as a sequential specification. -/
def dictSpec (d : Dict) (c : CacheCall) : Dict × CacheAnswer := ((dictCall d c).2, (dictCall d c).1)

/-! ## Layouts -/

theorem Wf.linked_iff (h : Wf s.cache L held) (h' : Wf s.cache L' held') (p : NodePtr) :
    p ∈ L'.linked ↔ p ∈ L.linked := by
  have hmem : p ∈ L'.bucket (hashTableIdx (s.cache.message p)) ↔
      p ∈ L.bucket (hashTableIdx (s.cache.message p)) := by
    rw [← h.bucketNodes_eq, ← h'.bucketNodes_eq]
  rwa [h.mem_bucket, h'.mem_bucket, and_iff_left rfl, and_iff_left rfl] at hmem

theorem Represents.relayout (h : Represents s L held d) (h' : Wf s.cache L' held') :
    Represents s L' held' d :=
  h.congr h' (h.wf.linked_iff h') (fun _ _ => rfl) fun _ _ => rfl

/-- Cache and store hold the dictionary `d`, in some layout. -/
def KVState.Stands (s : KVState) (d : Dict) : Prop := ∃ L held, Represents s L held d

theorem Represents.stands (h : Represents s L held d) : s.Stands d := ⟨L, held, h⟩

/-! ## What a thread does for its caller -/

/-- The thread executes this call. -/
def Task.Serves (task : Task) (o : Option (Nat × CacheCall)) : Prop :=
  ∃ arg : KVMessage, o = some (task.id, task.op.call arg) ∧ task.ptr = arg.calculateKeyHash

/-- The thread executes this call, and is about to enter the key into the cache: with the value
given, or with one that `cache_GET` has read. -/
def Task.Stores (task : Task) (o : Option (Nat × CacheCall)) : Prop :=
  ∃ (arg : KVMessage) (v : Chars256), o = some (task.id, task.op.call arg) ∧
    task.ptr = { arg.calculateKeyHash with value := v } ∧ (task.op ≠ .get → v = arg.value)

theorem Task.Serves.stores {task : Task} {o : Option (Nat × CacheCall)} (h : task.Serves o) :
    task.Stores o := by
  obtain ⟨arg, ho, hptr⟩ := h
  exact ⟨arg, arg.value, ho, hptr, fun _ => rfl⟩

/-- The call that a thread at this point has under way. -/
def Pc.Serves : Pc → Option (Nat × CacheCall) → Prop
  | .idle, o => o = none
  | .search task, o | .upgrade task _, o | .deleteDb task, o => task.Serves o
  | .newEntry task, o | .acquire task, o | .evictStart task, o | .evictTest task _ _, o
  | .evictHash task _, o | .evictLock task _ _, o | .fill task _, o | .link task _ _, o =>
    task.Stores o

namespace SharedCache

variable {σ σ' : SharedCache} {t : Nat} {task : Task} {o : Option (Nat × CacheCall)}

/-- A step of thread `t`, which executes the call `o`: it goes on, or it returns what the dictionary
answers. -/
def Effect (σ : SharedCache) (t : Nat) (d : Dict) (o : Option (Nat × CacheCall))
    (σ' : SharedCache) : Prop :=
  (∃ pc s, σ' = σ.goto t pc s ∧ s.Stands d ∧ pc.Serves o) ∨
  ∃ task s c, σ' = σ.finish t task (dictSpec d c).2 s ∧ s.Stands (dictSpec d c).1 ∧
    o = some (task.id, c)

theorem Effect.goto {pc : Pc} {s : KVState} (hs : s.Stands d) (ho : pc.Serves o) :
    Effect σ t d o (σ.goto t pc s) := Or.inl ⟨pc, s, rfl, hs, ho⟩

theorem Effect.finish {s : KVState} {c : CacheCall} {ret : CacheAnswer}
    (hret : ret = (dictSpec d c).2) (hs : s.Stands (dictSpec d c).1) (ho : o = some (task.id, c)) :
    Effect σ t d o (σ.finish t task ret s) := Or.inr ⟨task, s, c, by rw [hret], hs, ho⟩

/-- The value that `cache_GET` has read is still what the store holds when its node is linked in. -/
def LoadsCurrent (σ : SharedCache) : Action → Prop
  | .invoke _ _ _ => True
  | .run t => ∀ task q p, σ.pc t = .link task q p → task.op = .get →
    σ.state.store.readFromDb task.ptr = .ok (true, task.ptr)

section

variable (hrep : Represents σ.state L held d)
include hrep

/-- **The section under the reader lock.** -/
theorem runSearch_effect (ho : task.Serves o) : Ensures (σ.runSearch t task) (Effect σ t d o) := by
  have hstores := ho.stores
  obtain ⟨arg, hcall, hptr⟩ := id ho
  have hhashed : task.ptr.triple = tripleOf task.ptr.key := by rw [hptr]; rfl
  rw [runSearch]
  cases hop : task.op with
  | get =>
    obtain ⟨r, s', L', hget, hrep', -, -, -, hr⟩ := KVState.getSearch_spec hrep task.ptr hhashed
    dsimp only
    rw [hget, ok_bind]
    rw [hop] at hcall
    cases r with
    | done res ptr' =>
      refine Ensures.ok (Effect.finish (c := .get arg) ?_ hrep'.stands hcall)
      show CacheAnswer.get res.isSome ptr' = .get _ _
      rw [← hptr, ← hr]
    -- the value is in the store only: the thread goes on to enter it
    | load ptr' =>
      refine Ensures.ok (Effect.goto hrep'.stands ?_)
      obtain ⟨v, -, rfl⟩ := dictGet_eq_true.1 hr.1.symm
      exact ⟨arg, v, hcall, by rw [hptr], fun hne => absurd rfl hne⟩
  | put =>
    obtain ⟨found, hf⟩ := hrep.wf.findEntry_ok task.ptr
    dsimp only
    rw [hf, ok_bind]
    cases found with
    | some p => exact Ensures.ok (Effect.goto hrep.stands ho)
    | none => exact Ensures.ok (Effect.goto hrep.stands hstores)
  | delete =>
    obtain ⟨r, s', hdel, -, hr⟩ := KVState.deleteSearch_spec hrep task.ptr hhashed
    dsimp only
    rw [hdel, ok_bind]
    cases r with
    | done res =>
      rw [hop] at hcall
      refine Ensures.ok (Effect.finish (c := .delete arg) ?_ ?_ hcall)
      · -- a key that is not in the cache is deleted in the store, which decides the answer
        rw [hr.1, hptr]
        rfl
      · have hstands := hr.2.stands
        rw [hptr] at hstands
        exact hstands
    | upgrade p =>
      obtain ⟨rfl, -⟩ := hr
      exact Ensures.ok (Effect.goto hrep.stands ho)

/-- **The section under the writer locks.** -/
theorem runUpgrade_effect {p : NodePtr} (hok : ThreadOk σ.state.cache L held (.upgrade task p))
    (ho : task.Serves o) : Ensures (σ.runUpgrade t task p) (Effect σ t d o) := by
  obtain ⟨-, hne, hp, htriple⟩ := hok
  obtain ⟨arg, hcall, hptr⟩ := ho
  have hkey : (σ.state.cache.message p).key = task.ptr.key := congrArg Triple.key htriple
  rw [runUpgrade]
  cases hop : task.op with
  | get => exact absurd hop hne
  | put =>
    obtain ⟨s', L', hput, hrep', -⟩ := KVState.upgradePut_spec hrep hp hkey
    dsimp only
    rw [hput, ok_bind]
    rw [hop] at hcall
    rw [hptr] at hrep'
    exact Ensures.ok (Effect.finish (c := .put arg) rfl hrep'.stands hcall)
  | delete =>
    obtain ⟨s', L', hdel, hrep', -⟩ := KVState.upgradeDelete_spec hrep hp
    dsimp only
    rw [hdel, ok_bind]
    rw [hop] at hcall
    rw [hkey, hptr] at hrep' ⊢
    exact Ensures.ok (Effect.finish (c := .delete arg) rfl hrep'.stands hcall)

/-- **The locked section of an eviction.** -/
theorem runEvictLock_effect {e i : Nat} (hpc : σ.pc t = .evictLock task e i)
    (hin : σ.VictimInBucket t) (ho : task.Stores o) :
    Ensures (σ.runThread t) (Effect σ t d o) := by
  rw [runThread, hpc]
  dsimp only
  cases htail : (σ.state.cache.lruEvictionTable e).tail with
  | none =>
    rw [KVState.evictLocked, htail]
    exact Ensures.error
  | some v =>
    have hvictim : σ.victim t = some v := by simp only [victim, hpc, htail]
    obtain rfl := hin task e i v hpc hvictim
    refine Ensures.bind (fun r hr => (KVState.evictLocked_spec hrep htail).of_ok hr) fun r hr => ?_
    obtain ⟨res, s⟩ := r
    obtain ⟨rfl, hrep', -⟩ := hr
    exact Ensures.ok (Effect.goto hrep'.stands ho)

/-- **Linking a node in**, which is where an entered key takes effect. -/
theorem runLink_effect {q : Nat} {p : NodePtr} (hpc : σ.pc t = .link task q p)
    (hok : ThreadOk σ.state.cache L held (.link task q p)) (hfresh : σ.InsertsFresh (.run t))
    (hload : σ.LoadsCurrent (.run t)) (ho : task.Stores o) :
    Ensures (σ.runThread t) (Effect σ t d o) := by
  obtain ⟨⟨hhashed, hne⟩, hp, hfilled⟩ := hok
  obtain ⟨arg, v, hcall, hptr, hv⟩ := ho
  have hmsg := hfilled.message
  have hf := hfresh task q p hpc
  have hkeys := hrep.key_ne task.ptr hhashed hf
  have hkey : (σ.state.cache.message p).key = arg.key := by rw [hmsg, hptr]; rfl
  have hvalue : (σ.state.cache.message p).value = v := by rw [hmsg, hptr]
  have hlink := (KVState.link_spec hrep hp (i := hashTableIdx task.ptr) (by rw [hmsg]; rfl)
    hfilled.lruIdx hfilled.queue_lt (by rw [hmsg]; exact hhashed) hfilled.dirtyBit
    (by rw [hmsg]; exact hkeys)).stands
  rw [hkey, hvalue] at hlink
  rw [runThread, hpc]
  cases hop : task.op with
  | delete => exact absurd hop hne
  | put =>
    rw [hop] at hcall
    rw [hv (by rw [hop]; decide)] at hlink
    exact Ensures.ok (Effect.finish (c := .put arg) (by rw [linkAnswer, hop]; rfl) hlink hcall)
  | get =>
    -- the dictionary has the value already
    have hread := hrep.readFromDb_eq task.ptr hhashed hf
    rw [hload task q p hpc hop, hptr] at hread
    obtain ⟨w, hd, hw⟩ := dictGet_eq_true.1 (Except.ok.inj hread).symm
    obtain rfl : v = w := congrArg KVMessage.value hw
    change d arg.key = some v at hd
    rw [Function.update_eq_self_iff.2 hd.symm] at hlink
    rw [hop] at hcall
    refine Ensures.ok (Effect.finish (c := .get arg) ?_ hlink hcall)
    rw [linkAnswer, hop]
    show CacheAnswer.get true task.ptr = .get _ _
    simp only [hptr, dictGet, calculateKeyHash_key, hd]

/-- **Every step** of a thread goes on, or returns what the dictionary answers. -/
theorem runThread_effect (hok : ThreadOk σ.state.cache L held (σ.pc t))
    (hin : σ.VictimInBucket t) (hfresh : σ.InsertsFresh (.run t))
    (hload : σ.LoadsCurrent (.run t)) (ho : (σ.pc t).Serves o) :
    Ensures (σ.runThread t) (Effect σ t d o) := by
  cases hpc : σ.pc t with
  | idle =>
    rw [runThread, hpc]
    refine Ensures.ok (Or.inl ⟨.idle, σ.state, ?_, hrep.stands, by rwa [hpc] at ho⟩)
    rw [SharedCache.goto, ← hpc, Function.update_eq_self]
  -- only `search`, `link` and `upgrade` can return; the other steps leave the dictionary alone
  | search task =>
    rw [hpc] at ho
    rw [runThread, hpc]
    exact runSearch_effect hrep ho
  | newEntry task =>
    rw [hpc] at ho
    rw [runThread, hpc]
    refine Ensures.ok (Effect.goto hrep.stands ?_)
    split_ifs <;> exact ho
  | acquire task =>
    rw [hpc] at ho
    obtain ⟨p, c, L', hacq, hrep', -⟩ := KVState.acquireInstance_spec hrep
    rw [runThread, hpc]
    dsimp only
    rw [hacq]
    exact Ensures.ok (Effect.goto hrep'.stands ho)
  | evictStart task =>
    rw [hpc] at ho
    rw [runThread, hpc]
    exact Ensures.ok (Effect.goto
      (KVState.Represents.setCounters hrep _ σ.state.cache.lruTableInsertIdx).stands ho)
  | evictTest task e i =>
    rw [hpc] at ho
    rw [runThread, hpc]
    dsimp only
    rw [runEvictTest]
    split_ifs
    · exact Ensures.ok (Effect.goto
        (KVState.Represents.setCounters hrep _ σ.state.cache.lruTableInsertIdx).stands ho)
    · exact Ensures.error
    · exact Ensures.ok (Effect.goto hrep.stands ho)
  | evictHash task e =>
    rw [hpc] at ho
    rw [runThread, hpc]
    exact ensures_true.bind fun i _ => Ensures.ok (Effect.goto hrep.stands ho)
  | evictLock task e i =>
    rw [hpc] at ho
    exact runEvictLock_effect hrep hpc hin ho
  | fill task p =>
    rw [hpc] at ho hok
    rw [runThread, hpc]
    exact Ensures.ok (Effect.goto (KVState.fill_spec hrep hok.2 task.ptr).1.stands ho)
  | link task q p =>
    rw [hpc] at ho hok
    exact runLink_effect hrep hpc hok hfresh hload ho
  | upgrade task p =>
    rw [hpc] at ho hok
    rw [runThread, hpc]
    exact runUpgrade_effect hrep hok ho
  -- no operation of a well-formed cache comes here
  | deleteDb task =>
    rw [hpc] at hok
    exact hok.elim

end

/-! ## Runs -/

/-- The sequence `l` of requests, made of `d₀` one at a time, explains the history and ends in the
dictionary `d` that cache and store hold. -/
structure Explains (d₀ : Dict) (σ : SharedCache) (l : List (Entry CacheCall CacheAnswer))
    (d : Dict) : Prop where
  inv : ∃ L held, Inv σ L held ∧ Represents σ.state L held d
  tracked : ∃ pending, Tracked dictSpec d₀ σ.history σ.nextId pending l d ∧
    ∀ t, (σ.pc t).Serves (pending t)

/-- No step undoes what another thread has done or is about to do. -/
def Undisturbed (σ : SharedCache) (a : Action) : Prop :=
  σ.EvictsSafely a ∧ σ.InsertsFresh a ∧ σ.LoadsCurrent a

variable {l : List (Entry CacheCall CacheAnswer)}

theorem Explains.of_invoke (h : Explains d₀ σ l d) (t : Nat) (op : Op) (ptr : KVMessage) :
    Explains d₀ (σ.invoke t op ptr) l d := by
  obtain ⟨⟨L, held, hinv, hrep⟩, pending, htracked, hserves⟩ := h
  refine ⟨⟨L, held, hinv.of_invoke t op ptr, by rwa [state_invoke]⟩, ?_⟩
  rw [invoke]
  split
  · next hidle =>
    have hnone : pending t = none := by
      have hs := hserves t
      rwa [hidle] at hs
    refine ⟨_, htracked.invoke hnone (op.call ptr), ?_⟩
    intro t'
    by_cases ht : t' = t
    · rw [ht]
      dsimp only
      rw [Function.update_self, Function.update_self]
      exact ⟨ptr, rfl, rfl⟩
    · dsimp only
      rw [Function.update_of_ne ht, Function.update_of_ne ht]
      exact hserves t'
  · exact ⟨pending, htracked, hserves⟩

/-- **The step lemma**: a step adds at most its own request to the sequence. -/
theorem Explains.of_runThread (h : Explains d₀ σ l d) (hun : σ.Undisturbed (.run t))
    (hstep : σ.runThread t = .ok σ') : ∃ l' d', Explains d₀ σ' l' d' := by
  obtain ⟨⟨L, held, hinv, hrep⟩, pending, htracked, hserves⟩ := h
  obtain ⟨hsafe, hfresh, hload⟩ := hun
  obtain ⟨L', held', -, hinv'⟩ := hinv.of_runThread hsafe.1 hsafe.2 hstep
  -- the new layout is the one in which the invariant holds
  have hrep' : ∀ d', σ'.state.Stands d' → ∃ L' held', Inv σ' L' held' ∧
      Represents σ'.state L' held' d' := by
    rintro d' ⟨L'', held'', hstands⟩
    exact ⟨L', held', hinv', hstands.relayout hinv'.wf⟩
  rcases runThread_effect hrep (hinv.threads.ok t) hsafe.1 hfresh hload (hserves t) σ' hstep with
    ⟨pc, s, rfl, hstands, hpc⟩ | ⟨task, s, c, rfl, hstands, ho⟩
  · refine ⟨l, d, hrep' d hstands, pending, htracked, ?_⟩
    intro t'
    by_cases ht : t' = t
    · rw [ht, goto_pc, Function.update_self]
      exact hpc
    · rw [goto_pc, Function.update_of_ne ht]
      exact hserves t'
  · refine ⟨_, _, hrep' _ hstands, _, htracked.answer ho, ?_⟩
    intro t'
    by_cases ht : t' = t
    · rw [ht, finish_pc, Function.update_self, Function.update_self]
      rfl
    · rw [finish_pc, Function.update_of_ne ht, Function.update_of_ne ht]
      exact hserves t'

/-- The answers given are those of the requests made of `d₀` one at a time, in an order that keeps a
request that ended before another began ahead of it, and cache and store hold what `d₀` has become.
Once no thread is in an operation, the order has every request in it. -/
def Serializable (d₀ : Dict) (σ : SharedCache) : Prop :=
  ∃ l d, Linearizes dictSpec d₀ σ.history l d ∧ (∀ key, σ.state.lookup key = .ok (d key)) ∧
    ((∀ t, σ.pc t = .idle) → ∀ id c, .invoke id c ∈ σ.history →
      ∃ r, .respond id r ∈ σ.history ∧ ⟨id, c, r⟩ ∈ l)

theorem Explains.serial (h : Explains d₀ σ l d) : σ.Serializable d₀ := by
  obtain ⟨⟨L, held, -, hrep⟩, pending, htracked, hserves⟩ := h
  refine ⟨l, d, htracked.inst.linearizes, fun key => KVState.lookup_eq hrep key, ?_⟩
  intro hidle id c hc
  rcases htracked.accounted id c hc with hdone | ⟨t, ht⟩
  · exact hdone
  · have hnone := hserves t
    rw [hidle t] at hnone
    rw [show pending t = none from hnone] at ht
    cases ht

variable {s : KVState} {as : List Action} {cacheSize : Nat} {files : Nat → Option (List UInt8)}

/-- A run without disturbances is explained by a serial order. -/
theorem run_explains (hsize : 1 ≤ cacheSize) (hfiles : WellFormedFiles files) :
    ∃ (s : KVState) (d₀ : Dict), KVState.start cacheSize files = .ok s ∧
      (∀ ptr : KVMessage,
        s.store.readFromDb ptr.calculateKeyHash = .ok (dictGet d₀ ptr.calculateKeyHash)) ∧
      ∀ as σ, Meets step Undisturbed (start s) as → run step (start s) as = .ok σ →
        ∃ l d, Explains d₀ σ l d := by
  obtain ⟨s, d₀, hs, hread, hrep, -⟩ := KVState.start_dict hsize hfiles
  obtain ⟨L, hinv, -⟩ := inv_start hsize hs
  refine ⟨s, d₀, hs, hread, ?_⟩
  intro as σ hun hrun
  have hstart : Explains d₀ (start s) [] d₀ :=
    ⟨⟨L, [], hinv, hrep.relayout hinv.wf⟩, _, Tracked.start, fun _ => rfl⟩
  refine run_invariant (I := fun σ => ∃ l d, Explains d₀ σ l d) ?_ ⟨[], _, hstart⟩ hun hrun
  rintro σ a σ' ⟨l, d, hI⟩ hC hstep
  cases a with
  | invoke t op ptr =>
    obtain rfl := Except.ok.inj hstep
    exact ⟨l, d, hI.of_invoke t op ptr⟩
  | run t => exact hI.of_runThread hC hstep

/-- **Concurrent requests are serializable**, for any number of threads and any interleaving, as
long as every eviction is safe, every node is linked in for a key that has none, and what
`cache_GET` enters is still what the store holds. The run must not fail, as it does when a queue is
emptied between an eviction's test of its head and the read of its tail. -/
theorem serializable (hsize : 1 ≤ cacheSize) (hfiles : WellFormedFiles files) :
    ∃ (s : KVState) (d₀ : Dict), KVState.start cacheSize files = .ok s ∧
      (∀ ptr : KVMessage,
        s.store.readFromDb ptr.calculateKeyHash = .ok (dictGet d₀ ptr.calculateKeyHash)) ∧
      ∀ as σ, Meets step Undisturbed (start s) as → run step (start s) as = .ok σ →
        σ.Serializable d₀ := by
  obtain ⟨s, d₀, hs, hread, hruns⟩ := run_explains hsize hfiles
  refine ⟨s, d₀, hs, hread, ?_⟩
  intro as σ hun hrun
  obtain ⟨l, d, h⟩ := hruns as σ hun hrun
  exact h.serial

/-- The step evicts no node. -/
def evictsNone (σ : SharedCache) : Action → Bool
  | .invoke _ _ _ => true
  | .run t => (σ.victim t).isNone

theorem evictsSafely_of_evictsNone (σ : SharedCache) (a : Action) (h : σ.evictsNone a = true) :
    σ.EvictsSafely a := by
  cases a with
  | invoke t op ptr => trivial
  | run t =>
    rw [evictsNone, Option.isNone_iff_eq_none] at h
    constructor
    · intro _ _ _ v _ hv
      rw [h] at hv
      cases hv
    · intro v hv
      rw [h] at hv
      cases hv

/-- The step enters no value that `cache_GET` has read. -/
def loadsNone (σ : SharedCache) : Action → Bool
  | .invoke _ _ _ => true
  | .run t =>
    match σ.pc t with
    | .link task _ _ => task.op != .get
    | _ => true

theorem loadsCurrent_of_loadsNone (σ : SharedCache) (a : Action) (h : σ.loadsNone a = true) :
    σ.LoadsCurrent a := by
  cases a with
  | invoke t op ptr => trivial
  | run t =>
    intro task q p hpc hop
    simp [loadsNone, hpc, hop] at h

/-- Two threads put different keys, one while the other is between its search and its insertion; the
second key is then read. -/
def putBoth : List Action :=
  does 0 .put (entry 97 1) 2 ++ does 1 .put (entry 98 2) 5 ++ steps 0 3 ++
    does 0 .get (entry 98 0) 1

theorem serializable_putBoth : ∃ s σ, KVState.start 2 (fun _ => none) = .ok s ∧
    run step (start s) putBoth = .ok σ ∧
    .respond 2 (.get true (entry 98 2).calculateKeyHash) ∈ σ.history ∧
    ∃ d₀, σ.Serializable d₀ := by
  obtain ⟨s, σ, hs, hun, hrun, hread⟩ := exists_of_passes 2 putBoth
    (fun σ a => σ.evictsNone a && (σ.linksFresh a && σ.loadsNone a))
    (fun σ => decide (.respond 2 (.get true (entry 98 2).calculateKeyHash) ∈ σ.history))
    (by decide +kernel)
  obtain ⟨s', d₀, hs', -, hser⟩ :=
    serializable one_le_two wellFormedFiles_none
  obtain rfl := Except.ok.inj (hs.symm.trans hs')
  refine ⟨s, σ, hs, hrun, of_decide_eq_true hread, d₀, hser putBoth σ ?_ hrun⟩
  refine meets_of_checkRun (fun σ a h => ?_) hun
  rw [Bool.and_eq_true, Bool.and_eq_true] at h
  exact ⟨evictsSafely_of_evictsNone σ a h.1, insertsFresh_of_linksFresh σ a h.2.1,
    loadsCurrent_of_loadsNone σ a h.2.2⟩

/-! ## A value read that was never put -/

/-- In a sequential run every value read was there before or was put under its key. -/
theorem read_origin {d' : Dict} (h : Legal dictSpec d l d') {id : Nat} {arg ptr : KVMessage}
    (hl : ⟨id, .get arg, .get true ptr⟩ ∈ l) : d arg.key = some ptr.value ∨
      ∃ id put ret, ⟨id, .put put, ret⟩ ∈ l ∧ put.key = arg.key ∧ put.value = ptr.value := by
  induction l generalizing d with
  | nil => cases hl
  | cons e es ih =>
    obtain ⟨hret, hrest⟩ := h
    rcases List.mem_cons.1 hl with rfl | hl
    · left
      obtain ⟨hfound, hptr⟩ := CacheAnswer.get.inj hret
      obtain ⟨v, hv, hptr⟩ := dictGet_eq_true.1 (Prod.ext hfound hptr)
      rw [hptr]
      exact hv
    · rcases ih hrest hl with hd | ⟨id', put, ret, hput, hkey, hvalue⟩
      · obtain ⟨id', op, ret⟩ := e
        cases op with
        | get _ => exact Or.inl hd
        | evictionSimple => exact Or.inl hd
        | put put =>
          by_cases hkey : put.key = arg.key
          · change Function.update d put.key (some put.value) arg.key = _ at hd
            rw [hkey, Function.update_self] at hd
            exact Or.inr ⟨id', put, ret, List.mem_cons_self, hkey, Option.some.inj hd⟩
          · change Function.update d put.key (some put.value) arg.key = _ at hd
            rw [Function.update_of_ne (Ne.symm hkey)] at hd
            exact Or.inl hd
        | delete ptr' =>
          change Function.update d ptr'.key none arg.key = _ at hd
          by_cases hkey : arg.key = ptr'.key
          · rw [hkey, Function.update_self] at hd
            cases hd
          · rw [Function.update_of_ne hkey] at hd
            exact Or.inl hd
      · exact Or.inr ⟨id', put, ret, List.mem_cons_of_mem _ hput, hkey, hvalue⟩

/-- Thread 0 stores its value in the node that is now the other key's, and thread 1 reads it. -/
def readRecycled : List Action := recycledNode ++ steps 0 1 ++ does 1 .get (entry 98 0) 1

/-- The second key was put with the value 9 only, and is read with the value 2. -/
def readRecycledHistory : List (Event CacheCall CacheAnswer) :=
  [.invoke 0 (.put (entry 97 1)), .respond 0 .put,
    .invoke 1 (.delete (entry 97 0)), .respond 1 (.delete true),
    .invoke 2 (.put (entry 97 2)),
    .invoke 3 (.put (entry 98 9)), .respond 3 .put,
    .respond 2 .put,
    .invoke 4 (.get (entry 98 0)), .respond 4 (.get true (entry 98 2).calculateKeyHash)]

theorem recycledNode_read : ∃ s σ, KVState.start 1 (fun _ => none) = .ok s ∧
    run step (start s) readRecycled = .ok σ ∧ σ.history = readRecycledHistory ∧
    ¬ ∃ d₀ : Dict, (∀ ptr : KVMessage,
        s.store.readFromDb ptr.calculateKeyHash = .ok (dictGet d₀ ptr.calculateKeyHash)) ∧
      σ.Serializable d₀ := by
  obtain ⟨s, σ, hs, -, hrun, hcheck⟩ := exists_of_passes 1 readRecycled (fun _ _ => true)
    (fun σ => decide (σ.history = readRecycledHistory)) (by decide +kernel)
  have hhistory := of_decide_eq_true hcheck
  refine ⟨s, σ, hs, hrun, hhistory, ?_⟩
  rintro ⟨d₀, hread, l, d, hlin, -⟩
  rw [hhistory] at hlin
  -- the store did not have the second key
  have habsent : d₀ (entry 98 0).key = none := by
    have hcheck : returns (KVState.start 1 fun _ => none) (fun s =>
        returns (s.store.readFromDb (entry 98 0).calculateKeyHash) fun r => !r.1) = true := by
      decide +kernel
    obtain ⟨s', hs', hcheck⟩ := exists_of_returns hcheck
    obtain rfl := Except.ok.inj (hs.symm.trans hs')
    obtain ⟨r, hr, hfalse⟩ := exists_of_returns hcheck
    obtain rfl := Except.ok.inj ((hread (entry 98 0)).symm.trans hr)
    rw [dictGet_fst] at hfalse
    simpa using hfalse
  obtain ⟨op, hget⟩ := hlin.answered 4 (.get true (entry 98 2).calculateKeyHash)
    (by simp [readRecycledHistory])
  have hop : op = .get (entry 98 0) := by
    have hinvoked := hlin.invoked _ hget
    simpa [readRecycledHistory] using hinvoked
  subst hop
  rcases read_origin hlin.legal hget with hd | ⟨id, put, ret, hput, hkey, hvalue⟩
  · rw [habsent] at hd
    cases hd
  · have hnever : readRecycledHistory.all (fun e => match e with
        | .invoke _ (.put put) =>
          decide (¬ (put.key = (entry 98 0).key ∧ put.value = (entry 98 2).value))
        | _ => true) = true := by
      decide +kernel
    have hne := List.all_eq_true.1 hnever _ (hlin.invoked _ hput)
    exact of_decide_eq_true hne ⟨hkey, hvalue⟩

/-! ## Interrupts -/

/-- **No request that was answered is lost when the cache is cleaned**, whatever the number of
threads, as long as no step fails, or undoes what another thread has done or is about to do. -/
theorem threads_shutdown (hsize : 1 ≤ cacheSize) (hfiles : WellFormedFiles files) :
    ∃ (s : KVState) (d₀ : Dict), KVState.start cacheSize files = .ok s ∧
      (∀ ptr : KVMessage,
        s.store.readFromDb ptr.calculateKeyHash = .ok (dictGet d₀ ptr.calculateKeyHash)) ∧
      ∀ as σ, Meets step Undisturbed (start s) as → run step (start s) as = .ok σ →
        ∃ l d, Linearizes dictSpec d₀ σ.history l d ∧
          ∃ x k, (∀ fuel > k, σ.state.cacheClean fuel = x) ∧
            SucceedsUnlessFull x fun s' => ∀ ptr : KVMessage,
              (KVStore.initKvstore s'.store.files).readFromDb ptr.calculateKeyHash =
                .ok (dictGet d ptr.calculateKeyHash) := by
  obtain ⟨s, d₀, hs, hread, hruns⟩ := run_explains hsize hfiles
  refine ⟨s, d₀, hs, hread, ?_⟩
  intro as σ hun hrun
  obtain ⟨l, d, ⟨L, held, -, hrep⟩, pending, htracked, -⟩ := hruns as σ hun hrun
  obtain ⟨x, hx, hclean⟩ := KVState.cacheClean_leaves hrep
  exact ⟨l, d, htracked.inst.linearizes, x, L.linked.length, hx, hclean⟩

/-- Two threads have put different keys. -/
theorem threads_shutdown_putBoth : ∃ s d₀ σ, KVState.start 2 (fun _ => none) = .ok s ∧
    run step (start s) putBoth = .ok σ ∧
      ∃ l d, Linearizes dictSpec d₀ σ.history l d ∧
        ∃ x k, (∀ fuel > k, σ.state.cacheClean fuel = x) ∧
          SucceedsUnlessFull x fun s' => ∀ ptr : KVMessage,
            (KVStore.initKvstore s'.store.files).readFromDb ptr.calculateKeyHash =
              .ok (dictGet d ptr.calculateKeyHash) := by
  obtain ⟨s, σ, hs, hun, hrun, -⟩ := exists_of_passes 2 putBoth
    (fun σ a => σ.evictsNone a && (σ.linksFresh a && σ.loadsNone a)) (fun _ => true)
    (by decide +kernel)
  obtain ⟨s', d₀, hs', -, hshutdown⟩ := threads_shutdown one_le_two wellFormedFiles_none
  obtain rfl := Except.ok.inj (hs.symm.trans hs')
  refine ⟨s, d₀, σ, hs, hrun, hshutdown putBoth σ ?_ hrun⟩
  refine meets_of_checkRun (fun σ a h => ?_) hun
  rw [Bool.and_eq_true, Bool.and_eq_true] at h
  exact ⟨evictsSafely_of_evictsNone σ a h.1, insertsFresh_of_linksFresh σ a h.2.1,
    loadsCurrent_of_loadsNone σ a h.2.2⟩

end SharedCache

end KeyValueStore
