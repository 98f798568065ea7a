import KeyValueStore.ThreadSafety

/-!
# A thread that nobody interrupts

An operation is modelled twice: as a function of the cache and the store, and as the steps of a
thread. A thread that takes its steps without another one in between does what the function does,
from any state of the cache and wherever the other threads stand (`uninterrupted_call`): the answer,
the state it leaves and the fault are the same.

A step of a thread depends on where it stands, the cache and the store only (`runThread_uniform`).
So what a thread comes to is known in the middle of an operation, too, and each of its steps is one
on the way there (`Finishes.next`).
-/

namespace KeyValueStore

open Run Linearizability

/-- The thread is in the middle of an operation: past the search, and not back. -/
def Pc.begun : Pc → Bool
  | .idle | .search _ => false
  | .newEntry _ | .acquire _ | .evictStart _ | .evictTest _ _ _ | .evictHash _ _ | .evictLock _ _ _
  | .fill _ _ | .link _ _ _ | .upgrade _ _ | .deleteDb _ => true

namespace SharedCache

variable (σ : SharedCache) {t : Nat} {task : Task} {s : KVState}

/-! ## Steps of one thread -/

theorem goto_goto {pc pc' : Pc} {s' : KVState} :
    (σ.goto t pc s).goto t pc' s' = σ.goto t pc' s' := by
  simp only [goto, Function.update_idem]

theorem goto_finish {pc : Pc} {task' : Task} {ret : CacheAnswer} {s' : KVState} :
    (σ.goto t pc s).finish t task' ret s' = σ.finish t task' ret s' := by
  simp only [goto, finish, Function.update_idem]

theorem goto_at {pc : Pc} : (σ.goto t pc s).pc t = pc := Function.update_self ..

/-- The steps of thread `t` lead from `y` to `x`. Only what the function does not return from is
left out. -/
abbrev Leads (t : Nat) (y x : Except Fault SharedCache) : Prop :=
  LeadsTo step .endless (.run t) y x

/-- What `cache_PUT_new_entry` does with a node, and the return of the operation. -/
def entered (t : Nat) (task : Task) : Option NodePtr × KVState → Except Fault SharedCache
  | (none, _) => .error .nullPointer
  | (some p, s) =>
    let (q, c) := s.cache.fill task.ptr p
    .ok (σ.finish t task (linkAnswer task) { s with cache := c.link (hashTableIdx task.ptr) q p })

theorem leads_fill {p : NodePtr} :
    Leads t (.ok (σ.goto t (.fill task p) s)) (σ.entered t task (some p, s)) := by
  apply LeadsTo.next
  rw [step, runThread, goto_at]
  dsimp only
  rw [goto_goto]
  apply LeadsTo.next
  rw [step, runThread, goto_at]
  dsimp only
  rw [goto_finish]
  exact LeadsTo.refl

/-! ## The eviction -/

/-- The loop that looks for a queue with a head, with `k` of its iterations left. -/
theorem leads_evictTest {x : Except Fault SharedCache} {k i eqIdx : Nat}
    (hi : i + k = cacheTableLen)
    (h : match s.cache.nextNonEmptyQueue k eqIdx with
      | (none, _) => x = .error .nullPointer
      | (some e, c) => Leads t (.ok (σ.goto t (.evictHash task e) { s with cache := c })) x) :
    Leads t (.ok (σ.goto t (.evictTest task eqIdx i) s)) x := by
  induction k generalizing i eqIdx s with
  | zero =>
    apply LeadsTo.next
    rw [step, runThread, goto_at]
    dsimp only
    rw [runEvictTest, goto_state]
    rw [KVCache.nextNonEmptyQueue] at h
    split_ifs at h ⊢
    · omega
    · rw [h]
      exact LeadsTo.refl
    · rwa [goto_goto]
  | succ k ih =>
    apply LeadsTo.next
    rw [step, runThread, goto_at]
    dsimp only
    rw [runEvictTest, goto_state]
    rw [KVCache.nextNonEmptyQueue] at h
    split_ifs at h ⊢ with hhead hlt
    · dsimp only
      rw [goto_goto]
      exact ih (by omega) h
    · omega
    · rwa [goto_goto]

/-- **The eviction**, however often it starts over. -/
theorem leads_evictStart (k : Nat) : Leads t (.ok (σ.goto t (.evictStart task) s))
    ((s.cacheEvictionFrom k).bind (σ.entered t task)) := by
  -- `k` bounds the attempts; one takes four kinds of steps, and a failed one starts over
  induction k generalizing s with
  | zero => exact Or.inl rfl
  | succ k ih =>
    apply LeadsTo.next
    rw [step, runThread, goto_at]
    dsimp only
    rw [goto_goto, goto_state]
    apply σ.leads_evictTest (Nat.zero_add _)
    rw [KVState.cacheEvictionFrom]
    dsimp only
    cases hqueue : s.cache.getNextEvictionQueueIdx.2.nextNonEmptyQueue cacheTableLen
        s.cache.getNextEvictionQueueIdx.1 with
    | mk found c =>
    cases found with
    -- no queue has a node
    | none => rfl
    | some eqIdx =>
      dsimp only
      apply LeadsTo.next
      rw [step, runThread, goto_at]
      dsimp only
      rw [goto_state]
      cases hbucket : c.victimBucket eqIdx with
      | error e => exact LeadsTo.refl
      | ok hqIdx =>
        rw [ok_bind, ok_bind, goto_goto]
        apply LeadsTo.next
        rw [step, runThread, goto_at]
        dsimp only
        rw [goto_state]
        cases hlock : KVState.evictLocked { s with cache := c } eqIdx hqIdx with
        | error e => exact LeadsTo.refl
        | ok r =>
          obtain ⟨found, s'⟩ := r
          rw [ok_bind, ok_bind]
          cases found with
          | none =>
            dsimp only
            rw [goto_goto]
            exact ih
          | some p =>
            dsimp only
            rw [goto_goto]
            exact σ.leads_fill

/-! ## The operations -/

theorem leads_newEntry : Leads t (.ok (σ.goto t (.newEntry task) s))
    ((s.cachePUTNewEntry task.ptr (hashTableIdx task.ptr)).bind fun r =>
      .ok (σ.finish t task (linkAnswer task) r.2)) := by
  have hentered : ((s.cachePUTNewEntry task.ptr (hashTableIdx task.ptr)).bind fun r =>
      .ok (σ.finish t task (linkAnswer task) r.2)) = s.newInstance.bind (σ.entered t task) := by
    rw [KVState.cachePUTNewEntry]
    cases s.newInstance with
    | error e => rfl
    | ok r =>
      obtain ⟨found, s'⟩ := r
      cases found <;> rfl
  rw [hentered]
  apply LeadsTo.next
  rw [step, runThread, goto_at]
  dsimp only
  rw [goto_goto, goto_state, KVState.newInstance]
  split_ifs
  · exact σ.leads_evictStart _
  · apply LeadsTo.next
    rw [step, runThread, goto_at]
    dsimp only
    rw [goto_state]
    cases s.cache.acquireInstance with
    | error e => exact LeadsTo.refl
    | ok r =>
      obtain ⟨found, c⟩ := r
      cases found with
      | none => exact LeadsTo.refl
      | some p =>
        rw [ok_bind]
        dsimp only
        rw [goto_goto]
        exact σ.leads_fill

/-- **After the call** the thread does what is left of the function. -/
theorem leads_search (id : Nat) (op : Op) (ptr : KVMessage) :
    Leads t (.ok (σ.goto t (.search ⟨id, op, ptr.calculateKeyHash⟩) s))
      ((s.call (op.call ptr)).bind fun r =>
        .ok (σ.finish t ⟨id, op, ptr.calculateKeyHash⟩ r.1 r.2)) := by
  apply LeadsTo.next
  rw [step, runThread, goto_at]
  dsimp only
  rw [runSearch, goto_state]
  cases op with
  | get =>
    dsimp only [Op.call]
    rw [KVState.call, KVState.cacheGET, KVState.cacheGETPtr]
    cases s.getSearch ptr.calculateKeyHash with
    | error e => exact LeadsTo.refl
    | ok r =>
      obtain ⟨found, s'⟩ := r
      simp only [ok_bind]
      cases found with
      | done res ptr' =>
        dsimp only
        rw [goto_finish]
        exact LeadsTo.refl
      | load ptr' =>
        dsimp only
        rw [goto_goto]
        have hnew : Leads t (.ok (σ.goto t (.newEntry ⟨id, .get, ptr'⟩) s')) _ :=
          σ.leads_newEntry
        cases hput : s'.cachePUTNewEntry ptr' (hashTableIdx ptr') <;> rw [hput] at hnew <;>
          exact hnew
  | put =>
    dsimp only [Op.call]
    rw [KVState.call, KVState.cachePUT]
    cases s.cache.findEntry ptr.calculateKeyHash with
    | error e => exact LeadsTo.refl
    | ok found =>
      simp only [ok_bind]
      cases found with
      | some p =>
        dsimp only
        rw [goto_goto]
        apply LeadsTo.next
        rw [step, runThread, goto_at]
        dsimp only
        rw [runUpgrade, goto_state]
        cases s.upgradePut ptr.calculateKeyHash p with
        | error e => exact LeadsTo.refl
        | ok s' =>
          simp only [ok_bind]
          rw [goto_finish]
          exact LeadsTo.refl
      | none =>
        dsimp only
        rw [goto_goto]
        have hnew : Leads t (.ok (σ.goto t (.newEntry ⟨id, .put, ptr.calculateKeyHash⟩) s)) _ :=
          σ.leads_newEntry
        cases hput : s.cachePUTNewEntry ptr.calculateKeyHash (hashTableIdx ptr.calculateKeyHash) <;>
          rw [hput] at hnew <;> exact hnew
  -- one step for each lock that `cache_DELETE` takes, and one for the store
  | delete =>
    dsimp only [Op.call]
    rw [KVState.call, KVState.cacheDELETE]
    cases s.deleteSearch ptr.calculateKeyHash with
    | error e => exact LeadsTo.refl
    | ok r =>
      obtain ⟨found, s'⟩ := r
      simp only [ok_bind]
      cases found with
      | done res =>
        dsimp only
        rw [goto_finish]
        exact LeadsTo.refl
      | upgrade p =>
        dsimp only
        rw [goto_goto]
        apply LeadsTo.next
        rw [step, runThread, goto_at]
        dsimp only
        rw [runUpgrade, goto_state]
        cases s'.upgradeDelete p with
        | error e => exact LeadsTo.refl
        | ok r =>
          obtain ⟨res, s₁⟩ := r
          simp only [ok_bind]
          cases res with
          | some res =>
            dsimp only
            rw [goto_finish]
            exact LeadsTo.refl
          | none =>
            dsimp only
            rw [goto_goto]
            apply LeadsTo.next
            rw [step, runThread, goto_at]
            dsimp only
            rw [goto_state]
            cases s₁.store.deleteFromDb ptr.calculateKeyHash with
            | error e => exact LeadsTo.refl
            | ok r =>
              simp only [ok_bind]
              rw [goto_finish]
              exact LeadsTo.refl

/-! ## A step of a thread, by its own state -/

/-- What a step comes to: the thread goes on, or it returns. -/
inductive ThreadMove
  | goes (pc : Pc) (hbegun : pc.begun = true) (s : KVState)
  | returns (task : Task) (ret : CacheAnswer) (s : KVState)

/-- The step of thread `t`. -/
def ThreadMove.apply (t : Nat) : ThreadMove → SharedCache
  | .goes pc _ s => σ.goto t pc s
  | .returns task ret s => σ.finish t task ret s

/-- The computation is a step that depends on nothing but what it is given. -/
def Uniform (F : SharedCache → Nat → Except Fault SharedCache) : Prop :=
  ∃ x : Except Fault ThreadMove, ∀ σ t, F σ t = x.map (ThreadMove.apply σ t)

theorem uniform_goto {pc : Pc} (hbegun : pc.begun = true) (s : KVState) :
    Uniform fun σ t => .ok (σ.goto t pc s) := ⟨.ok (.goes pc hbegun s), fun _ _ => rfl⟩

theorem uniform_finish (task : Task) (ret : CacheAnswer) (s : KVState) :
    Uniform fun σ t => .ok (σ.finish t task ret s) := ⟨.ok (.returns task ret s), fun _ _ => rfl⟩

theorem uniform_error (e : Fault) : Uniform fun _ _ => .error e := ⟨.error e, fun _ _ => rfl⟩

theorem Uniform.bind {α : Type} (m : Except Fault α)
    {F : α → SharedCache → Nat → Except Fault SharedCache} (h : ∀ r, Uniform (F r)) :
    Uniform fun σ t => m >>= fun r => F r σ t := by
  cases m with
  | error e => exact uniform_error e
  | ok r => exact h r

theorem runSearch_uniform (s : KVState) (task : Task) :
    Uniform fun σ t => (σ.goto t (.search task) s).runSearch t task := by
  simp only [runSearch, goto_state, goto_goto, goto_finish]
  cases task.op with
  | get =>
    refine Uniform.bind _ fun r => ?_
    obtain ⟨found, s'⟩ := r
    cases found with
    | done res ptr => exact uniform_finish _ _ _
    | load ptr => exact uniform_goto rfl _
  | put =>
    refine Uniform.bind _ fun found => ?_
    cases found with
    | some p => exact uniform_goto rfl _
    | none => exact uniform_goto rfl _
  | delete =>
    refine Uniform.bind _ fun r => ?_
    obtain ⟨found, s'⟩ := r
    cases found with
    | done res => exact uniform_finish _ _ _
    | upgrade p => exact uniform_goto rfl _

theorem runUpgrade_uniform (s : KVState) (task : Task) (p : NodePtr) :
    Uniform fun σ t => (σ.goto t (.upgrade task p) s).runUpgrade t task p := by
  simp only [runUpgrade, goto_state, goto_goto, goto_finish]
  cases task.op with
  | delete =>
    refine Uniform.bind _ fun r => ?_
    obtain ⟨res, s'⟩ := r
    cases res with
    | some res => exact uniform_finish _ _ _
    | none => exact uniform_goto rfl _
  | get => exact Uniform.bind _ fun s' => uniform_finish _ _ _
  | put => exact Uniform.bind _ fun s' => uniform_finish _ _ _

/-- **A step of a thread depends on where it stands, the cache and the store only.** -/
theorem runThread_uniform (s : KVState) {pc : Pc} (hpc : pc ≠ .idle) :
    Uniform fun σ t => (σ.goto t pc s).runThread t := by
  simp only [runThread, goto_at]
  cases pc with
  | idle => exact absurd rfl hpc
  | search task => exact runSearch_uniform s task
  | newEntry task =>
    simp only [goto_state, goto_goto]
    have hbegun : (if s.cache.isFull then Pc.evictStart task else .acquire task).begun = true := by
      split_ifs <;> rfl
    exact uniform_goto hbegun s
  | acquire task =>
    simp only [goto_state, goto_goto]
    refine Uniform.bind _ fun r => ?_
    obtain ⟨found, c⟩ := r
    cases found with
    | none => exact uniform_error _
    | some p => exact uniform_goto rfl _
  | evictStart task =>
    simp only [goto_state, goto_goto]
    exact uniform_goto rfl _
  | evictTest task eqIdx i =>
    simp only [runEvictTest, goto_state, goto_goto]
    split_ifs
    · exact uniform_goto rfl _
    · exact uniform_error _
    · exact uniform_goto rfl _
  | evictHash task eqIdx =>
    simp only [goto_state, goto_goto]
    exact Uniform.bind _ fun i => uniform_goto rfl _
  | evictLock task eqIdx hqIdx =>
    simp only [goto_state, goto_goto]
    refine Uniform.bind _ fun r => ?_
    obtain ⟨found, s'⟩ := r
    cases found with
    | none => exact uniform_goto rfl _
    | some p => exact uniform_goto rfl _
  | fill task p =>
    simp only [goto_state, goto_goto]
    exact uniform_goto rfl _
  | link task q p =>
    simp only [goto_state, goto_finish]
    exact uniform_finish _ _ _
  | upgrade task p => exact runUpgrade_uniform s task p
  | deleteDb task =>
    simp only [goto_state, goto_finish]
    exact Uniform.bind _ fun r => uniform_finish _ _ _

/-! ## What is left of an operation -/

/-- A thread that stands here with this cache and store comes to this result, if nobody interrupts
it. -/
def Finishes (pc : Pc) (s : KVState) (task : Task) (result : Except Fault (CacheAnswer × KVState)) :
    Prop :=
  ∀ (σ : SharedCache) (t : Nat), Leads t (.ok (σ.goto t pc s))
    (result.bind fun r => .ok (σ.finish t task r.1 r.2))

theorem run_idle (hidle : σ.pc t = .idle) (k : Nat) :
    run step σ (List.replicate k (.run t)) = .ok σ := by
  induction k with
  | zero => rfl
  | succ k ih =>
    have hstep : step σ (.run t) = .ok σ := by rw [step, runThread, hidle]
    rw [List.replicate_succ, run, hstep]
    exact ih

/-- What a thread comes to, it comes to after its next step. -/
theorem Finishes.run_succ {pc : Pc} {result : Except Fault (CacheAnswer × KVState)}
    (h : Finishes pc s task result) (hend : result ≠ .error .endless) (hpc : pc ≠ .idle) :
    ∃ k, ((σ.goto t pc s).runThread t).bind (fun σ' => run step σ' (List.replicate k (.run t))) =
      result.bind fun r => .ok (σ.finish t task r.1 r.2) := by
  rcases h σ t with hendless | ⟨k, hrun⟩
  · cases result with
    | error e => exact absurd (congrArg Except.error (Except.error.inj hendless)) hend
    | ok r => cases hendless
  · cases k with
    | zero =>
      cases result with
      | error e => cases hrun
      | ok r =>
        have hsame := congrFun (congrArg SharedCache.pc (Except.ok.inj hrun)) t
        rw [goto_at, finish_pc, Function.update_self] at hsame
        exact absurd hsame hpc
    | succ k => exact ⟨k, hrun⟩

/-- **The next step on the way to the result** fails as the function does, or goes on, or returns
what the function does. -/
theorem Finishes.next {pc : Pc} {result : Except Fault (CacheAnswer × KVState)}
    (h : Finishes pc s task result) (hend : result ≠ .error .endless) (hpc : pc ≠ .idle) :
    (∃ e, result = .error e ∧ ∀ σ t, (goto σ t pc s).runThread t = .error e) ∨
    (∃ pc' s', pc'.begun = true ∧ Finishes pc' s' task result ∧
      ∀ σ t, (goto σ t pc s).runThread t = .ok (σ.goto t pc' s')) ∨
    ∃ r, result = .ok r ∧ ∀ σ t, (goto σ t pc s).runThread t = .ok (σ.finish t task r.1 r.2) := by
  obtain ⟨x, hx⟩ := runThread_uniform s hpc
  have hsucc := fun σ t => h.run_succ σ (t := t) hend hpc
  simp only [hx] at hsucc
  cases x with
  | error e =>
    obtain ⟨k, hk⟩ := hsucc (start s) 0
    cases result with
    | ok r => cases hk
    | error e' =>
      obtain rfl := Except.error.inj hk
      exact Or.inl ⟨e, rfl, fun σ t => hx σ t⟩
  | ok move =>
    cases move with
    | goes pc' hbegun s' =>
      refine Or.inr (Or.inl ⟨pc', s', hbegun, fun σ t => ?_, fun σ t => hx σ t⟩)
      obtain ⟨k, hk⟩ := hsucc σ t
      exact Or.inr ⟨k, hk⟩
    | returns task' ret s' =>
      have hfinish : ∀ σ t, result.bind (fun r => .ok (finish σ t task r.1 r.2)) =
          .ok (σ.finish t task' ret s') := by
        intro σ t
        obtain ⟨k, hk⟩ := hsucc σ t
        rw [← hk]
        have hidle : (σ.finish t task' ret s').pc t = .idle := by
          rw [finish_pc, Function.update_self]
        exact run_idle _ hidle k
      cases result with
      | error e => cases hfinish (start s) 0
      | ok r => exact Or.inr (Or.inr ⟨r, rfl, fun σ t => (hx σ t).trans (hfinish σ t).symm⟩)

/-! ## A whole operation -/

/-- The operation was called, and returned this answer in this state. The threads are where they
were. -/
def returned (call : CacheCall) (r : CacheAnswer × KVState) : SharedCache :=
  { σ with
    state := r.2
    history := σ.history ++ [.invoke σ.nextId call, .respond σ.nextId r.1]
    nextId := σ.nextId + 1 }

/-- **A thread that nobody interrupts does what the function does**, from any state of the cache and
wherever the other threads stand. The exception is a call that the function does not return from. -/
theorem uninterrupted_call (hidle : σ.pc t = .idle) (op : Op) (ptr : KVMessage) :
    σ.state.call (op.call ptr) = .error .endless ∨ ∃ k, run step σ (does t op ptr k) =
      (σ.state.call (op.call ptr)).map (σ.returned (op.call ptr)) := by
  have hleads := leads_search { σ with
      history := σ.history ++ [Event.invoke σ.nextId (op.call ptr)]
      nextId := σ.nextId + 1 } (t := t) (s := σ.state) σ.nextId op ptr
  have hinvoke : step σ (.invoke t op ptr) = .ok (goto { σ with
      history := σ.history ++ [Event.invoke σ.nextId (op.call ptr)]
      nextId := σ.nextId + 1 } t (.search ⟨σ.nextId, op, ptr.calculateKeyHash⟩) σ.state) := by
    rw [step, invoke, hidle]
    rfl
  rcases hleads with hendless | ⟨k, hrun⟩
  · left
    cases hcall : σ.state.call (op.call ptr) with
    | error e =>
      rw [hcall] at hendless
      exact congrArg Except.error (Except.error.inj hendless)
    | ok r => rw [hcall] at hendless; cases hendless
  · refine Or.inr ⟨k, ?_⟩
    rw [does, run, hinvoke]
    apply hrun.trans
    cases σ.state.call (op.call ptr) with
    | error e => rfl
    | ok r =>
      have hpc : Function.update σ.pc t .idle = σ.pc := by rw [← hidle, Function.update_eq_self]
      simp only [Except.bind, Except.map, finish, returned, hpc, List.append_assoc,
        List.singleton_append]

/-- The thread is between two operations. -/
def idles (t : Nat) : Bool :=
  match σ.pc t with
  | .idle => true
  | _ => false

theorem idles_iff : σ.idles t = true ↔ σ.pc t = .idle := by
  rw [idles]
  cases σ.pc t with
  | idle => exact iff_of_true rfl rfl
  | _ => exact iff_of_false Bool.false_ne_true nofun

/-- Thread 1 puts a key while thread 0 is between its search and its insertion. -/
theorem uninterrupted_call_put : ∃ s σ, KVState.start 1 (fun _ => none) = .ok s ∧
    run step (start s) (does 0 .put (entry 97 1) 2) = .ok σ ∧ σ.pc 0 ≠ .idle ∧
    ∃ k r, σ.state.call (.put (entry 98 2)) = .ok r ∧
      run step σ (does 1 .put (entry 98 2) k) = .ok (σ.returned (.put (entry 98 2)) r) := by
  obtain ⟨s, σ, hs, -, hrun, hcheck⟩ := exists_of_passes 1 (does 0 .put (entry 97 1) 2)
    (fun _ _ => true) (fun σ => σ.idles 1 && (!σ.idles 0 &&
      returns (σ.state.call (.put (entry 98 2))) fun _ => true)) (by decide +kernel)
  rw [Bool.and_eq_true, Bool.and_eq_true, Bool.not_eq_true', ← Bool.not_eq_true, idles_iff,
    idles_iff] at hcheck
  obtain ⟨hone, hzero, hreturns⟩ := hcheck
  obtain ⟨r, hr, -⟩ := exists_of_returns hreturns
  refine ⟨s, σ, hs, hrun, hzero, ?_⟩
  rcases σ.uninterrupted_call hone .put (entry 98 2) with hendless | ⟨k, hk⟩
  · rw [Op.call, hr] at hendless
    cases hendless
  · rw [Op.call, hr] at hk
    exact ⟨k, r, hr, hk⟩

end SharedCache

end KeyValueStore
