import KeyValueStore.Dispatcher

/-!
# Where an accepted client ends up

What holds of the main thread and its workers after any sequence of accepts, take-overs and
disconnects, and what depends on the steps.

* `Inv` — each open connection is held by one worker, and `client_fds_count` is the number of
  descriptors in the epoll set. This is kept by every step.
* `held_of_run` — the worker that holds a connection runs, as long as the pool never grows by more
  than one worker: a growth starts only its first worker, and the round robin offers clients to all.
* `withinLimit_iff` — the number of clients of a worker stays within the limit as long as the worker
  that the round robin comes to has room for the clients that wait for it as well.
-/

namespace KeyValueStore

open Run WorkerThreadInfo

namespace WorkerThreadInfo

variable {config : ServerConfig} {w : WorkerThreadInfo} {fd id : Nat}

/-! ## One worker -/

@[simp] theorem clients_new : (new id).clients = [] := rfl

@[simp] theorem clients_pushNew : (w.pushNew fd).clients = w.clients ++ [fd] := by
  simp [clients, pushNew]

@[simp] theorem clients_startThread : w.startThread.clients = w.clients := rfl

theorem foldl_addClient (fds : List Nat) : fds.foldl addClient w =
    { w with
      registered := w.registered ++ fds
      clientFdsCount := w.clientFdsCount + fds.length } := by
  induction fds generalizing w with
  | nil => simp
  | cons fd fds ih =>
    rw [List.foldl_cons, ih]
    simp only [addClient, List.append_assoc, List.singleton_append, List.length_cons]
    congr 1
    omega

theorem takeNewClients_eq : w.takeNewClients =
    { w with
      registered := w.clients
      clientFdsCount := w.clientFdsCount + w.clientFdsNew.length
      clientFdsNew := [] } := by
  rw [takeNewClients, foldl_addClient]
  rfl

@[simp] theorem clients_takeNewClients : w.takeNewClients.clients = w.clients := by
  rw [takeNewClients_eq]
  simp [clients]

theorem clients_closeClient (h : fd ∈ w.registered) :
    (w.closeClient fd).clients = w.clients.erase fd := by
  unfold clients closeClient
  rw [List.erase_append_left _ h]

/-- `client_fds_count` counts the epoll set, which only a running worker fills. -/
structure Counted (w : WorkerThreadInfo) : Prop where
  count : w.clientFdsCount = w.registered.length
  idle : w.started = false → w.registered = []

theorem Counted.new : Counted (WorkerThreadInfo.new id) := ⟨rfl, fun _ => rfl⟩

theorem Counted.startThread (h : Counted w) : Counted w.startThread := ⟨h.count, nofun⟩

theorem Counted.pushNew (h : Counted w) : Counted (w.pushNew fd) := ⟨h.count, h.idle⟩

theorem Counted.takeNewClients (h : Counted w) (hstarted : w.started = true) :
    Counted w.takeNewClients := by
  rw [takeNewClients_eq]
  constructor
  · simp [clients, h.count]
  · intro hw
    rw [hstarted] at hw
    cases hw

theorem Counted.closeClient (h : Counted w) (hfd : fd ∈ w.registered) :
    Counted (w.closeClient fd) := by
  constructor
  · have hpos := List.length_pos_of_mem hfd
    simp only [WorkerThreadInfo.closeClient, h.count, List.length_erase_of_mem hfd]
    omega
  · intro hw
    rw [h.idle hw] at hfd
    cases hfd

/-- With the clients that wait, the worker has `count + waiting` of them. -/
theorem Counted.length_clients (h : Counted w) :
    (w.clients.length : Int) = w.clientFdsCount + w.clientFdsNew.length := by
  simp [clients, h.count]

theorem hasRoom_iff : w.hasRoom config = true ↔ w.clientFdsCount < config.clientsPerThread := by
  simp [hasRoom]

end WorkerThreadInfo

namespace ServerState

variable {config : ServerConfig} {s s' : ServerState} {a : ServerStep} {as : List ServerStep}
  {pool : List WorkerThreadInfo} {w : WorkerThreadInfo} {fd i : Nat}

/-! ## The round robin -/

/-- The worker that the round robin offers a client to after `k` others. -/
def offered (pool : List WorkerThreadInfo) (listIter k : Nat) : Option WorkerThreadInfo :=
  pool[(listIter + k) % pool.length]?

/-- The first worker with room, from the iterator on and round the list. -/
def Next (config : ServerConfig) (s : ServerState) (w : WorkerThreadInfo) : Prop :=
  ∃ k < s.threadPool.length, offered s.threadPool s.listIter k = some w ∧
    w.hasRoom config = true ∧
    ∀ j < k, ∀ v, offered s.threadPool s.listIter j = some v → v.hasRoom config = false

/-- The position of a turn is counted round the list. -/
theorem wrapped_eq {n listIter : Nat} (hiter : listIter ≤ n) :
    (if listIter = n then 0 else listIter) = listIter % n := by
  split_ifs with h
  · rw [h, Nat.mod_self]
  · rw [Nat.mod_eq_of_lt (by omega)]

/-- The loop skips the workers without room. -/
theorem offer_spec (config : ServerConfig) (pool : List WorkerThreadInfo) (turns listIter : Nat)
    (hiter : listIter ≤ pool.length) (hturns : turns ≤ pool.length) :
    match offer config pool turns listIter with
    | some i => ∃ k < turns, i = (listIter + k) % pool.length ∧
        (∃ w, offered pool listIter k = some w ∧ w.hasRoom config = true) ∧
        ∀ j < k, ∀ v, offered pool listIter j = some v → v.hasRoom config = false
    | none => ∀ j < turns, ∀ v, offered pool listIter j = some v → v.hasRoom config = false := by
  induction turns generalizing listIter with
  | zero => simp [offer]
  | succ turns ih =>
    have hpos : 0 < pool.length := by omega
    have hwrap := wrapped_eq hiter
    obtain ⟨w, hw⟩ : ∃ w, pool[listIter % pool.length]? = some w :=
      ⟨_, List.getElem?_eq_getElem (Nat.mod_lt _ hpos)⟩
    -- the next turn offers the worker one place further on
    have hshift : ∀ j,
        offered pool (listIter % pool.length + 1) j = offered pool listIter (j + 1) := by
      intro j
      have hmod : (listIter % pool.length + 1 + j) % pool.length =
          (listIter + (j + 1)) % pool.length := by
        rw [Nat.add_assoc, Nat.mod_add_mod, Nat.add_comm 1 j]
      rw [offered, offered, hmod]
    have hskip : w.hasRoom config = false → ∀ k,
        (∀ j < k, ∀ v, offered pool (listIter % pool.length + 1) j = some v →
          v.hasRoom config = false) →
        ∀ j < k + 1, ∀ v, offered pool listIter j = some v → v.hasRoom config = false := by
      intro hroom k hk j hj v hv
      cases j with
      | zero =>
        rw [offered, Nat.add_zero, hw] at hv
        exact Option.some.inj hv ▸ hroom
      | succ j => exact hk j (by omega) v (hshift j ▸ hv)
    rw [offer, hwrap, hw]
    dsimp only
    cases hroom : w.hasRoom config with
    | true => exact ⟨0, by omega, rfl, ⟨w, hw, hroom⟩, by omega⟩
    | false =>
      have hrest := ih (listIter % pool.length + 1) (Nat.mod_lt _ hpos) (by omega)
      rw [if_neg Bool.false_ne_true]
      cases hoffer : offer config pool turns (listIter % pool.length + 1) with
      | none =>
        rw [hoffer] at hrest
        exact hskip hroom turns hrest
      | some i =>
        rw [hoffer] at hrest
        obtain ⟨k, hk, hi, ⟨v, hv, hvroom⟩, hbefore⟩ := hrest
        refine ⟨k + 1, by omega, ?_, ⟨v, hshift k ▸ hv, hvroom⟩, hskip hroom k hbefore⟩
        rw [hi, Nat.add_assoc, Nat.mod_add_mod, Nat.add_comm 1 k]

theorem offer_eq_none (hiter : s.listIter ≤ s.threadPool.length)
    (h : offer config s.threadPool s.threadPool.length s.listIter = none) :
    ∀ w ∈ s.threadPool, w.hasRoom config = false := by
  have hspec := offer_spec config s.threadPool s.threadPool.length s.listIter hiter (Nat.le_refl _)
  rw [h] at hspec
  intro w hw
  obtain ⟨i, hi, hwi⟩ := List.getElem_of_mem hw
  -- worker `i` comes after `i - listIter` others, counted round the list
  refine hspec ((i + (s.threadPool.length - s.listIter)) % s.threadPool.length)
    (Nat.mod_lt _ (by omega)) w ?_
  have hround : (s.listIter + (i + (s.threadPool.length - s.listIter)) % s.threadPool.length) %
      s.threadPool.length = i := by
    rw [Nat.add_mod_mod, show s.listIter + (i + (s.threadPool.length - s.listIter)) =
      i + s.threadPool.length by omega, Nat.add_mod_right, Nat.mod_eq_of_lt hi]
  rw [offered, hround, List.getElem?_eq_getElem hi, hwi]

theorem next_of_offer (hiter : s.listIter ≤ s.threadPool.length)
    (h : offer config s.threadPool s.threadPool.length s.listIter = some i) :
    ∃ w, s.threadPool[i]? = some w ∧ w.hasRoom config = true ∧
      ∀ v, s.Next config v ↔ v = w := by
  have hspec := offer_spec config s.threadPool s.threadPool.length s.listIter hiter (Nat.le_refl _)
  rw [h] at hspec
  obtain ⟨k, hk, hi, ⟨w, hw, hroom⟩, hbefore⟩ := hspec
  refine ⟨w, by rw [hi]; exact hw, hroom, fun v => ⟨?_, ?_⟩⟩
  · rintro ⟨k', -, hv, hvroom, hvbefore⟩
    rcases Nat.lt_trichotomy k k' with hlt | rfl | hlt
    · rw [hvbefore k hlt w hw] at hroom
      cases hroom
    · exact Option.some.inj (hv.symm.trans hw)
    · rw [hbefore k' hlt v hv] at hvroom
      cases hvroom
  · rintro rfl
    exact ⟨k, hk, hw, hroom, hbefore⟩

/-! ## What a step can do -/

/-- The first worker of a growth. -/
def firstGrown (s : ServerState) (fd : Nat) : WorkerThreadInfo :=
  ((new (s.threadPool.length + 1)).pushNew fd).startThread

theorem growRest_eq (pool : List WorkerThreadInfo) (n : Nat) :
    ∃ rest : List WorkerThreadInfo, growRest n pool = pool ++ rest ∧ rest.length = n ∧
      ∀ w ∈ rest, ∃ id, w = new id := by
  induction n generalizing pool with
  | zero => exact ⟨[], by simp [growRest]⟩
  | succ n ih =>
    obtain ⟨rest, hgrow, hlen, hnew⟩ := ih (emplaceBack pool)
    refine ⟨new (pool.length + 1) :: rest, ?_, by rw [List.length_cons, hlen], ?_⟩
    · rw [growRest, hgrow, emplaceBack, List.append_assoc, List.singleton_append]
    · rintro w (_ | ⟨_, hw⟩)
      · exact ⟨_, rfl⟩
      · exact hnew w hw

theorem split_of_getElem? (h : pool[i]? = some w) (f : WorkerThreadInfo → WorkerThreadInfo) :
    ∃ l r, pool = l ++ w :: r ∧ l.length = i ∧ pool.modify i f = l ++ f w :: r := by
  obtain ⟨hi, rfl⟩ := List.getElem?_eq_some_iff.1 h
  refine ⟨pool.take i, pool.drop (i + 1), ?_, by rw [List.length_take]; omega, ?_⟩
  · rw [← List.drop_eq_getElem_cons hi, List.take_append_drop]
  · rw [List.modify_eq_take_cons_drop hi]

inductive Effect (config : ServerConfig) (s : ServerState) : ServerStep → ServerState → Prop
  | given {fd : Nat} {l r : List WorkerThreadInfo} {w : WorkerThreadInfo}
      (hpool : s.threadPool = l ++ w :: r) (hfree : fd ∉ s.connections)
      (hroom : w.hasRoom config = true) (hnext : ∀ v, s.Next config v ↔ v = w) :
      Effect config s (.accept fd)
        ⟨l ++ w.pushNew fd :: r, l.length + 1, s.connections ++ [fd]⟩
  | grown {fd : Nat} {rest : List WorkerThreadInfo} (hfree : fd ∉ s.connections)
      (hfull : ∀ w ∈ s.threadPool, w.hasRoom config = false)
      (hrest : ∀ w ∈ rest, ∃ id, w = new id)
      (hlen : rest.length = (config.threadPoolGrowth - 1)) :
      Effect config s (.accept fd)
        ⟨s.threadPool ++ s.firstGrown fd :: rest, 0, s.connections ++ [fd]⟩
  | taken {i : Nat} {l r : List WorkerThreadInfo} {w : WorkerThreadInfo}
      (hpool : s.threadPool = l ++ w :: r) (hi : l.length = i) (hstarted : w.started = true) :
      Effect config s (.takeNew i) { s with threadPool := l ++ w.takeNewClients :: r }
  | closed {i fd : Nat} {l r : List WorkerThreadInfo} {w : WorkerThreadInfo}
      (hpool : s.threadPool = l ++ w :: r) (hi : l.length = i) (hstarted : w.started = true)
      (hfd : fd ∈ w.registered) :
      Effect config s (.disconnect i fd)
        { s with
          threadPool := l ++ w.closeClient fd :: r
          connections := s.connections.erase fd }

theorem effect_of_step (hiter : s.listIter ≤ s.threadPool.length) (h : step config s a = .ok s') :
    Effect config s a s' := by
  cases a with
  | accept fd =>
    rw [step] at h
    split_ifs at h with hfree
    obtain rfl := Except.ok.inj h
    rw [dispatch]
    cases hoffer : offer config s.threadPool s.threadPool.length s.listIter with
    -- a worker with room takes the client
    | some i =>
      obtain ⟨w, hw, hroom, hnext⟩ := next_of_offer hiter hoffer
      obtain ⟨l, r, hpool, rfl, hmodify⟩ := split_of_getElem? hw (·.pushNew fd)
      have heffect := Effect.given hpool hfree hroom hnext
      rw [← hmodify] at heffect
      exact heffect
    -- all are full: the pool grows, and the first new worker gets the client
    | none =>
      obtain ⟨rest, hgrow, hlen, hrest⟩ :=
        growRest_eq (s.threadPool ++ [s.firstGrown fd]) (config.threadPoolGrowth - 1)
      have heffect := Effect.grown hfree (offer_eq_none hiter hoffer) hrest hlen
      rw [← List.singleton_append, ← List.append_assoc, ← hgrow] at heffect
      exact heffect
  | takeNew i =>
    rw [step] at h
    split at h
    · rename_i w hw
      split_ifs at h with hstarted
      obtain rfl := Except.ok.inj h
      obtain ⟨l, r, hpool, hi, hmodify⟩ := split_of_getElem? hw (·.takeNewClients)
      rw [hmodify]
      exact .taken hpool hi hstarted
    · cases h
  | disconnect i fd =>
    rw [step] at h
    split at h
    · rename_i w hw
      split_ifs at h with hopen
      obtain rfl := Except.ok.inj h
      obtain ⟨l, r, hpool, hi, hmodify⟩ := split_of_getElem? hw (·.closeClient fd)
      rw [hmodify]
      exact .closed hpool hi hopen.1 hopen.2
    · cases h

/-! ## The invariant -/

/-- The workers hold the open connections between them, each one once. -/
structure Inv (s : ServerState) : Prop where
  iter : s.listIter ≤ s.threadPool.length
  held : (s.threadPool.flatMap clients).Perm s.connections
  nodup : s.connections.Nodup
  counted : ∀ w ∈ s.threadPool, w.Counted

theorem mem_startWorkers {n : Nat} (h : w ∈ startWorkers n) : ∃ id, w = (new id).startThread := by
  induction n with
  | zero => cases h
  | succ n ih =>
    rw [startWorkers, List.mem_append, List.mem_singleton] at h
    rcases h with h | h
    · exact ih h
    · exact ⟨_, h⟩

theorem flatMap_clients_new (h : ∀ w ∈ pool, ∃ id, w = new id) : pool.flatMap clients = [] := by
  rw [List.flatMap_eq_nil_iff]
  intro w hw
  obtain ⟨id, rfl⟩ := h w hw
  rfl

theorem inv_start : (start config).Inv where
  iter := Nat.zero_le _
  held := by
    have hnil : (start config).threadPool.flatMap clients = [] := by
      rw [List.flatMap_eq_nil_iff]
      intro w hw
      obtain ⟨id, rfl⟩ := mem_startWorkers hw
      rfl
    rw [hnil]
    exact List.Perm.nil
  nodup := List.nodup_nil
  counted := fun w hw => by
    obtain ⟨id, rfl⟩ := mem_startWorkers hw
    exact Counted.new.startThread

theorem nodup_append_singleton {fds : List Nat} (h : fds.Nodup) (hfree : fd ∉ fds) :
    (fds ++ [fd]).Nodup := by
  rw [List.nodup_append]
  refine ⟨h, List.nodup_singleton fd, ?_⟩
  intro x hx y hy heq
  rw [heq, List.mem_singleton.1 hy] at hx
  exact hfree hx

theorem forall_replace {P : WorkerThreadInfo → Prop} {l r : List WorkerThreadInfo}
    {v : WorkerThreadInfo} (hpool : pool = l ++ w :: r) (h : ∀ u ∈ pool, P u) (hv : P w → P v) :
    ∀ u ∈ l ++ v :: r, P u := by
  subst hpool
  simp only [List.forall_mem_append, List.forall_mem_cons] at h ⊢
  exact ⟨h.1, hv h.2.1, h.2.2⟩

/-- Only the worker that a step is about changes, and workers may be added. -/
theorem Inv.of_effect (h : s.Inv) (heffect : Effect config s a s') : s'.Inv := by
  have hcount := fun fd => h.held.count_eq fd
  cases heffect with
  | @given fd l r w hpool hfree hroom hnext =>
    rw [hpool] at hcount
    refine ⟨by simp, ?_, nodup_append_singleton h.nodup hfree, fun v hv => ?_⟩
    · refine List.perm_iff_count.2 fun x => ?_
      have hx := hcount x
      simp only [List.flatMap_append, List.flatMap_cons, List.count_append, clients_pushNew] at hx ⊢
      omega
    · exact forall_replace hpool h.counted (fun hw => hw.pushNew) v hv
  -- the other workers of a growth hold no client yet
  | @grown fd rest hfree hfull hrest hlen =>
    refine ⟨Nat.zero_le _, ?_, nodup_append_singleton h.nodup hfree, ?_⟩
    · refine List.perm_iff_count.2 fun x => ?_
      have hx := hcount x
      simp only [List.flatMap_append, List.flatMap_cons, List.count_append, firstGrown,
        clients_startThread, clients_pushNew, clients_new, flatMap_clients_new hrest,
        List.count_nil] at hx ⊢
      omega
    · intro v hv
      simp only [List.mem_append, List.mem_cons] at hv
      rcases hv with hv | rfl | hv
      · exact h.counted v hv
      · exact Counted.new.pushNew.startThread
      · obtain ⟨id, rfl⟩ := hrest v hv
        exact Counted.new
  | @taken i l r w hpool hi hstarted =>
    refine ⟨?_, ?_, h.nodup, ?_⟩
    · have hiter := h.iter
      rw [hpool] at hiter
      simpa using hiter
    · have hheld := h.held
      rw [hpool] at hheld
      simpa only [List.flatMap_append, List.flatMap_cons, clients_takeNewClients] using hheld
    · intro v hv
      exact forall_replace hpool h.counted (fun hw => hw.takeNewClients hstarted) v hv
  | @closed i fd l r w hpool hi hstarted hfd =>
    rw [hpool] at hcount
    refine ⟨?_, ?_, h.nodup.erase fd, ?_⟩
    · have hiter := h.iter
      rw [hpool] at hiter
      simpa using hiter
    · refine List.perm_iff_count.2 fun x => ?_
      have hx := hcount x
      have hmem : 0 < w.clients.count fd :=
        List.count_pos_iff.2 (List.mem_append_left _ hfd)
      simp only [List.flatMap_append, List.flatMap_cons, List.count_append, clients_closeClient hfd,
        List.count_erase] at hx ⊢
      split_ifs with heq
      · rw [beq_iff_eq] at heq
        subst heq
        omega
      · omega
    · intro v hv
      exact forall_replace hpool h.counted (fun hw => hw.closeClient hfd) v hv

theorem Inv.of_step (h : s.Inv) (hstep : step config s a = .ok s') : s'.Inv :=
  h.of_effect (effect_of_step h.iter hstep)

theorem inv_of_run (hrun : run (step config) (start config) as = .ok s) : s.Inv :=
  run_preserves (fun _ _ _ h => h.of_step) inv_start hrun

/-! ## Every client has a running worker -/

/-- Each connection that was accepted and is not closed is held by exactly one worker, which has
it once, and runs. -/
def HeldByRunning (s : ServerState) : Prop :=
  ∀ fd ∈ s.connections, ∃ i : Nat, ∃ w : WorkerThreadInfo, s.threadPool[i]? = some w ∧
    w.started = true ∧ w.clients.count fd = 1 ∧
    ∀ (j : Nat) (v : WorkerThreadInfo), s.threadPool[j]? = some v → fd ∈ v.clients → j = i

theorem Inv.clients_nodup (h : s.Inv) : (s.threadPool.flatMap clients).Nodup :=
  h.held.nodup_iff.2 h.nodup

theorem Inv.index_eq (h : s.Inv) {i j : Nat} {v : WorkerThreadInfo}
    (hi : s.threadPool[i]? = some w) (hj : s.threadPool[j]? = some v) (hw : fd ∈ w.clients)
    (hv : fd ∈ v.clients) : j = i := by
  have hpairs := (List.nodup_flatMap.1 h.clients_nodup).2
  rw [List.pairwise_iff_getElem] at hpairs
  obtain ⟨hilt, rfl⟩ := List.getElem?_eq_some_iff.1 hi
  obtain ⟨hjlt, rfl⟩ := List.getElem?_eq_some_iff.1 hj
  rcases Nat.lt_trichotomy i j with hlt | rfl | hlt
  · exact absurd hv (hpairs i j hilt hjlt hlt hw)
  · rfl
  · exact absurd hw (hpairs j i hjlt hilt hlt hv)

theorem Inv.heldByRunning_iff (h : s.Inv) :
    s.HeldByRunning ↔ ∀ w ∈ s.threadPool, w.started = false → w.clients = [] := by
  constructor
  · intro hheld w hw hstopped
    rw [List.eq_nil_iff_forall_not_mem]
    intro fd hfd
    obtain ⟨j, hj⟩ := List.mem_iff_getElem?.1 hw
    obtain ⟨i, v, hi, hstarted, -, honly⟩ :=
      hheld fd (h.held.mem_iff.1 (List.mem_flatMap.2 ⟨w, hw, hfd⟩))
    obtain rfl := honly j w hj hfd
    obtain rfl := Option.some.inj (hi.symm.trans hj)
    rw [hstarted] at hstopped
    cases hstopped
  · intro hidle fd hfd
    obtain ⟨w, hw, hwfd⟩ := List.mem_flatMap.1 (h.held.mem_iff.2 hfd)
    obtain ⟨i, hi⟩ := List.mem_iff_getElem?.1 hw
    refine ⟨i, w, hi, ?_, ?_, fun j v hj hv => h.index_eq hi hj hwfd hv⟩
    · cases hstarted : w.started with
      | true => rfl
      | false =>
        rw [hidle w hw hstarted] at hwfd
        cases hwfd
    · exact List.count_eq_one_of_mem ((List.nodup_flatMap.1 h.clients_nodup).1 w hw) hwfd

/-- The step adds one worker to the pool at most. -/
def GrowsByOne (config : ServerConfig) (s : ServerState) : ServerStep → Prop
  | .accept _ => config.threadPoolGrowth ≤ 1 ∨ ∃ w ∈ s.threadPool, w.hasRoom config = true
  | _ => True

/-- A pool that grows by one worker at a time has only workers that run. -/
theorem allStarted_of_effect (h : ∀ w ∈ s.threadPool, w.started = true)
    (hgrows : s.GrowsByOne config a) (heffect : Effect config s a s') :
    ∀ w ∈ s'.threadPool, w.started = true := by
  cases heffect with
  | given hpool hfree hroom hnext => exact forall_replace hpool h fun hw => hw
  | @grown fd rest hfree hfull hrest hlen =>
    have hnil : rest = [] := by
      rcases hgrows with hone | ⟨w, hw, hroom⟩
      · exact List.eq_nil_of_length_eq_zero (by omega)
      · rw [hfull w hw] at hroom
        cases hroom
    rw [hnil]
    simp only [List.forall_mem_append, List.forall_mem_cons]
    exact ⟨h, rfl, nofun⟩
  | taken hpool hi hstarted =>
    exact forall_replace hpool h fun hw => by rw [takeNewClients_eq]; exact hw
  | closed hpool hi hstarted hfd => exact forall_replace hpool h fun hw => hw

/-- **Every client has a running worker**, as long as the pool never grows by more than one
worker. -/
theorem held_of_run (hgrows : Meets (step config) (GrowsByOne config) (start config) as)
    (hrun : run (step config) (start config) as = .ok s) : s.HeldByRunning := by
  have hstart : ∀ w ∈ (start config).threadPool, w.started = true := by
    intro w hw
    obtain ⟨id, rfl⟩ := mem_startWorkers hw
    rfl
  obtain ⟨h, hall⟩ := run_invariant
    (I := fun s : ServerState => s.Inv ∧ ∀ w ∈ s.threadPool, w.started = true)
    (fun s a s' hI hC hstep => ⟨hI.1.of_step hstep,
      allStarted_of_effect hI.2 hC (effect_of_step hI.1.iter hstep)⟩)
    ⟨inv_start, hstart⟩ hgrows hrun
  rw [h.heldByRunning_iff]
  intro w hw hstopped
  rw [hall w hw] at hstopped
  cases hstopped

/-! ## A growth by two leaves a worker behind -/

theorem modify_length (l r : List WorkerThreadInfo) (f : WorkerThreadInfo → WorkerThreadInfo) :
    (l ++ w :: r).modify l.length f = l ++ f w :: r := by
  induction l with
  | nil => rfl
  | cons v l ih =>
    rw [List.cons_append, List.length_cons, List.modify_succ_cons, ih, List.cons_append]

theorem takeNew_eq {l r : List WorkerThreadInfo} (hpool : s.threadPool = l ++ w :: r)
    (hstarted : w.started = true) : step config s (.takeNew l.length) =
      .ok { s with threadPool := l ++ w.takeNewClients :: r } := by
  have hw : s.threadPool[l.length]? = some w := by rw [hpool]; simp
  rw [step, hw]
  dsimp only
  rw [if_pos hstarted, hpool, modify_length]

/-- `k` clients were accepted, and each was taken over before the next one came. The pool has not
grown yet, or has a worker that does not run, and then never grows again. -/
structure Filled (config : ServerConfig) (s : ServerState) (k : Nat) : Prop where
  inv : s.Inv
  connections : s.connections = List.range k
  taken : ∀ w ∈ s.threadPool, w.clientFdsNew = [] ∧ w.clientFdsCount ≤ config.clientsPerThread
  running : s.threadPool.countP started ≤ config.threadPoolSizeInitial + 1
  grown : s.threadPool.length = config.threadPoolSizeInitial ∨
    ∃ w ∈ s.threadPool, w.started = false

theorem mem_startWorkers_length (n : Nat) : (startWorkers n).length = n := by
  induction n with
  | zero => rfl
  | succ n ih => rw [startWorkers, List.length_append, ih, List.length_singleton]

theorem filled_start (hclients : 1 ≤ config.clientsPerThread) : Filled config (start config) 0 where
  inv := inv_start
  connections := rfl
  taken := fun w hw => by
    obtain ⟨id, rfl⟩ := mem_startWorkers hw
    exact ⟨rfl, show (0 : Int) ≤ _ by omega⟩
  running := by
    have hle := List.countP_le_length (p := started) (l := (start config).threadPool)
    rw [start, mem_startWorkers_length] at hle
    exact Nat.le_succ_of_le hle
  grown := Or.inl (mem_startWorkers_length _)

theorem taken_pushNew (hroom : w.hasRoom config = true) (hw : w.clientFdsNew = []) :
    (w.pushNew fd).takeNewClients.clientFdsNew = [] ∧
      (w.pushNew fd).takeNewClients.clientFdsCount ≤ config.clientsPerThread := by
  rw [hasRoom_iff] at hroom
  rw [takeNewClients_eq]
  refine ⟨rfl, ?_⟩
  simp only [pushNew, hw, List.nil_append, List.length_singleton]
  omega

theorem Filled.given {k i : Nat} {l r : List WorkerThreadInfo} (h : Filled config s k)
    (hpool : s.threadPool = l ++ w :: r) (hstarted : w.started = true)
    (hroom : w.hasRoom config = true)
    (hinv : Inv ⟨l ++ (w.pushNew k).takeNewClients :: r, i, s.connections ++ [k]⟩) :
    Filled config ⟨l ++ (w.pushNew k).takeNewClients :: r, i, s.connections ++ [k]⟩ (k + 1) := by
  refine ⟨hinv, ?_, ?_, ?_, ?_⟩
  · rw [h.connections, List.range_succ]
  · exact forall_replace hpool h.taken fun hw => taken_pushNew hroom hw.1
  · have hle := h.running
    rw [hpool] at hle
    simpa [takeNewClients_eq, pushNew, List.countP_cons, hstarted] using hle
  · have hgrown := h.grown
    rw [hpool] at hgrown
    refine hgrown.imp (fun hlen => by simpa using hlen) ?_
    rintro ⟨v, hv, hstopped⟩
    simp only [List.mem_append, List.mem_cons] at hv ⊢
    rcases hv with hv | rfl | hv
    · exact ⟨v, Or.inl hv, hstopped⟩
    · rw [hstarted] at hstopped
      cases hstopped
    · exact ⟨v, Or.inr (Or.inr hv), hstopped⟩

/-- The first of several new workers took the new client over. -/
theorem Filled.grow {k i : Nat} {rest : List WorkerThreadInfo} (h : Filled config s k)
    (hsize : s.threadPool.length = config.threadPoolSizeInitial)
    (hclients : 1 ≤ config.clientsPerThread) (hrest : ∀ v ∈ rest, ∃ id, v = new id)
    (hne : rest ≠ [])
    (hinv : Inv ⟨s.threadPool ++ (s.firstGrown k).takeNewClients :: rest, i,
      s.connections ++ [k]⟩) :
    Filled config ⟨s.threadPool ++ (s.firstGrown k).takeNewClients :: rest, i,
      s.connections ++ [k]⟩ (k + 1) := by
  refine ⟨hinv, ?_, ?_, ?_, ?_⟩
  · rw [h.connections, List.range_succ]
  · simp only [List.forall_mem_append, List.forall_mem_cons]
    refine ⟨h.taken, ?_, ?_⟩
    · rw [takeNewClients_eq]
      exact ⟨rfl, by simp [firstGrown, new, pushNew, startThread]; omega⟩
    · intro v hv
      obtain ⟨id, rfl⟩ := hrest v hv
      exact ⟨rfl, show (0 : Int) ≤ _ by omega⟩
  · have hle := List.countP_le_length (p := started) (l := s.threadPool)
    have hzero : rest.countP started = 0 := by
      rw [List.countP_eq_zero]
      intro v hv
      obtain ⟨id, rfl⟩ := hrest v hv
      exact Bool.false_ne_true
    rw [List.countP_append, List.countP_cons, hzero]
    split_ifs <;> omega
  · obtain ⟨v, hv⟩ := List.exists_mem_of_ne_nil rest hne
    obtain ⟨id, hid⟩ := hrest v hv
    exact Or.inr ⟨v, by simp [hv], by rw [hid]; rfl⟩

/-- If all clients get a running worker, another one can be accepted and taken over. -/
theorem Filled.succ {k : Nat} (h : Filled config s k) (hgrowth : 2 ≤ config.threadPoolGrowth)
    (hclients : 1 ≤ config.clientsPerThread)
    (hheld : ∀ as s', run (step config) s as = .ok s' → s'.HeldByRunning) :
    ∃ as s', run (step config) s as = .ok s' ∧ Filled config s' (k + 1) := by
  have hfree : k ∉ s.connections := by simp [h.connections]
  obtain ⟨t, hstep⟩ : ∃ t, step config s (.accept k) = .ok t :=
    ⟨{ dispatch config s k with connections := s.connections ++ [k] }, by rw [step, if_neg hfree]⟩
  have heffect := effect_of_step h.inv.iter hstep
  have hinv := h.inv.of_effect heffect
  have hrun₁ : run (step config) s [.accept k] = .ok t := by rw [run, hstep]; rfl
  have hrunning := hinv.heldByRunning_iff.1 (hheld _ _ hrun₁)
  cases heffect with
  | @given _ l r w hpool _ hroom hnext =>
    have hstarted : w.started = true := by
      cases hw : w.started with
      | true => rfl
      | false => simpa using hrunning (w.pushNew k) (by simp) hw
    have htake : step config _ (.takeNew l.length) = _ := takeNew_eq
      (show (⟨l ++ w.pushNew k :: r, l.length + 1, s.connections ++ [k]⟩ : ServerState).threadPool =
        _ from rfl) hstarted
    have hrun := run_append [.takeNew l.length] hrun₁
    exact ⟨_, _, hrun.trans (by rw [run, htake]; rfl),
      h.given hpool hstarted hroom (hinv.of_step htake)⟩
  | @grown _ rest _ hfull hrest hlen =>
    -- a worker that does not run has room, so this is the first growth
    have hsize : s.threadPool.length = config.threadPoolSizeInitial := by
      apply h.grown.resolve_right
      rintro ⟨v, hv, hstopped⟩
      have hcounted := h.inv.counted v hv
      have hroom : v.hasRoom config = true := by
        rw [hasRoom_iff, hcounted.count, hcounted.idle hstopped]
        simp only [List.length_nil]
        omega
      rw [hfull v hv] at hroom
      cases hroom
    have hne : rest ≠ [] := List.ne_nil_of_length_pos (by omega)
    have hstarted : (s.firstGrown k).started = true := rfl
    have htake : step config _ (.takeNew s.threadPool.length) = _ := takeNew_eq
      (show (⟨s.threadPool ++ s.firstGrown k :: rest, 0, s.connections ++ [k]⟩ :
        ServerState).threadPool = _ from rfl) hstarted
    have hrun := run_append [.takeNew s.threadPool.length] hrun₁
    exact ⟨_, _, hrun.trans (by rw [run, htake]; rfl),
      h.grow hsize hclients hrest hne (hinv.of_step htake)⟩

/-- The workers that run hold all clients, each at most `n` of them. -/
theorem length_clients_le {n : Nat} (hlimit : ∀ w ∈ pool, w.clients.length ≤ n)
    (hidle : ∀ w ∈ pool, w.started = false → w.clients = []) :
    (pool.flatMap clients).length ≤ pool.countP started * n := by
  induction pool with
  | nil => simp
  | cons w pool ih =>
    simp only [List.forall_mem_cons] at hlimit hidle
    have hrest := ih hlimit.2 hidle.2
    rw [List.flatMap_cons, List.length_append, List.countP_cons]
    cases hw : w.started with
    | true =>
      rw [if_pos rfl, Nat.add_mul, Nat.one_mul]
      have hone := hlimit.1
      omega
    | false =>
      rw [hidle.1 hw, if_neg Bool.false_ne_true]
      simpa using hrest

/-- Where the pool grows by two workers or more, some client gets no running worker. -/
theorem exists_not_held (hgrowth : 2 ≤ config.threadPoolGrowth)
    (hclients : 1 ≤ config.clientsPerThread) :
    ∃ as s, run (step config) (start config) as = .ok s ∧ ¬ s.HeldByRunning := by
  by_contra hnone
  have hheld : ∀ as s, run (step config) (start config) as = .ok s → s.HeldByRunning :=
    fun as s hrun => by_contra fun h => hnone ⟨as, s, hrun, h⟩
  have hfill : ∀ k, ∃ as s, run (step config) (start config) as = .ok s ∧ Filled config s k := by
    intro k
    induction k with
    | zero => exact ⟨[], _, rfl, filled_start hclients⟩
    | succ k ih =>
      obtain ⟨as, s, hrun, hs⟩ := ih
      obtain ⟨bs, s', hrun', hs'⟩ := hs.succ hgrowth hclients fun bs s' h =>
        hheld (as ++ bs) s' ((run_append bs hrun).trans h)
      exact ⟨as ++ bs, s', (run_append bs hrun).trans hrun', hs'⟩
  obtain ⟨as, s, hrun, hs⟩ :=
    hfill ((config.threadPoolSizeInitial + 1) * config.clientsPerThread + 1)
  have hle := length_clients_le (n := config.clientsPerThread) (fun w hw => ?_)
    (hs.inv.heldByRunning_iff.1 (hheld as s hrun))
  · rw [hs.inv.held.length_eq, hs.connections, List.length_range] at hle
    have hmul := Nat.mul_le_mul_right config.clientsPerThread hs.running
    omega
  · obtain ⟨hnew, hcount⟩ := hs.taken w hw
    have hlen := (hs.inv.counted w hw).length_clients
    rw [hnew, List.length_nil] at hlen
    omega

/-- **Every client has a running worker in all runs of a server just if its pool grows by one worker
at a time.** A server whose pool may grow by more gives every client one in the runs without such a
growth. -/
theorem clients_have_running_worker (config : ServerConfig)
    (hclients : 1 ≤ config.clientsPerThread) :
    ((∀ as s, run (step config) (start config) as = .ok s → s.HeldByRunning) ↔
      config.threadPoolGrowth ≤ 1) ∧
    ∀ as s, Meets (step config) (GrowsByOne config) (start config) as →
      run (step config) (start config) as = .ok s → s.HeldByRunning := by
  refine ⟨⟨?_, ?_⟩, fun as s => held_of_run⟩
  · intro h
    by_contra hnot
    have hgrowth : 2 ≤ config.threadPoolGrowth := by omega
    obtain ⟨as, s, hrun, hlost⟩ := exists_not_held hgrowth hclients
    exact hlost (h as s hrun)
  · intro hgrowth as s hrun
    refine held_of_run (meets_of_forall fun s a => ?_) hrun
    cases a with
    | accept fd => exact Or.inl hgrowth
    | takeNew i => trivial
    | disconnect i fd => trivial

/-- One worker with room for one client, and growth by two. -/
def pairGrowth : ServerConfig := ⟨1, 2, 1⟩

/-- With `pairGrowth` the second client makes the pool grow to three workers, and the third one gets
the last of them. -/
def thirdClient : List ServerStep :=
  [.accept 0, .takeNew 0, .accept 1, .takeNew 1, .accept 2]

/-- In a server that grows by one worker at a time, the third client gets a running worker. -/
theorem clients_have_running_worker_single : ∃ s,
    run (step ⟨1, 1, 1⟩) (start ⟨1, 1, 1⟩) thirdClient = .ok s ∧ s.HeldByRunning := by
  obtain ⟨s, hrun, -⟩ := exists_of_returns (show returns
    (run (step ⟨1, 1, 1⟩) (start ⟨1, 1, 1⟩) thirdClient) (fun _ => true) = true by decide)
  exact ⟨s, hrun, (clients_have_running_worker ⟨1, 1, 1⟩ (by decide)).1.2 (by decide) _ s hrun⟩

theorem thirdClient_not_held : ∃ s, run (step pairGrowth) (start pairGrowth) thirdClient = .ok s ∧
    ¬ s.HeldByRunning := by
  obtain ⟨s, hrun, hcheck⟩ := exists_of_returns (show returns
    (run (step pairGrowth) (start pairGrowth) thirdClient)
    (fun s => s.threadPool.any fun w => !w.started && decide (w.clients = [2])) = true by decide)
  refine ⟨s, hrun, ?_⟩
  intro hheld
  obtain ⟨w, hw, hlost⟩ := List.any_eq_true.1 hcheck
  rw [Bool.and_eq_true, Bool.not_eq_true', decide_eq_true_eq] at hlost
  have hnil := (inv_of_run hrun).heldByRunning_iff.1 hheld w hw hlost.1
  rw [hlost.2] at hnil
  cases hnil

/-! ## The limit of a worker -/

/-- No worker has more clients than `CLIENTS_PER_THREAD`, with those that wait for it. -/
def WithinLimit (config : ServerConfig) (s : ServerState) : Prop :=
  ∀ w ∈ s.threadPool, w.clients.length ≤ config.clientsPerThread

/-- The worker that the round robin comes to has room for a client besides those that wait for it;
and if there is none, one client is within the limit. -/
def HasRoomForNext (config : ServerConfig) (s : ServerState) : ServerStep → Prop
  | .accept _ =>
    (∀ w, s.Next config w →
      w.clientFdsCount + w.clientFdsNew.length < config.clientsPerThread) ∧
    ((∀ w ∈ s.threadPool, w.hasRoom config = false) → 1 ≤ config.clientsPerThread)
  | _ => True

/-- Only an accept can exceed the limit. -/
theorem withinLimit_of_effect (h : s.Inv) (hlimit : s.WithinLimit config)
    (heffect : Effect config s a s') : s'.WithinLimit config ↔ s.HasRoomForNext config a := by
  cases heffect with
  | @given fd l r w hpool hfree hroom hnext =>
    have hmem : w ∈ s.threadPool := by rw [hpool]; simp
    have hlen := (h.counted w hmem).length_clients
    constructor
    · intro hlimit'
      have hw := hlimit' (w.pushNew fd) (by simp)
      rw [clients_pushNew, List.length_append, List.length_singleton] at hw
      constructor
      · intro v hv
        obtain rfl := (hnext v).1 hv
        omega
      · intro hfull
        rw [hfull w hmem] at hroom
        cases hroom
    · intro hfits
      refine forall_replace hpool hlimit fun _ => ?_
      have hw := hfits.1 w ((hnext w).2 rfl)
      rw [clients_pushNew, List.length_append, List.length_singleton]
      omega
  | @grown fd rest hfree hfull hrest hlen =>
    have hfirst : (s.firstGrown fd).clients = [fd] := by simp [firstGrown]
    constructor
    · intro hlimit'
      have hw := hlimit' (s.firstGrown fd) (by simp)
      rw [hfirst] at hw
      refine ⟨?_, fun _ => hw⟩
      rintro v ⟨k, -, hv, hroom, -⟩
      rw [hfull v (List.mem_of_getElem? hv)] at hroom
      cases hroom
    · intro hfits
      simp only [WithinLimit, List.forall_mem_append, List.forall_mem_cons]
      refine ⟨hlimit, ?_, ?_⟩
      · rw [hfirst]
        exact hfits.2 hfull
      · intro v hv
        obtain ⟨id, rfl⟩ := hrest v hv
        exact Nat.zero_le _
  | taken hpool hi hstarted =>
    -- taking over moves clients from the waiting ones to the epoll set
    refine iff_of_true (forall_replace hpool hlimit fun hw => ?_) trivial
    rw [clients_takeNewClients]
    exact hw
  | closed hpool hi hstarted hfd =>
    refine iff_of_true (forall_replace hpool hlimit fun hw => ?_) trivial
    rw [clients_closeClient hfd]
    exact Nat.le_trans List.length_erase_le hw

/-- **The limit of a worker holds throughout a run just if every client comes to a worker with room
for it**, the waiting clients counted. -/
theorem withinLimit_iff (config : ServerConfig)
    (hrun : run (step config) (start config) as = .ok s) :
    (∀ bs t, bs <+: as → run (step config) (start config) bs = .ok t → t.WithinLimit config) ↔
      Meets (step config) (HasRoomForNext config) (start config) as := by
  refine run_invariant_iff (J := Inv) (fun _ _ _ h => h.of_step)
    (fun s a s' h hlimit hstep => withinLimit_of_effect h hlimit (effect_of_step h.iter hstep))
    inv_start (fun w hw => ?_) hrun
  obtain ⟨id, rfl⟩ := mem_startWorkers hw
  exact Nat.zero_le _

/-- One worker with room for one client, and growth by one. -/
def single : ServerConfig := ⟨1, 1, 1⟩

/-- The second client comes when the worker has taken over the first, and the pool grows. -/
theorem withinLimit_iff_growth :
    ∃ s, run (step single) (start single) [.accept 0, .takeNew 0, .accept 1] = .ok s ∧
      ((∀ bs t, bs <+: [.accept 0, .takeNew 0, .accept 1] →
        run (step single) (start single) bs = .ok t → t.WithinLimit single) ↔
      Meets (step single) (HasRoomForNext single) (start single)
        [.accept 0, .takeNew 0, .accept 1]) := by
  obtain ⟨s, hrun, -⟩ := exists_of_returns (show returns
    (run (step single) (start single) [.accept 0, .takeNew 0, .accept 1]) (fun _ => true) = true
    by decide)
  exact ⟨s, hrun, withinLimit_iff single hrun⟩

/-- The second client comes before the worker has looked at the first. -/
def twoAccepts : List ServerStep := [.accept 0, .accept 1]

theorem twoAccepts_exceeds : ∃ s, run (step single) (start single) twoAccepts = .ok s ∧
    ¬ s.WithinLimit single := by
  obtain ⟨s, hrun, hcheck⟩ := exists_of_returns (show returns
    (run (step single) (start single) twoAccepts)
    (fun s => s.threadPool.any fun w => decide (w.clients.length = 2)) = true by decide)
  refine ⟨s, hrun, ?_⟩
  intro hlimit
  obtain ⟨w, hw, htwo⟩ := List.any_eq_true.1 hcheck
  have hle := hlimit w hw
  rw [of_decide_eq_true htwo] at hle
  exact absurd hle (by decide)

end ServerState

end KeyValueStore
