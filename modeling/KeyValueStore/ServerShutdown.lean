import KeyValueStore.EventLoopProgress
import KeyValueStore.ServerWorkers

/-!
# Interrupting the server

`signal_callback_handler` locks `mutex_serving_clients` of one worker after the other. When it has
all of them, it cleans the cache and ends the process. A worker holds its mutex from the return of
`epoll_wait` to the end of the batch, also while it waits for the rest of a request that a client
has begun to write.

* `event_loop_shutdown` — one worker. The files that the handler leaves hold the dictionary after a
  linearization of what the clients have seen. While the worker serves its clients, the handler
  waits; it gets its turn when they finish what they have begun, and waits for ever for a client
  that does not.
* `server_shutdown` — any number of workers, which go on while the handler takes their mutexes.

The handler runs in the main thread, which is in `accept`. An interrupt while it hands a client to a
worker, and one that comes to the thread of a worker, are left out.
-/

namespace KeyValueStore

open Linearizability Run SharedCache

/-! ## One worker -/

/-- The worker holds `mutex_serving_clients`. -/
def LoopPc.servesClients : LoopPc → Bool
  | .serving _ => true
  | _ => false

/-- The handler: it waits for the mutex, or has it and cleans the cache. -/
def EventLoop.signalCallbackHandler (s : EventLoop) (fuel : Nat) :
    Option (Except Fault KVState) :=
  if s.pc.servesClients then none else some (s.worker.state.cacheClean fuel)

section OneWorker

variable {n cacheSize : Nat} {d₀ : Dict} {s : EventLoop} {config : ServerConfig}
  {files : Nat → Option (List UInt8)}

/-- The worker and the clients come to the end of the batch. -/
theorem EventLoop.leads_unlock (hinv : LoopInv n d₀ s) (horderly : Orderly s) (hpos : 0 < n) :
    s.LeadsTo config fun s' => s'.pc.servesClients = false := by
  cases hpc : s.pc with
  | polling => exact .here (by rw [hpc]; rfl)
  | takingNew => exact .here (by rw [hpc]; rfl)
  | serving events =>
    refine (drain ⟨hinv, horderly, .refl s⟩ hpos hpc).trans fun s' hs' => .here ?_
    rw [hs'.2.1]
    rfl

/-- **No call that has returned is lost by an interrupt.** Whatever the clients and the worker have
done until then, the files that the handler leaves hold the dictionary after a linearization of what
the clients have seen. While the worker serves its clients the handler waits: until they have
finished what they have begun, whatever `epoll_wait` reports, and for ever if one of them stops. -/
theorem event_loop_shutdown (hsize : 1 ≤ cacheSize) (hfiles : WellFormedFiles files) :
    ∃ state d₀, KVState.start cacheSize files = .ok state ∧
      (∀ ptr : KVMessage,
        state.store.readFromDb ptr.calculateKeyHash = .ok (dictGet d₀ ptr.calculateKeyHash)) ∧
      ∀ config message threadId clients steps,
        SucceedsUnlessFull
          (run (EventLoop.step config) (.start message state threadId clients) steps) fun s =>
            (∃ l d, Linearizes requestSpec d₀ s.history l d ∧
              ∃ x, (∀ fuel > cacheSize,
                s.signalCallbackHandler fuel = if s.pc.servesClients then none else some x) ∧
                SucceedsUnlessFull x fun s' => ∀ ptr : KVMessage,
                  (KVStore.initKvstore s'.store.files).readFromDb ptr.calculateKeyHash =
                    .ok (dictGet d ptr.calculateKeyHash)) ∧
            (s.LeadsTo config fun s' => s'.pc.servesClients = false) ∧
            ∀ fd, Stalled fd s → ∀ more : List LoopStep, (∀ a ∈ more, ¬ a.Advances fd) →
              ∃ s', run (EventLoop.step config) s more = .ok s' ∧
                ∀ fuel, s'.signalCallbackHandler fuel = none := by
  obtain ⟨state, d₀, hstate, hread, hinv⟩ := loopInv_of_start hsize hfiles
  refine ⟨state, d₀, hstate, hread, ?_⟩
  intro config message threadId clients steps
  refine (EventLoop.run_orderly (hinv message threadId clients)
    (EventLoop.start_orderly message state threadId clients) hsize steps).mono
    fun s hs => ⟨?_, EventLoop.leads_unlock hs.1 hs.2 hsize, ?_⟩
  · obtain ⟨pending, l, d, htracks, ⟨L, hrep, hn⟩, -⟩ := hs.1
    obtain ⟨x, hx, hclean⟩ := KVState.cacheClean_leaves hrep
    have hcount := hrep.wf.count
    refine ⟨l, d, htracks.staged.inst.linearizes, x, fun fuel hfuel => ?_, hclean⟩
    rw [EventLoop.signalCallbackHandler, hx fuel (by omega)]
  · intro fd hstalled more hmore
    obtain ⟨s', hrun, hwaits⟩ := EventLoop.stalled_run config hs.1 hsize hstalled hmore
    obtain ⟨rest, hpc⟩ := (hwaits.stalled hstalled).1
    refine ⟨s', hrun, fun fuel => if_pos ?_⟩
    rw [hpc]
    rfl

/-- Interrupts after a `PUT` has been answered and another client has begun to write. -/
theorem event_loop_shutdown_put : ∃ state d₀,
    KVState.start 1 (fun _ => none) = .ok state ∧
      SucceedsUnlessFull
        (run (EventLoop.step ⟨1, 2, 5⟩) (.start .empty state 1 fun _ => ⟨0, emptyString⟩)
          [.accept 4, .accept 5, .worker [], .worker [], .worker [], .call 4 (.put (entry 97 1)),
            .call 5 (.put (entry 98 2)), .write 4, .write 4, .write 4, .worker [⟨4, false⟩],
            .worker [], .receive 4, .write 5, .worker [], .worker [],
            .worker [⟨5, false⟩]]) fun s =>
          (∃ l d, Linearizes requestSpec d₀ s.history l d ∧
            ∃ x, (∀ fuel > 1,
              s.signalCallbackHandler fuel = if s.pc.servesClients then none else some x) ∧
              SucceedsUnlessFull x fun s' => ∀ ptr : KVMessage,
                (KVStore.initKvstore s'.store.files).readFromDb ptr.calculateKeyHash =
                  .ok (dictGet d ptr.calculateKeyHash)) ∧
          (s.LeadsTo ⟨1, 2, 5⟩ fun s' => s'.pc.servesClients = false) ∧
          ∀ fd, Stalled fd s → ∀ more : List LoopStep, (∀ a ∈ more, ¬ a.Advances fd) →
            ∃ s', run (EventLoop.step ⟨1, 2, 5⟩) s more = .ok s' ∧
              ∀ fuel, s'.signalCallbackHandler fuel = none := by
  obtain ⟨state, d₀, hstate, -, hrun⟩ := event_loop_shutdown (le_refl 1) wellFormedFiles_none
  exact ⟨state, d₀, hstate, hrun _ _ _ _ _⟩

end OneWorker

/-! ## All workers -/

/-- The worker holds `mutex_serving_clients`. -/
def WorkerPc.servesClients : WorkerPc → Bool
  | .serving _ => true
  | .executing _ _ => true
  | .responding _ _ _ => true
  | _ => false

/-- The server while its handler runs, which has the mutexes of this many workers. -/
structure Shutdown where
  server : Server
  locked : Nat

inductive ShutdownMove
  /-- The handler goes on to the next worker. -/
  | lock
  /-- The workers and the clients go on. -/
  | server (m : ServerMove)

namespace Shutdown

variable (config : ServerConfig) (s : Shutdown)

/-- The main thread is in the handler, and a worker whose mutex it has cannot serve its clients. -/
def Permits : ServerMove → Prop
  | .worker i _ => i < s.locked → (s.server.threads i).pc ≠ .polling
  | .accept _ => False
  | _ => True

instance (m : ServerMove) : Decidable (s.Permits m) :=
  match m with
  | .worker _ _ => inferInstanceAs (Decidable (_ → _))
  | .accept _ => inferInstanceAs (Decidable False)
  | .call _ _ | .write _ | .receive _ | .close _ => inferInstanceAs (Decidable True)

/-- The handler locks the next mutex, if it is free. -/
def lock : Shutdown :=
  if s.locked < s.server.main.threadPool.length ∧
      (s.server.threads s.locked).pc.servesClients = false then
    { s with locked := s.locked + 1 }
  else s

def step : ShutdownMove → Except Fault Shutdown
  | .lock => .ok s.lock
  | .server m =>
    if s.Permits m then do return { s with server := ← s.server.step config m } else .ok s

/-- The handler: it waits for a mutex, or has all of them and cleans the cache. -/
def signalCallbackHandler (fuel : Nat) : Option (Except Fault KVState) :=
  if s.locked = s.server.main.threadPool.length then
    some (s.server.cache.state.cacheClean fuel)
  else none

/-- A step of the server that undoes nothing. -/
def Undisturbed : ShutdownMove → Prop
  | .lock => True
  | .server m => s.server.Undisturbed m

/-- The server is in step with the dictionary, and no worker whose mutex the handler has serves its
clients. -/
structure Inv (d₀ : Dict) (s : Shutdown) : Prop where
  server : ∃ taken pending calls l d, ServerInv d₀ s.server taken pending calls l d
  locked : ∀ i < s.locked, (s.server.threads i).pc.servesClients = false

end Shutdown

section AllWorkers

variable {config : ServerConfig} {s : Server} {d₀ d : Dict} {i : Nat} {m : ServerMove}

/-- A worker between two batches comes to no other one in a step. -/
theorem Server.takingNew_step (hpc : (s.threads i).pc = .takingNew) (events : List EpollEvent) :
    Ensures (s.step config (.worker i events)) fun s' =>
      (s'.threads i).pc.servesClients = false := by
  have hout : (s.threads i).pc.servesClients = false := by rw [hpc]; rfl
  rw [step, runWorker]
  split
  · exact Ensures.ok hout
  split_ifs
  · rw [hpc]
    refine Ensures.ok ?_
    simp only [goto, Function.update_self]
    rfl
  · exact Ensures.ok hout

theorem Server.others_step (hm : ∀ events, m ≠ .worker i events) :
    Ensures (s.step config m) fun s' => s'.threads i = s.threads i := by
  intro s' hs'
  cases effect_of_step s' hs' with
  | stays => rfl
  | @works j events info _ hinfo hstarted heffect =>
    have hne : i ≠ j := fun hsame => hm events (by rw [hsame])
    cases heffect with
    | stays => rfl
    | polls => exact Function.update_of_ne hne _ _
    | goes => exact Function.update_of_ne hne _ _
    | ends =>
      rw [dispatch_goto, dispatch_threads]
      exact Function.update_of_ne hne _ _
    | takesNew =>
      rw [dispatch_goto, dispatch_threads]
      exact Function.update_of_ne hne _ _
  | accepts => exact congrFun (s.dispatch_threads config _) i
  | moves => rfl

/-- A worker whose mutex the handler has does not come to serve its clients. -/
theorem Shutdown.permitted_step {t : Shutdown} (hm : t.Permits m) (hi : i < t.locked)
    (hout : (t.server.threads i).pc.servesClients = false) :
    Ensures (t.server.step config m) fun s' => (s'.threads i).pc.servesClients = false := by
  by_cases hworker : ∃ events, m = .worker i events
  · obtain ⟨events, rfl⟩ := hworker
    have hpc : (t.server.threads i).pc = .takingNew := by
      have hne := hm hi
      cases hpc : (t.server.threads i).pc with
      | polling => exact absurd hpc hne
      | takingNew => rfl
      | serving => rw [hpc] at hout; cases hout
      | executing => rw [hpc] at hout; cases hout
      | responding => rw [hpc] at hout; cases hout
    exact Server.takingNew_step hpc events
  · refine (Server.others_step fun events hsame => hworker ⟨events, hsame⟩).mono fun s' hs' => ?_
    rw [hs']
    exact hout

namespace Shutdown.Inv

variable {t : Shutdown}

/-- **Every step of the handler and of the others.** -/
theorem step (h : t.Inv d₀) {a : ShutdownMove} (hun : t.Undisturbed a) :
    Ensures (t.step config a) (Shutdown.Inv d₀) := by
  cases a with
  | lock =>
    rw [Shutdown.step, Shutdown.lock]
    split_ifs with hfree
    · refine Ensures.ok ⟨h.server, fun i hi => ?_⟩
      rcases Nat.lt_succ_iff_lt_or_eq.1 hi with hi | rfl
      · exact h.locked i hi
      · exact hfree.2
    · exact Ensures.ok h
  | server m =>
    rw [Shutdown.step]
    split_ifs with hm
    · obtain ⟨taken, pending, calls, l, d, hserver⟩ := h.server
      have hlocked : Ensures (t.server.step config m) fun s' =>
          ∀ i < t.locked, (s'.threads i).pc.servesClients = false := fun s' hs' i hi =>
        permitted_step hm hi (h.locked i hi) s' hs'
      exact ((hserver.step config hun).and hlocked).bind fun s' hs' => Ensures.ok ⟨hs'.1, hs'.2⟩
    · exact Ensures.ok h

theorem idle (h : t.Inv d₀) (hi : i < t.locked) : t.server.cache.pc i = .idle := by
  obtain ⟨taken, pending, calls, l, d, hserver⟩ := h.server
  have hout := h.locked i hi
  refine (hserver.serves i).idle_iff.2 ((hserver.attends i).call_eq_none ?_)
  cases hpc : (t.server.threads i).pc with
  | executing => rw [hpc] at hout; cases hout
  | responding => rw [hpc] at hout; cases hout
  | _ => rfl

end Shutdown.Inv

variable {cacheSize : Nat} {files : Nat → Option (List UInt8)}

/-- **No call that has returned is lost by an interrupt of the server.** The workers go on while the
handler takes their mutexes. When it has them, no worker is in the cache, and the files that it
leaves hold the dictionary after a linearization of what the clients have seen. -/
theorem server_shutdown (hsize : 1 ≤ cacheSize) (hfiles : WellFormedFiles files) :
    ∃ state d₀, KVState.start cacheSize files = .ok state ∧
      (∀ ptr : KVMessage,
        state.store.readFromDb ptr.calculateKeyHash = .ok (dictGet d₀ ptr.calculateKeyHash)) ∧
      ∀ config messages clients moves s,
        Meets (Server.step config) Server.Undisturbed (.start config state messages clients) moves →
        run (Server.step config) (.start config state messages clients) moves = .ok s →
        ∀ more t, Meets (Shutdown.step config) Shutdown.Undisturbed ⟨s, 0⟩ more →
          run (Shutdown.step config) ⟨s, 0⟩ more = .ok t →
            (∀ i < t.locked, (t.server.threads i).pc.servesClients = false ∧
              t.server.cache.pc i = .idle) ∧
            ∃ l d, Linearizes requestSpec d₀ t.server.history l d ∧
              ∃ x k, (∀ fuel > k, t.signalCallbackHandler fuel =
                if t.locked = t.server.main.threadPool.length then some x else none) ∧
                SucceedsUnlessFull x fun s' => ∀ ptr : KVMessage,
                  (KVStore.initKvstore s'.store.files).readFromDb ptr.calculateKeyHash =
                    .ok (dictGet d ptr.calculateKeyHash) := by
  obtain ⟨state, d₀, hstate, hread, hruns⟩ := server_inv hsize hfiles
  refine ⟨state, d₀, hstate, hread, ?_⟩
  intro config messages clients moves s hun hrun more t hmore hrun'
  have hinv : t.Inv d₀ :=
    run_invariant (I := Shutdown.Inv d₀) (fun _ _ s' h hC hstep => h.step hC s' hstep)
      ⟨hruns config messages clients moves s hun hrun, fun i hi => absurd hi (Nat.not_lt_zero i)⟩
      hmore hrun'
  refine ⟨fun i hi => ⟨hinv.locked i hi, hinv.idle hi⟩, ?_⟩
  obtain ⟨taken, pending, calls, l, d, h⟩ := hinv.server
  obtain ⟨L, held, -, hrep⟩ := h.cache
  obtain ⟨x, hx, hclean⟩ := KVState.cacheClean_leaves hrep
  refine ⟨l, d, h.tracks.staged.inst.linearizes, x, L.linked.length, fun fuel hfuel => ?_, hclean⟩
  rw [Shutdown.signalCallbackHandler, hx fuel hfuel]

/-- An interrupt while both `PUT`s are under way: the handler has to wait for each worker. -/
def interruptedPuts : List ShutdownMove :=
  .lock :: (overlappingPuts.drop 20).map .server ++
    [.lock, .server (.worker 0 []), .lock, .lock, .server (.worker 1 []), .lock]

def ShutdownMove.quiet (s : Shutdown) : ShutdownMove → Bool
  | .lock => true
  | .server m => s.server.quiet m

theorem server_shutdown_two : ∃ state d₀ s t, KVState.start 2 (fun _ => none) = .ok state ∧
    run (Server.step ⟨2, 1, 5⟩) (.start ⟨2, 1, 5⟩ state (fun _ => .empty)
      fun _ => ⟨0, emptyString⟩) (overlappingPuts.take 20) = .ok s ∧
    run (Shutdown.step ⟨2, 1, 5⟩) ⟨s, 0⟩ interruptedPuts = .ok t ∧
    t.server.history.length = 4 ∧ t.locked = 2 ∧
      (∀ i < t.locked, (t.server.threads i).pc.servesClients = false ∧
        t.server.cache.pc i = .idle) ∧
      ∃ l d, Linearizes requestSpec d₀ t.server.history l d ∧
        ∃ x k, (∀ fuel > k, t.signalCallbackHandler fuel =
          if t.locked = t.server.main.threadPool.length then some x else none) ∧
          SucceedsUnlessFull x fun s' => ∀ ptr : KVMessage,
            (KVStore.initKvstore s'.store.files).readFromDb ptr.calculateKeyHash =
              .ok (dictGet d ptr.calculateKeyHash) := by
  have hcheck : returns (KVState.start 2 fun _ => none) (fun state =>
      checkRun (Server.step ⟨2, 1, 5⟩) Server.quiet
        (.start ⟨2, 1, 5⟩ state (fun _ => .empty) fun _ => ⟨0, emptyString⟩)
        (overlappingPuts.take 20) &&
      returns (run (Server.step ⟨2, 1, 5⟩) (.start ⟨2, 1, 5⟩ state (fun _ => .empty)
        fun _ => ⟨0, emptyString⟩) (overlappingPuts.take 20)) fun s =>
          checkRun (Shutdown.step ⟨2, 1, 5⟩) ShutdownMove.quiet ⟨s, 0⟩ interruptedPuts &&
          returns (run (Shutdown.step ⟨2, 1, 5⟩) ⟨s, 0⟩ interruptedPuts) fun t =>
            t.server.history.length == 4 && t.locked == 2) = true := by
    decide +kernel
  obtain ⟨state, hstate, hcheck⟩ := exists_of_returns hcheck
  rw [Bool.and_eq_true] at hcheck
  obtain ⟨s, hrun, hcheck'⟩ := exists_of_returns hcheck.2
  rw [Bool.and_eq_true] at hcheck'
  obtain ⟨t, hrun', hlast⟩ := exists_of_returns hcheck'.2
  rw [Bool.and_eq_true] at hlast
  have hun' : ∀ t a, ShutdownMove.quiet t a = true → t.Undisturbed a := by
    intro t a ha
    cases a with
    | lock => trivial
    | server m => exact t.server.undisturbed_of_quiet m ha
  obtain ⟨state', d₀, hstate', -, hruns⟩ := server_shutdown one_le_two wellFormedFiles_none
  obtain rfl := Except.ok.inj (hstate.symm.trans hstate')
  exact ⟨state, d₀, s, t, hstate, hrun, hrun', eq_of_beq hlast.1, eq_of_beq hlast.2,
    hruns _ _ _ _ s (meets_of_checkRun Server.undisturbed_of_quiet hcheck.1) hrun _ t
      (meets_of_checkRun hun' hcheck'.1) hrun'⟩

end AllWorkers

end KeyValueStore
