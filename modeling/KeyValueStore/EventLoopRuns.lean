import KeyValueStore.EventLoop

/-!
# Runs of the event loop

Whatever the order in which the worker, the main thread and any number of clients take their steps,
a connection is in one of three states (`UnderWay`): nothing is under way, or a request whose fields
are partly written, or the response to it. A request takes effect when the worker has read it, and
from then on the response is the one that the dictionary gives.

* `event_loop_linearizable` — the history that the clients see linearizes to the requests that were
  executed, in the order of their execution.
-/

namespace KeyValueStore

open Linearizability Run

/-! ## The invariant -/

/-- **The loop is in step with the dictionary**: the requests executed are a linearization of what
the clients have seen, the worker's cache and files hold the dictionary after them, and every
connection carries what is under way. The worker reads a request and answers it in one step. -/
def LoopInv (n : Nat) (d₀ : Dict) (s : EventLoop) : Prop :=
  ∃ pending l d, s.toClients.Tracks d₀ (fun _ => false) pending l d ∧
    KVState.Holds n s.worker.state d ∧ s.worker.executed = l.map Entry.op

variable {n : Nat} {d₀ : Dict} {s : EventLoop} {config : ServerConfig}

namespace EventLoop

theorem start_inv {message : KVMessage} {state : KVState} (h : KVState.Holds n state d₀)
    (threadId : Nat) (clients : Nat → Client) :
    LoopInv n d₀ (start message state threadId clients) :=
  ⟨fun _ => none, [], d₀, Clients.new_tracks clients, h, rfl⟩

theorem accept_inv (h : LoopInv n d₀ s) (fd : Nat) : LoopInv n d₀ (s.accept config fd) := by
  obtain ⟨pending, l, d, htracks, hrest⟩ := h
  rw [accept]
  split_ifs
  · exact ⟨pending, l, d, Clients.accept_tracks htracks fd, hrest⟩
  · exact ⟨pending, l, d, htracks, hrest⟩

theorem serveEvent_inv (h : LoopInv n d₀ s) (hpos : 0 < n) (fd : Nat) (rest : List EpollEvent) :
    SucceedsUnlessFull (s.serveEvent fd rest) (LoopInv n d₀) := by
  have hsame := h
  obtain ⟨pending, l, d, htracks, hholds, hexec⟩ := h
  have hp := htracks.underWay fd
  -- with nothing to read the worker waits, or closes the connection
  have hnothing : (s.peers fd).connection.toServer = [] →
      SucceedsUnlessFull (s.serveEvent fd rest) (LoopInv n d₀) := by
    intro hnil
    simp only [serveEvent, hnil]
    split_ifs
    · exact Excused.ok hsame
    · exact Excused.ok hsame
  generalize hpending : pending fd = x at hp
  cases hp with
  | idle hcall hunwritten hconn => exact hnothing (by rw [hconn])
  | @asked id c sent hcall hopen hfields hconn =>
    -- either the whole request is there, or the worker waits for the rest
    by_cases hpart : (s.peers fd).unwritten = []
    · rw [hpart, List.append_nil] at hfields
      rw [hfields, Request.flatten_fields] at hconn
      simp only [serveEvent, hconn]
      rcases Worker.serveEvent_spec hholds hpos c.request [] with
        hfull | ⟨⟨worker, connection⟩, hok, hconn', hholds', hexec'⟩
      · rw [hfull]
        exact Or.inl rfl
      · rw [hok]
        have hanswered : UnderWay { s.peers fd with connection := connection } false
            (some (id, c.request, some (requestSpec d c.request).2)) :=
          .answered hcall hopen hpart hconn'
        refine Excused.ok ⟨_, _, _, ⟨htracks.staged.commit hpending, fun fd' => ?_⟩, hholds', ?_⟩
        · have hupdate := Clients.underWay_update htracks.underWay fd hanswered fd'
          rwa [Function.update_eq_self] at hupdate
        · show worker.executed = _
          rw [hexec', hexec, List.map_append, List.map_singleton]
    · cases hflat : sent.flatten with
      | nil => exact hnothing (by rw [hconn, hflat])
      | cons code body =>
        rw [hflat] at hconn
        simp only [serveEvent, hconn,
          s.worker.serveEvent_part (Request.body_of_part hfields hpart hflat)]
        exact Excused.ok hsame
  | answered hcall hopen hunwritten hconn => exact hnothing (by rw [hconn])

theorem runWorker_inv (h : LoopInv n d₀ s) (hpos : 0 < n) (events : List EpollEvent) :
    SucceedsUnlessFull (s.runWorker config events) (LoopInv n d₀) := by
  rw [runWorker]
  split
  · apply Excused.ok
    rw [epollWait]
    split_ifs
    · exact h
    · exact h
  · exact Excused.ok h
  · split_ifs
    · exact Excused.ok h
    · exact serveEvent_inv h hpos _ _
  · exact Excused.ok h

/-- **Every step keeps the loop in step with the dictionary.** -/
theorem step_inv (config : ServerConfig) (h : LoopInv n d₀ s) (hpos : 0 < n) (a : LoopStep) :
    SucceedsUnlessFull (s.step config a) (LoopInv n d₀) := by
  cases a with
  | worker events => exact runWorker_inv h hpos events
  | accept fd => exact Excused.ok (accept_inv h fd)
  | call fd c =>
    obtain ⟨pending, l, d, htracks, hrest⟩ := h
    obtain ⟨pending', htracks', -⟩ := Clients.call_tracks htracks fd c
    exact Excused.ok ⟨pending', l, d, htracks', hrest⟩
  | write fd =>
    obtain ⟨pending, l, d, htracks, hrest⟩ := h
    exact Excused.ok ⟨pending, l, d, Clients.write_tracks htracks fd, hrest⟩
  | receive fd =>
    obtain ⟨pending, l, d, htracks, hrest⟩ := h
    obtain ⟨c, hreceive, pending', htracks', -⟩ := Clients.receive_tracks htracks fd s.worker
    rw [step, hreceive]
    exact Excused.ok ⟨pending', l, d, htracks', hrest⟩
  | close fd =>
    obtain ⟨pending, l, d, htracks, hrest⟩ := h
    exact Excused.ok ⟨pending, l, d, Clients.close_tracks htracks fd, hrest⟩
  | fail fd =>
    obtain ⟨pending, l, d, htracks, hrest⟩ := h
    rw [step, fail]
    split_ifs
    · exact Excused.ok ⟨pending, l, d, Clients.close_tracks htracks fd, hrest⟩
    · exact Excused.ok ⟨pending, l, d, htracks, hrest⟩

theorem run_inv (h : LoopInv n d₀ s) (hpos : 0 < n) (steps : List LoopStep) :
    SucceedsUnlessFull (run (step config) s steps) (LoopInv n d₀) :=
  run_excused (fun _ a h => step_inv config h hpos a) steps h

end EventLoop

/-! ## The server -/

variable {cacheSize : Nat} {files : Nat → Option (List UInt8)}

/-- The dictionary that the files hold, and a server in step with it. -/
theorem loopInv_of_start (hsize : 1 ≤ cacheSize) (hfiles : WellFormedFiles files) :
    ∃ state d₀, KVState.start cacheSize files = .ok state ∧
      (∀ ptr : KVMessage,
        state.store.readFromDb ptr.calculateKeyHash = .ok (dictGet d₀ ptr.calculateKeyHash)) ∧
      ∀ message threadId clients,
        LoopInv cacheSize d₀ (EventLoop.start message state threadId clients) := by
  obtain ⟨state, d₀, hstate, hread, hrep, hn⟩ := KVState.start_dict hsize hfiles
  refine ⟨state, d₀, hstate, hread, ?_⟩
  intro message threadId clients
  exact EventLoop.start_inv ⟨_, hrep, hn⟩ threadId clients

/-- **One worker serves any number of clients as a dictionary would.** Whatever the order of the
steps, the calls of the clients linearize to the requests executed, in the order of their execution,
and cache and files hold the dictionary after these. -/
theorem event_loop_linearizable (hsize : 1 ≤ cacheSize) (hfiles : WellFormedFiles files) :
    ∃ state d₀, KVState.start cacheSize files = .ok state ∧
      (∀ ptr : KVMessage,
        state.store.readFromDb ptr.calculateKeyHash = .ok (dictGet d₀ ptr.calculateKeyHash)) ∧
      ∀ config message threadId clients steps,
        SucceedsUnlessFull
          (run (EventLoop.step config) (.start message state threadId clients) steps) fun s =>
            ∃ l d, Linearizes requestSpec d₀ s.history l d ∧
              s.worker.executed = l.map Entry.op ∧
              ∀ key, s.worker.state.lookup key = .ok (d key) := by
  obtain ⟨state, d₀, hstate, hread, hinv⟩ := loopInv_of_start hsize hfiles
  refine ⟨state, d₀, hstate, hread, ?_⟩
  intro config message threadId clients steps
  refine (EventLoop.run_inv (hinv message threadId clients) hsize steps).mono fun s hs => ?_
  obtain ⟨pending, l, d, htracks, ⟨L, hrep, -⟩, hexec⟩ := hs
  exact ⟨l, d, htracks.staged.inst.linearizes, hexec, fun key => KVState.lookup_eq hrep key⟩

/-- Two clients whose calls overlap. The GET of one is served first and finds nothing. -/
theorem event_loop_linearizable_two : ∃ state d₀,
    KVState.start 1 (fun _ => none) = .ok state ∧
      SucceedsUnlessFull
        (run (EventLoop.step ⟨1, 1, 5⟩) (.start .empty state 1 fun _ => ⟨0, emptyString⟩)
          [.accept 4, .accept 5, .worker [], .worker [], .worker [], .call 4 (.put (entry 97 1)),
            .call 5 (.get (entry 97 0)), .write 4, .write 5, .write 4, .write 5,
            .worker [⟨5, false⟩, ⟨4, false⟩], .worker [], .receive 5, .worker [], .write 4,
            .worker [], .receive 4]) fun s =>
          ∃ l d, Linearizes requestSpec d₀ s.history l d ∧
            s.worker.executed = l.map Entry.op ∧
            ∀ key, s.worker.state.lookup key = .ok (d key) := by
  obtain ⟨state, d₀, hstate, -, hrun⟩ := event_loop_linearizable (le_refl 1) wellFormedFiles_none
  exact ⟨state, d₀, hstate, hrun _ _ _ _ _⟩

end KeyValueStore
