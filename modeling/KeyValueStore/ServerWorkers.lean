import KeyValueStore.DispatcherRuns
import KeyValueStore.ServerRuns

/-!
# The workers of the server

What a step of a worker does is said once (`WorkerEffect`): it polls, it ends a connection, it takes
over its new clients, or it moves on with the events that it has, for which it may write to one of
their clients and take a step in the cache. Any other step is one of the main thread or of the
clients (`ServerEffect`).

So a worker only ever serves descriptors of its own epoll set (`Attached`). No client is served by
two workers (`server_one_worker`), and a client that waits for a worker which was not started is
served by none (`server_starves`). A run of the server is, for the cache, a run of its threads, and
for the main thread a run of the dispatch (`server_runs`).
-/

namespace KeyValueStore

open Linearizability Run SharedCache

/-! ## What a step can do -/

/-- The clients that the worker is going to serve before it polls again. -/
def WorkerPc.fds : WorkerPc → List Nat
  | .polling => []
  | .serving events => events.map EpollEvent.fd
  | .executing fd rest => fd :: rest.map EpollEvent.fd
  | .responding fd _ rest => fd :: rest.map EpollEvent.fd
  | .takingNew => []

/-- What worker `i` does in the cache: nothing, or it calls an operation, or goes on in the one that
it has called. -/
inductive CacheEffect (s : Server) (i : Nat) : SharedCache → Prop
  | same : CacheEffect s i s.cache
  | called (op : Op) (ptr : KVMessage) : CacheEffect s i (s.cache.invoke i op ptr)
  | ran {fd : Nat} {rest : List EpollEvent} {σ : SharedCache}
      (hpc : (s.threads i).pc = .executing fd rest) (hstep : s.cache.runThread i = .ok σ) :
      CacheEffect s i σ

/-- What it does to the clients: nothing, or it reads from the connection of one that it serves, or
writes to it. -/
inductive ClientEffect (s : Server) (i : Nat) : Clients → Prop
  | same : ClientEffect s i s.toClients
  | served {fd : Nat} (connection : Connection) (hfd : fd ∈ (s.threads i).pc.fds) :
      ClientEffect s i (s.setPeer fd { s.peers fd with connection := connection })

/-- The effect of a step of worker `i`. -/
inductive WorkerEffect (config : ServerConfig) (s : Server) (i : Nat) (info : WorkerThreadInfo) :
    Server → Prop
  | stays : WorkerEffect config s i info s
  | polls {events : List EpollEvent} (hnodup : (events.map EpollEvent.fd).Nodup)
      (hready : ∀ e ∈ events, s.Ready info e) :
      WorkerEffect config s i info (s.goto i (.serving events))
  | goes {w : WorkerThread} {c : Clients} {σ : SharedCache}
      (hfds : w.pc.fds.Sublist (s.threads i).pc.fds) (hclients : ClientEffect s i c)
      (hcache : CacheEffect s i σ) :
      WorkerEffect config s i info
        { s with toClients := c, threads := Function.update s.threads i w, cache := σ }
  | ends {e : EpollEvent} {rest : List EpollEvent} (hpc : (s.threads i).pc = .serving (e :: rest)) :
      WorkerEffect config s i info
        ((s.dispatch config (.disconnect i e.fd)).goto i (.serving rest))
  | takesNew : WorkerEffect config s i info
      ((s.dispatch config (.takeNew i)).goto i .polling)

namespace Server

variable {config : ServerConfig} {s s' : Server} {i fd : Nat} {info : WorkerThreadInfo}

theorem goto_effect {pc : WorkerPc} (hfds : pc.fds.Sublist (s.threads i).pc.fds) :
    WorkerEffect config s i info (s.goto i pc) :=
  .goes (w := ⟨(s.threads i).message, pc⟩) hfds .same .same

theorem serveEvent_effect {e : EpollEvent} {rest : List EpollEvent}
    (hpc : (s.threads i).pc = .serving (e :: rest)) :
    Ensures (s.serveEvent config i e.fd rest) (WorkerEffect config s i info) := by
  have hfd : e.fd ∈ (s.threads i).pc.fds := by rw [hpc]; exact List.mem_cons_self
  have hrest : (rest.map EpollEvent.fd).Sublist (s.threads i).pc.fds := by
    rw [hpc]
    exact List.sublist_cons_self ..
  rw [serveEvent]
  split
  · split_ifs
    · exact Ensures.ok (.ends hpc)
    · exact Ensures.ok .stays
  · split_ifs
    · exact Ensures.ok (.goes hrest (.served _ hfd) .same)
    · split
      · exact Ensures.ok .stays
      · exact Ensures.error
      · rename_i op ptr toServer _
        refine Ensures.ok (.goes ?_ (.served _ hfd) (.called op ptr))
        rw [hpc]
        exact List.Sublist.refl _

theorem execute_effect {rest : List EpollEvent} (hpc : (s.threads i).pc = .executing fd rest) :
    Ensures (s.execute i fd rest) (WorkerEffect config s i info) := by
  intro s' hs'
  rw [execute] at hs'
  cases hrun : s.cache.runThread i with
  | error e => rw [hrun] at hs'; cases hs'
  | ok σ =>
    rw [hrun, ok_bind] at hs'
    split at hs'
    · obtain rfl := Except.ok.inj hs'
      exact .goes (by rw [hpc]; exact List.Sublist.refl _) .same (.ran hpc hrun)
    · obtain rfl := Except.ok.inj hs'
      have heffect : WorkerEffect config s i info { s with
          toClients := s.toClients
          threads := Function.update s.threads i (s.threads i)
          cache := σ } := .goes (List.Sublist.refl _) .same (.ran hpc hrun)
      rwa [Function.update_eq_self] at heffect

/-- **A step of a worker**: only one that was started takes any. -/
theorem effect_of_runWorker {events : List EpollEvent} :
    Ensures (s.runWorker config i events) fun s' => s' = s ∨
      ∃ info, s.main.threadPool[i]? = some info ∧ info.started = true ∧
        WorkerEffect config s i info s' := by
  rw [runWorker]
  split
  · exact Ensures.ok (Or.inl rfl)
  rename_i info hinfo
  split_ifs with hstarted
  · refine Ensures.mono (P := WorkerEffect config s i info) ?_
      fun s' heffect => Or.inr ⟨info, hinfo, hstarted, heffect⟩
    split
    · rw [epollWait]
      split_ifs with hevents
      · exact Ensures.ok (.polls hevents.2.1 hevents.2.2)
      · exact Ensures.ok .stays
    · exact Ensures.ok (goto_effect (List.nil_sublist _))
    · rename_i e rest hpc
      split_ifs
      · exact Ensures.ok (goto_effect (List.nil_sublist _))
      · exact serveEvent_effect hpc
    · rename_i fd rest hpc
      exact execute_effect hpc
    · rename_i fd answer rest hpc
      refine Ensures.ok (.goes (w := ⟨(s.threads i).message, .serving rest⟩) ?_ (.served _ ?_)
        .same)
      · rw [hpc]
        exact List.sublist_cons_self ..
      · rw [hpc]
        exact List.mem_cons_self
    · exact Ensures.ok .takesNew
  · exact Ensures.ok (Or.inl rfl)

end Server

/-! ## The dispatch -/

namespace ServerState

open WorkerThreadInfo

variable {config : ServerConfig} {s s' : ServerState} {a : ServerStep} {j fd : Nat}
  {w w' : WorkerThreadInfo}

theorem getElem?_replace {l r : List WorkerThreadInfo} {v : WorkerThreadInfo}
    (h : (l ++ w :: r)[j]? = some v) (w' : WorkerThreadInfo) :
    j = l.length ∧ v = w ∧ (l ++ w' :: r)[j]? = some w' ∨
      j ≠ l.length ∧ (l ++ w' :: r)[j]? = some v := by
  rcases Nat.lt_trichotomy j l.length with hj | rfl | hj
  · rw [List.getElem?_append_left hj] at h ⊢
    exact Or.inr ⟨hj.ne, h⟩
  · rw [List.getElem?_append_right le_rfl, Nat.sub_self, List.getElem?_cons_zero] at h
    refine Or.inl ⟨rfl, (Option.some.inj h).symm, ?_⟩
    rw [List.getElem?_append_right le_rfl, Nat.sub_self, List.getElem?_cons_zero]
  · obtain ⟨k, hk⟩ := Nat.exists_eq_add_of_lt hj
    have hsub : j - l.length = k + 1 := by omega
    rw [List.getElem?_append_right hj.le, hsub, List.getElem?_cons_succ] at h ⊢
    exact Or.inr ⟨hj.ne', h⟩

/-- What a worker keeps in a step: whether it runs, the clients in its epoll set but for one that it
closes, and, if it does not run, those that wait for it. -/
theorem worker_of_effect (h : Effect config s a s') (hw : s.threadPool[j]? = some w) :
    ∃ w', s'.threadPool[j]? = some w' ∧ w'.started = w.started ∧
      (∀ fd ∈ w.registered, a ≠ .disconnect j fd → fd ∈ w'.registered) ∧
      (w.started = false → ∀ fd ∈ w.clientFdsNew, fd ∈ w'.clientFdsNew) := by
  cases h with
  | @given fd l r v hpool =>
    rw [hpool] at hw
    rcases getElem?_replace hw (v.pushNew fd) with ⟨-, rfl, hw'⟩ | ⟨-, hw'⟩
    · exact ⟨_, hw', rfl, fun _ hfd _ => hfd, fun _ _ hfd => List.mem_append_left _ hfd⟩
    · exact ⟨w, hw', rfl, fun _ hfd _ => hfd, fun _ _ hfd => hfd⟩
  | @grown fd rest =>
    obtain ⟨hj, -⟩ := List.getElem?_eq_some_iff.1 hw
    refine ⟨w, ?_, rfl, fun _ hfd _ => hfd, fun _ _ hfd => hfd⟩
    rw [List.getElem?_append_left hj]
    exact hw
  | @taken i l r v hpool hi hstarted =>
    rw [hpool] at hw
    rcases getElem?_replace hw v.takeNewClients with ⟨-, rfl, hw'⟩ | ⟨-, hw'⟩
    · refine ⟨_, hw', ?_, ?_, ?_⟩
      · rw [takeNewClients_eq]
      · intro fd hfd _
        rw [takeNewClients_eq]
        exact List.mem_append_left _ hfd
      · intro hstopped
        rw [hstarted] at hstopped
        cases hstopped
    · exact ⟨w, hw', rfl, fun _ hfd _ => hfd, fun _ _ hfd => hfd⟩
  | @closed i fd l r v hpool hi hstarted hfd =>
    rw [hpool] at hw
    rcases getElem?_replace hw (v.closeClient fd) with ⟨hj, rfl, hw'⟩ | ⟨-, hw'⟩
    · refine ⟨_, hw', rfl, ?_, ?_⟩
      · intro fd' hfd' hne
        -- only the worker that closes the connection takes it out of its set
        refine (List.mem_erase_of_ne fun hsame => hne ?_).2 hfd'
        rw [hj, hi, hsame]
      · intro hstopped
        rw [hstarted] at hstopped
        cases hstopped
    · exact ⟨w, hw', rfl, fun _ hfd _ => hfd, fun _ _ hfd => hfd⟩

/-- A client that waits for a worker after a step has waited for one before, or was accepted. -/
theorem waits_of_effect (h : Effect config s a s') (hw : w' ∈ s'.threadPool)
    (hfd : fd ∈ w'.clientFdsNew) :
    a = .accept fd ∨ ∃ w ∈ s.threadPool, fd ∈ w.clientFdsNew := by
  revert fd
  cases h with
  | @given fd l r v hpool =>
    refine forall_replace (P := fun w' => ∀ {fd'}, fd' ∈ w'.clientFdsNew → ServerStep.accept fd =
      .accept fd' ∨ ∃ w ∈ s.threadPool, fd' ∈ w.clientFdsNew) hpool
      (fun w hw fd' hfd' => Or.inr ⟨w, hw, hfd'⟩) (fun hv fd' hfd' => ?_) w' hw
    rcases List.mem_append.1 hfd' with hfd' | hfd'
    · exact hv hfd'
    · exact Or.inl (congrArg ServerStep.accept (List.mem_singleton.1 hfd').symm)
  | @grown fd rest hfree hfull hrest =>
    intro fd' hfd'
    simp only [List.mem_append, List.mem_cons] at hw
    rcases hw with hw | rfl | hw
    · exact Or.inr ⟨w', hw, hfd'⟩
    · exact Or.inl (congrArg ServerStep.accept (List.mem_singleton.1 hfd').symm)
    · obtain ⟨id, rfl⟩ := hrest w' hw
      cases hfd'
  | @taken i l r v hpool =>
    intro fd' hfd'
    refine Or.inr (forall_replace (P := fun w' => fd' ∈ w'.clientFdsNew →
      ∃ w ∈ s.threadPool, fd' ∈ w.clientFdsNew) hpool (fun w hw hfd' => ⟨w, hw, hfd'⟩)
      (fun _ hfd' => by cases hfd') w' hw hfd')
  | @closed i fd l r v hpool =>
    intro fd' hfd'
    exact Or.inr (forall_replace (v := v.closeClient fd) (P := fun w' => fd' ∈ w'.clientFdsNew →
      ∃ w ∈ s.threadPool, fd' ∈ w.clientFdsNew) hpool (fun w hw hfd' => ⟨w, hw, hfd'⟩)
      (fun hv hfd' => hv hfd') w' hw hfd')

theorem mem_connections_of_effect (h : Effect config s a s') (hfd : fd ∈ s'.connections) :
    a = .accept fd ∨ fd ∈ s.connections := by
  have haccept : ∀ {fd'}, fd ∈ s.connections ++ [fd'] →
      ServerStep.accept fd' = .accept fd ∨ fd ∈ s.connections := fun {fd'} hfd =>
    (List.mem_append.1 hfd).elim Or.inr fun hsame =>
      Or.inl (congrArg ServerStep.accept (List.mem_singleton.1 hsame).symm)
  cases h with
  | given => exact haccept hfd
  | grown => exact haccept hfd
  | taken => exact Or.inr hfd
  | closed => exact Or.inr (List.mem_of_mem_erase hfd)

theorem Inv.started (h : s.Inv) (hw : s.threadPool[j]? = some w) (hfd : fd ∈ w.registered) :
    w.started = true := by
  cases hstarted : w.started with
  | true => rfl
  | false =>
    rw [(h.counted w (List.mem_of_getElem? hw)).idle hstarted] at hfd
    cases hfd

theorem Inv.not_waits (h : s.Inv) (hw : s.threadPool[j]? = some w) (hfd : fd ∈ w.registered)
    (hw' : w' ∈ s.threadPool) : fd ∉ w'.clientFdsNew := by
  intro hfd'
  obtain ⟨k, hk⟩ := List.mem_iff_getElem?.1 hw'
  obtain rfl := h.index_eq hw hk (List.mem_append_left _ hfd) (List.mem_append_right _ hfd')
  obtain rfl := Option.some.inj (hw.symm.trans hk)
  have hnodup := (List.nodup_flatMap.1 h.clients_nodup).1 w hw'
  exact (List.nodup_append.1 hnodup).2.2 fd hfd fd hfd' rfl

end ServerState

/-! ## The clients -/

/-- A client that was accepted remains so, and one to which nothing was written is still waiting. -/
def Clients.Keeps (c c' : Clients) : Prop := ∀ fd,
  ((c.peers fd).accepted = true → (c'.peers fd).accepted = true) ∧
    ((c.peers fd).connection.toClient = [] → (c'.peers fd).connection.toClient = [] ∧
      ∀ x, (c.peers fd).call = some x → (c'.peers fd).call = some x)

section Keeps

variable {c c' : Clients} {fd : Nat}

theorem Clients.Keeps.refl (c : Clients) : c.Keeps c := fun _ => ⟨id, fun h => ⟨h, fun _ => id⟩⟩

theorem Clients.keeps_of_update {p : Peer} (hpeers : c'.peers = Function.update c.peers fd p)
    (haccepted : (c.peers fd).accepted = true → p.accepted = true)
    (hwaits : (c.peers fd).connection.toClient = [] → p.connection.toClient = [] ∧
      ∀ x, (c.peers fd).call = some x → p.call = some x) : c.Keeps c' := by
  intro fd'
  rw [hpeers]
  by_cases hfd : fd' = fd
  · rw [hfd, Function.update_self]
    exact ⟨haccepted, hwaits⟩
  · rw [Function.update_of_ne hfd]
    exact Keeps.refl c fd'

variable (c fd)

theorem Clients.accept_keeps : c.Keeps (c.accept fd) :=
  keeps_of_update rfl (fun _ => rfl) fun h => ⟨h, fun _ => id⟩

theorem Clients.call_keeps (clientCall : ClientCall) : c.Keeps (c.call fd clientCall) := by
  rw [call]
  split_ifs with hfree
  · refine keeps_of_update rfl id fun h => ⟨h, fun x hx => ?_⟩
    rw [hfree.1] at hx
    cases hx
  · exact Keeps.refl c

theorem Clients.write_keeps : c.Keeps (c.write fd) := by
  rw [write]
  split
  · exact Keeps.refl c
  · exact keeps_of_update rfl id fun h => ⟨h, fun _ => id⟩

theorem Clients.close_keeps : c.Keeps (c.close fd) := by
  rw [close]
  split_ifs
  · exact keeps_of_update rfl id fun h => ⟨h, fun _ => id⟩
  · exact Keeps.refl c

theorem Clients.receive_keeps (worker : Worker) :
    Ensures (c.receive fd worker) (Clients.Keeps c) := by
  by_cases hnothing : (c.peers fd).connection.toClient = []
  · -- it waits
    rw [receive]
    dsimp only
    split
    · exact Ensures.ok (Keeps.refl c)
    · split_ifs
      · exact Ensures.ok (Keeps.refl c)
      · rw [Session.readResponse_nothing hnothing]
        exact Ensures.ok (Keeps.refl c)
  · refine (c.receive_cases fd worker).mono fun c' hc' => ?_
    rcases hc' with rfl | ⟨-, client, toClient, e, rfl⟩
    · exact Keeps.refl _
    · exact keeps_of_update rfl id fun h => absurd h hnothing

end Keeps

/-! ## What a step of the server can do -/

/-- The effect of a step: of a worker that was started, of the main thread, or of the clients. -/
inductive ServerEffect (config : ServerConfig) (s : Server) : ServerMove → Server → Prop
  | stays {m : ServerMove} : ServerEffect config s m s
  | works {i : Nat} {events : List EpollEvent} {info : WorkerThreadInfo} {s' : Server}
      (hinfo : s.main.threadPool[i]? = some info) (hstarted : info.started = true)
      (heffect : WorkerEffect config s i info s') : ServerEffect config s (.worker i events) s'
  | accepts {fd : Nat} (hfree : (s.peers fd).accepted = false) :
      ServerEffect config s (.accept fd)
        { s.dispatch config (.accept fd) with toClients := s.accept fd }
  | moves {m : ServerMove} {c : Clients} (hkeeps : s.toClients.Keeps c) :
      ServerEffect config s m { s with toClients := c }

theorem Server.effect_of_step {config : ServerConfig} {s : Server} {m : ServerMove} :
    Ensures (s.step config m) (ServerEffect config s m) := by
  cases m with
  | worker i events =>
    refine effect_of_runWorker.mono fun s' heffect => ?_
    rcases heffect with rfl | ⟨info, hinfo, hstarted, heffect⟩
    · exact .stays
    · exact .works hinfo hstarted heffect
  | accept fd =>
    rw [Server.step, acceptClient]
    split_ifs with hfree
    · exact Ensures.ok (.accepts hfree)
    · exact Ensures.ok .stays
  | call fd c => exact Ensures.ok (.moves (s.toClients.call_keeps fd c))
  | write fd => exact Ensures.ok (.moves (s.toClients.write_keeps fd))
  | receive fd =>
    exact (s.toClients.receive_keeps fd _).bind fun c hkeeps => Ensures.ok (.moves hkeeps)
  | close fd => exact Ensures.ok (.moves (s.toClients.close_keeps fd))

/-! ## Where the clients are -/

/-- Each worker serves clients of its own epoll set, each of them once. Nothing was written to a
client that waits for a worker, or for the main thread. -/
structure Server.Attached (s : Server) : Prop where
  main : s.main.Inv
  accepted : ∀ fd ∈ s.main.connections, (s.peers fd).accepted = true
  served : ∀ i, ∀ fd ∈ (s.threads i).pc.fds, ∃ w, s.main.threadPool[i]? = some w ∧
    fd ∈ w.registered
  nodup : ∀ i, (s.threads i).pc.fds.Nodup
  waiting : ∀ w ∈ s.main.threadPool, ∀ fd ∈ w.clientFdsNew,
    (s.peers fd).connection.toClient = []
  unaccepted : ∀ fd, (s.peers fd).accepted = false → (s.peers fd).connection.toClient = []

namespace Server

variable {config : ServerConfig} {s s' : Server} {i fd : Nat} {a : ServerStep}
  {info : WorkerThreadInfo}

/-- A step of the dispatch is one of the main thread's state, or not possible. -/
theorem dispatch_effect (s : Server) (hinv : s.main.Inv) : s.dispatch config a = s ∨
    ∃ main, ServerState.Effect config s.main a main ∧
      s.dispatch config a = { s with main := main } := by
  rw [dispatch]
  split
  · rename_i main hstep
    exact Or.inr ⟨main, ServerState.effect_of_step hinv.iter hstep, rfl⟩
  · exact Or.inl rfl

theorem dispatch_cache : (s.dispatch config a).cache = s.cache := by
  rw [dispatch]
  split <;> rfl

theorem dispatch_goto {pc : WorkerPc} :
    (s.dispatch config a).goto i pc = (s.goto i pc).dispatch config a := by
  simp only [dispatch, goto]
  split <;> rfl

theorem dispatch_toClients (c : Clients) :
    { s.dispatch config a with toClients := c } =
      ({ s with toClients := c } : Server).dispatch config a := by
  simp only [dispatch]
  split <;> rfl

namespace Attached

theorem start (config : ServerConfig) (state : KVState) (messages : Nat → KVMessage)
    (clients : Nat → Client) : (Server.start config state messages clients).Attached where
  main := ServerState.inv_start
  accepted _ hfd := by cases hfd
  served _ _ hfd := by cases hfd
  nodup _ := List.nodup_nil
  waiting w hw fd hfd := by
    obtain ⟨id, rfl⟩ := ServerState.mem_startWorkers hw
    cases hfd
  unaccepted _ _ := rfl

theorem of_clients (h : s.Attached) {c : Clients} (hc : s.toClients.Keeps c) :
    Attached { s with toClients := c } where
  main := h.main
  accepted fd hfd := (hc fd).1 (h.accepted fd hfd)
  served := h.served
  nodup := h.nodup
  waiting w hw fd hfd := ((hc fd).2 (h.waiting w hw fd hfd)).1
  unaccepted fd hfd := by
    cases hold : (s.peers fd).accepted with
    | true => rw [(hc fd).1 hold] at hfd; cases hfd
    | false => exact ((hc fd).2 (h.unaccepted fd hold)).1

/-- A worker that is going to serve these clients. -/
theorem of_thread (h : s.Attached) {w : WorkerThread} {σ : SharedCache}
    (hserved : ∀ fd ∈ w.pc.fds, ∃ info, s.main.threadPool[i]? = some info ∧ fd ∈ info.registered)
    (hnodup : w.pc.fds.Nodup) :
    Attached { s with threads := Function.update s.threads i w, cache := σ } := by
  refine ⟨h.main, h.accepted, ?_, ?_, h.waiting, h.unaccepted⟩
  · intro j fd hfd
    by_cases hj : j = i
    · rw [hj]
      rw [hj] at hfd
      simp only [Function.update_self] at hfd
      exact hserved fd hfd
    · simp only [Function.update_of_ne hj] at hfd
      exact h.served j fd hfd
  · intro j
    by_cases hj : j = i
    · rw [hj]
      simp only [Function.update_self]
      exact hnodup
    · simp only [Function.update_of_ne hj]
      exact h.nodup j

theorem of_sublist (h : s.Attached) {w : WorkerThread} {σ : SharedCache}
    (hfds : w.pc.fds.Sublist (s.threads i).pc.fds) :
    Attached { s with threads := Function.update s.threads i w, cache := σ } :=
  h.of_thread (fun fd hfd => h.served i fd (hfds.subset hfd)) ((h.nodup i).sublist hfds)

theorem of_served (h : s.Attached) (connection : Connection) (hfd : fd ∈ (s.threads i).pc.fds) :
    Attached { s with toClients := s.setPeer fd { s.peers fd with connection := connection } } := by
  obtain ⟨w, hw, hreg⟩ := h.served i fd hfd
  have hconn : fd ∈ s.main.connections := h.main.held.mem_iff.1
    (List.mem_flatMap.2 ⟨w, List.mem_of_getElem? hw, List.mem_append_left _ hreg⟩)
  have hothers : ∀ {fd'}, fd' ≠ fd → Function.update s.peers fd
      { s.peers fd with connection := connection } fd' = s.peers fd' := fun hne =>
    Function.update_of_ne hne ..
  refine ⟨h.main, ?_, h.served, h.nodup, ?_, ?_⟩
  · intro fd' hfd'
    change (Function.update s.peers fd _ fd').accepted = true
    by_cases hne : fd' = fd
    · rw [hne, Function.update_self]
      exact h.accepted fd hconn
    · rw [hothers hne]
      exact h.accepted fd' hfd'
  · intro w' hw' fd' hfd'
    change (Function.update s.peers fd _ fd').connection.toClient = []
    have hne : fd' ≠ fd := fun hsame => h.main.not_waits hw hreg hw' (hsame ▸ hfd')
    rw [hothers hne]
    exact h.waiting w' hw' fd' hfd'
  · intro fd' hfd'
    change (Function.update s.peers fd _ fd').accepted = false at hfd'
    change (Function.update s.peers fd _ fd').connection.toClient = []
    by_cases hne : fd' = fd
    · rw [hne, Function.update_self] at hfd'
      rw [h.accepted fd hconn] at hfd'
      cases hfd'
    · rw [hothers hne] at hfd' ⊢
      exact h.unaccepted fd' hfd'

/-- **A step of the dispatch.** -/
theorem of_dispatch (h : s.Attached)
    (haccept : ∀ fd, a = .accept fd → (s.peers fd).accepted = true ∧
      (s.peers fd).connection.toClient = [])
    (hends : ∀ i fd, a = .disconnect i fd → fd ∉ (s.threads i).pc.fds) :
    (s.dispatch config a).Attached := by
  rcases s.dispatch_effect h.main with hsame | ⟨main, heffect, hdispatch⟩
  · rw [hsame]
    exact h
  · rw [hdispatch]
    refine ⟨h.main.of_effect heffect, ?_, ?_, h.nodup, ?_, h.unaccepted⟩
    · intro fd hfd
      rcases ServerState.mem_connections_of_effect heffect hfd with ha | hold
      · exact (haccept fd ha).1
      · exact h.accepted fd hold
    · intro i fd hfd
      obtain ⟨w, hw, hreg⟩ := h.served i fd hfd
      obtain ⟨w', hw', -, hkeep, -⟩ := ServerState.worker_of_effect heffect hw
      exact ⟨w', hw', hkeep fd hreg fun ha => hends i fd ha hfd⟩
    · intro w' hw' fd hfd
      rcases ServerState.waits_of_effect heffect hw' hfd with ha | ⟨w, hw, hold⟩
      · exact (haccept fd ha).2
      · exact h.waiting w hw fd hold

/-- **A step of a worker.** -/
theorem of_worker (h : s.Attached) (hinfo : s.main.threadPool[i]? = some info)
    (heffect : WorkerEffect config s i info s') : s'.Attached := by
  cases heffect with
  | stays => exact h
  | polls hnodup hready =>
    refine h.of_thread (fun fd hfd => ?_) hnodup
    obtain ⟨e, he, rfl⟩ := List.mem_map.1 hfd
    exact ⟨info, hinfo, (hready e he).1⟩
  | goes hfds hclients hcache =>
    cases hclients with
    | same => exact h.of_sublist hfds
    | served connection hfd => exact (h.of_served connection hfd).of_sublist hfds
  | @ends e rest hpc =>
    have hfds : (s.threads i).pc.fds = e.fd :: rest.map EpollEvent.fd := by rw [hpc]; rfl
    have hgoto : (s.goto i (.serving rest)).Attached := h.of_sublist (by
      rw [hfds]
      exact List.sublist_cons_self ..)
    rw [dispatch_goto]
    refine hgoto.of_dispatch (fun fd ha => by cases ha) fun j fd ha => ?_
    obtain ⟨rfl, rfl⟩ := ServerStep.disconnect.inj ha
    have hnodup := h.nodup i
    rw [hfds] at hnodup
    simp only [goto, Function.update_self]
    exact (List.nodup_cons.1 hnodup).1
  | takesNew =>
    have hgoto : (s.goto i .polling).Attached := h.of_sublist (List.nil_sublist _)
    rw [dispatch_goto]
    exact hgoto.of_dispatch (fun fd ha => by cases ha) fun j fd ha => by cases ha

/-- **Every step keeps the clients with their workers.** -/
theorem of_step (h : s.Attached) {m : ServerMove} :
    Ensures (s.step config m) Attached := by
  intro s' hs'
  cases effect_of_step s' hs' with
  | stays => exact h
  | works hinfo hstarted heffect => exact h.of_worker hinfo heffect
  | @accepts fd hfree =>
    rw [dispatch_toClients]
    refine (h.of_clients (s.toClients.accept_keeps fd)).of_dispatch (fun fd' ha => ?_)
      fun j fd' ha => by cases ha
    obtain rfl := ServerStep.accept.inj ha
    have hpeer : (s.toClients.accept fd).peers fd = { s.peers fd with accepted := true } :=
      Function.update_self ..
    change ((s.toClients.accept fd).peers fd).accepted = true ∧
      ((s.toClients.accept fd).peers fd).connection.toClient = []
    rw [hpeer]
    exact ⟨rfl, h.unaccepted fd hfree⟩
  | moves hkeeps => exact h.of_clients hkeeps

end Attached

end Server

/-! ## Runs -/

variable {config : ServerConfig} {state : KVState} {messages : Nat → KVMessage}
  {clients : Nat → Client} {moves moves' : List ServerMove} {s s' : Server}

theorem attached_of_run
    (hrun : run (Server.step config) (.start config state messages clients) moves = .ok s) :
    s.Attached :=
  run_preserves (fun _ _ s' h hstep => h.of_step s' hstep) (Server.Attached.start ..) hrun

/-- **No client is served by two workers**, and a worker serves only clients of its own epoll set.
So what a client writes is read by one worker, in the order in which it was written. -/
theorem server_one_worker
    (hrun : run (Server.step config) (.start config state messages clients) moves = .ok s) :
    (∀ i, ∀ fd ∈ (s.threads i).pc.fds, ∃ w, s.main.threadPool[i]? = some w ∧ w.started = true ∧
      fd ∈ w.registered) ∧
    ∀ i j fd, fd ∈ (s.threads i).pc.fds → fd ∈ (s.threads j).pc.fds → j = i := by
  have h := attached_of_run hrun
  constructor
  · intro i fd hfd
    obtain ⟨w, hw, hreg⟩ := h.served i fd hfd
    exact ⟨w, hw, h.main.started hw hreg, hreg⟩
  · intro i j fd hi hj
    obtain ⟨w, hw, hregw⟩ := h.served i fd hi
    obtain ⟨v, hv, hregv⟩ := h.served j fd hj
    exact h.main.index_eq hw hv (List.mem_append_left _ hregw) (List.mem_append_left _ hregv)

/-- Both workers have an event at once. -/
theorem server_one_worker_two : ∃ state s, KVState.start 2 (fun _ => none) = .ok state ∧
    run (Server.step ⟨2, 1, 5⟩) (.start ⟨2, 1, 5⟩ state (fun _ => .empty)
      fun _ => ⟨0, emptyString⟩) (overlappingPuts.take 18) = .ok s ∧
    (s.threads 0).pc.fds = [4] ∧ (s.threads 1).pc.fds = [5] ∧
      ∀ j, 4 ∈ (s.threads j).pc.fds → j = 0 := by
  have hcheck : returns (KVState.start 2 fun _ => none) (fun state =>
      returns (run (Server.step ⟨2, 1, 5⟩) (.start ⟨2, 1, 5⟩ state (fun _ => .empty)
        fun _ => ⟨0, emptyString⟩) (overlappingPuts.take 18)) fun s =>
          (s.threads 0).pc.fds == [4] && (s.threads 1).pc.fds == [5]) = true := by
    decide +kernel
  obtain ⟨state, hstate, hcheck⟩ := exists_of_returns hcheck
  obtain ⟨s, hrun, hcheck⟩ := exists_of_returns hcheck
  rw [Bool.and_eq_true] at hcheck
  have hfour : (s.threads 0).pc.fds = [4] := eq_of_beq hcheck.1
  refine ⟨state, s, hstate, hrun, hfour, eq_of_beq hcheck.2, ?_⟩
  intro j hj
  exact (server_one_worker hrun).2 0 j 4 (by rw [hfour]; exact List.mem_singleton_self 4) hj

/-! ## The parts of the server -/

namespace Server

variable {a : ServerStep} {m : ServerMove} {i : Nat} {info : WorkerThreadInfo}

theorem dispatch_step : (s.dispatch config a).main = s.main ∨
    s.main.step config a = .ok (s.dispatch config a).main := by
  rw [dispatch]
  split
  · rename_i hstep
    exact Or.inr hstep
  · exact Or.inl rfl

/-- **The parts in a step of the server**: the cache takes a step of one of its threads, or the main
thread's state one of the dispatch, or neither. -/
theorem parts_of_step (hun : s.Undisturbed m) : Ensures (s.step config m) fun s' =>
    (s'.cache = s.cache ∨ ∃ a, s.cache.Undisturbed a ∧ s.cache.step a = .ok s'.cache) ∧
      (s'.main = s.main ∨ ∃ a, s.main.step config a = .ok s'.main) := by
  have hdispatch : ∀ a, (s.dispatch config a).main = s.main ∨
      ∃ a', s.main.step config a' = .ok (s.dispatch config a).main := fun a =>
    dispatch_step.imp_right fun hstep => ⟨a, hstep⟩
  intro s' hs'
  cases effect_of_step s' hs' with
  | stays => exact ⟨Or.inl rfl, Or.inl rfl⟩
  | @works i _ _ _ hinfo hstarted heffect =>
    cases heffect with
    | stays => exact ⟨Or.inl rfl, Or.inl rfl⟩
    | polls => exact ⟨Or.inl rfl, Or.inl rfl⟩
    | goes hfds hclients hcache =>
      refine ⟨?_, Or.inl rfl⟩
      cases hcache with
      | same => exact Or.inl rfl
      | called op ptr => exact Or.inr ⟨.invoke i op ptr, ⟨trivial, trivial, trivial⟩, rfl⟩
      | ran hpc hstep => exact Or.inr ⟨.run i, hun _ _ hpc, hstep⟩
    | ends => exact ⟨Or.inl dispatch_cache, hdispatch _⟩
    | takesNew => exact ⟨Or.inl dispatch_cache, hdispatch _⟩
  | accepts => exact ⟨Or.inl dispatch_cache, hdispatch _⟩
  | moves => exact ⟨Or.inl rfl, Or.inl rfl⟩

end Server

/-- **In a run of the server, the cache runs its threads and the main thread its dispatch.** What is
proved of their runs holds in the server, with the same condition on the steps of the cache. -/
theorem server_runs
    (hun : Meets (Server.step config) Server.Undisturbed (.start config state messages clients)
      moves)
    (hrun : run (Server.step config) (.start config state messages clients) moves = .ok s) :
    (∃ as, Meets SharedCache.step SharedCache.Undisturbed (.start state) as ∧
      run SharedCache.step (.start state) as = .ok s.cache) ∧
    ∃ as, run (ServerState.step config) (.start config) as = .ok s.main := by
  have hmain : ∃ as, Meets (ServerState.step config) (fun _ _ => True) (.start config) as ∧
      run (ServerState.step config) (.start config) as = .ok s.main :=
    run_projects (f := Server.main) (fun s m s' hun hstep =>
      (Server.parts_of_step hun s' hstep).2.imp_right fun ⟨a, ha⟩ => ⟨a, trivial, ha⟩) hun hrun
  obtain ⟨as, -, hmain⟩ := hmain
  exact ⟨run_projects (f := Server.cache) (fun s m s' hun hstep =>
    (Server.parts_of_step hun s' hstep).1) hun hrun, as, hmain⟩

theorem server_runs_two : ∃ state s, KVState.start 2 (fun _ => none) = .ok state ∧
    run (Server.step ⟨2, 1, 5⟩) (.start ⟨2, 1, 5⟩ state (fun _ => .empty)
      fun _ => ⟨0, emptyString⟩) overlappingPuts = .ok s ∧
    (∃ as, Meets SharedCache.step SharedCache.Undisturbed (.start state) as ∧
      run SharedCache.step (.start state) as = .ok s.cache) ∧
    ∃ as, run (ServerState.step ⟨2, 1, 5⟩) (.start ⟨2, 1, 5⟩) as = .ok s.main := by
  obtain ⟨state, s, hstate, hun, hrun, -⟩ := overlappingPuts_run
  exact ⟨state, s, hstate, hrun, server_runs hun hrun⟩

/-! ## A client that nobody serves -/

/-- The client waits for a worker that was not started. -/
def Server.Waits (s : Server) (i fd : Nat) : Prop :=
  ∃ w, s.main.threadPool[i]? = some w ∧ w.started = false ∧ fd ∈ w.clientFdsNew

namespace Server

variable {i fd : Nat} {a : ServerStep} {m : ServerMove}

theorem Waits.of_dispatch (h : s.Waits i fd) (hinv : s.main.Inv) :
    (s.dispatch config a).Waits i fd := by
  rcases s.dispatch_effect hinv with hsame | ⟨main, heffect, hdispatch⟩
  · rw [hsame]
    exact h
  · obtain ⟨w, hw, hstopped, hfd⟩ := h
    obtain ⟨w', hw', hstarted, -, hkeep⟩ := ServerState.worker_of_effect heffect hw
    rw [hdispatch]
    exact ⟨w', hw', hstarted.trans hstopped, hkeep hstopped fd hfd⟩

theorem Waits.of_step (h : s.Waits i fd) (hinv : s.main.Inv) :
    Ensures (s.step config m) fun s' => s'.Waits i fd := by
  intro s' hs'
  cases effect_of_step s' hs' with
  | stays => exact h
  | works hinfo hstarted heffect =>
    cases heffect with
    | stays => exact h
    | polls => exact h
    | goes => exact h
    | ends => exact h.of_dispatch hinv
    | takesNew => exact h.of_dispatch hinv
  | accepts => exact h.of_dispatch hinv
  | moves => exact h

/-- No step but its own ends a client's call, and that only when the server has written to it. -/
theorem call_of_step (hwaits : (s.peers fd).connection.toClient = []) {x : Nat × ClientCall}
    (hx : (s.peers fd).call = some x) :
    Ensures (s.step config m) fun s' => (s'.peers fd).call = some x := by
  have hcall : ∀ {c : Clients}, s.toClients.Keeps c → (c.peers fd).call = some x :=
    fun hkeeps => ((hkeeps fd).2 hwaits).2 x hx
  have hdispatch : ∀ a, ((s.dispatch config a).peers fd).call = some x := by
    intro a
    rw [dispatch]
    split <;> exact hx
  intro s' hs'
  cases effect_of_step s' hs' with
  | stays => exact hx
  | works hinfo hstarted heffect =>
    cases heffect with
    | stays => exact hx
    | polls => exact hx
    | goes hfds hclients hcache =>
      cases hclients with
      | same => exact hx
      | @served fd' connection hfd' =>
        change (Function.update s.peers fd' _ fd).call = some x
        by_cases hne : fd = fd'
        · rw [← hne, Function.update_self]
          exact hx
        · rwa [Function.update_of_ne hne]
    | ends => exact hdispatch _
    | takesNew => exact hdispatch _
  | @accepts fd' hfree => exact hcall (s.toClients.accept_keeps fd')
  | moves hkeeps => exact hcall hkeeps

end Server

/-- **A client that was handed to a worker which is not running is never answered**, whatever the
main thread, the workers and the clients do. -/
theorem server_starves
    (hrun : run (Server.step config) (.start config state messages clients) moves = .ok s)
    {i fd : Nat} {w : WorkerThreadInfo} (hw : s.main.threadPool[i]? = some w)
    (hstopped : w.started = false) (hfd : fd ∈ w.clients)
    (hrun' : run (Server.step config) s moves' = .ok s') :
    (s'.peers fd).connection.toClient = [] ∧
      ∀ x, (s.peers fd).call = some x → (s'.peers fd).call = some x := by
  have h := attached_of_run hrun
  have hnone : w.registered = [] := (h.main.counted w (List.mem_of_getElem? hw)).idle hstopped
  rw [WorkerThreadInfo.clients, hnone, List.nil_append] at hfd
  have hstep : ∀ s₁ m s₂, (s₁.Attached ∧ s₁.Waits i fd ∧
      ∀ x, (s.peers fd).call = some x → (s₁.peers fd).call = some x) →
      Server.step config s₁ m = .ok s₂ → s₂.Attached ∧ s₂.Waits i fd ∧
        ∀ x, (s.peers fd).call = some x → (s₂.peers fd).call = some x := by
    intro s₁ m s₂ hI hstep
    obtain ⟨h₁, hwaits, hcall⟩ := hI
    refine ⟨h₁.of_step s₂ hstep, hwaits.of_step h₁.main s₂ hstep, ?_⟩
    intro x hx
    obtain ⟨w₁, hw₁, -, hfd₁⟩ := hwaits
    exact Server.call_of_step (h₁.waiting w₁ (List.mem_of_getElem? hw₁) fd hfd₁) (hcall x hx) s₂
      hstep
  obtain ⟨h', ⟨w', hw', -, hfd'⟩, hcall⟩ :=
    run_preserves hstep ⟨h, ⟨w, hw, hstopped, hfd⟩, fun _ => id⟩ hrun'
  exact ⟨h'.waiting w' (List.mem_of_getElem? hw') fd hfd', hcall⟩

/-- One worker with room for one client, and growth by two: the third client is handed to the second
of the new workers, and calls GET. -/
def unservedGet : List ServerMove :=
  [.accept 4, .worker 0 [], .worker 0 [], .worker 0 [], .accept 5, .worker 1 [], .worker 1 [],
    .worker 1 [], .accept 6, .call 6 (.get (entry 97 0))]

/-- The request is written, and the workers go on. -/
def stillUnserved : List ServerMove :=
  [.write 6, .write 6, .worker 0 [], .worker 1 [], .worker 2 [], .worker 2 [⟨6, false⟩],
    .worker 2 [], .receive 6]

theorem server_starves_third : ∃ state s s' x, KVState.start 2 (fun _ => none) = .ok state ∧
    run (Server.step ⟨1, 2, 1⟩) (.start ⟨1, 2, 1⟩ state (fun _ => .empty)
      fun _ => ⟨0, emptyString⟩) unservedGet = .ok s ∧ (s.peers 6).call = some x ∧
    run (Server.step ⟨1, 2, 1⟩) s stillUnserved = .ok s' ∧
    (s'.peers 6).connection.toClient = [] ∧ (s'.peers 6).call = some x := by
  have hcheck : returns (KVState.start 2 fun _ => none) (fun state =>
      returns (run (Server.step ⟨1, 2, 1⟩) (.start ⟨1, 2, 1⟩ state (fun _ => .empty)
        fun _ => ⟨0, emptyString⟩) unservedGet) fun s =>
          ((s.peers 6).call.isSome && (s.main.threadPool[2]?).any fun w =>
            !w.started && decide (6 ∈ w.clients)) &&
          returns (run (Server.step ⟨1, 2, 1⟩) s stillUnserved) fun _ => true) = true := by
    decide +kernel
  obtain ⟨state, hstate, hcheck⟩ := exists_of_returns hcheck
  obtain ⟨s, hrun, hcheck⟩ := exists_of_returns hcheck
  rw [Bool.and_eq_true, Bool.and_eq_true] at hcheck
  obtain ⟨⟨hcall, hworker⟩, hreturns⟩ := hcheck
  obtain ⟨x, hx⟩ := Option.isSome_iff_exists.1 hcall
  obtain ⟨w, hw, hlost⟩ := (Option.any_eq_true _ _).1 hworker
  rw [Bool.and_eq_true, Bool.not_eq_true', decide_eq_true_eq] at hlost
  obtain ⟨s', hrun', -⟩ := exists_of_returns hreturns
  obtain ⟨hnothing, hkeep⟩ := server_starves hrun hw hlost.1 hlost.2 hrun'
  exact ⟨state, s, s', x, hstate, hrun, hx, hrun', hnothing, hkeep x hx⟩

end KeyValueStore
