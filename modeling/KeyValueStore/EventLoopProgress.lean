import KeyValueStore.DispatcherRuns
import KeyValueStore.EventLoopRuns
import Mathlib.Data.List.Dedup

/-!
# No call hangs

A worker that has begun to read a request waits for the rest of it, and all its other clients wait
with it. So a call may take as long as the slowest client needs to write what it has begun. But it
never takes more, unless a connection has failed: from every state that can be reached, the worker
and writes that are due lead to the response, whatever `epoll_wait` reports (`event_loop_answers`).
Each report that is not empty leaves fewer connections to be read (`EventLoop.backlog`), so the turn
of every client comes.

A descriptor that has failed is never closed. It is reported again and again, and ends the batch it
is reported in, so it can keep the worker from its other clients for ever
(`failed_starves`).

For all this the worker must not lose sight of a client. `Orderly` says that it knows every client
that was accepted and has not closed its connection, and that each event it has still to serve is
for a descriptor of its epoll set, and has failed or finds something to read.
-/

namespace KeyValueStore

open Linearizability Run WorkerThreadInfo

/-- The worker goes on, or a client with what it has begun. -/
def LoopStep.Finishing : LoopStep → Prop
  | .worker _ => True
  | .write _ => True
  | .receive _ => True
  | _ => False

/-! ## The worker's view -/

/-- The worker knows its clients, and its events can be served. -/
structure Orderly (s : EventLoop) : Prop where
  distinct : (s.pc.events.map EpollEvent.fd).Nodup
  readable : ∀ e ∈ s.pc.events, e.failed = false → s.Readable e.fd
  inHand : ∀ e ∈ s.pc.events, e.fd ∈ s.info.registered ∧ (e.failed = true → s.failed e.fd = true)
  listed : ∀ fd, (s.peers fd).accepted = true → (s.peers fd).closed = false → fd ∈ s.info.clients

/-- The client has been accepted, and its connection is open. -/
def Connected (fd : Nat) (s : EventLoop) : Prop :=
  (s.peers fd).accepted = true ∧ (s.peers fd).closed = false

/-- No connection that the worker is responsible for has failed. -/
def NoneFailed (s : EventLoop) : Prop := ∀ fd ∈ s.info.clients, s.failed fd = false

variable {s s' s₀ : EventLoop} {config : ServerConfig} {n : Nat} {d₀ : Dict} {fd : Nat}

/-- A step of one client, after which the worker can read from it as before. -/
theorem Orderly.of_peer (h : Orderly s) {p : Peer} (hpc : s'.pc = s.pc) (hinfo : s'.info = s.info)
    (hfailed : ∀ fd, s.failed fd = true → s'.failed fd = true)
    (hpeers : s'.peers = Function.update s.peers fd p)
    (hread : s.Readable fd → p.connection.toServer ≠ [] ∨ p.closed = true)
    (hconn : p.accepted = true → p.closed = false → Connected fd s) : Orderly s' := by
  have hreadable : ∀ fd', s.Readable fd' → s'.Readable fd' := by
    intro fd' hfd'
    rw [EventLoop.Readable, hpeers]
    by_cases hsame : fd' = fd
    · rw [hsame, Function.update_self]
      exact hread (hsame ▸ hfd')
    · rw [Function.update_of_ne hsame]
      exact hfd'
  refine ⟨hpc ▸ h.distinct, fun e he hok => hreadable e.fd (h.readable e (hpc ▸ he) hok),
    fun e he => ?_, fun fd' hacc hopen => ?_⟩
  · have hhand := h.inHand e (hpc ▸ he)
    rw [hinfo]
    exact ⟨hhand.1, fun hf => hfailed e.fd (hhand.2 hf)⟩
  · rw [hpeers] at hacc hopen
    rw [hinfo]
    by_cases hsame : fd' = fd
    · rw [hsame, Function.update_self] at hacc hopen
      rw [hsame]
      exact h.listed fd (hconn hacc hopen).1 (hconn hacc hopen).2
    · rw [Function.update_of_ne hsame] at hacc hopen
      exact h.listed fd' hacc hopen

namespace EventLoop

theorem start_orderly (message : KVMessage) (state : KVState) (threadId : Nat)
    (clients : Nat → Client) : Orderly (start message state threadId clients) where
  distinct := List.nodup_nil
  readable e he := by cases he
  inHand e he := by cases he
  listed fd hacc := by cases hacc

theorem accept_orderly (h : Orderly s) (fd : Nat) : Orderly (s.accept config fd) := by
  rw [accept]
  split_ifs
  · refine ⟨h.distinct, ?_, h.inHand, ?_⟩
    · intro e he hok
      have hread := h.readable e he hok
      by_cases hsame : e.fd = fd
      · rw [Readable, hsame] at hread ⊢
        simp only [Clients.accept, Clients.setPeer_self]
        exact hread
      · simp only [Readable, Clients.accept, Clients.setPeer_of_ne hsame]
        exact hread
    · intro fd' hacc hopen
      show fd' ∈ (s.info.pushNew fd).clients
      rw [clients_pushNew]
      by_cases hsame : fd' = fd
      · exact List.mem_append_right _ (List.mem_singleton.2 hsame)
      · simp only [Clients.accept, Clients.setPeer_of_ne hsame] at hacc hopen
        exact List.mem_append_left _ (h.listed fd' hacc hopen)
  · exact h

theorem call_orderly (h : Orderly s) (fd : Nat) (c : ClientCall) :
    Orderly { s with toClients := s.call fd c } := by
  rw [Clients.call]
  split_ifs
  · exact h.of_peer rfl rfl (fun _ => id) rfl id fun hacc hopen => ⟨hacc, hopen⟩
  · exact h

theorem write_orderly (h : Orderly s) (fd : Nat) :
    Orderly { s with toClients := s.write fd } := by
  rw [Clients.write]
  split
  · exact h
  · refine h.of_peer rfl rfl (fun _ => id) rfl (fun hread => hread.imp_left fun hne => ?_)
      fun hacc hopen => ⟨hacc, hopen⟩
    exact List.append_ne_nil_of_left_ne_nil hne _

theorem receive_orderly (h : Orderly s) (fd : Nat) :
    Ensures (s.receive fd s.worker) fun c => Orderly { s with toClients := c } := by
  refine (s.receive_cases fd s.worker).mono fun c hc => ?_
  rcases hc with rfl | ⟨-, client, toClient, e, rfl⟩
  · exact h
  · exact h.of_peer rfl rfl (fun _ => id) rfl id fun hacc hopen => ⟨hacc, hopen⟩

theorem close_orderly (h : Orderly s) (fd : Nat) {failed : Nat → Bool}
    (hfailed : ∀ fd, s.failed fd = true → failed fd = true) :
    Orderly { s with toClients := s.close fd, failed := failed } := by
  have hclosed : ∀ p, Clients.close s.toClients fd = s.setPeer fd p → p.closed = true →
      Orderly { s with toClients := s.close fd, failed := failed } := by
    intro p hp hclosed
    rw [hp]
    refine h.of_peer rfl rfl hfailed rfl (fun _ => Or.inr hclosed) fun _ hopen => ?_
    rw [hclosed] at hopen
    cases hopen
  by_cases hcall : (s.peers fd).call = none
  · exact hclosed _ (if_pos hcall) rfl
  · rw [Clients.close, if_neg hcall]
    exact ⟨h.distinct, h.readable, fun e he => ⟨(h.inHand e he).1, fun hf =>
      hfailed e.fd ((h.inHand e he).2 hf)⟩, h.listed⟩

theorem fail_orderly (h : Orderly s) (fd : Nat) : Orderly (s.fail fd) := by
  rw [fail]
  split_ifs
  · refine close_orderly h fd fun fd' hf => ?_
    by_cases hsame : fd' = fd
    · rw [hsame, Function.update_self]
    · rwa [Function.update_of_ne hsame]
  · exact h

/-- What is left of a batch after an event has been served. -/
theorem serving_orderly (h : Orderly s) {e : EpollEvent} {rest : List EpollEvent}
    (hpc : s.pc = .serving (e :: rest)) (hpc' : s'.pc = .serving rest)
    (hfailed : s'.failed = s.failed) (hothers : ∀ fd ≠ e.fd, s'.peers fd = s.peers fd)
    (hregistered : ∀ fd ≠ e.fd, fd ∈ s.info.registered → fd ∈ s'.info.registered)
    (hlisted : ∀ fd, (s'.peers fd).accepted = true → (s'.peers fd).closed = false →
      fd ∈ s'.info.clients) : Orderly s' := by
  have hevents : s.pc.events = e :: rest := by rw [hpc]; rfl
  have hevents' : s'.pc.events = rest := by rw [hpc']; rfl
  have hdistinct := h.distinct
  rw [hevents, List.map_cons, List.nodup_cons] at hdistinct
  have hne : ∀ e' ∈ rest, e'.fd ≠ e.fd := fun e' he' hsame =>
    hdistinct.1 (List.mem_map.2 ⟨e', he', hsame⟩)
  have hmem : ∀ e' ∈ rest, e' ∈ s.pc.events := fun e' he' =>
    hevents ▸ List.mem_cons_of_mem e he'
  refine ⟨?_, ?_, ?_, hlisted⟩
  · rw [hevents']
    exact hdistinct.2
  · intro e' he' hok
    rw [hevents'] at he'
    rw [Readable, hothers _ (hne e' he')]
    exact h.readable e' (hmem e' he') hok
  · intro e' he'
    rw [hevents'] at he'
    rw [hfailed]
    exact ⟨hregistered _ (hne e' he') (h.inHand e' (hmem e' he')).1,
      (h.inHand e' (hmem e' he')).2⟩

theorem serveEvent_orderly (h : Orderly s) {e : EpollEvent} {rest : List EpollEvent}
    (hpc : s.pc = .serving (e :: rest)) : Ensures (s.serveEvent e.fd rest) Orderly := by
  rw [serveEvent]
  dsimp only
  split
  · split_ifs with hclosed
    · refine Ensures.ok (serving_orderly h hpc rfl rfl (fun _ _ => rfl)
        (fun fd hne hmem => (List.mem_erase_of_ne hne).2 hmem) fun fd hacc hopen => ?_)
      have hne : fd ≠ e.fd := by
        rintro rfl
        rw [hclosed] at hopen
        cases hopen
      have hmem := h.listed fd hacc hopen
      rw [clients, List.mem_append] at hmem
      show fd ∈ s.info.registered.erase e.fd ++ s.info.clientFdsNew
      rw [List.mem_append, List.mem_erase_of_ne hne]
      exact hmem
    · exact Ensures.ok h
  · split
    · exact Ensures.ok h
    · exact Ensures.error
    · refine Ensures.ok (serving_orderly h hpc rfl rfl (fun fd hne => ?_) (fun _ _ => id)
        fun fd hacc hopen => ?_)
      · exact Function.update_of_ne hne _ _
      · by_cases hsame : fd = e.fd
        · rw [hsame] at hacc hopen ⊢
          simp only [Clients.setPeer_self] at hacc hopen
          exact h.listed _ hacc hopen
        · simp only [Clients.setPeer_of_ne hsame] at hacc hopen
          exact h.listed fd hacc hopen

theorem epollWait_eq {events : List EpollEvent} (h : s.Reports config events) :
    s.epollWait config events = { s with pc := .serving events } := if_pos h

theorem reports_orderly (h : Orderly s) {events : List EpollEvent} (hr : s.Reports config events) :
    Orderly { s with pc := .serving events } := by
  obtain ⟨-, hdistinct, hready, -⟩ := hr
  refine ⟨hdistinct, fun e he hok => ?_, fun e he => ?_, h.listed⟩
  · obtain ⟨⟨-, hsome⟩, hflag⟩ := hready e he
    rw [← hflag, hok] at hsome
    exact hsome.resolve_left Bool.false_ne_true
  · obtain ⟨⟨hmem, -⟩, hflag⟩ := hready e he
    exact ⟨hmem, fun hf => hflag ▸ hf⟩

theorem runWorker_orderly (h : Orderly s) (events : List EpollEvent) :
    Ensures (s.runWorker config events) Orderly := by
  -- between two batches there are no events
  have hnone : ∀ {s'}, s'.peers = s.peers → (∀ fd, fd ∈ s.info.clients → fd ∈ s'.info.clients) →
      s'.pc.events = [] → Orderly s' := by
    intro s' hpeers hlisted hevents
    refine ⟨by rw [hevents]; exact List.nodup_nil, ?_, ?_, ?_⟩
    · intro e he
      rw [hevents] at he
      cases he
    · intro e he
      rw [hevents] at he
      cases he
    · intro fd hacc hopen
      rw [hpeers] at hacc hopen
      exact hlisted fd (h.listed fd hacc hopen)
  rw [runWorker]
  split
  · rw [epollWait]
    split_ifs with hr
    · exact Ensures.ok (reports_orderly h hr)
    · exact Ensures.ok h
  · exact Ensures.ok (hnone rfl (fun _ => id) rfl)
  · rename_i e rest hpc
    split_ifs
    · exact Ensures.ok (hnone rfl (fun _ => id) rfl)
    · exact serveEvent_orderly h hpc
  · refine Ensures.ok (hnone rfl (fun fd hfd => ?_) rfl)
    show fd ∈ s.info.takeNewClients.clients
    rwa [clients_takeNewClients]

theorem step_orderly (config : ServerConfig) (h : Orderly s) (a : LoopStep) :
    Ensures (s.step config a) Orderly := by
  cases a with
  | worker events => exact runWorker_orderly h events
  | accept fd => exact Ensures.ok (accept_orderly h fd)
  | call fd c => exact Ensures.ok (call_orderly h fd c)
  | write fd => exact Ensures.ok (write_orderly h fd)
  | receive fd => exact (receive_orderly h fd).bind fun _ hc => Ensures.ok hc
  | close fd => exact Ensures.ok (close_orderly h fd fun _ => id)
  | fail fd => exact Ensures.ok (fail_orderly h fd)

/-- All that is ready, in any order, cut to what fits. -/
theorem reports_take (config : ServerConfig) {fds : List Nat} (hnodup : fds.Nodup)
    (hmem : ∀ fd, fd ∈ fds ↔ s.Ready fd) :
    s.Reports config ((fds.take config.clientsPerThread).map fun fd => ⟨fd, s.failed fd⟩) := by
  have hfds : ((fds.take config.clientsPerThread).map fun fd =>
      (⟨fd, s.failed fd⟩ : EpollEvent)).map EpollEvent.fd = fds.take config.clientsPerThread := by
    rw [List.map_map]
    exact List.map_id _
  refine ⟨?_, ?_, ?_, ?_⟩
  · rw [List.length_map]
    exact List.length_take_le _ _
  · rw [hfds]
    exact hnodup.sublist (List.take_sublist _ _)
  · intro e he
    obtain ⟨fd, hfd, rfl⟩ := List.mem_map.1 he
    exact ⟨(hmem fd).1 (List.mem_of_mem_take hfd), rfl⟩
  · intro hlt fd _ hready
    rw [List.length_map, List.length_take] at hlt
    rw [hfds, List.take_of_length_le (by omega)]
    exact (hmem fd).2 hready

/-- What is ready. -/
def readyFds (s : EventLoop) : List Nat := s.info.registered.dedup.filter fun fd => s.Ready fd

theorem nodup_readyFds (s : EventLoop) : s.readyFds.Nodup := (List.nodup_dedup _).filter _

theorem mem_readyFds : fd ∈ s.readyFds ↔ s.Ready fd := by
  rw [readyFds, List.mem_filter, List.mem_dedup, decide_eq_true_eq]
  exact and_iff_right_of_imp And.left

/-- **`epoll_wait` can return.** -/
theorem exists_reports (config : ServerConfig) (s : EventLoop) :
    ∃ events, s.Reports config events :=
  ⟨_, reports_take config s.nodup_readyFds fun _ => mem_readyFds⟩

/-- Any descriptor that is ready may be reported first. -/
theorem exists_reports_first (hready : s.Ready fd) (hroom : 1 ≤ config.clientsPerThread) :
    ∃ rest, s.Reports config (⟨fd, s.failed fd⟩ :: rest) := by
  have hperm := List.perm_cons_erase (mem_readyFds.2 hready)
  have hreports := reports_take config (hperm.nodup s.nodup_readyFds)
    fun fd' => hperm.mem_iff.symm.trans mem_readyFds
  obtain ⟨k, hk⟩ := Nat.exists_eq_add_of_le' hroom
  rw [hk, List.take_succ_cons] at hreports
  exact ⟨_, hreports⟩

/-! ## Steps that lead on -/

theorem connected_of_peer {p : Peer} {fd' : Nat} (h : Connected fd s)
    (hpeers : s'.peers = Function.update s.peers fd' p)
    (hp : p.accepted = (s.peers fd').accepted ∧ p.closed = (s.peers fd').closed) :
    Connected fd s' := by
  rw [Connected, hpeers]
  by_cases hsame : fd = fd'
  · rw [hsame, Function.update_self, hp.1, hp.2, ← hsame]
    exact h
  · rw [Function.update_of_ne hsame]
    exact h

/-- What the steps that finish something leave as it is. -/
structure Keeps (s s' : EventLoop) : Prop where
  connected : ∀ fd, Connected fd s → Connected fd s'
  written : ∀ fd, (s.peers fd).unwritten = [] → (s'.peers fd).unwritten = []
  sound : NoneFailed s → NoneFailed s'

theorem Keeps.refl (s : EventLoop) : Keeps s s := ⟨fun _ => id, fun _ => id, id⟩

theorem Keeps.trans {s'' : EventLoop} (h : Keeps s s') (h' : Keeps s' s'') : Keeps s s'' :=
  ⟨fun fd hfd => h'.connected fd (h.connected fd hfd),
    fun fd hfd => h'.written fd (h.written fd hfd), fun hs => h'.sound (h.sound hs)⟩

theorem Keeps.of_info (hpeers : s'.peers = s.peers) (hfailed : s'.failed = s.failed)
    (hclients : ∀ fd ∈ s'.info.clients, fd ∈ s.info.clients) : Keeps s s' := by
  refine ⟨?_, ?_, ?_⟩
  · intro fd hfd
    rwa [Connected, hpeers]
  · intro fd hfd
    rwa [hpeers]
  · intro hs fd hfd
    rw [hfailed]
    exact hs fd (hclients fd hfd)

theorem Keeps.of_peer {p : Peer} {fd' : Nat} (hinfo : s'.info = s.info)
    (hfailed : s'.failed = s.failed) (hpeers : s'.peers = Function.update s.peers fd' p)
    (hp : p.accepted = (s.peers fd').accepted ∧ p.closed = (s.peers fd').closed)
    (hwritten : (s.peers fd').unwritten = [] → p.unwritten = []) : Keeps s s' := by
  refine ⟨fun fd hfd => connected_of_peer hfd hpeers hp, ?_, ?_⟩
  · intro fd hfd
    rw [hpeers]
    by_cases hsame : fd = fd'
    · rw [hsame, Function.update_self]
      exact hwritten (hsame ▸ hfd)
    · rwa [Function.update_of_ne hsame]
  · intro hs
    rw [NoneFailed, hinfo, hfailed]
    exact hs

theorem serveEvent_keeps (s : EventLoop) (fd' : Nat) (rest : List EpollEvent) :
    Ensures (s.serveEvent fd' rest) (Keeps s) := by
  rw [serveEvent]
  dsimp only
  split
  · split_ifs
    · refine Ensures.ok (.of_info rfl rfl fun fd hfd => ?_)
      rcases List.mem_append.1 hfd with hfd | hfd
      · exact List.mem_append_left _ (List.mem_of_mem_erase hfd)
      · exact List.mem_append_right _ hfd
    · exact Ensures.ok (.refl s)
  · split
    · exact Ensures.ok (.refl s)
    · exact Ensures.error
    · exact Ensures.ok (.of_peer rfl rfl rfl ⟨rfl, rfl⟩ id)

theorem runWorker_keeps (config : ServerConfig) (s : EventLoop) (events : List EpollEvent) :
    Ensures (s.runWorker config events) (Keeps s) := by
  rw [runWorker]
  split
  · rw [epollWait]
    split_ifs
    · exact Ensures.ok (.of_info rfl rfl fun _ => id)
    · exact Ensures.ok (.refl s)
  · exact Ensures.ok (.of_info rfl rfl fun _ => id)
  · split_ifs
    · exact Ensures.ok (.of_info rfl rfl fun _ => id)
    · exact serveEvent_keeps s _ _
  · refine Ensures.ok (.of_info rfl rfl fun fd hfd => ?_)
    rwa [← clients_takeNewClients]

theorem finishing_keeps (config : ServerConfig) (s : EventLoop) {a : LoopStep} (ha : a.Finishing) :
    Ensures (s.step config a) (Keeps s) := by
  cases a with
  | worker events => exact runWorker_keeps config s events
  | write fd' =>
    rw [step, Clients.write]
    split
    · exact Ensures.ok (.refl s)
    · rename_i field fields hleft
      refine Ensures.ok (.of_peer rfl rfl rfl ⟨rfl, rfl⟩ fun hnil => ?_)
      rw [hleft] at hnil
      cases hnil
  | receive fd' =>
    refine (s.receive_cases fd' s.worker).bind fun c hc => Ensures.ok ?_
    rcases hc with rfl | ⟨-, client, toClient, e, rfl⟩
    · exact .refl s
    · exact .of_peer rfl rfl rfl ⟨rfl, rfl⟩ id
  | accept fd' => exact ha.elim
  | call fd' c => exact ha.elim
  | close fd' => exact ha.elim
  | fail fd' => exact ha.elim

/-- What holds on the way from a state. -/
structure OnTheWay (n : Nat) (d₀ : Dict) (s₀ s : EventLoop) : Prop where
  inv : LoopInv n d₀ s
  orderly : Orderly s
  keeps : Keeps s₀ s

theorem finishing_step (config : ServerConfig) (h : OnTheWay n d₀ s₀ s) (hpos : 0 < n)
    {a : LoopStep} (ha : a.Finishing) :
    SucceedsUnlessFull (s.step config a) (OnTheWay n d₀ s₀) := by
  have hboth := (step_orderly config h.orderly a).and (finishing_keeps config s ha)
  have hstep := step_inv config h.inv hpos a
  exact ((hstep.ensures.and hboth).excused hstep).mono fun s' hs' =>
    ⟨hs'.1, hs'.2.1, h.keeps.trans hs'.2.2⟩

/-- The steps of the worker and of clients that finish what they have begun. What `epoll_wait`
returns is not among them. -/
def Own (s : EventLoop) (a : LoopStep) : Prop :=
  a.Finishing ∧ ∀ events, a = .worker events → s.pc ≠ .polling

/-- `epoll_wait` returns. -/
def Polls (config : ServerConfig) (s : EventLoop) (a : LoopStep) : Prop :=
  s.pc = .polling ∧ ∃ events, a = .worker events ∧ s.Reports config events

/-- The worker and clients that finish what they have begun bring about `P`, whatever `epoll_wait`
reports. -/
def LeadsTo (config : ServerConfig) (s : EventLoop) (P : EventLoop → Prop) : Prop :=
  Forces .fileTooLarge (step config) Own (Polls config) P s

theorem own_worker {pc : LoopPc} (hpc : s.pc = pc) (hne : pc ≠ .polling) :
    s.Own (.worker []) := ⟨trivial, fun _ _ => hpc ▸ hne⟩

theorem LeadsTo.worker {pc : LoopPc} (h : OnTheWay n d₀ s₀ s) (hpos : 0 < n) (hpc : s.pc = pc)
    (hne : pc ≠ .polling) (hstep : s.step config (.worker []) = .ok s') {P : EventLoop → Prop}
    (hnext : OnTheWay n d₀ s₀ s' → s'.LeadsTo config P) : s.LeadsTo config P := by
  have hway := (finishing_step config h hpos (a := .worker []) trivial).of_ok hstep
  refine Forces.trans (Forces.action (P := (· = s')) (own_worker hpc hne)
    (Or.inr ⟨_, hstep, rfl⟩)) ?_
  rintro _ rfl
  exact hnext hway

/-- **`epoll_wait` returns**, whatever it reports. -/
theorem LeadsTo.polls (h : OnTheWay n d₀ s₀ s) (hpos : 0 < n) (hpc : s.pc = .polling)
    {P : EventLoop → Prop} (hnext : ∀ events, s.Reports config events →
      OnTheWay n d₀ s₀ { s with pc := .serving events } →
        LeadsTo config { s with pc := .serving events } P) : s.LeadsTo config P := by
  obtain ⟨events, hreports⟩ := exists_reports config s
  refine .env (.worker events) ⟨hpc, events, rfl, hreports⟩ ?_ ?_
  · rintro _ ⟨-, events', rfl, -⟩
    exact (finishing_step config h hpos (a := .worker events') trivial).mono fun _ _ => trivial
  · rintro _ s' ⟨-, events', rfl, hr⟩ hstep
    have hway := (finishing_step config h hpos (a := .worker events') trivial).of_ok hstep
    obtain rfl : { s with pc := .serving events' } = s' := by
      rw [step, runWorker, hpc] at hstep
      exact (epollWait_eq hr).symm.trans (Except.ok.inj hstep)
    exact hnext events' hr hway

/-! ## The backlog -/

/-- The number of connections that a read would not wait for. -/
def backlog (s : EventLoop) : Nat := s.info.clients.countP fun fd => s.Readable fd

theorem backlog_lt (hinfo : s'.info = s.info) (h : ∀ fd, s'.Readable fd → s.Readable fd)
    (hmem : fd ∈ s.info.clients) (hread : s.Readable fd) (hread' : ¬ s'.Readable fd) :
    s'.backlog + 1 ≤ s.backlog := by
  obtain ⟨before, after, hclients⟩ := List.append_of_mem hmem
  have hmono : ∀ fds : List Nat, fds.countP (fun fd => s'.Readable fd) ≤
      fds.countP fun fd => s.Readable fd := fun fds =>
    List.countP_mono_left fun fd _ hfd => decide_eq_true (h fd (of_decide_eq_true hfd))
  have hbefore := hmono before
  have hafter := hmono after
  rw [backlog, backlog, hinfo, hclients, List.countP_append, List.countP_append,
    List.countP_cons_of_neg (by simpa using hread'), List.countP_cons_of_pos (by simpa using hread)]
  omega

theorem backlog_close (hinfo : s'.info = s.info.closeClient fd) (hpeers : s'.peers = s.peers)
    (hmem : fd ∈ s.info.registered) (hread : s.Readable fd) : s'.backlog + 1 ≤ s.backlog := by
  have hclients : fd ∈ s.info.clients := List.mem_append_left _ hmem
  have hsame : (fun fd => decide (s'.Readable fd)) = fun fd => decide (s.Readable fd) := by
    funext fd'
    rw [decide_eq_decide, Readable, hpeers, Readable]
  rw [backlog, backlog, hinfo, clients_closeClient hmem, hsame,
    (List.perm_cons_erase hclients).countP_eq, List.countP_cons_of_pos (by simpa using hread)]

/-! ## One round of the worker -/

theorem write_all (h : OnTheWay n d₀ s₀ s) (hpos : 0 < n) (fd : Nat) :
    LeadsTo config s fun s' => OnTheWay n d₀ s₀ s' ∧ s'.pc = s.pc ∧ s'.info = s.info ∧
      (∀ fd' ≠ fd, s'.peers fd' = s.peers fd') ∧ (s'.peers fd).unwritten = [] ∧
      ((s.peers fd).connection.toServer ≠ [] → (s'.peers fd).connection.toServer ≠ []) := by
  generalize hleft : (s.peers fd).unwritten = fields
  induction fields generalizing s with
  | nil => exact .here ⟨h, rfl, rfl, fun _ _ => rfl, hleft, id⟩
  | cons field fields ih =>
    have hstep : s.step config (.write fd) = .ok { s with toClients := s.write fd } := rfl
    have hway := (finishing_step config h hpos (a := .write fd) trivial).of_ok hstep
    have hwritten : s.write fd = s.setPeer fd { s.peers fd with
        unwritten := fields
        connection := { (s.peers fd).connection with
          toServer := (s.peers fd).connection.toServer ++ field } } := by
      rw [Clients.write, hleft]
    have hfd := congrArg (fun c : Clients => c.peers fd) hwritten
    rw [Clients.setPeer_self] at hfd
    have hread : (s.peers fd).connection.toServer ≠ [] →
        ((s.write fd).peers fd).connection.toServer ≠ [] := by
      intro hne
      rw [hfd]
      exact List.append_ne_nil_of_left_ne_nil hne _
    refine Forces.trans (Forces.action (a := .write fd)
      (P := (· = { s with toClients := s.write fd })) ⟨trivial, fun _ h => by cases h⟩
        (Or.inr ⟨_, hstep, rfl⟩)) ?_
    rintro _ rfl
    refine (ih hway (congrArg Peer.unwritten hfd)).trans fun s' hs' => .here ?_
    obtain ⟨hway', hpc', hinfo', hothers, hnil, hread'⟩ := hs'
    refine ⟨hway', hpc', hinfo', fun fd' hne => (hothers fd' hne).trans ?_, hnil,
      fun hne => hread' (hread hne)⟩
    rw [hwritten, Clients.setPeer_of_ne hne]

/-- **A whole request is served.** -/
theorem serve_whole (h : OnTheWay n d₀ s₀ s) (hpos : 0 < n) {rest : List EpollEvent}
    (hpc : s.pc = .serving (⟨fd, false⟩ :: rest)) (hwhole : (s.peers fd).unwritten = [])
    (hread : (s.peers fd).connection.toServer ≠ []) :
    SucceedsUnlessFull (s.step config (.worker [])) fun s' => OnTheWay n d₀ s₀ s' ∧
      s'.pc = .serving rest ∧ s'.info = s.info ∧ (∀ fd' ≠ fd, s'.peers fd' = s.peers fd') ∧
      ¬ s'.Readable fd := by
  have hway := finishing_step config h hpos (a := .worker []) trivial
  refine (Ensures.and ?_ hway.ensures).excused hway |>.mono fun s' hs' => ⟨hs'.2, hs'.1⟩
  have hstep : s.step config (.worker []) = s.serveEvent fd rest := by
    rw [step, runWorker, hpc]
    rfl
  obtain ⟨pending, l, d, htracks, hholds, -⟩ := h.inv
  have hp := htracks.underWay fd
  generalize pending fd = x at hp
  cases hp with
  | idle hcall hunwritten hconn => exact absurd (by rw [hconn]) hread
  | answered hcall hopen hunwritten hconn => exact absurd (by rw [hconn]) hread
  | @asked id c sent hcall hopen hfields hconn =>
    rw [hwhole, List.append_nil] at hfields
    rw [hfields, Request.flatten_fields] at hconn
    rw [hstep]
    simp only [serveEvent, hconn]
    rcases Worker.serveEvent_spec (w := s.worker) hholds hpos c.request [] with
      hfull | ⟨⟨worker, connection⟩, hok, hconn', -⟩
    · rw [hfull]
      exact Ensures.error
    · rw [hok]
      refine Ensures.ok ⟨rfl, rfl, fun fd' hne => Function.update_of_ne hne _ _, ?_⟩
      obtain rfl : connection = _ := hconn'
      simp [Readable, hopen]

/-- **The worker gets through with its events.** If no connection has failed, each of them leaves
one connection less to be read. -/
theorem drain (h : OnTheWay n d₀ s₀ s) (hpos : 0 < n) {events : List EpollEvent}
    (hpc : s.pc = .serving events) :
    LeadsTo config s fun s' => OnTheWay n d₀ s₀ s' ∧ s'.pc = .takingNew ∧
      (NoneFailed s₀ → s'.backlog + events.length ≤ s.backlog) := by
  have hempty : ∀ {s}, OnTheWay n d₀ s₀ s → s.pc = .serving [] →
      LeadsTo config s fun s' => OnTheWay n d₀ s₀ s' ∧ s'.pc = .takingNew ∧
        s'.backlog = s.backlog := by
    intro s h hpc
    have hstep : s.step config (.worker []) = .ok { s with pc := .takingNew } := by
      rw [step, runWorker, hpc]
    exact LeadsTo.worker h hpos hpc (by simp) hstep fun hway => .here ⟨hway, rfl, rfl⟩
  induction events generalizing s with
  | nil =>
    exact (hempty h hpc).trans fun s' hs' => .here ⟨hs'.1, hs'.2.1, fun _ => hs'.2.2.le⟩
  | cons e rest ih =>
    obtain ⟨fd', failed⟩ := e
    have hmem : ⟨fd', failed⟩ ∈ s.pc.events := by
      rw [hpc]
      exact List.mem_cons_self
    obtain ⟨hregistered, hfailed⟩ := h.orderly.inHand _ hmem
    have hclients : fd' ∈ s.info.clients := List.mem_append_left _ hregistered
    cases failed with
    | true =>
      -- the rest of the batch is dropped
      have hstep : s.step config (.worker []) = .ok { s with pc := .serving [] } := by
        rw [step, runWorker, hpc]
        rfl
      refine LeadsTo.worker h hpos hpc (by simp) hstep fun hway => ?_
      refine (hempty hway rfl).trans fun s' hs' => .here ⟨hs'.1, hs'.2.1, fun hsound => ?_⟩
      exact absurd ((h.keeps.sound hsound fd' hclients).symm.trans (hfailed rfl)) Bool.false_ne_true
    | false =>
      have hread := h.orderly.readable _ hmem rfl
      by_cases hnil : (s.peers fd').connection.toServer = []
      · -- the client has closed the connection
        have hclosed := hread.resolve_left (not_not.2 hnil)
        have hstep : s.step config (.worker []) =
            .ok { s with info := s.info.closeClient fd', pc := .serving rest } := by
          rw [step, runWorker, hpc]
          simp only [Bool.false_eq_true, if_false, serveEvent, hnil, hclosed, if_true]
        refine LeadsTo.worker h hpos hpc (by simp) hstep fun hway => ?_
        refine (ih hway rfl).trans fun s' hs' => .here ⟨hs'.1, hs'.2.1, fun hsound => ?_⟩
        have hcount := hs'.2.2 hsound
        have hless : EventLoop.backlog { s with
            info := s.info.closeClient fd', pc := .serving rest } + 1 ≤ s.backlog :=
          backlog_close rfl rfl hregistered hread
        rw [List.length_cons]
        omega
      · refine (write_all h hpos fd').trans fun s₁ hs₁ => ?_
        obtain ⟨hway₁, hpc₁, hinfo₁, hothers₁, hwhole, hne⟩ := hs₁
        refine Forces.trans (Forces.action (own_worker (hpc₁.trans hpc) (by simp))
          (serve_whole hway₁ hpos (hpc₁.trans hpc) hwhole (hne hnil))) fun s₂ hs₂ => ?_
        obtain ⟨hway₂, hpc₂, hinfo₂, hothers₂, hunread⟩ := hs₂
        refine (ih hway₂ hpc₂).trans fun s' hs' => .here ⟨hs'.1, hs'.2.1, fun hsound => ?_⟩
        have hcount := hs'.2.2 hsound
        have hreads : ∀ fd, s₂.Readable fd → s.Readable fd := by
          intro fd hfd
          by_cases hsame : fd = fd'
          · exact hsame ▸ hread
          · rwa [Readable, hothers₂ fd hsame, hothers₁ fd hsame] at hfd
        have hless := backlog_lt (hinfo₂.trans hinfo₁) hreads hclients hread hunread
        rw [List.length_cons]
        omega

theorem take_over (h : OnTheWay n d₀ s₀ s) (hpos : 0 < n) (hpc : s.pc = .takingNew) :
    LeadsTo config s fun s' => OnTheWay n d₀ s₀ s' ∧ s'.pc = .polling ∧
      (∀ fd, Connected fd s₀ → fd ∈ s'.info.registered) ∧ s'.backlog = s.backlog := by
  have hstep : s.step config (.worker []) =
      .ok { s with info := s.info.takeNewClients, pc := .polling } := by
    rw [step, runWorker, hpc]
  refine LeadsTo.worker h hpos hpc (by simp) hstep fun hway =>
    .here ⟨hway, rfl, fun fd hfd => ?_, ?_⟩
  · show fd ∈ s.info.takeNewClients.registered
    rw [takeNewClients_eq]
    have hconn := h.keeps.connected fd hfd
    exact h.orderly.listed fd hconn.1 hconn.2
  · show List.countP _ s.info.takeNewClients.clients = _
    rw [clients_takeNewClients]
    rfl

/-- **From anywhere in its loop** the worker comes back to `epoll_wait`, with all its clients. -/
theorem comes_round (h : OnTheWay n d₀ s₀ s) (hpos : 0 < n) :
    LeadsTo config s fun s' => OnTheWay n d₀ s₀ s' ∧ s'.pc = .polling ∧
      ∀ fd, Connected fd s₀ → fd ∈ s'.info.registered := by
  have hdrained : LeadsTo config s fun s' => OnTheWay n d₀ s₀ s' ∧ s'.pc = .takingNew := by
    cases hpc : s.pc with
    | polling =>
      exact LeadsTo.polls h hpos hpc fun events _ hway =>
        (drain hway hpos rfl).trans fun s' hs' => .here ⟨hs'.1, hs'.2.1⟩
    | serving events => exact (drain h hpos hpc).trans fun s' hs' => .here ⟨hs'.1, hs'.2.1⟩
    | takingNew => exact .here ⟨h, hpc⟩
  exact hdrained.trans fun s₁ hs₁ => (take_over hs₁.1 hpos hs₁.2).trans fun s₂ hs₂ =>
    .here ⟨hs₂.1, hs₂.2.1, hs₂.2.2.1⟩

/-- **Once the request is served, the call returns.** -/
theorem receive_served (h : OnTheWay n d₀ s₀ s) (hunwritten : (s.peers fd).unwritten = [])
    (hserved : (s.peers fd).connection.toServer = []) :
    LeadsTo config s fun s' => (s'.peers fd).call = none := by
  obtain ⟨pending, l, d, htracks, -⟩ := h.inv
  have hp := htracks.underWay fd
  generalize pending fd = x at hp
  cases hp with
  | idle hcall => exact .here hcall
  | @asked id c sent hcall hopen hfields hconn =>
    rw [hunwritten, List.append_nil] at hfields
    rw [hconn, hfields, Request.flatten_fields] at hserved
    cases hserved
  | answered hcall hopen hunwritten hconn =>
    obtain ⟨client, hreceive⟩ := Clients.receive_answered hcall hunwritten hconn s.worker
    refine Forces.action (a := .receive fd) ⟨trivial, fun _ h => by cases h⟩
      (Or.inr ⟨_, by rw [step, hreceive]; rfl, ?_⟩)
    exact congrArg Peer.call Clients.setPeer_self

/-- **A request that is written is served after some rounds**: each of them shortens the backlog. -/
theorem serve_written (hpos : 0 < n) (hroom : 1 ≤ config.clientsPerThread)
    (hconn : Connected fd s₀) (hwritten : (s₀.peers fd).unwritten = []) (hsound : NoneFailed s₀)
    (h : OnTheWay n d₀ s₀ s) (hpc : s.pc = .polling) (hmem : fd ∈ s.info.registered) :
    LeadsTo config s fun s' => (s'.peers fd).call = none := by
  induction hk : s.backlog using Nat.strong_induction_on generalizing s with
  | _ k ih =>
    by_cases hserved : (s.peers fd).connection.toServer = []
    · exact receive_served h (h.keeps.written fd hwritten) hserved
    · have hread : s.Readable fd := Or.inl hserved
      refine LeadsTo.polls h hpos hpc fun events hreports hway => ?_
      have hnonempty : 0 < events.length := by
        rw [Nat.pos_iff_ne_zero]
        intro hzero
        have hreported := hreports.2.2.2 (hzero ▸ hroom) fd hmem ⟨hmem, Or.inr hread⟩
        rw [List.length_eq_zero_iff.1 hzero] at hreported
        cases hreported
      refine (drain hway hpos rfl).trans fun s₁ hs₁ => ?_
      refine (take_over hs₁.1 hpos hs₁.2.1).trans fun s₂ hs₂ => ?_
      have hcount : s₁.backlog + events.length ≤ s.backlog := hs₁.2.2 hsound
      have hless : s₂.backlog < k := by
        rw [hs₂.2.2.2]
        omega
      exact ih _ hless hs₂.1 hs₂.2.1 (hs₂.2.2.1 fd hconn) rfl

/-- **From anywhere in its loop** the worker gets to the call. -/
theorem answers (hinv : LoopInv n d₀ s) (horderly : Orderly s) (hpos : 0 < n)
    (hroom : 1 ≤ config.clientsPerThread) (hconn : Connected fd s) (hsound : NoneFailed s) :
    LeadsTo config s fun s' => (s'.peers fd).call = none := by
  refine (write_all ⟨hinv, horderly, .refl s⟩ hpos fd).trans fun s₁ hs₁ => ?_
  obtain ⟨hway, -, -, -, hwritten, -⟩ := hs₁
  have hconn₁ := hway.keeps.connected fd hconn
  have hsound₁ := hway.keeps.sound hsound
  refine (comes_round ⟨hway.inv, hway.orderly, .refl s₁⟩ hpos).trans fun s₂ hs₂ => ?_
  exact serve_written hpos hroom hconn₁ hwritten hsound₁ hs₂.1 hs₂.2.1 (hs₂.2.2 fd hconn₁)

theorem run_orderly (h : LoopInv n d₀ s) (horderly : Orderly s) (hpos : 0 < n)
    (steps : List LoopStep) :
    SucceedsUnlessFull (run (step config) s steps) fun s' => LoopInv n d₀ s' ∧ Orderly s' :=
  run_excused (fun _ a hs => ((step_inv config hs.1 hpos a).ensures.and
    (step_orderly config hs.2 a)).excused (step_inv config hs.1 hpos a)) steps ⟨h, horderly⟩

end EventLoop

variable {cacheSize : Nat} {files : Nat → Option (List UInt8)}

/-- **No call hangs.** In every state that the steps can lead to and in which no connection of the
worker has failed, a client that was accepted and has not closed its connection has its call
answered, whatever `epoll_wait` reports: the worker need only go on, and the clients write what they
have begun. -/
theorem event_loop_answers (hsize : 1 ≤ cacheSize) (hfiles : WellFormedFiles files)
    (config : ServerConfig) (hroom : 1 ≤ config.clientsPerThread) :
    ∃ state, KVState.start cacheSize files = .ok state ∧
      ∀ message threadId clients steps,
        SucceedsUnlessFull
          (run (EventLoop.step config) (.start message state threadId clients) steps) fun s =>
            NoneFailed s → ∀ fd, Connected fd s →
              s.LeadsTo config fun s' => (s'.peers fd).call = none := by
  obtain ⟨state, d₀, hstate, -, hinv⟩ := loopInv_of_start hsize hfiles
  refine ⟨state, hstate, ?_⟩
  intro message threadId clients steps
  refine (EventLoop.run_orderly (hinv message threadId clients)
    (EventLoop.start_orderly message state threadId clients) hsize steps).mono
    fun s hs hsound fd hfd => ?_
  exact EventLoop.answers hs.1 hs.2 hsize hroom hfd hsound

/-- Two clients, the second of which has written a part of its request. -/
theorem event_loop_answers_two : ∃ state, KVState.start 1 (fun _ => none) = .ok state ∧
    SucceedsUnlessFull
      (run (EventLoop.step ⟨1, 1, 5⟩) (.start .empty state 1 fun _ => ⟨0, emptyString⟩)
        [.accept 4, .accept 5, .worker [], .worker [], .worker [], .call 4 (.put (entry 97 1)),
          .call 5 (.get (entry 98 0)), .write 5, .worker [⟨5, false⟩]]) fun s =>
        NoneFailed s → ∀ fd, Connected fd s →
          s.LeadsTo ⟨1, 1, 5⟩ fun s' => (s'.peers fd).call = none := by
  obtain ⟨state, hstate, hrun⟩ :=
    event_loop_answers (le_refl 1) wellFormedFiles_none ⟨1, 1, 5⟩ (by decide)
  exact ⟨state, hstate, hrun _ _ _ _⟩

/-! ## Connections that have failed -/

/-- A descriptor in the epoll set has failed, and no event comes before it. A client waits. -/
structure Starving (n : Nat) (d₀ : Dict) (fd g : Nat) (s : EventLoop) : Prop where
  inv : LoopInv n d₀ s
  failed : s.failed fd = true
  registered : fd ∈ s.info.registered
  first : s.pc.events = [] ∨ ∃ rest, s.pc = .serving (⟨fd, true⟩ :: rest)
  waiting : (s.peers g).call ≠ none ∧ (s.peers g).connection.toClient = []

variable {g : Nat}

theorem Starving.of_pc (h : Starving n d₀ fd g s) {pc : LoopPc} {info : WorkerThreadInfo}
    (hinfo : ∀ fd ∈ s.info.registered, fd ∈ info.registered)
    (hpc : pc.events = [] ∨ ∃ rest, pc = .serving (⟨fd, true⟩ :: rest)) :
    Starving n d₀ fd g { s with pc := pc, info := info } :=
  ⟨h.inv, h.failed, hinfo fd h.registered, hpc, h.waiting⟩

/-- A step of a client that does not answer the other. -/
theorem Starving.of_clients (h : Starving n d₀ fd g s) {c : Clients}
    (hinv : LoopInv n d₀ { s with toClients := c })
    (hcall : (c.peers g).call = (s.peers g).call)
    (hconn : (c.peers g).connection.toClient = (s.peers g).connection.toClient) :
    Starving n d₀ fd g { s with toClients := c } :=
  ⟨hinv, h.failed, h.registered, h.first, by
    rw [hcall, hconn]
    exact h.waiting⟩

namespace EventLoop

/-- **The others cannot help it.** -/
theorem starving_own (config : ServerConfig) (h : Starving n d₀ fd g s) (hpos : 0 < n)
    {a : LoopStep} (ha : s.Own a) :
    ∃ s', s.step config a = .ok s' ∧ Starving n d₀ fd g s' := by
  have hinv := step_inv config h.inv hpos a
  cases a with
  | worker events =>
    rw [step, runWorker]
    -- either no event is in hand, or the first one is the failed descriptor
    rcases h.first with hnone | ⟨rest, hpc⟩
    · cases hpc : s.pc with
      | polling => exact absurd hpc (ha.2 events rfl)
      | serving events' =>
        rw [hpc] at hnone
        obtain rfl : events' = [] := hnone
        exact ⟨_, rfl, h.of_pc (fun _ => id) (Or.inl rfl)⟩
      | takingNew =>
        refine ⟨_, rfl, h.of_pc (fun fd hfd => ?_) (Or.inl rfl)⟩
        rw [takeNewClients_eq]
        exact List.mem_append_left _ hfd
    · rw [hpc]
      exact ⟨_, rfl, h.of_pc (fun _ => id) (Or.inl rfl)⟩
  | write fd' =>
    refine ⟨_, rfl, h.of_clients (hinv.of_ok rfl) ?_ ?_⟩
    all_goals
      rw [Clients.write]
      split
      · rfl
      · by_cases hsame : g = fd'
        · rw [hsame, Clients.setPeer_self]
        · rw [Clients.setPeer_of_ne hsame]
  | receive fd' =>
    obtain ⟨pending, l, d, htracks, -⟩ := h.inv
    obtain ⟨c, hreceive, -⟩ := Clients.receive_tracks htracks fd' s.worker
    have hstep : s.step config (.receive fd') = .ok { s with toClients := c } := by
      rw [step, hreceive]
      rfl
    refine ⟨_, hstep, ?_⟩
    by_cases hsame : g = fd'
    · -- there is nothing to receive
      have hnothing := Clients.receive_nothing (hsame ▸ h.waiting.2) s.worker
      obtain rfl := Except.ok.inj (hnothing.symm.trans hreceive)
      exact h
    · rcases s.receive_cases fd' s.worker c hreceive with rfl | ⟨-, client, toClient, e, rfl⟩
      · exact h
      · refine h.of_clients (hinv.of_ok hstep) ?_ ?_
        · exact congrArg Peer.call (Clients.setPeer_of_ne hsame)
        · exact congrArg (fun p => p.connection.toClient) (Clients.setPeer_of_ne hsame)
  -- these steps begin something
  | accept fd' => exact ha.1.elim
  | call fd' c => exact ha.1.elim
  | close fd' => exact ha.1.elim
  | fail fd' => exact ha.1.elim

/-- **A connection that has failed can starve all clients.** It is ready at every `epoll_wait`, and
when it is reported first, nobody is served. -/
theorem failed_starves (h : Starving n d₀ fd g s) (hpos : 0 < n)
    (hroom : 1 ≤ config.clientsPerThread) :
    ¬ s.LeadsTo config fun s' => (s'.peers g).call = none := by
  intro hleads
  induction hleads with
  | here hnone => exact h.waiting.1 hnone
  | own a ha _ _ ih =>
    obtain ⟨s', hstep, h'⟩ := starving_own config h hpos ha
    exact ih s' hstep h'
  | @env s a ha _ _ ih =>
    obtain ⟨rest, hreports⟩ := exists_reports_first ⟨h.registered, Or.inl h.failed⟩ hroom
    rw [h.failed] at hreports
    have hstep : s.step config (.worker (⟨fd, true⟩ :: rest)) =
        .ok { s with pc := .serving (⟨fd, true⟩ :: rest) } := by
      rw [step, runWorker, ha.1]
      exact congrArg Except.ok (epollWait_eq hreports)
    exact ih _ _ ⟨ha.1, _, rfl, hreports⟩ hstep
      (h.of_pc (fun _ => id) (Or.inr ⟨rest, rfl⟩))

end EventLoop

/-! ## Clients that stop -/

/-- The worker is reading a request of which the client has still to write a part. -/
def Stalled (fd : Nat) (s : EventLoop) : Prop :=
  (∃ rest, s.pc = .serving (⟨fd, false⟩ :: rest)) ∧ (s.peers fd).unwritten ≠ [] ∧
    (s.peers fd).connection.toServer ≠ []

/-- The client writes on, or its connection ends. -/
def LoopStep.Advances (fd : Nat) : LoopStep → Prop
  | .write fd' => fd' = fd
  | .close fd' => fd' = fd
  | .fail fd' => fd' = fd
  | _ => False

namespace EventLoop

/-- The worker is where it was, and has done nothing. -/
def Waits (fd : Nat) (s s' : EventLoop) : Prop :=
  s'.worker = s.worker ∧ s'.pc = s.pc ∧ (s'.peers fd).unwritten = (s.peers fd).unwritten ∧
    (s'.peers fd).connection = (s.peers fd).connection

theorem Waits.refl (s : EventLoop) : Waits fd s s := ⟨rfl, rfl, rfl, rfl⟩

theorem Waits.stalled (h : Waits fd s s') (hs : Stalled fd s) : Stalled fd s' := by
  obtain ⟨-, hpc, hunwritten, hconn⟩ := h
  rw [Stalled, hpc, hunwritten, hconn]
  exact hs

theorem Waits.trans {s'' : EventLoop} (h : Waits fd s s') (h' : Waits fd s' s'') :
    Waits fd s s'' :=
  ⟨h'.1.trans h.1, h'.2.1.trans h.2.1, h'.2.2.1.trans h.2.2.1, h'.2.2.2.trans h.2.2.2⟩

theorem Waits.of_peer {fd' : Nat} {p : Peer} (hworker : s'.worker = s.worker) (hpc : s'.pc = s.pc)
    (hpeers : s'.peers = Function.update s.peers fd' p)
    (hp : fd = fd' → p.unwritten = (s.peers fd').unwritten ∧
      p.connection = (s.peers fd').connection) : Waits fd s s' := by
  refine ⟨hworker, hpc, ?_⟩
  rw [hpeers]
  by_cases hsame : fd = fd'
  · rw [hsame, Function.update_self]
    exact hp hsame
  · rw [Function.update_of_ne hsame]
    exact ⟨rfl, rfl⟩

/-- **A step while the worker waits** for another client to write. -/
theorem stalled_step (config : ServerConfig) (h : LoopInv n d₀ s) (hs : Stalled fd s)
    {a : LoopStep} (ha : ¬ a.Advances fd) :
    ∃ s', s.step config a = .ok s' ∧ Waits fd s s' := by
  obtain ⟨⟨rest, hpc⟩, hpart, hread⟩ := hs
  obtain ⟨pending, l, d, htracks, -⟩ := h
  have hp := htracks.underWay fd
  generalize pending fd = x at hp
  -- the client has begun its request, so its call is under way and not yet answered
  cases hp with
  | idle hcall hnil => exact absurd hnil hpart
  | answered hcall hopen hnil => exact absurd hnil hpart
  | @asked id c sent hcall hopen hfields hconn =>
    cases a with
    | worker events =>
      refine ⟨s, ?_, Waits.refl s⟩
      rw [step, runWorker, hpc]
      cases hflat : sent.flatten with
      | nil => exact absurd (by rw [hconn, hflat]) hread
      | cons code body =>
        rw [hflat] at hconn
        simp only [Bool.false_eq_true, if_false, serveEvent, hconn,
          s.worker.serveEvent_part (Request.body_of_part hfields hpart hflat)]
    | accept fd' =>
      refine ⟨_, rfl, ?_⟩
      rw [accept]
      split_ifs
      · exact .of_peer rfl rfl rfl fun _ => ⟨rfl, rfl⟩
      · exact Waits.refl s
    | call fd' c' =>
      refine ⟨_, rfl, ?_⟩
      rw [Clients.call]
      split_ifs with hfree
      · refine .of_peer rfl rfl rfl fun hsame => ?_
        rw [← hsame, hcall] at hfree
        cases hfree.1
      · exact Waits.refl s
    | write fd' =>
      refine ⟨_, rfl, ?_⟩
      rw [Clients.write]
      split
      · exact Waits.refl s
      · exact .of_peer rfl rfl rfl fun hsame => absurd hsame.symm ha
    | receive fd' =>
      obtain ⟨c, hreceive, -⟩ := Clients.receive_tracks htracks fd' s.worker
      refine ⟨{ s with toClients := c }, by rw [step, hreceive]; rfl, ?_⟩
      rcases s.receive_cases fd' s.worker c hreceive with rfl | ⟨hnil, client, toClient, e, rfl⟩
      · exact Waits.refl s
      · exact .of_peer rfl rfl rfl fun hsame => absurd hnil (hsame ▸ hpart)
    | close fd' =>
      refine ⟨_, rfl, ?_⟩
      rw [Clients.close]
      split_ifs with hfree
      · exact .of_peer rfl rfl rfl fun hsame => ⟨rfl, rfl⟩
      · exact Waits.refl s
    | fail fd' =>
      refine ⟨_, rfl, ?_⟩
      rw [fail, Clients.close]
      split_ifs with hboth hfree
      · exact .of_peer rfl rfl rfl fun hsame => ⟨rfl, rfl⟩
      · exact absurd hboth.1 hfree
      · exact Waits.refl s

theorem stalled_run (config : ServerConfig) (h : LoopInv n d₀ s) (hpos : 0 < n) (hs : Stalled fd s)
    {steps : List LoopStep} (hsteps : ∀ a ∈ steps, ¬ a.Advances fd) :
    ∃ s', run (step config) s steps = .ok s' ∧ Waits fd s s' := by
  induction steps generalizing s with
  | nil => exact ⟨s, rfl, Waits.refl s⟩
  | cons a steps ih =>
    rw [List.forall_mem_cons] at hsteps
    obtain ⟨s₁, hstep, hwaits⟩ := stalled_step config h hs hsteps.1
    have h₁ := (step_inv config h hpos a).of_ok hstep
    obtain ⟨s₂, hrun, hwaits'⟩ := ih h₁ (hwaits.stalled hs) hsteps.2
    refine ⟨s₂, ?_, hwaits.trans hwaits'⟩
    rw [run, hstep]
    exact hrun

end EventLoop

/-- **A client that stops in the middle of a request stops its worker.** Once the worker has begun
to read a request of which a part is still to be written, no request of any client is executed, and
the worker takes over no new client, until this client writes on or its connection ends. -/
theorem event_loop_stalls (hsize : 1 ≤ cacheSize) (hfiles : WellFormedFiles files)
    (config : ServerConfig) :
    ∃ state, KVState.start cacheSize files = .ok state ∧
      ∀ message threadId clients steps,
        SucceedsUnlessFull
          (run (EventLoop.step config) (.start message state threadId clients) steps) fun s =>
            ∀ fd, Stalled fd s → ∀ more : List LoopStep, (∀ a ∈ more, ¬ a.Advances fd) →
              ∃ s', run (EventLoop.step config) s more = .ok s' ∧
                s'.worker.executed = s.worker.executed ∧ s'.pc = s.pc := by
  obtain ⟨state, d₀, hstate, -, hinv⟩ := loopInv_of_start hsize hfiles
  refine ⟨state, hstate, ?_⟩
  intro message threadId clients steps
  refine (EventLoop.run_inv (hinv message threadId clients) hsize steps).mono
    fun s hs fd hstalled more hmore => ?_
  obtain ⟨s', hrun, hwaits⟩ := EventLoop.stalled_run config hs hsize hstalled hmore
  exact ⟨s', hrun, congrArg Worker.executed hwaits.1, hwaits.2.1⟩

/-- A client that has written the code of its request. -/
theorem event_loop_stalls_two : ∃ state, KVState.start 1 (fun _ => none) = .ok state ∧
    SucceedsUnlessFull
      (run (EventLoop.step ⟨1, 1, 5⟩) (.start .empty state 1 fun _ => ⟨0, emptyString⟩)
        [.accept 4, .accept 5, .worker [], .worker [], .worker [], .call 5 (.get (entry 98 0)),
          .write 5, .worker [⟨5, false⟩]]) fun s =>
        ∀ fd, Stalled fd s → ∀ more : List LoopStep, (∀ a ∈ more, ¬ a.Advances fd) →
          ∃ s', run (EventLoop.step ⟨1, 1, 5⟩) s more = .ok s' ∧
            s'.worker.executed = s.worker.executed ∧ s'.pc = s.pc := by
  obtain ⟨state, hstate, hrun⟩ := event_loop_stalls (le_refl 1) wellFormedFiles_none ⟨1, 1, 5⟩
  exact ⟨state, hstate, hrun _ _ _ _⟩

end KeyValueStore
