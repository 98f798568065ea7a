import KeyValueStore.Server
import KeyValueStore.ThreadRuns

/-!
# Runs of the server

The clients of all workers see one dictionary. A request takes effect in a step of the cache's
thread that executes it, which lies between the call and its return; so the history that the clients
see linearizes to the requests in the order of these steps, in every run in which no such step
undoes what another worker has done or is about to do (`server_linearizable`). The run must not
fail, as it does when a worker reads the tail of a queue that another has emptied.
-/

namespace KeyValueStore

open Linearizability Run SharedCache

/-! ## A request and the operation for it -/

/-- **The operation does what the request asks for**, and the response to it is the dictionary's. -/
theorem dictSpec_call (d : Dict) (op : Op) (ptr : KVMessage) :
    (dictSpec d (op.call ptr)).1 = (requestSpec d (op.request ptr)).1 ∧
      (dictSpec d (op.call ptr)).2.response = (requestSpec d (op.request ptr)).2.frame := by
  cases op with
  | get =>
    refine ⟨rfl, ?_⟩
    simp only [dictSpec, dictCall, Op.call, Op.request, requestSpec, dictRequest, dictGet,
      calculateKeyHash_key]
    cases d ptr.key <;> rfl
  | put => exact ⟨rfl, rfl⟩
  | delete =>
    refine ⟨rfl, ?_⟩
    simp only [dictSpec, dictCall, Op.call, Op.request, requestSpec, dictRequest]
    cases d ptr.key <;> rfl

theorem Pc.Serves.idle_iff {pc : Pc} {o : Option (Nat × CacheCall)} (h : pc.Serves o) :
    pc = .idle ↔ o = none := by
  have hserves : ∀ {task : Task}, task.Serves o → o ≠ none := by
    rintro task ⟨_, ho, _⟩ hnone
    rw [hnone] at ho
    cases ho
  have hstores : ∀ {task : Task}, task.Stores o → o ≠ none := by
    rintro task ⟨_, _, ho, _⟩ hnone
    rw [hnone] at ho
    cases ho
  cases pc with
  | idle => exact iff_of_true rfl h
  | search task => exact iff_of_false nofun (hserves h)
  | upgrade task p => exact iff_of_false nofun (hserves h)
  | deleteDb task => exact iff_of_false nofun (hserves h)
  | newEntry task => exact iff_of_false nofun (hstores h)
  | acquire task => exact iff_of_false nofun (hstores h)
  | evictStart task => exact iff_of_false nofun (hstores h)
  | evictTest task e i => exact iff_of_false nofun (hstores h)
  | evictHash task e => exact iff_of_false nofun (hstores h)
  | evictLock task e i => exact iff_of_false nofun (hstores h)
  | fill task p => exact iff_of_false nofun (hstores h)
  | link task q p => exact iff_of_false nofun (hstores h)

/-! ## The invariant -/

/-- The client whose request the worker has taken. -/
def WorkerPc.client : WorkerPc → Option Nat
  | .executing fd _ => some fd
  | .responding fd _ _ => some fd
  | _ => none

/-- What a worker has under way at this point: in the cache, and for the client whose request it has
taken. -/
inductive Attends (taken : Nat → Bool) (pending : Nat → Option (Nat × Request × Option Outcome)) :
    WorkerPc → Option (Nat × CacheCall) → Prop
  | away {pc : WorkerPc} (hclient : pc.client = none) : Attends taken pending pc none
  | executing {fd id call : Nat} {rest : List EpollEvent} {op : Op} {ptr : KVMessage}
    (htaken : taken fd = true) (hpending : pending fd = some (call, op.request ptr, none)) :
    Attends taken pending (.executing fd rest) (some (id, op.call ptr))
  | responding {fd call : Nat} {answer : CacheAnswer} {rest : List EpollEvent} {req : Request}
    {d : Dict} (htaken : taken fd = true)
    (hpending : pending fd = some (call, req, some (dictRequest d req).1))
    (hanswer : answer.response = (dictRequest d req).1.frame) :
    Attends taken pending (.responding fd answer rest) none

section Attends

variable {taken taken' : Nat → Bool} {pc : WorkerPc} {call : Option (Nat × CacheCall)}
  {pending pending' : Nat → Option (Nat × Request × Option Outcome)}

theorem Attends.has_taken {fd : Nat} (h : Attends taken pending pc call)
    (hclient : pc.client = some fd) : taken fd = true := by
  cases h with
  | away hnone => rw [hnone] at hclient; cases hclient
  | executing htaken => exact Option.some.inj hclient ▸ htaken
  | responding htaken => exact Option.some.inj hclient ▸ htaken

theorem Attends.congr (h : Attends taken pending pc call)
    (hsame : ∀ fd, pc.client = some fd → taken' fd = taken fd ∧ pending' fd = pending fd) :
    Attends taken' pending' pc call := by
  cases h with
  | away hclient => exact .away hclient
  | executing htaken hpending =>
    obtain ⟨htaken', hpending'⟩ := hsame _ rfl
    exact .executing (htaken'.trans htaken) (hpending'.trans hpending)
  | responding htaken hpending hanswer =>
    obtain ⟨htaken', hpending'⟩ := hsame _ rfl
    exact .responding (htaken'.trans htaken) (hpending'.trans hpending) hanswer

theorem Attends.call_eq_none (h : Attends taken pending pc call) (hclient : pc.client = none) :
    call = none := by
  cases h with
  | away => rfl
  | executing => cases hclient
  | responding => rfl

end Attends

/-- The clients are tracked, cache and store hold the dictionary, every thread of the cache executes
the operation of its worker, and no two workers have taken the request of one client. -/
structure ServerInv (d₀ : Dict) (s : Server) (taken : Nat → Bool)
    (pending : Nat → Option (Nat × Request × Option Outcome))
    (calls : Nat → Option (Nat × CacheCall)) (l : List (Entry Request Outcome)) (d : Dict) :
    Prop where
  tracks : s.toClients.Tracks d₀ taken pending l d
  cache : ∃ L held, Inv s.cache L held ∧ Represents s.cache.state L held d
  serves : ∀ i, (s.cache.pc i).Serves (calls i)
  attends : ∀ i, Attends taken pending (s.threads i).pc (calls i)
  apart : ∀ i j fd, (s.threads i).pc.client = some fd → (s.threads j).pc.client = some fd → i = j

/-- A step of the cache, if this is one, undoes nothing that another worker has done or is about to
do. -/
def Server.Undisturbed (s : Server) : ServerMove → Prop
  | .worker i _ => ∀ fd rest, (s.threads i).pc = .executing fd rest →
    s.cache.Undisturbed (.run i)
  | _ => True

theorem Server.dispatch_threads (s : Server) (config : ServerConfig) (a : ServerStep) :
    (s.dispatch config a).threads = s.threads := by
  rw [dispatch]
  split <;> rfl

theorem Server.execute_of_goto (s : Server) {i fd : Nat} {rest : List EpollEvent} {pc : Pc}
    {state : KVState} (hbusy : pc ≠ .idle)
    (h : s.cache.runThread i = .ok (s.cache.goto i pc state)) :
    s.execute i fd rest = .ok { s with cache := s.cache.goto i pc state } := by
  rw [execute, h, ok_bind]
  split
  · rename_i hidle _
    rw [goto_pc, Function.update_self] at hidle
    exact absurd hidle hbusy
  · rfl

theorem Server.execute_of_finish (s : Server) {i fd : Nat} {rest : List EpollEvent} {task : Task}
    {answer : CacheAnswer} {state : KVState}
    (h : s.cache.runThread i = .ok (s.cache.finish i task answer state)) :
    s.execute i fd rest = .ok { s with
      threads := Function.update s.threads i
        ⟨answer.message (s.threads i).message, .responding fd answer rest⟩
      cache := s.cache.finish i task answer state } := by
  rw [execute, h, ok_bind]
  simp only [finish_pc, Function.update_self, finish_history, List.getLast?_concat]
  rfl

namespace ServerInv

variable {d₀ d : Dict} {s : Server} {taken : Nat → Bool} {i fd : Nat}
  {pending pending' : Nat → Option (Nat × Request × Option Outcome)}
  {calls : Nat → Option (Nat × CacheCall)} {l : List (Entry Request Outcome)}

theorem start {state : KVState} {L : Layout} (hinv : Inv (SharedCache.start state) L [])
    (hrep : Represents state L [] d₀) (config : ServerConfig) (messages : Nat → KVMessage)
    (clients : Nat → Client) :
    ServerInv d₀ (.start config state messages clients) (fun _ => false) (fun _ => none)
      (fun _ => none) [] d₀ where
  tracks := Clients.new_tracks clients
  cache := ⟨L, [], hinv, hrep⟩
  serves _ := rfl
  attends _ := .away rfl
  apart i j fd hi := by cases hi

theorem of_clients (h : ServerInv d₀ s taken pending calls l d) {c : Clients}
    (hc : c.Tracks d₀ taken pending' l d)
    (hsame : ∀ fd, taken fd = true → pending' fd = pending fd) :
    ServerInv d₀ { s with toClients := c } taken pending' calls l d where
  tracks := hc
  cache := h.cache
  serves := h.serves
  attends i := (h.attends i).congr fun fd hfd => ⟨rfl, hsame fd ((h.attends i).has_taken hfd)⟩
  apart := h.apart

theorem of_main (h : ServerInv d₀ s taken pending calls l d) (main : ServerState) :
    ServerInv d₀ { s with main := main } taken pending calls l d :=
  ⟨h.tracks, h.cache, h.serves, h.attends, h.apart⟩

theorem of_dispatch (h : ServerInv d₀ s taken pending calls l d) (config : ServerConfig)
    (a : ServerStep) : ServerInv d₀ (s.dispatch config a) taken pending calls l d := by
  rw [Server.dispatch]
  split
  · exact h.of_main _
  · exact h

theorem of_thread (h : ServerInv d₀ s taken pending calls l d) {w : WorkerThread}
    (hold : (s.threads i).pc.client = none) (hnew : w.pc.client = none) :
    ServerInv d₀ { s with threads := Function.update s.threads i w } taken pending calls l d where
  tracks := h.tracks
  cache := h.cache
  serves := h.serves
  attends j := by
    by_cases hj : j = i
    · rw [hj, (h.attends i).call_eq_none hold]
      simp only [Function.update_self]
      exact .away hnew
    · simp only [Function.update_of_ne hj]
      exact h.attends j
  apart j k fd hj hk := by
    have hne : ∀ {j}, (Function.update s.threads i w j).pc.client = some fd →
        (s.threads j).pc.client = some fd := by
      intro j hj
      by_cases hsame : j = i
      · rw [hsame, Function.update_self, hnew] at hj
        cases hj
      · rwa [Function.update_of_ne hsame] at hj
    exact h.apart j k fd (hne hj) (hne hk)

/-- What becomes of the workers when worker `i`, and with it client `fd`, moves on. -/
theorem attends_update (h : ServerInv d₀ s taken pending calls l d) (message : KVMessage)
    {pc : WorkerPc} {b : Bool} {x : Option (Nat × Request × Option Outcome)}
    {call : Option (Nat × CacheCall)} (hothers : ∀ j, j ≠ i → (s.threads j).pc.client ≠ some fd)
    (hpc : Attends (Function.update taken fd b) (Function.update pending fd x) pc call) (j : Nat) :
    Attends (Function.update taken fd b) (Function.update pending fd x)
      (Function.update s.threads i ⟨message, pc⟩ j).pc (Function.update calls i call j) := by
  by_cases hj : j = i
  · rw [hj, Function.update_self, Function.update_self]
    exact hpc
  · rw [Function.update_of_ne hj, Function.update_of_ne hj]
    refine (h.attends j).congr fun fd' hfd' => ?_
    have hne : fd' ≠ fd := fun hsame => hothers j hj (hsame ▸ hfd')
    exact ⟨Function.update_of_ne hne .., Function.update_of_ne hne ..⟩

theorem apart_update (h : ServerInv d₀ s taken pending calls l d) {message : KVMessage}
    {pc : WorkerPc} (hothers : ∀ j, j ≠ i → (s.threads j).pc.client ≠ some fd)
    (hpc : ∀ fd', pc.client = some fd' → fd' = fd) (j k fd' : Nat)
    (hj : (Function.update s.threads i ⟨message, pc⟩ j).pc.client = some fd')
    (hk : (Function.update s.threads i ⟨message, pc⟩ k).pc.client = some fd') : j = k := by
  have hcases : ∀ {j}, (Function.update s.threads i ⟨message, pc⟩ j).pc.client = some fd' →
      j = i ∧ fd' = fd ∨ j ≠ i ∧ (s.threads j).pc.client = some fd' := by
    intro j hj
    by_cases hsame : j = i
    · rw [hsame, Function.update_self] at hj
      exact Or.inl ⟨hsame, hpc fd' hj⟩
    · rw [Function.update_of_ne hsame] at hj
      exact Or.inr ⟨hsame, hj⟩
  rcases hcases hj with ⟨hji, hfd⟩ | ⟨hji, hj⟩ <;> rcases hcases hk with ⟨hki, hfd'⟩ | ⟨hki, hk⟩
  · rw [hji, hki]
  · exact absurd (hfd ▸ hk) (hothers k hki)
  · exact absurd (hfd' ▸ hj) (hothers j hji)
  · exact h.apart j k fd' hj hk

/-- **A worker takes a whole request**, and calls the operation for it. -/
theorem take (h : ServerInv d₀ s taken pending calls l d) {call : Nat} {c : ClientCall} {op : Op}
    {ptr : KVMessage} {rest : List EpollEvent} (hclient : (s.threads i).pc.client = none)
    (hpending : pending fd = some (call, c.request, none)) (htaken : taken fd = false)
    (hcall : (s.peers fd).call = some (call, c)) (hopen : (s.peers fd).closed = false)
    (hwhole : (s.peers fd).unwritten = []) (hop : op.request ptr = c.request) :
    ∃ taken' calls', ServerInv d₀ { s with
        toClients := s.setPeer fd { s.peers fd with connection := ⟨[], []⟩ }
        threads := Function.update s.threads i ⟨ptr, .executing fd rest⟩
        cache := s.cache.invoke i op ptr } taken' pending calls' l d := by
  have hidle : s.cache.pc i = .idle :=
    (h.serves i).idle_iff.2 ((h.attends i).call_eq_none hclient)
  -- the client is served by no other worker, as its request has not been taken
  have hothers : ∀ j, j ≠ i → (s.threads j).pc.client ≠ some fd := by
    intro j _ hj
    rw [(h.attends j).has_taken hj] at htaken
    cases htaken
  refine ⟨Function.update taken fd true,
    Function.update calls i (some (s.cache.nextId, op.call ptr)), ?_⟩
  constructor
  · refine ⟨h.tracks.staged, ?_⟩
    intro fd'
    have hp : UnderWay { s.peers fd with connection := ⟨[], []⟩ } true (pending fd) := by
      rw [hpending]
      exact .taken hcall hopen hwhole rfl
    have hupdate := Clients.underWay_update h.tracks.underWay fd hp fd'
    rwa [Function.update_eq_self] at hupdate
  · obtain ⟨L, held, hinv, hrep⟩ := h.cache
    exact ⟨L, held, hinv.of_invoke i op ptr, by rwa [state_invoke]⟩
  · intro j
    by_cases hj : j = i
    · rw [hj]
      simp only [invoke, hidle, Function.update_self]
      exact ⟨ptr, rfl, rfl⟩
    · simp only [invoke, hidle, Function.update_of_ne hj]
      exact h.serves j
  · intro j
    have hw : Attends (Function.update taken fd true) (Function.update pending fd (pending fd))
        (.executing fd rest) (some (s.cache.nextId, op.call ptr)) :=
      .executing (Function.update_self ..) (by rw [Function.update_self, hpending, hop])
    have hattends := h.attends_update ptr hothers hw j
    rwa [Function.update_eq_self] at hattends
  · exact h.apart_update hothers fun fd' hfd' => (Option.some.inj hfd').symm

/-- **A step of the cache** for a request. In the step that returns, the request takes effect. -/
theorem execute (h : ServerInv d₀ s taken pending calls l d) {rest : List EpollEvent}
    (hpc : (s.threads i).pc = .executing fd rest) (hun : s.cache.Undisturbed (.run i)) :
    Ensures (s.execute i fd rest) fun s' =>
      ∃ pending' calls' l' d', ServerInv d₀ s' taken pending' calls' l' d' := by
  intro s' hs'
  -- the worker is in an operation, so the request is pending and the cache has its call
  have hattends := h.attends i
  rw [hpc] at hattends
  generalize hcall : calls i = o at hattends
  cases hattends with
  | away hclient => cases hclient
  | @executing _ id call _ op ptr htaken hpending =>
  obtain ⟨σ, hσ⟩ : ∃ σ, s.cache.runThread i = .ok σ := by
    cases hrun : s.cache.runThread i with
    | ok σ => exact ⟨σ, rfl⟩
    | error e => rw [Server.execute, hrun] at hs'; cases hs'
  obtain ⟨L, held, hinv, hrep⟩ := h.cache
  obtain ⟨hsafe, hfresh, hload⟩ := hun
  obtain ⟨L', held', -, hinv'⟩ := hinv.of_runThread hsafe.1 hsafe.2 hσ
  rcases runThread_effect hrep (hinv.threads.ok i) hsafe.1 hfresh hload (h.serves i) σ hσ with
    ⟨pc, state, rfl, ⟨_, _, hrep'⟩, hserves⟩ | ⟨task, state, c, rfl, ⟨_, _, hrep'⟩, ho⟩
  · -- the operation goes on
    have hbusy : pc ≠ .idle := by
      intro hidle
      rw [hserves.idle_iff.1 hidle] at hcall
      cases hcall
    rw [s.execute_of_goto hbusy hσ] at hs'
    obtain rfl := Except.ok.inj hs'
    refine ⟨pending, calls, l, d, h.tracks, ⟨L', held', hinv', hrep'.relayout hinv'.wf⟩,
      fun j => ?_, h.attends, h.apart⟩
    by_cases hj : j = i
    · rw [hj]
      simp only [goto_pc, Function.update_self]
      exact hserves
    · simp only [goto_pc, Function.update_of_ne hj]
      exact h.serves j
  · -- it returns
    rw [hcall] at ho
    obtain ⟨-, rfl⟩ := Prod.mk.inj (Option.some.inj ho)
    obtain ⟨hdict, hresponse⟩ := dictSpec_call d op ptr
    rw [hdict] at hrep'
    rw [s.execute_of_finish hσ] at hs'
    obtain rfl := Except.ok.inj hs'
    -- no other worker serves this client, so none of their rows changes
    have hothers : ∀ j, j ≠ i → (s.threads j).pc.client ≠ some fd := fun j hj hfd =>
      hj (h.apart j i fd hfd (by rw [hpc]; rfl))
    refine ⟨_, Function.update calls i none, _, _, h.tracks.commit htaken hpending,
      ⟨L', held', hinv', hrep'.relayout hinv'.wf⟩, ?_, ?_,
      h.apart_update hothers fun fd' hfd' => (Option.some.inj hfd').symm⟩
    · intro j
      by_cases hj : j = i
      · rw [hj]
        simp only [finish_pc, Function.update_self]
        rfl
      · simp only [finish_pc, Function.update_of_ne hj]
        exact h.serves j
    · intro j
      have hw : Attends (Function.update taken fd (taken fd)) (Function.update pending fd
          (some (call, op.request ptr, some (requestSpec d (op.request ptr)).2)))
          (.responding fd (dictSpec d (op.call ptr)).2 rest) none :=
        .responding (by rw [Function.update_self, htaken]) (Function.update_self ..) hresponse
      have hattends := h.attends_update
        ((dictSpec d (op.call ptr)).2.message (s.threads i).message) hothers hw j
      rwa [Function.update_eq_self] at hattends

/-- **The response is written.** -/
theorem respond (h : ServerInv d₀ s taken pending calls l d) {answer : CacheAnswer}
    {rest : List EpollEvent} (hpc : (s.threads i).pc = .responding fd answer rest) :
    ∃ taken', ServerInv d₀ (s.respond i fd answer rest) taken' pending calls l d := by
  have hattends := h.attends i
  rw [hpc] at hattends
  generalize hcall : calls i = o at hattends
  cases hattends with
  | away hclient => cases hclient
  | @responding _ call _ _ req d' htaken hpending hanswer =>
  have hothers : ∀ j, j ≠ i → (s.threads j).pc.client ≠ some fd := fun j hj hfd =>
    hj (h.apart j i fd hfd (by rw [hpc]; rfl))
  refine ⟨Function.update taken fd false, ⟨h.tracks.staged, fun fd' => ?_⟩, h.cache, h.serves,
    fun j => ?_, h.apart_update hothers fun fd' hfd' => by cases hfd'⟩
  · have hp : UnderWay { s.peers fd with connection := { (s.peers fd).connection with
        toClient := (s.peers fd).connection.toClient ++ answer.response } } false
          (pending fd) := by
      have hp := h.tracks.underWay fd
      rw [htaken] at hp
      rw [hpending] at hp ⊢
      cases hp with
      | taken hcall hopen hunwritten hconn =>
        refine .answered hcall hopen hunwritten ?_
        rw [hconn, hanswer, List.nil_append]
    have hupdate := Clients.underWay_update h.tracks.underWay fd hp fd'
    rwa [Function.update_eq_self] at hupdate
  · have hw : Attends (Function.update taken fd false) (Function.update pending fd (pending fd))
        (.serving rest) none := .away rfl
    have hattends := h.attends_update (s.threads i).message hothers hw j
    rwa [Function.update_eq_self, ← hcall, Function.update_eq_self] at hattends

/-- **One event** up to the operation of the cache. -/
theorem serveEvent (h : ServerInv d₀ s taken pending calls l d) (config : ServerConfig)
    (hclient : (s.threads i).pc.client = none) (rest : List EpollEvent) :
    ∃ s', s.serveEvent config i fd rest = .ok s' ∧
      ∃ taken' calls', ServerInv d₀ s' taken' pending calls' l d := by
  have hp := h.tracks.underWay fd
  -- with nothing to read the worker waits, or closes the connection
  have hnothing : (s.peers fd).connection.toServer = [] →
      ∃ s', s.serveEvent config i fd rest = .ok s' ∧
        ∃ taken' calls', ServerInv d₀ s' taken' pending calls' l d := by
    intro hnil
    simp only [Server.serveEvent, hnil]
    split_ifs
    · have hthreads : (s.dispatch config (.disconnect i fd)).threads = s.threads :=
        s.dispatch_threads ..
      refine ⟨_, rfl, taken, calls, (h.of_dispatch config _).of_thread ?_ rfl⟩
      rw [hthreads]
      exact hclient
    · exact ⟨s, rfl, taken, calls, h⟩
  generalize htaken : taken fd = b at hp
  generalize hpending : pending fd = x at hp
  cases hp with
  | idle hcall hunwritten hconn => exact hnothing (by rw [hconn])
  | taken hcall hopen hunwritten hconn => exact hnothing (by rw [hconn])
  | answered hcall hopen hunwritten hconn => exact hnothing (by rw [hconn])
  | @asked id c sent hcall hopen hfields hconn =>
    have hvalid : ¬ (!isRequestCodeValid c.request.code) = true := by
      cases c.request <;> exact Bool.false_ne_true
    -- the call of the cache begins when the whole request is there
    by_cases hpart : (s.peers fd).unwritten = []
    · rw [hpart, List.append_nil] at hfields
      rw [hfields, Request.flatten_fields] at hconn
      obtain ⟨op, ptr, hread, hop⟩ := readRequest_whole (s.threads i).message c.request
      simp only [Server.serveEvent, hconn, if_neg hvalid, hread]
      exact ⟨_, rfl, h.take hclient hpending htaken hcall hopen hpart hop⟩
    · cases hflat : sent.flatten with
      | nil => exact hnothing (by rw [hconn, hflat])
      | cons code body =>
        have hbody := Request.body_of_part hfields hpart hflat
        rw [hflat] at hconn
        obtain rfl := hbody.1
        simp only [Server.serveEvent, hconn, if_neg hvalid, readRequest_part _ hbody]
        exact ⟨s, rfl, taken, calls, h⟩

theorem runWorker (h : ServerInv d₀ s taken pending calls l d) (config : ServerConfig)
    {events : List EpollEvent} (hun : s.Undisturbed (.worker i events)) :
    Ensures (s.runWorker config i events) fun s' =>
      ∃ taken' pending' calls' l' d', ServerInv d₀ s' taken' pending' calls' l' d' := by
  have hsame : ∃ taken' pending' calls' l' d', ServerInv d₀ s taken' pending' calls' l' d' :=
    ⟨taken, pending, calls, l, d, h⟩
  rw [Server.runWorker]
  split
  · exact Ensures.ok hsame
  split_ifs
  · split
    · rename_i hpc
      rw [Server.epollWait]
      split_ifs
      · exact Ensures.ok ⟨taken, pending, calls, l, d, h.of_thread (by rw [hpc]; rfl) rfl⟩
      · exact Ensures.ok hsame
    · rename_i hpc
      exact Ensures.ok ⟨taken, pending, calls, l, d, h.of_thread (by rw [hpc]; rfl) rfl⟩
    · rename_i e rest hpc
      have hclient : (s.threads i).pc.client = none := by rw [hpc]; rfl
      split_ifs
      · exact Ensures.ok ⟨taken, pending, calls, l, d, h.of_thread hclient rfl⟩
      · obtain ⟨s', hs', taken', calls', h'⟩ := h.serveEvent config hclient rest
        rw [hs']
        exact Ensures.ok ⟨taken', pending, calls', l, d, h'⟩
    · rename_i fd rest hpc
      exact (h.execute hpc (hun fd rest hpc)).mono fun s' hs' => ⟨taken, hs'⟩
    · rename_i fd answer rest hpc
      obtain ⟨taken', h'⟩ := h.respond hpc
      exact Ensures.ok ⟨taken', pending, calls, l, d, h'⟩
    · rename_i hpc
      have hthreads : (s.dispatch config (.takeNew i)).threads = s.threads := s.dispatch_threads ..
      refine Ensures.ok ⟨taken, pending, calls, l, d, (h.of_dispatch config _).of_thread ?_ rfl⟩
      rw [hthreads, hpc]
      rfl
  · exact Ensures.ok hsame

/-- **Every step keeps the server in step with the dictionary.** -/
theorem step (h : ServerInv d₀ s taken pending calls l d) (config : ServerConfig) {a : ServerMove}
    (hun : s.Undisturbed a) : Ensures (s.step config a) fun s' =>
      ∃ taken' pending' calls' l' d', ServerInv d₀ s' taken' pending' calls' l' d' := by
  cases a with
  | worker i events => exact h.runWorker config hun
  | accept fd =>
    rw [Server.step, Server.acceptClient]
    split_ifs
    · exact Ensures.ok ⟨taken, pending, calls, l, d, (h.of_dispatch config _).of_clients
        (Clients.accept_tracks h.tracks fd) fun _ _ => rfl⟩
    · exact Ensures.ok ⟨taken, pending, calls, l, d, h⟩
  | call fd c =>
    obtain ⟨pending', htracks, hsame⟩ := Clients.call_tracks h.tracks fd c
    exact Ensures.ok ⟨taken, pending', calls, l, d, h.of_clients htracks hsame⟩
  | write fd =>
    exact Ensures.ok ⟨taken, pending, calls, l, d,
      h.of_clients (Clients.write_tracks h.tracks fd) fun _ _ => rfl⟩
  | receive fd =>
    obtain ⟨c, hreceive, pending', htracks, hsame⟩ :=
      Clients.receive_tracks h.tracks fd ⟨.empty, s.cache.state, []⟩
    rw [Server.step, hreceive]
    exact Ensures.ok ⟨taken, pending', calls, l, d, h.of_clients htracks hsame⟩
  | close fd =>
    exact Ensures.ok ⟨taken, pending, calls, l, d,
      h.of_clients (Clients.close_tracks h.tracks fd) fun _ _ => rfl⟩

end ServerInv

/-! ## Runs -/

variable {cacheSize : Nat} {files : Nat → Option (List UInt8)}

/-- The dictionary that the files hold, and what the runs of the server keep. -/
theorem server_inv (hsize : 1 ≤ cacheSize) (hfiles : WellFormedFiles files) :
    ∃ state d₀, KVState.start cacheSize files = .ok state ∧
      (∀ ptr : KVMessage,
        state.store.readFromDb ptr.calculateKeyHash = .ok (dictGet d₀ ptr.calculateKeyHash)) ∧
      ∀ config messages clients moves s,
        Meets (Server.step config) Server.Undisturbed (.start config state messages clients) moves →
        run (Server.step config) (.start config state messages clients) moves = .ok s →
          ∃ taken pending calls l d, ServerInv d₀ s taken pending calls l d := by
  obtain ⟨state, d₀, hstate, hread, hrep, -⟩ := KVState.start_dict hsize hfiles
  obtain ⟨L, hinv, -⟩ := inv_start hsize hstate
  refine ⟨state, d₀, hstate, hread, ?_⟩
  intro config messages clients moves s hun hrun
  refine run_invariant
    (I := fun s => ∃ taken pending calls l d, ServerInv d₀ s taken pending calls l d) ?_
    ⟨_, _, _, _, _, ServerInv.start hinv (hrep.relayout hinv.wf) config messages clients⟩ hun hrun
  rintro s a s' ⟨taken, pending, calls, l, d, hI⟩ hC hstep
  exact hI.step config hC s' hstep

/-- **All workers serve all clients as one dictionary would.** Whatever the order of the steps, as
long as none on the cache fails, or undoes what another worker has done or is about to do, the calls
of the clients linearize, and cache and store hold the dictionary after them. -/
theorem server_linearizable (hsize : 1 ≤ cacheSize) (hfiles : WellFormedFiles files) :
    ∃ state d₀, KVState.start cacheSize files = .ok state ∧
      (∀ ptr : KVMessage,
        state.store.readFromDb ptr.calculateKeyHash = .ok (dictGet d₀ ptr.calculateKeyHash)) ∧
      ∀ config messages clients moves s,
        Meets (Server.step config) Server.Undisturbed (.start config state messages clients) moves →
        run (Server.step config) (.start config state messages clients) moves = .ok s →
          ∃ l d, Linearizes requestSpec d₀ s.history l d ∧
            ∀ key, s.cache.state.lookup key = .ok (d key) := by
  obtain ⟨state, d₀, hstate, hread, hruns⟩ := server_inv hsize hfiles
  refine ⟨state, d₀, hstate, hread, ?_⟩
  intro config messages clients moves s hun hrun
  obtain ⟨taken, pending, calls, l, d, h⟩ := hruns config messages clients moves s hun hrun
  obtain ⟨L, held, -, hrep⟩ := h.cache
  exact ⟨l, d, h.tracks.staged.inst.linearizes, fun key => KVState.lookup_eq hrep key⟩

/-- A step on the cache that evicts no node, links none in for a key that has one, and enters no
value that was read from the store. -/
def Server.quiet (s : Server) : ServerMove → Bool
  | .worker i _ =>
    s.cache.evictsNone (.run i) && (s.cache.linksFresh (.run i) && s.cache.loadsNone (.run i))
  | _ => true

theorem Server.undisturbed_of_quiet (s : Server) (a : ServerMove) (h : s.quiet a = true) :
    s.Undisturbed a := by
  cases a with
  | worker i events =>
    rw [quiet, Bool.and_eq_true, Bool.and_eq_true] at h
    exact fun _ _ _ => ⟨evictsSafely_of_evictsNone _ _ h.1, insertsFresh_of_linksFresh _ _ h.2.1,
      loadsCurrent_of_loadsNone _ _ h.2.2⟩
  | _ => trivial

/-- Two workers, and two clients whose PUTs overlap in the cache. -/
def overlappingPuts : List ServerMove :=
  [.accept 4, .accept 5, .worker 0 [], .worker 0 [], .worker 0 [], .worker 1 [], .worker 1 [],
    .worker 1 [], .call 4 (.put (entry 97 1)), .call 5 (.put (entry 98 2)), .write 4, .write 5,
    .write 4, .write 4, .write 5, .write 5, .worker 0 [⟨4, false⟩], .worker 1 [⟨5, false⟩],
    .worker 0 [], .worker 1 [], .worker 0 [], .worker 1 [], .worker 1 [], .worker 0 [],
    .worker 0 [], .worker 1 [], .worker 1 [], .worker 0 [], .worker 0 [], .worker 1 [],
    .worker 0 [], .receive 4, .worker 1 [], .receive 5]

/-- The run returns, its steps are quiet, and both calls are answered. -/
theorem overlappingPuts_run : ∃ state s, KVState.start 2 (fun _ => none) = .ok state ∧
    Meets (Server.step ⟨2, 1, 5⟩) Server.Undisturbed
      (.start ⟨2, 1, 5⟩ state (fun _ => .empty) fun _ => ⟨0, emptyString⟩) overlappingPuts ∧
    run (Server.step ⟨2, 1, 5⟩) (.start ⟨2, 1, 5⟩ state (fun _ => .empty)
      fun _ => ⟨0, emptyString⟩) overlappingPuts = .ok s ∧ s.history.length = 4 := by
  have hcheck : returns (KVState.start 2 fun _ => none) (fun state =>
      checkRun (Server.step ⟨2, 1, 5⟩) Server.quiet
        (.start ⟨2, 1, 5⟩ state (fun _ => .empty) fun _ => ⟨0, emptyString⟩) overlappingPuts &&
      returns (run (Server.step ⟨2, 1, 5⟩) (.start ⟨2, 1, 5⟩ state (fun _ => .empty)
        fun _ => ⟨0, emptyString⟩) overlappingPuts) fun s => s.history.length == 4) = true := by
    decide +kernel
  obtain ⟨state, hstate, hcheck⟩ := exists_of_returns hcheck
  rw [Bool.and_eq_true] at hcheck
  obtain ⟨s, hrun, hlength⟩ := exists_of_returns hcheck.2
  exact ⟨state, s, hstate, meets_of_checkRun Server.undisturbed_of_quiet hcheck.1, hrun,
    eq_of_beq hlength⟩

theorem server_linearizable_two : ∃ state d₀ s, KVState.start 2 (fun _ => none) = .ok state ∧
    run (Server.step ⟨2, 1, 5⟩) (.start ⟨2, 1, 5⟩ state (fun _ => .empty)
      fun _ => ⟨0, emptyString⟩) overlappingPuts = .ok s ∧ s.history.length = 4 ∧
      ∃ l d, Linearizes requestSpec d₀ s.history l d ∧
        ∀ key, s.cache.state.lookup key = .ok (d key) := by
  obtain ⟨state, s, hstate, hun, hrun, hlength⟩ := overlappingPuts_run
  obtain ⟨state', d₀, hstate', -, hruns⟩ := server_linearizable one_le_two wellFormedFiles_none
  obtain rfl := Except.ok.inj (hstate.symm.trans hstate')
  exact ⟨state, d₀, s, hstate, hrun, hlength, hruns _ _ _ _ s hun hrun⟩

end KeyValueStore
