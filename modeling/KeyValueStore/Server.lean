import KeyValueStore.EventLoop

/-!
# The server

`main_thread` hands the clients that it accepts to the workers of its pool. Every worker runs the
loop of `worker_thread` on its own clients, with a `KVMessage` of its own, and all of them work on
one cache and one store: worker `i` of the pool is thread `i` of the cache.

The steps of the workers, the main thread and the clients interleave in any order. A worker takes a
request whole from its connection, goes through the cache in the steps of a thread, and writes the
response when the operation has returned; in between, any other worker may take steps. A worker that
was not started takes none. A step that is not possible changes nothing.
-/

namespace KeyValueStore

/-! ## The threads -/

/-- Where a worker is in its loop. -/
inductive WorkerPc
  /-- In `epoll_wait`. -/
  | polling
  /-- Before the next of these events. -/
  | serving (events : List EpollEvent)
  /-- In an operation of the cache, for the request of this client. -/
  | executing (fd : Nat) (rest : List EpollEvent)
  /-- The operation has returned. -/
  | responding (fd : Nat) (answer : CacheAnswer) (rest : List EpollEvent)
  /-- Before the section under `mutex_new_client_fds`. -/
  | takingNew
deriving DecidableEq

/-- The variables of `worker_thread`. -/
structure WorkerThread where
  message : KVMessage
  pc : WorkerPc

/-- What the worker writes to the client. -/
def CacheAnswer.response : CacheAnswer → List UInt8
  | .get res message =>
    (if res then statusCodeValueSUCCESS else statusCodeValueERROR) ::
      (if res then message.value else errorMessage).bytes
  | .put => [statusCodeValueSUCCESS]
  | .delete res =>
    (if res then statusCodeValueSUCCESS else statusCodeValueERROR) ::
      (if res then [] else errorMessage.bytes)
  -- no request asks for it
  | .evictionSimple => []

/-- The worker's message after the operation. Only `cache_GET` writes to it. -/
def CacheAnswer.message (message : KVMessage) : CacheAnswer → KVMessage
  | .get _ ptr => ptr
  | _ => message

/-! ## The server -/

structure Server extends Clients where
  main : ServerState
  threads : Nat → WorkerThread
  cache : SharedCache

inductive ServerMove
  /-- Worker `i` goes on. If it is in `epoll_wait`, this is what the call returns. -/
  | worker (i : Nat) (events : List EpollEvent)
  /-- The main thread accepts a client and hands it to a worker. -/
  | accept (fd : Nat)
  /-- The client makes a call. -/
  | call (fd : Nat) (call : ClientCall)
  /-- It writes the next field of its request. -/
  | write (fd : Nat)
  /-- It reads the response, and the call returns. -/
  | receive (fd : Nat)
  /-- It closes the connection. -/
  | close (fd : Nat)

namespace Server

/-- When `main_thread` starts to accept. -/
def start (config : ServerConfig) (state : KVState) (messages : Nat → KVMessage)
    (clients : Nat → Client) : Server :=
  { toClients := .new clients
    main := .start config
    threads := fun i => ⟨messages i, .polling⟩
    cache := .start state }

variable (config : ServerConfig) (s : Server) (i fd : Nat)

/-- Worker `i` goes on at `pc`. -/
def goto (pc : WorkerPc) : Server :=
  { s with threads := Function.update s.threads i { s.threads i with pc := pc } }

/-- A step of the dispatch. -/
def dispatch (a : ServerStep) : Server :=
  match s.main.step config a with
  | .ok main => { s with main := main }
  | .error () => s

/-- `epoll_wait` of a worker with this `info` may report the event. -/
def Ready (info : WorkerThreadInfo) (e : EpollEvent) : Prop :=
  e.fd ∈ info.registered ∧
    (e.failed = true ∨ (s.peers e.fd).connection.toServer ≠ [] ∨ (s.peers e.fd).closed = true)

instance (info : WorkerThreadInfo) (e : EpollEvent) : Decidable (s.Ready info e) :=
  inferInstanceAs (Decidable (_ ∧ _))

/-- `epoll_wait` reports some of what is ready. The real call leaves nothing out that fits, and
reports as failed only what is; what holds of all these runs holds of its runs. -/
def epollWait (info : WorkerThreadInfo) (events : List EpollEvent) : Server :=
  if events.length ≤ config.clientsPerThread ∧ (events.map EpollEvent.fd).Nodup ∧
      ∀ e ∈ events, s.Ready info e then
    s.goto i (.serving events)
  else s

/-- One event, with those after it, up to the operation of the cache. -/
def serveEvent (rest : List EpollEvent) : Except Fault Server :=
  let p := s.peers fd
  let message := (s.threads i).message
  match p.connection.toServer with
  | [] =>
    .ok (if p.closed then (s.dispatch config (.disconnect i fd)).goto i (.serving rest) else s)
  | statusCode :: toServer =>
    if !isRequestCodeValid statusCode then
      .ok { s with
        toClients := s.setPeer fd
          { p with connection := ⟨toServer, p.connection.toClient ++ [statusCodeValueERROR]⟩ }
        threads := Function.update s.threads i
          ⟨{ message with statusCode := statusCode }, .serving rest⟩ }
    else
      match readRequest message statusCode toServer with
      -- the worker reads on when the next field is there
      | .error .blocked => .ok s
      | .error e => .error e
      | .ok (op, message, toServer) =>
        .ok { s with
          toClients := s.setPeer fd { p with connection := ⟨toServer, p.connection.toClient⟩ }
          threads := Function.update s.threads i ⟨message, .executing fd rest⟩
          cache := s.cache.invoke i op message }

/-- The next step of the operation. When it returns, its answer is the last entry of the history. -/
def execute (rest : List EpollEvent) : Except Fault Server := do
  let cache ← s.cache.runThread i
  match cache.pc i, cache.history.getLast? with
  | .idle, some (.respond _ answer) =>
    return { s with
      threads := Function.update s.threads i
        ⟨answer.message (s.threads i).message, .responding fd answer rest⟩
      cache := cache }
  | _, _ => return { s with cache := cache }

def respond (answer : CacheAnswer) (rest : List EpollEvent) : Server :=
  let p := s.peers fd
  { s.goto i (.serving rest) with
    toClients := s.setPeer fd
      { p with connection :=
        { p.connection with toClient := p.connection.toClient ++ answer.response } } }

def runWorker (events : List EpollEvent) : Except Fault Server :=
  match s.main.threadPool[i]? with
  | none => .ok s
  | some info =>
    if info.started then
      match (s.threads i).pc with
      | .polling => .ok (s.epollWait config i info events)
      | .serving [] => .ok (s.goto i .takingNew)
      -- a `break`: the other events are left for the next `epoll_wait`
      | .serving (e :: rest) =>
        if e.failed then .ok (s.goto i (.serving [])) else s.serveEvent config i e.fd rest
      | .executing fd rest => s.execute i fd rest
      | .responding fd answer rest => .ok (s.respond i fd answer rest)
      | .takingNew => .ok ((s.dispatch config (.takeNew i)).goto i .polling)
    else .ok s

def acceptClient : Server :=
  if (s.peers fd).accepted = false then
    { s.dispatch config (.accept fd) with toClients := s.accept fd }
  else s

def step : ServerMove → Except Fault Server
  | .worker i events => s.runWorker config i events
  | .accept fd => .ok (s.acceptClient config fd)
  | .call fd c => .ok { s with toClients := s.call fd c }
  | .write fd => .ok { s with toClients := s.write fd }
  | .receive fd => do return { s with toClients := ← s.receive fd ⟨.empty, s.cache.state, []⟩ }
  | .close fd => .ok { s with toClients := s.close fd }

end Server

end KeyValueStore
