import KeyValueStore.Connections
import KeyValueStore.Dispatcher

/-!
# The event loop of a worker

One `worker_thread` serves any number of connections. It waits in `epoll_wait` until some are ready,
serves one event after another under `mutex_serving_clients`, with one `KVMessage` for all of them,
and takes over the clients that the main thread has left in `client_fds_new`.

The steps of the worker, the main thread and the clients interleave in any order. A step that is not
possible changes nothing. Every field arrives whole; a read that finds none waits, and leaves the
worker where it is. Clients close their connections between their calls, and their connections fail
between their calls (requests that end early are the subject of `TruncatedRequests`).

`epoll_wait` is level-triggered: it reports what is ready, and reports it again as long as it is.
When more descriptors are ready than fit, any of them may be reported, in any order. A descriptor
that has failed stays in the epoll set, so from then on it is always ready.

The handler of an interrupt locks `mutex_serving_clients` as well: `ServerShutdown`.
-/

namespace KeyValueStore

/-! ## The loop -/

structure EpollEvent where
  fd : Nat
  /-- `EPOLLERR` or `EPOLLHUP` is set, or `EPOLLIN` is not. -/
  failed : Bool
deriving DecidableEq

/-- Where the worker is in its loop. -/
inductive LoopPc
  /-- In `epoll_wait`. -/
  | polling
  /-- Before the next of these events. -/
  | serving (events : List EpollEvent)
  /-- Before the section under `mutex_new_client_fds`. -/
  | takingNew
deriving DecidableEq

structure EventLoop extends Clients where
  worker : Worker
  info : WorkerThreadInfo
  pc : LoopPc
  /-- `EPOLLERR` or `EPOLLHUP` is set for the descriptor. -/
  failed : Nat → Bool

inductive LoopStep
  /-- The worker goes on. If it is in `epoll_wait`, this is what the call returns. -/
  | worker (events : List EpollEvent)
  /-- The main thread accepts a client and hands it to the worker. -/
  | accept (fd : Nat)
  /-- The client makes a call. -/
  | call (fd : Nat) (call : ClientCall)
  /-- It writes the next field of its request. -/
  | write (fd : Nat)
  /-- It reads the response, and the call returns. -/
  | receive (fd : Nat)
  /-- It closes the connection. -/
  | close (fd : Nat)
  /-- Its connection is reset. -/
  | fail (fd : Nat)

def LoopPc.events : LoopPc → List EpollEvent
  | .serving events => events
  | _ => []

namespace EventLoop

/-- A worker that was started, with clients that have made no calls. -/
def start (message : KVMessage) (state : KVState) (threadId : Nat) (clients : Nat → Client) :
    EventLoop :=
  { toClients := .new clients
    worker := ⟨message, state, []⟩
    info := (WorkerThreadInfo.new threadId).startThread
    pc := .polling
    failed := fun _ => false }

variable (config : ServerConfig) (s : EventLoop) (fd : Nat)

/-- A read for the descriptor does not wait for its first byte. -/
def Readable : Prop :=
  (s.peers fd).connection.toServer ≠ [] ∨ (s.peers fd).closed = true

instance : Decidable (s.Readable fd) := inferInstanceAs (Decidable (_ ∨ _))

/-- The descriptor is in the epoll set, and there is something to report of it. -/
def Ready : Prop := fd ∈ s.info.registered ∧ (s.failed fd = true ∨ s.Readable fd)

instance : Decidable (s.Ready fd) := inferInstanceAs (Decidable (_ ∧ _))

/-- What `epoll_wait` may return: all that is ready, or as much of it as fits. -/
def Reports (events : List EpollEvent) : Prop :=
  events.length ≤ config.clientsPerThread ∧ (events.map EpollEvent.fd).Nodup ∧
    (∀ e ∈ events, s.Ready e.fd ∧ e.failed = s.failed e.fd) ∧
    (events.length < config.clientsPerThread →
      ∀ fd ∈ s.info.registered, s.Ready fd → fd ∈ events.map EpollEvent.fd)

instance (events : List EpollEvent) : Decidable (s.Reports config events) :=
  inferInstanceAs (Decidable (_ ∧ _))

/-- `epoll_wait` returns; without events after three seconds. -/
def epollWait (events : List EpollEvent) : EventLoop :=
  if s.Reports config events then { s with pc := .serving events } else s

/-- One event, with those after it. -/
def serveEvent (rest : List EpollEvent) : Except Fault EventLoop :=
  let p := s.peers fd
  match p.connection.toServer with
  | [] =>
    if p.closed then .ok { s with info := s.info.closeClient fd, pc := .serving rest } else .ok s
  | statusCode :: toServer =>
    match s.worker.serveEvent statusCode ⟨toServer, p.connection.toClient⟩ with
    -- the worker reads on when the next field is there
    | .error .blocked => .ok s
    | .error e => .error e
    | .ok (worker, connection) =>
      .ok { s with
        toClients := s.setPeer fd { p with connection := connection }
        worker := worker
        pc := .serving rest }

def runWorker (events : List EpollEvent) : Except Fault EventLoop :=
  match s.pc with
  | .polling => .ok (s.epollWait config events)
  | .serving [] => .ok { s with pc := .takingNew }
  -- a `break`: the other events are left for the next `epoll_wait`
  | .serving (e :: rest) =>
    if e.failed then .ok { s with pc := .serving [] } else s.serveEvent e.fd rest
  | .takingNew => .ok { s with info := s.info.takeNewClients, pc := .polling }

def accept : EventLoop :=
  if (s.peers fd).accepted = false ∧ s.info.hasRoom config then
    { s with toClients := s.toClients.accept fd, info := s.info.pushNew fd }
  else s

/-- The connection of a client that has no call under way is reset. What happens when that comes
between `epoll_wait` and the read is left out. -/
def fail : EventLoop :=
  if (s.peers fd).call = none ∧ fd ∉ s.pc.events.map EpollEvent.fd then
    { s with toClients := s.close fd, failed := Function.update s.failed fd true }
  else s

def step : LoopStep → Except Fault EventLoop
  | .worker events => s.runWorker config events
  | .accept fd => .ok (s.accept config fd)
  | .call fd c => .ok { s with toClients := s.call fd c }
  | .write fd => .ok { s with toClients := s.write fd }
  | .receive fd => do return { s with toClients := ← s.receive fd s.worker }
  | .close fd => .ok { s with toClients := s.close fd }
  | .fail fd => .ok (s.fail fd)

end EventLoop

end KeyValueStore
