import KeyValueStore.Lib.Run
import Mathlib.Data.List.Nodup
import Mathlib.Data.List.Perm.Basic

/-!
# The main thread and its workers

`main_thread` accepts connections and hands each to one worker of a growing list. It offers the
client round robin, and to a worker only while `client_fds_count` is below `CLIENTS_PER_THREAD`; if
no worker has room it adds `THREAD_POOL_GROWTH` workers. A worker that runs moves the clients from
`client_fds_new` to its epoll set, and closes a connection that its client has closed.

An accept with its dispatch is one step, as is one pass of a worker over `client_fds_new`, and the
handling of one end of file. A step that is not possible in a state fails.
-/

namespace KeyValueStore

open Run

/-- The part of `ServerConfig` that the dispatch depends on. A negative size or growth acts as 0,
and with a negative number of clients the constructor of a worker throws. -/
structure ServerConfig where
  threadPoolSizeInitial : Nat
  threadPoolGrowth : Nat
  clientsPerThread : Nat

structure WorkerThreadInfo where
  threadId : Nat
  clientFdsCount : Int
  clientFdsNew : List Nat
  /-- `start_thread` was called. -/
  started : Bool
  /-- The descriptors in the epoll set of the thread. -/
  registered : List Nat
deriving DecidableEq

namespace WorkerThreadInfo

/-- The constructor. -/
def new (threadId : Nat) : WorkerThreadInfo := ⟨threadId, 0, [], false, []⟩

def startThread (w : WorkerThreadInfo) : WorkerThreadInfo := { w with started := true }

def pushNew (w : WorkerThreadInfo) (fd : Nat) : WorkerThreadInfo :=
  { w with clientFdsNew := w.clientFdsNew ++ [fd] }

/-- One turn of the loop that takes over the new clients. -/
def addClient (w : WorkerThreadInfo) (fd : Nat) : WorkerThreadInfo :=
  { w with registered := w.registered ++ [fd], clientFdsCount := w.clientFdsCount + 1 }

/-- The section under `mutex_new_client_fds` in `worker_thread`. -/
def takeNewClients (w : WorkerThreadInfo) : WorkerThreadInfo :=
  { w.clientFdsNew.foldl addClient w with clientFdsNew := [] }

/-- `read` has returned 0 for the descriptor. -/
def closeClient (w : WorkerThreadInfo) (fd : Nat) : WorkerThreadInfo :=
  { w with registered := w.registered.erase fd, clientFdsCount := w.clientFdsCount - 1 }

/-- The connections that the worker is responsible for. -/
def clients (w : WorkerThreadInfo) : List Nat := w.registered ++ w.clientFdsNew

/-- The test of `main_thread` for a worker it offers a client to. -/
def hasRoom (config : ServerConfig) (w : WorkerThreadInfo) : Bool :=
  decide (w.clientFdsCount < config.clientsPerThread)

end WorkerThreadInfo

/-- The list of the workers, the round-robin iterator (the length of the list is `end()`), and the
descriptors of the connections that were accepted and not closed. -/
structure ServerState where
  threadPool : List WorkerThreadInfo
  listIter : Nat
  connections : List Nat

namespace ServerState

open WorkerThreadInfo

def emplaceBack (pool : List WorkerThreadInfo) : List WorkerThreadInfo :=
  pool ++ [new (pool.length + 1)]

/-- The initial pool, after `n` turns of the loop. -/
def startWorkers : Nat → List WorkerThreadInfo
  | 0 => []
  | n + 1 => startWorkers n ++ [(new (n + 1)).startThread]

/-- When `main_thread` starts to accept. -/
def start (config : ServerConfig) : ServerState :=
  ⟨startWorkers config.threadPoolSizeInitial, 0, []⟩

/-- The round-robin loop, with the number of turns left: the worker it stops at, if it finds one
with room. -/
def offer (config : ServerConfig) (pool : List WorkerThreadInfo) : Nat → Nat → Option Nat
  | 0, _ => none
  | turns + 1, listIter =>
    let i := if listIter = pool.length then 0 else listIter
    match pool[i]? with
    | some w => if w.hasRoom config then some i else offer config pool turns (i + 1)
    | none => none

/-- The workers that follow the first one of a growth. -/
def growRest : Nat → List WorkerThreadInfo → List WorkerThreadInfo
  | 0, pool => pool
  | n + 1, pool => growRest n (emplaceBack pool)

/-- The client goes to a worker with room, or to the first worker of a growth. -/
def dispatch (config : ServerConfig) (s : ServerState) (fd : Nat) : ServerState :=
  match offer config s.threadPool s.threadPool.length s.listIter with
  | some i => { s with threadPool := s.threadPool.modify i (·.pushNew fd), listIter := i + 1 }
  | none =>
    let first := ((new (s.threadPool.length + 1)).pushNew fd).startThread
    { s with
      threadPool := growRest (config.threadPoolGrowth - 1) (s.threadPool ++ [first])
      listIter := 0 }

end ServerState

inductive ServerStep
  /-- `accept` returns a descriptor, and the main thread hands it to a worker. -/
  | accept (fd : Nat)
  /-- Worker `i` looks at `client_fds_new`. -/
  | takeNew (i : Nat)
  /-- Worker `i` meets the end of a connection. -/
  | disconnect (i fd : Nat)

namespace ServerState

/-- A descriptor that is in use is never given out again, and only a running worker does
anything. -/
def step (config : ServerConfig) (s : ServerState) : ServerStep → Except Unit ServerState
  | .accept fd =>
    if fd ∈ s.connections then .error ()
    else .ok { dispatch config s fd with connections := s.connections ++ [fd] }
  | .takeNew i =>
    match s.threadPool[i]? with
    | some w =>
      if w.started then .ok { s with threadPool := s.threadPool.modify i (·.takeNewClients) }
      else .error ()
    | none => .error ()
  | .disconnect i fd =>
    match s.threadPool[i]? with
    | some w =>
      if w.started ∧ fd ∈ w.registered then
        .ok { s with
          threadPool := s.threadPool.modify i (·.closeClient fd)
          connections := s.connections.erase fd }
      else .error ()
    | none => .error ()

end ServerState

end KeyValueStore
