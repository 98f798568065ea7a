import KeyValueStore.Cache
import KeyValueStore.Lib.Linearizable

/-!
# Worker threads on one cache

Any number of threads run `cache_GET`, `cache_PUT` and `cache_DELETE` on one cache. What a thread
does between acquiring and releasing its locks is one step; so is every unlocked stretch that reads
or writes shared memory, such as the head test and the read of the tail in `cache_eviction`. `Pc`
says where a thread stands between two steps, and any other thread may take steps there.

A step that does not return (`Fault`) ends the run. The history records when an operation was
called and when it returned, and with what.
-/

namespace KeyValueStore

open Linearizability Run

inductive Op
  | get
  | put
  | delete
deriving DecidableEq

def Op.call : Op → KVMessage → CacheCall
  | .get => .get
  | .put => .put
  | .delete => .delete

/-- An operation under way, with `*ptr` as the thread has it. -/
structure Task where
  id : Nat
  op : Op
  ptr : KVMessage

/-- Where a thread stands. -/
inductive Pc
  | idle
  /-- Before the section under the reader lock. -/
  | search (task : Task)
  /-- At the start of `cache_PUT_new_entry`. -/
  | newEntry (task : Task)
  | acquire (task : Task)
  /-- At the start of `cache_eviction`. -/
  | evictStart (task : Task)
  /-- At the test of the loop, with `i` iterations done. -/
  | evictTest (task : Task) (eqIdx i : Nat)
  /-- Before `hqIdx` is computed. -/
  | evictHash (task : Task) (eqIdx : Nat)
  /-- Before the section under the writer locks. -/
  | evictLock (task : Task) (eqIdx hqIdx : Nat)
  /-- Before `set_all` on the new node. -/
  | fill (task : Task) (p : NodePtr)
  /-- Before the new node is linked in. -/
  | link (task : Task) (q : Nat) (p : NodePtr)
  /-- The reader lock is released, the writer locks are not yet acquired. -/
  | upgrade (task : Task) (p : NodePtr)
  /-- `cache_DELETE` after it broke out of its search loop. -/
  | deleteDb (task : Task)

/-- The cache and its threads. -/
structure SharedCache where
  state : KVState
  pc : Nat → Pc
  history : List (Event CacheCall CacheAnswer)
  nextId : Nat

inductive Action
  /-- Thread `t` calls an operation. -/
  | invoke (t : Nat) (op : Op) (ptr : KVMessage)
  /-- Thread `t` takes its next step. -/
  | run (t : Nat)

def Action.thread : Action → Nat
  | .invoke t _ _ => t
  | .run t => t

namespace SharedCache

/-- Before any operation. -/
def start (s : KVState) : SharedCache := ⟨s, fun _ => .idle, [], 0⟩

/-- Thread `t` goes on at `pc`. -/
def goto (σ : SharedCache) (t : Nat) (pc : Pc) (s : KVState) : SharedCache :=
  { σ with state := s, pc := Function.update σ.pc t pc }

/-- Thread `t` returns. -/
def finish (σ : SharedCache) (t : Nat) (task : Task) (ret : CacheAnswer) (s : KVState) :
    SharedCache :=
  { σ with
    state := s
    pc := Function.update σ.pc t .idle
    history := σ.history ++ [.respond task.id ret] }

section

variable (σ : SharedCache) (t : Nat) (pc : Pc) (task : Task) (ret : CacheAnswer) (s : KVState)

@[simp] theorem goto_state : (σ.goto t pc s).state = s := rfl
@[simp] theorem goto_pc : (σ.goto t pc s).pc = Function.update σ.pc t pc := rfl
@[simp] theorem goto_history : (σ.goto t pc s).history = σ.history := rfl
@[simp] theorem goto_nextId : (σ.goto t pc s).nextId = σ.nextId := rfl

@[simp] theorem finish_state : (σ.finish t task ret s).state = s := rfl
@[simp] theorem finish_pc : (σ.finish t task ret s).pc = Function.update σ.pc t .idle := rfl
@[simp] theorem finish_history :
    (σ.finish t task ret s).history = σ.history ++ [.respond task.id ret] := rfl
@[simp] theorem finish_nextId : (σ.finish t task ret s).nextId = σ.nextId := rfl

end

/-- Only a thread between two operations can call one. -/
def invoke (σ : SharedCache) (t : Nat) (op : Op) (ptr : KVMessage) : SharedCache :=
  match σ.pc t with
  | .idle =>
    { σ with
      pc := Function.update σ.pc t (.search ⟨σ.nextId, op, ptr.calculateKeyHash⟩)
      history := σ.history ++ [.invoke σ.nextId (op.call ptr)]
      nextId := σ.nextId + 1 }
  | _ => σ

@[simp] theorem state_invoke (σ : SharedCache) (t : Nat) (op : Op) (ptr : KVMessage) :
    (σ.invoke t op ptr).state = σ.state := by
  rw [invoke]
  split <;> rfl

/-- The section under the reader lock. -/
def runSearch (σ : SharedCache) (t : Nat) (task : Task) : Except Fault SharedCache :=
  match task.op with
  | .get => do
    match ← σ.state.getSearch task.ptr with
    | (.done res ptr, s) => return σ.finish t task (.get res.isSome ptr) s
    | (.load ptr, s) => return σ.goto t (.newEntry { task with ptr := ptr }) s
  | .put => do
    match ← σ.state.cache.findEntry task.ptr with
    | some p => return σ.goto t (.upgrade task p) σ.state
    | none => return σ.goto t (.newEntry task) σ.state
  | .delete => do
    match ← σ.state.deleteSearch task.ptr with
    | (.done res, s) => return σ.finish t task (.delete res) s
    | (.upgrade p, s) => return σ.goto t (.upgrade task p) s

/-- The section under the writer locks. -/
def runUpgrade (σ : SharedCache) (t : Nat) (task : Task) (p : NodePtr) : Except Fault SharedCache :=
  -- no step marks a node `notInCache` that a search can find, so `upgradePut` evicts none in here
  match task.op with
  | .delete => do
    match ← σ.state.upgradeDelete p with
    | (some res, s) => return σ.finish t task (.delete res) s
    | (none, s) => return σ.goto t (.deleteDb task) s
  | _ => do return σ.finish t task .put (← σ.state.upgradePut task.ptr p)

/-- The test of the loop of `cache_eviction`. The null pointer that it returns for an empty cache is
dereferenced by its caller. -/
def runEvictTest (σ : SharedCache) (t : Nat) (task : Task) (eqIdx i : Nat) :
    Except Fault SharedCache :=
  if (σ.state.cache.lruEvictionTable eqIdx).head = none then
    if i < cacheTableLen then
      let (eqIdx, c) := σ.state.cache.getNextEvictionQueueIdx
      .ok (σ.goto t (.evictTest task eqIdx (i + 1)) { σ.state with cache := c })
    else .error .nullPointer
  else .ok (σ.goto t (.evictHash task eqIdx) σ.state)

/-- What `cache_PUT_new_entry` lets its caller answer. -/
def linkAnswer (task : Task) : CacheAnswer :=
  match task.op with
  | .get => .get true task.ptr
  | _ => .put

/-- The next step of thread `t`. -/
def runThread (σ : SharedCache) (t : Nat) : Except Fault SharedCache :=
  match σ.pc t with
  | .idle => .ok σ
  | .search task => σ.runSearch t task
  | .newEntry task =>
    .ok (σ.goto t (if σ.state.cache.isFull then .evictStart task else .acquire task) σ.state)
  | .acquire task => do
    match ← σ.state.cache.acquireInstance with
    | (none, _) => .error .nullPointer
    | (some p, c) => return σ.goto t (.fill task p) { σ.state with cache := c }
  | .evictStart task =>
    let (eqIdx, c) := σ.state.cache.getNextEvictionQueueIdx
    .ok (σ.goto t (.evictTest task eqIdx 0) { σ.state with cache := c })
  | .evictTest task eqIdx i => σ.runEvictTest t task eqIdx i
  | .evictHash task eqIdx => do
    return σ.goto t (.evictLock task eqIdx (← σ.state.cache.victimBucket eqIdx)) σ.state
  | .evictLock task eqIdx hqIdx => do
    match ← σ.state.evictLocked eqIdx hqIdx with
    | (none, s) => return σ.goto t (.evictStart task) s
    | (some p, s) => return σ.goto t (.fill task p) s
  | .fill task p =>
    let (q, c) := σ.state.cache.fill task.ptr p
    .ok (σ.goto t (.link task q p) { σ.state with cache := c })
  | .link task q p =>
    let c := σ.state.cache.link (hashTableIdx task.ptr) q p
    .ok (σ.finish t task (linkAnswer task) { σ.state with cache := c })
  | .upgrade task p => σ.runUpgrade t task p
  | .deleteDb task => do
    let (found, store) ← σ.state.store.deleteFromDb task.ptr
    return σ.finish t task (.delete found) { σ.state with store := store }

def step (σ : SharedCache) : Action → Except Fault SharedCache
  | .invoke t op ptr => .ok (σ.invoke t op ptr)
  | .run t => σ.runThread t

/-! ## The other threads -/

variable {σ σ' : SharedCache} {t : Nat}

theorem invoke_pc (op : Op) (ptr : KVMessage) (t' : Nat) (ht : t' ≠ t) :
    (σ.invoke t op ptr).pc t' = σ.pc t' := by
  rw [invoke]
  split
  · exact Function.update_of_ne ht _ _
  · rfl

theorem runThread_pc (σ : SharedCache) (t : Nat) :
    Ensures (σ.runThread t) fun σ' => ∀ t' ≠ t, σ'.pc t' = σ.pc t' := by
  have hupdate (σ' : SharedCache) (pc : Pc) (h : σ'.pc = Function.update σ.pc t pc) :
      Ensures (.ok σ' : Except Fault SharedCache) fun σ' => ∀ t' ≠ t, σ'.pc t' = σ.pc t' :=
    Ensures.ok fun t' ht => h ▸ Function.update_of_ne ht _ _
  rw [runThread]
  split
  · exact Ensures.ok fun _ _ => rfl
  · rw [runSearch]
    split <;> refine ensures_true.bind fun r _ => ?_ <;> split <;> exact hupdate _ _ rfl
  · exact hupdate _ _ rfl
  · refine ensures_true.bind fun r _ => ?_
    split
    · exact Ensures.error
    · exact hupdate _ _ rfl
  · exact hupdate _ _ rfl
  · rw [runEvictTest]
    split_ifs
    · exact hupdate _ _ rfl
    · exact Ensures.error
    · exact hupdate _ _ rfl
  · exact ensures_true.bind fun r _ => hupdate _ _ rfl
  · refine ensures_true.bind fun r _ => ?_
    split <;> exact hupdate _ _ rfl
  · exact hupdate _ _ rfl
  · exact hupdate _ _ rfl
  · rw [runUpgrade]
    split
    · refine ensures_true.bind fun r _ => ?_
      split <;> exact hupdate _ _ rfl
    · exact ensures_true.bind fun r _ => hupdate _ _ rfl
  · exact ensures_true.bind fun r _ => hupdate _ _ rfl

theorem step_pc {a : Action} (hstep : σ.step a = .ok σ') {t : Nat} (ht : t ≠ a.thread) :
    σ'.pc t = σ.pc t := by
  cases a with
  | invoke t' op ptr =>
    obtain rfl := Except.ok.inj hstep
    exact invoke_pc op ptr t ht
  | run t' => exact runThread_pc σ t' σ' hstep t ht

end SharedCache

end KeyValueStore
