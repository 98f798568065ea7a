import KeyValueStore.Lib.Locking
import KeyValueStore.Threads

/-!
# The locks of cache and store

Any number of threads run `cache_GET`, `cache_PUT`, `cache_DELETE` and `cache_eviction`, and every
lock of a bucket, of an LRU queue, of a database file and of the pool is taken and released in a
step of its own. `LockPc` says which instruction a thread is at. The lock guards of a function are
released in the reverse order of their construction, unless the function unlocks them itself.

Between two such steps a thread runs a stretch of code on the shared memory. The search along a
bucket is a step for each node, and unlocked code a step for each access that other threads may come
between. A stretch that faults leaves its thread, and what it holds, where they are.
-/

namespace KeyValueStore

open Locking

/-- The locks. The guards of `hashTable.at(h)`, of `lruEvictionTable.at(q)`, `file_locks[i]` and
`MemoryPool::m`. -/
inductive CacheLock
  | bucket (h : Nat)
  | queue (q : Nat)
  | file (i : Nat)
  | pool
deriving DecidableEq

/-- What a thread can be asked to do. -/
inductive Invocation
  | request (op : Op) (ptr : KVMessage)
  | eviction

inductive Returned
  | get (found : Bool) (ptr : KVMessage)
  | put
  | delete (found : Bool)
  | eviction (p : Option NodePtr)

/-- Who waits for a node that `cache_eviction` or `acquire_instance` returns. -/
inductive Caller
  /-- `cache_PUT_new_entry`, for `cache_GET` or `cache_PUT`. -/
  | newEntry (op : Op) (ptr : KVMessage)
  /-- `cache_PUT` under its writer locks, for a node that is not in the cache any more. -/
  | renew (ptr : KVMessage) (q : Nat)
  /-- The thread was asked for an eviction. -/
  | direct

/-- The instruction that a thread is at. -/
inductive LockPc
  /-- Between two operations. -/
  | idle (last : Option Returned)
  /- under the reader lock -/
  | readerLock (op : Op) (ptr : KVMessage)
  | search (op : Op) (ptr : KVMessage)
  /-- The loop of the search, with `cacheNodeIter`. -/
  | searchNode (op : Op) (ptr : KVMessage) (p : Option NodePtr)
  | getQueueLock (ptr : KVMessage) (p : NodePtr) (q : Nat)
  | getMove (ptr : KVMessage) (p : NodePtr) (q : Nat)
  | getQueueUnlock (ret : Returned) (ptr : KVMessage) (q : Nat)
  | readDbLock (ptr : KVMessage)
  | readDb (ptr : KVMessage)
  | readDbUnlock (found : Bool) (ptr : KVMessage)
  /-- `reader_lock.unlock()` before `cache_PUT_new_entry` -/
  | missUnlock (op : Op) (ptr : KVMessage)
  /-- The end of the scope of `reader_lock`. -/
  | readerUnlock (ret : Returned) (ptr : KVMessage)
  /- `delete_from_db`, called by `cache_DELETE` with its reader lock or with none -/
  | deleteDbLock (ptr : KVMessage) (reader : Bool)
  | deleteDb (ptr : KVMessage) (reader : Bool)
  | deleteDbUnlock (found : Bool) (ptr : KVMessage) (reader : Bool)
  /- the reader lock is exchanged for the writer locks -/
  | upgradeUnlock (op : Op) (ptr : KVMessage) (p : NodePtr)
  | upgradeBucketLock (op : Op) (ptr : KVMessage) (p : NodePtr)
  | upgradeQueue (op : Op) (ptr : KVMessage) (p : NodePtr)
  | upgradeQueueLock (op : Op) (ptr : KVMessage) (p : NodePtr) (q : Nat)
  | upgrade (op : Op) (ptr : KVMessage) (p : NodePtr) (q : Nat)
  /-- The end of the scope of the two writer locks; without a result, `cache_DELETE` goes on. -/
  | writer2Unlock (ret : Option Returned) (ptr : KVMessage) (q : Nat)
  | writer1Unlock (ret : Option Returned) (ptr : KVMessage)
  /- the branch of `cache_PUT` for a node that is not in the cache any more -/
  | renew (ptr : KVMessage) (q : Nat)
  | renewNode (ptr : KVMessage) (q : Nat) (p : NodePtr)
  /- `cache_PUT_new_entry` -/
  | newEntry (op : Op) (ptr : KVMessage)
  | fill (op : Op) (ptr : KVMessage) (p : NodePtr)
  | linkBucketLock (op : Op) (ptr : KVMessage) (q : Nat) (p : NodePtr)
  | linkQueueLock (op : Op) (ptr : KVMessage) (q : Nat) (p : NodePtr)
  | link (op : Op) (ptr : KVMessage) (q : Nat) (p : NodePtr)
  /- `acquire_instance` -/
  | poolLock (k : Caller)
  | acquire (k : Caller)
  | poolUnlock (k : Caller) (p : NodePtr)
  /- `cache_eviction` -/
  | evictStart (k : Caller)
  | evictTest (k : Caller) (eqIdx i : Nat)
  | evictHash (k : Caller) (eqIdx : Nat)
  | evictBucketLock (k : Caller) (eqIdx hqIdx : Nat)
  | evictQueueLock (k : Caller) (eqIdx hqIdx : Nat)
  | evictUnlink (k : Caller) (eqIdx hqIdx : Nat)
  | evictFileLock (k : Caller) (eqIdx hqIdx : Nat) (p : NodePtr) (deleted : Bool) (i : Nat)
  | evictStore (k : Caller) (eqIdx hqIdx : Nat) (p : NodePtr) (deleted : Bool) (i : Nat)
  | evictFileUnlock (k : Caller) (eqIdx hqIdx : Nat) (p : NodePtr) (i : Nat)
  /-- `writer_lock1.unlock()`; without a node, `cache_eviction` starts over. -/
  | evictBucketUnlock (k : Caller) (eqIdx hqIdx : Nat) (p : Option NodePtr)
  | evictQueueUnlock (k : Caller) (eqIdx : Nat) (p : Option NodePtr)

/-! ## The stretches of code between them -/

/-- Such a stretch leads to an instruction. -/
abbrev Stretch := KVState → Except Fault (LockPc × KVState)

/-- The index of `lruEvictionTable.at(p->lru_idx)`. -/
def KVCache.queueOf (c : KVCache) (p : NodePtr) : Except Fault Nat :=
  if c.lruIdx p < c.lruTableSize then .ok (c.lruIdx p) else .error .outOfRange

namespace LockPc

/-- What is read of the node found, and where that leads to. -/
def runHit (op : Op) (ptr : KVMessage) (p : NodePtr) : Stretch := fun s =>
  match op with
  | .get => do
    let ptr :=
      if s.cache.dirtyBit p = .toDelete then ptr
      else { ptr with value := (s.cache.message p).value }
    return (getQueueLock ptr p (← s.cache.queueOf p), s)
  | .put => .ok (upgradeUnlock .put ptr p, s)
  | .delete =>
    match s.cache.dirtyBit p with
    | .toDelete => .ok (readerUnlock (.delete false) ptr, s)
    | .notInCache => .ok (readerUnlock (.delete true) ptr, s)
    | _ => .ok (upgradeUnlock .delete ptr p, s)

/-- Where the end of the bucket leads to. -/
def miss (ptr : KVMessage) : Op → LockPc
  | .get => readDbLock ptr
  | .put => missUnlock .put ptr
  | .delete => deleteDbLock ptr true

/-- The search compares one node. -/
def runSearchNode (op : Op) (ptr : KVMessage) : Option NodePtr → Stretch
  | none, s => .ok (miss ptr op, s)
  | some p, s =>
    if entryEquals (s.cache.message p) ptr then runHit op ptr p s
    else .ok (searchNode op ptr (s.cache.l1Right p), s)

/-- `move_to_head_LRU` of `cache_GET`, and the second test of the mark. -/
def runGetMove (ptr : KVMessage) (p : NodePtr) (q : Nat) : Stretch := fun s => do
  let c ← s.cache.moveToHeadLRU p
  return (getQueueUnlock (.get (decide (c.dirtyBit p ≠ .toDelete)) ptr) ptr q,
    { s with cache := c })

/-- Under the writer locks. -/
def runUpgrade (op : Op) (ptr : KVMessage) (p : NodePtr) (q : Nat) : Stretch := fun s =>
  match op with
  | .delete => do
    let (ret, s) ← s.upgradeDelete p
    return (writer2Unlock (ret.map .delete) ptr q, s)
  | _ =>
    if s.cache.dirtyBit p = .notInCache then .ok (renew ptr q, s)
    else do return (writer2Unlock (some .put) ptr q, ← s.upgradePut ptr p)

/-- A new node is given the key and the value in place of the one found. -/
def runRenewNode (ptr : KVMessage) (q : Nat) (p : NodePtr) : Stretch := fun s => do
  let c := s.cache.setMessage p
    { s.cache.message p with hash1 := ptr.hash1, hash2 := ptr.hash2, key := ptr.key }
  let c ← ((c.setDirtyBit p .dirty).setValue p ptr.value).moveToHeadLRU p
  return (writer2Unlock (some .put) ptr q, { s with cache := c })

/-- `if (is_full()) cache_eviction() else acquire_instance()` -/
def runIsFull (k : Caller) : Stretch := fun s =>
  .ok (if s.cache.isFull then evictStart k else poolLock k, s)

def runAcquire (k : Caller) : Stretch := fun s => do
  match ← s.cache.acquireInstance with
  | (none, _) => .error .nullPointer
  | (some p, c) => return (poolUnlock k p, { s with cache := c })

/-- The test of the loop of `cache_eviction`. Its null pointer for an empty cache is dereferenced
by the other functions. -/
def runEvictTest (k : Caller) (eqIdx i : Nat) : Stretch := fun s =>
  if (s.cache.lruEvictionTable eqIdx).head = none then
    if i < cacheTableLen then
      let (eqIdx, c) := s.cache.getNextEvictionQueueIdx
      .ok (evictTest k eqIdx (i + 1), { s with cache := c })
    else
      match k with
      | .direct => .ok (idle (some (.eviction none)), s)
      | _ => .error .nullPointer
  else .ok (evictHash k eqIdx, s)

/-- The victim is taken out of its lists, and its mark decides what is done in the store. -/
def runEvictUnlink (k : Caller) (eqIdx hqIdx : Nat) : Stretch := fun s =>
  match (s.cache.lruEvictionTable eqIdx).tail with
  | none => .error .nullPointer
  | some p =>
    if s.cache.dirtyBit p = .notInCache then .ok (evictBucketUnlock k eqIdx hqIdx none, s)
    else
      let c := (s.cache.removeFromDllHT hqIdx p).removeFromDllLRU eqIdx p
      let next :=
        match c.dirtyBit p with
        | .toDelete => evictFileLock k eqIdx hqIdx p true (KVStore.fileIdx (c.message p))
        | .dirty => evictFileLock k eqIdx hqIdx p false (KVStore.fileIdx (c.message p))
        | _ => evictBucketUnlock k eqIdx hqIdx (some p)
      .ok (next, { s with cache := c })

/-- `delete_from_db` or `write_to_db` of the victim. -/
def runEvictStore (k : Caller) (eqIdx hqIdx : Nat) (p : NodePtr) (deleted : Bool) (i : Nat) :
    Stretch := fun s =>
  if deleted then do
    let (_, store) ← s.store.deleteFromDb (s.cache.message p)
    return (evictFileUnlock k eqIdx hqIdx p i, { s with store := store })
  else do
    let store ← s.store.writeToDb (s.cache.message p)
    return (evictFileUnlock k eqIdx hqIdx p i, { s with store := store })

/-- What `cache_PUT_new_entry` lets its caller return. -/
def newEntryReturns (op : Op) (ptr : KVMessage) : Returned :=
  match op with
  | .get => .get true ptr
  | _ => .put

/-- Who called for a node goes on with it. -/
def goOn (p : NodePtr) : Caller → LockPc
  | .newEntry op ptr => fill op ptr p
  | .renew ptr q => renewNode ptr q p
  | .direct => idle (some (.eviction (some p)))

/-- A thread between two operations is asked for the next one. -/
def invoke : Invocation → LockPc
  | .request op ptr => readerLock op ptr.calculateKeyHash
  | .eviction => evictStart .direct

/-- The instruction at a place. -/
def instr (next : Invocation) : LockPc → Instr CacheLock LockPc KVState Fault
  | idle _ => .exec fun s => .ok (invoke next, s)
  | readerLock op ptr => .acquire (.bucket (hashTableIdx ptr)) .shared (search op ptr)
  | search op ptr => .exec fun s =>
    .ok (searchNode op ptr (s.cache.hashTable (hashTableIdx ptr)).head, s)
  | searchNode op ptr p => .exec (runSearchNode op ptr p)
  | getQueueLock ptr p q => .acquire (.queue q) .exclusive (getMove ptr p q)
  | getMove ptr p q => .exec (runGetMove ptr p q)
  | getQueueUnlock ret ptr q => .release (.queue q) .exclusive (readerUnlock ret ptr)
  | readDbLock ptr => .acquire (.file (KVStore.fileIdx ptr)) .shared (readDb ptr)
  | readDb ptr => .exec fun s => do
    let (found, ptr') ← s.store.readFromDb ptr
    return (readDbUnlock found { ptr with value := ptr'.value }, s)
  | readDbUnlock found ptr => .release (.file (KVStore.fileIdx ptr)) .shared
    (if found then missUnlock .get ptr else readerUnlock (.get false ptr) ptr)
  | missUnlock op ptr => .release (.bucket (hashTableIdx ptr)) .shared (newEntry op ptr)
  | readerUnlock ret ptr => .release (.bucket (hashTableIdx ptr)) .shared (idle (some ret))
  | deleteDbLock ptr reader =>
    .acquire (.file (KVStore.fileIdx ptr)) .exclusive (deleteDb ptr reader)
  | deleteDb ptr reader => .exec fun s => do
    let (found, store) ← s.store.deleteFromDb ptr
    return (deleteDbUnlock found ptr reader, { s with store := store })
  | deleteDbUnlock found ptr reader => .release (.file (KVStore.fileIdx ptr)) .exclusive
    (if reader then readerUnlock (.delete found) ptr else idle (some (.delete found)))
  | upgradeUnlock op ptr p =>
    .release (.bucket (hashTableIdx ptr)) .shared (upgradeBucketLock op ptr p)
  | upgradeBucketLock op ptr p =>
    .acquire (.bucket (hashTableIdx ptr)) .exclusive (upgradeQueue op ptr p)
  | upgradeQueue op ptr p => .exec fun s => do
    return (upgradeQueueLock op ptr p (← s.cache.queueOf p), s)
  | upgradeQueueLock op ptr p q => .acquire (.queue q) .exclusive (upgrade op ptr p q)
  | upgrade op ptr p q => .exec (runUpgrade op ptr p q)
  | writer2Unlock ret ptr q => .release (.queue q) .exclusive (writer1Unlock ret ptr)
  | writer1Unlock ret ptr => .release (.bucket (hashTableIdx ptr)) .exclusive
    (match ret with
    | some ret => idle (some ret)
    | none => deleteDbLock ptr false)
  | renew ptr q => .exec (runIsFull (.renew ptr q))
  | renewNode ptr q p => .exec (runRenewNode ptr q p)
  | newEntry op ptr => .exec (runIsFull (.newEntry op ptr))
  | fill op ptr p => .exec fun s =>
    let (q, c) := s.cache.fill ptr p
    .ok (linkBucketLock op ptr q p, { s with cache := c })
  | linkBucketLock op ptr q p =>
    .acquire (.bucket (hashTableIdx ptr)) .exclusive (linkQueueLock op ptr q p)
  | linkQueueLock op ptr q p => .acquire (.queue q) .exclusive (link op ptr q p)
  | link op ptr q p => .exec fun s =>
    .ok (writer2Unlock (some (newEntryReturns op ptr)) ptr q,
      { s with cache := s.cache.link (hashTableIdx ptr) q p })
  | poolLock k => .acquire .pool .exclusive (acquire k)
  | acquire k => .exec (runAcquire k)
  | poolUnlock k p => .release .pool .exclusive (goOn p k)
  | evictStart k => .exec fun s =>
    let (eqIdx, c) := s.cache.getNextEvictionQueueIdx
    .ok (evictTest k eqIdx 0, { s with cache := c })
  | evictTest k eqIdx i => .exec (runEvictTest k eqIdx i)
  | evictHash k eqIdx => .exec fun s => do
    return (evictBucketLock k eqIdx (← s.cache.victimBucket eqIdx), s)
  | evictBucketLock k eqIdx hqIdx =>
    .acquire (.bucket hqIdx) .exclusive (evictQueueLock k eqIdx hqIdx)
  | evictQueueLock k eqIdx hqIdx =>
    .acquire (.queue eqIdx) .exclusive (evictUnlink k eqIdx hqIdx)
  | evictUnlink k eqIdx hqIdx => .exec (runEvictUnlink k eqIdx hqIdx)
  | evictFileLock k eqIdx hqIdx p deleted i =>
    .acquire (.file i) .exclusive (evictStore k eqIdx hqIdx p deleted i)
  | evictStore k eqIdx hqIdx p deleted i => .exec (runEvictStore k eqIdx hqIdx p deleted i)
  | evictFileUnlock k eqIdx hqIdx p i =>
    .release (.file i) .exclusive (evictBucketUnlock k eqIdx hqIdx (some p))
  | evictBucketUnlock k eqIdx hqIdx p =>
    .release (.bucket hqIdx) .exclusive (evictQueueUnlock k eqIdx p)
  | evictQueueUnlock k eqIdx p => .release (.queue eqIdx) .exclusive
    (match p with
    | some p => goOn p k
    | none => evictStart k)

/-- Is the thread in the branch of `cache_PUT` for a node that is not in the cache any more? -/
def InRenew : LockPc → Prop
  | renew .. | renewNode .. => True
  | poolLock k | acquire k | poolUnlock k _ | evictStart k | evictTest k .. | evictHash k _
  | evictBucketLock k .. | evictQueueLock k .. | evictUnlink k .. | evictFileLock k ..
  | evictStore k .. | evictFileUnlock k .. | evictBucketUnlock k .. | evictQueueUnlock k .. =>
    ∃ ptr q, k = .renew ptr q
  | _ => False

end LockPc

/-- The threads before any operation. -/
def lockStart (s : KVState) : Config CacheLock LockPc KVState :=
  ⟨s, fun _ => .idle none, fun _ => []⟩

end KeyValueStore
