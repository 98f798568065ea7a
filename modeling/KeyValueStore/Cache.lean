import KeyValueStore.Lib.DoublyLinked
import KeyValueStore.MemoryPool
import KeyValueStore.Store

/-!
# `KVCache`: the write-back cache

A node of the cache is on two doubly linked lists, its hash bucket (`l1Left`, `l1Right`) and its
LRU queue (`l2Prev`, `l2Next`). The nodes live in a heap that is one function for each field, and
a node that was never written reads as freshly constructed.

Every stretch of an operation that runs under locks is a function of its own (`getSearch`,
`upgradePut`, `deleteSearch`, `upgradeDelete`, `evictLocked`, `link`). The operations of one thread
run them one after another.
-/

namespace KeyValueStore

open DoublyLinked

/-- `CACHE_TABLE_LEN`, the number of hash buckets. -/
def cacheTableLen : Nat := 16384

/-- `EnumDirtyBit` -/
inductive DirtyBit
  | allGood
  | dirty
  | notInCache
  | toDelete
deriving DecidableEq

structure CacheNodeQueuePtr where
  head : Option NodePtr
  tail : Option NodePtr
deriving DecidableEq

structure KVCache where
  nMax : Nat
  hashTable : Nat → CacheNodeQueuePtr
  lruEvictionTable : Nat → CacheNodeQueuePtr
  /-- `lruEvictionTable.size()` -/
  lruTableSize : Nat
  cacheNodeMemoryPool : MemoryPool
  lruTableInsertIdx : Nat
  lruEvictionIdx : Nat
  message : NodePtr → KVMessage
  l1Left : NodePtr → Option NodePtr
  l1Right : NodePtr → Option NodePtr
  l2Prev : NodePtr → Option NodePtr
  l2Next : NodePtr → Option NodePtr
  lruIdx : NodePtr → Nat
  dirtyBit : NodePtr → DirtyBit

/-- The bucket of a message, `hash1 % CACHE_TABLE_LEN`. -/
def hashTableIdx (m : KVMessage) : Nat := m.hash1.toNat % cacheTableLen

namespace KVCache

/-- `KVCache(cache_size)` -/
def new (cacheSize : Nat) : Except Fault KVCache := do
  let pool ← MemoryPool.new.init cacheSize 2
  return {
    nMax := cacheSize
    hashTable := fun _ => ⟨none, none⟩
    lruEvictionTable := fun _ => ⟨none, none⟩
    lruTableSize := if 10240 ≤ cacheSize then 128 else if 1024 ≤ cacheSize then 32 else 1
    cacheNodeMemoryPool := pool
    lruTableInsertIdx := 0
    lruEvictionIdx := 0
    message := fun _ => KVMessage.empty
    l1Left := fun _ => none
    l1Right := fun _ => none
    l2Prev := fun _ => none
    l2Next := fun _ => none
    lruIdx := fun _ => 0
    dirtyBit := fun _ => .notInCache }

/-! ## The two kinds of list -/

def bucketLinks (c : KVCache) (h : Nat) : Links NodePtr :=
  ⟨(c.hashTable h).head, (c.hashTable h).tail, c.l1Left, c.l1Right⟩

def setBucket (c : KVCache) (h : Nat) (d : Links NodePtr) : KVCache :=
  { c with
    hashTable := Function.update c.hashTable h ⟨d.head, d.tail⟩
    l1Left := d.prev
    l1Right := d.next }

def queueLinks (c : KVCache) (q : Nat) : Links NodePtr :=
  ⟨(c.lruEvictionTable q).head, (c.lruEvictionTable q).tail, c.l2Prev, c.l2Next⟩

def setQueue (c : KVCache) (q : Nat) (d : Links NodePtr) : KVCache :=
  { c with
    lruEvictionTable := Function.update c.lruEvictionTable q ⟨d.head, d.tail⟩
    l2Prev := d.prev
    l2Next := d.next }

def removeFromDllHT (c : KVCache) (h : Nat) (p : NodePtr) : KVCache :=
  c.setBucket h ((c.bucketLinks h).unlink p)

def insertToHeadHT (c : KVCache) (h : Nat) (p : NodePtr) : KVCache :=
  c.setBucket h ((c.bucketLinks h).pushFront p)

def removeFromDllLRU (c : KVCache) (q : Nat) (p : NodePtr) : KVCache :=
  c.setQueue q ((c.queueLinks q).unlink p)

def insertToHeadLRU (c : KVCache) (q : Nat) (p : NodePtr) : KVCache :=
  c.setQueue q ((c.queueLinks q).pushFront p)

/-- `move_to_head_LRU` of a node in the queue that its `lru_idx` names. -/
def moveToHeadLRU (c : KVCache) (p : NodePtr) : Except Fault KVCache :=
  if c.lruIdx p < c.lruTableSize then
    .ok (c.setQueue (c.lruIdx p) ((c.queueLinks (c.lruIdx p)).moveToFront p))
  else .error .outOfRange

/-! ## Nodes -/

def setDirtyBit (c : KVCache) (p : NodePtr) (b : DirtyBit) : KVCache :=
  { c with dirtyBit := Function.update c.dirtyBit p b }

def setMessage (c : KVCache) (p : NodePtr) (m : KVMessage) : KVCache :=
  { c with message := Function.update c.message p m }

/-- `set_value_fast` on the message of a node. -/
def setValue (c : KVCache) (p : NodePtr) (v : Chars256) : KVCache :=
  c.setMessage p { c.message p with value := v }

/-- `set_all`, with null links and `DirtyBit_DIRTY` as its only caller passes them. -/
def setAll (c : KVCache) (p : NodePtr) (m : KVMessage) (lruIdx : Nat) : KVCache :=
  { c with
    message := Function.update c.message p { m with statusCode := (c.message p).statusCode }
    l1Left := Function.update c.l1Left p none
    l1Right := Function.update c.l1Right p none
    l2Prev := Function.update c.l2Prev p none
    l2Next := Function.update c.l2Next p none
    lruIdx := Function.update c.lruIdx p lruIdx
    dirtyBit := Function.update c.dirtyBit p .dirty }

/-- The walk along a bucket. `fuel` bounds the number of nodes visited. -/
def findFrom (c : KVCache) (ptr : KVMessage) : Nat → Option NodePtr → Except Fault (Option NodePtr)
  | _, none => .ok none
  | 0, some _ => .error .endless
  | fuel + 1, some p =>
    if entryEquals (c.message p) ptr then .ok (some p) else findFrom c ptr fuel (c.l1Right p)

/-- The search at the start of every operation. A walk longer than the number of nodes allocated
has met a node twice and goes on for ever. -/
def findEntry (c : KVCache) (ptr : KVMessage) : Except Fault (Option NodePtr) :=
  c.findFrom ptr c.cacheNodeMemoryPool.allocated (c.hashTable (hashTableIdx ptr)).head

/-! ## Counters and the pool -/

def isFull (c : KVCache) : Bool := c.cacheNodeMemoryPool.n == 0

/-- `get_next_eviction_queue_idx`. The counter matters modulo the table size only, so its increment
and its later reduction are one step. -/
def getNextEvictionQueueIdx (c : KVCache) : Nat × KVCache :=
  (c.lruEvictionIdx % c.lruTableSize,
    { c with lruEvictionIdx := (c.lruEvictionIdx + 1) % c.lruTableSize })

def getNextLruQueueIdx (c : KVCache) : Nat × KVCache :=
  (c.lruTableInsertIdx % c.lruTableSize,
    { c with lruTableInsertIdx := (c.lruTableInsertIdx + 1) % c.lruTableSize })

/-- `cacheNodeMemoryPool.acquire_instance()` -/
def acquireInstance (c : KVCache) : Except Fault (Option NodePtr × KVCache) := do
  let (p, pool) ← c.cacheNodeMemoryPool.acquireInstance
  return (p, { c with cacheNodeMemoryPool := pool })

/-- `cacheNodeMemoryPool.release_instance(p)` -/
def releaseInstance (c : KVCache) (p : NodePtr) : Except Fault KVCache := do
  return { c with cacheNodeMemoryPool := ← c.cacheNodeMemoryPool.releaseInstance p }

/-- The loop of `cache_eviction` that looks for a queue with a head, with `k` iterations left. -/
def nextNonEmptyQueue : Nat → (eqIdx : Nat) → KVCache → Option Nat × KVCache
  | 0, eqIdx, c => (if (c.lruEvictionTable eqIdx).head = none then none else some eqIdx, c)
  | k + 1, eqIdx, c =>
    if (c.lruEvictionTable eqIdx).head = none then
      nextNonEmptyQueue k c.getNextEvictionQueueIdx.1 c.getNextEvictionQueueIdx.2
    else (some eqIdx, c)

/-- `lruEvictionTable.at(eqIdx).tail->message.hash1 % CACHE_TABLE_LEN` -/
def victimBucket (c : KVCache) (eqIdx : Nat) : Except Fault Nat :=
  match (c.lruEvictionTable eqIdx).tail with
  | none => .error .nullPointer
  | some p => .ok (hashTableIdx (c.message p))

/-- The new node of `cache_PUT_new_entry` is given its content. Returns its queue. -/
def fill (c : KVCache) (ptr : KVMessage) (p : NodePtr) : Nat × KVCache :=
  (c.getNextLruQueueIdx.1, c.getNextLruQueueIdx.2.setAll p ptr c.getNextLruQueueIdx.1)

/-- The locked section of `cache_PUT_new_entry`. -/
def link (c : KVCache) (h q : Nat) (p : NodePtr) : KVCache :=
  (c.insertToHeadHT h p).insertToHeadLRU q p

end KVCache

/-! ## The locked sections -/

/-- The cache and `kvPersistentStore`. -/
structure KVState where
  cache : KVCache
  store : KVStore

/-- What the locked section of `cache_GET_ptr` ends with. -/
inductive GetSearch
  | done (res : Option NodePtr) (ptr : KVMessage)
  /-- Found in the store: to be entered into the cache. -/
  | load (ptr : KVMessage)

/-- What the locked section of `cache_DELETE` ends with. -/
inductive DeleteSearch
  | done (res : Bool)
  /-- Found in the cache: to be marked under the writer locks. -/
  | upgrade (p : NodePtr)

namespace KVState

/-- `cache_GET_ptr` under the reader lock. -/
def getSearch (s : KVState) (ptr : KVMessage) : Except Fault (GetSearch × KVState) := do
  match ← s.cache.findEntry ptr with
  | some p =>
    let deleted := decide (s.cache.dirtyBit p = .toDelete)
    let ptr := if deleted then ptr else { ptr with value := (s.cache.message p).value }
    let c ← s.cache.moveToHeadLRU p
    return (.done (if deleted then none else some p) ptr, { s with cache := c })
  | none =>
    let (found, ptr) ← s.store.readFromDb ptr
    return (if found then .load ptr else .done none ptr, s)

/-- `cache_DELETE` under the reader lock. -/
def deleteSearch (s : KVState) (ptr : KVMessage) : Except Fault (DeleteSearch × KVState) := do
  match ← s.cache.findEntry ptr with
  | some p =>
    match s.cache.dirtyBit p with
    | .toDelete => return (.done false, s)
    -- an error is logged, and the key reported as deleted
    | .notInCache => return (.done true, s)
    | _ => return (.upgrade p, s)
  | none =>
    let (found, store) ← s.store.deleteFromDb ptr
    return (.done found, { s with store := store })

/-- `cache_DELETE` under the writer locks. `none` where it breaks out of the search loop. -/
def upgradeDelete (s : KVState) (p : NodePtr) : Except Fault (Option Bool × KVState) :=
  match s.cache.dirtyBit p with
  | .toDelete => .ok (some false, s)
  | .notInCache => .ok (none, s)
  | _ => do
    let c ← (s.cache.setDirtyBit p .toDelete).moveToHeadLRU p
    return (some true, { s with cache := c })

/-- `cache_eviction` under the writer locks of bucket `hqIdx` and queue `eqIdx`. `none` where it
starts over. -/
def evictLocked (s : KVState) (eqIdx hqIdx : Nat) : Except Fault (Option NodePtr × KVState) :=
  match (s.cache.lruEvictionTable eqIdx).tail with
  | none => .error .nullPointer
  | some p =>
    if s.cache.dirtyBit p = .notInCache then .ok (none, s)
    else
      let c := (s.cache.removeFromDllHT hqIdx p).removeFromDllLRU eqIdx p
      match c.dirtyBit p with
      | .toDelete => do
        let (_, store) ← s.store.deleteFromDb (c.message p)
        return (some p, ⟨c, store⟩)
      | .dirty => do return (some p, ⟨c, ← s.store.writeToDb (c.message p)⟩)
      | _ => .ok (some p, ⟨c, s.store⟩)

/-! ## The operations of one thread -/

/-- `cache_eviction`, with a bound on how often it starts over. -/
def cacheEvictionFrom : Nat → KVState → Except Fault (Option NodePtr × KVState)
  | 0, _ => .error .endless
  | k + 1, s => do
    let (eqIdx, c) := s.cache.getNextEvictionQueueIdx
    match c.nextNonEmptyQueue cacheTableLen eqIdx with
    | (none, c) => return (none, { s with cache := c })
    | (some eqIdx, c) =>
      let hqIdx ← c.victimBucket eqIdx
      match ← evictLocked { s with cache := c } eqIdx hqIdx with
      | (none, s) => cacheEvictionFrom k s
      | (some p, s) => return (some p, s)

/-- `cache_eviction`. Starting over in every queue without finding a node to evict, it would do so
for ever. -/
def cacheEviction (s : KVState) : Except Fault (Option NodePtr × KVState) :=
  s.cacheEvictionFrom (s.cache.lruTableSize + 1)

/-- `if (is_full()) cache_eviction() else acquire_instance()` -/
def newInstance (s : KVState) : Except Fault (Option NodePtr × KVState) :=
  if s.cache.isFull then s.cacheEviction
  else do
    let (p, c) ← s.cache.acquireInstance
    return (p, { s with cache := c })

def cachePUTNewEntry (s : KVState) (ptr : KVMessage) (h : Nat) :
    Except Fault (NodePtr × KVState) := do
  match ← s.newInstance with
  | (none, _) => .error .nullPointer
  | (some p, s) =>
    let (q, c) := s.cache.fill ptr p
    return (p, { s with cache := c.link h q p })

/-- `cache_GET_ptr`. The result comes with `*ptr`. -/
def cacheGETPtr (s : KVState) (ptr : KVMessage) :
    Except Fault (Option NodePtr × KVMessage × KVState) := do
  let ptr := ptr.calculateKeyHash
  match ← s.getSearch ptr with
  | (.done res ptr, s) => return (res, ptr, s)
  | (.load ptr, s) =>
    let (p, s) ← s.cachePUTNewEntry ptr (hashTableIdx ptr)
    return (some p, ptr, s)

def cacheGET (s : KVState) (ptr : KVMessage) : Except Fault (Bool × KVMessage × KVState) := do
  let (res, ptr, s) ← s.cacheGETPtr ptr
  return (res.isSome, ptr, s)

/-- `cache_PUT` under the writer locks, on the node the search has found. -/
def upgradePut (s : KVState) (ptr : KVMessage) (p : NodePtr) : Except Fault KVState := do
  if s.cache.dirtyBit p = .notInCache then
    match ← s.newInstance with
    | (none, _) => .error .nullPointer
    | (some p, s) =>
      let c := s.cache.setMessage p
        { s.cache.message p with hash1 := ptr.hash1, hash2 := ptr.hash2, key := ptr.key }
      let c ← ((c.setDirtyBit p .dirty).setValue p ptr.value).moveToHeadLRU p
      return { s with cache := c }
  else
    let c :=
      if ptr.value = (s.cache.message p).value then
        if s.cache.dirtyBit p = .toDelete then s.cache.setDirtyBit p .dirty else s.cache
      else s.cache.setDirtyBit p .dirty
    let c ← (c.setValue p ptr.value).moveToHeadLRU p
    return { s with cache := c }

def cachePUT (s : KVState) (ptr : KVMessage) : Except Fault KVState := do
  let ptr := ptr.calculateKeyHash
  match ← s.cache.findEntry ptr with
  | some p => s.upgradePut ptr p
  | none =>
    let (_, s) ← s.cachePUTNewEntry ptr (hashTableIdx ptr)
    return s

def cacheDELETE (s : KVState) (ptr : KVMessage) : Except Fault (Bool × KVState) := do
  let ptr := ptr.calculateKeyHash
  match ← s.deleteSearch ptr with
  | (.done res, s) => return (res, s)
  | (.upgrade p, s) =>
    match ← s.upgradeDelete p with
    | (some res, s) => return (res, s)
    | (none, s) =>
      let (found, store) ← s.store.deleteFromDb ptr
      return (found, { s with store := store })

/-- The loop of `cache_eviction_simple`, with `k` iterations left. -/
def cacheEvictionSimpleLoop : Nat → KVState → Except Fault KVState
  | 0, s => .ok s
  | k + 1, s => do
    let (eqIdx, c) := s.cache.getNextEvictionQueueIdx
    let s := { s with cache := c }
    if (c.lruEvictionTable eqIdx).head = none then cacheEvictionSimpleLoop k s
    else do
      let hqIdx ← c.victimBucket eqIdx
      match ← s.evictLocked eqIdx hqIdx with
      | (none, s) => cacheEvictionSimpleLoop k s
      | (some p, s) => cacheEvictionSimpleLoop k { s with cache := ← s.cache.releaseInstance p }

def cacheEvictionSimple (s : KVState) : Except Fault KVState := s.cacheEvictionSimpleLoop 10

/-- `cache_clean`: evict until there is nothing left. `fuel` bounds the number of calls. -/
def cacheClean : Nat → KVState → Except Fault KVState
  | 0, _ => .error .endless
  | fuel + 1, s => do
    match ← s.cacheEviction with
    | (none, s) => return s
    | (some _, s) => cacheClean fuel s

end KVState

/-! ## Calls -/

inductive CacheCall
  | get (ptr : KVMessage)
  | put (ptr : KVMessage)
  | delete (ptr : KVMessage)
  | evictionSimple
deriving DecidableEq

/-- What a call returns. `cache_GET` also returns the message, whose value it may have set. -/
inductive CacheAnswer
  | get (found : Bool) (ptr : KVMessage)
  | put
  | delete (found : Bool)
  | evictionSimple
deriving DecidableEq

namespace KVState

def call (s : KVState) : CacheCall → Except Fault (CacheAnswer × KVState)
  | .get ptr => do
    let (found, ptr, s) ← s.cacheGET ptr
    return (.get found ptr, s)
  | .put ptr => do return (.put, ← s.cachePUT ptr)
  | .delete ptr => do
    let (found, s) ← s.cacheDELETE ptr
    return (.delete found, s)
  | .evictionSimple => do return (.evictionSimple, ← s.cacheEvictionSimple)

/-- The server starts: `init_kvstore` and an empty cache. -/
def start (cacheSize : Nat) (files : Nat → Option (List UInt8)) : Except Fault KVState := do
  return ⟨← KVCache.new cacheSize, KVStore.initKvstore files⟩

/-- The map read off a state: the node of the key decides, and the store if there is none. -/
def lookup (s : KVState) (key : Chars256) : Except Fault (Option Chars256) := do
  let ptr := KVMessage.calculateKeyHash { KVMessage.empty with key := key }
  match ← s.cache.findEntry ptr with
  | some p =>
    return if s.cache.dirtyBit p = .toDelete then none else some (s.cache.message p).value
  | none =>
    let (found, ptr) ← s.store.readFromDb ptr
    return if found then some ptr.value else none

end KVState

end KeyValueStore
