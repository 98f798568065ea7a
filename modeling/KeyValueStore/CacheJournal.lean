import KeyValueStore.CacheVictim
import KeyValueStore.Lib.Journal

/-!
# The cache with a journal

What the operations of one thread do to nodes and ask of the store cannot be seen in their answers.
Here they write it down: every call of `write_to_db` and `delete_from_db` when it is made, and the
node that a key gets, the value that it is set, and its mark. Apart from the journal they are the
operations of `KVState` (`result_call`, `result_cacheClean`).
-/

namespace KeyValueStore

open Run Journal

/-- An entry of the journal. -/
inductive CacheEvent
  /-- `cache_PUT_new_entry` has entered a node for the key. -/
  | entered (key : Chars256)
  /-- `cache_PUT` has set the value of the key. -/
  | put (key : Chars256)
  /-- `cache_DELETE` has marked the node of the key. -/
  | marked (key : Chars256)
  /-- `write_to_db` is called. -/
  | writeToDb (m : KVMessage)
  /-- `delete_from_db` is called. -/
  | deleteFromDb (m : KVMessage)
deriving DecidableEq

/-- The entry is a call of the store. -/
def CacheEvent.IsStoreCall : CacheEvent → Prop
  | .writeToDb _ => True
  | .deleteFromDb _ => True
  | _ => False

/-- An operation of the cache with its journal. -/
abbrev Journaled (α : Type) := Journal CacheEvent Fault α

namespace KVState

namespace Journaled

/-! ## The operations -/

def evictLocked (s : KVState) (eqIdx hqIdx : Nat) : Journaled (Option NodePtr × KVState) :=
  match (s.cache.lruEvictionTable eqIdx).tail with
  | none => lift (.error .nullPointer)
  | some p =>
    if s.cache.dirtyBit p = .notInCache then pure (none, s)
    else
      let c := (s.cache.removeFromDllHT hqIdx p).removeFromDllLRU eqIdx p
      match c.dirtyBit p with
      | .toDelete => do
        note (.deleteFromDb (c.message p))
        let (_, store) ← lift (s.store.deleteFromDb (c.message p))
        return (some p, ⟨c, store⟩)
      | .dirty => do
        note (.writeToDb (c.message p))
        return (some p, ⟨c, ← lift (s.store.writeToDb (c.message p))⟩)
      | _ => pure (some p, ⟨c, s.store⟩)

def cacheEvictionFrom : Nat → KVState → Journaled (Option NodePtr × KVState)
  | 0, _ => lift (.error .endless)
  | k + 1, s => do
    let (eqIdx, c) := s.cache.getNextEvictionQueueIdx
    match c.nextNonEmptyQueue cacheTableLen eqIdx with
    | (none, c) => return (none, { s with cache := c })
    | (some eqIdx, c) =>
      let hqIdx ← lift (c.victimBucket eqIdx)
      match ← evictLocked { s with cache := c } eqIdx hqIdx with
      | (none, s) => cacheEvictionFrom k s
      | (some p, s) => return (some p, s)

def cacheEviction (s : KVState) : Journaled (Option NodePtr × KVState) :=
  cacheEvictionFrom (s.cache.lruTableSize + 1) s

def newInstance (s : KVState) : Journaled (Option NodePtr × KVState) :=
  if s.cache.isFull then cacheEviction s
  else do
    let (p, c) ← lift s.cache.acquireInstance
    return (p, { s with cache := c })

def cachePUTNewEntry (s : KVState) (ptr : KVMessage) (h : Nat) : Journaled (NodePtr × KVState) := do
  match ← newInstance s with
  | (none, _) => lift (.error .nullPointer)
  | (some p, s) =>
    let (q, c) := s.cache.fill ptr p
    note (.entered ptr.key)
    return (p, { s with cache := c.link h q p })

def cacheGETPtr (s : KVState) (ptr : KVMessage) :
    Journaled (Option NodePtr × KVMessage × KVState) := do
  let ptr := ptr.calculateKeyHash
  match ← lift (s.getSearch ptr) with
  | (.done res ptr, s) => return (res, ptr, s)
  | (.load ptr, s) =>
    let (p, s) ← cachePUTNewEntry s ptr (hashTableIdx ptr)
    return (some p, ptr, s)

def cacheGET (s : KVState) (ptr : KVMessage) : Journaled (Bool × KVMessage × KVState) := do
  let (res, ptr, s) ← cacheGETPtr s ptr
  return (res.isSome, ptr, s)

def upgradePut (s : KVState) (ptr : KVMessage) (p : NodePtr) : Journaled KVState := do
  if s.cache.dirtyBit p = .notInCache then
    match ← newInstance s with
    | (none, _) => lift (.error .nullPointer)
    | (some p, s) =>
      let c := s.cache.setMessage p
        { s.cache.message p with hash1 := ptr.hash1, hash2 := ptr.hash2, key := ptr.key }
      let c ← lift (((c.setDirtyBit p .dirty).setValue p ptr.value).moveToHeadLRU p)
      return { s with cache := c }
  else
    let c :=
      if ptr.value = (s.cache.message p).value then
        if s.cache.dirtyBit p = .toDelete then s.cache.setDirtyBit p .dirty else s.cache
      else s.cache.setDirtyBit p .dirty
    let c ← lift ((c.setValue p ptr.value).moveToHeadLRU p)
    return { s with cache := c }

def cachePUT (s : KVState) (ptr : KVMessage) : Journaled KVState := do
  let ptr := ptr.calculateKeyHash
  match ← lift (s.cache.findEntry ptr) with
  | some p =>
    let s ← upgradePut s ptr p
    note (.put ptr.key)
    return s
  | none =>
    let (_, s) ← cachePUTNewEntry s ptr (hashTableIdx ptr)
    note (.put ptr.key)
    return s

def deleteSearch (s : KVState) (ptr : KVMessage) : Journaled (DeleteSearch × KVState) := do
  match ← lift (s.cache.findEntry ptr) with
  | some p =>
    match s.cache.dirtyBit p with
    | .toDelete => return (.done false, s)
    | .notInCache => return (.done true, s)
    | _ => return (.upgrade p, s)
  | none =>
    note (.deleteFromDb ptr)
    let (found, store) ← lift (s.store.deleteFromDb ptr)
    return (.done found, { s with store := store })

def upgradeDelete (s : KVState) (p : NodePtr) : Journaled (Option Bool × KVState) :=
  match s.cache.dirtyBit p with
  | .toDelete => pure (some false, s)
  | .notInCache => pure (none, s)
  | _ => do
    let c ← lift ((s.cache.setDirtyBit p .toDelete).moveToHeadLRU p)
    note (.marked (s.cache.message p).key)
    return (some true, { s with cache := c })

def cacheDELETE (s : KVState) (ptr : KVMessage) : Journaled (Bool × KVState) := do
  let ptr := ptr.calculateKeyHash
  match ← deleteSearch s ptr with
  | (.done res, s) => return (res, s)
  | (.upgrade p, s) =>
    match ← upgradeDelete s p with
    | (some res, s) => return (res, s)
    | (none, s) =>
      note (.deleteFromDb ptr)
      let (found, store) ← lift (s.store.deleteFromDb ptr)
      return (found, { s with store := store })

def cacheEvictionSimpleLoop : Nat → KVState → Journaled KVState
  | 0, s => pure s
  | k + 1, s => do
    let (eqIdx, c) := s.cache.getNextEvictionQueueIdx
    let s := { s with cache := c }
    if (c.lruEvictionTable eqIdx).head = none then cacheEvictionSimpleLoop k s
    else do
      let hqIdx ← lift (c.victimBucket eqIdx)
      match ← evictLocked s eqIdx hqIdx with
      | (none, s) => cacheEvictionSimpleLoop k s
      | (some p, s) =>
        cacheEvictionSimpleLoop k { s with cache := ← lift (s.cache.releaseInstance p) }

def cacheEvictionSimple (s : KVState) : Journaled KVState := cacheEvictionSimpleLoop 10 s

def cacheClean : Nat → KVState → Journaled KVState
  | 0, _ => lift (.error .endless)
  | fuel + 1, s => do
    match ← cacheEviction s with
    | (none, s) => return s
    | (some _, s) => cacheClean fuel s

def call (s : KVState) : CacheCall → Journaled (CacheAnswer × KVState)
  | .get ptr => do
    let (found, ptr, s) ← cacheGET s ptr
    return (.get found ptr, s)
  | .put ptr => do return (.put, ← cachePUT s ptr)
  | .delete ptr => do
    let (found, s) ← cacheDELETE s ptr
    return (.delete found, s)
  | .evictionSimple => do return (.evictionSimple, ← cacheEvictionSimple s)

/-- A call without its answer. -/
def step (s : KVState) (a : CacheCall) : Journaled KVState := do
  let (_, s) ← call s a
  return s

def calls (s : KVState) (cs : List CacheCall) : Journaled KVState := Journal.run step s cs

/-- A run, and the shutdown. -/
def session (s : KVState) (cs : List CacheCall) (fuel : Nat) : Journaled KVState := do
  cacheClean fuel (← calls s cs)

theorem calls_cons (s : KVState) (a : CacheCall) (cs : List CacheCall) :
    calls s (a :: cs) = step s a >>= fun s => calls s cs := rfl

/-! ## Without the journal -/

variable (s : KVState)

theorem result_evictLocked (e i : Nat) : (evictLocked s e i).result = s.evictLocked e i := by
  rw [evictLocked, KVState.evictLocked]
  cases (s.cache.lruEvictionTable e).tail with
  | none => rfl
  | some p =>
    dsimp only
    split_ifs
    · rfl
    · cases ((s.cache.removeFromDllHT i p).removeFromDllLRU e p).dirtyBit p with
      | toDelete => simp only [note_bind, result_bind, result_lift]; rfl
      | dirty => simp only [note_bind, result_bind, result_lift]; rfl
      | allGood => rfl
      | notInCache => rfl

theorem result_cacheEvictionFrom (k : Nat) :
    (cacheEvictionFrom k s).result = s.cacheEvictionFrom k := by
  induction k generalizing s with
  | zero => rfl
  | succ k ih =>
    rw [cacheEvictionFrom, KVState.cacheEvictionFrom]
    dsimp only
    generalize KVCache.nextNonEmptyQueue _ _ _ = scan
    obtain ⟨found, c⟩ := scan
    cases found with
    | none => rfl
    | some e =>
      dsimp only
      rw [result_bind, result_lift]
      refine congrArg _ (funext fun i => ?_)
      rw [result_bind, result_evictLocked]
      refine congrArg _ (funext fun r => ?_)
      obtain ⟨res, s'⟩ := r
      cases res with
      | none => exact ih s'
      | some p => rfl

theorem result_cacheEviction : (cacheEviction s).result = s.cacheEviction :=
  result_cacheEvictionFrom s _

theorem result_newInstance : (newInstance s).result = s.newInstance := by
  rw [newInstance, KVState.newInstance]
  split_ifs
  · exact result_cacheEviction s
  · rw [result_bind, result_lift]
    rfl

theorem result_cachePUTNewEntry (ptr : KVMessage) (h : Nat) :
    (cachePUTNewEntry s ptr h).result = s.cachePUTNewEntry ptr h := by
  rw [cachePUTNewEntry, KVState.cachePUTNewEntry, result_bind, result_newInstance]
  refine congrArg _ (funext fun r => ?_)
  obtain ⟨res, s'⟩ := r
  cases res <;> rfl

theorem result_cacheGET (ptr : KVMessage) : (cacheGET s ptr).result = s.cacheGET ptr := by
  rw [cacheGET, KVState.cacheGET, cacheGETPtr, KVState.cacheGETPtr, result_bind, result_bind,
    result_lift]
  refine congrArg (Except.bind · _) (congrArg _ (funext fun r => ?_))
  obtain ⟨res, s'⟩ := r
  cases res with
  | done res ptr' => rfl
  | load ptr' =>
    dsimp only
    rw [result_bind, result_cachePUTNewEntry]
    rfl

theorem result_upgradePut (ptr : KVMessage) (p : NodePtr) :
    (upgradePut s ptr p).result = s.upgradePut ptr p := by
  rw [upgradePut, KVState.upgradePut]
  split_ifs
  · rw [result_bind, result_newInstance]
    refine congrArg _ (funext fun r => ?_)
    obtain ⟨res, s'⟩ := r
    cases res with
    | none => rfl
    | some p => dsimp only; rw [result_bind, result_lift]; rfl
  all_goals
    rw [result_bind, result_lift]
    rfl

theorem result_cachePUT (ptr : KVMessage) : (cachePUT s ptr).result = s.cachePUT ptr := by
  rw [cachePUT, KVState.cachePUT, result_bind, result_lift]
  refine congrArg _ (funext fun r => ?_)
  cases r with
  | none =>
    dsimp only
    rw [result_bind, result_cachePUTNewEntry]
    rfl
  | some p =>
    dsimp only
    rw [result_bind, result_upgradePut]
    cases s.upgradePut ptr.calculateKeyHash p <;> rfl

theorem result_cacheDELETE (ptr : KVMessage) : (cacheDELETE s ptr).result = s.cacheDELETE ptr := by
  have hsearch : (deleteSearch s ptr.calculateKeyHash).result =
      s.deleteSearch ptr.calculateKeyHash := by
    rw [deleteSearch, KVState.deleteSearch, result_bind, result_lift]
    refine congrArg _ (funext fun r => ?_)
    cases r with
    | none => simp only [note_bind, result_bind, result_lift]; rfl
    | some p => dsimp only; cases s.cache.dirtyBit p <;> rfl
  have hupgrade : ∀ (s : KVState) p, (upgradeDelete s p).result = s.upgradeDelete p := by
    intro s p
    rw [upgradeDelete, KVState.upgradeDelete]
    cases s.cache.dirtyBit p <;> dsimp only <;> first | rfl | rw [result_bind, result_lift]; rfl
  rw [cacheDELETE, KVState.cacheDELETE, result_bind, hsearch]
  refine congrArg _ (funext fun r => ?_)
  obtain ⟨res, s'⟩ := r
  cases res with
  | done res => rfl
  | upgrade p =>
    dsimp only
    rw [result_bind, hupgrade]
    refine congrArg _ (funext fun r => ?_)
    obtain ⟨res, s''⟩ := r
    cases res with
    | none => simp only [note_bind, result_bind, result_lift]; rfl
    | some res => rfl

theorem result_cacheEvictionSimpleLoop (k : Nat) :
    (cacheEvictionSimpleLoop k s).result = s.cacheEvictionSimpleLoop k := by
  induction k generalizing s with
  | zero => rfl
  | succ k ih =>
    rw [cacheEvictionSimpleLoop, KVState.cacheEvictionSimpleLoop]
    dsimp only
    split_ifs
    · exact ih _
    · rw [result_bind, result_lift]
      refine congrArg _ (funext fun i => ?_)
      rw [result_bind, result_evictLocked]
      refine congrArg _ (funext fun r => ?_)
      obtain ⟨res, s'⟩ := r
      cases res with
      | none => exact ih _
      | some p =>
        dsimp only
        rw [result_bind, result_lift]
        exact congrArg _ (funext fun c => ih _)

theorem result_cacheClean (fuel : Nat) : (cacheClean fuel s).result = s.cacheClean fuel := by
  induction fuel generalizing s with
  | zero => rfl
  | succ fuel ih =>
    rw [cacheClean, KVState.cacheClean, result_bind, result_cacheEviction]
    refine congrArg _ (funext fun r => ?_)
    obtain ⟨res, s'⟩ := r
    cases res with
    | none => rfl
    | some p => exact ih s'

/-- **A call with its journal is the call.** -/
theorem result_call (a : CacheCall) : (call s a).result = s.call a := by
  cases a with
  | get ptr => rw [call, KVState.call, result_bind, result_cacheGET]; rfl
  | put ptr => rw [call, KVState.call, result_bind, result_cachePUT]; rfl
  | delete ptr => rw [call, KVState.call, result_bind, result_cacheDELETE]; rfl
  | evictionSimple =>
    rw [call, KVState.call, result_bind]
    exact congrArg (Except.bind · _) (result_cacheEvictionSimpleLoop s 10)

theorem result_step (a : CacheCall) :
    (step s a).result = (s.call a).bind fun r => .ok r.2 := by
  rw [step, result_bind, result_call]
  rfl

/-- **A run with its journal is the run.** -/
theorem result_calls (cs : List CacheCall) :
    (calls s cs).result = (Run.calls KVState.call s cs).bind fun r => .ok r.2 := by
  induction cs generalizing s with
  | nil => rfl
  | cons a cs ih =>
    rw [calls_cons, result_bind, result_step, Run.calls]
    cases s.call a with
    | error e => rfl
    | ok r =>
      show (calls r.2 cs).result = ((Run.calls KVState.call r.2 cs).bind _).bind _
      rw [ih]
      cases Run.calls KVState.call r.2 cs <;> rfl

end Journaled

end KVState

end KeyValueStore
