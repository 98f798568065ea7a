import Mathlib.Data.Fintype.Order
import KeyValueStore.CachePointers
import KeyValueStore.Locks

/-!
# The order of the locks

Every thread takes a lock of a bucket before one of a queue, that before one of a file, and that
before the one of the pool. The only code that does not is the branch of `cache_PUT` for a node that
is not in the cache any more: it evicts under its writer locks. It is dead, because every pointer of
the cache leads to a node that was entered, and an entered node is never again marked `notInCache`.

`outline` states both of every instruction: the locks held at it, and that the node it is about was
entered.

* `locks_never_deadlock` — no interleaving leads to a deadlock, or into that branch.
-/

namespace KeyValueStore

open Locking Run

variable {s s' : KVState} {c : KVCache} {p : NodePtr} {op : Op} {ptr : KVMessage} {q : Nat}
  {k : Caller}

/-! ## What is held, and known, at an instruction -/

def CacheLock.rank : CacheLock → Fin 4
  | bucket _ => 0
  | queue _ => 1
  | file _ => 2
  | pool => 3

/-- The locks that the caller of `cache_eviction` holds. -/
def Caller.held : Caller → List (CacheLock × Mode)
  | renew ptr q => [(.queue q, .exclusive), (.bucket (hashTableIdx ptr), .exclusive)]
  | _ => []

namespace LockPc

/-- The locks held, the one taken last in front. -/
def held : LockPc → List (CacheLock × Mode)
  | idle _ | readerLock .. | deleteDbLock _ false | upgradeBucketLock .. | newEntry .. | fill ..
  | linkBucketLock .. => []
  | search _ ptr | searchNode _ ptr _ | getQueueLock ptr .. | readDbLock ptr | missUnlock _ ptr
  | readerUnlock _ ptr | deleteDbLock ptr true | upgradeUnlock _ ptr _ =>
    [(.bucket (hashTableIdx ptr), .shared)]
  | getMove ptr _ q | getQueueUnlock _ ptr q =>
    [(.queue q, .exclusive), (.bucket (hashTableIdx ptr), .shared)]
  | readDb ptr | readDbUnlock _ ptr =>
    [(.file (KVStore.fileIdx ptr), .shared), (.bucket (hashTableIdx ptr), .shared)]
  | deleteDb ptr true | deleteDbUnlock _ ptr true =>
    [(.file (KVStore.fileIdx ptr), .exclusive), (.bucket (hashTableIdx ptr), .shared)]
  | deleteDb ptr false | deleteDbUnlock _ ptr false =>
    [(.file (KVStore.fileIdx ptr), .exclusive)]
  | upgradeQueue _ ptr _ | upgradeQueueLock _ ptr .. | writer1Unlock _ ptr
  | linkQueueLock _ ptr .. => [(.bucket (hashTableIdx ptr), .exclusive)]
  | upgrade _ ptr _ q | writer2Unlock _ ptr q | renew ptr q | renewNode ptr q _
  | link _ ptr q _ => [(.queue q, .exclusive), (.bucket (hashTableIdx ptr), .exclusive)]
  | poolLock k | evictStart k | evictTest k .. | evictHash k _ | evictBucketLock k .. => k.held
  | acquire k | poolUnlock k _ => (.pool, .exclusive) :: k.held
  | evictQueueLock k _ hqIdx => (.bucket hqIdx, .exclusive) :: k.held
  | evictUnlink k eqIdx hqIdx | evictFileLock k eqIdx hqIdx ..
  | evictBucketUnlock k eqIdx hqIdx _ =>
    (.queue eqIdx, .exclusive) :: (.bucket hqIdx, .exclusive) :: k.held
  | evictStore k eqIdx hqIdx _ _ i | evictFileUnlock k eqIdx hqIdx _ i =>
    (.file i, .exclusive) :: (.queue eqIdx, .exclusive) :: (.bucket hqIdx, .exclusive) :: k.held
  | evictQueueUnlock k eqIdx _ => (.queue eqIdx, .exclusive) :: k.held

/-- The node of the cache that the instruction is about. -/
def node : LockPc → Option NodePtr
  | searchNode _ _ p => p
  | getQueueLock _ p _ | getMove _ p _ | upgradeUnlock _ _ p | upgradeBucketLock _ _ p
  | upgradeQueue _ _ p | upgradeQueueLock _ _ p _ | upgrade _ _ p _ | linkBucketLock _ _ _ p
  | linkQueueLock _ _ _ p | link _ _ _ p => some p
  | _ => none

/-- It was entered into the cache, and the dead branch is not taken. -/
structure Ok (c : KVCache) (pc : LockPc) : Prop where
  alive : ¬ pc.InRenew
  entered : ∀ p ∈ pc.node, c.Entered p

end LockPc

/-- Where a stretch of code leads: the locks are what they were, and all pointers still lead to
entered nodes. -/
structure Leads (s : KVState) (held : List (CacheLock × Mode)) (r : LockPc × KVState) : Prop where
  held : r.1.held = held
  sound : Sound (fun _ => True) r.2.cache
  entered : ∀ p, s.cache.Entered p → r.2.cache.Entered p
  ok : r.1.Ok r.2.cache

open LockPc

/-! ## The stretches of code -/

variable {held : List (CacheLock × Mode)} {pc : LockPc}

theorem Leads.of_keeps {st : KVStore} {c : KVCache} (h : Keeps (fun _ => True) s.cache c)
    (hheld : pc.held = held) (hok : pc.Ok c) : Leads s held (pc, ⟨c, st⟩) :=
  ⟨hheld, h.sound, h.entered, hok⟩

theorem Leads.of_store {st : KVStore} (hs : Sound (fun _ => True) s.cache)
    (hheld : pc.held = held) (hok : pc.Ok s.cache) : Leads s held (pc, ⟨s.cache, st⟩) :=
  Leads.of_keeps (Keeps.refl hs) hheld hok

theorem Leads.same (hs : Sound (fun _ => True) s.cache) (hheld : pc.held = held)
    (hok : pc.Ok s.cache) : Leads s held (pc, s) :=
  ⟨hheld, hs, fun _ hp => hp, hok⟩

theorem ok_of_none (h : ¬ pc.InRenew) (hnode : pc.node = none) : pc.Ok c :=
  ⟨h, fun p hp => by rw [hnode] at hp; cases hp⟩

theorem ok_of_node (hp : c.Entered p) (h : ¬ pc.InRenew) (hnode : pc.node = some p) : pc.Ok c :=
  ⟨h, fun p' hp' => by
    rw [hnode] at hp'
    exact Option.some.inj hp' ▸ hp⟩

theorem leads_hit (hs : Sound (fun _ => True) s.cache) (hp : s.cache.Entered p) :
    Ensures (runHit op ptr p s) (Leads s [(.bucket (hashTableIdx ptr), .shared)]) := by
  unfold runHit
  cases op with
  | get =>
    refine (ensures_true (x := s.cache.queueOf p)).bind fun q _ => Ensures.ok ?_
    split_ifs <;> exact Leads.same hs rfl (ok_of_node hp id rfl)
  | put => exact Ensures.ok (Leads.same hs rfl (ok_of_node hp id rfl))
  | delete =>
    dsimp only
    split
    · exact Ensures.ok (Leads.same hs rfl (ok_of_none id rfl))
    · exact Ensures.ok (Leads.same hs rfl (ok_of_none id rfl))
    · exact Ensures.ok (Leads.same hs rfl (ok_of_node hp id rfl))

theorem leads_searchNode {cur : Option NodePtr} (hs : Sound (fun _ => True) s.cache)
    (hcur : ∀ p ∈ cur, s.cache.Entered p) :
    Ensures (runSearchNode op ptr cur s) (Leads s (searchNode op ptr cur).held) := by
  cases cur with
  | none => cases op <;> exact Ensures.ok (Leads.same hs rfl (ok_of_none id rfl))
  | some p =>
    rw [runSearchNode]
    split_ifs
    · exact leads_hit hs (hcur p rfl)
    · exact Ensures.ok (Leads.same hs rfl ⟨id, fun x hx => ((hs.buckets 0).next p x hx).2⟩)

theorem leads_getMove (hs : Sound (fun _ => True) s.cache) (hp : s.cache.Entered p) :
    Ensures (runGetMove ptr p q s) (Leads s (getMove ptr p q).held) :=
  (hs.moveToHeadLRU ⟨trivial, hp⟩).bind fun _ hc =>
    Ensures.ok (Leads.of_keeps hc rfl (ok_of_none id rfl))

/-- **The dead branch is not taken.** -/
theorem leads_upgrade (hs : Sound (fun _ => True) s.cache) (hp : s.cache.Entered p) :
    Ensures (runUpgrade op ptr p q s) (Leads s (upgrade op ptr p q).held) := by
  have hput : Ensures (do return (writer2Unlock (some .put) ptr q, ← s.upgradePut ptr p))
      (Leads s (upgrade op ptr p q).held) :=
    (hs.upgradePut ⟨trivial, hp⟩ ptr).bind fun s' hs' =>
      Ensures.ok ⟨rfl, hs'.sound, hs'.entered, ok_of_none id rfl⟩
  unfold runUpgrade
  cases op with
  | get =>
    dsimp only
    rw [if_neg hp]
    exact hput
  | put =>
    dsimp only
    rw [if_neg hp]
    exact hput
  | delete =>
    refine (hs.upgradeDelete ⟨trivial, hp⟩).bind fun r hr => Ensures.ok ?_
    exact ⟨rfl, hr.1.sound, hr.1.entered, ok_of_none id rfl⟩

theorem leads_isFull (hs : Sound (fun _ => True) s.cache) (hk : ∀ ptr q, k ≠ .renew ptr q) :
    Ensures (runIsFull k s) (Leads s k.held) := by
  have halive : ¬ ∃ ptr q, k = .renew ptr q := fun ⟨ptr, q, h⟩ => hk ptr q h
  apply Ensures.ok
  split_ifs
  · exact Leads.same hs rfl (ok_of_none halive rfl)
  · exact Leads.same hs rfl (ok_of_none halive rfl)

theorem Sound.setPool {P : NodePtr → Prop} (hs : Sound P c) (pool : MemoryPool) :
    Sound P { c with cacheNodeMemoryPool := pool } := ⟨hs.buckets, hs.queues⟩

theorem leads_acquire (hs : Sound (fun _ => True) s.cache) (halive : ¬ (acquire k).InRenew) :
    Ensures (runAcquire k s) (Leads s (acquire k).held) := by
  unfold runAcquire KVCache.acquireInstance
  refine Ensures.bind (P := fun r => ∃ pool, r.2 = { s.cache with cacheNodeMemoryPool := pool })
    (ensures_true.bind fun r _ => Ensures.ok ⟨r.2, rfl⟩) fun r hr => ?_
  obtain ⟨res, c⟩ := r
  obtain ⟨pool, rfl⟩ := hr
  cases res with
  | none => exact Ensures.error
  | some p => exact Ensures.ok ⟨rfl, hs.setPool pool, fun _ hp => hp, ok_of_none halive rfl⟩

theorem leads_evictTest {eqIdx i : Nat} (hs : Sound (fun _ => True) s.cache)
    (halive : ¬ (evictTest k eqIdx i).InRenew) :
    Ensures (runEvictTest k eqIdx i s) (Leads s (evictTest k eqIdx i).held) := by
  unfold runEvictTest
  split_ifs
  · exact Ensures.ok (Leads.of_keeps (hs.counters _ s.cache.lruTableInsertIdx) rfl
      (ok_of_none halive rfl))
  · cases k with
    | direct => exact Ensures.ok (Leads.same hs rfl (ok_of_none id rfl))
    | newEntry op ptr => exact Ensures.error
    | renew ptr q => exact Ensures.error
  · exact Ensures.ok (Leads.same hs rfl (ok_of_none halive rfl))

theorem leads_evictUnlink {eqIdx hqIdx : Nat} (hs : Sound (fun _ => True) s.cache)
    (halive : ¬ (evictUnlink k eqIdx hqIdx).InRenew) :
    Ensures (runEvictUnlink k eqIdx hqIdx s) (Leads s (evictUnlink k eqIdx hqIdx).held) := by
  unfold runEvictUnlink
  cases (s.cache.lruEvictionTable eqIdx).tail with
  | none => exact Ensures.error
  | some p =>
    dsimp only
    split_ifs
    · exact Ensures.ok (Leads.same hs rfl (ok_of_none halive rfl))
    · refine Ensures.ok (Leads.of_keeps (hs.unlink hqIdx eqIdx p) ?_ ?_)
      · split <;> rfl
      · split <;> exact ok_of_none halive rfl

theorem leads_evictStore {eqIdx hqIdx i : Nat} {deleted : Bool}
    (hs : Sound (fun _ => True) s.cache)
    (halive : ¬ (evictStore k eqIdx hqIdx p deleted i).InRenew) :
    Ensures (runEvictStore k eqIdx hqIdx p deleted i s)
      (Leads s (evictStore k eqIdx hqIdx p deleted i).held) := by
  unfold runEvictStore
  split_ifs
  · exact ensures_true.bind fun _ _ => Ensures.ok (Leads.of_store hs rfl (ok_of_none halive rfl))
  · exact ensures_true.bind fun _ _ => Ensures.ok (Leads.of_store hs rfl (ok_of_none halive rfl))

/-- A caller that is not in the dead branch goes on outside it. -/
theorem goOn_ok (halive : ¬ ∃ ptr q, k = .renew ptr q) :
    (goOn p k).Ok c ∧ (goOn p k).held = k.held := by
  cases k with
  | newEntry op ptr => exact ⟨ok_of_none id rfl, rfl⟩
  | renew ptr q => exact absurd ⟨ptr, q, rfl⟩ halive
  | direct => exact ⟨ok_of_none id rfl, rfl⟩

/-! ## The outline -/

/-- What is known at every instruction. -/
def outline : Outline LockPc.instr where
  held := LockPc.held
  Inv s := Sound (fun _ => True) s.cache
  Ok s pc := pc.Ok s.cache
  Rel s s' := ∀ p, s.cache.Entered p → s'.cache.Entered p
  ok_mono hrel hok := ⟨hok.alive, fun p hp => hrel p (hok.entered p hp)⟩
  acquire {s c pc l mode next} hinv hok h := by
    cases pc <;> simp only [LockPc.instr, reduceCtorEq, Instr.acquire.injEq] at h
    case deleteDbLock ptr reader =>
      obtain ⟨rfl, rfl, rfl⟩ := h
      cases reader <;> exact ⟨rfl, hok.alive, hok.entered⟩
    all_goals
      obtain ⟨rfl, rfl, rfl⟩ := h
      exact ⟨rfl, hok.alive, hok.entered⟩
  release {s c pc l mode next} hinv hok h := by
    cases pc <;> simp only [LockPc.instr, reduceCtorEq, Instr.release.injEq] at h
    all_goals obtain ⟨rfl, rfl, rfl⟩ := h
    case readDbUnlock found ptr => cases found <;> exact ⟨List.Perm.refl _, ok_of_none id rfl⟩
    case deleteDbUnlock found ptr reader =>
      cases reader <;> exact ⟨List.Perm.refl _, ok_of_none id rfl⟩
    case writer1Unlock ret ptr => cases ret <;> exact ⟨List.Perm.refl _, ok_of_none id rfl⟩
    case poolUnlock k p =>
      obtain ⟨hgo, hheld⟩ := goOn_ok (p := p) (c := s.cache) hok.alive
      exact ⟨by rw [hheld]; exact List.Perm.refl _, hgo⟩
    case evictBucketUnlock k eqIdx hqIdx p => exact ⟨List.Perm.swap _ _ _, hok.alive, hok.entered⟩
    case evictQueueUnlock k eqIdx p =>
      cases p with
      | none => exact ⟨List.Perm.refl _, hok.alive, hok.entered⟩
      | some p =>
        obtain ⟨hgo, hheld⟩ := goOn_ok (p := p) (c := s.cache) hok.alive
        exact ⟨by rw [hheld]; exact List.Perm.refl _, hgo⟩
    all_goals exact ⟨List.Perm.refl _, hok.alive, hok.entered⟩
  exec {s c pc f next s'} hinv hok h hf := by
    suffices hleads : Ensures (f s) (Leads s pc.held) by
      obtain ⟨hheld, hsound, hentered, hok'⟩ := hleads _ hf
      exact ⟨hheld, hsound, hentered, hok'⟩
    cases pc <;> simp only [LockPc.instr, reduceCtorEq, Instr.exec.injEq] at h
    all_goals subst h
    case idle last =>
      cases c with
      | request op ptr => exact Ensures.ok (Leads.same hinv rfl (ok_of_none id rfl))
      | eviction =>
        refine Ensures.ok (Leads.same hinv rfl (ok_of_none ?_ rfl))
        rintro ⟨ptr, q, hk⟩
        cases hk
    case search op ptr =>
      exact Ensures.ok (Leads.same hinv rfl ⟨id, fun p hp => ((hinv.buckets _).head p hp).2⟩)
    case searchNode op ptr p => exact leads_searchNode hinv hok.entered
    case getMove ptr p q => exact leads_getMove hinv (hok.entered p rfl)
    case readDb ptr =>
      exact ensures_true.bind fun r _ => Ensures.ok (Leads.same hinv rfl (ok_of_none id rfl))
    case deleteDb ptr reader =>
      refine ensures_true.bind fun r _ => Ensures.ok (Leads.of_store hinv ?_ (ok_of_none id rfl))
      cases reader <;> rfl
    case upgradeQueue op ptr p =>
      exact ensures_true.bind fun q _ =>
        Ensures.ok (Leads.same hinv rfl (ok_of_node (hok.entered p rfl) id rfl))
    case upgrade op ptr p q => exact leads_upgrade hinv (hok.entered p rfl)
    case renew ptr q => exact absurd trivial hok.alive
    case renewNode ptr q p => exact absurd trivial hok.alive
    case newEntry op ptr => exact leads_isFull hinv nofun
    case fill op ptr p =>
      obtain ⟨hkeeps, hp⟩ := hinv.fill ptr p
      exact Ensures.ok (Leads.of_keeps hkeeps rfl (ok_of_node hp id rfl))
    case link op ptr q p =>
      have hkeeps := hinv.link (h := hashTableIdx ptr) (q := q) ⟨trivial, hok.entered p rfl⟩
      exact Ensures.ok (Leads.of_keeps hkeeps rfl (ok_of_none id rfl))
    case acquire k => exact leads_acquire hinv hok.alive
    case evictStart k =>
      exact Ensures.ok (Leads.of_keeps (hinv.counters _ s.cache.lruTableInsertIdx) rfl
        (ok_of_none hok.alive rfl))
    case evictTest k eqIdx i => exact leads_evictTest hinv hok.alive
    case evictHash k eqIdx =>
      exact ensures_true.bind fun h _ => Ensures.ok (Leads.same hinv rfl (ok_of_none hok.alive rfl))
    case evictUnlink k eqIdx hqIdx => exact leads_evictUnlink hinv hok.alive
    case evictStore k eqIdx hqIdx p deleted i => exact leads_evictStore hinv hok.alive

/-- A caller that is not in the dead branch holds nothing. -/
theorem held_eq_nil (halive : ¬ ∃ ptr q, k = .renew ptr q) : k.held = [] := by
  cases k with
  | newEntry op ptr => rfl
  | renew ptr q => exact absurd ⟨ptr, q, rfl⟩ halive
  | direct => rfl

/-- **Locks are taken in order**: bucket, queue, file, pool. -/
theorem rank_lt {next : Invocation} {l : CacheLock} {mode : Mode} {pc' : LockPc}
    (halive : ¬ pc.InRenew) (h : LockPc.instr next pc = .acquire l mode pc') :
    ∀ x ∈ pc.held, x.1.rank < l.rank := by
  cases pc <;> simp only [LockPc.instr, reduceCtorEq, Instr.acquire.injEq] at h
  all_goals obtain ⟨rfl, rfl, rfl⟩ := h
  case poolLock k => simp [LockPc.held, held_eq_nil halive]
  case evictBucketLock k eqIdx hqIdx => simp [LockPc.held, held_eq_nil halive]
  case evictQueueLock k eqIdx hqIdx => simp [LockPc.held, held_eq_nil halive, CacheLock.rank]
  case evictFileLock k eqIdx hqIdx p deleted i =>
    simp [LockPc.held, held_eq_nil halive, CacheLock.rank]
  case deleteDbLock ptr reader => cases reader <;> simp [LockPc.held, CacheLock.rank]
  all_goals simp [LockPc.held, CacheLock.rank]

/-! ## The law -/

/-- A pointer of the cache leads to the node. -/
def KVCache.Linked (c : KVCache) (p : NodePtr) : Prop :=
  (∃ h, (c.hashTable h).head = some p ∨ (c.hashTable h).tail = some p) ∨
  (∃ q, (c.lruEvictionTable q).head = some p ∨ (c.lruEvictionTable q).tail = some p) ∨
  ∃ x, c.l1Left x = some p ∨ c.l1Right x = some p ∨ c.l2Prev x = some p ∨ c.l2Next x = some p

theorem Sound.entered {P : NodePtr → Prop} (hs : Sound P c) (hp : c.Linked p) : c.Entered p := by
  rcases hp with ⟨h, hh | ht⟩ | ⟨q, hh | ht⟩ | ⟨x, h | h | h | h⟩
  · exact ((hs.buckets h).head p hh).2
  · exact ((hs.buckets h).tail p ht).2
  · exact ((hs.queues q).head p hh).2
  · exact ((hs.queues q).tail p ht).2
  · exact ((hs.buckets 0).prev x p h).2
  · exact ((hs.buckets 0).next x p h).2
  · exact ((hs.queues 0).prev x p h).2
  · exact ((hs.queues 0).next x p h).2

/-- What holds of the locks in a configuration. -/
structure LockLaw (σ : Config CacheLock LockPc KVState) : Prop where
  /-- Many readers or one writer. -/
  exclusive : ∀ l, Alone (σ.holders l)
  /-- No set of threads waits for locks that its members hold. -/
  no_deadlock : ∀ S, ¬ Deadlocked LockPc.instr σ S
  /-- The branch of `cache_PUT` for a node that is not in the cache is not taken. -/
  no_renew : ∀ t, ¬ (σ.pc t).InRenew
  /-- A node that is linked now is not marked as not in the cache, now or later. -/
  stays_entered : ∀ p, σ.state.cache.Linked p → ∀ as,
    (run LockPc.instr σ as).state.cache.dirtyBit p ≠ .notInCache

theorem rel_run {σ : Config CacheLock LockPc KVState} (h : outline.Holds σ)
    (as : List (Nat × Invocation)) (p : NodePtr) (hp : σ.state.cache.Entered p) :
    (run LockPc.instr σ as).state.cache.Entered p := by
  refine h.rel (fun _ _ hp => hp) (fun {s₁ s₂ s₃} h₁ h₂ p hp => ?_) as p hp
  have h₁' : ∀ p, s₁.cache.Entered p → s₂.cache.Entered p := h₁
  have h₂' : ∀ p, s₂.cache.Entered p → s₃.cache.Entered p := h₂
  exact h₂' p (h₁' p hp)

/-- **No deadlock**: for every cache size, every directory, any number of threads and every
interleaving of their instructions. -/
theorem locks_never_deadlock (cacheSize : Nat) (files : Nat → Option (List UInt8)) :
    ∃ s, KVState.start cacheSize files = .ok s ∧
      ∀ as, LockLaw (run LockPc.instr (lockStart s) as) := by
  obtain ⟨pool, hpool, -⟩ := MemoryPool.rep_init cacheSize 2
  have hstart : ∃ s, KVState.start cacheSize files = .ok s := by
    rw [KVState.start, KVCache.new, hpool]
    exact ⟨_, rfl⟩
  obtain ⟨s, hs⟩ := hstart
  refine ⟨s, hs, ?_⟩
  intro as
  have hholds : outline.Holds (lockStart s) :=
    .start (sound_start hs) (fun _ => ok_of_none id rfl) fun _ => rfl
  have hrun := hholds.run as
  exact {
    exclusive := run_alone (fun l t ht => by cases ht) as
    no_deadlock := hrun.not_deadlocked CacheLock.rank
      fun {_ _ pc _ _ _} _ (hok : pc.Ok _) h => rank_lt hok.alive h
    no_renew := fun t => (hrun.ok t).alive
    stays_entered := fun p hp bs =>
      rel_run hrun bs p (Sound.entered hrun.inv hp) }

end KeyValueStore
