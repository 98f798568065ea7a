import KeyValueStore.Session
import KeyValueStore.StoreSpace

/-!
# Room in the files

The one failure that the results on sequential runs leave open is a write past the largest file
offset. It does not occur as long as the files have room. A call of the store makes one file longer
by one entry at most. `cache_GET` and `cache_PUT` make one such call at most, each round of
`cache_eviction_simple` and of `cache_clean` does, and `cache_DELETE` never appends.

* `store_returns`, `cache_returns`, `session_returns` — with room for these entries, what holds of
  the runs of the store, of the cache, and of a client unless a file is full, holds of them.
-/

namespace KeyValueStore

open Run

/-- The store holds a map, and each file has room for `n` more entries. -/
structure KVStore.HasRoom (n : Nat) (s : KVStore) : Prop where
  holds : ∃ m, StoreRep s m
  fits : ∀ num, s.fileLength num + sizeOfOneEntry * n ≤ maxFileOffset

namespace KVStore

variable {f : List UInt8} {s : KVStore} {m : Triple → Option Chars256} {k n : Nat}
  {ptr : KVMessage}

theorem HasRoom.mono (h : s.HasRoom n) (hk : k ≤ n) : s.HasRoom k where
  holds := h.holds
  fits num := by
    have hfits := h.fits num
    have hless := Nat.mul_le_mul_left sizeOfOneEntry hk
    omega

/-! ## Writes that fit -/

theorem applyWrites_fits {p : Nat} {ds : List (List UInt8)}
    (h : p + ds.flatten.length ≤ maxFileOffset) : applyWrites f p ds ≠ .error .fileTooLarge := by
  induction ds generalizing f p with
  | nil => exact fun hx => by cases hx
  | cons d ds ih =>
    rw [List.flatten_cons, List.length_append] at h
    rw [applyWrites, writeBytes]
    by_cases hout : f.length < p
    · rw [if_pos hout]
      exact fun hx => by cases hx
    · rw [if_neg hout, if_neg (by omega), ok_bind]
      exact ih (by omega)

theorem applyBatches_fits {bs : List Batch} (h : ∀ b ∈ bs, b.Within maxFileOffset) :
    applyBatches f bs ≠ .error .fileTooLarge := by
  induction bs generalizing f with
  | nil => exact fun hx => by cases hx
  | cons b bs ih =>
    obtain ⟨hb, hbs⟩ := List.forall_mem_cons.1 h
    rw [applyBatches]
    cases hwrites : applyWrites f b.pos b.writes with
    | error e =>
      rintro hx
      obtain rfl := Except.error.inj hx
      exact applyWrites_fits hb hwrites
    | ok f' => exact ih hbs

theorem write_fits {num : Nat} (h : FileRep num f m) (hf : ptr.triple.file = num)
    (hroom : f.length + sizeOfOneEntry ≤ maxFileOffset) :
    Avoids .fileTooLarge ((writeBatches f ptr).bind (applyBatches f)) fun _ => True := by
  obtain ⟨bs, hbs, -⟩ := writeBatches_written h.choose_spec.1 ptr
  rw [hbs]
  refine ⟨applyBatches_fits fun b hb => ?_, ensures_true⟩
  have hmono : ∀ b : Batch, b.Within f.length → b.Within maxFileOffset := fun b hb => by
    rw [Batch.Within] at hb ⊢
    omega
  rcases write_within h ptr hf bs hbs with ⟨-, hin⟩ | ⟨-, ds, rest, rfl, hlen, hin⟩
  · exact hmono b (hin b hb)
  · rcases List.mem_cons.1 hb with rfl | hb
    · rw [Batch.Within, hlen]
      exact hroom
    · exact hmono b (hin b hb)

theorem writeToDb_fits (h : s.HasRoom (n + 1)) (ptr : KVMessage) :
    Avoids .fileTooLarge (s.writeToDb ptr) fun _ => True := by
  obtain ⟨m, hm⟩ := h.holds
  have hfits := h.fits ptr.triple.file
  rw [Nat.mul_add, Nat.mul_one] at hfits
  rw [KVStore.writeToDb, KVStore.writeToDbIf]
  show Avoids _ (if s.fileExistsStatus ptr.triple.file = false then _ else _) _
  cases hbit : s.fileExistsStatus ptr.triple.file with
  | false =>
    obtain ⟨hnone, hrep⟩ := hm.absent _ (file_lt _) hbit
    have hnew : s.fileLength ptr.triple.file = initialFile.length := by
      rw [fileLength, hnone, length_initialFile]
      rfl
    rw [if_pos rfl, if_pos rfl]
    exact (write_fits (initialFile_rep hrep) rfl (by omega)).bind₂ fun _ _ => Avoids.ok trivial
  | true =>
    obtain ⟨f, hf, hrep⟩ := hm.present _ (file_lt _) hbit
    have hold : s.fileLength ptr.triple.file = f.length := by
      rw [fileLength, hf]
      rfl
    rw [if_neg (by decide), openFile, if_pos rfl,
      show s.files (KVStore.fileIdx ptr) = some f from hf]
    exact (write_fits hrep rfl (by omega)).bind₂ fun _ _ => Avoids.ok trivial

/-- **`write_to_db`** takes the room of one entry. -/
theorem writeToDb_room (h : s.HasRoom (n + 1)) (ptr : KVMessage) :
    Avoids .fileTooLarge (s.writeToDb ptr) (HasRoom n) := by
  refine ⟨(writeToDb_fits h ptr).1, fun s' hs' => ?_⟩
  obtain ⟨m, hm⟩ := h.holds
  refine ⟨⟨_, (writeToDb_spec hm ptr).of_ok hs'⟩, fun num => ?_⟩
  obtain ⟨f', hfiles, hlen⟩ := writeToDb_length hm ptr s' hs'
  have hfits := h.fits num
  rw [Nat.mul_add, Nat.mul_one] at hfits
  rw [fileLength, hfiles]
  by_cases hnum : num = ptr.triple.file
  · rw [hnum, Function.update_self]
    rw [hnum] at hfits
    show f'.length + _ ≤ _
    rw [hlen]
    split_ifs <;> omega
  · rw [Function.update_of_ne hnum]
    exact le_trans (Nat.add_le_add_left (by omega) _) hfits

/-- **`delete_from_db`** takes none. -/
theorem deleteFromDb_room (h : s.HasRoom n) (ptr : KVMessage) :
    Avoids .fileTooLarge (s.deleteFromDb ptr) fun r => r.2.HasRoom n := by
  obtain ⟨m, hm⟩ := h.holds
  obtain ⟨s', hs', hrep⟩ := deleteFromDb_spec hm ptr
  have hlen := deleteFromDb_length hm ptr _ hs'
  rw [hs']
  refine Avoids.ok ⟨⟨_, hrep⟩, fun num => ?_⟩
  have hsame : s'.fileLength num = s.fileLength num := by
    have hmap := hlen num
    rw [fileLength, fileLength]
    cases hf : s.files num <;> cases hf' : s'.files num <;> simp_all
  rw [hsame]
  exact h.fits num

end KVStore

/-! ## The parts that write nothing -/

namespace KVCache

variable (c : KVCache)

theorem findEntry_fits (ptr : KVMessage) :
    Avoids .fileTooLarge (c.findEntry ptr) fun _ => True := by
  have hwalk : ∀ fuel p, Avoids .fileTooLarge (c.findFrom ptr fuel p) fun _ => True := by
    intro fuel
    induction fuel with
    | zero =>
      intro p
      cases p with
      | none => exact Avoids.ok trivial
      | some p => exact Avoids.error (by decide)
    | succ fuel ih =>
      intro p
      cases p with
      | none => exact Avoids.ok trivial
      | some p =>
        rw [findFrom]
        split_ifs
        · exact Avoids.ok trivial
        · exact ih _
  exact hwalk _ _

theorem moveToHeadLRU_fits (p : NodePtr) :
    Avoids .fileTooLarge (c.moveToHeadLRU p) fun _ => True := by
  rw [moveToHeadLRU]
  split_ifs
  · exact Avoids.ok trivial
  · exact Avoids.error (by decide)

theorem victimBucket_fits (e : Nat) :
    Avoids .fileTooLarge (c.victimBucket e) fun _ => True := by
  rw [victimBucket]
  split
  · exact Avoids.error (by decide)
  · exact Avoids.ok trivial

theorem vecPushBack_fits (P : MemoryPool) (p : NodePtr) :
    Avoids .fileTooLarge (P.vecPushBack p) fun _ => True := by
  rw [MemoryPool.vecPushBack]
  split_ifs
  · exact Avoids.error (by decide)
  · exact Avoids.ok trivial

theorem releaseInstance_fits (p : NodePtr) :
    Avoids .fileTooLarge (c.releaseInstance p) fun _ => True :=
  (vecPushBack_fits _ p).bind fun _ _ => Avoids.ok trivial

theorem acquireInstance_fits : Avoids .fileTooLarge c.acquireInstance fun _ => True := by
  have hpush : ∀ (ps : List NodePtr) (P : MemoryPool),
      Avoids .fileTooLarge (P.pushAll ps) fun _ => True := by
    intro ps
    induction ps with
    | nil => exact fun P => Avoids.ok trivial
    | cons p ps ih => exact fun P => (vecPushBack_fits P p).bind fun P' _ => ih P'
  have hpop : ∀ P : MemoryPool, Avoids .fileTooLarge P.vecPopBack fun _ => True := by
    intro P
    rw [MemoryPool.vecPopBack]
    split_ifs
    · exact Avoids.error (by decide)
    · exact Avoids.ok trivial
  refine Avoids.bind (P := fun _ => True) ?_ fun _ _ => Avoids.ok trivial
  rw [MemoryPool.acquireInstance]
  split_ifs
  · exact (hpush _ _).bind fun P _ => hpop P
  · exact hpop _

end KVCache

/-! ## The calls of the cache -/

namespace KVState

variable {s : KVState} {n : Nat}

/-- The locked section writes one entry, if it evicts. -/
theorem evictLocked_room {store : KVStore} (h : store.HasRoom (n + 1)) (c : KVCache) (e i : Nat) :
    Avoids .fileTooLarge (evictLocked ⟨c, store⟩ e i) fun r =>
      r.2.store.HasRoom n ∧ (r.1 = none → r.2.store.HasRoom (n + 1)) := by
  rw [evictLocked]
  split
  · exact Avoids.error (by decide)
  split_ifs
  · exact Avoids.ok ⟨h.mono (Nat.le_succ n), fun _ => h⟩
  · dsimp only
    split
    · refine (KVStore.deleteFromDb_room (h.mono (Nat.le_succ n)) _).bind fun r hr => ?_
      exact Avoids.ok ⟨hr, fun hnone => by cases hnone⟩
    · refine (KVStore.writeToDb_room h _).bind fun store hstore => ?_
      exact Avoids.ok ⟨hstore, fun hnone => by cases hnone⟩
    · exact Avoids.ok ⟨h.mono (Nat.le_succ n), fun _ => h⟩

theorem cacheEviction_room (h : s.store.HasRoom (n + 1)) :
    Avoids .fileTooLarge s.cacheEviction fun r => r.2.store.HasRoom n := by
  rw [cacheEviction]
  generalize s.cache.lruTableSize + 1 = k
  induction k generalizing s with
  | zero => exact Avoids.error (by decide)
  | succ k ih =>
    rw [cacheEvictionFrom]
    dsimp only
    split
    · exact Avoids.ok (h.mono (Nat.le_succ n))
    · refine (KVCache.victimBucket_fits _ _).bind fun i _ => ?_
      refine (evictLocked_room h _ _ i).bind fun r hr => ?_
      obtain ⟨res, s'⟩ := r
      cases res with
      | none => exact ih (hr.2 rfl)
      | some p => exact Avoids.ok hr.1

theorem newInstance_room (h : s.store.HasRoom (n + 1)) :
    Avoids .fileTooLarge s.newInstance fun r => r.2.store.HasRoom n := by
  rw [newInstance]
  split_ifs
  · exact cacheEviction_room h
  · exact (KVCache.acquireInstance_fits _).bind fun _ _ => Avoids.ok (h.mono (Nat.le_succ n))

theorem cachePUTNewEntry_room (h : s.store.HasRoom (n + 1)) (ptr : KVMessage) (i : Nat) :
    Avoids .fileTooLarge (s.cachePUTNewEntry ptr i) fun r => r.2.store.HasRoom n := by
  rw [cachePUTNewEntry]
  refine (newInstance_room h).bind fun r hr => ?_
  obtain ⟨res, s'⟩ := r
  cases res with
  | none => exact Avoids.error (by decide)
  | some p => exact Avoids.ok hr

theorem getSearch_room (h : s.store.HasRoom n) (ptr : KVMessage) :
    Avoids .fileTooLarge (s.getSearch ptr) fun r => r.2.store.HasRoom n := by
  rw [getSearch]
  refine (KVCache.findEntry_fits _ ptr).bind fun found _ => ?_
  cases found with
  | some p => exact (KVCache.moveToHeadLRU_fits _ p).bind fun _ _ => Avoids.ok h
  | none =>
    obtain ⟨m, hm⟩ := h.holds
    dsimp only
    rw [KVStore.readFromDb_eq hm ptr]
    exact Avoids.ok h

/-- **`cache_GET`** writes one entry at most. -/
theorem cacheGET_room (h : s.store.HasRoom (n + 1)) (ptr : KVMessage) :
    Avoids .fileTooLarge (s.cacheGET ptr) fun r => r.2.2.store.HasRoom n := by
  rw [cacheGET, cacheGETPtr]
  refine Avoids.bind (P := fun r => r.2.2.store.HasRoom n) ?_ fun r hr => Avoids.ok hr
  refine (getSearch_room h ptr.calculateKeyHash).bind fun r hr => ?_
  obtain ⟨res, s'⟩ := r
  cases res with
  | done res ptr' => exact Avoids.ok (hr.mono (Nat.le_succ n))
  | load ptr' => exact (cachePUTNewEntry_room hr _ _).bind fun r hr => Avoids.ok hr

/-- **`cache_PUT`** writes one entry at most. -/
theorem cachePUT_room (h : s.store.HasRoom (n + 1)) (ptr : KVMessage) :
    Avoids .fileTooLarge (s.cachePUT ptr) fun s' => s'.store.HasRoom n := by
  rw [cachePUT]
  refine (KVCache.findEntry_fits _ _).bind fun found _ => ?_
  cases found with
  | none => exact (cachePUTNewEntry_room h _ _).bind fun r hr => Avoids.ok hr
  | some p =>
    show Avoids _ (s.upgradePut ptr.calculateKeyHash p) _
    rw [upgradePut]
    split_ifs
    · refine (newInstance_room h).bind fun r hr => ?_
      obtain ⟨res, s'⟩ := r
      cases res with
      | none => exact Avoids.error (by decide)
      | some p => exact (KVCache.moveToHeadLRU_fits _ p).bind fun _ _ => Avoids.ok hr
    all_goals
      exact (KVCache.moveToHeadLRU_fits _ p).bind fun _ _ => Avoids.ok (h.mono (Nat.le_succ n))

/-- **`cache_DELETE`** writes no entry. -/
theorem cacheDELETE_room (h : s.store.HasRoom n) (ptr : KVMessage) :
    Avoids .fileTooLarge (s.cacheDELETE ptr) fun r => r.2.store.HasRoom n := by
  rw [cacheDELETE, deleteSearch]
  refine Avoids.bind (P := fun r => r.2.store.HasRoom n) ?_ fun r hr => ?_
  · refine (KVCache.findEntry_fits _ _).bind fun found _ => ?_
    cases found with
    | none => exact (KVStore.deleteFromDb_room h _).bind fun r hr => Avoids.ok hr
    | some p =>
      dsimp only
      split
      · exact Avoids.ok h
      · exact Avoids.ok h
      · exact Avoids.ok h
  · obtain ⟨res, s'⟩ := r
    cases res with
    | done res => exact Avoids.ok hr
    | upgrade p =>
      refine Avoids.bind (P := fun r => r.2.store.HasRoom n) ?_ fun r hr => ?_
      · rw [upgradeDelete]
        split
        · exact Avoids.ok hr
        · exact Avoids.ok hr
        · exact (KVCache.moveToHeadLRU_fits _ p).bind fun _ _ => Avoids.ok hr
      · obtain ⟨res, s''⟩ := r
        cases res with
        | some res => exact Avoids.ok hr
        | none => exact (KVStore.deleteFromDb_room hr _).bind fun r hr => Avoids.ok hr

theorem cacheEvictionSimpleLoop_room (k : Nat) (h : s.store.HasRoom (n + k)) :
    Avoids .fileTooLarge (s.cacheEvictionSimpleLoop k) fun s' => s'.store.HasRoom n := by
  induction k generalizing s with
  | zero => exact Avoids.ok h
  | succ k ih =>
    rw [cacheEvictionSimpleLoop]
    dsimp only
    split_ifs
    · exact ih (h.mono (Nat.le_succ _))
    · refine (KVCache.victimBucket_fits _ _).bind fun i _ => ?_
      refine (evictLocked_room h _ _ i).bind fun r hr => ?_
      obtain ⟨res, s'⟩ := r
      cases res with
      | none => exact ih hr.1
      | some p => exact (KVCache.releaseInstance_fits _ p).bind fun _ _ => ih hr.1

/-- **`cache_clean`** writes one entry in each round at most. -/
theorem cacheClean_room (fuel : Nat) (h : s.store.HasRoom (n + fuel)) :
    Avoids .fileTooLarge (s.cacheClean fuel) fun s' => s'.store.HasRoom n := by
  induction fuel generalizing s with
  | zero => exact Avoids.error (by decide)
  | succ fuel ih =>
    rw [cacheClean]
    refine (cacheEviction_room h).bind fun r hr => ?_
    obtain ⟨res, s'⟩ := r
    cases res with
    | none => exact Avoids.ok (hr.mono (Nat.le_add_right _ _))
    | some p => exact ih hr

end KVState

/-- The entries that a call of the cache may append. -/
def CacheCall.entries : CacheCall → Nat
  | .get _ => 1
  | .put _ => 1
  | .delete _ => 0
  | .evictionSimple => 10

namespace KVState

variable {s : KVState} {n cacheSize : Nat} {files : Nat → Option (List UInt8)}

theorem call_room (n : Nat) (s : KVState) (c : CacheCall) (h : s.store.HasRoom (n + c.entries)) :
    Avoids .fileTooLarge (s.call c) fun r => r.2.store.HasRoom n := by
  cases c with
  | get ptr => exact (cacheGET_room h ptr).bind fun r hr => Avoids.ok hr
  | put ptr => exact (cachePUT_room h ptr).bind fun s' hs' => Avoids.ok hs'
  | delete ptr => exact (cacheDELETE_room h ptr).bind fun r hr => Avoids.ok hr
  | evictionSimple => exact (cacheEvictionSimpleLoop_room 10 h).bind fun s' hs' => Avoids.ok hs'

end KVState

/-! ## A client -/

section Client

variable {w : Worker} {s : Session} {m : DictSession} {n k : Nat}

theorem receiveChars_fits (stream : List UInt8) :
    Avoids .fileTooLarge (receiveChars stream) fun _ => True := by
  rw [receiveChars]
  split_ifs
  · exact Avoids.ok trivial
  · exact Avoids.error (by decide)

/-- **An event** of the worker writes one entry at most. -/
theorem Worker.serveEvent_room (h : w.state.store.HasRoom (k + 1)) (statusCode : UInt8)
    (c : Connection) :
    Avoids .fileTooLarge (w.serveEvent statusCode c) fun r => r.1.state.store.HasRoom k := by
  rw [Worker.serveEvent]
  dsimp only
  split_ifs
  · exact Avoids.ok (h.mono (Nat.le_succ k))
  · refine (receiveChars_fits _).bind fun _ _ => ?_
    exact (KVState.cacheGET_room h _).bind fun r hr => Avoids.ok hr
  · refine (receiveChars_fits _).bind fun _ _ => (receiveChars_fits _).bind fun _ _ => ?_
    exact (KVState.cachePUT_room h _).bind fun state hstate => Avoids.ok hstate
  · refine (receiveChars_fits _).bind fun _ _ => ?_
    exact (KVState.cacheDELETE_room (h.mono (Nat.le_succ k)) _).bind fun r hr => Avoids.ok hr

theorem InStep.serve_room (h : InStep n s m) (hpos : 0 < n) (req : Request)
    (hroom : s.worker.state.store.HasRoom (k + 1)) :
    Avoids .fileTooLarge ((s.write (req.code :: req.body)).serve) fun s' =>
      s'.worker.state.store.HasRoom k := by
  have hwrite : (s.write (req.code :: req.body)).connection = ⟨req.code :: req.body, []⟩ := by
    rw [Session.write, h.quiet]
    rfl
  rw [Session.serve, hwrite]
  refine Avoids.bind (P := fun r => r.1.state.store.HasRoom k) ?_ fun r hr => Avoids.ok hr
  rw [List.length_cons, Worker.serve]
  have hspec := (Worker.serveEvent_spec (w := s.worker) h.holds hpos req []).ensures
  refine ((Worker.serveEvent_room hroom req.code _).and hspec).bind fun r hr => ?_
  obtain ⟨w, c⟩ := r
  obtain ⟨hr, rfl, -⟩ := hr
  -- all that was written has been read
  cases req.body <;> exact Avoids.ok hr

theorem Session.readStatusCode_room (h : s.worker.state.store.HasRoom k) :
    Avoids .fileTooLarge s.readStatusCode fun s' => s'.worker.state.store.HasRoom k := by
  rw [readStatusCode]
  cases s.connection.toClient with
  | nil => exact Avoids.error (by decide)
  | cons b stream => exact Avoids.ok h

theorem Session.readResultValue_room (h : s.worker.state.store.HasRoom k) :
    Avoids .fileTooLarge s.readResultValue fun s' => s'.worker.state.store.HasRoom k :=
  (receiveChars_fits _).bind fun _ _ => Avoids.ok h

/-- **A call of the client** writes one entry at most. -/
theorem InStep.call_room (h : InStep n s m) (hpos : 0 < n)
    (hroom : s.worker.state.store.HasRoom (k + 1)) (c : ClientCall) :
    Avoids .fileTooLarge (s.call c) fun r => r.2.worker.state.store.HasRoom k := by
  rw [Session.call]
  refine Avoids.bind (P := fun s' => s'.worker.state.store.HasRoom k) ?_ fun s' hs' => Avoids.ok hs'
  have hserve := h.serve_room hpos c.request hroom
  cases c with
  | get message =>
    rw [Session.perform, Session.GET, Session.write_write]
    refine hserve.bind fun s' hs' => (Session.readStatusCode_room hs').bind fun s'' hs'' => ?_
    exact Session.readResultValue_room hs''
  | put message =>
    rw [Session.perform, Session.PUT, Session.write_write, Session.write_write]
    exact hserve.bind fun s' hs' => Session.readStatusCode_room hs'
  | delete message =>
    rw [Session.perform, Session.DELETE, Session.write_write]
    refine hserve.bind fun s' hs' => (Session.readStatusCode_room hs').bind fun s'' hs'' => ?_
    split_ifs
    · exact Session.readResultValue_room hs''
    · exact Avoids.ok hs''

end Client

/-! ## Runs -/

variable {cacheSize : Nat} {files : Nat → Option (List UInt8)}

/-- The files have room for `n` more entries each. -/
def FilesFit (n : Nat) (files : Nat → Option (List UInt8)) : Prop :=
  ∀ num, (KVStore.initKvstore files).fileLength num + sizeOfOneEntry * n ≤ maxFileOffset

theorem FilesFit.hasRoom {n : Nat} (h : FilesFit n files) (hfiles : WellFormedFiles files) :
    (KVStore.initKvstore files).HasRoom n :=
  ⟨hfiles.exists_rep, h⟩

/-- **The store does not fail** while the files have room for an entry of each call: what is shown
of its runs unless a file is full is so. -/
theorem store_returns (hfiles : WellFormedFiles files) (cs : List StoreCall)
    (hfit : FilesFit cs.length files) {Q : List StoreAnswer × KVStore → Prop}
    (h : SucceedsUnlessFull (calls KVStore.call (KVStore.initKvstore files) cs) Q) :
    ∃ r, calls KVStore.call (KVStore.initKvstore files) cs = .ok r ∧ Q r := by
  have hcall : ∀ n s (c : StoreCall), KVStore.HasRoom (n + 1) s →
      Avoids .fileTooLarge (s.call c) fun r => r.2.HasRoom n := by
    intro n s c hs
    cases c with
    | read ptr =>
      obtain ⟨m, hm⟩ := hs.holds
      rw [KVStore.call, KVStore.readFromDb_eq hm ptr]
      exact Avoids.ok (hs.mono (Nat.le_succ n))
    | write ptr => exact (KVStore.writeToDb_room hs ptr).bind fun s' hs' => Avoids.ok hs'
    | delete ptr =>
      exact (KVStore.deleteFromDb_room (hs.mono (Nat.le_succ n)) ptr).bind fun r hr => Avoids.ok hr
  have hroom : (KVStore.initKvstore files).HasRoom (0 + (cs.map fun _ => 1).sum) := by
    have hsum : (cs.map fun _ => 1).sum = cs.length := by simp
    rw [Nat.zero_add, hsum]
    exact hfit.hasRoom hfiles
  obtain ⟨r, hr, hQ, -⟩ := h.returns (calls_avoids (I := KVStore.HasRoom) hcall cs hroom)
  exact ⟨r, hr, hQ⟩

/-- **The cache does not fail** while the files have room for the entries of its calls, and of the
shutdown. -/
theorem cache_returns (hsize : 1 ≤ cacheSize) (hfiles : WellFormedFiles files)
    (cs : List CacheCall) (n : Nat) (hfit : FilesFit (n + (cs.map CacheCall.entries).sum) files) :
    ∃ s, KVState.start cacheSize files = .ok s ∧
      (∀ Q, SucceedsUnlessFull (calls KVState.call s cs) Q →
        ∃ r, calls KVState.call s cs = .ok r ∧ Q r) ∧
      ∀ Q, SucceedsUnlessFull ((calls KVState.call s cs).bind fun r => r.2.cacheClean n) Q →
        ∃ r s', calls KVState.call s cs = .ok r ∧ r.2.cacheClean n = .ok s' ∧ Q s' := by
  obtain ⟨m, hm⟩ := hfiles.exists_rep
  obtain ⟨s, hs, hstore, -⟩ := KVState.start_spec hsize hm
  have hroom : s.store.HasRoom (n + (cs.map CacheCall.entries).sum) :=
    hstore ▸ hfit.hasRoom hfiles
  have hcalls := calls_avoids (I := fun n s => KVStore.HasRoom n (KVState.store s))
    KVState.call_room cs hroom
  refine ⟨s, hs, fun Q hQ => ?_, fun Q hQ => ?_⟩
  · obtain ⟨r, hr, hQr, -⟩ := hQ.returns hcalls
    exact ⟨r, hr, hQr⟩
  · have hclean := hcalls.bind fun r hr =>
      KVState.cacheClean_room (n := 0) n (by rwa [Nat.zero_add])
    obtain ⟨s', hs', hQs', -⟩ := hQ.returns hclean
    cases hr : calls KVState.call s cs with
    | error e => rw [hr] at hs'; cases hs'
    | ok r =>
      rw [hr] at hs'
      exact ⟨r, s', rfl, hs', hQs'⟩

/-- **A client's session does not fail** while the files have room for an entry of each call. -/
theorem session_returns (hsize : 1 ≤ cacheSize) (hfiles : WellFormedFiles files)
    (cs : List ClientCall) (hfit : FilesFit cs.length files) :
    ∃ state, KVState.start cacheSize files = .ok state ∧
      ∀ (client : Client) (message : KVMessage) Q,
        SucceedsUnlessFull (calls Session.call ⟨client, ⟨message, state, []⟩, ⟨[], []⟩⟩ cs) Q →
        ∃ r, calls Session.call ⟨client, ⟨message, state, []⟩, ⟨[], []⟩⟩ cs = .ok r ∧ Q r := by
  obtain ⟨m, hm⟩ := hfiles.exists_rep
  obtain ⟨state, hstate, hstore, hrep, halloc⟩ := KVState.start_spec hsize hm
  refine ⟨state, hstate, fun client message Q hQ => ?_⟩
  have hcall : ∀ n s (c : ClientCall),
      ((∃ m, InStep cacheSize s m) ∧ s.worker.state.store.HasRoom (n + 1)) →
      Avoids .fileTooLarge (s.call c) fun r =>
        (∃ m, InStep cacheSize r.2 m) ∧ r.2.worker.state.store.HasRoom n := by
    rintro n s c ⟨⟨m, hstep⟩, hroom⟩
    refine ((hstep.call_room hsize hroom c).and (hstep.call hsize c).ensures).mono fun r hr => ?_
    exact ⟨⟨_, hr.2.2⟩, hr.1⟩
  have hsum : (cs.map fun _ => 1).sum = cs.length := by simp
  have hstart : (∃ m, InStep cacheSize ⟨client, ⟨message, state, []⟩, ⟨[], []⟩⟩ m) ∧
      state.store.HasRoom (0 + (cs.map fun _ => 1).sum) := by
    refine ⟨⟨⟨client, fun k => m (tripleOf k), []⟩, rfl, rfl, ⟨_, hrep, halloc⟩, rfl⟩, ?_⟩
    rw [Nat.zero_add, hsum, hstore]
    exact hfit.hasRoom hfiles
  obtain ⟨r, hr, hQr, -⟩ := hQ.returns (calls_avoids (I := fun n s =>
    (∃ m, InStep cacheSize s m) ∧ s.worker.state.store.HasRoom n) hcall cs hstart)
  exact ⟨r, hr, hQr⟩

end KeyValueStore
