import KeyValueStore.EventLoopRuns
import KeyValueStore.Processes

/-!
# The event loop killed between two events

The operating system can kill the server between any two steps of the worker and its clients: with
requests under way in part, executed and not answered, or answered. Nothing is cleaned then, so the
files are what the evictions have made of them so far.

An event is served in one step here, with all that it writes to the store. A kill that falls into
`write_to_db` or `delete_from_db`, between two of their writes, is left out. Such a `delete_from_db`
can lose other keys of the chain (`interrupted_delete_iff`).

* `event_loop_killed` — outside of these calls, the files hold for each key a value that it has had,
  the last one for all but as many keys as the cache has room for.

The invariant (`Worker.StoresPast`) says that the store holds for each key a value which the
dictionary had after some of the requests executed. A request keeps it, since an eviction on the
way writes what the dictionary holds, and a deletion what it will hold.
-/

namespace KeyValueStore

open Linearizability Run

/-! ## One request -/

/-- The call of the cache that the request makes. -/
def Request.cacheCall : Request → CacheCall
  | .get key => .get { KVMessage.empty with key := key }
  | .put key value => .put { KVMessage.empty with key := key, value := value }
  | .delete key => .delete { KVMessage.empty with key := key }

theorem dictCall_cacheCall (d : Dict) (req : Request) :
    (dictCall d req.cacheCall).2 = (dictRequest d req).2 := by
  cases req <;> rfl

theorem Stored.mono {m : Triple → Option Chars256} {done requests : List CacheCall} {t : Triple}
    {o : Option Chars256} (h : Stored m done t o) (hdone : done <+: requests) :
    Stored m requests t o where
  hashed ht := by
    obtain ⟨before, hbefore, ho⟩ := h.hashed ht
    exact ⟨before, hbefore.trans hdone, ho⟩
  other := h.other

theorem StoresOnly.mono {P Q : Triple → Option Chars256 → Prop} {store : KVStore}
    (h : StoresOnly P store) (hPQ : ∀ t o, P t o → Q t o) : StoresOnly Q store := by
  obtain ⟨m, hm, hP⟩ := h
  exact ⟨m, hm, fun t => hPQ t _ (hP t)⟩

theorem specCalls_cacheCall (d : Dict) (reqs : List Request) :
    (specCalls dictCall d (reqs.map Request.cacheCall)).2 = dictAfter d reqs := by
  induction reqs generalizing d with
  | nil => rfl
  | cons req reqs ih =>
    rw [List.map_cons, specCalls, dictCall_cacheCall]
    exact ih _

theorem dictAfter_snoc (d : Dict) (reqs : List Request) (req : Request) :
    dictAfter d (reqs ++ [req]) = (dictRequest (dictAfter d reqs) req).2 := by
  simp [dictAfter]

theorem dictAfter_of_legal {d d' : Dict} {l : List (Entry Request Outcome)}
    (h : Legal requestSpec d l d') : dictAfter d (l.map Entry.op) = d' := by
  induction l generalizing d with
  | nil => exact h
  | cons e es ih => exact ih h.2

variable {m : Triple → Option Chars256} {n : Nat} {w : Worker}

/-- What a server may store that has executed these requests. -/
def Past (m : Triple → Option Chars256) (reqs : List Request) :
    Triple → Option Chars256 → Prop :=
  Stored m (reqs.map Request.cacheCall)

theorem Past.snoc {reqs : List Request} {t : Triple} {o : Option Chars256} (h : Past m reqs t o)
    (req : Request) : Past m (reqs ++ [req]) t o :=
  h.mono ((List.prefix_append reqs [req]).map _)

theorem allows_past (m : Triple → Option Chars256) (reqs : List Request) :
    Allows (Past m reqs) (dictAfter (serverDict m) reqs) := by
  rw [← specCalls_cacheCall]
  exact allows_stored (List.prefix_refl _)

/-- The store holds for each key a value that it has had in the requests executed. -/
def Worker.StoresPast (m : Triple → Option Chars256) (w : Worker) : Prop :=
  StoresOnly (Past m w.executed) w.state.store

/-- **One event** keeps the store to the values of the past, whatever has arrived. -/
theorem Worker.serveEvent_storesPast
    (h : KVState.Holds n w.state (dictAfter (serverDict m) w.executed)) (hs : w.StoresPast m)
    (statusCode : UInt8) (c : Connection) :
    Ensures (w.serveEvent statusCode c) fun r => r.1.StoresPast m := by
  have hall := allows_past m w.executed
  have hsnoc : ∀ {store : KVStore} (req : Request), StoresOnly (Past m w.executed) store →
      StoresOnly (Past m (w.executed ++ [req])) store := fun req hstore =>
    hstore.mono fun t o ho => ho.snoc req
  rw [serveEvent]
  split_ifs with hvalid hget hput
  · exact Ensures.ok hs
  · refine ensures_true.bind fun r _ => ?_
    exact (KVState.cacheGET_storesOnly h hall hs _).bind fun r hr => Ensures.ok (hsnoc _ hr)
  · refine ensures_true.bind fun r _ => ensures_true.bind fun r' _ => ?_
    exact (KVState.cachePUT_storesOnly h hall hs _).bind fun s' hs' => Ensures.ok (hsnoc _ hs')
  · refine ensures_true.bind fun r _ => ?_
    obtain ⟨key, toServer⟩ := r
    -- a deletion may reach the store at once, so the new dictionary has to be allowed
    have hkey := allows_past m (w.executed ++ [.delete key]) key
    rw [dictAfter_snoc, show (dictRequest _ (.delete key)).2 key = none from
      Function.update_self ..] at hkey
    exact (KVState.cacheDELETE_storesOnly h (hsnoc (.delete key) hs) _ hkey).bind fun r hr =>
      Ensures.ok hr

/-! ## The loop -/

namespace EventLoop

variable {s : EventLoop}

/-- What a step does to the worker: nothing, or one event. -/
theorem serveEvent_worker (s : EventLoop) (fd : Nat) (rest : List EpollEvent) :
    Ensures (s.serveEvent fd rest) fun s' => s'.worker = s.worker ∨
      ∃ statusCode c c', s.worker.serveEvent statusCode c = .ok (s'.worker, c') := by
  rw [serveEvent]
  dsimp only
  split
  · split_ifs <;> exact Ensures.ok (Or.inl rfl)
  · split
    · exact Ensures.ok (Or.inl rfl)
    · exact Ensures.error
    · rename_i hserve
      exact Ensures.ok (Or.inr ⟨_, _, _, hserve⟩)

theorem step_worker (config : ServerConfig) (s : EventLoop) (a : LoopStep) :
    Ensures (s.step config a) fun s' => s'.worker = s.worker ∨
      ∃ statusCode c c', s.worker.serveEvent statusCode c = .ok (s'.worker, c') := by
  cases a with
  | worker events =>
    rw [step, runWorker]
    split
    · rw [epollWait]
      split_ifs <;> exact Ensures.ok (Or.inl rfl)
    · exact Ensures.ok (Or.inl rfl)
    · split_ifs
      · exact Ensures.ok (Or.inl rfl)
      · exact serveEvent_worker s _ _
    · exact Ensures.ok (Or.inl rfl)
  | accept fd =>
    rw [step, accept]
    split_ifs <;> exact Ensures.ok (Or.inl rfl)
  | call fd c => exact Ensures.ok (Or.inl rfl)
  | write fd => exact Ensures.ok (Or.inl rfl)
  | receive fd => exact ensures_true.bind fun _ _ => Ensures.ok (Or.inl rfl)
  | close fd => exact Ensures.ok (Or.inl rfl)
  | fail fd =>
    rw [step, fail]
    split_ifs <;> exact Ensures.ok (Or.inl rfl)

/-- The loop is in step with the dictionary, and the store with its past. -/
def Recoverable (n : Nat) (m : Triple → Option Chars256) (s : EventLoop) : Prop :=
  LoopInv n (serverDict m) s ∧ s.worker.StoresPast m

theorem step_recoverable (config : ServerConfig) (h : Recoverable n m s) (hpos : 0 < n)
    (a : LoopStep) : SucceedsUnlessFull (s.step config a) (Recoverable n m) := by
  have hinv := step_inv config h.1 hpos a
  obtain ⟨pending, l, d, htracks, hholds, hexec⟩ := h.1
  have hafter : dictAfter (serverDict m) s.worker.executed = d := by
    rw [hexec]
    exact dictAfter_of_legal htracks.staged.inst.linearizes.legal
  have hstores : Ensures (s.step config a) fun s' => s'.worker.StoresPast m := by
    intro s' hs'
    rcases step_worker config s a s' hs' with hsame | ⟨statusCode, c, c', hserve⟩
    · rw [hsame]
      exact h.2
    · rw [← hafter] at hholds
      exact Worker.serveEvent_storesPast hholds h.2 statusCode c _ hserve
  exact (hinv.ensures.and hstores).excused hinv

end EventLoop

/-! ## The kill -/

variable {cacheSize : Nat} {files : Nat → Option (List UInt8)}

/-- **What a kill leaves**, while no call of the store is under way. Whatever the clients and the
worker have done until then, the files hold for each key a value that it has had, and for all but
`cacheSize` keys the last one. -/
theorem event_loop_killed (hsize : 1 ≤ cacheSize) (hfiles : WellFormedFiles files) :
    ∃ state d₀, KVState.start cacheSize files = .ok state ∧
      (∀ ptr : KVMessage,
        state.store.readFromDb ptr.calculateKeyHash = .ok (dictGet d₀ ptr.calculateKeyHash)) ∧
      ∀ config message threadId clients steps,
        SucceedsUnlessFull
          (run (EventLoop.step config) (.start message state threadId clients) steps) fun s =>
            ∃ l d, Linearizes requestSpec d₀ s.history l d ∧ ∃ d' : Dict,
              (∀ ptr : KVMessage,
                (KVStore.initKvstore s.worker.state.store.files).readFromDb ptr.calculateKeyHash =
                  .ok (dictGet d' ptr.calculateKeyHash)) ∧
              (∀ k, ∃ done, done <+: l.map Entry.op ∧ d' k = dictAfter d₀ done k) ∧
              ∃ ks : List Chars256, ks.length ≤ cacheSize ∧ ∀ k, k ∉ ks → d' k = d k := by
  obtain ⟨m, hm⟩ := hfiles.exists_rep
  obtain ⟨state, hstate, hstore, hrep, hn⟩ := KVState.start_spec hsize hm
  refine ⟨state, serverDict m, hstate, fun ptr => ?_,
    fun config message threadId clients steps => ?_⟩
  · rw [hstore]
    exact KVState.readFromDb_of_rep hm (fun _ => rfl) ptr
  have hpast : Worker.StoresPast m ⟨message, state, []⟩ := ⟨m, hstore ▸ hm, stored_self m []⟩
  have hstart : EventLoop.Recoverable cacheSize m (.start message state threadId clients) :=
    ⟨EventLoop.start_inv ⟨_, hrep, hn⟩ threadId clients, hpast⟩
  refine (run_excused (fun s a hs => EventLoop.step_recoverable config hs hsize a) steps
    hstart).mono fun s hs => ?_
  obtain ⟨⟨pending, l, d, htracks, ⟨L, hrep', hn'⟩, hexec⟩, hpast⟩ := hs
  -- only keys of linked nodes may be behind, and there are at most `cacheSize` of these
  obtain ⟨d', hd', hall, hlast⟩ := left_behind hrep' hpast
  have hcount := hrep'.wf.count
  refine ⟨l, d, htracks.staged.inst.linearizes, d', ?_, ?_,
    L.linked.map fun p => (s.worker.state.cache.message p).key, ?_, ?_⟩
  · intro ptr
    exact KVState.readFromDb_of_rep hd' (fun k => (congrFun serverDict_withDict k).symm) ptr
  · intro k
    obtain ⟨done, hdone, hk⟩ := hall k
    obtain ⟨reqs, hreqs, rfl⟩ := List.prefix_map_iff.1 hdone
    rw [specCalls_cacheCall] at hk
    exact ⟨reqs, hexec ▸ hreqs, hk⟩
  · rw [List.length_map]
    omega
  · intro k hk
    exact hlast k fun p hp hkey => hk (List.mem_map.2 ⟨p, hp, hkey⟩)

/-- Two PUTs to a cache of one entry: the first is answered, and its key is evicted by the second,
which is executed and not answered. -/
def evictingPuts : List LoopStep :=
  [.accept 4, .worker [], .worker [], .worker [], .call 4 (.put (entry 97 1)), .write 4, .write 4,
    .write 4, .worker [⟨4, false⟩], .worker [], .worker [], .receive 4, .call 4 (.put (entry 98 2)),
    .write 4, .write 4, .write 4, .worker [], .worker [], .worker [⟨4, false⟩], .worker []]

theorem event_loop_killed_put : ∃ state d₀, KVState.start 1 (fun _ => none) = .ok state ∧
    SucceedsUnlessFull
      (run (EventLoop.step ⟨1, 1, 5⟩) (.start .empty state 1 fun _ => ⟨0, emptyString⟩)
        evictingPuts) fun s =>
        ∃ l d, Linearizes requestSpec d₀ s.history l d ∧ ∃ d' : Dict,
          (∀ ptr : KVMessage,
            (KVStore.initKvstore s.worker.state.store.files).readFromDb ptr.calculateKeyHash =
              .ok (dictGet d' ptr.calculateKeyHash)) ∧
          (∀ k, ∃ done, done <+: l.map Entry.op ∧ d' k = dictAfter d₀ done k) ∧
          ∃ ks : List Chars256, ks.length ≤ 1 ∧ ∀ k, k ∉ ks → d' k = d k := by
  obtain ⟨state, d₀, hstate, -, hrun⟩ := event_loop_killed (le_refl 1) wellFormedFiles_none
  exact ⟨state, d₀, hstate, hrun _ _ _ _ _⟩

end KeyValueStore
