import KeyValueStore.ServerWorkers
import KeyValueStore.ThreadCapacity
import KeyValueStore.ThreadTurns

/-!
# Workers that take turns in the cache

Where no worker takes a step in the cache while another is in the middle of an operation, as if one
lock were held from the search to the return, the clients see one dictionary and the cache keeps to
its capacity (`server_in_turn`): no matter how small the cache is and what is evicted, and although
any number of requests may be under way at the workers.
-/

namespace KeyValueStore

open Linearizability Run SharedCache

/-! ## One turn of a thread -/

/-- A thread that finds a free node in its turn can have it. -/
theorem SharedCache.findsSpare_of_inTurn {σ : SharedCache} {t : Nat} (hturn : σ.InTurn t) :
    σ.FindsSpare (.run t) := by
  intro task hpc hfull
  have hnone : {t' | σ.Acquiring t'} = ∅ := by
    apply Set.eq_empty_of_forall_notMem
    rintro t' ⟨task', ht'⟩
    by_cases ht : t' = t
    · rw [ht, hpc] at ht'
      cases ht'
    · have hbegun := hturn t' ht
      rw [ht'] at hbegun
      cases hbegun
  rw [hnone, Set.encard_empty]
  have hne : σ.state.cache.cacheNodeMemoryPool.n ≠ 0 := by
    simpa [KVCache.isFull] using hfull
  exact_mod_cast Nat.pos_of_ne_zero hne

/-! ## The turns of the workers -/

/-- The worker is in the cache. -/
def WorkerPc.inCache : WorkerPc → Bool
  | .executing _ _ => true
  | _ => false

/-- If this is a step in the cache, no other worker is in the middle of an operation. -/
def Server.InTurn (s : Server) : ServerMove → Prop
  | .worker i _ => (s.threads i).pc.inCache = true → ∀ j < s.main.threadPool.length, j ≠ i →
    (s.cache.pc j).begun = false
  | _ => True

instance (s : Server) (m : ServerMove) : Decidable (s.InTurn m) :=
  match m with
  | .worker _ _ => inferInstanceAs (Decidable (_ = true → ∀ j < _, _ → _))
  | .accept _ | .call _ _ | .write _ | .receive _ | .close _ => inferInstanceAs (Decidable True)

/-- What the turns keep of the cache. Only workers of the pool are in it. -/
structure Server.OneByOne (cacheSize : Nat) (s : Server) : Prop where
  alone : ∃ L held d, Alone s.cache L held d
  sequential : Sequential cacheSize s.cache
  capacity : Capacity cacheSize s.cache
  idle : ∀ j, s.main.threadPool.length ≤ j → s.cache.pc j = .idle

theorem ServerState.length_le_of_effect {config : ServerConfig} {s s' : ServerState}
    {a : ServerStep} (h : Effect config s a s') : s.threadPool.length ≤ s'.threadPool.length := by
  cases h with
  | given hpool => rw [hpool]; simp
  | grown => simp
  | taken hpool => rw [hpool]; simp
  | closed hpool => rw [hpool]; simp

namespace Server.OneByOne

variable {config : ServerConfig} {s s' : Server} {cacheSize i : Nat} {m : ServerMove}

theorem inTurn (h : s.OneByOne cacheSize) {events : List EpollEvent} {fd : Nat}
    {rest : List EpollEvent} (hturn : s.InTurn (.worker i events))
    (hpc : (s.threads i).pc = .executing fd rest) : s.cache.InTurn i := by
  intro j hj
  by_cases hlt : j < s.main.threadPool.length
  · exact hturn (by rw [hpc]; rfl) j hlt hj
  · rw [h.idle j (Nat.le_of_not_lt hlt)]
    rfl

theorem undisturbed (h : s.OneByOne cacheSize) (hturn : s.InTurn m) : s.Undisturbed m := by
  cases m with
  | worker i events =>
    intro fd rest hpc
    obtain ⟨L, held, d, halone⟩ := h.alone
    exact halone.undisturbed (h.inTurn hturn hpc)
  | _ => trivial

theorem runThread (h : s.OneByOne cacheSize) (hsize : 1 ≤ cacheSize) (hturn : s.cache.InTurn i) :
    SucceedsUnlessFull (s.cache.runThread i) (Sequential cacheSize) := by
  obtain ⟨L, held, d, halone⟩ := h.alone
  refine h.sequential.of_runThread hsize (fun task hpc => ?_) hturn
  have hok := halone.inv.threads.ok i
  rwa [hpc] at hok

theorem of_cache (h : s.OneByOne cacheSize) (hcache : s'.cache = s.cache)
    (hlength : s.main.threadPool.length ≤ s'.main.threadPool.length) :
    s'.OneByOne cacheSize := by
  obtain ⟨halone, hsequential, hcapacity, hidle⟩ := h
  refine ⟨?_, ?_, ?_, fun j hj => ?_⟩ <;> rw [hcache]
  · exact halone
  · exact hsequential
  · exact hcapacity
  · exact hidle j (hlength.trans hj)

theorem of_dispatch (h : s.OneByOne cacheSize) (hinv : s.main.Inv) (a : ServerStep) :
    (s.dispatch config a).OneByOne cacheSize := by
  rcases s.dispatch_effect hinv with hsame | ⟨main, heffect, hdispatch⟩
  · rw [hsame]
    exact h
  · rw [hdispatch]
    exact h.of_cache rfl (ServerState.length_le_of_effect heffect)

/-- **What a worker does in the cache** in its turn. -/
theorem of_cacheEffect (h : s.OneByOne cacheSize) (hsize : 1 ≤ cacheSize)
    {events : List EpollEvent} (hturn : s.InTurn (.worker i events))
    (hi : i < s.main.threadPool.length) {σ : SharedCache} (heffect : CacheEffect s i σ) :
    { s with cache := σ }.OneByOne cacheSize := by
  obtain ⟨L, held, d, halone⟩ := h.alone
  cases heffect with
  | same => exact h
  | called op ptr =>
    refine ⟨⟨L, held, d, halone.of_invoke i op ptr⟩, h.sequential.of_invoke op ptr,
      h.capacity.of_invoke i op ptr, fun j hj => ?_⟩
    have hne : j ≠ i := fun hsame => Nat.not_lt.2 hj (hsame ▸ hi)
    exact (invoke_pc op ptr j hne).trans (h.idle j hj)
  | ran hpc hstep =>
    have hthread := h.inTurn hturn hpc
    obtain ⟨halone', hothers⟩ := halone.of_runThread hthread hstep
    refine ⟨halone', (h.runThread hsize hthread).of_ok hstep,
      h.capacity.of_runThread hsize (findsSpare_of_inTurn hthread) hstep, fun j hj => ?_⟩
    have hne : j ≠ i := fun hsame => Nat.not_lt.2 hj (hsame ▸ hi)
    exact (hothers j hne).trans (h.idle j hj)

theorem of_step (h : s.OneByOne cacheSize) (hinv : s.main.Inv) (hsize : 1 ≤ cacheSize)
    (hturn : s.InTurn m) : Ensures (s.step config m) fun s' => s'.OneByOne cacheSize := by
  intro s' hs'
  cases effect_of_step s' hs' with
  | stays => exact h
  | works hinfo hstarted heffect =>
    cases heffect with
    | stays => exact h
    | polls => exact h.of_cache rfl le_rfl
    | goes hfds hclients hcache =>
      have hi := (List.getElem?_eq_some_iff.1 hinfo).1
      exact (h.of_cacheEffect hsize hturn hi hcache).of_cache rfl le_rfl
    | ends => exact (h.of_dispatch hinv _).of_cache rfl le_rfl
    | takesNew => exact (h.of_dispatch hinv _).of_cache rfl le_rfl
  | accepts => exact (h.of_dispatch hinv _).of_cache rfl le_rfl
  | moves => exact h.of_cache rfl le_rfl

end Server.OneByOne

/-! ## Runs -/

/-- **No step of the server fails** where the workers take turns, unless a file is full. -/
theorem ServerInv.step_succeeds {d₀ d : Dict} {s : Server} {taken : Nat → Bool}
    {pending : Nat → Option (Nat × Request × Option Outcome)}
    {calls : Nat → Option (Nat × CacheCall)} {l : List (Entry Request Outcome)} {cacheSize : Nat}
    {config : ServerConfig} {m : ServerMove} (h : ServerInv d₀ s taken pending calls l d)
    (hone : s.OneByOne cacheSize) (hsize : 1 ≤ cacheSize) (hturn : s.InTurn m) :
    SucceedsUnlessFull (s.step config m) fun _ => True := by
  cases m with
  | worker i events =>
    rw [Server.step, Server.runWorker]
    split
    · exact Excused.ok trivial
    split_ifs
    · split
      · exact Excused.ok trivial
      · exact Excused.ok trivial
      · rename_i e rest hpc
        split_ifs
        · exact Excused.ok trivial
        · obtain ⟨s', hs', -⟩ := h.serveEvent config (by rw [hpc]; rfl) rest
          exact Or.inr ⟨s', hs', trivial⟩
      · rename_i fd rest hpc
        rw [Server.execute]
        refine (hone.runThread hsize (hone.inTurn hturn hpc)).bind fun σ _ => ?_
        split
        · exact Excused.ok trivial
        · exact Excused.ok trivial
      · exact Excused.ok trivial
      · exact Excused.ok trivial
    · exact Excused.ok trivial
  | receive fd =>
    obtain ⟨c, hreceive, -⟩ := Clients.receive_tracks h.tracks fd ⟨.empty, s.cache.state, []⟩
    rw [Server.step, hreceive]
    exact Excused.ok trivial
  | _ => exact Excused.ok trivial

variable {cacheSize : Nat} {files : Nat → Option (List UInt8)}

/-- **Workers that take turns in the cache serve all clients as one dictionary would**, and within
its capacity. Only the size limit of a file can stop them. -/
theorem server_in_turn (hsize : 1 ≤ cacheSize) (hfiles : WellFormedFiles files) :
    ∃ state d₀, KVState.start cacheSize files = .ok state ∧
      (∀ ptr : KVMessage,
        state.store.readFromDb ptr.calculateKeyHash = .ok (dictGet d₀ ptr.calculateKeyHash)) ∧
      ∀ config messages clients moves,
        Meets (Server.step config) Server.InTurn (.start config state messages clients) moves →
        SucceedsUnlessFull (run (Server.step config) (.start config state messages clients) moves)
          fun s => (∃ l d, Linearizes requestSpec d₀ s.history l d ∧
            ∀ key, s.cache.state.lookup key = .ok (d key)) ∧
            s.cache.WithinCapacity cacheSize := by
  obtain ⟨state, d₀, hstate, hread, hrep, halloc⟩ := KVState.start_dict hsize hfiles
  obtain ⟨L, hinv, -⟩ := inv_start hsize hstate
  have hrepL := hrep.relayout hinv.wf
  refine ⟨state, d₀, hstate, hread, ?_⟩
  intro config messages clients moves hturns
  have hone : (Server.start config state messages clients).OneByOne cacheSize :=
    ⟨⟨L, [], _, .start hinv hrepL⟩, .rest (fun _ => rfl) ⟨_, hrep, halloc⟩,
      capacity_start hstate, fun _ _ => rfl⟩
  refine (run_excused_of_meets (I := fun s => s.Attached ∧ s.OneByOne cacheSize ∧
    ∃ taken pending calls l d, ServerInv d₀ s taken pending calls l d)
    (fun s a hI hturn => ?_) ⟨.start .., hone, _, _, _, _, _,
      ServerInv.start hinv hrepL config messages clients⟩ hturns).mono fun s hs => ?_
  · obtain ⟨hattached, hone, taken, pending, calls, l, d, h⟩ := hI
    refine Ensures.excused ?_ (h.step_succeeds hone hsize hturn)
    exact hattached.of_step.and ((hone.of_step hattached.main hsize hturn).and
      (h.step config (hone.undisturbed hturn)))
  · obtain ⟨-, hone, taken, pending, calls, l, d, h⟩ := hs
    obtain ⟨L, held, -, hrep⟩ := h.cache
    exact ⟨⟨l, d, h.tracks.staged.inst.linearizes, fun key => KVState.lookup_eq hrep key⟩,
      hone.capacity.withinCapacity⟩

/-- Two requests are under way at once, and one worker waits for the other to return. -/
def putsInTurn : List ServerMove :=
  overlappingPuts.take 20 ++ List.replicate 6 (.worker 0 []) ++ [.receive 4] ++
    List.replicate 6 (.worker 1 []) ++ [.receive 5]

theorem server_in_turn_two : ∃ state d₀ s, KVState.start 2 (fun _ => none) = .ok state ∧
    run (Server.step ⟨2, 1, 5⟩) (.start ⟨2, 1, 5⟩ state (fun _ => .empty)
      fun _ => ⟨0, emptyString⟩) putsInTurn = .ok s ∧ s.history.length = 4 ∧
      (∃ l d, Linearizes requestSpec d₀ s.history l d ∧
        ∀ key, s.cache.state.lookup key = .ok (d key)) ∧
      s.cache.WithinCapacity 2 := by
  have hcheck : returns (KVState.start 2 fun _ => none) (fun state =>
      checkRun (Server.step ⟨2, 1, 5⟩) (fun s m => decide (s.InTurn m))
        (.start ⟨2, 1, 5⟩ state (fun _ => .empty) fun _ => ⟨0, emptyString⟩) putsInTurn &&
      returns (run (Server.step ⟨2, 1, 5⟩) (.start ⟨2, 1, 5⟩ state (fun _ => .empty)
        fun _ => ⟨0, emptyString⟩) putsInTurn) fun s => s.history.length == 4) = true := by
    decide +kernel
  obtain ⟨state, hstate, hcheck⟩ := exists_of_returns hcheck
  rw [Bool.and_eq_true] at hcheck
  obtain ⟨s, hrun, hlength⟩ := exists_of_returns hcheck.2
  obtain ⟨state', d₀, hstate', -, hruns⟩ := server_in_turn one_le_two wellFormedFiles_none
  obtain rfl := Except.ok.inj (hstate.symm.trans hstate')
  exact ⟨state, d₀, s, hstate, hrun, eq_of_beq hlength, (hruns _ _ _ _
    (meets_of_checkRun (fun _ _ => of_decide_eq_true) hcheck.1)).of_ok hrun⟩

end KeyValueStore
