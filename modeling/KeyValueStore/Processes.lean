import KeyValueStore.CacheDurability
import KeyValueStore.TestingDatabase

/-!
# Processes that share the directory

The files outlive the processes that work on them: a server, until it is interrupted or killed; the
tool; another server, with a cache of another size. What they have in common is one map from triples
to values. A server reads and writes it at the triples of hashed keys only, and until it ends the
files may lag behind its dictionary.

A server is killed while no call of `write_to_db` or `delete_from_db` is under way. What a kill
between two of the writes of such a call leaves is the subject of `StoreInterrupted`; there, other
keys can be lost. A server is interrupted between two requests.

* `server_spec` — a server that is interrupted leaves its dictionary; one that is killed leaves for
  each key a value that the key has had, the last one for all but as many keys as the cache has room
  for (`Survives`).
* `processes_share_map` — any processes, one after another, work on one map.
* `restarts_are_invisible` — servers that are interrupted answer like one that runs on.
-/

namespace KeyValueStore

open Run

/-- The files of the directory `db`. -/
abbrev Directory := Nat → Option (List UInt8)

/-! ## Processes -/

/-- How a server ends. -/
inductive ServerStop
  /-- By SIGINT: the handler runs `cache_clean` and exits. -/
  | interrupted
  /-- By the operating system, when `cache_clean` has done `rounds` rounds, or before it. A request
  asks the store for one write at most: where that write is not under way, a kill in the middle of a
  request leaves in the files what one before or after it does. -/
  | killed (rounds : Nat)

inductive Process
  | server (cacheSize : Nat) (requests : List CacheCall) (stop : ServerStop)
  | tool (args : List (List UInt8))

inductive ProcessOutput
  | answers (as : List CacheAnswer)
  | printed (out : ToolOutput)

/-- A server, from `init_kvstore` to its end. -/
def runServer (cacheSize : Nat) (requests : List CacheCall) (stop : ServerStop)
    (files : Directory) : Except Fault (List CacheAnswer × Directory) := do
  let s ← KVState.start cacheSize files
  let (answers, s) ← calls KVState.call s requests
  match stop with
  | .interrupted => return (answers, (← s.cacheClean (cacheSize + 1)).store.files)
  | .killed rounds => return (answers, (← s.cacheCleanRounds rounds).store.files)

/-- One process. `v` is what the tool finds in its variables. -/
def Process.run (v : DumpVars) (files : Directory) :
    Process → Except Fault (ProcessOutput × Directory)
  | .server cacheSize requests stop => do
    let (answers, files) ← runServer cacheSize requests stop files
    return (.answers answers, files)
  | .tool args => do
    let (out, files) ← testingDatabase v args files
    return (.printed out, files)

/-! ## The map -/

/-- The dictionary of a server that starts on the map. -/
def serverDict (m : Triple → Option Chars256) : Dict := fun k => m (tripleOf k)

/-- The map with another dictionary. -/
def withDict (m : Triple → Option Chars256) (d : Dict) : Triple → Option Chars256 := fun t =>
  if t = tripleOf t.key then d t.key else m t

/-- What may be left of a dictionary, when a server whose cache has room for `n` keys is killed
after the given requests. -/
structure Survives (n : Nat) (d : Dict) (requests : List CacheCall) (d' : Dict) : Prop where
  /-- Every key has a value that it has had. -/
  past : ∀ k, ∃ done, done <+: requests ∧ d' k = (specCalls dictCall d done).2 k
  /-- All but `n` keys have their last one. -/
  few : ∃ ks : List Chars256, ks.length ≤ n ∧
    ∀ k, k ∉ ks → d' k = (specCalls dictCall d requests).2 k

/-- What a process does on the map. -/
def Process.Spec (m : Triple → Option Chars256) :
    Process → ProcessOutput → (Triple → Option Chars256) → Prop
  | .server _ requests .interrupted, out, m' =>
    out = .answers (specCalls dictCall (serverDict m) requests).1 ∧
      m' = withDict m (specCalls dictCall (serverDict m) requests).2
  | .server cacheSize requests (.killed _), out, m' =>
    out = .answers (specCalls dictCall (serverDict m) requests).1 ∧
      ∃ d, Survives cacheSize (serverDict m) requests d ∧ m' = withDict m d
  | .tool args, out, m' => ∃ command printed, parseArgs args = .ok command ∧
      out = .printed printed ∧ command.Spec m printed m'

/-- The cache has room, and the command line is one that the tool understands. -/
def Process.Valid : Process → Prop
  | .server cacheSize _ _ => 1 ≤ cacheSize
  | .tool args => ∃ command, parseArgs args = .ok command ∧ command.Valid

variable {m m' : Triple → Option Chars256} {d : Dict} {files : Directory} {cacheSize : Nat}

@[simp] theorem serverDict_withDict : serverDict (withDict m d) = d := by
  funext k
  rw [serverDict, withDict]
  exact if_pos rfl

@[simp] theorem withDict_withDict (d' : Dict) : withDict (withDict m d) d' = withDict m d' := by
  funext t
  simp only [withDict]
  split_ifs <;> rfl

/-- A map that differs from `m` at hashed keys only. -/
theorem eq_withDict (h : ∀ t : Triple, t ≠ tripleOf t.key → m' t = m t) :
    m' = withDict m (serverDict m') := by
  funext t
  rw [withDict, serverDict]
  split_ifs with ht
  · rw [← ht]
  · exact h t ht

/-! ## A server -/

/-- The values that a server may store: for a hashed key those that it has had. -/
structure Stored (m : Triple → Option Chars256) (requests : List CacheCall) (t : Triple)
    (o : Option Chars256) : Prop where
  hashed : t = tripleOf t.key →
    ∃ done, done <+: requests ∧ o = (specCalls dictCall (serverDict m) done).2 t.key
  other : t ≠ tripleOf t.key → o = m t

theorem stored_self (m : Triple → Option Chars256) (requests : List CacheCall) (t : Triple) :
    Stored m requests t (m t) where
  hashed ht := ⟨[], List.nil_prefix, congrArg m ht⟩
  other _ := rfl

theorem allows_stored {requests done : List CacheCall} (h : done <+: requests) :
    Allows (Stored m requests) (specCalls dictCall (serverDict m) done).2 := fun _ =>
  ⟨fun _ => ⟨done, h, rfl⟩, fun hne => absurd rfl hne⟩

/-- What is left of a server in the files. -/
theorem left_behind {s : KVState} {L : Layout} {held : List NodePtr} {requests : List CacheCall}
    (hrep : Represents s L held d) (hstore : StoresOnly (Stored m requests) s.store) :
    ∃ d', StoreRep (KVStore.initKvstore s.store.files) (withDict m d') ∧
      (∀ k, ∃ done, done <+: requests ∧
        d' k = (specCalls dictCall (serverDict m) done).2 k) ∧
      ∀ k, (∀ p ∈ L.linked, (s.cache.message p).key ≠ k) → d' k = d k := by
  obtain ⟨m', hm', hstored⟩ := hstore
  obtain ⟨m'', hm'', hd⟩ := hrep.stored
  obtain rfl := hm'.unique hm''
  have hdict := eq_withDict fun t ht => (hstored t).other ht
  refine ⟨serverDict m', ?_, fun k => (hstored (tripleOf k)).hashed rfl, ?_⟩
  · rw [← hdict]
    exact hm'.restart
  · intro k hk
    exact (hd k hk).symm

/-- **A server** answers as its dictionary does, and leaves in the files what its end allows. -/
theorem server_spec (hsize : 1 ≤ cacheSize) (hm : StoreRep (KVStore.initKvstore files) m)
    (requests : List CacheCall) (stop : ServerStop) :
    SucceedsUnlessFull (runServer cacheSize requests stop files) fun r => ∃ m',
      Process.Spec m (.server cacheSize requests stop) (.answers r.1) m' ∧
        StoreRep (KVStore.initKvstore r.2) m' := by
  obtain ⟨s, hs, hstore, hrep, hn⟩ := KVState.start_spec hsize hm
  have hholds : KVState.Holds cacheSize s (serverDict m) := ⟨_, hrep, hn⟩
  have hstores : StoresOnly (Stored m requests) s.store :=
    ⟨m, by rwa [hstore], stored_self m requests⟩
  have hcalls := KVState.calls_spec hholds hsize requests
  have hkept := KVState.calls_storesOnly hholds hsize hstores requests fun _ => allows_stored
  rw [runServer, hs]
  refine ((hcalls.ensures.and hkept).excused hcalls).bind fun r hr => ?_
  obtain ⟨answers, s₁⟩ := r
  obtain ⟨⟨hanswers, L, hrep₁, hn₁⟩, hstores₁⟩ := hr
  obtain rfl : answers = _ := hanswers
  have hcount := hrep₁.wf.count
  have hall := allows_stored (m := m) (List.prefix_refl requests)
  cases stop with
  -- no node is left, so every key has its last value in the files
  | interrupted =>
    obtain ⟨x, hx, hclean⟩ := KVState.cacheClean_spec hrep₁
    have hfuel := hx (cacheSize + 1) (by omega)
    have hleft : Ensures x fun s' => StoresOnly (Stored m requests) s'.store := fun s' hs' =>
      ((KVState.cacheCleanRounds_spec hrep₁ hall hstores₁ _).of_ok
        (KVState.cacheCleanRounds_of_cacheClean (hfuel.trans hs'))).2
    show SucceedsUnlessFull ((s₁.cacheClean (cacheSize + 1)).bind _) _
    rw [hfuel]
    refine ((hclean.ensures.and hleft).excused hclean).bind fun s' hs' => Excused.ok ?_
    obtain ⟨⟨L', held', hrep', hnil⟩, hstores'⟩ := hs'
    obtain ⟨d', hd', -, hlast⟩ := left_behind hrep' hstores'
    obtain rfl : d' = _ := funext fun k => hlast k fun p hp => by
      rw [hnil] at hp
      cases hp
    exact ⟨_, ⟨rfl, rfl⟩, hd'⟩
  -- the keys of the nodes that are left may have older values there
  | killed rounds =>
    show SucceedsUnlessFull ((s₁.cacheCleanRounds rounds).bind _) _
    refine (KVState.cacheCleanRounds_spec hrep₁ hall hstores₁ rounds).bind fun s' hs' =>
      Excused.ok ?_
    obtain ⟨⟨L', held', hrep', hlen⟩, hstores'⟩ := hs'
    obtain ⟨d', hd', hpast, hlast⟩ := left_behind hrep' hstores'
    refine ⟨_, ⟨rfl, d', ⟨hpast, L'.linked.map fun p => (s'.cache.message p).key, ?_, ?_⟩, rfl⟩,
      hd'⟩
    · rw [List.length_map]
      omega
    · exact fun k hk => hlast k fun p hp hkey => hk (List.mem_map.2 ⟨p, hp, hkey⟩)

/-! ## Any processes -/

theorem Process.run_spec (v : DumpVars) (hm : StoreRep (KVStore.initKvstore files) m)
    {p : Process} (hp : p.Valid) :
    SucceedsUnlessFull (p.run v files) fun r =>
      ∃ m', p.Spec m r.1 m' ∧ StoreRep (KVStore.initKvstore r.2) m' := by
  cases p with
  | server cacheSize requests stop =>
    exact (server_spec hp hm requests stop).bind fun r hr => Excused.ok hr
  | tool args =>
    obtain ⟨command, hparse, hvalid⟩ := hp
    refine (testingDatabase_spec hm v hparse hvalid).bind fun r hr => Excused.ok ?_
    obtain ⟨m', hspec, hm'⟩ := hr
    exact ⟨m', ⟨command, r.1, hparse, rfl, hspec⟩, hm'⟩

/-- **The processes share one map.** From any directory of well-formed files, servers that are
interrupted between two requests or killed outside of the calls of the store, and runs of the tool,
in any order, do to the map that the files hold at first what each of them is to do, and the files
hold the map that results. -/
theorem processes_share_map (hfiles : WellFormedFiles files) :
    ∃ m, (∀ ptr, (KVStore.initKvstore files).readFromDb ptr = .ok (readAnswer m ptr)) ∧
      ∀ (v : DumpVars) (ps : List Process), (∀ p ∈ ps, p.Valid) →
        SucceedsUnlessFull (calls (Process.run v) files ps) fun r =>
          ∃ m', SpecRun Process.Spec m ps r.1 m' ∧
            ∀ ptr, (KVStore.initKvstore r.2).readFromDb ptr = .ok (readAnswer m' ptr) := by
  obtain ⟨m, hm⟩ := hfiles.exists_rep
  refine ⟨m, KVStore.readFromDb_eq hm, ?_⟩
  intro v ps hps
  have hcall : ∀ files m p, StoreRep (KVStore.initKvstore files) m → Process.Valid p →
      SucceedsUnlessFull (p.run v files) fun r =>
        ∃ m', p.Spec m r.1 m' ∧ StoreRep (KVStore.initKvstore r.2) m' := fun _ _ _ h hp =>
    Process.run_spec v h hp
  refine (simulation_rel (fun files m => StoreRep (KVStore.initKvstore files) m) hcall hps
    hm).mono fun r hr => ?_
  obtain ⟨m', hrun, hm'⟩ := hr
  exact ⟨m', hrun, KVStore.readFromDb_eq hm'⟩

/-- A server whose cache is too small for its keys and that is killed, the tool writing a key, and a
server that is interrupted. -/
def threeProcesses : List Process :=
  [.server 1 KVState.evictingCalls (.killed 0), .tool [[46], [119], [107], [118]],
    .server 2 [.get pairAc2, .get (entry 107 0), .delete pairAc2] .interrupted]

theorem processes_share_map_three : ∃ m,
    (∀ ptr, (KVStore.initKvstore fun _ => none).readFromDb ptr = .ok (readAnswer m ptr)) ∧
      SucceedsUnlessFull (calls (Process.run ⟨0, 0, 0, 0, emptyString, emptyString⟩) (fun _ => none)
          threeProcesses) fun r =>
        ∃ m', SpecRun Process.Spec m threeProcesses r.1 m' ∧
          ∀ ptr, (KVStore.initKvstore r.2).readFromDb ptr = .ok (readAnswer m' ptr) := by
  obtain ⟨m, hm, hps⟩ := processes_share_map wellFormedFiles_none
  refine ⟨m, hm, hps _ _ fun p hp => ?_⟩
  simp only [threeProcesses, List.mem_cons, List.not_mem_nil, or_false] at hp
  rcases hp with rfl | rfl | rfl
  · exact Nat.le_refl 1
  · exact ⟨_, rfl, trivial⟩
  · exact Nat.le_succ 1

/-! ## Restarts -/

/-- A server with the given cache size and requests, until it is interrupted. -/
def interruptedServer (files : Directory) (p : Nat × List CacheCall) :
    Except Fault (List CacheAnswer × Directory) := runServer p.1 p.2 .interrupted files

/-- What it does on the dictionary. -/
def InterruptedSpec (d : Dict) (p : Nat × List CacheCall) (answers : List CacheAnswer) (d' : Dict) :
    Prop := (answers, d') = specCalls dictCall d p.2

/-- **Restarts are invisible.** Servers with caches of any sizes, each interrupted before the next
is started, answer as one server does that runs on, whatever the size of its cache. -/
theorem restarts_are_invisible (hfiles : WellFormedFiles files)
    (servers : List (Nat × List CacheCall)) (hsizes : ∀ p ∈ servers, 1 ≤ p.1) :
    ∃ answers,
      SucceedsUnlessFull (calls interruptedServer files servers) (fun r => r.1.flatten = answers) ∧
      ∀ cacheSize ≥ 1, ∃ s, KVState.start cacheSize files = .ok s ∧
        SucceedsUnlessFull (calls KVState.call s (servers.flatMap Prod.snd)) fun r =>
          r.1 = answers := by
  obtain ⟨m, hm⟩ := hfiles.exists_rep
  refine ⟨(specCalls dictCall (serverDict m) (servers.flatMap Prod.snd)).1, ?_, ?_⟩
  · have hstart : StoreRep (KVStore.initKvstore files) (withDict m (serverDict m)) := by
      rwa [← eq_withDict fun _ _ => rfl]
    have hcall : ∀ files d (p : Nat × List CacheCall),
        StoreRep (KVStore.initKvstore files) (withDict m d) → 1 ≤ p.1 →
        SucceedsUnlessFull (interruptedServer files p) fun r =>
          ∃ d', InterruptedSpec d p r.1 d' ∧
            StoreRep (KVStore.initKvstore r.2) (withDict m d') := by
      intro files d p hd hsize
      refine (server_spec hsize hd p.2 .interrupted).mono fun r hr => ?_
      obtain ⟨m', ⟨hanswers, rfl⟩, hm'⟩ := hr
      rw [serverDict_withDict] at hanswers hm'
      rw [withDict_withDict] at hm'
      exact ⟨_, Prod.ext (ProcessOutput.answers.inj hanswers) rfl, hm'⟩
    refine (simulation_rel (fun files d => StoreRep (KVStore.initKvstore files) (withDict m d))
      hcall hsizes hstart).mono fun r hr => ?_
    obtain ⟨d, hrun, -⟩ := hr
    have hanswers : (r.1, d) =
        specCalls (fun d (p : Nat × List CacheCall) => specCalls dictCall d p.2) (serverDict m)
          servers := hrun.eq_specCalls
    rw [← specCalls_flatMap, ← hanswers]
  · intro cacheSize hsize
    obtain ⟨s, hs, -, hrep, hn⟩ := KVState.start_spec hsize hm
    exact ⟨s, hs, (KVState.calls_spec ⟨_, hrep, hn⟩ hsize _).mono fun r hr => hr.1⟩

/-- A server with a cache of one entry, one with a larger cache that deletes a key, and one that
reads what they have left. -/
def threeServers : List (Nat × List CacheCall) :=
  [(1, KVState.evictingCalls), (2, [.get pairAc2, .delete pairD1, .put (entry 97 1)]),
    (1, [.get pairD1, .get (entry 97 0), .get pairAc2])]

theorem restarts_are_invisible_two : ∃ answers,
    SucceedsUnlessFull (calls interruptedServer (fun _ => none) threeServers)
        (fun r => r.1.flatten = answers) ∧
      ∀ cacheSize ≥ 1, ∃ s, KVState.start cacheSize (fun _ => none) = .ok s ∧
        SucceedsUnlessFull (calls KVState.call s (threeServers.flatMap Prod.snd)) fun r =>
          r.1 = answers :=
  restarts_are_invisible wellFormedFiles_none threeServers (by decide)

end KeyValueStore
