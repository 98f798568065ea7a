import KeyValueStore.ThreadRuns
import KeyValueStore.ThreadSequential

/-!
# Threads that take turns

Every run in which a request is undone has a step of one thread while another is in the middle of an
operation. Without such steps, a thread that has missed its key in the search finds no node for it
when it links its own in, the value that it has loaded is still the one in the store, and the tail
that it evicts is the one whose bucket it has computed. So every step is undisturbed
(`Alone.undisturbed`), and what is proved of such steps holds of all runs in which the operations
exclude each other.

Nor does a step fail in such a run: the thread is on the way to what the function comes to that it
executes (`Sequential.of_runThread`).
-/

namespace KeyValueStore

open Run Linearizability

/-- The task of a thread that is about to enter its key into the cache. -/
def Pc.entering : Pc → Option Task
  | .newEntry task | .acquire task | .evictStart task | .evictTest task _ _ | .evictHash task _
  | .evictLock task _ _ | .fill task _ | .link task _ _ => some task
  | .idle | .search _ | .upgrade _ _ | .deleteDb _ => none

/-- No node has its key, and the value that `cache_GET` has loaded is the dictionary's. -/
def Task.Missing (task : Task) (c : KVCache) (L : Layout) (d : Dict) : Prop :=
  (∀ p ∈ L.linked, (c.message p).triple ≠ task.ptr.triple) ∧
    (task.op = .get → d task.ptr.key = some task.ptr.value)

namespace SharedCache

variable {σ σ' : SharedCache} {t : Nat} {task : Task} {L : Layout} {held : List NodePtr} {d : Dict}

/-- A thread takes its step while no other is in the middle of an operation. -/
def InTurn (σ : SharedCache) (t : Nat) : Prop := ∀ t' ≠ t, (σ.pc t').begun = false

/-- A thread that is not in the middle of an operation evicts nothing, holds no node and enters no
key. -/
theorem away_of_begun {pc : Pc} (h : pc.begun = false) :
    pc.window = none ∧ pc.target = none ∧ pc.entering = none := by
  cases pc with
  | idle => exact ⟨rfl, rfl, rfl⟩
  | search task => exact ⟨rfl, rfl, rfl⟩
  | _ => cases h

/-! ## Entering a key -/

/-- A thread that enters a key after the step has linked nothing in by it, and did so before it or
has just missed the key. -/
def Enters (σ : SharedCache) (t : Nat) (L : Layout) (d : Dict) (σ' : SharedCache) : Prop :=
  ∀ task, (σ'.pc t).entering = some task → (σ.access t).linked = none ∧
    ((σ.pc t).entering = some task ∨ task.Missing σ.state.cache L d)

theorem enters_goto {pc : Pc} {s : KVState} (hpc : pc.entering = (σ.pc t).entering)
    (hlinked : (σ.access t).linked = none) : Enters σ t L d (σ.goto t pc s) := by
  intro task htask
  rw [goto_pc, Function.update_self, hpc] at htask
  exact ⟨hlinked, Or.inl htask⟩

theorem enters_missing {pc : Pc} {s : KVState}
    (hpc : ∀ task, pc.entering = some task → task.Missing σ.state.cache L d)
    (hlinked : (σ.access t).linked = none) : Enters σ t L d (σ.goto t pc s) := by
  intro task htask
  rw [goto_pc, Function.update_self] at htask
  exact ⟨hlinked, Or.inr (hpc task htask)⟩

theorem enters_finish {ret : CacheAnswer} {s : KVState} :
    Enters σ t L d (σ.finish t task ret s) := by
  intro task htask
  rw [finish_pc, Function.update_self] at htask
  cases htask

/-- **The search** lets a thread enter a key that it has missed. -/
theorem runSearch_enters (hrep : Represents σ.state L held d) (hhashed : task.Hashed)
    (hlinked : (σ.access t).linked = none) : Ensures (σ.runSearch t task) (Enters σ t L d) := by
  rw [runSearch]
  cases hop : task.op with
  | get =>
    obtain ⟨r, s', L', hget, -, -, -, -, hr⟩ := KVState.getSearch_spec hrep task.ptr hhashed
    dsimp only
    rw [hget, ok_bind]
    cases r with
    | done res ptr' => exact Ensures.ok enters_finish
    | load ptr' =>
      refine Ensures.ok (enters_missing (fun task' htask' => ?_) hlinked)
      obtain rfl := Option.some.inj htask'
      obtain ⟨hd, -, hkey⟩ := hr
      obtain ⟨v, hv, rfl⟩ := dictGet_eq_true.1 hd.symm
      exact ⟨fun p hp htriple => hkey p hp (congrArg Triple.key htriple), fun _ => hv⟩
  | put =>
    obtain ⟨found, hf⟩ := hrep.wf.findEntry_ok task.ptr
    dsimp only
    rw [hf, ok_bind]
    cases found with
    | some p => exact Ensures.ok (enters_missing (fun task' htask' => by cases htask') hlinked)
    | none =>
      refine Ensures.ok (enters_missing (fun task' htask' => ?_) hlinked)
      obtain rfl := Option.some.inj htask'
      exact ⟨hrep.wf.findEntry_none hf, fun hget => by rw [hop] at hget; cases hget⟩
  | delete =>
    refine ensures_true.bind fun r _ => ?_
    obtain ⟨res, s⟩ := r
    cases res with
    | done res => exact Ensures.ok enters_finish
    | upgrade p => exact Ensures.ok (enters_missing (fun task' htask' => by cases htask') hlinked)

theorem runUpgrade_enters {p : NodePtr} (hlinked : (σ.access t).linked = none) :
    Ensures (σ.runUpgrade t task p) (Enters σ t L d) := by
  rw [runUpgrade]
  split
  · refine ensures_true.bind fun r _ => ?_
    obtain ⟨res, s⟩ := r
    cases res with
    | some res => exact Ensures.ok enters_finish
    | none => exact Ensures.ok (enters_missing (fun task' htask' => by cases htask') hlinked)
  · exact ensures_true.bind fun s _ => Ensures.ok enters_finish

/-- **No other step** lets a thread begin to enter a key. -/
theorem runThread_enters (h : Inv σ L held) (hrep : Represents σ.state L held d) :
    Ensures (σ.runThread t) (Enters σ t L d) := by
  have hok := h.threads.ok t
  -- the only step that links a node is at `link`
  have hlinked : (∀ task q p, σ.pc t ≠ .link task q p) → (σ.access t).linked = none := by
    intro hpc
    rw [access]
    split
    · next hlink => exact absurd hlink (hpc _ _ _)
    · rfl
  rw [runThread]
  cases hpc : σ.pc t with
  | idle =>
    refine Ensures.ok fun task htask => ?_
    rw [hpc] at htask
    cases htask
  | search task =>
    rw [hpc] at hok
    exact runSearch_enters hrep hok (hlinked (by simp [hpc]))
  | newEntry task =>
    refine Ensures.ok (enters_goto ?_ (hlinked (by simp [hpc])))
    rw [hpc]
    split_ifs <;> rfl
  | acquire task =>
    refine ensures_true.bind fun r _ => ?_
    obtain ⟨p, c⟩ := r
    cases p with
    | some p => exact Ensures.ok (enters_goto (by rw [hpc]; rfl) (hlinked (by simp [hpc])))
    | none => exact Ensures.error
  | evictStart task => exact Ensures.ok (enters_goto (by rw [hpc]; rfl) (hlinked (by simp [hpc])))
  | evictTest task e i =>
    dsimp only
    rw [runEvictTest]
    split_ifs
    · exact Ensures.ok (enters_goto (by rw [hpc]; rfl) (hlinked (by simp [hpc])))
    · exact Ensures.error
    · exact Ensures.ok (enters_goto (by rw [hpc]; rfl) (hlinked (by simp [hpc])))
  | evictHash task e =>
    exact ensures_true.bind fun i _ =>
      Ensures.ok (enters_goto (by rw [hpc]; rfl) (hlinked (by simp [hpc])))
  | evictLock task e i =>
    refine ensures_true.bind fun r _ => ?_
    obtain ⟨p, s⟩ := r
    cases p with
    | some p => exact Ensures.ok (enters_goto (by rw [hpc]; rfl) (hlinked (by simp [hpc])))
    | none => exact Ensures.ok (enters_goto (by rw [hpc]; rfl) (hlinked (by simp [hpc])))
  | fill task p => exact Ensures.ok (enters_goto (by rw [hpc]; rfl) (hlinked (by simp [hpc])))
  | link task q p => exact Ensures.ok enters_finish
  | upgrade task p => exact runUpgrade_enters (hlinked (by simp [hpc]))
  | deleteDb task => exact ensures_true.bind fun r _ => Ensures.ok enters_finish

/-! ## The invariant -/

/-- What holds of the threads as long as each takes its steps in turn. -/
structure Alone (σ : SharedCache) (L : Layout) (held : List NodePtr) (d : Dict) : Prop where
  inv : Inv σ L held
  rep : Represents σ.state L held d
  window : ∀ t, σ.WindowOk t
  entering : ∀ t task, (σ.pc t).entering = some task → task.Missing σ.state.cache L d
  serves : ∀ t, ∃ o, (σ.pc t).Serves o

namespace Alone

theorem start {s : KVState} (h : Inv (start s) L held) (hrep : Represents s L held d) :
    Alone (start s) L held d where
  inv := h
  rep := hrep
  window _ := windowOk_of_none rfl
  entering t task htask := by cases htask
  serves _ := ⟨none, rfl⟩

/-- **A thread that is alone undoes nothing.** -/
theorem undisturbed (h : Alone σ L held d) (hturn : σ.InTurn t) : σ.Undisturbed (.run t) := by
  refine ⟨⟨(h.window t).victimInBucket, ?_⟩, ?_, ?_⟩
  · intro v hv t' ht' htarget
    rw [(away_of_begun (hturn t' ht')).2.1] at htarget
    cases htarget
  · intro task q p hpc
    obtain ⟨hmissing, -⟩ := h.entering t task (by rw [hpc]; rfl)
    obtain ⟨found, hf⟩ := h.inv.wf.findEntry_ok task.ptr
    cases found with
    | none => exact hf
    | some p' =>
      obtain ⟨hp', htriple⟩ := h.inv.wf.findEntry_some hf
      exact absurd htriple (hmissing p' hp')
  · intro task q p hpc hop
    obtain ⟨hmissing, hvalue⟩ := h.entering t task (by rw [hpc]; rfl)
    have hok := h.inv.threads.ok t
    rw [hpc] at hok
    obtain ⟨found, hf⟩ := h.inv.wf.findEntry_ok task.ptr
    cases found with
    | none =>
      rw [h.rep.readFromDb_eq task.ptr hok.1.1 hf, dictGet, hvalue hop]
    | some p' =>
      obtain ⟨hp', htriple⟩ := h.inv.wf.findEntry_some hf
      exact absurd htriple (hmissing p' hp')

theorem of_invoke (h : Alone σ L held d) (t : Nat) (op : Op) (ptr : KVMessage) :
    Alone (σ.invoke t op ptr) L held d := by
  refine ⟨h.inv.of_invoke t op ptr, by rw [state_invoke]; exact h.rep,
    fun t' => windowOk_invoke (h.window t') t op ptr, fun t' task htask => ?_, fun t' => ?_⟩
  · rw [state_invoke]
    apply h.entering t' task
    rw [invoke] at htask
    split at htask
    · by_cases ht : t' = t
      · dsimp only at htask
        rw [ht, Function.update_self] at htask
        cases htask
      · dsimp only at htask
        rwa [Function.update_of_ne ht] at htask
    · exact htask
  · rw [invoke]
    split
    · by_cases ht : t' = t
      · rw [ht]
        dsimp only
        rw [Function.update_self]
        exact ⟨_, ptr, rfl, rfl⟩
      · dsimp only
        rw [Function.update_of_ne ht]
        exact h.serves t'
    · exact h.serves t'

/-- **A step of a thread** in its turn. -/
theorem of_runThread (h : Alone σ L held d) (hturn : σ.InTurn t)
    (hstep : σ.runThread t = .ok σ') :
    (∃ L' held' d', Alone σ' L' held' d') ∧ ∀ t' ≠ t, σ'.pc t' = σ.pc t' := by
  obtain ⟨hsafe, hfresh, hload⟩ := h.undisturbed hturn
  obtain ⟨L', held', hf, hinv'⟩ := h.inv.of_runThread hsafe.1 hsafe.2 hstep
  obtain ⟨o, ho⟩ := h.serves t
  have hself : σ'.WindowOk t := h.inv.windowOk_self (h.window t) σ' hstep
  have henters := runThread_enters h.inv h.rep σ' hstep
  -- where the threads are after the step
  have hpcs : ∀ (pc' : Pc), σ'.pc = Function.update σ.pc t pc' → (∃ o, pc'.Serves o) →
      (∀ t', σ'.WindowOk t') ∧ (∀ t', ∃ o, (σ'.pc t').Serves o) ∧
        ∀ t' task, (σ'.pc t').entering = some task → t' = t := by
    intro pc' hpc' hserves
    have hothers : ∀ t' ≠ t, σ'.pc t' = σ.pc t' := by
      intro t' ht'
      rw [hpc', Function.update_of_ne ht']
    refine ⟨?_, ?_, ?_⟩
    · intro t'
      by_cases ht : t' = t
      · exact ht ▸ hself
      · exact windowOk_of_none (by rw [hothers t' ht]; exact (away_of_begun (hturn t' ht)).1)
    · intro t'
      by_cases ht : t' = t
      · rw [ht, hpc', Function.update_self]
        exact hserves
      · rw [hothers t' ht]
        exact h.serves t'
    · intro t' task htask
      by_contra ht
      rw [hothers t' ht, (away_of_begun (hturn t' ht)).2.2] at htask
      cases htask
  rcases runThread_effect h.rep (h.inv.threads.ok t) hsafe.1 hfresh hload ho σ' hstep with
    ⟨pc', s, rfl, ⟨_, _, hrep'⟩, hserves⟩ | ⟨task, s, c, rfl, ⟨_, _, hrep'⟩, -⟩
  · obtain ⟨hwindow, hserves', hentering⟩ := hpcs pc' rfl ⟨o, hserves⟩
    refine ⟨⟨L', held', d, hinv', hrep'.relayout hinv'.wf, hwindow, fun t' task htask => ?_,
      hserves'⟩, fun t' ht' => Function.update_of_ne ht' ..⟩
    obtain rfl := hentering t' task htask
    obtain ⟨hlinked, hcases⟩ := henters task htask
    have hmissing := hcases.elim (h.entering t' task) id
    refine ⟨fun p hp => ?_, hmissing.2⟩
    obtain ⟨-, horigin | horigin⟩ := hf.origin p hp
    · rw [hf.triple p hp]
      exact hmissing.1 p horigin
    · rw [hlinked] at horigin
      cases horigin
  · obtain ⟨hwindow, hserves', hentering⟩ := hpcs .idle rfl ⟨none, rfl⟩
    refine ⟨⟨L', held', _, hinv', hrep'.relayout hinv'.wf, hwindow, fun t' task' htask => ?_,
      hserves'⟩, fun t' ht' => Function.update_of_ne ht' ..⟩
    obtain rfl := hentering t' task' htask
    rw [finish_pc, Function.update_self] at htask
    cases htask

end Alone

/-! ## One operation after the other -/

theorem goto_self : σ.goto t (σ.pc t) σ.state = σ := by rw [goto, Function.update_eq_self]

/-- Either no thread is in the middle of an operation, and the state is one that operations lead to.
Or one is, and it comes to such a state if nobody interrupts it. -/
inductive Sequential (n : Nat) (σ : SharedCache) : Prop
  | rest {d : Dict} (hrest : ∀ t, (σ.pc t).begun = false) (h : KVState.Holds n σ.state d)
  | within {t : Nat} {task : Task} {result : Except Fault (CacheAnswer × KVState)}
      (hbegun : (σ.pc t).begun = true) (hothers : σ.InTurn t)
      (hresult : SucceedsUnlessFull result fun r => ∃ d, KVState.Holds n r.2 d)
      (hfin : Finishes (σ.pc t) σ.state task result)

theorem calculateKeyHash_of_hashed {ptr : KVMessage} (h : ptr.triple = tripleOf ptr.key) :
    ptr.calculateKeyHash = ptr := by
  obtain ⟨hhash1, hhash2, -⟩ := Triple.mk.inj h
  rw [KVMessage.calculateKeyHash, ← hhash1, ← hhash2]

namespace Sequential

variable {n : Nat}

/-- The next step of a thread that is to come to this result. -/
theorem of_finishes {result : Except Fault (CacheAnswer × KVState)} (hturn : σ.InTurn t)
    (hpc : σ.pc t ≠ .idle) (hresult : SucceedsUnlessFull result fun r => ∃ d, KVState.Holds n r.2 d)
    (hfin : Finishes (σ.pc t) σ.state task result) :
    SucceedsUnlessFull (σ.runThread t) (Sequential n) := by
  -- a run without end is none of the possible results
  have hend : result ≠ .error .endless := by
    rcases hresult with hfull | ⟨r, hr, -⟩
    · rw [hfull]
      exact fun hsame => by cases hsame
    · rw [hr]
      exact fun hsame => by cases hsame
  rcases hfin.next hend hpc with ⟨e, he, hstep⟩ | ⟨pc', s', hbegun, hfin', hstep⟩ | ⟨r, hr, hstep⟩
  · have hrun := hstep σ t
    rw [goto_self] at hrun
    rw [hrun]
    rcases hresult with hfull | ⟨r, hr, -⟩
    · exact Or.inl (congrArg Except.error (Except.error.inj (he.symm.trans hfull)))
    · rw [hr] at he
      cases he
  · have hrun := hstep σ t
    rw [goto_self] at hrun
    rw [hrun]
    have hleft : Finishes ((σ.goto t pc' s').pc t) (σ.goto t pc' s').state task result := by
      rwa [goto_at]
    refine Excused.ok (within ?_ (fun t' ht' => ?_) hresult hleft)
    · rwa [goto_at]
    · rw [goto_pc, Function.update_of_ne ht']
      exact hturn t' ht'
  · have hrun := hstep σ t
    rw [goto_self] at hrun
    rw [hrun]
    obtain ⟨d, hd⟩ := hresult.of_ok hr
    refine Excused.ok (rest (fun t' => ?_) hd)
    rw [finish_pc]
    by_cases ht' : t' = t
    · rw [ht', Function.update_self]
      rfl
    · rw [Function.update_of_ne ht']
      exact hturn t' ht'

/-- **No step in its turn fails**, unless a file is full. -/
theorem of_runThread (h : Sequential n σ) (hpos : 0 < n)
    (hhashed : ∀ task, σ.pc t = .search task → task.Hashed) (hturn : σ.InTurn t) :
    SucceedsUnlessFull (σ.runThread t) (Sequential n) := by
  by_cases hidle : σ.pc t = .idle
  · rw [runThread, hidle]
    exact Excused.ok h
  cases h with
  | @rest d hrest h =>
    cases hpc : σ.pc t with
    | search task =>
      obtain ⟨id, op, ptr⟩ := task
      have hptr : ptr.calculateKeyHash = ptr := calculateKeyHash_of_hashed (hhashed _ hpc)
      have hfin : Finishes (σ.pc t) σ.state ⟨id, op, ptr⟩ (σ.state.call (op.call ptr)) := by
        rw [hpc]
        intro σ' t'
        have hleads := σ'.leads_search (t := t') (s := σ.state) id op ptr
        rwa [hptr] at hleads
      exact of_finishes hturn hidle
        ((KVState.call_spec h hpos (op.call ptr)).mono fun r hr => ⟨_, hr.2⟩) hfin
    | idle => exact absurd hpc hidle
    | _ =>
      have hbegun := hrest t
      rw [hpc] at hbegun
      cases hbegun
  | @within t₀ task result hbegun hothers hresult hfin =>
    by_cases ht : t₀ = t
    · rw [ht] at hfin
      exact of_finishes hturn hidle hresult hfin
    · rw [hturn t₀ ht] at hbegun
      cases hbegun

theorem of_invoke (h : Sequential n σ) (op : Op) (ptr : KVMessage) :
    Sequential n (σ.invoke t op ptr) := by
  cases hpc : σ.pc t with
  | idle =>
    have hbegun : ∀ t', ((σ.invoke t op ptr).pc t').begun = (σ.pc t').begun := by
      intro t'
      rw [invoke, hpc]
      dsimp only
      by_cases ht : t' = t
      · rw [ht, Function.update_self, hpc]
        rfl
      · rw [Function.update_of_ne ht]
    cases h with
    | rest hrest h => exact rest (fun t' => (hbegun t').trans (hrest t')) (by rwa [state_invoke])
    | @within t₀ task result hbegun₀ hothers hresult hfin =>
      have hne : t₀ ≠ t := by
        intro hsame
        rw [hsame, hpc] at hbegun₀
        cases hbegun₀
      have hsame : (σ.invoke t op ptr).pc t₀ = σ.pc t₀ := by
        rw [invoke, hpc]
        exact Function.update_of_ne hne ..
      have hleft : Finishes ((σ.invoke t op ptr).pc t₀) (σ.invoke t op ptr).state task result := by
        rwa [hsame, state_invoke]
      exact within ((hbegun t₀).trans hbegun₀) (fun t' ht' => (hbegun t').trans (hothers t' ht'))
        hresult hleft
  | _ =>
    rw [invoke, hpc]
    exact h

end Sequential

end SharedCache

end KeyValueStore
