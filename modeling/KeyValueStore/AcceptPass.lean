import Mathlib.Data.Nat.ModEq
import KeyValueStore.DispatcherRuns

/-!
# One pass of the accept loop

`ServerState.dispatch` says where an accepted client goes. Here the pass is modelled with every use
of `listIter`: dereferencing or advancing the end iterator fails, and the workers inspected are
recorded. From every valid position of `listIter`, the end included, the pass does what `dispatch`
says without failing, and inspects the workers in the order of the list, round its end, each at
most once (`acceptPass_spec`).
-/

namespace KeyValueStore

open WorkerThreadInfo

/-- Uses of the end iterator that are undefined. -/
inductive IterFault
  | dereferenceEnd
  | advanceEnd
deriving DecidableEq

/-! ## The order of the workers -/

/-- The first `k` of `n` places from `i` on, round the end. -/
def cyclic (n i k : Nat) : List Nat := (List.range k).map fun j => (i + j) % n

theorem cyclic_succ (n i k : Nat) : cyclic n i (k + 1) = i % n :: cyclic n (i % n + 1) k := by
  rw [cyclic, List.range_succ_eq_map, List.map_cons, List.map_map, Nat.add_zero, cyclic]
  congr 1
  refine List.map_congr_left fun j _ => ?_
  show (i + (j + 1)) % n = (i % n + 1 + j) % n
  rw [Nat.add_assoc, Nat.mod_add_mod, Nat.add_comm 1 j]

/-- Within one round no place comes twice. -/
theorem nodup_cyclic {n k : Nat} (i : Nat) (hk : k ≤ n) : (cyclic n i k).Nodup := by
  refine List.Nodup.map_on (fun a ha b hb hab => ?_) List.nodup_range
  rw [List.mem_range] at ha hb
  have hmod : a ≡ b [MOD n] := Nat.ModEq.add_left_cancel' i hab
  exact Nat.ModEq.eq_of_lt_of_lt hmod (by omega) (by omega)

namespace ServerState

/-! ## The pass -/

/-- `*listIter` -/
def deref (pool : List WorkerThreadInfo) (listIter : Nat) : Except IterFault WorkerThreadInfo :=
  match pool[listIter]? with
  | some w => .ok w
  | none => .error .dereferenceEnd

/-- `++listIter` -/
def advance (pool : List WorkerThreadInfo) (listIter : Nat) : Except IterFault Nat :=
  if listIter < pool.length then .ok (listIter + 1) else .error .advanceEnd

/-- What the loop over the workers leaves behind. -/
structure LoopResult where
  threadPool : List WorkerThreadInfo
  listIter : Nat
  rrSuccess : Bool
  /-- The workers whose count was read. -/
  inspected : List Nat

/-- The loop over the workers, with the number of turns left. The count of a worker is the one it
has when it is inspected. -/
def acceptLoop (config : ServerConfig) (fd : Nat) (pool : List WorkerThreadInfo) :
    Nat → Nat → List Nat → Except IterFault LoopResult
  | 0, listIter, inspected => .ok ⟨pool, listIter, false, inspected⟩
  | turns + 1, listIter, inspected => do
    let listIter := if listIter = pool.length then 0 else listIter
    let w ← deref pool listIter
    if w.hasRoom config then
      .ok ⟨pool.modify listIter (·.pushNew fd), listIter, true, inspected ++ [listIter]⟩
    else
      let next ← advance pool listIter
      acceptLoop config fd pool turns next (inspected ++ [listIter])

/-- What follows a successful `accept`, with the workers that were inspected. -/
def acceptPass (config : ServerConfig) (s : ServerState) (fd : Nat) :
    Except IterFault (ServerState × List Nat) := do
  let r ← acceptLoop config fd s.threadPool s.threadPool.length s.listIter []
  if r.rrSuccess then
    -- the log names the worker
    let _ ← deref r.threadPool r.listIter
    let next ← advance r.threadPool r.listIter
    .ok ({ s with threadPool := r.threadPool, listIter := next }, r.inspected)
  else
    let first := ((new (r.threadPool.length + 1)).pushNew fd).startThread
    .ok ({ s with
      threadPool := growRest (config.threadPoolGrowth - 1) (r.threadPool ++ [first])
      listIter := 0 }, r.inspected)

variable {config : ServerConfig} {pool : List WorkerThreadInfo} {fd : Nat}

/-- The loop stops where `offer` does, after the workers up to there, and uses no end iterator. -/
theorem acceptLoop_spec {turns listIter : Nat} (hiter : listIter ≤ pool.length)
    (hturns : turns ≤ pool.length) (before : List Nat) :
    ∃ r, acceptLoop config fd pool turns listIter before = .ok r ∧
      match offer config pool turns listIter with
      | some i => r.rrSuccess = true ∧ r.listIter = i ∧ i < pool.length ∧
          r.threadPool = pool.modify i (·.pushNew fd) ∧
          ∃ k < turns, i = (listIter + k) % pool.length ∧
            r.inspected = before ++ cyclic pool.length listIter (k + 1)
      | none => r.rrSuccess = false ∧ r.threadPool = pool ∧
          r.inspected = before ++ cyclic pool.length listIter turns := by
  induction turns generalizing listIter before with
  | zero => exact ⟨_, rfl, rfl, rfl, by rw [cyclic, List.range_zero, List.map_nil,
      List.append_nil]⟩
  | succ turns ih =>
    have hpos : 0 < pool.length := by omega
    have hlt : listIter % pool.length < pool.length := Nat.mod_lt _ hpos
    have hderef : deref pool (listIter % pool.length) = .ok pool[listIter % pool.length] := by
      rw [deref, List.getElem?_eq_getElem hlt]
    rw [acceptLoop, offer, wrapped_eq hiter, List.getElem?_eq_getElem hlt]
    dsimp only
    rw [hderef]
    cases hroom : pool[listIter % pool.length].hasRoom config with
    | true =>
      refine ⟨_, if_pos hroom, rfl, rfl, hlt, rfl, 0, by omega, rfl, ?_⟩
      rw [cyclic_succ, cyclic, List.range_zero, List.map_nil]
    | false =>
      -- the iterator points to a worker, so it may be advanced, perhaps to the end
      have hnext : advance pool (listIter % pool.length) = .ok (listIter % pool.length + 1) :=
        if_pos hlt
      obtain ⟨r, hr, hspec⟩ := @ih (listIter % pool.length + 1) (by omega) (by omega)
        (before ++ [listIter % pool.length])
      refine ⟨r, ?_, ?_⟩
      · rw [← hr]
        show (if pool[listIter % pool.length].hasRoom config = true then _ else _) = _
        rw [hroom, if_neg Bool.false_ne_true, hnext]
        rfl
      · rw [if_neg Bool.false_ne_true]
        cases hoffer : offer config pool turns (listIter % pool.length + 1) with
        | none =>
          rw [hoffer] at hspec
          obtain ⟨hfail, hpool, hins⟩ := hspec
          refine ⟨hfail, hpool, ?_⟩
          rw [hins, cyclic_succ, List.append_assoc, List.singleton_append]
        | some i =>
          rw [hoffer] at hspec
          obtain ⟨hsucc, hi, hilt, hpool, k, hk, hik, hins⟩ := hspec
          refine ⟨hsucc, hi, hilt, hpool, k + 1, by omega, ?_, ?_⟩
          · rw [hik, Nat.add_assoc, Nat.mod_add_mod, Nat.add_comm 1 k]
          · rw [hins, cyclic_succ pool.length listIter, List.append_assoc, List.singleton_append]

theorem acceptPass_of_some {s : ServerState} (hiter : s.listIter ≤ s.threadPool.length)
    (hoffer : offer config s.threadPool s.threadPool.length s.listIter = some i) :
    i < s.threadPool.length ∧
      ∃ k < s.threadPool.length, i = (s.listIter + k) % s.threadPool.length ∧
        acceptPass config s fd = .ok (dispatch config s fd,
          cyclic s.threadPool.length s.listIter (k + 1)) := by
  obtain ⟨r, hr, hspec⟩ := @acceptLoop_spec config s.threadPool fd s.threadPool.length s.listIter
    hiter (Nat.le_refl _) []
  rw [hoffer] at hspec
  obtain ⟨hsucc, hi, hilt, hpool, k, hk, hik, hins⟩ := hspec
  refine ⟨hilt, k, hk, hik, ?_⟩
  have hlen : r.threadPool.length = s.threadPool.length := by
    rw [hpool, List.length_modify]
  obtain ⟨v, hderef⟩ : ∃ v, deref r.threadPool r.listIter = .ok v := by
    rw [deref, hi, List.getElem?_eq_getElem (by omega)]
    exact ⟨_, rfl⟩
  have hadvance : advance r.threadPool r.listIter = .ok (i + 1) := by
    rw [advance, hi, if_pos (by omega)]
  rw [acceptPass, hr]
  show (if r.rrSuccess = true then _ else _) = _
  rw [if_pos hsucc, hderef, hadvance, dispatch, hoffer, hins, hpool]
  rfl

theorem acceptPass_of_none {s : ServerState} (hiter : s.listIter ≤ s.threadPool.length)
    (hoffer : offer config s.threadPool s.threadPool.length s.listIter = none) :
    acceptPass config s fd = .ok (dispatch config s fd,
      cyclic s.threadPool.length s.listIter s.threadPool.length) := by
  obtain ⟨r, hr, hspec⟩ := @acceptLoop_spec config s.threadPool fd s.threadPool.length s.listIter
    hiter (Nat.le_refl _) []
  rw [hoffer] at hspec
  obtain ⟨hfail, hpool, hins⟩ := hspec
  rw [acceptPass, hr]
  show (if r.rrSuccess = true then _ else _) = _
  rw [hfail, if_neg Bool.false_ne_true, dispatch, hoffer, hins, hpool]
  rfl

/-- **One pass of the accept loop.** From a valid position of `listIter`, or the end, the pass never
uses the end iterator, does what `dispatch` says and leaves `listIter` at a valid position or the
end. The workers inspected are the first `k` in the order of the list from `listIter` on, each one
once. Either the last of them has room, those before it have none, and it alone gets the client; or
all workers were inspected, none has room, and the client goes to the first of the new workers. -/
theorem acceptPass_spec (config : ServerConfig) (s : ServerState) (fd : Nat)
    (hiter : s.listIter ≤ s.threadPool.length) :
    ∃ s' k, acceptPass config s fd = .ok (s', cyclic s.threadPool.length s.listIter k) ∧
      s' = dispatch config s fd ∧ s'.listIter ≤ s'.threadPool.length ∧
      k ≤ s.threadPool.length ∧ (cyclic s.threadPool.length s.listIter k).Nodup ∧
      ((∃ i w, (cyclic s.threadPool.length s.listIter k).getLast? = some i ∧
          s.threadPool[i]? = some w ∧ w.clientFdsCount < config.clientsPerThread ∧
          (∀ j ∈ (cyclic s.threadPool.length s.listIter k).dropLast, ∀ v,
            s.threadPool[j]? = some v → ¬ v.clientFdsCount < config.clientsPerThread) ∧
          s'.threadPool = s.threadPool.modify i (·.pushNew fd)) ∨
        (k = s.threadPool.length ∧
          (∀ w ∈ s.threadPool, ¬ w.clientFdsCount < config.clientsPerThread) ∧
          ∃ rest, s'.threadPool = s.threadPool ++ s.firstGrown fd :: rest ∧
            ∀ w ∈ rest, w.clientFdsNew = [])) := by
  have hoffered := offer_spec config s.threadPool s.threadPool.length s.listIter hiter
    (Nat.le_refl _)
  cases hoffer : offer config s.threadPool s.threadPool.length s.listIter with
  | some i =>
    rw [hoffer] at hoffered
    obtain ⟨hilt, k, hk, hik, hpass⟩ := acceptPass_of_some hiter hoffer
    obtain ⟨k', hk', hik', ⟨w, hw, hroom⟩, hbefore⟩ := hoffered
    -- both lemmas speak of the same turn
    have hkk : k = k' := by
      have hmod : k ≡ k' [MOD s.threadPool.length] :=
        Nat.ModEq.add_left_cancel' s.listIter (hik.symm.trans hik')
      exact Nat.ModEq.eq_of_lt_of_lt hmod hk hk'
    subst hkk
    have hdispatch : dispatch config s fd =
        { s with threadPool := s.threadPool.modify i (·.pushNew fd), listIter := i + 1 } := by
      rw [dispatch, hoffer]
    have hlast : cyclic s.threadPool.length s.listIter (k + 1) =
        cyclic s.threadPool.length s.listIter k ++ [i] := by
      rw [cyclic, cyclic, List.range_succ, List.map_append, List.map_singleton, hik]
    refine ⟨dispatch config s fd, k + 1, hpass, rfl, ?_, hk, nodup_cyclic _ hk, Or.inl
      ⟨i, w, ?_, ?_, hasRoom_iff.1 hroom, ?_, ?_⟩⟩
    · rw [hdispatch]
      show i + 1 ≤ (s.threadPool.modify i _).length
      rw [List.length_modify]
      exact hilt
    · rw [hlast, List.getLast?_concat]
    · rw [hik]
      exact hw
    · intro j hj v hv hlt
      rw [hlast, List.dropLast_concat] at hj
      obtain ⟨m, hm, rfl⟩ := List.mem_map.1 hj
      have hfull := hbefore m (List.mem_range.1 hm) v hv
      rw [hasRoom_iff.2 hlt] at hfull
      cases hfull
    · rw [hdispatch]
  | none =>
    have hfull := offer_eq_none hiter hoffer
    obtain ⟨rest, hgrow, -, hnew⟩ :=
      growRest_eq (s.threadPool ++ [s.firstGrown fd]) (config.threadPoolGrowth - 1)
    have hdispatch : dispatch config s fd =
        { s with
          threadPool := growRest (config.threadPoolGrowth - 1) (s.threadPool ++ [s.firstGrown fd])
          listIter := 0 } := by
      rw [dispatch, hoffer]
      rfl
    refine ⟨dispatch config s fd, s.threadPool.length, acceptPass_of_none hiter hoffer, rfl, ?_,
      Nat.le_refl _, nodup_cyclic _ (Nat.le_refl _),
      Or.inr ⟨rfl, ?_, rest, ?_, ?_⟩⟩
    · rw [hdispatch]
      exact Nat.zero_le _
    · intro w hw hlt
      have hno := hfull w hw
      rw [hasRoom_iff.2 hlt] at hno
      cases hno
    · rw [hdispatch]
      show growRest _ _ = _
      rw [hgrow, List.append_assoc, List.singleton_append]
    · intro w hw
      obtain ⟨id, rfl⟩ := hnew w hw
      rfl

/-- From the end of a list whose first worker is full. -/
theorem acceptPass_spec_wraps : ∃ s' k,
    acceptPass ⟨2, 1, 1⟩ ⟨[{ new 1 with clientFdsCount := 1 }, new 2], 2, []⟩ 7 =
      .ok (s', cyclic 2 2 k) ∧ s'.listIter ≤ s'.threadPool.length := by
  obtain ⟨s', k, hpass, -, hiter, -⟩ := acceptPass_spec ⟨2, 1, 1⟩
    ⟨[{ new 1 with clientFdsCount := 1 }, new 2], 2, []⟩ 7 (by decide)
  exact ⟨s', k, hpass, hiter⟩

end ServerState

end KeyValueStore
