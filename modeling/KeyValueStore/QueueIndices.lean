import Mathlib.Algebra.BigOperators.Fin
import Mathlib.Algebra.Order.BigOperators.Group.Finset
import KeyValueStore.Cache

/-!
# Round robin over the LRU queues without a lock

`get_next_lru_queue_idx` and `get_next_eviction_queue_idx` are the same code on two counters. A call
increments the counter, takes its index from the value before, and then reduces the counter modulo
the number of queues by `compare_exchange_weak`, which other threads can make fail. Each atomic
access is one step here, and the steps of any number of threads interleave in any order.

* `queue_indices` — the calls are handed `0, 1, …, s - 1, 0, …` in the order of their increments,
  and a counter never exceeds `s - 1` plus the number of threads.
* `run_cacheIndices` — so they are handed what the cache model hands out, where increment and
  reduction are one step.
-/

namespace KeyValueStore

/-- The two counters. -/
inductive QueueCounter
  | lruTableInsertIdx
  | lruEvictionIdx
deriving DecidableEq

/-- Where a thread is in a call. -/
inductive CallState
  | idle
  /-- Incremented; `oldValue` is to be read. -/
  | incremented (k : QueueCounter) (id : Nat)
  /-- Before the next `compare_exchange_weak`. -/
  | exchanging (k : QueueCounter) (id oldValue newValue : Nat)

/-- The counter that a thread is to reduce. -/
def CallState.counter : CallState → Option QueueCounter
  | .idle => none
  | .incremented k _ => some k
  | .exchanging k _ _ _ => some k

/-- The counters and `T` threads. -/
structure QueueIndices (T : Nat) where
  counter : QueueCounter → Nat
  thread : Fin T → CallState
  /-- The indices in the order of the increments. -/
  handedOut : List (QueueCounter × Nat)

/-- One atomic access of a thread. -/
inductive AtomicStep (T : Nat)
  | increment (t : Fin T) (k : QueueCounter)
  | load (t : Fin T)
  | exchange (t : Fin T) (failsSpuriously : Bool)

def AtomicStep.thread {T : Nat} : AtomicStep T → Fin T
  | .increment t _ => t
  | .load t => t
  | .exchange t _ => t

namespace QueueIndices

open Run

variable {T : Nat} {s : Nat}

/-- No calls yet. -/
def start (T : Nat) : QueueIndices T := ⟨fun _ => 0, fun _ => .idle, []⟩

/-- One step, for `s` queues and a counter incremented by `inc`. -/
def step (inc : Nat → Nat) (s : Nat) (r : QueueIndices T) :
    AtomicStep T → Except Unit (QueueIndices T)
  | .increment t k =>
    match r.thread t with
    | .idle =>
      let index := r.counter k
      let id := index % s
      .ok {
        counter := Function.update r.counter k (inc index)
        thread := Function.update r.thread t (.incremented k id)
        handedOut := r.handedOut ++ [(k, id)] }
    | _ => .error ()
  | .load t =>
    match r.thread t with
    | .incremented k id =>
      let oldValue := r.counter k
      .ok { r with thread := Function.update r.thread t (.exchanging k id oldValue (oldValue % s)) }
    | _ => .error ()
  | .exchange t failsSpuriously =>
    match r.thread t with
    | .exchanging k id oldValue newValue =>
      if r.counter k = oldValue ∧ failsSpuriously = false then
        .ok { r with
          counter := Function.update r.counter k newValue
          thread := Function.update r.thread t .idle }
      else
        -- the failed exchange has read the counter again
        let oldValue := r.counter k
        .ok { r with
          thread := Function.update r.thread t (.exchanging k id oldValue (oldValue % s)) }
    | _ => .error ()

/-- A 64-bit increment. -/
def inc64 (index : Nat) : Nat := (index + 1) % 2 ^ 64

/-- The counter that a step increments. -/
def request : AtomicStep T → Option QueueCounter
  | .increment _ k => some k
  | _ => none

/-- The indices taken from counter `k`, in order. -/
def ids (r : QueueIndices T) (k : QueueCounter) : List Nat :=
  r.handedOut.filterMap fun x => if x.1 = k then some x.2 else none

/-! ## Threads between increment and reduction -/

/-- How many threads are to reduce counter `k`. -/
def pending (thread : Fin T → CallState) (k : QueueCounter) : Nat :=
  ∑ t, if (thread t).counter = some k then 1 else 0

theorem pending_update (thread : Fin T → CallState) (t : Fin T) (c : CallState)
    (k : QueueCounter) :
    pending (Function.update thread t c) k + (if (thread t).counter = some k then 1 else 0) =
      pending thread k + if c.counter = some k then 1 else 0 := by
  have hrest : (∑ x ∈ Finset.univ.erase t,
      if (Function.update thread t c x).counter = some k then 1 else 0) =
      ∑ x ∈ Finset.univ.erase t, if (thread x).counter = some k then 1 else 0 := by
    refine Finset.sum_congr rfl fun x hx => ?_
    rw [Function.update_of_ne (Finset.ne_of_mem_erase hx)]
  rw [pending, pending, ← Finset.add_sum_erase _ _ (Finset.mem_univ t),
    ← Finset.add_sum_erase _ _ (Finset.mem_univ t), hrest, Function.update_self]
  omega

theorem pending_le (thread : Fin T → CallState) (k : QueueCounter) : pending thread k ≤ T := by
  have hle : pending thread k ≤ ∑ _t : Fin T, 1 :=
    Finset.sum_le_sum fun t _ => by split_ifs <;> omega
  simpa using hle

section

variable {thread : Fin T → CallState} {t : Fin T} {k : QueueCounter}

theorem pending_incremented (hidle : thread t = .idle) (id : Nat) (k' : QueueCounter) :
    pending (Function.update thread t (.incremented k id)) k' =
      pending thread k' + if k = k' then 1 else 0 := by
  have hupdate := pending_update thread t (.incremented k id) k'
  simpa [hidle, CallState.counter] using hupdate

theorem pending_exchanging (hk : (thread t).counter = some k) (id o n : Nat) (k' : QueueCounter) :
    pending (Function.update thread t (.exchanging k id o n)) k' = pending thread k' := by
  have hupdate := pending_update thread t (.exchanging k id o n) k'
  rw [hk] at hupdate
  exact Nat.add_right_cancel hupdate

theorem pending_idle (hk : (thread t).counter = some k) (k' : QueueCounter) :
    pending (Function.update thread t .idle) k' + (if k = k' then 1 else 0) =
      pending thread k' := by
  have hupdate := pending_update thread t .idle k'
  rw [hk] at hupdate
  simpa [show CallState.idle.counter = none from rfl] using hupdate

theorem pending_lt (hidle : thread t = .idle) (k : QueueCounter) : pending thread k < T := by
  have hmore := @pending_incremented T thread t k hidle 0 k
  have hle := pending_le (Function.update thread t (.incremented k 0)) k
  rw [if_pos rfl] at hmore
  omega

end

/-! ## The invariant -/

/-- What every step preserves: modulo `s` a counter is the number of its increments, and it exceeds
`s - 1` only by increments that are not reduced yet. -/
structure Inv (s : Nat) (r : QueueIndices T) : Prop where
  ids : ∀ k, r.ids k = (List.range (r.ids k).length).map (· % s)
  counter : ∀ k, r.counter k % s = (r.ids k).length % s
  bound : ∀ k, r.counter k ≤ s - 1 + pending r.thread k
  reduced : ∀ t k id oldValue newValue,
    r.thread t = .exchanging k id oldValue newValue → newValue = oldValue % s

variable {r r' : QueueIndices T} {a : AtomicStep T}

/-- What a step can do: increment a counter, leave the counters as they are, or reduce one. -/
inductive Effect (inc : Nat → Nat) (s : Nat) (r : QueueIndices T) :
    AtomicStep T → QueueIndices T → Prop
  | incremented {t : Fin T} {k : QueueCounter} (hidle : r.thread t = .idle) :
    Effect inc s r (.increment t k) {
      counter := Function.update r.counter k (inc (r.counter k))
      thread := Function.update r.thread t (.incremented k (r.counter k % s))
      handedOut := r.handedOut ++ [(k, r.counter k % s)] }
  | read {a : AtomicStep T} {k : QueueCounter} {id : Nat}
    (ha : ∀ k', a ≠ .increment a.thread k') (hpending : (r.thread a.thread).counter = some k) :
    Effect inc s r a { r with
      thread := Function.update r.thread a.thread
        (.exchanging k id (r.counter k) (r.counter k % s)) }
  | reduced {t : Fin T} {k : QueueCounter} {id newValue : Nat}
    (hthread : r.thread t = .exchanging k id (r.counter k) newValue) :
    Effect inc s r (.exchange t false) { r with
      counter := Function.update r.counter k newValue
      thread := Function.update r.thread t .idle }

theorem effect_of_step {inc : Nat → Nat} (h : step inc s r a = .ok r') : Effect inc s r a r' := by
  cases a with
  | increment t k =>
    rw [step] at h
    split at h
    · rename_i hidle
      cases h
      exact .incremented hidle
    · cases h
  | load t =>
    rw [step] at h
    split at h
    · rename_i k id hthread
      cases h
      exact .read (a := .load t) nofun (by rw [AtomicStep.thread, hthread]; rfl)
    · cases h
  | exchange t failsSpuriously =>
    rw [step] at h
    split at h
    · rename_i k id oldValue newValue hthread
      split_ifs at h with hold
      · cases h
        obtain ⟨hold, rfl⟩ := hold
        rw [← hold] at hthread
        exact .reduced hthread
      · cases h
        exact .read (a := .exchange t failsSpuriously) nofun
          (by rw [AtomicStep.thread, hthread]; rfl)
    · cases h

theorem inv_start : Inv s (start T) where
  ids _ := rfl
  counter _ := rfl
  bound _ := Nat.zero_le _
  reduced _ _ _ _ _ h := by cases h

theorem ids_append (r : QueueIndices T) (k k' : QueueCounter) (id : Nat)
    (counter : QueueCounter → Nat) (thread : Fin T → CallState) :
    (⟨counter, thread, r.handedOut ++ [(k, id)]⟩ : QueueIndices T).ids k' =
      if k = k' then r.ids k' ++ [id] else r.ids k' := by
  rw [ids, ids, List.filterMap_append]
  by_cases hk : k = k' <;> simp [hk]

/-- The threads stay ready to exchange `oldValue % s`, if the thread that moves does. -/
theorem Inv.reduced_update (h : Inv s r) (t : Fin T) {c : CallState}
    (hc : ∀ k id oldValue newValue, c = .exchanging k id oldValue newValue →
      newValue = oldValue % s) : ∀ t' k id oldValue newValue,
    Function.update r.thread t c t' = .exchanging k id oldValue newValue →
      newValue = oldValue % s := by
  intro t' k id oldValue newValue ht
  by_cases htt : t' = t
  · rw [htt, Function.update_self] at ht
    exact hc k id oldValue newValue ht
  · rw [Function.update_of_ne htt] at ht
    exact h.reduced t' k id oldValue newValue ht

theorem Inv.incremented (h : Inv s r) {t : Fin T} (hidle : r.thread t = .idle)
    (k : QueueCounter) : Inv s {
      counter := Function.update r.counter k (r.counter k + 1)
      thread := Function.update r.thread t (.incremented k (r.counter k % s))
      handedOut := r.handedOut ++ [(k, r.counter k % s)] } := by
  refine ⟨fun k' => ?_, fun k' => ?_, fun k' => ?_, h.reduced_update t (by rintro _ _ _ _ ⟨⟩)⟩
  · rw [ids_append]
    split_ifs with hk
    · subst hk
      rw [List.length_append, List.length_singleton, List.range_succ, List.map_append,
        ← h.ids k, List.map_singleton, h.counter k]
    · exact h.ids k'
  · rw [ids_append]
    split_ifs with hk
    · subst hk
      show Function.update r.counter k (r.counter k + 1) k % s = _
      rw [Function.update_self, List.length_append, List.length_singleton, Nat.add_mod,
        h.counter k, ← Nat.add_mod]
    · show Function.update r.counter k (r.counter k + 1) k' % s = _
      rw [Function.update_of_ne (Ne.symm hk)]
      exact h.counter k'
  · have hbound := h.bound k'
    show Function.update r.counter k (r.counter k + 1) k' ≤
      s - 1 + pending (Function.update _ _ _) k'
    rw [pending_incremented hidle]
    by_cases hk : k = k'
    · rw [← hk, Function.update_self, if_pos rfl]
      rw [← hk] at hbound
      omega
    · rw [Function.update_of_ne (Ne.symm hk), if_neg hk]
      exact hbound

theorem Inv.read (h : Inv s r) {t : Fin T} {k : QueueCounter}
    (hpending : (r.thread t).counter = some k) (id : Nat) : Inv s { r with
      thread := Function.update r.thread t
        (.exchanging k id (r.counter k) (r.counter k % s)) } := by
  refine ⟨h.ids, h.counter, fun k' => ?_, h.reduced_update t (by rintro _ _ _ _ ⟨⟩; rfl)⟩
  show r.counter k' ≤ s - 1 + pending (Function.update _ _ _) k'
  rw [pending_exchanging hpending]
  exact h.bound k'

theorem Inv.exchanged (hs : 1 ≤ s) (h : Inv s r) {t : Fin T} {k : QueueCounter}
    {id newValue : Nat} (hthread : r.thread t = .exchanging k id (r.counter k) newValue) :
    Inv s { r with
      counter := Function.update r.counter k newValue
      thread := Function.update r.thread t .idle } := by
  have hnew := h.reduced t k id _ newValue hthread
  have hmod : newValue % s = r.counter k % s := by rw [hnew, Nat.mod_mod]
  refine ⟨h.ids, fun k' => ?_, fun k' => ?_, h.reduced_update t (by rintro _ _ _ _ ⟨⟩)⟩
  · show Function.update r.counter k newValue k' % s = _
    by_cases hk : k' = k
    · rw [hk, Function.update_self, hmod]
      exact h.counter k
    · rw [Function.update_of_ne hk]
      exact h.counter k'
  · have hpending := @pending_idle T r.thread t k (by rw [hthread]; rfl) k'
    have hbound := h.bound k'
    show Function.update r.counter k newValue k' ≤ s - 1 + pending (Function.update _ _ _) k'
    by_cases hk : k' = k
    · have hlt : newValue < s := hnew ▸ Nat.mod_lt _ hs
      rw [hk, Function.update_self]
      omega
    · rw [if_neg (Ne.symm hk)] at hpending
      rw [Function.update_of_ne hk]
      omega

/-- **One step.** -/
theorem Inv.of_effect (hs : 1 ≤ s) (h : Inv s r) (heffect : Effect (· + 1) s r a r') :
    Inv s r' := by
  cases heffect with
  | incremented hidle => exact h.incremented hidle _
  | read ha hpending => exact h.read hpending _
  | reduced hthread => exact h.exchanged hs hthread

theorem Inv.of_run (hs : 1 ≤ s) (h : Inv s r) {as : List (AtomicStep T)}
    (hrun : run (step (· + 1) s) r as = .ok r') : Inv s r' :=
  run_preserves (fun _ _ _ hr hstep => hr.of_effect hs (effect_of_step hstep)) h hrun

/-! ## 64-bit counters -/

/-- The 64-bit machine takes the steps of the unbounded one. -/
theorem run_inc64 (hs : 1 ≤ s) (hT : s - 1 + T < 2 ^ 64) (h : Inv s r)
    (as : List (AtomicStep T)) : run (step inc64 s) r as = run (step (· + 1) s) r as := by
  induction as generalizing r with
  | nil => rfl
  | cons a as ih =>
    have hstep : step inc64 s r a = step (· + 1) s r a := by
      cases a with
      | increment t k =>
        cases hthread : r.thread t with
        | idle =>
          have hlt := pending_lt hthread k
          have hbound := h.bound k
          rw [step, step, hthread]
          simp only [inc64, Nat.mod_eq_of_lt (show r.counter k + 1 < 2 ^ 64 by omega)]
        | incremented _ _ => rw [step, step, hthread]
        | exchanging _ _ _ _ => rw [step, step, hthread]
      | load t => rfl
      | exchange t failsSpuriously => rfl
    rw [run, run, hstep]
    cases hr : step (· + 1) s r a with
    | error e => rfl
    | ok r₁ => exact ih (h.of_effect hs (effect_of_step hr))

theorem Effect.length_ids {inc : Nat → Nat} (h : Effect inc s r a r') (k : QueueCounter) :
    (r'.ids k).length = (r.ids k).length + (request a).toList.count k := by
  cases h with
  | @incremented t k' hidle =>
    rw [ids_append, request, Option.toList_some, List.count_singleton]
    by_cases hk : k' = k
    · simp [hk]
    · simp [hk]
  | @read a k' id ha hpending =>
    cases a with
    | increment t k' => exact absurd rfl (ha k')
    | _ => rfl
  | reduced hthread => rfl

/-- A run hands out as many indices of a counter as it has increments of it. -/
theorem length_ids_of_run {inc : Nat → Nat} {as : List (AtomicStep T)}
    (hrun : run (step inc s) r as = .ok r') (k : QueueCounter) :
    (r'.ids k).length = (r.ids k).length + (as.filterMap request).count k := by
  induction as generalizing r with
  | nil =>
    obtain rfl := Except.ok.inj hrun
    rfl
  | cons a as ih =>
    obtain ⟨r₁, hstep, hrest⟩ := run_cons_eq_ok hrun
    have hfirst := (effect_of_step hstep).length_ids k
    cases hreq : request a with
    | none =>
      rw [hreq] at hfirst
      rw [List.filterMap_cons_none hreq, ih hrest, hfirst]
      rfl
    | some k' =>
      rw [hreq, Option.toList_some] at hfirst
      rw [List.filterMap_cons_some hreq, List.count_cons, ih hrest, hfirst, List.count_singleton]
      omega

/-- **The indices handed out.** For any number of queues and threads, after any interleaving of
steps: each increment of a counter has yielded an index, the `i`-th one `i % s`, and the counter
does not exceed `s - 1 + T`. So a 64-bit counter that can hold that value never overflows. -/
theorem queue_indices (hs : 1 ≤ s) (as : List (AtomicStep T)) :
    (∀ r, run (step (· + 1) s) (start T) as = .ok r → ∀ k,
      (r.ids k).length = (as.filterMap request).count k ∧
        (∀ i (hi : i < (r.ids k).length), (r.ids k)[i] = i % s) ∧ r.counter k ≤ s - 1 + T) ∧
    (s - 1 + T < 2 ^ 64 →
      run (step inc64 s) (start T) as = run (step (· + 1) s) (start T) as) := by
  refine ⟨fun r hrun k => ⟨?_, ?_, ?_⟩, fun hT => run_inc64 hs hT inv_start as⟩
  · exact (length_ids_of_run hrun k).trans (Nat.zero_add _)
  · intro i hi
    have hids := (inv_start.of_run hs hrun).ids k
    have hget := congrArg (·[i]?) hids
    simp only [List.getElem?_eq_getElem hi, List.getElem?_map, List.getElem?_range hi,
      Option.map_some] at hget
    exact Option.some.inj hget
  · have hbound := (inv_start.of_run hs hrun).bound k
    have hle := pending_le r.thread k
    omega

/-- Two threads take three indices of two queues. Both have incremented before either reduces, so
the first exchange fails. -/
def takeThree : List (AtomicStep 2) :=
  [.increment 0 .lruEvictionIdx, .load 0, .increment 1 .lruEvictionIdx, .exchange 0 false,
    .exchange 0 false, .increment 0 .lruEvictionIdx, .load 1, .exchange 1 false]

theorem queue_indices_two : ∃ r : QueueIndices 2,
    run (step (· + 1) 2) (start 2) takeThree = .ok r ∧ (r.ids .lruEvictionIdx).length = 3 ∧
      (∀ i (hi : i < (r.ids .lruEvictionIdx).length), (r.ids .lruEvictionIdx)[i] = i % 2) ∧
      r.counter .lruEvictionIdx ≤ 2 - 1 + 2 :=
  ⟨_, rfl, (queue_indices (by decide) takeThree).1 _ rfl .lruEvictionIdx⟩

/-! ## The counters of the cache model -/

/-- The model of both functions in one step. -/
def cacheIndex (c : KVCache) : QueueCounter → Nat × KVCache
  | .lruTableInsertIdx => c.getNextLruQueueIdx
  | .lruEvictionIdx => c.getNextEvictionQueueIdx

/-- The counters, reduced, are those of the cache. -/
structure CacheCounters (c : KVCache) (r : QueueIndices T) : Prop where
  insert : c.lruTableInsertIdx = r.counter .lruTableInsertIdx % c.lruTableSize
  eviction : c.lruEvictionIdx = r.counter .lruEvictionIdx % c.lruTableSize

theorem cacheIndex_lruTableSize (c : KVCache) (k : QueueCounter) :
    (cacheIndex c k).2.lruTableSize = c.lruTableSize := by
  cases k <;> rfl

/-- An increment is a call of the cache's function, and the other steps change nothing. -/
theorem CacheCounters.of_effect {c : KVCache} (h : CacheCounters c r)
    (hinv : Inv c.lruTableSize r) (heffect : Effect (· + 1) c.lruTableSize r a r') :
    match request a with
    | some k => CacheCounters (cacheIndex c k).2 r' ∧
        r'.handedOut = r.handedOut ++ [(k, (cacheIndex c k).1)]
    | none => CacheCounters c r' ∧ r'.handedOut = r.handedOut := by
  cases heffect with
  | @incremented t k hidle =>
    have hid : (cacheIndex c k).1 = r.counter k % c.lruTableSize := by
      cases k with
      | lruTableInsertIdx => exact (congrArg (· % _) h.insert).trans (Nat.mod_mod ..)
      | lruEvictionIdx => exact (congrArg (· % _) h.eviction).trans (Nat.mod_mod ..)
    refine ⟨?_, by rw [hid]⟩
    cases k with
    | lruTableInsertIdx =>
      refine ⟨?_, h.eviction⟩
      show (c.lruTableInsertIdx + 1) % c.lruTableSize = (r.counter _ + 1) % c.lruTableSize
      rw [h.insert, Nat.mod_add_mod]
    | lruEvictionIdx =>
      refine ⟨h.insert, ?_⟩
      show (c.lruEvictionIdx + 1) % c.lruTableSize = (r.counter _ + 1) % c.lruTableSize
      rw [h.eviction, Nat.mod_add_mod]
  | @read a k id ha hpending =>
    cases a with
    | increment t k' => exact absurd rfl (ha k')
    | load t => exact ⟨⟨h.insert, h.eviction⟩, rfl⟩
    | exchange t failsSpuriously => exact ⟨⟨h.insert, h.eviction⟩, rfl⟩
  | @reduced t k id newValue hthread =>
    have hmod : newValue % c.lruTableSize = r.counter k % c.lruTableSize := by
      rw [hinv.reduced t k id _ newValue hthread, Nat.mod_mod]
    refine ⟨?_, rfl⟩
    cases k with
    | lruTableInsertIdx => exact ⟨h.insert.trans hmod.symm, h.eviction⟩
    | lruEvictionIdx => exact ⟨h.insert, h.eviction.trans hmod.symm⟩

/-- **Interleaved calls hand out what the cache model does**, called in the order of the
increments. -/
theorem run_cacheIndices {c : KVCache} (hs : 1 ≤ c.lruTableSize) (h : CacheCounters c r)
    (hinv : Inv c.lruTableSize r) {as : List (AtomicStep T)}
    (hrun : run (step (· + 1) c.lruTableSize) r as = .ok r') :
    r'.handedOut = r.handedOut ++
        (as.filterMap request).zip (specCalls cacheIndex c (as.filterMap request)).1 ∧
      CacheCounters (specCalls cacheIndex c (as.filterMap request)).2 r' := by
  induction as generalizing r c with
  | nil =>
    obtain rfl := Except.ok.inj hrun
    exact ⟨(List.append_nil _).symm, h⟩
  | cons a as ih =>
    obtain ⟨r₁, hstep, hrest⟩ := run_cons_eq_ok hrun
    have heffect := effect_of_step hstep
    have hcase := h.of_effect hinv heffect
    have hinv₁ := hinv.of_effect hs heffect
    cases hreq : request a with
    | none =>
      rw [hreq] at hcase
      rw [List.filterMap_cons_none hreq, ← hcase.2]
      exact ih hs hcase.1 hinv₁ hrest
    | some k =>
      rw [hreq] at hcase
      have hsize := cacheIndex_lruTableSize c k
      rw [← hsize] at hs hinv₁ hrest
      obtain ⟨hout, hcount⟩ := ih hs hcase.1 hinv₁ hrest
      rw [List.filterMap_cons_some hreq]
      refine ⟨?_, hcount⟩
      rw [hout, hcase.2, List.append_assoc, List.singleton_append, specCalls, List.zip_cons_cons]

end QueueIndices

end KeyValueStore
