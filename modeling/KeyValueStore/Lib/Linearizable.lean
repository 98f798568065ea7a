import Mathlib.Data.List.Basic
import Mathlib.Data.List.Nodup

/-!
# Linearizability

A history is a list of invocations and responses, each carrying the identity of its operation. It
linearizes to a sequence of operations when that sequence is a legal run of the sequential
specification, contains every answered operation with its answer, and orders any two operations
of which the first was answered before the second was invoked as the history does. Operations
still pending may take part or not.

**Linearization points.** `Instrumented` builds a history and a sequence side by side: an operation
is appended to the sequence at one moment between its invocation and its response.
`Instrumented.linearizes` says that the sequence then linearizes the history.

For threads that each have at most one operation under way, and whose operations take effect in the
step that returns, `Tracked` keeps the operation of every thread beside the two. Its rules `invoke`
and `answer` move one thread on. `Staged` does so for clients whose operations take effect before
the response has come back to them, by `invoke`, `commit` and `respond`.
-/

namespace Linearizability

variable {Op Ret S : Type*}

/-- What a client sees of an operation. -/
inductive Event (Op Ret : Type*)
  | invoke (id : Nat) (op : Op)
  | respond (id : Nat) (ret : Ret)
deriving DecidableEq

/-- One operation of a sequential run. -/
structure Entry (Op Ret : Type*) where
  id : Nat
  op : Op
  ret : Ret
deriving DecidableEq

/-- The entries are a run of the specification from `s` to `s'`. -/
def Legal (spec : S → Op → S × Ret) : S → List (Entry Op Ret) → S → Prop
  | s, [], s' => s = s'
  | s, e :: es, s' => (spec s e.op).2 = e.ret ∧ Legal spec (spec s e.op).1 es s'

/-- Operation `i` was answered before `j` was invoked. -/
def Precedes (h : List (Event Op Ret)) (i j : Nat) : Prop :=
  ∃ h₁ h₂ r op, h = h₁ ++ h₂ ∧ .respond i r ∈ h₁ ∧ .invoke j op ∈ h₂

/-- The sequence `l`, run from `s₀` to `s`, explains the history `h`. -/
structure Linearizes (spec : S → Op → S × Ret) (s₀ : S) (h : List (Event Op Ret))
    (l : List (Entry Op Ret)) (s : S) : Prop where
  legal : Legal spec s₀ l s
  once : (l.map Entry.id).Nodup
  invoked : ∀ e ∈ l, .invoke e.id e.op ∈ h
  answered : ∀ i r, .respond i r ∈ h → ∃ op, ⟨i, op, r⟩ ∈ l
  order : ∀ i j, Precedes h i j → j ∈ l.map Entry.id →
    (l.map Entry.id).idxOf i < (l.map Entry.id).idxOf j

theorem legal_append {spec : S → Op → S × Ret} {s s' s'' : S} {l l' : List (Entry Op Ret)}
    (h : Legal spec s l s') (h' : Legal spec s' l' s'') : Legal spec s (l ++ l') s'' := by
  induction l generalizing s with
  | nil => exact (show s = s' from h) ▸ h'
  | cons e es ih => exact ⟨h.1, ih h.2⟩

theorem precedes_snoc {h : List (Event Op Ret)} {x : Event Op Ret} {i j : Nat}
    (hp : Precedes (h ++ [x]) i j) : Precedes h i j ∨ ∃ op, x = .invoke j op := by
  obtain ⟨h₁, h₂, r, op, heq, hi, hj⟩ := hp
  rcases List.eq_nil_or_concat h₂ with rfl | ⟨h₂', y, rfl⟩
  · simp at hj
  · rw [List.concat_eq_append, ← List.append_assoc] at heq
    obtain ⟨rfl, hxy⟩ := List.append_inj' heq rfl
    obtain rfl := List.cons.inj hxy |>.1
    rw [List.concat_eq_append, List.mem_append, List.mem_singleton] at hj
    rcases hj with hj | hj
    · exact Or.inl ⟨h₁, h₂', r, op, rfl, hi, hj⟩
    · exact Or.inr ⟨op, hj.symm⟩

/-- A history and its linearization, built together. -/
inductive Instrumented (spec : S → Op → S × Ret) (s₀ : S) :
    List (Event Op Ret) → List (Entry Op Ret) → S → Prop
  | start : Instrumented spec s₀ [] [] s₀
  | invoke {h l s} (id : Nat) (op : Op) : Instrumented spec s₀ h l s →
      (∀ op', .invoke id op' ∉ h) → Instrumented spec s₀ (h ++ [.invoke id op]) l s
  | commit {h l s} (id : Nat) (op : Op) : Instrumented spec s₀ h l s →
      .invoke id op ∈ h → id ∉ l.map Entry.id →
      Instrumented spec s₀ h (l ++ [⟨id, op, (spec s op).2⟩]) (spec s op).1
  | respond {h l s} (id : Nat) (op : Op) (r : Ret) : Instrumented spec s₀ h l s →
      ⟨id, op, r⟩ ∈ l → Instrumented spec s₀ (h ++ [.respond id r]) l s

/-- **The linearization-point rule.** -/
theorem Instrumented.linearizes {spec : S → Op → S × Ret} {s₀ s : S} {h : List (Event Op Ret)}
    {l : List (Entry Op Ret)} (hi : Instrumented spec s₀ h l s) : Linearizes spec s₀ h l s := by
  induction hi with
  | start =>
    refine ⟨rfl, by simp, by simp, by simp, ?_⟩
    intro i j _ hj
    simp at hj
  | @invoke h l s id op _ hfresh ih =>
    refine ⟨ih.legal, ih.once, fun e he => List.mem_append_left _ (ih.invoked e he), ?_, ?_⟩
    · intro i r hr
      exact ih.answered i r (by simpa using hr)
    · intro i j hp hj
      -- an operation invoked last precedes nothing
      rcases precedes_snoc hp with hp | ⟨op', hx⟩
      · exact ih.order i j hp hj
      · obtain ⟨rfl, -⟩ := Event.invoke.inj hx
        obtain ⟨e, he, rfl⟩ := List.mem_map.1 hj
        exact absurd (ih.invoked e he) (hfresh e.op)
  | @commit h l s id op _ hinv hnew ih =>
    refine ⟨legal_append ih.legal ⟨rfl, rfl⟩, ?_, ?_, ?_, ?_⟩
    · rw [List.map_append, List.nodup_append]
      refine ⟨ih.once, by simp, ?_⟩
      rintro a ha b hb rfl
      obtain rfl : a = id := List.mem_singleton.1 hb
      exact hnew ha
    · intro e he
      rcases List.mem_append.1 he with he | he
      · exact ih.invoked e he
      · rw [List.mem_singleton.1 he]
        exact hinv
    · intro i r hr
      obtain ⟨op', hm⟩ := ih.answered i r hr
      exact ⟨op', List.mem_append_left _ hm⟩
    · intro i j hp hj
      have hir : ∃ r, .respond i r ∈ h := by
        obtain ⟨h₁, h₂, r, -, rfl, hir, -⟩ := hp
        exact ⟨r, List.mem_append_left _ hir⟩
      obtain ⟨r, hr⟩ := hir
      obtain ⟨op', hm⟩ := ih.answered i r hr
      have him : i ∈ l.map Entry.id := List.mem_map_of_mem hm
      rw [List.map_append, List.idxOf_append_of_mem him]
      -- what was answered is already in the sequence, so it stands before the new entry
      by_cases hjl : j ∈ l.map Entry.id
      · rw [List.idxOf_append_of_mem hjl]
        exact ih.order i j hp hjl
      · rw [List.idxOf_append_of_notMem hjl]
        exact Nat.lt_add_right _ (List.idxOf_lt_length_of_mem him)
  | @respond h l s id op r _ hm ih =>
    refine ⟨ih.legal, ih.once, fun e he => List.mem_append_left _ (ih.invoked e he), ?_, ?_⟩
    · intro i r' hr
      rcases List.mem_append.1 hr with hr | hr
      · exact ih.answered i r' hr
      · obtain ⟨rfl, rfl⟩ := Event.respond.inj (List.mem_singleton.1 hr)
        exact ⟨op, hm⟩
    · intro i j hp hj
      rcases precedes_snoc hp with hp | ⟨op', hx⟩
      · exact ih.order i j hp hj
      · cases hx

/-! ## Threads -/

/-- The history and the sequence so far, where `pending t` is the operation that thread `t` has
under way. Identities from `next` on are unused. -/
structure Tracked (spec : S → Op → S × Ret) (s₀ : S) (h : List (Event Op Ret)) (next : Nat)
    (pending : Nat → Option (Nat × Op)) (l : List (Entry Op Ret)) (s : S) : Prop where
  inst : Instrumented spec s₀ h l s
  fresh : ∀ id op, .invoke id op ∈ h → id < next
  called : ∀ t id op, pending t = some (id, op) → .invoke id op ∈ h ∧ id ∉ l.map Entry.id
  apart : ∀ t t' id op op', pending t = some (id, op) → pending t' = some (id, op') → t = t'
  accounted : ∀ id op, .invoke id op ∈ h →
    (∃ r, .respond id r ∈ h ∧ ⟨id, op, r⟩ ∈ l) ∨ ∃ t, pending t = some (id, op)

namespace Tracked

variable {spec : S → Op → S × Ret} {s₀ s : S} {h : List (Event Op Ret)} {next : Nat}
  {pending : Nat → Option (Nat × Op)} {l : List (Entry Op Ret)} {t : Nat}

theorem start : Tracked spec s₀ ([] : List (Event Op Ret)) 0 (fun _ => none) [] s₀ where
  inst := .start
  fresh := by simp
  called := by simp
  apart := by simp
  accounted := by simp

theorem invoke (ht : Tracked spec s₀ h next pending l s) (hidle : pending t = none) (op : Op) :
    Tracked spec s₀ (h ++ [.invoke next op]) (next + 1)
      (Function.update pending t (some (next, op))) l s where
  inst := .invoke next op ht.inst fun op' hop => Nat.lt_irrefl _ (ht.fresh next op' hop)
  fresh id op' hop := by
    rcases List.mem_append.1 hop with hop | hop
    · exact Nat.lt_succ_of_lt (ht.fresh id op' hop)
    · rw [(Event.invoke.inj (List.mem_singleton.1 hop)).1]
      exact Nat.lt_succ_self next
  called t' id op' hs := by
    by_cases htt : t' = t
    · rw [htt, Function.update_self] at hs
      obtain ⟨rfl, rfl⟩ := Prod.mk.inj (Option.some.inj hs)
      refine ⟨by simp, ?_⟩
      intro hl
      obtain ⟨e, he, hid⟩ := List.mem_map.1 hl
      exact Nat.ne_of_lt (ht.fresh e.id e.op (ht.inst.linearizes.invoked e he)) hid
    · rw [Function.update_of_ne htt] at hs
      obtain ⟨hop, hl⟩ := ht.called t' id op' hs
      exact ⟨List.mem_append_left _ hop, hl⟩
  apart t₁ t₂ id op₁ op₂ h₁ h₂ := by
    have hlt : ∀ t' op', pending t' = some (id, op') → id ≠ next := fun t' op' hs =>
      Nat.ne_of_lt (ht.fresh id op' (ht.called t' id op' hs).1)
    -- the identity of the new operation is larger than all before it
    by_cases ht₁ : t₁ = t <;> by_cases ht₂ : t₂ = t
    · rw [ht₁, ht₂]
    · rw [ht₁, Function.update_self] at h₁
      rw [Function.update_of_ne ht₂] at h₂
      exact absurd (Prod.mk.inj (Option.some.inj h₁)).1.symm (hlt t₂ op₂ h₂)
    · rw [Function.update_of_ne ht₁] at h₁
      rw [ht₂, Function.update_self] at h₂
      exact absurd (Prod.mk.inj (Option.some.inj h₂)).1.symm (hlt t₁ op₁ h₁)
    · rw [Function.update_of_ne ht₁] at h₁
      rw [Function.update_of_ne ht₂] at h₂
      exact ht.apart t₁ t₂ id op₁ op₂ h₁ h₂
  accounted id op' hop := by
    rcases List.mem_append.1 hop with hop | hop
    · rcases ht.accounted id op' hop with ⟨r, hr, hl⟩ | ⟨t', ht'⟩
      · exact Or.inl ⟨r, List.mem_append_left _ hr, hl⟩
      · have htt : t' ≠ t := by
          rintro rfl
          rw [hidle] at ht'
          cases ht'
        exact Or.inr ⟨t', by rw [Function.update_of_ne htt, ht']⟩
    · obtain ⟨rfl, rfl⟩ := Event.invoke.inj (List.mem_singleton.1 hop)
      exact Or.inr ⟨t, Function.update_self ..⟩

/-- The operation of thread `t` takes effect, and the thread returns. -/
theorem answer (ht : Tracked spec s₀ h next pending l s) {id : Nat} {op : Op}
    (hpending : pending t = some (id, op)) :
    Tracked spec s₀ (h ++ [.respond id (spec s op).2]) next (Function.update pending t none)
      (l ++ [⟨id, op, (spec s op).2⟩]) (spec s op).1 := by
  obtain ⟨hop, hnew⟩ := ht.called t id op hpending
  have hother : ∀ t' id' op', Function.update pending t none t' = some (id', op') →
      pending t' = some (id', op') ∧ id' ≠ id := by
    intro t' id' op' hs
    by_cases htt : t' = t
    · rw [htt, Function.update_self] at hs
      cases hs
    · rw [Function.update_of_ne htt] at hs
      refine ⟨hs, fun hid => htt ?_⟩
      rw [hid] at hs
      exact ht.apart t' t id op' op hs hpending
  refine ⟨.respond id op _ (.commit id op ht.inst hop hnew) (by simp),
    fun id' op' h' => ht.fresh id' op' (by simpa using h'), fun t' id' op' hs => ?_,
    fun t₁ t₂ id' op₁ op₂ h₁ h₂ => ?_, fun id' op' h' => ?_⟩
  · obtain ⟨hs', hid⟩ := hother t' id' op' hs
    obtain ⟨hop', hl⟩ := ht.called t' id' op' hs'
    refine ⟨List.mem_append_left _ hop', ?_⟩
    intro hmem
    rw [List.map_append, List.mem_append] at hmem
    exact hmem.elim hl fun h => hid (List.mem_singleton.1 h)
  · exact ht.apart t₁ t₂ id' op₁ op₂ (hother t₁ id' op₁ h₁).1 (hother t₂ id' op₂ h₂).1
  · rcases ht.accounted id' op' (by simpa using h') with ⟨r, hr, hl⟩ | ⟨t', ht'⟩
    · exact Or.inl ⟨r, List.mem_append_left _ hr, List.mem_append_left _ hl⟩
    · by_cases htt : t' = t
      · rw [htt, hpending] at ht'
        obtain ⟨rfl, rfl⟩ := Prod.mk.inj (Option.some.inj ht')
        exact Or.inl ⟨(spec s op).2, by simp, by simp⟩
      · exact Or.inr ⟨t', by rw [Function.update_of_ne htt, ht']⟩

end Tracked

/-! ## Clients that wait for a response -/

/-- As `Tracked`, for operations that take effect some time before the client has the response: with
its operation, a client has the result under way to it, if there is one. -/
structure Staged (spec : S → Op → S × Ret) (s₀ : S) (h : List (Event Op Ret)) (next : Nat)
    (pending : Nat → Option (Nat × Op × Option Ret)) (l : List (Entry Op Ret)) (s : S) : Prop where
  inst : Instrumented spec s₀ h l s
  fresh : ∀ id op, .invoke id op ∈ h → id < next
  called : ∀ t id op ret, pending t = some (id, op, ret) → .invoke id op ∈ h
  waiting : ∀ t id op, pending t = some (id, op, none) → id ∉ l.map Entry.id
  done : ∀ t id op ret, pending t = some (id, op, some ret) → ⟨id, op, ret⟩ ∈ l
  apart : ∀ t t' id op op' ret ret', pending t = some (id, op, ret) →
    pending t' = some (id, op', ret') → t = t'

namespace Staged

variable {spec : S → Op → S × Ret} {s₀ s : S} {h : List (Event Op Ret)} {next : Nat}
  {pending : Nat → Option (Nat × Op × Option Ret)} {l : List (Entry Op Ret)} {t id : Nat} {op : Op}

theorem start :
    Staged spec s₀ ([] : List (Event Op Ret)) 0 (fun _ => none) [] s₀ where
  inst := .start
  fresh := by simp
  called := by simp
  waiting := by simp
  done := by simp
  apart := by simp

theorem invoke (ht : Staged spec s₀ h next pending l s) (op : Op) :
    Staged spec s₀ (h ++ [.invoke next op]) (next + 1)
      (Function.update pending t (some (next, op, none))) l s := by
  -- all numbers in use are below the new one
  have hlt : ∀ t' id' op' ret, pending t' = some (id', op', ret) → id' < next :=
    fun t' id' op' ret hs => ht.fresh id' op' (ht.called t' id' op' ret hs)
  refine ⟨.invoke next op ht.inst fun op' hop => Nat.lt_irrefl _ (ht.fresh next op' hop),
    ?_, ?_, ?_,
    ?_, ?_⟩
  · intro id' op' hop
    rcases List.mem_append.1 hop with hop | hop
    · exact Nat.lt_succ_of_lt (ht.fresh id' op' hop)
    · rw [(Event.invoke.inj (List.mem_singleton.1 hop)).1]
      exact Nat.lt_succ_self next
  · intro t' id' op' ret hs
    by_cases htt : t' = t
    · rw [htt, Function.update_self] at hs
      obtain ⟨rfl, rfl, -⟩ := hs
      simp
    · rw [Function.update_of_ne htt] at hs
      exact List.mem_append_left _ (ht.called t' id' op' ret hs)
  · intro t' id' op' hs hl
    by_cases htt : t' = t
    · rw [htt, Function.update_self] at hs
      obtain ⟨rfl, rfl, -⟩ := hs
      obtain ⟨e, he, hid⟩ := List.mem_map.1 hl
      exact Nat.ne_of_lt (ht.fresh e.id e.op (ht.inst.linearizes.invoked e he)) hid
    · rw [Function.update_of_ne htt] at hs
      exact ht.waiting t' id' op' hs hl
  · intro t' id' op' ret hs
    by_cases htt : t' = t
    · rw [htt, Function.update_self] at hs
      cases hs
    · rw [Function.update_of_ne htt] at hs
      exact ht.done t' id' op' ret hs
  · intro t₁ t₂ id' op₁ op₂ r₁ r₂ h₁ h₂
    by_cases ht₁ : t₁ = t <;> by_cases ht₂ : t₂ = t
    · rw [ht₁, ht₂]
    · rw [ht₁, Function.update_self] at h₁
      rw [Function.update_of_ne ht₂] at h₂
      obtain ⟨rfl, -⟩ := h₁
      exact absurd (hlt t₂ _ op₂ r₂ h₂) (Nat.lt_irrefl _)
    · rw [Function.update_of_ne ht₁] at h₁
      rw [ht₂, Function.update_self] at h₂
      obtain ⟨rfl, -⟩ := h₂
      exact absurd (hlt t₁ _ op₁ r₁ h₁) (Nat.lt_irrefl _)
    · rw [Function.update_of_ne ht₁] at h₁
      rw [Function.update_of_ne ht₂] at h₂
      exact ht.apart t₁ t₂ id' op₁ op₂ r₁ r₂ h₁ h₂

/-- What is under way of another client, after client `t` has moved on. -/
theorem of_update {x : Option (Nat × Op × Option Ret)} {t' : Nat} {y : Nat × Op × Option Ret}
    (htt : t' ≠ t) (hs : Function.update pending t x t' = some y) : pending t' = some y := by
  rwa [Function.update_of_ne htt] at hs

theorem commit (ht : Staged spec s₀ h next pending l s)
    (hpending : pending t = some (id, op, none)) :
    Staged spec s₀ h next (Function.update pending t (some (id, op, some (spec s op).2)))
      (l ++ [⟨id, op, (spec s op).2⟩]) (spec s op).1 := by
  have hop := ht.called t id op none hpending
  refine ⟨.commit id op ht.inst hop (ht.waiting t id op hpending), ht.fresh, ?_, ?_, ?_, ?_⟩
  · intro t' id' op' ret hs
    by_cases htt : t' = t
    · rw [htt, Function.update_self] at hs
      obtain ⟨rfl, rfl, -⟩ := hs
      exact hop
    · exact ht.called t' id' op' ret (of_update htt hs)
  · intro t' id' op' hs hl
    by_cases htt : t' = t
    · rw [htt, Function.update_self] at hs
      cases hs
    · have hs' := of_update htt hs
      rw [List.map_append, List.mem_append] at hl
      rcases hl with hl | hl
      · exact ht.waiting t' id' op' hs' hl
      · obtain rfl : id' = id := List.mem_singleton.1 hl
        exact htt (ht.apart t' t id' op' op none none hs' hpending)
  · intro t' id' op' ret hs
    by_cases htt : t' = t
    · rw [htt, Function.update_self] at hs
      obtain ⟨rfl, rfl, rfl⟩ := hs
      simp
    · exact List.mem_append_left _ (ht.done t' id' op' ret (of_update htt hs))
  · intro t₁ t₂ id' op₁ op₂ r₁ r₂ h₁ h₂
    -- an entry keeps its number, so two of them are of one thread as before
    have hsame : ∀ t' op' ret', Function.update pending t (some (id, op, some (spec s op).2)) t' =
        some (id', op', ret') → ∃ op'' ret'', pending t' = some (id', op'', ret'') :=
      fun t' op' ret' hs => by
        by_cases htt : t' = t
        · rw [htt, Function.update_self] at hs
          obtain ⟨rfl, -⟩ := hs
          exact ⟨op, none, htt ▸ hpending⟩
        · exact ⟨op', ret', of_update htt hs⟩
    obtain ⟨_, _, h₁'⟩ := hsame t₁ op₁ r₁ h₁
    obtain ⟨_, _, h₂'⟩ := hsame t₂ op₂ r₂ h₂
    exact ht.apart t₁ t₂ id' _ _ _ _ h₁' h₂'

theorem respond (ht : Staged spec s₀ h next pending l s) {ret : Ret}
    (hpending : pending t = some (id, op, some ret)) :
    Staged spec s₀ (h ++ [.respond id ret]) next (Function.update pending t none) l s := by
  have hother : ∀ t' y, Function.update pending t none t' = some y → pending t' = some y :=
    fun t' y hs => by
      by_cases htt : t' = t
      · rw [htt, Function.update_self] at hs
        cases hs
      · exact of_update htt hs
  exact ⟨.respond id op ret ht.inst (ht.done t id op ret hpending),
    fun id' op' hop => ht.fresh id' op' (by simpa using hop),
    fun t' id' op' ret' hs => List.mem_append_left _ (ht.called t' id' op' ret' (hother t' _ hs)),
    fun t' id' op' hs => ht.waiting t' id' op' (hother t' _ hs),
    fun t' id' op' ret' hs => ht.done t' id' op' ret' (hother t' _ hs),
    fun t₁ t₂ id' op₁ op₂ r₁ r₂ h₁ h₂ =>
      ht.apart t₁ t₂ id' op₁ op₂ r₁ r₂ (hother t₁ _ h₁) (hother t₂ _ h₂)⟩

end Staged

end Linearizability
