import Mathlib.Algebra.GroupWithZero.Nat
import Mathlib.Data.List.Basic

/-!
# Runs of a fallible step function

`step s a` takes action `a` in state `s` or fails. `run` folds it over a list of actions, `Meets`
says that every action of a run is taken in a state that satisfies a side condition, and
`run_invariant` is the induction rule: what each such step preserves, the run preserves.

`Ensures x Q` is the triple of partial correctness. A failure may also be *excused*: `Excused e x Q`
is the triple "`x` fails with `e` or returns a value with `Q`". `simulation` is the induction rule
for such runs: a system whose every call, unless excused, answers as an abstract machine and keeps a
relation to it, does so over any sequence of calls. `Avoids e x Q` says that the excuse is not
needed.
-/

namespace Run

/-! ## Excused failures -/

section Excused

variable {ε : Type*} {α β : Type*} {e : ε}

/-- The computation fails with `e`, or returns a value that satisfies `Q`. -/
def Excused (e : ε) (x : Except ε α) (Q : α → Prop) : Prop := x = .error e ∨ ∃ a, x = .ok a ∧ Q a

theorem Excused.ok {a : α} {Q : α → Prop} (h : Q a) : Excused e (.ok a) Q := Or.inr ⟨a, rfl, h⟩

theorem Excused.mono {x : Except ε α} {Q Q' : α → Prop} (h : Excused e x Q)
    (hQ : ∀ a, Q a → Q' a) : Excused e x Q' := by
  rcases h with h | ⟨a, h, ha⟩
  · exact Or.inl h
  · exact Or.inr ⟨a, h, hQ a ha⟩

theorem Excused.of_ok {x : Except ε α} {a : α} {Q : α → Prop} (h : Excused e x Q)
    (hx : x = .ok a) : Q a := by
  rcases h with h | ⟨b, h, hb⟩
  · rw [hx] at h; cases h
  · rw [hx] at h
    exact Except.ok.inj h ▸ hb

end Excused

/-- The rule of sequencing. -/
theorem Excused.bind {ε : Type*} {α β : Type*} {e : ε} {x : Except ε α} {g : α → Except ε β}
    {P : α → Prop} {Q : β → Prop} (h : Excused e x P) (hg : ∀ a, P a → Excused e (g a) Q) :
    Excused e (x.bind g) Q := by
  rcases h with rfl | ⟨a, rfl, ha⟩
  · exact Or.inl rfl
  · exact hg a ha

theorem Excused.bind₂ {ε : Type*} {α β γ : Type*} {e : ε} {x : Except ε α} {g : α → Except ε β}
    {k : β → Except ε γ} {P : β → Prop} {Q : γ → Prop} (h : Excused e (x.bind g) P)
    (hk : ∀ b, P b → Excused e (k b) Q) : Excused e (x.bind fun a => (g a).bind k) Q := by
  cases x with
  | ok a => exact Excused.bind (x := g a) h hk
  | error e' =>
    rcases h with h | ⟨b, h, -⟩
    · exact Or.inl (congrArg Except.error (Except.error.inj h))
    · cases h

/-! ## Partial correctness -/

section Ensures

variable {ε α β : Type*} {x : Except ε α} {P Q : α → Prop}

/-- If the computation returns a value, it satisfies `Q`. -/
def Ensures (x : Except ε α) (Q : α → Prop) : Prop := ∀ a, x = .ok a → Q a

theorem Ensures.ok {a : α} (h : Q a) : Ensures (ε := ε) (.ok a) Q := fun _ hb =>
  Except.ok.inj hb ▸ h

theorem Ensures.error {e : ε} : Ensures (.error e) Q := fun _ hb => by cases hb

theorem Ensures.mono (h : Ensures x P) (hPQ : ∀ a, P a → Q a) : Ensures x Q := fun a ha =>
  hPQ a (h a ha)

theorem Ensures.and (hP : Ensures x P) (hQ : Ensures x Q) : Ensures x fun a => P a ∧ Q a :=
  fun a ha => ⟨hP a ha, hQ a ha⟩

theorem Excused.ensures {e : ε} (h : Excused e x Q) : Ensures x Q := fun _ ha => h.of_ok ha

theorem Ensures.bind {g : α → Except ε β} {R : β → Prop} (h : Ensures x P)
    (hg : ∀ a, P a → Ensures (g a) R) : Ensures (x.bind g) R := by
  intro b hb
  cases x with
  | error e => cases hb
  | ok a => exact hg a (h a rfl) b hb

theorem Ensures.bind₂ {γ : Type*} {g : α → Except ε β} {k : β → Except ε γ} {R : β → Prop}
    {T : γ → Prop} (h : Ensures (x.bind g) R) (hk : ∀ b, R b → Ensures (k b) T) :
    Ensures (x.bind fun a => (g a).bind k) T := by
  cases x with
  | error e => exact Ensures.error
  | ok a => exact Ensures.bind (x := g a) h hk

/-- A postcondition for every value returned holds of the one returned. -/
theorem Ensures.excused {e : ε} (h : Ensures x Q) (hx : Excused e x P) : Excused e x Q := by
  rcases hx with hx | ⟨a, hx, -⟩
  · exact Or.inl hx
  · exact Or.inr ⟨a, hx, h a hx⟩

theorem ensures_true : Ensures x fun _ => True := fun _ _ => trivial

end Ensures

/-! ## Failures that do not occur -/

section Avoids

variable {ε α β : Type*} {e e' : ε} {x : Except ε α} {P Q : α → Prop}

/-- The computation does not fail with `e`, and a value that it returns satisfies `Q`. -/
def Avoids (e : ε) (x : Except ε α) (Q : α → Prop) : Prop := x ≠ .error e ∧ Ensures x Q

theorem Avoids.ok {a : α} (h : Q a) : Avoids e (.ok a) Q := ⟨fun hx => (by cases hx), Ensures.ok h⟩

theorem Avoids.error (hne : e' ≠ e) : Avoids e (.error e') Q :=
  ⟨fun hx => hne (Except.error.inj hx), Ensures.error⟩

theorem Avoids.mono (h : Avoids e x P) (hPQ : ∀ a, P a → Q a) : Avoids e x Q :=
  ⟨h.1, h.2.mono hPQ⟩

theorem Avoids.and (h : Avoids e x P) (hQ : Ensures x Q) : Avoids e x fun a => P a ∧ Q a :=
  ⟨h.1, h.2.and hQ⟩

theorem Avoids.bind {g : α → Except ε β} {R : β → Prop} (h : Avoids e x P)
    (hg : ∀ a, P a → Avoids e (g a) R) : Avoids e (x.bind g) R := by
  refine ⟨?_, h.2.bind fun a ha => (hg a ha).2⟩
  cases x with
  | error e'' => exact fun hx => h.1 (congrArg Except.error (Except.error.inj hx))
  | ok a => exact (hg a (h.2 a rfl)).1

theorem Avoids.bind₂ {γ : Type*} {g : α → Except ε β} {k : β → Except ε γ} {R : β → Prop}
    {T : γ → Prop} (h : Avoids e (x.bind g) R) (hk : ∀ b, R b → Avoids e (k b) T) :
    Avoids e (x.bind fun a => (g a).bind k) T := by
  cases x with
  | error e'' => exact Avoids.error fun hx => h.1 (congrArg Except.error hx)
  | ok a => exact Avoids.bind (x := g a) h hk

/-- **What is excused and does not occur.** The computation returns. -/
theorem Excused.returns (h : Excused e x Q) (hx : Avoids e x P) : ∃ a, x = .ok a ∧ Q a ∧ P a := by
  rcases h with h | ⟨a, h, ha⟩
  · exact absurd h hx.1
  · exact ⟨a, h, ha, hx.2 a h⟩

end Avoids

/-! ## Runs of a step function -/

variable {S A ε : Type*} {step : S → A → Except ε S}

/-- Take the actions in order, stopping at the first failure. -/
def run (step : S → A → Except ε S) : S → List A → Except ε S
  | s, [] => .ok s
  | s, a :: as => do run step (← step s a) as

/-- Every action of the run is taken in a state where the side condition `C` holds. -/
def Meets (step : S → A → Except ε S) (C : S → A → Prop) : S → List A → Prop
  | _, [] => True
  | s, a :: as => C s a ∧ ∀ s', step s a = .ok s' → Meets step C s' as

theorem run_cons_eq_ok {s s' : S} {a : A} {as : List A} (h : run step s (a :: as) = .ok s') :
    ∃ t, step s a = .ok t ∧ run step t as = .ok s' := by
  rw [run] at h
  cases hstep : step s a with
  | error e => rw [hstep] at h; cases h
  | ok t => rw [hstep] at h; exact ⟨t, rfl, h⟩

/-- **Induction over runs.** An invariant kept by every step that meets the side condition holds
at the end of every run that meets it. -/
theorem run_invariant {I : S → Prop} {C : S → A → Prop}
    (hstep : ∀ s a s', I s → C s a → step s a = .ok s' → I s') {s s' : S} {as : List A}
    (hs : I s) (hmeets : Meets step C s as) (hrun : run step s as = .ok s') : I s' := by
  induction as generalizing s with
  | nil => exact Except.ok.inj hrun ▸ hs
  | cons a as ih =>
    obtain ⟨t, ht, hrest⟩ := run_cons_eq_ok hrun
    exact ih (hstep s a t hs hmeets.1 ht) (hmeets.2 t ht) hrest

theorem meets_of_forall {C : S → A → Prop} (hC : ∀ s a, C s a) {s : S} {as : List A} :
    Meets step C s as := by
  induction as generalizing s with
  | nil => trivial
  | cons a as ih => exact ⟨hC s a, fun s' _ => ih⟩

/-- An invariant kept by every step holds at the end of every run. -/
theorem run_preserves {I : S → Prop} (hstep : ∀ s a s', I s → step s a = .ok s' → I s')
    {s s' : S} {as : List A} (hs : I s) (hrun : run step s as = .ok s') : I s' :=
  run_invariant (fun s a s' h (_ : True) => hstep s a s' h) hs (meets_of_forall fun _ _ => trivial)
    hrun

theorem run_append {s t : S} {as : List A} (bs : List A) (h : run step s as = .ok t) :
    run step s (as ++ bs) = run step t bs := by
  induction as generalizing s with
  | nil =>
    obtain rfl := Except.ok.inj h
    rfl
  | cons a as ih =>
    obtain ⟨u, hu, hrest⟩ := run_cons_eq_ok h
    rw [List.cons_append, run, hu]
    exact ih hrest

/-- **Projection.** If each step of a system is no step or one step of a component, then each run of
the system is a run of the component. -/
theorem run_projects {T B ε' : Type*} {step' : T → B → Except ε' T} {f : S → T}
    {C : S → A → Prop} {C' : T → B → Prop}
    (hstep : ∀ s a s', C s a → step s a = .ok s' →
      f s' = f s ∨ ∃ b, C' (f s) b ∧ step' (f s) b = .ok (f s'))
    {s s' : S} {as : List A} (hmeets : Meets step C s as) (hrun : run step s as = .ok s') :
    ∃ bs, Meets step' C' (f s) bs ∧ run step' (f s) bs = .ok (f s') := by
  induction as generalizing s with
  | nil =>
    obtain rfl := Except.ok.inj hrun
    exact ⟨[], trivial, rfl⟩
  | cons a as ih =>
    obtain ⟨t, ht, hrest⟩ := run_cons_eq_ok hrun
    obtain ⟨bs, hbs, hrun'⟩ := ih (hmeets.2 t ht) hrest
    rcases hstep s a t hmeets.1 ht with hsame | ⟨b, hb, hstep'⟩
    · exact ⟨bs, hsame ▸ hbs, hsame ▸ hrun'⟩
    · refine ⟨b :: bs, ⟨hb, ?_⟩, ?_⟩
      · intro u hu
        rw [hstep'] at hu
        exact Except.ok.inj hu ▸ hbs
      · rw [run, hstep']
        exact hrun'

/-- An invariant kept by every step, unless the step is excused, is kept by every run. -/
theorem run_excused {I : S → Prop} {e : ε} (hstep : ∀ s a, I s → Excused e (step s a) I) {s : S}
    (as : List A) (hs : I s) : Excused e (run step s as) I := by
  induction as generalizing s with
  | nil => exact Excused.ok hs
  | cons a as ih => exact (hstep s a hs).bind fun t ht => ih ht

/-- The same for the runs whose every step meets a side condition. -/
theorem run_excused_of_meets {I : S → Prop} {C : S → A → Prop} {e : ε}
    (hstep : ∀ s a, I s → C s a → Excused e (step s a) I) {s : S} {as : List A} (hs : I s)
    (hmeets : Meets step C s as) : Excused e (run step s as) I := by
  induction as generalizing s with
  | nil => exact Excused.ok hs
  | cons a as ih =>
    rcases hstep s a hs hmeets.1 with hfail | ⟨t, ht, hI⟩
    · exact Or.inl (by rw [run, hfail]; rfl)
    · have hrest := ih hI (hmeets.2 t ht)
      rw [run, ht]
      exact hrest

/-- Some of the actions `own` bring about `P`, whatever the environment does: where it is its turn,
any of the actions `env` may be taken. Only a failure with `e` may come between. -/
inductive Forces (e : ε) (step : S → A → Except ε S) (own env : S → A → Prop) (P : S → Prop) :
    S → Prop
  | here {s : S} (h : P s) : Forces e step own env P s
  | own {s : S} (a : A) (ha : own s a) (hsafe : Excused e (step s a) fun _ => True)
      (hnext : ∀ t, step s a = .ok t → Forces e step own env P t) : Forces e step own env P s
  | env {s : S} (a : A) (ha : env s a) (hsafe : ∀ b, env s b → Excused e (step s b) fun _ => True)
      (hnext : ∀ b t, env s b → step s b = .ok t → Forces e step own env P t) :
      Forces e step own env P s

section Forces

variable {e : ε} {own env : S → A → Prop} {s : S} {P Q : S → Prop}

theorem Forces.action {a : A} (ha : own s a) (h : Excused e (step s a) P) :
    Forces e step own env P s :=
  .own a ha (h.mono fun _ _ => trivial) fun _ ht => .here (h.of_ok ht)

/-- **Composition**: what comes after may depend on the state reached. -/
theorem Forces.trans (h : Forces e step own env Q s)
    (hnext : ∀ t, Q t → Forces e step own env P t) : Forces e step own env P s := by
  induction h with
  | here h => exact hnext _ h
  | own a ha hsafe _ ih => exact .own a ha hsafe ih
  | env a ha hsafe _ ih => exact .env a ha hsafe ih

end Forces

/-- Taking the action again and again comes from `y` to `x`, unless `x` is the failure `e`. -/
def LeadsTo (step : S → A → Except ε S) (e : ε) (a : A) (y x : Except ε S) : Prop :=
  x = .error e ∨ ∃ k, (y.bind fun s => run step s (List.replicate k a)) = x

section LeadsTo

variable {e : ε} {a : A} {x y : Except ε S}

theorem LeadsTo.refl : LeadsTo step e a x x := by
  refine Or.inr ⟨0, ?_⟩
  cases x <;> rfl

theorem LeadsTo.next {s : S} (h : LeadsTo step e a (step s a) x) : LeadsTo step e a (.ok s) x := by
  rcases h with h | ⟨k, h⟩
  · exact Or.inl h
  · exact Or.inr ⟨k + 1, h⟩

/-- The rule of sequencing: a computation that both do first. -/
theorem LeadsTo.bind {α : Type*} {m : Except ε α} {g f : α → Except ε S}
    (h : ∀ r, m = .ok r → LeadsTo step e a (g r) (f r)) :
    LeadsTo step e a (m.bind g) (m.bind f) := by
  cases m with
  | error e' => exact LeadsTo.refl
  | ok r => exact h r rfl

end LeadsTo

/-- **Exactness of a side condition.** If a step keeps the invariant `I` just when it meets `C`,
then `I` holds in every state of a run just when every step of the run meets `C`. -/
theorem run_invariant_iff {I J : S → Prop} {C : S → A → Prop}
    (hJ : ∀ s a s', J s → step s a = .ok s' → J s')
    (hI : ∀ s a s', J s → I s → step s a = .ok s' → (I s' ↔ C s a)) {s s' : S} {as : List A}
    (hs : J s) (hstart : I s) (hrun : run step s as = .ok s') :
    (∀ bs t, bs <+: as → run step s bs = .ok t → I t) ↔ Meets step C s as := by
  induction as generalizing s with
  | nil =>
    refine iff_of_true (fun bs t hbs ht => ?_) trivial
    obtain rfl := List.prefix_nil.1 hbs
    exact Except.ok.inj ht ▸ hstart
  | cons a as ih =>
    obtain ⟨u, hu, hrest⟩ := run_cons_eq_ok hrun
    constructor
    · intro h
      have hIu : I u := h [a] u ⟨as, rfl⟩ (by rw [run, hu]; rfl)
      refine ⟨(hI s a u hs hstart hu).1 hIu, ?_⟩
      intro v hv
      obtain rfl := Except.ok.inj (hu.symm.trans hv)
      refine (ih (hJ s a u hs hu) hIu hrest).1 fun bs t hbs ht => ?_
      exact h (a :: bs) t (List.cons_prefix_cons.2 ⟨rfl, hbs⟩) (by rw [run, hu]; exact ht)
    · rintro ⟨hC, hmeets⟩ bs t hbs ht
      cases bs with
      | nil => exact Except.ok.inj ht ▸ hstart
      | cons b bs =>
        obtain ⟨rfl, hinit⟩ := List.cons_prefix_cons.1 hbs
        obtain ⟨v, hv, ht⟩ := run_cons_eq_ok ht
        obtain rfl := Except.ok.inj (hu.symm.trans hv)
        have hIu := (hI s b u hs hstart hu).2 hC
        exact (ih (hJ s b u hs hu) hIu hrest).2 (hmeets u hu) bs t hinit ht

/-- The check succeeds for every action of the run. -/
def checkRun (step : S → A → Except ε S) (check : S → A → Bool) : S → List A → Bool
  | _, [] => true
  | s, a :: as =>
    check s a &&
      match step s a with
      | .ok s' => checkRun step check s' as
      | .error _ => true

theorem meets_of_checkRun {check : S → A → Bool} {C : S → A → Prop}
    (hC : ∀ s a, check s a = true → C s a) {s : S} {as : List A}
    (h : checkRun step check s as = true) : Meets step C s as := by
  induction as generalizing s with
  | nil => trivial
  | cons a as ih =>
    rw [checkRun, Bool.and_eq_true] at h
    refine ⟨hC s a h.1, fun s' hs' => ih ?_⟩
    rw [hs'] at h
    exact h.2

/-- A check of the value that a computation returns. -/
def returns {α : Type*} (x : Except ε α) (check : α → Bool) : Bool :=
  match x with
  | .ok a => check a
  | .error _ => false

theorem exists_of_returns {α : Type*} {x : Except ε α} {check : α → Bool}
    (h : returns x check = true) : ∃ a, x = .ok a ∧ check a = true := by
  cases x with
  | ok a => exact ⟨a, rfl, h⟩
  | error e => cases h

/-! ## Runs of calls with answers -/

section Calls

variable {M R : Type*} {call : S → A → Except ε (R × S)} {spec : M → A → R × M} {e : ε}

/-- Make the calls in order and collect their answers. -/
def calls (call : S → A → Except ε (R × S)) : S → List A → Except ε (List R × S)
  | s, [] => .ok ([], s)
  | s, a :: as =>
    (call s a).bind fun r => (calls call r.2 as).bind fun rs => .ok (r.1 :: rs.1, rs.2)

/-- The answers and the last state of the abstract machine. -/
def specCalls (spec : M → A → R × M) : M → List A → List R × M
  | m, [] => ([], m)
  | m, a :: as =>
    ((spec m a).1 :: (specCalls spec (spec m a).2 as).1, (specCalls spec (spec m a).2 as).2)

theorem specCalls_append (m : M) (as as' : List A) : specCalls spec m (as ++ as') =
    ((specCalls spec m as).1 ++ (specCalls spec (specCalls spec m as).2 as').1,
      (specCalls spec (specCalls spec m as).2 as').2) := by
  induction as generalizing m with
  | nil => rfl
  | cons a as ih =>
    rw [List.cons_append, specCalls, ih]
    rfl

theorem specCalls_flatMap {B : Type*} (f : B → List A) (m : M) (bs : List B) :
    ((specCalls (fun m b => specCalls spec m (f b)) m bs).1.flatten,
      (specCalls (fun m b => specCalls spec m (f b)) m bs).2) =
        specCalls spec m (bs.flatMap f) := by
  induction bs generalizing m with
  | nil => rfl
  | cons b bs ih =>
    rw [List.flatMap_cons, specCalls_append, ← ih]
    rfl

theorem calls_ensures {I : S → Prop} (hcall : ∀ s a, I s → Ensures (call s a) fun r => I r.2)
    {s : S} (as : List A) (h : I s) : Ensures (calls call s as) fun r => I r.2 := by
  induction as generalizing s with
  | nil => exact Ensures.ok h
  | cons a as ih =>
    refine (hcall s a h).bind fun r hr => ?_
    exact (ih hr).bind fun rs hrs => Ensures.ok hrs

/-- **Calls with costs.** If each call keeps within its cost, a run keeps within the sum. -/
theorem calls_avoids {I : Nat → S → Prop} {cost : A → Nat}
    (hcall : ∀ n s a, I (n + cost a) s → Avoids e (call s a) fun r => I n r.2) {n : Nat} {s : S}
    (as : List A) (h : I (n + (as.map cost).sum) s) :
    Avoids e (calls call s as) fun r => I n r.2 := by
  induction as generalizing s with
  | nil => exact Avoids.ok h
  | cons a as ih =>
    rw [List.map_cons, List.sum_cons, Nat.add_comm (cost a), ← Nat.add_assoc] at h
    refine (hcall _ s a h).bind fun r hr => ?_
    exact (ih hr).bind fun rs hrs => Avoids.ok hrs

/-- **Simulation over runs.** -/
theorem simulation (Rep : S → M → Prop)
    (hcall : ∀ s m a, Rep s m →
      Excused e (call s a) fun r => r.1 = (spec m a).1 ∧ Rep r.2 (spec m a).2)
    {s : S} {m : M} (as : List A) (h : Rep s m) :
    Excused e (calls call s as) fun r =>
      r.1 = (specCalls spec m as).1 ∧ Rep r.2 (specCalls spec m as).2 := by
  induction as generalizing s m with
  | nil => exact Excused.ok ⟨rfl, h⟩
  | cons a as ih =>
    refine (hcall s m a h).bind fun r hr => ?_
    refine (ih hr.2).bind fun rs hrs => ?_
    exact Excused.ok ⟨by rw [hr.1, hrs.1]; rfl, hrs.2⟩

end Calls

/-! ## Runs of a relational specification -/

section Relational

variable {M R : Type*} {call : S → A → Except ε (R × S)} {spec : M → A → R → M → Prop} {e : ε}

/-- The specification allows these answers to the calls, and this last state. -/
inductive SpecRun (spec : M → A → R → M → Prop) : M → List A → List R → M → Prop
  | nil (m : M) : SpecRun spec m [] [] m
  | cons {m m' m'' : M} {a : A} {as : List A} {r : R} {rs : List R} (h : spec m a r m')
      (hrest : SpecRun spec m' as rs m'') : SpecRun spec m (a :: as) (r :: rs) m''

/-- **Simulation over runs**, of calls that meet a condition. -/
theorem simulation_rel {C : A → Prop} (Rep : S → M → Prop)
    (hcall : ∀ s m a, Rep s m → C a →
      Excused e (call s a) fun r => ∃ m', spec m a r.1 m' ∧ Rep r.2 m')
    {s : S} {m : M} {as : List A} (has : ∀ a ∈ as, C a) (h : Rep s m) :
    Excused e (calls call s as) fun r => ∃ m', SpecRun spec m as r.1 m' ∧ Rep r.2 m' := by
  induction as generalizing s m with
  | nil => exact Excused.ok ⟨m, SpecRun.nil m, h⟩
  | cons a as ih =>
    rw [List.forall_mem_cons] at has
    refine (hcall s m a h has.1).bind fun r hr => ?_
    obtain ⟨m', hspec, hrep⟩ := hr
    refine (ih has.2 hrep).bind fun rs hrs => ?_
    obtain ⟨m'', hrun, hrep'⟩ := hrs
    exact Excused.ok ⟨m'', SpecRun.cons hspec hrun, hrep'⟩

/-- A specification that is a function allows its own answers only. -/
theorem SpecRun.eq_specCalls {f : M → A → R × M} {m m' : M} {as : List A} {rs : List R}
    (h : SpecRun (fun m a r m' => (r, m') = f m a) m as rs m') : (rs, m') = specCalls f m as := by
  induction h with
  | nil m => rfl
  | cons h hrest ih =>
    rw [specCalls, ← h]
    dsimp only
    rw [← ih]

end Relational

end Run
