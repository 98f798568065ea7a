import Mathlib.Data.List.Basic

/-!
# Computations with a journal

A fallible computation that writes down what it does, in order. What was written before a failure
stays. `result` forgets the journal, and commutes with sequencing (`result_bind`), so an operation
with a journal can be compared with the one without.

`Keeps G h x Q` is a triple for journals: if `x` starts with the journal `h`, the property `G` holds
of the journal that it leaves, whether it returns or fails, and if it returns, so does `Q`.
`run_keeps` is the induction rule for runs whose steps meet a side condition.
-/

/-- A fallible computation and what it has written down. -/
structure Journal (ω ε α : Type) where
  entries : List ω
  result : Except ε α

namespace Journal

variable {ω ε α β : Type}

instance : Monad (Journal ω ε) where
  pure a := ⟨[], .ok a⟩
  bind x f :=
    match x.result with
    | .ok a => ⟨x.entries ++ (f a).entries, (f a).result⟩
    | .error e => ⟨x.entries, .error e⟩

/-- A computation that writes nothing down. -/
def lift (x : Except ε α) : Journal ω ε α := ⟨[], x⟩

/-- An entry. -/
def note (e : ω) : Journal ω ε Unit := ⟨[e], .ok ()⟩

variable {x : Journal ω ε α} {f : α → Journal ω ε β} {a : α}

@[simp] theorem entries_pure : (pure a : Journal ω ε α).entries = [] := rfl

@[simp] theorem result_pure : (pure a : Journal ω ε α).result = .ok a := rfl

@[simp] theorem entries_lift (y : Except ε α) : (lift y : Journal ω ε α).entries = [] := rfl

@[simp] theorem result_lift (y : Except ε α) : (lift y : Journal ω ε α).result = y := rfl

theorem bind_of_ok (h : x.result = .ok a) :
    (x >>= f) = ⟨x.entries ++ (f a).entries, (f a).result⟩ := by
  show (match x.result with | .ok a => _ | .error e => _) = _
  rw [h]

theorem bind_of_error {e : ε} (h : x.result = .error e) :
    (x >>= f) = ⟨x.entries, .error e⟩ := by
  show (match x.result with | .ok a => _ | .error e => _) = _
  rw [h]

/-- **The result does not depend on the journal.** -/
theorem result_bind : (x >>= f).result = x.result.bind fun a => (f a).result := by
  cases h : x.result with
  | ok a => rw [bind_of_ok h]; rfl
  | error e => rw [bind_of_error h]; rfl

@[simp] theorem lift_ok_bind : (lift (.ok a) >>= f : Journal ω ε β) = f a := bind_of_ok rfl

@[simp] theorem note_bind (e : ω) (g : Unit → Journal ω ε β) :
    (note e >>= g) = ⟨e :: (g ()).entries, (g ()).result⟩ := bind_of_ok rfl

theorem entries_bind_of_nil (hf : ∀ a, (f a).entries = []) : (x >>= f).entries = x.entries := by
  cases h : x.result with
  | ok a => rw [bind_of_ok h, hf, List.append_nil]
  | error e => rw [bind_of_error h]

theorem mem_entries_bind {e : ω} (he : e ∈ x.entries) : e ∈ (x >>= f).entries := by
  cases h : x.result with
  | ok a => rw [bind_of_ok h]; exact List.mem_append_left _ he
  | error err => rwa [bind_of_error h]

/-! ## Triples -/

section Keeps

variable {G : List ω → Prop} {h : List ω} {P Q : List ω → α → Prop} {R : List ω → β → Prop}

/-- Started with the journal `h`, the computation keeps `G` and returns with `Q`. -/
def Keeps (G : List ω → Prop) (h : List ω) (x : Journal ω ε α) (Q : List ω → α → Prop) : Prop :=
  G (h ++ x.entries) ∧ ∀ a, x.result = .ok a → Q (h ++ x.entries) a

theorem Keeps.pure (hG : G h) (hQ : Q h a) : Keeps G h (pure a : Journal ω ε α) Q := by
  rw [Keeps, entries_pure, List.append_nil]
  exact ⟨hG, fun b hb => Except.ok.inj hb ▸ hQ⟩

theorem Keeps.bind (hx : Keeps G h x P) (hf : ∀ h' a, G h' → P h' a → Keeps G h' (f a) R) :
    Keeps G h (x >>= f) R := by
  cases hr : x.result with
  | ok a =>
    have hfa := hf _ a hx.1 (hx.2 a hr)
    rw [bind_of_ok hr]
    rwa [Keeps, List.append_assoc] at hfa
  | error e =>
    rw [bind_of_error hr]
    exact ⟨hx.1, nofun⟩

end Keeps

/-! ## Runs -/

section Runs

variable {S A : Type} {step : S → A → Journal ω ε S} {C : List ω → S → A → Prop}
  {G : List ω → Prop} {I : List ω → S → Prop} {h : List ω} {s : S}

/-- Take the actions in order, stopping at the first failure. -/
def run (step : S → A → Journal ω ε S) : S → List A → Journal ω ε S
  | s, [] => pure s
  | s, a :: as => do run step (← step s a) as

/-- Every action of the run is taken in a state, and with a journal, that meet `C`. -/
def Meets (step : S → A → Journal ω ε S) (C : List ω → S → A → Prop) : List ω → S → List A → Prop
  | _, _, [] => True
  | h, s, a :: as =>
    C h s a ∧ ∀ s', (step s a).result = .ok s' → Meets step C (h ++ (step s a).entries) s' as

theorem meets_of_forall {as : List A} (hC : ∀ a ∈ as, ∀ h s, C h s a) : Meets step C h s as := by
  induction as generalizing h s with
  | nil => trivial
  | cons a as ih =>
    rw [List.forall_mem_cons] at hC
    exact ⟨hC.1 h s, fun _ _ => ih hC.2⟩

/-- **Induction over runs.** -/
theorem run_keeps (hstep : ∀ h s a, G h → I h s → C h s a → Keeps G h (step s a) I) {as : List A}
    (hG : G h) (hI : I h s) (hmeets : Meets step C h s as) : Keeps G h (run step s as) I := by
  induction as generalizing h s with
  | nil => exact Keeps.pure hG hI
  | cons a as ih =>
    have ha := hstep h s a hG hI hmeets.1
    have hfirst : Keeps G h (step s a) fun h' s' => I h' s' ∧ Meets step C h' s' as :=
      ⟨ha.1, fun s' hr => ⟨ha.2 s' hr, hmeets.2 s' hr⟩⟩
    exact hfirst.bind fun h' s' hG' hs' => ih hG' hs'.1 hs'.2

/-- **Exactness of a side condition.** If a step keeps `G` just when it meets `C`, then a run that
returns keeps `G` just when every step meets `C`. -/
theorem run_keeps_iff (hinit : ∀ h h', G (h ++ h') → G h)
    (hstep : ∀ h s a s', G h → I h s → (step s a).result = .ok s' →
      (G (h ++ (step s a).entries) ↔ C h s a) ∧ (C h s a → I (h ++ (step s a).entries) s'))
    {as : List A} {t : S} (hG : G h) (hI : I h s) (hrun : (run step s as).result = .ok t) :
    G (h ++ (run step s as).entries) ↔ Meets step C h s as := by
  induction as generalizing h s with
  | nil => exact iff_of_true (by rwa [run, entries_pure, List.append_nil]) trivial
  | cons a as ih =>
    cases hr : (step s a).result with
    | error e =>
      rw [run, bind_of_error hr] at hrun
      cases hrun
    | ok s' =>
      obtain ⟨hiff, hnext⟩ := hstep h s a s' hG hI hr
      rw [run, bind_of_ok hr] at hrun ⊢
      rw [← List.append_assoc]
      constructor
      · intro hall
        have ha := hinit _ _ hall
        have hC := hiff.1 ha
        refine ⟨hC, ?_⟩
        intro u hu
        obtain rfl := Except.ok.inj (hr.symm.trans hu)
        exact (ih ha (hnext hC) hrun).1 hall
      · rintro ⟨hC, hmeets⟩
        exact (ih (hiff.2 hC) (hnext hC) hrun).2 (hmeets s' hr)

end Runs

end Journal
