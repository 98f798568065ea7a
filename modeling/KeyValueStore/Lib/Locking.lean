import Mathlib.Data.List.Basic
import Mathlib.Data.Set.Basic
import Mathlib.Logic.Function.Basic
import Mathlib.Order.WellFounded

/-!
# Threads that take and release locks

Any number of threads run one program over a shared state and locks that are granted to many readers
or to one writer, and not twice to one thread that writes. Between two instructions of a thread the
others may run. A thread whose lock is not granted stays where it is, and so does one whose
instruction on the state fails: it may try again.

An `Outline` of a program says for each place in it which locks are held there and what is known
there of the state, such that every instruction from one place to the next bears it out. It holds of
all runs (`Outline.run`). If every place that takes a lock holds only locks of lower rank, then no
threads wait for each other (`Outline.not_deadlocked`).
-/

namespace Locking

inductive Mode
  | shared
  | exclusive
deriving DecidableEq

/-- An instruction, with the place it leads to. -/
inductive Instr (Lock Pc State ε : Type*)
  | acquire (l : Lock) (mode : Mode) (next : Pc)
  | release (l : Lock) (mode : Mode) (next : Pc)
  | exec (f : State → Except ε (Pc × State))

structure Config (Lock Pc State : Type*) where
  state : State
  pc : Nat → Pc
  /-- The threads that hold a lock. -/
  holders : Lock → List (Nat × Mode)

/-- Can the lock be taken, next to those who hold it? -/
def Grants (hs : List (Nat × Mode)) : Mode → Prop
  | .shared => ∀ h ∈ hs, h.2 = .shared
  | .exclusive => hs = []

instance (hs : List (Nat × Mode)) (mode : Mode) : Decidable (Grants hs mode) := by
  cases mode <;> unfold Grants <;> infer_instance

variable {Lock Pc State ε Choice : Type*} [DecidableEq Lock]

/-- Thread `a.1` takes its next instruction. The program may be given choices, here `a.2`. -/
def step (instr : Choice → Pc → Instr Lock Pc State ε) (σ : Config Lock Pc State)
    (a : Nat × Choice) : Config Lock Pc State :=
  match instr a.2 (σ.pc a.1) with
  | .acquire l mode next =>
    if Grants (σ.holders l) mode then
      { σ with
        pc := Function.update σ.pc a.1 next
        holders := Function.update σ.holders l ((a.1, mode) :: σ.holders l) }
    else σ
  | .release l mode next =>
    { σ with
      pc := Function.update σ.pc a.1 next
      holders := Function.update σ.holders l ((σ.holders l).erase (a.1, mode)) }
  | .exec f =>
    match f σ.state with
    | .ok (next, s) => { σ with state := s, pc := Function.update σ.pc a.1 next }
    | .error _ => σ

/-- The instructions of an interleaving, in order. -/
def run (instr : Choice → Pc → Instr Lock Pc State ε) :
    Config Lock Pc State → List (Nat × Choice) → Config Lock Pc State :=
  List.foldl (step instr)

/-- A writer among the holders of a lock is the only one. -/
def Alone (hs : List (Nat × Mode)) : Prop := ∀ t, (t, Mode.exclusive) ∈ hs → hs = [(t, .exclusive)]

theorem Grants.alone {hs : List (Nat × Mode)} {mode : Mode} (h : Grants hs mode) (t : Nat) :
    Alone ((t, mode) :: hs) := by
  intro t' ht'
  cases mode with
  | shared =>
    rcases List.mem_cons.1 ht' with hhead | htail
    · cases hhead
    · cases h _ htail
  | exclusive =>
    rw [show hs = [] from h] at ht' ⊢
    rw [List.mem_singleton.1 ht']

theorem Alone.erase {hs : List (Nat × Mode)} (h : Alone hs) (x : Nat × Mode) :
    Alone (hs.erase x) := by
  intro t ht
  have hall := h t (List.mem_of_mem_erase ht)
  rw [hall] at ht ⊢
  by_cases hx : x = (t, .exclusive)
  · rw [hx, List.erase_cons_head] at ht
    cases ht
  · exact List.erase_of_not_mem fun hm => hx (List.mem_singleton.1 hm)

theorem alone_update {holders : Lock → List (Nat × Mode)} (h : ∀ l, Alone (holders l)) {l : Lock}
    {hs : List (Nat × Mode)} (hs' : Alone hs) (l' : Lock) :
    Alone (Function.update holders l hs l') := by
  by_cases hl : l' = l
  · rwa [hl, Function.update_self]
  · rw [Function.update_of_ne hl]
    exact h l'

theorem step_alone {instr : Choice → Pc → Instr Lock Pc State ε} {σ : Config Lock Pc State}
    (h : ∀ l, Alone (σ.holders l)) (a : Nat × Choice) (l : Lock) :
    Alone ((step instr σ a).holders l) := by
  rw [step]
  cases instr a.2 (σ.pc a.1) with
  | acquire l' mode next =>
    dsimp only
    split_ifs with hgrants
    · exact alone_update h (hgrants.alone a.1) l
    · exact h l
  | release l' mode next => exact alone_update h ((h l').erase _) l
  | exec f =>
    dsimp only
    cases f σ.state with
    | error e => exact h l
    | ok r => exact h l

/-- **A writer holds its lock alone.** -/
theorem run_alone {instr : Choice → Pc → Instr Lock Pc State ε} {σ : Config Lock Pc State}
    (h : ∀ l, Alone (σ.holders l)) (as : List (Nat × Choice)) (l : Lock) :
    Alone ((run instr σ as).holders l) := by
  induction as generalizing σ with
  | nil => exact h l
  | cons a as ih => exact ih (step_alone h a)

/-! ## Deadlocks -/

/-- The next instruction of thread `t` takes the lock `l`, if it is granted. -/
def Wants (instr : Choice → Pc → Instr Lock Pc State ε) (σ : Config Lock Pc State) (t : Nat)
    (l : Lock) : Prop := ∃ c mode next, instr c (σ.pc t) = .acquire l mode next

def HeldBy (σ : Config Lock Pc State) (l : Lock) (t : Nat) : Prop := ∃ mode, (t, mode) ∈ σ.holders l

/-- Each thread of the set waits for a lock that a thread of the set holds. -/
def Deadlocked (instr : Choice → Pc → Instr Lock Pc State ε) (σ : Config Lock Pc State)
    (S : Set Nat) : Prop :=
  S.Nonempty ∧ ∀ t ∈ S, ∃ l, Wants instr σ t l ∧ ∃ t' ∈ S, HeldBy σ l t'

/-! ## Outlines -/

/-- What is known at each place of a program. -/
structure Outline (instr : Choice → Pc → Instr Lock Pc State ε) where
  /-- The locks held at a place. -/
  held : Pc → List (Lock × Mode)
  /-- What is always known of the state. -/
  Inv : State → Prop
  /-- What is known at a place. -/
  Ok : State → Pc → Prop
  /-- What an instruction may do to the state. -/
  Rel : State → State → Prop
  ok_mono : ∀ {s s' pc}, Rel s s' → Ok s pc → Ok s' pc
  acquire : ∀ {s c pc l mode next}, Inv s → Ok s pc → instr c pc = .acquire l mode next →
    held next = (l, mode) :: held pc ∧ Ok s next
  release : ∀ {s c pc l mode next}, Inv s → Ok s pc → instr c pc = .release l mode next →
    (held pc).Perm ((l, mode) :: held next) ∧ Ok s next
  exec : ∀ {s c pc f next s'}, Inv s → Ok s pc → instr c pc = .exec f → f s = .ok (next, s') →
    held next = held pc ∧ Inv s' ∧ Rel s s' ∧ Ok s' next

namespace Outline

variable {instr : Choice → Pc → Instr Lock Pc State ε} {σ : Config Lock Pc State}

/-- The outline is true of a configuration. -/
structure Holds (O : Outline instr) (σ : Config Lock Pc State) : Prop where
  inv : O.Inv σ.state
  ok : ∀ t, O.Ok σ.state (σ.pc t)
  held : ∀ t l mode, (σ.holders l).count (t, mode) = (O.held (σ.pc t)).count (l, mode)

variable {O : Outline instr}

theorem Holds.start {s : State} {pc : Nat → Pc} (hinv : O.Inv s) (hok : ∀ t, O.Ok s (pc t))
    (hheld : ∀ t, O.held (pc t) = []) : O.Holds ⟨s, pc, fun _ => []⟩ :=
  ⟨hinv, hok, fun t l mode => by rw [hheld]; rfl⟩

theorem Holds.goto (h : O.Holds σ) {t : Nat} {next : Pc} {s : State}
    {holders : Lock → List (Nat × Mode)} (hinv : O.Inv s) (hok : O.Ok s next)
    (hother : ∀ t', t' ≠ t → O.Ok s (σ.pc t'))
    (hself : ∀ l mode, (holders l).count (t, mode) = (O.held next).count (l, mode))
    (hothers : ∀ t', t' ≠ t → ∀ l mode,
      (holders l).count (t', mode) = (σ.holders l).count (t', mode)) :
    O.Holds ⟨s, Function.update σ.pc t next, holders⟩ := by
  refine ⟨hinv, ?_, ?_⟩
  · intro t'
    by_cases ht : t' = t
    · simpa only [ht, Function.update_self] using hok
    · simpa only [Function.update_of_ne ht] using hother t' ht
  · intro t' l mode
    by_cases ht : t' = t
    · simpa only [ht, Function.update_self] using hself l mode
    · simpa only [Function.update_of_ne ht] using (hothers t' ht l mode).trans (h.held t' l mode)

/-- The table of holders after one of them came or went. -/
theorem count_update {holders : Lock → List (Nat × Mode)} {l : Lock} {hs : List (Nat × Mode)}
    {t : Nat} (mode : Mode) {held held' : List (Lock × Mode)}
    (hcount : ∀ l mode, (holders l).count (t, mode) = held.count (l, mode))
    (hself : hs.count (t, mode) = held'.count (l, mode))
    (hmode : ∀ mode', mode' ≠ mode → hs.count (t, mode') = (holders l).count (t, mode'))
    (hheld : ∀ x, x ≠ (l, mode) → held'.count x = held.count x) (l' : Lock) (mode' : Mode) :
    (Function.update holders l hs l').count (t, mode') = held'.count (l', mode') := by
  by_cases hl : l' = l
  · rw [hl, Function.update_self]
    by_cases hm : mode' = mode
    · rw [hm, hself]
    · rw [hmode mode' hm, hcount, hheld _ fun he => hm (congrArg Prod.snd he)]
  · rw [Function.update_of_ne hl, hcount, hheld _ fun he => hl (congrArg Prod.fst he)]

theorem count_update_of_ne {holders : Lock → List (Nat × Mode)} {l : Lock}
    {hs : List (Nat × Mode)} {t' : Nat}
    (hs' : ∀ mode, hs.count (t', mode) = (holders l).count (t', mode)) (l' : Lock) (mode : Mode) :
    (Function.update holders l hs l').count (t', mode) = (holders l').count (t', mode) := by
  by_cases hl : l' = l
  · rw [hl, Function.update_self, hs']
  · rw [Function.update_of_ne hl]

/-- **One instruction.** -/
theorem Holds.step (h : O.Holds σ) (a : Nat × Choice) : O.Holds (Locking.step instr σ a) := by
  obtain ⟨t, c⟩ := a
  rw [Locking.step]
  cases hi : instr c (σ.pc t) with
  | acquire l mode next =>
    obtain ⟨hheld, hok⟩ := O.acquire h.inv (h.ok t) hi
    dsimp only
    split_ifs
    · refine h.goto h.inv hok (fun t' _ => h.ok t') ?_ fun t' ht => ?_
      · refine count_update mode (h.held t) ?_ (fun mode' hm => ?_) fun x hx => ?_
        · rw [hheld, List.count_cons_self, List.count_cons_self, h.held]
        · exact List.count_cons_of_ne fun he => hm (congrArg Prod.snd he).symm
        · rw [hheld, List.count_cons_of_ne hx.symm]
      · exact count_update_of_ne fun mode' =>
          List.count_cons_of_ne fun he => ht (congrArg Prod.fst he).symm
    · exact h
  | release l mode next =>
    obtain ⟨hperm, hok⟩ := O.release h.inv (h.ok t) hi
    dsimp only
    refine h.goto h.inv hok (fun t' _ => h.ok t') ?_ fun t' ht => ?_
    · refine count_update mode (h.held t) ?_ (fun mode' hm => ?_) fun x hx => ?_
      · rw [List.count_erase_self, h.held, hperm.count_eq, List.count_cons_self]
        rfl
      · exact List.count_erase_of_ne fun he => hm (congrArg Prod.snd he)
      · rw [hperm.count_eq, List.count_cons_of_ne hx.symm]
    · exact count_update_of_ne fun mode' =>
        List.count_erase_of_ne fun he => ht (congrArg Prod.fst he)
  | exec f =>
    dsimp only
    cases hf : f σ.state with
    | error e => exact h
    | ok r =>
      obtain ⟨hheld, hinv, hrel, hok⟩ := O.exec h.inv (h.ok t) hi hf
      refine h.goto hinv hok (fun t' _ => O.ok_mono hrel (h.ok t')) (fun l mode => ?_)
        fun t' _ l mode => rfl
      rw [hheld]
      exact h.held t l mode

/-- **Every interleaving.** -/
theorem Holds.run (h : O.Holds σ) (as : List (Nat × Choice)) :
    O.Holds (Locking.run instr σ as) := by
  induction as generalizing σ with
  | nil => exact h
  | cons a as ih => exact ih (h.step a)

/-- What instructions may do to the state, interleavings may. -/
theorem Holds.rel (hrefl : ∀ s, O.Rel s s) (htrans : ∀ {s₁ s₂ s₃}, O.Rel s₁ s₂ → O.Rel s₂ s₃ →
    O.Rel s₁ s₃) (h : O.Holds σ) (as : List (Nat × Choice)) :
    O.Rel σ.state (Locking.run instr σ as).state := by
  induction as generalizing σ with
  | nil => exact hrefl _
  | cons a as ih =>
    refine htrans ?_ (ih (h.step a))
    obtain ⟨t, c⟩ := a
    rw [Locking.step]
    cases hi : instr c (σ.pc t) with
    | acquire l mode next =>
      dsimp only
      split_ifs <;> exact hrefl _
    | release l mode next => exact hrefl _
    | exec f =>
      dsimp only
      cases hf : f σ.state with
      | error e => exact hrefl _
      | ok r => exact (O.exec h.inv (h.ok t) hi hf).2.2.1

theorem Holds.mem_held (h : O.Holds σ) {t : Nat} {l : Lock} (hl : HeldBy σ l t) :
    ∃ mode, (l, mode) ∈ O.held (σ.pc t) := by
  obtain ⟨mode, hmem⟩ := hl
  refine ⟨mode, List.count_pos_iff.1 ?_⟩
  rw [← h.held]
  exact List.count_pos_iff.2 hmem

/-- **Locks that are taken by rank.** If every place that takes a lock holds only locks of a lower
rank, no set of threads is deadlocked: one of its threads would wait for a lock of highest rank, and
the thread of the set that holds it for a higher one. -/
theorem Holds.not_deadlocked {ρ : Type*} [Preorder ρ] [WellFoundedGT ρ] (rank : Lock → ρ)
    (hrank : ∀ {s c pc l mode next}, O.Inv s → O.Ok s pc → instr c pc = .acquire l mode next →
      ∀ x ∈ O.held pc, rank x.1 < rank l)
    (h : O.Holds σ) (S : Set Nat) : ¬ Deadlocked instr σ S := by
  rintro ⟨⟨t₀, ht₀⟩, hall⟩
  let awaited : Set ρ := {r | ∃ t ∈ S, ∃ l, rank l = r ∧ Wants instr σ t l ∧
    ∃ t' ∈ S, HeldBy σ l t'}
  have hne : awaited.Nonempty := by
    obtain ⟨l, hl⟩ := hall t₀ ht₀
    exact ⟨rank l, t₀, ht₀, l, rfl, hl⟩
  obtain ⟨r, ⟨t, -, l, rfl, -, t', ht', hheld⟩, hmax⟩ :=
    (wellFounded_gt (α := ρ)).has_min awaited hne
  obtain ⟨l', hwants, hheld'⟩ := hall t' ht'
  obtain ⟨c, mode, next, hi⟩ := hwants
  obtain ⟨mode', hmem⟩ := h.mem_held hheld
  exact hmax (rank l') ⟨t', ht', l', rfl, ⟨c, mode, next, hi⟩, hheld'⟩
    (hrank h.inv (h.ok t') hi _ hmem)

end Outline

end Locking
