import KeyValueStore.AutoTest

/-!
# `PythonClientRequestsGenerator.py`

The program asks for the length of keys and values and for the number `n` of requests, draws the
requests at random and prints them as a request file. The first fifth of them are PUTs of new keys;
afterwards the keys of GETs and DELs are taken from the PUTs made so far. So all depends on there
being one: with less than five requests the list is empty at first, and `random.choice` fails unless
a new key is drawn (`addRequest_nil`).

The random numbers are a parameter, and every result is one for all of them. The product
`n*initial_put` is rounded; up to `2^50` requests its integer part is `n / 5`.
-/

namespace KeyValueStore

open Run TextStream Words PythonSolutionsGenerator

set_option maxRecDepth 4096

namespace PythonClientRequestsGenerator

/-! ## The program -/

/-- The random numbers still to be drawn. -/
abbrev Draws := Nat → Nat

/-- `random.choice(seq)`. `none` where `seq` is empty. -/
def choice {α : Type} (seq : List α) (draws : Draws) : Option (α × Draws) :=
  seq[draws 0 % seq.length]?.map fun a => (a, fun i => draws (i + 1))

/-- `string.ascii_uppercase + string.ascii_lowercase + string.digits` -/
def char : List UInt8 :=
  ascii "ABCDEFGHIJKLMNOPQRSTUVWXYZabcdefghijklmnopqrstuvwxyz0123456789"

def getCode : (length : Nat) → Draws → Option (List UInt8 × Draws)
  | 0, draws => some ([], draws)
  | length + 1, draws => do
    let (c, draws) ← choice char draws
    let (code, draws) ← getCode length draws
    return (c :: code, draws)

/-- The lists `req_put` and `req`. The lists of GETs and DELs are not used. -/
structure Requests where
  reqPut : List FileRequest
  req : List FileRequest

/-- A PUT is added to both lists. -/
def Requests.addPut (s : Requests) (rchoice : FileRequest) : Requests :=
  ⟨s.reqPut ++ [rchoice], s.req ++ [rchoice]⟩

/-- Another request is added to one. -/
def Requests.addOther (s : Requests) (rchoice : FileRequest) : Requests :=
  ⟨s.reqPut, s.req ++ [rchoice]⟩

def newPut (kvlen : Nat) (draws : Draws) : Option (FileRequest × Draws) := do
  let (k, draws) ← getCode kvlen draws
  let (v, draws) ← getCode kvlen draws
  return (.put k v, draws)

/-- One turn of the first loop. -/
def addInitialPut (kvlen : Nat) (s : Requests) (draws : Draws) : Option (Requests × Draws) := do
  let (rchoice, draws) ← newPut kvlen draws
  return (s.addPut rchoice, draws)

/-- A PUT of a new key, or one made before. -/
def drawPut (kvlen : Nat) (reqPut : List FileRequest) (draws : Draws) :
    Option (FileRequest × Draws) := do
  let (new, draws) ← choice [0, 1] draws
  if new = 1 then newPut kvlen draws else choice reqPut draws

/-- One turn of the second loop. -/
def addRequest (kvlen : Nat) (s : Requests) (draws : Draws) : Option (Requests × Draws) := do
  let (ch, draws) ← choice [1, 2, 3] draws
  if ch = 1 then
    let (put, draws) ← choice s.reqPut draws
    return (s.addOther (.get put.key), draws)
  else if ch = 2 then
    let (rchoice, draws) ← drawPut kvlen s.reqPut draws
    return (s.addPut rchoice, draws)
  else
    let (put, draws) ← choice s.reqPut draws
    return (s.addOther (.delete put.key), draws)

/-- `for i in range(turns)` -/
def forRange (turn : Requests → Draws → Option (Requests × Draws)) :
    (turns : Nat) → Requests → Draws → Option (Requests × Draws)
  | 0, s, draws => some (s, draws)
  | turns + 1, s, draws => do
    let (s, draws) ← turn s draws
    forRange turn turns s draws

/-- `int(n*initial_put)` -/
def initialPuts (n : Nat) : Nat := n / 5

/-- The list `req` at the end. -/
def generateRequests (kvlen n : Nat) (draws : Draws) : Option (List FileRequest) := do
  let (s, draws) ← forRange (addInitialPut kvlen) (initialPuts n) ⟨[], []⟩ draws
  let (s, _) ← forRange (addRequest kvlen) (n - initialPuts n) s draws
  return s.req

/-- What is printed. -/
def printRequests (n : Nat) (req : List FileRequest) : List UInt8 :=
  (render n :: req.map fun i => (ascii " ").intercalate i.words).flatMap (· ++ [10])

/-- The request file. -/
def run (kvlen n : Nat) (draws : Draws) : Option (List UInt8) :=
  (generateRequests kvlen n draws).map (printRequests n)

/-! ## Draws -/

variable {kvlen n : Nat} {s : Requests} {draws : Draws} {α : Type} {seq : List α}

theorem choice_spec (h : seq ≠ []) (draws : Draws) :
    ∃ a draws', choice seq draws = some (a, draws') ∧ a ∈ seq := by
  have hlt : draws 0 % seq.length < seq.length := Nat.mod_lt _ (List.length_pos_iff.2 h)
  refine ⟨seq[draws 0 % seq.length], fun i => draws (i + 1), ?_, List.getElem_mem hlt⟩
  rw [choice, List.getElem?_eq_getElem hlt]
  rfl

@[simp] theorem choice_nil (draws : Draws) : choice ([] : List α) draws = none := rfl

/-- A word of letters and digits. -/
def IsCode (kvlen : Nat) (w : List UInt8) : Prop := w.length = kvlen ∧ ∀ c ∈ w, c ∈ char

theorem getCode_spec (kvlen : Nat) (draws : Draws) :
    ∃ code draws', getCode kvlen draws = some (code, draws') ∧ IsCode kvlen code := by
  induction kvlen generalizing draws with
  | zero => exact ⟨[], draws, rfl, rfl, nofun⟩
  | succ kvlen ih =>
    obtain ⟨c, draws₁, hc, hmem⟩ := choice_spec (show char ≠ [] by decide) draws
    obtain ⟨code, draws₂, hcode, hlen, hall⟩ := ih draws₁
    refine ⟨c :: code, draws₂, ?_, congrArg (· + 1) hlen, List.forall_mem_cons.2 ⟨hmem, hall⟩⟩
    rw [getCode, hc]
    show (getCode kvlen draws₁).bind _ = _
    rw [hcode]
    rfl

theorem newPut_spec (kvlen : Nat) (draws : Draws) : ∃ k v draws',
    newPut kvlen draws = some (.put k v, draws') ∧ IsCode kvlen k ∧ IsCode kvlen v := by
  obtain ⟨k, draws₁, hk, hkcode⟩ := getCode_spec kvlen draws
  obtain ⟨v, draws₂, hv, hvcode⟩ := getCode_spec kvlen draws₁
  refine ⟨k, v, draws₂, ?_, hkcode, hvcode⟩
  rw [newPut, hk]
  show (getCode kvlen draws₁).bind _ = _
  rw [hv]
  rfl

/-! ## One turn -/

/-- A turn of the second loop draws a PUT, of a new key. -/
def DrawsNewPut (draws : Draws) : Prop := draws 0 % 3 = 1 ∧ draws 1 % 2 = 1

instance (draws : Draws) : Decidable (DrawsNewPut draws) :=
  inferInstanceAs (Decidable (_ ∧ _))

/-- What a turn of either loop does to the lists. -/
inductive Adds (kvlen : Nat) (s : Requests) : Requests → Prop
  | get {put : FileRequest} (h : put ∈ s.reqPut) : Adds kvlen s (s.addOther (.get put.key))
  | newPut {k v : List UInt8} (hk : IsCode kvlen k) (hv : IsCode kvlen v) :
    Adds kvlen s (s.addPut (.put k v))
  | oldPut {put : FileRequest} (h : put ∈ s.reqPut) : Adds kvlen s (s.addPut put)
  | delete {put : FileRequest} (h : put ∈ s.reqPut) : Adds kvlen s (s.addOther (.delete put.key))

theorem addInitialPut_spec (kvlen : Nat) (s : Requests) (draws : Draws) : ∃ s' draws',
    addInitialPut kvlen s draws = some (s', draws') ∧ Adds kvlen s s' := by
  obtain ⟨k, v, draws', hput, hk, hv⟩ := newPut_spec kvlen draws
  refine ⟨_, draws', ?_, .newPut hk hv⟩
  rw [addInitialPut, hput]
  rfl

/-- **A turn of the second loop** succeeds where a PUT has been made. -/
theorem addRequest_spec (h : s.reqPut ≠ []) (kvlen : Nat) (draws : Draws) : ∃ s' draws',
    addRequest kvlen s draws = some (s', draws') ∧ Adds kvlen s s' := by
  obtain ⟨ch, draws₁, hch, -⟩ := choice_spec (show [1, 2, 3] ≠ [] by decide) draws
  obtain ⟨put, draws₂, hput, hmem⟩ := choice_spec h draws₁
  rw [addRequest, hch]
  by_cases hget : ch = 1
  · refine ⟨_, draws₂, ?_, .get hmem⟩
    show (if ch = 1 then _ else _) = _
    rw [if_pos hget, hput]
    rfl
  by_cases hnew : ch = 2
  · obtain ⟨rchoice, draws₃, hchoice, hadds⟩ : ∃ rchoice draws₃,
        drawPut kvlen s.reqPut draws₁ = some (rchoice, draws₃) ∧
          Adds kvlen s (s.addPut rchoice) := by
      obtain ⟨new, draws₂, hnew, -⟩ := choice_spec (show [0, 1] ≠ [] by decide) draws₁
      rw [drawPut, hnew]
      by_cases hone : new = 1
      · obtain ⟨k, v, draws₃, hput, hk, hv⟩ := newPut_spec kvlen draws₂
        exact ⟨_, draws₃, (if_pos hone).trans hput, .newPut hk hv⟩
      · obtain ⟨put, draws₃, hput, hmem⟩ := choice_spec h draws₂
        exact ⟨put, draws₃, (if_neg hone).trans hput, .oldPut hmem⟩
    refine ⟨_, draws₃, ?_, hadds⟩
    show (if ch = 1 then _ else _) = _
    rw [if_neg hget, if_pos hnew, hchoice]
    rfl
  · refine ⟨_, draws₂, ?_, .delete hmem⟩
    show (if ch = 1 then _ else _) = _
    rw [if_neg hget, if_neg hnew, hput]
    rfl

theorem choice_three (draws : Draws) :
    choice [1, 2, 3] draws = some (draws 0 % 3 + 1, fun i => draws (i + 1)) := by
  rw [choice]
  show ([1, 2, 3][draws 0 % 3]?).map _ = _
  have hlt := Nat.mod_lt (draws 0) (show 3 > 0 by decide)
  generalize draws 0 % 3 = k at hlt
  interval_cases k <;> rfl

theorem choice_two (draws : Draws) :
    choice [0, 1] draws = some (draws 0 % 2, fun i => draws (i + 1)) := by
  rw [choice]
  show ([0, 1][draws 0 % 2]?).map _ = _
  have hlt := Nat.mod_lt (draws 0) (show 2 > 0 by decide)
  generalize draws 0 % 2 = k at hlt
  interval_cases k <;> rfl

theorem drawPut_eq (kvlen : Nat) (reqPut : List FileRequest) (draws : Draws) :
    drawPut kvlen reqPut draws =
      if draws 0 % 2 = 1 then newPut kvlen fun i => draws (i + 1)
      else choice reqPut fun i => draws (i + 1) := by
  rw [drawPut, choice_two]
  rfl

/-- **Before the first PUT** it succeeds only by drawing a new one. -/
theorem addRequest_nil (h : s.reqPut = []) (kvlen : Nat) (draws : Draws) :
    if DrawsNewPut draws then
      ∃ s' draws', addRequest kvlen s draws = some (s', draws') ∧ Adds kvlen s s'
    else addRequest kvlen s draws = none := by
  rw [addRequest, choice_three]
  split_ifs with hdraws
  · obtain ⟨k, v, draws', hput, hk, hv⟩ := newPut_spec kvlen fun i => draws (i + 2)
    refine ⟨_, draws', ?_, .newPut hk hv⟩
    show (if draws 0 % 3 + 1 = 1 then _ else _) = _
    rw [if_neg (by have := hdraws.1; omega), if_pos (by have := hdraws.1; omega), drawPut_eq,
      if_pos hdraws.2, hput]
    rfl
  · show (if draws 0 % 3 + 1 = 1 then _ else _) = _
    rw [h, choice_nil]
    split_ifs with hget hnew
    · rfl
    · have hone : ¬ draws 1 % 2 = 1 := fun hone => hdraws ⟨by omega, hone⟩
      rw [drawPut_eq, if_neg hone, choice_nil]
      rfl
    · rfl

/-! ## The lists -/

/-- Every key that is asked for or deleted has been put before. -/
def PutBefore (reqs : List FileRequest) : Prop :=
  ∀ i r, reqs[i]? = some r → r.putValue = none → ∃ value, .put r.key value ∈ reqs.take i

/-- What holds of the lists while `req` grows. -/
structure Drawn (kvlen n : Nat) (s : Requests) : Prop where
  length : s.req.length = n
  puts : ∀ r ∈ s.reqPut, r ∈ s.req ∧ ∃ k v, r = .put k v
  started : s.reqPut = [] → s.req = []
  codes : ∀ r ∈ s.req, ∀ w ∈ r.words.tail, IsCode kvlen w
  asked : PutBefore s.req

theorem PutBefore.concat {reqs : List FileRequest} {r : FileRequest} (h : PutBefore reqs)
    (hr : r.putValue = none → ∃ value, .put r.key value ∈ reqs) : PutBefore (reqs ++ [r]) := by
  intro i r' hi hget
  rcases lt_trichotomy i reqs.length with hlt | rfl | hgt
  · rw [List.getElem?_append_left hlt] at hi
    rw [List.take_append_of_le_length hlt.le]
    exact h i r' hi hget
  · rw [List.getElem?_append_right (Nat.le_refl _), Nat.sub_self] at hi
    obtain rfl : r = r' := Option.some.inj hi
    rw [List.take_append_of_le_length (Nat.le_refl _), List.take_length]
    exact hr hget
  · rw [List.getElem?_eq_none (by rw [List.length_append, List.length_singleton]; omega)] at hi
    cases hi

theorem Drawn.empty (kvlen : Nat) : Drawn kvlen 0 ⟨[], []⟩ :=
  ⟨rfl, nofun, fun _ => rfl, nofun, fun _ _ hi => by cases hi⟩

theorem Drawn.addOther {r put : FileRequest} (h : Drawn kvlen n s) (hput : put ∈ s.reqPut)
    (hkey : r.key = put.key) (hwords : r.words.tail = [r.key]) :
    Drawn kvlen (n + 1) (s.addOther r) := by
  obtain ⟨hmem, k, v, rfl⟩ := h.puts put hput
  refine ⟨?_, fun p hp => ⟨List.mem_append_left _ (h.puts p hp).1, (h.puts p hp).2⟩,
    fun hnil => absurd hput (by rw [show s.reqPut = [] from hnil]; exact List.not_mem_nil),
    ?_, h.asked.concat fun _ => ⟨v, hkey ▸ hmem⟩⟩
  · exact (List.length_append ..).trans (congrArg (· + 1) h.length)
  · refine List.forall_mem_append.2 ⟨h.codes, List.forall_mem_singleton.2 ?_⟩
    rw [hwords, hkey, List.forall_mem_singleton]
    exact h.codes _ hmem k (by simp [FileRequest.words])

theorem Drawn.addPut {k v : List UInt8} (h : Drawn kvlen n s) (hk : IsCode kvlen k)
    (hv : IsCode kvlen v) : Drawn kvlen (n + 1) (s.addPut (.put k v)) := by
  refine ⟨?_, ?_, fun hnil => absurd hnil (List.concat_ne_nil _ _), ?_, h.asked.concat nofun⟩
  · exact (List.length_append ..).trans (congrArg (· + 1) h.length)
  · refine List.forall_mem_append.2 ⟨fun p hp => ?_, List.forall_mem_singleton.2 ?_⟩
    · exact ⟨List.mem_append_left _ (h.puts p hp).1, (h.puts p hp).2⟩
    · exact ⟨List.mem_append_right _ (List.mem_singleton_self _), k, v, rfl⟩
  · refine List.forall_mem_append.2 ⟨h.codes, List.forall_mem_singleton.2 ?_⟩
    exact List.forall_mem_cons.2 ⟨hk, List.forall_mem_singleton.2 hv⟩

/-- **One turn.** -/
theorem Drawn.adds {s' : Requests} (h : Drawn kvlen n s) (hadds : Adds kvlen s s') :
    Drawn kvlen (n + 1) s' := by
  cases hadds with
  | get hput => exact h.addOther hput rfl rfl
  | newPut hk hv => exact h.addPut hk hv
  | oldPut hput =>
    obtain ⟨hmem, k, v, rfl⟩ := h.puts _ hput
    exact h.addPut (h.codes _ hmem k (by simp [FileRequest.words]))
      (h.codes _ hmem v (by simp [FileRequest.words]))
  | delete hput => exact h.addOther hput rfl rfl

/-- **A loop** whose turns succeed from some number of requests on. -/
theorem forRange_spec (turn : Requests → Draws → Option (Requests × Draws)) {least : Nat}
    (hturn : ∀ n s draws, least ≤ n → Drawn kvlen n s →
      ∃ s' draws', turn s draws = some (s', draws') ∧ Adds kvlen s s')
    (turns : Nat) (hn : least ≤ n) (h : Drawn kvlen n s) (draws : Draws) :
    ∃ s' draws', forRange turn turns s draws = some (s', draws') ∧
      Drawn kvlen (n + turns) s' := by
  induction turns generalizing n s draws with
  | zero => exact ⟨s, draws, rfl, h⟩
  | succ turns ih =>
    obtain ⟨s₁, draws₁, hone, hadds⟩ := hturn n s draws hn h
    obtain ⟨s₂, draws₂, hrest, h₂⟩ := ih (Nat.le_succ_of_le hn) (h.adds hadds) draws₁
    rw [forRange, hone]
    exact ⟨s₂, draws₂, hrest, by rwa [Nat.succ_add_eq_add_succ] at h₂⟩

theorem initialPuts_loop (kvlen n : Nat) (draws : Draws) : ∃ s draws',
    forRange (addInitialPut kvlen) (initialPuts n) ⟨[], []⟩ draws = some (s, draws') ∧
      Drawn kvlen (initialPuts n) s := by
  obtain ⟨s, draws', hloop, h⟩ := forRange_spec (addInitialPut kvlen)
    (fun _ s draws _ _ => addInitialPut_spec kvlen s draws) (initialPuts n) (Nat.zero_le 0)
    (.empty kvlen) draws
  exact ⟨s, draws', hloop, by rwa [Nat.zero_add] at h⟩

theorem requests_loop (hn : 1 ≤ n) (h : Drawn kvlen n s) (turns : Nat) (draws : Draws) :
    ∃ s' draws', forRange (addRequest kvlen) turns s draws = some (s', draws') ∧
      Drawn kvlen (n + turns) s' := by
  refine forRange_spec _ (fun n s draws hn h => addRequest_spec ?_ kvlen draws) turns hn h draws
  intro hnil
  have hlen := h.length
  rw [h.started hnil, List.length_nil] at hlen
  omega

/-- The program fails before its first request. -/
def FailsAtFirst (n : Nat) (draws : Draws) : Prop := 0 < n ∧ n < 5 ∧ ¬ DrawsNewPut draws

instance (n : Nat) (draws : Draws) : Decidable (FailsAtFirst n draws) :=
  inferInstanceAs (Decidable (_ ∧ _ ∧ _))

/-- **The requests**, if the program does not fail. -/
theorem generateRequests_spec (kvlen n : Nat) (draws : Draws) :
    if FailsAtFirst n draws then generateRequests kvlen n draws = none
    else ∃ s, generateRequests kvlen n draws = some s.req ∧ Drawn kvlen n s := by
  obtain ⟨s, draws₁, hloop, h⟩ := initialPuts_loop kvlen n draws
  have hle : initialPuts n ≤ n := Nat.div_le_self n 5
  -- with an initial PUT there is always a key to choose; without one the first turn must put one
  by_cases hstart : 1 ≤ initialPuts n
  · obtain ⟨s', draws₂, hrest, h'⟩ := requests_loop hstart h (n - initialPuts n) draws₁
    have hnot : ¬ FailsAtFirst n draws := by
      intro hfails
      have := hfails.2.1
      rw [initialPuts] at hstart
      omega
    rw [if_neg hnot, generateRequests, hloop]
    rw [Nat.add_sub_cancel' hle] at h'
    refine ⟨s', ?_, h'⟩
    show (forRange (addRequest kvlen) (n - initialPuts n) s draws₁).bind _ = _
    rw [hrest]
    rfl
  · have hzero : initialPuts n = 0 := by omega
    rw [generateRequests, hzero]
    show if FailsAtFirst n draws then (forRange (addRequest kvlen) n ⟨[], []⟩ draws).bind _ = _
      else ∃ s, (forRange (addRequest kvlen) n ⟨[], []⟩ draws).bind _ = _ ∧ _
    cases n with
    | zero => exact ⟨⟨[], []⟩, rfl, .empty kvlen⟩
    | succ n =>
      have hfive : n + 1 < 5 := by
        rw [initialPuts] at hzero
        omega
      have hfails : FailsAtFirst (n + 1) draws ↔ ¬ DrawsNewPut draws :=
        ⟨fun h => h.2.2, fun h => ⟨Nat.succ_pos n, hfive, h⟩⟩
      have hfirst := addRequest_nil (s := ⟨[], []⟩) rfl kvlen draws
      rw [forRange]
      by_cases hdraws : DrawsNewPut draws
      · rw [if_pos hdraws] at hfirst
        rw [if_neg (mt hfails.1 (not_not.2 hdraws))]
        obtain ⟨s', draws', hone, hadds⟩ := hfirst
        obtain ⟨s'', draws'', hrest, h'⟩ :=
          requests_loop (Nat.le_refl 1) ((Drawn.empty kvlen).adds hadds) n draws'
        rw [hone, Nat.add_comm n 1]
        refine ⟨s'', ?_, h'⟩
        show ((forRange (addRequest kvlen) n s' draws').bind _) = _
        rw [hrest]
        rfl
      · rw [if_neg hdraws] at hfirst
        rw [if_pos (hfails.2 hdraws), hfirst]
        rfl

/-! ## The file -/

theorem char_plain : ∀ c ∈ char, c < 128 ∧ isSpace c = false ∧ c ≠ 0 := by decide

theorem isSpace_of_isDigit {c : UInt8} (h : isDigit c = true) : isSpace c = false := by
  have hblank := isBlank_of_isDigit h
  rw [isSpace, hblank, Bool.false_or, Bool.and_eq_false_iff, decide_eq_false_iff_not,
    decide_eq_false_iff_not]
  refine Or.inr fun hle => ?_
  rw [isDigit, Bool.and_eq_true, decide_eq_true_eq, decide_eq_true_eq] at h
  exact absurd (UInt8.le_trans h.1 hle) (by decide)

theorem lt_of_isDigit {c : UInt8} (h : isDigit c = true) : c < 128 := by
  rw [isDigit, Bool.and_eq_true, decide_eq_true_eq, decide_eq_true_eq] at h
  exact UInt8.lt_of_le_of_lt h.2 (by decide)

/-- The words of a line are ASCII and can be told apart. -/
theorem Drawn.words_plain (h : Drawn kvlen n s) (hlen : 1 ≤ kvlen) :
    ∀ r ∈ s.req, ∀ w ∈ r.words, w ≠ [] ∧ ∀ c ∈ w, c < 128 ∧ isSpace c = false ∧ c ≠ 0 := by
  intro r hr w hw
  have hcode : w ∈ r.words.tail → w ≠ [] ∧ ∀ c ∈ w, c < 128 ∧ isSpace c = false ∧ c ≠ 0 := by
    intro hmem
    obtain ⟨hwlen, hall⟩ := h.codes r hr w hmem
    refine ⟨fun hnil => ?_, fun c hc => char_plain c (hall c hc)⟩
    rw [hnil, List.length_nil] at hwlen
    omega
  have hnumber : ∀ k ∈ [ascii "1", ascii "2", ascii "3"],
      k ≠ [] ∧ ∀ c ∈ k, c < 128 ∧ isSpace c = false ∧ c ≠ 0 := by decide
  cases r with
  | get key =>
    exact (List.mem_cons.1 hw).elim (fun hk => hnumber w (by simp [hk])) hcode
  | put key value =>
    exact (List.mem_cons.1 hw).elim (fun hk => hnumber w (by simp [hk])) hcode
  | delete key =>
    exact (List.mem_cons.1 hw).elim (fun hk => hnumber w (by simp [hk])) hcode

theorem Drawn.words_length (h : Drawn kvlen n s) (hkvlen : kvlen < kvStrLen) :
    ∀ r ∈ s.req, ∀ w ∈ r.words, w.length < kvStrLen := by
  intro r hr w hw
  have hcode : w ∈ r.words.tail → w.length < kvStrLen := fun hmem =>
    (h.codes r hr w hmem).1.trans_lt hkvlen
  cases r with
  | get key => exact (List.mem_cons.1 hw).elim (fun hk => by rw [hk]; decide) hcode
  | put key value => exact (List.mem_cons.1 hw).elim (fun hk => by rw [hk]; decide) hcode
  | delete key => exact (List.mem_cons.1 hw).elim (fun hk => by rw [hk]; decide) hcode

/-- Lines without line ends are read back one by one. -/
theorem inputLines_flatMap {lines : List (List UInt8)}
    (hlines : ∀ l ∈ lines, ∀ c ∈ l, c ≠ 10 ∧ c ≠ 13) :
    inputLines (lines.flatMap (· ++ [10])) = lines := by
  have hreturn : universalNewlines (lines.flatMap (· ++ [10])) = lines.flatMap (· ++ [10]) := by
    have hplain : ∀ c ∈ lines.flatMap (· ++ [10]), (c == 13) = false := by
      intro c hc
      obtain ⟨l, hl, hcl⟩ := List.mem_flatMap.1 hc
      rw [beq_eq_false_iff_ne]
      rcases List.mem_append.1 hcl with hcl | hcl
      · exact (hlines l hl c hcl).2
      · rw [List.mem_singleton.1 hcl]
        decide
    have happend := universalNewlines_append hplain []
    rwa [List.append_nil, universalNewlines, List.append_nil] at happend
  have hsplit := splitOnP_flatMap_lines (p := (· == (10 : UInt8))) (c := 10) rfl
    fun l hl c hc => beq_eq_false_iff_ne.2 (hlines l hl c hc).1
  rw [inputLines, hreturn, hsplit]
  simp

theorem not_separator {c : UInt8} (h : (c < 128 ∧ isSpace c = false) ∨ c = 32) :
    (c ≠ 10 ∧ c ≠ 13) ∧ c < 128 ∧ ¬ (28 ≤ c ∧ c ≤ 31) := by
  rcases h with ⟨hlt, h⟩ | rfl
  · refine ⟨⟨?_, ?_⟩, hlt, ?_⟩
    · rintro rfl
      exact absurd h (by decide)
    · rintro rfl
      exact absurd h (by decide)
    · intro hctrl
      rw [isSpace, Bool.or_eq_false_iff, Bool.and_eq_false_iff, decide_eq_false_iff_not,
        decide_eq_false_iff_not] at h
      exact h.2.elim (· hctrl.1) (· hctrl.2)
  · decide

/-- **The file has the requests as its lines.** -/
theorem Drawn.linesFile (h : Drawn kvlen n s) (hlen : 1 ≤ kvlen) (hkvlen : kvlen < kvStrLen)
    (hn : n < 2 ^ 32) : LinesFile (printRequests n s.req) s.req := by
  have hplain := h.words_plain hlen
  have hspace : ∀ r ∈ s.req, ∀ c ∈ (ascii " ").intercalate r.words,
      (c < 128 ∧ isSpace c = false) ∨ c = 32 := fun r hr c hc =>
    (mem_intercalate hc).symm.imp_left fun ⟨w, hw, hcw⟩ =>
      ⟨((hplain r hr w hw).2 c hcw).1, ((hplain r hr w hw).2 c hcw).2.1⟩
  have hcount : ∀ c ∈ render n, c < 128 ∧ isSpace c = false := fun c hc =>
    have hdigit := (isNumeral_render n).2 c hc
    ⟨lt_of_isDigit hdigit, isSpace_of_isDigit hdigit⟩
  have hlines : ∀ l ∈ render n :: s.req.map fun i => (ascii " ").intercalate i.words,
      ∀ c ∈ l, (c < 128 ∧ isSpace c = false) ∨ c = 32 := by
    rw [List.forall_mem_cons, List.forall_mem_map]
    exact ⟨fun c hc => Or.inl (hcount c hc), hspace⟩
  refine ⟨?_, ?_, h.length ▸ hn, h.words_length hkvlen⟩
  · rw [printRequests, inputLines_flatMap fun l hl c hc => (not_separator (hlines l hl c hc)).1,
      List.map_cons, List.map_map, h.length]
    congr 1
    · exact words_singleton (isNumeral_render n).1 fun c hc => (hcount c hc).2
    · refine List.map_congr_left fun r hr => ?_
      exact words_intercalate rfl fun w hw =>
        ⟨(hplain r hr w hw).1, fun c hc => ((hplain r hr w hw).2 c hc).2.1⟩
  · -- the only other character is the line end
    intro c hc
    obtain ⟨l, hl, hcl⟩ := List.mem_flatMap.1 hc
    rcases List.mem_append.1 hcl with hcl | hcl
    · exact (not_separator (hlines l hl c hcl)).2
    · rw [List.mem_singleton.1 hcl]
      decide

/-! ## The client -/

theorem length_loaded (temp : KVMessage) (reqs : List FileRequest) :
    (loaded temp reqs).length = reqs.length := by
  induction reqs generalizing temp with
  | nil => rfl
  | cons r reqs ih => rw [loaded, List.length_cons, ih, List.length_cons]

/-- Values of one length are sent exactly. -/
theorem Drawn.sent (h : Drawn kvlen n s) (hkvlen : kvlen < kvStrLen) :
    sentRequests emptyString s.req = s.req.map FileRequest.request := by
  have hempty : emptyString = .ofText [] := rfl
  have hnull : ∀ r ∈ s.req, ∀ w ∈ r.words.tail, 0 ∉ w := fun r hr w hw hzero =>
    (char_plain 0 ((h.codes r hr w hw).2 0 hzero)).2.2 rfl
  rw [hempty, sentRequests_eq_iff (by decide) (h.words_length hkvlen)]
  constructor
  · intro r hr
    have hkey : 0 ∉ r.key := hnull r hr _ (by cases r <;> simp [FileRequest.words,
      FileRequest.key])
    rw [KeyIsString, CString.text_eq_self 0 hkey, List.drop_length]
    exact List.forall_mem_nil _
  · have hvalues : ∀ v ∈ putValues s.req, v.length = kvlen := by
      intro v hv
      obtain ⟨r, hr, hput⟩ := List.mem_filterMap.1 hv
      cases r with
      | put key value =>
        obtain rfl := Option.some.inj hput
        exact (h.codes _ hr value (by simp [FileRequest.words])).1
      | get key => cases hput
      | delete key => cases hput
    have hcovered : ∀ previous next : List UInt8, previous.length ≤ kvlen → next.length = kvlen →
        Covered previous next := by
      intro previous next hprev hnext
      rw [Covered, List.drop_eq_nil_of_le (by omega)]
      exact List.forall_mem_nil _
    have hchain : ∀ previous : List UInt8, previous.length ≤ kvlen → ∀ vs : List (List UInt8),
        (∀ v ∈ vs, v.length = kvlen) → (previous :: vs).IsChain Covered := by
      intro previous hprev vs hvs
      induction vs generalizing previous with
      | nil => exact List.isChain_singleton _
      | cons v vs ih =>
        rw [List.forall_mem_cons] at hvs
        exact List.isChain_cons_cons.2
          ⟨hcovered previous v hprev hvs.1, ih v hvs.1.le hvs.2⟩
    exact hchain [] (Nat.zero_le _) _ hvalues

/-- **What is drawn is what is sent.** The program fails exactly if there are too few requests to
start with a PUT and the first one drawn is not a PUT of a new key. Otherwise it draws `n` requests,
none for a key that was not put before, and if the words fit the arrays the client sends just
these. -/
theorem generated_requests_sent (kvlen n : Nat) (draws : Draws) :
    (run kvlen n draws = none ↔ FailsAtFirst n draws) ∧
      ∀ text, run kvlen n draws = some text → ∃ reqs,
        generateRequests kvlen n draws = some reqs ∧ reqs.length = n ∧ PutBefore reqs ∧
        (1 ≤ kvlen → kvlen < kvStrLen → n < 2 ^ 32 → ∀ requestType, ∃ dataset,
          loadClientRequestDataset requestType text = .ok dataset ∧
            (startSendingRequests dataset).map ClientCall.request =
              reqs.map FileRequest.request) := by
  have hspec := generateRequests_spec kvlen n draws
  by_cases hfails : FailsAtFirst n draws
  · rw [if_pos hfails] at hspec
    have hnone : run kvlen n draws = none := by
      rw [run, hspec]
      rfl
    refine ⟨iff_of_true hnone hfails, ?_⟩
    intro text htext
    rw [hnone] at htext
    cases htext
  · rw [if_neg hfails] at hspec
    obtain ⟨s, hgenerate, h⟩ := hspec
    have hsome : run kvlen n draws = some (printRequests n s.req) := by
      rw [run, hgenerate]
      rfl
    refine ⟨iff_of_false (by rw [hsome]; nofun) hfails, ?_⟩
    intro text htext
    rw [hsome] at htext
    obtain rfl := Option.some.inj htext
    refine ⟨s.req, hgenerate, h.length, h.asked, ?_⟩
    intro hlen hkvlen hn requestType
    have hfile := (h.linesFile hlen hkvlen hn).requestFile
    refine ⟨_, hfile.load requestType, ?_⟩
    rw [startSendingRequests_loaded hfile.fits]
    exact h.sent hkvlen

/-- Ten requests with words of three characters. -/
theorem generated_requests_sent_ten : ∃ text reqs dataset, run 3 10 (fun _ => 0) = some text ∧
    generateRequests 3 10 (fun _ => 0) = some reqs ∧ reqs.length = 10 ∧ PutBefore reqs ∧
      loadClientRequestDataset 0 text = .ok dataset ∧
      (startSendingRequests dataset).map ClientCall.request =
        reqs.map FileRequest.request := by
  obtain ⟨hfails, hsent⟩ := generated_requests_sent 3 10 fun _ => 0
  obtain ⟨text, htext⟩ := Option.ne_none_iff_exists'.1 (mt hfails.1 (by decide))
  obtain ⟨reqs, hgenerate, hlen, hbefore, hload⟩ := hsent text htext
  obtain ⟨dataset, hdataset, hrequests⟩ := hload (by decide) (by decide) (by decide) 0
  exact ⟨text, reqs, dataset, htext, hgenerate, hlen, hbefore, hdataset, hrequests⟩

/-! ## The whole test -/

/-- **A generated test passes.** Whatever is drawn, the server with a cache of any size answers the
requests as the solution says, from a fresh start. -/
theorem generated_test_passes {kvlen n : Nat} {draws : Draws} (hfails : ¬ FailsAtFirst n draws)
    (hlen : 1 ≤ kvlen) (hkvlen : kvlen < kvStrLen) (hn : n < 2 ^ 32) {cacheSize : Nat}
    (hsize : 1 ≤ cacheSize) (requestType : Nat) :
    ∃ text dataset solution state, run kvlen n draws = some text ∧
      loadClientRequestDataset requestType text = .ok dataset ∧ dataset.length = n ∧
      generate text = some solution ∧ KVState.start cacheSize (fun _ => none) = .ok state ∧
      ∀ (client : Client) (message : KVMessage),
        SucceedsUnlessFull (calls Session.call ⟨client, ⟨message, state, []⟩, ⟨[], []⟩⟩
          (startSendingRequests dataset)) fun r =>
            autoTesting dataset (loadClientRequestResults solution) (r.1.map Client.response) =
              (startSendingRequests dataset, .success) := by
  have hspec := generateRequests_spec kvlen n draws
  rw [if_neg hfails] at hspec
  obtain ⟨s, hgenerate, h⟩ := hspec
  have hfits : ∀ r ∈ s.req, ∀ w ∈ r.words, FitsArray w := fun r hr w hw =>
    ⟨fun hzero => ((h.words_plain hlen r hr w hw).2 0 hzero).2.2 rfl,
      h.words_length hkvlen r hr w hw⟩
  have hfile := h.linesFile hlen hkvlen hn
  obtain ⟨solution, state, hsolution, hstart, htest⟩ := hfile.passes hfits hsize
  refine ⟨_, _, solution, state, ?_, hfile.requestFile.load requestType, ?_, hsolution, hstart,
    htest⟩
  · rw [run, hgenerate]
    rfl
  · rw [length_loaded, h.length]

/-- Ten requests with words of three characters. -/
theorem generated_test_passes_ten : ∃ text dataset solution state,
    run 3 10 (fun _ => 0) = some text ∧
      loadClientRequestDataset 0 text = .ok dataset ∧ dataset.length = 10 ∧
      generate text = some solution ∧ KVState.start 4 (fun _ => none) = .ok state ∧
      ∀ (client : Client) (message : KVMessage),
        SucceedsUnlessFull (calls Session.call ⟨client, ⟨message, state, []⟩, ⟨[], []⟩⟩
          (startSendingRequests dataset)) fun r =>
            autoTesting dataset (loadClientRequestResults solution) (r.1.map Client.response) =
              (startSendingRequests dataset, .success) :=
  generated_test_passes (by decide) (by decide) (by decide) (by decide) (by decide) 0

end PythonClientRequestsGenerator

end KeyValueStore
