import KeyValueStore.StoreRuns

/-!
# Calls whose files may not open

Any `fs.open` may fail: the directory may be closed to the process, or no descriptor be free. A call
then returns early. `write_to_db` sets the status bit of a missing file before it tries to create
it, and the bit decides in all later calls whether the file is created or opened.

* `attempt_spec` — whatever fails to open, every file that exists keeps holding the map.
* `claimed_forever` — a file whose creation failed is not created by any later call, so what is
  written to it is lost until the next `init_kvstore`.
* `statusLaw_iff` — the status bits tell which files exist, in all states of a run, just if no
  creation of a file fails in it.
-/

namespace KeyValueStore

open Run

/-- A call of the store, and whether the operating system opens its file. -/
structure Attempt where
  call : StoreCall
  opens : Bool

namespace KVStore

def attempt (s : KVStore) (a : Attempt) : Except Fault (StoreAnswer × KVStore) :=
  match a.call with
  | .read ptr => do
    let (found, ptr) ← readFromDbIf a.opens s ptr
    return (.read found ptr, s)
  | .write ptr => do
    let s ← writeToDbIf a.opens s ptr
    return (.written, s)
  | .delete ptr => do
    let (found, s) ← deleteFromDbIf a.opens s ptr
    return (.deleted found, s)

/-- The state after a call. -/
def attemptStep (s : KVStore) (a : Attempt) : Except Fault KVStore := do
  return (← s.attempt a).2

theorem attempt_opens (s : KVStore) (c : StoreCall) : s.attempt ⟨c, true⟩ = s.call c := by
  cases c <;> rfl

end KVStore

variable {s s' : KVStore} {m m' : Triple → Option Chars256} {ptr : KVMessage} {f : List UInt8}
  {i : Nat} {a : Attempt}

/-! ## The files hold the map -/

/-- The files hold the map `m`. The status bit of a missing file may be set. -/
structure FilesRep (s : KVStore) (m : Triple → Option Chars256) : Prop where
  unclaimed : ∀ i < hashTableLen, s.fileExistsStatus i = false → s.files i = none
  missing : ∀ i < hashTableLen, s.files i = none → ∀ t : Triple, t.file = i → m t = none
  present : ∀ i < hashTableLen, ∀ f, s.files i = some f → FileRep i f m

theorem StoreRep.filesRep (h : StoreRep s m) : FilesRep s m where
  unclaimed i hi hbit := (h.absent i hi hbit).1
  missing i hi hnone := by
    cases hbit : s.fileExistsStatus i with
    | false => exact (h.absent i hi hbit).2
    | true =>
      obtain ⟨f, hf, -⟩ := h.present i hi hbit
      rw [hnone] at hf
      cases hf
  present i hi f hf := by
    cases hbit : s.fileExistsStatus i with
    | false =>
      rw [(h.absent i hi hbit).1] at hf
      cases hf
    | true =>
      obtain ⟨g, hg, hrep⟩ := h.present i hi hbit
      obtain rfl := Option.some.inj (hf.symm.trans hg)
      exact hrep

theorem FilesRep.storeRep (h : FilesRep s m)
    (hbits : ∀ i < hashTableLen, s.fileExistsStatus i = true → (s.files i).isSome) :
    StoreRep s m where
  absent i hi hbit := ⟨h.unclaimed i hi hbit, h.missing i hi (h.unclaimed i hi hbit)⟩
  present i hi hbit := by
    obtain ⟨f, hf⟩ := Option.isSome_iff_exists.1 (hbits i hi hbit)
    exact ⟨f, hf, h.present i hi f hf⟩

theorem FilesRep.setFile (num : Nat) (h : FilesRep s m)
    (hs : ∀ j, j ≠ num → s'.fileExistsStatus j = s.fileExistsStatus j ∧ s'.files j = s.files j)
    (hbit : s'.fileExistsStatus num = true) (hfile : s'.files num = some f)
    (hf : FileRep num f m') (hother : ∀ t : Triple, t.file ≠ num → m' t = m t) :
    FilesRep s' m' where
  unclaimed i hi hfalse := by
    have hin : i ≠ num := by
      rintro rfl
      rw [hbit] at hfalse
      cases hfalse
    rw [(hs i hin).1] at hfalse
    exact (hs i hin).2.trans (h.unclaimed i hi hfalse)
  missing i hi hnone t ht := by
    have hin : i ≠ num := by
      rintro rfl
      rw [hfile] at hnone
      cases hnone
    rw [hother t (ht ▸ hin)]
    exact h.missing i hi ((hs i hin).2.symm.trans hnone) t ht
  present i hi g hg := by
    by_cases hin : i = num
    · subst hin
      obtain rfl := Option.some.inj (hfile.symm.trans hg)
      exact hf
    · rw [(hs i hin).2] at hg
      exact (h.present i hi g hg).congr fun t ht => hother t (ht ▸ hin)

/-- `file_exists_status.set(i)` -/
def KVStore.claim (s : KVStore) (i : Nat) : KVStore :=
  { s with fileExistsStatus := Function.update s.fileExistsStatus i true }

@[simp] theorem claim_files (s : KVStore) (i : Nat) : (s.claim i).files = s.files := rfl

@[simp] theorem claim_self (s : KVStore) (i : Nat) : (s.claim i).fileExistsStatus i = true :=
  Function.update_self ..

theorem FilesRep.claim (h : FilesRep s m) (i : Nat) : FilesRep (s.claim i) m where
  unclaimed j hj hfalse := by
    change Function.update s.fileExistsStatus i true j = false at hfalse
    by_cases hji : j = i
    · rw [hji, Function.update_self] at hfalse
      cases hfalse
    · rw [Function.update_of_ne hji] at hfalse
      exact h.unclaimed j hj hfalse
  missing := h.missing
  present := h.present

namespace KVStore

theorem files_of_openFile {opens : Bool} (h : s.openFile opens i = some f) :
    s.files i = some f := by
  cases opens with
  | false => cases h
  | true => exact h

theorem readFromDbIf_spec (h : FilesRep s m) (opens : Bool) (ptr : KVMessage) :
    ∃ r, readFromDbIf opens s ptr = .ok r := by
  rw [readFromDbIf]
  cases s.fileExistsStatus (fileIdx ptr) with
  | false => exact ⟨_, rfl⟩
  | true =>
    rw [if_neg (by decide)]
    cases hopen : s.openFile opens (fileIdx ptr) with
    | none => exact ⟨_, rfl⟩
    | some f =>
      have hrep := h.present ptr.triple.file (file_lt _) f (files_of_openFile hopen)
      simp only [readValue_eq hrep rfl, ok_bind]
      cases m ptr.triple <;> exact ⟨_, rfl⟩

theorem writeToDbIf_spec (h : FilesRep s m) (opens : Bool) (ptr : KVMessage) :
    SucceedsUnlessFull (writeToDbIf opens s ptr) fun s' =>
      FilesRep s' m ∨ FilesRep s' (Function.update m ptr.triple (some ptr.value)) := by
  rw [writeToDbIf]
  show SucceedsUnlessFull (if s.fileExistsStatus ptr.triple.file = false then _ else _) _
  cases hbit : s.fileExistsStatus ptr.triple.file with
  | false =>
    rw [if_pos rfl]
    cases opens with
    | false => exact Excused.ok (Or.inl (h.claim _))
    | true =>
      rw [if_pos rfl]
      have hnone := h.unclaimed _ (file_lt _) hbit
      have hnew := initialFile_rep (h.missing _ (file_lt _) hnone)
      refine (write_spec ptr hnew rfl).bind₂ fun f hf => Excused.ok (Or.inr ?_)
      refine h.setFile ptr.triple.file (fun j hj => ?_) ?_ ?_ hf update_eq_of_file_ne
      · exact ⟨Function.update_of_ne hj _ _, Function.update_of_ne hj _ _⟩
      · exact Function.update_self ..
      · exact Function.update_self ..
  | true =>
    rw [if_neg (by decide)]
    cases hopen : s.openFile opens (fileIdx ptr) with
    | none => exact Excused.ok (Or.inl h)
    | some f =>
      have hrep := h.present ptr.triple.file (file_lt _) f (files_of_openFile hopen)
      refine (write_spec ptr hrep rfl).bind₂ fun f' hf' => Excused.ok (Or.inr ?_)
      refine h.setFile ptr.triple.file (fun j hj => ?_) hbit ?_ hf' update_eq_of_file_ne
      · exact ⟨rfl, Function.update_of_ne hj _ _⟩
      · exact Function.update_self ..

theorem deleteFromDbIf_spec (h : FilesRep s m) (opens : Bool) (ptr : KVMessage) :
    ∃ r, deleteFromDbIf opens s ptr = .ok r ∧
      (FilesRep r.2 m ∨ FilesRep r.2 (Function.update m ptr.triple none)) := by
  rw [deleteFromDbIf]
  show ∃ r, (if s.fileExistsStatus ptr.triple.file = false then _ else _) = _ ∧ _
  cases hbit : s.fileExistsStatus ptr.triple.file with
  | false => exact ⟨_, rfl, Or.inl h⟩
  | true =>
    rw [if_neg (by decide)]
    cases hopen : s.openFile opens (fileIdx ptr) with
    | none => exact ⟨_, rfl, Or.inl h⟩
    | some f =>
      have hrep := h.present ptr.triple.file (file_lt _) f (files_of_openFile hopen)
      rcases delete_spec ptr hrep rfl with ⟨-, hd⟩ | ⟨-, bs, f', hd, hb, hf'⟩
      · refine ⟨(false, s), ?_, Or.inl h⟩
        simp only [hd, ok_bind]
        rfl
      · refine ⟨(true, s.setFile ptr.triple.file f'), ?_, Or.inr ?_⟩
        · simp only [hd, ok_bind, hb]
          rfl
        · refine h.setFile ptr.triple.file (fun j hj => ?_) hbit ?_ hf' update_eq_of_file_ne
          · exact ⟨rfl, Function.update_of_ne hj _ _⟩
          · exact Function.update_self ..

end KVStore

/-- **Whatever fails to open, the files keep holding a map**, and a call changes it as it should or
not at all. -/
theorem attempt_spec (h : FilesRep s m) (a : Attempt) :
    SucceedsUnlessFull (s.attempt a) fun r =>
      FilesRep r.2 m ∨ FilesRep r.2 (mapCall m a.call).2 := by
  obtain ⟨c, opens⟩ := a
  cases c with
  | read ptr =>
    obtain ⟨r, hr⟩ := KVStore.readFromDbIf_spec h opens ptr
    rw [KVStore.attempt]
    simp only [hr, ok_bind]
    exact Excused.ok (Or.inl h)
  | write ptr => exact (KVStore.writeToDbIf_spec h opens ptr).bind fun s' hs' => Excused.ok hs'
  | delete ptr =>
    obtain ⟨r, hr, hrep⟩ := KVStore.deleteFromDbIf_spec h opens ptr
    rw [KVStore.attempt]
    simp only [hr, ok_bind]
    exact Excused.ok hrep

theorem attemptStep_spec {m : Triple → Option Chars256} (h : FilesRep s m) (a : Attempt) :
    SucceedsUnlessFull (s.attemptStep a) fun s' => ∃ m', FilesRep s' m' := by
  refine (attempt_spec h a).bind fun r hr => Excused.ok ?_
  rcases hr with hr | hr
  · exact ⟨m, hr⟩
  · exact ⟨_, hr⟩

/-! ## What the status bits say -/

/-- The status bits tell which files exist and hold at least their initial entries. So a write that
opens its file stores the pair, also where the file is missing, and one that does not leaves every
lookup as it was. -/
structure StatusLaw (s : KVStore) : Prop where
  agrees : ∀ i < hashTableLen, s.fileExistsStatus i = true ↔
    ∃ f, s.files i = some f ∧ fileTableLen * sizeOfOneEntry ≤ f.length
  stores : ∀ ptr, SucceedsUnlessFull (s.writeToDb ptr) fun s' =>
    (s'.files (KVStore.fileIdx ptr)).isSome ∧ s'.readFromDb ptr = .ok (true, ptr) ∧
    ∀ q : KVMessage, q.triple ≠ ptr.triple → s'.readFromDb q = s.readFromDb q
  keeps : ∀ ptr, ∃ s', KVStore.writeToDbIf false s ptr = .ok s' ∧
    ∀ q, s'.readFromDb q = s.readFromDb q

/-- The call does not fail to create a file. -/
def CreationOpens (s : KVStore) (a : Attempt) : Prop :=
  ∀ ptr, a.call = .write ptr → a.opens = false → s.fileExistsStatus (KVStore.fileIdx ptr) = true

theorem StoreRep.agrees (h : StoreRep s m) (hi : i < hashTableLen) :
    s.fileExistsStatus i = true ↔
      ∃ f, s.files i = some f ∧ fileTableLen * sizeOfOneEntry ≤ f.length := by
  constructor
  · intro hbit
    obtain ⟨f, hf, chain, hinv, -⟩ := h.present i hi hbit
    exact ⟨f, hf, hinv.heads⟩
  · rintro ⟨f, hf, -⟩
    cases hbit : s.fileExistsStatus i with
    | true => rfl
    | false =>
      rw [(h.absent i hi hbit).1] at hf
      cases hf

theorem StoreRep.isSome_of_some (h : StoreRep s m) {t : Triple} {v : Chars256}
    (ht : m t = some v) : (s.files t.file).isSome := by
  cases hbit : s.fileExistsStatus t.file with
  | false =>
    rw [(h.absent _ (file_lt t) hbit).2 t rfl] at ht
    cases ht
  | true =>
    obtain ⟨f, hf, -⟩ := h.present _ (file_lt t) hbit
    rw [hf]
    rfl

namespace KVStore

/-! A call that does not open its file returns at once; a write has then set the status bit. -/

theorem readFromDbIf_unopened (s : KVStore) (ptr : KVMessage) :
    readFromDbIf false s ptr = .ok (false, ptr) := by
  rw [readFromDbIf]
  cases s.fileExistsStatus (fileIdx ptr) <;> rfl

theorem writeToDbIf_unopened (s : KVStore) (ptr : KVMessage) :
    writeToDbIf false s ptr =
      .ok (if s.fileExistsStatus (fileIdx ptr) = false then s.claim (fileIdx ptr) else s) := by
  rw [writeToDbIf]
  cases s.fileExistsStatus (fileIdx ptr) <;> rfl

theorem deleteFromDbIf_unopened (s : KVStore) (ptr : KVMessage) :
    deleteFromDbIf false s ptr = .ok (false, s) := by
  rw [deleteFromDbIf]
  cases s.fileExistsStatus (fileIdx ptr) <;> rfl

theorem attemptStep_write (s : KVStore) (opens : Bool) (ptr : KVMessage) :
    s.attemptStep ⟨.write ptr, opens⟩ = writeToDbIf opens s ptr := by
  rw [attemptStep, attempt]
  dsimp only
  cases writeToDbIf opens s ptr <;> rfl

theorem attemptStep_unopened (s : KVStore) (c : StoreCall) :
    s.attemptStep ⟨c, false⟩ = match c with
      | .read _ | .delete _ => .ok s
      | .write ptr => writeToDbIf false s ptr := by
  cases c with
  | read ptr =>
    simp only [attemptStep, attempt, readFromDbIf_unopened, ok_bind]
    rfl
  | write ptr => exact attemptStep_write s false ptr
  | delete ptr =>
    simp only [attemptStep, attempt, deleteFromDbIf_unopened, ok_bind]
    rfl

theorem readFromDb_missing (hnone : s.files (fileIdx ptr) = none) :
    s.readFromDb ptr = .ok (false, ptr) := by
  rw [readFromDb, readFromDbIf, openFile, if_pos rfl, hnone]
  cases s.fileExistsStatus (fileIdx ptr) <;> rfl

theorem readFromDb_congr
    (hbit : s'.fileExistsStatus (fileIdx ptr) = s.fileExistsStatus (fileIdx ptr))
    (hfile : s'.files (fileIdx ptr) = s.files (fileIdx ptr)) :
    s'.readFromDb ptr = s.readFromDb ptr := by
  rw [readFromDb, readFromDb, readFromDbIf, readFromDbIf, openFile, openFile]
  simp only [hbit, hfile]

end KVStore

/-- A write that cannot open its file changes no lookup. -/
theorem StoreRep.write_unopened (h : StoreRep s m) (ptr : KVMessage) :
    ∃ s', KVStore.writeToDbIf false s ptr = .ok s' ∧ ∀ q, s'.readFromDb q = s.readFromDb q := by
  rw [KVStore.writeToDbIf_unopened]
  cases hbit : s.fileExistsStatus (KVStore.fileIdx ptr) with
  | true => exact ⟨s, rfl, fun q => rfl⟩
  | false =>
    rw [if_pos rfl]
    refine ⟨_, rfl, ?_⟩
    intro q
    by_cases hq : KVStore.fileIdx q = KVStore.fileIdx ptr
    · have hnone : s.files (KVStore.fileIdx q) = none := by
        rw [hq]
        exact (h.absent ptr.triple.file (file_lt _) hbit).1
      have hclaim : (s.claim (KVStore.fileIdx ptr)).files (KVStore.fileIdx q) = none := hnone
      rw [KVStore.readFromDb_missing hclaim, KVStore.readFromDb_missing hnone]
    · exact KVStore.readFromDb_congr (Function.update_of_ne hq ..) rfl

theorem StoreRep.statusLaw (h : StoreRep s m) : StatusLaw s where
  agrees i hi := h.agrees hi
  stores ptr := by
    refine (KVStore.writeToDb_spec h ptr).mono fun s' hs' => ⟨?_, ?_, fun q hq => ?_⟩
    · exact hs'.isSome_of_some (t := ptr.triple) (Function.update_self ..)
    · rw [KVStore.readFromDb_eq hs', readAnswer, Function.update_self]
    · rw [KVStore.readFromDb_eq hs', KVStore.readFromDb_eq h, readAnswer, readAnswer,
        Function.update_of_ne hq]
  keeps ptr := h.write_unopened ptr

/-- Where the bits and the files agree, a call keeps them so just if it does not fail to create its
file. -/
theorem statusLaw_step (h : FilesRep s m) (hlaw : StatusLaw s)
    (hstep : s.attemptStep a = .ok s') : StatusLaw s' ↔ CreationOpens s a := by
  have hrep : StoreRep s m := h.storeRep fun i hi hbit => by
    obtain ⟨f, hf, -⟩ := (hlaw.agrees i hi).1 hbit
    rw [hf]
    rfl
  obtain ⟨c, opens⟩ := a
  cases opens with
  -- an open that succeeds keeps the law, whatever is called
  | true =>
    refine iff_of_true ?_ fun ptr _ hfalse => by cases hfalse
    have hspec : SucceedsUnlessFull (s.attemptStep ⟨c, true⟩) StatusLaw := by
      rw [KVStore.attemptStep, KVStore.attempt_opens]
      exact (call_spec hrep c).bind fun r hr => Excused.ok hr.2.statusLaw
    exact hspec.of_ok hstep
  | false =>
    rw [KVStore.attemptStep_unopened] at hstep
    cases c with
    -- only a write sets the bit without a file
    | read ptr =>
      obtain rfl := Except.ok.inj hstep
      exact iff_of_true hlaw fun _ hwrite => by cases hwrite
    | delete ptr =>
      obtain rfl := Except.ok.inj hstep
      exact iff_of_true hlaw fun _ hwrite => by cases hwrite
    | write ptr =>
      replace hstep := (KVStore.writeToDbIf_unopened s ptr).symm.trans hstep
      cases hbit : s.fileExistsStatus (KVStore.fileIdx ptr) with
      | true =>
        rw [hbit] at hstep
        obtain rfl := Except.ok.inj hstep
        refine iff_of_true hlaw fun q hq _ => ?_
        obtain rfl := StoreCall.write.inj hq
        exact hbit
      | false =>
        rw [if_pos hbit] at hstep
        obtain rfl := Except.ok.inj hstep
        refine iff_of_false (fun h' => ?_) fun h' => ?_
        · -- the bit claims the file that is not there
          obtain ⟨f, hf, -⟩ := (h'.agrees ptr.triple.file (file_lt _)).1 (Function.update_self ..)
          rw [claim_files, (hrep.absent ptr.triple.file (file_lt _) hbit).1] at hf
          cases hf
        · have hset := h' ptr rfl rfl
          rw [hbit] at hset
          cases hset

/-! ## Runs -/

/-- The bit of file `i` is set, but the file does not exist. -/
def Claimed (i : Nat) (s : KVStore) : Prop := s.fileExistsStatus i = true ∧ s.files i = none

namespace KVStore

theorem writeToDbIf_frame (opens : Bool) (s : KVStore) (ptr : KVMessage) :
    Ensures (writeToDbIf opens s ptr) fun s' => ∀ j, j ≠ fileIdx ptr →
      s'.fileExistsStatus j = s.fileExistsStatus j ∧ s'.files j = s.files j := by
  rw [writeToDbIf]
  cases s.fileExistsStatus (fileIdx ptr) with
  | false =>
    rw [if_pos rfl]
    cases opens with
    | false => exact Ensures.ok fun j hj => ⟨Function.update_of_ne hj .., rfl⟩
    | true =>
      rw [if_pos rfl]
      refine ensures_true.bind fun bs _ => ensures_true.bind fun f _ => Ensures.ok fun j hj => ?_
      exact ⟨Function.update_of_ne hj .., Function.update_of_ne hj ..⟩
  | true =>
    rw [if_neg (by decide)]
    cases s.openFile opens (fileIdx ptr) with
    | none => exact Ensures.ok fun j _ => ⟨rfl, rfl⟩
    | some f =>
      refine ensures_true.bind fun bs _ => ensures_true.bind fun f _ => Ensures.ok fun j hj => ?_
      exact ⟨rfl, Function.update_of_ne hj ..⟩

theorem deleteFromDbIf_frame (opens : Bool) (s : KVStore) (ptr : KVMessage) :
    Ensures (deleteFromDbIf opens s ptr) fun r => r.2.fileExistsStatus = s.fileExistsStatus ∧
      ∀ j, j ≠ fileIdx ptr → r.2.files j = s.files j := by
  rw [deleteFromDbIf]
  cases s.fileExistsStatus (fileIdx ptr) with
  | false => exact Ensures.ok ⟨rfl, fun j _ => rfl⟩
  | true =>
    rw [if_neg (by decide)]
    cases s.openFile opens (fileIdx ptr) with
    | none => exact Ensures.ok ⟨rfl, fun j _ => rfl⟩
    | some f =>
      refine ensures_true.bind fun o _ => ?_
      cases o with
      | none => exact Ensures.ok ⟨rfl, fun j _ => rfl⟩
      | some bs =>
        refine ensures_true.bind fun f _ => Ensures.ok ⟨rfl, fun j hj => ?_⟩
        exact Function.update_of_ne hj ..

end KVStore

theorem Claimed.openFile (h : Claimed i s) (opens : Bool) : s.openFile opens i = none := by
  cases opens with
  | false => rfl
  | true => exact h.2

theorem Claimed.write (h : Claimed i s) (opens : Bool) (ptr : KVMessage) :
    Ensures (KVStore.writeToDbIf opens s ptr) (Claimed i) := by
  by_cases hi : KVStore.fileIdx ptr = i
  · rw [KVStore.writeToDbIf, hi, h.1, if_neg (by decide), h.openFile opens]
    exact Ensures.ok h
  · refine (KVStore.writeToDbIf_frame opens s ptr).mono fun s' hs' => ?_
    obtain ⟨hbit, hfile⟩ := hs' i (Ne.symm hi)
    exact ⟨hbit.trans h.1, hfile.trans h.2⟩

theorem Claimed.delete (h : Claimed i s) (opens : Bool) (ptr : KVMessage) :
    Ensures (KVStore.deleteFromDbIf opens s ptr) fun r => Claimed i r.2 := by
  by_cases hi : KVStore.fileIdx ptr = i
  · rw [KVStore.deleteFromDbIf, hi, h.1, if_neg (by decide), h.openFile opens]
    exact Ensures.ok h
  · refine (KVStore.deleteFromDbIf_frame opens s ptr).mono fun r hr => ?_
    exact ⟨(congrFun hr.1 i).trans h.1, (hr.2 i (Ne.symm hi)).trans h.2⟩

theorem Claimed.step (h : Claimed i s) (a : Attempt) : Ensures (s.attemptStep a) (Claimed i) := by
  obtain ⟨c, opens⟩ := a
  refine Ensures.bind (P := fun r => Claimed i r.2) ?_ fun r hr => Ensures.ok hr
  cases c with
  | read ptr => exact ensures_true.bind fun r _ => Ensures.ok h
  | write ptr => exact (h.write opens ptr).bind fun s' hs' => Ensures.ok hs'
  | delete ptr => exact (h.delete opens ptr).bind fun r hr => Ensures.ok hr

theorem Claimed.run {as : List Attempt} (h : Claimed i s)
    (hrun : run KVStore.attemptStep s as = .ok s') : Claimed i s' :=
  run_preserves (fun _ a s' hs => hs.step a s') h hrun

theorem Claimed.not_agrees (h : Claimed i s) : ¬ (s.fileExistsStatus i = true ↔
    ∃ f, s.files i = some f ∧ fileTableLen * sizeOfOneEntry ≤ f.length) := by
  intro hiff
  obtain ⟨f, hf, -⟩ := hiff.1 h.1
  rw [h.2] at hf
  cases hf

/-- **A file whose creation failed is claimed to exist from then on**, whatever is called: what is
written to it is lost. -/
theorem claimed_forever {as : List Attempt} {s₁ : KVStore}
    (hbit : s.fileExistsStatus (KVStore.fileIdx ptr) = false)
    (hfile : s.files (KVStore.fileIdx ptr) = none)
    (hfails : KVStore.writeToDbIf false s ptr = .ok s₁)
    (hrun : run KVStore.attemptStep s₁ as = .ok s') : Claimed (KVStore.fileIdx ptr) s' ∧
      ∀ q, KVStore.fileIdx q = KVStore.fileIdx ptr → s'.readFromDb q = .ok (false, q) := by
  have hset := (KVStore.writeToDbIf_unopened s ptr).symm.trans hfails
  rw [if_pos hbit] at hset
  obtain rfl := Except.ok.inj hset
  have hfirst : Claimed (KVStore.fileIdx ptr) (s.claim (KVStore.fileIdx ptr)) :=
    ⟨claim_self .., hfile⟩
  have hclaimed := hfirst.run hrun
  refine ⟨hclaimed, fun q hq => KVStore.readFromDb_missing ?_⟩
  rw [hq]
  exact hclaimed.2

/-- **The status bits tell which files exist, in every state of a run, just if no creation of a file
fails in the run.** -/
theorem statusLaw_iff {files : Nat → Option (List UInt8)} (h : WellFormedFiles files)
    (as : List Attempt) :
    SucceedsUnlessFull (run KVStore.attemptStep (KVStore.initKvstore files) as) fun _ =>
      ((∀ bs t, bs <+: as → run KVStore.attemptStep (KVStore.initKvstore files) bs = .ok t →
        StatusLaw t) ↔ Meets KVStore.attemptStep CreationOpens (KVStore.initKvstore files) as) := by
  obtain ⟨m, hrep⟩ := h.exists_rep
  have hkeeps : ∀ s a, (∃ m, FilesRep s m) →
      SucceedsUnlessFull (s.attemptStep a) fun s' => ∃ m, FilesRep s' m :=
    fun s a ⟨m, hs⟩ => attemptStep_spec hs a
  have hstart : ∃ m, FilesRep (KVStore.initKvstore files) m := ⟨m, hrep.filesRep⟩
  rcases run_excused hkeeps as hstart with hfull | ⟨s, hrun, -⟩
  · exact Or.inl hfull
  · refine Or.inr ⟨s, hrun, run_invariant_iff (fun s a s' hs => (hkeeps s a hs).of_ok) ?_ hstart
      hrep.statusLaw hrun⟩
    rintro s a s' ⟨m, hs⟩ hlaw hstep
    exact statusLaw_step hs hlaw hstep

/-- The pair `a`, `1`. -/
def pairA1 : KVMessage :=
  KVMessage.calculateKeyHash ⟨0, Chars256.ofText [97], Chars256.ofText [49], 0, 0⟩

/-- A failed open of a file that exists leaves the law in force, for the calls after it too. -/
theorem statusLaw_iff_reopened :
    SucceedsUnlessFull (run KVStore.attemptStep (KVStore.initKvstore fun _ => none)
      [⟨.write pairA1, true⟩, ⟨.write pairA1, false⟩, ⟨.read pairA1, true⟩]) fun _ =>
      ((∀ bs t, bs <+: [⟨.write pairA1, true⟩, ⟨.write pairA1, false⟩, ⟨.read pairA1, true⟩] →
        run KVStore.attemptStep (KVStore.initKvstore fun _ => none) bs = .ok t → StatusLaw t) ↔
      Meets KVStore.attemptStep CreationOpens (KVStore.initKvstore fun _ => none)
        [⟨.write pairA1, true⟩, ⟨.write pairA1, false⟩, ⟨.read pairA1, true⟩]) :=
  statusLaw_iff wellFormedFiles_none _

/-- The first creation fails, and the second write of the pair is lost. -/
theorem failedCreation_claimed :
    ∃ s, run KVStore.attemptStep KVStore.fresh [⟨.write pairA1, false⟩, ⟨.write pairA1, true⟩] =
      .ok s ∧
      ¬ (∀ i < hashTableLen, s.fileExistsStatus i = true ↔
        ∃ f, s.files i = some f ∧ fileTableLen * sizeOfOneEntry ≤ f.length) ∧
      s.readFromDb pairA1 = .ok (false, pairA1) := by
  have hbit : KVStore.fresh.fileExistsStatus (KVStore.fileIdx pairA1) = false := by
    simp [KVStore.fresh, KVStore.initKvstore]
  generalize hs : KVStore.fresh.claim (KVStore.fileIdx pairA1) = s
  have hclaimed : Claimed (KVStore.fileIdx pairA1) s := hs ▸ ⟨claim_self .., rfl⟩
  have hfirst : KVStore.writeToDbIf false KVStore.fresh pairA1 = .ok s := by
    rw [KVStore.writeToDbIf_unopened, if_pos hbit, hs]
  have hsecond : KVStore.writeToDbIf true s pairA1 = .ok s := by
    rw [KVStore.writeToDbIf, hclaimed.1, if_neg (by decide), hclaimed.openFile]
  have hrun : run KVStore.attemptStep KVStore.fresh
      [⟨.write pairA1, false⟩, ⟨.write pairA1, true⟩] = .ok s := by
    simp only [run, KVStore.attemptStep_write, hfirst, ok_bind, hsecond]
  have hlt : KVStore.fileIdx pairA1 < hashTableLen := Nat.mod_lt _ (by decide)
  exact ⟨s, hrun, fun h => hclaimed.not_agrees (h _ hlt),
    KVStore.readFromDb_missing hclaimed.2⟩

end KeyValueStore
