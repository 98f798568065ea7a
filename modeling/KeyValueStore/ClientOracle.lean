import KeyValueStore.SolutionsGenerator

/-!
# `auto_testing` as an oracle

`auto_testing` compares every response with a line of the solution file. For a PUT or a DELETE that
was successful it does not look at the line, and for a GET it compares texts only. So it accepts two
answers that the dictionary does not give: SUCCESS for the deletion of an absent key, and SUCCESS
with the text `-ERROR-` for an absent key. On the other side, an absent key must be answered with
ERROR, and a status code that the client does not know is never accepted. `auto_testing_oracle_iff`
says that nothing else makes a difference.
-/

namespace KeyValueStore

open TextStream PythonSolutionsGenerator

/-! ## Answers -/

/-- The dictionary gives this answer. -/
def Agrees (kv : Kv) (r : FileRequest) (a : ServerResponse) : Prop :=
  match r with
  | .get key =>
    match kv key with
    | some value => a.statusCode = statusCodeValueSUCCESS ∧ a.value.text = value
    | none => a.statusCode = statusCodeValueERROR
  | .put _ _ => a.statusCode = statusCodeValueSUCCESS
  | .delete key => a.statusCode = statusCodeValueSUCCESS ↔ (kv key).isSome

/-- A wrong answer that looks right to the test. -/
def Overlooked (kv : Kv) (r : FileRequest) (a : ServerResponse) : Prop :=
  match r with
  | .get key => kv key = none ∧ a.statusCode = statusCodeValueSUCCESS ∧
      a.value.text = ascii "-ERROR-"
  | .put _ _ => False
  | .delete key => kv key = none ∧ a.statusCode = statusCodeValueSUCCESS

/-- Any other wrong answer. -/
def PlainlyWrong (kv : Kv) (r : FileRequest) (a : ServerResponse) : Prop :=
  ¬ Agrees kv r a ∧ ¬ Overlooked kv r a

/-- A deletion of an absent key that is not successful, with a status code other than ERROR. -/
def UnknownStatus (kv : Kv) (r : FileRequest) (a : ServerResponse) : Prop :=
  match r with
  | .delete key => kv key = none ∧ a.statusCode ≠ statusCodeValueSUCCESS ∧
      a.statusCode ≠ statusCodeValueERROR
  | _ => False

/-- The answers that the test lets pass. -/
def Accepted (kv : Kv) (r : FileRequest) (a : ServerResponse) : Prop :=
  Agrees kv r a ∧ ¬ UnknownStatus kv r a ∨ Overlooked kv r a

/-- Every answer satisfies `P`, with the dictionary as it is before its request. -/
def Throughout (P : Kv → FileRequest → ServerResponse → Prop) :
    Kv → List FileRequest → List ServerResponse → Prop
  | kv, r :: reqs, a :: responses => P kv r a ∧ Throughout P (kvAfter kv r) reqs responses
  | _, _, _ => True

/-- Some answer satisfies `P`. -/
def Somewhere (P : Kv → FileRequest → ServerResponse → Prop) :
    Kv → List FileRequest → List ServerResponse → Prop
  | kv, r :: reqs, a :: responses => P kv r a ∨ Somewhere P (kvAfter kv r) reqs responses
  | _, _, _ => False

section

variable {P Q : Kv → FileRequest → ServerResponse → Prop} {kv : Kv} {reqs : List FileRequest}
  {responses : List ServerResponse}

theorem Throughout.mono (hPQ : ∀ kv r a, P kv r a → Q kv r a)
    (h : Throughout P kv reqs responses) : Throughout Q kv reqs responses := by
  induction reqs generalizing kv responses with
  | nil => trivial
  | cons r reqs ih =>
    cases responses with
    | nil => trivial
    | cons a responses => exact ⟨hPQ kv r a h.1, ih h.2⟩

theorem Throughout.and (h : Throughout P kv reqs responses) (h' : Throughout Q kv reqs responses) :
    Throughout (fun kv r a => P kv r a ∧ Q kv r a) kv reqs responses := by
  induction reqs generalizing kv responses with
  | nil => trivial
  | cons r reqs ih =>
    cases responses with
    | nil => trivial
    | cons a responses => exact ⟨⟨h.1, h'.1⟩, ih h.2 h'.2⟩

theorem not_somewhere_iff :
    ¬ Somewhere P kv reqs responses ↔ Throughout (fun kv r a => ¬ P kv r a) kv reqs responses := by
  induction reqs generalizing kv responses with
  | nil => exact iff_of_true not_false trivial
  | cons r reqs ih =>
    cases responses with
    | nil => exact iff_of_true not_false trivial
    | cons a responses =>
      rw [Somewhere, not_or, ih]
      rfl

theorem somewhere_congr (hPQ : ∀ kv r a, P kv r a ↔ Q kv r a) :
    Somewhere P kv reqs responses ↔ Somewhere Q kv reqs responses := by
  rw [← not_iff_not, not_somewhere_iff, not_somewhere_iff]
  exact ⟨Throughout.mono fun kv r a => mt (hPQ kv r a).2,
    Throughout.mono fun kv r a => mt (hPQ kv r a).1⟩

/-- Where no answer fails both, `P` holds throughout unless `Q` holds somewhere without it. -/
theorem throughout_iff_of_not_somewhere
    (h : ¬ Somewhere (fun kv r a => ¬ P kv r a ∧ ¬ Q kv r a) kv reqs responses) :
    Throughout P kv reqs responses ↔
      ¬ Somewhere (fun kv r a => ¬ P kv r a ∧ Q kv r a) kv reqs responses := by
  rw [not_somewhere_iff] at h ⊢
  constructor
  · exact Throughout.mono fun kv r a hP hnot => hnot.1 hP
  · intro hnone
    exact (h.and hnone).mono fun kv r a hboth => by_contra fun hP =>
      hboth.1 ⟨hP, fun hQ => hboth.2 ⟨hP, hQ⟩⟩

/-- Two tests have the same outcome if some answer fails both, or if each fails on its own or
neither does. -/
theorem throughout_iff_throughout_iff :
    (Throughout P kv reqs responses ↔ Throughout Q kv reqs responses) ↔
      Somewhere (fun kv r a => ¬ P kv r a ∧ ¬ Q kv r a) kv reqs responses ∨
        (Somewhere (fun kv r a => ¬ P kv r a ∧ Q kv r a) kv reqs responses ↔
          Somewhere (fun kv r a => ¬ Q kv r a ∧ P kv r a) kv reqs responses) := by
  by_cases hboth : Somewhere (fun kv r a => ¬ P kv r a ∧ ¬ Q kv r a) kv reqs responses
  · have hP : ¬ Throughout P kv reqs responses := fun hall =>
      not_somewhere_iff.2 (hall.mono fun kv r a hP hnot => hnot.1 hP) hboth
    have hQ : ¬ Throughout Q kv reqs responses := fun hall =>
      not_somewhere_iff.2 (hall.mono fun kv r a hQ hnot => hnot.2 hQ) hboth
    exact iff_of_true (iff_of_false hP hQ) (Or.inl hboth)
  · have hboth' : ¬ Somewhere (fun kv r a => ¬ Q kv r a ∧ ¬ P kv r a) kv reqs responses := by
      rwa [somewhere_congr fun _ _ _ => and_comm]
    rw [throughout_iff_of_not_somewhere hboth, throughout_iff_of_not_somewhere hboth', not_iff_not,
      or_iff_right hboth]

end

theorem success_ne_error : statusCodeValueSUCCESS ≠ statusCodeValueERROR := by decide

theorem not_overlooked_of_agrees {kv : Kv} {r : FileRequest} {a : ServerResponse}
    (h : Agrees kv r a) : ¬ Overlooked kv r a := by
  cases r with
  | get key =>
    rintro ⟨hkey, hsuccess, -⟩
    rw [Agrees, hkey] at h
    exact success_ne_error (hsuccess.symm.trans h)
  | put key value => exact id
  | delete key =>
    rintro ⟨hkey, hsuccess⟩
    rw [Agrees, hkey] at h
    exact Bool.false_ne_true (h.1 hsuccess)

theorem agrees_of_unknownStatus {kv : Kv} {r : FileRequest} {a : ServerResponse}
    (h : UnknownStatus kv r a) : Agrees kv r a := by
  cases r with
  | get key => exact h.elim
  | put key value => exact h.elim
  | delete key =>
    rw [Agrees, h.1]
    exact iff_of_false h.2.1 Bool.false_ne_true

/-! ## One response -/

/-- No value of the dictionary looks like an error. -/
def NoErrorText (kv : Kv) : Prop := ∀ key value, kv key = some value → value ≠ ascii "-ERROR-"

theorem NoErrorText.after {kv : Kv} {r : FileRequest} (h : NoErrorText kv)
    (hr : ∀ value ∈ r.putValue, value ≠ ascii "-ERROR-") : NoErrorText (kvAfter kv r) :=
  kvAfter_values h hr

theorem acceptsResponse_get (client : Client) (a : ServerResponse) (line : List UInt8)
    (m : KVMessage) : ∃ accepted,
    acceptsResponse (client.receive a (.get m)) (some line) (.get m) = some accepted ∧
      (accepted = true ↔ a.statusCode = statusCodeValueSUCCESS ∧ line = a.value.text ∨
        a.statusCode = statusCodeValueERROR ∧ line = ascii "-ERROR-") := by
  rw [acceptsResponse, Client.receive]
  dsimp only
  split_ifs with hsuccess herror
  · refine ⟨_, rfl, ?_⟩
    rw [beq_iff_eq, hsuccess]
    simp [success_ne_error]
  · refine ⟨_, rfl, ?_⟩
    rw [beq_iff_eq, herror]
    simp [success_ne_error.symm]
  · exact ⟨false, rfl, by simp [hsuccess, herror]⟩

/-- The test of a PUT or a DELETE: a successful one is not compared with the line. -/
theorem acceptsResponse_of_ne_get (client : Client) (a : ServerResponse) (line : List UInt8)
    {call : ClientCall} (hcall : ∀ m, call ≠ .get m) : ∃ accepted,
    acceptsResponse (client.receive a call) (some line) call = some accepted ∧
      (accepted = true ↔ a.statusCode = statusCodeValueSUCCESS ∨
        a.statusCode = statusCodeValueERROR ∧ line = ascii "-ERROR-") := by
  have hstatus : (client.receive a call).resultStatusCode = a.statusCode := by
    cases call with
    | get m => exact absurd rfl (hcall m)
    | put m => rfl
    | delete m =>
      rw [Client.receive]
      split_ifs <;> rfl
  have haccepts : acceptsResponse (client.receive a call) (some line) call =
      if a.statusCode = statusCodeValueSUCCESS then some true
      else if a.statusCode = statusCodeValueERROR then some (line == ascii "-ERROR-")
      else some false := by
    rw [← hstatus]
    cases call with
    | get m => exact absurd rfl (hcall m)
    | put m => rfl
    | delete m => rfl
  rw [haccepts]
  split_ifs with hsuccess herror
  · exact ⟨true, rfl, by simp [hsuccess]⟩
  · exact ⟨_, rfl, by simp [herror, success_ne_error.symm]⟩
  · exact ⟨false, rfl, by simp [hsuccess, herror]⟩

/-- **The test accepts** the answers of the dictionary and those that it overlooks. -/
theorem acceptsResponse_eq {kv : Kv} {r : FileRequest} (h : NoErrorText kv) (client : Client)
    (a : ServerResponse) {call : ClientCall} {value : Chars256}
    (hcall : call.request = r.sent value) :
    ∃ accepted, acceptsResponse (client.receive a call) (some (expected kv r)) call =
      some accepted ∧ (accepted = true ↔ Accepted kv r a) := by
  have hword : ascii "-SUCCESS-" ≠ ascii "-ERROR-" := by decide
  cases r with
  | get key =>
    obtain ⟨m, rfl⟩ : ∃ m, call = .get m := by
      cases call with
      | get m => exact ⟨m, rfl⟩
      | put m => cases hcall
      | delete m => cases hcall
    obtain ⟨accepted, haccepts, hiff⟩ := acceptsResponse_get client a (expected kv (.get key)) m
    refine ⟨accepted, haccepts, hiff.trans ?_⟩
    cases hkey : kv key with
    | some v =>
      -- the value is not the error text, so the texts decide
      have hv := h key v hkey
      simp [expected, Accepted, Agrees, Overlooked, UnknownStatus, hkey, hv, eq_comm]
    | none =>
      simp [expected, Accepted, Agrees, Overlooked, UnknownStatus, hkey, eq_comm, or_comm]
  | put key v =>
    have hput : ∀ m, call ≠ .get m := by
      rintro m rfl
      cases hcall
    obtain ⟨accepted, haccepts, hiff⟩ :=
      acceptsResponse_of_ne_get client a (expected kv (.put key v)) hput
    refine ⟨accepted, haccepts, hiff.trans ?_⟩
    simp [expected, Accepted, Agrees, Overlooked, UnknownStatus, hword]
  | delete key =>
    have hdelete : ∀ m, call ≠ .get m := by
      rintro m rfl
      cases hcall
    obtain ⟨accepted, haccepts, hiff⟩ :=
      acceptsResponse_of_ne_get client a (expected kv (.delete key)) hdelete
    refine ⟨accepted, haccepts, hiff.trans ?_⟩
    cases hkey : kv key with
    | some v => simp [expected, Accepted, Agrees, Overlooked, UnknownStatus, hkey, hword]
    | none =>
      simp [expected, Accepted, Agrees, Overlooked, UnknownStatus, hkey]
      tauto

/-! ## The whole test -/

variable {text : List UInt8} {reqs : List FileRequest} {responses : List ServerResponse}

/-- The test succeeds if it accepts every answer. The induction is on the requests left, with the
lines of those before in `datasetResults`. -/
theorem autoTestingFrom_success_iff {kv : Kv} (h : NoErrorText kv)
    (hput : ∀ value ∈ putValues reqs, value ≠ ascii "-ERROR-")
    (hfits : ∀ r ∈ reqs, ∀ w ∈ r.words, w.length < kvStrLen)
    (hlen : responses.length = reqs.length) (before : List (List UInt8)) (client : Client)
    (temp : KVMessage) :
    (autoTestingFrom (before ++ expectedLines kv reqs) before.length client (loaded temp reqs)
      responses).2 = .success ↔
      Throughout Accepted kv reqs responses := by
  induction reqs generalizing kv responses before client temp with
  | nil => exact iff_of_true rfl trivial
  | cons r reqs ih =>
    cases responses with
    | nil => cases hlen
    | cons a responses =>
      rw [List.forall_mem_cons] at hfits
      obtain ⟨call, hcall, hsent⟩ := clientCall_store r temp (hfits.1 _ r.key_mem_words)
      obtain ⟨accepted, haccepts, hiff⟩ := acceptsResponse_eq h client a hsent
      have hline : (before ++ expectedLines kv (r :: reqs))[before.length]? =
          some (expected kv r) := by
        rw [List.getElem?_append_right (Nat.le_refl _), Nat.sub_self]
        rfl
      have hputs : (∀ value ∈ r.putValue, value ≠ ascii "-ERROR-") ∧
          ∀ value ∈ putValues reqs, value ≠ ascii "-ERROR-" := by
        refine ⟨fun v hv => hput v ?_, fun v hv => hput v ?_⟩
        · exact List.mem_filterMap.2 ⟨r, List.mem_cons_self, hv⟩
        · obtain ⟨r', hr', hv⟩ := List.mem_filterMap.1 hv
          exact List.mem_filterMap.2 ⟨r', List.mem_cons_of_mem _ hr', hv⟩
      have hrest := ih (h.after hputs.1) hputs.2 hfits.2 (Nat.succ.inj hlen)
        (before ++ [expected kv r]) (client.receive a call) (r.store temp)
      rw [List.append_assoc, List.singleton_append, List.length_append,
        List.length_singleton] at hrest
      rw [loaded, autoTestingFrom, Throughout, ← hiff, ← hrest, hcall]
      simp only [hline, haccepts]
      cases accepted with
      | true => exact (and_iff_right rfl).symm
      | false => exact iff_of_false (by rintro ⟨⟩) fun hfalse => Bool.false_ne_true hfalse.1

theorem wrong_iff {kv : Kv} {r : FileRequest} {a : ServerResponse} :
    (¬ Accepted kv r a ∧ ¬ Agrees kv r a) ↔ PlainlyWrong kv r a := by
  rw [Accepted, PlainlyWrong]
  tauto

theorem overlooked_iff {kv : Kv} {r : FileRequest} {a : ServerResponse} :
    (¬ Agrees kv r a ∧ Accepted kv r a) ↔ Overlooked kv r a := by
  have h : Agrees kv r a → ¬ Overlooked kv r a := not_overlooked_of_agrees
  rw [Accepted]
  tauto

theorem unknownStatus_iff {kv : Kv} {r : FileRequest} {a : ServerResponse} :
    (¬ Accepted kv r a ∧ Agrees kv r a) ↔ UnknownStatus kv r a := by
  have h : Agrees kv r a → ¬ Overlooked kv r a := not_overlooked_of_agrees
  have h' : UnknownStatus kv r a → Agrees kv r a := agrees_of_unknownStatus
  rw [Accepted]
  tauto

/-- **The oracle.** For a well-formed file without the value `-ERROR-`, its solution file and one
response for each request: that `auto_testing` reports success just when all answers agree with the
dictionary is true exactly if some answer is plainly wrong, or if overlooked answers and unknown
status codes occur both or not at all. -/
theorem auto_testing_oracle_iff (h : LinesFile text reqs) (responses : List ServerResponse)
    (hput : ∀ value ∈ putValues reqs, value ≠ ascii "-ERROR-")
    (hlen : responses.length = reqs.length) (requestType : Nat) :
    ∃ dataset solution, loadClientRequestDataset requestType text = .ok dataset ∧
      generate text = some solution ∧
      (((autoTesting dataset (loadClientRequestResults solution) responses).2 = .success ↔
          Throughout Agrees (fun _ => none) reqs responses) ↔
        Somewhere PlainlyWrong (fun _ => none) reqs responses ∨
          (Somewhere Overlooked (fun _ => none) reqs responses ↔
            Somewhere UnknownStatus (fun _ => none) reqs responses)) := by
  obtain ⟨solution, hsolution, hresults⟩ := loadResults_generate h
  refine ⟨_, solution, h.requestFile.load requestType, hsolution, ?_⟩
  have hempty : NoErrorText fun _ => none := fun _ _ => nofun
  have hsuccess := autoTestingFrom_success_iff hempty hput h.fits hlen [] ⟨0, emptyString⟩ .empty
  rw [List.nil_append, List.length_nil] at hsuccess
  rw [autoTesting, hresults, hsuccess, throughout_iff_throughout_iff,
    somewhere_congr fun _ _ _ => wrong_iff, somewhere_congr fun _ _ _ => overlooked_iff,
    somewhere_congr fun _ _ _ => unknownStatus_iff, iff_comm (a := Somewhere UnknownStatus _ _ _)]

/-- A PUT, a GET with the wrong value and a deletion. -/
theorem auto_testing_oracle_iff_three : ∃ dataset solution,
    loadClientRequestDataset 0 (ascii "3\n2 k ab\n1 k\n3 j\n") = .ok dataset ∧
      generate (ascii "3\n2 k ab\n1 k\n3 j\n") = some solution ∧
      ((autoTesting dataset (loadClientRequestResults solution)
          [⟨statusCodeValueSUCCESS, emptyString⟩, ⟨statusCodeValueSUCCESS, .ofText (ascii "ac")⟩,
            ⟨statusCodeValueSUCCESS, emptyString⟩]).2 = .success ↔
        Throughout Agrees (fun _ => none)
          [.put (ascii "k") (ascii "ab"), .get (ascii "k"), .delete (ascii "j")]
          [⟨statusCodeValueSUCCESS, emptyString⟩, ⟨statusCodeValueSUCCESS, .ofText (ascii "ac")⟩,
            ⟨statusCodeValueSUCCESS, emptyString⟩]) := by
  have hfile : LinesFile (ascii "3\n2 k ab\n1 k\n3 j\n")
      [.put (ascii "k") (ascii "ab"), .get (ascii "k"), .delete (ascii "j")] :=
    ⟨by decide +kernel, by decide +kernel, by decide, by decide⟩
  obtain ⟨dataset, solution, hload, hgenerate, hiff⟩ := auto_testing_oracle_iff hfile
    [⟨statusCodeValueSUCCESS, emptyString⟩, ⟨statusCodeValueSUCCESS, .ofText (ascii "ac")⟩,
      ⟨statusCodeValueSUCCESS, emptyString⟩] (by decide) rfl 0
  refine ⟨dataset, solution, hload, hgenerate, hiff.2 (Or.inl (Or.inr (Or.inl ?_)))⟩
  have hvalue : kvAfter (fun _ => none) (.put (ascii "k") (ascii "ab")) (ascii "k") =
      some (ascii "ab") := by
    rw [kvAfter, Function.update_self]
  rw [PlainlyWrong, Agrees, Overlooked, hvalue]
  decide +kernel

/-- The deletion of an absent key is answered with SUCCESS. -/
theorem absent_deletion_accepted :
    LinesFile (ascii "1\n3 k\n") [.delete (ascii "k")] ∧
    ∃ dataset solution, loadClientRequestDataset 0 (ascii "1\n3 k\n") = .ok dataset ∧
      generate (ascii "1\n3 k\n") = some solution ∧
      (autoTesting dataset (loadClientRequestResults solution)
        [⟨statusCodeValueSUCCESS, emptyString⟩]).2 = .success ∧
      ¬ Throughout Agrees (fun _ => none) [.delete (ascii "k")]
        [⟨statusCodeValueSUCCESS, emptyString⟩] := by
  have hfile : LinesFile (ascii "1\n3 k\n") [.delete (ascii "k")] :=
    ⟨by decide +kernel, by decide +kernel, by decide, by decide⟩
  refine ⟨hfile, _, _, hfile.requestFile.load 0, generate_eq hfile, by decide +kernel, ?_⟩
  exact fun hagrees => Bool.false_ne_true (hagrees.1.1 rfl)

end KeyValueStore
