import KeyValueStore.ClientOracle

/-!
# The automatic test of a fresh server

The four programs of a test together: a request file, the solution that
`PythonSolutionsGenerator.py` prints for it, the client, which loads both and tests every response
by `auto_testing`, and a server that starts without data. The script works on strings and the server
on arrays of 256 characters. The two agree on strings that fit and have no null character in them
(`Mirrors`), although a value may be stored with the rest of an earlier one behind its terminator.
-/

namespace KeyValueStore

open Run TextStream PythonSolutionsGenerator

/-- What the client reads of a response is what it leaves in the connection. -/
def Client.response (client : Client) : ServerResponse :=
  ⟨client.resultStatusCode, client.resultValue⟩

/-- The string fits an array with its terminator. -/
def FitsArray (s : List UInt8) : Prop := 0 ∉ s ∧ s.length < kvStrLen

instance (s : List UInt8) : Decidable (FitsArray s) :=
  inferInstanceAs (Decidable (_ ∧ _))

/-- The dictionary of the server holds what `kv` does, as strings. -/
def Mirrors (kv : Kv) (d : Dict) : Prop :=
  ∀ key, FitsArray key → (d (.ofText key)).map Chars256.text = kv key

variable {kv : Kv} {d : Dict} {r : FileRequest} {reqs : List FileRequest} {text : List UInt8}

theorem FitsArray.text_eq {s : List UInt8} (h : FitsArray s) : CString.text 0 s = s :=
  CString.text_eq_self 0 h.1

theorem FitsArray.ofText_eq_iff {s t : List UInt8} (hs : FitsArray s) (ht : FitsArray t) :
    Chars256.ofText s = Chars256.ofText t ↔ s = t :=
  ofText_inj hs.1 ht.1 hs.2.le ht.2.le

theorem Mirrors.update (h : Mirrors kv d) {key : List UInt8} (hkey : FitsArray key)
    {v : Option Chars256} {value : Option (List UInt8)} (hv : v.map Chars256.text = value) :
    Mirrors (Function.update kv key value) (Function.update d (.ofText key) v) := by
  intro k hk
  by_cases hsame : k = key
  · rw [hsame, Function.update_self, Function.update_self, hv]
  · have hne : Chars256.ofText k ≠ Chars256.ofText key := mt (hk.ofText_eq_iff hkey).1 hsame
    rw [Function.update_of_ne hne, Function.update_of_ne hsame, h k hk]

/-- **One request** on both dictionaries. -/
theorem Mirrors.after (h : Mirrors kv d) (hr : ∀ w ∈ r.words, FitsArray w) (value : Chars256) :
    Mirrors (kvAfter kv r) (dictRequest d (r.sent value)).2 := by
  cases r with
  | get key => exact h
  | put key word =>
    have hkey : FitsArray key := hr _ (FileRequest.key_mem_words _)
    have hword := hr word (FileRequest.putValue_mem_words rfl)
    have hsame : (some (value.extract word)).map Chars256.text = some word :=
      congrArg some ((text_extract value hword.2).trans hword.text_eq)
    rw [FileRequest.sent, hkey.text_eq]
    exact h.update hkey hsame
  | delete key =>
    have hkey : FitsArray key := hr _ (FileRequest.key_mem_words _)
    rw [FileRequest.sent, hkey.text_eq]
    exact h.update hkey rfl

/-- **The response of the dictionary is accepted**, whatever the client has read before. -/
theorem Mirrors.accepted (h : Mirrors kv d) (hr : ∀ w ∈ r.words, FitsArray w) {value : Chars256}
    {call : ClientCall} (hcall : call.request = r.sent value) (client shown : Client) :
    acceptsResponse (client.receive (shown.show (dictRequest d (r.sent value)).1).response call)
      (some (expected kv r)) call = some true := by
  cases r with
  | get key =>
    have hkey : FitsArray key := hr _ (FileRequest.key_mem_words _)
    obtain ⟨m, rfl⟩ : ∃ m, call = .get m := by
      cases call with
      | get m => exact ⟨m, rfl⟩
      | put m => cases hcall
      | delete m => cases hcall
    obtain ⟨accepted, haccepts, hiff⟩ := acceptsResponse_get client
      (shown.show (dictRequest d ((FileRequest.get key).sent value)).1).response
      (expected kv (.get key)) m
    rw [haccepts, Option.some.injEq, hiff]
    have hmirror := h key hkey
    rw [FileRequest.sent, hkey.text_eq, expected, ← hmirror, dictRequest]
    -- the script's dictionary has the key just if the server's has
    cases d (.ofText key) with
    | some v => exact Or.inl ⟨rfl, rfl⟩
    | none => exact Or.inr ⟨rfl, rfl⟩
  | put key word =>
    have hput : ∀ m, call ≠ .get m := by
      rintro m rfl
      cases hcall
    obtain ⟨accepted, haccepts, hiff⟩ := acceptsResponse_of_ne_get client
      (shown.show (dictRequest d ((FileRequest.put key word).sent value)).1).response
      (expected kv (.put key word)) hput
    rw [haccepts, Option.some.injEq, hiff]
    exact Or.inl rfl
  | delete key =>
    have hkey : FitsArray key := hr _ (FileRequest.key_mem_words _)
    have hdelete : ∀ m, call ≠ .get m := by
      rintro m rfl
      cases hcall
    obtain ⟨accepted, haccepts, hiff⟩ := acceptsResponse_of_ne_get client
      (shown.show (dictRequest d ((FileRequest.delete key).sent value)).1).response
      (expected kv (.delete key)) hdelete
    rw [haccepts, Option.some.injEq, hiff]
    have hmirror := h key hkey
    rw [FileRequest.sent, hkey.text_eq, expected, ← hmirror, dictRequest]
    cases d (.ofText key) with
    | some v => exact Or.inl rfl
    | none => exact Or.inr ⟨rfl, rfl⟩

/-! ## The whole test -/

/-- The test of the responses that the dictionary gives. The induction is on the requests left, with
the lines of those before in `datasetResults`. -/
theorem autoTestingFrom_dictSession {m : DictSession} (h : Mirrors kv m.dict)
    (hfits : ∀ r ∈ reqs, ∀ w ∈ r.words, FitsArray w) (before : List (List UInt8))
    (client : Client) (temp : KVMessage) :
    autoTestingFrom (before ++ expectedLines kv reqs) before.length client (loaded temp reqs)
      ((specCalls DictSession.call m (startSendingRequests (loaded temp reqs))).1.map
        Client.response) = (startSendingRequests (loaded temp reqs), .success) := by
  induction reqs generalizing kv m before client temp with
  | nil => rfl
  | cons r reqs ih =>
    rw [List.forall_mem_cons] at hfits
    obtain ⟨call, hcall, hsent⟩ := clientCall_store r temp (hfits.1 _ r.key_mem_words).2
    have haccepts := h.accepted hfits.1 hsent client m.client
    have hline : (before ++ expected kv r :: expectedLines (kvAfter kv r) reqs)[before.length]? =
        some (expected kv r) := by
      rw [List.getElem?_append_right (Nat.le_refl _), Nat.sub_self]
      rfl
    have hrest := @ih (kvAfter kv r) (m.request call.request)
      (by rw [hsent]; exact h.after hfits.1 temp.value) hfits.2 (before ++ [expected kv r])
      (client.receive (m.request call.request).client.response call) (r.store temp)
    rw [List.append_assoc, List.singleton_append, List.length_append, List.length_singleton]
      at hrest
    rw [← hsent] at haccepts
    rw [expectedLines, loaded, startSendingRequests_cons, hcall, autoTestingFrom, hcall]
    simp only [Option.toList_some, List.singleton_append, specCalls, DictSession.call,
      List.map_cons, hline]
    have hshown : (m.request call.request).client =
      m.client.show (dictRequest m.dict call.request).1 := rfl
    rw [hshown, haccepts]
    rw [hshown] at hrest
    simp only [hrest]

theorem KVState.start_fresh {cacheSize : Nat} (hsize : 1 ≤ cacheSize) :
    ∃ state, KVState.start cacheSize (fun _ => none) = .ok state ∧
      KVState.Holds cacheSize state fun _ => none := by
  obtain ⟨s, hs, -, hrep, hn⟩ := KVState.start_spec hsize fresh_rep
  exact ⟨s, hs, _, hrep, hn⟩

/-- The test of a server without data. -/
theorem PythonSolutionsGenerator.LinesFile.passes (h : LinesFile text reqs)
    (hfits : ∀ r ∈ reqs, ∀ w ∈ r.words, FitsArray w) {cacheSize : Nat} (hsize : 1 ≤ cacheSize) :
    ∃ solution state, generate text = some solution ∧
      KVState.start cacheSize (fun _ => none) = .ok state ∧
      ∀ (client : Client) (message : KVMessage),
        SucceedsUnlessFull (calls Session.call ⟨client, ⟨message, state, []⟩, ⟨[], []⟩⟩
          (startSendingRequests (loaded .empty reqs))) fun r =>
            autoTesting (loaded .empty reqs) (loadClientRequestResults solution)
              (r.1.map Client.response) =
                (startSendingRequests (loaded .empty reqs), .success) := by
  obtain ⟨solution, hgenerate, hresults⟩ := loadResults_generate h
  obtain ⟨state, hstart, hholds⟩ := KVState.start_fresh hsize
  refine ⟨solution, state, hgenerate, hstart, ?_⟩
  intro client message
  have hstep : InStep cacheSize ⟨client, ⟨message, state, []⟩, ⟨[], []⟩⟩
      ⟨client, fun _ => none, []⟩ := ⟨rfl, rfl, hholds, rfl⟩
  refine (simulation (InStep cacheSize) (fun _ _ c h => h.call hsize c) _ hstep).mono
    fun r hr => ?_
  have htest := autoTestingFrom_dictSession (m := ⟨client, fun _ => none, []⟩)
    (fun _ _ => rfl) hfits [] ⟨0, emptyString⟩ .empty
  rw [List.nil_append] at htest
  rw [hr.1, hresults]
  exact htest

/-- **The automatic test of a fresh server succeeds**, for every request file without null
characters and whatever the size of the cache. -/
theorem auto_test_passes (h : LinesFile text reqs) (hnull : ∀ r ∈ reqs, ∀ w ∈ r.words, 0 ∉ w)
    {cacheSize : Nat} (hsize : 1 ≤ cacheSize) (requestType : Nat) :
    ∃ dataset solution state, loadClientRequestDataset requestType text = .ok dataset ∧
      generate text = some solution ∧ KVState.start cacheSize (fun _ => none) = .ok state ∧
      ∀ (client : Client) (message : KVMessage),
        SucceedsUnlessFull (calls Session.call ⟨client, ⟨message, state, []⟩, ⟨[], []⟩⟩
          (startSendingRequests dataset)) fun r =>
            autoTesting dataset (loadClientRequestResults solution) (r.1.map Client.response) =
              (startSendingRequests dataset, .success) := by
  obtain ⟨solution, state, hgenerate, hstart, htest⟩ :=
    h.passes (fun r hr w hw => ⟨hnull r hr w hw, h.fits r hr w hw⟩) hsize
  exact ⟨_, solution, state, h.requestFile.load requestType, hgenerate, hstart, htest⟩

/-- A PUT, a GET, and the deletion of an absent key. -/
theorem auto_test_passes_three : ∃ dataset solution state,
    loadClientRequestDataset 0 (ascii "3\n2 k ab\n1 k\n3 j\n") = .ok dataset ∧
      generate (ascii "3\n2 k ab\n1 k\n3 j\n") = some solution ∧
      KVState.start 1 (fun _ => none) = .ok state ∧
      ∀ (client : Client) (message : KVMessage),
        SucceedsUnlessFull (calls Session.call ⟨client, ⟨message, state, []⟩, ⟨[], []⟩⟩
          (startSendingRequests dataset)) fun r =>
            autoTesting dataset (loadClientRequestResults solution) (r.1.map Client.response) =
              (startSendingRequests dataset, .success) := by
  have hfile : LinesFile (ascii "3\n2 k ab\n1 k\n3 j\n")
      [.put (ascii "k") (ascii "ab"), .get (ascii "k"), .delete (ascii "j")] :=
    ⟨by decide +kernel, by decide +kernel, by decide, by decide⟩
  exact auto_test_passes hfile (by decide) (le_refl 1) 0

end KeyValueStore
