import Mathlib.Data.List.Chain
import KeyValueStore.Client

/-!
# The requests of a file and the requests sent

The server compares and stores arrays of 256 characters, so the client has to pad what it sends with
null characters. Keys are padded by `fix_key_nulling`. A value is sent as the extractions have left
it: the word, a terminator, and what an earlier value wrote behind that. `sent_exactly_iff` says for
which files the client sends the padded requests: the value of no PUT reaches beyond the terminator
of the next one.
-/

namespace KeyValueStore

open TextStream

/-! ## Loading a request file -/

namespace FileRequest

theorem key_mem_words (r : FileRequest) : r.key ∈ r.words := by
  cases r <;> simp [key, words]

theorem putValue_mem_words {r : FileRequest} {v : List UInt8} (hv : v ∈ r.putValue) :
    v ∈ r.words := by
  cases r with
  | put k value =>
    obtain rfl := Option.some.inj hv
    simp [words]
  | get k => cases hv
  | delete k => cases hv

def code : FileRequest → Nat
  | .get _ => 1
  | .put _ _ => 2
  | .delete _ => 3

/-- The array of the value after the line has been loaded. -/
def valueAfter (value : Chars256) : FileRequest → Chars256
  | .put _ word => value.extract word
  | _ => value

/-- `temp` after the line has been loaded. -/
def store (r : FileRequest) (temp : KVMessage) : KVMessage :=
  { temp with
    statusCode := UInt8.ofNat r.code
    key := temp.key.extract r.key
    value := r.valueAfter temp.value }

def sent (value : Chars256) : FileRequest → Request
  | .get key => .get (.ofText (CString.text 0 key))
  | .put key word => .put (.ofText (CString.text 0 key)) (value.extract word)
  | .delete key => .delete (.ofText (CString.text 0 key))

end FileRequest

/-- The messages of a file. -/
def loaded (temp : KVMessage) : List FileRequest → List KVMessage
  | [] => []
  | r :: reqs => r.store temp :: loaded (r.store temp) reqs

/-- The requests sent for a file. -/
def sentRequests (value : Chars256) : List FileRequest → List Request
  | [] => []
  | r :: reqs => r.sent value :: sentRequests (r.valueAfter value) reqs

variable {s : Stream} {ws : List (List UInt8)} {r : FileRequest} {reqs : List FileRequest}
  {text : List UInt8}

theorem extractChars_yields {w : List UInt8} (h : Yields s (w :: ws)) (hw : w.length < kvStrLen)
    (a : Chars256) : ∃ s', extractChars a s = .ok (a.extract w, s') ∧ Yields s' ws := by
  obtain ⟨s', hread, hs'⟩ := h.readWord
  exact ⟨s', by rw [extractChars, hread]; exact if_pos hw, hs'⟩

theorem readCode (h : Yields s (r.words ++ ws)) :
    ∃ s', readNumber toUInt32 s = (some r.code, s') ∧ Yields s' (r.words.tail ++ ws) := by
  have hcode : ∃ w rest, r.words = w :: rest ∧ IsNumeral w ∧ toUInt32 w = (r.code, true) := by
    have hone : toUInt32 (ascii "1") = (1, true) := by decide
    have htwo : toUInt32 (ascii "2") = (2, true) := by decide
    have hthree : toUInt32 (ascii "3") = (3, true) := by decide
    cases r with
    | get key => exact ⟨_, _, rfl, by decide, hone⟩
    | put key value => exact ⟨_, _, rfl, by decide, htwo⟩
    | delete key => exact ⟨_, _, rfl, by decide, hthree⟩
  obtain ⟨w, rest, hwords, hnum, hconv⟩ := hcode
  rw [hwords, List.cons_append] at h
  have hok : (toUInt32 w).2 = true := by rw [hconv]
  obtain ⟨s', hread, hs'⟩ := h.readNumber hnum hok
  rw [hconv] at hread
  exact ⟨s', hread, by rw [hwords]; exact hs'⟩

/-- **One turn of the loop** loads one line. -/
theorem loadRequests_succ (h : Yields s (r.words ++ ws))
    (hfits : ∀ w ∈ r.words, w.length < kvStrLen) (requestType : Nat) (temp : KVMessage) :
    ∃ s', Yields s' ws ∧ ∀ k, loadRequests (k + 1) requestType temp s =
      (loadRequests k r.code (r.store temp) s').map (r.store temp :: ·) := by
  obtain ⟨s₁, hread, hs₁⟩ := readCode h
  have hvalid : ¬ (r.code < 1 ∨ 3 < r.code) := by cases r <;> simp [FileRequest.code]
  cases r with
  | get key =>
    obtain ⟨s₂, hkey, hs₂⟩ := extractChars_yields hs₁ (hfits key (by simp [FileRequest.words]))
      temp.key
    refine ⟨s₂, hs₂, ?_⟩
    intro k
    rw [loadRequests, hread]
    simp only [Option.getD_some, if_neg hvalid, hkey]
    rfl
  | put key value =>
    obtain ⟨s₂, hkey, hs₂⟩ := extractChars_yields hs₁ (hfits key (by simp [FileRequest.words]))
      temp.key
    obtain ⟨s₃, hvalue, hs₃⟩ := extractChars_yields hs₂ (hfits value (by simp [FileRequest.words]))
      temp.value
    refine ⟨s₃, hs₃, ?_⟩
    intro k
    rw [loadRequests, hread]
    simp only [Option.getD_some, if_neg hvalid, hkey]
    change (extractChars temp.value s₂ >>= fun x => _) = _
    rw [hvalue]
    rfl
  | delete key =>
    obtain ⟨s₂, hkey, hs₂⟩ := extractChars_yields hs₁ (hfits key (by simp [FileRequest.words]))
      temp.key
    refine ⟨s₂, hs₂, ?_⟩
    intro k
    rw [loadRequests, hread]
    simp only [Option.getD_some, if_neg hvalid, hkey]
    rfl

theorem loadRequests_eq (h : Yields s (reqs.flatMap FileRequest.words))
    (hfits : ∀ r ∈ reqs, ∀ w ∈ r.words, w.length < kvStrLen) (requestType : Nat)
    (temp : KVMessage) :
    loadRequests reqs.length requestType temp s = .ok (loaded temp reqs) := by
  induction reqs generalizing s requestType temp with
  | nil => rfl
  | cons r reqs ih =>
    rw [List.forall_mem_cons] at hfits
    obtain ⟨s', hs', hstep⟩ := loadRequests_succ h hfits.1 requestType temp
    rw [List.length_cons, hstep, ih hs' hfits.2]
    rfl

/-- **A well-formed file is loaded** line by line. -/
theorem RequestFile.load (h : RequestFile text reqs) (requestType : Nat) :
    loadClientRequestDataset requestType text = .ok (loaded .empty reqs) := by
  obtain ⟨count, hnum, hcount, hwords⟩ := h.words
  have hyields := yields_of text
  rw [hwords] at hyields
  have hconv := hnum.toUInt32_eq (hcount ▸ h.count_lt)
  have hok : (toUInt32 count).2 = true := by rw [hconv]
  obtain ⟨s', hread, hs'⟩ := hyields.readNumber hnum hok
  rw [loadClientRequestDataset, hread, hconv, hcount]
  exact loadRequests_eq hs' h.fits requestType .empty

/-! ## Sending it -/

theorem clientCall_store (r : FileRequest) (temp : KVMessage)
    (hkey : r.key.length < kvStrLen) : ∃ call,
    clientCall (r.store temp).fixKeyNulling = some call ∧ call.request = r.sent temp.value := by
  have hnulled : (r.store temp).fixKeyNulling.key = Chars256.ofText (CString.text 0 r.key) := by
    rw [fixKeyNulling_key]
    exact congrArg Chars256.ofText (text_extract temp.key hkey)
  cases r with
  | get key => exact ⟨.get _, rfl, congrArg Request.get hnulled⟩
  | put key value => exact ⟨.put _, rfl, congrArg (Request.put · _) hnulled⟩
  | delete key => exact ⟨.delete _, rfl, congrArg Request.delete hnulled⟩

/-- The calls that the messages of a file lead to. -/
theorem startSendingRequests_loaded
    (hfits : ∀ r ∈ reqs, ∀ w ∈ r.words, w.length < kvStrLen) (temp : KVMessage) :
    (startSendingRequests (loaded temp reqs)).map ClientCall.request =
      sentRequests temp.value reqs := by
  induction reqs generalizing temp with
  | nil => rfl
  | cons r reqs ih =>
    rw [List.forall_mem_cons] at hfits
    obtain ⟨call, hcall, hsent⟩ := clientCall_store r temp (hfits.1 _ r.key_mem_words)
    rw [loaded, startSendingRequests_cons, hcall, Option.toList_some, List.map_append,
      List.map_singleton, hsent, ih hfits.2]
    rfl

/-! ## Which files are sent exactly -/

/-- The value does not reach beyond the terminator of the next one. -/
def Covered (previous next : List UInt8) : Prop :=
  CString.AllNull 0 (previous.drop (next.length + 1))

/-- A key has nothing after a null character. -/
def KeyIsString (key : List UInt8) : Prop :=
  CString.AllNull 0 (key.drop (CString.text 0 key).length)

instance (key : List UInt8) : Decidable (KeyIsString key) :=
  inferInstanceAs (Decidable (CString.AllNull 0 _))

/-- The values of the PUT requests, in order. -/
def putValues (reqs : List FileRequest) : List (List UInt8) := reqs.filterMap FileRequest.putValue

theorem ofText_text_iff {key : List UInt8} (hlen : key.length < kvStrLen) :
    Chars256.ofText (CString.text 0 key) = Chars256.ofText key ↔ KeyIsString key := by
  rw [KeyIsString, ← CString.fill_text_iff 0 hlen.le]
  exact ⟨fun h => congrArg Chars256.bytes h, fun h => Chars256.ext h⟩

/-- A value is stored exactly over one that it covers. -/
theorem extract_ofText_iff {previous value : List UInt8} (hprev : previous.length < kvStrLen)
    (hlen : value.length < kvStrLen) :
    (Chars256.ofText previous).extract value = Chars256.ofText value ↔
      Covered previous value := by
  have hroom : kvStrLen - value.length = kvStrLen - (value.length + 1) + 1 := by omega
  rw [Covered, ← CString.allNull_drop_fill 0 hprev.le]
  constructor
  · intro h
    have hbytes := congrArg Chars256.bytes h
    rw [extract_bytes _ hlen, bytes_ofText, bytes_ofText, CString.fill_eq 0 _ value,
      List.take_of_length_le hlen.le, hroom, List.replicate_succ, List.append_cancel_left_eq,
      List.cons.injEq] at hbytes
    rw [hbytes.2]
    exact fun c hc => List.eq_of_mem_replicate hc
  · intro h
    apply Chars256.ext
    rw [extract_bytes _ hlen, bytes_ofText, bytes_ofText, CString.fill_eq 0 _ value,
      List.take_of_length_le hlen.le, hroom, List.replicate_succ, List.append_cancel_left_eq,
      List.cons.injEq]
    refine ⟨rfl, List.eq_replicate_iff.2 ⟨?_, h⟩⟩
    rw [List.length_drop, CString.length_fill]

/-- One line, over an array that holds a value exactly. -/
theorem sent_eq_iff {previous : List UInt8} (hprev : previous.length < kvStrLen)
    (hfits : ∀ w ∈ r.words, w.length < kvStrLen) :
    r.sent (.ofText previous) = r.request ↔
      KeyIsString r.key ∧ ∀ v ∈ r.putValue, Covered previous v := by
  rw [← ofText_text_iff (hfits _ r.key_mem_words)]
  cases r with
  | get key => simp [FileRequest.sent, FileRequest.request, FileRequest.key, FileRequest.putValue]
  | put key value =>
    have hvalue := hfits value (FileRequest.putValue_mem_words rfl)
    simp [FileRequest.sent, FileRequest.request, FileRequest.key, FileRequest.putValue,
      extract_ofText_iff hprev hvalue]
  | delete key =>
    simp [FileRequest.sent, FileRequest.request, FileRequest.key, FileRequest.putValue]

/-- All lines of a file. The induction starts from any value that the array holds exactly. -/
theorem sentRequests_eq_iff {previous : List UInt8} (hprev : previous.length < kvStrLen)
    (hfits : ∀ r ∈ reqs, ∀ w ∈ r.words, w.length < kvStrLen) :
    sentRequests (.ofText previous) reqs = reqs.map FileRequest.request ↔
      (∀ r ∈ reqs, KeyIsString r.key) ∧ (previous :: putValues reqs).IsChain Covered := by
  induction reqs generalizing previous with
  | nil => simp [sentRequests, putValues]
  | cons r reqs ih =>
    rw [List.forall_mem_cons] at hfits
    rw [sentRequests, List.map_cons, List.cons.injEq, sent_eq_iff hprev hfits.1,
      List.forall_mem_cons]
    -- only a PUT changes the array of the value
    cases hput : r.putValue with
    | none =>
      have hvalue : r.valueAfter (.ofText previous) = .ofText previous := by
        cases r <;> first | rfl | cases hput
      have hvalues : putValues (r :: reqs) = putValues reqs := List.filterMap_cons_none hput
      rw [hvalue, ih hprev hfits.2, hvalues]
      simp [and_assoc]
    | some v =>
      obtain ⟨hv, hvalue⟩ : v.length < kvStrLen ∧
          r.valueAfter (.ofText previous) = (Chars256.ofText previous).extract v := by
        cases r with
        | put key value =>
          obtain rfl := Option.some.inj hput
          exact ⟨hfits.1 value (FileRequest.putValue_mem_words rfl), rfl⟩
        | get key => cases hput
        | delete key => cases hput
      have hvalues : putValues (r :: reqs) = v :: putValues reqs := List.filterMap_cons_some hput
      rw [hvalue, hvalues, List.isChain_cons_cons]
      constructor
      · rintro ⟨⟨hkey, hcov⟩, hrest⟩
        have hcov := hcov v rfl
        rw [(extract_ofText_iff hprev hv).2 hcov, ih hv hfits.2] at hrest
        exact ⟨⟨hkey, hrest.1⟩, hcov, hrest.2⟩
      · rintro ⟨⟨hkey, hkeys⟩, hcov, hchain⟩
        refine ⟨⟨hkey, fun w hw => Option.some.inj hw ▸ hcov⟩, ?_⟩
        rw [(extract_ofText_iff hprev hv).2 hcov, ih hv hfits.2]
        exact ⟨hkeys, hchain⟩

/-- **The client sends the padded requests of its file**, by `start_sending_requests` and, as far as
it gets, by `auto_testing`, exactly if no key goes on after a null character and no value of a PUT
reaches beyond the terminator of the next one. -/
theorem sent_exactly_iff (h : RequestFile text reqs) (requestType : Nat) :
    ∃ dataset, loadClientRequestDataset requestType text = .ok dataset ∧
      (((startSendingRequests dataset).map ClientCall.request = reqs.map FileRequest.request ∧
        ∀ datasetResults responses, (autoTesting dataset datasetResults responses).1.map
          ClientCall.request <+: reqs.map FileRequest.request) ↔
        (∀ r ∈ reqs, KeyIsString r.key) ∧ (putValues reqs).IsChain Covered) := by
  refine ⟨loaded .empty reqs, h.load requestType, ?_⟩
  have hsent : (startSendingRequests (loaded .empty reqs)).map ClientCall.request =
      reqs.map FileRequest.request ↔
      (∀ r ∈ reqs, KeyIsString r.key) ∧ (putValues reqs).IsChain Covered := by
    rw [startSendingRequests_loaded h.fits]
    -- a new message holds the empty value
    have hprev : ([] : List UInt8).length < kvStrLen := by decide
    have hempty := sentRequests_eq_iff hprev h.fits
    refine hempty.trans (and_congr_right fun _ => ?_)
    cases putValues reqs with
    | nil => simp
    | cons v vs =>
      rw [List.isChain_cons_cons]
      exact and_iff_right (by simp [Covered, CString.AllNull])
  rw [← hsent]
  refine and_iff_left_of_imp fun heq datasetResults responses => ?_
  rw [← heq]
  exact (autoTestingFrom_take datasetResults 0 _ _ responses).map _

/-- A PUT and a GET. -/
theorem sent_exactly_iff_two : ∃ dataset,
    loadClientRequestDataset 0 (ascii "2\n2 k ab\n1 k\n") = .ok dataset ∧
      (startSendingRequests dataset).map ClientCall.request =
        [.put (.ofText (ascii "k")) (.ofText (ascii "ab")), .get (.ofText (ascii "k"))] := by
  have hfile : RequestFile (ascii "2\n2 k ab\n1 k\n")
      [.put (ascii "k") (ascii "ab"), .get (ascii "k")] :=
    ⟨⟨ascii "2", by decide, by decide, by decide +kernel⟩, by decide, by decide⟩
  obtain ⟨dataset, hload, hiff⟩ := sent_exactly_iff hfile 0
  exact ⟨dataset, hload, (hiff.2 ⟨by decide, List.isChain_singleton _⟩).1⟩

/-- The value of the second PUT is sent with the end of the first one behind its terminator. -/
theorem stale_value_sent :
    RequestFile (ascii "2\n2 a longer\n2 b x\n")
      [.put (ascii "a") (ascii "longer"), .put (ascii "b") (ascii "x")] ∧
    ∃ dataset, loadClientRequestDataset 0 (ascii "2\n2 a longer\n2 b x\n") = .ok dataset ∧
      (startSendingRequests dataset).map ClientCall.request =
        [.put (.ofText (ascii "a")) (.ofText (ascii "longer")),
          .put (.ofText (ascii "b")) (.ofText (120 :: 0 :: ascii "nger"))] ∧
      (startSendingRequests dataset).map ClientCall.request ≠
        [.put (.ofText (ascii "a")) (.ofText (ascii "longer")),
          .put (.ofText (ascii "b")) (.ofText (ascii "x"))] := by
  have hfile : RequestFile (ascii "2\n2 a longer\n2 b x\n")
      [.put (ascii "a") (ascii "longer"), .put (ascii "b") (ascii "x")] :=
    ⟨⟨ascii "2", by decide, by decide, by decide +kernel⟩, by decide, by decide⟩
  have hsent := startSendingRequests_loaded hfile.fits .empty
  refine ⟨hfile, _, hfile.load 0, ?_, ?_⟩
  · rw [hsent]
    decide +kernel
  · rw [hsent]
    decide +kernel

end KeyValueStore
