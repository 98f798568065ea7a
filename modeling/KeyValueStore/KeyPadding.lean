import KeyValueStore.Lib.CString
import KeyValueStore.Message

/-!
# Filling the key of a message

A key is compared and hashed over all of its 256 characters, so what follows the terminator counts.
`KVMessage` normalises a key in two ways. `set_key` copies a string and writes null characters
after it. `fix_key_nulling` clears in place whatever an earlier key left after the terminator. Both
come to the same array, `Chars256.ofText` of the string (`setKey_key`, `fixKeyNulling_key`), so
messages match exactly when their keys are equal as strings.
-/

namespace KeyValueStore

/-- The string a `char[256]` holds. -/
def Chars256.text (a : Chars256) : List UInt8 := CString.text 0 a.bytes

/-! ## `set_key` -/

/-- First loop of `set_key`, from index `i`: copies up to the terminator and returns the index
after the last character. The end of the list is the terminator behind `ptr` too. -/
def copyLoop (key : List UInt8) (i : Nat) : List UInt8 → List UInt8 × Nat
  | [] => (key, i)
  | c :: ptr => if i < kvStrLen ∧ c ≠ 0 then copyLoop (key.set i c) (i + 1) ptr else (key, i)

/-- Second loop of `set_key`, from index `i`. -/
def zeroLoop (key : List UInt8) (i : Nat) : List UInt8 :=
  if i < kvStrLen then zeroLoop (key.set i 0) (i + 1) else key
termination_by kvStrLen - i

theorem length_copyLoop (key : List UInt8) (i : Nat) (ptr : List UInt8) :
    (copyLoop key i ptr).1.length = key.length := by
  induction ptr generalizing key i with
  | nil => rfl
  | cons c ptr ih =>
    rw [copyLoop]
    split_ifs
    · rw [ih, List.length_set]
    · rfl

theorem length_zeroLoop (key : List UInt8) (i : Nat) : (zeroLoop key i).length = key.length := by
  fun_induction zeroLoop key i with
  | case1 key i hi ih => rw [ih, List.length_set]
  | case2 key i hi => rfl

def KVMessage.setKey (m : KVMessage) (ptr : List UInt8) : KVMessage :=
  let copied := copyLoop m.key.bytes 0 ptr
  { m with key := ⟨zeroLoop copied.1 copied.2, by
      rw [length_zeroLoop, length_copyLoop, m.key.length_eq]⟩ }

/-- What comes before index `i` stays, and the string comes after it. -/
theorem copyLoop_eq {key : List UInt8} {i : Nat} (hi : i ≤ key.length)
    (hlen : key.length = kvStrLen) (ptr : List UInt8) :
    (copyLoop key i ptr).1.take (copyLoop key i ptr).2 =
        key.take i ++ (CString.text 0 ptr).take (kvStrLen - i) ∧
      (copyLoop key i ptr).2 ≤ kvStrLen := by
  induction ptr generalizing key i with
  | nil => exact ⟨by simp [copyLoop], by rw [copyLoop]; omega⟩
  | cons c ptr ih =>
    rw [copyLoop]
    split_ifs with h
    · obtain ⟨hlt, hc⟩ := h
      obtain ⟨htake, hle⟩ := @ih (key.set i c) (i + 1) (by rw [List.length_set]; omega)
        (by rw [List.length_set, hlen])
      have hroom : kvStrLen - i = kvStrLen - (i + 1) + 1 := by omega
      refine ⟨?_, hle⟩
      rw [htake, CString.text_cons_of_ne 0 hc, hroom, List.take_succ_cons,
        List.take_succ_eq_append_getElem (by rw [List.length_set]; omega),
        List.getElem_set_self, List.take_set_of_le (Nat.le_refl i), List.append_assoc,
        List.singleton_append]
    · refine ⟨?_, by omega⟩
      by_cases hlt : i < kvStrLen
      · have hc : c = 0 := not_not.1 fun hc => h ⟨hlt, hc⟩
        rw [hc, CString.text_cons_null, List.take_nil, List.append_nil]
      · rw [show kvStrLen - i = 0 by omega, List.take_zero, List.append_nil]

theorem zeroLoop_eq {key : List UInt8} (hlen : key.length = kvStrLen) (i : Nat) :
    zeroLoop key i = key.take i ++ List.replicate (kvStrLen - i) 0 := by
  fun_induction zeroLoop key i with
  | case1 key i hi ih =>
    have hroom : kvStrLen - i = kvStrLen - (i + 1) + 1 := by omega
    rw [ih (by rw [List.length_set, hlen]), hroom, List.replicate_succ,
      List.take_succ_eq_append_getElem (by rw [List.length_set]; omega), List.getElem_set_self,
      List.take_set_of_le (Nat.le_refl i), List.append_assoc, List.singleton_append]
  | case2 key i hi =>
    rw [List.take_of_length_le (by omega), show kvStrLen - i = 0 by omega, List.replicate_zero,
      List.append_nil]

theorem bytes_ofText (s : List UInt8) : (Chars256.ofText s).bytes = CString.fill 0 kvStrLen s := rfl

/-- **`set_key` stores the string and null characters**, whatever the key held before. -/
theorem setKey_key (m : KVMessage) (ptr : List UInt8) :
    (m.setKey ptr).key = Chars256.ofText (CString.text 0 ptr) := by
  apply Chars256.ext
  obtain ⟨htake, hle⟩ := copyLoop_eq (Nat.zero_le _) m.key.length_eq ptr
  have hzero := zeroLoop_eq ((length_copyLoop m.key.bytes 0 ptr).trans m.key.length_eq)
    (copyLoop m.key.bytes 0 ptr).2
  rw [List.take_zero, List.nil_append, Nat.sub_zero] at htake
  have hidx : (copyLoop m.key.bytes 0 ptr).2 = min kvStrLen (CString.text 0 ptr).length := by
    have := congrArg List.length htake
    rwa [List.length_take, List.length_take, length_copyLoop, m.key.length_eq,
      Nat.min_eq_left hle] at this
  rw [bytes_ofText, CString.fill_eq]
  show zeroLoop _ _ = _
  rw [hzero, htake, hidx]
  congr 2
  omega

/-- `set_value`, whose loops are those of `set_key`. -/
def KVMessage.setValue (m : KVMessage) (ptr : List UInt8) : KVMessage :=
  let copied := copyLoop m.value.bytes 0 ptr
  { m with value := ⟨zeroLoop copied.1 copied.2, by
      rw [length_zeroLoop, length_copyLoop, m.value.length_eq]⟩ }

/-- **`set_value` stores the string and null characters** as `set_key` does. -/
theorem setValue_value (m : KVMessage) (ptr : List UInt8) :
    (m.setValue ptr).value = Chars256.ofText (CString.text 0 ptr) :=
  setKey_key { m with key := m.value } ptr

/-! ## `fix_key_nulling` -/

/-- The loop of `fix_key_nulling`. -/
def nullLoop (zeroEncountered : Bool) : List UInt8 → List UInt8
  | [] => []
  | i :: key =>
    let zeroEncountered := zeroEncountered || i == 0
    (if zeroEncountered then 0 else i) :: nullLoop zeroEncountered key

theorem length_nullLoop (zeroEncountered : Bool) (key : List UInt8) :
    (nullLoop zeroEncountered key).length = key.length := by
  induction key generalizing zeroEncountered with
  | nil => rfl
  | cons i key ih => rw [nullLoop, List.length_cons, ih, List.length_cons]

def KVMessage.fixKeyNulling (m : KVMessage) : KVMessage :=
  { m with key := ⟨nullLoop false m.key.bytes, by rw [length_nullLoop, m.key.length_eq]⟩ }

theorem nullLoop_true (key : List UInt8) : nullLoop true key = List.replicate key.length 0 := by
  induction key with
  | nil => rfl
  | cons i key ih =>
    rw [nullLoop, Bool.true_or, if_pos rfl, ih, List.length_cons, List.replicate_succ]

theorem nullLoop_false (key : List UInt8) :
    nullLoop false key = CString.fill 0 key.length (CString.text 0 key) := by
  induction key with
  | nil => rfl
  | cons i key ih =>
    rw [nullLoop, Bool.false_or]
    by_cases hi : i = 0
    · rw [hi, beq_self_eq_true, if_pos rfl, nullLoop_true, CString.text_cons_null,
        CString.fill_nil, List.length_cons, List.replicate_succ]
    · rw [beq_eq_false_iff_ne.2 hi, if_neg Bool.false_ne_true, ih, CString.text_cons_of_ne 0 hi,
        List.length_cons, CString.fill_cons]

/-- **`fix_key_nulling` keeps the string and clears the rest.** -/
theorem fixKeyNulling_key (m : KVMessage) :
    m.fixKeyNulling.key = Chars256.ofText m.key.text := by
  apply Chars256.ext
  show nullLoop false m.key.bytes = _
  rw [nullLoop_false, m.key.length_eq, bytes_ofText, Chars256.text]

/-! ## Strings of keys -/

theorem null_notMem_text (a : Chars256) : 0 ∉ a.text := CString.null_notMem_text 0 _

theorem length_text_le (a : Chars256) : a.text.length ≤ kvStrLen :=
  (CString.length_text_le 0 _).trans_eq a.length_eq

theorem text_ofText {s : List UInt8} (hs : 0 ∉ s) : (Chars256.ofText s).text = s.take kvStrLen := by
  rw [Chars256.text, bytes_ofText, CString.text_fill 0 kvStrLen hs]

theorem ofText_inj {s t : List UInt8} (hs : 0 ∉ s) (ht : 0 ∉ t) (hls : s.length ≤ kvStrLen)
    (hlt : t.length ≤ kvStrLen) : Chars256.ofText s = Chars256.ofText t ↔ s = t := by
  have hbytes : Chars256.ofText s = Chars256.ofText t ↔
      CString.fill 0 kvStrLen s = CString.fill 0 kvStrLen t :=
    ⟨fun h => congrArg Chars256.bytes h, fun h => Chars256.ext h⟩
  rw [hbytes, CString.fill_inj 0 kvStrLen hs ht, List.take_of_length_le hls,
    List.take_of_length_le hlt]

theorem ofText_take (s : List UInt8) :
    Chars256.ofText (s.take kvStrLen) = Chars256.ofText s :=
  Chars256.ext (CString.fill_take 0 kvStrLen s)

/-- `operator>>` into a `char[256]`: the word, a terminator, and what was there before. Only a word
of at most 255 characters stays inside the array. -/
def Chars256.extract (a : Chars256) (word : List UInt8) : Chars256 :=
  ⟨(word ++ 0 :: a.bytes.drop (word.length + 1)).take kvStrLen, by
    have := a.length_eq
    simp only [List.length_take, List.length_append, List.length_cons, List.length_drop]
    omega⟩

theorem extract_bytes (a : Chars256) {word : List UInt8} (hlen : word.length < kvStrLen) :
    (a.extract word).bytes = word ++ 0 :: a.bytes.drop (word.length + 1) := by
  apply List.take_of_length_le
  have := a.length_eq
  simp only [List.length_append, List.length_cons, List.length_drop]
  omega

theorem text_extract (a : Chars256) {word : List UInt8} (hlen : word.length < kvStrLen) :
    (a.extract word).text = CString.text 0 word := by
  rw [Chars256.text, extract_bytes a hlen, CString.text_append_cons]

/-! ## Both ways to fill a key -/

/-- `m` is a message into which a client put the string `s` as its key. -/
inductive FilledKey : List UInt8 → KVMessage → Prop
  /-- By `set_key`, which keeps what fits. -/
  | setKey (m : KVMessage) (ptr : List UInt8) :
    FilledKey ((CString.text 0 ptr).take kvStrLen) (m.setKey ptr)
  /-- Written into the array and normalised by `fix_key_nulling`. -/
  | fixKeyNulling (m : KVMessage) : FilledKey m.key.text m.fixKeyNulling

/-- A word that `operator>>` stored is filled in by `fix_key_nulling`. -/
theorem FilledKey.stream (m : KVMessage) {word : List UInt8} (h0 : 0 ∉ word)
    (hlen : word.length < kvStrLen) :
    FilledKey word { m with key := m.key.extract word }.fixKeyNulling := by
  have := FilledKey.fixKeyNulling { m with key := m.key.extract word }
  rwa [text_extract m.key hlen, CString.text_eq_self 0 h0] at this

theorem FilledKey.key_eq {s : List UInt8} {m : KVMessage} (h : FilledKey s m) :
    m.key = Chars256.ofText s := by
  cases h with
  | setKey m ptr => rw [setKey_key, ofText_take]
  | fixKeyNulling m => rw [fixKeyNulling_key]

theorem FilledKey.fits {s : List UInt8} {m : KVMessage} (h : FilledKey s m) :
    0 ∉ s ∧ s.length ≤ kvStrLen := by
  cases h with
  | setKey m ptr =>
    exact ⟨fun h => CString.null_notMem_text 0 ptr (List.mem_of_mem_take h),
      List.length_take_le ..⟩
  | fixKeyNulling m => exact ⟨null_notMem_text m.key, length_text_le m.key⟩

theorem FilledKey.key_eq_iff {s t : List UInt8} {m m' : KVMessage} (h : FilledKey s m)
    (h' : FilledKey t m') : m.key = m'.key ↔ s = t := by
  rw [h.key_eq, h'.key_eq]
  exact ofText_inj h.fits.1 h'.fits.1 h.fits.2 h'.fits.2

/-- Messages with different keys never match, whatever their hashes. -/
theorem entryEquals_of_key_ne {a b : KVMessage} (h : a.key ≠ b.key) : entryEquals a b = false := by
  rw [Bool.eq_false_iff]
  intro heq
  exact h (congrArg Triple.key (entryEquals_iff.1 heq))

/-- **The two normalisations agree**: in place or by a copy, a key becomes its string and null
characters; normalising again changes nothing; two arrays become equal exactly when they are equal
as strings. Messages filled either way have equal hashes and match when the strings are equal, and
never match when they differ. -/
theorem key_normalisations_agree :
    (∀ m stale : KVMessage, m.fixKeyNulling.key = (stale.setKey m.key.text).key ∧
      m.fixKeyNulling.fixKeyNulling = m.fixKeyNulling) ∧
    (∀ (m : KVMessage) (ptr : List UInt8), (m.setKey ptr).setKey (m.setKey ptr).key.text =
      m.setKey ptr) ∧
    (∀ m m' : KVMessage, m.fixKeyNulling.key = m'.fixKeyNulling.key ↔ m.key.text = m'.key.text) ∧
    (∀ (m : KVMessage) (word : List UInt8), 0 ∉ word → word.length < kvStrLen →
      FilledKey word { m with key := m.key.extract word }.fixKeyNulling) ∧
    ∀ (s t : List UInt8) (m m' : KVMessage), FilledKey s m → FilledKey t m' →
      (s = t → m.calculateKeyHash.hash1 = m'.calculateKeyHash.hash1 ∧
        m.calculateKeyHash.hash2 = m'.calculateKeyHash.hash2 ∧
        entryEquals m.calculateKeyHash m'.calculateKeyHash = true) ∧
      (s ≠ t → entryEquals m.calculateKeyHash m'.calculateKeyHash = false ∧
        ∀ h1 h2 h1' h2', entryEquals { m with hash1 := h1, hash2 := h2 }
          { m' with hash1 := h1', hash2 := h2' } = false) := by
  -- a text is stored as it is, and read back so
  have hidem (k : Chars256) : (Chars256.ofText k.text).text = k.text := by
    rw [text_ofText (null_notMem_text k), List.take_of_length_le (length_text_le k)]
  refine ⟨fun m stale => ⟨?_, ?_⟩, ?_, ?_,
    fun m word h0 hlen => FilledKey.stream m h0 hlen, fun s t m m' h h' => ⟨?_,
      ?_⟩⟩
  · rw [fixKeyNulling_key, setKey_key, Chars256.text, CString.text_text]
  · have hkey : m.fixKeyNulling.fixKeyNulling.key = m.fixKeyNulling.key := by
      rw [fixKeyNulling_key m.fixKeyNulling, fixKeyNulling_key m, hidem]
    exact congrArg (fun k => { m with key := k }) hkey
  · intro m ptr
    have hkey : ((m.setKey ptr).setKey (m.setKey ptr).key.text).key = (m.setKey ptr).key := by
      rw [setKey_key (m.setKey ptr), setKey_key m ptr,
        text_ofText (CString.null_notMem_text 0 ptr), CString.text_eq_self 0 fun h =>
          CString.null_notMem_text 0 ptr (List.mem_of_mem_take h), ofText_take]
    exact congrArg (fun k => { m with key := k }) hkey
  · intro m m'
    rw [fixKeyNulling_key, fixKeyNulling_key]
    exact ofText_inj (null_notMem_text _) (null_notMem_text _) (length_text_le _)
      (length_text_le _)
  · intro hst
    have hkey : m.key = m'.key := (h.key_eq_iff h').2 hst
    refine ⟨?_, ?_, ?_⟩
    · show (keyHash m.key).1 = (keyHash m'.key).1
      rw [hkey]
    · show (keyHash m.key).2 = (keyHash m'.key).2
      rw [hkey]
    · rw [entryEquals_iff, calculateKeyHash_triple, calculateKeyHash_triple, hkey]
  · intro hst
    have hkey : m.key ≠ m'.key := fun hkey => hst ((h.key_eq_iff h').1 hkey)
    exact ⟨entryEquals_of_key_ne hkey, fun _ _ _ _ => entryEquals_of_key_ne hkey⟩

theorem key_normalisations_agree_stale_bytes :
    entryEquals (KVMessage.empty.setKey [107]).calculateKeyHash
      ({ KVMessage.empty with key := (Chars256.ofText [98, 98, 98, 98]).extract [107]
        }.fixKeyNulling).calculateKeyHash = true :=
  ((key_normalisations_agree.2.2.2.2 [107] [107] (KVMessage.empty.setKey [107]) _
    (FilledKey.setKey KVMessage.empty [107])
    (key_normalisations_agree.2.2.2.1 { KVMessage.empty with
      key := Chars256.ofText [98, 98, 98, 98] } [107] (by decide) (by decide))).1 rfl).2.2

end KeyValueStore
