import Mathlib.Data.Nat.Digits.Defs
import Mathlib.Tactic.NormNum
import KeyValueStore.Lib.Words

/-!
# Text input streams

Formatted extraction of the C++ standard library, on the characters of a file. An extraction first
skips blanks. It does nothing but set `failbit` if one of the two bits is set already, and it sets
`eofbit` when it looks beyond the last character. A number is the longest run of a sign and digits;
a run without digits or out of range sets `failbit`.

`Yields s ws` says that the words `ws` are still to be read from a stream without errors. Words and
numbers are taken from it one by one (`Yields.readWord`, `Yields.readNumber`).
-/

namespace TextStream

open Words

/-! ## Characters and numbers -/

/-- `isspace` -/
def isBlank (c : UInt8) : Bool := c == 32 || (9 ≤ c && c ≤ 13)

def isDigit (c : UInt8) : Bool := 48 ≤ c && c ≤ 57

def isSign (c : UInt8) : Bool := c == 43 || c == 45

/-- The number that a string of digits denotes. -/
def decimal (digits : List UInt8) : Nat := digits.foldl (fun n c => 10 * n + (c.toNat - 48)) 0

def render (n : Nat) : List UInt8 :=
  if n = 0 then [48] else (Nat.digits 10 n).reverse.map fun d => UInt8.ofNat (48 + d)

/-- An optional sign and digits, and the text after them. -/
def field : List UInt8 → List UInt8 × List UInt8
  | [] => ([], [])
  | c :: text =>
    if isSign c then (c :: text.takeWhile isDigit, text.dropWhile isDigit)
    else ((c :: text).takeWhile isDigit, (c :: text).dropWhile isDigit)

def digits (f : List UInt8) : List UInt8 := f.filter isDigit

def isNegative (f : List UInt8) : Bool := f.head? == some 45

/-- The number that a field denotes. -/
def signed (f : List UInt8) : Int :=
  if isNegative f then -(decimal (digits f) : Int) else decimal (digits f)

/-- The conversion of a field to `int32_t`, and whether it succeeds. -/
def toInt32 (f : List UInt8) : Int × Bool :=
  if digits f = [] then (0, false)
  else if signed f < -2 ^ 31 then (-2 ^ 31, false)
  else if 2 ^ 31 - 1 < signed f then (2 ^ 31 - 1, false)
  else (signed f, true)

/-- The conversion of a field to `uint32_t`: a minus sign negates modulo `2^32`. -/
def toUInt32 (f : List UInt8) : Nat × Bool :=
  if digits f = [] then (0, false)
  else if 2 ^ 32 - 1 < decimal (digits f) then (2 ^ 32 - 1, false)
  else (if isNegative f then (2 ^ 32 - decimal (digits f)) % 2 ^ 32 else decimal (digits f), true)

/-- The characters of an ASCII text. -/
def ascii (s : String) : List UInt8 := s.toList.map fun c => UInt8.ofNat c.toNat

/-! ## Streams -/

/-- What is left to read, and the two error bits. -/
structure Stream where
  rest : List UInt8
  eof : Bool
  fail : Bool
deriving DecidableEq

/-- A file that was just opened. -/
def Stream.of (text : List UInt8) : Stream := ⟨text, false, false⟩

/-- The sentry of an extraction. -/
def sentry (s : Stream) : Bool × Stream :=
  if s.eof || s.fail then (false, { s with fail := true })
  else
    match s.rest.dropWhile isBlank with
    | [] => (false, ⟨[], true, true⟩)
    | c :: text => (true, ⟨c :: text, false, false⟩)

/-- Extraction of a word. `none` where the variable is left as it was. -/
def readWord (s : Stream) : Option (List UInt8) × Stream :=
  match sentry s with
  | (false, s) => (none, s)
  | (true, s) =>
    let rest := s.rest.dropWhile fun c => !isBlank c
    (some (s.rest.takeWhile fun c => !isBlank c), ⟨rest, rest.isEmpty, false⟩)

/-- Extraction of a number. `none` where the variable is left as it was. -/
def readNumber {β : Type*} (convert : List UInt8 → β × Bool) (s : Stream) : Option β × Stream :=
  match sentry s with
  | (false, s) => (none, s)
  | (true, s) =>
    let (f, rest) := field s.rest
    (some (convert f).1, ⟨rest, rest.isEmpty, !(convert f).2⟩)

variable {β : Type*} {convert : List UInt8 → β × Bool} {s : Stream} {text w : List UInt8}
  {ws : List (List UInt8)}

theorem readWord_error (h : (s.eof || s.fail) = true) :
    readWord s = (none, { s with fail := true }) := by
  rw [readWord, sentry, if_pos h]

theorem readNumber_error (h : (s.eof || s.fail) = true) :
    readNumber convert s = (none, { s with fail := true }) := by
  rw [readNumber, sentry, if_pos h]

theorem sentry_of (hne : text.dropWhile isBlank ≠ []) :
    sentry (.of text) = (true, .of (text.dropWhile isBlank)) := by
  obtain ⟨c, rest, hcons⟩ := List.exists_cons_of_ne_nil hne
  rw [sentry, if_neg (by simp [Stream.of])]
  show (match text.dropWhile isBlank with | [] => _ | c :: text => _) = _
  rw [hcons]
  rfl

theorem sentry_blank (hnil : text.dropWhile isBlank = []) :
    sentry (.of text) = (false, ⟨[], true, true⟩) := by
  rw [sentry, if_neg (by simp [Stream.of])]
  show (match text.dropWhile isBlank with | [] => _ | c :: text => _) = _
  rw [hnil]

theorem readWord_of (hne : text.dropWhile isBlank ≠ []) :
    readWord (.of text) =
      (some ((text.dropWhile isBlank).takeWhile fun c => !isBlank c),
        ⟨(text.dropWhile isBlank).dropWhile fun c => !isBlank c,
          ((text.dropWhile isBlank).dropWhile fun c => !isBlank c).isEmpty, false⟩) := by
  rw [readWord, sentry_of hne]
  rfl

theorem readWord_blank (hnil : text.dropWhile isBlank = []) :
    readWord (.of text) = (none, ⟨[], true, true⟩) := by
  rw [readWord, sentry_blank hnil]

theorem readNumber_of (hne : text.dropWhile isBlank ≠ []) :
    readNumber convert (.of text) =
      (some (convert (field (text.dropWhile isBlank)).1).1,
        ⟨(field (text.dropWhile isBlank)).2, (field (text.dropWhile isBlank)).2.isEmpty,
          !(convert (field (text.dropWhile isBlank)).1).2⟩) := by
  rw [readNumber, sentry_of hne]
  rfl

theorem readNumber_blank (hnil : text.dropWhile isBlank = []) :
    readNumber convert (.of text) = (none, ⟨[], true, true⟩) := by
  rw [readNumber, sentry_blank hnil]

theorem length_field_le (text : List UInt8) : (field text).2.length ≤ text.length := by
  cases text with
  | nil => rfl
  | cons c text =>
    rw [field]
    split_ifs
    · exact Nat.le_succ_of_le (List.length_dropWhile_le ..)
    · exact List.length_dropWhile_le ..

/-! ## Numbers in decimal -/

theorem isBlank_of_isDigit {c : UInt8} (h : isDigit c = true) : isBlank c = false := by
  simp only [isDigit, isBlank, Bool.and_eq_true, decide_eq_true_eq, UInt8.le_iff_toNat_le,
    Bool.or_eq_false_iff, Bool.and_eq_false_iff, decide_eq_false_iff_not, beq_eq_false_iff_ne,
    ne_eq, ← UInt8.toNat_inj] at h ⊢
  simp at h ⊢
  omega

theorem isSign_of_isDigit {c : UInt8} (h : isDigit c = true) : isSign c = false := by
  simp only [isDigit, isSign, Bool.and_eq_true, decide_eq_true_eq, UInt8.le_iff_toNat_le,
    Bool.or_eq_false_iff, beq_eq_false_iff_ne, ne_eq, ← UInt8.toNat_inj] at h ⊢
  simp at h ⊢
  omega

/-- `f` is a nonempty string of digits. -/
def IsNumeral (f : List UInt8) : Prop := f ≠ [] ∧ ∀ c ∈ f, isDigit c = true

instance (f : List UInt8) : Decidable (IsNumeral f) :=
  decidable_of_iff (f ≠ [] ∧ f.all isDigit = true) (and_congr_right fun _ => List.all_eq_true)

theorem IsNumeral.digits_eq (h : IsNumeral w) : digits w = w :=
  List.filter_eq_self.2 h.2

theorem IsNumeral.isNegative_eq (h : IsNumeral w) : isNegative w = false := by
  obtain ⟨c, cs, rfl⟩ := List.exists_cons_of_ne_nil h.1
  have hsign := isSign_of_isDigit (h.2 c List.mem_cons_self)
  rw [isSign, Bool.or_eq_false_iff] at hsign
  simpa [isNegative] using hsign.2

theorem span_isDigit_append {ds : List UInt8} (hds : ∀ c ∈ ds, isDigit c = true)
    (hrest : ∀ c, text.head? = some c → isBlank c = true) :
    (ds ++ text).takeWhile isDigit = ds ∧ (ds ++ text).dropWhile isDigit = text := by
  have htext : text.takeWhile isDigit = [] ∧ text.dropWhile isDigit = text := by
    cases text with
    | nil => exact ⟨rfl, rfl⟩
    | cons c text =>
      have hc : ¬ isDigit c = true := fun hd => by
        have := isBlank_of_isDigit hd
        rw [hrest c rfl] at this
        cases this
      exact ⟨List.takeWhile_cons_of_neg hc, List.dropWhile_cons_of_neg hc⟩
  rw [List.takeWhile_append_of_pos hds, List.dropWhile_append_of_pos hds, htext.1, htext.2,
    List.append_nil]
  exact ⟨rfl, rfl⟩

theorem IsNumeral.field_append (h : IsNumeral w)
    (hrest : ∀ c, text.head? = some c → isBlank c = true) : field (w ++ text) = (w, text) := by
  have hspan := span_isDigit_append h.2 hrest
  obtain ⟨c, cs, rfl⟩ := List.exists_cons_of_ne_nil h.1
  rw [List.cons_append] at hspan ⊢
  rw [field, if_neg (by rw [isSign_of_isDigit (h.2 c List.mem_cons_self)]; simp), hspan.1, hspan.2]

theorem IsNumeral.toUInt32_eq (h : IsNumeral w) (hlt : decimal w < 2 ^ 32) :
    toUInt32 w = (decimal w, true) := by
  rw [toUInt32, h.digits_eq, h.isNegative_eq, if_neg h.1, if_neg (by omega),
    if_neg Bool.false_ne_true]

theorem isDigit_ofNat : ∀ d < 10, isDigit (UInt8.ofNat (48 + d)) = true := by decide

theorem isNumeral_render (n : Nat) : IsNumeral (render n) := by
  rw [render]
  split_ifs with hn
  · decide
  · refine ⟨by simpa [Nat.digits_ne_nil_iff_ne_zero] using hn, ?_⟩
    intro c hc
    obtain ⟨d, hd, rfl⟩ := List.mem_map.1 hc
    exact isDigit_ofNat d (Nat.digits_lt_base (by norm_num) (List.mem_reverse.1 hd))

/-- **What is printed in decimal is read back.** -/
theorem decimal_render (n : Nat) : decimal (render n) = n := by
  rw [render]
  split_ifs with hn
  · rw [hn]; rfl
  · have hfold : ∀ ds : List Nat, (∀ d ∈ ds, d < 10) →
        decimal (ds.reverse.map fun d => UInt8.ofNat (48 + d)) = Nat.ofDigits 10 ds := by
      intro ds hds
      induction ds with
      | nil => rfl
      | cons d ds ih =>
        rw [List.forall_mem_cons] at hds
        have hd : (UInt8.ofNat (48 + d)).toNat - 48 = d := by
          rw [UInt8.toNat_ofNat']
          omega
        rw [List.reverse_cons, List.map_append, List.map_singleton, decimal, List.foldl_append,
          List.foldl_cons, List.foldl_nil, hd, Nat.ofDigits_cons, Nat.add_comm]
        congr 1
        exact congrArg (10 * ·) (ih hds.2)
    rw [hfold _ fun d hd => Nat.digits_lt_base (by norm_num) hd, Nat.ofDigits_digits]

/-- A word that is a field is one in every text. -/
theorem field_append (hw : field w = (w, [])) (hne : w ≠ [])
    (hrest : ∀ c, text.head? = some c → isBlank c = true) : field (w ++ text) = (w, text) := by
  obtain ⟨c, cs, rfl⟩ := List.exists_cons_of_ne_nil hne
  have hdigits : ∀ {ds : List UInt8}, ds.dropWhile isDigit = [] → ∀ c ∈ ds, isDigit c = true :=
    fun h => List.dropWhile_eq_nil_iff.1 h
  rw [field] at hw
  rw [List.cons_append, field]
  by_cases hsign : isSign c = true
  · rw [if_pos hsign] at hw ⊢
    obtain ⟨htake, hdrop⟩ := span_isDigit_append (hdigits (Prod.mk.inj hw).2) hrest
    rw [htake, hdrop]
  · rw [if_neg hsign] at hw ⊢
    obtain ⟨htake, hdrop⟩ := span_isDigit_append (hdigits (Prod.mk.inj hw).2) hrest
    rw [List.cons_append] at htake hdrop
    rw [htake, hdrop]

/-! ## Reading words -/

/-- The words `ws` are still to be read, and nothing has gone wrong. -/
structure Yields (s : Stream) (ws : List (List UInt8)) : Prop where
  words : words isBlank s.rest = ws
  fail : s.fail = false
  eof : s.rest ≠ [] → s.eof = false

theorem yields_of (text : List UInt8) : Yields (.of text) (Words.words isBlank text) :=
  ⟨rfl, rfl, fun _ => rfl⟩

theorem Yields.good (h : Yields s (w :: ws)) :
    s = .of s.rest ∧ s.rest.dropWhile isBlank ≠ [] := by
  have hne : s.rest.dropWhile isBlank ≠ [] := fun hnil => by
    have hwords := h.words
    rw [words_eq_nil_iff.2 hnil] at hwords
    cases hwords
  refine ⟨?_, hne⟩
  have heof := h.eof fun hnil => hne (by rw [hnil]; rfl)
  have hfail := h.fail
  cases s
  simp only at heof hfail
  subst heof hfail
  rfl

/-- **Reading a word** takes the first one. -/
theorem Yields.readWord (h : Yields s (w :: ws)) :
    ∃ s', readWord s = (some w, s') ∧ Yields s' ws := by
  obtain ⟨hs, hne⟩ := h.good
  have hwords := h.words
  rw [words_eq hne] at hwords
  obtain ⟨hw, hws⟩ := List.cons.inj hwords
  refine ⟨_, by rw [hs, readWord_of hne, hw], hws, rfl, ?_⟩
  intro hrest
  exact List.isEmpty_eq_false_iff.2 hrest

/-- Reading a number takes the first word, if that is a field. -/
theorem Yields.readField (h : Yields s (w :: ws)) (hw : field w = (w, []))
    (hok : (convert w).2 = true) :
    ∃ s', readNumber convert s = (some (convert w).1, s') ∧ Yields s' ws := by
  obtain ⟨hs, hne⟩ := h.good
  have hwords := h.words
  rw [words_eq hne] at hwords
  obtain ⟨hw', hws⟩ := List.cons.inj hwords
  have hfield : field (s.rest.dropWhile isBlank) =
      (w, (s.rest.dropWhile isBlank).dropWhile fun c => !isBlank c) := by
    have hnil : w ≠ [] := (mem_words (h.words ▸ List.mem_cons_self)).1
    have hrest : ∀ c, ((s.rest.dropWhile isBlank).dropWhile fun c => !isBlank c).head? = some c →
        isBlank c = true := fun c hc => by simpa using head_dropWhile (fun c => !isBlank c) _ hc
    have happend := field_append hw hnil hrest
    rwa [← hw', List.takeWhile_append_dropWhile, hw'] at happend
  refine ⟨_, by rw [hs, readNumber_of hne, hfield], hws, by simp [hok], ?_⟩
  intro hrest
  exact List.isEmpty_eq_false_iff.2 hrest

/-- **Reading a number** takes the first word, if that is a numeral. -/
theorem Yields.readNumber (h : Yields s (w :: ws)) (hw : IsNumeral w) (hok : (convert w).2 = true) :
    ∃ s', readNumber convert s = (some (convert w).1, s') ∧ Yields s' ws := by
  have hfield : field (w ++ []) = (w, []) := hw.field_append fun c hc => by cases hc
  rw [List.append_nil] at hfield
  exact h.readField hfield hok

/-- Where no word is left, an extraction only meets the end. -/
theorem Yields.sentry_end (h : Yields s []) : ∃ s', sentry s = (false, s') ∧ s'.eof = true := by
  obtain ⟨hwords, hfail, heof⟩ := h
  obtain ⟨rest, eof, fail⟩ := s
  simp only at hfail
  subst hfail
  cases eof with
  | true => exact ⟨_, by rw [sentry, if_pos (Bool.true_or _)], rfl⟩
  | false => exact ⟨_, sentry_blank (words_eq_nil_iff.1 hwords), rfl⟩

theorem Yields.readWord_end (h : Yields s []) :
    ∃ s', TextStream.readWord s = (none, s') ∧ s'.eof = true := by
  obtain ⟨s', hsentry, heof⟩ := h.sentry_end
  exact ⟨s', by rw [TextStream.readWord, hsentry], heof⟩

theorem Yields.readNumber_end (h : Yields s []) :
    ∃ s', TextStream.readNumber convert s = (none, s') ∧ s'.eof = true := by
  obtain ⟨s', hsentry, heof⟩ := h.sentry_end
  exact ⟨s', by rw [TextStream.readNumber, hsentry], heof⟩

end TextStream
