import KeyValueStore.ClientRequests

/-!
# `PythonSolutionsGenerator.py`

The program reads a request file line by line, runs the requests on a dictionary and prints what the
server should answer. Python separates words at some characters that C++ does not count as blanks,
and ends a line at a carriage return too. Its text is modelled by the bytes of the file, which is
right for ASCII only: beyond it `str.split` has more white space, such as the no-break space, and
text that is not UTF-8 raises an error. So every result here asks for ASCII (`LinesFile`).

`generate_eq` says what it prints for a well-formed file, and `loadResults_generate` what the client
reads of that.
-/

namespace KeyValueStore

open TextStream Words

namespace PythonSolutionsGenerator

/-! ## The program -/

/-- The white space of `str.split` among the ASCII characters. -/
def isSpace (c : UInt8) : Bool := isBlank c || (28 ≤ c && c ≤ 31)

/-- The translation of line ends in text mode. -/
def universalNewlines : List UInt8 → List UInt8
  | [] => []
  | 13 :: 10 :: text => 10 :: universalNewlines text
  | c :: text => (if c = 13 then 10 else c) :: universalNewlines text

/-- The lines that `input()` returns. -/
def inputLines (text : List UInt8) : List (List UInt8) :=
  let lines := (universalNewlines text).splitOnP (· == 10)
  if lines.getLast? = some [] then lines.dropLast else lines

/-- `line.split()` -/
def split (line : List UInt8) : List (List UInt8) := words isSpace line

/-- The digits of a number, between two of which there may be an underscore. -/
def intDigits : List UInt8 → Option (List UInt8)
  | [] => none
  | [c] => if isDigit c then some [c] else none
  | c :: 95 :: w => if isDigit c then (intDigits w).map (c :: ·) else none
  | c :: d :: w => if isDigit c then (intDigits (d :: w)).map (c :: ·) else none

/-- `int(line)` -/
def int (line : List UInt8) : Option Int :=
  match split line with
  | [43 :: w] => (intDigits w).map fun ds => (decimal ds : Int)
  | [45 :: w] => (intDigits w).map fun ds => -(decimal ds : Int)
  | [w] => (intDigits w).map fun ds => (decimal ds : Int)
  | _ => none

/-- `print` of a number. -/
def renderInt : Int → List UInt8
  | .ofNat n => render n
  | .negSucc n => 45 :: render (n + 1)

/-- The variable `kv`. -/
abbrev Kv := List UInt8 → Option (List UInt8)

/-- One turn of the loop: the lines printed, and `kv`. `none` where an index is out of range. -/
def turn (kv : Kv) (vals : List (List UInt8)) : Option (List (List UInt8) × Kv) :=
  match vals with
  | [] => none
  | code :: args =>
    if code = ascii "1" then
      match args with
      | [] => none
      | key :: _ => some ([(kv key).getD (ascii "-ERROR-")], kv)
    else if code = ascii "2" then
      match args with
      | key :: value :: _ => some ([ascii "-SUCCESS-"], Function.update kv key (some value))
      | _ => none
    else if code = ascii "3" then
      match args with
      | [] => none
      | key :: _ =>
        if (kv key).isSome then some ([ascii "-SUCCESS-"], Function.update kv key none)
        else some ([ascii "-ERROR-"], kv)
    else some ([], kv)

/-- The loop, with the number of turns left. `none` also where there is no line left. -/
def loop : Nat → List (List UInt8) → Kv → Option (List (List UInt8))
  | 0, _, _ => some []
  | _ + 1, [], _ => none
  | k + 1, line :: lines, kv => do
    let (printed, kv) ← turn kv (split line)
    return printed ++ (← loop k lines kv)

/-- The lines printed for a request file. `range(n)` is empty for a negative `n`. -/
def run (text : List UInt8) : Option (List (List UInt8)) :=
  match inputLines text with
  | [] => none
  | line :: lines => do
    let n ← int line
    return renderInt n :: (← loop n.toNat lines fun _ => none)

/-- The solution file. -/
def generate (text : List UInt8) : Option (List UInt8) :=
  (run text).map fun lines => lines.flatMap (· ++ [10])

/-! ## Lines and words -/

variable {text : List UInt8} {c : UInt8}

theorem isBlank_of_newline (h : (c == 10) = true) : isBlank c = true := by
  rw [beq_iff_eq.1 h]
  decide

theorem universalNewlines_cons (hc : c ≠ 13) (text : List UInt8) :
    universalNewlines (c :: text) = c :: universalNewlines text := by
  rw [universalNewlines.eq_3 c text fun _ h _ => hc h, if_neg hc]

theorem universalNewlines_append {l : List UInt8} (hl : ∀ c ∈ l, (c == 13) = false)
    (text : List UInt8) : universalNewlines (l ++ text) = l ++ universalNewlines text := by
  induction l with
  | nil => rfl
  | cons c l ih =>
    rw [List.forall_mem_cons] at hl
    rw [List.cons_append, universalNewlines_cons (beq_eq_false_iff_ne.1 hl.1), ih hl.2,
      List.cons_append]

/-- A carriage return, with or without a newline, is one line end. -/
theorem universalNewlines_return (text : List UInt8) :
    ∃ rest, universalNewlines (13 :: text) = 10 :: rest ∧
      words isBlank rest = words isBlank (universalNewlines text) := by
  by_cases hlf : ∃ rest, text = 10 :: rest
  · obtain ⟨rest, rfl⟩ := hlf
    refine ⟨universalNewlines rest, by rw [universalNewlines], ?_⟩
    rw [universalNewlines_cons (by decide), words_cons_blank (by decide)]
  · refine ⟨universalNewlines text, ?_, rfl⟩
    rw [universalNewlines.eq_3 13 text fun rest _ h => hlf ⟨rest, h⟩, if_pos rfl]

theorem words_universalNewlines (text : List UInt8) :
    words isBlank (universalNewlines text) = words isBlank text := by
  induction text using break_induction (· == (13 : UInt8)) with
  | last l hl =>
    have happend := universalNewlines_append hl []
    rw [List.append_nil, universalNewlines, List.append_nil] at happend
    rw [happend]
  | line l c text hl hc ih =>
    obtain rfl := beq_iff_eq.1 hc
    obtain ⟨rest, hrest, hwords⟩ := universalNewlines_return text
    rw [universalNewlines_append hl, hrest, words_append_blank (by decide),
      words_append_blank (by decide), hwords, ih]

theorem mem_universalNewlines (h : c ∈ universalNewlines text) : c = 10 ∨ c ∈ text := by
  fun_induction universalNewlines text with
  | case1 => cases h
  | case2 text ih =>
    rcases List.mem_cons.1 h with rfl | h
    · exact Or.inl rfl
    · exact (ih h).imp_right fun h => List.mem_cons_of_mem _ (List.mem_cons_of_mem _ h)
  | case3 d text hcrlf ih =>
    rcases List.mem_cons.1 h with hd | h
    · split_ifs at hd with hcr
      · exact Or.inl hd
      · exact Or.inr (hd ▸ List.mem_cons_self)
    · exact (ih h).imp_right (List.mem_cons_of_mem _)

theorem inputLines_eq (text : List UInt8) :
    (universalNewlines text).splitOnP (· == 10) = inputLines text ∨
      (universalNewlines text).splitOnP (· == 10) = inputLines text ++ [[]] := by
  rw [inputLines]
  split_ifs with hlast
  · right
    obtain ⟨lines, hlines⟩ := List.getLast?_eq_some_iff.1 hlast
    rw [hlines, List.dropLast_concat]
  · exact Or.inl rfl

/-- **Both programs see the same words**, where no character separates words for Python only. -/
theorem flatMap_split_inputLines (hsep : ∀ c ∈ text, ¬ (28 ≤ c ∧ c ≤ 31)) :
    (inputLines text).flatMap split = words isBlank text := by
  have hall : ((universalNewlines text).splitOnP (· == 10)).flatMap split =
      words isBlank text := by
    rw [← words_universalNewlines text, ← flatMap_words_splitOnP
      (fun c hc => isBlank_of_newline hc) (universalNewlines text)]
    refine List.flatMap_congr fun line hline => words_congr fun c hc => ?_
    rcases mem_universalNewlines (mem_of_mem_splitOnP hline hc) with rfl | hmem
    · decide
    · rw [isSpace, Bool.or_eq_left_iff_imp]
      intro hctrl
      rw [Bool.and_eq_true, decide_eq_true_eq, decide_eq_true_eq] at hctrl
      exact absurd hctrl (hsep c hmem)
  rw [← hall]
  rcases inputLines_eq text with heq | heq
  · rw [heq]
  · rw [heq, List.flatMap_append]
    exact (List.append_nil _).symm

/-! ## What it prints -/

/-- A request file in ASCII of which every line is on its own, in decimal digits as Python prints
them. -/
structure LinesFile (text : List UInt8) (reqs : List FileRequest) : Prop where
  lines : (inputLines text).map split = [render reqs.length] :: reqs.map FileRequest.words
  /-- No character separates words for Python only. -/
  separators : ∀ c ∈ text, c < 128 ∧ ¬ (28 ≤ c ∧ c ≤ 31)
  count_lt : reqs.length < 2 ^ 32
  fits : ∀ r ∈ reqs, ∀ w ∈ r.words, w.length < kvStrLen

/-- The dictionary after a request. -/
def kvAfter (kv : Kv) : FileRequest → Kv
  | .get _ => kv
  | .put key value => Function.update kv key (some value)
  | .delete key => Function.update kv key none

/-- The line printed for a request. -/
def expected (kv : Kv) : FileRequest → List UInt8
  | .get key => (kv key).getD (ascii "-ERROR-")
  | .put _ _ => ascii "-SUCCESS-"
  | .delete key => if (kv key).isSome then ascii "-SUCCESS-" else ascii "-ERROR-"

def expectedLines : Kv → List FileRequest → List (List UInt8)
  | _, [] => []
  | kv, r :: reqs => expected kv r :: expectedLines (kvAfter kv r) reqs

variable {reqs : List FileRequest} {r : FileRequest} {kv : Kv}

theorem LinesFile.requestFile (h : LinesFile text reqs) : RequestFile text reqs := by
  refine ⟨⟨render reqs.length, isNumeral_render _, decimal_render _, ?_⟩, h.count_lt, h.fits⟩
  rw [← flatMap_split_inputLines fun c hc => (h.separators c hc).2, List.flatMap_def, h.lines,
    List.flatten_cons, List.flatMap_def, List.singleton_append]

theorem length_expectedLines (kv : Kv) (reqs : List FileRequest) :
    (expectedLines kv reqs).length = reqs.length := by
  induction reqs generalizing kv with
  | nil => rfl
  | cons r reqs ih => rw [expectedLines, List.length_cons, ih, List.length_cons]

theorem turn_eq (kv : Kv) (r : FileRequest) :
    turn kv r.words = some ([expected kv r], kvAfter kv r) := by
  have htwo : ascii "2" ≠ ascii "1" := by decide
  have hthree : ascii "3" ≠ ascii "1" ∧ ascii "3" ≠ ascii "2" := by decide
  cases r with
  | get key => rfl
  | put key value =>
    rw [FileRequest.words, turn, if_neg htwo, if_pos rfl]
    rfl
  | delete key =>
    rw [FileRequest.words, turn, if_neg hthree.1, if_neg hthree.2, if_pos rfl]
    cases hkey : kv key with
    | some value => simp [expected, kvAfter, hkey]
    | none =>
      have hsame : Function.update kv key none = kv := by
        rw [← hkey]
        exact Function.update_eq_self key kv
      simp [expected, kvAfter, hkey, hsame]

theorem intDigits_of_isNumeral {w : List UInt8} (hne : w ≠ []) (hw : ∀ c ∈ w, isDigit c = true) :
    intDigits w = some w := by
  fun_induction intDigits w with
  | case1 => exact absurd rfl hne
  | case2 c hc => rfl
  | case3 c hc => exact absurd (hw c (by simp)) hc
  | case4 c w hc ih => exact absurd (hw 95 (by simp)) (by decide)
  | case5 c w hc => exact absurd (hw 95 (by simp)) (by decide)
  | case6 c d w hd hc ih =>
    rw [ih (by simp) fun e he => hw e (List.mem_cons_of_mem c he)]
    rfl
  | case7 c d w hd hc => exact absurd (hw c (by simp)) hc

/-- **`int` reads what `print` has printed.** -/
theorem int_of_split {line : List UInt8} {n : Nat} (h : split line = [render n]) :
    int line = some (n : Int) := by
  obtain ⟨hne, hdigits⟩ := isNumeral_render n
  have hsign : ∀ w, render n ≠ 43 :: w ∧ render n ≠ 45 :: w := fun w =>
    ⟨fun heq => absurd (hdigits 43 (by simp [heq])) (by decide),
      fun heq => absurd (hdigits 45 (by simp [heq])) (by decide)⟩
  rw [int, h]
  split
  · rename_i w heq
    exact absurd (List.cons.inj heq).1 (hsign w).1
  · rename_i w heq
    exact absurd (List.cons.inj heq).1 (hsign w).2
  · rename_i w _ _ heq
    obtain rfl := (List.cons.inj heq).1
    rw [intDigits_of_isNumeral hne hdigits, Option.map_some, decimal_render]
  · rename_i hnone
    exact absurd rfl (hnone _)

theorem loop_eq {lines : List (List UInt8)} (h : lines.map split = reqs.map FileRequest.words)
    (kv : Kv) : loop reqs.length lines kv = some (expectedLines kv reqs) := by
  induction reqs generalizing lines kv with
  | nil => rfl
  | cons r reqs ih =>
    cases lines with
    | nil => cases h
    | cons line lines =>
      rw [List.map_cons, List.map_cons, List.cons.injEq] at h
      rw [List.length_cons, loop, h.1, turn_eq]
      show (loop reqs.length lines (kvAfter kv r)).bind _ = _
      rw [ih h.2]
      rfl

/-- **The solution of a well-formed file.** -/
theorem generate_eq (h : LinesFile text reqs) :
    generate text = some ((render reqs.length :: expectedLines (fun _ => none) reqs).flatMap
      (· ++ [10])) := by
  have hlines := h.lines
  rw [generate, run]
  cases hinput : inputLines text with
  | nil =>
    rw [hinput] at hlines
    cases hlines
  | cons line lines =>
    rw [hinput, List.map_cons, List.cons.injEq] at hlines
    dsimp only
    rw [int_of_split hlines.1]
    show Option.map _ ((loop reqs.length lines fun _ => none).bind _) = _
    rw [loop_eq hlines.2]
    rfl

/-! ## What the client reads of it -/

/-- A text without blanks. -/
def IsWord (w : List UInt8) : Prop := w ≠ [] ∧ ∀ c ∈ w, isBlank c = false

instance (w : List UInt8) : Decidable (IsWord w) :=
  decidable_of_iff (w ≠ [] ∧ w.all (!isBlank ·) = true) (by simp [IsWord])

/-- The dictionary holds words. -/
def HoldsWords (kv : Kv) : Prop := ∀ key value, kv key = some value → IsWord value

/-- What holds of the values of the dictionary, and of the value that a request sets. -/
theorem kvAfter_values {P : List UInt8 → Prop} (h : ∀ key value, kv key = some value → P value)
    (hr : ∀ value ∈ r.putValue, P value) :
    ∀ key value, kvAfter kv r key = some value → P value := by
  intro key value hkey
  cases r with
  | get k => exact h key value hkey
  | put k v =>
    rw [kvAfter, Function.update_apply] at hkey
    split_ifs at hkey with hk
    · exact hr value hkey
    · exact h key value hkey
  | delete k =>
    rw [kvAfter, Function.update_apply] at hkey
    split_ifs at hkey with hk
    exact h key value hkey

theorem HoldsWords.after (h : HoldsWords kv) (hr : ∀ w ∈ r.words, IsWord w) :
    HoldsWords (kvAfter kv r) :=
  kvAfter_values h fun value hvalue => hr value (FileRequest.putValue_mem_words hvalue)

theorem isWord_expected (h : HoldsWords kv) (r : FileRequest) : IsWord (expected kv r) := by
  have herror : IsWord (ascii "-ERROR-") := by decide
  have hsuccess : IsWord (ascii "-SUCCESS-") := by decide
  cases r with
  | get key =>
    rw [expected]
    cases hkey : kv key with
    | none => exact herror
    | some value => exact h key value hkey
  | put key value => exact hsuccess
  | delete key =>
    rw [expected]
    split_ifs
    · exact hsuccess
    · exact herror

theorem isWord_expectedLines (h : HoldsWords kv) (hreqs : ∀ r ∈ reqs, ∀ w ∈ r.words, IsWord w) :
    ∀ line ∈ expectedLines kv reqs, IsWord line := by
  induction reqs generalizing kv with
  | nil => exact nofun
  | cons r reqs ih =>
    rw [List.forall_mem_cons] at hreqs
    rw [expectedLines, List.forall_mem_cons]
    exact ⟨isWord_expected h r, ih (h.after hreqs.1) hreqs.2⟩

theorem IsNumeral.isWord {w : List UInt8} (h : IsNumeral w) : IsWord w :=
  ⟨h.1, fun c hc => isBlank_of_isDigit (h.2 c hc)⟩

theorem loadResults_yields {s : Stream} {ws : List (List UInt8)} (h : Yields s ws) :
    loadResults ws.length s = ws := by
  induction ws generalizing s with
  | nil => rfl
  | cons w ws ih =>
    obtain ⟨s', hread, hs'⟩ := h.readWord
    rw [List.length_cons, loadResults, hread, ih hs']
    rfl

/-- **The client reads back the lines printed.** -/
theorem loadResults_generate (h : LinesFile text reqs) : ∃ solution, generate text = some solution ∧
    loadClientRequestResults solution = expectedLines (fun _ => none) reqs := by
  refine ⟨_, generate_eq h, ?_⟩
  obtain ⟨count, -, -, hwords⟩ := h.requestFile.words
  have hreqs : ∀ r ∈ reqs, ∀ w ∈ r.words, IsWord w := by
    intro r hr w hw
    have hmem : w ∈ words isBlank text := by
      rw [hwords]
      exact List.mem_cons_of_mem _ (List.mem_flatMap.2 ⟨r, hr, hw⟩)
    exact mem_words hmem
  have hlines : ∀ line ∈ render reqs.length :: expectedLines (fun _ => none) reqs, IsWord line :=
    List.forall_mem_cons.2 ⟨IsNumeral.isWord (isNumeral_render _),
      isWord_expectedLines (fun _ _ => nofun) hreqs⟩
  have hyields := yields_of ((render reqs.length :: expectedLines (fun _ => none) reqs).flatMap
    (· ++ [10]))
  rw [words_flatMap_lines (by decide) hlines] at hyields
  have hconv := (isNumeral_render reqs.length).toUInt32_eq (by
    rw [decimal_render]
    exact h.count_lt)
  have hok : (toUInt32 (render reqs.length)).2 = true := by rw [hconv]
  obtain ⟨s', hread, hs'⟩ := hyields.readNumber (isNumeral_render _) hok
  rw [loadClientRequestResults, hread, hconv, decimal_render]
  have hload := loadResults_yields hs'
  rwa [length_expectedLines] at hload

end PythonSolutionsGenerator

end KeyValueStore
