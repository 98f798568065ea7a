import Mathlib.Data.List.TakeWhile

/-!
# Words and lines of a text

`words blank text` are the maximal stretches of `text` without a blank. A text splits into its first
word and the rest (`words_eq`), and the words of a text are those of its lines, if lines end at
blanks (`flatMap_words_splitOnP`).
-/

namespace Words

variable {α : Type*} (blank : α → Bool)

def words (text : List α) : List (List α) := (text.splitOnP blank).filter fun w => !w.isEmpty

variable {blank} {c : α} {w text : List α}

@[simp] theorem words_nil : words blank [] = [] := rfl

theorem words_append_blank (hc : blank c = true) (xs ys : List α) :
    words blank (xs ++ c :: ys) = words blank xs ++ words blank ys := by
  rw [words, List.splitOnP_append_cons xs ys hc, List.filter_append]
  rfl

theorem words_cons_blank (hc : blank c = true) (text : List α) :
    words blank (c :: text) = words blank text :=
  words_append_blank hc [] text

theorem words_dropWhile (text : List α) :
    words blank (text.dropWhile blank) = words blank text := by
  induction text with
  | nil => rfl
  | cons c text ih =>
    by_cases hc : blank c = true
    · rw [List.dropWhile_cons_of_pos hc, ih, words_cons_blank hc]
    · rw [List.dropWhile_cons_of_neg hc]

theorem words_singleton (hw : w ≠ []) (hblank : ∀ c ∈ w, blank c = false) :
    words blank w = [w] := by
  rw [words, List.splitOnP_eq_singleton hblank]
  cases w with
  | nil => exact absurd rfl hw
  | cons c w => rfl

theorem words_append (hw : w ≠ []) (hblank : ∀ c ∈ w, blank c = false)
    (hrest : ∀ c, text.head? = some c → blank c = true) :
    words blank (w ++ text) = w :: words blank text := by
  cases text with
  | nil => rw [List.append_nil, words_singleton hw hblank, words_nil]
  | cons c text =>
    rw [words_append_blank (hrest c rfl), words_singleton hw hblank,
      words_cons_blank (hrest c rfl), List.singleton_append]

theorem head_dropWhile (p : α → Bool) (text : List α) (hc : (text.dropWhile p).head? = some c) :
    p c = false := by
  have hnot := List.head?_dropWhile_not p text
  rw [hc] at hnot
  simpa using hnot

/-- **The first word and the rest.** -/
theorem words_eq (hne : text.dropWhile blank ≠ []) :
    words blank text = (text.dropWhile blank).takeWhile (fun c => !blank c) ::
      words blank ((text.dropWhile blank).dropWhile fun c => !blank c) := by
  have hword : (text.dropWhile blank).takeWhile (fun c => !blank c) ≠ [] := by
    obtain ⟨c, rest, hcons⟩ := List.exists_cons_of_ne_nil hne
    have hc : blank c = false := head_dropWhile blank text (by rw [hcons]; rfl)
    rw [hcons, List.takeWhile_cons_of_pos (by simp [hc])]
    exact List.cons_ne_nil _ _
  have hblank : ∀ c ∈ (text.dropWhile blank).takeWhile fun c => !blank c, blank c = false :=
    fun c hc => by simpa using List.mem_takeWhile_imp hc
  have hrest : ∀ c, ((text.dropWhile blank).dropWhile fun c => !blank c).head? = some c →
      blank c = true := fun c hc => by simpa using head_dropWhile (fun c => !blank c) _ hc
  have hsplit := words_append hword hblank hrest
  rwa [List.takeWhile_append_dropWhile, words_dropWhile] at hsplit

theorem words_eq_nil_iff : words blank text = [] ↔ text.dropWhile blank = [] := by
  constructor
  · intro h
    by_contra hne
    rw [words_eq hne] at h
    cases h
  · intro h
    rw [← words_dropWhile, h, words_nil]

/-! ## Lines -/

/-- **Induction over the breaks of a text**: a text without a break, or a line, a break and a
text. -/
@[elab_as_elim]
theorem break_induction (p : α → Bool) {motive : List α → Prop}
    (last : ∀ l, (∀ c ∈ l, p c = false) → motive l)
    (line : ∀ l c rest, (∀ c ∈ l, p c = false) → p c = true → motive rest →
      motive (l ++ c :: rest)) (text : List α) : motive text := by
  -- the line read so far is kept apart
  have hacc : ∀ text l : List α, (∀ c ∈ l, p c = false) → motive (l ++ text) := by
    intro text
    induction text with
    | nil => exact fun l hl => by rw [List.append_nil]; exact last l hl
    | cons c text ih =>
      intro l hl
      cases hc : p c with
      | true => exact line l c text hl hc (ih [] nofun)
      | false =>
        have hmore := ih (l ++ [c]) (by
          rw [List.forall_mem_append, List.forall_mem_singleton]
          exact ⟨hl, hc⟩)
        rwa [List.append_assoc, List.singleton_append] at hmore
  exact hacc text [] nofun

/-- **The words of a text are those of its lines.** -/
theorem flatMap_words_splitOnP {p : α → Bool} (hp : ∀ c, p c = true → blank c = true)
    (text : List α) : (text.splitOnP p).flatMap (words blank) = words blank text := by
  induction text using break_induction p with
  | last l hl => rw [List.splitOnP_eq_singleton hl, List.flatMap_singleton]
  | line l c rest hl hc ih =>
    rw [List.splitOnP_append_cons_of_forall_mem hl c hc, List.flatMap_cons, ih,
      words_append_blank (hp c hc)]

theorem mem_of_mem_splitOnP {p : α → Bool} {l : List α} (hl : l ∈ text.splitOnP p) (hc : c ∈ l) :
    c ∈ text := by
  induction text using break_induction p with
  | last t ht =>
    rw [List.splitOnP_eq_singleton ht, List.mem_singleton] at hl
    exact hl ▸ hc
  | line t d rest ht hd ih =>
    rw [List.splitOnP_append_cons_of_forall_mem ht d hd, List.mem_cons] at hl
    rcases hl with rfl | hl
    · exact List.mem_append_left _ hc
    · exact List.mem_append_right _ (List.mem_cons_of_mem d (ih hl))

theorem words_of_no_blank (h : ∀ c ∈ text, blank c = false) :
    words blank text = if text = [] then [] else [text] := by
  split_ifs with hnil
  · rw [hnil, words_nil]
  · exact words_singleton hnil h

theorem mem_words (hw : w ∈ words blank text) : w ≠ [] ∧ ∀ c ∈ w, blank c = false := by
  have hline : ∀ l, (∀ c ∈ l, blank c = false) → w ∈ words blank l →
      w ≠ [] ∧ ∀ c ∈ w, blank c = false := by
    intro l hl hw
    rw [words_of_no_blank hl] at hw
    split_ifs at hw with hnil
    · cases hw
    · rw [List.mem_singleton.1 hw]
      exact ⟨hnil, hl⟩
  induction text using break_induction blank with
  | last l hl => exact hline l hl hw
  | line l c rest hl hc ih =>
    rw [words_append_blank hc, List.mem_append] at hw
    exact hw.elim (hline l hl) ih

theorem words_congr {blank' : α → Bool} (h : ∀ c ∈ text, blank c = blank' c) :
    words blank text = words blank' text := by
  induction text using break_induction blank with
  | last l hl =>
    rw [words_of_no_blank hl, words_of_no_blank fun c hc => (h c hc).symm.trans (hl c hc)]
  | line l c rest hl hc ih =>
    rw [List.forall_mem_append, List.forall_mem_cons] at h
    rw [words_append_blank hc, words_append_blank (h.2.1.symm.trans hc), words_of_no_blank hl,
      words_of_no_blank fun d hd => (h.1 d hd).symm.trans (hl d hd), ih h.2.2]

/-- Lines that are one word each, every one of them ended. -/
theorem words_flatMap_lines {lines : List (List α)} (hc : blank c = true)
    (hlines : ∀ l ∈ lines, l ≠ [] ∧ ∀ d ∈ l, blank d = false) :
    words blank (lines.flatMap (· ++ [c])) = lines := by
  induction lines with
  | nil => rfl
  | cons l lines ih =>
    rw [List.forall_mem_cons] at hlines
    rw [List.flatMap_cons, List.append_assoc, List.singleton_append, words_append_blank hc,
      words_singleton hlines.1.1 hlines.1.2, ih hlines.2, List.singleton_append]

/-- A text of lines, every one of them ended. -/
theorem splitOnP_flatMap_lines {p : α → Bool} {lines : List (List α)} (hc : p c = true)
    (hlines : ∀ l ∈ lines, ∀ d ∈ l, p d = false) :
    (lines.flatMap (· ++ [c])).splitOnP p = lines ++ [[]] := by
  induction lines with
  | nil => rfl
  | cons l lines ih =>
    rw [List.forall_mem_cons] at hlines
    rw [List.flatMap_cons, List.append_assoc, List.singleton_append,
      List.splitOnP_append_cons_of_forall_mem hlines.1 c hc, ih hlines.2, List.cons_append]

theorem words_intercalate {ws : List (List α)} (hc : blank c = true)
    (hws : ∀ w ∈ ws, w ≠ [] ∧ ∀ d ∈ w, blank d = false) :
    words blank ([c].intercalate ws) = ws := by
  induction ws with
  | nil => rfl
  | cons w ws ih =>
    rw [List.forall_mem_cons] at hws
    cases ws with
    | nil => rw [List.intercalate_singleton, words_singleton hws.1.1 hws.1.2]
    | cons w' ws =>
      rw [List.intercalate_cons_cons, List.append_assoc, List.singleton_append,
        words_append_blank hc, words_singleton hws.1.1 hws.1.2, ih hws.2, List.singleton_append]

theorem mem_intercalate {ws : List (List α)} {d : α} (hd : d ∈ [c].intercalate ws) :
    d = c ∨ ∃ w ∈ ws, d ∈ w := by
  induction ws with
  | nil => cases hd
  | cons w ws ih =>
    cases ws with
    | nil =>
      rw [List.intercalate_singleton] at hd
      exact Or.inr ⟨w, List.mem_cons_self, hd⟩
    | cons w' ws =>
      rw [List.intercalate_cons_cons, List.mem_append, List.mem_append, List.mem_singleton] at hd
      rcases hd with (hd | rfl) | hd
      · exact Or.inr ⟨w, List.mem_cons_self, hd⟩
      · exact Or.inl rfl
      · exact (ih hd).imp_right fun ⟨v, hv, hdv⟩ => ⟨v, List.mem_cons_of_mem w hv, hdv⟩

end Words
