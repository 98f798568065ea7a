import Mathlib.Data.List.Basic
import Mathlib.Data.List.TakeDrop
import Mathlib.Data.List.TakeWhile

/-!
# Null-terminated strings in arrays

An array of fixed length holds the string that ends at its first terminator, or the whole array
where there is none. `text` is that string and `fill` the array that holds a string and terminators
after it. An array that a program *normalises* is one of the form `fill n s`: such arrays are equal
exactly when their strings are, as far as they fit (`fill_inj`).
-/

namespace CString

variable {α : Type*} (null : α)

/-- The string that an array holds. -/
def text [DecidableEq α] (b : List α) : List α := b.takeWhile fun c => decide (c ≠ null)

/-- `s` followed by terminators, `n` elements in all. -/
def fill (n : Nat) (s : List α) : List α := (s ++ List.replicate n null).take n

/-! ## Strings -/

section

variable [DecidableEq α]

@[simp] theorem text_nil : text null [] = [] := rfl

@[simp] theorem text_cons_null (b : List α) : text null (null :: b) = [] := by
  simp [text]

theorem text_cons_of_ne {c : α} (hc : c ≠ null) (b : List α) :
    text null (c :: b) = c :: text null b := by
  simp [text, hc]

theorem null_notMem_text (b : List α) : null ∉ text null b := by
  intro h
  have hne := List.mem_takeWhile_imp h
  simp at hne

theorem length_text_le (b : List α) : (text null b).length ≤ b.length :=
  (List.takeWhile_sublist _).length_le

theorem text_append {s : List α} (hs : null ∉ s) (b : List α) :
    text null (s ++ b) = s ++ text null b := by
  induction s with
  | nil => rfl
  | cons c s ih =>
    rw [List.mem_cons, not_or] at hs
    rw [List.cons_append, text_cons_of_ne null (Ne.symm hs.1), ih hs.2, List.cons_append]

theorem text_eq_self {s : List α} (hs : null ∉ s) : text null s = s := by
  have := text_append null hs []
  rwa [List.append_nil, text_nil, List.append_nil] at this

/-- A terminator ends the string, where one before it has not done so. -/
theorem text_append_cons (s b : List α) : text null (s ++ null :: b) = text null s := by
  induction s with
  | nil => exact text_cons_null null b
  | cons c s ih =>
    rw [List.cons_append]
    by_cases hc : c = null
    · rw [hc, text_cons_null, text_cons_null]
    · rw [text_cons_of_ne null hc, text_cons_of_ne null hc, ih]

@[simp] theorem text_text (b : List α) : text null (text null b) = text null b :=
  text_eq_self null (null_notMem_text null b)

theorem text_append_drop (b : List α) : text null b ++ b.drop (text null b).length = b :=
  List.prefix_iff_eq_append.1 (List.takeWhile_prefix _)

end

/-! ## Filled arrays -/

@[simp] theorem length_fill (n : Nat) (s : List α) : (fill null n s).length = n := by
  simp [fill]

theorem fill_eq (n : Nat) (s : List α) :
    fill null n s = s.take n ++ List.replicate (n - s.length) null := by
  rw [fill, List.take_append, List.take_replicate, Nat.min_eq_left (Nat.sub_le ..)]

theorem fill_cons (n : Nat) (c : α) (s : List α) :
    fill null (n + 1) (c :: s) = c :: fill null n s := by
  rw [fill_eq, fill_eq, List.take_succ_cons, List.length_cons, Nat.add_sub_add_right,
    List.cons_append]

theorem fill_nil (n : Nat) : fill null n [] = List.replicate n null := by
  rw [fill_eq, List.take_nil, List.nil_append, List.length_nil, Nat.sub_zero]

/-- Filling keeps the string as far as the array reaches. -/
theorem text_fill [DecidableEq α] (n : Nat) {s : List α} (hs : null ∉ s) :
    text null (fill null n s) = s.take n := by
  have htake : null ∉ s.take n := fun h => hs (List.mem_of_mem_take h)
  rw [fill_eq, text_append null htake]
  cases n - s.length with
  | zero => rw [List.replicate_zero, text_nil, List.append_nil]
  | succ k => rw [List.replicate_succ, text_cons_null, List.append_nil]

theorem fill_take (n : Nat) (s : List α) : fill null n (s.take n) = fill null n s := by
  rw [fill_eq, fill_eq, List.take_take, Nat.min_self, List.length_take]
  congr 2
  omega

/-- Filled arrays are equal when their strings agree as far as the arrays reach. -/
theorem fill_inj [DecidableEq α] (n : Nat) {s t : List α} (hs : null ∉ s) (ht : null ∉ t) :
    fill null n s = fill null n t ↔ s.take n = t.take n := by
  constructor
  · intro h
    rw [← text_fill null n hs, ← text_fill null n ht, h]
  · intro h
    rw [← fill_take null n s, ← fill_take null n t, h]

/-- An element is a terminator throughout a list. -/
def AllNull (s : List α) : Prop := ∀ c ∈ s, c = null

instance [DecidableEq α] (s : List α) : Decidable (AllNull null s) :=
  decidable_of_iff (s.all fun c => decide (c = null)) (by simp [AllNull])

/-- A longer string fills an array as a part of it does only by terminators. -/
theorem fill_append_iff {n : Nat} {s t : List α} (hlen : (s ++ t).length ≤ n) :
    fill null n s = fill null n (s ++ t) ↔ AllNull null t := by
  rw [List.length_append] at hlen
  have hsplit : n - s.length = t.length + (n - (s ++ t).length) := by
    rw [List.length_append]
    omega
  rw [fill_eq, fill_eq, List.take_of_length_le (by omega),
    List.take_of_length_le (by rw [List.length_append]; omega), List.append_assoc,
    List.append_cancel_left_eq, hsplit, List.replicate_add, List.append_cancel_right_eq, eq_comm,
    List.eq_replicate_iff]
  exact ⟨fun h => h.2, fun h => ⟨rfl, h⟩⟩

/-- The terminators that fill an array up do not count. -/
theorem allNull_drop_fill {n : Nat} {s : List α} (hlen : s.length ≤ n) (k : Nat) :
    AllNull null ((fill null n s).drop k) ↔ AllNull null (s.drop k) := by
  rw [fill_eq, List.take_of_length_le hlen, List.drop_append, AllNull, List.forall_mem_append]
  refine and_iff_left_of_imp fun _ c hc => ?_
  exact List.eq_of_mem_replicate (List.mem_of_mem_drop hc)

/-- Normalising loses what is no terminator behind the first one. -/
theorem fill_text_iff [DecidableEq α] {n : Nat} {b : List α} (hlen : b.length ≤ n) :
    fill null n (text null b) = fill null n b ↔ AllNull null (b.drop (text null b).length) := by
  have hsplit := text_append_drop null b
  have hfits : (text null b ++ b.drop (text null b).length).length ≤ n := by
    rw [hsplit]
    exact hlen
  have hiff := fill_append_iff null hfits
  rwa [hsplit] at hiff

end CString
