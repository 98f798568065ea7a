import Mathlib.Data.List.Basic
import Mathlib.Data.List.Nodup

/-!
# Circular doubly linked lists

A doubly linked list is given by two functions, `next` and `prev`, on its nodes. `Path a xs b`
says that `next` leads from `a` through `xs` to `b` and that `prev` undoes every step; a ring
through `h` is a path from `h` to itself.

* `Path.insertLast` links a new node between the last node and the end of the path.
* `Path.remove` unlinks one node.

Both take the new link functions as they are after the edit and ask only how they differ from the
old ones on the nodes of the path, so unlinked nodes may hold anything.
-/

namespace Ring

variable {α : Type*}

/-- `next` leads from `a` through `xs` to `b`, and `prev` back. -/
def Path (next prev : α → α) : α → List α → α → Prop
  | a, [], b => next a = b ∧ prev b = a
  | a, x :: xs, b => next a = x ∧ prev x = a ∧ Path next prev x xs b

/-- `next` leads from `a` through `xs` to `b`. -/
def Walk (next : α → α) : α → List α → α → Prop
  | a, [], b => next a = b
  | a, x :: xs, b => next a = x ∧ Walk next x xs b

variable {next prev next' prev' : α → α}

theorem Path.walk {a b : α} {xs : List α} (h : Path next prev a xs b) : Walk next a xs b := by
  induction xs generalizing a with
  | nil => exact h.1
  | cons x xs ih => exact ⟨h.1, ih h.2.2⟩

theorem Walk.congr {a b : α} {xs : List α} (h : Walk next a xs b)
    (hn : ∀ y ∈ a :: xs, next' y = next y) : Walk next' a xs b := by
  induction xs generalizing a with
  | nil => exact (hn a List.mem_cons_self).trans h
  | cons x xs ih =>
    exact ⟨(hn a List.mem_cons_self).trans h.1,
      ih h.2 fun y hy => hn y (List.mem_cons_of_mem _ hy)⟩

theorem Path.congr {a b : α} {xs : List α} (h : Path next prev a xs b)
    (hn : ∀ y ∈ a :: xs, next' y = next y) (hp : ∀ y ∈ xs ++ [b], prev' y = prev y) :
    Path next' prev' a xs b := by
  induction xs generalizing a with
  | nil => exact ⟨by rw [hn a (by simp), h.1], by rw [hp b (by simp), h.2]⟩
  | cons x xs ih =>
    refine ⟨by rw [hn a (by simp), h.1], by rw [hp x (by simp), h.2.1], ?_⟩
    exact ih h.2.2 (fun y hy => hn y (List.mem_cons_of_mem _ hy))
      fun y hy => hp y (List.mem_cons_of_mem _ hy)

/-- The node before the end is the last one visited. -/
theorem Path.prev_end {a b : α} {xs : List α} (h : Path next prev a xs b) :
    prev b = xs.getLastD a := by
  induction xs generalizing a with
  | nil => exact h.2
  | cons x xs ih => rw [ih h.2.2, List.getLastD_cons]

theorem Path.prev_end_mem {a b : α} {xs : List α} (h : Path next prev a xs b) :
    prev b ∈ a :: xs := by
  rw [h.prev_end]
  exact List.getLastD_mem_cons ..

theorem path_append {a b x : α} {xs ys : List α} :
    Path next prev a (xs ++ x :: ys) b ↔ Path next prev a xs x ∧ Path next prev x ys b := by
  induction xs generalizing a with
  | nil => exact and_assoc.symm
  | cons z xs ih => simp only [List.cons_append, Path, ih, and_assoc]

theorem Path.next_mem {a b : α} {xs : List α} (h : Path next prev a xs b) :
    next a ∈ xs ++ [b] := by
  cases xs with
  | nil => simp [h.1]
  | cons x xs => simp [h.1]

/-- Linking `q` in at the end of the path. -/
theorem Path.insertLast {a b q : α} {xs : List α} (h : Path next prev a xs b)
    (hnd : (a :: xs).Nodup) (hlast : next' (prev b) = q) (hq : next' q = b)
    (hqp : prev' q = prev b) (hb : prev' b = q)
    (hn : ∀ y ∈ a :: xs, y ≠ prev b → next' y = next y) (hp : ∀ y ∈ xs, prev' y = prev y) :
    Path next' prev' a (xs ++ [q]) b := by
  induction xs generalizing a with
  | nil =>
    obtain ⟨-, hba⟩ := h
    exact ⟨by rw [← hba, hlast], by rw [hqp, hba], hq, hb⟩
  | cons x xs ih =>
    have hne : a ≠ prev b := fun he => by
      have := h.2.2.prev_end_mem
      rw [← he] at this
      exact (List.nodup_cons.1 hnd).1 this
    refine ⟨by rw [hn a (by simp) hne, h.1], by rw [hp x (by simp), h.2.1], ?_⟩
    exact ih h.2.2 (List.nodup_cons.1 hnd).2 (fun y hy => hn y (List.mem_cons_of_mem _ hy))
      fun y hy => hp y (List.mem_cons_of_mem _ hy)

/-- Unlinking `x`: its neighbours are linked to each other. The end `b` may be the start `a`. -/
theorem Path.remove {a b x : α} {xs ys : List α} (h : Path next prev a (xs ++ x :: ys) b)
    (hnd : (a :: (xs ++ x :: ys)).Nodup) (hb : b ∉ xs ++ x :: ys)
    (hpred : next' (prev x) = next x) (hsucc : prev' (next x) = prev x)
    (hn : ∀ y ∈ a :: (xs ++ ys), y ≠ prev x → next' y = next y)
    (hp : ∀ y ∈ xs ++ ys ++ [b], y ≠ next x → prev' y = prev y) :
    Path next' prev' a (xs ++ ys) b := by
  induction xs generalizing a with
  | nil =>
    obtain ⟨-, hxa, hrest⟩ := h
    rw [hxa] at hpred hsucc hn
    rw [List.nil_append] at hnd hb hn hp ⊢
    obtain ⟨hax, hnd'⟩ := List.nodup_cons.1 hnd
    cases ys with
    | nil =>
      rw [hrest.1] at hpred hsucc
      exact ⟨hpred, hsucc⟩
    | cons y ys =>
      rw [hrest.1] at hpred hsucc hp
      refine ⟨hpred, hsucc, hrest.2.2.congr (fun z hz => hn z (by simp_all) ?_)
        fun z hz => hp z (by simp_all) ?_⟩
      · rintro rfl
        exact hax (List.mem_cons_of_mem _ hz)
      · rintro rfl
        rcases List.mem_append.1 hz with hz | hz
        · exact (List.nodup_cons.1 (List.nodup_cons.1 hnd').2).1 hz
        · rw [List.mem_singleton.1 hz] at hb
          simp at hb
  | cons z xs ih =>
    obtain ⟨hza, hzp, hrest⟩ := h
    have hparts := path_append.1 hrest
    obtain ⟨haz, hnd'⟩ := List.nodup_cons.1 hnd
    -- the neighbours of `x` are further on, so the links between `a` and `z` stay
    have hna : a ≠ prev x := fun he => by
      have := hparts.1.prev_end_mem
      rw [← he] at this
      exact haz (by simp at this ⊢; tauto)
    have hnz : z ≠ next x := fun he => by
      have hmem := hparts.2.next_mem
      rw [← he] at hmem
      rcases List.mem_append.1 hmem with hmem | hmem
      · exact (List.nodup_cons.1 hnd').1 (by simp [hmem])
      · rw [List.mem_singleton.1 hmem] at hb
        simp at hb
    refine ⟨by rw [hn a (by simp) hna, hza], by rw [hp z (by simp) hnz, hzp], ?_⟩
    exact ih hrest hnd' (fun hmem => hb (List.mem_cons_of_mem _ hmem))
      (fun y hy => hn y (List.mem_cons_of_mem _ hy))
      fun y hy => hp y (List.mem_cons_of_mem _ hy)

end Ring
