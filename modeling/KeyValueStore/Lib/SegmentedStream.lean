import Mathlib.Algebra.GroupWithZero.Nat
import Mathlib.Data.List.Basic

/-!
# Streams that arrive in segments

A stream is given by the segments that are still to be read. A segment arrives when the ones before
it have been read, so `read n` returns `n` bytes or the rest of the first segment, if that is less.
Whatever has arrived in time for one read counts as one segment here.

A reader that knows the lengths of its fields asks for them one after another (`readAll`). It gets
the fields that were sent just if every segment consists of whole fields (`Whole`), and otherwise it
is left with bytes that it has not read (`ReadsWhole`, `readsWhole_iff`).
-/

namespace SegmentedStream

variable {α : Type*} {segs : List (List α)} {n : Nat} {ns ms : List Nat}

/-- What a read of `n` bytes returns, and what it leaves. -/
def read (n : Nat) : List (List α) → List α × List (List α)
  | [] => ([], [])
  | seg :: segs => (seg.take n, if seg.length ≤ n then segs else seg.drop n :: segs)

/-- What reads of the given lengths leave. -/
def readAll : List Nat → List (List α) → List (List α)
  | [], segs => segs
  | n :: ns, segs => readAll ns (read n segs).2

/-- No read of these lengths falls short. -/
def ReadsWhole : List Nat → List (List α) → Prop
  | [], _ => True
  | n :: ns, segs => (read n segs).1.length = n ∧ ReadsWhole ns (read n segs).2

/-! ## Reads -/

theorem read_append (n : Nat) (segs : List (List α)) :
    (read n segs).1 ++ (read n segs).2.flatten = segs.flatten := by
  cases segs with
  | nil => rfl
  | cons seg segs =>
    rw [read]
    dsimp only
    split_ifs with h
    · rw [List.take_of_length_le h, List.flatten_cons]
    · rw [List.flatten_cons, List.flatten_cons, ← List.append_assoc, List.take_append_drop]

theorem read_length_le (n : Nat) (segs : List (List α)) : (read n segs).1.length ≤ n := by
  cases segs with
  | nil => exact Nat.zero_le n
  | cons seg segs => exact List.length_take_le n seg

theorem read_eq_take (h : (read n segs).1.length = n) :
    (read n segs).1 = segs.flatten.take n ∧ (read n segs).2.flatten = segs.flatten.drop n := by
  rw [← read_append n segs]
  exact ⟨(List.take_left' h).symm, (List.drop_left' h).symm⟩

theorem read_ne_nil (h : ∀ seg ∈ segs, seg ≠ []) : ∀ seg ∈ (read n segs).2, seg ≠ [] := by
  cases segs with
  | nil => exact h
  | cons seg segs =>
    obtain ⟨-, hsegs⟩ := List.forall_mem_cons.1 h
    rw [read]
    dsimp only
    split_ifs with hn
    · exact hsegs
    · refine List.forall_mem_cons.2 ⟨fun hnil => hn ?_, hsegs⟩
      exact List.drop_eq_nil_iff.1 hnil

theorem readAll_ne_nil (h : ∀ seg ∈ segs, seg ≠ []) : ∀ seg ∈ readAll ns segs, seg ≠ [] := by
  induction ns generalizing segs with
  | nil => exact h
  | cons n ns ih => exact ih (read_ne_nil h)

theorem readAll_append (ns ms : List Nat) (segs : List (List α)) :
    readAll (ns ++ ms) segs = readAll ms (readAll ns segs) := by
  induction ns generalizing segs with
  | nil => rfl
  | cons n ns ih => exact ih _

theorem readsWhole_append :
    ReadsWhole (ns ++ ms) segs ↔ ReadsWhole ns segs ∧ ReadsWhole ms (readAll ns segs) := by
  induction ns generalizing segs with
  | nil => exact (iff_of_eq (true_and _)).symm
  | cons n ns ih =>
    rw [List.cons_append, ReadsWhole, ReadsWhole, readAll, ih, and_assoc]

/-- Whole reads leave what comes after their bytes. -/
theorem flatten_readAll (h : ReadsWhole ns segs) :
    (readAll ns segs).flatten = segs.flatten.drop ns.sum := by
  induction ns generalizing segs with
  | nil => rfl
  | cons n ns ih =>
    rw [readAll, ih h.2, (read_eq_take h.1).2, List.drop_drop, List.sum_cons]

/-- **Short reads leave bytes behind.** Reads of the given lengths take at most their sum, and take
all of it just if no read falls short. -/
theorem readsWhole_iff (ns : List Nat) (segs : List (List α)) :
    segs.flatten.length ≤ ns.sum + (readAll ns segs).flatten.length ∧
      (ReadsWhole ns segs ↔ segs.flatten.length = ns.sum + (readAll ns segs).flatten.length) := by
  induction ns generalizing segs with
  | nil =>
    rw [readAll, List.sum_nil, Nat.zero_add]
    exact ⟨Nat.le_refl _, iff_of_true trivial rfl⟩
  | cons n ns ih =>
    obtain ⟨hle, hiff⟩ := ih (read n segs).2
    have hshort := read_length_le n segs
    have hlen := congrArg List.length (read_append n segs)
    rw [List.length_append] at hlen
    rw [readAll, ReadsWhole, hiff, List.sum_cons]
    omega

/-- A stream of which everything has arrived. -/
def arrived (bytes : List α) : List (List α) :=
  match bytes with
  | [] => []
  | _ => [bytes]

theorem read_arrived (n : Nat) (bytes : List α) :
    read n (arrived bytes) = (bytes.take n, arrived (bytes.drop n)) := by
  cases bytes with
  | nil => rw [List.take_nil, List.drop_nil, arrived, read]
  | cons b bytes =>
    rw [arrived, read]
    · split_ifs with hlen
      · rw [List.drop_eq_nil_of_le hlen, arrived]
      · rw [arrived]
        exact fun hnil => hlen (List.drop_eq_nil_iff.1 hnil)
    · exact List.cons_ne_nil b bytes

/-! ## Whole fields -/

/-- Every segment consists of whole fields: no cut falls inside one. -/
def Whole (fields segs : List (List α)) : Prop :=
  ∃ groups : List (List (List α)), groups.flatten = fields ∧ segs = groups.map List.flatten

/-- The first field comes at the start of the first segment, and the rest is whole without it. -/
theorem whole_cons {f : List α} {fields : List (List α)} (hf : f ≠ [])
    (hfields : ∀ g ∈ fields, g ≠ []) (hsegs : ∀ seg ∈ segs, seg ≠ []) :
    Whole (f :: fields) segs ↔
      (read f.length segs).1 = f ∧ Whole fields (read f.length segs).2 := by
  constructor
  · rintro ⟨groups, hflat, rfl⟩
    cases groups with
    | nil => cases hflat
    | cons g gs =>
      -- the first group is not empty, so it starts with `f`
      cases g with
      | nil => exact absurd rfl (hsegs [] (by simp))
      | cons f' g =>
        obtain ⟨rfl, rfl⟩ : f' = f ∧ g ++ gs.flatten = fields := by simpa using hflat
        rw [List.map_cons, read, List.flatten_cons]
        refine ⟨List.take_left, ?_⟩
        split_ifs with hlen
        · have hnil : g = [] := by
            cases g with
            | nil => rfl
            | cons x g =>
              have hx := List.length_pos_iff.2 (hfields x (by simp))
              simp only [List.length_append, List.flatten_cons] at hlen
              omega
          subst hnil
          exact ⟨gs, rfl, rfl⟩
        · rw [List.drop_left]
          exact ⟨g :: gs, by simp, rfl⟩
  · rintro ⟨hread, groups, rfl, hrest⟩
    cases segs with
    | nil => exact absurd hread.symm hf
    | cons seg segs =>
      rw [read] at hread hrest
      dsimp only at hread hrest
      split_ifs at hrest with hlen
      · rw [List.take_of_length_le hlen] at hread
        exact ⟨[f] :: groups, by simp, by simp [hread, hrest]⟩
      · cases groups with
        | nil => cases hrest
        | cons g gs =>
          obtain ⟨hdrop, hsegs'⟩ := List.cons.inj hrest
          have hseg := List.take_append_drop f.length seg
          rw [hread] at hseg
          refine ⟨(f :: g) :: gs, by simp, ?_⟩
          rw [List.map_cons, List.flatten_cons, ← hdrop, ← hsegs', hseg]

/-- **A reader gets whole fields just if the segments consist of them.** -/
theorem whole_iff {fields : List (List α)} (hfields : ∀ g ∈ fields, g ≠ [])
    (hsegs : ∀ seg ∈ segs, seg ≠ []) (hflat : segs.flatten = fields.flatten) :
    Whole fields segs ↔ ReadsWhole (fields.map List.length) segs := by
  induction fields generalizing segs with
  | nil =>
    refine iff_of_true ?_ trivial
    refine ⟨[], rfl, ?_⟩
    rw [List.map_nil, List.eq_nil_iff_forall_not_mem]
    intro seg hseg
    exact hsegs seg hseg (List.flatten_eq_nil_iff.1 hflat seg hseg)
  | cons f fields ih =>
    obtain ⟨hf, hrest⟩ := List.forall_mem_cons.1 hfields
    rw [whole_cons hf hrest hsegs, List.map_cons, ReadsWhole]
    constructor
    · rintro ⟨hread, hwhole⟩
      have happend := read_append f.length segs
      rw [hread, hflat, List.flatten_cons, List.append_cancel_left_eq] at happend
      exact ⟨congrArg List.length hread, (ih hrest (read_ne_nil hsegs) happend).1 hwhole⟩
    · rintro ⟨hlen, hreads⟩
      obtain ⟨hread, hdrop⟩ := read_eq_take hlen
      rw [hflat, List.flatten_cons, List.take_left] at hread
      rw [hflat, List.flatten_cons, List.drop_left] at hdrop
      exact ⟨hread, (ih hrest (read_ne_nil hsegs) hdrop).2 hreads⟩

end SegmentedStream
