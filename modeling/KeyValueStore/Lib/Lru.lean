import Mathlib.Data.List.Basic
import Mathlib.Data.List.Nodup
import Mathlib.Logic.Function.Basic

/-!
# Recency

`Ordered time xs` says that the list `xs` is sorted by the time of the last touch, the latest first.
Moving an element to the front keeps it so, if the element is given the current time.

`Lru α capacity` is a least-recently-used cache: at most `capacity` keys, each once, the most
recently touched first. `Lru.touch` moves a key to the front, entering it if it is not there; what
exceeds the capacity drops off the end. The lemmas about it are about a list of nodes whose keys are
those of the cache: what has to be done to such a list when a key is touched.
-/

namespace Recency

variable {α β : Type*}

/-! ## Lists sorted by the time of the last touch -/

/-- From front to back, each element was last touched before the one in front of it. -/
def Ordered (time : α → Nat) (xs : List α) : Prop := xs.Pairwise fun x y => time y < time x

variable {time time' : α → Nat} {now : Nat} {xs ys : List α} {p v : α}

theorem Ordered.sublist (h : Ordered time xs) (hys : ys.Sublist xs) : Ordered time ys :=
  List.Pairwise.sublist hys h

theorem Ordered.congr (h : Ordered time xs) (htime : ∀ x ∈ xs, time' x = time x) :
    Ordered time' xs := by
  refine List.Pairwise.imp_of_mem (fun {a b} ha hb hab => ?_) h
  rw [htime a ha, htime b hb]
  exact hab

section Touch

variable [DecidableEq α]

/-- A list without the element that is touched. -/
theorem Ordered.untouched (h : Ordered time xs) (hp : p ∉ xs) :
    Ordered (Function.update time p now) xs :=
  h.congr fun _ hx => Function.update_of_ne (ne_of_mem_of_not_mem hx hp) ..

/-- **Moving the element that is touched to the front.** -/
theorem Ordered.touch (h : Ordered time xs) (hp : p ∉ xs) (hnow : ∀ x ∈ xs, time x < now) :
    Ordered (Function.update time p now) (p :: xs) := by
  refine List.pairwise_cons.2 ⟨fun x hx => ?_, h.untouched hp⟩
  rw [Function.update_self, Function.update_of_ne (ne_of_mem_of_not_mem hx hp)]
  exact hnow x hx

end Touch

/-- **The last element was touched before all others.** -/
theorem Ordered.lt_of_last (h : Ordered time xs) (hlast : xs.getLast? = some p) :
    ∀ x ∈ xs, x ≠ p → time p < time x := by
  obtain ⟨ys, rfl⟩ := List.getLast?_eq_some_iff.1 hlast
  intro x hx hne
  rcases List.mem_append.1 hx with hx | hx
  · exact (List.pairwise_append.1 h).2.2 x hx p (List.mem_singleton_self p)
  · exact absurd (List.mem_singleton.1 hx) hne

/-! ## The least-recently-used cache -/

/-- A cache of keys, the most recently touched first. -/
structure Lru (β : Type*) (capacity : Nat) where
  keys : List β
  nodup : keys.Nodup
  length_le : keys.length ≤ capacity

namespace Lru

variable {capacity : Nat}

def empty : Lru β capacity := ⟨[], List.nodup_nil, Nat.zero_le _⟩

variable [DecidableEq β]

def touch (c : Lru β capacity) (k : β) : Lru β capacity where
  keys := (k :: c.keys.erase k).take capacity
  nodup := by
    refine List.Nodup.sublist (List.take_sublist _ _) (List.nodup_cons.2 ⟨?_, c.nodup.erase k⟩)
    exact c.nodup.not_mem_erase
  length_le := List.length_take_le _ _

variable {c : Lru β capacity} {key : α → β} {k : β}

theorem keys_touch : (c.touch k).keys = (k :: c.keys.erase k).take capacity := rfl

theorem map_erase [DecidableEq α] (hnd : (xs.map key).Nodup) (hp : p ∈ xs) :
    (xs.erase p).map key = (xs.map key).erase (key p) := by
  induction xs with
  | nil => cases hp
  | cons x xs ih =>
    rw [List.map_cons, List.nodup_cons] at hnd
    by_cases hx : x = p
    · rw [hx, List.erase_cons_head, List.map_cons, List.erase_cons_head]
    · have hp' : p ∈ xs := (List.mem_cons.1 hp).resolve_left (Ne.symm hx)
      have hkey : key x ≠ key p := fun hk => hnd.1 (hk ▸ List.mem_map_of_mem hp')
      rw [List.erase_cons_tail (by simpa using hx), List.map_cons, List.map_cons,
        List.erase_cons_tail (by simpa using hkey), ih hnd.2 hp']

/-- **A hit** moves the node to the front. -/
theorem keys_touch_hit [DecidableEq α] (h : xs.map key = c.keys) (hp : p ∈ xs) :
    (p :: xs.erase p).map key = (c.touch (key p)).keys := by
  have hk : key p ∈ c.keys := h ▸ List.mem_map_of_mem hp
  have hlen : (key p :: c.keys.erase (key p)).length ≤ capacity := by
    rw [(List.perm_cons_erase hk).length_eq.symm]
    exact c.length_le
  rw [keys_touch, List.take_of_length_le hlen, List.map_cons, map_erase (h ▸ c.nodup) hp, h]

/-- **A miss with room** adds a node in front. -/
theorem keys_touch_insert (h : xs.map key = c.keys) (hk : k ∉ c.keys)
    (hroom : xs.length < capacity) : k :: xs.map key = (c.touch k).keys := by
  have hlen : (k :: c.keys).length ≤ capacity := by
    rw [List.length_cons, ← h, List.length_map]
    exact hroom
  rw [keys_touch, List.erase_of_not_mem hk, List.take_of_length_le hlen, h]

/-- **A miss without room** replaces the last node by one in front. -/
theorem keys_touch_replace (h : (xs ++ [v]).map key = c.keys) (hk : k ∉ c.keys)
    (hfull : (xs ++ [v]).length = capacity) : k :: xs.map key = (c.touch k).keys := by
  have hlen : (k :: xs.map key).length = capacity := by
    rw [← hfull, List.length_cons, List.length_map, List.length_append]
    rfl
  rw [keys_touch, List.erase_of_not_mem hk, ← h, List.map_append, ← List.cons_append,
    List.take_left' hlen]

end Lru

end Recency
