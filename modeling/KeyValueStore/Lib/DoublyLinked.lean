import Mathlib.Data.List.Basic
import Mathlib.Data.List.Nodup
import Mathlib.Logic.Function.Basic

/-!
# Null-terminated doubly linked lists

A list is a header (`head`, `tail`) over two link maps `prev` and `next`, which many lists may
share. `Links.Rep d xs` says that the header and the links spell out `xs`, from head to tail and
back, each node once.

`unlink` and `pushFront` are the usual pointer edits, in the usual order of writes. For each there
is the list it yields and its frame: links of nodes outside the list do not change.

A `Family` is a table of lists over common link maps. When no two of its lists share a node, an
edit of one of them leaves the others as they are (`Family.Rep.unlink` and so on).

`Links.Within P` is what is left when the links may be in disorder: whatever the edits do, they copy
pointers that are there.
-/

namespace DoublyLinked

variable {α : Type*}

/-- A list header and the link maps it is read through. -/
structure Links (α : Type*) where
  head : Option α
  tail : Option α
  prev : α → Option α
  next : α → Option α

/-! ## Segments -/

/-- The nodes `xs`, entered at `first` and left to `after`; `before` precedes the first of them and
`last` is the last of them. An empty segment passes both ends through. -/
def Seg (prev next : α → Option α) : Option α → Option α → List α → Option α → Option α → Prop
  | before, first, [], last, after => first = after ∧ last = before
  | before, first, x :: xs, last, after =>
    first = some x ∧ prev x = before ∧ Seg prev next (some x) (next x) xs last after

variable {prev next prev' next' : α → Option α} {b f l a : Option α} {xs ys : List α}

theorem Seg.congr (h : Seg prev next b f xs l a) (hp : ∀ y ∈ xs, prev' y = prev y)
    (hn : ∀ y ∈ xs, next' y = next y) : Seg prev' next' b f xs l a := by
  induction xs generalizing b f with
  | nil => exact h
  | cons x xs ih =>
    refine ⟨h.1, by rw [hp x (by simp), h.2.1], ?_⟩
    rw [hn x (by simp)]
    exact ih h.2.2 (fun y hy => hp y (List.mem_cons_of_mem _ hy))
      fun y hy => hn y (List.mem_cons_of_mem _ hy)

theorem seg_append : Seg prev next b f (xs ++ ys) l a ↔
    ∃ l' f', Seg prev next b f xs l' f' ∧ Seg prev next l' f' ys l a := by
  induction xs generalizing b f with
  | nil =>
    constructor
    · exact fun h => ⟨b, f, ⟨rfl, rfl⟩, h⟩
    · rintro ⟨l', f', ⟨rfl, rfl⟩, h⟩
      exact h
  | cons x xs ih =>
    simp only [List.cons_append, Seg, ih]
    constructor
    · rintro ⟨h1, h2, l', f', h3, h4⟩
      exact ⟨l', f', ⟨h1, h2, h3⟩, h4⟩
    · rintro ⟨l', f', ⟨h1, h2, h3⟩, h4⟩
      exact ⟨h1, h2, l', f', h3, h4⟩

theorem Seg.last_eq (h : Seg prev next b f xs l a) : l = xs.getLast?.or b := by
  induction xs generalizing b f with
  | nil => exact h.2
  | cons x xs ih =>
    rw [ih h.2.2]
    cases xs with
    | nil => rfl
    | cons y ys => simp [List.getLast?_cons]

theorem Seg.first_eq (h : Seg prev next b f xs l a) : f = xs.head?.or a := by
  cases xs with
  | nil => exact h.1
  | cons x xs => exact h.1

namespace Links

/-- The links spell out `xs`. -/
def Rep (d : Links α) (xs : List α) : Prop :=
  Seg d.prev d.next none d.head xs d.tail none ∧ xs.Nodup

variable {d d' : Links α}

theorem Rep.congr (h : d.Rep xs) (hh : d'.head = d.head) (ht : d'.tail = d.tail)
    (hp : ∀ y ∈ xs, d'.prev y = d.prev y) (hn : ∀ y ∈ xs, d'.next y = d.next y) : d'.Rep xs := by
  refine ⟨?_, h.2⟩
  rw [hh, ht]
  exact h.1.congr hp hn

theorem Rep.head_eq (h : d.Rep xs) : d.head = xs.head? := by
  rw [h.1.first_eq, Option.or_none]

theorem Rep.tail_eq (h : d.Rep xs) : d.tail = xs.getLast? := by
  rw [h.1.last_eq, Option.or_none]

theorem Rep.head_eq_none_iff (h : d.Rep xs) : d.head = none ↔ d.tail = none := by
  rw [h.head_eq, h.tail_eq, List.head?_eq_none_iff, List.getLast?_eq_none_iff]

theorem Rep.prev_of_next {x y : α} (h : d.Rep xs) (hx : x ∈ xs) (hnext : d.next x = some y) :
    y ∈ xs ∧ d.prev y = some x := by
  obtain ⟨us, ys, rfl⟩ := List.append_of_mem hx
  obtain ⟨-, -, -, -, -, hys⟩ := seg_append.1 h.1
  cases ys with
  | nil => exact absurd (hnext.symm.trans hys.1) (by simp)
  | cons z zs =>
    obtain rfl := Option.some.inj (hnext.symm.trans hys.1)
    exact ⟨by simp, hys.2.1⟩

theorem Rep.next_of_prev {x y : α} (h : d.Rep xs) (hy : y ∈ xs) (hprev : d.prev y = some x) :
    x ∈ xs ∧ d.next x = some y := by
  obtain ⟨us, ys, rfl⟩ := List.append_of_mem hy
  obtain ⟨l, f, hus, hf, hl, -⟩ := seg_append.1 h.1
  rcases List.eq_nil_or_concat us with rfl | ⟨us, z, rfl⟩
  · exact absurd (hprev.symm.trans (hl.trans hus.2)) (by simp)
  · rw [List.concat_eq_append] at hus ⊢
    obtain ⟨l', f', -, hz, -, hf', hl'⟩ := seg_append.1 hus
    obtain rfl := Option.some.inj (hprev.symm.trans (hl.trans hl'))
    exact ⟨by simp, hf'.trans hf⟩

end Links

/-- The nodes met by following `next`, at most `fuel` of them. -/
def walk (next : α → Option α) : Nat → Option α → List α
  | 0, _ => []
  | _, none => []
  | fuel + 1, some x => x :: walk next fuel (next x)

theorem walk_of_seg {fuel : Nat} (h : Seg prev next b f xs l none) (hfuel : xs.length ≤ fuel) :
    walk next fuel f = xs := by
  induction xs generalizing b f fuel with
  | nil => rw [h.1]; cases fuel <;> rfl
  | cons x xs ih =>
    cases fuel with
    | zero => simp at hfuel
    | succ fuel => rw [h.1, walk, ih h.2.2 (by simpa using hfuel)]

/-! ## Edits -/

variable [DecidableEq α]

theorem Seg.setAfter {y : α} (h : Seg prev next b f xs (some y) a) (hy : y ∈ xs) (hnd : xs.Nodup)
    (a' : Option α) : Seg prev (Function.update next y a') b f xs (some y) a' := by
  induction xs generalizing b f with
  | nil => simp at hy
  | cons x xs ih =>
    refine ⟨h.1, h.2.1, ?_⟩
    cases xs with
    | nil =>
      obtain ⟨-, hl⟩ := h.2.2
      rw [Option.some.inj hl, Function.update_self]
      exact ⟨rfl, rfl⟩
    | cons z zs =>
      have hlast : (z :: zs).getLast? = some y := by
        simpa [List.getLast?_cons] using h.2.2.last_eq.symm
      have hyz : y ∈ z :: zs := List.mem_of_getLast? hlast
      have hne : x ≠ y := fun he => (List.nodup_cons.1 hnd).1 (he ▸ hyz)
      rw [Function.update_of_ne hne]
      exact ih h.2.2 hyz (List.nodup_cons.1 hnd).2

theorem Seg.setBefore {z : α} (h : Seg prev next b (some z) (z :: ys) l a) (hnd : (z :: ys).Nodup)
    (b' : Option α) : Seg (Function.update prev z b') next b' (some z) (z :: ys) l a := by
  refine ⟨rfl, Function.update_self .., h.2.2.congr (fun y hy => ?_) fun _ _ => rfl⟩
  refine Function.update_of_ne ?_ ..
  rintro rfl
  exact (List.nodup_cons.1 hnd).1 hy

namespace Links

/-- Remove `p` from the list. -/
def unlink (d : Links α) (p : α) : Links α :=
  let d := match d.prev p with
    | none => { d with head := d.next p }
    | some y => { d with next := Function.update d.next y (d.next p) }
  match d.next p with
  | none => { d with tail := d.prev p }
  | some z => { d with prev := Function.update d.prev z (d.prev p) }

/-- Insert `p` before the head. -/
def pushFront (d : Links α) (p : α) : Links α :=
  let d := { d with prev := Function.update d.prev p none
                    next := Function.update d.next p d.head }
  let d := match d.head with
    | none => { d with tail := some p }
    | some z => { d with prev := Function.update d.prev z (some p) }
  { d with head := some p }

/-- Move `p` to the front. -/
def moveToFront (d : Links α) (p : α) : Links α :=
  if d.head = some p then d else (d.unlink p).pushFront p

variable {d : Links α} {p : α}

/-- **Unlinking removes the node.** -/
theorem Rep.unlink (h : d.Rep (xs ++ p :: ys)) : (d.unlink p).Rep (xs ++ ys) := by
  obtain ⟨hseg, hnd⟩ := h
  obtain ⟨l', f', hxs, hf', hprev, hys⟩ := seg_append.1 hseg
  rw [List.nodup_append] at hnd
  obtain ⟨hndx, hndp, hdisj⟩ := hnd
  obtain ⟨hpy, hndy⟩ := List.nodup_cons.1 hndp
  have hndxy : (xs ++ ys).Nodup :=
    List.nodup_append.2 ⟨hndx, hndy, fun u hu v hv => hdisj u hu v (List.mem_cons_of_mem _ hv)⟩
  have hpx : p ∉ xs := fun hp => hdisj p hp p (by simp) rfl
  have hlast := hxs.last_eq
  have hfirst := hys.first_eq
  refine ⟨?_, hndxy⟩
  rw [seg_append]
  unfold Links.unlink
  -- Whether `p` was first decides the forward link, whether it was last the backward one.
  rcases List.eq_nil_or_concat xs with rfl | ⟨us, u, rfl⟩
  · obtain ⟨-, rfl⟩ := hxs
    cases ys with
    | nil =>
      have hnext : d.next p = none := hys.1
      simp only [hprev, hnext]
      exact ⟨none, none, ⟨rfl, rfl⟩, rfl, rfl⟩
    | cons y ys =>
      have hnext : d.next p = some y := hys.1
      rw [hnext] at hys
      simp only [hprev, hnext]
      exact ⟨none, some y, ⟨rfl, rfl⟩, hys.setBefore hndy none⟩
  · have hu : l' = some u := by rw [hlast]; simp
    subst hu
    have hup : u ≠ p := fun he => hpx (by simp [he])
    have hus : u ∈ us.concat u := by simp
    have hyu : ∀ y ∈ ys, y ≠ u := fun y hy he =>
      hdisj u hus y (List.mem_cons_of_mem _ hy) he.symm
    cases ys with
    | nil =>
      have hnext : d.next p = none := hys.1
      simp only [hprev, hnext, Function.update_of_ne hup.symm]
      exact ⟨some u, none, hxs.setAfter hus hndx none, rfl, rfl⟩
    | cons y ys =>
      have hnext : d.next p = some y := hys.1
      rw [hnext] at hys
      simp only [hprev, hnext, Function.update_of_ne hup.symm]
      refine ⟨some u, some y, ?_, ?_⟩
      · refine (hxs.setAfter hus hndx (some y)).congr (fun z hz => ?_) fun _ _ => rfl
        refine Function.update_of_ne ?_ ..
        rintro rfl
        exact hdisj z hz z (by simp) rfl
      · have hback := hys.setBefore hndy (some u)
        exact hback.congr (fun _ _ => rfl) fun z hz => Function.update_of_ne (hyu z hz) ..

theorem unlink_prev_of_not_mem (h : d.Rep xs) (hp : p ∈ xs) {q : α} (hq : q ∉ xs) :
    (d.unlink p).prev q = d.prev q ∧ (d.unlink p).next q = d.next q := by
  obtain ⟨us, ys, rfl⟩ := List.append_of_mem hp
  obtain ⟨l', f', hxs, hf', hprev, hys⟩ := seg_append.1 h.1
  have hpq : ∀ z ∈ us ++ p :: ys, q ≠ z := fun z hz he => hq (he ▸ hz)
  have hnd := h.2
  rw [List.nodup_append] at hnd
  unfold Links.unlink
  rcases List.eq_nil_or_concat us with rfl | ⟨us', u, rfl⟩
  · obtain ⟨-, rfl⟩ := hxs
    cases ys with
    | nil =>
      have hnext : d.next p = none := hys.1
      simp only [hprev, hnext, and_self]
    | cons y ys =>
      have hnext : d.next p = some y := hys.1
      have hqy : q ≠ y := hpq y (by simp)
      simp only [hprev, hnext, Function.update_of_ne hqy, and_self]
  · have hu : l' = some u := by rw [hxs.last_eq]; simp
    subst hu
    have hup : p ≠ u := fun he => hnd.2.2 u (by simp) p (by simp) he.symm
    have hqu : q ≠ u := hpq u (by simp)
    cases ys with
    | nil =>
      have hnext : d.next p = none := hys.1
      simp only [hprev, hnext, Function.update_of_ne hup, Function.update_of_ne hqu, and_self]
    | cons y ys =>
      have hnext : d.next p = some y := hys.1
      have hqy : q ≠ y := hpq y (by simp)
      simp only [hprev, hnext, Function.update_of_ne hup, Function.update_of_ne hqu,
        Function.update_of_ne hqy, and_self]

/-- **Pushing in front.** -/
theorem Rep.pushFront (h : d.Rep xs) (hp : p ∉ xs) : (d.pushFront p).Rep (p :: xs) := by
  obtain ⟨hseg, hnd⟩ := h
  refine ⟨?_, List.nodup_cons.2 ⟨hp, hnd⟩⟩
  unfold Links.pushFront
  cases xs with
  | nil =>
    obtain ⟨hhead, -⟩ := hseg
    simp only [hhead]
    exact ⟨rfl, Function.update_self .., Function.update_self .., rfl⟩
  | cons z zs =>
    obtain ⟨hhead, hprev, hrest⟩ := hseg
    have hzp : z ≠ p := fun he => hp (by simp [he])
    simp only [hhead]
    refine ⟨rfl, ?_, ?_⟩
    · rw [Function.update_of_ne hzp.symm, Function.update_self]
    · rw [Function.update_self]
      refine ⟨rfl, Function.update_self .., ?_⟩
      rw [Function.update_of_ne hzp]
      refine hrest.congr (fun y hy => ?_) fun y hy => ?_
      · have hyz : y ≠ z := fun he => (List.nodup_cons.1 hnd).1 (he ▸ hy)
        have hyp : y ≠ p := by rintro rfl; exact hp (List.mem_cons_of_mem _ hy)
        rw [Function.update_of_ne hyz, Function.update_of_ne hyp]
      · refine Function.update_of_ne ?_ ..
        rintro rfl
        exact hp (List.mem_cons_of_mem _ hy)

theorem pushFront_prev_of_not_mem (h : d.Rep xs) {q : α} (hqp : q ≠ p) (hq : q ∉ xs) :
    (d.pushFront p).prev q = d.prev q ∧ (d.pushFront p).next q = d.next q := by
  have hhead := h.head_eq
  unfold Links.pushFront
  cases xs with
  | nil =>
    simp only [hhead, List.head?_nil]
    exact ⟨Function.update_of_ne hqp .., Function.update_of_ne hqp ..⟩
  | cons z zs =>
    have hqz : q ≠ z := fun he => hq (by simp [he])
    simp only [hhead, List.head?_cons]
    exact ⟨by rw [Function.update_of_ne hqz, Function.update_of_ne hqp],
      Function.update_of_ne hqp ..⟩

/-- **Moving to the front.** -/
theorem Rep.moveToFront (h : d.Rep xs) (hp : p ∈ xs) :
    (d.moveToFront p).Rep (p :: xs.erase p) := by
  unfold Links.moveToFront
  split_ifs with hhead
  · rw [h.head_eq] at hhead
    cases xs with
    | nil => simp at hp
    | cons x xs =>
      obtain rfl := Option.some.inj hhead
      rwa [List.erase_cons_head]
  · obtain ⟨us, ys, rfl⟩ := List.append_of_mem hp
    have hnd := h.2
    have hpu : p ∉ us := fun hm => (List.nodup_append.1 hnd).2.2 p hm p (by simp) rfl
    have hpy : p ∉ ys := (List.nodup_cons.1 (List.nodup_append.1 hnd).2.1).1
    rw [List.erase_append_right _ hpu, List.erase_cons_head]
    exact h.unlink.pushFront (by simp [hpu, hpy])

theorem moveToFront_prev_of_not_mem (h : d.Rep xs) (hp : p ∈ xs) {q : α} (hq : q ∉ xs) :
    (d.moveToFront p).prev q = d.prev q ∧ (d.moveToFront p).next q = d.next q := by
  have hqp : q ≠ p := fun he => hq (he ▸ hp)
  unfold Links.moveToFront
  split_ifs with hhead
  · exact ⟨rfl, rfl⟩
  · have hframe := unlink_prev_of_not_mem h hp hq
    obtain ⟨us, ys, rfl⟩ := List.append_of_mem hp
    have hq' : q ∉ us ++ ys := fun hm => hq (by
      rcases List.mem_append.1 hm with hm | hm <;> simp [hm])
    have hpush := pushFront_prev_of_not_mem h.unlink hqp hq'
    exact ⟨hpush.1.trans hframe.1, hpush.2.trans hframe.2⟩

/-! ## Where pointers lead -/

section Within

variable {P Q : α → Prop}

/-- All pointers of the list and of the link maps lead to nodes that satisfy `P`, whether or not
they spell out a list. -/
structure Within (P : α → Prop) (d : Links α) : Prop where
  head : ∀ x ∈ d.head, P x
  tail : ∀ x ∈ d.tail, P x
  prev : ∀ y, ∀ x ∈ d.prev y, P x
  next : ∀ y, ∀ x ∈ d.next y, P x

omit [DecidableEq α] in
theorem Within.mono (h : d.Within P) (hPQ : ∀ x, P x → Q x) : d.Within Q where
  head x hx := hPQ x (h.head x hx)
  tail x hx := hPQ x (h.tail x hx)
  prev y x hx := hPQ x (h.prev y x hx)
  next y x hx := hPQ x (h.next y x hx)

theorem forall_mem_update {f : α → Option α} {y : α} {v : Option α}
    (hf : ∀ y, ∀ x ∈ f y, P x) (hv : ∀ x ∈ v, P x) (z : α) :
    ∀ x ∈ Function.update f y v z, P x := by
  by_cases hz : z = y
  · rw [hz, Function.update_self]
    exact hv
  · rw [Function.update_of_ne hz]
    exact hf z

theorem Within.unlink (h : d.Within P) (p : α) : (d.unlink p).Within P := by
  have hprev := h.prev p
  have hnext := h.next p
  unfold Links.unlink
  -- the forward link may be the one of `p` itself, so it is read again afterwards
  generalize hd₁ : (match d.prev p with
    | none => { d with head := d.next p }
    | some y => { d with next := Function.update d.next y (d.next p) }) = d₁
  have h₁ : d₁.Within P := by
    subst hd₁
    split
    · exact ⟨hnext, h.tail, h.prev, h.next⟩
    · exact ⟨h.head, h.tail, h.prev, forall_mem_update h.next hnext⟩
  dsimp only
  split
  · exact ⟨h₁.head, h₁.prev p, h₁.prev, h₁.next⟩
  · exact ⟨h₁.head, h₁.tail, forall_mem_update h₁.prev (h₁.prev p), h₁.next⟩

theorem Within.pushFront {p : α} (h : d.Within P) (hp : P p) :
    (d.pushFront p).Within P := by
  have hsome : ∀ x ∈ some p, P x := fun x hx => Option.some.inj hx ▸ hp
  have hnone : ∀ x ∈ (none : Option α), P x := nofun
  have hhead := h.head
  unfold Links.pushFront
  rcases hd : d.head with _ | z <;> rw [hd] at hhead
  · exact ⟨hsome, hsome, forall_mem_update h.prev hnone, forall_mem_update h.next hnone⟩
  · exact ⟨hsome, h.tail, forall_mem_update (forall_mem_update h.prev hnone) hsome,
      forall_mem_update h.next hhead⟩

theorem Within.moveToFront {p : α} (h : d.Within P) (hp : P p) :
    (d.moveToFront p).Within P := by
  unfold Links.moveToFront
  split_ifs
  · exact h
  · exact (h.unlink p).pushFront hp

end Within

end Links

/-! ## Families -/

/-- Lists that share their link maps. -/
structure Family (ι α : Type*) where
  head : ι → Option α
  tail : ι → Option α
  prev : α → Option α
  next : α → Option α

namespace Family

variable {ι : Type*} {F F' : Family ι α} {B : ι → List α} {i : ι} {p : α}

def list (F : Family ι α) (i : ι) : Links α := ⟨F.head i, F.tail i, F.prev, F.next⟩

/-- The lists spell out `B`, and no two of them share a node. -/
structure Rep (F : Family ι α) (B : ι → List α) : Prop where
  rep : ∀ i, (F.list i).Rep (B i)
  disjoint : ∀ i j p, p ∈ B i → p ∈ B j → i = j

omit [DecidableEq α] in
theorem Rep.congr (h : F.Rep B) (hh : ∀ i, F'.head i = F.head i) (ht : ∀ i, F'.tail i = F.tail i)
    (hp : ∀ i, ∀ y ∈ B i, F'.prev y = F.prev y) (hn : ∀ i, ∀ y ∈ B i, F'.next y = F.next y) :
    F'.Rep B :=
  ⟨fun i => (h.rep i).congr (hh i) (ht i) (hp i) (hn i), h.disjoint⟩

omit [DecidableEq α] in
theorem Rep.not_mem_of_ne (h : F.Rep B) {j : ι} (hj : j ≠ i) {q : α} (hq : q ∈ B j) : q ∉ B i :=
  fun hqi => hj (h.disjoint j i q hq hqi)

variable [DecidableEq ι]

/-- List `i` replaced, together with the link maps. -/
def set (F : Family ι α) (i : ι) (d : Links α) : Family ι α :=
  ⟨Function.update F.head i d.head, Function.update F.tail i d.tail, d.prev, d.next⟩

omit [DecidableEq α] in
/-- A list replaced by one that keeps the links of all nodes outside it. -/
theorem Rep.set {d : Links α} {xs : List α} (h : F.Rep B) (hd : d.Rep xs)
    (frame : ∀ j, j ≠ i → ∀ q ∈ B j, d.prev q = F.prev q ∧ d.next q = F.next q)
    (hnew : ∀ j, j ≠ i → ∀ q ∈ xs, q ∉ B j) : (F.set i d).Rep (Function.update B i xs) where
  rep j := by
    by_cases hj : j = i
    · subst hj
      rw [Function.update_self]
      refine hd.congr ?_ ?_ (fun _ _ => rfl) fun _ _ => rfl
      · exact Function.update_self ..
      · exact Function.update_self ..
    · rw [Function.update_of_ne hj]
      refine (h.rep j).congr ?_ ?_ (fun y hy => (frame j hj y hy).1) fun y hy => (frame j hj y hy).2
      · exact Function.update_of_ne hj ..
      · exact Function.update_of_ne hj ..
  disjoint j k q hj hk := by
    by_cases hji : j = i <;> by_cases hki : k = i
    · exact hji.trans hki.symm
    · rw [hji, Function.update_self] at hj
      rw [Function.update_of_ne hki] at hk
      exact absurd hk (hnew k hki q hj)
    · rw [hki, Function.update_self] at hk
      rw [Function.update_of_ne hji] at hj
      exact absurd hj (hnew j hji q hk)
    · rw [Function.update_of_ne hji] at hj
      rw [Function.update_of_ne hki] at hk
      exact h.disjoint j k q hj hk

theorem Rep.unlink (h : F.Rep B) (hp : p ∈ B i) :
    (F.set i ((F.list i).unlink p)).Rep (Function.update B i ((B i).erase p)) := by
  have hrep := h.rep i
  have hframe := fun j (hj : j ≠ i) q (hq : q ∈ B j) =>
    Links.unlink_prev_of_not_mem hrep hp (h.not_mem_of_ne hj hq)
  have hsub : ∀ j, j ≠ i → ∀ q ∈ (B i).erase p, q ∉ B j := fun j hj q hq hqj =>
    h.not_mem_of_ne hj hqj (List.mem_of_mem_erase hq)
  refine h.set ?_ hframe hsub
  obtain ⟨us, ys, hsplit⟩ := List.append_of_mem hp
  rw [hsplit] at hrep ⊢
  have hpu : p ∉ us := fun hm => (List.nodup_append.1 hrep.2).2.2 p hm p (by simp) rfl
  rw [List.erase_append_right _ hpu, List.erase_cons_head]
  exact hrep.unlink

theorem Rep.pushFront (h : F.Rep B) (hp : ∀ j, p ∉ B j) :
    (F.set i ((F.list i).pushFront p)).Rep (Function.update B i (p :: B i)) := by
  refine h.set ((h.rep i).pushFront (hp i)) (fun j hj q hq => ?_) fun j hj q hq hqj => ?_
  · exact Links.pushFront_prev_of_not_mem (h.rep i) (fun hqp => hp j (hqp ▸ hq))
      (h.not_mem_of_ne hj hq)
  · rcases List.mem_cons.1 hq with rfl | hq
    · exact hp j hqj
    · exact h.not_mem_of_ne hj hqj hq

theorem Rep.moveToFront (h : F.Rep B) (hp : p ∈ B i) :
    (F.set i ((F.list i).moveToFront p)).Rep (Function.update B i (p :: (B i).erase p)) := by
  refine h.set ((h.rep i).moveToFront hp) (fun j hj q hq => ?_) fun j hj q hq hqj => ?_
  · exact Links.moveToFront_prev_of_not_mem (h.rep i) hp (h.not_mem_of_ne hj hq)
  · apply h.not_mem_of_ne hj hqj
    rcases List.mem_cons.1 hq with rfl | hq
    · exact hp
    · exact List.mem_of_mem_erase hq

end Family

end DoublyLinked
