import Mathlib.Data.List.Basic
import Mathlib.Data.List.TakeDrop
import Mathlib.Tactic.Ring

/-!
# Flat buffers of fixed-size records

A buffer is a list addressed by offset. `slice` reads `n` elements at an offset, `patch`
overwrites from an offset and grows the buffer at its end.

A *record layout* is the list of field widths. Record `i` starts at offset `i * width`, and field
`k` of it follows the first `k` fields. Overwriting consecutive fields of one record is what a
program does between two seeks; `field_patches` says that it changes those fields and no other
field of any record.

The last section is the little-endian encoding of 64-bit words.
-/

namespace ByteBuffer

variable {α : Type*}

/-! ## Slices and patches -/

/-- The `n` elements from offset `p`, fewer where the buffer ends. -/
def slice (f : List α) (p n : Nat) : List α := (f.drop p).take n

/-- Overwrite from offset `p`. -/
def patch (f : List α) (p : Nat) (d : List α) : List α := f.take p ++ d ++ f.drop (p + d.length)

theorem getElem?_slice (f : List α) (p n i : Nat) :
    (slice f p n)[i]? = if i < n then f[p + i]? else none := by
  simp only [slice, List.getElem?_take, List.getElem?_drop]

theorem getElem?_patch {f : List α} {p : Nat} (hp : p ≤ f.length) (d : List α) (i : Nat) :
    (patch f p d)[i]? = if p ≤ i ∧ i < p + d.length then d[i - p]? else f[i]? := by
  have hlen : (f.take p ++ d).length = p + d.length := by
    simp [Nat.min_eq_left hp]
  rw [patch]
  by_cases hlt : i < p + d.length
  · rw [List.getElem?_append_left (by rw [hlen]; exact hlt)]
    by_cases hpi : p ≤ i
    · rw [List.getElem?_append_right (by simpa [Nat.min_eq_left hp] using hpi), if_pos ⟨hpi, hlt⟩,
        List.length_take, Nat.min_eq_left hp]
    · rw [List.getElem?_append_left (by simp; omega), if_neg (fun h => hpi h.1),
        List.getElem?_take, if_pos (by omega)]
  · rw [List.getElem?_append_right (by rw [hlen]; omega), hlen, if_neg (fun h => hlt h.2),
      List.getElem?_drop]
    congr 1
    omega

theorem length_slice {f : List α} {p n : Nat} (h : p + n ≤ f.length) :
    (slice f p n).length = n := by
  simp only [slice, List.length_take, List.length_drop]
  omega

theorem length_patch {f : List α} {p : Nat} (hp : p ≤ f.length) (d : List α) :
    (patch f p d).length = max f.length (p + d.length) := by
  simp only [patch, List.length_append, List.length_take, List.length_drop]
  omega

theorem slice_patch_self {f : List α} {p : Nat} (hp : p ≤ f.length) (d : List α) :
    slice (patch f p d) p d.length = d := by
  refine List.ext_getElem? fun i => ?_
  rw [getElem?_slice, getElem?_patch hp]
  by_cases hi : i < d.length
  · rw [if_pos hi, if_pos ⟨by omega, by omega⟩, Nat.add_sub_cancel_left]
  · rw [if_neg hi, List.getElem?_eq_none (by omega)]

theorem slice_patch_of_disjoint {f : List α} {p q n : Nat} (hp : p ≤ f.length) (d : List α)
    (h : q + n ≤ p ∨ p + d.length ≤ q) : slice (patch f p d) q n = slice f q n := by
  refine List.ext_getElem? fun i => ?_
  rw [getElem?_slice, getElem?_slice, getElem?_patch hp]
  by_cases hi : i < n
  · rw [if_pos hi, if_pos hi, if_neg (by omega)]
  · rw [if_neg hi, if_neg hi]

/-- Successive writes, each where the one before it ended. -/
def patches (f : List α) (p : Nat) : List (List α) → List α
  | [] => f
  | d :: ds => patches (patch f p d) (p + d.length) ds

theorem length_patches {f : List α} {p : Nat} (hp : p ≤ f.length) (ds : List (List α)) :
    (patches f p ds).length = max f.length (p + ds.flatten.length) := by
  induction ds generalizing f p with
  | nil => simp [patches]; omega
  | cons d ds ih =>
    have hd := length_patch hp d
    rw [patches, ih (by omega), hd, List.flatten_cons, List.length_append]
    omega

/-! ## Records -/

/-- Where field `k` starts inside a record whose fields have the widths `ws`. -/
def offset (ws : List Nat) (k : Nat) : Nat := (ws.take k).sum

/-- Field `k` of record `i`. -/
def field (ws : List Nat) (f : List α) (i k : Nat) : List α :=
  slice f (i * ws.sum + offset ws k) (ws.getD k 0)

theorem offset_succ (ws : List Nat) (k : Nat) : offset ws (k + 1) = offset ws k + ws.getD k 0 := by
  induction ws generalizing k with
  | nil => simp [offset]
  | cons w ws ih =>
    cases k with
    | zero => simp [offset]
    | succ k =>
      have := ih k
      simp only [offset, List.take_succ_cons, List.sum_cons, List.getD_cons_succ] at this ⊢
      omega

theorem offset_mono (ws : List Nat) {j k : Nat} (h : j ≤ k) : offset ws j ≤ offset ws k := by
  induction h with
  | refl => exact le_rfl
  | step _ ih => rw [offset_succ]; omega

theorem offset_le_sum (ws : List Nat) (k : Nat) : offset ws k ≤ ws.sum := by
  have h := offset_mono ws (Nat.le_max_left k ws.length)
  have hall : offset ws (max k ws.length) = ws.sum := by
    rw [offset, List.take_of_length_le (Nat.le_max_right ..)]
  omega

/-- Two fields of a record do not overlap, and no field leaves its record. -/
theorem field_ranges_disjoint (ws : List Nat) {i j k l : Nat} (h : ¬ (j = i ∧ l = k)) :
    j * ws.sum + offset ws l + ws.getD l 0 ≤ i * ws.sum + offset ws k ∨
      i * ws.sum + offset ws k + ws.getD k 0 ≤ j * ws.sum + offset ws l := by
  have hl := offset_succ ws l
  have hk := offset_succ ws k
  have hl' := offset_le_sum ws (l + 1)
  have hk' := offset_le_sum ws (k + 1)
  rcases Nat.lt_trichotomy j i with hji | rfl | hij
  · have : (j + 1) * ws.sum ≤ i * ws.sum := Nat.mul_le_mul_right _ hji
    rw [Nat.add_mul, Nat.one_mul] at this
    left; omega
  · rcases Nat.lt_trichotomy l k with hlk | rfl | hkl
    · have := offset_mono ws (show l + 1 ≤ k from hlk)
      left; omega
    · exact absurd ⟨rfl, rfl⟩ h
    · have := offset_mono ws (show k + 1 ≤ l from hkl)
      right; omega
  · have : (i + 1) * ws.sum ≤ j * ws.sum := Nat.mul_le_mul_right _ hij
    rw [Nat.add_mul, Nat.one_mul] at this
    right; omega

/-- Consecutive fields fill the record up to the field after the last of them. -/
theorem offset_add_length (ws : List Nat) {k : Nat} {ds : List (List α)}
    (hds : ∀ n < ds.length, (ds.getD n []).length = ws.getD (k + n) 0) :
    offset ws k + ds.flatten.length = offset ws (k + ds.length) := by
  induction ds generalizing k with
  | nil => simp
  | cons d ds ih =>
    have hd : d.length = ws.getD k 0 := by simpa using hds 0 (by simp)
    have hrest := ih fun n hn => by
      have := hds (n + 1) (by simpa using hn)
      rw [List.getD_cons_succ] at this
      rw [this, Nat.add_assoc, Nat.add_comm 1 n]
    rw [offset_succ] at hrest
    rw [List.flatten_cons, List.length_append, List.length_cons, hd, ← Nat.add_assoc, hrest,
      Nat.add_assoc, Nat.add_comm 1]

theorem field_patch (ws : List Nat) {f : List α} {i k : Nat} {d : List α}
    (hp : i * ws.sum + offset ws k ≤ f.length) (hd : d.length = ws.getD k 0) (j l : Nat) :
    field ws (patch f (i * ws.sum + offset ws k) d) j l =
      if j = i ∧ l = k then d else field ws f j l := by
  by_cases h : j = i ∧ l = k
  · obtain ⟨rfl, rfl⟩ := h
    rw [if_pos ⟨rfl, rfl⟩, field, ← hd, slice_patch_self hp]
  · rw [if_neg h, field, field, slice_patch_of_disjoint hp]
    rw [hd]
    exact field_ranges_disjoint ws h

/-- **Consecutive field writes.** Writing fields `k, k+1, …` of record `i` changes exactly these
fields. -/
theorem field_patches (ws : List Nat) {f : List α} {i k : Nat} {ds : List (List α)}
    (hp : i * ws.sum + offset ws k ≤ f.length)
    (hds : ∀ n < ds.length, (ds.getD n []).length = ws.getD (k + n) 0) (j l : Nat) :
    field ws (patches f (i * ws.sum + offset ws k) ds) j l =
      if j = i ∧ k ≤ l ∧ l < k + ds.length then ds.getD (l - k) [] else field ws f j l := by
  induction ds generalizing f k with
  | nil => rw [patches, if_neg (by simp)]
  | cons d ds ih =>
    have hd : d.length = ws.getD k 0 := by simpa using hds 0 (by simp)
    have hnext : i * ws.sum + offset ws k + d.length = i * ws.sum + offset ws (k + 1) := by
      rw [offset_succ, hd]; ring
    have hroom : i * ws.sum + offset ws (k + 1) ≤
        (patch f (i * ws.sum + offset ws k) d).length := by
      rw [length_patch hp, ← hnext]; exact Nat.le_max_right ..
    rw [patches, hnext, ih hroom fun n hn => by
      have := hds (n + 1) (by simpa using hn)
      rw [List.getD_cons_succ] at this
      rw [this, Nat.add_assoc, Nat.add_comm 1 n], field_patch ws hp hd]
    by_cases hj : j = i
    · rcases Nat.lt_trichotomy l k with hlk | rfl | hkl
      · rw [if_neg (by omega), if_neg (by omega), if_neg (by omega)]
      · rw [if_neg (by omega), if_pos ⟨hj, rfl⟩, if_pos ⟨hj, by simp⟩, Nat.sub_self,
          List.getD_cons_zero]
      · have hne : ¬ (j = i ∧ l = k) := by omega
        simp only [if_neg hne]
        by_cases hlt : l < k + 1 + ds.length
        · obtain ⟨m, rfl⟩ : ∃ m, l = k + 1 + m := ⟨l - (k + 1), by omega⟩
          rw [if_pos ⟨hj, by omega, hlt⟩, if_pos ⟨hj, by omega, by simp; omega⟩,
            show k + 1 + m - k = m + 1 by omega, List.getD_cons_succ, Nat.add_sub_cancel_left]
        · rw [if_neg (by omega), if_neg (by simp; omega)]
    · rw [if_neg (fun h => hj h.1), if_neg (fun h => hj h.1), if_neg (fun h => hj h.1)]

theorem field_replicate (ws : List Nat) {r : List α} (hr : r.length = ws.sum) {n i : Nat}
    (hi : i < n) (k : Nat) :
    field ws (List.replicate n r).flatten i k = slice r (offset ws k) (ws.getD k 0) := by
  induction n generalizing i with
  | zero => omega
  | succ n ih =>
    rw [List.replicate_succ, List.flatten_cons]
    have hfit : offset ws k + ws.getD k 0 ≤ r.length := by
      rw [hr, ← offset_succ]; exact offset_le_sum ws _
    cases i with
    | zero =>
      refine List.ext_getElem? fun m => ?_
      rw [field, getElem?_slice, getElem?_slice]
      split_ifs with hm
      · rw [List.getElem?_append_left (by omega), Nat.zero_mul, Nat.zero_add]
      · rfl
    | succ i =>
      rw [← ih (show i < n by omega), field, field]
      refine List.ext_getElem? fun m => ?_
      rw [getElem?_slice, getElem?_slice]
      split_ifs with hm
      · have hmul : (i + 1) * ws.sum = i * ws.sum + ws.sum := by ring
        rw [List.getElem?_append_right (by omega)]
        congr 1
        omega
      · rfl

/-! ## Little-endian words -/

/-- The `w` low bytes of `n`, least significant first. -/
def toLE : Nat → Nat → List UInt8
  | 0, _ => []
  | w + 1, n => UInt8.ofNat n :: toLE w (n / 256)

/-- The number with the given bytes, least significant first. -/
def ofLE : List UInt8 → Nat
  | [] => 0
  | b :: bs => b.toNat + 256 * ofLE bs

@[simp] theorem length_toLE (w n : Nat) : (toLE w n).length = w := by
  induction w generalizing n with
  | zero => rfl
  | succ w ih => rw [toLE, List.length_cons, ih]

theorem ofLE_toLE {w n : Nat} (h : n < 256 ^ w) : ofLE (toLE w n) = n := by
  induction w generalizing n with
  | zero =>
    have : n = 0 := by simpa using h
    rw [this]; rfl
  | succ w ih =>
    have hdiv : n / 256 < 256 ^ w := by
      rw [pow_succ] at h
      exact Nat.div_lt_of_lt_mul (by rwa [Nat.mul_comm] at h)
    rw [toLE, ofLE, ih hdiv, UInt8.toNat_ofNat']
    omega

/-- The eight bytes of a word in memory. -/
def encodeU64 (x : UInt64) : List UInt8 := toLE 8 x.toNat

/-- The word held by eight bytes of memory. -/
def decodeU64 (bs : List UInt8) : UInt64 := UInt64.ofNat (ofLE bs)

@[simp] theorem length_encodeU64 (x : UInt64) : (encodeU64 x).length = 8 := length_toLE 8 _

@[simp] theorem decodeU64_encodeU64 (x : UInt64) : decodeU64 (encodeU64 x) = x := by
  rw [decodeU64, encodeU64, ofLE_toLE (lt_of_lt_of_eq x.toNat_lt (by norm_num)), UInt64.ofNat_toNat]

end ByteBuffer
