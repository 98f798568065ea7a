import Mathlib.Tactic.IntervalCases
import KeyValueStore.StoreInvariant

/-!
# What the writes of the store do to a file

First the effect of one batch on the entries of a file: it changes the fields it writes, in one
entry. Then the effect of each list of batches on a chain, one lemma for every shape of edit:

| source | lemma |
| --- | --- |
| first entry of a chain | `insertFirst` |
| value of an entry replaced | `setValue` |
| entry appended and linked in | `append` |
| only entry deleted | `deleteOnly` |
| head deleted, second entry moved into the head slot | `deleteHead` |
| entry behind the head deleted | `deleteMember` |
-/

namespace KeyValueStore

open ByteBuffer

set_option maxRecDepth 4096

/-! ## One batch -/

theorem applyWrites_eq {f : List UInt8} {p : Nat} (ds : List (List UInt8)) (hp : p ≤ f.length)
    (hmax : p ≤ maxFileOffset) :
    applyWrites f p ds = if p + ds.flatten.length ≤ maxFileOffset then .ok (patches f p ds)
      else .error .fileTooLarge := by
  induction ds generalizing f p with
  | nil => rw [if_pos (by simpa using hmax)]; rfl
  | cons d ds ih =>
    rw [applyWrites, writeBytes, if_neg (not_lt.2 hp), List.flatten_cons, List.length_append]
    by_cases hd : maxFileOffset < p + d.length
    · rw [if_pos hd, if_neg (by omega)]
      rfl
    · have hlen := length_patch hp d
      rw [if_neg hd, ok_bind, ih (by omega) (by omega), Nat.add_assoc]
      rfl

theorem applyBatches_cons {f f' : List UInt8} {b : Batch} (bs : List Batch)
    (h : applyWrites f b.pos b.writes = .ok f') :
    applyBatches f (b :: bs) = applyBatches f' bs := by
  rw [applyBatches, h]
  rfl

/-- The entry `x` of `f` with fields `k, k+1, …` replaced by `ds`. -/
def overlay (f : List UInt8) (x k : Nat) (ds : List (List UInt8)) : FileEntry :=
  let pick (l : Nat) :=
    if k ≤ l ∧ l < k + ds.length then ds.getD (l - k) [] else field entryWidths f x l
  ⟨decodeU64 (pick 0), decodeU64 (pick 1), decodeU64 (pick 2), decodeU64 (pick 3),
    Chars256.ofText (pick 4), Chars256.ofText (pick 5)⟩

/-- The data are as wide as the fields they are written to. -/
def Fits (k : Nat) (ds : List (List UInt8)) : Prop :=
  ∀ n < ds.length, (ds.getD n []).length = entryWidths.getD (k + n) 0

variable {f : List UInt8} {x k : Nat} {ds : List (List UInt8)}

theorem entryAt_patches (hp : x * 544 + offset entryWidths k ≤ f.length) (hds : Fits k ds) :
    entryAt (patches f (x * 544 + offset entryWidths k) ds) =
      Function.update (entryAt f) x (overlay f x k ds) := by
  funext j
  have hfield := field_patches entryWidths hp hds j
  simp only [entryWidths_sum] at hfield
  by_cases hj : j = x
  · subst hj
    rw [Function.update_self]
    simp only [entryAt, overlay, hfield, true_and]
  · rw [Function.update_of_ne hj]
    simp only [entryAt, hfield, hj, false_and, if_false]

/-- A batch inside an entry: it succeeds, keeps the length and changes that entry only. -/
theorem writeEntry (hx : x * 544 + 544 ≤ f.length) (hmax : f.length ≤ maxFileOffset)
    (hds : Fits k ds) :
    ∃ f', applyWrites f (x * 544 + offset entryWidths k) ds = .ok f' ∧ f'.length = f.length ∧
      entryAt f' = Function.update (entryAt f) x (overlay f x k ds) := by
  have hend := offset_add_length entryWidths hds
  have hle := offset_le_sum entryWidths (k + ds.length)
  rw [entryWidths_sum] at hle
  have hp : x * 544 + offset entryWidths k ≤ f.length := by omega
  refine ⟨_, ?_, ?_, entryAt_patches hp hds⟩
  · rw [applyWrites_eq ds hp (by omega), if_pos (by omega)]
  · rw [length_patches hp]
    omega

/-- A whole entry written at the end of the file: it succeeds unless the file is full. -/
theorem appendEntry (hend : f.length = x * 544) (hmax : f.length ≤ maxFileOffset) (hds : Fits 0 ds)
    (hall : ds.length = 6) :
    SucceedsUnlessFull (applyWrites f f.length ds) fun f' =>
      f'.length = f.length + 544 ∧ f'.length ≤ maxFileOffset ∧
        entryAt f' = Function.update (entryAt f) x (overlay f x 0 ds) := by
  have hlen : ds.flatten.length = 544 := by
    have hsum : 0 + ds.flatten.length = offset entryWidths (0 + ds.length) :=
      offset_add_length entryWidths hds
    rw [hall, Nat.zero_add] at hsum
    exact hsum
  have hpos : f.length = x * 544 + offset entryWidths 0 := by rw [hend]; simp [offset]
  rw [applyWrites_eq ds le_rfl hmax, hlen]
  by_cases hfull : f.length + 544 ≤ maxFileOffset
  · right
    have hpatch : (patches f f.length ds).length = f.length + 544 := by
      rw [length_patches le_rfl, hlen]
      omega
    refine ⟨patches f f.length ds, if_pos hfull, hpatch, by omega, ?_⟩
    rw [hpos]
    exact entryAt_patches hpos.ge hds
  · exact Or.inl (if_neg hfull)

theorem length_bytes (c : Chars256) : c.bytes.length = 256 := c.length_eq

theorem fits_right (r : UInt64) : Fits 1 [encodeU64 r] := by
  intro n hn
  obtain rfl : n = 0 := by simpa using hn
  simp [entryWidths]

theorem fits_left (l : UInt64) : Fits 0 [encodeU64 l] := by
  intro n hn
  obtain rfl : n = 0 := by simpa using hn
  simp [entryWidths]

theorem fits_links (l r : UInt64) : Fits 0 [encodeU64 l, encodeU64 r] := by
  intro n hn
  have : n < 2 := hn
  interval_cases n <;> simp [entryWidths]

theorem fits_value (v : Chars256) : Fits 5 [v.bytes] := by
  intro n hn
  obtain rfl : n = 0 := by simpa using hn
  simp [entryWidths, length_bytes]

theorem fits_cleared : Fits 0 clearedHeader := by
  intro n hn
  have : n < 4 := hn
  interval_cases n <;> simp [entryWidths, clearedHeader, List.replicate]

theorem fits_entry (l r h1 h2 : UInt64) (key v : Chars256) :
    Fits 0 [encodeU64 l, encodeU64 r, encodeU64 h1, encodeU64 h2, key.bytes, v.bytes] := by
  intro n hn
  have : n < 6 := hn
  interval_cases n <;> simp [entryWidths, length_bytes]

theorem fits_tail (r h1 h2 : UInt64) (key v : Chars256) :
    Fits 1 [encodeU64 r, encodeU64 h1, encodeU64 h2, key.bytes, v.bytes] := by
  intro n hn
  have : n < 5 := hn
  interval_cases n <;> simp [entryWidths, length_bytes]

@[simp] theorem overlay_right (r : UInt64) :
    overlay f x 1 [encodeU64 r] = { entryAt f x with rightIdx := r } := by
  simp [overlay, entryAt]

@[simp] theorem overlay_left (l : UInt64) :
    overlay f x 0 [encodeU64 l] = { entryAt f x with leftIdx := l } := by
  simp [overlay, entryAt]

@[simp] theorem overlay_links (l r : UInt64) :
    overlay f x 0 [encodeU64 l, encodeU64 r] =
      { entryAt f x with leftIdx := l, rightIdx := r } := by
  simp [overlay, entryAt]

@[simp] theorem overlay_value (v : Chars256) :
    overlay f x 5 [v.bytes] = { entryAt f x with value := v } := by
  simp [overlay, entryAt]

@[simp] theorem overlay_entry (l r h1 h2 : UInt64) (key v : Chars256) :
    overlay f x 0 [encodeU64 l, encodeU64 r, encodeU64 h1, encodeU64 h2, key.bytes, v.bytes] =
      ⟨l, r, h1, h2, key, v⟩ := by
  simp [overlay]

@[simp] theorem overlay_tail (r h1 h2 : UInt64) (key v : Chars256) :
    overlay f x 1 [encodeU64 r, encodeU64 h1, encodeU64 h2, key.bytes, v.bytes] =
      ⟨(entryAt f x).leftIdx, r, h1, h2, key, v⟩ := by
  simp [overlay, entryAt]

theorem overlay_cleared (ds : List (List UInt8)) :
    (overlay f x 0 (clearedHeader ++ ds)).Unused := by
  constructor <;> simp [overlay, clearedHeader, List.replicate]

/-! ## Edits of a chain -/

variable {f' : List UInt8} {num i y : Nat} {chain : Nat → Option (List Nat)} {ms as bs : List Nat}

theorem chainEdit_of_length_eq {c : Option (List Nat)} (h : FileInv num f chain)
    (hi : i < fileTableLen) (hlen : f'.length = f.length)
    (frame : ∀ x, x ∉ i :: slotsOf i (chain i) → entryAt f' x = entryAt f x)
    (unused : c = none → (entryAt f' i).Unused)
    (linked : ∀ ms, c = some ms → ChainInv num (entryCount f) (entryAt f') i ms)
    (dropped : ∀ x ∈ slotsOf i (chain i), fileTableLen ≤ x → x ∉ slotsOf i c →
      (entryAt f' x).Unused) : ChainEdit num f f' chain i c where
  head_lt := hi
  aligned := by rw [hlen]; exact h.aligned
  grows := hlen.ge
  small := by rw [hlen]; exact h.small
  frame x _ hx := frame x hx
  unused := unused
  linked ms hc := by rw [entryCount_congr hlen]; exact linked ms hc
  dropped x hx hlt hold hnew := by
    rw [entryCount_congr hlen] at hlt
    rcases hold with hold | hold
    · exact dropped x hold hx hnew
    · exact absurd hlt (not_lt.2 hold)

theorem insertFirst (h : FileInv num f chain) {t : Triple} (ht : t.slot = i) (hf : t.file = num)
    {idx : UInt64} (hidx : idx.toNat = i) (v : Chars256) (hc : chain i = none)
    (hlen : f'.length = f.length)
    (he : entryAt f' = Function.update (entryAt f) i ⟨idx, idx, t.hash1, t.hash2, t.key, v⟩) :
    ChainEdit num f f' chain i (some []) := by
  have hi : i < fileTableLen := ht ▸ Nat.mod_lt _ (by decide)
  refine chainEdit_of_length_eq h hi hlen (fun x hx => ?_) (by simp) (fun ms hms => ?_) ?_
  · rw [he, Function.update_of_ne (by rintro rfl; simp at hx)]
  · obtain rfl := Option.some.inj hms
    refine ⟨?_, by simp, fun x hx => ?_, by simp⟩
    · simp [Ring.Path, right, left, he, hidx]
    · obtain rfl : x = i := by simpa using hx
      rw [he, Function.update_self]
      exact ⟨ht, hf⟩
  · rw [hc]
    intro x hx
    simp [slotsOf] at hx

theorem setValue (h : FileInv num f chain) (hi : i < fileTableLen) (hc : chain i = some ms)
    (hy : y ∈ i :: ms) (v : Chars256) (hlen : f'.length = f.length)
    (he : entryAt f' = Function.update (entryAt f) y { entryAt f y with value := v }) :
    ChainEdit num f f' chain i (some ms) := by
  refine chainEdit_of_length_eq h hi hlen (fun x hx => ?_) (by simp) (fun ns hns => ?_) ?_
  · rw [he, Function.update_of_ne]
    rintro rfl
    rw [hc] at hx
    exact hx (List.mem_cons_of_mem _ hy)
  · obtain rfl := Option.some.inj hns
    have hsame : ∀ x, (entryAt f' x).leftIdx = (entryAt f x).leftIdx ∧
        (entryAt f' x).rightIdx = (entryAt f x).rightIdx ∧
        (entryAt f' x).triple = (entryAt f x).triple := by
      intro x
      rw [he]
      by_cases hxy : x = y
      · subst hxy
        rw [Function.update_self]
        exact ⟨rfl, rfl, rfl⟩
      · rw [Function.update_of_ne hxy]
        exact ⟨rfl, rfl, rfl⟩
    exact (h.linked i hi ms hc).congr (fun x _ => (hsame x).1) (fun x _ => (hsame x).2.1)
      (fun x _ => (hsame x).2.2) le_rfl
  · rw [hc]
    intro x hx _ hnot
    exact absurd hx hnot

theorem deleteOnly (h : FileInv num f chain) (hi : i < fileTableLen) (hc : chain i = some [])
    {u : FileEntry} (hu : u.Unused) (hlen : f'.length = f.length)
    (he : entryAt f' = Function.update (entryAt f) i u) : ChainEdit num f f' chain i none := by
  refine chainEdit_of_length_eq h hi hlen (fun x hx => ?_) (fun _ => ?_) (by simp) ?_
  · rw [he, Function.update_of_ne (by rintro rfl; simp at hx)]
  · rw [he, Function.update_self]
    exact hu
  · rw [hc]
    intro x hx hge
    obtain rfl : x = i := by simpa [slotsOf] using hx
    exact absurd hi (not_lt.2 hge)

/-- An entry appended at the end of the file and linked in before the head. -/
theorem append (h : FileInv num f chain) {t : Triple} (ht : t.slot = i) (hf : t.file = num)
    (hc : chain i = some ms) (hlen : f'.length = f.length + 544)
    (hsmall : f'.length ≤ maxFileOffset)
    (hnew : t ∉ (i :: ms).map fun x => (entryAt f x).triple)
    (hlast : left (entryAt f') (entryCount f) = left (entryAt f) i)
    (hnext : right (entryAt f') (entryCount f) = i)
    (htriple : (entryAt f' (entryCount f)).triple = t)
    (hr : right (entryAt f') (left (entryAt f) i) = entryCount f)
    (hl : left (entryAt f') i = entryCount f)
    (hr' : ∀ x ∈ i :: ms, x ≠ left (entryAt f) i → right (entryAt f') x = right (entryAt f) x)
    (hl' : ∀ x ∈ ms, left (entryAt f') x = left (entryAt f) x)
    (ht' : ∀ x ∈ i :: ms, (entryAt f' x).triple = (entryAt f x).triple)
    (frame : ∀ x < entryCount f, x ∉ i :: ms → entryAt f' x = entryAt f x) :
    ChainEdit num f f' chain i (some (ms ++ [entryCount f])) := by
  have hi : i < fileTableLen := ht ▸ Nat.mod_lt _ (by decide)
  have hinv := h.linked i hi ms hc
  have hcount := entryCount_append hlen
  have hmem : ∀ x, x ∈ i :: (ms ++ [entryCount f]) ↔ x ∈ i :: ms ∨ x = entryCount f := by
    intro x
    simp [or_assoc]
  refine ⟨hi, ?_, by omega, hsmall, fun x hx hout => ?_, by simp, fun ns hns => ?_, ?_⟩
  · have := h.aligned
    rw [hlen, sizeOfOneEntry_eq, Nat.add_mod_right]
    exact this
  · rw [hc] at hout
    exact frame x hx fun hx' => hout (List.mem_cons_of_mem _ hx')
  · obtain rfl := Option.some.inj hns
    refine ⟨?_, ?_, ?_, ?_⟩
    -- the new entry is the last of the ring: its right link is the head
    · exact hinv.ring.insertLast hinv.nodup hr hnext hlast hl hr' hl'
    · intro x hx
      rw [hcount]
      rcases List.mem_append.1 hx with hx | hx
      · have := hinv.behind x hx
        exact ⟨this.1, Nat.lt_succ_of_lt this.2⟩
      · obtain rfl := List.mem_singleton.1 hx
        exact ⟨h.fileTableLen_le, Nat.lt_succ_self _⟩
    · intro x hx
      rcases (hmem x).1 hx with hx | rfl
      · rw [show (entryAt f' x).hash1 = (entryAt f x).hash1 from congrArg Triple.hash1 (ht' x hx)]
        exact hinv.owner x hx
      · rw [show (entryAt f' (entryCount f)).hash1 = t.hash1 from congrArg Triple.hash1 htriple]
        exact ⟨ht, hf⟩
    · rw [← List.cons_append, List.map_append, List.map_congr_left ht', List.nodup_append]
      refine ⟨hinv.distinct, by simp, ?_⟩
      intro a ha b hb hab
      obtain rfl : b = t := by simpa [htriple] using hb
      exact hnew (hab ▸ ha)
  · intro x hx hlt hold hout
    rcases hold with hold | hold
    · rw [hc] at hold
      exact absurd ((hmem x).2 (Or.inl hold)) hout
    · obtain rfl : x = entryCount f := by omega
      exact absurd ((hmem _).2 (Or.inr rfl)) hout

theorem deleteMember (h : FileInv num f chain) (hi : i < fileTableLen)
    (hc : chain i = some (as ++ y :: bs)) (hlen : f'.length = f.length)
    (hu : (entryAt f' y).Unused)
    (hr : right (entryAt f') (left (entryAt f) y) = right (entryAt f) y)
    (hl : left (entryAt f') (right (entryAt f) y) = left (entryAt f) y)
    (hr' : ∀ x, x ≠ y → x ≠ left (entryAt f) y → right (entryAt f') x = right (entryAt f) x)
    (hl' : ∀ x, x ≠ y → x ≠ right (entryAt f) y → left (entryAt f') x = left (entryAt f) x)
    (ht' : ∀ x, x ≠ y → (entryAt f' x).triple = (entryAt f x).triple)
    (frame : ∀ x, x ∉ i :: (as ++ y :: bs) → entryAt f' x = entryAt f x) :
    ChainEdit num f f' chain i (some (as ++ bs)) := by
  have hinv := h.linked i hi _ hc
  have hnd := hinv.nodup
  have hiy : i ∉ as ++ y :: bs := (List.nodup_cons.1 hnd).1
  have hsub : (i :: (as ++ bs)).Sublist (i :: (as ++ y :: bs)) :=
    ((List.sublist_cons_self y bs).append_left as).cons_cons i
  -- the slots that stay are not the one that goes
  have hne : ∀ x ∈ i :: (as ++ bs), x ≠ y := by
    intro x hx hxy
    subst hxy
    have hnd' := List.perm_middle.nodup_iff.1 (List.nodup_cons.1 hnd).2
    rcases List.mem_cons.1 hx with rfl | hx
    · exact hiy (by simp)
    · exact (List.nodup_cons.1 hnd').1 hx
  refine chainEdit_of_length_eq h hi hlen (fun x hx => ?_) (by simp) (fun ns hns => ?_) ?_
  · rw [hc] at hx
    exact frame x fun hx' => hx (List.mem_cons_of_mem _ hx')
  · obtain rfl := Option.some.inj hns
    refine ⟨?_, ?_, ?_, ?_⟩
    · refine hinv.ring.remove hnd hiy hr hl (fun x hx => hr' x (hne x hx)) fun x hx =>
        hl' x (hne x ?_)
      simpa [or_comm, or_assoc, or_left_comm] using hx
    · intro x hx
      exact hinv.behind x (((List.sublist_cons_self y bs).append_left as).subset hx)
    · intro x hx
      rw [show (entryAt f' x).hash1 = (entryAt f x).hash1 from
        congrArg Triple.hash1 (ht' x (hne x hx))]
      exact hinv.owner x (hsub.subset hx)
    · rw [List.map_congr_left fun x hx => ht' x (hne x hx)]
      exact hinv.distinct.sublist (hsub.map _)
  · rw [hc]
    intro x hx _ hout
    obtain rfl : x = y := by
      simp only [slotsOf, List.mem_cons, List.mem_append] at hx hout
      tauto
    exact hu

/-- The head deleted: the second entry moves into the head slot. -/
theorem deleteHead (h : FileInv num f chain) (hi : i < fileTableLen)
    (hc : chain i = some (y :: bs)) (hlen : f'.length = f.length) (hu : (entryAt f' y).Unused)
    (hr : right (entryAt f') i = right (entryAt f) y)
    (hl : left (entryAt f') (right (entryAt f) y) = i)
    (hr' : ∀ x ∈ bs, right (entryAt f') x = right (entryAt f) x)
    (hl' : ∀ x ∈ i :: bs, x ≠ right (entryAt f) y → left (entryAt f') x = left (entryAt f) x)
    (htop : (entryAt f' i).triple = (entryAt f y).triple)
    (ht' : ∀ x ∈ bs, (entryAt f' x).triple = (entryAt f x).triple)
    (frame : ∀ x, x ∉ i :: y :: bs → entryAt f' x = entryAt f x) :
    ChainEdit num f f' chain i (some bs) := by
  have hinv := h.linked i hi _ hc
  have hnd := hinv.nodup
  have hprev : left (entryAt f) y = i := hinv.ring.2.1
  -- the slot of the head now holds the entry of `y`
  have htriples : (i :: bs).map (fun x => (entryAt f' x).triple) =
      (y :: bs).map fun x => (entryAt f x).triple := by
    rw [List.map_cons, List.map_cons, htop, List.map_congr_left ht']
  refine chainEdit_of_length_eq h hi hlen (fun x hx => ?_) (by simp) (fun ns hns => ?_) ?_
  · rw [hc] at hx
    exact frame x fun hx' => hx (List.mem_cons_of_mem _ hx')
  · obtain rfl := Option.some.inj hns
    refine ⟨?_, fun x hx => hinv.behind x (List.mem_cons_of_mem _ hx), ?_, ?_⟩
    · have hpath : Ring.Path (right (entryAt f)) (left (entryAt f)) i ([] ++ y :: bs) i := hinv.ring
      refine hpath.remove hnd (List.nodup_cons.1 hnd).1 ?_ ?_ ?_ ?_
      · rw [hprev, hr]
      · rw [hprev, hl]
      · intro x hx hne
        rw [hprev] at hne
        exact hr' x ((List.mem_cons.1 hx).resolve_left hne)
      · intro x hx hne
        exact hl' x (by simpa [or_comm] using hx) hne
    · intro x hx
      rcases List.mem_cons.1 hx with rfl | hx
      · rw [show (entryAt f' x).hash1 = (entryAt f y).hash1 from congrArg Triple.hash1 htop]
        exact hinv.owner y (by simp)
      · rw [show (entryAt f' x).hash1 = (entryAt f x).hash1 from congrArg Triple.hash1 (ht' x hx)]
        exact hinv.owner x (by simp [hx])
    · rw [htriples]
      exact hinv.distinct.of_cons
  · rw [hc]
    intro x hx hge hout
    simp only [slotsOf, List.mem_cons] at hx hout
    obtain rfl : x = y := by tauto
    exact hu

end KeyValueStore
