import KeyValueStore.StoreEdits

/-!
# The store refines a finite map

First the operations on one file: on a file that holds the map `m`, `readValue` answers `m`, the
writes of `write_to_db` yield a file that holds `m` with the key set, and those of
`delete_from_db` one without the key. Then the store: 1021 files, each keyed by `hash1 % 1021`.

* `readFromDb_eq`, `writeToDb_spec`, `deleteFromDb_spec` — the operations of the store.
* `StoreRep` — the relation between a store and a map that they keep.
-/

namespace KeyValueStore

open ByteBuffer Run

set_option maxRecDepth 4096

/-! ## Maps and lists of pairs -/

section Pairs

variable {α β : Type} [DecidableEq α] {p : α → Prop} {m : α → Option β} {ps ps' qs : List (α × β)}
  {t : α} {v w : β}

/-- On the keys in `p`, the map holds exactly the listed pairs. -/
def Lists (p : α → Prop) (m : α → Option β) (ps : List (α × β)) : Prop :=
  ∀ t, p t → ∀ v, m t = some v ↔ (t, v) ∈ ps

/-- Setting a key puts its new pair in the place of an old one, or beside the others. -/
theorem Lists.set (h : Lists p m ps) (hfresh : t ∉ qs.map Prod.fst)
    (hold : ps.Perm qs ∨ ps.Perm ((t, w) :: qs)) (hnew : ps'.Perm ((t, v) :: qs)) :
    Lists p (Function.update m t (some v)) ps' := by
  intro t' ht' v'
  rw [hnew.mem_iff, List.mem_cons]
  by_cases htt : t' = t
  · subst htt
    have hnot : (t', v') ∉ qs := fun hq => hfresh (List.mem_map_of_mem (f := Prod.fst) hq)
    simp [hnot, eq_comm]
  · rw [Function.update_of_ne htt, h t' ht' v']
    rcases hold with hold | hold <;> simp [hold.mem_iff, htt]

theorem Lists.erase (h : Lists p m ps) (hfresh : t ∉ qs.map Prod.fst)
    (hold : ps.Perm ((t, w) :: qs)) (hnew : ps'.Perm qs) :
    Lists p (Function.update m t none) ps' := by
  intro t' ht' v'
  rw [hnew.mem_iff]
  by_cases htt : t' = t
  · subst htt
    have hnot : (t', v') ∉ qs := fun hq => hfresh (List.mem_map_of_mem (f := Prod.fst) hq)
    simp [hnot]
  · rw [Function.update_of_ne htt, h t' ht' v']
    simp [hold.mem_iff, htt]

end Pairs

/-! ## One file -/

variable {num i y : Nat} {f f' : List UInt8} {chain : Nat → Option (List Nat)} {ms as bs : List Nat}
  {m : Triple → Option Chars256} {ptr : KVMessage}

/-- The pair stored in a slot. -/
def pairAt (e : Nat → FileEntry) (x : Nat) : Triple × Chars256 := ((e x).triple, (e x).value)

theorem contents_some (e : Nat → FileEntry) :
    contents e i (some ms) = (i :: ms).map (pairAt e) := rfl

theorem map_fst_pairAt (e : Nat → FileEntry) (xs : List Nat) :
    (xs.map (pairAt e)).map Prod.fst = xs.map fun x => (e x).triple := by
  rw [List.map_map]
  rfl

/-- The triples filed under slot `i` of file `num`. -/
def Filed (num i : Nat) (t : Triple) : Prop := t.file = num ∧ t.slot = i

/-- What a search can end with, given the chain of the key's head slot. -/
inductive Found (f : List UInt8) (ptr : KVMessage) : Option (List Nat) → Search → Prop
  | empty : Found f ptr none .empty
  | head (ms : List Nat) (h : (entryAt f ptr.triple.slot).triple = ptr.triple) :
    Found f ptr (some ms) (.head (entryAt f ptr.triple.slot).header)
  | member (as : List Nat) (y : Nat) (bs : List Nat) (h : (entryAt f y).triple = ptr.triple) :
    Found f ptr (some (as ++ y :: bs)) (.member (UInt64.ofNat y) (entryAt f y).header)
  | absent (ms : List Nat)
    (h : ptr.triple ∉ (ptr.triple.slot :: ms).map fun x => (entryAt f x).triple) :
    Found f ptr (some ms) (.absent (entryAt f ptr.triple.slot).leftIdx)

theorem search_found (h : FileInv num f chain) (ptr : KVMessage) :
    ∃ r, searchChain f ptr = .ok r ∧ Found f ptr (chain ptr.triple.slot) r := by
  have hslot : (insideFileIdx ptr).toNat = ptr.triple.slot := toNat_insideFileIdx ptr
  refine ⟨_, search_eq h ptr, ?_⟩
  rw [hslot]
  cases hc : chain ptr.triple.slot with
  | none => exact Found.empty
  | some ms =>
    simp only [searchResult, hslot]
    by_cases hhead : (entryAt f ptr.triple.slot).triple = ptr.triple
    · rw [if_pos hhead]
      exact Found.head ms hhead
    · rw [if_neg hhead]
      cases hfind : ms.find? fun y => decide ((entryAt f y).triple = ptr.triple) with
      | none =>
        apply Found.absent ms
        rw [List.find?_eq_none] at hfind
        simp only [List.map_cons, List.mem_cons, List.mem_map, not_or, not_exists, not_and]
        exact ⟨fun he => hhead he.symm, fun x hx => by simpa using hfind x hx⟩
      | some y =>
        obtain ⟨hy, as, bs, rfl, -⟩ := List.find?_eq_some_iff_append.1 hfind
        exact Found.member as y bs (of_decide_eq_true hy)

theorem slot_lt (t : Triple) : t.slot < fileTableLen := Nat.mod_lt _ (by decide)

theorem FileInv.getSeekVal_head (h : FileInv num f chain) (ptr : KVMessage) :
    getSeekVal (insideFileIdx ptr) = ptr.triple.slot * 544 := by
  have hslot : (insideFileIdx ptr).toNat = ptr.triple.slot := toNat_insideFileIdx ptr
  rw [h.getSeekVal_slot (lt_of_lt_of_le (insideFileIdx_lt ptr) h.fileTableLen_le), hslot]

theorem FileInv.lone_links {ptr : KVMessage} (h : FileInv num f chain)
    (hc : chain ptr.triple.slot = some []) :
    (entryAt f ptr.triple.slot).leftIdx = insideFileIdx ptr ∧
      (entryAt f ptr.triple.slot).rightIdx = insideFileIdx ptr := by
  obtain ⟨hright, hleft⟩ := (h.linked _ (KeyValueStore.slot_lt ptr.triple) [] hc).ring
  have hi : (insideFileIdx ptr).toNat = ptr.triple.slot := toNat_insideFileIdx ptr
  exact ⟨UInt64.toNat_inj.1 (hleft.trans hi.symm), UInt64.toNat_inj.1 (hright.trans hi.symm)⟩

theorem FileInv.rightIdx_ne_self {ptr : KVMessage} {y : Nat} (h : FileInv num f chain)
    (hc : chain ptr.triple.slot = some (y :: ms)) :
    (entryAt f ptr.triple.slot).rightIdx ≠ insideFileIdx ptr := by
  have hslot := KeyValueStore.slot_lt ptr.triple
  intro hself
  have hy : (entryAt f ptr.triple.slot).rightIdx.toNat = y := (h.linked _ hslot _ hc).ring.1
  rw [hself, show (insideFileIdx ptr).toNat = ptr.triple.slot from toNat_insideFileIdx ptr] at hy
  exact (h.behind_ne hslot hc y List.mem_cons_self).2 hy.symm

/-- It leads to the second entry. -/
theorem FileInv.getSeekVal_second {ptr : KVMessage} {y : Nat} (h : FileInv num f chain)
    (hc : chain ptr.triple.slot = some (y :: ms)) :
    getSeekVal (entryAt f ptr.triple.slot).header.rightIdx = y * 544 := by
  have hslot := KeyValueStore.slot_lt ptr.triple
  have hy : (entryAt f ptr.triple.slot).rightIdx.toNat = y := (h.linked _ hslot _ hc).ring.1
  have hlt := (h.behind_ne hslot hc y List.mem_cons_self).1
  exact (h.getSeekVal_slot (lt_of_eq_of_lt hy hlt)).trans (congrArg (· * 544) hy)

theorem FileInv.getSeekVal_ofNat (h : FileInv num f chain) (hy : y < entryCount f) :
    getSeekVal (UInt64.ofNat y) = y * 544 := by
  have hnat := toNat_ofNat_slot h hy.le
  rw [h.getSeekVal_slot (by rw [hnat]; exact hy), hnat]

theorem Stores.eq_some (hm : Stores num f chain m) {t : Triple} (hf : t.file = num)
    (hc : chain t.slot = some ms) (hy : y ∈ t.slot :: ms) (ht : (entryAt f y).triple = t) :
    m t = some (entryAt f y).value := by
  apply (hm t hf _).2
  rw [hc, contents_some]
  exact List.mem_map.2 ⟨y, hy, by rw [pairAt, ht]⟩

theorem Stores.eq_none_of_empty (hm : Stores num f chain m) {t : Triple} (hf : t.file = num)
    (hc : chain t.slot = none) : m t = none := by
  refine Option.eq_none_iff_forall_ne_some.2 fun v hv => ?_
  have hin := (hm t hf v).1 hv
  rw [hc] at hin
  simp [contents, slotsOf] at hin

theorem Stores.eq_none_of_absent (hm : Stores num f chain m) {t : Triple} (hf : t.file = num)
    (hc : chain t.slot = some ms) (hnot : t ∉ (t.slot :: ms).map fun x => (entryAt f x).triple) :
    m t = none := by
  refine Option.eq_none_iff_forall_ne_some.2 fun v hv => hnot ?_
  have hin := (hm t hf v).1 hv
  rw [hc, contents_some] at hin
  rw [← map_fst_pairAt]
  exact List.mem_map_of_mem (f := Prod.fst) hin

/-- **`read_from_db` on one file answers the map.** -/
theorem readValue_eq (h : FileRep num f m) (hf : ptr.triple.file = num) :
    readValue f ptr = .ok (m ptr.triple) := by
  obtain ⟨chain, hinv, hm⟩ := h
  have hslot := slot_lt ptr.triple
  obtain ⟨r, hr, hfound⟩ := search_found hinv ptr
  rw [readValue, hr, ok_bind]
  generalize hc : chain ptr.triple.slot = c at hfound
  cases hfound with
  | empty =>
    rw [Stores.eq_none_of_empty hm hf hc]
    rfl
  | head ms hhead =>
    rw [Stores.eq_some hm hf hc List.mem_cons_self hhead, hinv.getSeekVal_head ptr]
    show (do return some (← readChars f _)) = _
    rw [readValue_slot (hinv.slot_lt hslot hc List.mem_cons_self)]
    rfl
  | member as y bs hy =>
    have hmem : y ∈ ptr.triple.slot :: (as ++ y :: bs) := by simp
    have hlt := hinv.slot_lt hslot hc hmem
    rw [Stores.eq_some hm hf hc hmem hy]
    show (do return some (← readChars f _)) = _
    rw [hinv.getSeekVal_ofNat hlt, readValue_slot hlt]
    rfl
  | absent ms hnot =>
    rw [Stores.eq_none_of_absent hm hf hc hnot]
    rfl

/-! ## Edits and the map -/

variable {t : Triple} {c : Option (List Nat)} {v w : Chars256} {qs : List (Triple × Chars256)}

theorem Stores.lists (hm : Stores num f chain m) (i : Nat) :
    Lists (Filed num i) m (contents (entryAt f) i (chain i)) := by
  intro t ht v
  rw [hm t ht.1 v, ht.2]

theorem FileRep.set (qs : List (Triple × Chars256)) (he : ChainEdit num f f' chain t.slot c)
    (h : FileInv num f chain)
    (hm : Stores num f chain m) (hfresh : t ∉ qs.map Prod.fst)
    (hold : (contents (entryAt f) t.slot (chain t.slot)).Perm qs ∨
      (contents (entryAt f) t.slot (chain t.slot)).Perm ((t, w) :: qs))
    (hnew : (contents (entryAt f') t.slot c).Perm ((t, v) :: qs)) :
    FileRep num f' (Function.update m t (some v)) := by
  refine FileRep.edit he h hm
    (fun t' ht' => Function.update_of_ne (fun hn => ht' (congrArg _ hn)) _ _) ?_
  intro t' hf' hs' v'
  exact (hm.lists t.slot).set hfresh hold hnew t' ⟨hf', hs'⟩ v'

theorem FileRep.erase (qs : List (Triple × Chars256)) (he : ChainEdit num f f' chain t.slot c)
    (h : FileInv num f chain)
    (hm : Stores num f chain m) (hfresh : t ∉ qs.map Prod.fst)
    (hold : (contents (entryAt f) t.slot (chain t.slot)).Perm ((t, w) :: qs))
    (hnew : (contents (entryAt f') t.slot c).Perm qs) :
    FileRep num f' (Function.update m t none) := by
  refine FileRep.edit he h hm
    (fun t' ht' => Function.update_of_ne (fun hn => ht' (congrArg _ hn)) _ _) ?_
  intro t' hf' hs' v'
  exact (hm.lists t.slot).erase hfresh hold hnew t' ⟨hf', hs'⟩ v'

theorem map_pairAt_congr {e e' : Nat → FileEntry} {xs : List Nat}
    (ht : ∀ x ∈ xs, (e' x).triple = (e x).triple) (hv : ∀ x ∈ xs, (e' x).value = (e x).value) :
    xs.map (pairAt e') = xs.map (pairAt e) :=
  List.map_congr_left fun x hx => by rw [pairAt, ht x hx, hv x hx, pairAt]

theorem contents_member_perm (i y : Nat) (as bs : List Nat) (e : Nat → FileEntry) :
    (contents e i (some (as ++ y :: bs))).Perm
      (pairAt e y :: (i :: (as ++ bs)).map (pairAt e)) := by
  rw [contents_some, ← List.map_cons]
  exact ((List.perm_middle.cons i).trans (List.Perm.swap y i _)).map _

theorem ChainInv.triple_not_mem {count : Nat} {e : Nat → FileEntry}
    (h : ChainInv num count e i (as ++ y :: bs)) :
    (e y).triple ∉ ((i :: (as ++ bs)).map (pairAt e)).map Prod.fst := by
  have hperm := (contents_member_perm i y as bs e).map Prod.fst
  rw [contents_some, map_fst_pairAt] at hperm
  exact (List.nodup_cons.1 (hperm.nodup_iff.1 h.distinct)).1

theorem ChainInv.head_triple_not_mem {count : Nat} {e : Nat → FileEntry}
    (h : ChainInv num count e i ms) : (e i).triple ∉ (ms.map (pairAt e)).map Prod.fst := by
  rw [map_fst_pairAt]
  exact (List.nodup_cons.1 h.distinct).1

/-! ## Relinking -/

/-- The neighbours `l` and `r` pointed at `toR` and `toL`. -/
def relink (e : Nat → FileEntry) (l r : Nat) (toR toL : UInt64) (x : Nat) : FileEntry :=
  { e x with
    rightIdx := if x = l then toR else (e x).rightIdx
    leftIdx := if x = r then toL else (e x).leftIdx }

section Relink

variable {e : Nat → FileEntry} {l r x : Nat} {toR toL : UInt64}

@[simp] theorem relink_triple : (relink e l r toR toL x).triple = (e x).triple := rfl
@[simp] theorem relink_value : (relink e l r toR toL x).value = (e x).value := rfl

theorem relink_of_ne (hl : x ≠ l) (hr : x ≠ r) : relink e l r toR toL x = e x := by
  rw [relink, if_neg hl, if_neg hr]

theorem right_relink : right (relink e l r toR toL) x = if x = l then toR.toNat else right e x := by
  by_cases hx : x = l <;> simp [right, relink, hx]

theorem left_relink : left (relink e l r toR toL) x = if x = r then toL.toNat else left e x := by
  by_cases hx : x = r <;> simp [left, relink, hx]

theorem writeLinks {L R : UInt64} (toR toL : UInt64) (hl : l < entryCount f) (hr : r < entryCount f)
    (hL : getSeekVal L = l * 544) (hR : getSeekVal R = r * 544) (hmax : f.length ≤ maxFileOffset) :
    ∃ f', applyBatches f [⟨getSeekVal L + 8, [encodeU64 toR]⟩, ⟨getSeekVal R, [encodeU64 toL]⟩] =
      .ok f' ∧ f'.length = f.length ∧ entryAt f' = relink (entryAt f) l r toR toL := by
  obtain ⟨f₁, h₁, hlen₁, he₁⟩ := writeEntry (slot_end_le hl) hmax (fits_right toR)
  have hr₁ : r * 544 + 544 ≤ f₁.length := hlen₁ ▸ slot_end_le hr
  obtain ⟨f₂, h₂, hlen₂, he₂⟩ := writeEntry hr₁ (hlen₁ ▸ hmax) (fits_left toL)
  refine ⟨f₂, ?_, hlen₂.trans hlen₁, ?_⟩
  · rw [hL, hR, applyBatches, show l * 544 + 8 = l * 544 + offset entryWidths 1 from rfl, h₁,
      ok_bind, applyBatches, show r * 544 = r * 544 + offset entryWidths 0 from rfl, h₂]
    rfl
  · funext x
    rw [he₂, he₁, overlay_right, overlay_left, he₁, overlay_right]
    by_cases hxr : x = r
    · subst hxr
      rw [Function.update_self]
      by_cases hxl : x = l
      · subst hxl
        simp [relink]
      · simp [relink, hxl]
    · rw [Function.update_of_ne hxr]
      by_cases hxl : x = l
      · subst hxl
        simp [relink, hxr]
      · simp [relink, hxl, hxr]

/-- The one write of `relink` where a lone head is both neighbours. -/
theorem writeBothLinks {I : UInt64} (hi : i < entryCount f) (hI : getSeekVal I = i * 544)
    (hmax : f.length ≤ maxFileOffset) :
    ∃ f', applyBatches f [⟨getSeekVal I, [encodeU64 toL, encodeU64 toR]⟩] = .ok f' ∧
      f'.length = f.length ∧ entryAt f' = relink (entryAt f) i i toR toL := by
  obtain ⟨f', h', hlen, he⟩ := writeEntry (slot_end_le hi) hmax (fits_links toL toR)
  refine ⟨f', ?_, hlen, ?_⟩
  · rw [hI, applyBatches, show i * 544 = i * 544 + offset entryWidths 0 from rfl, h']
    rfl
  · funext x
    rw [he, overlay_links]
    by_cases hx : x = i
    · subst hx
      simp [relink]
    · rw [Function.update_of_ne hx, relink_of_ne hx hx]

end Relink

/-! ## Writing -/

theorem overwrite_spec (hinv : FileInv num f chain) (hm : Stores num f chain m)
    (hf : t.file = num) (hc : chain t.slot = some ms) (hy : y ∈ t.slot :: ms)
    (ht : (entryAt f y).triple = t) {I : UInt64} (hI : getSeekVal I = y * 544) (v : Chars256) :
    SucceedsUnlessFull (applyBatches f [⟨getSeekVal I + 32 + 256, [v.bytes]⟩]) fun f' =>
      FileRep num f' (Function.update m t (some v)) := by
  subst ht
  have hlt := hinv.slot_lt (slot_lt _) hc hy
  obtain ⟨f', h', hlen, he⟩ := writeEntry (slot_end_le hlt) hinv.small (fits_value v)
  refine Or.inr ⟨f', ?_, ?_⟩
  · rw [hI, applyBatches, show y * 544 + 32 + 256 = y * 544 + offset entryWidths 5 from rfl, h']
    rfl
  have hedit := setValue hinv (slot_lt _) hc hy v hlen (by rw [he, overlay_value])
  have hchain := hinv.linked _ (slot_lt _) ms hc
  -- the pairs of the other slots
  generalize hi : (entryAt f y).triple.slot = i at hc hy hedit hchain
  have hperm : (i :: ms).Perm (y :: (i :: ms).erase y) := List.perm_cons_erase hy
  have hother : ∀ x ∈ (i :: ms).erase y, entryAt f' x = entryAt f x := by
    intro x hx
    rw [he, Function.update_of_ne]
    exact fun hxy => (List.Nodup.mem_erase_iff hchain.nodup).1 hx |>.1 hxy
  have hsame : ((i :: ms).erase y).map (pairAt (entryAt f')) =
      ((i :: ms).erase y).map (pairAt (entryAt f)) :=
    map_pairAt_congr (fun x hx => by rw [hother x hx]) fun x hx => by rw [hother x hx]
  have hold := hperm.map (pairAt (entryAt f))
  have hnew := hperm.map (pairAt (entryAt f'))
  have hpair : pairAt (entryAt f') y = ((entryAt f y).triple, v) := by
    rw [pairAt, he, Function.update_self, overlay_value]
    rfl
  have hfresh := (hold.map Prod.fst).nodup_iff.1 (by rw [map_fst_pairAt]; exact hchain.distinct)
  rw [List.map_cons, List.map_cons, List.nodup_cons] at hfresh
  subst hi
  refine FileRep.set (w := (entryAt f y).value) _ hedit hinv hm hfresh.1 (Or.inr ?_) ?_
  · rw [hc, contents_some]
    exact hold
  · rw [contents_some, ← hsame, ← hpair]
    exact hnew

theorem insertFirst_spec (hinv : FileInv num f chain) (hm : Stores num f chain m)
    (hf : ptr.triple.file = num) (hc : chain ptr.triple.slot = none) :
    SucceedsUnlessFull (applyBatches f [⟨getSeekVal (insideFileIdx ptr),
      [encodeU64 (insideFileIdx ptr), encodeU64 (insideFileIdx ptr), encodeU64 ptr.hash1,
        encodeU64 ptr.hash2, ptr.key.bytes, ptr.value.bytes]⟩]) fun f' =>
      FileRep num f' (Function.update m ptr.triple (some ptr.value)) := by
  have hlt := lt_of_lt_of_le (slot_lt ptr.triple) hinv.fileTableLen_le
  obtain ⟨f', h', hlen, he⟩ := writeEntry (slot_end_le hlt) hinv.small
    (fits_entry (insideFileIdx ptr) (insideFileIdx ptr) ptr.hash1 ptr.hash2 ptr.key ptr.value)
  rw [overlay_entry] at he
  refine Or.inr ⟨f', ?_, ?_⟩
  · rw [hinv.getSeekVal_head ptr, applyBatches,
      show ptr.triple.slot * 544 = ptr.triple.slot * 544 + offset entryWidths 0 from rfl, h']
    rfl
  have hedit := insertFirst hinv rfl hf (toNat_insideFileIdx ptr) ptr.value hc hlen he
  refine FileRep.set (w := ptr.value) [] hedit hinv hm (by simp) (Or.inl ?_) ?_
  · rw [hc]
    exact List.Perm.refl _
  · rw [contents_some, List.map_singleton, pairAt, he, Function.update_self]
    exact List.Perm.refl _

/-- The links the source writes for a new entry: one batch beside a lone head, two otherwise. -/
theorem linkNew_spec {f : List UInt8} {I L : UInt64} (N : UInt64) (hi : i < entryCount f)
    (hl : L.toNat < entryCount f) (hI : I.toNat = i) (hIs : getSeekVal I = i * 544)
    (hLs : getSeekVal L = L.toNat * 544) (hmax : f.length ≤ maxFileOffset) :
    ∃ f', applyBatches f (if L = I then [⟨getSeekVal I, [encodeU64 N, encodeU64 N]⟩]
        else [⟨getSeekVal L + 8, [encodeU64 N]⟩, ⟨getSeekVal I, [encodeU64 N]⟩]) = .ok f' ∧
      f'.length = f.length ∧ entryAt f' = relink (entryAt f) L.toNat i N N := by
  by_cases hLI : L = I
  · rw [if_pos hLI, hLI, hI]
    exact writeBothLinks hi hIs hmax
  · rw [if_neg hLI]
    exact writeLinks N N hl hi hLs hIs hmax

theorem append_spec (hinv : FileInv num f chain) (hm : Stores num f chain m)
    (hf : ptr.triple.file = num) (hc : chain ptr.triple.slot = some ms)
    (hnot : ptr.triple ∉ (ptr.triple.slot :: ms).map fun x => (entryAt f x).triple)
    {I L N : UInt64} (hI : I = insideFileIdx ptr) (hL : L = (entryAt f ptr.triple.slot).leftIdx)
    (hN : N = UInt64.ofNat (entryCount f)) :
    SucceedsUnlessFull (applyBatches f (⟨f.length, [encodeU64 L, encodeU64 I, encodeU64 ptr.hash1,
        encodeU64 ptr.hash2, ptr.key.bytes, ptr.value.bytes]⟩ ::
      if L = I then [⟨getSeekVal I, [encodeU64 N, encodeU64 N]⟩]
      else [⟨getSeekVal L + 8, [encodeU64 N]⟩, ⟨getSeekVal I, [encodeU64 N]⟩])) fun f' =>
      FileRep num f' (Function.update m ptr.triple (some ptr.value)) := by
  have hslot := slot_lt ptr.triple
  have hchain := hinv.linked _ hslot ms hc
  have hIi : I.toNat = ptr.triple.slot := hI ▸ toNat_insideFileIdx ptr
  have hIs : getSeekVal I = ptr.triple.slot * 544 := hI ▸ hinv.getSeekVal_head ptr
  generalize hi : ptr.triple.slot = i at hIi hIs
  rw [hi] at hc hnot hL hchain hslot
  generalize hn : entryCount f = n at *
  have hNn : N.toNat = n := by rw [hN]; exact toNat_ofNat_slot hinv hn.ge
  have hLl : L.toNat = left (entryAt f) i := by rw [hL]; rfl
  have hlmem : left (entryAt f) i ∈ i :: ms := hchain.ring.prev_end_mem
  have hslots : ∀ x ∈ i :: ms, x < n := fun x hx => hn ▸ hinv.slot_lt hslot hc hx
  have hLs : getSeekVal L = L.toNat * 544 :=
    hinv.getSeekVal_slot (by rw [hLl, hn]; exact hslots _ hlmem)
  -- the entry itself
  have happ := appendEntry (f := f) (x := n) (by rw [← hn]; exact hinv.length_eq) hinv.small
    (fits_entry L I ptr.hash1 ptr.hash2 ptr.key ptr.value) rfl
  rw [overlay_entry] at happ
  rw [applyBatches]
  refine happ.bind fun f₁ hf₁ => Or.inr ?_
  obtain ⟨hlen₁, hmax₁, he₁⟩ := hf₁
  have hcount₁ : entryCount f₁ = n + 1 := hn ▸ entryCount_append hlen₁
  have hold₁ : ∀ x < n, entryAt f₁ x = entryAt f x := by
    intro x hx
    rw [he₁, Function.update_of_ne hx.ne]
  -- its links
  obtain ⟨f', h', hlen', he'⟩ := linkNew_spec N (f := f₁)
    (by rw [hcount₁]; exact Nat.lt_succ_of_lt (hslots i List.mem_cons_self))
    (by rw [hcount₁, hLl]; exact Nat.lt_succ_of_lt (hslots _ hlmem)) hIi hIs hLs hmax₁
  refine ⟨f', h', ?_⟩
  rw [hLl] at he'
  have hli : n ≠ left (entryAt f) i := (hslots _ hlmem).ne'
  have hni : n ≠ i := (hslots i List.mem_cons_self).ne'
  have htriple : ∀ x ∈ i :: ms, (entryAt f' x).triple = (entryAt f x).triple := by
    intro x hx
    rw [he', relink_triple, hold₁ x (hslots x hx)]
  have hedit : ChainEdit num f f' chain i (some (ms ++ [n])) := by
    rw [← hn] at *
    refine append hinv hi hf hc (hlen'.trans hlen₁) (hlen' ▸ hmax₁) hnot ?_ ?_ ?_ ?_ ?_ ?_ ?_
      htriple ?_
    · rw [he', left_relink, if_neg hni, left, he₁, Function.update_self, hLl]
    · rw [he', right_relink, if_neg hli, right, he₁, Function.update_self, hIi]
    · rw [he', relink_triple, he₁, Function.update_self]
      rfl
    · rw [he', right_relink, if_pos rfl, hNn]
    · rw [he', left_relink, if_pos rfl, hNn]
    · intro x hx hne
      rw [he', right_relink, if_neg hne, right, hold₁ x (hslots x hx), right]
    · intro x hx
      have hne : x ≠ i := fun hxi => (List.nodup_cons.1 hchain.nodup).1 (hxi ▸ hx)
      rw [he', left_relink, if_neg hne, left, hold₁ x (hslots x (List.mem_cons_of_mem _ hx)), left]
    · intro x hx hout
      have hxl : x ≠ left (entryAt f) i := fun hxl => hout (hxl ▸ hlmem)
      have hxi : x ≠ i := fun hxi => hout (hxi ▸ List.mem_cons_self)
      rw [he', relink_of_ne hxl hxi, hold₁ x hx]
  subst hi
  refine FileRep.set (w := ptr.value) ((ptr.triple.slot :: ms).map (pairAt (entryAt f)))
    hedit hinv hm (by rwa [map_fst_pairAt]) (Or.inl ?_) ?_
  · rw [hc, contents_some]
  · have hsame : (ptr.triple.slot :: ms).map (pairAt (entryAt f')) =
        (ptr.triple.slot :: ms).map (pairAt (entryAt f)) :=
      map_pairAt_congr htriple fun x hx => by rw [he', relink_value, hold₁ x (hslots x hx)]
    have hpair : pairAt (entryAt f') n = (ptr.triple, ptr.value) := by
      rw [pairAt, he', relink_triple, relink_value, he₁, Function.update_self]
      rfl
    rw [contents_some, ← List.cons_append, List.map_append, hsame, List.map_singleton, hpair]
    exact List.perm_append_singleton _ _

/-- **`write_to_db` on one file sets the key.** -/
theorem write_spec (ptr : KVMessage) (h : FileRep num f m) (hf : ptr.triple.file = num) :
    SucceedsUnlessFull ((writeBatches f ptr).bind (applyBatches f)) fun f' =>
      FileRep num f' (Function.update m ptr.triple (some ptr.value)) := by
  obtain ⟨chain, hinv, hm⟩ := h
  obtain ⟨r, hr, hfound⟩ := search_found hinv ptr
  rw [writeBatches, hr, ok_bind]
  generalize hc : chain ptr.triple.slot = c at hfound
  cases hfound with
  | empty => exact insertFirst_spec hinv hm hf hc
  | head ms hhead =>
    exact overwrite_spec hinv hm hf hc List.mem_cons_self hhead (hinv.getSeekVal_head ptr) ptr.value
  | member as y bs hy =>
    have hmem : y ∈ ptr.triple.slot :: (as ++ y :: bs) := by simp
    have hlt := hinv.slot_lt (slot_lt _) hc hmem
    exact overwrite_spec hinv hm hf hc hmem hy (hinv.getSeekVal_ofNat hlt) ptr.value
  | absent ms hnot =>
    have happ := append_spec hinv hm hf hc hnot rfl rfl rfl
    by_cases hL : (entryAt f ptr.triple.slot).leftIdx = insideFileIdx ptr
    · rw [if_pos hL] at happ
      simp only [if_pos hL]
      exact happ
    · rw [if_neg hL] at happ
      simp only [if_neg hL]
      exact happ

/-! ## Deleting -/

theorem fits_deleted (k v : Chars256) : Fits 0 (clearedHeader ++ [k.bytes, v.bytes]) := by
  intro n hn
  have : n < 6 := hn
  interval_cases n <;> simp [entryWidths, clearedHeader, List.replicate, length_bytes]

theorem deleteOnly_spec (hinv : FileInv num f chain) (hm : Stores num f chain m)
    (hc : chain t.slot = some []) (ht : (entryAt f t.slot).triple = t) {I : UInt64}
    (hI : getSeekVal I = t.slot * 544) :
    ∃ f', applyBatches f [⟨getSeekVal I, clearedHeader⟩] = .ok f' ∧
      FileRep num f' (Function.update m t none) := by
  have hlt := hinv.slot_lt (slot_lt t) hc List.mem_cons_self
  obtain ⟨f', h', hlen, he⟩ := writeEntry (slot_end_le hlt) hinv.small fits_cleared
  refine ⟨f', ?_, ?_⟩
  · rw [hI, applyBatches, show t.slot * 544 = t.slot * 544 + offset entryWidths 0 from rfl, h']
    rfl
  have hedit := deleteOnly hinv (slot_lt t) hc (u := overlay f t.slot 0 (clearedHeader ++ []))
    (overlay_cleared []) hlen (by rw [he, List.append_nil])
  refine FileRep.erase (w := (entryAt f t.slot).value) [] hedit hinv hm (by simp) ?_
    (List.Perm.refl _)
  rw [hc, contents_some, List.map_singleton, pairAt, ht]

/-- The second entry of a chain, `y`, is moved into the slot `i` of its head; `r` is the next. -/
structure SecondMoved (f f' : List UInt8) (i y r : Nat) (I R : UInt64) : Prop where
  length : f'.length = f.length
  cleared : (entryAt f' y).Unused
  other : ∀ x, x ≠ i → x ≠ y → entryAt f' x =
    { entryAt f x with leftIdx := if x = r then I else (entryAt f x).leftIdx }
  head : entryAt f' i = ⟨if i = r then I else (entryAt f i).leftIdx, R, (entryAt f y).hash1,
    (entryAt f y).hash2, (entryAt f y).key, (entryAt f y).value⟩

/-- The three batches that move it. -/
theorem moveSecond {I R : UInt64} {r : Nat} (hi : i < entryCount f) (hy : y < entryCount f)
    (hr : r < entryCount f) (hyi : y ≠ i) (hry : r ≠ y) (hI : getSeekVal I = i * 544)
    (hR : getSeekVal R = r * 544) (hmax : f.length ≤ maxFileOffset) :
    ∃ f', applyBatches f [⟨y * 544, clearedHeader⟩, ⟨getSeekVal R, [encodeU64 I]⟩,
        ⟨getSeekVal I + 8, [encodeU64 R, encodeU64 (entryAt f y).hash1,
          encodeU64 (entryAt f y).hash2, (entryAt f y).key.bytes, (entryAt f y).value.bytes]⟩] =
        .ok f' ∧ SecondMoved f f' i y r I R := by
  obtain ⟨f₁, h₁, hlen₁, he₁⟩ := writeEntry (slot_end_le hy) hmax fits_cleared
  obtain ⟨f₂, h₂, hlen₂, he₂⟩ := writeEntry (f := f₁) (hlen₁ ▸ slot_end_le hr) (hlen₁ ▸ hmax)
    (fits_left I)
  have hlen : f₂.length = f.length := hlen₂.trans hlen₁
  obtain ⟨f₃, h₃, hlen₃, he₃⟩ := writeEntry (f := f₂) (hlen ▸ slot_end_le hi) (hlen ▸ hmax)
    (fits_tail R (entryAt f y).hash1 (entryAt f y).hash2 (entryAt f y).key (entryAt f y).value)
  rw [overlay_tail] at he₃
  rw [overlay_left] at he₂
  refine ⟨f₃, ?_, hlen₃.trans hlen, ?_, ?_, ?_⟩
  · rw [applyBatches, show y * 544 = y * 544 + offset entryWidths 0 from rfl, h₁, ok_bind,
      applyBatches, hR, show r * 544 = r * 544 + offset entryWidths 0 from rfl, h₂, ok_bind,
      applyBatches, hI, show i * 544 + 8 = i * 544 + offset entryWidths 1 from rfl, h₃]
    rfl
  · rw [he₃, Function.update_of_ne hyi, he₂, Function.update_of_ne hry.symm, he₁,
      Function.update_self, ← List.append_nil clearedHeader]
    exact overlay_cleared []
  · intro x hxi hxy
    rw [he₃, Function.update_of_ne hxi, he₂]
    by_cases hxr : x = r
    · rw [hxr, Function.update_self, he₁, Function.update_of_ne hry, if_pos rfl]
    · rw [Function.update_of_ne hxr, he₁, Function.update_of_ne hxy, if_neg hxr]
  · rw [he₃, Function.update_self, he₂]
    by_cases hir : i = r
    · rw [hir, Function.update_self, if_pos rfl]
    · rw [Function.update_of_ne hir, he₁, Function.update_of_ne hyi.symm, if_neg hir]

theorem deleteHead_spec (hinv : FileInv num f chain) (hm : Stores num f chain m)
    (hc : chain t.slot = some (y :: bs)) (ht : (entryAt f t.slot).triple = t) {I R : UInt64}
    (hIi : I.toNat = t.slot) (hI : getSeekVal I = t.slot * 544) (hR : R = (entryAt f y).rightIdx)
    {p : Nat} (hp : p = y * 544) :
    ∃ f', applyBatches f [⟨p, clearedHeader⟩, ⟨getSeekVal R, [encodeU64 I]⟩,
        ⟨getSeekVal I + 8, [encodeU64 R, encodeU64 (entryAt f y).hash1,
          encodeU64 (entryAt f y).hash2, (entryAt f y).key.bytes, (entryAt f y).value.bytes]⟩] =
        .ok f' ∧ FileRep num f' (Function.update m t none) := by
  have hslot := slot_lt t
  have hchain := hinv.linked _ hslot _ hc
  generalize hi : t.slot = i at *
  have hnd := hchain.nodup
  have hyi : y ≠ i := fun hyi => (List.nodup_cons.1 hnd).1 (by rw [← hyi]; exact List.mem_cons_self)
  have hlt : ∀ x ∈ i :: y :: bs, x < entryCount f := fun x hx => hinv.slot_lt hslot hc hx
  have hRr : R.toNat = right (entryAt f) y := by rw [hR]; rfl
  generalize hr : right (entryAt f) y = r at *
  have hrmem : r ∈ bs ++ [i] := by rw [← hr]; exact hchain.ring.2.2.next_mem
  have hrslots : r ∈ i :: y :: bs := by
    rcases List.mem_append.1 hrmem with hrb | hri
    · exact List.mem_cons_of_mem _ (List.mem_cons_of_mem _ hrb)
    · rw [List.mem_singleton.1 hri]
      exact List.mem_cons_self
  have hry : r ≠ y := by
    rcases List.mem_append.1 hrmem with hrb | hri
    · exact fun hry => (List.nodup_cons.1 (List.nodup_cons.1 hnd).2).1 (hry ▸ hrb)
    · rw [List.mem_singleton.1 hri]
      exact hyi.symm
  have hRs : getSeekVal R = r * 544 := by
    rw [hinv.getSeekVal_slot (by rw [hRr]; exact hlt r hrslots), hRr]
  obtain ⟨f', h', hmoved⟩ := moveSecond (hlt i List.mem_cons_self) (hlt y (by simp))
    (hlt r hrslots) hyi hry hI hRs hinv.small
  refine ⟨f', by rw [hp]; exact h', ?_⟩
  have hbs : ∀ x ∈ bs, x ≠ i ∧ x ≠ y := by
    intro x hx
    obtain ⟨hout, hnd'⟩ := List.nodup_cons.1 hnd
    exact ⟨fun hxi => hout (by rw [← hxi]; exact List.mem_cons_of_mem _ hx),
      fun hxy => (List.nodup_cons.1 hnd').1 (hxy ▸ hx)⟩
  have hother : ∀ x ∈ bs, entryAt f' x =
      { entryAt f x with leftIdx := if x = r then I else (entryAt f x).leftIdx } := fun x hx =>
    hmoved.other x (hbs x hx).1 (hbs x hx).2
  -- the second entry `y` is now in the slot of the head, so the chain is one shorter
  have hedit : ChainEdit num f f' chain i (some bs) := by
    refine deleteHead hinv hslot hc hmoved.length hmoved.cleared ?_ ?_ ?_ ?_ ?_ ?_ ?_
    · rw [right, hmoved.head, hr, hRr]
    · rw [hr, left]
      by_cases hir : i = r
      · rw [← hir, hmoved.head, if_pos hir, hIi]
      · rw [hmoved.other r (Ne.symm hir) hry, if_pos rfl, hIi]
    · intro x hx
      rw [right, hother x hx, right]
    · intro x hx hne
      rw [hr] at hne
      rcases List.mem_cons.1 hx with rfl | hx
      · rw [left, hmoved.head, if_neg hne, left]
      · rw [left, hother x hx, if_neg hne, left]
    · rw [hmoved.head]
      rfl
    · intro x hx
      rw [hother x hx]
      rfl
    · intro x hx
      have hxi : x ≠ i := fun hxi => hx (hxi ▸ List.mem_cons_self)
      have hxy : x ≠ y := fun hxy => hx (by simp [hxy])
      have hxr : x ≠ r := fun hxr => hx (hxr ▸ hrslots)
      rw [hmoved.other x hxi hxy, if_neg hxr]
  subst hi
  refine FileRep.erase (w := (entryAt f t.slot).value) ((y :: bs).map (pairAt (entryAt f)))
    hedit hinv hm ?_ ?_ ?_
  · have hfresh := hchain.head_triple_not_mem
    rwa [ht] at hfresh
  · rw [hc, contents_some, List.map_cons, pairAt, ht]
  · have hsame : bs.map (pairAt (entryAt f')) = bs.map (pairAt (entryAt f)) := by
      refine map_pairAt_congr (fun x hx => ?_) fun x hx => ?_
      · rw [hother x hx]
        rfl
      · rw [hother x hx]
    rw [contents_some, List.map_cons, List.map_cons, hsame, pairAt, hmoved.head, pairAt]
    exact List.Perm.refl _

theorem deleteMember_spec (hinv : FileInv num f chain) (hm : Stores num f chain m)
    (hc : chain t.slot = some (as ++ y :: bs)) (ht : (entryAt f y).triple = t) {Y : UInt64}
    (hY : getSeekVal Y = y * 544) (k v : Chars256) :
    ∃ f', applyBatches f [⟨getSeekVal Y, clearedHeader ++ [k.bytes, v.bytes]⟩,
        ⟨getSeekVal (entryAt f y).leftIdx + 8, [encodeU64 (entryAt f y).rightIdx]⟩,
        ⟨getSeekVal (entryAt f y).rightIdx, [encodeU64 (entryAt f y).leftIdx]⟩] = .ok f' ∧
      FileRep num f' (Function.update m t none) := by
  have hslot := slot_lt t
  have hchain := hinv.linked _ hslot _ hc
  generalize hi : t.slot = i at *
  have hnd := hchain.nodup
  have hlt : ∀ x ∈ i :: (as ++ y :: bs), x < entryCount f := fun x hx => hinv.slot_lt hslot hc hx
  obtain ⟨hfront, hback⟩ := Ring.path_append.1 hchain.ring
  have hlmem : left (entryAt f) y ∈ i :: as := hfront.prev_end_mem
  have hrmem : right (entryAt f) y ∈ bs ++ [i] := hback.next_mem
  have hlslots : left (entryAt f) y ∈ i :: (as ++ y :: bs) := by
    rcases List.mem_cons.1 hlmem with h | h <;> simp [h]
  have hrslots : right (entryAt f) y ∈ i :: (as ++ y :: bs) := by
    rcases List.mem_append.1 hrmem with h | h
    · simp [h]
    · simp [List.mem_singleton.1 h]
  -- both neighbours differ from the entry itself
  have hyout : y ∉ i :: (as ++ bs) := by
    have hperm : (i :: (as ++ y :: bs)).Perm (y :: i :: (as ++ bs)) :=
      (List.perm_middle.cons i).trans (List.Perm.swap y i _)
    exact (List.nodup_cons.1 (hperm.nodup_iff.1 hnd)).1
  have hly : y ≠ left (entryAt f) y := fun hyl => hyout (by
    rw [hyl]
    rcases List.mem_cons.1 hlmem with h | h <;> simp [h])
  have hry : y ≠ right (entryAt f) y := fun hyr => hyout (by
    rw [hyr]
    rcases List.mem_append.1 hrmem with h | h
    · simp [h]
    · simp [List.mem_singleton.1 h])
  -- the three batches
  obtain ⟨f₁, h₁, hlen₁, he₁⟩ := writeEntry (slot_end_le (hlt y (by simp))) hinv.small
    (fits_deleted k v)
  have hcount := entryCount_congr hlen₁
  obtain ⟨f', h', hlen', he'⟩ := writeLinks (f := f₁) (entryAt f y).rightIdx
    (entryAt f y).leftIdx (hcount ▸ hlt _ hlslots) (hcount ▸ hlt _ hrslots)
    (hinv.getSeekVal_slot (hlt _ hlslots)) (hinv.getSeekVal_slot (hlt _ hrslots))
    (hlen₁ ▸ hinv.small)
  refine ⟨f', ?_, ?_⟩
  · rw [applyBatches, hY, show y * 544 = y * 544 + offset entryWidths 0 from rfl, h₁, ok_bind]
    exact h'
  change entryAt f' = relink (entryAt f₁) (left (entryAt f) y) (right (entryAt f) y) _ _ at he'
  have hold : ∀ x, x ≠ y → entryAt f₁ x = entryAt f x := by
    intro x hx
    rw [he₁, Function.update_of_ne hx]
  have hcleared : (entryAt f' y).Unused := by
    rw [he', relink_of_ne hly hry, he₁, Function.update_self]
    exact overlay_cleared _
  have htriple : ∀ x, x ≠ y → (entryAt f' x).triple = (entryAt f x).triple := by
    intro x hx
    rw [he', relink_triple, hold x hx]
  have hedit : ChainEdit num f f' chain i (some (as ++ bs)) := by
    refine deleteMember hinv hslot hc (hlen'.trans hlen₁) hcleared ?_ ?_ ?_ ?_ htriple ?_
    · rw [he', right_relink, if_pos rfl, right]
    · rw [he', left_relink, if_pos rfl, left]
    · intro x hxy hne
      rw [he', right_relink, if_neg hne, right, hold x hxy, right]
    · intro x hxy hne
      rw [he', left_relink, if_neg hne, left, hold x hxy, left]
    · intro x hx
      have hxy : x ≠ y := fun hxy => hx (by simp [hxy])
      have hxl : x ≠ left (entryAt f) y := fun hxl => hx (by rw [hxl]; exact hlslots)
      have hxr : x ≠ right (entryAt f) y := fun hxr => hx (by rw [hxr]; exact hrslots)
      rw [he', relink_of_ne hxl hxr, hold x hxy]
  subst hi
  refine FileRep.erase (w := (entryAt f y).value)
    ((t.slot :: (as ++ bs)).map (pairAt (entryAt f))) hedit hinv hm ?_ ?_ ?_
  · have hfresh := hchain.triple_not_mem
    rwa [ht] at hfresh
  · rw [hc]
    have hperm := contents_member_perm t.slot y as bs (entryAt f)
    rwa [pairAt, ht] at hperm
  · have hne : ∀ x ∈ t.slot :: (as ++ bs), x ≠ y := fun x hx hxy => hyout (hxy ▸ hx)
    rw [contents_some, map_pairAt_congr (fun x hx => htriple x (hne x hx)) fun x hx => by
      rw [he', relink_value, hold x (hne x hx)]]

theorem readU64_right (h : y < entryCount f) :
    readU64 f (y * 544 + 8) = .ok (entryAt f y).rightIdx := by
  have hend := slot_end_le h
  exact readU64_eq (by omega)

theorem readU64_hash1 (h : y < entryCount f) :
    readU64 f (y * 544 + 16) = .ok (entryAt f y).hash1 := by
  have hend := slot_end_le h
  exact readU64_eq (by omega)

theorem readU64_hash2 (h : y < entryCount f) :
    readU64 f (y * 544 + 24) = .ok (entryAt f y).hash2 := by
  have hend := slot_end_le h
  exact readU64_eq (by omega)

theorem readChars_key (h : y < entryCount f) :
    readChars f (y * 544 + 32) = .ok (entryAt f y).key := by
  have hend := slot_end_le h
  exact readChars_eq (by rw [kvStrLen]; omega)

/-- **`delete_from_db` on one file says whether it holds the key, and erases it.** -/
theorem delete_spec (ptr : KVMessage) (h : FileRep num f m) (hf : ptr.triple.file = num) :
    (m ptr.triple = none ∧ deleteBatches f ptr = .ok none) ∨
    ((m ptr.triple).isSome ∧ ∃ bs f', deleteBatches f ptr = .ok (some bs) ∧
      applyBatches f bs = .ok f' ∧ FileRep num f' (Function.update m ptr.triple none)) := by
  obtain ⟨chain, hinv, hm⟩ := h
  have hslot := slot_lt ptr.triple
  obtain ⟨r, hr, hfound⟩ := search_found hinv ptr
  rw [deleteBatches, hr]
  simp only [ok_bind]
  have hIi : (insideFileIdx ptr).toNat = ptr.triple.slot := toNat_insideFileIdx ptr
  generalize hc : chain ptr.triple.slot = c at hfound
  cases hfound with
  | empty => exact Or.inl ⟨hm.eq_none_of_empty hf hc, rfl⟩
  | absent ms hnot => exact Or.inl ⟨hm.eq_none_of_absent hf hc hnot, rfl⟩
  | member as y bs hy =>
    have hmem : y ∈ ptr.triple.slot :: (as ++ y :: bs) := by simp
    obtain ⟨f', hf', hrep⟩ := deleteMember_spec hinv hm hc hy
      (hinv.getSeekVal_ofNat (hinv.slot_lt hslot hc hmem)) emptyString emptyString
    refine Or.inr ⟨by rw [hm.eq_some hf hc hmem hy]; rfl, _, f', rfl, hf', hrep⟩
  | head ms hhead =>
    refine Or.inr ⟨by rw [hm.eq_some hf hc List.mem_cons_self hhead]; rfl, ?_⟩
    cases ms with
    -- the entry is alone, and the head becomes unused
    | nil =>
      obtain ⟨hleft, hright⟩ := hinv.lone_links hc
      obtain ⟨f', hf', hrep⟩ := deleteOnly_spec hinv hm hc hhead (hinv.getSeekVal_head ptr)
      exact ⟨_, f', if_pos ⟨hleft.trans hright.symm, hleft⟩, hf', hrep⟩
    -- the second entry is moved to the head
    | cons y bs =>
      have hmem : y ∈ ptr.triple.slot :: y :: bs := by simp
      have hlt := hinv.slot_lt hslot hc hmem
      have hry : (entryAt f ptr.triple.slot).rightIdx.toNat = y := (hinv.linked _ hslot _ hc).ring.1
      have hmore := hinv.rightIdx_ne_self hc
      have hnext := hinv.ne_maxUInt64 (hry.symm ▸ hlt)
      obtain ⟨f', hf', hrep⟩ := deleteHead_spec hinv hm hc hhead hIi (hinv.getSeekVal_head ptr)
        rfl (p := y * 544 + 32 + 256 + 256 - sizeOfOneEntry) (by rw [sizeOfOneEntry_eq]; omega)
      refine ⟨_, f', (if_neg fun hlone => hmore (hlone.1.symm.trans hlone.2)).trans
        ((if_neg hnext).trans ?_), hf', hrep⟩
      rw [hinv.getSeekVal_second hc, readU64_right hlt, ok_bind, readU64_hash1 hlt, ok_bind,
        readU64_hash2 hlt, ok_bind, readChars_key hlt, ok_bind, readValue_slot hlt]
      rfl

/-! ## The initial file -/

/-- A blank entry of a new file. -/
def blankEntry : List UInt8 :=
  (List.replicate 4 (encodeU64 maxUInt64)).flatten ++ emptyString.bytes ++ emptyString.bytes

theorem length_blankEntry : blankEntry.length = entryWidths.sum := by
  simp only [blankEntry, List.length_append, length_bytes]
  rfl

theorem length_initialFile : initialFile.length = fileTableLen * 544 := by
  show (List.replicate fileTableLen blankEntry).flatten.length = _
  rw [List.length_flatten, List.map_replicate, List.sum_replicate_nat, length_blankEntry]
  rfl

theorem entryAt_initialFile (hi : i < fileTableLen) : (entryAt initialFile i).Unused := by
  have hfield := field_replicate entryWidths length_blankEntry hi
  have hmax : slice blankEntry (offset entryWidths 0) 8 = encodeU64 maxUInt64 ∧
      slice blankEntry (offset entryWidths 1) 8 = encodeU64 maxUInt64 := by decide
  constructor
  · show decodeU64 (field entryWidths initialFile i 0) = maxUInt64
    rw [show initialFile = (List.replicate fileTableLen blankEntry).flatten from rfl, hfield]
    exact (congrArg decodeU64 hmax.1).trans (decodeU64_encodeU64 _)
  · show decodeU64 (field entryWidths initialFile i 1) = maxUInt64
    rw [show initialFile = (List.replicate fileTableLen blankEntry).flatten from rfl, hfield]
    exact (congrArg decodeU64 hmax.2).trans (decodeU64_encodeU64 _)

theorem initialFile_rep (hm : ∀ t : Triple, t.file = num → m t = none) :
    FileRep num initialFile m := by
  have hlen := length_initialFile
  have hcount : entryCount initialFile = fileTableLen := by
    rw [entryCount, hlen, sizeOfOneEntry_eq, Nat.mul_div_cancel _ (by decide)]
  refine ⟨fun _ => none, ⟨?_, ?_, ?_, ?_, by simp, ?_⟩, ?_⟩
  · rw [hlen, sizeOfOneEntry_eq, Nat.mul_mod_left]
  · rw [hlen, sizeOfOneEntry_eq]
  · rw [hlen]
    decide
  · intro i hi _
    exact entryAt_initialFile hi
  · intro x hx hlt _
    exact absurd hlt (by rw [hcount]; exact not_lt.2 hx)
  · intro t ht v
    simp [hm t ht, contents, slotsOf]

/-! ## The store -/

/-- The store holds the map `m`. -/
structure StoreRep (s : KVStore) (m : Triple → Option Chars256) : Prop where
  absent : ∀ i < hashTableLen, s.fileExistsStatus i = false →
    s.files i = none ∧ ∀ t : Triple, t.file = i → m t = none
  present : ∀ i < hashTableLen, s.fileExistsStatus i = true →
    ∃ f, s.files i = some f ∧ FileRep i f m

variable {s s' : KVStore}

theorem file_lt (t : Triple) : t.file < hashTableLen := Nat.mod_lt _ (by decide)

theorem FileRep.congr {m' : Triple → Option Chars256} (h : FileRep num f m)
    (heq : ∀ t : Triple, t.file = num → m' t = m t) : FileRep num f m' := by
  obtain ⟨chain, hinv, hm⟩ := h
  exact ⟨chain, hinv, fun t ht v => by rw [heq t ht]; exact hm t ht v⟩

/-- What the store needs of a predicate `R num f m` that says that file `num` holds the map `m`. -/
structure FileModel (R : Nat → List UInt8 → (Triple → Option Chars256) → Prop) : Prop where
  congr : ∀ {num f} {m m' : Triple → Option Chars256}, R num f m →
    (∀ t : Triple, t.file = num → m' t = m t) → R num f m'
  initial : ∀ {num} {m : Triple → Option Chars256}, (∀ t : Triple, t.file = num → m t = none) →
    R num initialFile m
  read : ∀ {num f m} {ptr : KVMessage}, R num f m → ptr.triple.file = num →
    readValue f ptr = .ok (m ptr.triple)
  write : ∀ {num f m} (ptr : KVMessage), R num f m → ptr.triple.file = num →
    SucceedsUnlessFull ((writeBatches f ptr).bind (applyBatches f)) fun f' =>
      R num f' (Function.update m ptr.triple (some ptr.value))
  delete : ∀ {num f m} (ptr : KVMessage), R num f m → ptr.triple.file = num →
    (m ptr.triple = none ∧ deleteBatches f ptr = .ok none) ∨
    ((m ptr.triple).isSome ∧ ∃ bs f', deleteBatches f ptr = .ok (some bs) ∧
      applyBatches f bs = .ok f' ∧ R num f' (Function.update m ptr.triple none))

theorem fileModel_fileRep : FileModel FileRep where
  congr := FileRep.congr
  initial := initialFile_rep
  read := readValue_eq
  write := write_spec
  delete := delete_spec

/-- The files of the store hold the map `m`, by the predicate `R`. -/
structure Holds (R : Nat → List UInt8 → (Triple → Option Chars256) → Prop) (s : KVStore)
    (m : Triple → Option Chars256) : Prop where
  absent : ∀ i < hashTableLen, s.fileExistsStatus i = false →
    s.files i = none ∧ ∀ t : Triple, t.file = i → m t = none
  present : ∀ i < hashTableLen, s.fileExistsStatus i = true →
    ∃ f, s.files i = some f ∧ R i f m

theorem holds_fileRep : Holds FileRep s m ↔ StoreRep s m :=
  ⟨fun h => ⟨h.absent, h.present⟩, fun h => ⟨h.absent, h.present⟩⟩

/-- What `read_from_db` answers for the map `m`. -/
def readAnswer (m : Triple → Option Chars256) (ptr : KVMessage) : Bool × KVMessage :=
  match m ptr.triple with
  | some v => (true, { ptr with value := v })
  | none => (false, ptr)

theorem update_eq_of_file_ne {o : Option Chars256} (t : Triple) (ht : t.file ≠ ptr.triple.file) :
    Function.update m ptr.triple o t = m t :=
  Function.update_of_ne (fun hn => ht (congrArg _ hn)) _ _

namespace Holds

variable {R : Nat → List UInt8 → (Triple → Option Chars256) → Prop}

theorem setFile {m' : Triple → Option Chars256} (num : Nat) (h : Holds R s m) (hR : FileModel R)
    (hs : ∀ j, j ≠ num → s'.fileExistsStatus j = s.fileExistsStatus j ∧ s'.files j = s.files j)
    (hbit : s'.fileExistsStatus num = true) (hfile : s'.files num = some f)
    (hf : R num f m') (hother : ∀ t : Triple, t.file ≠ num → m' t = m t) :
    Holds R s' m' where
  absent i hi hfalse := by
    have hin : i ≠ num := by
      intro hin
      rw [hin, hbit] at hfalse
      cases hfalse
    rw [(hs i hin).1] at hfalse
    obtain ⟨hnone, hm⟩ := h.absent i hi hfalse
    refine ⟨(hs i hin).2.trans hnone, ?_⟩
    intro t ht
    rw [hother t (ht ▸ hin), hm t ht]
  present i hi htrue := by
    by_cases hin : i = num
    · subst hin
      exact ⟨f, hfile, hf⟩
    · rw [(hs i hin).1] at htrue
      obtain ⟨g, hg, hrep⟩ := h.present i hi htrue
      exact ⟨g, (hs i hin).2.trans hg, hR.congr hrep fun t ht => hother t (ht ▸ hin)⟩

theorem readFromDb_eq (h : Holds R s m) (hR : FileModel R) (ptr : KVMessage) :
    s.readFromDb ptr = .ok (readAnswer m ptr) := by
  rw [KVStore.readFromDb, KVStore.readFromDbIf]
  show (if s.fileExistsStatus ptr.triple.file = false then _ else _) = _
  cases hbit : s.fileExistsStatus ptr.triple.file with
  | false => rw [if_pos rfl, readAnswer, (h.absent _ (file_lt _) hbit).2 _ rfl]
  | true =>
    obtain ⟨f, hf, hrep⟩ := h.present _ (file_lt _) hbit
    rw [if_neg (by decide), KVStore.openFile, if_pos rfl,
      show s.files (KVStore.fileIdx ptr) = some f from hf]
    simp only [hR.read hrep rfl, ok_bind, readAnswer]
    cases m ptr.triple <;> rfl

theorem writeToDb_spec (h : Holds R s m) (hR : FileModel R) (ptr : KVMessage) :
    SucceedsUnlessFull (s.writeToDb ptr) fun s' =>
      Holds R s' (Function.update m ptr.triple (some ptr.value)) := by
  rw [KVStore.writeToDb, KVStore.writeToDbIf]
  show SucceedsUnlessFull (if s.fileExistsStatus ptr.triple.file = false then _ else _) _
  cases hbit : s.fileExistsStatus ptr.triple.file with
  | false =>
    rw [if_pos rfl, if_pos rfl]
    have hnew := hR.initial (h.absent _ (file_lt _) hbit).2
    refine (hR.write ptr hnew rfl).bind₂ fun f hf => Excused.ok ?_
    refine h.setFile ptr.triple.file hR (fun j hj => ?_) ?_ ?_ hf update_eq_of_file_ne
    · exact ⟨Function.update_of_ne hj _ _, Function.update_of_ne hj _ _⟩
    · exact Function.update_self ..
    · exact Function.update_self ..
  | true =>
    obtain ⟨f, hf, hrep⟩ := h.present _ (file_lt _) hbit
    rw [if_neg (by decide), KVStore.openFile, if_pos rfl,
      show s.files (KVStore.fileIdx ptr) = some f from hf]
    refine (hR.write ptr hrep rfl).bind₂ fun f' hf' => Excused.ok ?_
    refine h.setFile ptr.triple.file hR (fun j hj => ?_) hbit ?_ hf' update_eq_of_file_ne
    · exact ⟨rfl, Function.update_of_ne hj _ _⟩
    · exact Function.update_self ..

theorem deleteFromDb_spec (h : Holds R s m) (hR : FileModel R) (ptr : KVMessage) :
    ∃ s', s.deleteFromDb ptr = .ok ((m ptr.triple).isSome, s') ∧
      Holds R s' (Function.update m ptr.triple none) := by
  have hsame : m ptr.triple = none → Function.update m ptr.triple none = m := fun hn =>
    Function.update_eq_self_iff.2 hn.symm
  rw [KVStore.deleteFromDb, KVStore.deleteFromDbIf]
  show ∃ s', (if s.fileExistsStatus ptr.triple.file = false then _ else _) = _ ∧ _
  cases hbit : s.fileExistsStatus ptr.triple.file with
  | false =>
    have hnone := (h.absent _ (file_lt _) hbit).2 _ rfl
    refine ⟨s, ?_, by rwa [hsame hnone]⟩
    rw [if_pos rfl, hnone]
    rfl
  | true =>
    obtain ⟨f, hf, hrep⟩ := h.present _ (file_lt _) hbit
    rw [if_neg (by decide), KVStore.openFile, if_pos rfl,
      show s.files (KVStore.fileIdx ptr) = some f from hf]
    rcases hR.delete ptr hrep rfl with ⟨hnone, hd⟩ | ⟨hsome, bs, f', hd, hb, hf'⟩
    · refine ⟨s, ?_, by rwa [hsame hnone]⟩
      simp only [hd, ok_bind, hnone]
      rfl
    · refine ⟨s.setFile ptr.triple.file f', ?_, ?_⟩
      · simp only [hd, ok_bind, hb, hsome]
        rfl
      · refine h.setFile ptr.triple.file hR (fun j hj => ?_) hbit ?_ hf' update_eq_of_file_ne
        · exact ⟨rfl, Function.update_of_ne hj _ _⟩
        · exact Function.update_self ..

end Holds

namespace KVStore

theorem readFromDb_eq (h : StoreRep s m) (ptr : KVMessage) :
    s.readFromDb ptr = .ok (readAnswer m ptr) :=
  (holds_fileRep.2 h).readFromDb_eq fileModel_fileRep ptr

theorem writeToDb_spec (h : StoreRep s m) (ptr : KVMessage) :
    SucceedsUnlessFull (s.writeToDb ptr) fun s' =>
      StoreRep s' (Function.update m ptr.triple (some ptr.value)) :=
  ((holds_fileRep.2 h).writeToDb_spec fileModel_fileRep ptr).mono fun _ => holds_fileRep.1

theorem deleteFromDb_spec (h : StoreRep s m) (ptr : KVMessage) :
    ∃ s', s.deleteFromDb ptr = .ok ((m ptr.triple).isSome, s') ∧
      StoreRep s' (Function.update m ptr.triple none) := by
  obtain ⟨s', hs', hrep⟩ := (holds_fileRep.2 h).deleteFromDb_spec fileModel_fileRep ptr
  exact ⟨s', hs', holds_fileRep.1 hrep⟩

end KVStore

end KeyValueStore
