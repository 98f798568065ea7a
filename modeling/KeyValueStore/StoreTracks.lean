import KeyValueStore.StoreRuns

/-!
# Files that lag behind

A process that is killed inside `write_to_db` leaves a file without the invariant: a new entry that
is not linked in yet, or one whose head does not link back to it yet. No operation can tell such a
file from one with the invariant.

`Tracks f g` says that `f` is the file `g` up to entries that no chain uses and up to the left links
of heads with entries behind them. If `g` has the invariant, then

* `Tracks.readValue_eq`, `Tracks.writeBatches_eq`, `Tracks.deleteBatches_eq` — the three operations
  find the same and write the same in both files;
* `Tracks.applyBatches` — afterwards the first file tracks the second again.

So a store of such files simulates a store that holds a map (`LagsRep`), over any run of calls.
-/

namespace KeyValueStore

open ByteBuffer Run

set_option maxRecDepth 4096

variable {f g f' g' : List UInt8} {num i x y k : Nat} {chain : Nat → Option (List Nat)}
  {ms : List Nat} {ptr : KVMessage} {ds : List (List UInt8)}

/-! ## The relation -/

/-- The entry is a head with entries behind it. -/
def FileEntry.HasNext (e : FileEntry) (x : Nat) : Prop :=
  e.rightIdx.toNat ≠ x ∧ e.rightIdx ≠ maxUInt64

/-- Entry `x` of `f` can stand for entry `x` of `g`. -/
inductive StandsFor (f g : List UInt8) (x : Nat) : Prop
  | same (h : entryAt f x = entryAt g x)
  | unused (hx : fileTableLen ≤ x) (h : (entryAt g x).Unused)
  | head (hx : x < fileTableLen) (hnext : (entryAt g x).HasNext x)
    (h : entryAt f x = { entryAt g x with leftIdx := (entryAt f x).leftIdx })

/-- The file `f` is the file `g`, up to what no operation reads. -/
structure Tracks (f g : List UInt8) : Prop where
  length : f.length = g.length
  entries : ∀ x, StandsFor f g x

theorem Tracks.refl (f : List UInt8) : Tracks f f := ⟨rfl, fun _ => .same rfl⟩

theorem Tracks.entryCount_eq (h : Tracks f g) : entryCount f = entryCount g :=
  entryCount_congr h.length

theorem ChainInv.right_mem {count : Nat} {e : Nat → FileEntry} (h : ChainInv num count e i ms)
    (hx : x ∈ i :: ms) : right e x ∈ i :: ms := by
  have hring := h.ring
  rcases List.mem_cons.1 hx with rfl | hx
  · simpa [or_comm] using hring.next_mem
  · obtain ⟨as, bs, rfl⟩ := List.append_of_mem hx
    rcases List.mem_append.1 (Ring.path_append.1 hring).2.next_mem with hmem | hmem
    · simp [hmem]
    · simp [List.mem_singleton.1 hmem]

theorem ChainInv.left_mem {count : Nat} {e : Nat → FileEntry} (h : ChainInv num count e i ms)
    (hx : x ∈ ms) : left e x ∈ i :: ms := by
  obtain ⟨as, bs, rfl⟩ := List.append_of_mem hx
  rcases List.mem_cons.1 (Ring.path_append.1 h.ring).1.prev_end_mem with hmem | hmem <;>
    simp [hmem]

theorem FileInv.rightIdx_ne (h : FileInv num g chain) (hi : i < fileTableLen)
    (hc : chain i = some ms) (hx : x ∈ i :: ms) : (entryAt g x).rightIdx ≠ maxUInt64 :=
  h.ne_maxUInt64 (h.slot_lt hi hc ((h.linked i hi ms hc).right_mem hx))

/-- The entries behind a head are the same in both files. -/
theorem Tracks.member_eq (h : Tracks f g) (hinv : FileInv num g chain) (hi : i < fileTableLen)
    (hc : chain i = some ms) (hx : x ∈ ms) : entryAt f x = entryAt g x := by
  cases h.entries x with
  | same h => exact h
  | unused _ hu => exact absurd hu.2 (hinv.rightIdx_ne hi hc (List.mem_cons_of_mem _ hx))
  | head hlt _ _ => exact absurd hlt (not_lt.2 ((hinv.linked i hi ms hc).behind x hx).1)

/-- A head without entries behind it is the same in both files. -/
theorem Tracks.head_eq (h : Tracks f g) (hi : i < fileTableLen)
    (hlone : ¬ (entryAt g i).HasNext i) : entryAt f i = entryAt g i := by
  cases h.entries i with
  | same h => exact h
  | unused hge _ => exact absurd hi (not_lt.2 hge)
  | head _ hnext _ => exact absurd hnext hlone

/-- A head differs in its left link only. -/
theorem Tracks.head_like (h : Tracks f g) (hi : i < fileTableLen) :
    entryAt f i = { entryAt g i with leftIdx := (entryAt f i).leftIdx } := by
  cases h.entries i with
  | same h => rw [h]
  | unused hge _ => exact absurd hi (not_lt.2 hge)
  | head _ _ h => exact h

/-! ## The search -/

theorem Tracks.walk (h : Tracks f g) (hinv : FileInv num g chain) (hi : i < fileTableLen)
    (hc : chain i = some ms) : Ring.Walk (right (entryAt f)) i ms i := by
  refine (hinv.linked i hi ms hc).ring.walk.congr fun x hx => ?_
  rcases List.mem_cons.1 hx with rfl | hx
  · rw [right, h.head_like hi, right]
  · rw [right, h.member_eq hinv hi hc hx, right]

/-- Behind the head, the two searches read the same entries. -/
theorem Tracks.scanResult_eq (h : Tracks f g) (hinv : FileInv num g chain) (hi : i < fileTableLen)
    (hc : chain i = some ms) (ptr : KVMessage) :
    scanResult f ptr ms (entryAt f i).leftIdx = scanResult g ptr ms (entryAt g i).leftIdx := by
  have hsame : ∀ x ∈ ms, entryAt f x = entryAt g x := fun x hx => h.member_eq hinv hi hc hx
  have hfind : (ms.find? fun y => decide ((entryAt f y).triple = ptr.triple)) =
      ms.find? fun y => decide ((entryAt g y).triple = ptr.triple) :=
    List.find?_congr fun x hx => by rw [hsame x hx]
  rw [scanResult, scanResult, hfind]
  cases hg : ms.find? fun y => decide ((entryAt g y).triple = ptr.triple) with
  | none =>
    cases ms with
    | nil => rw [h.head_eq hi fun hnext => hnext.1 (hinv.linked i hi [] hc).ring.1]
    | cons y ms => rfl
  | some y =>
    dsimp only
    rw [hsame y (List.mem_of_find?_eq_some hg)]

/-- The same result, up to the left link of a head with entries behind it. -/
def Search.Like (ptr : KVMessage) (r r' : Search) : Prop :=
  r = r' ∨ ∃ hdr l, r' = .head hdr ∧ r = .head { hdr with leftIdx := l } ∧
    hdr.rightIdx ≠ insideFileIdx ptr ∧ hdr.rightIdx ≠ maxUInt64

theorem Search.Like.eq_of_ne {r r' : Search} (h : r.Like ptr r') (hne : ∀ hdr, r' ≠ .head hdr) :
    r = r' := by
  rcases h with rfl | ⟨hdr, _, he, -⟩
  · rfl
  · exact absurd he (hne hdr)

/-- **The two searches end alike.** -/
theorem Tracks.search (h : Tracks f g) (hinv : FileInv num g chain) (ptr : KVMessage) {r' : Search}
    (hr' : searchChain g ptr = .ok r') :
    ∃ r, searchChain f ptr = .ok r ∧ r.Like ptr r' := by
  have hi := insideFileIdx_lt ptr
  have hcount := hinv.entryCount_lt
  have hheads := hinv.fileTableLen_le
  have heq := h.entryCount_eq
  cases hc : chain (insideFileIdx ptr).toNat with
  | none =>
    have hunused := hinv.unused _ hi hc
    rw [search_unused (by omega) hheads ptr hunused] at hr'
    have hsame := h.head_eq hi fun hnext => hnext.2 hunused.2
    rw [search_unused (by omega) (by omega) ptr (hsame ▸ hunused)]
    exact ⟨_, hr', Or.inl rfl⟩
  | some ms =>
    have hne := hinv.rightIdx_ne hi hc List.mem_cons_self
    have hms := hinv.behind_ne hi hc
    have hle := hinv.length_le hi hc
    have hlike := h.head_like hi
    have htriple : (entryAt f (insideFileIdx ptr).toNat).triple =
        (entryAt g (insideFileIdx ptr).toNat).triple := by
      rw [hlike]
      rfl
    rw [search_walk (by omega) hheads ptr hne (hinv.linked _ hi ms hc).ring.walk hms hle] at hr'
    rw [search_walk (by omega) (by omega) ptr (by rw [hlike]; exact hne) (h.walk hinv hi hc)
      (by rwa [heq]) (by rwa [h.length]), htriple, h.scanResult_eq hinv hi hc]
    by_cases hfound : (entryAt g (insideFileIdx ptr).toNat).triple = ptr.triple
    · rw [if_pos hfound] at hr' ⊢
      obtain rfl := Except.ok.inj hr'
      refine ⟨_, rfl, ?_⟩
      by_cases hnext : (entryAt g (insideFileIdx ptr).toNat).HasNext (insideFileIdx ptr).toNat
      -- the head is read with the left link that the file has, which may lag
      · refine Or.inr ⟨_, (entryAt f (insideFileIdx ptr).toNat).leftIdx, rfl, ?_, ?_, hnext.2⟩
        · rw [hlike]
          rfl
        · exact fun he => hnext.1 (congrArg UInt64.toNat he)
      · rw [h.head_eq hi hnext]
        exact Or.inl rfl
    · rw [if_neg hfound] at hr' ⊢
      exact ⟨r', hr', Or.inl rfl⟩

/-! ## The operations find and write the same -/

theorem Tracks.readValue_eq (h : Tracks f g) (hinv : FileInv num g chain) (ptr : KVMessage) :
    readValue f ptr = readValue g ptr := by
  obtain ⟨r', hr', hfound⟩ := search_found hinv ptr
  obtain ⟨r, hr, hlike⟩ := h.search hinv ptr hr'
  rw [readValue, readValue, hr, hr', ok_bind, ok_bind]
  have hslot := slot_lt ptr.triple
  generalize hc : chain ptr.triple.slot = c at hfound
  have hhead := h.head_like hslot
  have hlt := lt_of_lt_of_le hslot hinv.fileTableLen_le
  have hread : readChars f (getSeekVal (insideFileIdx ptr) + 32 + 256) =
      readChars g (getSeekVal (insideFileIdx ptr) + 32 + 256) := by
    rw [hinv.getSeekVal_head ptr, readValue_slot hlt, readValue_slot (h.entryCount_eq ▸ hlt), hhead]
  rcases hlike with rfl | ⟨hdr, l, rfl, rfl, -, -⟩
  · cases hfound with
    | empty => rfl
    | absent ms hnot => rfl
    | head ms heq =>
      show (do return some (← readChars f _)) = (do return some (← readChars g _))
      rw [hread]
    | member as y bs heq =>
      have hy : y ∈ as ++ y :: bs := by simp
      have hylt := ((hinv.linked _ hslot _ hc).behind y hy).2
      show (do return some (← readChars f _)) = (do return some (← readChars g _))
      rw [hinv.getSeekVal_ofNat hylt, readValue_slot hylt, readValue_slot (h.entryCount_eq ▸ hylt),
        h.member_eq hinv hslot hc hy]
  · show (do return some (← readChars f _)) = (do return some (← readChars g _))
    rw [hread]

theorem Tracks.writeBatches_eq (h : Tracks f g) (hinv : FileInv num g chain) (ptr : KVMessage) :
    writeBatches f ptr = writeBatches g ptr := by
  obtain ⟨r', hr', -⟩ := search_found hinv ptr
  obtain ⟨r, hr, hlike⟩ := h.search hinv ptr hr'
  rw [writeBatches, writeBatches, hr, hr', ok_bind, ok_bind, h.length]
  rcases hlike with rfl | ⟨hdr, l, rfl, rfl, -, -⟩ <;> rfl

theorem Tracks.deleteBatches_eq (h : Tracks f g) (hinv : FileInv num g chain) (ptr : KVMessage) :
    deleteBatches f ptr = deleteBatches g ptr := by
  obtain ⟨r', hr', hfound⟩ := search_found hinv ptr
  obtain ⟨r, hr, hlike⟩ := h.search hinv ptr hr'
  rw [deleteBatches, deleteBatches, hr, hr', ok_bind, ok_bind]
  have hslot := slot_lt ptr.triple
  generalize hc : chain ptr.triple.slot = c at hfound
  cases hfound with
  | empty => rw [hlike.eq_of_ne (by rintro _ ⟨⟩)]
  | absent ms hnot => rw [hlike.eq_of_ne (by rintro _ ⟨⟩)]
  | member as y bs heq => rw [hlike.eq_of_ne (by rintro _ ⟨⟩)]
  | head ms heq =>
    cases ms with
    | nil =>
      obtain ⟨hleft, hright⟩ := hinv.lone_links hc
      rcases hlike with rfl | ⟨hdr, l, he, -, hne, -⟩
      · exact (if_pos ⟨hleft.trans hright.symm, hleft⟩).trans
          (if_pos ⟨hleft.trans hright.symm, hleft⟩).symm
      · cases he
        exact absurd hright hne
    | cons y bs =>
      have hy : y ∈ y :: bs := List.mem_cons_self
      have hlt := ((hinv.linked _ hslot _ hc).behind y hy).2
      have hlt' := h.entryCount_eq ▸ hlt
      have hsame := h.member_eq hinv hslot hc hy
      obtain ⟨l, rfl⟩ : ∃ l,
          r = .head { (entryAt g ptr.triple.slot).header with leftIdx := l } := by
        rcases hlike with rfl | ⟨hdr, l, he, rfl, -⟩
        · exact ⟨_, rfl⟩
        · obtain rfl := Search.head.inj he
          exact ⟨l, rfl⟩
      have hmore : ∀ l, ¬ (l = (entryAt g ptr.triple.slot).rightIdx ∧ l = insideFileIdx ptr) :=
        fun l hlone => hinv.rightIdx_ne_self hc (hlone.1.symm.trans hlone.2)
      have hne := hinv.rightIdx_ne hslot hc List.mem_cons_self
      refine (if_neg (hmore l)).trans (((if_neg hne).trans ?_).trans
        ((if_neg (hmore _)).trans (if_neg hne)).symm)
      -- both read the second entry
      dsimp only
      rw [hinv.getSeekVal_second hc, readU64_right hlt, readU64_right hlt', readU64_hash1 hlt,
        readU64_hash1 hlt', readU64_hash2 hlt, readU64_hash2 hlt', readChars_key hlt,
        readChars_key hlt', readValue_slot hlt, readValue_slot hlt', hsame]

/-! ## The same writes to both files -/

/-- The entry with fields `k, k+1, …` replaced by `ds`. -/
def FileEntry.setFields (k : Nat) (ds : List (List UInt8)) (e : FileEntry) : FileEntry where
  leftIdx := if k ≤ 0 ∧ 0 < k + ds.length then decodeU64 (ds.getD (0 - k) []) else e.leftIdx
  rightIdx := if k ≤ 1 ∧ 1 < k + ds.length then decodeU64 (ds.getD (1 - k) []) else e.rightIdx
  hash1 := if k ≤ 2 ∧ 2 < k + ds.length then decodeU64 (ds.getD (2 - k) []) else e.hash1
  hash2 := if k ≤ 3 ∧ 3 < k + ds.length then decodeU64 (ds.getD (3 - k) []) else e.hash2
  key := if k ≤ 4 ∧ 4 < k + ds.length then Chars256.ofText (ds.getD (4 - k) []) else e.key
  value := if k ≤ 5 ∧ 5 < k + ds.length then Chars256.ofText (ds.getD (5 - k) []) else e.value

theorem overlay_eq_setFields (f : List UInt8) (x k : Nat) (ds : List (List UInt8)) :
    overlay f x k ds = (entryAt f x).setFields k ds := by
  simp only [overlay, FileEntry.setFields, entryAt, apply_ite decodeU64,
    apply_ite Chars256.ofText]

theorem setFields_whole {e e' : FileEntry} (h : ds.length = 6) :
    e.setFields 0 ds = e'.setFields 0 ds := by
  simp [FileEntry.setFields, h]

theorem setFields_leftIdx (k : Nat) (ds : List (List UInt8)) (e e' : FileEntry) :
    (e.setFields k ds).leftIdx = (e'.setFields k ds).leftIdx ∨
      (e.setFields k ds).leftIdx = e.leftIdx := by
  by_cases hk : k ≤ 0 ∧ 0 < k + ds.length
  · left
    simp only [FileEntry.setFields, if_pos hk]
  · right
    simp only [FileEntry.setFields, if_neg hk]

/-- What one batch may touch in the file `g`: fields of an entry in use or of a head, or a whole
entry. -/
structure Allowed (g : List UInt8) (b : Batch) (y k : Nat) : Prop where
  pos : b.pos = y * 544 + offset entryWidths k
  fits : Fits k b.writes
  target : y < fileTableLen ∨ (entryAt g y).rightIdx ≠ maxUInt64 ∨ k = 0 ∧ b.writes.length = 6

/-- Entry `x` of `f'` and `g'`, after the same writes to `f` and `g`. -/
inductive StillStandsFor (g f' g' : List UInt8) (x : Nat) : Prop
  | same (h : entryAt f' x = entryAt g' x)
  | unused (hx : fileTableLen ≤ x) (hu : (entryAt g x).Unused) (h : entryAt g' x = entryAt g x)
  | head (hx : x < fileTableLen) (hnext : (entryAt g x).HasNext x)
    (h : entryAt f' x = { entryAt g' x with leftIdx := (entryAt f' x).leftIdx })
    (hl : (entryAt g' x).leftIdx = (entryAt g x).leftIdx)

theorem Tracks.stillStandsFor (h : Tracks f g) (x : Nat) : StillStandsFor g f g x := by
  cases h.entries x with
  | same h => exact .same h
  | unused hx hu => exact .unused hx hu rfl
  | head hx hnext h => exact .head hx hnext h rfl

/-- Whether a write succeeds, and how long it makes the file, depends on the length only. -/
theorem applyWrites_length {p : Nat} (hlen : f.length = g.length) (ds : List (List UInt8)) :
    (applyWrites f p ds).map List.length = (applyWrites g p ds).map List.length := by
  induction ds generalizing f g p with
  | nil => exact congrArg Except.ok hlen
  | cons d ds ih =>
    rw [applyWrites, applyWrites, writeBytes, writeBytes, hlen]
    split_ifs with hp hmax
    · rfl
    · rfl
    · apply ih
      rw [patch, patch]
      simp only [List.length_append, List.length_take, List.length_drop, hlen]

theorem map_length_bind {a b : Except Fault (List UInt8)}
    {u v : List UInt8 → Except Fault (List UInt8)}
    (h : a.map List.length = b.map List.length)
    (hnext : ∀ f g, f.length = g.length → (u f).map List.length = (v g).map List.length) :
    (a.bind u).map List.length = (b.bind v).map List.length := by
  cases a with
  | error e =>
    cases b with
    | error e' => exact congrArg Except.error (Except.error.inj h)
    | ok g => cases h
  | ok f =>
    cases b with
    | error e' => cases h
    | ok g => exact hnext f g (Except.ok.inj h)

theorem applyBatches_length (hlen : f.length = g.length) (bs : List Batch) :
    (applyBatches f bs).map List.length = (applyBatches g bs).map List.length := by
  induction bs generalizing f g with
  | nil => exact congrArg Except.ok hlen
  | cons b bs ih =>
    exact map_length_bind (applyWrites_length hlen b.writes) fun f g hlen => ih hlen

theorem eq_patches_of_applyWrites {p : Nat} (h : applyWrites f p ds = .ok f') :
    f' = patches f p ds ∧ (ds = [] ∨ p ≤ f.length) := by
  induction ds generalizing f p with
  | nil => exact ⟨(Except.ok.inj h).symm, Or.inl rfl⟩
  | cons d ds ih =>
    rw [applyWrites, writeBytes] at h
    split_ifs at h with hp hmax
    · cases h
    · cases h
    · exact ⟨(ih h).1, Or.inr (not_lt.1 hp)⟩

theorem entryAt_applyWrites {b : Batch} (hpos : b.pos = y * 544 + offset entryWidths k)
    (hfits : Fits k b.writes) (h : applyWrites f b.pos b.writes = .ok f') :
    entryAt f' = Function.update (entryAt f) y ((entryAt f y).setFields k b.writes) := by
  obtain ⟨rfl, hnil | hp⟩ := eq_patches_of_applyWrites h
  · have hsame : (entryAt f y).setFields k b.writes = entryAt f y := by
      have hnone : ∀ l, ¬ (k ≤ l ∧ l < k + b.writes.length) := by
        rw [hnil]
        exact fun l hl => absurd hl.2 (not_lt.2 hl.1)
      simp only [FileEntry.setFields, if_neg (hnone _)]
    rw [hsame, Function.update_eq_self, hnil]
    rfl
  · rw [hpos] at hp ⊢
    rw [entryAt_patches hp hfits, overlay_eq_setFields]

theorem StillStandsFor.batch {g₀ : List UInt8} {b : Batch} (h : StillStandsFor g₀ f g x)
    (hb : Allowed g₀ b y k) (hf : applyWrites f b.pos b.writes = .ok f')
    (hg : applyWrites g b.pos b.writes = .ok g') : StillStandsFor g₀ f' g' x := by
  have hef := entryAt_applyWrites hb.pos hb.fits hf
  have heg := entryAt_applyWrites hb.pos hb.fits hg
  by_cases hxy : x = y
  · subst hxy
    replace hef := (congrFun hef x).trans (Function.update_self ..)
    replace heg := (congrFun heg x).trans (Function.update_self ..)
    cases h with
    | same h => exact .same (by rw [hef, heg, h])
    | unused hx hu h =>
      rcases hb.target with htarget | htarget | ⟨rfl, hsix⟩
      · exact absurd htarget (not_lt.2 hx)
      · exact absurd hu.2 htarget
      · exact .same (by rw [hef, heg, setFields_whole hsix])
    | head hx hnext h hl =>
      have hlike : entryAt f' x = { entryAt g' x with leftIdx := (entryAt f' x).leftIdx } := by
        rw [hef, heg, h]
        rfl
      rcases setFields_leftIdx k b.writes (entryAt g x) (entryAt f x) with hw | hs
      · refine .same ?_
        rw [hlike, hef, ← hw, ← heg]
      · exact .head hx hnext hlike (by rw [heg, hs, hl])
  · replace hef := (congrFun hef x).trans (Function.update_of_ne hxy ..)
    replace heg := (congrFun heg x).trans (Function.update_of_ne hxy ..)
    cases h with
    | same h => exact .same (by rw [hef, heg, h])
    | unused hx hu h => exact .unused hx hu (heg.trans h)
    | head hx hnext h hl => exact .head hx hnext (by rw [hef, heg]; exact h) (by rw [heg, hl])

theorem StillStandsFor.batches {g₀ : List UInt8} {bs : List Batch} (h : StillStandsFor g₀ f g x)
    (hbs : ∀ b ∈ bs, ∃ y k, Allowed g₀ b y k) (hf : applyBatches f bs = .ok f')
    (hg : applyBatches g bs = .ok g') : StillStandsFor g₀ f' g' x := by
  induction bs generalizing f g with
  | nil =>
    obtain rfl := Except.ok.inj hf
    obtain rfl := Except.ok.inj hg
    exact h
  | cons b bs ih =>
    obtain ⟨y, k, hb⟩ := hbs b List.mem_cons_self
    rw [applyBatches] at hf hg
    cases hf₁ : applyWrites f b.pos b.writes with
    | error e => rw [hf₁] at hf; cases hf
    | ok f₁ =>
      cases hg₁ : applyWrites g b.pos b.writes with
      | error e => rw [hg₁] at hg; cases hg
      | ok g₁ =>
        rw [hf₁] at hf
        rw [hg₁] at hg
        exact ih (h.batch hb hf₁ hg₁) (fun b' hb' => hbs b' (List.mem_cons_of_mem _ hb')) hf hg

/-- In a file with the invariant, the left link of a head tells whether entries are behind it. -/
theorem FileInv.hasNext_iff (h : FileInv num g chain) (hx : x < fileTableLen) :
    (entryAt g x).HasNext x ↔
      fileTableLen ≤ (entryAt g x).leftIdx.toNat ∧ (entryAt g x).leftIdx ≠ maxUInt64 := by
  cases hc : chain x with
  | none =>
    obtain ⟨hl, hr⟩ := h.unused x hx hc
    exact iff_of_false (fun hn => hn.2 hr) fun hn => hn.2 hl
  | some ms =>
    have hring := (h.linked x hx ms hc).ring
    cases ms with
    | nil =>
      refine iff_of_false (fun hn => hn.1 hring.1) fun hn => ?_
      exact absurd (hn.1.trans_eq hring.2) (not_le.2 hx)
    | cons y bs =>
      have hbehind := (h.linked x hx _ hc).behind
      have hy := hbehind y List.mem_cons_self
      have hlast : left (entryAt g) x ∈ y :: bs := by
        have hprev := hring.2.2.prev_end_mem
        exact hprev
      refine iff_of_true ⟨fun hn => ?_, h.rightIdx_ne hx hc List.mem_cons_self⟩ ⟨?_, ?_⟩
      · have hyx : y = x := hring.1.symm.trans hn
        exact absurd hx (not_lt.2 (hyx ▸ hy.1))
      · exact (hbehind _ hlast).1
      · exact h.ne_maxUInt64 (hbehind _ hlast).2

/-- **The same writes to both files**: the first tracks the second again. -/
theorem Tracks.applyBatches {num' : Nat} {chain' : Nat → Option (List Nat)} {bs : List Batch}
    (h : Tracks f g) (hinv : FileInv num g chain) (hinv' : FileInv num' g' chain')
    (hbs : ∀ b ∈ bs, ∃ y k, Allowed g b y k) (hg : applyBatches g bs = .ok g') :
    ∃ f', applyBatches f bs = .ok f' ∧ Tracks f' g' := by
  have hlen := applyBatches_length h.length bs
  rw [hg] at hlen
  cases hf : KeyValueStore.applyBatches f bs with
  | error e => rw [hf] at hlen; cases hlen
  | ok f' =>
    rw [hf] at hlen
    refine ⟨f', rfl, Except.ok.inj hlen, ?_⟩
    intro x
    cases (h.stillStandsFor x).batches hbs hf hg with
    | same h => exact .same h
    | unused hx hu h => exact .unused hx (h ▸ hu)
    | head hx hnext h hl =>
      refine .head hx ((hinv'.hasNext_iff hx).2 ?_) h
      rw [hl]
      exact (hinv.hasNext_iff hx).1 hnext

/-! ## What the operations write -/

theorem allowed_head {b : Batch} (hy : y < fileTableLen)
    (hpos : b.pos = y * 544 + offset entryWidths k) (hfits : Fits k b.writes) :
    ∃ y k, Allowed g b y k := ⟨y, k, hpos, hfits, Or.inl hy⟩

theorem FileInv.allowed {b : Batch} (h : FileInv num g chain) (hi : i < fileTableLen)
    (hc : chain i = some ms) (hy : y ∈ i :: ms) (hpos : b.pos = y * 544 + offset entryWidths k)
    (hfits : Fits k b.writes) : ∃ y k, Allowed g b y k :=
  ⟨y, k, hpos, hfits, Or.inr (Or.inl (h.rightIdx_ne hi hc hy))⟩

/-- The new entry that `write_to_db` appends to the chain of its key. -/
def newEntry (g : List UInt8) (ptr : KVMessage) : Batch :=
  ⟨g.length, [encodeU64 (entryAt g ptr.triple.slot).leftIdx, encodeU64 (insideFileIdx ptr),
    encodeU64 ptr.hash1, encodeU64 ptr.hash2, ptr.key.bytes, ptr.value.bytes]⟩

/-- The batches of `write_to_db`, given the chain of the key. -/
inductive Written (g : List UInt8) (ptr : KVMessage) : Option (List Nat) → List Batch → Prop
  | first : Written g ptr none [⟨ptr.triple.slot * 544, [encodeU64 (insideFileIdx ptr),
      encodeU64 (insideFileIdx ptr), encodeU64 ptr.hash1, encodeU64 ptr.hash2, ptr.key.bytes,
      ptr.value.bytes]⟩]
  | value (ms : List Nat) (y : Nat) (hy : y ∈ ptr.triple.slot :: ms)
    (h : (entryAt g y).triple = ptr.triple) :
    Written g ptr (some ms) [⟨y * 544 + 32 + 256, [ptr.value.bytes]⟩]
  | second (ms : List Nat) (hlone : (entryAt g ptr.triple.slot).leftIdx = insideFileIdx ptr) :
    Written g ptr (some ms) [newEntry g ptr, ⟨ptr.triple.slot * 544,
      [encodeU64 (UInt64.ofNat (entryCount g)), encodeU64 (UInt64.ofNat (entryCount g))]⟩]
  | last (ms : List Nat) (hlast : (entryAt g ptr.triple.slot).leftIdx ≠ insideFileIdx ptr) :
    Written g ptr (some ms) [newEntry g ptr,
      ⟨left (entryAt g) ptr.triple.slot * 544 + 8,
        [encodeU64 (UInt64.ofNat (entryCount g))]⟩,
      ⟨ptr.triple.slot * 544, [encodeU64 (UInt64.ofNat (entryCount g))]⟩]

theorem writeBatches_written (h : FileInv num g chain) (ptr : KVMessage) :
    ∃ bs, writeBatches g ptr = .ok bs ∧ Written g ptr (chain ptr.triple.slot) bs := by
  obtain ⟨r, hr, hfound⟩ := search_found h ptr
  rw [writeBatches, hr, ok_bind]
  have hslot := slot_lt ptr.triple
  dsimp only
  rw [h.getSeekVal_head ptr]
  generalize hc : chain ptr.triple.slot = c at hfound
  cases hfound with
  | empty => exact ⟨_, rfl, .first⟩
  | head ms heq => exact ⟨_, rfl, .value ms _ List.mem_cons_self heq⟩
  | member as y bs heq =>
    have hy : y ∈ ptr.triple.slot :: (as ++ y :: bs) := by simp
    dsimp only
    rw [h.getSeekVal_ofNat (h.slot_lt hslot hc hy)]
    exact ⟨_, rfl, .value _ y hy heq⟩
  | absent ms hnot =>
    have hlast := (h.linked _ hslot ms hc).ring.prev_end_mem
    dsimp only
    rw [h.getSeekVal_slot (h.slot_lt hslot hc hlast)]
    by_cases hlone : (entryAt g ptr.triple.slot).leftIdx = insideFileIdx ptr
    · exact ⟨_, if_pos hlone, .second ms hlone⟩
    · exact ⟨_, if_neg hlone, .last ms hlone⟩

theorem newEntry_allowed (h : FileInv num g chain) (ptr : KVMessage) :
    ∃ y k, Allowed g (newEntry g ptr) y k :=
  ⟨entryCount g, 0, h.length_eq, fits_entry _ _ _ _ _ _, Or.inr (Or.inr ⟨rfl, rfl⟩)⟩

theorem FileInv.writeBatches_allowed (h : FileInv num g chain) {bs : List Batch}
    (hbs : writeBatches g ptr = .ok bs) : ∀ b ∈ bs, ∃ y k, Allowed g b y k := by
  obtain ⟨bs', hbs', hwritten⟩ := writeBatches_written h ptr
  obtain rfl := Except.ok.inj (hbs.symm.trans hbs')
  have hslot := KeyValueStore.slot_lt ptr.triple
  generalize hc : chain ptr.triple.slot = c at hwritten
  cases hwritten with
  | first =>
    simp only [List.forall_mem_cons, List.not_mem_nil, false_implies, implies_true, and_true]
    exact allowed_head (k := 0) hslot rfl (fits_entry _ _ _ _ _ _)
  | value ms y hy heq =>
    simp only [List.forall_mem_cons, List.not_mem_nil, false_implies, implies_true, and_true]
    exact h.allowed (k := 5) hslot hc hy rfl (fits_value _)
  | second ms hlone =>
    simp only [List.forall_mem_cons, List.not_mem_nil, false_implies, implies_true, and_true]
    exact ⟨newEntry_allowed h ptr, allowed_head (k := 0) hslot rfl (fits_links _ _)⟩
  | last ms hlast =>
    have hmem := (h.linked _ hslot ms hc).ring.prev_end_mem
    simp only [List.forall_mem_cons, List.not_mem_nil, false_implies, implies_true, and_true]
    exact ⟨newEntry_allowed h ptr, h.allowed (k := 1) hslot hc hmem rfl (fits_right _),
      allowed_head (k := 0) hslot rfl (fits_left _)⟩

/-- The batches of `delete_from_db`, given the chain of the key. -/
inductive Deleted (g : List UInt8) (ptr : KVMessage) :
    Option (List Nat) → Option (List Batch) → Prop
  | none (c : Option (List Nat)) : Deleted g ptr c none
  | only (h : (entryAt g ptr.triple.slot).triple = ptr.triple) :
    Deleted g ptr (some []) (some [⟨ptr.triple.slot * 544, clearedHeader⟩])
  | head (y : Nat) (bs : List Nat) (h : (entryAt g ptr.triple.slot).triple = ptr.triple) :
    Deleted g ptr (some (y :: bs)) (some [⟨y * 544, clearedHeader⟩,
      ⟨right (entryAt g) y * 544, [encodeU64 (insideFileIdx ptr)]⟩,
      ⟨ptr.triple.slot * 544 + 8, [encodeU64 (entryAt g y).rightIdx,
        encodeU64 (entryAt g y).hash1, encodeU64 (entryAt g y).hash2, (entryAt g y).key.bytes,
        (entryAt g y).value.bytes]⟩])
  | member (as : List Nat) (y : Nat) (bs : List Nat) (h : (entryAt g y).triple = ptr.triple)
    (hhead : (entryAt g ptr.triple.slot).triple ≠ ptr.triple) :
    Deleted g ptr (some (as ++ y :: bs)) (some
      [⟨y * 544, clearedHeader ++ [emptyString.bytes, emptyString.bytes]⟩,
      ⟨left (entryAt g) y * 544 + 8, [encodeU64 (entryAt g y).rightIdx]⟩,
      ⟨right (entryAt g) y * 544, [encodeU64 (entryAt g y).leftIdx]⟩])

theorem deleteBatches_deleted (h : FileInv num g chain) (ptr : KVMessage) :
    ∃ o, deleteBatches g ptr = .ok o ∧ Deleted g ptr (chain ptr.triple.slot) o := by
  obtain ⟨r, hr, hfound⟩ := search_found h ptr
  rw [deleteBatches, hr, ok_bind]
  have hslot := slot_lt ptr.triple
  dsimp only
  rw [h.getSeekVal_head ptr]
  generalize hc : chain ptr.triple.slot = c at hfound
  cases hfound with
  | empty => exact ⟨_, rfl, .none _⟩
  | absent ms hnot => exact ⟨_, rfl, .none _⟩
  | member as y bs heq =>
    have hchain := h.linked _ hslot _ hc
    have hy : y ∈ ptr.triple.slot :: (as ++ y :: bs) := by simp
    have hleft := hchain.left_mem (x := y) (by simp)
    -- the head is compared first, so it must not match
    have hhead : (entryAt g ptr.triple.slot).triple ≠ ptr.triple := by
      intro hhead
      apply hchain.head_triple_not_mem
      rw [map_fst_pairAt, hhead, ← heq]
      exact List.mem_map_of_mem (f := fun x => (entryAt g x).triple) (by simp)
    refine ⟨_, rfl, ?_⟩
    rw [h.getSeekVal_ofNat (h.slot_lt hslot hc hy)]
    have hl : getSeekVal (entryAt g y).header.leftIdx = left (entryAt g) y * 544 :=
      h.getSeekVal_slot (h.slot_lt hslot hc hleft)
    have hr : getSeekVal (entryAt g y).header.rightIdx = right (entryAt g) y * 544 :=
      h.getSeekVal_slot (h.slot_lt hslot hc (hchain.right_mem hy))
    rw [hl, hr]
    exact .member as y bs heq hhead
  | head ms heq =>
    cases ms with
    -- the entry is alone in its chain
    | nil =>
      obtain ⟨hleft, hright⟩ := h.lone_links hc
      exact ⟨_, if_pos ⟨hleft.trans hright.symm, hleft⟩, .only heq⟩
    -- the second entry is moved to the place of the head
    | cons y bs =>
      have hy : y ∈ ptr.triple.slot :: y :: bs := by simp
      have hlt := h.slot_lt hslot hc hy
      have hne := h.rightIdx_ne hslot hc (x := ptr.triple.slot) List.mem_cons_self
      have hmore := h.rightIdx_ne_self hc
      refine ⟨_, (if_neg fun hlone => hmore (hlone.1.symm.trans hlone.2)).trans
        ((if_neg hne).trans ?_), .head y bs heq⟩
      have hseek : getSeekVal (entryAt g y).rightIdx = right (entryAt g) y * 544 :=
        h.getSeekVal_slot (h.slot_lt hslot hc ((h.linked _ hslot _ hc).right_mem hy))
      rw [h.getSeekVal_second hc, readU64_right hlt, ok_bind, readU64_hash1 hlt, ok_bind,
        readU64_hash2 hlt, ok_bind, readChars_key hlt, ok_bind, readValue_slot hlt, ok_bind, hseek,
        show y * 544 + 32 + 256 + 256 - sizeOfOneEntry = y * 544 by rw [sizeOfOneEntry_eq]; omega]
      rfl

theorem FileInv.deleteBatches_allowed (h : FileInv num g chain) {bs : List Batch}
    (hbs : deleteBatches g ptr = .ok (some bs)) : ∀ b ∈ bs, ∃ y k, Allowed g b y k := by
  obtain ⟨o, ho, hdeleted⟩ := deleteBatches_deleted h ptr
  obtain rfl := Except.ok.inj (hbs.symm.trans ho)
  have hslot := KeyValueStore.slot_lt ptr.triple
  generalize hc : chain ptr.triple.slot = c at hdeleted
  cases hdeleted with
  | only heq =>
    simp only [List.forall_mem_cons, List.not_mem_nil, false_implies, implies_true, and_true]
    exact allowed_head (k := 0) hslot rfl fits_cleared
  | head y bs heq =>
    have hy : y ∈ ptr.triple.slot :: y :: bs := by simp
    have hnext := (h.linked _ hslot _ hc).right_mem hy
    simp only [List.forall_mem_cons, List.not_mem_nil, false_implies, implies_true, and_true]
    exact ⟨h.allowed (k := 0) hslot hc hy rfl fits_cleared,
      h.allowed (k := 0) hslot hc hnext rfl (fits_left _),
      allowed_head (k := 1) hslot rfl (fits_tail _ _ _ _ _)⟩
  | member as y bs heq hhead =>
    have hy : y ∈ ptr.triple.slot :: (as ++ y :: bs) := by simp
    have hchain := h.linked _ hslot _ hc
    have hnext := hchain.right_mem hy
    have hprev := hchain.left_mem (x := y) (by simp)
    simp only [List.forall_mem_cons, List.not_mem_nil, false_implies, implies_true, and_true]
    exact ⟨h.allowed (k := 0) hslot hc hy rfl (fits_deleted _ _),
      h.allowed (k := 1) hslot hc hprev rfl (fits_right _),
      h.allowed (k := 0) hslot hc hnext rfl (fits_left _)⟩

/-! ## Files and stores that lag behind -/

variable {m : Triple → Option Chars256}

/-- The file tracks one that holds the map `m`. -/
def LagsRep (num : Nat) (f : List UInt8) (m : Triple → Option Chars256) : Prop :=
  ∃ g, Tracks f g ∧ FileRep num g m

theorem FileRep.lags (h : FileRep num f m) : LagsRep num f m := ⟨f, Tracks.refl f, h⟩

theorem LagsRep.read (h : LagsRep num f m) (hf : ptr.triple.file = num) :
    readValue f ptr = .ok (m ptr.triple) := by
  obtain ⟨g, htracks, hrep⟩ := h
  obtain ⟨chain, hinv, hm⟩ := hrep
  rw [htracks.readValue_eq hinv]
  exact KeyValueStore.readValue_eq ⟨chain, hinv, hm⟩ hf

theorem LagsRep.write (ptr : KVMessage) (h : LagsRep num f m) (hf : ptr.triple.file = num) :
    SucceedsUnlessFull ((writeBatches f ptr).bind (applyBatches f)) fun f' =>
      LagsRep num f' (Function.update m ptr.triple (some ptr.value)) := by
  obtain ⟨g, htracks, chain, hinv, hm⟩ := h
  obtain ⟨bs, hbs, -⟩ := writeBatches_written hinv ptr
  have hspec := write_spec ptr ⟨chain, hinv, hm⟩ hf
  rw [htracks.writeBatches_eq hinv, hbs]
  rw [hbs] at hspec
  rcases hspec with hfull | ⟨g', hg', hrep'⟩
  · have hlen := applyBatches_length htracks.length bs
    rw [show applyBatches g bs = .error .fileTooLarge from hfull] at hlen
    cases hf : applyBatches f bs with
    | error e =>
      rw [hf] at hlen
      exact Or.inl (hf.trans (congrArg Except.error (Except.error.inj hlen)))
    | ok f' => rw [hf] at hlen; cases hlen
  · obtain ⟨chain', hinv', hm'⟩ := hrep'
    obtain ⟨f', hf', htracks'⟩ :=
      htracks.applyBatches hinv hinv' (hinv.writeBatches_allowed hbs) hg'
    exact Or.inr ⟨f', hf', g', htracks', chain', hinv', hm'⟩

theorem LagsRep.delete (ptr : KVMessage) (h : LagsRep num f m) (hf : ptr.triple.file = num) :
    (m ptr.triple = none ∧ deleteBatches f ptr = .ok none) ∨
    ((m ptr.triple).isSome ∧ ∃ bs f', deleteBatches f ptr = .ok (some bs) ∧
      applyBatches f bs = .ok f' ∧ LagsRep num f' (Function.update m ptr.triple none)) := by
  obtain ⟨g, htracks, chain, hinv, hm⟩ := h
  rw [htracks.deleteBatches_eq hinv]
  rcases delete_spec ptr ⟨chain, hinv, hm⟩ hf with hnone | ⟨hsome, bs, g', hbs, hg', hrep'⟩
  · exact Or.inl hnone
  · obtain ⟨chain', hinv', hm'⟩ := hrep'
    obtain ⟨f', hf', htracks'⟩ :=
      htracks.applyBatches hinv hinv' (hinv.deleteBatches_allowed hbs) hg'
    exact Or.inr ⟨hsome, bs, f', hbs, hf', g', htracks', chain', hinv', hm'⟩

/-- **Files that lag behind serve as well as those with the invariant.** -/
theorem fileModel_lagsRep : FileModel LagsRep where
  congr h heq := by
    obtain ⟨g, htracks, hrep⟩ := h
    exact ⟨g, htracks, hrep.congr heq⟩
  initial h := (initialFile_rep h).lags
  read := LagsRep.read
  write := LagsRep.write
  delete := LagsRep.delete

end KeyValueStore
