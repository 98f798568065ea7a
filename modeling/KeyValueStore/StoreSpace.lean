import KeyValueStore.StoreTracks

/-!
# The space that the store takes

`write_to_db` appends an entry to a file if it does not find the key and the head entry of the key's
chain is in use. All its other writes, and all those of `delete_from_db`, are inside the file. The
entry that a deletion leaves unused behind the heads is never written again.

* `write_length`, `delete_length` — the length of a file after each operation.
* `store_space` — the length of every file after any sequence of calls, counted in the map.
* `rewrites_grow_file` — a file that deletions and writes of one key make longer each time.
-/

namespace KeyValueStore

open ByteBuffer Run

set_option maxRecDepth 4096

variable {f f' : List UInt8} {num y : Nat} {chain : Nat → Option (List Nat)}
  {m : Triple → Option Chars256} {ptr : KVMessage}

/-! ## Writes inside a file -/

/-- The batch writes no byte behind the first `n`. -/
def Batch.Within (n : Nat) (b : Batch) : Prop := b.pos + b.writes.flatten.length ≤ n

theorem applyWrites_extends {p : Nat} (ds : List (List UInt8)) (hp : p ≤ f.length)
    (hmax : f.length ≤ maxFileOffset) :
    Ensures (applyWrites f p ds) fun f' =>
      f'.length = max f.length (p + ds.flatten.length) ∧ f'.length ≤ maxFileOffset := by
  intro f' hf'
  rw [applyWrites_eq ds hp (by omega)] at hf'
  split_ifs at hf' with hfits
  obtain rfl := Except.ok.inj hf'
  have hlen := length_patches hp ds
  omega

theorem applyBatches_within {bs : List Batch} (hmax : f.length ≤ maxFileOffset)
    (hbs : ∀ b ∈ bs, b.Within f.length) :
    Ensures (applyBatches f bs) fun f' => f'.length = f.length := by
  induction bs generalizing f with
  | nil => exact Ensures.ok rfl
  | cons b bs ih =>
    obtain ⟨hb, hbs⟩ := List.forall_mem_cons.1 hbs
    have hend : b.pos + b.writes.flatten.length ≤ f.length := hb
    refine (applyWrites_extends b.writes (by omega) hmax).bind fun f₁ hf₁ => ?_
    have hlen : f₁.length = f.length := by omega
    rw [← hlen] at hmax hbs ⊢
    exact ih hmax hbs

theorem applyBatches_atEnd {ds : List (List UInt8)} {bs : List Batch}
    (hmax : f.length ≤ maxFileOffset) (hbs : ∀ b ∈ bs, b.Within f.length) :
    Ensures (applyBatches f (⟨f.length, ds⟩ :: bs)) fun f' =>
      f'.length = f.length + ds.flatten.length := by
  refine (applyWrites_extends ds le_rfl hmax).bind fun f₁ hf₁ => ?_
  have hlen : f₁.length = f.length + ds.flatten.length := by omega
  rw [← hlen]
  refine applyBatches_within hf₁.2 fun b hb => ?_
  have hend : b.pos + b.writes.flatten.length ≤ f.length := hbs b hb
  show b.pos + b.writes.flatten.length ≤ f₁.length
  omega

/-- A batch that ends in the slot of an index is inside the file. -/
theorem FileInv.within (h : FileInv num f chain) {idx : UInt64} (hidx : idx.toNat < entryCount f)
    {p : Nat} {ds : List (List UInt8)} (hds : p + ds.flatten.length ≤ getSeekVal idx + 544) :
    Batch.Within f.length ⟨p, ds⟩ := by
  rw [h.getSeekVal_slot hidx] at hds
  exact hds.trans (slot_end_le hidx)

/-! ## One file -/

/-- The write appends an entry: the triple is not stored, but another one of its chain is. -/
def Appends (m : Triple → Option Chars256) (t : Triple) : Prop :=
  m t = none ∧ ∃ t', Filed t.file t.slot t' ∧ (m t').isSome

theorem Stores.head_isSome (hinv : FileInv num f chain) (hm : Stores num f chain m) {t : Triple}
    {ms : List Nat} (hc : chain t.slot = some ms) :
    ∃ t', Filed num t.slot t' ∧ (m t').isSome := by
  have hchain := hinv.linked _ (KeyValueStore.slot_lt t) ms hc
  obtain ⟨hslot, hfile⟩ := hchain.owner t.slot List.mem_cons_self
  have hfiled : Filed num t.slot (entryAt f t.slot).triple := ⟨hfile, hslot⟩
  refine ⟨_, hfiled, ?_⟩
  rw [Stores.eq_some hm hfiled.1 (by rw [hfiled.2]; exact hc) (by rw [hfiled.2]; simp) rfl]
  rfl

theorem not_appends_of_some {t : Triple} {v : Chars256} (h : m t = some v) : ¬ Appends m t :=
  fun happ => by
    rw [happ.1] at h
    cases h

theorem FileInv.insideFileIdx_lt (h : FileInv num f chain) (ptr : KVMessage) :
    (insideFileIdx ptr).toNat < entryCount f :=
  lt_of_lt_of_le (KeyValueStore.insideFileIdx_lt ptr) h.fileTableLen_le

/-- **Where a write goes**: inside the file, unless it appends an entry, with its first batch. -/
theorem write_within (h : FileRep num f m) (ptr : KVMessage) (hf : ptr.triple.file = num) :
    Ensures (writeBatches f ptr) fun bs =>
      (¬ Appends m ptr.triple ∧ ∀ b ∈ bs, b.Within f.length) ∨
        (Appends m ptr.triple ∧ ∃ ds rest, bs = ⟨f.length, ds⟩ :: rest ∧
          ds.flatten.length = sizeOfOneEntry ∧ ∀ b ∈ rest, b.Within f.length) := by
  obtain ⟨chain, hinv, hm⟩ := h
  have hslot := slot_lt ptr.triple
  have hhead := hinv.insideFileIdx_lt ptr
  obtain ⟨r, hr, hfound⟩ := search_found hinv ptr
  rw [writeBatches, hr, ok_bind]
  generalize hc : chain ptr.triple.slot = c at hfound
  cases hfound with
  | empty =>
    have hnot : ¬ Appends m ptr.triple := by
      rintro ⟨-, t', ⟨hfile, hslot'⟩, hsome⟩
      rw [hm.eq_none_of_empty (hfile.trans hf) (by rw [hslot']; exact hc)] at hsome
      cases hsome
    refine Ensures.ok (Or.inl ⟨hnot, List.forall_mem_singleton.2 ?_⟩)
    exact hinv.within hhead (by simp [length_bytes])
  | head ms hmatch =>
    have hsome := hm.eq_some hf hc List.mem_cons_self hmatch
    refine Ensures.ok (Or.inl ⟨not_appends_of_some hsome, List.forall_mem_singleton.2 ?_⟩)
    exact hinv.within hhead (by simp [length_bytes])
  | member as y bs hmatch =>
    have hmem : y ∈ ptr.triple.slot :: (as ++ y :: bs) := by simp
    have hlt := hinv.slot_lt hslot hc hmem
    have hsome := hm.eq_some hf hc hmem hmatch
    refine Ensures.ok (Or.inl ⟨not_appends_of_some hsome, List.forall_mem_singleton.2 ?_⟩)
    exact hinv.within (by rwa [toNat_ofNat_slot hinv hlt.le]) (by simp [length_bytes])
  -- the only case in which an entry is appended
  | absent ms hnot =>
    have happ : Appends m ptr.triple :=
      ⟨hm.eq_none_of_absent hf hc hnot, by rw [hf]; exact hm.head_isSome hinv hc⟩
    have hlast : (entryAt f ptr.triple.slot).leftIdx.toNat < entryCount f :=
      hinv.slot_lt hslot hc (hinv.linked _ hslot ms hc).ring.prev_end_mem
    have hentry : ∀ l r h₁ h₂, [encodeU64 l, encodeU64 r, encodeU64 h₁, encodeU64 h₂,
        ptr.key.bytes, ptr.value.bytes].flatten.length = sizeOfOneEntry := by
      intro l r h₁ h₂
      simp [length_bytes, sizeOfOneEntry_eq]
    dsimp only
    split_ifs
    · refine Ensures.ok (Or.inr ⟨happ, _, _, rfl, hentry .., ?_⟩)
      exact List.forall_mem_singleton.2 (hinv.within hhead (by simp))
    · refine Ensures.ok (Or.inr ⟨happ, _, _, rfl, hentry .., ?_⟩)
      exact List.forall_mem_cons.2 ⟨hinv.within hlast (by simp),
        List.forall_mem_singleton.2 (hinv.within hhead (by simp))⟩

open Classical in
/-- **A write makes the file one entry longer, or leaves its length.** -/
theorem write_length (h : FileRep num f m) (ptr : KVMessage) (hf : ptr.triple.file = num) :
    Ensures ((writeBatches f ptr).bind (applyBatches f)) fun f' =>
      f'.length = f.length + if Appends m ptr.triple then sizeOfOneEntry else 0 := by
  have hmax : f.length ≤ maxFileOffset := h.choose_spec.1.small
  refine (write_within h ptr hf).bind fun bs hbs => ?_
  rcases hbs with ⟨hnot, hwithin⟩ | ⟨happ, ds, rest, rfl, hlen, hwithin⟩
  · simp only [if_neg hnot, add_zero]
    exact applyBatches_within hmax hwithin
  · simp only [if_pos happ]
    rw [← hlen]
    exact applyBatches_atEnd hmax hwithin

/-- **A deletion leaves the length of the file.** -/
theorem delete_length (h : FileRep num f m) (ptr : KVMessage) (bs : List Batch)
    (hbs : deleteBatches f ptr = .ok (some bs)) :
    Ensures (applyBatches f bs) fun f' => f'.length = f.length := by
  obtain ⟨chain, hinv, -⟩ := h
  apply applyBatches_within hinv.small
  have hslot := slot_lt ptr.triple
  have hhead := hinv.insideFileIdx_lt ptr
  obtain ⟨r, hr, hfound⟩ := search_found hinv ptr
  rw [deleteBatches, hr] at hbs
  simp only [ok_bind] at hbs
  generalize hc : chain ptr.triple.slot = c at hfound
  cases hfound with
  | empty => cases hbs
  | absent ms hnot => cases hbs
  | member as y bs' hmatch =>
    have hy : y ∈ as ++ y :: bs' := by simp
    have hchain := hinv.linked _ hslot _ hc
    have hlt : ∀ x ∈ ptr.triple.slot :: (as ++ y :: bs'), x < entryCount f := fun x hx =>
      hinv.slot_lt hslot hc hx
    have hself := hlt y (List.mem_cons_of_mem _ hy)
    dsimp only [FileEntry.header] at hbs
    obtain rfl := Option.some.inj (Except.ok.inj hbs)
    refine List.forall_mem_cons.2 ⟨?_, List.forall_mem_cons.2 ⟨?_, List.forall_mem_singleton.2 ?_⟩⟩
    · exact hinv.within (by rwa [toNat_ofNat_slot hinv hself.le])
        (by simp [clearedHeader, length_bytes])
    · exact hinv.within (hlt _ (hchain.left_mem hy)) (by simp)
    · exact hinv.within (hlt _ (hchain.right_mem (List.mem_cons_of_mem _ hy))) (by simp)
  | head ms hmatch =>
    dsimp only at hbs
    cases ms with
    | nil =>
      obtain ⟨hleft, hright⟩ := hinv.lone_links hc
      rw [if_pos ⟨hleft.trans hright.symm, hleft⟩] at hbs
      obtain rfl := Option.some.inj (Except.ok.inj hbs)
      exact List.forall_mem_singleton.2 (hinv.within hhead (by simp [clearedHeader]))
    -- the second entry moves to the head; its slot stays, cleared
    | cons y bs' =>
      have hchain := hinv.linked _ hslot _ hc
      have hmem : y ∈ ptr.triple.slot :: y :: bs' := by simp
      have hlt := hinv.slot_lt hslot hc hmem
      have hnext : right (entryAt f) y < entryCount f :=
        hinv.slot_lt hslot hc (hchain.right_mem hmem)
      have hry : (entryAt f ptr.triple.slot).rightIdx.toNat = y := hchain.ring.1
      have hmore := hinv.rightIdx_ne_self hc
      have hlinked : (entryAt f ptr.triple.slot).header.rightIdx ≠ maxUInt64 :=
        hinv.ne_maxUInt64 (hry.symm ▸ hlt)
      rw [if_neg fun hlone => hmore (hlone.1.symm.trans hlone.2), if_neg hlinked,
        hinv.getSeekVal_second hc, readU64_right hlt, ok_bind, readU64_hash1 hlt, ok_bind,
        readU64_hash2 hlt, ok_bind, readChars_key hlt, ok_bind, readValue_slot hlt] at hbs
      obtain rfl := Option.some.inj (Except.ok.inj hbs)
      have hend := slot_end_le hlt
      refine List.forall_mem_cons.2
        ⟨?_, List.forall_mem_cons.2 ⟨?_, List.forall_mem_singleton.2 ?_⟩⟩
      · show _ + _ ≤ f.length
        simp only [clearedHeader, sizeOfOneEntry_eq, List.length_flatten]
        simp
        omega
      · exact hinv.within hnext (by simp)
      · exact hinv.within hhead (by simp [length_bytes])

/-! ## The store -/

/-- The length of a file. One that does not exist yet is created with its blank entries. -/
def KVStore.fileLength (s : KVStore) (num : Nat) : Nat :=
  (s.files num).elim (fileTableLen * sizeOfOneEntry) List.length

variable {s : KVStore}

open Classical in
theorem KVStore.writeToDb_length (h : StoreRep s m) (ptr : KVMessage) :
    Ensures (s.writeToDb ptr) fun s' => ∃ f',
      s'.files = Function.update s.files ptr.triple.file (some f') ∧
      f'.length = s.fileLength ptr.triple.file +
        if Appends m ptr.triple then sizeOfOneEntry else 0 := by
  rw [KVStore.writeToDb, KVStore.writeToDbIf]
  show Ensures (if s.fileExistsStatus ptr.triple.file = false then _ else _) _
  cases hbit : s.fileExistsStatus ptr.triple.file with
  | false =>
    obtain ⟨hnone, hm⟩ := h.absent _ (file_lt _) hbit
    have hnew : s.fileLength ptr.triple.file = initialFile.length := by
      rw [KVStore.fileLength, hnone, length_initialFile]
      rfl
    rw [if_pos rfl, if_pos rfl, hnew]
    refine (write_length (initialFile_rep hm) ptr rfl).bind₂ fun f' hf' => ?_
    exact Ensures.ok ⟨f', rfl, hf'⟩
  | true =>
    obtain ⟨f, hf, hrep⟩ := h.present _ (file_lt _) hbit
    have hold : s.fileLength ptr.triple.file = f.length := by
      rw [KVStore.fileLength, hf]
      rfl
    rw [if_neg (by decide), KVStore.openFile, if_pos rfl,
      show s.files (KVStore.fileIdx ptr) = some f from hf, hold]
    refine (write_length hrep ptr rfl).bind₂ fun f' hf' => ?_
    exact Ensures.ok ⟨f', rfl, hf'⟩

theorem KVStore.deleteFromDb_length (h : StoreRep s m) (ptr : KVMessage) :
    Ensures (s.deleteFromDb ptr) fun r =>
      ∀ num, (r.2.files num).map List.length = (s.files num).map List.length := by
  rw [KVStore.deleteFromDb, KVStore.deleteFromDbIf]
  show Ensures (if s.fileExistsStatus ptr.triple.file = false then _ else _) _
  cases hbit : s.fileExistsStatus ptr.triple.file with
  | false =>
    rw [if_pos rfl]
    exact Ensures.ok fun _ => rfl
  | true =>
    obtain ⟨f, hf, hrep⟩ := h.present _ (file_lt _) hbit
    have hopen : s.files (KVStore.fileIdx ptr) = some f := hf
    rw [if_neg (by decide), KVStore.openFile, if_pos rfl, hopen]
    show Ensures ((deleteBatches f ptr).bind _) _
    cases hbs : deleteBatches f ptr with
    | error e => exact Ensures.error
    | ok o =>
      cases o with
      | none => exact Ensures.ok (a := (false, s)) fun _ => rfl
      | some bs =>
        have hlen := delete_length hrep ptr bs hbs
        refine Ensures.bind (x := applyBatches f bs) hlen fun f' hf' => ?_
        refine Ensures.ok (a := (true, s.setFile (KVStore.fileIdx ptr) f')) fun num => ?_
        show (Function.update s.files (KVStore.fileIdx ptr) (some f') num).map List.length = _
        by_cases hnum : num = KVStore.fileIdx ptr
        · rw [hnum, Function.update_self, hopen]
          exact congrArg some hf'
        · rw [Function.update_of_ne hnum]

/-! ## Runs -/

/-- The call appends an entry to file `num`. -/
def AppendsTo (num : Nat) (m : Triple → Option Chars256) : StoreCall → Prop
  | .write ptr => ptr.triple.file = num ∧ Appends m ptr.triple
  | .read _ | .delete _ => False

/-- The call writes a key of file `num`. -/
def StoreCall.WritesTo (num : Nat) : StoreCall → Prop
  | .write ptr => ptr.triple.file = num
  | .read _ | .delete _ => False

open Classical in
/-- The number of calls that append an entry to file `num`, from the map `m` on. -/
noncomputable def appended (num : Nat) : (Triple → Option Chars256) → List StoreCall → Nat
  | _, [] => 0
  | m, c :: cs => (if AppendsTo num m c then 1 else 0) + appended num (mapCall m c).2 cs

/-- What the calls `cs`, made on a store that holds `m`, do to file `num`. -/
structure Grown (num : Nat) (m : Triple → Option Chars256) (s : KVStore) (cs : List StoreCall)
    (s' : KVStore) : Prop where
  length : s'.fileLength num = s.fileLength num + sizeOfOneEntry * appended num m cs
  created : (s'.files num).isSome ↔ (s.files num).isSome ∨ ∃ c ∈ cs, c.WritesTo num

theorem Grown.same {s' : KVStore} {c : StoreCall} (happ : ¬ AppendsTo num m c)
    (hw : ¬ c.WritesTo num)
    (hs : (s'.files num).map List.length = (s.files num).map List.length) :
    Grown num m s [c] s' where
  length := by
    rw [appended, if_neg happ, KVStore.fileLength, KVStore.fileLength]
    cases h : s.files num <;> cases h' : s'.files num <;> simp_all [appended]
  created := by
    simp only [List.mem_singleton, exists_eq_left, hw, or_false]
    rw [← Option.isSome_map (f := List.length), hs, Option.isSome_map]

theorem call_grown (h : StoreRep s m) (c : StoreCall) (num : Nat) :
    Ensures (s.call c) fun r => Grown num m s [c] r.2 := by
  cases c with
  | read ptr =>
    refine ensures_true.bind (P := fun _ => True) fun r _ => Ensures.ok ?_
    exact .same not_false not_false rfl
  | delete ptr =>
    refine (KVStore.deleteFromDb_length h ptr).bind fun r hr => Ensures.ok ?_
    exact .same not_false not_false (hr num)
  | write ptr =>
    refine (KVStore.writeToDb_length h ptr).bind fun s' hs' => Ensures.ok ?_
    obtain ⟨f', hfiles, hlen⟩ := hs'
    by_cases hnum : ptr.triple.file = num
    · subst hnum
      constructor
      · show s'.fileLength _ = _
        rw [KVStore.fileLength, hfiles, Function.update_self]
        refine hlen.trans (congrArg _ ?_)
        by_cases happ : Appends m ptr.triple <;> simp [appended, AppendsTo, happ]
      · show (s'.files _).isSome ↔ _
        rw [hfiles, Function.update_self]
        simp [StoreCall.WritesTo]
    · refine .same (fun happ => hnum happ.1) hnum ?_
      show (s'.files num).map List.length = _
      rw [hfiles, Function.update_of_ne (Ne.symm hnum)]

theorem Grown.trans {s₁ s₂ : KVStore} {c : StoreCall} {cs : List StoreCall}
    (h : Grown num m s [c] s₁) (hrest : Grown num (mapCall m c).2 s₁ cs s₂) :
    Grown num m s (c :: cs) s₂ where
  length := by
    rw [hrest.length, h.length]
    simp only [appended]
    ring
  created := by
    rw [hrest.created, h.created]
    simp [or_assoc]

theorem calls_grown (h : StoreRep s m) (cs : List StoreCall) :
    SucceedsUnlessFull (calls KVStore.call s cs) fun r =>
      StoreRep r.2 (specCalls mapCall m cs).2 ∧ ∀ num, Grown num m s cs r.2 := by
  induction cs generalizing s m with
  | nil => exact Excused.ok ⟨h, fun num => ⟨rfl, by simp⟩⟩
  | cons c cs ih =>
    have hgrown : Ensures (s.call c) fun r => ∀ num, Grown num m s [c] r.2 := fun r hr num =>
      call_grown h c num r hr
    refine ((hgrown.and (call_spec h c).ensures).excused (call_spec h c)).bind fun r hr => ?_
    refine (ih hr.2.2).bind fun rs hrs => Excused.ok ⟨hrs.1, fun num => ?_⟩
    exact (hr.1 num).trans (hrs.2 num)

variable {files : Nat → Option (List UInt8)}

/-- **The space of the store.** After any calls a file exists if it did before or a key of it was
written, and it is longer by one entry for every write that did not find its key while another key
of the chain was stored. -/
theorem store_space (hfiles : WellFormedFiles files) :
    ∃ m, (∀ ptr, (KVStore.initKvstore files).readFromDb ptr = .ok (readAnswer m ptr)) ∧
      ∀ cs, SucceedsUnlessFull (calls KVStore.call (KVStore.initKvstore files) cs) fun r =>
        ∀ num, Grown num m (KVStore.initKvstore files) cs r.2 := by
  obtain ⟨m, hm⟩ := hfiles.exists_rep
  exact ⟨m, KVStore.readFromDb_eq hm, fun cs => (calls_grown hm cs).mono fun r hr => hr.2⟩

/-- Two keys with the first hash 0. The first write of the second appends an entry. -/
def writeTwo : List StoreCall := [.write (entry 97 1), .write (entry 98 2), .write (entry 97 3)]

theorem appended_writeTwo (hm : ∀ t, m t = none) : appended 0 m writeTwo = 1 := by
  have hfirst : ¬ AppendsTo 0 m (.write (entry 97 1)) := by
    rintro ⟨-, -, t, -, hsome⟩
    rw [hm] at hsome
    cases hsome
  have hsecond : AppendsTo 0 (mapCall m (.write (entry 97 1))).2 (.write (entry 98 2)) :=
    ⟨rfl, by simp only [mapCall]; rw [Function.update_of_ne (by decide), hm],
      (entry 97 1).triple, ⟨rfl, rfl⟩, by simp only [mapCall, Function.update_self]; rfl⟩
  have hthird : ¬ AppendsTo 0 (mapCall (mapCall m (.write (entry 97 1))).2 (.write (entry 98 2))).2
      (.write (entry 97 3)) := by
    rintro ⟨-, hnone, -⟩
    simp only [mapCall] at hnone
    rw [Function.update_of_ne (by decide),
      show (entry 97 3).triple = (entry 97 1).triple from rfl, Function.update_self] at hnone
    cases hnone
  simp only [writeTwo, appended, if_neg hfirst, if_pos hsecond, if_neg hthird]

theorem store_space_two : ∃ m,
    (∀ ptr, (KVStore.initKvstore fun _ => none).readFromDb ptr = .ok (readAnswer m ptr)) ∧
      SucceedsUnlessFull (calls KVStore.call (KVStore.initKvstore fun _ => none) writeTwo) fun r =>
        (∀ num, Grown num m (KVStore.initKvstore fun _ => none) writeTwo r.2) ∧
          r.2.fileLength 0 = (KVStore.initKvstore fun _ => none).fileLength 0 + sizeOfOneEntry := by
  obtain ⟨m, hread, hcalls⟩ := store_space wellFormedFiles_none
  refine ⟨m, hread, (hcalls writeTwo).mono fun r hr => ⟨hr, ?_⟩⟩
  have hm : ∀ t, m t = none := by
    intro t
    have hfresh := Except.ok.inj ((hread ⟨0, t.key, emptyString, t.hash1, t.hash2⟩).symm.trans
      (KVStore.readFromDb_eq fresh_rep _))
    rw [readAnswer, show KVMessage.triple ⟨0, t.key, emptyString, t.hash1, t.hash2⟩ = t from rfl]
      at hfresh
    cases hmt : m t with
    | none => rfl
    | some v =>
      rw [hmt] at hfresh
      cases hfresh
  rw [(hr 0).length, appended_writeTwo hm, Nat.mul_one]

/-! ## Space that is not used again -/

/-- A key deleted and written again, `n` times. -/
def rewrites (ptr : KVMessage) : Nat → List StoreCall
  | 0 => []
  | n + 1 => .delete ptr :: .write ptr :: rewrites ptr n

theorem rewrites_map (m : Triple → Option Chars256) (ptr : KVMessage) (n : Nat) :
    ∀ t ≠ ptr.triple, (specCalls mapCall m (rewrites ptr n)).2 t = m t := by
  induction n generalizing m with
  | zero => exact fun _ _ => rfl
  | succ n ih =>
    intro t ht
    apply (ih _ t ht).trans
    simp [mapCall, Function.update_of_ne ht]

theorem isSome_of_readAnswer {ptr' : KVMessage} (h : readAnswer m ptr = (true, ptr')) :
    (m ptr.triple).isSome := by
  rw [readAnswer] at h
  cases hm : m ptr.triple with
  | none =>
    rw [hm] at h
    cases h
  | some v => rfl

/-- While another key of the chain is stored, each time appends an entry. -/
theorem appended_rewrites {t : Triple} (ht : Filed ptr.triple.file ptr.triple.slot t)
    (hne : t ≠ ptr.triple) (hsome : (m t).isSome) (n : Nat) :
    appended ptr.triple.file m (rewrites ptr n) = n := by
  induction n generalizing m with
  | zero => rfl
  | succ n ih =>
    have hdelete : ¬ AppendsTo ptr.triple.file m (.delete ptr) := not_false
    have hwrite : AppendsTo ptr.triple.file (mapCall m (.delete ptr)).2 (.write ptr) :=
      ⟨rfl, Function.update_self .., t, ht, by simpa [mapCall, Function.update_of_ne hne]⟩
    rw [rewrites, appended, appended, if_neg hdelete, if_pos hwrite, ih]
    · omega
    · simpa [mapCall, Function.update_of_ne hne]

/-- **Deleted entries behind the heads are lost.** A key that is deleted and written again while
another key of its chain is stored makes the file longer by one entry each time, though no other key
changes. -/
theorem rewrites_grow_file (hfiles : WellFormedFiles files) (cs : List StoreCall) :
    SucceedsUnlessFull (calls KVStore.call (KVStore.initKvstore files) cs) fun r₀ =>
      ∀ ptr other : KVMessage, Filed ptr.triple.file ptr.triple.slot other.triple →
        other.triple ≠ ptr.triple → (∃ q, r₀.2.readFromDb other = .ok (true, q)) → ∀ n,
          SucceedsUnlessFull (calls KVStore.call r₀.2 (rewrites ptr n)) fun r =>
            r.2.fileLength ptr.triple.file =
              r₀.2.fileLength ptr.triple.file + sizeOfOneEntry * n ∧
                ∀ q, q.triple ≠ ptr.triple → r.2.readFromDb q = r₀.2.readFromDb q := by
  obtain ⟨m, hm⟩ := hfiles.exists_rep
  refine (calls_grown hm cs).mono fun r₀ hr₀ ptr other hfiled hne hfound n => ?_
  obtain ⟨q, hq⟩ := hfound
  rw [KVStore.readFromDb_eq hr₀.1 other] at hq
  have hsome : ((specCalls mapCall m cs).2 other.triple).isSome :=
    isSome_of_readAnswer (Except.ok.inj hq)
  refine (calls_grown hr₀.1 (rewrites ptr n)).mono fun r hr => ⟨?_, fun q hq => ?_⟩
  · rw [(hr.2 _).length, appended_rewrites hfiled hne hsome]
  · rw [KVStore.readFromDb_eq hr.1, KVStore.readFromDb_eq hr₀.1, readAnswer, readAnswer,
      rewrites_map _ ptr n _ hq]

/-- Two keys with the first hash 0. -/
theorem rewrites_grow_file_two :
    SucceedsUnlessFull (calls KVStore.call (KVStore.initKvstore fun _ => none) [.write .empty])
      fun r₀ => ∀ n,
        SucceedsUnlessFull
          (calls KVStore.call r₀.2 (rewrites { KVMessage.empty with hash2 := 1 } n))
          fun r => r.2.fileLength 0 = r₀.2.fileLength 0 + sizeOfOneEntry * n := by
  have hgrow := rewrites_grow_file wellFormedFiles_none [.write .empty]
  have hcalls := calls_spec fresh_rep [.write .empty]
  refine ((hgrow.ensures.and hcalls.ensures).excused hcalls).mono fun r₀ hr₀ n => ?_
  have hread := KVStore.readFromDb_eq hr₀.2.2 .empty
  refine (hr₀.1 { KVMessage.empty with hash2 := 1 } .empty ⟨rfl, rfl⟩ (by decide)
    ⟨_, hread⟩ n).mono fun r hr => hr.1

end KeyValueStore
