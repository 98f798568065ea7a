import KeyValueStore.StoreStreams
import KeyValueStore.StoreTracks

/-!
# Interrupted writes and deletes

`write_to_db` and `delete_from_db` perform their writes in batches, one for each seek. A process may
be killed between two of them.

After an interrupted write the file lags behind a well-formed one: either behind the file before the
call, with one more unused entry, or behind the file after it, whose head already links back to the
new entry.

* `write_prefix` — after any number of batches the file lags behind one that holds the old map or
  the new one.
* `interrupted_write` — so after a restart every lookup terminates and finds the old map or the new
  one, and so do all later calls.

A delete clears the entry first and unlinks it afterwards. In between the chain leads to an entry
whose right link is `MAX_UINT64`.

* `FileInv.endless` — a lookup that comes to this entry never ends.
* `interrupted_delete_iff` — an interrupted delete is harmless just if nothing was written yet, or
  the right links already lead past the entry.
-/

namespace KeyValueStore

open ByteBuffer Run

set_option maxRecDepth 4096

variable {f g f' : List UInt8} {num i k x : Nat} {chain : Nat → Option (List Nat)}
  {m : Triple → Option Chars256} {ptr : KVMessage}

/-! ## An entry that is not linked in -/

/-- The fields of an unused entry. -/
def unusedFields : List (List UInt8) := clearedHeader ++ [emptyString.bytes, emptyString.bytes]

theorem length_flatten_unusedFields : unusedFields.flatten.length = 544 := by
  simp only [unusedFields, List.flatten_append, List.length_append, List.flatten_cons,
    List.flatten_nil, List.append_nil, length_bytes]
  rfl

/-- A file that is longer by an unused entry differs from the old one like an edit of a chain that
leaves the chain as it was. -/
theorem FileInv.append_edit (h : FileInv num f chain) (hlen : g.length = f.length + 544)
    (hmax : g.length ≤ maxFileOffset) (hold : ∀ x < entryCount f, entryAt g x = entryAt f x)
    (hnew : (entryAt g (entryCount f)).Unused) : ChainEdit num f g chain 0 (chain 0) := by
  have h0 : 0 < fileTableLen := by decide
  have hcount := entryCount_append hlen
  refine ⟨h0, ?_, by omega, hmax, fun x hx _ => hold x hx, fun hc => ?_, fun ms hc => ?_, ?_⟩
  · have haligned := h.aligned
    rw [hlen, sizeOfOneEntry_eq, Nat.add_mod_right]
    exact haligned
  · rw [hold 0 (lt_of_lt_of_le h0 h.fileTableLen_le)]
    exact h.unused 0 h0 hc
  · have hsame : ∀ x ∈ 0 :: ms, entryAt g x = entryAt f x := fun x hx =>
      hold x (h.slot_lt h0 hc hx)
    exact (h.linked 0 h0 ms hc).congr (fun x hx => by rw [hsame x hx])
      (fun x hx => by rw [hsame x hx]) (fun x hx => by rw [hsame x hx]) (by omega)
  · intro x _ hlt hslot hout
    obtain rfl : x = entryCount f := by
      have hge := hslot.resolve_left hout
      omega
    exact hnew

/-- One more unused entry at the end of the file changes nothing. -/
theorem FileRep.append_unused (h : FileRep num f m) (hmax : f.length + 544 ≤ maxFileOffset) :
    FileRep num (patches f f.length unusedFields) m ∧
      (patches f f.length unusedFields).length = f.length + 544 ∧
      entryAt (patches f f.length unusedFields) =
        Function.update (entryAt f) (entryCount f) (overlay f (entryCount f) 0 unusedFields) := by
  obtain ⟨chain, hinv, hm⟩ := h
  have hlen : (patches f f.length unusedFields).length = f.length + 544 := by
    rw [length_patches le_rfl, length_flatten_unusedFields]
    omega
  have hpos : f.length = entryCount f * 544 + offset entryWidths 0 := hinv.length_eq
  have hentry : entryAt (patches f f.length unusedFields) =
      Function.update (entryAt f) (entryCount f) (overlay f (entryCount f) 0 unusedFields) := by
    rw [hpos]
    exact entryAt_patches hpos.ge (fits_deleted _ _)
  refine ⟨?_, hlen, hentry⟩
  generalize patches f f.length unusedFields = g at hlen hentry
  have hold : ∀ x < entryCount f, entryAt g x = entryAt f x := by
    intro x hx
    rw [hentry, Function.update_of_ne hx.ne]
  have hnew : (entryAt g (entryCount f)).Unused := by
    rw [hentry, Function.update_self]
    exact overlay_cleared _
  have hedit := hinv.append_edit hlen (by omega) hold hnew
  refine FileRep.edit hedit hinv hm (fun _ _ => rfl) fun t ht h0 v => ?_
  rw [hm t ht v, h0]
  cases hc : chain 0 with
  | none => rfl
  | some ms =>
    rw [contents, contents, slotsOf, List.map_congr_left fun x hx => by
      rw [← hold x (hinv.slot_lt hedit.head_lt hc hx)]]

/-- The entry that `write_to_db` appends. -/
theorem FileInv.appendNew (h : FileInv num f chain) (ptr : KVMessage) :
    SucceedsUnlessFull (applyWrites f (newEntry f ptr).pos (newEntry f ptr).writes) fun f' =>
      f'.length = f.length + 544 ∧ f'.length ≤ maxFileOffset ∧
        ∀ x, x ≠ entryCount f → entryAt f' x = entryAt f x :=
  (appendEntry h.length_eq h.small (fits_entry _ _ _ _ _ _) rfl).mono fun f' hf' =>
    ⟨hf'.1, hf'.2.1, fun x hx => by rw [hf'.2.2, Function.update_of_ne hx]⟩

/-- A file whose last entry is not linked in lags behind the file without it. -/
theorem FileRep.lags_append (h : FileRep num f m) (hlen : f'.length = f.length + 544)
    (hmax : f'.length ≤ maxFileOffset)
    (hold : ∀ x, x ≠ entryCount f → entryAt f' x = entryAt f x) : LagsRep num f' m := by
  obtain ⟨hrep, hlen', hentry⟩ := h.append_unused (by omega)
  refine ⟨_, ⟨hlen.trans hlen'.symm, fun x => ?_⟩, hrep⟩
  by_cases hx : x = entryCount f
  · refine .unused ?_ ?_
    · obtain ⟨chain, hinv, -⟩ := h
      rw [hx]
      exact hinv.fileTableLen_le
    · rw [hx, hentry, Function.update_self]
      exact overlay_cleared _
  · refine .same ?_
    rw [hold x hx, hentry, Function.update_of_ne hx]

/-! ## A head that does not link back yet -/

/-- A file that lacks only the left link of a head, with entries behind it, lags behind the file
that has it. -/
theorem FileRep.lags_left {l : UInt64} (h : FileRep num g m) (hi : i < fileTableLen)
    (hlen : g.length = f.length)
    (hentry : entryAt g = Function.update (entryAt f) i { entryAt f i with leftIdx := l })
    (hge : fileTableLen ≤ l.toNat) (hlt : l.toNat < entryCount g) : LagsRep num f m := by
  refine ⟨g, ⟨hlen.symm, fun x => ?_⟩, h⟩
  obtain ⟨chain, hinv, -⟩ := h
  by_cases hx : x = i
  · subst hx
    have hleft : (entryAt g x).leftIdx = l := by rw [hentry, Function.update_self]
    refine .head hi ((hinv.hasNext_iff hi).2 ?_) ?_
    · rw [hleft]
      exact ⟨hge, hinv.ne_maxUInt64 hlt⟩
    · rw [hentry, Function.update_self]
  · refine .same ?_
    rw [hentry, Function.update_of_ne hx]

/-! ## Every prefix of the batches -/

theorem applyBatches_append (f : List UInt8) (as bs : List Batch) :
    applyBatches f (as ++ bs) = (applyBatches f as).bind fun f₁ => applyBatches f₁ bs := by
  induction as generalizing f with
  | nil => rfl
  | cons a as ih =>
    rw [List.cons_append, applyBatches, applyBatches]
    cases applyWrites f a.pos a.writes with
    | error e => rfl
    | ok f₁ => exact ih f₁

theorem append_prefix_one (h : FileRep num f m) (ptr : KVMessage) :
    SucceedsUnlessFull (applyBatches f [newEntry f ptr]) fun f' => LagsRep num f' m := by
  obtain ⟨chain, hinv, hm⟩ := h
  refine (hinv.appendNew ptr).bind fun f' hf' => Excused.ok ?_
  exact FileRep.lags_append ⟨chain, hinv, hm⟩ hf'.1 hf'.2.1 hf'.2.2

theorem append_prefix_two {ms : List Nat} (hinv : FileInv num f chain)
    (hc : chain ptr.triple.slot = some ms) {m' : Triple → Option Chars256} {N : UInt64}
    (hN : N = UInt64.ofNat (entryCount f)) {b₁ b₂ : Batch}
    (hb₁ : b₁ = ⟨left (entryAt f) ptr.triple.slot * 544 + 8, [encodeU64 N]⟩)
    (hb₂ : b₂ = ⟨ptr.triple.slot * 544, [encodeU64 N]⟩)
    (hall : SucceedsUnlessFull (applyBatches f [newEntry f ptr, b₁, b₂]) fun f' =>
      FileRep num f' m') :
    SucceedsUnlessFull (applyBatches f [newEntry f ptr, b₁]) fun f' => LagsRep num f' m' := by
  have hslot := slot_lt ptr.triple
  have hleft := hinv.slot_lt hslot hc (hinv.linked _ hslot ms hc).ring.prev_end_mem
  have hNn : N.toNat = entryCount f := by rw [hN]; exact toNat_ofNat_slot hinv le_rfl
  rcases hinv.appendNew ptr with hfull | ⟨f₁, hf₁, hlen₁, hmax₁, -⟩
  · left
    rw [applyBatches, hfull]
    rfl
  · have hcount₁ := entryCount_append hlen₁
    obtain ⟨f₂, hf₂, hlen₂, -⟩ := writeEntry (f := f₁) (x := left (entryAt f) ptr.triple.slot)
      (slot_end_le (by omega)) hmax₁ (fits_right N)
    have hslot₂ : ptr.triple.slot * 544 + 544 ≤ f₂.length := by
      have hheads := hinv.fileTableLen_le
      rw [hlen₂]
      exact slot_end_le (by omega)
    obtain ⟨f₃, hf₃, hlen₃, hentry₃⟩ := writeEntry hslot₂ (hlen₂ ▸ hmax₁) (fits_left N)
    have htwo : applyBatches f [newEntry f ptr, b₁] = .ok f₂ := by
      rw [applyBatches, hf₁, ok_bind, applyBatches, hb₁]
      exact applyBatches_cons [] hf₂
    have hthree : applyBatches f [newEntry f ptr, b₁, b₂] = .ok f₃ := by
      have happ := applyBatches_append f [newEntry f ptr, b₁] [b₂]
      rw [htwo] at happ
      apply happ.trans
      rw [hb₂]
      exact applyBatches_cons [] hf₃
    -- the missing write is that of the left link of the head
    refine Or.inr ⟨f₂, htwo, (hall.of_ok hthree).lags_left (l := N) hslot hlen₃ ?_ ?_ ?_⟩
    · rw [hentry₃, overlay_left]
    · rw [hNn]
      exact hinv.fileTableLen_le
    · have hcount₃ := entryCount_congr (hlen₃.trans hlen₂)
      omega

/-- **After any number of batches of `write_to_db`, the file holds the old map or the new one.** -/
theorem write_prefix (h : FileRep num f m) (ptr : KVMessage) (hf : ptr.triple.file = num) :
    ∃ bs, writeBatches f ptr = .ok bs ∧
      ∀ k, SucceedsUnlessFull (applyBatches f (bs.take k)) fun f' =>
      LagsRep num f' m ∨ LagsRep num f' (Function.update m ptr.triple (some ptr.value)) := by
  have hspec := write_spec ptr h hf
  obtain ⟨chain, hinv, hm⟩ := h
  obtain ⟨bs, hbs, hwritten⟩ := writeBatches_written hinv ptr
  rw [hbs] at hspec
  refine ⟨bs, hbs, ?_⟩
  intro k
  have hstart : SucceedsUnlessFull (applyBatches f (bs.take 0)) fun f' =>
      LagsRep num f' m ∨ LagsRep num f' (Function.update m ptr.triple (some ptr.value)) :=
    Excused.ok (Or.inl (FileRep.lags ⟨chain, hinv, hm⟩))
  have hend : ∀ k, bs.length ≤ k → SucceedsUnlessFull (applyBatches f (bs.take k)) fun f' =>
      LagsRep num f' m ∨ LagsRep num f' (Function.update m ptr.triple (some ptr.value)) := by
    intro k hk
    rw [List.take_of_length_le hk]
    exact Excused.mono hspec fun f' hf' => Or.inr hf'.lags
  generalize hc : chain ptr.triple.slot = c at hwritten
  cases hwritten with
  | first =>
    cases k with
    | zero => exact hstart
    | succ k => exact hend _ (Nat.le_add_left 1 k)
  | value ms y hy heq =>
    cases k with
    | zero => exact hstart
    | succ k => exact hend _ (Nat.le_add_left 1 k)
  | second ms hlone =>
    match k with
    | 0 => exact hstart
    | 1 => exact (append_prefix_one ⟨chain, hinv, hm⟩ ptr).mono fun _ => Or.inl
    | k + 2 => exact hend _ (Nat.le_add_left 2 k)
  | last ms hlast =>
    match k with
    | 0 => exact hstart
    | 1 => exact (append_prefix_one ⟨chain, hinv, hm⟩ ptr).mono fun _ => Or.inl
    -- only the left link of the head is missing, and no lookup reads it
    | 2 => exact (append_prefix_two hinv hc rfl rfl rfl hspec).mono fun _ => Or.inr
    | k + 3 => exact hend _ (Nat.le_add_left 3 k)

/-! ## Two entries of one chain -/

theorem FileInv.appendNew_ok (h : FileInv num f chain) (ptr : KVMessage)
    (hmax : f.length + 544 ≤ maxFileOffset) :
    ∃ f', applyWrites f (newEntry f ptr).pos (newEntry f ptr).writes = .ok f' ∧
      f'.length = f.length + 544 ∧ f'.length ≤ maxFileOffset ∧
      ∀ x, x ≠ entryCount f → entryAt f' x = entryAt f x := by
  rcases h.appendNew ptr with hfull | hok
  · rw [newEntry, applyWrites_eq _ le_rfl h.small, if_pos] at hfull
    · cases hfull
    · simp only [List.flatten_cons, List.flatten_nil, List.append_nil, List.length_append,
        length_encodeU64, length_bytes]
      omega
  · exact hok

theorem triple_of_update {e e' : Nat → FileEntry} {v : FileEntry} (h : e' = Function.update e y v)
    (hv : v.triple = (e y).triple) (x : Nat) : (e' x).triple = (e x).triple := by
  rw [h]
  by_cases hx : x = y
  · rw [hx, Function.update_self, hv]
  · rw [Function.update_of_ne hx]

/-- A write with room for one more entry succeeds, and keeps the keys on the chain. -/
theorem FileInv.write_ok (h : FileInv num f chain) (ptr : KVMessage)
    (hmax : f.length + 544 ≤ maxFileOffset) :
    ∃ f', (writeBatches f ptr).bind (applyBatches f) = .ok f' ∧ f'.length ≤ f.length + 544 ∧
      ∀ ms, chain ptr.triple.slot = some ms → ∀ x ∈ ptr.triple.slot :: ms,
        (entryAt f' x).triple = (entryAt f x).triple := by
  have hslot := KeyValueStore.slot_lt ptr.triple
  have hlt := lt_of_lt_of_le hslot h.fileTableLen_le
  obtain ⟨f₁, hf₁, hlen₁, hmax₁, hold⟩ := h.appendNew_ok ptr hmax
  obtain ⟨bs, hbs, hwritten⟩ := writeBatches_written h ptr
  rw [hbs]
  show ∃ f', applyBatches f bs = _ ∧ _
  generalize hc : chain ptr.triple.slot = c at hwritten
  cases hwritten with
  -- one batch, inside the slots of the head or of the entry found
  | first =>
    obtain ⟨f', hf', hlen, -⟩ := writeEntry (slot_end_le hlt) h.small
      (fits_entry (insideFileIdx ptr) (insideFileIdx ptr) ptr.hash1 ptr.hash2 ptr.key ptr.value)
    refine ⟨f', applyBatches_cons [] hf', by omega, ?_⟩
    intro ms hms
    cases hms
  | value ms y hy heq =>
    obtain ⟨f', hf', hlen, hentry⟩ := writeEntry (slot_end_le (h.slot_lt hslot hc hy)) h.small
      (fits_value ptr.value)
    rw [overlay_value] at hentry
    exact ⟨f', applyBatches_cons [] hf', by omega, fun _ _ x _ => triple_of_update hentry rfl x⟩
  -- the entry is appended first, then one or two batches set the links
  | second ms hlone =>
    obtain ⟨f', hf', hlen, hentry⟩ := writeEntry (f := f₁) (x := ptr.triple.slot)
      (by have hend := slot_end_le hlt; omega) hmax₁
      (fits_links (UInt64.ofNat (entryCount f)) (UInt64.ofNat (entryCount f)))
    rw [overlay_links] at hentry
    refine ⟨f', ?_, by omega, fun ms' hms x hx => ?_⟩
    · exact (applyBatches_cons _ hf₁).trans (applyBatches_cons _ hf')
    · rw [← hold x (h.slot_lt hslot (hc.trans hms) hx).ne]
      exact triple_of_update hentry rfl x
  | last ms hlast =>
    have hleft := h.slot_lt hslot hc (h.linked _ hslot ms hc).ring.prev_end_mem
    obtain ⟨f₂, hf₂, hlen₂, hentry₂⟩ := writeEntry (f := f₁) (x := left (entryAt f) ptr.triple.slot)
      (by have hend := slot_end_le hleft; omega) hmax₁ (fits_right (UInt64.ofNat (entryCount f)))
    obtain ⟨f', hf', hlen, hentry⟩ := writeEntry (f := f₂) (x := ptr.triple.slot)
      (by have hend := slot_end_le hlt; omega) (hlen₂ ▸ hmax₁)
      (fits_left (UInt64.ofNat (entryCount f)))
    rw [overlay_right] at hentry₂
    rw [overlay_left] at hentry
    refine ⟨f', ?_, by omega, fun ms' hms x hx => ?_⟩
    · exact (applyBatches_cons _ hf₁).trans
        ((applyBatches_cons _ hf₂).trans (applyBatches_cons _ hf'))
    · rw [← hold x (h.slot_lt hslot (hc.trans hms) hx).ne]
      exact (triple_of_update hentry rfl x).trans (triple_of_update hentry₂ rfl x)

theorem Stores.triple_mem (hm : Stores num f chain m) (h : FileInv num f chain)
    {ms : List Nat} (hi : i < fileTableLen) (hc : chain i = some ms) (hx : x ∈ i :: ms) :
    m (entryAt f x).triple = some (entryAt f x).value := by
  obtain ⟨hslot, hfile⟩ := (h.linked i hi ms hc).owner x hx
  apply (hm (entryAt f x).triple hfile _).2
  rw [show (entryAt f x).triple.slot = i from hslot, hc, contents_some]
  exact List.mem_map_of_mem (f := pairAt (entryAt f)) hx

theorem Stores.exists_slot (hm : Stores num f chain m) {t : Triple} {v : Chars256}
    (hf : t.file = num) (ht : m t = some v) :
    ∃ ms, chain t.slot = some ms ∧ ∃ x ∈ t.slot :: ms, (entryAt f x).triple = t := by
  have hmem := (hm t hf v).1 ht
  cases hc : chain t.slot with
  | none => simp [hc, contents, slotsOf] at hmem
  | some ms =>
    rw [hc, contents_some] at hmem
    obtain ⟨x, hx, hpair⟩ := List.mem_map.1 hmem
    exact ⟨ms, rfl, x, hx, congrArg Prod.fst hpair⟩

/-- A key, written to a new file, is the head of its chain. -/
theorem exists_oneEntry (a : KVMessage) :
    ∃ f chain ms, (writeBatches initialFile a).bind (applyBatches initialFile) = .ok f ∧
      f.length + 544 ≤ maxFileOffset ∧ FileInv a.triple.file f chain ∧
      Stores a.triple.file f chain (Function.update (fun _ => none) a.triple (some a.value)) ∧
      chain a.triple.slot = some ms ∧ (entryAt f a.triple.slot).triple = a.triple := by
  have hrep₀ := initialFile_rep (m := fun _ => none) fun _ (_ : _ = a.triple.file) => rfl
  obtain ⟨chain₀, hinv₀, hm₀⟩ := hrep₀
  have hlen₀ := length_initialFile
  obtain ⟨f, hf, hlen, -⟩ := hinv₀.write_ok a (by rw [hlen₀]; decide)
  obtain ⟨chain, hinv, hm⟩ := (write_spec a ⟨chain₀, hinv₀, hm₀⟩ rfl).of_ok hf
  obtain ⟨ms, hc, -⟩ := hm.exists_slot rfl (Function.update_self ..)
  refine ⟨f, chain, ms, hf, ?_, hinv, hm, hc, ?_⟩
  · rw [hlen₀] at hlen
    have hsmall : fileTableLen * 544 + 544 + 544 ≤ maxFileOffset := by decide
    omega
  · have hmem := hm.triple_mem hinv (slot_lt a.triple) hc List.mem_cons_self
    by_contra hother
    rw [Function.update_of_ne hother] at hmem
    cases hmem

/-- Two keys of one chain, written to a new file in this order: the first is the head. -/
theorem exists_twoEntries {a b : KVMessage} (hfile : b.triple.file = a.triple.file)
    (hslot : b.triple.slot = a.triple.slot) (hne : b.triple ≠ a.triple) :
    ∃ f₁ f₂ chain y bs, (writeBatches initialFile a).bind (applyBatches initialFile) = .ok f₁ ∧
      (writeBatches f₁ b).bind (applyBatches f₁) = .ok f₂ ∧ FileInv a.triple.file f₂ chain ∧
      Stores a.triple.file f₂ chain (Function.update (Function.update (fun _ => none) a.triple
        (some a.value)) b.triple (some b.value)) ∧
      chain a.triple.slot = some (y :: bs) ∧
      (entryAt f₂ a.triple.slot).triple = a.triple := by
  obtain ⟨f₁, chain₁, ms₁, hf₁, hmax, hinv₁, hm₁, hc₁, hhead₁⟩ := exists_oneEntry a
  obtain ⟨f₂, hf₂, -, hkeep⟩ := hinv₁.write_ok b hmax
  obtain ⟨chain₂, hinv₂, hm₂⟩ := (write_spec b ⟨chain₁, hinv₁, hm₁⟩ hfile).of_ok hf₂
  rw [hslot] at hkeep
  have hhead := (hkeep ms₁ hc₁ _ List.mem_cons_self).trans hhead₁
  obtain ⟨ms, hc, x, hx, hxb⟩ := hm₂.exists_slot hfile (Function.update_self ..)
  rw [hslot] at hc hx
  cases ms with
  | nil =>
    obtain rfl := List.mem_singleton.1 hx
    exact absurd (hxb.symm.trans hhead) hne
  | cons y bs => exact ⟨f₁, f₂, chain₂, y, bs, hf₁, hf₂, hinv₂, hm₂, hc, hhead⟩

theorem triple_file_eq {a b : KVMessage} (h : b.hash1 = a.hash1) :
    b.triple.file = a.triple.file := by
  show b.hash1.toNat % hashTableLen = a.hash1.toNat % hashTableLen
  rw [h]

theorem triple_slot_eq {a b : KVMessage} (h : b.hash1 = a.hash1) :
    b.triple.slot = a.triple.slot := by
  show b.hash1.toNat % fileTableLen = a.hash1.toNat % fileTableLen
  rw [h]

theorem triple_ne {a b : KVMessage} (h : b.hash2 ≠ a.hash2) : b.triple ≠ a.triple :=
  fun he => h (congrArg Triple.hash2 he)

theorem pairAc2_hash1 : pairAc2.hash1 = pairD1.hash1 := by decide +kernel

theorem pairAc2_hash2 : pairAc2.hash2 ≠ pairD1.hash2 ∧ pairAc2.hash2 ≠ maxUInt64 := by
  decide +kernel

/-! ## After a restart -/

/-- The store `s'` is what an interrupted write of `ptr` left of the store `s`. -/
structure WriteInterrupted (s s' : KVStore) (ptr : KVMessage) : Prop where
  others : ∀ q : KVMessage, q.triple ≠ ptr.triple →
    ∃ a, s'.readFromDb q = .ok a ∧ s.readFromDb q = .ok a
  written : ∀ q : KVMessage, q.triple = ptr.triple →
    ∃ a, s'.readFromDb q = .ok a ∧
      (s.readFromDb q = .ok a ∨ a = (true, { q with value := ptr.value }))
  later : ∃ m, (∀ q, s'.readFromDb q = .ok (readAnswer m q)) ∧ ∀ cs,
    SucceedsUnlessFull (calls KVStore.call s' cs) fun r => r.1 = (specCalls mapCall m cs).1 ∧
      ∀ q, r.2.readFromDb q = .ok (readAnswer (specCalls mapCall m cs).2 q)

/-- A restart finds the files again, the one that was written among them. -/
theorem StoreRep.holds_restart {files : Nat → Option (List UInt8)} {m' : Triple → Option Chars256}
    (h : StoreRep (KVStore.initKvstore files) m) (hi : i < hashTableLen)
    (hfile : LagsRep i f' m') (hother : ∀ t : Triple, t.file ≠ i → m' t = m t) :
    Holds LagsRep (KVStore.initKvstore (Function.update files i (some f'))) m' := by
  have hlags : Holds LagsRep (KVStore.initKvstore files) m :=
    ⟨h.absent, fun j hj hbit => by
      obtain ⟨g, hg, hrep⟩ := h.present j hj hbit
      exact ⟨g, hg, hrep.lags⟩⟩
  refine hlags.setFile i fileModel_lagsRep (fun j hj => ?_) ?_ (Function.update_self ..) hfile
    hother
  · simp only [KVStore.initKvstore, Function.update_of_ne hj, and_self]
  · simp [KVStore.initKvstore, hi]

/-- The lookups of a store, and those after any later calls. -/
theorem Holds.later {s : KVStore} (h : Holds LagsRep s m) :
    (∀ q, s.readFromDb q = .ok (readAnswer m q)) ∧ ∀ cs,
      SucceedsUnlessFull (calls KVStore.call s cs) fun r => r.1 = (specCalls mapCall m cs).1 ∧
        ∀ q, r.2.readFromDb q = .ok (readAnswer (specCalls mapCall m cs).2 q) := by
  refine ⟨h.readFromDb_eq fileModel_lagsRep, ?_⟩
  intro cs
  refine (h.calls_spec fileModel_lagsRep cs).mono fun r hr => ⟨hr.1, fun q => ?_⟩
  exact hr.2.readFromDb_eq fileModel_lagsRep q

/-- **An interrupted write damages nothing**, and all later calls take full effect. -/
theorem interrupted_write {files : Nat → Option (List UInt8)} (h : WellFormedFiles files)
    (ptr : KVMessage) (hf : files (KVStore.fileIdx ptr) = some f) :
    ∃ bs, writeBatches f ptr = .ok bs ∧
      ∀ k, SucceedsUnlessFull (applyBatches f (bs.take k)) fun f' =>
      WriteInterrupted (KVStore.initKvstore files)
        (KVStore.initKvstore (Function.update files (KVStore.fileIdx ptr) (some f'))) ptr := by
  obtain ⟨m, hrep⟩ := h.exists_rep
  have hlt : KVStore.fileIdx ptr < hashTableLen := file_lt ptr.triple
  have hbit : (KVStore.initKvstore files).fileExistsStatus (KVStore.fileIdx ptr) = true := by
    simp [KVStore.initKvstore, hlt, hf]
  obtain ⟨g, hg, hfile⟩ := hrep.present _ hlt hbit
  obtain rfl := Option.some.inj (hf.symm.trans hg)
  obtain ⟨bs, hbs, hcut⟩ := write_prefix hfile ptr rfl
  refine ⟨bs, hbs, fun k => (hcut k).mono fun f' hf' => ?_⟩
  have hbefore := KVStore.readFromDb_eq hrep
  rcases hf' with hf' | hf'
  · -- the old map
    have hlater := (hrep.holds_restart hlt hf' fun _ _ => rfl).later
    have hafter := hlater.1
    exact ⟨fun q _ => ⟨_, hafter q, hbefore q⟩, fun q _ => ⟨_, hafter q, Or.inl (hbefore q)⟩,
      m, hlater⟩
  · -- the new map
    have hlater := (hrep.holds_restart hlt hf' update_eq_of_file_ne).later
    have hafter := hlater.1
    refine ⟨fun q hq => ⟨_, hafter q, ?_⟩, fun q hq => ⟨_, hafter q, Or.inr ?_⟩, _, hlater⟩
    · rw [hbefore q, readAnswer, readAnswer, Function.update_of_ne hq]
    · rw [readAnswer, hq, Function.update_self]

/-- The directory with one file, that of the key. -/
def fileOf (ptr : KVMessage) (f : List UInt8) : Nat → Option (List UInt8) :=
  Function.update (fun _ => none) (KVStore.fileIdx ptr) (some f)

/-- One key is stored, and another one is appended to its chain. -/
theorem interrupted_write_second : ∃ f bs,
    readValue f pairD1 = .ok (some pairD1.value) ∧ readValue f pairAc2 = .ok none ∧
    writeBatches f pairAc2 = .ok bs ∧ ∀ k,
      SucceedsUnlessFull (applyBatches f (bs.take k)) fun f' =>
        WriteInterrupted (KVStore.initKvstore (fileOf pairAc2 f))
          (KVStore.initKvstore (Function.update (fileOf pairAc2 f) (KVStore.fileIdx pairAc2)
            (some f'))) pairAc2 := by
  have hpair : ∀ a b : KVMessage, b.hash1 = a.hash1 → b.hash2 ≠ a.hash2 → ∃ f bs,
      readValue f a = .ok (some a.value) ∧ readValue f b = .ok none ∧
      writeBatches f b = .ok bs ∧ ∀ k,
        SucceedsUnlessFull (applyBatches f (bs.take k)) fun f' =>
          WriteInterrupted (KVStore.initKvstore (fileOf b f))
            (KVStore.initKvstore (Function.update (fileOf b f) (KVStore.fileIdx b)
              (some f'))) b := by
    intro a b hash1 hash2
    obtain ⟨f, chain, ms, -, -, hinv, hm, -⟩ := exists_oneEntry a
    have hfile : KVStore.fileIdx b = a.triple.file := triple_file_eq hash1
    have hread := readValue_eq ⟨chain, hinv, hm⟩ (show KVStore.fileIdx a = a.triple.file from rfl)
    have hread' := readValue_eq ⟨chain, hinv, hm⟩ hfile
    rw [Function.update_self] at hread
    rw [Function.update_of_ne (triple_ne hash2)] at hread'
    have hfiles : WellFormedFiles (fileOf b f) := by
      intro num _ g hg
      rw [fileOf] at hg
      by_cases hnum : num = KVStore.fileIdx b
      · rw [hnum, Function.update_self] at hg
        obtain rfl := Option.some.inj hg
        exact ⟨chain, hnum ▸ hfile ▸ hinv⟩
      · rw [Function.update_of_ne hnum] at hg
        cases hg
    obtain ⟨bs, hbs, hcut⟩ := interrupted_write hfiles b (Function.update_self ..)
    exact ⟨f, bs, hread, hread', hbs, hcut⟩
  exact hpair pairD1 pairAc2 pairAc2_hash1 pairAc2_hash2.1

/-! ## Lookups that only follow right links -/

variable {as bs : List Nat} {y : Nat} {q : KVMessage}

theorem readValue_walk {ms : List Nat} (hcount : entryCount f * 544 < 2 ^ 64)
    (hheads : fileTableLen ≤ entryCount f) (hi : (insideFileIdx ptr).toNat = i)
    (hused : (entryAt f i).rightIdx ≠ maxUInt64) (hwalk : Ring.Walk (right (entryAt f)) i ms i)
    (hms : ∀ y ∈ ms, y < entryCount f ∧ y ≠ i) (hlen : ms.length ≤ f.length) :
    readValue f ptr = .ok (((i :: ms).find? fun y => (entryAt f y).triple = ptr.triple).map
      fun y => (entryAt f y).value) := by
  subst hi
  have hlt : (insideFileIdx ptr).toNat < entryCount f :=
    lt_of_lt_of_le (insideFileIdx_lt ptr) hheads
  rw [readValue_eq_bind, search_walk hcount hheads ptr hused hwalk hms hlen, List.find?_cons]
  by_cases hm : (entryAt f (insideFileIdx ptr).toNat).triple = ptr.triple
  · rw [if_pos hm, decide_eq_true hm]
    show (do return some (← readChars f _)) = _
    rw [getSeekVal_eq (by omega), readValue_slot hlt]
    rfl
  · rw [if_neg hm, decide_eq_false hm, scanResult]
    cases hfind : ms.find? fun y => decide ((entryAt f y).triple = ptr.triple) with
    | none => rfl
    | some y =>
      have hy := (hms y (List.mem_of_find?_eq_some hfind)).1
      have hnat : (UInt64.ofNat y).toNat = y :=
        UInt64.toNat_ofNat_of_lt' (by simp [UInt64.size]; omega)
      show (do return some (← readChars f _)) = _
      rw [getSeekVal_eq (by rw [hnat]; omega), hnat, readValue_slot hy]
      rfl

/-- No lookup reads a left link of an entry in use. -/
theorem FileInv.readValue_congr (h : FileInv num g chain) (hlen : f.length = g.length)
    (hright : ∀ x, (entryAt f x).rightIdx = (entryAt g x).rightIdx)
    (htriple : ∀ x, (entryAt f x).triple = (entryAt g x).triple)
    (hvalue : ∀ x, (entryAt f x).value = (entryAt g x).value)
    (hunused : ∀ x, (entryAt g x).Unused → (entryAt f x).Unused) (q : KVMessage) :
    readValue f q = readValue g q := by
  have hi := insideFileIdx_lt q
  have hcount := h.entryCount_lt
  have hheads := h.fileTableLen_le
  have heq := entryCount_congr hlen
  cases hc : chain (insideFileIdx q).toNat with
  | none =>
    have hempty := h.unused _ hi hc
    rw [readValue_eq_bind, readValue_eq_bind, search_unused (by omega) hheads q hempty,
      search_unused (by omega) (by omega) q (hunused _ hempty)]
    rfl
  | some ms =>
    have hused := h.rightIdx_ne hi hc List.mem_cons_self
    have hwalk := (h.linked _ hi ms hc).ring.walk
    have hms := h.behind_ne hi hc
    have hle := h.length_le hi hc
    rw [readValue_walk (by omega) hheads rfl hused hwalk hms hle,
      readValue_walk (by omega) (by omega) rfl (by rw [hright]; exact hused)
        (hwalk.congr fun x _ => congrArg UInt64.toNat (hright x)) (by rwa [heq])
        (by rwa [hlen])]
    simp only [htriple, hvalue]

/-! ## Interrupted deletes -/

/-- The file `f'` is what an interrupted delete of `ptr` left of the file `f`, and nothing is lost
but what was to be deleted. -/
structure DeleteHarmless (num : Nat) (f f' : List UInt8) (ptr : KVMessage) : Prop where
  others : ∀ q : KVMessage, q.triple.file = num → q.triple ≠ ptr.triple →
    ∃ r, Returns f' q r ∧ Returns f q r
  deleted : ∀ q : KVMessage, q.triple = ptr.triple → ∃ r, Returns f' q r ∧
    (r = none ∨ Returns f q r)

theorem exists_fresh_word (ws : List UInt64) (h : ws.length < 2 ^ 64) : ∃ w, w ∉ ws := by
  by_contra hall
  rw [not_exists] at hall
  have hsub : List.range (ws.length + 1) ⊆ ws.map UInt64.toNat := by
    intro j hj
    have hlt := List.mem_range.1 hj
    have hnat : (UInt64.ofNat j).toNat = j :=
      UInt64.toNat_ofNat_of_lt' (by simp [UInt64.size]; omega)
    rw [← hnat]
    exact List.mem_map_of_mem (not_not.1 (hall _))
  have hle := (List.Nodup.subperm List.nodup_range hsub).length_le
  simp at hle

/-- **A cleared entry that is still linked in** hangs the lookup of a key that is not before it. -/
theorem FileInv.endless (h : FileInv num f chain) {q : KVMessage}
    (hc : chain q.triple.slot = some (as ++ y :: bs)) (hlen : f'.length = f.length)
    (hsame : ∀ x ∈ q.triple.slot :: as, right (entryAt f') x = right (entryAt f) x ∧
      (entryAt f' x).triple = (entryAt f x).triple)
    (hcleared : (entryAt f' y).header = clearedEntry)
    (hmiss : ∀ x ∈ q.triple.slot :: as, (entryAt f x).triple ≠ q.triple)
    (hmax : q.hash2 ≠ maxUInt64) {v : SearchVars} (hv : v.failed = false) (n : Nat) :
    readRounds f' q v n = none := by
  have hslot := KeyValueStore.slot_lt q.triple
  have hchain := h.linked _ hslot _ hc
  have hi : (insideFileIdx q).toNat = q.triple.slot := toNat_insideFileIdx q
  have hcount := entryCount_congr hlen
  have hms := h.behind_ne hslot hc
  have hused := h.rightIdx_ne hslot hc List.mem_cons_self
  have hright : (entryAt f' q.triple.slot).rightIdx = (entryAt f q.triple.slot).rightIdx :=
    UInt64.toNat_inj.1 (hsame _ List.mem_cons_self).1
  have hmiss' : ∀ x ∈ q.triple.slot :: as, (entryAt f' x).triple ≠ q.triple := by
    intro x hx
    rw [(hsame x hx).2]
    exact hmiss x hx
  have hwalk : Ring.Walk (right (entryAt f')) (insideFileIdx q).toNat as y := by
    rw [hi]
    exact (Ring.path_append.1 hchain.ring).1.walk.congr fun x hx => (hsame x hx).1
  -- the walk along right links reaches `y`, whose header leads out of the file
  refine readRounds_cleared (hlen ▸ h.small) (hcount ▸ h.fileTableLen_le) hwalk ?_ ?_ ?_ ?_ ?_
    hcleared hmax hv
  · rw [hi, hright]
    exact hused
  · rw [hi]
    exact hmiss' _ List.mem_cons_self
  · intro x hx
    rw [hi, hcount]
    obtain ⟨hlt, hne⟩ := hms x (by simp [hx])
    exact ⟨hlt, hne, hmiss' x (List.mem_cons_of_mem _ hx)⟩
  · rw [hcount]
    exact (hms y (by simp)).1
  · rw [hi]
    exact (hms y (by simp)).2

/-- There is such a key, whatever the chain. -/
theorem FileInv.exists_endless (h : FileInv num f chain) (hf : ptr.triple.file = num)
    (hc : chain ptr.triple.slot = some (as ++ y :: bs)) (hlen : f'.length = f.length)
    (hsame : ∀ x ∈ ptr.triple.slot :: as, right (entryAt f') x = right (entryAt f) x ∧
      (entryAt f' x).triple = (entryAt f x).triple)
    (hcleared : (entryAt f' y).header = clearedEntry) :
    ∃ q : KVMessage, q.triple.file = num ∧ q.triple ≠ ptr.triple ∧
      ∀ v n, v.failed = false → readRounds f' q v n = none := by
  have hsmall := h.small
  have hle := h.length_le (KeyValueStore.slot_lt ptr.triple) hc
  rw [List.length_append, List.length_cons] at hle
  obtain ⟨w, hw⟩ := exists_fresh_word (maxUInt64 :: ptr.hash2 ::
    (ptr.triple.slot :: as).map fun x => (entryAt f x).hash2) (by
      rw [maxFileOffset] at hsmall
      simp only [List.length_cons, List.length_map]
      omega)
  simp only [List.mem_cons, List.mem_map, not_or, not_exists, not_and] at hw
  obtain ⟨hmax, hptr, hfresh⟩ := hw
  refine ⟨{ ptr with hash2 := w }, hf, fun he => hptr (congrArg Triple.hash2 he), ?_⟩
  intro v n hv
  exact h.endless (q := { ptr with hash2 := w }) hc hlen hsame hcleared
    (fun x hx he => hfresh x (List.mem_cons.1 hx) (congrArg Triple.hash2 he)) hmax hv n

theorem overlay_cleared_header (ds : List (List UInt8)) :
    (overlay f x 0 (clearedHeader ++ ds)).header = clearedEntry := by
  simp [overlay, FileEntry.header, clearedHeader, clearedEntry, List.replicate]

theorem clear_entry {fields : List (List UInt8)} (hy : y < entryCount f)
    (hmax : f.length ≤ maxFileOffset) (hfits : Fits 0 (clearedHeader ++ fields)) :
    ∃ f', applyBatches f [⟨y * 544, clearedHeader ++ fields⟩] = .ok f' ∧ f'.length = f.length ∧
      (entryAt f' y).header = clearedEntry ∧ ∀ x, x ≠ y → entryAt f' x = entryAt f x := by
  obtain ⟨f', hf', hlen, hentry⟩ := writeEntry (slot_end_le hy) hmax hfits
  refine ⟨f', ?_, hlen, ?_, ?_⟩
  · exact applyBatches_cons [] hf'
  · rw [hentry, Function.update_self]
    exact overlay_cleared_header fields
  · intro x hx
    rw [hentry, Function.update_of_ne hx]

theorem write_left (l : UInt64) (hx : x < entryCount f) (hmax : f.length ≤ maxFileOffset) :
    ∃ f', applyBatches f [⟨x * 544, [encodeU64 l]⟩] = .ok f' ∧ f'.length = f.length ∧
      entryAt f' = Function.update (entryAt f) x { entryAt f x with leftIdx := l } := by
  obtain ⟨f', hf', hlen, hentry⟩ := writeEntry (slot_end_le hx) hmax (fits_left l)
  rw [overlay_left] at hentry
  exact ⟨f', applyBatches_cons [] hf', hlen, hentry⟩

theorem keeps_of_update_left {e e' : Nat → FileEntry} {l : UInt64}
    (h : e' = Function.update e i { e i with leftIdx := l }) (x : Nat) :
    (e' x).rightIdx = (e x).rightIdx ∧ (e' x).triple = (e x).triple ∧
      (e' x).value = (e x).value := by
  rw [h]
  by_cases hx : x = i
  · rw [hx, Function.update_self]
    exact ⟨rfl, rfl, rfl⟩
  · rw [Function.update_of_ne hx]
    exact ⟨rfl, rfl, rfl⟩

theorem deleteHarmless_refl (h : FileRep num f m) (hf : ptr.triple.file = num) :
    DeleteHarmless num f f ptr where
  others q hq _ := by
    have hret := returns_of_readValue (readValue_eq h hq)
    exact ⟨_, hret, hret⟩
  deleted q hq := by
    have hret := returns_of_readValue (readValue_eq h (hq ▸ hf))
    exact ⟨_, hret, Or.inr hret⟩

/-- The lookups are those after the whole delete. -/
theorem deleteHarmless_of_readValue (h : FileRep num f m)
    (hread : ∀ q : KVMessage, q.triple.file = num →
      readValue f' q = .ok (Function.update m ptr.triple none q.triple))
    (hf : ptr.triple.file = num) : DeleteHarmless num f f' ptr where
  others q hq hne := by
    have hafter := hread q hq
    rw [Function.update_of_ne hne] at hafter
    exact ⟨_, returns_of_readValue hafter, returns_of_readValue (readValue_eq h hq)⟩
  deleted q hq := by
    have hafter := hread q (hq ▸ hf)
    rw [hq, Function.update_self] at hafter
    exact ⟨none, returns_of_readValue hafter, Or.inl rfl⟩

theorem not_deleteHarmless
    (h : ∃ q : KVMessage, q.triple.file = num ∧ q.triple ≠ ptr.triple ∧
      ∀ v n, v.failed = false → readRounds f' q v n = none) : ¬ DeleteHarmless num f f' ptr := by
  rintro hharmless
  obtain ⟨q, hq, hne, hendless⟩ := h
  obtain ⟨r, hret, -⟩ := hharmless.others q hq hne
  obtain ⟨n, hn⟩ := hret ⟨false, clearedEntry, emptyString⟩ rfl
  rw [hendless _ n rfl] at hn
  cases hn

/-- The head is deleted: the cleared entry behind it is linked in until the last batch. -/
theorem head_prefix_endless (h : FileInv num f chain) (hf : ptr.triple.file = num)
    (hc : chain ptr.triple.slot = some (y :: bs)) (l : UInt64) :
    (∃ f', applyBatches f [⟨y * 544, clearedHeader⟩] = .ok f' ∧ ¬ DeleteHarmless num f f' ptr) ∧
    ∃ f', applyBatches f [⟨y * 544, clearedHeader⟩,
      ⟨right (entryAt f) y * 544, [encodeU64 l]⟩] = .ok f' ∧ ¬ DeleteHarmless num f f' ptr := by
  have hslot := KeyValueStore.slot_lt ptr.triple
  have hchain := h.linked _ hslot _ hc
  have hy : y ∈ ptr.triple.slot :: y :: bs := by simp
  have hlt := h.slot_lt hslot hc hy
  have hys := (h.behind_ne hslot hc y List.mem_cons_self).2
  have hnext := hchain.right_mem hy
  -- `y` is not its own right neighbour, so the second write misses it
  have hry : right (entryAt f) y ≠ y := by
    intro hry
    have hmem : right (entryAt f) y ∈ bs ++ [ptr.triple.slot] := hchain.ring.2.2.next_mem
    rw [hry] at hmem
    rcases List.mem_append.1 hmem with hmem | hmem
    · exact (List.nodup_cons.1 (List.nodup_cons.1 hchain.nodup).2).1 hmem
    · exact hys (List.mem_singleton.1 hmem)
  have hc' : chain ptr.triple.slot = some ([] ++ y :: bs) := hc
  have hfits : Fits 0 (clearedHeader ++ []) := by rw [List.append_nil]; exact fits_cleared
  obtain ⟨f₁, hf₁, hlen₁, hcleared, hold⟩ := clear_entry hlt h.small hfits
  -- after the first write the head still leads to `y`, which is cleared
  rw [List.append_nil] at hf₁
  refine ⟨⟨f₁, hf₁, not_deleteHarmless ?_⟩, ?_⟩
  · refine h.exists_endless hf hc' hlen₁ (fun x hx => ?_) hcleared
    obtain rfl := List.mem_singleton.1 hx
    rw [right, hold _ hys.symm]
    exact ⟨rfl, rfl⟩
  · have hcount := entryCount_congr hlen₁
    obtain ⟨f₂, hf₂, hlen₂, hentry⟩ := write_left (f := f₁) l
      (hcount ▸ h.slot_lt hslot hc hnext) (hlen₁ ▸ h.small)
    have happ := applyBatches_append f [⟨y * 544, clearedHeader⟩]
      [⟨right (entryAt f) y * 544, [encodeU64 l]⟩]
    rw [hf₁] at happ
    refine ⟨f₂, happ.trans hf₂, not_deleteHarmless ?_⟩
    obtain ⟨hright, htriple, -⟩ := keeps_of_update_left hentry ptr.triple.slot
    refine h.exists_endless hf hc' (hlen₂.trans hlen₁) (fun x hx => ?_) ?_
    · obtain rfl := List.mem_singleton.1 hx
      rw [right, hright, htriple, hold _ hys.symm]
      exact ⟨rfl, rfl⟩
    · rw [hentry, Function.update_of_ne hry.symm]
      exact hcleared

/-- An entry behind the head is deleted: it is linked in until the second batch. -/
theorem member_prefix_one (h : FileInv num f chain) (hf : ptr.triple.file = num)
    (hc : chain ptr.triple.slot = some (as ++ y :: bs)) :
    ∃ f', applyBatches f [⟨y * 544, clearedHeader ++ [emptyString.bytes, emptyString.bytes]⟩] =
      .ok f' ∧ ¬ DeleteHarmless num f f' ptr := by
  have hslot := KeyValueStore.slot_lt ptr.triple
  have hy : y ∈ ptr.triple.slot :: (as ++ y :: bs) := by simp
  have hnd := (h.linked _ hslot _ hc).nodup
  obtain ⟨f₁, hf₁, hlen₁, hcleared, hold⟩ := clear_entry (h.slot_lt hslot hc hy) h.small
    (fits_deleted emptyString emptyString)
  refine ⟨f₁, hf₁, not_deleteHarmless (h.exists_endless hf hc hlen₁ (fun x hx => ?_) hcleared)⟩
  have hne : x ≠ y := by
    rintro rfl
    rw [← List.cons_append] at hnd
    exact (List.nodup_append.1 hnd).2.2 x hx x List.mem_cons_self rfl
  rw [right, hold x hne]
  exact ⟨rfl, rfl⟩

/-- From the second batch on, it is only linked back to, and no lookup goes back. -/
theorem member_prefix_two (h : FileRep num f m) (hinv : FileInv num f chain)
    (hf : ptr.triple.file = num) (hc : chain ptr.triple.slot = some (as ++ y :: bs))
    {b₀ b₁ : Batch} {R : UInt64} (hb₀ : b₀ = ⟨y * 544, unusedFields⟩)
    (hb₁ : b₁ = ⟨left (entryAt f) y * 544 + 8, [encodeU64 R]⟩)
    (hall : ∀ f₃, applyBatches f [b₀, b₁, ⟨right (entryAt f) y * 544,
      [encodeU64 (entryAt f y).leftIdx]⟩] = .ok f₃ →
      FileRep num f₃ (Function.update m ptr.triple none)) :
    ∃ f', applyBatches f [b₀, b₁] = .ok f' ∧ DeleteHarmless num f f' ptr := by
  have hslot := KeyValueStore.slot_lt ptr.triple
  have hchain := hinv.linked _ hslot _ hc
  have hy : y ∈ ptr.triple.slot :: (as ++ y :: bs) := by simp
  have hleft := hinv.slot_lt hslot hc (hchain.left_mem (x := y) (by simp))
  have hright := hinv.slot_lt hslot hc (hchain.right_mem hy)
  obtain ⟨f₁, hf₁, hlen₁, -, -⟩ := clear_entry (hinv.slot_lt hslot hc hy) hinv.small
    (fits_deleted emptyString emptyString)
  obtain ⟨f₂, hf₂, hlen₂, -⟩ := writeEntry (f := f₁) (slot_end_le (entryCount_congr hlen₁ ▸ hleft))
    (hlen₁ ▸ hinv.small) (fits_right R)
  have hlen : f₂.length = f.length := hlen₂.trans hlen₁
  obtain ⟨f₃, hf₃, hlen₃, hentry⟩ := write_left (f := f₂) (entryAt f y).leftIdx
    (entryCount_congr hlen ▸ hright) (hlen ▸ hinv.small)
  have htwo : applyBatches f [b₀, b₁] = .ok f₂ := by
    have happ := applyBatches_append f [b₀] [b₁]
    rw [hb₀, show applyBatches f [⟨y * 544, unusedFields⟩] = .ok f₁ from hf₁] at happ
    rw [hb₀]
    apply happ.trans
    rw [hb₁]
    exact applyBatches_cons [] hf₂
  have hthree := applyBatches_append f [b₀, b₁]
    [⟨right (entryAt f) y * 544, [encodeU64 (entryAt f y).leftIdx]⟩]
  rw [htwo] at hthree
  -- lookups go by the right links, which the third write leaves as they are
  have hrep := hall f₃ (hthree.trans hf₃)
  refine ⟨f₂, htwo, deleteHarmless_of_readValue h (fun q hq => ?_) hf⟩
  rw [← readValue_eq hrep hq]
  obtain ⟨chain', hinv', -⟩ := hrep
  have hkeep := keeps_of_update_left hentry
  refine hinv'.readValue_congr hlen₃.symm (fun x => (hkeep x).1.symm) (fun x => (hkeep x).2.1.symm)
    (fun x => (hkeep x).2.2.symm) (fun x hu => ?_) q
  by_cases hx : x = right (entryAt f) y
  · -- its left link is that of `y`, a slot of the file
    rw [hentry, hx, Function.update_self] at hu
    exact absurd hu.1 (hinv.ne_maxUInt64 hleft)
  · rwa [hentry, Function.update_of_ne hx] at hu

/-- **An interrupted delete is harmless just if nothing was written yet, or the entry is behind the
head and its left neighbour already leads past it.** In the other cases the lookup of some other key
never ends. -/
theorem interrupted_delete_iff (h : FileInv num f chain) (hf : ptr.triple.file = num)
    {ws : List Batch} (hws : deleteBatches f ptr = .ok (some ws)) (hk : k < ws.length) :
    ∃ f', applyBatches f (ws.take k) = .ok f' ∧ (DeleteHarmless num f f' ptr ↔
      k = 0 ∨ k = 2 ∧ (entryAt f ptr.triple.slot).triple ≠ ptr.triple) := by
  obtain ⟨m, hm⟩ := h.exists_stores
  have hrep : FileRep num f m := ⟨chain, h, hm⟩
  have hstart : ∃ f', applyBatches f (ws.take 0) = .ok f' ∧ (DeleteHarmless num f f' ptr ↔
      0 = 0 ∨ 0 = 2 ∧ (entryAt f ptr.triple.slot).triple ≠ ptr.triple) :=
    ⟨f, rfl, iff_of_true (deleteHarmless_refl hrep hf) (Or.inl rfl)⟩
  obtain ⟨o, ho, hdeleted⟩ := deleteBatches_deleted h ptr
  obtain rfl := Except.ok.inj (hws.symm.trans ho)
  generalize hc : chain ptr.triple.slot = c at hdeleted
  cases hdeleted with
  -- a lone entry takes one write
  | only heq =>
    match k with
    | 0 => exact hstart
    | k + 1 => exact absurd hk (by simp)
  -- the second entry is cleared before the head is made to skip it
  | head y bs heq =>
    obtain ⟨⟨f₁, hf₁, hbad₁⟩, f₂, hf₂, hbad₂⟩ := head_prefix_endless h hf hc (insideFileIdx ptr)
    match k with
    | 0 => exact hstart
    | 1 => exact ⟨f₁, hf₁, iff_of_false hbad₁ (by omega)⟩
    | 2 => exact ⟨f₂, hf₂, iff_of_false hbad₂ (by simp [heq])⟩
    | k + 3 => exact absurd hk (by simp)
  -- the entry is cleared first, so the chain is cut until the second write
  | member as y bs heq hhead =>
    match k with
    | 0 => exact hstart
    | 1 =>
      obtain ⟨f₁, hf₁, hbad⟩ := member_prefix_one h hf hc
      exact ⟨f₁, hf₁, iff_of_false hbad (by omega)⟩
    | 2 =>
      obtain ⟨f₂, hf₂, hgood⟩ := member_prefix_two hrep h hf hc rfl rfl fun f₃ hf₃ => by
        rcases delete_spec ptr hrep hf with ⟨-, hnone⟩ | ⟨-, bs', f', hbs', hf', hrep'⟩
        · rw [hws] at hnone
          cases Except.ok.inj hnone
        · obtain rfl := Option.some.inj (Except.ok.inj (hws.symm.trans hbs'))
          obtain rfl := Except.ok.inj (hf₃.symm.trans hf')
          exact hrep'
      exact ⟨f₂, hf₂, iff_of_true hgood (Or.inr ⟨rfl, hhead⟩)⟩
    | k + 3 => exact absurd hk (by simp)

/-! ## A delete that is cut -/

/-- The delete of the head of a chain with a second entry. -/
theorem FileInv.deleteBatches_head (h : FileInv num f chain) (hf : ptr.triple.file = num)
    (hc : chain ptr.triple.slot = some (y :: bs))
    (hhead : (entryAt f ptr.triple.slot).triple = ptr.triple) :
    ∃ b₁ b₂, deleteBatches f ptr = .ok (some [⟨y * 544, clearedHeader⟩, b₁, b₂]) := by
  obtain ⟨m, hm⟩ := h.exists_stores
  have hmem := hm.triple_mem h (KeyValueStore.slot_lt ptr.triple) hc List.mem_cons_self
  rw [hhead] at hmem
  obtain ⟨o, ho, hdeleted⟩ := deleteBatches_deleted h ptr
  rcases delete_spec ptr ⟨chain, h, hm⟩ hf with ⟨hnone, -⟩ | ⟨-, ws, -, hws, -⟩
  · rw [hnone] at hmem
    cases hmem
  · obtain rfl := Except.ok.inj (ho.symm.trans hws)
    generalize hc' : chain ptr.triple.slot = c at hdeleted
    obtain rfl := hc.symm.trans hc'
    generalize hms : y :: bs = ms at hdeleted
    cases hdeleted with
    | only heq => cases hms
    | head y' bs' heq =>
      cases hms
      exact ⟨_, _, hws⟩
    | member as y' bs' heq hne => exact absurd hhead hne

/-- Both written to a new file, the delete of the head can be cut. -/
theorem exists_cutDelete {a b : KVMessage} (hash1 : b.hash1 = a.hash1) (hash2 : b.hash2 ≠ a.hash2)
    (hmax : b.hash2 ≠ maxUInt64) :
    ∃ f₁ f₂ chain b₀ b₁ b₂, (writeBatches initialFile a).bind (applyBatches initialFile) = .ok f₁ ∧
      (writeBatches f₁ b).bind (applyBatches f₁) = .ok f₂ ∧ FileInv a.triple.file f₂ chain ∧
      deleteBatches f₂ a = .ok (some [b₀, b₁, b₂]) ∧ Returns f₂ b (some b.value) ∧
      ∃ f', applyBatches f₂ [b₀] = .ok f' ∧
        ∀ v n, v.failed = false → readRounds f' b v n = none := by
  have hfile := triple_file_eq hash1
  have hslot := triple_slot_eq hash1
  have hne := triple_ne hash2
  obtain ⟨f₁, f₂, chain, y, bs, hf₁, hf₂, hinv, hm, hc, hhead⟩ :=
    exists_twoEntries hfile hslot hne
  obtain ⟨b₁, b₂, hws⟩ := hinv.deleteBatches_head rfl hc hhead
  have hy := hinv.behind_ne (slot_lt a.triple) hc y List.mem_cons_self
  have hfits : Fits 0 (clearedHeader ++ []) := by rw [List.append_nil]; exact fits_cleared
  obtain ⟨f', hf', hlen, hcleared, hold⟩ := clear_entry hy.1 hinv.small hfits
  rw [List.append_nil] at hf'
  refine ⟨f₁, f₂, chain, _, b₁, b₂, hf₁, hf₂, hinv, hws, ?_, f', hf', ?_⟩
  · have hread := readValue_eq ⟨chain, hinv, hm⟩ hfile
    rw [Function.update_self] at hread
    exact returns_of_readValue hread
  · intro v n hv
    have hc' : chain b.triple.slot = some ([] ++ y :: bs) := by
      rw [hslot, hc]
      rfl
    have hother : ∀ x ∈ [b.triple.slot], x ≠ y := by
      intro x hx
      obtain rfl := List.mem_singleton.1 hx
      rw [hslot]
      exact hy.2.symm
    refine hinv.endless hc' hlen (fun x hx => ?_) hcleared (fun x hx => ?_) hmax hv n
    · rw [right, hold x (hother x hx)]
      exact ⟨rfl, rfl⟩
    · obtain rfl := List.mem_singleton.1 hx
      rw [hslot, hhead]
      exact hne.symm

/-- The delete of `d` is cut after its first batch: the lookup of `ac`, which found its value
before, never ends. -/
theorem cutDelete_hangs :
    ∃ f₁ f₂ chain ws f',
      (writeBatches initialFile pairD1).bind (applyBatches initialFile) = .ok f₁ ∧
      (writeBatches f₁ pairAc2).bind (applyBatches f₁) = .ok f₂ ∧
      FileInv pairD1.triple.file f₂ chain ∧ pairAc2.triple.file = pairD1.triple.file ∧
      pairAc2.triple ≠ pairD1.triple ∧ deleteBatches f₂ pairD1 = .ok (some ws) ∧ 1 < ws.length ∧
      applyBatches f₂ (ws.take 1) = .ok f' ∧ Returns f₂ pairAc2 (some pairAc2.value) ∧
      (∀ v n, v.failed = false → readRounds f' pairAc2 v n = none) ∧
      ¬ DeleteHarmless pairD1.triple.file f₂ f' pairD1 := by
  obtain ⟨f₁, f₂, chain, b₀, b₁, b₂, hf₁, hf₂, hinv, hws, hret, f', hf', hhangs⟩ :=
    exists_cutDelete pairAc2_hash1 pairAc2_hash2.1 pairAc2_hash2.2
  have hfile := triple_file_eq pairAc2_hash1
  have hne := triple_ne pairAc2_hash2.1
  exact ⟨f₁, f₂, chain, _, f', hf₁, hf₂, hinv, hfile, hne, hws, by simp, hf', hret, hhangs,
    not_deleteHarmless ⟨pairAc2, hfile, hne, hhangs⟩⟩

/-- The same delete, with its three batches. -/
theorem interrupted_delete_iff_cut :
    ∃ f ws, deleteBatches f pairD1 = .ok (some ws) ∧ ws.length = 3 ∧
      ∃ f', applyBatches f (ws.take 1) = .ok f' ∧
        (DeleteHarmless pairD1.triple.file f f' pairD1 ↔
          1 = 0 ∨ 1 = 2 ∧ (entryAt f pairD1.triple.slot).triple ≠ pairD1.triple) := by
  obtain ⟨f₁, f₂, chain, b₀, b₁, b₂, -, -, hinv, hws, -⟩ :=
    exists_cutDelete pairAc2_hash1 pairAc2_hash2.1 pairAc2_hash2.2
  exact ⟨f₂, _, hws, rfl, interrupted_delete_iff hinv rfl hws (by simp)⟩

end KeyValueStore
