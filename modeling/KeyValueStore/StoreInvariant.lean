import Mathlib.Data.List.Find
import Mathlib.Data.List.Perm.Subperm
import KeyValueStore.Lib.Ring
import KeyValueStore.Store

/-!
# The representation invariant of a database file

`entryAt f i` is entry `i` of the file `f`. A file is described by its *chains*: for every head
slot either `none`, an unused head, or the slots behind the head in the order of `rightIdx`.

* `FileInv num f chain` — the file numbered `num` is laid out as `chain` says: its chains are
  rings, their entries belong to them, and every other entry is unused.
* `FileRep num f m` — such a file that holds exactly the map `m`.
* `search_eq` — what `searchChain` finds in a file with the invariant.
* `FileRep.edit` — the one place where an edit of one chain is shown to leave every other chain
  and every other key alone.
-/

namespace KeyValueStore

open ByteBuffer

set_option maxRecDepth 4096

/-! ## Entries -/

/-- One entry of a file, decoded. -/
structure FileEntry where
  leftIdx : UInt64
  rightIdx : UInt64
  hash1 : UInt64
  hash2 : UInt64
  key : Chars256
  value : Chars256

namespace FileEntry

def header (x : FileEntry) : EntryHeader := ⟨x.leftIdx, x.rightIdx, x.hash1, x.hash2⟩

def triple (x : FileEntry) : Triple := ⟨x.hash1, x.hash2, x.key⟩

/-- Both links hold `MAX_UINT64`: the mark of an empty head and of a deleted entry. -/
def Unused (x : FileEntry) : Prop := x.leftIdx = maxUInt64 ∧ x.rightIdx = maxUInt64

end FileEntry

/-- Entry `i` of a file. -/
def entryAt (f : List UInt8) (i : Nat) : FileEntry where
  leftIdx := decodeU64 (field entryWidths f i 0)
  rightIdx := decodeU64 (field entryWidths f i 1)
  hash1 := decodeU64 (field entryWidths f i 2)
  hash2 := decodeU64 (field entryWidths f i 3)
  key := Chars256.ofText (field entryWidths f i 4)
  value := Chars256.ofText (field entryWidths f i 5)

/-- The number of entries of a file. -/
def entryCount (f : List UInt8) : Nat := f.length / sizeOfOneEntry

@[simp] theorem entryWidths_sum : entryWidths.sum = 544 := rfl

theorem sizeOfOneEntry_eq : sizeOfOneEntry = 544 := rfl

theorem entryCount_congr {f f' : List UInt8} (h : f'.length = f.length) :
    entryCount f' = entryCount f := by
  rw [entryCount, h, entryCount]

theorem entryCount_append {f f' : List UInt8} (h : f'.length = f.length + 544) :
    entryCount f' = entryCount f + 1 := by
  rw [entryCount, h, sizeOfOneEntry_eq, Nat.add_div_right _ (by decide), entryCount,
    sizeOfOneEntry_eq]

theorem entryCount_mul_le (f : List UInt8) : entryCount f * 544 ≤ f.length :=
  Nat.div_mul_le_self _ _

@[simp] theorem ofText_bytes (c : Chars256) : Chars256.ofText c.bytes = c := by
  apply Chars256.ext
  show (c.bytes ++ List.replicate kvStrLen 0).take kvStrLen = c.bytes
  rw [List.take_append_of_le_length (le_of_eq c.length_eq.symm),
    List.take_of_length_le (le_of_eq c.length_eq)]

/-! ## Reading an entry -/

theorem toNat_insideFileIdx (ptr : KVMessage) :
    (insideFileIdx ptr).toNat = ptr.hash1.toNat % fileTableLen := by
  rw [insideFileIdx, UInt64.toNat_mod]
  rfl

theorem insideFileIdx_lt (ptr : KVMessage) : (insideFileIdx ptr).toNat < fileTableLen := by
  rw [toNat_insideFileIdx]
  exact Nat.mod_lt _ (by decide)

theorem getSeekVal_eq {idx : UInt64} (h : idx.toNat * 544 < 2 ^ 64) :
    getSeekVal idx = idx.toNat * 544 := by
  rw [getSeekVal, UInt64.toNat_mul]
  exact Nat.mod_eq_of_lt h

theorem isFileEntryEmpty_iff {l r : UInt64} :
    isFileEntryEmpty l r = true ↔ l = maxUInt64 ∧ r = maxUInt64 := by
  simp only [isFileEntryEmpty, Bool.and_eq_true, beq_iff_eq]
  constructor
  · intro h
    exact ⟨h.2, h.1 ▸ h.2⟩
  · intro h
    exact ⟨h.1.trans h.2.symm, h.1⟩

theorem not_isFileEntryEmpty {e : FileEntry} (h : e.rightIdx ≠ maxUInt64) :
    ¬ isFileEntryEmpty e.header.leftIdx e.header.rightIdx = true := fun he =>
  h (isFileEntryEmpty_iff.1 he).2

theorem readBytes_eq {f : List UInt8} {p n : Nat} (h : p + n ≤ f.length) :
    readBytes f p n = .ok (slice f p n) := if_pos h

theorem readU64_eq {f : List UInt8} {p : Nat} (h : p + 8 ≤ f.length) :
    readU64 f p = .ok (decodeU64 (slice f p 8)) := by
  rw [readU64, readBytes_eq h]
  rfl

theorem readChars_eq {f : List UInt8} {p : Nat} (h : p + kvStrLen ≤ f.length) :
    readChars f p = .ok (Chars256.ofText (slice f p kvStrLen)) := by
  rw [readChars, dif_pos h]
  congr 1
  exact (ofText_bytes ⟨slice f p kvStrLen, length_slice h⟩).symm

variable {f : List UInt8} {x : Nat}

theorem slot_end_le (h : x < entryCount f) : x * 544 + 544 ≤ f.length := by
  have := entryCount_mul_le f
  omega

theorem readHeader_slot (h : x < entryCount f) :
    readHeader f (x * 544) = .ok (entryAt f x).header := by
  have hend := slot_end_le h
  rw [readHeader, readU64_eq (by omega), readU64_eq (by omega), readU64_eq (by omega),
    readU64_eq (by omega)]
  rfl

theorem keyMatches_slot (h : x < entryCount f) (ptr : KVMessage) :
    keyMatches f (x * 544) (entryAt f x).header ptr =
      .ok (decide ((entryAt f x).triple = ptr.triple)) := by
  have hend := slot_end_le h
  have hkey : readChars f (x * 544 + 32) = .ok (entryAt f x).key :=
    readChars_eq (by rw [kvStrLen]; omega)
  rw [keyMatches, hkey]
  simp only [FileEntry.header, FileEntry.triple, KVMessage.triple, Triple.mk.injEq]
  by_cases h1 : (entryAt f x).hash1 = ptr.hash1 <;>
    by_cases h2 : (entryAt f x).hash2 = ptr.hash2 <;>
    by_cases h3 : (entryAt f x).key = ptr.key <;> simp [h1, h2, h3] <;> rfl

theorem readValue_slot (h : x < entryCount f) :
    readChars f (x * 544 + 32 + 256) = .ok (entryAt f x).value := by
  have hend := slot_end_le h
  exact readChars_eq (by rw [kvStrLen]; omega)

/-! ## Chains -/

/-- The link maps of a file, as functions on slots. -/
def right (e : Nat → FileEntry) (i : Nat) : Nat := (e i).rightIdx.toNat

def left (e : Nat → FileEntry) (i : Nat) : Nat := (e i).leftIdx.toNat

/-- The slots of the chain with head `i`. -/
def slotsOf (i : Nat) : Option (List Nat) → List Nat
  | none => []
  | some ms => i :: ms

/-- The slots `i :: ms` form the chain of head `i` in the file numbered `num`. -/
structure ChainInv (num count : Nat) (e : Nat → FileEntry) (i : Nat) (ms : List Nat) : Prop where
  ring : Ring.Path (right e) (left e) i ms i
  behind : ∀ x ∈ ms, fileTableLen ≤ x ∧ x < count
  owner : ∀ x ∈ i :: ms,
    (e x).hash1.toNat % fileTableLen = i ∧ (e x).hash1.toNat % hashTableLen = num
  distinct : ((i :: ms).map fun x => (e x).triple).Nodup

/-- The file numbered `num` is laid out as `chain` says. -/
structure FileInv (num : Nat) (f : List UInt8) (chain : Nat → Option (List Nat)) : Prop where
  aligned : f.length % sizeOfOneEntry = 0
  heads : fileTableLen * sizeOfOneEntry ≤ f.length
  small : f.length ≤ maxFileOffset
  unused : ∀ i < fileTableLen, chain i = none → (entryAt f i).Unused
  linked : ∀ i < fileTableLen, ∀ ms, chain i = some ms →
    ChainInv num (entryCount f) (entryAt f) i ms
  free : ∀ x, fileTableLen ≤ x → x < entryCount f →
    (∀ i < fileTableLen, ∀ ms, chain i = some ms → x ∉ ms) → (entryAt f x).Unused

/-- The pairs stored on a chain. -/
def contents (e : Nat → FileEntry) (i : Nat) (c : Option (List Nat)) : List (Triple × Chars256) :=
  (slotsOf i c).map fun x => ((e x).triple, (e x).value)

/-- The head of the chain a triple belongs to. -/
def Triple.slot (t : Triple) : Nat := t.hash1.toNat % fileTableLen

/-- The number of the file a triple belongs to. -/
def Triple.file (t : Triple) : Nat := t.hash1.toNat % hashTableLen

/-- On the triples of file `num`, the chains hold exactly the map `m`. -/
def Stores (num : Nat) (f : List UInt8) (chain : Nat → Option (List Nat))
    (m : Triple → Option Chars256) : Prop :=
  ∀ t : Triple, t.file = num →
    ∀ v, m t = some v ↔ (t, v) ∈ contents (entryAt f) t.slot (chain t.slot)

/-- The file numbered `num` has the invariant and holds the map `m`. -/
def FileRep (num : Nat) (f : List UInt8) (m : Triple → Option Chars256) : Prop :=
  ∃ chain, FileInv num f chain ∧ Stores num f chain m

variable {num count : Nat} {e : Nat → FileEntry} {i : Nat} {ms : List Nat}
  {chain : Nat → Option (List Nat)}

theorem ChainInv.nodup (h : ChainInv num count e i ms) : (i :: ms).Nodup :=
  List.Nodup.of_map _ h.distinct

theorem FileInv.length_eq (h : FileInv num f chain) : f.length = entryCount f * 544 := by
  have := h.aligned
  rw [sizeOfOneEntry_eq] at this
  have := Nat.div_add_mod f.length 544
  rw [entryCount, sizeOfOneEntry_eq]
  omega

theorem FileInv.fileTableLen_le (h : FileInv num f chain) : fileTableLen ≤ entryCount f :=
  (Nat.le_div_iff_mul_le (by decide)).2 h.heads

theorem FileInv.entryCount_lt (h : FileInv num f chain) : entryCount f * 544 < 2 ^ 63 := by
  have hs := h.small
  have := entryCount_mul_le f
  rw [maxFileOffset] at hs
  omega

theorem FileInv.slot_lt (h : FileInv num f chain) (hi : i < fileTableLen) (hc : chain i = some ms)
    (hx : x ∈ i :: ms) : x < entryCount f := by
  rcases List.mem_cons.1 hx with rfl | hx
  · exact lt_of_lt_of_le hi h.fileTableLen_le
  · exact ((h.linked i hi ms hc).behind x hx).2

theorem FileInv.disjoint (h : FileInv num f chain) {j : Nat} {ns : List Nat}
    (hi : i < fileTableLen) (hj : j < fileTableLen) (hci : chain i = some ms)
    (hcj : chain j = some ns) (hxi : x ∈ i :: ms) (hxj : x ∈ j :: ns) : i = j := by
  rw [← ((h.linked i hi ms hci).owner x hxi).1, ((h.linked j hj ns hcj).owner x hxj).1]

/-! ## The search -/

theorem FileInv.getSeekVal_slot (h : FileInv num f chain) {idx : UInt64}
    (hidx : idx.toNat < entryCount f) : getSeekVal idx = idx.toNat * 544 := by
  have := h.entryCount_lt
  exact getSeekVal_eq (by omega)

theorem toNat_ofNat_slot (h : FileInv num f chain) (hx : x ≤ entryCount f) :
    (UInt64.ofNat x).toNat = x := by
  have := h.entryCount_lt
  exact UInt64.toNat_ofNat_of_lt' (by simp [UInt64.size]; omega)

/-- A link that leads to a slot of the file is not the mark of an unused entry. -/
theorem FileInv.ne_maxUInt64 (h : FileInv num f chain) {idx : UInt64}
    (hidx : idx.toNat < entryCount f) : idx ≠ maxUInt64 := by
  have := h.entryCount_lt
  rintro rfl
  simp [maxUInt64] at hidx
  omega

/-- Whether a matching entry is behind the head, and which entry is the last one. -/
def scanResult (f : List UInt8) (ptr : KVMessage) (ms : List Nat) (last : UInt64) : Search :=
  match ms.find? fun y => (entryAt f y).triple = ptr.triple with
  | some y => .member (UInt64.ofNat y) (entryAt f y).header
  | none => .absent ((ms.map UInt64.ofNat).getLastD last)

/-- The loop finds the first entry that matches or ends at the last entry of the chain. It follows
`rightIdx` only. -/
theorem scan_walk (hcount : entryCount f * 544 < 2 ^ 64) (ptr : KVMessage) {a : Nat} {last : UInt64}
    {fuel : Nat} (hwalk : Ring.Walk (right (entryAt f)) a ms (insideFileIdx ptr).toNat)
    (hms : ∀ y ∈ ms, y < entryCount f ∧ y ≠ (insideFileIdx ptr).toNat) (hfuel : ms.length ≤ fuel) :
    scanChain f ptr fuel (entryAt f a).rightIdx last = .ok (scanResult f ptr ms last) := by
  induction ms generalizing a last fuel with
  | nil =>
    have hend : (entryAt f a).rightIdx = insideFileIdx ptr := UInt64.toNat_inj.1 hwalk
    cases fuel <;> rw [scanChain, if_pos hend] <;> rfl
  | cons y ms ih =>
    obtain ⟨hay, hrest⟩ := hwalk
    obtain ⟨hylt, hyne⟩ := hms y (by simp)
    have hcur : (entryAt f a).rightIdx = UInt64.ofNat y := by
      rw [← hay]
      exact (UInt64.ofNat_toNat).symm
    have hne : (entryAt f a).rightIdx ≠ insideFileIdx ptr := fun he =>
      hyne (by rw [← he]; exact hay.symm)
    cases fuel with
    | zero => simp at hfuel
    | succ fuel =>
      have hseek : getSeekVal (entryAt f a).rightIdx = y * 544 := by
        have hay' : (entryAt f a).rightIdx.toNat = y := hay
        rw [getSeekVal_eq (by rw [hay']; omega), hay']
      rw [scanChain, if_neg hne, hseek, readHeader_slot hylt, ok_bind, keyMatches_slot hylt,
        ok_bind, scanResult, List.find?_cons]
      by_cases hm : (entryAt f y).triple = ptr.triple
      · simp only [hm, decide_true, hcur]
        rfl
      · simp only [hm, decide_false]
        rw [List.map_cons, List.getLastD_cons, ← hcur]
        exact ih hrest (fun z hz => hms z (List.mem_cons_of_mem _ hz)) (by simpa using hfuel)

/-- The chain and the search see the same entries. -/
def searchResult (f : List UInt8) (ptr : KVMessage) : Option (List Nat) → Search
  | none => .empty
  | some ms =>
    let i := (insideFileIdx ptr).toNat
    if (entryAt f i).triple = ptr.triple then .head (entryAt f i).header
    else match ms.find? fun y => (entryAt f y).triple = ptr.triple with
    | some y => .member (UInt64.ofNat y) (entryAt f y).header
    | none => .absent (entryAt f i).leftIdx

theorem scanResult_last (ptr : KVMessage) {last : UInt64}
    (hlast : last.toNat = ms.getLastD last.toNat) :
    scanResult f ptr ms last = match ms.find? fun y => (entryAt f y).triple = ptr.triple with
      | some y => .member (UInt64.ofNat y) (entryAt f y).header
      | none => .absent last := by
  have hend : (ms.map UInt64.ofNat).getLastD last = last := by
    rcases List.eq_nil_or_concat ms with rfl | ⟨ys, y, rfl⟩
    · rfl
    · rw [List.concat_eq_append, List.getLastD_concat] at hlast
      rw [List.concat_eq_append, List.map_append, List.map_singleton, List.getLastD_concat, ← hlast]
      exact UInt64.ofNat_toNat
  rw [scanResult, hend]

theorem search_unused (hcount : entryCount f * 544 < 2 ^ 64) (hheads : fileTableLen ≤ entryCount f)
    (ptr : KVMessage) (hunused : (entryAt f (insideFileIdx ptr).toNat).Unused) :
    searchChain f ptr = .ok .empty := by
  have hlt : (insideFileIdx ptr).toNat < entryCount f :=
    lt_of_lt_of_le (insideFileIdx_lt ptr) hheads
  rw [searchChain, getSeekVal_eq (by omega), readHeader_slot hlt, ok_bind]
  exact if_pos (isFileEntryEmpty_iff.2 hunused)

theorem search_walk (hcount : entryCount f * 544 < 2 ^ 64) (hheads : fileTableLen ≤ entryCount f)
    (ptr : KVMessage) (hused : (entryAt f (insideFileIdx ptr).toNat).rightIdx ≠ maxUInt64)
    (hwalk : Ring.Walk (right (entryAt f)) (insideFileIdx ptr).toNat ms (insideFileIdx ptr).toNat)
    (hms : ∀ y ∈ ms, y < entryCount f ∧ y ≠ (insideFileIdx ptr).toNat)
    (hlen : ms.length ≤ f.length) : searchChain f ptr = .ok
      (if (entryAt f (insideFileIdx ptr).toNat).triple = ptr.triple then
        .head (entryAt f (insideFileIdx ptr).toNat).header
      else scanResult f ptr ms (entryAt f (insideFileIdx ptr).toNat).leftIdx) := by
  have hlt : (insideFileIdx ptr).toNat < entryCount f :=
    lt_of_lt_of_le (insideFileIdx_lt ptr) hheads
  rw [searchChain, getSeekVal_eq (by omega), readHeader_slot hlt, ok_bind,
    if_neg (not_isFileEntryEmpty hused), keyMatches_slot hlt, ok_bind]
  by_cases hm : (entryAt f (insideFileIdx ptr).toNat).triple = ptr.triple
  · simp only [hm, decide_true, if_true]
    rfl
  · simp only [hm, decide_false, if_false]
    exact scan_walk hcount ptr hwalk hms hlen

theorem FileInv.length_le (h : FileInv num f chain) (hi : i < fileTableLen)
    (hc : chain i = some ms) : ms.length ≤ f.length := by
  have hsub : i :: ms ⊆ List.range (entryCount f) := fun y hy =>
    List.mem_range.2 (h.slot_lt hi hc hy)
  have hcard := (List.Nodup.subperm (h.linked i hi ms hc).nodup hsub).length_le
  have hcount := entryCount_mul_le f
  simp only [List.length_cons, List.length_range] at hcard
  omega

theorem FileInv.behind_ne (h : FileInv num f chain) (hi : i < fileTableLen)
    (hc : chain i = some ms) : ∀ y ∈ ms, y < entryCount f ∧ y ≠ i := by
  intro y hy
  obtain ⟨hge, hlt⟩ := (h.linked i hi ms hc).behind y hy
  refine ⟨hlt, ?_⟩
  rintro rfl
  exact absurd hi (not_lt.2 hge)

/-- **The search terminates, stays inside the file and finds what the chain holds.** -/
theorem search_eq (h : FileInv num f chain) (ptr : KVMessage) :
    searchChain f ptr = .ok (searchResult f ptr (chain (insideFileIdx ptr).toNat)) := by
  have hi := insideFileIdx_lt ptr
  have hcount := h.entryCount_lt
  cases hc : chain (insideFileIdx ptr).toNat with
  | none => exact search_unused (by omega) h.fileTableLen_le ptr (h.unused _ hi hc)
  | some ms =>
    have hinv := h.linked _ hi ms hc
    have hnext : (entryAt f (insideFileIdx ptr).toNat).rightIdx.toNat < entryCount f := by
      have hmem := hinv.ring.next_mem
      apply h.slot_lt hi hc (x := right (entryAt f) (insideFileIdx ptr).toNat)
      simpa [or_comm] using hmem
    rw [search_walk (by omega) h.fileTableLen_le ptr (h.ne_maxUInt64 hnext) hinv.ring.walk
      (h.behind_ne hi hc) (h.length_le hi hc), searchResult]
    have hprev := hinv.ring.prev_end
    rw [scanResult_last ptr (by cases ms with
      | nil => rfl
      | cons y bs => exact hprev)]

/-! ## Editing one chain -/

/-- The chain invariant reads only links and triples, and only in the slots of its chain. -/
theorem ChainInv.congr {e' : Nat → FileEntry} {count' : Nat} (h : ChainInv num count e i ms)
    (hl : ∀ x ∈ i :: ms, (e' x).leftIdx = (e x).leftIdx)
    (hr : ∀ x ∈ i :: ms, (e' x).rightIdx = (e x).rightIdx)
    (ht : ∀ x ∈ i :: ms, (e' x).triple = (e x).triple) (hcount : count ≤ count') :
    ChainInv num count' e' i ms where
  ring := by
    refine h.ring.congr (fun y hy => ?_) fun y hy => ?_
    · rw [right, hr y hy, right]
    · rw [left, hl y (by simpa [or_comm] using hy), left]
  behind x hx := ⟨(h.behind x hx).1, lt_of_lt_of_le (h.behind x hx).2 hcount⟩
  owner x hx := by
    rw [show (e' x).hash1 = (e x).hash1 from congrArg Triple.hash1 (ht x hx)]
    exact h.owner x hx
  distinct := by
    rw [List.map_congr_left ht]
    exact h.distinct

/-- An edit of the file `f` to `f'` that touches, below the old end of file, only the slots of the
chain of `i`, and leaves that chain as `c`. -/
structure ChainEdit (num : Nat) (f f' : List UInt8) (chain : Nat → Option (List Nat)) (i : Nat)
    (c : Option (List Nat)) : Prop where
  head_lt : i < fileTableLen
  aligned : f'.length % sizeOfOneEntry = 0
  grows : f.length ≤ f'.length
  small : f'.length ≤ maxFileOffset
  frame : ∀ x < entryCount f, x ∉ i :: slotsOf i (chain i) → entryAt f' x = entryAt f x
  unused : c = none → (entryAt f' i).Unused
  linked : ∀ ms, c = some ms → ChainInv num (entryCount f') (entryAt f') i ms
  dropped : ∀ x, fileTableLen ≤ x → x < entryCount f' →
    (x ∈ slotsOf i (chain i) ∨ entryCount f ≤ x) → x ∉ slotsOf i c → (entryAt f' x).Unused

variable {f' : List UInt8} {c : Option (List Nat)}

theorem entryCount_mono (h : f.length ≤ f'.length) : entryCount f ≤ entryCount f' :=
  Nat.div_le_div_right h

theorem ChainEdit.entryAt_eq (he : ChainEdit num f f' chain i c) (h : FileInv num f chain) {j : Nat}
    (hj : j < fileTableLen) (hji : j ≠ i) {ns : List Nat} (hcj : chain j = some ns)
    (hx : x ∈ j :: ns) : entryAt f' x = entryAt f x := by
  apply he.frame x (h.slot_lt hj hcj hx)
  intro hmem
  rcases List.mem_cons.1 hmem with rfl | hmem
  · rcases List.mem_cons.1 hx with rfl | hx
    · exact hji rfl
    · exact absurd he.head_lt (not_lt.2 ((h.linked j hj ns hcj).behind x hx).1)
  · cases hci : chain i with
    | none => rw [hci] at hmem; simp [slotsOf] at hmem
    | some ms =>
      rw [hci] at hmem
      exact hji (h.disjoint hj he.head_lt hcj hci hx hmem)

theorem ChainEdit.fileInv (he : ChainEdit num f f' chain i c) (h : FileInv num f chain) :
    FileInv num f' (Function.update chain i c) where
  aligned := he.aligned
  heads := le_trans h.heads he.grows
  small := he.small
  unused j hj hc := by
    -- chain `i` is as the edit left it; the others read only slots that it did not touch
    by_cases hji : j = i
    · rw [hji, Function.update_self] at hc
      rw [hji]
      exact he.unused hc
    · rw [Function.update_of_ne hji] at hc
      have hnot : j ∉ i :: slotsOf i (chain i) := by
        intro hmem
        rcases List.mem_cons.1 hmem with hmem | hmem
        · exact hji hmem
        · cases hci : chain i with
          | none => rw [hci] at hmem; simp [slotsOf] at hmem
          | some ms =>
            rw [hci] at hmem
            rcases List.mem_cons.1 hmem with hmem | hmem
            · exact hji hmem
            · exact absurd hj (not_lt.2 ((h.linked i he.head_lt ms hci).behind j hmem).1)
      rw [he.frame j (lt_of_lt_of_le hj h.fileTableLen_le) hnot]
      exact h.unused j hj hc
  linked j hj ms hc := by
    by_cases hji : j = i
    · subst hji
      rw [Function.update_self] at hc
      exact he.linked ms hc
    · rw [Function.update_of_ne hji] at hc
      have hsame := fun x hx => he.entryAt_eq h hj hji hc (x := x) hx
      exact (h.linked j hj ms hc).congr (fun x hx => by rw [hsame x hx])
        (fun x hx => by rw [hsame x hx]) (fun x hx => by rw [hsame x hx]) (entryCount_mono he.grows)
  free x hx hlt hout := by
    have hnew : x ∉ slotsOf i c := by
      intro hmem
      cases c with
      | none => simp [slotsOf] at hmem
      | some ms =>
        rcases List.mem_cons.1 hmem with rfl | hmem
        · exact absurd he.head_lt (not_lt.2 hx)
        · exact hout i he.head_lt ms (Function.update_self ..) hmem
    -- an overflow slot that is free now was on the chain, or is new, or was free before
    by_cases hold : x ∈ slotsOf i (chain i) ∨ entryCount f ≤ x
    · exact he.dropped x hx hlt hold hnew
    · rw [not_or, not_le] at hold
      have hne : x ≠ i := fun hxi => absurd he.head_lt (not_lt.2 (hxi ▸ hx))
      rw [he.frame x hold.2 (by simp [hne, hold.1])]
      refine h.free x hx hold.2 fun j hj ns hcj hmem => ?_
      by_cases hji : j = i
      · subst hji
        rw [hcj] at hold
        exact hold.1 (List.mem_cons_of_mem _ hmem)
      · exact hout j hj ns (by rw [Function.update_of_ne hji, hcj]) hmem

/-- **Editing one chain edits one part of the map.** -/
theorem FileRep.edit {m m' : Triple → Option Chars256}
    (he : ChainEdit num f f' chain i c) (h : FileInv num f chain)
    (hm : Stores num f chain m)
    (hother : ∀ t : Triple, t.slot ≠ i → m' t = m t)
    (hsame : ∀ t : Triple, t.file = num → t.slot = i → ∀ v,
      m' t = some v ↔ (t, v) ∈ contents (entryAt f') i c) : FileRep num f' m' := by
  refine ⟨Function.update chain i c, he.fileInv h, ?_⟩
  intro t ht v
  by_cases hti : t.slot = i
  · rw [hti, Function.update_self]
    exact hsame t ht hti v
  · rw [Function.update_of_ne hti, hother t hti, hm t ht v]
    cases hct : chain t.slot with
    | none => rfl
    | some ns =>
      have hslot : t.slot < fileTableLen := Nat.mod_lt _ (by decide)
      rw [contents, contents, slotsOf, List.map_congr_left fun x hx => by
        rw [← he.entryAt_eq h hslot hti hct hx]]

end KeyValueStore
