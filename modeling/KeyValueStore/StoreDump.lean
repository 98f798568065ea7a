import KeyValueStore.StoreRuns
import KeyValueStore.StoreTracks

/-!
# Listing the database files

`read_db_file` reads a file from its start to its end, one entry after another and without looking
at the links, and lists every entry that is in use. `read_all_db` does so for every file. The keys
are found elsewhere by following chains, so it takes the invariant of the files to see that the two
agree: an entry is in use just when it is on a chain.

* `readDbFileRounds_eq` — on a file of whole entries the loop ends at the end of the file, and
  lists each entry in use once.
* `read_all_db_lists_map` — after any calls of the store, the listing is the map: every pair stored
  is listed once, and nothing else is.
-/

namespace KeyValueStore

open ByteBuffer Run

set_option maxRecDepth 4096

/-! ## `read_db_file` -/

/-- The stream of `read_db_file`: what is left to read, and `eofbit`, which here is set together
with `failbit`. -/
structure DumpStream where
  rest : List UInt8
  eof : Bool

namespace DumpStream

/-- `fs.read` of `n` bytes into a variable. A read that meets the end of the file stores what there
is and leaves the rest of the variable; later ones leave all of it. -/
def read (fs : DumpStream) (n : Nat) (old : List UInt8) : List UInt8 × DumpStream :=
  if fs.eof then (old, fs)
  else (fs.rest.take n ++ old.drop fs.rest.length, ⟨fs.rest.drop n, decide (fs.rest.length < n)⟩)

/-- `fs.read` into a `uint64_t`. -/
def readU64 (fs : DumpStream) (old : UInt64) : UInt64 × DumpStream :=
  (decodeU64 (fs.read 8 (encodeU64 old)).1, (fs.read 8 (encodeU64 old)).2)

/-- `fs.read` into a `char[256]`. -/
def readChars (fs : DumpStream) (old : Chars256) : Chars256 × DumpStream :=
  (.ofText (fs.read 256 old.bytes).1, (fs.read 256 old.bytes).2)

/-- `fs.tellg()`, in a file of `size` bytes. -/
def tellg (fs : DumpStream) (size : Nat) : Int := if fs.eof then -1 else size - fs.rest.length

end DumpStream

/-- The variables of `read_db_file`. They are not initialised. -/
structure DumpVars where
  leftIdx : UInt64
  rightIdx : UInt64
  hash1File : UInt64
  hash2File : UInt64
  keyFile : Chars256
  valueFile : Chars256

/-- What `log_info` is given for an entry. It prints only when built with `DEBUGGING_ON`, and of key
and value the characters before the first null; the line has all 256. -/
structure DumpLine where
  tellg : Int
  index : Nat
  leftIdx : UInt64
  rightIdx : UInt64
  hash1 : UInt64
  hash2 : UInt64
  key : Chars256
  value : Chars256
deriving DecidableEq

namespace DumpVars

/-- The read at the start of a round. -/
def readLeftIdx (v : DumpVars) (fs : DumpStream) : DumpVars × DumpStream :=
  let (leftIdx, fs) := fs.readU64 v.leftIdx
  ({ v with leftIdx := leftIdx }, fs)

/-- The five reads that follow it. -/
def readRest (v : DumpVars) (fs : DumpStream) : DumpVars × DumpStream :=
  let (rightIdx, fs) := fs.readU64 v.rightIdx
  let (hash1File, fs) := fs.readU64 v.hash1File
  let (hash2File, fs) := fs.readU64 v.hash2File
  let (keyFile, fs) := fs.readChars v.keyFile
  let (valueFile, fs) := fs.readChars v.valueFile
  (⟨v.leftIdx, rightIdx, hash1File, hash2File, keyFile, valueFile⟩, fs)

/-- The line printed for the entry that was read last, the one before index `i`. -/
def line (v : DumpVars) (tellg : Int) (i : Nat) : DumpLine :=
  ⟨tellg, i - 1, v.leftIdx, v.rightIdx, v.hash1File, v.hash2File, v.keyFile, v.valueFile⟩

end DumpVars

/-- The loop of `read_db_file`, with the lines it prints and the final count. `fuel` bounds the
number of rounds. -/
def readDbFileRounds (size : Nat) : (fuel i : Nat) → DumpVars → DumpStream →
    Except Fault (List DumpLine × Nat)
  | 0, _, _, _ => .error .endless
  | fuel + 1, i, v, fs =>
    if fs.eof then .ok ([], i)
    else
      let (v, fs) := v.readLeftIdx fs
      if fs.eof then .ok ([], i)
      else
        let (v, fs) := v.readRest fs
        if isFileEntryEmpty v.leftIdx v.rightIdx then readDbFileRounds size fuel (i + 1) v fs
        else do
          let (lines, count) ← readDbFileRounds size fuel (i + 1) v fs
          return (v.line (fs.tellg size) (i + 1) :: lines, count)

namespace KVStore

/-- `read_db_file`: the lines and the number of entries, or `none` where it prints an error. Each
round but the last reads at least eight bytes. -/
def readDbFile (s : KVStore) (v : DumpVars) (num : Int) :
    Except Fault (Option (List DumpLine × Nat)) :=
  -- `file_exists_status.test(num)` throws, and a negative number becomes a large one
  if num < 0 ∨ hashTableLen ≤ num then .error .outOfRange
  else if s.fileExistsStatus num.toNat = false then .ok none
  else match s.files num.toNat with
  | none => .ok none
  | some f => do return some (← readDbFileRounds f.length (f.length + 1) 0 v ⟨f, false⟩)

/-- The loop of `read_all_db`, over the files that are left: the lines of each file listed. -/
def readAllDbFrom (s : KVStore) (v : DumpVars) : List Nat → Except Fault (List (List DumpLine))
  | [] => .ok []
  | i :: is =>
    if s.fileExistsStatus i = false then readAllDbFrom s v is
    else do
      let listing ← s.readDbFile v i
      let listings ← readAllDbFrom s v is
      return ((listing.map Prod.fst).getD []) :: listings

def readAllDb (s : KVStore) (v : DumpVars) : Except Fault (List (List DumpLine)) :=
  s.readAllDbFrom v (List.range hashTableLen)

end KVStore

/-! ## One file -/

variable {f : List UInt8} {num x i : Nat} {chain : Nat → Option (List Nat)} {ms : List Nat}
  {m : Triple → Option Chars256}

/-- The entry is not marked as empty. -/
def FileEntry.inUse (e : FileEntry) : Bool := !isFileEntryEmpty e.leftIdx e.rightIdx

theorem inUse_iff {e : FileEntry} : e.inUse = true ↔ ¬ e.Unused := by
  rw [FileEntry.inUse, Bool.not_eq_true', ← Bool.not_eq_true, isFileEntryEmpty_iff,
    FileEntry.Unused]

/-- The line printed for entry `x`. -/
def lineAt (f : List UInt8) (x : Nat) : DumpLine :=
  ⟨((x + 1) * 544 : Nat), x, (entryAt f x).leftIdx, (entryAt f x).rightIdx, (entryAt f x).hash1,
    (entryAt f x).hash2, (entryAt f x).key, (entryAt f x).value⟩

/-- The lines printed for `n` entries from `x` on. -/
def linesFrom (f : List UInt8) (x n : Nat) : List DumpLine :=
  ((List.range' x n).filter fun y => (entryAt f y).inUse).map (lineAt f)

theorem linesFrom_succ (f : List UInt8) (x n : Nat) : linesFrom f x (n + 1) =
    if (entryAt f x).inUse then lineAt f x :: linesFrom f (x + 1) n else linesFrom f (x + 1) n := by
  rw [linesFrom, List.range'_succ, List.filter_cons]
  split_ifs <;> rfl

theorem DumpStream.read_eq {p n : Nat} (h : p + n ≤ f.length) {old : List UInt8}
    (hold : old.length = n) :
    DumpStream.read ⟨f.drop p, false⟩ n old = (slice f p n, ⟨f.drop (p + n), false⟩) := by
  have hlen : (f.drop p).length = f.length - p := List.length_drop
  have hdrop : old.drop (f.drop p).length = [] := List.drop_eq_nil_of_le (by omega)
  rw [DumpStream.read, if_neg Bool.false_ne_true]
  dsimp only
  rw [List.drop_drop, hdrop, List.append_nil, decide_eq_false (by omega)]
  rfl

theorem DumpStream.readU64_eq {p : Nat} (h : p + 8 ≤ f.length) (old : UInt64) :
    DumpStream.readU64 ⟨f.drop p, false⟩ old =
      (decodeU64 (slice f p 8), ⟨f.drop (p + 8), false⟩) := by
  rw [DumpStream.readU64, DumpStream.read_eq h (length_encodeU64 old)]

theorem DumpStream.readChars_eq {p : Nat} (h : p + 256 ≤ f.length) (old : Chars256) :
    DumpStream.readChars ⟨f.drop p, false⟩ old =
      (.ofText (slice f p 256), ⟨f.drop (p + 256), false⟩) := by
  rw [DumpStream.readChars, DumpStream.read_eq h old.length_eq]

/-- The variables after entry `x` has been read. -/
def DumpVars.at (f : List UInt8) (x : Nat) : DumpVars :=
  ⟨(entryAt f x).leftIdx, (entryAt f x).rightIdx, (entryAt f x).hash1, (entryAt f x).hash2,
    (entryAt f x).key, (entryAt f x).value⟩

theorem DumpVars.readLeftIdx_eq (h : x * 544 + 8 ≤ f.length) (v : DumpVars) :
    v.readLeftIdx ⟨f.drop (x * 544), false⟩ =
      ({ v with leftIdx := (entryAt f x).leftIdx }, ⟨f.drop (x * 544 + 8), false⟩) := by
  rw [DumpVars.readLeftIdx, DumpStream.readU64_eq h]
  rfl

theorem DumpVars.readRest_eq (h : (x + 1) * 544 ≤ f.length) {v : DumpVars}
    (hv : v.leftIdx = (entryAt f x).leftIdx) :
    v.readRest ⟨f.drop (x * 544 + 8), false⟩ = (.at f x, ⟨f.drop ((x + 1) * 544), false⟩) := by
  have hnext : x * 544 + 8 + 8 + 8 + 8 + 256 + 256 = (x + 1) * 544 := by omega
  rw [DumpVars.readRest, DumpStream.readU64_eq (by omega)]
  dsimp only
  rw [DumpStream.readU64_eq (by omega)]
  dsimp only
  rw [DumpStream.readU64_eq (by omega)]
  dsimp only
  rw [DumpStream.readChars_eq (by omega)]
  dsimp only
  rw [DumpStream.readChars_eq (by omega), hnext, hv]
  rfl

/-- **The loop prints the entries in use**, of a file of whole entries. -/
theorem readDbFileRounds_eq {n : Nat} (hlen : f.length = (x + n) * 544) {fuel : Nat}
    (hfuel : n < fuel) (v : DumpVars) :
    readDbFileRounds f.length fuel x v ⟨f.drop (x * 544), false⟩ =
      .ok (linesFrom f x n, x + n) := by
  induction n generalizing x fuel v with
  | zero =>
    have hend : f.drop (x * 544) = [] := List.drop_eq_nil_of_le (by omega)
    cases fuel with
    | zero => exact absurd hfuel (Nat.lt_irrefl 0)
    | succ fuel =>
      rw [hend]
      rfl
  | succ n ih =>
    cases fuel with
    | zero => exact absurd hfuel (Nat.not_lt_zero _)
    | succ fuel =>
      have hrest := ih (x := x + 1) (by omega) (Nat.lt_of_succ_lt_succ hfuel) (.at f x)
      have hcount : x + 1 + n = x + (n + 1) := by omega
      have hline : (DumpVars.at f x).line
          (DumpStream.tellg ⟨f.drop ((x + 1) * 544), false⟩ f.length) (x + 1) = lineAt f x := by
        have hpos : (f.length : Int) - (f.drop ((x + 1) * 544)).length = ((x + 1) * 544 : Nat) := by
          rw [List.length_drop]
          omega
        rw [DumpStream.tellg, if_neg Bool.false_ne_true, hpos]
        rfl
      rw [readDbFileRounds, if_neg Bool.false_ne_true, DumpVars.readLeftIdx_eq (by omega)]
      dsimp only
      rw [if_neg Bool.false_ne_true, DumpVars.readRest_eq (by omega) rfl]
      dsimp only
      rw [hrest, hcount, linesFrom_succ, hline]
      -- a `continue` skips the line, and not the count
      by_cases huse : (entryAt f x).inUse = true
      · have hempty : ¬ isFileEntryEmpty (entryAt f x).leftIdx (entryAt f x).rightIdx = true := by
          simpa [FileEntry.inUse] using huse
        rw [if_pos huse]
        exact if_neg hempty
      · have hempty : isFileEntryEmpty (entryAt f x).leftIdx (entryAt f x).rightIdx = true := by
          simpa [FileEntry.inUse] using huse
        rw [if_neg huse]
        exact if_pos hempty

/-! ## Chains and entries in use -/

/-- **An entry is in use just when it is on a chain.** -/
theorem FileInv.inUse_iff (h : FileInv num f chain) (hx : x < entryCount f) :
    (entryAt f x).inUse = true ↔ ∃ i < fileTableLen, ∃ ms, chain i = some ms ∧ x ∈ i :: ms := by
  rw [KeyValueStore.inUse_iff]
  constructor
  · intro huse
    by_contra hout
    apply huse
    by_cases hlt : x < fileTableLen
    · apply h.unused x hlt
      cases hc : chain x with
      | none => rfl
      | some ms => exact absurd ⟨x, hlt, ms, hc, List.mem_cons_self⟩ hout
    · refine h.free x (not_lt.1 hlt) hx fun i hi ms hc hmem => hout ?_
      exact ⟨i, hi, ms, hc, List.mem_cons_of_mem _ hmem⟩
  · rintro ⟨i, hi, ms, hc, hmem⟩ hunused
    exact h.rightIdx_ne hi hc hmem hunused.2

/-- The pair that a line shows. -/
def DumpLine.pair (l : DumpLine) : Triple × Chars256 := (⟨l.hash1, l.hash2, l.key⟩, l.value)

/-- The pairs are those of the map `m`, each of them once. -/
structure Listing (m : Triple → Option Chars256) (ps : List (Triple × Chars256)) : Prop where
  once : (ps.map Prod.fst).Nodup
  mem_iff : ∀ t v, (t, v) ∈ ps ↔ m t = some v

theorem Listing.append {m₁ m₂ : Triple → Option Chars256} {ps₁ ps₂ : List (Triple × Chars256)}
    (h₁ : Listing m₁ ps₁) (h₂ : Listing m₂ ps₂) (hdisj : ∀ t, m₁ t = none ∨ m₂ t = none)
    (hm : ∀ t v, m t = some v ↔ m₁ t = some v ∨ m₂ t = some v) : Listing m (ps₁ ++ ps₂) where
  once := by
    rw [List.map_append, List.nodup_append']
    refine ⟨h₁.once, h₂.once, ?_⟩
    intro t ht₁ ht₂
    obtain ⟨⟨t', v⟩, hv, rfl⟩ := List.mem_map.1 ht₁
    obtain ⟨⟨t'', w⟩, hw, heq⟩ := List.mem_map.1 ht₂
    obtain rfl : t'' = t' := heq
    rcases hdisj t'' with hnone | hnone
    · rw [(h₁.mem_iff t'' v).1 hv] at hnone
      cases hnone
    · rw [(h₂.mem_iff t'' w).1 hw] at hnone
      cases hnone
  mem_iff t v := by rw [List.mem_append, h₁.mem_iff, h₂.mem_iff, hm]

/-- The part of the map in file `num`. -/
def inFile (m : Triple → Option Chars256) (num : Nat) : Triple → Option Chars256 := fun t =>
  if t.file = num then m t else none

theorem FileRep.listing (h : FileRep num f m) :
    Listing (inFile m num)
      ((linesFrom f 0 (entryCount f)).map DumpLine.pair) := by
  obtain ⟨chain, hinv, hstores⟩ := h
  have hpair : (linesFrom f 0 (entryCount f)).map DumpLine.pair =
      ((List.range' 0 (entryCount f)).filter fun y => (entryAt f y).inUse).map
        (pairAt (entryAt f)) := by
    rw [linesFrom, List.map_map]
    rfl
  rw [hpair]
  -- where an entry in use is, and what its hash says of it
  have hchain : ∀ x ∈ (List.range' 0 (entryCount f)).filter fun y => (entryAt f y).inUse,
      ∃ ms, chain (entryAt f x).triple.slot = some ms ∧ x ∈ (entryAt f x).triple.slot :: ms ∧
        (entryAt f x).triple.file = num := by
    intro x hx
    rw [List.mem_filter, List.mem_range'_1] at hx
    obtain ⟨i, hi, ms, hc, hmem⟩ := (hinv.inUse_iff (by omega)).1 hx.2
    obtain ⟨hslot, hfile⟩ := (hinv.linked i hi ms hc).owner x hmem
    obtain rfl : (entryAt f x).triple.slot = i := hslot
    exact ⟨ms, hc, hmem, hfile⟩
  constructor
  · rw [map_fst_pairAt]
    refine List.Nodup.map_on (fun x hx y hy hxy => ?_) (List.Nodup.filter _ List.nodup_range')
    obtain ⟨ms, hc, hxm, -⟩ := hchain x hx
    obtain ⟨ms', hc', hym, -⟩ := hchain y hy
    rw [← hxy] at hc' hym
    obtain rfl := Option.some.inj (hc.symm.trans hc')
    exact List.inj_on_of_nodup_map (hinv.linked _ (slot_lt _) ms hc).distinct hxm hym hxy
  · intro t v
    rw [List.mem_map, inFile, Option.ite_none_right_eq_some]
    constructor
    · rintro ⟨x, hx, hxt⟩
      obtain ⟨rfl, rfl⟩ := Prod.mk.inj hxt
      obtain ⟨ms, hc, hmem, hfile⟩ := hchain x hx
      refine ⟨hfile, (hstores _ hfile _).2 ?_⟩
      rw [hc, contents_some]
      exact List.mem_map_of_mem hmem
    · rintro ⟨hfile, hm⟩
      have hmem := (hstores t hfile v).1 hm
      cases hc : chain t.slot with
      | none =>
        rw [hc] at hmem
        cases hmem
      | some ms =>
        rw [hc, contents_some, List.mem_map] at hmem
        obtain ⟨x, hx, hxt⟩ := hmem
        have hlt := hinv.slot_lt (slot_lt t) hc hx
        refine ⟨x, List.mem_filter.2 ⟨List.mem_range'_1.2 ⟨Nat.zero_le x, by omega⟩, ?_⟩, hxt⟩
        exact (hinv.inUse_iff hlt).2 ⟨t.slot, slot_lt t, ms, hc, hx⟩

/-! ## All files -/

variable {s : KVStore}

theorem KVStore.readDbFile_eq (hnum : num < hashTableLen) (hbit : s.fileExistsStatus num = true)
    (hf : s.files num = some f) (halign : f.length = entryCount f * 544) (v : DumpVars) :
    s.readDbFile v num = .ok (some (linesFrom f 0 (entryCount f), entryCount f)) := by
  have hfuel : entryCount f < f.length + 1 := by omega
  have hlen : f.length = (0 + entryCount f) * 544 := by rw [Nat.zero_add, halign]
  have hrounds := readDbFileRounds_eq hlen hfuel v
  have hin : ¬ ((num : Int) < 0 ∨ (hashTableLen : Int) ≤ num) := by omega
  rw [KVStore.readDbFile, if_neg hin, Int.toNat_natCast, if_neg (by rw [hbit]; decide), hf]
  rw [Nat.zero_add, Nat.zero_mul, List.drop_zero] at hrounds
  dsimp only
  rw [hrounds]
  rfl

theorem KVStore.readAllDbFrom_spec (h : StoreRep s m) (v : DumpVars) {is : List Nat}
    (his : is.Nodup) (hlt : ∀ i ∈ is, i < hashTableLen) :
    ∃ listings, s.readAllDbFrom v is = .ok listings ∧
      Listing (fun t => if t.file ∈ is then m t else none)
        (listings.flatten.map DumpLine.pair) := by
  induction is with
  | nil => exact ⟨[], rfl, List.nodup_nil, by simp⟩
  | cons i is ih =>
    rw [List.nodup_cons] at his
    rw [List.forall_mem_cons] at hlt
    obtain ⟨listings, hread, hlisting⟩ := ih his.2 hlt.2
    rw [readAllDbFrom]
    cases hbit : s.fileExistsStatus i with
    | false =>
      -- a file that does not exist holds no key
      obtain ⟨-, hnone⟩ := h.absent i hlt.1 hbit
      refine ⟨listings, by rw [if_pos rfl, hread], hlisting.once, ?_⟩
      intro t v
      rw [hlisting.mem_iff]
      by_cases ht : t.file = i
      · simp [hnone t ht]
      · simp [ht]
    | true =>
      obtain ⟨f, hf, hrep⟩ := h.present i hlt.1 hbit
      obtain ⟨chain, hinv, -⟩ := id hrep
      refine ⟨linesFrom f 0 (entryCount f) :: listings, ?_, ?_⟩
      · rw [if_neg (by decide), readDbFile_eq hlt.1 hbit hf hinv.length_eq, ok_bind, hread]
        rfl
      · rw [List.flatten_cons, List.map_append]
        refine hrep.listing.append hlisting (fun t => ?_) fun t v => ?_
        · by_cases ht : t.file = i
          · exact Or.inr (if_neg (ht ▸ his.1))
          · exact Or.inl (if_neg ht)
        · by_cases ht : t.file = i
          · simp [inFile, ht, his.1]
          · simp [inFile, ht]

/-- **`read_all_db` lists the map** that the store holds. -/
theorem KVStore.readAllDb_spec (h : StoreRep s m) (v : DumpVars) :
    ∃ listings, s.readAllDb v = .ok listings ∧
      Listing m (listings.flatten.map DumpLine.pair) := by
  obtain ⟨listings, hread, hlisting⟩ := readAllDbFrom_spec h v List.nodup_range
    fun i hi => List.mem_range.1 hi
  refine ⟨listings, hread, hlisting.once, ?_⟩
  intro t w
  rw [hlisting.mem_iff, if_pos (List.mem_range.2 (file_lt t))]

/-! ## Any content -/

theorem DumpStream.length_read_le (fs : DumpStream) (n : Nat) (old : List UInt8) :
    (fs.read n old).2.rest.length ≤ fs.rest.length := by
  rw [DumpStream.read]
  split_ifs
  · exact Nat.le_refl _
  · rw [List.length_drop]
    exact Nat.sub_le _ _

theorem DumpVars.length_readRest_le (v : DumpVars) (fs : DumpStream) :
    (v.readRest fs).2.rest.length ≤ fs.rest.length :=
  ((DumpStream.length_read_le _ _ _).trans <| (DumpStream.length_read_le _ _ _).trans <|
    (DumpStream.length_read_le _ _ _).trans <| (DumpStream.length_read_le _ _ _).trans
      (DumpStream.length_read_le _ _ _))

/-- The loop ends on every stream: a round that goes on has read eight bytes. -/
theorem readDbFileRounds_ends (size : Nat) {fuel : Nat} (i : Nat) (v : DumpVars) (fs : DumpStream)
    (hfuel : fs.rest.length < fuel) :
    ∃ r, readDbFileRounds size fuel i v fs = .ok r := by
  induction fuel generalizing i v fs with
  | zero => exact absurd hfuel (Nat.not_lt_zero _)
  | succ fuel ih =>
    rw [readDbFileRounds]
    split_ifs with heof
    · exact ⟨_, rfl⟩
    · have hfirst : (v.readLeftIdx fs).2 =
          ⟨fs.rest.drop 8, decide (fs.rest.length < 8)⟩ := by
        rw [DumpVars.readLeftIdx, DumpStream.readU64, DumpStream.read, if_neg heof]
      generalize v.readLeftIdx fs = r at hfirst
      obtain ⟨v, fs'⟩ := r
      obtain rfl : fs' = _ := hfirst
      dsimp only
      by_cases hshort : decide (fs.rest.length < 8) = true
      · rw [if_pos hshort]
        exact ⟨_, rfl⟩
      · have hlong : 8 ≤ fs.rest.length := by simpa using hshort
        have hlen := v.length_readRest_le ⟨fs.rest.drop 8, decide (fs.rest.length < 8)⟩
        rw [List.length_drop] at hlen
        obtain ⟨r, hr⟩ := ih (i + 1) (v.readRest _).1 _ (lt_of_le_of_lt hlen (by omega))
        rw [if_neg hshort, hr]
        split_ifs <;> exact ⟨_, rfl⟩

/-- **`read_all_db` ends in every directory**, whatever its files hold. -/
theorem read_all_db_ends (s : KVStore) (v : DumpVars) :
    ∃ listings, s.readAllDb v = .ok listings := by
  have hfile : ∀ i < hashTableLen, ∃ r, s.readDbFile v i = .ok r := by
    intro i hi
    have hin : ¬ ((i : Int) < 0 ∨ (hashTableLen : Int) ≤ i) := by omega
    rw [KVStore.readDbFile, if_neg hin, Int.toNat_natCast]
    split_ifs
    · exact ⟨_, rfl⟩
    · cases s.files i with
      | none => exact ⟨_, rfl⟩
      | some f =>
        obtain ⟨r, hr⟩ := readDbFileRounds_ends f.length 0 v ⟨f, false⟩
          (Nat.lt_succ_self f.length)
        dsimp only
        rw [hr]
        exact ⟨_, rfl⟩
  have hfiles : ∀ is : List Nat, (∀ i ∈ is, i < hashTableLen) →
      ∃ listings, s.readAllDbFrom v is = .ok listings := by
    intro is
    induction is with
    | nil => exact fun _ => ⟨_, rfl⟩
    | cons i is ih =>
      intro hlt
      rw [List.forall_mem_cons] at hlt
      obtain ⟨listings, hread⟩ := ih hlt.2
      obtain ⟨r, hr⟩ := hfile i hlt.1
      rw [KVStore.readAllDbFrom, hread, hr]
      split_ifs <;> exact ⟨_, rfl⟩
  exact hfiles _ fun i hi => List.mem_range.1 hi

/-- **The listing of the files is the map that was written**, after any sequence of calls and
whatever the variables of `read_db_file` hold before: each pair stored is listed once. -/
theorem read_all_db_lists_map (cs : List StoreCall) (v : DumpVars) :
    SucceedsUnlessFull (calls KVStore.call KVStore.fresh cs) fun r =>
      ∃ listings, r.2.readAllDb v = .ok listings ∧
        Listing (specCalls mapCall (fun _ => none) cs).2
          (listings.flatten.map DumpLine.pair) :=
  (calls_spec fresh_rep cs).mono fun _ hr => KVStore.readAllDb_spec hr.2 v

end KeyValueStore
