import KeyValueStore.StoreRuns

/-!
# `read_from_db` on a stream that may fail

A seek to a position outside the file makes the stream fail. A failed stream ignores every later
seek and read: the variables keep their values, and the search goes on with them. So the search
returns or goes on for ever; it never stops with an error.

`readRounds` is `read_from_db` on an open file with this behaviour, cut off after a number of rounds
of its loop.

* `readRounds_of_readValue` — where `readValue` returns, the search returns the same after finitely
  many rounds.
* `readRounds_cleared` — a search that comes to a cleared entry without finding its key never ends.
-/

namespace KeyValueStore

open ByteBuffer Run

set_option maxRecDepth 4096

/-! ## The search, round by round -/

/-- The variables of the search, and whether its stream has failed. -/
structure SearchVars where
  failed : Bool
  hdr : EntryHeader
  keyFile : Chars256

/-- `fs.read` into a variable: a stream that has failed, or fails now, leaves the variable as it
was. -/
def readInto {α : Type} (failed : Bool) (old : α) (x : Except Fault α) : Bool × α :=
  if failed then (true, old)
  else match x with
  | .ok a => (false, a)
  | .error _ => (true, old)

namespace SearchVars

/-- The four reads that follow a seek to an entry. -/
def readHeader (f : List UInt8) (p : Nat) (v : SearchVars) : SearchVars :=
  let leftIdx := readInto v.failed v.hdr.leftIdx (readU64 f p)
  let rightIdx := readInto leftIdx.1 v.hdr.rightIdx (readU64 f (p + 8))
  let hash1 := readInto rightIdx.1 v.hdr.hash1 (readU64 f (p + 16))
  let hash2 := readInto hash1.1 v.hdr.hash2 (readU64 f (p + 24))
  { v with failed := hash2.1, hdr := ⟨leftIdx.2, rightIdx.2, hash1.2, hash2.2⟩ }

/-- The comparison with the entry whose header was just read: the value, if the entry matches. -/
def compare (f : List UInt8) (p : Nat) (ptr : KVMessage) (v : SearchVars) :
    Option Chars256 × SearchVars :=
  if v.hdr.hash1 = ptr.hash1 ∧ v.hdr.hash2 = ptr.hash2 then
    let key := readInto v.failed v.keyFile (readChars f (p + 32))
    let v := { v with failed := key.1, keyFile := key.2 }
    if v.keyFile = ptr.key then
      (some (readInto v.failed ptr.value (readChars f (p + 32 + 256))).2, v)
    else (none, v)
  else (none, v)

end SearchVars

/-- The loop over the chain behind its head, for at most so many rounds: `none` if it still runs. -/
def searchRounds (f : List UInt8) (ptr : KVMessage) :
    Nat → SearchVars → UInt64 → Option (Option Chars256)
  | 0, _, currentFileIdx => if currentFileIdx = insideFileIdx ptr then some none else none
  | n + 1, v, currentFileIdx =>
    if currentFileIdx = insideFileIdx ptr then some none
    else
      let p := getSeekVal currentFileIdx
      let r := (v.readHeader f p).compare f p ptr
      match r.1 with
      | some value => some (some value)
      | none => searchRounds f ptr n r.2 r.2.hdr.rightIdx

/-- `read_from_db` on an open file, for at most so many rounds of its loop, with the variables as
the function finds them. -/
def readRounds (f : List UInt8) (ptr : KVMessage) (v : SearchVars) (n : Nat) :
    Option (Option Chars256) :=
  let p := getSeekVal (insideFileIdx ptr)
  let v := v.readHeader f p
  if isFileEntryEmpty v.hdr.leftIdx v.hdr.rightIdx then some none
  else
    let r := v.compare f p ptr
    match r.1 with
    | some value => some (some value)
    | none => searchRounds f ptr n r.2 r.2.hdr.rightIdx

/-- The search returns `r`, whatever its variables hold at the start. -/
def Returns (f : List UInt8) (ptr : KVMessage) (r : Option Chars256) : Prop :=
  ∀ v : SearchVars, v.failed = false → ∃ n, readRounds f ptr v n = some r

variable {f : List UInt8} {ptr : KVMessage} {v : SearchVars} {p n : Nat} {hdr : EntryHeader}

/-! ## Streams that do not fail -/

theorem readInto_ok {α : Type} (old a : α) : readInto false old (.ok a) = (false, a) := rfl

theorem readHeader_vars (h : readHeader f p = .ok hdr) (hv : v.failed = false) :
    v.readHeader f p = { v with failed := false, hdr := hdr } := by
  rw [readHeader] at h
  cases hl : readU64 f p with
  | error e => rw [hl] at h; cases h
  | ok l =>
    cases hr : readU64 f (p + 8) with
    | error e => rw [hl, hr] at h; cases h
    | ok r =>
      cases h1 : readU64 f (p + 16) with
      | error e => rw [hl, hr, h1] at h; cases h
      | ok x =>
        cases h2 : readU64 f (p + 24) with
        | error e => rw [hl, hr, h1, h2] at h; cases h
        | ok y =>
          rw [hl, hr, h1, h2] at h
          obtain rfl := Except.ok.inj h
          simp only [SearchVars.readHeader, hv, hl, hr, h1, h2, readInto_ok]

theorem readChars_of_keyMatches {b : Bool} (h : keyMatches f p hdr ptr = .ok b)
    (hhash : hdr.hash1 = ptr.hash1 ∧ hdr.hash2 = ptr.hash2) :
    ∃ k, readChars f (p + 32) = .ok k ∧ (k = ptr.key ↔ b = true) := by
  rw [keyMatches, if_pos hhash] at h
  cases hk : readChars f (p + 32) with
  | error e => rw [hk] at h; cases h
  | ok k =>
    rw [hk] at h
    obtain rfl := Except.ok.inj h
    exact ⟨k, rfl, beq_iff_eq.symm⟩

theorem compare_ne (h : keyMatches f p v.hdr ptr = .ok false) (hv : v.failed = false) :
    (v.compare f p ptr).1 = none ∧ (v.compare f p ptr).2.failed = false ∧
      (v.compare f p ptr).2.hdr = v.hdr := by
  rw [SearchVars.compare]
  by_cases hhash : v.hdr.hash1 = ptr.hash1 ∧ v.hdr.hash2 = ptr.hash2
  · obtain ⟨k, hk, hkey⟩ := readChars_of_keyMatches h hhash
    have hne : k ≠ ptr.key := fun he => by cases hkey.1 he
    rw [if_pos hhash, hv, hk, readInto_ok]
    dsimp only
    rw [if_neg hne]
    exact ⟨rfl, rfl, rfl⟩
  · rw [if_neg hhash]
    exact ⟨rfl, hv, rfl⟩

theorem compare_eq {w : Chars256} (h : keyMatches f p v.hdr ptr = .ok true) (hv : v.failed = false)
    (hw : readChars f (p + 32 + 256) = .ok w) : (v.compare f p ptr).1 = some w := by
  rw [SearchVars.compare]
  by_cases hhash : v.hdr.hash1 = ptr.hash1 ∧ v.hdr.hash2 = ptr.hash2
  · obtain ⟨k, hk, hkey⟩ := readChars_of_keyMatches h hhash
    rw [if_pos hhash, hv, hk, readInto_ok]
    dsimp only
    rw [if_pos (hkey.2 rfl), hw, readInto_ok]
  · rw [keyMatches, if_neg hhash] at h
    cases h

/-- What a search that ended returns. -/
def searchValue (f : List UInt8) (ptr : KVMessage) : Search → Except Fault (Option Chars256)
  | .empty | .absent _ => .ok none
  | .head _ => do return some (← readChars f (getSeekVal (insideFileIdx ptr) + 32 + 256))
  | .member idx _ => do return some (← readChars f (getSeekVal idx + 32 + 256))

theorem readValue_eq_bind (f : List UInt8) (ptr : KVMessage) :
    readValue f ptr = (searchChain f ptr).bind (searchValue f ptr) := by
  rw [readValue]
  cases searchChain f ptr with
  | error e => rfl
  | ok r => cases r <;> rfl

/-- One round that finds nothing. -/
theorem searchRounds_succ {cur : UInt64} (hne : cur ≠ insideFileIdx ptr)
    (hhdr : readHeader f (getSeekVal cur) = .ok hdr)
    (hkey : keyMatches f (getSeekVal cur) hdr ptr = .ok false) (hv : v.failed = false) :
    ∃ v' : SearchVars, v'.failed = false ∧ v'.hdr = hdr ∧
      searchRounds f ptr (n + 1) v cur = searchRounds f ptr n v' hdr.rightIdx := by
  have hread := readHeader_vars hhdr hv
  obtain ⟨hnone, hfailed, hsame⟩ := compare_ne (v := v.readHeader f (getSeekVal cur))
    (by rw [hread]; exact hkey) (by rw [hread])
  have hhdr' : (v.readHeader f (getSeekVal cur)).hdr = hdr := by rw [hread]
  rw [hhdr'] at hsame
  refine ⟨_, hfailed, hsame, ?_⟩
  rw [searchRounds, if_neg hne]
  dsimp only
  rw [hnone, hsame]

/-- The loop ends as the search of the model does. -/
theorem searchRounds_of_scanChain {fuel : Nat} {cur last : UInt64} {r : Search}
    {o : Option Chars256} (hscan : scanChain f ptr fuel cur last = .ok r)
    (hvalue : searchValue f ptr r = .ok o) (hv : v.failed = false) :
    searchRounds f ptr fuel v cur = some o := by
  induction fuel generalizing v cur last with
  | zero =>
    rw [scanChain] at hscan
    rw [searchRounds]
    split_ifs at hscan ⊢
    obtain rfl := Except.ok.inj hscan
    exact congrArg some (Except.ok.inj hvalue)
  | succ fuel ih =>
    rw [scanChain] at hscan
    by_cases hend : cur = insideFileIdx ptr
    · rw [if_pos hend] at hscan
      rw [searchRounds, if_pos hend]
      obtain rfl := Except.ok.inj hscan
      exact congrArg some (Except.ok.inj hvalue)
    · rw [if_neg hend] at hscan
      cases hhdr : readHeader f (getSeekVal cur) with
      | error e => rw [hhdr] at hscan; cases hscan
      | ok hdr =>
        rw [hhdr, ok_bind] at hscan
        cases hkey : keyMatches f (getSeekVal cur) hdr ptr with
        | error e => rw [hkey] at hscan; cases hscan
        | ok b =>
          rw [hkey, ok_bind] at hscan
          cases b with
          -- the round compares the header that the model has read, and goes on as the model does
          | false =>
            obtain ⟨v', hv', -, hround⟩ := searchRounds_succ (n := fuel) hend hhdr hkey hv
            rw [hround]
            exact ih hscan hv'
          | true =>
            obtain rfl := Except.ok.inj hscan
            have hread := readHeader_vars hhdr hv
            rw [searchValue] at hvalue
            cases hw : readChars f (getSeekVal cur + 32 + 256) with
            | error e => rw [hw] at hvalue; cases hvalue
            | ok w =>
              rw [hw] at hvalue
              obtain rfl := Except.ok.inj hvalue
              have hfound := compare_eq (v := v.readHeader f (getSeekVal cur))
                (by rw [hread]; exact hkey) (by rw [hread]) hw
              rw [searchRounds, if_neg hend]
              dsimp only
              rw [hfound]

/-- **Where the model returns, the search returns the same.** -/
theorem returns_of_readValue {o : Option Chars256} (h : readValue f ptr = .ok o) :
    Returns f ptr o := by
  intro v hv
  refine ⟨f.length, ?_⟩
  rw [readValue_eq_bind, searchChain] at h
  rw [readRounds]
  dsimp only
  cases hhdr : readHeader f (getSeekVal (insideFileIdx ptr)) with
  | error e => rw [hhdr] at h; cases h
  | ok hdr =>
    rw [hhdr, ok_bind] at h
    have hread := readHeader_vars hhdr hv
    have hhdr' : (v.readHeader f (getSeekVal (insideFileIdx ptr))).hdr = hdr := by rw [hread]
    have hv' : (v.readHeader f (getSeekVal (insideFileIdx ptr))).failed = false := by rw [hread]
    generalize v.readHeader f (getSeekVal (insideFileIdx ptr)) = v' at hhdr' hv'
    subst hhdr'
    by_cases hempty : isFileEntryEmpty v'.hdr.leftIdx v'.hdr.rightIdx = true
    · rw [if_pos hempty] at h ⊢
      exact congrArg some (Except.ok.inj h)
    · rw [if_neg hempty] at h ⊢
      cases hkey : keyMatches f (getSeekVal (insideFileIdx ptr)) v'.hdr ptr with
      | error e => rw [hkey] at h; cases h
      | ok b =>
        rw [hkey, ok_bind] at h
        cases b with
        -- the head is the entry that is looked for
        | true =>
          replace h : searchValue f ptr (.head v'.hdr) = .ok o := h
          rw [searchValue] at h
          cases hw : readChars f (getSeekVal (insideFileIdx ptr) + 32 + 256) with
          | error e => rw [hw] at h; cases h
          | ok w =>
            rw [hw] at h
            obtain rfl := Except.ok.inj h
            rw [compare_eq hkey hv' hw]
        | false =>
          replace h : (scanChain f ptr f.length v'.hdr.rightIdx v'.hdr.leftIdx).bind
            (searchValue f ptr) = .ok o := h
          -- the comparison has read the key, which leaves the header as it is
          obtain ⟨hnone, hfailed, hsame⟩ := compare_ne hkey hv'
          rw [hnone]
          dsimp only
          rw [hsame]
          cases hscan : scanChain f ptr f.length v'.hdr.rightIdx v'.hdr.leftIdx with
          | error e => rw [hscan] at h; cases h
          | ok r =>
            rw [hscan] at h
            exact searchRounds_of_scanChain hscan h hfailed

/-! ## Streams that fail -/

theorem searchRounds_failed {cur : UInt64} (hv : v.failed = true) (hne : cur ≠ insideFileIdx ptr)
    (hright : v.hdr.rightIdx = cur) (hhash : v.hdr.hash2 ≠ ptr.hash2) :
    searchRounds f ptr n v cur = none := by
  induction n generalizing v with
  | zero => rw [searchRounds, if_neg hne]
  | succ n ih =>
    have hsame : v.readHeader f (getSeekVal cur) = v := by
      obtain ⟨failed, hdr, keyFile⟩ := v
      obtain rfl : failed = true := hv
      rfl
    rw [searchRounds, if_neg hne]
    dsimp only
    rw [hsame, SearchVars.compare, if_neg fun h => hhash h.2]
    dsimp only
    rw [hright]
    exact ih hv hright hhash

theorem readU64_outside {q : Nat} (hlen : f.length ≤ maxFileOffset)
    (hq : getSeekVal maxUInt64 ≤ q) : readU64 f q = .error .outsideFile := by
  have hmax : maxFileOffset < getSeekVal maxUInt64 := by decide
  rw [readU64, readBytes, if_neg (by omega)]
  rfl

/-- **A search that follows `MAX_UINT64` never ends.** -/
theorem searchRounds_outside (hlen : f.length ≤ maxFileOffset) (hv : v.failed = false)
    (hright : v.hdr.rightIdx = maxUInt64) (hhash : v.hdr.hash2 ≠ ptr.hash2) :
    searchRounds f ptr n v maxUInt64 = none := by
  have hne : maxUInt64 ≠ insideFileIdx ptr := by
    intro h
    have hlt := insideFileIdx_lt ptr
    rw [← h] at hlt
    exact absurd hlt (by decide)
  cases n with
  | zero => rw [searchRounds, if_neg hne]
  | succ n =>
    have hfail : v.readHeader f (getSeekVal maxUInt64) = { v with failed := true } := by
      simp only [SearchVars.readHeader, hv, readU64_outside hlen le_rfl,
        readU64_outside hlen (Nat.le_add_right _ _)]
      rfl
    rw [searchRounds, if_neg hne]
    dsimp only
    rw [hfail, SearchVars.compare, if_neg fun h => hhash h.2]
    dsimp only
    rw [hright]
    exact searchRounds_failed rfl hne hright hhash

/-- The header of a deleted entry. -/
def clearedEntry : EntryHeader := ⟨maxUInt64, maxUInt64, maxUInt64, maxUInt64⟩

theorem hash2_of_triple {x : FileEntry} (h : x.header = clearedEntry)
    (hhash : ptr.hash2 ≠ maxUInt64) : x.triple ≠ ptr.triple := by
  intro he
  have h2 : x.hash2 = maxUInt64 := congrArg EntryHeader.hash2 h
  exact hhash ((congrArg Triple.hash2 he).symm.trans h2)

theorem searchRounds_slot {a y : Nat} (hcount : entryCount f * 544 < 2 ^ 64)
    (hay : right (entryAt f) a = y) (hlt : y < entryCount f) (hne : y ≠ (insideFileIdx ptr).toNat)
    (hmiss : (entryAt f y).triple ≠ ptr.triple) (hv : v.failed = false) :
    ∃ v' : SearchVars, v'.failed = false ∧ v'.hdr = (entryAt f y).header ∧
      searchRounds f ptr (n + 1) v (entryAt f a).rightIdx =
        searchRounds f ptr n v' (entryAt f y).rightIdx := by
  have hcur : (entryAt f a).rightIdx.toNat = y := hay
  have hseek : getSeekVal (entryAt f a).rightIdx = y * 544 := by
    rw [getSeekVal_eq (by rw [hcur]; omega), hcur]
  refine searchRounds_succ (fun he => hne (hcur.symm.trans (congrArg UInt64.toNat he))) ?_ ?_ hv
  · rw [hseek]
    exact readHeader_slot hlt
  · rw [hseek, keyMatches_slot hlt, decide_eq_false hmiss]

/-- **A search that comes to a cleared entry without finding its key never ends.** -/
theorem searchRounds_cleared {a y : Nat} {as : List Nat} (hlen : f.length ≤ maxFileOffset)
    (hwalk : Ring.Walk (right (entryAt f)) a as y)
    (has : ∀ x ∈ as, x < entryCount f ∧ x ≠ (insideFileIdx ptr).toNat ∧
      (entryAt f x).triple ≠ ptr.triple)
    (hy : y < entryCount f) (hne : y ≠ (insideFileIdx ptr).toNat)
    (hcleared : (entryAt f y).header = clearedEntry) (hhash : ptr.hash2 ≠ maxUInt64)
    (hv : v.failed = false) : searchRounds f ptr n v (entryAt f a).rightIdx = none := by
  have hcount : entryCount f * 544 < 2 ^ 64 := by
    have hle := entryCount_mul_le f
    rw [maxFileOffset] at hlen
    omega
  -- without a round left, the search is over only at the head
  have hstart : ∀ {b x : Nat} {v : SearchVars}, right (entryAt f) b = x →
      x ≠ (insideFileIdx ptr).toNat → searchRounds f ptr 0 v (entryAt f b).rightIdx = none := by
    intro b x v hbx hx
    rw [searchRounds, if_neg]
    exact fun he => hx (hbx.symm.trans (congrArg UInt64.toNat he))
  induction as generalizing a n v with
  | nil =>
    cases n with
    | zero => exact hstart hwalk hne
    | succ n =>
      obtain ⟨v', hv', hhdr, hround⟩ := searchRounds_slot (n := n) hcount hwalk hy hne
        (hash2_of_triple hcleared hhash) hv
      -- the cleared entry matches nothing, and its link leads out of the file
      have hright : (entryAt f y).rightIdx = maxUInt64 := congrArg EntryHeader.rightIdx hcleared
      rw [hround, hright]
      refine searchRounds_outside hlen hv' ?_ ?_
      · rw [hhdr, hcleared]
        rfl
      · rw [hhdr, hcleared]
        exact hhash.symm
  | cons x as ih =>
    obtain ⟨hax, hrest⟩ := hwalk
    obtain ⟨hlt, hxne, hmiss⟩ := has x List.mem_cons_self
    cases n with
    | zero => exact hstart hax hxne
    | succ n =>
      obtain ⟨v', hv', -, hround⟩ := searchRounds_slot (n := n) hcount hax hlt hxne hmiss hv
      rw [hround]
      exact ih hrest (fun z hz => has z (List.mem_cons_of_mem _ hz)) hv'

/-- The same from the head of the chain. -/
theorem readRounds_cleared {y : Nat} {as : List Nat} (hlen : f.length ≤ maxFileOffset)
    (hheads : fileTableLen ≤ entryCount f)
    (hwalk : Ring.Walk (right (entryAt f)) (insideFileIdx ptr).toNat as y)
    (hused : (entryAt f (insideFileIdx ptr).toNat).rightIdx ≠ maxUInt64)
    (hhead : (entryAt f (insideFileIdx ptr).toNat).triple ≠ ptr.triple)
    (has : ∀ x ∈ as, x < entryCount f ∧ x ≠ (insideFileIdx ptr).toNat ∧
      (entryAt f x).triple ≠ ptr.triple)
    (hy : y < entryCount f) (hne : y ≠ (insideFileIdx ptr).toNat)
    (hcleared : (entryAt f y).header = clearedEntry) (hhash : ptr.hash2 ≠ maxUInt64)
    (hv : v.failed = false) : readRounds f ptr v n = none := by
  have hlt : (insideFileIdx ptr).toNat < entryCount f :=
    lt_of_lt_of_le (insideFileIdx_lt ptr) hheads
  have hseek : getSeekVal (insideFileIdx ptr) = (insideFileIdx ptr).toNat * 544 := by
    have hle := entryCount_mul_le f
    rw [maxFileOffset] at hlen
    exact getSeekVal_eq (by omega)
  have hhdr : readHeader f (getSeekVal (insideFileIdx ptr)) =
      .ok (entryAt f (insideFileIdx ptr).toNat).header := by
    rw [hseek]
    exact readHeader_slot hlt
  have hread := readHeader_vars hhdr hv
  have hkey : keyMatches f (getSeekVal (insideFileIdx ptr))
      (v.readHeader f (getSeekVal (insideFileIdx ptr))).hdr ptr = .ok false := by
    rw [hread, hseek]
    dsimp only
    rw [keyMatches_slot hlt, decide_eq_false hhead]
  obtain ⟨hnone, hfailed, hsame⟩ := compare_ne hkey (by rw [hread])
  have hhdr' : (v.readHeader f (getSeekVal (insideFileIdx ptr))).hdr =
      (entryAt f (insideFileIdx ptr).toNat).header := by rw [hread]
  rw [readRounds]
  dsimp only
  rw [hnone, hsame, hhdr', if_neg (not_isFileEntryEmpty hused)]
  exact searchRounds_cleared hlen hwalk has hy hne hcleared hhash hfailed

end KeyValueStore
