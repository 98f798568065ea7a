import KeyValueStore.Fault
import KeyValueStore.Message

/-!
# `KVStore`: the persistent store

The store is 1021 files of 544-byte entries. Entry `i < 8191` of a file is the head of the chain
of all keys with `hash1 % 8191 = i`; further members of the chain follow from entry 8191 on. A
chain is a circular doubly linked list through the two index fields `leftIdx` and `rightIdx`.

The three operations share one search, `searchChain`. In each of them every read precedes every
write, so the model of a writing operation first computes the *batches* of writes, one batch for
each seek, and then performs them. A stream is its content; reads and writes name the one
position that the source's `seekg`, `seekp` and the preceding reads leave.
-/

namespace KeyValueStore

open ByteBuffer

/-- `HASH_TABLE_LEN`, the number of files. -/
def hashTableLen : Nat := 1021

/-- `FILE_TABLE_LEN`, the number of chains of a file. -/
def fileTableLen : Nat := 8191

/-- `MAX_UINT64` -/
def maxUInt64 : UInt64 := 18446744073709551615

/-- The fields of an entry: two links, two hashes, a key and a value. -/
def entryWidths : List Nat := [8, 8, 8, 8, 256, 256]

def sizeOfOneEntry : Nat := 4 * 8 + 256 + 256

/-- The largest offset of a file, the maximum of the signed 64-bit `off_t`. -/
def maxFileOffset : Nat := 2 ^ 63 - 1

/-- `get_seek_val`, in 64-bit arithmetic. -/
def getSeekVal (idx : UInt64) : Nat := (idx * UInt64.ofNat sizeOfOneEntry).toNat

def isFileEntryEmpty (leftIdx rightIdx : UInt64) : Bool :=
  leftIdx == rightIdx && leftIdx == maxUInt64

/-! ## Streams -/

/-- `fs.read` of `n` bytes at position `p`. -/
def readBytes (f : List UInt8) (p n : Nat) : Except Fault (List UInt8) :=
  if p + n ≤ f.length then .ok (slice f p n) else .error .outsideFile

/-- `fs.read` of a `uint64_t`. -/
def readU64 (f : List UInt8) (p : Nat) : Except Fault UInt64 := do
  return decodeU64 (← readBytes f p 8)

/-- `fs.read` of a `char[256]`. -/
def readChars (f : List UInt8) (p : Nat) : Except Fault Chars256 :=
  if h : p + kvStrLen ≤ f.length then .ok ⟨slice f p kvStrLen, length_slice h⟩
  else .error .outsideFile

/-- `fs.write` at position `p`. -/
def writeBytes (f : List UInt8) (p : Nat) (d : List UInt8) : Except Fault (List UInt8) :=
  if f.length < p then .error .outsideFile
  else if maxFileOffset < p + d.length then .error .fileTooLarge
  else .ok (patch f p d)

/-- The writes between two seeks, from the position of the first one. -/
structure Batch where
  pos : Nat
  writes : List (List UInt8)

def applyWrites (f : List UInt8) (p : Nat) : List (List UInt8) → Except Fault (List UInt8)
  | [] => .ok f
  | d :: ds => do applyWrites (← writeBytes f p d) (p + d.length) ds

def applyBatches (f : List UInt8) : List Batch → Except Fault (List UInt8)
  | [] => .ok f
  | b :: bs => do applyBatches (← applyWrites f b.pos b.writes) bs

/-! ## Searching a chain -/

/-- The four words at the start of an entry. -/
structure EntryHeader where
  leftIdx : UInt64
  rightIdx : UInt64
  hash1 : UInt64
  hash2 : UInt64

/-- The four reads that follow a seek to an entry. -/
def readHeader (f : List UInt8) (p : Nat) : Except Fault EntryHeader := do
  let leftIdx ← readU64 f p
  let rightIdx ← readU64 f (p + 8)
  let hash1 ← readU64 f (p + 16)
  let hash2 ← readU64 f (p + 24)
  return ⟨leftIdx, rightIdx, hash1, hash2⟩

/-- The comparison of hashes, and then of the key stored behind the header. -/
def keyMatches (f : List UInt8) (p : Nat) (hdr : EntryHeader) (ptr : KVMessage) :
    Except Fault Bool :=
  if hdr.hash1 = ptr.hash1 ∧ hdr.hash2 = ptr.hash2 then do
    let keyFile ← readChars f (p + 32)
    return keyFile == ptr.key
  else return false

def insideFileIdx (ptr : KVMessage) : UInt64 := ptr.hash1 % UInt64.ofNat fileTableLen

/-- What the search for a key ends with. -/
inductive Search
  /-- The head entry is unused. -/
  | empty
  /-- The head entry matches. -/
  | head (hdr : EntryHeader)
  /-- Entry `idx` behind the head matches. -/
  | member (idx : UInt64) (hdr : EntryHeader)
  /-- No entry matches; `leftIdx` is the last entry of the chain. -/
  | absent (leftIdx : UInt64)

/-- The loop over the chain behind its head. `fuel` bounds the number of entries visited. -/
def scanChain (f : List UInt8) (ptr : KVMessage) :
    Nat → (currentFileIdx leftIdx : UInt64) → Except Fault Search
  | 0, currentFileIdx, leftIdx =>
    if currentFileIdx = insideFileIdx ptr then .ok (.absent leftIdx) else .error .endless
  | fuel + 1, currentFileIdx, leftIdx =>
    if currentFileIdx = insideFileIdx ptr then .ok (.absent leftIdx)
    else do
      let hdr ← readHeader f (getSeekVal currentFileIdx)
      let found ← keyMatches f (getSeekVal currentFileIdx) hdr ptr
      if found then return .member currentFileIdx hdr
      else scanChain f ptr fuel hdr.rightIdx currentFileIdx

/-- The search shared by `read_from_db`, `write_to_db` and `delete_from_db`. A walk that visits more
entries than the file has bytes has met a position twice and goes on for ever. -/
def searchChain (f : List UInt8) (ptr : KVMessage) : Except Fault Search := do
  let hdr ← readHeader f (getSeekVal (insideFileIdx ptr))
  if isFileEntryEmpty hdr.leftIdx hdr.rightIdx then return .empty
  let found ← keyMatches f (getSeekVal (insideFileIdx ptr)) hdr ptr
  if found then return .head hdr
  scanChain f ptr f.length hdr.rightIdx hdr.leftIdx

/-! ## The operations on one file -/

/-- The blank entries a new file starts with. -/
def initialFile : List UInt8 :=
  (List.replicate fileTableLen
    ((List.replicate 4 (encodeU64 maxUInt64)).flatten ++ emptyString.bytes ++
      emptyString.bytes)).flatten

/-- `read_from_db` on an open file: the value, if the key is there. -/
def readValue (f : List UInt8) (ptr : KVMessage) : Except Fault (Option Chars256) := do
  match ← searchChain f ptr with
  | .empty | .absent _ => return none
  | .head _ => return some (← readChars f (getSeekVal (insideFileIdx ptr) + 32 + 256))
  | .member idx _ => return some (← readChars f (getSeekVal idx + 32 + 256))

/-- The writes of `write_to_db` on an open file. -/
def writeBatches (f : List UInt8) (ptr : KVMessage) : Except Fault (List Batch) := do
  let inside := insideFileIdx ptr
  match ← searchChain f ptr with
  | .empty =>
    return [⟨getSeekVal inside, [encodeU64 inside, encodeU64 inside, encodeU64 ptr.hash1,
      encodeU64 ptr.hash2, ptr.key.bytes, ptr.value.bytes]⟩]
  -- the value follows the key that was just read
  | .head _ => return [⟨getSeekVal inside + 32 + 256, [ptr.value.bytes]⟩]
  | .member idx _ => return [⟨getSeekVal idx + 32 + 256, [ptr.value.bytes]⟩]
  | .absent leftIdx =>
    let newEntryPosition := UInt64.ofNat (f.length / sizeOfOneEntry)
    let newEntry : Batch := ⟨f.length, [encodeU64 leftIdx, encodeU64 inside, encodeU64 ptr.hash1,
      encodeU64 ptr.hash2, ptr.key.bytes, ptr.value.bytes]⟩
    if leftIdx = inside then
      return [newEntry,
        ⟨getSeekVal inside, [encodeU64 newEntryPosition, encodeU64 newEntryPosition]⟩]
    else
      return [newEntry, ⟨getSeekVal leftIdx + 8, [encodeU64 newEntryPosition]⟩,
        ⟨getSeekVal inside, [encodeU64 newEntryPosition]⟩]

/-- Four words of ones, the mark of an unused entry. -/
def clearedHeader : List (List UInt8) := List.replicate 4 (encodeU64 maxUInt64)

/-- The writes of `delete_from_db` on an open file, or `none` where it returns `false`. -/
def deleteBatches (f : List UInt8) (ptr : KVMessage) : Except Fault (Option (List Batch)) := do
  let inside := insideFileIdx ptr
  match ← searchChain f ptr with
  | .empty | .absent _ => return none
  | .head hdr =>
    if hdr.leftIdx = hdr.rightIdx ∧ hdr.leftIdx = inside then
      return some [⟨getSeekVal inside, clearedHeader⟩]
    else if hdr.rightIdx = maxUInt64 then return none
    else do
      -- the entry right of the head takes the head's place
      let second := getSeekVal hdr.rightIdx
      let rightIdx ← readU64 f (second + 8)
      let hash1File ← readU64 f (second + 16)
      let hash2File ← readU64 f (second + 24)
      let keyFile ← readChars f (second + 32)
      let valueFile ← readChars f (second + 32 + 256)
      return some [⟨second + 32 + 256 + 256 - sizeOfOneEntry, clearedHeader⟩,
        ⟨getSeekVal rightIdx, [encodeU64 inside]⟩,
        ⟨getSeekVal inside + 8, [encodeU64 rightIdx, encodeU64 hash1File, encodeU64 hash2File,
          keyFile.bytes, valueFile.bytes]⟩]
  | .member idx hdr =>
    return some [⟨getSeekVal idx, clearedHeader ++ [emptyString.bytes, emptyString.bytes]⟩,
      ⟨getSeekVal hdr.leftIdx + 8, [encodeU64 hdr.rightIdx]⟩,
      ⟨getSeekVal hdr.rightIdx, [encodeU64 hdr.leftIdx]⟩]

/-! ## The store -/

/-- `file_exists_status` and the files of the directory `db`. -/
structure KVStore where
  fileExistsStatus : Nat → Bool
  files : Nat → Option (List UInt8)

namespace KVStore

/-- `init_kvstore`, in a directory that holds `files`. -/
def initKvstore (files : Nat → Option (List UInt8)) : KVStore :=
  ⟨fun i => decide (i < hashTableLen) && (files i).isSome, files⟩

def fileIdx (ptr : KVMessage) : Nat := ptr.hash1.toNat % hashTableLen

def setFile (s : KVStore) (i : Nat) (f : List UInt8) : KVStore :=
  { s with files := Function.update s.files i (some f) }

/-- `fs.open` of an existing file; `opens` says whether the system call succeeds. -/
def openFile (s : KVStore) (opens : Bool) (i : Nat) : Option (List UInt8) :=
  if opens then s.files i else none

/-- `read_from_db`: whether the key was found, and the message with its value. -/
def readFromDbIf (opens : Bool) (s : KVStore) (ptr : KVMessage) :
    Except Fault (Bool × KVMessage) :=
  if s.fileExistsStatus (fileIdx ptr) = false then .ok (false, ptr)
  else match s.openFile opens (fileIdx ptr) with
  | none => .ok (false, ptr)
  | some f => do
    match ← readValue f ptr with
    | none => return (false, ptr)
    | some v => return (true, { ptr with value := v })

/-- `write_to_db`. The status bit of a new file is set before the file is created. -/
def writeToDbIf (opens : Bool) (s : KVStore) (ptr : KVMessage) : Except Fault KVStore :=
  let i := fileIdx ptr
  if s.fileExistsStatus i = false then
    let s := { s with fileExistsStatus := Function.update s.fileExistsStatus i true }
    if opens then do
      return s.setFile i (← applyBatches initialFile (← writeBatches initialFile ptr))
    else .ok s
  else match s.openFile opens i with
  | none => .ok s
  | some f => do return s.setFile i (← applyBatches f (← writeBatches f ptr))

/-- `delete_from_db`: whether the key was found and deleted. -/
def deleteFromDbIf (opens : Bool) (s : KVStore) (ptr : KVMessage) :
    Except Fault (Bool × KVStore) :=
  let i := fileIdx ptr
  if s.fileExistsStatus i = false then .ok (false, s)
  else match s.openFile opens i with
  | none => .ok (false, s)
  | some f => do
    match ← deleteBatches f ptr with
    | none => return (false, s)
    | some bs => return (true, s.setFile i (← applyBatches f bs))

/-! The operations when every file can be opened. -/

def readFromDb (s : KVStore) (ptr : KVMessage) : Except Fault (Bool × KVMessage) :=
  readFromDbIf true s ptr

def writeToDb (s : KVStore) (ptr : KVMessage) : Except Fault KVStore := writeToDbIf true s ptr

def deleteFromDb (s : KVStore) (ptr : KVMessage) : Except Fault (Bool × KVStore) :=
  deleteFromDbIf true s ptr

end KVStore

end KeyValueStore
