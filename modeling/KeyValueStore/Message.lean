import KeyValueStore.Lib.ByteBuffer

/-!
# `KVMessage`: keys, values, hashes and status codes

A key and a value are arrays of 256 characters. The hashes are two 64-bit polynomial hashes of the
whole key array, so two messages with equal keys get equal hashes (`calculateKeyHash_triple`); the
converse is why every lookup also compares the keys.
-/

namespace KeyValueStore

def kvStrLen : Nat := 256

/-- A `char[256]`. -/
structure Chars256 where
  bytes : List UInt8
  length_eq : bytes.length = kvStrLen
deriving DecidableEq

namespace Chars256

theorem ext {a b : Chars256} (h : a.bytes = b.bytes) : a = b := by
  cases a; cases b; subst h; rfl

/-- A text followed by null characters. -/
def ofText (s : List UInt8) : Chars256 :=
  ⟨(s ++ List.replicate kvStrLen 0).take kvStrLen, by simp⟩

end Chars256

/-- `EMPTY_STRING`, also the content of a fresh message. -/
def emptyString : Chars256 := Chars256.ofText []

/-- `KVMessage::ERROR_MESSAGE`: "Entry not found". -/
def errorMessage : Chars256 :=
  Chars256.ofText [69, 110, 116, 114, 121, 32, 110, 111, 116, 32, 102, 111, 117, 110, 100]

/-! ## Status codes -/

def statusCodeValueGET : UInt8 := 1
def statusCodeValuePUT : UInt8 := 2
def statusCodeValueDEL : UInt8 := 3
def statusCodeValueSUCCESS : UInt8 := 200
def statusCodeValueERROR : UInt8 := 240

def isRequestCodeGET (statusCode : UInt8) : Bool := statusCode == statusCodeValueGET
def isRequestCodePUT (statusCode : UInt8) : Bool := statusCode == statusCodeValuePUT
def isRequestCodeValid (statusCode : UInt8) : Bool := 1 ≤ statusCode && statusCode ≤ 3
def isRequestResultERROR (statusCode : UInt8) : Bool := statusCode == statusCodeValueERROR

/-! ## Messages -/

structure KVMessage where
  statusCode : UInt8
  key : Chars256
  value : Chars256
  hash1 : UInt64
  hash2 : UInt64
deriving DecidableEq

/-- `KVMessage()` -/
def KVMessage.empty : KVMessage := ⟨0, emptyString, emptyString, 0, 0⟩

/-- The table `random_nums`. -/
def randomNums : List UInt64 :=
  [14, 182, 49, 60, 211, 165, 125, 232, 71, 166, 133, 237, 13, 78, 76, 25, 215, 221, 108, 140, 254,
   53, 119, 79, 239, 113, 188, 126, 157, 144, 121, 34, 50, 197, 66, 82, 106, 247, 47, 158, 44, 201,
   136, 85, 175, 220, 167, 130, 147, 90, 74, 253, 186, 185, 84, 97, 217, 226, 7, 218, 141, 69, 139,
   6, 142, 143, 98, 240, 195, 42, 173, 63, 159, 5, 255, 8, 161, 123, 200, 245, 146, 48, 251, 4, 110,
   250, 212, 30, 223, 190, 231, 21, 229, 72, 205, 95, 162, 118, 174, 227, 180, 57, 209, 70, 94, 11,
   135, 155, 28, 154, 179, 152, 35, 127, 129, 100, 132, 204, 107, 243, 145, 138, 101, 248, 23, 228,
   83, 91, 164, 156, 210, 40, 134, 81, 187, 89, 171, 170, 103, 58, 31, 208, 214, 196, 55, 169, 149,
   15, 32, 236, 216, 99, 54, 0, 202, 234, 61, 2, 199, 59, 230, 20, 150, 39, 43, 177, 12, 86, 178,
   10, 16, 75, 225, 112, 176, 219, 189, 26, 41, 233, 122, 117, 109, 64, 224, 27, 193, 116, 87, 192,
   33, 191, 244, 62, 115, 172, 203, 252, 111, 222, 238, 183, 38, 213, 105, 92, 194, 3, 102, 235, 80, 56,
   168, 51, 65, 68, 17, 93, 77, 67, 184, 246, 128, 207, 131, 9, 137, 181, 22, 163, 242, 37, 114, 24,
   52, 206, 45, 104, 1, 148, 19, 160, 36, 18, 198, 29, 249, 46, 96, 124, 241, 120, 151, 88, 73, 153]

/-- The loop of `calculate_key_hash`: both hashes, over all 256 characters, modulo `2^64`. -/
def keyHash (key : Chars256) : UInt64 × UInt64 :=
  (key.bytes.zip randomNums).foldl
    (fun h pr => (33 * h.1 + pr.1.toUInt64, 33 * h.2 + pr.2 * pr.1.toUInt64)) (0, 0)

def KVMessage.calculateKeyHash (m : KVMessage) : KVMessage :=
  { m with hash1 := (keyHash m.key).1, hash2 := (keyHash m.key).2 }

def entryEquals (a b : KVMessage) : Bool :=
  a.hash1 == b.hash1 && a.hash2 == b.hash2 && a.key == b.key

/-! ## Triples -/

/-- What the store files an entry under. -/
structure Triple where
  hash1 : UInt64
  hash2 : UInt64
  key : Chars256
deriving DecidableEq

def KVMessage.triple (m : KVMessage) : Triple := ⟨m.hash1, m.hash2, m.key⟩

/-- The triple the cache looks a key up under. -/
def tripleOf (key : Chars256) : Triple := ⟨(keyHash key).1, (keyHash key).2, key⟩

theorem tripleOf_inj {k k' : Chars256} : tripleOf k = tripleOf k' ↔ k = k' :=
  ⟨fun h => congrArg Triple.key h, fun h => h ▸ rfl⟩

@[simp] theorem calculateKeyHash_key (m : KVMessage) : m.calculateKeyHash.key = m.key := rfl
@[simp] theorem calculateKeyHash_value (m : KVMessage) : m.calculateKeyHash.value = m.value := rfl

@[simp] theorem calculateKeyHash_triple (m : KVMessage) :
    m.calculateKeyHash.triple = tripleOf m.key := rfl

theorem calculateKeyHash_eq_self {m : KVMessage} :
    m.calculateKeyHash = m ↔ m.triple = tripleOf m.key := by
  cases m
  simp [KVMessage.calculateKeyHash, KVMessage.triple, tripleOf, eq_comm]

theorem entryEquals_iff {a b : KVMessage} : entryEquals a b = true ↔ a.triple = b.triple := by
  simp [entryEquals, KVMessage.triple, and_assoc]

/-! ## Messages for the examples -/

/-- A message with a key and a value of one character. -/
def entry (key value : UInt8) : KVMessage :=
  ⟨0, Chars256.ofText [key], Chars256.ofText [value], 0, 0⟩

/-- Two keys with one `hash1`, "d" and "ac". -/
def pairD1 : KVMessage :=
  KVMessage.calculateKeyHash ⟨0, Chars256.ofText [100], Chars256.ofText [49], 0, 0⟩

def pairAc2 : KVMessage :=
  KVMessage.calculateKeyHash ⟨0, Chars256.ofText [97, 99], Chars256.ofText [50], 0, 0⟩

end KeyValueStore
