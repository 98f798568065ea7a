import KeyValueStore.KeyPadding
import KeyValueStore.Lib.TextStream
import KeyValueStore.StoreDump

/-!
# `TestingDatabase`: the tool for the database files

The tool opens the directory of the server and writes, deletes or reads one key, or lists the files.
It calls the store without a cache between, so what it writes is in the files when it returns. On
request it files a key under a hash given on the command line, where the server will not look.

`testingDatabase_spec` — the tool does on the map what its command says.
-/

namespace KeyValueStore

open TextStream Run

/-! ## The command line -/

/-- `atoll`. Out of the range of a `long long` it is undefined; the library returns a bound. -/
def atoll (s : List UInt8) : Int :=
  let n := signed (field (s.dropWhile isBlank)).1
  max (-2 ^ 63) (min n (2 ^ 63 - 1))

/-- `atoi` converts the result of `atoll`. -/
def atoi (s : List UInt8) : Int := Int.bmod (atoll s) (2 ^ 32)

/-- What the command line asks for. -/
inductive ToolCommand
  | usage
  | hashes (message : KVMessage)
  | write (message : KVMessage)
  | delete (message : KVMessage)
  | read (message : KVMessage)
  /-- A request to a server, which does not touch the files. -/
  | send
  | readAll
  | readFiles (nums : List Int)

/-- `message.hash1 = message.hash2 = atoll(argv[..])`, if the argument is there. -/
def KVMessage.withHash (m : KVMessage) (arg : Option (List UInt8)) : KVMessage :=
  match arg with
  | none => m
  | some s => { m with hash1 := .ofInt (atoll s), hash2 := .ofInt (atoll s) }

/-- `. OPERATION KEY ...`, with the arguments after the key. -/
def parseOperation (operation key : List UInt8) (args : List (List UInt8)) :
    Except Fault ToolCommand :=
  let message := (KVMessage.empty.setKey key).calculateKeyHash
  if operation.head? = some 119 then
    match args with
    | [] => .error .nullPointer
    | value :: args => .ok (.write ((message.setValue value).withHash args.head?))
  else if operation.head? = some 100 then .ok (.delete (message.withHash args.head?))
  else if operation.head? = some 114 then .ok (.read (message.withHash args.head?))
  else .ok .send

/-- The branches of `main`, on the arguments behind the program name. -/
def parseArgs (args : List (List UInt8)) : Except Fault ToolCommand :=
  match args with
  | [] => .ok .usage
  | [a] => if a = ascii "." then .ok .readAll else .ok (.readFiles [atoi a])
  | [a, key] =>
    if a.head? = some 46 then .ok (.hashes (KVMessage.empty.setKey key).calculateKeyHash)
    else .ok (.readFiles (args.map atoi))
  | a :: operation :: key :: rest =>
    if a.head? = some 46 then parseOperation operation key rest
    else .ok (.readFiles (args.map atoi))

/-! ## Running it -/

/-- What the tool prints. -/
inductive ToolOutput
  | usage
  | hashes (hash1 hash2 : UInt64) (fileName fileIndex : Nat)
  | written
  | deleted (found : Bool)
  | read (found : Bool) (message : KVMessage)
  | sent
  | all (listings : List (List DumpLine))
  | files (listings : List (Option (List DumpLine × Nat)))

/-- The loop over the file names of the command line. -/
def KVStore.readDbFiles (s : KVStore) (v : DumpVars) :
    List Int → Except Fault (List (Option (List DumpLine × Nat)))
  | [] => .ok []
  | num :: nums => do
    let listing ← s.readDbFile v num
    return listing :: (← s.readDbFiles v nums)

def ToolCommand.run (v : DumpVars) (s : KVStore) :
    ToolCommand → Except Fault (ToolOutput × KVStore)
  | .usage => .ok (.usage, s)
  | .hashes message =>
    .ok (.hashes message.hash1 message.hash2 (message.hash1.toNat % hashTableLen)
      (message.hash1.toNat % fileTableLen), s)
  | .write message => do return (.written, ← s.writeToDb message)
  | .delete message => do
    let (found, s) ← s.deleteFromDb message
    return (.deleted found, s)
  | .read message => do
    let (found, message) ← s.readFromDb message
    return (.read found message, s)
  | .send => .ok (.sent, s)
  | .readAll => do return (.all (← s.readAllDb v), s)
  | .readFiles nums => do return (.files (← s.readDbFiles v nums), s)

/-- `main`, in a directory with the given files. -/
def testingDatabase (v : DumpVars) (args : List (List UInt8))
    (files : Nat → Option (List UInt8)) :
    Except Fault (ToolOutput × (Nat → Option (List UInt8))) := do
  let command ← parseArgs args
  let (output, s) ← command.run v (KVStore.initKvstore files)
  return (output, s.files)

/-! ## The map -/

/-- What a command does on the map. -/
def ToolCommand.Spec (m : Triple → Option Chars256) :
    ToolCommand → ToolOutput → (Triple → Option Chars256) → Prop
  | .usage, out, m' => out = .usage ∧ m' = m
  | .hashes message, out, m' => m' = m ∧
      out = .hashes message.hash1 message.hash2 message.triple.file message.triple.slot
  | .write message, out, m' => out = .written ∧
      m' = Function.update m message.triple (some message.value)
  | .delete message, out, m' => out = .deleted (m message.triple).isSome ∧
      m' = Function.update m message.triple none
  | .read message, out, m' => out = .read (readAnswer m message).1 (readAnswer m message).2 ∧ m' = m
  | .send, out, m' => out = .sent ∧ m' = m
  | .readAll, out, m' => m' = m ∧ ∃ listings, out = .all listings ∧
      Listing m (listings.flatten.map DumpLine.pair)
  | .readFiles nums, out, m' => m' = m ∧ ∃ listings, out = .files listings ∧
      List.Forall₂ (fun num listing =>
        Listing (inFile m num.toNat) (((listing.map Prod.fst).getD []).map DumpLine.pair))
        nums listings

/-- The numbers on the command line are numbers of files. -/
def ToolCommand.Valid : ToolCommand → Prop
  | .readFiles nums => ∀ num ∈ nums, 0 ≤ num ∧ num < hashTableLen
  | _ => True

variable {s : KVStore} {m : Triple → Option Chars256} {num : Nat}

/-- `read_db_file` shows the part of the map in its file. -/
theorem KVStore.readDbFile_spec (h : StoreRep s m) (v : DumpVars) (hnum : num < hashTableLen) :
    ∃ listing, s.readDbFile v num = .ok listing ∧
      Listing (inFile m num) (((listing.map Prod.fst).getD []).map DumpLine.pair) := by
  cases hbit : s.fileExistsStatus num with
  | false =>
    obtain ⟨-, hnone⟩ := h.absent num hnum hbit
    refine ⟨none, ?_, List.nodup_nil, ?_⟩
    · have hin : ¬ ((num : Int) < 0 ∨ (hashTableLen : Int) ≤ num) := by omega
      rw [KVStore.readDbFile, if_neg hin, Int.toNat_natCast, if_pos hbit]
    · intro t w
      by_cases ht : t.file = num
      · simp [inFile, ht, hnone t ht]
      · simp [inFile, ht]
  | true =>
    obtain ⟨f, hf, hrep⟩ := h.present num hnum hbit
    obtain ⟨chain, hinv, -⟩ := id hrep
    exact ⟨_, readDbFile_eq hnum hbit hf hinv.length_eq v, hrep.listing⟩

theorem KVStore.readDbFiles_spec (h : StoreRep s m) (v : DumpVars) {nums : List Int}
    (hnums : ∀ num ∈ nums, 0 ≤ num ∧ num < hashTableLen) :
    ∃ listings, s.readDbFiles v nums = .ok listings ∧
      List.Forall₂ (fun num listing =>
        Listing (inFile m num.toNat) (((listing.map Prod.fst).getD []).map DumpLine.pair))
        nums listings := by
  induction nums with
  | nil => exact ⟨[], rfl, List.Forall₂.nil⟩
  | cons num nums ih =>
    rw [List.forall_mem_cons] at hnums
    obtain ⟨listings, hread, hrest⟩ := ih hnums.2
    obtain ⟨i, rfl⟩ := Int.eq_ofNat_of_zero_le hnums.1.1
    have hin : i < hashTableLen := by omega
    obtain ⟨listing, hfirst, hlisting⟩ := readDbFile_spec h v hin
    refine ⟨listing :: listings, ?_, List.Forall₂.cons hlisting hrest⟩
    show (s.readDbFile v i).bind _ = _
    rw [hfirst]
    show (s.readDbFiles v nums).bind _ = _
    rw [hread]
    rfl

/-- **The tool does on the map what its command says.** -/
theorem ToolCommand.run_spec (h : StoreRep s m) (v : DumpVars) {command : ToolCommand}
    (hvalid : command.Valid) :
    SucceedsUnlessFull (command.run v s) fun r =>
      ∃ m', command.Spec m r.1 m' ∧ StoreRep r.2 m' := by
  cases command with
  | usage => exact Excused.ok ⟨m, ⟨rfl, rfl⟩, h⟩
  | hashes message => exact Excused.ok ⟨m, ⟨rfl, rfl⟩, h⟩
  | write message =>
    exact (KVStore.writeToDb_spec h message).bind fun s' hs' => Excused.ok ⟨_, ⟨rfl, rfl⟩, hs'⟩
  | delete message =>
    obtain ⟨s', hdel, hs'⟩ := KVStore.deleteFromDb_spec h message
    exact Or.inr ⟨_, by rw [run, hdel]; rfl, _, ⟨rfl, rfl⟩, hs'⟩
  | read message =>
    exact Or.inr ⟨_, by rw [run, KVStore.readFromDb_eq h]; rfl, m, ⟨rfl, rfl⟩, h⟩
  | send => exact Excused.ok ⟨m, ⟨rfl, rfl⟩, h⟩
  | readAll =>
    obtain ⟨listings, hread, hlisting⟩ := KVStore.readAllDb_spec h v
    exact Or.inr ⟨_, by rw [run, hread]; rfl, m, ⟨rfl, listings, rfl, hlisting⟩, h⟩
  | readFiles nums =>
    obtain ⟨listings, hread, hlistings⟩ := KVStore.readDbFiles_spec h v hvalid
    exact Or.inr ⟨_, by rw [run, hread]; rfl, m, ⟨rfl, listings, rfl, hlistings⟩, h⟩

theorem testingDatabase_spec {files : Nat → Option (List UInt8)}
    (h : StoreRep (KVStore.initKvstore files) m) (v : DumpVars) {args : List (List UInt8)}
    {command : ToolCommand} (hparse : parseArgs args = .ok command) (hvalid : command.Valid) :
    SucceedsUnlessFull (testingDatabase v args files) fun r =>
      ∃ m', command.Spec m r.1 m' ∧ StoreRep (KVStore.initKvstore r.2) m' := by
  rw [testingDatabase, hparse, ok_bind]
  refine (ToolCommand.run_spec h v hvalid).bind fun r hr => Excused.ok ?_
  obtain ⟨m', hspec, hm'⟩ := hr
  exact ⟨m', hspec, hm'.restart⟩

end KeyValueStore
