import KeyValueStore.KeyPadding
import KeyValueStore.Lib.TextStream
import KeyValueStore.Session

/-!
# `KVClient`: request files

The client loads a file of requests into messages and sends them one by one. While it loads, one
message `temp` is filled again for every line, by extractions that write a word and a terminator and
leave the rest of the array. Before a message is sent, its key is normalised by `fix_key_nulling`.

With a file of results the client also tests every response (`auto_testing`) and stops at the first
that it does not accept.
-/

namespace KeyValueStore

open TextStream

/-- Where loading a file does not return. -/
inductive ClientFault
  /-- `exit(3)` -/
  | invalidRequestCode
  /-- A word of more than 255 characters is stored behind the end of an array. -/
  | outsideArray
deriving DecidableEq

/-! ## Loading -/

/-- `fileReader >> a` for an array of the message. -/
def extractChars (a : Chars256) (s : Stream) : Except ClientFault (Chars256 × Stream) :=
  match readWord s with
  | (none, s) => .ok (a, s)
  | (some word, s) =>
    if word.length < kvStrLen then .ok (a.extract word, s) else .error .outsideArray

/-- The loop of `load_client_request_dataset`, with the number of turns left. -/
def loadRequests : Nat → (requestType : Nat) → (temp : KVMessage) → Stream →
    Except ClientFault (List KVMessage)
  | 0, _, _, _ => .ok []
  | k + 1, requestType, temp, s => do
    let (read, s) := readNumber toUInt32 s
    let requestType := read.getD requestType
    if requestType < 1 ∨ 3 < requestType then .error .invalidRequestCode
    else
      let temp := { temp with statusCode := UInt8.ofNat requestType }
      let (key, s) ← extractChars temp.key s
      let temp := { temp with key := key }
      let (value, s) ←
        if isRequestCodePUT temp.statusCode then extractChars temp.value s else .ok (temp.value, s)
      let temp := { temp with value := value }
      return temp :: (← loadRequests k requestType temp s)

/-- `load_client_request_dataset`, on the content of the file. `request_type` is not initialised. -/
def loadClientRequestDataset (requestType : Nat) (text : List UInt8) :
    Except ClientFault (List KVMessage) :=
  let (requestCount, s) := readNumber toUInt32 (.of text)
  loadRequests (requestCount.getD 0) requestType .empty s

/-- The loop of `load_client_request_results`, with the number of turns left. -/
def loadResults : Nat → Stream → List (List UInt8)
  | 0, _ => []
  | k + 1, s => ((readWord s).1.getD []) :: loadResults k (readWord s).2

def loadClientRequestResults (text : List UInt8) : List (List UInt8) :=
  let (requestCount, s) := readNumber toUInt32 (.of text)
  loadResults (requestCount.getD 0) s

/-! ## Sending -/

/-- The `switch` on the request code. -/
def clientCall (m : KVMessage) : Option ClientCall :=
  if m.statusCode = statusCodeValueGET then some (.get m)
  else if m.statusCode = statusCodeValuePUT then some (.put m)
  else if m.statusCode = statusCodeValueDEL then some (.delete m)
  else none

/-- What `start_sending_requests` passes to the connection. -/
def startSendingRequests (dataset : List KVMessage) : List ClientCall :=
  dataset.filterMap fun i => clientCall i.fixKeyNulling

theorem startSendingRequests_cons (m : KVMessage) (dataset : List KVMessage) :
    startSendingRequests (m :: dataset) =
      (clientCall m.fixKeyNulling).toList ++ startSendingRequests dataset := by
  rw [startSendingRequests, startSendingRequests, List.filterMap_cons]
  cases clientCall m.fixKeyNulling <;> rfl

/-! ## Testing -/

/-- A response. Its value counts only where the client reads one. -/
structure ServerResponse where
  statusCode : UInt8
  value : Chars256

/-- What a call leaves in the connection when the server responds so. -/
def Client.receive (client : Client) (r : ServerResponse) : ClientCall → Client
  | .get _ => ⟨r.statusCode, r.value⟩
  | .put _ => { client with resultStatusCode := r.statusCode }
  | .delete _ =>
    if isRequestResultERROR r.statusCode then ⟨r.statusCode, r.value⟩
    else { client with resultStatusCode := r.statusCode }

/-- How `auto_testing` ends. -/
inductive TestEnd
  | success
  /-- `exit(1)` -/
  | mismatch
  /-- The server does not respond. -/
  | blocked
  /-- `dataset_results.at(i)` throws. -/
  | outOfRange
deriving DecidableEq

/-- The test of a response. `none` where `dataset_results.at(i)` throws: a failed test logs it too.
An array without a terminator reads as a string of at least 256 characters. -/
def acceptsResponse (client : Client) (result : Option (List UInt8)) : ClientCall → Option Bool
  | .get _ =>
    if client.resultStatusCode = statusCodeValueSUCCESS then
      result.map fun expected => expected == client.resultValue.text
    else if client.resultStatusCode = statusCodeValueERROR then
      result.map fun expected => expected == ascii "-ERROR-"
    else result.map fun _ => false
  | _ =>
    if client.resultStatusCode = statusCodeValueSUCCESS then some true
    else if client.resultStatusCode = statusCodeValueERROR then
      result.map fun expected => expected == ascii "-ERROR-"
    else result.map fun _ => false

/-- The loop of `auto_testing`, from request `i` on: the requests passed to the connection, and how
the test ends. -/
def autoTestingFrom (datasetResults : List (List UInt8)) : (i : Nat) → Client → List KVMessage →
    List ServerResponse → List ClientCall × TestEnd
  | _, _, [], _ => ([], .success)
  | i, client, m :: dataset, responses =>
    match clientCall m.fixKeyNulling with
    -- no other case is possible
    | none => autoTestingFrom datasetResults (i + 1) client dataset responses
    | some call =>
      match responses with
      | [] => ([call], .blocked)
      | r :: responses =>
        let client := client.receive r call
        match acceptsResponse client datasetResults[i]? call with
        | some true =>
          let (calls, testEnd) := autoTestingFrom datasetResults (i + 1) client dataset responses
          (call :: calls, testEnd)
        | some false => ([call], .mismatch)
        | none => ([call], .outOfRange)

def autoTesting (dataset : List KVMessage) (datasetResults : List (List UInt8))
    (responses : List ServerResponse) : List ClientCall × TestEnd :=
  autoTestingFrom datasetResults 0 ⟨0, emptyString⟩ dataset responses

/-- `auto_testing` passes the requests that `start_sending_requests` passes, up to where it ends. -/
theorem autoTestingFrom_take (datasetResults : List (List UInt8)) (i : Nat) (client : Client)
    (dataset : List KVMessage) (responses : List ServerResponse) :
    (autoTestingFrom datasetResults i client dataset responses).1 <+:
      startSendingRequests dataset := by
  induction dataset generalizing i client responses with
  | nil => exact List.prefix_refl []
  | cons m dataset ih =>
    rw [autoTestingFrom, startSendingRequests_cons]
    cases clientCall m.fixKeyNulling with
    | none => exact ih (i + 1) client responses
    | some call =>
      rw [Option.toList_some, List.singleton_append]
      have hone : [call] <+: call :: startSendingRequests dataset := ⟨_, rfl⟩
      cases responses with
      | nil => exact hone
      | cons r responses =>
        dsimp only
        cases acceptsResponse (client.receive r call) datasetResults[i]? call with
        | none => exact hone
        | some accepted =>
          cases accepted with
          | false => exact hone
          | true => exact List.cons_prefix_cons.2 ⟨rfl, ih (i + 1) _ responses⟩

/-! ## Request files -/

/-- A line of a request file. -/
inductive FileRequest
  | get (key : List UInt8)
  | put (key value : List UInt8)
  | delete (key : List UInt8)
deriving DecidableEq

namespace FileRequest

def key : FileRequest → List UInt8
  | .get key => key
  | .put key _ => key
  | .delete key => key

def words : FileRequest → List (List UInt8)
  | .get key => [ascii "1", key]
  | .put key value => [ascii "2", key, value]
  | .delete key => [ascii "3", key]

/-- The request that the line asks for, its arrays padded with null characters. -/
def request : FileRequest → Request
  | .get key => .get (.ofText key)
  | .put key value => .put (.ofText key) (.ofText value)
  | .delete key => .delete (.ofText key)

/-- The value that the line sets. -/
def putValue : FileRequest → Option (List UInt8)
  | .put _ value => some value
  | _ => none

end FileRequest

/-- A well-formed request file: the number of requests, and their lines. A word that fits an array
with a terminator has at most 255 characters. -/
structure RequestFile (text : List UInt8) (reqs : List FileRequest) : Prop where
  words : ∃ count, IsNumeral count ∧ decimal count = reqs.length ∧
    Words.words isBlank text = count :: reqs.flatMap FileRequest.words
  count_lt : reqs.length < 2 ^ 32
  fits : ∀ r ∈ reqs, ∀ w ∈ r.words, w.length < kvStrLen

end KeyValueStore
