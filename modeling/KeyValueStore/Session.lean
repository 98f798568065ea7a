import KeyValueStore.CacheRuns

/-!
# Sessions of a client

A `ClientServerConnection` sends a request and waits for the response; `worker_thread` decodes the
request, runs it on the cache and responds. Neither frame carries a length. The worker serves an
event whenever there are bytes to read, and a read of 256 bytes waits until they have arrived.

`session_in_step` — whatever requests the client makes, both ends agree on every frame, and the
results are those of a dictionary.
-/

namespace KeyValueStore

open Run

/-! ## The connection -/

/-- The bytes written and not yet read, in both directions. -/
structure Connection where
  toServer : List UInt8
  toClient : List UInt8
deriving DecidableEq

/-- `read(fd, &c, 1)` -/
def receiveByte : List UInt8 → Except Fault (UInt8 × List UInt8)
  | [] => .error .blocked
  | b :: stream => .ok (b, stream)

/-- `read(fd, buffer, 256)` -/
def receiveChars (stream : List UInt8) : Except Fault (Chars256 × List UInt8) :=
  if h : kvStrLen ≤ stream.length then
    .ok (⟨stream.take kvStrLen, List.length_take_of_le h⟩, stream.drop kvStrLen)
  else .error .blocked

/-- What a request asks for. -/
inductive Request
  | get (key : Chars256)
  | put (key value : Chars256)
  | delete (key : Chars256)
deriving DecidableEq

/-! ## The server -/

/-- The state of `worker_thread` that a request depends on. `message` is shared by all requests, and
`executed` records them. -/
structure Worker where
  message : KVMessage
  state : KVState
  executed : List Request

namespace Worker

/-- One event of `worker_thread`, after the request code has been read. -/
def serveEvent (w : Worker) (statusCode : UInt8) (c : Connection) :
    Except Fault (Worker × Connection) := do
  let message := { w.message with statusCode := statusCode }
  if !isRequestCodeValid statusCode then
    return ({ w with message := message },
      { c with toClient := c.toClient ++ [statusCodeValueERROR] })
  else
    let (key, toServer) ← receiveChars c.toServer
    let message := { message with key := key }.calculateKeyHash
    if isRequestCodeGET statusCode then
      let (res, message, state) ← w.state.cacheGET message
      return (⟨message, state, w.executed ++ [.get message.key]⟩,
        ⟨toServer, c.toClient ++ [if res then statusCodeValueSUCCESS else statusCodeValueERROR] ++
          (if res then message.value else errorMessage).bytes⟩)
    else if isRequestCodePUT statusCode then
      let (value, toServer) ← receiveChars toServer
      let message := { message with value := value }
      let state ← w.state.cachePUT message
      return (⟨message, state, w.executed ++ [.put message.key message.value]⟩,
        ⟨toServer, c.toClient ++ [statusCodeValueSUCCESS]⟩)
    else
      let (res, state) ← w.state.cacheDELETE message
      return (⟨message, state, w.executed ++ [.delete message.key]⟩,
        ⟨toServer, c.toClient ++ [if res then statusCodeValueSUCCESS else statusCodeValueERROR] ++
          (if res then [] else errorMessage.bytes)⟩)

/-- The worker serves events while there are bytes to read. `fuel` bounds their number. -/
def serve : Nat → Worker → Connection → Except Fault (Worker × Connection)
  | _, w, ⟨[], toClient⟩ => .ok (w, ⟨[], toClient⟩)
  | 0, _, _ => .error .endless
  | fuel + 1, w, ⟨statusCode :: toServer, toClient⟩ => do
    let (w, c) ← w.serveEvent statusCode ⟨toServer, toClient⟩
    serve fuel w c

end Worker

/-! ## The client -/

structure Client where
  resultStatusCode : UInt8
  resultValue : Chars256
deriving DecidableEq

/-- A client, the worker that serves it, and the connection between them. -/
structure Session where
  client : Client
  worker : Worker
  connection : Connection

namespace Session

/-- `write(socketFD, bytes)` -/
def write (s : Session) (bytes : List UInt8) : Session :=
  { s with connection := { s.connection with toServer := s.connection.toServer ++ bytes } }

/-- The worker runs until it waits for the client again. Every event reads at least one byte. -/
def serve (s : Session) : Except Fault Session := do
  let (worker, connection) ← s.worker.serve s.connection.toServer.length s.connection
  return { s with worker := worker, connection := connection }

/-- `read(socketFD, &resultStatusCode, 1)` -/
def readStatusCode (s : Session) : Except Fault Session := do
  let (b, toClient) ← receiveByte s.connection.toClient
  return { s with
    client := { s.client with resultStatusCode := b }
    connection := { s.connection with toClient := toClient } }

/-- `read(socketFD, resultValue, 256)` -/
def readResultValue (s : Session) : Except Fault Session := do
  let (v, toClient) ← receiveChars s.connection.toClient
  return { s with
    client := { s.client with resultValue := v }
    connection := { s.connection with toClient := toClient } }

/-- `ClientServerConnection::GET` -/
def GET (s : Session) (message : KVMessage) : Except Fault Session := do
  let s ← ((s.write [statusCodeValueGET]).write message.key.bytes).serve
  let s ← s.readStatusCode
  s.readResultValue

/-- `ClientServerConnection::PUT` -/
def PUT (s : Session) (message : KVMessage) : Except Fault Session := do
  let s ← (((s.write [statusCodeValuePUT]).write message.key.bytes).write message.value.bytes).serve
  s.readStatusCode

/-- `ClientServerConnection::DELETE` -/
def DELETE (s : Session) (message : KVMessage) : Except Fault Session := do
  let s ← ((s.write [statusCodeValueDEL]).write message.key.bytes).serve
  let s ← s.readStatusCode
  if isRequestResultERROR s.client.resultStatusCode then s.readResultValue else return s

end Session

/-- A call of the client. -/
inductive ClientCall
  | get (message : KVMessage)
  | put (message : KVMessage)
  | delete (message : KVMessage)

def ClientCall.request : ClientCall → Request
  | .get message => .get message.key
  | .put message => .put message.key message.value
  | .delete message => .delete message.key

def Session.perform (s : Session) : ClientCall → Except Fault Session
  | .get message => s.GET message
  | .put message => s.PUT message
  | .delete message => s.DELETE message

/-- The result of a call is what it leaves in the client. -/
def Session.call (s : Session) (c : ClientCall) : Except Fault (Client × Session) := do
  let s ← s.perform c
  return (s.client, s)

/-! ## The dictionary's session -/

/-- What a response says. -/
structure Outcome where
  statusCode : UInt8
  value : Option Chars256
deriving DecidableEq

/-- The outcome of a request on a dictionary. -/
def dictRequest (d : Dict) : Request → Outcome × Dict
  | .get key =>
    (match d key with
      | some v => ⟨statusCodeValueSUCCESS, some v⟩
      | none => ⟨statusCodeValueERROR, some errorMessage⟩, d)
  | .put key value => (⟨statusCodeValueSUCCESS, none⟩, Function.update d key (some value))
  | .delete key =>
    (if (d key).isSome then ⟨statusCodeValueSUCCESS, none⟩
      else ⟨statusCodeValueERROR, some errorMessage⟩, Function.update d key none)

/-- A client shows the outcome, and its last value where the outcome has none. -/
def Client.show (client : Client) (o : Outcome) : Client :=
  ⟨o.statusCode, o.value.getD client.resultValue⟩

/-- A dictionary with a client, and the requests made so far. -/
structure DictSession where
  client : Client
  dict : Dict
  executed : List Request

def DictSession.request (m : DictSession) (req : Request) : DictSession :=
  ⟨m.client.show (dictRequest m.dict req).1, (dictRequest m.dict req).2, m.executed ++ [req]⟩

def DictSession.call (m : DictSession) (c : ClientCall) : Client × DictSession :=
  ((m.request c.request).client, m.request c.request)

/-! ## One call -/

section Receive

theorem receiveChars_append (v : Chars256) (stream : List UInt8) :
    receiveChars (v.bytes ++ stream) = .ok (v, stream) := by
  have hlen : kvStrLen ≤ (v.bytes ++ stream).length := by
    rw [List.length_append, v.length_eq]
    exact Nat.le_add_right _ _
  rw [receiveChars, dif_pos hlen]
  congr 2
  · exact Chars256.ext (List.take_left' v.length_eq)
  · exact List.drop_left' v.length_eq

theorem receiveChars_bytes (v : Chars256) : receiveChars v.bytes = .ok (v, []) := by
  have h := receiveChars_append v []
  rwa [List.append_nil] at h

end Receive

/-- The request code of a frame, and the rest of it. -/
def Request.code : Request → UInt8
  | .get _ => statusCodeValueGET
  | .put _ _ => statusCodeValuePUT
  | .delete _ => statusCodeValueDEL

def Request.body : Request → List UInt8
  | .get key => key.bytes
  | .put key value => key.bytes ++ value.bytes
  | .delete key => key.bytes

/-- The frame of a response. -/
def Outcome.frame (o : Outcome) : List UInt8 :=
  o.statusCode :: (o.value.map Chars256.bytes).getD []

variable {n : Nat} {d : Dict} {w : Worker}

/-- **One event of the worker** is one request of the dictionary, and reads the whole frame. -/
theorem Worker.serveEvent_spec (h : KVState.Holds n w.state d) (hpos : 0 < n) (req : Request)
    (out : List UInt8) : SucceedsUnlessFull (w.serveEvent req.code ⟨req.body, out⟩) fun r =>
      r.2 = ⟨[], out ++ (dictRequest d req).1.frame⟩ ∧
      KVState.Holds n r.1.state (dictRequest d req).2 ∧
      r.1.executed = w.executed ++ [req] := by
  cases req with
  -- the first test is that of the request code, the others choose the branch
  | get key =>
    rw [Request.code, Request.body, Worker.serveEvent, if_neg (by decide), receiveChars_bytes]
    simp only [ok_bind]
    rw [if_pos (by decide)]
    refine (KVState.cacheGET_spec h hpos _).bind fun r hr => Excused.ok ?_
    obtain ⟨res, message, state⟩ := r
    obtain ⟨hget, hstate⟩ := hr
    dsimp only at hget
    rw [dictGet] at hget
    simp only [calculateKeyHash_key] at hget
    cases hd : d key with
    | none =>
      rw [hd] at hget
      obtain ⟨rfl, rfl⟩ := Prod.mk.inj hget
      exact ⟨by simp [dictRequest, hd, Outcome.frame], hstate, rfl⟩
    | some v =>
      rw [hd] at hget
      obtain ⟨rfl, rfl⟩ := Prod.mk.inj hget
      exact ⟨by simp [dictRequest, hd, Outcome.frame], hstate, rfl⟩
  | put key value =>
    rw [Request.code, Request.body, Worker.serveEvent, if_neg (by decide), receiveChars_append]
    simp only [ok_bind]
    rw [if_neg (by decide), if_pos (by decide), receiveChars_bytes]
    exact (KVState.cachePUT_spec h hpos _).bind fun state hstate => Excused.ok ⟨rfl, hstate, rfl⟩
  | delete key =>
    rw [Request.code, Request.body, Worker.serveEvent, if_neg (by decide), receiveChars_bytes]
    simp only [ok_bind]
    rw [if_neg (by decide), if_neg (by decide)]
    obtain ⟨state, hdel, hstate⟩ := KVState.cacheDELETE_spec h
      (KVMessage.calculateKeyHash { w.message with statusCode := statusCodeValueDEL, key := key })
    rw [hdel]
    refine Excused.ok ⟨?_, hstate, rfl⟩
    simp only [calculateKeyHash_key, dictRequest, Outcome.frame]
    by_cases hd : (d key).isSome = true
    · simp [hd]
    · simp [hd]

/-- The worker serves the one event and waits. -/
theorem Worker.serve_spec (h : KVState.Holds n w.state d) (hpos : 0 < n) (req : Request) :
    SucceedsUnlessFull (w.serve (req.code :: req.body).length ⟨req.code :: req.body, []⟩) fun r =>
      r.2 = ⟨[], (dictRequest d req).1.frame⟩ ∧ KVState.Holds n r.1.state (dictRequest d req).2 ∧
      r.1.executed = w.executed ++ [req] := by
  rw [List.length_cons, Worker.serve]
  refine (Worker.serveEvent_spec h hpos req []).bind fun r hr => ?_
  obtain ⟨w', c⟩ := r
  obtain ⟨rfl, hstate, hexec⟩ := hr
  refine Or.inr ⟨(w', ⟨[], (dictRequest d req).1.frame⟩), ?_, rfl, hstate, hexec⟩
  cases req.body <;> rfl

/-! ## The invariant of a session -/

/-- The two ends agree: nothing is under way, and the session is the dictionary's. -/
structure InStep (n : Nat) (s : Session) (m : DictSession) : Prop where
  quiet : s.connection = ⟨[], []⟩
  client : s.client = m.client
  holds : KVState.Holds n s.worker.state m.dict
  executed : s.worker.executed = m.executed

variable {s : Session} {m : DictSession}

/-- A request that has been written is served, and its response is all there is to read. -/
theorem InStep.serve (h : InStep n s m) (hpos : 0 < n) (req : Request) :
    SucceedsUnlessFull ((s.write (req.code :: req.body)).serve) fun s' =>
      s'.connection = ⟨[], (dictRequest m.dict req).1.frame⟩ ∧ s'.client = m.client ∧
      KVState.Holds n s'.worker.state (dictRequest m.dict req).2 ∧
      s'.worker.executed = m.executed ++ [req] := by
  obtain ⟨hquiet, hclient, hholds, hexec⟩ := h
  have hwrite : (s.write (req.code :: req.body)).connection = ⟨req.code :: req.body, []⟩ := by
    rw [Session.write, hquiet]
    rfl
  rw [Session.serve, hwrite]
  refine (Worker.serve_spec (w := s.worker) hholds hpos req).bind fun r hr => Excused.ok ?_
  obtain ⟨hconn, hstate, hexec'⟩ := hr
  exact ⟨hconn, hclient, hstate, by rw [← hexec]; exact hexec'⟩

theorem readStatusCode_eq {c : UInt8} {bytes : List UInt8} (h : s.connection = ⟨[], c :: bytes⟩) :
    s.readStatusCode =
      .ok { s with
        client := { s.client with resultStatusCode := c }
        connection := ⟨[], bytes⟩ } := by
  rw [Session.readStatusCode, h]
  rfl

theorem readResultValue_eq {v : Chars256} (h : s.connection = ⟨[], v.bytes⟩) :
    s.readResultValue =
      .ok { s with client := { s.client with resultValue := v }, connection := ⟨[], []⟩ } := by
  rw [Session.readResultValue, h, receiveChars_bytes]
  rfl

theorem Session.write_write (s : Session) (xs ys : List UInt8) :
    (s.write xs).write ys = s.write (xs ++ ys) := by
  simp [Session.write]

/-- A served session whose client has read the response `o` is in step. -/
theorem InStep.of_served {o : Outcome} {req : Request} (ho : dictRequest m.dict req = (o, d))
    (hclient : s.client = m.client.show o) (hconn : s.connection = ⟨[], []⟩)
    (hholds : KVState.Holds n s.worker.state d) (hexec : s.worker.executed = m.executed ++ [req]) :
    InStep n s (m.request req) where
  quiet := hconn
  client := by rw [DictSession.request, ho]; exact hclient
  holds := by rw [DictSession.request, ho]; exact hholds
  executed := hexec

/-- **One call of the client is one call of the dictionary's**, and leaves both ends in step. -/
theorem InStep.call (h : InStep n s m) (hpos : 0 < n) (c : ClientCall) :
    SucceedsUnlessFull (s.call c) fun r => r.1 = (m.call c).1 ∧ InStep n r.2 (m.call c).2 := by
  rw [Session.call]
  refine Excused.bind (P := fun s' => InStep n s' (m.request c.request)) ?_ fun s' hs' =>
    Excused.ok ⟨hs'.client, hs'⟩
  have hserve := h.serve hpos c.request
  generalize ho : dictRequest m.dict c.request = r at hserve
  obtain ⟨o, d⟩ := r
  cases c with
  | get message =>
    rw [Session.perform, Session.GET, Session.write_write]
    refine hserve.bind fun s' hs' => ?_
    obtain ⟨hconn, hclient, hholds, hexec⟩ := hs'
    -- the response to a GET always has a value
    have hvalue : ∃ v, o.value = some v := by
      obtain rfl : (dictRequest m.dict (.get message.key)).1 = o := congrArg Prod.fst ho
      rw [dictRequest]
      cases m.dict message.key <;> exact ⟨_, rfl⟩
    obtain ⟨v, hv⟩ := hvalue
    rw [Outcome.frame, hv] at hconn
    rw [readStatusCode_eq hconn, ok_bind, readResultValue_eq (v := v) rfl]
    refine Excused.ok (InStep.of_served ho ?_ rfl hholds hexec)
    simp [Client.show, hv]
  | put message =>
    rw [Session.perform, Session.PUT, Session.write_write, Session.write_write]
    refine hserve.bind fun s' hs' => ?_
    obtain ⟨hconn, hclient, hholds, hexec⟩ := hs'
    obtain rfl : _ = o := congrArg Prod.fst ho
    rw [readStatusCode_eq hconn]
    refine Excused.ok (InStep.of_served ho ?_ rfl hholds hexec)
    rw [← hclient]
    rfl
  | delete message =>
    rw [Session.perform, Session.DELETE, Session.write_write]
    refine hserve.bind fun s' hs' => ?_
    obtain ⟨hconn, hclient, hholds, hexec⟩ := hs'
    have ho' := ho
    rw [ClientCall.request, dictRequest] at ho'
    by_cases hd : (m.dict message.key).isSome = true
    · rw [if_pos hd] at ho'
      obtain ⟨rfl, -⟩ := Prod.mk.inj ho'
      have hcode : ¬ isRequestResultERROR statusCodeValueSUCCESS = true := by decide
      rw [readStatusCode_eq hconn, ok_bind, if_neg hcode]
      refine Excused.ok (InStep.of_served ho ?_ rfl hholds hexec)
      rw [← hclient]
      rfl
    · rw [if_neg hd] at ho'
      obtain ⟨rfl, -⟩ := Prod.mk.inj ho'
      have hcode : isRequestResultERROR statusCodeValueERROR = true := by decide
      rw [readStatusCode_eq hconn, ok_bind, if_pos hcode,
        readResultValue_eq (v := errorMessage) rfl]
      exact Excused.ok (InStep.of_served ho rfl rfl hholds hexec)

/-! ## Sessions -/

theorem specCalls_executed (m : DictSession) (cs : List ClientCall) :
    (specCalls DictSession.call m cs).2.executed = m.executed ++ cs.map ClientCall.request := by
  induction cs generalizing m with
  | nil => simp [specCalls]
  | cons c cs ih =>
    rw [specCalls, ih, List.map_cons]
    exact List.append_assoc m.executed [c.request] _

variable {cacheSize : Nat} {files : Nat → Option (List UInt8)}

/-- **Client and server stay in step for a whole session**, from any directory of well-formed files
and whatever the client and the worker hold from before. -/
theorem session_in_step (hsize : 1 ≤ cacheSize) (hfiles : WellFormedFiles files) :
    ∃ (state : KVState) (d : Dict), KVState.start cacheSize files = .ok state ∧
      (∀ ptr : KVMessage,
        state.store.readFromDb ptr.calculateKeyHash = .ok (dictGet d ptr.calculateKeyHash)) ∧
      ∀ (client : Client) (message : KVMessage) (cs : List ClientCall),
        SucceedsUnlessFull
          (calls Session.call ⟨client, ⟨message, state, []⟩, ⟨[], []⟩⟩ cs) fun r =>
            r.1 = (specCalls DictSession.call ⟨client, d, []⟩ cs).1 ∧
            r.2.connection = ⟨[], []⟩ ∧ r.2.worker.executed = cs.map ClientCall.request := by
  obtain ⟨state, d, hstate, hread, hrep, hn⟩ := KVState.start_dict hsize hfiles
  refine ⟨state, d, hstate, hread, ?_⟩
  intro client message cs
  have hstep : InStep cacheSize ⟨client, ⟨message, state, []⟩, ⟨[], []⟩⟩ ⟨client, d, []⟩ :=
    ⟨rfl, rfl, ⟨_, hrep, hn⟩, rfl⟩
  refine (simulation (InStep cacheSize) (fun _ _ c h => h.call hsize c) cs hstep).mono
    fun r hr => ⟨hr.1, hr.2.quiet, ?_⟩
  rw [hr.2.executed, specCalls_executed]
  rfl

/-- A session in which the keys are evicted, loaded again, and deleted. -/
def evictingSession : List ClientCall :=
  [.put pairD1, .put pairAc2, .get pairD1, .delete pairD1, .put (entry 98 3), .get pairAc2,
    .delete pairD1]

theorem session_in_step_one : ∃ (state : KVState) (d : Dict),
    KVState.start 1 (fun _ => none) = .ok state ∧
      SucceedsUnlessFull
        (calls Session.call ⟨⟨0, emptyString⟩, ⟨.empty, state, []⟩, ⟨[], []⟩⟩ evictingSession)
        fun r =>
          r.1 = (specCalls DictSession.call ⟨⟨0, emptyString⟩, d, []⟩ evictingSession).1 ∧
          r.2.connection = ⟨[], []⟩ ∧
          r.2.worker.executed = evictingSession.map ClientCall.request := by
  obtain ⟨state, d, hstate, -, hcalls⟩ :=
    session_in_step (le_refl 1) wellFormedFiles_none
  exact ⟨state, d, hstate, hcalls _ _ _⟩

end KeyValueStore
