import KeyValueStore.Lib.Linearizable
import KeyValueStore.Sockets
import KeyValueStore.Threads

/-!
# Clients and their connections

A client makes one call after another, through the client library, and closes its connection only
between two calls. It writes each field of a request on its own, so a request may be under way in
part when a worker looks at it, and then waits for the response. Every field arrives whole. The
history records when a call was made and when it returned, and with what.

A connection is in one of four states (`UnderWay`): nothing is under way, or a request whose fields
are partly written, or a request that a worker has read and not answered yet, or the response to it.
`Clients.Tracks` says so of all connections, next to a linearization of the history. Its rules say
what a step of a client or of the worker that serves it does to them.
-/

namespace KeyValueStore

open Linearizability Run

/-! ## The clients -/

/-- What a caller can see of a call: the value only where one was read. -/
def ClientCall.outcome (client : Client) : ClientCall → Outcome
  | .get _ => ⟨client.resultStatusCode, some client.resultValue⟩
  | .put _ => ⟨client.resultStatusCode, none⟩
  | .delete _ =>
    ⟨client.resultStatusCode,
      if isRequestResultERROR client.resultStatusCode then some client.resultValue else none⟩

/-- What the client library reads after it has written a request. -/
def Session.readResponse (s : Session) : ClientCall → Except Fault Session
  | .get _ => do
    let s ← s.readStatusCode
    s.readResultValue
  | .put _ => s.readStatusCode
  | .delete _ => do
    let s ← s.readStatusCode
    if isRequestResultERROR s.client.resultStatusCode then s.readResultValue else return s

/-- A client with its connection. -/
structure Peer where
  client : Client
  /-- The call under way, with its identity. -/
  call : Option (Nat × ClientCall)
  /-- The fields of its request that are still to be written. -/
  unwritten : List (List UInt8)
  connection : Connection
  /-- The client has closed the connection. -/
  closed : Bool
  /-- The main thread has accepted it. -/
  accepted : Bool

/-- A client that has made no call. -/
def Peer.new (client : Client) : Peer := ⟨client, none, [], ⟨[], []⟩, false, false⟩

/-- The clients, by their descriptors at the server. -/
structure Clients where
  peers : Nat → Peer
  history : List (Event Request Outcome)
  nextId : Nat

namespace Clients

/-- Clients that have made no calls. -/
def new (clients : Nat → Client) : Clients := ⟨fun fd => .new (clients fd), [], 0⟩

variable (c : Clients) (fd : Nat)

def setPeer (p : Peer) : Clients := { c with peers := Function.update c.peers fd p }

/-- The main thread has accepted the client. -/
def accept : Clients := c.setPeer fd { c.peers fd with accepted := true }

/-- The client makes a call. A step that is not possible changes nothing. -/
def call (clientCall : ClientCall) : Clients :=
  if (c.peers fd).call = none ∧ (c.peers fd).closed = false then
    { c.setPeer fd { c.peers fd with
        call := some (c.nextId, clientCall)
        unwritten := clientCall.request.fields } with
      history := c.history ++ [.invoke c.nextId clientCall.request]
      nextId := c.nextId + 1 }
  else c

/-- It writes the next field of its request. -/
def write : Clients :=
  match (c.peers fd).unwritten with
  | [] => c
  | field :: fields =>
    let p := c.peers fd
    c.setPeer fd { p with
      unwritten := fields
      connection := { p.connection with toServer := p.connection.toServer ++ field } }

/-- It reads the response, and the call returns. The client waits while a part of the response is
missing. The worker, whichever it is, takes no part in this. -/
def receive (worker : Worker) : Except Fault Clients :=
  let p := c.peers fd
  match p.call with
  | none => .ok c
  | some (id, clientCall) =>
    if p.unwritten ≠ [] then .ok c
    else
      match (⟨p.client, worker, p.connection⟩ : Session).readResponse clientCall with
      | .error .blocked => .ok c
      | .error e => .error e
      | .ok ⟨client, _, connection⟩ =>
        .ok { c.setPeer fd { p with client := client, call := none, connection := connection } with
          history := c.history ++ [.respond id (clientCall.outcome client)] }

/-- It closes the connection. The library does so between two calls only; while a call is under way
this changes nothing. -/
def close : Clients :=
  if (c.peers fd).call = none then c.setPeer fd { c.peers fd with closed := true } else c

end Clients

/-! ## Reading a request -/

/-- What a worker reads after the request code, into its message, and the operation asked for. -/
def readRequest (message : KVMessage) (statusCode : UInt8) (toServer : List UInt8) :
    Except Fault (Op × KVMessage × List UInt8) := do
  let (key, toServer) ← receiveChars toServer
  let message := { message with statusCode := statusCode, key := key }.calculateKeyHash
  if isRequestCodeGET statusCode then return (.get, message, toServer)
  else if isRequestCodePUT statusCode then
    let (value, toServer) ← receiveChars toServer
    return (.put, { message with value := value }, toServer)
  else return (.delete, message, toServer)

/-- The request for an operation on a message. -/
def Op.request (ptr : KVMessage) : Op → Request
  | .get => .get ptr.key
  | .put => .put ptr.key ptr.value
  | .delete => .delete ptr.key

/-- **A whole request is read.** -/
theorem readRequest_whole (message : KVMessage) (req : Request) :
    ∃ op ptr, readRequest message req.code req.body = .ok (op, ptr, []) ∧
      op.request ptr = req := by
  have hread : ∀ code key, ∃ ptr : KVMessage,
      ptr = KVMessage.calculateKeyHash { message with statusCode := code, key := key } ∧
        ptr.key = key := fun _ _ => ⟨_, rfl, rfl⟩
  cases req with
  | get key =>
    obtain ⟨ptr, hptr, rfl⟩ := hread statusCodeValueGET key
    refine ⟨.get, ptr, ?_, rfl⟩
    rw [Request.code, Request.body, readRequest, receiveChars_bytes, ok_bind, hptr]
    rfl
  | put key value =>
    obtain ⟨ptr, hptr, rfl⟩ := hread statusCodeValuePUT key
    refine ⟨.put, { ptr with value := value }, ?_, rfl⟩
    rw [Request.code, Request.body, readRequest, receiveChars_append, ok_bind]
    simp only
    rw [if_neg (by decide), if_pos (by decide), receiveChars_bytes, ok_bind, ← hptr]
    rfl
  | delete key =>
    obtain ⟨ptr, hptr, rfl⟩ := hread statusCodeValueDEL key
    refine ⟨.delete, ptr, ?_, rfl⟩
    rw [Request.code, Request.body, readRequest, receiveChars_bytes, ok_bind, hptr]
    rfl

theorem Request.fields_eq_cons (req : Request) : ∃ fields, req.fields = [req.code] :: fields := by
  cases req <;> exact ⟨_, rfl⟩

/-- What a worker finds of a request that is written in part: the code, and for a PUT perhaps the
key. -/
theorem Request.body_of_part {req : Request} {sent unwritten : List (List UInt8)}
    (hfields : sent ++ unwritten = req.fields) (hpart : unwritten ≠ []) {code : UInt8}
    {body : List UInt8} (hflat : sent.flatten = code :: body) : code = req.code ∧
      (body = [] ∨ ∃ key value, req = .put key value ∧ body = key.bytes) := by
  obtain ⟨fields, hcons⟩ := req.fields_eq_cons
  cases sent with
  | nil => cases hflat
  | cons f sent =>
    rw [hcons, List.cons_append, List.cons.injEq] at hfields
    obtain ⟨rfl, hrest⟩ := hfields
    obtain ⟨rfl, rfl⟩ := List.cons.inj hflat
    refine ⟨rfl, ?_⟩
    cases sent with
    | nil => exact Or.inl rfl
    | cons f sent =>
      -- only a PUT has another field after two
      cases req with
      | put key value =>
        obtain rfl : [key.bytes, value.bytes] = fields := (List.cons.inj hcons).2
        obtain ⟨rfl, hvalue⟩ := List.cons.inj hrest
        cases sent with
        | nil => exact Or.inr ⟨key, value, rfl, List.append_nil _⟩
        | cons f sent => exact absurd (List.append_eq_nil_iff.1 (List.cons.inj hvalue).2).2 hpart
      | get key =>
        obtain rfl : [key.bytes] = fields := (List.cons.inj hcons).2
        exact absurd (List.append_eq_nil_iff.1 (List.cons.inj hrest).2).2 hpart
      | delete key =>
        obtain rfl : [key.bytes] = fields := (List.cons.inj hcons).2
        exact absurd (List.append_eq_nil_iff.1 (List.cons.inj hrest).2).2 hpart

/-- **A part of a request** leaves the read waiting. -/
theorem readRequest_part (message : KVMessage) {req : Request} {code : UInt8} {body : List UInt8}
    (hbody : code = req.code ∧ (body = [] ∨ ∃ key value, req = .put key value ∧ body = key.bytes)) :
    readRequest message code body = .error .blocked := by
  obtain ⟨rfl, rfl | ⟨key, value, rfl, rfl⟩⟩ := hbody
  · rfl
  · rw [Request.code, readRequest, receiveChars_bytes, ok_bind]
    rfl

/-- The same for a worker that serves the event at once. -/
theorem Worker.serveEvent_part (w : Worker) {req : Request} {code : UInt8} {body : List UInt8}
    (hbody : code = req.code ∧ (body = [] ∨ ∃ key value, req = .put key value ∧ body = key.bytes))
    (out : List UInt8) : w.serveEvent code ⟨body, out⟩ = .error .blocked := by
  obtain ⟨rfl, rfl | ⟨key, value, rfl, rfl⟩⟩ := hbody
  · have hvalid : ¬ (!isRequestCodeValid req.code) = true := by
      cases req <;> exact Bool.false_ne_true
    rw [serveEvent, if_neg hvalid]
    rfl
  · rw [Request.code, serveEvent, if_neg (by decide), receiveChars_bytes]
    simp only [ok_bind]
    rw [if_neg (by decide), if_pos (by decide)]
    rfl

/-! ## Reading a response -/

theorem Session.readResponse_nothing {s : Session} (hconn : s.connection.toClient = [])
    (c : ClientCall) : s.readResponse c = .error .blocked := by
  have hstatus : s.readStatusCode = .error .blocked := by
    rw [readStatusCode, hconn]
    rfl
  cases c with
  | get message => rw [readResponse, hstatus]; rfl
  | put message => rw [readResponse, hstatus]
  | delete message => rw [readResponse, hstatus]; rfl

/-- **A client reads the whole response**, and nothing else. -/
theorem Session.readResponse_frame {s : Session} {c : ClientCall} {d : Dict}
    (hconn : s.connection = ⟨[], (dictRequest d c.request).1.frame⟩) : ∃ client,
    s.readResponse c = .ok { s with client := client, connection := ⟨[], []⟩ } ∧
      c.outcome client = (dictRequest d c.request).1 := by
  generalize ho : (dictRequest d c.request).1 = o at hconn
  cases c with
  | get message =>
    obtain ⟨v, hv⟩ : ∃ v, o.value = some v := by
      rw [← ho, ClientCall.request, dictRequest]
      cases d message.key <;> exact ⟨_, rfl⟩
    rw [Outcome.frame, hv] at hconn
    refine ⟨⟨o.statusCode, v⟩, ?_, ?_⟩
    · rw [readResponse, readStatusCode_eq hconn, ok_bind, readResultValue_eq (v := v) rfl]
    · rw [ClientCall.outcome, ← hv]
  | put message =>
    obtain rfl : ⟨statusCodeValueSUCCESS, none⟩ = o := ho
    exact ⟨_, readStatusCode_eq hconn, rfl⟩
  | delete message =>
    rw [ClientCall.request, dictRequest] at ho
    by_cases hd : (d message.key).isSome = true
    · rw [if_pos hd] at ho
      obtain rfl : ⟨statusCodeValueSUCCESS, none⟩ = o := ho
      have hcode : ¬ isRequestResultERROR statusCodeValueSUCCESS = true := by decide
      exact ⟨_, by rw [readResponse, readStatusCode_eq hconn, ok_bind, if_neg hcode]; rfl, rfl⟩
    · rw [if_neg hd] at ho
      obtain rfl : ⟨statusCodeValueERROR, some errorMessage⟩ = o := ho
      have hcode : isRequestResultERROR statusCodeValueERROR = true := by decide
      exact ⟨⟨statusCodeValueERROR, errorMessage⟩, by
        rw [readResponse, readStatusCode_eq hconn, ok_bind, if_pos hcode,
          readResultValue_eq (v := errorMessage) rfl], rfl⟩

theorem Session.readStatusCode_toServer (s : Session) :
    Ensures s.readStatusCode fun s' => s'.connection.toServer = s.connection.toServer := by
  rw [readStatusCode]
  exact ensures_true.bind fun _ _ => Ensures.ok rfl

theorem Session.readResultValue_toServer (s : Session) :
    Ensures s.readResultValue fun s' => s'.connection.toServer = s.connection.toServer := by
  rw [readResultValue]
  exact ensures_true.bind fun _ _ => Ensures.ok rfl

/-- Reading a response takes nothing from what the server is to read. -/
theorem Session.readResponse_toServer (s : Session) (c : ClientCall) :
    Ensures (s.readResponse c) fun s' => s'.connection.toServer = s.connection.toServer := by
  cases c with
  | get message =>
    exact s.readStatusCode_toServer.bind fun s₁ h₁ =>
      s₁.readResultValue_toServer.mono fun _ h₂ => h₂.trans h₁
  | put message => exact s.readStatusCode_toServer
  | delete message =>
    refine s.readStatusCode_toServer.bind fun s₁ h₁ => ?_
    split_ifs
    · exact s₁.readResultValue_toServer.mono fun _ h₂ => h₂.trans h₁
    · exact Ensures.ok h₁

/-- What a receiving client changes: nothing, or its call is over and the response read. -/
theorem Clients.receive_cases (c : Clients) (fd : Nat) (worker : Worker) :
    Ensures (c.receive fd worker) fun c' => c' = c ∨ (c.peers fd).unwritten = [] ∧
      ∃ client toClient e, c' = { c.setPeer fd { c.peers fd with
        client := client
        call := none
        connection := ⟨(c.peers fd).connection.toServer, toClient⟩ } with
          history := c.history ++ [e] } := by
  rw [receive]
  dsimp only
  split
  · exact Ensures.ok (Or.inl rfl)
  · rename_i id clientCall hcall
    split_ifs with hwriting
    · exact Ensures.ok (Or.inl rfl)
    · have hkeep := Session.readResponse_toServer
        ⟨(c.peers fd).client, worker, (c.peers fd).connection⟩ clientCall
      split
      · exact Ensures.ok (Or.inl rfl)
      · exact Ensures.error
      · rename_i client _ connection hread
        obtain ⟨toServer, toClient⟩ := connection
        obtain rfl : toServer = (c.peers fd).connection.toServer := hkeep _ hread
        exact Ensures.ok (Or.inr ⟨not_not.1 hwriting, client, toClient, _, rfl⟩)

/-! ## One connection -/

/-- The dictionary as a sequential specification. -/
def requestSpec (d : Dict) (req : Request) : Dict × Outcome :=
  ((dictRequest d req).2, (dictRequest d req).1)

/-- What is under way between a client and a worker: nothing, or a request with its identity, and
the response to it once the request has taken effect. A worker may have taken the request. -/
inductive UnderWay (p : Peer) : (taken : Bool) → Option (Nat × Request × Option Outcome) → Prop
  | idle (hcall : p.call = none) (hunwritten : p.unwritten = []) (hconn : p.connection = ⟨[], []⟩) :
    UnderWay p false none
  | asked {id : Nat} {c : ClientCall} (sent : List (List UInt8)) (hcall : p.call = some (id, c))
    (hopen : p.closed = false) (hfields : sent ++ p.unwritten = c.request.fields)
    (hconn : p.connection = ⟨sent.flatten, []⟩) : UnderWay p false (some (id, c.request, none))
  | taken {id : Nat} {c : ClientCall} {o : Option Outcome} (hcall : p.call = some (id, c))
    (hopen : p.closed = false) (hunwritten : p.unwritten = []) (hconn : p.connection = ⟨[], []⟩) :
    UnderWay p true (some (id, c.request, o))
  | answered {id : Nat} {c : ClientCall} {d : Dict} (hcall : p.call = some (id, c))
    (hopen : p.closed = false) (hunwritten : p.unwritten = [])
    (hconn : p.connection = ⟨[], (dictRequest d c.request).1.frame⟩) :
    UnderWay p false (some (id, c.request, some (dictRequest d c.request).1))

section UnderWay

variable {p : Peer} {taken : Bool} {x : Option (Nat × Request × Option Outcome)}

theorem UnderWay.accepted (h : UnderWay p taken x) :
    UnderWay { p with accepted := true } taken x := by
  cases h with
  | idle hcall hunwritten hconn => exact .idle hcall hunwritten hconn
  | asked sent hcall hopen hfields hconn => exact .asked sent hcall hopen hfields hconn
  | taken hcall hopen hunwritten hconn => exact .taken hcall hopen hunwritten hconn
  | answered hcall hopen hunwritten hconn => exact .answered hcall hopen hunwritten hconn

theorem UnderWay.quiet (h : UnderWay p taken x) (hcall : p.call = none) :
    taken = false ∧ x = none ∧ p.unwritten = [] ∧ p.connection = ⟨[], []⟩ := by
  cases h with
  | idle _ hunwritten hconn => exact ⟨rfl, rfl, hunwritten, hconn⟩
  | asked sent hsome => exact absurd (hcall.symm.trans hsome) nofun
  | taken hsome => exact absurd (hcall.symm.trans hsome) nofun
  | answered hsome => exact absurd (hcall.symm.trans hsome) nofun

theorem UnderWay.write (h : UnderWay p taken x) {field : List UInt8} {fields : List (List UInt8)}
    (hunwritten : p.unwritten = field :: fields) :
    UnderWay { p with
      unwritten := fields
      connection := { p.connection with toServer := p.connection.toServer ++ field } } taken x := by
  cases h with
  | idle _ hnil => exact absurd (hunwritten.symm.trans hnil) nofun
  | asked sent hcall hopen hfields hconn =>
    refine .asked (sent ++ [field]) hcall hopen ?_ ?_
    · rw [← hfields, hunwritten, List.append_assoc, List.singleton_append]
    · simp [hconn]
  | taken _ _ hnil => exact absurd (hunwritten.symm.trans hnil) nofun
  | answered _ _ hnil => exact absurd (hunwritten.symm.trans hnil) nofun

theorem UnderWay.executed {id : Nat} {req : Request} {o : Option Outcome}
    (h : UnderWay p true (some (id, req, o))) (o' : Option Outcome) :
    UnderWay p true (some (id, req, o')) := by
  cases h with
  | taken hcall hopen hunwritten hconn => exact .taken hcall hopen hunwritten hconn

end UnderWay

/-! ## All connections -/

/-- The requests that have taken effect are a linearization `l` of what the clients have seen, it
leads to the dictionary `d`, and every connection carries what is under way. -/
structure Clients.Tracks (c : Clients) (d₀ : Dict) (taken : Nat → Bool)
    (pending : Nat → Option (Nat × Request × Option Outcome)) (l : List (Entry Request Outcome))
    (d : Dict) : Prop where
  staged : Staged requestSpec d₀ c.history c.nextId pending l d
  underWay : ∀ fd, UnderWay (c.peers fd) (taken fd) (pending fd)

namespace Clients

variable {c : Clients} {d₀ d : Dict} {taken : Nat → Bool} {fd : Nat} {p : Peer}
  {pending : Nat → Option (Nat × Request × Option Outcome)} {l : List (Entry Request Outcome)}

theorem new_tracks (clients : Nat → Client) :
    (new clients).Tracks d₀ (fun _ => false) (fun _ => none) [] d₀ :=
  ⟨.start, fun _ => .idle rfl rfl rfl⟩

@[simp] theorem setPeer_self : (c.setPeer fd p).peers fd = p := Function.update_self ..

theorem setPeer_of_ne {fd' : Nat} (h : fd' ≠ fd) : (c.setPeer fd p).peers fd' = c.peers fd' :=
  Function.update_of_ne h ..

theorem underWay_update (h : ∀ fd, UnderWay (c.peers fd) (taken fd) (pending fd)) (fd : Nat)
    {b : Bool} {x : Option (Nat × Request × Option Outcome)} (hp : UnderWay p b x) (fd' : Nat) :
    UnderWay ((c.setPeer fd p).peers fd') (Function.update taken fd b fd')
      (Function.update pending fd x fd') := by
  by_cases hfd : fd' = fd
  · rw [hfd, setPeer_self, Function.update_self, Function.update_self]
    exact hp
  · rw [setPeer_of_ne hfd, Function.update_of_ne hfd, Function.update_of_ne hfd]
    exact h fd'

theorem Tracks.setPeer (h : c.Tracks d₀ taken pending l d)
    (hp : UnderWay p (taken fd) (pending fd)) : (c.setPeer fd p).Tracks d₀ taken pending l d := by
  refine ⟨h.staged, ?_⟩
  intro fd'
  have hupdate := underWay_update h.underWay fd hp fd'
  rwa [Function.update_eq_self, Function.update_eq_self] at hupdate

theorem Tracks.commit (h : c.Tracks d₀ taken pending l d) {id : Nat} {req : Request}
    (htaken : taken fd = true) (hpending : pending fd = some (id, req, none)) :
    c.Tracks d₀ taken (Function.update pending fd (some (id, req, some (requestSpec d req).2)))
      (l ++ [⟨id, req, (requestSpec d req).2⟩]) (requestSpec d req).1 := by
  refine ⟨h.staged.commit hpending, ?_⟩
  intro fd'
  by_cases hfd : fd' = fd
  · have hp := h.underWay fd
    rw [htaken, hpending] at hp
    rw [hfd, Function.update_self, htaken]
    exact hp.executed _
  · rw [Function.update_of_ne hfd]
    exact h.underWay fd'

theorem accept_tracks (h : c.Tracks d₀ taken pending l d) (fd : Nat) :
    (c.accept fd).Tracks d₀ taken pending l d := h.setPeer (h.underWay fd).accepted

theorem write_tracks (h : c.Tracks d₀ taken pending l d) (fd : Nat) :
    (c.write fd).Tracks d₀ taken pending l d := by
  rw [write]
  split
  · exact h
  · rename_i field fields hunwritten
    exact h.setPeer ((h.underWay fd).write hunwritten)

theorem close_tracks (h : c.Tracks d₀ taken pending l d) (fd : Nat) :
    (c.close fd).Tracks d₀ taken pending l d := by
  rw [close]
  split_ifs with hfree
  · obtain ⟨hfalse, hnone, hunwritten, hconn⟩ := (h.underWay fd).quiet hfree
    apply h.setPeer
    rw [hfalse, hnone]
    exact .idle hfree hunwritten hconn
  · exact h

theorem call_tracks (h : c.Tracks d₀ taken pending l d) (fd : Nat) (clientCall : ClientCall) :
    ∃ pending', (c.call fd clientCall).Tracks d₀ taken pending' l d ∧
      ∀ fd', taken fd' = true → pending' fd' = pending fd' := by
  rw [call]
  split_ifs with hfree
  · obtain ⟨hfalse, -, -, hconn⟩ := (h.underWay fd).quiet hfree.1
    have hasked : UnderWay { c.peers fd with
        call := some (c.nextId, clientCall)
        unwritten := clientCall.request.fields } (taken fd)
          (some (c.nextId, clientCall.request, none)) := by
      rw [hfalse]
      exact .asked [] rfl hfree.2 rfl hconn
    refine ⟨_, ⟨h.staged.invoke (t := fd) clientCall.request, ?_⟩, ?_⟩
    · have hupdate := underWay_update h.underWay fd hasked
      rwa [Function.update_eq_self] at hupdate
    · intro fd' htaken
      refine Function.update_of_ne ?_ _ _
      rintro rfl
      rw [hfalse] at htaken
      cases htaken
  · exact ⟨pending, h, fun _ _ => rfl⟩

/-- A call returns what the dictionary answers. -/
theorem receive_answered {id : Nat} {clientCall : ClientCall} {d : Dict}
    (hcall : (c.peers fd).call = some (id, clientCall)) (hunwritten : (c.peers fd).unwritten = [])
    (hconn : (c.peers fd).connection = ⟨[], (dictRequest d clientCall.request).1.frame⟩)
    (worker : Worker) : ∃ client, c.receive fd worker = .ok
      { c.setPeer fd { c.peers fd with
          client := client
          call := none
          connection := ⟨[], []⟩ } with
        history := c.history ++ [.respond id (dictRequest d clientCall.request).1] } := by
  obtain ⟨client, hread, houtcome⟩ := Session.readResponse_frame
    (s := ⟨(c.peers fd).client, worker, (c.peers fd).connection⟩) hconn
  refine ⟨client, ?_⟩
  simp only [receive, hcall, hunwritten, ne_eq, not_true, if_false, hread, houtcome]

theorem receive_nothing (hnothing : (c.peers fd).connection.toClient = []) (worker : Worker) :
    c.receive fd worker = .ok c := by
  rw [receive]
  cases hcall : (c.peers fd).call with
  | none => rfl
  | some call =>
    dsimp only
    split_ifs
    · rfl
    · rw [Session.readResponse_nothing hnothing]

theorem receive_tracks (h : c.Tracks d₀ taken pending l d) (fd : Nat) (worker : Worker) :
    ∃ c', c.receive fd worker = .ok c' ∧ ∃ pending', c'.Tracks d₀ taken pending' l d ∧
      ∀ fd', taken fd' = true → pending' fd' = pending fd' := by
  have hsame : ∃ pending', c.Tracks d₀ taken pending' l d ∧
      ∀ fd', taken fd' = true → pending' fd' = pending fd' := ⟨pending, h, fun _ _ => rfl⟩
  have hp := h.underWay fd
  generalize htaken : taken fd = b at hp
  generalize hpending : pending fd = x at hp
  cases hp with
  | idle hcall =>
    refine ⟨c, ?_, hsame⟩
    simp only [receive, hcall]
  | asked sent hcall hopen hfields hconn => exact ⟨c, receive_nothing (by rw [hconn]) worker, hsame⟩
  | taken hcall hopen hunwritten hconn => exact ⟨c, receive_nothing (by rw [hconn]) worker, hsame⟩
  | answered hcall hopen hunwritten hconn =>
    obtain ⟨client, hreceive⟩ := receive_answered hcall hunwritten hconn worker
    have hidle : UnderWay { c.peers fd with
        client := client
        call := none
        connection := ⟨[], []⟩ } (taken fd) none := by
      rw [htaken]
      exact .idle rfl hunwritten rfl
    refine ⟨_, hreceive, _, ⟨h.staged.respond hpending, ?_⟩, ?_⟩
    · have hupdate := underWay_update h.underWay fd hidle
      rwa [Function.update_eq_self] at hupdate
    · intro fd' hfd'
      refine Function.update_of_ne ?_ _ _
      rintro rfl
      rw [htaken] at hfd'
      cases hfd'

end Clients

end KeyValueStore
