import KeyValueStore.Lib.SegmentedStream
import KeyValueStore.Session

/-!
# What the worker reads from a socket

`worker_thread` calls `read` once for each field of a request, and looks at the number of bytes it
returns only for the request code. A key or a value that comes in two segments, or not at all, is
taken as it is, over what the buffer had in it from the request before.

A client that has closed its end answers what the worker writes with a reset. The worker does not
ignore SIGPIPE, so a second write after that ends the whole server.

* `decodes_iff` — the worker decodes the requests that were sent just if no segment ends inside a
  key or a value.
-/

namespace KeyValueStore

open Run SegmentedStream

/-! ## The socket -/

/-- The server's end of a connection. -/
structure Socket where
  /-- The segments that are still to be read. -/
  incoming : List (List UInt8)
  /-- The client has not closed the connection after them. -/
  peerOpen : Bool
  outgoing : List UInt8
  /-- The reset by which a closed peer answers a write arrives before the next call here. -/
  resets : Bool
  /-- A write found the connection reset: SIGPIPE has ended the server. -/
  brokenPipe : Bool

namespace Socket

/-- A connection with an open peer. -/
def connected (segs : List (List UInt8)) : Socket := ⟨segs, true, [], false, false⟩

/-- The peer has answered what was written with a reset. -/
def reset (s : Socket) : Bool := !s.peerOpen && s.resets && !s.outgoing.isEmpty

/-- `read(fd, buffer, n)`, which waits for a segment while there may be one. -/
def read (s : Socket) (n : Nat) : Except Fault (List UInt8 × Socket) :=
  if s.incoming = [] ∧ s.peerOpen = true then .error .blocked
  else .ok ((SegmentedStream.read n s.incoming).1,
    { s with incoming := (SegmentedStream.read n s.incoming).2 })

def write (s : Socket) (bytes : List UInt8) : Socket :=
  if s.reset then { s with brokenPipe := true } else { s with outgoing := s.outgoing ++ bytes }

variable {s : Socket}

theorem reset_of_open (hopen : s.peerOpen = true) : s.reset = false := by
  rw [reset, hopen]
  rfl

theorem write_of_open (hopen : s.peerOpen = true) (bytes : List UInt8) :
    s.write bytes = { s with outgoing := s.outgoing ++ bytes } := by
  rw [write, reset_of_open hopen]
  rfl

@[simp] theorem write_incoming (s : Socket) (bytes : List UInt8) :
    (s.write bytes).incoming = s.incoming := by
  rw [write]
  split_ifs <;> rfl

/-- The peer is there, and the server. -/
def Connected (s : Socket) : Prop := s.peerOpen = true ∧ s.brokenPipe = false

theorem Connected.write (h : s.Connected) (bytes : List UInt8) : (s.write bytes).Connected := by
  rw [write_of_open h.1]
  exact h

end Socket

/-- The buffer after some bytes have been read into it. -/
def Chars256.overwrite (buffer : Chars256) (bytes : List UInt8) : Chars256 :=
  ⟨(bytes ++ buffer.bytes.drop bytes.length).take kvStrLen, by
    have hlen := buffer.length_eq
    rw [List.length_take, List.length_append, List.length_drop]
    omega⟩

/-- `read(fd, buffer, 256)`. The number of bytes is not looked at. -/
def Socket.readChars (s : Socket) (buffer : Chars256) : Except Fault (Chars256 × Socket) := do
  let (bytes, s) ← s.read kvStrLen
  return (buffer.overwrite bytes, s)

/-! ## The worker -/

/-- What an event turns out to be. -/
inductive Decoded
  | closed
  /-- `EPOLLERR` or `EPOLLHUP`. -/
  | failed
  | invalid (statusCode : UInt8)
  | request (req : Request)
deriving DecidableEq

namespace Worker

/-- One event of `worker_thread`. -/
def serveReady (w : Worker) (s : Socket) : Except Fault (Decoded × Worker × Socket) :=
  if s.reset then .ok (.failed, w, s)
  else do
    let (bytes, s) ← s.read 1
    match bytes with
    | [] => return (.closed, w, s)
    | statusCode :: _ =>
      let message := { w.message with statusCode := statusCode }
      if !isRequestCodeValid statusCode then
        return (.invalid statusCode, { w with message := message }, s.write [statusCodeValueERROR])
      else
        let (key, s) ← s.readChars message.key
        let message := { message with key := key }.calculateKeyHash
        if isRequestCodeGET statusCode then
          let (res, message, state) ← w.state.cacheGET message
          return (.request (.get key), ⟨message, state, w.executed ++ [.get message.key]⟩,
            (s.write [if res then statusCodeValueSUCCESS else statusCodeValueERROR]).write
              (if res then message.value else errorMessage).bytes)
        else if isRequestCodePUT statusCode then
          let (value, s) ← s.readChars message.value
          let message := { message with value := value }
          let state ← w.state.cachePUT message
          return (.request (.put key value),
            ⟨message, state, w.executed ++ [.put message.key message.value]⟩,
            s.write [statusCodeValueSUCCESS])
        else
          let (res, state) ← w.state.cacheDELETE message
          let s := s.write [if res then statusCodeValueSUCCESS else statusCodeValueERROR]
          return (.request (.delete key),
            ⟨message, state, w.executed ++ [.delete message.key]⟩,
            if res then s else s.write errorMessage.bytes)

/-- The worker serves events until it waits for the client, the connection is closed or has failed,
or the server is no more. `fuel` bounds their number. -/
def serveSocket : Nat → Worker → Socket → Except Fault (List Decoded × Worker × Socket)
  | 0, w, s => if s.incoming = [] ∧ s.peerOpen = true then .ok ([], w, s) else .error .endless
  | fuel + 1, w, s =>
    if s.incoming = [] ∧ s.peerOpen = true then .ok ([], w, s)
    else do
      let (event, w, s) ← w.serveReady s
      if event = .closed ∨ event = .failed ∨ s.brokenPipe = true then return ([event], w, s)
      else
        let (events, w, s) ← serveSocket fuel w s
        return (event :: events, w, s)

/-- Every event but the last reads at least one byte. -/
def serveConnection (w : Worker) (s : Socket) : Except Fault (List Decoded × Worker × Socket) :=
  w.serveSocket (s.incoming.flatten.length + 1) s

end Worker

/-! ## The lengths of what an event reads -/

/-- The fields of a request, as the client library writes them. -/
def Request.fields : Request → List (List UInt8)
  | .get key => [[statusCodeValueGET], key.bytes]
  | .put key value => [[statusCodeValuePUT], key.bytes, value.bytes]
  | .delete key => [[statusCodeValueDEL], key.bytes]

/-- The lengths that the worker asks for. -/
def Decoded.lengths : Decoded → List Nat
  | .closed => []
  | .failed => []
  | .invalid _ => [1]
  | .request req => req.fields.map List.length

theorem Request.flatten_fields (req : Request) : req.fields.flatten = req.code :: req.body := by
  cases req <;> simp [Request.fields, Request.code, Request.body]

theorem Request.fields_ne_nil (req : Request) : ∀ f ∈ req.fields, f ≠ [] := by
  have hchars : ∀ v : Chars256, v.bytes ≠ [] := by
    intro v hnil
    have hlen := v.length_eq
    rw [hnil] at hlen
    cases hlen
  cases req <;> simp [Request.fields, hchars]

theorem Request.lengths_eq (req : Request) : req.fields.map List.length =
    match req with
    | .put _ _ => [1, kvStrLen, kvStrLen]
    | _ => [1, kvStrLen] := by
  cases req <;> simp [Request.fields, Chars256.length_eq]

variable {w w' : Worker} {s s' : Socket} {n : Nat} {d : Dict} {req : Request}

theorem Socket.read_ensures (s : Socket) (k : Nat) : Ensures (s.read k) fun r =>
    r.1 = (SegmentedStream.read k s.incoming).1 ∧
      r.2 = { s with incoming := (SegmentedStream.read k s.incoming).2 } := by
  unfold Socket.read
  split_ifs
  · exact Ensures.error
  · exact Ensures.ok ⟨rfl, rfl⟩

theorem Socket.readChars_ensures (s : Socket) (buffer : Chars256) :
    Ensures (s.readChars buffer) fun r =>
      r.2 = { s with incoming := (SegmentedStream.read kvStrLen s.incoming).2 } := by
  unfold Socket.readChars
  exact (s.read_ensures kvStrLen).bind fun r hr => Ensures.ok hr.2

/-- **An event reads by the lengths of what it is decoded as**, whatever the bytes are. -/
theorem Worker.serveReady_reads (hs : s.incoming ≠ []) (hsegs : ∀ seg ∈ s.incoming, seg ≠ [])
    (hconn : s.Connected) : Ensures (w.serveReady s) fun r => (r.1 ≠ .closed ∧ r.1 ≠ .failed) ∧
      r.2.2.incoming = readAll r.1.lengths s.incoming ∧ r.2.2.Connected := by
  unfold Worker.serveReady
  rw [s.reset_of_open hconn.1, if_neg Bool.false_ne_true]
  refine (s.read_ensures 1).bind fun r hr => ?_
  obtain ⟨bytes, s₁⟩ := r
  obtain ⟨hbytes, rfl⟩ := hr
  dsimp only at hbytes
  cases bytes with
  | nil =>
    -- a segment has at least one byte
    obtain ⟨seg, segs, hseg⟩ := List.exists_cons_of_ne_nil hs
    rw [hseg] at hbytes hsegs
    obtain ⟨b, seg, rfl⟩ := List.exists_cons_of_ne_nil (hsegs seg (by simp))
    cases hbytes
  | cons statusCode bytes =>
    have hread (segs : List (List UInt8)) : Socket.Connected { s with incoming := segs } := hconn
    dsimp only
    split_ifs
    · refine Ensures.ok ⟨⟨nofun, nofun⟩, ?_, (hread _).write _⟩
      rw [Socket.write_incoming]
      rfl
    all_goals
      refine (Socket.readChars_ensures _ _).bind fun r hr => ?_
      obtain ⟨key, s₂⟩ := r
      obtain rfl := hr
    · refine ensures_true.bind fun r _ =>
        Ensures.ok ⟨⟨nofun, nofun⟩, ?_, ((hread _).write _).write _⟩
      rw [Socket.write_incoming, Socket.write_incoming, Decoded.lengths, Request.lengths_eq]
      rfl
    · refine (Socket.readChars_ensures _ _).bind fun r hr => ?_
      obtain ⟨value, s₃⟩ := r
      obtain rfl := hr
      refine ensures_true.bind fun state _ =>
        Ensures.ok ⟨⟨nofun, nofun⟩, ?_, (hread _).write _⟩
      rw [Socket.write_incoming, Decoded.lengths, Request.lengths_eq]
      rfl
    · refine ensures_true.bind fun r _ => ?_
      obtain ⟨res, state⟩ := r
      cases res
      · refine Ensures.ok ⟨⟨nofun, nofun⟩, ?_, ((hread _).write _).write _⟩
        dsimp only
        rw [if_neg Bool.false_ne_true, Socket.write_incoming, Socket.write_incoming,
          Decoded.lengths, Request.lengths_eq]
        rfl
      · refine Ensures.ok ⟨⟨nofun, nofun⟩, ?_, (hread _).write _⟩
        dsimp only
        rw [if_pos rfl, Socket.write_incoming, Decoded.lengths, Request.lengths_eq]
        rfl

/-- **A worker that waits again has read by the lengths of all it has decoded.** -/
theorem Worker.serveSocket_reads (fuel : Nat) (hconn : s.Connected)
    (hsegs : ∀ seg ∈ s.incoming, seg ≠ []) : Ensures (w.serveSocket fuel s) fun r =>
      readAll (r.1.flatMap Decoded.lengths) s.incoming = [] := by
  induction fuel generalizing w s with
  | zero =>
    rw [serveSocket]
    split_ifs with hnil
    · exact Ensures.ok hnil.1
    · exact Ensures.error
  | succ fuel ih =>
    rw [serveSocket]
    split_ifs with hnil
    · exact Ensures.ok hnil.1
    · have hne : s.incoming ≠ [] := fun h => hnil ⟨h, hconn.1⟩
      refine (serveReady_reads hne hsegs hconn).bind fun r hr => ?_
      obtain ⟨event, w₁, s₁⟩ := r
      obtain ⟨⟨hclosed, hfailed⟩, hreads, hconn₁⟩ := hr
      dsimp only at hclosed hfailed hreads hconn₁
      have hsegs₁ : ∀ seg ∈ s₁.incoming, seg ≠ [] := by
        rw [hreads]
        exact readAll_ne_nil hsegs
      have hgoes : ¬ (event = .closed ∨ event = .failed ∨ s₁.brokenPipe = true) := by
        rw [hconn₁.2]
        simp [hclosed, hfailed]
      dsimp only
      rw [if_neg hgoes]
      exact (ih hconn₁ hsegs₁).bind fun r hr =>
        Ensures.ok (by rw [List.flatMap_cons, readAll_append, ← hreads, hr])

/-- If exactly the requests sent are decoded, the segments consist of whole fields. -/
theorem Worker.whole_of_decoded {fuel : Nat} {reqs : List Request} (hconn : s.Connected)
    (hsegs : ∀ seg ∈ s.incoming, seg ≠ [])
    (hsent : s.incoming.flatten = (reqs.flatMap Request.fields).flatten)
    (h : w.serveSocket fuel s = .ok (reqs.map .request, w', s')) :
    Whole (reqs.flatMap Request.fields) s.incoming := by
  have hlengths : (reqs.map Decoded.request).flatMap Decoded.lengths =
      (reqs.flatMap Request.fields).map List.length := by
    rw [List.flatMap_map, List.map_flatMap]
    rfl
  have hreads := serveSocket_reads fuel hconn hsegs _ h
  dsimp only at hreads
  rw [hlengths] at hreads
  have hfields : ∀ f ∈ reqs.flatMap Request.fields, f ≠ [] := by
    intro f hf
    obtain ⟨req, -, hf⟩ := List.mem_flatMap.1 hf
    exact req.fields_ne_nil f hf
  rw [whole_iff hfields hsegs hsent, (readsWhole_iff _ _).2, hreads, hsent, List.length_flatten]
  rfl

/-! ## Whole requests -/

theorem Chars256.overwrite_bytes (buffer v : Chars256) : buffer.overwrite v.bytes = v := by
  apply Chars256.ext
  unfold Chars256.overwrite
  dsimp only
  rw [List.take_left' v.length_eq]

theorem Socket.read_of_whole {k : Nat} {bytes rest : List UInt8} (hk : 0 < k)
    (hread : (SegmentedStream.read k s.incoming).1.length = k) (hbytes : bytes.length = k)
    (hflat : s.incoming.flatten = bytes ++ rest) :
    s.read k = .ok (bytes, { s with incoming := (SegmentedStream.read k s.incoming).2 }) ∧
      (SegmentedStream.read k s.incoming).2.flatten = rest := by
  have hne : s.incoming ≠ [] := by
    rintro hnil
    rw [hnil] at hread
    exact absurd hread hk.ne
  obtain ⟨htake, hdrop⟩ := read_eq_take hread
  rw [hflat, List.take_left' hbytes] at htake
  rw [hflat, List.drop_left' hbytes] at hdrop
  refine ⟨?_, hdrop⟩
  rw [Socket.read, if_neg fun h => hne h.1, htake]

theorem Socket.readChars_of_whole {v : Chars256} {rest : List UInt8} (buffer : Chars256)
    (hread : (SegmentedStream.read kvStrLen s.incoming).1.length = kvStrLen)
    (hflat : s.incoming.flatten = v.bytes ++ rest) :
    s.readChars buffer =
        .ok (v, { s with incoming := (SegmentedStream.read kvStrLen s.incoming).2 }) ∧
      (SegmentedStream.read kvStrLen s.incoming).2.flatten = rest := by
  obtain ⟨hok, hrest⟩ := Socket.read_of_whole (by decide) hread v.length_eq hflat
  refine ⟨?_, hrest⟩
  rw [Socket.readChars, hok, ok_bind]
  show Except.ok (buffer.overwrite v.bytes, _) = _
  rw [Chars256.overwrite_bytes]

theorem Socket.readCodeKey_of_whole {code : UInt8} {key : Chars256} {ks : List Nat}
    {rest : List UInt8} (buffer : Chars256)
    (hreads : ReadsWhole (1 :: kvStrLen :: ks) s.incoming)
    (hflat : s.incoming.flatten = (code :: key.bytes) ++ rest) :
    ∃ s₁ s₂, s.read 1 = .ok ([code], s₁) ∧ s₁.readChars buffer = .ok (key, s₂) ∧
      s₂ = { s with incoming := readAll [1, kvStrLen] s.incoming } ∧
      s₂.incoming.flatten = rest ∧ ReadsWhole ks s₂.incoming := by
  obtain ⟨hcode, hkey, hrest⟩ := hreads
  have hone : [code].length = 1 := rfl
  obtain ⟨hread₁, hflat₁⟩ := Socket.read_of_whole Nat.one_pos hcode hone hflat
  obtain ⟨hread₂, hflat₂⟩ := Socket.readChars_of_whole
    (s := { s with incoming := (SegmentedStream.read 1 s.incoming).2 }) buffer hkey hflat₁
  exact ⟨_, _, hread₁, hread₂, rfl, hflat₂, hrest⟩

/-- **A request whose fields are read whole is served as in a session.** -/
theorem Worker.serveReady_of_whole {rest : List UInt8} (hopen : s.peerOpen = true)
    (hreads : ReadsWhole (req.fields.map List.length) s.incoming)
    (hflat : s.incoming.flatten = (req.code :: req.body) ++ rest) :
    w.serveReady s = (w.serveEvent req.code ⟨req.body, s.outgoing⟩).bind fun r =>
      .ok (.request req, r.1, { s with
        incoming := readAll (req.fields.map List.length) s.incoming
        outgoing := r.2.toClient }) := by
  have hwrite (segs : List (List UInt8)) (out bytes : List UInt8) :
      Socket.write { s with incoming := segs, outgoing := out } bytes =
        { s with incoming := segs, outgoing := out ++ bytes } :=
    Socket.write_of_open (s := { s with incoming := segs, outgoing := out }) hopen bytes
  have hwrites (segs : List (List UInt8)) (out bytes bytes' : List UInt8) :
      (Socket.write { s with incoming := segs, outgoing := out } bytes).write bytes' =
        { s with incoming := segs, outgoing := out ++ bytes ++ bytes' } := by
    rw [hwrite, hwrite]
  rw [Request.lengths_eq] at hreads ⊢
  rw [serveReady, s.reset_of_open hopen, if_neg Bool.false_ne_true]
  cases req with
  | get key =>
    obtain ⟨s₁, s₂, hcode, hkey, rfl, -⟩ := Socket.readCodeKey_of_whole w.message.key hreads hflat
    have hvalid : ¬ (!isRequestCodeValid statusCodeValueGET) = true := by decide
    have hget : isRequestCodeGET statusCodeValueGET = true := by decide
    rw [hcode, ok_bind, serveEvent, Request.code, Request.body, receiveChars_bytes]
    dsimp only
    rw [if_neg hvalid, if_neg hvalid, hkey, ok_bind, ok_bind, if_pos hget, if_pos hget]
    cases w.state.cacheGET _ with
    | error e => rfl
    | ok r => exact congrArg (fun s' => Except.ok (_, _, s')) (hwrites ..)
  | put key value =>
    replace hflat := hflat.trans
      (List.append_assoc (statusCodeValuePUT :: key.bytes) value.bytes rest)
    obtain ⟨s₁, s₂, hcode, hkey, rfl, hflat₂, hwhole, -⟩ :=
      Socket.readCodeKey_of_whole w.message.key hreads hflat
    obtain ⟨hvalue, -⟩ := Socket.readChars_of_whole w.message.value hwhole hflat₂
    have hvalid : ¬ (!isRequestCodeValid statusCodeValuePUT) = true := by decide
    have hget : ¬ isRequestCodeGET statusCodeValuePUT = true := by decide
    have hput : isRequestCodePUT statusCodeValuePUT = true := by decide
    rw [hcode, ok_bind, serveEvent, Request.code, Request.body, receiveChars_append]
    dsimp only
    rw [if_neg hvalid, if_neg hvalid, hkey, ok_bind, ok_bind, if_neg hget, if_neg hget,
      if_pos hput, if_pos hput, receiveChars_bytes]
    dsimp only [KVMessage.calculateKeyHash]
    rw [hvalue, ok_bind, ok_bind]
    cases w.state.cachePUT _ with
    | error e => rfl
    | ok r => exact congrArg (fun s' => Except.ok (_, _, s')) (hwrite ..)
  -- a successful deletion is answered with the status code alone
  | delete key =>
    obtain ⟨s₁, s₂, hcode, hkey, rfl, -⟩ := Socket.readCodeKey_of_whole w.message.key hreads hflat
    have hvalid : ¬ (!isRequestCodeValid statusCodeValueDEL) = true := by decide
    have hget : ¬ isRequestCodeGET statusCodeValueDEL = true := by decide
    have hput : ¬ isRequestCodePUT statusCodeValueDEL = true := by decide
    rw [hcode, ok_bind, serveEvent, Request.code, Request.body, receiveChars_bytes]
    dsimp only
    rw [if_neg hvalid, if_neg hvalid, hkey, ok_bind, ok_bind, if_neg hget, if_neg hget,
      if_neg hput, if_neg hput]
    cases w.state.cacheDELETE _ with
    | error e => rfl
    | ok r =>
      obtain ⟨res, state⟩ := r
      cases res with
      | false => exact congrArg (fun s' => Except.ok (_, _, s')) (hwrites ..)
      | true =>
        have hwrite' (segs : List (List UInt8)) (out bytes : List UInt8) :
            Socket.write { s with incoming := segs, outgoing := out } bytes =
              { s with incoming := segs, outgoing := out ++ bytes ++ [] } := by
          rw [hwrite, List.append_nil]
        exact congrArg (fun s' => Except.ok (_, _, s')) (hwrite' ..)

/-- A request whose fields are read whole is decoded and executed. -/
theorem Worker.serveReady_spec {rest : List UInt8} (h : KVState.Holds n w.state d) (hpos : 0 < n)
    (hconn : s.Connected)
    (hreads : ReadsWhole (req.fields.map List.length) s.incoming)
    (hflat : s.incoming.flatten = (req.code :: req.body) ++ rest) :
    SucceedsUnlessFull (w.serveReady s) fun r => r.1 = .request req ∧
      KVState.Holds n r.2.1.state (dictRequest d req).2 ∧
      r.2.1.executed = w.executed ++ [req] ∧
      r.2.2.incoming = readAll (req.fields.map List.length) s.incoming ∧
      r.2.2.Connected := by
  rw [serveReady_of_whole hconn.1 hreads hflat]
  refine (serveEvent_spec h hpos req s.outgoing).bind fun r hr => Excused.ok ?_
  exact ⟨rfl, hr.2.1, hr.2.2, rfl, hconn⟩

/-- The dictionary after some requests. -/
def dictAfter (d : Dict) (reqs : List Request) : Dict :=
  reqs.foldl (fun d req => (dictRequest d req).2) d

/-- **Whole requests are decoded and executed in order.** -/
theorem Worker.serveSocket_of_whole (hpos : 0 < n) (reqs : List Request) {fuel : Nat}
    (h : KVState.Holds n w.state d) (hfuel : reqs.length ≤ fuel) (hconn : s.Connected)
    (hsegs : ∀ seg ∈ s.incoming, seg ≠ [])
    (hsent : s.incoming.flatten = (reqs.flatMap Request.fields).flatten)
    (hreads : ReadsWhole ((reqs.flatMap Request.fields).map List.length) s.incoming) :
    SucceedsUnlessFull (w.serveSocket fuel s) fun r => r.1 = reqs.map .request ∧
      KVState.Holds n r.2.1.state (dictAfter d reqs) ∧ r.2.1.executed = w.executed ++ reqs := by
  induction reqs generalizing w s d fuel with
  | nil =>
    have hnil : s.incoming = [] := List.eq_nil_iff_forall_not_mem.2 fun seg hseg =>
      hsegs seg hseg (List.flatten_eq_nil_iff.1 hsent seg hseg)
    cases fuel <;> rw [serveSocket, if_pos ⟨hnil, hconn.1⟩] <;>
      exact Excused.ok ⟨rfl, h, (List.append_nil _).symm⟩
  | cons req reqs ih =>
    obtain ⟨fuel, rfl⟩ : ∃ k, fuel = k + 1 := Nat.exists_eq_succ_of_ne_zero (by
      rintro rfl
      cases hfuel)
    have hflat : s.incoming.flatten =
        (req.code :: req.body) ++ (reqs.flatMap Request.fields).flatten := by
      rw [hsent, List.flatMap_cons, List.flatten_append, req.flatten_fields]
    have hne : ¬ (s.incoming = [] ∧ s.peerOpen = true) := by
      rintro ⟨hnil, -⟩
      rw [hnil] at hflat
      cases hflat
    rw [List.flatMap_cons, List.map_append, readsWhole_append] at hreads
    have hrest : (readAll (req.fields.map List.length) s.incoming).flatten =
        (reqs.flatMap Request.fields).flatten := by
      rw [flatten_readAll hreads.1, hflat, ← List.length_flatten, req.flatten_fields,
        List.drop_left]
    rw [serveSocket, if_neg hne]
    refine (serveReady_spec h hpos hconn hreads.1 hflat).bind fun r hr => ?_
    obtain ⟨event, w₁, s₁⟩ := r
    obtain ⟨rfl, hholds, hexec, hincoming, hconn₁⟩ := hr
    dsimp only at hholds hexec hincoming hconn₁
    -- what is left of the stream starts with the next request
    rw [← hincoming] at hrest hreads
    have hfuel₁ : reqs.length ≤ fuel := Nat.le_of_succ_le_succ hfuel
    have hsegs₁ : ∀ seg ∈ s₁.incoming, seg ≠ [] := by
      rw [hincoming]
      exact readAll_ne_nil hsegs
    have hgoes : ¬ (Decoded.request req = .closed ∨ Decoded.request req = .failed ∨
        s₁.brokenPipe = true) := by
      rw [hconn₁.2]
      simp
    dsimp only
    rw [if_neg hgoes]
    have hnext := ih hholds hfuel₁ hconn₁ hsegs₁ hrest hreads.2
    refine hnext.bind fun r hr => Excused.ok ?_
    obtain ⟨hevents, hholds', hexec'⟩ := hr
    refine ⟨by rw [hevents, List.map_cons], hholds', ?_⟩
    rw [hexec', hexec, List.append_assoc, List.singleton_append]

/-! ## Requests in segments -/

theorem length_le_flatten_fields (reqs : List Request) :
    reqs.length ≤ (reqs.flatMap Request.fields).flatten.length := by
  induction reqs with
  | nil => exact Nat.zero_le _
  | cons req reqs ih =>
    rw [List.flatMap_cons, List.flatten_append, List.length_append, req.flatten_fields,
      List.length_cons, List.length_cons]
    omega

theorem KVState.Holds.lookup (h : KVState.Holds n w.state d) (key : Chars256) :
    w.state.lookup key = .ok (d key) := by
  obtain ⟨L, hrep, -⟩ := h
  exact KVState.lookup_eq hrep key

variable {cacheSize : Nat} {files : Nat → Option (List UInt8)}

theorem KVState.start_holds (hsize : 1 ≤ cacheSize) (hfiles : WellFormedFiles files) :
    ∃ (state : KVState) (d : Dict), KVState.start cacheSize files = .ok state ∧
      KVState.Holds cacheSize state d := by
  obtain ⟨m, hm⟩ := hfiles.exists_rep
  obtain ⟨state, hstate, -, hrep, hn⟩ := KVState.start_spec hsize hm
  exact ⟨state, _, hstate, _, hrep, hn⟩

/-- **The worker decodes and executes exactly the requests sent just if no segment ends inside a key
or a value.** -/
theorem decodes_iff (hsize : 1 ≤ cacheSize) (hfiles : WellFormedFiles files) :
    ∃ (state : KVState) (d : Dict), KVState.start cacheSize files = .ok state ∧
      (∀ key, state.lookup key = .ok (d key)) ∧
      ∀ (message : KVMessage) (reqs : List Request) (segs : List (List UInt8)),
        (∀ seg ∈ segs, seg ≠ []) → segs.flatten = (reqs.flatMap Request.fields).flatten →
        let served := Worker.serveConnection ⟨message, state, []⟩ (.connected segs)
        served = .error .fileTooLarge ∨
          ((∃ w s, served = .ok (reqs.map .request, w, s) ∧ w.executed = reqs ∧
            ∀ key, w.state.lookup key = .ok (dictAfter d reqs key)) ↔
          Whole (reqs.flatMap Request.fields) segs) := by
  obtain ⟨state, d, hstate, hholds⟩ := KVState.start_holds hsize hfiles
  refine ⟨state, d, hstate, KVState.Holds.lookup (w := ⟨.empty, state, []⟩) hholds,
    fun message reqs segs hsegs hsent => ?_⟩
  intro served
  have hfields : ∀ f ∈ reqs.flatMap Request.fields, f ≠ [] := by
    intro f hf
    obtain ⟨req, -, hf⟩ := List.mem_flatMap.1 hf
    exact req.fields_ne_nil f hf
  by_cases hwhole : Whole (reqs.flatMap Request.fields) segs
  · have hfuel : reqs.length ≤ segs.flatten.length + 1 := by
      rw [hsent]
      exact Nat.le_succ_of_le (length_le_flatten_fields reqs)
    rcases Worker.serveSocket_of_whole (w := ⟨message, state, []⟩) (s := .connected segs) hsize
      reqs hholds hfuel ⟨rfl, rfl⟩ hsegs hsent ((whole_iff hfields hsegs hsent).1 hwhole) with
      hfull | ⟨⟨events, w, s⟩, hok, hevents, hholds', hexec⟩
    · exact Or.inl hfull
    · obtain rfl : events = reqs.map .request := hevents
      exact Or.inr (iff_of_true ⟨w, s, hok, hexec, hholds'.lookup⟩ hwhole)
  · refine Or.inr (iff_of_false ?_ hwhole)
    rintro ⟨w, s, hok, -⟩
    exact hwhole (Worker.whole_of_decoded (s := .connected segs) ⟨rfl, rfl⟩ hsegs hsent hok)

/-- A `PUT` and a `GET` of its key, whose fields come in three segments. -/
theorem decodes_iff_putGet : ∃ (state : KVState) (d : Dict),
    KVState.start 1 (fun _ => none) = .ok state ∧
      let reqs := [Request.put (.ofText [97]) (.ofText [1]), .get (.ofText [97])]
      let segs := [[statusCodeValuePUT],
        (Chars256.ofText [97]).bytes ++ (Chars256.ofText [1]).bytes ++ [statusCodeValueGET],
        (Chars256.ofText [97]).bytes]
      let served := Worker.serveConnection ⟨.empty, state, []⟩ (.connected segs)
      served = .error .fileTooLarge ∨
        ((∃ w s, served = .ok (reqs.map .request, w, s) ∧ w.executed = reqs ∧
          ∀ key, w.state.lookup key = .ok (dictAfter d reqs key)) ↔
        Whole (reqs.flatMap Request.fields) segs) := by
  obtain ⟨state, d, hstate, -, hserved⟩ := decodes_iff (le_refl 1) wellFormedFiles_none
  refine ⟨state, d, hstate, hserved .empty _ _ (by decide +kernel) ?_⟩
  simp [Request.fields]

/-- A `GET` whose key goes on with the character 3, in two segments. -/
def cutGet : List (List UInt8) :=
  [[statusCodeValueGET, 97], statusCodeValueDEL :: List.replicate 254 0]

/-- The rest of the key is taken for a `DELETE`. -/
theorem cutGet_decoded : cutGet.flatten = (Request.get (.ofText [97, 3])).fields.flatten ∧
    ∃ state w s, KVState.start 1 (fun _ => none) = .ok state ∧
      Worker.serveConnection ⟨.empty, state, []⟩ (.connected cutGet) =
        .ok ([.request (.get (.ofText [97])), .request (.delete emptyString)], w, s) ∧
      w.executed = [.get (.ofText [97]), .delete emptyString] := by
  refine ⟨by decide +kernel, ?_⟩
  obtain ⟨state, hstate, hcheck⟩ := exists_of_returns (show returns
    (KVState.start 1 fun _ => none) (fun state => returns
      (Worker.serveConnection ⟨.empty, state, []⟩ (.connected cutGet)) fun r =>
        decide (r.1 = [.request (.get (.ofText [97])), .request (.delete emptyString)] ∧
          r.2.1.executed = [.get (.ofText [97]), .delete emptyString])) = true by decide +kernel)
  obtain ⟨⟨events, w, s⟩, hserved, hevents⟩ := exists_of_returns hcheck
  obtain ⟨rfl, hexec⟩ := of_decide_eq_true hevents
  exact ⟨state, w, s, hstate, hserved, hexec⟩

end KeyValueStore
