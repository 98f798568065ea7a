import KeyValueStore.CacheDurability
import KeyValueStore.CacheWrites
import KeyValueStore.Sockets

/-!
# Connections that end inside a request

A client that closes its connection in the middle of a request has the rest of the request taken
from the buffer of the worker, and the request is executed. The answer may cost more. A GET, and a
DELETE that finds nothing, are answered with two writes; if the reset for the first of them is there
before the second, SIGPIPE ends the server, and what the cache has not written is lost.

So the map stays what it was if the request that the worker makes up changes nothing (`Harmless`),
and, when the server ends with it, the files hold the map already (`Saved`): the entry that the
request itself evicts is the only one that is still written.

* `cacheGET_flushes` — what a GET leaves in the store.
* `truncated_iff` — the map is the same just if both hold.
-/

namespace KeyValueStore

open Run SegmentedStream

/-! ## What the request leaves in the store -/

/-- A map after the store calls for the nodes `ps`. -/
def flushed (c : KVCache) (ps : List NodePtr) (m : Triple → Option Chars256) :
    Triple → Option Chars256 :=
  ps.foldl (fun m p => Function.update m (c.message p).triple (nodeValue c p)) m

namespace KVState

variable {s : KVState} {L : Layout} {held : List NodePtr} {d : Dict} {p : NodePtr}
  {m : Triple → Option Chars256}

theorem evictLocked_flushes (h : Wf s.cache L held) (hm : StoreRep s.store m) {e : Nat}
    (htail : (s.cache.lruEvictionTable e).tail = some p) :
    Ensures (s.evictLocked e (hashTableIdx (s.cache.message p))) fun r =>
      StoreRep r.2.store (flushed s.cache [p] m) := by
  have hp := (h.tail_linked htail).1
  show Ensures _ fun r : Option NodePtr × KVState =>
    StoreRep r.2.store (Function.update m _ (nodeValue s.cache p))
  rcases h.present p hp with hdirty | hdirty
  · rw [evictLocked_dirty htail hdirty, nodeValue, if_neg (by rw [hdirty]; decide)]
    exact (KVStore.writeToDb_spec hm _).ensures.bind fun store' hstore' => Ensures.ok hstore'
  · rw [evictLocked_toDelete htail hdirty, nodeValue, if_pos hdirty]
    obtain ⟨store', hdel, hrep'⟩ := KVStore.deleteFromDb_spec hm (s.cache.message p)
    rw [hdel]
    exact Ensures.ok hrep'

theorem cacheEviction_flushes (h : Wf s.cache L held) (hm : StoreRep s.store m) :
    Ensures s.cacheEviction fun r =>
      StoreRep r.2.store (flushed s.cache s.cache.victim.toList m) := by
  rw [KVCache.victim, KVCache.evictionQueue]
  obtain ⟨i, ⟨e, hscan, hh⟩ | ⟨hscan, -⟩⟩ := scan_eq h
  · have hwf := h.setCounters i s.cache.lruTableInsertIdx
    obtain ⟨p, htail⟩ := h.tail_of_head hh
    have hv : KVCache.victimBucket { s.cache with lruEvictionIdx := i } e =
        .ok (hashTableIdx (s.cache.message p)) := by
      rw [KVCache.victimBucket, htail]
    have hev := evictLocked_ensures (s := ⟨_, s.store⟩) hwf (e := e) (p := p) htail
    rw [cacheEviction_of_some hscan hv fun r hr => ⟨p, (hev r hr).1⟩, hscan, Option.bind_some,
      htail]
    exact evictLocked_flushes (s := ⟨_, s.store⟩) hwf hm htail
  · rw [cacheEviction_of_none hscan, hscan]
    exact Ensures.ok hm

theorem newInstance_flushes (h : Wf s.cache L held) (hm : StoreRep s.store m) :
    Ensures s.newInstance fun r => StoreRep r.2.store
      (flushed s.cache (if s.cache.isFull then s.cache.victim.toList else []) m) := by
  rw [newInstance]
  split_ifs
  · exact cacheEviction_flushes h hm
  · exact ensures_true.bind fun r _ => Ensures.ok hm

theorem cachePUTNewEntry_flushes (h : Wf s.cache L held) (hm : StoreRep s.store m)
    (ptr : KVMessage) (i : Nat) : Ensures (s.cachePUTNewEntry ptr i) fun r => StoreRep r.2.store
      (flushed s.cache (if s.cache.isFull then s.cache.victim.toList else []) m) := by
  rw [cachePUTNewEntry]
  refine (newInstance_flushes h hm).bind fun r hr => ?_
  obtain ⟨res, s₁⟩ := r
  cases res with
  | none => exact Ensures.error
  | some p => exact Ensures.ok hr

/-- What is written for linked nodes is what the dictionary says of their keys. -/
theorem flushed_eq (h : Represents s L held d) {ps : List NodePtr} (hps : ∀ p ∈ ps, p ∈ L.linked)
    (m : Triple → Option Chars256) (key : Chars256) : flushed s.cache ps m (tripleOf key) =
      if ∀ p ∈ ps, (s.cache.message p).key ≠ key then m (tripleOf key) else d key := by
  induction ps generalizing m with
  | nil => exact (if_pos nofun).symm
  | cons p ps ih =>
    have hp := hps p List.mem_cons_self
    rw [flushed, List.foldl_cons, ← flushed, ih fun q hq => hps q (List.mem_cons_of_mem p hq)]
    by_cases hkey : (s.cache.message p).key = key
    · -- a later node of the key has the same to say
      rw [h.wf.hashed p hp, hkey, Function.update_self, ← h.cached p hp, hkey, ite_self,
        if_neg fun hall => hall p List.mem_cons_self hkey]
    · rw [h.wf.hashed p hp, Function.update_of_ne fun ht => hkey (tripleOf_inj.1 ht.symm)]
      simp only [List.forall_mem_cons, ne_eq, hkey, not_false_eq_true, true_and]

/-- **A GET** leaves in the store what its victim says, and the rest as it was. -/
theorem cacheGET_flushes (h : Represents s L [] d) (hm : StoreRep s.store m) (ptr : KVMessage) :
    Ensures (s.cacheGET ptr) fun r =>
      StoreRep r.2.2.store (flushed s.cache (s.victims (.get ptr)) m) := by
  obtain ⟨r, s₁, L₁, hget, hrep₁, -, -, hstore, hr⟩ := getSearch_spec h ptr.calculateKeyHash rfl
  show Ensures _ fun r : Bool × KVMessage × KVState => StoreRep r.2.2.store (flushed s.cache
    (if (s.newEntryState (.get ptr)).isSome ∧ s.cache.isFull then _ else []) m)
  rw [cacheGET, cacheGETPtr, newEntryState, hget]
  cases r with
  | done res ptr' =>
    refine Ensures.ok ?_
    rw [if_neg fun hcon => Bool.false_ne_true hcon.1]
    rwa [hstore]
  | load ptr' =>
    obtain ⟨-, rfl, -⟩ := hr
    simp only [Option.isSome_some, true_and]
    refine Ensures.bind (P := fun r => StoreRep r.2.2.store (flushed s₁.cache
      (if s₁.cache.isFull then s₁.cache.victim.toList else []) m)) ?_ fun r hr => Ensures.ok hr
    exact (cachePUTNewEntry_flushes h.wf hm ptr' _).bind fun r hr => Ensures.ok hr

/-- **A DELETE of a key that is not there** leaves the store alone. -/
theorem cacheDELETE_absent (h : Represents s L held d) (hm : StoreRep s.store m) (ptr : KVMessage)
    (hnone : d ptr.key = none) :
    Ensures (s.cacheDELETE ptr) fun r => StoreRep r.2.store m := by
  obtain ⟨found, hf⟩ := h.wf.findEntry_ok ptr.calculateKeyHash
  rw [cacheDELETE, deleteSearch, hf, ok_bind]
  cases found with
  | none =>
    obtain ⟨m', hrep', hd⟩ := h.stored
    obtain rfl := hm.unique hrep'
    have hkey := hd ptr.key (h.key_ne ptr.calculateKeyHash rfl hf)
    rw [hnone] at hkey
    obtain ⟨store', hdel, hstore'⟩ := KVStore.deleteFromDb_spec hm ptr.calculateKeyHash
    have hsame : Function.update m ptr.calculateKeyHash.triple none = m :=
      Function.update_eq_self_iff.2 hkey
    rw [hsame] at hstore'
    dsimp only
    rw [hdel]
    exact Ensures.ok hstore'
  | some p =>
    obtain ⟨hp, htriple⟩ := h.wf.findEntry_some hf
    have hnode := h.cached p hp
    rw [show (s.cache.message p).key = ptr.key from congrArg Triple.key htriple, hnone,
      nodeValue] at hnode
    -- the node is marked already
    rcases h.wf.present p hp with hdirty | hdirty
    · rw [if_neg (by rw [hdirty]; decide)] at hnode
      cases hnode
    · simp only [hdirty]
      exact Ensures.ok hm

end KVState

/-! ## Requests that end early -/

/-- The number of bytes that come after a request code. -/
def bodyLength (statusCode : UInt8) : Nat :=
  if isRequestCodePUT statusCode then 2 * kvStrLen else kvStrLen

namespace Worker

/-- A client has sent some bytes and closed the connection. Its reset arrives in time or not. -/
def serveClosing (w : Worker) (resets : Bool) (bytes : List UInt8) :
    Except Fault (List Decoded × Worker × Socket) :=
  w.serveConnection ⟨arrived bytes, false, [], resets, false⟩

/-- The key that the worker takes from a body that ends early. -/
def completedKey (w : Worker) (body : List UInt8) : Chars256 :=
  w.message.key.overwrite (body.take kvStrLen)

def completedValue (w : Worker) (body : List UInt8) : Chars256 :=
  w.message.value.overwrite (body.drop kvStrLen)

/-- The buffer of the worker when it has read the key. -/
def truncatedMessage (w : Worker) (statusCode : UInt8) (body : List UInt8) : KVMessage :=
  { w.message with statusCode := statusCode, key := w.completedKey body }.calculateKeyHash

/-- The call that the worker makes for a body that ends early. -/
def truncatedCall (w : Worker) (statusCode : UInt8) (body : List UInt8) : CacheCall :=
  let message := w.truncatedMessage statusCode body
  if isRequestCodeGET statusCode then .get message
  else if isRequestCodePUT statusCode then .put { message with value := w.completedValue body }
  else .delete message

/-- The worker serves complete requests, each from any of its clients. -/
def serveRequests (w : Worker) : List Request → Except Fault Worker
  | [] => .ok w
  | req :: reqs => do
    let (_, w, _) ← w.serveConnection (.connected [req.fields.flatten])
    w.serveRequests reqs

end Worker

/-- What a server that starts on the files looks up. -/
def lookupFiles (cacheSize : Nat) (files : Nat → Option (List UInt8)) (key : Chars256) :
    Except Fault (Option Chars256) := do
  let state ← KVState.start cacheSize files
  state.lookup key

/-- The map after a connection: the server's, or if it has been ended the next one's. -/
def lookupAfter (cacheSize : Nat) (r : List Decoded × Worker × Socket) (key : Chars256) :
    Except Fault (Option Chars256) :=
  if r.2.2.brokenPipe then lookupFiles cacheSize r.2.1.state.store.files key
  else r.2.1.state.lookup key

variable {w w' : Worker} {s s' : Socket} {n cacheSize : Nat} {d : Dict} {req : Request}
  {m : Triple → Option Chars256} {files : Nat → Option (List UInt8)} {statusCode : UInt8}
  {body : List UInt8} {resets : Bool}

theorem lookupFiles_eq (hsize : 1 ≤ cacheSize) {store : KVStore} (hm : StoreRep store m)
    (key : Chars256) : lookupFiles cacheSize store.files key = .ok (m (tripleOf key)) := by
  obtain ⟨state, hstate, -, hrep, -⟩ := KVState.start_spec hsize hm.restart
  rw [lookupFiles, hstate, ok_bind]
  exact KVState.lookup_eq hrep key

theorem Socket.read_closing {bytes out : List UInt8} {k : Nat} :
    Socket.read ⟨arrived bytes, false, out, resets, false⟩ k =
      .ok (bytes.take k, ⟨arrived (bytes.drop k), false, out, resets, false⟩) := by
  rw [Socket.read, if_neg (by simp), read_arrived]

theorem Socket.readChars_closing {bytes out : List UInt8} (buffer : Chars256) :
    Socket.readChars ⟨arrived bytes, false, out, resets, false⟩ buffer =
      .ok (buffer.overwrite (bytes.take kvStrLen),
        ⟨arrived (bytes.drop kvStrLen), false, out, resets, false⟩) := by
  rw [Socket.readChars, Socket.read_closing]
  rfl

theorem Socket.write_closing (resets : Bool) (b : UInt8) :
    ((⟨[], false, [], resets, false⟩ : Socket).write [b]) = ⟨[], false, [b], resets, false⟩ := by
  cases resets <;> rfl

theorem Socket.write_write_closing (resets : Bool) (b : UInt8) (bytes : List UInt8) :
    ∃ out, ((⟨[], false, [], resets, false⟩ : Socket).write [b]).write bytes =
      ⟨[], false, out, resets, resets⟩ := by
  cases resets
  · exact ⟨b :: bytes, rfl⟩
  · exact ⟨[b], rfl⟩

/-- The worker closes a connection that has ended, or finds that it has failed. -/
theorem Worker.serveSocket_ended (fuel : Nat) (w : Worker) (hin : s.incoming = [])
    (hclosed : s.peerOpen = false) :
    ∃ event, w.serveSocket (fuel + 1) s = .ok ([event], w, s) := by
  obtain ⟨segs, isOpen, out, resets, broken⟩ := s
  obtain rfl : segs = [] := hin
  obtain rfl : isOpen = false := hclosed
  rw [serveSocket, if_neg (by simp), serveReady]
  split_ifs
  · exact ⟨.failed, rfl⟩
  · exact ⟨.closed, rfl⟩

/-- The dictionary after a request that ends early. -/
def Worker.dictAfterTruncated (w : Worker) (d : Dict) (statusCode : UInt8) (body : List UInt8) :
    Dict :=
  if isRequestCodeGET statusCode then d
  else if isRequestCodePUT statusCode then
    Function.update d (w.completedKey body) (some (w.completedValue body))
  else Function.update d (w.completedKey body) none

/-- What a request that ends early leaves of the server, of the connection and of the map `m` of
the files. -/
structure ServedTruncated (n : Nat) (w : Worker) (d : Dict) (m : Triple → Option Chars256)
    (resets : Bool) (statusCode : UInt8) (body : List UInt8) (w' : Worker) (s' : Socket) :
    Prop where
  holds : KVState.Holds n w'.state (w.dictAfterTruncated d statusCode body)
  incoming : s'.incoming = []
  closed : s'.peerOpen = false
  /-- The server ends at the second write of an answer. -/
  broken : s'.brokenPipe = true ↔ resets = true ∧ isRequestCodePUT statusCode = false ∧
    w.dictAfterTruncated d statusCode body = d
  files : s'.brokenPipe = true → StoreRep w'.state.store
    (flushed w.state.cache (w.state.victims (w.truncatedCall statusCode body)) m)

/-- **A request that ends early is executed** with what the buffer of the worker has in place of the
missing bytes. -/
theorem Worker.serveReady_closing (h : KVState.Holds n w.state d) (hpos : 0 < n)
    (hm : StoreRep w.state.store m) (hvalid : isRequestCodeValid statusCode = true)
    (hshort : body.length < bodyLength statusCode) :
    SucceedsUnlessFull (w.serveReady ⟨arrived (statusCode :: body), false, [], resets, false⟩)
      fun r => (∃ req, r.1 = .request req) ∧
        ServedTruncated n w d m resets statusCode body r.2.1 r.2.2 := by
  have hvalid' : ¬ (!isRequestCodeValid statusCode) = true := by simp [hvalid]
  unfold bodyLength at hshort
  rw [serveReady, if_neg (by simp [Socket.reset]), Socket.read_closing, ok_bind]
  show SucceedsUnlessFull (if _ then _ else _) _
  rw [if_neg hvalid', show (statusCode :: body).drop 1 = body from rfl, Socket.readChars_closing,
    ok_bind]
  by_cases hput : isRequestCodePUT statusCode = true
  · have hget : ¬ isRequestCodeGET statusCode = true := by
      unfold isRequestCodePUT isRequestCodeGET at *
      rw [beq_iff_eq.1 hput]
      decide
    rw [if_pos hput] at hshort
    dsimp only
    rw [if_neg hget, if_pos hput, Socket.readChars_closing, ok_bind]
    have hrest : (body.drop kvStrLen).drop kvStrLen = [] := by
      rw [List.drop_drop]
      exact List.drop_eq_nil_of_le (by omega)
    have htake : (body.drop kvStrLen).take kvStrLen = body.drop kvStrLen := by
      apply List.take_of_length_le
      rw [List.length_drop]
      omega
    rw [hrest, htake]
    refine (KVState.cachePUT_spec h hpos _).bind fun state hstate => Excused.ok ⟨⟨_, rfl⟩, ?_⟩
    dsimp only
    rw [show arrived [] = ([] : List (List UInt8)) from rfl, Socket.write_closing]
    refine ⟨?_, rfl, rfl, ?_, fun hbroken => absurd hbroken Bool.false_ne_true⟩
    · rw [dictAfterTruncated, if_neg hget, if_pos hput]
      exact hstate
    · exact iff_of_false Bool.false_ne_true fun hbroken =>
        Bool.false_ne_true (hbroken.2.1.symm.trans hput)
  · rw [if_neg hput] at hshort
    rw [List.drop_eq_nil_of_le (Nat.le_of_lt hshort)]
    dsimp only
    by_cases hget : isRequestCodeGET statusCode = true
    · rw [if_pos hget]
      have hcall : w.truncatedCall statusCode body =
          .get (w.truncatedMessage statusCode body) := if_pos hget
      have hspec := KVState.cacheGET_spec h hpos (w.truncatedMessage statusCode body)
      obtain ⟨L, hrep, hn⟩ := h
      have hflushes := KVState.cacheGET_flushes hrep hm (w.truncatedMessage statusCode body)
      refine ((hspec.ensures.and hflushes).excused hspec).bind fun r hr =>
        Excused.ok ⟨⟨_, rfl⟩, ?_⟩
      obtain ⟨⟨-, hholds⟩, hstore⟩ := hr
      -- the status code and the value are two writes: the first one may be answered by a reset
      obtain ⟨out, hwritten⟩ := Socket.write_write_closing resets
        (if r.1 then statusCodeValueSUCCESS else statusCodeValueERROR)
        (if r.1 then r.2.1.value else errorMessage).bytes
      dsimp only
      rw [show arrived [] = ([] : List (List UInt8)) from rfl, hwritten]
      refine ⟨?_, rfl, rfl, ?_, fun _ => ?_⟩
      · rw [dictAfterTruncated, if_pos hget]
        exact hholds
      · rw [dictAfterTruncated, if_pos hget]
        simp [hput]
      · rw [hcall]
        exact hstore
    · rw [if_neg hget, if_neg hput]
      have hcall : w.truncatedCall statusCode body =
          .delete (w.truncatedMessage statusCode body) := by
        rw [truncatedCall, if_neg hget, if_neg hput]
      have hafter : w.dictAfterTruncated d statusCode body =
          Function.update d (w.completedKey body) none := by
        rw [dictAfterTruncated, if_neg hget, if_neg hput]
      obtain ⟨state, hdel, hholds⟩ :=
        KVState.cacheDELETE_spec h (w.truncatedMessage statusCode body)
      obtain ⟨L, hrep, hn⟩ := h
      have habsent (hnone : d (w.completedKey body) = none) : StoreRep state.store m :=
        KVState.cacheDELETE_absent hrep hm (w.truncatedMessage statusCode body) hnone _ hdel
      refine Excused.bind (P := fun r => r = ((d (w.completedKey body)).isSome, state))
        (Or.inr ⟨_, hdel, rfl⟩) fun r hr => Excused.ok ⟨⟨_, rfl⟩, ?_⟩
      subst hr
      dsimp only
      rw [show arrived [] = ([] : List (List UInt8)) from rfl]
      have hholds' : KVState.Holds n state (w.dictAfterTruncated d statusCode body) := by
        rw [hafter]
        exact hholds
      -- only the deletion of an absent key is answered with two writes
      cases hv : d (w.completedKey body) with
      | none =>
        obtain ⟨out, hwritten⟩ :=
          Socket.write_write_closing resets statusCodeValueERROR errorMessage.bytes
        rw [Option.isSome_none, if_neg Bool.false_ne_true, if_neg Bool.false_ne_true, hwritten]
        refine ⟨hholds', rfl, rfl, ?_, fun _ => ?_⟩
        · rw [hafter, Function.update_eq_self_iff.2 hv.symm]
          simp [hput]
        · rw [hcall]
          exact habsent hv
      | some v =>
        rw [Option.isSome_some, if_pos rfl, if_pos rfl, Socket.write_closing]
        refine ⟨hholds', rfl, rfl, iff_of_false Bool.false_ne_true fun hbroken => ?_,
          fun hbroken => absurd hbroken Bool.false_ne_true⟩
        have hnone := hbroken.2.2
        rw [hafter, Function.update_eq_self_iff, hv] at hnone
        cases hnone

theorem Worker.serveClosing_spec (h : KVState.Holds n w.state d) (hpos : 0 < n)
    (hm : StoreRep w.state.store m) (hvalid : isRequestCodeValid statusCode = true)
    (hshort : body.length < bodyLength statusCode) :
    SucceedsUnlessFull (w.serveClosing resets (statusCode :: body)) fun r =>
      ServedTruncated n w d m resets statusCode body r.2.1 r.2.2 := by
  have hlen : (arrived (statusCode :: body)).flatten.length = body.length + 1 := by
    simp [arrived]
  rw [serveClosing, serveConnection, serveSocket, if_neg (by simp)]
  refine (serveReady_closing h hpos hm hvalid hshort).bind fun r hr => ?_
  obtain ⟨event, w₁, s₁⟩ := r
  obtain ⟨⟨req, rfl⟩, hserved⟩ := hr
  dsimp only at hserved ⊢
  by_cases hbroken : s₁.brokenPipe = true
  · rw [if_pos (Or.inr (Or.inr hbroken))]
    exact Excused.ok hserved
  · obtain ⟨event, hended⟩ := serveSocket_ended body.length w₁ hserved.incoming hserved.closed
    rw [if_neg (by simp [hbroken]), hlen, hended]
    exact Excused.ok hserved

theorem Worker.serveRequests_spec (hpos : 0 < n) (reqs : List Request)
    (h : KVState.Holds n w.state d) :
    SucceedsUnlessFull (w.serveRequests reqs) fun w' =>
      KVState.Holds n w'.state (dictAfter d reqs) := by
  induction reqs generalizing w d with
  | nil => exact Excused.ok h
  | cons req reqs ih =>
    have hone : [req].flatMap Request.fields = req.fields := List.append_nil _
    have hsegs : ∀ seg ∈ [req.fields.flatten], seg ≠ [] := by simp [Request.flatten_fields]
    have hsent : [req.fields.flatten].flatten = ([req].flatMap Request.fields).flatten := by
      rw [hone, List.flatten_singleton]
    have hwhole : Whole ([req].flatMap Request.fields) [req.fields.flatten] :=
      ⟨[req.fields], by rw [hone, List.flatten_singleton], rfl⟩
    have hreads := (whole_iff (by rw [hone]; exact req.fields_ne_nil) hsegs hsent).1 hwhole
    have hfuel : [req].length ≤ [req.fields.flatten].flatten.length + 1 := by simp
    have hserved := serveSocket_of_whole (s := .connected [req.fields.flatten]) hpos [req] h hfuel
      ⟨rfl, rfl⟩ hsegs hsent hreads
    exact hserved.bind fun r hr => ih hr.2.1

/-! ## When the map stays what it was -/

/-- The request that the worker makes of the truncated one changes nothing: it is a `GET`, or a
`PUT` of the value that the key has, or a `DELETE` of a key that is not there. -/
def Worker.Harmless (w : Worker) (statusCode : UInt8) (body : List UInt8) : Prop :=
  if isRequestCodeGET statusCode then True
  else if isRequestCodePUT statusCode then
    w.state.lookup (w.completedKey body) = .ok (some (w.completedValue body))
  else w.state.lookup (w.completedKey body) = .ok none

/-- The files hold the map, up to the entry that the request evicts. -/
def Worker.Saved (cacheSize : Nat) (w : Worker) (statusCode : UInt8) (body : List UInt8) : Prop :=
  ∀ key, (∀ p ∈ w.state.victims (w.truncatedCall statusCode body),
    (w.state.cache.message p).key ≠ key) →
      lookupFiles cacheSize w.state.store.files key = w.state.lookup key

theorem Worker.harmless_iff (h : KVState.Holds n w.state d) (statusCode : UInt8)
    (body : List UInt8) :
    w.Harmless statusCode body ↔ w.dictAfterTruncated d statusCode body = d := by
  unfold Harmless dictAfterTruncated
  rw [h.lookup]
  split_ifs
  · exact iff_of_true trivial rfl
  · rw [Function.update_eq_iff]
    exact ⟨fun hd => ⟨(Except.ok.inj hd).symm, fun _ _ => rfl⟩, fun hd => congrArg _ hd.1.symm⟩
  · rw [Function.update_eq_iff]
    exact ⟨fun hd => ⟨(Except.ok.inj hd).symm, fun _ _ => rfl⟩, fun hd => congrArg _ hd.1.symm⟩

/-- The map that the next server finds is the old one just if the files held it. -/
theorem Worker.saved_iff (hsize : 1 ≤ cacheSize) (h : KVState.Holds n w.state d)
    (hm : StoreRep w.state.store m) : w.Saved cacheSize statusCode body ↔
      ∀ key, flushed w.state.cache (w.state.victims (w.truncatedCall statusCode body)) m
        (tripleOf key) = d key := by
  have hlookup := h.lookup
  obtain ⟨L, hrep, hn⟩ := h
  have hlinked := KVState.victims_linked hrep.wf (w.truncatedCall statusCode body)
  refine forall_congr' fun key => ?_
  rw [KVState.flushed_eq hrep hlinked, lookupFiles_eq hsize hm, hlookup]
  split_ifs with hkey
  · exact ⟨fun heq => Except.ok.inj (heq hkey), fun heq _ => congrArg _ heq⟩
  · exact iff_of_true (fun hcon => absurd hcon hkey) rfl

/-- **A request that ends early leaves the map alone just if what the worker makes of it does**,
after any history of complete requests, and the files hold the map in case the server ends. -/
theorem truncated_iff (hsize : 1 ≤ cacheSize) (hfiles : WellFormedFiles files) :
    ∃ state, KVState.start cacheSize files = .ok state ∧
      ∀ (message : KVMessage) (history : List Request),
        SucceedsUnlessFull (Worker.serveRequests ⟨message, state, []⟩ history) fun w =>
          ∀ (resets : Bool) (statusCode : UInt8) (body : List UInt8),
            isRequestCodeValid statusCode = true → body.length < bodyLength statusCode →
            SucceedsUnlessFull (w.serveClosing resets (statusCode :: body)) fun r =>
              (∀ key, lookupAfter cacheSize r key = w.state.lookup key) ↔
                w.Harmless statusCode body ∧
                  (resets = true → isRequestCodePUT statusCode = false →
                    w.Saved cacheSize statusCode body) := by
  obtain ⟨state, d, hstate, hholds⟩ := KVState.start_holds hsize hfiles
  refine ⟨state, hstate, ?_⟩
  intro message history
  refine (Worker.serveRequests_spec hsize history hholds).mono fun w hw => ?_
  intro resets statusCode body hvalid hshort
  obtain ⟨m, hm⟩ : ∃ m, StoreRep w.state.store m := by
    obtain ⟨L, hrep, -⟩ := hw
    exact hrep.stored.imp fun m hm => hm.1
  refine (Worker.serveClosing_spec hw hsize hm hvalid hshort).mono fun r hr => ?_
  rw [Worker.harmless_iff hw]
  by_cases hbroken : r.2.2.brokenPipe = true
  · -- the next server starts on what this one leaves
    obtain ⟨hresets, hput, hsame⟩ := hr.broken.1 hbroken
    simp only [lookupAfter, hbroken, if_true, lookupFiles_eq hsize (hr.files hbroken), hw.lookup,
      hsame, hresets, hput, true_and, forall_const, Except.ok.injEq]
    exact (Worker.saved_iff hsize hw hm).symm
  · have hone : Worker.dictAfterTruncated w (dictAfter d history) statusCode body =
        dictAfter d history → resets = true → isRequestCodePUT statusCode = false →
          w.Saved cacheSize statusCode body := fun hsame hresets hput =>
      absurd (hr.broken.2 ⟨hresets, hput, hsame⟩) hbroken
    rw [and_iff_left_of_imp hone]
    simp only [lookupAfter, hbroken, Bool.false_eq_true, if_false, hr.holds.lookup, hw.lookup,
      Except.ok.injEq]
    exact funext_iff.symm

/-- Two keys and one node: the rest of the `GET` makes it one of the key that is in the store. -/
theorem truncated_iff_put : ∃ state, KVState.start 1 (fun _ => none) = .ok state ∧
    SucceedsUnlessFull (Worker.serveRequests ⟨.empty, state, []⟩
      [.put (.ofText [97]) (.ofText [1]), .put (.ofText [98]) (.ofText [2])]) fun w =>
        SucceedsUnlessFull (w.serveClosing true [statusCodeValueGET, 97]) fun r =>
          (∀ key, lookupAfter 1 r key = w.state.lookup key) ↔
            w.Harmless statusCodeValueGET [97] ∧
              (true = true → isRequestCodePUT statusCodeValueGET = false →
                w.Saved 1 statusCodeValueGET [97]) := by
  obtain ⟨state, hstate, h⟩ := truncated_iff (le_refl 1) wellFormedFiles_none
  exact ⟨state, hstate, (h .empty [.put (.ofText [97]) (.ofText [1]),
    .put (.ofText [98]) (.ofText [2])]).mono fun w hw =>
      hw true statusCodeValueGET [97] (by decide) (by decide)⟩

/-- A key that was put before is gone after a connection, if that is how it evaluates. -/
theorem loses_of_returns {bytes : List UInt8} (h : returns (KVState.start 1 fun _ => none)
    (fun state => returns
      (Worker.serveRequests ⟨.empty, state, []⟩ [.put (.ofText [97]) (.ofText [1])]) fun w =>
        returns (w.state.lookup (.ofText [97])) (fun v => decide (v = some (.ofText [1]))) &&
        returns (w.serveClosing true bytes) fun r =>
          returns (lookupAfter 1 r (.ofText [97])) fun v => decide (v = none)) = true) :
    ∃ state w r, KVState.start 1 (fun _ => none) = .ok state ∧
      Worker.serveRequests ⟨.empty, state, []⟩ [.put (.ofText [97]) (.ofText [1])] = .ok w ∧
      w.serveClosing true bytes = .ok r ∧
      w.state.lookup (.ofText [97]) = .ok (some (.ofText [1])) ∧
      lookupAfter 1 r (.ofText [97]) = .ok none := by
  obtain ⟨state, hstate, hcheck⟩ := exists_of_returns h
  obtain ⟨w, hw, hcheck⟩ := exists_of_returns hcheck
  rw [Bool.and_eq_true] at hcheck
  obtain ⟨v, hv, hbefore⟩ := exists_of_returns hcheck.1
  obtain ⟨r, hr, hcheck⟩ := exists_of_returns hcheck.2
  obtain ⟨v', hv', hafter⟩ := exists_of_returns hcheck
  rw [of_decide_eq_true hbefore] at hv
  rw [of_decide_eq_true hafter] at hv'
  exact ⟨state, w, r, hstate, hw, hr, hv, hv'⟩

/-- The code of a `DELETE` alone takes the key out. -/
theorem truncated_deletes : ∃ state w r, KVState.start 1 (fun _ => none) = .ok state ∧
    Worker.serveRequests ⟨.empty, state, []⟩ [.put (.ofText [97]) (.ofText [1])] = .ok w ∧
    w.serveClosing true [statusCodeValueDEL] = .ok r ∧
    w.state.lookup (.ofText [97]) = .ok (some (.ofText [1])) ∧
    lookupAfter 1 r (.ofText [97]) = .ok none :=
  loses_of_returns (by decide +kernel)

/-- A `GET` of another key changes nothing itself, but the reset for its answer comes in time: the
server ends, and with it the key that is only in the cache. -/
theorem truncated_get_loses : ∃ state w r, KVState.start 1 (fun _ => none) = .ok state ∧
    Worker.serveRequests ⟨.empty, state, []⟩ [.put (.ofText [97]) (.ofText [1])] = .ok w ∧
    w.serveClosing true [statusCodeValueGET, 98] = .ok r ∧
    w.state.lookup (.ofText [97]) = .ok (some (.ofText [1])) ∧
    lookupAfter 1 r (.ofText [97]) = .ok none :=
  loses_of_returns (by decide +kernel)

end KeyValueStore
