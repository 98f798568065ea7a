import KeyValueStore.CacheJournal
import KeyValueStore.CacheRecency

/-!
# What evictions write

A node is dirty from the moment that it is entered, whether for a PUT or for a GET that has loaded
it, until a DELETE marks it. So an eviction writes every entry that is not marked: also one that was
only read, whose value the store has given itself.

The journal of one call is that of its evictions, and then what it does to the node of its key
(`cacheGETPtr_entries`, `step_logs`). The last entry of a journal that touches a key tells the dirty
bit of its node (`CacheEvent.Leaves`).
-/

namespace KeyValueStore

open Run Journal

/-! ## Reading the journal -/

namespace CacheEvent

/-- The entry is about the node of the key. -/
def touches (key : Chars256) : CacheEvent → Bool
  | .entered k => k == key
  | .put k => k == key
  | .marked k => k == key
  | _ => false

/-- The entry gives the node of the key its value. -/
def sets (key : Chars256) : CacheEvent → Bool
  | .entered k => k == key
  | .put k => k == key
  | _ => false

/-- The entry leaves the node of the key with this dirty bit. -/
def Leaves (key : Chars256) (b : DirtyBit) : CacheEvent → Prop
  | .entered k => k = key ∧ b = .dirty
  | .put k => k = key ∧ b = .dirty
  | .marked k => k = key ∧ b = .toDelete
  | _ => False

end CacheEvent

/-- The last entry about the node of the key. -/
def lastTouch (h : List CacheEvent) (key : Chars256) : Option CacheEvent :=
  (h.filter (CacheEvent.touches key)).getLast?

/-- The key was entered, and neither PUT nor DELETE has touched it since. -/
def OnlyRead (h : List CacheEvent) (key : Chars256) : Prop := lastTouch h key = some (.entered key)

/-- A PUT has set the value of the key since its node was entered. -/
def SetByPut (h : List CacheEvent) (key : Chars256) : Prop :=
  (h.filter (CacheEvent.sets key)).getLast? = some (.put key)

/-- Every `write_to_db` is for a key that a PUT has set since its node was entered. -/
def WritesOnlyPut (h : List CacheEvent) : Prop :=
  ∀ before m after, h = before ++ .writeToDb m :: after → SetByPut before m.key

variable {h l ws : List CacheEvent} {key : Chars256} {e : CacheEvent} {b : DirtyBit}

theorem CacheEvent.Leaves.touches (he : e.Leaves key b) : e.touches key = true := by
  cases e <;> first | exact beq_iff_eq.2 he.1 | exact he.elim

theorem CacheEvent.Leaves.eq_of_touches {k : Chars256} (he : e.Leaves key b)
    (hk : e.touches k = true) : k = key := by
  cases e <;> first | exact (beq_iff_eq.1 hk).symm.trans he.1 | exact he.elim

theorem touches_of_sets (he : e.sets key = true) : e.touches key = true := by
  cases e <;> first | exact he | cases he

theorem touches_of_isStoreCall (he : e.IsStoreCall) : e.touches key = false := by
  cases e <;> first | rfl | exact he.elim

theorem sets_eq_false (he : e.touches key = false) : e.sets key = false :=
  Bool.eq_false_iff.2 fun hsets => Bool.eq_false_iff.1 he (touches_of_sets hsets)

theorem lastTouch_append (hl : ∀ e ∈ l, e.touches key = false) :
    lastTouch (h ++ l) key = lastTouch h key := by
  have hnil : l.filter (CacheEvent.touches key) = [] :=
    List.filter_eq_nil_iff.2 fun e he => Bool.eq_false_iff.1 (hl e he)
  rw [lastTouch, List.filter_append, hnil, List.append_nil, lastTouch]

theorem lastTouch_concat (he : e.touches key = true) (h : List CacheEvent) :
    lastTouch (h ++ [e]) key = some e := by
  rw [lastTouch, List.filter_append, List.filter_cons_of_pos he, List.filter_nil,
    List.getLast?_concat]

theorem setByPut_append (hl : ∀ e ∈ l, e.touches key = false) :
    SetByPut (h ++ l) key ↔ SetByPut h key := by
  have hnil : l.filter (CacheEvent.sets key) = [] :=
    List.filter_eq_nil_iff.2 fun e he => Bool.eq_false_iff.1 (sets_eq_false (hl e he))
  rw [SetByPut, List.filter_append, hnil, List.append_nil, SetByPut]

/-- If the last entry about a key gives it its value, it is the last that does. -/
theorem lastSet_eq (hlast : lastTouch h key = some e) (he : e.sets key = true) :
    (h.filter (CacheEvent.sets key)).getLast? = some e := by
  obtain ⟨earlier, hfilter⟩ := List.getLast?_eq_some_iff.1 hlast
  have hsets : h.filter (CacheEvent.sets key) =
      (h.filter (CacheEvent.touches key)).filter (CacheEvent.sets key) := by
    rw [List.filter_filter]
    refine List.filter_congr fun x _ => ?_
    cases hx : x.sets key with
    | true => rw [touches_of_sets hx]; rfl
    | false => rfl
  rw [hsets, hfilter, List.filter_append, List.filter_cons_of_pos he, List.filter_nil,
    List.getLast?_concat]

/-- **An entry that is not marked** was set by a PUT, unless it was only read. -/
theorem setByPut_iff (hlast : lastTouch h key = some e) (he : e.Leaves key .dirty) :
    SetByPut h key ↔ ¬ OnlyRead h key := by
  cases e with
  | entered k =>
    obtain rfl := he.1
    rw [SetByPut, lastSet_eq hlast (beq_self_eq_true k), OnlyRead, hlast]
    simp
  | put k =>
    obtain rfl := he.1
    rw [SetByPut, lastSet_eq hlast (beq_self_eq_true k), OnlyRead, hlast]
    simp
  | marked k => cases he.2
  | writeToDb m => exact he.elim
  | deleteFromDb m => exact he.elim

theorem not_onlyRead_of_toDelete (hlast : lastTouch h key = some e) (he : e.Leaves key .toDelete) :
    ¬ OnlyRead h key := by
  rw [OnlyRead, hlast]
  rintro heq
  obtain rfl := Option.some.inj heq
  cases he.2

theorem writesOnlyPut_append : WritesOnlyPut (h ++ l) ↔ WritesOnlyPut h ∧
    ∀ before m after, l = before ++ .writeToDb m :: after → SetByPut (h ++ before) m.key := by
  constructor
  · intro hall
    refine ⟨fun before m after heq => hall before m (after ++ l) (by rw [heq]; simp), ?_⟩
    rintro before m after rfl
    exact hall (h ++ before) m after (List.append_assoc ..).symm
  · rintro ⟨hh, hl⟩ before m after heq
    rcases List.append_eq_append_iff.1 heq with ⟨as, rfl, hl'⟩ | ⟨cs, hh', hcs⟩
    · exact hl as m after hl'
    · cases cs with
      | nil =>
        rw [List.append_nil] at hh'
        rw [← List.append_nil before, ← hh']
        exact hl [] m after hcs.symm
      | cons c cs =>
        obtain ⟨rfl, -⟩ := List.cons.inj hcs
        exact hh before m cs hh'

/-- Store calls first, and then nothing that writes. -/
theorem writesOnlyPut_append_iff {rest : List CacheEvent} (hws : ∀ e ∈ ws, e.IsStoreCall)
    (hrest : ∀ m, .writeToDb m ∉ rest) : WritesOnlyPut (h ++ (ws ++ rest)) ↔
      WritesOnlyPut h ∧ ∀ m, .writeToDb m ∈ ws → SetByPut h m.key := by
  rw [writesOnlyPut_append]
  refine and_congr_right fun _ => ⟨fun hall m hm => ?_, fun hall before m after heq => ?_⟩
  · obtain ⟨before, after, rfl⟩ := List.append_of_mem hm
    have hset := hall before m (after ++ rest) (by simp)
    rwa [setByPut_append fun e he => touches_of_isStoreCall (hws e (by simp [he]))] at hset
  · rcases List.append_eq_append_iff.1 heq with ⟨as, rfl, hr⟩ | ⟨cs, rfl, hcs⟩
    · exact absurd (hr ▸ List.mem_append_right _ List.mem_cons_self) (hrest m)
    · cases cs with
      | nil =>
        rw [List.nil_append] at hcs
        exact absurd (hcs ▸ List.mem_cons_self) (hrest m)
      | cons c cs =>
        obtain ⟨rfl, -⟩ := List.cons.inj hcs
        rw [setByPut_append fun e he => touches_of_isStoreCall (hws e (by simp [he]))]
        exact hall m (by simp)

/-! ## The victims -/

/-- The store call that the eviction of a linked node makes. -/
def KVCache.flush (c : KVCache) (p : NodePtr) : CacheEvent :=
  if c.dirtyBit p = .toDelete then .deleteFromDb (c.message p) else .writeToDb (c.message p)

/-- The node that `cache_eviction` takes. -/
def KVCache.victim (c : KVCache) : Option NodePtr :=
  c.evictionQueue.bind fun e => (c.lruEvictionTable e).tail

/-- The nodes that `cache_eviction_simple` takes, with `k` iterations left. -/
def KVCache.simpleVictims : Nat → KVCache → List NodePtr
  | 0, _ => []
  | k + 1, c =>
    let (eqIdx, c) := c.getNextEvictionQueueIdx
    match (c.lruEvictionTable eqIdx).tail with
    | none => simpleVictims k c
    | some p =>
      let c := (c.removeFromDllHT (hashTableIdx (c.message p)) p).removeFromDllLRU eqIdx p
      match c.releaseInstance p with
      | .ok c => p :: simpleVictims k c
      | .error _ => [p]

/-- The nodes that a call takes out of the cache. -/
def KVState.victims (s : KVState) (a : CacheCall) : List NodePtr :=
  match a with
  | .evictionSimple => s.cache.simpleVictims 10
  | _ => if (s.newEntryState a).isSome ∧ s.cache.isFull then s.cache.victim.toList else []

namespace KVState

variable {s : KVState} {c c' : KVCache} {L : Layout} {held : List NodePtr} {p : NodePtr}
  {ptr : KVMessage} {n : Nat}

theorem isStoreCall_flush (c : KVCache) (p : NodePtr) : (c.flush p).IsStoreCall := by
  rw [KVCache.flush]
  split_ifs <;> trivial

theorem touches_flush {vs : List NodePtr} (he : e ∈ vs.map c.flush) :
    ¬ e.touches key = true := by
  obtain ⟨p, -, rfl⟩ := List.mem_map.1 he
  rw [touches_of_isStoreCall (isStoreCall_flush c p)]
  exact Bool.false_ne_true

theorem flush_congr (hm : c'.message = c.message) (hd : c'.dirtyBit = c.dirtyBit) :
    c'.flush = c.flush := by
  funext p
  rw [KVCache.flush, KVCache.flush, hm, hd]

theorem evictLocked_entries (h : Wf s.cache L held) {e : Nat}
    (htail : (s.cache.lruEvictionTable e).tail = some p) (i : Nat) :
    (Journaled.evictLocked s e i).entries = [s.cache.flush p] := by
  obtain ⟨hp, -⟩ := h.tail_linked htail
  rw [Journaled.evictLocked, htail, KVCache.flush]
  show Journal.entries (if s.cache.dirtyBit p = .notInCache then _ else _) = _
  rw [if_neg (h.notInCache_ne hp)]
  have hbit : ((s.cache.removeFromDllHT i p).removeFromDllLRU e p).dirtyBit p =
      s.cache.dirtyBit p := rfl
  dsimp only
  rcases h.present p hp with hd | hd
  · rw [hbit, hd, if_neg (by decide)]
    show Journal.entries (note _ >>= _) = _
    rw [note_bind]
    exact congrArg (_ :: ·) (entries_bind_of_nil fun _ => rfl)
  · rw [hbit, hd, if_pos rfl]
    show Journal.entries (note _ >>= _) = _
    rw [note_bind]
    exact congrArg (_ :: ·) (entries_bind_of_nil fun _ => rfl)

theorem cacheEviction_entries (h : Wf s.cache L held) :
    (Journaled.cacheEviction s).entries = s.cache.victim.toList.map s.cache.flush := by
  rw [Journaled.cacheEviction, Journaled.cacheEvictionFrom, KVCache.victim, KVCache.evictionQueue]
  dsimp only
  obtain ⟨i, ⟨e, hscan, hh⟩ | ⟨hscan, -⟩⟩ := scan_eq h
  · obtain ⟨p, hvictim⟩ := h.tail_of_head hh
    generalize hc : ({ s.cache with lruEvictionIdx := i } : KVCache) = c at hscan
    have hwf : Wf c L held := hc ▸ h.setCounters i s.cache.lruTableInsertIdx
    have htail : (c.lruEvictionTable e).tail = some p := hc ▸ hvictim
    have hflush : c.flush = s.cache.flush := hc ▸ rfl
    have hbucket : c.victimBucket e = .ok (hashTableIdx (c.message p)) := by
      rw [KVCache.victimBucket, htail]
    have hev := evictLocked_ensures (s := ⟨c, s.store⟩) hwf htail
    have hentries := evictLocked_entries (s := ⟨c, s.store⟩) hwf htail (hashTableIdx (c.message p))
    rw [hscan]
    dsimp only
    rw [hbucket, lift_ok_bind, Option.bind_some, hvictim, ← hflush]
    cases hr : (Journaled.evictLocked ⟨c, s.store⟩ e (hashTableIdx (c.message p))).result with
    | error err => rw [bind_of_error hr, hentries]; rfl
    | ok r =>
      obtain ⟨res, s'⟩ := r
      obtain rfl : res = some p := (hev _ (by rw [← Journaled.result_evictLocked, hr])).1
      rw [bind_of_ok hr, hentries]
      rfl
  · rw [hscan]
    rfl

theorem cacheEviction_victim (h : Wf s.cache L held) :
    Ensures s.cacheEviction fun r => r.1 = s.cache.victim ∧
      (r.1 = none → L.linked = []) ∧
      ∀ p, r.1 = some p → ∃ e, Evicted s.cache L held e p r.2.cache := by
  intro r hr
  rcases cacheEviction_ensures h r hr with ⟨hnone, hnil⟩ | ⟨p, e, hp, hqueue, hev⟩
  · refine ⟨?_, fun _ => hnil, fun p hp => by rw [hnone] at hp; cases hp⟩
    rw [hnone, KVCache.victim]
    cases hq : s.cache.evictionQueue with
    | none => rfl
    | some e =>
      cases htail : (s.cache.lruEvictionTable e).tail with
      | none => exact htail.symm
      | some p =>
        have hp := (h.tail_linked htail).1
        rw [hnil] at hp
        cases hp
  · refine ⟨?_, fun hnone => (by rw [hnone] at hp; cases hp), fun p' hp' => ?_⟩
    · rw [hp, KVCache.victim, hqueue]
      exact (hev.last ▸ h.tail_eq e).symm
    · obtain rfl := Option.some.inj (hp.symm.trans hp')
      exact ⟨e, hev⟩

theorem exists_victim (h : Wf s.cache L held) (hne : L.linked ≠ []) :
    ∃ p, s.cache.victim = some p := by
  obtain ⟨i, ⟨e, hscan, hh⟩ | ⟨-, hnil⟩⟩ := scan_eq h
  · obtain ⟨p, htail⟩ := h.tail_of_head hh
    refine ⟨p, ?_⟩
    rw [KVCache.victim, KVCache.evictionQueue, hscan, Option.bind_some, htail]
  · exact absurd hnil hne

theorem victim_linked (h : Wf s.cache L held) (hp : s.cache.victim = some p) : p ∈ L.linked := by
  rw [KVCache.victim, Option.bind_eq_some_iff] at hp
  obtain ⟨e, -, htail⟩ := hp
  exact (h.tail_linked htail).1

theorem newInstance_entries (h : Wf s.cache L held) : (Journaled.newInstance s).entries =
    (if s.cache.isFull then s.cache.victim.toList else []).map s.cache.flush := by
  rw [Journaled.newInstance]
  split_ifs
  · exact cacheEviction_entries h
  · exact entries_bind_of_nil fun _ => rfl

theorem newInstance_same (h : Wf s.cache L held) : Ensures s.newInstance fun r =>
    ∀ p, r.1 = some p → r.2.cache.message = s.cache.message ∧
      r.2.cache.dirtyBit = s.cache.dirtyBit := by
  rw [newInstance]
  split_ifs
  · refine (cacheEviction_victim h).mono fun r hr p hp => ?_
    obtain ⟨e, hev⟩ := hr.2.2 p hp
    exact ⟨hev.same.message, hev.same.dirtyBit⟩
  · obtain ⟨p, pool, free', hacq, -⟩ := h.acquireInstance
    rw [hacq]
    exact Ensures.ok fun _ _ => ⟨rfl, rfl⟩

/-! ## What the calls write down -/

/-- What a call leaves that has written these entries down: the invariant, and nodes that it has not
touched, or whose dirty bit the last entry tells. -/
def Recorded (n : Nat) (c : KVCache) (L : Layout) (entries : List CacheEvent) (c' : KVCache) :
    Prop :=
  ∃ L', Wf c' L' [] ∧ DistinctKeys c' L' ∧ c'.cacheNodeMemoryPool.allocated = n ∧
    ∀ p ∈ L'.linked,
      (p ∈ L.linked ∧ (c'.message p).key = (c.message p).key ∧ c'.dirtyBit p = c.dirtyBit p ∧
        ∀ e ∈ entries, e.touches (c.message p).key = false) ∨
      ∃ before e, entries = before ++ [e] ∧ e.Leaves (c'.message p).key (c'.dirtyBit p)

/-- An operation calls the store for the nodes `vs`, in this order, and writes for no other. -/
def Logs (n : Nat) (s : KVState) (L : Layout) (vs : List NodePtr) {α : Type} (x : Journaled α)
    (state : α → KVState) : Prop :=
  ∃ ws rest, x.entries = ws ++ rest ∧ ws <+: vs.map s.cache.flush ∧ (∀ m, .writeToDb m ∉ rest) ∧
    ∀ r, x.result = .ok r →
      ws = vs.map s.cache.flush ∧ Recorded n s.cache L x.entries (state r).cache

theorem Logs.map {α β : Type} {vs : List NodePtr} {x : Journaled α} {state : α → KVState}
    (h : Logs n s L vs x state) (g : α → β) (state' : β → KVState)
    (hg : ∀ r, state' (g r) = state r) : Logs n s L vs (x >>= fun r => pure (g r)) state' := by
  obtain ⟨ws, rest, hentries, hws, hrest, hok⟩ := h
  have hsame : (x >>= fun r => pure (g r)).entries = x.entries := entries_bind_of_nil fun _ => rfl
  refine ⟨ws, rest, hsame.trans hentries, hws, hrest, ?_⟩
  intro r hr
  rw [result_bind] at hr
  cases hx : x.result with
  | error e => rw [hx] at hr; cases hr
  | ok a =>
    rw [hx] at hr
    obtain rfl := Except.ok.inj hr
    rw [hg, hsame]
    exact hok a hx

/-- An operation that takes out no node and writes at most one entry down. -/
theorem Logs.of_rest {α : Type} {x : Journaled α} {state : α → KVState}
    (hrest : ∀ m, .writeToDb m ∉ x.entries)
    (hok : ∀ r, x.result = .ok r → Recorded n s.cache L x.entries (state r).cache) :
    Logs n s L [] x state :=
  ⟨[], x.entries, rfl, List.nil_prefix, hrest, fun r hr => ⟨rfl, hok r hr⟩⟩

/-- What a new entry leaves of the nodes. -/
def Entering (n : Nat) (c : KVCache) (L : Layout) (key : Chars256) (c' : KVCache) : Prop :=
  ∃ L', Wf c' L' [] ∧ DistinctKeys c' L' ∧ c'.cacheNodeMemoryPool.allocated = n ∧
    ∀ p ∈ L'.linked,
      (p ∈ L.linked ∧ (c'.message p).key = (c.message p).key ∧ c'.dirtyBit p = c.dirtyBit p) ∨
      ((c'.message p).key = key ∧ c'.dirtyBit p = .dirty)

/-- After the store calls only entries about the new node. -/
theorem Entering.recorded (h : Entering n c L key c')
    (hkey : ∀ q ∈ L.linked, (c.message q).key ≠ key) (vs : List NodePtr)
    (hl : ∀ x ∈ l ++ [e], x.Leaves key .dirty) :
    Recorded n c L (vs.map c.flush ++ (l ++ [e])) c' := by
  obtain ⟨L', hwf, hd, hn, hnodes⟩ := h
  refine ⟨L', hwf, hd, hn, ?_⟩
  intro q hq
  rcases hnodes q hq with ⟨hlinked, hk, hb⟩ | ⟨hk, hb⟩
  · refine Or.inl ⟨hlinked, hk, hb, fun x hx => Bool.eq_false_iff.2 fun htouch => ?_⟩
    rcases List.mem_append.1 hx with hx | hx
    · exact touches_flush hx htouch
    · exact hkey q hlinked ((hl x hx).eq_of_touches htouch)
  · refine Or.inr ⟨vs.map c.flush ++ l, e, (List.append_assoc ..).symm, ?_⟩
    rw [hk, hb]
    exact hl e List.mem_concat_self

/-- **A new entry**: the store calls of the eviction, and the node. -/
theorem cachePUTNewEntry_entries (h : Wf s.cache L []) (hd : DistinctKeys s.cache L)
    (hn : s.cache.cacheNodeMemoryPool.allocated = n) (hptr : ptr.triple = tripleOf ptr.key)
    (hkey : ∀ q ∈ L.linked, (s.cache.message q).key ≠ ptr.key) :
    ∃ rest, (Journaled.cachePUTNewEntry s ptr (hashTableIdx ptr)).entries =
        (if s.cache.isFull then s.cache.victim.toList else []).map s.cache.flush ++ rest ∧
      (rest = [] ∨ rest = [.entered ptr.key]) ∧
      ∀ r, (Journaled.cachePUTNewEntry s ptr (hashTableIdx ptr)).result = .ok r →
        rest = [.entered ptr.key] ∧ Entering n s.cache L ptr.key r.2.cache := by
  have hnew := newInstance_ensures h
  have hsame := newInstance_same h
  rw [← Journaled.result_newInstance] at hnew hsame
  rw [Journaled.cachePUTNewEntry]
  cases hr : (Journaled.newInstance s).result with
  | error err =>
    rw [bind_of_error hr, newInstance_entries h]
    exact ⟨[], (List.append_nil _).symm, Or.inl rfl, fun r hr => by cases hr⟩
  | ok r =>
    obtain ⟨res, s₁⟩ := r
    rw [bind_of_ok hr, newInstance_entries h]
    cases res with
    | none => exact ⟨[], rfl, Or.inl rfl, fun r hr => by cases hr⟩
    | some p =>
      refine ⟨_, rfl, Or.inr rfl, fun r heq => ⟨rfl, ?_⟩⟩
      obtain rfl := Except.ok.inj heq
      obtain ⟨hmsg, hdirty⟩ := hsame _ hr p rfl
      obtain ⟨⟨L', hwf', hd', hn', -, hedit⟩, hself⟩ :=
        fill_link h hd hn (hnew _ hr p rfl) hptr hkey
      refine ⟨L', hwf', hd', hn', ?_⟩
      intro q hq
      -- every other node is as the eviction has left it
      by_cases hqp : q = p
      · rw [hqp]
        exact Or.inr ⟨hself, s₁.cache.fill_dirtyBit_self p ptr⟩
      · refine Or.inl ⟨(Edit.linked_subset hedit hq).resolve_left hqp, ?_, ?_⟩
        · show ((s₁.cache.fill ptr p).2.message q).key = _
          rw [s₁.cache.fill_message_of_ne p ptr hqp, hmsg]
        · show (s₁.cache.fill ptr p).2.dirtyBit q = _
          rw [← hdirty]
          exact Function.update_of_ne hqp _ _

theorem recorded_keep (h : Wf c L []) (hd : DistinctKeys c L)
    (hn : c.cacheNodeMemoryPool.allocated = n)
    (hl : ∀ e ∈ l, ∀ key, e.touches key = false) : Recorded n c L l c :=
  ⟨L, h, hd, hn, fun _ hp => Or.inl ⟨hp, rfl, rfl, fun e he => hl e he _⟩⟩

theorem recorded_nil (h : Wf c L []) (hd : DistinctKeys c L)
    (hn : c.cacheNodeMemoryPool.allocated = n) : Recorded n c L [] c :=
  recorded_keep h hd hn (List.forall_mem_nil _)

section

variable {α : Type} {x : Journaled α} {state : α → KVState} {err : Fault}

theorem Logs.failed (hentries : x.entries = []) (hresult : x.result = .error err) :
    Logs n s L [] x state := by
  refine Logs.of_rest (fun m hm => ?_) fun r hr => ?_
  · rw [hentries] at hm
    cases hm
  · rw [hresult] at hr
    cases hr

theorem Logs.silent (h : Wf s.cache L []) (hd : DistinctKeys s.cache L)
    (hn : s.cache.cacheNodeMemoryPool.allocated = n) (hentries : x.entries = [])
    (hresult : ∀ r, x.result = .ok r → state r = s) : Logs n s L [] x state := by
  refine Logs.of_rest (fun m hm => ?_) fun r hr => ?_
  · rw [hentries] at hm
    cases hm
  · rw [hentries, hresult r hr]
    exact recorded_nil h hd hn

end

theorem recorded_touched (h : Wf c L []) (hd : DistinctKeys c L)
    (hn : c.cacheNodeMemoryPool.allocated = n) (hp : p ∈ L.linked)
    (hmove : c.moveToHeadLRU p = .ok c') : Recorded n c L [] c' := by
  obtain ⟨c₁, hc₁, hwf, hsame⟩ := h.moveToHeadLRU hp
  obtain rfl := Except.ok.inj (hc₁.symm.trans hmove)
  refine ⟨_, hwf, ?_, by rw [hsame.pool, hn], fun q hq => Or.inl ⟨hq, ?_, ?_, nofun⟩⟩
  · exact hd.of_subset (fun _ hq => hq) fun q _ => by rw [hsame.message]
  · rw [hsame.message]
  · rw [hsame.dirtyBit]

/-- `cache_GET` of a key that has a value and no node writes the new entry down. -/
theorem getNewEntry_entries (h : Wf s.cache L []) (hd : DistinctKeys s.cache L)
    (hn : s.cache.cacheNodeMemoryPool.allocated = n) (hptr : ptr.triple = tripleOf ptr.key)
    (hkey : ∀ q ∈ L.linked, (s.cache.message q).key ≠ ptr.key)
    {x : Journaled (Option NodePtr × KVMessage × KVState)}
    (hx : x = do
      let r ← Journaled.cachePUTNewEntry s ptr (hashTableIdx ptr)
      return (some r.1, ptr, r.2)) :
    ∃ rest, x.entries =
        (if s.cache.isFull then s.cache.victim.toList else []).map s.cache.flush ++ rest ∧
      (∀ e ∈ rest, ∃ key, e = .entered key) ∧
      ∀ r, x.result = .ok r → Recorded n s.cache L x.entries r.2.2.cache := by
  obtain ⟨rest, hentries, hrest, hok⟩ := cachePUTNewEntry_entries h hd hn hptr hkey
  have hsame : x.entries = (Journaled.cachePUTNewEntry s ptr (hashTableIdx ptr)).entries := by
    rw [hx]
    exact entries_bind_of_nil fun _ => rfl
  refine ⟨rest, hsame.trans hentries, ?_, ?_⟩
  · intro e he
    rcases hrest with rfl | rfl
    · cases he
    · exact ⟨_, List.mem_singleton.1 he⟩
  · intro r hr
    rw [hx, result_bind] at hr
    cases hput : (Journaled.cachePUTNewEntry s ptr (hashTableIdx ptr)).result with
    | error err => rw [hput] at hr; cases hr
    | ok r' =>
      rw [hput] at hr
      obtain rfl := Except.ok.inj hr
      obtain ⟨rfl, hentering⟩ := hok r' hput
      rw [hsame.trans hentries]
      have hleaves : (CacheEvent.entered ptr.key).Leaves ptr.key .dirty := ⟨rfl, rfl⟩
      exact hentering.recorded hkey _ (l := []) (List.forall_mem_singleton.2 hleaves)

/-- **`cache_GET`** writes down what its new entry does, if it makes one. -/
theorem cacheGETPtr_entries (h : Wf s.cache L []) (hd : DistinctKeys s.cache L)
    (hn : s.cache.cacheNodeMemoryPool.allocated = n) (ptr : KVMessage) :
    ∃ rest, (Journaled.cacheGETPtr s ptr).entries =
        (s.victims (.get ptr)).map s.cache.flush ++ rest ∧
      (∀ e ∈ rest, ∃ key, e = .entered key) ∧
      ∀ r, (Journaled.cacheGETPtr s ptr).result = .ok r →
        Recorded n s.cache L (Journaled.cacheGETPtr s ptr).entries r.2.2.cache := by
  have hvictims : s.victims (.get ptr) =
      if (s.newEntryState (.get ptr)).isSome ∧ s.cache.isFull then s.cache.victim.toList else [] :=
    rfl
  rw [hvictims, newEntryState, Journaled.cacheGETPtr]
  dsimp only
  cases hsearch : s.getSearch ptr.calculateKeyHash with
  | error e =>
    rw [bind_of_error (result_lift _)]
    exact ⟨[], rfl, List.forall_mem_nil _, fun r hr => by cases hr⟩
  | ok r =>
    obtain ⟨res, s₁⟩ := r
    rw [lift_ok_bind]
    rcases getSearch_ensures h ptr.calculateKeyHash _ hsearch with
      ⟨p, hp, -, hmove, res', ptr', hdone⟩ | ⟨hf, hs, hload⟩
    · obtain rfl : res = .done res' ptr' := hdone
      refine ⟨[], rfl, List.forall_mem_nil _, ?_⟩
      intro r hr
      obtain rfl := Except.ok.inj hr
      exact recorded_touched h hd hn hp hmove
    · obtain rfl : s₁ = s := hs
      cases res with
      | done res ptr' =>
        refine ⟨[], rfl, List.forall_mem_nil _, ?_⟩
        intro r hr
        obtain rfl := Except.ok.inj hr
        exact recorded_nil h hd hn
      | load ptr' =>
        have htriple : ptr'.triple = ptr.calculateKeyHash.triple := hload ptr' rfl
        have hkeys : ptr'.key = ptr.key := congrArg Triple.key htriple
        -- the key was not found, so the entry is a new one
        have hkey : ∀ q ∈ L.linked, (s₁.cache.message q).key ≠ ptr'.key := fun q hq heq =>
          h.findEntry_none hf q hq (by rw [h.hashed q hq, heq, hkeys]; rfl)
        simp only [Option.isSome_some, true_and]
        exact getNewEntry_entries h hd hn (by rw [htriple, hkeys]; rfl) hkey rfl

theorem cacheGETPtr_logs (h : Wf s.cache L []) (hd : DistinctKeys s.cache L)
    (hn : s.cache.cacheNodeMemoryPool.allocated = n) (ptr : KVMessage) :
    Logs n s L (s.victims (.get ptr)) (Journaled.cacheGETPtr s ptr) fun r => r.2.2 := by
  obtain ⟨rest, hentries, hrest, hok⟩ := cacheGETPtr_entries h hd hn ptr
  refine ⟨_, rest, hentries, List.prefix_rfl, fun m hm => ?_, fun r hr => ⟨rfl, hok r hr⟩⟩
  obtain ⟨key, hkey⟩ := hrest _ hm
  cases hkey

/-- A linked node has been edited and has moved to the head of its queue. -/
theorem recorded_hit (hd : DistinctKeys c L)
    (hn : c.cacheNodeMemoryPool.allocated = n) (hp : p ∈ L.linked) {c₁ : KVCache}
    (hwf : Wf c₁ L []) (hkey : ∀ q, (c₁.message q).key = (c.message q).key)
    (hdirty : c₁.dirtyBit = Function.update c.dirtyBit p b)
    (hpool : c₁.cacheNodeMemoryPool = c.cacheNodeMemoryPool) (hmove : c₁.moveToHeadLRU p = .ok c')
    (he : e.Leaves (c.message p).key b) : Recorded n c L [e] c' := by
  obtain ⟨c₂, hc₂, hwf', hsame⟩ := hwf.moveToHeadLRU hp
  obtain rfl := Except.ok.inj (hc₂.symm.trans hmove)
  have hkey' : ∀ q, (c₂.message q).key = (c.message q).key := by
    intro q
    rw [hsame.message, hkey]
  refine ⟨_, hwf', hd.of_subset (fun _ hq => hq) fun q _ => hkey' q,
    by rw [hsame.pool, hpool, hn], fun q hq => ?_⟩
  rw [hkey', hsame.dirtyBit, hdirty]
  by_cases hqp : q = p
  · rw [hqp, Function.update_self]
    exact Or.inr ⟨[], e, rfl, he⟩
  · refine Or.inl ⟨hq, rfl, Function.update_of_ne hqp _ _, fun x hx => ?_⟩
    rw [List.mem_singleton.1 hx]
    refine Bool.eq_false_iff.2 fun htouch => hqp ?_
    exact hd q hq p hp (he.eq_of_touches htouch)

theorem upgradePut_logs (h : Wf s.cache L []) (hd : DistinctKeys s.cache L)
    (hn : s.cache.cacheNodeMemoryPool.allocated = n) (hp : p ∈ L.linked)
    (hkey : (s.cache.message p).key = ptr.key) :
    Logs n s L [] (do
      let s ← Journaled.upgradePut s ptr p
      note (.put ptr.key)
      return s) id := by
  have hresult := Journaled.result_upgradePut s ptr p
  have hentries : (Journaled.upgradePut s ptr p).entries = [] := by
    rw [Journaled.upgradePut, if_neg (h.notInCache_ne hp)]
    exact entries_bind_of_nil fun _ => rfl
  rw [upgradePut_eq h hp] at hresult
  cases hr : (Journaled.upgradePut s ptr p).result with
  | error err =>
    rw [bind_of_error hr, hentries]
    exact Logs.failed rfl rfl
  | ok s' =>
    rw [bind_of_ok hr, hentries, note_bind]
    refine Logs.of_rest (fun m hm => by cases List.mem_singleton.1 hm) fun r hr' => ?_
    obtain rfl := Except.ok.inj hr'
    rw [hr] at hresult
    cases hmove : ((s.cache.setDirtyBit p .dirty).setValue p ptr.value).moveToHeadLRU p with
    | error err => rw [hmove] at hresult; cases hresult
    | ok c =>
      rw [hmove] at hresult
      obtain rfl := Except.ok.inj hresult
      refine recorded_hit hd hn hp ((h.setDirtyBit (Or.inl rfl)).setValue _)
        (fun q => setValue_key _ _ _ _) rfl rfl hmove ?_
      exact ⟨hkey.symm, rfl⟩

/-- `cache_PUT` of a key without a node writes the new entry down, and the value set. -/
theorem putNewEntry_logs (h : Wf s.cache L []) (hd : DistinctKeys s.cache L)
    (hn : s.cache.cacheNodeMemoryPool.allocated = n) (hptr : ptr.triple = tripleOf ptr.key)
    (hkey : ∀ q ∈ L.linked, (s.cache.message q).key ≠ ptr.key) :
    Logs n s L (if s.cache.isFull then s.cache.victim.toList else []) (do
      let r ← Journaled.cachePUTNewEntry s ptr (hashTableIdx ptr)
      note (.put ptr.key)
      return r.2) id := by
  obtain ⟨rest, hentries, hrest, hok⟩ := cachePUTNewEntry_entries h hd hn hptr hkey
  cases hr : (Journaled.cachePUTNewEntry s ptr (hashTableIdx ptr)).result with
  | error err =>
    rw [bind_of_error hr]
    refine ⟨_, rest, hentries, List.prefix_rfl, fun m hm => ?_, fun r hr => by cases hr⟩
    rcases hrest with rfl | rfl
    · cases hm
    · cases List.mem_singleton.1 hm
  | ok r =>
    obtain ⟨rfl, hentering⟩ := hok r hr
    rw [bind_of_ok hr, hentries, note_bind]
    refine ⟨_, [.entered ptr.key, .put ptr.key], List.append_assoc .., List.prefix_rfl,
      fun m hm => by simp at hm, fun r' hr' => ⟨rfl, ?_⟩⟩
    obtain rfl := Except.ok.inj hr'
    rw [List.append_assoc]
    exact hentering.recorded hkey _ (l := [.entered ptr.key])
      (List.forall_mem_cons.2 ⟨⟨rfl, rfl⟩, List.forall_mem_singleton.2 ⟨rfl, rfl⟩⟩)

/-- **`cache_PUT`** writes down what its new entry does, if it makes one, and the value set. -/
theorem cachePUT_logs (h : Wf s.cache L []) (hd : DistinctKeys s.cache L)
    (hn : s.cache.cacheNodeMemoryPool.allocated = n) (ptr : KVMessage) :
    Logs n s L (s.victims (.put ptr)) (Journaled.cachePUT s ptr) id := by
  show Logs n s L (if (s.newEntryState (.put ptr)).isSome ∧ s.cache.isFull then _ else []) _ _
  rw [newEntryState, Journaled.cachePUT]
  obtain ⟨found, hf⟩ := h.findEntry_ok ptr.calculateKeyHash
  dsimp only
  rw [hf, lift_ok_bind]
  cases found with
  | some p =>
    obtain ⟨hp, htriple⟩ := h.findEntry_some hf
    exact upgradePut_logs h hd hn hp (congrArg Triple.key htriple)
  | none =>
    have hkey : ∀ q ∈ L.linked, (s.cache.message q).key ≠ ptr.calculateKeyHash.key :=
      fun q hq heq => h.findEntry_none hf q hq (by rw [h.hashed q hq, heq]; rfl)
    simp only [Option.isSome_some, true_and]
    exact putNewEntry_logs h hd hn rfl hkey

/-- **`cache_DELETE`** marks a node, or asks the store to delete the key. -/
theorem cacheDELETE_logs (h : Wf s.cache L []) (hd : DistinctKeys s.cache L)
    (hn : s.cache.cacheNodeMemoryPool.allocated = n) (ptr : KVMessage) :
    Logs n s L [] (Journaled.cacheDELETE s ptr) fun r => r.2 := by
  obtain ⟨found, hf⟩ := h.findEntry_ok ptr.calculateKeyHash
  rw [Journaled.cacheDELETE]
  dsimp only
  rw [Journaled.deleteSearch, hf, lift_ok_bind]
  cases found with
  | none =>
    dsimp only
    -- the call of the store is all that is logged
    rw [note_bind]
    cases hdelete : s.store.deleteFromDb ptr.calculateKeyHash with
    | error err =>
      exact Logs.of_rest (fun m hm => by cases List.mem_singleton.1 hm) fun r hr => by cases hr
    | ok r =>
      refine Logs.of_rest (fun m hm => by cases List.mem_singleton.1 hm) fun r hr => ?_
      obtain rfl := Except.ok.inj hr
      refine recorded_keep h hd hn fun e he key => ?_
      rw [List.mem_singleton.1 he]
      rfl
  | some p =>
    obtain ⟨hp, htriple⟩ := h.findEntry_some hf
    have hkey : (s.cache.message p).key = ptr.key := congrArg Triple.key htriple
    rcases h.present p hp with hdirty | hdirty
    · simp only [hdirty]
      show Logs n s L [] (Journaled.upgradeDelete s p >>= _) _
      rw [Journaled.upgradeDelete, hdirty]
      cases hmove : (s.cache.setDirtyBit p .toDelete).moveToHeadLRU p with
      | error err => exact Logs.failed rfl rfl
      | ok c =>
        refine Logs.of_rest (fun m hm => by cases List.mem_singleton.1 hm) fun r hr => ?_
        obtain rfl := Except.ok.inj hr
        have hleaves : (CacheEvent.marked (s.cache.message p).key).Leaves (s.cache.message p).key
          .toDelete := ⟨rfl, rfl⟩
        exact recorded_hit hd hn hp (h.setDirtyBit (Or.inr rfl)) (fun _ => rfl) rfl rfl hmove
          hleaves
    · simp only [hdirty]
      refine Logs.silent h hd hn rfl fun r hr => ?_
      obtain rfl := Except.ok.inj hr
      rfl

/-- A store call before the others, for a node that is taken out. -/
theorem Recorded.cons {L₁ : Layout} {c₁ : KVCache} (h : Recorded n c₁ L₁ l c')
    (hsub : ∀ q ∈ L₁.linked, q ∈ L.linked) (hm : c₁.message = c.message)
    (hd : c₁.dirtyBit = c.dirtyBit) (he : e.IsStoreCall) : Recorded n c L (e :: l) c' := by
  obtain ⟨L', hwf, hdist, hn, hnodes⟩ := h
  refine ⟨L', hwf, hdist, hn, ?_⟩
  intro q hq
  rcases hnodes q hq with ⟨hlinked, hk, hb, hl⟩ | ⟨before, x, rfl, hx⟩
  · rw [hm] at hk hl
    rw [hd] at hb
    exact Or.inl ⟨hsub q hlinked, hk, hb, List.forall_mem_cons.2 ⟨touches_of_isStoreCall he, hl⟩⟩
  · exact Or.inr ⟨e :: before, x, rfl, hx⟩

/-- The queue in turn is empty, or has a node to evict. -/
theorem tail_of_next (h : Wf c L held) (e : Nat) :
    (c.lruEvictionTable e).head = none ∧ (c.lruEvictionTable e).tail = none ∨
      (c.lruEvictionTable e).head ≠ none ∧ ∃ p, (c.lruEvictionTable e).tail = some p := by
  by_cases hh : (c.lruEvictionTable e).head = none
  · refine Or.inl ⟨hh, ?_⟩
    rw [h.head_eq, List.head?_eq_none_iff] at hh
    rw [h.tail_eq, hh]
    rfl
  · exact Or.inr ⟨hh, h.tail_of_head hh⟩

/-- **`cache_eviction_simple`** calls the store for its victims. -/
theorem cacheEvictionSimpleLoop_logs (h : Wf s.cache L []) (hd : DistinctKeys s.cache L)
    (hn : s.cache.cacheNodeMemoryPool.allocated = n) (k : Nat) :
    Logs n s L (s.cache.simpleVictims k) (Journaled.cacheEvictionSimpleLoop k s) id := by
  induction k generalizing s L with
  | zero =>
    exact Logs.silent h hd hn rfl fun r hr => (Except.ok.inj hr).symm
  | succ k ih =>
    have hwf₁ : Wf s.cache.getNextEvictionQueueIdx.2 L [] :=
      h.setCounters _ s.cache.lruTableInsertIdx
    have hd₁ : DistinctKeys s.cache.getNextEvictionQueueIdx.2 L := hd
    have hn₁ : s.cache.getNextEvictionQueueIdx.2.cacheNodeMemoryPool.allocated = n := hn
    have hflush : s.cache.getNextEvictionQueueIdx.2.flush = s.cache.flush := rfl
    have hmsg : s.cache.getNextEvictionQueueIdx.2.message = s.cache.message := rfl
    have hdirty : s.cache.getNextEvictionQueueIdx.2.dirtyBit = s.cache.dirtyBit := rfl
    rw [KVCache.simpleVictims, Journaled.cacheEvictionSimpleLoop]
    dsimp only
    generalize s.cache.getNextEvictionQueueIdx.1 = e
    generalize s.cache.getNextEvictionQueueIdx.2 = c at hwf₁ hd₁ hn₁ hflush hmsg hdirty ⊢
    -- a queue without a head costs an iteration, and evicts nothing
    rcases tail_of_next hwf₁ e with ⟨hhead, htail⟩ | ⟨hhead, p, htail⟩
    · rw [if_pos hhead, htail]
      obtain ⟨ws, rest, hentries, hws, hrest, hok⟩ := @ih ⟨c, s.store⟩ L hwf₁ hd₁ hn₁
      refine ⟨ws, rest, hentries, hflush ▸ hws, hrest, ?_⟩
      intro r hr
      obtain ⟨hall, L', hwf', hd', hn', hnodes⟩ := hok r hr
      refine ⟨hflush ▸ hall, L', hwf', hd', hn', ?_⟩
      rwa [← hmsg, ← hdirty]
    · rw [if_neg hhead, htail]
      have hbucket : c.victimBucket e = .ok (hashTableIdx (c.message p)) := by
        rw [KVCache.victimBucket, htail]
      have hp := (hwf₁.tail_linked htail).1
      have hev := evictLocked_ensures (s := ⟨c, s.store⟩) hwf₁ htail
      have hentries := evictLocked_entries (s := ⟨c, s.store⟩) hwf₁ htail
        (hashTableIdx (c.message p))
      rw [← Journaled.result_evictLocked] at hev
      have hwf₂ := hwf₁.unlink hp
      rw [(hwf₁.tail_linked htail).2] at hwf₂
      obtain ⟨pool, hrel, hwf₃, halloc⟩ := hwf₂.releaseInstance (List.mem_singleton_self p)
      rw [List.erase_cons_head] at hwf₃
      dsimp only
      rw [hbucket, lift_ok_bind, hrel]
      dsimp only
      rw [Logs, ← hflush]
      cases hr : (Journaled.evictLocked ⟨c, s.store⟩ e (hashTableIdx (c.message p))).result with
      | error err =>
        rw [bind_of_error hr, hentries]
        refine ⟨[c.flush p], [], rfl, ?_, (fun m hm => by cases hm), fun r hr => by cases hr⟩
        rw [List.map_cons]
        exact ⟨_, rfl⟩
      | ok r =>
        obtain ⟨res, s₁⟩ := r
        obtain ⟨rfl, -, hcache⟩ := hev _ hr
        obtain ⟨c₁, store₁⟩ := s₁
        obtain rfl : c₁ = _ := hcache
        rw [bind_of_ok hr, hentries]
        dsimp only
        rw [hrel, lift_ok_bind]
        obtain ⟨ws, rest, hrests, hws, hrest, hok⟩ := @ih ⟨_, store₁⟩ _ hwf₃
          (hd₁.of_subset (fun _ hq => List.mem_of_mem_erase hq) fun _ _ => rfl) (halloc.trans hn₁)
        refine ⟨c.flush p :: ws, rest, congrArg (c.flush p :: ·) hrests, ?_, hrest, ?_⟩
        · rw [List.map_cons]
          exact List.cons_prefix_cons.2 ⟨rfl, hws⟩
        · intro r hr
          obtain ⟨hall, hrec⟩ := hok r hr
          refine ⟨by rw [hall]; rfl, ?_⟩
          exact hrec.cons (fun _ hq => List.mem_of_mem_erase hq) hmsg hdirty
            (isStoreCall_flush _ _)

theorem simpleVictims_linked (h : Wf c L []) (k : Nat) : ∀ p ∈ c.simpleVictims k, p ∈ L.linked := by
  induction k generalizing c L with
  | zero => exact nofun
  | succ k ih =>
    have hwf₁ : Wf c.getNextEvictionQueueIdx.2 L [] := h.setCounters _ c.lruTableInsertIdx
    rw [KVCache.simpleVictims]
    dsimp only
    generalize c.getNextEvictionQueueIdx.1 = e
    generalize c.getNextEvictionQueueIdx.2 = c at hwf₁ ⊢
    rcases tail_of_next hwf₁ e with ⟨-, htail⟩ | ⟨-, p, htail⟩
    · rw [htail]
      exact ih hwf₁
    · obtain ⟨hp, hqueue⟩ := hwf₁.tail_linked htail
      have hwf₂ := hwf₁.unlink hp
      rw [hqueue] at hwf₂
      obtain ⟨pool, hrel, hwf₃, -⟩ := hwf₂.releaseInstance (List.mem_singleton_self p)
      rw [List.erase_cons_head] at hwf₃
      rw [htail]
      dsimp only
      rw [hrel]
      exact List.forall_mem_cons.2 ⟨hp, fun q hq => List.mem_of_mem_erase (ih hwf₃ q hq)⟩

theorem victims_linked (h : Wf s.cache L []) (a : CacheCall) : ∀ p ∈ s.victims a, p ∈ L.linked := by
  have hvictim : ∀ P [Decidable P], ∀ p ∈ (if P then s.cache.victim.toList else []),
      p ∈ L.linked := by
    intro P _ p hp
    split_ifs at hp
    · exact victim_linked h (Option.mem_toList.1 hp)
    · cases hp
  cases a with
  | evictionSimple => exact simpleVictims_linked h 10
  | get ptr => exact hvictim _
  | put ptr => exact hvictim _
  | delete ptr => exact nofun

/-- **Every call** writes its victims down. -/
theorem step_logs (h : Wf s.cache L []) (hd : DistinctKeys s.cache L)
    (hn : s.cache.cacheNodeMemoryPool.allocated = n) (a : CacheCall) :
    Logs n s L (s.victims a) (Journaled.step s a) id := by
  cases a with
  | get ptr =>
    have hget := (cacheGETPtr_logs h hd hn ptr).map (fun r => (r.1.isSome, r.2.1, r.2.2))
      (fun r => r.2.2) fun _ => rfl
    have hcall := hget.map (fun r => (CacheAnswer.get r.1 r.2.1, r.2.2)) (fun r => r.2)
      fun _ => rfl
    exact hcall.map (fun r => r.2) _ fun _ => rfl
  | put ptr =>
    have hcall := (cachePUT_logs h hd hn ptr).map (fun r => (CacheAnswer.put, r)) (fun r => r.2)
      fun _ => rfl
    exact hcall.map (fun r => r.2) _ fun _ => rfl
  | delete ptr =>
    have hcall := (cacheDELETE_logs h hd hn ptr).map (fun r => (CacheAnswer.delete r.1, r.2))
      (fun r => r.2) fun _ => rfl
    exact hcall.map (fun r => r.2) _ fun _ => rfl
  | evictionSimple =>
    have hcall := (cacheEvictionSimpleLoop_logs h hd hn 10).map
      (fun r => (CacheAnswer.evictionSimple, r)) (fun r => r.2) fun _ => rfl
    exact hcall.map (fun r => r.2) _ fun _ => rfl

end KVState

end KeyValueStore
