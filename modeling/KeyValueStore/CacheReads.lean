import KeyValueStore.CacheWrites
import KeyValueStore.StoreInterrupted
import KeyValueStore.StoreOpens
import Mathlib.Data.Finset.Card

/-!
# Reads that cause writes

The dirty bit says whether the store already has the latest value of an entry. A GET that loads an
entry sets it as a PUT does, so the eviction of the entry writes the value back to where it has come
from.

* `calls_writesOnlyPut` — a run writes only what a PUT has set, if no call evicts an entry that was
  only read; and a run that returns does so only then.
* `gets_silent_iff` — a run of GETs calls the store for no write exactly if the cache has room for
  all keys that it loads.
-/

namespace KeyValueStore

open Run Journal

namespace KVState

variable {s : KVState} {L : Layout} {held : List NodePtr} {p : NodePtr} {h l : List CacheEvent}
  {n cacheSize : Nat} {d : Dict} {files : Nat → Option (List UInt8)}

/-! ## Runs -/

/-- The journal tells the dirty bit of every node. -/
def Tracked (n : Nat) (h : List CacheEvent) (s : KVState) : Prop :=
  ∃ L, Wf s.cache L [] ∧ DistinctKeys s.cache L ∧ s.cache.cacheNodeMemoryPool.allocated = n ∧
    ∀ p ∈ L.linked, ∃ e, lastTouch h (s.cache.message p).key = some e ∧
      e.Leaves (s.cache.message p).key (s.cache.dirtyBit p)

/-- No entry that the call takes out of the cache was only read. -/
def Spares (h : List CacheEvent) (s : KVState) (a : CacheCall) : Prop :=
  ∀ p ∈ s.victims a, ¬ OnlyRead h (s.cache.message p).key

/-- What the journal tells of a node that is evicted. -/
theorem flush_cases (hwf : Wf s.cache L held) (hp : p ∈ L.linked)
    (htrack : ∃ e, lastTouch h (s.cache.message p).key = some e ∧
      e.Leaves (s.cache.message p).key (s.cache.dirtyBit p)) :
    s.cache.flush p = .writeToDb (s.cache.message p) ∧
        (SetByPut h (s.cache.message p).key ↔ ¬ OnlyRead h (s.cache.message p).key) ∨
      s.cache.flush p = .deleteFromDb (s.cache.message p) ∧
        ¬ OnlyRead h (s.cache.message p).key := by
  obtain ⟨e, hlast, he⟩ := htrack
  rcases hwf.present p hp with hb | hb
  · rw [hb] at he
    exact Or.inl ⟨if_neg (by rw [hb]; decide), setByPut_iff hlast he⟩
  · rw [hb] at he
    exact Or.inr ⟨if_pos hb, not_onlyRead_of_toDelete hlast he⟩

/-- Evictions write only what a PUT has set, if they take no entry that was only read. -/
theorem setByPut_of_spares {vs : List NodePtr} (hwf : Wf s.cache L held)
    (hvs : ∀ p ∈ vs, p ∈ L.linked)
    (htrack : ∀ p ∈ L.linked, ∃ e, lastTouch h (s.cache.message p).key = some e ∧
      e.Leaves (s.cache.message p).key (s.cache.dirtyBit p)) :
    (∀ m, .writeToDb m ∈ vs.map s.cache.flush → SetByPut h m.key) ↔
      ∀ p ∈ vs, ¬ OnlyRead h (s.cache.message p).key := by
  constructor
  · intro hall p hp
    rcases flush_cases hwf (hvs p hp) (htrack p (hvs p hp)) with ⟨hflush, hiff⟩ | ⟨-, hnot⟩
    · exact hiff.1 (hall _ (hflush ▸ List.mem_map_of_mem hp))
    · exact hnot
  · intro hall m hm
    obtain ⟨p, hp, hflush⟩ := List.mem_map.1 hm
    rcases flush_cases hwf (hvs p hp) (htrack p (hvs p hp)) with ⟨hwrite, hiff⟩ | ⟨hdelete, -⟩
    · obtain rfl := CacheEvent.writeToDb.inj (hwrite.symm.trans hflush)
      exact hiff.2 (hall p hp)
    · cases hdelete.symm.trans hflush

/-- **The journal goes on telling the dirty bits.** -/
theorem Tracked.step {s' : KVState} (ht : Tracked n h s) {a : CacheCall}
    (hs' : (Journaled.step s a).result = .ok s') :
    Tracked n (h ++ (Journaled.step s a).entries) s' := by
  obtain ⟨L, hwf, hd, hn, htrack⟩ := ht
  obtain ⟨_, _, _, _, _, hok⟩ := step_logs hwf hd hn a
  obtain ⟨-, L', hwf', hd', hn', hnodes⟩ := hok s' hs'
  refine ⟨L', hwf', hd', hn', ?_⟩
  intro p hp
  rcases hnodes p hp with ⟨hlinked, hk, hb, hl⟩ | ⟨before, e, heq, he⟩
  · obtain ⟨e, hlast, he⟩ := htrack p hlinked
    change (s'.cache.message p).key = _ at hk
    change s'.cache.dirtyBit p = _ at hb
    refine ⟨e, ?_, ?_⟩
    · rw [hk, lastTouch_append hl, hlast]
    · rwa [hk, hb]
  · refine ⟨e, ?_, he⟩
    rw [heq, ← List.append_assoc]
    exact lastTouch_concat he.touches _

/-- **What a call writes** a PUT has set, if it spares the entries that were only read. -/
theorem step_writesOnlyPut (ht : Tracked n h s) (hh : WritesOnlyPut h) (a : CacheCall) :
    (Spares h s a → WritesOnlyPut (h ++ (Journaled.step s a).entries)) ∧
      ∀ s', (Journaled.step s a).result = .ok s' →
        WritesOnlyPut (h ++ (Journaled.step s a).entries) → Spares h s a := by
  obtain ⟨L, hwf, hd, hn, htrack⟩ := ht
  obtain ⟨ws, rest, hentries, hws, hrest, hok⟩ := step_logs hwf hd hn a
  have hcalls : ∀ e ∈ ws, e.IsStoreCall := by
    intro e he
    obtain ⟨p, -, rfl⟩ := List.mem_map.1 (hws.subset he)
    exact isStoreCall_flush _ _
  have hspares := setByPut_of_spares hwf (victims_linked hwf a) htrack
  constructor
  · intro hsp
    rw [hentries, writesOnlyPut_append_iff hcalls hrest]
    exact ⟨hh, fun m hm => hspares.2 hsp m (hws.subset hm)⟩
  · intro s' hs' hall
    rw [hentries, writesOnlyPut_append_iff hcalls hrest, (hok s' hs').1] at hall
    exact hspares.1 hall.2

theorem writesOnlyPut_nil : WritesOnlyPut [] := fun before m after heq => by
  cases before <;> cases heq

theorem run_tracked (ht : Tracked n [] s) (cs : List CacheCall) {t : KVState}
    (hrun : (Journaled.calls s cs).result = .ok t) :
    Tracked n (Journaled.calls s cs).entries t := by
  have hkeeps : Journal.Keeps (fun _ => True) [] (Journaled.calls s cs) (Tracked n) :=
    run_keeps (I := Tracked n) (C := fun _ _ _ => True)
      (fun h s a _ hI _ => ⟨trivial, fun s' hs' => hI.step hs'⟩) trivial ht
      (Journal.meets_of_forall fun _ _ _ _ => trivial)
  exact hkeeps.2 t hrun

/-- If `C` holds, the computation writes only what a PUT has set; and if it returns, only then. -/
def WritesOnlyPutIff (x : Journaled KVState) (C : Prop) : Prop :=
  (C → WritesOnlyPut x.entries) ∧ ∀ t, x.result = .ok t → WritesOnlyPut x.entries → C

/-- **What a run writes** a PUT has set, if every call spares the entries that were only read. -/
theorem calls_writesOnlyPut (ht : Tracked n [] s) (cs : List CacheCall) :
    WritesOnlyPutIff (Journaled.calls s cs) (Journal.Meets Journaled.step Spares [] s cs) := by
  constructor
  · intro hmeets
    have hkeeps : Journal.Keeps WritesOnlyPut [] (Journaled.calls s cs) (Tracked n) :=
      run_keeps (I := Tracked n) (fun h s a hG hI hC =>
        ⟨(step_writesOnlyPut hI hG a).1 hC, fun s' hs' => hI.step hs'⟩) writesOnlyPut_nil ht hmeets
    exact hkeeps.1
  · intro t hrun hall
    refine (run_keeps_iff (I := Tracked n) (fun h h' hall => (writesOnlyPut_append.1 hall).1)
      (fun h s a s' hG hI hs' => ?_) writesOnlyPut_nil ht hrun).1 hall
    obtain ⟨hgood, hback⟩ := step_writesOnlyPut hI hG a
    exact ⟨⟨hback s' hs', hgood⟩, fun _ => hI.step hs'⟩

/-! ## The end of a run -/

/-- No entry of the cache was only read. -/
def SparesAll (h : List CacheEvent) (s : KVState) : Prop :=
  ∀ ptr p, s.cache.nodeOf ptr = some p → ¬ OnlyRead h ptr.key

theorem sparesAll_iff (hwf : Wf s.cache L held) (hd : DistinctKeys s.cache L) :
    SparesAll h s ↔ ∀ p ∈ L.linked, ¬ OnlyRead h (s.cache.message p).key := by
  constructor
  · intro hall p hp
    exact hall _ p (nodeOf_eq_some hwf hd hp rfl)
  · intro hall ptr p hnode
    obtain ⟨found, hf⟩ := hwf.findEntry_ok ptr.calculateKeyHash
    rw [nodeOf_eq hf] at hnode
    obtain rfl := hnode
    obtain ⟨hp, htriple⟩ := hwf.findEntry_some hf
    have hkey : (s.cache.message p).key = ptr.key := congrArg Triple.key htriple
    exact hkey ▸ hall p hp

/-- `cache_clean` calls the store for the nodes of the cache: for all of them, if it returns. -/
theorem cacheClean_entries (hwf : Wf s.cache L held) (fuel : Nat) :
    ∃ vs : List NodePtr, (Journaled.cacheClean fuel s).entries = vs.map s.cache.flush ∧
      (∀ p ∈ vs, p ∈ L.linked) ∧
      ∀ t, (Journaled.cacheClean fuel s).result = .ok t → ∀ p ∈ L.linked, p ∈ vs := by
  induction fuel generalizing s L held with
  | zero => exact ⟨[], rfl, List.forall_mem_nil _, fun t ht => by cases ht⟩
  | succ fuel ih =>
    have hev := cacheEviction_victim hwf
    rw [← Journaled.result_cacheEviction] at hev
    rw [Journaled.cacheClean]
    cases hr : (Journaled.cacheEviction s).result with
    | error err =>
      rw [bind_of_error hr, cacheEviction_entries hwf]
      exact ⟨_, rfl, fun p hp => victim_linked hwf (Option.mem_toList.1 hp),
        fun t ht => by cases ht⟩
    | ok r =>
      obtain ⟨res, s₁⟩ := r
      obtain ⟨hvictim, hnone, hsome⟩ := hev _ hr
      rw [bind_of_ok hr, cacheEviction_entries hwf, ← hvictim]
      cases res with
      | none =>
        refine ⟨[], rfl, List.forall_mem_nil _, ?_⟩
        intro t _ p hp
        rw [hnone rfl] at hp
        exact hp
      | some p =>
        obtain ⟨e, hev⟩ := hsome p rfl
        obtain ⟨vs, hentries, hvs, hall⟩ := ih hev.wf
        rw [flush_congr hev.same.message hev.same.dirtyBit] at hentries
        refine ⟨p :: vs, congrArg (s.cache.flush p :: ·) hentries, ?_, ?_⟩
        · exact List.forall_mem_cons.2 ⟨hev.linked hwf, fun q hq =>
            List.mem_of_mem_erase (hvs q hq)⟩
        · intro t ht q hq
          by_cases hqp : q = p
          · exact hqp ▸ List.mem_cons_self
          · refine List.mem_cons_of_mem _ (hall t ht q ?_)
            exact (List.mem_erase_of_ne hqp).2 hq

/-- **What the shutdown writes** a PUT has set, if no entry of the cache was only read. -/
theorem cacheClean_writesOnlyPut (ht : Tracked n h s) (hh : WritesOnlyPut h) (fuel : Nat) :
    (SparesAll h s → WritesOnlyPut (h ++ (Journaled.cacheClean fuel s).entries)) ∧
      ∀ t, (Journaled.cacheClean fuel s).result = .ok t →
        WritesOnlyPut (h ++ (Journaled.cacheClean fuel s).entries) → SparesAll h s := by
  obtain ⟨L, hwf, hd, -, htrack⟩ := ht
  obtain ⟨vs, hentries, hvs, hall⟩ := cacheClean_entries hwf fuel
  have hcalls : ∀ e ∈ vs.map s.cache.flush, e.IsStoreCall := by
    intro e he
    obtain ⟨p, -, rfl⟩ := List.mem_map.1 he
    exact isStoreCall_flush _ _
  have hiff : WritesOnlyPut (h ++ (vs.map s.cache.flush ++ [])) ↔
      WritesOnlyPut h ∧ ∀ m, .writeToDb m ∈ vs.map s.cache.flush → SetByPut h m.key :=
    writesOnlyPut_append_iff hcalls nofun
  rw [List.append_nil, ← hentries, and_iff_right hh, hentries,
    setByPut_of_spares hwf hvs htrack] at hiff
  rw [sparesAll_iff hwf hd, hentries, hiff]
  exact ⟨fun hspares p hp => hspares p (hvs p hp),
    fun t ht hspares p hp => hspares p (hall t ht p hp)⟩

/-- Every call, and the shutdown, spares the entries that were only read. -/
def SparesThroughout (s : KVState) (cs : List CacheCall) : Prop :=
  Journal.Meets Journaled.step Spares [] s cs ∧
    ∀ t, (Journaled.calls s cs).result = .ok t → SparesAll (Journaled.calls s cs).entries t

/-- **What a run with its shutdown writes.** -/
theorem session_writesOnlyPut (ht : Tracked n [] s) (cs : List CacheCall) (fuel : Nat) :
    WritesOnlyPutIff (Journaled.session s cs fuel) (SparesThroughout s cs) := by
  obtain ⟨hgood, hback⟩ := calls_writesOnlyPut ht cs
  rw [Journaled.session]
  cases hrun : (Journaled.calls s cs).result with
  | error err =>
    rw [bind_of_error hrun]
    exact ⟨fun hspares => hgood hspares.1, nofun⟩
  | ok t =>
    have htrack := run_tracked ht cs hrun
    rw [bind_of_ok hrun]
    constructor
    · intro hspares
      exact (cacheClean_writesOnlyPut htrack (hgood hspares.1) fuel).1 (hspares.2 t hrun)
    · intro u hclean hall
      have hcalls := (writesOnlyPut_append.1 hall).1
      refine ⟨hback t hrun hcalls, ?_⟩
      intro t' ht'
      obtain rfl := Except.ok.inj (hrun.symm.trans ht')
      exact (cacheClean_writesOnlyPut htrack hcalls fuel).2 u hclean hall

/-! ## Runs of GETs -/

/-- The keys that have a node. -/
def cachedKeys (c : KVCache) (L : Layout) : Finset Chars256 :=
  (L.linked.map fun p => (c.message p).key).toFinset

/-- The keys among those requested that have a value. -/
def storedKeys (d : Dict) (ptrs : List KVMessage) : Finset Chars256 :=
  ((ptrs.map KVMessage.key).filter fun key => (d key).isSome).toFinset

theorem mem_cachedKeys {c : KVCache} {key : Chars256} :
    key ∈ cachedKeys c L ↔ ∃ p ∈ L.linked, (c.message p).key = key := by
  rw [cachedKeys, List.mem_toFinset, List.mem_map]

theorem card_cachedKeys {c : KVCache} (hwf : Wf c L held) (hd : DistinctKeys c L) :
    (cachedKeys c L).card = L.linked.length := by
  rw [cachedKeys, List.toFinset_card_of_nodup, List.length_map]
  exact hwf.linked_nodup.map_on fun p hp q hq heq => hd p hp q hq heq

variable {ptr : KVMessage}

theorem storedKeys_cons (d : Dict) (ptr : KVMessage) (ptrs : List KVMessage) :
    storedKeys d (ptr :: ptrs) = storedKeys d [ptr] ∪ storedKeys d ptrs := by
  rw [storedKeys, ← List.singleton_append, List.map_append, List.filter_append,
    List.toFinset_append]
  rfl

theorem storedKeys_of_some (h : (d ptr.key).isSome) : storedKeys d [ptr] = {ptr.key} := by
  simp [storedKeys, h]

theorem storedKeys_of_none (h : ¬ (d ptr.key).isSome) : storedKeys d [ptr] = ∅ := by
  simp [storedKeys, h]

theorem cachePUTNewEntry_of_free (hrep : Represents s L [] d) (hfree : L.free ≠ [])
    (hptr : ptr.triple = tripleOf ptr.key) (hkey : ptr.key ∉ cachedKeys s.cache L) :
    ∃ p s' L', s.cachePUTNewEntry ptr (hashTableIdx ptr) = .ok (p, s') ∧
      Represents s' L' [] (Function.update d ptr.key (some ptr.value)) ∧
      s'.cache.cacheNodeMemoryPool.allocated = s.cache.cacheNodeMemoryPool.allocated ∧
      cachedKeys s'.cache L' = insert ptr.key (cachedKeys s.cache L) := by
  obtain ⟨p, c, L₁, hacq, hrep₁, hL₁, hmsg, -, -, halloc⟩ := acquireInstance_spec hrep
  have hfull : ¬ s.cache.isFull = true := fun hf => hfree ((isFull_iff hrep.wf).1 hf)
  have hp : p ∈ [p] := List.mem_singleton_self p
  obtain ⟨hrep₂, hlt⟩ := fill_spec hrep₁ hp ptr
  have hmsgp := c.fill_message_self p ptr
  have hout := hrep₁.wf.not_linked_of_held hp
  have hold : ∀ x ∈ L₁.linked, (c.fill ptr p).2.message x = s.cache.message x := by
    intro x hx
    rw [c.fill_message_of_ne p ptr (ne_of_mem_of_not_mem hx hout), hmsg]
  have hlink := link_spec hrep₂ hp (i := hashTableIdx ptr) (q := (c.fill ptr p).1)
    (by rw [hmsgp]; rfl) (c.fill_lruIdx_self p ptr) hlt (by rw [hmsgp]; exact hptr)
    (c.fill_dirtyBit_self p ptr) (fun x hx heq => hkey (mem_cachedKeys.2 ⟨x, hL₁ ▸ hx, by
      rw [hmsgp] at heq
      exact (congrArg KVMessage.key (hold x hx)).symm.trans heq⟩))
  simp only [hmsgp, List.erase_cons_head] at hlink
  refine ⟨p, _, _, ?_, hlink, halloc hfree, ?_⟩
  · rw [cachePUTNewEntry, newInstance, if_neg hfull, hacq]
    rfl
  · show (List.map _ (p :: L₁.linked)).toFinset = _
    rw [List.map_cons, List.toFinset_cons, cachedKeys, ← hL₁]
    refine congrArg₂ insert (congrArg KVMessage.key hmsgp :) (congrArg List.toFinset ?_)
    exact List.map_congr_left fun x hx => congrArg KVMessage.key (hold x hx)

/-- A GET enters a node just for a key that has a value and no node. -/
theorem getSearch_load_iff (hrep : Represents s L held d) (ptr : KVMessage) :
    ∃ r s' L', s.getSearch ptr.calculateKeyHash = .ok (r, s') ∧ Represents s' L' held d ∧
      cachedKeys s'.cache L' = cachedKeys s.cache L ∧ SameNodes s.cache s'.cache ∧
      ((∃ ptr', r = .load ptr' ∧ s' = s ∧ ptr'.key = ptr.key ∧ ptr'.triple = tripleOf ptr.key ∧
          d ptr.key = some ptr'.value ∧ ptr.key ∉ cachedKeys s.cache L) ∨
        (∃ res ptr', r = .done res ptr') ∧
          ((d ptr.key).isSome → ptr.key ∈ cachedKeys s.cache L)) := by
  obtain ⟨r, s', L', hget, hrep', hL', hsame, -, hr⟩ :=
    getSearch_spec hrep ptr.calculateKeyHash rfl
  have hkeys : cachedKeys s'.cache L' = cachedKeys s.cache L := by
    rw [cachedKeys, hL', hsame.message, cachedKeys]
  refine ⟨r, s', L', hget, hrep', hkeys, hsame, ?_⟩
  cases r with
  | load ptr' =>
    obtain ⟨hload, hs, hfresh⟩ := hr
    obtain ⟨v, hv, rfl⟩ := dictGet_eq_true.1 hload.symm
    refine Or.inl ⟨_, rfl, hs, rfl, rfl, hv, fun hmem => ?_⟩
    obtain ⟨p, hp, hkey⟩ := mem_cachedKeys.1 hmem
    exact hfresh p hp hkey
  | done res ptr' =>
    refine Or.inr ⟨⟨res, ptr', rfl⟩, fun hsome => ?_⟩
    obtain ⟨found, hf⟩ := hrep.wf.findEntry_ok ptr.calculateKeyHash
    cases found with
    | some p =>
      obtain ⟨hp, htriple⟩ := hrep.wf.findEntry_some hf
      exact mem_cachedKeys.2 ⟨p, hp, congrArg Triple.key htriple⟩
    | none =>
      obtain ⟨v, hv⟩ := Option.isSome_iff_exists.1 hsome
      have hread := hrep.readFromDb_eq ptr.calculateKeyHash rfl hf
      rw [getSearch, hf, ok_bind] at hget
      have hload : dictGet d ptr.calculateKeyHash =
          (true, { ptr.calculateKeyHash with value := v }) := dictGet_eq_true.2 ⟨v, hv, rfl⟩
      rw [hload] at hread
      dsimp only at hget
      rw [hread, ok_bind] at hget
      cases Except.ok.inj hget

/-- A GET evicts for a key that has a value and no node, if all nodes are linked. -/
theorem victims_get (hrep : Represents s L [] d) (ptr : KVMessage) : s.victims (.get ptr) =
    if (d ptr.key).isSome ∧ ptr.key ∉ cachedKeys s.cache L ∧ L.free = [] then
      s.cache.victim.toList else [] := by
  obtain ⟨r, s', L', hget, -, -, -, hr⟩ := getSearch_load_iff hrep ptr
  show (if (s.newEntryState (.get ptr)).isSome ∧ s.cache.isFull then _ else []) = _
  rw [newEntryState, hget]
  rcases hr with ⟨ptr', rfl, rfl, -, -, hv, hmem⟩ | ⟨⟨res, ptr', rfl⟩, hnot⟩
  · simp [hv, hmem, isFull_iff hrep.wf]
  · rw [if_neg fun hcon => Bool.false_ne_true hcon.1, if_neg fun hcon => hcon.2.1 (hnot hcon.1)]

/-- **A GET** that finds room, if it needs any, returns. -/
theorem cacheGET_returns (hrep : Represents s L [] d)
    (hroom : ¬ ((d ptr.key).isSome ∧ ptr.key ∉ cachedKeys s.cache L ∧ L.free = [])) :
    ∃ found ptr' s' L', s.cacheGET ptr = .ok (found, ptr', s') ∧ Represents s' L' [] d ∧
      s'.cache.cacheNodeMemoryPool.allocated = s.cache.cacheNodeMemoryPool.allocated ∧
      cachedKeys s'.cache L' = cachedKeys s.cache L ∪ storedKeys d [ptr] := by
  obtain ⟨r, s', L', hget, hrep', hkeys, hsame, hr⟩ := getSearch_load_iff hrep ptr
  rw [cacheGET, cacheGETPtr, hget]
  rcases hr with ⟨ptr', rfl, rfl, hkey, htriple, hv, hmem⟩ | ⟨⟨res, ptr', rfl⟩, hnot⟩
  · have hfree : L.free ≠ [] := fun hfree => hroom ⟨by rw [hv]; rfl, hmem, hfree⟩
    obtain ⟨p, s₁, L₁, hput, hrep₁, halloc, hkeys₁⟩ :=
      cachePUTNewEntry_of_free hrep hfree (by rw [htriple, hkey]) (by rwa [hkey])
    rw [hkey, ← hv, Function.update_eq_self] at hrep₁
    refine ⟨true, ptr', s₁, L₁, ?_, hrep₁, halloc, ?_⟩
    · simp only [ok_bind, hput]
      rfl
    · rw [hkeys₁, hkey, storedKeys_of_some (by rw [hv]; rfl), Finset.union_comm]
      rfl
  · refine ⟨_, _, s', L', rfl, hrep', by rw [hsame.pool], ?_⟩
    rw [hkeys]
    by_cases hsome : (d ptr.key).isSome = true
    · rw [storedKeys_of_some hsome]
      exact (Finset.union_eq_left.2 (Finset.singleton_subset_iff.2 (hnot hsome))).symm
    · rw [storedKeys_of_none hsome, Finset.union_empty]

theorem step_get_entries (s : KVState) (ptr : KVMessage) :
    (Journaled.step s (.get ptr)).entries = (Journaled.cacheGETPtr s ptr).entries := by
  show Journal.entries (((Journaled.cacheGETPtr s ptr >>= _) >>= _) >>= _) = _
  rw [entries_bind_of_nil fun _ => rfl, entries_bind_of_nil fun _ => rfl,
    entries_bind_of_nil fun _ => rfl]

/-- **GETs call the store for no write** exactly if the cache has room for all that they load. -/
theorem gets_silent_iff (hrep : Represents s L [] d)
    (hn : s.cache.cacheNodeMemoryPool.allocated = n) (hpos : 0 < n) (ptrs : List KVMessage) :
    (∀ e ∈ (Journaled.calls s (ptrs.map .get)).entries, ¬ e.IsStoreCall) ↔
      (cachedKeys s.cache L ∪ storedKeys d ptrs).card ≤ n := by
  induction ptrs generalizing s L with
  | nil =>
    refine iff_of_true nofun ?_
    have hcount := hrep.wf.count
    rw [show storedKeys d [] = ∅ from rfl, Finset.union_empty,
      card_cachedKeys hrep.wf hrep.distinct]
    omega
  -- a call that needs a node when all are linked is the one that writes; before it the keys fit
  | cons ptr ptrs ih =>
    obtain ⟨rest, hentries, hrest, -⟩ := cacheGETPtr_entries hrep.wf hrep.distinct hn ptr
    rw [← step_get_entries, victims_get hrep] at hentries
    rw [List.map_cons, Journaled.calls_cons]
    by_cases hfull : (d ptr.key).isSome ∧ ptr.key ∉ cachedKeys s.cache L ∧ L.free = []
    · -- the entry needs a node, and all are linked
      have hcount := hrep.wf.count
      rw [if_pos hfull] at hentries
      rw [hfull.2.2, List.length_nil, hn] at hcount
      have hne : L.linked ≠ [] := by
        intro hnil
        rw [hnil, List.length_nil] at hcount
        omega
      obtain ⟨p, hp⟩ := exists_victim hrep.wf hne
      rw [hp] at hentries
      refine iff_of_false (fun hall => ?_) (fun hcard => ?_)
      · refine hall (s.cache.flush p) (mem_entries_bind ?_) (isStoreCall_flush _ _)
        rw [hentries]
        exact List.mem_cons_self
      · have hsub : insert ptr.key (cachedKeys s.cache L) ⊆
            cachedKeys s.cache L ∪ storedKeys d (ptr :: ptrs) := by
          rw [storedKeys_cons, storedKeys_of_some hfull.1, Finset.insert_eq, Finset.union_comm]
          exact Finset.union_subset_union_right Finset.subset_union_left
        have hle := Finset.card_le_card hsub
        rw [Finset.card_insert_of_notMem hfull.2.1, card_cachedKeys hrep.wf hrep.distinct] at hle
        omega
    · rw [if_neg hfull] at hentries
      obtain ⟨found, ptr', s', L', hget, hrep', halloc, hkeys⟩ := cacheGET_returns hrep hfull
      have hok : (Journaled.step s (.get ptr)).result = .ok s' := by
        rw [Journaled.result_step, call, hget]
        rfl
      rw [bind_of_ok hok]
      have hsilent : ∀ e ∈ (Journaled.step s (.get ptr)).entries, ¬ e.IsStoreCall := by
        rw [hentries]
        intro e he
        obtain ⟨key, rfl⟩ := hrest e he
        exact id
      rw [List.forall_mem_append, and_iff_right hsilent, ih hrep' (halloc.trans hn), hkeys,
        Finset.union_assoc, ← storedKeys_cons]

/-- An entry that GETs write down. -/
def ReadEntry : CacheEvent → Prop
  | .entered _ => True
  | .writeToDb _ => True
  | _ => False

/-- **GETs set and delete nothing.** -/
theorem gets_entries (ht : Tracked n [] s) (ptrs : List KVMessage) :
    ∀ e ∈ (Journaled.calls s (ptrs.map .get)).entries, ReadEntry e := by
  have hkeeps : Journal.Keeps (fun h => ∀ e ∈ h, ReadEntry e) []
      (Journaled.calls s (ptrs.map .get)) (Tracked n) := by
    refine run_keeps (I := Tracked n) (C := fun _ _ a => ∃ ptr, a = .get ptr)
      (fun h s a hG hI hC => ⟨?_, fun s' hs' => hI.step hs'⟩) nofun ht
      (Journal.meets_of_forall fun a ha _ _ => ?_)
    · obtain ⟨ptr, rfl⟩ := hC
      obtain ⟨L, hwf, hd, hn, htrack⟩ := hI
      obtain ⟨rest, hentries, hrest, -⟩ := cacheGETPtr_entries hwf hd hn ptr
      rw [step_get_entries, hentries, List.forall_mem_append, List.forall_mem_append]
      refine ⟨hG, ?_, ?_⟩
      · intro e he
        -- what has been entered by GETs is dirty
        obtain ⟨p, hp, rfl⟩ := List.mem_map.1 he
        have hlinked := victims_linked hwf _ p hp
        obtain ⟨e, hlast, hleaves⟩ := htrack p hlinked
        have hmem : e ∈ h := (List.mem_filter.1 (List.mem_of_getLast? hlast)).1
        have hb : s.cache.dirtyBit p ≠ .toDelete := by
          intro hb
          have hread := hG e hmem
          rw [hb] at hleaves
          cases e <;> first | exact hread | cases hleaves.2 | exact hleaves
        rw [KVCache.flush, if_neg hb]
        trivial
      · intro e he
        obtain ⟨key, rfl⟩ := hrest e he
        trivial
    · obtain ⟨ptr, -, rfl⟩ := List.mem_map.1 ha
      exact ⟨ptr, rfl⟩
  exact hkeeps.1

/-! ## The whole cache -/

theorem tracked_start (hsize : 1 ≤ cacheSize) (files : Nat → Option (List UInt8)) :
    ∃ s, start cacheSize files = .ok s ∧ Tracked cacheSize [] s := by
  obtain ⟨c, hc, hwf, halloc⟩ := Wf.new hsize
  refine ⟨⟨c, KVStore.initKvstore files⟩, by rw [start, hc]; rfl, _, hwf,
    fun _ hp => (List.not_mem_nil hp).elim, halloc, fun _ hp => (List.not_mem_nil hp).elim⟩

/-- **What the cache writes.** Over well-formed files, GETs make no call of `write_to_db` or
`delete_from_db` exactly if the keys requested that have a value, each counted once, are at most as
many as the cache has nodes. Over any files, a run writes only what a PUT has set if no call evicts
an entry that was only read, and a run that returns does so only then; and the same with the
shutdown. -/
theorem cache_writes_iff (hsize : 1 ≤ cacheSize) (files : Nat → Option (List UInt8)) :
    ∃ s, start cacheSize files = .ok s ∧
      (WellFormedFiles files → ∃ d : Dict,
        (∀ ptr : KVMessage,
          s.store.readFromDb ptr.calculateKeyHash = .ok (dictGet d ptr.calculateKeyHash)) ∧
        ∀ ptrs, (∀ e ∈ (Journaled.calls s (ptrs.map .get)).entries, ¬ e.IsStoreCall) ↔
          (storedKeys d ptrs).card ≤ cacheSize) ∧
      ∀ cs, WritesOnlyPutIff (Journaled.calls s cs)
          (Journal.Meets Journaled.step Spares [] s cs) ∧
        ∀ fuel, WritesOnlyPutIff (Journaled.session s cs fuel) (SparesThroughout s cs) := by
  obtain ⟨s, hs, ht⟩ := tracked_start hsize files
  refine ⟨s, hs, fun hfiles => ?_, fun cs =>
    ⟨calls_writesOnlyPut ht cs, fun fuel => session_writesOnlyPut ht cs fuel⟩⟩
  obtain ⟨s', d, hs', hread, hrep, hn⟩ := start_dict hsize hfiles
  obtain rfl := Except.ok.inj (hs.symm.trans hs')
  refine ⟨d, hread, ?_⟩
  intro ptrs
  rw [gets_silent_iff hrep hn hsize, show cachedKeys s.cache _ = ∅ from rfl, Finset.empty_union]

/-- A directory that holds two keys, of one chain. -/
theorem exists_pairFiles : ∃ files m, WellFormedFiles files ∧
    StoreRep (KVStore.initKvstore files) m ∧ m pairD1.triple = some pairD1.value ∧
    m pairAc2.triple = some pairAc2.value := by
  have hne := triple_ne pairAc2_hash2.1
  obtain ⟨f₁, f, chain, y, bs, -, -, hinv, hm, -⟩ :=
    exists_twoEntries (triple_file_eq pairAc2_hash1) (triple_slot_eq pairAc2_hash1) hne
  have hrep := initKvstore_rep (file_lt pairD1.triple) ⟨chain, hinv, hm⟩ fun t ht => by
    rw [Function.update_of_ne, Function.update_of_ne]
    · rintro rfl
      exact ht rfl
    · rintro rfl
      exact ht (triple_file_eq pairAc2_hash1)
  refine ⟨_, _, fun num hnum g hg => ?_, hrep, ?_, Function.update_self ..⟩
  · obtain ⟨chain', hinv', -⟩ := hrep.filesRep.present num hnum g hg
    exact ⟨chain', hinv'⟩
  · rw [Function.update_of_ne hne.symm, Function.update_self]

/-- Two GETs of two stored keys with room for both, and two PUTs with room for one. -/
theorem cache_writes_iff_one :
    ∃ files s s', WellFormedFiles files ∧ start 2 files = .ok s ∧
      (∀ e ∈ (Journaled.calls s [.get pairD1, .get pairAc2]).entries, ¬ e.IsStoreCall) ∧
      start 1 (fun _ => none) = .ok s' ∧
      WritesOnlyPut (Journaled.calls s' [.put pairD1, .put pairAc2]).entries := by
  obtain ⟨files, m, hfiles, -⟩ := exists_pairFiles
  obtain ⟨s, hs, hgets, -⟩ := cache_writes_iff one_le_two files
  obtain ⟨d, -, hsilent⟩ := hgets hfiles
  obtain ⟨s', hs', -, hcalls⟩ := cache_writes_iff (le_refl 1) fun _ => none
  refine ⟨files, s, s', hfiles, hs, (hsilent [pairD1, pairAc2]).2 ?_, hs',
    (hcalls [.put pairD1, .put pairAc2]).1.1 ⟨?_, fun t ht => ⟨?_, fun _ _ => trivial⟩⟩⟩
  · exact (List.toFinset_card_le _).trans (List.length_filter_le ..)
  · -- nothing has been entered yet
    intro p _ honly
    cases honly
  · -- the victim was set by the first PUT
    have hentries : (Journaled.step s' (.put pairD1)).entries =
        [.entered pairD1.key, .put pairD1.key] := by
      obtain rfl := Except.ok.inj hs'
      decide +kernel
    intro p _ honly
    rw [hentries, List.nil_append] at honly
    by_cases hkey : (pairD1.key == (t.cache.message p).key) = true <;>
      simp [OnlyRead, lastTouch, CacheEvent.touches, hkey] at honly

/-- One node, and a store of two keys: the second GET writes the first key back. -/
theorem reads_write_back :
    ∃ files s, WellFormedFiles files ∧ start 1 files = .ok s ∧
      (∃ m, .writeToDb m ∈ (Journaled.calls s [.get pairD1, .get pairAc2]).entries) ∧
      ¬ WritesOnlyPut (Journaled.calls s [.get pairD1, .get pairAc2]).entries := by
  have hne := triple_ne pairAc2_hash2.1
  obtain ⟨files, m, hfiles, hrep, hd, hac⟩ := exists_pairFiles
  obtain ⟨s, hs, -, hreps, hn⟩ := start_spec (le_refl 1) hrep
  obtain ⟨s', hs', ht⟩ := tracked_start (le_refl 1) files
  obtain rfl := Except.ok.inj (hs.symm.trans hs')
  have hread := gets_entries ht [pairD1, pairAc2]
  -- the two keys do not fit
  have hstored : ¬ ∀ e ∈ (Journaled.calls s ([pairD1, pairAc2].map .get)).entries,
      ¬ e.IsStoreCall := by
    rw [gets_silent_iff hreps hn Nat.one_pos]
    have hkey : pairD1.key ≠ pairAc2.key := fun heq => hne (congrArg tripleOf heq.symm)
    rw [show cachedKeys s.cache _ = ∅ from rfl, Finset.empty_union, storedKeys_cons,
      storedKeys_of_some, storedKeys_of_some, ← Finset.insert_eq, Finset.card_pair hkey]
    · decide
    · exact Option.isSome_iff_exists.2 ⟨_, hac⟩
    · exact Option.isSome_iff_exists.2 ⟨_, hd⟩
  simp only [not_forall, not_not] at hstored
  obtain ⟨e, he, hcall⟩ := hstored
  have hwrite : ∃ m, e = .writeToDb m := by
    have hr := hread e he
    cases e <;> first | exact ⟨_, rfl⟩ | exact hr.elim | exact hcall.elim
  obtain ⟨m, rfl⟩ := hwrite
  refine ⟨files, s, hfiles, hs, ⟨m, he⟩, ?_⟩
  intro hall
  obtain ⟨before, after, hsplit⟩ := List.append_of_mem he
  have hput := List.mem_of_getLast? (hall before m after hsplit)
  exact hread (.put m.key) (hsplit ▸ List.mem_append_left _ (List.mem_filter.1 hput).1)

end KVState

end KeyValueStore
