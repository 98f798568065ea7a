import KeyValueStore.StoreRefinement

/-!
# Runs of the store

Any sequence of calls of `read_from_db`, `write_to_db` and `delete_from_db`, from a directory
without files. The specification is a finite map keyed by `(hash1, hash2, key)`.

* `store_refines_map` — the answers are those of the map, and so is every later read.
* `reachable_files` — every file reached is well formed, and the loops of the three operations
  end on it without leaving it.

A run can be cut short by one thing only: the operating system refuses to extend a file past the
largest file offset.
-/

namespace KeyValueStore

open Run

/-- A call of the store. -/
inductive StoreCall
  | read (ptr : KVMessage)
  | write (ptr : KVMessage)
  | delete (ptr : KVMessage)

/-- What a call returns. A read also returns the message, whose value it may have set. -/
inductive StoreAnswer
  | read (found : Bool) (ptr : KVMessage)
  | written
  | deleted (found : Bool)
deriving DecidableEq

def KVStore.call (s : KVStore) : StoreCall → Except Fault (StoreAnswer × KVStore)
  | .read ptr => do
    let (found, ptr) ← s.readFromDb ptr
    return (.read found ptr, s)
  | .write ptr => do
    let s ← s.writeToDb ptr
    return (.written, s)
  | .delete ptr => do
    let (found, s) ← s.deleteFromDb ptr
    return (.deleted found, s)

/-- The same call on a finite map. -/
def mapCall (m : Triple → Option Chars256) : StoreCall → StoreAnswer × (Triple → Option Chars256)
  | .read ptr => (.read (readAnswer m ptr).1 (readAnswer m ptr).2, m)
  | .write ptr => (.written, Function.update m ptr.triple (some ptr.value))
  | .delete ptr => (.deleted (m ptr.triple).isSome, Function.update m ptr.triple none)

/-! ## Starting the store -/

/-- Every database file of the directory has the invariant. -/
def WellFormedFiles (files : Nat → Option (List UInt8)) : Prop :=
  ∀ num < hashTableLen, ∀ f, files num = some f → ∃ chain, FileInv num f chain

theorem wellFormedFiles_none : WellFormedFiles fun _ => none := by
  intro num _ f hf
  cases hf

/-- A file with the invariant holds a map: no triple occurs twice. -/
theorem FileInv.exists_stores {num : Nat} {f : List UInt8} {chain : Nat → Option (List Nat)}
    (h : FileInv num f chain) : ∃ m, Stores num f chain m := by
  have hlookup : ∀ t : Triple, ∃ o : Option Chars256,
      ∀ v, o = some v ↔ (t, v) ∈ contents (entryAt f) t.slot (chain t.slot) := by
    intro t
    by_cases hin : ∃ v, (t, v) ∈ contents (entryAt f) t.slot (chain t.slot)
    · obtain ⟨v, hv⟩ := hin
      refine ⟨some v, fun w => ⟨fun hw => Option.some.inj hw ▸ hv, fun hw => ?_⟩⟩
      cases hc : chain t.slot with
      | none => simp [hc, contents, slotsOf] at hv
      | some ms =>
        rw [hc, contents_some] at hv hw
        have hnd := (h.linked _ (KeyValueStore.slot_lt t) ms hc).distinct
        rw [← map_fst_pairAt] at hnd
        exact congrArg some (congrArg Prod.snd (List.inj_on_of_nodup_map hnd hv hw rfl))
    · exact ⟨none, fun w =>
        ⟨fun hw => (Option.some_ne_none w hw.symm).elim, fun hw => (hin ⟨w, hw⟩).elim⟩⟩
  choose m hm using hlookup
  exact ⟨m, fun t _ v => hm t v⟩

/-- **`init_kvstore`** on well-formed files gives a store that holds a map. -/
theorem WellFormedFiles.exists_rep {files : Nat → Option (List UInt8)} (h : WellFormedFiles files) :
    ∃ m, StoreRep (KVStore.initKvstore files) m := by
  have hfile : ∀ num, ∃ m : Triple → Option Chars256,
      ∀ f, num < hashTableLen → files num = some f → FileRep num f m := by
    intro num
    by_cases hin : ∃ f, num < hashTableLen ∧ files num = some f
    · obtain ⟨f, hnum, hf⟩ := hin
      obtain ⟨chain, hinv⟩ := h num hnum f hf
      obtain ⟨m, hm⟩ := hinv.exists_stores
      refine ⟨m, ?_⟩
      intro g _ hg
      obtain rfl := Option.some.inj (hf.symm.trans hg)
      exact ⟨chain, hinv, hm⟩
    · exact ⟨fun _ => none, fun f hnum hf => (hin ⟨f, hnum, hf⟩).elim⟩
  choose m hm using hfile
  refine ⟨fun t => if (files t.file).isSome then m t.file t else none, ?_, ?_⟩
  · intro num hnum hbit
    have hnone : files num = none := by
      simpa [KVStore.initKvstore, hnum] using hbit
    refine ⟨hnone, ?_⟩
    intro t ht
    rw [ht, hnone]
    rfl
  · intro num hnum hbit
    have hsome : (files num).isSome = true := by
      simpa [KVStore.initKvstore, hnum] using hbit
    obtain ⟨f, hf⟩ := Option.isSome_iff_exists.1 hsome
    refine ⟨f, hf, (hm num f hnum hf).congr fun t ht => ?_⟩
    rw [ht, if_pos hsome]

/-- **A restart** keeps the map: `init_kvstore` finds the files again. -/
theorem StoreRep.restart {s : KVStore} {m : Triple → Option Chars256} (h : StoreRep s m) :
    StoreRep (KVStore.initKvstore s.files) m where
  absent num hnum hbit := by
    have hnone : s.files num = none := by
      simpa [KVStore.initKvstore, hnum] using hbit
    refine ⟨hnone, ?_⟩
    cases hold : s.fileExistsStatus num with
    | false => exact (h.absent num hnum hold).2
    | true =>
      obtain ⟨f, hf, -⟩ := h.present num hnum hold
      rw [hnone] at hf
      cases hf
  present num hnum hbit := by
    have hsome : (s.files num).isSome = true := by
      simpa [KVStore.initKvstore, hnum] using hbit
    cases hold : s.fileExistsStatus num with
    | false =>
      rw [(h.absent num hnum hold).1] at hsome
      cases hsome
    | true => exact h.present num hnum hold

/-! ## Runs from an empty directory -/

/-- The store in a directory without files. -/
def KVStore.fresh : KVStore := KVStore.initKvstore fun _ => none

theorem fresh_rep : StoreRep KVStore.fresh fun _ => none where
  absent i _ _ := ⟨rfl, fun _ _ => rfl⟩
  present i _ h := by simp [KVStore.fresh, KVStore.initKvstore] at h

theorem initKvstore_rep {num : Nat} {f : List UInt8} {m : Triple → Option Chars256}
    (hnum : num < hashTableLen) (hf : FileRep num f m)
    (hother : ∀ t : Triple, t.file ≠ num → m t = none) :
    StoreRep (KVStore.initKvstore (Function.update (fun _ => none) num (some f))) m := by
  refine holds_fileRep.1 ((holds_fileRep.2 fresh_rep).setFile num fileModel_fileRep
    (fun j hj => ?_) ?_ ?_ hf hother)
  · simp only [KVStore.fresh, KVStore.initKvstore, Function.update_of_ne hj, and_self]
  · simp [KVStore.initKvstore, hnum]
  · show Function.update (fun _ => none) num (some f) num = some f
    exact Function.update_self ..

variable {s : KVStore} {m : Triple → Option Chars256}

/-- One call of the store is one call of the map. -/
theorem Holds.call_spec {R : Nat → List UInt8 → (Triple → Option Chars256) → Prop}
    (h : Holds R s m) (hR : FileModel R) (c : StoreCall) :
    SucceedsUnlessFull (s.call c) fun r =>
      r.1 = (mapCall m c).1 ∧ Holds R r.2 (mapCall m c).2 := by
  cases c with
  | read ptr => exact Or.inr ⟨_, by rw [KVStore.call, h.readFromDb_eq hR ptr]; rfl, rfl, h⟩
  | write ptr =>
    exact (h.writeToDb_spec hR ptr).bind fun s' hs' => Excused.ok ⟨rfl, hs'⟩
  | delete ptr =>
    obtain ⟨s', hs', hrep⟩ := h.deleteFromDb_spec hR ptr
    exact Or.inr ⟨_, by rw [KVStore.call, hs']; rfl, rfl, hrep⟩

theorem Holds.calls_spec {R : Nat → List UInt8 → (Triple → Option Chars256) → Prop}
    (h : Holds R s m) (hR : FileModel R) (cs : List StoreCall) :
    SucceedsUnlessFull (calls KVStore.call s cs) fun r =>
      r.1 = (specCalls mapCall m cs).1 ∧ Holds R r.2 (specCalls mapCall m cs).2 :=
  simulation (Holds R) (fun _ _ c h => h.call_spec hR c) cs h

theorem call_spec (h : StoreRep s m) (c : StoreCall) :
    SucceedsUnlessFull (s.call c) fun r =>
      r.1 = (mapCall m c).1 ∧ StoreRep r.2 (mapCall m c).2 :=
  ((holds_fileRep.2 h).call_spec fileModel_fileRep c).mono fun _ hr =>
    ⟨hr.1, holds_fileRep.1 hr.2⟩

theorem calls_spec (h : StoreRep s m) (cs : List StoreCall) :
    SucceedsUnlessFull (calls KVStore.call s cs) fun r =>
      r.1 = (specCalls mapCall m cs).1 ∧ StoreRep r.2 (specCalls mapCall m cs).2 :=
  ((holds_fileRep.2 h).calls_spec fileModel_fileRep cs).mono fun _ hr =>
    ⟨hr.1, holds_fileRep.1 hr.2⟩

/-- **The store refines a finite map**, over any sequence of calls. -/
theorem store_refines_map (cs : List StoreCall) :
    SucceedsUnlessFull (calls KVStore.call KVStore.fresh cs) fun r =>
      r.1 = (specCalls mapCall (fun _ => none) cs).1 ∧
      ∀ ptr,
        r.2.readFromDb ptr = .ok (readAnswer (specCalls mapCall (fun _ => none) cs).2 ptr) := by
  refine (calls_spec fresh_rep cs).mono fun r hr => ?_
  exact ⟨hr.1, fun ptr => KVStore.readFromDb_eq hr.2 ptr⟩

/-- What well-formedness says of one file. -/
structure WellFormedFile (num : Nat) (f : List UInt8) (chain : Nat → Option (List Nat)) : Prop where
  inv : FileInv num f chain
  once : ∀ i < fileTableLen, ∀ ms, chain i = some ms → (i :: ms).Nodup
  disjoint : ∀ i < fileTableLen, ∀ j < fileTableLen, i ≠ j →
    ∀ x, x ∈ slotsOf i (chain i) → x ∉ slotsOf j (chain j)
  search : ∀ ptr, ∃ r, searchChain f ptr = .ok r

theorem FileInv.wellFormed {num : Nat} {f : List UInt8} {chain : Nat → Option (List Nat)}
    (h : FileInv num f chain) : WellFormedFile num f chain where
  inv := h
  once i hi ms hc := (h.linked i hi ms hc).nodup
  disjoint i hi j hj hij x hxi hxj := by
    cases hci : chain i with
    | none => simp [hci, slotsOf] at hxi
    | some ms =>
      cases hcj : chain j with
      | none => simp [hcj, slotsOf] at hxj
      | some ns =>
        rw [hci] at hxi
        rw [hcj] at hxj
        exact hij (h.disjoint hi hj hci hcj hxi hxj)
  search ptr := ⟨_, search_eq h ptr⟩

/-- **Every file reached is well formed, and the operations end on it and stay inside it.** -/
theorem reachable_files (cs : List StoreCall) :
    SucceedsUnlessFull (calls KVStore.call KVStore.fresh cs) fun r =>
      (∀ num < hashTableLen, ∀ f, r.2.files num = some f → ∃ chain, WellFormedFile num f chain) ∧
      ∀ ptr, (∃ a, r.2.readFromDb ptr = .ok a) ∧ (∃ a, r.2.deleteFromDb ptr = .ok a) ∧
        SucceedsUnlessFull (r.2.writeToDb ptr) fun _ => True := by
  refine (calls_spec fresh_rep cs).mono fun r hr => ?_
  obtain ⟨-, hrep⟩ := hr
  refine ⟨?_, fun ptr => ⟨?_, ?_, ?_⟩⟩
  · intro num hnum f hf
    cases hbit : r.2.fileExistsStatus num with
    | false =>
      rw [(hrep.absent num hnum hbit).1] at hf
      cases hf
    | true =>
      obtain ⟨f', hf', chain, hinv, -⟩ := hrep.present num hnum hbit
      obtain rfl := Option.some.inj (hf'.symm.trans hf)
      exact ⟨chain, hinv.wellFormed⟩
  · exact ⟨_, KVStore.readFromDb_eq hrep ptr⟩
  · obtain ⟨s', hs', -⟩ := KVStore.deleteFromDb_spec hrep ptr
    exact ⟨_, hs'⟩
  · exact (KVStore.writeToDb_spec hrep ptr).mono fun _ _ => trivial

end KeyValueStore
