import Mathlib.Data.List.Perm.Subperm
import KeyValueStore.Cache

/-!
# The representation invariant of the cache

A `Layout` says which nodes are linked, in which order they lie on the buckets and on the LRU
queues, and which nodes the pool holds. `Wf c L held` says that the heap of `c` is laid out as `L`;
`held` are the nodes on their way between pool and lists.

There is one lemma for each thing an operation does to the cache. None of them unfolds a list
routine: those are the edits of `DoublyLinked.Family`.
-/

namespace KeyValueStore

open DoublyLinked

namespace KVCache

/-- The buckets, as lists over common link maps. -/
def buckets (c : KVCache) : Family Nat NodePtr :=
  ⟨fun h => (c.hashTable h).head, fun h => (c.hashTable h).tail, c.l1Left, c.l1Right⟩

/-- The LRU queues, as lists over common link maps. -/
def queues (c : KVCache) : Family Nat NodePtr :=
  ⟨fun q => (c.lruEvictionTable q).head, fun q => (c.lruEvictionTable q).tail, c.l2Prev, c.l2Next⟩

variable (c : KVCache) (h q : Nat) (d : Links NodePtr) (p : NodePtr)

@[simp] theorem setDirtyBit_dirtyBit (b : DirtyBit) :
    (c.setDirtyBit p b).dirtyBit = Function.update c.dirtyBit p b := rfl

@[simp] theorem setMessage_message (m : KVMessage) :
    (c.setMessage p m).message = Function.update c.message p m := rfl

@[simp] theorem setAll_message (m : KVMessage) (i : Nat) : (c.setAll p m i).message =
    Function.update c.message p { m with statusCode := (c.message p).statusCode } := rfl

@[simp] theorem setAll_lruIdx (m : KVMessage) (i : Nat) :
    (c.setAll p m i).lruIdx = Function.update c.lruIdx p i := rfl

@[simp] theorem setAll_dirtyBit (m : KVMessage) (i : Nat) :
    (c.setAll p m i).dirtyBit = Function.update c.dirtyBit p .dirty := rfl

theorem fill_message_self (m : KVMessage) : (c.fill m p).2.message p =
    { m with statusCode := (c.message p).statusCode } := Function.update_self ..

theorem fill_message_of_ne (m : KVMessage) {x : NodePtr} (hx : x ≠ p) :
    (c.fill m p).2.message x = c.message x := Function.update_of_ne hx _ _

theorem fill_lruIdx_self (m : KVMessage) : (c.fill m p).2.lruIdx p = (c.fill m p).1 :=
  Function.update_self ..

theorem fill_dirtyBit_self (m : KVMessage) : (c.fill m p).2.dirtyBit p = .dirty :=
  Function.update_self ..

theorem buckets_setBucket : (c.setBucket h d).buckets = c.buckets.set h d := by
  simp only [buckets, setBucket, Family.set, Family.mk.injEq, and_true]
  constructor <;>
  · funext i
    by_cases hi : i = h
    · rw [hi, Function.update_self, Function.update_self]
    · rw [Function.update_of_ne hi, Function.update_of_ne hi]

theorem queues_setQueue : (c.setQueue q d).queues = c.queues.set q d := by
  simp only [queues, setQueue, Family.set, Family.mk.injEq, and_true]
  constructor <;>
  · funext i
    by_cases hi : i = q
    · rw [hi, Function.update_self, Function.update_self]
    · rw [Function.update_of_ne hi, Function.update_of_ne hi]

end KVCache

/-- Where the nodes of a cache are. -/
structure Layout where
  linked : List NodePtr
  bucket : Nat → List NodePtr
  queue : Nat → List NodePtr
  free : List NodePtr

/-- The cache is laid out as `L`, and `held` are the nodes that are neither linked nor free. -/
structure Wf (c : KVCache) (L : Layout) (held : List NodePtr) : Prop where
  buckets : c.buckets.Rep L.bucket
  queues : c.queues.Rep L.queue
  mem_bucket : ∀ h p, p ∈ L.bucket h ↔ p ∈ L.linked ∧ hashTableIdx (c.message p) = h
  mem_queue : ∀ q p, p ∈ L.queue q ↔ p ∈ L.linked ∧ c.lruIdx p = q
  queue_lt : ∀ p ∈ L.linked, c.lruIdx p < c.lruTableSize
  hashed : ∀ p ∈ L.linked, (c.message p).triple = tripleOf (c.message p).key
  present : ∀ p ∈ L.linked, c.dirtyBit p = .dirty ∨ c.dirtyBit p = .toDelete
  pool : c.cacheNodeMemoryPool.Rep L.free
  owned : (L.linked ++ held ++ L.free).Perm (List.range c.cacheNodeMemoryPool.allocated)
  blockSize_pos : 0 < c.cacheNodeMemoryPool.blockSize
  tableSize_pos : 0 < c.lruTableSize
  tableSize_le : c.lruTableSize ≤ cacheTableLen

/-- A step that changes no node's content and no pool. -/
structure SameNodes (c c' : KVCache) : Prop where
  message : c'.message = c.message
  dirtyBit : c'.dirtyBit = c.dirtyBit
  lruIdx : c'.lruIdx = c.lruIdx
  lruTableSize : c'.lruTableSize = c.lruTableSize
  pool : c'.cacheNodeMemoryPool = c.cacheNodeMemoryPool

variable {c : KVCache} {L : Layout} {held : List NodePtr} {p q : NodePtr} {ptr : KVMessage}

namespace Wf

/-! ## Consequences -/

theorem nodup (h : Wf c L held) : (L.linked ++ held ++ L.free).Nodup :=
  h.owned.nodup_iff.2 List.nodup_range

theorem linked_nodup (h : Wf c L held) : L.linked.Nodup :=
  (List.nodup_append.1 (List.nodup_append.1 h.nodup).1).1

theorem not_linked_of_held (h : Wf c L held) (hp : p ∈ held) : p ∉ L.linked := fun hl =>
  (List.nodup_append.1 (List.nodup_append.1 h.nodup).1).2.2 p hl p hp rfl

theorem not_linked_of_free (h : Wf c L held) (hp : p ∈ L.free) : p ∉ L.linked := fun hl =>
  (List.nodup_append.1 h.nodup).2.2 p (List.mem_append_left _ hl) p hp rfl

theorem count (h : Wf c L held) :
    L.linked.length + held.length + L.free.length = c.cacheNodeMemoryPool.allocated := by
  have hlen := h.owned.length_eq
  rwa [List.length_append, List.length_append, List.length_range] at hlen

theorem notInCache_ne (h : Wf c L held) (hp : p ∈ L.linked) : c.dirtyBit p ≠ .notInCache := by
  rcases h.present p hp with hd | hd <;> rw [hd] <;> decide

theorem bucket_subset (h : Wf c L held) (i : Nat) : ∀ p ∈ L.bucket i, p ∈ L.linked := fun p hp =>
  ((h.mem_bucket i p).1 hp).1

theorem not_mem_bucket (h : Wf c L held) (hp : p ∉ L.linked) (i : Nat) : p ∉ L.bucket i :=
  fun hm => hp ((h.mem_bucket i p).1 hm).1

theorem not_mem_queue (h : Wf c L held) (hp : p ∉ L.linked) (i : Nat) : p ∉ L.queue i :=
  fun hm => hp ((h.mem_queue i p).1 hm).1

theorem tail_eq (h : Wf c L held) (i : Nat) :
    (c.lruEvictionTable i).tail = (L.queue i).getLast? := (h.queues.rep i).tail_eq

theorem head_eq (h : Wf c L held) (i : Nat) :
    (c.lruEvictionTable i).head = (L.queue i).head? := (h.queues.rep i).head_eq

theorem tail_linked (h : Wf c L held) {i : Nat} (hp : (c.lruEvictionTable i).tail = some p) :
    p ∈ L.linked ∧ c.lruIdx p = i := by
  rw [h.tail_eq] at hp
  exact (h.mem_queue i p).1 (List.mem_of_getLast? hp)

/-! ## The search -/

theorem findFrom_eq {prev : NodePtr → Option NodePtr} {b o l : Option NodePtr}
    {xs : List NodePtr} {fuel : Nat} (h : Seg prev c.l1Right b o xs l none)
    (hfuel : xs.length ≤ fuel) :
    c.findFrom ptr fuel o = .ok (xs.find? fun p => entryEquals (c.message p) ptr) := by
  induction xs generalizing b o fuel with
  | nil =>
    rw [h.1]
    cases fuel <;> rfl
  | cons x xs ih =>
    cases fuel with
    | zero => simp at hfuel
    | succ fuel =>
      rw [h.1, KVCache.findFrom, List.find?_cons]
      by_cases hx : entryEquals (c.message x) ptr = true
      · rw [if_pos hx, hx]
      · rw [if_neg hx, Bool.eq_false_iff.2 hx]
        exact ih h.2.2 (by simpa using hfuel)

/-- **The search walks the bucket to its end.** -/
theorem findEntry_eq (h : Wf c L held) (ptr : KVMessage) :
    c.findEntry ptr =
      .ok ((L.bucket (hashTableIdx ptr)).find? fun p => entryEquals (c.message p) ptr) := by
  have hrep := h.buckets.rep (hashTableIdx ptr)
  apply findFrom_eq hrep.1
  have hsub : L.bucket (hashTableIdx ptr) ⊆ L.linked := h.bucket_subset _
  have hle := (List.Nodup.subperm hrep.2 hsub).length_le
  have := h.count
  omega

/-- A search that finds a node finds a linked one with the message's triple. -/
theorem findEntry_some (h : Wf c L held) (hf : c.findEntry ptr = .ok (some p)) :
    p ∈ L.linked ∧ (c.message p).triple = ptr.triple := by
  rw [h.findEntry_eq] at hf
  have hfind := Except.ok.inj hf
  have hmatch : entryEquals (c.message p) ptr = true :=
    List.find?_some (p := fun p => entryEquals (c.message p) ptr) hfind
  exact ⟨h.bucket_subset _ p (List.mem_of_find?_eq_some hfind), entryEquals_iff.1 hmatch⟩

theorem findEntry_none (h : Wf c L held) (hf : c.findEntry ptr = .ok none) :
    ∀ p ∈ L.linked, (c.message p).triple ≠ ptr.triple := by
  intro p hp heq
  rw [h.findEntry_eq] at hf
  have hnone := List.find?_eq_none.1 (Except.ok.inj hf) p
    ((h.mem_bucket _ p).2 ⟨hp, congrArg (fun t => t.hash1.toNat % cacheTableLen) heq⟩)
  exact hnone (entryEquals_iff.2 heq)

theorem findEntry_ok (h : Wf c L held) (ptr : KVMessage) : ∃ r, c.findEntry ptr = .ok r :=
  ⟨_, h.findEntry_eq ptr⟩

/-! ## Steps that keep the layout -/

theorem setCounters (h : Wf c L held) (i j : Nat) :
    Wf { c with lruEvictionIdx := i, lruTableInsertIdx := j } L held :=
  ⟨h.buckets, h.queues, h.mem_bucket, h.mem_queue, h.queue_lt, h.hashed, h.present, h.pool, h.owned,
    h.blockSize_pos, h.tableSize_pos, h.tableSize_le⟩

theorem setDirtyBit (h : Wf c L held) {b : DirtyBit} (hb : b = .dirty ∨ b = .toDelete) :
    Wf (c.setDirtyBit p b) L held where
  buckets := h.buckets
  queues := h.queues
  mem_bucket := h.mem_bucket
  mem_queue := h.mem_queue
  queue_lt := h.queue_lt
  hashed := h.hashed
  present x hx := by
    by_cases hxp : x = p
    · rw [hxp, KVCache.setDirtyBit_dirtyBit, Function.update_self]
      exact hb
    · rw [KVCache.setDirtyBit_dirtyBit, Function.update_of_ne hxp]
      exact h.present x hx
  pool := h.pool
  owned := h.owned
  blockSize_pos := h.blockSize_pos
  tableSize_pos := h.tableSize_pos
  tableSize_le := h.tableSize_le

theorem setMessage (h : Wf c L held) {m : KVMessage} (hm : m.triple = (c.message p).triple) :
    Wf (c.setMessage p m) L held := by
  have htriple : ∀ x, ((c.setMessage p m).message x).triple = (c.message x).triple := by
    intro x
    by_cases hxp : x = p
    · rw [hxp, KVCache.setMessage_message, Function.update_self, hm]
    · rw [KVCache.setMessage_message, Function.update_of_ne hxp]
  have hhash : ∀ x, ((c.setMessage p m).message x).hash1 = (c.message x).hash1 := fun x =>
    congrArg Triple.hash1 (htriple x)
  have hkey : ∀ x, ((c.setMessage p m).message x).key = (c.message x).key := fun x =>
    congrArg Triple.key (htriple x)
  exact {
    buckets := h.buckets
    queues := h.queues
    mem_bucket := fun i x => by rw [hashTableIdx, hhash x]; exact h.mem_bucket i x
    mem_queue := h.mem_queue
    queue_lt := h.queue_lt
    hashed := fun x hx => by rw [htriple x, hkey x]; exact h.hashed x hx
    present := h.present
    pool := h.pool
    owned := h.owned
    blockSize_pos := h.blockSize_pos
    tableSize_pos := h.tableSize_pos
    tableSize_le := h.tableSize_le }

theorem setValue (h : Wf c L held) (v : Chars256) : Wf (c.setValue p v) L held := h.setMessage rfl

theorem setAll (h : Wf c L held) (hp : p ∉ L.linked) (m : KVMessage) (i : Nat) :
    Wf (c.setAll p m i) L held where
  buckets := by
    refine h.buckets.congr (fun _ => rfl) (fun _ => rfl) (fun j y hy => ?_) fun j y hy => ?_
    · exact Function.update_of_ne (ne_of_mem_of_not_mem hy (h.not_mem_bucket hp j)) _ _
    · exact Function.update_of_ne (ne_of_mem_of_not_mem hy (h.not_mem_bucket hp j)) _ _
  queues := by
    refine h.queues.congr (fun _ => rfl) (fun _ => rfl) (fun j y hy => ?_) fun j y hy => ?_
    · exact Function.update_of_ne (ne_of_mem_of_not_mem hy (h.not_mem_queue hp j)) _ _
    · exact Function.update_of_ne (ne_of_mem_of_not_mem hy (h.not_mem_queue hp j)) _ _
  mem_bucket j x := by
    rw [h.mem_bucket]
    refine and_congr_right fun hx => ?_
    rw [KVCache.setAll_message, Function.update_of_ne (ne_of_mem_of_not_mem hx hp)]
  mem_queue j x := by
    rw [h.mem_queue]
    refine and_congr_right fun hx => ?_
    rw [KVCache.setAll_lruIdx, Function.update_of_ne (ne_of_mem_of_not_mem hx hp)]
  queue_lt x hx := by
    rw [KVCache.setAll_lruIdx, Function.update_of_ne (ne_of_mem_of_not_mem hx hp)]
    exact h.queue_lt x hx
  hashed x hx := by
    rw [KVCache.setAll_message, Function.update_of_ne (ne_of_mem_of_not_mem hx hp)]
    exact h.hashed x hx
  present x hx := by
    rw [KVCache.setAll_dirtyBit, Function.update_of_ne (ne_of_mem_of_not_mem hx hp)]
    exact h.present x hx
  pool := h.pool
  owned := h.owned
  blockSize_pos := h.blockSize_pos
  tableSize_pos := h.tableSize_pos
  tableSize_le := h.tableSize_le

theorem fill (h : Wf c L held) (hp : p ∈ held) (ptr : KVMessage) : Wf (c.fill ptr p).2 L held :=
  (h.setCounters c.lruEvictionIdx ((c.lruTableInsertIdx + 1) % c.lruTableSize)).setAll
    (h.not_linked_of_held hp) ptr _

theorem fill_lt (h : Wf c L held) (p : NodePtr) (ptr : KVMessage) :
    (c.fill ptr p).1 < (c.fill ptr p).2.lruTableSize := Nat.mod_lt _ h.tableSize_pos

/-! ## Steps that change the layout -/

/-- The queue of a node with that node moved to its head. -/
def touched (c : KVCache) (L : Layout) (p : NodePtr) : Layout :=
  { L with queue := Function.update L.queue (c.lruIdx p) (p :: (L.queue (c.lruIdx p)).erase p) }

/-- **Moving a node to the head of its queue.** -/
theorem moveToHeadLRU (h : Wf c L held) (hp : p ∈ L.linked) :
    ∃ c', c.moveToHeadLRU p = .ok c' ∧ Wf c' (touched c L p) held ∧ SameNodes c c' := by
  have hmem : p ∈ L.queue (c.lruIdx p) := (h.mem_queue _ p).2 ⟨hp, rfl⟩
  refine ⟨_, if_pos (h.queue_lt p hp), ?_, rfl, rfl, rfl, rfl, rfl⟩
  exact {
    buckets := h.buckets
    queues := by
      rw [KVCache.queues_setQueue]
      exact h.queues.moveToFront hmem
    mem_bucket := h.mem_bucket
    mem_queue := fun q x => by
      show x ∈ Function.update L.queue (c.lruIdx p) _ q ↔ x ∈ L.linked ∧ c.lruIdx x = q
      rw [← h.mem_queue]
      by_cases hq : q = c.lruIdx p
      · rw [hq, Function.update_self]
        exact (List.perm_cons_erase hmem).mem_iff.symm
      · rw [Function.update_of_ne hq]
    queue_lt := h.queue_lt
    hashed := h.hashed
    present := h.present
    pool := h.pool
    owned := h.owned
    blockSize_pos := h.blockSize_pos
    tableSize_pos := h.tableSize_pos
    tableSize_le := h.tableSize_le }

def unlinked (c : KVCache) (L : Layout) (p : NodePtr) : Layout where
  linked := L.linked.erase p
  bucket := Function.update L.bucket (hashTableIdx (c.message p))
    ((L.bucket (hashTableIdx (c.message p))).erase p)
  queue := Function.update L.queue (c.lruIdx p) ((L.queue (c.lruIdx p)).erase p)
  free := L.free

theorem mem_update_erase {B : Nat → List NodePtr} {i j : Nat} {x : NodePtr} (hnd : (B i).Nodup)
    (hp : ∀ j, p ∈ B j → j = i) :
    x ∈ Function.update B i ((B i).erase p) j ↔ x ∈ B j ∧ x ≠ p := by
  by_cases hj : j = i
  · rw [hj, Function.update_self, hnd.mem_erase_iff]
    exact and_comm
  · rw [Function.update_of_ne hj]
    refine ⟨fun hx => ⟨hx, fun hxp => hj (hp j (hxp ▸ hx))⟩, fun hx => hx.1⟩

/-- **Unlinking a node** from its bucket and its queue. -/
theorem unlink (h : Wf c L held) (hp : p ∈ L.linked) :
    Wf ((c.removeFromDllHT (hashTableIdx (c.message p)) p).removeFromDllLRU (c.lruIdx p) p)
      (unlinked c L p) (p :: held) := by
  have hbucket : p ∈ L.bucket (hashTableIdx (c.message p)) := (h.mem_bucket _ p).2 ⟨hp, rfl⟩
  have hqueue : p ∈ L.queue (c.lruIdx p) := (h.mem_queue _ p).2 ⟨hp, rfl⟩
  have hlinked : ∀ x, x ∈ L.linked.erase p ↔ x ∈ L.linked ∧ x ≠ p := by
    intro x
    rw [h.linked_nodup.mem_erase_iff]
    exact and_comm
  have hsub : ∀ x, x ∈ L.linked.erase p → x ∈ L.linked := fun x hx => ((hlinked x).1 hx).1
  exact {
    buckets := by
      show (c.removeFromDllHT (hashTableIdx (c.message p)) p).buckets.Rep _
      rw [KVCache.removeFromDllHT, KVCache.buckets_setBucket]
      exact h.buckets.unlink hbucket
    queues := by
      rw [KVCache.removeFromDllLRU, KVCache.queues_setQueue]
      exact h.queues.unlink hqueue
    mem_bucket := fun i x => by
      rw [unlinked,
        mem_update_erase (h.buckets.rep _).2 fun j hj => ((h.mem_bucket j p).1 hj).2.symm,
        h.mem_bucket, hlinked]
      exact and_right_comm
    mem_queue := fun i x => by
      rw [unlinked,
        mem_update_erase (h.queues.rep _).2 fun j hj => ((h.mem_queue j p).1 hj).2.symm,
        h.mem_queue, hlinked]
      exact and_right_comm
    queue_lt := fun x hx => h.queue_lt x (hsub x hx)
    hashed := fun x hx => h.hashed x (hsub x hx)
    present := fun x hx => h.present x (hsub x hx)
    pool := h.pool
    owned := by
      refine List.Perm.trans (List.Perm.append_right _ ?_) h.owned
      exact List.perm_middle.trans ((List.perm_cons_erase hp).symm.append_right held)
    blockSize_pos := h.blockSize_pos
    tableSize_pos := h.tableSize_pos
    tableSize_le := h.tableSize_le }

def linkedIn (L : Layout) (h q : Nat) (p : NodePtr) : Layout where
  linked := p :: L.linked
  bucket := Function.update L.bucket h (p :: L.bucket h)
  queue := Function.update L.queue q (p :: L.queue q)
  free := L.free

theorem mem_update_cons {B : Nat → List NodePtr} {i j : Nat} {x : NodePtr} :
    x ∈ Function.update B i (p :: B i) j ↔ x ∈ B j ∨ (x = p ∧ j = i) := by
  by_cases hj : j = i
  · rw [hj, Function.update_self, List.mem_cons]
    tauto
  · rw [Function.update_of_ne hj]
    tauto

/-- **Linking a held node in**, at the heads of its bucket and its queue. -/
theorem link (h : Wf c L held) (hp : p ∈ held) (hq : c.lruIdx p < c.lruTableSize)
    (hhash : (c.message p).triple = tripleOf (c.message p).key)
    (hdirty : c.dirtyBit p = .dirty ∨ c.dirtyBit p = .toDelete) :
    Wf (c.link (hashTableIdx (c.message p)) (c.lruIdx p) p)
      (linkedIn L (hashTableIdx (c.message p)) (c.lruIdx p) p) (held.erase p) := by
  have hout := h.not_linked_of_held hp
  exact {
    -- the new node is the head of its two lists; the others stay in theirs
    buckets := by
      show (c.insertToHeadHT (hashTableIdx (c.message p)) p).buckets.Rep _
      rw [KVCache.insertToHeadHT, KVCache.buckets_setBucket]
      exact h.buckets.pushFront (h.not_mem_bucket hout)
    queues := by
      rw [KVCache.link, KVCache.insertToHeadLRU, KVCache.queues_setQueue]
      exact h.queues.pushFront (h.not_mem_queue hout)
    mem_bucket := fun i x => by
      rw [linkedIn, mem_update_cons, h.mem_bucket, List.mem_cons]
      show _ ↔ _ ∧ hashTableIdx (c.message x) = i
      constructor
      · rintro (hx | ⟨rfl, rfl⟩)
        · exact ⟨Or.inr hx.1, hx.2⟩
        · exact ⟨Or.inl rfl, rfl⟩
      · rintro ⟨rfl | hx, hi⟩
        · exact Or.inr ⟨rfl, hi.symm⟩
        · exact Or.inl ⟨hx, hi⟩
    mem_queue := fun i x => by
      rw [linkedIn, mem_update_cons, h.mem_queue, List.mem_cons]
      show _ ↔ _ ∧ c.lruIdx x = i
      constructor
      · rintro (hx | ⟨rfl, rfl⟩)
        · exact ⟨Or.inr hx.1, hx.2⟩
        · exact ⟨Or.inl rfl, rfl⟩
      · rintro ⟨rfl | hx, hi⟩
        · exact Or.inr ⟨rfl, hi.symm⟩
        · exact Or.inl ⟨hx, hi⟩
    queue_lt := fun x hx => by
      rcases List.mem_cons.1 hx with rfl | hx
      · exact hq
      · exact h.queue_lt x hx
    hashed := fun x hx => by
      rcases List.mem_cons.1 hx with rfl | hx
      · exact hhash
      · exact h.hashed x hx
    present := fun x hx => by
      rcases List.mem_cons.1 hx with rfl | hx
      · exact hdirty
      · exact h.present x hx
    pool := h.pool
    -- it moves from the held nodes to the linked ones
    owned := by
      refine List.Perm.trans (List.Perm.append_right _ ?_) h.owned
      exact List.perm_middle.symm.trans ((List.perm_cons_erase hp).symm.append_left L.linked)
    blockSize_pos := h.blockSize_pos
    tableSize_pos := h.tableSize_pos
    tableSize_le := h.tableSize_le }

theorem setPool (h : Wf c L held) {pool : MemoryPool} {free held' : List NodePtr}
    (hrep : pool.Rep free) (hbs : pool.blockSize = c.cacheNodeMemoryPool.blockSize)
    (howned : (L.linked ++ held' ++ free).Perm (List.range pool.allocated)) :
    Wf { c with cacheNodeMemoryPool := pool } { L with free := free } held' :=
  ⟨h.buckets, h.queues, h.mem_bucket, h.mem_queue, h.queue_lt, h.hashed, h.present, hrep, howned,
    hbs ▸ h.blockSize_pos, h.tableSize_pos, h.tableSize_le⟩

/-- **Acquiring a node.** A pool with free nodes allocates none. -/
theorem acquireInstance (h : Wf c L held) :
    ∃ p pool free', c.acquireInstance = .ok (some p, { c with cacheNodeMemoryPool := pool }) ∧
      Wf { c with cacheNodeMemoryPool := pool } { L with free := free' } (p :: held) ∧
      (L.free ≠ [] → pool.allocated = c.cacheNodeMemoryPool.allocated) := by
  have hcount := h.count
  obtain ⟨p, pool, free', hacq, hrep, hbs, hcase⟩ :=
    h.pool.acquireInstance (by omega) h.blockSize_pos
  have hperm : ∀ free,
      (L.linked ++ (p :: held) ++ free).Perm (L.linked ++ held ++ (free ++ [p])) := by
    intro free
    have h₁ : (L.linked ++ (p :: held) ++ free).Perm (p :: (L.linked ++ held ++ free)) :=
      List.perm_middle.append_right free
    have h₂ : (p :: (L.linked ++ held ++ free)).Perm ((L.linked ++ held ++ free) ++ [p]) :=
      (List.perm_append_singleton _ _).symm
    rw [← List.append_assoc]
    exact h₁.trans h₂
  refine ⟨p, pool, free', ?_, h.setPool hrep hbs ((hperm free').trans ?_), ?_⟩
  · rw [KVCache.acquireInstance, hacq]
    rfl
  · rcases hcase with ⟨-, hsplit, hblocks⟩ | ⟨hnil, hsplit, hblocks⟩
    · rw [← hsplit, MemoryPool.allocated, hblocks, hbs]
      exact h.owned
    · have hold := h.owned
      rw [hnil, List.append_nil] at hold
      have halloc : pool.allocated =
          c.cacheNodeMemoryPool.allocated + c.cacheNodeMemoryPool.blockSize := by
        rw [MemoryPool.allocated, hblocks, hbs, Nat.succ_mul]
        rfl
      rw [← hsplit, halloc, List.range_eq_range', ← List.range'_append_1, Nat.zero_add,
        ← List.range_eq_range']
      exact hold.append_right _
  · intro hfree
    rcases hcase with ⟨-, -, hblocks⟩ | ⟨hnil, -⟩
    · rw [MemoryPool.allocated, hblocks, hbs]
      rfl
    · exact absurd hnil hfree

/-- **Releasing a held node.** -/
theorem releaseInstance (h : Wf c L held) (hp : p ∈ held) :
    ∃ pool, c.releaseInstance p = .ok { c with cacheNodeMemoryPool := pool } ∧
      Wf { c with cacheNodeMemoryPool := pool } { L with free := L.free ++ [p] } (held.erase p) ∧
      pool.allocated = c.cacheNodeMemoryPool.allocated := by
  have hcount := h.count
  have hroom := h.pool.room
  have hlen : 0 < held.length := List.length_pos_of_mem hp
  obtain ⟨pool, hpush, hrep, -, hblocks, hbs⟩ := h.pool.push (by omega) p
  have halloc : pool.allocated = c.cacheNodeMemoryPool.allocated := by
    rw [MemoryPool.allocated, hblocks, hbs]
    rfl
  refine ⟨pool, ?_, h.setPool hrep hbs ?_, halloc⟩
  · rw [KVCache.releaseInstance, MemoryPool.releaseInstance, hpush]
    rfl
  · rw [halloc]
    refine List.Perm.trans ?_ h.owned
    have hheld : held.Perm (held.erase p ++ [p]) :=
      (List.perm_cons_erase hp).trans (List.perm_append_singleton _ _).symm
    have hmove : (held.erase p ++ (L.free ++ [p])).Perm ((held.erase p ++ [p]) ++ L.free) := by
      rw [List.append_assoc]
      exact List.perm_append_comm.append_left _
    rw [List.append_assoc, List.append_assoc]
    exact (hmove.trans (hheld.symm.append_right _)).append_left _

/-- **A new cache** is empty, and its pool holds `cache_size` nodes. -/
theorem new {cacheSize : Nat} (hsize : 0 < cacheSize) :
    ∃ c, KVCache.new cacheSize = .ok c ∧
      Wf c ⟨[], fun _ => [], fun _ => [], List.range cacheSize⟩ [] ∧
      c.cacheNodeMemoryPool.allocated = cacheSize := by
  obtain ⟨pool, hpool, hrep, hblocks, hbs⟩ := MemoryPool.rep_init cacheSize 2
  have halloc : pool.allocated = cacheSize := by
    rw [MemoryPool.allocated, hblocks, hbs, Nat.one_mul]
  refine ⟨_, by rw [KVCache.new, hpool]; rfl, ?_, halloc⟩
  exact {
    buckets := ⟨fun i => ⟨⟨rfl, rfl⟩, List.nodup_nil⟩, by simp⟩
    queues := ⟨fun i => ⟨⟨rfl, rfl⟩, List.nodup_nil⟩, by simp⟩
    mem_bucket := by simp
    mem_queue := by simp
    queue_lt := by simp
    hashed := by simp
    present := by simp
    pool := hrep
    owned := by rw [halloc]; exact List.Perm.refl _
    blockSize_pos := by rw [hbs]; exact hsize
    tableSize_pos := by
      show 0 < if _ then _ else _
      split_ifs <;> decide
    tableSize_le := by
      show (if _ then _ else _) ≤ cacheTableLen
      split_ifs <;> decide }

end Wf

end KeyValueStore
