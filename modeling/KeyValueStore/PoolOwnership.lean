import Mathlib.Data.List.Nodup
import Mathlib.Data.List.Perm.Basic
import KeyValueStore.MemoryPool

/-!
# Ownership of pool instances

Every object of every allocated block has one owner: it lies on the stack of free instances, or the
pool has handed it out. `PoolUse.Owned` says so, and `PoolUse.run_owned` that it holds after any
calls of `acquire_instance` and `release_instance` in which the pointers released are ones handed
out. No call of such a run leaves the bounds of the vector.
-/

namespace KeyValueStore

namespace MemoryPool

/-- The objects of the allocated blocks. -/
def objects (P : MemoryPool) : List NodePtr :=
  P.memoryBlockPointers.flatMap fun block => List.range' block P.blockSize

/-- `pool[0..n)` -/
def live (P : MemoryPool) : List (Option NodePtr) := (List.range P.n).map P.pool

variable {P P' : MemoryPool} {free : List NodePtr} {p : Option NodePtr}

theorem Rep.live_eq (h : Rep P free) : P.live = free.map some := by
  refine List.ext_getElem ?_ fun i hi hi' => ?_
  · rw [live, List.length_map, List.length_range, List.length_map, h.count]
  · rw [List.length_map] at hi'
    have hstack := h.stack i hi'
    rw [List.getElem?_eq_getElem hi'] at hstack
    simp [live, hstack]

/-! ## The blocks of a pool -/

theorem vecPushBack_blocks {ptr : NodePtr} (h : P.vecPushBack ptr = .ok P') :
    P'.memoryBlockPointers = P.memoryBlockPointers ∧ P'.blockSize = P.blockSize := by
  rw [vecPushBack] at h
  split_ifs at h
  cases h
  exact ⟨rfl, rfl⟩

theorem vecPopBack_blocks (h : P.vecPopBack = .ok (p, P')) :
    P'.memoryBlockPointers = P.memoryBlockPointers ∧ P'.blockSize = P.blockSize := by
  rw [vecPopBack] at h
  split_ifs at h
  cases h
  exact ⟨rfl, rfl⟩

theorem pushAll_blocks {ps : List NodePtr} (h : P.pushAll ps = .ok P') :
    P'.memoryBlockPointers = P.memoryBlockPointers ∧ P'.blockSize = P.blockSize := by
  induction ps generalizing P with
  | nil =>
    cases h
    exact ⟨rfl, rfl⟩
  | cons q ps ih =>
    rw [MemoryPool.pushAll] at h
    cases hq : P.vecPushBack q with
    | error e => rw [hq] at h; cases h
    | ok P₁ =>
      rw [hq] at h
      obtain ⟨hblocks, hbs⟩ := vecPushBack_blocks hq
      obtain ⟨hblocks', hbs'⟩ := ih h
      exact ⟨hblocks'.trans hblocks, hbs'.trans hbs⟩

theorem allocateOneBlock_blocks (h : P.allocateOneBlock = .ok P') :
    P'.memoryBlockPointers = P.memoryBlockPointers ++ [P.allocated] ∧
      P'.blockSize = P.blockSize := by
  obtain ⟨hblocks, hbs⟩ := pushAll_blocks h
  rw [hblocks, hbs]
  split_ifs <;> exact ⟨rfl, rfl⟩

theorem acquireInstance_blocks (h : P.acquireInstance = .ok (p, P')) :
    P'.blockSize = P.blockSize ∧
      P'.memoryBlockPointers =
        if P.n = 0 then P.memoryBlockPointers ++ [P.allocated] else P.memoryBlockPointers := by
  rw [MemoryPool.acquireInstance] at h
  split_ifs at h ⊢ with hn
  · cases hblock : P.allocateOneBlock with
    | error e => rw [hblock] at h; cases h
    | ok P₁ =>
      rw [hblock] at h
      obtain ⟨hblocks, hbs⟩ := allocateOneBlock_blocks hblock
      obtain ⟨hblocks', hbs'⟩ := vecPopBack_blocks h
      exact ⟨hbs'.trans hbs, hblocks'.trans hblocks⟩
  · obtain ⟨hblocks, hbs⟩ := vecPopBack_blocks h
    exact ⟨hbs, hblocks⟩

theorem objects_of_block (hblocks : P'.memoryBlockPointers = P.memoryBlockPointers ++ [P.allocated])
    (hbs : P'.blockSize = P.blockSize) (hobj : P.objects = List.range P.allocated) :
    P'.objects = P.objects ++ List.range' P.allocated P.blockSize ∧
      P'.objects = List.range P'.allocated := by
  have happend : P'.objects = P.objects ++ List.range' P.allocated P.blockSize := by
    rw [objects, hblocks, hbs, List.flatMap_append, List.flatMap_singleton]
    rfl
  refine ⟨happend, ?_⟩
  have hlen : P'.allocated = P.allocated + P.blockSize := by
    rw [allocated, hblocks, hbs, List.length_append, List.length_singleton, Nat.succ_mul]
    rfl
  rw [happend, hobj, hlen, List.range_eq_range', List.range_eq_range', ← List.range'_append_1,
    Nat.zero_add]

theorem objects_of_blocks_eq (hblocks : P'.memoryBlockPointers = P.memoryBlockPointers)
    (hbs : P'.blockSize = P.blockSize) :
    P'.objects = P.objects ∧ P'.allocated = P.allocated := by
  rw [objects, allocated, hblocks, hbs]
  exact ⟨rfl, rfl⟩

end MemoryPool

/-! ## Calls -/

inductive PoolCall
  | acquireInstance
  | releaseInstance (ptr : NodePtr)

/-- A pool and the instances that its users hold. -/
structure PoolUse where
  pool : MemoryPool
  handedOut : List NodePtr

namespace PoolUse

/-- One call. -/
def step (s : PoolUse) : PoolCall → Except Fault PoolUse
  | .acquireInstance => do
    let (ptr, P) ← s.pool.acquireInstance
    .ok ⟨P, ptr.toList ++ s.handedOut⟩
  | .releaseInstance ptr => do
    let P ← s.pool.releaseInstance ptr
    .ok ⟨P, s.handedOut.erase ptr⟩

/-- The users release only what they hold. -/
def Returns (s : PoolUse) : PoolCall → Prop
  | .acquireInstance => True
  | .releaseInstance ptr => ptr ∈ s.handedOut

/-- Every object has one owner. -/
structure Owned (s : PoolUse) : Prop where
  /-- The free instances are distinct and nobody holds them. -/
  free : ∃ free : List NodePtr, s.pool.live = free.map some ∧ free.Nodup ∧
    free.Disjoint s.handedOut ∧ (free ++ s.handedOut).Perm s.pool.objects
  /-- No instance is handed out twice. -/
  handedOut : s.handedOut.Nodup
  /-- The stack fits the vector. -/
  room : s.pool.n ≤ s.pool.poolSize

/-- What the calls preserve: the stack holds the instances that nobody holds. -/
structure Inv (s : PoolUse) (free : List NodePtr) : Prop where
  rep : s.pool.Rep free
  objects : s.pool.objects = List.range s.pool.allocated
  perm : (free ++ s.handedOut).Perm s.pool.objects
  blockSize : 0 < s.pool.blockSize

variable {s s' : PoolUse} {free : List NodePtr}

theorem Inv.nodup (h : Inv s free) : (free ++ s.handedOut).Nodup := by
  rw [h.perm.nodup_iff, h.objects]
  exact List.nodup_range

theorem Inv.length (h : Inv s free) :
    free.length + s.handedOut.length = s.pool.allocated := by
  rw [← List.length_append, h.perm.length_eq, h.objects, List.length_range]

theorem Inv.owned (h : Inv s free) : Owned s := by
  obtain ⟨hfree, hout, hdisj⟩ := List.nodup_append'.1 h.nodup
  refine ⟨⟨free, h.rep.live_eq, hfree, hdisj, h.perm⟩, hout, ?_⟩
  have hlen := h.length
  have hroom := h.rep.room
  rw [h.rep.count]
  omega

/-- **Acquiring** hands out an instance that nobody holds, from a new block only if none is free. -/
theorem Inv.acquire (h : Inv s free) :
    ∃ p P' free', s.pool.acquireInstance = .ok (some p, P') ∧ p ∉ s.handedOut ∧
      Inv ⟨P', p :: s.handedOut⟩ free' := by
  have hlen := h.length
  obtain ⟨p, P', free', hacq, hrep, -, hcase⟩ := h.rep.acquireInstance (by omega) h.blockSize
  obtain ⟨hbs, hblocks⟩ := MemoryPool.acquireInstance_blocks hacq
  rcases hcase with ⟨hne, hfree, -⟩ | ⟨hnil, hblock, -⟩
  · have hn : s.pool.n ≠ 0 := by
      rw [h.rep.count]
      exact fun h0 => hne (List.length_eq_zero_iff.1 h0)
    rw [if_neg hn] at hblocks
    obtain ⟨hobj, halloc⟩ := MemoryPool.objects_of_blocks_eq hblocks hbs
    have hnodup := h.nodup
    have hperm := h.perm
    rw [hfree, List.append_assoc, List.singleton_append] at hnodup hperm
    refine ⟨p, P', free', hacq, ?_, hrep, by rw [hobj, halloc, h.objects], by rwa [hobj],
      by rw [hbs]; exact h.blockSize⟩
    exact (List.nodup_cons.1 (List.nodup_append'.1 hnodup).2.1).1
  · rw [if_pos (by rw [h.rep.count, hnil]; rfl)] at hblocks
    obtain ⟨hobj, hrange⟩ := MemoryPool.objects_of_block hblocks hbs h.objects
    have hperm : (free' ++ p :: s.handedOut).Perm P'.objects := by
      have hout := h.perm
      rw [hnil, List.nil_append] at hout
      rw [hobj, hblock]
      calc (free' ++ p :: s.handedOut).Perm ((free' ++ [p]) ++ s.handedOut) := by
            rw [List.append_assoc, List.singleton_append]
        _ |>.Perm (s.handedOut ++ (free' ++ [p])) := List.perm_append_comm
        _ |>.Perm (s.pool.objects ++ (free' ++ [p])) := hout.append_right _
    refine ⟨p, P', free', hacq, ?_, hrep, hrange, hperm, by rw [hbs]; exact h.blockSize⟩
    have hnodup : (free' ++ p :: s.handedOut).Nodup := by
      rw [hperm.nodup_iff, hrange]
      exact List.nodup_range
    exact (List.nodup_cons.1 (List.nodup_append'.1 hnodup).2.1).1

/-- **Releasing** an instance puts it back on the stack. -/
theorem Inv.release (h : Inv s free) {ptr : NodePtr} (hptr : ptr ∈ s.handedOut) :
    ∃ P', s.pool.releaseInstance ptr = .ok P' ∧
      Inv ⟨P', s.handedOut.erase ptr⟩ (free ++ [ptr]) := by
  have hlen := h.length
  have hroom := h.rep.room
  have hpos := List.length_pos_of_mem hptr
  obtain ⟨P', hP', hrep, -, hblocks, hbs⟩ := h.rep.push (by omega) ptr
  obtain ⟨hobj, halloc⟩ := MemoryPool.objects_of_blocks_eq hblocks hbs
  refine ⟨P', hP', hrep, by rw [hobj, halloc, h.objects], ?_, by rw [hbs]; exact h.blockSize⟩
  rw [hobj, List.append_assoc, List.singleton_append]
  exact ((List.perm_cons_erase hptr).symm.append_left free).trans h.perm

theorem Inv.step (h : Inv s free) (call : PoolCall) (hcall : Returns s call) :
    ∃ s' free', s.step call = .ok s' ∧ Inv s' free' := by
  cases call with
  | acquireInstance =>
    obtain ⟨p, P', free', hacq, -, hinv⟩ := h.acquire
    exact ⟨⟨P', p :: s.handedOut⟩, free', by rw [PoolUse.step, hacq]; rfl, hinv⟩
  | releaseInstance ptr =>
    obtain ⟨P', hP', hinv⟩ := h.release hcall
    exact ⟨⟨P', s.handedOut.erase ptr⟩, free ++ [ptr], by rw [PoolUse.step, hP']; rfl, hinv⟩

theorem Inv.run (h : Inv s free) (calls : List PoolCall)
    (hcalls : Run.Meets PoolUse.step Returns s calls) :
    ∃ s' free', Run.run PoolUse.step s calls = .ok s' ∧ Inv s' free' := by
  induction calls generalizing s free with
  | nil => exact ⟨s, free, rfl, h⟩
  | cons call calls ih =>
    obtain ⟨t, free₁, ht, hinv⟩ := h.step call hcalls.1
    obtain ⟨s', free', hs', hinv'⟩ := ih hinv (hcalls.2 t ht)
    exact ⟨s', free', by rw [Run.run, ht]; exact hs', hinv'⟩

theorem inv_init {blockSize : Nat} (hbs : 1 ≤ blockSize) (blocksRequired : Nat) :
    ∃ P, MemoryPool.new.init blockSize blocksRequired = .ok P ∧
      Inv ⟨P, []⟩ (List.range blockSize) := by
  obtain ⟨P, hP, hrep, hone, hsize⟩ := MemoryPool.rep_init blockSize blocksRequired
  have hblocks := (MemoryPool.allocateOneBlock_blocks hP).1
  have hobj : P.objects = List.range blockSize := by
    rw [MemoryPool.objects, hblocks, hsize, List.range_eq_range']
    show List.flatMap _ [0 * blockSize] = _
    rw [Nat.zero_mul, List.flatMap_singleton]
  have halloc : P.allocated = blockSize := by
    rw [MemoryPool.allocated, hone, hsize, Nat.one_mul]
  refine ⟨P, hP, hrep, by rw [hobj, halloc], ?_, by rw [hsize]; exact hbs⟩
  rw [hobj, List.append_nil]

/-- **Ownership.** After `init` and any calls that release only pointers handed out, every call has
returned normally, the free instances and those handed out are together all objects of all blocks,
each once, and the stack fits the vector. The next `acquire_instance` hands out an instance that
nobody holds, and allocates a block only when no instance is free. -/
theorem run_owned (blockSize blocksRequired : Nat) (hbs : 1 ≤ blockSize) :
    ∃ P, MemoryPool.new.init blockSize blocksRequired = .ok P ∧
      ∀ calls, Run.Meets PoolUse.step Returns ⟨P, []⟩ calls →
        ∃ s, Run.run PoolUse.step ⟨P, []⟩ calls = .ok s ∧ Owned s ∧ s.pool.objects.Nodup ∧
          ∃ p P', s.pool.acquireInstance = .ok (some p, P') ∧ p ∉ s.handedOut ∧
            (s.pool.n ≠ 0 → P'.memoryBlockPointers = s.pool.memoryBlockPointers) := by
  obtain ⟨P, hP, hinv⟩ := inv_init hbs blocksRequired
  refine ⟨P, hP, ?_⟩
  intro calls hcalls
  obtain ⟨s, free, hs, hinv⟩ := hinv.run calls hcalls
  obtain ⟨p, P', free', hacq, hp, -⟩ := hinv.acquire
  refine ⟨s, hs, hinv.owned, ?_, p, P', hacq, hp, ?_⟩
  · rw [hinv.objects]
    exact List.nodup_range
  · intro hn
    have hblocks := (MemoryPool.acquireInstance_blocks hacq).2
    rwa [if_neg hn] at hblocks

theorem run_owned_two_objects :
    ∃ P, MemoryPool.new.init 2 3 = .ok P ∧
      ∃ s, Run.run PoolUse.step ⟨P, []⟩ [.acquireInstance, .acquireInstance, .acquireInstance] =
        .ok s ∧ Owned s := by
  obtain ⟨P, hP, hrun⟩ := run_owned 2 3 (by decide)
  obtain ⟨s, hs, howned, -⟩ := hrun [.acquireInstance, .acquireInstance, .acquireInstance]
    ⟨trivial, fun _ _ => ⟨trivial, fun _ _ => ⟨trivial, fun _ _ => trivial⟩⟩⟩
  exact ⟨P, hP, s, hs, howned⟩

end PoolUse

end KeyValueStore
