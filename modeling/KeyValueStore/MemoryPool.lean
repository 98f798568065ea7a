import Mathlib.Data.List.Range
import KeyValueStore.Fault

/-!
# `MemoryPool`: the stack of free nodes

A pool hands out nodes of blocks that it allocates itself. `pool` is a vector used as a stack of
which the first `n` entries are live. `MemoryPool.Rep P free` says that they are the nodes `free`,
the top of the stack last.

`new` returns consecutive addresses here: block `j` starts at `j * blockSize`.
-/

namespace KeyValueStore

/-- The address of a node. -/
abbrev NodePtr := Nat

structure MemoryPool where
  blockSize : Nat
  memoryBlockPointers : List NodePtr
  /-- The entries of the vector `pool`, null outside its size. -/
  pool : Nat → Option NodePtr
  poolSize : Nat
  poolCapacity : Nat
  n : Nat
  nMax : Nat

namespace MemoryPool

/-- `pool.resize`. A vector that outgrows its capacity at least doubles its size. -/
def resizePool (P : MemoryPool) (k : Nat) : MemoryPool :=
  { P with
    pool := fun i => if i < k then P.pool i else none
    poolSize := k
    poolCapacity := if k ≤ P.poolCapacity then P.poolCapacity
      else P.poolSize + max P.poolSize (k - P.poolSize) }

def vecPopBack (P : MemoryPool) : Except Fault (Option NodePtr × MemoryPool) :=
  if P.n = 0 ∨ P.poolSize ≤ P.n - 1 then .error .outOfRange
  else .ok (P.pool (P.n - 1), { P with n := P.n - 1 })

def vecPushBack (P : MemoryPool) (ptr : NodePtr) : Except Fault MemoryPool :=
  if P.poolSize ≤ P.n then .error .outOfRange
  else .ok { P with pool := Function.update P.pool P.n (some ptr), n := P.n + 1 }

/-- The loop that pushes the nodes of a block. -/
def pushAll (P : MemoryPool) : List NodePtr → Except Fault MemoryPool
  | [] => .ok P
  | p :: ps => do pushAll (← P.vecPushBack p) ps

/-- The nodes allocated so far are the addresses below this one. -/
def allocated (P : MemoryPool) : Nat := P.memoryBlockPointers.length * P.blockSize

def allocateOneBlock (P : MemoryPool) : Except Fault MemoryPool :=
  let newBlockPtr := P.allocated
  let P := { P with memoryBlockPointers := P.memoryBlockPointers ++ [newBlockPtr] }
  let P := { P with nMax := P.memoryBlockPointers.length * P.blockSize }
  let P :=
    if P.nMax ≤ P.poolCapacity then P.resizePool P.poolCapacity else P.resizePool (2 * P.nMax)
  P.pushAll (List.range' newBlockPtr P.blockSize)

/-- `MemoryPool()` -/
def new : MemoryPool := resizePool ⟨1024, [], fun _ => none, 0, 0, 0, 2048⟩ 2048

def init (P : MemoryPool) (blockSize blocksRequired : Nat) : Except Fault MemoryPool :=
  (resizePool { P with blockSize := blockSize } (blockSize * blocksRequired)).allocateOneBlock

def acquireInstance (P : MemoryPool) : Except Fault (Option NodePtr × MemoryPool) := do
  let P ← if P.n = 0 then P.allocateOneBlock else .ok P
  P.vecPopBack

def releaseInstance (P : MemoryPool) (ptr : NodePtr) : Except Fault MemoryPool := P.vecPushBack ptr

/-! ## Representation -/

/-- The live entries are `free`, and the vector has room for every node allocated. -/
structure Rep (P : MemoryPool) (free : List NodePtr) : Prop where
  count : P.n = free.length
  stack : ∀ i < free.length, P.pool i = free[i]?
  room : P.allocated ≤ P.poolSize

variable {P : MemoryPool} {free : List NodePtr}

theorem Rep.push (h : Rep P free) (hroom : free.length < P.poolSize) (p : NodePtr) :
    ∃ P', P.vecPushBack p = .ok P' ∧ Rep P' (free ++ [p]) ∧ P'.poolSize = P.poolSize ∧
      P'.memoryBlockPointers = P.memoryBlockPointers ∧ P'.blockSize = P.blockSize := by
  refine ⟨_, if_neg (by rw [h.count]; omega), ⟨?_, fun i hi => ?_, h.room⟩, rfl, rfl, rfl⟩
  · show P.n + 1 = _
    rw [h.count, List.length_append, List.length_singleton]
  · show Function.update P.pool P.n (some p) i = _
    rw [List.length_append, List.length_singleton] at hi
    by_cases hin : i = free.length
    · rw [hin, h.count, Function.update_self, List.getElem?_append_right le_rfl, Nat.sub_self]
      rfl
    · rw [h.count, Function.update_of_ne hin, List.getElem?_append_left (by omega)]
      exact h.stack i (by omega)

theorem Rep.pushAll (h : Rep P free) (ps : List NodePtr)
    (hroom : free.length + ps.length ≤ P.poolSize) :
    ∃ P', P.pushAll ps = .ok P' ∧ Rep P' (free ++ ps) ∧
      P'.memoryBlockPointers = P.memoryBlockPointers ∧ P'.blockSize = P.blockSize := by
  induction ps generalizing P free with
  | nil => exact ⟨P, rfl, by rwa [List.append_nil], rfl, rfl⟩
  | cons p ps ih =>
    rw [List.length_cons] at hroom
    obtain ⟨P₁, h₁, hrep₁, hsize, hblocks, hbs⟩ := h.push (by omega) p
    obtain ⟨P₂, h₂, hrep₂, hblocks₂, hbs₂⟩ := ih hrep₁ (by
      rw [List.length_append, List.length_singleton, hsize]
      omega)
    refine ⟨P₂, by rw [MemoryPool.pushAll, h₁]; exact h₂, ?_, hblocks₂.trans hblocks,
      hbs₂.trans hbs⟩
    rwa [List.append_assoc] at hrep₂

theorem Rep.pop {p : NodePtr} (h : Rep P (free ++ [p])) (hroom : free.length < P.poolSize) :
    ∃ P', P.vecPopBack = .ok (some p, P') ∧ Rep P' free ∧
      P'.memoryBlockPointers = P.memoryBlockPointers ∧ P'.blockSize = P.blockSize := by
  have hn : P.n = free.length + 1 := by
    rw [h.count, List.length_append, List.length_singleton]
  have htop : P.pool free.length = some p := by
    rw [h.stack _ (by simp), List.getElem?_append_right le_rfl, Nat.sub_self]
    rfl
  refine ⟨{ P with n := P.n - 1 }, ?_, ⟨?_, ?_, h.room⟩, rfl, rfl⟩
  · rw [vecPopBack, if_neg (by omega), hn, Nat.add_sub_cancel, htop]
  · show P.n - 1 = _
    rw [hn, Nat.add_sub_cancel]
  · intro i hi
    show P.pool i = _
    rw [h.stack i (by rw [List.length_append]; omega), List.getElem?_append_left hi]

/-- A new block: its nodes come on top, and the vector is made large enough. -/
theorem Rep.allocateOneBlock (h : Rep P free) (hfree : free.length ≤ P.allocated) :
    ∃ P', P.allocateOneBlock = .ok P' ∧
      Rep P' (free ++ List.range' P.allocated P.blockSize) ∧
      P'.memoryBlockPointers.length = P.memoryBlockPointers.length + 1 ∧
      P'.blockSize = P.blockSize := by
  let P₁ : MemoryPool := { P with
    memoryBlockPointers := P.memoryBlockPointers ++ [P.allocated]
    nMax := (P.memoryBlockPointers ++ [P.allocated]).length * P.blockSize }
  have hmax : P₁.nMax = P.allocated + P.blockSize := by
    show (P.memoryBlockPointers ++ [P.allocated]).length * P.blockSize = _
    rw [List.length_append, List.length_singleton, Nat.succ_mul]
    rfl
  -- the size the vector is given
  let k := if P₁.nMax ≤ P₁.poolCapacity then P₁.poolCapacity else 2 * P₁.nMax
  have hk : P₁.nMax ≤ k := by
    show P₁.nMax ≤ if _ then _ else _
    split_ifs with hcap
    · exact hcap
    · exact Nat.le_mul_of_pos_left _ (by decide)
  have hold : P.allocated ≤ k := le_trans (hmax.symm ▸ Nat.le_add_right _ _) hk
  have hres : (if P₁.nMax ≤ P₁.poolCapacity then P₁.resizePool P₁.poolCapacity
      else P₁.resizePool (2 * P₁.nMax)) = P₁.resizePool k := by
    show _ = P₁.resizePool (if _ then _ else _)
    split_ifs <;> rfl
  have hrep : Rep (P₁.resizePool k) free := by
    refine ⟨h.count, ?_, ?_⟩
    · intro i hi
      exact (if_pos (hi.trans_le (hfree.trans hold))).trans (h.stack i hi)
    · show (P.memoryBlockPointers ++ [P.allocated]).length * P.blockSize ≤ k
      exact hk
  obtain ⟨P', h', hrep', hblocks, hbs⟩ := hrep.pushAll (List.range' P.allocated P.blockSize) (by
    rw [List.length_range']
    exact le_trans (Nat.add_le_add_right hfree _) (hmax.symm.trans_le hk))
  refine ⟨P', ?_, hrep', ?_, hbs⟩
  · show (if P₁.nMax ≤ P₁.poolCapacity then P₁.resizePool P₁.poolCapacity
      else P₁.resizePool (2 * P₁.nMax)).pushAll _ = _
    rw [hres]
    exact h'
  · rw [hblocks]
    show (P.memoryBlockPointers ++ [P.allocated]).length = _
    rw [List.length_append, List.length_singleton]

/-- **Acquiring an instance** takes one node from those that are free, after a new block has been
added to them if there were none. -/
theorem Rep.acquireInstance (h : Rep P free) (hfree : free.length ≤ P.allocated)
    (hbs : 0 < P.blockSize) :
    ∃ p P' free', P.acquireInstance = .ok (some p, P') ∧ Rep P' free' ∧
      P'.blockSize = P.blockSize ∧
      ((free ≠ [] ∧ free = free' ++ [p] ∧ P'.memoryBlockPointers = P.memoryBlockPointers) ∨
       (free = [] ∧ List.range' P.allocated P.blockSize = free' ++ [p] ∧
        P'.memoryBlockPointers.length = P.memoryBlockPointers.length + 1)) := by
  have hroom := h.room
  rw [MemoryPool.acquireInstance]
  -- an empty stack is filled with a new block, of which the last node is taken
  rcases List.eq_nil_or_concat free with rfl | ⟨free', p, rfl⟩
  · rw [if_pos (show P.n = 0 from h.count)]
    obtain ⟨P₁, h₁, hrep₁, hblocks, hbs₁⟩ := h.allocateOneBlock hfree
    rw [List.nil_append] at hrep₁
    rcases List.eq_nil_or_concat (List.range' P.allocated P.blockSize) with hnil | ⟨xs, q, hxs⟩
    · have hlen := congrArg List.length hnil
      rw [List.length_range', List.length_nil] at hlen
      omega
    · rw [List.concat_eq_append] at hxs
      have hlen := congrArg List.length hxs
      rw [List.length_range', List.length_append, List.length_singleton] at hlen
      rw [hxs] at hrep₁
      have hroom₁ : xs.length < P₁.poolSize := by
        refine lt_of_lt_of_le ?_ hrep₁.room
        rw [allocated, hblocks, hbs₁, Nat.succ_mul, hlen]
        omega
      obtain ⟨P', h', hrep', hblocks', hbs'⟩ := hrep₁.pop hroom₁
      refine ⟨q, P', xs, ?_, hrep', hbs'.trans hbs₁, Or.inr ⟨rfl, hxs, ?_⟩⟩
      · rw [h₁]
        exact h'
      · rw [hblocks', hblocks]
  · rw [List.concat_eq_append] at *
    rw [List.length_append, List.length_singleton] at hfree
    have hn : P.n ≠ 0 := by
      rw [h.count, List.length_append, List.length_singleton]
      omega
    rw [if_neg hn]
    obtain ⟨P', h', hrep', hblocks, hbs'⟩ := h.pop (by omega)
    exact ⟨p, P', free', h', hrep', hbs', Or.inl ⟨by simp, rfl, hblocks⟩⟩

/-- **A new pool** holds the nodes of one block. -/
theorem rep_init (blockSize blocksRequired : Nat) :
    ∃ P, MemoryPool.new.init blockSize blocksRequired = .ok P ∧
      Rep P (List.range blockSize) ∧ P.memoryBlockPointers.length = 1 ∧
      P.blockSize = blockSize := by
  have hrep : Rep (resizePool { MemoryPool.new with blockSize := blockSize }
      (blockSize * blocksRequired)) [] :=
    ⟨rfl, by simp, by show 0 * blockSize ≤ _; rw [Nat.zero_mul]; exact Nat.zero_le _⟩
  obtain ⟨P, hP, hrepP, hblocks, hbs⟩ := hrep.allocateOneBlock (Nat.zero_le _)
  have hzero : (resizePool { MemoryPool.new with blockSize := blockSize }
      (blockSize * blocksRequired)).allocated = 0 := Nat.zero_mul _
  refine ⟨P, hP, ?_, hblocks, hbs⟩
  rw [hzero, List.nil_append] at hrepP
  rw [List.range_eq_range']
  exact hrepP

end MemoryPool

end KeyValueStore
