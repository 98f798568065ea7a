import KeyValueStore.Lib.Run

/-!
# Faults

Where a modelled function does not return normally. `fileTooLarge` is the one failure that
depends on the environment: the operating system refuses a write that would take a file past the
largest file offset. The others would be defects, and the invariants rule them out.
-/

namespace KeyValueStore

inductive Fault
  /-- A write past the largest file offset. -/
  | fileTooLarge
  /-- A read or a write that starts or ends outside the file. -/
  | outsideFile
  /-- A loop that never ends. -/
  | endless
  /-- A null pointer is dereferenced. -/
  | nullPointer
  /-- `std::vector::at` throws. -/
  | outOfRange
  /-- A read waits for bytes that nobody is going to send. -/
  | blocked
deriving DecidableEq

/-- A computation that succeeds, or is stopped by the size limit of a file. -/
abbrev SucceedsUnlessFull {α : Type} (x : Except Fault α) (Q : α → Prop) : Prop :=
  Run.Excused .fileTooLarge x Q

@[simp] theorem ok_bind {α β : Type} (a : α) (g : α → Except Fault β) :
    (Except.ok a >>= g) = g a := rfl

end KeyValueStore
