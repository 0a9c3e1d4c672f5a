import ReSTM.Common.Heap
import ReSTM.Types.Failure

/-!
# Stored nodes of a collection

The operations of `STMPtr` (`stm/STMPtr.scala`, lines 33–89) on the nodes of one collection,
inside a transaction that gets the locks it asks for. The pointers of a collection's nodes
are drawn by it and by nobody else, so each collection has a heap of its own. A transaction
that fails has changed nothing.
-/

namespace ReSTM

open HeapModel

/-- A transaction on stored nodes. -/
abbrev NodeTxn (N α : Type) : Type := StateT (Heap N) (Except Failure) α

/-- The random bits that are drawn below a node that has drawn one. -/
def below (coin : ℕ → Bool) : ℕ → Bool := fun i => coin (i + 1)

namespace Nodes

variable {N : Type}

/-- `read` (line 73). -/
def read (p : Ptr) : NodeTxn N N := fun h =>
  match h.get p with
  | some n => .ok (n, h)
  | none => .error (Failure.chainEx ("not defined: " ++ p.repr) Failure.noneGet)

/-- `readOpt` (lines 59–61). -/
def readOpt (p : Ptr) : NodeTxn N (Option N) := fun h => .ok (h.get p, h)

/-- `write` (lines 81–82), which stores nothing when `equals` holds of the node that is there
    (`stm/STMTxnCtx.scala`, lines 136–150). -/
def write (equals : N → N → Bool) (p : Ptr) (value : N) : NodeTxn N Unit := fun h =>
  .ok ((), h.write equals p value)

/-- `dynamic` (lines 38–43). -/
def dynamic (value : N) : NodeTxn N Ptr := fun h => .ok (h.next, h.alloc value)

/-- `delete` (lines 88–89). -/
def delete (p : Ptr) : NodeTxn N Unit := fun h => .ok ((), h.set p none)

variable {h : Heap N} {p : Ptr} {n : N}

theorem read_some (hp : h.get p = some n) : read p h = .ok (n, h) := by
  unfold read; rw [hp]

/-- A recursion that is too deep. -/
def stackOverflow : Failure := .runtimeException "java.lang.StackOverflowError"

end Nodes

end ReSTM
