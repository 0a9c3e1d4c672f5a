import ReSTM.Types.Failure
import ReSTM.Types.StringPtr
import Mathlib.Data.List.Nodup

/-!
# The transaction actor

Model of `TxnActor` (`storage/actors/TxnActor.scala`): the registered locks of one
transaction and its state, which leaves `OPEN` at most once.
-/

namespace ReSTM

/-- The values of `TxnActor.state`. -/
inductive TxnState where
  | OPEN
  | COMMIT
  | RESET
deriving DecidableEq, Repr

namespace TxnState

def toString : TxnState → String
  | OPEN => "OPEN"
  | COMMIT => "COMMIT"
  | RESET => "RESET"

end TxnState

/-- The state of a `TxnActor` (lines 31–32); the set of locks is a list without
    repetitions. -/
structure TxnActor where
  locks : List StringPtr := []
  state : TxnState := .OPEN
  nodup : locks.Nodup := by exact List.nodup_nil

namespace TxnActor

/-- `addLock` (lines 38–49): the result is the transaction's state. -/
def addLock (id : StringPtr) (a : TxnActor) : TxnState × TxnActor :=
  if a.state = .OPEN then
    (a.state, { a with locks := a.locks.insert id, nodup := List.Nodup.insert a.nodup })
  else (a.state, a)

/-- `setState` (lines 53–68): the result is the set of registered locks. -/
def setState (s : TxnState) (a : TxnActor) : Except Failure (List StringPtr) × TxnActor :=
  if a.state ≠ s then
    if a.state ≠ .OPEN then
      (.error (.runtime "Error running actor task"
        (Failure.require ("State is " ++ a.state.toString))), a)
    else if s = .OPEN then
      (.error (.runtime "Error running actor task" (Failure.require "Cannot reopen")), a)
    else (.ok a.locks, { a with state := s })
  else (.ok a.locks, a)

/-- `getState` (lines 70–76). -/
def getState (a : TxnActor) : TxnState := a.state

variable {a : TxnActor} {id : StringPtr} {s : TxnState}

@[simp] theorem addLock_fst : (a.addLock id).1 = a.state := by
  unfold addLock; split <;> rfl

@[simp] theorem addLock_state : (a.addLock id).2.state = a.state := by
  unfold addLock; split <;> rfl

theorem mem_addLock_iff {x : StringPtr} :
    x ∈ (a.addLock id).2.locks ↔ x ∈ a.locks ∨ a.state = .OPEN ∧ x = id := by
  unfold addLock
  split
  · next h => simp [h, or_comm]
  · next h => simp [h]

@[simp] theorem setState_locks : (a.setState s).2.locks = a.locks := by
  unfold setState; split_ifs <;> rfl

/-- A decision succeeds on an open transaction and on one that was decided so before. -/
theorem setState_ok_iff {locks : List StringPtr} (hs : s ≠ .OPEN) :
    (a.setState s).1 = .ok locks ↔ (a.state = .OPEN ∨ a.state = s) ∧ locks = a.locks := by
  unfold setState
  split_ifs with h1 h2 <;> simp_all [eq_comm]

/-- A decision leaves the state as it says, or was refused. -/
theorem setState_state (hs : s ≠ .OPEN) :
    (a.setState s).2.state = if a.state = .OPEN then s else a.state := by
  unfold setState
  split_ifs <;> simp_all

end TxnActor

end ReSTM
