import ReSTM.Actors.RestmActors

/-!
# The interface between nodes

`trait RestmInternal` (`storage/RestmInternal.scala`): what one node asks another. An
operation takes the state of the node to the outcome of the returned future and the next
state. `Call` names the operations with their arguments, so that a statement can be about
all of them, and `SameOutcome` compares what a caller sees of two outcomes.

`RestmActors.internal` is the node of `storage/actors/RestmActors.scala` (lines 125–213).
A `null` in an `Option[ValueType]` is `some none`.
-/

namespace ReSTM

/-- The outcome of a future, and the state after the operation that returned it. -/
abbrev NodeOp (σ α : Type) : Type := σ → Except Failure α × σ

/-- `trait RestmInternal`, on a state of type `σ`. A set is a list, in the order in which
    the set iterates. -/
structure RestmInternal (V σ : Type) where
  resetValue : StringPtr → TxnTime → NodeOp σ Unit
  lockValue : StringPtr → TxnTime → NodeOp σ (Option TxnTime)
  commitValue : StringPtr → TxnTime → NodeOp σ Unit
  getValue : StringPtr → NodeOp σ (Option (Option V))
  getValueAt : StringPtr → TxnTime → NodeOp σ (Option (Option V))
  initValue : TxnTime → V → StringPtr → NodeOp σ Bool
  addLock : StringPtr → TxnTime → NodeOp σ String
  resetTxn : TxnTime → NodeOp σ (List StringPtr)
  commitTxn : TxnTime → NodeOp σ (List StringPtr)
  txnState : TxnTime → NodeOp σ String
  queueValue : StringPtr → TxnTime → V → NodeOp σ Unit
  delete : StringPtr → TxnTime → NodeOp σ Unit

/-- A call of an operation. -/
inductive InternalCall (V : Type) where
  | resetValue (id : StringPtr) (time : TxnTime)
  | lockValue (id : StringPtr) (time : TxnTime)
  | commitValue (id : StringPtr) (time : TxnTime)
  | getValue (id : StringPtr)
  | getValueAt (id : StringPtr) (time : TxnTime)
  | initValue (time : TxnTime) (value : V) (id : StringPtr)
  | addLock (id : StringPtr) (time : TxnTime)
  | resetTxn (time : TxnTime)
  | commitTxn (time : TxnTime)
  | txnState (time : TxnTime)
  | queueValue (id : StringPtr) (time : TxnTime) (value : V)
  | delete (id : StringPtr) (time : TxnTime)
deriving DecidableEq

/-- The value of a completed future. -/
inductive Reply (V : Type) where
  | unit
  | conflicting (t : Option TxnTime)
  | value (v : Option (Option V))
  | flag (b : Bool)
  | state (s : String)
  | pointers (ids : List StringPtr)
deriving DecidableEq

variable {V σ α : Type}

/-- An operation whose value is seen through `f`. -/
def NodeOp.map {β : Type} (f : α → β) (op : NodeOp σ α) : NodeOp σ β := fun s =>
  ((op s).1.map f, (op s).2)

/-- Make a call. -/
def RestmInternal.call (node : RestmInternal V σ) : InternalCall V → NodeOp σ (Reply V)
  | .resetValue id time => (node.resetValue id time).map fun _ => .unit
  | .lockValue id time => (node.lockValue id time).map .conflicting
  | .commitValue id time => (node.commitValue id time).map fun _ => .unit
  | .getValue id => (node.getValue id).map .value
  | .getValueAt id time => (node.getValueAt id time).map .value
  | .initValue time value id => (node.initValue time value id).map .flag
  | .addLock id time => (node.addLock id time).map .state
  | .resetTxn time => (node.resetTxn time).map .pointers
  | .commitTxn time => (node.commitTxn time).map .pointers
  | .txnState time => (node.txnState time).map .state
  | .queueValue id time value => (node.queueValue id time value).map fun _ => .unit
  | .delete id time => (node.delete id time).map fun _ => .unit

/-- The same value; sets are the same when they have the same members. -/
def Reply.Same : Reply V → Reply V → Prop
  | .pointers ids, .pointers ids' => ∀ id, id ∈ ids ↔ id ∈ ids'
  | r, r' => r = r'

/-- The same outcome: the same value, the same conflict, or a failure for a failure. -/
def SameOutcome : Except Failure (Reply V) → Except Failure (Reply V) → Prop
  | .ok r, .ok r' => r.Same r'
  | .error e, .error e' => e.conflict? = e'.conflict?
  | _, _ => False

namespace RestmActors

variable (clock : Clock)

/-- The actor that `getPtrActor(id, time)` returns. -/
def actorOf (id : StringPtr) (time : Option TxnTime) (node : RestmActors V) : LoggedActor V :=
  (node.ptrs id).getD (restore (node.coldStorage id) clock.currentTimeMillis time)

/-- `getPtrActor(id, time).flatMap(op)` for the operation `op` that the message `m` stands
    for. -/
def ask (id : StringPtr) (m : MemMsg V) (op : MemActor V → Except Failure α × MemActor V) :
    NodeOp (RestmActors V) α := fun node =>
  let p := node.actorOf clock id m.time?
  ((op p.actor).1, node.setPtr id (p.step m))

/-- `_addLock` (lines 199–201). -/
def internalAddLock (id : StringPtr) (time : TxnTime) : NodeOp (RestmActors V) String := fun node =>
  let r := node.addLock id time
  (.ok r.1.toString, r.2)

/-- `RestmActors` as a `RestmInternal` (lines 125–213). -/
def internal : RestmInternal V (RestmActors V) where
  resetValue id time := ask clock id (.writeReset time) (·.writeReset time)
  lockValue id time := ask clock id (.writeLock time) (·.lock time)
  commitValue id time :=
    NodeOp.map (fun _ => ()) <| ask clock id (.writeCommit time) (·.writeCommit time)
  getValue id := ask clock id .getCurrentValue fun a => (.ok (a.getCurrentValue.map (·.2)), a)
  getValueAt id time := NodeOp.map (·.map some) <| ask clock id (.getValue time) (·.getValue time)
  initValue time value id := ask clock id (.init time value) (·.init time value)
  addLock := internalAddLock
  resetTxn time := setState .RESET time
  commitTxn time := setState .COMMIT time
  txnState time node := (.ok (node.txnState time).toString, node)
  queueValue id time value :=
    NodeOp.map (fun _ => ()) <| ask clock id (.writeBlob time value) (·.writeBlob time value)
  delete id time := NodeOp.map (fun _ => ()) <| ask clock id (.delete time) (·.delete time)

end RestmActors

end ReSTM
