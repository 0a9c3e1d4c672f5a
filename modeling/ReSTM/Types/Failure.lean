import ReSTM.Types.TxnTime

/-!
# Failures

The exceptions that a storage operation can fail with:
`storage/Restm.scala` (`TransactionConflict`, lines 36–49) and those of `require`
and `Option.get`. `Util.chainEx` (`util/Util.scala`, lines 78–91) re-wraps a
failure without losing the conflicting transaction.
-/

namespace ReSTM

/-- What a failed future carries. -/
inductive Failure where
  | transactionConflict (msg : String) (conflitingTxn : Option TxnTime)
  | illegalArgument (msg : String)
  | noSuchElement (msg : String)
  | runtime (msg : String) (cause : Failure)
  | runtimeException (msg : String)
deriving DecidableEq, Repr

namespace Failure

/-- `new TransactionConflict(conflitingTxn)`. -/
def lockedBy (conflitingTxn : TxnTime) : Failure :=
  transactionConflict ("Already locked by " ++ conflitingTxn.toString) (some conflitingTxn)

/-- `require(false, message)`. -/
def require (message : String) : Failure := illegalArgument ("requirement failed: " ++ message)

/-- `None.get`. -/
def noneGet : Failure := noSuchElement "None.get"

/-- A method call on `null`. -/
def nullPointer : Failure := runtimeException "java.lang.NullPointerException"

/-- `Util.chainEx(str)` on a failure: a conflict stays a conflict with the same
    message and transaction, anything else becomes a `RuntimeException`. -/
def chainEx (str : String) : Failure → Failure
  | transactionConflict msg conflitingTxn => transactionConflict msg conflitingTxn
  | e => runtime str e

/-- The transaction a failure conflicts with, `e.conflitingTxn` of a
    `TransactionConflict`. -/
def conflict : Failure → Option TxnTime
  | transactionConflict _ conflitingTxn => conflitingTxn
  | _ => none

/-- The transaction of a `TransactionConflict`, which may be `null`; no other failure has
    one. -/
def conflict? : Failure → Option (Option TxnTime)
  | transactionConflict _ conflitingTxn => some conflitingTxn
  | _ => none

@[simp] theorem conflict_lockedBy (t : TxnTime) : (lockedBy t).conflict = some t := rfl

@[simp] theorem conflict_chainEx (str : String) (e : Failure) : (chainEx str e).conflict = e.conflict := by
  cases e <;> rfl

end Failure

end ReSTM
