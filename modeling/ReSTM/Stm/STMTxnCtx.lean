import Mathlib.Data.List.AList
import ReSTM.Common.WP
import ReSTM.Stm.STMTxn
import ReSTM.Types.JacksonValue

/-!
# The context of a transaction

Model of `STMTxnCtx` (`stm/STMTxnCtx.scala`, lines 34–153) and of the operations of
`STMPtr` (`stm/STMPtr.scala`, lines 50–89) that a transaction's body uses. Each future
is awaited before the next operation starts, so an operation is a program over the
context. A cached future is its outcome, and `calls` are the calls made to the cluster
so far, oldest first.
-/

namespace ReSTM

variable {O : Type}

/-- The cluster at the transaction's timestamp: how it answers a read, a lock and the
    calls of `commit`, and how values are stored in it. -/
structure Cluster (O : Type) where
  mapper : ObjectMapper O
  getPtr : StringPtr → Except Failure (Option JacksonValue)
  lock : StringPtr → Except Failure (Option TxnTime)
  answer : Call JacksonValue → Except Failure Unit

/-- `cluster.getPtr(id, txnId).map(_.flatMap(_.deserialize[T]()))`. -/
def Cluster.read (k : Cluster O) (classTag : RuntimeClass) (id : StringPtr) :
    Except Failure (Option (Option (AnyRef O))) :=
  match k.getPtr id with
  | .ok (some v) => v.deserialize k.mapper classTag
  | .ok none => .ok none
  | .error e => .error e

structure STMTxnCtx (O : Type) where
  caller : ℕ
  txnId : TxnTime
  writeLocks : AList (fun _ : StringPtr => Except Failure Bool) := ∅
  readCache : AList (fun _ : StringPtr => Except Failure (Option (Option (AnyRef O)))) := ∅
  initCache : AList (fun _ : StringPtr => Option (AnyRef O)) := ∅
  writeCache : AList (fun _ : StringPtr => Option (AnyRef O)) := ∅
  isClosed : Bool := false
  calls : List (Call JacksonValue) := []

/-- An operation of a transaction. -/
abbrev Txn (O α : Type) : Type := EStateM Failure (STMTxnCtx O) α

/-- A future that has this outcome. -/
def await {α : Type} : Except Failure α → Txn O α
  | .ok a => pure a
  | .error e => throw e

/-- `Util.chainEx`. -/
def chainEx {α : Type} (str : String) (x : Txn O α) : Txn O α := x.adaptExcept (.chainEx str)

namespace STMTxnCtx

variable (k : Cluster O) (classTag : RuntimeClass) (id : StringPtr)

/-- `require(!isClosed)`. -/
def requireOpen : Txn O Unit := do
  if (← get).isClosed then throw (.illegalArgument "requirement failed")

/-- `newPtr` (lines 60–64). `id` is the id that the cluster drew. -/
def newPtr (value : Option (AnyRef O)) (answer : Except Failure Unit) : Txn O StringPtr := do
  modify fun ctx =>
    { ctx with calls := ctx.calls ++ [.newPtr id ctx.txnId (.ofValue k.mapper value)] }
  await answer
  modify fun ctx => { ctx with initCache := ctx.initCache.insert id value }
  return id

/-- `readOpt[T]` (lines 88–98). -/
def readOpt : Txn O (Option (Option (AnyRef O))) := do
  requireOpen
  let ctx ← get
  match (ctx.writeCache.lookup id).or (ctx.initCache.lookup id) with
  | some x => return x.map some
  | none =>
    match ctx.readCache.lookup id with
    | some future => await future
    | none =>
      let future := k.read classTag id
      modify fun ctx =>
        { ctx with
          readCache := ctx.readCache.insert id future
          calls := ctx.calls ++ [.getPtr id ctx.txnId] }
      await future

/-- `lockOptional` (lines 104–109). -/
def lockOptional : Txn O Bool := do
  let ctx ← get
  match ctx.writeLocks.lookup id with
  | some future => await future
  | none =>
    if ctx.isClosed then
      let future := .error (.illegalArgument "requirement failed")
      modify fun ctx => { ctx with writeLocks := ctx.writeLocks.insert id future }
      await future
    else
      let future := (k.lock id).map Option.isNone
      modify fun ctx =>
        { ctx with
          writeLocks := ctx.writeLocks.insert id future
          calls := ctx.calls ++ [.lock id ctx.txnId] }
      await future

/-- `lock` (lines 100–102). -/
def lock : Txn O Unit := do
  let success ← lockOptional k id
  if !success then
    throw (.runtimeException ("Lock failed: " ++ id.id ++ " in txn " ++ (← get).txnId.toString))

/-- `write[T]` (lines 133–152). -/
def write [DecidableEq O] (value : Option (AnyRef O)) : Txn O Unit :=
  chainEx ("write to " ++ id.id) do
    requireOpen
    let prior ← readOpt k classTag id
    if value ≠ prior.join then
      lock k id
      if (← get).isClosed then throw (.runtimeException ("Post-commit write for " ++ id.id))
      modify fun ctx => { ctx with writeCache := ctx.writeCache.insert id value }

/-- `delete` (lines 66–86). The type argument of `readOpt(id)` is left to inference and
    only occurs in its result: it is `Nothing`, whatever the values of the pointer are. -/
def delete : Txn O Unit :=
  chainEx ("Delete " ++ id.id) do
    requireOpen
    let prior ← readOpt k .nothing id
    if prior.isSome then
      lock k id
      if (← get).isClosed then throw (.runtimeException ("Post-commit write for " ++ id.id))
      modify fun ctx => { ctx with writeCache := ctx.writeCache.insert id none }

/-- The call of `commit` for an entry of `writeCache` (lines 119–121). -/
def entryCall (txnId : TxnTime) (value : Option (AnyRef O)) : Call JacksonValue :=
  writeCall txnId (id, value.map fun newValue => .ofValue k.mapper (some newValue))

def writes (ctx : STMTxnCtx O) : List (Call JacksonValue) :=
  ctx.writeCache.entries.map fun write => entryCall k write.1 ctx.txnId write.2

/-- `commit` (lines 114–125): everything is sent before the first answer is awaited. -/
def commit : Txn O Unit := do
  modify fun ctx => { ctx with isClosed := true }
  let ctx ← get
  modify fun ctx => { ctx with calls := ctx.calls ++ ctx.writes k }
  (ctx.writes k).forM fun call => await (k.answer call)
  modify fun ctx => { ctx with calls := ctx.calls ++ [.commit ctx.caller ctx.txnId] }
  await (k.answer (.commit ctx.caller ctx.txnId))

end STMTxnCtx

namespace STMPtr

variable (k : Cluster O) (classTag : RuntimeClass) (id : StringPtr)

/-- `readOpt` (lines 62–64). The `require` of a closed context is thrown before there is
    a future to chain. -/
def readOpt : Txn O (Option (AnyRef O)) := do
  STMTxnCtx.requireOpen
  chainEx ("failed readOpt to " ++ id.id) do
    let value ← STMTxnCtx.readOpt k classTag id
    return value.join

/-- `lock` (lines 72–74). -/
def lock : Txn O Bool := chainEx ("failed lock on " ++ id.id) (STMTxnCtx.lockOptional k id)

/-- `recover` of `write` and `delete` (lines 80–81 and 88–89). -/
def recover (x : Txn O Unit) : Txn O Unit :=
  x.adaptExcept fun e => .transactionConflict ("failed write to " ++ id.id) e.conflict

def write [DecidableEq O] (value : Option (AnyRef O)) : Txn O Unit :=
  recover id (STMTxnCtx.write k classTag id value)

def delete : Txn O Unit := recover id (STMTxnCtx.delete k id)

/-- `init` (lines 50–52). -/
def init [DecidableEq O] (default : Option (AnyRef O)) : Txn O Unit := do
  if (← readOpt k classTag id).isNone then write k classTag id default

end STMPtr

end ReSTM
