import ReSTM.Common.Replay
import ReSTM.Stm.STMTxnCtx

/-!
# The bodies of transactions

`rawExecute` of `STMTxn` (`stm/STMTxn.scala`) calls `txnLogic`, which the client writes with
the operations of `STMPtr` and whose next operation may depend on every value that it was
given. `TxnLogic` is such a program. It awaits each operation before the next one, creates no
pointers, and does not catch the failure of an operation.

* `first_asks`: the calls that a body makes are reads and locks of its own timestamp.
* `first_replays`: what an operation did under one cluster it does under every cluster that
  gives the same answers.
-/

namespace ReSTM

open Replay WP

variable {O α : Type}

inductive TxnLogic (O α : Type) where
  | ret (a : α)
  | readOpt (classTag : RuntimeClass) (id : StringPtr) (next : Option (AnyRef O) → TxnLogic O α)
  | init (classTag : RuntimeClass) (id : StringPtr) (default : Option (AnyRef O))
      (next : TxnLogic O α)
  | write (classTag : RuntimeClass) (id : StringPtr) (value : Option (AnyRef O))
      (next : TxnLogic O α)
  | delete (id : StringPtr) (next : TxnLogic O α)
  | lock (id : StringPtr) (next : Bool → TxnLogic O α)

namespace TxnLogic

variable [DecidableEq O] (k : Cluster O)

/-- The first operation, and what remains to be done. -/
def first : TxnLogic O α → Txn O (TxnLogic O α)
  | ret a => pure (ret a)
  | readOpt classTag id next => do
    let value ← STMPtr.readOpt k classTag id
    return next value
  | init classTag id default next => do
    STMPtr.init k classTag id default
    return next
  | write classTag id value next => do
    STMPtr.write k classTag id value
    return next
  | delete id next => do
    STMPtr.delete k id
    return next
  | lock id next => do
    let locked ← STMPtr.lock k id
    return next locked

/-- The whole body. -/
def exec : TxnLogic O α → Txn O α
  | ret a => pure a
  | readOpt classTag id next => do
    let value ← STMPtr.readOpt k classTag id
    exec (next value)
  | init classTag id default next => do
    STMPtr.init k classTag id default
    exec next
  | write classTag id value next => do
    STMPtr.write k classTag id value
    exec next
  | delete id next => do
    STMPtr.delete k id
    exec next
  | lock id next => do
    let locked ← STMPtr.lock k id
    exec (next locked)

theorem exec_eq (body : TxnLogic O α) : body.exec k = body.first k >>= fun rest => rest.exec k := by
  cases body <;> simp [exec, first]

end TxnLogic

/-! ## Calls -/

/-- The call reads or locks for `t`. -/
def Call.asks {V : Type} (t : TxnTime) : Call V → Prop
  | .getPtr _ u | .lock _ u => u = t
  | _ => False

namespace STMTxnCtx

variable {k K : Cluster O} {classTag : RuntimeClass} {id : StringPtr} {ctx : STMTxnCtx O}
  {t : TxnTime}

/-- The context of a transaction that runs: it is open, and all its calls were reads and locks. -/
structure Asking (t : TxnTime) (ctx : STMTxnCtx O) : Prop where
  txnId : ctx.txnId = t
  calls : ∀ c ∈ ctx.calls, c.asks t

theorem Asking.concat {c : Call JacksonValue} (h : ctx.Asking t) (hc : c.asks t) :
    ∀ c' ∈ ctx.calls ++ [c], c'.asks t := by
  intro c' hc'
  rcases List.mem_append.mp hc' with hc' | hc'
  · exact h.calls c' hc'
  · rw [List.mem_singleton.mp hc']
    exact hc

theorem asks_requireOpen {Q : STMTxnCtx O → Prop} (h : Q ctx) :
    wp requireOpen (fun _ => Q) (fun _ => Q) ctx := by
  simp only [requireOpen, wp_bind, wp_get]
  split <;> exact h

theorem asks_await {β : Type} {future : Except Failure β} {Q : STMTxnCtx O → Prop} (h : Q ctx) :
    wp (await future) (fun _ => Q) (fun _ => Q) ctx := by
  cases future <;> exact h

theorem asks_readOpt (h : ctx.Asking t) :
    wp (readOpt k classTag id) (fun _ => Asking t) (fun _ => Asking t) ctx := by
  rw [readOpt, wp_bind]
  refine wp_mono (asks_requireOpen h) (fun _ ctx h => ?_) fun _ _ h => h
  rw [wp_bind, wp_get]
  split
  · exact h
  · split
    · exact asks_await h
    · rw [wp_bind, wp_modify]
      exact asks_await ⟨h.txnId, h.concat (c := .getPtr id ctx.txnId) h.txnId⟩

theorem asks_lockOptional (h : ctx.Asking t) :
    wp (lockOptional k id) (fun _ => Asking t) (fun _ => Asking t) ctx := by
  rw [lockOptional, wp_bind, wp_get]
  split
  · exact asks_await h
  · split
    · rw [wp_bind, wp_modify]
      exact asks_await ⟨h.txnId, h.calls⟩
    · rw [wp_bind, wp_modify]
      exact asks_await ⟨h.txnId, h.concat (c := .lock id ctx.txnId) h.txnId⟩

theorem asks_lock (h : ctx.Asking t) :
    wp (lock k id) (fun _ => Asking t) (fun _ => Asking t) ctx := by
  rw [lock, wp_bind]
  refine wp_mono (asks_lockOptional h) (fun success ctx h => ?_) fun _ _ h => h
  cases success <;> exact h

/-- The end of `write` and `delete`. -/
theorem asks_put (h : ctx.Asking t) {e : Failure} {value : Option (AnyRef O)} :
    wp (do
        lock k id
        if (← get).isClosed then throw e
        modify fun ctx => { ctx with writeCache := ctx.writeCache.insert id value })
      (fun _ => Asking t) (fun _ => Asking t) ctx := by
  rw [wp_bind]
  refine wp_mono (asks_lock h) (fun _ ctx h => ?_) fun _ _ h => h
  rw [wp_bind, wp_get]
  split
  · exact h
  · exact ⟨h.txnId, h.calls⟩

theorem asks_write [DecidableEq O] (h : ctx.Asking t) {value : Option (AnyRef O)} :
    wp (STMPtr.write k classTag id value) (fun _ => Asking t) (fun _ => Asking t) ctx := by
  rw [STMPtr.write, STMPtr.recover, wp_adaptExcept, write, chainEx, wp_adaptExcept, wp_bind]
  refine wp_mono (asks_requireOpen h) (fun _ ctx h => ?_) fun _ _ h => h
  rw [wp_bind]
  refine wp_mono (asks_readOpt h) (fun prior ctx h => ?_) fun _ _ h => h
  split
  · exact asks_put h
  · exact h

theorem asks_delete (h : ctx.Asking t) :
    wp (STMPtr.delete k id) (fun _ => Asking t) (fun _ => Asking t) ctx := by
  rw [STMPtr.delete, STMPtr.recover, wp_adaptExcept, delete, chainEx, wp_adaptExcept, wp_bind]
  refine wp_mono (asks_requireOpen h) (fun _ ctx h => ?_) fun _ _ h => h
  rw [wp_bind]
  refine wp_mono (asks_readOpt h) (fun prior ctx h => ?_) fun _ _ h => h
  split
  · exact asks_put h
  · exact h

theorem asks_readPtr (h : ctx.Asking t) :
    wp (STMPtr.readOpt k classTag id) (fun _ => Asking t) (fun _ => Asking t) ctx := by
  rw [STMPtr.readOpt, wp_bind]
  refine wp_mono (asks_requireOpen h) (fun _ ctx h => ?_) fun _ _ h => h
  rw [chainEx, wp_adaptExcept, wp_bind]
  exact wp_mono (asks_readOpt h) (fun _ _ h => h) fun _ _ h => h

/-- Whether an operation returns or fails: its calls are reads and locks. -/
theorem first_asks [DecidableEq O] (body : TxnLogic O α) (h : ctx.Asking t) :
    wp (body.first k) (fun _ => Asking t) (fun _ => Asking t) ctx := by
  cases body with
  | ret a => exact h
  | readOpt classTag id next =>
    rw [TxnLogic.first, wp_bind]
    exact wp_mono (asks_readPtr h) (fun _ _ h => h) fun _ _ h => h
  | init classTag id default next =>
    rw [TxnLogic.first, wp_bind, STMPtr.init, wp_bind]
    refine wp_mono (asks_readPtr h) (fun value ctx h => ?_) fun _ _ h => h
    split
    · exact asks_write h
    · exact h
  | write classTag id value next =>
    rw [TxnLogic.first, wp_bind]
    exact asks_write h
  | delete id next =>
    rw [TxnLogic.first, wp_bind]
    exact asks_delete h
  | lock id next =>
    rw [TxnLogic.first, wp_bind, STMPtr.lock, chainEx, wp_adaptExcept]
    exact wp_mono (asks_lockOptional h) (fun _ _ h => h) fun _ _ h => h

/-! ## The same answers -/

/-- `K` gives the answers that `k` gave, but perhaps not to locks. -/
structure Answers (k K : Cluster O) : Prop where
  mapper : K.mapper = k.mapper
  getPtr : ∀ id v, k.getPtr id = .ok v → K.getPtr id = .ok v

/-- `K` answers locks as the context was answered. -/
def LockedBy (K : Cluster O) (ctx : STMTxnCtx O) : Prop :=
  ∀ id future, ctx.writeLocks.lookup id = some future → future = (K.lock id).map Option.isNone

theorem Answers.read (h : Answers k K) {v : Option (Option (AnyRef O))}
    (hv : k.read classTag id = .ok v) : K.read classTag id = .ok v := by
  unfold Cluster.read at hv ⊢
  cases hget : k.getPtr id with
  | error e => rw [hget] at hv; cases hv
  | ok stored => rwa [h.getPtr id stored hget, h.mapper, ← hget]

theorem LockedBy.of_insert {future : Except Failure Bool} {calls : List (Call JacksonValue)}
    (hnone : ctx.writeLocks.lookup id = none)
    (h : LockedBy K { ctx with writeLocks := ctx.writeLocks.insert id future, calls := calls }) :
    LockedBy K ctx := by
  intro x future' hx
  refine h x future' ?_
  rw [AList.lookup_insert_ne, hx]
  rintro rfl
  rw [hnone] at hx
  cases hx

theorem replays_requireOpen : Replays (LockedBy K) requireOpen requireOpen := by
  refine replays_bind replays_get fun ctx => ?_
  split
  · exact replays_throw _ _
  · exact replays_pure _

theorem replays_await {β : Type} (future : Except Failure β) :
    Replays (LockedBy K) (await future) (await future) := by
  cases future with
  | ok a => exact replays_pure a
  | error e => exact replays_throw e _

theorem replays_readOpt (h : Answers k K) :
    Replays (LockedBy K) (readOpt k classTag id) (readOpt K classTag id) := by
  refine replays_bind replays_requireOpen fun _ => replays_bind replays_get fun ctx => ?_
  split
  · exact replays_pure _
  · split
    · exact replays_await _
    · cases hread : k.read classTag id with
      | ok v =>
        rw [h.read hread]
        exact replays_bind (replays_modify fun _ h => h) fun _ => replays_await _
      | error e =>
        -- an unanswered read does not return
        intro s a s' hs
        cases hs

theorem await_ok {β : Type} {future : Except Failure β} {b : β} {ctx' : STMTxnCtx O}
    (h : await future ctx = .ok b ctx') : future = .ok b ∧ ctx' = ctx := by
  cases future <;> cases h
  exact ⟨rfl, rfl⟩

/-- The answer that a lock was given is in the context that it ends in. -/
theorem replays_lockOptional : Replays (LockedBy K) (lockOptional k id) (lockOptional K id) := by
  refine replays_get_bind fun ctx success ctx' hrun hok => ?_
  cases hlookup : ctx.writeLocks.lookup id with
  | some future =>
    simp only [hlookup] at hrun ⊢
    obtain ⟨-, rfl⟩ := await_ok hrun
    exact ⟨hrun, hok⟩
  | none =>
    simp only [hlookup] at hrun ⊢
    split at hrun
    · cases hrun
    · rename_i hopen
      obtain ⟨-, rfl⟩ := await_ok hrun
      rw [if_neg hopen, ← hok id _ (AList.lookup_insert _)]
      exact ⟨hrun, hok.of_insert hlookup⟩

theorem replays_lock : Replays (LockedBy K) (lock k id) (lock K id) := by
  refine replays_bind replays_lockOptional fun success => ?_
  cases success with
  | true => exact replays_pure _
  | false => exact replays_bind replays_get fun _ => replays_throw _ _

theorem replays_put {e : Failure} {value : Option (AnyRef O)} :
    Replays (LockedBy K)
      (do
        lock k id
        if (← get).isClosed then throw e
        modify fun ctx => { ctx with writeCache := ctx.writeCache.insert id value })
      (do
        lock K id
        if (← get).isClosed then throw e
        modify fun ctx => { ctx with writeCache := ctx.writeCache.insert id value }) := by
  refine replays_bind replays_lock fun _ => replays_bind replays_get fun ctx => ?_
  split
  · exact replays_throw _ _
  · exact replays_modify fun _ h => h

theorem replays_write [DecidableEq O] (h : Answers k K) {value : Option (AnyRef O)} :
    Replays (LockedBy K) (STMPtr.write k classTag id value) (STMPtr.write K classTag id value) := by
  refine replays_adaptExcept (replays_adaptExcept (replays_bind replays_requireOpen fun _ =>
    replays_bind (replays_readOpt h) fun prior => ?_))
  split
  · exact replays_put
  · exact replays_pure _

theorem replays_delete (h : Answers k K) :
    Replays (LockedBy K) (STMPtr.delete k id) (STMPtr.delete K id) := by
  refine replays_adaptExcept (replays_adaptExcept (replays_bind replays_requireOpen fun _ =>
    replays_bind (replays_readOpt h) fun prior => ?_))
  split
  · exact replays_put
  · exact replays_pure _

theorem replays_readPtr (h : Answers k K) :
    Replays (LockedBy K) (STMPtr.readOpt k classTag id) (STMPtr.readOpt K classTag id) :=
  replays_bind replays_requireOpen fun _ =>
    replays_adaptExcept (replays_bind (replays_readOpt h) fun _ => replays_pure _)

theorem first_replays [DecidableEq O] (h : Answers k K) (body : TxnLogic O α) :
    Replays (LockedBy K) (body.first k) (body.first K) := by
  cases body with
  | ret a => exact replays_pure _
  | readOpt classTag id next => exact replays_bind (replays_readPtr h) fun _ => replays_pure _
  | init classTag id default next =>
    refine replays_bind (replays_bind (replays_readPtr h) fun value => ?_) fun _ => replays_pure _
    split
    · exact replays_write h
    · exact replays_pure _
  | write classTag id value next => exact replays_bind (replays_write h) fun _ => replays_pure _
  | delete id next => exact replays_bind (replays_delete h) fun _ => replays_pure _
  | lock id next =>
    exact replays_bind (replays_adaptExcept replays_lockOptional) fun _ => replays_pure _

end STMTxnCtx

end ReSTM
