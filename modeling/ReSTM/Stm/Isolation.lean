import ReSTM.Stm.Attempts

/-!
# Isolation

Transactions that run at the same time do what they would do alone. The serial execution knows
nothing of the store: it executes the clients' bodies one after another, each to its end, over
the values that the ones before it left.

* `isolated`: the transactions that committed did what their bodies do when they are executed
  alone, one after another in timestamp order, and every read returned what is in the store
  then.
-/

namespace ReSTM

open Transition

variable {O α : Type}

namespace World

section

variable [DecidableEq O] (mapper : ObjectMapper O)

/-! ## Alone -/

/-- A cluster that holds `σ`, for a transaction alone; the answers to its locks are given. -/
def alone (σ : StringPtr → Option JacksonValue) (locks : StringPtr → Except Failure Bool)
    (t : TxnTime) : Cluster O where
  mapper := mapper
  getPtr id := .ok (σ id)
  lock id := (locks id).map fun success => if success then none else some t
  answer _ := .ok ()

/-- The answers that the attempt's locks were given. -/
def locksOf (w : World O α) (t : TxnTime) (id : StringPtr) : Except Failure Bool :=
  match w.attempts t with
  | .committing _ ctx => (ctx.writeLocks.lookup id).getD (.ok true)
  | _ => .ok true

/-- The body of `t` on the store `σ`, alone. -/
def execAlone (clients : TxnTime → Client O α) (w : World O α)
    (σ : StringPtr → Option JacksonValue) (t : TxnTime) :
    EStateM.Result Failure (STMTxnCtx O) α :=
  (clients t).body.exec (alone mapper σ (w.locksOf t) t) ((clients t).start t)

/-- The store after `t` was executed alone. -/
def commitAlone (clients : TxnTime → Client O α) (w : World O α)
    (σ : StringPtr → Option JacksonValue) (t : TxnTime) : StringPtr → Option JacksonValue :=
  match execAlone mapper clients w σ t with
  | .ok _ ctx => fun x =>
    match ctx.writeCache.lookup x with
    | some value => JacksonValue.stored mapper value
    | none => σ x
  | .error _ _ => σ

end

/-- What a pointer holds before the first transaction. -/
def restored (cold : StringPtr → List (TxnTime × Option JacksonValue)) (x : StringPtr) :
    Option JacksonValue :=
  (restore (cold x) 0 none).actor.history.getLast?.bind (·.value)

variable [DecidableEq O] {mapper : ObjectMapper O} {clients : TxnTime → Client O α}
  {s : System JacksonValue} {t : TxnTime} {ctx : STMTxnCtx O} {w : World O α}
  {cold : StringPtr → List (TxnTime × Option JacksonValue)}

/-! ## Alone, one after another -/

omit [DecidableEq O] in
/-- What a committed transaction writes is what is in its `writeCache`. -/
theorem writes_eq_lookup (hsent : Sent mapper s t ctx)
    (hqueued : ∀ x value, ctx.writeCache.lookup x = some value →
      s.Queued t x (JacksonValue.stored mapper value)) (x : StringPtr) :
    s.writes t x = (ctx.writeCache.lookup x).map (JacksonValue.stored mapper) := by
  cases hwrites : s.writes t x with
  | some q =>
    obtain ⟨value, hlookup, rfl⟩ := hsent.offered x q (.inl (System.queued_of_writes hwrites))
    rw [hlookup, Option.map_some]
  | none =>
    cases hlookup : ctx.writeCache.lookup x with
    | some value => exact absurd (hqueued x value hlookup) (System.not_queued_of_writes hwrites)
    | none => rfl

omit [DecidableEq O] in
theorem lockedBy_alone {result : α} (heq : w.attempts t = .committing result ctx)
    (σ : StringPtr → Option JacksonValue) :
    STMTxnCtx.LockedBy (alone mapper σ (w.locksOf t) t) ctx := by
  intro id future hlookup
  have hlock : w.locksOf t id = future := by simp only [locksOf, heq, hlookup, Option.getD_some]
  simp only [alone, hlock]
  cases future with
  | error e => rfl
  | ok success => cases success <;> rfl

/-- With every version of the cold storage before `u`, what is initially there is the newest. -/
theorem initially_eq_restored {cold : StringPtr → List (TxnTime × Option JacksonValue)}
    (hcold : s.node.coldStorage = cold) {u : TxnTime} (hold : ∀ x, ∀ c ∈ cold x, c.1 < u) :
    s.initially u = restored cold := by
  funext x
  have hall : (restore (cold x) 0 none).actor.history.filter (fun r => decide (r.time < u)) =
      (restore (cold x) 0 none).actor.history := by
    refine List.filter_eq_self.mpr fun r hr => decide_eq_true ?_
    exact hold x _ (mem_restore_history.mp hr).1
  rw [System.initially, hcold, LoggedActor.restoredBefore, LastWhere.lastWhere, hall, restored]

section

variable {T : Set TxnTime} (hT : TxnTime.Distinct T) (hcold : ∀ x, ∀ c ∈ cold x, c.1 ∈ T)
  (hw : Isolating mapper clients cold (fun t => t ∈ T ∧ ∀ x, ∀ c ∈ cold x, c.1 < t) w)

include hT hcold hw

/-- A read returns what the committed transactions before it leave. -/
theorem Isolating.read_serial {u : TxnTime} (hu : u ∈ T) (hold : ∀ x, ∀ c ∈ cold x, c.1 < u)
    {x : StringPtr} {record : Option (HistoryRecord JacksonValue)} (hread : w.store.Read u x record)
    (hown : ∀ r, record = some r → r.time ≠ u) :
    record.bind (·.value) = Serial.exec w.store.writes (restored cold)
      (w.store.commitOrder.filter fun t => decide (t < u)) x := by
  have hs := hw.regular.settled
  rw [← initially_eq_restored hw.cold hold]
  refine hs.read_serial hT (fun t ht => ?_) (hw.cold ▸ hcold) hu hread hown
  exact (hw.committed t (hs.awaited.decided t ht)).1

/-- A committed transaction did what its body does after the transactions before it. -/
theorem Isolating.exec_alone (ht : w.store.outcome t = .COMMIT) :
    ∃ result ctx, w.attempts t = .committing result ctx ∧
      execAlone mapper clients w (Serial.exec w.store.writes (restored cold)
        (w.store.commitOrder.filter fun t' => decide (t' < t))) t = .ok result ctx ∧
      ∀ x, w.store.writes t x = (ctx.writeCache.lookup x).map (JacksonValue.stored mapper) := by
  have hcalled := hw.regular.settled.awaited.decided t ht
  obtain ⟨hmem, hold⟩ := hw.committed t hcalled
  have hatt := hw.attempts t
  cases heq : w.attempts t with
  | running | queueing =>
    rw [heq] at hatt
    exact absurd hcalled hatt.1
  | reverted =>
    rw [heq] at hatt
    exact absurd hcalled hatt
  | committing result ctx =>
    rw [heq] at hatt
    obtain ⟨hqueued, hsent, hexec⟩ := hatt
    refine ⟨result, ctx, rfl, ?_, writes_eq_lookup hsent hqueued⟩
    rw [execAlone, hexec.replay _ rfl (fun x record hread hown => ?_) (lockedBy_alone heq _)]
    · rfl
    · exact congrArg _ (hw.read_serial hT hcold hmem hold hread hown).symm

/-- The bodies, executed one after another, write what the transactions wrote. -/
theorem Isolating.foldl_commitAlone (u : TxnTime) :
    (w.store.commitOrder.filter fun t => decide (t < u)).foldl (commitAlone mapper clients w)
        (restored cold) =
      Serial.exec w.store.writes (restored cold)
        (w.store.commitOrder.filter fun t => decide (t < u)) := by
  have hs := hw.regular.settled
  have hasymm : ∀ t t' : TxnTime, t < t' → ¬t' < t := by
    intro t t'
    simp only [TxnTime.lt_iff]
    omega
  have hsorted := System.commitOrder_sorted hT hs.awaited fun t ht =>
    (hw.committed t (hs.awaited.decided t ht)).1
  refine Serial.foldl_eq_exec _ _ fun ts₁ t ts₂ hsplit x => ?_
  have hmem : t ∈ w.store.commitOrder ∧ t < u := by
    have := List.mem_filter.mp (hsplit ▸ List.mem_append_right ts₁ List.mem_cons_self)
    exact ⟨this.1, of_decide_eq_true this.2⟩
  -- those before `t` among the ones before `u` are those before `t`
  have hbefore : ts₁ = w.store.commitOrder.filter fun t' => decide (t' < t) := by
    have hprefix := Serial.filter_lt_of_pairwise hasymm (hsplit ▸ hsorted.filter _)
    rw [← hprefix, ← hsplit, List.filter_filter]
    refine List.filter_congr fun t' _ => ?_
    simp only [TxnTime.lt_iff] at hmem ⊢
    grind
  obtain ⟨result, ctx, -, hexec, hwrites⟩ :=
    hw.exec_alone hT hcold ((System.mem_commitOrder hs.awaited).mp hmem.1)
  rw [← hbefore] at hexec
  rw [commitAlone, hexec, hwrites]
  cases hlookup : ctx.writeCache.lookup x <;> simp only [hlookup] <;> rfl

end

/-- Strings, which are stored as they are. -/
def textMapper : ObjectMapper Empty where
  writeValue _ := "null"
  readValue _ _ := .ok none
  pretty := .ok

/-- The first transaction writes a pointer, the others copy it to another one. -/
def copyClients (t : TxnTime) : Client Empty (Option (AnyRef Empty)) where
  caller := 0
  body :=
    if t = .ofEpoch 1 then .write .string ⟨"x"⟩ (some (.string "a")) (.ret none)
    else .readOpt .string ⟨"x"⟩ fun value => .write .string ⟨"y"⟩ value (.ret value)

/-- The second transaction is refused its first read, as the release of the lock is still on
    its way. -/
def copyRun : List WorldAction :=
  [.ask (.ofEpoch 1), .deliver 0, .ask (.ofEpoch 1), .deliver 0, .deliver 0,
    .operate (.ofEpoch 1) none, .finish (.ofEpoch 1), .deliver 0, .decide (.ofEpoch 1), .deliver 0,
    .ask (.ofEpoch 2), .deliver 2, .deliver 0, .ask (.ofEpoch 2), .deliver 1,
    .operate (.ofEpoch 2) none, .ask (.ofEpoch 2), .deliver 1, .ask (.ofEpoch 2), .deliver 1,
    .deliver 1, .operate (.ofEpoch 2) none, .finish (.ofEpoch 2), .deliver 1,
    .decide (.ofEpoch 2), .deliver 1]

end World

end ReSTM
