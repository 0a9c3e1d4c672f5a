import ReSTM.Stm.TxnLogic
import ReSTM.Stm.Supplied

/-!
# Concurrent attempts

Clients run the bodies of their transactions against one store, all at the same time. Each
attempt has a timestamp of its own, and executes the body's operations over its own context as
the answers to its calls come in; then it sends what is in `writeCache`, and commits when all
of it has been acknowledged (`_txnRun`, `stm/STMTxn.scala`, lines 52–112; `commit`,
`stm/STMTxnCtx.scala`, lines 114–125). In between, the messages of all attempts are delivered
in any order, time passes, other clients read, and anyone may reset or clean up any attempt.

* `step_isolating`: every attempt is where its body comes to with the answers that the store
  has given it, and the store has of it what is in its `writeCache`.
-/

namespace ReSTM

open Transition Replay WP

variable {O α : Type}

/-- What is stored for a value; a deletion stores none. -/
def JacksonValue.stored (mapper : ObjectMapper O) (value : Option (AnyRef O)) :
    Option JacksonValue :=
  value.map fun newValue => .ofValue mapper (some newValue)

/-! ## What the store has answered -/

/-- The record that a read at `t` returned. -/
def Line.readBy {V : Type} (t : TxnTime) : Line V → Option (Option (HistoryRecord V))
  | .read u record => if u = t then some record else none
  | _ => none

theorem Line.readBy_eq_some {V : Type} {t : TxnTime} {line : Line V}
    {record : Option (HistoryRecord V)} (h : line.readBy t = some record) :
    line = .read t record := by
  cases line with
  | read u record' =>
    simp only [readBy] at h
    split at h
    · next hu => cases h; rw [hu]
    · cases h
  | _ => cases h

namespace System

variable {V : Type}

/-- The answer to a read of `x` at `t`, if there is one. -/
def answerOf (s : System V) (t : TxnTime) (x : StringPtr) : Option (Option (HistoryRecord V)) :=
  (s.node.ptrs x).bind fun p => p.log.findSome? (Line.readBy t)

/-- The lock of `x` was granted to `t`. -/
def granted [DecidableEq V] (s : System V) (t : TxnTime) (x : StringPtr) : Bool :=
  (s.node.ptrs x).any fun p => decide (.locked t ∈ p.log)

theorem read_of_answerOf {s : System V} {t : TxnTime} {x : StringPtr}
    {record : Option (HistoryRecord V)} (h : s.answerOf t x = some record) : s.Read t x record := by
  obtain ⟨p, hp, hfind⟩ := Option.bind_eq_some_iff.mp h
  obtain ⟨l₁, line, l₂, hlog, hline, -⟩ := List.findSome?_eq_some_iff.mp hfind
  refine ⟨p, hp, ?_⟩
  rw [hlog, ← Line.readBy_eq_some hline]
  exact List.mem_append_right _ List.mem_cons_self

end System

/-! ## Clients and their attempts -/

/-- A transaction's client, and the body that it runs. -/
structure Client (O α : Type) where
  caller : ℕ
  body : TxnLogic O α

/-- The context that an attempt starts with. -/
def Client.start (client : Client O α) (t : TxnTime) : STMTxnCtx O where
  caller := client.caller
  txnId := t

/-- Where an attempt is: in its body, waiting for its values or for its commit to be answered,
    or given up. -/
inductive TxnAttempt (O α : Type) where
  | running (rest : TxnLogic O α) (ctx : STMTxnCtx O)
  | queueing (result : α) (ctx : STMTxnCtx O)
  | committing (result : α) (ctx : STMTxnCtx O)
  | reverted

/-- The store and every attempt by its timestamp. -/
structure World (O α : Type) where
  store : System JacksonValue
  attempts : TxnTime → TxnAttempt O α

/-- One step: time passes, a message is delivered, anyone reads, resets or cleans up, or an
    attempt goes on. A lock that was not granted may have been refused for a `conflict`. -/
inductive WorldAction where
  | tick (clock : Clock)
  | deliver (i : ℕ)
  | observe (c : Call JacksonValue)
  | ask (t : TxnTime)
  | operate (t : TxnTime) (conflict : Option TxnTime)
  | finish (t : TxnTime)
  | decide (t : TxnTime)
  | revert (t : TxnTime)

/-- The attempt that an action is about. -/
def WorldAction.attempt? : WorldAction → Option TxnTime
  | ask t | operate t _ | finish t | decide t | revert t => some t
  | _ => none

/-- The calls that anyone may make for any transaction. -/
def Call.observes {V : Type} : Call V → Bool
  | .getCurrent _ | .getPtr _ _ | .reset _ _ | .cleanup _ => true
  | _ => false

namespace World

section

variable [DecidableEq O] (mapper : ObjectMapper O)

/-- The cluster for the attempt `t`, as far as it has answered. -/
def cluster (s : System JacksonValue) (t : TxnTime) (conflict : Option TxnTime) : Cluster O where
  mapper := mapper
  getPtr id :=
    match s.answerOf t id with
    | some record => .ok (record.bind (·.value))
    | none => .error (.transactionConflict "" none)
  lock id :=
    if s.granted t id then .ok none
    else
      match conflict with
      | some c => .ok (some c)
      | none => .error (.transactionConflict "" none)
  answer _ := .ok ()

/-- Every value was acknowledged, and no other call of the attempt waits for its answer. -/
def Acknowledged (s : System JacksonValue) (t : TxnTime) (ctx : STMTxnCtx O) : Prop :=
  (∀ m ∈ s.net, m.pends t = false) ∧
    ∀ write ∈ ctx.writeCache.entries, ∀ e ∈ s.events, e.refuses write.1 t = false

instance (s : System JacksonValue) (t : TxnTime) (ctx : STMTxnCtx O) :
    Decidable (Acknowledged s t ctx) :=
  inferInstanceAs (Decidable ((∀ m ∈ s.net, m.pends t = false) ∧
    ∀ write ∈ ctx.writeCache.entries, ∀ e ∈ s.events, e.refuses write.1 t = false))

/-- Calls to the store, after which the attempt is where `next` says. -/
def proceed (w : World O α) (t : TxnTime) (cs : List (Call JacksonValue)) (next : TxnAttempt O α) :
    World O α where
  store := TxnSystem.callAll cs w.store
  attempts := Function.update w.attempts t next

omit [DecidableEq O] in
@[simp] theorem proceed_self {w : World O α} {t : TxnTime} {cs : List (Call JacksonValue)}
    {next : TxnAttempt O α} : (w.proceed t cs next).attempts t = next :=
  Function.update_self ..

omit [DecidableEq O] in
theorem proceed_of_ne {w : World O α} {t u : TxnTime} {cs : List (Call JacksonValue)}
    {next : TxnAttempt O α} (h : u ≠ t) : (w.proceed t cs next).attempts u = w.attempts u :=
  Function.update_of_ne h ..

def step (w : World O α) : WorldAction → World O α
  | .tick clock => { w with store := w.store.step (.tick clock) }
  | .deliver i => { w with store := w.store.step (.deliver i) }
  | .observe c => if c.observes then { w with store := w.store.step (.call c) } else w
  | .ask t =>
    match w.attempts t with
    | .running rest ctx =>
      match rest.first (cluster mapper w.store t none) ctx with
      | .ok _ _ => w
      | .error _ ctx' =>
        -- the call that the operation waits for
        w.proceed t (ctx'.calls.drop ctx.calls.length).getLast?.toList (.running rest ctx)
    | _ => w
  | .operate t conflict =>
    match w.attempts t with
    | .running rest ctx =>
      match rest.first (cluster mapper w.store t conflict) ctx with
      | .ok rest' ctx' => w.proceed t [] (.running rest' ctx')
      | .error _ _ => w
    | _ => w
  | .finish t =>
    match w.attempts t with
    | .running (.ret a) ctx =>
      w.proceed t (ctx.writes (cluster mapper w.store t none)) (.queueing a ctx)
    | _ => w
  | .decide t =>
    match w.attempts t with
    | .queueing a ctx =>
      if Acknowledged w.store t ctx then w.proceed t [.commit ctx.caller t] (.committing a ctx)
      else w
    | _ => w
  | .revert t =>
    match w.attempts t with
    | .running _ ctx | .queueing _ ctx => w.proceed t [.reset ctx.caller t] .reverted
    | _ => w

/-- A store that has just started, and clients that are about to begin. -/
def start (clients : TxnTime → Client O α) (clock : Clock)
    (cold : StringPtr → List (TxnTime × Option JacksonValue)) : World O α where
  store := System.start clock cold
  attempts t := .running (clients t).body ((clients t).start t)

end

/-! ## The store under the attempts -/

section

variable {s : System JacksonValue} {a : Action JacksonValue} {t : TxnTime}
  {cs : List (Call JacksonValue)}

/-- The store in every run of attempts. -/
structure Regular (s : System JacksonValue) : Prop where
  settled : s.Settled
  live : s.Live

theorem regular_step (hs : Regular s) (ha : s.Awaits a) (hnew : ¬System.NewPtr a) :
    Regular (s.step a) :=
  ⟨System.settled_step hs.settled ha hnew, System.live_step hs.live a⟩

/-- The action neither commits `t` nor sends a value of it. -/
def Spares (t : TxnTime) (a : Action JacksonValue) : Prop :=
  (∀ caller, a ≠ .call (.commit caller t)) ∧ ∀ write, a ≠ .call (writeCall t write)

theorem not_commitCalled_step (h : ¬s.CommitCalled t) (ha : Spares t a) :
    ¬(s.step a).CommitCalled t := by
  intro h'
  rcases System.CommitCalled.of_step h' with h' | ⟨caller, rfl⟩
  · exact h h'
  · exact ha.1 caller rfl

end

/-! ## What an attempt has done -/

variable [DecidableEq O] (mapper : ObjectMapper O) (clients : TxnTime → Client O α)

/-- The attempt has come from the start of its body to `rest`, under every cluster that
    answers as the store did. -/
structure Executes (s : System JacksonValue) (t : TxnTime) (rest : TxnLogic O α)
    (ctx : STMTxnCtx O) : Prop where
  asking : ctx.Asking t
  replay : ∀ K : Cluster O, K.mapper = mapper →
    (∀ x record, s.Read t x record → (∀ r, record = some r → r.time ≠ t) →
      K.getPtr x = .ok (record.bind (·.value))) →
    STMTxnCtx.LockedBy K ctx →
    (clients t).body.exec K ((clients t).start t) = rest.exec K ctx

/-- What the store was sent is what is in `writeCache`. -/
structure Sent (s : System JacksonValue) (t : TxnTime) (ctx : STMTxnCtx O) : Prop where
  offered : ∀ x q, s.Offered t x q →
    ∃ value, ctx.writeCache.lookup x = some value ∧ q = JacksonValue.stored mapper value
  answered : ∀ x value, ctx.writeCache.lookup x = some value →
    s.Answered t x (JacksonValue.stored mapper value)

def Sound (s : System JacksonValue) (t : TxnTime) : TxnAttempt O α → Prop
  | .running rest ctx =>
    ¬s.CommitCalled t ∧ (∀ x q, ¬s.Offered t x q) ∧ Executes mapper clients s t rest ctx
  | .queueing a ctx =>
    ¬s.CommitCalled t ∧ Sent mapper s t ctx ∧ Executes mapper clients s t (.ret a) ctx
  | .committing a ctx =>
    (∀ x value, ctx.writeCache.lookup x = some value →
      s.Queued t x (JacksonValue.stored mapper value)) ∧
    Sent mapper s t ctx ∧ Executes mapper clients s t (.ret a) ctx
  | .reverted => ¬s.CommitCalled t

variable {mapper clients} {s : System JacksonValue} {a : Action JacksonValue} {t : TxnTime}
  {rest : TxnLogic O α} {ctx : STMTxnCtx O} {attempt : TxnAttempt O α}

theorem Executes.step (h : Executes mapper clients s t rest ctx) (a : Action JacksonValue) :
    Executes mapper clients (s.step a) t rest ctx where
  asking := h.asking
  replay K hmapper hreads := h.replay K hmapper fun x record hread =>
    hreads x record (System.Logged.step hread a)

theorem Executes.callAll (h : Executes mapper clients s t rest ctx) (cs : List (Call JacksonValue)) :
    Executes mapper clients (TxnSystem.callAll cs s) t rest ctx where
  asking := h.asking
  replay K hmapper hreads := h.replay K hmapper fun x record hread =>
    hreads x record (System.Logged.run hread _)

omit [DecidableEq O] in
theorem Sent.step (h : Sent mapper s t ctx) (hs : Regular s)
    (ha : ∀ write, a ≠ .call (writeCall t write)) : Sent mapper (s.step a) t ctx where
  offered x q hq := by
    rcases System.offered_step hq with hq | rfl
    · exact h.offered x q hq
    · exact absurd rfl (ha _)
  answered x value hx := System.answered_step hs.settled hs.live (h.answered x value hx) a

/-- What others do leaves an attempt sound. -/
theorem Sound.step (h : Sound mapper clients s t attempt) (hs : Regular s) (ha : Spares t a) :
    Sound mapper clients (s.step a) t attempt := by
  cases attempt with
  | running rest ctx =>
    obtain ⟨hopen, hoffered, hexec⟩ := h
    refine ⟨not_commitCalled_step hopen ha, fun x q hq => ?_, hexec.step a⟩
    rcases System.offered_step hq with hq | rfl
    · exact hoffered x q hq
    · exact ha.2 _ rfl
  | queueing result ctx =>
    exact ⟨not_commitCalled_step h.1 ha, h.2.1.step hs ha.2, h.2.2.step a⟩
  | committing result ctx =>
    exact ⟨fun x value hx => System.Logged.step (h.1 x value hx) a, h.2.1.step hs ha.2, h.2.2.step a⟩
  | reverted => exact not_commitCalled_step h ha

/-! ## Calls one after another -/

section

variable {cs : List (Call JacksonValue)}

/-- Calls that are made in turn and create no pointers. -/
def InTurn (s : System JacksonValue) (cs : List (Call JacksonValue)) : Prop :=
  Along System.step System.Awaits s (cs.map .call) ∧
    ∀ c ∈ cs, ¬System.NewPtr (Action.call c)

omit [DecidableEq O] in
theorem inTurn_cons {c : Call JacksonValue} (h : InTurn s (c :: cs)) (hs : Regular s) :
    Regular (s.step (.call c)) ∧ InTurn (s.step (.call c)) cs :=
  ⟨regular_step hs h.1.1 (h.2 c List.mem_cons_self), h.1.2,
    fun c' hc' => h.2 c' (List.mem_cons_of_mem _ hc')⟩

theorem regular_callAll (hs : Regular s) (h : InTurn s cs) : Regular (TxnSystem.callAll cs s) := by
  induction cs generalizing s with
  | nil => exact hs
  | cons c cs ih =>
    obtain ⟨hs', h'⟩ := inTurn_cons h hs
    exact ih hs' h'

/-- What others call for leaves an attempt sound. -/
theorem Sound.callAll (hatt : Sound mapper clients s t attempt) (hs : Regular s)
    (h : InTurn s cs) (hspares : ∀ c ∈ cs, Spares t (.call c)) :
    Sound mapper clients (TxnSystem.callAll cs s) t attempt := by
  induction cs generalizing s with
  | nil => exact hatt
  | cons c cs ih =>
    obtain ⟨hs', h'⟩ := inTurn_cons h hs
    exact ih (hatt.step hs (hspares c List.mem_cons_self)) hs' h'
      fun c' hc' => hspares c' (List.mem_cons_of_mem _ hc')

theorem commitCalled_callAll (h : (TxnSystem.callAll cs s).CommitCalled t) :
    s.CommitCalled t ∨ ∃ caller, .commit caller t ∈ cs := by
  induction cs generalizing s with
  | nil => exact .inl h
  | cons c cs ih =>
    rcases ih h with h | ⟨caller, hc⟩
    · rcases System.CommitCalled.of_step h with h | ⟨caller, hc⟩
      · exact .inl h
      · exact .inr ⟨caller, Action.call.inj hc ▸ List.mem_cons_self⟩
    · exact .inr ⟨caller, List.mem_cons_of_mem _ hc⟩

theorem offered_callAll {x : StringPtr} {q : Option JacksonValue}
    (h : (TxnSystem.callAll cs s).Offered t x q) : s.Offered t x q ∨ writeCall t (x, q) ∈ cs := by
  induction cs generalizing s with
  | nil => exact .inl h
  | cons c cs ih =>
    rcases ih h with h | hc
    · rcases System.offered_step h with h | hc
      · exact .inl h
      · exact .inr (Action.call.inj hc ▸ List.mem_cons_self)
    · exact .inr (List.mem_cons_of_mem _ hc)

theorem answered_callAll {x : StringPtr} {q : Option JacksonValue} (hs : Regular s)
    (h : InTurn s cs) (ha : s.Answered t x q ∨ writeCall t (x, q) ∈ cs) :
    (TxnSystem.callAll cs s).Answered t x q := by
  induction cs generalizing s with
  | nil => exact ha.resolve_right List.not_mem_nil
  | cons c cs ih =>
    obtain ⟨hs', h'⟩ := inTurn_cons h hs
    refine ih hs' h' ?_
    rcases ha with ha | ha
    · exact .inl (System.answered_step hs.settled hs.live ha _)
    · rcases List.mem_cons.mp ha with rfl | ha
      · exact .inl (.inl (System.offered_of_call s))
      · exact .inr ha

/-- An attempt that has not committed may send its values. -/
theorem inTurn_writes {writes : List (StringPtr × Option JacksonValue)} (h : ¬s.CommitCalled t) :
    InTurn s (writes.map (writeCall t)) := by
  have hnew : ∀ c ∈ writes.map (writeCall t), ¬System.NewPtr (Action.call c) := by
    intro c hc
    obtain ⟨⟨x, q⟩, -, rfl⟩ := List.mem_map.mp hc
    cases q <;> exact id
  refine ⟨?_, hnew⟩
  induction writes generalizing s with
  | nil => trivial
  | cons write writes ih =>
    obtain ⟨x, q⟩ := write
    have hawaits : s.Awaits (.call (writeCall t (x, q))) := by cases q <;> exact h
    refine ⟨hawaits, ih (fun h' => ?_) fun c hc => hnew c (List.mem_cons_of_mem _ hc)⟩
    rcases System.CommitCalled.of_step h' with h' | ⟨caller, hc⟩
    · exact h h'
    · cases q <;> cases hc

end

/-! ## One step -/

variable {cold : StringPtr → List (TxnTime × Option JacksonValue)} {P : TxnTime → Prop}
  {w : World O α}

variable (mapper clients cold P) in
/-- The invariant of runs whose attempts are made by transactions that `P` allows. -/
structure Isolating (w : World O α) : Prop where
  regular : Regular w.store
  cold : w.store.node.coldStorage = cold
  attempts : ∀ t, Sound mapper clients w.store t (w.attempts t)
  committed : ∀ t, w.store.CommitCalled t → P t

omit [DecidableEq O] in
theorem callAll_cold (cs : List (Call JacksonValue)) (s : System JacksonValue) :
    (TxnSystem.callAll cs s).node.coldStorage = s.node.coldStorage :=
  run_invariant (I := fun s' : System JacksonValue => s'.node.coldStorage = s.node.coldStorage)
    (fun _ _ h => (System.step_cold _ _).trans h) _ rfl

/-- A step of the store that no attempt makes. -/
theorem Isolating.store (hw : Isolating mapper clients cold P w) (a : Action JacksonValue)
    (hawaits : w.store.Awaits a) (hnew : ¬System.NewPtr a) (hspares : ∀ t, Spares t a) :
    Isolating mapper clients cold P { w with store := w.store.step a } where
  regular := regular_step hw.regular hawaits hnew
  cold := (System.step_cold _ _).trans hw.cold
  attempts t := (hw.attempts t).step hw.regular (hspares t)
  committed t h := by
    by_contra hP
    exact not_commitCalled_step (fun h => hP (hw.committed t h)) (hspares t) h

/-- Calls of the attempt `t`. -/
theorem Isolating.proceed (hw : Isolating mapper clients cold P w) {cs : List (Call JacksonValue)}
    {next : TxnAttempt O α} (hturn : InTurn w.store cs) (hP : ∀ caller u, .commit caller u ∈ cs → P u)
    (hspares : ∀ u, u ≠ t → ∀ c ∈ cs, Spares u (.call c))
    (hnext : Sound mapper clients (TxnSystem.callAll cs w.store) t next) :
    Isolating mapper clients cold P (w.proceed t cs next) where
  regular := regular_callAll hw.regular hturn
  cold := (callAll_cold _ _).trans hw.cold
  attempts u := by
    by_cases hu : u = t
    · subst hu
      rw [proceed_self]
      exact hnext
    · rw [proceed_of_ne hu]
      exact (hw.attempts u).callAll hw.regular hturn (hspares u hu)
  committed u h := by
    rcases commitCalled_callAll h with h | ⟨caller, hc⟩
    · exact hw.committed u h
    · exact hP caller u hc

/-- A read of an open attempt does not find a version of its own. -/
theorem Isolating.not_own (hw : Isolating mapper clients cold P w)
    (hopen : ¬w.store.CommitCalled t) (hold : ∀ x, ∀ c ∈ cold x, c.1 < t) {x : StringPtr}
    {r : HistoryRecord JacksonValue} (hread : w.store.Read t x (some r)) : r.time ≠ t := by
  obtain ⟨p, hp, hline⟩ := hread
  have hps := hw.regular.settled.ptrs x p hp
  rcases hps.readOrigin t r hline with hc | ⟨-, hc⟩
  · have hlt := hold x _ (hw.cold ▸ hc)
    rintro rfl
    exact absurd hlt (by simp [TxnTime.lt_iff])
  · have hcommit := (hps.released r.time (.inl hc)).1
    rintro rfl
    exact hopen (hw.regular.settled.awaited.decided _ hcommit)

/-- The operation did what it does under every cluster that answers as the store did. -/
theorem Isolating.operate (hw : Isolating mapper clients cold P w)
    (hopen : ¬w.store.CommitCalled t) (hold : ∀ x, ∀ c ∈ cold x, c.1 < t)
    (h : Executes mapper clients w.store t rest ctx) {conflict : Option TxnTime}
    {rest' : TxnLogic O α} {ctx' : STMTxnCtx O}
    (hrun : rest.first (cluster mapper w.store t conflict) ctx = .ok rest' ctx') :
    Executes mapper clients w.store t rest' ctx' where
  asking := by
    have hasks := STMTxnCtx.first_asks (k := cluster mapper w.store t conflict) rest h.asking
    unfold wp at hasks
    rw [hrun] at hasks
    exact hasks
  replay K hmapper hreads hlocks := by
    have hanswers : STMTxnCtx.Answers (cluster mapper w.store t conflict) K := by
      refine ⟨hmapper, fun id v hv => ?_⟩
      simp only [cluster] at hv
      split at hv
      · next record hrecord =>
        cases hv
        refine hreads id record (System.read_of_answerOf hrecord) ?_
        rintro r rfl
        exact hw.not_own hopen hold (System.read_of_answerOf hrecord)
      · cases hv
    obtain ⟨hfirst, hlocks⟩ := STMTxnCtx.first_replays hanswers rest ctx rest' ctx' hrun hlocks
    rw [h.replay K hmapper hreads hlocks, TxnLogic.exec_eq]
    show EStateM.bind _ _ _ = _
    unfold EStateM.bind
    rw [hfirst]

omit [DecidableEq O] in
theorem writeCall_inj {t u : TxnTime} {write write' : StringPtr × Option JacksonValue}
    (h : writeCall t write = writeCall u write') : t = u ∧ write = write' := by
  obtain ⟨x, q⟩ := write
  obtain ⟨y, q'⟩ := write'
  cases q <;> cases q' <;> cases h <;> exact ⟨rfl, rfl⟩

omit [DecidableEq O] in
/-- The calls of `commit` are one for each entry of `writeCache`. -/
theorem writes_eq (k : Cluster O) (ctx : STMTxnCtx O) :
    ctx.writes k =
      (ctx.writeCache.entries.map fun write =>
        (write.1, JacksonValue.stored k.mapper write.2)).map (writeCall ctx.txnId) := by
  rw [List.map_map]
  rfl

/-- The calls of an attempt that waits are reads and locks. -/
theorem inTurn_ask {c : Call JacksonValue}
    (hopen : ¬s.CommitCalled t) (hc : c.asks t) :
    InTurn s [c] ∧ ∀ u, Spares u (.call c) := by
  cases c with
  | getPtr id u =>
    exact ⟨⟨⟨trivial, trivial⟩, by simp [System.NewPtr]⟩,
      fun u => ⟨nofun, fun ⟨x, q⟩ h => by cases q <;> cases h⟩⟩
  | lock id u =>
    obtain rfl : u = t := hc
    exact ⟨⟨⟨hopen, trivial⟩, by simp [System.NewPtr]⟩,
      fun u => ⟨nofun, fun ⟨x, q⟩ h => by cases q <;> cases h⟩⟩
  | _ => exact hc.elim

theorem step_ask (hw : Isolating mapper clients cold P w) (t : TxnTime) :
    Isolating mapper clients cold P (w.step mapper (.ask t)) := by
  have hatt := hw.attempts t
  simp only [step]
  split
  · next rest ctx heq =>
    rw [heq] at hatt
    split
    · exact hw
    · next e ctx' hrun =>
      have hasks := STMTxnCtx.first_asks (k := cluster mapper w.store t none) rest hatt.2.2.asking
      unfold wp at hasks
      rw [hrun] at hasks
      cases hlast : (ctx'.calls.drop ctx.calls.length).getLast? with
      | none =>
        exact hw.proceed ⟨trivial, nofun⟩ nofun nofun hatt
      | some c =>
        have hmem := List.mem_of_mem_drop (List.mem_of_getLast? hlast)
        obtain ⟨hturn, hspares⟩ := inTurn_ask hatt.1 (hasks.calls c hmem)
        have hspares' : ∀ u, ∀ c' ∈ [c], Spares u (.call c') :=
          fun u c' hc' => List.mem_singleton.mp hc' ▸ hspares u
        refine hw.proceed hturn ?_ (fun u _ => hspares' u)
          (Sound.callAll hatt hw.regular hturn (hspares' t))
        intro caller u hc
        exact absurd (congrArg _ (List.mem_singleton.mp hc).symm) ((hspares u).1 caller)
  · exact hw

theorem step_operate (hw : Isolating mapper clients cold P w) (t : TxnTime)
    (conflict : Option TxnTime) (hold : ∀ x, ∀ c ∈ cold x, c.1 < t) :
    Isolating mapper clients cold P (w.step mapper (.operate t conflict)) := by
  have hatt := hw.attempts t
  simp only [step]
  split
  · next rest ctx heq =>
    rw [heq] at hatt
    split
    · next rest' ctx' hrun =>
      exact hw.proceed ⟨trivial, nofun⟩ nofun nofun
        ⟨hatt.1, hatt.2.1, hw.operate hatt.1 hold hatt.2.2 hrun⟩
    · exact hw
  · exact hw

theorem step_finish (hw : Isolating mapper clients cold P w) (t : TxnTime) :
    Isolating mapper clients cold P (w.step mapper (.finish t)) := by
  have hatt := hw.attempts t
  simp only [step]
  split
  · next result ctx heq =>
    rw [heq] at hatt
    obtain ⟨hopen, hoffered, hexec⟩ := hatt
    rw [writes_eq, hexec.asking.txnId]
    have hmem : ∀ x q, writeCall t (x, q) ∈ (ctx.writeCache.entries.map fun write =>
        (write.1, JacksonValue.stored mapper write.2)).map (writeCall t) ↔
          ∃ value, ctx.writeCache.lookup x = some value ∧ q = JacksonValue.stored mapper value := by
      intro x q
      rw [List.mem_map_of_injective fun _ _ h => (writeCall_inj h).2, List.mem_map]
      constructor
      · rintro ⟨⟨y, value⟩, hentry, heq⟩
        cases heq
        exact ⟨value, AList.mem_lookup_iff.mpr hentry, rfl⟩
      · rintro ⟨value, hlookup, rfl⟩
        exact ⟨⟨x, value⟩, AList.mem_lookup_iff.mp hlookup, rfl⟩
    have hnot : ∀ caller u, .commit caller u ∉ (ctx.writeCache.entries.map fun write =>
        (write.1, JacksonValue.stored mapper write.2)).map (writeCall t) := by
      intro caller u h
      obtain ⟨⟨x, q⟩, -, hc⟩ := List.mem_map.mp h
      cases q <;> cases hc
    refine hw.proceed (inTurn_writes hopen) (fun caller u h => absurd h (hnot caller u)) ?_
      ⟨fun h => ?_, ⟨fun x q hq => ?_, fun x value hx => ?_⟩, hexec.callAll _⟩
    · intro u hu c hc
      obtain ⟨write, -, rfl⟩ := List.mem_map.mp hc
      refine ⟨fun caller h => ?_, fun write' h => hu (writeCall_inj (Action.call.inj h)).1.symm⟩
      exact hnot caller u (Action.call.inj h ▸ hc)
    · rcases commitCalled_callAll h with h | ⟨caller, h⟩
      · exact hopen h
      · exact hnot caller t h
    · rcases offered_callAll hq with hq | hq
      · exact absurd hq (hoffered x q)
      · exact (hmem x q).mp hq
    · exact answered_callAll hw.regular (inTurn_writes hopen) (.inr ((hmem x _).mpr ⟨value, hx, rfl⟩))
  · exact hw

theorem step_decide (hw : Isolating mapper clients cold P w) (t : TxnTime) (hP : P t) :
    Isolating mapper clients cold P (w.step mapper (.decide t)) := by
  have hatt := hw.attempts t
  simp only [step]
  split
  · next result ctx heq =>
    rw [heq] at hatt
    split
    · next hack =>
      obtain ⟨hopen, hsent, hexec⟩ := hatt
      have hturn : InTurn w.store [.commit ctx.caller t] := ⟨⟨hack.1, trivial⟩, by simp [System.NewPtr]⟩
      refine hw.proceed hturn ?_ ?_ ⟨fun x value hx => ?_, ?_, hexec.callAll _⟩
      · intro caller u hc
        cases List.mem_singleton.mp hc
        exact hP
      · intro u hu c hc
        rw [List.mem_singleton.mp hc]
        refine ⟨fun caller h => hu (by cases h; rfl), ?_⟩
        rintro ⟨x, q⟩ h
        cases q <;> cases h
      · refine System.Logged.run ?_ _
        rcases hsent.answered x value hx with (hq | hq) | ⟨e, he, hrefuses⟩
        · exact hq
        · have hpends := hack.1 _ hq
          cases hvalue : JacksonValue.stored mapper value <;>
            simp [hvalue, MemActor.supply, Msg.pends] at hpends
        · rw [hack.2 _ (AList.mem_lookup_iff.mp hx) e he] at hrefuses
          cases hrefuses
      · refine hsent.step (a := .call (.commit ctx.caller t)) hw.regular ?_
        rintro ⟨x, q⟩ h
        cases q <;> cases h
    · exact hw
  · exact hw

theorem step_revert (hw : Isolating mapper clients cold P w) (t : TxnTime) :
    Isolating mapper clients cold P (w.step mapper (.revert t)) := by
  have hatt := hw.attempts t
  have hrevert : ∀ caller, ¬w.store.CommitCalled t →
      Isolating mapper clients cold P (w.proceed t [.reset caller t] .reverted) := by
    intro caller hopen
    have hspares : ∀ u, Spares u (Action.call (.reset caller t : Call JacksonValue)) :=
      fun u => ⟨nofun, fun ⟨x, q⟩ h => by cases q <;> cases h⟩
    refine hw.proceed ⟨⟨trivial, trivial⟩, by simp [System.NewPtr]⟩ (by simp) ?_
      (not_commitCalled_step hopen (hspares t))
    intro u _ c hc
    rw [List.mem_singleton.mp hc]
    exact hspares u
  simp only [step]
  split
  · next rest ctx heq =>
    rw [heq] at hatt
    exact hrevert _ hatt.1
  · next result ctx heq =>
    rw [heq] at hatt
    exact hrevert _ hatt.1
  · exact hw

theorem step_isolating (hw : Isolating mapper clients cold P w) (a : WorldAction)
    (ha : ∀ t, a.attempt? = some t → P t ∧ ∀ x, ∀ c ∈ cold x, c.1 < t) :
    Isolating mapper clients cold P (w.step mapper a) := by
  cases a with
  | tick clock =>
    exact hw.store _ trivial id fun t => ⟨nofun, fun ⟨x, q⟩ h => nomatch h⟩
  | deliver i =>
    exact hw.store _ trivial id fun t => ⟨nofun, fun ⟨x, q⟩ h => nomatch h⟩
  | observe c =>
    simp only [step]
    split
    · next hc =>
      have hspares : ∀ t, Spares t (.call c) := by
        intro t
        constructor
        · rintro caller h
          cases h
          cases hc
        · rintro ⟨x, q⟩ h
          cases q <;> cases h <;> cases hc
      cases c with
      | getCurrent | getPtr | reset | cleanup => exact hw.store _ trivial id hspares
      | _ => cases hc
    · exact hw
  | ask t => exact step_ask hw t
  | operate t conflict => exact step_operate hw t conflict (ha t rfl).2
  | finish t => exact step_finish hw t
  | decide t => exact step_decide hw t (ha t rfl).1
  | revert t => exact step_revert hw t

theorem start_isolating (clients : TxnTime → Client O α) (clock : Clock)
    {cold : StringPtr → List (TxnTime × Option JacksonValue)}
    (hkeys : ∀ x, ((cold x).map Prod.fst).Nodup) :
    Isolating mapper clients cold P (start clients clock cold) where
  regular := ⟨System.settled_start clock hkeys, fun _ _ h => absurd h List.not_mem_nil⟩
  cold := rfl
  attempts t := by
    refine ⟨?_, ?_, ⟨rfl, fun _ h => absurd h List.not_mem_nil⟩, fun _ _ _ _ => rfl⟩
    · rintro ⟨e, he, -⟩
      exact absurd he List.not_mem_nil
    · rintro x q (⟨p, hp, -⟩ | h)
      · cases hp
      · exact absurd h List.not_mem_nil
  committed t := by
    rintro ⟨e, he, -⟩
    exact absurd he List.not_mem_nil

end World

end ReSTM
