import ReSTM.Actors.PreCommit
import ReSTM.Storage.NoOrphan
import ReSTM.Storage.OneOutcome

/-!
# Running a transaction until it commits

Model of `STMTxn.txnRun` (`stm/STMTxn.scala`) over the store. An attempt executes the
transaction's body, queues its writes and commits; when it fails it is reverted,
and if it failed with a conflict and retries are left, the next attempt starts with
a timestamp of its own once the revert has succeeded.

Other clients may do anything at any time: the calls of the body, the `cleanup` of
a competitor and the late messages of earlier attempts are steps of the store like
all others. A future may also fail at any time for reasons that the store does not
show.

* `effect_at_most_once`: of all attempts at most one takes effect, and it is the last.
-/

namespace ReSTM

open Transition

variable {V : Type}

/-! ## One execution of `txnRun` -/

/-- Where `_txnRun` is: which future it waits for, or how it ended. -/
inductive Phase where
  | running          -- `rawExecute`, line 59
  | timedOut         -- `ctx.revert()`, line 66
  | queueing         -- `writeFutures` of `ctx.commit()`
  | committing       -- `cluster.commit` in `ctx.commit()`
  | retryReverting   -- `ctx.revert()`, line 84
  | scheduled        -- the delay of line 93
  | finalReverting   -- `ctx.revert()`, line 102
  | succeeded
  | failed
deriving DecidableEq, Repr

/-- The state of `txnRun`: `txnId` is the timestamp of the current attempt, `earlier`
    are those of the attempts before it, newest first, and `writeCache` is that of
    the attempt that is queueing or committing. -/
structure STMTxn (V : Type) where
  caller : ℕ
  maxRetry : ℕ
  allowCompletion : Bool
  retryNumber : ℕ := 0
  txnId : TxnTime
  earlier : List TxnTime := []
  writeCache : List (StringPtr × Option V) := []
  phase : Phase := .running

/-- The value of `t` for `x` is still to be processed. -/
def Msg.supplies (x : StringPtr) (t : TxnTime) : Msg V → Bool
  | .ptr y (.writeBlob w _) | .ptr y (.delete w) => decide (y = x ∧ w = t)
  | _ => false

/-- The value of `t` for `x` was refused. -/
def Event.refuses (x : StringPtr) (t : TxnTime) : Event V → Bool
  | .failed y (.writeBlob w _) | .failed y (.delete w) => decide (y = x ∧ w = t)
  | _ => false

/-- The future that `caller` waits for is complete. -/
def Event.completes (caller : ℕ) (d : Decision) (t : TxnTime) (ok : Bool) : Event V → Bool
  | .completed c d' t' ok' => decide (c = caller ∧ d' = d ∧ t' = t ∧ ok' = ok)
  | _ => false

/-- The call of `ctx.commit` for one entry of `writeCache` (`stm/STMTxnCtx.scala`,
    lines 118–122). -/
def writeCall (t : TxnTime) (write : StringPtr × Option V) : Call V :=
  match write.2 with
  | some newValue => .queueValue write.1 t newValue
  | none => .delete write.1 t

/-- The store and one execution of `txnRun`. -/
structure TxnSystem (V : Type) where
  sys : System V
  txn : STMTxn V

/-- One step: the store does something, a future that `txnRun` waits for completes or
    fails, or the next attempt starts. -/
inductive TxnAction (V : Type) where
  | store (a : Action V)
  | returned (writeCache : List (StringPtr × Option V)) (totalTime : ℤ)
  | queued
  | completed (ok : Bool)
  | failed (conflict : Bool)
  | attempt (txnId : TxnTime)

namespace TxnSystem

/-- Make calls one after another. -/
def callAll (cs : List (Call V)) (sys : System V) : System V := run System.step sys (cs.map .call)

/-- `ctx.revert()`. -/
def revert (phase : Phase) (w : TxnSystem V) : TxnSystem V where
  sys := callAll [.reset w.txn.caller w.txn.txnId] w.sys
  txn := { w.txn with phase := phase }

def setPhase (phase : Phase) (w : TxnSystem V) : TxnSystem V :=
  { w with txn := { w.txn with phase := phase } }

/-- `recoverWith` (lines 79–110) after a `TransactionConflict` or another failure. -/
def recoverWith (conflict : Bool) (w : TxnSystem V) : TxnSystem V :=
  if conflict ∧ w.txn.retryNumber < w.txn.maxRetry then w.revert .retryReverting
  else if w.txn.allowCompletion then w.revert .finalReverting
  else w.setPhase .failed

/-- The body returned (lines 60–78), after `totalTime` nanoseconds. -/
def returned (writeCache : List (StringPtr × Option V)) (totalTime : ℤ) (w : TxnSystem V) :
    TxnSystem V :=
  if w.txn.allowCompletion then
    if ¬writeCache.isEmpty ∧ totalTime > 5000000000 then w.revert .timedOut
    else
      { sys := callAll (writeCache.map (writeCall w.txn.txnId)) w.sys
        txn := { w.txn with writeCache := writeCache, phase := .queueing } }
  else w.setPhase .succeeded

/-- Every queued value was acknowledged. -/
def AllQueued (w : TxnSystem V) : Prop :=
  ∀ write ∈ w.txn.writeCache, (∀ m ∈ w.sys.net, m.supplies write.1 w.txn.txnId = false) ∧
    ∀ e ∈ w.sys.events, e.refuses write.1 w.txn.txnId = false

instance (w : TxnSystem V) : Decidable w.AllQueued :=
  inferInstanceAs (Decidable (∀ write ∈ w.txn.writeCache,
    (∀ m ∈ w.sys.net, m.supplies write.1 w.txn.txnId = false) ∧
      ∀ e ∈ w.sys.events, e.refuses write.1 w.txn.txnId = false))

/-- The decision that the current attempt waits for is complete. -/
def Reported (d : Decision) (ok : Bool) (w : TxnSystem V) : Prop :=
  ∃ e ∈ w.sys.events, e.completes w.txn.caller d w.txn.txnId ok = true

instance (d : Decision) (ok : Bool) (w : TxnSystem V) : Decidable (w.Reported d ok) :=
  inferInstanceAs (Decidable
    (∃ e ∈ w.sys.events, e.completes w.txn.caller d w.txn.txnId ok = true))

/-- The awaited future completes. -/
def completed (ok : Bool) (w : TxnSystem V) : TxnSystem V :=
  match w.txn.phase with
  | .committing =>
    if w.Reported .commit ok then if ok then w.setPhase .succeeded else w.recoverWith false else w
  | .timedOut => if w.Reported .reset ok then w.recoverWith ok else w
  | .retryReverting =>
    if w.Reported .reset ok then if ok then w.setPhase .scheduled else w.setPhase .failed else w
  | .finalReverting => if w.Reported .reset ok then w.setPhase .failed else w
  | _ => w

/-- The awaited future fails. -/
def fails (conflict : Bool) (w : TxnSystem V) : TxnSystem V :=
  match w.txn.phase with
  | .running | .timedOut | .queueing | .committing => w.recoverWith conflict
  | .retryReverting | .finalReverting => w.setPhase .failed
  | _ => w

def step (w : TxnSystem V) : TxnAction V → TxnSystem V
  | .store a => { w with sys := w.sys.step a }
  | .returned writeCache totalTime =>
    if w.txn.phase = .running then w.returned writeCache totalTime else w
  | .queued =>
    if w.txn.phase = .queueing ∧ w.AllQueued then
      { sys := callAll [.commit w.txn.caller w.txn.txnId] w.sys
        txn := { w.txn with phase := .committing } }
    else w
  | .completed ok => w.completed ok
  | .failed conflict => w.fails conflict
  | .attempt txnId =>
    if w.txn.phase = .scheduled then
      { w with
        txn :=
          { w.txn with
            retryNumber := w.txn.retryNumber + 1
            txnId := txnId
            earlier := w.txn.txnId :: w.txn.earlier
            writeCache := []
            phase := .running } }
    else w

/-- `txnRun` is called. -/
def start (sys : System V) (caller maxRetry : ℕ) (allowCompletion : Bool) (txnId : TxnTime) :
    TxnSystem V where
  sys := sys
  txn := { caller := caller, maxRetry := maxRetry, allowCompletion := allowCompletion, txnId := txnId }

end TxnSystem

/-! ## What a completion says -/

namespace System

variable {s : System V} {t : TxnTime} {x : StringPtr} {p : LoggedActor V}

/-- A completed decision, delivered or not, is the outcome. -/
def Truthful (s : System V) : Prop :=
  ∀ c d t, (.completed c d t true ∈ s.net ∨ .completed c d t true ∈ s.events) →
    s.outcome t = d.state

theorem truthful_step (hs : s.Truthful) (a : Action V) : (s.step a).Truthful := by
  intro c d t h
  have hold : .completed c d t true ∈ s.net ∨ .completed c d t true ∈ s.events →
      (s.step a).outcome t = d.state := fun h => state_step_eq (hs c d t h) a
  rcases h with h | h
  · rcases mem_net_step h with h | h
    · exact hold (.inl h)
    · rcases follows_of_issued h with ⟨c, rfl, hc⟩ | ⟨m', hdel, hfollows⟩
      · cases c <;> cases hc
      · cases hfollows with
        | complete _ _ _ _ hok => exact hdel.state_setState (hok.mp rfl)
  · rcases completed_of_step h with h | hdel
    · exact hold (.inr h)
    · exact hold (.inl hdel.mem)

/-- What holds of the store in every run. -/
structure Sound (s : System V) : Prop where
  consistent : s.Consistent
  noOrphan : s.NoOrphan
  truthful : s.Truthful

theorem run_sound (hs : s.Sound) (as : List (Action V)) : (run step s as).Sound :=
  run_invariant (I := Sound)
    (fun _ a h => ⟨consistent_step h.consistent a, noOrphan_step h.noOrphan a,
      truthful_step h.truthful a⟩) as hs

theorem sound_start (clock : Clock) (cold : StringPtr → List (TxnTime × Option V)) :
    (start clock cold).Sound where
  consistent := consistent_start clock cold
  noOrphan := by
    rintro x t ⟨p, hp, -⟩
    cases hp
  truthful := by
    rintro c d t (h | h) <;> exact absurd h List.not_mem_nil

theorem run_outcome_eq {d : Decision} (h : s.outcome t = d.state) (as : List (Action V)) :
    (run step s as).outcome t = d.state := by
  rw [run_outcome (h ▸ d.state_ne_open), h]

/-- What a committed transaction queued for `x` is in the history, or it waits under the
    lock for the release that is on its way. -/
def Settles (s : System V) (t : TxnTime) (x : StringPtr) (p : LoggedActor V) : Prop :=
  Entered t p.log ∨ slotOwner p.log = some t ∧ p.actor.writeLock = some t ∧
    (.addLock x t ∈ s.net ∨ .ptr x (.writeCommit t) ∈ s.net)

theorem Sound.settles (hs : s.Sound) (ht : s.outcome t = .COMMIT) (hp : s.node.ptrs x = some p)
    {q : Option V} (hq : .queued t q ∈ p.log) (hinit : ¬Reinitialised t p.log) :
    s.Settles t x p := by
  have hobeys := hs.consistent.ptrs x p hp
  rcases hobeys.fate t q hq with h | h | h | h
  · have hlock := (hobeys.slot t h).1
    refine .inr ⟨h, hlock, ?_⟩
    rcases hs.noOrphan x t ⟨p, hp, hlock⟩ with ⟨-, hopen⟩ | h | h | h
    · rw [show (s.node.txns t).state = .COMMIT from ht] at hopen; cases hopen
    · exact .inl h
    · have hreset : s.outcome t = .RESET := hs.consistent.net x _ h
      rw [ht] at hreset; cases hreset
    · exact .inr h
  · exact .inl h
  · rw [hobeys.discarded t h] at ht; cases ht
  · exact absurd h hinit

end System

/-! ## What the writes of an attempt have come to -/

theorem writeCall_msg (t : TxnTime) (x : StringPtr) (q : Option V) :
    (writeCall t (x, q)).msg = .ptr x (MemActor.supply t q) := by
  cases q <;> rfl

/-- An actor queues a value, writes it or refuses it. -/
theorem MemActor.line_supply (a : MemActor V) (t : TxnTime) (q : Option V) :
    (∃ e, a.reply (supply t q) = .error e) ∨
      (supply t q).line a (a.reply (supply t q)) = .queued t q ∨
      (supply t q).line a (a.reply (supply t q)) = .written t q := by
  have heff := receive_effect a (supply t q)
  generalize a.reply (supply t q) = r at heff ⊢
  generalize a.step (supply t q) = a' at heff
  cases q with
  | none =>
    cases heff with
    | queueDelete => exact .inr (.inl rfl)
    | staleDelete => exact .inr (.inr rfl)
    | fail m e => exact .inl ⟨e, rfl⟩
  | some v =>
    cases heff with
    | queueBlob => exact .inr (.inl rfl)
    | staleBlob => exact .inr (.inr rfl)
    | fail m e => exact .inl ⟨e, rfl⟩

namespace System

variable {s : System V} {a : Action V} {t : TxnTime} {x : StringPtr} {line : Line V}
  {write : StringPtr × Option V}

/-- The line is in the pointer's log. -/
def Logged (s : System V) (x : StringPtr) (line : Line V) : Prop :=
  ∃ p, s.node.ptrs x = some p ∧ line ∈ p.log

theorem Logged.step (h : s.Logged x line) (a : Action V) : (s.step a).Logged x line := by
  obtain ⟨p, hp, hline⟩ := h
  rcases ptr_step_of_some hp a with hp' | ⟨m, -, hp'⟩
  · exact ⟨p, hp', hline⟩
  · exact ⟨_, hp', List.mem_cons_of_mem _ hline⟩

theorem Logged.run (h : s.Logged x line) (as : List (Action V)) :
    (run System.step s as).Logged x line :=
  run_invariant (I := fun s : System V => s.Logged x line) (fun _ a h => h.step a) as h

/-- A message that fails is recorded. -/
theorem Delivers.fails {p : LoggedActor V} {m : MemMsg V} {e : Failure}
    (h : s.Delivers a (.ptr x m)) (hp : s.node.ptrs x = some p)
    (hr : p.actor.reply m = .error e) : .failed x m ∈ (s.step a).events := by
  rw [h.step_eq, sendAll_events]
  simp [handle, hp, hr]

/-- The pointer has queued the value of `t`, or has written it since it came after its commit. -/
def Accepted (s : System V) (t : TxnTime) (write : StringPtr × Option V) : Prop :=
  s.Logged write.1 (.queued t write.2) ∨ s.Logged write.1 (.written t write.2)

/-- The value of `t` was sent to the pointer, which has accepted it or refused it or has yet to see
    it. -/
def Asked (s : System V) (t : TxnTime) (write : StringPtr × Option V) : Prop :=
  (∃ p, s.node.ptrs write.1 = some p) ∧
    (.ptr write.1 (MemActor.supply t write.2) ∈ s.net ∨
      (∃ e ∈ s.events, e.refuses write.1 t = true) ∨ s.Accepted t write)

theorem Accepted.step (h : s.Accepted t write) (a : Action V) : (s.step a).Accepted t write :=
  h.imp (·.step a) (·.step a)

theorem Asked.step (h : s.Asked t write) (a : Action V) : (s.step a).Asked t write := by
  obtain ⟨⟨p, hp⟩, hasked⟩ := h
  refine ⟨?_, ?_⟩
  · rcases ptr_step_of_some hp a with hp' | ⟨m, -, hp'⟩
    · exact ⟨p, hp'⟩
    · exact ⟨p.step m, hp'⟩
  · rcases hasked with hnet | ⟨e, he, hrefuses⟩ | haccepted
    · rcases mem_net_or_delivers hnet a with hnet' | hdel
      · exact .inl hnet'
      · right
        rcases p.actor.line_supply t write.2 with ⟨e, he⟩ | hline
        · refine .inl ⟨_, hdel.fails hp he, ?_⟩
          cases write.2 <;> exact decide_eq_true ⟨rfl, rfl⟩
        · have hlog : ∀ line, (MemActor.supply t write.2).line p.actor
              (p.actor.reply (MemActor.supply t write.2)) = line → (s.step a).Logged write.1 line :=
            fun line h => ⟨_, hdel.ptr_step hp, List.mem_cons.mpr (.inl h.symm)⟩
          exact .inr (hline.imp (hlog _) (hlog _))
    · exact .inr (.inl ⟨e, mem_events_step he a, hrefuses⟩)
    · exact .inr (.inr (haccepted.step a))

theorem Accepted.run (h : s.Accepted t write) (as : List (Action V)) :
    (run System.step s as).Accepted t write :=
  run_invariant (I := fun s => Accepted s t write) (fun _ a h => h.step a) as h

theorem Asked.run (h : s.Asked t write) (as : List (Action V)) :
    (run System.step s as).Asked t write :=
  run_invariant (I := fun s => Asked s t write) (fun _ a h => h.step a) as h

/-- A call sends the value. -/
theorem asked_call (s : System V) (t : TxnTime) (write : StringPtr × Option V) :
    (s.step (.call (writeCall t write))).Asked t write := by
  rw [step, writeCall_msg]
  refine ⟨?_, .inl ?_⟩
  · simp only [send, RestmActors.getPtrActor]
    split
    · next p hp => exact ⟨p, hp⟩
    · exact ⟨_, RestmActors.setPtr_self⟩
  · rw [send_net]
    exact List.mem_append_right _ List.mem_cons_self

end System

/-! ## Attempts -/

namespace TxnSystem

variable {w : TxnSystem V}

/-- All values were sent. -/
theorem asked_callAll (t : TxnTime) (writeCache : List (StringPtr × Option V)) (sys : System V) :
    ∀ write ∈ writeCache, (callAll (writeCache.map (writeCall t)) sys).Asked t write := by
  induction writeCache generalizing sys with
  | nil => exact fun _ h => absurd h List.not_mem_nil
  | cons write writeCache ih =>
    intro write' hwrite'
    rcases List.mem_cons.mp hwrite' with rfl | hwrite'
    · exact (System.asked_call sys t write').run _
    · exact ih _ write' hwrite'

/-- The values of an attempt that is queueing were sent, and those of one that is committing or has
    succeeded were accepted. -/
structure Queues (w : TxnSystem V) : Prop where
  asked : w.txn.phase = .queueing → ∀ write ∈ w.txn.writeCache, w.sys.Asked w.txn.txnId write
  committing : w.txn.phase = .committing →
    ∀ write ∈ w.txn.writeCache, w.sys.Accepted w.txn.txnId write
  succeeded : w.txn.phase = .succeeded → w.txn.allowCompletion = true →
    ∀ write ∈ w.txn.writeCache, w.sys.Accepted w.txn.txnId write

theorem Queues.store (hw : w.Queues) (as : List (Action V)) :
    Queues { w with sys := run System.step w.sys as } where
  asked h write hwrite := (hw.asked h write hwrite).run as
  committing h write hwrite := (hw.committing h write hwrite).run as
  succeeded h hallow write hwrite := (hw.succeeded h hallow write hwrite).run as

/-- A phase in which nothing is asked of the values. -/
theorem queues_phase (phase : Phase) (hphase : w.txn.phase = phase)
    (h : phase ∉ [.queueing, .committing, .succeeded]) : w.Queues := by
  subst hphase
  simp only [List.mem_cons, List.not_mem_nil, or_false, not_or] at h
  exact ⟨fun h' => absurd h' h.1, fun h' => absurd h' h.2.1, fun h' => absurd h' h.2.2⟩

theorem queues_recoverWith (w : TxnSystem V) (conflict : Bool) : (w.recoverWith conflict).Queues := by
  unfold TxnSystem.recoverWith
  split_ifs
  · exact queues_phase .retryReverting rfl (by decide)
  · exact queues_phase .finalReverting rfl (by decide)
  · exact queues_phase .failed rfl (by decide)

theorem queues_returned (w : TxnSystem V) (writeCache : List (StringPtr × Option V))
    (totalTime : ℤ) : (w.returned writeCache totalTime).Queues := by
  unfold TxnSystem.returned
  split_ifs with hallow htime
  · exact queues_phase .timedOut rfl (by decide)
  · exact ⟨fun _ => asked_callAll w.txn.txnId writeCache w.sys, nofun, nofun⟩
  · exact ⟨nofun, nofun, fun _ h => absurd h hallow⟩

theorem Queues.completed (hw : w.Queues) (ok : Bool) : (w.completed ok).Queues := by
  cases hphase : w.txn.phase with
  | committing =>
    simp only [TxnSystem.completed, hphase]
    split_ifs
    · exact ⟨nofun, nofun, fun _ _ => hw.committing hphase⟩
    · exact queues_recoverWith w false
    · exact hw
  | timedOut =>
    simp only [TxnSystem.completed, hphase]
    split_ifs
    · exact queues_recoverWith w ok
    · exact hw
  | retryReverting =>
    simp only [TxnSystem.completed, hphase]
    split_ifs
    · exact queues_phase .scheduled rfl (by decide)
    · exact queues_phase .failed rfl (by decide)
    · exact hw
  | finalReverting =>
    simp only [TxnSystem.completed, hphase]
    split_ifs
    · exact queues_phase .failed rfl (by decide)
    · exact hw
  | running | queueing | scheduled | succeeded | failed =>
    simp only [TxnSystem.completed, hphase]
    exact hw

theorem Queues.fails (hw : w.Queues) (conflict : Bool) : (w.fails conflict).Queues := by
  cases hphase : w.txn.phase with
  | running | timedOut | queueing | committing =>
    simp only [TxnSystem.fails, hphase]
    exact queues_recoverWith w conflict
  | retryReverting | finalReverting =>
    simp only [TxnSystem.fails, hphase]
    exact queues_phase .failed rfl (by decide)
  | scheduled | succeeded | failed =>
    simp only [TxnSystem.fails, hphase]
    exact hw

/-- Values that were all acknowledged were accepted. -/
theorem accepted_of_allQueued {write : StringPtr × Option V}
    (hasked : w.sys.Asked w.txn.txnId write) (hall : w.AllQueued)
    (hwrite : write ∈ w.txn.writeCache) : w.sys.Accepted w.txn.txnId write := by
  obtain ⟨hnet, hevents⟩ := hall write hwrite
  rcases hasked.2 with hmem | ⟨e, he, hrefuses⟩ | haccepted
  · have hsupplies : (Msg.ptr write.1 (MemActor.supply w.txn.txnId write.2)).supplies write.1
        w.txn.txnId = true := by
      cases write.2 <;> exact decide_eq_true ⟨rfl, rfl⟩
    exact absurd (hsupplies.symm.trans (hnet _ hmem)) (by decide)
  · exact absurd (hrefuses.symm.trans (hevents e he)) (by decide)
  · exact haccepted

theorem queues_step (hw : w.Queues) (a : TxnAction V) : (w.step a).Queues := by
  cases a with
  | store a => exact hw.store [a]
  | returned writeCache totalTime =>
    simp only [step]
    split_ifs
    · exact queues_returned w writeCache totalTime
    · exact hw
  | queued =>
    simp only [step]
    split_ifs with h
    · refine ⟨nofun, fun _ write hwrite => ?_, nofun⟩
      exact (accepted_of_allQueued (hw.asked h.1 write hwrite) h.2 hwrite).run _
    · exact hw
  | completed ok => exact hw.completed ok
  | failed conflict => exact hw.fails conflict
  | attempt txnId =>
    simp only [step]
    split_ifs
    · exact queues_phase .running rfl (by decide)
    · exact hw

/-- All attempts but the current one have been reset. -/
structure Retried (w : TxnSystem V) : Prop where
  sound : w.sys.Sound
  earlier : ∀ t ∈ w.txn.earlier, w.sys.outcome t = .RESET
  scheduled : w.txn.phase = .scheduled → w.sys.outcome w.txn.txnId = .RESET
  succeeded : w.txn.phase = .succeeded → w.txn.allowCompletion = true →
    w.sys.outcome w.txn.txnId = .COMMIT

/-- A completion that was reported is the outcome. -/
theorem Retried.outcome_of_reported (hw : w.Retried) {d : Decision} (h : w.Reported d true) :
    w.sys.outcome w.txn.txnId = d.state := by
  obtain ⟨e, he, hcompletes⟩ := h
  cases e with
  | completed c d' t ok =>
    obtain ⟨rfl, rfl, rfl, rfl⟩ := of_decide_eq_true hcompletes
    exact hw.sound.truthful _ _ _ (.inr he)
  | _ => cases hcompletes

/-- Steps of the store keep what is known of the attempts. -/
theorem Retried.store (hw : w.Retried) (as : List (Action V)) :
    Retried { w with sys := run System.step w.sys as } where
  sound := System.run_sound hw.sound as
  earlier t ht := System.run_outcome_eq (d := .reset) (hw.earlier t ht) as
  scheduled h := System.run_outcome_eq (d := .reset) (hw.scheduled h) as
  succeeded h hallow := System.run_outcome_eq (d := .commit) (hw.succeeded h hallow) as

/-- A phase that says nothing about the outcome may be entered at any time. -/
theorem Retried.phase (hw : w.Retried) (phase : Phase) (h₁ : phase ≠ .scheduled)
    (h₂ : phase ≠ .succeeded) (writeCache : List (StringPtr × Option V)) :
    Retried { w with txn := { w.txn with writeCache := writeCache, phase := phase } } where
  sound := hw.sound
  earlier := hw.earlier
  scheduled h := absurd h h₁
  succeeded h := absurd h h₂

theorem Retried.revert (hw : w.Retried) {phase : Phase} (h₁ : phase ≠ .scheduled)
    (h₂ : phase ≠ .succeeded) : (w.revert phase).Retried :=
  (hw.phase phase h₁ h₂ w.txn.writeCache).store _

theorem Retried.recoverWith (hw : w.Retried) (conflict : Bool) :
    (w.recoverWith conflict).Retried := by
  unfold TxnSystem.recoverWith
  split_ifs
  · exact hw.revert (by decide) (by decide)
  · exact hw.revert (by decide) (by decide)
  · exact hw.phase _ (by decide) (by decide) w.txn.writeCache

theorem Retried.returned (hw : w.Retried) (writeCache : List (StringPtr × Option V))
    (totalTime : ℤ) : (w.returned writeCache totalTime).Retried := by
  unfold TxnSystem.returned
  split_ifs with hallow htime
  · exact hw.revert (by decide) (by decide)
  · exact (hw.phase .queueing (by decide) (by decide) writeCache).store _
  · -- an abandoned transaction
    exact ⟨hw.sound, hw.earlier, nofun, fun _ h => absurd h hallow⟩

theorem Retried.completed (hw : w.Retried) (ok : Bool) : (w.completed ok).Retried := by
  cases hphase : w.txn.phase with
  | committing =>
    simp only [TxnSystem.completed, hphase]
    split_ifs with hreported hok
    · subst hok
      exact ⟨hw.sound, hw.earlier, nofun, fun _ _ => hw.outcome_of_reported hreported⟩
    · exact hw.recoverWith false
    · exact hw
  | timedOut =>
    simp only [TxnSystem.completed, hphase]
    split_ifs
    · exact hw.recoverWith ok
    · exact hw
  | retryReverting =>
    simp only [TxnSystem.completed, hphase]
    split_ifs with hreported hok
    · subst hok
      exact ⟨hw.sound, hw.earlier, fun _ => hw.outcome_of_reported hreported, nofun⟩
    · exact hw.phase _ (by decide) (by decide) w.txn.writeCache
    · exact hw
  | finalReverting =>
    simp only [TxnSystem.completed, hphase]
    split_ifs
    · exact hw.phase _ (by decide) (by decide) w.txn.writeCache
    · exact hw
  | running | queueing | scheduled | succeeded | failed =>
    simp only [TxnSystem.completed, hphase]
    exact hw

theorem Retried.fails (hw : w.Retried) (conflict : Bool) : (w.fails conflict).Retried := by
  cases hphase : w.txn.phase with
  | running | timedOut | queueing | committing =>
    simp only [TxnSystem.fails, hphase]
    exact hw.recoverWith conflict
  | retryReverting | finalReverting =>
    simp only [TxnSystem.fails, hphase]
    exact hw.phase _ (by decide) (by decide) w.txn.writeCache
  | scheduled | succeeded | failed =>
    simp only [TxnSystem.fails, hphase]
    exact hw

theorem retried_step (hw : w.Retried) (a : TxnAction V) : (w.step a).Retried := by
  cases a with
  | store a => exact hw.store [a]
  | returned writeCache totalTime =>
    simp only [step]
    split_ifs
    · exact hw.returned writeCache totalTime
    · exact hw
  | queued =>
    simp only [step]
    split_ifs
    · exact (hw.phase .committing (by decide) (by decide) w.txn.writeCache).store _
    · exact hw
  | completed ok => exact hw.completed ok
  | failed conflict => exact hw.fails conflict
  | attempt txnId =>
    simp only [step]
    split_ifs with hscheduled
    · refine ⟨hw.sound, fun t ht => ?_, nofun, nofun⟩
      rcases List.mem_cons.mp ht with rfl | ht
      · exact hw.scheduled hscheduled
      · exact hw.earlier t ht
    · exact hw

/-- The attempt was decided to commit, or something that it queued entered a pointer's
    history. -/
def TookEffect (w : TxnSystem V) (t : TxnTime) : Prop :=
  w.sys.outcome t = .COMMIT ∨ ∃ x p, w.sys.node.ptrs x = some p ∧ Entered t p.log

/-- In every run of `txnRun` among other clients, whatever conflicts, times out or fails:
    every attempt before the current one has been reset and takes no effect; at most
    one attempt takes effect; and when `txnRun` has succeeded, it is the last: every write
    of its cache was accepted by its pointer, and what was queued is in the histories or
    about to be. -/
theorem effect_at_most_once (clock : Clock) (coldStorage : StringPtr → List (TxnTime × Option V))
    (before : List (Action V)) (caller maxRetry : ℕ) (allowCompletion : Bool) (txnId : TxnTime)
    (as : List (TxnAction V)) :
    let sys := run System.step (.start clock coldStorage) before
    let w := run step (start sys caller maxRetry allowCompletion txnId) as
    (∀ t ∈ w.txn.earlier, w.sys.outcome t = .RESET ∧ ¬w.TookEffect t) ∧
    (∀ t ∈ w.txn.txnId :: w.txn.earlier, ∀ t' ∈ w.txn.txnId :: w.txn.earlier,
      w.TookEffect t → w.TookEffect t' → t = t') ∧
    (w.txn.phase = .succeeded → w.txn.allowCompletion = true →
      w.sys.outcome w.txn.txnId = .COMMIT ∧
      (∀ write ∈ w.txn.writeCache, w.sys.Accepted w.txn.txnId write) ∧
      ∀ x p q, w.sys.node.ptrs x = some p → .queued w.txn.txnId q ∈ p.log →
        ¬Reinitialised w.txn.txnId p.log → w.sys.Settles w.txn.txnId x p) := by
  intro sys w
  have hw : w.Retried := by
    refine run_invariant (I := Retried) (fun _ a h => retried_step h a) as ?_
    exact ⟨System.run_sound (System.sound_start clock coldStorage) before,
      fun t ht => absurd ht List.not_mem_nil, nofun, nofun⟩
  have hqueues : w.Queues := run_invariant (I := Queues) (fun _ a h => queues_step h a) as
    (queues_phase .running rfl (by decide))
  have hearlier : ∀ t ∈ w.txn.earlier, ¬w.TookEffect t := by
    rintro t ht (hcommit | ⟨x, p, hp, hentered⟩)
    · rw [hw.earlier t ht] at hcommit; cases hcommit
    · have hcommit := (hw.sound.consistent.ptrs x p hp).entered t hentered
      rw [hw.earlier t ht] at hcommit; cases hcommit
  refine ⟨fun t ht => ⟨hw.earlier t ht, hearlier t ht⟩, fun t ht t' ht' h h' => ?_,
    fun hphase hallow => ?_⟩
  · rcases List.mem_cons.mp ht with rfl | ht
    · rcases List.mem_cons.mp ht' with rfl | ht'
      · rfl
      · exact absurd h' (hearlier t' ht')
    · exact absurd h (hearlier t ht)
  · have hcommit := hw.succeeded hphase hallow
    exact ⟨hcommit, hqueues.succeeded hphase hallow,
      fun x p q hp hq hinit => hw.sound.settles hcommit hp hq hinit⟩

-- The first attempt fails with a conflict and is reset; the second commits.
example :
    let as : List (TxnAction ℕ) :=
      [.failed true, .store (.deliver 0), .store (.deliver 0), .completed true,
        .attempt (.ofEpoch 2), .store (.call (.lock ⟨"x"⟩ (.ofEpoch 2))), .store (.deliver 0),
        .store (.deliver 0), .returned [(⟨"x"⟩, some 10)] 0, .store (.deliver 0), .queued,
        .store (.deliver 0), .store (.deliver 0), .store (.deliver 0), .completed true]
    let w := run step (start (.start ⟨1000, 0⟩ fun _ => []) 0 1 true (.ofEpoch 1)) as
    w.txn.phase = .succeeded ∧ w.txn.earlier = [.ofEpoch 1] ∧
      (w.sys.node.ptrs ⟨"x"⟩).map (fun p => p.actor.history) =
        some [{ time := .ofEpoch 2, value := some 10 }] := by
  decide

end TxnSystem

end ReSTM
