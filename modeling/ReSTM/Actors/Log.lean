import ReSTM.Actors.MemActor
import ReSTM.Common.Transition

/-!
# The log of a pointer actor

`MemActor` logs what each message did (`logMsg`). `LoggedActor` is an actor
together with these lines, newest first; a line says of a read which record it
used. `slotOwner` reads from the log which transaction queued what is now in
`queuedValue`, under its own lock: the log's `queued`, not its `written`.

* `LoggedActor.run_actor`: the log does not influence the actor.
* `SlotLocked`, `run_slotLocked`: as long as what a transaction queued is in the
  slot, the transaction holds the lock.
-/

namespace ReSTM

open Transition

variable {V : Type}

/-- What one message did. -/
inductive Line (V : Type) where
  | nothing
  | read (time : TxnTime) (record : Option (HistoryRecord V))
  | locked (time : TxnTime)
  | queued (time : TxnTime) (value : Option V)
  | written (time : TxnTime) (value : Option V)
  | committed (time : TxnTime)
  | preCommitted (time : TxnTime)
  | wasReset (time : TxnTime)
  | initialised (time : TxnTime) (value : V)
deriving DecidableEq

/-- The line for a message to the actor `a` with its outcome. -/
def MemMsg.line (a : MemActor V) : MemMsg V → Except Failure (Answer V) → Line V
  | .getValue t, .ok _ => .read t (a.recordAt t)
  | .init t v, .ok (.flag true) => .initialised t v
  | .writeLock t, .ok (.conflicting none) => .locked t
  | .writeBlob t v, .ok (.flag true) => .written t (some v)
  | .writeBlob t v, .ok (.flag false) => .queued t (some v)
  | .delete t, .ok (.flag true) => .written t none
  | .delete t, .ok (.flag false) => .queued t none
  | .writeCommit t, .ok (.flag true) => .committed t
  | .writeCommit t, .ok (.flag false) => .preCommitted t
  | .writeReset t, .ok _ => .wasReset t
  | _, _ => .nothing

/-- An actor and its log, newest line first. -/
structure LoggedActor (V : Type) where
  actor : MemActor V
  log : List (Line V) := []

/-- The transaction that queued what is in `queuedValue` under its own lock, from the
    log. -/
def slotOwner : List (Line V) → Option TxnTime
  | [] => none
  | .queued t _ :: _ => some t
  | .written _ _ :: _ | .committed _ :: _ | .wasReset _ :: _ | .initialised _ _ :: _ => none
  | .nothing :: log | .read _ _ :: log | .locked _ :: log | .preCommitted _ :: log => slotOwner log

namespace LoggedActor

/-- Process one message and log it. -/
def step (p : LoggedActor V) (m : MemMsg V) : LoggedActor V :=
  { actor := p.actor.step m, log := m.line p.actor (p.actor.reply m) :: p.log }

/-- The log does not influence the actor. -/
theorem run_actor (p : LoggedActor V) (msgs : List (MemMsg V)) :
    (run step p msgs).actor = run MemActor.step p.actor msgs := by
  induction msgs generalizing p with
  | nil => rfl
  | cons m msgs ih => exact ih (p.step m)

/-- What `slotOwner` queued is in the slot, and its lock is still held. -/
def SlotLocked (p : LoggedActor V) : Prop :=
  ∀ w, slotOwner p.log = some w → p.actor.writeLock = some w ∧ p.actor.queuedValue.isSome

theorem slotLocked_step {p : LoggedActor V} (hp : p.SlotLocked) (m : MemMsg V) :
    (p.step m).SlotLocked := by
  obtain ⟨a, log⟩ := p
  have heff := MemActor.receive_effect a m
  simp only [SlotLocked, step] at hp ⊢
  generalize a.reply m = r at heff
  generalize a.step m = a' at heff
  intro w hw
  cases heff with
  | queueBlob t v hlock => cases hw; exact ⟨hlock, rfl⟩
  | queueDelete t hlock => cases hw; exact ⟨hlock, rfl⟩
  | lock t hfree =>
    have hlock := (hp w hw).1
    rw [hfree] at hlock; cases hlock
  | preCommit t hlock hqueue =>
    have hqueued := (hp w hw).2
    rw [hqueue] at hqueued; cases hqueued
  | initFresh | staleBlob | staleDelete | commit | reset => cases hw
  | fail =>
    refine hp w ?_
    cases m <;> exact hw
  | _ => exact hp w hw

theorem run_slotLocked {p : LoggedActor V} (hp : p.SlotLocked) (msgs : List (MemMsg V)) :
    (run step p msgs).SlotLocked :=
  run_invariant (I := SlotLocked) (fun _ m h => slotLocked_step h m) msgs hp

end LoggedActor

end ReSTM
