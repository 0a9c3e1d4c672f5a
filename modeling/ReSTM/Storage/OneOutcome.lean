import ReSTM.Actors.Outcome
import ReSTM.Storage.Steps

/-!
# One outcome for every pointer

The transaction actor decides once, and every `writeCommit` and `writeReset` that
the store sends agrees with that decision: those that follow the decision itself,
those for a lock that is registered too late, and those that a competitor's
`cleanup` leads to. So what a transaction queued enters the histories of all its
pointers or of none, whichever calls are repeated or late.
-/

namespace ReSTM

open Transition

variable {V : Type}

namespace System

variable {s : System V} {a : Action V} {x : StringPtr} {t : TxnTime}

/-- The state of every transaction. -/
def outcome (s : System V) (t : TxnTime) : TxnState := (s.node.txns t).state

theorem outcome_step (a : Action V) (h : s.outcome t ≠ .OPEN) :
    (s.step a).outcome t = s.outcome t := state_step h a

theorem agrees_release {outcome : TxnTime → TxnState} {d : Decision} :
    Agrees outcome (d.release t : MemMsg V) ↔ outcome t = d.state := by
  cases d <;> rfl

theorem agrees_mono {outcome outcome' : TxnTime → TxnState}
    (h : ∀ t, outcome t ≠ .OPEN → outcome' t = outcome t) {m : MemMsg V}
    (hm : Agrees outcome m) : Agrees outcome' m := by
  cases m with
  | writeCommit t | writeReset t =>
    simp only [Agrees] at hm ⊢
    rw [h t (by rw [hm]; decide), hm]
  | _ => trivial

/-- The messages in flight agree with the outcomes, and the pointers obey them. -/
structure Consistent (s : System V) : Prop where
  net : ∀ x m, .ptr x m ∈ s.net → Agrees s.outcome m
  ptrs : ∀ x p, s.node.ptrs x = some p → p.Obeys s.outcome

theorem consistent_start (clock : Clock) (cold : StringPtr → List (TxnTime × Option V)) :
    (start clock cold).Consistent :=
  ⟨fun _ _ h => absurd h List.not_mem_nil, fun _ _ h => (nomatch h)⟩

/-- A restored actor has no log yet. -/
theorem restore_obeys {outcome : TxnTime → TxnState} {cold : List (TxnTime × Option V)} {now : ℤ}
    {time : Option TxnTime} : (restore cold now time).Obeys outcome :=
  ⟨fun _ h => (nomatch h), fun _ h => (nomatch h), fun _ h => h.elim, fun _ h => h.elim,
    fun _ _ h => absurd h List.not_mem_nil⟩

/-- A message that is sent to a pointer agrees with the outcome it follows from. -/
theorem agrees_of_issued {m : MemMsg V} (h : .ptr x m ∈ s.issued a) :
    Agrees (s.step a).outcome m := by
  rcases follows_of_issued h with ⟨c, rfl, hc⟩ | ⟨m', hdel, hfollows⟩
  · cases c <;> cases hc <;> trivial
  · generalize hm : Msg.ptr x m = out at hfollows
    cases hfollows with
    | lateRelease d id time hstate =>
      cases hm
      exact agrees_release.mpr (state_step_eq hstate a)
    | release d caller time id hstate =>
      cases hm
      exact agrees_release.mpr (hdel.state_setState hstate)
    | _ => cases hm

theorem consistent_step (hs : s.Consistent) (a : Action V) : (s.step a).Consistent where
  net x m h := by
    rcases mem_net_step h with h | h
    · exact agrees_mono (fun t ht => outcome_step a ht) (hs.net x m h)
    · exact agrees_of_issued h
  ptrs x p' h := by
    rcases ptr_step h with hp | ⟨-, now, time, rfl⟩ | ⟨p, m, hp, hdel, rfl⟩
    · exact (hs.ptrs x p' hp).mono fun t ht => outcome_step a ht
    · exact restore_obeys
    · exact ((hs.ptrs x p hp).step (hs.net x m hdel.mem)).mono fun t ht => outcome_step a ht

theorem run_consistent (hs : s.Consistent) (as : List (Action V)) : (run step s as).Consistent :=
  run_invariant (I := Consistent) (fun _ a h => consistent_step h a) as hs

/-- A decision that was made stays, whatever happens. -/
theorem run_outcome (h : s.outcome t ≠ .OPEN) (as : List (Action V)) :
    (run step s as).outcome t = s.outcome t := by
  induction as generalizing s with
  | nil => rfl
  | cons a as ih =>
    have heq := outcome_step a h
    exact (ih (heq ▸ h)).trans heq

/-- In every run, a transaction that is decided at some point stays so decided at
    every later point. If it is reset, nothing that it queued under its lock has
    entered or will enter any pointer's history; if it is committed, nothing that it
    queued has been or will be discarded by a `writeReset`. -/
theorem one_outcome (clock : Clock) (coldStorage : StringPtr → List (TxnTime × Option V))
    (as bs : List (Action V)) (t : TxnTime) :
    let s := run step (start clock coldStorage) as
    let s' := run step (start clock coldStorage) (as ++ bs)
    (s.outcome t = .COMMIT → s'.outcome t ≠ .RESET) ∧
    (s.outcome t = .RESET →
      s'.outcome t ≠ .COMMIT ∧ ∀ x p, s'.node.ptrs x = some p → ¬Entered t p.log) ∧
    (s.outcome t = .COMMIT → ∀ x p, s'.node.ptrs x = some p → ¬Discarded t p.log) := by
  intro s s'
  have hs' : s'.Consistent := run_consistent (consistent_start clock coldStorage) (as ++ bs)
  have hstay : s.outcome t ≠ .OPEN → s'.outcome t = s.outcome t := by
    intro h
    rw [show s' = run step s bs from run_append _ _ _ _]
    exact run_outcome h bs
  refine ⟨fun hc => ?_, fun hr => ?_, fun hc x p hp hdis => ?_⟩
  · rw [hstay (by rw [hc]; decide), hc]; decide
  · have hr' := hstay (by rw [hr]; decide)
    refine ⟨by rw [hr', hr]; decide, fun x p hp hent => ?_⟩
    have := (hs'.ptrs x p hp).entered t hent
    rw [hr', hr] at this; cases this
  · have := (hs'.ptrs x p hp).discarded t hdis
    rw [hstay (by rw [hc]; decide), hc] at this; cases this

end System

end ReSTM
