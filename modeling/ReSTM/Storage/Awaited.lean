import ReSTM.Actors.Settled
import ReSTM.Storage.OneOutcome

/-!
# Clients that wait for their answers

A client of the store locks pointers and queues values for its transaction, and
calls `commit` when all of these calls have been answered; then it makes no more
of them. `Awaits` says so of one step.

* `awaited_step`, `Awaited.timely`: in such runs the messages to pointers are timely.
* `settled_step`: without initial values, which are written at once and belong to no
  commit, every pointer stays settled.
-/

namespace ReSTM

open Transition

variable {V : Type}

/-- The event is the call of `commit` for `t`. -/
def Event.commits (t : TxnTime) : Event V → Bool
  | .called (.commit _ w) => decide (w = t)
  | _ => false

/-- A call of `t` that locks or queues is still to be answered by this message. -/
def Msg.pends (t : TxnTime) : Msg V → Bool
  | .ptr _ (.writeLock w) | .ptr _ (.writeBlob w _) | .ptr _ (.delete w) | .addLock _ w =>
    decide (w = t)
  | _ => false

namespace System

variable {s : System V} {a : Action V} {x : StringPtr} {t : TxnTime}

/-- `commit` was called for `t`. -/
def CommitCalled (s : System V) (t : TxnTime) : Prop := ∃ e ∈ s.events, e.commits t = true

instance (s : System V) (t : TxnTime) : Decidable (s.CommitCalled t) :=
  inferInstanceAs (Decidable (∃ e ∈ s.events, e.commits t = true))

/-- The action is not a call out of turn. -/
def Awaits (s : System V) : Action V → Prop
  | .call (.lock _ t) | .call (.queueValue _ t _) | .call (.delete _ t) => ¬s.CommitCalled t
  | .call (.commit _ t) => ∀ m ∈ s.net, m.pends t = false
  | _ => True

instance (s : System V) : ∀ a, Decidable (s.Awaits a)
  | .call (.lock _ t) | .call (.queueValue _ t _) | .call (.delete _ t) =>
    inferInstanceAs (Decidable (¬s.CommitCalled t))
  | .call (.commit _ t) => inferInstanceAs (Decidable (∀ m ∈ s.net, m.pends t = false))
  | .call (.getCurrent _) | .call (.getPtr _ _) | .call (.newPtr _ _ _) | .call (.reset _ _) | .call (.cleanup _)
  | .tick _ | .deliver _ =>
    inferInstanceAs (Decidable True)

/-- A transaction is committed only if its client said so, and then none of the
    client's other calls is in flight. -/
structure Awaited (s : System V) : Prop where
  decided : ∀ t, s.outcome t = .COMMIT → s.CommitCalled t
  deciding : ∀ caller t, .setState .commit caller t ∈ s.net → s.CommitCalled t
  answered : ∀ t, s.CommitCalled t → ∀ m ∈ s.net, m.pends t = false

theorem awaited_start (clock : Clock) (cold : StringPtr → List (TxnTime × Option V)) :
    (start clock cold).Awaited where
  decided _ h := nomatch h
  deciding _ _ h := absurd h List.not_mem_nil
  answered _ _ _ h := absurd h List.not_mem_nil

theorem CommitCalled.step (h : s.CommitCalled t) (a : Action V) : (s.step a).CommitCalled t := by
  obtain ⟨e, he, hcommits⟩ := h
  exact ⟨e, mem_events_step he a, hcommits⟩

theorem commitCalled_of_call {c : ℕ} : (s.step (.call (.commit c t))).CommitCalled t :=
  ⟨_, mem_called_step s _, decide_eq_true rfl⟩

/-- Only a call of `commit` counts as one. -/
theorem CommitCalled.of_step (h : (s.step a).CommitCalled t) :
    s.CommitCalled t ∨ ∃ c, a = .call (.commit c t) := by
  obtain ⟨e, he, hcommits⟩ := h
  cases e with
  | called c =>
    rcases called_of_step he with hold | rfl
    · exact .inl ⟨_, hold, hcommits⟩
    · cases c with
      | commit c w => exact .inr ⟨c, by rw [of_decide_eq_true hcommits]⟩
      | _ => cases hcommits
  | _ => cases hcommits

theorem awaited_step (hs : s.Awaited) (ha : s.Awaits a) : (s.step a).Awaited where
  decided t h := by
    by_cases hold : s.outcome t = .COMMIT
    · exact (hs.decided t hold).step a
    · obtain ⟨-, caller, hdel⟩ := delivers_of_state_step (d := .commit) hold h
      exact (hs.deciding caller t hdel.mem).step a
  deciding caller t h := by
    rcases mem_net_step h with h | h
    · exact (hs.deciding caller t h).step a
    · rcases follows_of_issued h with ⟨c, rfl, hc⟩ | ⟨m', -, hfollows⟩
      · cases c with
        | commit c w => cases hc; exact commitCalled_of_call
        | _ => cases hc
      · cases hfollows with
        | decide d time hcommit => exact (hs.decided t (hcommit.mp rfl)).step a
  answered t hcalled m hm := by
    by_contra hpends
    rw [Bool.not_eq_false] at hpends
    rcases hcalled.of_step with hold | ⟨c, rfl⟩
    · rcases mem_net_step hm with hm | hm
      · rw [hs.answered t hold m hm] at hpends; cases hpends
      · rcases follows_of_issued hm with ⟨c, rfl, rfl⟩ | ⟨m', hdel, hfollows⟩
        · -- a call that locks or queues for `t`
          cases c with
          | lock | queueValue | delete => exact ha (of_decide_eq_true hpends ▸ hold)
          | _ => cases hpends
        · cases hfollows with
          | register id time =>
            have := hs.answered t hold _ hdel.mem
            rw [show Msg.pends t (.ptr id (.writeLock time)) = true from hpends] at this
            cases this
          | lateRelease d | release d => cases d <;> cases hpends
          | _ => cases hpends
    · rcases mem_net_step hm with hm | hm
      · rw [ha m hm] at hpends; cases hpends
      · rw [List.mem_singleton.mp hm] at hpends; cases hpends
/-- Every message that is delivered to a pointer is timely, if an initial value is. -/
theorem Awaited.timely (hs : s.Awaited) (hc : s.Consistent) {m : MemMsg V}
    (hm : .ptr x m ∈ s.net) (actor : MemActor V)
    (hinit : ∀ t v, m = .init t v → actor.history = [] → actor.writeLock = none) :
    Timely s.outcome actor m := by
  have hagrees := hc.net x m hm
  have hopen : ∀ t, (Msg.ptr x m).pends t = true → s.outcome t ≠ .COMMIT := by
    intro t hpends hcommit
    rw [hs.answered t (hs.decided t hcommit) _ hm] at hpends
    cases hpends
  cases m with
  | getCurrentValue | getValue => trivial
  | init t v => exact hinit t v rfl
  | writeLock t | writeBlob t | delete t => exact hopen t (decide_eq_true rfl)
  | writeCommit t | writeReset t => exact hagrees

/-! ## Settled pointers -/

/-- The action is a call of `newPtr`. -/
def NewPtr : Action V → Prop
  | .call (.newPtr _ _ _) => True
  | _ => False

instance : DecidablePred (NewPtr : Action V → Prop)
  | .call (.newPtr _ _ _) => inferInstanceAs (Decidable True)
  | .call (.getCurrent _) | .call (.getPtr _ _) | .call (.lock _ _) | .call (.queueValue _ _ _)
  | .call (.delete _ _) | .call (.commit _ _) | .call (.reset _ _) | .call (.cleanup _)
  | .tick _ | .deliver _ =>
    inferInstanceAs (Decidable False)

/-- The invariant of runs in which clients wait for their answers and create no
    pointers. -/
structure Settled (s : System V) : Prop where
  consistent : s.Consistent
  awaited : s.Awaited
  noInit : ∀ x m, .ptr x m ∈ s.net → MemActor.NotInit m
  keys : ∀ x, ((s.node.coldStorage x).map Prod.fst).Nodup
  ptrs : ∀ x p, s.node.ptrs x = some p → p.Settled s.outcome (s.node.coldStorage x)

theorem settled_start (clock : Clock) {cold : StringPtr → List (TxnTime × Option V)}
    (hkeys : ∀ x, ((cold x).map Prod.fst).Nodup) : (start clock cold).Settled :=
  ⟨consistent_start clock cold, awaited_start clock cold, fun _ _ h => absurd h List.not_mem_nil,
    hkeys, fun _ _ h => (nomatch h)⟩

theorem notInit_of_issued {m : MemMsg V} (hnew : ¬NewPtr a) (h : .ptr x m ∈ s.issued a) :
    MemActor.NotInit m := by
  rcases follows_of_issued h with ⟨c, rfl, hc⟩ | ⟨m', -, hfollows⟩
  · cases c with
    | newPtr => exact absurd trivial hnew
    | _ => cases hc <;> trivial
  · generalize hm : Msg.ptr x m = out at hfollows
    cases hfollows with
    | lateRelease d | release d => cases d <;> cases hm <;> trivial
    | _ => cases hm

theorem settled_step (hs : s.Settled) (ha : s.Awaits a) (hnew : ¬NewPtr a) :
    (s.step a).Settled where
  consistent := consistent_step hs.consistent a
  awaited := awaited_step hs.awaited ha
  noInit x m h := (mem_net_step h).elim (hs.noInit x m) (notInit_of_issued hnew)
  keys := by rw [step_cold]; exact hs.keys
  ptrs x p' h := by
    rw [step_cold]
    rcases ptr_step h with hp | ⟨-, now, time, rfl⟩ | ⟨p, m, hp, hdel, rfl⟩
    · exact (hs.ptrs x p' hp).mono fun t ht => outcome_step a ht
    · exact LoggedActor.settled_restore (hs.keys x)
    · have hinit := hs.noInit x m hdel.mem
      have htimely := hs.awaited.timely hs.consistent hdel.mem p.actor
        fun t v hm => by rw [hm] at hinit; exact hinit.elim
      exact ((hs.ptrs x p hp).step htimely hinit).mono fun t ht => outcome_step a ht

theorem run_settled (hs : s.Settled) {as : List (Action V)} (has : Along step Awaits s as)
    (hnew : ∀ a ∈ as, ¬NewPtr a) : (run step s as).Settled :=
  (has.and_mem hnew).invariant (I := Settled) (fun _ _ h ha => settled_step h ha.1 ha.2) hs

end System

end ReSTM
