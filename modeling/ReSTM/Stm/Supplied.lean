import ReSTM.Storage.Serializable
import ReSTM.Stm.STMTxn

/-!
# The values of a transaction in the store

`commit` of `STMTxnCtx` (`stm/STMTxnCtx.scala`, lines 114–125) sends each entry of `writeCache`
to its pointer and then waits for the answers. Between the call and the answer the value is in
flight; then it is queued, or the pointer refused it.

* `offered_step`: the store has nothing of a transaction that its client did not send.
* `answered_step`: what was sent is in flight, queued or refused.
-/

namespace ReSTM

open Transition MemActor

variable {V : Type}

/-- Only the message with a value queues it. -/
theorem supply_of_line {a : MemActor V} {m : MemMsg V} {r : Except Failure (Answer V)} {t : TxnTime}
    {q : Option V} (h : m.line a r = .queued t q) : m = supply t q := by
  unfold MemMsg.line at h
  split at h <;> cases h <;> rfl

/-- An answer to a value says that it was queued, or that it was written. -/
theorem MemActor.Effect.supply_line {a a' : MemActor V} {t : TxnTime} {q : Option V} {answer : Answer V}
    (h : MemActor.Effect a (supply t q) (.ok answer) a') (hstale : a.staleCommit ≠ some t) :
    (supply t q).line a (.ok answer) = .queued t q := by
  cases q with
  | some v =>
    cases h with
    | queueBlob => rfl
    | staleBlob _ _ _ _ hst => exact absurd hst hstale
  | none =>
    cases h with
    | queueDelete => rfl
    | staleDelete _ _ _ hst => exact absurd hst hstale

namespace System

variable {s : System V} {a : Action V} {as : List (Action V)} {t : TxnTime} {x : StringPtr}
  {q : Option V} {line : Line V}

/-- A new line was made by the message that is delivered. -/
theorem Logged.of_step (h : (s.step a).Logged x line) :
    s.Logged x line ∨ ∃ p m, s.node.ptrs x = some p ∧ s.Delivers a (.ptr x m) ∧
      m.line p.actor (p.actor.reply m) = line := by
  obtain ⟨p', hp', hline⟩ := h
  rcases ptr_step hp' with hp | ⟨-, now, time, rfl⟩ | ⟨p, m, hp, hdel, rfl⟩
  · exact .inl ⟨p', hp, hline⟩
  · exact absurd hline List.not_mem_nil
  · rcases List.mem_cons.mp hline with hline | hline
    · exact .inr ⟨p, m, hp, hdel, hline.symm⟩
    · exact .inl ⟨p, hp, hline⟩

/-! ## The actor of a message -/

/-- Every message to a pointer is in the mailbox of its actor. -/
def Live (s : System V) : Prop := ∀ x m, .ptr x m ∈ s.net → ∃ p, s.node.ptrs x = some p

theorem live_send {m : Msg V} (hs : s.Live) : (s.send m).Live := by
  intro x m' h
  rw [send_net] at h
  rcases List.mem_append.mp h with h | h
  · obtain ⟨p, hp⟩ := hs x m' h
    exact ⟨p, send_ptrs_of_some hp⟩
  · obtain rfl := List.mem_singleton.mp h
    show ∃ p, (s.node.getPtrActor s.clock x m'.time?).ptrs x = some p
    unfold RestmActors.getPtrActor
    split
    · next p hp => exact ⟨p, hp⟩
    · exact ⟨_, RestmActors.setPtr_self⟩

theorem live_sendAll {msgs : List (Msg V)} (hs : s.Live) : (s.sendAll msgs).Live := by
  induction msgs generalizing s with
  | nil => exact hs
  | cons m msgs ih => exact ih (live_send hs)

theorem live_step (hs : s.Live) (a : Action V) : (s.step a).Live := by
  cases a with
  | call c => exact live_send (s := { s with events := .called c :: s.events }) hs
  | tick clock => exact hs
  | deliver i =>
    simp only [step]
    split
    · exact hs
    · next m hm =>
      refine live_sendAll fun x m' h => ?_
      rw [handle_net] at h
      obtain ⟨p, hp⟩ := hs x m' (List.mem_of_mem_eraseIdx h)
      cases m with
      | ptr id m =>
        simp only [handle]
        split
        · exact ⟨p, hp⟩
        · by_cases hx : x = id
          · subst hx
            exact ⟨_, RestmActors.setPtr_self⟩
          · exact ⟨p, (RestmActors.setPtr_of_ne hx).trans hp⟩
      | _ => exact ⟨p, hp⟩

/-! ## What was sent -/

/-- The store has the value, queued or in flight. -/
def Offered (s : System V) (t : TxnTime) (x : StringPtr) (q : Option V) : Prop :=
  s.Queued t x q ∨ .ptr x (supply t q) ∈ s.net

/-- The value is queued or in flight, or was refused. -/
def Answered (s : System V) (t : TxnTime) (x : StringPtr) (q : Option V) : Prop :=
  s.Offered t x q ∨ ∃ e ∈ s.events, e.refuses x t = true

theorem offered_step (h : (s.step a).Offered t x q) :
    s.Offered t x q ∨ a = .call (writeCall t (x, q)) := by
  rcases h with h | h
  · rcases Logged.of_step h with h | ⟨p, m, -, hdel, hline⟩
    · exact .inl (.inl h)
    · rw [supply_of_line hline] at hdel
      exact .inl (.inr hdel.mem)
  · rcases mem_net_step h with h | h
    · exact .inl (.inr h)
    · rcases follows_of_issued h with ⟨c, rfl, hc⟩ | ⟨m', -, hfollows⟩
      · right
        cases q <;> cases c <;> cases hc <;> rfl
      · generalize hm : Msg.ptr x (supply t q) = m at hfollows
        cases hfollows with
        | lateRelease d | release d => cases d <;> cases q <;> cases hm
        | _ => cases hm

theorem offered_of_call (s : System V) : (s.step (.call (writeCall t (x, q)))).Offered t x q :=
  .inr (mem_net_of_issued (List.mem_singleton.mpr (writeCall_msg t x q).symm))

theorem answered_step (hs : s.Settled) (hlive : s.Live) (h : s.Answered t x q) (a : Action V) :
    (s.step a).Answered t x q := by
  rcases h with (h | h) | ⟨e, he, hrefuses⟩
  · exact .inl (.inl (Logged.step h a))
  · rcases mem_net_or_delivers h a with h' | hdel
    · exact .inl (.inr h')
    · obtain ⟨p, hp⟩ := hlive x _ h
      have hopen : s.outcome t ≠ .COMMIT := by
        intro hcommit
        have hpends := hs.awaited.answered t (hs.awaited.decided t hcommit) _ h
        cases q <;> simp [Msg.pends, supply] at hpends
      cases hr : p.actor.reply (supply t q) with
      | ok answer =>
        have heff := receive_effect p.actor (supply t q)
        rw [hr] at heff
        have hline := heff.supply_line ((hs.ptrs x p hp).not_stale hopen)
        refine .inl (.inl ⟨_, hdel.ptr_step hp, ?_⟩)
        rw [LoggedActor.step, hr, hline]
        exact List.mem_cons_self
      | error e =>
        exact .inr ⟨_, hdel.fails hp hr, by cases q <;> exact decide_eq_true ⟨rfl, rfl⟩⟩
  · exact .inr ⟨e, mem_events_step he a, hrefuses⟩

end System

end ReSTM
