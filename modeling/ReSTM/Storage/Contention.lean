import ReSTM.Storage.Steps
import ReSTM.Common.Transition

/-!
# Contention recovery

A refused `lock` and a timed read that conflicts look at the age of the timestamp
they were refused with. When it is over `txnTimeout` they call `cleanup`, which asks
for the transaction's state and sends it the decision that it finds, `reset` unless
it is committed. `MayChange` follows the messages that a call leads to, in any
interleaving with the rest of the system.

`getValue` raises its conflict for the holder of the lock only, so a read recovers
from a writer that was abandoned. `writeLock` answers with the timestamp of whatever
was in the way: the lock's holder, the latest reader, or the writer of a version. A
pointer that is not locked gets a reader reset that holds no lock.

* `recovery_aborts_holder_only`: when recovery changes the holder of the lock only.
* `reader_reset`: a reader is reset by a writer that is refused all the same.
-/

namespace ReSTM

open Transition

variable {V : Type}

namespace MemActor

/-- What refuses the lock to `time` when nobody holds it: the latest reader, or the
    first version at `time` or later. -/
def inTheWay (time : TxnTime) (a : MemActor V) : Option TxnTime :=
  if a.lastRead.any (time < ·) then a.lastRead
  else (a.history.find? fun r => time ≤ r.time).map (·.time)

/-- A lock is refused with its holder, or with what is in the way. -/
theorem refusal {a : MemActor V} {w c : TxnTime}
    (h : a.reply (.writeLock w) = .ok (.conflicting (some c))) :
    a.writeLock = some c ∨ a.writeLock = none ∧ a.inTheWay w = some c := by
  obtain ⟨lastRead, history, writeLock, staleCommit, queuedValue⟩ := a
  simp only [reply, receive, answer, lock, withActor] at h
  cases writeLock with
  | some holder =>
    dsimp only at h
    split_ifs at h <;> simp_all [Except.map, Except.mapError]
  | none =>
    refine .inr ⟨rfl, ?_⟩
    dsimp only at h
    simp only [inTheWay]
    split_ifs at h ⊢ with hread hhistory
    · simpa [Except.map, Except.mapError] using h
    · split at h <;> simp_all [Except.map, Except.mapError]
    · simp [Except.map, Except.mapError] at h

/-- A read conflicts with the holder of the lock. -/
theorem conflict_holder {a : MemActor V} {t c : TxnTime} {e : Failure}
    (h : a.reply (.getValue t) = .error e) (hc : e.conflict = some c) : a.writeLock = some c := by
  simp only [reply, receive, answer, getValue] at h
  split_ifs at h
  · simp [Except.map] at h
  · split at h
    · next w hw =>
      obtain rfl : Failure.lockedBy w = e := by simpa [Except.map] using h
      rw [Failure.conflict_lockedBy] at hc
      exact (Option.filter_eq_some_iff.mp hw).1.trans hc
    · simp [Except.map] at h

end MemActor

namespace System

variable {s s' : System V} {a b : Action V} {as : List (Action V)} {m m' m₁ : Msg V}
  {x : StringPtr} {p : LoggedActor V} {w t c : TxnTime} {e : Failure}

/-! ## What a call leads to -/

/-- `Leads s m as m'`: the message `m` in flight in `s` is, or has led to, the message
    `m'` in flight after the actions `as`. Equal messages are not told apart. -/
inductive Leads : System V → Msg V → List (Action V) → Msg V → Prop
  | here (s : System V) (m : Msg V) : Leads s m [] m
  | wait {s : System V} {m m' : Msg V} {a : Action V} {as : List (Action V)}
      (hdel : ¬ s.Delivers a m) (h : Leads (s.step a) m as m') : Leads s m (a :: as) m'
  | follow {s : System V} {m m₁ m' : Msg V} {a : Action V} {as : List (Action V)}
      (hdel : s.Delivers a m) (hm : m₁ ∈ s.issued a) (h : Leads (s.step a) m₁ as m') :
      Leads s m (a :: as) m'

/-- The action changes the state of the transaction. -/
def Changes (s : System V) (a : Action V) (t : TxnTime) : Prop :=
  ((s.step a).node.txns t).state ≠ (s.node.txns t).state

/-- The action, or a later one that delivers a message it has led to, changes the
    state of the transaction. -/
def MayChange (s : System V) (a : Action V) (t : TxnTime) : Prop :=
  s.Changes a t ∨ ∃ m ∈ s.issued a, ∃ as m' b, Leads (s.step a) m as m' ∧
    (run step (s.step a) as).Delivers b m' ∧ (run step (s.step a) as).Changes b t

/-- Only the transaction that holds the lock of the actor `p` may be changed. -/
def AbortsHolderOnly (s : System V) (a : Action V) (p : LoggedActor V) : Prop :=
  ∀ t, s.MayChange a t → p.actor.writeLock = some t

/-! ## The messages of `cleanup` -/

/-- The messages of `cleanup(c)`: the question for the state, the decision, and the
    release of a lock. -/
inductive Recovers (c : TxnTime) : Msg V → Prop
  | ask : Recovers c (.txnState c)
  | decide (d : Decision) : Recovers c (.setState d none c)
  | release (d : Decision) (x : StringPtr) : Recovers c (.ptr x (d.release c))

theorem Recovers.handle (h : Recovers c m) (hm : m' ∈ (s.handle m).2) : Recovers c m' := by
  cases h with
  | ask =>
    cases follows_of_mem_handle hm with
    | decide d => exact .decide d
  | decide d =>
    cases follows_of_mem_handle hm with
    | release _ _ _ x => exact .release d x
  | release d x =>
    -- a release is the last message of its chain
    cases d <;> (simp only [System.handle, Decision.release] at hm; split at hm) <;>
      simp [afterPtr] at hm

theorem Leads.recovers (h : Leads s m as m') (hm : Recovers c m) : Recovers c m' := by
  induction h with
  | here => exact hm
  | wait _ _ ih => exact ih hm
  | follow hdel hm₁ _ ih => exact ih (hm.handle (hdel.issued_eq ▸ hm₁))

/-! ## What changes a transaction -/

/-- A transaction changes by the decision that is delivered to it while it is open. -/
theorem Changes.delivers (h : s.Changes a t) :
    (s.node.txns t).state = .OPEN ∧ ∃ d caller, s.Delivers a (.setState d caller t) := by
  have hopen : (s.node.txns t).state = .OPEN := by
    by_contra hne
    exact h (state_step hne a)
  rcases txn_step s a t with heq | ⟨id, -, heq⟩ | ⟨d, caller, hdel, -⟩
  · exact absurd (congrArg TxnActor.state heq) h
  · refine absurd ?_ h
    rw [heq]
    exact TxnActor.addLock_state
  · exact ⟨hopen, d, caller, hdel⟩

theorem Recovers.changes (hm : Recovers c m) (hdel : s.Delivers a m) (h : s.Changes a t) : t = c := by
  obtain ⟨-, d, caller, hdel'⟩ := h.delivers
  cases hdel.unique hdel'
  cases hm with
  | decide => rfl

/-- A decided transaction stays as it is throughout a run. -/
theorem run_state (h : (s.node.txns t).state ≠ .OPEN) (as : List (Action V)) :
    ((run step s as).node.txns t).state ≠ .OPEN :=
  run_invariant (I := fun s : System V => (s.node.txns t).state ≠ .OPEN)
    (fun _ a h => (state_step h a).symm ▸ h) as h

/-! ## Recovery -/

theorem mem_cleanupExpired {clock : Clock} :
    m ∈ cleanupExpired clock c ↔ Expired clock c ∧ m = .txnState c := by
  unfold cleanupExpired
  split_ifs with h <;> simp [h]

/-- A call that is answered by a look at `c` changes `c` only, and only when it is
    expired and open. -/
theorem Delivers.mayChange {C : TxnTime → Prop} {r : MemMsg V} (hdel : s.Delivers a (.ptr x r))
    (hissued : ∀ m ∈ s.issued a, ∃ c, C c ∧ m ∈ cleanupExpired s.clock c)
    (h : s.MayChange a t) : C t ∧ Expired s.clock t ∧ (s.node.txns t).state = .OPEN := by
  rcases h with h | ⟨m, hm, as, m', b, hleads, hdel', h⟩
  · obtain ⟨-, d, caller, hdel'⟩ := h.delivers
    cases hdel.unique hdel'
  · obtain ⟨c, hC, hc⟩ := hissued m hm
    obtain ⟨hexpired, rfl⟩ := mem_cleanupExpired.mp hc
    obtain rfl := (hleads.recovers .ask).changes hdel' h
    refine ⟨hC, hexpired, ?_⟩
    by_contra hne
    exact run_state ((state_step hne a).symm ▸ hne) as h.delivers.1

/-- An open transaction that is asked for may be reset. -/
theorem mayChange_of_asked (hm : .txnState t ∈ s.issued a) (hopen : (s.node.txns t).state = .OPEN) :
    s.MayChange a t := by
  by_cases h : s.Changes a t
  · exact .inl h
  have hopen₁ : ((s.step a).node.txns t).state = .OPEN := (not_not.mp h).trans hopen
  -- the question is delivered, and then the decision
  obtain ⟨i, hi⟩ := List.mem_iff_getElem?.mp (mem_net_of_issued hm)
  have hask : (s.step a).Delivers (.deliver i) (.txnState t) := ⟨i, rfl, hi⟩
  have hdecide : .setState .reset none t ∈ (s.step a).issued (.deliver i) := by
    rw [hask.issued_eq]
    simp [handle, RestmActors.txnState, TxnActor.getState, hopen₁, afterTxnState]
  obtain ⟨j, hj⟩ := List.mem_iff_getElem?.mp (mem_net_of_issued hdecide)
  have hreset : ((s.step a).step (.deliver i)).Delivers (.deliver j) (.setState .reset none t) :=
    ⟨j, rfl, hj⟩
  have hopen₂ : (((s.step a).step (.deliver i)).node.txns t).state = .OPEN := by
    by_contra hne
    exact hne ((not_not.mp fun hch : (s.step a).Changes (.deliver i) t => by
      obtain ⟨-, d, caller, hd⟩ := hch.delivers
      cases hask.unique hd).trans hopen₁)
  refine .inr ⟨_, hm, [.deliver i], _, .deliver j, .follow hask hdecide (.here _ _), hreset, ?_⟩
  show _ ≠ _
  rw [show run step (s.step a) [.deliver i] = (s.step a).step (.deliver i) from rfl,
    hreset.state_setState (.inl hopen₂), hopen₂]
  decide

/-- The lock is held, or what is in the way is not to be reset: it has not expired, or
    it is decided. -/
def Spares (s : System V) (p : LoggedActor V) (w : TxnTime) : Prop :=
  p.actor.writeLock ≠ none ∨
    ∀ c, p.actor.inTheWay w = some c → ¬ Expired s.clock c ∨ (s.node.txns c).state ≠ .OPEN

theorem Delivers.refused (hdel : s.Delivers a (.ptr x (.writeLock w)))
    (hp : s.node.ptrs x = some p) (h : p.actor.reply (.writeLock w) = .ok (.conflicting (some c))) :
    s.AbortsHolderOnly a p ↔ s.Spares p w := by
  have hissued : s.issued a = cleanupExpired s.clock c := by
    rw [hdel.issued_eq]
    simp [handle, hp, h, afterPtr]
  have hmay : ∀ t, s.MayChange a t → t = c ∧ Expired s.clock t ∧ (s.node.txns t).state = .OPEN :=
    fun t ht => hdel.mayChange (C := (· = c)) (fun m hm => ⟨c, rfl, hissued ▸ hm⟩) ht
  rcases MemActor.refusal h with hlock | ⟨hfree, hway⟩
  · refine iff_of_true (fun t ht => ?_) (.inl (by simp [hlock]))
    rw [(hmay t ht).1]
    exact hlock
  · constructor
    · intro hholder
      refine .inr fun c' hc' => ?_
      obtain rfl : c = c' := Option.some.inj (hway.symm.trans hc')
      by_contra! hreset
      have hask : .txnState c ∈ s.issued a :=
        hissued ▸ mem_cleanupExpired.mpr ⟨hreset.1, rfl⟩
      have := hholder c (mayChange_of_asked hask hreset.2)
      rw [hfree] at this
      cases this
    · rintro (hlock | hspare) t ht
      · exact absurd hfree hlock
      · obtain ⟨rfl, hexpired, hopen⟩ := hmay t ht
        rcases hspare t hway with h | h
        · exact absurd hexpired h
        · exact absurd hopen h

theorem Delivers.conflicts (hdel : s.Delivers a (.ptr x (.getValue t)))
    (hp : s.node.ptrs x = some p) (h : p.actor.reply (.getValue t) = .error e) :
    s.AbortsHolderOnly a p := by
  intro t' ht
  refine (hdel.mayChange (C := fun c => e.conflict = some c) (fun m hm => ?_) ht).1
    |> MemActor.conflict_holder h
  rw [hdel.issued_eq] at hm
  simpa [handle, hp, h, afterPtr] using hm

/-- In every state that a run reaches, a refused lock may change the holder of the lock
    only exactly when the pointer is locked or what is in the way is not to be reset; a
    timed read that conflicts may change the holder only. -/
theorem recovery_aborts_holder_only (clock : Clock)
    (coldStorage : StringPtr → List (TxnTime × Option V)) (as : List (Action V)) :
    let s := run step (start clock coldStorage) as
    (∀ a x w p c, s.Delivers a (.ptr x (.writeLock w)) → s.node.ptrs x = some p →
      p.actor.reply (.writeLock w) = .ok (.conflicting (some c)) →
      (s.AbortsHolderOnly a p ↔ s.Spares p w)) ∧
    ∀ a x t p e, s.Delivers a (.ptr x (.getValue t)) → s.node.ptrs x = some p →
      p.actor.reply (.getValue t) = .error e → s.AbortsHolderOnly a p :=
  ⟨fun _ _ _ _ _ hdel hp h => hdel.refused hp h, fun _ _ _ _ _ hdel hp h => hdel.conflicts hp h⟩

/-- A lock is refused because of an expired writer that holds it. -/
theorem recovery_aborts_holder_only_one :
    let as : List (Action ℕ) :=
      [.call (.lock ⟨"x"⟩ (.ofEpoch 1)), .deliver 0, .deliver 0, .tick ⟨10000, 0⟩,
        .call (.lock ⟨"x"⟩ (.ofEpoch 9))]
    let s := run step (start ⟨1000, 0⟩ fun _ => []) as
    ∃ p, s.node.ptrs ⟨"x"⟩ = some p ∧ s.AbortsHolderOnly (.deliver 0) p := by
  intro as s
  have h := (recovery_aborts_holder_only ⟨1000, 0⟩ (fun _ => []) as).1 (.deliver 0) ⟨"x"⟩ (.ofEpoch 9)
  obtain ⟨p, hp⟩ := Option.isSome_iff_exists.mp (show (s.node.ptrs ⟨"x"⟩).isSome by decide)
  have hreply : (s.node.ptrs ⟨"x"⟩).map (fun p => p.actor.reply (.writeLock (.ofEpoch 9))) =
      some (.ok (.conflicting (some (.ofEpoch 1)))) := by decide
  have hlock : (s.node.ptrs ⟨"x"⟩).map (fun p => p.actor.writeLock) = some (some (.ofEpoch 1)) := by
    decide
  rw [hp] at hreply hlock
  refine ⟨p, hp, (h p (.ofEpoch 1) ⟨0, rfl, by decide⟩ hp (Option.some.inj hreply)).mpr (.inl ?_)⟩
  simp [Option.some.inj hlock]

/-- Transaction 2 reads a pointer that nobody has written. Eight seconds later
    transaction 1 is refused its lock, which nobody holds, and transaction 2 is reset. -/
theorem reader_reset :
    let as : List (Action ℕ) :=
      [.call (.getPtr ⟨"x"⟩ (.ofEpoch 2)), .deliver 0, .tick ⟨10000, 0⟩,
        .call (.lock ⟨"x"⟩ (.ofEpoch 1))]
    let s := run step (start ⟨1000, 0⟩ fun _ => []) as
    (∃ p, s.node.ptrs ⟨"x"⟩ = some p ∧ s.Delivers (.deliver 0) (.ptr ⟨"x"⟩ (.writeLock (.ofEpoch 1))) ∧
      p.actor.reply (.writeLock (.ofEpoch 1)) = .ok (.conflicting (some (.ofEpoch 2))) ∧
      p.actor.lastRead = some (.ofEpoch 2) ∧ ¬ s.AbortsHolderOnly (.deliver 0) p) ∧
    (s.node.txns (.ofEpoch 2)).state = .OPEN ∧
    ((run step s [.deliver 0, .deliver 0, .deliver 0]).node.txns (.ofEpoch 2)).state = .RESET := by
  intro as s
  refine ⟨?_, by decide, by decide⟩
  obtain ⟨p, hp⟩ := Option.isSome_iff_exists.mp (show (s.node.ptrs ⟨"x"⟩).isSome by decide)
  have hp' : (s.node.ptrs ⟨"x"⟩).map (fun p =>
        (p.actor.reply (.writeLock (.ofEpoch 1)), p.actor.lastRead, p.actor.writeLock)) =
      some (.ok (.conflicting (some (.ofEpoch 2))), some (.ofEpoch 2), none) := by decide
  rw [hp] at hp'
  obtain ⟨hreply, hread, hfree⟩ : _ ∧ _ ∧ _ := by simpa using hp'
  refine ⟨p, hp, ⟨0, rfl, by decide⟩, hreply, hread, fun hholder => ?_⟩
  have := hholder (.ofEpoch 2) (mayChange_of_asked (by decide) (by decide))
  rw [hfree] at this
  cases this

end System

end ReSTM
