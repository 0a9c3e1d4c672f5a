import ReSTM.Storage.Steps

/-!
# No orphaned lock

A lock is granted by one message and registered by another, and the transaction
can be decided before, between and after the two. Whoever comes last releases the
lock: the decision, if the lock is registered by then, and otherwise the
continuation of `addLock`.

* `noOrphan_step`: a lock is always registered with an open transaction, or the
  message that will register or release it is in flight.
* `no_orphaned_lock`: so in every run, from the start.
-/

namespace ReSTM

open Transition

variable {V : Type}

namespace MemActor

variable {a a' : MemActor V} {m : MemMsg V} {r : Except Failure (Answer V)} {t : TxnTime}

/-- A transaction that holds the lock held it before, or was just granted it. -/
theorem Effect.lock_eq (h : Effect a m r a') (hlock : a'.writeLock = some t) :
    a.writeLock = some t ∨ m = .writeLock t ∧ r = .ok (.conflicting none) := by
  cases h with
  | lock t' => cases hlock; exact .inr ⟨rfl, rfl⟩
  | initFresh | staleBlob | staleDelete | commit | preCommit | reset => cases hlock
  | _ => exact .inl hlock

/-- A release always leaves the lock with somebody else, or with nobody. -/
theorem Effect.released {d : Decision} (h : Effect a (d.release t) r a') :
    a'.writeLock ≠ some t := by
  cases d with
  | commit =>
    cases h with
    | commit | preCommit => simp
    | fail _ _ hlock => exact hlock t (.inl rfl)
  | reset =>
    cases h with
    | reset => simp
    | fail _ _ hlock => exact hlock t (.inr rfl)

end MemActor

/-- The transaction a message speaks for. -/
def Msg.time? : Msg V → Option TxnTime
  | .ptr _ m => m.time?
  | .addLock _ t | .setState _ _ t | .txnState t | .completed _ _ t _ => some t

namespace System

variable {s : System V} {x : StringPtr} {t : TxnTime}

/-- Pointer `x` is write-locked by `t`. -/
def LockedBy (s : System V) (x : StringPtr) (t : TxnTime) : Prop :=
  ∃ p, s.node.ptrs x = some p ∧ p.actor.writeLock = some t

/-- The lock of `t` on `x` is registered with `t` still open, or the message that
    registers it, or one that releases it, is in flight. -/
def Tracked (s : System V) (x : StringPtr) (t : TxnTime) : Prop :=
  x ∈ (s.node.txns t).locks ∧ (s.node.txns t).state = .OPEN ∨
    .addLock x t ∈ s.net ∨ .ptr x (.writeReset t) ∈ s.net ∨ .ptr x (.writeCommit t) ∈ s.net

theorem Tracked.of_release {d : Decision} (h : .ptr x (d.release t) ∈ s.net) : s.Tracked x t := by
  cases d with
  | commit => exact .inr (.inr (.inr h))
  | reset => exact .inr (.inr (.inl h))

def NoOrphan (s : System V) : Prop := ∀ x t, s.LockedBy x t → s.Tracked x t

/-- A tracked lock stays tracked until it is released. -/
theorem Tracked.step (h : s.Tracked x t) (a : Action V) :
    (s.step a).Tracked x t ∨ ∃ d : Decision, s.Delivers a (.ptr x (d.release t)) := by
  rcases h with ⟨hx, hopen⟩ | hadd | hreset | hcommit
  · rcases txn_step s a t with heq | ⟨id, -, heq⟩ | ⟨d, caller, hdel, -⟩
    · exact .inl (.inl ⟨locks_step hx a, by rw [heq, hopen]⟩)
    · exact .inl (.inl ⟨locks_step hx a, by rw [heq, TxnActor.addLock_state, hopen]⟩)
    · exact .inl (.of_release (hdel.releases (.inl hopen) hx))
  · rcases mem_net_or_delivers hadd a with hadd | hdel
    · exact .inl (.inr (.inl hadd))
    · left
      cases hstate : (s.node.txns t).state with
      | OPEN =>
        refine .inl ⟨hdel.locks_addLock hstate, ?_⟩
        rcases txn_step s a t with heq | ⟨id, -, heq⟩ | ⟨d, caller, hdel', -⟩
        · rw [heq, hstate]
        · rw [heq, TxnActor.addLock_state, hstate]
        · cases hdel.unique hdel'
      | COMMIT => exact .of_release (d := .commit) (hdel.lateReleases hstate)
      | RESET => exact .of_release (d := .reset) (hdel.lateReleases hstate)
  · exact (mem_net_or_delivers hreset a).imp (fun h => .of_release (d := .reset) h)
      fun h => ⟨.reset, h⟩
  · exact (mem_net_or_delivers hcommit a).imp (fun h => .of_release (d := .commit) h)
      fun h => ⟨.commit, h⟩

theorem noOrphan_step (hs : s.NoOrphan) (a : Action V) : (s.step a).NoOrphan := by
  rintro x t ⟨p', hp', hlock⟩
  rcases ptr_step hp' with hp | ⟨-, now, time, rfl⟩ | ⟨p, m, hp, hdel, rfl⟩
  · rcases (hs x t ⟨p', hp, hlock⟩).step a with h | ⟨d, hdel⟩
    · exact h
    · -- the lock has just been released
      rw [hdel.ptr_step hp] at hp'
      rw [← Option.some.inj hp'] at hlock
      exact absurd hlock (MemActor.receive_effect p'.actor _).released
  · cases hlock
  · have heff := MemActor.receive_effect p.actor m
    rcases heff.lock_eq hlock with hlock' | ⟨rfl, hgrant⟩
    · rcases (hs x t ⟨p, hp, hlock'⟩).step a with h | ⟨d, hdel'⟩
      · exact h
      · cases hdel.unique hdel'
        exact absurd hlock heff.released
    · exact .inr (.inl (hdel.registers hp hgrant))

/-- In every reachable state a lock is registered with an open transaction or about to
    be registered or released. Once a transaction is decided and its messages have
    been processed, no pointer is locked by it. -/
theorem no_orphaned_lock (clock : Clock) (coldStorage : StringPtr → List (TxnTime × Option V))
    (as : List (Action V)) :
    let s := run step (start clock coldStorage) as
    (∀ x t, s.LockedBy x t → s.Tracked x t) ∧
      ∀ t, (s.node.txns t).state ≠ .OPEN → (∀ m ∈ s.net, m.time? ≠ some t) →
        ∀ x, ¬s.LockedBy x t := by
  intro s
  have hs : s.NoOrphan := by
    refine run_invariant (I := NoOrphan) (fun _ a hs => noOrphan_step hs a) as ?_
    rintro x t ⟨p, hp, -⟩
    cases hp
  refine ⟨hs, fun t hstate hnet x hlock => ?_⟩
  rcases hs x t hlock with ⟨-, hopen⟩ | h | h | h
  · exact hstate hopen
  all_goals exact hnet _ h rfl

end System

end ReSTM
