import ReSTM.Actors.Log
import ReSTM.Actors.RepeatableRead
import Mathlib.Data.List.Induction

/-!
# Versions, lock and queue belong to one transaction

Every message is meant to act for its own transaction: versions carry the time of
the transaction that supplied them, a lock is released by its holder, and what is
queued is the holder's. Three messages break this, and `OwnLock` is the condition
that none of them arrives:

* a value that comes after its transaction's commit while another transaction
  holds the lock is stamped with that lock's time and releases it;
* a deletion that comes after its transaction's commit does the same, and stays
  in `queuedValue` even if its own transaction took the lock again;
* `init` on a pointer without versions releases whatever lock there is.

`owned_of_run`: in every run without these, all three properties hold.
`foreign_lock_run`: each of the three breaks them.
-/

namespace ReSTM

open Transition

variable {V : Type}

/-- The message supplies the version. -/
def MemMsg.Supplies (x : HistoryRecord V) : MemMsg V → Prop
  | .init t v | .writeBlob t v => x.time = t ∧ x.value = some v
  | .delete t => x.time = t ∧ x.value = none
  | _ => False

instance [DecidableEq V] (x : HistoryRecord V) : ∀ m, Decidable (MemMsg.Supplies x m)
  | .init t v | .writeBlob t v => inferInstanceAs (Decidable (x.time = t ∧ x.value = some v))
  | .delete t => inferInstanceAs (Decidable (x.time = t ∧ x.value = none))
  | .getCurrentValue | .getValue _ | .writeLock _ | .writeCommit _ | .writeReset _ =>
    inferInstanceAs (Decidable False)

namespace MemActor

variable {a a' : MemActor V} {m : MemMsg V} {r : Except Failure (Answer V)}

/-- The message does not act on another transaction's lock, nor leave a deletion
    queued after the lock is released. -/
def OwnLock (a : MemActor V) : MemMsg V → Prop
  | .writeBlob t _ => a.staleCommit = some t → ∀ w, a.writeLock = some w → w = t
  | .delete t => a.staleCommit = some t → a.writeLock = none
  | .init t _ => a.history = [] → ∀ w, a.writeLock = some w → w = t
  | _ => True

instance [DecidableEq V] (a : MemActor V) : ∀ m, Decidable (OwnLock a m)
  | .writeBlob t _ =>
    inferInstanceAs (Decidable (a.staleCommit = some t → ∀ w, a.writeLock = some w → w = t))
  | .delete t => inferInstanceAs (Decidable (a.staleCommit = some t → a.writeLock = none))
  | .init t _ => inferInstanceAs (Decidable (a.history = [] → ∀ w, a.writeLock = some w → w = t))
  | .getCurrentValue | .getValue _ | .writeLock _ | .writeCommit _ | .writeReset _ =>
    inferInstanceAs (Decidable True)

/-- Only the holder of a lock releases it. -/
theorem Effect.lock_kept (h : Effect a m r a') (hown : OwnLock a m) {w : TxnTime}
    (hw : a.writeLock = some w) (hm : m.time? ≠ some w) : a'.writeLock = some w := by
  cases h with
  | initFresh t v hempty => exact absurd (congrArg some (hown hempty w hw).symm) hm
  | lock t hfree => rw [hfree] at hw; cases hw
  | staleBlob t w' v hlock hstale => exact absurd (congrArg some (hown hstale w hw).symm) hm
  | staleDelete t w' hlock hstale => rw [hown hstale] at hw; cases hw
  | commit t q hlock | preCommit t hlock | reset t hlock =>
    rw [hlock] at hw
    exact absurd hw hm
  | _ => exact hw

end MemActor

namespace LoggedActor

open MemActor

/-- The lock's holder queued what is in the slot. -/
def SlotOwned (p : LoggedActor V) : Prop :=
  ∀ q, p.actor.queuedValue = some q →
    ∃ w, p.actor.writeLock = some w ∧ slotOwner p.log = some w

theorem slotOwned_step {p : LoggedActor V} {m : MemMsg V} (hown : OwnLock p.actor m)
    (hp : p.SlotOwned) : (p.step m).SlotOwned := by
  obtain ⟨a, log⟩ := p
  have heff := receive_effect a m
  simp only [SlotOwned, step] at hp hown ⊢
  generalize a.reply m = r at heff
  generalize a.step m = a' at heff
  intro q hq
  cases heff with
  | queueBlob t v hlock | queueDelete t hlock => exact ⟨t, hlock, rfl⟩
  | staleDelete t w hlock hstale => rw [hown hstale] at hlock; cases hlock
  | lock t hfree =>
    obtain ⟨w, hw, -⟩ := hp q hq
    rw [hfree] at hw; cases hw
  | preCommit t hlock hqueue => rw [hqueue] at hq; cases hq
  | initFresh | staleBlob | commit | reset => cases hq
  | fail =>
    obtain ⟨w, hw, hslot⟩ := hp q hq
    refine ⟨w, hw, ?_⟩
    cases m <;> exact hslot
  | _ => exact hp q hq

/-- Every version was supplied under its own time, and so was what is queued. -/
structure Supplied (msgs : List (MemMsg V)) (a : MemActor V) : Prop where
  history : ∀ x ∈ a.history, ∃ m ∈ msgs, m.Supplies x
  queue : ∀ q, a.queuedValue = some q →
    ∃ w, a.writeLock = some w ∧ ∃ m ∈ msgs, m.Supplies { time := w, value := q }

theorem Supplied.weaken {msgs : List (MemMsg V)} {a : MemActor V} (h : Supplied msgs a)
    (m : MemMsg V) : Supplied (msgs ++ [m]) a where
  history x hx := by
    obtain ⟨m', hm', hs⟩ := h.history x hx
    exact ⟨m', List.mem_append_left _ hm', hs⟩
  queue q hq := by
    obtain ⟨w, hw, m', hm', hs⟩ := h.queue q hq
    exact ⟨w, hw, m', List.mem_append_left _ hm', hs⟩

/-- A new version that some message supplied. -/
theorem Supplied.concat {msgs : List (MemMsg V)} {a : MemActor V} (h : Supplied msgs a)
    {x : HistoryRecord V} (hx : ∃ m ∈ msgs, m.Supplies x) {l : List (HistoryRecord V)}
    (hl : ∀ y ∈ l, y ∈ a.history) : ∀ y ∈ l ++ [x], ∃ m ∈ msgs, m.Supplies y := by
  intro y hy
  rcases List.mem_append.mp hy with hy | hy
  · exact h.history y (hl y hy)
  · rw [List.mem_singleton.mp hy]; exact hx

theorem Supplied.step {msgs : List (MemMsg V)} {a : MemActor V} {m : MemMsg V}
    (hown : OwnLock a m) (h : Supplied msgs a) : Supplied (msgs ++ [m]) (a.step m) := by
  have heff := receive_effect a m
  have h' := h.weaken m
  have hmem : m ∈ msgs ++ [m] := List.mem_append_right _ (List.mem_singleton_self m)
  generalize a.reply m = r at heff
  generalize a.step m = a' at heff
  cases heff with
  | initFresh t v =>
    refine ⟨fun x hx => ?_, fun q hq => (nomatch hq)⟩
    rw [List.mem_singleton.mp hx]
    exact ⟨_, hmem, rfl, rfl⟩
  | readSlow => exact ⟨h'.history, h'.queue⟩
  | lock t hfree =>
    refine ⟨h'.history, fun q hq => ?_⟩
    obtain ⟨w, hw, -⟩ := h'.queue q hq
    rw [hfree] at hw; cases hw
  | queueBlob t v hlock | queueDelete t hlock =>
    refine ⟨h'.history, fun q hq => ?_⟩
    cases hq
    exact ⟨t, hlock, _, hmem, rfl, rfl⟩
  | staleBlob t w v hlock hstale =>
    obtain rfl := hown hstale w hlock
    exact ⟨h'.concat ⟨_, hmem, rfl, rfl⟩ fun y hy => hy, fun q hq => (nomatch hq)⟩
  | staleDelete t w hlock hstale => rw [hown hstale] at hlock; cases hlock
  | commit t q hlock hqueue =>
    obtain ⟨w, hw, hsupply⟩ := h'.queue q hqueue
    obtain rfl : t = w := Option.some.inj (hlock.symm.trans hw)
    exact ⟨h'.concat hsupply fun y hy => (List.mem_filter.mp hy).1, fun q hq => (nomatch hq)⟩
  | preCommit t hlock hqueue =>
    refine ⟨h'.history, fun q hq => ?_⟩
    rw [hqueue] at hq; cases hq
  | reset => exact ⟨h'.history, fun q hq => (nomatch hq)⟩
  | _ => exact h'

theorem run_supplied {lastRead : Option TxnTime} (msgs : List (MemMsg V))
    (hown : Along MemActor.step OwnLock (create lastRead []) msgs) :
    Supplied msgs (run MemActor.step (create lastRead []) msgs) := by
  induction msgs using List.reverseRecOn with
  | nil => exact ⟨fun x hx => absurd hx List.not_mem_nil, fun q hq => (nomatch hq)⟩
  | append_singleton msgs m ih =>
    obtain ⟨hmsgs, hm⟩ := along_append.mp hown
    rw [run_append]
    exact (ih hmsgs).step hm.1

theorem run_slotOwned {p : LoggedActor V} (hp : p.SlotOwned) {msgs : List (MemMsg V)}
    (hown : Along MemActor.step OwnLock p.actor msgs) : (run step p msgs).SlotOwned := by
  induction msgs generalizing p with
  | nil => exact hp
  | cons m msgs ih => exact ih (slotOwned_step hown.1 hp) hown.2

/-- In every run from a fresh actor in which no message acts on another's lock, every
    version was supplied by its own transaction, no message releases the lock of
    another transaction, and what is queued was queued by the lock's holder. -/
theorem owned_of_run (lastRead : Option TxnTime) (msgs : List (MemMsg V))
    (hown : Along MemActor.step OwnLock (create lastRead []) msgs) :
    let p := run step { actor := create lastRead [] } msgs
    (∀ x ∈ p.actor.history, ∃ m ∈ msgs, m.Supplies x) ∧
    (∀ pre m post, msgs = pre ++ m :: post →
      ∀ w, (run MemActor.step (create lastRead []) pre).writeLock = some w → m.time? ≠ some w →
        (run MemActor.step (create lastRead []) (pre ++ [m])).writeLock = some w) ∧
    (∀ q, p.actor.queuedValue = some q →
      ∃ w, p.actor.writeLock = some w ∧ slotOwner p.log = some w) := by
  refine ⟨?_, ?_, run_slotOwned (by rintro q ⟨⟩) hown⟩
  · rw [run_actor]
    exact (run_supplied msgs hown).history
  · rintro pre m post rfl w hw hm
    rw [run_append]
    exact (receive_effect _ m).lock_kept (along_append.mp hown).2.1 hw hm

/-- Two transactions take turns; the second is refused while the first holds the lock. -/
theorem owned_of_run_two :
    let msgs : List (MemMsg ℕ) :=
      [.writeLock (.ofEpoch 1), .writeLock (.ofEpoch 2), .writeBlob (.ofEpoch 1) 10,
        .writeCommit (.ofEpoch 1), .writeLock (.ofEpoch 2), .delete (.ofEpoch 2)]
    let p := run step { actor := create none [] } msgs
    (∀ x ∈ p.actor.history, ∃ m ∈ msgs, m.Supplies x) ∧
      ∃ w, p.actor.writeLock = some w ∧ slotOwner p.log = some w := by
  intro msgs p
  have h := owned_of_run none msgs (by decide)
  exact ⟨h.1, h.2.2 none (by decide)⟩

/-- A value of 1 after its commit, with the lock at 2: nobody supplied the version
    made, and the lock of 2 is gone. A deletion in its place stays queued with nobody
    holding the lock. `init` by 1 releases the lock of 2. -/
theorem foreign_lock_run :
    (let msgs : List (MemMsg ℕ) :=
      [.writeLock (.ofEpoch 1), .writeCommit (.ofEpoch 1), .writeLock (.ofEpoch 2)]
     let a := run MemActor.step (create none []) msgs
     a.writeLock = some (.ofEpoch 2) ∧
      (a.step (.writeBlob (.ofEpoch 1) 10)).history = [{ time := .ofEpoch 2, value := some 10 }] ∧
      (∀ m ∈ msgs ++ [.writeBlob (.ofEpoch 1) 10],
        ¬m.Supplies { time := .ofEpoch 2, value := some 10 }) ∧
      (a.step (.writeBlob (.ofEpoch 1) 10)).writeLock = none ∧
      (a.step (.delete (.ofEpoch 1))).queuedValue = some none ∧
      (a.step (.delete (.ofEpoch 1))).writeLock = none) ∧
    (let a : MemActor ℕ := (create none []).step (.writeLock (.ofEpoch 2))
     a.writeLock = some (.ofEpoch 2) ∧ (a.step (.init (.ofEpoch 1) 10)).writeLock = none) := by
  decide

end LoggedActor

end ReSTM
