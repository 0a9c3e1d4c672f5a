import ReSTM.Actors.Log
import ReSTM.Actors.TxnActor

/-!
# Pointers obey the outcome of transactions

A pointer actor sees `writeCommit` and `writeReset` messages only; it does not ask
for a transaction's state. `Obeys` is what holds of an actor and its log as long as
every such message agrees with the outcomes `outcome`, which may be decided as time
goes on but do not change.
-/

namespace ReSTM

variable {V : Type}

/-- A value that `t` supplied entered the history: it was queued under the lock of
    `t` and committed, or it was written at once. -/
def Entered (t : TxnTime) : List (Line V) → Prop
  | [] => False
  | .committed _ :: log => slotOwner log = some t ∨ Entered t log
  | .written w _ :: log => w = t ∨ Entered t log
  | _ :: log => Entered t log

/-- A value queued under the lock of `t` was discarded by a `writeReset`. -/
def Discarded (t : TxnTime) : List (Line V) → Prop
  | [] => False
  | .wasReset _ :: log => slotOwner log = some t ∨ Discarded t log
  | _ :: log => Discarded t log

/-- An initial value found the lock of `t` and replaced what was queued under it. -/
def Reinitialised (t : TxnTime) : List (Line V) → Prop
  | [] => False
  | .initialised _ _ :: log => slotOwner log = some t ∨ Reinitialised t log
  | _ :: log => Reinitialised t log

/-- What became of a value queued by `t`: it is still in the slot, or it entered the
    history or was removed. -/
def Fate (t : TxnTime) (log : List (Line V)) : Prop :=
  slotOwner log = some t ∨ Entered t log ∨ Discarded t log ∨ Reinitialised t log

/-- A release that agrees with the outcome of its transaction. -/
def Agrees (outcome : TxnTime → TxnState) : MemMsg V → Prop
  | .writeCommit t => outcome t = .COMMIT
  | .writeReset t => outcome t = .RESET
  | _ => True

namespace LoggedActor

variable {outcome : TxnTime → TxnState} {p : LoggedActor V} {m : MemMsg V}

structure Obeys (outcome : TxnTime → TxnState) (p : LoggedActor V) : Prop where
  slot : p.SlotLocked
  stale : ∀ t, p.actor.staleCommit = some t → outcome t = .COMMIT
  entered : ∀ t, Entered t p.log → outcome t = .COMMIT
  discarded : ∀ t, Discarded t p.log → outcome t = .RESET
  fate : ∀ t q, .queued t q ∈ p.log → Fate t p.log

theorem Obeys.mono {outcome' : TxnTime → TxnState}
    (h : ∀ t, outcome t ≠ .OPEN → outcome' t = outcome t) (hp : p.Obeys outcome) :
    p.Obeys outcome' where
  slot := hp.slot
  stale t ht := by
    have hc := hp.stale t ht
    rw [h t (by rw [hc]; decide), hc]
  entered t ht := by
    have hc := hp.entered t ht
    rw [h t (by rw [hc]; decide), hc]
  discarded t ht := by
    have hr := hp.discarded t ht
    rw [h t (by rw [hr]; decide), hr]
  fate := hp.fate

/-- Every queued value is still in the slot or has met its fate. -/
theorem fate_step (hslot : p.SlotLocked) (hp : ∀ t q, .queued t q ∈ p.log → Fate t p.log)
    (m : MemMsg V) : ∀ t q, .queued t q ∈ (p.step m).log → Fate t (p.step m).log := by
  obtain ⟨a, log⟩ := p
  have heff := MemActor.receive_effect a m
  have hold : ∀ t q, .queued t q ∈ log → Fate t log := hp
  -- a value is queued or written in an empty slot only
  have hempty : a.queuedValue = none → ∀ t, slotOwner log ≠ some t := by
    intro hnone t ht
    have hsome := (hslot t ht).2
    rw [hnone] at hsome; cases hsome
  simp only [LoggedActor.step]
  generalize a.reply m = r at heff
  generalize a.step m = a' at heff
  intro t q ht
  cases heff with
  | queueBlob w v _ _ hqueue | queueDelete w _ _ hqueue =>
    rcases List.mem_cons.mp ht with ht | ht
    · cases ht; exact .inl rfl
    · rcases hold t q ht with h | h | h | h
      · exact absurd h (hempty hqueue t)
      · exact .inr (.inl h)
      · exact .inr (.inr (.inl h))
      · exact .inr (.inr (.inr h))
  | staleBlob w w' v _ _ hqueue | staleDelete w w' _ _ hqueue =>
    rcases hold t q (by simpa [MemMsg.line] using ht) with h | h | h | h
    · exact absurd h (hempty hqueue t)
    · exact .inr (.inl (.inr h))
    · exact .inr (.inr (.inl h))
    · exact .inr (.inr (.inr h))
  | commit w q' =>
    rcases hold t q (by simpa [MemMsg.line] using ht) with h | h | h | h
    · exact .inr (.inl (.inl h))
    · exact .inr (.inl (.inr h))
    · exact .inr (.inr (.inl h))
    · exact .inr (.inr (.inr h))
  | reset w =>
    rcases hold t q (by simpa [MemMsg.line] using ht) with h | h | h | h
    · exact .inr (.inr (.inl (.inl h)))
    · exact .inr (.inl h)
    · exact .inr (.inr (.inl (.inr h)))
    · exact .inr (.inr (.inr h))
  | initFresh w v =>
    rcases hold t q (by simpa [MemMsg.line] using ht) with h | h | h | h
    · exact .inr (.inr (.inr (.inl h)))
    · exact .inr (.inl h)
    · exact .inr (.inr (.inl h))
    · exact .inr (.inr (.inr (.inr h)))
  | fail =>
    cases m <;> exact hold t q (by simpa [MemMsg.line] using ht)
  | _ => exact hold t q (by simpa [MemMsg.line] using ht)

theorem Obeys.step (hp : p.Obeys outcome) (hm : Agrees outcome m) : (p.step m).Obeys outcome := by
  suffices h : (∀ t, (p.step m).actor.staleCommit = some t → outcome t = .COMMIT) ∧
      (∀ t, Entered t (p.step m).log → outcome t = .COMMIT) ∧
      ∀ t, Discarded t (p.step m).log → outcome t = .RESET from
    ⟨slotLocked_step hp.slot m, h.1, h.2.1, h.2.2, fate_step hp.slot hp.fate m⟩
  obtain ⟨a, log⟩ := p
  obtain ⟨hslot, hstale, hent, hdis, -⟩ := hp
  have heff := MemActor.receive_effect a m
  simp only [LoggedActor.step] at *
  generalize a.reply m = r at heff
  generalize a.step m = a' at heff
  -- what is in the slot belongs to the holder of the lock
  have hholder : ∀ t w, a.writeLock = some w → slotOwner log = some t → t = w := by
    intro t w hw ht
    exact Option.some.inj ((hslot t ht).1.symm.trans hw)
  cases heff with
  | commit w q hlock =>
    refine ⟨by simp, fun t ht => ?_, fun t ht => hdis t ht⟩
    rcases ht with ht | ht
    · rw [hholder t w hlock ht]; exact hm
    · exact hent t ht
  | preCommit w hlock =>
    exact ⟨fun t ht => by cases ht; exact hm, fun t ht => hent t ht, fun t ht => hdis t ht⟩
  | reset w hlock =>
    refine ⟨by simp, fun t ht => hent t ht, fun t ht => ?_⟩
    rcases ht with ht | ht
    · rw [hholder t w hlock ht]; exact hm
    · exact hdis t ht
  | staleBlob w w' v hlock hst =>
    refine ⟨by simp, fun t ht => ?_, fun t ht => hdis t ht⟩
    rcases ht with rfl | ht
    · exact hstale w hst
    · exact hent t ht
  | staleDelete w w' hlock hst =>
    refine ⟨by simp, fun t ht => ?_, fun t ht => hdis t ht⟩
    rcases ht with rfl | ht
    · exact hstale w hst
    · exact hent t ht
  | queueDelete | initFresh =>
    exact ⟨by simp, fun t ht => hent t ht, fun t ht => hdis t ht⟩
  | fail =>
    cases m <;> exact ⟨hstale, fun t ht => hent t ht, fun t ht => hdis t ht⟩
  | _ => exact ⟨hstale, fun t ht => hent t ht, fun t ht => hdis t ht⟩

end LoggedActor

end ReSTM
