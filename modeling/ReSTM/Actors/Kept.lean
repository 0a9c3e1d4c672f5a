import ReSTM.Actors.RepeatableRead
import ReSTM.Actors.RestmActors

/-!
# A pointer keeps what was queued

When a client commits only after its locks were granted and its values were
acknowledged, a pointer never sees a value after its commit. `Kept` is what then
holds of an actor and its log: a value that was queued is discarded by the reset of
its transaction, still queued, or in the history.
-/

namespace ReSTM

variable {V : Type}

/-- A message that clients which wait for the answers to their calls may cause, when
    `outcome` is the state of every transaction; an initial value must not find a
    lock. -/
def Timely (outcome : TxnTime → TxnState) (a : MemActor V) : MemMsg V → Prop
  | .getCurrentValue | .getValue _ => True
  | .init _ _ => a.history = [] → a.writeLock = none
  | .writeLock t | .writeBlob t _ | .delete t => outcome t ≠ .COMMIT
  | .writeCommit t => outcome t = .COMMIT
  | .writeReset t => outcome t = .RESET

/-- The commit of `t` was carried out, with or without a value. -/
def Released (t : TxnTime) (log : List (Line V)) : Prop :=
  .committed t ∈ log ∨ .preCommitted t ∈ log

namespace LoggedActor

open MemActor

variable {outcome : TxnTime → TxnState} {p : LoggedActor V} {m : MemMsg V} {t u : TxnTime}
  {q : Option V}

structure Kept (outcome : TxnTime → TxnState) (p : LoggedActor V) : Prop where
  ordered : p.actor.Ordered
  stale : ∀ t, p.actor.staleCommit = some t → outcome t = .COMMIT
  slot : ∀ q, p.actor.queuedValue = some q →
    ∃ w, p.actor.writeLock = some w ∧ .queued w q ∈ p.log
  released : ∀ t, Released t p.log → outcome t = .COMMIT ∧ p.actor.writeLock ≠ some t
  committed : ∀ t, .committed t ∈ p.log →
    ∃ r ∈ p.actor.history, r.time = t ∧ .queued t r.value ∈ p.log
  queued : ∀ t q, .queued t q ∈ p.log →
    outcome t = .RESET ∨ p.actor.writeLock = some t ∧ p.actor.queuedValue = some q ∨
      .committed t ∈ p.log ∧ ∃ r ∈ p.actor.history, r.time = t ∧ r.value = q

theorem kept_restore {cold : List (TxnTime × Option V)} {now : ℤ} {time : Option TxnTime} :
    (restore cold now time).Kept outcome where
  ordered := restore_ordered cold now time
  stale _ h := nomatch h
  slot _ h := nomatch h
  released _ h := by rcases h with h | h <;> exact absurd h List.not_mem_nil
  committed _ h := absurd h List.not_mem_nil
  queued _ _ h := absurd h List.not_mem_nil

theorem Kept.mono {outcome' : TxnTime → TxnState}
    (h : ∀ t, outcome t ≠ .OPEN → outcome' t = outcome t) (hp : p.Kept outcome) :
    p.Kept outcome' :=
  { hp with
    stale := fun t ht => by
      have hc := hp.stale t ht
      rw [h t (by rw [hc]; decide), hc]
    released := fun t ht => by
      obtain ⟨hc, hlock⟩ := hp.released t ht
      exact ⟨by rw [h t (by rw [hc]; decide), hc], hlock⟩
    queued := fun t q ht => by
      refine (hp.queued t q ht).imp_left fun hr => ?_
      rw [h t (by rw [hr]; decide), hr] }

/-! ## One message -/

@[simp] theorem line_error (a : MemActor V) (m : MemMsg V) (e : Failure) :
    m.line a (.error e) = .nothing := by
  cases m <;> rfl

/-- A timely value does not come after its transaction's commit. -/
theorem Kept.not_stale (hp : p.Kept outcome) (ht : outcome t ≠ .COMMIT) :
    p.actor.staleCommit ≠ some t := fun h => ht (hp.stale t h)

/-- What the lock's holder queued is what is in the slot. -/
theorem Kept.slot_queued (hp : p.Kept outcome) (hlock : p.actor.writeLock = some t)
    (hqueue : p.actor.queuedValue = some q) : .queued t q ∈ p.log := by
  obtain ⟨w, hw, hq⟩ := hp.slot q hqueue
  rwa [Option.some.inj (hlock.symm.trans hw)]

/-- Nothing was committed to a pointer without versions. -/
theorem Kept.not_committed (hp : p.Kept outcome) (hempty : p.actor.history = []) :
    .committed t ∉ p.log := by
  intro h
  obtain ⟨r, hr, -⟩ := hp.committed t h
  rw [hempty] at hr
  exact absurd hr List.not_mem_nil

/-- Versions of other transactions survive a commit. -/
theorem mem_committed {l : List (HistoryRecord V)} {r x : HistoryRecord V} (hr : r ∈ l)
    (hne : r.time ≠ t) : r ∈ l.filter (fun r => decide (r.time ≠ t)) ++ [x] :=
  List.mem_append_left _ (List.mem_filter.mpr ⟨hr, decide_eq_true hne⟩)

theorem of_mem_committed {l : List (HistoryRecord V)} {r x : HistoryRecord V}
    (h : r ∈ l.filter (fun r => decide (r.time ≠ t)) ++ [x]) : r ∈ l ∧ r.time ≠ t ∨ r = x := by
  rcases List.mem_append.mp h with h | h
  · obtain ⟨hr, hne⟩ := List.mem_filter.mp h
    exact .inl ⟨hr, of_decide_eq_true hne⟩
  · exact .inr (List.mem_singleton.mp h)

theorem Kept.stale_step (hp : p.Kept outcome) (hm : Timely outcome p.actor m) :
    ∀ t, (p.step m).actor.staleCommit = some t → outcome t = .COMMIT := by
  have heff := receive_effect p.actor m
  have hstale := hp.stale
  simp only [step]
  generalize p.actor.reply m = r at heff
  generalize p.actor.step m = a' at heff
  intro t ht
  cases heff with
  | preCommit w => cases ht; exact hm
  | initFresh | queueDelete | staleBlob | staleDelete | commit | reset => cases ht
  | _ => exact hstale t ht

theorem Kept.slot_step (hp : p.Kept outcome) (hm : Timely outcome p.actor m) :
    ∀ q, (p.step m).actor.queuedValue = some q →
      ∃ w, (p.step m).actor.writeLock = some w ∧ .queued w q ∈ (p.step m).log := by
  have heff := receive_effect p.actor m
  have hslot : ∀ (line : Line V) q, p.actor.queuedValue = some q →
      ∃ w, p.actor.writeLock = some w ∧ .queued w q ∈ line :: p.log := by
    intro line q hq
    obtain ⟨w, hw, hmem⟩ := hp.slot q hq
    exact ⟨w, hw, List.mem_cons_of_mem _ hmem⟩
  simp only [step]
  generalize p.actor.reply m = r at heff
  generalize p.actor.step m = a' at heff
  intro q hq
  cases heff with
  | queueBlob t v hlock | queueDelete t hlock =>
    cases hq; exact ⟨t, hlock, List.mem_cons_self⟩
  | staleDelete t w hlock hst => exact absurd hst (hp.not_stale hm)
  | lock t hfree =>
    obtain ⟨w, hw, -⟩ := hp.slot q hq
    rw [hfree] at hw; cases hw
  | preCommit t hlock hqueue => rw [hqueue] at hq; cases hq
  | initFresh | staleBlob | commit | reset => cases hq
  | _ => exact hslot _ q hq

theorem Kept.released_step (hp : p.Kept outcome) (hm : Timely outcome p.actor m) :
    ∀ t, Released t (p.step m).log →
      outcome t = .COMMIT ∧ (p.step m).actor.writeLock ≠ some t := by
  have heff := receive_effect p.actor m
  have hreleased : ∀ t, .committed t ∈ p.log ∨ .preCommitted t ∈ p.log →
      outcome t = .COMMIT ∧ p.actor.writeLock ≠ some t := hp.released
  simp only [Released, step, List.mem_cons]
  generalize p.actor.reply m = r at heff
  generalize p.actor.step m = a' at heff
  intro t ht
  cases heff with
  | staleBlob _ _ _ _ hst | staleDelete _ _ _ hst => exact absurd hst (hp.not_stale hm)
  | lock w =>
    have hc := (hreleased t (by simpa [MemMsg.line] using ht)).1
    refine ⟨hc, fun heq => ?_⟩
    cases heq; exact hm hc
  | commit w | preCommit w =>
    refine ⟨?_, by simp⟩
    by_cases hw : t = w
    · rw [hw]; exact hm
    · exact (hreleased t (by simpa [MemMsg.line, hw] using ht)).1
  | initFresh | reset => exact ⟨(hreleased t (by simpa [MemMsg.line] using ht)).1, by simp⟩
  | _ => exact hreleased t (by simpa [MemMsg.line] using ht)

theorem Kept.committed_step (hp : p.Kept outcome) (hm : Timely outcome p.actor m) :
    ∀ t, .committed t ∈ (p.step m).log →
      ∃ r ∈ (p.step m).actor.history, r.time = t ∧ .queued t r.value ∈ (p.step m).log := by
  have heff := receive_effect p.actor m
  have hcommitted : ∀ (line : Line V) t, .committed t ∈ p.log →
      ∃ r ∈ p.actor.history, r.time = t ∧ .queued t r.value ∈ line :: p.log := by
    intro line t ht
    obtain ⟨r, hr, hrt, hq⟩ := hp.committed t ht
    exact ⟨r, hr, hrt, List.mem_cons_of_mem _ hq⟩
  simp only [step]
  generalize p.actor.reply m = r at heff
  generalize p.actor.step m = a' at heff
  intro t ht
  cases heff with
  | initFresh _ _ hempty =>
    exact absurd (by simpa [MemMsg.line] using ht) (hp.not_committed hempty)
  | staleBlob _ _ _ _ hst | staleDelete _ _ _ hst => exact absurd hst (hp.not_stale hm)
  | commit w q hlock hqueue =>
    rcases List.mem_cons.mp ht with ht | ht
    · cases ht
      exact ⟨_, List.mem_append_right _ (List.mem_singleton_self _), rfl,
        List.mem_cons_of_mem _ (hp.slot_queued hlock hqueue)⟩
    · obtain ⟨r, hr, rfl, hq⟩ := hcommitted (.committed w) t ht
      have hne : r.time ≠ w := fun h => (hp.released r.time (.inl ht)).2 (h ▸ hlock)
      exact ⟨r, mem_committed hr hne, rfl, hq⟩
  | _ => exact hcommitted _ t (by simpa [MemMsg.line] using ht)

theorem Kept.queued_step (hp : p.Kept outcome) (hm : Timely outcome p.actor m) :
    ∀ t q, .queued t q ∈ (p.step m).log → outcome t = .RESET ∨
      (p.step m).actor.writeLock = some t ∧ (p.step m).actor.queuedValue = some q ∨
      .committed t ∈ (p.step m).log ∧
        ∃ r ∈ (p.step m).actor.history, r.time = t ∧ r.value = q := by
  have heff := receive_effect p.actor m
  have hqueued : ∀ t q, .queued t q ∈ p.log → outcome t = .RESET ∨
      (p.actor.writeLock = some t ∧ p.actor.queuedValue = some q) ∨
      .committed t ∈ p.log ∧ ∃ r ∈ p.actor.history, r.time = t ∧ r.value = q := hp.queued
  simp only [step, List.mem_cons]
  generalize p.actor.reply m = r at heff
  generalize p.actor.step m = a' at heff
  intro t q ht
  cases heff with
  | initFresh _ _ hempty =>
    rcases hqueued t q (by simpa [MemMsg.line] using ht) with h | ⟨h, -⟩ | ⟨hc, -⟩
    · exact .inl h
    · rw [hm hempty] at h; cases h
    · exact absurd hc (hp.not_committed hempty)
  | staleBlob _ _ _ _ hst | staleDelete _ _ _ hst => exact absurd hst (hp.not_stale hm)
  | lock w hfree =>
    rcases hqueued t q (by simpa [MemMsg.line] using ht) with h | ⟨h, -⟩ | ⟨hc, hr⟩
    · exact .inl h
    · rw [hfree] at h; cases h
    · exact .inr (.inr ⟨.inr hc, hr⟩)
  | queueBlob w v hlock _ hqueue | queueDelete w hlock _ hqueue =>
    rcases ht with ht | ht
    · cases ht; exact .inr (.inl ⟨hlock, rfl⟩)
    · rcases hqueued t q ht with h | ⟨-, h⟩ | ⟨hc, hr⟩
      · exact .inl h
      · rw [hqueue] at h; cases h
      · exact .inr (.inr ⟨.inr hc, hr⟩)
  | commit w q' hlock hqueue =>
    rcases hqueued t q (by simpa [MemMsg.line] using ht) with h | ⟨hw, hq⟩ | ⟨hc, r, hr, rfl, hv⟩
    · exact .inl h
    · -- this is what has just been committed
      obtain rfl : w = t := Option.some.inj (hlock.symm.trans hw)
      obtain rfl : q' = q := Option.some.inj (hqueue.symm.trans hq)
      exact .inr (.inr ⟨.inl rfl, _, List.mem_append_right _ (List.mem_singleton_self _), rfl, rfl⟩)
    · have hne : r.time ≠ w := fun h => (hp.released r.time (.inl hc)).2 (h ▸ hlock)
      exact .inr (.inr ⟨.inr hc, r, mem_committed hr hne, rfl, hv⟩)
  | preCommit w hlock hqueue =>
    rcases hqueued t q (by simpa [MemMsg.line] using ht) with h | ⟨-, hq⟩ | ⟨hc, hr⟩
    · exact .inl h
    · rw [hqueue] at hq; cases hq
    · exact .inr (.inr ⟨.inr hc, hr⟩)
  | reset w hlock =>
    rcases hqueued t q (by simpa [MemMsg.line] using ht) with h | ⟨hw, -⟩ | ⟨hc, hr⟩
    · exact .inl h
    · left
      rw [← Option.some.inj (hlock.symm.trans hw)]; exact hm
    · exact .inr (.inr ⟨.inr hc, hr⟩)
  | _ =>
    rcases hqueued t q (by simpa [MemMsg.line] using ht) with h | h | ⟨hc, hr⟩
    · exact .inl h
    · exact .inr (.inl h)
    · exact .inr (.inr ⟨.inr hc, hr⟩)

/-- A timely message keeps what was queued. -/
theorem Kept.step (hp : p.Kept outcome) (hm : Timely outcome p.actor m) :
    (p.step m).Kept outcome where
  ordered := hp.ordered.step m
  stale := hp.stale_step hm
  slot := hp.slot_step hm
  released := hp.released_step hm
  committed := hp.committed_step hm
  queued := hp.queued_step hm

end LoggedActor

end ReSTM
