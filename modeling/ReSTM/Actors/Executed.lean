import ReSTM.Actors.Kept

/-!
# A commit that was carried out

Once a pointer has carried out the commit of a transaction, later reads see its
version or a later one and do not conflict with it.

* `Kept.lock_step`: a lock is kept until its transaction commits or is reset.
* `Kept.executed`: what a carried-out commit leaves.
-/

namespace ReSTM

open LastWhere

variable {V : Type}

namespace MemActor

variable {a : MemActor V} {t u : TxnTime}

theorem getValue_error {e : Failure} (h : (a.getValue u).1 = .error e) :
    ∃ w, a.writeLock = some w ∧ e = Failure.lockedBy w := by
  unfold MemActor.getValue at h
  split_ifs at h with hfast
  split at h
  · next w hw =>
    exact ⟨w, (Option.filter_eq_some_iff.mp hw).1, (Except.error.inj h).symm⟩
  · cases h

/-- An untimed read returns no version older than any in the history. -/
theorem le_getCurrentValue {r : HistoryRecord V} (hr : r ∈ a.history) :
    ∃ w v, a.getCurrentValue = some (w, v) ∧ r.time ≤ w := by
  rcases getCurrentValue_cases a with ⟨hempty, -⟩ | ⟨b, -, hb, hmax⟩
  · rw [hempty] at hr
    cases hr
  · exact ⟨b.time, b.value, hb, hmax r hr⟩

/-- A timed read that returns uses a record no older than any before the reader. -/
theorem Ordered.le_getValue (ha : a.Ordered) {v : Option V} (hok : (a.getValue u).1 = .ok v)
    {r : HistoryRecord V} (hr : r ∈ a.history) (hlt : r.time < u) :
    ∃ r' ∈ a.history, r.time ≤ r'.time ∧ r'.time ≤ u ∧ v = r'.value := by
  obtain ⟨r', hr', hle⟩ := recordAt_of_mem ha.sorted hr (TxnTime.le_of_lt hlt)
  obtain ⟨hmem, hru⟩ := mem_of_lastWhere hr'
  refine ⟨r', hmem, hle, of_decide_eq_true hru, ?_⟩
  rw [getValue_ok hok, valueAt, hr']
  rfl

end MemActor

namespace LoggedActor

open MemActor

variable {outcome : TxnTime → TxnState} {p : LoggedActor V} {m : MemMsg V} {t : TxnTime}

theorem Released.step (h : Released t p.log) (m : MemMsg V) : Released t (p.step m).log :=
  h.imp (List.mem_cons_of_mem _) (List.mem_cons_of_mem _)

/-- A lock is kept until its transaction commits or is reset. -/
theorem Kept.lock_step (hp : p.Kept outcome) (hm : Timely outcome p.actor m)
    (hlock : p.actor.writeLock = some t) :
    (p.step m).actor.writeLock = some t ∨
      m = .writeCommit t ∧ Released t (p.step m).log ∨ outcome t = .RESET := by
  have heff := receive_effect p.actor m
  simp only [Released, LoggedActor.step, List.mem_cons]
  generalize p.actor.reply m = r at heff
  generalize p.actor.step m = a' at heff
  cases heff with
  | initFresh _ _ hempty => rw [hm hempty] at hlock; cases hlock
  | staleBlob _ _ _ _ hst | staleDelete _ _ _ hst => exact absurd hst (hp.not_stale hm)
  | lock w hfree => rw [hfree] at hlock; cases hlock
  | commit w q hlock' =>
    obtain rfl := Option.some.inj (hlock'.symm.trans hlock)
    exact .inr (.inl ⟨rfl, .inl (.inl rfl)⟩)
  | preCommit w hlock' =>
    obtain rfl := Option.some.inj (hlock'.symm.trans hlock)
    exact .inr (.inl ⟨rfl, .inr (.inl rfl)⟩)
  | reset w hlock' =>
    obtain rfl := Option.some.inj (hlock'.symm.trans hlock)
    exact .inr (.inr hm)
  | _ => exact .inl hlock

/-- A commit under the lock does not fail. -/
theorem reply_writeCommit {e : Failure} (hlock : p.actor.writeLock = some t) :
    p.actor.reply (.writeCommit t) ≠ .error e := by
  intro h
  have heff := receive_effect p.actor (.writeCommit t)
  rw [h] at heff
  generalize p.actor.step (.writeCommit t) = a' at heff
  cases heff with
  | fail _ _ hfree => exact hfree t (.inl rfl) hlock

/-- A lock that is granted is held. -/
theorem lock_of_grant (h : p.actor.reply (.writeLock t) = .ok (.conflicting none)) :
    (p.step (.writeLock t)).actor.writeLock = some t := by
  have heff := receive_effect p.actor (.writeLock t)
  rw [h] at heff
  simp only [step]
  generalize p.actor.step (.writeLock t) = a' at heff
  cases heff with
  | relock _ hlock => exact hlock
  | lock => rfl

/-- The commit of `t` was carried out on the pointer: its lock is released and its value
    is in the history, so that reads after `t` and untimed ones return this value or a
    later one and do not conflict with `t`. -/
structure Executed (t : TxnTime) (p : LoggedActor V) : Prop where
  released : Released t p.log
  unlocked : p.actor.writeLock ≠ some t
  written : ∀ q, .queued t q ∈ p.log → ∃ r ∈ p.actor.history, r.time = t ∧ r.value = q
  noConflict : ∀ u e, (p.actor.getValue u).1 = .error e → e.conflict ≠ some t
  timed : ∀ q, .queued t q ∈ p.log → ∀ u v, t < u → (p.actor.getValue u).1 = .ok v →
    ∃ r ∈ p.actor.history, t ≤ r.time ∧ r.time ≤ u ∧ v = r.value
  untimed : ∀ q, .queued t q ∈ p.log →
    ∃ w v, p.actor.getCurrentValue = some (w, v) ∧ t ≤ w

theorem Kept.executed (hp : p.Kept outcome) (h : Released t p.log) : Executed t p := by
  obtain ⟨hcommit, hlock⟩ := hp.released t h
  have hwritten : ∀ q, .queued t q ∈ p.log → ∃ r ∈ p.actor.history, r.time = t ∧ r.value = q := by
    intro q hq
    rcases hp.queued t q hq with hreset | ⟨hlock', -⟩ | ⟨-, hr⟩
    · rw [hreset] at hcommit; cases hcommit
    · exact absurd hlock' hlock
    · exact hr
  refine ⟨h, hlock, hwritten, fun u e herror hconflict => ?_, fun q hq u v hlt hok => ?_,
    fun q hq => ?_⟩
  · obtain ⟨w, hw, rfl⟩ := getValue_error herror
    rw [Failure.conflict_lockedBy] at hconflict
    exact hlock (hconflict ▸ hw)
  · obtain ⟨r, hr, rfl, -⟩ := hwritten q hq
    exact hp.ordered.le_getValue hok hr hlt
  · obtain ⟨r, hr, rfl, -⟩ := hwritten q hq
    exact le_getCurrentValue hr

end LoggedActor

end ReSTM
