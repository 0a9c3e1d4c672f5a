import ReSTM.Actors.RepeatableRead

/-!
# A commit that arrives before its value

`writeCommit` on a lock with nothing queued releases the lock and remembers the
transaction in `staleCommit`; the value that arrives later is to be written at
once. `writeBlob` and `delete` stamp that record with `writeLock.get`, but the
lock is gone: either nobody holds it and the message fails, or another transaction
does and the record is stamped with that transaction's time.

* `queue_then_commit`: the order in which the value comes first writes exactly
  `(t, q)` and releases the lock.
* `preCommit_never_writes`: the other order never does.
-/

namespace ReSTM

open Transition

namespace MemActor

variable {V : Type} {a a' : MemActor V} {m : MemMsg V} {r : Except Failure (Answer V)}
  {t : TxnTime} {q : Option V}

/-- The message by which `t` supplies the content `q`: a value, or a deletion. -/
def supply (t : TxnTime) : Option V → MemMsg V
  | some v => .writeBlob t v
  | none => .delete t

/-- `step` succeeds on the message. -/
def Accepts (a : MemActor V) (m : MemMsg V) : Prop := ∃ answer, a.reply m = .ok answer

instance (a : MemActor V) (m : MemMsg V) : Decidable (Accepts a m) :=
  match h : a.reply m with
  | .ok answer => isTrue ⟨answer, h⟩
  | .error _ => isFalse fun ⟨_, h'⟩ => by rw [h] at h'; cases h'

/-- The last step of a delivery makes exactly the version `(t, q)`, releases the
    lock of `t` and leaves nothing queued. -/
def WritesVersion (t : TxnTime) (q : Option V) (before after : MemActor V) : Prop :=
  after.history = before.history.filter (fun x => x.time ≠ t) ++ [{ time := t, value := q }] ∧
    after.writeLock ≠ some t ∧ after.queuedValue = none

instance [DecidableEq V] (t : TxnTime) (q : Option V) (before after : MemActor V) :
    Decidable (WritesVersion t q before after) :=
  inferInstanceAs (Decidable (_ ∧ _))

/-! ## The value first -/

/-- `t` holds the lock with `q` queued under it. -/
def Queued (t : TxnTime) (q : Option V) (a : MemActor V) : Prop :=
  a.writeLock = some t ∧ a.queuedValue = some q

/-- No message of another transaction but `init` touches what is queued or written. -/
theorem Effect.queued (h : Effect a m r a') (hm : m.time? ≠ some t) (hinit : NotInit m)
    (ha : Queued t q a) : Queued t q a' ∧ a'.history = a.history := by
  obtain ⟨hlock, hqueue⟩ := ha
  cases h with
  | initFresh => exact hinit.elim
  | lock t' hfree => simp [hfree] at hlock
  | queueBlob t' v _ _ hq | queueDelete t' _ _ hq | staleBlob t' w v _ _ hq
  | staleDelete t' w _ _ hq | preCommit t' _ hq => simp [hq] at hqueue
  | commit t' q' hlock' | reset t' hlock' =>
    rw [hlock] at hlock'
    exact absurd hlock'.symm hm
  | _ => exact ⟨⟨hlock, hqueue⟩, rfl⟩

theorem run_queued {mid : List (MemMsg V)} (ha : Queued t q a)
    (hmid : ∀ m ∈ mid, m.time? ≠ some t ∧ NotInit m) :
    Queued t q (run step a mid) ∧ (run step a mid).history = a.history := by
  induction mid generalizing a with
  | nil => exact ⟨ha, rfl⟩
  | cons m mid ih =>
    obtain ⟨hm, hinit⟩ := hmid m List.mem_cons_self
    obtain ⟨hq, hhist⟩ := (receive_effect a m).queued hm hinit ha
    obtain ⟨hq', hhist'⟩ := ih hq fun m' hm' => hmid m' (List.mem_cons_of_mem _ hm')
    exact ⟨hq', hhist'.trans hhist⟩

theorem supply_queued (hlock : a.writeLock = some t) (hqueue : a.queuedValue = none)
    (hstale : a.staleCommit ≠ some t) :
    Accepts a (supply t q) ∧ Queued t q (a.step (supply t q)) ∧
      (a.step (supply t q)).history = a.history := by
  cases q with
  | some v =>
    simp [supply, Accepts, Queued, reply, MemActor.step, receive, answer, writeBlob, withActor, hlock,
      hqueue, hstale, Except.map, Except.mapError]
  | none =>
    simp [supply, Accepts, Queued, reply, MemActor.step, receive, answer, delete, withActor, hlock,
      hqueue, hstale, Except.map, Except.mapError]

theorem commit_writes (ha : Queued t q a) :
    Accepts a (.writeCommit t) ∧ WritesVersion t q a (a.step (.writeCommit t)) := by
  obtain ⟨hlock, hqueue⟩ := ha
  simp [Accepts, WritesVersion, reply, MemActor.step, receive, answer, writeCommit, withActor, hlock,
    hqueue, Except.map, Except.mapError]

/-- The value, messages of other transactions, then the commit: `t` writes `(t, q)`. -/
theorem queue_then_commit (hlock : a.writeLock = some t) (hqueue : a.queuedValue = none)
    (hstale : a.staleCommit ≠ some t) {mid : List (MemMsg V)}
    (hmid : ∀ m ∈ mid, m.time? ≠ some t ∧ NotInit m) :
    let a₁ := a.step (supply t q)
    let a₂ := run step a₁ mid
    Accepts a (supply t q) ∧ Accepts a₂ (.writeCommit t) ∧
      WritesVersion t q a (a₂.step (.writeCommit t)) := by
  obtain ⟨hok, hq, hhist⟩ := supply_queued (q := q) hlock hqueue hstale
  obtain ⟨hq', hhist'⟩ := run_queued hq hmid
  obtain ⟨hok', hwrites⟩ := commit_writes hq'
  refine ⟨hok, hok', ?_⟩
  unfold WritesVersion at hwrites ⊢
  rwa [hhist', hhist] at hwrites

/-! ## The commit first -/

/-- Delivering the commit of `t`, then the content `q` of `t`, with messages `pre` and
    `mid` of other transactions before each, ends as the other order does: both
    messages succeed and the second makes the version `(t, q)`. -/
def PreCommitWrites (a : MemActor V) (t : TxnTime) (q : Option V) (pre mid : List (MemMsg V)) :
    Prop :=
  let a₀ := run step a pre
  let a₁ := run step (a₀.step (.writeCommit t)) mid
  Accepts a₀ (.writeCommit t) ∧ Accepts a₁ (supply t q) ∧
    WritesVersion t q a₁ (a₁.step (supply t q))

instance [DecidableEq V] (a : MemActor V) (t : TxnTime) (q : Option V) (pre mid : List (MemMsg V)) :
    Decidable (PreCommitWrites a t q pre mid) :=
  inferInstanceAs (Decidable (_ ∧ _))

/-- A transaction that does not hold the lock gets it by no message of another. -/
theorem Effect.lock_ne (h : Effect a m r a') (hm : m.time? ≠ some t) (ha : a.writeLock ≠ some t) :
    a'.writeLock ≠ some t := by
  cases h with
  | lock t' => exact fun heq => hm heq
  | initFresh | staleBlob | staleDelete | commit | preCommit | reset => simp
  | _ => exact ha

theorem run_lock_ne (ha : a.writeLock ≠ some t) {mid : List (MemMsg V)}
    (hmid : ∀ m ∈ mid, m.time? ≠ some t) : (run step a mid).writeLock ≠ some t := by
  induction mid generalizing a with
  | nil => exact ha
  | cons m mid ih =>
    exact ih ((receive_effect a m).lock_ne (hmid m List.mem_cons_self) ha)
      fun m' hm' => hmid m' (List.mem_cons_of_mem _ hm')

/-- A commit that succeeds gives the lock up. -/
theorem Effect.commit_releases (h : Effect a (.writeCommit t) r a') {answer : Answer V}
    (hok : r = .ok answer) : a'.writeLock ≠ some t := by
  cases h with
  | commit | preCommit => simp
  | fail => cases hok

/-- Content of a transaction without the lock is refused, or its record carries the
    holder's time. -/
theorem Effect.supply_stale (h : Effect a (supply t q) r a') {answer : Answer V}
    (hok : r = .ok answer) (hlock : a.writeLock ≠ some t) :
    ∃ w, a.writeLock = some w ∧ a'.history = a.history ++ [{ time := w, value := q }] := by
  cases q with
  | some v =>
    cases h with
    | queueBlob _ _ hlock' => exact absurd hlock' hlock
    | staleBlob _ w _ hlock' => exact ⟨w, hlock', rfl⟩
    | fail => cases hok
  | none =>
    cases h with
    | queueDelete _ hlock' => exact absurd hlock' hlock
    | staleDelete _ w hlock' => exact ⟨w, hlock', rfl⟩
    | fail => cases hok

/-- In no state, whether or not `t` holds the lock with nothing queued, does the
    content of `t` follow its commit as it should. -/
theorem preCommit_never_writes (a : MemActor V) (t : TxnTime) (q : Option V)
    (pre : List (MemMsg V)) {mid : List (MemMsg V)} (hmid : ∀ m ∈ mid, m.time? ≠ some t) :
    ¬PreCommitWrites a t q pre mid := by
  rintro ⟨⟨answer₀, hok₀⟩, ⟨answer₁, hok₁⟩, hhist, -, -⟩
  have hfree := (receive_effect (run step a pre) (.writeCommit t)).commit_releases hok₀
  have hlock₁ := run_lock_ne hfree hmid
  obtain ⟨w, hw, hhist'⟩ := (receive_effect _ (supply t q)).supply_stale hok₁ hlock₁
  -- the record made carries the holder's time, and the holder is not `t`
  rw [hhist] at hhist'
  have hlast := congrArg List.getLast? hhist'
  simp only [List.getLast?_append, List.getLast?_singleton, Option.some_or, Option.some.injEq,
    HistoryRecord.mk.injEq, and_true] at hlast
  exact hlock₁ (hlast ▸ hw)

/-- The transaction holds the lock with nothing queued, and another one takes it in between. -/
theorem preCommit_never_writes_locked :
    ¬PreCommitWrites ((create none []).step (.writeLock (.ofEpoch 1))) (.ofEpoch 1) (some 10)
      [.writeLock (.ofEpoch 3)] [.writeLock (.ofEpoch 2)] :=
  preCommit_never_writes (V := ℕ) _ _ _ _ (by decide)

/-- The commit of transaction 1, which holds the lock with nothing queued, and then
    its value or its deletion: the second message fails with `None.get`. -/
theorem preCommit_then_value_fails :
    let a := (create none []).step (.writeLock (.ofEpoch 1))
    a.writeLock = some (.ofEpoch 1) ∧ a.queuedValue = none ∧
      (a.step (.writeCommit (.ofEpoch 1))).reply (.writeBlob (.ofEpoch 1) (10 : ℕ)) =
        .error (.runtime "Error running actor task" .noneGet) ∧
      ¬PreCommitWrites a (.ofEpoch 1) (some (10 : ℕ)) [] [] ∧
      ¬PreCommitWrites a (.ofEpoch 1) none [] [] := by
  decide

end MemActor

end ReSTM
