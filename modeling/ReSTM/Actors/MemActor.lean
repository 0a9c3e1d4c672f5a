import ReSTM.Common.LastWhere
import ReSTM.Types.Failure

/-!
# The pointer actor

Model of `MemActor` (`storage/actors/MemActor.scala`): the versions of one
pointer, the lock of the transaction that is writing it, the value queued under
that lock, and the latest timestamp it was read at.

Each operation takes the actor's state to the outcome of the returned future and
the next state. An operation runs as one message: `withActor` processes them one
at a time, and a read holds `rwlock` while it checks the lock and moves
`lastRead`. `null` values are `none`. Logging and the mailbox's own counters are
left out.

* `Effect`, `receive_effect`: everything that one message can do to the state.
  Every invariant below is proved by cases on it.
-/

namespace ReSTM

open LastWhere

/-- `class HistoryRecord(time, value)` with its mutable `coldStorageTs`
    (lines 31–33). -/
structure HistoryRecord (V : Type) where
  time : TxnTime
  value : Option V
  coldStorageTs : Option ℤ := none
deriving DecidableEq

/-- The state of a `MemActor` (lines 43–48). `queuedValue` holds `some none` when a
    deletion is queued. -/
structure MemActor (V : Type) where
  lastRead : Option TxnTime := none
  history : List (HistoryRecord V) := []
  writeLock : Option TxnTime := none
  staleCommit : Option TxnTime := none
  queuedValue : Option (Option V) := none
deriving DecidableEq

namespace MemActor

variable {V : Type}

/-! ## Operations -/

/-- `ActorQueue.withActor` on an actor that is not closed: a failing body fails the
    future through `Util.chainEx`. -/
def withActor {α : Type} (r : Except Failure α × MemActor V) : Except Failure α × MemActor V :=
  (r.1.mapError (Failure.chainEx "Error running actor task"), r.2)

/-- `getCurrentValue` (lines 68–77); `maxBy` keeps the first of several maxima. -/
def getCurrentValue (a : MemActor V) : Option (TxnTime × Option V) :=
  (a.history.foldl
    (fun (best : Option (HistoryRecord V)) r =>
      match best with
      | none => some r
      | some b => if b.time < r.time then some r else some b) none).map
    fun record => (record.time, record.value)

/-- `Option(history.lastIndexWhere(_.time <= time)).filter(_ >= 0).map(history(_))`. -/
def recordAt (time : TxnTime) (a : MemActor V) : Option (HistoryRecord V) :=
  lastWhere (fun r => decide (r.time ≤ time)) a.history

/-- `record.map(_.value).filterNot(_ == null)`. -/
def valueAt (time : TxnTime) (a : MemActor V) : Option V := (a.recordAt time).bind (·.value)

/-- `getValue` (lines 79–119), the branch of `MemActor.safeRead = false`: a read no
    later than `lastRead` does not look at the lock. -/
def getValue (time : TxnTime) (a : MemActor V) : Except Failure (Option V) × MemActor V :=
  if a.lastRead.any (time ≤ ·) then (.ok (a.valueAt time), a)
  else
    match a.writeLock.filter (· < time) with
    | some w => (.error (Failure.lockedBy w), a)
    | none =>
      let a := { a with lastRead := (a.lastRead.filter (time < ·)).or (some time) }
      (.ok (a.valueAt time), a)

/-- `init` (lines 123–146). -/
def init (time : TxnTime) (value : V) (a : MemActor V) : Except Failure Bool × MemActor V :=
  withActor <|
    if !a.history.isEmpty then (.ok false, a)
    else
      (.ok true,
        { lastRead := some time
          history := [{ time := time, value := some value }]
          writeLock := none
          queuedValue := none
          staleCommit := none })

/-- `writeLock` (lines 148–179). -/
def lock (time : TxnTime) (a : MemActor V) : Except Failure (Option TxnTime) × MemActor V :=
  withActor <|
    match a.writeLock with
    | some w => if w = time then (.ok none, a) else (.ok (some w), a)
    | none =>
      if a.lastRead.any (time < ·) then (.ok a.lastRead, a)
      else if a.history.any (fun r => time < r.time) then
        match a.history.find? (fun r => time ≤ r.time) with
        | some record => (.ok (some record.time), a)
        | none => (.error Failure.noneGet, a)
      else (.ok none, { a with writeLock := some time })

/-- The text of the conflict when neither lock is the caller's. -/
def lockMismatch (time : TxnTime) (a : MemActor V) : Failure :=
  .transactionConflict
    ("Lock mismatch: " ++
      (match a.writeLock with
        | some w => "Some(" ++ w.toString ++ ")"
        | none => "None") ++ " != " ++ time.toString) none

/-- `writeBlob` (lines 181–210). The result says whether the value was written
    (`true`) or queued (`false`). The branch of a stale commit stamps the record with
    `writeLock.get`. -/
def writeBlob (time : TxnTime) (value : V) (a : MemActor V) : Except Failure Bool × MemActor V :=
  withActor <|
    if a.writeLock ≠ some time ∧ a.staleCommit ≠ some time then (.error (a.lockMismatch time), a)
    else if a.queuedValue.isSome then (.error (Failure.require "Value already queued"), a)
    else if a.staleCommit = some time then
      match a.writeLock with
      | none => (.error Failure.noneGet, a)
      | some w =>
        (.ok true,
          { a with
            history := a.history ++ [{ time := w, value := some value }]
            writeLock := none
            queuedValue := none
            staleCommit := none })
    else (.ok false, { a with queuedValue := some (some value) })

/-- `delete` (lines 212–242). Its branch of a stale commit leaves the deletion in
    `queuedValue`. -/
def delete (time : TxnTime) (a : MemActor V) : Except Failure Bool × MemActor V :=
  withActor <|
    if a.writeLock ≠ some time ∧ a.staleCommit ≠ some time then (.error (a.lockMismatch time), a)
    else if a.queuedValue.isSome then (.error (Failure.require "Value already queued"), a)
    else if a.staleCommit = some time then
      match a.writeLock with
      | none => (.error Failure.noneGet, a)
      | some w =>
        (.ok true,
          { a with
            history := a.history ++ [{ time := w, value := none }]
            writeLock := none
            queuedValue := some none
            staleCommit := none })
    else (.ok false, { a with queuedValue := some none, staleCommit := none })

/-- `writeCommit` (lines 244–277). The result says whether a version was committed
    (`true`) or the commit came before the value (`false`). The record's time,
    `writeLock.get`, is `time`. -/
def writeCommit (time : TxnTime) (a : MemActor V) : Except Failure Bool × MemActor V :=
  withActor <|
    if a.writeLock = some time then
      match a.queuedValue with
      | some queued =>
        (.ok true,
          { a with
            history := a.history.filter (fun r => r.time ≠ time) ++ [{ time := time, value := queued }]
            staleCommit := none
            queuedValue := none
            writeLock := none })
      | none => (.ok false, { a with staleCommit := a.writeLock, writeLock := none })
    else (.error (Failure.require "Lock mismatch"), a)

/-- `writeReset` (lines 279–294). -/
def writeReset (time : TxnTime) (a : MemActor V) : Except Failure Unit × MemActor V :=
  withActor <|
    if a.writeLock = some time then
      (.ok (), { a with writeLock := none, queuedValue := none, staleCommit := none })
    else (.error (Failure.require "Lock mismatch"), a)

end MemActor

/-! ## Messages -/

/-- A message to a pointer actor. -/
inductive MemMsg (V : Type) where
  | getCurrentValue
  | getValue (time : TxnTime)
  | init (time : TxnTime) (value : V)
  | writeLock (time : TxnTime)
  | writeBlob (time : TxnTime) (value : V)
  | delete (time : TxnTime)
  | writeCommit (time : TxnTime)
  | writeReset (time : TxnTime)
deriving DecidableEq

/-- The value of a completed future. -/
inductive Answer (V : Type) where
  | currentValue (v : Option (TxnTime × Option V))
  | value (v : Option V)
  | flag (b : Bool)
  | conflicting (t : Option TxnTime)
  | unit
deriving DecidableEq

/-- The transaction a message speaks for. -/
def MemMsg.time? {V : Type} : MemMsg V → Option TxnTime
  | getCurrentValue => none
  | getValue t | init t _ | writeLock t | writeBlob t _ | delete t | writeCommit t | writeReset t =>
    some t

namespace MemActor

variable {V : Type}

/-- The outcome of an operation as an outcome of `receive`. -/
def answer {α : Type} (f : α → Answer V) (r : Except Failure α × MemActor V) :
    Except Failure (Answer V) × MemActor V := (r.1.map f, r.2)

/-- Process one message. -/
def receive (a : MemActor V) : MemMsg V → Except Failure (Answer V) × MemActor V
  | .getCurrentValue => (.ok (.currentValue a.getCurrentValue), a)
  | .getValue time => answer .value (a.getValue time)
  | .init time value => answer .flag (a.init time value)
  | .writeLock time => answer .conflicting (a.lock time)
  | .writeBlob time value => answer .flag (a.writeBlob time value)
  | .delete time => answer .flag (a.delete time)
  | .writeCommit time => answer .flag (a.writeCommit time)
  | .writeReset time => answer (fun _ => .unit) (a.writeReset time)

/-- The outcome of one message. -/
def reply (a : MemActor V) (m : MemMsg V) : Except Failure (Answer V) := (a.receive m).1

/-- The state after one message. -/
def step (a : MemActor V) (m : MemMsg V) : MemActor V := (a.receive m).2

/-! ## Everything a message can do -/

/-- `Effect a m r a'`: the message `m` is answered `r` and leaves the state `a'`. -/
inductive Effect (a : MemActor V) : MemMsg V → Except Failure (Answer V) → MemActor V → Prop
  | current : Effect a .getCurrentValue (.ok (.currentValue a.getCurrentValue)) a
  | readFast (t r : TxnTime) (hread : a.lastRead = some r) (hle : t ≤ r) :
      Effect a (.getValue t) (.ok (.value (a.valueAt t))) a
  | readSlow (t : TxnTime) (hread : ∀ r, a.lastRead = some r → r < t)
      (hlock : ∀ w, a.writeLock = some w → t ≤ w) :
      Effect a (.getValue t) (.ok (.value (a.valueAt t))) { a with lastRead := some t }
  | initFresh (t : TxnTime) (v : V) (hempty : a.history = []) :
      Effect a (.init t v) (.ok (.flag true))
        { lastRead := some t, history := [{ time := t, value := some v }] }
  | initAgain (t : TxnTime) (v : V) (hne : a.history ≠ []) :
      Effect a (.init t v) (.ok (.flag false)) a
  | relock (t : TxnTime) (hlock : a.writeLock = some t) :
      Effect a (.writeLock t) (.ok (.conflicting none)) a
  | lock (t : TxnTime) (hfree : a.writeLock = none) (hread : ∀ r, a.lastRead = some r → r ≤ t)
      (hhistory : ∀ r ∈ a.history, r.time ≤ t) :
      Effect a (.writeLock t) (.ok (.conflicting none)) { a with writeLock := some t }
  | refuse (t c : TxnTime) (hlock : a.writeLock ≠ some t) :
      Effect a (.writeLock t) (.ok (.conflicting (some c))) a
  | queueBlob (t : TxnTime) (v : V) (hlock : a.writeLock = some t) (hstale : a.staleCommit ≠ some t)
      (hqueue : a.queuedValue = none) :
      Effect a (.writeBlob t v) (.ok (.flag false)) { a with queuedValue := some (some v) }
  | queueDelete (t : TxnTime) (hlock : a.writeLock = some t) (hstale : a.staleCommit ≠ some t)
      (hqueue : a.queuedValue = none) :
      Effect a (.delete t) (.ok (.flag false)) { a with queuedValue := some none, staleCommit := none }
  | staleBlob (t w : TxnTime) (v : V) (hlock : a.writeLock = some w) (hstale : a.staleCommit = some t)
      (hqueue : a.queuedValue = none) :
      Effect a (.writeBlob t v) (.ok (.flag true))
        { a with
          history := a.history ++ [{ time := w, value := some v }]
          writeLock := none, queuedValue := none, staleCommit := none }
  | staleDelete (t w : TxnTime) (hlock : a.writeLock = some w) (hstale : a.staleCommit = some t)
      (hqueue : a.queuedValue = none) :
      Effect a (.delete t) (.ok (.flag true))
        { a with
          history := a.history ++ [{ time := w, value := none }]
          writeLock := none, queuedValue := some none, staleCommit := none }
  | commit (t : TxnTime) (q : Option V) (hlock : a.writeLock = some t)
      (hqueue : a.queuedValue = some q) :
      Effect a (.writeCommit t) (.ok (.flag true))
        { a with
          history := a.history.filter (fun r => r.time ≠ t) ++ [{ time := t, value := q }]
          writeLock := none, queuedValue := none, staleCommit := none }
  | preCommit (t : TxnTime) (hlock : a.writeLock = some t) (hqueue : a.queuedValue = none) :
      Effect a (.writeCommit t) (.ok (.flag false)) { a with writeLock := none, staleCommit := some t }
  | reset (t : TxnTime) (hlock : a.writeLock = some t) :
      Effect a (.writeReset t) (.ok .unit)
        { a with writeLock := none, queuedValue := none, staleCommit := none }
  | fail (m : MemMsg V) (e : Failure)
      (hlock : ∀ t, m = .writeCommit t ∨ m = .writeReset t → a.writeLock ≠ some t) :
      Effect a m (.error e) a

theorem Effect.getValue (a : MemActor V) (t : TxnTime) :
    Effect a (.getValue t) ((a.getValue t).1.map .value) (a.getValue t).2 := by
  obtain ⟨lastRead, history, writeLock, staleCommit, queuedValue⟩ := a
  unfold MemActor.getValue
  split_ifs with hfast
  · cases lastRead with
    | none => simp at hfast
    | some r => exact .readFast t r rfl (by simpa using hfast)
  · have hread : ∀ r, lastRead = some r → r < t := by
      rintro r rfl
      simpa [TxnTime.le_iff, TxnTime.lt_iff] using hfast
    have hlast : (lastRead.filter (t < ·)).or (some t) = some t := by
      cases lastRead with
      | none => rfl
      | some r =>
        have := hread r rfl
        rw [TxnTime.lt_iff] at this
        simp [Option.filter, TxnTime.lt_iff, not_lt_of_gt this]
    split
    · exact .fail _ _ (by simp)
    · next hlock =>
      simp only [hlast]
      refine .readSlow t hread fun w hw => ?_
      have := (Option.filter_eq_none_iff.mp hlock) w hw
      simpa [TxnTime.le_iff, TxnTime.lt_iff] using this

theorem Effect.init (a : MemActor V) (t : TxnTime) (v : V) :
    Effect a (.init t v) ((a.init t v).1.map .flag) (a.init t v).2 := by
  unfold MemActor.init withActor
  split_ifs with hne
  · exact .initAgain t v (by simpa using hne)
  · exact .initFresh t v (by simpa using hne)

theorem Effect.writeLock (a : MemActor V) (t : TxnTime) :
    Effect a (.writeLock t) ((a.lock t).1.map .conflicting) (a.lock t).2 := by
  obtain ⟨lastRead, history, writeLock, staleCommit, queuedValue⟩ := a
  unfold MemActor.lock withActor
  cases writeLock with
  | some w =>
    dsimp only
    split_ifs with hw
    · exact .relock t (congrArg some hw)
    · exact .refuse t w (by simpa using hw)
  | none =>
    dsimp only
    split_ifs with hread hhistory
    · cases lastRead with
      | none => simp at hread
      | some r => exact .refuse t r (by simp)
    · split
      · exact .refuse t _ (by simp)
      · exact .fail _ _ (by simp)
    · refine .lock t rfl ?_ ?_
      · rintro r rfl
        simpa [TxnTime.le_iff, TxnTime.lt_iff] using hread
      · intro r hr
        simp only [List.any_eq_true, not_exists, not_and] at hhistory
        simpa [TxnTime.le_iff, TxnTime.lt_iff] using hhistory r hr

/-- What `writeBlob` and `delete` require before they touch the queue. -/
theorem lock_of_owner {a : MemActor V} {t : TxnTime}
    (h : ¬(a.writeLock ≠ some t ∧ a.staleCommit ≠ some t)) (hstale : a.staleCommit ≠ some t) :
    a.writeLock = some t := by
  by_contra hlock; exact h ⟨hlock, hstale⟩

theorem Effect.writeBlob (a : MemActor V) (t : TxnTime) (v : V) :
    Effect a (.writeBlob t v) ((a.writeBlob t v).1.map .flag) (a.writeBlob t v).2 := by
  unfold MemActor.writeBlob withActor
  split_ifs with howner hqueue hstale
  · exact .fail _ _ (by simp)
  · exact .fail _ _ (by simp)
  · split
    · exact .fail _ _ (by simp)
    · next w hw => exact .staleBlob t w v hw hstale (by simpa using hqueue)
  · exact .queueBlob t v (lock_of_owner howner hstale) hstale (by simpa using hqueue)

theorem Effect.delete (a : MemActor V) (t : TxnTime) :
    Effect a (.delete t) ((a.delete t).1.map .flag) (a.delete t).2 := by
  unfold MemActor.delete withActor
  split_ifs with howner hqueue hstale
  · exact .fail _ _ (by simp)
  · exact .fail _ _ (by simp)
  · split
    · exact .fail _ _ (by simp)
    · next w hw => exact .staleDelete t w hw hstale (by simpa using hqueue)
  · exact .queueDelete t (lock_of_owner howner hstale) hstale (by simpa using hqueue)

theorem Effect.writeCommit (a : MemActor V) (t : TxnTime) :
    Effect a (.writeCommit t) ((a.writeCommit t).1.map .flag) (a.writeCommit t).2 := by
  unfold MemActor.writeCommit withActor
  split_ifs with hlock
  · split
    · next q hq => exact .commit t q hlock hq
    · next hq => rw [hlock]; exact .preCommit t hlock hq
  · exact .fail _ _ (by simpa using hlock)

theorem Effect.writeReset (a : MemActor V) (t : TxnTime) :
    Effect a (.writeReset t) ((a.writeReset t).1.map fun _ => .unit) (a.writeReset t).2 := by
  unfold MemActor.writeReset withActor
  split_ifs with hlock
  · exact .reset t hlock
  · exact .fail _ _ (by simpa using hlock)

/-- One message has one of the effects above. -/
theorem receive_effect (a : MemActor V) (m : MemMsg V) :
    Effect a m (a.reply m) (a.step m) := by
  cases m with
  | getCurrentValue => exact .current
  | getValue t => exact Effect.getValue a t
  | init t v => exact Effect.init a t v
  | writeLock t => exact Effect.writeLock a t
  | writeBlob t v => exact Effect.writeBlob a t v
  | delete t => exact Effect.delete a t
  | writeCommit t => exact Effect.writeCommit a t
  | writeReset t => exact Effect.writeReset a t

/-! ## The current value -/

/-- The step of `maxBy`. -/
def newer (best : Option (HistoryRecord V)) (r : HistoryRecord V) : Option (HistoryRecord V) :=
  match best with
  | none => some r
  | some b => if b.time < r.time then some r else some b

theorem newer_cases (c r : HistoryRecord V) :
    ∃ b, newer (some c) r = some b ∧ (b = c ∨ b = r) ∧ c.time ≤ b.time ∧ r.time ≤ b.time := by
  unfold newer
  dsimp only
  split_ifs with hlt
  · exact ⟨r, rfl, .inr rfl, TxnTime.le_of_lt hlt, r.time.le_refl⟩
  · refine ⟨c, rfl, .inl rfl, c.time.le_refl, ?_⟩
    rw [TxnTime.lt_iff] at hlt
    rw [TxnTime.le_iff]
    omega

/-- `maxBy` on the records `l` that come after `c`. -/
theorem foldl_newer (l : List (HistoryRecord V)) (c : HistoryRecord V) :
    ∃ b, l.foldl newer (some c) = some b ∧ b ∈ c :: l ∧ ∀ r ∈ c :: l, r.time ≤ b.time := by
  induction l generalizing c with
  | nil =>
    refine ⟨c, rfl, List.mem_cons_self, fun r hr => ?_⟩
    rw [List.mem_singleton.mp hr]
    exact c.time.le_refl
  | cons r l ih =>
    obtain ⟨b, hb, hcr, hcb, hrb⟩ := newer_cases c r
    obtain ⟨x, hx, hmem, hmax⟩ := ih b
    have hbx := hmax b List.mem_cons_self
    refine ⟨x, ?_, ?_, ?_⟩
    · rw [List.foldl_cons, hb, hx]
    · rcases List.mem_cons.mp hmem with rfl | hmem
      · rcases hcr with rfl | rfl <;> simp
      · exact List.mem_cons_of_mem _ (List.mem_cons_of_mem _ hmem)
    · intro y hy
      rcases List.mem_cons.mp hy with rfl | hy
      · rw [TxnTime.le_iff] at *
        omega
      · rcases List.mem_cons.mp hy with rfl | hy
        · rw [TxnTime.le_iff] at *
          omega
        · exact hmax y (List.mem_cons_of_mem _ hy)

/-- `maxBy` keeps the first of the newest records. -/
theorem foldl_newer_eq {pre post : List (HistoryRecord V)} {m : HistoryRecord V}
    (hpre : ∀ x ∈ pre, x.time < m.time) (hpost : ∀ x ∈ post, x.time ≤ m.time) :
    (pre ++ m :: post).foldl newer none = some m := by
  have hkeep : ∀ x ∈ post, newer (some m) x = some m := fun x hx => by
    refine if_neg ?_
    rw [TxnTime.lt_iff, not_lt]
    exact TxnTime.le_iff.mp (hpost x hx)
  have hmax : newer (pre.foldl newer none) m = some m := by
    cases pre with
    | nil => rfl
    | cons c pre =>
      obtain ⟨b, hb, hmem, -⟩ := foldl_newer pre c
      show newer (pre.foldl newer (some c)) m = _
      rw [hb]
      exact if_pos (hpre b hmem)
  rw [List.foldl_append, List.foldl_cons, hmax]
  clear hpost
  induction post with
  | nil => rfl
  | cons x post ih =>
    rw [List.foldl_cons, hkeep x List.mem_cons_self]
    exact ih fun y hy => hkeep y (List.mem_cons_of_mem x hy)

/-- The current value is that of a newest record. -/
theorem getCurrentValue_cases (a : MemActor V) :
    a.history = [] ∧ a.getCurrentValue = none ∨
      ∃ x ∈ a.history, a.getCurrentValue = some (x.time, x.value) ∧
        ∀ y ∈ a.history, y.time ≤ x.time := by
  unfold getCurrentValue
  cases a.history with
  | nil => exact .inl ⟨rfl, rfl⟩
  | cons r l =>
    obtain ⟨x, hx, hmem, hmax⟩ := foldl_newer l r
    exact .inr ⟨x, hmem, congrArg (Option.map _) hx, hmax⟩

end MemActor

end ReSTM
