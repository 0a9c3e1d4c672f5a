import ReSTM.Types.TxnTime
import Mathlib.Data.List.Pairwise
import Mathlib.Tactic.Linarith

/-!
# Issuing timestamps

`TxnTime.safeNow` (`storage/types/TxnTime.scala`, lines 76–87) reads the two
system clocks and makes the raw time unique in the process: a reading that is
not later than the last issued time is replaced by that time plus one
nanosecond. `TxnTime.next` (line 88) then attaches the caller's priority, and
the order of transactions is on the sum of the two.

Main results:

* `safeNow_total`, `lt_safeNow`: raw times strictly increase.
* `issue_total`: the raw time of every issued timestamp, in closed form over
  the clock readings.
* `issue_unambiguous_iff`: the timestamps issued by a sequence of calls are
  pairwise unequal under `compare` exactly when no later call's raw time has
  risen by as much as its priority has fallen (`NoPriorityTie`).
-/

namespace ReSTM

/-- One reading of `System.currentTimeMillis()` and `System.nanoTime()`. -/
structure Clock where
  currentTimeMillis : ℤ
  nanoTime : ℤ
deriving DecidableEq, Repr

/-- `new ExactTime()` (line 36); `/` and `%` round towards zero, and the `.toInt`
    of a remainder by `10⁹` keeps its value. -/
def ExactTime.now (c : Clock) : ExactTime :=
  ⟨c.currentTimeMillis.tdiv 1000, c.nanoTime.tmod 1000000000⟩

namespace TxnTime

/-- The function that `safeNow` passes to `safeLast.updateAndGet` (lines 77–86). -/
def safeNow (prev : ExactTime) (c : Clock) : ExactTime :=
  let time := ExactTime.now c
  if prev < time then time else ⟨prev.epoch, prev.nanos + 1⟩

/-- A call `TxnTime.next(priority)`: the clock reading it meets and the priority,
    a duration in nanoseconds. -/
structure NextCall where
  clock : Clock
  priority : ℤ
deriving DecidableEq, Repr

/-- `priority.toMillis.toInt` (line 88): milliseconds rounded towards zero, kept
    to 32 bits. -/
def NextCall.priorityMs (call : NextCall) : ℤ := (call.priority.tdiv 1000000).bmod (2 ^ 32)

/-- `TxnTime.next` (line 88) when `safeLast` holds `last`. -/
def next (last : ExactTime) (call : NextCall) : TxnTime :=
  ⟨safeNow last call.clock, call.priorityMs⟩

/-- The timestamps issued by a sequence of calls; each leaves its raw time in
    `safeLast`. -/
def issue : ExactTime → List NextCall → List TxnTime
  | _, [] => []
  | last, call :: calls => next last call :: issue (next last call).time calls

/-! ## Raw times -/

theorem safeNow_total (prev : ExactTime) (c : Clock) :
    (safeNow prev c).total = max (ExactTime.now c).total (prev.total + 1) := by
  unfold safeNow
  simp only [ExactTime.lt_iff]
  split_ifs with h
  · rw [max_eq_left (by omega)]
  · rw [max_eq_right (by omega)]
    simp only [ExactTime.total]; ring

theorem lt_safeNow (prev : ExactTime) (c : Clock) : prev < safeNow prev c := by
  rw [ExactTime.lt_iff, safeNow_total]
  exact lt_of_lt_of_le (lt_add_one _) (le_max_right _ _)

@[simp] theorem issue_length (last : ExactTime) (calls : List NextCall) :
    (issue last calls).length = calls.length := by
  induction calls generalizing last with
  | nil => rfl
  | cons call calls ih => simp [issue, ih]

theorem issue_priorityMs (last : ExactTime) (calls : List NextCall) (i : ℕ)
    (hi : i < calls.length) (hi' : i < (issue last calls).length) :
    (issue last calls)[i].priorityMs = calls[i].priorityMs := by
  induction calls generalizing last i with
  | nil => simp at hi
  | cons call calls ih =>
    cases i with
    | zero => rfl
    | succ i => simpa [issue] using ih _ i (by simpa using hi) (by simpa using hi)

/-- The raw time of call `i` in nanoseconds, over the clock readings alone: the
    latest of the readings so far and of the time `safeLast` started from, each
    with one nanosecond added for every call made since. -/
def rawTotal (last : ExactTime) (calls : List NextCall) (i : ℕ) : ℤ :=
  (calls.take (i + 1)).zipIdx.foldl
    (fun m p => max m ((ExactTime.now p.1.clock).total - p.2)) (last.total + 1) + i

theorem rawTotal_succ (last : ExactTime) (calls : List NextCall) (i : ℕ)
    (hi : i + 1 < calls.length) :
    rawTotal last calls (i + 1) =
      max (ExactTime.now calls[i + 1].clock).total (rawTotal last calls i + 1) := by
  unfold rawTotal
  rw [List.take_succ_eq_append_getElem hi, List.zipIdx_append, List.foldl_append]
  simp only [List.zipIdx_cons, List.zipIdx_nil, List.foldl_cons, List.foldl_nil, List.length_take,
    Nat.min_eq_left (Nat.le_of_lt hi)]
  push_cast
  omega

/-- The raw time of a call is `safeNow` of the raw time of the call before. -/
theorem issue_time_succ (last : ExactTime) (calls : List NextCall) (i : ℕ)
    (hi : i + 1 < calls.length) (hi' : i + 1 < (issue last calls).length) :
    (issue last calls)[i + 1].time =
      safeNow (issue last calls)[i].time calls[i + 1].clock := by
  induction calls generalizing last i with
  | nil => simp at hi
  | cons call calls ih =>
    cases i with
    | zero =>
      cases calls with
      | nil => simp at hi
      | cons call' calls => rfl
    | succ i => simpa [issue] using ih _ i (by simpa using hi) (by simpa using hi)

theorem issue_total (last : ExactTime) (calls : List NextCall) (i : ℕ) (hi : i < calls.length)
    (hi' : i < (issue last calls).length) :
    (issue last calls)[i].time.total = rawTotal last calls i := by
  induction i with
  | zero =>
    cases calls with
    | nil => simp at hi
    | cons call calls =>
      simp [issue, next, rawTotal, safeNow_total, max_comm]
  | succ i ih =>
    rw [rawTotal_succ last calls i hi, ← ih (by omega) (by omega), ← safeNow_total,
      issue_time_succ last calls i hi hi']

theorem rawTotal_lt (last : ExactTime) (calls : List NextCall) {i j : ℕ} (hij : i < j)
    (hj : j < calls.length) : rawTotal last calls i < rawTotal last calls j := by
  induction j with
  | zero => omega
  | succ j ih =>
    have hstep : rawTotal last calls j < rawTotal last calls (j + 1) := by
      rw [rawTotal_succ last calls j hj]; omega
    rcases Nat.lt_succ_iff_lt_or_eq.mp hij with h | rfl
    · exact (ih h (by omega)).trans hstep
    · exact hstep

/-! ## Ties under `compare` -/

/-- No later call's raw time has risen by exactly as much as its priority has
    fallen. -/
def NoPriorityTie (last : ExactTime) (calls : List NextCall) : Prop :=
  ∀ (i j : ℕ) (hi : i < calls.length) (hj : j < calls.length), i < j →
    rawTotal last calls j - rawTotal last calls i ≠
      (calls[i].priorityMs - calls[j].priorityMs) * 1000000

/-- A call's rank is its raw time plus its priority. -/
theorem issue_rank (last : ExactTime) (calls : List NextCall) (i : ℕ) (hi : i < calls.length)
    (hi' : i < (issue last calls).length) :
    (issue last calls)[i].rank = rawTotal last calls i + calls[i].priorityMs * 1000000 := by
  rw [rank, issue_total last calls i hi, issue_priorityMs last calls i hi]

/-- Two timestamps issued in one process compare as equal only by a tie of
    priorities, whatever the clocks read. -/
theorem issue_unambiguous_iff (last : ExactTime) (calls : List NextCall) :
    (issue last calls).Pairwise (fun t o => t.compare o ≠ 0) ↔ NoPriorityTie last calls := by
  rw [List.pairwise_iff_getElem]
  simp only [issue_length, Ne, compare_eq_zero_iff]
  constructor
  · intro h i j hi hj hij htie
    refine h i j hi hj hij ?_
    rw [issue_rank last calls i hi, issue_rank last calls j hj]
    linarith
  · intro h i j hi hj hij heq
    refine h i j hi hj hij ?_
    rw [issue_rank last calls i hi, issue_rank last calls j hj] at heq
    linarith

/-- Priorities that never fall leave no tie. -/
theorem NoPriorityTie.of_priority_le {last : ExactTime} {calls : List NextCall}
    (h : calls.Pairwise fun a b => a.priorityMs ≤ b.priorityMs) : NoPriorityTie last calls := by
  intro i j hi hj hij htie
  have hle := List.pairwise_iff_getElem.mp h i j hi hj hij
  have hlt := rawTotal_lt last calls hij hj
  linarith

/-- A call with one millisecond of priority ties with a call of none made one
    millisecond later. -/
theorem issue_tie :
    issue ⟨0, 0⟩ [⟨⟨1000, 0⟩, 1000000⟩, ⟨⟨1000, 1000000⟩, 0⟩] =
        [⟨⟨1, 0⟩, 1⟩, ⟨⟨1, 1000000⟩, 0⟩] ∧
      (⟨⟨1, 0⟩, 1⟩ : TxnTime) ≠ ⟨⟨1, 1000000⟩, 0⟩ ∧
      compare ⟨⟨1, 0⟩, 1⟩ ⟨⟨1, 1000000⟩, 0⟩ = 0 := by
  refine ⟨by decide, by decide, ?_⟩
  rw [compare_eq_zero_iff]; decide

end TxnTime

end ReSTM
