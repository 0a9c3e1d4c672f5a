import ReSTM.Task.Linked

/-!
# Completing a task again

`Task.complete` does not look at whether a result or an exception is there already, as `obtainTask`
does: it writes the outcome over the one before, and tells the subscribers again. A caller sees an
exception before a result, so that a failure that is reported after a success, as `runTask` does
when the report of the success fails, replaces it (`complete_replaces`).

* `completed_of_stored`, `completed_of_missing`: the state after `complete`.
* `complete_final_iff`: when the outcome and the queue stay as they are.
-/

namespace ReSTM

open HeapModel WP TaskWorld

variable {F V : Type}

namespace Task

/-- `AtomicApi.result` (lines 288–291). -/
def result (root : Ptr) (w : TaskWorld F V) : Except Failure V :=
  match w.tasks.get root with
  | none => .error (Failure.chainEx "Error getting result"
      (Failure.chainEx ("not defined: " ++ root.repr) Failure.noneGet))
  | some currentState =>
    match currentState.exception, currentState.result with
    | some exception, _ => .error exception
    | none, some result => .ok result
    | none, none => .error (.runtimeException ("Task " ++ root.repr ++ " not complete"))

/-- The state after `complete` as a transaction. When it fails it has changed nothing. -/
def completed (t : Ptr) (r : Except Failure (TaskResult F V)) (w : TaskWorld F V) :
    TaskWorld F V :=
  match complete t r w with
  | .ok (_, w') => w'
  | .error _ => w

/-- The triggers that an outcome gives to the task. -/
def newTriggers : Except Failure (TaskResult F V) → List Ptr
  | .ok (.taskContinue _ newTriggers) => newTriggers
  | _ => []

/-- The data that `complete` writes. -/
def updated (d : TaskData F V) : Except Failure (TaskResult F V) → TaskData F V
  | .ok (.taskSuccess success) => { d with result := success }
  | .ok (.taskContinue next triggers) =>
    ({ d with triggers := triggers, executorId := none } : TaskData F V).newTask next
  | .error exception => { d with exception := some exception }

/-- A task that goes on is queued when its triggers are complete. -/
def requeued (w : TaskWorld F V) (t : Ptr) : Except Failure (TaskResult F V) → List Ptr
  | .ok (.taskContinue _ newTriggers) => if newTriggers.all w.complete then [t] else []
  | _ => []

/-- The tasks after the outcome is written, with the queue before the subscribers are told. -/
def written (w : TaskWorld F V) (t : Ptr) (d : TaskData F V)
    (r : Except Failure (TaskResult F V)) : TaskWorld F V :=
  let w' := (w.subscribe t (newTriggers r)).enqueue (requeued w t r)
  { w' with tasks := w'.tasks.set t (some (updated d r)) }

/-- A task that `complete` reads does not exist. -/
def Missing (w : TaskWorld F V) (d : TaskData F V) (r : Except Failure (TaskResult F V)) : Prop :=
  (∃ u ∈ newTriggers r, w.tasks.get u = none) ∨ ∃ s ∈ d.subscribers, w.tasks.get s = none

/-- The outcome of a complete task is one that an outcome `r` does not change: an exception stays
    unless `r` is another one, and a result unless `r` is another one or an exception. -/
def Repeats (d : TaskData F V) (r : Except Failure (TaskResult F V)) : Prop :=
  match d.exception, r with
  | some e, .error e' => e' = e
  | none, .error _ => False
  | none, .ok (.taskSuccess success) => success = d.result
  | _, _ => True

/-- The triggers of a task after the task `t` has gone on with those of `r`. -/
def triggersAfter (w : TaskWorld F V) (t : Ptr) (r : Except Failure (TaskResult F V)) (s : Ptr) :
    List Ptr :=
  match r with
  | .ok (.taskContinue _ newTriggers) =>
    if s = t then newTriggers else ((w.tasks.get s).map (·.triggers)).getD []
  | _ => ((w.tasks.get s).map (·.triggers)).getD []

/-- The task waits for a trigger that is not complete. -/
def StillWaits (w : TaskWorld F V) (t : Ptr) (r : Except Failure (TaskResult F V)) (s : Ptr) :
    Prop :=
  ∃ u ∈ triggersAfter w t r s, w.complete u = false

variable {w : TaskWorld F V} {t s u : Ptr} {d : TaskData F V} {r : Except Failure (TaskResult F V)}

/-! ## The state after `complete` -/

theorem update_of_stored (h : ∀ u ∈ newTriggers r, ∃ e, w.tasks.get u = some e) :
    update t d r w =
      .ok (updated d r, (w.subscribe t (newTriggers r)).enqueue (requeued w t r)) := by
  cases r with
  | error e =>
    show Except.ok (updated d (.error e), w) = .ok (updated d (.error e), enqueue [] (subscribe t [] w))
    rw [enqueue_nil, subscribe_nil]
  | ok r =>
    cases r with
    | taskSuccess v =>
      show Except.ok (updated d (.ok (.taskSuccess v)), w) =
        .ok (updated d (.ok (.taskSuccess v)), enqueue [] (subscribe t [] w))
      rw [enqueue_nil, subscribe_nil]
    | taskContinue next triggers => exact initTriggers_some w t _ h

theorem update_of_missing (h : ∃ u ∈ newTriggers r, w.tasks.get u = none) :
    ∃ e, (update t d r w : Except Failure (_ × TaskWorld F V)) = .error e := by
  obtain ⟨u, hu, hnone⟩ := h
  cases r with
  | error e => cases hu
  | ok r =>
    cases r with
    | taskSuccess v => cases hu
    | taskContinue next triggers => exact initTriggers_none w t _ ⟨u, hu, hnone⟩

theorem get_written_self (hd : w.tasks.get t = some d) :
    (written w t d r).tasks.get t = some (updated d r) := by
  have hsome : (w.subscribe t (newTriggers r)).tasks.get t = _ := get_subscribe
  rw [hd, Option.map_some] at hsome
  exact Heap.get_set_self (Heap.lt_next hsome)

theorem get_written_of_ne (hs : s ≠ t) : (written w t d r).tasks.get s =
    (w.tasks.get s).map fun e =>
      { e with subscribers := e.subscribers ++ List.replicate ((newTriggers r).count s) t } := by
  show ((w.subscribe t (newTriggers r)).tasks.set t _).get s = _
  rw [Heap.get_set_of_ne hs, get_subscribe]

theorem get_written_eq_none_iff (hd : w.tasks.get t = some d) :
    (written w t d r).tasks.get s = none ↔ w.tasks.get s = none := by
  by_cases hs : s = t
  · rw [hs, get_written_self hd, hd]
    exact iff_of_false (fun h => by cases h) fun h => by cases h
  · rw [get_written_of_ne hs, Option.map_eq_none_iff]

theorem complete_eq (hd : w.tasks.get t = some d)
    (h : ∀ u ∈ newTriggers r, ∃ e, w.tasks.get u = some e) :
    complete t r w = d.subscribers.forM notify (written w t d r) := by
  rw [complete, bind_ok (read_some hd), bind_ok (update_of_stored h),
    bind_ok (r := written w t d r) rfl]

/-- If all tasks exist that are read, the subscribers that can run are queued once more. -/
theorem completed_of_stored (hd : w.tasks.get t = some d) (h : ¬Missing w d r) :
    completed t r w =
      (written w t d r).enqueue (d.subscribers.filter (written w t d r).runnable) := by
  rw [Missing, not_or] at h
  obtain ⟨htriggers, hsubscribers⟩ := h
  push Not at htriggers hsubscribers
  have hexists : ∀ s ∈ d.subscribers, ∃ e, (written w t d r).tasks.get s = some e := fun s hs =>
    Option.ne_none_iff_exists'.mp fun hnone =>
      hsubscribers s hs ((get_written_eq_none_iff hd).mp hnone)
  rw [completed, complete_eq hd fun u hu => Option.ne_none_iff_exists'.mp (htriggers u hu),
    forM_notify _ _ hexists]

/-- If one does not, nothing happens. -/
theorem completed_of_missing (hd : w.tasks.get t = some d) (h : Missing w d r) :
    completed t r w = w := by
  have hfail : ∃ e, complete t r w = .error e := by
    by_cases htriggers : ∀ u ∈ newTriggers r, ∃ e, w.tasks.get u = some e
    · rw [complete_eq hd htriggers]
      rcases h with ⟨u, hu, hnone⟩ | ⟨s, hs, hnone⟩
      · obtain ⟨e, he⟩ := htriggers u hu
        rw [he] at hnone
        cases hnone
      · exact forM_notify_none _ _ ⟨s, hs, (get_written_eq_none_iff hd).mpr hnone⟩
    · push Not at htriggers
      obtain ⟨u, hu, hnone⟩ := htriggers
      obtain ⟨e, he⟩ := update_of_missing (t := t) (d := d)
        ⟨u, hu, Option.eq_none_iff_forall_ne_some.mpr hnone⟩
      rw [complete, bind_ok (read_some hd)]
      exact ⟨e, bind_error he⟩
  obtain ⟨e, he⟩ := hfail
  rw [completed, he]

/-! ## The outcome -/

theorem result_of_some (hd : w.tasks.get t = some d) {v : V} (hv : d.result = some v)
    (he : d.exception = none) : result t w = .ok v := by
  rw [result, hd]
  simp only [he, hv]

theorem result_of_exception (hd : w.tasks.get t = some d) {e : Failure} (he : d.exception = some e) :
    result t w = .error e := by
  rw [result, hd]
  simp only [he]

theorem repeats_of_exception {e : Failure} (he : d.exception = some e) :
    Repeats d r ↔ ∀ e', r = .error e' → e' = e := by
  unfold Repeats
  rw [he]
  cases r with
  | error e' => exact ⟨fun h _ heq => Except.error.inj heq ▸ h, fun h => h e' rfl⟩
  | ok r => exact iff_of_true (by cases r <;> trivial) fun _ heq => by cases heq

theorem repeats_of_result {v : V} (hv : d.result = some v) (he : d.exception = none) :
    Repeats d r ↔ (∀ e, r ≠ .error e) ∧ ∀ success, r = .ok (.taskSuccess success) → success = some v := by
  unfold Repeats
  rw [he, hv]
  cases r with
  | error e => exact iff_of_false (fun h => h) fun h => h.1 e rfl
  | ok r =>
    cases r with
    | taskContinue next triggers =>
      exact iff_of_true trivial ⟨fun _ heq => (by cases heq), fun _ heq => by cases heq⟩
    | taskSuccess success =>
      refine ⟨fun h => ⟨fun _ heq => (by cases heq), fun _ heq => ?_⟩, fun h => h.2 success rfl⟩
      cases heq
      exact h

/-- What a caller sees of a complete task stays the same exactly if the new outcome repeats it. -/
theorem result_written_iff (hd : w.tasks.get t = some d) (hcomplete : d.isComplete = true) :
    result t (written w t d r) = result t w ↔ Repeats d r := by
  have hself := get_written_self (r := r) hd
  cases hexception : d.exception with
  | some e =>
    rw [result_of_exception hd hexception, repeats_of_exception hexception]
    cases r with
    | error e' =>
      rw [result_of_exception (e := e') hself rfl]
      exact ⟨fun h _ heq => (Except.error.inj heq).symm.trans (Except.error.inj h),
        fun h => congrArg _ (h e' rfl)⟩
    | ok r =>
      have hkeep : result t (written w t d (.ok r)) = .error e := by
        cases r <;> exact result_of_exception hself hexception
      exact iff_of_true hkeep fun _ heq => by cases heq
  | none =>
    obtain ⟨v, hv⟩ : ∃ v, d.result = some v := by
      rw [TaskData.isComplete, hexception, Option.isSome_none, Bool.or_false] at hcomplete
      exact Option.isSome_iff_exists.mp hcomplete
    rw [result_of_some hd hv hexception, repeats_of_result hv hexception]
    cases r with
    | error e' =>
      rw [result_of_exception (e := e') hself rfl]
      exact iff_of_false (fun h => by cases h) fun h => h.1 e' rfl
    | ok r =>
      cases r with
      | taskContinue next triggers =>
        exact iff_of_true (result_of_some hself hv hexception)
          ⟨fun _ heq => (by cases heq), fun _ heq => by cases heq⟩
      | taskSuccess success =>
        cases success with
        | none =>
          have hnull : result t (written w t d (.ok (.taskSuccess none))) =
              .error (.runtimeException ("Task " ++ t.repr ++ " not complete")) := by
            rw [result, hself]
            simp only [updated, hexception]
          rw [hnull]
          refine iff_of_false (fun h => by cases h) fun h => ?_
          cases h.2 none rfl
        | some v' =>
          rw [result_of_some (v := v') hself rfl hexception]
          refine ⟨fun h => ⟨fun _ heq => (by cases heq), fun _ heq => ?_⟩,
            fun h => congrArg _ (Option.some.inj (h.2 _ rfl))⟩
          cases heq
          exact congrArg some (Except.ok.inj h)

/-! ## The queue -/

/-- An outcome that repeats the one before leaves the task complete. -/
theorem complete_written (hd : w.tasks.get t = some d) (hcomplete : d.isComplete = true)
    (hr : Repeats d r) : (written w t d r).complete u = w.complete u := by
  by_cases hu : u = t
  · have hkeep : (updated d r).isComplete = true := by
      unfold TaskData.isComplete at hcomplete ⊢
      unfold Repeats at hr
      cases hexception : d.exception with
      | some e => cases r with
        | error e' => exact Bool.or_true _
        | ok r =>
          cases r <;> simp [updated, TaskData.newTask, hexception]
      | none =>
        rw [hexception] at hr hcomplete
        cases r with
        | error e' => exact hr.elim
        | ok r =>
          cases r with
          | taskSuccess success =>
            have hsame : success = d.result := hr
            simpa [updated, hexception, hsame] using hcomplete
          | taskContinue next triggers =>
            simpa [updated, TaskData.newTask, hexception] using hcomplete
    rw [hu, complete_some (get_written_self hd), complete_some hd, hkeep, hcomplete]
  · rw [TaskWorld.complete, get_written_of_ne hu, TaskWorld.complete]
    cases w.tasks.get u <;> rfl

theorem triggers_written (hd : w.tasks.get t = some d) :
    ((written w t d r).tasks.get s).map (·.triggers) =
      (w.tasks.get s).map fun _ => triggersAfter w t r s := by
  by_cases hs : s = t
  · subst hs
    rw [get_written_self hd, hd]
    cases r with
    | error e => simp [triggersAfter, hd, updated]
    | ok r => cases r <;> simp [triggersAfter, hd, updated, TaskData.newTask]
  · rw [get_written_of_ne hs]
    cases hget : w.tasks.get s with
    | none => rfl
    | some e =>
      cases r with
      | error e => simp [triggersAfter, hget]
      | ok r => cases r <;> simp [triggersAfter, hget, hs]

/-- A task that exists can run unless it waits for a trigger. -/
theorem runnable_written_iff (hd : w.tasks.get t = some d) (hcomplete : d.isComplete = true)
    (hr : Repeats d r) {e : TaskData F V} (he : w.tasks.get s = some e) :
    (written w t d r).runnable s = true ↔ ¬StillWaits w t r s := by
  have htriggers := triggers_written (r := r) (s := s) hd
  rw [he, Option.map_some, Option.map_eq_some_iff] at htriggers
  obtain ⟨e', he', htr⟩ := htriggers
  rw [runnable, he', Option.any_some, triggered_iff, htr, StillWaits]
  push Not
  exact forall₂_congr fun u _ => by rw [complete_written hd hcomplete hr, ne_eq, Bool.not_eq_false]

/-- A task that goes on is not queued while it waits. -/
theorem not_mem_requeued (hwait : StillWaits w t r s) : s ∉ requeued w t r := by
  intro hs
  obtain ⟨u, hu, hincomplete⟩ := hwait
  unfold requeued at hs
  unfold triggersAfter at hu
  split at hs
  · next next triggers =>
    split_ifs at hs with hall
    · rw [List.mem_singleton] at hs
      have hnew : u ∈ triggers := by simpa only [if_pos hs] using hu
      rw [List.all_eq_true.mp hall u hnew] at hincomplete
      cases hincomplete
    · cases hs
  · cases hs

/-- The queue keeps as many copies of the subscribers exactly if all of them still wait. -/
theorem count_completed_iff (hd : w.tasks.get t = some d) (hcomplete : d.isComplete = true)
    (hr : Repeats d r) (h : ¬Missing w d r) :
    (∀ s ∈ d.subscribers, (completed t r w).workQueue.count s = w.workQueue.count s) ↔
      ∀ s ∈ d.subscribers, StillWaits w t r s := by
  have hqueue : (completed t r w).workQueue = w.workQueue ++ requeued w t r ++
      d.subscribers.filter (written w t d r).runnable := by
    rw [completed_of_stored hd h]
    show (w.subscribe t (newTriggers r)).workQueue ++ requeued w t r ++ _ = _
    rw [subscribe_workQueue]
  refine forall₂_congr fun s hs => ?_
  obtain ⟨e, he⟩ : ∃ e, w.tasks.get s = some e :=
    Option.ne_none_iff_exists'.mp fun hnone => h (.inr ⟨s, hs, hnone⟩)
  rw [hqueue, List.append_assoc, List.count_append, Nat.add_eq_left, List.count_eq_zero,
    List.mem_append, not_or, List.mem_filter, not_and]
  constructor
  · intro ⟨_, hidle⟩
    by_contra hwait
    exact hidle hs ((runnable_written_iff hd hcomplete hr he).mpr hwait)
  · intro hwait
    exact ⟨not_mem_requeued hwait,
      fun _ hrun => (runnable_written_iff hd hcomplete hr he).mp hrun hwait⟩

/-- Completing a complete task once more leaves its outcome and the queue as they are exactly if
    it fails for a task that does not exist, or repeats the outcome while all subscribers wait. -/
theorem complete_final_iff (hd : w.tasks.get t = some d) (hcomplete : d.isComplete = true)
    (r : Except Failure (TaskResult F V)) :
    (result t (completed t r w) = result t w ∧
        ∀ s ∈ d.subscribers, (completed t r w).workQueue.count s = w.workQueue.count s) ↔
      Missing w d r ∨ (Repeats d r ∧ ∀ s ∈ d.subscribers, StillWaits w t r s) := by
  by_cases h : Missing w d r
  · rw [completed_of_missing hd h]
    exact iff_of_true ⟨rfl, fun _ _ => rfl⟩ (.inl h)
  · have hresult : result t (completed t r w) = result t w ↔ Repeats d r := by
      rw [completed_of_stored hd h]
      exact result_written_iff hd hcomplete
    rw [hresult, or_iff_right h]
    exact and_congr_right fun hr => count_completed_iff hd hcomplete hr h

/-- A task with a result, to which the task 1 subscribes. -/
def succeeded : TaskData String ℕ := { result := some 1, subscribers := [1] }

/-- A task that waits for another one as well. -/
def waiting : TaskData String ℕ := { triggers := [0, 2] }

def afterSuccess (subscriber : TaskData String ℕ) : TaskWorld String ℕ where
  tasks := ((({} : Heap (TaskData String ℕ)).alloc succeeded).alloc subscriber).alloc {}

theorem complete_final_waiting :
    result 0 (completed 0 (.ok (.taskSuccess (some 1))) (afterSuccess waiting)) = .ok 1 ∧
      (completed 0 (.ok (.taskSuccess (some 1))) (afterSuccess waiting)).workQueue.count 1 = 0 := by
  have h := (complete_final_iff (w := afterSuccess waiting) (t := 0) (d := succeeded) (by decide)
    (by decide) (.ok (.taskSuccess (some 1)))).mpr <| .inr ⟨rfl, fun s hs => ⟨2, ?_⟩⟩
  · exact ⟨h.1.trans rfl, h.2 1 (by decide)⟩
  · rw [List.mem_singleton.mp hs]
    decide

/-- The report of a failure after that of a success replaces the result, and queues the subscriber
    that the result has released once more. -/
theorem complete_replaces :
    let w := afterSuccess { triggers := [0], executorId := some "executor:1" }
    let w' := completed 0 (.error (.runtimeException "Read timed out")) w
    result 0 w = .ok 1 ∧ result 0 w' = .error (.runtimeException "Read timed out") ∧
      w.workQueue.count 1 = 0 ∧ w'.workQueue.count 1 = 1 := by
  decide

end Task

end ReSTM
