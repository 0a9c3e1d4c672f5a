import ReSTM.Common.WP
import ReSTM.Task.Task

/-!
# What the operations of a task do

Each operation runs in a transaction, and fails if a task that it reads does not exist. Here
its result is written as a function of the tasks and the queue before it.

* `mapM_addSubscriber_some`, `initTriggers_cases`: a task subscribes to its triggers.
* `forM_notify`: every subscriber that can run is queued.
-/

namespace ReSTM

open HeapModel WP

variable {F V : Type}

namespace TaskWorld

/-- `isComplete` of a task. -/
def complete (w : TaskWorld F V) (u : Ptr) : Bool := (w.tasks.get u).any (·.isComplete)

/-- `canRun` of the data of a task. -/
def triggered (w : TaskWorld F V) (d : TaskData F V) : Bool := d.triggers.all w.complete

/-- `canRun` of a task. -/
def runnable (w : TaskWorld F V) (s : Ptr) : Bool := (w.tasks.get s).any w.triggered

/-- The task has no executor, no result and no exception, and all its triggers are complete. -/
def Ready (w : TaskWorld F V) (d : TaskData F V) : Prop :=
  d.executorId = none ∧ d.result = none ∧ d.exception = none ∧ w.triggered d = true

instance (w : TaskWorld F V) (d : TaskData F V) : Decidable (w.Ready d) :=
  decidable_of_iff (d.executorId.isNone ∧ d.result.isNone ∧ d.exception.isNone ∧
    w.triggered d = true) (by simp [Ready])

/-- The task `t` subscribes to the tasks `l`. -/
def subscribe (t : Ptr) (l : List Ptr) (w : TaskWorld F V) : TaskWorld F V :=
  l.foldl (fun w u =>
    { w with
      tasks := w.tasks.set u <|
        (w.tasks.get u).map fun d => { d with subscribers := d.subscribers ++ [t] } }) w

/-- Queue the tasks `l`. -/
def enqueue (l : List Ptr) (w : TaskWorld F V) : TaskWorld F V :=
  { w with workQueue := w.workQueue ++ l }

variable {w : TaskWorld F V} {t u s : Ptr} {l : List Ptr} {d : TaskData F V}

@[simp] theorem enqueue_nil : w.enqueue [] = w := by rw [enqueue, List.append_nil]

@[simp] theorem subscribe_nil : w.subscribe t [] = w := rfl

theorem subscribe_cons : w.subscribe t (u :: l) =
    subscribe t l { w with
      tasks := w.tasks.set u <|
        (w.tasks.get u).map fun d => { d with subscribers := d.subscribers ++ [t] } } := rfl

@[simp] theorem subscribe_workQueue : (w.subscribe t l).workQueue = w.workQueue := by
  induction l generalizing w with
  | nil => rfl
  | cons u l ih => rw [subscribe_cons, ih]

@[simp] theorem subscribe_obtained : (w.subscribe t l).obtained = w.obtained := by
  induction l generalizing w with
  | nil => rfl
  | cons u l ih => rw [subscribe_cons, ih]

@[simp] theorem subscribe_next : (w.subscribe t l).tasks.next = w.tasks.next := by
  induction l generalizing w with
  | nil => rfl
  | cons u l ih => rw [subscribe_cons, ih, Heap.next_set]

/-- A task gets as many new subscribers as it occurs in the list. -/
theorem get_subscribe : (w.subscribe t l).tasks.get u =
    (w.tasks.get u).map fun d =>
      { d with subscribers := d.subscribers ++ List.replicate (l.count u) t } := by
  induction l generalizing w with
  | nil => cases h : w.tasks.get u <;> simp [h]
  | cons v l ih =>
    rw [subscribe_cons, ih]
    dsimp only
    by_cases hv : u = v
    · subst hv
      cases h : w.tasks.get u with
      | none =>
        rw [Option.map_none, Option.map_none, Option.map_eq_none_iff]
        by_cases hlt : u < w.tasks.next
        · exact Heap.get_set_self hlt
        · exact Heap.get_of_le (by rw [Heap.next_set]; exact Nat.not_lt.mp hlt)
      | some d =>
        rw [Option.map_some, Heap.get_set_self (Heap.lt_next h), Option.map_some, Option.map_some,
          List.count_cons_self, List.append_assoc, List.replicate_succ]
        rfl
    · rw [Heap.get_set_of_ne hv, List.count_cons_of_ne (Ne.symm hv)]

@[simp] theorem complete_subscribe : (w.subscribe t l).complete u = w.complete u := by
  rw [complete, get_subscribe, complete]
  cases w.tasks.get u <;> rfl

end TaskWorld

open TaskWorld

/-! ## What the operations do -/

namespace Task

variable {w w' : TaskWorld F V} {t u s : Ptr} {l : List Ptr} {d : TaskData F V}

theorem read_some (h : w.tasks.get u = some d) : read u w = .ok (d, w) := by
  unfold read; rw [h]

theorem read_none (h : w.tasks.get u = none) :
    ∃ e, (read u w : Except Failure (_ × TaskWorld F V)) = .error e := by
  unfold read; rw [h]; exact ⟨_, rfl⟩

theorem addSubscriber_some (h : w.tasks.get u = some d) :
    addSubscriber t u w = .ok (w.complete u, w.subscribe t [u]) := by
  rw [addSubscriber, bind_ok (read_some h), TaskWorld.complete, h, subscribe_cons, h]
  rfl

theorem addSubscriber_none (h : w.tasks.get u = none) :
    ∃ e, (addSubscriber t u w : Except Failure (_ × TaskWorld F V)) = .error e := by
  obtain ⟨e, he⟩ := read_none h
  exact ⟨e, bind_error he⟩

/-- A task subscribes to all its triggers. -/
theorem mapM_addSubscriber_some (w : TaskWorld F V) (t : Ptr) (l : List Ptr)
    (h : ∀ u ∈ l, ∃ d, w.tasks.get u = some d) :
    l.mapM (addSubscriber t) w = .ok (l.map w.complete, w.subscribe t l) := by
  induction l generalizing w with
  | nil => rfl
  | cons u l ih =>
    obtain ⟨d, hd⟩ := h u List.mem_cons_self
    have hrest : ∀ v ∈ l, ∃ d, (w.subscribe t [u]).tasks.get v = some d := by
      intro v hv
      obtain ⟨d', hd'⟩ := h v (List.mem_cons_of_mem u hv)
      rw [get_subscribe, hd']
      exact ⟨_, rfl⟩
    have hmap : l.map (w.subscribe t [u]).complete = l.map w.complete :=
      List.map_congr_left fun v _ => complete_subscribe
    rw [List.mapM_cons, bind_ok (addSubscriber_some hd), bind_ok (ih _ hrest), hmap]
    rfl

/-- A trigger that does not exist makes the subscription fail. -/
theorem mapM_addSubscriber_none (w : TaskWorld F V) (t : Ptr) (l : List Ptr)
    (h : ∃ u ∈ l, w.tasks.get u = none) :
    ∃ e, (l.mapM (addSubscriber t) w : Except Failure (_ × TaskWorld F V)) = .error e := by
  induction l generalizing w with
  | nil =>
    obtain ⟨u, hu, -⟩ := h
    cases hu
  | cons v l ih =>
    rw [List.mapM_cons]
    cases hv : w.tasks.get v with
    | none =>
      obtain ⟨e, he⟩ := addSubscriber_none (t := t) hv
      exact ⟨e, bind_error he⟩
    | some d =>
      obtain ⟨u, hu, hnone⟩ := h
      have hul : u ∈ l := (List.mem_cons.mp hu).resolve_left fun heq => by
        rw [heq, hv] at hnone
        cases hnone
      have hnone' : (w.subscribe t [v]).tasks.get u = none := by
        rw [get_subscribe, hnone]
        rfl
      obtain ⟨e, he⟩ := ih (w.subscribe t [v]) ⟨u, hul, hnone'⟩
      rw [bind_ok (addSubscriber_some hv)]
      exact ⟨e, bind_error he⟩

theorem mapM_isComplete (w : TaskWorld F V) (l : List Ptr) :
    l.mapM isComplete w = .ok (l.map w.complete, w) := by
  induction l with
  | nil => rfl
  | cons u l ih =>
    rw [List.mapM_cons, bind_ok (b := w.complete u) (r := w) rfl, bind_ok ih]
    rfl

theorem canRun_some (h : w.tasks.get s = some d) : canRun s w = .ok (w.runnable s, w) := by
  rw [canRun, bind_ok (read_some h), bind_ok (mapM_isComplete w d.triggers), runnable, h,
    Option.any_some, triggered]
  show Except.ok ((d.triggers.map w.complete).all id, w) = _
  rw [List.all_map]
  rfl

theorem notify_some (h : w.tasks.get s = some d) :
    notify s w = .ok ((), w.enqueue ([s].filter w.runnable)) := by
  rw [notify, bind_ok (canRun_some h)]
  cases hrun : w.runnable s
  · rw [List.filter_cons_of_neg (by rw [hrun]; exact Bool.false_ne_true), List.filter_nil, enqueue_nil]
    rfl
  · rw [List.filter_cons_of_pos hrun]
    rfl

/-- Every subscriber that can run is queued. -/
theorem forM_notify (w : TaskWorld F V) (l : List Ptr) (h : ∀ s ∈ l, ∃ d, w.tasks.get s = some d) :
    l.forM notify w = .ok ((), w.enqueue (l.filter w.runnable)) := by
  induction l generalizing w with
  | nil => rw [List.filter_nil, enqueue_nil]; rfl
  | cons s l ih =>
    obtain ⟨d, hd⟩ := h s List.mem_cons_self
    show (notify s >>= fun _ => l.forM notify) w = _
    rw [bind_ok (notify_some hd),
      ih (w.enqueue _) fun v hv => h v (List.mem_cons_of_mem s hv)]
    have hsplit : (s :: l).filter w.runnable = [s].filter w.runnable ++ l.filter w.runnable := by
      rw [← List.filter_append]
      rfl
    rw [hsplit, enqueue, enqueue, enqueue, ← List.append_assoc]
    rfl

/-- A subscriber that does not exist makes `complete` fail. -/
theorem forM_notify_none (w : TaskWorld F V) (l : List Ptr) (h : ∃ s ∈ l, w.tasks.get s = none) :
    ∃ e, (l.forM notify w : Except Failure (_ × TaskWorld F V)) = .error e := by
  induction l generalizing w with
  | nil =>
    obtain ⟨s, hs, -⟩ := h
    cases hs
  | cons v l ih =>
    show ∃ e, (notify v >>= fun _ => l.forM notify) w = _
    cases hv : w.tasks.get v with
    | none =>
      obtain ⟨e, he⟩ := read_none hv
      exact ⟨e, bind_error (bind_error (bind_error he))⟩
    | some d =>
      obtain ⟨s, hs, hnone⟩ := h
      have hsl : s ∈ l := (List.mem_cons.mp hs).resolve_left fun heq => by
        rw [heq, hv] at hnone
        cases hnone
      rw [bind_ok (notify_some hv)]
      exact ih (w.enqueue _) ⟨s, hsl, hnone⟩

/-- `initTriggers` subscribes to all triggers, and queues the task if they are complete. -/
theorem initTriggers_some (w : TaskWorld F V) (t : Ptr) (d : TaskData F V)
    (h : ∀ u ∈ d.triggers, ∃ e, w.tasks.get u = some e) :
    initTriggers t d w =
      .ok (d, (w.subscribe t d.triggers).enqueue (if w.triggered d then [t] else [])) := by
  have hall : (d.triggers.map w.complete).all id = w.triggered d := List.all_map
  rw [initTriggers, bind_ok (mapM_addSubscriber_some w t d.triggers h), hall]
  cases w.triggered d
  · show Except.ok (d, _) = Except.ok (d, enqueue [] _)
    rw [enqueue_nil]
  · rfl

theorem initTriggers_none (w : TaskWorld F V) (t : Ptr) (d : TaskData F V)
    (h : ∃ u ∈ d.triggers, w.tasks.get u = none) :
    ∃ e, (initTriggers t d w : Except Failure (_ × TaskWorld F V)) = .error e := by
  obtain ⟨e, he⟩ := mapM_addSubscriber_none w t d.triggers h
  exact ⟨e, bind_error he⟩

/-- The triggers exist, or one of them does not. -/
theorem initTriggers_cases (w : TaskWorld F V) (t : Ptr) (d : TaskData F V) :
    (∀ u ∈ d.triggers, ∃ e, w.tasks.get u = some e) ∧
        initTriggers t d w =
          .ok (d, (w.subscribe t d.triggers).enqueue (if w.triggered d then [t] else [])) ∨
      ∃ e, (initTriggers t d w : Except Failure (_ × TaskWorld F V)) = .error e := by
  by_cases h : ∀ u ∈ d.triggers, ∃ e, w.tasks.get u = some e
  · exact .inl ⟨h, initTriggers_some w t d h⟩
  · push Not at h
    obtain ⟨u, hu, hnone⟩ := h
    exact .inr (initTriggers_none w t d ⟨u, hu, Option.eq_none_iff_forall_ne_some.mpr hnone⟩)

end Task

end ReSTM
