import ReSTM.Common.Transition
import ReSTM.Task.Linked
import Mathlib.Data.List.Perm.Basic

/-!
# Tasks run when, and only when, their triggers are done

A task is queued in two places: by `initTriggers`, when all its triggers are complete
already, and by `complete` of a trigger, for every subscriber that can run then. Taking it
from the queue gives it an executor, and going on takes the executor away.

* `Sound`: the invariant.
* `Sound.step`: every operation keeps it.
* `sound_run`: it holds after every run.
-/

namespace ReSTM

open HeapModel Transition WP

variable {F V : Type}

namespace TaskWorld

variable {w w' : TaskWorld F V} {t u s : Ptr} {l : List Ptr} {d e : TaskData F V} {f : F}

/-! ## The invariant -/

/-- The invariant: a task is queued once if it is ready, and not at all otherwise, and a task
    that was obtained has an executor and is not complete. -/
structure Sound (w : TaskWorld F V) : Prop extends Linked w where
  queue_mem : ∀ s ∈ w.workQueue, ∃ d, w.tasks.get s = some d
  queued : ∀ s d, w.tasks.get s = some d → w.workQueue.count s = if w.Ready d then 1 else 0
  obtained_mem : ∀ s ∈ w.obtained, ∃ d, w.tasks.get s = some d ∧ d.executorId.isSome ∧
    d.isComplete = false
  obtained_nodup : w.obtained.Nodup

/-- A change that completes no task keeps the invariant, if `t` is queued just when it is
    ready. -/
theorem Sound.change_enqueue (h : Sound w) (hc : Change t d l w w') (hlinked : Linked w')
    (hcomplete : ∀ u, w'.complete u = w.complete u)
    (hready : w'.Ready d ↔ w'.triggered d = true) (hfresh : w.workQueue.count t = 0)
    (hqueue : w'.workQueue = w.workQueue ++ if w'.triggered d then [t] else [])
    (hobtained : ∀ s ∈ w'.obtained, s ≠ t ∧ s ∈ w.obtained) (hnodup : w'.obtained.Nodup) :
    Sound w' := by
  refine ⟨hlinked, ?_, ?_, ?_, hnodup⟩
  · intro s hs
    rw [hqueue] at hs
    rcases List.mem_append.mp hs with hs | hs
    · exact hc.mem (h.queue_mem s hs)
    · split_ifs at hs
      · rw [List.mem_singleton.mp hs]
        exact ⟨d, hc.self⟩
      · cases hs
  · intro s e he
    rw [hqueue, List.count_append]
    rcases hc.of_get he with ⟨rfl, rfl⟩ | ⟨hs, e₀, he₀, rfl⟩
    · rw [hfresh, Nat.zero_add, if_congr hready rfl rfl]
      split_ifs
      · exact List.count_singleton_self
      · rfl
    · have hzero : List.count s (if w'.triggered d = true then [t] else []) = 0 := by
        split_ifs
        · exact List.count_eq_zero_of_not_mem fun hmem => hs (List.mem_singleton.mp hmem)
        · rfl
      rw [hzero, Nat.add_zero, h.queued s e₀ he₀]
      exact if_congr (ready_congr rfl rfl rfl rfl fun u _ => hcomplete u).symm rfl rfl
  · intro s hs
    obtain ⟨hst, hs⟩ := hobtained s hs
    exact hc.running hst (h.obtained_mem s hs)

/-! ## A new task -/

/-- The new task of `add`, before it subscribes to its triggers. -/
def create (f : F) (ancestors : List Ptr) (w : TaskWorld F V) : TaskWorld F V :=
  { w with tasks := w.tasks.alloc { kryoTask := some f, triggers := ancestors } }

/-- What `add` does. -/
def added (f : F) (ancestors : List Ptr) (w : TaskWorld F V) : TaskWorld F V :=
  let w' := w.create f ancestors
  (w'.subscribe w.tasks.next ancestors).enqueue
    (if w'.triggered { kryoTask := some f, triggers := ancestors } then [w.tasks.next] else [])

theorem add_eq (f : F) (ancestors : List Ptr) (w : TaskWorld F V) :
    StmExecutionQueue.add f ancestors w =
      (Task.initTriggers w.tasks.next { kryoTask := some f, triggers := ancestors } >>= fun _ =>
        (pure w.tasks.next : TaskTxn F V Ptr)) (w.create f ancestors) := by
  have hget : (w.create f ancestors).tasks.get w.tasks.next =
      some { kryoTask := some f, triggers := ancestors } := Heap.get_alloc_self
  rw [StmExecutionQueue.add, bind_ok (r := w.create f ancestors) rfl,
    bind_ok (Task.read_some hget)]

/-- A task is added, if its triggers exist. -/
theorem add_some (f : F) (ancestors : List Ptr) (w : TaskWorld F V)
    (hmem : ∀ u ∈ ancestors, ∃ e, (w.create f ancestors).tasks.get u = some e) :
    StmExecutionQueue.add f ancestors w = .ok (w.tasks.next, w.added f ancestors) := by
  rw [add_eq]
  exact bind_ok (Task.initTriggers_some _ _ { kryoTask := some f, triggers := ancestors } hmem)

theorem add_cases (f : F) (ancestors : List Ptr) (w : TaskWorld F V) :
    (∀ u ∈ ancestors, ∃ e, (w.create f ancestors).tasks.get u = some e) ∧
        StmExecutionQueue.add f ancestors w = .ok (w.tasks.next, w.added f ancestors) ∨
      ∃ e, (StmExecutionQueue.add f ancestors w : Except Failure (_ × TaskWorld F V)) = .error e := by
  rcases Task.initTriggers_cases (w.create f ancestors) w.tasks.next
    { kryoTask := some f, triggers := ancestors } with ⟨hall, -⟩ | ⟨e, he⟩
  · exact .inl ⟨hall, add_some f ancestors w hall⟩
  · rw [add_eq]
    exact .inr ⟨e, bind_error he⟩

theorem change_added (f : F) (ancestors : List Ptr) (w : TaskWorld F V) :
    ∃ d, Change w.tasks.next d ancestors w (w.added f ancestors) ∧ d.kryoTask = some f ∧
      d.executorId = none ∧ d.result = none ∧ d.exception = none ∧ d.triggers = ancestors ∧
      d.subscribers = List.replicate (ancestors.count w.tasks.next) w.tasks.next := by
  refine ⟨{ kryoTask := some f, triggers := ancestors,
            subscribers := List.replicate (ancestors.count w.tasks.next) w.tasks.next },
    ⟨?_, ?_⟩, rfl, rfl, rfl, rfl, rfl, rfl⟩
  · show ((w.create f ancestors).subscribe w.tasks.next ancestors).tasks.get w.tasks.next = _
    rw [get_subscribe, show (w.create f ancestors).tasks.get w.tasks.next = _ from
      Heap.get_alloc_self]
    rfl
  · intro s hs
    show ((w.create f ancestors).subscribe w.tasks.next ancestors).tasks.get s = _
    rw [get_subscribe, show (w.create f ancestors).tasks.get s = _ from Heap.get_alloc_of_ne hs]

theorem ne_next_of_some (hd : w.tasks.get t = some d) : t ≠ w.tasks.next :=
  Nat.ne_of_lt (Heap.lt_next hd)

theorem Linked.added (h : Linked w) {ancestors : List Ptr} (hnodup : ancestors.Nodup)
    (hmem : ∀ u ∈ ancestors, ∃ e, (w.create f ancestors).tasks.get u = some e) :
    Linked (w.added f ancestors) := by
  obtain ⟨d, hc, hfunction, hexecutor, hresult, hexception, htriggers, hsubscribers⟩ :=
    change_added f ancestors w
  have hincomplete : d.isComplete = false := by rw [TaskData.isComplete, hresult, hexception]; rfl
  refine hc.linked h ?_ (by rw [hfunction]; rfl) ?_ ?_ ?_ ?_ hnodup ?_ ?_ ?_ ?_
  · intro u hu
    rw [htriggers] at hu
    obtain ⟨e, he⟩ := hmem u hu
    by_cases hun : u = w.tasks.next
    · exact ⟨d, hun ▸ hc.self⟩
    · exact hc.mem ⟨e, (Heap.get_alloc_of_ne hun).symm.trans he⟩
  · intro _
    rw [hsubscribers]
    refine ⟨fun s hs => ?_, ?_⟩
    · obtain ⟨hcount, rfl⟩ := List.mem_replicate.mp hs
      refine ⟨d, hc.self, ?_⟩
      rw [htriggers]
      exact List.count_pos_iff.mp (Nat.pos_of_ne_zero hcount)
    · rw [List.nodup_replicate]
      exact List.nodup_iff_count_le_one.mp hnodup _
  · intro _ s e _ he hmem'
    obtain ⟨e', he'⟩ := h.triggers_mem s e he _ hmem'
    exact absurd rfl (ne_next_of_some he')
  · intro u e _ he hinc hs
    obtain ⟨e', he', -⟩ := h.waits u e he hinc _ hs
    exact absurd rfl (ne_next_of_some he')
  · intro u e _ _ _ hu
    exact .inr (htriggers ▸ hu)
  · intro u hu
    exact htriggers ▸ hu
  · intro hcomp
    rw [complete, Heap.get_of_le (Nat.le_refl _)] at hcomp
    cases hcomp
  · intro hsome
    rw [hexecutor] at hsome
    cases hsome
  · intro hcomp
    rw [hincomplete] at hcomp
    cases hcomp

theorem Sound.added (h : Sound w) {ancestors : List Ptr} (hnodup : ancestors.Nodup)
    (hmem : ∀ u ∈ ancestors, ∃ e, (w.create f ancestors).tasks.get u = some e) :
    Sound (w.added f ancestors) := by
  obtain ⟨d, hc, -, hexecutor, hresult, hexception, htriggers, -⟩ := change_added f ancestors w
  have hcomplete : ∀ u, (w.added f ancestors).complete u = w.complete u := by
    refine hc.complete_eq ?_
    rw [TaskData.isComplete, hresult, hexception, complete, Heap.get_of_le (Nat.le_refl _)]
    rfl
  have hfresh : w.tasks.next ∉ w.workQueue := by
    intro hq
    obtain ⟨e, he⟩ := h.queue_mem _ hq
    exact absurd rfl (ne_next_of_some he)
  have htriggered : (w.create f ancestors).triggered { kryoTask := some f, triggers := ancestors } =
      (w.added f ancestors).triggered d := by
    have hcreate : ∀ u, (w.added f ancestors).complete u = (w.create f ancestors).complete u :=
      fun u => complete_subscribe
    unfold triggered
    rw [htriggers]
    exact congrArg _ (funext fun u => (hcreate u).symm)
  have hqueue : (w.added f ancestors).workQueue =
      w.workQueue ++ if (w.added f ancestors).triggered d then [w.tasks.next] else [] := by
    rw [← htriggered]
    exact congrArg (· ++ _) subscribe_workQueue
  have hobtained : (w.added f ancestors).obtained = w.obtained := subscribe_obtained
  have hready : (w.added f ancestors).Ready d ↔ (w.added f ancestors).triggered d = true := by
    rw [Ready, hexecutor, hresult, hexception]
    simp
  refine h.change_enqueue hc (h.toLinked.added hnodup hmem) hcomplete hready
    (List.count_eq_zero_of_not_mem hfresh) hqueue ?_ ?_
  · intro s hs
    rw [hobtained] at hs
    obtain ⟨e, he, -⟩ := h.obtained_mem s hs
    exact ⟨ne_next_of_some he, hs⟩
  · rw [hobtained]
    exact h.obtained_nodup

/-! ## A task is taken from the queue -/

/-- What `getTask` does when it obtains the task `t` with the data `d`. -/
def started (i : ℕ) (executorName : String) (t : Ptr) (d : TaskData F V) (w : TaskWorld F V) :
    TaskWorld F V :=
  { tasks := w.tasks.set t (some { d with executorId := some executorName })
    workQueue := w.workQueue.eraseIdx i
    obtained := t :: w.obtained }

/-- There may be no task at a place of the queue. -/
theorem getTask_none {i : ℕ} (executorName : String) (hi : w.workQueue[i]? = none) :
    StmExecutionQueue.getTask i executorName w = .ok (none, w) := by
  rw [StmExecutionQueue.getTask, bind_ok (b := w) (r := w) rfl, hi]
  rfl

/-- A queued task is ready, and is obtained by whoever takes it. -/
theorem Sound.getTask_some (h : Sound w) {i : ℕ} (executorName : String)
    (hi : w.workQueue[i]? = some t) :
    ∃ d f, w.tasks.get t = some d ∧ d.kryoTask = some f ∧ w.Ready d ∧
      StmExecutionQueue.getTask i executorName w =
        .ok (some (t, f), { w.started i executorName t d with obtained := w.obtained }) := by
  have hmem : t ∈ w.workQueue := List.mem_of_getElem? hi
  obtain ⟨d, hd⟩ := h.queue_mem t hmem
  have hready : w.Ready d := by
    by_contra hnot
    have hcount := h.queued t d hd
    rw [if_neg hnot] at hcount
    exact List.count_eq_zero.mp hcount hmem
  obtain ⟨f, hf⟩ := Option.isSome_iff_exists.mp (h.function t d hd)
  refine ⟨d, f, hd, hf, hready, ?_⟩
  obtain ⟨hexecutor, hresult, hexception, -⟩ := hready
  rw [StmExecutionQueue.getTask, bind_ok (b := w) (r := w) rfl, hi]
  dsimp only
  rw [bind_ok (b := ⟨⟩) (r := { w with workQueue := w.workQueue.eraseIdx i }) rfl]
  have hobtain : Task.obtainTask executorName t { w with workQueue := w.workQueue.eraseIdx i } =
      .ok (some f, { w.started i executorName t d with obtained := w.obtained }) := by
    have hfilter : (d.kryoTask.filter fun _ =>
        d.executorId.isNone && d.result.isNone && d.exception.isNone) = some f := by
      rw [hf, hexecutor, hresult, hexception]
      rfl
    rw [Task.obtainTask,
      bind_ok (Task.read_some (w := { w with workQueue := w.workQueue.eraseIdx i }) hd)]
    dsimp only
    rw [hfilter]
    rfl
  rw [bind_ok hobtain]
  rfl

theorem Sound.getTask_cases (h : Sound w) (i : ℕ) (executorName : String) :
    w.step (.getTask i executorName) = w ∨
      ∃ t d, w.workQueue[i]? = some t ∧ w.tasks.get t = some d ∧ w.Ready d ∧
        w.step (.getTask i executorName) = w.started i executorName t d := by
  cases hi : w.workQueue[i]? with
  | none =>
    left
    rw [step, getTask_none executorName hi]
  | some t =>
    right
    obtain ⟨d, f, hd, -, hready, hget⟩ := h.getTask_some executorName hi
    refine ⟨t, d, rfl, hd, hready, ?_⟩
    rw [step, hget]
    rfl

/-- Who takes a task from the queue changes its executor. -/
theorem change_started (hd : w.tasks.get t = some d) (i : ℕ) (executorName : String) :
    Change t { d with executorId := some executorName } [] w (w.started i executorName t d) := by
  have hset := change_set (d := { d with executorId := some executorName }) (Heap.lt_next hd)
  exact ⟨hset.self, hset.other⟩

theorem Sound.getTask (h : Sound w) {i : ℕ} (executorName : String)
    (hi : w.workQueue[i]? = some t) (hd : w.tasks.get t = some d) (hready : w.Ready d) :
    Sound (w.started i executorName t d) := by
  obtain ⟨hexecutor, hresult, hexception, htriggered⟩ := hready
  have hincomplete : d.isComplete = false := by rw [TaskData.isComplete, hresult, hexception]; rfl
  have hc := change_started hd i executorName
  have hcomplete : ∀ u, (w.started i executorName t d).complete u = w.complete u :=
    hc.complete_eq (by rw [complete_some hd]; rfl)
  have hlinked : Linked (w.started i executorName t d) :=
    hc.linked_keep h.toLinked hd hincomplete htriggered rfl rfl rfl rfl
  have hcount : ∀ s, w.workQueue.count s = (if t = s then 1 else 0) +
      (w.started i executorName t d).workQueue.count s := by
    intro s
    obtain ⟨hlt, hget⟩ := List.getElem?_eq_some_iff.mp hi
    have hperm := (List.getElem_cons_eraseIdx_perm hlt).count_eq s
    rw [hget, List.count_cons] at hperm
    rw [← hperm, Nat.add_comm]
    simp only [beq_iff_eq]
    rfl
  refine ⟨hlinked, ?_, ?_, ?_, ?_⟩
  · exact fun s hs => hc.mem (h.queue_mem s (List.mem_of_mem_eraseIdx hs))
  · intro s e he
    have hs := hcount s
    rcases hc.of_get he with ⟨rfl, rfl⟩ | ⟨hst, e₀, he₀, rfl⟩
    · rw [if_pos rfl, h.queued s d hd, if_pos ⟨hexecutor, hresult, hexception, htriggered⟩] at hs
      rw [if_neg fun hr => by cases hr.1]
      omega
    · rw [if_neg (Ne.symm hst), Nat.zero_add, h.queued s e₀ he₀] at hs
      rw [← hs]
      exact if_congr (ready_congr rfl rfl rfl rfl fun u _ => hcomplete u).symm rfl rfl
  · intro s hs
    rcases List.mem_cons.mp hs with rfl | hs
    · exact ⟨_, hc.self, rfl, hincomplete⟩
    · by_cases hst : s = t
      · subst hst
        exact ⟨_, hc.self, rfl, hincomplete⟩
      · exact hc.running hst (h.obtained_mem s hs)
  · refine List.nodup_cons.mpr ⟨fun hmem => ?_, h.obtained_nodup⟩
    obtain ⟨e, he, hexec, -⟩ := h.obtained_mem t hmem
    cases hd.symm.trans he
    rw [hexecutor] at hexec
    cases hexec

/-! ## A task is completed -/

/-- The task `t` gets the data `d`, and every subscriber that can run then is queued. -/
def settle (t : Ptr) (d : TaskData F V) (subscribers : List Ptr) (w : TaskWorld F V) :
    TaskWorld F V :=
  let w' := { w with tasks := w.tasks.set t (some d) }
  w'.enqueue (subscribers.filter w'.runnable)

theorem change_settle (hd : w.tasks.get t = some d) {obtained : List Ptr} :
    Change t e [] w { w.settle t e l with obtained := obtained } := by
  have hset := change_set (d := e) (Heap.lt_next hd)
  exact ⟨hset.self, hset.other⟩

theorem Sound.obtained_some (h : Sound w) (ht : t ∈ w.obtained) (hd : w.tasks.get t = some d) :
    d.executorId.isSome ∧ d.isComplete = false ∧ w.triggered d = true := by
  obtain ⟨d', hd', hexecutor, hincomplete⟩ := h.obtained_mem t ht
  cases hd.symm.trans hd'
  exact ⟨hexecutor, hincomplete, h.started t d hd hexecutor⟩

/-- A task that was obtained is not in the queue. -/
theorem Sound.not_mem_queue (h : Sound w) (ht : t ∈ w.obtained) (hd : w.tasks.get t = some d) :
    w.workQueue.count t = 0 := by
  rw [h.queued t d hd, if_neg]
  intro hready
  have := (h.obtained_some ht hd).1
  rw [hready.1] at this
  cases this

theorem Sound.mem_obtained_erase (h : Sound w) (hs : s ∈ w.obtained.erase t) :
    s ≠ t ∧ s ∈ w.obtained :=
  (List.Nodup.mem_erase_iff h.obtained_nodup).mp hs

/-- A task succeeds or fails: its data `d'` differ from `d` in the result and the exception. -/
theorem Sound.settle (h : Sound w) (ht : t ∈ w.obtained) (hd : w.tasks.get t = some d)
    {d' : TaskData F V} (hfunction : d'.kryoTask = d.kryoTask)
    (hexecutor : d'.executorId = d.executorId) (htriggers : d'.triggers = d.triggers)
    (hsubscribers : d'.subscribers = d.subscribers) :
    Sound { w.settle t d' d.subscribers with obtained := w.obtained.erase t } := by
  obtain ⟨hexec, hincomplete, htriggered⟩ := h.obtained_some ht hd
  have hself : t ∉ d.subscribers := h.not_mem_subscribers hd hexec hd hincomplete
  have hc : Change t d' [] w { w with tasks := w.tasks.set t (some d') } :=
    change_set (Heap.lt_next hd)
  have hwaits : ∀ s ∈ d.subscribers, ∃ e, w.tasks.get s = some e ∧ t ∈ e.triggers :=
    h.waits t d hd hincomplete
  have hlinked : Linked { w with tasks := w.tasks.set t (some d') } :=
    hc.linked_keep h.toLinked hd hincomplete htriggered hfunction htriggers hsubscribers
      (hexecutor ▸ hexec)
  refine ⟨hlinked.of_tasks rfl, ?_, ?_, ?_, h.obtained_nodup.erase t⟩
  · intro s hs
    rcases List.mem_append.mp hs with hs | hs
    · exact hc.mem (h.queue_mem s hs)
    · obtain ⟨e, he, -⟩ := hwaits s (List.mem_filter.mp hs).1
      exact hc.mem ⟨e, he⟩
  · intro s e he
    show (w.workQueue ++ _).count s = _
    rw [List.count_append]
    rcases hc.of_get he with ⟨rfl, rfl⟩ | ⟨hst, e₀, he₀, heq⟩
    · rw [h.not_mem_queue ht hd, List.count_eq_zero_of_not_mem fun hmem =>
        hself (List.mem_filter.mp hmem).1, if_neg]
      intro hready
      have := hready.1
      rw [hexecutor] at this
      rw [this] at hexec
      cases hexec
    · have heq' : e = e₀ := by rw [heq]; simp
      subst heq'
      rw [h.queued s e he₀]
      by_cases hmem : s ∈ d.subscribers
      · -- it waited for `t`, so that it was not queued, and it is now if it can run
        obtain ⟨e', he', htr⟩ := hwaits s hmem
        cases he₀.symm.trans he'
        have hcomp : w.complete t = false := by rw [complete_some hd]; exact hincomplete
        rw [if_neg (not_ready_of_mem htr hcomp), Nat.zero_add]
        have hready : Ready { w.settle t d' d.subscribers with obtained := w.obtained.erase t } e ↔
            runnable { w with tasks := w.tasks.set t (some d') } s = true :=
          h.ready_iff_runnable he₀ htr hcomp he
        rw [if_congr hready rfl rfl]
        split_ifs with hrun
        · exact List.count_eq_one_of_mem ((h.nodup t d hd hincomplete).filter _)
            (List.mem_filter.mpr ⟨hmem, hrun⟩)
        · exact List.count_eq_zero_of_not_mem fun hf => hrun (List.mem_filter.mp hf).2
      · rw [List.count_eq_zero_of_not_mem fun hf => hmem (List.mem_filter.mp hf).1, Nat.add_zero]
        refine if_congr (ready_congr rfl rfl rfl rfl fun u hu => ?_).symm rfl rfl
        by_cases hut : u = t
        · subst hut
          exact absurd (h.subscribed s e he₀ u hu (Ne.symm hst) d hd hincomplete) hmem
        · exact hc.complete_of_ne hut
  · intro s hs
    obtain ⟨hst, hs⟩ := h.mem_obtained_erase hs
    exact hc.running hst (h.obtained_mem s hs)

/-- What `complete` does when the task `t` with the data `d` goes on with other triggers. -/
def continued (t : Ptr) (d : TaskData F V) (next : F) (newTriggers : List Ptr)
    (w : TaskWorld F V) : TaskWorld F V :=
  let d' := ({ d with triggers := newTriggers, executorId := none } : TaskData F V).newTask next
  let w' := (w.subscribe t newTriggers).enqueue (if w.triggered d' then [t] else [])
  { w' with tasks := w'.tasks.set t (some d'), obtained := w.obtained.erase t }

theorem change_continued (hd : w.tasks.get t = some d) (next : F) (newTriggers : List Ptr) :
    Change t (({ d with triggers := newTriggers, executorId := none } : TaskData F V).newTask next)
      newTriggers w (w.continued t d next newTriggers) := by
  have hsome : (w.subscribe t newTriggers).tasks.get t = _ := get_subscribe
  rw [hd, Option.map_some] at hsome
  refine ⟨Heap.get_set_self (Heap.lt_next hsome), fun s hs => ?_⟩
  show ((w.subscribe t newTriggers).tasks.set t _).get s = _
  rw [Heap.get_set_of_ne hs, get_subscribe]

theorem Sound.continued (h : Sound w) (ht : t ∈ w.obtained) (hd : w.tasks.get t = some d)
    (next : F) {newTriggers : List Ptr} (hnodup : newTriggers.Nodup)
    (hmem : ∀ u ∈ newTriggers, ∃ e, w.tasks.get u = some e) :
    Sound (w.continued t d next newTriggers) := by
  obtain ⟨hexec, hincomplete, htriggered⟩ := h.obtained_some ht hd
  have hself : t ∉ d.subscribers := h.not_mem_subscribers hd hexec hd hincomplete
  have hc := change_continued hd next newTriggers
  have hcomplete : ∀ u, (w.continued t d next newTriggers).complete u = w.complete u :=
    hc.complete_eq (by rw [complete_some hd]; rfl)
  have hlinked : Linked (w.continued t d next newTriggers) := by
    refine hc.linked h.toLinked ?_ rfl ?_ ?_ ?_ ?_ hnodup ?_ ?_ ?_ ?_
    · exact fun u hu => hc.mem (hmem u hu)
    · intro _
      exact ⟨hc.waits_self (h.waits t d hd hincomplete) fun hts => absurd hts hself,
        h.nodup t d hd hincomplete⟩
    · intro _ s e hs he hts
      exact h.subscribed s e he t hts (Ne.symm hs) d hd hincomplete
    · intro u e _ he hinc hs
      exact absurd hs (h.not_mem_subscribers hd hexec he hinc)
    · intro u e _ _ _ hu
      exact .inr hu
    · intro u hu
      exact hu
    · intro hcomp
      rw [complete_some hd] at hcomp
      exact hcomp
    · intro hsome
      cases hsome
    · intro hcomp
      have hcomp' : d.isComplete = true := hcomp
      rw [hincomplete] at hcomp'
      cases hcomp'
  have htriggered' : (w.continued t d next newTriggers).triggered
      (({ d with triggers := newTriggers, executorId := none } : TaskData F V).newTask next) =
      w.triggered (({ d with triggers := newTriggers, executorId := none } :
        TaskData F V).newTask next) :=
    triggered_congr fun u _ => hcomplete u
  have hready : (w.continued t d next newTriggers).Ready
      (({ d with triggers := newTriggers, executorId := none } : TaskData F V).newTask next) ↔
      (w.continued t d next newTriggers).triggered
        (({ d with triggers := newTriggers, executorId := none } : TaskData F V).newTask next) =
          true := by
    obtain ⟨hresult, hexception⟩ : d.result = none ∧ d.exception = none := by
      simpa [TaskData.isComplete] using hincomplete
    exact ⟨fun hr => hr.2.2.2, fun hr => ⟨rfl, hresult, hexception, hr⟩⟩
  refine h.change_enqueue hc hlinked hcomplete hready (h.not_mem_queue ht hd) ?_
    (fun s hs => h.mem_obtained_erase hs) (h.obtained_nodup.erase t)
  show (w.subscribe t newTriggers).workQueue ++ _ = _
  rw [subscribe_workQueue, htriggered']

/-- No subscriber of a task that goes on can run. -/
theorem Sound.not_runnable_continued (h : Sound w) (ht : t ∈ w.obtained)
    (hd : w.tasks.get t = some d) (next : F) (newTriggers : List Ptr) :
    ∀ s ∈ d.subscribers, ∃ e, (w.continued t d next newTriggers).tasks.get s = some e ∧
      (w.continued t d next newTriggers).runnable s = false := by
  intro s hs
  obtain ⟨hexec, hincomplete, -⟩ := h.obtained_some ht hd
  have hself : t ∉ d.subscribers := h.not_mem_subscribers hd hexec hd hincomplete
  have hc := change_continued hd next newTriggers
  obtain ⟨e, he, hts⟩ :=
    hc.waits_self (h.waits t d hd hincomplete) (fun hmem => absurd hmem hself) s hs
  refine ⟨e, he, ?_⟩
  rw [runnable, he, Option.any_some, Bool.eq_false_iff, Ne, triggered_iff]
  intro hall
  have hcomp := hall t hts
  rw [hc.complete_self] at hcomp
  have hcomp' : d.isComplete = true := hcomp
  rw [hincomplete] at hcomp'
  cases hcomp'

/-- Completing a task with a success or a failure settles it. -/
theorem Sound.step_settle (h : Sound w) (ht : t ∈ w.obtained) (hd : w.tasks.get t = some d)
    {r : Except Failure (TaskResult F V)} {d' : TaskData F V}
    (hupdate : Task.update t d r w = .ok (d', w)) :
    w.step (.complete t r) =
      { w.settle t d' d.subscribers with obtained := w.obtained.erase t } := by
  have hexists : ∀ s ∈ d.subscribers, ∃ e,
      ({ w with tasks := w.tasks.set t (some d') } : TaskWorld F V).tasks.get s = some e := by
    intro s hs
    obtain ⟨e, he, -⟩ := h.waits t d hd (h.obtained_some ht hd).2.1 s hs
    exact (change_set (Heap.lt_next hd)).mem ⟨e, he⟩
  have hcomplete : Task.complete t r w = .ok ((), w.settle t d' d.subscribers) := by
    rw [Task.complete, bind_ok (Task.read_some hd), bind_ok hupdate,
      bind_ok (r := { w with tasks := w.tasks.set t (some d') }) rfl,
      Task.forM_notify _ _ hexists]
    rfl
  rw [step, if_pos ht, hcomplete]
  rfl

theorem Sound.complete_settle (h : Sound w) (ht : t ∈ w.obtained) (hd : w.tasks.get t = some d)
    {r : Except Failure (TaskResult F V)} {d' : TaskData F V}
    (hupdate : Task.update t d r w = .ok (d', w)) (hexecutor : d'.executorId = d.executorId)
    (hfunction : d'.kryoTask = d.kryoTask) (htriggers : d'.triggers = d.triggers)
    (hsubscribers : d'.subscribers = d.subscribers) : Sound (w.step (.complete t r)) := by
  rw [h.step_settle ht hd hupdate]
  exact h.settle ht hd hfunction hexecutor htriggers hsubscribers

/-- A task goes on, if its new triggers exist. -/
theorem Sound.step_continue (h : Sound w) (ht : t ∈ w.obtained) (hd : w.tasks.get t = some d)
    (next : F) {newTriggers : List Ptr} (hmem : ∀ u ∈ newTriggers, ∃ e, w.tasks.get u = some e) :
    w.step (.complete t (.ok (.taskContinue next newTriggers))) =
      w.continued t d next newTriggers := by
  have hupdate : Task.update t d (.ok (.taskContinue next newTriggers)) w = _ :=
    Task.initTriggers_some w t _ hmem
  have hcomplete : Task.complete t (.ok (.taskContinue next newTriggers)) w =
      .ok ((), { w.continued t d next newTriggers with obtained := w.obtained }) := by
    rw [Task.complete, bind_ok (Task.read_some hd), bind_ok hupdate,
      bind_ok (r := { w.continued t d next newTriggers with obtained := w.obtained })
        (by rw [← subscribe_obtained (w := w)]; rfl),
      Task.forM_notify]
    · rw [List.filter_eq_nil_iff.mpr, enqueue_nil]
      intro s hs
      obtain ⟨e, -, hrun⟩ := h.not_runnable_continued ht hd next newTriggers s hs
      exact fun htrue => absurd (hrun.symm.trans htrue) Bool.false_ne_true
    · intro s hs
      obtain ⟨e, he, -⟩ := h.not_runnable_continued ht hd next newTriggers s hs
      exact ⟨e, he⟩
  rw [step, if_pos ht, hcomplete]
  rfl

/-- A task does not go on if its new triggers do not exist. -/
theorem step_not_continue (hd : w.tasks.get t = some d) (next : F) {newTriggers : List Ptr}
    (hmem : ¬∀ u ∈ newTriggers, ∃ e, w.tasks.get u = some e) :
    w.step (.complete t (.ok (.taskContinue next newTriggers))) = w := by
  push Not at hmem
  obtain ⟨u, hu, hnone⟩ := hmem
  obtain ⟨e, he⟩ := Task.initTriggers_none w t
    (({ d with triggers := newTriggers, executorId := none } : TaskData F V).newTask next)
    ⟨u, hu, Option.eq_none_iff_forall_ne_some.mpr hnone⟩
  have hupdate : Task.update t d (.ok (.taskContinue next newTriggers)) w = _ := he
  rw [step, Task.complete, bind_ok (Task.read_some hd), bind_error hupdate]
  exact ite_self w

theorem Sound.complete_continue (h : Sound w) (ht : t ∈ w.obtained) (hd : w.tasks.get t = some d)
    (next : F) {newTriggers : List Ptr} (hnodup : newTriggers.Nodup) :
    Sound (w.step (.complete t (.ok (.taskContinue next newTriggers)))) := by
  by_cases hmem : ∀ u ∈ newTriggers, ∃ e, w.tasks.get u = some e
  · rw [h.step_continue ht hd next hmem]
    exact h.continued ht hd next hnodup hmem
  · rw [step_not_continue hd next hmem]
    exact h

end TaskWorld

/-- The triggers that the step gives to a task are distinct. -/
def TaskAction.Distinct : TaskAction F V → Prop
  | .add _ ancestors => ancestors.Nodup
  | .complete _ (.ok (.taskContinue _ newTriggers)) => newTriggers.Nodup
  | _ => True

namespace TaskWorld

variable {w : TaskWorld F V}

theorem Sound.step (h : Sound w) (a : TaskAction F V) (ha : a.Distinct) : Sound (w.step a) := by
  cases a with
  | add f ancestors =>
    rw [TaskWorld.step]
    rcases add_cases f ancestors w with ⟨hmem, hok⟩ | ⟨e, he⟩
    · rw [hok]
      exact h.added ha hmem
    · rw [he]
      exact h
  | getTask i executorName =>
    rcases h.getTask_cases i executorName with heq | ⟨t, d, hi, hd, hready, heq⟩
    · rw [heq]
      exact h
    · rw [heq]
      exact h.getTask executorName hi hd hready
  | complete t r =>
    by_cases ht : t ∈ w.obtained
    · obtain ⟨d, hd, -⟩ := h.obtained_mem t ht
      cases r with
      | error e => exact h.complete_settle ht hd rfl rfl rfl rfl rfl
      | ok r =>
        cases r with
        | taskSuccess v => exact h.complete_settle ht hd rfl rfl rfl rfl rfl
        | taskContinue next newTriggers => exact h.complete_continue ht hd next ha
    · rw [TaskWorld.step, if_neg ht]
      exact h

theorem sound_empty : Sound ({} : TaskWorld F V) := by
  have hnone : ∀ s d, ({} : TaskWorld F V).tasks.get s = some d → False := by
    intro s d hd
    rw [Heap.get_empty] at hd
    cases hd
  refine ⟨⟨?_, ?_, ?_, ?_, ?_, ?_, ?_⟩, ?_, ?_, ?_, List.nodup_nil⟩
  all_goals intro s
  · exact fun d hd => (hnone s d hd).elim
  · exact fun d hd => (hnone s d hd).elim
  · exact fun d hd => (hnone s d hd).elim
  · exact fun d hd => (hnone s d hd).elim
  · exact fun d hd => (hnone s d hd).elim
  · exact fun d hd => (hnone s d hd).elim
  · exact fun d hd => (hnone s d hd).elim
  · exact fun hs => absurd hs List.not_mem_nil
  · exact fun d hd => (hnone s d hd).elim
  · exact fun hs => absurd hs List.not_mem_nil

theorem sound_run {as : List (TaskAction F V)} (h : ∀ a ∈ as, a.Distinct) :
    Sound (run step ({} : TaskWorld F V) as) :=
  (along_of_mem h).invariant (fun _ a hs ha => hs.step a ha) sound_empty

end TaskWorld

end ReSTM
