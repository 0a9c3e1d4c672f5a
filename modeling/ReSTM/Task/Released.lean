import ReSTM.Task.Notifications
import ReSTM.Task.Triggers

/-!
# Released tasks in the lists of the work queue

The system of `stm/task/Task.scala` and `StmExecutionQueue` with the lists of the work queue
(`stm/task/TaskQueue.scala`). A transaction shuffles the lists, and adds to the first that it can
lock, or takes from it: that list is drawn, if there is one. The notifications of a completion
overlap in any way. An operation that fails, or whose notifications do not all come to their end,
has changed nothing.

Two subscribers that a completion releases to the same list may both find the header as it was
before: one of them is then in no list, and nobody runs it (`released_lost`).

* `add_eq_addTo`, `takeMin_eq_takeFrom`: `add` and `take(1)` by the list that is drawn.
* `simulated`: while released subscribers go to different lists, the system does what the one of
  `Task.lean` does.
* `queued_iff_ready`: a task is then in the lists once if it is ready, and not at all otherwise.
-/

namespace ReSTM

open HeapModel Transition WP

/-! ## The list that is drawn -/

namespace MultiQueueData

variable {T K : Type}

/-- The first of the shuffled lists that can be locked. -/
def drawn (m : MultiQueueData T K) (c : Chance) : Option ℕ :=
  ((m.shuffledLists c).find? fun i : Fin m.queues.length => c.queueLocked i).map Fin.val

variable [BEq T]

/-- `add` to the list that is drawn. -/
def addTo (value : T) (queues : List (LinkedList T)) (list : Option ℕ) :
    Except Failure (List (LinkedList T)) :=
  match list.bind fun i => queues[i]?.map (i, ·) with
  | some (i, head) => do
    let (_, head) ← head.add value
    return queues.set i head
  | none => throw (.transactionConflict "Could not lock any queue" none)

/-- `take(1)` from the list that is drawn. -/
def takeFrom (queues : List (LinkedList T)) (list : Option ℕ) :
    Except Failure (Option T × List (LinkedList T)) :=
  match list.bind fun i => queues[i]?.map (i, ·) with
  | some (i, head) => do
    let (opt, head) ← head.remove
    return match opt with
      | some x => (some x, queues.set i head)
      | none => (none, queues)
  | none => throw (.transactionConflict "Could not confirm emptiness of 1" none)

variable {queues : List (LinkedList T)}

theorem addFirst_eq_addTo (locked : ℕ → Bool) (value : T) (l : List (Fin queues.length)) :
    addFirst locked value queues l =
      addTo value queues ((l.find? fun i : Fin queues.length => locked i).map Fin.val) := by
  induction l with
  | nil => rfl
  | cons i l ih =>
    rw [addFirst, List.find?_cons]
    cases hlock : locked i with
    | false => exact ih
    | true =>
      have hget : queues[i.val]? = some (queues.get i) := List.getElem?_eq_getElem i.isLt
      simp only [addTo, Option.map_some, Option.bind_some, hget, if_true]

theorem takeFirst_eq_takeFrom (locked : ℕ → Bool) (l : List (Fin queues.length)) :
    takeFirst locked 1 queues l 1 =
      takeFrom queues ((l.find? fun i : Fin queues.length => locked i).map Fin.val) := by
  induction l with
  | nil => rfl
  | cons i l ih =>
    rw [takeFirst, List.find?_cons]
    cases hlock : locked i with
    | false => exact ih
    | true =>
      have hget : queues[i.val]? = some (queues.get i) := List.getElem?_eq_getElem i.isLt
      simp only [takeFrom, Option.map_some, Option.bind_some, hget, if_true, le_refl]
      cases (queues.get i).remove with
      | error e => rfl
      | ok res =>
        obtain ⟨opt, head⟩ := res
        cases opt <;> rfl

theorem add_eq_addTo (m : MultiQueueData T K) (c : Chance) (value : T) :
    m.add c value = (addTo value m.queues (m.drawn c)).map fun queues =>
      { m with queues := queues } := by
  rw [add, addFirst_eq_addTo]
  show (addTo value m.queues (m.drawn c) >>= _) = _
  cases addTo value m.queues (m.drawn c) <;> rfl

theorem takeMin_eq_takeFrom (m : MultiQueueData T K) (c : Chance) (hm : m.queues ≠ []) :
    m.takeMin c 1 = (takeFrom m.queues (m.drawn c)).map fun r =>
      (r.1, { m with queues := r.2 }) := by
  have hlength : (1 : ℤ) ≤ m.queues.length := by
    have := List.length_pos_iff.mpr hm
    omega
  rw [takeMin_eq c hlength, takeFirst_eq_takeFrom]
  rfl

/-- A value is added to one list. -/
theorem addTo_spec {subs : List (List T)} (hq : List.Forall₂ LinkedList.Represents queues subs)
    (value : T) (list : Option ℕ) :
    (∃ e, addTo value queues list = .error e) ∨
      ∃ queues' subs', addTo value queues list = .ok queues' ∧
        List.Forall₂ LinkedList.Represents queues' subs' ∧
        subs'.flatten.Perm (value :: subs.flatten) := by
  unfold addTo
  cases hlist : list.bind fun i => queues[i]?.map (i, ·) with
  | none => exact .inl ⟨_, rfl⟩
  | some r =>
    obtain ⟨i, -, hr⟩ := Option.bind_eq_some_iff.mp hlist
    obtain ⟨head, hget, rfl⟩ := Option.map_eq_some_iff.mp hr
    obtain ⟨hlt, rfl⟩ := List.getElem?_eq_some_iff.mp hget
    obtain ⟨head', subs', hadd, hq', hperm⟩ := LinkedList.exists_added hq hlt value
    refine .inr ⟨_, subs', ?_, hq', hperm⟩
    show (queues[i].add value >>= _) = _
    rw [hadd]
    rfl

/-- A value is taken from one list. -/
theorem takeFrom_spec {subs : List (List T)} (hq : List.Forall₂ LinkedList.Represents queues subs)
    (list : Option ℕ) :
    (∃ e, takeFrom queues list = .error e) ∨ takeFrom queues list = .ok (none, queues) ∨
      ∃ x queues' subs', takeFrom queues list = .ok (some x, queues') ∧
        List.Forall₂ LinkedList.Represents queues' subs' ∧
        subs.flatten.Perm (x :: subs'.flatten) := by
  unfold takeFrom
  cases hlist : list.bind fun i => queues[i]?.map (i, ·) with
  | none => exact .inl ⟨_, rfl⟩
  | some r =>
    obtain ⟨i, -, hr⟩ := Option.bind_eq_some_iff.mp hlist
    obtain ⟨head, hget, rfl⟩ := Option.map_eq_some_iff.mp hr
    obtain ⟨hlt, rfl⟩ := List.getElem?_eq_some_iff.mp hget
    obtain ⟨q₁, q₂, s₁, xs, s₂, rfl, hxs, h₁, h₂, hset⟩ := exists_of_forall₂ hq ⟨i, hlt⟩
    right
    cases xs with
    | nil =>
      left
      show (queues[i].remove >>= _) = _
      rw [show queues[i].remove = _ from LinkedList.remove_spec_nil hxs]
      rfl
    | cons x xs =>
      obtain ⟨head', hrem, hhead⟩ := LinkedList.remove_spec hxs
      refine .inr ⟨x, _, _, ?_, hset head' ▸ forall₂_insert h₁ hhead h₂, ?_⟩
      · show (queues[i].remove >>= _) = _
        rw [show queues[i].remove = _ from hrem]
        rfl
      · simp only [List.flatten_append, List.flatten_cons, List.cons_append]
        exact List.perm_middle

end MultiQueueData

/-! ## The system -/

variable {F V : Type}

/-- `complete` (lines 236–253) before it tells the subscribers, which are its value. -/
def Task.record (root : Ptr) (result : Except Failure (TaskResult F V)) :
    TaskTxn F V (List Ptr) := do
  let currentState ← Task.read root
  let update ← Task.update root currentState result
  Task.write root update
  return currentState.subscribers

/-- The tasks and the lists of the work queue. `obtained` are the tasks that an executor has
    obtained and not completed. -/
structure QueueWorld (F V : Type) where
  tasks : Heap (TaskData F V) := {}
  queues : List (LinkedList Ptr)
  obtained : List Ptr := []

/-- One step. `list` is the list that is drawn, if any can be locked, and `lists` are those that the
    notifications draw; their steps come in the order `schedule`. -/
inductive QueueAction (F V : Type) where
  | add (f : F) (ancestors : List Ptr) (list : Option ℕ)
  | getTask (list : Option ℕ) (executorName : String)
  | complete (task : Ptr) (result : Except Failure (TaskResult F V)) (list : Option ℕ)
      (lists : ℕ → Option ℕ) (schedule : List ℕ)

/-- The step without the lists; `i` is the place of what it takes. -/
def QueueAction.task (i : ℕ) : QueueAction F V → TaskAction F V
  | .add f ancestors _ => .add f ancestors
  | .getTask _ executorName => .getTask i executorName
  | .complete t r _ _ _ => .complete t r

/-- The triggers that the step gives to a task are distinct. -/
def QueueAction.Distinct (a : QueueAction F V) : Prop := (a.task 0).Distinct

namespace QueueWorld

open MultiQueueData Notifying

/-- The tasks, with a queue that takes what is to be added to a list. -/
def world (w : QueueWorld F V) : TaskWorld F V := { tasks := w.tasks, obtained := w.obtained }

/-- A work queue with `size` lists, and no task. -/
def start (size : ℕ) : QueueWorld F V := { queues := List.replicate size .create }

/-- `stream` of the work queue (`stm/task/TaskQueue.scala`, lines 210–221). -/
def stream (w : QueueWorld F V) : Except Failure (List Ptr) := do
  let subStreams ← w.queues.mapM LinkedList.stream
  return subStreams.flatten

/-- Add tasks to the list that is drawn. -/
def enqueue (queues : List (LinkedList Ptr)) (list : Option ℕ) (tasks : List Ptr) :
    Except Failure (List (LinkedList Ptr)) :=
  tasks.foldlM (fun queues task => addTo task queues list) queues

/-- The subscribers, with the list that each of them draws. -/
def jobs (size : ℕ) (lists : ℕ → Option ℕ) (subscribers : List Ptr) : List (Ptr × Option ℕ) :=
  subscribers.zipIdx.map fun s => (s.1, (lists s.2).filter (· < size))

def step (w : QueueWorld F V) : QueueAction F V → QueueWorld F V
  | .add f ancestors list =>
    match StmExecutionQueue.add f ancestors w.world with
    | .ok (_, v) =>
      match enqueue w.queues list v.workQueue with
      | .ok queues => { w with tasks := v.tasks, queues := queues }
      | .error _ => w
    | .error _ => w
  | .getTask list executorName =>
    match takeFrom w.queues list with
    | .ok (some task, queues) =>
      match Task.obtainTask executorName task w.world with
      | .ok (some _, v) => { tasks := v.tasks, queues := queues, obtained := task :: w.obtained }
      | .ok (none, v) => { w with tasks := v.tasks, queues := queues }
      | .error _ => w
    | .ok (none, _) | .error _ => w
  | .complete task result list lists schedule =>
    if task ∈ w.obtained then
      match Task.record task result w.world with
      | .ok (subscribers, v) =>
        match enqueue w.queues list v.workQueue with
        | .ok queues =>
          match notified v (jobs queues.length lists subscribers) queues schedule with
          | some queues =>
            { tasks := v.tasks, queues := queues, obtained := w.obtained.erase task }
          | none => w
        | .error _ => w
      | .error _ => w
    else w

/-! ## When released subscribers go to different lists -/

/-- The outcome makes the task complete. -/
def completes : Except Failure (TaskResult F V) → Bool
  | .ok (.taskSuccess success) => success.isSome
  | .ok (.taskContinue _ _) => false
  | .error _ => true

/-- All that the task `s` waits for is `t`, and `t` gets the outcome `r`. -/
def releases (w : QueueWorld F V) (t : Ptr) (r : Except Failure (TaskResult F V)) (s : Ptr) :
    Bool :=
  completes r &&
    (w.tasks.get s).any fun d => d.triggers.all fun u => decide (u = t) || w.world.complete u

/-- No two subscribers that a completion releases draw the same list. -/
def ReleasesApart (w : QueueWorld F V) : QueueAction F V → Prop
  | .complete t r _ lists _ =>
    (jobs w.queues.length lists (((w.tasks.get t).map (·.subscribers)).getD [])).Pairwise
      fun a b => w.releases t r a.1 = true → w.releases t r b.1 = true → a.2 = b.2 → a.2 = none
  | _ => True

instance (w : QueueWorld F V) : ∀ a, Decidable (w.ReleasesApart a)
  | .complete t r _ lists _ =>
    inferInstanceAs (Decidable
      ((jobs w.queues.length lists (((w.tasks.get t).map (·.subscribers)).getD [])).Pairwise
        fun a b => w.releases t r a.1 = true → w.releases t r b.1 = true → a.2 = b.2 → a.2 = none))
  | .add _ _ _ | .getTask _ _ => inferInstanceAs (Decidable True)

/-- A completion releases one subscriber at most. -/
def ReleasesOne (w : QueueWorld F V) : QueueAction F V → Prop
  | .complete t r _ _ _ =>
    ((((w.tasks.get t).map (·.subscribers)).getD []).filter (w.releases t r)).length ≤ 1
  | _ => True

instance (w : QueueWorld F V) : ∀ a, Decidable (w.ReleasesOne a)
  | .complete t r _ _ _ =>
    inferInstanceAs (Decidable
      (((((w.tasks.get t).map (·.subscribers)).getD []).filter (w.releases t r)).length ≤ 1))
  | .add _ _ _ | .getTask _ _ => inferInstanceAs (Decidable True)

variable {w : QueueWorld F V} {v : TaskWorld F V} {t s : Ptr} {d : TaskData F V}
  {queues : List (LinkedList Ptr)} {subs : List (List Ptr)} {l : List Ptr}

theorem jobs_tasks (size : ℕ) (lists : ℕ → Option ℕ) (l : List Ptr) :
    (jobs size lists l).map Prod.fst = l := by
  rw [jobs, List.map_map]
  exact List.zipIdx_map_fst 0 l

theorem jobs_lt {size : ℕ} {lists : ℕ → Option ℕ} {job : Ptr × Option ℕ}
    (hjob : job ∈ jobs size lists l) {i : ℕ} (hi : job.2 = some i) : i < size := by
  obtain ⟨p, -, rfl⟩ := List.mem_map.mp hjob
  exact of_decide_eq_true (Option.filter_eq_some_iff.mp hi).2

theorem mem_of_mem_jobs {size : ℕ} {lists : ℕ → Option ℕ} {job : Ptr × Option ℕ}
    (hjob : job ∈ jobs size lists l) : job.1 ∈ l := by
  have hmem := List.mem_map_of_mem (f := Prod.fst) hjob
  rwa [jobs_tasks] at hmem

theorem ReleasesOne.apart {a : QueueAction F V} (h : w.ReleasesOne a) : w.ReleasesApart a := by
  cases a with
  | add | getTask => trivial
  | complete t r list lists schedule =>
    refine List.pairwise_iff_forall_sublist.mpr fun {a b} hab ha hb => ?_
    have hsub := (hab.map Prod.fst).filter (w.releases t r)
    rw [jobs_tasks, List.map_cons, List.map_cons, List.map_nil, List.filter_cons_of_pos ha,
      List.filter_cons_of_pos hb] at hsub
    exact absurd (hsub.length_le.trans h) (by simp)

theorem enqueue_spec (hq : List.Forall₂ LinkedList.Represents queues subs) (list : Option ℕ)
    (l : List Ptr) : (∃ e, enqueue queues list l = .error e) ∨
      ∃ queues' subs', enqueue queues list l = .ok queues' ∧
        List.Forall₂ LinkedList.Represents queues' subs' ∧ subs'.flatten.Perm (l ++ subs.flatten) := by
  induction l generalizing queues subs with
  | nil => exact .inr ⟨queues, subs, rfl, hq, .refl _⟩
  | cons x l ih =>
    rcases addTo_spec hq x list with ⟨e, he⟩ | ⟨q₁, s₁, hadd, hq₁, hperm⟩
    · refine .inl ⟨e, ?_⟩
      show (addTo x queues list >>= _) = _
      rw [he]
      rfl
    · have hcons : enqueue queues list (x :: l) = enqueue q₁ list l := by
        show (addTo x queues list >>= _) = _
        rw [hadd]
        rfl
      rw [hcons]
      rcases ih hq₁ with herror | ⟨q₂, s₂, hok, hq₂, hperm₂⟩
      · exact .inl herror
      · refine .inr ⟨q₂, s₂, hok, hq₂, hperm₂.trans ((hperm.append_left l).trans ?_)⟩
        exact List.perm_middle

/-! ## The system with a plain queue -/

/-- The lists hold what is in the queue. -/
structure Refines (w : QueueWorld F V) (v : TaskWorld F V) : Prop where
  tasks : w.tasks = v.tasks
  obtained : w.obtained = v.obtained
  queues : ∃ subs, List.Forall₂ LinkedList.Represents w.queues subs ∧
    v.workQueue.Perm subs.flatten

theorem refines_start (size : ℕ) : Refines (start size : QueueWorld F V) {} := by
  refine ⟨rfl, rfl, List.replicate size [], ?_, ?_⟩
  · show List.Forall₂ _ (List.replicate size _) _
    induction size with
    | zero => exact .nil
    | succ n ih => exact .cons LinkedList.represents_create ih
  · rw [List.flatten_replicate_nil]

/-- What is queued by a transaction that is run with an empty queue. -/
theorem subscribe_frame (v : TaskWorld F V) (q : List Ptr) (t : Ptr) (l : List Ptr) :
    ({ v with workQueue := q } : TaskWorld F V).subscribe t l =
      { v.subscribe t l with workQueue := q } := by
  induction l generalizing v with
  | nil => rfl
  | cons u l ih =>
    rw [TaskWorld.subscribe_cons, TaskWorld.subscribe_cons]
    exact ih { v with
      tasks := v.tasks.set u <|
        (v.tasks.get u).map fun d => { d with subscribers := d.subscribers ++ [t] } }

theorem added_frame (f : F) (ancestors : List Ptr) (v : TaskWorld F V) (q : List Ptr) :
    ({ v with workQueue := q } : TaskWorld F V).added f ancestors =
      { v.added f ancestors with
        workQueue := q ++ if (v.create f ancestors).triggered
          { kryoTask := some f, triggers := ancestors } then [v.tasks.next] else [] } := by
  show (({ v.create f ancestors with workQueue := q } : TaskWorld F V).subscribe _ _).enqueue _ = _
  rw [subscribe_frame]
  rfl

theorem Refines.world (h : Refines w v) : w.world = { v with workQueue := [] } := by
  rw [QueueWorld.world, h.tasks, h.obtained]

/-- A transaction that adds the tasks `l` to a list. -/
theorem Refines.enqueue (h : Refines w v) (list : Option ℕ) (l : List Ptr) :
    (∃ e, enqueue w.queues list l = .error e) ∨
      ∃ queues, enqueue w.queues list l = .ok queues ∧
        ∀ v' : TaskWorld F V, v'.workQueue = v.workQueue ++ l →
          Refines { tasks := v'.tasks, queues := queues, obtained := v'.obtained } v' := by
  obtain ⟨subs, hq, hperm⟩ := h.queues
  rcases enqueue_spec hq list l with herror | ⟨queues, subs', hok, hq', hperm'⟩
  · exact .inl herror
  · refine .inr ⟨queues, hok, fun v' hv' => ⟨rfl, rfl, subs', hq', ?_⟩⟩
    rw [hv']
    exact (hperm.append_right l).trans (List.perm_append_comm.trans hperm'.symm)

theorem Refines.add (h : Refines w v) (f : F) (ancestors : List Ptr) (list : Option ℕ) :
    Refines (w.step (.add f ancestors list)) v ∨
      Refines (w.step (.add f ancestors list)) (v.step (.add f ancestors)) := by
  rw [step, h.world]
  rcases TaskWorld.add_cases f ancestors { v with workQueue := [] } with ⟨hmem, hok⟩ | ⟨e, he⟩
  · rw [hok]
    dsimp only
    rw [added_frame, TaskWorld.step, TaskWorld.add_some f ancestors v hmem]
    rcases h.enqueue list (if (v.create f ancestors).triggered
        { kryoTask := some f, triggers := ancestors } then [v.tasks.next] else []) with
      ⟨e, he⟩ | ⟨queues, henqueue, hrefines⟩
    · left
      rw [List.nil_append, he]
      exact h
    · right
      rw [List.nil_append, henqueue]
      have hadded := hrefines (v.added f ancestors) (congrArg (· ++ _) TaskWorld.subscribe_workQueue)
      rw [show (v.added f ancestors).obtained = v.obtained from TaskWorld.subscribe_obtained,
        ← h.obtained] at hadded
      exact hadded
  · rw [he]
    exact .inl h

/-- A ready task is obtained. -/
theorem obtainTask_ready {f : F} (hd : v.tasks.get t = some d) (hf : d.kryoTask = some f)
    (hready : v.Ready d) (executorName : String) (q : List Ptr) :
    Task.obtainTask executorName t { v with workQueue := q } =
      .ok (some f, { v with
        tasks := v.tasks.set t (some { d with executorId := some executorName })
        workQueue := q }) := by
  obtain ⟨hexecutor, hresult, hexception, -⟩ := hready
  have hfilter : (d.kryoTask.filter fun _ =>
      d.executorId.isNone && d.result.isNone && d.exception.isNone) = some f := by
    rw [hf, hexecutor, hresult, hexception]
    rfl
  rw [Task.obtainTask, bind_ok (Task.read_some (w := { v with workQueue := q }) hd), hfilter]
  rfl

/-- Whatever is taken from a list was at some place of the queue. -/
theorem Refines.getTask_some (h : Refines w v) (hv : TaskWorld.Sound v) {list : Option ℕ}
    (hsome : takeFrom w.queues list = .ok (some t, queues)) (executorName : String) :
    ∃ i, v.workQueue[i]? = some t ∧
      Refines (w.step (.getTask list executorName)) (v.step (.getTask i executorName)) := by
  obtain ⟨subs, hq, hperm⟩ := h.queues
  rcases takeFrom_spec hq list with ⟨e, he⟩ | hnone | ⟨x, queues', subs', hsome', hq', htaken⟩
  · cases hsome.symm.trans he
  · cases hsome.symm.trans hnone
  · cases hsome.symm.trans hsome'
    have ht : t ∈ v.workQueue := (hperm.trans htaken).mem_iff.mpr List.mem_cons_self
    obtain ⟨i, hi⟩ := List.mem_iff_getElem?.mp ht
    obtain ⟨d, f, hd, hf, hready, hget⟩ := hv.getTask_some executorName hi
    refine ⟨i, hi, ?_⟩
    rw [step, h.world, hsome, TaskWorld.step, hget]
    dsimp only
    rw [obtainTask_ready hd hf hready]
    refine ⟨rfl, congrArg (t :: ·) h.obtained, subs', hq', ?_⟩
    obtain ⟨hlt, hget'⟩ := List.getElem?_eq_some_iff.mp hi
    have herase := List.getElem_cons_eraseIdx_perm hlt
    rw [hget'] at herase
    exact (herase.trans (hperm.trans htaken)).cons_inv

theorem Refines.getTask (h : Refines w v) (hv : TaskWorld.Sound v) (list : Option ℕ)
    (executorName : String) :
    Refines (w.step (.getTask list executorName)) v ∨
      ∃ i, Refines (w.step (.getTask list executorName)) (v.step (.getTask i executorName)) := by
  cases htake : takeFrom w.queues list with
  | error e =>
    rw [step, htake]
    exact .inl h
  | ok res =>
    obtain ⟨opt, queues⟩ := res
    cases opt with
    | none =>
      rw [step, htake]
      exact .inl h
    | some t =>
      obtain ⟨i, -, hrefines⟩ := h.getTask_some hv htake executorName
      exact .inr ⟨i, hrefines⟩

/-! ### Completions -/

theorem step_complete_ok (ht : t ∈ w.obtained) {r : Except Failure (TaskResult F V)}
    {v₁ : TaskWorld F V} (hrecord : Task.record t r w.world = .ok (l, v₁)) {list : Option ℕ}
    (henqueue : enqueue w.queues list v₁.workQueue = .ok queues) (lists : ℕ → Option ℕ)
    (schedule : List ℕ) :
    w.step (.complete t r list lists schedule) =
      ((notified v₁ (jobs queues.length lists l) queues schedule).map fun queues =>
        { tasks := v₁.tasks, queues := queues, obtained := w.obtained.erase t }).getD w := by
  rw [step, if_pos ht, hrecord]
  dsimp only
  rw [henqueue]
  dsimp only
  cases notified v₁ (jobs queues.length lists l) queues schedule <;> rfl

theorem step_complete_error {r : Except Failure (TaskResult F V)} {e : Failure}
    (hrecord : Task.record t r w.world = .error e) (list : Option ℕ) (lists : ℕ → Option ℕ)
    (schedule : List ℕ) : w.step (.complete t r list lists schedule) = w := by
  rw [step, hrecord]
  exact ite_self w

theorem step_complete_full {r : Except Failure (TaskResult F V)} {v₁ : TaskWorld F V} {e : Failure}
    (hrecord : Task.record t r w.world = .ok (l, v₁)) {list : Option ℕ}
    (henqueue : QueueWorld.enqueue w.queues list v₁.workQueue = .error e) (lists : ℕ → Option ℕ)
    (schedule : List ℕ) : w.step (.complete t r list lists schedule) = w := by
  rw [step, hrecord]
  dsimp only
  rw [henqueue]
  exact ite_self w

/-- The notifications add the subscribers that can run, one by one or all at once. -/
def Notifies (v : TaskWorld F V) (l : List Ptr) (queues queues' : List (LinkedList Ptr)) : Prop :=
  ∀ subs, List.Forall₂ LinkedList.Represents queues subs →
    ∃ subs', List.Forall₂ LinkedList.Represents queues' subs' ∧
      subs'.flatten.Perm (l.filter v.runnable ++ subs.flatten)

theorem notifies_of_apart {lists : ℕ → Option ℕ} {schedule : List ℕ} {queues' : List (LinkedList Ptr)}
    (hexists : ∀ s ∈ l, ∃ d, v.tasks.get s = some d)
    (hapart : Apart v (jobs queues.length lists l))
    (hn : notified v (jobs queues.length lists l) queues schedule = some queues') :
    Notifies v l queues queues' := by
  intro subs hq
  obtain ⟨subs', hq', hperm⟩ := notified_spec hq hapart
    (fun job hjob => hexists job.1 (mem_of_mem_jobs hjob)) (fun job hjob i hi => jobs_lt hjob hi) hn
  rw [jobs_tasks] at hperm
  exact ⟨subs', hq', hperm⟩

theorem Refines.notify (h : Refines w v) {v' v₁ : TaskWorld F V} (hn : Notifies v₁ l w.queues queues)
    (htasks : v'.tasks = v₁.tasks)
    (hqueue : v'.workQueue = v.workQueue ++ l.filter v₁.runnable) :
    Refines { tasks := v₁.tasks, queues := queues, obtained := v'.obtained } v' := by
  obtain ⟨subs, hq, hperm⟩ := h.queues
  obtain ⟨subs', hq', hperm'⟩ := hn subs hq
  refine ⟨htasks.symm, rfl, subs', hq', ?_⟩
  rw [hqueue]
  exact (hperm.append_right _).trans (List.perm_append_comm.trans hperm'.symm)

/-- A subscriber of a task that succeeds or fails is released just when it can run then. -/
theorem Refines.runnable_eq_releases (h : Refines w v) (hv : TaskWorld.Sound v) (ht : t ∈ v.obtained)
    (hd : v.tasks.get t = some d) {r : Except Failure (TaskResult F V)} {d' : TaskData F V}
    (hcompletes : d'.isComplete = completes r) {v₁ : TaskWorld F V}
    (htasks : v₁.tasks = v.tasks.set t (some d')) (hs : s ∈ d.subscribers) :
    v₁.runnable s = w.releases t r s := by
  obtain ⟨hexec, hincomplete, -⟩ := hv.obtained_some ht hd
  obtain ⟨e, he, hte⟩ := hv.waits t d hd hincomplete s hs
  have hst : s ≠ t := by
    rintro rfl
    exact hv.not_mem_subscribers hd hexec hd hincomplete hs
  have hcomplete : ∀ u, v₁.complete u = if u = t then completes r else v.complete u := by
    intro u
    rw [TaskWorld.complete, htasks]
    split_ifs with hut
    · rw [hut, Heap.get_set_self (Heap.lt_next hd), Option.any_some, hcompletes]
    · rw [Heap.get_set_of_ne hut]
      rfl
  have hget : v₁.tasks.get s = some e := by rw [htasks, Heap.get_set_of_ne hst, he]
  rw [TaskWorld.runnable, hget, releases, h.tasks, he, Option.any_some, Option.any_some,
    TaskWorld.triggered, Bool.eq_iff_iff, Bool.and_eq_true, List.all_eq_true, List.all_eq_true,
    h.world]
  constructor
  · intro hall
    have hcomp := hall t hte
    rw [hcomplete, if_pos rfl] at hcomp
    refine ⟨hcomp, fun u hu => ?_⟩
    have hu' := hall u hu
    rw [hcomplete] at hu'
    by_cases hut : u = t
    · simp [hut]
    · rw [if_neg hut] at hu'
      exact Bool.or_eq_true_iff.mpr (.inr hu')
  · rintro ⟨hcomp, hall⟩ u hu
    rw [hcomplete]
    split_ifs with hut
    · exact hcomp
    · have hu' := hall u hu
      rw [decide_eq_false hut, Bool.false_or] at hu'
      exact hu'

/-- The tasks when `t` has got the data `d`, and before anybody is told. -/
def recorded (v : TaskWorld F V) (t : Ptr) (d : TaskData F V) : TaskWorld F V :=
  { v with tasks := v.tasks.set t (some d), workQueue := [] }

theorem Refines.record (h : Refines w v) (hd : v.tasks.get t = some d)
    {r : Except Failure (TaskResult F V)} {d' : TaskData F V}
    (hupdate : ∀ q, Task.update t d r { v with workQueue := q } =
      .ok (d', { v with workQueue := q })) :
    Task.record t r w.world = .ok (d.subscribers, recorded v t d') := by
  rw [h.world, Task.record, bind_ok (Task.read_some (w := { v with workQueue := [] }) hd),
    bind_ok (hupdate [])]
  rfl

/-- A task succeeds or fails, and its subscribers are told. -/
theorem Refines.settled (h : Refines w v) (hv : TaskWorld.Sound v) (ht : t ∈ v.obtained)
    (hd : v.tasks.get t = some d) {r : Except Failure (TaskResult F V)} {d' : TaskData F V}
    (hupdate : ∀ q, Task.update t d r { v with workQueue := q } = .ok (d', { v with workQueue := q }))
    {lists : ℕ → Option ℕ} {schedule : List ℕ}
    (hnotified : notified (recorded v t d') (jobs w.queues.length lists d.subscribers) w.queues
      schedule = some queues)
    (hn : Notifies (recorded v t d') d.subscribers w.queues queues) (list : Option ℕ) :
    Refines (w.step (.complete t r list lists schedule)) (v.step (.complete t r)) := by
  have henqueue : QueueWorld.enqueue w.queues list (recorded v t d').workQueue = .ok w.queues := rfl
  have hsettled : Refines _ { v.settle t d' d.subscribers with obtained := v.obtained.erase t } :=
    h.notify hn rfl rfl
  rw [step_complete_ok (h.obtained ▸ ht) (h.record hd hupdate) henqueue, hnotified,
    hv.step_settle ht hd (hupdate v.workQueue), h.obtained]
  exact hsettled

theorem exists_subscriber (hv : TaskWorld.Sound v) (ht : t ∈ v.obtained)
    (hd : v.tasks.get t = some d) (d' : TaskData F V) :
    ∀ s ∈ d.subscribers, ∃ e, (recorded v t d').tasks.get s = some e := by
  intro s hs
  obtain ⟨e, he, -⟩ := hv.waits t d hd (hv.obtained_some ht hd).2.1 s hs
  exact (TaskWorld.change_set (Heap.lt_next hd)).mem ⟨e, he⟩

/-- A task succeeds or fails, and releases no two subscribers to one list. -/
theorem Refines.settle (h : Refines w v) (hv : TaskWorld.Sound v) (ht : t ∈ v.obtained)
    (hd : v.tasks.get t = some d) {r : Except Failure (TaskResult F V)} {d' : TaskData F V}
    (hupdate : ∀ q, Task.update t d r { v with workQueue := q } = .ok (d', { v with workQueue := q }))
    (hcompletes : d'.isComplete = completes r) {list : Option ℕ} {lists : ℕ → Option ℕ}
    {schedule : List ℕ} (hapart : w.ReleasesApart (.complete t r list lists schedule)) :
    Refines (w.step (.complete t r list lists schedule)) v ∨
      Refines (w.step (.complete t r list lists schedule)) (v.step (.complete t r)) := by
  cases hn : notified (recorded v t d') (jobs w.queues.length lists d.subscribers) w.queues
      schedule with
  | none =>
    have henqueue : QueueWorld.enqueue w.queues list (recorded v t d').workQueue = .ok w.queues := rfl
    rw [step_complete_ok (h.obtained ▸ ht) (h.record hd hupdate) henqueue, hn]
    exact .inl h
  | some queues =>
    have hreleases : ∀ s ∈ d.subscribers, (recorded v t d').runnable s = w.releases t r s :=
      fun s hs => h.runnable_eq_releases hv ht hd hcompletes rfl hs
    have hapart' : Apart (recorded v t d') (jobs w.queues.length lists d.subscribers) := by
      rw [ReleasesApart, h.tasks, hd] at hapart
      refine hapart.imp_of_mem fun {a b} ha hb himp ha' hb' i hai hbi => ?_
      rw [hreleases _ (mem_of_mem_jobs ha)] at ha'
      rw [hreleases _ (mem_of_mem_jobs hb)] at hb'
      exact Option.some_ne_none i (hai.symm.trans (himp ha' hb' (hai.trans hbi.symm)))
    exact .inr (h.settled hv ht hd hupdate hn
      (notifies_of_apart (exists_subscriber hv ht hd d') hapart' hn) list)

/-- The tasks when `t` goes on and is queued if it can run, before anybody is told. -/
def resumed (v : TaskWorld F V) (t : Ptr) (d : TaskData F V) (next : F) (newTriggers : List Ptr) :
    TaskWorld F V :=
  { v.continued t d next newTriggers with
    workQueue := if v.triggered
      (({ d with triggers := newTriggers, executorId := none } : TaskData F V).newTask next)
      then [t] else []
    obtained := v.obtained }

theorem Refines.resume (h : Refines w v) (hd : v.tasks.get t = some d) (next : F)
    {newTriggers : List Ptr} (hmem : ∀ u ∈ newTriggers, ∃ e, v.tasks.get u = some e) :
    Task.record t (.ok (.taskContinue next newTriggers)) w.world =
      .ok (d.subscribers, resumed v t d next newTriggers) := by
  have hupdate : Task.update t d (.ok (.taskContinue next newTriggers)) { v with workQueue := [] } = _ :=
    Task.initTriggers_some { v with workQueue := [] } t _ hmem
  rw [subscribe_frame] at hupdate
  rw [h.world, Task.record, bind_ok (Task.read_some (w := { v with workQueue := [] }) hd),
    bind_ok hupdate, resumed, ← TaskWorld.subscribe_obtained (w := v) (t := t) (l := newTriggers)]
  rfl

/-- A task goes on, and its subscribers are told. -/
theorem Refines.continued (h : Refines w v) (hv : TaskWorld.Sound v) (ht : t ∈ v.obtained)
    (hd : v.tasks.get t = some d) (next : F) {newTriggers : List Ptr}
    (hmem : ∀ u ∈ newTriggers, ∃ e, v.tasks.get u = some e) {list : Option ℕ}
    (henqueue : QueueWorld.enqueue w.queues list (resumed v t d next newTriggers).workQueue = .ok queues)
    {queues' : List (LinkedList Ptr)} {lists : ℕ → Option ℕ} {schedule : List ℕ}
    (hnotified : notified (resumed v t d next newTriggers) (jobs queues.length lists d.subscribers)
      queues schedule = some queues')
    (hn : Notifies (resumed v t d next newTriggers) d.subscribers queues queues') :
    Refines (w.step (.complete t (.ok (.taskContinue next newTriggers)) list lists schedule))
      (v.step (.complete t (.ok (.taskContinue next newTriggers)))) := by
  have hnone : d.subscribers.filter (v.continued t d next newTriggers).runnable = [] := by
    refine List.filter_eq_nil_iff.mpr fun s hs htrue => ?_
    obtain ⟨e, -, hrun⟩ := hv.not_runnable_continued ht hd next newTriggers s hs
    exact absurd (hrun.symm.trans htrue) Bool.false_ne_true
  rcases h.enqueue list (resumed v t d next newTriggers).workQueue with
    ⟨e, he⟩ | ⟨queues₁, hok, hrefines⟩
  · cases henqueue.symm.trans he
  · cases henqueue.symm.trans hok
    have hresumed := hrefines (v.continued t d next newTriggers)
      (congrArg (· ++ _) TaskWorld.subscribe_workQueue)
    have hcontinued : Refines _ (v.continued t d next newTriggers) :=
      hresumed.notify hn rfl ((congrArg _ hnone).trans (List.append_nil _)).symm
    rw [step_complete_ok (h.obtained ▸ ht) (h.resume hd next hmem) henqueue, hnotified,
      hv.step_continue ht hd next hmem, h.obtained]
    exact hcontinued

/-- The new triggers do not exist. -/
theorem Refines.not_continued (h : Refines w v) (hd : v.tasks.get t = some d) (next : F)
    {newTriggers : List Ptr} (hmem : ¬∀ u ∈ newTriggers, ∃ e, v.tasks.get u = some e)
    (list : Option ℕ) (lists : ℕ → Option ℕ) (schedule : List ℕ) :
    w.step (.complete t (.ok (.taskContinue next newTriggers)) list lists schedule) = w := by
  push Not at hmem
  obtain ⟨u, hu, hnone⟩ := hmem
  obtain ⟨e, he⟩ := Task.initTriggers_none { v with workQueue := [] } t
    (({ d with triggers := newTriggers, executorId := none } : TaskData F V).newTask next)
    ⟨u, hu, Option.eq_none_iff_forall_ne_some.mpr hnone⟩
  refine step_complete_error (e := e) ?_ list lists schedule
  rw [h.world, Task.record, bind_ok (Task.read_some (w := { v with workQueue := [] }) hd)]
  exact bind_error (show Task.update t d (.ok (.taskContinue next newTriggers)) _ = _ from he)

/-- A task goes on. -/
theorem Refines.continue (h : Refines w v) (hv : TaskWorld.Sound v) (ht : t ∈ v.obtained)
    (hd : v.tasks.get t = some d) (next : F) (newTriggers : List Ptr) (list : Option ℕ)
    (lists : ℕ → Option ℕ) (schedule : List ℕ) :
    Refines (w.step (.complete t (.ok (.taskContinue next newTriggers)) list lists schedule)) v ∨
      Refines (w.step (.complete t (.ok (.taskContinue next newTriggers)) list lists schedule))
        (v.step (.complete t (.ok (.taskContinue next newTriggers)))) := by
  by_cases hmem : ∀ u ∈ newTriggers, ∃ e, v.tasks.get u = some e
  · have hrecord := h.resume hd next hmem
    cases henqueue : QueueWorld.enqueue w.queues list (resumed v t d next newTriggers).workQueue with
    | error e =>
      rw [step_complete_full hrecord henqueue]
      exact .inl h
    | ok queues =>
      cases hn : notified (resumed v t d next newTriggers) (jobs queues.length lists d.subscribers)
          queues schedule with
      | none =>
        rw [step_complete_ok (h.obtained ▸ ht) hrecord henqueue, hn]
        exact .inl h
      | some queues' =>
        have hidle := hv.not_runnable_continued ht hd next newTriggers
        refine .inr (h.continued hv ht hd next hmem henqueue hn
          (notifies_of_apart (fun s hs => ⟨_, (hidle s hs).choose_spec.1⟩) ?_ hn))
        refine List.pairwise_of_forall_mem_list fun a ha b _ hrun => ?_
        obtain ⟨e, -, hnot⟩ := hidle a.1 (mem_of_mem_jobs ha)
        exact absurd (hnot.symm.trans hrun) Bool.false_ne_true
  · rw [h.not_continued hd next hmem]
    exact .inl h

/-! ### Steps and runs -/

/-- A step leaves the queue as it is, or does to it what the same step does with some place of the
    queue. -/
theorem Refines.step (h : Refines w v) (hv : TaskWorld.Sound v) (a : QueueAction F V)
    (hapart : w.ReleasesApart a) :
    Refines (w.step a) v ∨ ∃ i, Refines (w.step a) (v.step (a.task i)) := by
  cases a with
  | add f ancestors list => exact (h.add f ancestors list).imp_right fun h => ⟨0, h⟩
  | getTask list executorName => exact h.getTask hv list executorName
  | complete t r list lists schedule =>
    by_cases ht : t ∈ v.obtained
    · obtain ⟨d, hd, -, hincomplete⟩ := hv.obtained_mem t ht
      obtain ⟨hresult, hexception⟩ : d.result = none ∧ d.exception = none := by
        simpa [TaskData.isComplete] using hincomplete
      refine Or.imp_right (fun h => ⟨0, h⟩) ?_
      cases r with
      | error e =>
        exact h.settle hv ht hd (fun q => rfl) (by simp [TaskData.isComplete, completes]) hapart
      | ok res =>
        cases res with
        | taskSuccess success =>
          exact h.settle hv ht hd (fun q => rfl)
            (by simp [TaskData.isComplete, completes, hexception]) hapart
        | taskContinue next newTriggers =>
          exact h.continue hv ht hd next newTriggers list lists schedule
    · rw [QueueWorld.step, if_neg (h.obtained ▸ ht)]
      exact .inl h

theorem distinct_task {a : QueueAction F V} (h : a.Distinct) (i : ℕ) :
    (a.task i).Distinct := by
  cases a <;> exact h

theorem simulated_from {as : List (QueueAction F V)} (h : Refines w v) (hv : TaskWorld.Sound v)
    (has : Along step (fun w a => w.ReleasesApart a ∧ a.Distinct) w as) :
    ∃ bs : List (TaskAction F V), (∀ b ∈ bs, ∃ a ∈ as, ∃ i, b = a.task i) ∧
      (∀ b ∈ bs, b.Distinct) ∧ Refines (run step w as) (run TaskWorld.step v bs) := by
  induction as generalizing w v with
  | nil => exact ⟨[], List.forall_mem_nil _, List.forall_mem_nil _, h⟩
  | cons a as ih =>
    obtain ⟨⟨hapart, hdistinct⟩, has⟩ := has
    rcases h.step hv a hapart with h' | ⟨i, h'⟩
    · obtain ⟨bs, hmem, hd, hrun⟩ := ih h' hv has
      refine ⟨bs, fun b hb => ?_, hd, hrun⟩
      obtain ⟨a', ha', hi⟩ := hmem b hb
      exact ⟨a', List.mem_cons_of_mem a ha', hi⟩
    · obtain ⟨bs, hmem, hd, hrun⟩ := ih h' (hv.step _ (distinct_task hdistinct i)) has
      refine ⟨a.task i :: bs, fun b hb => ?_, fun b hb => ?_, hrun⟩
      · rcases List.mem_cons.mp hb with rfl | hb
        · exact ⟨a, List.mem_cons_self, i, rfl⟩
        · obtain ⟨a', ha', hi⟩ := hmem b hb
          exact ⟨a', List.mem_cons_of_mem a ha', hi⟩
      · rcases List.mem_cons.mp hb with rfl | hb
        · exact distinct_task hdistinct i
        · exact hd b hb

/-- While released subscribers go to different lists, the system does what the one with a plain
    queue does, with the same steps or some of them. -/
theorem simulated {size : ℕ} {as : List (QueueAction F V)}
    (hdistinct : ∀ a ∈ as, a.Distinct)
    (hapart : Along step ReleasesApart (start size : QueueWorld F V) as) :
    ∃ bs : List (TaskAction F V), (∀ b ∈ bs, ∃ a ∈ as, ∃ i, b = a.task i) ∧
      (∀ b ∈ bs, b.Distinct) ∧ Refines (run step (start size) as) (run TaskWorld.step {} bs) :=
  simulated_from (refines_start size) TaskWorld.sound_empty (hapart.and_mem hdistinct)

/-- In every run that gives tasks distinct triggers, and in which no completion releases two
    subscribers to one list, a task is in the lists once if it is ready, and not at all
    otherwise. -/
theorem queued_iff_ready (size : ℕ) (as : List (QueueAction F V))
    (hdistinct : ∀ a ∈ as, a.Distinct) (hapart : Along step ReleasesApart (start size) as) :
    let w := run step (start size : QueueWorld F V) as
    ∃ items, w.stream = .ok items ∧ (∀ t ∈ items, ∃ d, w.tasks.get t = some d) ∧
      ∀ t d, w.tasks.get t = some d → items.count t = if w.world.Ready d then 1 else 0 := by
  obtain ⟨bs, -, hbs, h⟩ := simulated hdistinct hapart
  have hv := TaskWorld.sound_run hbs
  obtain ⟨subs, hq, hperm⟩ := h.queues
  refine ⟨subs.flatten, ?_, fun t ht => ?_, fun t d hd => ?_⟩
  · rw [stream, MultiQueueData.mapM_stream hq]
    rfl
  · rw [h.tasks]
    exact hv.queue_mem t (hperm.mem_iff.mpr ht)
  · rw [h.tasks] at hd
    rw [← hperm.count_eq, hv.queued t d hd, h.world]
    rfl

/-- Two tasks wait for a third. Its success releases them to the lists `i` and `j`, and the steps
    of the notifications take turns. -/
def releasingRun (i j : ℕ) : List (QueueAction ℕ ℕ) :=
  [.add 0 [] (some 0), .add 1 [0] none, .add 2 [0] none, .getTask (some 0) "a",
    .complete 0 (.ok (.taskSuccess (some 5))) none (fun k => if k = 0 then some i else some j)
      [0, 1, 0, 1, 0, 1, 0, 1]]

theorem queued_iff_ready_releasingRun :
    let w := run step (start 2 : QueueWorld ℕ ℕ) (releasingRun 0 1)
    ∃ items, w.stream = .ok items ∧ (∀ t ∈ items, ∃ d, w.tasks.get t = some d) ∧
      ∀ t d, w.tasks.get t = some d → items.count t = if w.world.Ready d then 1 else 0 :=
  queued_iff_ready 2 (releasingRun 0 1)
    (by simp [releasingRun, QueueAction.Distinct, QueueAction.task, TaskAction.Distinct]) (by decide)

/-- Both find the list empty, and the header that is written last has one of them only. -/
theorem released_lost :
    let w := run step (start 2 : QueueWorld ℕ ℕ) (releasingRun 0 0)
    (∀ a ∈ releasingRun 0 0, a.Distinct) ∧ w.stream = .ok [2] ∧
      ¬ ∃ items, w.stream = .ok items ∧ (∀ t ∈ items, ∃ d, w.tasks.get t = some d) ∧
        ∀ t d, w.tasks.get t = some d → items.count t = if w.world.Ready d then 1 else 0 := by
  refine ⟨by simp [releasingRun, QueueAction.Distinct, QueueAction.task, TaskAction.Distinct],
    by decide, ?_⟩
  rintro ⟨items, hitems, -, hcount⟩
  obtain rfl := Except.ok.inj (hitems.symm.trans (by decide : _ = Except.ok [2]))
  have hone := hcount 1 { kryoTask := some 1, triggers := [0] } (by decide)
  revert hone
  decide

end QueueWorld

end ReSTM
