import ReSTM.Task.Progress

/-!
# Who is running what

Model of `ExecutionStatusManager` (`stm/task/ExecutionStatusManager.scala`) and of the calls that
`StmExecutionQueue` makes to it (`stm/task/StmExecutionQueue.scala`, lines 120–179): `getTask`
calls `start` within its transaction, so also when that fails and is tried again, and `runTask`
calls `end` after it has completed a task with the result of its function, but not after it has
completed one with a failure. `end` removes the record ten seconds later, whatever it then says.

* `recorded_run`: a task that was obtained has its record, if its executor did not obtain it again
  before the record of the time before was removed.
* `failed_counts`: an executor whose task has failed is counted as running from then on.
-/

namespace ReSTM

open HeapModel Transition

variable {F V : Type}

/-- "Started" and "Complete". -/
inductive ExecutionStatus
  | started
  | complete
deriving DecidableEq

/-- `currentStatus`, by executor and task, and the removals that were scheduled. -/
structure ExecutionStatusManager where
  currentStatus : List ((String × Ptr) × ExecutionStatus) := []
  scheduled : List (String × Ptr) := []
deriving DecidableEq

namespace ExecutionStatusManager

/-- `executorRecord.put`. -/
def put (executorName : String) (task : Ptr) (status : ExecutionStatus)
    (m : ExecutionStatusManager) : ExecutionStatusManager :=
  { m with currentStatus := ((executorName, task), status) ::
      m.currentStatus.filter (·.1 ≠ (executorName, task)) }

/-- `start`. -/
def start (executorName : String) (task : Ptr) (m : ExecutionStatusManager) :
    ExecutionStatusManager := m.put executorName task .started

/-- `end`. -/
def finish (executorName : String) (task : Ptr) (m : ExecutionStatusManager) :
    ExecutionStatusManager :=
  { m.put executorName task .complete with scheduled := m.scheduled ++ [(executorName, task)] }

/-- A removal that `end` has scheduled. -/
def expire (k : ℕ) (m : ExecutionStatusManager) : ExecutionStatusManager :=
  match m.scheduled[k]? with
  | some key =>
    { currentStatus := m.currentStatus.filter (·.1 ≠ key), scheduled := m.scheduled.eraseIdx k }
  | none => m

/-- `check`. -/
def check (m : ExecutionStatusManager) (executorId : String) (taskId : Ptr) : Bool :=
  m.currentStatus.any (·.1 = (executorId, taskId))

/-- `currentlyRunning`. -/
def currentlyRunning (m : ExecutionStatusManager) : ℕ :=
  ((m.currentStatus.filter (·.2 = .started)).map (·.1.1)).dedup.length

/-- `getName`. -/
def getName (localName threadName : String) : String := localName ++ ":" ++ threadName

variable {m : ExecutionStatusManager} {e e' : String} {t t' : Ptr} {x y : ExecutionStatus}

theorem check_iff : m.check e t = true ↔ ∃ x, ((e, t), x) ∈ m.currentStatus := by
  rw [check, List.any_eq_true]
  constructor
  · rintro ⟨⟨key, x⟩, hmem, hkey⟩
    exact ⟨x, of_decide_eq_true hkey ▸ hmem⟩
  · rintro ⟨x, hmem⟩
    exact ⟨_, hmem, decide_eq_true rfl⟩

theorem mem_put_self : ((e, t), x) ∈ (m.put e t x).currentStatus := List.mem_cons_self

/-- Other entries stay. -/
theorem mem_put_of_ne (hne : (e', t') ≠ (e, t)) :
    ((e', t'), y) ∈ (m.put e t x).currentStatus ↔ ((e', t'), y) ∈ m.currentStatus := by
  rw [put, List.mem_cons, List.mem_filter]
  constructor
  · rintro (heq | ⟨hmem, -⟩)
    · exact absurd (congrArg Prod.fst heq) hne
    · exact hmem
  · exact fun hmem => .inr ⟨hmem, decide_eq_true hne⟩

/-- What is "Started" stays so when something starts. -/
theorem mem_start (h : ((e, t), .started) ∈ m.currentStatus) :
    ((e, t), .started) ∈ (m.start e' t').currentStatus := by
  by_cases heq : (e, t) = (e', t')
  · cases heq
    exact mem_put_self
  · exact (mem_put_of_ne heq).mpr h

theorem mem_expire_of_not_mem {k : ℕ} (h : (e, t) ∉ m.scheduled) :
    ((e, t), x) ∈ (m.expire k).currentStatus ↔ ((e, t), x) ∈ m.currentStatus := by
  unfold expire
  split
  · next key hkey =>
    rw [List.mem_filter, and_iff_left]
    refine decide_eq_true fun heq => h ?_
    rw [show (e, t) = key from heq]
    exact List.mem_of_getElem? hkey
  · exact Iff.rfl

theorem scheduled_expire_subset {k : ℕ} : (m.expire k).scheduled ⊆ m.scheduled := by
  unfold expire
  split
  · exact List.eraseIdx_subset
  · exact List.Subset.refl _

/-- An executor with a task that is "Started" is counted. -/
theorem currentlyRunning_pos (h : ((e, t), .started) ∈ m.currentStatus) :
    0 < m.currentlyRunning := by
  have hmem : ((e, t), .started) ∈ m.currentStatus.filter (·.2 = .started) :=
    List.mem_filter.mpr ⟨h, rfl⟩
  exact List.length_pos_of_mem (List.mem_dedup.mpr (List.mem_map_of_mem hmem))

end ExecutionStatusManager

/-- The tasks, what is known of their executions, and the tasks that were completed with a result
    while `end` was not called yet. -/
structure Executions (F V : Type) where
  world : TaskWorld F V := {}
  manager : ExecutionStatusManager := {}
  completed : List (String × Ptr) := []

inductive ExecutionAction (F V : Type) where
  | add (f : F) (ancestors : List Ptr)
  | getTask (i : ℕ) (executorName : String)
  /-- The transaction of `getTask` fails, after `start`. -/
  | conflict (i : ℕ) (executorName : String)
  | complete (task : Ptr) (result : Except Failure (TaskResult F V))
  | finish (k : ℕ)
  | expire (k : ℕ)

/-- What an action does to the tasks. -/
def ExecutionAction.task? : ExecutionAction F V → Option (TaskAction F V)
  | .add f ancestors => some (.add f ancestors)
  | .getTask i executorName => some (.getTask i executorName)
  | .complete task result => some (.complete task result)
  | .conflict _ _ | .finish _ | .expire _ => none

namespace TaskWorld

/-- The executor of a task. -/
def executor? (w : TaskWorld F V) (task : Ptr) : Option String :=
  (w.tasks.get task).bind (·.executorId)

variable {w : TaskWorld F V} {t : Ptr} {d : TaskData F V} {a : TaskAction F V}

theorem executor?_of_some (hd : w.tasks.get t = some d) : w.executor? t = d.executorId := by
  rw [executor?, hd, Option.bind_some]

/-- A task that an executor has is one that it had, or one that it has just obtained. -/
theorem Sound.obtained_step (h : Sound w) (ht : t ∈ (w.step a).obtained) :
    t ∈ w.obtained ∧ (w.step a).executor? t = w.executor? t ∨
      ∃ i executorName, a = .getTask i executorName ∧ w.workQueue[i]? = some t ∧
        (w.step a).executor? t = some executorName := by
  have hdoes := h.does a
  generalize w.step a = w' at hdoes ht ⊢
  have hother : ∀ {u : Ptr} {e : TaskData F V} {l : List Ptr}, Change u e l w w' → t ≠ u →
      w'.executor? t = w.executor? t := fun hc hne => by
    rw [executor?, hc.other t hne, executor?]
    cases w.tasks.get t <;> rfl
  cases hdoes with
  | nothing => exact .inl ⟨ht, rfl⟩
  | added f ancestors hmem =>
    rw [show (w.added f ancestors).obtained = w.obtained from subscribe_obtained] at ht
    obtain ⟨e, hc, -⟩ := change_added f ancestors w
    obtain ⟨d, hd, -⟩ := h.obtained_mem t ht
    exact .inl ⟨ht, hother hc (ne_next_of_some hd)⟩
  | started i executorName u d hi hd hready =>
    have hc := change_started hd i executorName
    by_cases htu : t = u
    · subst htu
      exact .inr ⟨i, executorName, rfl, hi, executor?_of_some hc.self⟩
    · exact .inl ⟨(List.mem_cons.mp ht).resolve_left htu, hother hc htu⟩
  | settled u r d d' hu hd _ _ _ =>
    obtain ⟨htu, ht⟩ := h.mem_obtained_erase ht
    exact .inl ⟨ht, hother (change_settle hd) htu⟩
  | continued u d next newTriggers hu hd =>
    obtain ⟨htu, ht⟩ := h.mem_obtained_erase ht
    exact .inl ⟨ht, hother (change_continued hd next newTriggers) htu⟩

/-- A complete task is not queued or obtained, and stays complete. -/
theorem Sound.complete_step (h : Sound w) (ht : w.complete t = true) (a : TaskAction F V) :
    ¬w.Active t ∧ (w.step a).complete t = true := by
  obtain ⟨d, hd, hcomplete⟩ := (Option.any_eq_true _ _).mp ht
  have hexecutor := h.finished t d hd hcomplete
  have hactive : ¬w.Active t := by
    rintro (hqueued | hobtained)
    · have hcount := h.queued t d hd
      rw [if_neg fun hready => by rw [hready.1] at hexecutor; cases hexecutor] at hcount
      exact List.count_eq_zero.mp hcount hqueued
    · have hincomplete := (h.obtained_some hobtained hd).2.1
      rw [hcomplete] at hincomplete
      cases hincomplete
  obtain ⟨⟨m, hm⟩, -⟩ := h.keeps hd hactive a
  exact ⟨hactive, (complete_some hm).trans hcomplete⟩

end TaskWorld

namespace Executions

/-- `start`, if a function is obtained. -/
def started (s : Executions F V) (i : ℕ) (executorName : String) : ExecutionStatusManager :=
  match StmExecutionQueue.getTask i executorName s.world with
  | .ok (some (task, _), _) => s.manager.start executorName task
  | _ => s.manager

/-- What `runTask` still has to do after a task was completed. -/
def reported (s : Executions F V) (task : Ptr) (result : Except Failure (TaskResult F V)) :
    List (String × Ptr) :=
  match result, Task.complete task result s.world, s.world.executor? task with
  | .ok _, .ok _, some executorName => [(executorName, task)]
  | _, _, _ => []

def step (s : Executions F V) : ExecutionAction F V → Executions F V
  | .add f ancestors => { s with world := s.world.step (.add f ancestors) }
  | .getTask i executorName =>
    { s with world := s.world.step (.getTask i executorName), manager := s.started i executorName }
  | .conflict i executorName => { s with manager := s.started i executorName }
  | .complete task result =>
    if task ∈ s.world.obtained then
      { s with
        world := s.world.step (.complete task result)
        completed := s.completed ++ s.reported task result }
    else s
  | .finish k =>
    match s.completed[k]? with
    | some (executorName, task) =>
      { s with manager := s.manager.finish executorName task, completed := s.completed.eraseIdx k }
    | none => s
  | .expire k => { s with manager := s.manager.expire k }

/-- No executor obtains a task again whose record it is about to remove. -/
def Clean (s : Executions F V) : ExecutionAction F V → Prop
  | .getTask i executorName => ∀ t, s.world.workQueue[i]? = some t →
    (executorName, t) ∉ s.manager.scheduled ∧ (executorName, t) ∉ s.completed
  | _ => True

/-- Triggers are distinct, and records are not removed under a running task. -/
def Proper (s : Executions F V) (a : ExecutionAction F V) : Prop :=
  (∀ b, a.task? = some b → b.Distinct) ∧ s.Clean a

variable {s : Executions F V} {a : ExecutionAction F V} {t u : Ptr} {e : String}

/-- The tasks make their steps, or stay. -/
theorem world_step (s : Executions F V) (a : ExecutionAction F V) :
    (s.step a).world = s.world ∨ ∃ b, a.task? = some b ∧ (s.step a).world = s.world.step b := by
  cases a with
  | add | getTask => exact .inr ⟨_, rfl, rfl⟩
  | complete task result =>
    rw [step]
    split_ifs with h
    · exact .inr ⟨_, rfl, rfl⟩
    · exact .inl rfl
  | conflict | expire => exact .inl rfl
  | finish k =>
    rw [step]
    split <;> exact .inl rfl

theorem started_cases (h : s.world.Sound) (i : ℕ) (e : String) :
    s.world.workQueue[i]? = none ∧ s.started i e = s.manager ∨
      ∃ t, s.world.workQueue[i]? = some t ∧ s.started i e = s.manager.start e t := by
  rw [started]
  cases hi : s.world.workQueue[i]? with
  | none => exact .inl ⟨rfl, by rw [TaskWorld.getTask_none e hi]⟩
  | some t =>
    obtain ⟨d, f, -, -, -, hget⟩ := h.getTask_some e hi
    exact .inr ⟨t, rfl, by rw [hget]⟩

theorem mem_reported {result : Except Failure (TaskResult F V)} {key : String × Ptr}
    (h : key ∈ s.reported t result) : key.2 = t := by
  unfold reported at h
  split at h
  · rw [List.mem_singleton.mp h]
  · cases h

/-- A task that is still obtained after it was completed was not completed. -/
theorem reported_of_obtained {result : Except Failure (TaskResult F V)} (h : s.world.Sound)
    (ht : t ∈ s.world.obtained) (ht' : t ∈ (s.world.step (.complete t result)).obtained) :
    s.reported t result = [] := by
  have hdoes := h.does (.complete t result)
  generalize s.world.step (.complete t result) = w' at hdoes ht'
  cases hdoes with
  | nothing _ hfails =>
    obtain ⟨e, he⟩ := hfails t result rfl ht
    unfold reported
    rw [he]
    cases result <;> rfl
  | settled => exact absurd rfl (h.mem_obtained_erase ht').1
  | continued => exact absurd rfl (h.mem_obtained_erase ht').1

theorem sound_step (h : s.world.Sound) (ha : ∀ b, a.task? = some b → b.Distinct) :
    (s.step a).world.Sound := by
  rcases world_step s a with heq | ⟨b, hb, heq⟩ <;> rw [heq]
  · exact h
  · exact h.step b (ha b hb)

theorem scheduled_started (h : s.world.Sound) (i : ℕ) (e : String) :
    (s.started i e).scheduled = s.manager.scheduled := by
  rcases started_cases h i e with ⟨-, heq⟩ | ⟨t, -, heq⟩ <;> rw [heq]
  rfl

theorem mem_started (h : s.world.Sound) {i : ℕ} {e' : String}
    (hmem : ((e, t), .started) ∈ s.manager.currentStatus) :
    ((e, t), .started) ∈ (s.started i e').currentStatus := by
  rcases started_cases h i e' with ⟨-, heq⟩ | ⟨u, -, heq⟩ <;> rw [heq]
  · exact hmem
  · exact ExecutionStatusManager.mem_start hmem

/-- Nobody is about to change the record of a task, which is "Started". -/
structure Running (s : Executions F V) (e : String) (t : Ptr) : Prop where
  record : ((e, t), .started) ∈ s.manager.currentStatus
  scheduled : (e, t) ∉ s.manager.scheduled
  completed : (e, t) ∉ s.completed

/-- Only completing the task changes that. -/
theorem Running.step (h : s.Running e t) (hsound : s.world.Sound)
    (ha : ∀ result, a = .complete t result → t ∈ s.world.obtained → s.reported t result = []) :
    (s.step a).Running e t := by
  cases a with
  | add f ancestors => exact ⟨h.record, h.scheduled, h.completed⟩
  | getTask i e' =>
    refine ⟨mem_started hsound h.record, ?_, h.completed⟩
    show _ ∉ (s.started i e').scheduled
    rw [scheduled_started hsound]
    exact h.scheduled
  | conflict i e' =>
    refine ⟨mem_started hsound h.record, ?_, h.completed⟩
    show _ ∉ (s.started i e').scheduled
    rw [scheduled_started hsound]
    exact h.scheduled
  | complete u result =>
    rw [step]
    split_ifs with hu
    · refine ⟨h.record, h.scheduled, fun hmem => ?_⟩
      rcases List.mem_append.mp hmem with hmem | hmem
      · exact h.completed hmem
      · obtain rfl := mem_reported hmem
        rw [ha result rfl hu] at hmem
        cases hmem
    · exact h
  | finish k =>
    rw [step]
    split
    · next e' u hk =>
      have hne : (e, t) ≠ (e', u) := fun heq => h.completed (heq ▸ List.mem_of_getElem? hk)
      refine ⟨(ExecutionStatusManager.mem_put_of_ne hne).mpr h.record, fun hmem => ?_,
        fun hmem => h.completed (List.mem_of_mem_eraseIdx hmem)⟩
      rcases List.mem_append.mp hmem with hmem | hmem
      · exact h.scheduled hmem
      · exact hne (List.mem_singleton.mp hmem)
    · exact h
  | expire k =>
    exact ⟨(ExecutionStatusManager.mem_expire_of_not_mem h.scheduled).mpr h.record,
      fun hmem => h.scheduled (ExecutionStatusManager.scheduled_expire_subset hmem), h.completed⟩

/-! ## Records of tasks that run -/

/-- The record of a task that was obtained says so. -/
structure Recorded (s : Executions F V) : Prop where
  sound : s.world.Sound
  running : ∀ t ∈ s.world.obtained, ∀ e, s.world.executor? t = some e → s.Running e t

theorem Recorded.step (h : Recorded s) (hdistinct : ∀ b, a.task? = some b → b.Distinct)
    (hclean : s.Clean a) : Recorded (s.step a) := by
  refine ⟨sound_step h.sound hdistinct, fun t ht e he => ?_⟩
  have hkeep : t ∈ s.world.obtained ∧ (s.step a).world.executor? t = s.world.executor? t →
      (∀ result, a = .complete t result → t ∈ s.world.obtained → s.reported t result = []) →
      (s.step a).Running e t :=
    fun ⟨hold, heq⟩ ha => (h.running t hold e (heq ▸ he)).step h.sound ha
  cases a with
  | add f ancestors =>
    rcases h.sound.obtained_step ht with hold | ⟨i, _, ha, -⟩
    · exact hkeep hold nofun
    · cases ha
  | getTask i e' =>
    rcases h.sound.obtained_step ht with hold | ⟨_, _, ha, hi, hexecutor⟩
    · exact hkeep hold nofun
    · -- it has just been obtained
      cases ha
      obtain rfl := Option.some.inj (he.symm.trans hexecutor)
      obtain ⟨hscheduled, hcompleted⟩ := hclean t hi
      refine ⟨?_, ?_, hcompleted⟩
      · show _ ∈ (s.started i e).currentStatus
        rcases started_cases h.sound i e with ⟨hnone, -⟩ | ⟨u, hu, heq⟩
        · cases hi.symm.trans hnone
        · obtain rfl := Option.some.inj (hi.symm.trans hu)
          rw [heq]
          exact ExecutionStatusManager.mem_put_self
      · show _ ∉ (s.started i e).scheduled
        rwa [scheduled_started h.sound]
  | conflict i e' => exact hkeep ⟨ht, rfl⟩ nofun
  | complete u result =>
    by_cases hu : u ∈ s.world.obtained
    · have hworld : (s.step (.complete u result)).world = s.world.step (.complete u result) := by
        rw [step, if_pos hu]
      rw [hworld] at ht he
      rcases h.sound.obtained_step ht with hold | ⟨_, _, ha, -⟩
      · refine hkeep (hworld ▸ hold) fun result' ha _ => ?_
        cases ha
        exact reported_of_obtained h.sound hu ht
      · cases ha
    · have hnothing : s.step (.complete u result) = s := by rw [step, if_neg hu]
      rw [hnothing] at ht he ⊢
      exact h.running t ht e he
  | finish k =>
    have hworld : (s.step (.finish k)).world = s.world := by
      rw [step]
      split <;> rfl
    exact hkeep ⟨hworld ▸ ht, by rw [hworld]⟩ nofun
  | expire k => exact hkeep ⟨ht, rfl⟩ nofun

theorem recorded_empty : Recorded ({} : Executions F V) := ⟨TaskWorld.sound_empty, nofun⟩

/-- In every run in which no executor obtains a task again before the record of the time before is
    removed, every task that was obtained has the record "Started" of its executor. -/
theorem recorded_run {as : List (ExecutionAction F V)}
    (h : Along step Proper ({} : Executions F V) as) : Recorded (run step ({} : Executions F V) as) :=
  h.invariant (I := Recorded) (fun _ _ hs ha => hs.step ha.1 ha.2) recorded_empty

/-! ## Records of tasks that have failed -/

/-- The record of a complete task says that it runs. -/
structure Leaked (e : String) (t : Ptr) (s : Executions F V) : Prop where
  sound : s.world.Sound
  complete : s.world.complete t = true
  running : s.Running e t

theorem Leaked.step (h : Leaked e t s) (ha : ∀ b, a.task? = some b → b.Distinct) :
    Leaked e t (s.step a) := by
  refine ⟨sound_step h.sound ha, ?_, h.running.step h.sound fun result _ ht => ?_⟩
  · rcases world_step s a with heq | ⟨b, -, heq⟩ <;> rw [heq]
    · exact h.complete
    · exact (h.sound.complete_step h.complete b).2
  · exact absurd (.inr ht) (h.sound.complete_step h.complete (.complete t result)).1

theorem Recorded.leaked (h : Recorded s) (ht : t ∈ s.world.obtained)
    (he : s.world.executor? t = some e) (exception : Failure) :
    Leaked e t (s.step (.complete t (.error exception))) := by
  have hworld : (s.step (.complete t (.error exception))).world =
      s.world.step (.complete t (.error exception)) := by
    rw [Executions.step, if_pos ht]
  obtain ⟨d', hcomplete, hc, -⟩ := h.sound.settle_outcome ht (.error exception)
  refine ⟨?_, ?_, (h.running t ht e he).step h.sound fun result ha _ => ?_⟩
  · rw [hworld]
    exact h.sound.step _ trivial
  · rw [hworld]
    exact hc.complete_self.trans hcomplete
  · cases ha
    rfl

/-- When the function of a task throws, the record of its executor stays "Started" in every
    continuation, and the executor is counted as running. -/
theorem failed_counts (as : List (ExecutionAction F V))
    (h : Along step Proper ({} : Executions F V) as) (t : Ptr) (e : String)
    (ht : t ∈ (run step ({} : Executions F V) as).world.obtained)
    (he : (run step ({} : Executions F V) as).world.executor? t = some e) (exception : Failure)
    (bs : List (ExecutionAction F V)) (hbs : ∀ b ∈ bs, ∀ c, b.task? = some c → c.Distinct) :
    let s := run step ({} : Executions F V) (as ++ .complete t (.error exception) :: bs)
    ((e, t), .started) ∈ s.manager.currentStatus ∧ 0 < s.manager.currentlyRunning ∧
      s.world.complete t = true := by
  intro s
  have hs : Leaked e t s := by
    rw [show s = _ from run_append ..]
    exact (along_of_mem hbs).invariant (I := Leaked e t) (fun _ _ hs ha => hs.step ha)
      ((recorded_run h).leaked ht he exception)
  exact ⟨hs.running.record, ExecutionStatusManager.currentlyRunning_pos hs.running.record, hs.complete⟩

/-- A task throws, and a second one is completed in the meantime. -/
theorem failed_counts_two :
    let s := run step ({} : Executions ℕ ℕ) ([.add 0 [], .getTask 0 "host:a"] ++
      .complete 0 (.error Failure.noneGet) :: [.add 1 [], .getTask 0 "host:a",
        .complete 1 (.ok (.taskSuccess (some 5))), .finish 0, .expire 0])
    (("host:a", 0), .started) ∈ s.manager.currentStatus ∧ 0 < s.manager.currentlyRunning ∧
      s.world.complete 0 = true :=
  failed_counts [.add 0 [], .getTask 0 "host:a"]
    (by
      refine ⟨⟨?_, trivial⟩, ⟨?_, ?_⟩, trivial⟩
      · rintro b ⟨⟩
        exact List.nodup_nil
      · rintro b ⟨⟩
        trivial
      · intro t _
        exact ⟨List.not_mem_nil, List.not_mem_nil⟩)
    0 "host:a" (by decide) (by decide) Failure.noneGet
    [.add 1 [], .getTask 0 "host:a", .complete 1 (.ok (.taskSuccess (some 5))), .finish 0, .expire 0]
    (by simp [ExecutionAction.task?, TaskAction.Distinct])

end Executions

end ReSTM
