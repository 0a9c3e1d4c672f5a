import ReSTM.Common.Waiting
import ReSTM.Task.Completion
import ReSTM.Task.Triggers

/-!
# Tasks do not get stuck

A task that is not complete is in the queue, or an executor has obtained it, or it waits for a
trigger that is not complete either. So nothing comes to a halt but for a cycle of triggers, or for
a task that has succeeded with `null`: `Option(success)` is then `None`, and the task has an
executor, but neither a result nor anybody who would give it one.

* `Manned.waits_for_active`: every task that is not complete waits for one that is queued or
  obtained, or for a cycle, after runs in which no task succeeds with `null`.
* `Flowing.complete_queued`: without cycles, a task that is queued can be obtained and completed.
* `null_never_completes`: what waits for a task that has succeeded with `null` never runs.
-/

namespace ReSTM

open HeapModel Transition Relation

variable {F V : Type}

/-- No task succeeds with `null`. -/
def TaskAction.Valued : TaskAction F V → Prop
  | .complete _ (.ok (.taskSuccess none)) => False
  | _ => True

theorem Task.update_error (t : Ptr) (d : TaskData F V) (e : Failure) (w : TaskWorld F V) :
    Task.update t d (.error e) w = .ok ({ d with exception := some e }, w) := rfl

theorem Task.update_success (t : Ptr) (d : TaskData F V) (v : Option V) (w : TaskWorld F V) :
    Task.update t d (.ok (.taskSuccess v)) w = .ok ({ d with result := v }, w) := rfl

namespace TaskWorld

variable {w w' : TaskWorld F V} {t u s : Ptr} {l : List Ptr} {d e : TaskData F V} {f : F}
  {a : TaskAction F V}

/-- A task that is not complete waits for each of its triggers that is not complete. -/
def Waits (w : TaskWorld F V) (s u : Ptr) : Prop :=
  ∃ d, w.tasks.get s = some d ∧ d.isComplete = false ∧ u ∈ d.triggers ∧ w.complete u = false

/-- The task is in the queue, or an executor has obtained it. -/
def Active (w : TaskWorld F V) (s : Ptr) : Prop := s ∈ w.workQueue ∨ s ∈ w.obtained

/-- No task is made to wait for one that waits for it. -/
def Forward (w : TaskWorld F V) : TaskAction F V → Prop
  | .add _ ancestors => w.tasks.next ∉ ancestors
  | .complete t (.ok (.taskContinue _ newTriggers)) =>
    ∀ u ∈ newTriggers, ¬ReflTransGen w.Waits u t
  | _ => True

/-! ## What one step does -/

/-- A step does nothing, or adds a task, hands one to an executor, settles one or lets it go on. -/
inductive Does (w : TaskWorld F V) : TaskAction F V → TaskWorld F V → Prop
  | nothing (a : TaskAction F V)
      (hfails : ∀ t r, a = .complete t r → t ∈ w.obtained → ∃ e, Task.complete t r w = .error e) :
      Does w a w
  | added (f : F) (ancestors : List Ptr)
      (hmem : ∀ u ∈ ancestors, ∃ e, (w.create f ancestors).tasks.get u = some e) :
      Does w (.add f ancestors) (w.added f ancestors)
  | started (i : ℕ) (executorName : String) (t : Ptr) (d : TaskData F V)
      (hi : w.workQueue[i]? = some t) (hd : w.tasks.get t = some d) (hready : w.Ready d) :
      Does w (.getTask i executorName) (w.started i executorName t d)
  | settled (t : Ptr) (r : Except Failure (TaskResult F V)) (d d' : TaskData F V)
      (ht : t ∈ w.obtained) (hd : w.tasks.get t = some d)
      (hexecutor : d'.executorId = d.executorId) (htriggers : d'.triggers = d.triggers)
      (hcomplete : d'.isComplete = true ∨ r = .ok (.taskSuccess none)) :
      Does w (.complete t r) { w.settle t d' d.subscribers with obtained := w.obtained.erase t }
  | continued (t : Ptr) (d : TaskData F V) (next : F) (newTriggers : List Ptr)
      (ht : t ∈ w.obtained) (hd : w.tasks.get t = some d) :
      Does w (.complete t (.ok (.taskContinue next newTriggers)))
        (w.continued t d next newTriggers)

theorem Sound.does (h : Sound w) (a : TaskAction F V) : Does w a (w.step a) := by
  cases a with
  | add f ancestors =>
    rw [TaskWorld.step]
    rcases add_cases f ancestors w with ⟨hmem, hok⟩ | ⟨e, he⟩
    · rw [hok]
      exact .added f ancestors hmem
    · rw [he]
      refine .nothing _ fun t r heq => ?_
      cases heq
  | getTask i executorName =>
    rcases h.getTask_cases i executorName with heq | ⟨t, d, hi, hd, hready, heq⟩ <;> rw [heq]
    · refine .nothing _ fun t r heq => ?_
      cases heq
    · exact .started i executorName t d hi hd hready
  | complete t r =>
    by_cases ht : t ∈ w.obtained
    · obtain ⟨d, hd, -, hincomplete⟩ := h.obtained_mem t ht
      cases r with
      | error e =>
        rw [h.step_settle ht hd (Task.update_error t d e w)]
        refine .settled t _ d _ ht hd rfl rfl (.inl ?_)
        exact Bool.or_true _
      | ok r =>
        cases r with
        | taskSuccess v =>
          rw [h.step_settle ht hd (Task.update_success t d v w)]
          refine .settled t _ d _ ht hd rfl rfl ?_
          cases v with
          | none => exact .inr rfl
          | some v => exact .inl rfl
        | taskContinue next newTriggers =>
          by_cases hmem : ∀ u ∈ newTriggers, ∃ e, w.tasks.get u = some e
          · rw [h.step_continue ht hd next hmem]
            exact .continued t d next newTriggers ht hd
          · -- the transaction fails
            push Not at hmem
            obtain ⟨u, hu, hnone⟩ := hmem
            obtain ⟨e, he⟩ := Task.initTriggers_none w t
              (({ d with triggers := newTriggers, executorId := none } : TaskData F V).newTask next)
              ⟨u, hu, Option.eq_none_iff_forall_ne_some.mpr hnone⟩
            have hupdate : Task.update t d (.ok (.taskContinue next newTriggers)) w = _ := he
            have hfails : Task.complete t (.ok (.taskContinue next newTriggers)) w = .error e := by
              rw [Task.complete, WP.bind_ok (Task.read_some hd), WP.bind_error hupdate]
            rw [TaskWorld.step, if_pos ht, hfails]
            refine .nothing _ fun t' r ha _ => ?_
            cases ha
            exact ⟨e, hfails⟩
    · rw [TaskWorld.step, if_neg ht]
      refine .nothing _ fun t' r ha ht' => ?_
      cases ha
      exact absurd ht' ht

/-- What is complete stays so, and what waits did so before, or is the task that has changed. -/
theorem Change.waits (hc : Change t d l w w') (hmono : w.complete t = true → d.isComplete = true)
    (h : w'.Waits s u) : s ≠ t ∧ w.Waits s u ∨ s = t ∧ d.isComplete = false ∧ u ∈ d.triggers ∧
      w.complete u = false := by
  obtain ⟨e, he, hincomplete, hmem, hu⟩ := h
  have hu : w.complete u = false := by
    by_cases hut : u = t
    · subst hut
      rw [hc.complete_self] at hu
      by_contra hcomplete
      rw [hmono (Bool.of_not_eq_false hcomplete)] at hu
      cases hu
    · rwa [hc.complete_of_ne hut] at hu
  rcases hc.of_get he with ⟨rfl, rfl⟩ | ⟨hs, e₀, he₀, rfl⟩
  · exact .inr ⟨rfl, hincomplete, hmem, hu⟩
  · exact .inl ⟨hs, e₀, he₀, hincomplete, hmem, hu⟩

/-! ## Executors -/

/-- Whoever has an executor and is not complete was obtained and not completed. -/
structure Manned (w : TaskWorld F V) : Prop extends Sound w where
  running : ∀ s d, w.tasks.get s = some d → d.executorId.isSome → d.isComplete = false →
    s ∈ w.obtained

theorem Manned.step (h : Manned w) (hdistinct : a.Distinct) (hvalued : a.Valued) :
    Manned (w.step a) := by
  refine ⟨h.toSound.step a hdistinct, ?_⟩
  intro s e he hexecutor hincomplete
  have hdoes := h.does a
  generalize w.step a = w' at hdoes he ⊢
  cases hdoes with
  | nothing => exact h.running s e he hexecutor hincomplete
  | added f ancestors hmem =>
    obtain ⟨d, hc, -, hnone, -⟩ := change_added f ancestors w
    rcases hc.of_get he with ⟨rfl, rfl⟩ | ⟨-, e₀, he₀, rfl⟩
    · rw [hnone] at hexecutor
      cases hexecutor
    · have hs := h.running s e₀ he₀ hexecutor hincomplete
      rwa [show (w.added f ancestors).obtained = w.obtained from subscribe_obtained]
  | started i executorName t d hi hd hready =>
    rcases (change_started hd i executorName).of_get he with ⟨rfl, -⟩ | ⟨-, e₀, he₀, rfl⟩
    · exact List.mem_cons_self
    · exact List.mem_cons_of_mem _ (h.running s e₀ he₀ hexecutor hincomplete)
  | settled t r d d' ht hd _ _ hcomplete =>
    rcases (change_settle hd).of_get he with ⟨rfl, rfl⟩ | ⟨hst, e₀, he₀, rfl⟩
    · rcases hcomplete with hcomplete | rfl
      · rw [hcomplete] at hincomplete
        cases hincomplete
      · exact hvalued.elim
    · exact (List.mem_erase_of_ne hst).mpr (h.running s e₀ he₀ hexecutor hincomplete)
  | continued t d next newTriggers ht hd =>
    rcases (change_continued hd next newTriggers).of_get he with ⟨rfl, rfl⟩ | ⟨hst, e₀, he₀, rfl⟩
    · cases hexecutor
    · exact (List.mem_erase_of_ne hst).mpr (h.running s e₀ he₀ hexecutor hincomplete)

/-- A task that is not complete is queued, obtained or waiting. -/
theorem Manned.active_or_waits (h : Manned w) (hd : w.tasks.get t = some d)
    (hincomplete : d.isComplete = false) : w.Active t ∨ ∃ u, w.Waits t u := by
  by_cases hexecutor : d.executorId.isSome
  · exact .inl (.inr (h.running t d hd hexecutor hincomplete))
  by_cases htriggered : w.triggered d = true
  · have hnone : d.executorId = none := by simpa using hexecutor
    obtain ⟨hresult, hexception⟩ : d.result = none ∧ d.exception = none := by
      simpa [TaskData.isComplete] using hincomplete
    have hcount := h.queued t d hd
    rw [if_pos ⟨hnone, hresult, hexception, htriggered⟩] at hcount
    exact .inl (.inl (List.count_pos_iff.mp (by omega)))
  · rw [triggered_iff] at htriggered
    push Not at htriggered
    obtain ⟨u, hu, hcomplete⟩ := htriggered
    exact .inr ⟨u, d, hd, hincomplete, hu, Bool.of_not_eq_true hcomplete⟩

/-- Triggers exist. -/
theorem Linked.waits_lt (h : Linked w) (hsu : w.Waits s u) : u ∈ Finset.range w.tasks.next := by
  obtain ⟨d, hd, -, hmem, -⟩ := hsu
  obtain ⟨e, he⟩ := h.triggers_mem s d hd u hmem
  exact Finset.mem_range.mpr (Heap.lt_next he)

/-- Whoever is waited for is not complete. -/
theorem Linked.incomplete_of_reaches (h : Linked w) (hd : w.tasks.get t = some d)
    (hincomplete : d.isComplete = false) (htu : ReflTransGen w.Waits t u) :
    ∃ e, w.tasks.get u = some e ∧ e.isComplete = false := by
  rcases ReflTransGen.cases_tail htu with rfl | ⟨b, -, d', hd', -, hmem, hcomplete⟩
  · exact ⟨d, hd, hincomplete⟩
  · obtain ⟨e, he⟩ := h.triggers_mem b d' hd' u hmem
    exact ⟨e, he, (complete_some he).symm.trans hcomplete⟩

theorem manned_empty : Manned ({} : TaskWorld F V) := by
  refine ⟨sound_empty, fun s d hd => ?_⟩
  rw [Heap.get_empty] at hd
  cases hd

/-- A task that is not complete waits for one that is queued or obtained, or for a cycle. -/
theorem Manned.waits_for_active (h : Manned w) (hd : w.tasks.get t = some d)
    (hincomplete : d.isComplete = false) :
    ∃ u, ReflTransGen w.Waits t u ∧ (w.Active u ∨ TransGen w.Waits u u) := by
  rcases exists_end_or_cycle (fun _ _ => h.waits_lt) t with ⟨u, htu, hend⟩ | ⟨u, htu, hcycle⟩
  · obtain ⟨e, he, hincomplete'⟩ := h.incomplete_of_reaches hd hincomplete htu
    refine ⟨u, htu, .inl ?_⟩
    exact (h.active_or_waits he hincomplete').resolve_right fun ⟨c, hc⟩ => hend c hc
  · exact ⟨u, htu, .inr hcycle⟩

theorem manned_run {as : List (TaskAction F V)} (h : ∀ a ∈ as, a.Distinct ∧ a.Valued) :
    Manned (run step ({} : TaskWorld F V) as) :=
  (along_of_mem h).invariant (I := Manned) (fun _ _ hs ha => hs.step ha.1 ha.2) manned_empty

/-! ## Without cycles -/

/-- No tasks wait for each other. -/
structure Flowing (w : TaskWorld F V) : Prop extends Manned w where
  acyclic : Acyclic w.Waits

theorem Flowing.step (h : Flowing w) (hdistinct : a.Distinct) (hvalued : a.Valued)
    (hforward : w.Forward a) : Flowing (w.step a) := by
  refine ⟨h.toManned.step hdistinct hvalued, ?_⟩
  have hdoes := h.does a
  generalize w.step a = w' at hdoes
  cases hdoes with
  | nothing => exact h.acyclic
  | added f ancestors hmem =>
    obtain ⟨d, hc, -, -, hresult, hexception, htriggers, -⟩ := change_added f ancestors w
    have hnext : w.complete w.tasks.next = false := by
      rw [complete, Heap.get_of_le (Nat.le_refl _)]
      rfl
    refine h.acyclic.insert (t := w.tasks.next) (l := (· ∈ ancestors)) (fun s u hsu => ?_) ?_
    · rcases hc.waits (fun htrue => absurd (hnext.symm.trans htrue) Bool.false_ne_true) hsu with ⟨-, hold⟩ | ⟨hs, -, hmem, -⟩
      · exact .inl hold
      · exact .inr ⟨hs, htriggers ▸ hmem⟩
    · -- nobody waits for a task that does not exist
      intro c hc hcn
      rcases ReflTransGen.cases_tail hcn with heq | ⟨b, -, hb⟩
      · exact hforward (heq ▸ hc)
      · exact Nat.lt_irrefl _ (Finset.mem_range.mp (h.waits_lt hb))
  | started i executorName t d hi hd hready =>
    have hmono : w.complete t = true → d.isComplete = true := (complete_some hd).symm.trans
    refine h.acyclic.mono fun s u hsu => ?_
    rcases (change_started hd i executorName).waits hmono hsu with ⟨-, hold⟩ | ⟨-, -, hmem, hu⟩
    · exact hold
    · exact absurd hready (not_ready_of_mem hmem hu)
  | settled t r d d' ht hd hexecutor htriggers _ =>
    obtain ⟨-, hincomplete, htriggered⟩ := h.obtained_some ht hd
    have hmono : w.complete t = true → d'.isComplete = true := fun htrue =>
      absurd ((complete_some hd).symm.trans htrue) (by rw [hincomplete]; exact Bool.false_ne_true)
    refine h.acyclic.mono fun s u hsu => ?_
    rcases (change_settle hd).waits hmono hsu with ⟨-, hold⟩ | ⟨-, -, hmem, hu⟩
    · exact hold
    · -- an obtained task does not wait
      rw [triggered_iff.mp htriggered u (htriggers ▸ hmem)] at hu
      cases hu
  | continued t d next newTriggers ht hd =>
    refine h.acyclic.insert (t := t) (l := (· ∈ newTriggers)) (fun s u hsu => ?_) hforward
    rcases (change_continued hd next newTriggers).waits (complete_some hd).symm.trans hsu with
      ⟨-, hold⟩ | ⟨hs, -, hmem, -⟩
    · exact .inl hold
    · exact .inr ⟨hs, hmem⟩

theorem flowing_empty : Flowing ({} : TaskWorld F V) := by
  refine ⟨manned_empty, fun s hs => ?_⟩
  obtain ⟨u, ⟨d, hd, -⟩, -⟩ := TransGen.head'_iff.mp hs
  rw [Heap.get_empty] at hd
  cases hd

/-- Some task is queued or obtained until all are complete. -/
theorem Flowing.exists_active (h : Flowing w) (hd : w.tasks.get t = some d)
    (hincomplete : d.isComplete = false) :
    ∃ u e, w.Active u ∧ w.tasks.get u = some e ∧ e.isComplete = false := by
  obtain ⟨u, htu, hend⟩ := h.acyclic.exists_end (fun _ _ => h.waits_lt) t
  obtain ⟨e, he, hincomplete'⟩ := h.incomplete_of_reaches hd hincomplete htu
  exact ⟨u, e, (h.active_or_waits he hincomplete').resolve_right fun ⟨c, hc⟩ => hend c hc, he,
    hincomplete'⟩

/-! ### How all tasks are completed -/

/-- The outcome of a task whose function returns a value or throws. -/
def outcomeOf (r : Except Failure V) : Except Failure (TaskResult F V) :=
  r.map fun v => .taskSuccess (some v)

/-- The steps of an executor that completes tasks with the outcomes `r`. -/
def Completes (r : Ptr → Except Failure V) : TaskAction F V → Prop
  | .add _ _ => False
  | .getTask _ _ => True
  | .complete t result => result = outcomeOf (r t)

/-- The tasks that are not complete. -/
def unfinished (w : TaskWorld F V) : Finset Ptr :=
  (Finset.range w.tasks.next).filter fun s => (w.tasks.get s).any (!·.isComplete)

theorem mem_unfinished : s ∈ w.unfinished ↔ ∃ d, w.tasks.get s = some d ∧ d.isComplete = false := by
  rw [unfinished, Finset.mem_filter, Finset.mem_range, Option.any_eq_true]
  constructor
  · rintro ⟨-, d, hd, hincomplete⟩
    exact ⟨d, hd, (Bool.not_eq_true' _).mp hincomplete⟩
  · rintro ⟨d, hd, hincomplete⟩
    exact ⟨Heap.lt_next hd, d, hd, (Bool.not_eq_true' _).mpr hincomplete⟩

theorem Change.result_of_ne (hc : Change t d l w w') (hs : s ≠ t) :
    Task.result s w' = Task.result s w := by
  rw [Task.result, hc.other s hs, Task.result]
  cases w.tasks.get s <;> rfl

/-- An executor completes a task that it has obtained. -/
theorem Sound.settle_outcome (h : Sound w) (ht : t ∈ w.obtained) (r : Except Failure V) :
    ∃ d', d'.isComplete = true ∧
      Change t d' [] w (w.step (.complete t (outcomeOf r))) ∧
      Task.result t (w.step (.complete t (outcomeOf r))) = r := by
  obtain ⟨d, hd, -, hincomplete⟩ := h.obtained_mem t ht
  obtain ⟨hresult, hexception⟩ : d.result = none ∧ d.exception = none := by
    simpa [TaskData.isComplete] using hincomplete
  cases r with
  | error e =>
    have hstep := h.step_settle ht hd (Task.update_error t d e w)
    have hc : Change t _ [] w (w.step (.complete t (.error e))) := hstep ▸ change_settle hd
    have hcomplete : { d with exception := some e }.isComplete = true :=
      Bool.or_true d.result.isSome
    refine ⟨_, hcomplete, hc, ?_⟩
    rw [outcomeOf, Except.map, Task.result, hc.self]
  | ok v =>
    have hstep := h.step_settle ht hd (Task.update_success t d (some v) w)
    have hc : Change t _ [] w (w.step (.complete t (.ok (.taskSuccess (some v))))) :=
      hstep ▸ change_settle hd
    refine ⟨_, rfl, hc, ?_⟩
    rw [outcomeOf, Except.map, Task.result, hc.self]
    simp only [hexception]

theorem Change.mem_unfinished_iff (hc : Change t d l w w') (hcomplete : d.isComplete = true) :
    s ∈ w'.unfinished ↔ s ∈ w.unfinished ∧ s ≠ t := by
  rw [mem_unfinished, mem_unfinished]
  constructor
  · rintro ⟨e, he, hincomplete⟩
    rcases hc.of_get he with ⟨rfl, rfl⟩ | ⟨hs, e₀, he₀, rfl⟩
    · rw [hcomplete] at hincomplete
      cases hincomplete
    · exact ⟨⟨e₀, he₀, hincomplete⟩, hs⟩
  · rintro ⟨⟨e, he, hincomplete⟩, hs⟩
    refine ⟨{ e with subscribers := e.subscribers ++ List.replicate (l.count s) t }, ?_, hincomplete⟩
    rw [hc.other s hs, he, Option.map_some]

theorem Change.mem_unfinished_keep (hc : Change t d l w w') (hd : w.tasks.get t = some e)
    (hcomplete : d.isComplete = e.isComplete) : s ∈ w'.unfinished ↔ s ∈ w.unfinished := by
  by_cases hs : s = t
  · subst hs
    rw [mem_unfinished, mem_unfinished, hc.self, hd]
    simp only [Option.some.injEq, exists_eq_left', hcomplete]
  · rw [mem_unfinished, mem_unfinished, hc.other s hs]
    cases w.tasks.get s with
    | none => simp
    | some e => simp only [Option.map_some, Option.some.injEq, exists_eq_left']; rfl

/-- An executor completes a task that it has obtained. -/
theorem Flowing.complete_obtained (h : Flowing w) (r : Ptr → Except Failure V)
    (hu : u ∈ w.obtained) :
    Flowing (w.step (.complete u (outcomeOf (r u)))) ∧
      Task.result u (w.step (.complete u (outcomeOf (r u)))) = r u ∧
      ∀ s, (s ∈ (w.step (.complete u (outcomeOf (r u)))).unfinished ↔ s ∈ w.unfinished ∧ s ≠ u) ∧
        (s ≠ u → Task.result s (w.step (.complete u (outcomeOf (r u)))) = Task.result s w) := by
  obtain ⟨d', hcomplete, hc, hresult⟩ := h.settle_outcome hu (r u)
  refine ⟨?_, hresult, fun s => ⟨hc.mem_unfinished_iff hcomplete, hc.result_of_ne⟩⟩
  cases r u <;> exact h.step trivial trivial trivial

/-- An executor obtains a task and completes it. -/
theorem Flowing.complete_queued (h : Flowing w) (r : Ptr → Except Failure V) {i : ℕ}
    (hi : w.workQueue[i]? = some u) (executorName : String) :
    u ∈ (w.step (.getTask i executorName)).obtained ∧
      Flowing ((w.step (.getTask i executorName)).step (.complete u (outcomeOf (r u)))) ∧
      Task.result u ((w.step (.getTask i executorName)).step (.complete u (outcomeOf (r u)))) = r u ∧
      ∀ s, (s ∈ ((w.step (.getTask i executorName)).step
          (.complete u (outcomeOf (r u)))).unfinished ↔ s ∈ w.unfinished ∧ s ≠ u) ∧
        (s ≠ u → Task.result s ((w.step (.getTask i executorName)).step
          (.complete u (outcomeOf (r u)))) = Task.result s w) := by
  obtain ⟨d, f, hd, -, hready, hget⟩ := h.getTask_some executorName hi
  have hstep : w.step (.getTask i executorName) = w.started i executorName u d := by
    rw [TaskWorld.step, hget]
    rfl
  have hc := change_started hd i executorName
  have hobtained : u ∈ (w.step (.getTask i executorName)).obtained := by
    rw [hstep]
    exact List.mem_cons_self
  have hflowing : Flowing (w.step (.getTask i executorName)) := h.step trivial trivial trivial
  obtain ⟨hflowing', hresult, hothers⟩ := hflowing.complete_obtained r hobtained
  refine ⟨hobtained, hflowing', hresult, fun s => ?_⟩
  obtain ⟨hunfinished, hkeep⟩ := hothers s
  refine ⟨hunfinished.trans (and_congr_left fun _ => ?_), fun hs => (hkeep hs).trans ?_⟩
  · rw [hstep, hc.mem_unfinished_keep hd rfl]
  · rw [hstep, hc.result_of_ne hs]

/-! ## After a success with `null` -/

/-- The task has an executor, is not complete, and nobody has obtained it. -/
def Lost (w : TaskWorld F V) (t : Ptr) : Prop :=
  ∃ d, w.tasks.get t = some d ∧ d.executorId.isSome ∧ d.isComplete = false ∧ t ∉ w.obtained

/-- Some task has the trigger. -/
def Triggers (w : TaskWorld F V) (t s : Ptr) : Prop :=
  ∃ d, w.tasks.get s = some d ∧ t ∈ d.triggers

theorem Lost.complete_eq (h : w.Lost t) : w.complete t = false := by
  obtain ⟨d, hd, -, hincomplete, -⟩ := h
  exact (complete_some hd).trans hincomplete

/-- A task with a lost trigger is not complete, not queued and not obtained. -/
theorem Sound.not_active (h : Sound w) (hlost : w.Lost t) (hs : w.Triggers t s) :
    w.complete s = false ∧ ¬w.Active s := by
  obtain ⟨d, hd, hmem⟩ := hs
  obtain ⟨hexecutor, hincomplete⟩ := h.waiting hd hmem hlost.complete_eq
  refine ⟨(complete_some hd).trans hincomplete, ?_⟩
  rintro (hqueued | hobtained)
  · have hcount := h.queued s d hd
    rw [if_neg (not_ready_of_mem hmem hlost.complete_eq)] at hcount
    exact List.count_eq_zero.mp hcount hqueued
  · have := (h.obtained_some hobtained hd).1
    rw [hexecutor] at this
    cases this

/-- Nothing happens to a task that is not queued and not obtained, except for its subscribers. -/
theorem Sound.keeps (h : Sound w) (hd : w.tasks.get s = some d) (hactive : ¬w.Active s)
    (a : TaskAction F V) :
    (∃ m, (w.step a).tasks.get s = some { d with subscribers := m }) ∧
      (s ∈ (w.step a).obtained → s ∈ w.obtained) := by
  have hdoes := h.does a
  generalize w.step a = w' at hdoes ⊢
  have hother : ∀ {t : Ptr} {e : TaskData F V} {l : List Ptr}, Change t e l w w' → s ≠ t →
      ∃ m, w'.tasks.get s = some { d with subscribers := m } := fun hc hs =>
    ⟨_, by rw [hc.other s hs, hd, Option.map_some]⟩
  cases hdoes with
  | nothing => exact ⟨⟨d.subscribers, hd⟩, id⟩
  | added f ancestors hmem =>
    obtain ⟨e, hc, -⟩ := change_added f ancestors w
    refine ⟨hother hc (ne_next_of_some hd), fun hs => ?_⟩
    rwa [show (w.added f ancestors).obtained = w.obtained from subscribe_obtained] at hs
  | started i executorName t e hi he hready =>
    have hs : s ≠ t := fun heq => hactive (.inl (heq ▸ List.mem_of_getElem? hi))
    exact ⟨hother (change_started he i executorName) hs,
      fun hmem => (List.mem_cons.mp hmem).resolve_left hs⟩
  | settled t r e e' ht he _ _ _ =>
    have hs : s ≠ t := fun heq => hactive (.inr (heq ▸ ht))
    exact ⟨hother (change_settle he) hs, List.mem_of_mem_erase⟩
  | continued t e next newTriggers ht he =>
    have hs : s ≠ t := fun heq => hactive (.inr (heq ▸ ht))
    exact ⟨hother (change_continued he next newTriggers) hs, List.mem_of_mem_erase⟩

theorem Sound.lost_step (h : Sound w) (hlost : w.Lost t) (a : TaskAction F V) :
    (w.step a).Lost t := by
  obtain ⟨d, hd, hexecutor, hincomplete, hobtained⟩ := hlost
  have hactive : ¬w.Active t := by
    rintro (hqueued | hmem)
    · have hcount := h.queued t d hd
      rw [if_neg fun hready => by rw [hready.1] at hexecutor; cases hexecutor] at hcount
      exact List.count_eq_zero.mp hcount hqueued
    · exact hobtained hmem
  obtain ⟨⟨m, hm⟩, hkeep⟩ := h.keeps hd hactive a
  exact ⟨_, hm, hexecutor, hincomplete, fun hmem => hobtained (hkeep hmem)⟩

/-- What a task that has succeeded with `null` leaves behind. -/
structure Abandoned (t s : Ptr) (w : TaskWorld F V) : Prop extends Sound w where
  lost : w.Lost t
  trigger : w.Triggers t s

theorem Abandoned.step (h : Abandoned t s w) (ha : a.Distinct) : Abandoned t s (w.step a) := by
  refine ⟨h.toSound.step a ha, h.lost_step h.lost a, ?_⟩
  obtain ⟨d, hd, hmem⟩ := h.trigger
  obtain ⟨⟨m, hm⟩, -⟩ := h.keeps hd (h.not_active h.lost h.trigger).2 a
  exact ⟨_, hm, hmem⟩

theorem Sound.lost_null (h : Sound w) (ht : t ∈ w.obtained) :
    (w.step (.complete t (.ok (.taskSuccess none)))).Lost t ∧
      ∀ s, w.Triggers t s → (w.step (.complete t (.ok (.taskSuccess none)))).Triggers t s := by
  obtain ⟨d, hd, hexecutor, hincomplete⟩ := h.obtained_mem t ht
  have hstep := h.step_settle ht hd (Task.update_success t d none w)
  have hc : Change t _ [] w (w.step (.complete t (.ok (.taskSuccess none)))) :=
    hstep ▸ change_settle hd
  refine ⟨⟨_, hc.self, hexecutor, ?_, ?_⟩, ?_⟩
  · exact (Bool.or_eq_false_iff.mp hincomplete).2
  · rw [hstep]
    exact h.obtained_nodup.not_mem_erase
  · rintro s ⟨e, he, hmem⟩
    obtain ⟨e', he', htriggers⟩ := hc.exists_of_some he
    by_cases hst : s = t
    · subst hst
      exact ⟨_, hc.self, Option.some.inj (he.symm.trans hd) ▸ hmem⟩
    · exact ⟨e', he', htriggers hst ▸ hmem⟩

/-- A task that has succeeded with `null` is never complete, and a task that waits for it then is
    never complete, queued or obtained, in any continuation. -/
theorem null_never_completes (as : List (TaskAction F V)) (h : ∀ a ∈ as, a.Distinct) (t : Ptr)
    (ht : t ∈ (run step ({} : TaskWorld F V) as).obtained) (bs : List (TaskAction F V))
    (hbs : ∀ b ∈ bs, b.Distinct) :
    let w := run step ({} : TaskWorld F V) as
    let w' := run step ({} : TaskWorld F V) (as ++ .complete t (.ok (.taskSuccess none)) :: bs)
    w'.complete t = false ∧
      ∀ s d, w.tasks.get s = some d → t ∈ d.triggers → w'.complete s = false ∧ ¬w'.Active s := by
  intro w w'
  have hw : Sound w := sound_run h
  obtain ⟨hlost, htriggers⟩ := hw.lost_null ht
  have hw' : w' = run step (w.step (.complete t (.ok (.taskSuccess none)))) bs := by
    rw [show w' = _ from run_append ..]
    rfl
  have hsound := hw.step (.complete t (.ok (.taskSuccess none))) trivial
  rw [hw']
  refine ⟨?_, fun s d hd hmem => ?_⟩
  · have hend := (along_of_mem hbs).invariant (I := fun w => Sound w ∧ w.Lost t)
      (fun _ a hs ha => ⟨hs.1.step a ha, hs.1.lost_step hs.2 a⟩) ⟨hsound, hlost⟩
    exact hend.2.complete_eq
  · have hend := (along_of_mem hbs).invariant (I := Abandoned t s) (fun _ _ hs ha => hs.step ha)
      ⟨hsound, hlost, htriggers s ⟨d, hd, hmem⟩⟩
    exact hend.not_active hend.lost hend.trigger

theorem null_never_completes_two :
    let w := run step ({} : TaskWorld ℕ ℕ) [.add 0 [], .add 1 [0], .getTask 0 "a"]
    let w' := run step ({} : TaskWorld ℕ ℕ) ([.add 0 [], .add 1 [0], .getTask 0 "a"] ++
      .complete 0 (.ok (.taskSuccess none)) :: [.getTask 0 "b"])
    w'.complete 0 = false ∧
      ∀ s d, w.tasks.get s = some d → 0 ∈ d.triggers → w'.complete s = false ∧ ¬w'.Active s :=
  null_never_completes [.add 0 [], .add 1 [0], .getTask 0 "a"]
    (by simp [TaskAction.Distinct]) 0 (by decide) [.getTask 0 "b"] (by simp [TaskAction.Distinct])

end TaskWorld

end ReSTM
