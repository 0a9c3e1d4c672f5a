import ReSTM.Task.Progress
import ReSTM.Task.Released

/-!
# Notifications one after another

The threads that tell the subscribers of a task may happen to run one after another. Then nothing
is lost, whichever lists the subscribers draw: `complete` does what `Task.complete` says. So a
system with lists that has come to a state where nothing was lost can complete all its tasks from
there.

* `notified_inTurn`: threads that run one after another come to their end.
* `Refines.complete_inTurn`: a completion with such threads is the one of `Task.lean`.
* `waits_for_queued`: the system with lists stands still only because of cycles.
* `can_complete`: without cycles, all its tasks can be completed.
-/

namespace ReSTM

open HeapModel Transition Relation LinkedList WP

/-! ## One thread -/

namespace Adding

variable {T : Type} [BEq T] {v : T} {p p' : Adding T} {l l' : LinkedList T}

/-- The reads and writes that remain. -/
def remaining : Adding T → ℕ
  | start => 5
  | head _ => 4
  | node _ _ _ => 3
  | link _ _ _ _ => 2
  | header _ => 1
  | done => 0

/-- Each step brings an `add` nearer to its end. -/
theorem remaining_next (h : p.next v l = .ok (p', l')) : p'.remaining ≤ p.remaining - 1 := by
  cases p with
  | start =>
    cases h
    exact Nat.le_refl 4
  | head s =>
    cases hhead : s.head with
    | some nodePtr =>
      simp only [next, hhead] at h
      obtain ⟨currentValue, l₁, -, h⟩ := bind_ok_iff.mp h
      obtain ⟨_, l₂, -, h⟩ := bind_ok_iff.mp h
      cases h
      exact Nat.le_refl 3
    | none =>
      simp only [next, hhead] at h
      obtain ⟨_, l₁, -, h⟩ := bind_ok_iff.mp h
      obtain ⟨newNode, l₂, -, h⟩ := bind_ok_iff.mp h
      cases h
      exact Nat.le_succ_of_le (Nat.le_succ_of_le (Nat.le_refl 1))
  | node s nodePtr currentValue =>
    obtain ⟨newPtr, l₁, -, h⟩ := bind_ok_iff.mp h
    cases h
    exact Nat.le_refl 2
  | link s nodePtr currentValue newPtr =>
    obtain ⟨_, l₁, -, h⟩ := bind_ok_iff.mp h
    cases h
    exact Nat.le_refl 1
  | header s =>
    obtain ⟨_, l₁, -, h⟩ := bind_ok_iff.mp h
    cases h
    exact Nat.le_refl 0
  | done =>
    cases h
    exact Nat.le_refl 0

end Adding

variable {F V : Type}

namespace Notifying

variable {w : TaskWorld F V} {jobs : List (Ptr × Option ℕ)} {job : Ptr × Option ℕ} {s : Notifying}
  {i j : ℕ}

theorem put_put {n n' : Notification} {queues queues' : List (LinkedList Ptr)} :
    (s.put j n queues).put j n' queues' = s.put j n' queues' := by
  rw [put, put, put, Function.update_idem]

/-- There are as many lists as before. -/
theorem next_length {task : Ptr} {list : Option ℕ} {n n' : Notification}
    {queues queues' : List (LinkedList Ptr)} (h : n.next w task list queues = .ok (n', queues')) :
    queues'.length = queues.length := by
  cases n with
  | canRun =>
    cases hcan : Task.canRun task w with
    | error e =>
      simp only [Notification.next, hcan] at h
      cases h
    | ok res =>
      obtain ⟨complete, w'⟩ := res
      simp only [Notification.next, hcan] at h
      cases complete with
      | false =>
        cases h
        rfl
      | true =>
        cases list <;> cases h
        rfl
  | add i p =>
    cases hget : queues[i]? with
    | none =>
      simp only [Notification.next, hget] at h
      cases h
      rfl
    | some head =>
      cases hnext : p.next task head with
      | error e =>
        simp only [Notification.next, hget, hnext] at h
        cases h
      | ok res =>
        simp only [Notification.next, hget, hnext] at h
        cases h
        exact List.length_set
  | done =>
    cases h
    rfl

theorem step_length {s' : Notifying} (h : step w jobs s j = .ok s') :
    s'.queues.length = s.queues.length := by
  unfold step at h
  cases hjob : jobs[j]? with
  | none =>
    rw [hjob] at h
    cases h
    rfl
  | some job =>
    cases hnext : (s.threads j).next w job.1 job.2 s.queues with
    | error e =>
      simp only [hjob, hnext] at h
      cases h
    | ok res =>
      simp only [hjob, hnext] at h
      cases h
      exact next_length hnext

theorem foldlM_length {schedule : List ℕ} {s' : Notifying}
    (h : schedule.foldlM (step w jobs) s = .ok s') : s'.queues.length = s.queues.length :=
  foldlM_keeps (I := fun s' => s'.queues.length = s.queues.length)
    (fun hstep h => (step_length hstep).trans h) h rfl

/-- A thread that goes on alone adds its subscriber. -/
theorem foldlM_add {k : ℕ} {p : Adding Ptr} {l l' : LinkedList Ptr} (hk : p.remaining ≤ k)
    (hjob : jobs[j]? = some job) (hthread : s.threads j = .add i p) (hl : s.queues[i]? = some l)
    (hrest : p.rest job.1 l = .ok ((), l')) :
    (List.replicate k j).foldlM (step w jobs) s =
      .ok (s.put j (.add i .done) (s.queues.set i l')) := by
  induction k generalizing s p l with
  | zero =>
    obtain rfl : p = .done := by cases p <;> first | rfl | cases hk
    cases hrest
    obtain ⟨hlt, rfl⟩ := List.getElem?_eq_some_iff.mp hl
    rw [List.set_getElem_self, ← hthread, put, Function.update_eq_self]
    rfl
  | succ k ih =>
    rw [← Adding.next_rest job.1 p] at hrest
    obtain ⟨p', l₁, hnext, hrest⟩ := bind_ok_iff.mp hrest
    have hstep : step w jobs s j = .ok (s.put j (.add i p') (s.queues.set i l₁)) := by
      rw [step, hjob]
      simp only [hthread, Notification.next, hl, hnext]
      rfl
    have hlt : i < s.queues.length := (List.getElem?_eq_some_iff.mp hl).1
    have hk' : p'.remaining ≤ k := (Adding.remaining_next hnext).trans (by omega)
    rw [List.replicate_succ, List.foldlM_cons, hstep]
    refine (ih hk' put_self (List.getElem?_set_self hlt) hrest).trans ?_
    rw [put_put]
    exact congrArg (fun queues => Except.ok (s.put j (.add i .done) queues)) (List.set_set ..)

/-- A thread at its end stays there. -/
theorem foldlM_done (k : ℕ) (hjob : jobs[j]? = some job) (hthread : s.threads j = .done) :
    (List.replicate k j).foldlM (step w jobs) s = .ok s := by
  have hstep : step w jobs s j = .ok s := by
    rw [step, hjob]
    simp only [hthread, Notification.next]
    show Except.ok (s.put j .done s.queues) = _
    rw [← hthread, put, Function.update_eq_self]
  induction k with
  | zero => rfl
  | succ k ih =>
    rw [List.replicate_succ, List.foldlM_cons, hstep]
    exact ih

/-- The steps of a thread that goes on alone to its end. -/
def alone (j : ℕ) : List ℕ := List.replicate 6 j

theorem foldlM_alone {subs : List (List Ptr)} {d : TaskData F V}
    (hq : List.Forall₂ Represents s.queues subs) (hjob : jobs[j]? = some job)
    (hthread : s.threads j = .canRun) (hd : w.tasks.get job.1 = some d)
    (hlist : job.2 = some i) (hi : i < s.queues.length) :
    ∃ n queues subs', (alone j).foldlM (step w jobs) s = .ok (s.put j n queues) ∧ n.Ended ∧
      List.Forall₂ Represents queues subs' ∧
      subs'.flatten.Perm ([job.1].filter w.runnable ++ subs.flatten) := by
  have hlook : step w jobs s j =
      .ok (s.put j (if w.runnable job.1 then .add i .start else .done) s.queues) := by
    rw [step, hjob]
    simp only [hthread, Notification.next, Task.canRun_some hd, hlist]
    cases w.runnable job.1 <;> rfl
  rw [alone, List.replicate_succ, List.foldlM_cons, hlook]
  cases hrun : w.runnable job.1 with
  | false =>
    refine ⟨.done, s.queues, subs, foldlM_done 5 hjob put_self, .inl rfl, hq, ?_⟩
    rw [List.filter_cons_of_neg (by rw [hrun]; exact Bool.false_ne_true)]
    exact .refl _
  | true =>
    obtain ⟨list, subs', hadd, hq', hperm⟩ := LinkedList.exists_added hq hi job.1
    refine ⟨.add i .done, s.queues.set i list, subs', ?_, .inr ⟨i, rfl⟩, hq', ?_⟩
    · refine (foldlM_add (p := .start) (Nat.le_refl 5) hjob put_self
        (List.getElem?_eq_getElem hi) hadd).trans ?_
      rw [put_put]
      rfl
    · rw [List.filter_cons_of_pos hrun, List.filter_nil]
      exact hperm

/-! ## All threads, one after another -/

/-- The threads from the `k`-th on, one after another. -/
def inTurn (k n : ℕ) : List ℕ := (List.range' k n).flatMap alone

theorem foldlM_inTurn {subs : List (List Ptr)} {k n : ℕ} (hn : k + n = jobs.length)
    (hq : List.Forall₂ Represents s.queues subs)
    (hexists : ∀ job ∈ jobs, ∃ d, w.tasks.get job.1 = some d)
    (hrange : ∀ job ∈ jobs, ∃ i, job.2 = some i ∧ i < s.queues.length)
    (hended : ∀ j < k, (s.threads j).Ended) (hidle : ∀ j, k ≤ j → s.threads j = .canRun) :
    ∃ s' subs', (inTurn k n).foldlM (step w jobs) s = .ok s' ∧
      (∀ j < jobs.length, (s'.threads j).Ended) ∧ List.Forall₂ Represents s'.queues subs' ∧
      subs'.flatten.Perm (((jobs.drop k).map Prod.fst).filter w.runnable ++ subs.flatten) := by
  induction n generalizing s subs k with
  | zero =>
    obtain rfl : k = jobs.length := hn
    refine ⟨s, subs, rfl, hended, hq, ?_⟩
    rw [List.drop_length]
    exact .refl _
  | succ n ih =>
    have hlt : k < jobs.length := by omega
    have hjob : jobs[k]? = some jobs[k] := List.getElem?_eq_getElem hlt
    obtain ⟨d, hd⟩ := hexists _ (List.getElem_mem hlt)
    obtain ⟨i, hlist, hi⟩ := hrange _ (List.getElem_mem hlt)
    obtain ⟨m, queues, subs₁, hrun, hm, hq₁, hperm₁⟩ :=
      foldlM_alone hq hjob (hidle k (Nat.le_refl k)) hd hlist hi
    have hlength : queues.length = s.queues.length := foldlM_length hrun
    have hended₁ : ∀ j < k + 1, ((s.put k m queues).threads j).Ended := by
      intro j hj
      by_cases hjk : j = k
      · rw [hjk, put_self]
        exact hm
      · rw [put_of_ne hjk]
        exact hended j (by omega)
    have hidle₁ : ∀ j, k + 1 ≤ j → (s.put k m queues).threads j = .canRun := by
      intro j hj
      rw [put_of_ne (by omega)]
      exact hidle j (by omega)
    obtain ⟨s', subs', hrest, hall, hq', hperm⟩ := ih (by omega) hq₁
      (fun job hmem => (hrange job hmem).imp fun i h => ⟨h.1, hlength ▸ h.2⟩) hended₁ hidle₁
    refine ⟨s', subs', ?_, hall, hq', hperm.trans ?_⟩
    · rw [inTurn, List.range'_succ, List.flatMap_cons, List.foldlM_append, hrun]
      exact hrest
    · rw [List.drop_eq_getElem_cons hlt, List.map_cons, ← List.singleton_append, List.filter_append,
        List.append_assoc]
      exact (hperm₁.append_left _).trans (List.perm_append_comm_assoc ..)

/-- Whichever lists they draw, threads that run one after another come to their end. -/
theorem notified_inTurn {queues : List (LinkedList Ptr)} {subs : List (List Ptr)}
    (hq : List.Forall₂ Represents queues subs)
    (hexists : ∀ job ∈ jobs, ∃ d, w.tasks.get job.1 = some d)
    (hrange : ∀ job ∈ jobs, ∃ i, job.2 = some i ∧ i < queues.length) :
    ∃ queues' subs', notified w jobs queues (inTurn 0 jobs.length) = some queues' ∧
      List.Forall₂ Represents queues' subs' ∧
      subs'.flatten.Perm ((jobs.map Prod.fst).filter w.runnable ++ subs.flatten) := by
  obtain ⟨s', subs', hrun, hended, hq', hperm⟩ := foldlM_inTurn (s := { queues := queues }) (k := 0)
    (Nat.zero_add _) hq hexists hrange (fun j hj => absurd hj (Nat.not_lt_zero j)) fun _ _ => rfl
  refine ⟨s'.queues, subs', ?_, hq', hperm⟩
  have hall : s'.ended jobs = true := List.all_eq_true.mpr fun j hj =>
    Notification.ended_iff.mpr (hended j (List.mem_range.mp hj))
  rw [notified, hrun]
  dsimp only
  rw [if_pos hall]

end Notifying

/-! ## Completions with such threads -/

/-- No task succeeds with `null`. -/
def QueueAction.Valued (a : QueueAction F V) : Prop := (a.task 0).Valued

theorem QueueAction.Valued.task {a : QueueAction F V} (h : a.Valued) (i : ℕ) : (a.task i).Valued := by
  cases a <;> exact h

namespace QueueWorld

open MultiQueueData Notifying TaskWorld

variable {w : QueueWorld F V} {v : TaskWorld F V} {t s : Ptr} {d : TaskData F V}
  {queues : List (LinkedList Ptr)} {subs : List (List Ptr)} {l : List Ptr}

theorem length_addTo {T : Type} [BEq T] {value : T} {queues queues' : List (LinkedList T)}
    {list : Option ℕ} (h : addTo value queues list = .ok queues') :
    queues'.length = queues.length := by
  unfold addTo at h
  split at h
  · next i head _ =>
    cases hadd : head.add value with
    | error e =>
      rw [hadd] at h
      cases h
    | ok res =>
      rw [hadd] at h
      cases h
      exact List.length_set
  · cases h

theorem length_enqueue {list : Option ℕ} {queues' : List (LinkedList Ptr)}
    (h : enqueue queues list l = .ok queues') : queues'.length = queues.length :=
  foldlM_keeps (I := fun queues' => queues'.length = queues.length)
    (fun hadd h => (length_addTo hadd).trans h) h rfl

theorem length_takeFrom {list : Option ℕ} {opt : Option Ptr} {queues' : List (LinkedList Ptr)}
    (h : takeFrom queues list = .ok (opt, queues')) : queues'.length = queues.length := by
  unfold takeFrom at h
  split at h
  · next i head _ =>
    cases hrem : head.remove with
    | error e =>
      rw [hrem] at h
      cases h
    | ok res =>
      obtain ⟨x, head'⟩ := res
      rw [hrem] at h
      cases x <;> cases h
      · rfl
      · exact List.length_set
  · cases h

theorem length_notified {jobs : List (Ptr × Option ℕ)} {queues' : List (LinkedList Ptr)}
    {schedule : List ℕ} (h : notified v jobs queues schedule = some queues') :
    queues'.length = queues.length := by
  unfold notified at h
  cases hrun : schedule.foldlM (Notifying.step v jobs) { queues := queues } with
  | error e =>
    rw [hrun] at h
    cases h
  | ok s =>
    rw [hrun] at h
    dsimp only at h
    split at h
    · cases h
      exact foldlM_length hrun
    · cases h

/-- No step makes a list. -/
theorem length_step (w : QueueWorld F V) (a : QueueAction F V) :
    (w.step a).queues.length = w.queues.length := by
  unfold QueueWorld.step
  split
  · split
    · split
      · next h => exact length_enqueue h
      · rfl
    · rfl
  · split
    · next h =>
      split
      · exact length_takeFrom h
      · exact length_takeFrom h
      · rfl
    · rfl
    · rfl
  · split
    · split
      · split
        · next h =>
          split
          · next h' => exact (length_notified h').trans (length_enqueue h)
          · rfl
        · rfl
      · rfl
    · rfl

theorem length_run (w : QueueWorld F V) (as : List (QueueAction F V)) :
    (run QueueWorld.step w as).queues.length = w.queues.length :=
  run_invariant (I := fun w' => w'.queues.length = w.queues.length)
    (fun w' a h => (length_step w' a).trans h) as rfl

theorem exists_enqueued {i : ℕ} (hq : List.Forall₂ Represents queues subs) (hi : i < queues.length)
    (l : List Ptr) : ∃ queues' subs', enqueue queues (some i) l = .ok queues' ∧
      List.Forall₂ Represents queues' subs' := by
  induction l generalizing queues subs with
  | nil => exact ⟨queues, subs, rfl, hq⟩
  | cons x l ih =>
    obtain ⟨list, subs₁, hadd, hq₁, -⟩ := LinkedList.exists_added hq hi x
    obtain ⟨queues', subs', hok, hq'⟩ := ih hq₁ (by rw [List.length_set]; exact hi)
    refine ⟨queues', subs', ?_, hq'⟩
    have haddTo : addTo x queues (some i) = .ok (queues.set i list) := by
      simp only [addTo, Option.bind_some, List.getElem?_eq_getElem hi, Option.map_some, hadd]
      rfl
    rw [enqueue, List.foldlM_cons, haddTo]
    exact hok

/-- Every subscriber draws a list. -/
theorem jobs_range {size : ℕ} {lists : ℕ → Option ℕ} (h : ∀ k, ∃ i < size, lists k = some i)
    (l : List Ptr) : ∀ job ∈ jobs size lists l, ∃ i, job.2 = some i ∧ i < size := by
  intro job hjob
  obtain ⟨p, -, rfl⟩ := List.mem_map.mp hjob
  obtain ⟨i, hi, hlist⟩ := h p.2
  exact ⟨i, Option.filter_eq_some_iff.mpr ⟨hlist, decide_eq_true hi⟩, hi⟩

theorem jobs_length (size : ℕ) (lists : ℕ → Option ℕ) (l : List Ptr) :
    (jobs size lists l).length = l.length := by
  rw [← List.length_map (f := Prod.fst), jobs_tasks]

/-- Threads that run one after another tell everybody, whichever lists they draw. -/
theorem exists_notified {lists : ℕ → Option ℕ} (hq : List.Forall₂ Represents queues subs)
    (hexists : ∀ s ∈ l, ∃ d, v.tasks.get s = some d)
    (hlists : ∀ k, ∃ i < queues.length, lists k = some i) :
    ∃ queues', notified v (jobs queues.length lists l) queues (inTurn 0 l.length) = some queues' ∧
      Notifies v l queues queues' := by
  obtain ⟨queues', subs', hn, hq', hperm⟩ := notified_inTurn hq
    (fun job hjob => hexists job.1 (mem_of_mem_jobs hjob)) (jobs_range hlists l)
  rw [jobs_length] at hn
  rw [jobs_tasks] at hperm
  refine ⟨queues', hn, fun subs₀ hq₀ => ?_⟩
  have hsubs : subs₀ = subs :=
    Except.ok.inj ((mapM_stream hq₀).symm.trans (mapM_stream hq))
  exact ⟨subs', hq', hsubs ▸ hperm⟩

/-- A completion whose threads run one after another is the one of `Task.lean`. -/
theorem Refines.complete_inTurn (h : Refines w v) (hv : TaskWorld.Sound v) (ht : t ∈ v.obtained)
    (hd : v.tasks.get t = some d) (r : Except Failure (TaskResult F V)) {i : ℕ}
    (hi : i < w.queues.length) {lists : ℕ → Option ℕ}
    (hlists : ∀ k, ∃ i < w.queues.length, lists k = some i) :
    Refines (w.step (.complete t r (some i) lists (inTurn 0 d.subscribers.length)))
      (v.step (.complete t r)) := by
  obtain ⟨subs, hq, -⟩ := h.queues
  have hsettle : ∀ d', (∀ q, Task.update t d r { v with workQueue := q } =
      .ok (d', { v with workQueue := q })) →
      Refines (w.step (.complete t r (some i) lists (inTurn 0 d.subscribers.length)))
        (v.step (.complete t r)) := by
    intro d' hupdate
    obtain ⟨queues, hnotified, hn⟩ := exists_notified hq (exists_subscriber hv ht hd d') hlists
    exact h.settled hv ht hd hupdate hnotified hn (some i)
  match r with
  | .error e => exact hsettle { d with exception := some e } fun _ => rfl
  | .ok (.taskSuccess success) => exact hsettle { d with result := success } fun _ => rfl
  | .ok (.taskContinue next newTriggers) =>
    by_cases hmem : ∀ u ∈ newTriggers, ∃ e, v.tasks.get u = some e
    · have hidle := hv.not_runnable_continued ht hd next newTriggers
      obtain ⟨queues, subs', henqueue, hq'⟩ :=
        exists_enqueued hq hi (resumed v t d next newTriggers).workQueue
      have hlength : queues.length = w.queues.length := length_enqueue henqueue
      obtain ⟨queues', hnotified, hn⟩ := exists_notified (v := resumed v t d next newTriggers) hq'
        (fun s hs => ⟨_, (hidle s hs).choose_spec.1⟩) (hlength ▸ hlists)
      exact h.continued hv ht hd next hmem henqueue hnotified hn
    · rw [h.not_continued hd next hmem, TaskWorld.step_not_continue hd next hmem]
      exact h

/-! ## Nothing comes to a halt but for cycles -/

theorem manned_of_run {size : ℕ} {as : List (QueueAction F V)}
    (h : ∀ a ∈ as, a.Distinct ∧ a.Valued)
    (hapart : Along step ReleasesApart (start size : QueueWorld F V) as) :
    ∃ v, Refines (run step (start size) as) v ∧ Manned v := by
  obtain ⟨bs, hmem, hdistinct, hrefines⟩ := simulated (fun a ha => (h a ha).1) hapart
  refine ⟨_, hrefines, manned_run fun b hb => ⟨hdistinct b hb, ?_⟩⟩
  obtain ⟨a, ha, i, rfl⟩ := hmem b hb
  exact (h a ha).2.task i

/-- In every run in which no task succeeds with `null` and no completion releases two subscribers
    to one list, every task that is not complete waits for one that is in a list or was obtained,
    or for a cycle. -/
theorem waits_for_queued (size : ℕ) (as : List (QueueAction F V))
    (h : ∀ a ∈ as, a.Distinct ∧ a.Valued) (hapart : Along step ReleasesApart (start size) as) :
    let w := run step (start size : QueueWorld F V) as
    ∃ items, w.stream = .ok items ∧
      ∀ t d, w.tasks.get t = some d → d.isComplete = false →
        ∃ u, ReflTransGen w.world.Waits t u ∧
          (u ∈ items ∨ u ∈ w.obtained ∨ TransGen w.world.Waits u u) := by
  obtain ⟨v, hrefines, hv⟩ := manned_of_run h hapart
  obtain ⟨subs, hq, hperm⟩ := hrefines.queues
  refine ⟨subs.flatten, ?_, fun t d hd hincomplete => ?_⟩
  · rw [stream, mapM_stream hq]
    rfl
  · rw [hrefines.tasks] at hd
    obtain ⟨u, htu, hu⟩ := hv.waits_for_active hd hincomplete
    rw [hrefines.world, hrefines.obtained]
    refine ⟨u, htu, ?_⟩
    rw [← hperm.mem_iff, ← or_assoc]
    exact hu

/-- Two tasks that wait for each other: the first goes on when the second has been added. -/
theorem waits_for_queued_crossed :
    let w := run step (start 1 : QueueWorld ℕ ℕ) [.add 0 [] (some 0), .add 1 [0] none,
      .getTask (some 0) "a", .complete 0 (.ok (.taskContinue 2 [1])) none (fun _ => none) [0]]
    ∃ items, w.stream = .ok items ∧
      ∀ t d, w.tasks.get t = some d → d.isComplete = false →
        ∃ u, ReflTransGen w.world.Waits t u ∧
          (u ∈ items ∨ u ∈ w.obtained ∨ TransGen w.world.Waits u u) :=
  waits_for_queued 1 [.add 0 [] (some 0), .add 1 [0] none, .getTask (some 0) "a",
    .complete 0 (.ok (.taskContinue 2 [1])) none (fun _ => none) [0]]
    (by simp [QueueAction.Distinct, QueueAction.Valued, QueueAction.task, TaskAction.Distinct,
      TaskAction.Valued]) (by decide)

/-! ## All tasks can be completed -/

/-- A list that is not empty gives a task. -/
theorem exists_takeFrom (hq : List.Forall₂ Represents queues subs) (ht : t ∈ subs.flatten) :
    ∃ i u queues', takeFrom queues (some i) = .ok (some u, queues') := by
  obtain ⟨xs, hxs, ht⟩ := List.mem_flatten.mp ht
  obtain ⟨i, hi, rfl⟩ := List.mem_iff_getElem.mp hxs
  have hi' : i < queues.length := hq.length_eq ▸ hi
  have hrep : Represents queues[i] subs[i] := hq.get hi' hi
  cases hlist : subs[i] with
  | nil =>
    rw [hlist] at ht
    cases ht
  | cons u xs =>
    rw [hlist] at hrep
    obtain ⟨head', hrem, -⟩ := LinkedList.remove_spec hrep
    refine ⟨i, u, queues.set i head', ?_⟩
    simp only [takeFrom, Option.bind_some, List.getElem?_eq_getElem hi', Option.map_some, hrem]
    rfl

/-- The step of an executor that completes `t` with the outcome `r`, and tells the subscribers
    one after another. -/
def completeInTurn (w : QueueWorld F V) (t : Ptr) (r : Except Failure V) : QueueAction F V :=
  .complete t (outcomeOf r) (some 0) (fun _ => some 0)
    (inTurn 0 (((w.tasks.get t).map (·.subscribers)).getD []).length)

theorem Refines.completeInTurn (h : Refines w v) (hv : TaskWorld.Sound v) (ht : t ∈ v.obtained)
    (hsize : 0 < w.queues.length) (r : Except Failure V) :
    Refines (w.step (w.completeInTurn t r)) (v.step (.complete t (outcomeOf r))) := by
  obtain ⟨d, hd, -⟩ := hv.obtained_mem t ht
  have hlength : (((w.tasks.get t).map (·.subscribers)).getD []).length = d.subscribers.length := by
    rw [h.tasks, hd]
    rfl
  rw [QueueWorld.completeInTurn, hlength]
  exact h.complete_inTurn hv ht hd (outcomeOf r) hsize fun _ => ⟨0, hsize, rfl⟩

/-- As long as there are tasks that are not complete, one of them can be completed. -/
theorem Refines.complete_one (h : Refines w v) (hv : Flowing v) (hsize : 0 < w.queues.length)
    (r : Ptr → Except Failure V) (ht : t ∈ v.unfinished) :
    ∃ u ∈ v.unfinished, ∃ bs : List (QueueAction F V), ∃ v', bs.length ≤ 2 ∧
      (∀ b ∈ bs, Completes r (b.task 0)) ∧ Refines (run QueueWorld.step w bs) v' ∧ Flowing v' ∧
      Task.result u v' = r u ∧ ∀ s, (s ∈ v'.unfinished ↔ s ∈ v.unfinished ∧ s ≠ u) ∧
        (s ≠ u → Task.result s v' = Task.result s v) := by
  obtain ⟨d, hd, hincomplete⟩ := mem_unfinished.mp ht
  obtain ⟨u, e, hactive, he, hincomplete'⟩ := hv.exists_active hd hincomplete
  rcases hactive with hqueued | hobtained
  · obtain ⟨subs, hq, hperm⟩ := h.queues
    obtain ⟨k, x, queues, htake⟩ := exists_takeFrom hq (hperm.mem_iff.mp hqueued)
    obtain ⟨i, hi, hrefines⟩ := h.getTask_some hv.toSound htake ""
    obtain ⟨d', f, hd', -, hready, -⟩ := hv.getTask_some "" hi
    have hx : x ∈ v.unfinished := by
      refine mem_unfinished.mpr ⟨d', hd', ?_⟩
      rw [TaskData.isComplete, hready.2.1, hready.2.2.1]
      rfl
    obtain ⟨hobtained, hflowing, hresult, hothers⟩ := hv.complete_queued r hi ""
    have hsound : TaskWorld.Sound (v.step (.getTask i "")) := hv.toSound.step _ trivial
    have hsize' : 0 < (w.step (.getTask (some k) "")).queues.length := by
      rw [length_step]
      exact hsize
    refine ⟨x, hx, [.getTask (some k) "", (w.step (.getTask (some k) "")).completeInTurn x (r x)],
      _, Nat.le_refl 2, ?_, hrefines.completeInTurn hsound hobtained hsize' (r x), hflowing, hresult,
      hothers⟩
    intro b hb
    rcases List.mem_cons.mp hb with rfl | hb
    · trivial
    · rw [List.mem_singleton.mp hb]
      rfl
  · obtain ⟨hflowing, hresult, hothers⟩ := hv.complete_obtained r hobtained
    refine ⟨u, mem_unfinished.mpr ⟨e, he, hincomplete'⟩, [w.completeInTurn u (r u)], _,
      Nat.le_succ 1, ?_, h.completeInTurn hv.toSound hobtained hsize (r u), hflowing, hresult,
      hothers⟩
    intro b hb
    rw [List.mem_singleton.mp hb]
    rfl

theorem Refines.complete_all (h : Refines w v) (hv : Flowing v) (hsize : 0 < w.queues.length)
    (r : Ptr → Except Failure V) :
    ∃ bs : List (QueueAction F V), ∃ v', bs.length ≤ 2 * v.unfinished.card ∧
      (∀ b ∈ bs, Completes r (b.task 0)) ∧ Refines (run QueueWorld.step w bs) v' ∧
      v'.unfinished = ∅ ∧ (∀ s ∈ v.unfinished, Task.result s v' = r s) ∧
      ∀ s, s ∉ v.unfinished → Task.result s v' = Task.result s v := by
  induction hn : v.unfinished.card generalizing w v with
  | zero =>
    have hempty := Finset.card_eq_zero.mp hn
    refine ⟨[], v, Nat.zero_le _, List.forall_mem_nil _, h, hempty, fun s hs => ?_, fun _ _ => rfl⟩
    rw [hempty] at hs
    cases hs
  | succ n ih =>
    obtain ⟨t, ht⟩ := Finset.card_pos.mp (by rw [hn]; exact Nat.succ_pos n)
    obtain ⟨u, hu, bs, v₁, hlength, hbs, h₁, hv₁, hru, hothers⟩ := h.complete_one hv hsize r ht
    have herase : v₁.unfinished = v.unfinished.erase u := by
      ext s
      rw [(hothers s).1, Finset.mem_erase, and_comm]
    have hcard : v₁.unfinished.card = n := by
      rw [herase, Finset.card_erase_of_mem hu, hn, Nat.add_sub_cancel]
    have hsize₁ : 0 < (run QueueWorld.step w bs).queues.length := by rwa [length_run]
    obtain ⟨cs, v', hlength', hcs, h', hempty, hresult, hold⟩ := ih h₁ hv₁ hsize₁ hcard
    refine ⟨bs ++ cs, v', ?_, ?_, by rwa [run_append], hempty, ?_, ?_⟩
    · rw [List.length_append]
      omega
    · exact fun b hb => (List.mem_append.mp hb).elim (hbs b) (hcs b)
    · intro s hs
      by_cases hsu : s = u
      · subst hsu
        rw [hold s fun hs' => ((hothers s).1.mp hs').2 rfl, hru]
      · exact hresult s ((hothers s).1.mpr ⟨hs, hsu⟩)
    · intro s hs
      rw [hold s fun hs' => hs ((hothers s).1.mp hs').1,
        (hothers s).2 fun hsu => hs (hsu ▸ hu)]

theorem Refines.result_eq (h : Refines w v) (t : Ptr) : Task.result t w.world = Task.result t v := by
  rw [h.world]
  rfl

theorem Refines.unfinished_eq (h : Refines w v) : w.world.unfinished = v.unfinished := by
  rw [h.world]
  rfl

/-- No task is made to wait for one that waits for it. -/
def Forward (w : QueueWorld F V) (a : QueueAction F V) : Prop := w.world.Forward (a.task 0)

/-- In every run in which no task succeeds with `null` or is made to wait for one that waits for
    it, and no completion releases two subscribers, whatever the functions of the tasks that are not
    complete will return or throw: all of them can still be completed with that, in two steps for
    each. -/
theorem can_complete (size : ℕ) (hsize : 0 < size) (as : List (QueueAction F V))
    (h : Along step (fun w a => (a.Distinct ∧ a.Valued) ∧ w.Forward a ∧ w.ReleasesOne a)
      (start size) as) (r : Ptr → Except Failure V) :
    let w := run step (start size : QueueWorld F V) as
    ∃ bs : List (QueueAction F V), bs.length ≤ 2 * w.world.unfinished.card ∧
      (∀ b ∈ bs, Completes r (b.task 0)) ∧
      (run step (start size) (as ++ bs)).world.unfinished = ∅ ∧
      ∀ t d, w.tasks.get t = some d →
        Task.result t (run step (start size) (as ++ bs)).world =
          if d.isComplete then Task.result t w.world else r t := by
  intro w
  have hflowing : ∃ v, Refines w v ∧ Flowing v := by
    refine h.invariant (I := fun w => ∃ v, Refines w v ∧ Flowing v) ?_
      ⟨{}, refines_start size, flowing_empty⟩
    rintro w a ⟨v, hrefines, hv⟩ ⟨⟨hdistinct, hvalued⟩, hforward, hone⟩
    rcases hrefines.step hv.toSound a hone.apart with h' | ⟨i, h'⟩
    · exact ⟨v, h', hv⟩
    · refine ⟨_, h', hv.step (distinct_task hdistinct i) (hvalued.task i) ?_⟩
      rw [Forward, hrefines.world] at hforward
      cases a <;> exact hforward
  obtain ⟨v, hrefines, hv⟩ := hflowing
  have hlength : w.queues.length = size :=
    (length_run (start size) as).trans List.length_replicate
  obtain ⟨bs, v', hbound, hbs, h', hempty, hresult, hold⟩ :=
    hrefines.complete_all hv (hlength ▸ hsize) r
  refine ⟨bs, by rwa [hrefines.unfinished_eq], hbs, ?_, fun t d hd => ?_⟩
  · rw [run_append, h'.unfinished_eq, hempty]
  · rw [run_append, h'.result_eq, hrefines.result_eq]
    rw [hrefines.tasks] at hd
    cases hcomplete : d.isComplete with
    | false => exact hresult t (mem_unfinished.mpr ⟨d, hd, hcomplete⟩)
    | true =>
      refine hold t fun ht => ?_
      obtain ⟨d', hd', hincomplete⟩ := mem_unfinished.mp ht
      rw [Option.some.inj (hd'.symm.trans hd), hcomplete] at hincomplete
      cases hincomplete

/-- A task waits for another, which adds a third one and waits for it. -/
def forwardRun : List (QueueAction ℕ ℕ) :=
  [.add 0 [] (some 0), .add 1 [0] none, .getTask (some 0) "a", .add 2 [] (some 0),
    .complete 0 (.ok (.taskContinue 3 [2])) none (fun _ => none) [0]]

theorem forward_forwardRun :
    Along step (fun w a => (a.Distinct ∧ a.Valued) ∧ w.Forward a ∧ w.ReleasesOne a)
      (start 1 : QueueWorld ℕ ℕ) forwardRun := by
  refine ⟨⟨⟨List.nodup_nil, trivial⟩, List.not_mem_nil, trivial⟩,
    ⟨⟨List.nodup_singleton 0, trivial⟩, show (1 : ℕ) ∉ [0] by decide, trivial⟩,
    ⟨⟨trivial, trivial⟩, trivial, trivial⟩, ⟨⟨List.nodup_nil, trivial⟩, List.not_mem_nil, trivial⟩,
    ⟨⟨List.nodup_singleton 2, trivial⟩, ?_, by decide⟩, trivial⟩
  intro u hu hreach
  obtain rfl := List.mem_singleton.mp hu
  -- the third task has no triggers
  rcases ReflTransGen.cases_head hreach with heq | ⟨c, ⟨d, hd, -, hmem, -⟩, -⟩
  · cases heq
  · obtain rfl : d = { kryoTask := some 2 } := Option.some.inj (hd.symm.trans (by decide))
    cases hmem

theorem can_complete_forwardRun :
    let w := run step (start 1 : QueueWorld ℕ ℕ) forwardRun
    ∃ bs : List (QueueAction ℕ ℕ), bs.length ≤ 2 * w.world.unfinished.card ∧
      (∀ b ∈ bs, Completes (fun t => .ok (t + 5)) (b.task 0)) ∧
      (run step (start 1) (forwardRun ++ bs)).world.unfinished = ∅ ∧
      ∀ t d, w.tasks.get t = some d →
        Task.result t (run step (start 1) (forwardRun ++ bs)).world =
          if d.isComplete then Task.result t w.world else .ok (t + 5) :=
  can_complete 1 Nat.one_pos forwardRun forward_forwardRun fun t => .ok (t + 5)

end QueueWorld

end ReSTM
