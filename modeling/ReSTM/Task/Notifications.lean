import Mathlib.Logic.Function.Basic
import ReSTM.Task.Bookkeeping
import ReSTM.Task.Effects

/-!
# Notifications that overlap

`Task.complete` (`stm/task/Task.scala`, lines 254–262) starts the notifications of all subscribers
at once, `Future.sequence` waits for them, and all of them run in the one transaction. Each is a
thread here, and the steps of `LinkedList.add` (`stm/collection/LinkedList.scala`, lines 147–165)
of one of them may fall between those of another. A read then returns what was written last, and
of two writes to one pointer the last one stays.

The tasks are not written while notifications run. The counter and the index of the queue, which
`TaskQueue.add` writes after the list, are left out: no list depends on them, and where they make
the transaction fail, nothing has changed.

* `Adding.next_rest`: the steps of an `add` that nothing comes between do what `add` does.
* `notified_spec`: in whatever order the notifications take their steps, if no two of them add to
  the same list, each of the subscribers that can run is added once.
-/

namespace ReSTM

open HeapModel LinkedList Nodes WP

/-- A value is added to one of the lists. -/
theorem LinkedList.exists_added {T : Type} [BEq T] {queues : List (LinkedList T)}
    {subs : List (List T)} (hq : List.Forall₂ Represents queues subs) {i : ℕ}
    (hi : i < queues.length) (value : T) :
    ∃ list subs', queues[i].add value = .ok ((), list) ∧
      List.Forall₂ Represents (queues.set i list) subs' ∧
      subs'.flatten.Perm (value :: subs.flatten) := by
  obtain ⟨q₁, q₂, s₁, xs, s₂, rfl, hxs, h₁, h₂, hset⟩ := exists_of_forall₂ hq ⟨i, hi⟩
  obtain ⟨list, hadd, hlist⟩ := LinkedList.add_spec hxs value
  refine ⟨list, _, hadd, hset list ▸ forall₂_insert h₁ hlist h₂, ?_⟩
  simp only [List.flatten_append, List.flatten_cons, List.append_assoc, List.singleton_append]
  rw [← List.append_assoc, ← List.append_assoc]
  exact List.perm_middle

/-! ## An `add` step by step -/

section Adding

variable {T : Type}

/-- Where an `add` to a list is, with what it has read. -/
inductive Adding (T : Type)
  | start
  | head (l : SimpleLinkedListHead)
  | node (l : SimpleLinkedListHead) (nodePtr : Ptr) (currentValue : SimpleLinkedListNode T)
  | link (l : SimpleLinkedListHead) (nodePtr : Ptr) (currentValue : SimpleLinkedListNode T)
      (newPtr : Ptr)
  | header (l : SimpleLinkedListHead)
  | done
deriving DecidableEq

namespace Adding

variable [BEq T]

/-- The next read or write. -/
def next (newValue : T) : Adding T → ListTxn T (Adding T)
  | start => fun l => .ok (head (l.root.getD {}), l)
  | head l =>
    match l.head with
    | some nodePtr => do
      let currentValue ← onNodes (read nodePtr)
      require currentValue.next.isNone requirementFailed
      return node l nodePtr currentValue
    | none => do
      require l.tail.isNone requirementFailed
      let newNode ← onNodes (dynamic { value := newValue })
      return header { l with head := some newNode, tail := some newNode }
  | node l nodePtr currentValue => do
    let newPtr ← onNodes (dynamic { value := newValue, prev := some nodePtr })
    return link l nodePtr currentValue newPtr
  | link l nodePtr currentValue newPtr => do
    onNodes (write SimpleLinkedListNode.equals nodePtr { currentValue with next := some newPtr })
    return header { l with head := some newPtr }
  | header l => do
    writeRoot l
    return done
  | done => return done

/-- What remains to be done. -/
def rest (newValue : T) : Adding T → ListTxn T Unit
  | start => LinkedList.add newValue
  | head l => l.add newValue
  | node l nodePtr currentValue => do
    let newPtr ← onNodes (dynamic { value := newValue, prev := some nodePtr })
    onNodes (write SimpleLinkedListNode.equals nodePtr { currentValue with next := some newPtr })
    writeRoot { l with head := some newPtr }
  | link l nodePtr currentValue newPtr => do
    onNodes (write SimpleLinkedListNode.equals nodePtr { currentValue with next := some newPtr })
    writeRoot { l with head := some newPtr }
  | header l => writeRoot l
  | done => return

/-- Nothing comes between. -/
theorem next_rest (newValue : T) (p : Adding T) :
    (p.next newValue >>= rest newValue) = p.rest newValue := by
  cases p with
  | start => rfl
  | head l =>
    simp only [next, rest, SimpleLinkedListHead.add]
    cases l.head <;> simp only [bind_assoc, pure_bind, rest]
  | node l nodePtr currentValue | link l nodePtr currentValue newPtr =>
    simp only [next, bind_assoc, pure_bind, rest]
  | header l =>
    simp only [next, bind_assoc, pure_bind, rest]
    exact bind_pure (writeRoot l)
  | done => simp only [next, pure_bind, rest]

end Adding

end Adding

/-! ## Threads -/

variable {F V : Type}

/-- Where the notification of a subscriber is: it has yet to see whether the subscriber can run,
    adds it to the `i`-th list, or has nothing more to do. -/
inductive Notification
  | canRun
  | add (i : ℕ) (adding : Adding Ptr)
  | done
deriving DecidableEq

namespace Notification

/-- The next step for the subscriber `task`, which is to be added to the list `list`. -/
def next (w : TaskWorld F V) (task : Ptr) (list : Option ℕ) :
    Notification → List (LinkedList Ptr) → Except Failure (Notification × List (LinkedList Ptr))
  | canRun, queues => do
    let (complete, _) ← Task.canRun task w
    if complete then
      match list with
      | some i => return (add i .start, queues)
      | none => throw (.transactionConflict "Could not lock any queue" none)
    else return (done, queues)
  | add i adding, queues =>
    match queues[i]? with
    | some head => do
      let (adding, head) ← adding.next task head
      return (add i adding, queues.set i head)
    | none => return (add i adding, queues)
  | done, queues => return (done, queues)

/-- The notification has come to its end. -/
def Ended (n : Notification) : Prop := n = done ∨ ∃ i, n = add i .done

def ended : Notification → Bool
  | canRun => false
  | add _ adding => decide (adding = .done)
  | done => true

theorem ended_iff {n : Notification} : n.ended = true ↔ n.Ended := by
  cases n <;> simp [ended, Ended]

end Notification

/-- The threads of all subscribers, and the lists. -/
structure Notifying where
  threads : ℕ → Notification := fun _ => .canRun
  queues : List (LinkedList Ptr)

namespace Notifying

/-- The `j`-th thread goes on at `n`. -/
def put (s : Notifying) (j : ℕ) (n : Notification) (queues : List (LinkedList Ptr)) : Notifying where
  threads := Function.update s.threads j n
  queues := queues

@[simp] theorem put_self {s : Notifying} {j : ℕ} {n : Notification}
    {queues : List (LinkedList Ptr)} : (s.put j n queues).threads j = n := by
  simp [put]

theorem put_of_ne {s : Notifying} {j k : ℕ} {n : Notification} {queues : List (LinkedList Ptr)}
    (h : k ≠ j) : (s.put j n queues).threads k = s.threads k := by
  simp [put, h]

/-- A thread takes its next step. `jobs` are the subscribers, with the list that each of them is to
    be added to. -/
def step (w : TaskWorld F V) (jobs : List (Ptr × Option ℕ)) (s : Notifying) (j : ℕ) :
    Except Failure Notifying :=
  match jobs[j]? with
  | some job => do
    let (n, queues) ← (s.threads j).next w job.1 job.2 s.queues
    return s.put j n queues
  | none => return s

/-- All subscribers have been told. -/
def ended (jobs : List (Ptr × Option ℕ)) (s : Notifying) : Bool :=
  (List.range jobs.length).all fun j => (s.threads j).ended

/-- The lists after all notifications, if the steps of the threads come in the order `schedule` and
    all of them come to their end. -/
def notified (w : TaskWorld F V) (jobs : List (Ptr × Option ℕ)) (queues : List (LinkedList Ptr))
    (schedule : List ℕ) : Option (List (LinkedList Ptr)) :=
  match schedule.foldlM (step w jobs) { queues := queues } with
  | .ok s => if s.ended jobs then some s.queues else none
  | .error _ => none

/-! ## Threads that add to different lists -/

/-- The subscriber of the `j`-th thread is to be added to the `i`-th list. -/
def Adds (w : TaskWorld F V) (jobs : List (Ptr × Option ℕ)) (j i : ℕ) : Prop :=
  ∃ job, jobs[j]? = some job ∧ w.runnable job.1 = true ∧ job.2 = some i

/-- No two subscribers that can run are to be added to the same list. -/
def Apart (w : TaskWorld F V) (jobs : List (Ptr × Option ℕ)) : Prop :=
  jobs.Pairwise fun a b => w.runnable a.1 = true → w.runnable b.1 = true →
    ∀ i, a.2 = some i → b.2 ≠ some i

/-- A list that a thread adds to is where the thread has come to, and the other ones are as they
    were. -/
structure Shares (w : TaskWorld F V) (jobs : List (Ptr × Option ℕ))
    (queues : List (LinkedList Ptr)) (s : Notifying) : Prop where
  length : s.queues.length = queues.length
  adding : ∀ (j : ℕ) job i p, jobs[j]? = some job → s.threads j = .add i p → Adds w jobs j i ∧
    ∃ l l₀, s.queues[i]? = some l ∧ queues[i]? = some l₀ ∧ p.rest job.1 l = l₀.add job.1
  done : ∀ (j : ℕ) job, jobs[j]? = some job → s.threads j = .done → w.runnable job.1 = false
  others : ∀ i, (∀ j, Adds w jobs j i → s.threads j = .canRun) → s.queues[i]? = queues[i]?

variable {w : TaskWorld F V} {jobs : List (Ptr × Option ℕ)} {queues : List (LinkedList Ptr)}
  {s s' : Notifying} {i j k : ℕ}

theorem Apart.eq (h : Apart w jobs) (hj : Adds w jobs j i) (hk : Adds w jobs k i) : j = k := by
  obtain ⟨a, ha, harun, hai⟩ := hj
  obtain ⟨b, hb, hbrun, hbi⟩ := hk
  obtain ⟨hjlt, rfl⟩ := List.getElem?_eq_some_iff.mp ha
  obtain ⟨hklt, rfl⟩ := List.getElem?_eq_some_iff.mp hb
  rcases Nat.lt_trichotomy j k with hlt | heq | hlt
  · exact absurd hbi (List.pairwise_iff_getElem.mp h j k hjlt hklt hlt harun hbrun i hai)
  · exact heq
  · exact absurd hai (List.pairwise_iff_getElem.mp h k j hklt hjlt hlt hbrun harun i hbi)

theorem shares_start : Shares w jobs queues { queues := queues } where
  length := rfl
  adding _ _ _ _ _ h := by cases h
  done _ _ _ h := by cases h
  others _ _ := rfl

theorem Adds.list_eq (h : Adds w jobs j i) (hk : Adds w jobs j k) : i = k := by
  obtain ⟨a, ha, -, hai⟩ := h
  obtain ⟨b, hb, -, hbk⟩ := hk
  obtain rfl := Option.some.inj (ha.symm.trans hb)
  exact Option.some.inj (hai.symm.trans hbk)

/-- A thread sees whether its subscriber can run. -/
theorem Shares.look (h : Shares w jobs queues s) {job : Ptr × Option ℕ} {n : Notification}
    (hjob : jobs[j]? = some job) (hthread : s.threads j = .canRun)
    (hadding : ∀ i p, n = .add i p → p = .start ∧ Adds w jobs j i)
    (hdone : n = .done → w.runnable job.1 = false)
    (hrange : ∀ i, job.2 = some i → i < queues.length) (hapart : Apart w jobs) :
    Shares w jobs queues (s.put j n s.queues) where
  length := h.length
  adding k job' i p hk hthread' := by
    by_cases hkj : k = j
    · subst hkj
      obtain rfl := Option.some.inj (hk.symm.trans hjob)
      rw [put_self] at hthread'
      obtain ⟨rfl, hadds⟩ := hadding i p hthread'
      have hidle : s.queues[i]? = queues[i]? :=
        h.others i fun k' hk' => hapart.eq hk' hadds ▸ hthread
      obtain ⟨job, hjob', -, hi⟩ := id hadds
      obtain rfl := Option.some.inj (hjob.symm.trans hjob')
      have hlt := hrange i hi
      have hget : queues[i]? = some queues[i] := List.getElem?_eq_getElem hlt
      exact ⟨hadds, queues[i], queues[i], hidle.trans hget, hget, rfl⟩
    · rw [put_of_ne hkj] at hthread'
      exact h.adding k job' i p hk hthread'
  done k job' hk hthread' := by
    by_cases hkj : k = j
    · subst hkj
      obtain rfl := Option.some.inj (hk.symm.trans hjob)
      rw [put_self] at hthread'
      exact hdone hthread'
    · rw [put_of_ne hkj] at hthread'
      exact h.done k job' hk hthread'
  others i hall := by
    refine h.others i fun k hk => ?_
    by_cases hkj : k = j
    · rw [hkj, hthread]
    · rw [← hall k hk]
      exact (put_of_ne hkj).symm

/-- A thread takes a step of its `add`. -/
theorem Shares.add (h : Shares w jobs queues s) (hapart : Apart w jobs) {job : Ptr × Option ℕ}
    {p p' : Adding Ptr} {l l' : LinkedList Ptr} (hjob : jobs[j]? = some job)
    (hthread : s.threads j = .add i p) (hl : s.queues[i]? = some l)
    (hnext : p.next job.1 l = .ok (p', l')) :
    Shares w jobs queues (s.put j (.add i p') (s.queues.set i l')) := by
  obtain ⟨hadds, l₁, l₀, hl₁, hl₀, hrest⟩ := h.adding j job i p hjob hthread
  obtain rfl := Option.some.inj (hl.symm.trans hl₁)
  have hlt : i < s.queues.length := (List.getElem?_eq_some_iff.mp hl).1
  have hrest' : p'.rest job.1 l' = l₀.add job.1 := by
    rw [← hrest, ← Adding.next_rest _ p, bind_ok hnext]
  refine ⟨?_, ?_, ?_, ?_⟩
  · exact List.length_set.trans h.length
  · intro k job' i' p'' hk hthread'
    by_cases hkj : k = j
    · subst hkj
      obtain rfl := Option.some.inj (hk.symm.trans hjob)
      rw [put_self] at hthread'
      cases hthread'
      exact ⟨hadds, l', l₀, List.getElem?_set_self hlt, hl₀, hrest'⟩
    · rw [put_of_ne hkj] at hthread'
      obtain ⟨hadds', l₂, l₃, hl₂, hl₃, hrest₂⟩ := h.adding k job' i' p'' hk hthread'
      have hne : i ≠ i' := by
        rintro rfl
        exact hkj (hapart.eq hadds' hadds)
      exact ⟨hadds', l₂, l₃, (List.getElem?_set_ne hne).trans hl₂, hl₃, hrest₂⟩
  · intro k job' hk hthread'
    by_cases hkj : k = j
    · subst hkj
      rw [put_self] at hthread'
      cases hthread'
    · rw [put_of_ne hkj] at hthread'
      exact h.done k job' hk hthread'
  · intro i' hall
    have hne : i ≠ i' := by
      rintro rfl
      have hcan := hall j hadds
      rw [put_self] at hcan
      cases hcan
    refine (List.getElem?_set_ne hne).trans (h.others i' fun k hk => ?_)
    by_cases hkj : k = j
    · subst hkj
      exact absurd (hadds.list_eq hk) hne
    · rw [← hall k hk]
      exact (put_of_ne hkj).symm

/-- A step of any thread. -/
theorem Shares.step (h : Shares w jobs queues s) (hapart : Apart w jobs)
    (hexists : ∀ job ∈ jobs, ∃ d, w.tasks.get job.1 = some d)
    (hrange : ∀ job ∈ jobs, ∀ i, job.2 = some i → i < queues.length)
    (hs : step w jobs s j = .ok s') : Shares w jobs queues s' := by
  unfold Notifying.step at hs
  cases hjob : jobs[j]? with
  | none =>
    rw [hjob] at hs
    cases hs
    exact h
  | some job =>
    rw [hjob] at hs
    dsimp only at hs
    have hmem := List.mem_of_getElem? hjob
    cases hthread : s.threads j with
    | canRun =>
      obtain ⟨d, hd⟩ := hexists job hmem
      simp only [hthread, Notification.next, Task.canRun_some hd] at hs
      cases hrun : w.runnable job.1 with
      | false =>
        rw [hrun] at hs
        cases hs
        exact h.look hjob hthread (fun i p hn => by cases hn) (fun _ => hrun) (hrange job hmem) hapart
      | true =>
        rw [hrun] at hs
        cases hlist : job.2 with
        | none =>
          rw [hlist] at hs
          cases hs
        | some i =>
          rw [hlist] at hs
          cases hs
          refine h.look hjob hthread (fun i' p hn => ?_) (fun hn => by cases hn) (hrange job hmem)
            hapart
          cases hn
          exact ⟨rfl, job, hjob, hrun, hlist⟩
    | add i p =>
      obtain ⟨-, l, -, hl, -⟩ := h.adding j job i p hjob hthread
      simp only [hthread, Notification.next, hl] at hs
      cases hnext : p.next job.1 l with
      | error e =>
        rw [hnext] at hs
        cases hs
      | ok res =>
        rw [hnext] at hs
        cases hs
        exact h.add hapart hjob hthread hl hnext
    | done =>
      rw [hthread, Notification.next] at hs
      cases hs
      rw [← hthread, put, Function.update_eq_self]
      exact h

theorem shares_run {schedule : List ℕ} (h : Shares w jobs queues s) (hapart : Apart w jobs)
    (hexists : ∀ job ∈ jobs, ∃ d, w.tasks.get job.1 = some d)
    (hrange : ∀ job ∈ jobs, ∀ i, job.2 = some i → i < queues.length)
    (hs : schedule.foldlM (Notifying.step w jobs) s = .ok s') : Shares w jobs queues s' :=
  foldlM_keeps (fun hs h => h.step hapart hexists hrange hs) hs h

/-! ## All threads at their end -/

/-- Lists to each of which at most one value was added, and the values. -/
theorem represents_added {queues' : List (LinkedList Ptr)} {subs : List (List Ptr)}
    (hq : List.Forall₂ Represents queues subs) (added : List (ℕ × Ptr))
    (hnodup : (added.map Prod.fst).Nodup) (hlength : queues'.length = queues.length)
    (hadded : ∀ a ∈ added, ∃ l l₀, queues'[a.1]? = some l ∧ queues[a.1]? = some l₀ ∧
      l₀.add a.2 = .ok ((), l))
    (hothers : ∀ i, i ∉ added.map Prod.fst → queues'[i]? = queues[i]?) :
    ∃ subs', List.Forall₂ Represents queues' subs' ∧
      subs'.flatten.Perm (added.map Prod.snd ++ subs.flatten) := by
  induction added generalizing queues subs with
  | nil =>
    have heq : queues' = queues := List.ext_getElem? fun i => hothers i List.not_mem_nil
    exact ⟨subs, heq ▸ hq, .refl _⟩
  | cons a added ih =>
    obtain ⟨hnew, hnodup⟩ := List.nodup_cons.mp hnodup
    obtain ⟨l, l₀, hl, hl₀, hadd⟩ := hadded a List.mem_cons_self
    obtain ⟨hlt, rfl⟩ := List.getElem?_eq_some_iff.mp hl₀
    obtain ⟨list, subs₁, hadd', hq', hperm₁⟩ := exists_added hq hlt a.2
    obtain rfl : list = l := by
      cases hadd'.symm.trans hadd
      rfl
    have hlength' : queues'.length = (queues.set a.1 list).length := by
      rw [List.length_set]
      exact hlength
    have hadded' : ∀ b ∈ added, ∃ l l₀, queues'[b.1]? = some l ∧
        (queues.set a.1 list)[b.1]? = some l₀ ∧ l₀.add b.2 = .ok ((), l) := by
      intro b hb
      have hne : a.1 ≠ b.1 := fun heq => hnew (heq ▸ List.mem_map_of_mem hb)
      obtain ⟨m, m₀, hm, hm₀, hbadd⟩ := hadded b (List.mem_cons_of_mem a hb)
      exact ⟨m, m₀, hm, (List.getElem?_set_ne hne).trans hm₀, hbadd⟩
    have hothers' : ∀ i, i ∉ added.map Prod.fst → queues'[i]? = (queues.set a.1 list)[i]? := by
      intro i hi
      by_cases hia : a.1 = i
      · rw [← hia, List.getElem?_set_self hlt]
        exact hl
      · rw [List.getElem?_set_ne hia]
        refine hothers i fun hmem => ?_
        rcases List.mem_cons.mp hmem with heq | hmem
        · exact hia heq.symm
        · exact hi hmem
    obtain ⟨subs', hsubs, hperm⟩ := ih hq' hnodup hlength' hadded' hothers'
    exact ⟨subs', hsubs, hperm.trans ((hperm₁.append_left _).trans List.perm_middle)⟩

/-- What is added to which list. -/
def additions (w : TaskWorld F V) (jobs : List (Ptr × Option ℕ)) : List (ℕ × Ptr) :=
  jobs.filterMap fun job => if w.runnable job.1 then job.2.map (·, job.1) else none

theorem mem_additions {t : Ptr} : (i, t) ∈ additions w jobs ↔
    ∃ j : ℕ, jobs[j]? = some (t, some i) ∧ w.runnable t = true := by
  rw [additions, List.mem_filterMap]
  constructor
  · rintro ⟨⟨t', list⟩, hmem, heq⟩
    obtain ⟨j, hj⟩ := List.mem_iff_getElem?.mp hmem
    split at heq
    · next hrun =>
      obtain ⟨i', rfl, hpair⟩ := Option.map_eq_some_iff.mp heq
      cases hpair
      exact ⟨j, hj, hrun⟩
    · cases heq
  · rintro ⟨j, hj, hrun⟩
    refine ⟨(t, some i), List.mem_of_getElem? hj, ?_⟩
    rw [if_pos hrun, Option.map_some]

theorem nodup_additions (hapart : Apart w jobs) :
    ((additions w jobs).map Prod.fst).Nodup := by
  rw [List.Nodup, List.pairwise_map, additions, List.pairwise_filterMap]
  refine hapart.imp fun {a b} h x hx y hy heq => ?_
  split at hx
  · next harun =>
    split at hy
    · next hbrun =>
      obtain ⟨i, hi, rfl⟩ := Option.map_eq_some_iff.mp hx
      obtain ⟨k, hk, rfl⟩ := Option.map_eq_some_iff.mp hy
      obtain rfl : i = k := heq
      exact h harun hbrun i hi hk
    · cases hy
  · cases hx

theorem additions_tasks (h : ∀ job ∈ jobs, w.runnable job.1 = true → ∃ i, job.2 = some i) :
    (additions w jobs).map Prod.snd = (jobs.map Prod.fst).filter w.runnable := by
  induction jobs with
  | nil => rfl
  | cons job jobs ih =>
    have hjobs := ih fun job hmem => h job (List.mem_cons_of_mem _ hmem)
    rw [additions] at hjobs ⊢
    rw [List.map_cons, List.filterMap_cons, List.filter_cons]
    cases hrun : w.runnable job.1 with
    | false => exact hjobs
    | true =>
      obtain ⟨i, hi⟩ := h job List.mem_cons_self hrun
      rw [if_pos rfl, if_pos rfl, hi]
      exact congrArg (job.1 :: ·) hjobs

/-- In whatever order the threads take their steps, each subscriber that can run is added once. -/
theorem notified_spec {queues' : List (LinkedList Ptr)} {subs : List (List Ptr)}
    {schedule : List ℕ} (hq : List.Forall₂ Represents queues subs) (hapart : Apart w jobs)
    (hexists : ∀ job ∈ jobs, ∃ d, w.tasks.get job.1 = some d)
    (hrange : ∀ job ∈ jobs, ∀ i, job.2 = some i → i < queues.length)
    (hn : notified w jobs queues schedule = some queues') :
    ∃ subs', List.Forall₂ Represents queues' subs' ∧
      subs'.flatten.Perm ((jobs.map Prod.fst).filter w.runnable ++ subs.flatten) := by
  unfold notified at hn
  cases hrun : schedule.foldlM (Notifying.step w jobs) { queues := queues } with
  | error e =>
    rw [hrun] at hn
    cases hn
  | ok s =>
    rw [hrun] at hn
    dsimp only at hn
    split at hn
    · next hended =>
      obtain rfl := Option.some.inj hn
      have h := shares_run shares_start hapart hexists hrange hrun
      have hthread : ∀ (j : ℕ) job, jobs[j]? = some job → w.runnable job.1 = true →
          ∃ i, s.threads j = .add i .done := by
        intro j job hjob hrunnable
        have hlt : j < jobs.length := (List.getElem?_eq_some_iff.mp hjob).1
        have hj := List.all_eq_true.mp hended j (List.mem_range.mpr hlt)
        rcases Notification.ended_iff.mp hj with hdone | hadd
        · rw [h.done j job hjob hdone] at hrunnable
          cases hrunnable
        · exact hadd
      rw [← additions_tasks fun job hmem hrunnable => ?_]
      · refine represents_added hq (additions w jobs) (nodup_additions hapart) h.length ?_ ?_
        · intro a ha
          obtain ⟨j, hjob, hrunnable⟩ := mem_additions.mp ha
          obtain ⟨i, hi⟩ := hthread j _ hjob hrunnable
          obtain ⟨hadds, l, l₀, hl, hl₀, hrest⟩ := h.adding j _ i .done hjob hi
          have heq : i = a.1 := hadds.list_eq ⟨_, hjob, hrunnable, rfl⟩
          subst heq
          exact ⟨l, l₀, hl, hl₀, hrest.symm⟩
        · intro i hi
          refine h.others i fun j hadds => ?_
          obtain ⟨job, hjob, hrunnable, hlist⟩ := hadds
          have hmem : (i, job.1) ∈ additions w jobs :=
            mem_additions.mpr ⟨j, by rw [hjob, ← hlist], hrunnable⟩
          exact absurd (List.mem_map.mpr ⟨_, hmem, rfl⟩) hi
      · obtain ⟨j, hjob⟩ := List.mem_iff_getElem?.mp hmem
        obtain ⟨i, hi⟩ := hthread j job hjob hrunnable
        obtain ⟨⟨job', hjob', -, hlist⟩, -⟩ := h.adding j job i .done hjob hi
        obtain rfl := Option.some.inj (hjob.symm.trans hjob')
        exact ⟨i, hlist⟩
    · cases hn

end Notifying

end ReSTM
