import ReSTM.Types.Failure
import ReSTM.Common.Guarded
import ReSTM.Common.Refinement

/-!
# The mailbox of an actor

Model of `ActorQueue` (`storage/actors/ActorQueue.scala`, lines 30–60 and 75–90): the calls of
`withActor`, from any number of threads, and the batches that `queueBatch` schedules for them. Every
access to `queue`, `guard` or `closed` is a step of its own, and the steps of all threads come in
any order. A task takes two, one in which it is polled and one in which it runs. It ends with a
result or a failure, which `Try` puts into its promise. Logging is left out.

* `ActorQueue.mailbox`: one batch at a time has the guard, the messages are run in their order,
  each once, and a message in the queue has someone who will look for it.
* `ActorQueue.serves`: the actor goes through the same states as if it had no mailbox, and
  `sequential`: while nobody closes it, its bodies are called in sequence.
-/

namespace ReSTM

open Refinement Transition

/-- The fields of the actor, with `processedMessages` and `closed` (lines 33–34). -/
structure ActorFields (σ : Type) where
  fields : σ
  processedMessages : Int32 := 0
  closed : Bool := false

/-- What a call of `withActor` is to do: it reads and writes the fields of the actor. -/
abbrev Body (σ T : Type) := σ → Except Failure T × σ

/-- A task in the queue. Its promise has the number of the call. -/
structure Message (σ T : Type) where
  call : ℕ
  f : Body σ T

/-- Where a thread is. It is a call of `withActor`, or a batch. -/
inductive Place (σ T : Type)
  /-- A call, before it reads `closed` (line 41). -/
  | withActor (f : Body σ T)
  /-- Before `queue.add` (line 43). -/
  | queueAdd (f : Body σ T)
  /-- Before `guard.get` (line 76). -/
  | guardGet
  /-- Before `Future` schedules a batch (line 76). -/
  | future
  /-- A batch that is scheduled, before `queue.isEmpty` (line 77). -/
  | isEmpty
  /-- Before `guard.getAndSet(true)` (line 77). -/
  | getAndSet
  /-- Before `queue.poll` (line 79). -/
  | poll
  /-- Before the task runs (line 82). -/
  | task (m : Message σ T)
  /-- Before `guard.set(false)` (line 85). -/
  | guardSet
  /-- Before `queue.isEmpty` (line 87). -/
  | isEmptyAgain
  | returned

namespace Place

variable {σ T : Type}

/-- Between taking and clearing the guard. -/
def holdsGuard : Place σ T → Bool
  | poll | task _ | guardSet => true
  | _ => false

/-- A batch that is scheduled and has not yet tried to take the guard. -/
def scheduled : Place σ T → Bool
  | isEmpty | getAndSet => true
  | _ => false

/-- A sender, or a batch at its end, that has yet to perform its check or to schedule a batch. -/
def willSchedule : Place σ T → Bool
  | guardGet | future | isEmptyAgain => true
  | _ => false

/-- The task that is run. -/
def running : Place σ T → Option (Message σ T)
  | task m => some m
  | _ => none

/-- A call that has not added its message. -/
def adds : Place σ T → Bool
  | withActor _ | queueAdd _ => true
  | _ => false

/-- Who looks at the queue again. -/
def looks (place : Place σ T) : Bool :=
  place.holdsGuard || place.scheduled || place.willSchedule

end Place

/-- An actor with its mailbox. A thread has its place in the list as its number. -/
structure ActorQueue (σ T : Type) where
  actor : ActorFields σ
  queue : List (Message σ T) := []
  guard : Bool := false
  threads : List (Place σ T) := []
  /-- All messages that were added, in their order. -/
  appended : List (Message σ T) := []
  /-- The messages that were run, in their order, with what their promises got. -/
  completed : List (Message σ T × Except Failure T) := []

/-- A step: somebody calls `withActor` or `close`, or a thread goes on. -/
inductive MailboxAction (σ T : Type)
  | withActor (f : Body σ T)
  | close
  | thread (i : ℕ)

section Model

variable {σ T : Type} (repr : ActorFields σ → String)

/-- The task that `withActor` adds (lines 43–51). `repr` is `toString` of the actor. -/
def Message.run (m : Message σ T) (a : ActorFields σ) : Except Failure T × ActorFields σ :=
  if a.closed then
    (.error (.transactionConflict ("Actor " ++ repr a ++ " is closed") none), a)
  else
    match m.f a.fields with
    | (.ok result, fields) =>
      (.ok result, { a with fields := fields, processedMessages := a.processedMessages + 1 })
    | (.error e, fields) => (.error e, { a with fields := fields })

namespace ActorQueue

/-- A thread is at another place. -/
def goto (i : ℕ) (place : Place σ T) (s : ActorQueue σ T) : ActorQueue σ T :=
  { s with threads := s.threads.set i place }

/-- The next step of a thread (lines 40–53 and 75–90). -/
def stepThread (s : ActorQueue σ T) (i : ℕ) : Place σ T → ActorQueue σ T
  | .withActor f => s.goto i (if s.actor.closed then .returned else .queueAdd f)
  | .queueAdd f =>
    { s.goto i .guardGet with
      queue := s.queue ++ [⟨i, f⟩]
      appended := s.appended ++ [⟨i, f⟩] }
  | .guardGet => s.goto i (if s.guard = false then .future else .returned)
  | .future => { s with threads := s.threads.set i .returned ++ [.isEmpty] }
  | .isEmpty => s.goto i (if !s.queue.isEmpty then .getAndSet else .returned)
  | .getAndSet => { s.goto i (if !s.guard then .poll else .returned) with guard := true }
  | .poll =>
    match s.queue with
    | m :: queue => { s.goto i (.task m) with queue := queue }
    | [] => s.goto i .guardSet
  | .task m =>
    let r := m.run repr s.actor
    { s.goto i .poll with actor := r.2, completed := s.completed ++ [(m, r.1)] }
  | .guardSet => { s.goto i .isEmptyAgain with guard := false }
  | .isEmptyAgain => s.goto i (if !s.queue.isEmpty then .guardGet else .returned)
  | .returned => s

/-- One step of the mailbox. -/
def step (s : ActorQueue σ T) : MailboxAction σ T → ActorQueue σ T
  | .withActor f => { s with threads := s.threads ++ [.withActor f] }
  | .close => { s with actor := { s.actor with closed := true } }
  | .thread i =>
    match s.threads[i]? with
    | some place => s.stepThread repr i place
    | none => s

/-- An actor that nobody has called. -/
def start (a : ActorFields σ) : ActorQueue σ T := { actor := a }

/-- The messages that are run just now. -/
def running (s : ActorQueue σ T) : List (Message σ T) := s.threads.filterMap Place.running

/-- What happens to an actor without a mailbox. -/
inductive Event (σ T : Type)
  | close
  | run (m : Message σ T)

/-- The actor, and the messages that it has run with their results, after an event. -/
def serve (a : ActorFields σ × List (Message σ T × Except Failure T)) :
    Event σ T → ActorFields σ × List (Message σ T × Except Failure T)
  | .close => ({ a.1 with closed := true }, a.2)
  | .run m => ((m.run repr a.1).2, a.2 ++ [(m, (m.run repr a.1).1)])

end ActorQueue

end Model

namespace Message

variable {σ T : Type} {repr : ActorFields σ → String} {a : ActorFields σ}

/-- A task neither closes the actor nor opens it. -/
theorem run_closed (m : Message σ T) (a : ActorFields σ) : (m.run repr a).2.closed = a.closed := by
  unfold Message.run
  split
  · rfl
  · split <;> rfl

/-- While the actor is open, a task calls its body. -/
theorem run_open (repr : ActorFields σ → String) (m : Message σ T) (h : a.closed = false) :
    (m.run repr a).2.fields = (m.f a.fields).2 ∧ (m.run repr a).1 = (m.f a.fields).1 := by
  rw [Message.run, if_neg (Bool.eq_false_iff.mp h)]
  split <;> rename_i hf <;> rw [hf] <;> exact ⟨rfl, rfl⟩

end Message

namespace ActorQueue

variable {σ T : Type} {repr : ActorFields σ → String} {s : ActorQueue σ T} {i j : ℕ}
  {a b : Place σ T} {f : Body σ T} {m : Message σ T}

/-- What holds after any run. -/
structure Inv (s : ActorQueue σ T) : Prop where
  guarded : Guarded Place.holdsGuard s.guard s.threads
  order : s.appended = s.completed.map Prod.fst ++ s.running ++ s.queue
  added : ∀ m ∈ s.appended, ∃ place, s.threads[m.call]? = some place ∧ place.adds = false
  nodup : (s.appended.map Message.call).Nodup
  looked : s.queue ≠ [] → ∃ place ∈ s.threads, place.looks = true

theorem running_eq_none (h : a.holdsGuard = false) : a.running = none := by
  cases a with
  | task m => cases h
  | _ => rfl

theorem adds_of_holdsGuard (h : a.holdsGuard = true) : a.adds = false := by
  cases a with
  | withActor f => cases h
  | queueAdd f => cases h
  | _ => rfl

theorem looks_of_holdsGuard (h : a.holdsGuard = true) : a.looks = true := by
  rw [Place.looks, h]
  rfl

theorem get_goto (hi : s.threads[i]? = some a) : (s.goto i b).threads[i]? = some b :=
  List.getElem?_set_self (List.getElem?_eq_some_iff.mp hi).1

/-- A thread that is set is at its new place, or where it was. -/
theorem added_set (hi : s.threads[i]? = some a) (hadds : a.adds = false → b.adds = false)
    (h : ∃ place, s.threads[j]? = some place ∧ place.adds = false) :
    ∃ place, (s.threads.set i b)[j]? = some place ∧ place.adds = false := by
  obtain ⟨place, hplace, hno⟩ := h
  by_cases hij : i = j
  · subst hij
    obtain rfl := Option.some.inj (hi.symm.trans hplace)
    exact ⟨b, get_goto hi, hadds hno⟩
  · exact ⟨place, by rw [List.getElem?_set_ne hij, hplace], hno⟩

/-- The other threads are where they were. -/
theorem added_append {threads : List (Place σ T)}
    (h : ∃ place, threads[j]? = some place ∧ place.adds = false) :
    ∃ place, (threads ++ [b])[j]? = some place ∧ place.adds = false := by
  obtain ⟨place, hplace, hno⟩ := h
  refine ⟨place, ?_, hno⟩
  rw [List.getElem?_append_left (List.getElem?_eq_some_iff.mp hplace).1, hplace]

/-- The task that a thread runs is the same one. -/
theorem running_goto (hi : s.threads[i]? = some a) (h : b.running = a.running) :
    (s.goto i b).running = s.running :=
  Guarded.filterMap_set hi h

/-- A new thread runs no task. -/
theorem running_append (threads : List (Place σ T)) (hb : b.holdsGuard = false) :
    (threads ++ [b]).filterMap Place.running = threads.filterMap Place.running := by
  rw [List.filterMap_append, List.filterMap_cons_none (running_eq_none hb), List.filterMap_nil,
    List.append_nil]

theorem Inv.guarded_of {g : Bool} (h : Inv s) (hguard : s.guard = g) :
    Guarded Place.holdsGuard g s.threads :=
  hguard ▸ h.guarded

/-- A thread goes on, and nothing else happens. -/
theorem Inv.goto (h : Inv s) (hi : s.threads[i]? = some a) (hholds : b.holdsGuard = a.holdsGuard)
    (hrunning : b.running = a.running) (hadds : a.adds = false → b.adds = false)
    (hlooks : s.queue ≠ [] → s.guard = false → a.looks = true → b.looks = true) :
    Inv (s.goto i b) where
  guarded := h.guarded.pass hi hholds
  order := by
    rw [running_goto hi hrunning]
    exact h.order
  added m hm := added_set hi hadds (h.added m hm)
  nodup := h.nodup
  looked hq := by
    cases hguard : s.guard with
    | true =>
      obtain ⟨place, hmem, hplace⟩ := ((h.guarded_of hguard).pass hi hholds).exists_holder
      exact ⟨place, hmem, looks_of_holdsGuard hplace⟩
    | false => exact Guarded.exists_set hi (hlooks hq hguard) (h.looked hq)

/-- A batch looks at the queue, and ends if there is nothing. -/
theorem Inv.test (h : Inv s) (hi : s.threads[i]? = some a) (hholds : a.holdsGuard = false)
    (hbholds : b.holdsGuard = false) (hadds : b.adds = false) (hlooks : b.looks = true) :
    Inv (s.goto i (if !s.queue.isEmpty then b else .returned)) := by
  cases hq : s.queue with
  | nil =>
    exact h.goto hi hholds.symm (running_eq_none hholds).symm (fun _ => rfl)
      fun hne => absurd hq hne
  | cons m queue =>
    exact h.goto hi (hbholds.trans hholds.symm)
      ((running_eq_none hbholds).trans (running_eq_none hholds).symm) (fun _ => hadds)
      fun _ _ _ => hlooks

/-- A new thread. -/
theorem Inv.spawn (h : Inv s) (hholds : b.holdsGuard = false) :
    Inv { s with threads := s.threads ++ [b] } where
  guarded := h.guarded.spawn hholds
  order := by
    show _ = _ ++ (s.threads ++ [b]).filterMap Place.running ++ _
    rw [running_append _ hholds]
    exact h.order
  added m hm := added_append (h.added m hm)
  nodup := h.nodup
  looked hq := by
    obtain ⟨place, hmem, hplace⟩ := h.looked hq
    exact ⟨place, List.mem_append_left _ hmem, hplace⟩

/-- A message is added. Its sender has yet to read the guard. -/
theorem Inv.add (h : Inv s) (hi : s.threads[i]? = some (.queueAdd f)) :
    Inv { s.goto i .guardGet with
      queue := s.queue ++ [⟨i, f⟩]
      appended := s.appended ++ [⟨i, f⟩] } := by
  have hgoto : Inv (s.goto i .guardGet) := h.goto hi rfl rfl (fun _ => rfl) fun _ _ _ => rfl
  have hself : (s.goto i .guardGet).threads[i]? = some .guardGet := get_goto hi
  refine ⟨hgoto.guarded, ?_, ?_, ?_, fun _ => ⟨.guardGet, List.mem_of_getElem? hself, rfl⟩⟩
  · show s.appended ++ _ = _ ++ (s.queue ++ _)
    rw [← List.append_assoc]
    exact congrArg (· ++ _) hgoto.order
  · intro m hm
    rcases List.mem_append.mp hm with hm | hm
    · exact hgoto.added m hm
    · obtain rfl := List.mem_singleton.mp hm
      exact ⟨.guardGet, hself, rfl⟩
  · show ((s.appended ++ [Message.mk i f]).map Message.call).Nodup
    rw [List.map_append, List.nodup_append]
    refine ⟨h.nodup, List.pairwise_singleton _ _, fun call hcall other hother heq => ?_⟩
    -- the sender has not added a message before
    obtain ⟨m, hm, rfl⟩ := List.mem_map.mp hcall
    obtain ⟨place, hplace, hno⟩ := h.added m hm
    have hcalli : m.call = i := heq.trans (List.mem_singleton.mp hother)
    rw [hcalli] at hplace
    cases hi.symm.trans hplace
    cases hno

/-- A batch is scheduled, in a thread of its own. -/
theorem Inv.schedule (h : Inv s) (hi : s.threads[i]? = some .future) :
    Inv { s with threads := s.threads.set i .returned ++ [.isEmpty] } := by
  have hsame : (s.threads.set i .returned).filterMap Place.running = s.running :=
    running_goto hi rfl
  have hguarded : Guarded Place.holdsGuard s.guard (s.threads.set i .returned) :=
    h.guarded.pass hi rfl
  refine ⟨hguarded.spawn rfl, ?_, fun m hm => ?_, h.nodup,
    fun _ => ⟨Place.isEmpty, List.mem_append_right _ (List.mem_singleton_self _), rfl⟩⟩
  · show s.appended = _ ++ (_ ++ [Place.isEmpty]).filterMap Place.running ++ _
    rw [running_append _ rfl, hsame]
    exact h.order
  · exact added_append (added_set hi (fun _ => rfl) (h.added m hm))

/-- The guard is free, and taken. -/
theorem Inv.takeGuard (h : Inv s) (hi : s.threads[i]? = some .getAndSet) (hguard : s.guard = false) :
    Inv { s.goto i .poll with guard := true } where
  guarded := (h.guarded_of hguard).take hi rfl
  order := by
    show s.appended = _ ++ (s.goto i .poll).running ++ s.queue
    rw [running_goto (b := .poll) hi rfl]
    exact h.order
  added m hm := added_set hi (fun _ => rfl) (h.added m hm)
  nodup := h.nodup
  looked hq := Guarded.exists_set hi (fun _ => rfl) (h.looked hq)

/-- The holder of the guard clears it, and looks at the queue again. -/
theorem Inv.clearGuard (h : Inv s) (hi : s.threads[i]? = some .guardSet) :
    Inv { s.goto i .isEmptyAgain with guard := false } where
  guarded := h.guarded.release hi rfl rfl
  order := by
    show s.appended = _ ++ (s.goto i .isEmptyAgain).running ++ s.queue
    rw [running_goto (b := .isEmptyAgain) hi rfl]
    exact h.order
  added m hm := added_set hi (fun _ => rfl) (h.added m hm)
  nodup := h.nodup
  looked hq := Guarded.exists_set hi (fun _ => rfl) (h.looked hq)

/-- While a thread has the guard, the task that is run is its own. -/
theorem Inv.running_eq (h : Inv s) (hi : s.threads[i]? = some a) (ha : a.holdsGuard = true) :
    s.running = a.running.toList :=
  Guarded.filterMap (fun _ => running_eq_none) h.guarded hi ha

/-- The holder of the guard goes on and keeps it. The messages that were added are then `completed`,
    the task that it runs, and `queue`. -/
theorem Inv.hold (h : Inv s) (hi : s.threads[i]? = some a) (ha : a.holdsGuard = true)
    (hb : b.holdsGuard = true) (actor : ActorFields σ) (queue : List (Message σ T))
    (completed : List (Message σ T × Except Failure T))
    (horder : s.completed.map Prod.fst ++ a.running.toList ++ s.queue =
      completed.map Prod.fst ++ b.running.toList ++ queue) :
    Inv { s.goto i b with actor := actor, queue := queue, completed := completed } := by
  have hguarded : Guarded Place.holdsGuard s.guard (s.goto i b).threads :=
    h.guarded.pass hi (hb.trans ha.symm)
  refine ⟨hguarded, ?_, fun m hm => added_set hi (fun _ => adds_of_holdsGuard hb) (h.added m hm),
    h.nodup, fun _ => ⟨b, List.mem_of_getElem? (get_goto hi), looks_of_holdsGuard hb⟩⟩
  have hafter : (s.goto i b).running = b.running.toList :=
    Guarded.filterMap (fun _ => running_eq_none) hguarded (get_goto hi) hb
  show s.appended = completed.map Prod.fst ++ (s.goto i b).running ++ queue
  rw [hafter, h.order, h.running_eq hi ha]
  exact horder

/-- The first message is taken out of the queue. -/
theorem Inv.pollMessage (h : Inv s) {queue : List (Message σ T)}
    (hi : s.threads[i]? = some .poll) (hq : s.queue = m :: queue) :
    Inv { s.goto i (.task m) with queue := queue } := by
  refine h.hold hi rfl rfl s.actor queue s.completed ?_
  rw [hq, List.append_assoc, List.append_assoc]
  rfl

/-- A task runs, and its promise is completed. -/
theorem Inv.runTask (h : Inv s) (hi : s.threads[i]? = some (.task m)) (actor : ActorFields σ)
    (result : Except Failure T) :
    Inv { s.goto i .poll with actor := actor, completed := s.completed ++ [(m, result)] } := by
  refine h.hold hi rfl rfl actor s.queue (s.completed ++ [(m, result)]) ?_
  rw [List.map_append]
  exact congrArg (· ++ s.queue) (List.append_nil _).symm

/-- One step of a thread keeps it. -/
theorem Inv.stepThread (h : Inv s) (hi : s.threads[i]? = some a) : Inv (s.stepThread repr i a) := by
  cases a with
  | withActor f =>
    show Inv (s.goto i (if s.actor.closed then .returned else .queueAdd f))
    split
    · exact h.goto hi rfl rfl (fun _ => rfl) fun _ _ hlooks => nomatch hlooks
    · exact h.goto hi rfl rfl id fun _ _ hlooks => nomatch hlooks
  | queueAdd f => exact h.add hi
  | guardGet =>
    show Inv (s.goto i (if s.guard = false then .future else .returned))
    by_cases hguard : s.guard = false
    · rw [if_pos hguard]
      exact h.goto hi rfl rfl (fun _ => rfl) fun _ _ _ => rfl
    · -- who has the guard will look at the queue again
      rw [if_neg hguard]
      exact h.goto hi rfl rfl (fun _ => rfl) fun _ hfree => absurd hfree hguard
  | future => exact h.schedule hi
  | isEmpty => exact h.test hi rfl rfl rfl rfl
  | getAndSet =>
    show Inv { s.goto i (if !s.guard then .poll else .returned) with guard := true }
    cases hguard : s.guard with
    | false => exact h.takeGuard hi hguard
    | true =>
      have hgoto : Inv (s.goto i .returned) :=
        h.goto hi rfl rfl (fun _ => rfl) fun _ hfree => nomatch hguard.symm.trans hfree
      have hsame : { s.goto i .returned with guard := true } = s.goto i .returned := by
        rw [← hguard]
        rfl
      exact hsame ▸ hgoto
  | poll =>
    show Inv (match s.queue with
      | m :: queue => { s.goto i (.task m) with queue := queue }
      | [] => s.goto i .guardSet)
    cases hq : s.queue with
    | nil => exact h.goto hi rfl rfl (fun _ => rfl) fun hne => absurd hq hne
    | cons m queue => exact h.pollMessage hi hq
  | task m => exact h.runTask hi _ _
  | guardSet => exact h.clearGuard hi
  | isEmptyAgain => exact h.test hi rfl rfl rfl rfl
  | returned => exact h

theorem Inv.step (h : Inv s) (action : MailboxAction σ T) : Inv (step repr s action) := by
  cases action with
  | withActor f => exact h.spawn rfl
  | close => exact ⟨h.guarded, h.order, h.added, h.nodup, h.looked⟩
  | thread i =>
    show Inv (match s.threads[i]? with
      | some place => s.stepThread repr i place
      | none => s)
    cases hi : s.threads[i]? with
    | none => exact h
    | some place => exact h.stepThread hi

theorem inv_run (repr : ActorFields σ → String) (a : ActorFields σ) (actions : List (MailboxAction σ T)) :
    Inv (run (ActorQueue.step repr) (start a) actions) := by
  refine run_invariant (fun s action (h : Inv s) => h.step action) actions ?_
  exact ⟨rfl, rfl, fun m hm => absurd hm List.not_mem_nil, List.nodup_nil, fun hne => absurd rfl hne⟩

theorem Inv.running_length (h : Inv s) : s.running.length ≤ 1 := by
  cases hguard : s.guard with
  | false =>
    have hnone : s.running = [] :=
      (h.guarded_of hguard).filterMap_free fun _ => running_eq_none
    rw [hnone]
    exact Nat.zero_le 1
  | true =>
    obtain ⟨place, hmem, hplace⟩ := (h.guarded_of hguard).exists_holder
    obtain ⟨i, hi⟩ := List.getElem?_of_mem hmem
    rw [h.running_eq hi hplace]
    cases place.running with
    | none => exact Nat.zero_le 1
    | some m => exact Nat.le_refl 1

/-- After any run there is one batch at most between taking and clearing the guard, the messages
    are run one at a time and in their order, each once, and while there are messages in the queue
    somebody will look for them. -/
theorem mailbox (repr : ActorFields σ → String) (a : ActorFields σ)
    (actions : List (MailboxAction σ T)) :
    let s := run (ActorQueue.step repr) (start a) actions
    (∀ (i j : ℕ) (place place' : Place σ T), s.threads[i]? = some place → place.holdsGuard = true →
      s.threads[j]? = some place' → place'.holdsGuard = true → i = j) ∧
    (s.appended = s.completed.map Prod.fst ++ s.running ++ s.queue ∧ s.running.length ≤ 1 ∧
      (s.appended.map Message.call).Nodup) ∧
    (s.queue ≠ [] → ∃ place ∈ s.threads,
      place.holdsGuard = true ∨ place.scheduled = true ∨ place.willSchedule = true) := by
  have h := inv_run repr a actions
  refine ⟨fun i j place place' hi hplace hj hplace' => ?_, ?_, fun hq => ?_⟩
  · exact h.guarded.holder_unique hi hplace hj hplace'
  · exact ⟨h.order, h.running_length, h.nodup⟩
  · obtain ⟨place, hmem, hlooks⟩ := h.looked hq
    refine ⟨place, hmem, ?_⟩
    rwa [Place.looks, Bool.or_eq_true, Bool.or_eq_true, or_assoc] at hlooks

-- The second call adds its message after the batch has seen an empty queue, and sees the guard. The
-- batch looks at the queue again, and schedules another one.
example :
    let add : ℕ → Body ℕ ℕ := fun n x => (.ok x, x + n)
    let actions := [.withActor (add 1), .withActor (add 10)] ++
      [0, 0, 0, 0, 2, 2, 2, 2, 2, 1, 1, 1, 2, 2, 2, 2, 3, 3, 3, 3, 3].map .thread
    let s := run (ActorQueue.step fun _ => "") (start { fields := 0 }) actions
    s.completed.map (fun r => r.1.call) = [0, 1] ∧ s.actor.fields = 11 := by decide

/-- Once all threads have returned, every message that was added has been run. -/
theorem completed_of_returned (a : ActorFields σ) (actions : List (MailboxAction σ T))
    (hreturned : ∀ place ∈ (run (ActorQueue.step repr) (start a) actions).threads,
      place = .returned) :
    (run (ActorQueue.step repr) (start a) actions).completed.map Prod.fst =
      (run (ActorQueue.step repr) (start a) actions).appended := by
  have h := inv_run repr a actions
  have hqueue : (run (ActorQueue.step repr) (start a) actions).queue = [] := by
    by_contra hne
    obtain ⟨place, hmem, hlooks⟩ := h.looked hne
    rw [hreturned place hmem] at hlooks
    cases hlooks
  have hrunning : (run (ActorQueue.step repr) (start a) actions).running = [] := by
    refine List.filterMap_eq_nil_iff.mpr fun place hmem => ?_
    rw [hreturned place hmem]
    rfl
  rw [h.order, hrunning, hqueue, List.append_nil, List.append_nil]

/-! ## The actor without a mailbox -/

/-- A step is an event of the actor, or the actor does not see it. -/
theorem step_served (repr : ActorFields σ → String) (s : ActorQueue σ T)
    (action : MailboxAction σ T) :
    (∃ event, ((step repr s action).actor, (step repr s action).completed) =
      serve repr (s.actor, s.completed) event) ∨
    ((step repr s action).actor, (step repr s action).completed) = (s.actor, s.completed) := by
  cases action with
  | withActor f => exact .inr rfl
  | close => exact .inl ⟨.close, rfl⟩
  | thread i =>
    rw [ActorQueue.step]
    cases s.threads[i]? with
    | none => exact .inr rfl
    | some place =>
      cases place with
      | task m => exact .inl ⟨.run m, rfl⟩
      | poll =>
        refine .inr ?_
        show ((s.stepThread repr i .poll).actor, (s.stepThread repr i .poll).completed) = _
        rw [stepThread]
        cases s.queue <;> rfl
      | _ => exact .inr rfl

/-- After any run, the actor and the results are those of some events in a sequence, without a
    mailbox. -/
theorem serves (repr : ActorFields σ → String) (a : ActorFields σ)
    (actions : List (MailboxAction σ T)) :
    ∃ events, run (serve repr) (a, []) events =
      ((run (ActorQueue.step repr) (start a) actions).actor,
        (run (ActorQueue.step repr) (start a) actions).completed) := by
  refine run_invariant (I := fun s : ActorQueue σ T => ∃ events,
    run (serve repr) (a, []) events = (s.actor, s.completed)) (fun s action hs => ?_) actions ⟨[], rfl⟩
  obtain ⟨events, hevents⟩ := hs
  rcases step_served repr s action with ⟨event, hevent⟩ | hsame
  · refine ⟨events ++ [event], ?_⟩
    rw [run_append, hevents, hevent]
    rfl
  · exact ⟨events, hevents.trans hsame.symm⟩

/-- The fields and the results of the messages are those of calling the bodies in sequence. -/
def Sequential (x : σ) (l : ActorFields σ × List (Message σ T × Except Failure T)) : Prop :=
  l.1.fields = run (next fun x (m : Message σ T) => m.f x) x (l.2.map Prod.fst) ∧
    l.2.map Prod.snd = results (fun x (m : Message σ T) => m.f x) x (l.2.map Prod.fst)

theorem serve_open {repr : ActorFields σ → String} {x : σ}
    {l : ActorFields σ × List (Message σ T × Except Failure T)} {event : Event σ T}
    (h : l.1.closed = false → Sequential x l) (hopen : (serve repr l event).1.closed = false) :
    Sequential x (serve repr l event) := by
  cases event with
  | close => cases hopen
  | run m =>
    have hbefore : l.1.closed = false := by
      rw [← hopen]
      exact (Message.run_closed m l.1).symm
    obtain ⟨hfields, hresults⟩ := h hbefore
    have hrun := Message.run_open repr m hbefore
    have hcalled : (serve repr l (.run m)).2.map Prod.fst = l.2.map Prod.fst ++ [m] :=
      List.map_append
    have hgot : (serve repr l (.run m)).2.map Prod.snd = l.2.map Prod.snd ++ [(m.f l.1.fields).1] := by
      rw [← hrun.2]
      exact List.map_append
    refine ⟨?_, ?_⟩
    · rw [hcalled, run_append, ← hfields]
      exact hrun.1
    · rw [hcalled, hgot, results_concat, ← hfields, hresults]

/-- While nobody closes it, the messages have the results, and the actor the state, of the bodies
    called in sequence. -/
theorem sequential (repr : ActorFields σ → String) (a : ActorFields σ)
    (actions : List (MailboxAction σ T))
    (hopen : (run (ActorQueue.step repr) (start a) actions).actor.closed = false) :
    Sequential a.fields ((run (ActorQueue.step repr) (start a) actions).actor,
      (run (ActorQueue.step repr) (start a) actions).completed) := by
  obtain ⟨events, hevents⟩ := serves repr a actions
  have hkept : ∀ l event, (l.1.closed = false → Sequential a.fields l) →
      (serve (T := T) repr l event).1.closed = false → Sequential a.fields (serve repr l event) :=
    fun l event h => serve_open h
  have hserved := run_invariant hkept events (s := (a, [])) fun _ => ⟨rfl, rfl⟩
  rw [hevents] at hserved
  exact hserved hopen

end ActorQueue

end ReSTM
