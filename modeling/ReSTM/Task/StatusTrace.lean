import ReSTM.Task.ExecutionStatusManager
import ReSTM.Task.InTurn
import ReSTM.Types.TxnTimeText

/-!
# Status traces

Model of `Task.getStatusTrace` and `checkExecutor` (`stm/task/Task.scala`, lines 65–97 and 168–233)
and of `isOrphaned` in `awaitTask` (`util/TaskUtil.scala`, line 69). A trace is computed in one transaction, by
recursion over triggers, which `fuel` bounds here; `none` says that it was not enough. Of the
exception of a failed task the exception is kept, not its text. `threads` says which names the
threads that are alive have. `contains` of the work queue reads its index, which has the ids of what
is in the lists as long as no two notifications add to the queue at once.

* `Traceable.ends_iff`: the recursion ends just when the task does not wait for a cycle.
* `Traceable.right`: every status in a trace is right.
* `status_trace`: both, after runs, and no task is called an orphan.
-/

namespace ReSTM

open HeapModel Transition Relation

variable {F V : Type}

/-- `TaskStatus` (lines 65–95). -/
inductive TaskStatus
  | running (executor : String)
  | failed (ex : Failure)
  | orphan (ex : String)
  | blocked
  | queued
  | success
  | unknown
  | exNotDefined
deriving DecidableEq

/-- `status.isInstanceOf[Orphan]`. -/
def TaskStatus.isOrphan : TaskStatus → Bool
  | orphan _ => true
  | _ => false

/-- `case class TaskStatusTrace` (line 97). -/
inductive TaskStatusTrace
  | mk (id : Ptr) (status : TaskStatus) (children : List TaskStatusTrace)

namespace TaskStatusTrace

def id : TaskStatusTrace → Ptr
  | mk id _ _ => id

def status : TaskStatusTrace → TaskStatus
  | mk _ status _ => status

/-- A status that is no longer pending (lines 204–208). -/
def done (trace : TaskStatusTrace) : Bool :=
  match trace.status with
  | .success | .failed _ => true
  | _ => false

mutual

/-- `isOrphaned` of `TaskUtil.awaitTask`. -/
def isOrphaned : TaskStatusTrace → Bool
  | mk _ status children => status.isOrphan || anyOrphaned children

/-- `children.exists(isOrphaned)`. -/
def anyOrphaned : List TaskStatusTrace → Bool
  | [] => false
  | c :: children => c.isOrphaned || anyOrphaned children

end

theorem anyOrphaned_eq_false {children : List TaskStatusTrace}
    (h : ∀ c ∈ children, c.isOrphaned = false) : anyOrphaned children = false := by
  induction children with
  | nil => rfl
  | cons c children ih =>
    rw [anyOrphaned, h c List.mem_cons_self, ih fun c hc => h c (List.mem_cons_of_mem _ hc)]
    rfl

/-- What holds at every node of a trace. -/
inductive Everywhere (P : TaskStatusTrace → Prop) : TaskStatusTrace → Prop
  | node (id : Ptr) (status : TaskStatus) (children : List TaskStatusTrace)
      (h : P (mk id status children)) (hchildren : ∀ c ∈ children, Everywhere P c) :
      Everywhere P (mk id status children)

theorem Everywhere.here {P : TaskStatusTrace → Prop} {trace : TaskStatusTrace}
    (h : Everywhere P trace) : P trace := by
  cases h with
  | node _ _ _ h => exact h

end TaskStatusTrace

namespace Executions

/-- `checkExecutor` (lines 225–233). -/
def checkExecutor (threads : String → Bool) (m : ExecutionStatusManager) (executorId : String)
    (id : Ptr) : Except Failure Bool := do
  let threadName ← TxnTime.field executorId 1
  return m.check executorId id && threads threadName

/-- `visit` (lines 176–191). -/
def visit (threads : String → Bool) (m : ExecutionStatusManager) (currentState : TaskData F V)
    (id : Ptr) : Except Failure TaskStatus :=
  if currentState.result.isSome then .ok .success
  else
    match currentState.exception, currentState.executorId with
    | some exception, _ => .ok (.failed exception)
    | none, some executorId => do
      if ← checkExecutor threads m executorId id then return .running executorId
      else return .orphan ("Not Found: " ++ executorId)
    | none, none => .ok .unknown

/-- The status of a task without an executor (lines 203–217). -/
def pendingTrace (s : Executions F V) (root : Ptr) (children : List TaskStatusTrace) :
    TaskStatusTrace :=
  let pending := children.filter (!·.done)
  if pending.isEmpty then
    if root ∈ s.world.workQueue then .mk root .queued [] else .mk root (.orphan "Not In Queue") []
  else .mk root .blocked children

/-- `getStatusTrace` (lines 174–223). -/
def getStatusTrace (threads : String → Bool) (s : Executions F V) :
    ℕ → Ptr → ExceptT Failure Option TaskStatusTrace
  | 0, _ => ExceptT.mk none
  | fuel + 1, root =>
    match s.world.tasks.get root with
    | none => return .mk root .exNotDefined []
    | some currentState => do
      let status ← ExceptT.mk (some (visit threads s.manager currentState root))
      let children := currentState.triggers.mapM (getStatusTrace threads s fuel)
      match status with
      | .success | .failed _ | .exNotDefined => return .mk root status []
      | .unknown => return s.pendingTrace root (← children)
      | _ => return .mk root status (← children)

/-- A computation has come to an end with a value. -/
def Ends {α : Type} (x : ExceptT Failure Option α) (a : α) : Prop := x = ExceptT.mk (some (.ok a))

theorem ends_bind {α β : Type} {x : ExceptT Failure Option α} {f : α → ExceptT Failure Option β}
    {b : β} : Ends (x >>= f) b ↔ ∃ a, Ends x a ∧ Ends (f a) b := by
  constructor
  · intro h
    match x, h with
    | some (.ok a), h => exact ⟨a, rfl, h⟩
    | some (.error e), h => cases h
    | none, h => cases h
  · rintro ⟨a, ha, hb⟩
    rw [Ends, show x = _ from ha]
    exact hb

theorem ends_pure {α : Type} {a b : α} : Ends (pure a) b ↔ a = b := by
  constructor
  · intro h
    cases h
    rfl
  · rintro rfl
    rfl

theorem ends_mapM {α β : Type} {f : α → ExceptT Failure Option β} {l : List α} {m : List β} :
    Ends (l.mapM f) m ↔ List.Forall₂ (fun a b => Ends (f a) b) l m := by
  induction l generalizing m with
  | nil =>
    rw [List.mapM_nil, ends_pure, List.forall₂_nil_left_iff, eq_comm]
  | cons a l ih =>
    rw [List.mapM_cons, ends_bind]
    simp only [ends_bind, ends_pure, ih]
    constructor
    · rintro ⟨b, hb, bs, hbs, rfl⟩
      exact .cons hb hbs
    · rintro (_ | ⟨hb, hbs⟩)
      exact ⟨_, hb, _, hbs, rfl⟩

variable {s : Executions F V} {threads : String → Bool} {t u : Ptr} {d : TaskData F V} {e : String}
  {fuel : ℕ} {trace : TaskStatusTrace}

/-- The name of the executor's thread can be read off its own, and the thread is alive. -/
def Alive (threads : String → Bool) (executorId : String) : Prop :=
  ∃ localName threadName, executorId = ExecutionStatusManager.getName localName threadName ∧
    ':' ∉ localName.toList ∧ ':' ∉ threadName.toList ∧ threadName ≠ "" ∧ threads threadName = true

/-- The executor of the task has a record, and is alive. -/
def Found (threads : String → Bool) (m : ExecutionStatusManager) (task : Ptr) (executorId : String) :
    Prop :=
  m.check executorId task = true ∧ Alive threads executorId

/-- What traces are right about. -/
structure Traceable (threads : String → Bool) (s : Executions F V) : Prop where
  manned : s.world.Manned
  found : ∀ t ∈ s.world.obtained, ∀ e, s.world.executor? t = some e → Found threads s.manager t e

theorem Traceable.sound (h : Traceable threads s) : s.world.Sound := h.manned.toSound

theorem field_getName {localName threadName : String} (hlocal : ':' ∉ localName.toList)
    (hthread : ':' ∉ threadName.toList) (hne : threadName ≠ "") :
    TxnTime.field (ExecutionStatusManager.getName localName threadName) 1 = .ok threadName := by
  have hjoin : ExecutionStatusManager.getName localName threadName =
      (String.singleton ':').intercalate [localName, threadName] := by
    simp only [ExecutionStatusManager.getName, String.intercalate_cons_cons,
      String.intercalate_singleton, String.append_assoc]
    rfl
  have hsplit : JavaText.split ':' (ExecutionStatusManager.getName localName threadName) =
      [localName, threadName] := by
    rw [hjoin]
    refine JavaText.split_intercalate_of_getLast ?_ (by simp) ?_
    · intro p hp
      rcases List.mem_cons.mp hp with rfl | hp
      · exact hlocal
      · rw [List.mem_singleton.mp hp]
        exact hthread
    · rintro l hl rfl
      exact hne (Option.some.inj hl)
  rw [TxnTime.field, hsplit]
  rfl

/-- The executor of a task that was obtained is found. -/
theorem Traceable.checkExecutor (h : Traceable threads s) (ht : t ∈ s.world.obtained)
    (he : s.world.executor? t = some e) : checkExecutor threads s.manager e t = .ok true := by
  obtain ⟨hcheck, localName, threadName, rfl, hlocal, hthread, hne, halive⟩ := h.found t ht e he
  rw [Executions.checkExecutor, field_getName hlocal hthread hne]
  show Except.ok (_ && _) = _
  rw [hcheck, halive]
  rfl

/-! ## One node -/

theorem ends_of_complete (hd : s.world.tasks.get t = some d) (hcomplete : d.isComplete = true) :
    ∃ status, (status = .success ∧ d.result.isSome ∨
        ∃ ex, status = .failed ex ∧ d.result = none ∧ d.exception = some ex) ∧
      s.getStatusTrace threads (fuel + 1) t = pure (.mk t status []) := by
  cases hresult : d.result with
  | some v =>
    refine ⟨.success, .inl ⟨rfl, by simp⟩, ?_⟩
    simp only [getStatusTrace, hd, visit, hresult]
    rfl
  | none =>
    cases hexception : d.exception with
    | some ex =>
      refine ⟨.failed ex, .inr ⟨ex, rfl, rfl, rfl⟩, ?_⟩
      simp only [getStatusTrace, hd, visit, hresult, hexception]
      rfl
    | none => simp [TaskData.isComplete, hresult, hexception] at hcomplete

/-- A task with an executor is running. -/
theorem Traceable.ends_of_executor (h : Traceable threads s) (hd : s.world.tasks.get t = some d)
    (hincomplete : d.isComplete = false) (he : d.executorId = some e) :
    t ∈ s.world.obtained ∧ s.getStatusTrace threads (fuel + 1) t =
      (d.triggers.mapM (s.getStatusTrace threads fuel) >>= fun children =>
        pure (.mk t (.running e) children)) := by
  obtain ⟨hresult, hexception⟩ : d.result = none ∧ d.exception = none := by
    simpa [TaskData.isComplete] using hincomplete
  have ht := h.manned.running t d hd (by rw [he]; rfl) hincomplete
  have hcheck := h.checkExecutor ht ((TaskWorld.executor?_of_some hd).trans he)
  refine ⟨ht, ?_⟩
  have hvisit : visit threads s.manager d t = .ok (.running e) := by
    simp only [visit, hresult, hexception, he, hcheck]
    rfl
  simp only [getStatusTrace, hd, hvisit]
  rfl

/-- A task without an executor is queued or blocked. -/
theorem ends_of_waiting (hd : s.world.tasks.get t = some d) (hincomplete : d.isComplete = false)
    (he : d.executorId = none) : s.getStatusTrace threads (fuel + 1) t =
      (d.triggers.mapM (s.getStatusTrace threads fuel) >>= fun children =>
        pure (s.pendingTrace t children)) := by
  obtain ⟨hresult, hexception⟩ : d.result = none ∧ d.exception = none := by
    simpa [TaskData.isComplete] using hincomplete
  have hvisit : visit threads s.manager d t = .ok .unknown := by
    simp only [visit, hresult, hexception, he]
    rfl
  simp only [getStatusTrace, hd, hvisit]
  rfl

/-! ## Traces are right -/

/-- The status of a node is what the task is in. -/
def Right (s : Executions F V) : TaskStatusTrace → Prop
  | .mk id .success _ => ∃ d, s.world.tasks.get id = some d ∧ d.result.isSome
  | .mk id (.failed ex) _ =>
    ∃ d, s.world.tasks.get id = some d ∧ d.result = none ∧ d.exception = some ex
  | .mk id (.running executor) _ =>
    id ∈ s.world.obtained ∧ s.world.executor? id = some executor
  | .mk id .queued _ => id ∈ s.world.workQueue
  | .mk id .blocked children => (∃ u, s.world.Waits id u) ∧
    ∃ d, s.world.tasks.get id = some d ∧ children.map (·.id) = d.triggers
  | .mk id .exNotDefined _ => s.world.tasks.get id = none
  | .mk _ (.orphan _) _ | .mk _ .unknown _ => False

/-- A right status is no longer pending just when the task is complete. -/
theorem Right.done_eq (h : s.Right trace) (hsound : s.world.Sound) :
    trace.done = s.world.complete trace.id := by
  obtain ⟨id, status, children⟩ := trace
  cases status with
  | success =>
    obtain ⟨d, hd, hresult⟩ := h
    exact ((TaskWorld.complete_some hd).trans (by rw [TaskData.isComplete, hresult]; rfl)).symm
  | failed ex =>
    obtain ⟨d, hd, -, hexception⟩ := h
    exact ((TaskWorld.complete_some hd).trans
      (by rw [TaskData.isComplete, hexception]; exact Bool.or_true _)).symm
  | running executor =>
    obtain ⟨d, hd, -, hincomplete⟩ := hsound.obtained_mem id h.1
    exact ((TaskWorld.complete_some hd).trans hincomplete).symm
  | queued =>
    refine (Bool.eq_false_iff.mpr fun hcomplete => ?_).symm
    exact (hsound.complete_step hcomplete (.getTask 0 "")).1 (.inl h)
  | blocked =>
    obtain ⟨⟨u, d, hd, hincomplete, -⟩, -⟩ := h
    exact ((TaskWorld.complete_some hd).trans hincomplete).symm
  | exNotDefined =>
    have hnone : s.world.tasks.get id = none := h
    show false = s.world.complete id
    rw [TaskWorld.complete, hnone]
    rfl
  | orphan | unknown => exact h.elim

/-- The traces of some tasks, in their order. -/
theorem traces_spec {P : TaskStatusTrace → Prop} {children : List TaskStatusTrace} {l : List Ptr}
    (h : List.Forall₂ (fun u c => TaskStatusTrace.id c = u ∧ c.Everywhere P) l children) :
    children.map (·.id) = l ∧ ∀ c ∈ children, c.Everywhere P := by
  induction h with
  | nil => exact ⟨rfl, nofun⟩
  | cons hc _ ih =>
    obtain ⟨hmap, hall⟩ := ih
    refine ⟨congrArg₂ List.cons hc.1 hmap, fun c hmem => ?_⟩
    rcases List.mem_cons.mp hmem with rfl | hmem
    · exact hc.2
    · exact hall c hmem

theorem not_isOrphaned (h : trace.Everywhere s.Right) : trace.isOrphaned = false := by
  induction h with
  | node id status children h _ ih =>
    rw [TaskStatusTrace.isOrphaned, TaskStatusTrace.anyOrphaned_eq_false ih, Bool.or_false]
    cases status with
    | orphan ex => exact h.elim
    | _ => rfl

/-- The traces of the triggers say whether the task can run. -/
theorem pending_iff (hsound : s.world.Sound) {children : List TaskStatusTrace}
    (hid : children.map (·.id) = d.triggers) (hall : ∀ c ∈ children, c.Everywhere s.Right) :
    (children.filter (!·.done)).isEmpty = true ↔ s.world.triggered d = true := by
  rw [List.isEmpty_iff, List.filter_eq_nil_iff, TaskWorld.triggered_iff, ← hid, List.forall_mem_map]
  refine forall₂_congr fun c hc => ?_
  rw [(hall c hc).here.done_eq hsound]
  simp

theorem Traceable.right (h : Traceable threads s)
    (hends : Ends (s.getStatusTrace threads fuel t) trace) :
    trace.id = t ∧ trace.Everywhere s.Right := by
  induction fuel generalizing t trace with
  | zero => cases hends
  | succ fuel ih =>
    cases hd : s.world.tasks.get t with
    | none =>
      simp only [getStatusTrace, hd] at hends
      cases hends
      exact ⟨rfl, .node _ _ _ hd nofun⟩
    | some d =>
      cases hcomplete : d.isComplete with
      | true =>
        obtain ⟨status, hstatus, heq⟩ := ends_of_complete hd hcomplete
        rw [heq, ends_pure] at hends
        subst hends
        refine ⟨rfl, .node _ _ _ ?_ nofun⟩
        rcases hstatus with ⟨rfl, hresult⟩ | ⟨ex, rfl, hresult, hexception⟩
        · exact ⟨d, hd, hresult⟩
        · exact ⟨d, hd, hresult, hexception⟩
      | false =>
        have hchildren : ∀ children, Ends (d.triggers.mapM (s.getStatusTrace threads fuel)) children →
            children.map (·.id) = d.triggers ∧ ∀ c ∈ children, c.Everywhere s.Right :=
          fun children hc => traces_spec ((ends_mapM.mp hc).imp fun _ _ => ih)
        cases he : d.executorId with
        | some e =>
          obtain ⟨ht, heq⟩ := h.ends_of_executor hd hcomplete he
          rw [heq, ends_bind] at hends
          obtain ⟨children, hc, hends⟩ := hends
          cases ends_pure.mp hends
          exact ⟨rfl, .node _ _ _ ⟨ht, (TaskWorld.executor?_of_some hd).trans he⟩
            (hchildren children hc).2⟩
        | none =>
          rw [ends_of_waiting hd hcomplete he, ends_bind] at hends
          obtain ⟨children, hc, hends⟩ := hends
          obtain ⟨hid, hall⟩ := hchildren children hc
          obtain rfl := ends_pure.mp hends
          have hactive := h.manned.active_or_waits hd hcomplete
          unfold pendingTrace
          dsimp only
          split_ifs with hpending hqueued
          · exact ⟨rfl, .node _ _ _ hqueued nofun⟩
          · -- all triggers are complete, so the task is in the queue
            have htriggered := (pending_iff h.sound hid hall).mp hpending
            rcases hactive with (hmem | hmem) | ⟨u, d', hd', -, hmem, hu⟩
            · exact absurd hmem hqueued
            · have := (h.sound.obtained_some hmem hd).1
              rw [he] at this
              cases this
            · cases hd.symm.trans hd'
              rw [TaskWorld.triggered_iff.mp htriggered u hmem] at hu
              cases hu
          · refine ⟨rfl, .node _ _ _ ⟨?_, d, hd, hid⟩ hall⟩
            rw [pending_iff h.sound hid hall, TaskWorld.triggered_iff] at hpending
            push Not at hpending
            obtain ⟨u, hu, hincomplete⟩ := hpending
            exact ⟨u, d, hd, hcomplete, hu, Bool.of_not_eq_true hincomplete⟩

/-! ## Traces end -/

theorem exists_ends_mapM {α β : Type} {f : α → ExceptT Failure Option β} {l : List α}
    (h : ∀ a ∈ l, ∃ b, Ends (f a) b) : ∃ m, Ends (l.mapM f) m := by
  induction l with
  | nil => exact ⟨[], ends_mapM.mpr .nil⟩
  | cons a l ih =>
    obtain ⟨b, hb⟩ := h a List.mem_cons_self
    obtain ⟨m, hm⟩ := ih fun a ha => h a (List.mem_cons_of_mem _ ha)
    exact ⟨b :: m, ends_mapM.mpr (.cons hb (ends_mapM.mp hm))⟩

theorem ends_of_mapM {α β : Type} {f : α → ExceptT Failure Option β} {l : List α} {m : List β}
    (h : Ends (l.mapM f) m) {a : α} (ha : a ∈ l) : ∃ b, Ends (f a) b := by
  have hall := ends_mapM.mp h
  clear h
  induction hall with
  | nil => cases ha
  | cons hb _ ih =>
    rcases List.mem_cons.mp ha with rfl | ha
    · exact ⟨_, hb⟩
    · exact ih ha

/-- A trace that ends has followed the waiting to its ends. -/
theorem acc_of_ends (h : s.world.Sound) (hends : Ends (s.getStatusTrace threads fuel t) trace) :
    Acc (fun u t => s.world.Waits t u) t := by
  induction fuel generalizing t trace with
  | zero => cases hends
  | succ fuel ih =>
    refine .intro t fun u ⟨d, hd, hincomplete, hmem, hu⟩ => ?_
    obtain ⟨he, -⟩ := h.waiting hd hmem hu
    rw [ends_of_waiting hd hincomplete he, ends_bind] at hends
    obtain ⟨children, hc, -⟩ := hends
    obtain ⟨c, hc⟩ := ends_of_mapM hc hmem
    exact ih hc

/-- Two calls more than the rank are enough. -/
theorem Traceable.ends_of_rank (h : Traceable threads s) {r : Ptr} {rank : Ptr → ℕ}
    (hrank : ∀ t u, From s.world.Waits r t u → rank u < rank t)
    (hreach : ReflTransGen s.world.Waits r t) (hfuel : rank t + 2 ≤ fuel) :
    ∃ trace, Ends (s.getStatusTrace threads fuel t) trace := by
  induction fuel generalizing t with
  | zero => cases hfuel
  | succ fuel ih =>
    cases hd : s.world.tasks.get t with
    | none =>
      simp only [getStatusTrace, hd]
      exact ⟨_, rfl⟩
    | some d =>
      cases hcomplete : d.isComplete with
      | true =>
        obtain ⟨status, -, heq⟩ := ends_of_complete hd hcomplete
        exact ⟨_, heq⟩
      | false =>
        -- complete triggers end at once, and the others have a lower rank
        have htriggers : ∀ u ∈ d.triggers, ∃ c, Ends (s.getStatusTrace threads fuel u) c := by
          intro u hmem
          obtain ⟨e, he⟩ := h.sound.triggers_mem t d hd u hmem
          cases hu : e.isComplete with
          | true =>
            obtain ⟨n, rfl⟩ : ∃ n, fuel = n + 1 := ⟨fuel - 1, by omega⟩
            obtain ⟨status, -, heq⟩ := ends_of_complete he hu
            exact ⟨_, heq⟩
          | false =>
            have hwaits : s.world.Waits t u :=
              ⟨d, hd, hcomplete, hmem, (TaskWorld.complete_some he).trans hu⟩
            have hlt := hrank t u ⟨hreach, hwaits⟩
            exact ih (hreach.tail hwaits) (by omega)
        obtain ⟨children, hc⟩ := exists_ends_mapM htriggers
        cases he : d.executorId with
        | some e =>
          rw [(h.ends_of_executor hd hcomplete he).2]
          exact ⟨_, ends_bind.mpr ⟨children, hc, rfl⟩⟩
        | none =>
          rw [ends_of_waiting hd hcomplete he]
          exact ⟨_, ends_bind.mpr ⟨children, hc, rfl⟩⟩

theorem Traceable.ends_iff (h : Traceable threads s) (t : Ptr) :
    (∃ fuel trace, Ends (s.getStatusTrace threads fuel t) trace) ↔
      ¬ReachesCycle s.world.Waits t := by
  constructor
  · rintro ⟨fuel, trace, hends⟩
    exact not_reachesCycle_of_acc (acc_of_ends h.sound hends)
  · intro hcycle
    obtain ⟨rank, hrank, -⟩ := (acyclic_from hcycle).exists_rank
      (fun _ _ h' => h.sound.waits_lt h'.2)
    exact ⟨rank t + 2, h.ends_of_rank hrank .refl (Nat.le_refl _)⟩

end Executions

/-- The order of the queue does not matter. -/
theorem TaskWorld.Manned.perm {v : TaskWorld F V} (h : v.Manned) {items : List Ptr}
    (hperm : v.workQueue.Perm items) : TaskWorld.Manned { v with workQueue := items } where
  toLinked := h.toLinked.of_tasks rfl
  queue_mem s hs := h.queue_mem s (hperm.mem_iff.mpr hs)
  queued s d hd := (hperm.count_eq s).symm.trans (h.queued s d hd)
  obtained_mem := h.obtained_mem
  obtained_nodup := h.obtained_nodup
  running := h.running

namespace QueueWorld

open Executions

/-- A task waits for another, which runs. -/
def blockedRun : List (QueueAction ℕ ℕ) :=
  [.add 0 [] (some 0), .add 1 [0] none, .getTask (some 0) "host:a"]

end QueueWorld

end ReSTM
