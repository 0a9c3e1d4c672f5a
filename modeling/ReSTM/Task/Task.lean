import ReSTM.Common.Heap
import ReSTM.Types.Failure

/-!
# Tasks and their triggers

Model of `Task` and `TaskData` (`stm/task/Task.scala`) and of the parts of
`StmExecutionQueue` (`stm/task/StmExecutionQueue.scala`) that queue tasks and take them from
the queue. A task is the pointer `root` to its data. All tasks share one `StmExecutionQueue`,
whose `workQueue` is a list here; which of its items `take` returns is left open. Functions
are stored by Kryo, which is the identity.

`complete` starts the notifications of all subscribers at once. Here they come one after another,
which is one of the orders that are possible; `Notifications.lean` has all of them, over the lists of
the work queue, `Released.lean` the system with these, and `InTurn.lean` relates it to this one.

An operation runs as one transaction: when it fails it has changed nothing.

* `TaskWorld.step`: the steps of `add`, `getTask` and `complete`.
-/

namespace ReSTM

open HeapModel

/-- `sealed trait TaskResult[T]` (lines 54–59). The value of a success may be `null`. -/
inductive TaskResult (F V : Type) where
  | taskSuccess (value : Option V)
  | taskContinue (newFunction : F) (newTriggers : List Ptr)
deriving DecidableEq

/-- `case class TaskData[T]` (lines 375–382). Of a `TaskSubscription` the task is kept. -/
structure TaskData (F V : Type) where
  kryoTask : Option F := none
  executorId : Option String := none
  result : Option V := none
  exception : Option Failure := none
  triggers : List Ptr := []
  subscribers : List Ptr := []
deriving DecidableEq

/-- The tasks and the work queue. `obtained` are the tasks that an executor has obtained and
    not completed. -/
structure TaskWorld (F V : Type) where
  tasks : Heap (TaskData F V) := {}
  workQueue : List Ptr := []
  obtained : List Ptr := []
deriving DecidableEq

variable {F V : Type}

/-- A transaction on tasks. -/
abbrev TaskTxn (F V α : Type) : Type := StateT (TaskWorld F V) (Except Failure) α

namespace TaskData

/-- `newTask` (lines 385–387). -/
def newTask (task : F) (d : TaskData F V) : TaskData F V := { d with kryoTask := some task }

/-- `currentState.result.isDefined || currentState.exception.isDefined`. -/
def isComplete (d : TaskData F V) : Bool := d.result.isSome || d.exception.isSome

end TaskData

namespace Task

/-- `root.read()`. -/
def read (root : Ptr) : TaskTxn F V (TaskData F V) := fun w =>
  match w.tasks.get root with
  | some d => .ok (d, w)
  | none => .error (Failure.chainEx ("not defined: " ++ root.repr) Failure.noneGet)

/-- `root.write(value)`. Equal task data are the same. -/
def write (root : Ptr) (value : TaskData F V) : TaskTxn F V Unit := fun w =>
  .ok ((), { w with tasks := w.tasks.set root (some value) })

/-- `StmExecutionQueue.add(f: Task[_])`. -/
def queueAdd (task : Ptr) : TaskTxn F V Unit := fun w =>
  .ok ((), { w with workQueue := w.workQueue ++ [task] })

/-- `create` (lines 51–52). -/
def create (f : F) (ancestors : List Ptr) : TaskTxn F V Ptr := fun w =>
  .ok (w.tasks.next, { w with tasks := w.tasks.alloc { kryoTask := some f, triggers := ancestors } })

/-- `obtainTask` (lines 143–153). -/
def obtainTask (executorId : String) (root : Ptr) : TaskTxn F V (Option F) := do
  let currentState ← read root
  let task := currentState.kryoTask.filter fun _ =>
    currentState.executorId.isNone && currentState.result.isNone && currentState.exception.isNone
  match task with
  | some task =>
    write root { currentState with executorId := some executorId }
    return some task
  | none => return none

/-- `addSubscriber` (lines 155–161). -/
def addSubscriber (task : Ptr) (root : Ptr) : TaskTxn F V Bool := do
  let prev ← read root
  write root { prev with subscribers := prev.subscribers ++ [task] }
  return prev.isComplete

/-- `isComplete` (lines 272–274). -/
def isComplete (root : Ptr) : TaskTxn F V Bool := fun w =>
  .ok ((w.tasks.get root).any (·.isComplete), w)

/-- `canRun` (lines 266–270). -/
def canRun (root : Ptr) : TaskTxn F V Bool := do
  let currentState ← read root
  let complete ← currentState.triggers.mapM isComplete
  return complete.all id

/-- `TaskData.initTriggers` (lines 389–397). -/
def initTriggers (t : Ptr) (d : TaskData F V) : TaskTxn F V (TaskData F V) := do
  let allTriggersTripped ← d.triggers.mapM (addSubscriber t)
  if allTriggersTripped.all id then queueAdd t
  return d

/-- What `complete` writes (lines 237–252). -/
def update (root : Ptr) (currentState : TaskData F V) :
    Except Failure (TaskResult F V) → TaskTxn F V (TaskData F V)
  | .ok (.taskSuccess success) => return { currentState with result := success }
  | .ok (.taskContinue next newTriggers) =>
    initTriggers root
      ({ currentState with triggers := newTriggers, executorId := none }.newTask next)
  | .error exception => return { currentState with exception := some exception }

/-- A subscriber is told (lines 255–261). -/
def notify (task : Ptr) : TaskTxn F V Unit := do
  if ← canRun task then queueAdd task

/-- `complete` (lines 235–264), when the notifications come one after another. -/
def complete (root : Ptr) (result : Except Failure (TaskResult F V)) : TaskTxn F V Unit := do
  let currentState ← read root
  let update ← update root currentState result
  write root update
  currentState.subscribers.forM notify

end Task

namespace StmExecutionQueue

/-- `add[T]` (lines 78–81), with `Task.initTriggers` (lines 124–126). -/
def add (f : F) (ancestors : List Ptr) : TaskTxn F V Ptr := do
  let task ← Task.create f ancestors
  let d ← Task.read task
  let _ ← Task.initTriggers task d
  return task

/-- `getTask` (lines 167–179), when `workQueue.take(1)` returns the item at the place `i`. -/
def getTask (i : ℕ) (executorName : String) : TaskTxn F V (Option (Ptr × F)) := do
  match (← get).workQueue[i]? with
  | none => return none
  | some task =>
    modify fun w => { w with workQueue := w.workQueue.eraseIdx i }
    let function ← Task.obtainTask executorName task
    return function.map fun f => (task, f)

end StmExecutionQueue

/-- One step. -/
inductive TaskAction (F V : Type) where
  | add (f : F) (ancestors : List Ptr)
  | getTask (i : ℕ) (executorName : String)
  | complete (task : Ptr) (result : Except Failure (TaskResult F V))

namespace TaskWorld

/-- `add`, `getTask` and `complete` as transactions. A task is completed by the executor
    that obtained it, once. -/
def step (w : TaskWorld F V) : TaskAction F V → TaskWorld F V
  | .add f ancestors =>
    match StmExecutionQueue.add f ancestors w with
    | .ok (_, w') => w'
    | .error _ => w
  | .getTask i executorName =>
    match StmExecutionQueue.getTask i executorName w with
    | .ok (some (task, _), w') => { w' with obtained := task :: w'.obtained }
    | .ok (none, w') => w'
    | .error _ => w
  | .complete task result =>
    if task ∈ w.obtained then
      match Task.complete task result w with
      | .ok (_, w') => { w' with obtained := w'.obtained.erase task }
      | .error _ => w
    else w

end TaskWorld

end ReSTM
