import Mathlib.Logic.Function.Basic
import ReSTM.Collection.LinkedListRuns
import ReSTM.Collection.TreeCollection
import ReSTM.Task.Completion

/-!
# Sorting a `TreeCollection`

Model of `sort` and `sortTask` (`stm/collection/TreeCollection.scala`, lines 146–185 and 228–232)
and of `runTask` (`stm/task/StmExecutionQueue.scala`, lines 121–165). The task of a node first
creates a task for each child, and goes on when these are complete: it then merges their lists with
the value of the node. The two functions are values of `SortFunction`, which Kryo stores.

Every read of a task's result, and every `add` and `remove` of a list, is a transaction of its own,
which the others may come between. `Merge.step` goes on to the next one: a `Merge` says where the
function stands and what its variables are. A list that no transaction has written to is stored as
`{}`, and the pointer that `new PointerType` draws is a new one. The sources of a merge are lists of
different tasks, so that they are told apart by their pointers.

* `Merge.step`: the merge function.
* `SortWorld.step`: an executor takes a task from the queue, or goes on with the one that it runs; a
  function that throws is run again.
-/

namespace ReSTM

open HeapModel

variable {T : Type}

/-- A list of values that may be `null`. -/
abbrev SortList (T : Type) : Type := LinkedList (Option T)

/-- A transaction, or several, on lists. -/
abbrev ListsTxn (T α : Type) : Type := StateT (Heap (SortList T)) (Except Failure) α

/-- The functions of a sort: `sort()` of a node (line 149), and `newFunction` (lines 168–184). -/
inductive SortFunction (T : Type)
  | sort (node : TreeCollectionNode T)
  | merge (value : Option T) (tasks : List Ptr)
deriving DecidableEq

/-- A value of a source, with the source, if it has one. -/
abbrev Cursor (T : Type) : Type := Option T × Option Ptr

/-- Where `newFunction` stands: it reads the results of the tasks that are left (line 171) or the
    first values of the sources that are left (line 175), it is at the head of the loop (line 177),
    or it reads the source of the value that was added last (line 181). -/
inductive Merge (T : Type)
  | sources (value : Option T) (todo lists : List Ptr)
  | firsts (value : Option T) (todo : List Ptr) (cursors : List (Cursor T))
  | loop (cursors : List (Cursor T)) (result : Ptr)
  | next (optList : Option Ptr) (cursors : List (Cursor T)) (result : Ptr)
deriving DecidableEq

namespace LinkedList

/-- A transaction on the list under a pointer. -/
def atomic {α : Type} (list : Ptr) (x : ListTxn (Option T) α) : ListsTxn T α := fun h => do
  let (a, l) ← x ((h.get list).getD {})
  return (a, h.set list (some l))

/-- `LinkedList.static(new PointerType)`. -/
def static : ListsTxn T Ptr := fun h => .ok (h.next, h.alloc {})

end LinkedList

namespace Merge

section

variable [LinearOrder T]

/-- `Ordering.lt`. A `null` cannot be compared. -/
def lt : Option T → Option T → Except Failure Bool
  | some x, some y => .ok (decide (x < y))
  | _, _ => .error Failure.nullPointer

/-- The loop of `minBy(_._1)`, which keeps the first of equal values. -/
def minFrom (minElem : Cursor T) : List (Cursor T) → Except Failure (Cursor T)
  | [] => return minElem
  | elem :: l => do minFrom (if ← lt elem.1 minElem.1 then elem else minElem) l

end

/-- `read` (line 173). `Option(tailValue.value)` of `null` is `None`. -/
def read [BEq T] (list : Ptr) : ListsTxn T (Option (Cursor T)) := do
  let value ← LinkedList.atomic list LinkedList.remove
  return value.join.map fun x => (some x, some list)

/-- The next transaction of `newFunction` (lines 171–183): what comes after it, or the result. -/
def step [LinearOrder T] (results : Ptr → Except Failure Ptr) : Merge T → ListsTxn T (Merge T ⊕ Ptr)
  | .sources value (task :: todo) lists => do
    let list ← (results task : Except Failure Ptr)
    return .inl (.sources value todo (lists ++ [list]))
  | .sources value [] lists => return .inl (.firsts value lists [])
  | .firsts value (list :: todo) cursors => do
    let cursor ← read list
    return .inl (.firsts value todo (cursors ++ cursor.toList))
  | .firsts value [] cursors => do
    let result ← LinkedList.static
    return .inl (.loop (cursors ++ [(value, none)]) result)
  | .loop [] result => return .inr result
  | .loop (elem :: l) result => do
    let (nextValue, optList) ← (minFrom elem l : Except Failure (Cursor T))
    LinkedList.atomic result (LinkedList.add nextValue)
    return .inl (.next optList ((elem :: l).filter (·.2 ≠ optList)) result)
  | .next none cursors result => return .inl (.loop cursors result)
  | .next (some list) cursors result => do
    let cursor ← read list
    return .inl (.loop (cursors ++ cursor.toList) result)

end Merge

/-- Where a function stands. Of `sort()`, the children without a task and the tasks are kept. -/
inductive Execution (T : Type)
  | creating (node : TreeCollectionNode T) (children : List Ptr) (tasks : List Ptr)
  | merging (m : Merge T)
deriving DecidableEq

/-- A function starts. -/
def SortFunction.start : SortFunction T → Execution T
  | .sort node => .creating node (node.left.toList ++ node.right.toList) []
  | .merge value tasks => .merging (.sources value tasks [])

/-- `attempt(retries)` of a function. -/
structure Attempt (T : Type) where
  function : SortFunction T
  retries : ℕ := 3
  execution : Execution T
deriving DecidableEq

/-- The nodes of the collection, the tasks and the lists, and what the executors run. -/
structure SortWorld (T : Type) where
  nodes : Heap (TreeCollectionNode T)
  tasks : TaskWorld (SortFunction T) Ptr
  lists : Heap (SortList T) := {}
  running : Ptr → Option (Attempt T) := fun _ => none

/-- An executor takes the task at the place `i` of the queue, or goes on with a task; or the function
    that runs for a task throws, as when a transaction cannot be committed. -/
inductive SortAction
  | getTask (i : ℕ) (executorName : String)
  | execute (task : Ptr)
  | fail (task : Ptr) (e : Failure)

/-- A function throws. -/
def SortAction.Fails : SortAction → Prop
  | .fail _ _ => True
  | _ => False

namespace SortWorld

/-- `stream` of the list under a pointer. -/
def stream (w : SortWorld T) (list : Ptr) : Except Failure (List (Option T)) :=
  ((w.lists.get list).getD {}).stream

/-- What runs for a task. -/
def run (task : Ptr) (a : Option (Attempt T)) (w : SortWorld T) : SortWorld T :=
  { w with running := Function.update w.running task a }

/-- The function has returned, or failed for good. -/
def finish (task : Ptr) (result : Except Failure (TaskResult (SortFunction T) Ptr))
    (w : SortWorld T) : SortWorld T :=
  run task none { w with tasks := w.tasks.step (.complete task result) }

/-- `recoverWith`: the function is run again, or has failed for good. -/
def failed (task : Ptr) (a : Attempt T) (e : Failure) (w : SortWorld T) : SortWorld T :=
  match a.retries with
  | 0 => w.finish task (.error e)
  | retries + 1 => w.run task (some { a with retries := retries, execution := a.function.start })

/-- `getTask`, and the first attempt. -/
def getTask (i : ℕ) (executorName : String) (w : SortWorld T) : SortWorld T :=
  let w' := { w with tasks := w.tasks.step (.getTask i executorName) }
  match StmExecutionQueue.getTask i executorName w.tasks with
  | .ok (some (task, function), _) =>
    w'.run task (some { function := function, execution := function.start })
  | _ => w'

/-- The task of a child, if the child is defined: `readOpt` and `sortTask`. -/
def addTask (child : Ptr) (w : SortWorld T) : Except Failure (List Ptr × SortWorld T) :=
  match w.nodes.get child with
  | none => return ([], w)
  | some node => do
    let (task, tasks) ← StmExecutionQueue.add (.sort node) [] w.tasks
    return ([task], { w with tasks := tasks })

/-- The next transaction of what runs for a task. -/
def execute [LinearOrder T] (task : Ptr) (w : SortWorld T) : SortWorld T :=
  match w.running task with
  | none => w
  | some a =>
    match a.execution with
    | .creating node (child :: children) tasks =>
      match w.addTask child with
      | .ok (new, w') =>
        w'.run task (some { a with execution := .creating node children (tasks ++ new) })
      | .error e => w.failed task a e
    | .creating node [] tasks =>
      w.finish task (.ok (.taskContinue (.merge node.value tasks) tasks))
    | .merging m =>
      match m.step (fun u => Task.result u w.tasks) w.lists with
      | .ok (.inl m', lists) =>
        { w with lists := lists }.run task (some { a with execution := .merging m' })
      | .ok (.inr result, lists) =>
        { w with lists := lists }.finish task (.ok (.taskSuccess (some result)))
      | .error e => w.failed task a e

/-- One step. -/
def step [LinearOrder T] (w : SortWorld T) : SortAction → SortWorld T
  | .getTask i executorName => w.getTask i executorName
  | .execute task => w.execute task
  | .fail task e =>
    match w.running task with
    | none => w
    | some a => w.failed task a e

/-- There is a task at the place of the queue, or something runs for the task. -/
def Enabled (w : SortWorld T) : SortAction → Prop
  | .getTask i _ => i < w.tasks.workQueue.length
  | .execute task | .fail task _ => (w.running task).isSome

instance (w : SortWorld T) : (act : SortAction) → Decidable (w.Enabled act)
  | .getTask i _ => inferInstanceAs (Decidable (i < w.tasks.workQueue.length))
  | .execute task | .fail task _ => inferInstanceAs (Decidable ((w.running task).isSome = true))

instance : DecidablePred SortAction.Fails
  | .getTask _ _ | .execute _ => inferInstanceAs (Decidable False)
  | .fail _ _ => inferInstanceAs (Decidable True)

end SortWorld

/-- `sort` (lines 228–232): the task of the root node, the first one of the queue. -/
def TreeCollection.sort (c : TreeCollection T) : Except Failure (Ptr × SortWorld T) :=
  match c.root.join with
  | some node => do
    let (task, tasks) ← StmExecutionQueue.add (.sort node) [] {}
    return (task, { nodes := c.nodes, tasks := tasks })
  | none => throw Failure.noneGet

end ReSTM
