import ReSTM.Clustering.PagePart
import ReSTM.Clustering.PageTree

/-!
# Nodes of a classification tree

Model of `ClassificationTreeNode` (`stm/clustering/ClassificationTreeNode.scala`) and of
`ClassificationTreeData` (`stm/clustering/ClassificationTree.scala`, lines 101–118), as far as
items are looked up and inserted. A node without a rule has a buffer for its pages, a node with a
rule has three children. Buffers are stored under pointers of their own. `choices` are the random
bits that the calls on buffers draw and the answers to the requests for locks, in their order;
`queue` has the tasks that `autosplit` adds, if there is a queue. They are not run here. The
names of rules are left out.

* `ClassificationTreeNode.find`, `add`: lookup and insertion.
-/

namespace ReSTM

open HeapModel JavaBytes Nodes

/-! ## Rules -/

/-- `case class RuleData` (`strategy/ClassificationStrategy.scala`, line 29). -/
structure RuleData where
  fn : KeyValue → Except Failure Bool

/-- `metricFn` (`strategy/MetricClassificationStrategyBase.scala`, lines 40–42). -/
def metricFn (field : String) (x : KeyValue) : Except Failure Float :=
  x.apply field >>= AnyValue.doubleValue

/-- `ruleFn` (lines 34–38). -/
def ruleFn (metric : KeyValue → Except Failure Float) (threshold : Float) : RuleData where
  fn item := (metric item).map threshold.lt

/-- `0`, `1` and `2`, the keys of a split (lines 278–288). -/
inductive Branch
  | pass
  | fail
  | exception
deriving DecidableEq

/-- A value for each branch. -/
def Branch.elim {α : Type} (pass fail exception : α) : Branch → α
  | .pass => pass
  | .fail => fail
  | .exception => exception

/-- `eval` (lines 278–288). -/
def RuleData.eval (rule : RuleData) (item : KeyValue) : Branch :=
  match rule.fn item with
  | .ok true => .pass
  | .ok false => .fail
  | .error _ => .exception

/-- `split` (lines 277–296): the part of a page whose rows take a branch, if there are any. -/
def RuleData.split (rule : RuleData) (value : Page) (b : Branch) : Except Failure (Option Page) :=
  match value.rows.filter fun r => rule.eval r.keyValue = b with
  | [] => return none
  | rows => return some (← value.getAll rows)

/-! ## Nodes -/

/-- `case class ClassificationTreeNode` (lines 33–43). -/
structure ClassificationTreeNode where
  parent : Option Ptr
  pass : Option Ptr := none
  fail : Option Ptr := none
  exception : Option Ptr := none
  itemBuffer : Option Ptr
  splitBuffer : Option Ptr := none
  splitTask : Option ℕ := none
  rule : Option RuleData := none

/-- The child of a branch. -/
def ClassificationTreeNode.child (n : ClassificationTreeNode) : Branch → Option Ptr
  | .pass => n.pass
  | .fail => n.fail
  | .exception => n.exception

/-- `splitTaskFn` (lines 424–437), with its arguments. -/
structure SplitTask where
  self : Ptr
  root : Ptr
  maxSplitDepth : ℤ
deriving DecidableEq

/-- What is stored of a classification tree. -/
structure ClusterStore where
  nodes : Heap ClassificationTreeNode := {}
  buffers : Heap PageTree := {}
  queue : Option (List SplitTask) := none
  choices : ℕ → ℕ → Bool

/-- A transaction on a classification tree. -/
abbrev ClusterTxn (α : Type) : Type := StateT ClusterStore (Except Failure) α

/-- `ClassificationStrategy`: the rule for a node, `none` in place of `null`, and whether a
    buffer is to be split. -/
structure ClassificationStrategy where
  getRule : PageTree → ℕ → Except Failure (Option RuleData)
  split : PageTree → (ℕ → Bool) → Except Failure Bool

namespace ClusterStore

/-- A transaction on the nodes. -/
def onNodes {α : Type} (f : NodeTxn ClassificationTreeNode α) : ClusterTxn α := fun s =>
  (f s.nodes).map fun r => (r.1, { s with nodes := r.2 })

/-- A node is stored. Its `equals` compares all fields, so that a write that is skipped would
    have changed nothing. -/
def writeNode (p : Ptr) (n : ClassificationTreeNode) : ClusterTxn Unit :=
  onNodes (write Heap.never p n)

/-- A transaction on a buffer. -/
def onBuffer {α : Type} (b : Ptr) (f : PageTree → Except Failure (α × PageTree)) :
    ClusterTxn α := fun s =>
  match s.buffers.get b with
  | some t => (f t).map fun r => (r.1, { s with buffers := s.buffers.set b (some r.2) })
  | none => .error .nullPointer

/-- The bits that one call draws. -/
def draw : ClusterTxn (ℕ → Bool) := fun s =>
  .ok (s.choices 0, { s with choices := fun i => s.choices (i + 1) })

/-- `PageTree.add`. -/
def addPage (b : Ptr) (value : Page) : ClusterTxn Unit := do
  let coin ← draw
  onBuffer b fun t => t.add PageTreeNode.equals coin value

/-- A new buffer. -/
def newBuffer : ClusterTxn Ptr := fun s =>
  .ok (s.buffers.next, { s with buffers := s.buffers.alloc PageTree.create })

/-- A task is added to the queue, if there is one. -/
def enqueue (task : SplitTask) : ClusterTxn (Option ℕ) := fun s =>
  match s.queue with
  | some tasks => .ok (some tasks.length, { s with queue := some (tasks ++ [task]) })
  | none => .ok (none, s)

end ClusterStore

open ClusterStore

namespace ClassificationTreeNode

/-- `find` (lines 61–76). A child that is missing is an exception, too. -/
def find : ℕ → ClassificationTreeNode → KeyValue → ClusterTxn (Option Ptr)
  | 0, _, _ => throw stackOverflow
  | fuel + 1, n, value =>
    match n.rule with
    | some rule =>
      match n.child (rule.eval value) <|> n.exception with
      | some ptr => do
        let found ← find fuel (← onNodes (read ptr)) value
        return found <|> some ptr
      | none => throw .noneGet
    | none => return none

/-- `autosplit` (lines 225–245). -/
def autosplit (strategy : ClassificationStrategy) (n : ClassificationTreeNode) (b : Ptr)
    (self root : Ptr) (maxSplitDepth : ℤ) : ClusterTxn ℕ :=
  if n.splitTask.isNone ∧ 0 < maxSplitDepth then do
    let coin ← draw
    let split ← onBuffer b fun t => (strategy.split t coin).map fun r => (r, t)
    if split then do
      let locked ← draw
      if locked 0 then do
        let task ← enqueue ⟨self, root, maxSplitDepth⟩
        match task with
        | some task => do
          writeNode self { n with splitTask := some task }
          return 0
        | none => return 0
      else return 0
    else return 0
  else return 0

/-- `insert` (lines 253–275). -/
def insert (n : ClassificationTreeNode) (addTo : Page → Ptr → ClusterTxn ℕ)
    (results : Branch → Except Failure (Option Page)) : ClusterTxn ℕ :=
  match n.pass, n.fail, n.exception with
  | some pass, some fail, some exception => do
    let counts ← [(Branch.pass, pass), (.fail, fail), (.exception, exception)].mapM fun c => do
      match ← (results c.1 : Except Failure (Option Page)) with
      | some page => addTo page c.2
      | none => return 0
    return counts.sum
  | _, _, _ => throw Page.requirementFailed

/-- `route` (lines 247–251). -/
def route (n : ClassificationTreeNode) (addTo : Page → Ptr → ClusterTxn ℕ) (value : Page) :
    ClusterTxn ℕ :=
  match n.rule with
  | some rule => n.insert addTo (rule.split value)
  | none => throw .noneGet

/-- `add` (lines 78–86). -/
def add (strategy : ClassificationStrategy) (root : Ptr) (maxSplitDepth : ℤ) :
    ℕ → ClassificationTreeNode → Page → Ptr → ClusterTxn ℕ
  | 0, _, _, _ => throw stackOverflow
  | fuel + 1, n, value, self =>
    match n.itemBuffer with
    | some b => do
      addPage b value
      n.autosplit strategy b self root maxSplitDepth
    | none =>
      n.route (fun page ptr => do
        add strategy root maxSplitDepth fuel (← onNodes (read ptr)) page ptr) value

end ClassificationTreeNode

/-- `case class ClassificationTreeData` (`ClassificationTree.scala`, lines 101–118). -/
structure ClassificationTreeData where
  root : Ptr
  strategy : ClassificationStrategy

namespace ClassificationTreeData

/-- `find` (lines 108–109). -/
def find (fuel : ℕ) (tree : ClassificationTreeData) (value : KeyValue) : ClusterTxn Ptr := do
  let found ← (← onNodes (read tree.root)).find fuel value
  return found.getD tree.root

/-- `add` (lines 111–113). -/
def add (fuel : ℕ) (tree : ClassificationTreeData) (value : Page) : ClusterTxn Unit := do
  let _ ← (← onNodes (read tree.root)).add tree.strategy tree.root 1 fuel value tree.root

end ClassificationTreeData

end ReSTM
