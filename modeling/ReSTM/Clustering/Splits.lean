import ReSTM.Clustering.Conservation
import ReSTM.Common.Transition

/-!
# Splits among other transactions

Model of `ClassificationTreeNode.split` (`stm/clustering/ClassificationTreeNode.scala`, lines
457–634) while items are added and other splits run. A step is one transaction of one of them, or
what a split computes between two transactions, and any number of splits may be on their way at any
nodes. A split empties a buffer before it routes anything, since `pageAccumulator.last` (line 544)
needs all pages, and then starts a job for each part of a block (`NodeAtomicApi.insert`, lines
322–343). The jobs run in any order. A step that fails changes nothing, and its split goes no
further: only a conflict is tried again (`STMTxn.txnRun`), and a step is a transaction that had none.
`added` has the items of all pages that were added.

* `ClusterWorld.step`: one step.

The last pass starts the routes of all its blocks at once, in one transaction. Two blocks that have
rows for the same child then race for the trees of its buffer: both may find a node of them as it
was before, and what one of them has added is lost. Such a split goes into the phase `raced`, and
what its pass leaves is not followed. Blocks for different children have nothing in common but the
work queue to which `autosplit` adds, and no item depends on what is in there.

What a split does without a rule, `keepItems`, and what is left of it if it finds its node half
split, are not followed: such a split stays in the phase `unsplit`.
-/

namespace ReSTM

open HeapModel Nodes Page ClusterStore

/-- Where a split is. `first` is the buffer that was taken aside, and `moved` counts the rows that
    were routed in earlier rounds. -/
inductive SplitPhase
  | getTreeDepth
  | firstBuffer (depth : ℕ)
  | sizing (first : Ptr) (depth : ℕ)
  | getRule (first : Ptr) (depth : ℕ)
  | createChildren (first : Ptr) (newRule : RuleData)
  | update (first : Ptr) (newRule : RuleData) (pass fail exception : Ptr)
  | currentData (pageTree : Ptr) (moved : ℕ)
  | draining (pageTree : Ptr) (node : ClassificationTreeNode) (pages : List Page) (moved : ℕ)
  | routing (node : ClassificationTreeNode) (batches : List (List Page)) (jobs : List (Page × Ptr))
      (rows moved : ℕ)
  | transferBuffers (moved : ℕ)
  | transferLast (moved : ℕ)
  | raced (moved : ℕ)
  | closing (result : ℕ)
  | checking (children : List (Option Ptr)) (result : ℕ)
  | unsplit (first : Option Ptr)
  | done (result : ℕ)

/-- The split has come to its end. -/
def SplitPhase.isDone : SplitPhase → Bool
  | .done _ => true
  | _ => false

/-- `split(self, root, strategy, maxSplitDepth)` on its way. -/
structure Split where
  self : Ptr
  root : Ptr
  strategy : ClassificationStrategy
  maxSplitDepth : ℤ
  phase : SplitPhase := .getTreeDepth
  failed : Bool := false

/-- A tree, the splits that were started, and the items that were added. -/
structure ClusterWorld where
  store : ClusterStore
  tree : ClassificationTreeData
  splits : List Split := []
  added : Multiset Item := 0

inductive ClusterAction
  | addAll (data : List LabeledItem)
  | setClusterStrategy (strategy : ClassificationStrategy)
  | split (self : Ptr) (strategy : ClassificationStrategy) (maxSplitDepth : ℤ)
  | advance (i : ℕ)
  | job (i j : ℕ)

namespace ClassificationTreeNode

/-- `createChildren` (lines 636–646). -/
def createChildren (self : Ptr) : ClusterTxn (Ptr × Ptr × Ptr) := do
  let pass ← newChild self
  let fail ← newChild self
  let exception ← newChild self
  return (pass, fail, exception)

/-- `self.atomic.update(…)` (lines 517–522). -/
def setRule (self : Ptr) (newRule : RuleData) (pass fail exception : Ptr) : ClusterTxn Unit := do
  let node ← onNodes (read self)
  writeNode self { node with
    rule := some newRule
    pass := some pass
    fail := some fail
    exception := some exception }

/-- `route` and `insert` of `NodeAtomicApi` (lines 317–343): the parts of a block, each with the
    child that it is added to. -/
def routePage (n : ClassificationTreeNode) (block : Page) : Except Failure (List (Page × Ptr)) :=
  match n.rule with
  | some rule =>
    match n.pass, n.fail, n.exception with
    | some pass, some fail, some exception => do
      let results ← [(Branch.pass, pass), (.fail, fail), (.exception, exception)].mapM fun c =>
        (rule.split block c.1).map (Option.map (·, c.2))
      return results.reduceOption
    | _, _, _ => throw requirementFailed
  | none => throw .noneGet

/-- The parts of all blocks of the last pass (lines 569–587), each with the child that it is added
    to. -/
def lastParts (fuel : ℕ) (self : Ptr) : ClusterTxn (List (Page × Ptr)) := do
  let node ← onNodes (read self)
  let pages ← match node.itemBuffer with
    | some b => drain b fuel
    | none => pure []
  let parts ← (batches pages).mapM fun batch => do
    let block ← (Page.union batch : Except Failure Page)
    (node.routePage block : Except Failure (List (Page × Ptr)))
  return parts.flatten

/-- Two blocks of the last pass have rows for the same child. -/
def races (fuel : ℕ) (self : Ptr) (s : ClusterStore) : Bool :=
  match lastParts fuel self s with
  | .ok (parts, _) => !(decide (parts.map Prod.snd).Nodup)
  | .error _ => false

end ClassificationTreeNode

open ClassificationTreeNode (setRule requireItems)

namespace Split

/-- What a split does next. -/
def advance (fuel : ℕ) (t : Split) : ClusterTxn SplitPhase :=
  match t.phase with
  | .getTreeDepth => do
    let node ← onNodes (read t.self)
    return .firstBuffer (← node.getTreeDepth fuel t.self t.root)
  | .firstBuffer depth => do
    match ← ClassificationTreeNode.firstBuffer t.self with
    | some first => return .sizing first depth
    | none => return .closing 0
  | .sizing first depth => do
    require (0 < (← bufferSize first))
    return .getRule first depth
  | .getRule first depth => do
    match ← onBuffer first fun b => (t.strategy.getRule b depth).map fun rule => (rule, b) with
    | some newRule => return .createChildren first newRule
    | none => return .unsplit (some first)
  | .createChildren first newRule => do
    let (pass, fail, exception) ← ClassificationTreeNode.createChildren t.self
    return .update first newRule pass fail exception
  | .update first newRule pass fail exception => do
    setRule t.self newRule pass fail exception
    return .currentData first 0
  | .currentData pageTree moved => do
    return .draining pageTree (← onNodes (read t.self)) [] moved
  | .draining pageTree node pages moved => do
    match ← takePage pageTree with
    | some page => return .draining pageTree node (pages ++ [page]) moved
    | none => return .routing node (batches pages) [] 0 moved
  | .routing node (batch :: rest) jobs rows moved => do
    let block ← (Page.union batch : Except Failure Page)
    let parts ← (node.routePage block : Except Failure (List (Page × Ptr)))
    return .routing node rest (jobs ++ parts) (rows + block.size) moved
  | .routing _ [] [] rows moved =>
    if rows > 10 then return .transferBuffers (moved + rows)
    else return .transferLast (moved + rows)
  | .transferBuffers moved => do
    return .currentData (← ClassificationTreeNode.transferBuffers t.self) moved
  | .transferLast moved => do
    if ClassificationTreeNode.races fuel t.self (← get) then return .raced moved
    else do
      let rows ← ClassificationTreeNode.transferLast t.strategy t.root t.maxSplitDepth fuel t.self
      return .closing (moved + rows)
  | .closing result => do
    let node ← onNodes (read t.self)
    if node.rule.isSome then do
      require node.itemBuffer.isNone
      return .checking [node.pass, node.fail] result
    else return .unsplit none
  | .checking (child :: rest) result => do
    requireItems child
    return .checking rest result
  | .checking [] result => return .done result
  | .routing _ [] (_ :: _) _ _ | .raced _ | .unsplit _ | .done _ => return t.phase

/-- The `j`-th job runs, in a transaction of its own. -/
def runJob (fuel j : ℕ) (t : Split) : ClusterTxn SplitPhase :=
  match t.phase with
  | .routing node batches jobs rows moved =>
    match jobs[j]? with
    | some (page, ptr) => do
      let child ← onNodes (read ptr)
      let _ ← child.add t.strategy t.root (t.maxSplitDepth - 1) fuel page ptr
      return .routing node batches (jobs.eraseIdx j) rows moved
    | none => return t.phase
  | _ => return t.phase

end Split

namespace ClusterWorld

/-- `newClassificationTreeData` (`ClassificationTree.scala`, lines 95–97), with a strategy. -/
def create (strategy : ClassificationStrategy) (queue : Option (List SplitTask))
    (choices : ℕ → ℕ → Bool) : ClusterWorld where
  store :=
    { nodes := ⟨[some { parent := none, itemBuffer := some 0 }]⟩
      buffers := ⟨[some PageTree.create]⟩
      queue := queue
      choices := choices }
  tree := ⟨0, strategy⟩

/-- The `i`-th split goes on as `t`. -/
def proceed (w : ClusterWorld) (i : ℕ) (t : Split) (store : ClusterStore) : ClusterWorld :=
  { w with store := store, splits := w.splits.set i t }

/-- The `i`-th split does something. -/
def onSplit (w : ClusterWorld) (i : ℕ) (f : Split → ClusterTxn SplitPhase) : ClusterWorld :=
  match w.splits[i]? with
  | some t =>
    match f t w.store with
    | .ok (phase, store) => w.proceed i { t with phase := phase } store
    | .error _ => w.proceed i { t with failed := true } w.store
  | none => w

/-- One step. `addAll` is `ClassificationTree.addAll` (lines 147–152) of a tree that has its
    data. -/
def step (fuel : ℕ) (w : ClusterWorld) : ClusterAction → ClusterWorld
  | .addAll data =>
    match Page.apply data with
    | .ok page =>
      match w.tree.add fuel page w.store with
      | .ok (_, store) => { w with store := store, added := page.items + w.added }
      | .error _ => w
    | .error _ => w
  | .setClusterStrategy strategy => { w with tree := { w.tree with strategy := strategy } }
  | .split self strategy maxSplitDepth =>
    { w with splits := w.splits ++ [⟨self, w.tree.root, strategy, maxSplitDepth,
      .getTreeDepth, false⟩] }
  | .advance i => w.onSplit i fun t => if t.failed then return t.phase else t.advance fuel
  | .job i j => w.onSplit i (·.runJob fuel j)

end ClusterWorld

end ReSTM
