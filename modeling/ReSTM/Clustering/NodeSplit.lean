import ReSTM.Clustering.PageStream
import ReSTM.Clustering.PageUnion
import ReSTM.Clustering.Routing

/-!
# The split of a classification node

Model of `ClassificationTreeNode.split` (`stm/clustering/ClassificationTreeNode.scala`, lines
457–648), without other transactions in between. Each of its transactions is a step of its own, and
those that it starts together are run one after the other, in their order. The last pass starts its
routes together in one transaction; with nothing in between it finds no pages, and
`Splits.lean` says what becomes of several blocks there. The tasks that `autosplit` adds are not run.
`fuel` bounds the depth of a recursion, the number of pages that are read and the number of times
that the buffers are exchanged.

* `ClassificationTreeNode.split`: the split.
-/

namespace ReSTM

open HeapModel Nodes Page

namespace ClusterStore

/-- `require`. -/
def require (c : Prop) [Decidable c] : ClusterTxn Unit :=
  if c then return () else throw requirementFailed

/-- `PageTree.get`. -/
def takePage (b : Ptr) : ClusterTxn (Option Page) := do
  let coin ← draw
  onBuffer b fun t => t.get PageTreeNode.equals coin

/-- `PageTree.size`. -/
def bufferSize (b : Ptr) : ClusterTxn ℕ := onBuffer b fun t => t.size.map fun k => (k, t)

/-- `PageTree.pageStream`. -/
def bufferPages (b : Ptr) : ClusterTxn (List Page) :=
  onBuffer b fun t => t.pageStream.map fun pages => (pages, t)

/-- `Stream.continually(pageTree.get()).takeWhile(_.isDefined).map(_.get)`, read to its end. -/
def drain (b : Ptr) : ℕ → ClusterTxn (List Page)
  | 0 => throw stackOverflow
  | fuel + 1 => do
    match ← takePage b with
    | some page => do
      let rest ← drain b fuel
      return page :: rest
    | none => return []

/-- The pages are added to a buffer. -/
def addPages (b : Option Ptr) (pages : List Page) : ClusterTxn Unit :=
  pages.forM fun page =>
    match b with
    | some b => addPage b page
    | none => throw .noneGet

end ClusterStore

open ClusterStore

/-- `pageSize` (line 460). -/
def pageSize : ℕ := 128

/-- `pageAccumulator` (lines 537–543 and 573–579): what is joined, and what is still collected. -/
def pageAccumulator (pages : List Page) : List (List Page × List Page) :=
  pages.scanl (fun prev page =>
    if (prev.2.map Page.size).sum < pageSize then ([], prev.2 ++ [page]) else (prev.2, [page]))
    ([], [])

/-- The lists of pages of which the unions are routed (lines 544 and 580). -/
def batches (pages : List Page) : List (List Page) :=
  ((pageAccumulator pages).map Prod.fst ++
    [((pageAccumulator pages).getLast?.map Prod.snd).getD []]).filter fun batch => !batch.isEmpty

namespace ClassificationTreeNode

/-- `getTreeBit` (lines 302–307). -/
def getTreeBit (n : ClassificationTreeNode) (node : Ptr) : ClusterTxn ℕ :=
  if n.pass = some node then return 0
  else if n.fail = some node then return 1
  else if n.exception = some node then return 2
  else throw (.runtimeException "null")

/-- `getTreeDepth` (lines 177–189). There are fewer than `2 ^ 31` levels. -/
def getTreeDepth : ℕ → ClassificationTreeNode → Ptr → Ptr → ClusterTxn ℕ
  | 0, _, _, _ => throw stackOverflow
  | fuel + 1, n, self, root =>
    match n.parent.filter fun _ => self ≠ root with
    | some parentPtr => do
      let parentNode ← onNodes (read parentPtr)
      let parentDepth ← parentNode.getTreeDepth fuel parentPtr root
      let _bit ← parentNode.getTreeBit self
      return parentDepth + 1
    | none => return 0

/-- `newClassificationTreeNode` (`ClassificationTree.scala`, lines 44–45) under a new pointer. -/
def newChild (self : Ptr) : ClusterTxn Ptr := do
  let buffer ← newBuffer
  onNodes (dynamic { parent := some self, itemBuffer := some buffer })

/-- `firstBuffer` (lines 471–492): the items are taken aside. -/
def firstBuffer (self : Ptr) : ClusterTxn (Option Ptr) := do
  let node ← onNodes (read self)
  if node.splitBuffer.isSome then return none
  else
    match node.itemBuffer with
    | some prevRecieveBuffer => do
      let newBuffer ← newBuffer
      writeNode self
        { node with itemBuffer := some newBuffer, splitBuffer := some prevRecieveBuffer }
      return some prevRecieveBuffer
    | none => return none

/-- `transferBuffers` (lines 496–507). -/
def transferBuffers (self : Ptr) : ClusterTxn Ptr := do
  let node ← onNodes (read self)
  match node.itemBuffer with
  | some collection => do
    let newBuffer ← newBuffer
    writeNode self { node with itemBuffer := some newBuffer, splitBuffer := some collection }
    return collection
  | none => throw .noneGet

/-- `makeRule` (lines 509–527), with `createChildren` (lines 636–648). -/
def makeRule (strategy : ClassificationStrategy) (self b : Ptr) (depth : ℕ) : ClusterTxn Bool := do
  let newRule ← onBuffer b fun t => (strategy.getRule t depth).map fun rule => (rule, t)
  match newRule with
  | some newRule => do
    let pass ← newChild self
    let fail ← newChild self
    let exception ← newChild self
    let node ← onNodes (read self)
    writeNode self { node with
      rule := some newRule
      pass := some pass
      fail := some fail
      exception := some exception }
    return true
  | none => return false

section Transfer

variable (strategy : ClassificationStrategy) (root : Ptr) (maxSplitDepth : ℤ) (fuel : ℕ)

/-- The unions of the batches are routed and their rows are counted, one after another (lines
    546–549 and 583–587). -/
def routePages (node : ClassificationTreeNode) : List (List Page) → ClusterTxn ℕ
  | [] => return 0
  | batch :: rest => do
    let block ← (Page.union batch : Except Failure Page)
    let _ ← node.route (fun page ptr => do
      add strategy root (maxSplitDepth - 1) fuel (← onNodes (read ptr)) page ptr) block
    let rows ← routePages node rest
    return block.size + rows

/-- `transferAsync` (lines 533–553). -/
def transferAsync (self b : Ptr) : ClusterTxn ℕ := do
  let node ← onNodes (read self)
  let pages ← drain b fuel
  routePages strategy root maxSplitDepth fuel node (batches pages)

/-- `transferRecursive` (lines 555–563). -/
def transferRecursive (self : Ptr) : ℕ → Ptr → ClusterTxn ℕ
  | 0, _ => throw stackOverflow
  | times + 1, b => do
    let rows ← transferAsync strategy root maxSplitDepth fuel self b
    if rows > 10 then do
      let buffer ← transferBuffers self
      let rest ← transferRecursive self times buffer
      return rest + rows
    else return rows

/-- The last pass (lines 566–597). -/
def transferLast (self : Ptr) : ClusterTxn ℕ := do
  let node ← onNodes (read self)
  let pages ← match node.itemBuffer with
    | some b => drain b fuel
    | none => pure []
  let transfered ← routePages strategy root maxSplitDepth fuel node (batches pages)
  writeNode self { node with itemBuffer := none, splitBuffer := none }
  return transfered

end Transfer

/-- What is done if there is no rule (lines 599–608). -/
def keepItems (self firstBuffer : Ptr) : ClusterTxn ℕ := do
  let node ← onNodes (read self)
  require (0 < (← bufferSize firstBuffer))
  addPages node.itemBuffer (← bufferPages firstBuffer)
  match node.itemBuffer with
  | some b => do
    require (0 < (← bufferSize b))
    return 0
  | none => throw requirementFailed

/-- A child must have items (lines 614–615). -/
def requireItems (child : Option Ptr) : ClusterTxn Unit :=
  match child with
  | some ptr => do
    let node ← onNodes (read ptr)
    match node.itemBuffer with
    | some b => do require (0 < (← bufferSize b))
    | none => throw .noneGet
  | none => throw .noneGet

/-- What is done at the end (lines 610–627). -/
def afterSplit (self : Ptr) (result : ℕ) : ClusterTxn ℕ := do
  let node ← onNodes (read self)
  if node.rule.isSome then do
    require node.itemBuffer.isNone
    requireItems node.pass
    requireItems node.fail
    return result
  else
    match node.itemBuffer with
    | some b => do
      match node.splitBuffer with
      | some splitBuffer => addPages (some b) (← bufferPages splitBuffer)
      | none => pure ()
      require (0 < (← bufferSize b))
      return result
    | none => throw requirementFailed

/-- What is done with the items that were taken aside (lines 494–609). -/
def splitItems (strategy : ClassificationStrategy) (root : Ptr) (maxSplitDepth : ℤ) (fuel : ℕ)
    (self firstBuffer : Ptr) (depth : ℕ) : ClusterTxn ℕ := do
  require (0 < (← bufferSize firstBuffer))
  if ← makeRule strategy self firstBuffer depth then do
    let rowsTransfered ←
      transferRecursive strategy root maxSplitDepth fuel self fuel firstBuffer
    let phase2Transfered ← transferLast strategy root maxSplitDepth fuel self
    return rowsTransfered + phase2Transfered
  else keepItems self firstBuffer

/-- `split(self, root, strategy, maxSplitDepth)` (lines 457–634). -/
def split (strategy : ClassificationStrategy) (root : Ptr) (maxSplitDepth : ℤ) (fuel : ℕ)
    (self : Ptr) : ClusterTxn ℕ := do
  let node ← onNodes (read self)
  let depth ← node.getTreeDepth fuel self root
  match ← firstBuffer self with
  | some firstBuffer => do
    let result ← splitItems strategy root maxSplitDepth fuel self firstBuffer depth
    afterSplit self result
  | none => afterSplit self 0

end ClassificationTreeNode

end ReSTM
