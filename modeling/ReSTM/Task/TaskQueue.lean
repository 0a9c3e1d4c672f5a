import ReSTM.Collection.LinkedList
import ReSTM.Collection.ScalarArray
import ReSTM.Collection.TreeSet

/-!
# `TaskQueue`

Model of `TaskQueue` and `MultiQueueData` (`stm/task/TaskQueue.scala`): items are in several
linked lists, their number is in a `ScalarArray`, and their ids are in a `TreeSet`. An operation
is one transaction, which tries the lists and the counters in a random order and skips those that
it cannot lock. When it fails it has changed nothing.

`Chance` is what a transaction draws at random and which locks it gets.
-/

namespace ReSTM

open HeapModel

/-- `trait Identifiable` (lines 35–37), with ids that `compareTo` orders. -/
class Identifiable (T : Type) (K : outParam Type) where
  id : T → K

/-- The random numbers that a transaction draws for the lists and the counters, and which of them
    it can lock. -/
structure Chance where
  queueDraws : ℕ → ℚ
  queueLocked : ℕ → Bool
  counterDraws : ℕ → ℚ
  counterLocked : Ptr → Bool

/-- `case class MultiQueueData` (lines 74–79). -/
structure MultiQueueData (T K : Type) where
  size : ScalarArray
  index : TreeSet K
  queues : List (LinkedList T) := []
deriving DecidableEq

/-- What is stored of a queue: the value of `rootPtr`, if it has one. -/
structure TaskQueue (T K : Type) where
  root : Option (MultiQueueData T K) := none
deriving DecidableEq

variable {T K : Type}

namespace MultiQueueData

/-- `createInnerData` (lines 64–72). -/
def createInnerData (size : ℤ) : MultiQueueData T K where
  size := .create size
  index := {}
  queues := List.replicate size.toNat .create

/-- `grow` (lines 133–135). -/
def grow (m : MultiQueueData T K) : MultiQueueData T K := { m with queues := m.queues ++ [.create] }

/-- `shuffledLists` (lines 81 and 106), as positions in `queues`. -/
def shuffledLists (m : MultiQueueData T K) (c : Chance) : List (Fin m.queues.length) :=
  shuffle c.queueDraws (List.finRange m.queues.length)

variable [BEq T]

/-- The inner `add` (lines 83–95). -/
def addFirst (locked : ℕ → Bool) (value : T) (queues : List (LinkedList T)) :
    List (Fin queues.length) → Except Failure (List (LinkedList T))
  | [] => throw (.transactionConflict "Could not lock any queue" none)
  | head :: tail =>
    if locked head then do
      let (_, list) ← (queues.get head).add value
      return queues.set head list
    else addFirst locked value queues tail

/-- `add` (lines 80–98). -/
def add (m : MultiQueueData T K) (c : Chance) (value : T) :
    Except Failure (MultiQueueData T K) := do
  let queues ← addFirst c.queueLocked value m.queues (m.shuffledLists c)
  return { m with queues := queues }

/-- The inner `take` (lines 108–128). A list without a value is left as it is. -/
def takeFirst (locked : ℕ → Bool) (minEmpty : ℤ) (queues : List (LinkedList T)) :
    List (Fin queues.length) → ℤ → Except Failure (Option T × List (LinkedList T))
  | [], _ =>
    throw (.transactionConflict ("Could not confirm emptiness of " ++ toString minEmpty) none)
  | head :: tail, _minEmpty =>
    if locked head then do
      let (opt, list) ← (queues.get head).remove
      match opt with
      | some x => return (some x, queues.set head list)
      | none =>
        if _minEmpty ≤ 1 then return (none, queues)
        else takeFirst locked minEmpty queues tail (_minEmpty - 1)
    else takeFirst locked minEmpty queues tail _minEmpty

/-- `take(self, minEmpty)` (lines 104–131). -/
def takeMin (m : MultiQueueData T K) (c : Chance) (minEmpty : ℤ) :
    Except Failure (Option T × MultiQueueData T K) := do
  if (m.queues.length : ℤ) < minEmpty then throw (.illegalArgument "requirement failed")
  let (opt, queues) ← takeFirst c.queueLocked minEmpty m.queues (m.shuffledLists c) minEmpty
  return (opt, { m with queues := queues })

/-- `take(self)` (lines 100–102). -/
def take (m : MultiQueueData T K) (c : Chance) : Except Failure (Option T × MultiQueueData T K) :=
  m.takeMin c m.queues.length

end MultiQueueData

namespace TaskQueue

/-- `create` (lines 60–62). -/
def create (size : ℤ) : TaskQueue T K := { root := some (.createInnerData size) }

/-- `getInner` (lines 199–202). What it creates is written to `rootPtr`. -/
def getInner (q : TaskQueue T K) : MultiQueueData T K := q.root.getD (.createInnerData 8)

/-- `grow` (lines 187–191). -/
def grow (q : TaskQueue T K) : TaskQueue T K := { root := some q.getInner.grow }

/-- `size` (lines 193–197). -/
def size (q : TaskQueue T K) : ℤ × TaskQueue T K :=
  (q.getInner.size.get, { root := some q.getInner })

/-- `stream` (lines 210–221). -/
def stream (q : TaskQueue T K) : Except Failure (List T) :=
  match q.root with
  | some inner => do
    let subStreams ← inner.queues.mapM LinkedList.stream
    return subStreams.flatten
  | none => return []

variable [LinearOrder K]

/-- `contains` (lines 204–208). -/
def contains (q : TaskQueue T K) (id : K) : Except Failure (Bool × TaskQueue T K) := do
  let found ← q.getInner.index.contains id
  return (found, { root := some q.getInner })

variable [BEq T] [Identifiable T K]

/-- `add` (lines 152–159). -/
def add (q : TaskQueue T K) (c : Chance) (value : T) : Except Failure (TaskQueue T K) := do
  let inner ← q.getInner.add c value
  let size ← inner.size.add c.counterDraws c.counterLocked 1
  let index ← inner.index.add (Identifiable.id value)
  return { root := some { inner with size := size, index := index } }

/-- `take(minEmpty)` (lines 161–173). -/
def takeMin (q : TaskQueue T K) (c : Chance) (minEmpty : ℤ) :
    Except Failure (Option T × TaskQueue T K) := do
  let (x, inner) ← q.getInner.takeMin c minEmpty
  match x with
  | some value => do
    let size ← inner.size.add c.counterDraws c.counterLocked (-1)
    let (_, index) ← inner.index.remove (Identifiable.id value)
    return (x, { root := some { inner with size := size, index := index } })
  | none => return (x, { root := some inner })

/-- `take` (lines 175–185): the removal from the index is required to succeed. -/
def take (q : TaskQueue T K) (c : Chance) : Except Failure (Option T × TaskQueue T K) := do
  let (x, inner) ← q.getInner.take c
  match x with
  | some value => do
    let size ← inner.size.add c.counterDraws c.counterLocked (-1)
    let (removed, index) ← inner.index.remove (Identifiable.id value)
    if !removed then throw (.illegalArgument "requirement failed")
    return (x, { root := some { inner with size := size, index := index } })
  | none => return (x, { root := some inner })

end TaskQueue

end ReSTM
