import ReSTM.Collection.Nodes
import ReSTM.Common.HeapChain
import ReSTM.Common.WP

/-!
# `LinkedList`

Model of `LinkedList`, `SimpleLinkedListHead` and `SimpleLinkedListNode`
(`stm/collection/LinkedList.scala`). Values come in at the `head` and go out at the `tail`: the
node at the tail is the oldest one, and `next` leads from it to the head. The header is stored
under `rootPtr`, every node under a pointer of its own. Values are not `null`.

* `LinkedList.Represents`: the values of a list, oldest first.
* `add_spec`, `remove_spec`, `stream_spec`: a queue; no `require` fails.
-/

namespace ReSTM

open HeapModel WP

/-- `case class SimpleLinkedListNode` (lines 192–197). -/
structure SimpleLinkedListNode (T : Type) where
  value : T
  next : Option Ptr := none
  prev : Option Ptr := none
deriving DecidableEq

/-- `case class SimpleLinkedListHead` (lines 140–144). -/
structure SimpleLinkedListHead where
  head : Option Ptr := none
  tail : Option Ptr := none
deriving DecidableEq

/-- What is stored of a list: the value of `rootPtr`, if it has one, and the nodes. -/
structure LinkedList (T : Type) where
  root : Option SimpleLinkedListHead := none
  nodes : Heap (SimpleLinkedListNode T) := {}
deriving DecidableEq

variable {T : Type}

instance : ChainNode (SimpleLinkedListNode T) T where
  val n := n.value
  next n := n.next
  prev n := n.prev

/-- A transaction on a list. -/
abbrev ListTxn (T α : Type) : Type := StateT (LinkedList T) (Except Failure) α

namespace LinkedList

/-- A transaction on the nodes. -/
def onNodes {α : Type} (x : NodeTxn (SimpleLinkedListNode T) α) : ListTxn T α := fun l => do
  let (a, nodes) ← x l.nodes
  return (a, { l with nodes := nodes })

/-- `rootPtr.write(value)`. -/
def writeRoot (value : SimpleLinkedListHead) : ListTxn T Unit := fun l =>
  .ok ((), if l.root = some value then l else { l with root := some value })

/-- `require(requirement, message)`. -/
def require (requirement : Bool) (failure : Failure) : ListTxn T Unit :=
  if requirement then return else throw failure

/-- `require(requirement)`. -/
def requirementFailed : Failure := .illegalArgument "requirement failed"

end LinkedList

namespace SimpleLinkedListNode

variable [BEq T]

/-- `equals` (lines 203–206). -/
def equals (n x : SimpleLinkedListNode T) : Bool :=
  n.value == x.value && n.next == x.next && n.prev == x.prev

end SimpleLinkedListNode

namespace SimpleLinkedListHead

open LinkedList Nodes

variable [BEq T]

/-- `add` (lines 147–165). -/
def add (l : SimpleLinkedListHead) (newValue : T) : ListTxn T Unit :=
  match l.head with
  | some nodePtr => do
    let currentValue ← onNodes (read nodePtr)
    require currentValue.next.isNone requirementFailed
    let newPtr ← onNodes (dynamic { value := newValue, prev := some nodePtr })
    onNodes (write SimpleLinkedListNode.equals nodePtr { currentValue with next := some newPtr })
    writeRoot { l with head := some newPtr }
  | none => do
    require l.tail.isNone requirementFailed
    let newNode ← onNodes (dynamic { value := newValue })
    writeRoot { l with head := some newNode, tail := some newNode }

/-- `remove` (lines 167–189). -/
def remove (l : SimpleLinkedListHead) : ListTxn T (Option T) :=
  match l.tail with
  | some tailPtr => do
    let tailValue ← onNodes (read tailPtr)
    require tailValue.prev.isNone requirementFailed
    match tailValue.next with
    | some nextPtr => do
      let nextValue ← onNodes (read nextPtr)
      require (nextValue.prev = l.tail) requirementFailed
      onNodes (write SimpleLinkedListNode.equals nextPtr { nextValue with prev := none })
      writeRoot { l with tail := some nextPtr }
      return some tailValue.value
    | none => do
      require (l.tail = l.head) (Failure.require "List header seems to be corrupt")
      writeRoot { l with tail := none, head := none }
      return some tailValue.value
  | none => do
    require l.head.isNone requirementFailed
    return none

end SimpleLinkedListHead

namespace LinkedList

/-- `create` (lines 32–33). -/
def create : LinkedList T := { root := some {} }

/-- The values along the links from a pointer. A chain without an end gives a stream without an
    end. -/
def streamFrom (h : Heap (SimpleLinkedListNode T)) : ℕ → Option Ptr → Except Failure (List T)
  | _, none => return []
  | 0, some _ => throw Nodes.stackOverflow
  | fuel + 1, some p =>
    match h.get p with
    | some node => do return node.value :: (← streamFrom h fuel node.next)
    | none => return []

/-- `stream` (lines 53–63). -/
def stream (l : LinkedList T) : Except Failure (List T) :=
  streamFrom l.nodes l.nodes.next (l.root.bind (·.tail))

/-- `size` (lines 49–51). -/
def size (l : LinkedList T) : Except Failure ℕ := (l.stream).map List.length

section

variable [BEq T]

/-- `add` (lines 65–67). -/
def add (value : T) : ListTxn T Unit := fun l => (l.root.getD {}).add value l

/-- `remove` (lines 69–71). -/
def remove : ListTxn T (Option T) := fun l =>
  match l.root with
  | some head => head.remove l
  | none => .ok (none, l)

end

/-! ## The values of a list -/

/-- The values of the list, oldest first. -/
def Represents (l : LinkedList T) (xs : List T) : Prop :=
  ∃ c : List (Ptr × T), c.map Prod.snd = xs ∧ (c.map Prod.fst).Nodup ∧ Chain l.nodes none c ∧
    l.root.getD {} = { head := last c, tail := first c }

variable {l : LinkedList T} {xs : List T} {x : T}

theorem represents_create : Represents (create : LinkedList T) [] :=
  ⟨[], rfl, List.nodup_nil, trivial, rfl⟩

theorem streamFrom_chain {h : Heap (SimpleLinkedListNode T)} {before : Option Ptr}
    {c : List (Ptr × T)} {fuel : ℕ} (hc : Chain h before c) (hfuel : c.length ≤ fuel) :
    streamFrom h fuel (first c) = .ok (c.map Prod.snd) := by
  induction c generalizing before fuel with
  | nil => cases fuel <;> rfl
  | cons b c ih =>
    obtain ⟨⟨n, hget, hval, hnext, -⟩, hl⟩ := hc
    rw [List.length_cons] at hfuel
    obtain ⟨fuel, rfl⟩ : ∃ f, fuel = f + 1 := ⟨fuel - 1, by omega⟩
    show streamFrom h (fuel + 1) (some b.1) = _
    rw [streamFrom, hget]
    show (streamFrom h fuel (ChainNode.next n) >>= _) = _
    rw [hnext, ih hl (by omega)]
    show Except.ok (ChainNode.val n :: _) = _
    rw [hval]
    rfl

/-- `stream` lists the values. -/
theorem stream_spec (hl : Represents l xs) : l.stream = .ok xs := by
  obtain ⟨c, rfl, hnodup, hc, hroot⟩ := hl
  have htail : l.root.bind (·.tail) = first c := by
    cases hr : l.root with
    | none =>
      rw [hr] at hroot
      exact congrArg SimpleLinkedListHead.tail hroot
    | some head =>
      rw [hr] at hroot
      exact congrArg SimpleLinkedListHead.tail hroot
  rw [stream, htail]
  exact streamFrom_chain hc (hc.length_le hnodup)

/-- The header after `writeRoot`. -/
theorem writeRoot_apply (value : SimpleLinkedListHead) (l : LinkedList T) :
    writeRoot value l = .ok ((), { l with root := some value }) := by
  unfold writeRoot
  split_ifs with hroot
  · rw [← hroot]
  · rfl

theorem require_true {requirement : Bool} {failure : Failure} (h : requirement = true) :
    require requirement failure l = .ok ((), l) := by
  rw [require, if_pos h]
  rfl

theorem onNodes_ok {α : Type} {x : NodeTxn (SimpleLinkedListNode T) α} {a : α}
    {h : Heap (SimpleLinkedListNode T)} (hx : x l.nodes = .ok (a, h)) :
    onNodes x l = .ok (a, { l with nodes := h }) := by
  show (x l.nodes >>= _) = _
  rw [hx]
  rfl

variable [BEq T]

/-- `add` puts a value behind the others. -/
theorem add_spec (hl : Represents l xs) (v : T) :
    ∃ l', l.add v = .ok ((), l') ∧ Represents l' (xs ++ [v]) := by
  obtain ⟨c, rfl, hnodup, hc, hroot⟩ := hl
  show ∃ l', (l.root.getD {}).add v l = _ ∧ _
  rw [hroot, SimpleLinkedListHead.add]
  rcases List.eq_nil_or_concat c with rfl | ⟨c, ⟨p, x⟩, rfl⟩
  · refine ⟨_, (bind_ok (require_true rfl)).trans ((bind_ok (onNodes_ok rfl)).trans
      (writeRoot_apply _ _)), [(l.nodes.next, v)], rfl, List.nodup_singleton _, ?_, rfl⟩
    exact ⟨⟨_, Heap.get_alloc_self, rfl, rfl, rfl⟩, trivial⟩
  · rw [List.concat_eq_append] at hnodup hc ⊢
    obtain ⟨n, hget, hval, hnext⟩ := hc.get_last
    have hlt := Heap.lt_next hget
    rw [last_snoc]
    -- the link to the new node is not there before
    let h₁ := l.nodes.alloc { value := v, prev := some p }
    have hget₁ : h₁.get p = some n := (Heap.get_alloc_of_lt hlt).trans hget
    let m : SimpleLinkedListNode T := { n with next := some l.nodes.next }
    have hp : (h₁.write SimpleLinkedListNode.equals p m).get p = some m := by
      have hne : SimpleLinkedListNode.equals m n = false := by
        have : n.next = none := hnext
        simp [SimpleLinkedListNode.equals, m, this]
      rw [Heap.get_write_self hget₁, hne]
      rfl
    have hq : (h₁.write SimpleLinkedListNode.equals p m).get l.nodes.next =
        some { value := v, prev := some p } := by
      rw [Heap.get_write_of_ne hlt.ne']
      exact Heap.get_alloc_self
    have hread : onNodes (Nodes.read p) l = .ok (n, l) := onNodes_ok (Nodes.read_some hget)
    refine ⟨_, (bind_ok hread).trans ((bind_ok (require_true ?_)).trans
      ((bind_ok (onNodes_ok rfl)).trans ((bind_ok (onNodes_ok rfl)).trans (writeRoot_apply _ _)))),
      c ++ [(p, x), (l.nodes.next, v)], by simp, ?_, ?_, ?_⟩
    · show n.next.isNone = true
      rw [show n.next = none from hnext]
      rfl
    · rw [List.append_cons, List.map_append, List.nodup_append']
      refine ⟨hnodup, List.nodup_singleton _, fun a ha hmem => ?_⟩
      obtain ⟨b, hb, rfl⟩ := List.mem_map.mp ha
      have heq : b.1 = l.nodes.next := List.mem_singleton.mp hmem
      exact absurd (hc.lt_next b hb) (heq ▸ Nat.lt_irrefl _)
    · refine hc.snoc hnodup hget hp hq rfl rfl rfl rfl rfl rfl fun a hlt ha => ?_
      rw [Heap.get_write_of_ne ha, Heap.get_alloc_of_lt hlt]
    · have hlast : last (c ++ [(p, x), (l.nodes.next, v)]) = some l.nodes.next := by
        rw [List.append_cons]
        exact last_snoc _ _ _
      rw [hlast]
      cases c <;> rfl

/-- `remove` of an empty list changes nothing. -/
theorem remove_spec_nil (hl : Represents l []) : l.remove = .ok (none, l) := by
  obtain ⟨c, hc, -, -, hroot⟩ := hl
  obtain rfl : c = [] := List.map_eq_nil_iff.mp hc
  unfold remove
  cases hr : l.root with
  | none => rfl
  | some head =>
    rw [hr] at hroot
    obtain rfl : head = {} := hroot
    exact (bind_ok (require_true rfl)).trans rfl

/-- `remove` takes the oldest value. -/
theorem remove_spec (hl : Represents l (x :: xs)) :
    ∃ l', l.remove = .ok (some x, l') ∧ Represents l' xs := by
  obtain ⟨c, hmap, hnodup, hc, hroot⟩ := hl
  obtain ⟨⟨p, x⟩, c, rfl, rfl, rfl⟩ := List.map_eq_cons_iff.mp hmap
  have hr : l.root = some { head := last ((p, x) :: c), tail := some p } := by
    cases hr : l.root with
    | none =>
      rw [hr] at hroot
      cases congrArg SimpleLinkedListHead.tail hroot
    | some head =>
      rw [hr] at hroot
      exact congrArg some hroot
  unfold remove
  rw [hr]
  show ∃ l', SimpleLinkedListHead.remove _ l = _ ∧ _
  rw [SimpleLinkedListHead.remove]
  have hnodup' := (List.nodup_cons.mp hnodup).2
  obtain ⟨⟨n, hget, hval, hnext, hprev⟩, hcs⟩ := id hc
  have hval' : n.value = x := hval
  have hread : onNodes (Nodes.read p) l = .ok (n, l) := onNodes_ok (Nodes.read_some hget)
  have hreq : n.prev.isNone = true := by
    rw [show n.prev = none from hprev]
    rfl
  cases c with
  | nil =>
    -- the only node
    have hnone : n.next = none := hnext
    refine ⟨{ l with root := some {} }, (bind_ok hread).trans
      ((bind_ok (require_true hreq)).trans ?_), [], rfl, List.nodup_nil, trivial, ?_⟩
    · rw [hnone, hval']
      exact (bind_ok (require_true (decide_eq_true rfl))).trans (bind_ok (writeRoot_apply _ _))
    · rfl
  | cons b c =>
    obtain ⟨q, y⟩ := b
    obtain ⟨⟨m, hget', hval₂, hnext₂, hprev₂⟩, -⟩ := hcs
    have hsome : n.next = some q := hnext
    have hread' : onNodes (Nodes.read q) l = .ok (m, l) := onNodes_ok (Nodes.read_some hget')
    have hprev' : m.prev = some p := hprev₂
    have hq : (l.nodes.write SimpleLinkedListNode.equals q { m with prev := none }).get q =
        some { m with prev := none } := by
      have hne : SimpleLinkedListNode.equals { m with prev := none } m = false := by
        simp [SimpleLinkedListNode.equals, hprev']
      rw [Heap.get_write_self hget', hne]
      rfl
    let nodes := l.nodes.write SimpleLinkedListNode.equals q { m with prev := none }
    let root : SimpleLinkedListHead := { head := last ((p, x) :: (q, y) :: c), tail := some q }
    have hc' : Chain nodes none ((q, y) :: c) :=
      hc.tail hnodup' hget' hq rfl rfl rfl fun a _ ha => Heap.get_write_of_ne ha
    refine ⟨{ root := some root, nodes := nodes }, (bind_ok hread).trans
      ((bind_ok (require_true hreq)).trans ?_), (q, y) :: c, rfl, hnodup', hc', ?_⟩
    · rw [hsome, hval']
      exact (bind_ok hread').trans ((bind_ok (require_true (by simp [hprev']))).trans
        ((bind_ok (onNodes_ok rfl)).trans (bind_ok (writeRoot_apply _ _))))
    · rfl

end LinkedList

end ReSTM
