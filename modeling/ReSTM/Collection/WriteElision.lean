import ReSTM.Clustering.PageTree
import ReSTM.Collection.LinkedListRuns
import ReSTM.Collection.TreeCollection
import ReSTM.Collection.TreeMapRemoval
import ReSTM.Collection.TreeSetRuns

/-!
# Writes that are skipped

`STMTxnCtx.write` skips a write when the new value equals the prior one under the `equals` of the
node's class (`stm/STMTxnCtx.scala`, lines 133–153). Here every collection has a variant of its
operations that is told which nodes are the same: with `equals` it is the code, and with
`Heap.never` it stores every value.

* `TreeSet`, `TreeCollection`, `LinkedList`, `PageTree`: it never matters what is skipped.
* `TreeMap`: it does not matter if every removal is `lossless`.
-/

namespace ReSTM

open HeapModel Refinement Transition WP

/-! ## `TreeSet` -/

variable {K T V : Type}

namespace TreeSetNode

open Nodes

section Order

variable [LinearOrder K] (same : TreeSetNode K → TreeSetNode K → Bool)

/-- `remove`, where `same` decides which writes are skipped. -/
def removeWith : ℕ → TreeSetNode K → K → Ptr → KeptTxn K Bool
  | 0, _, _, _ => throw stackOverflow
  | fuel + 1, n, newValue, self =>
    if n.value = newValue then
      match n.left with
      | some leftPtr => do
        let leftNode ← kept (read leftPtr)
        let minValue ← kept (leftNode.min fuel)
        let result ← removeWith fuel leftNode minValue leftPtr
        if result then kept (write same self { n with left := none, value := minValue })
        else kept (write same self { n with value := minValue })
        return false
      | none =>
        match n.right with
        | some rightPtr => do
          let rightNode ← kept (read rightPtr)
          let maxValue ← kept (rightNode.max fuel)
          let result ← removeWith fuel rightNode maxValue rightPtr
          if result then kept (write same self { n with right := none, value := maxValue })
          else kept (write same self { n with value := maxValue })
          return false
        | none => do
          kept (delete self)
          return true
    else if n.value < newValue then
      match n.left with
      | some leftPtr => do
        let result ← removeWith fuel (← kept (read leftPtr)) newValue leftPtr
        if result then kept (write same self { n with left := none })
        return false
      | none => throw (.noSuchElement "null")
    else
      match n.right with
      | some rightPtr => do
        let result ← removeWith fuel (← kept (read rightPtr)) newValue rightPtr
        if result then kept (write same self { n with right := none })
        return false
      | none => throw (.noSuchElement "null")

/-- `add`, where `same` decides which writes are skipped. -/
def addWith : ℕ → TreeSetNode K → K → Ptr → SetTxn K Unit
  | 0, _, _, _ => throw stackOverflow
  | fuel + 1, n, newValue, self =>
    if n.value < newValue then
      match n.left with
      | some leftPtr => do addWith fuel (← read leftPtr) newValue leftPtr
      | none => do
        let newNode ← dynamic { value := newValue }
        write same self { n with left := some newNode }
    else
      match n.right with
      | some rightPtr => do addWith fuel (← read rightPtr) newValue rightPtr
      | none => do
        let newNode ← dynamic { value := newValue }
        write same self { n with right := some newNode }

variable {same}

/-- A node that equals the prior one is the prior one. -/
theorem write_equals (p : Ptr) (n : TreeSetNode K) :
    write equals p n = write Heap.never p n := by
  funext h
  rw [write, write, Heap.write_eq_never_of_eq fun _ => equals_iff.mp]

theorem removeWith_eq (h : ∀ p n, write same p n = write equals p n) (fuel : ℕ)
    (n : TreeSetNode K) (k : K) (self : Ptr) :
    n.removeWith same fuel k self = n.removeKept fuel k self := by
  induction fuel generalizing n k self with
  | zero => rfl
  | succ fuel ih =>
    simp only [removeWith, ih, h]
    rfl

theorem addWith_eq (h : ∀ p n, write same p n = write equals p n) (fuel : ℕ)
    (n : TreeSetNode K) (k : K) (self : Ptr) :
    n.addWith same fuel k self = n.add fuel k self := by
  induction fuel generalizing n self with
  | zero => rfl
  | succ fuel ih =>
    simp only [addWith, ih, h]
    rfl

end Order

end TreeSetNode

namespace TreeSet

variable [LinearOrder K] (same : TreeSetNode K → TreeSetNode K → Bool)

/-- `add`, where `same` decides which writes are skipped. -/
def addWith (value : K) (s : TreeSet K) : Except Failure (TreeSet K) :=
  match s.nodes.get s.rootPtr with
  | some r => do
    let (_, nodes) ← r.addWith same s.fuel value s.rootPtr s.nodes
    return { s with nodes := nodes }
  | none => return { s with nodes := s.nodes.write same s.rootPtr { value := value } }

/-- `remove`, where `same` decides which writes are skipped. -/
def removeWith (value : K) (s : TreeSet K) : Except Failure (Bool × TreeSet K) :=
  match s.nodes.get s.rootPtr with
  | some r =>
    match r.removeWith same s.fuel value s.rootPtr s.nodes with
    | .ok _ nodes => .ok (true, { s with nodes := nodes })
    | .error (.noSuchElement _) nodes => .ok (false, { s with nodes := nodes })
    | .error e _ => .error e
  | none => .ok (false, s)

/-- A call, where `same` decides which writes are skipped. -/
def callWith (s : TreeSet K) : Call K → TreeSet K
  | .add value =>
    match s.addWith same value with
    | .ok s' => s'
    | .error _ => s
  | .remove value =>
    match s.removeWith same value with
    | .ok (_, s') => s'
    | .error _ => s

variable {same}

theorem callWith_eq (h : ∀ p n, Nodes.write same p n = Nodes.write TreeSetNode.equals p n) :
    callWith same = call (K := K) := by
  have hwrite : ∀ (m : Heap (TreeSetNode K)) p n, m.write same p n =
      m.write TreeSetNode.equals p n := by
    intro m p n
    have hm := congrFun (h p n) m
    exact congrArg Prod.snd (Except.ok.inj hm)
  funext s c
  cases c with
  | add x =>
    simp only [callWith, addWith, TreeSetNode.addWith_eq h, hwrite]
    rfl
  | remove x =>
    simp only [callWith, removeWith, TreeSetNode.removeWith_eq h]
    rfl

/-- With `equals` it is the code. -/
theorem callWith_equals : callWith TreeSetNode.equals = call (K := K) := callWith_eq fun _ _ => rfl

theorem callWith_never : callWith Heap.never = call (K := K) :=
  callWith_eq fun p n => (TreeSetNode.write_equals p n).symm

end TreeSet

/-! ## `LinkedList` -/

namespace LinkedList

/-- `rootPtr.write(value)`, where `sameHead` decides which writes are skipped. -/
def writeRootWith (sameHead : SimpleLinkedListHead → SimpleLinkedListHead → Bool)
    (value : SimpleLinkedListHead) : ListTxn T Unit := fun l =>
  .ok ((), if l.root.any (sameHead value) then l else { l with root := some value })

end LinkedList

namespace SimpleLinkedListHead

open LinkedList Nodes

variable (same : SimpleLinkedListNode T → SimpleLinkedListNode T → Bool)
  (sameHead : SimpleLinkedListHead → SimpleLinkedListHead → Bool)

/-- `add`, where `same` and `sameHead` decide which writes are skipped. -/
def addWith (l : SimpleLinkedListHead) (newValue : T) : ListTxn T Unit :=
  match l.head with
  | some nodePtr => do
    let currentValue ← onNodes (read nodePtr)
    require currentValue.next.isNone requirementFailed
    let newPtr ← onNodes (dynamic { value := newValue, prev := some nodePtr })
    onNodes (write same nodePtr { currentValue with next := some newPtr })
    writeRootWith sameHead { l with head := some newPtr }
  | none => do
    require l.tail.isNone requirementFailed
    let newNode ← onNodes (dynamic { value := newValue })
    writeRootWith sameHead { l with head := some newNode, tail := some newNode }

/-- `remove`, where `same` and `sameHead` decide which writes are skipped. -/
def removeWith (l : SimpleLinkedListHead) : ListTxn T (Option T) :=
  match l.tail with
  | some tailPtr => do
    let tailValue ← onNodes (read tailPtr)
    require tailValue.prev.isNone requirementFailed
    match tailValue.next with
    | some nextPtr => do
      let nextValue ← onNodes (read nextPtr)
      require (nextValue.prev = l.tail) requirementFailed
      onNodes (write same nextPtr { nextValue with prev := none })
      writeRootWith sameHead { l with tail := some nextPtr }
      return some tailValue.value
    | none => do
      require (l.tail = l.head) (Failure.require "List header seems to be corrupt")
      writeRootWith sameHead { l with tail := none, head := none }
      return some tailValue.value
  | none => do
    require l.head.isNone requirementFailed
    return none

end SimpleLinkedListHead

namespace LinkedList

open Nodes

section Operations

variable (same : SimpleLinkedListNode T → SimpleLinkedListNode T → Bool)
  (sameHead : SimpleLinkedListHead → SimpleLinkedListHead → Bool)

/-- `add`, where `same` and `sameHead` decide which writes are skipped. -/
def addWith (value : T) : ListTxn T Unit := fun l =>
  (l.root.getD {}).addWith same sameHead value l

/-- `remove`, where `same` and `sameHead` decide which writes are skipped. -/
def removeWith : ListTxn T (Option T) := fun l =>
  match l.root with
  | some head => head.removeWith same sameHead l
  | none => .ok (none, l)

end Operations

/-- One call, where `same` and `sameHead` decide which writes are skipped. -/
def callWith (same : SimpleLinkedListNode (Option T) → SimpleLinkedListNode (Option T) → Bool)
    (sameHead : SimpleLinkedListHead → SimpleLinkedListHead → Bool) (l : LinkedList (Option T)) :
    Call T → Except Failure (Result T) × LinkedList (Option T)
  | .add value => attempt ((l.addWith same sameHead value).map fun r => (.unit, r.2)) l
  | .remove => attempt ((l.removeWith same sameHead).map fun r => (.value r.1.join, r.2)) l
  | .size => (l.size.map .size, l)
  | .stream => (l.stream.map .stream, l)

/-- Nodes that are the same have the same links. -/
def SameLinks (same : SimpleLinkedListNode T → SimpleLinkedListNode T → Bool) : Prop :=
  ∀ n x, same n x = true → n.next = x.next ∧ n.prev = x.prev

theorem sameLinks_equals [BEq T] : SameLinks (SimpleLinkedListNode.equals (T := T)) := by
  intro n x hs
  rw [SimpleLinkedListNode.equals, Bool.and_eq_true, Bool.and_eq_true] at hs
  exact ⟨eq_of_beq hs.1.2, eq_of_beq hs.2⟩

variable {same : SimpleLinkedListNode T → SimpleLinkedListNode T → Bool}
  {sameHead : SimpleLinkedListHead → SimpleLinkedListHead → Bool} {l : LinkedList T}

theorem writeRootWith_eq (hhead : ∀ a b, sameHead a b = true → a = b)
    (value : SimpleLinkedListHead) :
    writeRootWith (T := T) sameHead value = writeRoot value := by
  funext l
  rw [writeRoot_apply, writeRootWith]
  split_ifs with hany
  · obtain ⟨head, hroot, hs⟩ := (Option.any_eq_true _ _).mp hany
    rw [hhead _ _ hs, ← hroot]
  · rfl

/-- A node with other links is stored. -/
theorem write_eq_never {p : Ptr} {n m : SimpleLinkedListNode T} (hsame : SameLinks same)
    (hget : l.nodes.get p = some m) (hlinks : n.next = m.next → n.prev ≠ m.prev) :
    onNodes (write same p n) l = onNodes (write Heap.never p n) l := by
  have hwrite : l.nodes.write same p n = l.nodes.write Heap.never p n :=
    Heap.write_eq_never hget fun hs => absurd (hsame n m hs).2 (hlinks (hsame n m hs).1)
  exact (onNodes_ok rfl).trans (by rw [hwrite]; exact (onNodes_ok rfl).symm)

theorem of_read {p : Ptr} {n : SimpleLinkedListNode T} {l' : LinkedList T}
    (hread : onNodes (read p) l = .ok (n, l')) : l' = l ∧ l.nodes.get p = some n := by
  cases hget : l.nodes.get p with
  | none =>
    rw [onNodes, Nodes.read, hget] at hread
    cases hread
  | some m =>
    rw [onNodes_ok (read_some hget)] at hread
    cases hread
    exact ⟨rfl, rfl⟩

theorem of_require {requirement : Bool} {failure : Failure} {u : Unit} {l' : LinkedList T}
    (hreq : require requirement failure l = .ok (u, l')) : l' = l ∧ requirement = true := by
  cases requirement with
  | true =>
    cases hreq
    exact ⟨rfl, rfl⟩
  | false => cases hreq

variable [BEq T]

/-- The link to a new node is not there before. -/
theorem head_addWith_eq (hsame : SameLinks same) (hhead : ∀ a b, sameHead a b = true → a = b)
    (head : SimpleLinkedListHead) (v : T) (l : LinkedList T) :
    head.addWith same sameHead v l = head.add v l := by
  rw [SimpleLinkedListHead.addWith, SimpleLinkedListHead.add]
  cases head.head with
  | none => simp only [writeRootWith_eq hhead]
  | some p =>
    refine bind_congr_ok rfl fun n l₁ hread => ?_
    obtain ⟨rfl, hget⟩ := of_read hread
    refine bind_congr_ok rfl fun _ l₂ hreq => ?_
    obtain ⟨rfl, hnone⟩ := of_require hreq
    refine bind_congr_ok rfl fun q l₃ hnew => ?_
    obtain ⟨rfl, rfl⟩ := Prod.mk.inj (Except.ok.inj hnew)
    have hget' : (l₂.nodes.alloc { value := v, prev := some p }).get p = some n :=
      (Heap.get_alloc_of_lt (Heap.lt_next hget)).trans hget
    have hlinks : some l₂.nodes.next ≠ n.next := fun heq => by
      rw [← heq] at hnone
      cases hnone
    let l₃ : LinkedList T := ⟨l₂.root, l₂.nodes.alloc { value := v, prev := some p }⟩
    refine bind_congr_ok ?_ fun _ _ _ => by rw [writeRootWith_eq hhead]
    exact (write_eq_never (l := l₃) hsame hget' fun heq => absurd heq hlinks).trans
      (write_eq_never (l := l₃) sameLinks_equals hget' fun heq => absurd heq hlinks).symm

/-- The link to a node that is removed was there before. -/
theorem head_removeWith_eq (hsame : SameLinks same) (hhead : ∀ a b, sameHead a b = true → a = b)
    (head : SimpleLinkedListHead) (l : LinkedList T) :
    head.removeWith same sameHead l = head.remove l := by
  rw [SimpleLinkedListHead.removeWith, SimpleLinkedListHead.remove]
  cases htail : head.tail with
  | none => rfl
  | some p =>
    refine bind_congr_ok rfl fun n l₁ hread => ?_
    obtain ⟨rfl, -⟩ := of_read hread
    refine bind_congr_ok rfl fun _ l₂ hreq => ?_
    obtain ⟨rfl, -⟩ := of_require hreq
    cases n.next with
    | none => simp only [writeRootWith_eq hhead]
    | some q =>
      refine bind_congr_ok rfl fun m l₃ hread' => ?_
      obtain ⟨rfl, hget⟩ := of_read hread'
      refine bind_congr_ok rfl fun _ l₄ hreq' => ?_
      obtain ⟨rfl, hprev⟩ := of_require hreq'
      have hlinks : none ≠ m.prev := fun heq => by
        rw [← heq] at hprev
        cases of_decide_eq_true hprev
      refine bind_congr_ok ?_ fun _ _ _ => by rw [writeRootWith_eq hhead]
      rw [write_eq_never hsame hget fun _ => hlinks,
        write_eq_never sameLinks_equals hget fun _ => hlinks]

theorem callWith_eq {same : SimpleLinkedListNode (Option T) → SimpleLinkedListNode (Option T) → Bool}
    (hsame : SameLinks same) (hhead : ∀ a b, sameHead a b = true → a = b) :
    callWith same sameHead = call (T := T) := by
  funext l c
  cases c with
  | add v =>
    have hadd : l.addWith same sameHead v = l.add v := head_addWith_eq hsame hhead _ v l
    rw [callWith, call, hadd]
  | remove =>
    have hrem : l.removeWith same sameHead = l.remove := by
      unfold removeWith remove
      cases l.root with
      | none => rfl
      | some head => exact head_removeWith_eq hsame hhead head l
    rw [callWith, call, hrem]
  | size => rfl
  | stream => rfl

/-- With `equals` it is the code. -/
theorem callWith_equals : callWith SimpleLinkedListNode.equals (fun a b => a = b) = call (T := T) :=
  callWith_eq sameLinks_equals fun _ _ => of_decide_eq_true

theorem callWith_never : callWith Heap.never (fun _ _ => false) = call (T := T) :=
  callWith_eq nofun nofun

end LinkedList

/-! ## `TreeMap` -/

namespace TreeMap

open BinaryTreeMapNode

variable [LinearOrder T]

/-- One operation, where `same` decides which writes are skipped. -/
def stepWith (same : BinaryTreeMapNode T V → BinaryTreeMapNode T V → Bool) (m : TreeMap T V) :
    Op T V → TreeMap T V
  | .add key value => (m.addWith same key value).toOption.getD m
  | .remove key => (m.removeWith same key).toOption.getD m

/-- With `equals` it is the code. -/
theorem stepWith_equals : stepWith BinaryTreeMapNode.equals = step (T := T) (V := V) := by
  funext m op
  cases op with
  | add key value => rw [stepWith, step, addWith_equals]
  | remove key => rw [stepWith, step, removeWith_equals]

/-- A removal is lossless. -/
def lossless [DecidableEq V] (m : TreeMap T V) : Op T V → Prop
  | .add _ _ => True
  | .remove key => BinaryTreeMapNode.lossless key m.tree

instance [DecidableEq V] (m : TreeMap T V) : (op : Op T V) → Decidable (m.lossless op)
  | .add _ _ => inferInstanceAs (Decidable True)
  | .remove key => inferInstanceAs (Decidable (BinaryTreeMapNode.lossless key m.tree = true))

variable {m : TreeMap T V}

/-- An operation that is lossless: it does not matter what is skipped. -/
theorem step_eq_never [DecidableEq V] (hm : ∃ t, Represents m t) {op : Op T V}
    (hop : m.lossless op) :
    stepWith Heap.never m op = step m op ∧ ∃ t, Represents (step m op) t := by
  obtain ⟨t, hm⟩ := hm
  rw [← stepWith_equals]
  cases op with
  | add key value =>
    obtain ⟨m', hadd, hm'⟩ := addWith_spec hm key value
    rw [stepWith, stepWith, hadd _ sameKey_never, hadd _ sameKey_equals]
    exact ⟨rfl, _, hm'⟩
  | remove key =>
    have hl : BinaryTreeMapNode.lossless key t := hm.tree_eq ▸ hop
    have hspec := removeWith_never_spec hm key
    rw [stepWith, stepWith, removeWith_eq_never sameKey_equals hm hl]
    refine ⟨rfl, ?_⟩
    split at hspec
    · obtain ⟨m', hrem, hm'⟩ := hspec
      rw [hrem]
      exact ⟨_, hm'⟩
    · rcases hspec with ⟨e, he⟩ | ⟨-, m', hrem, hm'⟩
      · rw [he]
        exact ⟨t, hm⟩
      · rw [hrem]
        exact ⟨_, hm'⟩

end TreeMap

/-! ## All collections -/

/-- After any calls a collection is as if every write had been stored: a `TreeMap` if its removals
    are lossless, and every other one as it is. -/
theorem write_elision [LinearOrder T] [DecidableEq V] [LinearOrder K] {C L : Type} [BEq C]
    [BEq L] :
    (∀ (m : TreeMap T V) ops, m.root.join = none → Along TreeMap.step TreeMap.lossless m ops →
        run (TreeMap.stepWith Heap.never) m ops = run TreeMap.step m ops) ∧
      (∀ (s : TreeSet K) calls,
        run (TreeSet.callWith Heap.never) s calls = run TreeSet.call s calls) ∧
      (∀ (c : TreeCollection C) calls, c.root.join = none →
        run (next (TreeCollection.step Heap.never)) c calls =
          run (next TreeCollection.call) c calls) ∧
      (∀ (l : LinkedList (Option L)) calls,
        run (next (LinkedList.callWith Heap.never fun _ _ => false)) l calls =
          run (next LinkedList.call) l calls) ∧
      ∀ calls, run (next (PageTree.step Heap.never)) PageTree.create calls =
        run (next PageTree.call) PageTree.create calls := by
  refine ⟨fun m ops hm hops => ?_, fun s calls => ?_, fun c calls hc => ?_, fun l calls => ?_,
    fun calls => ?_⟩
  · refine hops.run_eq (I := fun m => ∃ t, TreeMap.Represents m t)
      (fun m op hm hop => TreeMap.step_eq_never hm hop) ⟨_, TreeMap.represents_of_empty hm⟩
  · rw [TreeSet.callWith_never]
  · refine along_true.run_eq (I := fun c => ∃ M, TreeCollection.Holds c M)
      (fun c call hc _ => ?_) ⟨0, ?_⟩
    · obtain ⟨M, hM⟩ := hc
      obtain ⟨r, c', M', hstep, -, hc'⟩ := hM.step call
      rw [next, next, TreeCollection.call, hstep _ TreeCollectionNode.sameLinks_never,
        hstep _ TreeCollectionNode.sameLinks_equals]
      exact ⟨rfl, M', hc'⟩
    · unfold TreeCollection.Holds
      rw [hc]
  · rw [LinkedList.callWith_never]
  · refine along_true.run_eq (I := fun t => ∃ M, PageTree.Holds t M)
      (fun t call ht _ => ?_) ⟨0, PageTree.holds_create⟩
    obtain ⟨M, hM⟩ := ht
    obtain ⟨r, t', M', hstep, -, ht'⟩ := hM.step call
    rw [next, next, PageTree.call, hstep _ PageTreeNode.sameLinks_never,
      hstep _ PageTreeNode.sameLinks_equals]
    exact ⟨rfl, M', ht'⟩

/-- Three values under one key, and then a removal of the key. -/
def repeated : List (TreeMap.Op ℕ ℕ) :=
  [.add 1 (some 10), .add 1 (some 20), .add 1 (some 30), .remove 1]

theorem write_elision_distinct :
    run (TreeMap.stepWith Heap.never) TreeMap.create (TreeMap.chain ++ [.remove 2]) =
      run TreeMap.step TreeMap.create (TreeMap.chain ++ [.remove 2]) :=
  (write_elision (T := ℕ) (V := ℕ) (K := ℕ) (C := ℕ) (L := ℕ)).1 TreeMap.create _ rfl (by decide)

/-- The root has the key and the links that it had, and the second value is to be its own: this
    write is skipped, so that the map keeps the first value and loses the second one. -/
theorem write_elision_loses :
    (run TreeMap.step TreeMap.create repeated).get 1 = .ok (some 10) ∧
      (run (TreeMap.stepWith Heap.never) TreeMap.create repeated).get 1 = .ok (some 20) ∧
      run (TreeMap.stepWith Heap.never) TreeMap.create repeated ≠
        run TreeMap.step TreeMap.create repeated := by
  have hskipped : (run TreeMap.step TreeMap.create repeated).get 1 = .ok (some 10) := by decide
  have hstored : (run (TreeMap.stepWith Heap.never) TreeMap.create repeated).get 1 =
      .ok (some 20) := by decide
  refine ⟨hskipped, hstored, fun heq => ?_⟩
  rw [heq, hskipped] at hstored
  cases hstored

end ReSTM
