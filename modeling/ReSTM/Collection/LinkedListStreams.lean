import Mathlib.Data.List.Infix
import ReSTM.Collection.LinkedList
import ReSTM.Common.Transition

/-!
# Streams of a `LinkedList` among other calls

Model of `AtomicApi.stream` (`stm/collection/LinkedList.scala`, lines 84–94), which reads the header
and then one node after the other, each in a transaction of its own. Values come and go meanwhile.
A node that `remove` cuts off stays as it is, with its link, and a stream that has come to it goes
on from there.

* `ListWorld.stream_moment`: a stream that has come to its end has what was in the list when it
  began, and what was added up to some moment after that.
-/

namespace ReSTM

open HeapModel LinkedList Nodes Transition WP

variable {T : Type}

/-- Where a stream is: it has yet to read the header, or has read some values and goes on at a node,
    if there is one. -/
inductive AtomicStream (T : Type)
  | header
  | node (next : Option Ptr) (values : List T)
deriving DecidableEq

/-- A list, the values that were added and those that were removed so far, and a stream. -/
structure ListWorld (T : Type) where
  list : LinkedList T := {}
  added : List T := []
  removed : List T := []
  stream : AtomicStream T := .header

inductive ListAction (T : Type)
  | add (value : T)
  | remove
  | read
deriving DecidableEq

/-- The next transaction of a stream. -/
def AtomicStream.read (l : LinkedList T) : AtomicStream T → AtomicStream T
  | .header => .node (l.root.bind (·.tail)) []
  | .node (some p) values =>
    match l.nodes.get p with
    | some n => .node n.next (values ++ [n.value])
    | none => .node none values
  | .node none values => .node none values

namespace ListWorld

/-- One transaction. -/
def step [BEq T] (w : ListWorld T) : ListAction T → ListWorld T
  | .add value =>
    match w.list.add value with
    | .ok (_, list) => { w with list := list, added := w.added ++ [value] }
    | .error _ => w
  | .remove =>
    match w.list.remove with
    | .ok (some value, list) => { w with list := list, removed := w.removed ++ [value] }
    | .ok (none, list) => { w with list := list }
    | .error _ => w
  | .read => { w with stream := w.stream.read w.list }

/-! ## All nodes -/

/-- The node of the `i`-th of `added` values, of which `removed` were removed. It links to the next
    one, unless it is the last one of the list, or was that when it was removed. -/
structure NodeOf (removed added i : ℕ) (x : T) (n : SimpleLinkedListNode T) : Prop where
  value : n.value = x
  next : n.next = some (i + 1) ∧ i + 1 < added ∨
    n.next = none ∧ (i + 1 = added ∨ i + 1 ≤ removed)
  prev : removed ≤ i → n.prev = if i = removed then none else some (i - 1)

/-- The values are removed in order, and the node of each of them stays where it was. -/
structure Linked (w : ListWorld T) : Prop where
  fifo : w.removed = w.added.take w.removed.length
  next : w.list.nodes.next = w.added.length
  root : w.list.root.getD {} = if w.removed.length = w.added.length then {}
    else { head := some (w.added.length - 1), tail := some w.removed.length }
  node : ∀ i x, w.added[i]? = some x →
    ∃ n, w.list.nodes.get i = some n ∧ NodeOf w.removed.length w.added.length i x n

/-- A link stays once it is there. -/
def Keeps (h h' : Heap (SimpleLinkedListNode T)) : Prop :=
  ∀ i n q, h.get i = some n → n.next = some q → ∃ n', h'.get i = some n' ∧ n'.next = some q

variable {w : ListWorld T} {removed added i : ℕ} {x : T} {n : SimpleLinkedListNode T}

theorem Linked.removed_le (h : w.Linked) : w.removed.length ≤ w.added.length := by
  have hlength := congrArg List.length h.fifo
  rw [List.length_take] at hlength
  omega

/-- Another node comes after the next one. -/
theorem NodeOf.add (h : NodeOf removed added i x n) (hi : i + 1 < added ∨ i + 1 ≤ removed) :
    NodeOf removed (added + 1) i x n := by
  refine ⟨h.value, ?_, h.prev⟩
  rcases h.next with ⟨hnext, hlt⟩ | ⟨hnext, hlast⟩
  · exact .inl ⟨hnext, by omega⟩
  · exact .inr ⟨hnext, by omega⟩

/-- Another node is removed. -/
theorem NodeOf.remove (h : NodeOf removed added i x n) (hi : i ≠ removed + 1) :
    NodeOf (removed + 1) added i x n := by
  refine ⟨h.value, ?_, fun hle => ?_⟩
  · rcases h.next with hnext | ⟨hnext, hlast⟩
    · exact .inl hnext
    · exact .inr ⟨hnext, by omega⟩
  · rw [h.prev (by omega), if_neg (by omega), if_neg hi]

/-- The node before this one is removed. -/
theorem NodeOf.remove_prev (h : NodeOf removed added (removed + 1) x n) :
    NodeOf (removed + 1) added (removed + 1) x { n with prev := none } := by
  refine ⟨h.value, ?_, fun _ => (if_pos rfl).symm⟩
  rcases h.next with hnext | ⟨hnext, hlast⟩
  · exact .inl hnext
  · exact .inr ⟨hnext, by omega⟩

theorem NodeOf.next_none (h : NodeOf removed added i x n) (hi : i + 1 = added) : n.next = none := by
  rcases h.next with ⟨-, hlt⟩ | ⟨hnext, -⟩
  · omega
  · exact hnext

/-- Every value has a node, and there are no others. -/
theorem Linked.get (h : w.Linked) (hi : i < w.added.length) :
    ∃ n, w.list.nodes.get i = some n ∧
      NodeOf w.removed.length w.added.length i w.added[i] n :=
  h.node i _ (List.getElem?_eq_getElem hi)

/-- The header of a list with a value. -/
theorem Linked.root_some (h : w.Linked) (hlt : w.removed.length < w.added.length) :
    w.list.root = some { head := some (w.added.length - 1), tail := some w.removed.length } := by
  have hroot := h.root
  rw [if_neg hlt.ne] at hroot
  cases hr : w.list.root with
  | none =>
    rw [hr] at hroot
    cases congrArg SimpleLinkedListHead.tail hroot
  | some head =>
    rw [hr] at hroot
    exact congrArg some hroot

/-- What there is to say of a list with another value: the old nodes, and the new one. -/
theorem Linked.of_add (h : w.Linked) {l : LinkedList T} {v : T}
    (hnext : l.nodes.next = w.list.nodes.next + 1)
    (hroot : l.root = some { head := some w.added.length, tail := some w.removed.length })
    (hold : ∀ (i : ℕ) x n, i < w.added.length → w.list.nodes.get i = some n →
      NodeOf w.removed.length w.added.length i x n →
      ∃ n', l.nodes.get i = some n' ∧ NodeOf w.removed.length (w.added.length + 1) i x n')
    (hnew : ∃ n, l.nodes.get w.added.length = some n ∧
      NodeOf w.removed.length (w.added.length + 1) w.added.length v n) :
    Linked { w with list := l, added := w.added ++ [v] } := by
  have hle := h.removed_le
  have hlength : (w.added ++ [v]).length = w.added.length + 1 := by simp
  refine ⟨?_, ?_, ?_, ?_⟩
  · show w.removed = (w.added ++ [v]).take w.removed.length
    rw [List.take_append_of_le_length hle]
    exact h.fifo
  · show l.nodes.next = (w.added ++ [v]).length
    rw [hlength, hnext, h.next]
  · show l.root.getD {} = if w.removed.length = (w.added ++ [v]).length then _ else _
    rw [hlength, if_neg (by omega), hroot]
    rfl
  · intro i x hx
    show ∃ n, l.nodes.get i = some n ∧ NodeOf w.removed.length (w.added ++ [v]).length i x n
    rw [hlength]
    have hi : i < w.added.length + 1 := hlength ▸ (List.getElem?_eq_some_iff.mp hx).1
    rcases Nat.lt_succ_iff_lt_or_eq.mp hi with hlt | rfl
    · rw [List.getElem?_append_left hlt] at hx
      obtain ⟨n, hn, hof⟩ := h.node i x hx
      exact hold i x n hlt hn hof
    · rw [List.getElem?_concat_length] at hx
      obtain rfl := Option.some.inj hx
      exact hnew

/-- What there is to say of a list with a value less. -/
theorem Linked.of_remove (h : w.Linked) (hlt : w.removed.length < w.added.length)
    {l : LinkedList T} (hnext : l.nodes.next = w.list.nodes.next)
    (hroot : l.root.getD {} = if w.removed.length + 1 = w.added.length then {}
      else { head := some (w.added.length - 1), tail := some (w.removed.length + 1) })
    (hnodes : ∀ (i : ℕ) x n, w.list.nodes.get i = some n →
      NodeOf w.removed.length w.added.length i x n →
      ∃ n', l.nodes.get i = some n' ∧ NodeOf (w.removed.length + 1) w.added.length i x n') :
    Linked { w with list := l, removed := w.removed ++ [w.added[w.removed.length]] } := by
  have hlength : (w.removed ++ [w.added[w.removed.length]]).length = w.removed.length + 1 := by
    simp
  refine ⟨?_, ?_, ?_, ?_⟩
  · show w.removed ++ _ = w.added.take (w.removed ++ [w.added[w.removed.length]]).length
    rw [hlength, ← List.take_append_getElem hlt, ← h.fifo]
  · exact hnext.trans h.next
  · show l.root.getD {} = if (w.removed ++ [w.added[w.removed.length]]).length = _ then _ else _
    rw [hlength, hroot]
  · intro i x hx
    show ∃ n, l.nodes.get i = some n ∧
      NodeOf (w.removed ++ [w.added[w.removed.length]]).length w.added.length i x n
    rw [hlength]
    obtain ⟨n, hn, hof⟩ := h.node i x hx
    exact hnodes i x n hn hof

theorem root_tail (l : LinkedList T) : l.root.bind (·.tail) = (l.root.getD {}).tail := by
  cases l.root <;> rfl

theorem Linked.streamFrom_eq (h : w.Linked) {fuel i : ℕ} (hi : w.removed.length ≤ i)
    (hlt : i < w.added.length) (hfuel : w.added.length ≤ fuel + i) :
    streamFrom w.list.nodes fuel (some i) = .ok (w.added.drop i) := by
  induction fuel generalizing i with
  | zero => omega
  | succ fuel ih =>
    obtain ⟨n, hn, hof⟩ := h.get hlt
    rw [streamFrom, hn, List.drop_eq_getElem_cons hlt]
    show (streamFrom w.list.nodes fuel n.next >>= _) = _
    rcases hof.next with ⟨hnext, hlt'⟩ | ⟨hnext, hlast⟩
    · rw [hnext, ih (by omega) hlt' (by omega), hof.value]
      rfl
    · rw [hnext, List.drop_eq_nil_of_le (by omega), streamFrom, hof.value]
      rfl

/-- What `stream` of a transaction lists. -/
theorem Linked.stream_eq (h : w.Linked) :
    w.list.stream = .ok (w.added.drop w.removed.length) := by
  have hle := h.removed_le
  rw [LinkedList.stream, root_tail, h.root]
  by_cases hempty : w.removed.length = w.added.length
  · rw [if_pos hempty, List.drop_eq_nil_of_le (by omega)]
    exact streamFrom.eq_1 _ _
  · rw [if_neg hempty]
    exact h.streamFrom_eq le_rfl (by omega) (by rw [h.next]; omega)

theorem isPrefix_snoc {xs ys : List T} (h : xs <+: ys) (hx : ys[xs.length]? = some x) :
    xs ++ [x] <+: ys := by
  obtain ⟨post, rfl⟩ := h
  rw [List.getElem?_append_right le_rfl, Nat.sub_self] at hx
  cases post with
  | nil => cases hx
  | cons y post =>
    obtain rfl := Option.some.inj hx
    exact ⟨post, by simp⟩

variable [BEq T]

/-- `add` makes a node, and the one at the head links to it. -/
theorem Linked.add (h : w.Linked) (v : T) :
    ∃ l, w.list.add v = .ok ((), l) ∧ Linked { w with list := l, added := w.added ++ [v] } ∧
      Keeps w.list.nodes l.nodes := by
  have hle := h.removed_le
  show ∃ l, (w.list.root.getD {}).add v w.list = _ ∧ _
  by_cases hempty : w.removed.length = w.added.length
  · rw [h.root, if_pos hempty, SimpleLinkedListHead.add]
    refine ⟨_, (bind_ok (require_true rfl)).trans ((bind_ok (onNodes_ok rfl)).trans
      (writeRoot_apply _ _)), h.of_add ?_ ?_ ?_ ?_, ?_⟩
    · exact Heap.next_alloc
    · rw [hempty, ← h.next]
    · intro i x n hlt hn hof
      exact ⟨n, (Heap.get_alloc_of_lt (Heap.lt_next hn)).trans hn, hof.add (by omega)⟩
    · refine ⟨{ value := v }, h.next ▸ Heap.get_alloc_self, rfl, .inr ⟨rfl, .inl rfl⟩, ?_⟩
      intro _
      rw [if_pos hempty.symm]
    · intro i n q hn hq
      exact ⟨n, (Heap.get_alloc_of_lt (Heap.lt_next hn)).trans hn, hq⟩
  · obtain ⟨m, hm⟩ : ∃ m, w.added.length = m + 1 := ⟨w.added.length - 1, by omega⟩
    obtain ⟨n, hn, hof⟩ := h.get (i := m) (by omega)
    have hnone : n.next = none := hof.next_none hm.symm
    let nodes₁ := w.list.nodes.alloc { value := v, prev := some m }
    let n' : SimpleLinkedListNode T := { n with next := some w.list.nodes.next }
    let nodes₂ := nodes₁.write SimpleLinkedListNode.equals m n'
    have hm₁ : nodes₁.get m = some n := (Heap.get_alloc_of_lt (Heap.lt_next hn)).trans hn
    have hm₂ : nodes₂.get m = some n' := by
      have hne : SimpleLinkedListNode.equals n' n = false := by
        simp [SimpleLinkedListNode.equals, n', hnone]
      rw [Heap.get_write_self hm₁, hne]
      rfl
    have hother {i : ℕ} (hi : i ≠ m) (hlt : i < w.list.nodes.next) :
        nodes₂.get i = w.list.nodes.get i := by
      rw [Heap.get_write_of_ne hi, Heap.get_alloc_of_lt hlt]
    have hread : onNodes (Nodes.read m) w.list = .ok (n, w.list) :=
      onNodes_ok (Nodes.read_some hn)
    have hhead : some (w.added.length - 1) = some m := congrArg some (by omega)
    rw [h.root, if_neg hempty, hhead, SimpleLinkedListHead.add]
    refine ⟨_, (bind_ok hread).trans ((bind_ok (require_true (by rw [hnone]; rfl))).trans
      ((bind_ok (onNodes_ok rfl)).trans ((bind_ok (onNodes_ok rfl)).trans
        (writeRoot_apply _ _)))), h.of_add ?_ ?_ ?_ ?_, ?_⟩
    · exact Heap.next_write.trans Heap.next_alloc
    · rw [← h.next]
    · intro i x n₁ hlt hn₁ hof₁
      by_cases hi : i = m
      · subst hi
        obtain rfl : n = n₁ := Option.some.inj (hn.symm.trans hn₁)
        refine ⟨n', hm₂, hof₁.value, .inl ⟨?_, by omega⟩, hof₁.prev⟩
        rw [← hm, ← h.next]
      · exact ⟨n₁, (hother hi (Heap.lt_next hn₁)).trans hn₁, hof₁.add (by omega)⟩
    · refine ⟨{ value := v, prev := some m }, ?_, rfl, .inr ⟨rfl, .inl rfl⟩, fun _ => ?_⟩
      · show nodes₂.get w.added.length = _
        have hne : w.added.length ≠ m := by omega
        rw [Heap.get_write_of_ne hne, ← h.next]
        exact Heap.get_alloc_self
      · rw [if_neg (Ne.symm hempty), hm]
        rfl
    · intro i n₁ q hn₁ hq
      have hi : i ≠ m := by
        rintro rfl
        obtain rfl : n = n₁ := Option.some.inj (hn.symm.trans hn₁)
        rw [hnone] at hq
        cases hq
      exact ⟨n₁, (hother hi (Heap.lt_next hn₁)).trans hn₁, hq⟩

/-- `remove` of an empty list changes nothing. -/
theorem Linked.remove_nil (h : w.Linked) (hempty : w.removed.length = w.added.length) :
    w.list.remove = .ok (none, w.list) := by
  have hroot := h.root
  rw [if_pos hempty] at hroot
  unfold LinkedList.remove
  cases hr : w.list.root with
  | none => rfl
  | some head =>
    rw [hr] at hroot
    obtain rfl : head = {} := hroot
    exact (bind_ok (require_true rfl)).trans rfl

/-- `remove` takes the value at the tail. Its node stays, and the next one gets no link back. -/
theorem Linked.remove (h : w.Linked) (hlt : w.removed.length < w.added.length) :
    ∃ l, w.list.remove = .ok (some w.added[w.removed.length], l) ∧
      Linked { w with list := l, removed := w.removed ++ [w.added[w.removed.length]] } ∧
      Keeps w.list.nodes l.nodes := by
  obtain ⟨n, hn, hof⟩ := h.get hlt
  have hprev : n.prev = none := by rw [hof.prev le_rfl, if_pos rfl]
  have hread : onNodes (Nodes.read w.removed.length) w.list = .ok (n, w.list) :=
    onNodes_ok (Nodes.read_some hn)
  have hreq : n.prev.isNone = true := by rw [hprev]; rfl
  unfold LinkedList.remove
  rw [h.root_some hlt]
  show ∃ l, SimpleLinkedListHead.remove _ w.list = _ ∧ _
  rw [SimpleLinkedListHead.remove]
  rcases hof.next with ⟨hnext, hlt'⟩ | ⟨hnext, hlast⟩
  · obtain ⟨m, hm, hof'⟩ := h.get hlt'
    have hread' : onNodes (Nodes.read (w.removed.length + 1)) w.list = .ok (m, w.list) :=
      onNodes_ok (Nodes.read_some hm)
    have hprev' : m.prev = some w.removed.length := by
      rw [hof'.prev (by omega), if_neg (by omega)]
      rfl
    let m' : SimpleLinkedListNode T := { m with prev := none }
    have hm' : (w.list.nodes.write SimpleLinkedListNode.equals (w.removed.length + 1) m').get
        (w.removed.length + 1) = some m' := by
      have hne : SimpleLinkedListNode.equals m' m = false := by
        simp [SimpleLinkedListNode.equals, m', hprev']
      rw [Heap.get_write_self hm, hne]
      rfl
    refine ⟨⟨some { head := some (w.added.length - 1), tail := some (w.removed.length + 1) },
      w.list.nodes.write SimpleLinkedListNode.equals (w.removed.length + 1) m'⟩,
      (bind_ok hread).trans ((bind_ok (require_true hreq)).trans ?_), h.of_remove hlt ?_ ?_ ?_, ?_⟩
    · rw [hnext, hof.value]
      exact (bind_ok hread').trans ((bind_ok (require_true (by simp [hprev']))).trans
        ((bind_ok (onNodes_ok rfl)).trans (bind_ok (writeRoot_apply _ _))))
    · exact Heap.next_write
    · rw [if_neg (by omega)]
      rfl
    · intro i x n₁ hn₁ hof₁
      by_cases hi : i = w.removed.length + 1
      · subst hi
        obtain rfl : m = n₁ := Option.some.inj (hm.symm.trans hn₁)
        exact ⟨m', hm', hof₁.remove_prev⟩
      · exact ⟨n₁, (Heap.get_write_of_ne hi).trans hn₁, hof₁.remove hi⟩
    · intro i n₁ q hn₁ hq
      by_cases hi : i = w.removed.length + 1
      · subst hi
        obtain rfl : m = n₁ := Option.some.inj (hm.symm.trans hn₁)
        exact ⟨m', hm', hq⟩
      · exact ⟨n₁, (Heap.get_write_of_ne hi).trans hn₁, hq⟩
  · have hlast' : w.removed.length + 1 = w.added.length := by omega
    refine ⟨{ w.list with root := some {} }, (bind_ok hread).trans
      ((bind_ok (require_true hreq)).trans ?_), h.of_remove hlt rfl ?_ ?_, ?_⟩
    · rw [hnext, hof.value]
      have htail : some w.removed.length = some (w.added.length - 1) := congrArg some (by omega)
      exact (bind_ok (require_true (decide_eq_true htail))).trans (bind_ok (writeRoot_apply _ _))
    · rw [if_pos hlast']
      rfl
    · intro i x n₁ hn₁ hof₁
      refine ⟨n₁, hn₁, hof₁.remove ?_⟩
      have hi : i < w.added.length := h.next ▸ Heap.lt_next hn₁
      omega
    · exact fun i n₁ q hn₁ hq => ⟨n₁, hn₁, hq⟩

/-- No transaction fails, and no link goes away. -/
theorem Linked.step (h : w.Linked) (a : ListAction T) :
    (w.step a).Linked ∧ Keeps w.list.nodes (w.step a).list.nodes := by
  cases a with
  | add value =>
    obtain ⟨l, hadd, hl, hkeeps⟩ := h.add value
    rw [ListWorld.step, hadd]
    exact ⟨hl, hkeeps⟩
  | remove =>
    rw [ListWorld.step]
    by_cases hempty : w.removed.length = w.added.length
    · rw [h.remove_nil hempty]
      exact ⟨h, fun i n q hn hq => ⟨n, hn, hq⟩⟩
    · obtain ⟨l, hremove, hl, hkeeps⟩ := h.remove (lt_of_le_of_ne h.removed_le hempty)
      rw [hremove]
      exact ⟨hl, hkeeps⟩
  | read => exact ⟨⟨h.fifo, h.next, h.root, h.node⟩, fun i n q hn hq => ⟨n, hn, hq⟩⟩

/-- Values are added one by one. -/
theorem step_added (w : ListWorld T) (a : ListAction T) :
    (w.step a).added = w.added ∨ ∃ v, (w.step a).added = w.added ++ [v] := by
  cases a with
  | add value =>
    rw [step]
    split
    · exact .inr ⟨value, rfl⟩
    · exact .inl rfl
  | remove =>
    rw [step]
    split <;> exact .inl rfl
  | read => exact .inl rfl

/-! ## Streams -/

/-- A stream that began at `start` has come to some node. -/
structure Streams (start w : ListWorld T) (next : Option Ptr) (values : List T) : Prop where
  linked : w.Linked
  added : start.added <+: w.added
  keeps : Keeps start.list.nodes w.list.nodes
  stream : w.stream = .node next values
  shown : values <+: w.added.drop start.removed.length
  node : ∀ p, next = some p → p = start.removed.length + values.length ∧ p < w.added.length
  all : next = none → start.added.length ≤ start.removed.length + values.length

variable {start : ListWorld T} {next : Option Ptr} {values : List T}

/-- A stream reads the node that it has come to. -/
theorem Streams.read (hs : start.Linked) (h : Streams start w next values) :
    ∃ next' values', Streams start (w.step .read) next' values' := by
  have hstream : (w.step .read).stream = (AtomicStream.node next values).read w.list :=
    congrArg (·.read w.list) h.stream
  cases next with
  | none =>
    exact ⟨none, values, (h.linked.step .read).1, h.added, h.keeps, hstream, h.shown, h.node, h.all⟩
  | some p =>
    obtain ⟨rfl, hlt⟩ := h.node p rfl
    obtain ⟨n, hn, hof⟩ := h.linked.get hlt
    rw [AtomicStream.read, hn] at hstream
    refine ⟨n.next, values ++ [n.value], (h.linked.step .read).1, h.added, h.keeps, hstream,
      ?_, ?_, ?_⟩
    · refine isPrefix_snoc h.shown ?_
      rw [List.getElem?_drop, hof.value]
      exact List.getElem?_eq_getElem hlt
    · intro q hq
      rcases hof.next with ⟨hnext, hlt'⟩ | ⟨hnext, -⟩
      · obtain rfl := Option.some.inj (hnext.symm.trans hq)
        rw [List.length_append, List.length_singleton]
        exact ⟨Nat.add_assoc _ _ _, hlt'⟩
      · rw [hnext] at hq
        cases hq
    · intro hnone
      -- a link that was there when the stream began still is
      by_contra hall
      rw [List.length_append, List.length_singleton, not_le] at hall
      obtain ⟨m, hm, hof'⟩ := hs.get (i := start.removed.length + values.length) (by omega)
      have hlink : m.next = some (start.removed.length + values.length + 1) := by
        rcases hof'.next with ⟨hnext, -⟩ | ⟨-, hlast⟩
        · exact hnext
        · omega
      obtain ⟨m', hm', hlink'⟩ := h.keeps _ _ _ hm hlink
      obtain rfl := Option.some.inj (hn.symm.trans hm')
      rw [hnone] at hlink'
      cases hlink'

theorem step_stream (w : ListWorld T) {a : ListAction T} (ha : a ≠ .read) :
    (w.step a).stream = w.stream := by
  cases a with
  | add value =>
    rw [step]
    split <;> rfl
  | remove =>
    rw [step]
    split <;> rfl
  | read => exact absurd rfl ha

theorem added_grows (w : ListWorld T) (a : ListAction T) : w.added <+: (w.step a).added := by
  rcases step_added w a with hsame | ⟨v, hv⟩
  · exact hsame ▸ List.prefix_rfl
  · exact hv ▸ List.prefix_append _ _

/-- Another transaction comes between. -/
theorem Streams.other (h : Streams start w next values) {a : ListAction T} (ha : a ≠ .read) :
    Streams start (w.step a) next values := by
  have hgrow := added_grows w a
  refine ⟨(h.linked.step a).1, h.added.trans hgrow, ?_, (step_stream w ha).trans h.stream,
    h.shown.trans (hgrow.drop _), ?_, h.all⟩
  · intro i n q hn hq
    obtain ⟨m, hm, hlink⟩ := h.keeps i n q hn hq
    exact (h.linked.step a).2 i m q hm hlink
  · intro p hp
    obtain ⟨hp, hlt⟩ := h.node p hp
    exact ⟨hp, hlt.trans_le hgrow.length_le⟩

/-- What one transaction does to a stream. -/
theorem Streams.step (hs : start.Linked) (h : Streams start w next values) (a : ListAction T) :
    ∃ next' values', Streams start (w.step a) next' values' := by
  cases a with
  | add value => exact ⟨next, values, h.other (by intro h; cases h)⟩
  | remove => exact ⟨next, values, h.other (by intro h; cases h)⟩
  | read => exact h.read hs

/-- The header says where the stream begins. -/
theorem Linked.streams (h : w.Linked) (hstream : w.stream = .header) :
    ∃ next, Streams w (w.step .read) next [] := by
  have hle := h.removed_le
  refine ⟨w.list.root.bind (·.tail), (h.step .read).1, List.prefix_rfl, (h.step .read).2,
    congrArg (·.read w.list) hstream, List.nil_prefix, ?_, ?_⟩
  · intro p hp
    rw [root_tail, h.root] at hp
    by_cases hempty : w.removed.length = w.added.length
    · rw [if_pos hempty] at hp
      cases hp
    · rw [if_neg hempty] at hp
      obtain rfl := Option.some.inj hp
      exact ⟨rfl, lt_of_le_of_ne hle hempty⟩
  · intro hnone
    rw [root_tail, h.root] at hnone
    by_cases hempty : w.removed.length = w.added.length
    · exact hempty.ge
    · rw [if_neg hempty] at hnone
      cases hnone

theorem run_added_grows (w : ListWorld T) (as : List (ListAction T)) :
    w.added <+: (run step w as).added := by
  induction as generalizing w with
  | nil => exact List.prefix_rfl
  | cons a as ih => exact (added_grows w a).trans (ih (w.step a))

/-- As values are added one by one, there was a moment with any number of them between. -/
theorem exists_moment {m : ℕ} (as : List (ListAction T)) (hle : w.added.length ≤ m)
    (hm : m ≤ (run step w as).added.length) :
    ∃ pre post, as = pre ++ post ∧ (run step w pre).added.length = m := by
  induction as generalizing w with
  | nil => exact ⟨[], [], rfl, Nat.le_antisymm hle hm⟩
  | cons a as ih =>
    rcases Nat.lt_or_eq_of_le hle with hlt | heq
    · have hstep : (w.step a).added.length ≤ m := by
        rcases step_added w a with hsame | ⟨v, hv⟩
        · rw [hsame]
          omega
        · rw [hv, List.length_append, List.length_singleton]
          omega
      obtain ⟨pre, post, rfl, hpre⟩ := ih hstep hm
      exact ⟨a :: pre, post, rfl, hpre⟩
    · exact ⟨[], a :: as, rfl, heq⟩

theorem linked_run (h : w.Linked) (as : List (ListAction T)) : (run step w as).Linked :=
  run_invariant (fun _ a h => (h.step a).1) as h

theorem streams_run (hs : start.Linked) (h : Streams start w next values)
    (as : List (ListAction T)) : ∃ next' values', Streams start (run step w as) next' values' :=
  run_invariant (I := fun w => ∃ next values, Streams start w next values)
    (fun _ a ⟨_, _, h⟩ => h.step hs a) as ⟨next, values, h⟩

/-- What a stream has is a part of the values that were in the list when it began and of those that
    were added since. It has them without a gap, also where they are removed before the stream comes
    to them. At its end, it has what was in the list when it began, and what was added up to some
    moment after that. -/
theorem stream_moment (list : LinkedList T) (hlist : list = {} ∨ list = LinkedList.create)
    (as₁ as₂ : List (ListAction T)) (hstream : (run step { list := list } as₁).stream = .header) :
    let start := run step { list := list } as₁
    let w := run step start (.read :: as₂)
    ∃ next values contents, w.stream = .node next values ∧ start.list.stream = .ok contents ∧
      values <+: w.added.drop start.removed.length ∧
      (next = none → contents <+: values ∧ ∃ pre post, as₂ = pre ++ post ∧
        values = (run step start (.read :: pre)).added.drop start.removed.length) := by
  intro start w
  have hstart : start.Linked := by
    refine linked_run ?_ as₁
    rcases hlist with rfl | rfl <;> exact ⟨rfl, rfl, rfl, fun i x hx => by simp at hx⟩
  obtain ⟨next₀, hfirst⟩ := hstart.streams hstream
  obtain ⟨next, values, h⟩ := streams_run hstart hfirst as₂
  refine ⟨next, values, start.added.drop start.removed.length, h.stream, hstart.stream_eq,
    h.shown, fun hnone => ?_⟩
  have hle := hstart.removed_le
  have hlength := h.shown.length_le
  have hall := h.all hnone
  rw [List.length_drop] at hlength
  have hmoment : start.removed.length + values.length ≤
      (run step (start.step .read) as₂).added.length := by
    have := h.added.length_le
    omega
  obtain ⟨pre, post, rfl, hpre⟩ := exists_moment (w := start.step .read) as₂ hall hmoment
  have hbefore : (run step (start.step .read) pre).added <+:
      (run step (start.step .read) (pre ++ post)).added := by
    rw [run_append]
    exact run_added_grows _ post
  have heq : values.length =
      ((run step (start.step .read) pre).added.drop start.removed.length).length := by
    rw [List.length_drop, hpre]
    omega
  refine ⟨List.prefix_of_prefix_length_le (h.added.drop _) h.shown ?_, pre, post, rfl, ?_⟩
  · rw [List.length_drop]
    omega
  · exact (List.prefix_of_prefix_length_le h.shown (hbefore.drop _) heq.le).eq_of_length heq

/-- A stream comes to its end while both values are removed and another one is added. -/
theorem stream_moment_emptied :
    let start : ListWorld ℕ := run step { list := LinkedList.create } [.add 1, .add 2]
    let as₂ : List (ListAction ℕ) := [.read, .remove, .remove, .add 3, .read]
    start.list.stream = .ok [1, 2] ∧ (run step start (.read :: as₂)).stream = .node none [1, 2] ∧
      ∃ pre post, as₂ = pre ++ post ∧
        [1, 2] = (run step start (.read :: pre)).added.drop start.removed.length := by
  intro start as₂
  obtain ⟨next, values, contents, hstream, -, -, hall⟩ :=
    stream_moment (T := ℕ) LinkedList.create (.inr rfl) [.add 1, .add 2] as₂ (by decide)
  have hend : (run step start (.read :: as₂)).stream = .node none [1, 2] := by decide
  obtain ⟨rfl, rfl⟩ := AtomicStream.node.inj (hstream.symm.trans hend)
  exact ⟨by decide, hend, (hall rfl).2⟩

end ListWorld

end ReSTM
