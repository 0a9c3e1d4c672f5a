import ReSTM.Collection.Nodes
import ReSTM.Common.HeapTree
import ReSTM.Common.SearchTree
import ReSTM.Common.WP

/-!
# `TreeSet`

Model of `TreeSet` and `TreeSetNode` (`stm/collection/TreeSet.scala`). Every node is stored under
a pointer, the root under `rootPtr`, and a node is changed under its own pointer. Greater values
are on the left. `compareTo` is the order of the values and agrees with `equals`.

* `add_spec`, `remove_spec`, `contains_spec`: the operations on stored nodes are those of
  `SearchTree` on the tree that is stored.
* `TreeSet.Represents`: the tree that a set holds, where values may be repeated.
-/

namespace ReSTM

open BinaryTree HeapModel WP
open SearchTree hiding insert remove

/-- `case class TreeSetNode` (lines 39–44). -/
structure TreeSetNode (K : Type) where
  value : K
  left : Option Ptr := none
  right : Option Ptr := none
deriving DecidableEq

variable {K : Type}

instance : TreeNode (TreeSetNode K) K where
  val n := n.value
  left n := n.left
  right n := n.right

/-- A transaction on the nodes of a set. -/
abbrev SetTxn (K α : Type) : Type := NodeTxn (TreeSetNode K) α

namespace TreeSetNode

open Nodes

/-- `min` (lines 46–48). -/
def min : ℕ → TreeSetNode K → SetTxn K K
  | 0, _ => throw stackOverflow
  | fuel + 1, n =>
    match n.right with
    | some right => do min fuel (← read right)
    | none => return n.value

/-- `max` (lines 50–52). -/
def max : ℕ → TreeSetNode K → SetTxn K K
  | 0, _ => throw stackOverflow
  | fuel + 1, n =>
    match n.left with
    | some left => do max fuel (← read left)
    | none => return n.value

section Order

variable [LinearOrder K]

/-- `equals` (lines 134–139). -/
def equals (n x : TreeSetNode K) : Bool := n.value = x.value ∧ n.left = x.left ∧ n.right = x.right

/-- `remove` (lines 54–101): whether the node under `self` has been deleted. -/
def remove : ℕ → TreeSetNode K → K → Ptr → SetTxn K Bool
  | 0, _, _, _ => throw stackOverflow
  | fuel + 1, n, newValue, self =>
    if n.value = newValue then
      match n.left with
      | some leftPtr => do
        let leftNode ← read leftPtr
        let minValue ← leftNode.min fuel
        let result ← remove fuel leftNode minValue leftPtr
        if result then write equals self { n with left := none, value := minValue }
        else write equals self { n with value := minValue }
        return false
      | none =>
        match n.right with
        | some rightPtr => do
          let rightNode ← read rightPtr
          let maxValue ← rightNode.max fuel
          let result ← remove fuel rightNode maxValue rightPtr
          if result then write equals self { n with right := none, value := maxValue }
          else write equals self { n with value := maxValue }
          return false
        | none => do
          delete self
          return true
    else if n.value < newValue then
      match n.left with
      | some leftPtr => do
        let result ← remove fuel (← read leftPtr) newValue leftPtr
        if result then write equals self { n with left := none }
        return false
      | none => throw (.noSuchElement "null")
    else
      match n.right with
      | some rightPtr => do
        let result ← remove fuel (← read rightPtr) newValue rightPtr
        if result then write equals self { n with right := none }
        return false
      | none => throw (.noSuchElement "null")

/-- `add` (lines 103–120). -/
def add : ℕ → TreeSetNode K → K → Ptr → SetTxn K Unit
  | 0, _, _, _ => throw stackOverflow
  | fuel + 1, n, newValue, self =>
    if n.value < newValue then
      match n.left with
      | some leftPtr => do add fuel (← read leftPtr) newValue leftPtr
      | none => do
        let newNode ← dynamic { value := newValue }
        write equals self { n with left := some newNode }
    else
      match n.right with
      | some rightPtr => do add fuel (← read rightPtr) newValue rightPtr
      | none => do
        let newNode ← dynamic { value := newValue }
        write equals self { n with right := some newNode }

/-- `contains` (lines 122–130). -/
def contains : ℕ → TreeSetNode K → K → SetTxn K Bool
  | 0, _, _ => throw stackOverflow
  | fuel + 1, n, newValue =>
    if n.value = newValue then return true
    else if n.value < newValue then
      match n.left with
      | some left => do contains fuel (← read left) newValue
      | none => return false
    else
      match n.right with
      | some right => do contains fuel (← read right) newValue
      | none => return false

end Order

/-! ## What the operations do to the tree -/

variable {h : Heap (TreeSetNode K)} {n : TreeSetNode K} {t : BinaryTree K} {F : Finset Ptr}
  {fuel : ℕ}

/-- The trees on the two sides of a node. -/
theorem sides (hh : Held h n t F) : ∃ l r L R, t = node n.value l r ∧
    Stored h n.left l L ∧ Stored h n.right r R ∧ Disjoint L R ∧ F = L ∪ R := hh.sides

/-- `min` reads the value at the end of the path to the right. -/
theorem min_spec (hh : Held h n t F) (hfuel : t.numNodes ≤ fuel) :
    ∃ m, min fuel n h = .ok (m, h) ∧ min? t = some m := by
  induction fuel generalizing n t F with
  | zero => exact absurd hfuel hh.not_numNodes_le_zero
  | succ fuel ih =>
    obtain ⟨l, r, L, R, rfl, -, hr, -, -⟩ := sides hh
    rw [min]
    rcases hr.cases with ⟨hright, rfl, -⟩ | ⟨p, n', G, hright, hget, hheld, -, -⟩
    · rw [hright]
      exact ⟨n.value, rfl, rfl⟩
    · rw [hright]
      obtain ⟨m, hm, hmin⟩ := ih hheld (numNodes_sides hfuel).2
      exact ⟨m, (bind_ok (read_some hget)).trans hm, by rw [min?, hmin]; rfl⟩

/-- `max` reads the value at the end of the path to the left. -/
theorem max_spec (hh : Held h n t F) (hfuel : t.numNodes ≤ fuel) :
    ∃ m, max fuel n h = .ok (m, h) ∧ max? t = some m := by
  induction fuel generalizing n t F with
  | zero => exact absurd hfuel hh.not_numNodes_le_zero
  | succ fuel ih =>
    obtain ⟨l, r, L, R, rfl, hl, -, -, -⟩ := sides hh
    rw [max]
    rcases hl.cases with ⟨hleft, rfl, -⟩ | ⟨p, n', G, hleft, hget, hheld, -, -⟩
    · rw [hleft]
      exact ⟨n.value, rfl, rfl⟩
    · rw [hleft]
      obtain ⟨m, hm, hmax⟩ := ih hheld (numNodes_sides hfuel).1
      exact ⟨m, (bind_ok (read_some hget)).trans hm, by rw [max?, hmax]; rfl⟩

/-- How a removal from the tree under `self` ends: it fails, or it deletes the node under
    `self`, or it leaves a tree there. -/
inductive Removed (h : Heap (TreeSetNode K)) (self : Ptr) (F : Finset Ptr) :
    Except Failure (Bool × Heap (TreeSetNode K)) → Option (BinaryTree K) → Prop
  | failed : Removed h self F (.error (.noSuchElement "null")) none
  | gone {h' : Heap (TreeSetNode K)} (hnone : h'.get self = none) (hext : Extends h F h' ∅) :
      Removed h self F (.ok (true, h')) (some nil)
  | left {h' : Heap (TreeSetNode K)} {t' : BinaryTree K} {F' : Finset Ptr}
      (hs : Stored h' (some self) t' F') (hext : Extends h F h' F') :
      Removed h self F (.ok (false, h')) (some t')

theorem Removed.of_stored {h' : Heap (TreeSetNode K)} {self : Ptr} {t' : BinaryTree K}
    (hs : ∃ F', Stored h' (some self) t' F' ∧ Extends h F h' F') :
    Removed h self F (.ok (false, h')) (some t') := by
  obtain ⟨F', hs, hext⟩ := hs
  exact .left hs hext

/-- A step before a removal that only reads. -/
theorem Removed.bind {β : Type} {x : SetTxn K β} {b : β} {f : β → SetTxn K Bool} {self : Ptr}
    {o : Option (BinaryTree K)} (hx : x h = .ok (b, h)) (hr : Removed h self F (f b h) o) :
    Removed h self F ((x >>= f) h) o :=
  (bind_ok hx).symm ▸ hr

/-- A removal from the child under `p`, and what is done with the node after it. -/
theorem Removed.child {x : SetTxn K Bool} {f : Bool → SetTxn K Bool} {self p : Ptr}
    {G : Finset Ptr} {o : Option (BinaryTree K)} {g : BinaryTree K → BinaryTree K}
    (hx : Removed h p G (x h) o)
    (hgone : ∀ h', Extends h G h' ∅ → Removed h self F (f true h') (some (g nil)))
    (hleft : ∀ h' t' G', Stored h' (some p) t' G' → Extends h G h' G' →
      Removed h self F (f false h') (some (g t'))) :
    Removed h self F ((x >>= f) h) (o.map g) := by
  generalize hres : x h = res at hx
  cases hx with
  | failed => exact (bind_error hres).symm ▸ .failed
  | gone _ hext => exact (bind_ok hres).symm ▸ hgone _ hext
  | left hs hext => exact (bind_ok hres).symm ▸ hleft _ _ _ hs hext

variable [LinearOrder K]

theorem equals_iff {n x : TreeSetNode K} : n.equals x = true ↔ n = x := by
  cases n
  cases x
  simp [equals]

theorem contains_spec (hh : Held h n t F) (hfuel : t.numNodes ≤ fuel) (k : K) :
    n.contains fuel k h = .ok ((find id k t).isSome, h) := by
  induction fuel generalizing n t F with
  | zero => exact absurd hfuel hh.not_numNodes_le_zero
  | succ fuel ih =>
    obtain ⟨l, r, L, R, rfl, hl, hr, -, -⟩ := sides hh
    obtain ⟨hfl, hfr⟩ := numNodes_sides hfuel
    rw [contains, find]
    simp only [id_eq]
    split_ifs
    · rfl
    · rcases hl.cases with ⟨hleft, rfl, -⟩ | ⟨p, n', G, hleft, hget, hheld, -, -⟩
      · rw [hleft]
        rfl
      · rw [hleft]
        exact (bind_ok (read_some hget)).trans (ih hheld hfl)
    · rcases hr.cases with ⟨hright, rfl, -⟩ | ⟨p, n', G, hright, hget, hheld, -, -⟩
      · rw [hright]
        rfl
      · rw [hright]
        exact (bind_ok (read_some hget)).trans (ih hheld hfr)

section Sides

variable {h' : Heap (TreeSetNode K)} {l l' r r' : BinaryTree K} {L L' R R' : Finset Ptr} {p : Ptr}

/-- The node under `p` is written after a change on its left. -/
theorem stored_write_left (m : TreeSetNode K) (hext : Extends h L h' L')
    (hl : Stored h' m.left l' L') (hr : Stored h n.right r R) (hdisj : Disjoint L R)
    (hget : h.get p = some n) (hp : p ∉ L ∪ R) (hright : m.right = n.right) :
    ∃ F', Stored (h'.write equals p m) (some p) (node m.value l' r) F' ∧
      Extends h (insert p (L ∪ R)) (h'.write equals p m) F' := by
  obtain ⟨hheld, hext'⟩ := hext.held_left (m := m) hl hr hdisj hright
  refine ⟨_, hext'.stored_write equals hheld hget hp fun hsame => ?_⟩
  rw [equals_iff.mp hsame]
  exact ⟨rfl, rfl, rfl⟩

/-- The node under `p` is written after a change on its right. -/
theorem stored_write_right (m : TreeSetNode K) (hext : Extends h R h' R')
    (hr : Stored h' m.right r' R') (hl : Stored h n.left l L) (hdisj : Disjoint L R)
    (hget : h.get p = some n) (hp : p ∉ L ∪ R) (hleft : m.left = n.left) :
    ∃ F', Stored (h'.write equals p m) (some p) (node m.value l r') F' ∧
      Extends h (insert p (L ∪ R)) (h'.write equals p m) F' := by
  obtain ⟨hheld, hext'⟩ := hext.held_right (m := m) hr hl hdisj hleft
  refine ⟨_, hext'.stored_write equals hheld hget hp fun hsame => ?_⟩
  rw [equals_iff.mp hsame]
  exact ⟨rfl, rfl, rfl⟩

end Sides

/-- `add` inserts a value below the node under `self`. -/
theorem add_spec {self : Ptr} (hh : Held h n t F) (hget : h.get self = some n) (hp : self ∉ F)
    (hfuel : t.numNodes ≤ fuel) (a : K) :
    ∃ h' F', n.add fuel a self h = .ok ((), h') ∧
      Stored h' (some self) (SearchTree.insert id a t) F' ∧ Extends h (insert self F) h' F' := by
  induction fuel generalizing n t F self with
  | zero => exact absurd hfuel hh.not_numNodes_le_zero
  | succ fuel ih =>
    obtain ⟨l, r, L, R, rfl, hl, hr, hdisj, rfl⟩ := sides hh
    obtain ⟨hfl, hfr⟩ := numNodes_sides hfuel
    have hleaf : Stored (h.alloc { value := a }) (some h.next) (node a nil nil) {h.next} :=
      .leaf Heap.get_alloc_self rfl rfl
    have halloc : Extends h ∅ (h.alloc { value := a }) {h.next} := .alloc
    rw [add, SearchTree.insert]
    simp only [id_eq]
    split_ifs
    · rcases hl.cases with ⟨hleft, rfl, rfl⟩ | ⟨p, c, G, hleft, hget', hheld, hp', rfl⟩
      · rw [hleft]
        obtain ⟨F', hs, hext⟩ :=
          stored_write_left { n with left := some h.next } halloc hleaf hr hdisj hget hp rfl
        exact ⟨_, F', rfl, hs, hext⟩
      · rw [hleft]
        obtain ⟨h', G', hadd, hs, hext⟩ := ih hheld hget' hp' hfl
        obtain ⟨F', hs', hext'⟩ := hext.keep_left (hleft ▸ hs) hr hdisj hget hp
        exact ⟨h', F', (bind_ok (read_some hget')).trans hadd, hs', hext'⟩
    · rcases hr.cases with ⟨hright, rfl, rfl⟩ | ⟨p, c, G, hright, hget', hheld, hp', rfl⟩
      · rw [hright]
        obtain ⟨F', hs, hext⟩ :=
          stored_write_right { n with right := some h.next } halloc hleaf hl hdisj hget hp rfl
        exact ⟨_, F', rfl, hs, hext⟩
      · rw [hright]
        obtain ⟨h', G', hadd, hs, hext⟩ := ih hheld hget' hp' hfr
        obtain ⟨F', hs', hext'⟩ := hext.keep_right (hright ▸ hs) hl hdisj hget hp
        exact ⟨h', F', (bind_ok (read_some hget')).trans hadd, hs', hext'⟩

/-- `remove` removes a value from the tree under `self` as `SearchTree.remove` does. -/
theorem remove_spec {self : Ptr} (hh : Held h n t F) (hget : h.get self = some n) (hp : self ∉ F)
    (hfuel : t.numNodes ≤ fuel) (k : K) :
    Removed h self (insert self F) (n.remove fuel k self h) (SearchTree.remove id max? k t) := by
  induction fuel generalizing n t F self k with
  | zero => exact absurd hfuel hh.not_numNodes_le_zero
  | succ fuel ih =>
    obtain ⟨l, r, L, R, rfl, hl, hr, hdisj, rfl⟩ := sides hh
    obtain ⟨hfl, hfr⟩ := numNodes_sides hfuel
    rw [remove, SearchTree.remove]
    simp only [id_eq]
    split_ifs
    · rcases hl.cases with ⟨hleft, rfl, rfl⟩ | ⟨p, c, G, hleft, hget', hheld, hp', rfl⟩
      · rcases hr.cases with ⟨hright, rfl, rfl⟩ | ⟨p, c, G, hright, hget', hheld, hp', rfl⟩
        · rw [hleft, hright]
          obtain ⟨hnone, hext⟩ := extends_delete hget
          exact .gone hnone (hext.mono
            (Finset.singleton_subset_iff.mpr (Finset.mem_insert_self _ _)) (Finset.Subset.refl _))
        · -- the greatest value on the right takes the place
          obtain ⟨m, hmax, hmax'⟩ := max_spec hheld hfr
          rw [hleft, hright, min?, hmax']
          refine .bind (read_some hget') (.bind hmax (.child (ih hheld hget' hp' hfr m) ?_ ?_))
          · intro h' hext
            exact .of_stored (stored_write_right { value := m } hext .nil hl hdisj hget hp hleft.symm)
          · intro h' t' G' hs hext
            exact .of_stored (stored_write_right { value := m, right := some p } hext hs hl hdisj
              hget hp hleft.symm)
      · -- the least value on the left takes the place
        obtain ⟨m, hmin, hmin'⟩ := min_spec hheld hfl
        rw [hleft, hmin']
        refine .bind (read_some hget') (.bind hmin (.child (ih hheld hget' hp' hfl m) ?_ ?_))
        · intro h' hext
          exact .of_stored (stored_write_left { value := m, right := n.right } hext .nil hr hdisj
            hget hp rfl)
        · intro h' t' G' hs hext
          exact .of_stored (stored_write_left { value := m, left := some p, right := n.right } hext
            hs hr hdisj hget hp rfl)
    · rcases hl.cases with ⟨hleft, rfl, rfl⟩ | ⟨p, c, G, hleft, hget', hheld, hp', rfl⟩
      · rw [hleft]
        exact .failed
      · rw [hleft]
        refine .bind (read_some hget') (.child (ih hheld hget' hp' hfl k) ?_ ?_)
        · intro h' hext
          exact .of_stored (stored_write_left { n with left := none } hext .nil hr hdisj hget hp rfl)
        · intro h' t' G' hs hext
          rw [← hleft] at hs
          exact .of_stored (hext.keep_left hs hr hdisj hget hp)
    · rcases hr.cases with ⟨hright, rfl, rfl⟩ | ⟨p, c, G, hright, hget', hheld, hp', rfl⟩
      · rw [hright]
        exact .failed
      · rw [hright]
        refine .bind (read_some hget') (.child (ih hheld hget' hp' hfr k) ?_ ?_)
        · intro h' hext
          exact .of_stored (stored_write_right { n with right := none } hext .nil hl hdisj hget hp rfl)
        · intro h' t' G' hs hext
          rw [← hright] at hs
          exact .of_stored (hext.keep_right hs hl hdisj hget hp)

end TreeSetNode

/-- What is stored of a set: its nodes, of which the root is under `rootPtr`. A new set has the
    pointer that `create` draws (lines 35–37), with `null` under it. -/
structure TreeSet (K : Type) where
  rootPtr : Ptr := 0
  nodes : Heap (TreeSetNode K) := ⟨[none]⟩
deriving DecidableEq

namespace TreeSet

/-- More than the depth of any tree of stored nodes. -/
def fuel (s : TreeSet K) : ℕ := s.nodes.next + 1

/-- The set holds the tree `t`. -/
def Represents (s : TreeSet K) (t : BinaryTree K) : Prop :=
  s.rootPtr < s.nodes.next ∧
    (s.nodes.get s.rootPtr = none ∧ t = nil ∨ ∃ F, Stored s.nodes (some s.rootPtr) t F)

variable {s : TreeSet K} {t : BinaryTree K}

theorem Represents.cases (hs : Represents s t) : s.nodes.get s.rootPtr = none ∧ t = nil ∨
    ∃ n F, s.nodes.get s.rootPtr = some n ∧ Held s.nodes n t F ∧ s.rootPtr ∉ F ∧
      t.numNodes ≤ s.fuel := by
  rcases hs.2 with hnil | ⟨F, hF⟩
  · exact .inl hnil
  · obtain ⟨n, G, hget, hheld, hp, -⟩ := hF.held
    exact .inr ⟨n, G, hget, hheld, hp, hheld.numNodes_le⟩

variable [LinearOrder K]

/-- `add` (lines 155–161). -/
def add (value : K) (s : TreeSet K) : Except Failure (TreeSet K) :=
  match s.nodes.get s.rootPtr with
  | some r => do
    let (_, nodes) ← r.add s.fuel value s.rootPtr s.nodes
    return { s with nodes := nodes }
  | none => return { s with nodes := s.nodes.write TreeSetNode.equals s.rootPtr { value := value } }

/-- `remove` (lines 163–175). A `NoSuchElementException` is thrown before anything is written. -/
def remove (value : K) (s : TreeSet K) : Except Failure (Bool × TreeSet K) :=
  match s.nodes.get s.rootPtr with
  | some r =>
    match r.remove s.fuel value s.rootPtr s.nodes with
    | .ok (_, nodes) => .ok (true, { s with nodes := nodes })
    | .error (.noSuchElement _) => .ok (false, s)
    | .error e => .error e
  | none => .ok (false, s)

/-- `contains` (lines 177–181). -/
def contains (value : K) (s : TreeSet K) : Except Failure Bool :=
  match s.nodes.get s.rootPtr with
  | some r => (r.contains s.fuel value s.nodes).map (·.1)
  | none => return false

/-! ## The operations on the tree -/

theorem contains_spec (hs : Represents s t) (k : K) :
    s.contains k = .ok (find id k t).isSome := by
  unfold contains
  rcases hs.cases with ⟨hroot, rfl⟩ | ⟨n, F, hroot, hheld, -, hfuel⟩
  · rw [hroot]
    rfl
  · rw [hroot]
    show Except.map _ _ = _
    rw [TreeSetNode.contains_spec hheld hfuel]
    rfl

/-- `add` inserts. -/
theorem add_spec (hs : Represents s t) (k : K) :
    ∃ s', s.add k = .ok s' ∧ Represents s' (SearchTree.insert id k t) := by
  unfold add
  rcases hs.cases with ⟨hroot, rfl⟩ | ⟨n, F, hroot, hheld, hp, hfuel⟩
  · rw [hroot]
    have hget : (s.nodes.write TreeSetNode.equals s.rootPtr { value := k }).get s.rootPtr =
        some { value := k } := by
      unfold Heap.write
      rw [hroot]
      exact Heap.get_set_self hs.1
    refine ⟨_, rfl, ?_, .inr ⟨_, .leaf hget rfl rfl⟩⟩
    show s.rootPtr < (Heap.write _ _ _ _).next
    rw [Heap.next_write]
    exact hs.1
  · obtain ⟨h', F', hadd, hs', hext⟩ := TreeSetNode.add_spec hheld hroot hp hfuel k
    rw [hroot]
    show ∃ s', (n.add _ _ _ _ >>= _) = _ ∧ _
    rw [hadd]
    exact ⟨_, rfl, lt_of_lt_of_le hs.1 hext.next_le, .inr ⟨F', hs'⟩⟩

/-- `remove` removes a value that `SearchTree.remove` finds. -/
theorem remove_spec {t' : BinaryTree K} {k : K} (hs : Represents s t)
    (ht' : SearchTree.remove id max? k t = some t') :
    ∃ s', s.remove k = .ok (true, s') ∧ Represents s' t' := by
  unfold remove
  rcases hs.cases with ⟨hroot, rfl⟩ | ⟨n, F, hroot, hheld, hp, hfuel⟩
  · cases ht'
  · have hrem := TreeSetNode.remove_spec hheld hroot hp hfuel k
    rw [hroot]
    rw [ht'] at hrem
    dsimp only
    generalize n.remove s.fuel k s.rootPtr s.nodes = res at hrem ⊢
    cases hrem with
    | gone hnone hext =>
      exact ⟨_, rfl, lt_of_lt_of_le hs.1 hext.next_le, .inl ⟨hnone, rfl⟩⟩
    | left hs' hext =>
      exact ⟨_, rfl, lt_of_lt_of_le hs.1 hext.next_le, .inr ⟨_, hs'⟩⟩

/-- A value that is not found is not removed, and nothing changes. -/
theorem remove_spec_none {k : K} (hs : Represents s t)
    (ht' : SearchTree.remove id max? k t = none) : s.remove k = .ok (false, s) := by
  unfold remove
  rcases hs.cases with ⟨hroot, rfl⟩ | ⟨n, F, hroot, hheld, hp, hfuel⟩
  · rw [hroot]
  · have hrem := TreeSetNode.remove_spec hheld hroot hp hfuel k
    rw [hroot]
    rw [ht'] at hrem
    dsimp only
    generalize n.remove s.fuel k s.rootPtr s.nodes = res at hrem ⊢
    cases hrem with
    | failed => rfl

/-! ## The values of a set -/

/-- The set holds the values `M`, in a search tree. -/
def Holds (s : TreeSet K) (M : Multiset K) : Prop :=
  ∃ t, Represents s t ∧ Ordered id t ∧ elems t = M

variable {M : Multiset K}

theorem holds_create : Holds ({} : TreeSet K) 0 :=
  ⟨nil, ⟨Nat.zero_lt_one, .inl ⟨rfl, rfl⟩⟩, trivial, rfl⟩

theorem Holds.contains (hs : Holds s M) (k : K) : s.contains k = .ok (decide (k ∈ M)) := by
  obtain ⟨t, hrep, ho, rfl⟩ := hs
  rw [contains_spec hrep, Except.ok.injEq, Bool.eq_iff_iff, find_isSome_iff ho, decide_eq_true_iff]
  simp

theorem Holds.add (hs : Holds s M) (k : K) : ∃ s', s.add k = .ok s' ∧ Holds s' (k ::ₘ M) := by
  obtain ⟨t, hrep, ho, rfl⟩ := hs
  obtain ⟨s', hadd, hrep'⟩ := add_spec hrep k
  exact ⟨s', hadd, _, hrep', ho.insert k, elems_insert⟩

/-- A value that the set holds is removed once. -/
theorem Holds.remove {k : K} (hs : Holds s (k ::ₘ M)) :
    ∃ s', s.remove k = .ok (true, s') ∧ Holds s' M := by
  obtain ⟨t, hrep, ho, hel⟩ := hs
  have hd : Determined id t := fun _ _ _ _ heq => heq
  obtain ⟨t', ht'⟩ := remove_isSome picks_max? ho ⟨k, hel ▸ Multiset.mem_cons_self k M, rfl⟩
  obtain ⟨s', hrem, hrep'⟩ := remove_spec hrep ht'
  obtain ⟨a, rfl, hel'⟩ := elems_remove picks_max? hd ht'
  rw [hel] at hel'
  exact ⟨s', hrem, t', hrep', ho.remove hd ht', ((Multiset.cons_inj_right _).mp hel').symm⟩

end TreeSet

end ReSTM
