import Mathlib.Data.Multiset.Basic
import ReSTM.Collection.Nodes
import ReSTM.Common.HeapTree
import ReSTM.Common.Refinement
import ReSTM.Common.SearchTree
import ReSTM.Common.WP

/-!
# `TreeCollection`

Model of `TreeCollection` and `TreeCollectionNode` (`stm/collection/TreeCollection.scala`). Each
node that `+=` or `get` visits draws one random bit: `coin 0` is the bit of the node itself, the
others are drawn below it. A value may be `null`, which is `none`. The root node is stored under
`rootPtr`, every other node under a pointer of its own. `same` decides which writes are skipped;
in the code it is `equals`. `fuel` bounds the depth of a recursion.

* `TreeCollectionNode.get_spec`, `add_spec`, `stream_spec`: what the operations do to the tree.
* `bag`: the specification, over multisets; `allows_bag`: every run meets it.
-/

namespace ReSTM

open BinaryTree HeapModel Refinement Transition WP
open SearchTree (elems elems_node_left elems_node_right)

/-- `case class TreeCollectionNode` (lines 43–48). -/
structure TreeCollectionNode (T : Type) where
  value : Option T
  left : Option Ptr := none
  right : Option Ptr := none
deriving DecidableEq

variable {T : Type}

instance : TreeNode (TreeCollectionNode T) (Option T) where
  val n := n.value
  left n := n.left
  right n := n.right

/-- A transaction on the nodes of a collection. -/
abbrev CollectionTxn (T α : Type) : Type := NodeTxn (TreeCollectionNode T) α

namespace TreeCollectionNode

open Nodes

/-- `equals` (lines 139–144). -/
def equals [BEq T] (n x : TreeCollectionNode T) : Bool :=
  n.value == x.value && n.left == x.left && n.right == x.right

section Operations

variable (same : TreeCollectionNode T → TreeCollectionNode T → Bool)

/-- What `get` does with the result from its left child (lines 76–84 and 113–120). -/
def leftResult (n : TreeCollectionNode T) (ptr : Ptr)
    (f : CollectionTxn T (Option (TreeCollectionNode T) × Option T)) :
    CollectionTxn T (Option (TreeCollectionNode T) × Option T) := do
  match ← f with
  | (some newVal, revVal) => do
    write same ptr newVal
    return (some n, revVal)
  | (none, revVal) => return (some { n with left := none }, revVal)

/-- What `get` does with the result from its right child (lines 87–95 and 100–108). -/
def rightResult (n : TreeCollectionNode T) (ptr : Ptr)
    (f : CollectionTxn T (Option (TreeCollectionNode T) × Option T)) :
    CollectionTxn T (Option (TreeCollectionNode T) × Option T) := do
  match ← f with
  | (some newVal, revVal) => do
    write same ptr newVal
    return (some n, revVal)
  | (none, revVal) => return (some { n with right := none }, revVal)

/-- `get` (lines 72–125): the node that is left, and the value taken. -/
def get : ℕ → (ℕ → Bool) → TreeCollectionNode T →
    CollectionTxn T (Option (TreeCollectionNode T) × Option T)
  | 0, _, _ => throw stackOverflow
  | fuel + 1, coin, n =>
    let left := n.left.map fun ptr =>
      n.leftResult same ptr (do get fuel (below coin) (← read ptr))
    let right := n.right.map fun ptr =>
      n.rightResult same ptr (do get fuel (below coin) (← read ptr))
    (if coin 0 then left <|> right else right <|> left).getD (return (none, n.value))

/-- `+=` (lines 127–137). -/
def add : ℕ → (ℕ → Bool) → TreeCollectionNode T → Option T →
    CollectionTxn T (TreeCollectionNode T)
  | 0, _, _, _ => throw stackOverflow
  | fuel + 1, coin, n, newValue =>
    if coin 0 then
      match n.left with
      | some leftPtr => do
        write same leftPtr (← add fuel (below coin) (← read leftPtr) newValue)
        return n
      | none => do
        let x ← dynamic { value := newValue }
        return { n with left := some x }
    else
      match n.right with
      | some rightPtr => do
        write same rightPtr (← add fuel (below coin) (← read rightPtr) newValue)
        return n
      | none => do
        let x ← dynamic { value := newValue }
        return { n with right := some x }

end Operations

/-- `stream` (lines 152–158). -/
def stream : ℕ → TreeCollectionNode T → CollectionTxn T (List (Option T))
  | 0, _ => throw stackOverflow
  | fuel + 1, n => do
    let right ← (n.right.map fun ptr => do stream fuel (← read ptr)).getD (return [])
    let left ← (n.left.map fun ptr => do stream fuel (← read ptr)).getD (return [])
    return right ++ [n.value] ++ left

/-! ## What the operations do to the tree -/

variable {h : Heap (TreeCollectionNode T)} {n : TreeCollectionNode T}
  {t : BinaryTree (Option T)} {F : Finset Ptr} {fuel : ℕ}
  {same : TreeCollectionNode T → TreeCollectionNode T → Bool}

/-- Nodes that are the same have the same links. -/
def SameLinks (same : TreeCollectionNode T → TreeCollectionNode T → Bool) : Prop :=
  ∀ n x, same n x = true → n.left = x.left ∧ n.right = x.right

theorem sameLinks_equals [BEq T] : SameLinks (equals (T := T)) := by
  intro n x hsame
  rw [equals, Bool.and_eq_true, Bool.and_eq_true] at hsame
  exact ⟨eq_of_beq hsame.1.2, eq_of_beq hsame.2⟩

theorem sameLinks_never : SameLinks (Heap.never (N := TreeCollectionNode T)) := nofun

/-- The trees on the two sides of a node. -/
theorem sides (hh : Held h n t F) : ∃ l r L R, t = node n.value l r ∧
    Stored h n.left l L ∧ Stored h n.right r R ∧ Disjoint L R ∧ F = L ∪ R := hh.sides

/-- How `get` ends: one value is taken, the node's own if nothing is left of the tree. -/
inductive Taken (h : Heap (TreeCollectionNode T)) (n : TreeCollectionNode T)
    (t : BinaryTree (Option T)) (F : Finset Ptr) :
    Except Failure ((Option (TreeCollectionNode T) × Option T) × Heap (TreeCollectionNode T)) →
      Prop
  | gone (ht : elems t = n.value ::ₘ elems nil) : Taken h n t F (.ok ((none, n.value), h))
  | left {h' : Heap (TreeCollectionNode T)} {n' : TreeCollectionNode T} {x : Option T}
      {t' : BinaryTree (Option T)} {F' : Finset Ptr} (hheld : Held h' n' t' F')
      (hext : Extends h F h' F') (hvalue : n'.value = n.value) (ht : elems t = x ::ₘ elems t') :
      Taken h n t F (.ok ((some n', x), h'))

/-- Nodes that are the same, with the same value, are equal. -/
theorem SameLinks.eq (hsame : SameLinks same) {n x : TreeCollectionNode T} (hs : same n x = true)
    (hvalue : n.value = x.value) : n = x := by
  obtain ⟨hleft, hright⟩ := hsame n x hs
  cases n
  cases x
  simp only at hleft hright hvalue
  rw [hleft, hright, hvalue]

section Sides

variable {l r : BinaryTree (Option T)} {L R G : Finset Ptr} {p : Ptr} {c : TreeCollectionNode T}
  {f : (TreeCollectionNode T → TreeCollectionNode T → Bool) →
    CollectionTxn T (Option (TreeCollectionNode T) × Option T)}
  {res : Except Failure ((Option (TreeCollectionNode T) × Option T) × Heap (TreeCollectionNode T))}

theorem taken_left (hleft : n.left = some p) (hget : h.get p = some c) (hp : p ∉ G)
    (hr : Stored h n.right r R) (hdisj : Disjoint (insert p G) R) (hf : Taken h c l G res)
    (hres : ∀ same, SameLinks same → f same h = res) :
    ∃ res', Taken h n (node n.value l r) (insert p G ∪ R) res' ∧
      ∀ same, SameLinks same → n.leftResult same p (f same) h = res' := by
  cases hf with
  | gone ht =>
    have hext : Extends h (insert p G) h ∅ := .refl (Finset.empty_subset _)
    obtain ⟨hheld, hext'⟩ := hext.held_left (m := { n with left := none }) .nil hr hdisj rfl
    exact ⟨_, .left hheld hext' rfl (elems_node_left ht), fun same hsame =>
      bind_ok (hres same hsame)⟩
  | @left h' c' x t' G' hheld hext hvalue ht =>
    obtain ⟨hstored, hext'⟩ := hext.stored_write Heap.never hheld hget hp nofun
    obtain ⟨hheld', hext''⟩ := hext'.held_left (m := n) (hleft ▸ hstored) hr hdisj rfl
    refine ⟨_, .left hheld' hext'' rfl (elems_node_left ht), fun same hsame => ?_⟩
    refine (bind_ok (hres same hsame)).trans ?_
    show Except.ok ((some n, x), h'.write same p c') = _
    rw [hext.write_eq_never hget hp fun hs => hsame.eq hs hvalue]

theorem taken_right (hright : n.right = some p) (hget : h.get p = some c) (hp : p ∉ G)
    (hl : Stored h n.left l L) (hdisj : Disjoint L (insert p G)) (hf : Taken h c r G res)
    (hres : ∀ same, SameLinks same → f same h = res) :
    ∃ res', Taken h n (node n.value l r) (L ∪ insert p G) res' ∧
      ∀ same, SameLinks same → n.rightResult same p (f same) h = res' := by
  cases hf with
  | gone ht =>
    have hext : Extends h (insert p G) h ∅ := .refl (Finset.empty_subset _)
    obtain ⟨hheld, hext'⟩ := hext.held_right (m := { n with right := none }) .nil hl hdisj rfl
    exact ⟨_, .left hheld hext' rfl (elems_node_right ht), fun same hsame =>
      bind_ok (hres same hsame)⟩
  | @left h' c' x t' G' hheld hext hvalue ht =>
    obtain ⟨hstored, hext'⟩ := hext.stored_write Heap.never hheld hget hp nofun
    obtain ⟨hheld', hext''⟩ := hext'.held_right (m := n) (hright ▸ hstored) hl hdisj rfl
    refine ⟨_, .left hheld' hext'' rfl (elems_node_right ht), fun same hsame => ?_⟩
    refine (bind_ok (hres same hsame)).trans ?_
    show Except.ok ((some n, x), h'.write same p c') = _
    rw [hext.write_eq_never hget hp fun hs => hsame.eq hs hvalue]

end Sides

/-- `get` takes one value, on any path. It does not matter what is skipped. -/
theorem get_spec (hh : Held h n t F) (hfuel : t.numNodes ≤ fuel) (coin : ℕ → Bool) :
    ∃ res, Taken h n t F res ∧ ∀ same, SameLinks same → n.get same fuel coin h = res := by
  induction fuel generalizing n t F coin with
  | zero => exact absurd hfuel hh.not_numNodes_le_zero
  | succ fuel ih =>
    obtain ⟨l, r, L, R, rfl, hl, hr, hdisj, rfl⟩ := sides hh
    obtain ⟨hfl, hfr⟩ := numNodes_sides hfuel
    -- what each side gives, if it is there
    have hleft : ∀ p, n.left = some p → ∃ res, Taken h n (node n.value l r) (L ∪ R) res ∧
        ∀ same, SameLinks same →
          n.leftResult same p (do get same fuel (below coin) (← read p)) h = res := by
      intro p hp
      rcases hl.cases with ⟨hnone, -, -⟩ | ⟨q, c, G, hsome, hget, hheld, hq, rfl⟩
      · rw [hp] at hnone
        cases hnone
      · obtain rfl : p = q := Option.some.inj (hp.symm.trans hsome)
        obtain ⟨res, htaken, hres⟩ := ih hheld hfl (below coin)
        exact taken_left hp hget hq hr hdisj htaken fun same hsame =>
          (bind_ok (read_some hget)).trans (hres same hsame)
    have hright : ∀ p, n.right = some p → ∃ res, Taken h n (node n.value l r) (L ∪ R) res ∧
        ∀ same, SameLinks same →
          n.rightResult same p (do get same fuel (below coin) (← read p)) h = res := by
      intro p hp
      rcases hr.cases with ⟨hnone, -, -⟩ | ⟨q, c, G, hsome, hget, hheld, hq, rfl⟩
      · rw [hp] at hnone
        cases hnone
      · obtain rfl : p = q := Option.some.inj (hp.symm.trans hsome)
        obtain ⟨res, htaken, hres⟩ := ih hheld hfr (below coin)
        exact taken_right hp hget hq hl hdisj htaken fun same hsame =>
          (bind_ok (read_some hget)).trans (hres same hsame)
    simp only [get]
    cases hnl : n.left with
    | some p =>
      cases hnr : n.right with
      | some q =>
        split_ifs
        · exact hleft p hnl
        · exact hright q hnr
      | none => split_ifs <;> exact hleft p hnl
    | none =>
      cases hnr : n.right with
      | some q => split_ifs <;> exact hright q hnr
      | none =>
        rw [hnl] at hl
        rw [hnr] at hr
        obtain ⟨rfl, -⟩ := Stored.none_iff.mp hl
        obtain ⟨rfl, -⟩ := Stored.none_iff.mp hr
        have hgone : Taken h n (node n.value nil nil) (L ∪ R) (.ok ((none, n.value), h)) :=
          .gone rfl
        split_ifs <;> exact ⟨_, hgone, fun _ _ => rfl⟩

/-- `+=` adds one value, on any path, and keeps the node's own. It does not matter what is
    skipped. -/
theorem add_spec (hh : Held h n t F) (hfuel : t.numNodes ≤ fuel) (coin : ℕ → Bool)
    (v : Option T) :
    ∃ n' h' t' F', (∀ same, SameLinks same → n.add same fuel coin v h = .ok (n', h')) ∧
      Held h' n' t' F' ∧ Extends h F h' F' ∧ n'.value = n.value ∧ elems t' = v ::ₘ elems t := by
  induction fuel generalizing n t F coin with
  | zero => exact absurd hfuel hh.not_numNodes_le_zero
  | succ fuel ih =>
    obtain ⟨l, r, L, R, rfl, hl, hr, hdisj, rfl⟩ := sides hh
    obtain ⟨hfl, hfr⟩ := numNodes_sides hfuel
    -- a new leaf
    have hleaf : Stored (h.alloc { value := v }) (some h.next) (node v nil nil) {h.next} :=
      .leaf Heap.get_alloc_self rfl rfl
    have halloc : Extends h ∅ (h.alloc { value := v }) {h.next} := .alloc
    simp only [add]
    split_ifs
    · rcases hl.cases with ⟨hleft, rfl, rfl⟩ | ⟨p, c, G, hleft, hget, hheld, hp, rfl⟩
      · rw [hleft]
        obtain ⟨hheld', hext⟩ :=
          halloc.held_left (m := { n with left := some h.next }) hleaf hr hdisj rfl
        exact ⟨_, _, _, _, fun _ _ => rfl, hheld', hext, rfl, elems_node_left rfl⟩
      · rw [hleft]
        obtain ⟨c', h', l', G', hadd, hheld', hext, hvalue, hel⟩ := ih hheld hfl (below coin)
        obtain ⟨hstored, hext'⟩ := hext.stored_write Heap.never hheld' hget hp nofun
        obtain ⟨hheld'', hext''⟩ := hext'.held_left (m := n) (hleft ▸ hstored) hr hdisj rfl
        refine ⟨n, _, _, _, fun same hsame => ?_, hheld'', hext'', rfl, elems_node_left hel⟩
        refine (bind_ok (read_some hget)).trans ((bind_ok (hadd same hsame)).trans ?_)
        show Except.ok (n, h'.write same p c') = _
        rw [hext.write_eq_never hget hp fun hs => hsame.eq hs hvalue]
    · rcases hr.cases with ⟨hright, rfl, rfl⟩ | ⟨p, c, G, hright, hget, hheld, hp, rfl⟩
      · rw [hright]
        obtain ⟨hheld', hext⟩ :=
          halloc.held_right (m := { n with right := some h.next }) hleaf hl hdisj rfl
        exact ⟨_, _, _, _, fun _ _ => rfl, hheld', hext, rfl, elems_node_right rfl⟩
      · rw [hright]
        obtain ⟨c', h', r', G', hadd, hheld', hext, hvalue, hel⟩ := ih hheld hfr (below coin)
        obtain ⟨hstored, hext'⟩ := hext.stored_write Heap.never hheld' hget hp nofun
        obtain ⟨hheld'', hext''⟩ := hext'.held_right (m := n) (hright ▸ hstored) hl hdisj rfl
        refine ⟨n, _, _, _, fun same hsame => ?_, hheld'', hext'', rfl, elems_node_right hel⟩
        refine (bind_ok (read_some hget)).trans ((bind_ok (hadd same hsame)).trans ?_)
        show Except.ok (n, h'.write same p c') = _
        rw [hext.write_eq_never hget hp fun hs => hsame.eq hs hvalue]

/-- `stream` lists the values. -/
theorem stream_spec (hh : Held h n t F) (hfuel : t.numNodes ≤ fuel) :
    ∃ xs, n.stream fuel h = .ok (xs, h) ∧ (xs : Multiset (Option T)) = elems t := by
  induction fuel generalizing n t F with
  | zero => exact absurd hfuel hh.not_numNodes_le_zero
  | succ fuel ih =>
    obtain ⟨l, r, L, R, rfl, hl, hr, -, -⟩ := sides hh
    obtain ⟨hfl, hfr⟩ := numNodes_sides hfuel
    -- what each side gives
    have hside : ∀ o s G, Stored h o s G → s.numNodes ≤ fuel → ∃ xs,
        ((o.map fun ptr => do stream fuel (← read ptr)).getD (return []) :
          CollectionTxn T (List (Option T))) h = .ok (xs, h) ∧
        (xs : Multiset (Option T)) = elems s := by
      intro o s G hs hfs
      rcases hs.cases with ⟨rfl, rfl, -⟩ | ⟨p, c, G, rfl, hget, hheld, -, -⟩
      · exact ⟨[], rfl, rfl⟩
      · obtain ⟨xs, hxs, hel⟩ := ih hheld hfs
        exact ⟨xs, (bind_ok (read_some hget)).trans hxs, hel⟩
    obtain ⟨ys, hys, hely⟩ := hside _ _ _ hr hfr
    obtain ⟨zs, hzs, helz⟩ := hside _ _ _ hl hfl
    refine ⟨ys ++ [n.value] ++ zs, (bind_ok hys).trans ((bind_ok hzs).trans rfl), ?_⟩
    rw [SearchTree.elems_node, ← hely, ← helz, ← Multiset.coe_add, ← Multiset.coe_add,
      Multiset.coe_singleton, Multiset.add_comm _ {n.value}, Multiset.singleton_add,
      Multiset.cons_add, Multiset.add_comm]

end TreeCollectionNode

/-- What is stored of a collection: the value of `rootPtr`, if it has one, and the other nodes. -/
structure TreeCollection (T : Type) where
  root : Option (Option (TreeCollectionNode T)) := none
  nodes : Heap (TreeCollectionNode T) := {}
deriving DecidableEq

namespace TreeCollection

/-- `apply` (lines 38–39). -/
def create : TreeCollection T := { root := some none }

/-- More than the depth of any tree of stored nodes. -/
def fuel (c : TreeCollection T) : ℕ := c.nodes.next + 1

section Operations

variable (same : TreeCollectionNode T → TreeCollectionNode T → Bool)

/-- `equals` of the values of `rootPtr`. -/
def sameRoot : Option (TreeCollectionNode T) → Option (TreeCollectionNode T) → Bool
  | some n, some x => same n x
  | none, none => true
  | _, _ => false

/-- `rootPtr.write(value)`. -/
def writeRoot (c : TreeCollection T) (value : Option (TreeCollectionNode T)) : TreeCollection T :=
  if c.root.any (sameRoot same value) then c else { c with root := some value }

/-- `add` (lines 202–206). -/
def add (coin : ℕ → Bool) (value : Option T) (c : TreeCollection T) :
    Except Failure (Unit × TreeCollection T) :=
  match c.root.join with
  | some r => do
    let (newRootData, nodes) ← r.add same c.fuel coin value c.nodes
    return ((), writeRoot same { c with nodes := nodes } (some newRootData))
  | none => return ((), c.writeRoot same (some { value := value }))

/-- `get` (lines 208–214). `Option(newRootData._2)` of `null` is `None`. -/
def get (coin : ℕ → Bool) (c : TreeCollection T) : Except Failure (Option T × TreeCollection T) :=
  match c.root.join with
  | some value => do
    let (newRootData, nodes) ← value.get same c.fuel coin c.nodes
    return (newRootData.2, writeRoot same { c with nodes := nodes } newRootData.1)
  | none => return (none, c)

end Operations

/-- `stream` (lines 242–246). -/
def stream (c : TreeCollection T) : Except Failure (List (Option T)) :=
  match c.root.join with
  | some x => (x.stream c.fuel c.nodes).map (·.1)
  | none => return []

/-- `size` (lines 238–240). -/
def size (c : TreeCollection T) : Except Failure ℕ := c.stream.map List.length

/-! ## The values of a collection -/

/-- The collection holds the values `M`. -/
def Holds (c : TreeCollection T) (M : Multiset (Option T)) : Prop :=
  match c.root.join with
  | some r => ∃ t F, Held c.nodes r t F ∧ elems t = M
  | none => M = 0

variable {c : TreeCollection T} {M : Multiset (Option T)}
  {same : TreeCollectionNode T → TreeCollectionNode T → Bool}

theorem Holds.cases (hc : Holds c M) : c.root.join = none ∧ M = 0 ∨
    ∃ r t F, c.root.join = some r ∧ Held c.nodes r t F ∧ elems t = M ∧ t.numNodes ≤ c.fuel := by
  unfold Holds at hc
  split at hc
  · obtain ⟨t, F, hheld, hel⟩ := hc
    exact .inr ⟨_, t, F, ‹_›, hheld, hel, hheld.numNodes_le⟩
  · exact .inl ⟨‹_›, hc⟩

/-- A root that is left as it is has the links of the new one, and must have its value. -/
theorem writeRoot_some (hsame : TreeCollectionNode.SameLinks same) {r : TreeCollectionNode T}
    (hval : ∀ r', c.root.join = some r' → r.value = r'.value) :
    c.writeRoot same (some r) = { c with root := some (some r) } := by
  unfold writeRoot
  split_ifs with hany
  · obtain ⟨o, hroot, hs⟩ := (Option.any_eq_true _ _).mp hany
    cases o with
    | none => cases hs
    | some r' => rw [hsame.eq hs (hval r' (by rw [hroot]; rfl)), ← hroot]
  · rfl

theorem writeRoot_none : c.writeRoot same none = { c with root := some none } := by
  unfold writeRoot
  split_ifs with hany
  · obtain ⟨o, hroot, hs⟩ := (Option.any_eq_true _ _).mp hany
    cases o with
    | none => rw [← hroot]
    | some r' => cases hs
  · rfl

/-- `add` adds a value. It does not matter what is skipped. -/
theorem Holds.add (hc : Holds c M) (coin : ℕ → Bool) (v : Option T) :
    ∃ c', (∀ same, TreeCollectionNode.SameLinks same → c.add same coin v = .ok ((), c')) ∧
      Holds c' (v ::ₘ M) := by
  unfold TreeCollection.add
  rcases hc.cases with ⟨hroot, rfl⟩ | ⟨r, t, F, hroot, hheld, rfl, hfuel⟩
  · rw [hroot]
    refine ⟨{ c with root := some (some { value := v }) }, fun same hsame => ?_,
      node v nil nil, ∅ ∪ ∅, ?_, rfl⟩
    · show Except.ok ((), c.writeRoot same _) = _
      rw [writeRoot_some hsame]
      intro r' hr'
      rw [hroot] at hr'
      cases hr'
    · exact Held.node (N := TreeCollectionNode T) .nil .nil (Finset.disjoint_empty_left ∅)
  · obtain ⟨r', h', t', F', hadd, hheld', -, hvalue, hel⟩ :=
      TreeCollectionNode.add_spec hheld hfuel coin v
    rw [hroot]
    refine ⟨{ root := some (some r'), nodes := h' }, fun same hsame => ?_, t', F', hheld', hel⟩
    show (r.add same _ _ _ _ >>= _) = _
    rw [hadd same hsame]
    show Except.ok ((), writeRoot same ⟨c.root, h'⟩ _) = _
    rw [writeRoot_some (c := ⟨c.root, h'⟩) hsame]
    intro r'' hr''
    obtain rfl := Option.some.inj (hroot.symm.trans hr'')
    exact hvalue

/-- `get` of an empty collection is `None`. -/
theorem Holds.get_zero (hc : Holds c 0)
    (same : TreeCollectionNode T → TreeCollectionNode T → Bool) (coin : ℕ → Bool) :
    c.get same coin = .ok (none, c) := by
  unfold TreeCollection.get
  rcases hc.cases with ⟨hroot, -⟩ | ⟨r, t, F, hroot, hheld, hel, hfuel⟩
  · rw [hroot]
    rfl
  · obtain ⟨l, r, L, R, rfl, -⟩ := TreeCollectionNode.sides hheld
    exact absurd hel (Multiset.cons_ne_zero)

/-- `get` takes one value. It does not matter what is skipped. -/
theorem Holds.get (hc : Holds c M) (hM : M ≠ 0) (coin : ℕ → Bool) :
    ∃ x c' M', (∀ same, TreeCollectionNode.SameLinks same → c.get same coin = .ok (x, c')) ∧
      Holds c' M' ∧ M = x ::ₘ M' := by
  unfold TreeCollection.get
  rcases hc.cases with ⟨hroot, rfl⟩ | ⟨r, t, F, hroot, hheld, rfl, hfuel⟩
  · exact absurd rfl hM
  · obtain ⟨res, htaken, hget⟩ := TreeCollectionNode.get_spec hheld hfuel coin
    rw [hroot]
    cases htaken with
    | gone ht =>
      refine ⟨r.value, { c with root := some none }, 0, fun same hsame => ?_, rfl, ht⟩
      show (r.get same _ _ _ >>= _) = _
      rw [hget same hsame]
      show Except.ok (_, c.writeRoot same none) = _
      rw [writeRoot_none]
    | @left h' r' x t' F' hheld' _ hvalue ht =>
      refine ⟨x, { root := some (some r'), nodes := h' }, _, fun same hsame => ?_,
        ⟨t', F', hheld', rfl⟩, ht⟩
      show (r.get same _ _ _ >>= _) = _
      rw [hget same hsame]
      show Except.ok (_, writeRoot same ⟨c.root, h'⟩ _) = _
      rw [writeRoot_some (c := ⟨c.root, h'⟩) hsame]
      intro r'' hr''
      obtain rfl := Option.some.inj (hroot.symm.trans hr'')
      exact hvalue

/-- `stream` lists the values. -/
theorem Holds.stream (hc : Holds c M) :
    ∃ xs, c.stream = .ok xs ∧ (xs : Multiset (Option T)) = M := by
  unfold TreeCollection.stream
  rcases hc.cases with ⟨hroot, rfl⟩ | ⟨r, t, F, hroot, hheld, rfl, hfuel⟩
  · rw [hroot]
    exact ⟨[], rfl, rfl⟩
  · obtain ⟨xs, hxs, hel⟩ := TreeCollectionNode.stream_spec hheld hfuel
    rw [hroot]
    show ∃ xs, Except.map _ _ = _ ∧ _
    rw [hxs]
    exact ⟨xs, rfl, hel⟩

/-- `size` counts them. -/
theorem Holds.size (hc : Holds c M) : c.size = .ok M.card := by
  obtain ⟨xs, hxs, rfl⟩ := hc.stream
  rw [TreeCollection.size, hxs]
  rfl

/-! ## Runs -/

/-- A call, with the random bits that it draws. -/
inductive Call (T : Type)
  | add (value : Option T) (coin : ℕ → Bool)
  | get (coin : ℕ → Bool)
  | stream
  | size

/-- What a call returns. -/
inductive Result (T : Type)
  | unit
  | value (value : Option T)
  | stream (values : List (Option T))
  | size (n : ℕ)
deriving DecidableEq

/-- One call, as a transaction. -/
def step (same : TreeCollectionNode T → TreeCollectionNode T → Bool) (c : TreeCollection T) :
    Call T → Except Failure (Result T) × TreeCollection T
  | .add value coin => attempt ((c.add same coin value).map fun r => (.unit, r.2)) c
  | .get coin => attempt ((c.get same coin).map fun r => (.value r.1, r.2)) c
  | .stream => (c.stream.map .stream, c)
  | .size => (c.size.map .size, c)

/-- A bag: `get` takes any one of the values, and returns `Option` of it. -/
def bag (M : Multiset (Option T)) (call : Call T) (r : Except Failure (Result T))
    (M' : Multiset (Option T)) : Prop :=
  match call with
  | .add value _ => r = .ok .unit ∧ M' = value ::ₘ M
  | .get _ => M = 0 ∧ M' = 0 ∧ r = .ok (.value none) ∨ ∃ x, M = x ::ₘ M' ∧ r = .ok (.value x)
  | .stream => M' = M ∧ ∃ xs : List (Option T), r = .ok (.stream xs) ∧ (xs : Multiset _) = M
  | .size => M' = M ∧ r = .ok (.size M.card)

/-- Every call meets the specification. It does not matter what is skipped. -/
theorem Holds.step (hc : Holds c M) (call : Call T) :
    ∃ r c' M', (∀ same, TreeCollectionNode.SameLinks same →
      TreeCollection.step same c call = (r, c')) ∧ bag M call r M' ∧ Holds c' M' := by
  cases call with
  | add value coin =>
    obtain ⟨c', hadd, hc'⟩ := hc.add coin value
    refine ⟨_, c', _, fun same hsame => ?_, ⟨rfl, rfl⟩, hc'⟩
    rw [TreeCollection.step, hadd same hsame]
    rfl
  | get coin =>
    by_cases hM : M = 0
    · subst hM
      refine ⟨_, c, 0, fun same _ => ?_, .inl ⟨rfl, rfl, rfl⟩, hc⟩
      rw [TreeCollection.step, hc.get_zero same coin]
      rfl
    · obtain ⟨x, c', M', hget, hc', hx⟩ := hc.get hM coin
      refine ⟨_, c', M', fun same hsame => ?_, .inr ⟨x, hx, rfl⟩, hc'⟩
      rw [TreeCollection.step, hget same hsame]
      rfl
  | stream =>
    obtain ⟨xs, hxs, hel⟩ := hc.stream
    refine ⟨_, c, M, fun same _ => ?_, ⟨rfl, xs, rfl, hel⟩, hc⟩
    rw [TreeCollection.step, hxs]
    rfl
  | size =>
    refine ⟨_, c, M, fun same _ => ?_, ⟨rfl, rfl⟩, hc⟩
    rw [TreeCollection.step, hc.size]
    rfl

theorem simulates_bag (hsame : TreeCollectionNode.SameLinks same) :
    Simulates (step same) bag (Holds (T := T)) := by
  intro c M call hc
  obtain ⟨r, c', M', hstep, hbag, hc'⟩ := hc.step call
  rw [hstep same hsame]
  exact ⟨M', hbag, hc'⟩

/-- The code's calls. -/
abbrev call [BEq T] : TreeCollection T → Call T → Except Failure (Result T) × TreeCollection T :=
  step TreeCollectionNode.equals

/-- A `TreeCollection` is a bag, whatever the bits are. -/
theorem allows_bag [BEq T] {c : TreeCollection T} (hc : c.root.join = none)
    (calls : List (Call T)) : ∃ M, Allows bag 0 calls (results call c calls) M := by
  have hc' : Holds c 0 := by
    unfold Holds
    rw [hc]
  obtain ⟨M, hallows, -⟩ :=
    (simulates_bag TreeCollectionNode.sameLinks_equals).allows hc' calls
  exact ⟨M, hallows⟩

theorem allows_bag_create : ∃ M, Allows bag 0 [.add (some 1) fun _ => true, .get fun _ => false]
    (results call (create : TreeCollection ℕ)
      [.add (some 1) fun _ => true, .get fun _ => false]) M :=
  allows_bag rfl _

/-- A value that is `null` is taken, and `get` returns `None` as if the collection were empty. -/
theorem get_null : results call (create : TreeCollection ℕ)
    [.add none fun _ => true, .size, .get fun _ => true, .size] =
    [.ok .unit, .ok (.size 1), .ok (.value none), .ok (.size 0)] := rfl

end TreeCollection

end ReSTM
