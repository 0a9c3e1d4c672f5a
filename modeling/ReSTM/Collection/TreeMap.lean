import ReSTM.Collection.TreeMapNode

/-!
# `TreeMap`

Model of `TreeMap` (`stm/collection/TreeMap.scala`). The root node is stored under `rootPtr`,
which may hold `None`.

* `Represents`: the tree that a map holds.
* `get_spec`, `contains_spec`, `add_spec`, `remove_spec`: the operations on a map are those of
  `SearchTree` on the tree that it holds.
-/

namespace ReSTM

open BinaryTree HeapModel WP
open SearchTree hiding insert

variable {T V : Type}

/-- What is stored of a map: the value of `rootPtr`, if it has one, and the other nodes. -/
structure TreeMap (T V : Type) where
  root : Option (Option (BinaryTreeMapNode T V)) := none
  nodes : Heap (BinaryTreeMapNode T V) := {}
deriving DecidableEq

namespace TreeMap

/-- More than the depth of any tree of stored nodes. -/
def fuel (m : TreeMap T V) : ℕ := m.nodes.next + 1

/-- The tree of the stored nodes. -/
def tree (m : TreeMap T V) : BinaryTree (T × Option V) :=
  match m.root.join with
  | some r =>
    node (r.key, r.value) (readTree m.nodes m.fuel r.left) (readTree m.nodes m.fuel r.right)
  | none => nil

/-- The map holds the tree `t`. -/
def Represents (m : TreeMap T V) (t : BinaryTree (T × Option V)) : Prop :=
  match m.root.join with
  | some r => ∃ F, Held m.nodes r t F
  | none => t = nil

variable {m : TreeMap T V} {t : BinaryTree (T × Option V)}

theorem Represents.cases (hm : Represents m t) :
    m.root.join = none ∧ t = nil ∨ ∃ r F, m.root.join = some r ∧ Held m.nodes r t F ∧
      t.numNodes ≤ m.fuel := by
  unfold Represents at hm
  split at hm
  · obtain ⟨F, hheld⟩ := hm
    exact .inr ⟨_, F, ‹_›, hheld, hheld.numNodes_le⟩
  · exact .inl ⟨‹_›, hm⟩

theorem represents_of_empty (hm : m.root.join = none) : Represents m nil := by
  unfold Represents
  rw [hm]

theorem Represents.tree_eq (hm : Represents m t) : m.tree = t := by
  unfold tree
  rcases hm.cases with ⟨hroot, rfl⟩ | ⟨r, F, hroot, hheld, hfuel⟩
  · rw [hroot]
  · obtain ⟨l, r', L, R, rfl, hl, hr, -, -⟩ := BinaryTreeMapNode.sides hheld
    obtain ⟨hfl, hfr⟩ := numNodes_sides (Nat.le_succ_of_le hfuel)
    rw [hroot]
    show node _ _ _ = _
    rw [hl.readTree_eq hfl, hr.readTree_eq hfr]

section Root

variable (same : BinaryTreeMapNode T V → BinaryTreeMapNode T V → Bool)

/-- `equals` of the values of `rootPtr`, for nodes that are the same if `same` says so. -/
def sameRoot : Option (BinaryTreeMapNode T V) → Option (BinaryTreeMapNode T V) → Bool
  | some n, some x => same n x
  | none, none => true
  | _, _ => false

/-- `rootPtr.write(value)`, where `same` decides which writes are skipped. -/
def writeRootWith (m : TreeMap T V) (value : Option (BinaryTreeMapNode T V)) : TreeMap T V :=
  if m.root.any (sameRoot same value) then m else { m with root := some value }

variable {same}

/-- A root that is left as it is has the links and the key of the new one. -/
theorem writeRootWith_some (hsame : BinaryTreeMapNode.SameKey same) {r : BinaryTreeMapNode T V}
    (hval : ∀ r', m.root.join = some r' → r.key = r'.key → r.left = r'.left →
      r.right = r'.right → r.value = r'.value) :
    m.writeRootWith same (some r) = { m with root := some (some r) } := by
  unfold writeRootWith
  split_ifs with hany
  · obtain ⟨o, hroot, hs⟩ := (Option.any_eq_true _ _).mp hany
    cases o with
    | none => cases hs
    | some r' =>
      rw [hsame.eq hs (hval r' (by rw [hroot]; rfl)), ← hroot]
  · rfl

theorem writeRootWith_none : m.writeRootWith same none = { m with root := some none } := by
  unfold writeRootWith
  split_ifs with hany
  · obtain ⟨o, hroot, hs⟩ := (Option.any_eq_true _ _).mp hany
    cases o with
    | none => rw [← hroot]
    | some r' => cases hs
  · rfl

end Root

variable [LinearOrder T]

/-- `equals` of the values of `rootPtr`. -/
def equals : Option (BinaryTreeMapNode T V) → Option (BinaryTreeMapNode T V) → Bool
  | some n, some x => n.equals x
  | none, none => true
  | _, _ => false

/-- `rootPtr.write(value)`. -/
def writeRoot (m : TreeMap T V) (value : Option (BinaryTreeMapNode T V)) : TreeMap T V :=
  if m.root.any (equals value) then m else { m with root := some value }

/-- `add` (lines 47–51). -/
def add (key : T) (value : Option V) (m : TreeMap T V) : Except Failure (TreeMap T V) :=
  match m.root.join with
  | some r => do
    let (newRootData, nodes) ← r.add m.fuel (key, value) m.nodes
    return writeRoot { m with nodes := nodes } (some newRootData)
  | none => return m.writeRoot (some { key := key, value := value })

/-- `remove` (lines 53–56). -/
def remove (value : T) (m : TreeMap T V) : Except Failure (TreeMap T V) :=
  match m.root.join with
  | some r => do
    let (newRootData, nodes) ← r.remove m.fuel value m.nodes
    return writeRoot { m with nodes := nodes } newRootData
  | none => return m.writeRoot none

section Operations

variable (same : BinaryTreeMapNode T V → BinaryTreeMapNode T V → Bool)

/-- `add`, where `same` decides which writes are skipped. -/
def addWith (key : T) (value : Option V) (m : TreeMap T V) : Except Failure (TreeMap T V) :=
  match m.root.join with
  | some r => do
    let (newRootData, nodes) ← r.addWith same m.fuel (key, value) m.nodes
    return writeRootWith same { m with nodes := nodes } (some newRootData)
  | none => return m.writeRootWith same (some { key := key, value := value })

/-- `remove`, where `same` decides which writes are skipped. -/
def removeWith (value : T) (m : TreeMap T V) : Except Failure (TreeMap T V) :=
  match m.root.join with
  | some r => do
    let (newRootData, nodes) ← r.removeWith same m.fuel value m.nodes
    return writeRootWith same { m with nodes := nodes } newRootData
  | none => return m.writeRootWith same none

end Operations

/-- `contains` (lines 58–60). -/
def contains (value : T) (m : TreeMap T V) : Except Failure Bool :=
  match m.root.join with
  | some r => (r.contains m.fuel value m.nodes).map (·.1)
  | none => return false

/-- `get` (lines 62–64). -/
def get (value : T) (m : TreeMap T V) : Except Failure (Option V) :=
  match m.root.join with
  | some r => (r.get m.fuel value m.nodes).map (·.1)
  | none => return none

/-! ## The operations on the tree -/

variable {F : Finset Ptr}

theorem contains_spec (hm : Represents m t) (k : T) :
    m.contains k = .ok (find Prod.fst k t).isSome := by
  unfold contains
  rcases hm.cases with ⟨hroot, rfl⟩ | ⟨r, F, hroot, hheld, hfuel⟩
  · rw [hroot]
    rfl
  · rw [hroot]
    show Except.map _ _ = _
    rw [BinaryTreeMapNode.contains_spec hheld hfuel]
    rfl

theorem get_spec (hm : Represents m t) (k : T) :
    m.get k = .ok ((find Prod.fst k t).bind (·.2)) := by
  unfold get
  rcases hm.cases with ⟨hroot, rfl⟩ | ⟨r, F, hroot, hheld, hfuel⟩
  · rw [hroot]
    rfl
  · rw [hroot]
    show Except.map _ _ = _
    rw [BinaryTreeMapNode.get_spec hheld hfuel]
    rfl

variable {same : BinaryTreeMapNode T V → BinaryTreeMapNode T V → Bool}

theorem writeRootWith_equals (m : TreeMap T V) (o : Option (BinaryTreeMapNode T V)) :
    m.writeRootWith BinaryTreeMapNode.equals o = m.writeRoot o := by
  have heq : sameRoot BinaryTreeMapNode.equals o = equals o := by
    funext x
    cases o <;> cases x <;> rfl
  rw [writeRootWith, writeRoot, heq]

theorem addWith_equals (m : TreeMap T V) (k : T) (v : Option V) :
    m.addWith BinaryTreeMapNode.equals k v = m.add k v := by
  simp only [addWith, add, BinaryTreeMapNode.addWith_equals, writeRootWith_equals]

theorem removeWith_equals (m : TreeMap T V) (k : T) :
    m.removeWith BinaryTreeMapNode.equals k = m.remove k := by
  simp only [removeWith, remove, BinaryTreeMapNode.removeWith_equals, writeRootWith_equals]

/-- `add` inserts. It does not matter what is skipped. -/
theorem addWith_spec (hm : Represents m t) (k : T) (v : Option V) :
    ∃ m', (∀ same, BinaryTreeMapNode.SameKey same → m.addWith same k v = .ok m') ∧
      Represents m' (SearchTree.insert Prod.fst (k, v) t) := by
  unfold addWith
  rcases hm.cases with ⟨hroot, rfl⟩ | ⟨r, F, hroot, hheld, hfuel⟩
  · rw [hroot]
    refine ⟨{ m with root := some (some { key := k, value := v }) }, fun same hsame => ?_,
      ∅ ∪ ∅, ?_⟩
    · show Except.ok (m.writeRootWith same _) = _
      rw [writeRootWith_some hsame]
      intro r' hr'
      rw [hroot] at hr'
      cases hr'
    · exact Held.node (N := BinaryTreeMapNode T V) .nil .nil (Finset.disjoint_empty_left ∅)
  · obtain ⟨r', h', F', hadd, hheld', -, -, hvalue⟩ :=
      BinaryTreeMapNode.addWith_spec hheld hfuel (k, v)
    rw [hroot]
    refine ⟨{ root := some (some r'), nodes := h' }, fun same hsame => ?_, F', hheld'⟩
    show (r.addWith same _ _ _ >>= _) = _
    rw [hadd same hsame]
    show Except.ok (writeRootWith same ⟨m.root, h'⟩ _) = _
    rw [writeRootWith_some hsame]
    intro r'' hr'' _ _ _
    obtain rfl := Option.some.inj (hroot.symm.trans hr'')
    exact hvalue

/-- `add` inserts. -/
theorem add_spec (hm : Represents m t) (k : T) (v : Option V) :
    ∃ m', m.add k v = .ok m' ∧ Represents m' (SearchTree.insert Prod.fst (k, v) t) := by
  obtain ⟨m', hadd, hm'⟩ := addWith_spec hm k v
  refine ⟨m', ?_, hm'⟩
  rw [← addWith_equals]
  exact hadd _ BinaryTreeMapNode.sameKey_equals

/-- A lossless removal: it does not matter what is skipped. -/
theorem removeWith_eq_never [DecidableEq V] (hsame : BinaryTreeMapNode.SameKey same)
    (hm : Represents m t) {k : T} (hl : BinaryTreeMapNode.lossless k t) :
    m.removeWith same k = m.removeWith Heap.never k := by
  unfold removeWith
  rcases hm.cases with ⟨hroot, rfl⟩ | ⟨r, F, hroot, hheld, hfuel⟩
  · rw [hroot]
    show Except.ok (m.writeRootWith same none) = Except.ok (m.writeRootWith Heap.never none)
    rw [writeRootWith_none, writeRootWith_none]
  · have hrem := BinaryTreeMapNode.removeWith_never_spec hheld hfuel k
    rw [hroot]
    show (r.removeWith same _ _ _ >>= _) = (r.removeWith Heap.never _ _ _ >>= _)
    rw [BinaryTreeMapNode.removeWith_eq_never hsame hheld hfuel hl]
    generalize hrt : SearchTree.remove Prod.fst BinaryTreeMapNode.top k t = o at hrem
    generalize r.removeWith Heap.never m.fuel k m.nodes = res at hrem ⊢
    cases hrem with
    | failed => rfl
    | @gone h' =>
      show Except.ok (writeRootWith same ⟨m.root, h'⟩ none) =
        Except.ok (writeRootWith Heap.never ⟨m.root, h'⟩ none)
      rw [writeRootWith_none, writeRootWith_none]
    | @left h' r' t' F' hheld' =>
      have hval : ∀ r'', m.root.join = some r'' → r'.key = r''.key → r'.left = r''.left →
          r'.right = r''.right → r'.value = r''.value := by
        intro r'' hr''
        obtain rfl := Option.some.inj (hroot.symm.trans hr'')
        exact BinaryTreeMapNode.val_eq_of_lossless hl hheld hheld' hrt
      show Except.ok (writeRootWith same ⟨m.root, h'⟩ (some r')) =
        Except.ok (writeRootWith Heap.never ⟨m.root, h'⟩ (some r'))
      rw [writeRootWith_some (m := ⟨m.root, h'⟩) hsame hval,
        writeRootWith_some (m := ⟨m.root, h'⟩) BinaryTreeMapNode.sameKey_never hval]

/-- If every write is stored, `remove` removes a key that `SearchTree.remove` finds. Of another
    key it fails, or the map is empty. -/
theorem removeWith_never_spec (hm : Represents m t) (k : T) :
    match SearchTree.remove Prod.fst BinaryTreeMapNode.top k t with
    | some t' => ∃ m', m.removeWith Heap.never k = .ok m' ∧ Represents m' t'
    | none => (∃ e, m.removeWith Heap.never k = .error e) ∨
        t = nil ∧ ∃ m', m.removeWith Heap.never k = .ok m' ∧ Represents m' nil := by
  unfold removeWith
  rcases hm.cases with ⟨hroot, rfl⟩ | ⟨r, F, hroot, hheld, hfuel⟩
  · rw [hroot]
    exact .inr ⟨rfl, _, rfl, by rw [writeRootWith_none]; exact rfl⟩
  · rw [hroot]
    have hrem := BinaryTreeMapNode.removeWith_never_spec hheld hfuel k
    generalize SearchTree.remove Prod.fst BinaryTreeMapNode.top k t = o at hrem ⊢
    dsimp only
    generalize r.removeWith Heap.never m.fuel k m.nodes = res at hrem ⊢
    cases hrem with
    | failed => exact .inl ⟨_, rfl⟩
    | gone => exact ⟨_, rfl, by rw [writeRootWith_none]; exact rfl⟩
    | @left h' r' t' F' hheld' =>
      refine ⟨{ root := some (some r'), nodes := h' }, ?_, F', hheld'⟩
      show Except.ok (writeRootWith Heap.never ⟨m.root, h'⟩ (some r')) = _
      unfold writeRootWith
      rw [if_neg]
      intro hany
      obtain ⟨o, -, hs⟩ := (Option.any_eq_true _ _).mp hany
      cases o <;> cases hs

/-- `remove` does what it would if every write were stored. -/
theorem remove_eq_never {k : T} (hm : Represents m t) (hd : Determined Prod.fst t) :
    m.remove k = m.removeWith Heap.never k := by
  classical
  rw [← removeWith_equals, removeWith_eq_never BinaryTreeMapNode.sameKey_equals hm
    (BinaryTreeMapNode.lossless_of_determined hd k)]

/-- `remove` removes a key that `SearchTree.remove` finds. -/
theorem remove_spec {t' : BinaryTree (T × Option V)} {k : T} (hm : Represents m t)
    (hd : Determined Prod.fst t)
    (ht' : SearchTree.remove Prod.fst BinaryTreeMapNode.top k t = some t') :
    ∃ m', m.remove k = .ok m' ∧ Represents m' t' := by
  have hspec := removeWith_never_spec hm k
  rw [ht'] at hspec
  rw [remove_eq_never hm hd]
  exact hspec

/-- Of a key that is not found `remove` fails, or the map is empty. -/
theorem remove_spec_none {k : T} (hm : Represents m t) (hd : Determined Prod.fst t)
    (ht' : SearchTree.remove Prod.fst BinaryTreeMapNode.top k t = none) :
    (∃ e, m.remove k = .error e) ∨ t = nil ∧ ∃ m', m.remove k = .ok m' ∧ Represents m' nil := by
  have hspec := removeWith_never_spec hm k
  rw [ht'] at hspec
  rw [remove_eq_never hm hd]
  exact hspec

end TreeMap

end ReSTM
