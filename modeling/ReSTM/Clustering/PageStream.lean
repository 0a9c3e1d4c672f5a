import ReSTM.Clustering.PageTree
import ReSTM.Common.LinkedOrder

/-!
# The pages of a tree, one after the other

Model of `PageTree.nextBlock` and `pageStream` (`stm/clustering/PageTree.scala`, lines 58–69 and
126–187 of the nodes, 232–256 and 315–329 of the tree). A cursor is the id of a node, a 64-bit
number that has the steps from the root as its digits. `fuel` bounds the depth of a recursion, or
the number of blocks.

* `PageTreeNode.getTreeId_eq`: the id of a node, or the failure if it is too deep.
* `PageTreeNode.getByTreeId_eq`: an id leads to its node.
* `PageTree.Holds.pageStream`: the stream has every page once.
-/

namespace ReSTM

open HeapModel Nodes WP

/-- `Util.toDigits` of a `long` (`util/Util.scala`, lines 58–66). -/
def toDigits (radix : ℤ) : ℕ → ℤ → Except Failure (List ℤ)
  | 0, _ => throw stackOverflow
  | fuel + 1, number =>
    if number = 0 then return []
    else do
      let bit := number % radix
      let digits ← toDigits radix fuel ((number - bit).fdiv radix)
      return digits ++ [bit]

open PageTree

namespace PageTreeNode

/-- `leftChild` (lines 126–130). -/
def leftChild : ℕ → PageTreeNode → Ptr → PageTxn Ptr
  | 0, _, _ => throw stackOverflow
  | fuel + 1, n, self =>
    match n.left with
    | some left => do leftChild fuel (← onNodes (read left)) left
    | none => return self

/-- `rightParent` (lines 132–142). -/
def rightParent : ℕ → PageTreeNode → Ptr → PageTxn (Option Ptr)
  | 0, _, _ => throw stackOverflow
  | fuel + 1, n, self =>
    match n.parent with
    | some parentPtr => do
      let parentValue ← onNodes (read parentPtr)
      if parentValue.left = some self then return some parentPtr
      else rightParent fuel parentValue parentPtr
    | none => return none

/-- `nextNode` (lines 144–146). -/
def nextNode (fuel : ℕ) (n : PageTreeNode) (self : Ptr) : PageTxn (Option Ptr) :=
  match n.right with
  | some rightPtr => do
    let next ← leftChild fuel (← onNodes (read rightPtr)) rightPtr
    return some next
  | none => rightParent fuel n self

/-- `getTreeBit` (lines 171–175). -/
def getTreeBit (n : PageTreeNode) (node : Ptr) : PageTxn ℤ :=
  if n.left = some node then return 0
  else if n.right = some node then return 1
  else throw (.runtimeException "null")

/-- What `getTreeId` fails with. -/
def tooDeep : Failure := .runtimeException "Node is too deep to calculate id"

/-- `getTreeId` (lines 177–187), in 64 bits. -/
def getTreeId : ℕ → PageTreeNode → Ptr → PageTxn ℤ
  | 0, _, _ => throw stackOverflow
  | fuel + 1, n, self =>
    match n.parent with
    | some parentPtr => do
      let parentNode ← onNodes (read parentPtr)
      let parentId ← getTreeId fuel parentNode parentPtr
      let bit ← parentNode.getTreeBit self
      let id := (parentId * 2 + bit).bmod (2 ^ 64)
      if id < 0 then throw tooDeep else return id
    | none => return 1

/-- `getByTreePath` (lines 148–158). -/
def getByTreePath : List ℤ → PageTreeNode → Ptr → PageTxn Ptr
  | [], _, self => return self
  | digit :: path, n, _ =>
    if digit = 0 then
      match n.left with
      | some left => do getByTreePath path (← onNodes (read left)) left
      | none => throw .noneGet
    else if digit = 1 then
      match n.right with
      | some right => do getByTreePath path (← onNodes (read right)) right
      | none => throw .noneGet
    else throw (.runtimeException "scala.MatchError")

/-- `getByTreeId` (lines 160–169). A `long` has at most 64 digits. -/
def getByTreeId (cursor : ℤ) (n : PageTreeNode) (self : Ptr) : PageTxn Ptr := do
  if cursor < 0 then throw Page.requirementFailed
  match ← (toDigits 2 65 cursor : Except Failure (List ℤ)) with
  | [] => throw (.runtimeException "java.lang.UnsupportedOperationException: tail of empty list")
  | _ :: path => fun t =>
    match getByTreePath path n self t with
    | .error (.noSuchElement msg) =>
      .error (.runtime ("Cannot locate node " ++ toString cursor) (.noSuchElement msg))
    | r => r

/-- `getCursorBlock` (lines 58–69). -/
def getCursorBlock (fuel : ℕ) (n : PageTreeNode) (self : Ptr) : PageTxn (ℤ × Option Page) := do
  let next ← n.nextNode fuel self
  let page ← onPages (read n.value)
  match next with
  | some nextPtr => do
    let nextId ← getTreeId fuel (← onNodes (read nextPtr)) nextPtr
    return (nextId, some page)
  | none => return (-1, some page)

end PageTreeNode

namespace PageTree

/-- `nextBlock` (lines 232–256), in 64 bits. `none` is the empty `KryoValue`. -/
def nextBlock (t : PageTree) (cursor : ℤ) : Except Failure (ℤ × Option Page) :=
  if cursor < 0 then return ((cursor - 1).bmod (2 ^ 64), none)
  else
    match t.nodes.get rootPtr with
    | none => return (-1, none)
    | some root =>
      ((do
        let nodePtr ← if cursor = 0 then root.leftChild t.fuel rootPtr
          else root.getByTreeId cursor rootPtr
        let node ← onNodes (read nodePtr)
        node.getCursorBlock t.fuel nodePtr : PageTxn (ℤ × Option Page)) t).map Prod.fst

/-- The pages of the blocks from a cursor on (lines 323–329). -/
def blocks (t : PageTree) : ℕ → ℤ → Except Failure (List Page)
  | 0, _ => throw stackOverflow
  | fuel + 1, cursor => do
    let (next, page) ← t.nextBlock cursor
    if next > -2 then return page.toList ++ (← t.blocks fuel next)
    else return []

/-- `AtomicApi.pageStream` (lines 319–321), when it is read to its end. -/
def pageStream (t : PageTree) : Except Failure (List Page) := t.blocks (t.fuel + 2) 0

end PageTree

/-! ## Ids -/

/-- The id of a node with these steps from the root, the last one first. -/
def treeId (bits : List Bool) : ℕ := bits.foldr (fun b id => id * 2 + b.toNat) 1

theorem treeId_pos (bits : List Bool) : 0 < treeId bits := by
  induction bits with
  | nil => exact Nat.one_pos
  | cons b bits ih =>
    have hcons : treeId (b :: bits) = treeId bits * 2 + b.toNat := rfl
    omega

/-- The digits of an id are the steps. -/
theorem toDigits_treeId (bits : List Bool) {fuel : ℕ} (hfuel : bits.length + 1 < fuel) :
    toDigits 2 fuel (treeId bits) = .ok (1 :: (bits.reverse.map fun b => (b.toNat : ℤ))) := by
  induction bits generalizing fuel with
  | nil =>
    match fuel, hfuel with
    | _ + 2, _ => rfl
  | cons b bits ih =>
    cases fuel with
    | zero => cases hfuel
    | succ fuel =>
      have hpos := treeId_pos bits
      have hcons : ((treeId (b :: bits) : ℕ) : ℤ) = treeId bits * 2 + b.toNat := by
        push_cast [treeId, List.foldr_cons]
        rfl
      have hb : (b.toNat : ℤ) = 0 ∨ (b.toNat : ℤ) = 1 := by cases b <;> simp
      have hbit : (treeId (b :: bits) : ℤ) % 2 = b.toNat := by omega
      have hdiv : ((treeId (b :: bits) : ℤ) - b.toNat).fdiv 2 = treeId bits := by
        rw [hcons, Int.add_sub_cancel, Int.mul_fdiv_cancel _ two_ne_zero]
      rw [List.length_cons] at hfuel
      rw [toDigits, if_neg (by omega), hbit]
      dsimp only
      rw [hdiv, ih (by omega)]
      show Except.ok (1 :: _ ++ [_]) = _
      rw [List.reverse_cons, List.map_append, List.cons_append]
      rfl

theorem two_pow_le_treeId (bits : List Bool) : 2 ^ bits.length ≤ treeId bits := by
  induction bits with
  | nil => exact le_refl 1
  | cons b bits ih =>
    have hcons : treeId (b :: bits) = treeId bits * 2 + b.toNat := rfl
    rw [List.length_cons, Nat.pow_succ]
    omega

namespace PageTreeNode

variable {t : PageTree} {o : Option Ptr} {p q root : Ptr} {n m : PageTreeNode} {F : Finset Ptr}
  {fuel : ℕ} {bits : List Bool}

/-- The id of a child. -/
theorem getTreeId_child {id : ℕ} {b : Bool} (hparent : n.parent = some q)
    (hm : t.nodes.get q = some m) (hbit : m.getTreeBit p t = .ok ((b.toNat : ℤ), t)) (hpos : 0 < id)
    (hid : m.getTreeId fuel q t = if id < 2 ^ 63 then .ok ((id : ℤ), t) else .error tooDeep) :
    n.getTreeId (fuel + 1) p t = if id * 2 + b.toNat < 2 ^ 63 then
      .ok ((id * 2 + b.toNat : ℕ), t) else .error tooDeep := by
  have hb : b.toNat < 2 := by cases b <;> decide
  rw [getTreeId, hparent]
  dsimp only
  rw [bind_ok (onNodes_read hm)]
  by_cases hlt : id < 2 ^ 63
  · rw [if_pos hlt] at hid
    rw [bind_ok hid, bind_ok hbit]
    by_cases hlt' : id * 2 + b.toNat < 2 ^ 63
    · have hmod : ((id : ℤ) * 2 + b.toNat).bmod (2 ^ 64) = (id * 2 + b.toNat : ℕ) := by
        push_cast
        exact Int.bmod_eq_of_le (by omega) (by omega)
      rw [if_pos hlt', hmod, if_neg (by omega)]
      rfl
    · -- the id is a number from `2 ^ 63` to `2 ^ 64`, and negative as a `long`
      have hmod : ((id : ℤ) * 2 + b.toNat).bmod (2 ^ 64) = id * 2 + b.toNat - 2 ^ 64 := by
        rw [Int.bmod_def, Int.emod_eq_of_lt (by omega) (by omega)]
        omega
      rw [if_neg hlt', hmod, if_pos (by omega)]
      rfl
  · rw [if_neg hlt] at hid
    rw [bind_error hid, if_neg (by omega)]

/-- The id of a node is that of its steps, if it is a `long`. -/
theorem getTreeId_eq (habove : Above t.nodes root p bits) (hn : t.nodes.get p = some n)
    (hfuel : bits.length < fuel) : n.getTreeId fuel p t =
      if treeId bits < 2 ^ 63 then .ok ((treeId bits : ℤ), t) else .error tooDeep := by
  induction habove generalizing n fuel with
  | @root n' hget hparent =>
    obtain rfl : n' = n := Option.some.inj (hget.symm.trans hn)
    cases fuel with
    | zero => cases hfuel
    | succ fuel =>
      have hparent' : n'.parent = none := hparent
      rw [getTreeId, hparent']
      rfl
  | @left p b n' m bits hget hparent hm hleft hrest ih =>
    obtain rfl : n' = n := Option.some.inj (hget.symm.trans hn)
    cases fuel with
    | zero => cases hfuel
    | succ fuel =>
      have hbit : m.getTreeBit p t = .ok (((false.toNat : ℕ) : ℤ), t) := by
        have hleft' : m.left = some p := hleft
        rw [getTreeBit, if_pos hleft']
        rfl
      exact getTreeId_child hparent hm hbit (treeId_pos bits) (ih hm (Nat.lt_of_succ_lt_succ hfuel))
  | @right p b n' m bits hget hparent hm hleft hright hrest ih =>
    obtain rfl : n' = n := Option.some.inj (hget.symm.trans hn)
    cases fuel with
    | zero => cases hfuel
    | succ fuel =>
      have hbit : m.getTreeBit p t = .ok (((true.toNat : ℕ) : ℤ), t) := by
        have hleft' : m.left ≠ some p := hleft
        have hright' : m.right = some p := hright
        rw [getTreeBit, if_neg hleft', if_pos hright']
        rfl
      exact getTreeId_child hparent hm hbit (treeId_pos bits) (ih hm (Nat.lt_of_succ_lt_succ hfuel))

/-- A path after a path. -/
theorem getByTreePath_append {path rest : List ℤ} (hn : t.nodes.get p = some n)
    (hpath : n.getByTreePath path p t = .ok (q, t)) (hm : t.nodes.get q = some m) :
    n.getByTreePath (path ++ rest) p t = m.getByTreePath rest q t := by
  induction path generalizing n p with
  | nil =>
    obtain rfl : p = q := congrArg Prod.fst (Except.ok.inj hpath)
    obtain rfl : n = m := Option.some.inj (hn.symm.trans hm)
    rfl
  | cons digit path ih =>
    have hchild : ∀ c, (do getByTreePath path (← onNodes (read c)) c : PageTxn Ptr) t = .ok (q, t) →
        (do getByTreePath (path ++ rest) (← onNodes (read c)) c : PageTxn Ptr) t =
          m.getByTreePath rest q t := by
      intro c hc
      obtain ⟨k, t', hk, hc⟩ := bind_ok_iff.mp hc
      have hk' : t.nodes.get c = some k ∧ t' = t := by
        unfold onNodes Nodes.read at hk
        cases hkc : t.nodes.get c with
        | none =>
          rw [hkc] at hk
          cases hk
        | some k' =>
          rw [hkc] at hk
          cases hk
          exact ⟨rfl, rfl⟩
      obtain ⟨hkc, rfl⟩ := hk'
      rw [bind_ok (onNodes_read hkc)]
      exact ih hkc hc
    rw [List.cons_append]
    rw [getByTreePath] at hpath ⊢
    split_ifs at hpath ⊢
    · cases hleft : n.left with
      | none =>
        rw [hleft] at hpath
        cases hpath
      | some c =>
        rw [hleft] at hpath
        exact hchild c hpath
    · cases hright : n.right with
      | none =>
        rw [hright] at hpath
        cases hpath
      | some c =>
        rw [hright] at hpath
        exact hchild c hpath
    · cases hpath

/-- The steps lead to the node. -/
theorem getByTreePath_above {nr : PageTreeNode} (habove : Above t.nodes root p bits)
    (hr : t.nodes.get root = some nr) :
    nr.getByTreePath (bits.reverse.map fun b => (b.toNat : ℤ)) root t = .ok (p, t) := by
  induction habove with
  | root => rfl
  | @left p b n m bits hget hparent hm hleft hrest ih =>
    have hleft' : m.left = some p := hleft
    rw [List.reverse_cons, List.map_append, getByTreePath_append hr ih hm]
    show getByTreePath [0] m b t = _
    rw [getByTreePath, if_pos rfl, hleft']
    exact bind_ok (onNodes_read hget)
  | @right p b n m bits hget hparent hm hleft hright hrest ih =>
    have hright' : m.right = some p := hright
    rw [List.reverse_cons, List.map_append, getByTreePath_append hr ih hm]
    show getByTreePath [1] m b t = _
    rw [getByTreePath, if_neg one_ne_zero, if_pos rfl, hright']
    exact bind_ok (onNodes_read hget)

/-- An id leads to its node. -/
theorem getByTreeId_eq {nr : PageTreeNode} (habove : Above t.nodes root p bits)
    (hr : t.nodes.get root = some nr) (hid : treeId bits < 2 ^ 63) :
    nr.getByTreeId (treeId bits) root t = .ok (p, t) := by
  have hlength : bits.length < 63 :=
    (Nat.pow_lt_pow_iff_right (by decide)).mp ((two_pow_le_treeId bits).trans_lt hid)
  have hdigits : ((toDigits 2 65 (treeId bits) : Except Failure (List ℤ)) : PageTxn (List ℤ)) t =
      .ok (1 :: (bits.reverse.map fun b => (b.toNat : ℤ)), t) := by
    rw [toDigits_treeId bits (by omega)]
    rfl
  unfold getByTreeId
  rw [if_neg (by omega)]
  dsimp only
  rw [bind_ok hdigits]
  dsimp only
  rw [getByTreePath_above habove hr]

/-! ## The next node -/

/-- The subtree of a node. -/
theorem linked_sub {l : Option Ptr} (hl : Linked t.nodes o l F) (hq : q ∈ F) :
    ∃ o' G, Linked t.nodes o' (some q) G ∧ G ⊆ F := by
  induction hl with
  | nil => cases hq
  | @node o p n L R hget hparent hl hr hdisj hp ihl ihr =>
    rw [Finset.mem_insert, Finset.mem_union] at hq
    rcases hq with rfl | hq | hq
    · exact ⟨_, _, .node hget hparent hl hr hdisj hp, Finset.Subset.refl _⟩
    · obtain ⟨o', G, hG, hsub⟩ := ihl hq
      exact ⟨o', G, hG, hsub.trans (Finset.subset_union_left.trans (Finset.subset_insert _ _))⟩
    · obtain ⟨o', G, hG, hsub⟩ := ihr hq
      exact ⟨o', G, hG, hsub.trans (Finset.subset_union_right.trans (Finset.subset_insert _ _))⟩

theorem leftChild_eq (hl : Linked t.nodes o (some p) F) (hn : t.nodes.get p = some n)
    (hfuel : F.card ≤ fuel) (hq : Leftmost t.nodes p q) : n.leftChild fuel p t = .ok (q, t) := by
  induction fuel generalizing o p n F with
  | zero =>
    rw [Nat.le_zero, Finset.card_eq_zero] at hfuel
    exact absurd (hfuel ▸ hl.mem) (Finset.notMem_empty p)
  | succ fuel ih =>
    obtain ⟨L, R, hleft, -, -, -, -, hfl, -⟩ := sides hl hn hfuel
    cases hq with
    | @here _ n' hget hnone =>
      obtain rfl : n' = n := Option.some.inj (hget.symm.trans hn)
      have hnone' : n'.left = none := hnone
      rw [leftChild, hnone']
      rfl
    | @left _ c _ n' hget hsome hrest =>
      obtain rfl : n' = n := Option.some.inj (hget.symm.trans hn)
      have hsome' : n'.left = some c := hsome
      rw [hsome'] at hleft
      obtain ⟨k, hk, -⟩ := hleft.root_spec
      rw [leftChild, hsome']
      exact (bind_ok (onNodes_read hk)).trans (ih hleft hk hfl hrest)

theorem rightParent_eq {u : Option Ptr} (habove : Above t.nodes root p bits)
    (hn : t.nodes.get p = some n) (hfuel : bits.length < fuel) (hup : Up t.nodes p u) :
    n.rightParent fuel p t = .ok (u, t) := by
  induction habove generalizing n fuel u with
  | @root n' hget hparent =>
    obtain rfl : n' = n := Option.some.inj (hget.symm.trans hn)
    have hparent' : n'.parent = none := hparent
    cases fuel with
    | zero => cases hfuel
    | succ fuel =>
      rw [rightParent, hparent', Linked.up_of_root hup hget hparent]
      rfl
  | @left p b n' m bits hget hparent hm hleft hrest ih =>
    obtain rfl : n' = n := Option.some.inj (hget.symm.trans hn)
    have hparent' : n'.parent = some b := hparent
    have hleft' : m.left = some p := hleft
    obtain ⟨-, hu⟩ := (Linked.up_of_parent hup hget hparent hm).resolve_right fun h => h.1 hleft
    cases fuel with
    | zero => cases hfuel
    | succ fuel =>
      rw [rightParent, hparent']
      dsimp only
      rw [bind_ok (onNodes_read hm), if_pos hleft', hu]
      rfl
  | @right p b n' m bits hget hparent hm hleft hright hrest ih =>
    obtain rfl : n' = n := Option.some.inj (hget.symm.trans hn)
    have hparent' : n'.parent = some b := hparent
    have hleft' : m.left ≠ some p := hleft
    obtain ⟨-, hu⟩ := (Linked.up_of_parent hup hget hparent hm).resolve_left fun h => hleft h.1
    cases fuel with
    | zero => cases hfuel
    | succ fuel =>
      rw [rightParent, hparent']
      dsimp only
      rw [bind_ok (onNodes_read hm), if_neg hleft']
      exact ih hm (Nat.lt_of_succ_lt_succ hfuel) hu

/-- `nextNode` finds the next node by the links. -/
theorem nextNode_eq {l u : Option Ptr} (hl : Linked t.nodes o l F) (hp : p ∈ F)
    (habove : Above t.nodes root p bits) (hn : t.nodes.get p = some n) (hcard : F.card ≤ fuel)
    (hfuel : bits.length < fuel) (hnext : Next t.nodes p u) : n.nextNode fuel p t = .ok (u, t) := by
  cases hnext with
  | @down c q n' hget hright hleft =>
    obtain rfl : n' = n := Option.some.inj (hget.symm.trans hn)
    have hright' : n'.right = some c := hright
    obtain ⟨o', G, hG, hsub⟩ := linked_sub hl hp
    obtain ⟨L, R, -, hr, -, -, rfl, -, -⟩ :=
      sides hG hn (Nat.le_succ_of_le ((Finset.card_le_card hsub).trans hcard))
    rw [hright'] at hr
    obtain ⟨k, hk, -⟩ := hr.root_spec
    have hcard' : R.card ≤ fuel := (Finset.card_le_card (Finset.subset_union_right.trans
      ((Finset.subset_insert _ _).trans hsub))).trans hcard
    rw [nextNode, hright']
    dsimp only
    rw [bind_ok (onNodes_read hk), bind_ok (leftChild_eq hr hk hcard' hleft)]
    rfl
  | @up n' _ hget hright hup =>
    obtain rfl : n' = n := Option.some.inj (hget.symm.trans hn)
    have hright' : n'.right = none := hright
    rw [nextNode, hright']
    exact rightParent_eq habove hn hfuel hup

end PageTreeNode

namespace PageTree

variable {t : PageTree} {F : Finset Ptr} {M : Multiset Page} {L : List Ptr} {i : ℕ} {q : Ptr}

theorem drop_of_getElem? (hq : L[i]? = some q) : L.drop i = q :: L.drop (i + 1) := by
  obtain ⟨hlt, rfl⟩ := List.getElem?_eq_some_iff.mp hq
  exact List.drop_eq_getElem_cons hlt

/-- The nodes of a tree are linked with their parents, and their pages are stored. -/
structure Consistent (t : PageTree) (F : Finset Ptr) : Prop where
  linked : Linked t.nodes none t.rootLink F
  page : ∀ p n, p ∈ F → t.nodes.get p = some n → ∃ v, t.pages.get n.value = some v

theorem Shape.consistent (h : Shape t F) : Consistent t F where
  linked := h.linked
  page p n _ hn := (h.page p n hn).imp fun _ hv => hv.1

theorem consistent_create : Consistent create ∅ :=
  ⟨.nil, fun p _ hp => absurd hp (Finset.notMem_empty p)⟩

theorem Consistent.cases (h : Consistent t F) : t.nodes.get rootPtr = none ∧ F = ∅ ∨
    ∃ r, t.nodes.get rootPtr = some r ∧ Linked t.nodes none (some rootPtr) F :=
  rootLink_cases h.linked

/-- A tree is empty, or its nodes have an order, with a first one. -/
theorem Consistent.places (h : Consistent t F) :
    t.nodes.get rootPtr = none ∧ t.rootLink = none ∧ F = ∅ ∨
      ∃ L q, t.rootLink = some rootPtr ∧ Linked t.nodes none (some rootPtr) F ∧
        InOrder t.nodes (some rootPtr) L ∧ (L : Multiset Ptr) = F.val ∧ L[0]? = some q := by
  rcases h.cases with ⟨hr, rfl⟩ | ⟨r, hr, hl⟩
  · have hlink : t.rootLink = none := by
      rw [rootLink, hr]
      rfl
    exact .inl ⟨hr, hlink, rfl⟩
  · have hlink : t.rootLink = some rootPtr := by
      rw [rootLink, hr]
      rfl
    obtain ⟨L, hi, hL⟩ := hl.inOrder
    obtain ⟨q, hq, -⟩ := Linked.leftmost hi rootPtr rfl
    rw [List.head?_eq_getElem?] at hq
    exact .inr ⟨L, q, hlink, hl, hi, hL, hq⟩

/-- Every node of a tree has its steps from the root. -/
theorem above_root (hl : Linked t.nodes none (some rootPtr) F) (hq : q ∈ F) :
    ∃ bits, Above t.nodes rootPtr q bits ∧ bits.length < t.fuel := by
  obtain ⟨r, hr, hnone⟩ := hl.root_spec
  have hroot : ∀ p, some rootPtr = some p → Above t.nodes rootPtr p [] := by
    rintro p ⟨⟩
    exact .root hr hnone
  obtain ⟨bits, hbits, hlt⟩ := hl.above_spec hroot (Nat.zero_add F.card).le q hq
  exact ⟨bits, hbits, hlt.trans_le hl.card_le⟩

/-- The block of the node at a place in the order: its page, and the id of the next node. -/
theorem Consistent.getCursorBlock (h : Consistent t F)
    (hl : Linked t.nodes none (some rootPtr) F) (hi : InOrder t.nodes (some rootPtr) L)
    (hL : (L : Multiset Ptr) = F.val) (hq : L[i]? = some q) :
    ∃ n v, t.nodes.get q = some n ∧ t.pageOf q = some v ∧
      (L[i + 1]? = none ∧ n.getCursorBlock t.fuel q t = .ok ((-1, some v), t) ∨
        ∃ q' bits, L[i + 1]? = some q' ∧ Above t.nodes rootPtr q' bits ∧
          n.getCursorBlock t.fuel q t = if treeId bits < 2 ^ 63 then
            .ok (((treeId bits : ℤ), some v), t) else .error PageTreeNode.tooDeep) := by
  have hmem : ∀ p ∈ L, p ∈ F := fun p hp => Finset.mem_val.mp (hL ▸ Multiset.mem_coe.mpr hp)
  obtain ⟨r, hr, hnone⟩ := hl.root_spec
  have hup : ∀ p, some rootPtr = some p → Up t.nodes p none := by
    rintro p ⟨⟩
    exact .root hr hnone
  have hcard : F.card ≤ t.fuel := hl.card_le
  have hqF := hmem q (List.mem_of_getElem? hq)
  obtain ⟨n, hn⟩ := hl.stored hqF
  obtain ⟨v, hv⟩ := h.page q n hqF hn
  obtain ⟨bits, hbits, hlt⟩ := above_root hl hqF
  have hnext := PageTreeNode.nextNode_eq hl hqF hbits hn hcard hlt
    (hl.next_spec hi hup i q hq)
  refine ⟨n, v, hn, pageOf_eq hn hv, ?_⟩
  unfold PageTreeNode.getCursorBlock
  rw [bind_ok hnext, bind_ok (PageTreeNode.onPages_read hv)]
  cases hq' : L[i + 1]? with
  | none => exact .inl ⟨rfl, rfl⟩
  | some q' =>
    have hqF' := hmem q' (List.mem_of_getElem? hq')
    obtain ⟨n', hn'⟩ := hl.stored hqF'
    obtain ⟨bits', hbits', hlt'⟩ := above_root hl hqF'
    refine .inr ⟨q', bits', rfl, hbits', ?_⟩
    have hid := PageTreeNode.getTreeId_eq hbits' hn' hlt'
    by_cases hsmall : treeId bits' < 2 ^ 63
    · rw [if_pos hsmall] at hid ⊢
      exact (bind_ok (PageTreeNode.onNodes_read hn')).trans (bind_ok hid)
    · rw [if_neg hsmall] at hid ⊢
      exact (bind_ok (PageTreeNode.onNodes_read hn')).trans (bind_error hid)

/-- The cursor of a place in the order: `0` is that of the first node, and otherwise it is the id
    of the node. -/
def CursorAt (t : PageTree) (L : List Ptr) (i : ℕ) (cursor : ℤ) : Prop :=
  cursor = 0 ∧ i = 0 ∨ ∃ q bits, L[i]? = some q ∧ Above t.nodes rootPtr q bits ∧
    cursor = treeId bits ∧ treeId bits < 2 ^ 63

/-- One block: the page of the node at the cursor, and the cursor of the next place. -/
theorem Consistent.nextBlock (h : Consistent t F) (hl : Linked t.nodes none (some rootPtr) F)
    (hi : InOrder t.nodes (some rootPtr) L) (hL : (L : Multiset Ptr) = F.val) {cursor : ℤ}
    (hq : L[i]? = some q) (hcursor : CursorAt t L i cursor) :
    ∃ v, t.pageOf q = some v ∧
      (L[i + 1]? = none ∧ t.nextBlock cursor = .ok (-1, some v) ∨
        ∃ q' bits, L[i + 1]? = some q' ∧ Above t.nodes rootPtr q' bits ∧
          t.nextBlock cursor = if treeId bits < 2 ^ 63 then .ok ((treeId bits : ℤ), some v)
            else .error PageTreeNode.tooDeep) := by
  obtain ⟨n, v, hn, hv, hblock⟩ := h.getCursorBlock hl hi hL hq
  obtain ⟨r, hr, -⟩ := hl.root_spec
  have hnext : t.nextBlock cursor = (n.getCursorBlock t.fuel q t).map Prod.fst := by
    rcases hcursor with ⟨rfl, rfl⟩ | ⟨q', bits, hq', habove, rfl, hsmall⟩
    · obtain ⟨q', hq', hleft⟩ := Linked.leftmost hi rootPtr rfl
      rw [List.head?_eq_getElem?] at hq'
      obtain rfl : q' = q := Option.some.inj (hq'.symm.trans hq)
      have hcard : F.card ≤ t.fuel := hl.card_le
      unfold PageTree.nextBlock
      rw [if_neg (by decide), hr]
      dsimp only
      rw [if_pos rfl, bind_ok (PageTreeNode.leftChild_eq hl hr hcard hleft),
        bind_ok (PageTreeNode.onNodes_read hn)]
    · obtain rfl : q' = q := Option.some.inj (hq'.symm.trans hq)
      have hpos := treeId_pos bits
      unfold PageTree.nextBlock
      rw [if_neg (by omega), hr]
      dsimp only
      rw [if_neg (by omega), bind_ok (PageTreeNode.getByTreeId_eq habove hr hsmall),
        bind_ok (PageTreeNode.onNodes_read hn)]
  refine ⟨v, hv, ?_⟩
  rw [hnext]
  rcases hblock with ⟨hlast, hblock⟩ | ⟨q', bits, hq', habove, hblock⟩
  · refine .inl ⟨hlast, ?_⟩
    rw [hblock]
    rfl
  · refine .inr ⟨q', bits, hq', habove, ?_⟩
    rw [hblock]
    split_ifs <;> rfl

/-- The blocks after a node are the pages of the nodes after it. -/
theorem Consistent.blocks (h : Consistent t F) (hl : Linked t.nodes none (some rootPtr) F)
    (hi : InOrder t.nodes (some rootPtr) L) (hL : (L : Multiset Ptr) = F.val) {fuel : ℕ}
    {cursor : ℤ} {pages : List Page} (hq : L[i]? = some q) (hcursor : CursorAt t L i cursor)
    (hpages : t.blocks fuel cursor = .ok pages) :
    pages.map some = (L.drop i).map t.pageOf := by
  induction fuel generalizing i q cursor pages with
  | zero => cases hpages
  | succ fuel ih =>
    obtain ⟨v, hv, hblock⟩ := h.nextBlock hl hi hL hq hcursor
    rw [drop_of_getElem? hq, List.map_cons, hv]
    unfold PageTree.blocks at hpages
    rcases hblock with ⟨hlast, hblock⟩ | ⟨q', bits, hq', habove, hblock⟩
    · -- the last node
      rw [hblock] at hpages
      rw [List.drop_eq_nil_of_le (List.getElem?_eq_none_iff.mp hlast)]
      cases fuel with
      | zero => cases hpages
      | succ fuel =>
        cases hpages
        rfl
    · rw [hblock] at hpages
      by_cases hsmall : treeId bits < 2 ^ 63
      · rw [if_pos hsmall] at hpages
        have hgt : (treeId bits : ℤ) > -2 := by omega
        change (if (treeId bits : ℤ) > -2 then (do
          return [v] ++ (← t.blocks fuel (treeId bits)) : Except Failure (List Page))
          else return []) = _ at hpages
        rw [if_pos hgt] at hpages
        cases hrest : t.blocks fuel (treeId bits) with
        | error e =>
          rw [hrest] at hpages
          cases hpages
        | ok rest =>
          rw [hrest] at hpages
          cases hpages
          rw [List.singleton_append, List.map_cons,
            ih hq' (.inr ⟨q', bits, hq', habove, rfl, hsmall⟩) hrest]
      · rw [if_neg hsmall] at hpages
        cases hpages

/-- A stream that ends has had every page once. -/
theorem Holds.pageStream (h : Holds t M) {pages : List Page} (hpages : t.pageStream = .ok pages) :
    (pages : Multiset Page) = M := by
  obtain ⟨F, hshape, rfl⟩ := h
  have h := hshape.consistent
  rcases h.places with ⟨hr, -, rfl⟩ | ⟨L, q, -, hl, hi, hL, hq⟩
  · have hnil : t.pageStream = .ok [] := by
      have hfirst : t.nextBlock 0 = .ok (-1, none) := by
        unfold PageTree.nextBlock
        rw [if_neg (by decide), hr]
        rfl
      unfold PageTree.pageStream PageTree.blocks
      rw [hfirst]
      rfl
    rw [hnil] at hpages
    cases hpages
    rfl
  · have hmap := h.blocks hl hi hL hq (.inl ⟨rfl, rfl⟩) hpages
    have hfilter : L.filterMap t.pageOf = pages := by
      have hid : (pages.map some).filterMap id = pages := by
        rw [List.filterMap_map]
        exact List.filterMap_some
      rw [← hid, hmap, List.drop_zero, List.filterMap_map]
      rfl
    rw [← hL, ← hfilter]
    rfl

end PageTree

end ReSTM
