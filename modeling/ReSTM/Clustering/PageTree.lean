import Mathlib.Algebra.BigOperators.Group.Finset.Basic
import Mathlib.Data.Multiset.Filter
import ReSTM.Clustering.Page
import ReSTM.Collection.Nodes
import ReSTM.Common.LinkedTree
import ReSTM.Common.Refinement
import ReSTM.Common.WP

/-!
# `PageTree`

Model of `PageTree` and `PageTreeNode` (`stm/clustering/PageTree.scala`). A node has the pointer to
its parent beside the pointers to its children, and the pointer to its page. The root node is
stored under `rootPtr`, which is drawn first. Each node that `add` or `get` visits draws one random
bit: `coin 0` is the bit of the node itself, the others are drawn below it. `same` decides which
writes are skipped; in the code it is `equals`. `fuel` bounds the depth of a recursion.

* `PageTreeNode.get_eq`, `add_eq`: where the operations end.
* `PageTree.Shape.addedTo`, `takenFrom`: what they do there keeps the links.
* `PageTree.bag`: the specification, over multisets of pages.
-/

namespace ReSTM

open HeapModel Refinement Transition WP

/-- `case class PageTreeNode` (lines 49–56). -/
structure PageTreeNode where
  parent : Option Ptr
  value : Ptr
  size : ℕ
  left : Option Ptr := none
  right : Option Ptr := none
deriving DecidableEq

/-- What is stored of a tree: the nodes, with the root under `0`, and the pages. -/
structure PageTree where
  nodes : Heap PageTreeNode := ⟨[none]⟩
  pages : Heap Page := {}
deriving DecidableEq

instance : LinkedNode PageTreeNode where
  parent n := n.parent
  left n := n.left
  right n := n.right

/-- A transaction on a tree. -/
abbrev PageTxn (α : Type) : Type := StateT PageTree (Except Failure) α

namespace PageTree

/-- The pointer of the root. -/
def rootPtr : Ptr := 0

/-- A transaction on the nodes. -/
def onNodes {α : Type} (f : NodeTxn PageTreeNode α) : PageTxn α := fun t =>
  (f t.nodes).map fun r => (r.1, { t with nodes := r.2 })

/-- A transaction on the pages. -/
def onPages {α : Type} (f : NodeTxn Page α) : PageTxn α := fun t =>
  (f t.pages).map fun r => (r.1, { t with pages := r.2 })

end PageTree

open PageTree

namespace PageTreeNode

open Nodes

/-- `equals` (lines 119–124). -/
def equals (n x : PageTreeNode) : Bool :=
  n.value == x.value && n.left == x.left && n.right == x.right

/-- `treeSize` (lines 76–81). -/
def treeSize : ℕ → PageTreeNode → PageTxn ℕ
  | 0, _ => throw stackOverflow
  | fuel + 1, n => do
    let l ← (n.left.map fun ptr => do treeSize fuel (← onNodes (read ptr))).getD (return 0)
    let r ← (n.right.map fun ptr => do treeSize fuel (← onNodes (read ptr))).getD (return 0)
    return l + r + n.size

section Operations

variable (same : PageTreeNode → PageTreeNode → Bool)

/-- `unlinkParent` (lines 189–201). -/
def unlinkParent (n : PageTreeNode) (self : Ptr) : PageTxn Unit :=
  match n.parent with
  | some parentPtr => do
    let parentValue ← onNodes (read parentPtr)
    if parentValue.left = some self then
      onNodes (write same parentPtr { parentValue with left := none })
    else if parentValue.right = some self then
      onNodes (write same parentPtr { parentValue with right := none })
    else throw (.runtimeException "Child Link Not Found")
  | none => return ()

/-- What `get` does at a node without children (lines 90–92). -/
def take (n : PageTreeNode) (self : Ptr) : PageTxn Page := do
  n.unlinkParent same self
  onNodes (delete self)
  onPages (read n.value)

/-- `get` (lines 83–94). -/
def get : ℕ → (ℕ → Bool) → PageTreeNode → Ptr → PageTxn Page
  | 0, _, _, _ => throw stackOverflow
  | fuel + 1, coin, n, self =>
    let a := if coin 0 then n.left else n.right
    let b := if coin 0 then n.right else n.left
    ((a.map fun ptr => do get fuel (below coin) (← onNodes (read ptr)) ptr) <|>
      (b.map fun ptr => do get fuel (below coin) (← onNodes (read ptr)) ptr)).getD
      (n.take same self)

/-- A new child of `self` (lines 102–103 and 110–111). -/
def child (newValue : Page) (self : Ptr) : PageTxn Ptr := do
  let ptr ← onPages (dynamic newValue)
  onNodes (dynamic { parent := some self, value := ptr, size := newValue.size })

/-- `add` (lines 96–115). -/
def add : ℕ → (ℕ → Bool) → PageTreeNode → Page → Ptr → PageTxn Unit
  | 0, _, _, _, _ => throw stackOverflow
  | fuel + 1, coin, n, newValue, self =>
    if coin 0 then
      match n.left with
      | some leftPtr => do add fuel (below coin) (← onNodes (read leftPtr)) newValue leftPtr
      | none => do
        let x ← child newValue self
        onNodes (write same self { n with left := some x })
    else
      match n.right with
      | some rightPtr => do add fuel (below coin) (← onNodes (read rightPtr)) newValue rightPtr
      | none => do
        let x ← child newValue self
        onNodes (write same self { n with right := some x })

end Operations

/-! ## Where the operations end -/

variable {t : PageTree} {o : Option Ptr} {p q b : Ptr} {n m c : PageTreeNode} {F : Finset Ptr}
  {fuel : ℕ}

/-- Nodes that are the same have the same links. -/
def SameLinks (same : PageTreeNode → PageTreeNode → Bool) : Prop :=
  ∀ n x, same n x = true → n.left = x.left ∧ n.right = x.right

theorem sameLinks_equals : SameLinks equals := by
  intro n x hsame
  rw [equals, Bool.and_eq_true, Bool.and_eq_true] at hsame
  exact ⟨eq_of_beq hsame.1.2, eq_of_beq hsame.2⟩

theorem sameLinks_never : SameLinks (Heap.never (N := PageTreeNode)) := nofun

theorem onNodes_read (hget : t.nodes.get p = some n) : onNodes (read p) t = .ok (n, t) := by
  rw [onNodes, read_some hget]
  rfl

theorem onPages_read {page : Page} (hget : t.pages.get p = some page) :
    onPages (read p) t = .ok (page, t) := by
  rw [onPages, read_some hget]
  rfl

/-- A node with other links is stored. -/
theorem write_of_links {same : PageTreeNode → PageTreeNode → Bool} (hsame : SameLinks same)
    (hget : t.nodes.get p = some n) (hlinks : m.left = n.left → m.right ≠ n.right) :
    onNodes (write same p m) t = .ok ((), { t with nodes := t.nodes.set p (some m) }) := by
  have hfalse : same m n ≠ true := fun hs => hlinks (hsame m n hs).1 (hsame m n hs).2
  have hany : ¬(t.nodes.get p).any (same m) = true := by
    rw [hget]
    exact hfalse
  rw [onNodes, write, Heap.write, if_neg hany]
  rfl

/-- The two sides of a node, with the fuel that is left for them. -/
theorem sides (hl : Linked t.nodes o (some p) F) (hget : t.nodes.get p = some n)
    (hfuel : F.card ≤ fuel + 1) : ∃ L R, Linked t.nodes (some p) n.left L ∧
      Linked t.nodes (some p) n.right R ∧ Disjoint L R ∧ p ∉ L ∪ R ∧ F = insert p (L ∪ R) ∧
      L.card ≤ fuel ∧ R.card ≤ fuel := by
  cases hl with
  | @node _ _ n' L R hget' _ hl hr hdisj hp =>
    obtain rfl : n' = n := Option.some.inj (hget'.symm.trans hget)
    rw [Finset.card_insert_of_notMem hp, Finset.card_union_of_disjoint hdisj] at hfuel
    exact ⟨L, R, hl, hr, hdisj, hp, rfl, by omega, by omega⟩

/-- `get` ends at some leaf of the tree. -/
theorem get_eq (hl : Linked t.nodes o (some p) F) (hget : t.nodes.get p = some n)
    (hfuel : F.card ≤ fuel) (coin : ℕ → Bool) :
    ∃ q m, q ∈ F ∧ t.nodes.get q = some m ∧ m.left = none ∧ m.right = none ∧
      ∀ same, n.get same fuel coin p t = m.take same q t := by
  induction fuel generalizing o p n F coin with
  | zero =>
    rw [Nat.le_zero, Finset.card_eq_zero] at hfuel
    exact absurd (hfuel ▸ hl.mem) (Finset.notMem_empty p)
  | succ fuel ih =>
    obtain ⟨L, R, hleft, hright, -, -, rfl, hfl, hfr⟩ := sides hl hget hfuel
    have hL : L ⊆ insert p (L ∪ R) := Finset.subset_union_left.trans (Finset.subset_insert p _)
    have hR : R ⊆ insert p (L ∪ R) := Finset.subset_union_right.trans (Finset.subset_insert p _)
    -- where it ends under a child
    have hside : ∀ c G, Linked t.nodes (some p) (some c) G → G ⊆ insert p (L ∪ R) →
        G.card ≤ fuel → ∃ q m, q ∈ insert p (L ∪ R) ∧ t.nodes.get q = some m ∧ m.left = none ∧
          m.right = none ∧ ∀ same, (do get same fuel (below coin) (← onNodes (read c)) c :
            PageTxn Page) t = m.take same q t := by
      intro c G hG hsub hfG
      obtain ⟨k, hk, -⟩ := hG.root_spec
      obtain ⟨q, m, hq, hm, hml, hmr, heq⟩ := ih hG hk hfG (below coin)
      refine ⟨q, m, hsub hq, hm, hml, hmr, fun same => ?_⟩
      rw [bind_ok (onNodes_read hk)]
      exact heq same
    simp only [get]
    cases hnl : n.left with
    | some c =>
      have hc := hside c L (hnl ▸ hleft) hL hfl
      cases hnr : n.right with
      | some d =>
        have hd := hside d R (hnr ▸ hright) hR hfr
        split_ifs
        · exact hc
        · exact hd
      | none => split_ifs <;> exact hc
    | none =>
      cases hnr : n.right with
      | some d =>
        have hd := hside d R (hnr ▸ hright) hR hfr
        split_ifs <;> exact hd
      | none =>
        refine ⟨p, n, Finset.mem_insert_self _ _, hget, hnl, hnr, fun same => ?_⟩
        split_ifs <;> rfl

/-- The state after a page was added under `q`, whose node becomes `m`. -/
def addedTo (t : PageTree) (q : Ptr) (m : PageTreeNode) (v : Page) : PageTree where
  nodes := (t.nodes.alloc { parent := some q, value := t.pages.next, size := v.size }).set q (some m)
  pages := t.pages.alloc v

/-- `add` ends at some node of the tree that has no child on one side. -/
theorem add_eq (hl : Linked t.nodes o (some p) F) (hget : t.nodes.get p = some n)
    (hfuel : F.card ≤ fuel) (coin : ℕ → Bool) (v : Page) :
    ∃ q m m', q ∈ F ∧ t.nodes.get q = some m ∧ Links t.nodes.next m m' ∧ m'.value = m.value ∧
      m'.size = m.size ∧ ∀ same, SameLinks same →
        n.add same fuel coin v p t = .ok ((), addedTo t q m' v) := by
  induction fuel generalizing o p n F coin with
  | zero =>
    rw [Nat.le_zero, Finset.card_eq_zero] at hfuel
    exact absurd (hfuel ▸ hl.mem) (Finset.notMem_empty p)
  | succ fuel ih =>
    obtain ⟨L, R, hleft, hright, -, -, rfl, hfl, hfr⟩ := sides hl hget hfuel
    have hL : L ⊆ insert p (L ∪ R) := Finset.subset_union_left.trans (Finset.subset_insert p _)
    have hR : R ⊆ insert p (L ∪ R) := Finset.subset_union_right.trans (Finset.subset_insert p _)
    -- where it ends under a child
    have hside : ∀ c G, Linked t.nodes (some p) (some c) G → G ⊆ insert p (L ∪ R) →
        G.card ≤ fuel → ∃ q m m', q ∈ insert p (L ∪ R) ∧ t.nodes.get q = some m ∧
          Links t.nodes.next m m' ∧ m'.value = m.value ∧ m'.size = m.size ∧
          ∀ same, SameLinks same → (do add same fuel (below coin) (← onNodes (read c)) v c :
            PageTxn Unit) t = .ok ((), addedTo t q m' v) := by
      intro c G hG hsub hfG
      obtain ⟨k, hk, -⟩ := hG.root_spec
      obtain ⟨q, m, m', hq, hm, hlinks, hval, hsize, heq⟩ := ih hG hk hfG (below coin)
      refine ⟨q, m, m', hsub hq, hm, hlinks, hval, hsize, fun same hsame => ?_⟩
      rw [bind_ok (onNodes_read hk)]
      exact heq same hsame
    -- a new child of this node
    have hnew : ∀ m : PageTreeNode, (m.left = n.left → m.right ≠ n.right) →
        ∀ same, SameLinks same → onNodes (write same p m)
          { nodes := t.nodes.alloc { parent := some p, value := t.pages.next, size := v.size },
            pages := t.pages.alloc v } = .ok ((), addedTo t p m v) := by
      intro m hm same hsame
      exact write_of_links hsame ((Heap.get_alloc_of_lt (Heap.lt_next hget)).trans hget) hm
    simp only [add]
    split_ifs
    · cases hnl : n.left with
      | some c => exact hside c L (hnl ▸ hleft) hL hfl
      | none =>
        refine ⟨p, n, { n with left := some t.nodes.next }, Finset.mem_insert_self _ _, hget,
          ⟨rfl, .inl ⟨hnl, rfl, rfl⟩⟩, rfl, rfl, hnew _ fun heq => ?_⟩
        rw [hnl] at heq
        cases heq
    · cases hnr : n.right with
      | some c => exact hside c R (hnr ▸ hright) hR hfr
      | none =>
        refine ⟨p, n, { n with right := some t.nodes.next }, Finset.mem_insert_self _ _, hget,
          ⟨rfl, .inr ⟨hnr, rfl, rfl⟩⟩, rfl, rfl, hnew _ fun _ heq => ?_⟩
        rw [hnr] at heq
        cases heq

/-- `unlinkParent` clears the link of the parent, if that has one. -/
theorem unlinkParent_spec (hparent : m.parent = some b) (hc : t.nodes.get b = some c)
    (hone : OneChild c q) : ∃ c' : PageTreeNode, Unlinks q c c' ∧ c'.value = c.value ∧
      c'.size = c.size ∧ ∀ same, SameLinks same →
        m.unlinkParent same q t = .ok ((), { t with nodes := t.nodes.set b (some c') }) := by
  have hfirst : ∀ same, m.unlinkParent same q t =
      (if c.left = some q then onNodes (write same b { c with left := none })
        else if c.right = some q then onNodes (write same b { c with right := none })
        else throw (.runtimeException "Child Link Not Found") : PageTxn Unit) t := by
    intro same
    rw [unlinkParent, hparent]
    exact bind_ok (onNodes_read hc)
  have hone' : c.left = some q ∧ c.right ≠ some q ∨ c.left ≠ some q ∧ c.right = some q := hone
  rcases hone' with ⟨hcl, hcr⟩ | ⟨hcl, hcr⟩
  · refine ⟨{ c with left := none }, ⟨rfl, (if_pos hcl).symm, (if_neg hcr).symm⟩, rfl, rfl,
      fun same hsame => ?_⟩
    rw [hfirst, if_pos hcl]
    refine write_of_links hsame hc fun heq => ?_
    exact absurd (heq.trans hcl) (Option.some_ne_none q).symm
  · refine ⟨{ c with right := none }, ⟨rfl, (if_neg hcl).symm, (if_pos hcr).symm⟩, rfl, rfl,
      fun same hsame => ?_⟩
    rw [hfirst, if_neg hcl, if_pos hcr]
    refine write_of_links hsame hc fun _ heq => ?_
    exact absurd (heq.trans hcr) (Option.some_ne_none q).symm

/-- The size of a node that is stored. -/
def sizeAt (t : PageTree) (p : Ptr) : ℕ := ((t.nodes.get p).map size).getD 0

/-- `treeSize` is the sum of the sizes of the nodes. -/
theorem treeSize_eq (hl : Linked t.nodes o (some p) F) (hget : t.nodes.get p = some n)
    (hfuel : F.card ≤ fuel) : n.treeSize fuel t = .ok (∑ p ∈ F, sizeAt t p, t) := by
  induction fuel generalizing o p n F with
  | zero =>
    rw [Nat.le_zero, Finset.card_eq_zero] at hfuel
    exact absurd (hfuel ▸ hl.mem) (Finset.notMem_empty p)
  | succ fuel ih =>
    obtain ⟨L, R, hleft, hright, hdisj, hp, rfl, hfl, hfr⟩ := sides hl hget hfuel
    have hside : ∀ l G, Linked t.nodes (some p) l G → G.card ≤ fuel →
        ((l.map fun ptr => do treeSize fuel (← onNodes (read ptr))).getD (return 0) :
          PageTxn ℕ) t = .ok (∑ p ∈ G, sizeAt t p, t) := by
      intro l G hG hfG
      cases l with
      | none =>
        rw [hG.eq_empty]
        rfl
      | some c =>
        obtain ⟨k, hk, -⟩ := hG.root_spec
        exact (bind_ok (onNodes_read hk)).trans (ih hG hk hfG)
    have hself : sizeAt t p = n.size := by
      rw [sizeAt, hget]
      rfl
    rw [treeSize, bind_ok (hside _ L hleft hfl), bind_ok (hside _ R hright hfr),
      Finset.sum_insert hp, Finset.sum_union hdisj, hself, Nat.add_comm n.size]
    rfl

end PageTreeNode

namespace PageTree

open Nodes

/-- `apply` (lines 42–43). -/
def create : PageTree := {}

/-- More than the depth of any tree of stored nodes. -/
def fuel (t : PageTree) : ℕ := t.nodes.next

section Operations

variable (same : PageTreeNode → PageTreeNode → Bool)

/-- `add` (lines 217–230). -/
def add (coin : ℕ → Bool) (value : Page) (t : PageTree) : Except Failure (Unit × PageTree) :=
  match t.nodes.get rootPtr with
  | some root => root.add same t.fuel coin value rootPtr t
  | none => (do
    let ptr ← onPages (dynamic value)
    onNodes (write same rootPtr { parent := none, value := ptr, size := value.size }) :
      PageTxn Unit) t

/-- `get` (lines 258–263). -/
def get (coin : ℕ → Bool) (t : PageTree) : Except Failure (Option Page × PageTree) :=
  match t.nodes.get rootPtr with
  | some root => (root.get same t.fuel coin rootPtr t).map fun r => (some r.1, r.2)
  | none => return (none, t)

end Operations

/-- `size` (lines 269–271). -/
def size (t : PageTree) : Except Failure ℕ :=
  match t.nodes.get rootPtr with
  | some root => (root.treeSize t.fuel t).map (·.1)
  | none => return 0

/-! ## The pages of a tree -/

/-- The page of a node that is stored. -/
def pageOf (t : PageTree) (p : Ptr) : Option Page :=
  (t.nodes.get p).bind fun n => t.pages.get n.value

/-- The root, if it is stored. -/
def rootLink (t : PageTree) : Option Ptr := (t.nodes.get rootPtr).map fun _ => rootPtr

/-- The nodes stored are those of a tree, and each one has the size of its page. -/
structure Shape (t : PageTree) (F : Finset Ptr) : Prop where
  linked : Linked t.nodes none t.rootLink F
  reached : ∀ p n, t.nodes.get p = some n → p ∈ F
  page : ∀ p n, t.nodes.get p = some n → ∃ v, t.pages.get n.value = some v ∧ n.size = v.size
  drawn : rootPtr < t.nodes.next

/-- The tree holds the pages `M`. -/
def Holds (t : PageTree) (M : Multiset Page) : Prop :=
  ∃ F, Shape t F ∧ M = F.val.filterMap t.pageOf

variable {t t' : PageTree} {F : Finset Ptr} {M : Multiset Page} {p q : Ptr} {n : PageTreeNode}
  {v : Page}

/-- A tree is empty, or has a root. -/
theorem rootLink_cases (hl : Linked t.nodes none t.rootLink F) :
    t.nodes.get rootPtr = none ∧ F = ∅ ∨
      ∃ r, t.nodes.get rootPtr = some r ∧ Linked t.nodes none (some rootPtr) F := by
  unfold rootLink at hl
  cases hr : t.nodes.get rootPtr with
  | none =>
    rw [hr] at hl
    exact .inl ⟨rfl, hl.eq_empty⟩
  | some r =>
    rw [hr] at hl
    exact .inr ⟨r, rfl, hl⟩

theorem Shape.cases (h : Shape t F) : t.nodes.get rootPtr = none ∧ F = ∅ ∨
    ∃ r, t.nodes.get rootPtr = some r ∧ Linked t.nodes none (some rootPtr) F :=
  rootLink_cases h.linked

theorem Shape.root (h : Shape t F) (hq : q ∈ F) :
    ∃ r, t.nodes.get rootPtr = some r ∧ Linked t.nodes none (some rootPtr) F := by
  rcases h.cases with ⟨-, rfl⟩ | hroot
  · cases hq
  · exact hroot

theorem Shape.card_le (h : Shape t F) : F.card ≤ t.fuel := h.linked.card_le

theorem rootLink_of_some (hr : t.nodes.get rootPtr = some n) : t.rootLink = some rootPtr := by
  rw [rootLink, hr]
  rfl

theorem pageOf_eq (hn : t.nodes.get p = some n) (hv : t.pages.get n.value = some v) :
    t.pageOf p = some v := by
  rw [pageOf, hn]
  exact hv

/-- Pages that are stored under other pointers do not matter. -/
theorem filterMap_congr {f g : Ptr → Option Page} (h : ∀ p ∈ F, f p = g p) :
    F.val.filterMap f = F.val.filterMap g := by
  have hval : ∀ S : Multiset Ptr, (∀ p ∈ S, f p = g p) → S.filterMap f = S.filterMap g := by
    intro S
    induction S using Multiset.induction_on with
    | empty => exact fun _ => rfl
    | cons p S ih =>
      intro hS
      have ih' := ih fun q hq => hS q (Multiset.mem_cons_of_mem hq)
      have hp := hS p (Multiset.mem_cons_self p S)
      cases hg : g p with
      | none => rw [Multiset.filterMap_cons_none _ _ hg, Multiset.filterMap_cons_none _ _
          (hp.trans hg), ih']
      | some x => rw [Multiset.filterMap_cons_some _ _ _ hg, Multiset.filterMap_cons_some _ _ _
          (hp.trans hg), ih']
  exact hval F.val h

/-- `size` counts the rows. -/
theorem Holds.size (h : Holds t M) : t.size = .ok (M.map Page.size).sum := by
  obtain ⟨F, hshape, rfl⟩ := h
  have hsum : ∀ S : Multiset Ptr, S ≤ F.val →
      ((S.filterMap t.pageOf).map Page.size).sum = (S.map (PageTreeNode.sizeAt t)).sum := by
    intro S
    induction S using Multiset.induction_on with
    | empty => exact fun _ => rfl
    | cons p S ih =>
      intro hS
      have hp : p ∈ F := Multiset.mem_of_le hS (Multiset.mem_cons_self p S)
      obtain ⟨n, hn⟩ := hshape.linked.stored hp
      obtain ⟨v, hv, hsize⟩ := hshape.page p n hn
      have hat : PageTreeNode.sizeAt t p = v.size := by
        rw [PageTreeNode.sizeAt, hn, ← hsize]
        rfl
      rw [Multiset.filterMap_cons_some _ _ _ (pageOf_eq hn hv), Multiset.map_cons,
        Multiset.map_cons, Multiset.sum_cons, Multiset.sum_cons, hat,
        ih ((Multiset.le_cons_self S p).trans hS)]
  rw [hsum _ le_rfl]
  unfold PageTree.size
  rcases hshape.cases with ⟨hr, rfl⟩ | ⟨r, hr, hl⟩
  · rw [hr]
    rfl
  · rw [hr]
    show Except.map _ _ = _
    rw [PageTreeNode.treeSize_eq hl hr hshape.card_le]
    rfl

/-- A page added to an empty tree is its root. -/
def addedRoot (t : PageTree) (v : Page) : PageTree where
  nodes := t.nodes.set rootPtr (some { parent := none, value := t.pages.next, size := v.size })
  pages := t.pages.alloc v

theorem Shape.addedRoot (h : Shape t ∅) :
    Shape (addedRoot t v) {rootPtr} := by
  have hget : (PageTree.addedRoot t v).nodes.get rootPtr =
      some { parent := none, value := t.pages.next, size := v.size } :=
    Heap.get_set_self h.drawn
  have hother : ∀ p n, (PageTree.addedRoot t v).nodes.get p = some n → p = rootPtr := by
    intro p n hn
    by_contra hne
    rw [PageTree.addedRoot, Heap.get_set_of_ne hne] at hn
    exact absurd (h.reached p n hn) (Finset.notMem_empty p)
  refine ⟨?_, fun p n hn => Finset.mem_singleton.mpr (hother p n hn), fun p n hn => ?_, ?_⟩
  · rw [rootLink_of_some hget]
    have hs := Linked.node (o := none) hget rfl .nil .nil (Finset.disjoint_empty_left ∅)
      (Finset.notMem_empty _)
    rwa [Finset.empty_union] at hs
  · obtain rfl := hother p n hn
    obtain rfl := Option.some.inj (hget.symm.trans hn)
    exact ⟨v, Heap.get_alloc_self, rfl⟩
  · rw [PageTree.addedRoot, Heap.next_set]
    exact h.drawn

/-- A page added under a node. -/
theorem Shape.addedTo (h : Shape t F) {m m' : PageTreeNode} (hq : q ∈ F)
    (hm : t.nodes.get q = some m) (hlinks : Links t.nodes.next m m') (hval : m'.value = m.value)
    (hsize : m'.size = m.size) :
    Shape (PageTreeNode.addedTo t q m' v) (insert t.nodes.next F) ∧
      t.nodes.next ∉ F ∧ (PageTreeNode.addedTo t q m' v).pageOf t.nodes.next = some v ∧
      ∀ p ∈ F, (PageTreeNode.addedTo t q m' v).pageOf p = t.pageOf p := by
  have hqlt := Heap.lt_next hm
  have hnext : t.nodes.next ≠ q := Nat.ne_of_gt hqlt
  have hq' : (PageTreeNode.addedTo t q m' v).nodes.get q = some m' := by
    refine Heap.get_set_self ?_
    rw [Heap.next_alloc]
    exact Nat.lt_succ_of_lt hqlt
  have hx : (PageTreeNode.addedTo t q m' v).nodes.get t.nodes.next =
      some { parent := some q, value := t.pages.next, size := v.size } :=
    (Heap.get_set_of_ne hnext).trans Heap.get_alloc_self
  have hother : ∀ p, p ≠ q → p ≠ t.nodes.next →
      (PageTreeNode.addedTo t q m' v).nodes.get p = t.nodes.get p := fun p hp hp' =>
    (Heap.get_set_of_ne hp).trans (Heap.get_alloc_of_ne hp')
  have hfresh : t.nodes.next ∉ F := fun hmem =>
    absurd (h.linked.lt_next _ hmem) (Nat.lt_irrefl _)
  have hkept : ∀ p v', t.pages.get p = some v' →
      (PageTreeNode.addedTo t q m' v).pages.get p = some v' := fun p v' hv =>
    (Heap.get_alloc_of_lt (Heap.lt_next hv)).trans hv
  obtain ⟨r, hr, hl⟩ := h.root hq
  have hroot : ∃ r', (PageTreeNode.addedTo t q m' v).nodes.get rootPtr = some r' := by
    by_cases heq : rootPtr = q
    · exact ⟨m', heq ▸ hq'⟩
    · exact ⟨r, (hother _ heq (Nat.ne_of_lt h.drawn)).trans hr⟩
  obtain ⟨r', hr'⟩ := hroot
  refine ⟨⟨?_, fun p n hn => ?_, fun p n hn => ?_, ?_⟩, hfresh, ?_, fun p hp => ?_⟩
  · rw [rootLink_of_some hr']
    exact hl.link hq hfresh hm hq' hlinks hx rfl rfl rfl fun p hp hne =>
      hother p hne fun heq => hfresh (heq ▸ hp)
  · by_cases hp : p = t.nodes.next
    · exact hp ▸ Finset.mem_insert_self _ _
    · refine Finset.mem_insert_of_mem ?_
      by_cases hpq : p = q
      · exact hpq ▸ hq
      · exact h.reached p n ((hother p hpq hp).symm.trans hn)
  · by_cases hp : p = t.nodes.next
    · subst hp
      obtain rfl := Option.some.inj (hx.symm.trans hn)
      exact ⟨v, Heap.get_alloc_self, rfl⟩
    · by_cases hpq : p = q
      · subst hpq
        obtain rfl := Option.some.inj (hq'.symm.trans hn)
        obtain ⟨v', hv', hs⟩ := h.page p m hm
        exact ⟨v', hval ▸ hkept _ _ hv', hsize.trans hs⟩
      · obtain ⟨v', hv', hs⟩ := h.page p n ((hother p hpq hp).symm.trans hn)
        exact ⟨v', hkept _ _ hv', hs⟩
  · rw [PageTreeNode.addedTo, Heap.next_set, Heap.next_alloc]
    exact Nat.lt_succ_of_lt h.drawn
  · exact pageOf_eq hx Heap.get_alloc_self
  · obtain ⟨n, hn⟩ := h.linked.stored hp
    obtain ⟨v', hv', -⟩ := h.page p n hn
    rw [pageOf_eq hn hv']
    by_cases hpq : p = q
    · subst hpq
      obtain rfl := Option.some.inj (hn.symm.trans hm)
      exact pageOf_eq hq' (hval ▸ hkept _ _ hv')
    · exact pageOf_eq ((hother p hpq fun heq => hfresh (heq ▸ hp)).trans hn) (hkept _ _ hv')

/-- `add` adds a page, and skips no write. -/
theorem Holds.add (h : Holds t M) (coin : ℕ → Bool) (v : Page) :
    ∃ t', (∀ same, PageTreeNode.SameLinks same → t.add same coin v = .ok ((), t')) ∧
      Holds t' (v ::ₘ M) := by
  obtain ⟨F, hshape, rfl⟩ := h
  rcases hshape.cases with ⟨hr, rfl⟩ | ⟨r, hr, hl⟩
  · refine ⟨addedRoot t v, fun same _ => ?_, {rootPtr}, hshape.addedRoot, ?_⟩
    · rw [PageTree.add, hr]
      have hany : ¬(t.nodes.get rootPtr).any
          (same { parent := none, value := t.pages.next, size := v.size }) = true := by
        rw [hr]
        exact Bool.false_ne_true
      show Except.ok ((), _) = _
      rw [Heap.write, if_neg hany]
      rfl
    · have hv : (addedRoot t v).pageOf rootPtr = some v :=
        pageOf_eq (Heap.get_set_self hshape.drawn) Heap.get_alloc_self
      show _ = Multiset.filterMap _ (rootPtr ::ₘ 0)
      rw [Multiset.filterMap_cons_some _ _ _ hv]
      rfl
  · obtain ⟨q, m, m', hq, hm, hlinks, hval, hsize, hadd⟩ :=
      PageTreeNode.add_eq hl hr hshape.card_le coin v
    obtain ⟨hshape', hfresh, hpage, hpages⟩ := hshape.addedTo (v := v) hq hm hlinks hval hsize
    refine ⟨_, fun same hsame => ?_, _, hshape', ?_⟩
    · rw [PageTree.add, hr]
      exact hadd same hsame
    · rw [Finset.insert_val_of_notMem hfresh, Multiset.filterMap_cons_some _ _ _ hpage,
        filterMap_congr hpages]

/-- The root is taken, as the last node. -/
theorem Shape.takenRoot (h : Shape t {rootPtr}) :
    Shape { t with nodes := t.nodes.set rootPtr none } ∅ := by
  have hnone : (t.nodes.set rootPtr none).get rootPtr = none := Heap.get_set_self h.drawn
  have hempty : ∀ p n, (t.nodes.set rootPtr none).get p = some n → False := by
    intro p n hn
    by_cases hp : p = rootPtr
    · rw [hp, hnone] at hn
      cases hn
    · rw [Heap.get_set_of_ne hp] at hn
      exact hp (Finset.mem_singleton.mp (h.reached p n hn))
  refine ⟨?_, fun p n hn => (hempty p n hn).elim, fun p n hn => (hempty p n hn).elim, ?_⟩
  · unfold rootLink
    rw [hnone]
    exact .nil
  · rw [Heap.next_set]
    exact h.drawn

/-- The state after the leaf `q` was taken from its parent `b`, whose node becomes `c`. -/
def takenFrom (t : PageTree) (q b : Ptr) (c : PageTreeNode) : PageTree :=
  { t with nodes := (t.nodes.set b (some c)).set q none }

/-- A leaf is taken from its parent. -/
theorem Shape.takenFrom (h : Shape t F) {b : Ptr} {m c c' : PageTreeNode} (hq : q ∈ F)
    (hqr : rootPtr ≠ q) (hm : t.nodes.get q = some m) (hleft : m.left = none)
    (hright : m.right = none) (hparent : m.parent = some b) (hb : b ∈ F)
    (hc : t.nodes.get b = some c) (hbq : b ≠ q) (hunlinks : Unlinks q c c')
    (hval : c'.value = c.value) (hsize : c'.size = c.size) :
    Shape (takenFrom t q b c') (F.erase q) ∧
      ∀ p ∈ F.erase q, (takenFrom t q b c').pageOf p = t.pageOf p := by
  have hgone : (PageTree.takenFrom t q b c').nodes.get q = none := by
    refine Heap.get_set_self ?_
    rw [Heap.next_set]
    exact Heap.lt_next hm
  have hb' : (PageTree.takenFrom t q b c').nodes.get b = some c' :=
    (Heap.get_set_of_ne hbq).trans (Heap.get_set_self (Heap.lt_next hc))
  have hother : ∀ p, p ≠ b → p ≠ q →
      (PageTree.takenFrom t q b c').nodes.get p = t.nodes.get p := fun p hp hp' =>
    (Heap.get_set_of_ne hp').trans (Heap.get_set_of_ne hp)
  have hne : ∀ p n, (PageTree.takenFrom t q b c').nodes.get p = some n → p ≠ q := by
    rintro p n hn rfl
    rw [hgone] at hn
    cases hn
  obtain ⟨r, hr, hl⟩ := h.root hq
  have hroot : ∃ r', (PageTree.takenFrom t q b c').nodes.get rootPtr = some r' := by
    by_cases heq : rootPtr = b
    · exact ⟨c', heq ▸ hb'⟩
    · exact ⟨r, (hother _ heq hqr).trans hr⟩
  obtain ⟨r', hr'⟩ := hroot
  refine ⟨⟨?_, fun p n hn => ?_, fun p n hn => ?_, ?_⟩, fun p hp => ?_⟩
  · rw [rootLink_of_some hr']
    exact hl.unlink hq (fun heq => hqr (Option.some.inj heq)) hm hleft hright hparent hc hb'
      hunlinks hother
  · refine Finset.mem_erase.mpr ⟨hne p n hn, ?_⟩
    by_cases hpb : p = b
    · exact hpb ▸ hb
    · exact h.reached p n ((hother p hpb (hne p n hn)).symm.trans hn)
  · by_cases hpb : p = b
    · subst hpb
      obtain rfl := Option.some.inj (hb'.symm.trans hn)
      obtain ⟨v, hv, hs⟩ := h.page p c hc
      exact ⟨v, hval ▸ hv, hsize.trans hs⟩
    · exact h.page p n ((hother p hpb (hne p n hn)).symm.trans hn)
  · rw [PageTree.takenFrom, Heap.next_set, Heap.next_set]
    exact h.drawn
  · obtain ⟨hpq, -⟩ := Finset.mem_erase.mp hp
    unfold pageOf
    by_cases hpb : p = b
    · subst hpb
      rw [hc, hb', Option.bind_some, Option.bind_some, hval]
      rfl
    · rw [hother p hpb hpq]
      rfl

/-- A leaf is taken, with its page: its parent has it as one of its children. -/
theorem Shape.take (h : Shape t F) {m : PageTreeNode} (hq : q ∈ F)
    (hm : t.nodes.get q = some m) (hleft : m.left = none) (hright : m.right = none) :
    ∃ v t', t.pageOf q = some v ∧ (∀ same, PageTreeNode.SameLinks same →
        m.take same q t = .ok (v, t')) ∧
      Shape t' (F.erase q) ∧ ∀ p ∈ F.erase q, t'.pageOf p = t.pageOf p := by
  obtain ⟨v, hv, -⟩ := h.page q m hm
  obtain ⟨r, hr, hl⟩ := h.root hq
  by_cases hqr : rootPtr = q
  · subst hqr
    obtain ⟨rfl, hparent⟩ := hl.eq_singleton hm hleft hright
    have hunlink : ∀ same, m.unlinkParent same rootPtr t = .ok ((), t) := by
      have hparent' : m.parent = none := hparent
      intro same
      rw [PageTreeNode.unlinkParent, hparent']
      rfl
    refine ⟨v, _, pageOf_eq hm hv, fun same _ => ?_, Finset.erase_singleton rootPtr ▸ h.takenRoot,
      ?_⟩
    · rw [PageTreeNode.take, bind_ok (hunlink same)]
      exact PageTreeNode.onPages_read (t := ⟨_, t.pages⟩) hv
    · rw [Finset.erase_singleton]
      exact fun p hp => absurd hp (Finset.notMem_empty p)
  · obtain ⟨m₁, b, c, hm₁, hparent, hb, hc, hone⟩ :=
      hl.parent_spec hq fun heq => hqr (Option.some.inj heq)
    obtain rfl := Option.some.inj (hm₁.symm.trans hm)
    -- a leaf has no child, so that it is not its own parent
    have hbq : b ≠ q := by
      rintro rfl
      obtain rfl := Option.some.inj (hc.symm.trans hm)
      rcases hone with ⟨hchild, -⟩ | ⟨-, hchild⟩
      · exact absurd (hchild.symm.trans hleft) (Option.some_ne_none b)
      · exact absurd (hchild.symm.trans hright) (Option.some_ne_none b)
    obtain ⟨c', hunlinks, hval, hsize, hunlink⟩ :=
      PageTreeNode.unlinkParent_spec hparent hc hone
    obtain ⟨hshape, hpages⟩ :=
      h.takenFrom hq hqr hm hleft hright hparent hb hc hbq hunlinks hval hsize
    refine ⟨v, _, pageOf_eq hm hv, fun same hsame => ?_, hshape, hpages⟩
    rw [PageTreeNode.take, bind_ok (hunlink same hsame)]
    exact PageTreeNode.onPages_read (t := ⟨_, t.pages⟩) hv

/-- `get` of an empty tree is `None`. -/
theorem Holds.get_zero (h : Holds t 0) (same : PageTreeNode → PageTreeNode → Bool)
    (coin : ℕ → Bool) : t.get same coin = .ok (none, t) := by
  obtain ⟨F, hshape, hM⟩ := h
  rcases hshape.cases with ⟨hr, -⟩ | ⟨r, hr, hl⟩
  · rw [PageTree.get, hr]
    rfl
  · obtain ⟨v, hv, -⟩ := hshape.page _ _ hr
    have hmem : v ∈ F.val.filterMap t.pageOf :=
      (Multiset.mem_filterMap _ _).mpr ⟨rootPtr, hl.mem, pageOf_eq hr hv⟩
    rw [← hM] at hmem
    exact absurd hmem (Multiset.notMem_zero v)

/-- `get` takes a page, and skips no write. -/
theorem Holds.get (h : Holds t M) (hM : M ≠ 0) (coin : ℕ → Bool) :
    ∃ v t' M', (∀ same, PageTreeNode.SameLinks same → t.get same coin = .ok (some v, t')) ∧
      Holds t' M' ∧ M = v ::ₘ M' := by
  obtain ⟨F, hshape, rfl⟩ := h
  rcases hshape.cases with ⟨hr, rfl⟩ | ⟨r, hr, hl⟩
  · exact absurd rfl hM
  · obtain ⟨q, m, hq, hm, hleft, hright, hget⟩ :=
      PageTreeNode.get_eq hl hr hshape.card_le coin
    obtain ⟨v, t', hv, htake, hshape', hpages⟩ := hshape.take hq hm hleft hright
    refine ⟨v, t', _, fun same hsame => ?_, ⟨_, hshape', rfl⟩, ?_⟩
    · rw [PageTree.get, hr]
      show Except.map _ _ = _
      rw [hget, htake same hsame]
      rfl
    · have hF : F.val = q ::ₘ (F.erase q).val := by
        rw [Finset.erase_val, Multiset.cons_erase hq]
      rw [filterMap_congr hpages, hF, Multiset.filterMap_cons_some _ _ _ hv]

/-- The parent pointer of every node but the root names a node that has it as exactly one of its
    children. -/
def SoundLinks (t : PageTree) : Prop :=
  ∀ p n, t.nodes.get p = some n → p ≠ rootPtr →
    ∃ b m, n.parent = some b ∧ t.nodes.get b = some m ∧ OneChild m p

theorem Holds.soundLinks (h : Holds t M) : SoundLinks t := by
  obtain ⟨F, hshape, -⟩ := h
  intro p n hn hp
  have hne : t.rootLink ≠ some p := by
    unfold rootLink
    cases t.nodes.get rootPtr with
    | none => exact (Option.some_ne_none p).symm
    | some r => exact fun heq => hp (Option.some.inj heq).symm
  obtain ⟨n', b, m, hn', hparent, -, hm, hone⟩ :=
    hshape.linked.parent_spec (hshape.reached p n hn) hne
  obtain rfl := Option.some.inj (hn'.symm.trans hn)
  exact ⟨b, m, hparent, hm, hone⟩

/-! ## Runs -/

/-- A call, with the random bits that it draws. -/
inductive Call
  | add (value : Page) (coin : ℕ → Bool)
  | get (coin : ℕ → Bool)
  | size

/-- What a call returns. -/
inductive Result
  | unit
  | page (value : Option Page)
  | size (n : ℕ)
deriving DecidableEq

/-- One call, as a transaction. -/
def step (same : PageTreeNode → PageTreeNode → Bool) (t : PageTree) :
    Call → Except Failure Result × PageTree
  | .add value coin => attempt ((t.add same coin value).map fun r => (.unit, r.2)) t
  | .get coin => attempt ((t.get same coin).map fun r => (.page r.1, r.2)) t
  | .size => (t.size.map .size, t)

/-- A bag of pages: `get` takes any one of them, and `size` counts the rows. -/
def bag (M : Multiset Page) (call : Call) (r : Except Failure Result) (M' : Multiset Page) : Prop :=
  match call with
  | .add value _ => r = .ok .unit ∧ M' = value ::ₘ M
  | .get _ => M = 0 ∧ M' = 0 ∧ r = .ok (.page none) ∨ ∃ v, M = v ::ₘ M' ∧ r = .ok (.page (some v))
  | .size => M' = M ∧ r = .ok (.size (M.map Page.size).sum)

/-- Every call meets the specification, whatever writes of nodes with the same links are skipped:
    none is. -/
theorem Holds.step (h : Holds t M) (call : Call) :
    ∃ r t' M', (∀ same, PageTreeNode.SameLinks same → PageTree.step same t call = (r, t')) ∧
      bag M call r M' ∧ Holds t' M' := by
  cases call with
  | add value coin =>
    obtain ⟨t', hadd, h'⟩ := h.add coin value
    refine ⟨_, t', _, fun same hsame => ?_, ⟨rfl, rfl⟩, h'⟩
    rw [PageTree.step, hadd same hsame]
    rfl
  | get coin =>
    by_cases hM : M = 0
    · subst hM
      refine ⟨_, t, 0, fun same _ => ?_, .inl ⟨rfl, rfl, rfl⟩, h⟩
      rw [PageTree.step, h.get_zero same coin]
      rfl
    · obtain ⟨v, t', M', hget, h', hv⟩ := h.get hM coin
      refine ⟨_, t', M', fun same hsame => ?_, .inr ⟨v, hv, rfl⟩, h'⟩
      rw [PageTree.step, hget same hsame]
      rfl
  | size =>
    refine ⟨_, t, M, fun same _ => ?_, ⟨rfl, rfl⟩, h⟩
    rw [PageTree.step, h.size]
    rfl

theorem simulates_bag {same : PageTreeNode → PageTreeNode → Bool}
    (hsame : PageTreeNode.SameLinks same) : Simulates (step same) bag Holds := by
  intro t M call h
  obtain ⟨r, t', M', hstep, hbag, h'⟩ := h.step call
  rw [hstep same hsame]
  exact ⟨M', hbag, h'⟩

theorem holds_create : Holds create 0 := by
  refine ⟨∅, ⟨.nil, ?_, ?_, Nat.zero_lt_one⟩, rfl⟩
  all_goals
    intro p n hn
    cases p <;> cases hn

/-- The code's calls. -/
abbrev call : PageTree → Call → Except Failure Result × PageTree := step PageTreeNode.equals

/-- A `PageTree` is a bag of pages, whatever the bits are, and its links are sound. -/
theorem allows_bag_pages (calls : List Call) :
    (∃ M, Allows bag 0 calls (results call create calls) M) ∧
      SoundLinks (run (next call) create calls) := by
  obtain ⟨M, hallows, h⟩ := (simulates_bag PageTreeNode.sameLinks_equals).allows holds_create calls
  exact ⟨⟨M, hallows⟩, h.soundLinks⟩

end PageTree

end ReSTM
