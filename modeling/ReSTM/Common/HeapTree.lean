import Mathlib.Data.Finset.Card
import Mathlib.Data.Finset.Lattice.Lemmas
import Mathlib.Data.Finset.Range
import Mathlib.Data.Tree.Basic
import ReSTM.Common.Heap

/-!
# Trees of stored nodes

A node has a value and, for each side, perhaps the pointer to a child. `Stored h o t F` says
that the heap `h` stores the tree `t` under the pointer `o`, with its nodes under the pointers
`F`, each of which has one node of the tree. `Held h n t F` is the same of a node that has
been read and of what is stored below it.

* `Stored.frame`, `Held.frame`: changes elsewhere do not matter.
* `Held.numNodes_le`: a tree has no more nodes than there are pointers.
* `Extends.held_left`, `Extends.held_right`: an operation on one side leaves the other as it is.
* `Extends.stored_write`: a changed node is written back.
-/

namespace HeapModel

open BinaryTree

universe u v

/-- The nodes of a tree. -/
class TreeNode (N : Type u) (α : outParam (Type v)) where
  val : N → α
  left : N → Option Ptr
  right : N → Option Ptr

open TreeNode

variable {N : Type u} {α : Type v} [TreeNode N α]

/-- The tree under a pointer. -/
inductive Stored (h : Heap N) : Option Ptr → BinaryTree α → Finset Ptr → Prop
  | nil : Stored h none nil ∅
  | node {p : Ptr} {n : N} {l r : BinaryTree α} {L R : Finset Ptr} (hget : h.get p = some n)
      (hl : Stored h (left n) l L) (hr : Stored h (right n) r R) (hdisj : Disjoint L R)
      (hp : p ∉ L ∪ R) : Stored h (some p) (node (val n) l r) (insert p (L ∪ R))

/-- The tree of a node that has been read. -/
inductive Held (h : Heap N) (n : N) : BinaryTree α → Finset Ptr → Prop
  | node {l r : BinaryTree α} {L R : Finset Ptr} (hl : Stored h (left n) l L)
      (hr : Stored h (right n) r R) (hdisj : Disjoint L R) : Held h n (node (val n) l r) (L ∪ R)

/-- Only the pointers of `F` and new ones have changed, and the pointers `F'` are among these. -/
structure Extends (h : Heap N) (F : Finset Ptr) (h' : Heap N) (F' : Finset Ptr) : Prop where
  next_le : h.next ≤ h'.next
  frame : ∀ p < h.next, p ∉ F → h'.get p = h.get p
  foot : ∀ p ∈ F', p ∈ F ∨ h.next ≤ p

variable {h h' h'' : Heap N} {n n' m : N} {o : Option Ptr} {p : Ptr} {t t' l r : BinaryTree α}
  {l' r' : BinaryTree α} {F F' G G' L L' R R' : Finset Ptr}

theorem Stored.lt_next (hs : Stored h o t F) : ∀ p ∈ F, p < h.next := by
  induction hs with
  | nil => exact fun p hp => absurd hp (Finset.notMem_empty p)
  | node hget _ _ _ _ ihl ihr =>
    intro q hq
    rw [Finset.mem_insert, Finset.mem_union] at hq
    rcases hq with rfl | hq | hq
    · exact Heap.lt_next hget
    · exact ihl q hq
    · exact ihr q hq

theorem Held.lt_next (hh : Held h n t F) : ∀ p ∈ F, p < h.next := by
  cases hh with
  | node hl hr _ =>
    intro p hp
    rcases Finset.mem_union.mp hp with hp | hp
    · exact hl.lt_next p hp
    · exact hr.lt_next p hp

/-- Changes elsewhere do not matter. -/
theorem Stored.frame (hs : Stored h o t F) (hsame : ∀ p ∈ F, h'.get p = h.get p) :
    Stored h' o t F := by
  induction hs with
  | nil => exact .nil
  | node hget _ _ hdisj hp ihl ihr =>
    refine .node ?_ (ihl fun q hq => ?_) (ihr fun q hq => ?_) hdisj hp
    · rw [hsame _ (Finset.mem_insert_self _ _), hget]
    · exact hsame q (Finset.mem_insert_of_mem (Finset.mem_union_left _ hq))
    · exact hsame q (Finset.mem_insert_of_mem (Finset.mem_union_right _ hq))

theorem Held.frame (hh : Held h n t F) (hsame : ∀ p ∈ F, h'.get p = h.get p) : Held h' n t F := by
  cases hh with
  | node hl hr hdisj =>
    exact .node (hl.frame fun p hp => hsame p (Finset.mem_union_left _ hp))
      (hr.frame fun p hp => hsame p (Finset.mem_union_right _ hp)) hdisj

theorem Stored.leaf (hget : h.get p = some n) (hleft : left n = none) (hright : right n = none) :
    Stored h (some p) (BinaryTree.node (val n) .nil .nil) {p} := by
  have hl : Stored h (left n) BinaryTree.nil ∅ := hleft ▸ .nil
  have hr : Stored h (right n) BinaryTree.nil ∅ := hright ▸ .nil
  have hs := Stored.node hget hl hr (Finset.disjoint_empty_left ∅) (Finset.notMem_empty p)
  rwa [Finset.empty_union] at hs

theorem Stored.none_iff : Stored h none t F ↔ t = .nil ∧ F = ∅ := by
  constructor
  · intro hs
    cases hs
    exact ⟨rfl, rfl⟩
  · rintro ⟨rfl, rfl⟩
    exact .nil

theorem Stored.eq_nil_iff (hs : Stored h o t F) : t = .nil ↔ o = none := by
  cases hs <;> simp

/-- A stored tree is read as the node under its pointer. -/
theorem Stored.held (hs : Stored h (some p) t F) :
    ∃ n G, h.get p = some n ∧ Held h n t G ∧ p ∉ G ∧ F = insert p G := by
  cases hs with
  | node hget hl hr hdisj hp => exact ⟨_, _, hget, .node hl hr hdisj, hp, rfl⟩

/-- Under a pointer there is no tree, or there is a node. -/
theorem Stored.cases (hs : Stored h o t F) :
    o = none ∧ t = .nil ∧ F = ∅ ∨
      ∃ p n G, o = some p ∧ h.get p = some n ∧ Held h n t G ∧ p ∉ G ∧ F = insert p G := by
  cases o with
  | none => exact .inl ⟨rfl, Stored.none_iff.mp hs⟩
  | some p =>
    obtain ⟨n, G, hget, hheld, hp, hF⟩ := hs.held
    exact .inr ⟨p, n, G, rfl, hget, hheld, hp, hF⟩

theorem Held.stored (hh : Held h n t F) (hget : h.get p = some n) (hp : p ∉ F) :
    Stored h (some p) t (insert p F) := by
  cases hh with
  | node hl hr hdisj => exact .node hget hl hr hdisj hp

/-- Nodes with the same links and the same value hold the same trees. -/
theorem Held.congr (hh : Held h n t F) (hval : val n' = val n) (hleft : left n' = left n)
    (hright : right n' = right n) : Held h n' t F := by
  cases hh with
  | node hl hr hdisj =>
    rw [← hval]
    exact .node (hleft ▸ hl) (hright ▸ hr) hdisj

/-- The trees on the two sides of a node. -/
theorem Held.sides (hh : Held h n t F) : ∃ l r L R, t = .node (val n) l r ∧
    Stored h (left n) l L ∧ Stored h (right n) r R ∧ Disjoint L R ∧ F = L ∪ R := by
  cases hh with
  | node hl hr hdisj => exact ⟨_, _, _, _, rfl, hl, hr, hdisj, rfl⟩

/-! ## The number of nodes -/

theorem Stored.card (hs : Stored h o t F) : F.card = t.numNodes := by
  induction hs with
  | nil => rfl
  | node _ _ _ hdisj hp ihl ihr =>
    rw [Finset.card_insert_of_notMem hp, Finset.card_union_of_disjoint hdisj, ihl, ihr, numNodes]

theorem Held.card (hh : Held h n t F) : F.card + 1 = t.numNodes := by
  cases hh with
  | node hl hr hdisj =>
    rw [Finset.card_union_of_disjoint hdisj, hl.card, hr.card, numNodes]

theorem Held.not_numNodes_le_zero (hh : Held h n t F) : ¬t.numNodes ≤ 0 := by
  rw [← hh.card]
  omega

theorem numNodes_sides {a : α} {fuel : ℕ} (hfuel : (BinaryTree.node a l r).numNodes ≤ fuel + 1) :
    l.numNodes ≤ fuel ∧ r.numNodes ≤ fuel := by
  simp only [numNodes] at hfuel
  omega

theorem card_le_next (hF : ∀ p ∈ F, p < h.next) : F.card ≤ h.next := by
  have hsub : F ⊆ Finset.range h.next := fun p hp => Finset.mem_range.mpr (hF p hp)
  have := Finset.card_le_card hsub
  rwa [Finset.card_range] at this

theorem Held.numNodes_le (hh : Held h n t F) : t.numNodes ≤ h.next + 1 :=
  hh.card ▸ Nat.succ_le_succ (card_le_next hh.lt_next)

/-- The tree under a pointer, as deep as `fuel` goes. -/
def readTree (h : Heap N) : ℕ → Option Ptr → BinaryTree α
  | fuel + 1, some p =>
    match h.get p with
    | some n => .node (val n) (readTree h fuel (left n)) (readTree h fuel (right n))
    | none => .nil
  | _, _ => .nil

theorem Stored.readTree_eq (hs : Stored h o t F) {fuel : ℕ} (hfuel : t.numNodes ≤ fuel) :
    readTree h fuel o = t := by
  induction hs generalizing fuel with
  | nil => cases fuel <;> rfl
  | node hget _ _ _ _ ihl ihr =>
    rw [numNodes] at hfuel
    obtain ⟨fuel, rfl⟩ : ∃ f, fuel = f + 1 := ⟨fuel - 1, by omega⟩
    rw [readTree, hget]
    show BinaryTree.node _ _ _ = _
    rw [ihl (by omega), ihr (by omega)]

/-! ## Changes on one side -/

theorem Extends.refl (hsub : F' ⊆ F) : Extends h F h F' :=
  ⟨Nat.le_refl _, fun _ _ _ => rfl, fun _ hp => .inl (hsub hp)⟩

theorem Extends.mono (he : Extends h F h' F') (hF : F ⊆ G) (hF' : G' ⊆ F') : Extends h G h' G' :=
  ⟨he.next_le, fun p hlt hp => he.frame p hlt fun hm => hp (hF hm),
    fun p hp => (he.foot p (hF' hp)).imp_left fun hm => hF hm⟩

/-- A new node changes nothing. -/
theorem Extends.alloc : Extends h ∅ (h.alloc n) {h.next} := by
  refine ⟨?_, fun p hlt _ => Heap.get_alloc_of_lt hlt, fun p hp => ?_⟩
  · rw [Heap.next_alloc]
    exact Nat.le_succ _
  · rw [Finset.mem_singleton.mp hp]
    exact .inr (Nat.le_refl _)

/-- What is stored apart from the pointers that change stays stored, and apart from them. -/
theorem Extends.stored (he : Extends h F h' F') (hs : Stored h o t G) (hdisj : Disjoint F G) :
    Stored h' o t G ∧ Disjoint F' G := by
  refine ⟨hs.frame fun p hp => ?_, ?_⟩
  · exact he.frame p (hs.lt_next p hp) fun hm => Finset.disjoint_left.mp hdisj hm hp
  · rw [Finset.disjoint_left]
    intro p hp hG
    rcases he.foot p hp with hm | hle
    · exact Finset.disjoint_left.mp hdisj hm hG
    · exact absurd (hs.lt_next p hG) (Nat.not_lt.mpr hle)

/-- One more pointer changes. -/
theorem Extends.set {same : N → N → Bool} (he : Extends h F h' F') (p : Ptr) (n : N) :
    Extends h (insert p F) (h'.write same p n) (insert p F') := by
  refine ⟨?_, fun q hlt hq => ?_, fun q hq => ?_⟩
  · rw [Heap.next_write]
    exact he.next_le
  · rw [Finset.mem_insert, not_or] at hq
    rw [Heap.get_write_of_ne hq.1]
    exact he.frame q hlt hq.2
  · rcases Finset.mem_insert.mp hq with rfl | hq
    · exact .inl (Finset.mem_insert_self _ _)
    · exact (he.foot q hq).imp_left Finset.mem_insert_of_mem

/-- A change of what is stored on the left, with a node that refers to it. -/
theorem Extends.held_left (he : Extends h L h' L') (hl : Stored h' (left m) l' L')
    (hr : Stored h (right n) r R) (hdisj : Disjoint L R) (hright : right m = right n) :
    Held h' m (node (val m) l' r) (L' ∪ R) ∧ Extends h (L ∪ R) h' (L' ∪ R) := by
  obtain ⟨hr', hdisj'⟩ := he.stored hr hdisj
  refine ⟨.node hl (hright ▸ hr') hdisj', he.next_le, fun p hlt hp => ?_, fun p hp => ?_⟩
  · exact he.frame p hlt fun hm => hp (Finset.mem_union_left _ hm)
  · rcases Finset.mem_union.mp hp with hp | hp
    · exact (he.foot p hp).imp_left (Finset.mem_union_left _)
    · exact .inl (Finset.mem_union_right _ hp)

/-- A change of what is stored on the right, with a node that refers to it. -/
theorem Extends.held_right (he : Extends h R h' R') (hr : Stored h' (right m) r' R')
    (hl : Stored h (left n) l L) (hdisj : Disjoint L R) (hleft : left m = left n) :
    Held h' m (node (val m) l r') (L ∪ R') ∧ Extends h (L ∪ R) h' (L ∪ R') := by
  obtain ⟨hl', hdisj'⟩ := he.stored hl hdisj.symm
  refine ⟨.node (hleft ▸ hl') hr hdisj'.symm, he.next_le, fun p hlt hp => ?_, fun p hp => ?_⟩
  · exact he.frame p hlt fun hm => hp (Finset.mem_union_right _ hm)
  · rcases Finset.mem_union.mp hp with hp | hp
    · exact .inl (Finset.mem_union_left _ hp)
    · exact (he.foot p hp).imp_left (Finset.mem_union_right _)

/-- A node that is not changed keeps its pointer. -/
theorem Extends.stored_keep (he : Extends h F h' F') (hh : Held h' n t' F')
    (hget : h.get p = some n) (hp : p ∉ F) :
    Stored h' (some p) t' (insert p F') ∧ Extends h (insert p F) h' (insert p F') := by
  have hlt := Heap.lt_next hget
  refine ⟨hh.stored ((he.frame p hlt hp).trans hget) fun hm => ?_, he.next_le, ?_, ?_⟩
  · rcases he.foot p hm with hm | hle
    · exact hp hm
    · exact absurd hlt (Nat.not_lt.mpr hle)
  · exact fun q hlt hq => he.frame q hlt fun hm => hq (Finset.mem_insert_of_mem hm)
  · intro q hq
    rcases Finset.mem_insert.mp hq with rfl | hq
    · exact .inl (Finset.mem_insert_self _ _)
    · exact (he.foot q hq).imp_left Finset.mem_insert_of_mem

/-- The node under `p` is as it was after a change on its left. -/
theorem Extends.keep_left (he : Extends h L h' L') (hl : Stored h' (left n) l' L')
    (hr : Stored h (right n) r R) (hdisj : Disjoint L R) (hget : h.get p = some n)
    (hp : p ∉ L ∪ R) : ∃ F', Stored h' (some p) (node (val n) l' r) F' ∧
      Extends h (insert p (L ∪ R)) h' F' := by
  obtain ⟨hheld, hext⟩ := he.held_left (m := n) hl hr hdisj rfl
  exact ⟨_, hext.stored_keep hheld hget hp⟩

/-- The node under `p` is as it was after a change on its right. -/
theorem Extends.keep_right (he : Extends h R h' R') (hr : Stored h' (right n) r' R')
    (hl : Stored h (left n) l L) (hdisj : Disjoint L R) (hget : h.get p = some n)
    (hp : p ∉ L ∪ R) : ∃ F', Stored h' (some p) (node (val n) l r') F' ∧
      Extends h (insert p (L ∪ R)) h' F' := by
  obtain ⟨hheld, hext⟩ := he.held_right (m := n) hr hl hdisj rfl
  exact ⟨_, hext.stored_keep hheld hget hp⟩

/-- A node is deleted. -/
theorem extends_delete (hget : h.get p = some n) :
    (h.set p none).get p = none ∧ Extends h {p} (h.set p none) ∅ := by
  refine ⟨Heap.get_set_self (Heap.lt_next hget), Nat.le_of_eq Heap.next_set.symm, ?_, ?_⟩
  · exact fun q _ hq => Heap.get_set_of_ne fun heq => hq (Finset.mem_singleton.mpr heq)
  · exact fun q hq => absurd hq (Finset.notMem_empty q)

/-- The node that is there when a changed one is written back is the old one. -/
theorem Extends.write_eq_never {same : N → N → Bool} (he : Extends h F h' F')
    (hget : h.get p = some n) (hp : p ∉ F) (hsame : same n' n = true → n' = n) :
    h'.write same p n' = h'.write Heap.never p n' :=
  Heap.write_eq_never ((he.frame p (Heap.lt_next hget) hp).trans hget) hsame

/-- A changed node is written back under its pointer. -/
theorem Extends.stored_write (same : N → N → Bool) (he : Extends h F h' F') (hh : Held h' n' t' F')
    (hget : h.get p = some n) (hp : p ∉ F)
    (hsame : same n' n = true → val n' = val n ∧ left n' = left n ∧ right n' = right n) :
    Stored (h'.write same p n') (some p) t' (insert p F') ∧
      Extends h (insert p F) (h'.write same p n') (insert p F') := by
  refine ⟨?_, he.set p n'⟩
  have hp' : p ∉ F' := by
    intro hm
    rcases he.foot p hm with hm | hle
    · exact hp hm
    · exact absurd (Heap.lt_next hget) (Nat.not_lt.mpr hle)
  have hget' : h'.get p = some n := (he.frame p (Heap.lt_next hget) hp).trans hget
  have hframe : Held (h'.write same p n') n' t' F' :=
    hh.frame fun q hq => Heap.get_write_of_ne fun heq => hp' (heq ▸ hq)
  have hwrite : (h'.write same p n').get p = if same n' n then some n else some n' :=
    Heap.get_write_self hget'
  split_ifs at hwrite with hs
  · obtain ⟨hval, hleft, hright⟩ := hsame hs
    exact (hframe.congr hval.symm hleft.symm hright.symm).stored hwrite hp'
  · exact hframe.stored hwrite hp'

/-- A changed node is written back, or the node that is there has the same links: there is a tree under
    the pointer in either case, which is the one of the changed node if that is written. -/
theorem Extends.stored_write_links {same : N → N → Bool} (he : Extends h F h' F')
    (hh : Held h' n' t' F') (hget : h.get p = some n) (hp : p ∉ F)
    (hsame : same n' n = true → left n' = left n ∧ right n' = right n) :
    ∃ t'' : BinaryTree α, (same n' n = false → t'' = t') ∧
      Stored (h'.write same p n') (some p) t'' (insert p F') ∧
      Extends h (insert p F) (h'.write same p n') (insert p F') := by
  by_cases hs : same n' n = true
  · have hheld : ∃ t'' : BinaryTree α, Held h' n t'' F' := by
      obtain ⟨hleft, hright⟩ := hsame hs
      cases hh with
      | node hl hr hdisj => exact ⟨_, .node (hleft ▸ hl) (hright ▸ hr) hdisj⟩
    obtain ⟨t'', hheld⟩ := hheld
    have hkeep : h'.write same p n' = h' := by
      rw [Heap.write, he.frame p (Heap.lt_next hget) hp, hget]
      exact if_pos hs
    rw [hkeep]
    exact ⟨t'', fun hne => absurd hs (Bool.eq_false_iff.mp hne), he.stored_keep hheld hget hp⟩
  · exact ⟨t', fun _ => rfl, he.stored_write same hh hget hp fun h => absurd h hs⟩

end HeapModel
