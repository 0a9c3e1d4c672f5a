import Mathlib.Data.Finset.Card
import Mathlib.Data.Finset.Lattice.Lemmas
import Mathlib.Data.Finset.Range
import ReSTM.Common.Heap

/-!
# Trees of stored nodes with parents

A node has the pointers to its children and the pointer to its parent. `Linked h o l F` says that
there is a tree under the pointer `l`, with its nodes under the pointers `F`: the root has the
parent `o`, and every other node the one that has it as a child.

* `Linked.parent_spec`: the parent of a node has it as exactly one of its children.
* `Linked.unlink`: a leaf is removed.
* `Linked.link`: a leaf is added.
-/

namespace HeapModel

universe u

/-- The links of a node. -/
class LinkedNode (N : Type u) where
  parent : N → Option Ptr
  left : N → Option Ptr
  right : N → Option Ptr

open LinkedNode

variable {N : Type u} [LinkedNode N]

/-- The tree under a pointer. -/
inductive Linked (h : Heap N) : Option Ptr → Option Ptr → Finset Ptr → Prop
  | nil {o : Option Ptr} : Linked h o none ∅
  | node {o : Option Ptr} {p : Ptr} {n : N} {L R : Finset Ptr} (hget : h.get p = some n)
      (hparent : parent n = o) (hl : Linked h (some p) (left n) L)
      (hr : Linked h (some p) (right n) R) (hdisj : Disjoint L R) (hp : p ∉ L ∪ R) :
      Linked h o (some p) (insert p (L ∪ R))

/-- The node `m` has `q` as one child, and not as both. -/
def OneChild (m : N) (q : Ptr) : Prop :=
  left m = some q ∧ right m ≠ some q ∨ left m ≠ some q ∧ right m = some q

/-- The node `m'` is `m` without the child `q`. -/
structure Unlinks (q : Ptr) (m m' : N) : Prop where
  parent : parent m' = parent m
  left : left m' = if left m = some q then none else left m
  right : right m' = if right m = some q then none else right m

/-- The node `m'` is `m` with one more child `q`. -/
def Links (q : Ptr) (m m' : N) : Prop :=
  parent m' = parent m ∧ (left m = none ∧ left m' = some q ∧ right m' = right m ∨
    right m = none ∧ right m' = some q ∧ left m' = left m)

namespace Linked

variable {h h' : Heap N} {o l : Option Ptr} {p q b x : Ptr} {n m m' : N} {F L R : Finset Ptr}

theorem lt_next (hs : Linked h o l F) : ∀ p ∈ F, p < h.next := by
  induction hs with
  | nil => exact fun p hp => absurd hp (Finset.notMem_empty p)
  | node hget _ _ _ _ _ ihl ihr =>
    intro q hq
    rw [Finset.mem_insert, Finset.mem_union] at hq
    rcases hq with rfl | hq | hq
    · exact Heap.lt_next hget
    · exact ihl q hq
    · exact ihr q hq

theorem card_le (hs : Linked h o l F) : F.card ≤ h.next := by
  have hsub : F ⊆ Finset.range h.next := fun p hp => Finset.mem_range.mpr (hs.lt_next p hp)
  have := Finset.card_le_card hsub
  rwa [Finset.card_range] at this

/-- Changes elsewhere do not matter. -/
theorem frame (hs : Linked h o l F) (hsame : ∀ p ∈ F, h'.get p = h.get p) : Linked h' o l F := by
  induction hs with
  | nil => exact .nil
  | node hget hparent _ _ hdisj hp ihl ihr =>
    refine .node ?_ hparent (ihl fun q hq => ?_) (ihr fun q hq => ?_) hdisj hp
    · rw [hsame _ (Finset.mem_insert_self _ _), hget]
    · exact hsame q (Finset.mem_insert_of_mem (Finset.mem_union_left _ hq))
    · exact hsame q (Finset.mem_insert_of_mem (Finset.mem_union_right _ hq))

/-- The root of a tree is one of its nodes. -/
theorem mem (hs : Linked h o (some p) F) : p ∈ F := by
  cases hs
  exact Finset.mem_insert_self _ _

theorem eq_empty (hs : Linked h o none F) : F = ∅ := by
  cases hs
  rfl

/-- A node of the tree is stored. -/
theorem stored (hs : Linked h o l F) (hq : q ∈ F) : ∃ n, h.get q = some n := by
  induction hs with
  | nil => cases hq
  | node hget _ _ _ _ _ ihl ihr =>
    rw [Finset.mem_insert, Finset.mem_union] at hq
    rcases hq with rfl | hq | hq
    · exact ⟨_, hget⟩
    · exact ihl hq
    · exact ihr hq

/-- A leaf is all of its tree. -/
theorem eq_singleton (hs : Linked h o (some p) F) (hn : h.get p = some n) (hleft : left n = none)
    (hright : right n = none) : F = {p} ∧ parent n = o := by
  cases hs with
  | node hget hparent hl hr =>
    obtain rfl : _ = n := Option.some.inj (hget.symm.trans hn)
    rw [hleft] at hl
    rw [hright] at hr
    rw [hl.eq_empty, hr.eq_empty]
    exact ⟨rfl, hparent⟩

/-- The parent of a node has it as exactly one of its children. -/
theorem parent_spec (hs : Linked h o l F) (hq : q ∈ F) (hne : l ≠ some q) :
    ∃ n b m, h.get q = some n ∧ parent n = some b ∧ b ∈ F ∧ h.get b = some m ∧ OneChild m q := by
  induction hs with
  | nil => cases hq
  | @node o p n L R hget hparent hl hr hdisj hp ihl ihr =>
    -- a child is in one of the two trees only
    have hmem : ∀ {c L}, Linked h (some p) (some c) L → ∃ n, h.get c = some n ∧
        parent n = some p := by
      intro c L hc
      cases hc with
      | node hget hparent => exact ⟨_, hget, hparent⟩
    rw [Finset.mem_insert, Finset.mem_union] at hq
    rcases hq with rfl | hq | hq
    · exact absurd rfl hne
    · have hright : right n ≠ some q := fun heq =>
        Finset.disjoint_left.mp hdisj hq (heq ▸ hr).mem
      by_cases hleft : left n = some q
      · obtain ⟨c, hc, hc'⟩ := hmem (hleft ▸ hl)
        exact ⟨c, p, n, hc, hc', Finset.mem_insert_self _ _, hget, .inl ⟨hleft, hright⟩⟩
      · obtain ⟨c, b, m, hc, hc', hb, hm, hone⟩ := ihl hq hleft
        exact ⟨c, b, m, hc, hc', Finset.mem_insert_of_mem (Finset.mem_union_left _ hb), hm, hone⟩
    · have hleft : left n ≠ some q := fun heq =>
        Finset.disjoint_left.mp hdisj (heq ▸ hl).mem hq
      by_cases hright : right n = some q
      · obtain ⟨c, hc, hc'⟩ := hmem (hright ▸ hr)
        exact ⟨c, p, n, hc, hc', Finset.mem_insert_self _ _, hget, .inr ⟨hleft, hright⟩⟩
      · obtain ⟨c, b, m, hc, hc', hb, hm, hone⟩ := ihr hq hright
        exact ⟨c, b, m, hc, hc', Finset.mem_insert_of_mem (Finset.mem_union_right _ hb), hm, hone⟩

/-- The parent of a node is a node of the tree. -/
theorem parent_mem (hs : Linked h o l F) (hq : q ∈ F) (hne : l ≠ some q) (hn : h.get q = some n)
    (hparent : parent n = some b) : b ∈ F := by
  obtain ⟨n', b', -, hn', hb', hmem, -⟩ := hs.parent_spec hq hne
  obtain rfl : n' = n := Option.some.inj (hn'.symm.trans hn)
  obtain rfl : b' = b := Option.some.inj (hb'.symm.trans hparent)
  exact hmem

/-- The node of the root. -/
theorem root_spec (hs : Linked h o (some p) F) : ∃ n, h.get p = some n ∧ parent n = o := by
  cases hs with
  | node hget hparent => exact ⟨_, hget, hparent⟩

theorem erase_left (hdisj : Disjoint L R) (hp : p ∉ L ∪ R) (hq : q ∈ L) :
    (insert p (L ∪ R)).erase q = insert p (L.erase q ∪ R) := by
  have hne : p ≠ q := fun heq => hp (heq ▸ Finset.mem_union_left _ hq)
  rw [Finset.erase_insert_of_ne hne, Finset.erase_union_distrib,
    Finset.erase_eq_of_notMem (Finset.disjoint_left.mp hdisj hq)]

theorem erase_right (hdisj : Disjoint L R) (hp : p ∉ L ∪ R) (hq : q ∈ R) :
    (insert p (L ∪ R)).erase q = insert p (L ∪ R.erase q) := by
  rw [Finset.union_comm, erase_left hdisj.symm (Finset.union_comm R L ▸ hp) hq, Finset.union_comm]

/-- A leaf that is not the root is removed: its parent has lost it, and nothing else has changed. -/
theorem unlink (hs : Linked h o l F) (hq : q ∈ F) (hne : l ≠ some q) (hn : h.get q = some n)
    (hleft : left n = none) (hright : right n = none) (hparent : parent n = some b)
    (hm : h.get b = some m) (hm' : h'.get b = some m') (hunlinks : Unlinks q m m')
    (hframe : ∀ p, p ≠ b → p ≠ q → h'.get p = h.get p) : Linked h' o l (F.erase q) := by
  induction hs with
  | nil => cases hq
  | @node o p c L R hget hparent' hl hr hdisj hp ihl ihr =>
    have hout : ∀ {G : Finset Ptr}, b ∉ G → q ∉ G → ∀ p ∈ G, h'.get p = h.get p :=
      fun hb hq p hp => hframe p (fun heq => hb (heq ▸ hp)) fun heq => hq (heq ▸ hp)
    rw [Finset.mem_insert, Finset.mem_union] at hq
    have hpq : p ≠ q := fun heq => hne (heq ▸ rfl)
    rcases hq with heq | hq | hq
    · exact absurd heq.symm hpq
    · have hqR := Finset.disjoint_left.mp hdisj hq
      have hcr : right c ≠ some q := fun heq => hqR (heq ▸ hr).mem
      rw [erase_left hdisj hp hq]
      by_cases hcl : left c = some q
      · -- the leaf is the left child of this node
        rw [hcl] at hl
        obtain ⟨rfl, hb⟩ := hl.eq_singleton hn hleft hright
        obtain rfl : b = p := Option.some.inj (hparent.symm.trans hb)
        obtain rfl : m = c := Option.some.inj (hm.symm.trans hget)
        have hpR : b ∉ R := fun hR => hp (Finset.mem_union_right _ hR)
        refine .node hm' (hunlinks.parent.trans hparent') ?_ ?_ ?_ ?_
        · rw [hunlinks.left, if_pos hcl, Finset.erase_singleton]
          exact .nil
        · rw [hunlinks.right, if_neg hcr]
          exact hr.frame (hout hpR hqR)
        · rw [Finset.erase_singleton]
          exact Finset.disjoint_empty_left R
        · rw [Finset.erase_singleton, Finset.empty_union]
          exact hpR
      · -- it is further below, and so is its parent
        have hbL := hl.parent_mem hq hcl hn hparent
        have hbR := Finset.disjoint_left.mp hdisj hbL
        have hbp : p ≠ b := fun heq => hp (heq ▸ Finset.mem_union_left _ hbL)
        refine .node ((hframe p hbp hpq).trans hget) hparent' (ihl hq hcl)
          (hr.frame (hout hbR hqR)) (Finset.disjoint_of_subset_left (Finset.erase_subset _ _) hdisj)
          fun hmem => hp ?_
        exact Finset.union_subset_union_left (Finset.erase_subset _ _) hmem
    · have hqL := Finset.disjoint_right.mp hdisj hq
      have hcl : left c ≠ some q := fun heq => hqL (heq ▸ hl).mem
      rw [erase_right hdisj hp hq]
      by_cases hcr : right c = some q
      · rw [hcr] at hr
        obtain ⟨rfl, hb⟩ := hr.eq_singleton hn hleft hright
        obtain rfl : b = p := Option.some.inj (hparent.symm.trans hb)
        obtain rfl : m = c := Option.some.inj (hm.symm.trans hget)
        have hpL : b ∉ L := fun hL => hp (Finset.mem_union_left _ hL)
        refine .node hm' (hunlinks.parent.trans hparent') ?_ ?_ ?_ ?_
        · rw [hunlinks.left, if_neg hcl]
          exact hl.frame (hout hpL hqL)
        · rw [hunlinks.right, if_pos hcr, Finset.erase_singleton]
          exact .nil
        · rw [Finset.erase_singleton]
          exact Finset.disjoint_empty_right L
        · rw [Finset.erase_singleton, Finset.union_empty]
          exact hpL
      · have hbR := hr.parent_mem hq hcr hn hparent
        have hbL := Finset.disjoint_right.mp hdisj hbR
        have hbp : p ≠ b := fun heq => hp (heq ▸ Finset.mem_union_right _ hbR)
        refine .node ((hframe p hbp hpq).trans hget) hparent' (hl.frame (hout hbL hqL))
          (ihr hq hcr) (Finset.disjoint_of_subset_right (Finset.erase_subset _ _) hdisj)
          fun hmem => hp ?_
        exact Finset.union_subset_union_right (Finset.erase_subset _ _) hmem

/-- A leaf is added under a node of the tree, and nothing else has changed. -/
theorem link (hs : Linked h o l F) (hq : q ∈ F) (hx : x ∉ F) (hm : h.get q = some m)
    (hm' : h'.get q = some m') (hlinks : Links x m m') (hn : h'.get x = some n)
    (hparent : parent n = some q) (hleft : left n = none) (hright : right n = none)
    (hframe : ∀ p ∈ F, p ≠ q → h'.get p = h.get p) : Linked h' o l (insert x F) := by
  have hleaf : Linked h' (some q) (some x) {x} := by
    have hs := Linked.node hn hparent (hleft ▸ .nil) (hright ▸ .nil) (Finset.disjoint_empty_left ∅)
      (Finset.notMem_empty x)
    rwa [Finset.empty_union] at hs
  induction hs with
  | nil => cases hq
  | @node o p c L R hget hparent' hl hr hdisj hp ihl ihr =>
    simp only [Finset.mem_insert, Finset.mem_union, not_or] at hx
    obtain ⟨hxp, hxL, hxR⟩ := hx
    rw [Finset.mem_union, not_or] at hp
    have hL : ∀ r ∈ L, r ≠ q → h'.get r = h.get r := fun r hr =>
      hframe r (Finset.mem_insert_of_mem (Finset.mem_union_left _ hr))
    have hR : ∀ r ∈ R, r ≠ q → h'.get r = h.get r := fun r hr =>
      hframe r (Finset.mem_insert_of_mem (Finset.mem_union_right _ hr))
    have houtL : q ∉ L → Linked h' (some p) (left c) L := fun hqL =>
      hl.frame fun r hr => hL r hr fun heq => hqL (heq ▸ hr)
    have houtR : q ∉ R → Linked h' (some p) (right c) R := fun hqR =>
      hr.frame fun r hr => hR r hr fun heq => hqR (heq ▸ hr)
    rw [Finset.mem_insert, Finset.mem_union] at hq
    rcases hq with rfl | hq | hq
    · -- the node itself gets the new child
      obtain rfl : m = c := Option.some.inj (hm.symm.trans hget)
      obtain ⟨hp', ⟨hnone, hl', hr'⟩ | ⟨hnone, hr', hl'⟩⟩ := hlinks
      · rw [hnone] at hl
        obtain rfl := hl.eq_empty
        have heq : insert x (insert q (∅ ∪ R)) = insert q ({x} ∪ R) := by
          rw [Finset.empty_union, Finset.insert_comm, Finset.insert_eq x R]
        rw [heq]
        refine .node hm' (hp'.trans hparent') (hl' ▸ hleaf) (hr' ▸ houtR hp.2)
          (Finset.disjoint_singleton_left.mpr hxR) ?_
        rw [Finset.mem_union, Finset.mem_singleton, not_or]
        exact ⟨Ne.symm hxp, hp.2⟩
      · rw [hnone] at hr
        obtain rfl := hr.eq_empty
        have heq : insert x (insert q (L ∪ ∅)) = insert q (L ∪ {x}) := by
          rw [Finset.union_empty, Finset.insert_comm, Finset.union_comm, Finset.insert_eq x L]
        rw [heq]
        refine .node hm' (hp'.trans hparent') (hl' ▸ houtL hp.1) (hr' ▸ hleaf)
          (Finset.disjoint_singleton_right.mpr hxL) ?_
        rw [Finset.mem_union, Finset.mem_singleton, not_or]
        exact ⟨hp.1, Ne.symm hxp⟩
    · have hqR := Finset.disjoint_left.mp hdisj hq
      have hpq : p ≠ q := fun heq => hp.1 (heq ▸ hq)
      have hget' := (hframe p (Finset.mem_insert_self _ _) hpq).trans hget
      rw [Finset.insert_comm, ← Finset.insert_union]
      refine .node hget' hparent' (ihl hq hxL hL) (houtR hqR)
        (Finset.disjoint_insert_left.mpr ⟨hxR, hdisj⟩) ?_
      simp only [Finset.mem_union, Finset.mem_insert, not_or]
      exact ⟨⟨Ne.symm hxp, hp.1⟩, hp.2⟩
    · have hqL := Finset.disjoint_right.mp hdisj hq
      have hpq : p ≠ q := fun heq => hp.2 (heq ▸ hq)
      have hget' := (hframe p (Finset.mem_insert_self _ _) hpq).trans hget
      rw [Finset.insert_comm, ← Finset.union_insert]
      refine .node hget' hparent' (houtL hqL) (ihr hq hxR hR)
        (Finset.disjoint_insert_right.mpr ⟨hxL, hdisj⟩) ?_
      simp only [Finset.mem_union, Finset.mem_insert, not_or]
      exact ⟨hp.1, Ne.symm hxp, hp.2⟩

end Linked

end HeapModel
