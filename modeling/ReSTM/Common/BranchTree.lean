import Mathlib.Data.List.Chain
import Mathlib.Data.List.Nodup
import ReSTM.Common.Heap

/-!
# Trees of stored nodes with branches

A node has a child, or none, for each of its branches, and the pointer to its parent.
`PostOrder h o l L` says that there is a tree under the pointer `l`, and lists its nodes, those
below a node before it: the root has the parent `o`, and every other node the one that has it as a
child. `Above h root p bs` are the branches from the root to a node, the last one first. The
node that follows is found with the links alone: `First` goes down to the first leaf of a subtree,
and `Next` goes to the first node of the next branch of the parent, or to the parent.

* `PostOrder.above`: every node is reached from the root, as a child on one branch only.
* `PostOrder.walk`: the nodes in their order, from the first one to the root, follow one another.
-/

namespace BranchTree

open HeapModel

universe u v

/-- The branches, in their order. -/
class Branches (β : Type v) where
  all : List β
  mem_all (b : β) : b ∈ all

/-- The links of a node. -/
class BranchNode (N : Type u) (β : outParam (Type v)) where
  parent : N → Option Ptr
  child : N → β → Option Ptr

open Branches BranchNode

variable {N : Type u} {β : Type v} [BranchNode N β]

/-- The first child in some of the branches. -/
def childIn (n : N) (bs : List β) : Option Ptr := bs.findSome? (child n)

/-- The node `p` is the child of `m` on the branch `b`, and on no other one. -/
structure OnlyChild (m : N) (p : Ptr) (b : β) : Prop where
  child : child m b = some p
  only (b' : β) : BranchNode.child m b' = some p → b' = b

/-- The branches from a node down to another one. -/
inductive Down (h : Heap N) : Ptr → List β → Ptr → Prop
  | here {p : Ptr} : Down h p [] p
  | child {p c q : Ptr} {n k : N} {b : β} {bs : List β} (hget : h.get p = some n)
      (hchild : child n b = some c) (hstored : h.get c = some k) (hrest : Down h c bs q) :
      Down h p (b :: bs) q

/-- The branches from the root up to a node. -/
inductive Above (h : Heap N) (root : Ptr) : Ptr → List β → Prop
  | root {n : N} (hget : h.get root = some n) : Above h root root []
  | child {p a : Ptr} {n m : N} {b : β} {bs : List β} (hget : h.get p = some n)
      (hroot : p ≠ root) (hparent : parent n = some a) (hm : h.get a = some m)
      (honly : OnlyChild m p b) (hrest : Above h root a bs) : Above h root p (b :: bs)

variable [Branches β]

/-- The nodes of the tree under a pointer, in post-order. -/
inductive PostOrder (h : Heap N) : Option Ptr → Option Ptr → List Ptr → Prop
  | nil {o : Option Ptr} : PostOrder h o none []
  | node {o : Option Ptr} {p : Ptr} {n : N} {lists : β → List Ptr} (hget : h.get p = some n)
      (hparent : parent n = o) (hchild : ∀ b, PostOrder h (some p) (child n b) (lists b)) :
      PostOrder h o (some p) ((all : List β).flatMap lists ++ [p])

/-- The first node of the subtree of a node. -/
inductive First (h : Heap N) : Ptr → Ptr → Prop
  | here {p : Ptr} {n : N} (hget : h.get p = some n) (hnone : childIn n all = none) : First h p p
  | down {p c q : Ptr} {n : N} (hget : h.get p = some n) (hsome : childIn n all = some c)
      (hrest : First h c q) : First h p q

/-- The node that follows a node. -/
inductive Next (h : Heap N) : Ptr → Ptr → Prop
  | sibling {p a c q : Ptr} {n m : N} {b : β} {pre post : List β} (hget : h.get p = some n)
      (hparent : parent n = some a) (hm : h.get a = some m) (honly : OnlyChild m p b)
      (hall : all = pre ++ b :: post) (hsome : childIn m post = some c) (hfirst : First h c q) :
      Next h p q
  | parent {p a : Ptr} {n m : N} {b : β} {pre post : List β} (hget : h.get p = some n)
      (hparent : parent n = some a) (hm : h.get a = some m) (honly : OnlyChild m p b)
      (hall : all = pre ++ b :: post) (hnone : childIn m post = none) : Next h p a

/-- The list goes from the first node of a subtree to its root, from node to node. -/
structure Walk (h : Heap N) (p : Ptr) (L : List Ptr) : Prop where
  chain : L.IsChain (Next h)
  first : ∃ q, L.head? = some q ∧ First h p q
  last : L.getLast? = some p

variable {h : Heap N} {o : Option Ptr} {p q c root : Ptr} {n k : N} {L : List Ptr} {b b' : β}
  {bs : List β} {lists : β → List Ptr}

omit [Branches β] in
theorem Down.concat (hdown : Down h p bs q) (hget : h.get q = some n)
    (hchild : BranchNode.child n b = some c) (hstored : h.get c = some k) :
    Down h p (bs ++ [b]) c := by
  induction hdown with
  | here => exact .child hget hchild hstored .here
  | child hp hc hk _ ih => exact .child hp hc hk (ih hget)

omit [Branches β] in
/-- A node that is reached is stored, and so is the root. -/
theorem Above.stored (habove : Above h root p bs) :
    (∃ n, h.get root = some n) ∧ ∃ n, h.get p = some n := by
  induction habove with
  | root hget => exact ⟨⟨_, hget⟩, _, hget⟩
  | child hget _ _ _ _ _ ih => exact ⟨ih.1, _, hget⟩

omit [Branches β] in
/-- The branches to a node lead down to it. -/
theorem Above.down (habove : Above h root p bs) : Down h root bs.reverse p := by
  induction habove with
  | root hget => exact .here
  | child hget _ _ hm honly _ ih =>
    rw [List.reverse_cons]
    exact ih.concat hm honly.child hget

theorem First.stored (hfirst : First h p q) : ∃ n, h.get p = some n := by
  cases hfirst with
  | here hget => exact ⟨_, hget⟩
  | down hget => exact ⟨_, hget⟩

namespace PostOrder

theorem eq_nil (hs : PostOrder h o none L) : L = [] := by
  cases hs
  rfl

/-- The root of a tree is its last node. -/
theorem last (hs : PostOrder h o (some p) L) : L.getLast? = some p := by
  cases hs
  exact List.getLast?_concat

theorem mem (hs : PostOrder h o (some p) L) : p ∈ L := List.mem_of_getLast? hs.last

theorem stored_root (hs : PostOrder h o (some p) L) : ∃ n, h.get p = some n ∧ parent n = o := by
  cases hs with
  | node hget hparent => exact ⟨_, hget, hparent⟩

theorem mem_node (hq : q ∈ (all : List β).flatMap lists ++ [p]) :
    (∃ b, q ∈ lists b) ∨ q = p := by
  rcases List.mem_append.mp hq with hq | hq
  · obtain ⟨b, -, hb⟩ := List.mem_flatMap.mp hq
    exact .inl ⟨b, hb⟩
  · exact .inr (List.mem_singleton.mp hq)

theorem mem_of_mem_list (hq : q ∈ lists b) : q ∈ (all : List β).flatMap lists ++ [p] :=
  List.mem_append_left _ (List.mem_flatMap.mpr ⟨b, mem_all b, hq⟩)

/-- A node of the tree is stored. -/
theorem stored (hs : PostOrder h o (some p) L) (hq : q ∈ L) : ∃ n, h.get q = some n := by
  generalize hl : some p = l at hs
  induction hs generalizing p with
  | nil => cases hl
  | @node _ _ n _ hget _ hchild ih =>
    rcases mem_node hq with ⟨b, hb⟩ | rfl
    · cases hc : child n b with
      | none =>
        have hnil := hchild b
        rw [hc] at hnil
        rw [hnil.eq_nil] at hb
        cases hb
      | some c => exact ih b hb hc.symm
    · exact ⟨_, hget⟩

/-! ## Nodes once each -/

section Node

variable (hnodup : ((all : List β).flatMap lists ++ [p]).Nodup)

include hnodup

theorem nodup_list (b : β) : (lists b).Nodup :=
  (List.nodup_flatMap.mp (List.nodup_append'.mp hnodup).1).1 b (mem_all b)

theorem not_mem_list (b : β) : p ∉ lists b := fun hp =>
  (List.nodup_append'.mp hnodup).2.2 (List.mem_flatMap.mpr ⟨b, mem_all b, hp⟩)
    (List.mem_singleton_self p)

/-- The subtrees of a node have no node in common. -/
theorem branch_unique (hb : q ∈ lists b) (hb' : q ∈ lists b') : b = b' := by
  have hpairwise := (List.nodup_flatMap.mp (List.nodup_append'.mp hnodup).1).2
  have : Std.Symm (Function.onFun List.Disjoint lists) :=
    ⟨fun _ _ hdisjoint _ hx hy => hdisjoint hy hx⟩
  by_contra hne
  exact hpairwise.forall (mem_all b) (mem_all b') hne hb hb'

theorem onlyChild (hchild : ∀ b, PostOrder h (some p) (child n b) (lists b))
    (hc : child n b = some c) : OnlyChild n c b := by
  have hmem : ∀ b, child n b = some c → c ∈ lists b := by
    intro b hb
    have hs := hchild b
    rw [hb] at hs
    exact hs.mem
  exact ⟨hc, fun b' hb' => branch_unique hnodup (hmem b' hb') (hmem b hc)⟩

end Node

/-- Every node of the tree under a node is reached from the root through that node. -/
theorem above_of_above (hs : PostOrder h o (some p) L) (hnodup : L.Nodup)
    (hp : Above h root p bs) (hroot : ∀ q ∈ L, q = root → q = p) (hq : q ∈ L) :
    ∃ bs, Above h root q bs := by
  generalize hl : some p = l at hs
  induction hs generalizing p q bs with
  | nil => cases hl
  | @node _ r n lists hget _ hchild ih =>
    obtain rfl := Option.some.inj hl
    rcases mem_node hq with ⟨b, hb⟩ | rfl
    · cases hc : child n b with
      | none =>
        have hnil := hchild b
        rw [hc] at hnil
        rw [hnil.eq_nil] at hb
        cases hb
      | some c =>
        have hsub := hchild b
        rw [hc] at hsub
        have hne : ∀ q ∈ lists b, q ≠ root := by
          intro q hq heq
          rw [hroot q (mem_of_mem_list hq) heq] at hq
          exact not_mem_list hnodup b hq
        obtain ⟨k, hk, hparent⟩ := hsub.stored_root
        exact ih b (nodup_list hnodup b)
          (.child hk (hne c hsub.mem) hparent hget (onlyChild hnodup hchild hc) hp)
          (fun q hq heq => absurd heq (hne q hq)) hb hc.symm
    · exact ⟨bs, hp⟩

/-- Every node of a tree is reached from the root. -/
theorem above (hs : PostOrder h o (some root) L) (hnodup : L.Nodup) (hq : q ∈ L) :
    ∃ bs, Above h root q bs := by
  obtain ⟨n, hget, -⟩ := hs.stored_root
  exact hs.above_of_above hnodup (.root hget) (fun _ _ h => h) hq

/-! ## From node to node -/

/-- What the nodes of some last branches of a node `p` and then `p` itself are like. -/
theorem walk_branches (hget : h.get p = some n)
    (hnodup : ((all : List β).flatMap lists ++ [p]).Nodup)
    (hchild : ∀ b, PostOrder h (some p) (child n b) (lists b))
    (hwalk : ∀ b c, child n b = some c → Walk h c (lists b)) (pre post : List β)
    (hall : all = pre ++ post) :
    (post.flatMap lists ++ [p]).IsChain (Next h) ∧
      (childIn n post = none ∧ post.flatMap lists = [] ∨ ∃ c q, childIn n post = some c ∧
        (post.flatMap lists ++ [p]).head? = some q ∧ First h c q) := by
  induction post generalizing pre with
  | nil => exact ⟨List.isChain_singleton p, .inl ⟨rfl, rfl⟩⟩
  | cons b post ih =>
    obtain ⟨hchain, hfirst⟩ := ih (pre ++ [b]) (by rw [hall, List.append_assoc]; rfl)
    rw [List.flatMap_cons, List.append_assoc]
    cases hc : child n b with
    | none =>
      have hnil := hchild b
      rw [hc] at hnil
      have hin : childIn n (b :: post) = childIn n post := by
        rw [childIn, List.findSome?_cons, hc]
        rfl
      rw [hnil.eq_nil, hin]
      exact ⟨hchain, hfirst⟩
    | some c =>
      have hin : childIn n (b :: post) = some c := by
        rw [childIn, List.findSome?_cons, hc]
      obtain ⟨q, hhead, hq⟩ := (hwalk b c hc).first
      have hsub := hchild b
      rw [hc] at hsub
      obtain ⟨k, hk, hparent⟩ := hsub.stored_root
      have honly := onlyChild hnodup hchild hc
      refine ⟨(hwalk b c hc).chain.append hchain ?_, .inr ⟨c, q, hin, ?_, hq⟩⟩
      · -- the root of the branch is followed by the first node of the next branch, or by `p`
        intro x hx y hy
        obtain rfl := Option.some.inj ((Option.mem_def.mp hx).symm.trans (hwalk b c hc).last)
        rcases hfirst with ⟨hnone, hempty⟩ | ⟨c', q', hsome, hhead', hq'⟩
        · rw [hempty] at hy
          obtain rfl := Option.some.inj (Option.mem_def.mp hy)
          exact .parent hk hparent hget honly hall hnone
        · obtain rfl := Option.some.inj ((Option.mem_def.mp hy).symm.trans hhead')
          exact .sibling hk hparent hget honly hall hsome hq'
      · rw [List.head?_append, hhead]
        rfl

/-- The nodes of a tree, from the first one to the root. -/
theorem walk (hs : PostOrder h o (some p) L) (hnodup : L.Nodup) : Walk h p L := by
  generalize hl : some p = l at hs
  induction hs generalizing p with
  | nil => cases hl
  | @node _ r n lists hget hparent hchild ih =>
    obtain rfl := Option.some.inj hl
    have hwalk : ∀ b c, child n b = some c → Walk h c (lists b) := fun b c hc =>
      ih b (nodup_list hnodup b) hc.symm
    obtain ⟨hchain, hfirst⟩ := walk_branches hget hnodup hchild hwalk [] all rfl
    refine ⟨hchain, ?_, List.getLast?_concat⟩
    rcases hfirst with ⟨hnone, hempty⟩ | ⟨c, q, hsome, hhead, hq⟩
    · refine ⟨p, ?_, .here hget hnone⟩
      rw [hempty]
      rfl
    · exact ⟨q, hhead, .down hget hsome hq⟩

end PostOrder

end BranchTree
