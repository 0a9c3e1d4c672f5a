import Mathlib.Data.Multiset.AddSub
import Mathlib.Data.Multiset.Dedup
import ReSTM.Common.LinkedTree

/-!
# Trees of stored nodes in order

`InOrder h l L` lists the nodes of the tree under `l` in order. The next node is found with the
links alone: `Leftmost` goes down to the first node of a subtree, `Up` goes up to the first parent
that is entered from the left. `Above h root p bits` are the steps from the root to a node, the
last one first: `false` is a step to the left.

* `Linked.inOrder`: the nodes of a linked tree are listed once each.
* `Linked.next_spec`: the next node in the list is the next node by the links.
* `Linked.above_spec`: every node has its steps, which are fewer than there are nodes.
-/

namespace HeapModel

universe u

open LinkedNode

variable {N : Type u} [LinkedNode N]

/-- The nodes of the tree under a pointer, in order. -/
inductive InOrder (h : Heap N) : Option Ptr → List Ptr → Prop
  | nil : InOrder h none []
  | node {p : Ptr} {n : N} {L R : List Ptr} (hget : h.get p = some n) (hl : InOrder h (left n) L)
      (hr : InOrder h (right n) R) : InOrder h (some p) (L ++ p :: R)

/-- The first node of the subtree of a node. -/
inductive Leftmost (h : Heap N) : Ptr → Ptr → Prop
  | here {p : Ptr} {n : N} (hget : h.get p = some n) (hleft : left n = none) : Leftmost h p p
  | left {p c q : Ptr} {n : N} (hget : h.get p = some n) (hleft : left n = some c)
      (hrest : Leftmost h c q) : Leftmost h p q

/-- The first parent above a node that has it on the left. -/
inductive Up (h : Heap N) : Ptr → Option Ptr → Prop
  | root {p : Ptr} {n : N} (hget : h.get p = some n) (hparent : parent n = none) : Up h p none
  | left {p b : Ptr} {n m : N} (hget : h.get p = some n) (hparent : parent n = some b)
      (hm : h.get b = some m) (hleft : left m = some p) : Up h p (some b)
  | right {p b : Ptr} {n m : N} {o : Option Ptr} (hget : h.get p = some n)
      (hparent : parent n = some b) (hm : h.get b = some m) (hleft : left m ≠ some p)
      (hrest : Up h b o) : Up h p o

/-- The node that follows a node. -/
inductive Next (h : Heap N) : Ptr → Option Ptr → Prop
  | down {p c q : Ptr} {n : N} (hget : h.get p = some n) (hright : right n = some c)
      (hleft : Leftmost h c q) : Next h p (some q)
  | up {p : Ptr} {n : N} {o : Option Ptr} (hget : h.get p = some n) (hright : right n = none)
      (hup : Up h p o) : Next h p o

/-- The steps from the root to a node. -/
inductive Above (h : Heap N) (root : Ptr) : Ptr → List Bool → Prop
  | root {n : N} (hget : h.get root = some n) (hparent : parent n = none) : Above h root root []
  | left {p b : Ptr} {n m : N} {bits : List Bool} (hget : h.get p = some n)
      (hparent : parent n = some b) (hm : h.get b = some m) (hleft : left m = some p)
      (hrest : Above h root b bits) : Above h root p (false :: bits)
  | right {p b : Ptr} {n m : N} {bits : List Bool} (hget : h.get p = some n)
      (hparent : parent n = some b) (hm : h.get b = some m) (hleft : left m ≠ some p)
      (hright : right m = some p) (hrest : Above h root b bits) : Above h root p (true :: bits)

namespace Linked

variable {h : Heap N} {o l u : Option Ptr} {r root : Ptr} {F : Finset Ptr} {L : List Ptr}
  {bits : List Bool} {bound : ℕ}

/-- Every node is listed once. -/
theorem inOrder (hs : Linked h o l F) : ∃ L : List Ptr, InOrder h l L ∧ (L : Multiset Ptr) = F.val := by
  induction hs with
  | nil => exact ⟨[], .nil, rfl⟩
  | @node o p n L R hget hparent hl hr hdisj hp ihl ihr =>
    obtain ⟨ls, hls, hL⟩ := ihl
    obtain ⟨rs, hrs, hR⟩ := ihr
    refine ⟨ls ++ p :: rs, .node hget hls hrs, ?_⟩
    have hunion : (L ∪ R).val = L.val + R.val := by
      rw [← Finset.disjUnion_eq_union L R hdisj]
      rfl
    rw [Finset.insert_val_of_notMem hp, hunion, ← hL, ← hR, Multiset.coe_add, Multiset.cons_coe]
    exact Multiset.coe_eq_coe.mpr List.perm_middle

/-- The order is that of the links. -/
theorem inOrder_unique {L' : List Ptr} (hs : InOrder h l L) (hs' : InOrder h l L') : L = L' := by
  induction hs generalizing L' with
  | nil =>
    cases hs'
    rfl
  | node hget _ _ ihl ihr =>
    cases hs' with
    | node hget' hl' hr' =>
      obtain rfl := Option.some.inj (hget.symm.trans hget')
      rw [ihl hl', ihr hr']

/-- The first node. -/
theorem leftmost (hs : InOrder h l L) : ∀ r, l = some r → ∃ q, L.head? = some q ∧ Leftmost h r q := by
  induction hs with
  | nil => exact nofun
  | @node p n L R hget hl _ ihl =>
    rintro r ⟨⟩
    cases hleft : left n with
    | none =>
      rw [hleft] at hl
      cases hl
      exact ⟨p, rfl, .here hget hleft⟩
    | some c =>
      obtain ⟨q, hq, hlm⟩ := ihl c hleft
      refine ⟨q, ?_, .left hget hleft hlm⟩
      rw [List.head?_append, hq]
      rfl

/-- The node that follows in the list, or the one that follows the whole tree. -/
theorem next_spec (hs : Linked h o l F) (hi : InOrder h l L) (hup : ∀ r, l = some r → Up h r u) :
    ∀ (i : ℕ) x, L[i]? = some x → Next h x (L[i + 1]? <|> u) := by
  induction hs generalizing L u with
  | nil =>
    cases hi
    exact nofun
  | @node o p n Fl Fr hget hparent hl hr hdisj hp ihl ihr =>
    cases hi with
    | @node _ n' Ll Lr hget' hil hir =>
      obtain rfl : n = n' := Option.some.inj (hget.symm.trans hget')
      have hupl : ∀ c, left n = some c → Up h c (some p) := by
        intro c hc
        obtain ⟨m, hm, hmp⟩ := (hc ▸ hl).root_spec
        exact .left hm hmp hget hc
      have hupr : ∀ c, right n = some c → Up h c u := by
        intro c hc
        obtain ⟨m, hm, hmp⟩ := (hc ▸ hr).root_spec
        refine .right hm hmp hget (fun hleft => ?_) (hup p rfl)
        exact Finset.disjoint_left.mp hdisj (hleft ▸ hl).mem (hc ▸ hr).mem
      intro i x hx
      rcases Nat.lt_trichotomy i Ll.length with hlt | rfl | hlt
      · -- a node on the left
        rw [List.getElem?_append_left hlt] at hx
        have hnext := ihl hil hupl i x hx
        rcases Nat.lt_or_ge (i + 1) Ll.length with hlt' | hge
        · rw [List.getElem?_append_left hlt']
          rw [List.getElem?_eq_getElem hlt'] at hnext ⊢
          exact hnext
        · rw [List.getElem?_eq_none hge] at hnext
          have hlast : i + 1 = Ll.length := by omega
          rw [hlast, List.getElem?_append_right (le_refl _), Nat.sub_self]
          exact hnext
      · -- the root
        rw [List.getElem?_append_right (le_refl _), Nat.sub_self] at hx
        obtain rfl : p = x := Option.some.inj hx
        rw [List.getElem?_append_right (Nat.le_add_right _ 1), Nat.add_sub_cancel_left,
          List.getElem?_cons_succ]
        cases hright : right n with
        | none =>
          rw [hright] at hir
          cases hir
          exact .up hget hright (hup p rfl)
        | some c =>
          obtain ⟨q, hq, hlm⟩ := leftmost hir c hright
          rw [List.head?_eq_getElem?] at hq
          rw [hq]
          exact .down hget hright hlm
      · -- a node on the right
        obtain ⟨j, rfl⟩ := Nat.exists_eq_add_of_lt hlt
        rw [Nat.add_assoc, List.getElem?_append_right (Nat.le_add_right _ _),
          Nat.add_sub_cancel_left, List.getElem?_cons_succ] at hx
        have hplace : Ll.length + j + 1 + 1 - Ll.length = j + 1 + 1 := by omega
        rw [List.getElem?_append_right (by omega), hplace, List.getElem?_cons_succ]
        exact ihr hir hupr j x hx

section Up

variable {p b : Ptr} {n m : N}

/-- What is above a node is read from the node and its parent. -/
theorem up_cases (hup : Up h p u) (hget : h.get p = some n) :
    parent n = none ∧ u = none ∨ ∃ b m, parent n = some b ∧ h.get b = some m ∧
      (left m = some p ∧ u = some b ∨ left m ≠ some p ∧ Up h b u) := by
  cases hup with
  | root hget' hparent =>
    obtain rfl := Option.some.inj (hget'.symm.trans hget)
    exact .inl ⟨hparent, rfl⟩
  | left hget' hparent hm hleft =>
    obtain rfl := Option.some.inj (hget'.symm.trans hget)
    exact .inr ⟨_, _, hparent, hm, .inl ⟨hleft, rfl⟩⟩
  | right hget' hparent hm hleft hrest =>
    obtain rfl := Option.some.inj (hget'.symm.trans hget)
    exact .inr ⟨_, _, hparent, hm, .inr ⟨hleft, hrest⟩⟩

theorem up_of_root (hup : Up h p u) (hget : h.get p = some n) (hparent : parent n = none) :
    u = none := by
  rcases up_cases hup hget with ⟨-, hu⟩ | ⟨b, m, hb, -⟩
  · exact hu
  · rw [hparent] at hb
    cases hb

theorem up_of_parent (hup : Up h p u) (hget : h.get p = some n) (hparent : parent n = some b)
    (hm : h.get b = some m) : left m = some p ∧ u = some b ∨ left m ≠ some p ∧ Up h b u := by
  rcases up_cases hup hget with ⟨hnone, -⟩ | ⟨b', m', hb, hm', hcases⟩
  · rw [hparent] at hnone
    cases hnone
  · obtain rfl := Option.some.inj (hb.symm.trans hparent)
    obtain rfl := Option.some.inj (hm'.symm.trans hm)
    exact hcases

end Up

/-- Every node has its steps. -/
theorem above_spec (hs : Linked h o l F) (habove : ∀ r, l = some r → Above h root r bits)
    (hbound : bits.length + F.card ≤ bound) :
    ∀ q ∈ F, ∃ bits, Above h root q bits ∧ bits.length < bound := by
  induction hs generalizing bits with
  | nil => exact fun q hq => absurd hq (Finset.notMem_empty q)
  | @node o p n L R hget hparent hl hr hdisj hp ihl ihr =>
    rw [Finset.card_insert_of_notMem hp, Finset.card_union_of_disjoint hdisj] at hbound
    intro q hq
    rw [Finset.mem_insert, Finset.mem_union] at hq
    rcases hq with rfl | hq | hq
    · exact ⟨bits, habove q rfl, by omega⟩
    · have hstep : ∀ c, left n = some c → Above h root c (false :: bits) := by
        intro c hc
        obtain ⟨m, hm, hmp⟩ := (hc ▸ hl).root_spec
        exact .left hm hmp hget hc (habove p rfl)
      exact ihl hstep (by rw [List.length_cons]; omega) q hq
    · have hstep : ∀ c, right n = some c → Above h root c (true :: bits) := by
        intro c hc
        obtain ⟨m, hm, hmp⟩ := (hc ▸ hr).root_spec
        refine .right hm hmp hget (fun hleft => ?_) hc (habove p rfl)
        exact Finset.disjoint_left.mp hdisj (hleft ▸ hl).mem (hc ▸ hr).mem
      exact ihr hstep (by rw [List.length_cons]; omega) q hq

section Above

variable {p : Ptr} {n : N} {bits' : List Bool}

/-- The steps to a node are those to its parent, and one more. -/
theorem above_cases (ha : Above h root p bits) (hget : h.get p = some n) :
    parent n = none ∧ bits = [] ∨ ∃ b m bits', parent n = some b ∧ h.get b = some m ∧
      bits = decide (left m ≠ some p) :: bits' ∧ Above h root b bits' := by
  cases ha with
  | root hget' hparent =>
    obtain rfl := Option.some.inj (hget'.symm.trans hget)
    exact .inl ⟨hparent, rfl⟩
  | left hget' hparent hm hleft hrest =>
    obtain rfl := Option.some.inj (hget'.symm.trans hget)
    exact .inr ⟨_, _, _, hparent, hm, by simp [hleft], hrest⟩
  | right hget' hparent hm hleft hright hrest =>
    obtain rfl := Option.some.inj (hget'.symm.trans hget)
    exact .inr ⟨_, _, _, hparent, hm, by simp [hleft], hrest⟩

/-- The steps to a node are read from the links to the parents. -/
theorem above_unique (ha : Above h root p bits) (ha' : Above h root p bits') : bits = bits' := by
  have hchild : ∀ {p b : Ptr} {n m : N} {bit : Bool} {bits bits' : List Bool}, h.get p = some n →
      parent n = some b → h.get b = some m → decide (left m ≠ some p) = bit →
      (∀ {bits'}, Above h root b bits' → bits = bits') → Above h root p bits' →
      bit :: bits = bits' := by
    intro p b n m bit bits bits' hget hparent hm hbit ih ha'
    rcases above_cases ha' hget with ⟨hnone, -⟩ | ⟨b', m', rest, hb, hm', rfl, hrest⟩
    · rw [hparent] at hnone
      cases hnone
    · obtain rfl := Option.some.inj (hb.symm.trans hparent)
      obtain rfl := Option.some.inj (hm'.symm.trans hm)
      rw [ih hrest, hbit]
  induction ha generalizing bits' with
  | root hget hparent =>
    rcases above_cases ha' hget with ⟨-, rfl⟩ | ⟨b, m, rest, hb, -⟩
    · rfl
    · rw [hparent] at hb
      cases hb
  | left hget hparent hm hleft hrest ih =>
    exact hchild hget hparent hm (by simp [hleft]) ih ha'
  | right hget hparent hm hleft hright hrest ih =>
    exact hchild hget hparent hm (by simp [hleft]) ih ha'

end Above

end Linked

end HeapModel
