import Mathlib.Data.List.Nodup
import Mathlib.Data.List.Perm.Subperm
import ReSTM.Common.Heap

/-!
# Chains of stored nodes

A node has a value and, perhaps, the pointers to the next and to the previous one.
`Chain h prev l` says that the heap `h` stores the values of `l` under its pointers, each node
with links to its neighbours, the first one with the link `prev` to what is before it.

* `Chain.frame`: changes elsewhere do not matter.
* `Chain.snoc`: a new node after the last one.
* `Chain.tail`: the first node is cut off.
* `Chain.length_le`: a chain has no more nodes than there are pointers.
-/

namespace HeapModel

universe u v

/-- The nodes of a chain. -/
class ChainNode (N : Type u) (α : outParam (Type v)) where
  val : N → α
  next : N → Option Ptr
  prev : N → Option Ptr

open ChainNode

variable {N : Type u} {α : Type v} [ChainNode N α]

/-- The pointer of the first node. -/
def first (l : List (Ptr × α)) : Option Ptr := l.head?.map Prod.fst

/-- The pointer of the last node. -/
def last (l : List (Ptr × α)) : Option Ptr := l.getLast?.map Prod.fst

@[simp] theorem last_snoc (l : List (Ptr × α)) (p : Ptr) (x : α) :
    last (l ++ [(p, x)]) = some p := by
  rw [last, List.getLast?_concat]
  rfl

/-- The nodes of a chain, the first of which comes after `before`. -/
def Chain (h : Heap N) : Option Ptr → List (Ptr × α) → Prop
  | _, [] => True
  | before, (p, x) :: l =>
    (∃ n, h.get p = some n ∧ val n = x ∧ next n = first l ∧ prev n = before) ∧ Chain h (some p) l

variable {h h' : Heap N} {before : Option Ptr} {l : List (Ptr × α)} {p q : Ptr} {x y : α}
  {n n' m : N}

theorem Chain.lt_next (hc : Chain h before l) : ∀ a ∈ l, a.1 < h.next := by
  induction l generalizing before with
  | nil => exact fun a ha => absurd ha List.not_mem_nil
  | cons b l ih =>
    obtain ⟨⟨n, hget, -⟩, hl⟩ := hc
    intro a ha
    rcases List.mem_cons.mp ha with rfl | ha
    · exact Heap.lt_next hget
    · exact ih hl a ha

/-- Changes elsewhere do not matter. -/
theorem Chain.frame (hc : Chain h before l) (hsame : ∀ a ∈ l, h'.get a.1 = h.get a.1) :
    Chain h' before l := by
  induction l generalizing before with
  | nil => trivial
  | cons b l ih =>
    obtain ⟨⟨n, hget, hn⟩, hl⟩ := hc
    exact ⟨⟨n, (hsame b List.mem_cons_self).trans hget, hn⟩,
      ih hl fun a ha => hsame a (List.mem_cons_of_mem _ ha)⟩

/-- The last node of a chain has no next one. -/
theorem Chain.get_last (hc : Chain h before (l ++ [(p, x)])) :
    ∃ n, h.get p = some n ∧ val n = x ∧ next n = none := by
  induction l generalizing before with
  | nil =>
    obtain ⟨⟨n, hget, hval, hnext, -⟩, -⟩ := hc
    exact ⟨n, hget, hval, hnext⟩
  | cons b l ih => exact ih hc.2

/-- A new node, with the link to it in the node that was the last one. -/
theorem Chain.snoc (hc : Chain h before (l ++ [(p, x)]))
    (hnodup : ((l ++ [(p, x)]).map Prod.fst).Nodup) (hget : h.get p = some n)
    (hp : h'.get p = some m) (hq : h'.get q = some n')
    (hval : val m = val n) (hnext : next m = some q) (hprev : prev m = prev n)
    (hval' : val n' = y) (hnext' : next n' = none) (hprev' : prev n' = some p)
    (hsame : ∀ a < h.next, a ≠ p → h'.get a = h.get a) :
    Chain h' before (l ++ [(p, x), (q, y)]) := by
  induction l generalizing before with
  | nil =>
    obtain ⟨⟨n₁, hget₁, hval₁, -, hprev₁⟩, -⟩ := hc
    obtain rfl : n₁ = n := Option.some.inj (hget₁.symm.trans hget)
    exact ⟨⟨m, hp, hval.trans hval₁, hnext, hprev.trans hprev₁⟩,
      ⟨n', hq, hval', hnext', hprev'⟩, trivial⟩
  | cons b l ih =>
    have hlt := hc.lt_next b List.mem_cons_self
    obtain ⟨⟨n₁, hget₁, hval₁, hnext₁, hprev₁⟩, hl⟩ := hc
    rw [List.cons_append, List.map_cons, List.nodup_cons] at hnodup
    refine ⟨⟨n₁, (hsame b.1 hlt ?_).trans hget₁, hval₁, hnext₁.trans ?_, hprev₁⟩, ih hl hnodup.2⟩
    · rintro rfl
      exact hnodup.1 (by simp)
    · cases l <;> rfl

/-- The first node is cut off: the second one has no link to it. -/
theorem Chain.tail (hc : Chain h before ((p, x) :: (q, y) :: l))
    (hnodup : (((q, y) :: l).map Prod.fst).Nodup) (hget : h.get q = some n)
    (hq : h'.get q = some m) (hval : val m = val n) (hnext : next m = next n) (hprev : prev m = none)
    (hsame : ∀ a < h.next, a ≠ q → h'.get a = h.get a) : Chain h' none ((q, y) :: l) := by
  obtain ⟨-, ⟨n₁, hget₁, hval₁, hnext₁, -⟩, hl⟩ := hc
  obtain rfl : n₁ = n := Option.some.inj (hget₁.symm.trans hget)
  rw [List.map_cons, List.nodup_cons] at hnodup
  refine ⟨⟨m, hq, hval.trans hval₁, hnext.trans hnext₁, hprev⟩, hl.frame fun a ha => ?_⟩
  refine hsame a.1 (hl.lt_next a ha) fun heq => ?_
  exact hnodup.1 (List.mem_map.mpr ⟨a, ha, heq⟩)

/-- A chain has no more nodes than there are pointers. -/
theorem Chain.length_le (hc : Chain h before l) (hnodup : (l.map Prod.fst).Nodup) :
    l.length ≤ h.next := by
  have hsub : l.map Prod.fst ⊆ List.range h.next := by
    intro p hp
    obtain ⟨a, ha, rfl⟩ := List.mem_map.mp hp
    exact List.mem_range.mpr (hc.lt_next a ha)
  have hle := (hnodup.subperm hsub).length_le
  rwa [List.length_map, List.length_range] at hle

end HeapModel
