import Mathlib.Data.List.Basic

/-!
# Stored nodes

A heap maps pointers to the nodes that are stored under them. Pointers are drawn in order:
`alloc` stores a node under the pointer `next`. Nothing is stored under a pointer that was
not drawn.

* `get_set_self`, `get_set_of_ne`, `get_alloc_self`, `get_alloc_of_lt`: what each operation
  does to each pointer.
-/

namespace HeapModel

universe u

/-- A pointer. -/
abbrev Ptr : Type := ℕ

/-- The nodes under the pointers drawn so far. -/
structure Heap (N : Type u) where
  cells : List (Option N) := []
deriving DecidableEq

namespace Heap

variable {N : Type u}

/-- The node under a pointer. -/
def get (h : Heap N) (p : Ptr) : Option N := h.cells[p]?.join

/-- The pointer that is drawn next. -/
def next (h : Heap N) : Ptr := h.cells.length

/-- Store a node, or nothing, under a pointer that was drawn. -/
def set (h : Heap N) (p : Ptr) (n : Option N) : Heap N := ⟨h.cells.set p n⟩

/-- Store a node under the next pointer. -/
def alloc (h : Heap N) (n : N) : Heap N := ⟨h.cells ++ [some n]⟩

/-- Store `n` under `p`, unless `same` holds of it and the node that is there. -/
def write (same : N → N → Bool) (h : Heap N) (p : Ptr) (n : N) : Heap N :=
  if (h.get p).any (same n) then h else h.set p (some n)

/-- No node is the same as another: every write is stored. -/
def never (_ _ : N) : Bool := false

variable {h : Heap N} {p q : Ptr} {n m : N} {same : N → N → Bool}

@[simp] theorem get_empty (p : Ptr) : ({} : Heap N).get p = none := by simp [get]

@[simp] theorem next_set {o : Option N} : (h.set p o).next = h.next := by simp [next, set]

@[simp] theorem next_alloc : (h.alloc n).next = h.next + 1 := by simp [next, alloc]

theorem lt_next (hp : h.get p = some n) : p < h.next := by
  by_contra hlt
  rw [get, List.getElem?_eq_none (Nat.not_lt.mp hlt)] at hp
  cases hp

theorem get_of_le (hp : h.next ≤ p) : h.get p = none := by
  rw [get, List.getElem?_eq_none hp]
  rfl

theorem get_set_self {o : Option N} (hp : p < h.next) : (h.set p o).get p = o := by
  rw [get, set, List.getElem?_set_self hp]
  rfl

theorem get_set_of_ne {o : Option N} (hne : q ≠ p) : (h.set p o).get q = h.get q := by
  rw [get, set, List.getElem?_set_ne hne.symm]
  rfl

@[simp] theorem get_alloc_self : (h.alloc n).get h.next = some n := by
  simp [get, alloc, next]

theorem get_alloc_of_lt (hp : p < h.next) : (h.alloc n).get p = h.get p := by
  rw [get, alloc, List.getElem?_append_left hp]
  rfl

theorem get_alloc_of_ne (hp : p ≠ h.next) : (h.alloc n).get p = h.get p := by
  rcases Nat.lt_or_gt_of_ne hp with hlt | hlt
  · exact get_alloc_of_lt hlt
  · rw [get_of_le (Nat.le_of_lt hlt), get_of_le]
    rw [next_alloc]
    exact hlt

@[simp] theorem next_write : (h.write same p n).next = h.next := by
  unfold write
  split_ifs
  · rfl
  · exact next_set

theorem get_write_of_ne (hne : q ≠ p) : (h.write same p n).get q = h.get q := by
  unfold write
  split_ifs
  · rfl
  · exact get_set_of_ne hne

/-- The node that is there after a write is the new one, or the old one if it is the same. -/
theorem get_write_self (hp : h.get p = some m) :
    (h.write same p n).get p = if same n m then some m else some n := by
  unfold write
  rw [hp, Option.any_some]
  split_ifs
  · exact hp
  · exact get_set_self (lt_next hp)

theorem set_self (hp : h.get p = some n) : h.set p (some n) = h := by
  have hcell : h.cells[p]? = some (some n) := Option.join_eq_some_iff.mp hp
  unfold set
  obtain ⟨hlt, heq⟩ := List.getElem?_eq_some_iff.mp hcell
  rw [← heq, List.set_getElem_self]

/-- A write that is skipped could have been stored, if the nodes are equal. -/
theorem write_eq_never (hp : h.get p = some m) (hsame : same n m = true → n = m) :
    h.write same p n = h.write never p n := by
  have hnever : h.write never p n = h.set p (some n) := by
    rw [write, hp]
    rfl
  rw [hnever, write, hp, Option.any_some]
  split_ifs with hs
  · rw [hsame hs, set_self hp]
  · rfl

theorem write_eq_never_of_eq (hsame : ∀ m, same n m = true → n = m) :
    h.write same p n = h.write never p n := by
  cases hp : h.get p with
  | none => rw [write, write, hp, Option.any_none, Option.any_none]
  | some m => exact write_eq_never hp (hsame m)

end Heap

end HeapModel
