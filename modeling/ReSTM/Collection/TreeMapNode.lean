import ReSTM.Collection.Nodes
import ReSTM.Common.HeapTree
import ReSTM.Common.SearchTree
import ReSTM.Common.WP

/-!
# The nodes of a `TreeMap`

Model of `BinaryTreeMapNode` (`stm/collection/TreeMap.scala`). Greater keys are on the left.
`compareTo` is the order of the keys and agrees with `equals`; a value may be `null`, which is
`none`. `fuel` bounds the depth of a recursion. `addWith` and `removeWith` are `+=` and `-=` with
another way to decide which writes are skipped.

* `get_spec`, `contains_spec`, `addWith_spec`, `removeWith_spec`: the operations on stored nodes are
  those of `SearchTree` on the tree that they hold.
* `addWith_eq_never`, `removeWith_eq_never`: when it does not matter what is skipped.
-/

namespace ReSTM

open BinaryTree HeapModel WP
open SearchTree hiding insert

/-- `case class BinaryTreeMapNode` (lines 120–126). -/
structure BinaryTreeMapNode (T V : Type) where
  key : T
  value : Option V
  left : Option Ptr := none
  right : Option Ptr := none
deriving DecidableEq

variable {T V : Type}

instance : TreeNode (BinaryTreeMapNode T V) (T × Option V) where
  val n := (n.key, n.value)
  left n := n.left
  right n := n.right

/-- A transaction on the nodes of a map. -/
abbrev MapTxn (T V α : Type) : Type := NodeTxn (BinaryTreeMapNode T V) α

namespace BinaryTreeMapNode

open Nodes

/-- `min` (lines 129–131). -/
def min : ℕ → BinaryTreeMapNode T V → MapTxn T V (BinaryTreeMapNode T V)
  | 0, _ => throw stackOverflow
  | fuel + 1, n =>
    match n.right with
    | some right => do min fuel (← read right)
    | none => return n

/-- `max` (lines 133–135). -/
def max (fuel : ℕ) (n : BinaryTreeMapNode T V) : MapTxn T V (BinaryTreeMapNode T V) :=
  match n.left with
  | some left => do min fuel (← read left)
  | none => return n

section Order

variable [LinearOrder T]

/-- `equals` (lines 224–229), which leaves out the value. -/
def equals (n x : BinaryTreeMapNode T V) : Bool :=
  n.key = x.key ∧ n.left = x.left ∧ n.right = x.right

/-- `-=` (lines 137–182). -/
def remove : ℕ → BinaryTreeMapNode T V → T → MapTxn T V (Option (BinaryTreeMapNode T V))
  | 0, _, _ => throw stackOverflow
  | fuel + 1, n, toRemove =>
    if n.key = toRemove then
      match n.left with
      | some leftPtr => do
        let prevNode ← read leftPtr
        let promotedNode ← min fuel prevNode
        let maybeNode ← remove fuel prevNode promotedNode.key
        match maybeNode with
        | some newNode =>
          write equals leftPtr newNode
          return some { n with key := promotedNode.key, value := promotedNode.value }
        | none =>
          return some { n with left := none, key := promotedNode.key, value := promotedNode.value }
      | none =>
        match n.right with
        | some rightPtr => do
          let prevNode ← read rightPtr
          let promotedNode ← max fuel prevNode
          let maybeNode ← remove fuel prevNode promotedNode.key
          match maybeNode with
          | some newNode =>
            write equals rightPtr newNode
            return some { n with key := promotedNode.key, value := promotedNode.value }
          | none =>
            return some
              { n with right := none, key := promotedNode.key, value := promotedNode.value }
        | none => return none
    else if n.key < toRemove then
      match n.left with
      | some leftPtr => do
        match ← remove fuel (← read leftPtr) toRemove with
        | some newLeft =>
          write equals leftPtr newLeft
          return some n
        | none => return some { n with left := none }
      | none => throw (.noSuchElement "null")
    else
      match n.right with
      | some rightPtr => do
        match ← remove fuel (← read rightPtr) toRemove with
        | some newRight =>
          write equals rightPtr newRight
          return some n
        | none => return some { n with right := none }
      | none => throw (.noSuchElement "null")

/-- `+=` (lines 184–200). -/
def add : ℕ → BinaryTreeMapNode T V → T × Option V → MapTxn T V (BinaryTreeMapNode T V)
  | 0, _, _ => throw stackOverflow
  | fuel + 1, n, newValue =>
    if n.key < newValue.1 then
      match n.left with
      | some leftPtr => do
        write equals leftPtr (← add fuel (← read leftPtr) newValue)
        return n
      | none => do
        let left ← dynamic { key := newValue.1, value := newValue.2 }
        return { n with left := some left }
    else
      match n.right with
      | some rightPtr => do
        write equals rightPtr (← add fuel (← read rightPtr) newValue)
        return n
      | none => do
        let right ← dynamic { key := newValue.1, value := newValue.2 }
        return { n with right := some right }

/-- `-=`, where `same` decides which writes are skipped. -/
def removeWith (same : BinaryTreeMapNode T V → BinaryTreeMapNode T V → Bool) :
    ℕ → BinaryTreeMapNode T V → T → MapTxn T V (Option (BinaryTreeMapNode T V))
  | 0, _, _ => throw stackOverflow
  | fuel + 1, n, toRemove =>
    if n.key = toRemove then
      match n.left with
      | some leftPtr => do
        let prevNode ← read leftPtr
        let promotedNode ← min fuel prevNode
        let maybeNode ← removeWith same fuel prevNode promotedNode.key
        match maybeNode with
        | some newNode =>
          write same leftPtr newNode
          return some { n with key := promotedNode.key, value := promotedNode.value }
        | none =>
          return some { n with left := none, key := promotedNode.key, value := promotedNode.value }
      | none =>
        match n.right with
        | some rightPtr => do
          let prevNode ← read rightPtr
          let promotedNode ← max fuel prevNode
          let maybeNode ← removeWith same fuel prevNode promotedNode.key
          match maybeNode with
          | some newNode =>
            write same rightPtr newNode
            return some { n with key := promotedNode.key, value := promotedNode.value }
          | none =>
            return some
              { n with right := none, key := promotedNode.key, value := promotedNode.value }
        | none => return none
    else if n.key < toRemove then
      match n.left with
      | some leftPtr => do
        match ← removeWith same fuel (← read leftPtr) toRemove with
        | some newLeft =>
          write same leftPtr newLeft
          return some n
        | none => return some { n with left := none }
      | none => throw (.noSuchElement "null")
    else
      match n.right with
      | some rightPtr => do
        match ← removeWith same fuel (← read rightPtr) toRemove with
        | some newRight =>
          write same rightPtr newRight
          return some n
        | none => return some { n with right := none }
      | none => throw (.noSuchElement "null")

/-- `+=`, where `same` decides which writes are skipped. -/
def addWith (same : BinaryTreeMapNode T V → BinaryTreeMapNode T V → Bool) :
    ℕ → BinaryTreeMapNode T V → T × Option V → MapTxn T V (BinaryTreeMapNode T V)
  | 0, _, _ => throw stackOverflow
  | fuel + 1, n, newValue =>
    if n.key < newValue.1 then
      match n.left with
      | some leftPtr => do
        write same leftPtr (← addWith same fuel (← read leftPtr) newValue)
        return n
      | none => do
        let left ← dynamic { key := newValue.1, value := newValue.2 }
        return { n with left := some left }
    else
      match n.right with
      | some rightPtr => do
        write same rightPtr (← addWith same fuel (← read rightPtr) newValue)
        return n
      | none => do
        let right ← dynamic { key := newValue.1, value := newValue.2 }
        return { n with right := some right }

/-- `contains` (lines 202–210). -/
def contains : ℕ → BinaryTreeMapNode T V → T → MapTxn T V Bool
  | 0, _, _ => throw stackOverflow
  | fuel + 1, n, newValue =>
    if n.key = newValue then return true
    else if n.key < newValue then
      match n.left with
      | some left => do contains fuel (← read left) newValue
      | none => return false
    else
      match n.right with
      | some right => do contains fuel (← read right) newValue
      | none => return false

/-- `get` (lines 212–220). `Option(value)` of `null` is `None`. -/
def get : ℕ → BinaryTreeMapNode T V → T → MapTxn T V (Option V)
  | 0, _, _ => throw stackOverflow
  | fuel + 1, n, newValue =>
    if n.key = newValue then return n.value
    else if n.key < newValue then
      match n.left with
      | some left => do get fuel (← read left) newValue
      | none => return none
    else
      match n.right with
      | some right => do get fuel (← read right) newValue
      | none => return none

end Order

/-! ## What the operations do to the tree -/

/-- What `max` returns: the least value on the left, or else the node's own. -/
def top : BinaryTree (T × Option V) → Option (T × Option V)
  | nil => none
  | node a l _ => some ((min? l).getD a)

theorem picks_top : Picks (top (T := T) (V := V)) where
  mem {t m} h := by
    cases t with
    | nil => cases h
    | node a l r =>
      rw [top, Option.some.injEq] at h
      cases hmin : min? l with
      | none =>
        rw [hmin] at h
        exact mem_elems_node.mpr (.inl h.symm)
      | some b =>
        rw [hmin] at h
        exact mem_elems_node.mpr (.inr (.inl (h ▸ mem_of_min? hmin)))
  eq_nil {t} h := by
    cases t with
    | nil => rfl
    | node a l r => cases h

variable {h : Heap (BinaryTreeMapNode T V)} {n : BinaryTreeMapNode T V}
  {t : BinaryTree (T × Option V)} {F : Finset Ptr} {fuel : ℕ}

/-- The trees on the two sides of a node. -/
theorem sides (hh : Held h n t F) : ∃ l r L R, t = node (n.key, n.value) l r ∧
    Stored h n.left l L ∧ Stored h n.right r R ∧ Disjoint L R ∧ F = L ∪ R := hh.sides

/-- `min` reads the value at the end of the path to the right. -/
theorem min_spec (hh : Held h n t F) (hfuel : t.numNodes ≤ fuel) :
    ∃ m : BinaryTreeMapNode T V, min fuel n h = .ok (m, h) ∧ min? t = some (m.key, m.value) := by
  induction fuel generalizing n t F with
  | zero => exact absurd hfuel hh.not_numNodes_le_zero
  | succ fuel ih =>
    obtain ⟨l, r, L, R, rfl, -, hr, -, -⟩ := sides hh
    rw [min]
    rcases hr.cases with ⟨hright, rfl, -⟩ | ⟨p, n', G, hright, hget, hheld, -, -⟩
    · rw [hright]
      exact ⟨n, rfl, rfl⟩
    · rw [hright]
      obtain ⟨m, hm, hmin⟩ := ih hheld (numNodes_sides hfuel).2
      exact ⟨m, (bind_ok (read_some hget)).trans hm, by rw [min?, hmin]; rfl⟩

theorem max_spec (hh : Held h n t F) (hfuel : t.numNodes ≤ fuel + 1) :
    ∃ m : BinaryTreeMapNode T V, max fuel n h = .ok (m, h) ∧ top t = some (m.key, m.value) := by
  obtain ⟨l, r, L, R, rfl, hl, -, -, -⟩ := sides hh
  rw [max]
  rcases hl.cases with ⟨hleft, rfl, -⟩ | ⟨p, n', G, hleft, hget, hheld, -, -⟩
  · rw [hleft]
    exact ⟨n, rfl, rfl⟩
  · rw [hleft]
    obtain ⟨m, hm, hmin⟩ := min_spec hheld (numNodes_sides hfuel).1
    exact ⟨m, (bind_ok (read_some hget)).trans hm, by rw [top, hmin]; rfl⟩

/-- How a removal ends: it fails, or it leaves no node, or it leaves a node. -/
inductive Removed (h : Heap (BinaryTreeMapNode T V)) (F : Finset Ptr) :
    Except Failure (Option (BinaryTreeMapNode T V) × Heap (BinaryTreeMapNode T V)) →
      Option (BinaryTree (T × Option V)) → Prop
  | failed {e : Failure} : Removed h F (.error e) none
  | gone {h' : Heap (BinaryTreeMapNode T V)} (hext : Extends h F h' ∅) :
      Removed h F (.ok (none, h')) (some nil)
  | left {h' : Heap (BinaryTreeMapNode T V)} {n' : BinaryTreeMapNode T V}
      {t' : BinaryTree (T × Option V)} {F' : Finset Ptr} (hheld : Held h' n' t' F')
      (hext : Extends h F h' F') : Removed h F (.ok (some n', h')) (some t')

/-- Nodes that are the same have the same key and the same links. -/
def SameKey (same : BinaryTreeMapNode T V → BinaryTreeMapNode T V → Bool) : Prop :=
  ∀ n x, same n x = true → n.key = x.key ∧ n.left = x.left ∧ n.right = x.right

theorem sameKey_never : SameKey (Heap.never (N := BinaryTreeMapNode T V)) := nofun

variable {same : BinaryTreeMapNode T V → BinaryTreeMapNode T V → Bool}

/-- Nodes that are the same, with the same value, are equal. -/
theorem SameKey.eq (hsame : SameKey same) {n x : BinaryTreeMapNode T V} (hs : same n x = true)
    (hvalue : n.key = x.key → n.left = x.left → n.right = x.right → n.value = x.value) :
    n = x := by
  obtain ⟨hkey, hleft, hright⟩ := hsame n x hs
  have hvalue' := hvalue hkey hleft hright
  cases n
  cases x
  simp only at hkey hleft hright hvalue'
  rw [hkey, hleft, hright, hvalue']

/-- A removal leaves the tree `o` if every write is stored, and some tree otherwise. -/
def Removes (same : BinaryTreeMapNode T V → BinaryTreeMapNode T V → Bool)
    (h : Heap (BinaryTreeMapNode T V)) (F : Finset Ptr)
    (res : Except Failure (Option (BinaryTreeMapNode T V) × Heap (BinaryTreeMapNode T V)))
    (o : Option (BinaryTree (T × Option V))) : Prop :=
  ∃ o', (same = Heap.never → o' = o) ∧ Removed h F res o'

section Removes

variable {x : MapTxn T V (Option (BinaryTreeMapNode T V))}
  {f : Option (BinaryTreeMapNode T V) → MapTxn T V (Option (BinaryTreeMapNode T V))}
  {a b : BinaryTreeMapNode T V} {o : Option (BinaryTree (T × Option V))} {p : Ptr}
  {l r : BinaryTree (T × Option V)} {L R : Finset Ptr}

theorem Removed.removes {res : Except Failure (Option (BinaryTreeMapNode T V) × _)}
    (hr : Removed h F res o) : Removes same h F res o := ⟨o, fun _ => rfl, hr⟩

/-- A step before a removal that only reads. -/
theorem Removes.bind {β : Type} {x : MapTxn T V β} {b : β}
    {f : β → MapTxn T V (Option (BinaryTreeMapNode T V))} (hx : x h = .ok (b, h))
    (hr : Removes same h F (f b h) o) : Removes same h F ((x >>= f) h) o :=
  (bind_ok hx).symm ▸ hr

/-- A removal from the child under `p`: `a` keeps the pointer and `b` drops it. -/
theorem remove_child (hsame : SameKey same) (hget : h.get p = some n) (hp : p ∉ F)
    (hx : Removes same h F (x h) o) (hsome : ∀ n', f (some n') = do write same p n'; return some a)
    (hnone : f none = return some b) :
    ((same = Heap.never → o = none) ∧ ∃ e, (x >>= f) h = .error e) ∨
      ∃ t' o' n' h' F', (same = Heap.never → o = some t') ∧ (x >>= f) h = .ok (some n', h') ∧
        Stored h' o' t' F' ∧ Extends h (insert p F) h' F' ∧
        (o' = some p ∧ n' = a ∨ o' = none ∧ n' = b) := by
  obtain ⟨o', ho, hx⟩ := hx
  generalize hxh : x h = res at hx
  cases hx with
  | failed => exact .inl ⟨fun hs => (ho hs).symm, _, bind_error hxh⟩
  | @gone h' hext =>
    refine .inr ⟨nil, none, b, h', ∅, fun hs => (ho hs).symm, ?_, .nil, ?_, .inr ⟨rfl, rfl⟩⟩
    · rw [bind_ok hxh, hnone]
      rfl
    · exact hext.mono (Finset.subset_insert p F) (Finset.Subset.refl ∅)
  | @left h' n' t' F' hheld hext =>
    obtain ⟨t'', heq, hstored, hext'⟩ := hext.stored_write_links hheld hget hp
      fun hs => (hsame n' n hs).2
    refine .inr ⟨t'', some p, a, _, _, fun hs => ?_, ?_, hstored, hext', .inl ⟨rfl, rfl⟩⟩
    · have hne : same n' n = false := by rw [hs, Heap.never]
      rw [← ho hs, heq hne]
    · rw [bind_ok hxh, hsome]
      rfl

/-- A removal from the left child under `p`. -/
theorem remove_left (hsame : SameKey same) (hget : h.get p = some n) (hp : p ∉ F)
    (hr : Stored h a.right r R) (hdisj : Disjoint (insert p F) R) (ha : a.left = some p)
    (hx : Removes same h F (x h) o) (hsome : ∀ n', f (some n') = do write same p n'; return some a)
    (hnone : f none = return some { a with left := none }) :
    Removes same h (insert p F ∪ R) ((x >>= f) h)
      (o.map fun l => node (a.key, a.value) l r) := by
  rcases remove_child hsame hget hp hx hsome hnone with
    ⟨ho, e, he⟩ | ⟨l', o', n', h', F', ho, hok, hs, hext, hlink⟩
  · rw [he]
    exact ⟨none, fun hs => by rw [ho hs]; rfl, .failed⟩
  · rw [hok]
    refine ⟨some (node (a.key, a.value) l' r), fun hs => by rw [ho hs]; rfl, ?_⟩
    rcases hlink with ⟨rfl, rfl⟩ | ⟨rfl, rfl⟩
    · obtain ⟨hheld, hext'⟩ := hext.held_left (m := n') (ha.symm ▸ hs) hr hdisj rfl
      exact .left hheld hext'
    · obtain ⟨hheld, hext'⟩ := hext.held_left (m := { a with left := none }) hs hr hdisj rfl
      exact .left hheld hext'

/-- A removal from the right child under `p`. -/
theorem remove_right (hsame : SameKey same) (hget : h.get p = some n) (hp : p ∉ F)
    (hl : Stored h a.left l L) (hdisj : Disjoint L (insert p F)) (ha : a.right = some p)
    (hx : Removes same h F (x h) o) (hsome : ∀ n', f (some n') = do write same p n'; return some a)
    (hnone : f none = return some { a with right := none }) :
    Removes same h (L ∪ insert p F) ((x >>= f) h)
      (o.map fun r => node (a.key, a.value) l r) := by
  rcases remove_child hsame hget hp hx hsome hnone with
    ⟨ho, e, he⟩ | ⟨r', o', n', h', F', ho, hok, hs, hext, hlink⟩
  · rw [he]
    exact ⟨none, fun hs => by rw [ho hs]; rfl, .failed⟩
  · rw [hok]
    refine ⟨some (node (a.key, a.value) l r'), fun hs => by rw [ho hs]; rfl, ?_⟩
    rcases hlink with ⟨rfl, rfl⟩ | ⟨rfl, rfl⟩
    · obtain ⟨hheld, hext'⟩ := hext.held_right (m := n') (ha.symm ▸ hs) hl hdisj rfl
      exact .left hheld hext'
    · obtain ⟨hheld, hext'⟩ := hext.held_right (m := { a with right := none }) hs hl hdisj rfl
      exact .left hheld hext'

end Removes

variable [LinearOrder T]

theorem contains_spec (hh : Held h n t F) (hfuel : t.numNodes ≤ fuel) (k : T) :
    n.contains fuel k h = .ok ((find Prod.fst k t).isSome, h) := by
  induction fuel generalizing n t F with
  | zero => exact absurd hfuel hh.not_numNodes_le_zero
  | succ fuel ih =>
    obtain ⟨l, r, L, R, rfl, hl, hr, -, -⟩ := sides hh
    obtain ⟨hfl, hfr⟩ := numNodes_sides hfuel
    rw [contains, find]
    split_ifs
    · rfl
    · rcases hl.cases with ⟨hleft, rfl, -⟩ | ⟨p, n', G, hleft, hget, hheld, -, -⟩
      · rw [hleft]
        rfl
      · rw [hleft]
        exact (bind_ok (read_some hget)).trans (ih hheld hfl)
    · rcases hr.cases with ⟨hright, rfl, -⟩ | ⟨p, n', G, hright, hget, hheld, -, -⟩
      · rw [hright]
        rfl
      · rw [hright]
        exact (bind_ok (read_some hget)).trans (ih hheld hfr)

theorem get_spec (hh : Held h n t F) (hfuel : t.numNodes ≤ fuel) (k : T) :
    n.get fuel k h = .ok ((find Prod.fst k t).bind (·.2), h) := by
  induction fuel generalizing n t F with
  | zero => exact absurd hfuel hh.not_numNodes_le_zero
  | succ fuel ih =>
    obtain ⟨l, r, L, R, rfl, hl, hr, -, -⟩ := sides hh
    obtain ⟨hfl, hfr⟩ := numNodes_sides hfuel
    rw [get, find]
    split_ifs
    · rfl
    · rcases hl.cases with ⟨hleft, rfl, -⟩ | ⟨p, n', G, hleft, hget, hheld, -, -⟩
      · rw [hleft]
        rfl
      · rw [hleft]
        exact (bind_ok (read_some hget)).trans (ih hheld hfl)
    · rcases hr.cases with ⟨hright, rfl, -⟩ | ⟨p, n', G, hright, hget, hheld, -, -⟩
      · rw [hright]
        rfl
      · rw [hright]
        exact (bind_ok (read_some hget)).trans (ih hheld hfr)

/-- A node with the links of another and the same key is its equal. -/
theorem equals_iff {n x : BinaryTreeMapNode T V} :
    n.equals x = true ↔ n.key = x.key ∧ n.left = x.left ∧ n.right = x.right :=
  decide_eq_true_iff

theorem addWith_equals (fuel : ℕ) (n : BinaryTreeMapNode T V) (a : T × Option V) :
    n.addWith equals fuel a = n.add fuel a := by
  induction fuel generalizing n with
  | zero => rfl
  | succ fuel ih => simp only [addWith, add, ih]

theorem removeWith_equals (fuel : ℕ) (n : BinaryTreeMapNode T V) (k : T) :
    n.removeWith equals fuel k = n.remove fuel k := by
  induction fuel generalizing n k with
  | zero => rfl
  | succ fuel ih => simp only [removeWith, remove, ih]

theorem sameKey_equals : SameKey (equals (T := T) (V := V)) := fun _ _ => equals_iff.mp

/-- `+=` inserts a value, and keeps the node's own. It does not matter what is skipped. -/
theorem addWith_spec (hh : Held h n t F) (hfuel : t.numNodes ≤ fuel) (a : T × Option V) :
    ∃ n' h' F', (∀ same, SameKey same → n.addWith same fuel a h = .ok (n', h')) ∧
      Held h' n' (SearchTree.insert Prod.fst a t) F' ∧ Extends h F h' F' ∧ n'.key = n.key ∧
      n'.value = n.value := by
  induction fuel generalizing n t F with
  | zero => exact absurd hfuel hh.not_numNodes_le_zero
  | succ fuel ih =>
    obtain ⟨l, r, L, R, rfl, hl, hr, hdisj, rfl⟩ := sides hh
    obtain ⟨hfl, hfr⟩ := numNodes_sides hfuel
    -- a new leaf
    have hleaf : Stored (h.alloc { key := a.1, value := a.2 }) (some h.next)
        (node a nil nil) {h.next} := .leaf Heap.get_alloc_self rfl rfl
    have halloc : Extends h ∅ (h.alloc { key := a.1, value := a.2 }) {h.next} := .alloc
    simp only [addWith, SearchTree.insert]
    split_ifs
    · rcases hl.cases with ⟨hleft, rfl, rfl⟩ | ⟨p, n₁, G, hleft, hget, hheld, hp, rfl⟩
      · rw [hleft]
        obtain ⟨hheld', hext⟩ :=
          halloc.held_left (m := { n with left := some h.next }) hleaf hr hdisj rfl
        exact ⟨_, _, _, fun _ _ => rfl, hheld', hext, rfl, rfl⟩
      · rw [hleft]
        obtain ⟨n₂, h', G', hadd, hheld', hext, hkey, hvalue⟩ := ih hheld hfl
        obtain ⟨hstored, hext'⟩ := hext.stored_write Heap.never hheld' hget hp
          fun hs => absurd hs Bool.false_ne_true
        obtain ⟨hheld'', hext''⟩ := hext'.held_left (m := n) (hleft ▸ hstored) hr hdisj rfl
        refine ⟨n, _, _, fun same hsame => ?_, hheld'', hext'', rfl, rfl⟩
        refine (bind_ok (read_some hget)).trans ((bind_ok (hadd same hsame)).trans ?_)
        show Except.ok (n, h'.write same p n₂) = _
        rw [hext.write_eq_never hget hp fun hs => hsame.eq hs fun _ _ _ => hvalue]
    · rcases hr.cases with ⟨hright, rfl, rfl⟩ | ⟨p, n₁, G, hright, hget, hheld, hp, rfl⟩
      · rw [hright]
        obtain ⟨hheld', hext⟩ :=
          halloc.held_right (m := { n with right := some h.next }) hleaf hl hdisj rfl
        exact ⟨_, _, _, fun _ _ => rfl, hheld', hext, rfl, rfl⟩
      · rw [hright]
        obtain ⟨n₂, h', G', hadd, hheld', hext, hkey, hvalue⟩ := ih hheld hfr
        obtain ⟨hstored, hext'⟩ := hext.stored_write Heap.never hheld' hget hp
          fun hs => absurd hs Bool.false_ne_true
        obtain ⟨hheld'', hext''⟩ := hext'.held_right (m := n) (hright ▸ hstored) hl hdisj rfl
        refine ⟨n, _, _, fun same hsame => ?_, hheld'', hext'', rfl, rfl⟩
        refine (bind_ok (read_some hget)).trans ((bind_ok (hadd same hsame)).trans ?_)
        show Except.ok (n, h'.write same p n₂) = _
        rw [hext.write_eq_never hget hp fun hs => hsame.eq hs fun _ _ _ => hvalue]

/-! ## Removal -/

/-- `-=` leaves a tree, or fails. If every write is stored, it removes a key as
    `SearchTree.remove` does, with `max` as it is. -/
theorem removeWith_spec (hsame : SameKey same) (hh : Held h n t F) (hfuel : t.numNodes ≤ fuel)
    (k : T) :
    Removes same h F (n.removeWith same fuel k h) (SearchTree.remove Prod.fst top k t) := by
  induction fuel generalizing n t F k with
  | zero => exact absurd hfuel hh.not_numNodes_le_zero
  | succ fuel ih =>
    obtain ⟨l, r, L, R, rfl, hl, hr, hdisj, rfl⟩ := sides hh
    obtain ⟨hfl, hfr⟩ := numNodes_sides hfuel
    rw [removeWith, SearchTree.remove]
    split_ifs
    · rcases hl.cases with ⟨hleft, rfl, rfl⟩ | ⟨p, c, G, hleft, hget, hheld, hp, rfl⟩
      · rcases hr.cases with ⟨hright, rfl, rfl⟩ | ⟨p, c, G, hright, hget, hheld, hp, rfl⟩
        · rw [hleft, hright]
          exact Removed.removes (.gone (.refl (Finset.empty_subset _)))
        · -- the node's value becomes that of `max`
          obtain ⟨m, hmax, htop⟩ := max_spec hheld (Nat.le_succ_of_le hfr)
          rw [hleft, hright, min?, htop]
          refine .bind (read_some hget) (.bind hmax ?_)
          exact remove_right (a := { key := m.key, value := m.value, right := some p }) hsame hget
            hp .nil hdisj rfl (ih hheld hfr m.key) (fun _ => rfl) rfl
      · -- the node's value becomes the least one on the left
        obtain ⟨m, hmin, hmin'⟩ := min_spec hheld hfl
        rw [hleft, hmin']
        refine .bind (read_some hget) (.bind hmin ?_)
        exact remove_left (a := { key := m.key, value := m.value, left := some p, right := n.right })
          hsame hget hp hr hdisj rfl (ih hheld hfl m.key) (fun _ => rfl) rfl
    · rcases hl.cases with ⟨hleft, rfl, rfl⟩ | ⟨p, c, G, hleft, hget, hheld, hp, rfl⟩
      · rw [hleft]
        exact Removed.failed.removes
      · rw [hleft]
        refine .bind (read_some hget) ?_
        exact remove_left hsame hget hp hr hdisj hleft (ih hheld hfl k) (fun _ => rfl) rfl
    · rcases hr.cases with ⟨hright, rfl, rfl⟩ | ⟨p, c, G, hright, hget, hheld, hp, rfl⟩
      · rw [hright]
        exact Removed.failed.removes
      · rw [hright]
        refine .bind (read_some hget) ?_
        exact remove_right hsame hget hp hl hdisj hright (ih hheld hfr k) (fun _ => rfl) rfl

theorem removeWith_never_spec (hh : Held h n t F) (hfuel : t.numNodes ≤ fuel) (k : T) :
    Removed h F (n.removeWith Heap.never fuel k h) (SearchTree.remove Prod.fst top k t) := by
  obtain ⟨o, ho, hr⟩ := removeWith_spec sameKey_never hh hfuel k
  exact ho rfl ▸ hr

/-! ## Removal with equal writes skipped -/

/-- On the way of a removal, no node takes the value of another one with the same key, except
    from a subtree that has no other node. -/
def lossless [DecidableEq V] (k : T) : BinaryTree (T × Option V) → Bool
  | nil => true
  | node a l r =>
    if a.1 = k then
      match min? l with
      | some m => (l.numNodes ≤ 1 || m.1 ≠ k || m.2 = a.2) && lossless m.1 l
      | none =>
        match top r with
        | some m => (r.numNodes ≤ 1 || m.1 ≠ k || m.2 = a.2) && lossless m.1 r
        | none => true
    else if a.1 < k then lossless k l
    else lossless k r

theorem lossless_of_determined [DecidableEq V] (hd : Determined Prod.fst t) (k : T) :
    lossless k t = true := by
  induction t generalizing k with
  | nil => rfl
  | node a l r ihl ihr =>
    -- a promoted value with the node's key is the node's own
    have hval : ∀ m : T × Option V, m ∈ elems (node a l r) → m.1 = a.1 → m.2 = a.2 :=
      fun m hm hkey => congrArg Prod.snd (hd m hm a (mem_elems_node.mpr (.inl rfl)) hkey)
    rw [lossless]
    split_ifs with hak
    · cases hmin : min? l with
      | some m =>
        simp only [Bool.and_eq_true, Bool.or_eq_true, decide_eq_true_iff]
        refine ⟨?_, ihl hd.left m.1⟩
        by_cases hmk : m.1 = k
        · exact .inr (hval m (mem_elems_node.mpr (.inr (.inl (mem_of_min? hmin))))
            (hmk.trans hak.symm))
        · exact .inl (.inr hmk)
      | none =>
        cases htop : top r with
        | some m =>
          simp only [Bool.and_eq_true, Bool.or_eq_true, decide_eq_true_iff]
          refine ⟨?_, ihr hd.right m.1⟩
          by_cases hmk : m.1 = k
          · exact .inr (hval m (mem_elems_node.mpr (.inr (.inr (picks_top.mem htop))))
              (hmk.trans hak.symm))
          · exact .inl (.inr hmk)
        | none => rfl
    · exact ihl hd.left k
    · exact ihr hd.right k

/-- A node that takes over another value has lost a child, or it had the value already. -/
theorem val_eq_of_lossless [DecidableEq V] {h' : Heap (BinaryTreeMapNode T V)}
    {n' : BinaryTreeMapNode T V} {t' : BinaryTree (T × Option V)} {F' : Finset Ptr} {k : T}
    (hl : lossless k t) (hh : Held h n t F) (hh' : Held h' n' t' F')
    (hr : SearchTree.remove Prod.fst top k t = some t') (hkey : n'.key = n.key)
    (hleft : n'.left = n.left) (hright : n'.right = n.right) : n'.value = n.value := by
  obtain ⟨l, r, _, _, rfl, hsl, hsr, -⟩ := sides hh
  obtain ⟨l', r', _, _, rfl, hsl', hsr', -⟩ := sides hh'
  -- a child that is still there had another node below it
  have hmore : ∀ {o o' : Option Ptr} {s s' : BinaryTree (T × Option V)} {G G' : Finset Ptr} {j : T},
      Stored h o s G → Stored h' o' s' G' → o' = o → s ≠ nil →
        SearchTree.remove Prod.fst top j s = some s' → ¬s.numNodes ≤ 1 := by
    rintro o o' s s' G G' j hs hs' rfl hne hrem hle
    have hnum := numNodes_remove picks_top hrem
    have hzero : s' = nil := by
      cases s' with
      | nil => rfl
      | node _ _ _ =>
        simp only [numNodes] at hnum
        omega
    exact hne (hs.eq_nil_iff.mpr (hs'.eq_nil_iff.mp hzero))
  rw [lossless] at hl
  rw [SearchTree.remove] at hr
  split_ifs at hl hr with hak hlt
  · cases hmin : min? l with
    | some m =>
      rw [hmin] at hl hr
      obtain ⟨l₁, hl₁, heq⟩ := Option.map_eq_some_iff.mp hr
      obtain ⟨rfl, rfl, rfl⟩ := node.inj heq
      have hne : l ≠ nil := fun hnil => by
        rw [hnil] at hmin
        cases hmin
      simp only [Bool.and_eq_true, Bool.or_eq_true, decide_eq_true_iff] at hl
      rcases hl.1 with (hle | hmk) | hval
      · exact absurd hle (hmore hsl hsl' hleft hne hl₁)
      · exact absurd (hkey.trans hak) hmk
      · exact hval
    | none =>
      rw [hmin] at hl hr
      cases htop : top r with
      | none =>
        rw [htop] at hr
        cases hr
      | some m =>
        rw [htop] at hl hr
        obtain ⟨r₁, hr₁, heq⟩ := Option.map_eq_some_iff.mp hr
        obtain ⟨rfl, rfl, rfl⟩ := node.inj heq
        have hne : r ≠ nil := fun hnil => by
          rw [hnil] at htop
          cases htop
        simp only [Bool.and_eq_true, Bool.or_eq_true, decide_eq_true_iff] at hl
        rcases hl.1 with (hle | hmk) | hval
        · exact absurd hle (hmore hsr hsr' hright hne hr₁)
        · exact absurd (hkey.trans hak) hmk
        · exact hval
  · obtain ⟨l₁, -, heq⟩ := Option.map_eq_some_iff.mp hr
    exact (congrArg Prod.snd (node.inj heq).1).symm
  · obtain ⟨r₁, -, heq⟩ := Option.map_eq_some_iff.mp hr
    exact (congrArg Prod.snd (node.inj heq).1).symm

/-- A removal from the child under `p` that is lossless: it does not matter what is skipped. -/
theorem child_eq_never [DecidableEq V] {p : Ptr}
    {x x' : MapTxn T V (Option (BinaryTreeMapNode T V))}
    {f f' : Option (BinaryTreeMapNode T V) → MapTxn T V (Option (BinaryTreeMapNode T V))}
    {a : BinaryTreeMapNode T V} {k : T} (hsame : SameKey same) (hl : lossless k t)
    (hh : Held h n t F) (hget : h.get p = some n) (hp : p ∉ F)
    (hx : Removed h F (x h) (SearchTree.remove Prod.fst top k t)) (heq : x' h = x h)
    (hsome : ∀ n', f (some n') = do write Heap.never p n'; return some a)
    (hsome' : ∀ n', f' (some n') = do write same p n'; return some a) (hnone : f' none = f none) :
    (x' >>= f') h = (x >>= f) h := by
  generalize hr : SearchTree.remove Prod.fst top k t = r at hx
  generalize hxh : x h = res at hx heq
  cases hx with
  | failed => rw [bind_error hxh, bind_error heq]
  | gone => rw [bind_ok hxh, bind_ok heq, hnone]
  | @left h' n' t' F' hheld hext =>
    rw [bind_ok hxh, bind_ok heq, hsome, hsome']
    show Except.ok (some a, h'.write same p n') = Except.ok (some a, h'.write Heap.never p n')
    rw [hext.write_eq_never hget hp fun hs => hsame.eq hs (val_eq_of_lossless hl hh hheld hr)]

/-- A removal that is lossless: it does not matter what is skipped. -/
theorem removeWith_eq_never [DecidableEq V] (hsame : SameKey same) (hh : Held h n t F)
    (hfuel : t.numNodes ≤ fuel) {k : T} (hl : lossless k t) :
    n.removeWith same fuel k h = n.removeWith Heap.never fuel k h := by
  induction fuel generalizing n t F k with
  | zero => exact absurd hfuel hh.not_numNodes_le_zero
  | succ fuel ih =>
    obtain ⟨l, r, L, R, rfl, hsl, hsr, hdisj, rfl⟩ := sides hh
    obtain ⟨hfl, hfr⟩ := numNodes_sides hfuel
    rw [lossless] at hl
    rw [removeWith, removeWith]
    split_ifs at hl ⊢
    · rcases hsl.cases with ⟨hleft, rfl, rfl⟩ | ⟨p, c, G, hleft, hget, hheld, hp, rfl⟩
      · rcases hsr.cases with ⟨hright, rfl, rfl⟩ | ⟨p, c, G, hright, hget, hheld, hp, rfl⟩
        · rw [hleft, hright]
        · obtain ⟨m, hmax, htop⟩ := max_spec hheld (Nat.le_succ_of_le hfr)
          rw [min?, htop] at hl
          have hlm := (Bool.and_eq_true _ _ ▸ hl).2
          rw [hleft, hright]
          refine (bind_ok (read_some hget)).trans ((bind_ok hmax).trans ?_)
          refine .trans ?_ ((bind_ok (read_some hget)).trans (bind_ok hmax)).symm
          exact child_eq_never (a := { key := m.key, value := m.value, right := some p }) hsame hlm
            hheld hget hp (removeWith_never_spec hheld hfr m.key) (ih hheld hfr hlm) (fun _ => rfl)
            (fun _ => rfl) rfl
      · obtain ⟨m, hmin, hmin'⟩ := min_spec hheld hfl
        rw [hmin'] at hl
        have hlm := (Bool.and_eq_true _ _ ▸ hl).2
        rw [hleft]
        refine (bind_ok (read_some hget)).trans ((bind_ok hmin).trans ?_)
        refine .trans ?_ ((bind_ok (read_some hget)).trans (bind_ok hmin)).symm
        exact child_eq_never
          (a := { key := m.key, value := m.value, left := some p, right := n.right }) hsame hlm
          hheld hget hp (removeWith_never_spec hheld hfl m.key) (ih hheld hfl hlm) (fun _ => rfl)
          (fun _ => rfl) rfl
    · rcases hsl.cases with ⟨hleft, rfl, rfl⟩ | ⟨p, c, G, hleft, hget, hheld, hp, rfl⟩
      · rw [hleft]
      · rw [hleft]
        refine (bind_ok (read_some hget)).trans (.trans ?_ (bind_ok (read_some hget)).symm)
        exact child_eq_never hsame hl hheld hget hp (removeWith_never_spec hheld hfl k)
          (ih hheld hfl hl) (fun _ => rfl) (fun _ => rfl) rfl
    · rcases hsr.cases with ⟨hright, rfl, rfl⟩ | ⟨p, c, G, hright, hget, hheld, hp, rfl⟩
      · rw [hright]
      · rw [hright]
        refine (bind_ok (read_some hget)).trans (.trans ?_ (bind_ok (read_some hget)).symm)
        exact child_eq_never hsame hl hheld hget hp (removeWith_never_spec hheld hfr k)
          (ih hheld hfr hl) (fun _ => rfl) (fun _ => rfl) rfl

end BinaryTreeMapNode

end ReSTM
