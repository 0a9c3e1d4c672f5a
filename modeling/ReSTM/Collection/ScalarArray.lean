import Mathlib.Algebra.BigOperators.Group.List.Basic
import Mathlib.Data.Rat.Defs
import Mathlib.Algebra.Order.Ring.Unbundled.Rat
import ReSTM.Collection.Nodes
import ReSTM.Common.WP

/-!
# `ScalarArray`

Model of `ScalarArray` and `ScalarData` (`stm/collection/ScalarArray.scala`): a number that is
the sum of counters, of which an addition changes one that it can lock. The numbers are taken as
exact.

* `shuffle`: the random order in which elements are tried.
* `Totals.add`, `Totals.get`: an addition changes the sum, or it is a conflict.
-/

namespace ReSTM

open HeapModel WP

/-- `map(_ -> Random.nextDouble()).sortBy(_._2).map(_._1)`, with the numbers that are drawn. -/
def shuffle {α : Type} (draws : ℕ → ℚ) (l : List α) : List α :=
  (l.zipIdx.mergeSort fun a b => draws a.2 ≤ draws b.2).map Prod.fst

theorem shuffle_perm {α : Type} (draws : ℕ → ℚ) (l : List α) : (shuffle draws l).Perm l := by
  have hperm := (List.mergeSort_perm l.zipIdx fun a b => draws a.2 ≤ draws b.2).map Prod.fst
  rwa [List.zipIdx_map_fst] at hperm

/-- What is stored of an array: the value of `rootPtr`, if it has one, and the counters. -/
structure ScalarArray where
  root : Option (List Ptr) := none
  values : Heap ℤ := {}
deriving DecidableEq

namespace ScalarArray

open Nodes

/-- `create` (lines 43–46). -/
def create (size : ℤ) : ScalarArray where
  root := some (List.range size.toNat)
  values := ⟨List.replicate size.toNat (some 0)⟩

/-- The counter that an addition changes (lines 53–66 of `ScalarData.add`). -/
def addFirst (locked : Ptr → Bool) (value : ℤ) : List Ptr → NodeTxn ℤ Unit
  | [] => throw (.transactionConflict "Could not lock any queue" none)
  | head :: tail =>
    if locked head then do
      let read ← readOpt head
      write (· == ·) head (read.getD 0 + value)
    else addFirst locked value tail

/-- `getInner` (lines 102–104). -/
def getInner (a : ScalarArray) : List Ptr := a.root.getD []

/-- `add` (lines 96–100). -/
def add (draws : ℕ → ℚ) (locked : Ptr → Bool) (value : ℤ) (a : ScalarArray) :
    Except Failure ScalarArray := do
  let (_, values) ← addFirst locked value (shuffle draws a.getInner) a.values
  return { a with values := values }

/-- `get` (lines 71–77 and 106–110). -/
def get (a : ScalarArray) : ℤ := (a.getInner.map fun p => (a.values.get p).getD 0).sum

/-! ## The sum of the counters -/

/-- The counters are different ones, and their sum is `n`. -/
def Totals (a : ScalarArray) (n : ℤ) : Prop :=
  a.getInner.Nodup ∧ (∀ p ∈ a.getInner, p < a.values.next) ∧ a.get = n

variable {a : ScalarArray} {n : ℤ}

theorem totals_create (size : ℤ) : Totals (create size) 0 := by
  refine ⟨List.nodup_range, fun p hp => ?_, ?_⟩
  · show p < (List.replicate _ _).length
    rw [List.length_replicate]
    exact List.mem_range.mp hp
  · refine List.sum_eq_zero fun x hx => ?_
    obtain ⟨p, hp, rfl⟩ := List.mem_map.mp hx
    show ((List.replicate size.toNat (some 0))[p]?.join).getD 0 = (0 : ℤ)
    rw [List.getElem?_replicate]
    split_ifs <;> rfl

/-- A change of one summand. -/
theorem sum_map_of_eq {l : List Ptr} {f g : Ptr → ℤ} {p : Ptr} {v : ℤ} (hnodup : l.Nodup)
    (hp : p ∈ l) (hv : g p = f p + v) (hsame : ∀ q ≠ p, g q = f q) :
    (l.map g).sum = (l.map f).sum + v := by
  induction l with
  | nil => exact absurd hp List.not_mem_nil
  | cons b l ih =>
    rw [List.nodup_cons] at hnodup
    rw [List.map_cons, List.sum_cons, List.map_cons, List.sum_cons]
    by_cases hb : b = p
    · have htail : l.map g = l.map f :=
        List.map_congr_left fun q hq => hsame q fun heq => hnodup.1 (hb ▸ heq ▸ hq)
      rw [htail, hb, hv]
      omega
    · have hmem : p ∈ l := (List.mem_cons.mp hp).resolve_left (Ne.symm hb)
      rw [hsame b hb, ih hnodup.2 hmem]
      omega

/-- An addition changes one of the counters, if it can lock one. -/
theorem addFirst_spec (locked : Ptr → Bool) (v : ℤ) (l : List Ptr) (h : Heap ℤ)
    (hlt : ∀ p ∈ l, p < h.next) :
    (∃ e, addFirst locked v l h = .error (.transactionConflict e none)) ∨
      ∃ p ∈ l, ∃ h', addFirst locked v l h = .ok ((), h') ∧ h'.next = h.next ∧
        (h'.get p).getD 0 = (h.get p).getD 0 + v ∧ ∀ q ≠ p, h'.get q = h.get q := by
  induction l with
  | nil => exact .inl ⟨_, rfl⟩
  | cons p l ih =>
    rw [addFirst]
    split_ifs
    · refine .inr ⟨p, List.mem_cons_self, _, rfl, Heap.next_write, ?_, fun q hq => ?_⟩
      · show ((h.write (· == ·) p ((h.get p).getD 0 + v)).get p).getD 0 = _
        cases hget : h.get p with
        | none =>
          unfold Heap.write
          rw [hget]
          show ((h.set p _).get p).getD 0 = _
          rw [Heap.get_set_self (hlt p List.mem_cons_self)]
          rfl
        | some m =>
          rw [Heap.get_write_self hget]
          split_ifs with hsame
          · exact (beq_iff_eq.mp hsame).symm
          · rfl
      · exact Heap.get_write_of_ne hq
    · rcases ih fun q hq => hlt q (List.mem_cons_of_mem p hq) with hconf | ⟨q, hq, hspec⟩
      · exact .inl hconf
      · exact .inr ⟨q, List.mem_cons_of_mem p hq, hspec⟩

/-- An addition that gets a lock changes the sum; otherwise it is a conflict. -/
theorem Totals.add (ha : Totals a n) (draws : ℕ → ℚ) (locked : Ptr → Bool) (v : ℤ) :
    (∃ e, a.add draws locked v = .error (.transactionConflict e none)) ∨
      ∃ a', a.add draws locked v = .ok a' ∧ Totals a' (n + v) := by
  obtain ⟨hnodup, hlt, rfl⟩ := ha
  have hperm := shuffle_perm draws a.getInner
  unfold ScalarArray.add
  rcases addFirst_spec locked v (shuffle draws a.getInner) a.values
    fun p hp => hlt p (hperm.mem_iff.mp hp) with ⟨e, he⟩ | ⟨p, hp, h', hok, hnext, hv, hsame⟩
  · rw [he]
    exact .inl ⟨e, rfl⟩
  · rw [hok]
    refine .inr ⟨_, rfl, hnodup, fun q hq => lt_of_lt_of_eq (hlt q hq) hnext.symm, ?_⟩
    exact sum_map_of_eq hnodup (hperm.mem_iff.mp hp) hv fun q hq => by rw [hsame q hq]

end ScalarArray

end ReSTM
