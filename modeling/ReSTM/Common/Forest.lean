import Mathlib.Algebra.BigOperators.Group.Finset.Piecewise
import Mathlib.Algebra.BigOperators.Group.Finset.Sigma

/-!
# Sums over a forest

Finitely many nodes, each of which is a root or has a parent. If the total of a node is its own
value and the totals of its children, then the totals of the roots are all values.

* `sum_own`: the sum over all nodes is the sum over the roots.
-/

namespace Forest

universe u v

variable {ι : Type u} {M : Type v} [AddCancelCommMonoid M] [DecidableEq ι]

theorem sum_own {s : Finset ι} {parent : ι → Option ι} {own total : ι → M}
    (hparent : ∀ c ∈ s, ∀ q, parent c = some q → q ∈ s)
    (htotal : ∀ q ∈ s, total q = own q + ∑ c ∈ s with parent c = some q, total c) :
    ∑ q ∈ s, own q = ∑ q ∈ s with parent q = none, total q := by
  have hchildren : ∑ q ∈ s, ∑ c ∈ s with parent c = some q, total c =
      ∑ c ∈ s with ¬parent c = none, total c := by
    simp only [Finset.sum_filter]
    rw [Finset.sum_comm]
    refine Finset.sum_congr rfl fun c hc => ?_
    cases hp : parent c with
    | none => simp
    | some q =>
      -- a node counts for its parent only
      simp only [Option.some.injEq]
      rw [Finset.sum_ite_eq, if_pos (hparent c hc q hp), if_pos nofun]
  have hall := Finset.sum_congr rfl htotal
  rw [Finset.sum_add_distrib, hchildren,
    ← Finset.sum_filter_add_sum_filter_not s fun q => parent q = none] at hall
  exact (add_right_cancel hall).symm

end Forest
