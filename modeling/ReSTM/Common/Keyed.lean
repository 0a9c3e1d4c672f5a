import Mathlib.Algebra.BigOperators.Group.Finset.Piecewise
import Mathlib.Algebra.Order.Group.Multiset
import Mathlib.Data.Multiset.Filter

/-!
# Values under keys

A store that keeps some values under each key is a multiset of pairs. `valuesAt P k` are the values
under the key `k`.

* `exists_cons_of_mem_valuesAt`: one value is taken away.
* `map_snd_eq`: all values under one key are taken away.
* `sum_valuesAt`: the values under the keys of some indices are all that there are.
-/

namespace Keyed

universe u v w

variable {κ : Type u} {α : Type v} [DecidableEq κ]

/-- The values under a key. -/
def valuesAt (P : Multiset (κ × α)) (k : κ) : Multiset α := (P.filter fun e => e.1 = k).map Prod.snd

/-- What is under other keys. -/
def without (P : Multiset (κ × α)) (k : κ) : Multiset (κ × α) := P.filter fun e => e.1 ≠ k

variable {P Q : Multiset (κ × α)} {k l : κ} {x : α} {e : κ × α}

@[simp] theorem valuesAt_zero : valuesAt (0 : Multiset (κ × α)) k = 0 := rfl

theorem valuesAt_cons_self : valuesAt ((k, x) ::ₘ P) k = x ::ₘ valuesAt P k := by
  rw [valuesAt, Multiset.filter_cons_of_pos _ (by rfl), Multiset.map_cons]
  rfl

theorem valuesAt_cons_of_ne (h : e.1 ≠ k) : valuesAt (e ::ₘ P) k = valuesAt P k := by
  rw [valuesAt, Multiset.filter_cons_of_neg (p := fun e : κ × α => e.1 = k) _ h]
  rfl

theorem mem_valuesAt : x ∈ valuesAt P k ↔ (k, x) ∈ P := by
  simp [valuesAt]

theorem valuesAt_eq_zero : valuesAt P k = 0 ↔ ∀ e ∈ P, e.1 ≠ k := by
  rw [valuesAt, Multiset.map_eq_zero, Multiset.filter_eq_nil]

/-- One of the values under a key. -/
theorem exists_cons_of_mem_valuesAt (h : x ∈ valuesAt P k) : ∃ Q, P = (k, x) ::ₘ Q :=
  Multiset.exists_cons_of_mem (mem_valuesAt.mp h)

theorem valuesAt_without_self : valuesAt (without P k) k = 0 :=
  valuesAt_eq_zero.mpr fun _ he => (Multiset.mem_filter.mp he).2

theorem valuesAt_without_of_ne (h : l ≠ k) : valuesAt (without P k) l = valuesAt P l := by
  rw [valuesAt, without, Multiset.filter_filter]
  congr 1
  refine Multiset.filter_congr fun e _ => and_iff_left_of_imp ?_
  rintro rfl
  exact h

/-- The values are those under one key, and the others. -/
theorem map_snd_eq (P : Multiset (κ × α)) (k : κ) :
    P.map Prod.snd = valuesAt P k + (without P k).map Prod.snd := by
  rw [valuesAt, without, ← Multiset.map_add, Multiset.filter_add_not]

/-- If each key is that of one index, the indices have all values. -/
theorem sum_valuesAt {ι : Type w} {s : Finset ι} {key : ι → Option κ}
    (hkey : ∀ e ∈ P, ∃ i ∈ s, key i = some e.1)
    (hunique : ∀ i ∈ s, ∀ j ∈ s, ∀ k, key i = some k → key j = some k → i = j) :
    ∑ i ∈ s, (key i).elim 0 (valuesAt P) = P.map Prod.snd := by
  classical
  induction P using Multiset.induction_on with
  | empty =>
    refine Finset.sum_eq_zero fun i _ => ?_
    cases key i <;> rfl
  | cons e P ih =>
    rw [Multiset.map_cons, ← ih fun e' he' => hkey e' (Multiset.mem_cons_of_mem he'),
      ← Multiset.singleton_add e.2]
    obtain ⟨i, hi, he⟩ := hkey e (Multiset.mem_cons_self e P)
    -- only the index of the new key has more values
    have hother : ∀ j ∈ s, (key j).elim 0 (valuesAt (e ::ₘ P)) =
        (if j = i then ({e.2} : Multiset α) else 0) + (key j).elim 0 (valuesAt P) := by
      intro j hj
      by_cases hji : j = i
      · rw [if_pos hji, hji, he]
        exact valuesAt_cons_self
      · rw [if_neg hji, zero_add]
        cases hk : key j with
        | none => rfl
        | some k => exact valuesAt_cons_of_ne fun heq => hji (hunique j hj i hi k hk (heq ▸ he))
    rw [Finset.sum_congr rfl hother, Finset.sum_add_distrib, Finset.sum_ite_eq', if_pos hi]

end Keyed
