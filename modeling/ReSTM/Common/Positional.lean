import Mathlib.Data.Nat.Digits.Lemmas

/-!
# Positional notation

The digits of a number, the most significant one first and without leading zeros. They are those of
`Nat.digits` in reverse.

* `positional_pos`: the last digit is the remainder, and those before it are of the quotient.
* `evaluate_positional`: evaluating the digits gives the number.
-/

namespace Positional

variable {radix n d : ℕ}

/-- The digits of `n`. Zero has none. -/
def positional (radix n : ℕ) : List ℕ := (Nat.digits radix n).reverse

/-- The number that has the digits `ds`. -/
def evaluate (radix : ℕ) (ds : List ℕ) : ℕ := ds.foldl (fun v d => v * radix + d) 0

@[simp] theorem positional_zero (radix : ℕ) : positional radix 0 = [] := by
  rw [positional, Nat.digits_zero, List.reverse_nil]

theorem positional_pos (hradix : 2 ≤ radix) (hn : 0 < n) :
    positional radix n = positional radix (n / radix) ++ [n % radix] := by
  rw [positional, Nat.digits_def' hradix hn, List.reverse_cons]
  rfl

theorem lt_of_mem (hradix : 2 ≤ radix) (hd : d ∈ positional radix n) : d < radix :=
  Nat.digits_lt_base hradix (List.mem_reverse.mp hd)

/-- There is no leading zero. -/
theorem head?_ne_zero (radix n : ℕ) : (positional radix n).head? ≠ some 0 := by
  rw [positional, List.head?_reverse]
  intro hzero
  by_cases hn : n = 0
  · rw [hn, Nat.digits_zero] at hzero
    cases hzero
  · have hne : Nat.digits radix n ≠ [] := Nat.digits_ne_nil_iff_ne_zero.mpr hn
    rw [List.getLast?_eq_some_getLast hne] at hzero
    exact Nat.getLast_digit_ne_zero radix hn (Option.some.inj hzero)

theorem evaluate_concat (ds : List ℕ) (d : ℕ) :
    evaluate radix (ds ++ [d]) = evaluate radix ds * radix + d := by
  rw [evaluate, List.foldl_append]
  rfl

theorem evaluate_positional (hradix : 2 ≤ radix) (n : ℕ) :
    evaluate radix (positional radix n) = n := by
  induction n using Nat.strong_induction_on with
  | _ n ih =>
    by_cases hn : n = 0
    · rw [hn, positional_zero]
      rfl
    · have hpos := Nat.pos_of_ne_zero hn
      rw [positional_pos hradix hpos, evaluate_concat, ih _ (Nat.div_lt_self hpos hradix),
        Nat.div_add_mod']

end Positional
