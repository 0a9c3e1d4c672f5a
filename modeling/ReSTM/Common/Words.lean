import ReSTM.Common.JavaText
import Mathlib.Tactic.NormNum

/-!
# Words that do not overflow

The operations of `Int64` and `Int32` wrap around. Where the result of the same operation on
numbers fits in the type, it is what they give.
-/

namespace Words

open JavaText

theorem bmod_of_fits {n : ℤ} (h : Fits 64 n) : n.bmod (2 ^ 64) = n :=
  Int.bmod_eq_of_le h.1 h.2

theorem fits_toInt (a : Int64) : Fits 64 a.toInt := ⟨a.le_toInt, a.toInt_lt⟩

/-- What lies between numbers that fit. -/
theorem fits_of_le {bits : ℕ} {m n k : ℤ} (hm : Fits bits m) (hk : Fits bits k) (hmn : m ≤ n)
    (hnk : n ≤ k) : Fits bits n :=
  ⟨Int.le_trans hm.1 hmn, Int.lt_of_le_of_lt hnk hk.2⟩

variable {a b : Int64}

theorem toInt_add (h : Fits 64 (a.toInt + b.toInt)) : (a + b).toInt = a.toInt + b.toInt := by
  rw [Int64.toInt_add, bmod_of_fits h]

theorem toInt_sub (h : Fits 64 (a.toInt - b.toInt)) : (a - b).toInt = a.toInt - b.toInt := by
  rw [Int64.toInt_sub, bmod_of_fits h]

theorem toInt_mul (h : Fits 64 (a.toInt * b.toInt)) : (a * b).toInt = a.toInt * b.toInt := by
  rw [Int64.toInt_mul, bmod_of_fits h]

/-- An `Int64` in the range of an `Int32`. -/
theorem toInt_toInt32 (hlow : -2 ^ 31 ≤ a.toInt) (hhigh : a.toInt < 2 ^ 31) :
    a.toInt32.toInt = a.toInt := by
  rw [Int64.toInt_toInt32]
  exact Int.bmod_eq_of_le hlow hhigh

/-- A positive number is none of those that are not. -/
theorem ne_of_toInt_pos (ha : 0 < a.toInt) (hb : b.toInt ≤ 0) : a ≠ b := by
  rintro rfl
  exact Int.not_lt.mpr hb ha

theorem ne_zero_of_toInt_pos {a : Int32} (ha : 0 < a.toInt) : a ≠ 0 := by
  rintro rfl
  cases ha

end Words
