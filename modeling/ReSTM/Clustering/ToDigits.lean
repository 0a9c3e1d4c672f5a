import ReSTM.Clustering.PageStream
import ReSTM.Clustering.TreeId
import ReSTM.Common.Positional
import ReSTM.Common.Words

/-!
# Digits in machine words

Model of `Util.mod` and of both overloads of `Util.toDigits` (`util/Util.scala`, lines 41–66), over
`Long` and `Int` as they are. `fuel` bounds the depth of the recursion.

* `Util.toDigits_positional`: both overloads are the positional notation of a number.
* `Util.toDigits_toInt`, `Util.BigInt.toDigits_toInt`: they are what the trees look nodes up by.
-/

namespace ReSTM

open Nodes Positional Words

namespace Util

/-- `mod` (lines 42–46). -/
def mod (a : Int64) (b : Int32) : Except Failure Int32 :=
  if b = 0 then throw (.runtimeException "/ by zero")
  else
    let result := (a % b.toInt64).toInt32
    return if result < 0 then result + b else result

/-- `Math.floorDiv`. -/
def floorDiv (x y : Int64) : Except Failure Int64 :=
  if y = 0 then throw (.runtimeException "/ by zero")
  else
    let q := x / y
    return if (x ^^^ y) < 0 ∧ q * y ≠ x then q - 1 else q

/-- `toDigits` of a `Long` (lines 58–66). -/
def toDigits (radix : Int32) : ℕ → Int64 → Except Failure (List Int32)
  | 0, _ => throw stackOverflow
  | fuel + 1, number =>
    if number = 0 then return []
    else do
      let bit ← mod number radix
      let remainder ← floorDiv (number - bit.toInt64) radix.toInt64
      return (← toDigits radix fuel remainder) ++ [bit]

namespace BigInt

/-- `toDigits` of a `BigInt` (lines 48–56). `mod` of a `BigInt` is not negative, and `/` rounds
    towards zero. -/
def toDigits (radix : Int32) : ℕ → ℤ → Except Failure (List Int32)
  | 0, _ => throw stackOverflow
  | fuel + 1, number =>
    if number = 0 then return []
    else if radix ≤ 0 then throw (.runtimeException "BigInteger: modulus not positive")
    else do
      let bit := Int32.ofInt (number % radix.toInt)
      let remainder := (number - bit.toInt).tdiv radix.toInt
      return (← toDigits radix fuel remainder) ++ [bit]

end BigInt

/-! ## One digit -/

variable {radix : Int32} {r n fuel : ℕ} {number : Int64}

/-- The remainder that is not negative. -/
theorem tmod_add (a : ℤ) {b : ℤ} (hb : 0 < b) :
    (if a.tmod b < 0 then a.tmod b + b else a.tmod b) = a % b := by
  have hrem := Int.tmod_eq_emod (a := a) (b := b)
  have hneg := Int.emod_nonneg a hb.ne'
  have hlt := Int.emod_lt_of_pos a hb
  split_ifs at hrem ⊢ <;> omega

/-- `mod` is never negative, whatever the sign of the number. -/
theorem mod_eq (a : Int64) {b : Int32} (hb : 0 < b.toInt) :
    ∃ bit, mod a b = .ok bit ∧ bit.toInt = a.toInt % b.toInt := by
  have hhigh := b.toInt_lt
  have hlt := Int.tmod_lt_of_pos a.toInt hb
  have hgt := Int.lt_tmod_of_pos a.toInt hb
  have hrem : (a % b.toInt64).toInt = a.toInt.tmod b.toInt := by
    rw [Int64.toInt_mod, Int32.toInt_toInt64]
  have hresult : (a % b.toInt64).toInt32.toInt = a.toInt.tmod b.toInt := by
    rw [toInt_toInt32, hrem] <;> omega
  refine ⟨_, if_neg (ne_zero_of_toInt_pos hb), ?_⟩
  have hiff : (a % b.toInt64).toInt32 < 0 ↔ a.toInt.tmod b.toInt < 0 := by
    rw [Int32.lt_iff_toInt_lt, hresult]
    rfl
  rw [← tmod_add a.toInt hb]
  by_cases hneg : (a % b.toInt64).toInt32 < 0
  · have hneg' := hiff.mp hneg
    rw [if_pos hneg, if_pos hneg', Int32.toInt_add, hresult]
    exact Int.bmod_eq_of_le (by omega) (by omega)
  · rw [if_neg hneg, if_neg (mt hiff.mpr hneg), hresult]

/-- `floorDiv` of a multiple has nothing to round. -/
theorem floorDiv_eq {x y : Int64} (hy : 0 < y.toInt) (hdvd : y.toInt ∣ x.toInt) :
    ∃ q, floorDiv x y = .ok q ∧ q.toInt = x.toInt / y.toInt := by
  have hne : y ≠ 0 := ne_of_toInt_pos hy (by decide)
  have hneg : y ≠ -1 := ne_of_toInt_pos hy (by decide)
  have hq : (x / y).toInt = x.toInt / y.toInt := by
    rw [Int64.toInt_div_of_ne_right _ _ hneg, Int.tdiv_eq_ediv_of_dvd hdvd]
  have hexact : x / y * y = x := by
    apply Int64.toInt_inj.mp
    rw [Int64.toInt_mul, hq, Int.ediv_mul_cancel hdvd]
    exact Int64.toInt_bmod x
  exact ⟨x / y, (if_neg hne).trans (congrArg pure (if_neg fun h => h.2 hexact)), hq⟩

/-- What is left without the last digit. -/
theorem sub_emod (n r : ℤ) : n - n % r = n / r * r :=
  (eq_sub_of_add_eq (Int.ediv_mul_add_emod n r)).symm

/-- One step of the recursion, over a number that is not negative. -/
theorem toDigits_step (hradix : 0 < radix.toInt) (hnumber : 0 < number.toInt) :
    ∃ rest bit, rest.toInt = number.toInt / radix.toInt ∧ bit.toInt = number.toInt % radix.toInt ∧
      toDigits radix (fuel + 1) number = (toDigits radix fuel rest).map (· ++ [bit]) := by
  have hne : number ≠ 0 := ne_of_toInt_pos hnumber (by decide)
  obtain ⟨bit, hbit, hbitEq⟩ := mod_eq number hradix
  have hnonneg := Int.ediv_nonneg hnumber.le hradix.le
  have hrest := Int.mul_nonneg hnonneg hradix.le
  have hsub : (number - bit.toInt64).toInt = number.toInt / radix.toInt * radix.toInt := by
    have hle := Int.sub_le_self number.toInt (Int.emod_nonneg number.toInt hradix.ne')
    rw [← sub_emod] at hrest ⊢
    rw [toInt_sub, Int32.toInt_toInt64, hbitEq]
    rw [Int32.toInt_toInt64, hbitEq]
    exact fits_of_le (by decide) (fits_toInt number) hrest hle
  have hradix64 : radix.toInt64.toInt = radix.toInt := Int32.toInt_toInt64 radix
  obtain ⟨rest, hrest, hrestEq⟩ := floorDiv_eq (x := number - bit.toInt64) (y := radix.toInt64)
    (hradix64 ▸ hradix) (by rw [hsub, hradix64]; exact Int.dvd_mul_left _ _)
  refine ⟨rest, bit, ?_, hbitEq, ?_⟩
  · rw [hrestEq, hsub, hradix64, Int.mul_ediv_cancel _ hradix.ne']
  · rw [toDigits, if_neg hne, hbit]
    show (floorDiv _ _ >>= _) = _
    rw [hrest]
    show (toDigits radix fuel rest >>= fun digits => pure (digits ++ [bit])) = _
    cases toDigits radix fuel rest <;> rfl

/-- One step of the recursion of a `BigInt`. -/
theorem BigInt.toDigits_step {number : ℤ} (hradix : 0 < radix.toInt) (hnumber : number ≠ 0) :
    ∃ rest : ℤ, ∃ bit : Int32, rest = number / radix.toInt ∧ bit.toInt = number % radix.toInt ∧
      toDigits radix (fuel + 1) number = (toDigits radix fuel rest).map (· ++ [bit]) := by
  have hbit : (Int32.ofInt (number % radix.toInt)).toInt = number % radix.toInt := by
    have hhigh := radix.toInt_lt
    have hlow := Int.emod_nonneg number hradix.ne'
    have hlt := Int.emod_lt_of_pos number hradix
    exact Int32.toInt_ofInt_of_le (by omega) (by omega)
  have hrest : (number - number % radix.toInt).tdiv radix.toInt = number / radix.toInt := by
    rw [sub_emod, Int.mul_tdiv_cancel _ hradix.ne']
  refine ⟨number / radix.toInt, _, rfl, hbit, ?_⟩
  have hneg : ¬radix ≤ 0 := fun h => Int.not_lt.mpr (Int32.le_iff_toInt_le.mp h) hradix
  rw [toDigits, if_neg hnumber, if_neg hneg]
  simp only [hbit, hrest]
  cases toDigits radix fuel (number / radix.toInt) <;> rfl

/-! ## All digits -/

/-- A recursion that takes off the last digit in each step gives the positional notation. -/
theorem eq_of_step {N : Type} {value : N → ℤ} {f : ℕ → N → Except Failure (List Int32)}
    (hr : radix.toInt = r) (hradix : 2 ≤ r)
    (hzero : ∀ fuel x, value x = 0 → f (fuel + 1) x = .ok [])
    (hstep : ∀ fuel x, 0 < value x → ∃ rest, ∃ bit : Int32, value rest = value x / radix.toInt ∧
      bit.toInt = value x % radix.toInt ∧ f (fuel + 1) x = (f fuel rest).map (· ++ [bit]))
    (x : N) (hx : value x = n) (hfuel : n < fuel) :
    f fuel x = .ok ((positional r n).map Int32.ofNat) := by
  induction n using Nat.strong_induction_on generalizing x fuel with
  | _ n ih =>
    cases fuel with
    | zero => omega
    | succ fuel =>
      by_cases hn : n = 0
      · rw [hn] at hx
        rw [hn, positional_zero, hzero fuel x hx]
        rfl
      · have hpos := Nat.pos_of_ne_zero hn
        obtain ⟨rest, bit, hrest, hbit, hf⟩ := hstep fuel x (by omega)
        have hlt := Nat.div_lt_self hpos hradix
        rw [hx, hr, ← Int.natCast_ediv] at hrest
        rw [hx, hr, ← Int.natCast_emod] at hbit
        have hdigit : bit = Int32.ofNat (n % r) := by
          have hmod := Nat.mod_lt n (show 0 < r by omega)
          have hhigh := radix.toInt_lt
          rw [← Int32.toInt_inj, hbit, Int32.toInt_ofNat_of_lt (by omega)]
        rw [hf, ih _ hlt rest hrest (by omega), positional_pos hradix hpos, List.map_append, hdigit]
        rfl

theorem toInt_eq_zero_iff {a : Int64} : a.toInt = 0 ↔ a = 0 :=
  Int64.toInt_inj (x := a) (y := 0)

/-- `toDigits` of a `Long` that is not negative. -/
theorem toDigits_eq (hr : radix.toInt = r) (hradix : 2 ≤ r) (hnumber : number.toInt = n)
    (hfuel : n < fuel) : toDigits radix fuel number = .ok ((positional r n).map Int32.ofNat) := by
  have hpos : 0 < radix.toInt := by omega
  refine eq_of_step hr hradix (fun fuel x hx => ?_) (fun fuel x hx => toDigits_step hpos hx)
    number hnumber hfuel
  rw [toDigits, if_pos (toInt_eq_zero_iff.mp hx)]
  rfl

/-- `toDigits` of a `BigInt` that is not negative. -/
theorem BigInt.toDigits_eq (hr : radix.toInt = r) (hradix : 2 ≤ r) (hfuel : n < fuel) :
    toDigits radix fuel n = .ok ((positional r n).map Int32.ofNat) := by
  have hpos : 0 < radix.toInt := by omega
  have hzero : ∀ (fuel : ℕ) (x : ℤ), id x = 0 → toDigits radix (fuel + 1) x = .ok [] := by
    intro fuel x hx
    rw [toDigits, if_pos (show x = 0 from hx)]
    rfl
  exact eq_of_step hr hradix hzero (fun fuel x hx => toDigits_step hpos hx.ne') n rfl hfuel

/-- A digit keeps its value as an `Int`. -/
theorem toInt_digit {d : ℕ} (hr : radix.toInt = r) (hd : d < r) : (Int32.ofNat d).toInt = d := by
  have hhigh := radix.toInt_lt
  exact Int32.toInt_ofNat_of_lt (by omega)

theorem evaluate_digits {ds : List ℕ} (hr : radix.toInt = r) (hds : ∀ d ∈ ds, d < r) (v : ℕ) :
    (ds.map Int32.ofNat).foldl (fun v d => v * radix.toInt + d.toInt) (v : ℤ) =
      (ds.foldl (fun v d => v * r + d) v : ℕ) := by
  induction ds generalizing v with
  | nil => rfl
  | cons d ds ih =>
    obtain ⟨hd, hds⟩ := List.forall_mem_cons.mp hds
    rw [List.map_cons, List.foldl_cons, List.foldl_cons, ← ih hds, toInt_digit hr hd, hr]
    push_cast
    rfl

/-- For a number that is not negative, both overloads end with the same digits. They are those of
    its positional notation, without leading zeros, and evaluating them gives the number. -/
theorem toDigits_positional (radix : Int32) (n : ℕ) (hradix : 2 ≤ radix) :
    ∃ digits : List Int32,
      Ends (fun fuel => BigInt.toDigits radix fuel n) (.ok digits) ∧
      (∀ number : Int64, number.toInt = n →
        Ends (fun fuel => toDigits radix fuel number) (.ok digits)) ∧
      (∀ digit ∈ digits, 0 ≤ digit ∧ digit < radix) ∧ digits.head? ≠ some 0 ∧
      digits.foldl (fun v digit => v * radix.toInt + digit.toInt) 0 = n := by
  have hge : 2 ≤ radix.toInt := Int32.le_iff_toInt_le.mp hradix
  obtain ⟨r, hr⟩ := Int.eq_ofNat_of_zero_le (show 0 ≤ radix.toInt by omega)
  have hr2 : 2 ≤ r := by omega
  refine ⟨(positional r n).map Int32.ofNat, ⟨nofun, n + 1, fun fuel hfuel => ?_⟩,
    fun number hnumber => ⟨nofun, n + 1, fun fuel hfuel => ?_⟩,
    fun digit hdigit => ?_, fun hzero => ?_, ?_⟩
  · exact BigInt.toDigits_eq hr hr2 hfuel
  · exact toDigits_eq hr hr2 hnumber hfuel
  · obtain ⟨d, hd, rfl⟩ := List.mem_map.mp hdigit
    have hlt := lt_of_mem hr2 hd
    have hval := toInt_digit hr hlt
    refine ⟨Int32.le_iff_toInt_le.mpr ?_, Int32.lt_iff_toInt_lt.mpr ?_⟩
    · rw [hval]
      exact Int.natCast_nonneg d
    · rw [hval, hr]
      exact Int.ofNat_lt.mpr hlt
  · rw [List.head?_map] at hzero
    obtain ⟨d, hd, hd0⟩ := Option.map_eq_some_iff.mp hzero
    have hval := toInt_digit hr (lt_of_mem hr2 (List.mem_of_head? hd))
    rw [hd0] at hval
    obtain rfl : d = 0 := by
      have hz : (0 : Int32).toInt = 0 := rfl
      omega
    exact head?_ne_zero r n hd
  · rw [← Int.natCast_zero, evaluate_digits hr (fun d hd => lt_of_mem hr2 hd)]
    exact congrArg _ (evaluate_positional hr2 n)

/-- The digits of 44 to the base 3. -/
theorem toDigits_positional_three :
    (∃ digits : List Int32, Ends (fun fuel => BigInt.toDigits 3 fuel (44 : ℕ)) (.ok digits) ∧
      (∀ number : Int64, number.toInt = (44 : ℕ) →
        Ends (fun fuel => toDigits 3 fuel number) (.ok digits)) ∧
      (∀ digit ∈ digits, 0 ≤ digit ∧ digit < 3) ∧ digits.head? ≠ some 0 ∧
      digits.foldl (fun v digit => v * (3 : Int32).toInt + digit.toInt) 0 = (44 : ℕ)) ∧
    toDigits 3 5 44 = .ok [1, 1, 2, 2] :=
  ⟨toDigits_positional 3 44 (by decide), by decide⟩

/-! ## Ids of nodes -/

theorem map_concat (x : Except Failure (List Int32)) (bit : Int32) :
    (x.map (· ++ [bit])).map (List.map Int32.toInt) = (do
      let digits ← x.map (List.map Int32.toInt)
      return digits ++ [bit.toInt]) := by
  cases x with
  | error e => rfl
  | ok digits => exact congrArg Except.ok List.map_append

/-- What the tree of pages looks a node up by (`getByTreeId`, whose cursors are not negative). -/
theorem toDigits_toInt (hradix : 0 < radix.toInt) (fuel : ℕ) (hnumber : 0 ≤ number.toInt) :
    (toDigits radix fuel number).map (List.map Int32.toInt) =
      ReSTM.toDigits radix.toInt fuel number.toInt := by
  induction fuel generalizing number with
  | zero => rfl
  | succ fuel ih =>
    by_cases hzero : number.toInt = 0
    · rw [toDigits, ReSTM.toDigits, if_pos hzero, if_pos (toInt_eq_zero_iff.mp hzero)]
      rfl
    · obtain ⟨rest, bit, hrest, hbit, hstep⟩ :=
        toDigits_step hradix (lt_of_le_of_ne hnumber (Ne.symm hzero))
      have hdiv : (number.toInt - bit.toInt).fdiv radix.toInt = rest.toInt := by
        rw [hbit, sub_emod, Int.mul_fdiv_cancel _ hradix.ne', hrest]
      rw [hstep, ReSTM.toDigits, if_neg hzero]
      simp only [← hbit, hdiv]
      rw [← ih (hrest ▸ Int.ediv_nonneg hnumber hradix.le)]
      exact map_concat _ bit

/-- What the classification tree looks a node up by. -/
theorem BigInt.toDigits_toInt (hradix : 0 < radix.toInt) (fuel : ℕ) (number : ℤ) :
    (toDigits radix fuel number).map (List.map Int32.toInt) =
      ReSTM.BigInt.toDigits radix.toInt fuel number := by
  induction fuel generalizing number with
  | zero => rfl
  | succ fuel ih =>
    by_cases hzero : number = 0
    · rw [toDigits, ReSTM.BigInt.toDigits, if_pos hzero, if_pos hzero]
      rfl
    · obtain ⟨rest, bit, hrest, hbit, hstep⟩ := toDigits_step hradix hzero
      have hdiv : (number - bit.toInt).tdiv radix.toInt = rest := by
        rw [hbit, sub_emod, Int.mul_tdiv_cancel _ hradix.ne', hrest]
      rw [hstep, ReSTM.BigInt.toDigits, if_neg hzero]
      simp only [← hbit, hdiv]
      rw [← ih rest]
      exact map_concat _ bit

end Util

end ReSTM
