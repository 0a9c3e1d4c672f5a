import Mathlib.Data.Int.Init
import Mathlib.Tactic.Ring
import Mathlib.Tactic.SplitIfs

/-!
# Transaction timestamps

Models of `ExactTime` and `TxnTime` (`storage/types/TxnTime.scala`). A
`TxnTime` is a raw clock time and a priority in milliseconds, and everything in
the store orders transactions by their *effective* time, the raw time shifted
by the priority.

`Long` arithmetic is modelled in `ℤ`: no operation here is taken outside the
64-bit range. `ReSTM.Types.LongTime` has the same operations in 64 bits.

Main results:

* `ExactTime.compare_eq`: `compare` is the comparison of totals
  `epoch · 10⁹ + nanos`, whether or not the arguments are normalised.
* `TxnTime.lt_iff`, `TxnTime.le_iff`: the order of transactions is the order of
  `TxnTime.rank`, the effective time in nanoseconds.
-/

namespace ReSTM

/-- `java.lang.Long.compare`. -/
def longCompare (x y : ℤ) : ℤ := if x < y then -1 else if x = y then 0 else 1

theorem longCompare_neg_iff (x y : ℤ) : longCompare x y < 0 ↔ x < y := by
  unfold longCompare; split_ifs <;> omega

theorem longCompare_pos_iff (x y : ℤ) : 0 < longCompare x y ↔ y < x := by
  unfold longCompare; split_ifs <;> omega

theorem longCompare_eq_zero_iff (x y : ℤ) : longCompare x y = 0 ↔ x = y := by
  unfold longCompare
  split_ifs with h1 h2
  · refine iff_of_false (by decide) (by omega)
  · simp [h2]
  · simp [h2]

/-! ## `ExactTime` -/

/-- `case class ExactTime(epoch: Long, nanos: Long)` (lines 35–73). -/
structure ExactTime where
  epoch : ℤ
  nanos : ℤ
deriving DecidableEq, Repr

namespace ExactTime

/-- `carry` (lines 40–44). -/
def carry (t : ExactTime) : ExactTime :=
  if t.nanos < 0 then carry ⟨t.epoch - 1, t.nanos + 1000000000⟩
  else if t.nanos ≥ 1000000000 then carry ⟨t.epoch + 1, t.nanos - 1000000000⟩
  else t
termination_by (t.nanos / 1000000000).natAbs
decreasing_by all_goals omega

/-- `isNormal` (lines 46–50). -/
def isNormal (t : ExactTime) : Bool :=
  if t.nanos < 0 then false else if t.nanos ≥ 1000000000 then false else true

/-- The time in nanoseconds. -/
def total (t : ExactTime) : ℤ := t.epoch * 1000000000 + t.nanos

/-- `duration` (line 38), in nanoseconds. -/
def duration (t : ExactTime) : ℤ := t.nanos + t.epoch * 1000000000

/-- `carry` in closed form. -/
theorem carry_eq (t : ExactTime) :
    t.carry = ⟨t.epoch + t.nanos / 1000000000, t.nanos % 1000000000⟩ := by
  induction t using carry.induct with
  | case1 t h ih =>
    rw [carry, if_pos h, ih, ExactTime.mk.injEq]
    constructor <;> simp only <;> omega
  | case2 t h1 h2 ih =>
    rw [carry, if_neg h1, if_pos h2, ih, ExactTime.mk.injEq]
    constructor <;> simp only <;> omega
  | case3 t h1 h2 =>
    obtain ⟨e, n⟩ := t
    rw [carry, if_neg h1, if_neg h2, ExactTime.mk.injEq]
    simp only at h1 h2 ⊢
    constructor <;> omega

@[simp] theorem carry_total (t : ExactTime) : t.carry.total = t.total := by
  rw [carry_eq]; simp only [total]; omega

@[simp] theorem carry_isNormal (t : ExactTime) : t.carry.isNormal = true := by
  rw [carry_eq]
  unfold isNormal
  rw [if_neg (by simp only; omega), if_neg (by simp only; omega)]

theorem isNormal_iff (t : ExactTime) : t.isNormal = true ↔ 0 ≤ t.nanos ∧ t.nanos < 1000000000 := by
  unfold isNormal; split_ifs <;> simp <;> omega

/-- `-` (lines 52–54). -/
instance : Sub ExactTime := ⟨fun t right => carry ⟨t.epoch - right.epoch, t.nanos - right.nanos⟩⟩

/-- `+` (lines 56–58). -/
instance : Add ExactTime := ⟨fun t right => carry ⟨t.epoch + right.epoch, t.nanos + right.nanos⟩⟩

@[simp] theorem total_sub (t right : ExactTime) : (t - right).total = t.total - right.total := by
  change (carry _).total = _
  rw [carry_total]; simp only [total]; ring

@[simp] theorem total_add (t right : ExactTime) : (t + right).total = t.total + right.total := by
  change (carry _).total = _
  rw [carry_total]; simp only [total]; ring

theorem duration_eq (t : ExactTime) : t.duration = t.total := by
  unfold duration total; ring

/-- `compare` (lines 60–69). -/
def compare (t o : ExactTime) : ℤ :=
  if t.isNormal = false then compare t.carry o
  else if o.isNormal = false then compare t o.carry
  else
    let y := longCompare t.epoch o.epoch
    if y ≠ 0 then y else longCompare t.nanos o.nanos
termination_by (if t.isNormal then 0 else 1) + (if o.isNormal then 0 else 1)
decreasing_by all_goals simp_all

/-- Between normalised times with different seconds the seconds decide. -/
theorem longCompare_total_of_epoch_ne {t o : ExactTime} (ht : 0 ≤ t.nanos ∧ t.nanos < 1000000000)
    (ho : 0 ≤ o.nanos ∧ o.nanos < 1000000000) (h : longCompare t.epoch o.epoch ≠ 0) :
    longCompare t.total o.total = longCompare t.epoch o.epoch := by
  rw [Ne, longCompare_eq_zero_iff] at h
  unfold longCompare total
  rcases lt_or_gt_of_ne h with h' | h'
  · rw [if_pos h', if_pos (by omega)]
  · rw [if_neg (by omega), if_neg (by omega), if_neg (by omega), if_neg (by omega)]

/-- `compare` compares totals. -/
theorem compare_eq (t o : ExactTime) : t.compare o = longCompare t.total o.total := by
  induction t, o using compare.induct with
  | case1 t o h ih => rw [compare, if_pos h, ih, carry_total]
  | case2 t o h1 h2 ih => rw [compare, if_neg h1, if_pos h2, ih, carry_total]
  | case3 t o h1 h2 y hy =>
    rw [compare, if_neg h1, if_neg h2]
    rw [Bool.not_eq_false, isNormal_iff] at h1 h2
    exact (if_pos hy).trans (longCompare_total_of_epoch_ne h1 h2 hy).symm
  | case4 t o h1 h2 y hy =>
    rw [compare, if_neg h1, if_neg h2]
    have he : t.epoch = o.epoch := (longCompare_eq_zero_iff _ _).mp (not_not.mp hy)
    rw [if_neg hy]
    unfold longCompare total
    simp only [he, add_lt_add_iff_left, add_right_inj]

/-- `<` of `Ordered[ExactTime]`. -/
instance : LT ExactTime := ⟨fun t o => t.compare o < 0⟩

theorem lt_iff (t o : ExactTime) : t < o ↔ t.total < o.total := by
  change t.compare o < 0 ↔ _
  rw [compare_eq, longCompare_neg_iff]

instance (t o : ExactTime) : Decidable (t < o) := decidable_of_iff _ (lt_iff t o).symm

/-- `ExactTime(duration)` (lines 30–32) of a duration in nanoseconds: the
    conversions to seconds and the remainder round towards zero. -/
def ofDuration (nanoseconds : ℤ) : ExactTime :=
  ⟨nanoseconds.tdiv 1000000000, nanoseconds.tmod 1000000000⟩

@[simp] theorem total_ofDuration (nanoseconds : ℤ) :
    (ofDuration nanoseconds).total = nanoseconds := by
  unfold ofDuration total
  exact Int.tdiv_mul_add_tmod _ _

/-- `toString` (line 72). -/
def toString (t : ExactTime) : String := Int.repr t.epoch ++ ":" ++ Int.repr t.nanos

end ExactTime

/-! ## `TxnTime` -/

/-- `case class TxnTime(time: ExactTime, priorityMs: Int)` (line 91). -/
structure TxnTime where
  time : ExactTime
  priorityMs : ℤ
deriving DecidableEq, Repr

namespace TxnTime

/-- `effectiveTime` (line 103). -/
def effectiveTime (t : TxnTime) : ExactTime := t.time + ExactTime.ofDuration (t.priorityMs * 1000000)

/-- `compare` (line 104). -/
def compare (t o : TxnTime) : ℤ := t.effectiveTime.compare o.effectiveTime

/-- `age` (line 102) when `new ExactTime()` reads `now`, in nanoseconds. -/
def age (now : ExactTime) (t : TxnTime) : ℤ := (now - t.time).duration

/-- `toString` (line 105). -/
def toString (t : TxnTime) : String := t.time.toString ++ ":" ++ Int.repr t.priorityMs

/-- The effective time in nanoseconds. -/
def rank (t : TxnTime) : ℤ := t.time.total + t.priorityMs * 1000000

theorem compare_eq (t o : TxnTime) : t.compare o = longCompare t.rank o.rank := by
  simp [compare, effectiveTime, ExactTime.compare_eq, rank]

theorem age_eq (now : ExactTime) (t : TxnTime) : t.age now = now.total - t.time.total := by
  simp [age, ExactTime.duration_eq]

/-- `<` and `>` of `Ordered[TxnTime]`. -/
instance : LT TxnTime := ⟨fun t o => t.compare o < 0⟩

/-- `<=` and `>=` of `Ordered[TxnTime]`. -/
instance : LE TxnTime := ⟨fun t o => t.compare o ≤ 0⟩

theorem lt_iff {t o : TxnTime} : t < o ↔ t.rank < o.rank := by
  change t.compare o < 0 ↔ _
  rw [compare_eq, longCompare_neg_iff]

theorem le_iff {t o : TxnTime} : t ≤ o ↔ t.rank ≤ o.rank := by
  change t.compare o ≤ 0 ↔ _
  rw [compare_eq]; unfold longCompare; split_ifs <;> omega

protected theorem le_refl (t : TxnTime) : t ≤ t := le_iff.mpr le_rfl

protected theorem le_of_lt {t o : TxnTime} (h : t < o) : t ≤ o := le_iff.mpr (lt_iff.mp h).le

theorem compare_eq_zero_iff {t o : TxnTime} : t.compare o = 0 ↔ t.rank = o.rank := by
  rw [compare_eq, longCompare_eq_zero_iff]

instance (t o : TxnTime) : Decidable (t < o) := decidable_of_iff _ lt_iff.symm

instance (t o : TxnTime) : Decidable (t ≤ o) := decidable_of_iff _ le_iff.symm

/-- The effective times of the transactions in `T` are pairwise distinct: only
    identical timestamps compare as equal. -/
def Distinct (T : Set TxnTime) : Prop := ∀ t ∈ T, ∀ o ∈ T, t.compare o = 0 → t = o

theorem Distinct.eq_of_rank {T : Set TxnTime} (hT : Distinct T) {t o : TxnTime} (ht : t ∈ T)
    (ho : o ∈ T) (h : t.rank = o.rank) : t = o :=
  hT t ht o ho (compare_eq_zero_iff.mpr h)

theorem Distinct.rank_lt {T : Set TxnTime} (hT : Distinct T) {t o : TxnTime} (ht : t ∈ T)
    (ho : o ∈ T) (hle : t.rank ≤ o.rank) (hne : t ≠ o) : t.rank < o.rank :=
  lt_of_le_of_ne hle fun h => hne (hT.eq_of_rank ht ho h)

/-- The timestamp at a whole second, with no priority. -/
def ofEpoch (epoch : ℤ) : TxnTime := ⟨⟨epoch, 0⟩, 0⟩

theorem distinct_ofEpoch : Distinct (Set.range ofEpoch) := by
  rintro _ ⟨m, rfl⟩ _ ⟨n, rfl⟩ h
  rw [compare_eq_zero_iff] at h
  simp only [rank, ofEpoch, ExactTime.total] at h
  rw [show m = n by omega]

end TxnTime

end ReSTM
