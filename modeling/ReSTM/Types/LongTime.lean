import ReSTM.Common.Words
import ReSTM.Types.Next

/-!
# Timestamps in 64 bits

Models of `ExactTime` and `TxnTime` (`storage/types/TxnTime.scala`) over `Long` and `Int` as they
are, where the arithmetic wraps around. As long as nothing overflows they do what the models over
`ℤ` do, so that the order of transactions is the order of totals.

* `ExactTime.carry_toExact`, `compare_toExact`, `TxnTime.compare_toExact`: the refinement.
* `arithmetic`: normalising, sums, differences and comparisons in totals.
* `TxnTime.increasing`: the raw times that are issued.
-/

namespace ReSTM.Long

open JavaText Words

/-! ## `ExactTime` -/

/-- `case class ExactTime(epoch: Long, nanos: Long)` (lines 35–73). -/
structure ExactTime where
  epoch : Int64
  nanos : Int64
deriving DecidableEq

namespace ExactTime

/-- The time over `ℤ`. -/
def toExact (t : ExactTime) : ReSTM.ExactTime := ⟨t.epoch.toInt, t.nanos.toInt⟩

/-- The time in nanoseconds. -/
def total (t : ExactTime) : ℤ := t.epoch.toInt * 1000000000 + t.nanos.toInt

theorem toInt_billion : (1000000000 : Int64).toInt = 1000000000 := rfl

theorem lt_zero_iff (n : Int64) : n < 0 ↔ n.toInt < 0 := Int64.lt_iff_toInt_lt

theorem billion_le_iff (n : Int64) : n ≥ 1000000000 ↔ n.toInt ≥ 1000000000 := Int64.le_iff_toInt_le

/-- Adding to a negative number does not overflow. -/
theorem toInt_add_billion {n : Int64} (h : n < 0) :
    (n + 1000000000).toInt = n.toInt + 1000000000 := by
  have hlow := n.le_toInt
  rw [lt_zero_iff] at h
  exact toInt_add ⟨by rw [toInt_billion]; omega, by rw [toInt_billion]; omega⟩

/-- Nor does subtracting from a positive one. -/
theorem toInt_sub_billion {n : Int64} (h : n ≥ 1000000000) :
    (n - 1000000000).toInt = n.toInt - 1000000000 := by
  have hhigh := n.toInt_lt
  rw [billion_le_iff] at h
  exact toInt_sub ⟨by rw [toInt_billion]; omega, by rw [toInt_billion]; omega⟩

/-- `carry` (lines 40–44). -/
def carry (t : ExactTime) : ExactTime :=
  if t.nanos < 0 then carry ⟨t.epoch - 1, t.nanos + 1000000000⟩
  else if t.nanos ≥ 1000000000 then carry ⟨t.epoch + 1, t.nanos - 1000000000⟩
  else t
termination_by (t.nanos.toInt / 1000000000).natAbs
decreasing_by
  · rename_i h
    rw [toInt_add_billion h]
    rw [lt_zero_iff] at h
    omega
  · rename_i h
    rw [toInt_sub_billion h]
    rw [billion_le_iff] at h
    omega

/-- `isNormal` (lines 46–50). -/
def isNormal (t : ExactTime) : Bool :=
  if t.nanos < 0 then false else if t.nanos ≥ 1000000000 then false else true

theorem isNormal_iff (t : ExactTime) :
    t.isNormal = true ↔ 0 ≤ t.nanos.toInt ∧ t.nanos.toInt < 1000000000 := by
  unfold isNormal
  split_ifs with hneg hbig
  · rw [lt_zero_iff] at hneg
    exact iff_of_false (by decide) (by omega)
  · rw [billion_le_iff] at hbig
    exact iff_of_false (by decide) (by omega)
  · rw [lt_zero_iff] at hneg
    rw [billion_le_iff] at hbig
    exact iff_of_true rfl (by omega)

/-- The nanoseconds do not overflow, whether or not the seconds do. -/
@[simp] theorem carry_isNormal (t : ExactTime) : t.carry.isNormal = true := by
  induction t using carry.induct with
  | case1 t hneg ih => rwa [carry, if_pos hneg]
  | case2 t hneg hbig ih => rwa [carry, if_neg hneg, if_pos hbig]
  | case3 t hneg hbig =>
    rw [carry, if_neg hneg, if_neg hbig, isNormal, if_neg hneg, if_neg hbig]

/-- `-` (lines 52–54). -/
instance : Sub ExactTime := ⟨fun t right => carry ⟨t.epoch - right.epoch, t.nanos - right.nanos⟩⟩

/-- `+` (lines 56–58). -/
instance : Add ExactTime := ⟨fun t right => carry ⟨t.epoch + right.epoch, t.nanos + right.nanos⟩⟩

/-- `compare` (lines 60–69). -/
def compare (t o : ExactTime) : ℤ :=
  if t.isNormal = false then compare t.carry o
  else if o.isNormal = false then compare t o.carry
  else
    let y := longCompare t.epoch.toInt o.epoch.toInt
    if y ≠ 0 then y else longCompare t.nanos.toInt o.nanos.toInt
termination_by (if t.isNormal then 0 else 1) + (if o.isNormal then 0 else 1)
decreasing_by all_goals simp_all

/-- `ExactTime(duration)` (lines 30–32) of a duration in milliseconds. `toSeconds` rounds towards
    zero, and the nanoseconds of an `Int` of milliseconds do not overflow. -/
def ofMilliseconds (length : Int32) : ExactTime :=
  ⟨length.toInt64 / 1000, length.toInt64 * 1000000 % 1000000000⟩

/-- The seconds of the normalised time fit in a `Long`. -/
def CarryFits (t : ExactTime) : Prop := Fits 64 (t.epoch.toInt + t.nanos.toInt / 1000000000)

/-- Nothing overflows in `t + right`: neither of the sums, nor `carry` after them. -/
def AddFits (t right : ExactTime) : Prop :=
  Fits 64 (t.epoch.toInt + right.epoch.toInt) ∧ Fits 64 (t.nanos.toInt + right.nanos.toInt) ∧
    Fits 64 (t.epoch.toInt + right.epoch.toInt + (t.nanos.toInt + right.nanos.toInt) / 1000000000)

/-- Nothing overflows in `t - right`. -/
def SubFits (t right : ExactTime) : Prop :=
  Fits 64 (t.epoch.toInt - right.epoch.toInt) ∧ Fits 64 (t.nanos.toInt - right.nanos.toInt) ∧
    Fits 64 (t.epoch.toInt - right.epoch.toInt + (t.nanos.toInt - right.nanos.toInt) / 1000000000)

instance (t : ExactTime) : Decidable t.CarryFits := inferInstanceAs (Decidable (Fits _ _))

instance (t right : ExactTime) : Decidable (t.AddFits right) :=
  inferInstanceAs (Decidable (_ ∧ _ ∧ _))

instance (t right : ExactTime) : Decidable (t.SubFits right) :=
  inferInstanceAs (Decidable (_ ∧ _ ∧ _))

variable {t o right : ExactTime}

theorem isNormal_toExact (t : ExactTime) : t.isNormal = t.toExact.isNormal :=
  Bool.eq_iff_iff.mpr ((isNormal_iff t).trans (ReSTM.ExactTime.isNormal_iff t.toExact).symm)

theorem carry_toExact (h : t.CarryFits) : t.carry.toExact = t.toExact.carry := by
  have hseconds := fits_toInt t.epoch
  induction t using carry.induct with
  | case1 t hneg ih =>
    have hnanos := toInt_add_billion hneg
    have hneg' := (lt_zero_iff _).mp hneg
    have hepoch : (t.epoch - 1).toInt = t.epoch.toInt - 1 :=
      toInt_sub (fits_of_le h hseconds (by show _ ≤ _ - 1; omega) (by show _ - 1 ≤ _; omega))
    rw [carry, if_pos hneg, ReSTM.ExactTime.carry, if_pos (c := t.toExact.nanos < 0) hneg',
      ih ?_ (fits_toInt _), toExact, hepoch, hnanos]
    · rfl
    · unfold CarryFits at h ⊢
      rw [hepoch, hnanos]
      exact fits_of_le h h (by omega) (by omega)
  | case2 t hneg hbig ih =>
    have hnanos := toInt_sub_billion hbig
    have hneg' : ¬t.toExact.nanos < 0 := mt (lt_zero_iff _).mpr hneg
    have hbig' := (billion_le_iff _).mp hbig
    have hepoch : (t.epoch + 1).toInt = t.epoch.toInt + 1 :=
      toInt_add (fits_of_le hseconds h (by show _ ≤ _ + 1; omega) (by show _ + 1 ≤ _; omega))
    rw [carry, if_neg hneg, if_pos hbig, ReSTM.ExactTime.carry, if_neg hneg',
      if_pos (c := t.toExact.nanos ≥ 1000000000) hbig', ih ?_ (fits_toInt _), toExact, hepoch, hnanos]
    · rfl
    · unfold CarryFits at h ⊢
      rw [hepoch, hnanos]
      exact fits_of_le h h (by omega) (by omega)
  | case3 t hneg hbig =>
    have hneg' : ¬t.toExact.nanos < 0 := mt (lt_zero_iff _).mpr hneg
    have hbig' : ¬t.toExact.nanos ≥ 1000000000 := mt (billion_le_iff _).mpr hbig
    rw [carry, if_neg hneg, if_neg hbig, ReSTM.ExactTime.carry, if_neg hneg', if_neg hbig']

/-- A time that is normalised already. -/
theorem carryFits_of_isNormal (h : t.isNormal = true) : t.CarryFits := by
  obtain ⟨hneg, hbig⟩ := (isNormal_iff t).mp h
  have hseconds := fits_toInt t.epoch
  exact fits_of_le hseconds hseconds (by omega) (by omega)

theorem total_carry (h : t.CarryFits) : t.carry.total = t.total := by
  show t.carry.toExact.total = t.toExact.total
  rw [carry_toExact h]
  exact ReSTM.ExactTime.carry_total _

theorem add_toExact (h : t.AddFits right) : (t + right).toExact = t.toExact + right.toExact := by
  obtain ⟨hepoch, hnanos, hseconds⟩ := h
  have hcarry : CarryFits ⟨t.epoch + right.epoch, t.nanos + right.nanos⟩ := by
    rw [CarryFits, toInt_add hepoch, toInt_add hnanos]
    exact hseconds
  show (carry _).toExact = ReSTM.ExactTime.carry _
  rw [carry_toExact hcarry, toExact, toInt_add hepoch, toInt_add hnanos]
  rfl

theorem sub_toExact (h : t.SubFits right) : (t - right).toExact = t.toExact - right.toExact := by
  obtain ⟨hepoch, hnanos, hseconds⟩ := h
  have hcarry : CarryFits ⟨t.epoch - right.epoch, t.nanos - right.nanos⟩ := by
    rw [CarryFits, toInt_sub hepoch, toInt_sub hnanos]
    exact hseconds
  show (carry _).toExact = ReSTM.ExactTime.carry _
  rw [carry_toExact hcarry, toExact, toInt_sub hepoch, toInt_sub hnanos]
  rfl

theorem compare_of_isNormal (ht : t.isNormal = true) (ho : o.isNormal = true) :
    t.compare o = t.toExact.compare o.toExact := by
  rw [compare, ReSTM.ExactTime.compare, ← isNormal_toExact, ← isNormal_toExact, ht, ho]
  rfl

theorem compare_toExact (ht : t.CarryFits) (ho : o.CarryFits) :
    t.compare o = t.toExact.compare o.toExact := by
  induction t, o using compare.induct with
  | case1 t o hno ih =>
    rw [compare, if_pos hno, ih (carryFits_of_isNormal (carry_isNormal t)) ho,
      ReSTM.ExactTime.compare_eq, ReSTM.ExactTime.compare_eq, carry_toExact ht,
      ReSTM.ExactTime.carry_total]
  | case2 t o hnormal hno ih =>
    rw [compare, if_neg hnormal, if_pos hno, ih ht (carryFits_of_isNormal (carry_isNormal o)),
      ReSTM.ExactTime.compare_eq, ReSTM.ExactTime.compare_eq, carry_toExact ho,
      ReSTM.ExactTime.carry_total]
  | case3 t o hnormal honormal y hy =>
    exact compare_of_isNormal (Bool.of_not_eq_false hnormal) (Bool.of_not_eq_false honormal)
  | case4 t o hnormal honormal y hy =>
    exact compare_of_isNormal (Bool.of_not_eq_false hnormal) (Bool.of_not_eq_false honormal)

/-- `toSeconds` and `toNanos % 1000000000` agree on what is left. -/
theorem ofMilliseconds_toExact (length : Int32) :
    (ofMilliseconds length).toExact = .ofDuration (length.toInt * 1000000) := by
  have hlow := length.le_toInt
  have hhigh := length.toInt_lt
  have hnanos : (length.toInt64 * 1000000).toInt = length.toInt * 1000000 := by
    rw [toInt_mul, Int32.toInt_toInt64]
    · rfl
    · rw [Int32.toInt_toInt64]
      exact ⟨by show _ ≤ _ * 1000000; omega, by show _ * 1000000 < _; omega⟩
  have hseconds : (length.toInt64 / 1000).toInt = length.toInt.tdiv 1000 := by
    rw [Int64.toInt_div_of_ne_right _ _ (by decide), Int32.toInt_toInt64]
    rfl
  rw [ofMilliseconds, toExact, ReSTM.ExactTime.ofDuration, hseconds, Int64.toInt_mod, hnanos,
    toInt_billion, ← Int.mul_tdiv_mul_of_pos_left _ _ (show (0 : ℤ) < 1000000 by decide)]
  rfl

theorem compare_total (ht : t.CarryFits) (ho : o.CarryFits) :
    t.compare o = longCompare t.total o.total :=
  (compare_toExact ht ho).trans (ReSTM.ExactTime.compare_eq _ _)

theorem total_add (h : t.AddFits right) : (t + right).total = t.total + right.total := by
  show (t + right).toExact.total = t.toExact.total + right.toExact.total
  rw [add_toExact h, ReSTM.ExactTime.total_add]

theorem total_sub (h : t.SubFits right) : (t - right).total = t.total - right.total := by
  show (t - right).toExact.total = t.toExact.total - right.toExact.total
  rw [sub_toExact h, ReSTM.ExactTime.total_sub]

/-- `<` of `Ordered[ExactTime]`. -/
instance : LT ExactTime := ⟨fun t o => t.compare o < 0⟩

instance (t o : ExactTime) : Decidable (t < o) := inferInstanceAs (Decidable (t.compare o < 0))

theorem lt_iff_total (ht : t.CarryFits) (ho : o.CarryFits) : t < o ↔ t.total < o.total := by
  change t.compare o < 0 ↔ _
  rw [compare_total ht ho, longCompare_neg_iff]

/-- `new ExactTime()` (line 36). The `.toInt` of the remainder and its conversion back to a `Long`
    are both written out. -/
def now (currentTimeMillis nanoTime : Int64) : ExactTime :=
  ⟨currentTimeMillis / 1000, (nanoTime % 1000000000).toInt32.toInt64⟩

theorem now_toExact (currentTimeMillis nanoTime : Int64) :
    (now currentTimeMillis nanoTime).toExact = .now ⟨currentTimeMillis.toInt, nanoTime.toInt⟩ := by
  have hnanos : (nanoTime % 1000000000).toInt = nanoTime.toInt.tmod 1000000000 := by
    rw [Int64.toInt_mod, toInt_billion]
  have hlt := Int.tmod_lt_of_pos nanoTime.toInt (show (0 : ℤ) < 1000000000 by decide)
  have hgt := Int.lt_tmod_of_pos nanoTime.toInt (show (0 : ℤ) < 1000000000 by decide)
  have hint : (nanoTime % 1000000000).toInt32.toInt64.toInt = nanoTime.toInt.tmod 1000000000 := by
    rw [Int32.toInt_toInt64, toInt_toInt32, hnanos] <;> omega
  rw [now, toExact, ReSTM.ExactTime.now, hint, Int64.toInt_div_of_ne_right _ _ (by decide)]
  rfl

end ExactTime

/-! ## `TxnTime` -/

/-- `case class TxnTime(time: ExactTime, priorityMs: Int)` (line 91). -/
structure TxnTime where
  time : ExactTime
  priorityMs : Int32
deriving DecidableEq

namespace TxnTime

/-- `effectiveTime` (line 103). -/
def effectiveTime (t : TxnTime) : ExactTime := t.time + ExactTime.ofMilliseconds t.priorityMs

/-- `compare` (line 104). -/
def compare (t o : TxnTime) : ℤ := t.effectiveTime.compare o.effectiveTime

/-- The effective time in nanoseconds. -/
def rank (t : TxnTime) : ℤ := t.time.total + t.priorityMs.toInt * 1000000

/-- The timestamp over `ℤ`. -/
def toTxnTime (t : TxnTime) : ReSTM.TxnTime := ⟨t.time.toExact, t.priorityMs.toInt⟩

/-- The effective time stays in range. -/
def EffectiveFits (t : TxnTime) : Prop := t.time.AddFits (ExactTime.ofMilliseconds t.priorityMs)

instance (t : TxnTime) : Decidable t.EffectiveFits :=
  inferInstanceAs (Decidable (ExactTime.AddFits _ _))

/-- The function that `safeNow` passes to `safeLast.updateAndGet` (lines 77–86), when
    `new ExactTime()` is `time`. -/
def update (prev time : ExactTime) : ExactTime :=
  if prev < time then time else ⟨prev.epoch, prev.nanos + 1⟩

/-- The values that calls of `safeNow` return, one for each reading of the clocks. -/
def issue : ExactTime → List ExactTime → List ExactTime
  | _, [] => []
  | last, time :: times => update last time :: issue (update last time) times

/-- None of the calls overflows, neither when it compares nor when it counts up, and the last value
    can be compared. -/
def NoOverflow : ExactTime → List ExactTime → Prop
  | last, [] => last.CarryFits
  | last, time :: times =>
    last.CarryFits ∧ time.CarryFits ∧ (¬last < time → Fits 64 (last.nanos.toInt + 1)) ∧
      NoOverflow (update last time) times

variable {t o : TxnTime}

theorem effectiveTime_toExact (h : t.EffectiveFits) :
    t.effectiveTime.toExact = t.toTxnTime.effectiveTime := by
  rw [effectiveTime, ExactTime.add_toExact h, ExactTime.ofMilliseconds_toExact]
  rfl

/-- An effective time is normalised. -/
theorem effectiveTime_carryFits (t : TxnTime) : t.effectiveTime.CarryFits :=
  ExactTime.carryFits_of_isNormal (ExactTime.carry_isNormal _)

theorem compare_toTxnTime (ht : t.EffectiveFits) (ho : o.EffectiveFits) :
    t.compare o = t.toTxnTime.compare o.toTxnTime := by
  rw [compare, ExactTime.compare_toExact t.effectiveTime_carryFits o.effectiveTime_carryFits,
    effectiveTime_toExact ht, effectiveTime_toExact ho]
  rfl

theorem compare_rank (ht : t.EffectiveFits) (ho : o.EffectiveFits) :
    t.compare o = longCompare t.rank o.rank :=
  (compare_toTxnTime ht ho).trans (ReSTM.TxnTime.compare_eq _ _)

/-! ## Raw times -/

variable {last prev time : ExactTime} {times : List ExactTime}

theorem update_total (hprev : prev.CarryFits) (htime : time.CarryFits)
    (hcount : ¬prev < time → Fits 64 (prev.nanos.toInt + 1)) :
    (update prev time).total = max time.total (prev.total + 1) := by
  have hlt := ExactTime.lt_iff_total hprev htime
  unfold update
  split_ifs with h
  · rw [hlt] at h
    rw [max_eq_left (by omega)]
  · have hnanos : (prev.nanos + 1).toInt = prev.nanos.toInt + 1 := toInt_add (hcount h)
    rw [hlt] at h
    rw [max_eq_right (by omega), ExactTime.total, hnanos, ← Int.add_assoc]
    rfl

/-- `safeNow` over `ℤ`. -/
theorem update_toExact (currentTimeMillis nanoTime : Int64) (hprev : prev.CarryFits)
    (htime : (ExactTime.now currentTimeMillis nanoTime).CarryFits)
    (hcount : ¬prev < ExactTime.now currentTimeMillis nanoTime →
      Fits 64 (prev.nanos.toInt + 1)) :
    (update prev (.now currentTimeMillis nanoTime)).toExact =
      ReSTM.TxnTime.safeNow prev.toExact ⟨currentTimeMillis.toInt, nanoTime.toInt⟩ := by
  have hlt : prev < ExactTime.now currentTimeMillis nanoTime ↔
      prev.toExact < .now ⟨currentTimeMillis.toInt, nanoTime.toInt⟩ := by
    rw [← ExactTime.now_toExact, ExactTime.lt_iff_total hprev htime, ReSTM.ExactTime.lt_iff]
    rfl
  unfold update ReSTM.TxnTime.safeNow
  by_cases h : prev < ExactTime.now currentTimeMillis nanoTime
  · rw [if_pos h, if_pos (hlt.mp h), ExactTime.now_toExact]
  · have hnanos : (prev.nanos + 1).toInt = prev.nanos.toInt + 1 := toInt_add (hcount h)
    rw [if_neg h, if_neg (mt hlt.mpr h), ExactTime.toExact, hnanos]
    rfl

theorem NoOverflow.carryFits (h : NoOverflow last times) : last.CarryFits := by
  cases times with
  | nil => exact h
  | cons time times => exact h.1

/-- What is issued is later than the value that the calls started from. -/
theorem lt_of_mem_issue (h : NoOverflow last times) :
    ∀ t ∈ issue last times, t.CarryFits ∧ last.total < t.total := by
  induction times generalizing last with
  | nil => exact fun t ht => absurd ht List.not_mem_nil
  | cons time times ih =>
    obtain ⟨hlast, htime, hcount, hrest⟩ := h
    have htotal := update_total hlast htime hcount
    have hlt : last.total < (update last time).total := by omega
    intro t ht
    rcases List.mem_cons.mp ht with rfl | ht
    · exact ⟨hrest.carryFits, hlt⟩
    · obtain ⟨hfits, hlater⟩ := ih hrest t ht
      exact ⟨hfits, hlt.trans hlater⟩

/-- Every raw time is greater than those before it, whatever the clocks read. -/
theorem increasing (last : ExactTime) (times : List ExactTime) (h : NoOverflow last times) :
    (last :: issue last times).Pairwise fun earlier later => 0 < later.compare earlier := by
  induction times generalizing last with
  | nil => exact List.pairwise_singleton _ _
  | cons time times ih =>
    refine List.pairwise_cons.mpr ⟨fun later hlater => ?_, ih _ h.2.2.2⟩
    obtain ⟨hfits, hlt⟩ := lt_of_mem_issue h later hlater
    rw [ExactTime.compare_total hfits h.carryFits]
    exact (longCompare_pos_iff _ _).mpr hlt

/-- The clocks go back behind a second that is almost full, and the nanoseconds are counted on. -/
theorem increasing_back :
    issue ⟨5, 999999999⟩ [⟨5, 0⟩, ⟨-1, -7⟩] = [⟨5, 1000000000⟩, ⟨5, 1000000001⟩] ∧
      (⟨5, 999999999⟩ :: issue ⟨5, 999999999⟩ [⟨5, 0⟩, ⟨-1, -7⟩]).Pairwise
        fun earlier later => 0 < later.compare earlier := by
  have hfirst : update ⟨5, 999999999⟩ ⟨5, 0⟩ = ⟨5, 1000000000⟩ :=
    if_neg (mt (ExactTime.lt_iff_total (by decide) (by decide)).mp (by decide))
  have hsecond : update ⟨5, 1000000000⟩ ⟨-1, -7⟩ = ⟨5, 1000000001⟩ :=
    if_neg (mt (ExactTime.lt_iff_total (by decide) (by decide)).mp (by decide))
  refine ⟨by rw [issue, issue, issue, hfirst, hsecond], increasing _ _ ?_⟩
  rw [NoOverflow, NoOverflow, NoOverflow, hfirst, hsecond]
  exact ⟨by decide, by decide, fun _ => by decide, by decide, by decide, fun _ => by decide,
    by decide⟩

end TxnTime

/-! ## Arithmetic -/

/-- As long as nothing overflows, whether or not the times are normalised: `carry` keeps the total
    and leaves the nanoseconds within a second, `+` and `-` are those of totals, `compare` compares
    totals, and the priority counts in milliseconds. -/
theorem arithmetic :
    (∀ t : ExactTime, t.CarryFits →
      0 ≤ t.carry.nanos.toInt ∧ t.carry.nanos.toInt < 1000000000 ∧ t.carry.total = t.total) ∧
    (∀ t right : ExactTime, t.AddFits right → (t + right).total = t.total + right.total) ∧
    (∀ t right : ExactTime, t.SubFits right → (t - right).total = t.total - right.total) ∧
    (∀ t o : ExactTime, t.CarryFits → o.CarryFits →
      t.compare o = longCompare t.total o.total) ∧
    (∀ t o : TxnTime, t.EffectiveFits → o.EffectiveFits →
      t.compare o = longCompare (t.time.total + t.priorityMs.toInt * 1000000)
        (o.time.total + o.priorityMs.toInt * 1000000)) := by
  refine ⟨fun t h => ?_, fun t right h => ExactTime.total_add h,
    fun t right h => ExactTime.total_sub h, fun t o ht ho => ExactTime.compare_total ht ho,
    fun t o ht ho => TxnTime.compare_rank ht ho⟩
  obtain ⟨hneg, hbig⟩ := (ExactTime.isNormal_iff t.carry).mp (ExactTime.carry_isNormal t)
  exact ⟨hneg, hbig, ExactTime.total_carry h⟩

/-- Times that are not normalised, and a priority below zero. -/
theorem arithmetic_negative :
    (ExactTime.mk 5 (-2000000001)).carry.total = 2999999999 ∧
      (ExactTime.mk 1 (-1) + ⟨-3, 1000000000⟩).total = -1000000001 ∧
      (ExactTime.mk 1 0 - ⟨2, 5⟩).total = -1000000005 ∧
      (ExactTime.mk 1 (-1)).compare ⟨0, 999999999⟩ = 0 ∧
      (TxnTime.mk ⟨1, 0⟩ (-1500)).compare ⟨⟨0, 0⟩, 0⟩ = -1 :=
  ⟨(arithmetic.1 _ (by decide)).2.2.trans (by decide),
    (arithmetic.2.1 _ _ (by decide)).trans (by decide),
    (arithmetic.2.2.1 _ _ (by decide)).trans (by decide),
    (arithmetic.2.2.2.1 _ _ (by decide) (by decide)).trans (by decide),
    (arithmetic.2.2.2.2 _ _ (by decide) (by decide)).trans (by decide)⟩

end ReSTM.Long
