import Mathlib.Data.List.Dedup
import Mathlib.Order.Defs.LinearOrder
import ReSTM.Clustering.ClassificationTreeNode
import ReSTM.Common.GroupBy

/-!
# Rules by a threshold

Model of `ruleFn`, `metricFn` and `metricRules`
(`stm/clustering/strategy/MetricClassificationStrategyBase.scala`, lines 36–44 and 78–104), over any
type of doubles. Every value of a field is the threshold of a rule. The values are grouped and
sorted, and the labels are counted as far as the threshold. What counts as less than a threshold
here need not be what the rule says: it is false for NaN, which is sorted to the end.

* `SampledRow.metricRules_iff`: the counts are those of the rules if no value is NaN.
-/

namespace ReSTM

open GroupBy JavaBytes

/-! ## Doubles -/

/-- A type of doubles, with `>`, `==` and `java.lang.Double.compare`. -/
class JavaDouble (V : Type) where
  gt : V → V → Bool
  eq : V → V → Bool
  compare : V → V → Ordering

instance : JavaDouble Float where
  gt x y := y.lt x
  eq x y := x == y
  compare x y :=
    if x < y then .lt
    else if y < x then .gt
    else compareOfLessAndEq (doubleToLongBits x).toInt64 (doubleToLongBits y).toInt64

/-- The values of a linear order, and NaN. -/
inductive WithNaN (R : Type)
  | nan
  | num (x : R)
deriving DecidableEq

namespace WithNaN

variable {R : Type} [LinearOrder R]

/-- NaN is neither greater nor less than any value. -/
def gt : WithNaN R → WithNaN R → Bool
  | num x, num y => decide (y < x)
  | _, _ => false

/-- NaN is not equal to itself. -/
def eq : WithNaN R → WithNaN R → Bool
  | num x, num y => decide (x = y)
  | _, _ => false

/-- NaN is behind all values. -/
def compare : WithNaN R → WithNaN R → Ordering
  | num x, num y => if x < y then .lt else if y < x then .gt else .eq
  | num _, nan => .lt
  | nan, num _ => .gt
  | nan, nan => .eq

instance : JavaDouble (WithNaN R) := ⟨gt, eq, compare⟩

variable {a b c : WithNaN R}

theorem eq_of_eq (h : eq a b = true) : a = b := by
  cases a with
  | nan => cases h
  | num x =>
    cases b with
    | nan => cases h
    | num y => exact congrArg num (of_decide_eq_true h)

theorem eq_comm_false (h : eq a b = false) : eq b a = false := by
  cases a with
  | nan => cases b <;> rfl
  | num x =>
    cases b with
    | nan => rfl
    | num y => exact decide_eq_false fun heq => of_decide_eq_false h heq.symm

theorem gt_nan : gt a nan = false := by cases a <;> rfl

theorem num_isLE {x y : R} : (compare (num x) (num y)).isLE = true ↔ x ≤ y := by
  rw [compare]
  split_ifs with hlt hgt
  · exact ⟨fun _ => hlt.le, fun _ => rfl⟩
  · exact ⟨nofun, fun hle => absurd hgt (not_lt_of_ge hle)⟩
  · exact ⟨fun _ => not_lt.mp hgt, fun _ => rfl⟩

theorem isLE_trans (hab : (compare a b).isLE = true) (hbc : (compare b c).isLE = true) :
    (compare a c).isLE = true := by
  cases a with
  | nan =>
    cases b with
    | nan => exact hbc
    | num y => cases hab
  | num x =>
    cases c with
    | nan => rfl
    | num z =>
      cases b with
      | nan => cases hbc
      | num y => exact num_isLE.mpr ((num_isLE.mp hab).trans (num_isLE.mp hbc))

theorem isLE_total (a b : WithNaN R) :
    ((compare a b).isLE || (compare b a).isLE) = true := by
  rw [Bool.or_eq_true]
  cases a with
  | nan => cases b <;> exact .inr rfl
  | num x =>
    cases b with
    | nan => exact .inl rfl
    | num y => exact (le_total x y).imp num_isLE.mpr num_isLE.mpr

/-- What is sorted before a value is not greater. -/
theorem gt_of_isLE (h : (compare a b).isLE = true) : gt a b = false := by
  cases a with
  | nan => cases b <;> rfl
  | num x =>
    cases b with
    | nan => rfl
    | num y => exact decide_eq_false (not_lt_of_ge (num_isLE.mp h))

/-- What is sorted behind a value is greater, if neither is NaN. -/
theorem gt_of_lt (h : (compare a b).isLE = true) (hne : eq a b = false) (ha : a ≠ nan)
    (hb : b ≠ nan) : gt b a = true := by
  cases a with
  | nan => exact absurd rfl ha
  | num x =>
    cases b with
    | nan => exact absurd rfl hb
    | num y =>
      exact decide_eq_true (lt_of_le_of_ne (num_isLE.mp h) (of_decide_eq_false hne))

end WithNaN

/-! ## Model -/

/-- What a sampled row has in a column: a number, or a reference that may be `null`. -/
inductive SampledCell (V : Type)
  | double (x : V)
  | ref (s : Option String)
deriving DecidableEq

/-- A row of a page that can be read. -/
structure SampledRow (V : Type) where
  label : String
  get : String → Option (SampledCell V)

/-- A `Map[String, Int]` by its lookups. -/
abbrev LabelCounts : Type := String → Option ℤ

namespace LabelCounts

/-- `groupBy(identity).mapValues(_.size)`. -/
def ofLabels (labels : List String) : LabelCounts := fun label =>
  if label ∈ labels then some (labels.count label) else none

/-- The counts of a group are added (lines 90–93). -/
def addAll (valueCounters counts : LabelCounts) : LabelCounts := fun label =>
  match counts label with
  | some count => some ((valueCounters label).getD 0 + count)
  | none => valueCounters label

/-- `compliment` (lines 94–98). -/
def compliment (labelCounts valueCounters : LabelCounts) : LabelCounts := fun label =>
  (labelCounts label).map fun count => count - (valueCounters label).getD 0

/-- The count of a label. -/
def of (counts : LabelCounts) (label : String) : ℤ := (counts label).getD 0

end LabelCounts

namespace LabelCounts

variable {labels : List String} {counts : LabelCounts}

theorem of_ofLabels (labels : List String) (label : String) :
    (ofLabels labels).of label = labels.count label := by
  unfold of ofLabels
  split_ifs with h
  · rfl
  · rw [List.count_eq_zero_of_not_mem h]
    rfl

theorem of_addAll (counts : LabelCounts) (labels : List String) (label : String) :
    (counts.addAll (ofLabels labels)).of label = counts.of label + labels.count label := by
  unfold of addAll ofLabels
  split_ifs with h
  · rfl
  · rw [List.count_eq_zero_of_not_mem h]
    exact (Int.add_zero _).symm

theorem of_compliment (label : String) : ((ofLabels labels).compliment counts).of label =
    if label ∈ labels then labels.count label - counts.of label else 0 := by
  unfold of compliment ofLabels
  split_ifs <;> rfl

end LabelCounts

namespace SampledRow

variable {V φ : Type} [JavaDouble V]

/-- `apply(key)`, of a row. -/
def apply (row : SampledRow V) (key : String) : Except Failure (SampledCell V) :=
  match row.get key with
  | some c => .ok c
  | none => .error (.noSuchElement ("key not found: " ++ key))

/-- `metricFn` (lines 42–44). -/
def metricFn (field : String) (x : SampledRow V) : Except Failure V :=
  match x.apply field with
  | .ok (.double v) => .ok v
  | .ok (.ref none) => .error .nullPointer
  | .ok (.ref (some _)) => .error (.runtimeException "java.lang.ClassCastException")
  | .error e => .error e

/-- `ruleFn` (lines 36–40). -/
def ruleFn (field : String) (threshold : V) (item : SampledRow V) : Except Failure Bool :=
  (metricFn field item).map fun metric => JavaDouble.gt metric threshold

/-- `_.get(field).exists(_.isInstanceOf[Number])` (line 58). -/
def isNumber (field : String) (row : SampledRow V) : Bool :=
  match row.get field with
  | some (.double _) => true
  | _ => false

/-- The rules of the groups in their order, with what `fitness` is called with (lines 88–102). -/
def rulesOf (fitness : LabelCounts → LabelCounts → LabelCounts → φ) (field : String)
    (labelCounts exceptionCounts : LabelCounts) :
    LabelCounts → List (V × List (String × V)) → List ((SampledRow V → Except Failure Bool) × φ)
  | _, [] => []
  | valueCounters, (threshold, items) :: groups =>
    let valueCounters := valueCounters.addAll (.ofLabels (items.map Prod.fst))
    (ruleFn field threshold,
        fitness valueCounters (labelCounts.compliment valueCounters) exceptionCounts) ::
      rulesOf fitness field labelCounts exceptionCounts valueCounters groups

/-- `metricRules` (lines 78–104). `singleClass` is `false`. -/
def metricRules (fitness : LabelCounts → LabelCounts → LabelCounts → φ) (field : String)
    (values : List (SampledRow V)) :
    Except Failure (List ((SampledRow V → Except Failure Bool) × φ)) := do
  let exceptionCounts := .ofLabels ((values.filter fun row => !row.isNumber field).map label)
  let valueSortMap ← (values.filter fun row => row.isNumber field).mapM fun item =>
    return (item.label, ← metricFn field item)
  let labels := valueSortMap.map Prod.fst
  if labels.dedup.length ≤ 1 then return []
  else
    let groups := (groupBy JavaDouble.eq Prod.snd valueSortMap).mergeSort fun g g' =>
      (JavaDouble.compare g.1 g'.1).isLE
    return rulesOf fitness field (.ofLabels labels) exceptionCounts (fun _ => none) groups

/-- The branch that a row takes. -/
def outcome (rule : SampledRow V → Except Failure Bool) (row : SampledRow V) : Branch :=
  match rule row with
  | .ok true => .pass
  | .ok false => .fail
  | .error _ => .exception

/-- The counts are those of the rows under the rule: `left` of those where it is false, `right` of
    those where it is true, and `exceptions` of those where it throws. -/
def CountsOutcomes (rows : List (SampledRow V)) (rule : SampledRow V → Except Failure Bool)
    (left right exceptions : LabelCounts) : Prop :=
  ∀ label, left.of label = rows.countP (fun row => outcome rule row = .fail ∧ row.label = label) ∧
    right.of label = rows.countP (fun row => outcome rule row = .pass ∧ row.label = label) ∧
    exceptions.of label = rows.countP (fun row => outcome rule row = .exception ∧ row.label = label)

/-! ## What a rule does -/

variable {field : String} {rows : List (SampledRow V)} {row : SampledRow V} {threshold : V}
  {label : String}

/-- The label and the number of a row that has one. -/
def numberOf (field : String) (row : SampledRow V) : Option (String × V) :=
  match row.get field with
  | some (.double x) => some (row.label, x)
  | _ => none

omit [JavaDouble V] in
theorem isNumber_eq (field : String) (row : SampledRow V) :
    isNumber field row = (numberOf field row).isSome := by
  unfold isNumber numberOf
  cases row.get field with
  | none => rfl
  | some c => cases c <;> rfl

omit [JavaDouble V] in
theorem numberOf_label {x : String × V} (h : numberOf field row = some x) : x.1 = row.label := by
  unfold numberOf at h
  split at h
  · cases h
    rfl
  · cases h

omit [JavaDouble V] in
theorem metricFn_some {x : String × V} (h : numberOf field row = some x) :
    metricFn field row = .ok x.2 := by
  unfold numberOf at h
  unfold metricFn apply
  split at h
  · next c hget =>
    cases h
    rw [hget]
  · cases h

omit [JavaDouble V] in
theorem metricFn_none (h : numberOf field row = none) : ∃ e, metricFn field row = .error e := by
  unfold numberOf at h
  unfold metricFn apply
  cases hget : row.get field with
  | none => exact ⟨_, rfl⟩
  | some c =>
    rw [hget] at h
    cases c with
    | ref s => cases s <;> exact ⟨_, rfl⟩
    | double x => cases h

/-- A rule throws where there is no number. -/
theorem outcome_ruleFn : outcome (ruleFn field threshold) row =
    match numberOf field row with
    | some x => if JavaDouble.gt x.2 threshold then .pass else .fail
    | none => .exception := by
  unfold outcome ruleFn
  cases hrow : numberOf field row with
  | none =>
    obtain ⟨e, he⟩ := metricFn_none hrow
    rw [he]
    rfl
  | some x =>
    rw [metricFn_some hrow, Except.map]
    dsimp only
    cases JavaDouble.gt x.2 threshold <;> rfl

omit [JavaDouble V] in
/-- The numbers are read without a failure. -/
theorem valueSortMap_eq (field : String) (rows : List (SampledRow V)) :
    ((rows.filter fun row => row.isNumber field).mapM fun item => do
      return (item.label, ← metricFn field item) : Except Failure (List (String × V))) =
      .ok (rows.filterMap (numberOf field)) := by
  induction rows with
  | nil => rfl
  | cons row rows ih =>
    have hnumber := isNumber_eq field row
    cases hrow : numberOf field row with
    | none =>
      rw [hrow] at hnumber
      rw [List.filter_cons_of_neg (by simp [hnumber]), List.filterMap_cons_none hrow]
      exact ih
    | some x =>
      rw [hrow] at hnumber
      rw [List.filter_cons_of_pos (by simp [hnumber]), List.filterMap_cons_some hrow,
        List.mapM_cons, metricFn_some hrow, ih, ← numberOf_label hrow]
      rfl

/-- The rows that take a branch are counted by their numbers. -/
theorem countP_number (rows : List (SampledRow V)) (b : Bool) :
    rows.countP (fun row => outcome (ruleFn field threshold) row =
        (if b then Branch.pass else .fail) ∧ row.label = label) =
      (rows.filterMap (numberOf field)).countP
        (fun x => JavaDouble.gt x.2 threshold = b ∧ x.1 = label) := by
  rw [List.countP_filterMap]
  refine List.countP_congr fun row _ => ?_
  rw [outcome_ruleFn]
  cases hrow : numberOf field row with
  | none => cases b <;> simp
  | some x =>
    rw [← numberOf_label hrow]
    cases b <;> cases hgt : JavaDouble.gt x.2 threshold <;> simp [hgt]

/-- The rows where the rule throws are those without a number. -/
theorem countP_exception (rows : List (SampledRow V)) :
    rows.countP (fun row => outcome (ruleFn field threshold) row = .exception ∧ row.label = label) =
      ((rows.filter fun row => !row.isNumber field).map SampledRow.label).count label := by
  rw [List.count_eq_countP, List.countP_map, List.countP_filter]
  refine List.countP_congr fun row _ => ?_
  rw [outcome_ruleFn]
  have hnumber := isNumber_eq field row
  cases hrow : numberOf field row with
  | none => simp [hnumber, hrow]
  | some x =>
    cases hgt : JavaDouble.gt x.2 threshold <;> simp [hnumber, hrow, hgt]

/-! ## What is counted -/

/-- A rule is made for each group, and what is counted on the left are the groups up to there. -/
theorem mem_rulesOf {fitness : LabelCounts → LabelCounts → LabelCounts → φ}
    {labelCounts exceptionCounts valueCounters : LabelCounts}
    {groups : List (V × List (String × V))} {c : (SampledRow V → Except Failure Bool) × φ}
    {passed : List (String × V)}
    (hpassed : ∀ label, valueCounters.of label = (passed.map Prod.fst).count label)
    (hc : c ∈ rulesOf fitness field labelCounts exceptionCounts valueCounters groups) :
    ∃ pre g post counters, groups = pre ++ g :: post ∧
      c = (ruleFn field g.1, fitness counters (labelCounts.compliment counters) exceptionCounts) ∧
      ∀ label, counters.of label =
        ((passed ++ (pre ++ [g]).flatMap Prod.snd).map Prod.fst).count label := by
  induction groups generalizing valueCounters passed with
  | nil => cases hc
  | cons g groups ih =>
    have hcounters : ∀ label,
        (valueCounters.addAll (.ofLabels (g.2.map Prod.fst))).of label =
          ((passed ++ g.2).map Prod.fst).count label := by
      intro label
      rw [LabelCounts.of_addAll, hpassed, List.map_append, List.count_append]
      exact (Nat.cast_add _ _).symm
    rcases List.mem_cons.mp hc with rfl | hc
    · refine ⟨[], g, groups, _, rfl, rfl, fun label => ?_⟩
      rw [hcounters]
      show _ = (((passed ++ (g.2 ++ [])).map Prod.fst).count label : ℤ)
      rw [List.append_nil]
    · obtain ⟨pre, g', post, counters, rfl, rfl, hcount⟩ := ih hcounters hc
      refine ⟨g :: pre, g', post, counters, rfl, rfl, fun label => ?_⟩
      rw [hcount, List.append_assoc]
      rfl

/-- Values for which the rule is the same are counted by their labels. -/
theorem countP_uniform {l : List (String × V)} {b : Bool}
    (h : ∀ x ∈ l, JavaDouble.gt x.2 threshold = b) (b' : Bool) (label : String) :
    l.countP (fun x => JavaDouble.gt x.2 threshold = b' ∧ x.1 = label) =
      if b = b' then (l.map Prod.fst).count label else 0 := by
  split_ifs with hb
  · rw [List.count_eq_countP, List.countP_map]
    refine List.countP_congr fun x hx => ?_
    simp [h x hx, hb]
  · refine List.countP_eq_zero.mpr fun x hx => ?_
    simp [h x hx, hb]

/-- If the rule is false for all values that were passed, the counts are right if it is true for all
    that are left over. -/
theorem countsOutcomes_iff {passed rest : List (String × V)} {counters : LabelCounts}
    (hperm : (passed ++ rest).Perm (rows.filterMap (numberOf field)))
    (hcounters : ∀ label, counters.of label = (passed.map Prod.fst).count label)
    (hpassed : ∀ x ∈ passed, JavaDouble.gt x.2 threshold = false) :
    CountsOutcomes rows (ruleFn field threshold) counters
        ((LabelCounts.ofLabels ((rows.filterMap (numberOf field)).map Prod.fst)).compliment counters)
        (.ofLabels ((rows.filter fun row => !row.isNumber field).map SampledRow.label)) ↔
      ∀ x ∈ rest, JavaDouble.gt x.2 threshold = true := by
  have hsplit : ∀ (b : Bool) (label : String),
      rows.countP (fun row => outcome (ruleFn field threshold) row =
        (if b then Branch.pass else .fail) ∧ row.label = label) =
      passed.countP (fun x => JavaDouble.gt x.2 threshold = b ∧ x.1 = label) +
        rest.countP (fun x => JavaDouble.gt x.2 threshold = b ∧ x.1 = label) := by
    intro b label
    rw [countP_number, ← hperm.countP_eq, List.countP_append]
  have hfails : ∀ label, rows.countP (fun row => outcome (ruleFn field threshold) row = .fail ∧
      row.label = label) = _ := hsplit false
  have hpasses : ∀ label, rows.countP (fun row => outcome (ruleFn field threshold) row = .pass ∧
      row.label = label) = _ := hsplit true
  constructor
  · intro h x hx
    by_contra hne
    have hfail := (h x.1).1
    rw [hcounters, hfails, countP_uniform hpassed, if_pos rfl] at hfail
    have hzero : rest.countP (fun y => JavaDouble.gt y.2 threshold = false ∧ y.1 = x.1) = 0 := by
      omega
    have hnot := List.countP_eq_zero.mp hzero x hx
    exact hnot (by simp [Bool.eq_false_iff.mpr hne])
  · intro h label
    have hlabels : ((rows.filterMap (numberOf field)).map Prod.fst).count label =
        (passed.map Prod.fst).count label + (rest.map Prod.fst).count label := by
      rw [← (hperm.map Prod.fst).count_eq, List.map_append, List.count_append]
    refine ⟨?_, ?_, ?_⟩
    · rw [hcounters, hfails, countP_uniform hpassed, countP_uniform h, if_pos rfl,
        if_neg (by decide)]
      rfl
    · rw [hpasses, countP_uniform hpassed, countP_uniform h, if_pos rfl, if_neg (by decide),
        LabelCounts.of_compliment, hcounters]
      by_cases hmem : label ∈ (rows.filterMap (numberOf field)).map Prod.fst
      · rw [if_pos hmem, hlabels]
        omega
      · have hzero := List.count_eq_zero_of_not_mem hmem
        rw [hlabels] at hzero
        rw [if_neg hmem]
        omega
    · rw [LabelCounts.of_ofLabels, countP_exception]

/-! ## Values in their order -/

section Sorted

variable {R : Type} [LinearOrder R] {values : List (String × WithNaN R)}
  {groups pre post : List (WithNaN R × List (String × WithNaN R))}
  {g : WithNaN R × List (String × WithNaN R)}

/-- The groups of the values, in the order of the values. Every NaN has a group of its own. -/
structure SortedGroups (values : List (String × WithNaN R))
    (groups : List (WithNaN R × List (String × WithNaN R))) : Prop where
  perm : (groups.flatMap Prod.snd).Perm values
  value : ∀ g ∈ groups, ∀ x ∈ g.2, x.2 = g.1
  alone : ∀ g ∈ groups, g.1 = .nan → ∃ x, g.2 = [x]
  sorted : groups.Pairwise fun g g' =>
    (WithNaN.compare g.1 g'.1).isLE = true ∧ WithNaN.eq g.1 g'.1 = false

theorem sortedGroups (values : List (String × WithNaN R)) :
    SortedGroups values ((groupBy JavaDouble.eq Prod.snd values).mergeSort fun g g' =>
      (JavaDouble.compare g.1 g'.1).isLE) := by
  have hgroups := grouped_groupBy (JavaDouble.eq (V := WithNaN R)) Prod.snd values
  have hperm := (groupBy (JavaDouble.eq (V := WithNaN R)) Prod.snd values).mergeSort_perm
    fun g g' => (JavaDouble.compare g.1 g'.1).isLE
  refine ⟨(hperm.flatMap_right _).trans hgroups.perm, fun g hg x hx => ?_, fun g hg hnan => ?_, ?_⟩
  · rcases hgroups.key g (hperm.mem_iff.mp hg) x hx with heq | heq
    · exact heq
    · exact (WithNaN.eq_of_eq heq).symm
  · refine hgroups.alone g (hperm.mem_iff.mp hg) fun k => ?_
    rw [hnan]
    rfl
  · refine List.Pairwise.and (List.pairwise_mergeSort ?_ ?_ _) ?_
    · exact fun a b c => WithNaN.isLE_trans
    · exact fun a b => WithNaN.isLE_total a.1 b.1
    · exact (hperm.pairwise_iff fun h => WithNaN.eq_comm_false h).mpr
        (List.pairwise_map.mp hgroups.apart)

/-- The values up to a group are not greater than its value. -/
theorem SortedGroups.passed (h : SortedGroups values (pre ++ g :: post)) :
    ∀ x ∈ (pre ++ [g]).flatMap Prod.snd, WithNaN.gt x.2 g.1 = false := by
  intro x hx
  obtain ⟨g', hg', hx⟩ := List.mem_flatMap.mp hx
  rw [h.value g' (by simp only [List.mem_append, List.mem_cons] at hg' ⊢; tauto) x hx]
  rcases List.mem_append.mp hg' with hpre | hg'
  · exact WithNaN.gt_of_isLE
      ((List.pairwise_append.mp h.sorted).2.2 g' hpre g List.mem_cons_self).1
  · rw [List.mem_singleton.mp hg']
    cases hv : g.1 with
    | nan => rfl
    | num y => exact WithNaN.gt_of_isLE (WithNaN.num_isLE.mpr le_rfl)

/-- The values behind a group are greater, without NaN. -/
theorem SortedGroups.rest (h : SortedGroups values (pre ++ g :: post))
    (hnan : ∀ x ∈ values, x.2 ≠ .nan) :
    ∀ x ∈ post.flatMap Prod.snd, WithNaN.gt x.2 g.1 = true := by
  intro x hx
  obtain ⟨g', hg', hx⟩ := List.mem_flatMap.mp hx
  have hmem : g' ∈ pre ++ g :: post :=
    List.mem_append_right _ (List.mem_cons_of_mem _ hg')
  have hsorted := List.pairwise_cons.mp (List.pairwise_append.mp h.sorted).2.1
  obtain ⟨hle, hne⟩ := hsorted.1 g' hg'
  have hvalue := h.value g' hmem x hx
  have hg : g.1 ≠ .nan := by
    intro heq
    have hgroup : g ∈ pre ++ g :: post := List.mem_append_right _ List.mem_cons_self
    obtain ⟨y, hy⟩ := h.alone g hgroup heq
    have hyg : y ∈ g.2 := by rw [hy]; exact List.mem_singleton_self y
    have hyv : y ∈ values := h.perm.mem_iff.mp (List.mem_flatMap.mpr ⟨g, hgroup, hyg⟩)
    exact hnan y hyv ((h.value g hgroup y hyg).trans heq)
  rw [hvalue]
  refine WithNaN.gt_of_lt hle hne hg ?_
  rw [← hvalue]
  exact hnan x (h.perm.mem_iff.mp (List.mem_flatMap.mpr ⟨g', hmem, hx⟩))

/-- With two labels and NaN, something is left over that is not greater than the first value. -/
theorem SortedGroups.left_over (h : SortedGroups values (g :: post)) {x y z : String × WithNaN R}
    (hz : z ∈ values) (hnan : z.2 = .nan) (hx : x ∈ values) (hy : y ∈ values) (hne : x.1 ≠ y.1) :
    ∃ e ∈ post.flatMap Prod.snd, WithNaN.gt e.2 g.1 = false := by
  have hmem : ∀ e ∈ values, e ∈ g.2 ∨ e ∈ post.flatMap Prod.snd := by
    intro e he
    have := h.perm.mem_iff.mpr he
    rw [List.flatMap_cons] at this
    exact List.mem_append.mp this
  rcases hmem z hz with hzg | hzpost
  · -- the first value is NaN and has a group of its own
    have hg : g.1 = .nan := (h.value g List.mem_cons_self z hzg).symm.trans hnan
    obtain ⟨w, hw⟩ := h.alone g List.mem_cons_self hg
    rw [hg]
    rcases hmem x hx with hxg | hxpost
    · rcases hmem y hy with hyg | hypost
      · rw [hw] at hxg hyg
        exact absurd (congrArg Prod.fst
          ((List.mem_singleton.mp hxg).trans (List.mem_singleton.mp hyg).symm)) hne
      · exact ⟨y, hypost, WithNaN.gt_nan⟩
    · exact ⟨x, hxpost, WithNaN.gt_nan⟩
  · refine ⟨z, hzpost, ?_⟩
    rw [hnan]
    rfl

end Sorted

/-! ## When the counts are right -/

/-- The rules of a field, with the counts that are passed to `fitness`. -/
def rulesAndCounts (field : String) (rows : List (SampledRow V)) :
    Except Failure (List ((SampledRow V → Except Failure Bool) ×
      LabelCounts × LabelCounts × LabelCounts)) :=
  metricRules (fun left right exceptions => (left, right, exceptions)) field rows

theorem dedup_length_le_one {l : List String} :
    l.dedup.length ≤ 1 ↔ ∀ x ∈ l, ∀ y ∈ l, x = y := by
  constructor
  · intro hle x hx y hy
    have hx := List.mem_dedup.mpr hx
    have hy := List.mem_dedup.mpr hy
    match hd : l.dedup, hle with
    | [], _ =>
      rw [hd] at hx
      cases hx
    | [z], _ =>
      rw [hd] at hx hy
      rw [List.mem_singleton.mp hx, List.mem_singleton.mp hy]
  · intro h
    by_contra hlt
    match hd : l.dedup, hlt with
    | [], hlt => exact hlt (Nat.zero_le 1)
    | [z], hlt => exact hlt le_rfl
    | x :: y :: rest, _ =>
      have hnodup := l.nodup_dedup
      rw [hd] at hnodup
      have hx : x ∈ l := List.mem_dedup.mp (hd ▸ List.mem_cons_self)
      have hy : y ∈ l := List.mem_dedup.mp (hd ▸ List.mem_cons_of_mem _ List.mem_cons_self)
      rw [h x hx y hy] at hnodup
      exact (List.nodup_cons.mp hnodup).1 List.mem_cons_self

/-- The two cases of `metricRules`. -/
theorem rulesAndCounts_eq (field : String) (rows : List (SampledRow V)) :
    rulesAndCounts field rows = .ok
      (if ((rows.filterMap (numberOf field)).map Prod.fst).dedup.length ≤ 1 then []
      else rulesOf (fun left right exceptions => (left, right, exceptions)) field
        (.ofLabels ((rows.filterMap (numberOf field)).map Prod.fst))
        (.ofLabels ((rows.filter fun row => !row.isNumber field).map SampledRow.label))
        (fun _ => none)
        ((groupBy JavaDouble.eq Prod.snd (rows.filterMap (numberOf field))).mergeSort fun g g' =>
          (JavaDouble.compare g.1 g'.1).isLE)) := by
  unfold rulesAndCounts metricRules
  rw [valueSortMap_eq]
  show (if _ then _ else _ : Except Failure _) = _
  split_ifs <;> rfl

omit [JavaDouble V] in
theorem mem_numbers {x : String × V} (h : x ∈ rows.filterMap (numberOf field)) :
    ∃ row ∈ rows, row.label = x.1 ∧ row.get field = some (.double x.2) := by
  obtain ⟨row, hrow, hx⟩ := List.mem_filterMap.mp h
  refine ⟨row, hrow, (numberOf_label hx).symm, ?_⟩
  unfold numberOf at hx
  split at hx
  · next v hget =>
    cases hx
    exact hget
  · cases hx

section WithNaN

variable {R : Type} [LinearOrder R] {rows : List (SampledRow (WithNaN R))}
  {rules : List ((SampledRow (WithNaN R) → Except Failure Bool) ×
    LabelCounts × LabelCounts × LabelCounts)}

/-- Without NaN, every rule is counted as it is. -/
theorem counts_of_no_nan (hrules : rulesAndCounts field rows = .ok rules)
    (hnan : ∀ row ∈ rows, row.get field ≠ some (.double .nan)) :
    ∀ c ∈ rules, CountsOutcomes rows c.1 c.2.1 c.2.2.1 c.2.2.2 := by
  intro c hc
  rw [rulesAndCounts_eq] at hrules
  obtain rfl := Except.ok.inj hrules
  split_ifs at hc with hsize
  · cases hc
  · have hstart : ∀ label, LabelCounts.of (fun _ => none) label =
        (([] : List (String × WithNaN R)).map Prod.fst).count label := fun _ => rfl
    obtain ⟨pre, g, post, counters, hgroups, rfl, hcounters⟩ :=
      mem_rulesOf hstart hc
    have hsorted := sortedGroups (rows.filterMap (numberOf field))
    rw [hgroups] at hsorted
    have hperm : ((pre ++ [g]).flatMap Prod.snd ++ post.flatMap Prod.snd).Perm
        (rows.filterMap (numberOf field)) := by
      rw [← List.flatMap_append, List.append_assoc]
      exact hsorted.perm
    refine (countsOutcomes_iff hperm hcounters hsorted.passed).mpr (hsorted.rest fun x hx heq => ?_)
    obtain ⟨row, hrow, -, hget⟩ := mem_numbers hx
    rw [heq] at hget
    exact hnan row hrow hget

/-- With two labels and NaN, the first rule is not counted as it is. -/
theorem miscounted (hrules : rulesAndCounts field rows = .ok rules)
    {x y z : String × WithNaN R} (hx : x ∈ rows.filterMap (numberOf field))
    (hy : y ∈ rows.filterMap (numberOf field)) (hz : z ∈ rows.filterMap (numberOf field))
    (hne : x.1 ≠ y.1) (hnan : z.2 = .nan) :
    ∃ c ∈ rules, ¬CountsOutcomes rows c.1 c.2.1 c.2.2.1 c.2.2.2 := by
  have hsize : ¬((rows.filterMap (numberOf field)).map Prod.fst).dedup.length ≤ 1 := by
    rw [dedup_length_le_one]
    intro h
    exact hne (h _ (List.mem_map_of_mem hx) _ (List.mem_map_of_mem hy))
  rw [rulesAndCounts_eq, if_neg hsize] at hrules
  obtain rfl := Except.ok.inj hrules
  have hsorted := sortedGroups (rows.filterMap (numberOf field))
  cases hgroups : (groupBy JavaDouble.eq Prod.snd (rows.filterMap (numberOf field))).mergeSort
      fun g g' => (JavaDouble.compare g.1 g'.1).isLE with
  | nil =>
    rw [hgroups] at hsorted
    have := hsorted.perm.mem_iff.mpr hz
    cases this
  | cons g post =>
    rw [hgroups] at hsorted
    refine ⟨_, List.mem_cons_self, fun hcounts => ?_⟩
    have hperm : (g.2 ++ post.flatMap Prod.snd).Perm (rows.filterMap (numberOf field)) :=
      hsorted.perm
    have hcounters : ∀ label, (LabelCounts.addAll (fun _ => none)
        (.ofLabels (g.2.map Prod.fst))).of label = (g.2.map Prod.fst).count label := by
      intro label
      rw [LabelCounts.of_addAll]
      exact Int.zero_add _
    have hpassed : ∀ x ∈ g.2, WithNaN.gt x.2 g.1 = false := by
      intro x hx
      have hfirst : SortedGroups (rows.filterMap (numberOf field)) ([] ++ g :: post) := hsorted
      refine hfirst.passed x ?_
      rw [List.nil_append, List.flatMap_cons]
      exact List.mem_append_left _ hx
    have hgreater := (countsOutcomes_iff hperm hcounters hpassed).mp hcounts
    obtain ⟨e, he, hgt⟩ := hsorted.left_over hz hnan hx hy hne
    exact Bool.false_ne_true (hgt.symm.trans (hgreater e he))

/-- The counts of all rules of a field are right if the rows with a number have one label (so that
    there are no rules), or if no number is NaN. -/
theorem metricRules_iff (field : String) (rows : List (SampledRow (WithNaN R))) :
    ∃ rules, rulesAndCounts field rows = .ok rules ∧
      ((∀ c ∈ rules, CountsOutcomes rows c.1 c.2.1 c.2.2.1 c.2.2.2) ↔
        (∃ label, ∀ row ∈ rows, row.isNumber field = true → row.label = label) ∨
          ∀ row ∈ rows, row.get field ≠ some (.double .nan)) := by
  have hrules := rulesAndCounts_eq field rows
  refine ⟨_, hrules, ?_, ?_⟩
  · intro hcounts
    by_contra hnot
    rw [not_or] at hnot
    obtain ⟨hlabels, hnan⟩ := hnot
    push Not at hlabels hnan
    have hnumber : ∀ row ∈ rows, row.isNumber field = true →
        ∃ x ∈ rows.filterMap (numberOf field), x.1 = row.label := by
      intro row hrow hnum
      rw [isNumber_eq] at hnum
      obtain ⟨x, hx⟩ := Option.isSome_iff_exists.mp hnum
      exact ⟨x, List.mem_filterMap.mpr ⟨row, hrow, hx⟩, numberOf_label hx⟩
    obtain ⟨rowz, hrowz, hget⟩ := hnan
    have hz : (rowz.label, WithNaN.nan) ∈ rows.filterMap (numberOf field) := by
      refine List.mem_filterMap.mpr ⟨rowz, hrowz, ?_⟩
      rw [numberOf, hget]
    obtain ⟨rowy, hrowy, hnumy, hney⟩ := hlabels rowz.label
    obtain ⟨y, hy, hylabel⟩ := hnumber rowy hrowy hnumy
    obtain ⟨c, hc, hbad⟩ := miscounted hrules hy hz hz (by rw [hylabel]; exact hney) rfl
    exact hbad (hcounts c hc)
  · rintro (⟨label, hlabel⟩ | hnan)
    · have hsize : ((rows.filterMap (numberOf field)).map Prod.fst).dedup.length ≤ 1 := by
        rw [dedup_length_le_one]
        have honly : ∀ a ∈ (rows.filterMap (numberOf field)).map Prod.fst, a = label := by
          intro a ha
          obtain ⟨x, hx, rfl⟩ := List.mem_map.mp ha
          obtain ⟨row, hrow, hrowlabel, hget⟩ := mem_numbers hx
          rw [← hrowlabel]
          refine hlabel row hrow ?_
          rw [isNumber, hget]
        intro a ha b hb
        rw [honly a ha, honly b hb]
      rw [if_pos hsize]
      exact fun c hc => absurd hc List.not_mem_nil
    · exact counts_of_no_nan hrules hnan

end WithNaN

/-- Two rows of which one has no height: Page.apply stores NaN for it. -/
def oakAndFir : List (SampledRow (WithNaN ℕ)) :=
  [⟨"oak", fun key => if key = "height" then some (.double (.num 1)) else none⟩,
    ⟨"fir", fun key => if key = "height" then some (.double .nan) else none⟩]

/-- The rule for the height of the oak is false for both rows. The fir is counted on the right. -/
theorem metricRules_oakAndFir : ∃ rules, rulesAndCounts "height" oakAndFir = .ok rules ∧
    ∃ c ∈ rules, ¬CountsOutcomes oakAndFir c.1 c.2.1 c.2.2.1 c.2.2.2 := by
  have hoak : ("oak", WithNaN.num 1) ∈ oakAndFir.filterMap (numberOf "height") :=
    List.mem_filterMap.mpr ⟨_, List.mem_cons_self, rfl⟩
  have hfir : ("fir", WithNaN.nan) ∈ oakAndFir.filterMap (numberOf "height") :=
    List.mem_filterMap.mpr ⟨_, List.mem_cons_of_mem _ List.mem_cons_self, rfl⟩
  exact ⟨_, rulesAndCounts_eq _ _,
    miscounted (rulesAndCounts_eq _ _) hoak hfir hfir (by decide) rfl⟩

/-! ## Rows of a page -/

/-- What a row of a page has in a column. -/
def cellOf : SampledCell Float → Cell
  | .double x => .double x
  | .ref s => .ref s

/-- A row of a page is read as this row. -/
structure ReadAs (r : PageRow) (row : SampledRow Float) : Prop where
  label : r.label = .ok row.label
  get (key : String) : r.get key = .ok ((row.get key).map cellOf)

theorem ReadAs.apply {r : PageRow} {row : SampledRow Float} (h : ReadAs r row) (field : String) :
    r.apply field = (row.apply field).map cellOf := by
  have hget := h.get field
  unfold PageRow.get at hget
  unfold PageRow.apply SampledRow.apply
  cases hcolumn : r.column? field with
  | none =>
    rw [hcolumn] at hget
    cases hrow : row.get field with
    | none => rfl
    | some c =>
      rw [hrow] at hget
      cases hget
  | some column =>
    rw [hcolumn] at hget
    dsimp only at hget ⊢
    cases hcell : column.get r with
    | error e =>
      rw [hcell] at hget
      cases hget
    | ok c =>
      rw [hcell] at hget
      cases hrow : row.get field with
      | none =>
        rw [hrow] at hget
        cases hget
      | some c' =>
        rw [hrow] at hget
        obtain rfl := Option.some.inj (Except.ok.inj hget)
        rfl

/-- A rule does the same with a row of a page and with what is read of it. -/
theorem ReadAs.eval {r : PageRow} {row : SampledRow Float} (h : ReadAs r row) (field : String)
    (threshold : Float) : (ReSTM.ruleFn (ReSTM.metricFn field) threshold).eval r.keyValue =
      outcome (ruleFn field threshold) row := by
  have hmetric : (∃ v, ReSTM.metricFn field r.keyValue = .ok v ∧ metricFn field row = .ok v) ∨
      (∃ e, ReSTM.metricFn field r.keyValue = .error e) ∧ ∃ e, metricFn field row = .error e := by
    unfold ReSTM.metricFn metricFn
    have hkey : r.keyValue.apply field = ((row.apply field).map cellOf).map .cell := by
      rw [← h.apply field]
      rfl
    rw [hkey]
    cases row.apply field with
    | error e => exact .inr ⟨⟨_, rfl⟩, _, rfl⟩
    | ok c =>
      cases c with
      | double x => exact .inl ⟨x, rfl, rfl⟩
      | ref s => cases s <;> exact .inr ⟨⟨_, rfl⟩, _, rfl⟩
  unfold RuleData.eval outcome ReSTM.ruleFn ruleFn
  rcases hmetric with ⟨v, hv, hv'⟩ | ⟨⟨e, he⟩, e', he'⟩
  · dsimp only
    rw [hv, hv']
    rfl
  · dsimp only
    rw [he, he']
    rfl

end SampledRow

end ReSTM
