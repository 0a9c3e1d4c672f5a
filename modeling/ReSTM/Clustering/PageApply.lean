import Mathlib.Data.List.Induction
import ReSTM.Clustering.Page

/-!
# The page of a list of items

Model of `Page.apply(List[LabeledItem])` (`stm/clustering/Page.scala`, lines 82–103). The keys of
the items are split into those whose values are all numbers and the others. The first ones get
columns of doubles, eight bytes each in the order of the keys, the others columns of references.

* `Page.row_of_allNumbers`: the page of items that have only numbers, row by row.
* `Page.roundTrips_iff`: these are the items whose page can be built and read back.
-/

namespace ReSTM

open JavaBytes JavaText Layout

/-- A value of an attribute. Of a number `doubleValue()` is looked at, and of every object
    `toString()`. -/
inductive AttributeValue
  | null
  | number (doubleValue : Float) (toString : String)
  | object (toString : String)
deriving DecidableEq

/-- `case class ClassificationTreeItem` (lines 222–224): the bindings of a map, of which the first
    one of a key counts. -/
structure ClassificationTreeItem where
  attributes : List (String × AttributeValue)
deriving DecidableEq

/-- `case class LabeledItem` (line 230). -/
structure LabeledItem where
  label : String
  value : ClassificationTreeItem
deriving DecidableEq

namespace AttributeValue

/-- `isInstanceOf[Number]`. -/
def isNumber : AttributeValue → Bool
  | number _ _ => true
  | _ => false

/-- `toString`. -/
def toStr : AttributeValue → Except Failure String
  | null => .error .nullPointer
  | number _ s => .ok s
  | object s => .ok s

/-- `asInstanceOf[Number].doubleValue()`. -/
def doubleValue : AttributeValue → Except Failure Float
  | null => .error .nullPointer
  | number x _ => .ok x
  | object _ => .error (.runtimeException "java.lang.ClassCastException")

end AttributeValue

/-- `attributes.get(key)`. -/
def ClassificationTreeItem.get (item : ClassificationTreeItem) (key : String) :
    Option AttributeValue :=
  item.attributes.lookup key

namespace Page

/-- The keys of the items, `maps.flatMap(_.keys).toSet.toList.sorted`. -/
def keys (data : List LabeledItem) : List String :=
  sorted (data.flatMap fun i => i.value.attributes.map Prod.fst).dedup

/-- The values that a key has are all numbers (line 85). -/
def allNumbers (data : List LabeledItem) (key : String) : Bool :=
  (data.filterMap fun i => i.value.get key).all AttributeValue.isNumber

/-- Columns one after the other: the first one is at `0`, and each other one `n` places after the
    last one. -/
def running (n : ℤ) (names : List String) : List (String × ℤ) :=
  names.foldl (fun l col => l ++ [(col, (l.getLast?.map fun x => x.2 + n).getD 0)]) []

/-- `refCols` (lines 87–88). -/
def refColumns (refs : List String) : List BaseColumn :=
  (running 1 refs).map fun c => .stringColumn c.1 c.2

/-- `scalarCols` (lines 89–90). -/
def scalarColumns (scalars : List String) : List BaseColumn :=
  (running 8 scalars).map fun c => .doubleColumn c.1 c.2

/-- `data.get(col.name).map(_.toString).orNull`. -/
def refValue (i : LabeledItem) (col : String) : Except Failure (Option String) :=
  match i.value.get col with
  | some v => do return some (← v.toStr)
  | none => return none

/-- `data.get(col.name).map(_.asInstanceOf[Number].doubleValue()).getOrElse(Double.NaN)`. -/
def scalarValue (i : LabeledItem) (col : String) : Except Failure Float :=
  match i.value.get col with
  | some v => v.doubleValue
  | none => return nan

/-- `apply` (lines 82–103). -/
def apply (data : List LabeledItem) : Except Failure Page := do
  let sets := keys data
  let scalars := sets.filter (allNumbers data)
  let refs := sets.filter fun key => !allNumbers data key
  let refVals ← data.mapM fun i => refs.mapM (refValue i)
  let scalarVals ← data.mapM fun i => scalars.mapM (scalarValue i)
  let labels := data.map LabeledItem.label
  let columns := (refColumns refs ++ scalarColumns scalars).insertionSort
    fun c d => le c.name d.name
  new columns (namesOfLabels labels)
    (scalarVals.flatten.flatMap fun x => toByteArray (doubleToLongBits x))
    refVals.flatten (labelIndexes labels)

/-! ## The columns -/

variable {data : List LabeledItem} {key : String} {names : List String}

theorem running_eq (n : ℤ) (names : List String) :
    running n names = names.zipIdx.map fun x => (x.1, x.2 * n) := by
  induction names using List.reverseRecOn with
  | nil => rfl
  | append_singleton names name ih =>
    unfold running at ih ⊢
    rw [List.foldl_append, ih, List.zipIdx_append, List.map_append]
    cases names using List.reverseRecOn with
    | nil => simp
    | append_singleton names _ =>
      simp [List.zipIdx_append, Int.add_mul]

theorem scalarColumns_names (names : List String) :
    (scalarColumns names).map BaseColumn.name = names := by
  rw [scalarColumns, running_eq, List.map_map, List.map_map]
  exact List.zipIdx_map_fst 0 names

theorem rowValueSize_scalarColumns (names : List String) :
    rowValueSize (scalarColumns names) = names.length * 8 := by
  rw [rowValueSize, scalarColumns, List.map_map, List.map_congr_left (g := fun _ => 8)]
  · rw [List.map_const', List.sum_replicate_nat, running_eq, List.length_map, List.length_zipIdx]
  · exact fun _ _ => rfl

theorem mem_scalarColumns {j : ℕ} (hj : names[j]? = some key) :
    BaseColumn.doubleColumn key (j * 8) ∈ scalarColumns names := by
  rw [scalarColumns, running_eq, List.map_map]
  exact List.mem_map.mpr ⟨(key, j), List.mem_zipIdx_iff_getElem?.mpr hj, rfl⟩

/-- The column of the key with the index `j`. -/
theorem find?_scalarColumns (hd : names.Nodup) {j : ℕ} (hj : names[j]? = some key) :
    (scalarColumns names).find? (·.name = key) = some (.doubleColumn key (j * 8)) :=
  find?_of_mem ((scalarColumns_names names).symm ▸ hd) (mem_scalarColumns hj)

theorem nodup_keys (data : List LabeledItem) : (keys data).Nodup :=
  nodup_sorted (List.nodup_dedup _)

/-- The keys of the items are those that an item has a value for. -/
theorem mem_keys : key ∈ keys data ↔ ∃ i ∈ data, (i.value.get key).isSome := by
  rw [keys, mem_sorted, List.mem_dedup, List.mem_flatMap]
  refine exists_congr fun i => and_congr_right fun _ => ?_
  rw [ClassificationTreeItem.get, List.lookup_isSome_iff, List.mem_map]
  constructor
  · rintro ⟨b, hb, rfl⟩
    exact ⟨b, hb, beq_self_eq_true _⟩
  · rintro ⟨b, hb, heq⟩
    exact ⟨b, hb, (eq_of_beq heq).symm⟩

theorem pairwise_keys (data : List LabeledItem) : (keys data).Pairwise le :=
  List.pairwise_insertionSort le _

/-! ## Items that have only numbers -/

/-- Every value of every item is a number. -/
def AllNumbers (data : List LabeledItem) : Prop :=
  ∀ i ∈ data, ∀ key v, i.value.get key = some v → v.isNumber = true

/-- The value of an item as a double. -/
def numberOf (i : LabeledItem) (key : String) : Float :=
  match i.value.get key with
  | some (.number x _) => x
  | _ => nan

theorem allNumbers_of (h : AllNumbers data) (key : String) : allNumbers data key = true := by
  refine List.all_eq_true.mpr fun v hv => ?_
  obtain ⟨i, hi, hget⟩ := List.mem_filterMap.mp hv
  exact h i hi key v hget

theorem scalarValue_of (h : AllNumbers data) {i : LabeledItem} (hi : i ∈ data) (key : String) :
    scalarValue i key = .ok (numberOf i key) := by
  unfold scalarValue numberOf
  cases hget : i.value.get key with
  | none => rfl
  | some v =>
    have hv := h i hi key v hget
    cases v with
    | number x s => rfl
    | null => cases hv
    | object s => cases hv

/-- The page of items that have only numbers. -/
theorem apply_of_allNumbers (h : AllNumbers data) : ∃ p, apply data = .ok p ∧
    p.schema = scalarColumns (keys data) ∧
    p.labels = labelIndexes (data.map LabeledItem.label) ∧
    p.labelNames = namesOfLabels (data.map LabeledItem.label) ∧
    p.values = (data.flatMap fun i => (keys data).map (numberOf i)).flatMap
      fun x => toByteArray (doubleToLongBits x) := by
  have hscalars : (keys data).filter (allNumbers data) = keys data :=
    List.filter_eq_self.mpr fun key _ => allNumbers_of h key
  have hrefs : ((keys data).filter fun key => !allNumbers data key) = [] :=
    List.filter_eq_nil_iff.mpr fun key _ => by simp [allNumbers_of h key]
  have hrefVals : (data.mapM fun i => [].mapM (refValue i)) = .ok (data.map fun _ => []) :=
    mapM_ok fun _ _ => rfl
  have hscalarVals : (data.mapM fun i => (keys data).mapM (scalarValue i)) =
      .ok (data.map fun i => (keys data).map (numberOf i)) :=
    mapM_ok fun i hi => mapM_ok fun key _ => scalarValue_of h hi key
  have hnames := scalarColumns_names (keys data)
  have hsort : (scalarColumns (keys data)).insertionSort (fun c d => le c.name d.name) =
      scalarColumns (keys data) := by
    refine List.Pairwise.insertionSort_eq ?_
    rw [← List.pairwise_map (f := BaseColumn.name) (R := le), hnames]
    exact pairwise_keys data
  unfold apply
  dsimp only
  rw [hscalars, hrefs, hrefVals]
  show ∃ p, ((data.mapM fun i => (keys data).mapM (scalarValue i)) >>= _) = _ ∧ _
  rw [hscalarVals]
  have hlength : ∀ i : LabeledItem, ((keys data).map (numberOf i)).length = (keys data).length :=
    fun i => List.length_map _
  have hvalues : (labelIndexes (data.map LabeledItem.label)).length *
        rowValueSize (scalarColumns (keys data)) =
      ((data.flatMap fun i => (keys data).map (numberOf i)).flatMap
        fun x => toByteArray (doubleToLongBits x)).length := by
    rw [rowValueSize_scalarColumns, labelIndexes, List.length_map, List.length_map,
      length_flatMap_of length_doubleBytes, length_flatMap_of hlength, Nat.mul_assoc]
  obtain ⟨p, hp, hschema, hlabelNames, hvalues', hlabels⟩ :=
    new_ok (hnames.symm ▸ nodup_keys data) hvalues (labelIndexes_lt _)
  refine ⟨p, ?_, hschema, hlabels, hlabelNames, hvalues'⟩
  rw [← hp, List.flatMap_def (l := data)]
  show new (List.insertionSort _ ([] ++ _)) _ _ _ _ = _
  rw [List.nil_append, hsort]
  congr 1
  simp

/-- The row of an item has its label, and its numbers for all keys. -/
theorem row_of_allNumbers (h : AllNumbers data) {p : Page} (hp : apply data = .ok p) {i : ℕ}
    {item : LabeledItem} (hi : data[i]? = some item) :
    (PageRow.mk p i).label = .ok item.label ∧
      ∀ key ∈ keys data, (PageRow.mk p i).get key = .ok (some (.double (numberOf item key))) := by
  obtain ⟨p', hp', hschema, hlabels, hlabelNames, hvalues⟩ := apply_of_allNumbers h
  obtain rfl : p = p' := Except.ok.inj (hp.symm.trans hp')
  constructor
  · refine PageRow.label_eq hlabels hlabelNames ?_
    rw [List.getElem?_map, hi, Option.map_some]
  · intro key hkey
    obtain ⟨j, hj⟩ := List.mem_iff_getElem?.mp hkey
    obtain ⟨hlt, -⟩ := List.getElem?_eq_some_iff.mp hj
    have hlength : ∀ i : LabeledItem, ((keys data).map (numberOf i)).length = (keys data).length :=
      fun i => List.length_map _
    have hcell : (data.flatMap fun i => (keys data).map (numberOf i))[i * (keys data).length + j]? =
        some (numberOf item key) := by
      rw [getElem?_flatMap hlength hi hlt, List.getElem?_map, hj, Option.map_some]
    have hsize : rowValueSize p.schema = (keys data).length * 8 := by
      rw [hschema, rowValueSize_scalarColumns]
    unfold PageRow.get PageRow.column?
    dsimp only
    rw [hschema, find?_scalarColumns (nodup_keys data) hj]
    show (BaseColumn.get _ _ >>= _) = _
    rw [BaseColumn.get_double hsize hvalues hcell]
    rfl

/-- The rows of the page are the items, in order: a row has the label of its item and, for every
    key that an item has, its value as a double or, if the values of the key are not all numbers,
    as a string. What is absent is `NaN` or `null`. -/
structure RoundTrips (data : List LabeledItem) (p : Page) : Prop where
  size : p.size = data.length
  label : ∀ i item, data[i]? = some item → (PageRow.mk p i).label = .ok item.label
  number : ∀ i item key x s, data[i]? = some item → allNumbers data key = true →
    item.value.get key = some (.number x s) → (PageRow.mk p i).get key = .ok (some (.double x))
  noNumber : ∀ i item key, data[i]? = some item → key ∈ keys data → allNumbers data key = true →
    item.value.get key = none → (PageRow.mk p i).get key = .ok (some (.double nan))
  string : ∀ i item key v s, data[i]? = some item → allNumbers data key = false →
    item.value.get key = some v → v.toStr = .ok s →
    (PageRow.mk p i).get key = .ok (some (.ref (some s)))
  noString : ∀ i item key, data[i]? = some item → key ∈ keys data → allNumbers data key = false →
    item.value.get key = none → (PageRow.mk p i).get key = .ok (some (.ref none))

theorem roundTrips_of_allNumbers (h : AllNumbers data) {p : Page} (hp : apply data = .ok p) :
    RoundTrips data p where
  size := by
    obtain ⟨p', hp', -, hlabels, -⟩ := apply_of_allNumbers h
    obtain rfl : p = p' := Except.ok.inj (hp.symm.trans hp')
    rw [size, hlabels, labelIndexes, List.length_map, List.length_map]
  label i item hi := (row_of_allNumbers h hp hi).1
  number i item key x s hi _ hget := by
    have hkey : key ∈ keys data :=
      mem_keys.mpr ⟨item, List.mem_of_getElem? hi, by rw [hget]; rfl⟩
    rw [(row_of_allNumbers h hp hi).2 key hkey, numberOf, hget]
  noNumber i item key hi hkey _ hget := by
    rw [(row_of_allNumbers h hp hi).2 key hkey, numberOf, hget]
  string i item key v s _ hfalse := by
    rw [allNumbers_of h key] at hfalse
    cases hfalse
  noString i item key _ _ hfalse := by
    rw [allNumbers_of h key] at hfalse
    cases hfalse

/-- The page of items with a value that is not a number is never built: it would have references,
    and the constructor expects none. -/
theorem apply_error {i : LabeledItem} {v : AttributeValue} (hi : i ∈ data)
    (hget : i.value.get key = some v) (hv : v.isNumber = false) : ∃ e, apply data = .error e := by
  have hkey : key ∈ keys data := mem_keys.mpr ⟨i, hi, by rw [hget]; rfl⟩
  have hfalse : allNumbers data key = false := by
    refine Bool.eq_false_iff.mpr fun hall => ?_
    have := List.all_eq_true.mp hall v (List.mem_filterMap.mpr ⟨i, hi, hget⟩)
    rw [hv] at this
    cases this
  have hrefs : key ∈ (keys data).filter fun key => !allNumbers data key :=
    List.mem_filter.mpr ⟨hkey, by rw [hfalse]; rfl⟩
  unfold apply
  dsimp only
  generalize (keys data).filter (fun key => !allNumbers data key) = refs at hrefs ⊢
  generalize (keys data).filter (allNumbers data) = scalars
  cases hrefVals : data.mapM fun i => refs.mapM (refValue i) with
  | error e => exact ⟨e, rfl⟩
  | ok refVals =>
    cases hscalarVals : data.mapM fun i => scalars.mapM (scalarValue i) with
    | error e => exact ⟨e, rfl⟩
    | ok scalarVals =>
      refine ⟨requirementFailed, new_refs fun hnil => ?_⟩
      -- the row of the item has a value for the key
      obtain ⟨row, hrow, hrefs'⟩ := mapM_mem hrefVals hi
      obtain ⟨s, hs, -⟩ := mapM_mem hrefs' hrefs
      exact List.not_mem_nil (hnil ▸ List.mem_flatten_of_mem hrow hs)

/-- A page round-trips exactly when all the values are numbers. -/
theorem roundTrips_iff (data : List LabeledItem) :
    (∃ p, apply data = .ok p ∧ RoundTrips data p) ↔
      ∀ i ∈ data, ∀ key v, i.value.get key = some v → v.isNumber = true := by
  constructor
  · rintro ⟨p, hp, -⟩ i hi key v hget
    by_contra hv
    obtain ⟨e, he⟩ := apply_error hi hget (Bool.not_eq_true _ ▸ hv)
    rw [hp] at he
    cases he
  · intro h
    obtain ⟨p, hp, -⟩ := apply_of_allNumbers h
    exact ⟨p, hp, roundTrips_of_allNumbers h hp⟩

/-- An item with a string: no page. -/
theorem apply_string :
    apply [⟨"spruce", ⟨[("soil", .object "loam")]⟩⟩] = .error requirementFailed := by rfl

end Page

end ReSTM
