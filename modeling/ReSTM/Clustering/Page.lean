import Mathlib.Data.List.Dedup
import ReSTM.Common.Bytes
import ReSTM.Common.JavaOrder
import ReSTM.Common.Layout
import ReSTM.Types.Failure

/-!
# `Page`

Model of `Page` and its columns (`stm/clustering/Page.scala`). A page is a table of labelled rows:
the doubles of the rows are in one array of bytes, everything else is in an array of references.
Every schema in the code is keyed by the names of its columns, so that it is a list of columns
here. Arrays are shorter than `2 ^ 31`, so that no offset overflows. The pages of items
are in `ReSTM.Clustering.PageApply`, the unions of pages in `ReSTM.Clustering.PageUnion`.

* `Page.new`: the constructor, with its checks. What they check is kept by the type.
* `Page.rowRefSize_eq_zero`: no page with rows has references.
-/

namespace ReSTM

open JavaBytes JavaText

/-- What a row has in a column: a number, or a reference that may be `null`. -/
inductive Cell
  | double (x : Float)
  | ref (s : Option String)
deriving DecidableEq

/-- `BaseColumn` (lines 127–158): a `StringColumn` or a `DoubleColumn`. -/
inductive BaseColumn
  | stringColumn (name : String) (index : ℤ)
  | doubleColumn (name : String) (start : ℤ)
deriving DecidableEq

/-- `new ArrayIndexOutOfBoundsException`. -/
def arrayIndexOutOfBounds : Failure :=
  .runtimeException "java.lang.ArrayIndexOutOfBoundsException"

/-- `Arrays.copyOfRange(original, from, to)`. What is behind the end is `0`. -/
def copyOfRange (original : List UInt8) (lo hi : ℤ) : Except Failure (List UInt8) :=
  if hi < lo then .error (.illegalArgument (toString lo ++ " > " ++ toString hi))
  else if lo < 0 ∨ original.length < lo then .error arrayIndexOutOfBounds
  else .ok (((original.drop lo.toNat) ++ List.replicate (hi - lo).toNat 0).take (hi - lo).toNat)

namespace BaseColumn

def name : BaseColumn → String
  | stringColumn name _ => name
  | doubleColumn name _ => name

def isRef : BaseColumn → Bool
  | stringColumn _ _ => true
  | doubleColumn _ _ => false

/-- `length` of a `ValueColumn`, and `0` for a `RefColumn` (`valCols`, lines 171–175). -/
def valueLength : BaseColumn → ℕ
  | stringColumn _ _ => 0
  | doubleColumn _ _ => 8

/-- `equals` (lines 132–136): the classes and the names. -/
def equals (c d : BaseColumn) : Bool := c.isRef == d.isRef && c.name == d.name

end BaseColumn

/-- `ListMap(columns.map(x ⇒ x.name → x): _*)`: the last column of a name stays. -/
def listMap (columns : List BaseColumn) : List BaseColumn :=
  columns.foldl (fun m c => m.filter (·.name ≠ c.name) ++ [c]) []

/-- `rowValueSize` (line 176). -/
def rowValueSize (schema : List BaseColumn) : ℕ := (schema.map BaseColumn.valueLength).sum

/-- Whether an entry of the schema is a `RefColumn` (line 177): an entry is a pair of a name and a
    column, and a pair is no column. -/
def isRefEntry (_entry : String × BaseColumn) : Bool := false

/-- `rowRefSize` (line 177). -/
def rowRefSize (schema : List BaseColumn) : ℕ :=
  (schema.map fun c => (c.name, c)).countP isRefEntry

/-- `class Page` (lines 160–185), with what its constructor checks. -/
structure Page where
  schema : List BaseColumn
  labelNames : List String
  values : List UInt8
  refs : List (Option String)
  labels : List ℕ
  nodup : (schema.map BaseColumn.name).Nodup
  length_values : labels.length * rowValueSize schema = values.length
  length_refs : labels.length * rowRefSize schema = refs.length
  labels_lt : ∀ i ∈ labels, i < labelNames.length
deriving DecidableEq

theorem nodup_listMap (columns : List BaseColumn) :
    ((listMap columns).map BaseColumn.name).Nodup := by
  unfold listMap
  suffices h : ∀ m : List BaseColumn, (m.map BaseColumn.name).Nodup →
      ((columns.foldl (fun m c => m.filter (·.name ≠ c.name) ++ [c]) m).map
        BaseColumn.name).Nodup from h [] List.nodup_nil
  induction columns with
  | nil => exact fun m hm => hm
  | cons c columns ih =>
    intro m hm
    refine ih _ ?_
    rw [List.map_append, List.nodup_append']
    refine ⟨hm.sublist (List.filter_sublist.map _), List.nodup_singleton _, fun x hx hc => ?_⟩
    obtain ⟨d, hd, rfl⟩ := List.mem_map.mp hx
    have hne := (List.mem_filter.mp hd).2
    rw [List.map_singleton, List.mem_singleton] at hc
    exact absurd hc (of_decide_eq_true hne)

/-- Columns with different names are all in their map, in their order. -/
theorem listMap_of_nodup {columns : List BaseColumn}
    (h : (columns.map BaseColumn.name).Nodup) : listMap columns = columns := by
  unfold listMap
  suffices hm : ∀ m : List BaseColumn, ((m ++ columns).map BaseColumn.name).Nodup →
      columns.foldl (fun m c => m.filter (·.name ≠ c.name) ++ [c]) m = m ++ columns from hm [] h
  clear h
  induction columns with
  | nil => exact fun m _ => (List.append_nil m).symm
  | cons c columns ih =>
    intro m hm
    have hkeep : m.filter (·.name ≠ c.name) = m := by
      refine List.filter_eq_self.mpr fun d hd => decide_eq_true fun heq => ?_
      rw [List.map_append, List.nodup_append'] at hm
      refine hm.2.2 (List.mem_map.mpr ⟨d, hd, rfl⟩) ?_
      rw [heq]
      exact List.mem_map.mpr ⟨c, List.mem_cons_self, rfl⟩
    rw [List.append_cons] at hm
    rw [List.foldl_cons, hkeep, ih _ hm, List.append_assoc, List.singleton_append]

/-- A column is found by its name. -/
theorem find?_of_mem {columns : List BaseColumn} (h : (columns.map BaseColumn.name).Nodup)
    {c : BaseColumn} (hc : c ∈ columns) : columns.find? (·.name = c.name) = some c := by
  induction columns with
  | nil => cases hc
  | cons d columns ih =>
    rw [List.map_cons, List.nodup_cons] at h
    rcases List.mem_cons.mp hc with rfl | hc
    · exact List.find?_cons_of_pos (decide_eq_true rfl)
    · rw [List.find?_cons_of_neg]
      · exact ih h.2 hc
      · intro heq
        exact h.1 (of_decide_eq_true heq ▸ List.mem_map.mpr ⟨c, hc, rfl⟩)

/-- The entries of a schema are never counted. -/
@[simp] theorem rowRefSize_eq_zero (schema : List BaseColumn) : rowRefSize schema = 0 :=
  List.countP_eq_zero.mpr fun _ _ => Bool.false_ne_true

namespace Page

/-- `require(false)`. -/
def requirementFailed : Failure := .illegalArgument "requirement failed"

/-- `new Page(schema, labelNames, values, refs, labels)`. -/
def new (columns : List BaseColumn) (labelNames : List String) (values : List UInt8)
    (refs : List (Option String)) (labels : List ℕ) : Except Failure Page :=
  if hv : labels.length * rowValueSize (listMap columns) = values.length then
    if hr : labels.length * rowRefSize (listMap columns) = refs.length then
      if hl : ∀ i ∈ labels, i < labelNames.length then
        .ok ⟨listMap columns, labelNames, values, refs, labels, nodup_listMap columns, hv, hr, hl⟩
      else .error requirementFailed
    else .error requirementFailed
  else .error requirementFailed

variable {columns : List BaseColumn} {labelNames : List String} {values : List UInt8}
  {refs : List (Option String)} {labels : List ℕ}

theorem new_ok (hd : (columns.map BaseColumn.name).Nodup)
    (hv : labels.length * rowValueSize columns = values.length)
    (hl : ∀ i ∈ labels, i < labelNames.length) :
    ∃ p, new columns labelNames values [] labels = .ok p ∧ p.schema = columns ∧
      p.labelNames = labelNames ∧ p.values = values ∧ p.labels = labels := by
  have hmap := listMap_of_nodup hd
  unfold new
  rw [dif_pos (hmap.symm ▸ hv), dif_pos (by simp), dif_pos hl]
  exact ⟨_, rfl, hmap, rfl, rfl, rfl⟩

/-- References are never accepted. -/
theorem new_refs (h : refs ≠ []) :
    new columns labelNames values refs labels = .error requirementFailed := by
  unfold new
  have hne : ¬labels.length * rowRefSize (listMap columns) = refs.length := by
    rw [rowRefSize_eq_zero, Nat.mul_zero]
    exact fun hr => h (List.length_eq_zero_iff.mp hr.symm)
  split_ifs
  · rfl
  · rfl

/-- `size`. -/
def size (p : Page) : ℕ := p.labels.length

/-- Every row ends inside of the array. -/
theorem row_end_le {p : Page} {i : ℕ} (hi : i < p.size) :
    i * rowValueSize p.schema + rowValueSize p.schema ≤ p.values.length := by
  rw [← p.length_values, ← Nat.succ_mul]
  exact Nat.mul_le_mul_right _ hi

/-- No page has a reference. -/
theorem refs_eq_nil (p : Page) : p.refs = [] := by
  have := p.length_refs
  rw [rowRefSize_eq_zero, Nat.mul_zero] at this
  exact List.length_eq_zero_iff.mp this.symm

end Page

/-- `Page#PageRow` (lines 198–212). -/
structure PageRow where
  page : Page
  row : ℕ
deriving DecidableEq

namespace PageRow

/-- `ref` (line 200). -/
def ref (r : PageRow) (col : ℤ) : Except Failure (Option String) :=
  let i := r.row * rowRefSize r.page.schema + col
  match (if 0 ≤ i then r.page.refs[i.toNat]? else none) with
  | some s => .ok s
  | none => .error arrayIndexOutOfBounds

/-- `value` (lines 201–203). -/
def value (r : PageRow) (startIndex : ℤ) (length : ℕ) : Except Failure (List UInt8) :=
  copyOfRange r.page.values (r.row * rowValueSize r.page.schema + startIndex)
    (r.row * rowValueSize r.page.schema + startIndex + length)

end PageRow

/-- `get` of a column (lines 144, 148–156). The column need not be one of the row's page. -/
def BaseColumn.get (r : PageRow) : BaseColumn → Except Failure Cell
  | .stringColumn _ index => do return .ref (← r.ref index)
  | .doubleColumn _ start => do
    return .double (longBitsToDouble (fromByteArray (← r.value start 8)))

namespace PageRow

/-- `schema.get(key)`. -/
def column? (r : PageRow) (key : String) : Option BaseColumn :=
  r.page.schema.find? (·.name = key)

/-- `get(key)` (line 204). -/
def get (r : PageRow) (key : String) : Except Failure (Option Cell) :=
  match r.column? key with
  | some c => do return some (← c.get r)
  | none => return none

/-- `apply(key)` (line 205). -/
def apply (r : PageRow) (key : String) : Except Failure Cell :=
  match r.column? key with
  | some c => c.get r
  | none => .error (.noSuchElement ("key not found: " ++ key))

/-- `label` (line 206). -/
def label (r : PageRow) : Except Failure String :=
  match r.page.labels[r.row]?.bind (r.page.labelNames[·]?) with
  | some l => .ok l
  | none => .error arrayIndexOutOfBounds

end PageRow

/-! ## Labels -/

/-- The names of labels, `labels.distinct.sorted`. -/
def namesOfLabels (labels : List String) : List String := sorted labels.dedup

/-- `labels.map(labelNames.indexOf(_))`. -/
def labelIndexes (labels : List String) : List ℕ := labels.map ((namesOfLabels labels).idxOf ·)

theorem mem_namesOfLabels {labels : List String} {l : String} : l ∈ namesOfLabels labels ↔ l ∈ labels := by
  rw [namesOfLabels, mem_sorted, List.mem_dedup]

theorem labelIndexes_lt (labels : List String) :
    ∀ i ∈ labelIndexes labels, i < (namesOfLabels labels).length := by
  intro i hi
  obtain ⟨l, hl, rfl⟩ := List.mem_map.mp hi
  exact List.idxOf_lt_length_iff.mpr (mem_namesOfLabels.mpr hl)

theorem PageRow.label_eq {p : Page} {labels : List String} {i : ℕ} {l : String}
    (hlabels : p.labels = labelIndexes labels) (hnames : p.labelNames = namesOfLabels labels)
    (hi : labels[i]? = some l) : (PageRow.mk p i).label = .ok l := by
  have hl := List.idxOf_lt_length_iff.mpr (mem_namesOfLabels.mpr (List.mem_of_getElem? hi))
  unfold PageRow.label
  dsimp only
  rw [hlabels, hnames, labelIndexes, List.getElem?_map, hi, Option.map_some, Option.bind_some,
    List.getElem?_eq_getElem hl, List.getElem_idxOf]

/-! ## Reading -/

/-- No row has a reference to give. -/
theorem Page.ref_eq_error (r : PageRow) (col : ℤ) : r.ref col = .error arrayIndexOutOfBounds := by
  unfold PageRow.ref
  rw [r.page.refs_eq_nil]
  simp

/-- A range inside of an array. -/
theorem copyOfRange_inside {original : List UInt8} {m n : ℕ} (h : m + n ≤ original.length) :
    copyOfRange original m (m + n) = .ok ((original.drop m).take n) := by
  unfold copyOfRange
  rw [if_neg (by omega), if_neg (by omega)]
  have hn : ((m : ℤ) + n - m).toNat = n := by omega
  rw [hn, Int.toNat_natCast, List.take_append_of_le_length]
  rw [List.length_drop]
  omega

/-- The place of a double in a page whose values are the bytes of `cells`. -/
theorem BaseColumn.get_double {p : Page} {cells : List Float} {k i j : ℕ} {x : Float}
    {name : String} (hsize : rowValueSize p.schema = k * 8)
    (hvalues : p.values = cells.flatMap fun x => toByteArray (doubleToLongBits x))
    (hcell : cells[i * k + j]? = some x) :
    (BaseColumn.doubleColumn name (j * 8)).get ⟨p, i⟩ = .ok (.double x) := by
  have hlt := (List.getElem?_eq_some_iff.mp hcell).1
  have hlength : p.values.length = cells.length * 8 := by
    rw [hvalues, Layout.length_flatMap_of length_doubleBytes]
  have hvalue : (PageRow.mk p i).value (j * 8) 8 = .ok (toByteArray (doubleToLongBits x)) := by
    have hplace : ((i : ℤ) * (k * 8 : ℕ) + j * 8) = ((i * k + j) * 8 : ℕ) := by
      push_cast
      ring
    unfold PageRow.value
    dsimp only
    rw [hsize, hplace]
    refine (copyOfRange_inside (by omega)).trans ?_
    rw [hvalues, Layout.take_drop_flatMap length_doubleBytes hcell]
  show (PageRow.value _ _ _ >>= _) = _
  rw [hvalue]
  show Except.ok (Cell.double _) = _
  rw [longBitsToDouble_fromByteArray]

/-- `rows` (line 179). -/
def Page.rows (p : Page) : List PageRow := (List.range p.size).map fun i => ⟨p, i⟩

end ReSTM
