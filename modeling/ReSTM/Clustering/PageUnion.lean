import Mathlib.Algebra.BigOperators.Group.List.Basic
import Mathlib.Data.List.ReduceOption
import ReSTM.Clustering.Page

/-!
# The union of pages

Model of `Page.union` and `Page.fromRows` (`stm/clustering/Page.scala`, lines 37–80). The values of
the rows are written in the order of the names of the columns, eight bytes each. The new schema has
the columns of the first row's page as they are, with the places that they had there.

* `Page.fromRows_of_uniform`: the union of numeric rows with the same columns.
* `Page.fromRows_concatenates`: it has the rows, if each column of the first one is in its place.
* `Page.uniform_of_concatenates`, `Page.union_iff`: when it has them.
-/

namespace ReSTM

open JavaBytes JavaText Layout

namespace Page

/-- `distinct` of columns: the first one of a class and a name stays. -/
def distinct (columns : List BaseColumn) : List BaseColumn :=
  columns.foldl (fun l c => if l.any (·.equals c) then l else l ++ [c]) []

/-- Columns in the order of their names, `sortBy(_.name)`. -/
def sortByName (columns : List BaseColumn) : List BaseColumn :=
  columns.insertionSort fun c d => le c.name d.name

/-- `newScalaCols` (lines 53–56): each column starts where the last one ends. -/
def newScalaCols (scalarCols : List BaseColumn) : List BaseColumn :=
  (scalarCols.scanl (fun prevCol fromCol => some (.doubleColumn fromCol.name
    (match prevCol with
      | some (.doubleColumn _ start) => start + 8
      | _ => 0))) none).reduceOption

/-- The reference that a row has for a column (lines 58–60). -/
def refVal (r : PageRow) : BaseColumn → Except Failure (Option String)
  | .stringColumn _ index => r.ref index
  | .doubleColumn _ _ => return none

/-- The double that a row has for a column (lines 66–70), `NaN` after an
    `IllegalArgumentException`. -/
def scalarVal (r : PageRow) (col : BaseColumn) : Except Failure Float :=
  match r.apply col.name with
  | .ok (.double x) => .ok x
  | .ok (.ref none) => .error .nullPointer
  | .ok (.ref (some _)) => .error (.runtimeException "java.lang.ClassCastException")
  | .error (.illegalArgument _) => .ok nan
  | .error e => .error e

/-- `fromRows` (lines 41–80). The columns of doubles are all of the same length. -/
def fromRows (data : List PageRow) : Except Failure Page := do
  let keys := sortByName (distinct (data.flatMap fun r => r.page.schema))
  if !keys.all fun c => keys.all fun d => c.name != d.name || c.isRef == d.isRef then
    throw (Failure.require "Incompatible Schema")
  let scalarCols := keys.filter fun c => !c.isRef
  let refCols := keys.filter BaseColumn.isRef
  let refVals ← data.mapM fun r => refCols.mapM (refVal r)
  let scalarVals ← data.mapM fun r => (newScalaCols scalarCols).mapM (scalarVal r)
  let labels ← data.mapM PageRow.label
  new (sortByName (refCols ++ scalarCols)) (namesOfLabels labels)
    (scalarVals.flatten.flatMap fun x => toByteArray (doubleToLongBits x))
    refVals.flatten (labelIndexes labels)

/-- `union` (lines 37–39). -/
def union (data : List Page) : Except Failure Page := fromRows (data.flatMap rows)

/-! ## What the union should be -/

/-- The rows of `p` are the rows `data`, in order: a row has its label and, for every column of its
    page, the value that it had there. Columns of other pages read as `NaN` or `null`. -/
structure Concatenates (data : List PageRow) (p : Page) : Prop where
  size : p.size = data.length
  label : ∀ i r, data[i]? = some r → (PageRow.mk p i).label = r.label
  value : ∀ i r, data[i]? = some r → ∀ c ∈ r.page.schema,
    ∃ x, c.get r = .ok x ∧ (PageRow.mk p i).apply c.name = .ok x
  absent : ∀ i r, data[i]? = some r → ∀ r' ∈ data, ∀ c ∈ r'.page.schema,
    c.name ∉ r.page.schema.map BaseColumn.name →
    (PageRow.mk p i).apply c.name = .ok (if c.isRef then .ref none else .double nan)

/-- Rows of numeric pages with the same columns, all of which can be read. -/
structure Uniform (data : List PageRow) : Prop where
  numeric : ∀ r ∈ data, ∀ c ∈ r.page.schema, c.isRef = false
  same : ∀ r ∈ data, ∀ r' ∈ data, ∀ c ∈ r.page.schema, c.name ∈ r'.page.schema.map BaseColumn.name
  readable : ∀ r ∈ data, ∀ c ∈ r.page.schema, ∃ x, c.get r = .ok x

/-- The names of the columns, in order. -/
def columnNames (schema : List BaseColumn) : List String := sorted (schema.map BaseColumn.name)

/-- The columns stand one after the other in the order of their names, from the first byte on. -/
def Packed (schema : List BaseColumn) : Prop :=
  ∀ c ∈ schema, c = .doubleColumn c.name ((columnNames schema).idxOf c.name * 8)

variable {columns : List BaseColumn} {data : List PageRow} {r : PageRow}

/-! ## The columns of the union -/

theorem distinct_append {rest : List BaseColumn} (hd : (columns.map BaseColumn.name).Nodup)
    (hrest : ∀ c ∈ rest, ∃ d ∈ columns, d.equals c = true) :
    distinct (columns ++ rest) = columns := by
  have hfirst : distinct columns = columns := by
    unfold distinct
    suffices h : ∀ l : List BaseColumn, ((l ++ columns).map BaseColumn.name).Nodup →
        columns.foldl (fun l c => if l.any (·.equals c) then l else l ++ [c]) l = l ++ columns
      from h [] hd
    clear hd hrest
    induction columns with
    | nil => exact fun l _ => (List.append_nil l).symm
    | cons c columns ih =>
      intro l hl
      have hany : l.any (·.equals c) = false := by
        refine List.any_eq_false.mpr fun d hd heq => ?_
        rw [List.map_append, List.nodup_append'] at hl
        refine hl.2.2 (List.mem_map.mpr ⟨d, hd, rfl⟩) ?_
        rw [BaseColumn.equals, Bool.and_eq_true] at heq
        rw [eq_of_beq heq.2]
        exact List.mem_map.mpr ⟨c, List.mem_cons_self, rfl⟩
      rw [List.append_cons] at hl
      rw [List.foldl_cons, hany, if_neg Bool.false_ne_true, ih _ hl, List.append_assoc,
        List.singleton_append]
  unfold distinct at hfirst ⊢
  rw [List.foldl_append, hfirst]
  clear hfirst hd
  induction rest with
  | nil => rfl
  | cons c rest ih =>
    obtain ⟨d, hd, heq⟩ := hrest c List.mem_cons_self
    rw [List.foldl_cons, if_pos (List.any_eq_true.mpr ⟨d, hd, heq⟩)]
    exact ih fun c' hc' => hrest c' (List.mem_cons_of_mem _ hc')

theorem mem_distinct {c : BaseColumn} (hc : c ∈ columns) :
    ∃ d ∈ distinct columns, d.equals c = true := by
  have hrefl : ∀ d : BaseColumn, d.equals d = true := fun d => by simp [BaseColumn.equals]
  unfold distinct
  suffices h : ∀ l : List BaseColumn, (∃ d ∈ l, d.equals c = true) ∨ c ∈ columns →
      ∃ d ∈ columns.foldl (fun l c => if l.any (·.equals c) then l else l ++ [c]) l,
        d.equals c = true from h [] (.inr hc)
  clear hc
  induction columns with
  | nil =>
    rintro l (hl | hc)
    · exact hl
    · cases hc
  | cons b columns ih =>
    intro l hl
    refine ih _ ?_
    beta_reduce
    rcases hl with ⟨d, hd, heq⟩ | hc
    · refine .inl ⟨d, ?_, heq⟩
      split_ifs
      · exact hd
      · exact List.mem_append_left _ hd
    · rcases List.mem_cons.mp hc with rfl | hc
      · split_ifs with hany
        · obtain ⟨d, hd, heq⟩ := List.any_eq_true.mp hany
          exact .inl ⟨d, hd, heq⟩
        · exact .inl ⟨c, by simp, hrefl c⟩
      · exact .inr hc

theorem newScalaCols_names (columns : List BaseColumn) :
    (newScalaCols columns).map BaseColumn.name = columns.map BaseColumn.name := by
  unfold newScalaCols
  suffices h : ∀ o : Option BaseColumn, ((columns.scanl (fun prevCol fromCol =>
      some (.doubleColumn fromCol.name
        (match prevCol with
          | some (.doubleColumn _ start) => start + 8
          | _ => 0))) o).reduceOption).map BaseColumn.name =
      o.toList.map BaseColumn.name ++ columns.map BaseColumn.name from h none
  induction columns with
  | nil => intro o; cases o <;> rfl
  | cons c columns ih =>
    intro o
    rw [List.scanl_cons]
    cases o with
    | none => exact ih _
    | some b =>
      rw [List.reduceOption_cons_of_some, List.map_cons, ih]
      rfl

theorem sortByName_perm (columns : List BaseColumn) : (sortByName columns).Perm columns :=
  List.perm_insertionSort _ _

theorem sortByName_names (columns : List BaseColumn) :
    (sortByName columns).map BaseColumn.name = columnNames columns :=
  List.map_insertionSort _ _ BaseColumn.name columns fun _ _ _ _ => Iff.rfl

theorem length_columnNames (columns : List BaseColumn) :
    (columnNames columns).length = columns.length := by
  rw [← sortByName_names, List.length_map, (sortByName_perm _).length_eq]

theorem rowValueSize_sortByName (columns : List BaseColumn) :
    rowValueSize (sortByName columns) = rowValueSize columns :=
  ((sortByName_perm columns).map BaseColumn.valueLength).sum_eq

theorem nodup_columnNames (hd : (columns.map BaseColumn.name).Nodup) :
    (columnNames columns).Nodup := nodup_sorted hd

theorem sortByName_sorted (columns : List BaseColumn) :
    sortByName (sortByName columns) = sortByName columns := by
  refine List.Pairwise.insertionSort_eq ?_
  rw [← List.pairwise_map (f := BaseColumn.name) (R := le), sortByName_names]
  exact List.pairwise_insertionSort le _

/-! ## The union of rows with the same columns -/

/-- The double that a row has for a key. -/
def numberAt (r : PageRow) (key : String) : Float :=
  match r.apply key with
  | .ok (.double x) => x
  | _ => nan

theorem apply_of_mem {c : BaseColumn} (hc : c ∈ r.page.schema) : r.apply c.name = c.get r := by
  unfold PageRow.apply PageRow.column?
  rw [find?_of_mem r.page.nodup hc]

/-- A column of doubles that can be read has a double. -/
theorem get_numeric {c : BaseColumn} (hc : c.isRef = false) {x : Cell} (hx : c.get r = .ok x) :
    ∃ y, x = .double y := by
  cases c with
  | stringColumn _ _ => cases hc
  | doubleColumn _ start =>
    cases hv : r.value start 8 with
    | error e =>
      have hx' : (r.value start 8 >>= fun b => pure (.double (longBitsToDouble (fromByteArray b)))) =
          Except.ok x := hx
      rw [hv] at hx'
      cases hx'
    | ok bytes =>
      have hx' : (r.value start 8 >>= fun b => pure (.double (longBitsToDouble (fromByteArray b)))) =
          Except.ok x := hx
      rw [hv] at hx'
      cases hx'
      exact ⟨_, rfl⟩

theorem Uniform.apply (hu : Uniform data) (hr : r ∈ data) {key : String}
    (hkey : key ∈ r.page.schema.map BaseColumn.name) :
    r.apply key = .ok (.double (numberAt r key)) := by
  obtain ⟨c, hc, rfl⟩ := List.mem_map.mp hkey
  obtain ⟨x, hx⟩ := hu.readable r hr c hc
  obtain ⟨y, rfl⟩ := get_numeric (hu.numeric r hr c hc) hx
  rw [numberAt, apply_of_mem hc, hx]

theorem label_ok (hr : r.row < r.page.size) : ∃ l, r.label = .ok l := by
  have hlt := r.page.labels_lt _ (List.getElem_mem hr)
  unfold PageRow.label
  rw [List.getElem?_eq_getElem hr, Option.bind_some, List.getElem?_eq_getElem hlt]
  exact ⟨_, rfl⟩

/-- The label of a row that has one. -/
def labelAt (r : PageRow) : String :=
  match r.label with
  | .ok l => l
  | .error _ => ""

theorem rowValueSize_numeric (h : ∀ c ∈ columns, c.isRef = false) :
    rowValueSize columns = columns.length * 8 := by
  induction columns with
  | nil => rfl
  | cons c columns ih =>
    have hc : c.valueLength = 8 := by
      have := h c List.mem_cons_self
      cases c with
      | stringColumn _ _ => cases this
      | doubleColumn _ _ => rfl
    have ih' := ih fun d hd => h d (List.mem_cons_of_mem _ hd)
    unfold rowValueSize at ih' ⊢
    rw [List.map_cons, List.sum_cons, hc, ih', List.length_cons]
    omega

theorem filter_scalars (h : ∀ c ∈ columns, c.isRef = false) :
    columns.filter (fun c => !c.isRef) = columns :=
  List.filter_eq_self.mpr fun c hc => by rw [h c hc]; rfl

theorem filter_refs (h : ∀ c ∈ columns, c.isRef = false) : columns.filter BaseColumn.isRef = [] :=
  List.filter_eq_nil_iff.mpr fun c hc => by rw [h c hc]; exact Bool.false_ne_true

/-- Columns of doubles are not incompatible. -/
theorem compatible_of_numeric (h : ∀ c ∈ columns, c.isRef = false) :
    (columns.all fun c => columns.all fun d => c.name != d.name || c.isRef == d.isRef) = true :=
  List.all_eq_true.mpr fun c hc => List.all_eq_true.mpr fun d hd => by
    rw [h c hc, h d hd]
    simp

section Uniform

variable {r₀ : PageRow}

/-- The columns of the first row are those of the union. -/
theorem Uniform.distinct_eq (hu : Uniform (r₀ :: data)) :
    distinct ((r₀ :: data).flatMap fun r => r.page.schema) = r₀.page.schema := by
  rw [List.flatMap_cons]
  refine distinct_append r₀.page.nodup fun c hc => ?_
  obtain ⟨r, hr, hc⟩ := List.mem_flatMap.mp hc
  have hr' := List.mem_cons_of_mem r₀ hr
  obtain ⟨d, hd, hname⟩ := List.mem_map.mp (hu.same r hr' r₀ List.mem_cons_self c hc)
  refine ⟨d, hd, ?_⟩
  rw [BaseColumn.equals, hname, hu.numeric r₀ List.mem_cons_self d hd, hu.numeric r hr' c hc]
  simp

/-- The values of the rows are read in the order of the names. -/
theorem Uniform.mapM_scalarVal (hu : Uniform (r₀ :: data)) :
    ((r₀ :: data).mapM fun r => (newScalaCols (sortByName r₀.page.schema)).mapM (scalarVal r)) =
      .ok ((r₀ :: data).map fun r => (columnNames r₀.page.schema).map (numberAt r)) := by
  refine mapM_ok fun r hr => ?_
  rw [← sortByName_names, ← newScalaCols_names, List.map_map]
  refine mapM_ok fun c hc => ?_
  have hkey : c.name ∈ columnNames r₀.page.schema := by
    rw [← sortByName_names, ← newScalaCols_names]
    exact List.mem_map.mpr ⟨c, hc, rfl⟩
  obtain ⟨c₀, hc₀, hname⟩ := List.mem_map.mp (mem_sorted.mp hkey)
  rw [scalarVal, hu.apply hr (hname ▸ hu.same r₀ List.mem_cons_self r hr c₀ hc₀)]
  rfl

theorem mapM_label (hrows : ∀ r ∈ data, r.row < r.page.size) :
    data.mapM PageRow.label = .ok (data.map labelAt) := by
  refine mapM_ok fun r hr => ?_
  obtain ⟨l, hl⟩ := label_ok (hrows r hr)
  rw [labelAt, hl]

/-- The union has the columns of the first row, and the values in the order of their names. -/
theorem fromRows_of_uniform (hu : Uniform (r₀ :: data))
    (hrows : ∀ r ∈ r₀ :: data, r.row < r.page.size) :
    ∃ p, fromRows (r₀ :: data) = .ok p ∧ p.schema = sortByName r₀.page.schema ∧
      p.size = (r₀ :: data).length ∧
      (∀ i r, (r₀ :: data)[i]? = some r → (PageRow.mk p i).label = r.label) ∧
      p.values = ((r₀ :: data).flatMap fun r => (columnNames r₀.page.schema).map
        (numberAt r)).flatMap fun x => toByteArray (doubleToLongBits x) := by
  have hnumeric : ∀ c ∈ sortByName r₀.page.schema, c.isRef = false := fun c hc =>
    hu.numeric r₀ List.mem_cons_self c ((sortByName_perm _).mem_iff.mp hc)
  have hrefVals : ((r₀ :: data).mapM fun r => [].mapM (refVal r)) =
      .ok ((r₀ :: data).map fun _ => []) := mapM_ok fun _ _ => rfl
  have hlength : ∀ r, ((columnNames r₀.page.schema).map (numberAt r)).length =
      r₀.page.schema.length := fun r => by rw [List.length_map, length_columnNames]
  have hvalues : (labelIndexes ((r₀ :: data).map labelAt)).length *
        rowValueSize (sortByName r₀.page.schema) =
      (((r₀ :: data).flatMap fun r => (columnNames r₀.page.schema).map (numberAt r)).flatMap
        fun x => toByteArray (doubleToLongBits x)).length := by
    rw [rowValueSize_numeric hnumeric, (sortByName_perm _).length_eq,
      length_flatMap_of length_doubleBytes,
      length_flatMap_of hlength, labelIndexes, List.length_map, List.length_map, Nat.mul_assoc]
  have hnodup : ((sortByName r₀.page.schema).map BaseColumn.name).Nodup := by
    rw [sortByName_names]
    exact nodup_columnNames r₀.page.nodup
  obtain ⟨p, hp, hschema, hlabelNames, hvalues', hlabels'⟩ :=
    new_ok hnodup hvalues (labelIndexes_lt _)
  refine ⟨p, ?_, hschema, ?_, ?_, hvalues'⟩
  · rw [fromRows, hu.distinct_eq]
    dsimp only
    rw [compatible_of_numeric hnumeric, filter_scalars hnumeric, filter_refs hnumeric]
    show (((r₀ :: data).mapM fun r => [].mapM (refVal r)) >>= _) = _
    rw [hrefVals]
    show (((r₀ :: data).mapM fun r =>
      (newScalaCols (sortByName r₀.page.schema)).mapM (scalarVal r)) >>= _) = _
    rw [hu.mapM_scalarVal]
    show ((r₀ :: data).mapM PageRow.label >>= _) = _
    rw [mapM_label hrows, ← hp]
    show new (sortByName ([] ++ _)) _ _ _ _ = _
    rw [List.nil_append, sortByName_sorted, List.flatMap_def (l := r₀ :: data)]
    congr 1
    simp
  · rw [size, hlabels', labelIndexes, List.length_map, List.length_map]
  · intro i r hi
    obtain ⟨l, hl⟩ := label_ok (hrows r (List.mem_of_getElem? hi))
    rw [hl]
    refine PageRow.label_eq hlabels' hlabelNames ?_
    rw [List.getElem?_map, hi, Option.map_some, labelAt, hl]

end Uniform

/-- What a column reads in the union is the value of the column whose place it has. -/
theorem apply_of_place {r₀ : PageRow} {data : List PageRow} {p : Page}
    (hschema : p.schema = sortByName r₀.page.schema)
    (hnumeric : ∀ c ∈ r₀.page.schema, c.isRef = false)
    (hvalues : p.values = (data.flatMap fun r => (columnNames r₀.page.schema).map
      (numberAt r)).flatMap fun x => toByteArray (doubleToLongBits x))
    {i j : ℕ} (hi : data[i]? = some r) {name key : String}
    (hc : BaseColumn.doubleColumn name (j * 8) ∈ r₀.page.schema)
    (hj : (columnNames r₀.page.schema)[j]? = some key) :
    (PageRow.mk p i).apply name = .ok (.double (numberAt r key)) := by
  have hlength : ∀ r, ((columnNames r₀.page.schema).map (numberAt r)).length =
      r₀.page.schema.length := fun r => by rw [List.length_map, length_columnNames]
  have hsize : rowValueSize p.schema = r₀.page.schema.length * 8 := by
    rw [hschema, rowValueSize_sortByName, rowValueSize_numeric hnumeric]
  have hlt : j < r₀.page.schema.length :=
    length_columnNames r₀.page.schema ▸ (List.getElem?_eq_some_iff.mp hj).1
  have hcell : (data.flatMap fun r => (columnNames r₀.page.schema).map
      (numberAt r))[i * r₀.page.schema.length + j]? = some (numberAt r key) := by
    rw [getElem?_flatMap hlength hi hlt, List.getElem?_map, hj, Option.map_some]
  have hmem : BaseColumn.doubleColumn name (j * 8) ∈ p.schema := by
    rw [hschema]
    exact (sortByName_perm _).mem_iff.mpr hc
  exact (apply_of_mem (r := PageRow.mk p i) hmem).trans
    (BaseColumn.get_double hsize hvalues hcell)

/-- The union of uniform rows has these rows, if each column of the first one has the place of a
    column with the same values. -/
theorem fromRows_concatenates {r₀ : PageRow} {data : List PageRow} (hu : Uniform (r₀ :: data))
    (hrows : ∀ r ∈ r₀ :: data, r.row < r.page.size)
    (hplace : ∀ c ∈ r₀.page.schema, ∃ (j : ℕ) (key : String), c = .doubleColumn c.name (j * 8) ∧
      (columnNames r₀.page.schema)[j]? = some key ∧
      ∀ r ∈ r₀ :: data, r.apply c.name = r.apply key) :
    ∃ p, fromRows (r₀ :: data) = .ok p ∧ Concatenates (r₀ :: data) p := by
  obtain ⟨p, hp, hschema, hsize, hlabel, hvalues⟩ := fromRows_of_uniform hu hrows
  have hnumeric := hu.numeric r₀ List.mem_cons_self
  refine ⟨p, hp, hsize, hlabel, fun i r hi c hc => ?_, fun i r hi r' hr' c hc hno => ?_⟩
  · have hr := List.mem_of_getElem? hi
    have hread := hu.apply hr (List.mem_map.mpr ⟨c, hc, rfl⟩)
    obtain ⟨c₀, hc₀, hname⟩ := List.mem_map.mp (hu.same r hr r₀ List.mem_cons_self c hc)
    obtain ⟨j, key, hslot, hj, hkey⟩ := hplace c₀ hc₀
    rw [hname] at hslot hkey
    rw [hslot] at hc₀
    refine ⟨_, (apply_of_mem hc).symm.trans hread, ?_⟩
    rw [apply_of_place hschema hnumeric hvalues hi hc₀ hj, numberAt, numberAt, hkey r hr]
  · exact absurd (hu.same r' hr' r (List.mem_of_getElem? hi) c hc) hno

/-! ## When the union goes wrong -/

theorem mem_unionKeys {c : BaseColumn} (hr : r ∈ data) (hc : c ∈ r.page.schema) :
    ∃ d ∈ sortByName (distinct (data.flatMap fun r => r.page.schema)), d.equals c = true := by
  have hmem : c ∈ data.flatMap fun r => r.page.schema := List.mem_flatMap.mpr ⟨r, hr, hc⟩
  obtain ⟨d, hd, heq⟩ := mem_distinct hmem
  exact ⟨d, (sortByName_perm _).mem_iff.mpr hd, heq⟩

/-- A row with a reference makes the union fail. -/
theorem fromRows_ref {c : BaseColumn} (hr : r ∈ data) (hc : c ∈ r.page.schema)
    (href : c.isRef = true) : ∃ e, fromRows data = .error e := by
  obtain ⟨d, hd, heq⟩ := mem_unionKeys hr hc
  rw [BaseColumn.equals, Bool.and_eq_true, href] at heq
  have hd' := List.mem_filter.mpr ⟨hd, eq_of_beq heq.1⟩
  have hval : refVal r d = .error arrayIndexOutOfBounds := by
    cases d with
    | stringColumn _ index => exact ref_eq_error r index
    | doubleColumn _ _ => cases heq.1
  obtain ⟨e, he⟩ := mapM_mapM_error (f := refVal) hr hd' hval
  unfold fromRows
  dsimp only
  split_ifs
  · exact ⟨_, rfl⟩
  · exact ⟨e, by rw [he]; rfl⟩

/-- A row without a column of another row makes the union fail. -/
theorem fromRows_missing {r' : PageRow} {c : BaseColumn} (hr : r ∈ data) (hr' : r' ∈ data)
    (hc : c ∈ r.page.schema) (href : c.isRef = false)
    (hno : c.name ∉ r'.page.schema.map BaseColumn.name) : ∃ e, fromRows data = .error e := by
  obtain ⟨d, hd, heq⟩ := mem_unionKeys hr hc
  rw [BaseColumn.equals, Bool.and_eq_true, href] at heq
  have hd' : d ∈ (sortByName (distinct (data.flatMap fun r => r.page.schema))).filter
      fun c => !c.isRef :=
    List.mem_filter.mpr ⟨hd, by rw [eq_of_beq heq.1]; rfl⟩
  have hname : c.name ∈ (newScalaCols ((sortByName (distinct
      (data.flatMap fun r => r.page.schema))).filter fun c => !c.isRef)).map BaseColumn.name := by
    rw [newScalaCols_names, ← eq_of_beq heq.2]
    exact List.mem_map.mpr ⟨d, hd', rfl⟩
  obtain ⟨b, hb, hbname⟩ := List.mem_map.mp hname
  have hval : scalarVal r' b = .error (.noSuchElement ("key not found: " ++ b.name)) := by
    have hnone : r'.column? b.name = none := by
      refine List.find?_eq_none.mpr fun a ha heq => hno ?_
      rw [← hbname, ← of_decide_eq_true heq]
      exact List.mem_map.mpr ⟨a, ha, rfl⟩
    rw [scalarVal, PageRow.apply, hnone]
  obtain ⟨e, he⟩ := mapM_mapM_error (f := scalarVal) hr' hb hval
  unfold fromRows
  dsimp only
  split_ifs
  · exact ⟨_, rfl⟩
  · cases data.mapM fun r => ((sortByName (distinct
        (data.flatMap fun r => r.page.schema))).filter BaseColumn.isRef).mapM (refVal r) with
    | error e' => exact ⟨e', rfl⟩
    | ok refVals => exact ⟨e, by rw [he]; rfl⟩

theorem uniform_of_concatenates {p : Page} (hp : fromRows data = .ok p) (h : Concatenates data p) :
    Uniform data := by
  have hnumeric : ∀ r ∈ data, ∀ c ∈ r.page.schema, c.isRef = false := by
    intro r hr c hc
    by_contra href
    obtain ⟨e, he⟩ := fromRows_ref hr hc (Bool.not_eq_false _ ▸ href)
    rw [hp] at he
    cases he
  refine ⟨hnumeric, fun r hr r' hr' c hc => ?_, fun r hr c hc => ?_⟩
  · by_contra hno
    obtain ⟨e, he⟩ := fromRows_missing hr hr' hc (hnumeric r hr c hc) hno
    rw [hp] at he
    cases he
  · obtain ⟨i, hi⟩ := List.mem_iff_getElem?.mp hr
    obtain ⟨x, hx, -⟩ := h.value i r hi c hc
    exact ⟨x, hx⟩

theorem mem_rows {p : Page} (hr : r ∈ p.rows) : r.page = p ∧ r.row < r.page.size := by
  obtain ⟨i, hi, rfl⟩ := List.mem_map.mp hr
  exact ⟨rfl, List.mem_range.mp hi⟩

/-- The union of the pages has their rows. -/
def UnionConcatenates (pages : List Page) : Prop :=
  ∃ p, union pages = .ok p ∧ Concatenates (pages.flatMap rows) p

/-- The columns stand at multiples of eight bytes inside of the row. -/
def Slots (schema : List BaseColumn) : Prop :=
  ∀ c ∈ schema, ∃ j < schema.length, c = .doubleColumn c.name ((j : ℕ) * 8)

/-- Every row has the same value for a column of the first row's page as for the column whose rank
    is the place of this column. -/
def InPlace (data : List PageRow) : Prop :=
  ∀ r₀ ∈ data.head?, ∀ r ∈ data, ∀ name (j : ℕ) key,
    BaseColumn.doubleColumn name (j * 8) ∈ r₀.page.schema →
    (columnNames r₀.page.schema)[j]? = some key → r.apply name = r.apply key

theorem getElem?_of_slot {schema : List BaseColumn} {j : ℕ} (hj : j < schema.length) :
    ∃ key, (columnNames schema)[j]? = some key :=
  ⟨_, List.getElem?_eq_getElem (length_columnNames schema ▸ hj)⟩

/-- The union of pages without rows. -/
theorem unionConcatenates_of_nil {pages : List Page} (h : pages.flatMap rows = []) :
    UnionConcatenates pages := by
  refine ⟨⟨[], [], [], [], [], List.nodup_nil, rfl, rfl, fun _ hi => by cases hi⟩, ?_, ?_⟩
  · rw [union, h]
    rfl
  · rw [h]
    refine ⟨rfl, ?_, ?_, ?_⟩
    · intro i r hi
      cases hi
    · intro i r hi
      cases hi
    · intro i r hi
      cases hi

/-- When the union of pages has their rows: they must be uniform, and it is enough if the first
    page that has rows is packed. If its columns have slots, the rest is that they are in place. -/
theorem union_iff (pages : List Page) :
    (UnionConcatenates pages → Uniform (pages.flatMap rows)) ∧
      (Uniform (pages.flatMap rows) →
        (∀ r ∈ (pages.flatMap rows).head?, Packed r.page.schema) → UnionConcatenates pages) ∧
      ((∀ r ∈ (pages.flatMap rows).head?, Slots r.page.schema) →
        (UnionConcatenates pages ↔
          Uniform (pages.flatMap rows) ∧ InPlace (pages.flatMap rows))) := by
  have hall : ∀ r ∈ pages.flatMap rows, r.row < r.page.size := by
    intro r hr
    obtain ⟨p, -, hr⟩ := List.mem_flatMap.mp hr
    exact (mem_rows hr).2
  cases hdata : pages.flatMap rows with
  | nil =>
    have hnil := unionConcatenates_of_nil hdata
    have huniform : Uniform [] := ⟨nofun, nofun, nofun⟩
    refine ⟨fun _ => huniform, fun _ _ => hnil, fun _ => iff_of_true hnil ⟨huniform, nofun⟩⟩
  | cons r₀ data =>
    rw [hdata] at hall
    have hcorrect : UnionConcatenates pages ↔
        ∃ p, fromRows (r₀ :: data) = .ok p ∧ Concatenates (r₀ :: data) p := by
      rw [UnionConcatenates, union, hdata]
    have huniform : UnionConcatenates pages → Uniform (r₀ :: data) := by
      rw [hcorrect]
      rintro ⟨p, hp, hconc⟩
      exact uniform_of_concatenates hp hconc
    refine ⟨huniform, fun hu hpacked => ?_, fun hslots => ⟨fun h => ⟨huniform h, ?_⟩, ?_⟩⟩
    · refine hcorrect.mpr (fromRows_concatenates hu hall fun c hc => ?_)
      have hmem : c.name ∈ columnNames r₀.page.schema :=
        mem_sorted.mpr (List.mem_map.mpr ⟨c, hc, rfl⟩)
      have hidx := List.idxOf_lt_length_iff.mpr hmem
      refine ⟨_, c.name, hpacked r₀ rfl c hc, ?_, fun _ _ => rfl⟩
      rw [List.getElem?_eq_getElem hidx, List.getElem_idxOf]
    · -- a column reads the value of the column whose place it has
      rintro r₀' ⟨⟩ r hr name j key hc hj
      have hu := huniform h
      obtain ⟨p, hp, hconc⟩ := hcorrect.mp h
      obtain ⟨p', hp', hschema, -, -, hvalues⟩ := fromRows_of_uniform hu hall
      obtain rfl : p = p' := Except.ok.inj (hp.symm.trans hp')
      obtain ⟨i, hi⟩ := List.mem_iff_getElem?.mp hr
      have hname := hu.same r₀ List.mem_cons_self r hr _ hc
      have hkey : key ∈ r.page.schema.map BaseColumn.name := by
        obtain ⟨d, hd, rfl⟩ := List.mem_map.mp (mem_sorted.mp (List.mem_of_getElem? hj))
        exact hu.same r₀ List.mem_cons_self r hr d hd
      obtain ⟨c', hc', hname'⟩ := List.mem_map.mp hname
      obtain ⟨x, hx, hread⟩ := hconc.value i r hi c' hc'
      rw [hname'] at hread
      have hplace := apply_of_place hschema (hu.numeric r₀ List.mem_cons_self) hvalues hi hc hj
      rw [BaseColumn.name] at hread
      rw [hread] at hplace
      have hx' := (apply_of_mem hc').trans hx
      rw [hname', BaseColumn.name, hplace] at hx'
      rw [hx', hu.apply hr hkey]
    · rintro ⟨hu, hin⟩
      refine hcorrect.mpr (fromRows_concatenates hu hall fun c hc => ?_)
      obtain ⟨j, hj, hslot⟩ := hslots r₀ rfl c hc
      obtain ⟨key, hkey⟩ := getElem?_of_slot hj
      refine ⟨j, key, hslot, hkey, fun r hr => ?_⟩
      exact hin r₀ rfl r hr c.name j key (hslot ▸ hc) hkey

/-- A page with one row. -/
def sample (a b : ℤ) : Page where
  schema := [.doubleColumn "a" a, .doubleColumn "b" b]
  labelNames := ["1"]
  values := toByteArray 0x3ff0000000000000 ++ toByteArray 0x4000000000000000
  refs := []
  labels := [0]
  nodup := by simp [BaseColumn.name]
  length_values := rfl
  length_refs := by simp
  labels_lt := by decide

theorem union_sample : UnionConcatenates [sample 0 8, sample 0 8] := by
  refine (union_iff [sample 0 8, sample 0 8]).2.1 ⟨?_, ?_, ?_⟩ ?_
  · decide
  · decide
  · intro r hr c hc
    obtain ⟨p, hp, hr⟩ := List.mem_flatMap.mp hr
    obtain rfl : p = sample 0 8 := by simpa using hp
    obtain rfl : r = ⟨sample 0 8, 0⟩ := List.mem_singleton.mp hr
    rcases List.mem_cons.mp hc with rfl | hc
    · exact ⟨_, rfl⟩
    · obtain rfl := List.mem_singleton.mp hc
      exact ⟨_, rfl⟩
  · rintro r ⟨⟩ c hc
    rcases List.mem_cons.mp hc with rfl | hc
    · rfl
    · obtain rfl := List.mem_singleton.mp hc
      rfl

/-- The second column comes first in the rows, as in the pages of `ForestCoverDataset.load`
    (`util/ForestCoverDataset.scala`, lines 91–97), whose columns are in another order than their
    names: the union has the value of `"b"` in `"a"`. -/
theorem union_unordered : ¬UnionConcatenates [sample 8 0] := by
  rintro ⟨p, hp, hconc⟩
  have hb : (union [sample 8 0]).map (fun p => (PageRow.mk p 0).apply "a") =
      .ok (.ok (.double (longBitsToDouble 0x3ff0000000000000))) := by decide +kernel
  have ha : (BaseColumn.doubleColumn "a" 8).get ⟨sample 8 0, 0⟩ =
      .ok (.double (longBitsToDouble 0x4000000000000000)) := by decide +kernel
  have hne : longBitsToDouble 0x4000000000000000 ≠ longBitsToDouble 0x3ff0000000000000 := by
    decide +kernel
  obtain ⟨x, hx, hread⟩ := hconc.value 0 ⟨sample 8 0, 0⟩ rfl _ List.mem_cons_self
  rw [ha, Except.ok.injEq] at hx
  rw [hp] at hb
  have hread' : (PageRow.mk p 0).apply "a" = .ok x := hread
  have hval : Except.ok x = Except.ok (Cell.double _) := hread'.symm.trans (Except.ok.inj hb)
  rw [← hx] at hval
  exact hne (Cell.double.inj (Except.ok.inj hval))

end Page

end ReSTM
