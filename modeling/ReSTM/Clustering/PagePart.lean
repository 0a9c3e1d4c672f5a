import Mathlib.Data.List.GetD
import ReSTM.Clustering.PageApply

/-!
# Rows of a page and parts of it

Model of what a rule sees of an item or of a row, and of `Page.getAll`
(`stm/clustering/Page.scala`, lines 187–230).

* `Page.getAll_part`: `getAll` has the rows that it is asked for.
* `Page.Part.keyValue`, `Part.label`: a row of a part is the row that it was.
-/

namespace ReSTM

open JavaBytes Layout

/-! ## What a rule sees -/

/-- A value of a `KeyValue[String, Any]`: an attribute of an item, or what a row has in a column. -/
inductive AnyValue
  | item (v : AttributeValue)
  | cell (c : Cell)
deriving DecidableEq

/-- `asInstanceOf[Number].doubleValue()`. -/
def AnyValue.doubleValue : AnyValue → Except Failure Float
  | item v => v.doubleValue
  | cell (.double x) => .ok x
  | cell (.ref none) => .error .nullPointer
  | cell (.ref (some _)) => .error (.runtimeException "java.lang.ClassCastException")

/-- `trait KeyValue[String, Any]` (`Page.scala`, lines 217–220). -/
structure KeyValue where
  get : String → Except Failure (Option AnyValue)
  apply : String → Except Failure AnyValue

/-- An item, with the `apply` of the trait. -/
def ClassificationTreeItem.keyValue (item : ClassificationTreeItem) : KeyValue where
  get key := .ok ((item.get key).map .item)
  apply key :=
    match item.get key with
    | some v => .ok (.item v)
    | none => .error .noneGet

/-- A row, with an `apply` of its own. -/
def PageRow.keyValue (r : PageRow) : KeyValue where
  get key := (r.get key).map fun c => c.map .cell
  apply key := (r.apply key).map .cell

/-! ## `getAll` -/

/-- `Arrays.copyOfRange` of references. What is behind the end is `null`. -/
def copyOfRefs (original : List (Option String)) (lo hi : ℕ) :
    Except Failure (List (Option String)) :=
  if original.length < lo then .error arrayIndexOutOfBounds
  else .ok ((original.drop lo ++ List.replicate (hi - lo) none).take (hi - lo))

/-- The label of a row as an index, `labels(i)`. -/
def Page.labelOf (p : Page) (i : ℕ) : Except Failure ℕ :=
  match p.labels[i]? with
  | some l => .ok l
  | none => .error arrayIndexOutOfBounds

/-- `getAll` (lines 187–196). -/
def Page.getAll (p : Page) (rows : List PageRow) : Except Failure Page := do
  let indexes := (rows.map PageRow.row).dedup.insertionSort (· ≤ ·)
  let labels ← indexes.mapM p.labelOf
  let refs ← indexes.mapM fun i =>
    copyOfRefs p.refs (i * rowRefSize p.schema) ((i + 1) * rowRefSize p.schema)
  let values ← indexes.mapM fun i =>
    copyOfRange p.values (i * rowValueSize p.schema : ℕ) ((i + 1) * rowValueSize p.schema : ℕ)
  Page.new p.schema p.labelNames values.flatten refs.flatten labels

namespace Page

/-- The bytes of a row, filled up with `0`. -/
def block (p : Page) (i : ℕ) : List UInt8 :=
  (p.values.drop (i * rowValueSize p.schema) ++ List.replicate (rowValueSize p.schema) 0).take
    (rowValueSize p.schema)

/-- The page `q` has the rows of `p` with the indexes `I`. -/
structure Part (p : Page) (I : List ℕ) (q : Page) : Prop where
  schema : q.schema = p.schema
  labelNames : q.labelNames = p.labelNames
  lt : ∀ i ∈ I, i < p.size
  labels : q.labels = I.map fun i => p.labels.getD i 0
  values : q.values = I.flatMap p.block

/-- The columns of doubles are inside of the row. -/
def Inside (schema : List BaseColumn) : Prop :=
  ∀ name start, BaseColumn.doubleColumn name start ∈ schema →
    ∃ k : ℕ, start = k ∧ k + 8 ≤ rowValueSize schema

variable {p q q' : Page} {I J : List ℕ} {i j : ℕ}

theorem length_block (p : Page) (i : ℕ) : (p.block i).length = rowValueSize p.schema := by
  rw [block, List.length_take, List.length_append, List.length_replicate]
  omega

theorem block_eq (hi : i < p.size) : p.block i =
    (p.values.drop (i * rowValueSize p.schema)).take (rowValueSize p.schema) := by
  have hle := row_end_le hi
  refine List.take_append_of_le_length ?_
  rw [List.length_drop]
  omega

theorem Part.size (h : Part p I q) : q.size = I.length := by
  rw [Page.size, h.labels, List.length_map]

/-- A page is a part of itself. -/
theorem Part.refl (p : Page) : Part p (List.range p.size) p where
  schema := rfl
  labelNames := rfl
  lt _ hi := List.mem_range.mp hi
  labels := by
    refine List.ext_getElem? fun i => ?_
    by_cases hi : i < p.size
    · have hi' : i < p.labels.length := hi
      simp [hi, hi']
    · have hi' : p.labels.length ≤ i := Nat.not_lt.mp hi
      simp [hi, hi']
  values := by
    have htake : ∀ n ≤ p.size, (List.range n).flatMap p.block =
        p.values.take (n * rowValueSize p.schema) := by
      intro n hn
      induction n with
      | zero => simp
      | succ n ih =>
        rw [List.range_succ, List.flatMap_append, ih (Nat.le_of_succ_le hn), List.flatMap_singleton,
          block_eq hn, ← List.take_add, Nat.succ_mul]
    rw [htake p.size le_rfl, List.take_of_length_le]
    exact p.length_values.ge

/-- The bytes of a row of a part. -/
theorem Part.block (h : Part p I q) (hj : I[j]? = some i) : q.block j = p.block i := by
  obtain ⟨hlt, -⟩ := List.getElem?_eq_some_iff.mp hj
  rw [block_eq (h.size ▸ hlt), h.schema, h.values]
  exact take_drop_flatMap (length_block p) hj

theorem Part.trans (h : Part p I q) (h' : Part q J q') :
    Part p (J.map fun j => I.getD j 0) q' := by
  have hget : ∀ j ∈ J, I[j]? = some (I.getD j 0) := by
    intro j hj
    have hlt : j < I.length := h.size ▸ h'.lt j hj
    rw [List.getD_eq_getElem?_getD, List.getElem?_eq_getElem hlt, Option.getD_some]
  refine ⟨h'.schema.trans h.schema, h'.labelNames.trans h.labelNames, fun i hi => ?_, ?_, ?_⟩
  · obtain ⟨j, hj, rfl⟩ := List.mem_map.mp hi
    exact h.lt _ (List.mem_of_getElem? (hget j hj))
  · rw [h'.labels, List.map_map]
    refine List.map_congr_left fun j hj => ?_
    rw [h.labels, List.getD_eq_getElem?_getD, List.getElem?_map, hget j hj]
    rfl
  · rw [h'.values, List.flatMap_map]
    exact List.flatMap_congr fun j hj => h.block (hget j hj)

/-! ## Rows -/

theorem Part.label (h : Part p I q) (hj : I[j]? = some i) :
    (PageRow.mk q j).label = (PageRow.mk p i).label := by
  have hi : i < p.labels.length := h.lt i (List.mem_of_getElem? hj)
  unfold PageRow.label
  dsimp only
  rw [h.labels, h.labelNames, List.getElem?_map, hj, Option.map_some, List.getElem?_eq_getElem hi,
    List.getD_eq_getElem _ _ hi]

theorem value_eq_block (hi : i < p.size) {k : ℕ} (hk : k + 8 ≤ rowValueSize p.schema) :
    (PageRow.mk p i).value k 8 = .ok (((p.block i).drop k).take 8) := by
  have hle := row_end_le hi
  unfold PageRow.value
  dsimp only
  have hplace : ((i : ℤ) * rowValueSize p.schema + k) = (i * rowValueSize p.schema + k : ℕ) := by
    push_cast
    ring
  rw [hplace]
  refine (copyOfRange_inside (by omega)).trans ?_
  rw [block_eq hi, List.drop_take, List.take_take, List.drop_drop, min_eq_left (by omega)]

/-- A column that is inside of the row has the same value. -/
theorem Part.get (h : Part p I q) (hin : Inside p.schema) (hj : I[j]? = some i) {c : BaseColumn}
    (hc : c ∈ p.schema) : c.get ⟨q, j⟩ = c.get ⟨p, i⟩ := by
  obtain ⟨hlt, -⟩ := List.getElem?_eq_some_iff.mp hj
  cases c with
  | stringColumn name index =>
    show (PageRow.ref _ _ >>= _) = (PageRow.ref _ _ >>= _)
    rw [ref_eq_error, ref_eq_error]
  | doubleColumn name start =>
    obtain ⟨k, rfl, hk⟩ := hin name start hc
    have hvalue : (PageRow.mk q j).value k 8 = (PageRow.mk p i).value k 8 := by
      rw [value_eq_block (h.size ▸ hlt) (h.schema ▸ hk),
        value_eq_block (h.lt i (List.mem_of_getElem? hj)) hk, h.block hj]
    show (PageRow.value _ _ _ >>= _) = (PageRow.value _ _ _ >>= _)
    rw [hvalue]

theorem Part.column? (h : Part p I q) (key : String) :
    (PageRow.mk q j).column? key = (PageRow.mk p i).column? key := by
  unfold PageRow.column?
  rw [h.schema]

theorem Part.apply (h : Part p I q) (hin : Inside p.schema) (hj : I[j]? = some i) (key : String) :
    (PageRow.mk q j).apply key = (PageRow.mk p i).apply key := by
  unfold PageRow.apply
  rw [h.column? (i := i)]
  cases hc : (PageRow.mk p i).column? key with
  | none => rfl
  | some c => exact h.get hin hj (List.mem_of_find?_eq_some hc)

/-- A rule sees the same of a row of a part. -/
theorem Part.keyValue (h : Part p I q) (hin : Inside p.schema) (hj : I[j]? = some i) :
    (PageRow.mk q j).keyValue = (PageRow.mk p i).keyValue := by
  unfold PageRow.keyValue
  congr 1
  · funext key
    unfold PageRow.get
    rw [h.column? (i := i)]
    cases hc : (PageRow.mk p i).column? key with
    | none => rfl
    | some c =>
      show Except.map _ (BaseColumn.get _ c >>= _) = Except.map _ (BaseColumn.get _ c >>= _)
      rw [h.get hin hj (List.mem_of_find?_eq_some hc)]
  · funext key
    rw [h.apply hin hj]

/-! ## Where `getAll` ends -/

/-- `getAll` of rows in their order. -/
theorem getAll_part {rows : List PageRow} (hrows : rows.map PageRow.row = J)
    (hsorted : J.Pairwise (· < ·)) (hlt : ∀ j ∈ J, j < p.size) :
    ∃ q, p.getAll rows = .ok q ∧ Part p J q := by
  have hindexes : (rows.map PageRow.row).dedup.insertionSort (· ≤ ·) = J := by
    rw [hrows, List.dedup_eq_self.mpr (hsorted.imp Nat.ne_of_lt)]
    exact List.Pairwise.insertionSort_eq (hsorted.imp Nat.le_of_lt)
  have hlabels : J.mapM p.labelOf = .ok (J.map fun i => p.labels.getD i 0) := by
    refine mapM_ok fun i hi => ?_
    have hi' : i < p.labels.length := hlt i hi
    rw [labelOf, List.getElem?_eq_getElem hi', List.getD_eq_getElem _ _ hi']
  have hrefs : (J.mapM fun i => copyOfRefs p.refs (i * rowRefSize p.schema)
      ((i + 1) * rowRefSize p.schema)) = .ok (J.map fun _ => []) := by
    refine mapM_ok fun i _ => ?_
    rw [rowRefSize_eq_zero, copyOfRefs, Nat.mul_zero, Nat.mul_zero, if_neg (Nat.not_lt_zero _)]
    simp
  have hvalues : (J.mapM fun i => copyOfRange p.values (i * rowValueSize p.schema : ℕ)
      ((i + 1) * rowValueSize p.schema : ℕ)) = .ok (J.map p.block) := by
    refine mapM_ok fun i hi => ?_
    have hle := row_end_le (hlt i hi)
    rw [Nat.succ_mul]
    push_cast
    refine (copyOfRange_inside (by omega)).trans ?_
    rw [block_eq (hlt i hi)]
  have hsize : (J.map fun i => p.labels.getD i 0).length * rowValueSize p.schema =
      (J.flatMap p.block).length := by
    rw [length_flatMap_of (length_block p), List.length_map]
  have hnames : ∀ l ∈ J.map fun i => p.labels.getD i 0, l < p.labelNames.length := by
    intro l hl
    obtain ⟨i, hi, rfl⟩ := List.mem_map.mp hl
    have hi' : i < p.labels.length := hlt i hi
    rw [List.getD_eq_getElem _ _ hi']
    exact p.labels_lt _ (List.getElem_mem hi')
  obtain ⟨q, hq, hschema, hlabelNames, hvalues', hlabels'⟩ := new_ok p.nodup hsize hnames
  refine ⟨q, ?_, hschema, hlabelNames, hlt, hlabels', hvalues'⟩
  unfold getAll
  dsimp only
  rw [hindexes, hlabels]
  show ((J.mapM fun i => copyOfRefs p.refs _ _) >>= _) = _
  rw [hrefs]
  show ((J.mapM fun i => copyOfRange p.values _ _) >>= _) = _
  rw [hvalues, ← hq, List.flatMap_def]
  show new _ _ _ _ _ = _
  congr 1
  simp

end Page

end ReSTM
