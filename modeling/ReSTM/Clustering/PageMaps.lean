import ReSTM.Clustering.PageApply

/-!
# The page of a list of maps

Model of `Page.apply(List[Map[String, Any]], labelColumn)` (`stm/clustering/Page.scala`, lines
105–125), the sibling of `Page.apply(List[LabeledItem])`. It looks both kinds of columns up in a
map from which `groupBy` leaves a kind out that no column is of, so that it wants a column of each
kind, and a column of the second kind makes a page that the constructor refuses.

* `Page.applyMaps_error`: no page is built of any maps.
-/

namespace ReSTM

open JavaBytes JavaText Layout

namespace Page

/-- `data.flatMap(_.keys).filterNot(_==labelColumn).toSet.toList.sorted` (lines 106–107). -/
def mapKeys (data : List ClassificationTreeItem) (labelColumn : String) : List String :=
  sorted ((data.flatMap fun m => m.attributes.map Prod.fst).filter (· ≠ labelColumn)).dedup

/-- The values that a key has are all numbers (line 107). -/
def allNumbersOf (data : List ClassificationTreeItem) (key : String) : Bool :=
  (data.filterMap fun m => m.get key).all AttributeValue.isNumber

/-- `names.groupBy(p)(key)`, which has an entry for what some name is mapped to. -/
def groupOf (names : List String) (p : String → Bool) (key : Bool) :
    Except Failure (List String) :=
  match names.filter fun name => p name == key with
  | [] => .error (.noSuchElement ("key not found: " ++ toString key))
  | group => .ok group

/-- `data.get(col.name).map(_.toString).orNull`. -/
def refValueOf (m : ClassificationTreeItem) (col : String) : Except Failure (Option String) :=
  match m.get col with
  | some v => do return some (← v.toStr)
  | none => return none

/-- `data.get(col.name).map(_.asInstanceOf[Number].doubleValue()).getOrElse(Double.NaN)`. -/
def scalarValueOf (m : ClassificationTreeItem) (col : String) : Except Failure Float :=
  match m.get col with
  | some v => v.doubleValue
  | none => return nan

/-- `data.get(labelColumn).map(_.toString)`. Every map has the column. -/
def labelValueOf (labelColumn : String) (m : ClassificationTreeItem) : Except Failure String :=
  match m.get labelColumn with
  | some v => v.toStr
  | none => .error .nullPointer

/-- `apply(data, labelColumn)` (lines 105–125). -/
def applyMaps (data : List ClassificationTreeItem) (labelColumn : String) : Except Failure Page := do
  let sets := mapKeys data labelColumn
  let scalars ← groupOf sets (allNumbersOf data) true
  let refs ← groupOf sets (allNumbersOf data) false
  let refVals ← data.mapM fun m => refs.mapM (refValueOf m)
  let scalarVals ← data.mapM fun m => scalars.mapM (scalarValueOf m)
  let labels ← data.mapM (labelValueOf labelColumn)
  let columns := (refColumns refs ++ scalarColumns scalars).insertionSort
    fun c d => le c.name d.name
  new columns (namesOfLabels labels)
    (scalarVals.flatten.flatMap fun x => toByteArray (doubleToLongBits x))
    refVals.flatten (labelIndexes labels)

/-- The item of a map: the value of the label column is the label, and the other columns are
    the attributes. -/
def labeledItem (labelColumn : String) (m : ClassificationTreeItem) : Except Failure LabeledItem := do
  return ⟨← labelValueOf labelColumn m, ⟨m.attributes.filter (·.1 ≠ labelColumn)⟩⟩

/-- The pages have the same rows. -/
structure SameRows (p q : Page) : Prop where
  size : p.size = q.size
  label : ∀ i < p.size, (PageRow.mk p i).label = (PageRow.mk q i).label
  get : ∀ i < p.size, ∀ key, (PageRow.mk p i).get key = (PageRow.mk q i).get key

/-- Both builders make a page, with the same rows. -/
def BuildersAgree (data : List ClassificationTreeItem) (labelColumn : String) : Prop :=
  ∃ items p q, data.mapM (labeledItem labelColumn) = .ok items ∧
    applyMaps data labelColumn = .ok p ∧ apply items = .ok q ∧ SameRows p q

variable {data : List ClassificationTreeItem} {labelColumn : String} {names : List String}

theorem groupOf_ne_nil {p : String → Bool} {key : Bool} {group : List String}
    (h : groupOf names p key = .ok group) : group ≠ [] := by
  unfold groupOf at h
  split at h
  · cases h
  · next hne =>
    cases h
    exact hne

/-- A program whose second part fails after every outcome of the first one fails. -/
theorem bind_fails {α β : Type} {x : Except Failure α} {f : α → Except Failure β}
    (h : ∀ a, x = .ok a → ∃ e, f a = .error e) : ∃ e, (x >>= f) = .error e := by
  cases x with
  | error e => exact ⟨e, rfl⟩
  | ok a => exact h a rfl

/-- No page is built: a kind of columns is missing, or there are references, of which the
    constructor expects none. -/
theorem applyMaps_error (hdata : data ≠ []) (labelColumn : String) :
    ∃ e, applyMaps data labelColumn = .error e := by
  obtain ⟨m, hm⟩ := List.exists_mem_of_ne_nil data hdata
  unfold applyMaps
  refine bind_fails fun scalars _ => bind_fails fun refs hrefs => ?_
  refine bind_fails fun refVals hrefVals => bind_fails fun scalarVals _ => ?_
  refine bind_fails fun labels _ => ⟨requirementFailed, new_refs fun hnil => ?_⟩
  -- every map has a reference for every column of references
  obtain ⟨key, hkey⟩ := List.exists_mem_of_ne_nil refs (groupOf_ne_nil hrefs)
  obtain ⟨row, hrow, hrefs'⟩ := mapM_mem hrefVals hm
  obtain ⟨s, hs, -⟩ := mapM_mem hrefs' hkey
  exact List.not_mem_nil (hnil ▸ List.mem_flatten_of_mem hrow hs)

/-- The builders agree on no maps. -/
theorem not_buildersAgree (hdata : data ≠ []) (labelColumn : String) :
    ¬BuildersAgree data labelColumn := by
  rintro ⟨items, p, q, -, hp, -⟩
  obtain ⟨e, he⟩ := applyMaps_error hdata labelColumn
  rw [hp] at he
  cases he

/-- A tree with its height, `1.0`. -/
def spruceMap : ClassificationTreeItem :=
  ⟨[("label", .object "spruce"), ("height", .number (longBitsToDouble 0x3ff0000000000000) "1.0")]⟩

theorem not_buildersAgree_spruce : ¬BuildersAgree [spruceMap] "label" :=
  not_buildersAgree (List.cons_ne_nil _ _) "label"

/-- The item gives a page, and the map with the label gives none. -/
theorem applyMaps_spruce : ∃ item q, [spruceMap].mapM (labeledItem "label") = .ok [item] ∧
    apply [item] = .ok q ∧
    applyMaps [spruceMap] "label" = .error (.noSuchElement "key not found: false") :=
  ⟨_, _, rfl, rfl, rfl⟩

end Page

end ReSTM
