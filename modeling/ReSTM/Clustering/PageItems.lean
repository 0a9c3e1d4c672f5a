import Mathlib.Data.Multiset.Bind
import ReSTM.Clustering.PagePart
import ReSTM.Clustering.PageUnion

/-!
# The items of pages

An item is what can be read of a row: its label, and its values in the order of the names of the
columns. A part of a page has some of its items. The union of pages has the items of their rows
after these are laid out again, `PageRow.relaid`: the doubles of a row are written in the order of
the names and then read at the places of the old columns.

* `Page.items_of_part`: the items of a part.
* `Page.items_union`: the items of a union.
* `Page.relaid_of_packed`: nothing moves if the columns are packed.
-/

namespace ReSTM

open JavaBytes Layout Page

/-- What can be read of a row. -/
structure Item where
  label : Except Failure String
  value : List (String × Except Failure Cell)

/-- The item of a row. -/
def PageRow.item (r : PageRow) : Item where
  label := r.label
  value := (columnNames r.page.schema).map fun name => (name, r.apply name)

/-- The items of a page. -/
def Page.items (p : Page) : Multiset Item := p.rows.map PageRow.item

/-- The items of some pages. -/
def itemsOf (M : Multiset Page) : Multiset Item := M.bind Page.items

/-- The doubles that a row has under some names, one after the other. -/
def PageRow.bytesOf (names : List String) (r : PageRow) : List UInt8 :=
  (names.map (numberAt r)).flatMap fun x => toByteArray (doubleToLongBits x)

/-- What a column reads from the bytes of one row. -/
def BaseColumn.readFrom (bytes : List UInt8) : BaseColumn → Except Failure Cell
  | .stringColumn _ _ => .error arrayIndexOutOfBounds
  | .doubleColumn _ start => do
    return .double (longBitsToDouble (fromByteArray (← copyOfRange bytes start (start + 8))))

/-- What a row has for a key after it was written in the order of the names. -/
def PageRow.relaidApply (r : PageRow) (key : String) : Except Failure Cell :=
  match r.column? key with
  | some c => c.readFrom (r.bytesOf (columnNames r.page.schema))
  | none => .error (.noSuchElement ("key not found: " ++ key))

/-- The item of a row after it was written in the order of the names. -/
def PageRow.relaid (r : PageRow) : Item where
  label := r.label
  value := (columnNames r.page.schema).map fun name => (name, r.relaidApply name)

/-- The items of some pages after their rows were written in the order of the names. -/
def relaidItemsOf (M : Multiset Page) : Multiset Item :=
  M.bind fun p => p.rows.map PageRow.relaid

/-! ## Parts -/

namespace Page

variable {p q : Page} {I : List ℕ} {S : List BaseColumn} {r : PageRow}

theorem mem_columnNames {key : String} (h : key ∈ columnNames S) :
    ∃ c ∈ S, c.name = key := List.mem_map.mp (JavaText.mem_sorted.mp h)

/-- A row of a part is the item that it was. -/
theorem Part.item (h : Part p I q) (hin : Inside p.schema) {i j : ℕ} (hj : I[j]? = some i) :
    (PageRow.mk q j).item = (PageRow.mk p i).item := by
  unfold PageRow.item
  dsimp only
  rw [h.label hj, h.schema]
  congr 1
  exact List.map_congr_left fun key _ => by rw [h.apply hin hj]

theorem items_of_part (h : Part p I q) (hin : Inside p.schema) :
    q.items = (I.map fun i => (PageRow.mk p i).item : List Item) := by
  have hrows : q.rows.map PageRow.item = I.map fun i => (PageRow.mk p i).item := by
    refine List.ext_getElem? fun j => ?_
    rw [rows, h.size, List.map_map, List.getElem?_map, List.getElem?_map]
    by_cases hj : j < I.length
    · rw [List.getElem?_range hj, List.getElem?_eq_getElem hj]
      exact congrArg some (h.item hin (List.getElem?_eq_getElem hj))
    · have hj' := Nat.not_lt.mp hj
      rw [List.getElem?_eq_none (by rwa [List.length_range]), List.getElem?_eq_none hj']
      rfl
  exact congrArg _ hrows

/-! ## Unions -/

/-- The bytes of a row are those that its block has in the union. -/
theorem length_bytesOf (names : List String) (r : PageRow) :
    (r.bytesOf names).length = names.length * 8 := by
  rw [PageRow.bytesOf, length_flatMap_of length_doubleBytes, List.length_map]

theorem columnNames_sortByName (S : List BaseColumn) :
    columnNames (sortByName S) = columnNames S := by
  rw [← sortByName_names, sortByName_sorted, sortByName_names]

theorem Inside.sortByName (h : Inside S) : Inside (sortByName S) := by
  intro name start hc
  rw [rowValueSize_sortByName]
  exact h name start ((sortByName_perm S).mem_iff.mp hc)

/-- A column inside of the row can be read in every row. -/
theorem readable_of_inside (hin : Inside r.page.schema) (hr : r.row < r.page.size)
    {c : BaseColumn} (hc : c ∈ r.page.schema) (href : c.isRef = false) : ∃ x, c.get r = .ok x := by
  cases c with
  | stringColumn _ _ => cases href
  | doubleColumn name start =>
    obtain ⟨k, rfl, hk⟩ := hin name start hc
    exact ⟨_, by rw [BaseColumn.get, value_eq_block hr hk]; rfl⟩

theorem readFrom_eq {name : String} {bytes : List UInt8} {k : ℕ} (hk : k + 8 ≤ bytes.length) :
    (BaseColumn.doubleColumn name k).readFrom bytes =
      .ok (.double (longBitsToDouble (fromByteArray ((bytes.drop k).take 8)))) := by
  have hcopy : copyOfRange bytes k (k + 8) = .ok ((bytes.drop k).take 8) := copyOfRange_inside hk
  dsimp only [BaseColumn.readFrom]
  rw [hcopy]
  rfl

/-- What a row reads in a union that has its bytes. -/
theorem apply_of_block (hin : Inside S) {i : ℕ} (hi : i < p.size) (hschema : p.schema = sortByName S)
    (hr : r.page.schema = S) (hblock : p.block i = r.bytesOf (columnNames S))
    (hsize : rowValueSize S = S.length * 8) (hnumeric : ∀ c ∈ S, c.isRef = false) {key : String}
    (hkey : key ∈ columnNames S) : (PageRow.mk p i).apply key = r.relaidApply key := by
  obtain ⟨c, hc, rfl⟩ := mem_columnNames hkey
  have hcr : r.column? c.name = some c := by
    unfold PageRow.column?
    rw [hr]
    exact find?_of_mem (hr ▸ r.page.nodup) hc
  have hcp : c ∈ (PageRow.mk p i).page.schema := by
    rw [hschema]
    exact (sortByName_perm S).mem_iff.mpr hc
  unfold PageRow.relaidApply
  rw [apply_of_mem hcp, hcr, hr]
  cases c with
  | stringColumn _ _ => cases hnumeric _ hc
  | doubleColumn name start =>
    obtain ⟨k, rfl, hk⟩ := hin name start hc
    have hlength : k + 8 ≤ (r.bytesOf (columnNames S)).length := by
      rw [length_bytesOf, length_columnNames, ← hsize]
      exact hk
    have hk' : k + 8 ≤ rowValueSize p.schema := by
      rw [hschema, rowValueSize_sortByName]
      exact hk
    dsimp only
    rw [readFrom_eq hlength, BaseColumn.get, value_eq_block hi hk', hblock]
    rfl

/-- The union of pages with one schema has their rows, laid out again. -/
theorem items_union {pages : List Page} (hschema : ∀ p ∈ pages, p.schema = S) (hin : Inside S)
    (hp : union pages = .ok p) : Inside p.schema ∧ p.items = relaidItemsOf pages := by
  have hrelaid : relaidItemsOf pages = ((pages.flatMap rows).map PageRow.relaid : List Item) := by
    rw [relaidItemsOf, Multiset.coe_bind, List.map_flatMap]
  have hall : ∀ r ∈ pages.flatMap rows, r.row < r.page.size ∧ r.page.schema = S := by
    intro r hr
    obtain ⟨q, hq, hr⟩ := List.mem_flatMap.mp hr
    obtain ⟨rfl, hlt⟩ := mem_rows hr
    exact ⟨hlt, hschema _ hq⟩
  rw [hrelaid]
  unfold union at hp
  cases hdata : pages.flatMap rows with
  | nil =>
    rw [hdata] at hp
    obtain rfl : _ = p := Except.ok.inj hp
    exact ⟨nofun, rfl⟩
  | cons r₀ data =>
    rw [hdata] at hp hall
    have hS := (hall r₀ List.mem_cons_self).2
    have hnumeric : ∀ c ∈ S, c.isRef = false := by
      intro c hc
      by_contra href
      obtain ⟨e, he⟩ := fromRows_ref (c := c) List.mem_cons_self (hS ▸ hc) (Bool.not_eq_false _ ▸ href)
      rw [hp] at he
      cases he
    have huniform : Uniform (r₀ :: data) := by
      refine ⟨fun r hr c hc => ?_, fun r hr r' hr' c hc => ?_, fun r hr c hc => ?_⟩
      · exact hnumeric c ((hall r hr).2 ▸ hc)
      · rw [(hall r' hr').2, ← (hall r hr).2]
        exact List.mem_map.mpr ⟨c, hc, rfl⟩
      · have hr' := hall r hr
        exact readable_of_inside (hr'.2.symm ▸ hin) hr'.1 hc (hnumeric c (hr'.2 ▸ hc))
    obtain ⟨q, hq, hschemaq, hsize, hlabel, hvalues⟩ :=
      fromRows_of_uniform huniform fun r hr => (hall r hr).1
    obtain rfl : q = p := Except.ok.inj (hq.symm.trans hp)
    rw [hS] at hschemaq hvalues
    refine ⟨hschemaq ▸ hin.sortByName, congrArg _ (List.ext_getElem? fun i => ?_)⟩
    rw [rows, List.map_map, List.getElem?_map, List.getElem?_map]
    by_cases hi : i < q.size
    · have hi' := hsize ▸ hi
      have hri := List.getElem?_eq_getElem hi'
      have hr := hall _ (List.getElem_mem hi')
      rw [List.getElem?_range hi, hri]
      have hwidth := rowValueSize_numeric hnumeric
      have hblock : q.block i = ((r₀ :: data)[i]).bytesOf (columnNames S) := by
        rw [block_eq hi, hschemaq, rowValueSize_sortByName, hvalues, List.flatMap_assoc]
        refine take_drop_flatMap (fun r => ?_) hri
        exact (length_bytesOf _ r).trans (by rw [length_columnNames, hwidth])
      have hitem : (PageRow.mk q i).item = ((r₀ :: data)[i]).relaid := by
        unfold PageRow.item PageRow.relaid
        dsimp only
        rw [hlabel i _ hri, hschemaq, columnNames_sortByName, hr.2]
        congr 1
        refine List.map_congr_left fun key hkey => ?_
        rw [apply_of_block hin hi hschemaq hr.2 hblock hwidth hnumeric hkey]
      exact congrArg some hitem
    · have hi' : (r₀ :: data).length ≤ i := hsize ▸ Nat.not_lt.mp hi
      rw [List.getElem?_eq_none (by rw [List.length_range]; exact Nat.not_lt.mp hi),
        List.getElem?_eq_none hi']
      rfl

/-- Packed columns are inside of the row. -/
theorem inside_of_packed (h : Packed S) : Inside S := by
  have hnumeric : ∀ c ∈ S, c.isRef = false := fun c hc => by
    rw [h c hc]
    rfl
  intro name start hc
  have hcol := h _ hc
  have hmem : name ∈ columnNames S := JavaText.mem_sorted.mpr (List.mem_map.mpr ⟨_, hc, rfl⟩)
  have hlt := List.idxOf_lt_length_iff.mpr hmem
  rw [length_columnNames] at hlt
  refine ⟨(columnNames S).idxOf name * 8, ?_, ?_⟩
  · push_cast
    exact (BaseColumn.doubleColumn.inj hcol).2
  · rw [rowValueSize_numeric hnumeric]
    omega

/-- A row with packed columns stays as it is. -/
theorem relaid_of_packed (h : Packed r.page.schema) (hr : r.row < r.page.size) :
    r.relaid = r.item := by
  unfold PageRow.relaid PageRow.item
  congr 1
  refine List.map_congr_left fun key hkey => ?_
  obtain ⟨c, hc, rfl⟩ := mem_columnNames hkey
  have hcol := h c hc
  have href : c.isRef = false := by
    rw [hcol]
    rfl
  obtain ⟨x, hx⟩ := readable_of_inside (inside_of_packed h) hr hc href
  obtain ⟨y, rfl⟩ := get_numeric href hx
  have hnumber : numberAt r c.name = y := by
    rw [numberAt, apply_of_mem hc, hx]
  have hidx := List.idxOf_lt_length_iff.mpr hkey
  have hplace : ((columnNames r.page.schema).map (numberAt r))[(columnNames r.page.schema).idxOf
      c.name]? = some y := by
    rw [List.getElem?_map, List.getElem?_eq_getElem hidx, List.getElem_idxOf, Option.map_some,
      hnumber]
  have hlength := length_bytesOf (columnNames r.page.schema) r
  have hread : c.readFrom (r.bytesOf (columnNames r.page.schema)) = .ok (.double y) := by
    have hfit : (columnNames r.page.schema).idxOf c.name * 8 + 8 ≤
        (r.bytesOf (columnNames r.page.schema)).length := by omega
    rw [hcol, ← Nat.cast_ofNat, ← Nat.cast_mul]
    rw [readFrom_eq hfit, PageRow.bytesOf, take_drop_flatMap length_doubleBytes hplace,
      longBitsToDouble_fromByteArray]
  have hcr : r.column? c.name = some c := find?_of_mem r.page.nodup hc
  rw [PageRow.relaidApply, hcr, apply_of_mem hc, hx]
  dsimp only
  rw [hread]

end Page

end ReSTM
