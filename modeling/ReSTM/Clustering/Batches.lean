import ReSTM.Clustering.Buffers

/-!
# Batches of any page size

Model of the regrouping of pages in `ClassificationTreeNode.split`
(`stm/clustering/ClassificationTreeNode.scala`, lines 536–544 and 572–580) for any `pageSize`. The
rows of a group are counted in an `Int`, which wraps around.

* `Batches.regrouped`: the groups have every page once, in its order, and only the last of them may
  have less rows than `pageSize`.
* `Batches.groups_eq_batches`: they are the batches of a split, if no count overflows.
-/

namespace ReSTM.Batches

/-- `prev._2.map(_.size).sum` (lines 538 and 574). -/
def rowCount (pages : List Page) : Int32 :=
  (pages.map fun page => Int32.ofNat page.size).foldl (· + ·) 0

/-- `pageAccumulator` (lines 537–543 and 573–579). -/
def pageAccumulator (pageSize : Int32) (pages : List Page) : List (List Page × List Page) :=
  pages.scanl (fun prev page =>
    if rowCount prev.2 < pageSize then ([], prev.2 ++ [page]) else (prev.2, [page])) ([], [])

/-- The lists of pages of which `pages` are the unions (lines 544 and 580). -/
def groups (pageSize : Int32) (pages : List Page) : List (List Page) :=
  ((pageAccumulator pageSize pages).map Prod.fst ++
    [((pageAccumulator pageSize pages).getLast?.map Prod.snd).getD []]).filter
      fun group => !group.isEmpty

variable {pageSize : Int32} {pages group : List Page}

theorem rowCount_eq (pages : List Page) :
    rowCount pages = Int32.ofNat (pages.map Page.size).sum := by
  have hfold : ∀ n : ℕ, (pages.map fun page => Int32.ofNat page.size).foldl (· + ·) (Int32.ofNat n) =
      Int32.ofNat (n + (pages.map Page.size).sum) := by
    induction pages with
    | nil => exact fun n => rfl
    | cons page pages ih =>
      intro n
      rw [List.map_cons, List.foldl_cons, ← Int32.ofNat_add, ih, List.map_cons, List.sum_cons,
        Nat.add_assoc]
  rw [rowCount]
  exact (hfold 0).trans (by rw [Nat.zero_add])

/-- A count that wraps around is too small. -/
theorem rowCount_le (pages : List Page) : (rowCount pages).toInt ≤ (pages.map Page.size).sum := by
  rw [rowCount_eq, Int32.toInt_ofNat', Int.bmod_def, ← Int.natCast_emod]
  have hmod := Nat.mod_le (pages.map Page.size).sum Int32.size
  split_ifs <;> omega

/-- The groups are those of a condition on their rows. -/
theorem groups_eq (pageSize : Int32) (pages : List Page) :
    groups pageSize pages = Batching.groups (fun group => rowCount group < pageSize) pages := rfl

/-- The groups have all pages in their order, each of them in one place, and all groups but the
    last one have enough rows. -/
theorem regrouped (pageSize : Int32) (pages : List Page) :
    (groups pageSize pages).flatten = pages ∧
    (∀ i < pages.length, ∃! place : ℕ × ℕ, Batching.Place (groups pageSize pages) i place ∧
      ((groups pageSize pages)[place.1]?.bind fun group => group[place.2]?) = pages[i]?) ∧
    ∀ group ∈ (groups pageSize pages).dropLast, pageSize.toInt ≤ (group.map Page.size).sum := by
  have hflatten : (groups pageSize pages).flatten = pages := by
    rw [groups_eq]
    exact Batching.flatten_groups _ pages
  refine ⟨hflatten, fun i hi => ?_, fun group hgroup => ?_⟩
  · rw [← hflatten] at hi
    obtain ⟨place, hplace, hunique⟩ := Batching.existsUnique_place hi
    refine ⟨place, ⟨hplace, ?_⟩, fun other hother => hunique other hother.1⟩
    rw [hplace.getElem?, hflatten]
  · rw [groups_eq] at hgroup
    have hfull : ¬rowCount group < pageSize := Batching.full_of_mem_dropLast pages group hgroup
    rw [Int32.lt_iff_toInt_lt, Int.not_lt] at hfull
    exact Int.le_trans hfull (rowCount_le group)

/-- As long as the counts fit in an `Int`, the groups of the page size of a split are its
    batches. -/
theorem groups_eq_batches (h : ∀ page ∈ pages, page.size + ReSTM.pageSize ≤ 2 ^ 31) :
    groups 128 pages = batches pages := by
  have hroom : ∀ group : List Page, (group.map Page.size).sum < 2 ^ 31 →
      (rowCount group < 128 ↔ (group.map Page.size).sum < ReSTM.pageSize) := fun group hsum => by
    rw [Int32.lt_iff_toInt_lt, rowCount_eq, Int32.toInt_ofNat_of_lt hsum]
    exact Int.ofNat_lt
  rw [groups_eq, batches_eq]
  refine Batching.groups_congr hroom (fun page hpage => ?_) fun group page hpage hsum hless => ?_
  · have := h page hpage
    rw [List.map_singleton, List.sum_singleton]
    exact Nat.lt_of_lt_of_le (Nat.lt_add_of_pos_right (by decide)) this
  · have := h page hpage
    have hlt := (hroom group hsum).mp hless
    rw [List.map_append, List.sum_append, List.map_singleton, List.sum_singleton]
    omega

end ReSTM.Batches
