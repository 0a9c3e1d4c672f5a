import ReSTM.Clustering.Routing

/-!
# The split of a page by a rule

Model of `ClassificationTreeNode.split` on a page (`stm/clustering/ClassificationTreeNode.scala`,
lines 277–296) for any outcome of the rule on each row. `RuleData.split` is the case of a rule that
sees the values of a row only.

* `Page.split_partition`: each row is in one of the parts, which have their rows as they were.
-/

namespace ReSTM

namespace Page

/-- `eval` (lines 278–289). -/
def eval (deserializedRule : PageRow → Except Failure Bool) (item : PageRow) : Branch :=
  match deserializedRule item with
  | .ok true => .pass
  | .ok false => .fail
  | .error _ => .exception

/-- `split` (lines 277–296): the part whose rows take a branch, if there are any. -/
def split (value : Page) (deserializedRule : PageRow → Except Failure Bool) (b : Branch) :
    Except Failure (Option Page) :=
  match value.rows.filter fun r => eval deserializedRule r = b with
  | [] => return none
  | rows => return some (← value.getAll rows)

theorem split_ruleData (p : Page) (rule : RuleData) (b : Branch) :
    rule.split p b = p.split (fun r => rule.fn r.keyValue) b := rfl

/-- The rows that take a branch, in their order. -/
def taking (p : Page) (rule : PageRow → Except Failure Bool) (b : Branch) : List ℕ :=
  (List.range p.size).filter fun i => eval rule ⟨p, i⟩ = b

/-- The rows of `q` are the rows `I` of `p`, in this order: each has its label and, if the columns
    are inside of the row, its value in each column. -/
structure Lists (p : Page) (I : List ℕ) (q : Page) : Prop where
  size : q.size = I.length
  schema : q.schema = p.schema
  label : ∀ j i, I[j]? = some i → (PageRow.mk q j).label = (PageRow.mk p i).label
  value : Inside p.schema → ∀ j i, I[j]? = some i → ∀ c ∈ p.schema, c.get ⟨q, j⟩ = c.get ⟨p, i⟩

variable {p q : Page} {I : List ℕ} {i : ℕ} {rule : PageRow → Except Failure Bool} {b : Branch}

theorem Part.lists (h : Part p I q) : Lists p I q where
  size := h.size
  schema := h.schema
  label _ _ hj := h.label hj
  value hin _ _ hj _ hc := h.get hin hj hc

theorem pairwise_taking : (p.taking rule b).Pairwise (· < ·) :=
  List.pairwise_lt_range.sublist List.filter_sublist

theorem mem_taking : i ∈ p.taking rule b ↔ i < p.size ∧ eval rule ⟨p, i⟩ = b := by
  rw [taking, List.mem_filter, List.mem_range, decide_eq_true_iff]

/-- A row has one place in one part. -/
theorem existsUnique_place (rule : PageRow → Except Failure Bool) (hi : i < p.size) :
    ∃! x : Branch × ℕ, (p.taking rule x.1)[x.2]? = some i := by
  obtain ⟨j, hj⟩ := List.mem_iff_getElem?.mp (mem_taking.mpr ⟨hi, rfl⟩ :
    i ∈ p.taking rule (eval rule ⟨p, i⟩))
  refine ⟨(_, j), hj, ?_⟩
  rintro ⟨b, j'⟩ hj'
  obtain ⟨-, rfl⟩ := mem_taking.mp (List.mem_of_getElem? hj')
  have hnodup : (p.taking rule (eval rule ⟨p, i⟩)).Nodup := pairwise_taking.imp Nat.ne_of_lt
  have hlt := (List.getElem?_eq_some_iff.mp hj).1
  obtain rfl := (List.getElem?_inj hlt hnodup).mp (hj.trans hj'.symm)
  rfl

/-- The part for a branch. -/
theorem split_part (p : Page) (rule : PageRow → Except Failure Bool) (b : Branch) :
    p.taking rule b = [] ∧ p.split rule b = .ok none ∨
      ∃ q, p.split rule b = .ok (some q) ∧ Part p (p.taking rule b) q := by
  have hrows : p.rows.filter (fun r => eval rule r = b) =
      (p.taking rule b).map fun i => ⟨p, i⟩ := by
    rw [rows, List.filter_map]
    rfl
  have hmap : ((p.taking rule b).map fun i => PageRow.mk p i).map PageRow.row = p.taking rule b := by
    rw [List.map_map]
    exact List.map_id _
  have hpart := getAll_part hmap pairwise_taking fun i hi => (mem_taking.mp hi).1
  unfold split
  rw [hrows]
  cases htaking : p.taking rule b with
  | nil => exact .inl ⟨rfl, rfl⟩
  | cons i I =>
    rw [htaking] at hpart
    obtain ⟨q, hq, hpart⟩ := hpart
    refine .inr ⟨q, ?_, hpart⟩
    show (p.getAll _ >>= _) = _
    rw [hq]
    rfl

/-- Every row has its place in one part, that of its outcome. A part is a page, if it has rows, and
    lists them in their order. -/
theorem split_partition (p : Page) (rule : PageRow → Except Failure Bool) :
    (∀ i < p.size, ∃! x : Branch × ℕ, (p.taking rule x.1)[x.2]? = some i) ∧
      ∀ b, (∀ i ∈ p.taking rule b, eval rule ⟨p, i⟩ = b) ∧ (p.taking rule b).Pairwise (· < ·) ∧
        (p.taking rule b = [] ∧ p.split rule b = .ok none ∨
          ∃ q, p.split rule b = .ok (some q) ∧ Lists p (p.taking rule b) q) := by
  refine ⟨fun i hi => existsUnique_place rule hi, fun b => ⟨fun i hi => (mem_taking.mp hi).2,
    pairwise_taking, ?_⟩⟩
  rcases split_part p rule b with h | ⟨q, hq, hpart⟩
  · exact .inl h
  · exact .inr ⟨q, hq, hpart.lists⟩

/-- Two rows, and a column that starts behind the second one. -/
def farColumn : Page where
  schema := [.doubleColumn "a" 16]
  labelNames := ["spruce"]
  values := List.replicate 16 0
  refs := []
  labels := [0, 0]
  nodup := List.nodup_singleton _
  length_values := rfl
  length_refs := rfl
  labels_lt := by decide

/-- The first row can be read, but not the row of its part. -/
theorem split_farColumn : ∃ q, farColumn.split (fun r => (r.apply "a").map fun _ => true) .pass =
      .ok (some q) ∧ farColumn.taking (fun r => (r.apply "a").map fun _ => true) .pass = [0] ∧
    (∃ x, (PageRow.mk farColumn 0).apply "a" = .ok x) ∧
    (PageRow.mk q 0).apply "a" = .error arrayIndexOutOfBounds :=
  ⟨_, rfl, rfl, ⟨_, rfl⟩, rfl⟩

end Page

end ReSTM
