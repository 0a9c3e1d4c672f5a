import Mathlib.Data.List.Basic

/-!
# Rows laid out one after the other

A list of blocks of the same length is flattened, and a block or a place in it is found again by
its offset. The blocks may be computed by programs that fail.

* `getElem?_flatMap`, `take_drop_flatMap`: what stands at an offset.
* `mapM_ok`, `mapM_error`, `mapM_mapM_error`: when the blocks are computed.
-/

namespace Layout

universe u v

variable {α β : Type u} {f : α → List β} {n : ℕ}

theorem length_flatMap_of (hf : ∀ x, (f x).length = n) (xs : List α) :
    (xs.flatMap f).length = xs.length * n := by
  induction xs with
  | nil => exact (Nat.zero_mul n).symm
  | cons x xs ih =>
    rw [List.flatMap_cons, List.length_append, hf, ih, List.length_cons, Nat.succ_mul, Nat.add_comm]

theorem drop_flatMap (hf : ∀ x, (f x).length = n) (xs : List α) (i : ℕ) :
    (xs.flatMap f).drop (i * n) = (xs.drop i).flatMap f := by
  induction xs generalizing i with
  | nil => simp
  | cons x xs ih =>
    cases i with
    | zero => simp
    | succ i =>
      rw [List.flatMap_cons, Nat.succ_mul, Nat.add_comm, ← List.drop_drop, List.drop_succ_cons,
        ← ih]
      congr 1
      rw [List.drop_append_of_le_length (Nat.le_of_eq (hf x).symm),
        List.drop_eq_nil_of_le (Nat.le_of_eq (hf x)),
        List.nil_append]

/-- The block at an offset. -/
theorem take_drop_flatMap (hf : ∀ x, (f x).length = n) {xs : List α} {i : ℕ} {x : α}
    (hx : xs[i]? = some x) : ((xs.flatMap f).drop (i * n)).take n = f x := by
  obtain ⟨hi, rfl⟩ := List.getElem?_eq_some_iff.mp hx
  rw [drop_flatMap hf, List.drop_eq_getElem_cons hi, List.flatMap_cons,
    List.take_append_of_le_length (Nat.le_of_eq (hf _).symm),
    List.take_of_length_le (Nat.le_of_eq (hf _))]

/-- A place in the block at an offset. -/
theorem getElem?_flatMap (hf : ∀ x, (f x).length = n) {xs : List α} {i j : ℕ} {x : α}
    (hx : xs[i]? = some x) (hj : j < n) : (xs.flatMap f)[i * n + j]? = (f x)[j]? := by
  rw [← List.getElem?_drop, ← take_drop_flatMap hf hx, List.getElem?_take_of_lt hj]

/-! ## Computed lists -/

variable {ε : Type v} {g : α → Except ε β} {k : α → β}

theorem mapM_ok {xs : List α} (h : ∀ x ∈ xs, g x = .ok (k x)) : xs.mapM g = .ok (xs.map k) := by
  induction xs with
  | nil => rfl
  | cons x xs ih =>
    rw [List.mapM_cons, h x List.mem_cons_self, ih fun y hy => h y (List.mem_cons_of_mem _ hy)]
    rfl

theorem mapM_error {xs : List α} {x : α} {e : ε} (hx : x ∈ xs) (he : g x = .error e) :
    ∃ e', xs.mapM g = .error e' := by
  induction xs with
  | nil => cases hx
  | cons y ys ih =>
    rw [List.mapM_cons]
    cases hy : g y with
    | error e' => exact ⟨e', rfl⟩
    | ok b =>
      rcases List.mem_cons.mp hx with rfl | hx
      · rw [he] at hy
        cases hy
      · obtain ⟨e', he'⟩ := ih hx
        rw [he']
        exact ⟨e', rfl⟩

/-- One failure in a table of blocks. -/
theorem mapM_mapM_error {γ : Type u} {f : α → γ → Except ε β} {rows : List α} {cols : List γ}
    {r : α} {c : γ} {e : ε}
    (hr : r ∈ rows) (hc : c ∈ cols) (he : f r c = .error e) :
    ∃ e', (rows.mapM fun r => cols.mapM (f r)) = .error e' := by
  obtain ⟨e', he'⟩ := mapM_error hc he
  exact mapM_error hr he'

theorem mapM_cons_ok {x : α} {xs : List α} {ys : List β} (h : (x :: xs).mapM g = .ok ys) :
    ∃ y ys', g x = .ok y ∧ xs.mapM g = .ok ys' ∧ ys = y :: ys' := by
  rw [List.mapM_cons] at h
  cases hx : g x with
  | error e =>
    rw [hx] at h
    cases h
  | ok y =>
    rw [hx] at h
    cases hxs : xs.mapM g with
    | error e =>
      rw [hxs] at h
      cases h
    | ok ys' =>
      rw [hxs] at h
      cases h
      exact ⟨y, ys', rfl, rfl, rfl⟩

theorem mapM_mem {xs : List α} {ys : List β} {x : α} (h : xs.mapM g = .ok ys) (hx : x ∈ xs) :
    ∃ y ∈ ys, g x = .ok y := by
  induction xs generalizing ys with
  | nil => cases hx
  | cons a xs ih =>
    obtain ⟨y, ys', hy, hys', rfl⟩ := mapM_cons_ok h
    rcases List.mem_cons.mp hx with rfl | hx
    · exact ⟨y, List.mem_cons_self, hy⟩
    · obtain ⟨z, hz, hzx⟩ := ih hys' hx
      exact ⟨z, List.mem_cons_of_mem _ hz, hzx⟩

end Layout
