import Mathlib.Data.List.Pairwise

/-!
# The last entry that satisfies a test

`lastWhere p l` is the entry of `l` at its last index that satisfies `p`. It
depends on the entries that satisfy `p` only, and in a list sorted by a key it
has the largest key among them. `lastValue f d l` is what the last entry of `l`
shows.

* `lastValue_filter_eq_iff`: when entries may be dropped without changing that.
-/

namespace LastWhere

universe u

variable {α : Type u} {p : α → Bool} {l : List α} {x : α}

/-- The last entry of `l` that satisfies `p`. -/
def lastWhere (p : α → Bool) (l : List α) : Option α := (l.filter p).getLast?

theorem lastWhere_congr {l' : List α} (h : l.filter p = l'.filter p) :
    lastWhere p l = lastWhere p l' := by
  rw [lastWhere, h, lastWhere]

theorem lastWhere_eq_none_iff : lastWhere p l = none ↔ ∀ y ∈ l, p y = false := by
  simp [lastWhere]

theorem mem_of_lastWhere (h : lastWhere p l = some x) : x ∈ l ∧ p x = true :=
  List.mem_filter.mp (List.mem_of_getLast? h)

/-- In a sorted list nothing that satisfies `p` exceeds the last such entry. -/
theorem le_lastWhere {r : α → α → Prop} (hrefl : ∀ y, r y y) (hl : l.Pairwise r)
    (h : lastWhere p l = some x) {y : α} (hy : y ∈ l) (hp : p y = true) : r y x := by
  obtain ⟨ys, hys⟩ := List.getLast?_eq_some_iff.mp h
  have hsorted := hl.filter p
  have hmem : y ∈ ys ++ [x] := hys ▸ List.mem_filter.mpr ⟨hy, hp⟩
  rw [hys, List.pairwise_append] at hsorted
  rcases List.mem_append.mp hmem with hy' | hy'
  · exact hsorted.2.2 y hy' x (List.mem_singleton_self x)
  · rw [List.mem_singleton.mp hy']; exact hrefl x

/-! ## What the last entry shows -/

variable {β : Type u} {f : α → β} {d : β}

/-- What the last entry of `l` shows, `d` if there is none. -/
def lastValue (f : α → β) (d : β) (l : List α) : β := (l.getLast?.map f).getD d

@[simp] theorem lastValue_nil : lastValue f d [] = d := rfl

@[simp] theorem lastValue_concat (ys : List α) (y : α) : lastValue f d (ys ++ [y]) = f y := by
  rw [lastValue, List.getLast?_concat]
  rfl

theorem lastValue_append_cons (xs ys : List α) (y : α) :
    lastValue f d (xs ++ y :: ys) = lastValue f (f y) ys := by
  rw [lastValue, lastValue, List.getLast?_append, List.getLast?_cons]
  cases ys.getLast? <;> rfl

/-- Without the entries that do not satisfy `p` the last one shows the same, unless it is
    dropped itself and the last that remains shows something else. -/
theorem lastValue_filter_eq_iff : lastValue f d (l.filter p) = lastValue f d l ↔
    ∀ ys y, l = ys ++ [y] → p y = false → f y = lastValue f d (ys.filter p) := by
  rcases l.eq_nil_or_concat with rfl | ⟨xs, x, rfl⟩
  · exact iff_of_true rfl fun ys y h _ => by simp at h
  · rw [List.concat_eq_append, List.filter_append, lastValue_concat]
    cases hx : p x with
    | true =>
      have hkeep : [x].filter p = [x] := by simp [hx]
      rw [hkeep, lastValue_concat]
      refine iff_of_true rfl fun ys y h hy => ?_
      obtain ⟨-, hlast⟩ := List.append_inj' h rfl
      cases hlast
      rw [hx] at hy
      cases hy
    | false =>
      have hdrop : [x].filter p = [] := by simp [hx]
      rw [hdrop, List.append_nil]
      constructor
      · intro h ys y hl _
        obtain ⟨rfl, hlast⟩ := List.append_inj' hl rfl
        cases hlast
        exact h.symm
      · intro h
        exact (h xs x rfl hx).symm

end LastWhere
