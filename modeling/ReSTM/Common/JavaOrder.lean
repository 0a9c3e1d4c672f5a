import Mathlib.Data.List.Lex
import Mathlib.Data.List.Sort
import Mathlib.Order.Defs.LinearOrder

/-!
# Strings in the order of the Java library

`String.compareTo` compares the UTF-16 code units of two strings. `le s t` is
`s.compareTo(t) <= 0`, and `sorted` puts a list of strings in this order.

* `units_injective`: strings with the same code units are the same.
* `sorted_perm`: `sorted` changes the order only.
-/

namespace JavaText

/-- The UTF-16 code units of a character. -/
def charUnits (c : Char) : List ℕ :=
  if c.toNat < 0x10000 then [c.toNat]
  else [0xD800 + (c.toNat - 0x10000) / 0x400, 0xDC00 + (c.toNat - 0x10000) % 0x400]

/-- The UTF-16 code units of a text. -/
def units (s : String) : List ℕ := s.toList.flatMap charUnits

theorem charUnits_ne_nil (c : Char) : charUnits c ≠ [] := by
  unfold charUnits
  split_ifs <;> exact List.cons_ne_nil _ _

/-- No unit of one character is the first one of another. -/
theorem charUnits_append_inj {c d : Char} {us vs : List ℕ}
    (h : charUnits c ++ us = charUnits d ++ vs) : c = d ∧ us = vs := by
  have hc : c.toNat < 0xD800 ∨ 0xDFFF < c.toNat ∧ c.toNat < 0x110000 := c.valid
  have hd : d.toNat < 0xD800 ∨ 0xDFFF < d.toNat ∧ d.toNat < 0x110000 := d.valid
  have hinj : c.toNat = d.toNat → c = d := fun hn => Char.ext (UInt32.toNat_inj.mp hn)
  unfold charUnits at h
  split_ifs at h
  all_goals simp only [List.cons_append, List.nil_append, List.cons.injEq] at h
  · exact ⟨hinj h.1, h.2⟩
  · omega
  · omega
  · exact ⟨hinj (by omega), h.2.2⟩

theorem units_injective : Function.Injective units := by
  intro s t h
  rw [← String.toList_inj]
  unfold units at h
  generalize s.toList = cs at h ⊢
  generalize t.toList = ds at h ⊢
  induction cs generalizing ds with
  | nil =>
    cases ds with
    | nil => rfl
    | cons d ds =>
      rw [List.flatMap_nil, List.flatMap_cons] at h
      exact absurd (List.append_eq_nil_iff.mp h.symm).1 (charUnits_ne_nil d)
  | cons c cs ih =>
    cases ds with
    | nil =>
      rw [List.flatMap_nil, List.flatMap_cons] at h
      exact absurd (List.append_eq_nil_iff.mp h).1 (charUnits_ne_nil c)
    | cons d ds =>
      rw [List.flatMap_cons, List.flatMap_cons] at h
      obtain ⟨rfl, hrest⟩ := charUnits_append_inj h
      rw [ih ds hrest]

/-- `s.compareTo(t) <= 0`. -/
def le (s t : String) : Prop := units s ≤ units t

instance (s t : String) : Decidable (le s t) := inferInstanceAs (Decidable (units s ≤ units t))

instance : Std.Total le := ⟨fun s t => le_total (units s) (units t)⟩

instance : IsTrans String le := ⟨fun s t u => @le_trans _ _ (units s) (units t) (units u)⟩

instance : Std.Antisymm le := ⟨fun _ _ h h' => units_injective (le_antisymm h h')⟩

/-- `xs.sorted`. -/
def sorted (xs : List String) : List String := xs.insertionSort le

variable {xs ys : List String} {s : String}

theorem sorted_perm (xs : List String) : (sorted xs).Perm xs := List.perm_insertionSort le xs

@[simp] theorem mem_sorted : s ∈ sorted xs ↔ s ∈ xs := (sorted_perm xs).mem_iff

theorem pairwise_sorted (xs : List String) : (sorted xs).Pairwise le :=
  List.pairwise_insertionSort le xs

/-- Lists with the same strings are sorted into the same list. -/
theorem sorted_congr (h : xs.Perm ys) : sorted xs = sorted ys :=
  (((sorted_perm xs).trans h).trans (sorted_perm ys).symm).eq_of_pairwise' (pairwise_sorted xs)
    (pairwise_sorted ys)

/-- The strings up to `s` are the first ones of a list that is in order. -/
theorem take_filter_le (h : xs.Pairwise le) (s : String) :
    xs.take (xs.filter fun x => le x s).length = xs.filter fun x => le x s := by
  induction xs with
  | nil => rfl
  | cons x xs ih =>
    rw [List.pairwise_cons] at h
    by_cases hx : le x s
    · rw [List.filter_cons_of_pos (p := fun x => decide (le x s)) (decide_eq_true hx),
        List.length_cons, List.take_succ_cons, ih h.2]
    · have hnone : ∀ y ∈ x :: xs, ¬decide (le y s) = true := by
        intro y hy hys
        rcases List.mem_cons.mp hy with rfl | hy
        · exact hx (of_decide_eq_true hys)
        · exact hx (IsTrans.trans x y s (h.1 y hy) (of_decide_eq_true hys))
      rw [List.filter_eq_nil_iff.mpr hnone]
      rfl

theorem nodup_sorted (h : xs.Nodup) : (sorted xs).Nodup := (sorted_perm xs).nodup_iff.mpr h

end JavaText
