import Mathlib.Algebra.Group.Int.Defs
import Mathlib.Data.List.DropRight
import Mathlib.Tactic.SplitIfs

/-!
# Text as the Java library reads and writes it

`split sep` is `String.split` for a pattern that is one character: the text is cut at
every `sep`, and empty pieces at the end are dropped unless there was no `sep` at all.
`parseInt bits` is `Long.parseLong` and `Integer.parseInt` on the ASCII digits.

* `split_intercalate`: what joined pieces are split into.
* `parseInt_repr`: a number in range is read back as it was written.
-/

namespace JavaText

/-! ## `String.split` -/

/-- Drop the empty pieces at the end. -/
def dropTrailingEmpty (pieces : List String) : List String := pieces.rdropWhile (· = "")

/-- `s.split(sep)`. -/
def split (sep : Char) (s : String) : List String :=
  if sep ∈ s.toList then dropTrailingEmpty ((s.toList.splitOn sep).map String.ofList) else [s]

variable {sep : Char} {s x : String} {pieces : List String}

theorem split_of_not_mem (h : sep ∉ s.toList) : split sep s = [s] := if_neg h

theorem dropTrailingEmpty_subset : dropTrailingEmpty pieces ⊆ pieces :=
  (List.rdropWhile_prefix _ _).subset

/-- Nothing is dropped when the last piece is not empty. -/
theorem dropTrailingEmpty_of_getLast (h : ∀ l, pieces.getLast? = some l → l ≠ "") :
    dropTrailingEmpty pieces = pieces := by
  refine List.rdropWhile_eq_self_iff.mpr fun hne => ?_
  simpa using h _ (List.getLast?_eq_some_getLast hne)

theorem not_mem_of_mem_splitOn {cs : List Char} {piece : List Char}
    (h : piece ∈ cs.splitOn sep) : sep ∉ piece := by
  induction cs generalizing piece with
  | nil =>
    rw [List.splitOn_nil, List.mem_singleton] at h
    simp [h]
  | cons c cs ih =>
    rw [List.splitOn_cons_eq_if_modifyHead] at h
    split_ifs at h with hc
    · rcases List.mem_cons.mp h with rfl | h
      · simp
      · exact ih h
    · generalize cs.splitOn sep = tail at h ih
      cases tail with
      | nil => simp at h
      | cons p tail =>
        rcases List.mem_cons.mp h with rfl | h
        · have := ih List.mem_cons_self
          simp only [beq_iff_eq] at hc
          simp [this, Ne.symm hc]
        · exact ih (List.mem_cons_of_mem _ h)

/-- No piece holds the separator. -/
theorem not_mem_of_mem_split (h : x ∈ split sep s) : sep ∉ x.toList := by
  unfold split at h
  split_ifs at h with hs
  · obtain ⟨piece, hpiece, rfl⟩ := List.mem_map.mp (dropTrailingEmpty_subset h)
    rw [String.toList_ofList]
    exact not_mem_of_mem_splitOn hpiece
  · rw [List.mem_singleton.mp h]
    exact hs

theorem splitOn_toList_intercalate (hpieces : ∀ p ∈ pieces, sep ∉ p.toList) (hne : pieces ≠ []) :
    ((((String.singleton sep).intercalate pieces).toList.splitOn sep).map String.ofList) = pieces := by
  rw [String.toList_intercalate, String.toList_singleton,
    List.splitOn_intercalate sep (by simpa using hpieces) (by simpa using hne), List.map_map]
  exact (List.map_congr_left fun p _ => String.ofList_toList).trans (List.map_id _)

theorem mem_toList_intercalate (h : 2 ≤ pieces.length) :
    sep ∈ ((String.singleton sep).intercalate pieces).toList := by
  match pieces, h with
  | p :: q :: pieces, _ => simp

/-- Two or more joined pieces come back without the empty ones at the end. -/
theorem split_intercalate (hpieces : ∀ p ∈ pieces, sep ∉ p.toList) (h : 2 ≤ pieces.length) :
    split sep ((String.singleton sep).intercalate pieces) = dropTrailingEmpty pieces := by
  have hne : pieces ≠ [] := by
    rintro rfl
    simp at h
  rw [split, if_pos (mem_toList_intercalate h), splitOn_toList_intercalate hpieces hne]

/-- Joined pieces come back as they were when the last one is not empty. -/
theorem split_intercalate_of_getLast (hpieces : ∀ p ∈ pieces, sep ∉ p.toList) (hne : pieces ≠ [])
    (hlast : ∀ l, pieces.getLast? = some l → l ≠ "") :
    split sep ((String.singleton sep).intercalate pieces) = pieces := by
  match pieces, hne with
  | [p], _ =>
    rw [String.intercalate_singleton]
    exact split_of_not_mem (hpieces p List.mem_cons_self)
  | p :: q :: pieces, _ =>
    rw [split_intercalate hpieces (by simp)]
    exact dropTrailingEmpty_of_getLast hlast

/-! ## `Long.parseLong` and `Integer.parseInt` -/

/-- The number that the digits `cs` denote. -/
def digits? (cs : List Char) : Option ℕ :=
  if cs ≠ [] ∧ cs.all Char.isDigit then some (Nat.ofDigitChars 10 cs 0) else none

/-- The number that an optional sign and digits denote. -/
def signed? : List Char → Option ℤ
  | '-' :: cs => (digits? cs).map fun n : ℕ => -(n : ℤ)
  | '+' :: cs => (digits? cs).map fun n : ℕ => (n : ℤ)
  | cs => (digits? cs).map fun n : ℕ => (n : ℤ)

/-- The values of a type of `bits` bits. -/
def Fits (bits : ℕ) (n : ℤ) : Prop := -2 ^ (bits - 1) ≤ n ∧ n < 2 ^ (bits - 1)

instance (bits : ℕ) (n : ℤ) : Decidable (Fits bits n) := inferInstanceAs (Decidable (_ ∧ _))

/-- `parseInt(s)` for a type of `bits` bits; `none` is a `NumberFormatException`. -/
def parseInt (bits : ℕ) (s : String) : Option ℤ := (signed? s.toList).filter (Fits bits ·)

theorem digits?_repr (n : ℕ) : digits? (Nat.toDigits 10 n) = some n := by
  have hdigit : (Nat.toDigits 10 n).all Char.isDigit = true := by
    rw [List.all_eq_true]
    exact fun c hc => Nat.isDigit_of_mem_toDigits (by decide) (by decide) hc
  rw [digits?, if_pos ⟨Nat.toDigits_ne_nil, hdigit⟩, Nat.ofDigitChars_ten_toDigits]

/-- The first character of a natural number is no sign. -/
theorem toDigits_head {n : ℕ} {c : Char} {cs : List Char} (h : Nat.toDigits 10 n = c :: cs) :
    c ≠ '-' ∧ c ≠ '+' := by
  have hdigit : c.isDigit = true :=
    Nat.isDigit_of_mem_toDigits (b := 10) (n := n) (by decide) (by decide) (h ▸ List.mem_cons_self)
  constructor <;> rintro rfl <;> simp at hdigit

theorem signed?_repr (n : ℤ) : signed? (Int.repr n).toList = some n := by
  cases n with
  | ofNat n =>
    show signed? (Nat.repr n).toList = _
    rw [Nat.toList_repr]
    have hdigits := digits?_repr n
    unfold signed?
    split
    · next heq => exact absurd rfl (toDigits_head heq).1
    · next heq => exact absurd rfl (toDigits_head heq).2
    · rw [hdigits]
      rfl
  | negSucc n =>
    have htext : (Int.repr (.negSucc n)).toList = '-' :: Nat.toDigits 10 (n + 1) := by
      show ("-" ++ Nat.repr (n + 1)).toList = _
      rw [String.toList_append, Nat.toList_repr]
      rfl
    rw [htext, signed?, digits?_repr]
    rfl

/-- A number in range is read back as it was written. -/
theorem parseInt_repr {bits : ℕ} {n : ℤ} (h : Fits bits n) : parseInt bits (Int.repr n) = some n := by
  rw [parseInt, signed?_repr]
  exact Option.filter_eq_some_iff.mpr ⟨rfl, by simpa using h⟩

/-- A written number holds digits and a sign only. -/
theorem mem_repr {n : ℤ} {c : Char} (h : c ∈ (Int.repr n).toList) : c = '-' ∨ c.isDigit = true := by
  cases n with
  | ofNat n =>
    change c ∈ (Nat.repr n).toList at h
    rw [Nat.toList_repr] at h
    exact .inr (Nat.isDigit_of_mem_toDigits (by decide) (by decide) h)
  | negSucc n =>
    change c ∈ ("-" ++ Nat.repr (n + 1)).toList at h
    rw [String.toList_append, Nat.toList_repr, List.mem_append] at h
    refine h.imp (fun h => ?_) fun h => Nat.isDigit_of_mem_toDigits (by decide) (by decide) h
    simpa using h

theorem repr_ne_empty (n : ℤ) : Int.repr n ≠ "" := by
  cases n with
  | ofNat n => exact Nat.repr_ne_empty
  | negSucc n =>
    show "-" ++ Nat.repr (n + 1) ≠ ""
    simp

end JavaText
