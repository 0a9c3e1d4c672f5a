import ReSTM.Common.JavaText
import ReSTM.Types.Failure

/-!
# Timestamps as text

The constructor `TxnTime(str)` (`storage/types/TxnTime.scala`, lines 96–100), which reads
back what `toString` writes. Cold storage and the REST interface pass timestamps in this
form. `TxnTime` is a `Long`, a `Long` and an `Int` in the source; `InRange` says so.

* `ofString_toString`: every timestamp is read back as it was written.
* `ofString_some`: what `Some` prints of it is not.
-/

namespace ReSTM

namespace TxnTime

open JavaText

/-- `str.split(":")(i)`. -/
def field (str : String) (i : ℕ) : Except Failure String :=
  match (split ':' str)[i]? with
  | some s => .ok s
  | none => .error (.runtimeException (Nat.repr i))

/-- `parseLong` and `parseInt` on a field. -/
def number (bits : ℕ) (str : String) (i : ℕ) : Except Failure ℤ := do
  let s ← field str i
  match parseInt bits s with
  | some n => .ok n
  | none => .error (.illegalArgument ("For input string: \"" ++ s ++ "\""))

/-- `new TxnTime(str)` (lines 96–100). -/
def ofString (str : String) : Except Failure TxnTime := do
  let epoch ← number 64 str 0
  let nanos ← number 64 str 1
  let pri ← number 32 str 2
  return ⟨⟨epoch, nanos⟩, pri⟩

/-- The fields are two `Long`s and an `Int`. -/
structure InRange (t : TxnTime) : Prop where
  epoch : Fits 64 t.time.epoch
  nanos : Fits 64 t.time.nanos
  priorityMs : Fits 32 t.priorityMs

instance (t : TxnTime) : Decidable t.InRange :=
  decidable_of_iff (Fits 64 t.time.epoch ∧ Fits 64 t.time.nanos ∧ Fits 32 t.priorityMs)
    ⟨fun h => ⟨h.1, h.2.1, h.2.2⟩, fun h => ⟨h.epoch, h.nanos, h.priorityMs⟩⟩

variable {t o : TxnTime}

/-- A written number holds no colon. -/
theorem colon_not_mem_repr (n : ℤ) : ':' ∉ (Int.repr n).toList := by
  intro h
  rcases mem_repr h with h | h <;> simp at h

/-- Three pieces between colons. -/
theorem split_pieces {a b c : String} (ha : ':' ∉ a.toList) (hb : ':' ∉ b.toList)
    (hc : ':' ∉ c.toList) (hne : c ≠ "") : split ':' (a ++ ":" ++ b ++ ":" ++ c) = [a, b, c] := by
  have hjoin : a ++ ":" ++ b ++ ":" ++ c = (String.singleton ':').intercalate [a, b, c] := by
    simp only [String.intercalate_cons_cons, String.intercalate_singleton, String.append_assoc]
    rfl
  rw [hjoin]
  refine split_intercalate_of_getLast ?_ (by simp) ?_
  · intro p hp
    simp only [List.mem_cons, List.not_mem_nil, or_false] at hp
    rcases hp with rfl | rfl | rfl
    · exact ha
    · exact hb
    · exact hc
  · rintro l hl rfl
    exact hne (Option.some.inj hl)

theorem split_toString (t : TxnTime) :
    split ':' t.toString = [Int.repr t.time.epoch, Int.repr t.time.nanos, Int.repr t.priorityMs] :=
  split_pieces (colon_not_mem_repr _) (colon_not_mem_repr _) (colon_not_mem_repr _)
    (repr_ne_empty _)

theorem number_eq {bits : ℕ} {str : String} {i : ℕ} {n : ℤ} (hn : Fits bits n)
    (h : (split ':' str)[i]? = some (Int.repr n)) : number bits str i = .ok n := by
  simp only [number, field, h, Except.bind, bind, parseInt_repr hn]

theorem number_none {bits : ℕ} {str s : String} {i : ℕ} (h : (split ':' str)[i]? = some s)
    (hs : parseInt bits s = none) :
    number bits str i = .error (.illegalArgument ("For input string: \"" ++ s ++ "\"")) := by
  simp only [number, field, h, Except.bind, bind, hs]

/-- Every timestamp is read back as it was written. -/
theorem ofString_toString (ht : t.InRange) : ofString t.toString = .ok t := by
  have hsplit := split_toString t
  have hepoch : number 64 t.toString 0 = .ok t.time.epoch :=
    number_eq ht.epoch (by rw [hsplit]; rfl)
  have hnanos : number 64 t.toString 1 = .ok t.time.nanos :=
    number_eq ht.nanos (by rw [hsplit]; rfl)
  have hpri : number 32 t.toString 2 = .ok t.priorityMs :=
    number_eq ht.priorityMs (by rw [hsplit]; rfl)
  simp only [ofString, hepoch, hnanos, hpri]
  rfl

theorem toString_injective (ht : t.InRange) (ho : o.InRange) (h : t.toString = o.toString) :
    t = o := by
  have := ofString_toString ht
  rw [h, ofString_toString ho] at this
  exact (Except.ok.inj this).symm

/-- A written timestamp is not empty. -/
theorem toString_ne_empty (t : TxnTime) : t.toString ≠ "" := by
  simp [toString, ExactTime.toString]

theorem number_error {bits : ℕ} {str : String} {i : ℕ} {e : Failure}
    (h : number bits str i = .error e) : e.conflict? = none := by
  unfold number field at h
  cases hs : (split ':' str)[i]? with
  | none => simp only [hs, bind, Except.bind] at h; cases h; rfl
  | some s =>
    simp only [hs, bind, Except.bind] at h
    cases hn : parseInt bits s with
    | none => rw [hn] at h; cases h; rfl
    | some n => rw [hn] at h; cases h

/-- A text that is no timestamp is no conflict. -/
theorem ofString_error {str : String} {e : Failure} (h : ofString str = .error e) :
    e.conflict? = none := by
  unfold ofString at h
  cases hepoch : number 64 str 0 with
  | error e => rw [hepoch] at h; cases h; exact number_error hepoch
  | ok epoch =>
    cases hnanos : number 64 str 1 with
    | error e => rw [hepoch, hnanos] at h; cases h; exact number_error hnanos
    | ok nanos =>
      cases hpri : number 32 str 2 with
      | error e => rw [hepoch, hnanos, hpri] at h; cases h; exact number_error hpri
      | ok pri => rw [hepoch, hnanos, hpri] at h; cases h

/-- A timestamp as `Some` prints it is not read back. -/
theorem ofString_some (t : TxnTime) :
    ∃ msg, ofString ("Some(" ++ t.toString ++ ")") = .error (.illegalArgument msg) := by
  have htext : "Some(" ++ t.toString ++ ")" =
      ("Some(" ++ Int.repr t.time.epoch) ++ ":" ++ Int.repr t.time.nanos ++ ":" ++
        (Int.repr t.priorityMs ++ ")") := by
    simp only [toString, ExactTime.toString, String.append_assoc]
  have hsplit : split ':' ("Some(" ++ t.toString ++ ")") = ["Some(" ++ Int.repr t.time.epoch,
      Int.repr t.time.nanos, Int.repr t.priorityMs ++ ")"] := by
    rw [htext]
    refine split_pieces ?_ (colon_not_mem_repr _) ?_ (by simp)
    · simp [colon_not_mem_repr]
    · simp [colon_not_mem_repr]
  have hparse : parseInt 64 ("Some(" ++ Int.repr t.time.epoch) = none := by
    have hsigned : signed? ("Some(" ++ Int.repr t.time.epoch).toList = none := by
      rw [String.toList_append]
      have hdigits : digits? ("Some(".toList ++ (Int.repr t.time.epoch).toList) = none :=
        if_neg fun h => by simp at h
      exact congrArg (Option.map fun n : ℕ => (n : ℤ)) hdigits
    rw [parseInt, hsigned]
    rfl
  refine ⟨"For input string: \"" ++ ("Some(" ++ Int.repr t.time.epoch) ++ "\"", ?_⟩
  have hnumber : number 64 ("Some(" ++ t.toString ++ ")") 0 = .error (.illegalArgument
      ("For input string: \"" ++ ("Some(" ++ Int.repr t.time.epoch) ++ "\"")) :=
    number_none (by rw [hsplit]; rfl) hparse
  rw [ofString, hnumber]
  rfl

theorem ofString_empty : ofString "" = .error (.illegalArgument "For input string: \"\"") := rfl

end TxnTime

end ReSTM
