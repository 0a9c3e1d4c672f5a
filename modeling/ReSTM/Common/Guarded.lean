import Mathlib.Data.List.Basic

/-!
# Threads that share a guard

The threads of a program are a list of the places where they are. A step replaces one entry, or
adds a thread at the end. `Guarded p held l` says that the flag `held` is set just when one thread
is in a place of `p`, and that no other thread is then.

* `Guarded.pass`, `take`, `release`, `spawn`: what keeps it, one rule for each kind of step.
* `Guarded.holder_unique`, `exists_holder`: there is one holder, if the flag is set.
* `Guarded.filterMap`: what only the places of `p` have is what the holder has.
-/

variable {α β : Type} {p : α → Bool} {held : Bool} {l : List α} {i j : ℕ} {a b : α}

/-- As many threads are in a place of `p` as the flag says. -/
def Guarded (p : α → Bool) (held : Bool) (l : List α) : Prop := l.countP p = held.toNat

namespace Guarded

theorem countP_set (h : l[i]? = some a) (b : α) :
    (l.set i b).countP p + (p a).toNat = l.countP p + (p b).toNat := by
  induction l generalizing i with
  | nil => cases h
  | cons x l ih =>
    have hbit : ∀ c : α, (if p c = true then 1 else 0) = (p c).toNat := fun c => by
      cases p c <;> rfl
    cases i with
    | zero =>
      obtain rfl := Option.some.inj h
      rw [List.set_cons_zero, List.countP_cons, List.countP_cons, hbit, hbit]
      omega
    | succ i =>
      have := ih h
      rw [List.set_cons_succ, List.countP_cons, List.countP_cons, hbit]
      omega

/-- A thread goes on, and there is still one in a place of `p`. -/
theorem exists_set (h : l[i]? = some a) (hb : p a = true → p b = true) (hl : ∃ x ∈ l, p x = true) :
    ∃ x ∈ l.set i b, p x = true := by
  have hcount := countP_set (p := p) h b
  have hpos := List.countP_pos_iff.mpr hl
  have hle : (p a).toNat ≤ (p b).toNat := by
    cases ha : p a with
    | false => exact Nat.zero_le _
    | true => exact Nat.le_of_eq (congrArg Bool.toNat (hb ha).symm)
  exact List.countP_pos_iff.mp (by omega)

theorem countP_pos (h : l[i]? = some a) (ha : p a = true) : 0 < l.countP p :=
  List.countP_pos_iff.mpr ⟨a, List.mem_of_getElem? h, ha⟩

theorem countP_le_one (hg : Guarded p held l) : l.countP p ≤ 1 :=
  Nat.le_trans (Nat.le_of_eq hg) (Bool.toNat_le held)

/-- A thread goes on. -/
theorem pass (hg : Guarded p held l) (h : l[i]? = some a) (hb : p b = p a) :
    Guarded p held (l.set i b) := by
  have hcount := countP_set (p := p) h b
  rw [hb] at hcount
  exact (Nat.add_right_cancel hcount).trans hg

/-- A thread sets the flag. -/
theorem take (hg : Guarded p false l) (h : l[i]? = some a) (hb : p b = true) :
    Guarded p true (l.set i b) := by
  have hcount := countP_set (p := p) h b
  have hzero : l.countP p = 0 := hg
  have ha : p a = false := by
    by_contra hne
    have := countP_pos h (Bool.of_not_eq_false hne)
    omega
  rw [ha, hb, hzero] at hcount
  exact hcount

/-- The holder clears the flag. -/
theorem release (hg : Guarded p held l) (h : l[i]? = some a) (ha : p a = true) (hb : p b = false) :
    Guarded p false (l.set i b) := by
  have hcount := countP_set (p := p) h b
  have hpos := countP_pos h ha
  have hheld : l.countP p = held.toNat := hg
  have hle := Bool.toNat_le held
  rw [ha, hb] at hcount
  show (l.set i b).countP p = 0
  have hone : true.toNat = 1 := rfl
  have hzero : false.toNat = 0 := rfl
  omega

/-- A new thread starts. -/
theorem spawn (hg : Guarded p held l) (hb : p b = false) : Guarded p held (l ++ [b]) := by
  show (l ++ [b]).countP p = _
  rw [List.countP_append, List.countP_singleton, hb]
  exact hg

theorem exists_holder (hg : Guarded p true l) : ∃ a ∈ l, p a = true := by
  have hone : l.countP p = 1 := hg
  exact List.countP_pos_iff.mp (by omega)

/-- At most one place of `p` is taken. -/
theorem holder_unique (hg : Guarded p held l) (hi : l[i]? = some a) (ha : p a = true)
    (hj : l[j]? = some b) (hb : p b = true) : i = j := by
  have hle := hg.countP_le_one
  clear hg
  induction l generalizing i j with
  | nil => cases hi
  | cons x l ih =>
    rw [List.countP_cons] at hle
    cases i with
    | zero =>
      cases j with
      | zero => rfl
      | succ j =>
        have hpos := countP_pos (p := p) (l := l) hj hb
        rw [Option.some.inj hi, if_pos ha] at hle
        omega
    | succ i =>
      cases j with
      | zero =>
        have hpos := countP_pos (p := p) (l := l) hi ha
        rw [Option.some.inj hj, if_pos hb] at hle
        omega
      | succ j => rw [ih hi hj (by omega)]

/-- Every thread in a place of `p` is where the holder is. -/
theorem holder_eq (hg : Guarded p held l) (hi : l[i]? = some a) (ha : p a = true) (hb : b ∈ l)
    (hpb : p b = true) : b = a := by
  obtain ⟨j, hj⟩ := List.mem_iff_getElem?.mp hb
  obtain rfl := hg.holder_unique hi ha hj hpb
  exact Option.some.inj (hj.symm.trans hi)

/-- What no thread has outside of the places of `p` is what the holder has. -/
theorem filterMap {f : α → Option β} (hf : ∀ x, p x = false → f x = none)
    (hg : Guarded p held l) (h : l[i]? = some a) (ha : p a = true) :
    l.filterMap f = (f a).toList := by
  have hle := hg.countP_le_one
  clear hg
  induction l generalizing i with
  | nil => cases h
  | cons x l ih =>
    rw [List.countP_cons] at hle
    cases i with
    | zero =>
      obtain rfl := Option.some.inj h
      rw [if_pos ha] at hle
      have hnone : l.filterMap f = [] := by
        refine List.filterMap_eq_nil_iff.mpr fun y hy => hf y ?_
        by_contra hne
        have := List.countP_pos_iff.mpr ⟨y, hy, Bool.of_not_eq_false hne⟩
        omega
      rw [List.filterMap_cons, hnone]
      cases f x <;> rfl
    | succ i =>
      have hpos := countP_pos (p := p) (l := l) h ha
      have hx : p x = false := by
        by_contra hne
        rw [if_pos (Bool.of_not_eq_false hne)] at hle
        omega
      rw [List.filterMap_cons_none (hf x hx)]
      exact ih h (by omega)

/-- Without a holder, no thread has it. -/
theorem filterMap_free {f : α → Option β} (hf : ∀ x, p x = false → f x = none)
    (hg : Guarded p false l) : l.filterMap f = [] := by
  have hzero : l.countP p = 0 := hg
  refine List.filterMap_eq_nil_iff.mpr fun x hx => hf x ?_
  exact Bool.eq_false_iff.mpr (List.countP_eq_zero.mp hzero x hx)

/-- A thread goes on, and has what it had. -/
theorem filterMap_set {f : α → Option β} (h : l[i]? = some a) (hb : f b = f a) :
    (l.set i b).filterMap f = l.filterMap f := by
  induction l generalizing i with
  | nil => cases h
  | cons x l ih =>
    cases i with
    | zero =>
      obtain rfl := Option.some.inj h
      rw [List.set_cons_zero, List.filterMap_cons, List.filterMap_cons, hb]
    | succ i => rw [List.set_cons_succ, List.filterMap_cons, List.filterMap_cons, ih h]

end Guarded
