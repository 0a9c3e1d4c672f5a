import Mathlib.Data.List.Basic

/-!
# Lists cut into groups

A fold over a list collects entries as long as its group has room. A full group is emitted with the
next entry, which starts another one, and the group that is collected last is appended.

* `flatten_groups`: the groups have the entries, in their order.
* `full_of_mem_dropLast`: only the last group may have room.
* `existsUnique_place`: every entry is in one place.
-/

namespace Batching

variable {α : Type} (hasRoom : List α → Prop) [DecidablePred hasRoom]

/-- What is emitted with an entry, and what is collected then. -/
def collect (prev : List α × List α) (a : α) : List α × List α :=
  if hasRoom prev.2 then ([], prev.2 ++ [a]) else (prev.2, [a])

/-- The fold with all its states. -/
def accumulator (as : List α) : List (List α × List α) := as.scanl (collect hasRoom) ([], [])

/-- The groups that are not empty. -/
def groups (as : List α) : List (List α) :=
  ((accumulator hasRoom as).map Prod.fst ++
    [((accumulator hasRoom as).getLast?.map Prod.snd).getD []]).filter fun group => !group.isEmpty

/-- The groups from `pending` on, which is still collected. -/
def groupsFrom (pending : List α) : List α → List (List α)
  | [] => [pending]
  | a :: as =>
    if hasRoom pending then groupsFrom (pending ++ [a]) as else pending :: groupsFrom [a] as

variable {hasRoom} {as pending group : List α}
  {gs : List (List α)} {i : ℕ} {place : ℕ × ℕ}

/-- The fold from any state of it. -/
theorem filter_accumulator (hasRoom : List α → Prop) [DecidablePred hasRoom] (as : List α) (prev : List α × List α) :
    let acc := as.scanl (collect hasRoom) prev
    (acc.map Prod.fst ++ [(acc.getLast?.map Prod.snd).getD []]).filter (fun group => !group.isEmpty) =
      (prev.1 :: groupsFrom hasRoom prev.2 as).filter fun group => !group.isEmpty := by
  induction as generalizing prev with
  | nil => rfl
  | cons a as ih =>
    simp only [List.getLast?_scanl] at ih ⊢
    have hstep : ((collect hasRoom prev a).1 :: groupsFrom hasRoom (collect hasRoom prev a).2 as).filter
        (fun group => !group.isEmpty) =
          (groupsFrom hasRoom prev.2 (a :: as)).filter fun group => !group.isEmpty := by
      rw [collect, groupsFrom]
      split_ifs <;> rfl
    rw [List.scanl_cons, List.map_cons, List.cons_append, List.filter_cons, List.foldl_cons, ih,
      hstep]
    exact (List.filter_cons (p := fun group : List α => !group.isEmpty)).symm

theorem ne_nil_of_mem_groupsFrom (hpending : pending ≠ []) :
    ∀ group ∈ groupsFrom hasRoom pending as, group ≠ [] := by
  induction as generalizing pending with
  | nil =>
    intro group hgroup
    rwa [List.mem_singleton.mp hgroup]
  | cons a as ih =>
    rw [groupsFrom]
    split_ifs
    · exact ih (List.append_ne_nil_of_right_ne_nil _ (List.cons_ne_nil a []))
    · exact List.forall_mem_cons.mpr ⟨hpending, ih (List.cons_ne_nil a [])⟩

/-- The first entry starts the first group, also if there is never room. -/
theorem groups_cons (a : α) (as : List α) :
    groups hasRoom (a :: as) = groupsFrom hasRoom [a] as := by
  have hne : ∀ group ∈ groupsFrom hasRoom [a] as, (!group.isEmpty) = true := fun group hgroup => by
    have := ne_nil_of_mem_groupsFrom (List.cons_ne_nil a []) group hgroup
    rwa [Bool.not_eq_true', List.isEmpty_eq_false_iff]
  have hacc := filter_accumulator hasRoom (a :: as) ([], [])
  rw [groups, accumulator, hacc, groupsFrom]
  split_ifs <;> exact List.filter_eq_self.mpr hne

theorem flatten_groupsFrom (pending as : List α) :
    (groupsFrom hasRoom pending as).flatten = pending ++ as := by
  induction as generalizing pending with
  | nil => rw [groupsFrom, List.flatten_singleton, List.append_nil]
  | cons a as ih =>
    rw [groupsFrom]
    split_ifs
    · rw [ih, List.append_assoc, List.singleton_append]
    · rw [List.flatten_cons, ih, List.singleton_append]

/-- Nothing is lost on the way, and nothing is added. -/
theorem flatten_groups (hasRoom : List α → Prop) [DecidablePred hasRoom] (as : List α) :
    (groups hasRoom as).flatten = as := by
  cases as with
  | nil => rfl
  | cons a as => rw [groups_cons, flatten_groupsFrom, List.singleton_append]

theorem groupsFrom_ne_nil (pending as : List α) : groupsFrom hasRoom pending as ≠ [] := by
  induction as generalizing pending with
  | nil => exact List.cons_ne_nil _ _
  | cons a as ih =>
    rw [groupsFrom]
    split_ifs
    · exact ih _
    · exact List.cons_ne_nil _ _

theorem full_of_mem_groupsFrom (pending as : List α) :
    ∀ group ∈ (groupsFrom hasRoom pending as).dropLast, ¬hasRoom group := by
  induction as generalizing pending with
  | nil => exact fun group hgroup => absurd hgroup List.not_mem_nil
  | cons a as ih =>
    rw [groupsFrom]
    split_ifs with hroom
    · exact ih _
    · rw [List.dropLast_cons_of_ne_nil (groupsFrom_ne_nil _ _)]
      exact List.forall_mem_cons.mpr ⟨hroom, ih _⟩

/-- Every group but the last one was full. -/
theorem full_of_mem_dropLast (as : List α) :
    ∀ group ∈ (groups hasRoom as).dropLast, ¬hasRoom group := by
  cases as with
  | nil => exact fun group hgroup => absurd hgroup List.not_mem_nil
  | cons a as =>
    rw [groups_cons]
    exact full_of_mem_groupsFrom _ _

/-- Two conditions that agree on what is collected give the same groups. -/
theorem groupsFrom_congr {hasRoom' : List α → Prop} [DecidablePred hasRoom'] {P : List α → Prop}
    (hagree : ∀ group, P group → (hasRoom group ↔ hasRoom' group)) (hstart : ∀ a ∈ as, P [a])
    (hgrow : ∀ group, ∀ a ∈ as, P group → hasRoom group → P (group ++ [a])) (hpending : P pending) :
    groupsFrom hasRoom pending as = groupsFrom hasRoom' pending as := by
  induction as generalizing pending with
  | nil => rfl
  | cons a as ih =>
    obtain ⟨ha, has⟩ := List.forall_mem_cons.mp hstart
    have hrest := fun group b hb => hgrow group b (List.mem_cons_of_mem a hb)
    rw [groupsFrom, groupsFrom]
    by_cases hroom : hasRoom pending
    · rw [if_pos hroom, if_pos ((hagree pending hpending).mp hroom)]
      exact ih has hrest (hgrow pending a List.mem_cons_self hpending hroom)
    · rw [if_neg hroom, if_neg (mt (hagree pending hpending).mpr hroom), ih has hrest ha]

theorem groups_congr {hasRoom' : List α → Prop} [DecidablePred hasRoom'] {P : List α → Prop}
    (hagree : ∀ group, P group → (hasRoom group ↔ hasRoom' group)) (hstart : ∀ a ∈ as, P [a])
    (hgrow : ∀ group, ∀ a ∈ as, P group → hasRoom group → P (group ++ [a])) :
    groups hasRoom as = groups hasRoom' as := by
  cases as with
  | nil => rfl
  | cons a as =>
    obtain ⟨ha, has⟩ := List.forall_mem_cons.mp hstart
    rw [groups_cons, groups_cons]
    exact groupsFrom_congr hagree has
      (fun group b hb => hgrow group b (List.mem_cons_of_mem a hb)) ha

/-! ## Places -/

/-- The entry `i` of all of them is the entry `place.2` of the group `place.1`. -/
def Place (gs : List (List α)) (i : ℕ) (place : ℕ × ℕ) : Prop :=
  ∃ group, gs[place.1]? = some group ∧ place.2 < group.length ∧
    (gs.take place.1).flatten.length + place.2 = i

theorem place_cons_succ {k j : ℕ} :
    Place (group :: gs) i (k + 1, j) ↔ group.length ≤ i ∧ Place gs (i - group.length) (k, j) := by
  constructor
  · rintro ⟨other, hother, hj, hi⟩
    rw [List.take_succ_cons, List.flatten_cons, List.length_append] at hi
    exact ⟨by omega, other, hother, hj, by dsimp only at hi ⊢; omega⟩
  · rintro ⟨hle, other, hother, hj, hi⟩
    refine ⟨other, hother, hj, ?_⟩
    rw [List.take_succ_cons, List.flatten_cons, List.length_append]
    dsimp only at hi ⊢
    omega

theorem place_cons_zero {j : ℕ} : Place (group :: gs) i (0, j) ↔ j = i ∧ i < group.length := by
  constructor
  · rintro ⟨other, hother, hj, hi⟩
    obtain rfl := Option.some.inj hother
    have hji : j = i := (Nat.zero_add j).symm.trans hi
    exact ⟨hji, hji ▸ hj⟩
  · rintro ⟨rfl, hlt⟩
    exact ⟨group, rfl, hlt, Nat.zero_add j⟩

/-- Every entry has a place, and no other. -/
theorem existsUnique_place (hi : i < gs.flatten.length) : ∃! place, Place gs i place := by
  induction gs generalizing i with
  | nil => exact absurd hi (Nat.not_lt_zero i)
  | cons group gs ih =>
    rw [List.flatten_cons, List.length_append] at hi
    by_cases hlt : i < group.length
    · refine ⟨(0, i), place_cons_zero.mpr ⟨rfl, hlt⟩, fun place hplace => ?_⟩
      obtain ⟨k, j⟩ := place
      cases k with
      | zero => rw [(place_cons_zero.mp hplace).1]
      | succ k => exact absurd hlt (Nat.not_lt.mpr (place_cons_succ.mp hplace).1)
    · obtain ⟨⟨k, j⟩, hplace, hunique⟩ := ih (i := i - group.length) (by omega)
      refine ⟨(k + 1, j), place_cons_succ.mpr ⟨Nat.not_lt.mp hlt, hplace⟩, fun place hplace' => ?_⟩
      obtain ⟨k', j'⟩ := place
      cases k' with
      | zero => exact absurd (place_cons_zero.mp hplace').2 hlt
      | succ k' =>
        have heq := hunique (k', j') (place_cons_succ.mp hplace').2
        rw [(Prod.mk.inj heq).1, (Prod.mk.inj heq).2]

/-- What is there is the entry. -/
theorem Place.getElem? (h : Place gs i place) :
    (gs[place.1]?.bind fun group => group[place.2]?) = gs.flatten[i]? := by
  obtain ⟨k, j⟩ := place
  induction gs generalizing i k with
  | nil =>
    obtain ⟨group, hgroup, -⟩ := h
    cases hgroup
  | cons group gs ih =>
    cases k with
    | zero =>
      obtain ⟨rfl, hlt⟩ := place_cons_zero.mp h
      rw [List.flatten_cons, List.getElem?_append_left hlt]
      rfl
    | succ k =>
      obtain ⟨hle, hrest⟩ := place_cons_succ.mp h
      rw [List.flatten_cons, List.getElem?_append_right hle, ← ih k hrest]
      rfl

end Batching
