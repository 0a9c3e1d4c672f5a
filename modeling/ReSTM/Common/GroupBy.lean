import Mathlib.Data.List.Basic
import Mathlib.Data.List.Perm.Basic

/-!
# Groups by a key

`groupBy eq f l` collects the elements of a list whose keys are equal. The test `eq` need not be an
equivalence: a key that is not equal to itself has a group of its own for every element. The groups
stand in the order of their first elements.

* `grouped_groupBy`: what the groups are like.
-/

namespace GroupBy

variable {α κ : Type}

/-- An element is put into the first group with an equal key, or into a new one. -/
def insert (eq : κ → κ → Bool) (key : κ) (a : α) : List (κ × List α) → List (κ × List α)
  | [] => [(key, [a])]
  | g :: groups =>
    if eq g.1 key then (g.1, g.2 ++ [a]) :: groups else g :: insert eq key a groups

/-- The groups of a list. -/
def groupBy (eq : κ → κ → Bool) (f : α → κ) (l : List α) : List (κ × List α) :=
  l.foldl (fun groups a => insert eq (f a) a groups) []

/-- Every element is in one group, the keys of the groups are not equal, and a key that is not equal
    to any other one has one element only. -/
structure Grouped (eq : κ → κ → Bool) (f : α → κ) (l : List α) (groups : List (κ × List α)) :
    Prop where
  perm : (groups.flatMap Prod.snd).Perm l
  key : ∀ g ∈ groups, ∀ a ∈ g.2, f a = g.1 ∨ eq g.1 (f a) = true
  alone : ∀ g ∈ groups, (∀ k, eq g.1 k = false) → ∃ a, g.2 = [a]
  apart : (groups.map Prod.fst).Pairwise fun k k' => eq k k' = false

variable {eq : κ → κ → Bool} {f : α → κ} {key : κ} {a : α} {l : List α}
  {groups : List (κ × List α)} {g : κ × List α}

theorem insert_perm : ((insert eq key a groups).flatMap Prod.snd).Perm
    (groups.flatMap Prod.snd ++ [a]) := by
  induction groups with
  | nil => exact .refl _
  | cons g groups ih =>
    rw [insert, List.flatMap_cons]
    split_ifs
    · rw [List.flatMap_cons, List.append_assoc, List.append_assoc]
      exact List.Perm.append_left _ List.perm_append_comm
    · rw [List.flatMap_cons, List.append_assoc]
      exact ih.append_left _

theorem mem_insert (h : g ∈ insert eq key a groups) : g ∈ groups ∨ g = (key, [a]) ∨
    ∃ g' ∈ groups, eq g'.1 key = true ∧ g = (g'.1, g'.2 ++ [a]) := by
  induction groups with
  | nil => exact .inr (.inl (List.mem_singleton.mp h))
  | cons g₀ groups ih =>
    rw [insert] at h
    split_ifs at h with heq
    · rcases List.mem_cons.mp h with rfl | h
      · exact .inr (.inr ⟨g₀, List.mem_cons_self, heq, rfl⟩)
      · exact .inl (List.mem_cons_of_mem _ h)
    · rcases List.mem_cons.mp h with rfl | h
      · exact .inl List.mem_cons_self
      · rcases ih h with h | h | ⟨g', hg', heq', rfl⟩
        · exact .inl (List.mem_cons_of_mem _ h)
        · exact .inr (.inl h)
        · exact .inr (.inr ⟨g', List.mem_cons_of_mem _ hg', heq', rfl⟩)

/-- The keys stay, and there is a new one if there was no equal one. -/
theorem insert_keys (eq : κ → κ → Bool) (key : κ) (a : α) (groups : List (κ × List α)) :
    (insert eq key a groups).map Prod.fst = groups.map Prod.fst ∨
    (insert eq key a groups).map Prod.fst = groups.map Prod.fst ++ [key] ∧
      ∀ k ∈ groups.map Prod.fst, eq k key = false := by
  induction groups with
  | nil => exact .inr ⟨rfl, fun k hk => absurd hk List.not_mem_nil⟩
  | cons g groups ih =>
    rw [insert]
    split_ifs with heq
    · exact .inl rfl
    · rw [List.map_cons, List.map_cons]
      rcases ih with hkeys | ⟨hkeys, hne⟩
      · exact .inl (congrArg (g.1 :: ·) hkeys)
      · refine .inr ⟨congrArg (g.1 :: ·) hkeys, fun k hk => ?_⟩
        rcases List.mem_cons.mp hk with rfl | hk
        · exact Bool.eq_false_iff.mpr heq
        · exact hne k hk

theorem Grouped.insert (h : Grouped eq f l groups) (a : α) :
    Grouped eq f (l ++ [a]) (insert eq (f a) a groups) where
  perm := insert_perm.trans (h.perm.append_right _)
  key g hg b hb := by
    rcases mem_insert hg with hg | rfl | ⟨g', hg', heq, rfl⟩
    · exact h.key g hg b hb
    · rw [List.mem_singleton.mp hb]
      exact .inl rfl
    · rcases List.mem_append.mp hb with hb | hb
      · exact h.key g' hg' b hb
      · rw [List.mem_singleton.mp hb]
        exact .inr heq
  alone g hg halone := by
    rcases mem_insert hg with hg | rfl | ⟨g', hg', heq, rfl⟩
    · exact h.alone g hg halone
    · exact ⟨a, rfl⟩
    · rw [halone] at heq
      cases heq
  apart := by
    rcases insert_keys eq (f a) a groups with hkeys | ⟨hkeys, hne⟩ <;> rw [hkeys]
    · exact h.apart
    · refine List.pairwise_append.mpr ⟨h.apart, List.pairwise_singleton _ _, fun k hk k' hk' => ?_⟩
      rw [List.mem_singleton.mp hk']
      exact hne k hk

/-- The groups of a list are its groups. -/
theorem grouped_groupBy (eq : κ → κ → Bool) (f : α → κ) (l : List α) :
    Grouped eq f l (groupBy eq f l) := by
  have hfold : ∀ (done rest : List α) (groups : List (κ × List α)), Grouped eq f done groups →
      Grouped eq f (done ++ rest)
        (rest.foldl (fun groups a => GroupBy.insert eq (f a) a groups) groups) := by
    intro done rest
    induction rest generalizing done with
    | nil =>
      intro groups h
      rw [List.append_nil]
      exact h
    | cons a rest ih =>
      intro groups h
      have := ih (done ++ [a]) _ (h.insert a)
      rwa [List.append_assoc] at this
  refine hfold [] l [] ⟨.refl _, ?_, ?_, .nil⟩ <;> exact fun g hg => absurd hg List.not_mem_nil

end GroupBy
