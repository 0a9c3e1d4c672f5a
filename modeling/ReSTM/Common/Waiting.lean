import Mathlib.Data.Finset.Card
import Mathlib.Data.Set.Finite.Basic
import Mathlib.Logic.Relation

/-!
# Who waits for whom

A relation `r a b`, read as "`a` waits for `b`", that only leads into a finite set. A thing that
waits does so, in the end, for one that does not wait, or for itself.

* `exists_rank`: without cycles, every step of waiting lowers a number.
* `exists_end_or_cycle`: the end of the waiting, or a cycle.
* `acyclic_from`, `not_reachesCycle_of_acc`: who waits for no cycle.
* `Acyclic.insert`: one thing starts to wait for others that do not wait for it.
-/

open Relation

universe u

variable {α : Type u} {r r' : α → α → Prop} {a b t : α}

/-- Nothing waits for itself. -/
def Acyclic (r : α → α → Prop) : Prop := ∀ a, ¬TransGen r a a

theorem Acyclic.mono (h : Acyclic r) (hr : ∀ a b, r' a b → r a b) : Acyclic r' :=
  fun a ha => h a (TransGen.mono hr a a ha)

/-- The rank of a thing is the number of things that it waits for. -/
theorem Acyclic.exists_rank (h : Acyclic r) {S : Finset α} (hS : ∀ a b, r a b → b ∈ S) :
    ∃ rank : α → ℕ, (∀ a b, r a b → rank b < rank a) ∧ ∀ a, rank a ≤ S.card := by
  classical
  refine ⟨fun a => (S.filter (TransGen r a)).card, fun a b hab => ?_, fun a => Finset.card_filter_le _ _⟩
  refine Finset.card_lt_card ⟨fun c hc => ?_, fun hsub => ?_⟩
  · obtain ⟨hmem, hbc⟩ := Finset.mem_filter.mp hc
    exact Finset.mem_filter.mpr ⟨hmem, .head hab hbc⟩
  · have hb := hsub (Finset.mem_filter.mpr ⟨hS a b hab, .single hab⟩)
    exact h b (Finset.mem_filter.mp hb).2

/-- Who waits for no cycle waits for something that does not wait. -/
theorem Acyclic.exists_end (h : Acyclic r) {S : Finset α} (hS : ∀ a b, r a b → b ∈ S) (a : α) :
    ∃ b, ReflTransGen r a b ∧ ∀ c, ¬r b c := by
  obtain ⟨rank, hrank, -⟩ := h.exists_rank hS
  induction hn : rank a using Nat.strong_induction_on generalizing a with
  | _ n ih =>
    by_cases hend : ∃ c, r a c
    · obtain ⟨c, hac⟩ := hend
      obtain ⟨b, hcb, hb⟩ := ih (rank c) (hn ▸ hrank a c hac) c rfl
      exact ⟨b, .head hac hcb, hb⟩
    · exact ⟨a, .refl, fun c hc => hend ⟨c, hc⟩⟩

/-- The waiting that starts with `a`. -/
def From (r : α → α → Prop) (a : α) : α → α → Prop := fun x y => ReflTransGen r a x ∧ r x y

/-- What starts with `a` waits for a cycle. -/
def ReachesCycle (r : α → α → Prop) (a : α) : Prop := ∃ b, ReflTransGen r a b ∧ TransGen r b b

theorem acyclic_from (h : ¬ReachesCycle r a) : Acyclic (From r a) := by
  intro x hx
  obtain ⟨y, hxy, -⟩ := TransGen.head'_iff.mp hx
  exact h ⟨x, hxy.1, TransGen.mono (fun _ _ h => h.2) x x hx⟩

theorem exists_end_or_cycle {S : Finset α} (hS : ∀ a b, r a b → b ∈ S) (a : α) :
    (∃ b, ReflTransGen r a b ∧ ∀ c, ¬r b c) ∨ ReachesCycle r a := by
  by_cases hcycle : ReachesCycle r a
  · exact .inr hcycle
  obtain ⟨b, hab, hb⟩ := (acyclic_from hcycle).exists_end (fun x y h => hS x y h.2) a
  have hab : ReflTransGen r a b := ReflTransGen.mono (fun _ _ h => h.2) a b hab
  exact .inl ⟨b, hab, fun c hc => hb c ⟨hab, hc⟩⟩

/-- What can be taken apart by following `r` to its ends does not wait for a cycle. -/
theorem not_reachesCycle_of_acc (h : Acc (fun b a => r a b) a) : ¬ReachesCycle r a := by
  induction h with
  | intro a _ ih =>
    rintro ⟨b, hab, hbb⟩
    rcases ReflTransGen.cases_head hab with rfl | ⟨c, hac, hcb⟩
    · obtain ⟨c, hac, hca⟩ := TransGen.head'_iff.mp hbb
      exact ih c hac ⟨a, hca, hbb⟩
    · exact ih c hac ⟨b, hcb, hbb⟩

/-- What has changed when only `t` waits for more than before. -/
theorem transGen_insert {l : α → Prop} (hr : ∀ a b, r' a b → r a b ∨ a = t ∧ l b)
    (h : TransGen r' a b) :
    TransGen r a b ∨ ReflTransGen r a t ∧ ∃ c, l c ∧ ReflTransGen r c b := by
  induction h with
  | single h =>
    rcases hr _ _ h with h | ⟨rfl, hl⟩
    · exact .inl (.single h)
    · exact .inr ⟨.refl, _, hl, .refl⟩
  | tail _ h ih =>
    rcases hr _ _ h with h | ⟨rfl, hl⟩
    · rcases ih with ih | ⟨hat, c, hc, hcb⟩
      · exact .inl (ih.tail h)
      · exact .inr ⟨hat, c, hc, hcb.tail h⟩
    · refine .inr ⟨?_, _, hl, .refl⟩
      rcases ih with ih | ⟨hat, -⟩
      · exact ih.to_reflTransGen
      · exact hat

theorem Acyclic.insert (h : Acyclic r) {l : α → Prop} (hr : ∀ a b, r' a b → r a b ∨ a = t ∧ l b)
    (hl : ∀ c, l c → ¬ReflTransGen r c t) : Acyclic r' := by
  intro a ha
  rcases transGen_insert hr ha with hcycle | ⟨hat, c, hc, hca⟩
  · exact h a hcycle
  · exact hl c hc (hca.trans hat)
