import Mathlib.Algebra.Order.Group.Multiset
import Mathlib.Data.Multiset.Sort

/-!
# Merging sorted sources through cursors

Sources `S` hold sorted lists, which are drained from the front. A cursor is a value that was taken
from a source, with the source; a value of no source has a cursor of its own. `todo` are the sources
of which no cursor was taken yet. The least cursor is selected and its source read again, until
there are no cursors.

* `Selects`: what has been selected, and what is left.
* `Cursors`: the invariant of the sources and the cursors.
* `Cursors.read_cons`, `Cursors.read_nil`, `Cursors.select`: the steps.
* `Cursors.le_pending`: the least cursor is the least of all values that are left.
-/

namespace KWayMerge

universe u v

variable {α : Type u} {ι : Type v}

/-! ## What is left -/

/-- The values that are left in the sources and in the cursors. -/
def pending (cont : ι → List α) (S : List ι) (K : List (α × Option ι)) : Multiset α :=
  ↑(K.map Prod.fst) + ↑(S.flatMap cont)

section Pending

variable {cont cont' : ι → List α} {S : List ι} {K : List (α × Option ι)} {p : ι} {x v : α}
  {xs : List α} {o : Option ι}

theorem pending_congr (h : ∀ p ∈ S, cont' p = cont p) : pending cont' S K = pending cont S K := by
  rw [pending, pending, List.flatMap_congr h]

theorem card_pending : (pending cont S K).card = K.length + (S.flatMap cont).length := by
  rw [pending, Multiset.card_add, Multiset.coe_card, Multiset.coe_card, List.length_map]

/-- What is in the cursors, or was taken from the sources, is not left in the sources. -/
theorem pending_mono (h : ∀ p ∈ S, (cont' p).Sublist (cont p)) :
    pending cont' S [] ≤ pending cont S K := by
  have hsub : ∀ S : List ι, (∀ p ∈ S, (cont' p).Sublist (cont p)) →
      (S.flatMap cont').Sublist (S.flatMap cont) := by
    intro S hS
    induction S with
    | nil => exact .slnil
    | cons p S ih =>
      rw [List.flatMap_cons, List.flatMap_cons]
      exact (hS p List.mem_cons_self).append (ih fun q hq => hS q (List.mem_cons_of_mem p hq))
  rw [pending, pending, List.map_nil, Multiset.coe_nil, zero_add]
  exact (Multiset.coe_le.mpr (hsub S h).subperm).trans (Multiset.le_add_left _ _)

theorem pending_concat : pending cont S (K ++ [(v, o)]) = v ::ₘ pending cont S K := by
  rw [pending, pending, List.map_append, ← Multiset.coe_add, add_right_comm, add_comm,
    List.map_singleton, Multiset.coe_singleton, Multiset.singleton_add]

variable [DecidableEq ι]

/-- Reading a source moves a value to a cursor. -/
theorem pending_read (hS : S.Nodup) (hpS : p ∈ S) (hp : cont p = x :: xs) :
    pending (Function.update cont p xs) S (K ++ [(x, some p)]) = pending cont S K := by
  have hperm := List.perm_cons_erase hpS
  have hrest : ∀ q ∈ S.erase p, Function.update cont p xs q = cont q := fun q hq =>
    Function.update_of_ne ((List.Nodup.mem_erase_iff hS).mp hq).1 _ _
  have hbefore : (S.flatMap cont).Perm (x :: xs ++ (S.erase p).flatMap cont) := by
    rw [← hp]
    exact hperm.flatMap_right cont
  have hafter : (S.flatMap (Function.update cont p xs)).Perm (xs ++ (S.erase p).flatMap cont) := by
    have := hperm.flatMap_right (Function.update cont p xs)
    rwa [List.flatMap_cons, Function.update_self, List.flatMap_congr hrest] at this
  rw [pending_concat, pending, pending, Multiset.coe_eq_coe.mpr hbefore,
    Multiset.coe_eq_coe.mpr hafter, List.cons_append, ← Multiset.cons_coe, Multiset.add_cons]

/-- A selected cursor is no longer pending. -/
theorem pending_select (hK : (K.map Prod.snd).Nodup) (hmem : (x, o) ∈ K) :
    pending cont S K = x ::ₘ pending cont S (K.filter (·.2 ≠ o)) := by
  classical
  have hperm : K.Perm ((x, o) :: K.filter (·.2 ≠ o)) := by
    have herase := List.perm_cons_erase hmem
    refine herase.trans (List.Perm.cons _ ?_)
    have hnodup : (K.erase (x, o) |>.map Prod.snd).Nodup ∧ o ∉ (K.erase (x, o)).map Prod.snd := by
      have := (herase.map Prod.snd).nodup_iff.mp hK
      rw [List.map_cons, List.nodup_cons] at this
      exact ⟨this.2, this.1⟩
    have hfilter : (K.erase (x, o)).filter (·.2 ≠ o) = K.erase (x, o) :=
      List.filter_eq_self.mpr fun b hb => decide_eq_true fun heq =>
        hnodup.2 (List.mem_map.mpr ⟨b, hb, heq⟩)
    have hcons : ((x, o) :: K.erase (x, o)).filter (·.2 ≠ o) = K.erase (x, o) := by
      rw [List.filter_cons_of_neg (by simp), hfilter]
    rw [← hcons]
    exact (herase.filter _).symm
  rw [pending, pending, Multiset.coe_eq_coe.mpr (hperm.map Prod.fst), List.map_cons,
    ← Multiset.cons_coe, Multiset.cons_add]

end Pending

variable [LinearOrder α]

/-! ## What has been selected -/

/-- `out` is selected from `all` in order, and `pending` is left. -/
structure Selects (out : List α) (pending all : Multiset α) : Prop where
  sorted : out.Pairwise (· ≤ ·)
  le : ∀ x ∈ out, ∀ y ∈ pending, x ≤ y
  total : ↑out + pending = all

namespace Selects

variable {out : List α} {pending all : Multiset α} {x : α}

theorem nil : Selects [] all all := by
  refine ⟨List.Pairwise.nil, fun x hx => ?_, ?_⟩
  · cases hx
  · rw [Multiset.coe_nil, zero_add]

/-- A least value is selected. -/
theorem step (h : Selects out (x ::ₘ pending) all) (hx : ∀ y ∈ pending, x ≤ y) :
    Selects (out ++ [x]) pending all where
  sorted := by
    refine List.pairwise_append.mpr ⟨h.sorted, List.pairwise_singleton _ _, fun y hy z hz => ?_⟩
    rw [List.mem_singleton.mp hz]
    exact h.le y hy x (Multiset.mem_cons_self x pending)
  le y hy z hz := by
    rcases List.mem_append.mp hy with hy | hy
    · exact h.le y hy z (Multiset.mem_cons_of_mem hz)
    · rw [List.mem_singleton.mp hy]
      exact hx z hz
  total := by
    rw [← h.total, ← Multiset.coe_add, Multiset.coe_singleton, add_assoc, Multiset.singleton_add]

/-- When nothing is left, what was selected is sorted. -/
theorem eq_sort (h : Selects out 0 all) : out = all.sort := by
  rw [← h.total, add_zero, Multiset.coe_sort]
  exact (List.mergeSort_of_pairwise (by simpa using h.sorted)).symm

end Selects

/-! ## The cursors -/

/-- Sources are sorted, and a cursor is not above what is left in its source. A source without a
    cursor is empty, or no cursor of it was taken yet. -/
structure Cursors (cont : ι → List α) (S todo : List ι) (K : List (α × Option ι)) : Prop where
  sources : S.Nodup
  sorted : ∀ p ∈ S, (cont p).Pairwise (· ≤ ·)
  keys : (K.map Prod.snd).Nodup
  least : ∀ x p, (x, some p) ∈ K → p ∈ S ∧ ∀ y ∈ cont p, x ≤ y
  drained : ∀ p ∈ S, p ∉ todo → some p ∉ K.map Prod.snd → cont p = []
  todo_nodup : todo.Nodup
  todo_mem : ∀ p ∈ todo, p ∈ S ∧ some p ∉ K.map Prod.snd

variable {cont cont' : ι → List α} {S todo : List ι} {K : List (α × Option ι)} {p : ι} {x v : α}
  {xs : List α} {o : Option ι}

/-- Before the first cursor is taken. -/
theorem Cursors.start (hS : S.Nodup) (hsorted : ∀ p ∈ S, (cont p).Pairwise (· ≤ ·)) :
    Cursors cont S S [] where
  sources := hS
  sorted := hsorted
  keys := List.nodup_nil
  least x p h := by cases h
  drained p hp htodo _ := absurd hp htodo
  todo_nodup := hS
  todo_mem p hp := ⟨hp, List.not_mem_nil⟩

/-- Only the values of the sources matter. -/
theorem Cursors.congr (hK : Cursors cont S todo K) (h : ∀ p ∈ S, cont' p = cont p) :
    Cursors cont' S todo K where
  sources := hK.sources
  sorted p hp := h p hp ▸ hK.sorted p hp
  keys := hK.keys
  least x p hx := by
    obtain ⟨hp, hle⟩ := hK.least x p hx
    exact ⟨hp, h p hp ▸ hle⟩
  drained p hp htodo hkey := h p hp ▸ hK.drained p hp htodo hkey
  todo_nodup := hK.todo_nodup
  todo_mem := hK.todo_mem

/-- A value of no source gets a cursor. -/
theorem Cursors.own (hK : Cursors cont S todo K) (hnone : none ∉ K.map Prod.snd) (v : α) :
    Cursors cont S todo (K ++ [(v, none)]) := by
  have hkey : ∀ p, some p ∈ (K ++ [(v, none)]).map Prod.snd ↔ some p ∈ K.map Prod.snd := by
    intro p
    rw [List.map_append, List.mem_append]
    exact or_iff_left fun h => by cases List.mem_singleton.mp h
  refine ⟨hK.sources, hK.sorted, ?_, fun x p hx => ?_, fun p hp htodo hp' => ?_, hK.todo_nodup,
    fun p hp => ?_⟩
  · rw [List.map_append]
    refine List.nodup_append.mpr ⟨hK.keys, List.nodup_singleton _, fun a ha b hb heq => ?_⟩
    obtain rfl : a = none := heq.trans (List.mem_singleton.mp hb)
    exact hnone ha
  · rcases List.mem_append.mp hx with hx | hx
    · exact hK.least x p hx
    · cases List.mem_singleton.mp hx
  · exact hK.drained p hp htodo fun h => hp' ((hkey p).mpr h)
  · obtain ⟨hS, hp'⟩ := hK.todo_mem p hp
    exact ⟨hS, fun h => hp' ((hkey p).mp h)⟩

/-- A source without values gets no cursor. -/
theorem Cursors.read_nil (hK : Cursors cont S (p :: todo) K) (hp : cont p = []) :
    Cursors cont S todo K where
  sources := hK.sources
  sorted := hK.sorted
  keys := hK.keys
  least := hK.least
  drained q hq htodo hkey := by
    by_cases heq : q = p
    · rw [heq, hp]
    · exact hK.drained q hq (fun h => (List.mem_cons.mp h).elim heq htodo) hkey
  todo_nodup := (List.nodup_cons.mp hK.todo_nodup).2
  todo_mem q hq := hK.todo_mem q (List.mem_cons_of_mem p hq)

/-- A least cursor is least of all that is left. -/
theorem Cursors.le_pending (hK : Cursors cont S [] K) (hx : ∀ c ∈ K, x ≤ c.1) :
    ∀ y ∈ pending cont S K, x ≤ y := by
  intro y hy
  rcases Multiset.mem_add.mp hy with hy | hy
  · obtain ⟨c, hc, rfl⟩ := List.mem_map.mp (Multiset.mem_coe.mp hy)
    exact hx c hc
  · obtain ⟨p, hp, hy⟩ := List.mem_flatMap.mp (Multiset.mem_coe.mp hy)
    by_cases hkey : some p ∈ K.map Prod.snd
    · obtain ⟨⟨z, o⟩, hz, rfl⟩ := List.mem_map.mp hkey
      exact le_trans (hx _ hz) ((hK.least z p hz).2 y hy)
    · rw [hK.drained p hp List.not_mem_nil hkey] at hy
      cases hy

/-- Without cursors, nothing is left. -/
theorem Cursors.pending_nil (hK : Cursors cont S [] []) : pending cont S [] = 0 := by
  have hnil : S.flatMap cont = [] := List.flatMap_eq_nil_iff.mpr fun p hp =>
    hK.drained p hp List.not_mem_nil List.not_mem_nil
  rw [pending, hnil]
  rfl

variable [DecidableEq ι]

/-- A source is read. -/
theorem Cursors.read_cons (hK : Cursors cont S (p :: todo) K) (hp : cont p = x :: xs) :
    Cursors (Function.update cont p xs) S todo (K ++ [(x, some p)]) := by
  obtain ⟨hpS, hpK⟩ := hK.todo_mem p List.mem_cons_self
  obtain ⟨hptodo, htodo⟩ := List.nodup_cons.mp hK.todo_nodup
  have hsorted := hK.sorted p hpS
  rw [hp] at hsorted
  obtain ⟨hle, hxs⟩ := List.pairwise_cons.mp hsorted
  have hkey : ∀ q, some q ∈ (K ++ [(x, some p)]).map Prod.snd ↔ some q ∈ K.map Prod.snd ∨ q = p := by
    intro q
    rw [List.map_append, List.mem_append]
    exact or_congr_right ⟨fun h => Option.some.inj (List.mem_singleton.mp h),
      fun h => List.mem_singleton.mpr (congrArg some h)⟩
  refine ⟨hK.sources, fun q hq => ?_, ?_, fun y q hy => ?_, fun q hq hqtodo hqK => ?_, htodo,
    fun q hq => ?_⟩
  · rcases eq_or_ne q p with rfl | hne
    · rw [Function.update_self]
      exact hxs
    · rw [Function.update_of_ne hne]
      exact hK.sorted q hq
  · rw [List.map_append]
    refine List.nodup_append.mpr ⟨hK.keys, List.nodup_singleton _, fun a ha b hb heq => ?_⟩
    obtain rfl : a = some p := heq.trans (List.mem_singleton.mp hb)
    exact hpK ha
  · rcases List.mem_append.mp hy with hy | hy
    · have hne : q ≠ p := fun heq => hpK (List.mem_map.mpr ⟨_, hy, congrArg some heq⟩)
      rw [Function.update_of_ne hne]
      exact hK.least y q hy
    · cases List.mem_singleton.mp hy
      rw [Function.update_self]
      exact ⟨hpS, hle⟩
  · rw [hkey, not_or] at hqK
    rw [Function.update_of_ne hqK.2]
    exact hK.drained q hq (fun h => (List.mem_cons.mp h).elim hqK.2 hqtodo) hqK.1
  · obtain ⟨hqS, hqK⟩ := hK.todo_mem q (List.mem_cons_of_mem p hq)
    refine ⟨hqS, fun h => ?_⟩
    rcases (hkey q).mp h with h | rfl
    · exact hqK h
    · exact hptodo hq

/-- Without the cursor of a source, the source is to be read. -/
theorem Cursors.select (hK : Cursors cont S [] K) (hmem : (x, o) ∈ K) :
    Cursors cont S o.toList (K.filter (·.2 ≠ o)) := by
  have hkey : ∀ q : Option ι, q ∈ (K.filter (·.2 ≠ o)).map Prod.snd ↔ q ∈ K.map Prod.snd ∧ q ≠ o := by
    intro q
    simp only [List.mem_map, List.mem_filter, decide_eq_true_eq]
    constructor
    · rintro ⟨b, ⟨hb, hne⟩, rfl⟩
      exact ⟨⟨b, hb, rfl⟩, hne⟩
    · rintro ⟨⟨b, hb, rfl⟩, hne⟩
      exact ⟨b, ⟨hb, hne⟩, rfl⟩
  refine ⟨hK.sources, hK.sorted, ?_, fun y q hy => ?_, fun q hq hqo hqK => ?_, ?_, fun q hq => ?_⟩
  · exact hK.keys.sublist (List.filter_sublist.map _)
  · exact hK.least y q (List.mem_filter.mp hy).1
  · refine hK.drained q hq List.not_mem_nil fun h => hqK ((hkey _).mpr ⟨h, ?_⟩)
    rintro rfl
    exact hqo (List.mem_singleton_self q)
  · cases o
    · exact List.nodup_nil
    · exact List.nodup_singleton _
  · obtain rfl : o = some q := by
      cases o with
      | none => cases hq
      | some r => rw [List.mem_singleton.mp hq]
    exact ⟨(hK.least x q hmem).1, fun h => ((hkey _).mp h).2 rfl⟩

end KWayMerge
