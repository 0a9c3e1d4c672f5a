import Mathlib.Algebra.Order.BigOperators.Group.List
import Mathlib.Data.Multiset.OrderedMonoid
import Mathlib.Logic.Relation
import ReSTM.Collection.SortTasks

/-!
# Merge functions that are run again

Every transaction of an attempt stays committed when a later one makes the attempt throw. The function
is then run again and reads the results of the tasks again, but the values that it has removed from
the sources were in its cursors or in its list, which are gone.

A task that has lost values goes on as if they had never been below its node: `lose` takes them from
the values of the task and of the tasks that wait for it, and `SortInv` holds of what is left.

* `SortInv.restart`: what is left when a function is run again.
* `retried_sort_iff`: the result is sorted only if no attempt that throws has removed a value.
-/

namespace ReSTM

open HeapModel KWayMerge SortGhost TaskWorld Transition WP

variable {T : Type}

/-- The values that the function has removed from its sources. They are in its cursors and in its
    list, where the value of the node is as well. -/
def Merge.removed (h : Heap (SortList T)) : Merge T → ℕ
  | .sources _ _ _ => 0
  | .firsts _ _ cursors => cursors.length
  | .loop cursors result | .next _ cursors result =>
    cursors.length + (((h.get result).getD {}).stream.toOption.getD []).length - 1

/-- The merge function that runs. -/
def Execution.merge? : Execution T → Option (Merge T)
  | .merging m => some m
  | .creating _ _ _ => none

namespace SortWorld

/-- A function that throws is a merge function that is run again. -/
def Retried (w : SortWorld T) : SortAction → Prop
  | .fail task _ => ∃ a ∈ w.running task, a.retries ≠ 0 ∧ a.execution.merge?.isSome
  | _ => True

/-- A merge function that throws has removed no value yet. -/
def Quiet (w : SortWorld T) : SortAction → Prop
  | .fail task _ => ∀ a ∈ w.running task, ∀ m ∈ a.execution.merge?, m.removed w.lists = 0
  | _ => True

instance (w : SortWorld T) : DecidablePred w.Retried
  | .fail task _ => inferInstanceAs
      (Decidable (∃ a ∈ w.running task, a.retries ≠ 0 ∧ a.execution.merge?.isSome))
  | .getTask _ _ | .execute _ => inferInstanceAs (Decidable True)

instance (w : SortWorld T) : DecidablePred w.Quiet
  | .fail task _ => inferInstanceAs
      (Decidable (∀ a ∈ w.running task, ∀ m ∈ a.execution.merge?, m.removed w.lists = 0))
  | .getTask _ _ | .execute _ => inferInstanceAs (Decidable True)

end SortWorld

variable [LinearOrder T]

/-! ## What is left of the sources -/

section Rest

variable {outcome : Ptr → Option Ptr} {cont : Ptr → List T} {v : T} {ts S : List Ptr}
  {all : Multiset T} {m : Merge T} {k : ℕ} {h : Heap (SortList T)}

theorem Merging.cursors (hm : Merging outcome cont v S all m k) : Cursors cont S S [] := by
  cases hm with
  | sources _ _ hK _ | firsts hK _ _ | loop hK _ _ _ | next hK _ _ _ =>
    exact .start hK.sources hK.sorted

/-- The function is run again, with what is left of the sources. -/
theorem Merging.restart (hm : Merging outcome cont v S all m k) (hts : ts.map outcome = S.map some) :
    Merging outcome cont v S (v ::ₘ pending cont S []) (.sources (some v) ts [])
      (ts.length + S.length + 2 * (v ::ₘ pending cont S []).card + 3) :=
  .sources hts (List.nil_append S) hm.cursors rfl

theorem Merging.rest_le (hm : Merging outcome cont v S all m k) : v ::ₘ pending cont S [] ≤ all := by
  cases hm with
  | sources _ _ _ hall => exact hall.le
  | firsts _ _ hall =>
    rw [← hall]
    exact Multiset.cons_le_cons v (pending_mono fun _ _ => List.Sublist.refl _)
  | loop _ _ _ hrest | next _ _ _ hrest => exact hrest

/-- Nothing is lost if and only if nothing was removed. -/
theorem Merging.rest_eq_iff (hm : Merging outcome cont v S all m k) (hl : Lists h cont)
    (hr : ∀ r, m.result = some r → r < h.next) :
    v ::ₘ pending cont S [] = all ↔ m.removed h = 0 := by
  have hcard : v ::ₘ pending cont S [] = all ↔ all.card ≤ (S.flatMap cont).length + 1 := by
    have hrest : (v ::ₘ pending cont S []).card = (S.flatMap cont).length + 1 := by
      rw [Multiset.card_cons, card_pending, List.length_nil, zero_add]
    rw [← hrest]
    exact ⟨fun heq => heq ▸ Nat.le_refl _, Multiset.eq_of_le_of_card_le hm.rest_le⟩
  have hle := Multiset.card_le_card hm.rest_le
  rw [Multiset.card_cons, card_pending, List.length_nil, zero_add] at hle
  have hstream : ∀ r, m.result = some r →
      (((h.get r).getD {}).stream.toOption.getD []).length = (cont r).length := by
    intro r hmr
    rw [LinkedList.stream_spec (hl r (hr r hmr))]
    exact List.length_map some
  rw [hcard]
  cases hm with
  | sources _ _ _ hall =>
    refine iff_of_true ?_ rfl
    rw [← hall, Multiset.card_cons, card_pending, List.length_nil, zero_add]
  | @firsts _ K _ _ hall =>
    rw [← hall, Multiset.card_cons, card_pending, Merge.removed, List.length_map]
    omega
  | @loop K r _ _ hsel _ | @next _ K r _ _ hsel _ =>
    rw [← hsel.total, Multiset.card_add, Multiset.coe_card, card_pending] at hle ⊢
    rw [Merge.removed, hstream r rfl, List.length_map]
    omega

end Rest

/-! ## The tasks that wait for a task -/

/-- The task `t`, and the tasks that wait for it. -/
def SortGhost.Above (G : SortGhost T) (root t : Ptr) : Ptr → Prop :=
  Relation.ReflTransGen (fun u s => u ≠ root ∧ G.parent u = s) t

open Classical in
/-- The values `L` are no longer below the task `t`. -/
noncomputable def SortGhost.lose (G : SortGhost T) (root t : Ptr) (L : Multiset T) : SortGhost T :=
  { G with bag := fun u => if G.Above root t u then G.bag u - L else G.bag u }

section Above

variable {M L : Multiset T} {root : Ptr} {G : SortGhost T} {w : SortWorld T} {pot : Ptr → ℕ}
  {t u s : Ptr} {ts : List Ptr}

namespace SortInv

/-- A task that is not complete is waited for. -/
theorem waits (hi : SortInv M root G w pot) (hu : u < w.tasks.tasks.next) (hroot : u ≠ root)
    (hnone : G.outcome u = none) :
    G.outcome (G.parent u) = none ∧ G.bag u ≤ G.bag (G.parent u) := by
  have hlt := hi.parent_lt u hu hroot
  obtain ⟨d, hd⟩ := hi.exists_of_lt _ (hlt.trans hu)
  have hsum : ∀ ts : List Ptr, u ∈ ts → G.bag u ≤ (ts.map G.bag).sum := fun ts hmem =>
    List.le_sum_of_mem (List.mem_map_of_mem hmem)
  have hph := hi.phase _ d hd
  generalize ha : w.running (G.parent u) = a at hph
  generalize pot (G.parent u) = k at hph
  cases hph with
  | idle _ _ _ _ hkids _ => exact absurd (hkids.all u hu hlt rfl) List.not_mem_nil
  | @creating _ _ _ _ ts _ _ _ hkids _ _ hbag =>
    obtain ⟨-, -, -, hparent⟩ := hi.running_some (t := G.parent u) (by rw [ha]; rfl)
    refine ⟨hparent, ?_⟩
    rw [hbag]
    exact (hsum ts (hkids.all u hu hlt rfl)).trans
      ((Multiset.le_add_right _ _).trans (Multiset.le_cons_self _ _))
  | @waiting _ ts _ _ _ hresult hkids _ hbag =>
    refine ⟨?_, ?_⟩
    · rw [hi.outcome, hd]
      exact hresult
    · rw [hbag]
      exact (hsum ts (hkids.all u hu hlt rfl)).trans (Multiset.le_cons_self _ _)
  | merging hkids hS _ _ =>
    obtain ⟨p, -, hp⟩ := List.mem_map.mp (hS ▸ List.mem_map_of_mem (hkids.all u hu hlt rfl))
    cases hp.trans hnone
  | done _ hkids hcomplete =>
    have hsome := hcomplete u (hkids.all u hu hlt rfl)
    rw [hnone] at hsome
    cases hsome

/-- A task that waits for `t` is not complete, and is to sort its values as well. -/
theorem above_spec (hi : SortInv M root G w pot) (ht : t < w.tasks.tasks.next)
    (hnone : G.outcome t = none) (hu : G.Above root t u) :
    u ≤ t ∧ G.outcome u = none ∧ G.bag t ≤ G.bag u := by
  induction hu with
  | refl => exact ⟨Nat.le_refl t, hnone, le_refl _⟩
  | @tail u s _ hparent ih =>
    obtain ⟨hroot, rfl⟩ := hparent
    obtain ⟨hle, hnone', hbag⟩ := ih
    have hun := Nat.lt_of_le_of_lt hle ht
    obtain ⟨hs, hbag'⟩ := hi.waits hun hroot hnone'
    exact ⟨(hi.parent_lt u hun hroot).le.trans hle, hs, hbag.trans hbag'⟩

/-- The task of the root node waits for all others. -/
theorem above_root (hi : SortInv M root G w pot) (t : Ptr) (ht : t < w.tasks.tasks.next)
    (hnone : G.outcome t = none) : G.Above root t root := by
  induction t using Nat.strong_induction_on with
  | _ t ih =>
    rcases eq_or_ne t root with rfl | hroot
    · exact .refl
    · have hlt := hi.parent_lt t ht hroot
      exact .head ⟨hroot, rfl⟩ (ih _ hlt (hlt.trans ht) (hi.waits ht hroot hnone).1)

/-- Of the tasks that a task has created, it waits for `t` with one of them. -/
theorem above_sibling (hi : SortInv M root G w pot) (ht : t < w.tasks.tasks.next)
    (hnone : G.outcome t = none) (hkids : G.Kids w.tasks.tasks.next s ts) {u₁ u₂ : Ptr}
    (hu₁ : u₁ ∈ ts) (hu₂ : u₂ ∈ ts) (h₁ : G.Above root t u₁) (h₂ : G.Above root t u₂) :
    u₁ = u₂ := by
  have hunique : Relator.RightUnique fun u s => u ≠ root ∧ G.parent u = s :=
    fun a b c hb hc => hb.2.symm.trans hc.2
  have hpath : ∀ {a b : Ptr}, a ∈ ts → b ∈ ts → G.Above root t a → G.Above root a b → a = b := by
    intro a b ha hb hta hab
    rcases Relation.ReflTransGen.cases_head hab with heq | ⟨c, ⟨hroot, hc⟩, hcb⟩
    · exact heq
    · obtain ⟨hle, hnone', -⟩ := hi.above_spec ht hnone hta
      have hat := Nat.lt_of_le_of_lt hle ht
      have hct := (hi.parent_lt a hat hroot).trans hat
      have hbc := (hi.above_spec (hc ▸ hct) (hc ▸ (hi.waits hat hroot hnone').1) hcb).1
      obtain ⟨-, -, hs, -⟩ := hkids.mem a ha
      exact absurd (hkids.mem b hb).1 (Nat.not_lt.mpr (hbc.trans (hc.symm.trans hs).le))
  rcases Relation.ReflTransGen.total_of_right_unique hunique h₁ h₂ with h | h
  · exact hpath hu₁ hu₂ h₁ h
  · exact (hpath hu₂ hu₁ h₂ h).symm

/-! ## Values are lost -/

theorem lose_bag (h : G.Above root t u) : (G.lose root t L).bag u = G.bag u - L := if_pos h

theorem lose_bag_of_not (h : ¬G.Above root t u) : (G.lose root t L).bag u = G.bag u := if_neg h

/-- A task that waits for `t` has created another one that does, or `t`. -/
theorem above_kid (hi : SortInv M root G w pot) (ht : t < w.tasks.tasks.next)
    (hnone : G.outcome t = none) (hst : s ≠ t) (hs : G.Above root t s)
    (hkids : G.Kids w.tasks.tasks.next s ts) :
    ∃ u ∈ ts, G.Above root t u ∧ G.outcome u = none ∧ G.bag t ≤ G.bag u := by
  rcases Relation.ReflTransGen.cases_tail hs with heq | ⟨u, hu, hroot, hparent⟩
  · exact absurd heq hst
  · obtain ⟨hle, hnone', hbag⟩ := hi.above_spec ht hnone hu
    have hun := Nat.lt_of_le_of_lt hle ht
    exact ⟨u, hkids.all u hun (hparent ▸ hi.parent_lt u hun hroot) hparent, hu, hnone', hbag⟩

/-- A task that has created one that waits for `t` does so too. -/
theorem above_of_kid (hi : SortInv M root G w pot) (hkids : G.Kids w.tasks.tasks.next s ts)
    (hu : u ∈ ts) (h : G.Above root t u) : G.Above root t s := by
  obtain ⟨hlt, -, hparent, -⟩ := hkids.mem u hu
  refine .tail h ⟨?_, hparent⟩
  rintro rfl
  exact Nat.ne_of_lt hlt (hparent.symm.trans hi.root_parent)

/-- The values of a node are its own and those of the tasks of its children, of which it loses the
    same. -/
theorem lose_node (hi : SortInv M root G w pot) (ht : t < w.tasks.tasks.next)
    (hnone : G.outcome t = none) (hL : L ≤ G.bag t) (hst : s ≠ t)
    (hkids : G.Kids w.tasks.tasks.next s ts) {v : T} {B : Multiset T}
    (hbag : G.bag s = v ::ₘ ((ts.map G.bag).sum + B)) :
    (G.lose root t L).bag s = v ::ₘ ((ts.map (G.lose root t L).bag).sum + B) := by
  by_cases hs : G.Above root t s
  · obtain ⟨u, hu, habove, -, hle⟩ := hi.above_kid ht hnone hst hs hkids
    have hperm := List.perm_cons_erase hu
    have hrest : (ts.erase u).map (G.lose root t L).bag = (ts.erase u).map G.bag := by
      refine List.map_congr_left fun x hx => lose_bag_of_not fun hx' => ?_
      obtain ⟨hne, hx⟩ := hkids.nodup.mem_erase_iff.mp hx
      exact hne (hi.above_sibling ht hnone hkids hx hu hx' habove)
    have hsum : (ts.map G.bag).sum = (ts.map (G.lose root t L).bag).sum + L := by
      rw [(hperm.map G.bag).sum_eq, (hperm.map (G.lose root t L).bag).sum_eq, List.map_cons,
        List.map_cons, List.sum_cons, List.sum_cons, hrest, lose_bag habove, add_right_comm,
        tsub_add_cancel_of_le (hL.trans hle)]
    rw [lose_bag hs, hbag, hsum, add_right_comm, ← Multiset.cons_add, add_tsub_cancel_right]
  · rw [lose_bag_of_not hs, hbag]
    have hsame : ts.map (G.lose root t L).bag = ts.map G.bag :=
      List.map_congr_left fun u hu => lose_bag_of_not fun h => hs (hi.above_of_kid hkids hu h)
    rw [hsame]

theorem lose_kids (hi : SortInv M root G w pot) (ht : t < w.tasks.tasks.next)
    (hnone : G.outcome t = none) (hleft : G.bag t - L ≠ 0)
    (hkids : G.Kids w.tasks.tasks.next s ts) :
    (G.lose root t L).Kids w.tasks.tasks.next s ts where
  nodup := hkids.nodup
  mem u hu := by
    obtain ⟨hlt, hun, hparent, hne⟩ := hkids.mem u hu
    refine ⟨hlt, hun, hparent, ?_⟩
    by_cases habove : G.Above root t u
    · rw [lose_bag habove]
      intro hzero
      have hle := tsub_le_tsub_right (hi.above_spec ht hnone habove).2.2 L
      exact hleft (Multiset.le_zero.mp (hzero ▸ hle))
    · rw [lose_bag_of_not habove]
      exact hne
  all := hkids.all

/-- The results that there are stay sorted. -/
theorem lose_full (hi : SortInv M root G w pot) (ht : t < w.tasks.tasks.next)
    (hnone : G.outcome t = none) (hfull : G.Full u) : (G.lose root t L).Full u := by
  intro p hp
  have hnot : ¬G.Above root t u := fun h =>
    absurd ((hi.above_spec ht hnone h).2.1.symm.trans hp) nofun
  rw [lose_bag_of_not hnot]
  exact hfull p hp

/-- The other tasks go on with what is left. -/
theorem lose_phase (hi : SortInv M root G w pot) (ht : t < w.tasks.tasks.next)
    (hnone : G.outcome t = none) (hL : L ≤ G.bag t) (hleft : G.bag t - L ≠ 0) (hst : s ≠ t)
    {d : TaskData (SortFunction T) Ptr} {a : Option (Attempt T)} {k : ℕ}
    (hph : SortPhase G w.nodes w.tasks.tasks.next w.lists.next s d a k) :
    ∃ k', SortPhase (G.lose root t L) w.nodes w.tasks.tasks.next w.lists.next s d a k' := by
  -- a task that has only created tasks that are complete does not wait for `t`
  have hsame : ∀ ts, G.Kids w.tasks.tasks.next s ts → (∀ u ∈ ts, (G.outcome u).isSome) →
      (G.lose root t L).bag s = G.bag s := by
    intro ts hkids hcomplete
    refine lose_bag_of_not fun hs => ?_
    obtain ⟨u, hu, -, hnone', -⟩ := hi.above_kid ht hnone hst hs hkids
    have hsome := hcomplete u hu
    rw [hnone'] at hsome
    cases hsome
  cases hph with
  | idle hf hx htr hresult hkids hB =>
    have hbag := hsame _ hkids fun u hu => absurd hu List.not_mem_nil
    exact ⟨_, .idle hf hx htr hresult (hi.lose_kids ht hnone hleft hkids) (hbag.symm ▸ hB)⟩
  | creating hv hkids hfull hc hbag =>
    exact ⟨_, .creating hv (hi.lose_kids ht hnone hleft hkids)
      (fun u hu => hi.lose_full ht hnone (hfull u hu)) hc (hi.lose_node ht hnone hL hst hkids hbag)⟩
  | @waiting v ts hf hx htr hresult hkids hfull hbag =>
    have hbag' : G.bag s = v ::ₘ ((ts.map G.bag).sum + 0) := by rw [add_zero, hbag]
    have hnode := hi.lose_node ht hnone hL hst hkids hbag'
    rw [add_zero] at hnode
    exact ⟨_, .waiting hf hx htr hresult (hi.lose_kids ht hnone hleft hkids)
      (fun u hu => hi.lose_full ht hnone (hfull u hu)) hnode⟩
  | @merging _ v ts S m _ hkids hS hm hr =>
    have hbag := hsame ts hkids fun u hu => by
      obtain ⟨p, -, hp⟩ := List.mem_map.mp (hS ▸ List.mem_map_of_mem (f := G.outcome) hu)
      rw [← hp]
      rfl
    exact ⟨_, .merging (hi.lose_kids ht hnone hleft hkids) hS (hbag.symm ▸ hm) hr⟩
  | done hresult hkids hcomplete =>
    exact ⟨_, .done hresult (hi.lose_kids ht hnone hleft hkids) hcomplete⟩

/-- The task `t` has lost values, and goes on with what is left. -/
theorem lose (hi : SortInv M root G w pot) (hobtained : t ∈ w.tasks.obtained)
    (ht : t < w.tasks.tasks.next) (hnone : G.outcome t = none) (hL : L ≤ G.bag t)
    (hleft : G.bag t - L ≠ 0) {b : Attempt T} {k : ℕ}
    (hphase : ∀ d, SortPhase (G.lose root t L) w.nodes w.tasks.tasks.next w.lists.next t d (some b) k) :
    ∃ pot', SortInv (M - L) root (G.lose root t L) (SortWorld.run t (some b) w) pot' := by
  have hphases : ∀ s, ∃ k, ∀ d, w.tasks.tasks.get s = some d →
      SortPhase (G.lose root t L) w.nodes w.tasks.tasks.next w.lists.next s d
        (Function.update w.running t (some b) s) k := by
    intro s
    rcases eq_or_ne s t with rfl | hst
    · rw [Function.update_self]
      exact ⟨k, fun d _ => hphase d⟩
    · rw [Function.update_of_ne hst]
      cases hs : w.tasks.tasks.get s with
      | none => exact ⟨0, nofun⟩
      | some d =>
        obtain ⟨k, hk⟩ := hi.lose_phase ht hnone hL hleft hst (hi.phase s d hs)
        refine ⟨k, fun d' hd' => ?_⟩
        cases hd'
        exact hk
  choose pot' hpot' using hphases
  refine ⟨pot', hi.sound, hi.exists_of_lt, fun s d hs => hpot' s d hs, fun s => ?_, hi.outcome,
    hi.exception, hi.owns, hi.lists, hi.root_lt, ?_, hi.root_parent,
    hi.lose_full ht hnone hi.root_full, hi.parent_lt⟩
  · show (Function.update w.running t _ s).isSome ↔ s ∈ w.tasks.obtained
    rcases eq_or_ne s t with rfl | hst
    · rw [Function.update_self]
      exact iff_of_true rfl hobtained
    · rw [Function.update_of_ne hst]
      exact hi.running s
  · rw [lose_bag (hi.above_root t ht hnone), hi.root_bag]

/-- A merge function is run again. -/
theorem restart (hi : SortInv M root G w pot) {f : SortFunction T} {retries : ℕ} {m : Merge T}
    (hrun : w.running t = some ⟨f, retries + 1, .merging m⟩) (e : Failure) :
    ∃ M' G' pot', SortInv M' root G' (w.step (.fail t e)) pot' ∧ M' ≤ M ∧
      (M' = M ↔ m.removed w.lists = 0) := by
  obtain ⟨hobtained, d, hd, hnone⟩ := hi.running_some (by rw [hrun]; rfl)
  have ht := Heap.lt_next hd
  have hph := hi.phase t d hd
  rw [hrun] at hph
  generalize pot t = k at hph
  cases hph with
  | @merging _ v ts S _ _ hkids hS hm hr =>
    obtain ⟨rest, hrest⟩ : ∃ rest, v ::ₘ pending G.cont S [] = rest := ⟨_, rfl⟩
    have hle : rest ≤ G.bag t := hrest ▸ hm.rest_le
    have hleft : G.bag t - (G.bag t - rest) = rest := tsub_tsub_cancel_of_le hle
    have hne : G.bag t - (G.bag t - rest) ≠ 0 := by
      rw [hleft, ← hrest]
      exact Multiset.cons_ne_zero
    have hL : G.bag t - rest ≤ G.bag t := tsub_le_self
    have hself : G.Above root t t := .refl
    have hrestart := hm.restart hS
    rw [hrest, ← hleft, ← lose_bag hself] at hrestart
    obtain ⟨pot', hi'⟩ := hi.lose hobtained ht hnone hL hne (b := ⟨.merge (some v) ts, retries, _⟩)
      fun d => .merging (hi.lose_kids ht hnone hne hkids) hS hrestart nofun
    have hstep : w.step (.fail t e) = SortWorld.run t
        (some ⟨.merge (some v) ts, retries, .merging (.sources (some v) ts [])⟩) w := by
      unfold SortWorld.step
      dsimp only
      rw [hrun]
      rfl
    rw [hstep]
    refine ⟨_, _, pot', hi', tsub_le_self, ?_⟩
    -- the values of `t` are among all, so that what is lost is seen
    have hLM : G.bag t - rest ≤ M :=
      hL.trans ((hi.above_spec ht hnone (hi.above_root t ht hnone)).2.2.trans hi.root_bag.le)
    rw [← hm.rest_eq_iff hi.lists fun r hmr => (hr r hmr).2, hrest]
    constructor
    · intro heq
      have hsum := tsub_add_cancel_of_le hLM
      rw [heq] at hsum
      exact le_antisymm hle (tsub_eq_zero_iff_le.mp (add_eq_left.mp hsum))
    · intro heq
      rw [heq, tsub_self, tsub_zero]

/-! ## Runs -/

theorem step_retried (hi : SortInv M root G w pot) {act : SortAction} (hact : w.Retried act) :
    ∃ M' G' pot', SortInv M' root G' (w.step act) pot' ∧ M' ≤ M ∧ (M' = M ↔ w.Quiet act) := by
  cases act with
  | getTask i executorName =>
    have hact' : ¬(SortAction.getTask i executorName).Fails := id
    obtain ⟨G', pot', hi', -⟩ := hi.step hact'
    exact ⟨M, G', pot', hi', le_refl M, iff_of_true rfl trivial⟩
  | execute t =>
    have hact' : ¬(SortAction.execute t).Fails := id
    obtain ⟨G', pot', hi', -⟩ := hi.step hact'
    exact ⟨M, G', pot', hi', le_refl M, iff_of_true rfl trivial⟩
  | fail t e =>
    obtain ⟨⟨f, retries, execution⟩, hrun, hretries, hmerge⟩ := hact
    obtain ⟨retries, rfl⟩ := Nat.exists_eq_succ_of_ne_zero hretries
    cases execution with
    | creating node children tasks => cases hmerge
    | merging m =>
      obtain ⟨M', G', pot', hi', hle, hiff⟩ := hi.restart hrun e
      refine ⟨M', G', pot', hi', hle, hiff.trans ⟨fun hm a ha m' hm' => ?_, fun h => ?_⟩⟩
      · cases hrun.symm.trans ha
        cases hm'
        exact hm
      · exact h _ hrun m rfl

/-- What is left after a run are all values if and only if every step is quiet. -/
theorem run_retried (hi : SortInv M root G w pot) {as : List SortAction}
    (has : Along SortWorld.step SortWorld.Retried w as) :
    ∃ M' G' pot', SortInv M' root G' (Transition.run SortWorld.step w as) pot' ∧ M' ≤ M ∧
      (M' = M ↔ Along SortWorld.step SortWorld.Quiet w as) := by
  induction as generalizing w M G pot with
  | nil => exact ⟨M, G, pot, hi, le_refl M, iff_of_true rfl trivial⟩
  | cons act as ih =>
    obtain ⟨M₁, G₁, pot₁, hi₁, hle₁, hiff₁⟩ := hi.step_retried has.1
    obtain ⟨M₂, G₂, pot₂, hi₂, hle₂, hiff₂⟩ := ih hi₁ has.2
    refine ⟨M₂, G₂, pot₂, hi₂, hle₂.trans hle₁, ?_⟩
    constructor
    · rintro rfl
      obtain rfl := le_antisymm hle₁ hle₂
      exact ⟨hiff₁.mp rfl, hiff₂.mp rfl⟩
    · rintro ⟨hact, hrest⟩
      exact (hiff₂.mpr hrest).trans (hiff₁.mpr hact)

end SortInv

end Above

/-- When merge functions that throw are run again, the sort of a collection still comes to a result.
    It is the list of the sorted values if and only if every function that throws has removed no value
    from its sources yet. -/
theorem TreeCollection.retried_sort_iff {c : TreeCollection T} {M : Multiset T}
    (hc : c.Holds (M.map some)) (hM : M ≠ 0) :
    ∃ root w, c.sort = .ok (root, w) ∧
      ∀ as : List SortAction, Along SortWorld.step SortWorld.Retried w as →
        let w' := run SortWorld.step w as
        (∀ p, Task.result root w'.tasks = .ok p →
            (w'.stream p = .ok (M.sort.map some) ↔ Along SortWorld.step SortWorld.Quiet w as)) ∧
          ((∀ act, ¬w'.Enabled act) → ∃ p, Task.result root w'.tasks = .ok p) := by
  obtain ⟨w, G, pot, hsort, hi⟩ := sort_some hc hM
  refine ⟨0, w, hsort, fun as has => ?_⟩
  obtain ⟨M', G', pot', hi', -, hiff⟩ := hi.run_retried has
  refine ⟨fun p hp => ?_, fun hstuck => ?_⟩
  · rw [hi'.stream_of_result hp, ← hiff]
    constructor
    · intro heq
      have hsorted := List.map_injective_iff.mpr (Option.some_injective T) (Except.ok.inj heq)
      rw [← Multiset.sort_eq M' (· ≤ ·), hsorted, Multiset.sort_eq]
    · rintro rfl
      rfl
  · obtain ⟨p, hp⟩ := Option.isSome_iff_exists.mp
      (hi'.outcome_isSome hstuck _ 0 hi'.root_lt (Nat.le_add_left _ _))
    exact ⟨p, hi'.result 0 p hp⟩

/-- The sort of `twoValues`. -/
def sorting : SortWorld ℕ where
  nodes := twoValues.nodes
  tasks := ({} : TaskWorld (SortFunction ℕ) Ptr).added
    (.sort { value := some 2, left := some 0 }) []

/-- The task of the child is executed, and that of the root node has its merge function to run. -/
def childSorted : List SortAction :=
  [.getTask 0 "executor", .execute 0, .execute 0, .getTask 0 "executor", .execute 1,
    .getTask 0 "executor", .execute 1, .execute 1, .execute 1, .execute 1, .execute 1,
    .getTask 0 "executor"]

/-- The merge function throws after `n` steps, and is run again for `k` steps. -/
def thrownAfter (n k : ℕ) : List SortAction :=
  childSorted ++ List.replicate n (.execute 0) ++ [.fail 0 (.runtimeException "timeout")] ++
    List.replicate k (.execute 0)

theorem TreeCollection.retried_sort_two :
    twoValues.Holds (({1, 2} : Multiset ℕ).map some) ∧ ∃ root w, twoValues.sort = .ok (root, w) ∧
      ∀ as : List SortAction, Along SortWorld.step SortWorld.Retried w as →
        let w' := run SortWorld.step w as
        (∀ p, Task.result root w'.tasks = .ok p →
            (w'.stream p = .ok ((({1, 2} : Multiset ℕ).sort).map some) ↔
              Along SortWorld.step SortWorld.Quiet w as)) ∧
          ((∀ act, ¬w'.Enabled act) → ∃ p, Task.result root w'.tasks = .ok p) :=
  ⟨twoValues_holds, retried_sort_iff twoValues_holds (by decide)⟩

/-- An attempt that throws before it has removed a value loses nothing. -/
example : Along SortWorld.step SortWorld.Retried sorting (thrownAfter 2 9) ∧
    Along SortWorld.step SortWorld.Quiet sorting (thrownAfter 2 9) ∧
    (run SortWorld.step sorting (thrownAfter 2 9)).stream 1 = .ok [some 1, some 2] := by decide

/-- The value of the child is lost when the attempt throws after its removal. -/
theorem TreeCollection.retried_sort_loses :
    twoValues.Holds (({1, 2} : Multiset ℕ).map some) ∧ twoValues.sort = .ok (0, sorting) ∧
      Along SortWorld.step SortWorld.Enabled sorting (thrownAfter 3 7) ∧
      Along SortWorld.step SortWorld.Retried sorting (thrownAfter 3 7) ∧
      let w' := run SortWorld.step sorting (thrownAfter 3 7)
      Task.result 0 w'.tasks = .ok 1 ∧ w'.stream 1 = .ok [some 2] ∧
        w'.stream 1 ≠ .ok ((({1, 2} : Multiset ℕ).sort).map some) := by
  have hstream : (run SortWorld.step sorting (thrownAfter 3 7)).stream 1 = .ok [some 2] := by decide
  refine ⟨twoValues_holds, rfl, by decide, by decide, by decide, hstream, fun heq => ?_⟩
  have hlen := congrArg List.length (Except.ok.inj (hstream.symm.trans heq))
  rw [List.length_map, Multiset.length_sort] at hlen
  cases hlen

end ReSTM
