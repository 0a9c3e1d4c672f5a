import Mathlib.Algebra.BigOperators.Group.Finset.Basic
import Mathlib.Tactic.Linarith
import ReSTM.Collection.SortMerge
import ReSTM.Task.Triggers

/-!
# Where the tasks of a sort stand

The task of a node is to sort the values below the node. Its sources are the results of its children's
tasks, which no other task reads. `SortGhost` says what the tasks and the lists are for; `SortPhase` is
the invariant of one task, with a bound on the steps that it and the tasks it has yet to create have
left.

* `Below.children`: the values below a node are its own and those below its children.
* `SortPhase.frame`: a step of another task keeps the phase.
-/

namespace ReSTM

open BinaryTree HeapModel KWayMerge TaskWorld
open SearchTree (elems)

variable {T : Type}

/-! ## The values below a node -/

/-- The values of the stored tree of a node are `B`, and none is `null`. -/
def Below (nodes : Heap (TreeCollectionNode T)) (n : TreeCollectionNode T) (B : Multiset T) : Prop :=
  ∃ t F, Held nodes n t F ∧ none ∉ elems t ∧ (elems t).filterMap id = B

/-- The values of the stored tree under a pointer. -/
def Under (nodes : Heap (TreeCollectionNode T)) (p : Ptr) (B : Multiset T) : Prop :=
  ∃ n, nodes.get p = some n ∧ Below nodes n B

section Below

variable {nodes : Heap (TreeCollectionNode T)} {n : TreeCollectionNode T} {B : Multiset T}
  {o : Option Ptr} {t : BinaryTree (Option T)} {F : Finset Ptr}

theorem Below.of_holds {c : TreeCollection T} {M : Multiset T} (hc : c.Holds (M.map some)) (hM : M ≠ 0) :
    ∃ n, c.root.join = some n ∧ Below c.nodes n M := by
  rcases hc.cases with ⟨-, hzero⟩ | ⟨n, t, F, hroot, hheld, helems, -⟩
  · exact absurd (Multiset.map_eq_zero.mp hzero) hM
  · refine ⟨n, hroot, t, F, hheld, ?_, ?_⟩
    · rw [helems]
      intro hnone
      obtain ⟨x, -, hx⟩ := Multiset.mem_map.mp hnone
      cases hx
    · rw [helems, Multiset.filterMap_map]
      exact Multiset.filterMap_some M

/-- The tree of one side of a node. -/
theorem under_side (hs : Stored nodes o t F) (hnone : none ∉ elems t) :
    ∃ Bs, List.Forall₂ (Under nodes) o.toList Bs ∧ (elems t).filterMap id = Bs.sum := by
  rcases hs.cases with ⟨rfl, rfl, -⟩ | ⟨p, n, G, rfl, hget, hheld, -, -⟩
  · exact ⟨[], .nil, rfl⟩
  · refine ⟨[(elems t).filterMap id], .cons ⟨n, hget, t, G, hheld, hnone, rfl⟩ .nil, ?_⟩
    rw [List.sum_singleton]

/-- The values below a node are its own and those below its children. -/
theorem Below.children (h : Below nodes n B) :
    ∃ v Bs, n.value = some v ∧ List.Forall₂ (Under nodes) (n.left.toList ++ n.right.toList) Bs ∧
      B = v ::ₘ Bs.sum := by
  obtain ⟨t, F, hheld, hnone, rfl⟩ := h
  obtain ⟨l, r, L, R, rfl, hl, hr, -, -⟩ := TreeCollectionNode.sides hheld
  rw [SearchTree.elems_node, Multiset.mem_cons, Multiset.mem_add, not_or, not_or] at hnone
  obtain ⟨hvalue, hnl, hnr⟩ := hnone
  obtain ⟨v, hv⟩ := Option.ne_none_iff_exists'.mp fun h => hvalue h.symm
  obtain ⟨Bl, hBl, hsl⟩ := under_side hl hnl
  obtain ⟨Br, hBr, hsr⟩ := under_side hr hnr
  refine ⟨v, Bl ++ Br, hv, List.rel_append hBl hBr, ?_⟩
  rw [SearchTree.elems_node, Multiset.filterMap_cons_some id n.value _ (b := v) hv, Multiset.filterMap_add,
    hsl, hsr, List.sum_append]

theorem Below.ne_zero (h : Below nodes n B) : B ≠ 0 := by
  obtain ⟨v, Bs, -, -, rfl⟩ := h.children
  exact Multiset.cons_ne_zero

theorem under_ne_zero {children : List Ptr} {Bs : List (Multiset T)}
    (hc : List.Forall₂ (Under nodes) children Bs) : ∀ B ∈ Bs, B ≠ 0 := by
  induction hc with
  | nil => exact fun B hB => absurd hB List.not_mem_nil
  | cons hp _ ih =>
    intro B hB
    rcases List.mem_cons.mp hB with rfl | hB
    · obtain ⟨n, -, hn⟩ := hp
      exact hn.ne_zero
    · exact ih B hB

end Below

section Costs

variable {Bs : List (Multiset T)}

theorem length_le_card_sum (h : ∀ B ∈ Bs, B ≠ 0) : Bs.length ≤ Bs.sum.card := by
  induction Bs with
  | nil => exact Nat.zero_le _
  | cons B Bs ih =>
    have hpos := Multiset.card_pos.mpr (h B List.mem_cons_self)
    have hrest := ih fun C hC => h C (List.mem_cons_of_mem B hC)
    rw [List.length_cons, List.sum_cons, Multiset.card_add]
    omega

/-- The bounds of the tasks that are to be created. -/
theorem sum_cost_le (h : ∀ B ∈ Bs, B ≠ 0) :
    (Bs.map fun B => 10 * B.card ^ 2 + 1).sum ≤ 10 * Bs.sum.card ^ 2 + Bs.sum.card := by
  induction Bs with
  | nil => exact Nat.zero_le _
  | cons B Bs ih =>
    have hpos := Multiset.card_pos.mpr (h B List.mem_cons_self)
    have hrest := ih fun C hC => h C (List.mem_cons_of_mem B hC)
    rw [List.map_cons, List.sum_cons, List.sum_cons, Multiset.card_add]
    nlinarith

end Costs

/-! ## The phases of a task -/

/-- The values that a task is to sort, the task that waits for it, and its result; the task that has
    created a list, and the values of the list. -/
structure SortGhost (T : Type) where
  bag : Ptr → Multiset T
  parent : Ptr → Ptr
  outcome : Ptr → Option Ptr
  owner : Ptr → Ptr
  cont : Ptr → List T

variable [LinearOrder T]

namespace SortGhost

/-- The result of a task is sorted. -/
def Full (G : SortGhost T) (t : Ptr) : Prop := ∀ p, G.outcome t = some p → G.cont p = (G.bag t).sort

/-- Of `n` tasks, the tasks `ts` are those that the task `t` has created. -/
structure Kids (G : SortGhost T) (n : Ptr) (t : Ptr) (ts : List Ptr) : Prop where
  nodup : ts.Nodup
  mem : ∀ u ∈ ts, t < u ∧ u < n ∧ G.parent u = t ∧ G.bag u ≠ 0
  all : ∀ u < n, t < u → G.parent u = t → u ∈ ts

/-- A result is a list of the task. -/
def Owns (G : SortGhost T) (ln : Ptr) : Prop := ∀ u p, G.outcome u = some p → G.owner p = u ∧ p < ln

/-- A step of the task `t`, of `n` tasks with `ln` lists. It may change its own lists, and the results
    of the tasks that it has created. -/
structure Moves (t n ln : Ptr) (G G' : SortGhost T) : Prop where
  bag : ∀ u < n, G'.bag u = G.bag u
  parent : ∀ u < n, G'.parent u = G.parent u
  outcome : ∀ u, u ≠ t → G'.outcome u = G.outcome u
  owner : ∀ p < ln, G'.owner p = G.owner p
  cont : ∀ p < ln, G.owner p ≠ t → (G.outcome (G.owner p) = some p → G.parent (G.owner p) ≠ t) →
    G'.cont p = G.cont p
  full : G'.Full t

/-- The task `u` is created by the task `t`, to sort the values `B`. -/
def adopt (G : SortGhost T) (u t : Ptr) (B : Multiset T) : SortGhost T :=
  { G with bag := Function.update G.bag u B, parent := Function.update G.parent u t }

end SortGhost

open SortGhost

/-- Where a task stands that is to sort the values `G.bag t`. -/
inductive SortPhase (G : SortGhost T) (nodes : Heap (TreeCollectionNode T)) (n ln t : Ptr) :
    TaskData (SortFunction T) Ptr → Option (Attempt T) → ℕ → Prop
  | idle {d : TaskData (SortFunction T) Ptr} {node : TreeCollectionNode T}
      (hf : d.kryoTask = some (.sort node)) (hx : d.executorId = none) (htr : d.triggers = [])
      (hresult : d.result = none) (hkids : G.Kids n t []) (hn : Below nodes node (G.bag t)) :
      SortPhase G nodes n ln t d none (10 * (G.bag t).card ^ 2)
  | creating {d : TaskData (SortFunction T) Ptr} {f : SortFunction T} {retries : ℕ}
      {node : TreeCollectionNode T} {children ts : List Ptr} {Bs : List (Multiset T)} {v : T}
      (hv : node.value = some v) (hkids : G.Kids n t ts) (hfull : ∀ u ∈ ts, G.Full u)
      (hc : List.Forall₂ (Under nodes) children Bs)
      (hbag : G.bag t = v ::ₘ ((ts.map G.bag).sum + Bs.sum)) :
      SortPhase G nodes n ln t d (some ⟨f, retries, .creating node children ts⟩)
        ((Bs.map fun B => 10 * B.card ^ 2 + 1).sum + 4 * (G.bag t).card + 5)
  | waiting {d : TaskData (SortFunction T) Ptr} {v : T} {ts : List Ptr}
      (hf : d.kryoTask = some (.merge (some v) ts)) (hx : d.executorId = none) (htr : d.triggers = ts)
      (hresult : d.result = none) (hkids : G.Kids n t ts) (hfull : ∀ u ∈ ts, G.Full u)
      (hbag : G.bag t = v ::ₘ (ts.map G.bag).sum) :
      SortPhase G nodes n ln t d none (4 * (G.bag t).card + 4)
  | merging {d : TaskData (SortFunction T) Ptr} {retries : ℕ} {v : T} {ts S : List Ptr} {m : Merge T}
      {k : ℕ} (hkids : G.Kids n t ts) (hS : ts.map G.outcome = S.map some)
      (hm : Merging G.outcome G.cont v S (G.bag t) m k)
      (hr : ∀ p, m.result = some p → G.owner p = t ∧ p < ln) :
      SortPhase G nodes n ln t d (some ⟨.merge (some v) ts, retries, .merging m⟩) k
  | done {d : TaskData (SortFunction T) Ptr} {ts : List Ptr} {p : Ptr} (hresult : d.result = some p)
      (hkids : G.Kids n t ts) (hcomplete : ∀ u ∈ ts, (G.outcome u).isSome) :
      SortPhase G nodes n ln t d none 0

section Frame

variable {G G' : SortGhost T} {nodes : Heap (TreeCollectionNode T)} {n n' ln ln' t t' u : Ptr}
  {ts S : List Ptr} {d : TaskData (SortFunction T) Ptr} {a : Option (Attempt T)} {k : ℕ}

theorem SortGhost.Kids.frame (h : G.Kids n t ts) (hmv : Moves t' n ln G G') (hn : n ≤ n')
    (hnew : ∀ u, n ≤ u → u < n' → G'.parent u ≠ t) : G'.Kids n' t ts where
  nodup := h.nodup
  mem u hu := by
    obtain ⟨hlt, hun, hparent, hbag⟩ := h.mem u hu
    exact ⟨hlt, Nat.lt_of_lt_of_le hun hn, (hmv.parent u hun).trans hparent,
      (hmv.bag u hun).symm ▸ hbag⟩
  all u hu hlt hparent := by
    rcases Nat.lt_or_ge u n with hun | hge
    · exact h.all u hun hlt ((hmv.parent u hun).symm.trans hparent)
    · exact absurd hparent (hnew u hge hu)

/-- The values of a result change only when the task that waits for it reads it. -/
theorem SortGhost.Full.frame (h : G.Full u) (hmv : Moves t' n ln G G') (hown : G.Owns ln)
    (hu : u < n) (hparent : G.parent u ≠ t') : G'.Full u := by
  rcases eq_or_ne u t' with rfl | hne
  · exact hmv.full
  · intro p hp
    rw [hmv.outcome u hne] at hp
    obtain ⟨howner, hlt⟩ := hown u p hp
    rw [hmv.cont p hlt (howner ▸ hne) fun _ => howner ▸ hparent, hmv.bag u hu]
    exact h p hp

theorem SortGhost.Kids.full (h : G.Kids n t ts) (hfull : ∀ u ∈ ts, G.Full u)
    (hmv : Moves t' n ln G G') (hown : G.Owns ln) (ht : t ≠ t') : ∀ u ∈ ts, G'.Full u := by
  intro u hu
  obtain ⟨-, hun, hparent, -⟩ := h.mem u hu
  exact (hfull u hu).frame hmv hown hun (hparent ▸ ht)

theorem SortGhost.Kids.bag_sum (h : G.Kids n t ts) (hmv : Moves t' n ln G G') :
    (ts.map G'.bag).sum = (ts.map G.bag).sum :=
  congrArg List.sum (List.map_congr_left fun u hu => hmv.bag u (h.mem u hu).2.1)

/-- A step of another task, which has no result yet, keeps the phase. -/
theorem SortPhase.frame (h : SortPhase G nodes n ln t d a k) (hmv : Moves t' n ln G G') (hown : G.Owns ln)
    (ht : t ≠ t') (htn : t < n) (hn : n ≤ n') (hnew : ∀ u, n ≤ u → u < n' → G'.parent u ≠ t)
    (hln : ln ≤ ln') (hnone : G.outcome t' = none) (hrun : a.isSome → G.outcome t = none) (subscribers : List Ptr) :
    SortPhase G' nodes n' ln' t { d with subscribers := subscribers } a k := by
  have hbag := hmv.bag t htn
  -- a task that is complete is not `t'`
  have hstays : ∀ u, (G.outcome u).isSome → u ≠ t' := by
    rintro u hu rfl
    rw [hnone] at hu
    cases hu
  cases h with
  | idle hf hx htr hresult hkids hB =>
    rw [← hbag] at hB ⊢
    exact .idle hf hx htr hresult (hkids.frame hmv hn hnew) hB
  | creating hv hkids hfull hc hB =>
    rw [← hbag, ← hkids.bag_sum hmv] at hB
    rw [← hbag]
    exact .creating hv (hkids.frame hmv hn hnew) (hkids.full hfull hmv hown ht) hc hB
  | waiting hf hx htr hresult hkids hfull hB =>
    rw [← hbag, ← hkids.bag_sum hmv] at hB
    rw [← hbag]
    exact .waiting hf hx htr hresult (hkids.frame hmv hn hnew) (hkids.full hfull hmv hown ht) hB
  | @merging _ v ts S m _ hkids hS hm hr =>
    have hkid : ∀ u ∈ ts, u ≠ t' ∧ ∃ p ∈ S, G.outcome u = some p := by
      intro u hu
      obtain ⟨p, hp, heq⟩ := List.mem_map.mp (hS ▸ List.mem_map_of_mem (f := G.outcome) hu)
      exact ⟨hstays u (heq ▸ rfl), p, hp, heq.symm⟩
    have houtcome : ∀ u ∈ ts, G'.outcome u = G.outcome u := fun u hu =>
      hmv.outcome u (hkid u hu).1
    have hsource : ∀ p ∈ S, G'.cont p = G.cont p := by
      intro p hp
      obtain ⟨u, hu, heq⟩ := List.mem_map.mp (hS ▸ List.mem_map_of_mem (f := some) hp)
      obtain ⟨howner, hlt⟩ := hown u p heq
      obtain ⟨-, -, hparent, -⟩ := hkids.mem u hu
      exact hmv.cont p hlt (howner ▸ (hkid u hu).1) fun _ => howner ▸ hparent ▸ ht
    have hresult : ∀ p, m.result = some p → G'.cont p = G.cont p := by
      intro p hp
      obtain ⟨howner, hlt⟩ := hr p hp
      refine hmv.cont p hlt (howner ▸ ht) fun hout => ?_
      rw [howner, hrun rfl] at hout
      cases hout
    refine .merging (hkids.frame hmv hn hnew) ((List.map_congr_left houtcome).trans hS) ?_
      fun p hp => ?_
    · rw [hbag]
      exact hm.congr hsource hresult fun u p hp => (hmv.outcome u (hstays u (hp ▸ rfl))).trans hp
    · obtain ⟨howner, hlt⟩ := hr p hp
      exact ⟨(hmv.owner p hlt).trans howner, Nat.lt_of_lt_of_le hlt hln⟩
  | done hresult hkids hcomplete =>
    refine .done hresult (hkids.frame hmv hn hnew) fun u hu => ?_
    rw [hmv.outcome u (hstays u (hcomplete u hu))]
    exact hcomplete u hu

end Frame

/-! ## A task starts -/

section Start

variable {G : SortGhost T} {nodes : Heap (TreeCollectionNode T)} {n ln t : Ptr} {ts S : List Ptr}
  {d : TaskData (SortFunction T) Ptr} {k : ℕ}

/-- The sources have the values of the tasks that have created them. -/
theorem SortGhost.Kids.sources (hS : ts.map G.outcome = S.map some) (hown : G.Owns ln)
    (hfull : ∀ u ∈ ts, G.Full u) :
    S.map G.owner = ts ∧ (↑(S.flatMap G.cont) : Multiset T) = (ts.map G.bag).sum := by
  induction ts generalizing S with
  | nil =>
    obtain rfl : S = [] := List.map_eq_nil_iff.mp hS.symm
    exact ⟨rfl, rfl⟩
  | cons u ts ih =>
    obtain ⟨p, S, rfl, hp, hrest⟩ := List.map_eq_cons_iff.mp hS.symm
    obtain ⟨howner, hsum⟩ := ih hrest.symm fun v hv => hfull v (List.mem_cons_of_mem u hv)
    rw [List.map_cons, List.flatMap_cons, ← Multiset.coe_add, hsum, howner,
      (hown u p hp.symm).1, hfull u List.mem_cons_self p hp.symm, Multiset.sort_eq, List.map_cons,
      List.sum_cons]
    exact ⟨rfl, rfl⟩

/-- An executor obtains a task whose triggers are complete. -/
theorem SortPhase.start (h : SortPhase G nodes n ln t d none k)
    (d' : TaskData (SortFunction T) Ptr) {f : SortFunction T}
    (hf : d.kryoTask = some f) (hresult : d.result = none)
    (hcomplete : ∀ u ∈ d.triggers, (G.outcome u).isSome) (hown : G.Owns ln) :
    ∃ k' < k, SortPhase G nodes n ln t d' (some { function := f, execution := f.start }) k' := by
  cases h with
  | @idle node hf' hx htr _ hkids hB =>
    obtain rfl : SortFunction.sort node = f := Option.some.inj (hf'.symm.trans hf)
    obtain ⟨v, Bs, hv, hc, hbag⟩ := hB.children
    refine ⟨_, ?_, .creating hv hkids (fun u hu => absurd hu List.not_mem_nil) hc ?_⟩
    · have hcost := sum_cost_le (under_ne_zero hc)
      rw [hbag, Multiset.card_cons]
      nlinarith
    · rw [List.map_nil, List.sum_nil, zero_add]
      exact hbag
  | @waiting v ts hf' hx htr _ hkids hfull hbag =>
    obtain rfl : SortFunction.merge (some v) ts = f := Option.some.inj (hf'.symm.trans hf)
    obtain ⟨S, hS⟩ : ∃ S : List Ptr, ts.map G.outcome = S.map some := by
      refine ⟨ts.map fun u => (G.outcome u).getD 0, ?_⟩
      rw [List.map_map]
      refine List.map_congr_left fun u hu => ?_
      obtain ⟨p, hp⟩ := Option.isSome_iff_exists.mp (hcomplete u (htr ▸ hu))
      rw [Function.comp_apply, hp]
      rfl
    obtain ⟨howner, hsum⟩ := SortGhost.Kids.sources hS hown hfull
    have hnodup : S.Nodup := List.Nodup.of_map G.owner (howner ▸ hkids.nodup)
    have hK : Cursors G.cont S S [] := by
      refine .start hnodup fun p hp => ?_
      obtain ⟨u, hu, heq⟩ := List.mem_map.mp (hS ▸ List.mem_map_of_mem (f := some) hp)
      rw [hfull u hu p heq]
      exact Multiset.pairwise_sort _ _
    have hpending : v ::ₘ pending G.cont S [] = G.bag t := by
      rw [pending, hsum, hbag]
      exact congrArg _ (zero_add _)
    refine ⟨_, ?_, .merging hkids hS (.sources hS (List.nil_append S) hK hpending)
      fun p hp => by cases hp⟩
    have hlen : ts.length ≤ (ts.map G.bag).sum.card := by
      rw [← List.length_map (f := G.bag)]
      refine length_le_card_sum fun B hB => ?_
      obtain ⟨u, hu, rfl⟩ := List.mem_map.mp hB
      exact (hkids.mem u hu).2.2.2
    have hlenS : S.length = ts.length := by rw [← howner, List.length_map]
    rw [hbag, Multiset.card_cons]
    omega
  | done hresult' _ _ =>
    rw [hresult] at hresult'
    cases hresult'

end Start

end ReSTM
