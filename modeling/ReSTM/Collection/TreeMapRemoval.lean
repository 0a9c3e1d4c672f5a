import ReSTM.Collection.TreeMap
import ReSTM.Common.Transition

/-!
# Removal from a `TreeMap`

`max` goes to the left once and then to the right (`TreeMap.scala`, lines 133–135), so that it
is the least value on the left. A node without a left child takes this value from its right
subtree, and the greater ones of the subtree stay on its right, where no search goes.

* `removable`: the value taken is the greatest one.
* `Distinct` keys and `Ordered` trees: `find_of_removable` and `lost_of_not_removable`.
* `removal_keeps_iff`: in a run of additions and of such removals, the removals that keep every
  other binding are those.
-/

namespace ReSTM

open BinaryTree HeapModel Transition
open SearchTree hiding insert remove

variable {T V : Type}

namespace BinaryTreeMapNode

/-- The value that `max` finds is the greatest: on the path to the right there is no left
    child before one that is a leaf. -/
def promotesMax : BinaryTree (T × Option V) → Bool
  | nil => true
  | node _ nil r => promotesMax r
  | node _ (node _ nil nil) _ => true
  | node _ _ _ => false

variable [LinearOrder T]

/-- At the node with the key there is a left child, or `max` finds the greatest value on the
    right. -/
def removable (k : T) : BinaryTree (T × Option V) → Bool
  | nil => true
  | node a l r =>
    if a.1 = k then (min? l).isSome || promotesMax r
    else if a.1 < k then removable k l
    else removable k r

variable {t t' : BinaryTree (T × Option V)} {m : T × Option V} {k : T}

theorem max?_of_promotesMax (h : Ordered Prod.fst t) (hd : Distinct Prod.fst t)
    (hmax : promotesMax t) (hm : top t = some m) :
    max? t = some m ∧
      SearchTree.remove Prod.fst top m.1 t = SearchTree.remove Prod.fst max? m.1 t := by
  induction t generalizing m with
  | nil => cases hm
  | node a l r _ ihr =>
    cases l with
    | nil =>
      obtain rfl : a = m := Option.some.inj hm
      refine ⟨rfl, ?_⟩
      rw [SearchTree.remove, if_pos rfl, SearchTree.remove, if_pos rfl]
      cases htop : top r with
      | none =>
        obtain rfl := picks_top.eq_nil htop
        rfl
      | some b =>
        obtain ⟨hmax', hrem⟩ := ihr h.2.2.2 hd.right hmax htop
        rw [min?, hmax']
        exact congrArg (Option.map fun r' => node b nil r') hrem
    | node b ll lr =>
      cases ll with
      | node _ _ _ => cases hmax
      | nil =>
        cases lr with
        | node _ _ _ => cases hmax
        | nil =>
          obtain rfl : b = m := Option.some.inj hm
          have hlt : a.1 < b.1 := h.lt_left hd (by simp)
          refine ⟨rfl, ?_⟩
          rw [remove_of_lt hlt, remove_of_lt hlt,
            remove_min? picks_top picks_max? h.2.2.1 hd.left (m := b) rfl]

/-- A removable key is removed as if `max` were the greatest value. -/
theorem remove_of_removable (h : Ordered Prod.fst t) (hd : Distinct Prod.fst t)
    (hr : removable k t) :
    SearchTree.remove Prod.fst top k t = SearchTree.remove Prod.fst max? k t := by
  induction t with
  | nil => rfl
  | node a l r ihl ihr =>
    rw [removable] at hr
    rw [SearchTree.remove, SearchTree.remove]
    split_ifs at hr ⊢
    · cases hmin : min? l with
      | none =>
        rw [hmin] at hr
        cases htop : top r with
        | none =>
          obtain rfl := picks_top.eq_nil htop
          rfl
        | some m =>
          obtain ⟨hmax, hrem⟩ := max?_of_promotesMax h.2.2.2 hd.right hr htop
          rw [hmax]
          exact congrArg (Option.map fun r' => node m nil r') hrem
      | some m =>
        exact congrArg (Option.map fun l' => node m l' r)
          (remove_min? picks_top picks_max? h.2.2.1 hd.left hmin)
    · rw [ihl h.2.2.1 hd.left hr]
    · rw [ihr h.2.2.2 hd.right hr]

/-- The removal of such a key keeps the order and every other binding. -/
theorem find_of_removable (h : Ordered Prod.fst t) (hd : Distinct Prod.fst t)
    (hr : removable k t) (ht' : SearchTree.remove Prod.fst top k t = some t') :
    Ordered Prod.fst t' ∧ find Prod.fst k t' = none ∧
      ∀ j ≠ k, find Prod.fst j t' = find Prod.fst j t := by
  obtain ⟨a, rfl, hel⟩ := elems_remove picks_top hd.determined ht'
  rw [remove_of_removable h hd hr] at ht'
  have h' := h.remove hd.determined ht'
  exact ⟨h', find_of_elems h h' hd hel⟩

/-- A value that `max` should have found stays where no search for it goes. -/
theorem lost_of_not_promotesMax {t' : BinaryTree (T × Option V)} (h : Ordered Prod.fst t)
    (hd : Distinct Prod.fst t) (hmax : promotesMax t = false) (hm : top t = some m)
    (ht' : SearchTree.remove Prod.fst top m.1 t = some t') :
    ∃ x ∈ elems t, find Prod.fst x.1 (node m nil t') = none := by
  induction t generalizing m t' with
  | nil => cases hm
  | node a l r _ ihr =>
    cases hl : l with
    | nil =>
      subst hl
      obtain rfl : a = m := Option.some.inj hm
      rw [SearchTree.remove, if_pos rfl] at ht'
      cases htop : top r with
      | none =>
        obtain rfl := picks_top.eq_nil htop
        cases hmax
      | some b =>
        rw [htop] at ht'
        obtain ⟨r', hr', rfl⟩ := Option.map_eq_some_iff.mp ht'
        obtain ⟨x, hx, hfind⟩ := ihr h.2.2.2 hd.right hmax htop hr'
        have hlt : x.1 < a.1 := h.lt_right hd hx
        refine ⟨x, mem_elems_node.mpr (.inr (.inr hx)), ?_⟩
        rw [find_of_gt hlt]
        exact hfind
    | node b ll lr =>
      have hmin : min? l = some m := by
        rw [hl]
        rw [hl] at hm
        exact hm
      have hmem := mem_of_min? hmin
      have hlt : a.1 < m.1 := h.lt_left hd hmem
      rw [remove_of_lt hlt] at ht'
      obtain ⟨l', hl', rfl⟩ := Option.map_eq_some_iff.mp ht'
      obtain ⟨y, hy, hel⟩ := elems_remove picks_top hd.left.determined hl'
      have hym : y = m :=
        hd.left.determined y (hel ▸ Multiset.mem_cons_self y _) m hmem hy
      -- the subtree has more than one value
      obtain ⟨x, hx⟩ : ∃ x, x ∈ elems l' := by
        refine Multiset.exists_mem_of_ne_zero fun hzero => ?_
        rw [hzero, hl, elems_node] at hel
        have hcard := congrArg Multiset.card hel
        rw [Multiset.card_cons, Multiset.card_add, Multiset.card_cons, Multiset.card_zero] at hcard
        have hll : ll = nil := elems_eq_zero_iff.mp (Multiset.card_eq_zero.mp (by omega))
        have hlr : lr = nil := elems_eq_zero_iff.mp (Multiset.card_eq_zero.mp (by omega))
        rw [hl, hll, hlr] at hmax
        cases hmax
      have hxl : x ∈ elems l := hel ▸ Multiset.mem_cons_of_mem hx
      have hle : m.1 ≤ x.1 := le_of_min? h.2.2.1 hmin hxl
      have hne : m.1 ≠ x.1 := by
        intro heq
        have hnodup := hd.left
        rw [Distinct, hel, hym, Multiset.map_cons, Multiset.nodup_cons] at hnodup
        exact hnodup.1 (Multiset.mem_map.mpr ⟨x, hx, heq.symm⟩)
      refine ⟨x, mem_elems_node.mpr (.inr (.inl (hl ▸ hxl))), ?_⟩
      rw [find_of_lt (lt_of_le_of_ne hle hne)]
      rfl

/-- The removal of a key that is not removable loses another one. -/
theorem lost_of_not_removable (h : Ordered Prod.fst t) (hd : Distinct Prod.fst t)
    (hr : removable k t = false) (ht' : SearchTree.remove Prod.fst top k t = some t') :
    ∃ x ∈ elems t, x.1 ≠ k ∧ find Prod.fst x.1 t' = none := by
  induction t generalizing t' with
  | nil => cases hr
  | node a l r ihl ihr =>
    rw [removable] at hr
    rw [SearchTree.remove] at ht'
    split_ifs at hr ht' with heq hlt
    · cases hmin : min? l with
      | some b =>
        rw [hmin] at hr
        cases hr
      | none =>
        rw [hmin] at hr ht'
        cases htop : top r with
        | none =>
          obtain rfl := picks_top.eq_nil htop
          cases hr
        | some m =>
          rw [htop] at ht'
          obtain ⟨r', hr', rfl⟩ := Option.map_eq_some_iff.mp ht'
          obtain ⟨x, hx, hfind⟩ := lost_of_not_promotesMax h.2.2.2 hd.right hr htop hr'
          refine ⟨x, mem_elems_node.mpr (.inr (.inr hx)), ?_, hfind⟩
          exact heq ▸ (h.lt_right hd hx).ne
    · obtain ⟨l', hl', rfl⟩ := Option.map_eq_some_iff.mp ht'
      obtain ⟨x, hx, hne, hfind⟩ := ihl h.2.2.1 hd.left hr hl'
      have hax : a.1 < x.1 := h.lt_left hd hx
      refine ⟨x, mem_elems_node.mpr (.inr (.inl hx)), hne, ?_⟩
      rw [find_of_lt hax]
      exact hfind
    · obtain ⟨r', hr', rfl⟩ := Option.map_eq_some_iff.mp ht'
      obtain ⟨x, hx, hne, hfind⟩ := ihr h.2.2.2 hd.right hr hr'
      have hxa : x.1 < a.1 := h.lt_right hd hx
      refine ⟨x, mem_elems_node.mpr (.inr (.inr hx)), hne, ?_⟩
      rw [find_of_gt hxa]
      exact hfind

end BinaryTreeMapNode

namespace TreeMap

open BinaryTreeMapNode

variable [LinearOrder T]

/-- The map that `create` stores (line 38). -/
def create : TreeMap T V := { root := some none }

/-- The operations that change a map. -/
inductive Op (T V : Type) where
  | add (key : T) (value : Option V)
  | remove (key : T)
deriving DecidableEq

/-- One operation in a transaction: one that fails leaves the map as it is. -/
def step (m : TreeMap T V) : Op T V → TreeMap T V
  | .add key value => (m.add key value).toOption.getD m
  | .remove key => (m.remove key).toOption.getD m

/-- A key is added when it is not there, and removed when it is there. -/
def proper (m : TreeMap T V) : Op T V → Prop
  | .add key _ => m.contains key = .ok false
  | .remove key => m.contains key = .ok true

/-- A removal is of a key that is removable. -/
def safe (m : TreeMap T V) : Op T V → Prop
  | .add _ _ => True
  | .remove key => removable key m.tree

instance (m : TreeMap T V) : (op : Op T V) → Decidable (m.proper op)
  | .add key _ => inferInstanceAs (Decidable (m.contains key = .ok false))
  | .remove key => inferInstanceAs (Decidable (m.contains key = .ok true))

instance (m : TreeMap T V) : (op : Op T V) → Decidable (m.safe op)
  | .add _ _ => inferInstanceAs (Decidable True)
  | .remove key => inferInstanceAs (Decidable (removable key m.tree = true))

/-- After the removal of `k` the map has no binding for it, and every other one as before. -/
def RemovalKeeps (m : TreeMap T V) (k : T) : Prop :=
  (m.step (.remove k)).get k = .ok none ∧ (m.step (.remove k)).contains k = .ok false ∧
    ∀ j ≠ k, (m.step (.remove k)).get j = m.get j ∧ (m.step (.remove k)).contains j = m.contains j

/-- The map holds a search tree with distinct keys. -/
def Searchable (m : TreeMap T V) : Prop :=
  ∃ t, Represents m t ∧ Ordered Prod.fst t ∧ Distinct Prod.fst t

variable {m m' : TreeMap T V} {t t' : BinaryTree (T × Option V)} {k : T}

theorem searchable_of_empty (hm : m.root.join = none) : Searchable m :=
  ⟨nil, represents_of_empty hm, trivial, Multiset.nodup_zero⟩

theorem contains_eq_false_iff (hm : Represents m t) :
    m.contains k = .ok false ↔ find Prod.fst k t = none := by
  rw [contains_spec hm, Except.ok.injEq, Option.isSome_eq_false_iff, Option.isNone_iff_eq_none]

theorem contains_eq_true_iff (hm : Represents m t) :
    m.contains k = .ok true ↔ find Prod.fst k t ≠ none := by
  rw [contains_spec hm, Except.ok.injEq, Option.isSome_iff_ne_none]

theorem step_add {v : Option V} (h : m.add k v = .ok m') : m.step (.add k v) = m' := by
  show (m.add k v).toOption.getD m = m'
  rw [h]
  rfl

theorem step_remove (h : m.remove k = .ok m') : m.step (.remove k) = m' := by
  show (m.remove k).toOption.getD m = m'
  rw [h]
  rfl

theorem step_remove_error {e : Failure} (h : m.remove k = .error e) : m.step (.remove k) = m := by
  show (m.remove k).toOption.getD m = m
  rw [h]
  rfl

/-- A present key is removed. -/
theorem represents_step_remove (hm : Represents m t) (ho : Ordered Prod.fst t)
    (hd : Distinct Prod.fst t) (hk : find Prod.fst k t ≠ none) :
    ∃ t', Represents (m.step (.remove k)) t' ∧ SearchTree.remove Prod.fst top k t = some t' := by
  rw [← Option.isSome_iff_ne_none, find_isSome_iff ho] at hk
  obtain ⟨t', ht'⟩ := remove_isSome picks_top ho hk
  obtain ⟨m', hrem, hm'⟩ := remove_spec hm hd.determined ht'
  exact ⟨t', (step_remove hrem).symm ▸ hm', ht'⟩

/-- The removal of an absent key changes no binding. -/
theorem represents_step_absent (hm : Represents m t) (ho : Ordered Prod.fst t)
    (hd : Distinct Prod.fst t) (hk : find Prod.fst k t = none) :
    Represents (m.step (.remove k)) t := by
  have hnone : SearchTree.remove Prod.fst top k t = none := by
    rw [← Option.not_isSome_iff_eq_none, remove_isSome_iff picks_top ho hd.determined,
      ← find_isSome_iff ho, hk]
    exact Bool.false_ne_true
  rcases remove_spec_none hm hd.determined hnone with ⟨e, he⟩ | ⟨rfl, m', hm', hrep⟩
  · exact (step_remove_error he).symm ▸ hm
  · exact (step_remove hm').symm ▸ hrep

theorem removable_of_absent (hk : find Prod.fst k t = none) : removable k t := by
  induction t with
  | nil => rfl
  | node a l r ihl ihr =>
    rw [find] at hk
    rw [removable]
    split_ifs at hk ⊢
    · exact ihl hk
    · exact ihr hk

theorem Searchable.step (hm : Searchable m) {op : Op T V} (hp : m.proper op) (hs : m.safe op) :
    Searchable (m.step op) := by
  obtain ⟨t, hrep, ho, hd⟩ := hm
  cases op with
  | add key value =>
    obtain ⟨m', hadd, hm'⟩ := add_spec hrep key value
    refine ⟨_, (step_add hadd).symm ▸ hm', ho.insert _, hd.insert ?_⟩
    exact (find_eq_none_iff ho).mp ((contains_eq_false_iff hrep).mp hp)
  | remove key =>
    obtain ⟨t', hrep', ht'⟩ :=
      represents_step_remove hrep ho hd ((contains_eq_true_iff hrep).mp hp)
    have hsafe : removable key t := hrep.tree_eq ▸ hs
    obtain ⟨a, -, hel⟩ := elems_remove picks_top hd.determined ht'
    refine ⟨t', hrep', (find_of_removable ho hd hsafe ht').1, hd.of_le ?_⟩
    rw [hel]
    exact Multiset.le_cons_self _ a

/-- The bindings after a removal are those of the tree that is left. -/
theorem removalKeeps_iff_find (hm : Represents m t) (hm' : Represents (m.step (.remove k)) t') :
    RemovalKeeps m k ↔ find Prod.fst k t' = none ∧
      ∀ j ≠ k, (find Prod.fst j t').bind (·.2) = (find Prod.fst j t).bind (·.2) ∧
        (find Prod.fst j t').isSome = (find Prod.fst j t).isSome := by
  unfold RemovalKeeps
  simp only [get_spec hm', get_spec hm, contains_spec hm', contains_spec hm, Except.ok.injEq]
  rw [Option.isSome_eq_false_iff, Option.isNone_iff_eq_none, ← and_assoc, and_congr_left_iff]
  refine fun _ => ⟨And.right, fun h => ⟨?_, h⟩⟩
  rw [h]
  rfl

/-- In a searchable map the removal of a key keeps the other bindings if and only if the key is
    removable. -/
theorem Searchable.removalKeeps_iff (hm : Searchable m) (k : T) :
    RemovalKeeps m k ↔ removable k m.tree := by
  obtain ⟨t, hrep, ho, hd⟩ := hm
  rw [hrep.tree_eq]
  by_cases hk : find Prod.fst k t = none
  · rw [removalKeeps_iff_find hrep (represents_step_absent hrep ho hd hk)]
    exact iff_of_true ⟨hk, fun j _ => ⟨rfl, rfl⟩⟩ (removable_of_absent hk)
  · obtain ⟨t', hrep', ht'⟩ := represents_step_remove hrep ho hd hk
    rw [removalKeeps_iff_find hrep hrep']
    constructor
    · rintro ⟨-, hkeep⟩
      by_contra hsafe
      obtain ⟨x, hx, hne, hlost⟩ :=
        lost_of_not_removable ho hd (Bool.eq_false_iff.mpr hsafe) ht'
      have hfound := (hkeep x.1 hne).2
      rw [hlost, (find_isSome_iff ho).mpr ⟨x, hx, rfl⟩] at hfound
      cases hfound
    · intro hsafe
      obtain ⟨-, hnone, hother⟩ := find_of_removable ho hd hsafe ht'
      refine ⟨hnone, fun j hj => ?_⟩
      rw [hother j hj]
      exact ⟨rfl, rfl⟩

/-- In every run from an empty map whose removals are all removable, the removal of a key keeps
    every other binding if and only if the key is removable. -/
theorem removal_keeps_iff {s : TreeMap T V} (hs : s.root.join = none) (ops : List (Op T V))
    (hops : Along step (fun m op => m.proper op ∧ m.safe op) s ops) (k : T) :
    RemovalKeeps (run step s ops) k ↔ removable k (run step s ops).tree := by
  have hm : Searchable (run step s ops) :=
    hops.invariant (fun m op hm hop => hm.step hop.1 hop.2) (searchable_of_empty hs)
  exact hm.removalKeeps_iff k

/-- A map with the keys 5, 2, 3 and 4. -/
def chain : List (Op ℕ ℕ) :=
  [.add 5 (some 50), .add 2 (some 20), .add 3 (some 30), .add 4 (some 40)]

theorem removal_keeps_iff_chain :
    RemovalKeeps (run step create chain) 2 ↔ removable 2 (run step create chain).tree :=
  removal_keeps_iff rfl chain (by decide) 2

/-- The removal of 5 loses the binding of 4: `max` finds 3, and 4 stays on the right of it. -/
theorem removal_loses :
    Along step proper create chain ∧ (run step create chain).contains 5 = .ok true ∧
      (run step create chain).get 4 = .ok (some 40) ∧
      ((run step create chain).step (.remove 5)).get 4 = .ok none ∧
      ((run step create chain).step (.remove 5)).contains 4 = .ok false ∧
      ¬RemovalKeeps (run step create chain) 5 := by
  have hget : (run step create chain).get 4 = .ok (some 40) := by decide
  have hlost : ((run step create chain).step (.remove 5)).get 4 = .ok none := by decide
  refine ⟨by decide, by decide, hget, hlost, by decide, fun hkeep => ?_⟩
  have heq := (hkeep.2.2 4 (by decide)).1
  rw [hget, hlost] at heq
  cases heq

end TreeMap

end ReSTM
