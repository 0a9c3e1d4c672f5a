import Mathlib.Data.Multiset.AddSub
import Mathlib.Data.Multiset.MapFold
import Mathlib.Data.Tree.Basic
import Mathlib.Order.Defs.LinearOrder

/-!
# Search trees with the greater keys on the left

The values of such a tree have keys in a linear order. Those on the left of a value have no
smaller keys, those on its right no greater ones: values with equal keys may be on either
side. A value is removed by putting the least value of its left subtree in its place, or,
if there is none, an extreme value of its right subtree.

* `find_eq_some`, `find_isSome_iff`: what a search finds.
* `elems_insert`, `Ordered.insert`: insertion adds one value and keeps the order.
* `elems_remove`, `remove_isSome_iff`: removal takes away one value.
* `Ordered.remove`: it keeps the order when the extreme value of a right subtree is the greatest.
* `find_of_elems`: a tree with one value less finds all the others.
-/

namespace SearchTree

open BinaryTree

universe u v

variable {α : Type u} {K : Type v}

/-! ## The values of a tree -/

/-- The values of a tree, with their multiplicities. -/
def elems : BinaryTree α → Multiset α
  | nil => 0
  | node a l r => a ::ₘ (elems l + elems r)

@[simp] theorem elems_nil : elems (nil : BinaryTree α) = 0 := rfl

@[simp] theorem elems_node (a : α) (l r : BinaryTree α) :
    elems (node a l r) = a ::ₘ (elems l + elems r) := rfl

@[simp] theorem elems_eq_zero_iff {t : BinaryTree α} : elems t = 0 ↔ t = nil := by
  cases t <;> simp

theorem mem_elems_node {x a : α} {l r : BinaryTree α} :
    x ∈ elems (node a l r) ↔ x = a ∨ x ∈ elems l ∨ x ∈ elems r := by
  rw [elems_node, Multiset.mem_cons, Multiset.mem_add]

/-- One value more on the left. -/
theorem elems_node_left {x a : α} {l l' r : BinaryTree α} (hel : elems l = x ::ₘ elems l') :
    elems (node a l r) = x ::ₘ elems (node a l' r) := by
  rw [elems_node, hel, elems_node, Multiset.cons_add, Multiset.cons_swap]

/-- One value more on the right. -/
theorem elems_node_right {x a : α} {l r r' : BinaryTree α} (her : elems r = x ::ₘ elems r') :
    elems (node a l r) = x ::ₘ elems (node a l r') := by
  rw [elems_node, her, elems_node, Multiset.add_cons, Multiset.cons_swap]

/-- Values of the tree with equal keys are equal. -/
def Determined (key : α → K) (t : BinaryTree α) : Prop :=
  ∀ x ∈ elems t, ∀ y ∈ elems t, key x = key y → x = y

theorem Determined.left {key : α → K} {a : α} {l r : BinaryTree α}
    (h : Determined key (node a l r)) : Determined key l :=
  fun x hx y hy => h x (mem_elems_node.mpr (.inr (.inl hx))) y (mem_elems_node.mpr (.inr (.inl hy)))

theorem Determined.right {key : α → K} {a : α} {l r : BinaryTree α}
    (h : Determined key (node a l r)) : Determined key r :=
  fun x hx y hy => h x (mem_elems_node.mpr (.inr (.inr hx))) y (mem_elems_node.mpr (.inr (.inr hy)))

/-- No two values have the same key. -/
def Distinct (key : α → K) (t : BinaryTree α) : Prop := ((elems t).map key).Nodup

theorem Distinct.of_le {key : α → K} {t t' : BinaryTree α} (h : Distinct key t)
    (hle : elems t' ≤ elems t) : Distinct key t' :=
  Multiset.nodup_of_le (Multiset.map_le_map hle) h

theorem Distinct.left {key : α → K} {a : α} {l r : BinaryTree α}
    (h : Distinct key (node a l r)) : Distinct key l := by
  refine h.of_le ((Multiset.le_add_right _ (elems r)).trans ?_)
  rw [elems_node]
  exact Multiset.le_cons_self _ a

theorem Distinct.right {key : α → K} {a : α} {l r : BinaryTree α}
    (h : Distinct key (node a l r)) : Distinct key r := by
  refine h.of_le ((Multiset.le_add_left _ (elems l)).trans ?_)
  rw [elems_node]
  exact Multiset.le_cons_self _ a

theorem Distinct.determined {key : α → K} {t : BinaryTree α} (h : Distinct key t) :
    Determined key t :=
  fun _ hx _ hy heq => Multiset.inj_on_of_nodup_map h _ hx _ hy heq

theorem Distinct.ne_root {key : α → K} {a x : α} {l r : BinaryTree α}
    (h : Distinct key (node a l r)) (hx : x ∈ elems l + elems r) : key x ≠ key a := by
  intro heq
  rw [Distinct, elems_node, Multiset.map_cons, Multiset.nodup_cons] at h
  exact h.1 (Multiset.mem_map.mpr ⟨x, hx, heq⟩)

/-- The value at the end of the path to the right. -/
def min? : BinaryTree α → Option α
  | nil => none
  | node a _ r => some ((min? r).getD a)

/-- The value at the end of the path to the left. -/
def max? : BinaryTree α → Option α
  | nil => none
  | node a l _ => some ((max? l).getD a)

@[simp] theorem min?_eq_none_iff {t : BinaryTree α} : min? t = none ↔ t = nil := by
  cases t <;> simp [min?]

@[simp] theorem max?_eq_none_iff {t : BinaryTree α} : max? t = none ↔ t = nil := by
  cases t <;> simp [max?]

theorem mem_of_min? {t : BinaryTree α} {m : α} (hm : min? t = some m) : m ∈ elems t := by
  induction t generalizing m with
  | nil => cases hm
  | node a l r _ ihr =>
    rw [min?, Option.some.injEq] at hm
    cases hmin : min? r with
    | none =>
      rw [hmin] at hm
      exact mem_elems_node.mpr (.inl hm.symm)
    | some b =>
      rw [hmin] at hm
      exact mem_elems_node.mpr (.inr (.inr (hm ▸ ihr hmin)))

theorem mem_of_max? {t : BinaryTree α} {m : α} (hm : max? t = some m) : m ∈ elems t := by
  induction t generalizing m with
  | nil => cases hm
  | node a l r ihl _ =>
    rw [max?, Option.some.injEq] at hm
    cases hmax : max? l with
    | none =>
      rw [hmax] at hm
      exact mem_elems_node.mpr (.inl hm.symm)
    | some b =>
      rw [hmax] at hm
      exact mem_elems_node.mpr (.inr (.inl (hm ▸ ihl hmax)))

variable [LinearOrder K] (key : α → K)

/-! ## The order -/

/-- The values on the left have no smaller keys, those on the right no greater ones. -/
def Ordered : BinaryTree α → Prop
  | nil => True
  | node a l r =>
    (∀ x ∈ elems l, key a ≤ key x) ∧ (∀ x ∈ elems r, key x ≤ key a) ∧ Ordered l ∧ Ordered r

variable {key} {t t' l r : BinaryTree α} {a b m x : α} {k : K}

theorem le_of_min? (h : Ordered key t) (hm : min? t = some m) (hx : x ∈ elems t) :
    key m ≤ key x := by
  induction t generalizing m x with
  | nil => cases hm
  | node a l r _ ihr =>
    obtain ⟨hl, hr, -, hor⟩ := h
    cases hmin : min? r with
    | none =>
      rw [min?, hmin] at hm
      cases hm
      rw [min?_eq_none_iff] at hmin
      subst hmin
      rcases mem_elems_node.mp hx with rfl | hx | hx
      · exact le_rfl
      · exact hl x hx
      · cases hx
    | some b =>
      rw [min?, hmin] at hm
      cases hm
      have hba := hr _ (mem_of_min? hmin)
      rcases mem_elems_node.mp hx with rfl | hx | hx
      · exact hba
      · exact hba.trans (hl x hx)
      · exact ihr hor hmin hx

theorem le_of_max? (h : Ordered key t) (hm : max? t = some m) (hx : x ∈ elems t) :
    key x ≤ key m := by
  induction t generalizing m x with
  | nil => cases hm
  | node a l r ihl _ =>
    obtain ⟨hl, hr, hol, -⟩ := h
    cases hmax : max? l with
    | none =>
      rw [max?, hmax] at hm
      cases hm
      rw [max?_eq_none_iff] at hmax
      subst hmax
      rcases mem_elems_node.mp hx with rfl | hx | hx
      · exact le_rfl
      · cases hx
      · exact hr x hx
    | some b =>
      rw [max?, hmax] at hm
      cases hm
      have hab := hl _ (mem_of_max? hmax)
      rcases mem_elems_node.mp hx with rfl | hx | hx
      · exact hab
      · exact ihl hol hmax hx
      · exact (hr x hx).trans hab

/-! ## Search -/

variable (key) in
/-- Search for a value with the key `k`. -/
def find (k : K) : BinaryTree α → Option α
  | nil => none
  | node a l r => if key a = k then some a else if key a < k then find k l else find k r

theorem find_of_lt (hlt : key a < k) : find key k (node a l r) = find key k l := by
  rw [find, if_neg hlt.ne, if_pos hlt]

theorem find_of_gt (hlt : k < key a) : find key k (node a l r) = find key k r := by
  rw [find, if_neg hlt.ne', if_neg hlt.asymm]

theorem find_eq_some (h : find key k t = some a) : a ∈ elems t ∧ key a = k := by
  induction t with
  | nil => cases h
  | node b l r ihl ihr =>
    rw [find] at h
    split_ifs at h with heq hlt
    · cases h
      exact ⟨by simp, heq⟩
    · obtain ⟨hmem, hkey⟩ := ihl h
      exact ⟨mem_elems_node.mpr (.inr (.inl hmem)), hkey⟩
    · obtain ⟨hmem, hkey⟩ := ihr h
      exact ⟨mem_elems_node.mpr (.inr (.inr hmem)), hkey⟩

/-- In an ordered tree a search finds a value with its key, if there is one. -/
theorem find_isSome_iff (h : Ordered key t) :
    (find key k t).isSome ↔ ∃ a ∈ elems t, key a = k := by
  induction t with
  | nil => simp [find]
  | node b l r ihl ihr =>
    obtain ⟨hl, hr, hol, hor⟩ := h
    rw [find]
    split_ifs with heq hlt
    · exact iff_of_true rfl ⟨b, by simp, heq⟩
    · rw [ihl hol]
      constructor
      · rintro ⟨a, ha, hk⟩
        exact ⟨a, mem_elems_node.mpr (.inr (.inl ha)), hk⟩
      · rintro ⟨a, ha, hk⟩
        rcases mem_elems_node.mp ha with rfl | ha | ha
        · exact absurd hk heq
        · exact ⟨a, ha, hk⟩
        · exact absurd (hk ▸ hr a ha) (not_le_of_gt hlt)
    · rw [ihr hor]
      constructor
      · rintro ⟨a, ha, hk⟩
        exact ⟨a, mem_elems_node.mpr (.inr (.inr ha)), hk⟩
      · rintro ⟨a, ha, hk⟩
        rcases mem_elems_node.mp ha with rfl | ha | ha
        · exact absurd hk heq
        · exact absurd (lt_of_le_of_ne (hk ▸ hl a ha) heq) hlt
        · exact ⟨a, ha, hk⟩

theorem find_eq_none_iff (h : Ordered key t) : find key k t = none ↔ ∀ a ∈ elems t, key a ≠ k := by
  have := find_isSome_iff (k := k) h
  rw [← Option.not_isSome_iff_eq_none, this]
  push Not
  rfl

/-! ## Insertion -/

variable (key) in
/-- Insert a value as a leaf; an equal key goes to the right. -/
def insert (a : α) : BinaryTree α → BinaryTree α
  | nil => node a nil nil
  | node b l r => if key b < key a then node b (insert a l) r else node b l (insert a r)

@[simp] theorem elems_insert : elems (insert key a t) = a ::ₘ elems t := by
  induction t with
  | nil => rfl
  | node b l r ihl ihr =>
    rw [insert]
    split_ifs
    · exact elems_node_left ihl
    · exact elems_node_right ihr

theorem Ordered.insert (h : Ordered key t) (a : α) : Ordered key (insert key a t) := by
  induction t with
  | nil =>
    refine ⟨fun x hx => ?_, fun x hx => ?_, trivial, trivial⟩
    · cases hx
    · cases hx
  | node b l r ihl ihr =>
    obtain ⟨hl, hr, hol, hor⟩ := h
    rw [SearchTree.insert]
    split_ifs with hlt
    · refine ⟨fun x hx => ?_, hr, ihl hol, hor⟩
      rw [elems_insert, Multiset.mem_cons] at hx
      rcases hx with rfl | hx
      · exact hlt.le
      · exact hl x hx
    · refine ⟨hl, fun x hx => ?_, hol, ihr hor⟩
      rw [elems_insert, Multiset.mem_cons] at hx
      rcases hx with rfl | hx
      · exact not_lt.mp hlt
      · exact hr x hx

/-- A search for the key of an inserted value finds one that was there before. -/
theorem find_insert_self (t : BinaryTree α) (a : α) :
    find key (key a) (insert key a t) = (find key (key a) t).or (some a) := by
  induction t with
  | nil => exact if_pos rfl
  | node b l r ihl ihr =>
    rw [insert]
    split_ifs with hlt
    · rw [find_of_lt hlt, find_of_lt hlt, ihl]
    · rcases (not_lt.mp hlt).eq_or_lt with heq | hgt
      · rw [find, if_pos heq.symm, find, if_pos heq.symm]
        rfl
      · rw [find_of_gt hgt, find_of_gt hgt, ihr]

/-- An insertion does not change what is found for another key. -/
theorem find_insert_of_ne (hk : k ≠ key a) : find key k (insert key a t) = find key k t := by
  induction t with
  | nil =>
    refine (if_neg (Ne.symm hk)).trans ?_
    split_ifs <;> rfl
  | node b l r ihl ihr =>
    rw [insert]
    split_ifs
    · rw [find, find, ihl]
    · rw [find, find, ihr]

/-! ## Removal -/

variable (key) in
/-- Remove the first value with the key `k` on the search path. The least value of the left
    subtree takes its place, or else the value `top` of the right subtree. -/
def remove (top : BinaryTree α → Option α) (k : K) : BinaryTree α → Option (BinaryTree α)
  | nil => none
  | node a l r =>
    if key a = k then
      match min? l with
      | some m => (remove top (key m) l).map fun l' => node m l' r
      | none =>
        match top r with
        | some m => (remove top (key m) r).map fun r' => node m nil r'
        | none => some nil
    else if key a < k then (remove top k l).map fun l' => node a l' r
    else (remove top k r).map fun r' => node a l r'

theorem remove_of_lt {top : BinaryTree α → Option α} (hlt : key a < k) :
    remove key top k (node a l r) = (remove key top k l).map fun l' => node a l' r := by
  rw [remove, if_neg hlt.ne, if_pos hlt]

theorem remove_of_gt {top : BinaryTree α → Option α} (hlt : k < key a) :
    remove key top k (node a l r) = (remove key top k r).map fun r' => node a l r' := by
  rw [remove, if_neg hlt.ne', if_neg hlt.asymm]

/-- A choice of one of the values of each tree that has some. -/
structure Picks (top : BinaryTree α → Option α) : Prop where
  mem : ∀ {t m}, top t = some m → m ∈ elems t
  eq_nil : ∀ {t}, top t = none → t = nil

theorem picks_max? : Picks fun t : BinaryTree α => max? t := ⟨mem_of_max?, max?_eq_none_iff.mp⟩

theorem Picks.nil {top : BinaryTree α → Option α} (hp : Picks top) :
    top BinaryTree.nil = none := by
  cases h : top BinaryTree.nil with
  | none => rfl
  | some m => cases hp.mem h

/-- A removal succeeds if a value with the key is there. -/
theorem remove_isSome {top : BinaryTree α → Option α} (hp : Picks top) (h : Ordered key t)
    (hk : ∃ a ∈ elems t, key a = k) : ∃ t', remove key top k t = some t' := by
  induction t generalizing k with
  | nil =>
    obtain ⟨a, ha, -⟩ := hk
    cases ha
  | node b l r ihl ihr =>
    obtain ⟨hl, hr, hol, hor⟩ := h
    rw [remove]
    split_ifs with heq hlt
    · cases hmin : min? l with
      | some m =>
        obtain ⟨l', hl'⟩ := ihl hol ⟨m, mem_of_min? hmin, rfl⟩
        exact ⟨node m l' r, by simp [hl']⟩
      | none =>
        cases htop : top r with
        | some m =>
          obtain ⟨r', hr'⟩ := ihr hor ⟨m, hp.mem htop, rfl⟩
          exact ⟨node m nil r', by simp [hr']⟩
        | none => exact ⟨nil, rfl⟩
    · obtain ⟨a, ha, hka⟩ := hk
      obtain ⟨l', hl'⟩ : ∃ l', remove key top k l = some l' := by
        refine ihl hol ?_
        rcases mem_elems_node.mp ha with rfl | ha | ha
        · exact absurd hka heq
        · exact ⟨a, ha, hka⟩
        · exact absurd (hka ▸ hr a ha) (not_le_of_gt hlt)
      exact ⟨node b l' r, by rw [hl']; rfl⟩
    · obtain ⟨a, ha, hka⟩ := hk
      obtain ⟨r', hr'⟩ : ∃ r', remove key top k r = some r' := by
        refine ihr hor ?_
        rcases mem_elems_node.mp ha with rfl | ha | ha
        · exact absurd hka heq
        · exact absurd (lt_of_le_of_ne (hka ▸ hl a ha) heq) hlt
        · exact ⟨a, ha, hka⟩
      exact ⟨node b l r', by rw [hr']; rfl⟩

/-- What was inserted under a key that was not found is removed again. -/
theorem remove_insert {top : BinaryTree α → Option α} (hp : Picks top)
    (hk : find key (key a) t = none) : remove key top (key a) (insert key a t) = some t := by
  induction t with
  | nil =>
    rw [insert, remove, if_pos rfl, hp.nil]
    rfl
  | node b l r ihl ihr =>
    rw [insert]
    rcases lt_trichotomy (key b) (key a) with hlt | heq | hgt
    · rw [find_of_lt hlt] at hk
      rw [if_pos hlt, remove_of_lt hlt, ihl hk]
      rfl
    · rw [find, if_pos heq] at hk
      cases hk
    · rw [find_of_gt hgt] at hk
      rw [if_neg hgt.asymm, remove_of_gt hgt, ihr hk]
      rfl

/-- A removal takes away one value with the key. -/
theorem elems_remove {top : BinaryTree α → Option α} (hp : Picks top) (hd : Determined key t)
    (ht' : remove key top k t = some t') : ∃ a, key a = k ∧ elems t = a ::ₘ elems t' := by
  induction t generalizing k t' with
  | nil => cases ht'
  | node b l r ihl ihr =>
    rw [remove] at ht'
    split_ifs at ht' with heq hlt
    · cases hmin : min? l with
      | some m =>
        rw [hmin] at ht'
        obtain ⟨l', hl', rfl⟩ := Option.map_eq_some_iff.mp ht'
        obtain ⟨x, hx, hel⟩ := ihl hd.left hl'
        have hxm : x = m := hd.left x (hel ▸ Multiset.mem_cons_self x _) m (mem_of_min? hmin) hx
        refine ⟨b, heq, ?_⟩
        rw [elems_node, elems_node, hel, hxm, Multiset.cons_add]
      | none =>
        rw [hmin] at ht'
        rw [min?_eq_none_iff] at hmin
        subst hmin
        cases htop : top r with
        | some m =>
          rw [htop] at ht'
          obtain ⟨r', hr', rfl⟩ := Option.map_eq_some_iff.mp ht'
          obtain ⟨x, hx, her⟩ := ihr hd.right hr'
          have hxm : x = m := hd.right x (her ▸ Multiset.mem_cons_self x _) m (hp.mem htop) hx
          refine ⟨b, heq, ?_⟩
          rw [elems_node, elems_node, her, hxm, Multiset.add_cons]
        | none =>
          rw [htop] at ht'
          cases ht'
          rw [hp.eq_nil htop]
          exact ⟨b, heq, rfl⟩
    · obtain ⟨l', hl', rfl⟩ := Option.map_eq_some_iff.mp ht'
      obtain ⟨x, hx, hel⟩ := ihl hd.left hl'
      exact ⟨x, hx, elems_node_left hel⟩
    · obtain ⟨r', hr', rfl⟩ := Option.map_eq_some_iff.mp ht'
      obtain ⟨x, hx, her⟩ := ihr hd.right hr'
      exact ⟨x, hx, elems_node_right her⟩

/-- A removal takes away one node. -/
theorem numNodes_remove {top : BinaryTree α → Option α} (hp : Picks top)
    (ht' : remove key top k t = some t') : t.numNodes = t'.numNodes + 1 := by
  induction t generalizing k t' with
  | nil => cases ht'
  | node b l r ihl ihr =>
    rw [remove] at ht'
    split_ifs at ht' with heq hlt
    · cases hmin : min? l with
      | some m =>
        rw [hmin] at ht'
        obtain ⟨l', hl', rfl⟩ := Option.map_eq_some_iff.mp ht'
        have hnum := ihl hl'
        simp only [numNodes]
        omega
      | none =>
        rw [hmin] at ht'
        rw [min?_eq_none_iff] at hmin
        subst hmin
        cases htop : top r with
        | some m =>
          rw [htop] at ht'
          obtain ⟨r', hr', rfl⟩ := Option.map_eq_some_iff.mp ht'
          have hnum := ihr hr'
          simp only [numNodes]
          omega
        | none =>
          rw [htop] at ht'
          cases ht'
          rw [hp.eq_nil htop]
          rfl
    · obtain ⟨l', hl', rfl⟩ := Option.map_eq_some_iff.mp ht'
      have hnum := ihl hl'
      simp only [numNodes]
      omega
    · obtain ⟨r', hr', rfl⟩ := Option.map_eq_some_iff.mp ht'
      have hnum := ihr hr'
      simp only [numNodes]
      omega

/-- What is left of a tree was there before. -/
theorem mem_of_mem_remove {top : BinaryTree α → Option α} (hp : Picks top) (hd : Determined key t)
    (ht' : remove key top k t = some t') (hx : x ∈ elems t') : x ∈ elems t := by
  obtain ⟨a, -, hel⟩ := elems_remove hp hd ht'
  rw [hel]
  exact Multiset.mem_cons_of_mem hx

theorem remove_isSome_iff {top : BinaryTree α → Option α} (hp : Picks top) (h : Ordered key t)
    (hd : Determined key t) :
    (remove key top k t).isSome ↔ ∃ a ∈ elems t, key a = k := by
  refine ⟨fun hsome => ?_, fun hk => Option.isSome_iff_exists.mpr (remove_isSome hp h hk)⟩
  obtain ⟨t', ht'⟩ := Option.isSome_iff_exists.mp hsome
  obtain ⟨a, ha, hel⟩ := elems_remove hp hd ht'
  exact ⟨a, hel ▸ Multiset.mem_cons_self a _, ha⟩

/-- A removal keeps the order, if the extreme value of a right subtree is the greatest. -/
theorem Ordered.remove (h : Ordered key t) (hd : Determined key t)
    (ht' : remove key max? k t = some t') : Ordered key t' := by
  induction t generalizing k t' with
  | nil => cases ht'
  | node b l r ihl ihr =>
    obtain ⟨hl, hr, hol, hor⟩ := h
    rw [SearchTree.remove] at ht'
    split_ifs at ht' with heq hlt
    · cases hmin : min? l with
      | some m =>
        rw [hmin] at ht'
        obtain ⟨l', hl', rfl⟩ := Option.map_eq_some_iff.mp ht'
        refine ⟨fun y hy => ?_, fun y hy => ?_, ihl hol hd.left hl', hor⟩
        · exact le_of_min? hol hmin (mem_of_mem_remove picks_max? hd.left hl' hy)
        · exact (hr y hy).trans (hl m (mem_of_min? hmin))
      | none =>
        rw [hmin] at ht'
        cases hmax : max? r with
        | some m =>
          rw [hmax] at ht'
          obtain ⟨r', hr', rfl⟩ := Option.map_eq_some_iff.mp ht'
          refine ⟨fun y hy => ?_, fun y hy => ?_, trivial, ihr hor hd.right hr'⟩
          · cases hy
          · exact le_of_max? hor hmax (mem_of_mem_remove picks_max? hd.right hr' hy)
        | none =>
          rw [hmax] at ht'
          cases ht'
          trivial
    · obtain ⟨l', hl', rfl⟩ := Option.map_eq_some_iff.mp ht'
      exact ⟨fun y hy => hl y (mem_of_mem_remove picks_max? hd.left hl' hy), hr,
        ihl hol hd.left hl', hor⟩
    · obtain ⟨r', hr', rfl⟩ := Option.map_eq_some_iff.mp ht'
      exact ⟨hl, fun y hy => hr y (mem_of_mem_remove picks_max? hd.right hr' hy), hol,
        ihr hor hd.right hr'⟩

/-! ## Distinct keys -/

theorem Distinct.insert (h : Distinct key t) (hx : ∀ x ∈ elems t, key x ≠ key a) :
    Distinct key (insert key a t) := by
  rw [Distinct, elems_insert, Multiset.map_cons, Multiset.nodup_cons]
  refine ⟨fun hm => ?_, h⟩
  obtain ⟨x, hmem, heq⟩ := Multiset.mem_map.mp hm
  exact hx x hmem heq

/-- With distinct keys the values on the left have greater keys. -/
theorem Ordered.lt_left (h : Ordered key (node a l r)) (hd : Distinct key (node a l r))
    (hx : x ∈ elems l) : key a < key x :=
  lt_of_le_of_ne (h.1 x hx) (hd.ne_root (Multiset.mem_add.mpr (.inl hx))).symm

/-- With distinct keys the values on the right have smaller keys. -/
theorem Ordered.lt_right (h : Ordered key (node a l r)) (hd : Distinct key (node a l r))
    (hx : x ∈ elems r) : key x < key a :=
  lt_of_le_of_ne (h.2.1 x hx) (hd.ne_root (Multiset.mem_add.mpr (.inr hx)))

theorem find_eq_some_iff (h : Ordered key t) (hd : Determined key t) :
    find key k t = some a ↔ a ∈ elems t ∧ key a = k := by
  refine ⟨find_eq_some, fun ⟨ha, hk⟩ => ?_⟩
  obtain ⟨b, hb⟩ := Option.isSome_iff_exists.mp ((find_isSome_iff h).mpr ⟨a, ha, hk⟩)
  obtain ⟨hmem, hkb⟩ := find_eq_some hb
  rw [hb, hd b hmem a ha (hkb.trans hk.symm)]

/-- A tree with one value less finds all the others. -/
theorem find_of_elems (h : Ordered key t) (h' : Ordered key t') (hd : Distinct key t)
    (hel : elems t = a ::ₘ elems t') :
    find key (key a) t' = none ∧ ∀ j ≠ key a, find key j t' = find key j t := by
  have hle : elems t' ≤ elems t := hel ▸ Multiset.le_cons_self _ a
  constructor
  · rw [find_eq_none_iff h']
    intro x hx heq
    rw [Distinct, hel, Multiset.map_cons, Multiset.nodup_cons] at hd
    exact hd.1 (Multiset.mem_map.mpr ⟨x, hx, heq⟩)
  · intro j hj
    refine Option.ext fun b => ?_
    rw [find_eq_some_iff h' (hd.of_le hle).determined, find_eq_some_iff h hd.determined, hel,
      Multiset.mem_cons]
    constructor
    · rintro ⟨hb, hk⟩
      exact ⟨.inr hb, hk⟩
    · rintro ⟨rfl | hb, hk⟩
      · exact absurd hk.symm hj
      · exact ⟨hb, hk⟩

/-- The removal of the least value never asks for `top`. -/
theorem remove_min? {top top' : BinaryTree α → Option α} (hp : Picks top) (hp' : Picks top')
    (h : Ordered key t) (hd : Distinct key t) (hm : min? t = some m) :
    remove key top (key m) t = remove key top' (key m) t := by
  induction t generalizing m with
  | nil => cases hm
  | node a l r ihl ihr =>
    rw [min?, Option.some.injEq] at hm
    cases hmin : min? r with
    | none =>
      rw [hmin] at hm
      obtain rfl : a = m := hm
      obtain rfl : r = .nil := min?_eq_none_iff.mp hmin
      rw [remove, if_pos rfl, hp.nil, remove, if_pos rfl, hp'.nil]
      cases hl : min? l with
      | none => rfl
      | some b => exact congrArg (Option.map fun l' => node b l' nil) (ihl h.2.2.1 hd.left hl)
    | some b =>
      rw [hmin] at hm
      obtain rfl : b = m := hm
      have hlt := h.lt_right hd (mem_of_min? hmin)
      rw [remove_of_gt hlt, remove_of_gt hlt, ihr h.2.2.2 hd.right hmin]

end SearchTree
