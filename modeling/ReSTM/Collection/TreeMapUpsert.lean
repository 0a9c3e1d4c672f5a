import ReSTM.Collection.TreeMapRemoval

/-!
# Adding to a `TreeMap`

`+=` (`TreeMap.scala`, lines 184–200) goes to the right for an equal key, where `get`, `contains` and
`-=` stop. A key that is there is not replaced but gets a second node below its own: `get` finds the
value before, and the removal of the key uncovers the other node (`add_shadowed`).

* `removeWith_held`: any removal leaves a tree, whatever its keys and values are.
* `add_upserts_iff`: in every run, `add` behaves as an upsert for the keys that are absent.
-/

namespace ReSTM

open BinaryTree HeapModel Transition WP
open SearchTree hiding insert remove

variable {T V : Type}

namespace BinaryTreeMapNode

open Nodes

variable [LinearOrder T] {h : Heap (BinaryTreeMapNode T V)} {n : BinaryTreeMapNode T V}
  {t : BinaryTree (T × Option V)} {F : Finset Ptr} {fuel : ℕ}
  {same : BinaryTreeMapNode T V → BinaryTreeMapNode T V → Bool}

/-- Any removal that does not fail leaves a tree. -/
theorem removeWith_held (hsame : SameKey same) (hh : Held h n t F) (hfuel : t.numNodes ≤ fuel)
    (k : T) : ∃ o, Removed h F (n.removeWith same fuel k h) o :=
  (removeWith_spec hsame hh hfuel k).imp fun _ hr => hr.2

/-- The removal of what was just inserted under an absent key promotes nothing. -/
theorem lossless_insert [DecidableEq V] {a : T × Option V} (hk : find Prod.fst a.1 t = none) :
    lossless a.1 (SearchTree.insert Prod.fst a t) = true := by
  induction t with
  | nil => exact if_pos rfl
  | node b l r ihl ihr =>
    rw [SearchTree.insert]
    rcases lt_trichotomy b.1 a.1 with hlt | heq | hgt
    · rw [find_of_lt hlt] at hk
      rw [if_pos hlt, lossless, if_neg hlt.ne, if_pos hlt, ihl hk]
    · rw [find, if_pos heq] at hk
      cases hk
    · rw [find_of_gt hgt] at hk
      rw [if_neg hgt.asymm, lossless, if_neg hgt.ne', if_neg hgt.asymm, ihr hk]

end BinaryTreeMapNode

namespace TreeMap

open BinaryTreeMapNode

variable [LinearOrder T] {m m' : TreeMap T V} {t : BinaryTree (T × Option V)} {k : T}

/-! ## Runs -/

/-- Whatever the keys and the values are, a removal that does not fail leaves a tree. -/
theorem represents_remove (hm : Represents m t) (hrem : m.remove k = .ok m') :
    ∃ t', Represents m' t' := by
  rw [← removeWith_equals, removeWith] at hrem
  rcases hm.cases with ⟨hroot, rfl⟩ | ⟨r, F, hroot, hheld, hfuel⟩
  · rw [hroot] at hrem
    cases hrem
    exact ⟨nil, represents_of_empty (by rw [writeRootWith_none]; rfl)⟩
  · obtain ⟨o, hremoved⟩ := removeWith_held sameKey_equals hheld hfuel k
    rw [hroot] at hrem
    dsimp only at hrem
    generalize r.removeWith BinaryTreeMapNode.equals m.fuel k m.nodes = res at hrem hremoved
    cases hremoved with
    | failed => cases hrem
    | gone =>
      cases hrem
      exact ⟨nil, represents_of_empty (by rw [writeRootWith_none]; rfl)⟩
    | @left h' r' t' F' hheld' =>
      cases hrem
      unfold writeRootWith
      split_ifs with hany
      · -- the root that is there has the links of the new one
        obtain ⟨o, hroot', hs⟩ := (Option.any_eq_true _ _).mp hany
        cases o with
        | none => cases hs
        | some r'' =>
          obtain ⟨-, hleft, hright⟩ := sameKey_equals r' r'' hs
          obtain ⟨l', r₁, L', R', rfl, hl', hr', hdisj, rfl⟩ := sides hheld'
          refine ⟨node (r''.key, r''.value) l' r₁, ?_⟩
          have hroot'' : m.root.join = some r'' := by rw [hroot']; rfl
          unfold Represents
          dsimp only
          rw [hroot'']
          have hleft' : TreeNode.left r' = TreeNode.left r'' := hleft
          have hright' : TreeNode.right r' = TreeNode.right r'' := hright
          exact ⟨L' ∪ R', .node (hleft' ▸ hl') (hright' ▸ hr') hdisj⟩
      · exact ⟨t', F', hheld'⟩

theorem represents_step (hm : ∃ t, Represents m t) (op : Op T V) : ∃ t, Represents (m.step op) t := by
  obtain ⟨t, hm⟩ := hm
  cases op with
  | add key value =>
    obtain ⟨m', hadd, hm'⟩ := add_spec hm key value
    rw [step_add hadd]
    exact ⟨_, hm'⟩
  | remove key =>
    cases hrem : m.remove key with
    | error e =>
      rw [step_remove_error hrem]
      exact ⟨t, hm⟩
    | ok m' =>
      rw [step_remove hrem]
      exact represents_remove hm hrem

/-! ## Upserts -/

/-- After `add` the key has the value and every other one what it had, and the key can be removed. -/
def Upserts (m : TreeMap T V) (k : T) (v : Option V) : Prop :=
  (m.step (.add k v)).get k = .ok v ∧
    (∀ j ≠ k, (m.step (.add k v)).get j = m.get j ∧
      (m.step (.add k v)).contains j = m.contains j) ∧
    ((m.step (.add k v)).step (.remove k)).contains k = .ok false

theorem represents_step_add (hm : Represents m t) (k : T) (v : Option V) :
    Represents (m.step (.add k v)) (SearchTree.insert Prod.fst (k, v) t) := by
  obtain ⟨m', hadd, hm'⟩ := add_spec hm k v
  rw [step_add hadd]
  exact hm'

/-- An absent key gets the value, and one that is there keeps its own. -/
theorem get_step_add (hm : Represents m t) (k : T) (v : Option V) :
    (m.step (.add k v)).get k = if find Prod.fst k t = none then .ok v else m.get k := by
  rw [get_spec (represents_step_add hm k v), get_spec hm, find_insert_self t (k, v)]
  cases hk : find Prod.fst k t with
  | none => rfl
  | some a => rfl

/-- An absent key is added, and removed again. -/
theorem upserts_of_absent (hm : Represents m t) (hk : find Prod.fst k t = none) (v : Option V) :
    Upserts m k v := by
  classical
  have hadd := represents_step_add hm k v
  refine ⟨?_, fun j hj => ⟨?_, ?_⟩, ?_⟩
  · rw [get_step_add hm, if_pos hk]
  · rw [get_spec hadd, get_spec hm, find_insert_of_ne hj]
  · rw [contains_spec hadd, contains_spec hm, find_insert_of_ne hj]
  · have hspec := removeWith_never_spec hadd k
    rw [remove_insert picks_top (a := (k, v)) hk,
      ← removeWith_eq_never sameKey_equals hadd (lossless_insert (a := (k, v)) hk),
      removeWith_equals] at hspec
    obtain ⟨m', hrem, hm'⟩ := hspec
    rw [step_remove hrem, contains_spec hm', hk]
    rfl

/-- In every run, `add` with a key behaves as an upsert for every value if and only if the key is
    absent. -/
theorem add_upserts_iff [Nonempty V] {s : TreeMap T V} (hs : s.root.join = none)
    (ops : List (Op T V)) (k : T) :
    (∀ v, Upserts (run step s ops) k v) ↔ (run step s ops).contains k = .ok false := by
  obtain ⟨t, hm⟩ : ∃ t, Represents (run step s ops) t :=
    run_invariant (I := fun m => ∃ t, Represents m t) (fun m op hm => represents_step hm op) ops
      ⟨nil, represents_of_empty hs⟩
  rw [contains_eq_false_iff hm]
  constructor
  · intro hall
    by_contra hk
    obtain ⟨a, ha⟩ := Option.ne_none_iff_exists'.mp hk
    -- another value than the one that is there
    obtain ⟨v, hv⟩ := exists_ne a.2
    have hget := (hall v).1
    rw [get_step_add hm, if_neg hk, get_spec hm, ha] at hget
    exact hv (Except.ok.inj hget).symm
  · exact fun hk v => upserts_of_absent hm hk v

theorem add_upserts_iff_one :
    Upserts (run step create [.add 2 (some 20)] : TreeMap ℕ ℕ) 1 (some 10) :=
  (add_upserts_iff rfl [.add 2 (some 20)] 1).mpr (by decide) (some 10)

/-- The second value of 1 is not found, and the removal of 1 leaves it there. -/
theorem add_shadowed :
    let m : TreeMap ℕ ℕ := run step create [.add 1 (some 10)]
    (m.step (.add 1 (some 20))).get 1 = .ok (some 10) ∧
      ((m.step (.add 1 (some 20))).step (.remove 1)).contains 1 = .ok true := by
  decide

end TreeMap

end ReSTM
