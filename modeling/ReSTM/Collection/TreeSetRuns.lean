import ReSTM.Collection.TreeSet
import ReSTM.Common.Transition

/-!
# Runs of a `TreeSet`

Every call on a `TreeSet` is a transaction (`stm/collection/TreeSet.scala`, lines 155–193).
`TreeSet.remove` recovers from a `NoSuchElementException` inside of its transaction, so that what
was written before the exception would stay.

* `TreeSetNode.removeKept_eq`: nothing was written before.
* `TreeSet.holds_run`: after any calls the set holds a multiset, in a search tree.
* `TreeSet.multiset_run`: what the operations return then.
* `TreeSet.add_not_idempotent`: a value that is added twice has to be removed twice.
-/

namespace ReSTM

open BinaryTree HeapModel Transition WP
open SearchTree hiding insert remove

variable {K : Type}

namespace TreeSetNode

open Nodes

/-- A transaction on the nodes of a set that keeps what it wrote before it fails. -/
abbrev KeptTxn (K α : Type) : Type := EStateM Failure (Heap (TreeSetNode K)) α

/-- An operation that writes nothing when it fails. -/
def kept {α : Type} (x : SetTxn K α) : KeptTxn K α := fun h =>
  match x h with
  | .ok (a, h') => .ok a h'
  | .error e => .error e h

section Order

variable [LinearOrder K]

/-- `remove` (lines 54–101), where what was written stays when it fails. -/
def removeKept : ℕ → TreeSetNode K → K → Ptr → KeptTxn K Bool
  | 0, _, _, _ => throw stackOverflow
  | fuel + 1, n, newValue, self =>
    if n.value = newValue then
      match n.left with
      | some leftPtr => do
        let leftNode ← kept (read leftPtr)
        let minValue ← kept (leftNode.min fuel)
        let result ← removeKept fuel leftNode minValue leftPtr
        if result then kept (write equals self { n with left := none, value := minValue })
        else kept (write equals self { n with value := minValue })
        return false
      | none =>
        match n.right with
        | some rightPtr => do
          let rightNode ← kept (read rightPtr)
          let maxValue ← kept (rightNode.max fuel)
          let result ← removeKept fuel rightNode maxValue rightPtr
          if result then kept (write equals self { n with right := none, value := maxValue })
          else kept (write equals self { n with value := maxValue })
          return false
        | none => do
          kept (delete self)
          return true
    else if n.value < newValue then
      match n.left with
      | some leftPtr => do
        let result ← removeKept fuel (← kept (read leftPtr)) newValue leftPtr
        if result then kept (write equals self { n with left := none })
        return false
      | none => throw (.noSuchElement "null")
    else
      match n.right with
      | some rightPtr => do
        let result ← removeKept fuel (← kept (read rightPtr)) newValue rightPtr
        if result then kept (write equals self { n with right := none })
        return false
      | none => throw (.noSuchElement "null")

end Order

variable {α β : Type} {x : SetTxn K α} {f : α → SetTxn K β} {h : Heap (TreeSetNode K)}

/-- After a step that only reads. -/
theorem kept_bind_read {g : α → KeptTxn K β} (hx : ∀ a h', x h = .ok (a, h') → h' = h)
    (hg : ∀ a, x h = .ok (a, h) → g a h = kept (f a) h) :
    (kept x >>= g) h = kept (x >>= f) h := by
  cases hres : x h with
  | error e =>
    have hf : (x >>= f) h = .error e := bind_error hres
    show EStateM.bind (kept x) g h = _
    rw [EStateM.bind, kept, hres, kept, hf]
  | ok r =>
    obtain ⟨a, h'⟩ := r
    obtain rfl := hx a h' hres
    have hf : (x >>= f) h' = f a h' := bind_ok hres
    show EStateM.bind (kept x) g h' = _
    rw [EStateM.bind, kept, hres, kept, hf]
    exact hg a hres

/-- Before steps that do not fail. -/
theorem kept_bind_total {y : KeptTxn K α} {g : α → KeptTxn K β} (hy : y h = kept x h)
    (hg : ∀ a h', g a h' = kept (f a) h') (hf : ∀ a h', ∃ b h'', f a h' = .ok (b, h'')) :
    (y >>= g) h = kept (x >>= f) h := by
  show EStateM.bind y g h = _
  rw [EStateM.bind, hy]
  cases hres : x h with
  | error e =>
    have hbind : (x >>= f) h = .error e := bind_error hres
    rw [kept, hres, kept, hbind]
  | ok r =>
    obtain ⟨a, h'⟩ := r
    have hbind : (x >>= f) h = f a h' := bind_ok hres
    obtain ⟨b, h'', hb⟩ := hf a h'
    rw [kept, hres, kept, hbind]
    show g a h' = _
    rw [hg, kept, hb]

theorem read_keeps {p : Ptr} {n : TreeSetNode K} {h' : Heap (TreeSetNode K)}
    (hr : Nodes.read p h = .ok (n, h')) : h' = h := by
  unfold Nodes.read at hr
  split at hr
  · cases hr
    rfl
  · cases hr

/-- A step that only reads, after another one. -/
theorem bind_keeps {g : α → SetTxn K β} (hx : ∀ a h', x h = .ok (a, h') → h' = h)
    (hg : ∀ a b h', g a h = .ok (b, h') → h' = h) {b : β} {h' : Heap (TreeSetNode K)}
    (hb : (x >>= g) h = .ok (b, h')) : h' = h := by
  cases hres : x h with
  | error e =>
    rw [bind_error hres] at hb
    cases hb
  | ok r =>
    obtain ⟨a, h₁⟩ := r
    obtain rfl := hx a h₁ hres
    rw [bind_ok hres] at hb
    exact hg a b h' hb

theorem min_keeps {fuel : ℕ} {n : TreeSetNode K} {m : K} {h' : Heap (TreeSetNode K)}
    (hm : min fuel n h = .ok (m, h')) : h' = h := by
  induction fuel generalizing n m h' with
  | zero => cases hm
  | succ fuel ih =>
    rw [min] at hm
    cases hright : n.right with
    | none =>
      rw [hright] at hm
      cases hm
      rfl
    | some right =>
      rw [hright] at hm
      exact bind_keeps (fun _ _ hr => read_keeps hr) (fun _ _ _ hb => ih hb) hm

theorem max_keeps {fuel : ℕ} {n : TreeSetNode K} {m : K} {h' : Heap (TreeSetNode K)}
    (hm : max fuel n h = .ok (m, h')) : h' = h := by
  induction fuel generalizing n m h' with
  | zero => cases hm
  | succ fuel ih =>
    rw [max] at hm
    cases hleft : n.left with
    | none =>
      rw [hleft] at hm
      cases hm
      rfl
    | some left =>
      rw [hleft] at hm
      exact bind_keeps (fun _ _ hr => read_keeps hr) (fun _ _ _ hb => ih hb) hm

variable [LinearOrder K]

/-- A removal that fails has written nothing: the writes are on the way back. -/
theorem removeKept_eq (fuel : ℕ) (n : TreeSetNode K) (k : K) (self : Ptr)
    (h : Heap (TreeSetNode K)) : removeKept fuel n k self h = kept (remove fuel n k self) h := by
  induction fuel generalizing n k self h with
  | zero => rfl
  | succ fuel ih =>
    rw [removeKept, remove]
    split_ifs
    · cases n.left with
      | some p =>
        refine kept_bind_read (fun _ _ hr => read_keeps hr) fun c _ => ?_
        refine kept_bind_read (fun _ _ hm => min_keeps hm) fun m _ => ?_
        refine kept_bind_total (ih _ _ _ _) (fun r h' => ?_) fun r h' => ?_
        · cases r <;> rfl
        · cases r <;> exact ⟨_, _, rfl⟩
      | none =>
        cases n.right with
        | some p =>
          refine kept_bind_read (fun _ _ hr => read_keeps hr) fun c _ => ?_
          refine kept_bind_read (fun _ _ hm => max_keeps hm) fun m _ => ?_
          refine kept_bind_total (ih _ _ _ _) (fun r h' => ?_) fun r h' => ?_
          · cases r <;> rfl
          · cases r <;> exact ⟨_, _, rfl⟩
        | none => rfl
    · cases n.left with
      | some p =>
        refine kept_bind_read (fun _ _ hr => read_keeps hr) fun c _ => ?_
        refine kept_bind_total (ih _ _ _ _) (fun r h' => ?_) fun r h' => ?_
        · cases r <;> rfl
        · cases r <;> exact ⟨_, _, rfl⟩
      | none => rfl
    · cases n.right with
      | some p =>
        refine kept_bind_read (fun _ _ hr => read_keeps hr) fun c _ => ?_
        refine kept_bind_total (ih _ _ _ _) (fun r h' => ?_) fun r h' => ?_
        · cases r <;> rfl
        · cases r <;> exact ⟨_, _, rfl⟩
      | none => rfl

end TreeSetNode

namespace TreeSet

/-- A call that changes the set. -/
inductive Call (K : Type)
  | add (value : K)
  | remove (value : K)

section Order

variable [LinearOrder K]

/-- `remove` (lines 163–175). What was written before a `NoSuchElementException` stays. -/
def removeKept (value : K) (s : TreeSet K) : Except Failure (Bool × TreeSet K) :=
  match s.nodes.get s.rootPtr with
  | some r =>
    match r.removeKept s.fuel value s.rootPtr s.nodes with
    | .ok _ nodes => .ok (true, { s with nodes := nodes })
    | .error (.noSuchElement _) nodes => .ok (false, { s with nodes := nodes })
    | .error e _ => .error e
  | none => .ok (false, s)

/-- A call, as a transaction. -/
def call (s : TreeSet K) : Call K → TreeSet K
  | .add value =>
    match s.add value with
    | .ok s' => s'
    | .error _ => s
  | .remove value =>
    match s.removeKept value with
    | .ok (_, s') => s'
    | .error _ => s

/-- What a call does to a multiset. -/
def counts (M : Multiset K) : Call K → Multiset K
  | .add value => value ::ₘ M
  | .remove value => M.erase value

end Order

/-- `min` (lines 183–187), which does not look at its argument. -/
def min (_value : K) (s : TreeSet K) : Except Failure (Option K) :=
  match s.nodes.get s.rootPtr with
  | some prev => (prev.min s.fuel s.nodes).map fun r => some r.1
  | none => return none

/-- `max` (lines 189–193). -/
def max (_value : K) (s : TreeSet K) : Except Failure (Option K) :=
  match s.nodes.get s.rootPtr with
  | some prev => (prev.max s.fuel s.nodes).map fun r => some r.1
  | none => return none

variable {s : TreeSet K} {t : BinaryTree K}

theorem min_spec (hs : Represents s t) (v : K) : s.min v = .ok (min? t) := by
  unfold min
  rcases hs.cases with ⟨hroot, rfl⟩ | ⟨n, F, hroot, hheld, -, hfuel⟩
  · rw [hroot]
    rfl
  · obtain ⟨m, hm, hmin⟩ := TreeSetNode.min_spec hheld hfuel
    rw [hroot, hmin]
    show Except.map _ _ = _
    rw [hm]
    rfl

theorem max_spec (hs : Represents s t) (v : K) : s.max v = .ok (max? t) := by
  unfold max
  rcases hs.cases with ⟨hroot, rfl⟩ | ⟨n, F, hroot, hheld, -, hfuel⟩
  · rw [hroot]
    rfl
  · obtain ⟨m, hm, hmax⟩ := TreeSetNode.max_spec hheld hfuel
    rw [hroot, hmax]
    show Except.map _ _ = _
    rw [hm]
    rfl

variable [LinearOrder K] {M : Multiset K}

theorem removeKept_eq (s : TreeSet K) (k : K) : s.removeKept k = s.remove k := by
  unfold removeKept remove
  cases s.nodes.get s.rootPtr with
  | none => rfl
  | some r =>
    dsimp only
    rw [TreeSetNode.removeKept_eq, TreeSetNode.kept]
    cases r.remove s.fuel k s.rootPtr s.nodes with
    | ok res => rfl
    | error e => cases e <;> rfl

/-- A value that the set does not hold is not removed, and nothing changes. -/
theorem Holds.remove_absent {k : K} (hs : Holds s M) (hk : k ∉ M) : s.remove k = .ok (false, s) := by
  obtain ⟨t, hrep, ho, rfl⟩ := hs
  have hd : Determined id t := fun _ _ _ _ heq => heq
  refine remove_spec_none hrep (Option.not_isSome_iff_eq_none.mp fun hsome => hk ?_)
  obtain ⟨a, ha, rfl⟩ := (remove_isSome_iff picks_max? ho hd).mp hsome
  exact ha

/-- `min` is the least value. -/
theorem Holds.min (hs : Holds s M) (v : K) : ∃ o, s.min v = .ok o ∧ (o = none ↔ M = 0) ∧
    ∀ m, o = some m → m ∈ M ∧ ∀ x ∈ M, m ≤ x := by
  obtain ⟨t, hrep, ho, rfl⟩ := hs
  refine ⟨min? t, min_spec hrep v, ?_, fun m hm => ⟨mem_of_min? hm, fun x hx => ?_⟩⟩
  · rw [min?_eq_none_iff, elems_eq_zero_iff]
  · exact le_of_min? ho hm hx

/-- `max` is the greatest value. -/
theorem Holds.max (hs : Holds s M) (v : K) : ∃ o, s.max v = .ok o ∧ (o = none ↔ M = 0) ∧
    ∀ m, o = some m → m ∈ M ∧ ∀ x ∈ M, x ≤ m := by
  obtain ⟨t, hrep, ho, rfl⟩ := hs
  refine ⟨max? t, max_spec hrep v, ?_, fun m hm => ⟨mem_of_max? hm, fun x hx => ?_⟩⟩
  · rw [max?_eq_none_iff, elems_eq_zero_iff]
  · exact le_of_max? ho hm hx

theorem Holds.removeKept {k : K} (hs : Holds s M) (hk : k ∈ M) :
    ∃ s', s.removeKept k = .ok (true, s') ∧ Holds s' (M.erase k) := by
  rw [removeKept_eq]
  rw [← Multiset.cons_erase hk] at hs
  exact hs.remove

theorem Holds.call (hs : Holds s M) (c : Call K) : Holds (s.call c) (counts M c) := by
  cases c with
  | add x =>
    obtain ⟨s', hadd, hs'⟩ := hs.add x
    rw [TreeSet.call, hadd]
    exact hs'
  | remove x =>
    by_cases hx : x ∈ M
    · obtain ⟨s', hrem, hs'⟩ := hs.removeKept hx
      rw [TreeSet.call, hrem]
      exact hs'
    · rw [TreeSet.call, removeKept_eq, hs.remove_absent hx, counts, Multiset.erase_of_notMem hx]
      exact hs

/-- After any calls the set holds the values that were added and not removed. -/
theorem holds_run (hs : Holds s M) (calls : List (Call K)) :
    Holds (run call s calls) (run counts M calls) := by
  induction calls generalizing s M with
  | nil => exact hs
  | cons c calls ih => exact ih (hs.call c)

/-- The operations on the set are those on the multiset `M`, and its nodes are a search tree. -/
structure Behaves (s : TreeSet K) (M : Multiset K) : Prop where
  contains : ∀ x, s.contains x = .ok (decide (0 < M.count x))
  add : ∀ x, ∃ s', s.add x = .ok s' ∧ Holds s' (x ::ₘ M)
  remove : ∀ x, 0 < M.count x → ∃ s', s.removeKept x = .ok (true, s') ∧ Holds s' (M.erase x)
  absent : ∀ x, M.count x = 0 → s.removeKept x = .ok (false, s)
  min : ∀ v, ∃ o, s.min v = .ok o ∧ (o = none ↔ M = 0) ∧
    ∀ m, o = some m → m ∈ M ∧ ∀ x ∈ M, m ≤ x
  max : ∀ v, ∃ o, s.max v = .ok o ∧ (o = none ↔ M = 0) ∧
    ∀ m, o = some m → m ∈ M ∧ ∀ x ∈ M, x ≤ m
  ordered : ∃ t, Represents s t ∧ Ordered id t ∧ elems t = M

theorem Holds.behaves (hs : Holds s M) : Behaves s M where
  contains x := by
    rw [hs.contains]
    congr 2
    rw [Multiset.count_pos]
  add := hs.add
  remove x hx := hs.removeKept (Multiset.count_pos.mp hx)
  absent x hx := by
    rw [removeKept_eq]
    exact hs.remove_absent (Multiset.count_eq_zero.mp hx)
  min := hs.min
  max := hs.max
  ordered := hs

/-- After any calls a `TreeSet` is the multiset of the values that were added and not removed. -/
theorem multiset_run (calls : List (Call K)) : Behaves (run call {} calls) (run counts 0 calls) :=
  (holds_run holds_create calls).behaves

/-! ## Adding a value twice

`add` (lines 103–120) goes to the right for an equal value, where `contains` and `remove` stop. -/

/-- What `contains` and `remove` answer after any further calls does not depend on another `add`. -/
def Idempotent (s : TreeSet K) (x : K) : Prop :=
  ∀ (calls : List (Call K)) (y : K),
    (run call (s.call (.add x)) calls).contains y = (run call s calls).contains y ∧
      ((run call (s.call (.add x)) calls).removeKept y).map Prod.fst =
        ((run call s calls).removeKept y).map Prod.fst

theorem count_run_remove (M : Multiset K) (x : K) (n : ℕ) :
    (run counts M (List.replicate n (.remove x))).count x = M.count x - n := by
  induction n generalizing M with
  | zero => rfl
  | succ n ih =>
    rw [List.replicate_succ, run_cons, ih, counts, Multiset.count_erase_self]
    omega

theorem Holds.contains_count (hs : Holds s M) (x : K) :
    s.contains x = .ok (decide (0 < M.count x)) := hs.behaves.contains x

/-- In every run, another `add` of a value that the set contains is never without effect: after one
    `remove` the set still contains it, and after some more calls the answers differ. -/
theorem add_not_idempotent (calls : List (Call K)) (x : K)
    (hx : (run call {} calls).contains x = .ok true) :
    ¬Idempotent (run call {} calls) x ∧
      (((run call {} calls).call (.add x)).call (.remove x)).contains x = .ok true := by
  have hs : Holds (run call {} calls) (run counts 0 calls) := holds_run holds_create calls
  generalize run call {} calls = s at hs hx ⊢
  generalize run counts 0 calls = M at hs
  have hadd : Holds (s.call (.add x)) (x ::ₘ M) := hs.call (.add x)
  rw [hs.contains_count, Except.ok.injEq, decide_eq_true_iff] at hx
  constructor
  · intro hsame
    -- all copies but one are removed
    have heq := (hsame (List.replicate (M.count x) (.remove x)) x).1
    rw [(holds_run hadd _).contains_count, (holds_run hs _).contains_count, count_run_remove,
      count_run_remove, Multiset.count_cons_self, Nat.sub_self, Nat.add_sub_cancel_left] at heq
    cases heq
  · rw [(hadd.call (.remove x)).contains_count, counts, Multiset.count_erase_self,
      Multiset.count_cons_self]
    exact congrArg Except.ok (decide_eq_true hx)

theorem add_not_idempotent_one :
    ¬Idempotent (run call {} [.add 1] : TreeSet ℕ) 1 ∧
      (((run call {} [.add 1] : TreeSet ℕ).call (.add 1)).call (.remove 1)).contains 1 = .ok true :=
  add_not_idempotent [.add 1] 1 (by decide)

/-- Without the second `add` the value is gone after one `remove`, and with it the value stays. -/
theorem add_twice_differs :
    (run call {} [.add 1, .remove 1] : TreeSet ℕ).contains 1 = .ok false ∧
      (run call {} [.add 1, .add 1, .remove 1] : TreeSet ℕ).contains 1 = .ok true := by
  decide

end TreeSet

end ReSTM
