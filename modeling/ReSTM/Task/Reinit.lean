import ReSTM.Task.Emptiness

/-!
# Initialising a queue that exists

`TaskQueue.init` (`stm/task/TaskQueue.scala`, lines 49–58) keeps a queue that has as many lists as it
is asked for, and puts a new one in the place of any other. The daemons ask for the same number each
time they start, but `grow` changes the number of lists, and then the next start loses what is queued
(`init_loses`).

* `drain`: takes that get all locks take every item.
* `init_keeps_iff`: when `init` keeps what is queued.
-/

namespace ReSTM

open Transition

variable {T K : Type}

namespace TaskQueue

/-- `init` (lines 49–58). -/
def init (size : ℤ) (q : TaskQueue T K) : TaskQueue T K :=
  match q.root with
  | none => { root := some (.createInnerData size) }
  | some inner =>
    if (inner.queues.length : ℤ) ≠ size then { root := some (.createInnerData size) } else q

section Work

variable [LinearOrder K] [Identifiable T K] [BEq T]

/-- The items that takes one after the other return. A take that fails has changed nothing. -/
def takes : TaskQueue T K → List Chance → List T
  | _, [] => []
  | q, c :: cs =>
    match q.take c with
    | .ok (some x, q') => x :: takes q' cs
    | .ok (none, q') => takes q' cs
    | .error _ => takes q cs

/-- What is queued in `q` can still be listed and taken in `q'`, and the ids and the number are the
    same. -/
structure KeepsWork (q q' : TaskQueue T K) : Prop where
  stream : ∀ items, q.stream = .ok items → ∃ items', q'.stream = .ok items' ∧ items ⊆ items'
  take : ∀ items, q.stream = .ok items → ∀ x ∈ items, ∃ cs, x ∈ q'.takes cs
  contains : ∀ id, (q'.contains id).map Prod.fst = (q.contains id).map Prod.fst
  size : q'.size.1 = q.size.1

/-- A transaction that gets all locks. -/
def unopposed : Chance := ⟨fun _ => 0, fun _ => true, fun _ => 0, fun _ => true⟩

end Work

end TaskQueue

/-! ## Taking everything -/

namespace ScalarArray

/-- A counter that can be locked is changed. -/
theorem add_unopposed {a : ScalarArray} (ha : a.getInner ≠ []) (draws : ℕ → ℚ) (v : ℤ) :
    ∃ a', a.add draws (fun _ => true) v = .ok a' := by
  have hne : shuffle draws a.getInner ≠ [] := fun hnil => ha (by
    have hperm := shuffle_perm draws a.getInner
    rw [hnil] at hperm
    exact hperm.symm.eq_nil)
  unfold ScalarArray.add
  cases hshuffle : shuffle draws a.getInner with
  | nil => exact absurd hshuffle hne
  | cons p l => exact ⟨_, rfl⟩

/-- The sum of no counters is zero. -/
theorem Totals.ne_nil {a : ScalarArray} {n : ℤ} (ha : Totals a n) (hn : n ≠ 0) : a.getInner ≠ [] := by
  intro hnil
  refine hn (ha.2.2.symm.trans ?_)
  rw [get, hnil]
  rfl

end ScalarArray

namespace TaskQueue

open MultiQueueData

variable [LinearOrder K] [Identifiable T K] {q q' : TaskQueue T K} {subs : List (List T)}

/-- A queue of empty lists has no items. -/
theorem Keeps.items_eq_nil (hq : Keeps q subs)
    (hempty : ∀ i, (q.getInner.queues.get i).Represents []) : subs.flatten = [] := by
  refine List.flatten_eq_nil_iff.mpr fun xs hxs => ?_
  obtain ⟨hlen, hget⟩ := List.forall₂_iff_get.mp hq.queues
  obtain ⟨i, rfl⟩ := List.mem_iff_get.mp hxs
  have hi : i.1 < q.getInner.queues.length := by
    rw [hlen]
    exact i.2
  have hstream := LinkedList.stream_spec (hget i.1 hi i.2)
  rw [LinkedList.stream_spec (hempty ⟨i.1, hi⟩)] at hstream
  exact (Except.ok.inj hstream).symm

theorem keeps_init (hq : Keeps q subs) (size : ℤ) : ∃ subs, Keeps (q.init size) subs := by
  unfold init
  split
  · exact ⟨_, keeps_createInnerData size⟩
  · split_ifs
    · exact ⟨_, keeps_createInnerData size⟩
    · exact ⟨subs, hq⟩

variable [BEq T]

/-- A take that gets all locks takes an item if there is one. -/
theorem Keeps.take_unopposed (hq : Keeps q subs) (hne : subs.flatten ≠ []) :
    ∃ x q' subs', q.take unopposed = .ok (some x, q') ∧ Keeps q' subs' ∧
      subs.flatten.Perm (x :: subs'.flatten) := by
  have hjustified := justified_takeMin hq.represents unopposed (le_refl (q.getInner.queues.length : ℤ))
  have htake := takeMin_eq (m := q.getInner) unopposed (le_refl (q.getInner.queues.length : ℤ))
  rcases takeFirst_spec hq.queues unopposed.queueLocked q.getInner.queues.length
    (q.getInner.shuffledLists unopposed) q.getInner.queues.length with
    ⟨msg, hconf⟩ | hempty | ⟨x, queues', subs', hfirst, hqueues, hperm⟩
  · rw [htake, hconf] at hjustified
    exact absurd (hq.items_eq_nil fun i => hjustified.2 i rfl) hne
  · rw [hempty] at htake
    have hall := ((takeMin_justified hq.represents unopposed).2 _ htake).2
    exact absurd (hq.items_eq_nil fun i => (hall i).2) hne
  · rw [hfirst] at htake
    have hlength : (subs.flatten.length : ℤ) ≠ 0 := by
      rw [Int.natCast_ne_zero, ne_eq, List.length_eq_zero_iff]
      exact hne
    obtain ⟨a, ha⟩ := ScalarArray.add_unopposed (hq.size.ne_nil hlength) unopposed.counterDraws (-1)
    rcases hq.remove_item hqueues hperm unopposed with ⟨msg, hconf⟩ | ⟨size, index, hsize, hindex, hkeeps⟩
    · cases ha.symm.trans hconf
    · refine ⟨x, { root := some { size := size, index := index, queues := queues' } }, subs', ?_,
        hkeeps, hperm⟩
      have hinner : q.getInner.take unopposed = .ok (some x, { q.getInner with queues := queues' }) :=
        htake
      rw [take, hinner]
      show (q.getInner.size.add _ _ (-1) >>= _) = _
      rw [hsize]
      show (q.getInner.index.remove _ >>= _) = _
      rw [hindex]
      rfl

/-- Takes that get all locks take every item. -/
theorem drain (n : ℕ) (hq : Keeps q subs) (hn : subs.flatten.length = n) :
    (q.takes (List.replicate n unopposed)).Perm subs.flatten := by
  induction n generalizing q subs with
  | zero =>
    rw [List.length_eq_zero_iff.mp hn]
    exact .nil
  | succ n ih =>
    have hne : subs.flatten ≠ [] := List.ne_nil_of_length_eq_add_one hn
    obtain ⟨x, q', subs', htake, hkeeps, hperm⟩ := hq.take_unopposed hne
    have hrest : (q'.takes (List.replicate n unopposed)).Perm subs'.flatten := by
      refine ih hkeeps ?_
      have hlength := hperm.length_eq
      rw [List.length_cons, hn] at hlength
      omega
    rw [List.replicate_succ, takes, htake]
    exact (hrest.cons x).trans hperm.symm

/-! ## Initialising again -/

/-- What `init` may be asked of a queue. -/
inductive InitOp (T K : Type) where
  | init (size : ℤ)
  | op (op : Op T K)

/-- The queue after a transaction. -/
def after (q : TaskQueue T K) (op : Op T K) : TaskQueue T K :=
  match outcome q op with
  | .ok (_, q') => q'
  | .error _ => q

/-- One transaction, or a start of the daemons. -/
def initStep (q : TaskQueue T K) : InitOp T K → TaskQueue T K
  | .init size => q.init size
  | .op op => q.after op

theorem keeps_initStep (hq : Keeps q subs) (op : InitOp T K) : ∃ subs, Keeps (initStep q op) subs := by
  cases op with
  | init size => exact keeps_init hq size
  | op op =>
    show ∃ subs, Keeps (q.after op) subs
    unfold after
    rcases outcome_spec hq op with ⟨e, he, -⟩ | ⟨x, q', subs', hok, hkeeps, -⟩
    · rw [he]
      exact ⟨subs, hq⟩
    · rw [hok]
      exact ⟨subs', hkeeps⟩

/-- A queue that stays as it is keeps its work. -/
theorem Keeps.keepsWork (hq : Keeps q subs) : KeepsWork q q where
  stream items hitems := ⟨items, hitems, fun _ h => h⟩
  take items hitems x hx := by
    cases (stream_spec hq).symm.trans hitems
    exact ⟨_, (drain _ hq rfl).mem_iff.mpr hx⟩
  contains _ := rfl
  size := rfl

/-- A queue without items keeps its work in any other without items. -/
theorem keepsWork_of_nil {subs' : List (List T)} (hq : Keeps q subs) (hnil : subs.flatten = [])
    (hq' : Keeps q' subs') (hnil' : subs'.flatten = []) : KeepsWork q q' where
  stream items hitems := by
    rw [stream_spec hq, hnil] at hitems
    cases hitems
    exact ⟨_, stream_spec hq', List.nil_subset _⟩
  take items hitems x hx := by
    rw [stream_spec hq, hnil] at hitems
    cases hitems
    cases hx
  contains id := by rw [contains_spec hq, contains_spec hq', hnil, hnil']; rfl
  size := by rw [size_spec hq, size_spec hq', hnil, hnil']

/-- In every state that `init`, `add`, `take`, `grow` and the other operations reach, `init` keeps
    what is queued exactly if the queue has as many lists as it is asked for, or has no items. -/
theorem init_keeps_iff (ops : List (InitOp T K)) (size : ℤ) :
    let q := run initStep ({} : TaskQueue T K) ops
    KeepsWork q (q.init size) ↔
      (∃ inner, q.root = some inner ∧ (inner.queues.length : ℤ) = size) ∨ q.stream = .ok [] := by
  intro q
  obtain ⟨subs, hq⟩ : ∃ subs, Keeps q subs :=
    run_invariant (I := fun q => ∃ subs, Keeps q subs) (fun _ op h => keeps_initStep h.choose_spec op)
      ops ⟨_, keeps_createInnerData 8⟩
  by_cases hsame : ∃ inner, q.root = some inner ∧ (inner.queues.length : ℤ) = size
  · obtain ⟨inner, hroot, hlength⟩ := id hsame
    have hinit : q.init size = q := by
      rw [init, hroot]
      exact if_neg (not_not.mpr hlength)
    rw [hinit]
    exact iff_of_true hq.keepsWork (.inl hsame)
  · have hinit : q.init size = { root := some (.createInnerData size) } := by
      cases hroot : q.root with
      | none => rw [init, hroot]
      | some inner =>
        rw [init, hroot]
        exact if_pos fun hlength => hsame ⟨inner, hroot, hlength⟩
    have hnew : Keeps (q.init size) (List.replicate size.toNat []) :=
      hinit ▸ keeps_createInnerData size
    rw [or_iff_right hsame, stream_spec hq, Except.ok.injEq]
    constructor
    · intro hkeeps
      obtain ⟨items, hitems, hsub⟩ := hkeeps.stream _ (stream_spec hq)
      rw [stream_spec hnew, List.flatten_replicate_nil] at hitems
      cases hitems
      exact List.subset_nil.mp hsub
    · exact fun hnil => keepsWork_of_nil hq hnil hnew List.flatten_replicate_nil

instance numbered : Identifiable ℕ ℕ := ⟨id⟩

theorem shuffle_const {α : Type} (l : List α) : shuffle (fun _ => 0) l = l := by
  rw [shuffle, List.mergeSort_of_pairwise (List.pairwise_of_forall fun _ _ => decide_eq_true le_rfl),
    List.zipIdx_map_fst]

/-- A queue with five lists grows, gets an item, and is asked for five lists again. -/
theorem init_loses :
    let q := run initStep ({} : TaskQueue ℕ ℕ) [.init 5, .op .grow, .op (.add unopposed 7)]
    q.stream = .ok [7] ∧ (q.init 5).stream = .ok [] ∧
      (q.contains 7).map Prod.fst = .ok true ∧ ((q.init 5).contains 7).map Prod.fst = .ok false ∧
      q.size.1 = 1 ∧ (q.init 5).size.1 = 0 := by
  simp only [run_cons, run_nil, initStep, after, outcome, add, MultiQueueData.add,
    ScalarArray.add, shuffledLists, unopposed, shuffle_const]
  decide

end TaskQueue

end ReSTM
