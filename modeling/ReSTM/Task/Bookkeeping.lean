import Mathlib.Data.List.Forall2
import ReSTM.Common.Transition
import ReSTM.Task.TaskQueue

/-!
# The books of a `TaskQueue`

The items in the lists, the number in the counters and the ids in the index stay in step,
whichever lists and counters a transaction can lock.

* `MultiQueueData.Keeps`: the lists hold some items, the counters their number and the index
  their ids.
* `add_spec`, `take_spec`, `takeMin_spec`: an operation adds or takes one item, or it is a
  conflict.
* `bookkeeping`: in every run the queue holds the items that were added and not taken.
-/

namespace ReSTM

open HeapModel Transition

section Lists

variable {α β : Type} {R : α → β → Prop}

/-- Related lists are related on both sides of a position, where an element may be replaced. -/
theorem exists_of_forall₂ {l : List α} {m : List β} (h : List.Forall₂ R l m) (i : Fin l.length) :
    ∃ l₁ l₂ m₁ b m₂, m = m₁ ++ b :: m₂ ∧ R (l.get i) b ∧ List.Forall₂ R l₁ m₁ ∧
      List.Forall₂ R l₂ m₂ ∧ ∀ a, l.set i a = l₁ ++ a :: l₂ := by
  induction h with
  | nil => exact i.elim0
  | @cons a b l m hab hlm ih =>
    cases i using Fin.cases with
    | zero => exact ⟨[], l, [], b, m, rfl, hab, .nil, hlm, fun _ => rfl⟩
    | succ i =>
      obtain ⟨l₁, l₂, m₁, b', m₂, rfl, hb', h₁, h₂, hset⟩ := ih i
      exact ⟨a :: l₁, l₂, b :: m₁, b', m₂, rfl, hb', .cons hab h₁, h₂,
        fun a' => congrArg (a :: ·) (hset a')⟩

theorem forall₂_insert {l₁ l₂ : List α} {m₁ m₂ : List β} {a : α} {b : β}
    (h₁ : List.Forall₂ R l₁ m₁) (hab : R a b) (h₂ : List.Forall₂ R l₂ m₂) :
    List.Forall₂ R (l₁ ++ a :: l₂) (m₁ ++ b :: m₂) :=
  List.rel_append h₁ (.cons hab h₂)

end Lists

variable {T K : Type}

namespace MultiQueueData

variable {queues : List (LinkedList T)} {subs : List (List T)}

theorem mapM_stream (hq : List.Forall₂ LinkedList.Represents queues subs) :
    queues.mapM LinkedList.stream = .ok subs := by
  induction hq with
  | nil => rfl
  | cons hlist _ ih =>
    rw [List.mapM_cons, LinkedList.stream_spec hlist, ih]
    rfl

section Keeps

variable [LinearOrder K] [Identifiable T K]

/-- The lists hold the items of `subs`, the counters their number and the index their ids. -/
structure Keeps (m : MultiQueueData T K) (subs : List (List T)) : Prop where
  queues : List.Forall₂ LinkedList.Represents m.queues subs
  size : m.size.Totals subs.flatten.length
  index : m.index.Holds (subs.flatten.map Identifiable.id : List K)

variable {m : MultiQueueData T K}

theorem keeps_createInnerData (size : ℤ) :
    Keeps (createInnerData size : MultiQueueData T K) (List.replicate size.toNat []) := by
  have hflat : (List.replicate size.toNat ([] : List T)).flatten = [] :=
    List.flatten_replicate_nil
  refine ⟨?_, ?_, ?_⟩
  · show List.Forall₂ _ (List.replicate _ _) _
    induction size.toNat with
    | zero => exact .nil
    | succ n ih => exact .cons LinkedList.represents_create ih
  · rw [hflat]
    exact ScalarArray.totals_create size
  · rw [hflat]
    exact TreeSet.holds_create

theorem Keeps.grow (hm : Keeps m subs) : Keeps m.grow (subs ++ [[]]) := by
  have hflat : (subs ++ [[]]).flatten = subs.flatten := by simp
  refine ⟨?_, hflat ▸ hm.size, hflat ▸ hm.index⟩
  exact List.rel_append hm.queues (.cons LinkedList.represents_create .nil)

/-- Of a queue with an item the number and the id can be taken back, and the index has the id. -/
theorem Keeps.remove_item {x : T} {queues' : List (LinkedList T)} {subs' : List (List T)}
    (hm : Keeps m subs) (hq : List.Forall₂ LinkedList.Represents queues' subs')
    (hperm : subs.flatten.Perm (x :: subs'.flatten)) (c : Chance) :
    (∃ msg, m.size.add c.counterDraws c.counterLocked (-1) = .error (.transactionConflict msg none)) ∨
      ∃ size index, m.size.add c.counterDraws c.counterLocked (-1) = .ok size ∧
        m.index.remove (Identifiable.id x) = .ok (true, index) ∧
        Keeps { size := size, index := index, queues := queues' } subs' := by
  rcases hm.size.add c.counterDraws c.counterLocked (-1) with hconf | ⟨size, hsize, htotals⟩
  · exact .inl hconf
  · have hindex := hm.index
    rw [Multiset.coe_eq_coe.mpr (hperm.map Identifiable.id), List.map_cons,
      ← Multiset.cons_coe] at hindex
    obtain ⟨index, hrem, hholds⟩ := TreeSet.Holds.remove hindex
    refine .inr ⟨size, index, hsize, hrem, hq, ?_, hholds⟩
    have hlen := hperm.length_eq
    rw [List.length_cons] at hlen
    rw [hlen] at htotals
    have heq : ((subs'.flatten.length + 1 : ℕ) : ℤ) + -1 = subs'.flatten.length := by omega
    rwa [heq] at htotals

end Keeps

variable [BEq T]

/-- An item goes to the end of a list that could be locked. -/
theorem addFirst_spec (hq : List.Forall₂ LinkedList.Represents queues subs) (locked : ℕ → Bool)
    (value : T) (l : List (Fin queues.length)) :
    (∃ msg, addFirst locked value queues l = .error (.transactionConflict msg none)) ∨
      ∃ queues' subs', addFirst locked value queues l = .ok queues' ∧
        List.Forall₂ LinkedList.Represents queues' subs' ∧
        subs'.flatten.Perm (value :: subs.flatten) := by
  induction l with
  | nil => exact .inl ⟨_, rfl⟩
  | cons i l ih =>
    rw [addFirst]
    split_ifs
    · obtain ⟨q₁, q₂, s₁, xs, s₂, rfl, hxs, h₁, h₂, hset⟩ := exists_of_forall₂ hq i
      obtain ⟨list, hadd, hlist⟩ := LinkedList.add_spec hxs value
      refine .inr ⟨_, _, ?_, hset list ▸ forall₂_insert h₁ hlist h₂, ?_⟩
      · rw [hadd]
        rfl
      · simp only [List.flatten_append, List.flatten_cons, List.append_assoc, List.singleton_append]
        rw [← List.append_assoc, ← List.append_assoc]
        exact List.perm_middle
    · exact ih

/-- The oldest item of a list that could be locked is taken, or enough lists are empty. -/
theorem takeFirst_spec (hq : List.Forall₂ LinkedList.Represents queues subs) (locked : ℕ → Bool)
    (minEmpty : ℤ) (l : List (Fin queues.length)) (k : ℤ) :
    (∃ msg, takeFirst locked minEmpty queues l k = .error (.transactionConflict msg none)) ∨
      takeFirst locked minEmpty queues l k = .ok (none, queues) ∨
      ∃ x queues' subs', takeFirst locked minEmpty queues l k = .ok (some x, queues') ∧
        List.Forall₂ LinkedList.Represents queues' subs' ∧
        subs.flatten.Perm (x :: subs'.flatten) := by
  induction l generalizing k with
  | nil => exact .inl ⟨_, rfl⟩
  | cons i l ih =>
    by_cases hlock : locked i
    · obtain ⟨q₁, q₂, s₁, xs, s₂, rfl, hxs, h₁, h₂, hset⟩ := exists_of_forall₂ hq i
      cases xs with
      | nil =>
        have heq : takeFirst locked minEmpty queues (i :: l) k =
            if k ≤ 1 then .ok (none, queues) else takeFirst locked minEmpty queues l (k - 1) := by
          rw [takeFirst, if_pos hlock, LinkedList.remove_spec_nil hxs]
          rfl
        rw [heq]
        split_ifs
        · exact .inr (.inl rfl)
        · exact ih (k - 1)
      | cons x xs =>
        obtain ⟨list, hrem, hlist⟩ := LinkedList.remove_spec hxs
        refine .inr (.inr ⟨x, _, _, ?_, hset list ▸ forall₂_insert h₁ hlist h₂, ?_⟩)
        · rw [takeFirst, if_pos hlock, hrem]
          rfl
        · simp only [List.flatten_append, List.flatten_cons, List.cons_append]
          exact List.perm_middle
    · rw [takeFirst, if_neg hlock]
      exact ih k

theorem takeMin_eq {m : MultiQueueData T K} (c : Chance) {minEmpty : ℤ}
    (hmin : minEmpty ≤ m.queues.length) : m.takeMin c minEmpty =
      (takeFirst c.queueLocked minEmpty m.queues (m.shuffledLists c) minEmpty).map
        fun r => (r.1, { m with queues := r.2 }) := by
  unfold takeMin
  rw [if_neg (not_lt.mpr hmin)]
  show (takeFirst _ _ _ _ _ >>= _) = _
  cases takeFirst c.queueLocked minEmpty m.queues (m.shuffledLists c) minEmpty <;> rfl

end MultiQueueData

namespace TaskQueue

open MultiQueueData

variable [LinearOrder K] [Identifiable T K] {q : TaskQueue T K} {subs : List (List T)}

/-- The items of a queue by its lists, with their number and their ids. -/
def Keeps (q : TaskQueue T K) (subs : List (List T)) : Prop := q.getInner.Keeps subs

theorem size_spec (hq : Keeps q subs) :
    q.size = ((subs.flatten.length : ℤ), { root := some q.getInner }) :=
  Prod.ext hq.size.2.2 rfl

theorem contains_spec (hq : Keeps q subs) (id : K) :
    q.contains id = .ok (decide (∃ x ∈ subs.flatten, Identifiable.id x = id),
      { root := some q.getInner }) := by
  unfold contains
  rw [hq.index.contains]
  simp only [Multiset.mem_coe, List.mem_map]
  rfl

/-- `stream` lists the items. -/
theorem stream_spec (hq : Keeps q subs) : q.stream = .ok subs.flatten := by
  unfold stream
  cases hroot : q.root with
  | none =>
    have hinner : q.getInner = .createInnerData 8 := by
      rw [getInner, hroot]
      rfl
    have hzero : subs.flatten.length = (0 : ℤ) :=
      hq.size.2.2.symm.trans (hinner ▸ (ScalarArray.totals_create 8).2.2)
    have hnil : subs.flatten = [] := List.eq_nil_of_length_eq_zero (by omega)
    rw [hnil]
    rfl
  | some inner =>
    have hinner : q.getInner = inner := by
      rw [getInner, hroot]
      rfl
    show (inner.queues.mapM LinkedList.stream >>= _) = _
    rw [mapM_stream (hinner ▸ hq.queues)]
    rfl

/-! ## What operations may end in -/

/-- The operations on a queue. -/
inductive Op (T K : Type) where
  | add (c : Chance) (value : T)
  | take (c : Chance)
  | takeMin (c : Chance) (minEmpty : ℤ)
  | grow
  | size
  | contains (id : K)

/-- What an operation adds. -/
def Op.item : Op T K → Option T
  | .add _ value => some value
  | _ => none

/-- A queue with the items that were added and those that were taken. -/
structure Ledger (T K : Type) where
  queue : TaskQueue T K
  added : List T := []
  taken : List T := []

/-- A queue that has just been created with a number of lists, or that has a pointer to nothing. -/
def start (size : Option ℤ) : Ledger T K := { queue := size.elim {} create }

/-- The items of the queue are those that were added and not taken. -/
def Balanced (s : Ledger T K) : Prop :=
  ∃ subs, Keeps s.queue subs ∧ (subs.flatten ++ s.taken).Perm s.added

theorem balanced_start (size : Option ℤ) : Balanced (start size : Ledger T K) := by
  cases size with
  | none =>
    refine ⟨_, keeps_createInnerData 8, ?_⟩
    rw [List.flatten_replicate_nil]
    exact .nil
  | some n =>
    refine ⟨_, keeps_createInnerData n, ?_⟩
    rw [List.flatten_replicate_nil]
    exact .nil

/-- What a transaction that takes an item may end in. -/
def Takes (q : TaskQueue T K) (subs : List (List T))
    (res : Except Failure (Option T × TaskQueue T K)) : Prop :=
  (∃ msg, res = .error (.transactionConflict msg none)) ∨
    res = .ok (none, { root := some q.getInner }) ∨
    ∃ x q' subs', res = .ok (some x, q') ∧ Keeps q' subs' ∧ subs.flatten.Perm (x :: subs'.flatten)

/-- The failures of an operation: a conflict, or more empty lists are asked for than there are
    lists. -/
def Refusal (q : TaskQueue T K) (op : Op T K) (e : Failure) : Prop :=
  (∃ msg, e = .transactionConflict msg none) ∨
    ∃ c minEmpty, op = .takeMin c minEmpty ∧ (q.getInner.queues.length : ℤ) < minEmpty

/-- What an operation may end in. -/
def Settles (q : TaskQueue T K) (subs : List (List T)) (op : Op T K)
    (res : Except Failure (Option T × TaskQueue T K)) : Prop :=
  (∃ e, res = .error e ∧ Refusal q op e) ∨
    ∃ x q' subs', res = .ok (x, q') ∧ Keeps q' subs' ∧
      (x.toList ++ subs'.flatten).Perm (op.item.toList ++ subs.flatten)

theorem Takes.settles {res : Except Failure (Option T × TaskQueue T K)} (h : Takes q subs res)
    (hq : Keeps q subs) {op : Op T K} (hitem : op.item = none) : Settles q subs op res := by
  unfold Settles
  rw [hitem]
  rcases h with ⟨msg, hconf⟩ | hnone | ⟨x, q', subs', hsome, hkeeps, hperm⟩
  · exact .inl ⟨_, hconf, .inl ⟨msg, rfl⟩⟩
  · exact .inr ⟨none, _, subs, hnone, hq, .refl _⟩
  · exact .inr ⟨some x, q', subs', hsome, hkeeps, hperm.symm⟩

/-! ## The operations -/

variable [BEq T]

/-- `add` adds the item, or it is a conflict. -/
theorem add_spec (hq : Keeps q subs) (c : Chance) (value : T) :
    (∃ msg, q.add c value = .error (.transactionConflict msg none)) ∨
      ∃ q' subs', q.add c value = .ok q' ∧ Keeps q' subs' ∧
        subs'.flatten.Perm (value :: subs.flatten) := by
  unfold add MultiQueueData.add
  rcases addFirst_spec hq.queues c.queueLocked value (q.getInner.shuffledLists c) with
    ⟨msg, hconf⟩ | ⟨queues', subs', hadd, hqueues, hperm⟩
  · rw [hconf]
    exact .inl ⟨msg, rfl⟩
  · rw [hadd]
    rcases hq.size.add c.counterDraws c.counterLocked 1 with ⟨msg, hconf⟩ | ⟨size, hsize, htotals⟩
    · left
      refine ⟨msg, ?_⟩
      show (q.getInner.size.add _ _ 1 >>= _) = _
      rw [hconf]
      rfl
    · obtain ⟨index, hindex, hholds⟩ := hq.index.add (Identifiable.id value)
      refine .inr ⟨{ root := some { size := size, index := index, queues := queues' } }, subs', ?_,
        ⟨hqueues, ?_, ?_⟩, hperm⟩
      · show (q.getInner.size.add _ _ 1 >>= _) = _
        rw [hsize]
        show (q.getInner.index.add _ >>= _) = _
        rw [hindex]
        rfl
      · rw [hperm.length_eq]
        exact htotals
      · rw [Multiset.coe_eq_coe.mpr (hperm.map Identifiable.id)]
        exact hholds

/-- An item is taken from a list, and `f` takes it from the counters and the index. -/
theorem Keeps.takes (hq : Keeps q subs) (c : Chance) {minEmpty : ℤ}
    (hmin : minEmpty ≤ q.getInner.queues.length)
    {f : Option T × MultiQueueData T K → Except Failure (Option T × TaskQueue T K)}
    (hnone : f (none, q.getInner) = .ok (none, { root := some q.getInner }))
    (hfail : ∀ x queues e, q.getInner.size.add c.counterDraws c.counterLocked (-1) = .error e →
      f (some x, { q.getInner with queues := queues }) = .error e)
    (hsome : ∀ x queues size index,
      q.getInner.size.add c.counterDraws c.counterLocked (-1) = .ok size →
      q.getInner.index.remove (Identifiable.id x) = .ok (true, index) →
      f (some x, { q.getInner with queues := queues }) =
        .ok (some x, { root := some { size := size, index := index, queues := queues } })) :
    Takes q subs (q.getInner.takeMin c minEmpty >>= f) := by
  rw [takeMin_eq c hmin]
  rcases takeFirst_spec hq.queues c.queueLocked minEmpty (q.getInner.shuffledLists c) minEmpty with
    ⟨msg, hconf⟩ | hempty | ⟨x, queues', subs', htake, hqueues, hperm⟩
  · rw [hconf]
    exact .inl ⟨msg, rfl⟩
  · rw [hempty]
    exact .inr (.inl hnone)
  · rw [htake]
    rcases hq.remove_item hqueues hperm c with ⟨msg, hconf⟩ | ⟨size, index, hsize, hindex, hkeeps⟩
    · exact .inl ⟨msg, hfail x queues' _ hconf⟩
    · exact .inr (.inr ⟨x, _, subs', hsome x queues' size index hsize hindex, hkeeps, hperm⟩)

/-- `take(minEmpty)` takes an item, or none, or it is a conflict. -/
theorem takeMin_spec (hq : Keeps q subs) (c : Chance) {minEmpty : ℤ}
    (hmin : minEmpty ≤ q.getInner.queues.length) : Takes q subs (q.takeMin c minEmpty) := by
  refine hq.takes c hmin rfl (fun x queues e he => ?_) fun x queues size index hsize hindex => ?_
  · show (q.getInner.size.add _ _ (-1) >>= _) = _
    rw [he]
    rfl
  · show (q.getInner.size.add _ _ (-1) >>= _) = _
    rw [hsize]
    show (q.getInner.index.remove _ >>= _) = _
    rw [hindex]
    rfl

/-- `take` takes an item, or none, or it is a conflict: its `require` holds. -/
theorem take_spec (hq : Keeps q subs) (c : Chance) : Takes q subs (q.take c) := by
  refine hq.takes c le_rfl rfl (fun x queues e he => ?_) fun x queues size index hsize hindex => ?_
  · show (q.getInner.size.add _ _ (-1) >>= _) = _
    rw [he]
    rfl
  · show (q.getInner.size.add _ _ (-1) >>= _) = _
    rw [hsize]
    show (q.getInner.index.remove _ >>= _) = _
    rw [hindex]
    rfl

/-! ## Runs -/

/-- The item that an operation takes, and the queue after it. -/
def outcome (q : TaskQueue T K) : Op T K → Except Failure (Option T × TaskQueue T K)
  | .add c value => (q.add c value).map fun q' => (none, q')
  | .take c => q.take c
  | .takeMin c minEmpty => q.takeMin c minEmpty
  | .grow => .ok (none, q.grow)
  | .size => .ok (none, q.size.2)
  | .contains id => (q.contains id).map fun r => (none, r.2)

/-- One transaction. When it fails, nothing has changed. -/
def step (s : Ledger T K) (op : Op T K) : Ledger T K :=
  match outcome s.queue op with
  | .ok (x, q) => { queue := q, added := op.item.toList ++ s.added, taken := x.toList ++ s.taken }
  | .error _ => s

/-- Every operation keeps the books, or it is refused. -/
theorem outcome_spec (hq : Keeps q subs) (op : Op T K) : Settles q subs op (outcome q op) := by
  cases op with
  | add c value =>
    rcases add_spec hq c value with ⟨msg, hconf⟩ | ⟨q', subs', hadd, hkeeps, hperm⟩
    · exact .inl ⟨_, congrArg (Except.map _) hconf, .inl ⟨msg, rfl⟩⟩
    · exact .inr ⟨none, q', subs', congrArg (Except.map _) hadd, hkeeps, hperm⟩
  | take c => exact (take_spec hq c).settles hq rfl
  | takeMin c minEmpty =>
    by_cases hmin : minEmpty ≤ q.getInner.queues.length
    · exact (takeMin_spec hq c hmin).settles hq rfl
    · have hfail : q.takeMin c minEmpty = .error (.illegalArgument "requirement failed") := by
        unfold takeMin MultiQueueData.takeMin
        rw [if_pos (not_le.mp hmin)]
        rfl
      exact .inl ⟨_, hfail, .inr ⟨c, minEmpty, rfl, not_le.mp hmin⟩⟩
  | grow =>
    refine .inr ⟨none, _, _, rfl, Keeps.grow hq, ?_⟩
    rw [List.flatten_append]
    exact .of_eq (List.append_nil _)
  | size => exact .inr ⟨none, _, subs, rfl, hq, .refl _⟩
  | contains id =>
    exact .inr ⟨none, _, subs, congrArg (Except.map _) (contains_spec hq id), hq, .refl _⟩

theorem Balanced.step {s : Ledger T K} (hs : Balanced s) (op : Op T K) : Balanced (step s op) := by
  obtain ⟨subs, hq, hbal⟩ := hs
  unfold TaskQueue.step
  rcases outcome_spec hq op with ⟨e, he, -⟩ | ⟨x, q', subs', hok, hkeeps, hperm⟩
  · rw [he]
    exact ⟨subs, hq, hbal⟩
  · rw [hok]
    refine ⟨subs', hkeeps, ?_⟩
    show (subs'.flatten ++ (x.toList ++ s.taken)).Perm (op.item.toList ++ s.added)
    rw [← List.append_assoc]
    refine ((List.perm_append_comm.trans hperm).append_right s.taken).trans ?_
    rw [List.append_assoc]
    exact hbal.append_left _

/-- After any transactions, whichever lists and counters they try first and whichever they can
    lock, the queue lists the items that were added and not taken, with their number and their
    ids. An operation fails only by a conflict, or when it asks for more empty lists than there are
    lists; so no `require` on the index fails. -/
theorem bookkeeping (size : Option ℤ) (ops : List (Op T K)) :
    let s := run step (start size) ops
    ∃ items, s.queue.stream = .ok items ∧ (items ++ s.taken).Perm s.added ∧
      s.queue.size.1 = items.length ∧
      (∀ id, (s.queue.contains id).map Prod.fst =
        .ok (decide (∃ x ∈ items, Identifiable.id x = id))) ∧
      ∀ op e, outcome s.queue op = .error e → Refusal s.queue op e := by
  intro s
  have hs : Balanced s := run_invariant (fun s op hs => hs.step op) ops (balanced_start size)
  obtain ⟨subs, hq, hbal⟩ := hs
  refine ⟨subs.flatten, stream_spec hq, hbal, ?_, fun id => ?_, fun op e he => ?_⟩
  · rw [size_spec hq]
  · rw [contains_spec hq id]
    rfl
  · rcases outcome_spec hq op with ⟨e', he', hrefusal⟩ | ⟨x, q', subs', hok, -, -⟩
    · cases he.symm.trans he'
      exact hrefusal
    · cases he.symm.trans hok

end TaskQueue

end ReSTM
