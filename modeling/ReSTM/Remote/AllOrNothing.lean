import ReSTM.Remote.RestmInternalReplicator

/-!
# Replicated locks and initial values

`RestmInternalReplicator._lockValue` and `_initValue` over nodes that each run
`RestmActors`. When one replica refuses, the pointer is reset on all of them, and the
replica that refused refuses the reset: its lock is not the caller's. So the call fails
where it should report the conflict, or `false`.

* `lock_eq_none_iff`, `init_eq_true_iff`: when a pointer actor agrees.
* `replicated_all_or_nothing`: locks and initial values are all-or-nothing exactly when
  nobody refuses.
-/

namespace ReSTM

open RestmInternalReplicator

variable {V : Type} {t : TxnTime} {id : StringPtr}

namespace MemActor

variable {a : MemActor V} {v : V}

/-- Nothing stands in the way of a lock at `t`. -/
structure FreeFor (t : TxnTime) (a : MemActor V) : Prop where
  writeLock : a.writeLock = none
  lastRead : ∀ r, a.lastRead = some r → r ≤ t
  history : ∀ x ∈ a.history, x.time ≤ t

theorem lock_of_freeFor (h : FreeFor t a) : (a.lock t).1 = .ok none := by
  have hread : a.lastRead.any (t < ·) = false := by
    cases hr : a.lastRead with
    | none => rfl
    | some r =>
      have := h.lastRead r hr
      rw [TxnTime.le_iff] at this
      simpa [TxnTime.lt_iff] using this
  have hhistory : a.history.any (fun x => decide (t < x.time)) = false := by
    rw [List.any_eq_false]
    intro x hx
    have := h.history x hx
    rw [TxnTime.le_iff] at this
    simpa [TxnTime.lt_iff] using this
  rw [lock, h.writeLock]
  simp only [hread, hhistory, withActor]
  rfl

/-- A lock request is granted, or it leaves the actor as it was. -/
theorem lock_cases (ha : a.writeLock ≠ some t) :
    (a.lock t).1 = .ok none ∧ FreeFor t a ∨ (a.lock t).1 ≠ .ok none ∧ (a.lock t).2 = a := by
  have heff := Effect.writeLock a t
  generalize hr : (a.lock t).1.map Answer.conflicting = r at heff
  generalize (a.lock t).2 = a' at heff ⊢
  have hne : ∀ c : Except Failure (Option TxnTime), c.map Answer.conflicting = r →
      r ≠ .ok (.conflicting (V := V) none) → c ≠ .ok none := by
    rintro c hc hr rfl
    exact hr hc.symm
  cases heff with
  | relock _ hlock => exact absurd hlock ha
  | lock _ hfree hread hhistory =>
    refine .inl ⟨?_, ⟨hfree, hread, hhistory⟩⟩
    exact lock_of_freeFor ⟨hfree, hread, hhistory⟩
  | refuse => exact .inr ⟨hne _ hr (by simp), rfl⟩
  | fail => exact .inr ⟨hne _ hr (by simp), rfl⟩

theorem lock_eq_none_iff (ha : a.writeLock ≠ some t) : (a.lock t).1 = .ok none ↔ FreeFor t a := by
  constructor
  · intro h
    rcases lock_cases ha with h' | h'
    · exact h'.2
    · exact absurd h h'.1
  · exact lock_of_freeFor

theorem init_eq_true_iff : (a.init t v).1 = .ok true ↔ a.history = [] := by
  unfold init withActor
  split_ifs with h
  · simpa [Except.mapError] using h
  · simpa [Except.mapError] using h

theorem init_of_ne (h : a.history ≠ []) : a.init t v = (.ok false, a) := by
  have : (!a.history.isEmpty) = true := by simpa using h
  rw [init, if_pos this]
  rfl

theorem writeReset_of_ne (ha : a.writeLock ≠ some t) : ∃ e, (a.writeReset t).1 = .error e := by
  rw [writeReset, if_neg ha]
  exact ⟨_, rfl⟩

end MemActor

namespace RestmActors

variable {clock : Clock} {node : RestmActors V}

/-- The pointer is write-locked by `t`. -/
def LockedBy (id : StringPtr) (t : TxnTime) (node : RestmActors V) : Prop :=
  ∃ p, node.ptrs id = some p ∧ p.actor.writeLock = some t

theorem actorOf_of_some {p : LoggedActor V} {time : Option TxnTime} (h : node.ptrs id = some p) :
    node.actorOf clock id time = p := by
  rw [actorOf, h]
  rfl

theorem actorOf_writeLock (clock : Clock) (time : Option TxnTime) (h : ¬node.LockedBy id t) :
    (node.actorOf clock id time).actor.writeLock ≠ some t := by
  cases hp : node.ptrs id with
  | some p =>
    rw [actorOf_of_some hp]
    exact fun hlock => h ⟨p, hp, hlock⟩
  | none =>
    rw [actorOf, hp]
    simp [restore, MemActor.create]

/-- The actor after an operation on its pointer. -/
theorem ask_ptrs {α : Type} {m : MemMsg V} {op : MemActor V → Except Failure α × MemActor V} :
    (ask clock id m op node).2.ptrs id = some ((node.actorOf clock id m.time?).step m) :=
  setPtr_self

end RestmActors

open RestmActors

/-- Locking is all-or-nothing: granted when every replica granted it, and otherwise a
    conflicting timestamp, with no replica left locked. -/
def LockAllOrNothing (clock : Clock) (id : StringPtr) (t : TxnTime)
    (replicas : List (RestmActors V)) : Prop :=
  let r := (replicator (internal clock)).lockValue id t replicas
  (r.1 = .ok none ↔ ∀ node ∈ replicas, ((internal clock).lockValue id t node).1 = .ok none) ∧
    (r.1 ≠ .ok none → (∃ c, r.1 = .ok (some c)) ∧ ∀ node ∈ r.2, ¬node.LockedBy id t)

/-- Initialising is all-or-nothing: `true` when every replica initialised the pointer, and
    otherwise `false`, with no replica having gained a version or a lock. -/
def InitAllOrNothing (clock : Clock) (id : StringPtr) (t : TxnTime) (v : V)
    (replicas : List (RestmActors V)) : Prop :=
  let r := (replicator (internal clock)).initValue t v id replicas
  (r.1 = .ok true ↔ ∀ node ∈ replicas, ((internal clock).initValue t v id node).1 = .ok true) ∧
    (r.1 ≠ .ok true → r.1 = .ok false ∧ ∀ p ∈ replicas.zip r.2,
      (p.2.actorOf clock id (some t)).actor.history = (p.1.actorOf clock id (some t)).actor.history ∧
        ¬p.2.LockedBy id t)

section

variable {clock : Clock} {replicas : List (RestmActors V)} {node : RestmActors V} {v : V}

/-- A node that refused, or anyone else who does not hold the lock, refuses the reset. -/
theorem resetValue_of_not_locked (clock : Clock) (hnode : node ∈ replicas) (h : ¬node.LockedBy id t) :
    ∃ e, (resetValue (internal clock) id t replicas).1 = .error e := by
  obtain ⟨e, he⟩ := MemActor.writeReset_of_ne (actorOf_writeLock clock (some t) h)
  exact sequenced_of_error hnode he

/-- One refusal makes the whole call fail. -/
theorem lockValue_of_refused (hnode : node ∈ replicas) (h : ¬node.LockedBy id t)
    (hfree : ¬MemActor.FreeFor t (node.actorOf clock id (some t)).actor) :
    ∃ e, (lockValue (internal clock) id t replicas).1 = .error e := by
  have hlock := actorOf_writeLock clock (some t) h
  unfold lockValue
  generalize hr : sequenced ((internal clock).lockValue id t) _ replicas = r
  obtain ⟨outcome, after⟩ := r
  cases outcome with
  | error e => exact ⟨e, rfl⟩
  | ok result =>
    cases result with
    | none =>
      -- Then every replica granted the lock.
      obtain ⟨l, hl, houtcomes⟩ := sequenced_ok (congrArg Prod.fst hr)
      have hmem : ((internal clock).lockValue id t node).1 ∈ l.map .ok :=
        houtcomes ▸ List.mem_map.mpr ⟨node, hnode, rfl⟩
      obtain ⟨x, hx, hgranted⟩ := List.mem_map.mp hmem
      rw [eq_none_of_reduceOption hl.symm x hx] at hgranted
      exact absurd ((MemActor.lock_eq_none_iff hlock).mp hgranted.symm) hfree
    | some c =>
      have hafter : ((internal clock).lockValue id t node).2 ∈ after := by
        rw [show after = _ from (congrArg Prod.snd hr).symm]
        exact List.mem_map.mpr ⟨node, hnode, rfl⟩
      have hunlocked : ¬((internal clock).lockValue id t node).2.LockedBy id t := by
        rintro ⟨p, hp, hplock⟩
        rw [show p = (node.actorOf clock id (some t)).step (.writeLock t) from
          (Option.some.inj (ask_ptrs.symm.trans hp)).symm] at hplock
        rcases MemActor.lock_cases hlock with hgranted | ⟨-, hsame⟩
        · exact hfree hgranted.2
        · exact hlock ((congrArg MemActor.writeLock hsame).symm.trans hplock)
      obtain ⟨e, he⟩ := resetValue_of_not_locked clock hafter hunlocked
      exact ⟨e, by simp only [NodeOp.map, he]; rfl⟩

theorem lockValue_of_free
    (hfree : ∀ node ∈ replicas, MemActor.FreeFor t (node.actorOf clock id (some t)).actor) :
    (lockValue (internal clock) id t replicas).1 = .ok none := by
  have hall : ∀ node ∈ replicas, ((internal clock).lockValue id t node).1 = .ok none :=
    fun node hnode => MemActor.lock_of_freeFor (hfree node hnode)
  have hseq : (sequenced ((internal clock).lockValue id t)
      (fun l => (reduceOption Option.or l).join) replicas).1 = .ok none := by
    rw [sequenced_const hall, reduceOption_replicate _ rfl]
    split_ifs <;> rfl
  unfold lockValue
  simp only [hseq]

theorem lockAllOrNothing_iff (h : ∀ node ∈ replicas, ¬node.LockedBy id t) :
    LockAllOrNothing clock id t replicas ↔
      ∀ node ∈ replicas, MemActor.FreeFor t (node.actorOf clock id (some t)).actor := by
  constructor
  · rintro ⟨-, hrefused⟩ node hnode
    by_contra hfree
    obtain ⟨e, he⟩ := lockValue_of_refused hnode (h node hnode) hfree
    obtain ⟨⟨c, hc⟩, -⟩ := hrefused fun hok => by cases he.symm.trans hok
    cases he.symm.trans hc
  · intro hfree
    have hok := lockValue_of_free hfree
    exact ⟨iff_of_true hok fun node hnode => MemActor.lock_of_freeFor (hfree node hnode),
      fun hne => absurd hok hne⟩

/-- One pointer that has versions makes the whole call fail. -/
theorem initValue_of_refused (hnode : node ∈ replicas) (h : ¬node.LockedBy id t)
    (hhistory : (node.actorOf clock id (some t)).actor.history ≠ []) :
    ∃ e, (initValue (internal clock) t v id replicas).1 = .error e := by
  have hrefused := MemActor.init_of_ne (t := t) (v := v) hhistory
  unfold initValue
  generalize hr : sequenced ((internal clock).initValue t v id) _ replicas = r
  obtain ⟨outcome, after⟩ := r
  cases outcome with
  | error e => exact ⟨e, rfl⟩
  | ok result =>
    cases result with
    | true =>
      -- Then every replica initialised the pointer.
      obtain ⟨l, hl, houtcomes⟩ := sequenced_ok (congrArg Prod.fst hr)
      have hmem : ((internal clock).initValue t v id node).1 ∈ l.map .ok :=
        houtcomes ▸ List.mem_map.mpr ⟨node, hnode, rfl⟩
      obtain ⟨x, hx, hinit⟩ := List.mem_map.mp hmem
      rw [(eq_true_of_reduceOption hl.symm).2 x hx] at hinit
      have hfalse : ((internal clock).initValue t v id node).1 = .ok false := by
        show ((node.actorOf clock id (some t)).actor.init t v).1 = .ok false
        rw [hrefused]
      cases hinit.trans hfalse
    | false =>
      have hafter : ((internal clock).initValue t v id node).2 ∈ after := by
        rw [show after = _ from (congrArg Prod.snd hr).symm]
        exact List.mem_map.mpr ⟨node, hnode, rfl⟩
      have hunlocked : ¬((internal clock).initValue t v id node).2.LockedBy id t := by
        rintro ⟨p, hp, hplock⟩
        rw [show p = (node.actorOf clock id (some t)).step (.init t v) from
          (Option.some.inj (ask_ptrs.symm.trans hp)).symm] at hplock
        have hsame : ((node.actorOf clock id (some t)).actor.init t v).2.writeLock = some t := hplock
        rw [hrefused] at hsame
        exact actorOf_writeLock clock (some t) h hsame
      obtain ⟨e, he⟩ := resetValue_of_not_locked clock hafter hunlocked
      exact ⟨e, by simp only [NodeOp.map, he]; rfl⟩

theorem initValue_of_empty (hne : replicas ≠ [])
    (hempty : ∀ node ∈ replicas, (node.actorOf clock id (some t)).actor.history = []) :
    (initValue (internal clock) t v id replicas).1 = .ok true := by
  have hall : ∀ node ∈ replicas, ((internal clock).initValue t v id node).1 = .ok true :=
    fun node hnode => MemActor.init_eq_true_iff.mpr (hempty node hnode)
  have hseq : (sequenced ((internal clock).initValue t v id)
      (fun l => (reduceOption and l).getD false) replicas).1 = .ok true := by
    rw [sequenced_const hall, reduceOption_replicate _ rfl, if_neg (by simpa using hne)]
    rfl
  unfold initValue
  simp only [hseq]

theorem initAllOrNothing_iff (h : ∀ node ∈ replicas, ¬node.LockedBy id t) :
    InitAllOrNothing clock id t v replicas ↔
      replicas ≠ [] ∧ ∀ node ∈ replicas, (node.actorOf clock id (some t)).actor.history = [] := by
  constructor
  · rintro ⟨hiff, hrefused⟩
    refine ⟨?_, ?_⟩
    · rintro rfl
      cases hiff.mpr fun node hnode => (List.not_mem_nil hnode).elim
    · intro node hnode
      by_contra hhistory
      obtain ⟨e, he⟩ := initValue_of_refused (v := v) hnode (h node hnode) hhistory
      obtain ⟨hfalse, -⟩ := hrefused fun hok => by cases he.symm.trans hok
      cases he.symm.trans hfalse
  · rintro ⟨hne, hempty⟩
    have hok := initValue_of_empty (v := v) hne hempty
    exact ⟨iff_of_true hok fun node hnode => MemActor.init_eq_true_iff.mpr (hempty node hnode),
      fun hne => absurd hok hne⟩

/-- Over any replicas none of which `t` has locked, locking is all-or-nothing exactly when
    nothing stands in its way on any of them, and initialising exactly when there is a
    replica and the pointer has no versions on any. -/
theorem replicated_all_or_nothing (clock : Clock) (id : StringPtr) (t : TxnTime) (v : V)
    (replicas : List (RestmActors V)) (h : ∀ node ∈ replicas, ¬node.LockedBy id t) :
    (LockAllOrNothing clock id t replicas ↔
        ∀ node ∈ replicas, MemActor.FreeFor t (node.actorOf clock id (some t)).actor) ∧
      (InitAllOrNothing clock id t v replicas ↔
        replicas ≠ [] ∧ ∀ node ∈ replicas, (node.actorOf clock id (some t)).actor.history = []) :=
  ⟨lockAllOrNothing_iff h, initAllOrNothing_iff h⟩

/-- Two replicas: on the second one `2` has read the pointer. -/
def readByTwo : List (RestmActors ℕ) :=
  [{ coldStorage := fun _ => [] },
    ((internal ⟨0, 0⟩).getValueAt ⟨"x"⟩ (.ofEpoch 2) { coldStorage := fun _ => [] }).2]

theorem not_lockedBy_readByTwo : ∀ node ∈ readByTwo, ¬node.LockedBy ⟨"x"⟩ (.ofEpoch 2) := by
  intro node hnode
  simp only [readByTwo, List.mem_cons, List.not_mem_nil, or_false] at hnode
  rintro ⟨p, hp, hlock⟩
  rcases hnode with rfl | rfl
  · cases hp
  · rw [← Option.some.inj hp] at hlock
    revert hlock
    decide

theorem replicated_all_or_nothing_two :
    LockAllOrNothing ⟨0, 0⟩ ⟨"x"⟩ (.ofEpoch 2) readByTwo ∧
      InitAllOrNothing ⟨0, 0⟩ ⟨"x"⟩ (.ofEpoch 2) 10 readByTwo := by
  obtain ⟨hlock, hinit⟩ :=
    replicated_all_or_nothing ⟨0, 0⟩ ⟨"x"⟩ (.ofEpoch 2) 10 readByTwo not_lockedBy_readByTwo
  constructor
  · refine hlock.mpr fun node hnode => ?_
    simp only [readByTwo, List.mem_cons, List.not_mem_nil, or_false] at hnode
    rcases hnode with rfl | rfl <;>
      exact ⟨rfl, fun r hr => by cases hr; decide, fun x hx => (List.not_mem_nil hx).elim⟩
  · refine hinit.mpr ⟨by simp [readByTwo], fun node hnode => ?_⟩
    simp only [readByTwo, List.mem_cons, List.not_mem_nil, or_false] at hnode
    rcases hnode with rfl | rfl <;> rfl

/-- The lock of `1` is refused by the replica on which `2` has read the pointer: the call
    fails. So does the initial value of a pointer that one replica has already. -/
theorem replicated_not_all_or_nothing :
    ¬LockAllOrNothing ⟨0, 0⟩ ⟨"x"⟩ (.ofEpoch 1) readByTwo ∧
      ¬InitAllOrNothing ⟨0, 0⟩ ⟨"x"⟩ (.ofEpoch 2) 10
        [{ coldStorage := fun _ => [] },
          ((internal ⟨0, 0⟩).initValue (.ofEpoch 1) 9 ⟨"x"⟩ { coldStorage := fun _ => [] }).2] := by
  constructor
  · rintro ⟨-, hrefused⟩
    obtain ⟨⟨c, hc⟩, -⟩ := hrefused (by decide)
    have hfail : ((replicator (internal ⟨0, 0⟩)).lockValue ⟨"x"⟩ (.ofEpoch 1) readByTwo).1 =
        .error (Failure.chainEx "Error running actor task" (Failure.require "Lock mismatch")) := by
      decide
    cases hfail.symm.trans hc
  · rintro ⟨-, hrefused⟩
    exact absurd (hrefused (by decide)).1 (by decide)

end

end ReSTM
