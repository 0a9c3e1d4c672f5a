import ReSTM.Remote.AllOrNothing
import ReSTM.Storage.RestmImpl

/-!
# Agreement of replicas

Replicas that have processed the same messages are in the same state. A timed read of them
all is then a read of one, unless an earlier transaction holds the lock: each replica
reports the conflict, `Future.find` passes over the failures, and the pointer reads as
absent.

A decision on a transaction is sent to each replica by itself, and nothing orders two
decisions between replicas.

* `replicated_read_iff`: the reads that are those of one replica.
* `replicated_outcome_iff`: the decisions on which replicas agree in every order.
-/

namespace ReSTM

open RestmInternalReplicator RestmActors Transition

variable {V : Type} {t : TxnTime} {id : StringPtr}

/-! ## Reads -/

namespace MemActor

variable {a : MemActor V}

/-- An earlier transaction holds the lock. -/
def LockedBefore (t : TxnTime) (a : MemActor V) : Prop := ∃ w, a.writeLock = some w ∧ w < t

/-- A read of an actor that an earlier transaction has locked reports the lock. -/
theorem getValue_of_locked (ha : a.Ordered) {w : TxnTime} (hlock : a.writeLock = some w)
    (hlt : w < t) : (a.getValue t).1 = .error (Failure.lockedBy w) := by
  have hread : a.lastRead.any (t ≤ ·) = false := by
    cases hr : a.lastRead with
    | none => rfl
    | some r =>
      have := ha.read_le_lock w hlock r hr
      simp only [TxnTime.le_iff, TxnTime.lt_iff] at this hlt
      simpa [TxnTime.le_iff] using by omega
  have hfilter : a.writeLock.filter (· < t) = some w :=
    Option.filter_eq_some_iff.mpr ⟨hlock, decide_eq_true hlt⟩
  rw [getValue, if_neg (by simp [hread])]
  simp only [hfilter]

/-- Any other read succeeds. -/
theorem getValue_of_not_locked (h : ¬LockedBefore t a) : ∃ v, (a.getValue t).1 = .ok v := by
  unfold getValue
  split_ifs
  · exact ⟨_, rfl⟩
  · split
    · next w hw =>
      obtain ⟨hlock, hlt⟩ := Option.filter_eq_some_iff.mp hw
      exact absurd ⟨w, hlock, of_decide_eq_true hlt⟩ h
    · exact ⟨_, rfl⟩

end MemActor

namespace RestmActors

/-- The pointers are in order. -/
def OrderedPtrs (node : RestmActors V) : Prop := ∀ x p, node.ptrs x = some p → p.actor.Ordered

/-- One call, at the time that the clock shows. -/
def stepCall (node : RestmActors V) (c : Clock × InternalCall V) : RestmActors V :=
  ((internal c.1).call c.2 node).2

variable {node : RestmActors V} {clock : Clock}

theorem OrderedPtrs.actorOf (h : node.OrderedPtrs) (time : Option TxnTime) :
    (node.actorOf clock id time).actor.Ordered := by
  cases hp : node.ptrs id with
  | some p =>
    rw [actorOf_of_some hp]
    exact h id p hp
  | none =>
    rw [RestmActors.actorOf, hp]
    exact restore_ordered _ _ _

/-- A message keeps its pointer in order. -/
theorem OrderedPtrs.message (h : node.OrderedPtrs) (m : MemMsg V) :
    (node.setPtr id ((node.actorOf clock id m.time?).step m)).OrderedPtrs := by
  intro x p hp
  by_cases hx : x = id
  · subst hx
    rw [← Option.some.inj (setPtr_self.symm.trans hp)]
    exact (h.actorOf _).step m
  · exact h x p ((setPtr_of_ne hx).symm.trans hp)

theorem OrderedPtrs.stepCall (h : node.OrderedPtrs) (c : Clock × InternalCall V) :
    (node.stepCall c).OrderedPtrs := by
  obtain ⟨clock, c⟩ := c
  cases c with
  | resetValue id time => exact h.message (.writeReset time)
  | lockValue id time => exact h.message (.writeLock time)
  | commitValue id time => exact h.message (.writeCommit time)
  | getValue id => exact h.message .getCurrentValue
  | getValueAt id time => exact h.message (.getValue time)
  | initValue time value id => exact h.message (.init time value)
  | queueValue id time value => exact h.message (.writeBlob time value)
  | delete id time => exact h.message (.delete time)
  | addLock | resetTxn | commitTxn | txnState => exact h

/-- A node that has processed any calls, from its start. -/
theorem orderedPtrs_run (coldStorage : StringPtr → List (TxnTime × Option V))
    (calls : List (Clock × InternalCall V)) :
    (run RestmActors.stepCall { coldStorage := coldStorage } calls).OrderedPtrs :=
  run_invariant (I := OrderedPtrs) (fun _ c h => h.stepCall c) calls fun x p h => by cases h

/-- The pointer is write-locked by a transaction before `t`. -/
def LockedBefore (id : StringPtr) (t : TxnTime) (node : RestmActors V) : Prop :=
  ∃ p, node.ptrs id = some p ∧ p.actor.LockedBefore t

theorem not_lockedBefore (clock : Clock) (h : ¬node.LockedBefore id t) :
    ¬(node.actorOf clock id (some t)).actor.LockedBefore t := by
  cases hp : node.ptrs id with
  | some p =>
    rw [actorOf_of_some hp]
    exact fun hlock => h ⟨p, hp, hlock⟩
  | none =>
    rw [RestmActors.actorOf, hp]
    rintro ⟨w, hw, -⟩
    cases hw

end RestmActors

theorem broadcast_replicate {σ α : Type} (op : NodeOp σ α) (n : ℕ) (s : σ) :
    (broadcast op (List.replicate n s)).1 = List.replicate n (op s).1 := List.map_replicate

/-- The first of equal values is the value. -/
theorem find_replicate_ok {n : ℕ} (hn : 1 ≤ n) (v : Option (Option V)) :
    (find Option.isSome (List.replicate n (.ok v))).map Option.join = .ok v := by
  obtain ⟨n, rfl⟩ := Nat.exists_eq_succ_of_ne_zero (Nat.one_le_iff_ne_zero.mp hn)
  unfold find
  rw [List.filterMap_replicate_of_some (f := Except.toOption) rfl]
  cases v <;> simp [Except.map]

/-- Nothing is found among failures. -/
theorem find_replicate_error (n : ℕ) (e : Failure) :
    (find Option.isSome (List.replicate n (.error e : Except Failure (Option (Option V))))).map
      Option.join = .ok none := by
  unfold find
  rw [List.filterMap_replicate_of_none (f := Except.toOption) rfl]
  rfl

/-- The read of `id` at `t` on `n` replicas in the state `node` has the outcome that it has on
    one of them, and does not miss a value that an earlier transaction has locked. -/
def ReadsAsOne (clock : Clock) (id : StringPtr) (t : TxnTime) (n : ℕ) (node : RestmActors V) : Prop :=
  let replicated := ((replicator (internal clock)).getValueAt id t (List.replicate n node)).1
  SameOutcome (replicated.map .value) (((internal clock).getValueAt id t node).1.map .value) ∧
    (node.LockedBefore id t → replicated ≠ .ok none)

/-- Replicas that have processed the same calls read as one of them exactly when no earlier
    transaction has locked the pointer. -/
theorem replicated_read_iff (coldStorage : StringPtr → List (TxnTime × Option V))
    (calls : List (Clock × InternalCall V)) (clock : Clock) (id : StringPtr) (t : TxnTime) (n : ℕ)
    (hn : 1 ≤ n) :
    let node := run RestmActors.stepCall { coldStorage := coldStorage } calls
    ReadsAsOne clock id t n node ↔ ¬node.LockedBefore id t := by
  intro node
  have hordered : node.OrderedPtrs := orderedPtrs_run coldStorage calls
  generalize node = node at hordered
  have hfind : ((replicator (internal clock)).getValueAt id t (List.replicate n node)).1 =
      (find Option.isSome (List.replicate n ((internal clock).getValueAt id t node).1)).map
        Option.join := by
    rw [← broadcast_replicate]
    rfl
  unfold ReadsAsOne
  simp only [hfind]
  by_cases hlock : node.LockedBefore id t
  · refine iff_of_false ?_ fun h => h hlock
    rintro ⟨-, hne⟩
    obtain ⟨p, hp, w, hw, hlt⟩ := hlock
    have herror : ((internal clock).getValueAt id t node).1 = .error (Failure.lockedBy w) := by
      show ((node.actorOf clock id (some t)).actor.getValue t).1.map _ = _
      rw [actorOf_of_some hp, MemActor.getValue_of_locked (hordered id p hp) hw hlt]
      rfl
    rw [herror, find_replicate_error] at hne
    exact hne ⟨p, hp, w, hw, hlt⟩ rfl
  · refine iff_of_true ⟨?_, fun h => absurd h hlock⟩ hlock
    obtain ⟨v, hv⟩ := MemActor.getValue_of_not_locked (not_lockedBefore clock hlock)
    have hok : ((internal clock).getValueAt id t node).1 = .ok (v.map some) := by
      show ((node.actorOf clock id (some t)).actor.getValue t).1.map _ = _
      rw [hv]
      rfl
    rw [hok, find_replicate_ok hn]
    exact rfl

theorem replicated_read_two :
    ReadsAsOne ⟨0, 0⟩ ⟨"x"⟩ (.ofEpoch 1) 2
      (run RestmActors.stepCall { coldStorage := fun _ => [] }
        [(⟨0, 0⟩, .lockValue ⟨"x"⟩ (.ofEpoch 2)), (⟨0, 0⟩, .queueValue ⟨"x"⟩ (.ofEpoch 2) 10)]) := by
  refine (replicated_read_iff _ _ _ _ _ 2 (by decide)).mpr ?_
  rintro ⟨p, hp, w, hw, hlt⟩
  rw [← Option.some.inj hp] at hw
  rw [← Option.some.inj hw] at hlt
  revert hlt
  decide

/-- Two replicas of a pointer that `1` has locked: it reads as absent at `2`. -/
theorem replicated_read_absent :
    ¬ReadsAsOne (V := ℕ) ⟨0, 0⟩ ⟨"x"⟩ (.ofEpoch 2) 2
      (run RestmActors.stepCall { coldStorage := fun _ => [] }
        [(⟨0, 0⟩, .lockValue ⟨"x"⟩ (.ofEpoch 1))]) := by
  rintro ⟨hsame, -⟩
  exact hsame

/-! ## Decisions -/

/-- Deliver a decision on the transaction `time` to one replica. -/
def deliver (time : TxnTime) (replicas : List (RestmActors V)) (m : Decision × ℕ) :
    List (RestmActors V) :=
  replicas.modify m.2 fun node => (node.setState m.1.state time).2

/-- The messages of the calls `_commitTxn(time)` and `_resetTxn(time)` to `n` replicas. -/
def decisionMessages (n : ℕ) (calls : List Decision) : List (Decision × ℕ) :=
  calls.flatMap fun d => (List.range n).map fun i => (d, i)

/-- No replica has committed what another one has reset. -/
def Agree (time : TxnTime) (replicas : List (RestmActors V)) : Prop :=
  ¬((∃ node ∈ replicas, node.txnState time = .COMMIT) ∧ ∃ node ∈ replicas, node.txnState time = .RESET)

variable {time : TxnTime} {replicas : List (RestmActors V)} {node : RestmActors V}
  {msgs : List (Decision × ℕ)} {d : Decision}

theorem txnState_setState (d : Decision) :
    ((node.setState d.state time).2).txnState time =
      if node.txnState time = .OPEN then d.state else node.txnState time := by
  show ((node.setTxn time _).txns time).state = _
  rw [setTxn_self]
  exact TxnActor.setState_state d.state_ne_open

theorem mem_deliver {m : Decision × ℕ} (h : node ∈ deliver time replicas m) :
    node ∈ replicas ∨ ∃ node' ∈ replicas, node = (node'.setState m.1.state time).2 := by
  obtain ⟨i, hi, rfl⟩ := List.mem_iff_getElem.mp h
  unfold deliver at hi ⊢
  rw [List.getElem_modify]
  have hlt : i < replicas.length := by simpa using hi
  split_ifs
  · exact .inr ⟨_, List.getElem_mem hlt, rfl⟩
  · exact .inl (List.getElem_mem hlt)

/-- Decisions of one kind leave every replica open or decided so. -/
theorem run_deliver_of_kind (hmsgs : ∀ m ∈ msgs, m.1 = d)
    (h : ∀ node ∈ replicas, node.txnState time = .OPEN ∨ node.txnState time = d.state) :
    ∀ node ∈ run (deliver time) replicas msgs,
      node.txnState time = .OPEN ∨ node.txnState time = d.state := by
  induction msgs generalizing replicas with
  | nil => exact h
  | cons m msgs ih =>
    refine ih (fun m' hm' => hmsgs m' (List.mem_cons_of_mem m hm')) fun node hnode => ?_
    rcases mem_deliver hnode with hnode | ⟨node', hnode', rfl⟩
    · exact h node hnode
    · rw [txnState_setState, hmsgs m List.mem_cons_self]
      split_ifs with hopen
      · exact .inr rfl
      · exact h node' hnode'

theorem length_run_deliver : (run (deliver time) replicas msgs).length = replicas.length := by
  induction msgs generalizing replicas with
  | nil => rfl
  | cons m msgs ih =>
    rw [run_cons, ih, deliver, List.length_modify]

theorem agree_of_kind
    (h : ∀ node ∈ replicas, node.txnState time = .OPEN ∨ node.txnState time = d.state) :
    Agree time replicas := by
  rintro ⟨⟨node, hnode, hcommit⟩, node', hnode', hreset⟩
  have hd := h node hnode
  have hd' := h node' hnode'
  rw [hcommit] at hd
  rw [hreset] at hd'
  cases d with
  | commit => exact hd'.elim (by decide) (by decide)
  | reset => exact hd.elim (by decide) (by decide)

theorem agree_of_length (h : replicas.length ≤ 1) : Agree time replicas := by
  rintro ⟨⟨node, hnode, hcommit⟩, node', hnode', hreset⟩
  match replicas, h with
  | [x], _ =>
    rw [List.mem_singleton.mp hnode] at hcommit
    rw [List.mem_singleton.mp hnode', hcommit] at hreset
    cases hreset

/-- A commit and a reset that reach two replicas in different orders. -/
theorem disagree (h : 2 ≤ replicas.length) (hopen : ∀ node ∈ replicas, node.txnState time = .OPEN) :
    ¬Agree time (run (deliver time) replicas [(.commit, 0), (.reset, 1)]) := by
  match replicas, h with
  | a :: b :: rest, _ =>
    refine not_not.mpr ⟨⟨(a.setState .COMMIT time).2, List.mem_cons_self, ?_⟩,
      (b.setState .RESET time).2, List.mem_cons_of_mem _ List.mem_cons_self, ?_⟩
    · exact (txnState_setState .commit).trans (if_pos (hopen a List.mem_cons_self))
    · exact (txnState_setState .reset).trans
        (if_pos (hopen b (List.mem_cons_of_mem _ List.mem_cons_self)))

theorem mem_decisionMessages {n i : ℕ} {calls : List Decision} :
    (d, i) ∈ decisionMessages n calls ↔ d ∈ calls ∧ i < n := by
  simp [decisionMessages, List.mem_flatMap]

/-- Concurrent commits and resets of `time`, each sent to every replica: the replicas agree
    whatever part of the messages has arrived, and in whatever order, exactly when there is
    at most one replica or all the calls are of one kind. -/
theorem replicated_outcome_iff (time : TxnTime) (replicas : List (RestmActors V))
    (calls : List Decision) (hopen : ∀ node ∈ replicas, node.txnState time = .OPEN) :
    (∀ msgs, msgs.Subperm (decisionMessages replicas.length calls) →
        Agree time (run (deliver time) replicas msgs)) ↔
      replicas.length ≤ 1 ∨ ∃ d, ∀ c ∈ calls, c = d := by
  constructor
  · intro h
    by_contra hcon
    rw [not_or, not_le, not_exists] at hcon
    obtain ⟨hlength, hkind⟩ := hcon
    have hreset : Decision.reset ∈ calls := by
      by_contra hno
      exact hkind .commit fun c hc => by cases c with
        | commit => rfl
        | reset => exact absurd hc hno
    have hcommit : Decision.commit ∈ calls := by
      by_contra hno
      exact hkind .reset fun c hc => by cases c with
        | commit => exact absurd hc hno
        | reset => rfl
    refine disagree hlength hopen (h _ (List.subperm_of_subset (by decide) fun m hm => ?_))
    simp only [List.mem_cons, List.not_mem_nil, or_false] at hm
    rcases hm with rfl | rfl
    · exact mem_decisionMessages.mpr ⟨hcommit, by omega⟩
    · exact mem_decisionMessages.mpr ⟨hreset, by omega⟩
  · rintro (hlength | ⟨d, hd⟩) msgs hmsgs
    · exact agree_of_length (length_run_deliver.trans_le hlength)
    · have hkind : ∀ m ∈ msgs, m.1 = d := fun m hm =>
        hd m.1 (mem_decisionMessages.mp (hmsgs.subset hm)).1
      exact agree_of_kind (run_deliver_of_kind hkind fun node hnode => .inl (hopen node hnode))

theorem replicated_outcome_two :
    (∀ msgs, msgs.Subperm (decisionMessages 2 [.commit, .commit]) →
      Agree (.ofEpoch 1) (run (deliver (V := ℕ) (.ofEpoch 1))
        [{ coldStorage := fun _ => [] }, { coldStorage := fun _ => [] }] msgs)) ↔
      2 ≤ 1 ∨ ∃ d, ∀ c ∈ [Decision.commit, Decision.commit], c = d := by
  refine replicated_outcome_iff (.ofEpoch 1)
    [{ coldStorage := fun _ => [] }, { coldStorage := fun _ => [] }] [.commit, .commit] ?_
  intro node hnode
  simp only [List.mem_cons, List.not_mem_nil, or_false, or_self] at hnode
  rw [hnode]
  rfl

/-- The owner's commit reaches the first replica, and a cleanup's reset the second. -/
theorem replicated_outcome_splits :
    ¬∀ msgs, msgs.Subperm (decisionMessages 2 [.commit, .reset]) →
      Agree (.ofEpoch 1) (run (deliver (V := ℕ) (.ofEpoch 1))
        [{ coldStorage := fun _ => [] }, { coldStorage := fun _ => [] }] msgs) := by
  intro h
  refine h [(.commit, 0), (.reset, 1)] (List.subperm_of_subset (by decide) (by decide)) ⟨?_, ?_⟩
  · exact ⟨_, List.mem_cons_self, rfl⟩
  · exact ⟨_, List.mem_cons_of_mem _ List.mem_cons_self, rfl⟩

end ReSTM
