import ReSTM.Remote.RestmInternal

/-!
# Replicated nodes

Model of `RestmInternalReplicator` (`storage/remote/RestmInternalReplicator.scala`): every
operation is sent to all replicas, and one outcome is made of theirs. The state is the
list of the replicas' states.

`Future.sequence` fails with the first failure in the order of the list. `Future.find`
looks at the futures in the order in which they complete, and passes over those that
failed; the replicas are listed in that order.
-/

namespace ReSTM

variable {V σ α : Type}

namespace RestmInternalReplicator

/-- `inner().map(op)`: every replica is asked, whatever the others answer. -/
def broadcast (op : NodeOp σ α) (replicas : List σ) : List (Except Failure α) × List σ :=
  (replicas.map fun s => (op s).1, replicas.map fun s => (op s).2)

/-- `Future.sequence`. -/
def sequence : List (Except Failure α) → Except Failure (List α)
  | [] => .ok []
  | r :: rs => r.bind fun a => (sequence rs).map (a :: ·)

/-- `Future.find(futures)(p)`. -/
def find (p : α → Bool) (futures : List (Except Failure α)) : Except Failure (Option α) :=
  .ok ((futures.filterMap Except.toOption).find? p)

/-- `reduceOption(f)`. -/
def reduceOption (f : α → α → α) : List α → Option α
  | [] => none
  | a :: l => some (l.foldl f a)

/-- `Future.sequence(inner().map(op)).map(f)`. -/
def sequenced {β : Type} (op : NodeOp σ α) (f : List α → β) : NodeOp (List σ) β := fun replicas =>
  let r := broadcast op replicas
  ((sequence r.1).map f, r.2)

/-- A state that is neither empty nor `OPEN` (lines 60, 70). -/
def decided (state : String) : Option String :=
  ((some state).filter (!·.isEmpty)).filter (· ≠ "OPEN")

variable (inner : RestmInternal V σ)

/-- `_resetValue` (lines 38–39). -/
def resetValue (id : StringPtr) (time : TxnTime) : NodeOp (List σ) Unit :=
  sequenced (inner.resetValue id time) fun _ => ()

/-- `_lockValue` (lines 32–36): a refusal resets the pointer on every replica. -/
def lockValue (id : StringPtr) (time : TxnTime) : NodeOp (List σ) (Option TxnTime) := fun replicas =>
  let r := sequenced (inner.lockValue id time) (fun l => (reduceOption Option.or l).join) replicas
  match r.1 with
  | .error e => (.error e, r.2)
  | .ok none => (.ok none, r.2)
  | .ok (some result) => (resetValue inner id time).map (fun _ => some result) r.2

/-- `_initValue` (lines 47–54). -/
def initValue (time : TxnTime) (value : V) (id : StringPtr) : NodeOp (List σ) Bool := fun replicas =>
  let r := sequenced (inner.initValue time value id) (fun l => (reduceOption and l).getD false)
    replicas
  match r.1 with
  | .error e => (.error e, r.2)
  | .ok true => (.ok true, r.2)
  | .ok false => (resetValue inner id time).map (fun _ => false) r.2

/-- `Future.find(inner().map(op))(_.isDefined).map(_.flatten)` (lines 44–45, 56–57). -/
def findValue (op : NodeOp σ (Option (Option V))) : NodeOp (List σ) (Option (Option V)) :=
  fun replicas =>
  let r := broadcast op replicas
  ((find Option.isSome r.1).map Option.join, r.2)

/-- `_addLock` and `_txnState` (lines 59–61, 69–71). -/
def state (op : NodeOp σ String) : NodeOp (List σ) String :=
  sequenced (op.map decided) fun l => (reduceOption Option.or l).join.getD "OPEN"

/-- `_resetTxn` and `_commitTxn` (lines 63–67). -/
def pointers (op : NodeOp σ (List StringPtr)) : NodeOp (List σ) (List StringPtr) :=
  sequenced op fun l => (reduceOption (· ∪ ·) l).getD []

/-- `trait RestmInternalReplicator` (lines 27–79). -/
def replicator : RestmInternal V (List σ) where
  resetValue := resetValue inner
  lockValue := lockValue inner
  commitValue id time := sequenced (inner.commitValue id time) fun _ => ()
  getValue id := findValue (inner.getValue id)
  getValueAt id time := findValue (inner.getValueAt id time)
  initValue := initValue inner
  addLock id time := state (inner.addLock id time)
  resetTxn time := pointers (inner.resetTxn time)
  commitTxn time := pointers (inner.commitTxn time)
  txnState time := state (inner.txnState time)
  queueValue id time value := sequenced (inner.queueValue id time value) fun _ => ()
  delete id time := sequenced (inner.delete id time) fun _ => ()

/-! ## Sequences of outcomes -/

variable {op : NodeOp σ α} {replicas : List σ} {outcomes : List (Except Failure α)} {l : List α}
  {s : σ} {e : Failure}

theorem sequence_map_ok (l : List α) : sequence (l.map .ok) = .ok l := by
  induction l with
  | nil => rfl
  | cons a l ih =>
    rw [List.map_cons, sequence, ih]
    rfl

theorem eq_of_sequence_ok (h : sequence outcomes = .ok l) : outcomes = l.map .ok := by
  induction outcomes generalizing l with
  | nil =>
    rw [← Except.ok.inj h]
    rfl
  | cons r rs ih =>
    cases r with
    | error e => cases h
    | ok a =>
      cases hrs : sequence rs with
      | error e => rw [sequence, hrs] at h; cases h
      | ok l' =>
        rw [sequence, hrs] at h
        rw [← Except.ok.inj h, ih hrs]
        rfl

/-- One failure makes the sequence fail. -/
theorem sequence_of_error (h : .error e ∈ outcomes) : ∃ e', sequence outcomes = .error e' := by
  cases hs : sequence outcomes with
  | error e' => exact ⟨e', rfl⟩
  | ok l =>
    rw [eq_of_sequence_ok hs] at h
    obtain ⟨a, -, ha⟩ := List.mem_map.mp h
    cases ha

section

variable {β : Type} {f : List α → β} {b : β}

theorem sequenced_fst :
    (sequenced op f replicas).1 = (sequence (replicas.map fun s => (op s).1)).map f := rfl

/-- An operation that fails on one replica fails. -/
theorem sequenced_of_error (hs : s ∈ replicas) (he : (op s).1 = .error e) :
    ∃ e', (sequenced op f replicas).1 = .error e' := by
  have hmem : .error e ∈ replicas.map fun s => (op s).1 := List.mem_map.mpr ⟨s, hs, he⟩
  obtain ⟨e', h⟩ := sequence_of_error hmem
  exact ⟨e', by rw [sequenced_fst, h]; rfl⟩

/-- An operation that succeeds made its value of those of the replicas. -/
theorem sequenced_ok (h : (sequenced op f replicas).1 = .ok b) :
    ∃ l, b = f l ∧ replicas.map (fun s => (op s).1) = l.map .ok := by
  rw [sequenced_fst] at h
  cases hs : sequence (replicas.map fun s => (op s).1) with
  | error e => rw [hs] at h; cases h
  | ok l =>
    rw [hs] at h
    exact ⟨l, (Except.ok.inj h).symm, eq_of_sequence_ok hs⟩

/-- The same value from every replica. -/
theorem sequenced_const {a : α} (h : ∀ s ∈ replicas, (op s).1 = .ok a) :
    (sequenced op f replicas).1 = .ok (f (List.replicate replicas.length a)) := by
  have houtcomes : replicas.map (fun s => (op s).1) = (List.replicate replicas.length a).map .ok := by
    rw [List.map_replicate]
    exact List.eq_replicate_iff.mpr ⟨List.length_map .., fun x hx => by
      obtain ⟨s, hs, rfl⟩ := List.mem_map.mp hx
      exact h s hs⟩
  rw [sequenced_fst, houtcomes, sequence_map_ok]
  rfl

end

/-- Folding to `a` takes only `a`s when `f` makes `a` of nothing else. -/
theorem eq_of_foldl {f : α → α → α} {a x : α} {l : List α} (hf : ∀ x y, f x y = a → x = a ∧ y = a)
    (h : l.foldl f x = a) : x = a ∧ ∀ y ∈ l, y = a := by
  induction l generalizing x with
  | nil => exact ⟨h, fun y hy => (List.not_mem_nil hy).elim⟩
  | cons y l ih =>
    obtain ⟨hfxy, hl⟩ := ih h
    obtain ⟨hx, hy⟩ := hf x y hfxy
    refine ⟨hx, fun z hz => ?_⟩
    rcases List.mem_cons.mp hz with rfl | hz
    · exact hy
    · exact hl z hz

theorem eq_of_reduceOption {f : α → α → α} {a : α} {l : List α}
    (hf : ∀ x y, f x y = a → x = a ∧ y = a) (h : reduceOption f l = some a) :
    l ≠ [] ∧ ∀ y ∈ l, y = a := by
  cases l with
  | nil => cases h
  | cons x l =>
    obtain ⟨hx, hl⟩ := eq_of_foldl hf (Option.some.inj h)
    refine ⟨by simp, fun y hy => ?_⟩
    rcases List.mem_cons.mp hy with rfl | hy
    · exact hx
    · exact hl y hy

/-- No conflict is reported only when nobody reported one. -/
theorem eq_none_of_reduceOption {l : List (Option α)} (h : (reduceOption Option.or l).join = none) :
    ∀ y ∈ l, y = none := by
  cases hl : reduceOption Option.or l with
  | none =>
    cases l with
    | nil => exact fun y hy => (List.not_mem_nil hy).elim
    | cons x l => cases hl
  | some x =>
    rw [hl] at h
    subst h
    exact (eq_of_reduceOption (fun x y => Option.or_eq_none_iff.mp) hl).2

/-- All pointers are initialised only when there is one and each is. -/
theorem eq_true_of_reduceOption {l : List Bool} (h : (reduceOption and l).getD false = true) :
    l ≠ [] ∧ ∀ y ∈ l, y = true := by
  cases hl : reduceOption and l with
  | none => rw [hl] at h; cases h
  | some x =>
    rw [hl] at h
    subst h
    exact eq_of_reduceOption (fun x y => (Bool.and_eq_true_iff).mp) hl

theorem reduceOption_replicate (f : α → α → α) {a : α} (h : f a a = a) (n : ℕ) :
    reduceOption f (List.replicate n a) = if n = 0 then none else some a := by
  cases n with
  | zero => rfl
  | succ n =>
    rw [List.replicate_succ, if_neg (Nat.succ_ne_zero n)]
    refine congrArg some ?_
    induction n with
    | zero => rfl
    | succ n ih => rw [List.replicate_succ, List.foldl_cons, h, ih]

end RestmInternalReplicator

end ReSTM
