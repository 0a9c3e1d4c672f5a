import ReSTM.Common.Serial
import ReSTM.Storage.Awaited
import Mathlib.Data.List.Dedup

/-!
# Committed transactions are serializable in timestamp order

A commit decides once and then releases the pointers one by one, in any order and
among messages of any other client. Still nobody sees half of it: a transaction
that reads after a committed writer sees that writer's version or a later one on
every pointer, also where the release is still on its way, because the read is
refused until then.

* `atomic_visibility`: this, and that every read returns what the committed
  transactions before the reader leave when they are executed one after another in
  timestamp order.
-/

namespace ReSTM

open Transition

variable {V : Type}

/-- The transaction a call is made for. -/
def Call.time? : Call V → Option TxnTime
  | getCurrent _ => none
  | getPtr _ t | newPtr _ t _ | lock _ t | queueValue _ t _ | delete _ t | commit _ t | reset _ t
  | cleanup t => some t

/-- The transaction that the event commits. -/
def Event.committer : Event V → Option TxnTime
  | .called (.commit _ t) => some t
  | _ => none

/-- What the line says that `t` queued. -/
def Line.queuedBy (t : TxnTime) : Line V → Option (Option V)
  | .queued w q => if w = t then some q else none
  | _ => none

theorem Line.queuedBy_eq_some {t : TxnTime} {line : Line V} {q : Option V}
    (h : line.queuedBy t = some q) : line = .queued t q := by
  cases line with
  | queued w q' =>
    simp only [queuedBy] at h
    split at h
    · next hw => cases h; rw [hw]
    · cases h
  | _ => cases h

namespace System

variable {s : System V} {T : Set TxnTime} {x : StringPtr} {t u : TxnTime} {q : Option V}
  {record : Option (HistoryRecord V)}

/-- `t` queued `q` for `x` under its lock: a value, or a deletion. -/
def Queued (s : System V) (t : TxnTime) (x : StringPtr) (q : Option V) : Prop :=
  ∃ p, s.node.ptrs x = some p ∧ .queued t q ∈ p.log

/-- A read of `x` at `u` returned the value of this record, or found none. -/
def Read (s : System V) (u : TxnTime) (x : StringPtr) (record : Option (HistoryRecord V)) : Prop :=
  ∃ p, s.node.ptrs x = some p ∧ .read u record ∈ p.log

/-- What `t` writes to `x`, if anything. -/
def writes (s : System V) (t : TxnTime) (x : StringPtr) : Option (Option V) :=
  (s.node.ptrs x).bind fun p => p.log.findSome? (Line.queuedBy t)

/-- What `x` held before `u` when the run began. -/
def initially (s : System V) (u : TxnTime) (x : StringPtr) : Option V :=
  LoggedActor.restoredBefore (s.node.coldStorage x) u

/-- The committed transactions in timestamp order. -/
def commitOrder (s : System V) : List TxnTime :=
  (((s.events.filterMap Event.committer).filter fun t => decide (s.outcome t = .COMMIT)).dedup).insertionSort
    (· ≤ ·)

theorem queued_of_writes (h : s.writes t x = some q) : s.Queued t x q := by
  obtain ⟨p, hp, hfind⟩ := Option.bind_eq_some_iff.mp h
  obtain ⟨l₁, line, l₂, hlog, hline, -⟩ := List.findSome?_eq_some_iff.mp hfind
  refine ⟨p, hp, ?_⟩
  rw [hlog, ← Line.queuedBy_eq_some hline]
  exact List.mem_append_right _ List.mem_cons_self

theorem not_queued_of_writes (h : s.writes t x = none) : ¬s.Queued t x q := by
  rintro ⟨p, hp, hq⟩
  have hfind : p.log.findSome? (Line.queuedBy t) = none := by
    simpa [writes, hp] using h
  have hnone := List.findSome?_eq_none_iff.mp hfind _ hq
  simp [Line.queuedBy] at hnone

theorem mem_commitOrder (hs : s.Awaited) : t ∈ s.commitOrder ↔ s.outcome t = .COMMIT := by
  simp only [commitOrder, List.mem_insertionSort, List.mem_dedup, List.mem_filter, decide_eq_true_eq,
    and_iff_right_iff_imp, List.mem_filterMap]
  intro h
  obtain ⟨e, he, hcommits⟩ := hs.decided t h
  refine ⟨e, he, ?_⟩
  cases e with
  | called c =>
    cases c with
    | commit c w => rw [Event.committer, of_decide_eq_true hcommits]
    | _ => cases hcommits
  | _ => cases hcommits

theorem commitOrder_sorted (hT : TxnTime.Distinct T) (hs : s.Awaited)
    (htime : ∀ t, s.outcome t = .COMMIT → t ∈ T) : s.commitOrder.Pairwise (· < ·) := by
  have : Std.Total fun t u : TxnTime => t ≤ u := ⟨fun t u => by simp only [TxnTime.le_iff]; omega⟩
  have : IsTrans TxnTime fun t u => t ≤ u := ⟨fun t u v => by simp only [TxnTime.le_iff]; omega⟩
  have hle : s.commitOrder.Pairwise (· ≤ ·) := List.pairwise_insertionSort _ _
  have hne : s.commitOrder.Nodup := by
    rw [commitOrder, (List.perm_insertionSort _ _).nodup_iff]
    exact List.nodup_dedup _
  refine (hle.and hne).imp_of_mem fun {t u} ht hu h => ?_
  exact TxnTime.lt_iff.mpr (hT.rank_lt (htime t ((mem_commitOrder hs).mp ht))
    (htime u ((mem_commitOrder hs).mp hu)) (TxnTime.le_iff.mp h.1) h.2)

/-- Reads return what a serial execution leaves. -/
theorem Settled.read_serial (hT : TxnTime.Distinct T) (hs : s.Settled)
    (htime : ∀ t, s.outcome t = .COMMIT → t ∈ T) (hcold : ∀ x, ∀ c ∈ s.node.coldStorage x, c.1 ∈ T)
    (hu : u ∈ T) (hread : s.Read u x record) (hown : ∀ r, record = some r → r.time ≠ u) :
    record.bind (·.value) =
      Serial.exec s.writes (s.initially u) (s.commitOrder.filter fun t => decide (t < u)) x := by
  obtain ⟨p, hp, hr⟩ := hread
  have hps := hs.ptrs x p hp
  have hmem : ∀ t, t ∈ s.commitOrder.filter (fun t => decide (t < u)) ↔
      s.outcome t = .COMMIT ∧ t < u := by
    intro t
    rw [List.mem_filter, mem_commitOrder hs.awaited, decide_eq_true_eq]
  have hasymm : ∀ t t' : TxnTime, t < t' → ¬t' < t := by
    intro t t'; simp only [TxnTime.lt_iff]; omega
  have hsorted := (commitOrder_sorted hT hs.awaited htime).filter fun t => decide (t < u)
  have hwriter : ∀ t q, .queued t q ∈ p.log → s.writes t x ≠ none :=
    fun t q hq hnone => not_queued_of_writes hnone ⟨p, hp, hq⟩
  rcases Serial.exec_cases s.writes (s.initially u) x hasymm hsorted with
    ⟨hno, heq⟩ | ⟨t, ht, hwrite, hgreatest⟩
  · rw [heq]
    refine hps.read_restored hT htime (hcold x) (hs.keys x) hu hr hown fun t q hcommit hq hlt => ?_
    exact hwriter t q hq (hno t ((hmem t).mpr ⟨hcommit, hlt⟩))
  · obtain ⟨hcommit, hlt⟩ := (hmem t).mp ht
    obtain ⟨p', hp', hq⟩ := queued_of_writes hwrite
    obtain rfl : p' = p := Option.some.inj (hp'.symm.trans hp)
    refine hps.read_last_writer hT htime (hcold x) hu hr hown hcommit hq hlt ?_
    intro t' q' hcommit' hq' htt' hlt'
    exact hwriter t' q' hq' (hgreatest t' ((hmem t').mpr ⟨hcommit', hlt'⟩) htt')

/-- A transaction with a recorded commit was called to commit by some action. -/
theorem call_of_commitCalled {clock : Clock} {cold : StringPtr → List (TxnTime × Option V)}
    {as : List (Action V)} (h : (run step (start clock cold) as).CommitCalled t) :
    ∃ c, .call (.commit c t) ∈ as := by
  induction as using List.reverseRecOn with
  | nil => obtain ⟨e, he, -⟩ := h; exact absurd he List.not_mem_nil
  | append_singleton as a ih =>
    rw [run_append] at h
    rcases CommitCalled.of_step h with h | ⟨c, rfl⟩
    · obtain ⟨c, hc⟩ := ih h
      exact ⟨c, List.mem_append_left _ hc⟩
    · exact ⟨c, List.mem_append_right _ (List.mem_singleton_self _)⟩

/-- In every run in which clients commit after their other calls were answered and all
    timestamps are distinct: whoever reads after a committed writer of a pointer sees
    the writer's version or a later one, at any moment; and every read returns what
    the committed transactions before the reader leave when executed serially in
    timestamp order, unless it returns a version of the reader itself. -/
theorem atomic_visibility (hT : TxnTime.Distinct T) (clock : Clock)
    {cold : StringPtr → List (TxnTime × Option V)}
    (hcold : ∀ x, ∀ c ∈ cold x, c.1 ∈ T) (hkeys : ∀ x, ((cold x).map Prod.fst).Nodup)
    (as : List (Action V)) (htimes : ∀ c, .call c ∈ as → ∀ t, c.time? = some t → t ∈ T)
    (hnew : ∀ a ∈ as, ¬NewPtr a) (hawaits : Along step Awaits (start clock cold) as) :
    let s := run step (start clock cold) as
    (∀ t u x q record, s.outcome t = .COMMIT → s.Queued t x q → s.Read u x record → t < u →
      ∃ r, record = some r ∧ t ≤ r.time) ∧
    (∀ u ∈ T, ∀ x record, s.Read u x record → (∀ r, record = some r → r.time ≠ u) →
      record.bind (·.value) =
        Serial.exec s.writes (s.initially u) (s.commitOrder.filter fun t => decide (t < u)) x) := by
  intro s
  have hs : s.Settled := run_settled (settled_start clock hkeys) hawaits hnew
  constructor
  · rintro t u x q record hcommit ⟨p, hp, hq⟩ ⟨p', hp', hr⟩ hlt
    obtain rfl : p' = p := Option.some.inj (hp'.symm.trans hp)
    exact (hs.ptrs x p' hp).read_of_queued hcommit hq hr hlt
  · intro u hu x record hread hown
    have htime : ∀ t, s.outcome t = .COMMIT → t ∈ T := by
      intro t ht
      obtain ⟨c, hc⟩ := call_of_commitCalled (hs.awaited.decided t ht)
      exact htimes _ hc t rfl
    have hcoldStorage : s.node.coldStorage = cold :=
      run_invariant (I := fun s : System V => s.node.coldStorage = cold)
        (fun _ _ h => (step_cold _ _).trans h) as rfl
    exact hs.read_serial hT htime (hcoldStorage ▸ hcold) hu hread hown

/-- Transaction 1 writes two pointers. Transaction 2 reads the second one while its
    release is on its way, which is refused, and again when it has arrived. -/
theorem atomic_visibility_two :
    let as : List (Action ℕ) :=
      [.call (.lock ⟨"x"⟩ (.ofEpoch 1)), .deliver 0, .deliver 0,
        .call (.lock ⟨"y"⟩ (.ofEpoch 1)), .deliver 0, .deliver 0,
        .call (.queueValue ⟨"x"⟩ (.ofEpoch 1) 10), .deliver 0,
        .call (.queueValue ⟨"y"⟩ (.ofEpoch 1) 20), .deliver 0,
        .call (.commit 0 (.ofEpoch 1)), .deliver 0, .deliver 1,
        .call (.getPtr ⟨"x"⟩ (.ofEpoch 2)), .deliver 2,
        .call (.getPtr ⟨"y"⟩ (.ofEpoch 2)), .deliver 2, .deliver 0,
        .call (.getPtr ⟨"y"⟩ (.ofEpoch 2)), .deliver 1]
    let s := run step (start ⟨1000, 0⟩ fun _ => []) as
    s.Read (.ofEpoch 2) ⟨"y"⟩ (some { time := .ofEpoch 1, value := some 20 }) ∧
    (∀ record, s.Read (.ofEpoch 2) ⟨"x"⟩ record → ∃ r, record = some r ∧ .ofEpoch 1 ≤ r.time) ∧
    (∀ record, s.Read (.ofEpoch 2) ⟨"y"⟩ record → (∀ r, record = some r → r.time ≠ .ofEpoch 2) →
      record.bind (·.value) = some 20) := by
  intro as s
  have hcold : ∀ x, ∀ c ∈ (fun _ => [] : StringPtr → List (TxnTime × Option ℕ)) x,
      c.1 ∈ Set.range TxnTime.ofEpoch := fun _ _ hc => absurd hc List.not_mem_nil
  have h := atomic_visibility TxnTime.distinct_ofEpoch ⟨1000, 0⟩ hcold (fun _ => List.nodup_nil) as
    (by simp [as, Call.time?]) (by decide) (by decide)
  refine ⟨⟨_, rfl, by decide⟩, fun record hread => ?_, fun record hread hown => ?_⟩
  · exact h.1 _ _ _ (some 10) record (by decide) ⟨_, rfl, by decide⟩ hread (by decide)
  · exact (h.2 _ ⟨2, rfl⟩ _ _ hread hown).trans (by decide)

end System

end ReSTM
