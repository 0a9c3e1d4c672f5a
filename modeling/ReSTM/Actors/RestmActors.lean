import ReSTM.Actors.Log
import ReSTM.Actors.RepeatableRead
import ReSTM.Actors.TxnActor
import ReSTM.Types.Next
import Mathlib.Data.List.Sort

/-!
# The actors of one node

Model of `RestmActors` (`storage/actors/RestmActors.scala`): the pointer actors
and the transaction actors that exist, and the cold storage that a pointer actor
is restored from when it is first asked for. Both kinds of actor are created by
the first call that names them. The freeze thread, which copies versions to cold
storage, collects garbage and evicts idle actors, is left out.

* `restore_ordered`: a restored actor is in order.
* `getPtrActor_of_some`, `getPtrActor_eq`: an actor is created at most once.
-/

namespace ReSTM

variable {V : Type}

instance : DecidableRel fun x y : HistoryRecord V => x.time ≤ y.time :=
  fun x y => inferInstanceAs (Decidable (x.time ≤ y.time))

/-- The actor that lines 160–167 make: the first accessor's time is its `lastRead`,
    and `coldStorage.read(id)` its history. The keys of `restored` are those of a
    `Map`. -/
def restore (restored : List (TxnTime × Option V)) (currentTimeMillis : ℤ)
    (time : Option TxnTime) : LoggedActor V where
  actor := MemActor.create time <|
    (restored.map fun e =>
      { time := e.1, value := e.2, coldStorageTs := some currentTimeMillis }).insertionSort
      fun x y => x.time ≤ y.time

theorem restore_ordered (restored : List (TxnTime × Option V)) (now : ℤ) (time : Option TxnTime) :
    (restore restored now time).actor.Ordered := by
  refine MemActor.create_ordered ?_
  have : Std.Total fun x y : HistoryRecord V => x.time ≤ y.time :=
    ⟨fun x y => by simp only [TxnTime.le_iff]; omega⟩
  have : IsTrans (HistoryRecord V) fun x y => x.time ≤ y.time :=
    ⟨fun x y z => by simp only [TxnTime.le_iff]; omega⟩
  exact List.pairwise_insertionSort _ _

/-- A restored actor holds the versions of the cold storage. -/
theorem mem_restore_history {restored : List (TxnTime × Option V)} {now : ℤ}
    {time : Option TxnTime} {x : HistoryRecord V} :
    x ∈ (restore restored now time).actor.history ↔
      (x.time, x.value) ∈ restored ∧ x.coldStorageTs = some now := by
  obtain ⟨t, v, c⟩ := x
  simp only [restore, MemActor.create, List.mem_insertionSort, List.mem_map, HistoryRecord.mk.injEq,
    Prod.exists]
  constructor
  · rintro ⟨t', v', hmem, rfl, rfl, rfl⟩; exact ⟨hmem, rfl⟩
  · rintro ⟨hmem, rfl⟩; exact ⟨t, v, hmem, rfl, rfl, rfl⟩

theorem restore_mem {restored : List (TxnTime × Option V)} {now : ℤ} {time : Option TxnTime}
    {t : TxnTime} {v : Option V} (h : (t, v) ∈ restored) :
    { time := t, value := v, coldStorageTs := some now } ∈ (restore restored now time).actor.history :=
  mem_restore_history.mpr ⟨h, rfl⟩

/-- The state of `RestmActors` (lines 40, 105–107). A transaction without an actor is
    open and has no locks. -/
structure RestmActors (V : Type) where
  coldStorage : StringPtr → List (TxnTime × Option V)
  ptrs : StringPtr → Option (LoggedActor V) := fun _ => none
  txns : TxnTime → TxnActor := fun _ => {}

namespace RestmActors

variable {node : RestmActors V} {clock : Clock} {id x : StringPtr} {time : Option TxnTime}
  {p : LoggedActor V} {t : TxnTime}

/-- Replace a pointer actor. -/
def setPtr (id : StringPtr) (p : LoggedActor V) (node : RestmActors V) : RestmActors V :=
  { node with ptrs := fun x => if x = id then some p else node.ptrs x }

/-- Replace a transaction actor. -/
def setTxn (time : TxnTime) (a : TxnActor) (node : RestmActors V) : RestmActors V :=
  { node with txns := fun t => if t = time then a else node.txns t }

/-- `getPtrActor` (lines 154–185), which creates the actor that is not there. -/
def getPtrActor (clock : Clock) (id : StringPtr) (time : Option TxnTime) (node : RestmActors V) :
    RestmActors V :=
  match node.ptrs id with
  | some _ => node
  | none => node.setPtr id (restore (node.coldStorage id) clock.currentTimeMillis time)

/-- `_addLock` (lines 199–201). -/
def addLock (id : StringPtr) (time : TxnTime) (node : RestmActors V) : TxnState × RestmActors V :=
  let r := (node.txns time).addLock id
  (r.1, node.setTxn time r.2)

/-- `getTxnActor(time).setState(s)`, which `_resetTxn` and `_commitTxn` are
    (lines 203–209). -/
def setState (s : TxnState) (time : TxnTime) (node : RestmActors V) :
    Except Failure (List StringPtr) × RestmActors V :=
  let r := (node.txns time).setState s
  (r.1, node.setTxn time r.2)

/-- `_txnState` (lines 137–139). -/
def txnState (time : TxnTime) (node : RestmActors V) : TxnState := (node.txns time).getState

@[simp] theorem setPtr_cold : (node.setPtr id p).coldStorage = node.coldStorage := rfl
@[simp] theorem setPtr_txns : (node.setPtr id p).txns = node.txns := rfl
@[simp] theorem setPtr_self : (node.setPtr id p).ptrs id = some p := if_pos rfl
@[simp] theorem setTxn_cold {a : TxnActor} : (node.setTxn t a).coldStorage = node.coldStorage := rfl
@[simp] theorem setTxn_ptrs {a : TxnActor} : (node.setTxn t a).ptrs = node.ptrs := rfl
@[simp] theorem setTxn_self {a : TxnActor} : (node.setTxn t a).txns t = a := if_pos rfl

theorem setPtr_of_ne (h : x ≠ id) : (node.setPtr id p).ptrs x = node.ptrs x := if_neg h

theorem setTxn_of_ne {a : TxnActor} {time : TxnTime} (h : t ≠ time) :
    (node.setTxn time a).txns t = node.txns t := if_neg h

@[simp] theorem getPtrActor_cold : (node.getPtrActor clock id time).coldStorage = node.coldStorage := by
  unfold getPtrActor; split <;> rfl

@[simp] theorem getPtrActor_txns : (node.getPtrActor clock id time).txns = node.txns := by
  unfold getPtrActor; split <;> rfl

/-- An actor that is there stays as it is. -/
theorem getPtrActor_of_some (h : node.ptrs x = some p) :
    (node.getPtrActor clock id time).ptrs x = some p := by
  unfold getPtrActor
  split
  · exact h
  · next hnone =>
    rw [setPtr_of_ne]
    · exact h
    · rintro rfl; rw [hnone] at h; cases h

/-- An actor that was not there is freshly restored. -/
theorem getPtrActor_eq (h : (node.getPtrActor clock id time).ptrs x = some p) :
    node.ptrs x = some p ∨
      node.ptrs x = none ∧ p = restore (node.coldStorage x) clock.currentTimeMillis time := by
  unfold getPtrActor at h
  split at h
  · exact .inl h
  · next hnone =>
    by_cases hx : x = id
    · subst hx
      rw [setPtr_self] at h
      exact .inr ⟨hnone, (Option.some.inj h).symm⟩
    · rw [setPtr_of_ne hx] at h
      exact .inl h

end RestmActors

end ReSTM
