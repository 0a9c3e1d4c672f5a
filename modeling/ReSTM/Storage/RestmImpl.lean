import ReSTM.Actors.RestmActors

/-!
# The store

Model of `RestmImpl` (`storage/RestmImpl.scala`) over `RestmActors`. A client's
call sends one message to an actor, and the function that the source attaches to
the returned future sends the messages that follow from the answer. Messages are
in flight from the moment they are sent until an action delivers them; nothing is
assumed about the order, so a run of `System.step` is any interleaving of any
clients' calls and of the messages that these lead to.

`failChainedCalls` is `false`: the hook that tests use to drop messages is left
out. Actors do not crash and are not evicted.

* `Delivers`, `Issued`: which message an action takes, and which it sends.
* `mem_net_step`, `ptr_step`, `txn_step`: all that one step can do to the messages
  in flight, to a pointer and to a transaction.
-/

namespace ReSTM

variable {V : Type}

/-- The two final states that `commit` and `reset` ask for. -/
inductive Decision where
  | commit
  | reset
deriving DecidableEq, Repr

namespace Decision

def state : Decision → TxnState
  | commit => .COMMIT
  | reset => .RESET

/-- What is sent to each lock: `_commitValue` (`RestmActors.scala`, line 149) or
    `_resetValue` (line 141). -/
def release (time : TxnTime) : Decision → MemMsg V
  | commit => .writeCommit time
  | reset => .writeReset time

theorem state_ne_open (d : Decision) : d.state ≠ .OPEN := by cases d <;> decide

end Decision

/-- A message in flight. `caller` is the client that waits for a decision; the calls
    that the store makes itself have none. `completed` is the completion of the future
    that such a client waits for. -/
inductive Msg (V : Type) where
  | ptr (id : StringPtr) (m : MemMsg V)
  | addLock (id : StringPtr) (time : TxnTime)
  | setState (d : Decision) (caller : Option ℕ) (time : TxnTime)
  | txnState (time : TxnTime)
  | completed (caller : ℕ) (d : Decision) (time : TxnTime) (ok : Bool)
deriving DecidableEq

/-- A client's call. `newPtr` names the id that `new PointerType(time)` drew; when it
    is taken, `recursiveNewPtr` draws another, which is another call. -/
inductive Call (V : Type) where
  | getCurrent (id : StringPtr)
  | getPtr (id : StringPtr) (time : TxnTime)
  | newPtr (id : StringPtr) (time : TxnTime) (value : V)
  | lock (id : StringPtr) (time : TxnTime)
  | queueValue (id : StringPtr) (time : TxnTime) (value : V)
  | delete (id : StringPtr) (time : TxnTime)
  | commit (caller : ℕ) (time : TxnTime)
  | reset (caller : ℕ) (time : TxnTime)
  | cleanup (time : TxnTime)
deriving DecidableEq

/-- The first message of a call. -/
def Call.msg : Call V → Msg V
  | getCurrent id => .ptr id .getCurrentValue
  | getPtr id time => .ptr id (.getValue time)
  | newPtr id time value => .ptr id (.init time value)
  | lock id time => .ptr id (.writeLock time)
  | queueValue id time value => .ptr id (.writeBlob time value)
  | delete id time => .ptr id (.delete time)
  | commit caller time => .setState .commit (some caller) time
  | reset caller time => .setState .reset (some caller) time
  | cleanup time => .txnState time

/-! ## What follows from an answer -/

/-- `age > txnTimeout`, with `txnTimeout = 7.seconds` (line 35). -/
def Expired (clock : Clock) (t : TxnTime) : Prop := t.age (.now clock) > 7000000000

instance (clock : Clock) (t : TxnTime) : Decidable (Expired clock t) :=
  decidable_of_iff ((ExactTime.now clock).total - t.time.total > 7000000000)
    (by rw [Expired, TxnTime.age_eq])

/-- `cleanup` of a transaction that is old enough. -/
def cleanupExpired (clock : Clock) (t : TxnTime) : List (Msg V) :=
  if Expired clock t then [.txnState t] else []

/-- The continuations of `getPtr(id, time)` (lines 47–56) and `lock` (lines 88–108).
    Reads without a time do not fail. -/
def afterPtr (clock : Clock) (id : StringPtr) :
    MemMsg V → Except Failure (Answer V) → List (Msg V)
  | .getValue _, .error e => e.conflict.toList.flatMap (cleanupExpired clock)
  | .writeLock time, .ok (.conflicting none) => [.addLock id time]
  | .writeLock _, .ok (.conflicting (some result)) => cleanupExpired clock result
  | _, _ => []

/-- The continuation of `_addLock` in `lock` (lines 91–99). -/
def afterAddLock (id : StringPtr) (time : TxnTime) : TxnState → List (Msg V)
  | .OPEN => []
  | .RESET => [.ptr id (Decision.reset.release time)]
  | .COMMIT => [.ptr id (Decision.commit.release time)]

/-- The continuation of `_resetTxn` and `_commitTxn` (lines 66–74). The result of
    `Future.sequence` is dropped: the caller's future is complete once the messages
    are sent. -/
def afterSetState (d : Decision) (caller : Option ℕ) (time : TxnTime) :
    Except Failure (List StringPtr) → List (Msg V)
  | .ok locks =>
    locks.map (fun id => .ptr id (d.release time)) ++
      caller.toList.map fun c => .completed c d time true
  | .error _ => caller.toList.map fun c => .completed c d time false

/-- The continuation of `_txnState` in `cleanup` (lines 58–64). -/
def afterTxnState (time : TxnTime) : TxnState → List (Msg V)
  | .COMMIT => [.setState .commit none time]
  | _ => [.setState .reset none time]

/-! ## The system -/

/-- What an observer of the clients and of the futures sees. -/
inductive Event (V : Type) where
  | called (c : Call V)
  | failed (id : StringPtr) (m : MemMsg V)
  | completed (caller : ℕ) (d : Decision) (time : TxnTime) (ok : Bool)
deriving DecidableEq

/-- The node, the messages in flight and the events so far, newest first. -/
structure System (V : Type) where
  clock : Clock
  node : RestmActors V
  net : List (Msg V) := []
  events : List (Event V) := []

/-- One step: a client calls, time passes, or the message at some position in the
    list is delivered. -/
inductive Action (V : Type) where
  | call (c : Call V)
  | tick (clock : Clock)
  | deliver (i : ℕ)
deriving DecidableEq

namespace System

/-- A message to a pointer names its actor, and so creates it. -/
def send (s : System V) : Msg V → System V
  | .ptr id m =>
    { s with node := s.node.getPtrActor s.clock id m.time?, net := s.net ++ [.ptr id m] }
  | m => { s with net := s.net ++ [m] }

def sendAll (s : System V) (msgs : List (Msg V)) : System V := msgs.foldl send s

/-- Process a message that is no longer in flight; the messages that follow from it
    are still to be sent. A message to a pointer is in the mailbox of its actor, so the
    actor is there. -/
def handle (s : System V) : Msg V → System V × List (Msg V)
  | .ptr id m =>
    match s.node.ptrs id with
    | none => (s, [])
    | some p =>
      ({ s with
          node := s.node.setPtr id (p.step m)
          events := match p.actor.reply m with
            | .ok _ => s.events
            | .error _ => .failed id m :: s.events },
        afterPtr s.clock id m (p.actor.reply m))
  | .addLock id time =>
    let r := s.node.addLock id time
    ({ s with node := r.2 }, afterAddLock id time r.1)
  | .setState d caller time =>
    let r := s.node.setState d.state time
    ({ s with node := r.2 }, afterSetState d caller time r.1)
  | .txnState time => (s, afterTxnState time (s.node.txnState time))
  | .completed caller d time ok => ({ s with events := .completed caller d time ok :: s.events }, [])

def step (s : System V) : Action V → System V
  | .call c => { s with events := .called c :: s.events }.send c.msg
  | .tick clock => { s with clock := clock }
  | .deliver i =>
    match s.net[i]? with
    | none => s
    | some m =>
      let r := { s with net := s.net.eraseIdx i }.handle m
      r.1.sendAll r.2

/-- A node that has just started. -/
def start (clock : Clock) (coldStorage : StringPtr → List (TxnTime × Option V)) : System V where
  clock := clock
  node := { coldStorage := coldStorage }

/-! ## Sending -/

variable {s : System V} {a : Action V} {m m' : Msg V} {msgs : List (Msg V)} {x : StringPtr}
  {p p' : LoggedActor V} {t : TxnTime}

@[simp] theorem send_net : (s.send m).net = s.net ++ [m] := by cases m <;> rfl
@[simp] theorem send_events : (s.send m).events = s.events := by cases m <;> rfl
@[simp] theorem send_cold : (s.send m).node.coldStorage = s.node.coldStorage := by
  cases m <;> simp [send]
@[simp] theorem send_txns : (s.send m).node.txns = s.node.txns := by cases m <;> simp [send]

theorem send_ptrs_of_some (h : s.node.ptrs x = some p) : (s.send m).node.ptrs x = some p := by
  cases m with
  | ptr => exact RestmActors.getPtrActor_of_some h
  | _ => exact h

/-- The actor was there, or has just been restored. -/
def Fresh (s : System V) (x : StringPtr) (p : LoggedActor V) : Prop :=
  s.node.ptrs x = none ∧ ∃ now time, p = restore (s.node.coldStorage x) now time

theorem send_ptrs (h : (s.send m).node.ptrs x = some p) :
    s.node.ptrs x = some p ∨ s.Fresh x p := by
  cases m with
  | ptr id m' =>
    rcases RestmActors.getPtrActor_eq h with h | ⟨hnone, rfl⟩
    · exact .inl h
    · exact .inr ⟨hnone, _, _, rfl⟩
  | _ => exact .inl h

@[simp] theorem sendAll_net : (s.sendAll msgs).net = s.net ++ msgs := by
  induction msgs generalizing s with
  | nil => simp [sendAll]
  | cons m msgs ih => simpa [sendAll] using ih (s := s.send m)

@[simp] theorem sendAll_events : (s.sendAll msgs).events = s.events := by
  induction msgs generalizing s with
  | nil => rfl
  | cons m msgs ih => simpa [sendAll] using ih (s := s.send m)

@[simp] theorem sendAll_cold : (s.sendAll msgs).node.coldStorage = s.node.coldStorage := by
  induction msgs generalizing s with
  | nil => rfl
  | cons m msgs ih => simpa [sendAll] using ih (s := s.send m)

@[simp] theorem sendAll_txns : (s.sendAll msgs).node.txns = s.node.txns := by
  induction msgs generalizing s with
  | nil => rfl
  | cons m msgs ih => simpa [sendAll] using ih (s := s.send m)

theorem sendAll_ptrs_of_some (h : s.node.ptrs x = some p) :
    (s.sendAll msgs).node.ptrs x = some p := by
  induction msgs generalizing s with
  | nil => exact h
  | cons m msgs ih => exact ih (send_ptrs_of_some h)

theorem sendAll_ptrs (h : (s.sendAll msgs).node.ptrs x = some p) :
    s.node.ptrs x = some p ∨ s.Fresh x p := by
  induction msgs generalizing s with
  | nil => exact .inl h
  | cons m msgs ih =>
    rcases ih h with h | ⟨hnone, now, time, rfl⟩
    · exact send_ptrs h
    · refine .inr ⟨?_, now, time, by rw [send_cold]⟩
      cases hs : s.node.ptrs x with
      | none => rfl
      | some q => rw [send_ptrs_of_some hs] at hnone; cases hnone

end System

end ReSTM
