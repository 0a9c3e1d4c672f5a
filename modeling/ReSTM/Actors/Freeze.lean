import ReSTM.Actors.RestmActors
import ReSTM.Cold.ColdStorage

/-!
# Persistence, garbage collection and eviction of a pointer

Model of the freeze thread of `RestmActors` (`storage/actors/RestmActors.scala`, lines
48–103) and of `MemActor.collectGarbage` (`storage/actors/MemActor.scala`, lines 54–66),
for one pointer. The freeze thread, the garbage collector and the expiry each send a
message to the actor; callers obtain the actor from `getPtrActor` and may still hold it
when it has been closed. A closed actor answers reads and refuses everything else.

A later store overrides an earlier one in cold storage. How long an expiry waits is left
out: it may run at any time after it was scheduled.

* `splitMax_spec`: the version that garbage collection always keeps.
* `Pointer.Effect`, `step_effect`: everything that one action can do to a pointer.
-/

namespace ReSTM

variable {V : Type}

/-! ## Garbage collection -/

/-- `history.maxBy(_.time)`, with what stands before and after it; of several newest
    records it is the first. -/
def splitMax : List (HistoryRecord V) →
    Option (List (HistoryRecord V) × HistoryRecord V × List (HistoryRecord V))
  | [] => none
  | x :: l =>
    match splitMax l with
    | none => some ([], x, l)
    | some (pre, m, post) => if x.time < m.time then some (x :: pre, m, post) else some ([], x, l)

theorem splitMax_eq_none_iff {l : List (HistoryRecord V)} : splitMax l = none ↔ l = [] := by
  cases l with
  | nil => simp [splitMax]
  | cons x l =>
    rw [splitMax]
    cases splitMax l with
    | none => simp
    | some r => dsimp only; split_ifs <;> simp

theorem splitMax_spec {l : List (HistoryRecord V)} {pre post : List (HistoryRecord V)}
    {m : HistoryRecord V} (h : splitMax l = some (pre, m, post)) :
    l = pre ++ m :: post ∧ ∀ x ∈ l, x.time ≤ m.time := by
  induction l generalizing pre m post with
  | nil => cases h
  | cons x l ih =>
    rw [splitMax] at h
    cases hl : splitMax l with
    | none =>
      rw [hl] at h
      cases h
      rw [splitMax_eq_none_iff] at hl
      subst hl
      refine ⟨rfl, fun y hy => ?_⟩
      rw [List.mem_singleton.mp hy]
      exact TxnTime.le_refl _
    | some r =>
      obtain ⟨pre', m', post'⟩ := r
      obtain ⟨hsplit, hmax⟩ := ih hl
      rw [hl] at h
      dsimp only at h
      split_ifs at h with hlt <;> cases h
      · refine ⟨by rw [hsplit]; rfl, fun y hy => ?_⟩
        rcases List.mem_cons.mp hy with rfl | hy
        · exact TxnTime.le_of_lt hlt
        · exact hmax y hy
      · refine ⟨rfl, fun y hy => ?_⟩
        rcases List.mem_cons.mp hy with rfl | hy
        · exact y.time.le_refl
        · have := hmax y hy
          rw [TxnTime.lt_iff] at hlt
          rw [TxnTime.le_iff] at this ⊢
          omega

/-- `maxBy` keeps the first of the newest records. -/
theorem splitMax_eq {pre post : List (HistoryRecord V)} {m : HistoryRecord V}
    (hpre : ∀ x ∈ pre, x.time < m.time) (hpost : ∀ x ∈ post, x.time ≤ m.time) :
    splitMax (pre ++ m :: post) = some (pre, m, post) := by
  induction pre with
  | nil =>
    rw [List.nil_append, splitMax]
    cases hl : splitMax post with
    | none =>
      rw [splitMax_eq_none_iff] at hl
    | some r =>
      obtain ⟨pre', m', post'⟩ := r
      have hle := hpost m' (by rw [(splitMax_spec hl).1]; simp)
      have hlt : ¬m.time < m'.time := by
        rw [TxnTime.lt_iff, not_lt]
        exact TxnTime.le_iff.mp hle
      dsimp only
      rw [if_neg hlt]
  | cons x pre ih =>
    rw [List.cons_append, splitMax, ih fun y hy => hpre y (List.mem_cons_of_mem x hy)]
    exact if_pos (hpre x List.mem_cons_self)

theorem splitMax_lt {l : List (HistoryRecord V)} {pre post : List (HistoryRecord V)}
    {m : HistoryRecord V} (h : splitMax l = some (pre, m, post)) : ∀ x ∈ pre, x.time < m.time := by
  induction l generalizing pre m post with
  | nil => cases h
  | cons x l ih =>
    rw [splitMax] at h
    cases hl : splitMax l with
    | none =>
      rw [hl] at h
      cases h
      exact fun _ hy => absurd hy List.not_mem_nil
    | some r =>
      obtain ⟨pre', m', post'⟩ := r
      rw [hl] at h
      dsimp only at h
      split_ifs at h with hlt <;> cases h
      · intro y hy
        rcases List.mem_cons.mp hy with rfl | hy
        · exact hlt
        · exact ih hl y hy
      · exact fun _ hy => absurd hy List.not_mem_nil

/-- `time.age > 15.seconds`. -/
def Aged (now : ExactTime) (t : TxnTime) : Prop := t.age now > 15000000000

instance (now : ExactTime) (t : TxnTime) : Decidable (Aged now t) :=
  decidable_of_iff (now.total - t.time.total > 15000000000) (by rw [Aged, TxnTime.age_eq])

namespace MemActor

/-- `collectGarbage` (lines 54–60) at the time `now`; `maxBy` fails on a pointer without
    versions. -/
def collectGarbage (now : ExactTime) (a : MemActor V) : MemActor V :=
  match splitMax a.history with
  | none => a
  | some (pre, m, post) =>
    { a with
      history := pre.filter (fun x => ¬Aged now x.time) ++ m :: post.filter fun x => ¬Aged now x.time }

/-- The current value is that of the version that garbage collection keeps. -/
theorem getCurrentValue_eq (a : MemActor V) :
    a.getCurrentValue = (splitMax a.history).map fun r => (r.2.1.time, r.2.1.value) := by
  cases hsplit : splitMax a.history with
  | none =>
    rw [splitMax_eq_none_iff] at hsplit
    rw [getCurrentValue, hsplit]
    rfl
  | some r =>
    obtain ⟨pre, m, post⟩ := r
    rw [getCurrentValue, (splitMax_spec hsplit).1]
    exact congrArg (Option.map _) (foldl_newer_eq (splitMax_lt hsplit)
      fun x hx => (splitMax_spec hsplit).2 x (by rw [(splitMax_spec hsplit).1]; simp [hx]))

theorem collectGarbage_sublist (now : ExactTime) (a : MemActor V) :
    (a.collectGarbage now).history.Sublist a.history := by
  unfold collectGarbage
  split
  · exact List.Sublist.refl _
  · next hsplit =>
    rw [(splitMax_spec hsplit).1]
    exact List.filter_sublist.append (List.filter_sublist.cons_cons _)

@[simp] theorem collectGarbage_writeLock (now : ExactTime) (a : MemActor V) :
    (a.collectGarbage now).writeLock = a.writeLock := by
  unfold collectGarbage; split <;> rfl

@[simp] theorem collectGarbage_lastRead (now : ExactTime) (a : MemActor V) :
    (a.collectGarbage now).lastRead = a.lastRead := by
  unfold collectGarbage; split <;> rfl

/-- Garbage collection keeps a newest version. -/
theorem le_collectGarbage (now : ExactTime) {a : MemActor V} {x : HistoryRecord V}
    (hx : x ∈ a.history) : ∃ y ∈ (a.collectGarbage now).history, x.time ≤ y.time := by
  unfold collectGarbage
  split
  · exact ⟨x, hx, x.time.le_refl⟩
  · next pre m post hsplit => exact ⟨m, by simp, (splitMax_spec hsplit).2 x hx⟩

/-- `history.filter(_.coldStorageTs.isEmpty)`. -/
def recordsToUpload (a : MemActor V) : List (HistoryRecord V) :=
  a.history.filter (·.coldStorageTs.isNone)

/-- Mark a record as persisted. -/
def persisted (now : ℤ) (x : HistoryRecord V) : HistoryRecord V :=
  if x.coldStorageTs.isNone then { x with coldStorageTs := some now } else x

/-- `recordsToUpload.foreach(_.coldStorageTs = …)`. -/
def markPersisted (now : ℤ) (a : MemActor V) : MemActor V :=
  { a with history := a.history.map (persisted now) }

theorem markPersisted_times (now : ℤ) (a : MemActor V) :
    (a.markPersisted now).history.map (·.time) = a.history.map (·.time) := by
  rw [markPersisted, List.map_map]
  refine List.map_congr_left fun x _ => ?_
  show (persisted now x).time = x.time
  unfold persisted
  split_ifs <;> rfl

end MemActor

/-! ## One pointer -/

/-- The `Runnable` that evicts an idle actor (lines 64–86). -/
structure Expiry where
  prevTxns : List TxnTime
  lastRead : TxnTime
deriving DecidableEq

/-- What an observer of the pointer has seen. -/
inductive PtrEvent (V : Type) where
  | read (time : TxnTime)
  | granted (time : TxnTime)
  | written (time : TxnTime) (value : Option V)
deriving DecidableEq

/-- A pointer: what is in cold storage, the actor in `ptrs1` and `ptrs2`, the actors that
    were closed, the messages on their way to the actor in memory, and the events so far,
    newest first. -/
structure Pointer (V : Type) where
  cold : Versions V := ∅
  live : Option (MemActor V) := none
  closed : List (MemActor V) := []
  freezeQueue : ℕ := 0
  freezes : ℕ := 0
  collections : ℕ := 0
  expireQueue : List Expiry := []
  events : List (PtrEvent V) := []

/-- One step of the pointer. Clocks are those that the step reads. -/
inductive PtrAction (V : Type) where
  | access (now : ℤ) (time : Option TxnTime)
  | message (m : MemMsg V)
  | closedMessage (i : ℕ) (m : MemMsg V)
  | dequeue (now : ℤ)
  | freeze (now : ℤ)
  | collect (now : ExactTime)
  | expire (i : ℕ)
deriving DecidableEq

/-- What a message to the actor `a` with the outcome `r` shows. A value that arrives after
    its commit is written at the time of the lock. -/
def MemMsg.events (a : MemActor V) : MemMsg V → Except Failure (Answer V) → List (PtrEvent V)
  | .getValue t, .ok _ => [.read t]
  | .init t v, .ok (.flag true) => [.written t (some v)]
  | .writeLock t, .ok (.conflicting none) => [.granted t]
  | .writeBlob _ v, .ok (.flag true) => a.writeLock.toList.map fun w => .written w (some v)
  | .delete _, .ok (.flag true) => a.writeLock.toList.map fun w => .written w none
  | .writeCommit t, .ok (.flag true) => a.queuedValue.toList.map fun q => .written t q
  | _, _ => []

/-- `andThen({ case Success(…) => queueStorage(id) })` of `_initValue` and `_commitValue`. -/
def MemMsg.queuesStorage : MemMsg V → Except Failure (Answer V) → Bool
  | .init _ _, .ok (.flag b) => b
  | .writeCommit _, .ok _ => true
  | _, _ => false

namespace Pointer

/-- The actor that `getPtrActor` makes of what is in cold storage. -/
def restored (now : ℤ) (time : Option TxnTime) (s : Pointer V) : MemActor V :=
  (restore (s.cold.entries.map fun e => (e.1, e.2)) now time).actor

/-- `getPtrActor(id, time)`. -/
def access (now : ℤ) (time : Option TxnTime) (s : Pointer V) : Pointer V :=
  match s.live with
  | some _ => s
  | none => { s with live := some (s.restored now time) }

/-- The actor in memory processes a message. -/
def message (m : MemMsg V) (s : Pointer V) : Pointer V :=
  match s.live with
  | none => s
  | some a =>
    { s with
      live := some (a.step m)
      freezeQueue := if m.queuesStorage (a.reply m) then s.freezeQueue + 1 else s.freezeQueue
      events := m.events a (a.reply m) ++ s.events }

/-- A closed actor is sent a message. Only `getValue` does not go through `withActor`. -/
def closedMessage (i : ℕ) (m : MemMsg V) (s : Pointer V) : Pointer V :=
  match s.closed[i]?, m with
  | some a, .getValue t =>
    { s with
      closed := s.closed.set i (a.step (.getValue t))
      events := m.events a (a.reply (.getValue t)) ++ s.events }
  | _, _ => s

/-- The freeze thread takes the pointer from its queue (lines 53–56). -/
def dequeue (now : ℤ) (s : Pointer V) : Pointer V :=
  if s.freezeQueue = 0 then s
  else
    let s := s.access now none
    { s with freezeQueue := s.freezeQueue - 1, freezes := s.freezes + 1 }

/-- The message of the freeze thread (lines 56–88). An expiry needs a `lastRead`. -/
def freeze (now : ℤ) (s : Pointer V) : Pointer V :=
  match s.live with
  | none => s
  | some a =>
    if s.freezes = 0 then s
    else if a.recordsToUpload.isEmpty then
      { s with freezes := s.freezes - 1, collections := s.collections + 1 }
    else
      { s with
        cold := s.cold.concat (.ofList (a.recordsToUpload.map fun x => ⟨x.time, x.value⟩))
        live := some (a.markPersisted now)
        freezes := s.freezes - 1
        collections := s.collections + 1
        expireQueue := s.expireQueue ++
          a.lastRead.toList.map fun r => { prevTxns := a.history.map (·.time), lastRead := r } }

/-- The message that `collectGarbage` sends. -/
def collect (now : ExactTime) (s : Pointer V) : Pointer V :=
  match s.live with
  | none => s
  | some a =>
    if s.collections = 0 then s
    else { s with live := some (a.collectGarbage now), collections := s.collections - 1 }

/-- Lines 78–80. What is still on its way to the closed actor does nothing. -/
def evict (a : MemActor V) (s : Pointer V) : Pointer V :=
  { s with
    live := none
    closed := s.closed ++ [a]
    freezes := 0
    collections := 0
    expireQueue := [] }

/-- `hasNewCommit` (line 69). -/
def hasNewCommit (e : Expiry) (a : MemActor V) : Bool :=
  a.history.any fun x => !e.prevTxns.contains x.time

/-- `isReadActive` (line 71). -/
def isReadActive (e : Expiry) (a : MemActor V) : Bool := a.lastRead.any (e.lastRead < ·)

/-- The expiry evicts the actor (lines 72–76). -/
def Evicts (e : Expiry) (a : MemActor V) : Prop :=
  hasNewCommit e a = false ∧ isReadActive e a = false ∧ a.writeLock = none

instance (e : Expiry) (a : MemActor V) : Decidable (Evicts e a) :=
  decidable_of_iff
    (hasNewCommit e a = false ∧ isReadActive e a = false ∧ a.writeLock.isNone = true)
    (by rw [Evicts, Option.isNone_iff_eq_none])

/-- A scheduled expiry runs (lines 67–85). -/
def expire (i : ℕ) (s : Pointer V) : Pointer V :=
  match s.live, s.expireQueue[i]? with
  | some a, some e =>
    let rest := s.expireQueue.eraseIdx i
    if Evicts e a then s.evict a
    else if hasNewCommit e a then { s with expireQueue := rest }
    else if isReadActive e a then
      { s with
        expireQueue := rest ++ a.lastRead.toList.map fun r => { e with lastRead := r } }
    else { s with expireQueue := rest }
  | _, _ => s

def step (s : Pointer V) : PtrAction V → Pointer V
  | .access now time => s.access now time
  | .message m => s.message m
  | .closedMessage i m => s.closedMessage i m
  | .dequeue now => s.dequeue now
  | .freeze now => s.freeze now
  | .collect now => s.collect now
  | .expire i => s.expire i

/-- A pointer of a node that has just started. -/
def start (cold : Versions V) : Pointer V := { cold := cold }

/-! ## Everything an action can do -/

/-- What is stored by the freeze of the actor `a`. -/
def upload (a : MemActor V) : Versions V :=
  .ofList (a.recordsToUpload.map fun x => ⟨x.time, x.value⟩)

/-- `Effect s x cold live closed events`: the action `x` leaves this of the pointer `s`, the
    queues apart. -/
inductive Effect (s : Pointer V) : PtrAction V → Versions V → Option (MemActor V) →
    List (MemActor V) → List (PtrEvent V) → Prop
  | idle (x : PtrAction V) : Effect s x s.cold s.live s.closed s.events
  | load (x : PtrAction V) (now : ℤ) (time : Option TxnTime) (hlive : s.live = none) :
      Effect s x s.cold (some (s.restored now time)) s.closed s.events
  | message (m : MemMsg V) (a : MemActor V) (hlive : s.live = some a) :
      Effect s (.message m) s.cold (some (a.step m)) s.closed (m.events a (a.reply m) ++ s.events)
  | late (i : ℕ) (t : TxnTime) (a : MemActor V) (hclosed : s.closed[i]? = some a) :
      Effect s (.closedMessage i (.getValue t)) s.cold s.live
        (s.closed.set i (a.step (.getValue t)))
        ((MemMsg.getValue t).events a (a.reply (.getValue t)) ++ s.events)
  | persist (now : ℤ) (a : MemActor V) (hlive : s.live = some a) :
      Effect s (.freeze now) (s.cold.concat (upload a)) (some (a.markPersisted now)) s.closed s.events
  | collect (now : ExactTime) (a : MemActor V) (hlive : s.live = some a) (hsent : s.collections ≠ 0) :
      Effect s (.collect now) s.cold (some (a.collectGarbage now)) s.closed s.events
  | evict (i : ℕ) (a : MemActor V) (e : Expiry) (hlive : s.live = some a)
      (hexpiry : s.expireQueue[i]? = some e) (hevicts : Evicts e a) :
      Effect s (.expire i) s.cold none (s.closed ++ [a]) s.events

variable {s : Pointer V}

theorem access_of_some {a : MemActor V} (h : s.live = some a) (now : ℤ) (time : Option TxnTime) :
    s.access now time = s := by
  unfold access; rw [h]

theorem access_of_none (h : s.live = none) (now : ℤ) (time : Option TxnTime) :
    s.access now time = { s with live := some (s.restored now time) } := by
  unfold access; rw [h]

/-- A restored actor has the versions that are in cold storage, all marked. -/
theorem mem_restored {now : ℤ} {time : Option TxnTime} {x : HistoryRecord V} :
    x ∈ (s.restored now time).history ↔
      s.cold.lookup x.time = some x.value ∧ x.coldStorageTs = some now := by
  rw [restored, mem_restore_history, List.mem_map]
  refine and_congr_left fun _ => ⟨?_, fun h => ⟨_, AList.mem_lookup_iff.mp h, rfl⟩⟩
  rintro ⟨⟨t, v⟩, he, heq⟩
  obtain ⟨ht, hv⟩ := Prod.mk.inj heq
  rw [← ht, ← hv]
  exact AList.mem_lookup_iff.mpr he

theorem nodup_restored (now : ℤ) (time : Option TxnTime) :
    ((s.restored now time).history.map (·.time)).Nodup := by
  have hperm := (List.perm_insertionSort (fun x y : HistoryRecord V => x.time ≤ y.time)
    ((s.cold.entries.map fun e => (e.1, e.2)).map fun e =>
      { time := e.1, value := e.2, coldStorageTs := some now })).map (·.time)
  refine hperm.nodup_iff.mpr ?_
  rw [List.map_map, List.map_map]
  exact s.cold.nodupKeys

theorem Effect.access (s : Pointer V) (x : PtrAction V) (now : ℤ) (time : Option TxnTime) :
    Effect s x (s.access now time).cold (s.access now time).live (s.access now time).closed
      (s.access now time).events := by
  cases hlive : s.live with
  | some a => rw [access_of_some hlive]; exact .idle x
  | none => rw [access_of_none hlive]; exact .load x now time hlive

theorem expire_cases (i : ℕ) (s : Pointer V) :
    (∃ q, s.expire i = { s with expireQueue := q }) ∨
      ∃ a e, s.live = some a ∧ s.expireQueue[i]? = some e ∧ Evicts e a ∧ s.expire i = s.evict a := by
  unfold expire
  split
  · next a e hlive he =>
    dsimp only
    split_ifs with hevicts
    · exact .inr ⟨a, e, hlive, he, hevicts, rfl⟩
    all_goals exact .inl ⟨_, rfl⟩
  · exact .inl ⟨s.expireQueue, rfl⟩

theorem step_effect (s : Pointer V) (x : PtrAction V) :
    Effect s x (s.step x).cold (s.step x).live (s.step x).closed (s.step x).events := by
  cases x with
  | access now time => exact Effect.access s _ now time
  | message m =>
    show Effect s _ (s.message m).cold (s.message m).live (s.message m).closed (s.message m).events
    unfold Pointer.message
    split
    · exact .idle _
    · next a hlive => exact .message m a hlive
  | closedMessage i m =>
    show Effect s _ (s.closedMessage i m).cold (s.closedMessage i m).live
      (s.closedMessage i m).closed (s.closedMessage i m).events
    unfold Pointer.closedMessage
    split
    · next a t hclosed => exact .late i t a hclosed
    · exact .idle _
  | dequeue now =>
    show Effect s _ (s.dequeue now).cold (s.dequeue now).live (s.dequeue now).closed
      (s.dequeue now).events
    unfold Pointer.dequeue
    split_ifs with hempty
    · exact .idle _
    · exact Effect.access s _ now none
  | freeze now =>
    show Effect s _ (s.freeze now).cold (s.freeze now).live (s.freeze now).closed (s.freeze now).events
    unfold Pointer.freeze
    split
    · exact .idle _
    · next a hlive =>
      split_ifs with hsent hupload
      · exact .idle _
      · exact .idle _
      · exact .persist now a hlive
  | collect now =>
    show Effect s _ (s.collect now).cold (s.collect now).live (s.collect now).closed
      (s.collect now).events
    unfold Pointer.collect
    split
    · exact .idle _
    · next a hlive =>
      split_ifs with hsent
      · exact .idle _
      · exact .collect now a hlive hsent
  | expire i =>
    show Effect s _ (s.expire i).cold (s.expire i).live (s.expire i).closed (s.expire i).events
    rcases expire_cases i s with ⟨q, hq⟩ | ⟨a, e, hlive, he, hevicts, heq⟩
    · rw [hq]; exact .idle _
    · rw [heq]; exact .evict i a e hlive he hevicts

end Pointer

end ReSTM
