import ReSTM.Actors.Freeze

/-!
# Read protection across eviction

Once a read at `u` was answered, no lock before `u` may be granted. An actor sees to it by
its `lastRead` and its versions. Eviction forgets `lastRead`, and the restored actor starts
from the time of the transaction that asks for it first. A read that a closed actor answers
moves the `lastRead` of that actor only.

* `Guarded`: the invariant; `Reaches` is what protects one read.
* `protected_run`: in runs whose steps all meet `Guards` every answered read is protected.
-/

namespace ReSTM

open Transition

variable {V : Type}

namespace PtrEvent

/-- The time of an answered read. -/
def read? : PtrEvent V → Option TxnTime
  | .read t => some t
  | _ => none

/-- The time of a granted lock. -/
def granted? : PtrEvent V → Option TxnTime
  | .granted t => some t
  | _ => none

end PtrEvent

namespace MemActor

/-- Something of the actor is as late as `u`: its `lastRead` or a version. -/
def Reaches (u : TxnTime) (a : MemActor V) : Prop :=
  (∃ r ∈ a.lastRead, u ≤ r) ∨ ∃ x ∈ a.history, u ≤ x.time

instance (u : TxnTime) (a : MemActor V) : Decidable (a.Reaches u) :=
  inferInstanceAs (Decidable (_ ∨ _))

end MemActor

namespace Pointer

/-! ## The invariant -/

/-- What protects a read at `u`: the actor, or cold storage where there is none. -/
def Reaches (u : TxnTime) (cold : Versions V) : Option (MemActor V) → Prop
  | some a => a.Reaches u
  | none => ∃ t ∈ cold.keys, u ≤ t

instance (u : TxnTime) (cold : Versions V) : ∀ live, Decidable (Reaches u cold live)
  | some a => inferInstanceAs (Decidable (a.Reaches u))
  | none => inferInstanceAs (Decidable (∃ t ∈ cold.keys, u ≤ t))

/-- No lock was granted after a read at a later time was answered. Of the events the newest
    is the first. -/
def Protected (events : List (PtrEvent V)) : Prop :=
  events.Pairwise fun e e' => ∀ w ∈ e.granted?, ∀ u ∈ e'.read?, u ≤ w

instance (events : List (PtrEvent V)) : Decidable (Protected events) :=
  inferInstanceAs (Decidable (events.Pairwise fun e e' => ∀ w ∈ e.granted?, ∀ u ∈ e'.read?, u ≤ w))

/-- The invariant: the actor is in order, and every answered read is protected. -/
structure Guarded (cold : Versions V) (live : Option (MemActor V)) (events : List (PtrEvent V)) :
    Prop where
  ordered : ∀ a ∈ live, a.Ordered
  reaches : ∀ e ∈ events, ∀ u ∈ e.read?, Reaches u cold live
  granted : Protected events

/-- The steps that keep reads protected.

    * `init` is no earlier than the reads of the empty pointer.
    * A closed actor answers no read that is later than everything the pointer has.
    * When an actor is evicted, no answered read is later than all versions in cold storage. -/
def Guards (s : Pointer V) : PtrAction V → Prop
  | .message (.init t _) =>
    ∀ a ∈ s.live, a.history = [] → ∀ e ∈ s.events, ∀ u ∈ e.read?, u ≤ t
  | .closedMessage i (.getValue u) => i < s.closed.length → Reaches u s.cold s.live
  | .expire i => ∀ a ∈ s.live, ∀ e ∈ s.expireQueue[i]?, Evicts e a →
      ∀ e ∈ s.events, ∀ u ∈ e.read?, Reaches u s.cold none
  | _ => True

instance (s : Pointer V) : ∀ x, Decidable (s.Guards x)
  | .message (.init t _) =>
    inferInstanceAs (Decidable (∀ a ∈ s.live, a.history = [] → ∀ e ∈ s.events, ∀ u ∈ e.read?, u ≤ t))
  | .closedMessage i (.getValue u) =>
    inferInstanceAs (Decidable (i < s.closed.length → Reaches u s.cold s.live))
  | .expire i =>
    inferInstanceAs (Decidable (∀ a ∈ s.live, ∀ e ∈ s.expireQueue[i]?, Evicts e a →
      ∀ e ∈ s.events, ∀ u ∈ e.read?, Reaches u s.cold none))
  | .access _ _ | .dequeue _ | .freeze _ | .collect _ => inferInstanceAs (Decidable True)
  | .message .getCurrentValue | .message (.getValue _) | .message (.writeLock _)
  | .message (.writeBlob _ _) | .message (.delete _) | .message (.writeCommit _)
  | .message (.writeReset _) => inferInstanceAs (Decidable True)
  | .closedMessage _ .getCurrentValue | .closedMessage _ (.init _ _)
  | .closedMessage _ (.writeLock _) | .closedMessage _ (.writeBlob _ _)
  | .closedMessage _ (.delete _) | .closedMessage _ (.writeCommit _)
  | .closedMessage _ (.writeReset _) => inferInstanceAs (Decidable True)

/-! ## Steps -/

variable {cold : Versions V} {events : List (PtrEvent V)} {a a' : MemActor V} {m : MemMsg V}
  {r : Except Failure (Answer V)} {u t : TxnTime} {live : Option (MemActor V)}

theorem protected_cons (h : Protected events) {e : PtrEvent V}
    (he : ∀ w ∈ e.granted?, ∀ e' ∈ events, ∀ u ∈ e'.read?, u ≤ w) : Protected (e :: events) :=
  List.pairwise_cons.mpr ⟨fun e' he' w hw u hu => he w hw e' he' u hu, h⟩

/-- An actor that holds or grants the lock at `t` reaches no later than `t`. -/
theorem reaches_le (hread : ∀ x, a.lastRead = some x → x ≤ t) (hhistory : ∀ x ∈ a.history, x.time ≤ t)
    (h : a.Reaches u) : u ≤ t := by
  rcases h with ⟨x, hx, hle⟩ | ⟨x, hx, hle⟩
  · have := hread x hx
    rw [TxnTime.le_iff] at *
    omega
  · have := hhistory x hx
    rw [TxnTime.le_iff] at *
    omega

/-- What an actor reaches it reaches when its `lastRead` and its versions move up. -/
theorem reaches_mono (hread : ∀ x ∈ a.lastRead, a'.Reaches x)
    (hhistory : ∀ x ∈ a.history, ∃ y ∈ a'.history, x.time ≤ y.time) (h : a.Reaches u) :
    a'.Reaches u := by
  rcases h with ⟨x, hx, hle⟩ | ⟨x, hx, hle⟩
  · rcases hread x hx with ⟨y, hy, hxy⟩ | ⟨y, hy, hxy⟩
    · refine .inl ⟨y, hy, ?_⟩
      rw [TxnTime.le_iff] at *
      omega
    · refine .inr ⟨y, hy, ?_⟩
      rw [TxnTime.le_iff] at *
      omega
  · obtain ⟨y, hy, hxy⟩ := hhistory x hx
    refine .inr ⟨y, hy, ?_⟩
    rw [TxnTime.le_iff] at *
    omega

/-- No message but `init` lowers what the actor reaches. -/
theorem effect_reaches (h : MemActor.Effect a m r a') (hinit : ∀ t v, m ≠ .init t v)
    (hu : a.Reaches u) : a'.Reaches u := by
  have hlast : ∀ {b : MemActor V}, b.lastRead = a.lastRead → ∀ x ∈ a.lastRead, b.Reaches x :=
    fun hb x hx => .inl ⟨x, hb ▸ hx, x.le_refl⟩
  have hsame : ∀ {b : MemActor V}, b.history = a.history →
      ∀ x ∈ a.history, ∃ y ∈ b.history, x.time ≤ y.time :=
    fun hb x hx => ⟨x, hb ▸ hx, x.time.le_refl⟩
  have hmore : ∀ (y : HistoryRecord V), ∀ x ∈ a.history, ∃ z ∈ a.history ++ [y], x.time ≤ z.time :=
    fun y x hx => ⟨x, List.mem_append_left _ hx, x.time.le_refl⟩
  cases h with
  | current | readFast | initAgain | relock | refuse | fail => exact hu
  | readSlow t hread hlock =>
    refine reaches_mono (fun x hx => .inl ⟨t, rfl, TxnTime.le_of_lt (hread x hx)⟩) (hsame rfl) hu
  | initFresh t v => exact absurd rfl (hinit t v)
  | lock | queueBlob | queueDelete | preCommit | reset =>
    exact reaches_mono (hlast rfl) (hsame rfl) hu
  | staleBlob | staleDelete => exact reaches_mono (hlast rfl) (hmore _) hu
  | commit t q =>
    refine reaches_mono (hlast rfl) (fun x hx => ?_) hu
    by_cases hx' : x.time = t
    · exact ⟨⟨t, q, none⟩, by simp, hx' ▸ TxnTime.le_refl _⟩
    · exact ⟨x, by simp [hx, hx'], x.time.le_refl⟩

/-- One more event of the actor. -/
theorem guarded_cons (ha : a.Ordered) (hreads : ∀ e ∈ events, ∀ u ∈ e.read?, a.Reaches u)
    (h : Protected events) (e : PtrEvent V) (hread : ∀ u ∈ e.read?, a.Reaches u)
    (hgranted : ∀ w ∈ e.granted?, ∀ e' ∈ events, ∀ u ∈ e'.read?, u ≤ w) :
    Guarded cold (some a) (e :: events) := by
  refine ⟨fun b hb => Option.some.inj hb ▸ ha, fun e' he' => ?_, protected_cons h hgranted⟩
  rcases List.mem_cons.mp he' with rfl | he'
  · exact hread
  · exact hreads e' he'

theorem guarded_written (ha : a.Ordered) (hreads : ∀ e ∈ events, ∀ u ∈ e.read?, a.Reaches u)
    (h : Protected events) (t : TxnTime) (v : Option V) :
    Guarded cold (some a) (.written t v :: events) :=
  guarded_cons ha hreads h _ (fun u hu => by cases hu) (fun w hw => by cases hw)

theorem Guarded.message (h : Guarded cold (some a) events) (he : MemActor.Effect a m r a')
    (hok : ∀ t v, m = .init t v → a.history = [] → ∀ e ∈ events, ∀ u ∈ e.read?, u ≤ t) :
    Guarded cold (some a') (m.events a r ++ events) := by
  have ha := h.ordered a rfl
  have ha' : a'.Ordered := he.ordered ha
  have hreads : (∀ t v, m ≠ .init t v) → ∀ e ∈ events, ∀ u ∈ e.read?, a'.Reaches u :=
    fun hinit e hmem u hu => effect_reaches he hinit (h.reaches e hmem u hu)
  cases he with
  | readFast t x hread hle =>
    refine guarded_cons ha' (hreads (by simp)) h.granted _ (fun u hu => ?_) (fun w hw => by cases hw)
    cases hu
    exact .inl ⟨x, hread, hle⟩
  | readSlow t hread hlock =>
    refine guarded_cons ha' (hreads (by simp)) h.granted _ (fun u hu => ?_) (fun w hw => by cases hw)
    cases hu
    exact .inl ⟨t, rfl, t.le_refl⟩
  | initFresh t v hempty =>
    refine guarded_written ha' (fun e hmem u hu => ?_) h.granted t (some v)
    exact .inl ⟨t, rfl, hok t v rfl hempty e hmem u hu⟩
  | relock t hlock =>
    refine guarded_cons ha' (hreads (by simp)) h.granted _ (fun u hu => by cases hu) ?_
    intro w hw e hmem u hu
    cases hw
    exact reaches_le (ha.read_le_lock t hlock) (ha.history_le_lock t hlock) (h.reaches e hmem u hu)
  | lock t hfree hread hhistory =>
    refine guarded_cons ha' (hreads (by simp)) h.granted _ (fun u hu => by cases hu) ?_
    intro w hw e hmem u hu
    cases hw
    exact reaches_le hread hhistory (h.reaches e hmem u hu)
  | staleBlob t w v hlock =>
    simp only [MemMsg.events, hlock, Option.toList_some, List.map_cons, List.map_nil,
      List.cons_append, List.nil_append]
    exact guarded_written ha' (hreads (by simp)) h.granted w (some v)
  | staleDelete t w hlock =>
    simp only [MemMsg.events, hlock, Option.toList_some, List.map_cons, List.map_nil,
      List.cons_append, List.nil_append]
    exact guarded_written ha' (hreads (by simp)) h.granted w none
  | commit t q hlock hqueue =>
    simp only [MemMsg.events, hqueue, Option.toList_some, List.map_cons, List.map_nil,
      List.cons_append, List.nil_append]
    exact guarded_written ha' (hreads (by simp)) h.granted t q
  | fail =>
    have hnone : m.events a (.error ‹Failure›) = [] := by cases m <;> rfl
    rw [hnone]
    exact h
  | current | initAgain | refuse => exact h
  | queueBlob | queueDelete | preCommit | reset =>
    exact ⟨fun b hb => Option.some.inj hb ▸ ha', hreads (by simp), h.granted⟩

/-- An actor with the lock and the `lastRead` of `a`, and with some of its versions. -/
theorem ordered_of_sublist (ha : a.Ordered)
    (hsub : (a'.history.map (·.time)).Sublist (a.history.map (·.time)))
    (hlock : a'.writeLock = a.writeLock) (hread : a'.lastRead = a.lastRead) : a'.Ordered := by
  have hmem : ∀ x ∈ a'.history, ∃ y ∈ a.history, y.time = x.time :=
    fun x hx => List.mem_map.mp (hsub.subset (List.mem_map_of_mem hx))
  refine ⟨?_, fun w hw x hx => ?_, fun w hw x hx => ?_⟩
  · have hsorted := List.pairwise_map.mpr ha.sorted
    exact List.pairwise_map.mp (hsorted.sublist hsub)
  · obtain ⟨y, hy, htime⟩ := hmem x hx
    rw [← htime]
    exact ha.history_le_lock w (hlock ▸ hw) y hy
  · exact ha.read_le_lock w (hlock ▸ hw) x (hread ▸ hx)

/-- One step that meets `Guards` keeps the invariant. -/
theorem Effect.guarded {s : Pointer V} {x : PtrAction V} {closed : List (MemActor V)}
    (h : Effect s x cold live closed events) (hs : Guarded s.cold s.live s.events)
    (hok : s.Guards x) : Guarded cold live events := by
  cases h with
  | idle => exact hs
  | load x now time hlive =>
    rw [hlive] at hs
    refine ⟨fun b hb => Option.some.inj hb ▸ restore_ordered _ now time, ?_, hs.granted⟩
    intro e hmem u hu
    obtain ⟨t, ht, hle⟩ := hs.reaches e hmem u hu
    obtain ⟨v, hv⟩ := Option.isSome_iff_exists.mp (AList.lookup_isSome.mpr ht)
    exact .inr ⟨⟨t, v, some now⟩, mem_restored.mpr ⟨hv, rfl⟩, hle⟩
  | message m a hlive =>
    rw [hlive] at hs
    refine hs.message (MemActor.receive_effect a m) ?_
    rintro t v rfl hempty
    exact hok a hlive hempty
  | late i t a hclosed =>
    have hreach : Reaches t s.cold s.live := hok (List.getElem?_eq_some_iff.mp hclosed).1
    cases a.reply (.getValue t) with
    | error => exact hs
    | ok =>
      refine ⟨hs.ordered, fun e hmem u hu => ?_, protected_cons hs.granted fun w hw => by cases hw⟩
      rcases List.mem_cons.mp hmem with rfl | hmem
      · cases hu
        exact hreach
      · exact hs.reaches e hmem u hu
  | persist now a hlive =>
    rw [hlive] at hs
    have hmap : (a.markPersisted now).history.map (·.time) = a.history.map (·.time) :=
      MemActor.markPersisted_times now a
    refine ⟨fun b hb => ?_, fun e hmem u hu => ?_, hs.granted⟩
    · rw [← Option.some.inj hb]
      exact ordered_of_sublist (hs.ordered a rfl) (hmap ▸ List.Sublist.refl _) rfl rfl
    · refine reaches_mono (a := a) (fun y hy => .inl ⟨y, hy, y.le_refl⟩) (fun y hy => ?_)
        (hs.reaches e hmem u hu)
      have hy' : y.time ∈ (a.markPersisted now).history.map (·.time) :=
        hmap ▸ List.mem_map_of_mem hy
      obtain ⟨z, hz, htime⟩ := List.mem_map.mp hy'
      exact ⟨z, hz, htime ▸ TxnTime.le_refl _⟩
  | collect now a hlive =>
    rw [hlive] at hs
    refine ⟨fun b hb => ?_, fun e hmem u hu => ?_, hs.granted⟩
    · rw [← Option.some.inj hb]
      exact ordered_of_sublist (hs.ordered a rfl) ((MemActor.collectGarbage_sublist now a).map _)
        (MemActor.collectGarbage_writeLock now a) (MemActor.collectGarbage_lastRead now a)
    · refine reaches_mono (fun y hy => .inl ⟨y, ?_, y.le_refl⟩)
        (fun y hy => MemActor.le_collectGarbage now hy) (hs.reaches e hmem u hu)
      rw [MemActor.collectGarbage_lastRead]
      exact hy
  | evict i a e hlive hexpiry hevicts =>
    refine ⟨fun b hb => ?_, hok a hlive e hexpiry hevicts, hs.granted⟩
    cases hb

/-! ## Runs -/

/-- In a run whose steps meet `Guards` no lock is granted after a later read was answered. -/
theorem protected_run (cold : Versions V) (as : List (PtrAction V))
    (h : Along step Guards (start cold) as) : Protected (run step (start cold) as).events := by
  refine (h.invariant (I := fun s => Guarded s.cold s.live s.events) ?_ ?_).granted
  · intro s x hs hok
    exact (step_effect s x).guarded hs hok
  · refine ⟨fun a ha => ?_, fun e he => ?_, List.Pairwise.nil⟩
    · cases ha
    · cases he

/-- A version at `1` is written and stored, and the pointer is read at `5`. -/
def readRun : List (PtrAction ℕ) :=
  let t := TxnTime.ofEpoch
  [.access 0 (some (t 1)), .message (.writeLock (t 1)), .message (.writeBlob (t 1) 0),
    .message (.writeCommit (t 1)), .dequeue 0, .freeze 0, .message (.getValue (t 5)), .expire 0]

/-- A read at `1` instead. -/
theorem protected_run_stored :
    Protected (run step (start ∅) ((readRun.take 6).concat (.message (.getValue (.ofEpoch 1))) ++
      [.expire 0, .access 0 none, .message (.writeLock (.ofEpoch 2))])).events :=
  protected_run ∅ _ (by decide)

/-- After the eviction the transaction at `2` restores the actor and is granted the lock,
    also when the read at `5` is answered by the actor that was evicted. -/
theorem read_not_protected :
    ¬Protected (run step (start ∅) (readRun ++
        [.expire 0, .access 0 (some (.ofEpoch 2)), .message (.writeLock (.ofEpoch 2))])).events ∧
      ¬Protected (run step (start ∅) (readRun.take 6 ++
        [.expire 0, .closedMessage 0 (.getValue (.ofEpoch 5)), .access 0 (some (.ofEpoch 2)),
          .message (.writeLock (.ofEpoch 2))])).events := by
  decide

end Pointer

end ReSTM
