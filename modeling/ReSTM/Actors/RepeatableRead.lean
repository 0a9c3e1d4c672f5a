import ReSTM.Actors.MemActor
import ReSTM.Common.Transition

/-!
# Timestamped reads of a pointer are repeatable

A read at `u` leaves `lastRead` at `u` or later, and from then on no transaction
before `u` is granted the lock. A read no later than `lastRead` does not look at
the lock; that is sound because a lock is never older than `lastRead`
(`Ordered.read_le_lock`), whoever holds it.

The value of a transaction that committed before it sent its value is stamped
with the time of whoever holds the lock when the value arrives. Such a record can
land exactly at `u` (`getValue_not_repeatable`), so the second half of
`getValue_repeatable` asks that it be the sender's own lock (`StaleByOwner`).

* `Effect.ordered`: history, lock and `lastRead` stay in order.
* `getValue_repeatable`: after a read at `u` no record before `u` appears, and the
  read gives the same answer until `u` itself commits.
-/

namespace ReSTM

open LastWhere Transition

namespace MemActor

variable {V : Type} {a a' : MemActor V} {m : MemMsg V} {r : Except Failure (Answer V)}

/-! ## The order of history, lock and `lastRead` -/

/-- `history` is sorted by time, and the lock is no older than any version or any
    read. -/
structure Ordered (a : MemActor V) : Prop where
  sorted : a.history.Pairwise fun x y => x.time ≤ y.time
  history_le_lock : ∀ w, a.writeLock = some w → ∀ x ∈ a.history, x.time ≤ w
  read_le_lock : ∀ w, a.writeLock = some w → ∀ x, a.lastRead = some x → x ≤ w

theorem pairwise_concat {l : List (HistoryRecord V)} {x : HistoryRecord V}
    (hl : l.Pairwise fun x y => x.time ≤ y.time) (hx : ∀ y ∈ l, y.time ≤ x.time) :
    (l ++ [x]).Pairwise fun x y => x.time ≤ y.time := by
  rw [List.pairwise_append]
  refine ⟨hl, List.pairwise_singleton _ _, ?_⟩
  intro y hy z hz
  rw [List.mem_singleton.mp hz]
  exact hx y hy

theorem Effect.ordered (h : Effect a m r a') (ha : a.Ordered) : a'.Ordered := by
  cases h with
  | current | readFast | initAgain | relock | refuse | fail => exact ha
  | readSlow t hread hlock =>
    exact ⟨ha.sorted, ha.history_le_lock, fun w hw x hx => by cases hx; exact hlock w hw⟩
  | initFresh t v hempty =>
    exact ⟨List.pairwise_singleton _ _, fun _ hw => (nomatch hw), fun _ hw => (nomatch hw)⟩
  | lock t hfree hread hhistory =>
    exact ⟨ha.sorted, fun w hw x hx => by cases hw; exact hhistory x hx,
      fun w hw x hx => by cases hw; exact hread x hx⟩
  | queueBlob | queueDelete => exact ⟨ha.sorted, ha.history_le_lock, ha.read_le_lock⟩
  | staleBlob t w v hlock | staleDelete t w hlock =>
    exact ⟨pairwise_concat ha.sorted (ha.history_le_lock w hlock), fun _ hw => (nomatch hw),
      fun _ hw => (nomatch hw)⟩
  | commit t q hlock =>
    refine ⟨pairwise_concat (ha.sorted.filter _) fun x hx => ?_, fun _ hw => (nomatch hw),
      fun _ hw => (nomatch hw)⟩
    exact ha.history_le_lock t hlock x ((List.mem_filter.mp hx).1)
  | preCommit | reset => exact ⟨ha.sorted, fun _ hw => (nomatch hw), fun _ hw => (nomatch hw)⟩

theorem Ordered.step (ha : a.Ordered) (m : MemMsg V) : (a.step m).Ordered :=
  (receive_effect a m).ordered ha

/-- `new MemActor(name, lastRead)` with the history that `getPtrActor` restores. -/
def create (lastRead : Option TxnTime) (history : List (HistoryRecord V)) : MemActor V :=
  { lastRead := lastRead, history := history }

theorem create_ordered {lastRead : Option TxnTime} {history : List (HistoryRecord V)}
    (h : history.Pairwise fun x y => x.time ≤ y.time) : (create lastRead history).Ordered :=
  ⟨h, fun _ hw => (nomatch hw), fun _ hw => (nomatch hw)⟩

/-- A read at `u` uses a record no older than any up to `u`. -/
theorem recordAt_of_mem (hsorted : a.history.Pairwise fun x y => x.time ≤ y.time)
    {x : HistoryRecord V} (hx : x ∈ a.history) {u : TxnTime} (hle : x.time ≤ u) :
    ∃ s, a.recordAt u = some s ∧ x.time ≤ s.time := by
  cases hs : a.recordAt u with
  | none =>
    rw [recordAt, lastWhere_eq_none_iff] at hs
    exact absurd (hs x hx) (by simp [hle])
  | some s =>
    exact ⟨s, rfl, le_lastWhere (fun y => y.time.le_refl) hsorted hs hx (decide_eq_true hle)⟩

/-! ## A pointer that was read at `u` -/

/-- The actor has been read at `u` or later. -/
structure ReadAt (u : TxnTime) (a : MemActor V) : Prop extends a.Ordered where
  read : ∃ x, a.lastRead = some x ∧ u ≤ x

/-- No transaction before `u` holds the lock of an actor that was read at `u`. -/
theorem ReadAt.le_lock {u w : TxnTime} (h : ReadAt u a) (hw : a.writeLock = some w) : u ≤ w := by
  obtain ⟨x, hx, hux⟩ := h.read
  have hxw := h.read_le_lock w hw x hx
  simp only [TxnTime.le_iff] at *
  omega

theorem reply_getValue {u : TxnTime} {v : Option V} (h : (a.getValue u).1 = .ok v) :
    a.reply (.getValue u) = .ok (.value v) := by
  simp [reply, receive, answer, h, Except.map]

theorem Effect.readAt_of_ok {u : TxnTime} {v : Answer V} (h : Effect a (.getValue u) (.ok v) a')
    (ha : a.Ordered) : ReadAt u a' ∧ a'.history = a.history := by
  refine ⟨⟨h.ordered ha, ?_⟩, ?_⟩
  · cases h with
    | readFast t x hread hle => exact ⟨x, hread, hle⟩
    | readSlow t hread hlock => exact ⟨u, rfl, u.le_refl⟩
  · cases h <;> rfl

/-- `init` is not among the messages. -/
def NotInit : MemMsg V → Prop
  | .init _ _ => False
  | _ => True

/-- The message is not a value that arrives after its transaction's commit while
    another transaction holds the lock. -/
def StaleByOwner (a : MemActor V) : MemMsg V → Prop
  | .writeBlob t _ | .delete t => a.staleCommit = some t → ∀ w, a.writeLock = some w → w = t
  | _ => True

instance (a : MemActor V) : ∀ m, Decidable (StaleByOwner a m)
  | .writeBlob t _ | .delete t =>
    inferInstanceAs (Decidable (a.staleCommit = some t → ∀ w, a.writeLock = some w → w = t))
  | .getCurrentValue | .getValue _ | .init _ _ | .writeLock _ | .writeCommit _ | .writeReset _ =>
    inferInstanceAs (Decidable True)

/-- The message is `u`'s own and makes a version of the pointer. -/
def CommitsWrite (u : TxnTime) (a : MemActor V) (m : MemMsg V) : Prop :=
  m.time? = some u ∧ (a.step m).history ≠ a.history

instance [DecidableEq V] (u : TxnTime) (a : MemActor V) (m : MemMsg V) :
    Decidable (CommitsWrite u a m) :=
  inferInstanceAs (Decidable (_ ∧ _))

theorem Effect.readAt {u : TxnTime} (h : Effect a m r a') (hm : NotInit m) (ha : ReadAt u a) :
    ReadAt u a' := by
  refine ⟨h.ordered ha.toOrdered, ?_⟩
  obtain ⟨x, hx, hux⟩ := ha.read
  cases h with
  | readSlow t hread hlock =>
    refine ⟨t, rfl, ?_⟩
    have := hread x hx
    simp only [TxnTime.le_iff, TxnTime.lt_iff] at *
    omega
  | initFresh => exact hm.elim
  | _ => exact ⟨x, hx, hux⟩

/-- No message adds a record before `u` to an actor that was read at `u`. -/
theorem Effect.mem_of_lt {u : TxnTime} (h : Effect a m r a') (hm : NotInit m) (ha : ReadAt u a)
    {x : HistoryRecord V} (hx : x ∈ a'.history) (hlt : x.time < u) : x ∈ a.history := by
  have hnew : ∀ w, a.writeLock = some w → x.time = w → x ∈ a.history := by
    rintro w hw rfl
    have := ha.le_lock hw
    simp only [TxnTime.le_iff, TxnTime.lt_iff] at *
    omega
  cases h with
  | initFresh => exact hm.elim
  | staleBlob t w v hlock | staleDelete t w hlock =>
    rcases List.mem_append.mp hx with hx | hx
    · exact hx
    · exact hnew w hlock (by rw [List.mem_singleton.mp hx])
  | commit t q hlock =>
    rcases List.mem_append.mp hx with hx | hx
    · exact (List.mem_filter.mp hx).1
    · exact hnew t hlock (by rw [List.mem_singleton.mp hx])
  | _ => exact hx

/-- A record that is not at or before `u` does not show in the records up to `u`. -/
theorem filter_concat {u : TxnTime} {l : List (HistoryRecord V)} {x : HistoryRecord V}
    (hx : ¬x.time ≤ u) :
    (l ++ [x]).filter (fun y => decide (y.time ≤ u)) = l.filter fun y => decide (y.time ≤ u) := by
  simp [List.filter_append, hx]

theorem filter_remove {u t : TxnTime} {l : List (HistoryRecord V)} (ht : ¬t ≤ u) :
    (l.filter fun y => decide (y.time ≠ t)).filter (fun y => decide (y.time ≤ u)) =
      l.filter fun y => decide (y.time ≤ u) := by
  rw [List.filter_filter]
  refine List.filter_congr fun y _ => ?_
  by_cases hy : y.time = t
  · simp [hy, ht]
  · simp [hy]

/-- What a read at `u` sees stays the same but for a write of `u` itself. -/
theorem Effect.filter_eq {T : Set TxnTime} (hT : TxnTime.Distinct T) {u : TxnTime} (hu : u ∈ T)
    (hmT : ∀ t, m.time? = some t → t ∈ T) (h : Effect a m r (a.step m))
    (hm : NotInit m) (hstale : StaleByOwner a m) (hcommit : ¬CommitsWrite u a m)
    (ha : ReadAt u a) :
    (a.step m).history.filter (fun y => decide (y.time ≤ u)) =
      a.history.filter fun y => decide (y.time ≤ u) := by
  by_cases hsame : (a.step m).history = a.history
  · rw [hsame]
  -- a version was made: the lock is not `u`'s, so it is later than `u`
  have hlater : ∀ t, m.time? = some t → a.writeLock = some t → ¬t ≤ u := by
    intro t ht hlock hle
    have hle' := ha.le_lock hlock
    simp only [TxnTime.le_iff] at hle hle'
    have : t = u := hT.eq_of_rank (hmT t ht) hu (by omega)
    exact hcommit ⟨this ▸ ht, hsame⟩
  generalize a.step m = a' at h
  cases h with
  | initFresh => exact hm.elim
  | staleBlob t w v hlock hst =>
    obtain rfl := hstale hst w hlock
    exact filter_concat (hlater w rfl hlock)
  | staleDelete t w hlock hst =>
    obtain rfl := hstale hst w hlock
    exact filter_concat (hlater w rfl hlock)
  | commit t q hlock =>
    exact (filter_concat (hlater t rfl hlock)).trans (filter_remove (hlater t rfl hlock))
  | _ => rfl

/-! ## Runs -/

/-- `init` is at most the first operation. -/
def InitFirst (msgs : List (MemMsg V)) : Prop := ∀ m ∈ msgs.tail, NotInit m

theorem run_ordered (ha : a.Ordered) (msgs : List (MemMsg V)) : (run step a msgs).Ordered :=
  run_invariant (fun _ m h => h.step m) msgs ha

theorem run_readAt {u : TxnTime} (ha : ReadAt u a) {msgs : List (MemMsg V)}
    (hinit : ∀ m ∈ msgs, NotInit m) : ReadAt u (run step a msgs) := by
  induction msgs generalizing a with
  | nil => exact ha
  | cons m msgs ih =>
    exact ih ((receive_effect a m).readAt (hinit m List.mem_cons_self) ha)
      fun m' hm' => hinit m' (List.mem_cons_of_mem _ hm')

theorem run_mem_of_lt {u : TxnTime} (ha : ReadAt u a) {msgs : List (MemMsg V)}
    (hinit : ∀ m ∈ msgs, NotInit m) {x : HistoryRecord V}
    (hx : x ∈ (run step a msgs).history) (hlt : x.time < u) : x ∈ a.history := by
  induction msgs generalizing a with
  | nil => exact hx
  | cons m msgs ih =>
    have hm := hinit m List.mem_cons_self
    have heff := receive_effect a m
    exact heff.mem_of_lt hm ha
      (ih (heff.readAt hm ha) (fun m' hm' => hinit m' (List.mem_cons_of_mem _ hm')) hx) hlt

theorem run_filter_eq {T : Set TxnTime} (hT : TxnTime.Distinct T) {u : TxnTime} (hu : u ∈ T)
    (ha : ReadAt u a) {msgs : List (MemMsg V)} (hmsgs : ∀ m ∈ msgs, ∀ t, m.time? = some t → t ∈ T)
    (hinit : ∀ m ∈ msgs, NotInit m) (hstale : Along step StaleByOwner a msgs)
    (hcommit : Along step (fun a m => ¬CommitsWrite u a m) a msgs) :
    (run step a msgs).history.filter (fun y => decide (y.time ≤ u)) =
      a.history.filter fun y => decide (y.time ≤ u) := by
  induction msgs generalizing a with
  | nil => rfl
  | cons m msgs ih =>
    have hm := hinit m List.mem_cons_self
    have heff := receive_effect a m
    rw [run_cons, ih (heff.readAt hm ha) (fun m' hm' => hmsgs m' (List.mem_cons_of_mem _ hm'))
      (fun m' hm' => hinit m' (List.mem_cons_of_mem _ hm')) hstale.2 hcommit.2]
    exact heff.filter_eq hT hu (hmsgs m List.mem_cons_self) hm hstale.1 hcommit.1 ha

/-- An actor that was read at `u` answers a read at `u` from its history, whoever
    holds the lock. -/
theorem ReadAt.getValue {u : TxnTime} (h : ReadAt u a) : (a.getValue u).1 = .ok (a.valueAt u) := by
  obtain ⟨x, hx, hux⟩ := h.read
  simp [MemActor.getValue, hx, hux]

/-- The answer of a read that returns is the value of the record at its time. -/
theorem getValue_ok {u : TxnTime} {v : Option V} (h : (a.getValue u).1 = .ok v) :
    v = a.valueAt u := by
  unfold MemActor.getValue at h
  split_ifs at h with hfast
  · exact (Except.ok.inj h).symm
  · split at h
    · cases h
    · exact (Except.ok.inj h).symm

theorem getValue_repeatable {T : Set TxnTime} (hT : TxnTime.Distinct T) {u : TxnTime} (hu : u ∈ T)
    (lastRead : Option TxnTime) {history : List (HistoryRecord V)}
    (hsorted : history.Pairwise fun x y => x.time ≤ y.time) (pre post : List (MemMsg V))
    (hmsgs : ∀ m ∈ pre ++ .getValue u :: post, ∀ t, m.time? = some t → t ∈ T)
    (hinit : InitFirst (pre ++ .getValue u :: post))
    (hstale : Along step StaleByOwner (create lastRead history) (pre ++ .getValue u :: post))
    {v : Option V} (hread : ((run step (create lastRead history) pre).getValue u).1 = .ok v) :
    let before := run step (create lastRead history) pre
    let after := run step (create lastRead history) (pre ++ .getValue u :: post)
    (∀ x ∈ after.history, x.time < u →
      x ∈ before.history ∧ ∃ s, before.recordAt u = some s ∧ x.time ≤ s.time) ∧
    (Along step (fun a m => ¬CommitsWrite u a m) (before.step (.getValue u)) post →
      (after.getValue u).1 = .ok v) := by
  intro before after
  have hord : before.Ordered := run_ordered (create_ordered hsorted) pre
  have heff := receive_effect before (.getValue u)
  rw [reply_getValue hread] at heff
  obtain ⟨hat, hhist⟩ := heff.readAt_of_ok hord
  have hpost : ∀ m ∈ post, NotInit m := by
    intro m hm
    refine hinit m ?_
    cases pre with
    | nil => exact hm
    | cons m' pre => exact List.mem_append_right _ (List.mem_cons_of_mem _ hm)
  have hafter : after = run step (before.step (.getValue u)) post := run_append _ _ _ _
  constructor
  · intro x hx hlt
    rw [hafter] at hx
    have hmem := run_mem_of_lt hat hpost hx hlt
    rw [hhist] at hmem
    exact ⟨hmem, recordAt_of_mem hord.sorted hmem (TxnTime.le_of_lt hlt)⟩
  · intro hcommit
    have hfilter := run_filter_eq hT hu hat
      (fun m hm => hmsgs m (List.mem_append_right _ (List.mem_cons_of_mem _ hm))) hpost
      (along_append.mp hstale).2.2 hcommit
    rw [hafter, (run_readAt hat hpost).getValue, getValue_ok hread]
    unfold valueAt recordAt
    rw [lastWhere_congr (hfilter.trans (congrArg _ hhist))]

/-- A version at 1, a read at 3, a lock at 2 that is refused and a version at 4. -/
theorem getValue_repeatable_run :
    let before := run step (create none []) [.init (.ofEpoch 1) 10]
    let after := run step (create none [])
      [.init (.ofEpoch 1) 10, .getValue (.ofEpoch 3), .writeLock (.ofEpoch 2),
        .writeLock (.ofEpoch 4), .writeBlob (.ofEpoch 4) 20, .writeCommit (.ofEpoch 4)]
    (∀ x ∈ after.history, x.time < .ofEpoch 3 →
      x ∈ before.history ∧ ∃ s, before.recordAt (.ofEpoch 3) = some s ∧ x.time ≤ s.time) ∧
    (after.getValue (.ofEpoch 3)).1 = .ok (some 10) := by
  have h := getValue_repeatable (V := ℕ) TxnTime.distinct_ofEpoch ⟨3, rfl⟩ none
    List.Pairwise.nil [.init (.ofEpoch 1) 10]
    [.writeLock (.ofEpoch 2), .writeLock (.ofEpoch 4), .writeBlob (.ofEpoch 4) 20,
      .writeCommit (.ofEpoch 4)]
    (by simp [MemMsg.time?]) (by simp [InitFirst, NotInit])
    (by decide) (v := some 10) (by decide)
  exact ⟨h.1, h.2 (by decide)⟩

/-- A read at 2 finds nothing; then a value of transaction 1, which committed before
    it sent the value, lands at the time of the lock that 2 holds by now, and the
    read at 2 finds it. -/
theorem getValue_not_repeatable :
    let before := run step (create none [])
      [.writeLock (.ofEpoch 1), .writeCommit (.ofEpoch 1), .writeLock (.ofEpoch 2)]
    let after := run step (before.step (.getValue (.ofEpoch 2))) [.writeBlob (.ofEpoch 1) 10]
    (before.getValue (.ofEpoch 2)).1 = .ok none ∧
      Along step (fun a m => ¬CommitsWrite (.ofEpoch 2) a m) (before.step (.getValue (.ofEpoch 2)))
        [.writeBlob (.ofEpoch 1) (10 : ℕ)] ∧
      (after.getValue (.ofEpoch 2)).1 = .ok (some 10) := by
  decide

end MemActor

end ReSTM
