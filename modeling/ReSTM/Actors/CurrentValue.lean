import ReSTM.Actors.Garbage
import ReSTM.Remote.RestmInternal

/-!
# Reads with and without a time

`_getValue(id)` takes the first of the newest versions and passes on its value, `_getValue(id, t)`
the last version at or before `t`, and a `null` there is absent. A deletion therefore is `Some(null)`
to the first and `None` to the second (`deletion_differs`), and of two versions with the same
effective time the first finds one and the second the other.

* `Effect.plain`: what a message must write for the newest versions to stay plain.
* `reads_agree`: as long as every message does, the two reads agree.
-/

namespace ReSTM

open LastWhere Transition

namespace MemActor

variable {V : Type} {a a' : MemActor V} {m : MemMsg V} {r : Except Failure (Answer V)}

/-- The newest versions have one value, and are no deletions. -/
def Plain (a : MemActor V) : Prop :=
  ∀ x ∈ a.history, (∀ y ∈ a.history, y.time ≤ x.time) → x.value.isSome ∧
    ∀ z ∈ a.history, x.time ≤ z.time → z.value = x.value

/-- The version that a message writes is no deletion, and has the value of every other version that
    is not older. -/
def WritesPlain (a : MemActor V) : MemMsg V → Prop
  | .writeCommit t => a.writeLock = some t → ∀ q ∈ a.queuedValue,
      q.isSome ∧ ∀ x ∈ a.history, x.time ≠ t → t ≤ x.time → x.value = q
  | .writeBlob t v => a.staleCommit = some t → a.queuedValue = none →
      ∀ w ∈ a.writeLock, ∀ x ∈ a.history, w ≤ x.time → x.value = some v
  | .delete t => a.staleCommit = some t → a.queuedValue = none → a.writeLock = none
  | _ => True

instance (a : MemActor V) [DecidableEq V] : ∀ m, Decidable (a.WritesPlain m)
  | .writeCommit t =>
    inferInstanceAs (Decidable (a.writeLock = some t → ∀ q ∈ a.queuedValue,
      q.isSome ∧ ∀ x ∈ a.history, x.time ≠ t → t ≤ x.time → x.value = q))
  | .writeBlob t v =>
    inferInstanceAs (Decidable (a.staleCommit = some t → a.queuedValue = none →
      ∀ w ∈ a.writeLock, ∀ x ∈ a.history, w ≤ x.time → x.value = some v))
  | .delete t =>
    inferInstanceAs (Decidable (a.staleCommit = some t → a.queuedValue = none → a.writeLock = none))
  | .getCurrentValue | .getValue _ | .init _ _ | .writeLock _ | .writeReset _ =>
    inferInstanceAs (Decidable True)

/-- A version is added that is not older than the others. -/
theorem plain_concat {l : List (HistoryRecord V)} {n : HistoryRecord V} (hn : n.value.isSome)
    (hsame : ∀ x ∈ l, n.time ≤ x.time → x.value = n.value) (hhistory : a.history = l ++ [n]) :
    a.Plain := by
  have hvalue : ∀ x ∈ a.history, n.time ≤ x.time → x.value = n.value := by
    intro x hx hnx
    rw [hhistory] at hx
    rcases List.mem_append.mp hx with hx | hx
    · exact hsame x hx hnx
    · rw [List.mem_singleton.mp hx]
  have hmem : n ∈ a.history := hhistory ▸ List.mem_append_right l (List.mem_singleton_self n)
  intro x hx hmax
  have hx' := hvalue x hx (hmax n hmem)
  refine ⟨hx' ▸ hn, fun z hz hxz => (hvalue z hz ?_).trans hx'.symm⟩
  have hnx := hmax n hmem
  rw [TxnTime.le_iff] at *
  omega

theorem Effect.plain (h : Effect a m r a') (hp : a.Plain) (hm : a.WritesPlain m) : a'.Plain := by
  cases h with
  | current | readFast | readSlow | initAgain | relock | lock | refuse | queueBlob | queueDelete
  | preCommit | reset | fail => exact hp
  | initFresh t v hempty =>
    exact plain_concat (l := []) rfl (fun _ hx => absurd hx List.not_mem_nil) rfl
  | staleBlob t w v hlock hstale hqueue => exact plain_concat rfl (hm hstale hqueue w hlock) rfl
  | staleDelete t w hlock hstale hqueue =>
    rw [hm hstale hqueue] at hlock
    cases hlock
  | commit t q hlock hqueue =>
    obtain ⟨hq, hsame⟩ := hm hlock q hqueue
    refine plain_concat hq (fun x hx => ?_) rfl
    obtain ⟨hx, hne⟩ := List.mem_filter.mp hx
    exact hsame x hx (of_decide_eq_true hne)

/-- In an actor with plain newest versions both ways to read find the same. -/
theorem Plain.getCurrentValue_eq (hp : a.Plain) (ha : a.Ordered) {t : TxnTime}
    (ht : ∀ x ∈ a.history, x.time ≤ t) :
    a.getCurrentValue.map Prod.snd = (a.valueAt t).map some := by
  rcases a.getCurrentValue_cases with ⟨hnil, hnone⟩ | ⟨x, hx, hcurrent, hmax⟩
  · rw [hnone, valueAt_eq, hnil]
    rfl
  · obtain ⟨s, hs, hxs⟩ := recordAt_of_mem ha.sorted hx (ht x hx)
    obtain ⟨hsome, hvalue⟩ := hp x hx hmax
    obtain ⟨v, hv⟩ := Option.isSome_iff_exists.mp hsome
    have hsv := (hvalue s (mem_of_lastWhere hs).1 hxs).trans hv
    rw [hcurrent, valueAt, hs, Option.bind_some, hsv]
    exact congrArg some hv

theorem create_plain (lastRead : Option TxnTime) : (create lastRead ([] : List (HistoryRecord V))).Plain :=
  fun _ hx => absurd hx List.not_mem_nil

/-- What every message that writes plain versions keeps. -/
theorem plain_of_run {lastRead : Option TxnTime} {msgs : List (MemMsg V)}
    (h : Along step WritesPlain (create lastRead []) msgs) :
    (run step (create lastRead []) msgs).Ordered ∧ (run step (create lastRead []) msgs).Plain :=
  h.invariant (I := fun a => a.Ordered ∧ a.Plain)
    (fun a m ha hm => ⟨ha.1.step m, (receive_effect a m).plain ha.2 hm⟩)
    ⟨create_ordered List.Pairwise.nil, create_plain lastRead⟩

end MemActor

namespace RestmActors

open MemActor

variable {V : Type}

/-- After any messages that write plain versions only, a read at a time that is not before any
    version, if the lock lets it through, finds the same as a read without a time. -/
theorem reads_agree (clock : Clock) (lastRead : Option TxnTime) (msgs : List (MemMsg V))
    (hmsgs : Along MemActor.step WritesPlain (create lastRead []) msgs) {node : RestmActors V}
    {id : StringPtr} {p : LoggedActor V} (hp : node.ptrs id = some p)
    (hactor : p.actor = run MemActor.step (create lastRead []) msgs) {t : TxnTime}
    (ht : ∀ x ∈ p.actor.history, x.time ≤ t) {v : Option (Option V)}
    (hv : (((internal clock).getValueAt id t) node).1 = .ok v) :
    (((internal clock).getValue id) node).1 = .ok v := by
  obtain ⟨hordered, hplain⟩ := plain_of_run hmsgs
  rw [← hactor] at hordered hplain
  have hactorOf : ∀ time, node.actorOf clock id time = p := fun time => by
    rw [actorOf, hp]
    rfl
  have hv' : ((p.actor.getValue t).1.map fun x => x.map some) = .ok v := by
    rw [← hactorOf (some t)]
    exact hv
  have hcurrent : (((internal clock).getValue id) node).1 =
      .ok (p.actor.getCurrentValue.map Prod.snd) := by
    rw [← hactorOf none]
    rfl
  cases hread : (p.actor.getValue t).1 with
  | error e =>
    rw [hread] at hv'
    cases hv'
  | ok x =>
    rw [hread] at hv'
    cases hv'
    rw [hcurrent, hplain.getCurrentValue_eq hordered ht, getValue_ok hread]

/-- A node with one pointer that has processed the messages `msgs`. -/
def afterMsgs (msgs : List (MemMsg ℕ)) : RestmActors ℕ where
  coldStorage := fun _ => []
  ptrs := fun _ => some ⟨run MemActor.step (create none []) msgs, []⟩

theorem reads_agree_committed :
    (((internal ⟨0, 0⟩).getValue ⟨"x"⟩)
        (afterMsgs [.init (.ofEpoch 1) 10, .writeLock (.ofEpoch 2), .writeBlob (.ofEpoch 2) 20,
          .writeCommit (.ofEpoch 2)])).1 = .ok (some (some 20)) :=
  reads_agree ⟨0, 0⟩ none [.init (.ofEpoch 1) 10, .writeLock (.ofEpoch 2),
    .writeBlob (.ofEpoch 2) 20, .writeCommit (.ofEpoch 2)] (by decide) (t := .ofEpoch 3) rfl rfl
    (by decide) (by decide)

/-- A deletion reads as a `null` without a time and as absent with one. A value that came after its
    commit and was written at the time of the version that is there is read with a time only. -/
theorem deletion_differs :
    let deleted := afterMsgs [.init (.ofEpoch 1) 10, .writeLock (.ofEpoch 2), .delete (.ofEpoch 2),
      .writeCommit (.ofEpoch 2)]
    let late := afterMsgs [.init (.ofEpoch 1) 10, .writeLock (.ofEpoch 2), .writeCommit (.ofEpoch 2),
      .writeLock (.ofEpoch 1), .writeBlob (.ofEpoch 2) 20]
    (((internal ⟨0, 0⟩).getValueAt ⟨"x"⟩ (.ofEpoch 3)) deleted).1 = .ok none ∧
      (((internal ⟨0, 0⟩).getValue ⟨"x"⟩) deleted).1 = .ok (some none) ∧
      (((internal ⟨0, 0⟩).getValueAt ⟨"x"⟩ (.ofEpoch 3)) late).1 = .ok (some (some 20)) ∧
      (((internal ⟨0, 0⟩).getValue ⟨"x"⟩) late).1 = .ok (some (some 10)) := by
  decide

end RestmActors

end ReSTM
