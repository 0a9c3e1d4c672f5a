import ReSTM.Actors.Freeze

/-!
# Garbage collection and reads

`MemActor.collectGarbage` (`storage/actors/MemActor.scala`, lines 54–60) removes a version for its
own age. What a read at `t` needs is the newest version at or before `t`: it is older than `t`, and
may be past the horizon when `t` is not, if it was replaced only a moment ago. So a transaction
that is younger than the horizon can lose what it was reading (`collectGarbage_visible`).

* `getCurrentValue_collectGarbage`: the current value stays as it is.
* `collectGarbage_invisible_iff`: when a read at `t` does.
-/

namespace ReSTM

open LastWhere

variable {V : Type}

/-- `time.age <= 15.seconds`. -/
def young (now : ExactTime) (x : HistoryRecord V) : Bool := decide ¬Aged now x.time

namespace MemActor

variable {a : MemActor V} {pre post : List (HistoryRecord V)} {m : HistoryRecord V}
  {now : ExactTime} {t : TxnTime}

/-- The last of the versions `l` is young, or it has the value of the last young one, `d` if none
    is young. -/
def EndsYoung (now : ExactTime) (d : Option V) (l : List (HistoryRecord V)) : Prop :=
  ∀ ys y, l = ys ++ [y] → young now y = false →
    y.value = lastValue HistoryRecord.value d (ys.filter (young now))

/-- No read at `t` needs a version that is collected. The newest version `m` is never collected.
    A read at `m` or later needs one that is not older than `m`, a read before `m` the newest one
    at or before `t`. -/
def Needless (now : ExactTime) (t : TxnTime) (a : MemActor V) : Prop :=
  ∀ pre m post, splitMax a.history = some (pre, m, post) →
    (m.time ≤ t → EndsYoung now m.value post) ∧
    (t < m.time → EndsYoung now none (pre.filter fun x => x.time ≤ t))

/-- The lock refuses a read at `t`. -/
def Refuses (t : TxnTime) (a : MemActor V) : Prop :=
  ¬a.lastRead.any (t ≤ ·) ∧ ∃ w, a.writeLock = some w ∧ w < t

/-! ## The current value -/

theorem splitMax_collectGarbage (hsplit : splitMax a.history = some (pre, m, post)) :
    splitMax (a.collectGarbage now).history =
      some (pre.filter (young now), m, post.filter (young now)) := by
  have hpost : ∀ x ∈ post, x.time ≤ m.time := fun x hx =>
    (splitMax_spec hsplit).2 x (by rw [(splitMax_spec hsplit).1]; simp [hx])
  have hhistory : (a.collectGarbage now).history =
      pre.filter (young now) ++ m :: post.filter (young now) := by
    unfold collectGarbage
    rw [hsplit]
    rfl
  rw [hhistory]
  exact splitMax_eq (fun x hx => splitMax_lt hsplit x (List.mem_filter.mp hx).1)
    fun x hx => hpost x (List.mem_filter.mp hx).1

theorem collectGarbage_of_nil (h : a.history = []) : a.collectGarbage now = a := by
  unfold collectGarbage
  rw [splitMax_eq_none_iff.mpr h]

/-- Garbage collection keeps the current value. -/
theorem getCurrentValue_collectGarbage (now : ExactTime) (a : MemActor V) :
    (a.collectGarbage now).getCurrentValue = a.getCurrentValue := by
  cases hsplit : splitMax a.history with
  | none => rw [collectGarbage_of_nil (splitMax_eq_none_iff.mp hsplit)]
  | some r =>
    obtain ⟨pre, m, post⟩ := r
    rw [getCurrentValue_eq, getCurrentValue_eq, splitMax_collectGarbage hsplit, hsplit]
    rfl

/-! ## Timed reads -/

theorem valueAt_eq (t : TxnTime) (a : MemActor V) :
    a.valueAt t = lastValue HistoryRecord.value none (a.history.filter fun x => x.time ≤ t) := by
  unfold valueAt recordAt lastWhere lastValue
  cases (a.history.filter fun x => x.time ≤ t).getLast? <;> rfl

/-- A read at the newest version or later. -/
theorem valueAt_of_le (hsplit : splitMax a.history = some (pre, m, post)) (hm : m.time ≤ t) :
    a.valueAt t = lastValue HistoryRecord.value m.value post := by
  have hall : (a.history.filter fun x => x.time ≤ t) = a.history := by
    refine List.filter_eq_self.mpr fun x hx => decide_eq_true ?_
    have hle := (splitMax_spec hsplit).2 x hx
    rw [TxnTime.le_iff] at *
    omega
  rw [valueAt_eq, hall, (splitMax_spec hsplit).1, lastValue_append_cons]

/-- A read before the newest version. -/
theorem valueAt_of_lt (hsorted : a.history.Pairwise fun x y => x.time ≤ y.time)
    (hsplit : splitMax a.history = some (pre, m, post)) (hm : t < m.time) :
    a.valueAt t = lastValue HistoryRecord.value none (pre.filter fun x => x.time ≤ t) := by
  rw [(splitMax_spec hsplit).1, List.pairwise_append, List.pairwise_cons] at hsorted
  have hnone : ((m :: post).filter fun x => x.time ≤ t) = [] := by
    refine List.filter_eq_nil_iff.mpr fun x hx hle => ?_
    have hmx : m.time ≤ x.time := by
      rcases List.mem_cons.mp hx with rfl | hx
      · exact x.time.le_refl
      · exact hsorted.2.1.1 x hx
    have hle' := of_decide_eq_true hle
    rw [TxnTime.lt_iff] at hm
    rw [TxnTime.le_iff] at hmx hle'
    omega
  rw [valueAt_eq, (splitMax_spec hsplit).1, List.filter_append, hnone, List.append_nil]

theorem collectGarbage_sorted (hsorted : a.history.Pairwise fun x y => x.time ≤ y.time) :
    (a.collectGarbage now).history.Pairwise fun x y => x.time ≤ y.time :=
  hsorted.sublist (collectGarbage_sublist now a)

/-- What a read at `t` finds stays the same exactly when no version that it needs is collected. -/
theorem valueAt_collectGarbage_iff (hsorted : a.history.Pairwise fun x y => x.time ≤ y.time) :
    (a.collectGarbage now).valueAt t = a.valueAt t ↔ a.Needless now t := by
  cases hsplit : splitMax a.history with
  | none =>
    rw [collectGarbage_of_nil (splitMax_eq_none_iff.mp hsplit)]
    refine iff_of_true rfl fun pre m post h => ?_
    rw [hsplit] at h
    cases h
  | some r =>
    obtain ⟨pre, m, post⟩ := r
    have hkept : splitMax (a.collectGarbage now).history =
        some (pre.filter (young now), m, post.filter (young now)) := splitMax_collectGarbage hsplit
    have hneed : a.Needless now t ↔ (m.time ≤ t → EndsYoung now m.value post) ∧
        (t < m.time → EndsYoung now none (pre.filter fun x => x.time ≤ t)) := by
      refine ⟨fun h => h pre m post hsplit, fun h pre' m' post' h' => ?_⟩
      cases hsplit.symm.trans h'
      exact h
    rw [hneed]
    by_cases hm : m.time ≤ t
    · have hlt : ¬t < m.time := by
        rw [TxnTime.lt_iff, not_lt]
        exact TxnTime.le_iff.mp hm
      rw [valueAt_of_le hkept hm, valueAt_of_le hsplit hm, lastValue_filter_eq_iff]
      exact ⟨fun h => ⟨fun _ => h, fun h' => absurd h' hlt⟩, fun h => h.1 hm⟩
    · have hlt : t < m.time := by
        rw [TxnTime.le_iff, not_le] at hm
        exact TxnTime.lt_iff.mpr hm
      rw [valueAt_of_lt (collectGarbage_sorted hsorted) hkept hlt, valueAt_of_lt hsorted hsplit hlt,
        List.filter_comm, lastValue_filter_eq_iff]
      exact ⟨fun h => ⟨fun h' => absurd h' hm, fun _ => h⟩, fun h => h.2 hlt⟩

/-- A read that the lock does not refuse finds what is in the history. -/
theorem getValue_of_not_refuses (h : ¬a.Refuses t) : (a.getValue t).1 = .ok (a.valueAt t) := by
  unfold getValue
  split_ifs with hread
  · rfl
  · split
    · next w hw =>
      obtain ⟨hlock, hlt⟩ := Option.filter_eq_some_iff.mp hw
      exact absurd ⟨hread, w, hlock, of_decide_eq_true hlt⟩ h
    · rfl

theorem getValue_of_refuses (h : a.Refuses t) :
    ∃ w, a.writeLock = some w ∧ (a.getValue t).1 = .error (Failure.lockedBy w) := by
  obtain ⟨hread, w, hlock, hlt⟩ := h
  refine ⟨w, hlock, ?_⟩
  have hfilter : a.writeLock.filter (· < t) = some w := by
    rw [hlock]
    exact if_pos (decide_eq_true hlt)
  rw [getValue, if_neg hread, hfilter]

theorem refuses_collectGarbage : (a.collectGarbage now).Refuses t ↔ a.Refuses t := by
  unfold Refuses
  rw [collectGarbage_lastRead, collectGarbage_writeLock]

/-- Garbage collection is invisible to a read at `t`, and to reads without a time, exactly when
    the lock refuses the read or no version that it needs is collected. -/
theorem collectGarbage_invisible_iff (hsorted : a.history.Pairwise fun x y => x.time ≤ y.time)
    (now : ExactTime) (t : TxnTime) :
    (((a.collectGarbage now).getValue t).1 = (a.getValue t).1 ∧
        (a.collectGarbage now).getCurrentValue = a.getCurrentValue) ↔
      a.Refuses t ∨ a.Needless now t := by
  rw [getCurrentValue_collectGarbage, eq_self, and_true]
  by_cases hrefuse : a.Refuses t
  · obtain ⟨w, hw, hread⟩ := getValue_of_refuses hrefuse
    have hrefuse' : (a.collectGarbage now).Refuses t := refuses_collectGarbage.mpr hrefuse
    obtain ⟨w', hw', hread'⟩ := getValue_of_refuses hrefuse'
    rw [collectGarbage_writeLock, hw] at hw'
    cases hw'
    exact iff_of_true (hread'.trans hread.symm) (.inl hrefuse)
  · rw [getValue_of_not_refuses hrefuse,
      getValue_of_not_refuses fun h => hrefuse (refuses_collectGarbage.mp h), Except.ok.injEq,
      valueAt_collectGarbage_iff hsorted]
    exact (or_iff_right hrefuse).symm

/-- Two versions, of which the second is from 20 s later. -/
def twoVersions : MemActor ℕ where
  history := [{ time := .ofEpoch 0, value := some 1 }, { time := .ofEpoch 20, value := some 2 }]

theorem collectGarbage_invisible_two :
    ((twoVersions.collectGarbage ⟨14, 0⟩).getValue (.ofEpoch 10)).1 =
        (twoVersions.getValue (.ofEpoch 10)).1 ∧
      (twoVersions.collectGarbage ⟨14, 0⟩).getCurrentValue = twoVersions.getCurrentValue :=
  (collectGarbage_invisible_iff (by decide) ⟨14, 0⟩ (.ofEpoch 10)).mpr <| .inr fun pre m post h => by
    cases h
    refine ⟨fun hle => absurd hle (by decide), fun _ ys y hl hy => ?_⟩
    have hl' : [] ++ [{ time := TxnTime.ofEpoch 0, value := some 1 }] = ys ++ [y] := hl
    obtain ⟨-, hlast⟩ := List.append_inj' hl' rfl
    cases hlast
    exact absurd hy (by decide)

/-- One second after the newer version came, a read at an age of 11 s no longer finds the older
    one. -/
theorem collectGarbage_visible :
    ¬Aged ⟨21, 0⟩ (.ofEpoch 10) ∧
      (twoVersions.history.Pairwise fun x y => x.time ≤ y.time) ∧
      (twoVersions.getValue (.ofEpoch 10)).1 = .ok (some 1) ∧
      ((twoVersions.collectGarbage ⟨21, 0⟩).getValue (.ofEpoch 10)).1 = .ok none := by
  decide

end MemActor

end ReSTM
