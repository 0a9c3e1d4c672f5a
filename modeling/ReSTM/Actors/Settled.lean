import ReSTM.Actors.Kept

/-!
# What readers of a pointer see

`Settled` extends `Kept` for pointers that get no initial value after they were
restored: every version comes from the cold storage or was queued and committed,
and what was read is what remains in the history before the reader.

* `Settled.step`: every timely message keeps this.
* `Settled.read_of_queued`: whoever reads after a committed writer sees its version
  or a later one.
* `Settled.read_last_writer`, `Settled.read_restored`: which value a reader sees.
-/

namespace ReSTM

variable {V : Type}

namespace LoggedActor

open MemActor

variable {outcome : TxnTime → TxnState} {cold : List (TxnTime × Option V)} {p : LoggedActor V}
  {m : MemMsg V} {t u : TxnTime} {q : Option V}

/-- What is known of a record that a read at `u` used, or that it used none. -/
structure ReadKept (u : TxnTime) (record : Option (HistoryRecord V)) (a : MemActor V) : Prop where
  last : ∃ l, a.lastRead = some l ∧ u ≤ l
  greatest : ∀ r ∈ a.history, r.time < u → ∃ r₀, record = some r₀ ∧ r.time ≤ r₀.time
  le : ∀ r, record = some r → r.time ≤ u
  kept : ∀ r, record = some r → r.time < u → r ∈ a.history

structure Settled (outcome : TxnTime → TxnState) (cold : List (TxnTime × Option V))
    (p : LoggedActor V) : Prop extends p.Kept outcome where
  unique : (p.actor.history.map (·.time)).Nodup
  newest : ∀ t q, .queued t q ∈ p.log → ∀ c ∈ cold, c.1 ≤ t
  origin : ∀ r ∈ p.actor.history, (r.time, r.value) ∈ cold ∨
    .queued r.time r.value ∈ p.log ∧ .committed r.time ∈ p.log
  restored : ∀ c ∈ cold, (∃ r ∈ p.actor.history, (r.time, r.value) = c) ∨ .committed c.1 ∈ p.log
  read : ∀ u record, .read u record ∈ p.log → ReadKept u record p.actor
  readOrigin : ∀ u r, .read u (some r) ∈ p.log → (r.time, r.value) ∈ cold ∨
    .queued r.time r.value ∈ p.log ∧ .committed r.time ∈ p.log

theorem settled_restore (hcold : (cold.map Prod.fst).Nodup) {now : ℤ} {time : Option TxnTime} :
    (restore cold now time).Settled outcome cold where
  toKept := kept_restore
  unique := by
    have hperm := List.perm_insertionSort (fun x y : HistoryRecord V => x.time ≤ y.time)
      (cold.map fun e => { time := e.1, value := e.2, coldStorageTs := some now })
    refine (hperm.map _).nodup_iff.mpr ?_
    rwa [List.map_map]
  newest _ _ h := absurd h List.not_mem_nil
  origin r hr := .inl (mem_restore_history.mp hr).1
  restored c hc := .inl ⟨_, restore_mem hc, rfl⟩
  read _ _ h := absurd h List.not_mem_nil
  readOrigin _ _ h := absurd h List.not_mem_nil

theorem Settled.mono {outcome' : TxnTime → TxnState}
    (h : ∀ t, outcome t ≠ .OPEN → outcome' t = outcome t) (hp : p.Settled outcome cold) :
    p.Settled outcome' cold :=
  { hp with toKept := hp.toKept.mono h }

/-! ## One message -/

/-- Every version of the cold storage is older than the lock. -/
theorem Settled.cold_le_lock (hp : p.Settled outcome cold) (hlock : p.actor.writeLock = some t)
    {c : TxnTime × Option V} (hc : c ∈ cold) : c.1 ≤ t := by
  rcases hp.restored c hc with ⟨r, hr, rfl⟩ | hcommitted
  · exact hp.ordered.history_le_lock t hlock r hr
  · obtain ⟨r, hr, hrc, -⟩ := hp.committed c.1 hcommitted
    exact hrc ▸ hp.ordered.history_le_lock t hlock r hr

theorem Settled.unique_step (hp : p.Settled outcome cold) (hm : Timely outcome p.actor m)
    (hinit : NotInit m) :
    ((p.step m).actor.history.map (·.time)).Nodup := by
  have heff := receive_effect p.actor m
  have hunique := hp.unique
  simp only [step]
  generalize p.actor.reply m = r at heff
  generalize p.actor.step m = a' at heff
  cases heff with
  | initFresh => exact hinit.elim
  | staleBlob t w v hlock hst => exact absurd hst (hp.not_stale hm)
  | staleDelete t w hlock hst => exact absurd hst (hp.not_stale hm)
  | commit t q =>
    rw [List.map_append, List.nodup_append]
    refine ⟨(List.filter_sublist.map _).nodup hunique, List.nodup_singleton t, ?_⟩
    rintro _ hx _ hy rfl
    obtain ⟨y, hy', rfl⟩ := List.mem_map.mp hx
    exact (of_decide_eq_true (List.mem_filter.mp hy').2) (List.mem_singleton.mp hy)
  | _ => exact hunique

theorem Settled.newest_step (hp : p.Settled outcome cold) :
    ∀ t q, .queued t q ∈ (p.step m).log → ∀ c ∈ cold, c.1 ≤ t := by
  have heff := receive_effect p.actor m
  have hnewest := hp.newest
  simp only [step]
  generalize p.actor.reply m = r at heff
  generalize p.actor.step m = a' at heff
  intro t q ht c hc
  cases heff with
  | queueBlob w v hlock | queueDelete w hlock =>
    rcases List.mem_cons.mp ht with ht | ht
    · cases ht; exact hp.cold_le_lock hlock hc
    · exact hnewest t q ht c hc
  | _ => exact hnewest t q (by simpa [MemMsg.line] using ht) c hc

theorem Settled.origin_step (hp : p.Settled outcome cold) (hm : Timely outcome p.actor m)
    (hinit : NotInit m) :
    ∀ r ∈ (p.step m).actor.history, (r.time, r.value) ∈ cold ∨
      .queued r.time r.value ∈ (p.step m).log ∧ .committed r.time ∈ (p.step m).log := by
  have heff := receive_effect p.actor m
  have horigin : ∀ (line : Line V), ∀ r ∈ p.actor.history, (r.time, r.value) ∈ cold ∨
      .queued r.time r.value ∈ line :: p.log ∧ .committed r.time ∈ line :: p.log := by
    intro line r hr
    exact (hp.origin r hr).imp_right fun h =>
      ⟨List.mem_cons_of_mem _ h.1, List.mem_cons_of_mem _ h.2⟩
  simp only [step]
  generalize p.actor.reply m = r at heff
  generalize p.actor.step m = a' at heff
  intro r hr
  cases heff with
  | initFresh => exact hinit.elim
  | staleBlob _ _ _ _ hst | staleDelete _ _ _ hst => exact absurd hst (hp.not_stale hm)
  | commit w q hlock hqueue =>
    rcases of_mem_committed hr with ⟨hr, -⟩ | rfl
    · exact horigin _ r hr
    · exact .inr ⟨List.mem_cons_of_mem _ (hp.slot_queued hlock hqueue), List.mem_cons_self⟩
  | _ => exact horigin _ r hr

theorem Settled.restored_step (hp : p.Settled outcome cold) (hm : Timely outcome p.actor m)
    (hinit : NotInit m) :
    ∀ c ∈ cold, (∃ r ∈ (p.step m).actor.history, (r.time, r.value) = c) ∨
      .committed c.1 ∈ (p.step m).log := by
  have heff := receive_effect p.actor m
  have hrestored : ∀ (line : Line V), ∀ c ∈ cold,
      (∃ r ∈ p.actor.history, (r.time, r.value) = c) ∨ .committed c.1 ∈ line :: p.log := by
    intro line c hc
    exact (hp.restored c hc).imp_right fun h => List.mem_cons_of_mem _ h
  simp only [step]
  generalize p.actor.reply m = r at heff
  generalize p.actor.step m = a' at heff
  intro c hc
  cases heff with
  | initFresh => exact hinit.elim
  | staleBlob _ _ _ _ hst | staleDelete _ _ _ hst => exact absurd hst (hp.not_stale hm)
  | commit w q =>
    rcases hrestored (.committed w) c hc with ⟨r, hr, rfl⟩ | h
    · by_cases hw : r.time = w
      · exact .inr (hw ▸ List.mem_cons_self)
      · exact .inl ⟨r, mem_committed hr hw, rfl⟩
    · exact .inr h
  | _ => exact hrestored _ c hc

/-! ## Reads -/

/-- The record that a read at `u` uses is kept from then on. -/
theorem readKept_of_readAt {a : MemActor V} (hat : ReadAt u a) : ReadKept u (a.recordAt u) a where
  last := hat.read
  greatest _ hr hlt := recordAt_of_mem hat.sorted hr (TxnTime.le_of_lt hlt)
  le _ hr := of_decide_eq_true (LastWhere.mem_of_lastWhere hr).2
  kept _ hr _ := (LastWhere.mem_of_lastWhere hr).1

/-- No message before the reader's time changes what was read. -/
theorem ReadKept.step {a a' : MemActor V} {record : Option (HistoryRecord V)}
    {r : Except Failure (Answer V)} (h : ReadKept u record a) (ha : a.Ordered)
    (heff : Effect a m r a') (hm : NotInit m) : ReadKept u record a' := by
  have hat : ReadAt u a := ⟨ha, h.last⟩
  refine ⟨(heff.readAt hm hat).read, fun x hx hlt => ?_, h.le, fun x hx hlt => ?_⟩
  · exact h.greatest x (heff.mem_of_lt hm hat hx hlt) hlt
  · have hx' := h.kept x hx hlt
    cases heff with
    | initFresh => exact hm.elim
    | staleBlob | staleDelete => exact List.mem_append_left _ hx'
    | commit w q hlock =>
      refine mem_committed hx' fun heq => ?_
      have hle := hat.le_lock hlock
      simp only [← heq, TxnTime.lt_iff, TxnTime.le_iff] at *
      omega
    | _ => exact hx'

/-- The line of a read is made by a read that returned. -/
theorem read_of_line {record : Option (HistoryRecord V)}
    (h : Line.read u record = m.line p.actor (p.actor.reply m)) :
    m = .getValue u ∧ record = p.actor.recordAt u ∧ ∃ answer, p.actor.reply m = .ok answer := by
  have heff := receive_effect p.actor m
  cases hr : p.actor.reply m with
  | error e => rw [hr, line_error] at h; cases h
  | ok answer =>
    rw [hr] at h heff
    generalize p.actor.step m = a' at heff
    cases heff <;> cases h <;> exact ⟨rfl, rfl, _, rfl⟩

theorem Settled.read_step (hp : p.Settled outcome cold) (hinit : NotInit m) :
    ∀ u record, .read u record ∈ (p.step m).log → ReadKept u record (p.step m).actor := by
  intro u record h
  have heff := receive_effect p.actor m
  rcases List.mem_cons.mp h with hline | h
  · obtain ⟨rfl, rfl, answer, hr⟩ := read_of_line hline
    rw [hr] at heff
    obtain ⟨hat, hhist⟩ := heff.readAt_of_ok hp.ordered
    have hsame : p.actor.recordAt u = (p.step (.getValue u)).actor.recordAt u := by
      unfold recordAt; exact congrArg _ hhist.symm
    rw [hsame]
    exact readKept_of_readAt hat
  · exact (hp.read u record h).step hp.ordered heff hinit

theorem Settled.readOrigin_step (hp : p.Settled outcome cold) :
    ∀ u r, .read u (some r) ∈ (p.step m).log → (r.time, r.value) ∈ cold ∨
      .queued r.time r.value ∈ (p.step m).log ∧ .committed r.time ∈ (p.step m).log := by
  intro u r h
  have horigin : (r.time, r.value) ∈ cold ∨
      .queued r.time r.value ∈ p.log ∧ .committed r.time ∈ p.log := by
    rcases List.mem_cons.mp h with hline | h
    · obtain ⟨-, hr, -⟩ := read_of_line hline
      exact hp.origin r (LastWhere.mem_of_lastWhere hr.symm).1
    · exact hp.readOrigin u r h
  exact horigin.imp_right fun h => ⟨List.mem_cons_of_mem _ h.1, List.mem_cons_of_mem _ h.2⟩

/-- A timely message keeps a settled pointer settled. -/
theorem Settled.step (hp : p.Settled outcome cold) (hm : Timely outcome p.actor m)
    (hinit : NotInit m) :
    (p.step m).Settled outcome cold where
  toKept := hp.toKept.step hm
  unique := hp.unique_step hm hinit
  newest := hp.newest_step
  origin := hp.origin_step hm hinit
  restored := hp.restored_step hm hinit
  read := hp.read_step hinit
  readOrigin := hp.readOrigin_step

/-! ## What a reader sees -/

/-- Whoever reads at a time after a committed writer sees its version or a later
    one. -/
theorem Settled.read_of_queued (hp : p.Settled outcome cold) (ht : outcome t = .COMMIT)
    (hq : .queued t q ∈ p.log) {record : Option (HistoryRecord V)}
    (hr : .read u record ∈ p.log) (hlt : t < u) : ∃ r, record = some r ∧ t ≤ r.time := by
  have hread := hp.read u record hr
  rcases hp.queued t q hq with hreset | ⟨hlock, -⟩ | ⟨-, r, hmem, rfl, -⟩
  · rw [hreset] at ht; cases ht
  · have hle : u ≤ t := ReadAt.le_lock ⟨hp.ordered, hread.last⟩ hlock
    simp only [TxnTime.lt_iff, TxnTime.le_iff] at hlt hle
    omega
  · exact hread.greatest r hmem hlt

section Serial

variable {T : Set TxnTime} (hT : TxnTime.Distinct T) (hp : p.Settled outcome cold)
  (htime : ∀ t, outcome t = .COMMIT → t ∈ T) (hcold : ∀ c ∈ cold, c.1 ∈ T)

include hT hp htime hcold

/-- The record that a reader used, unless it is its own, is still there and older than
    the reader. -/
theorem Settled.read_record {r : HistoryRecord V} (hu : u ∈ T) (hr : .read u (some r) ∈ p.log)
    (hown : r.time ≠ u) : r ∈ p.actor.history ∧ r.time < u ∧ r.time ∈ T := by
  have hread := hp.read u (some r) hr
  have hmem : r.time ∈ T := by
    rcases hp.readOrigin u r hr with h | ⟨-, h⟩
    · exact hcold _ h
    · exact htime _ (hp.released r.time (.inl h)).1
  have hlt : r.time < u :=
    TxnTime.lt_iff.mpr (hT.rank_lt hmem hu (TxnTime.le_iff.mp (hread.le r rfl)) hown)
  exact ⟨hread.kept r rfl hlt, hlt, hmem⟩

/-- With `t` the last committed writer before the reader, the reader saw what `t`
    queued. -/
theorem Settled.read_last_writer (hu : u ∈ T) {record : Option (HistoryRecord V)}
    (hr : .read u record ∈ p.log) (hown : ∀ r, record = some r → r.time ≠ u)
    (ht : outcome t = .COMMIT) (hq : .queued t q ∈ p.log) (hlt : t < u)
    (hlast : ∀ t' q', outcome t' = .COMMIT → .queued t' q' ∈ p.log → t < t' → ¬t' < u) :
    record.bind (·.value) = q := by
  obtain ⟨r, rfl, hle⟩ := hp.read_of_queued ht hq hr hlt
  obtain ⟨hmem, hru, hrT⟩ := hp.read_record hT htime hcold hu hr (hown r rfl)
  -- the record read is at the writer's time
  have hrt : r.time ≤ t := by
    rcases hp.origin r hmem with h | ⟨hq', hc⟩
    · exact hp.newest t q hq _ h
    · have hcommit := (hp.released r.time (.inl hc)).1
      by_contra hnot
      refine hlast r.time r.value hcommit hq' ?_ hru
      simp only [TxnTime.lt_iff, TxnTime.le_iff] at *
      omega
  have hrt' : r.time = t :=
    hT.eq_of_rank hrT (htime t ht) (le_antisymm (TxnTime.le_iff.mp hrt) (TxnTime.le_iff.mp hle))
  -- and the writer's version is the only one there
  rcases hp.queued t q hq with hreset | ⟨hlock, -⟩ | ⟨-, r', hmem', hr't, rfl⟩
  · rw [hreset] at ht; cases ht
  · have hle : u ≤ t := ReadAt.le_lock ⟨hp.ordered, (hp.read u _ hr).last⟩ hlock
    simp only [TxnTime.lt_iff, TxnTime.le_iff] at *
    omega
  · rw [List.inj_on_of_nodup_map hp.unique hmem hmem' (hrt'.trans hr't.symm)]
    rfl

/-- The value in the cold storage before `u`. -/
def restoredBefore (cold : List (TxnTime × Option V)) (u : TxnTime) : Option V :=
  (LastWhere.lastWhere (fun r : HistoryRecord V => decide (r.time < u))
    (restore cold 0 none).actor.history).bind (·.value)

/-- With no committed writer before the reader, the reader saw what was restored. -/
theorem Settled.read_restored (hkeys : (cold.map Prod.fst).Nodup) (hu : u ∈ T)
    {record : Option (HistoryRecord V)}
    (hr : .read u record ∈ p.log) (hown : ∀ r, record = some r → r.time ≠ u)
    (hno : ∀ t q, outcome t = .COMMIT → .queued t q ∈ p.log → ¬t < u) :
    record.bind (·.value) = restoredBefore cold u := by
  have hread := hp.read u record hr
  -- every restored version before the reader is still there, so the record is no older
  have hgreatest : ∀ c ∈ cold, c.1 < u → ∃ r, record = some r ∧ c.1 ≤ r.time := by
    intro c hc hlt
    rcases hp.restored c hc with ⟨r, hmem, rfl⟩ | hcommitted
    · exact hread.greatest r hmem hlt
    · obtain ⟨r, -, -, hq⟩ := hp.committed c.1 hcommitted
      exact absurd hlt (hno c.1 _ (hp.released c.1 (.inl hcommitted)).1 hq)
  unfold restoredBefore
  cases hlast : LastWhere.lastWhere (fun r : HistoryRecord V => decide (r.time < u))
      (restore cold 0 none).actor.history with
  | none =>
    rw [LastWhere.lastWhere_eq_none_iff] at hlast
    cases record with
    | none => rfl
    | some r =>
      obtain ⟨hmem, hru, -⟩ := hp.read_record hT htime hcold hu hr (hown r rfl)
      rcases hp.origin r hmem with h | ⟨hq, hc⟩
      · have hold : { time := r.time, value := r.value, coldStorageTs := some 0 } ∈
            (restore cold 0 none).actor.history := restore_mem h
        have hnot := of_decide_eq_false (hlast _ hold)
        exact absurd hru hnot
      · exact absurd hru (hno r.time _ (hp.released r.time (.inl hc)).1 hq)
  | some c =>
    obtain ⟨hc, hcu⟩ := LastWhere.mem_of_lastWhere hlast
    have hc := (mem_restore_history.mp hc).1
    obtain ⟨r, rfl, hcr⟩ := hgreatest _ hc (of_decide_eq_true hcu)
    obtain ⟨hmem, hru, hrT⟩ := hp.read_record hT htime hcold hu hr (hown r rfl)
    have hr' : (r.time, r.value) ∈ cold := by
      rcases hp.origin r hmem with h | ⟨hq, hc⟩
      · exact h
      · exact absurd hru (hno r.time _ (hp.released r.time (.inl hc)).1 hq)
    have hold : { time := r.time, value := r.value, coldStorageTs := some 0 } ∈
        (restore cold 0 none).actor.history := restore_mem hr'
    have hrc := LastWhere.le_lastWhere (fun y => y.time.le_refl)
      (restore_ordered cold 0 none).sorted hlast hold (decide_eq_true hru)
    have htimes : r.time = c.time :=
      hT.eq_of_rank hrT (hcold _ hc) (le_antisymm (TxnTime.le_iff.mp hrc) (TxnTime.le_iff.mp hcr))
    have heq := List.inj_on_of_nodup_map hkeys hr' hc htimes
    exact congrArg Prod.snd heq

end Serial

end LoggedActor

end ReSTM
