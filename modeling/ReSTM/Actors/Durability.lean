import ReSTM.Actors.Freeze

/-!
# Durability across persistence, collection and eviction

What was written last at a timestamp must be in the history of the actor in memory or in
cold storage, and eviction must not change the current value. Two messages break it.

* An expiry compares the timestamps of the history with those it was scheduled with. A
  commit that replaces the record of `init` at the same timestamp goes unnoticed: the actor
  is evicted before the new value is stored (`commit_lost`).
* A garbage collection may run after a commit that came later than the freeze that sent it,
  and removes versions that no freeze has stored.

Two more make the current value ambiguous: a value that arrives after its commit while the
lock belongs to a transaction that already has a version, and timestamps with equal
effective times.

* `Stored`: the invariant of an actor in memory.
* `durable_run`: runs whose steps all meet `Persists` are durable.
-/

namespace ReSTM

open Transition

variable {V : Type}

/-- What was written last at `t`. -/
def latest (t : TxnTime) : List (PtrEvent V) → Option (Option V)
  | [] => none
  | .written u v :: l => if u = t then some v else latest t l
  | .read _ :: l => latest t l
  | .granted _ :: l => latest t l

@[simp] theorem latest_written (t u : TxnTime) (v : Option V) (l : List (PtrEvent V)) :
    latest t (.written u v :: l) = if u = t then some v else latest t l := rfl

namespace MemActor

variable {a : MemActor V}

/-- Every version is in cold storage. -/
def AllPersisted (a : MemActor V) : Prop := ∀ x ∈ a.history, x.coldStorageTs.isSome

instance (a : MemActor V) : Decidable a.AllPersisted :=
  inferInstanceAs (Decidable (∀ x ∈ a.history, x.coldStorageTs.isSome))

/-- Of the versions that are not the newest the old ones are in cold storage. -/
def CollectsPersisted (now : ExactTime) (a : MemActor V) : Prop :=
  ∀ r ∈ splitMax a.history, ∀ x ∈ r.1 ++ r.2.2, Aged now x.time → x.coldStorageTs.isSome

instance (now : ExactTime) (a : MemActor V) : Decidable (a.CollectsPersisted now) :=
  inferInstanceAs (Decidable (∀ r ∈ splitMax a.history, ∀ x ∈ r.1 ++ r.2.2,
    Aged now x.time → x.coldStorageTs.isSome))

theorem CollectsPersisted.isSome {now : ExactTime} {x : HistoryRecord V}
    (h : a.CollectsPersisted now) (hx : x ∈ a.history)
    (hgone : x ∉ (a.collectGarbage now).history) : x.coldStorageTs.isSome := by
  unfold collectGarbage at hgone
  split at hgone
  · exact absurd hx hgone
  · next pre m post hsplit =>
    rw [(splitMax_spec hsplit).1] at hx
    refine h (pre, m, post) hsplit x ?_ ?_
    · by_contra hpre
      have hxm : x = m := by
        simp only [List.mem_append, List.mem_cons] at hx hpre
        tauto
      exact hgone (by simp [hxm])
    · by_contra hage
      refine hgone ?_
      simp only [List.mem_append, List.mem_cons] at hx ⊢
      rcases hx with hx | hx | hx
      · exact .inl (List.mem_filter.mpr ⟨hx, decide_eq_true hage⟩)
      · exact .inr (.inl hx)
      · exact .inr (.inr (List.mem_filter.mpr ⟨hx, decide_eq_true hage⟩))

/-- The message is not a value that arrives after its commit while the lock belongs to a
    transaction that has a version already. -/
def FreshStale (a : MemActor V) : MemMsg V → Prop
  | .writeBlob t _ | .delete t =>
    a.staleCommit = some t → ∀ w ∈ a.writeLock, ∀ x ∈ a.history, x.time ≠ w
  | _ => True

instance (a : MemActor V) : ∀ m, Decidable (a.FreshStale m)
  | .writeBlob t _ | .delete t =>
    inferInstanceAs
      (Decidable (a.staleCommit = some t → ∀ w ∈ a.writeLock, ∀ x ∈ a.history, x.time ≠ w))
  | .getCurrentValue | .getValue _ | .init _ _ | .writeLock _ | .writeCommit _ | .writeReset _ =>
    inferInstanceAs (Decidable True)

end MemActor

namespace Pointer

/-! ## The invariant -/

/-- What holds of an actor in memory: there is at most one version at a time, what was
    written last is there or collected after it was stored, marked versions are stored, and
    a newest timestamp in cold storage is among those in memory. -/
structure Stored (cold : Versions V) (events : List (PtrEvent V)) (a : MemActor V) : Prop where
  nodup : (a.history.map (·.time)).Nodup
  kept : ∀ t v, latest t events = some v → (∃ x ∈ a.history, x.time = t ∧ x.value = v) ∨
    (∀ x ∈ a.history, x.time ≠ t) ∧ cold.lookup t = some v
  marked : ∀ x ∈ a.history, x.coldStorageTs.isSome → cold.lookup x.time = some x.value
  below : ∀ t v, cold.lookup t = some v → ∃ x ∈ a.history, t ≤ x.time

/-- The invariant of a pointer. Without an actor everything is in cold storage. -/
def Sound (cold : Versions V) (live : Option (MemActor V)) (events : List (PtrEvent V)) : Prop :=
  match live with
  | some a => Stored cold events a
  | none => ∀ t v, latest t events = some v → cold.lookup t = some v

/-- What was written last at a timestamp is in memory or in cold storage. -/
def Durable (s : Pointer V) : Prop :=
  ∀ t v, latest t s.events = some v →
    (∃ a ∈ s.live, ∃ x ∈ a.history, x.time = t ∧ x.value = v) ∨ s.cold.lookup t = some v

theorem Sound.durable {s : Pointer V} (h : Sound s.cold s.live s.events) : s.Durable := by
  intro t v hv
  cases hlive : s.live with
  | none =>
    rw [hlive] at h
    exact .inr (h t v hv)
  | some a =>
    rw [hlive] at h
    rcases h.kept t v hv with hmem | ⟨-, hcold⟩
    · exact .inl ⟨a, rfl, hmem⟩
    · exact .inr hcold

/-- `_getValue(id)` (`RestmActors.scala`, lines 191–193), with the time of the value. -/
def currentValue (now : ℤ) (s : Pointer V) : Option (TxnTime × Option V) :=
  (s.access now none).live.bind (·.getCurrentValue)

/-- Keys of which none has the effective time of a newest one. -/
def NewestUnique (cold : Versions V) : Prop :=
  ∀ t ∈ cold.keys, ∀ o ∈ cold.keys, (∀ u ∈ cold.keys, u ≤ t) → t ≤ o → t = o

instance (cold : Versions V) : Decidable (NewestUnique cold) :=
  inferInstanceAs (Decidable (∀ t ∈ cold.keys, ∀ o ∈ cold.keys,
    (∀ u ∈ cold.keys, u ≤ t) → t ≤ o → t = o))

/-- The steps that keep what is stored.

    * A late value is not stamped with the time of a version that exists.
    * A collected version, which is old and is not the newest, has been persisted.
    * An evicted actor has persisted all its versions, and no two timestamps in cold storage
      are the newest. -/
def Persists (s : Pointer V) : PtrAction V → Prop
  | .message m => ∀ a ∈ s.live, a.FreshStale m
  | .collect now => s.collections ≠ 0 → ∀ a ∈ s.live, a.CollectsPersisted now
  | .expire i => ∀ a ∈ s.live, ∀ e ∈ s.expireQueue[i]?, Evicts e a →
      a.AllPersisted ∧ NewestUnique s.cold
  | _ => True

instance (s : Pointer V) : ∀ x, Decidable (s.Persists x)
  | .message m => inferInstanceAs (Decidable (∀ a ∈ s.live, a.FreshStale m))
  | .collect now =>
    inferInstanceAs (Decidable (s.collections ≠ 0 → ∀ a ∈ s.live, a.CollectsPersisted now))
  | .expire i =>
    inferInstanceAs (Decidable (∀ a ∈ s.live, ∀ e ∈ s.expireQueue[i]?, Evicts e a →
      a.AllPersisted ∧ NewestUnique s.cold))
  | .access _ _ | .closedMessage _ _ | .dequeue _ | .freeze _ => inferInstanceAs (Decidable True)

/-! ## Steps -/

variable {cold : Versions V} {events : List (PtrEvent V)} {a a' : MemActor V} {m : MemMsg V}
  {r : Except Failure (Answer V)}

/-- Nothing of the invariant changes with the mark, the lock and what is queued. -/
theorem Stored.of_history (h : Stored cold events a) (hhistory : a'.history = a.history) :
    Stored cold events a' := by
  obtain ⟨hnodup, hkept, hmarked, hbelow⟩ := h
  rw [← hhistory] at hnodup hkept hmarked hbelow
  exact ⟨hnodup, hkept, hmarked, hbelow⟩

/-- A version is written at `w`, in place of those that were there. -/
theorem Stored.write (h : Stored cold events a) (w : TxnTime) (v : Option V)
    (hhistory : a'.history = a.history.filter (fun x => x.time ≠ w) ++ [{ time := w, value := v }]) :
    Stored cold (.written w v :: events) a' := by
  have hmem : ∀ x, x ∈ a'.history ↔
      (x ∈ a.history ∧ x.time ≠ w) ∨ x = { time := w, value := v } := by
    intro x
    simp [hhistory]
  refine ⟨?_, ?_, ?_, ?_⟩
  · rw [hhistory, List.map_append, List.nodup_append]
    refine ⟨(h.nodup.sublist (List.filter_sublist.map _)), List.nodup_singleton _, ?_⟩
    intro t ht u hu
    obtain ⟨x, hx, rfl⟩ := List.mem_map.mp ht
    rw [List.mem_map] at hu
    obtain ⟨y, hy, rfl⟩ := hu
    rw [List.mem_singleton.mp hy]
    simpa using (List.mem_filter.mp hx).2
  · intro t u hu
    rw [latest_written] at hu
    split_ifs at hu with ht
    · cases hu
      exact .inl ⟨_, (hmem _).mpr (.inr rfl), ht, rfl⟩
    · rcases h.kept t u hu with ⟨x, hx, rfl, rfl⟩ | ⟨hnew, hcold⟩
      · exact .inl ⟨x, (hmem x).mpr (.inl ⟨hx, Ne.symm ht⟩), rfl, rfl⟩
      · refine .inr ⟨fun x hx => ?_, hcold⟩
        rcases (hmem x).mp hx with ⟨hx, -⟩ | rfl
        · exact hnew x hx
        · exact ht
  · intro x hx hmark
    rcases (hmem x).mp hx with ⟨hx, -⟩ | rfl
    · exact h.marked x hx hmark
    · cases hmark
  · intro t u hu
    obtain ⟨x, hx, hle⟩ := h.below t u hu
    by_cases hw : x.time = w
    · exact ⟨_, (hmem _).mpr (.inr rfl), hw ▸ hle⟩
    · exact ⟨x, (hmem x).mpr (.inl ⟨hx, hw⟩), hle⟩

/-- A message keeps what is stored, unless it writes a second version at one time. -/
theorem Stored.message (h : Stored cold events a) (he : MemActor.Effect a m r a')
    (hm : a.FreshStale m) : Stored cold (m.events a r ++ events) a' := by
  have hfilter : ∀ w, (∀ x ∈ a.history, x.time ≠ w) →
      a.history.filter (fun x => x.time ≠ w) = a.history := by
    intro w hw
    rw [List.filter_eq_self]
    intro x hx
    exact decide_eq_true (hw x hx)
  cases he with
  | initFresh t v hempty =>
    refine h.write t (some v) ?_
    rw [hempty]
    rfl
  | staleBlob t w v hlock hstale =>
    simp only [MemMsg.events, hlock, Option.toList_some, List.map_cons, List.map_nil,
      List.cons_append, List.nil_append]
    exact h.write w (some v) (by rw [hfilter w (hm hstale w hlock)])
  | staleDelete t w hlock hstale =>
    simp only [MemMsg.events, hlock, Option.toList_some, List.map_cons, List.map_nil,
      List.cons_append, List.nil_append]
    exact h.write w none (by rw [hfilter w (hm hstale w hlock)])
  | commit t q hlock hqueue =>
    simp only [MemMsg.events, hqueue, Option.toList_some, List.map_cons, List.map_nil,
      List.cons_append, List.nil_append]
    exact h.write t q rfl
  | readFast | readSlow | relock | lock =>
    obtain ⟨hnodup, hkept, hmarked, hbelow⟩ := h
    exact ⟨hnodup, hkept, hmarked, hbelow⟩
  | fail =>
    have hnone : m.events a (.error ‹Failure›) = [] := by cases m <;> rfl
    rw [hnone]
    exact h
  | current | initAgain | refuse => exact h
  | queueBlob | queueDelete | preCommit | reset => exact h.of_history rfl

theorem lookup_upload_of_mem (hnodup : (a.history.map (·.time)).Nodup) {x : HistoryRecord V}
    (hx : x ∈ a.history) (hmark : x.coldStorageTs.isNone) :
    (upload a).lookup x.time = some x.value := by
  refine Versions.lookup_ofList_of_mem (e := ⟨x.time, x.value⟩) ?_ ?_
  · rw [List.map_map]
    exact hnodup.sublist (List.filter_sublist.map _)
  · exact List.mem_map_of_mem (List.mem_filter.mpr ⟨hx, hmark⟩)

theorem lookup_upload_of_not_mem {t : TxnTime}
    (h : ∀ x ∈ a.history, x.coldStorageTs.isNone → x.time ≠ t) : (upload a).lookup t = none := by
  refine Versions.lookup_ofList_of_not_mem fun e he => ?_
  obtain ⟨x, hx, rfl⟩ := List.mem_map.mp he
  obtain ⟨hx, hmark⟩ := List.mem_filter.mp hx
  exact h x hx hmark

/-- In cold storage after a freeze are all versions in memory, and nothing else is new. -/
theorem Stored.lookup_persist (h : Stored cold events a) {x : HistoryRecord V} (hx : x ∈ a.history) :
    (cold.concat (upload a)).lookup x.time = some x.value := by
  rw [Versions.lookup_concat]
  cases hmark : x.coldStorageTs with
  | none =>
    rw [lookup_upload_of_mem h.nodup hx (by rw [hmark]; rfl)]
    rfl
  | some c =>
    rw [lookup_upload_of_not_mem, Option.none_or]
    · exact h.marked x hx (by rw [hmark]; rfl)
    · intro y hy hnone heq
      have hyx : y = x := List.inj_on_of_nodup_map h.nodup hy hx heq
      rw [hyx, hmark] at hnone
      cases hnone

theorem lookup_persist_of_not_mem {t : TxnTime} (h : ∀ x ∈ a.history, x.time ≠ t) :
    (cold.concat (upload a)).lookup t = cold.lookup t := by
  rw [Versions.lookup_concat, lookup_upload_of_not_mem fun x hx _ => h x hx, Option.none_or]

/-- Marking changes neither the time nor the value of a version. -/
theorem mem_markPersisted {now : ℤ} {y : HistoryRecord V} (hy : y ∈ (a.markPersisted now).history) :
    ∃ x ∈ a.history, x.time = y.time ∧ x.value = y.value := by
  obtain ⟨x, hx, rfl⟩ := List.mem_map.mp hy
  refine ⟨x, hx, ?_⟩
  unfold MemActor.persisted
  split_ifs <;> exact ⟨rfl, rfl⟩

theorem markPersisted_mem (now : ℤ) {x : HistoryRecord V} (hx : x ∈ a.history) :
    ∃ y ∈ (a.markPersisted now).history, y.time = x.time ∧ y.value = x.value := by
  refine ⟨MemActor.persisted now x, List.mem_map_of_mem hx, ?_⟩
  unfold MemActor.persisted
  split_ifs <;> exact ⟨rfl, rfl⟩

theorem Stored.persist (h : Stored cold events a) (now : ℤ) :
    Stored (cold.concat (upload a)) events (a.markPersisted now) := by
  refine ⟨?_, ?_, ?_, ?_⟩
  · rw [MemActor.markPersisted_times]
    exact h.nodup
  · intro t v hv
    rcases h.kept t v hv with ⟨x, hx, rfl, rfl⟩ | ⟨hnew, hcold⟩
    · exact .inl (markPersisted_mem now hx)
    · refine .inr ⟨fun y hy => ?_, ?_⟩
      · obtain ⟨x, hx, htime, -⟩ := mem_markPersisted hy
        rw [← htime]
        exact hnew x hx
      · rw [lookup_persist_of_not_mem hnew, hcold]
  · intro y hy _
    obtain ⟨x, hx, htime, hvalue⟩ := mem_markPersisted hy
    rw [← htime, ← hvalue]
    exact h.lookup_persist hx
  · intro t v hv
    by_cases hmem : ∃ x ∈ a.history, x.time = t
    · obtain ⟨x, hx, rfl⟩ := hmem
      obtain ⟨y, hy, htime, -⟩ := markPersisted_mem now hx
      exact ⟨y, hy, htime ▸ TxnTime.le_refl _⟩
    · rw [lookup_persist_of_not_mem fun x hx heq => hmem ⟨x, hx, heq⟩] at hv
      obtain ⟨x, hx, hle⟩ := h.below t v hv
      obtain ⟨y, hy, htime, -⟩ := markPersisted_mem now hx
      exact ⟨y, hy, htime ▸ hle⟩

theorem Stored.collect (h : Stored cold events a) {now : ExactTime} (hold : a.CollectsPersisted now) :
    Stored cold events (a.collectGarbage now) := by
  have hsub := MemActor.collectGarbage_sublist now a
  refine ⟨h.nodup.sublist (hsub.map _), ?_, fun x hx => h.marked x (hsub.subset hx), ?_⟩
  · intro t v hv
    rcases h.kept t v hv with ⟨x, hx, rfl, rfl⟩ | ⟨hnew, hcold⟩
    · by_cases hkeep : x ∈ (a.collectGarbage now).history
      · exact .inl ⟨x, hkeep, rfl, rfl⟩
      -- it was collected, so that it is marked, and no other version has its time
      · refine .inr ⟨fun y hy heq => ?_, h.marked x hx ?_⟩
        · have hyx := List.inj_on_of_nodup_map h.nodup (hsub.subset hy) hx heq
          exact hkeep (hyx ▸ hy)
        · exact hold.isSome hx hkeep
    · exact .inr ⟨fun x hx => hnew x (hsub.subset hx), hcold⟩
  · intro t v hv
    obtain ⟨x, hx, hle⟩ := h.below t v hv
    obtain ⟨y, hy, hxy⟩ := MemActor.le_collectGarbage now hx
    refine ⟨y, hy, ?_⟩
    rw [TxnTime.le_iff] at *
    omega

/-- A restored actor has everything that is in cold storage. -/
theorem Stored.restored {s : Pointer V}
    (h : ∀ t v, latest t events = some v → s.cold.lookup t = some v)
    (now : ℤ) (time : Option TxnTime) : Stored s.cold events (s.restored now time) := by
  refine ⟨nodup_restored now time, fun t v hv => ?_, fun x hx _ => (mem_restored.mp hx).1, ?_⟩
  · exact .inl ⟨⟨t, v, some now⟩, mem_restored.mpr ⟨h t v hv, rfl⟩, rfl, rfl⟩
  · intro t v hv
    exact ⟨⟨t, v, some now⟩, mem_restored.mpr ⟨hv, rfl⟩, t.le_refl⟩

/-- One step that meets `Persists` keeps the invariant. -/
theorem Effect.sound {s : Pointer V} {x : PtrAction V} {live : Option (MemActor V)}
    {closed : List (MemActor V)} (h : Effect s x cold live closed events)
    (hs : Sound s.cold s.live s.events) (hok : s.Persists x) : Sound cold live events := by
  cases h with
  | idle => exact hs
  | load x now time hlive =>
    rw [hlive] at hs
    exact Stored.restored hs now time
  | message m a hlive =>
    rw [hlive] at hs
    exact Stored.message hs (MemActor.receive_effect a m) (hok a hlive)
  | late i t a =>
    have hnone : ∀ u, latest u ((MemMsg.getValue t).events a (a.reply (.getValue t)) ++ s.events) =
        latest u s.events := by
      intro u
      cases a.reply (.getValue t) <;> rfl
    cases hlive : s.live with
    | none =>
      rw [hlive] at hs
      intro u v hv
      exact hs u v ((hnone u).symm.trans hv)
    | some a =>
      rw [hlive] at hs
      exact { hs with kept := fun u v hv => hs.kept u v ((hnone u).symm.trans hv) }
  | persist now a hlive =>
    rw [hlive] at hs
    exact Stored.persist hs now
  | collect now a hlive hsent =>
    rw [hlive] at hs
    exact Stored.collect hs (hok hsent a hlive)
  | evict i a e hlive hexpiry hevicts =>
    rw [hlive] at hs
    obtain ⟨hall, -⟩ := hok a hlive e hexpiry hevicts
    intro t v hv
    rcases Stored.kept hs t v hv with ⟨y, hy, rfl, rfl⟩ | ⟨-, hcold⟩
    · exact Stored.marked hs y hy (hall y hy)
    · exact hcold

/-! ## The current value -/

theorem getCurrentValue_congr (h : a'.history = a.history) :
    a'.getCurrentValue = a.getCurrentValue := by
  unfold MemActor.getCurrentValue
  rw [h]

/-- An actor all of whose versions are in cold storage has the current value of the actor
    that is restored from there. -/
theorem Stored.getCurrentValue_restored {s : Pointer V} (h : Stored s.cold events a)
    (hall : a.AllPersisted) (hunique : NewestUnique s.cold) (now : ℤ) (time : Option TxnTime) :
    (s.restored now time).getCurrentValue = a.getCurrentValue := by
  have hkey : ∀ {t}, t ∈ s.cold.keys → ∃ v, s.cold.lookup t = some v := by
    intro t ht
    exact Option.isSome_iff_exists.mp (AList.lookup_isSome.mpr ht)
  have hmem : ∀ {t v}, s.cold.lookup t = some v → t ∈ s.cold.keys := by
    intro t v hv
    exact AList.lookup_isSome.mp (Option.isSome_iff_exists.mpr ⟨v, hv⟩)
  rcases MemActor.getCurrentValue_cases a with ⟨hempty, hnone⟩ | ⟨x, hx, hvalue, hmax⟩
  · rcases MemActor.getCurrentValue_cases (s.restored now time) with ⟨-, hnone'⟩ | ⟨y, hy, -⟩
    · rw [hnone, hnone']
    · obtain ⟨z, hz, -⟩ := h.below y.time y.value (mem_restored.mp hy).1
      rw [hempty] at hz
      cases hz
  · have hxcold := h.marked x hx (hall x hx)
    rcases MemActor.getCurrentValue_cases (s.restored now time) with
      ⟨hempty, -⟩ | ⟨y, hy, hvalue', hmax'⟩
    · have hxmem : (⟨x.time, x.value, some now⟩ : HistoryRecord V) ∈ (s.restored now time).history :=
        mem_restored.mpr ⟨hxcold, rfl⟩
      rw [hempty] at hxmem
      cases hxmem
    · have hycold := (mem_restored.mp hy).1
      have hyx : y.time = x.time := by
        refine hunique _ (hmem hycold) _ (hmem hxcold) (fun u hu => ?_) ?_
        · obtain ⟨v, hv⟩ := hkey hu
          exact hmax' ⟨u, v, some now⟩ (mem_restored.mpr ⟨hv, rfl⟩)
        · obtain ⟨z, hz, hle⟩ := h.below _ _ hycold
          have := hmax z hz
          rw [TxnTime.le_iff] at *
          omega
      have hvalues : y.value = x.value := Option.some.inj (hycold.symm.trans (hyx ▸ hxcold))
      rw [hvalue, hvalue', hyx, hvalues]

theorem currentValue_of_some {s : Pointer V} (h : s.live = some a) (now : ℤ) :
    s.currentValue now = a.getCurrentValue := by
  rw [currentValue, access_of_some h, h]
  rfl

/-- Eviction and a reload, by whomever, keep the current value. -/
theorem Sound.currentValue_expire {s : Pointer V} {i : ℕ} (h : Sound s.cold s.live s.events)
    (hok : s.Persists (.expire i)) (now : ℤ) (time : Option TxnTime) :
    ((s.expire i).access now time).currentValue now = s.currentValue now := by
  rcases expire_cases i s with ⟨q, hq⟩ | ⟨a, e, hlive, he, hevicts, heq⟩
  · have hcold' : (s.expire i).cold = s.cold := by rw [hq]
    have hlive' : (s.expire i).live = s.live := by rw [hq]
    cases hlive : s.live with
    | none =>
      rw [access_of_none (hlive'.trans hlive), currentValue_of_some rfl, currentValue,
        access_of_none hlive]
      refine getCurrentValue_congr ?_
      rw [restored, restored, hcold']
      rfl
    | some a =>
      rw [access_of_some (hlive'.trans hlive), currentValue_of_some (hlive'.trans hlive),
        currentValue_of_some hlive]
  · rw [hlive] at h
    obtain ⟨hall, hunique⟩ := hok a hlive e he hevicts
    rw [heq, access_of_none rfl, currentValue_of_some rfl, currentValue_of_some hlive]
    exact Stored.getCurrentValue_restored h hall hunique now time

/-! ## Runs -/

theorem sound_run {cold : Versions V} {as : List (PtrAction V)}
    (h : Along step Persists (start cold) as) :
    let s := run step (start cold) as
    Sound s.cold s.live s.events := by
  refine h.invariant (I := fun s => Sound s.cold s.live s.events) ?_ ?_
  · intro s x hs hok
    exact (step_effect s x).sound hs hok
  · intro t v hv
    cases hv

/-- In a run whose steps keep what is stored, everything is durable and eviction keeps the
    current value. -/
theorem durable_run (cold : Versions V) (as : List (PtrAction V))
    (h : Along step Persists (start cold) as) :
    let s := run step (start cold) as
    s.Durable ∧ ∀ i now time, s.Persists (.expire i) →
      ((s.expire i).access now time).currentValue now = s.currentValue now :=
  ⟨(sound_run h).durable, fun _ now time hok => (sound_run h).currentValue_expire hok now time⟩

/-- A transaction initialises the pointer, and the value is stored. It queues another value
    and commits it, and before the next freeze the expiry runs. -/
def lostRun : List (PtrAction ℕ) :=
  let t := TxnTime.ofEpoch 1
  [.access 0 (some t), .message (.init t 0), .dequeue 0, .freeze 0, .message (.writeLock t),
    .message (.writeBlob t 1), .message (.writeCommit t), .expire 0]

/-- The same, with the freeze before the expiry. -/
theorem durable_run_stored :
    let s := run step (start ∅) (lostRun.take 7 ++ [.dequeue 0, .freeze 0])
    s.Durable ∧ ∀ i now time, s.Persists (.expire i) →
      ((s.expire i).access now time).currentValue now = s.currentValue now :=
  durable_run ∅ (lostRun.take 7 ++ [.dequeue 0, .freeze 0]) (by decide)

/-- Two later commits come between a freeze and the collection that it sent, which runs
    when all three versions are old. -/
def collectedRun : List (PtrAction ℕ) :=
  let t := TxnTime.ofEpoch
  [.access 0 (some (t 1)), .message (.init (t 1) 0), .dequeue 0, .freeze 0,
    .message (.writeLock (t 2)), .message (.writeBlob (t 2) 1), .message (.writeCommit (t 2)),
    .message (.writeLock (t 3)), .message (.writeBlob (t 3) 2), .message (.writeCommit (t 3)),
    .collect ⟨100, 0⟩]

theorem not_durable {s : Pointer V} {t : TxnTime} {v : Option V} (hlatest : latest t s.events = some v)
    (hlive : ∀ a ∈ s.live, ∀ x ∈ a.history, x.time ≠ t) (hcold : s.cold.lookup t ≠ some v) :
    ¬s.Durable := by
  intro h
  rcases h t v hlatest with ⟨a, ha, x, hx, htime, -⟩ | hmem
  · exact hlive a ha x hx htime
  · exact hcold hmem

/-- The expiry that runs after the commit sees no new timestamp: it evicts the actor, the
    committed value is lost and the current value changes. The collection removes the
    version of `2`, which was never stored. -/
theorem commit_lost :
    ¬(run step (start ∅) lostRun).Durable ∧
      (run step (start ∅) (lostRun.take 7)).currentValue 0 = some (.ofEpoch 1, some 1) ∧
      (run step (start ∅) lostRun).currentValue 0 = some (.ofEpoch 1, some 0) ∧
      ¬(run step (start ∅) collectedRun).Durable :=
  ⟨not_durable (t := .ofEpoch 1) (v := some 1) (by decide) (by decide) (by decide), by decide,
    by decide, not_durable (t := .ofEpoch 2) (v := some 1) (by decide) (by decide) (by decide)⟩

end Pointer

end ReSTM
