import ReSTM.Task.Effects
import Mathlib.Data.List.Nodup

/-!
# Triggers and subscribers

Subscriptions are never removed, but one to a trigger that is not complete belongs to a task
that still waits for it: a task changes its triggers only when it runs, and then they are all
complete.

* `Linked`: how tasks refer to each other.
* `Change.linked`: what keeps it when one task changes and subscribes to others.
-/

namespace ReSTM

open HeapModel

variable {F V : Type}

/-! ## How tasks refer to each other -/

namespace TaskWorld

variable {w w' : TaskWorld F V} {t u s : Ptr} {l : List Ptr} {d e : TaskData F V} {f : F}

/-- How tasks refer to each other.

    * Triggers exist, and every task has a function.
    * A subscriber of a task that is not complete has it among its triggers, and has
      subscribed once; a task has subscribed to every other trigger that is not complete.
    * The triggers of a task with an executor are complete, and a complete task has an
      executor. -/
structure Linked (w : TaskWorld F V) : Prop where
  triggers_mem : ∀ s d, w.tasks.get s = some d → ∀ u ∈ d.triggers, ∃ e, w.tasks.get u = some e
  function : ∀ s d, w.tasks.get s = some d → d.kryoTask.isSome
  waits : ∀ u e, w.tasks.get u = some e → e.isComplete = false →
    ∀ s ∈ e.subscribers, ∃ d, w.tasks.get s = some d ∧ u ∈ d.triggers
  nodup : ∀ u e, w.tasks.get u = some e → e.isComplete = false → e.subscribers.Nodup
  subscribed : ∀ s d, w.tasks.get s = some d → ∀ u ∈ d.triggers, u ≠ s →
    ∀ e, w.tasks.get u = some e → e.isComplete = false → s ∈ e.subscribers
  started : ∀ s d, w.tasks.get s = some d → d.executorId.isSome → w.triggered d = true
  finished : ∀ s d, w.tasks.get s = some d → d.isComplete = true → d.executorId.isSome

theorem Linked.of_tasks (h : Linked w) (htasks : w'.tasks = w.tasks) : Linked w' := by
  obtain ⟨tasks, workQueue, obtained⟩ := w
  obtain ⟨tasks', workQueue', obtained'⟩ := w'
  cases htasks
  exact ⟨h.triggers_mem, h.function, h.waits, h.nodup, h.subscribed, h.started, h.finished⟩

theorem complete_some (h : w.tasks.get u = some e) : w.complete u = e.isComplete := by
  rw [complete, h, Option.any_some]

theorem triggered_congr (h : ∀ u ∈ d.triggers, w'.complete u = w.complete u) :
    w'.triggered d = w.triggered d := by
  unfold triggered
  rw [Bool.eq_iff_iff, List.all_eq_true, List.all_eq_true]
  exact forall₂_congr fun u hu => by rw [h u hu]

theorem triggered_iff : w.triggered d = true ↔ ∀ u ∈ d.triggers, w.complete u = true :=
  List.all_eq_true

/-- A task waits for each of its triggers that is not complete. -/
theorem not_ready_of_mem (hu : u ∈ d.triggers) (he : w.complete u = false) : ¬w.Ready d := by
  intro h
  have := triggered_iff.mp h.2.2.2 u hu
  rw [he] at this
  cases this

/-- A task that waits for a trigger has no executor and is not complete. -/
theorem Linked.waiting (h : Linked w) (hd : w.tasks.get s = some d) (hu : u ∈ d.triggers)
    (he : w.complete u = false) : d.executorId = none ∧ d.isComplete = false := by
  have hexecutor : d.executorId.isSome = false := by
    cases hsome : d.executorId.isSome with
    | false => rfl
    | true =>
      have := triggered_iff.mp (h.started s d hd hsome) u hu
      rw [he] at this
      cases this
  refine ⟨by simpa using hexecutor, ?_⟩
  cases hcomplete : d.isComplete with
  | false => rfl
  | true =>
    have := h.finished s d hd hcomplete
    rw [hexecutor] at this
    cases this

/-- When a task that waited for a trigger can run, it is ready. -/
theorem Linked.ready_iff_runnable (h : Linked w) (hd : w.tasks.get s = some d)
    (hu : u ∈ d.triggers) (he : w.complete u = false) (hd' : w'.tasks.get s = some d) :
    w'.Ready d ↔ w'.runnable s = true := by
  obtain ⟨hexecutor, hincomplete⟩ := h.waiting hd hu he
  obtain ⟨hresult, hexception⟩ : d.result = none ∧ d.exception = none := by
    simpa [TaskData.isComplete] using hincomplete
  rw [runnable, hd', Option.any_some]
  exact ⟨fun hr => hr.2.2.2, fun hr => ⟨hexecutor, hresult, hexception, hr⟩⟩

/-- A task that has an executor does not wait for any task. -/
theorem Linked.not_mem_subscribers (h : Linked w) (hd : w.tasks.get s = some d)
    (hexecutor : d.executorId.isSome) (he : w.tasks.get u = some e)
    (hincomplete : e.isComplete = false) : s ∉ e.subscribers := by
  intro hmem
  obtain ⟨d', hd', hu⟩ := h.waits u e he hincomplete s hmem
  cases hd.symm.trans hd'
  obtain ⟨hnone, -⟩ := h.waiting hd hu ((complete_some he).trans hincomplete)
  rw [hnone] at hexecutor
  cases hexecutor

/-- What is ready depends on a task's own fields and on which tasks are complete. -/
theorem ready_congr (hexecutor : e.executorId = d.executorId) (hresult : e.result = d.result)
    (hexception : e.exception = d.exception) (htriggers : e.triggers = d.triggers)
    (hcomplete : ∀ u ∈ d.triggers, w'.complete u = w.complete u) : w'.Ready e ↔ w.Ready d := by
  have htriggered : w'.triggered e = w.triggered d := by
    rw [← triggered_congr hcomplete, triggered, triggered, htriggers]
  rw [Ready, Ready, hexecutor, hresult, hexception, htriggered]

/-! ## One task changes -/

/-- The task `t` gets the data `d`, and subscribes to the tasks `l`. -/
structure Change (t : Ptr) (d : TaskData F V) (l : List Ptr) (w w' : TaskWorld F V) : Prop where
  self : w'.tasks.get t = some d
  other : ∀ s, s ≠ t → w'.tasks.get s = (w.tasks.get s).map fun e =>
    { e with subscribers := e.subscribers ++ List.replicate (l.count s) t }

/-- What `t` subscribes to gets it as a subscriber. -/
theorem mem_subscribers {m : List Ptr} :
    s ∈ m ++ List.replicate (l.count u) t ↔ s ∈ m ∨ u ∈ l ∧ s = t := by
  rw [List.mem_append, List.mem_replicate, ← Nat.pos_iff_ne_zero, List.count_pos_iff]

theorem nodup_subscribers {m : List Ptr} (hm : m.Nodup) (hl : l.Nodup) (h : u ∈ l → t ∉ m) :
    (m ++ List.replicate (l.count u) t).Nodup := by
  have hcount := List.nodup_iff_count_le_one.mp hl u
  refine List.nodup_append.mpr ⟨hm, List.nodup_replicate.mpr hcount, ?_⟩
  rintro a ha b hb rfl
  obtain ⟨hcount, rfl⟩ := List.mem_replicate.mp hb
  exact h (List.count_pos_iff.mp (Nat.pos_of_ne_zero hcount)) ha

theorem change_set (hlt : t < w.tasks.next) :
    Change t d [] w { w with tasks := w.tasks.set t (some d) } := by
  refine ⟨Heap.get_set_self hlt, fun s hs => ?_⟩
  show (w.tasks.set t _).get s = _
  rw [Heap.get_set_of_ne hs]
  cases w.tasks.get s <;> simp

namespace Change

theorem complete_self (hc : Change t d l w w') : w'.complete t = d.isComplete :=
  complete_some hc.self

theorem complete_of_ne (hc : Change t d l w w') (hs : s ≠ t) : w'.complete s = w.complete s := by
  rw [complete, hc.other s hs, complete]
  cases w.tasks.get s <;> rfl

/-- A task is the one that changes, or only gets subscribers. -/
theorem of_get (hc : Change t d l w w') (he : w'.tasks.get s = some e) :
    s = t ∧ e = d ∨ s ≠ t ∧ ∃ e₀, w.tasks.get s = some e₀ ∧
      e = { e₀ with subscribers := e₀.subscribers ++ List.replicate (l.count s) t } := by
  by_cases hs : s = t
  · subst hs
    exact .inl ⟨rfl, Option.some.inj (he.symm.trans hc.self)⟩
  · rw [hc.other s hs] at he
    obtain ⟨e₀, he₀, heq⟩ := Option.map_eq_some_iff.mp he
    exact .inr ⟨hs, e₀, he₀, heq.symm⟩

/-- A task that exists keeps its triggers, unless it is the one that changes. -/
theorem exists_of_some (hc : Change t d l w w') (he : w.tasks.get s = some e) :
    ∃ e', w'.tasks.get s = some e' ∧ (s ≠ t → e'.triggers = e.triggers) := by
  by_cases hs : s = t
  · exact ⟨d, hs ▸ hc.self, fun hne => absurd hs hne⟩
  · refine ⟨{ e with subscribers := e.subscribers ++ List.replicate (l.count s) t }, ?_, fun _ => rfl⟩
    rw [hc.other s hs, he, Option.map_some]

theorem mem (hc : Change t d l w w') (hs : ∃ e, w.tasks.get s = some e) :
    ∃ e, w'.tasks.get s = some e := by
  obtain ⟨e, he⟩ := hs
  obtain ⟨e', he', -⟩ := hc.exists_of_some he
  exact ⟨e', he'⟩

/-- Another task that has an executor and is not complete stays so. -/
theorem running (hc : Change t d l w w') (hs : s ≠ t)
    (he : ∃ e, w.tasks.get s = some e ∧ e.executorId.isSome ∧ e.isComplete = false) :
    ∃ e, w'.tasks.get s = some e ∧ e.executorId.isSome ∧ e.isComplete = false := by
  obtain ⟨e, he, hexecutor, hincomplete⟩ := he
  refine ⟨{ e with subscribers := e.subscribers ++ List.replicate (l.count s) t }, ?_, hexecutor,
    hincomplete⟩
  rw [hc.other s hs, he, Option.map_some]

/-- The tasks `m` still wait for `t`, which may be one of them. -/
theorem waits_self (hc : Change t d l w w') {m : List Ptr}
    (h : ∀ s ∈ m, ∃ e, w.tasks.get s = some e ∧ t ∈ e.triggers)
    (hself : t ∈ m → t ∈ d.triggers) :
    ∀ s ∈ m, ∃ e, w'.tasks.get s = some e ∧ t ∈ e.triggers := by
  intro s hs
  by_cases hst : s = t
  · subst hst
    exact ⟨d, hc.self, hself hs⟩
  · obtain ⟨e, he, hmem⟩ := h s hs
    obtain ⟨e', he', htriggers⟩ := hc.exists_of_some he
    exact ⟨e', he', by rw [htriggers hst]; exact hmem⟩

/-- If `t` is complete just when it was, so is every task. -/
theorem complete_eq (hc : Change t d l w w') (h : d.isComplete = w.complete t) (u : Ptr) :
    w'.complete u = w.complete u := by
  by_cases hu : u = t
  · rw [hu, hc.complete_self, h]
  · exact hc.complete_of_ne hu

theorem linked (hc : Change t d l w w') (h : Linked w)
    (htriggers : ∀ u ∈ d.triggers, ∃ e, w'.tasks.get u = some e)
    (hfunction : d.kryoTask.isSome)
    (hself : d.isComplete = false →
      (∀ s ∈ d.subscribers, ∃ e, w'.tasks.get s = some e ∧ t ∈ e.triggers) ∧ d.subscribers.Nodup)
    (hsubscribers : d.isComplete = false →
      ∀ s e, s ≠ t → w.tasks.get s = some e → t ∈ e.triggers → s ∈ d.subscribers)
    (hold : ∀ u e, u ≠ t → w.tasks.get u = some e → e.isComplete = false → t ∈ e.subscribers →
      u ∈ d.triggers ∧ u ∉ l)
    (hnew : ∀ u e, u ≠ t → w.tasks.get u = some e → e.isComplete = false → u ∈ d.triggers →
      t ∈ e.subscribers ∨ u ∈ l)
    (hl : l.Nodup) (hsub : ∀ u ∈ l, u ∈ d.triggers)
    (hmono : w.complete t = true → d.isComplete = true)
    (hstarted : d.executorId.isSome → w'.triggered d = true)
    (hfinished : d.isComplete = true → d.executorId.isSome) : Linked w' where
  triggers_mem s e he u hu := by
    rcases hc.of_get he with ⟨rfl, rfl⟩ | ⟨hs, e₀, he₀, rfl⟩
    · exact htriggers u hu
    · exact hc.mem (h.triggers_mem s e₀ he₀ u hu)
  function s e he := by
    rcases hc.of_get he with ⟨rfl, rfl⟩ | ⟨hs, e₀, he₀, rfl⟩
    · exact hfunction
    · exact h.function s e₀ he₀
  waits u e he hincomplete s hs := by
    rcases hc.of_get he with ⟨rfl, rfl⟩ | ⟨hu, e₀, he₀, rfl⟩
    · exact (hself hincomplete).1 s hs
    · by_cases hst : s = t
      · subst hst
        refine ⟨d, hc.self, ?_⟩
        rcases mem_subscribers.mp hs with hs | ⟨hul, -⟩
        · exact (hold u e₀ hu he₀ hincomplete hs).1
        · exact hsub u hul
      · have hs := (mem_subscribers.mp hs).resolve_right fun heq => hst heq.2
        obtain ⟨e₁, he₁, hmem⟩ := h.waits u e₀ he₀ hincomplete s hs
        obtain ⟨e₂, he₂, htr⟩ := hc.exists_of_some he₁
        exact ⟨e₂, he₂, by rw [htr hst]; exact hmem⟩
  nodup u e he hincomplete := by
    rcases hc.of_get he with ⟨rfl, rfl⟩ | ⟨hu, e₀, he₀, rfl⟩
    · exact (hself hincomplete).2
    · refine nodup_subscribers (h.nodup u e₀ he₀ hincomplete) hl fun hul hmem => ?_
      exact (hold u e₀ hu he₀ hincomplete hmem).2 hul
  subscribed s e he u hu hne e' he' hincomplete := by
    rcases hc.of_get he with ⟨rfl, rfl⟩ | ⟨hs, e₀, he₀, rfl⟩
    · obtain ⟨-, e₀, he₀, rfl⟩ := (hc.of_get he').resolve_left fun heq => hne heq.1
      have hmem := hnew u e₀ hne he₀ hincomplete hu
      exact mem_subscribers.mpr (hmem.imp_right fun hul => ⟨hul, rfl⟩)
    · rcases hc.of_get he' with ⟨rfl, rfl⟩ | ⟨hut, e₁, he₁, rfl⟩
      · exact hsubscribers hincomplete s e₀ hs he₀ hu
      · exact List.mem_append_left _ (h.subscribed s e₀ he₀ u hu hne e₁ he₁ hincomplete)
  started s e he hexecutor := by
    rcases hc.of_get he with ⟨rfl, rfl⟩ | ⟨hs, e₀, he₀, rfl⟩
    · exact hstarted hexecutor
    · have htriggered := triggered_iff.mp (h.started s e₀ he₀ hexecutor)
      refine triggered_iff.mpr fun u hu => ?_
      by_cases hut : u = t
      · subst hut
        rw [hc.complete_self]
        exact hmono (htriggered u hu)
      · rw [hc.complete_of_ne hut]
        exact htriggered u hu
  finished s e he hcomplete := by
    rcases hc.of_get he with ⟨rfl, rfl⟩ | ⟨hs, e₀, he₀, rfl⟩
    · exact hfinished hcomplete
    · exact h.finished s e₀ he₀ hcomplete

/-- A task whose triggers are complete keeps them and its subscribers, and has an executor. -/
theorem linked_keep {d' : TaskData F V} (hc : Change t d' [] w w') (h : Linked w)
    (hd : w.tasks.get t = some d) (hincomplete : d.isComplete = false)
    (htriggered : w.triggered d = true) (hfunction : d'.kryoTask = d.kryoTask)
    (htriggers : d'.triggers = d.triggers) (hsubscribers : d'.subscribers = d.subscribers)
    (hexecutor : d'.executorId.isSome) : Linked w' := by
  refine hc.linked h ?_ (hfunction ▸ h.function t d hd) ?_ ?_ ?_ ?_ List.nodup_nil ?_ ?_ ?_ ?_
  · exact fun u hu => hc.mem (h.triggers_mem t d hd u (htriggers ▸ hu))
  · intro _
    rw [hsubscribers]
    refine ⟨hc.waits_self (h.waits t d hd hincomplete) fun ht => ?_, h.nodup t d hd hincomplete⟩
    obtain ⟨e, he, hmem⟩ := h.waits t d hd hincomplete t ht
    cases hd.symm.trans he
    exact htriggers ▸ hmem
  · intro _ s e hs he hmem
    rw [hsubscribers]
    exact h.subscribed s e he t hmem (Ne.symm hs) d hd hincomplete
  · intro u e _ he hinc hs
    obtain ⟨e', he', hmem⟩ := h.waits u e he hinc t hs
    cases hd.symm.trans he'
    exact ⟨htriggers ▸ hmem, List.not_mem_nil⟩
  · intro u e hu he hinc hmem
    exact .inl (h.subscribed t d hd u (htriggers ▸ hmem) hu e he hinc)
  · intro u hu
    cases hu
  · intro hcomp
    rw [complete_some hd, hincomplete] at hcomp
    cases hcomp
  · intro _
    rw [triggered_iff, htriggers]
    intro u hu
    have hcomp := triggered_iff.mp htriggered u hu
    have hut : u ≠ t := by
      rintro rfl
      rw [complete_some hd, hincomplete] at hcomp
      cases hcomp
    rw [hc.complete_of_ne hut]
    exact hcomp
  · intro _
    exact hexecutor

end Change

end TaskWorld

end ReSTM
