import ReSTM.Common.Guarded
import ReSTM.Common.Transition

/-!
# The registry of a pointer's actors

Model of `getPtrActor` (`storage/actors/RestmActors.scala`, lines 154–185) and of the end of an
expiry (lines 77–80), for one pointer: every access to `ptrs1` or `ptrs2` and every passage of the
monitor of `ptrs2` is a step of its own, and the steps of all callers and of all actors come in
any order. `getOrElseUpdate` of a `TrieMap` looks the key up, computes the value if there is none,
and puts it if there still is none.

An actor is its number, in the order of creation. It is created before its versions are read from
the cold storage, which may fail, and its expiry is one of its own tasks: no other of its tasks
runs during an expiry or after it. `clear` is left out.

* `Registry.serves_one`: there is never more than one live actor, and a call that no expiry
  interferes with does not return one that was removed, if no call has put an actor into `ptrs1`
  after its expiry.
* `Registry.stuck_forever`: else every call returns a closed actor, from then on.
-/

namespace ReSTM

open Transition

/-- What has become of an actor. -/
inductive ActorLife
  | restoring
  | failed
  | serving
  /-- Its expiry, before `ptrs2.remove(id)`. -/
  | removing2
  /-- Before `ptrs1.remove(id)`. -/
  | removing1
  /-- Before `actor.close()`. -/
  | closing
  | closed
deriving DecidableEq

namespace ActorLife

/-- Nobody has begun to remove the actor. -/
def fresh : ActorLife → Bool
  | restoring | failed | serving => true
  | _ => false

/-- The actor has not been removed from `ptrs2`. -/
def present : ActorLife → Bool
  | restoring | failed | serving | removing2 => true
  | _ => false

/-- The actor may have versions that are not in the cold storage. -/
def live : ActorLife → Bool
  | restoring | serving | removing2 => true
  | _ => false

/-- The actor has been removed from both maps. -/
def removed : ActorLife → Bool
  | closing | closed => true
  | _ => false

/-- The expiry of the actor runs. -/
def expiring : ActorLife → Bool
  | removing2 | removing1 | closing => true
  | _ => false

end ActorLife

/-- Where a call of `getPtrActor` is. -/
inductive Lookup
  /-- Before `ptrs1` is searched. -/
  | ptrs1Get
  /-- Before `ptrs2.synchronized`. -/
  | monitorEnter
  /-- Before `ptrs2` is searched. -/
  | ptrs2Get
  /-- Before the actor is created. -/
  | create
  /-- Before it is put into `ptrs2`. -/
  | ptrs2Put (v : ℕ)
  /-- Before the monitor is left. -/
  | monitorExit (v : ℕ)
  /-- Before the actor is put into `ptrs1`. -/
  | ptrs1Put (v : ℕ)
  | returned (v : ℕ)
deriving DecidableEq

namespace Lookup

def inMonitor : Lookup → Bool
  | ptrs2Get | create | ptrs2Put _ | monitorExit _ => true
  | _ => false

/-- The call has found nothing in `ptrs2`. -/
def found2 : Lookup → Bool
  | create | ptrs2Put _ => true
  | _ => false

def actor? : Lookup → Option ℕ
  | ptrs2Put v | monitorExit v | ptrs1Put v | returned v => some v
  | _ => none

end Lookup

structure Registry where
  actors : List ActorLife := []
  ptrs1 : Option ℕ := none
  ptrs2 : Option ℕ := none
  monitor : Bool := false
  threads : List Lookup := []
deriving DecidableEq

/-- Somebody calls, a call goes on, or an actor does: `ok` says whether it could be restored. -/
inductive RegistryAction
  | getPtrActor
  | thread (i : ℕ)
  | actor (v : ℕ) (ok : Bool)
deriving DecidableEq

namespace Registry

/-- A call is at another place. -/
def goto (i : ℕ) (place : Lookup) (s : Registry) : Registry :=
  { s with threads := s.threads.set i place }

/-- Another thing has become of an actor. -/
def become (v : ℕ) (life : ActorLife) (s : Registry) : Registry :=
  { s with actors := s.actors.set v life }

/-- The next step of a call. -/
def stepThread (s : Registry) (i : ℕ) : Lookup → Registry
  | .ptrs1Get =>
    match s.ptrs1 with
    | some v => s.goto i (.returned v)
    | none => s.goto i .monitorEnter
  | .monitorEnter => if s.monitor then s else { s.goto i .ptrs2Get with monitor := true }
  | .ptrs2Get =>
    match s.ptrs2 with
    | some v => s.goto i (.monitorExit v)
    | none => s.goto i .create
  | .create =>
    { s.goto i (.ptrs2Put s.actors.length) with actors := s.actors ++ [.restoring] }
  | .ptrs2Put v =>
    match s.ptrs2 with
    | some w => s.goto i (.monitorExit w)
    | none => { s.goto i (.monitorExit v) with ptrs2 := some v }
  | .monitorExit v => { s.goto i (.ptrs1Put v) with monitor := false }
  | .ptrs1Put v =>
    match s.ptrs1 with
    | some w => s.goto i (.returned w)
    | none => { s.goto i (.returned v) with ptrs1 := some v }
  | .returned _ => s

/-- The next step of an actor. Its expiry was scheduled by one of its tasks, so somebody has got
    the actor. -/
def stepActor (s : Registry) (v : ℕ) (ok : Bool) : ActorLife → Registry
  | .restoring => s.become v (if ok then .serving else .failed)
  | .serving => if .returned v ∈ s.threads then s.become v .removing2 else s
  | .removing2 => { s.become v .removing1 with ptrs2 := none }
  | .removing1 => { s.become v .closing with ptrs1 := none }
  | .closing => s.become v .closed
  | .failed | .closed => s

def step (s : Registry) : RegistryAction → Registry
  | .getPtrActor => { s with threads := s.threads ++ [.ptrs1Get] }
  | .thread i =>
    match s.threads[i]? with
    | some place => s.stepThread i place
    | none => s
  | .actor v ok =>
    match s.actors[v]? with
    | some life => s.stepActor v ok life
    | none => s

variable {s : Registry} {i j : ℕ} {a b : Lookup} {v w : ℕ} {life life' : ActorLife}

/-- The actor exists, and this has become of it. -/
def Is (s : Registry) (v : ℕ) (p : ActorLife → Bool) : Prop :=
  ∃ life, s.actors[v]? = some life ∧ p life = true

/-! ## One actor at a time -/

/-- What holds after any run. -/
structure Inv (s : Registry) : Prop where
  guarded : Guarded Lookup.inMonitor s.monitor s.threads
  /-- Who is about to create an actor is alone in doing so. -/
  absent : ∀ a ∈ s.threads, a.found2 = true → s.ptrs2 = none
  registered : ∀ v, s.Is v ActorLife.live → s.ptrs2 = some v ∨ .ptrs2Put v ∈ s.threads
  current : ∀ v, s.ptrs2 = some v → s.Is v ActorLife.present
  /-- Before it is put into `ptrs2`, nobody else knows of an actor. -/
  hidden : ∀ v, .ptrs2Put v ∈ s.threads → s.Is v ActorLife.fresh ∧ s.ptrs1 ≠ some v ∧
    ∀ a ∈ s.threads, a.actor? = some v → a = .ptrs2Put v
  bound1 : ∀ v, s.ptrs1 = some v → v < s.actors.length
  bound : ∀ a ∈ s.threads, ∀ v, a.actor? = some v → v < s.actors.length

/-- Two live actors are the same. -/
theorem Inv.unique (h : Inv s) (hv : s.Is v ActorLife.live) (hw : s.Is w ActorLife.live) : v = w := by
  rcases h.registered v hv with hv | hv
  · rcases h.registered w hw with hw | hw
    · exact Option.some.inj (hv.symm.trans hw)
    · rw [h.absent _ hw rfl] at hv
      cases hv
  · rcases h.registered w hw with hw | hw
    · rw [h.absent _ hv rfl] at hw
      cases hw
    · -- both are in the monitor
      obtain ⟨i, hi⟩ := List.mem_iff_getElem?.mp hv
      exact Lookup.ptrs2Put.inj (h.guarded.holder_eq hi rfl hw rfl).symm

theorem mem_goto {x : Lookup} (h : x ∈ s.threads.set i b) : x = b ∨ x ∈ s.threads :=
  (List.mem_or_eq_of_mem_set h).symm

/-- A thread that is not the one that goes on stays. -/
theorem mem_goto_of_ne {x : Lookup} (hi : s.threads[i]? = some a) (hx : x ∈ s.threads)
    (hne : x ≠ a) : x ∈ s.threads.set i b := by
  obtain ⟨j, hj⟩ := List.mem_iff_getElem?.mp hx
  refine List.mem_iff_getElem?.mpr ⟨j, ?_⟩
  rw [List.getElem?_set_ne, hj]
  rintro rfl
  exact hne (Option.some.inj (hj.symm.trans hi))

/-- A call that does not put anything goes on with an actor that it had or has found. -/
theorem Inv.goto (h : Inv s) (hi : s.threads[i]? = some a) (hmonitor : b.inMonitor = a.inMonitor)
    (ha : ∀ v, a ≠ .ptrs2Put v) (hb : ∀ v, b ≠ .ptrs2Put v)
    (habsent : b.found2 = true → s.ptrs2 = none)
    (hactor : ∀ v, b.actor? = some v → a.actor? = some v ∨ s.ptrs1 = some v ∨ s.ptrs2 = some v) :
    Inv (s.goto i b) where
  guarded := h.guarded.pass hi hmonitor
  absent x hx hfound := by
    rcases mem_goto hx with rfl | hx
    · exact habsent hfound
    · exact h.absent x hx hfound
  registered v hv := (h.registered v hv).imp_right fun hmem => mem_goto_of_ne hi hmem (ha v).symm
  current := h.current
  hidden v hv := by
    have hmem := (mem_goto hv).resolve_left (hb v).symm
    obtain ⟨hfresh, hne, hknown⟩ := h.hidden v hmem
    refine ⟨hfresh, hne, fun x hx hxv => ?_⟩
    rcases mem_goto hx with rfl | hx
    · rcases hactor v hxv with hav | h1 | h2
      · exact absurd (hknown a (List.mem_of_getElem? hi) hav) (ha v)
      · exact absurd h1 hne
      · rw [h.absent _ hmem rfl] at h2
        cases h2
    · exact hknown x hx hxv
  bound1 := h.bound1
  bound x hx v hxv := by
    rcases mem_goto hx with rfl | hx
    · rcases hactor v hxv with hav | h1 | h2
      · exact h.bound a (List.mem_of_getElem? hi) v hav
      · exact h.bound1 v h1
      · obtain ⟨life, hlife, -⟩ := h.current v h2
        exact (List.getElem?_eq_some_iff.mp hlife).1
    · exact h.bound x hx v hxv

/-- A call enters or leaves the monitor. -/
theorem Inv.monitor (h : Inv s) (hi : s.threads[i]? = some a) {monitor : Bool}
    (hguarded : Guarded Lookup.inMonitor monitor (s.threads.set i b))
    (ha : ∀ v, a ≠ .ptrs2Put v) (hb : b.found2 = false) (hactor : b.actor? = a.actor?) :
    Inv { s.goto i b with monitor := monitor } where
  guarded := hguarded
  absent x hx hfound := by
    rcases mem_goto hx with rfl | hx
    · rw [hb] at hfound
      cases hfound
    · exact h.absent x hx hfound
  registered v hv := (h.registered v hv).imp_right fun hmem => mem_goto_of_ne hi hmem (ha v).symm
  current := h.current
  hidden v hv := by
    have hmem := (mem_goto hv).resolve_left (by rintro rfl; cases hb)
    obtain ⟨hfresh, hne, hknown⟩ := h.hidden v hmem
    refine ⟨hfresh, hne, fun x hx hxv => ?_⟩
    rcases mem_goto hx with rfl | hx
    · exact absurd (hknown a (List.mem_of_getElem? hi) (hactor ▸ hxv)) (ha v)
    · exact hknown x hx hxv
  bound1 := h.bound1
  bound x hx v hxv := by
    rcases mem_goto hx with rfl | hx
    · exact h.bound a (List.mem_of_getElem? hi) v (hactor ▸ hxv)
    · exact h.bound x hx v hxv

theorem is_append {p : ActorLife → Bool} (h : s.Is v p) {threads : List Lookup} :
    Is { s with actors := s.actors ++ [life], threads := threads } v p := by
  obtain ⟨life', hlife, hp⟩ := h
  exact ⟨life', (List.getElem?_append_left (List.getElem?_eq_some_iff.mp hlife).1).trans hlife, hp⟩

/-- A call creates an actor. -/
theorem Inv.create (h : Inv s) (hi : s.threads[i]? = some .create) :
    Inv { s.goto i (.ptrs2Put s.actors.length) with actors := s.actors ++ [.restoring] } where
  guarded := h.guarded.pass hi rfl
  absent x hx _ := h.absent _ (List.mem_of_getElem? hi) rfl
  registered v hv := by
    obtain ⟨life, hlife, hlive⟩ := hv
    rcases Nat.lt_or_ge v s.actors.length with hlt | hge
    · rw [List.getElem?_append_left hlt] at hlife
      exact (h.registered v ⟨life, hlife, hlive⟩).imp_right fun hmem =>
        mem_goto_of_ne hi hmem nofun
    · have hv : v = s.actors.length := by
        have := (List.getElem?_eq_some_iff.mp hlife).1
        rw [List.length_append, List.length_singleton] at this
        omega
      subst hv
      exact .inr (List.mem_of_getElem? (List.getElem?_set_self (List.getElem?_eq_some_iff.mp hi).1))
  current v hv := is_append (h.current v hv)
  hidden v hv := by
    rcases mem_goto hv with heq | hv
    · obtain rfl := Lookup.ptrs2Put.inj heq
      refine ⟨⟨.restoring, by simp, rfl⟩, fun h1 => absurd (h.bound1 _ h1) (Nat.lt_irrefl _), ?_⟩
      intro x hx hxv
      rcases mem_goto hx with rfl | hx
      · rfl
      · exact absurd (h.bound x hx _ hxv) (Nat.lt_irrefl _)
    · -- nobody else is in the monitor
      exact nomatch h.guarded.holder_eq hi rfl hv rfl
  bound1 v hv := by
    rw [List.length_append]
    exact Nat.lt_add_right _ (h.bound1 v hv)
  bound x hx v hxv := by
    rw [List.length_append, List.length_singleton]
    rcases mem_goto hx with rfl | hx
    · cases hxv
      exact Nat.lt_succ_self _
    · exact Nat.lt_succ_of_lt (h.bound x hx v hxv)

theorem Is.imp {p q : ActorLife → Bool} (h : s.Is v p) (hpq : ∀ life, p life = true → q life = true) :
    s.Is v q := by
  obtain ⟨life, hlife, hp⟩ := h
  exact ⟨life, hlife, hpq life hp⟩

/-- A call puts the actor that it has created into `ptrs2`. -/
theorem Inv.put2 (h : Inv s) (hi : s.threads[i]? = some (.ptrs2Put v)) :
    Inv { s.goto i (.monitorExit v) with ptrs2 := some v } := by
  have hguarded : Guarded Lookup.inMonitor s.monitor (s.threads.set i (.monitorExit v)) :=
    h.guarded.pass hi rfl
  have hself : (s.threads.set i (.monitorExit v))[i]? = some (.monitorExit v) :=
    List.getElem?_set_self (List.getElem?_eq_some_iff.mp hi).1
  have hmem := List.mem_of_getElem? hi
  -- it is alone in the monitor
  have halone : ∀ x ∈ s.threads.set i (.monitorExit v), x.inMonitor = true → x = .monitorExit v :=
    fun x hx hin => hguarded.holder_eq hself rfl hx hin
  exact {
    guarded := hguarded
    absent := fun x hx hfound => by
      have hin : x.inMonitor = true := by cases x <;> first | rfl | cases hfound
      rw [halone x hx hin] at hfound
      cases hfound
    registered := fun w hw => by
      rcases h.registered w hw with h2 | hput
      · rw [h.absent _ hmem rfl] at h2
        cases h2
      · cases h.guarded.holder_eq hi rfl hput rfl
        exact .inl rfl
    current := fun w hw => by
      obtain rfl := Option.some.inj hw
      exact Is.imp (h.hidden v hmem).1 fun life hlife => by cases life <;> first | rfl | cases hlife
    hidden := fun w hw => nomatch halone _ hw rfl
    bound1 := h.bound1
    bound := fun x hx w hxw => by
      rcases mem_goto hx with rfl | hx
      · exact h.bound _ hmem w hxw
      · exact h.bound x hx w hxw }

/-- A call puts its actor into `ptrs1`. -/
theorem Inv.put1 (h : Inv s) (hi : s.threads[i]? = some (.ptrs1Put v)) :
    Inv { s.goto i (.returned v) with ptrs1 := some v } := by
  have hmem := List.mem_of_getElem? hi
  have hgoto : Inv (s.goto i (.returned v)) :=
    h.goto hi rfl nofun nofun nofun fun w hw => .inl hw
  refine { hgoto with hidden := fun w hw => ?_, bound1 := fun w hw => ?_ }
  · obtain ⟨hfresh, -, hknown⟩ := hgoto.hidden w hw
    refine ⟨hfresh, fun h1 => ?_, hknown⟩
    obtain rfl := Option.some.inj h1
    have hput := (mem_goto hw).resolve_left nofun
    exact nomatch (h.hidden v hput).2.2 _ hmem rfl
  · obtain rfl := Option.some.inj hw
    exact h.bound _ hmem v rfl

theorem is_become_of_ne {p : ActorLife → Bool} (hne : w ≠ v) :
    (s.become v life).Is w p ↔ s.Is w p := by
  have hget : (s.actors.set v life)[w]? = s.actors[w]? := List.getElem?_set_ne hne.symm
  simp only [Is, become, hget]

theorem is_become_self {p : ActorLife → Bool} (hv : s.actors[v]? = some life) :
    (s.become v life').Is v p ↔ p life' = true := by
  have hget : (s.actors.set v life')[v]? = some life' :=
    List.getElem?_set_self (List.getElem?_eq_some_iff.mp hv).1
  simp only [Is, become, hget, Option.some.injEq, exists_eq_left']

/-- Something becomes of an actor, and a map may lose its entry. -/
theorem Inv.become (h : Inv s) (hv : s.actors[v]? = some life) {p₁ p₂ : Option ℕ}
    (h1 : p₁ = s.ptrs1 ∨ p₁ = none)
    (h2 : p₂ = s.ptrs2 ∨ p₂ = none ∧ life.live = true ∧ life'.live = false)
    (hlive : life'.live = true → life.live = true)
    (hpresent : p₂ = some v → life'.present = true)
    (hfresh : .ptrs2Put v ∈ s.threads → life'.fresh = true) :
    Inv { s.become v life' with ptrs1 := p₁, ptrs2 := p₂ } where
  guarded := h.guarded
  absent x hx hfound := by
    rcases h2 with rfl | ⟨rfl, -⟩
    · exact h.absent x hx hfound
    · rfl
  registered w hw := by
    replace hw : (s.become v life').Is w ActorLife.live := hw
    have hold : s.Is w ActorLife.live := by
      by_cases hwv : w = v
      · subst hwv
        exact ⟨life, hv, hlive ((is_become_self hv).mp hw)⟩
      · exact (is_become_of_ne hwv).mp hw
    rcases h2 with rfl | ⟨rfl, hlife, hlife'⟩
    · exact h.registered w hold
    · -- it was the only one
      obtain rfl := h.unique hold ⟨life, hv, hlife⟩
      rw [is_become_self hv, hlife'] at hw
      cases hw
  current w hw := by
    show (s.become v life').Is w ActorLife.present
    by_cases hwv : w = v
    · subst hwv
      exact (is_become_self hv).mpr (hpresent hw)
    · refine (is_become_of_ne hwv).mpr ?_
      rcases h2 with rfl | ⟨rfl, -⟩
      · exact h.current w hw
      · cases hw
  hidden w hw := by
    obtain ⟨hold, hne, hknown⟩ := h.hidden w hw
    refine ⟨?_, fun heq => ?_, hknown⟩
    · show (s.become v life').Is w ActorLife.fresh
      by_cases hwv : w = v
      · subst hwv
        exact (is_become_self hv).mpr (hfresh hw)
      · exact (is_become_of_ne hwv).mpr hold
    · rcases h1 with rfl | rfl
      · exact hne heq
      · cases heq
  bound1 w hw := by
    show w < (s.actors.set v life').length
    rw [List.length_set]
    rcases h1 with rfl | rfl
    · exact h.bound1 w hw
    · cases hw
  bound x hx w hxw := by
    show w < (s.actors.set v life').length
    rw [List.length_set]
    exact h.bound x hx w hxw

theorem Inv.stepThread (h : Inv s) (hi : s.threads[i]? = some a) : Inv (s.stepThread i a) := by
  have hmem := List.mem_of_getElem? hi
  cases a with
  | ptrs1Get =>
    simp only [Registry.stepThread]
    split
    · next v hv => exact h.goto hi rfl nofun nofun nofun fun w hw => .inr (.inl (hw ▸ hv))
    · exact h.goto hi rfl nofun nofun nofun nofun
  | monitorEnter =>
    simp only [Registry.stepThread]
    split
    · exact h
    · next hfree =>
      refine h.monitor hi ?_ nofun rfl rfl
      exact Guarded.take (Bool.of_not_eq_true hfree ▸ h.guarded) hi rfl
  | ptrs2Get =>
    simp only [Registry.stepThread]
    split
    · next v hv => exact h.goto hi rfl nofun nofun nofun fun w hw => .inr (.inr (hw ▸ hv))
    · next hnone => exact h.goto hi rfl nofun nofun (fun _ => hnone) nofun
  | create => exact h.create hi
  | ptrs2Put v =>
    simp only [Registry.stepThread]
    rw [h.absent _ hmem rfl]
    exact h.put2 hi
  | monitorExit v => exact h.monitor hi (h.guarded.release hi rfl rfl) nofun rfl rfl
  | ptrs1Put v =>
    simp only [Registry.stepThread]
    split
    · next w hw => exact h.goto hi rfl nofun nofun nofun fun u hu => .inr (.inl (hu ▸ hw))
    · exact h.put1 hi
  | returned v => exact h

/-- An actor that is not present is not in `ptrs2`. -/
theorem Inv.not_current (h : Inv s) (hv : s.actors[v]? = some life) (hlife : life.present = false) :
    s.ptrs2 ≠ some v := by
  intro h2
  obtain ⟨life', hlife', hpresent⟩ := h.current v h2
  obtain rfl := Option.some.inj (hv.symm.trans hlife')
  rw [hlife] at hpresent
  cases hpresent

/-- Nor is an actor about to be put there that is not fresh. -/
theorem Inv.not_hidden (h : Inv s) (hv : s.actors[v]? = some life) (hlife : life.fresh = false) :
    .ptrs2Put v ∉ s.threads := by
  intro hput
  obtain ⟨life', hlife', hfresh⟩ := (h.hidden v hput).1
  obtain rfl := Option.some.inj (hv.symm.trans hlife')
  rw [hlife] at hfresh
  cases hfresh

theorem Inv.stepActor (h : Inv s) (hv : s.actors[v]? = some life) (ok : Bool) :
    Inv (s.stepActor v ok life) := by
  cases life with
  | restoring =>
    cases ok <;>
      exact h.become hv (.inl rfl) (.inl rfl) (fun _ => rfl) (fun _ => rfl) fun _ => rfl
  | serving =>
    simp only [Registry.stepActor]
    split
    · next hreturned =>
      refine h.become hv (.inl rfl) (.inl rfl) (fun _ => rfl) (fun _ => rfl) fun hput => ?_
      exact nomatch (h.hidden v hput).2.2 _ hreturned rfl
    · exact h
  | removing2 =>
    exact h.become hv (.inl rfl) (.inr ⟨rfl, rfl, rfl⟩) nofun nofun
      fun hput => absurd hput (h.not_hidden hv rfl)
  | removing1 =>
    have hcurrent := h.not_current hv rfl
    exact h.become hv (.inr rfl) (.inl rfl) nofun (fun h2 => absurd h2 hcurrent)
      fun hput => absurd hput (h.not_hidden hv rfl)
  | closing =>
    have hcurrent := h.not_current hv rfl
    exact h.become hv (.inl rfl) (.inl rfl) nofun (fun h2 => absurd h2 hcurrent)
      fun hput => absurd hput (h.not_hidden hv rfl)
  | failed | closed => exact h

theorem inv_step (h : Inv s) (a : RegistryAction) : Inv (s.step a) := by
  cases a with
  | getPtrActor =>
    have hmem : ∀ x ∈ s.threads ++ [.ptrs1Get], x = .ptrs1Get ∨ x ∈ s.threads := fun x hx =>
      (List.mem_append.mp hx).symm.imp_left List.mem_singleton.mp
    refine ⟨h.guarded.spawn rfl, fun x hx hfound => ?_, fun v hv => ?_, h.current, fun v hv => ?_,
      h.bound1, fun x hx v hxv => ?_⟩
    · rcases hmem x hx with rfl | hx
      · cases hfound
      · exact h.absent x hx hfound
    · exact (h.registered v hv).imp_right (List.mem_append_left _)
    · obtain ⟨hfresh, hne, hknown⟩ := h.hidden v ((hmem _ hv).resolve_left nofun)
      refine ⟨hfresh, hne, fun x hx hxv => ?_⟩
      rcases hmem x hx with rfl | hx
      · cases hxv
      · exact hknown x hx hxv
    · rcases hmem x hx with rfl | hx
      · cases hxv
      · exact h.bound x hx v hxv
  | thread i =>
    simp only [step]
    split
    · next place hi => exact h.stepThread hi
    · exact h
  | actor v ok =>
    simp only [step]
    split
    · next life hv => exact h.stepActor hv ok
    · exact h

theorem inv_run (as : List RegistryAction) : Inv (run step {} as) :=
  run_invariant (I := Inv) (fun _ a h => inv_step h a) as
    ⟨rfl, nofun, fun _ ⟨_, hv, _⟩ => (nomatch hv), nofun, nofun, nofun, nofun⟩

/-! ## What calls return -/

/-- `ptrs1` has an actor that was removed from it. -/
def Stale (s : Registry) : Prop := ∃ v, s.ptrs1 = some v ∧ s.Is v ActorLife.removed

/-- A call puts an actor into `ptrs1` that has been removed meanwhile. -/
def Late (s : Registry) : RegistryAction → Prop
  | .thread i => s.ptrs1 = none ∧ ∃ v, s.threads[i]? = some (.ptrs1Put v) ∧ s.Is v ActorLife.removed
  | _ => False

/-- An expiry begins. -/
def Begins (s : Registry) : RegistryAction → Prop
  | .actor v _ => s.actors[v]? = some .serving ∧ .returned v ∈ s.threads
  | _ => False

/-- No expiry runs. -/
def Quiet (s : Registry) : Prop := ∀ life ∈ s.actors, life.expiring = false

instance (s : Registry) (v : ℕ) (p : ActorLife → Bool) : Decidable (s.Is v p) :=
  decidable_of_iff (∃ life ∈ s.actors[v]?, p life = true) Iff.rfl

instance (s : Registry) (a : RegistryAction) : Decidable (s.Late a) :=
  match a with
  | .thread i =>
    decidable_of_iff (s.ptrs1 = none ∧ ∃ v, v < s.actors.length ∧
        s.threads[i]? = some (.ptrs1Put v) ∧ s.Is v ActorLife.removed) <| by
      refine and_congr_right fun _ => exists_congr fun v => and_iff_right_of_imp ?_
      rintro ⟨-, life, hlife, -⟩
      exact (List.getElem?_eq_some_iff.mp hlife).1
  | .getPtrActor | .actor _ _ => instDecidableFalse

instance (s : Registry) (a : RegistryAction) : Decidable (s.Begins a) :=
  match a with
  | .actor v _ =>
    inferInstanceAs (Decidable (s.actors[v]? = some .serving ∧ .returned v ∈ s.threads))
  | .getPtrActor | .thread _ => instDecidableFalse

instance (s : Registry) : Decidable s.Quiet :=
  inferInstanceAs (Decidable (∀ life ∈ s.actors, life.expiring = false))

/-! ### What one step can do -/

theorem length_le_step (s : Registry) (a : RegistryAction) :
    s.actors.length ≤ (s.step a).actors.length := by
  cases a with
  | getPtrActor => exact Nat.le_refl _
  | thread i =>
    simp only [step]
    split
    · next place _ =>
      cases place with
      | create =>
        show _ ≤ (s.actors ++ [_]).length
        rw [List.length_append]
        exact Nat.le_add_right _ _
      | ptrs1Get | monitorEnter | ptrs2Get | ptrs2Put | ptrs1Put =>
        simp only [stepThread]
        split <;> exact Nat.le_refl _
      | monitorExit | returned => exact Nat.le_refl _
    · exact Nat.le_refl _
  | actor v ok =>
    have hset : ∀ life, s.actors.length ≤ (s.actors.set v life).length :=
      fun _ => Nat.le_of_eq List.length_set.symm
    simp only [step]
    split
    · next life _ =>
      cases life with
      | serving =>
        simp only [stepActor]
        split
        · exact hset _
        · exact Nat.le_refl _
      | failed | closed => exact Nat.le_refl _
      | _ => exact hset _
    · exact Nat.le_refl _

/-- What the step of an actor makes of it. -/
inductive Next (s : Registry) (v : ℕ) (after : Registry) : ActorLife → ActorLife → Prop
  | restored : Next s v after .restoring .serving
  | failed : Next s v after .restoring .failed
  | expires (hreturned : .returned v ∈ s.threads) : Next s v after .serving .removing2
  | remove2 : Next s v after .removing2 .removing1
  | remove1 (hptrs1 : after.ptrs1 = none) : Next s v after .removing1 .closing
  | close : Next s v after .closing .closed

/-- An actor was what it is, has been created, or has made a step. -/
theorem life_step {a : RegistryAction} (h : (s.step a).actors[v]? = some life') :
    s.actors[v]? = some life' ∨ life' = .restoring ∧ s.actors.length ≤ v ∨
      ∃ ok life, a = .actor v ok ∧ s.actors[v]? = some life ∧ Next s v (s.step a) life life' := by
  cases a with
  | getPtrActor => exact .inl h
  | thread i =>
    simp only [step] at h
    split at h
    · next place hi =>
      cases place with
      | create =>
        rcases Nat.lt_or_ge v s.actors.length with hlt | hge
        · exact .inl ((List.getElem?_append_left hlt).symm.trans h)
        · have hlast := (List.getElem?_append_right hge).symm.trans h
          exact .inr (.inl ⟨List.mem_singleton.mp (List.mem_of_getElem? hlast), hge⟩)
      | ptrs1Get | monitorEnter | ptrs2Get | ptrs2Put | ptrs1Put =>
        simp only [stepThread] at h
        split at h <;> exact .inl h
      | monitorExit | returned => exact .inl h
    · exact .inl h
  | actor w ok =>
    cases hw : s.actors[w]? with
    | none =>
      simp only [step, hw] at h
      exact .inl h
    | some life =>
      have hset : ∀ life₁, (s.actors.set w life₁)[v]? = some life' →
          s.actors[v]? = some life' ∨ v = w ∧ life' = life₁ := by
        intro life₁ hget
        by_cases hvw : w = v
        · subst hvw
          rw [List.getElem?_set_self (List.getElem?_eq_some_iff.mp hw).1] at hget
          exact .inr ⟨rfl, (Option.some.inj hget).symm⟩
        · exact .inl ((List.getElem?_set_ne hvw).symm.trans hget)
      have hstep : s.step (.actor w ok) = s.stepActor w ok life := by simp only [step, hw]
      rw [hstep] at h ⊢
      cases life with
      | restoring =>
        refine (hset _ h).imp_right fun ⟨hv, hlife⟩ => .inr ⟨ok, _, hv ▸ rfl, hv ▸ hw, ?_⟩
        rw [hlife]
        cases ok
        · exact .failed
        · exact .restored
      | serving =>
        simp only [stepActor] at h
        split at h
        · next hreturned =>
          refine (hset _ h).imp_right fun ⟨hv, hlife⟩ => .inr ⟨ok, _, hv ▸ rfl, hv ▸ hw, ?_⟩
          rw [hlife]
          exact .expires (hv ▸ hreturned)
        · exact .inl h
      | removing2 =>
        refine (hset _ h).imp_right fun ⟨hv, hlife⟩ => .inr ⟨ok, _, hv ▸ rfl, hv ▸ hw, ?_⟩
        rw [hlife]
        exact .remove2
      | removing1 =>
        refine (hset _ h).imp_right fun ⟨hv, hlife⟩ => .inr ⟨ok, _, hv ▸ rfl, hv ▸ hw, ?_⟩
        rw [hlife]
        exact .remove1 rfl
      | closing =>
        refine (hset _ h).imp_right fun ⟨hv, hlife⟩ => .inr ⟨ok, _, hv ▸ rfl, hv ▸ hw, ?_⟩
        rw [hlife]
        exact .close
      | failed | closed => exact .inl h

/-- `ptrs1` has what it had, or nothing, or what a call has put. -/
theorem ptrs1_step {a : RegistryAction} (h : (s.step a).ptrs1 = some v) :
    s.ptrs1 = some v ∨
      s.ptrs1 = none ∧ ∃ i, a = .thread i ∧ s.threads[i]? = some (.ptrs1Put v) := by
  cases a with
  | getPtrActor => exact .inl h
  | thread i =>
    simp only [step] at h
    split at h
    · next place hi =>
      cases place with
      | ptrs1Put w =>
        simp only [stepThread] at h
        split at h
        · exact .inl h
        · next hnone =>
          obtain rfl := Option.some.inj h
          exact .inr ⟨hnone, i, rfl, hi⟩
      | ptrs1Get | monitorEnter | ptrs2Get | ptrs2Put =>
        simp only [stepThread] at h
        split at h <;> exact .inl h
      | create | monitorExit | returned => exact .inl h
    · exact .inl h
  | actor w ok =>
    simp only [step] at h
    split at h
    · next life hw =>
      cases life with
      | serving =>
        simp only [stepActor] at h
        split at h <;> exact .inl h
      | removing1 => cases h
      | _ => exact .inl h
    · exact .inl h

/-- A call goes on with the actor that it had, one that it has found, or a new one. -/
theorem stepThread_threads (s : Registry) (i : ℕ) (a : Lookup) :
    (s.stepThread i a).threads = s.threads ∨
      ∃ b, (s.stepThread i a).threads = s.threads.set i b ∧ ∀ w, b.actor? = some w →
        a.actor? = some w ∨ s.ptrs1 = some w ∨ s.ptrs2 = some w ∨ w = s.actors.length := by
  cases a with
  | ptrs1Get =>
    right
    simp only [stepThread]
    split
    · next v hv => exact ⟨.returned v, rfl, fun w hw => .inr (.inl (hw ▸ hv))⟩
    · exact ⟨.monitorEnter, rfl, fun w hw => nomatch hw⟩
  | monitorEnter =>
    simp only [stepThread]
    split
    · exact .inl rfl
    · exact .inr ⟨.ptrs2Get, rfl, fun w hw => nomatch hw⟩
  | ptrs2Get =>
    right
    simp only [stepThread]
    split
    · next v hv => exact ⟨.monitorExit v, rfl, fun w hw => .inr (.inr (.inl (hw ▸ hv)))⟩
    · exact ⟨.create, rfl, fun w hw => nomatch hw⟩
  | create =>
    exact .inr ⟨.ptrs2Put s.actors.length, rfl,
      fun w hw => .inr (.inr (.inr (Option.some.inj hw).symm))⟩
  | ptrs2Put v =>
    right
    simp only [stepThread]
    split
    · next u hu => exact ⟨.monitorExit u, rfl, fun w hw => .inr (.inr (.inl (hw ▸ hu)))⟩
    · exact ⟨.monitorExit v, rfl, fun w hw => .inl hw⟩
  | monitorExit v => exact .inr ⟨.ptrs1Put v, rfl, fun w hw => .inl hw⟩
  | ptrs1Put v =>
    right
    simp only [stepThread]
    split
    · next u hu => exact ⟨.returned u, rfl, fun w hw => .inr (.inl (hw ▸ hu))⟩
    · exact ⟨.returned v, rfl, fun w hw => .inl hw⟩
  | returned v => exact .inl rfl

theorem stepActor_threads (s : Registry) (v : ℕ) (ok : Bool) (life : ActorLife) :
    (s.stepActor v ok life).threads = s.threads := by
  cases life with
  | serving =>
    simp only [stepActor]
    split <;> rfl
  | _ => rfl

theorem actor_step {a : RegistryAction} {x : Lookup} (h : (s.step a).threads[j]? = some x)
    (hx : x.actor? = some w) :
    (∃ y, s.threads[j]? = some y ∧ y.actor? = some w) ∨ s.ptrs1 = some w ∨ s.ptrs2 = some w ∨
      w = s.actors.length := by
  cases a with
  | getPtrActor =>
    rcases Nat.lt_or_ge j s.threads.length with hlt | hge
    · exact .inl ⟨x, (List.getElem?_append_left hlt).symm.trans h, hx⟩
    · have hlast := (List.getElem?_append_right hge).symm.trans h
      rw [List.mem_singleton.mp (List.mem_of_getElem? hlast)] at hx
      cases hx
  | thread i =>
    simp only [step] at h
    split at h
    · next place hi =>
      rcases stepThread_threads s i place with heq | ⟨b, heq, hb⟩ <;> rw [heq] at h
      · exact .inl ⟨x, h, hx⟩
      · by_cases hij : i = j
        · subst hij
          rw [List.getElem?_set_self (List.getElem?_eq_some_iff.mp hi).1] at h
          obtain rfl := Option.some.inj h
          exact (hb w hx).imp_left fun ha => ⟨place, hi, ha⟩
        · rw [List.getElem?_set_ne hij] at h
          exact .inl ⟨x, h, hx⟩
    · exact .inl ⟨x, h, hx⟩
  | actor v ok =>
    refine .inl ⟨x, ?_, hx⟩
    simp only [step] at h
    split at h
    · rwa [stepActor_threads] at h
    · exact h

/-! ### Late calls -/

theorem stale_step {a : RegistryAction} (h : (s.step a).Stale) : s.Stale ∨ s.Late a := by
  obtain ⟨v, h1, life', hlife, hremoved⟩ := h
  rcases life_step hlife with hold | ⟨rfl, -⟩ | ⟨ok, life, rfl, hold, hnext⟩
  · rcases ptrs1_step h1 with h1 | ⟨hnone, i, rfl, hi⟩
    · exact .inl ⟨v, h1, life', hold, hremoved⟩
    · exact .inr ⟨hnone, v, hi, life', hold, hremoved⟩
  · cases hremoved
  · cases hnext with
    | remove1 hnone =>
      rw [hnone] at h1
      cases h1
    | close =>
      rcases ptrs1_step h1 with h1 | ⟨-, i, hi, -⟩
      · exact .inl ⟨v, h1, .closing, hold, rfl⟩
      · cases hi
    | _ => cases hremoved

/-- Without late calls, what is in `ptrs1` has not been removed from it. -/
theorem not_stale_run {as : List RegistryAction} (h : Along step (fun s a => ¬s.Late a) {} as) :
    ¬(run step {} as).Stale :=
  h.invariant (I := fun s => ¬s.Stale) (fun _ _ hs ha hstale => (stale_step hstale).elim hs ha)
    fun ⟨_, h1, _⟩ => nomatch h1

/-! ### Calls without an expiry -/

theorem quiet_step {a : RegistryAction} (h : s.Quiet) (ha : ¬s.Begins a) : (s.step a).Quiet := by
  intro life' hmem
  obtain ⟨v, hv⟩ := List.mem_iff_getElem?.mp hmem
  rcases life_step hv with hold | ⟨rfl, -⟩ | ⟨ok, life, rfl, hold, hnext⟩
  · exact h life' (List.mem_of_getElem? hold)
  · rfl
  · have hquiet := h life (List.mem_of_getElem? hold)
    cases hnext with
    | expires hreturned => exact absurd ⟨hold, hreturned⟩ ha
    | remove2 | remove1 => cases hquiet
    | _ => rfl

/-- Fresh actors stay so until an expiry begins. -/
theorem fresh_step {a : RegistryAction} (h : s.Is v ActorLife.fresh) (ha : ¬s.Begins a) :
    (s.step a).Is v ActorLife.fresh := by
  obtain ⟨life, hlife, hfresh⟩ := h
  have hlt : v < (s.step a).actors.length :=
    Nat.lt_of_lt_of_le (List.getElem?_eq_some_iff.mp hlife).1 (length_le_step s a)
  obtain ⟨life', hlife'⟩ : ∃ life', (s.step a).actors[v]? = some life' :=
    ⟨_, List.getElem?_eq_getElem hlt⟩
  refine ⟨life', hlife', ?_⟩
  rcases life_step hlife' with hold | ⟨rfl, -⟩ | ⟨ok, life₀, rfl, hold, hnext⟩
  · rwa [← Option.some.inj (hlife.symm.trans hold)]
  · rfl
  · obtain rfl := Option.some.inj (hlife.symm.trans hold)
    cases hnext with
    | expires hreturned => exact absurd ⟨hold, hreturned⟩ ha
    | restored | failed => rfl
    | _ => cases hfresh

/-- While no expiry runs, every actor in a map is fresh. -/
theorem Inv.fresh (h : Inv s) (hstale : ¬s.Stale) (hquiet : s.Quiet)
    (hv : s.ptrs1 = some v ∨ s.ptrs2 = some v) : s.Is v ActorLife.fresh := by
  rcases hv with h1 | h2
  · have hlt := h.bound1 v h1
    refine ⟨_, List.getElem?_eq_getElem hlt, ?_⟩
    have hexpiring := hquiet _ (List.getElem_mem hlt)
    cases hlife : s.actors[v] with
    | restoring | failed | serving => rfl
    | removing2 | removing1 =>
      rw [hlife] at hexpiring
      cases hexpiring
    | closing | closed =>
      exact absurd ⟨v, h1, _, List.getElem?_eq_getElem hlt, hlife ▸ rfl⟩ hstale
  · obtain ⟨life, hlife, hpresent⟩ := h.current v h2
    refine ⟨life, hlife, ?_⟩
    have hexpiring := hquiet life (List.mem_of_getElem? hlife)
    cases life with
    | restoring | failed | serving => rfl
    | removing2 => cases hexpiring
    | _ => cases hpresent

/-- A call, from its start on: what it has is fresh. -/
structure Undisturbed (i : ℕ) (s : Registry) : Prop where
  inv : Inv s
  stale : ¬s.Stale
  quiet : s.Quiet
  fresh : ∀ x, s.threads[i]? = some x → ∀ v, x.actor? = some v → s.Is v ActorLife.fresh

theorem undisturbed_step {a : RegistryAction} (h : Undisturbed i s) (hlate : ¬s.Late a)
    (ha : ¬s.Begins a) : Undisturbed i (s.step a) where
  inv := inv_step h.inv a
  stale hstale := (stale_step hstale).elim h.stale hlate
  quiet := quiet_step h.quiet ha
  fresh x hx v hxv := by
    rcases actor_step hx hxv with ⟨y, hy, hyv⟩ | h1 | h2 | rfl
    · exact fresh_step (h.fresh y hy v hyv) ha
    · exact fresh_step (h.inv.fresh h.stale h.quiet (.inl h1)) ha
    · exact fresh_step (h.inv.fresh h.stale h.quiet (.inr h2)) ha
    · -- the call has just created the actor
      have hlt := (inv_step h.inv a).bound x (List.mem_of_getElem? hx) _ hxv
      have hnone : ∀ life, s.actors[s.actors.length]? ≠ some life := by simp
      refine ⟨_, List.getElem?_eq_getElem hlt, ?_⟩
      rcases life_step (List.getElem?_eq_getElem hlt) with hold | ⟨hnew, -⟩ | ⟨ok, life, -, hold, -⟩
      · exact absurd hold (hnone _)
      · rw [hnew]
        rfl
      · exact absurd hold (hnone _)

/-- In every run, no two actors of the pointer are live at the same time; and a call during which
    no expiry runs returns one that is fresh, if no call of the run was late. -/
theorem serves_one (as : List RegistryAction) :
    (∀ v w, (run step {} as).Is v ActorLife.live → (run step {} as).Is w ActorLife.live → v = w) ∧
    (Along step (fun s a => ¬s.Late a) {} as → (run step {} as).Quiet →
      ∀ bs, Along step (fun s a => ¬s.Late a ∧ ¬s.Begins a)
        ((run step {} as).step .getPtrActor) bs →
      ∀ v, (run step {} (as ++ .getPtrActor :: bs)).threads[(run step {} as).threads.length]? =
          some (.returned v) →
        (run step {} (as ++ .getPtrActor :: bs)).Is v ActorLife.fresh) := by
  refine ⟨fun v w => (inv_run as).unique, fun hlate hquiet bs hbs v hv => ?_⟩
  rw [run_append, run_cons] at hv ⊢
  have hstart : Undisturbed (run step {} as).threads.length
      ((run step {} as).step .getPtrActor) := by
    refine ⟨inv_step (inv_run as) _, fun h => ?_, quiet_step hquiet id, fun x hx v hxv => ?_⟩
    · exact (stale_step h).elim (not_stale_run hlate) id
    · have hnew : ((run step {} as).threads ++ [.ptrs1Get])[(run step {} as).threads.length]? =
          some .ptrs1Get := List.getElem?_concat_length
      cases hnew.symm.trans hx
      cases hxv
  have hend := hbs.invariant (I := Undisturbed (run step {} as).threads.length)
    (fun _ _ h ha => undisturbed_step h ha.1 ha.2) hstart
  exact hend.fresh _ hv v rfl

/-- Two calls create an actor and find it, and a third finds it after its expiry was scheduled. -/
theorem serves_one_two :
    (run step {} ([.getPtrActor, .getPtrActor, .thread 0, .thread 0, .thread 0, .thread 0,
        .thread 0, .thread 0, .thread 0, .actor 0 true] ++ .getPtrActor :: [.thread 2])).Is 0
      ActorLife.fresh :=
  (serves_one _).2 (by decide) (by decide) [.thread 2] (by decide) 0 (by decide)

/-! ### A closed actor in `ptrs1` -/

/-- `ptrs1` has a closed actor, and nobody has got another one that could still be removed. -/
structure Stuck (v : ℕ) (s : Registry) : Prop where
  ptrs1 : s.ptrs1 = some v
  closed : s.actors[v]? = some .closed
  quiet : s.Quiet
  alone : ∀ w, .returned w ∈ s.threads → ¬s.Is w ActorLife.live

/-- What is kept from when the first `n` calls had been made: none of the later calls goes beyond
    `ptrs1`. -/
structure Kept (v n : ℕ) (s : Registry) : Prop extends Stuck v s where
  inv : Inv s
  later : ∀ j x, n ≤ j → s.threads[j]? = some x → x = .ptrs1Get ∨ x = .returned v

/-- If `ptrs1` has an actor, then no call returns another one, and who searches it is done. -/
theorem stepThread_hit (h1 : s.ptrs1 = some v) (i : ℕ) (a : Lookup) :
    (s.stepThread i a).threads = s.threads ∨ ∃ b, (s.stepThread i a).threads = s.threads.set i b ∧
      (∀ w, b = .returned w → w = v) ∧ (a = .ptrs1Get → b = .returned v) ∧ a ≠ .returned v := by
  cases a with
  | ptrs1Get | ptrs1Put =>
    simp only [stepThread, h1]
    exact .inr ⟨.returned v, rfl, fun w hw => (Lookup.returned.inj hw).symm, fun _ => rfl, nofun⟩
  | monitorEnter =>
    simp only [stepThread]
    split
    · exact .inl rfl
    · exact .inr ⟨.ptrs2Get, rfl, nofun, nofun, nofun⟩
  | ptrs2Get | ptrs2Put =>
    simp only [stepThread]
    split <;> exact .inr ⟨_, rfl, nofun, nofun, nofun⟩
  | create | monitorExit => exact .inr ⟨_, rfl, nofun, nofun, nofun⟩
  | returned => exact .inl rfl

/-- What a call does next, if `ptrs1` has an actor. -/
theorem thread_step {a : RegistryAction} {x : Lookup} (h1 : s.ptrs1 = some v)
    (h : (s.step a).threads[j]? = some x) :
    s.threads[j]? = some x ∨ x = .ptrs1Get ∨ (∀ w, x = .returned w → w = v) ∧
      ∃ y, s.threads[j]? = some y ∧ (y = .ptrs1Get → x = .returned v) ∧ y ≠ .returned v := by
  cases a with
  | getPtrActor =>
    rcases Nat.lt_or_ge j s.threads.length with hlt | hge
    · exact .inl ((List.getElem?_append_left hlt).symm.trans h)
    · have hlast := (List.getElem?_append_right hge).symm.trans h
      exact .inr (.inl (List.mem_singleton.mp (List.mem_of_getElem? hlast)))
  | thread i =>
    simp only [step] at h
    split at h
    · next place hi =>
      rcases stepThread_hit h1 i place with heq | ⟨b, heq, hb⟩ <;> rw [heq] at h
      · exact .inl h
      · by_cases hij : i = j
        · subst hij
          rw [List.getElem?_set_self (List.getElem?_eq_some_iff.mp hi).1] at h
          obtain rfl := Option.some.inj h
          exact .inr (.inr ⟨hb.1, place, hi, hb.2⟩)
        · exact .inl ((List.getElem?_set_ne hij).symm.trans h)
    · exact .inl h
  | actor w ok =>
    simp only [step] at h
    split at h
    · rw [stepActor_threads] at h
      exact .inl h
    · exact .inl h

/-- No expiry can begin. -/
theorem Stuck.not_begins (h : Stuck v s) (a : RegistryAction) : ¬s.Begins a := by
  cases a with
  | getPtrActor | thread => exact id
  | actor w ok =>
    rintro ⟨hserving, hreturned⟩
    exact h.alone w hreturned ⟨_, hserving, rfl⟩

/-- Nothing is taken out of `ptrs1` while no expiry runs. -/
theorem ptrs1_of_quiet (hquiet : s.Quiet) (h1 : s.ptrs1 = some v) (a : RegistryAction) :
    (s.step a).ptrs1 = some v := by
  cases a with
  | getPtrActor => exact h1
  | thread i =>
    simp only [step]
    split
    · next place hi =>
      cases place with
      | ptrs1Get | ptrs1Put => simp only [stepThread, h1]; exact h1
      | monitorEnter | ptrs2Get | ptrs2Put =>
        simp only [stepThread]
        split <;> exact h1
      | create | monitorExit | returned => exact h1
    · exact h1
  | actor w ok =>
    simp only [step]
    split
    · next life hw =>
      have hexpiring := hquiet life (List.mem_of_getElem? hw)
      cases life with
      | serving =>
        simp only [stepActor]
        split <;> exact h1
      | restoring | failed | closed => exact h1
      | removing2 | removing1 | closing => cases hexpiring
    · exact h1

theorem closed_step (h : s.actors[v]? = some .closed) (a : RegistryAction) :
    (s.step a).actors[v]? = some .closed := by
  have hlt := (List.getElem?_eq_some_iff.mp h).1
  have hget := List.getElem?_eq_getElem (Nat.lt_of_lt_of_le hlt (length_le_step s a))
  rw [hget]
  rcases life_step hget with hold | ⟨-, hge⟩ | ⟨ok, life, -, hold, hnext⟩
  · exact hold.symm.trans h
  · exact absurd hlt (Nat.not_lt.mpr hge)
  · obtain rfl := Option.some.inj (h.symm.trans hold)
    cases hnext

/-- A live actor was live, or is new. -/
theorem live_step {a : RegistryAction} (h : (s.step a).Is w ActorLife.live) :
    s.Is w ActorLife.live ∨ s.actors.length ≤ w := by
  obtain ⟨life', hlife, hlive⟩ := h
  rcases life_step hlife with hold | ⟨-, hge⟩ | ⟨ok, life, -, hold, hnext⟩
  · exact .inl ⟨life', hold, hlive⟩
  · exact .inr hge
  · cases hnext with
    | restored | expires => exact .inl ⟨_, hold, rfl⟩
    | _ => cases hlive

theorem kept_step {n : ℕ} (h : Kept v n s) (a : RegistryAction) : Kept v n (s.step a) where
  ptrs1 := ptrs1_of_quiet h.quiet h.ptrs1 a
  closed := closed_step h.closed a
  quiet := quiet_step h.quiet (h.not_begins a)
  alone w hw hlive := by
    obtain ⟨j, hj⟩ := List.mem_iff_getElem?.mp hw
    rcases thread_step h.ptrs1 hj with hold | heq | ⟨hv, -⟩
    · have hmem := List.mem_of_getElem? hold
      rcases live_step hlive with hlive | hge
      · exact h.alone w hmem hlive
      · exact absurd (h.inv.bound _ hmem w rfl) (Nat.not_lt.mpr hge)
    · cases heq
    · obtain rfl := hv w rfl
      obtain ⟨life, hlife, hlive⟩ := hlive
      obtain rfl := Option.some.inj ((closed_step h.closed a).symm.trans hlife)
      cases hlive
  inv := inv_step h.inv a
  later j x hj hx := by
    rcases thread_step h.ptrs1 hx with hold | rfl | ⟨-, y, hy, hhit, hne⟩
    · exact h.later j x hj hold
    · exact .inl rfl
    · exact .inr (hhit ((h.later j y hj hy).resolve_right hne))

/-- Once a closed actor is in `ptrs1` and nobody has got one that is still live, `ptrs1` keeps it,
    whatever comes: every later call is at its first step or has returned the closed actor. -/
theorem stuck_forever (as : List RegistryAction) (v : ℕ) (h : Stuck v (run step {} as))
    (bs : List RegistryAction) :
    Stuck v (run step {} (as ++ bs)) ∧ ∀ j x, (run step {} as).threads.length ≤ j →
      (run step {} (as ++ bs)).threads[j]? = some x → x = .ptrs1Get ∨ x = .returned v := by
  rw [run_append]
  have hstart : Kept v (run step {} as).threads.length (run step {} as) := by
    refine { h with inv := inv_run as, later := fun j x hj hx => ?_ }
    exact absurd (List.getElem?_eq_some_iff.mp hx).1 (Nat.not_lt.mpr hj)
  have hend := run_invariant (I := Kept v _) (fun _ a h => kept_step h a) bs hstart
  exact ⟨hend.toStuck, hend.later⟩

/-- A first call is overtaken by a second one before it puts the actor into `ptrs1`. The actor is
    used by the second and expires, and then the first one goes on. -/
def overtaken : List RegistryAction :=
  [.getPtrActor, .getPtrActor, .thread 0, .thread 0, .thread 0, .thread 0, .thread 0, .thread 0,
    .thread 1, .thread 1, .thread 1, .thread 1, .thread 1, .actor 0 true, .actor 0 true,
    .actor 0 true, .actor 0 true, .actor 0 true, .thread 0]

theorem stuck_overtaken : Stuck 0 (run step {} overtaken) where
  ptrs1 := by decide
  closed := by decide
  quiet := by decide
  alone w hw := by
    have hall : ∀ a ∈ (run step {} overtaken).threads, a = .returned 0 := by decide
    obtain rfl := Lookup.returned.inj (hall _ hw)
    decide

theorem stuck_forever_overtaken :
    Stuck 0 (run step {} (overtaken ++ [.getPtrActor, .thread 2])) :=
  (stuck_forever overtaken 0 stuck_overtaken [.getPtrActor, .thread 2]).1

end Registry

end ReSTM
