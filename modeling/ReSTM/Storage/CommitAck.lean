import ReSTM.Actors.Executed
import ReSTM.Storage.Awaited
import ReSTM.Storage.NoOrphan

/-!
# What an acknowledged commit says

`commit` maps over the answer of `_commitTxn` and drops the futures of the releases
that it sends, so its own future is complete as soon as they are sent. A client can
be told of its commit before any pointer has carried it out
(`acknowledged_too_early`), and is told so also when they refuse.

`Orderly` is the order that waiting for these futures would bring about: the
completion is delivered after the releases, and no second decision sends the
releases of a commit again before that.

* `acknowledged_commit_complete`: in runs with this order every pointer registered
  under an acknowledged transaction has carried out the commit, and none has
  refused it before.
-/

namespace ReSTM

open Transition

variable {V : Type}

/-- The event is a successful completion of `commit` for `t`. -/
def Event.acks (t : TxnTime) : Event V → Bool
  | .completed _ .commit w true => decide (w = t)
  | _ => false

/-- The message is a release that commits `t`. -/
def Msg.commits (t : TxnTime) : Msg V → Bool
  | .ptr _ (.writeCommit w) => decide (w = t)
  | _ => false

/-- What is sent once for each commit: its release of each lock and its completion. -/
def Msg.ticket : Msg V → Option (Option StringPtr × TxnTime)
  | .ptr x (.writeCommit t) => some (some x, t)
  | .completed _ .commit t true => some (none, t)
  | _ => none

/-- In a list whose entries are pairwise related, so are the one at a position and the
    others. -/
theorem pairwise_eraseIdx {α : Type} {R : α → α → Prop} (hsymm : ∀ a b, R a b → R b a)
    {l : List α} (h : l.Pairwise R) {i : ℕ} {a b : α} (hb : l[i]? = some b)
    (ha : a ∈ l.eraseIdx i) : R a b := by
  obtain ⟨j, hj, hja⟩ := List.mem_eraseIdx_iff_getElem?.mp ha
  obtain ⟨hi', rfl⟩ := List.getElem?_eq_some_iff.mp hb
  obtain ⟨hj', rfl⟩ := List.getElem?_eq_some_iff.mp hja
  rcases Nat.lt_or_gt_of_ne hj with hlt | hlt
  · exact List.pairwise_iff_getElem.mp h j i hj' hi' hlt
  · exact hsymm _ _ (List.pairwise_iff_getElem.mp h i j hi' hj' hlt)

namespace System

variable {s : System V} {a : Action V} {m : Msg V} {x : StringPtr} {t : TxnTime}

/-- A client was told that `t` is committed. -/
def Acked (s : System V) (t : TxnTime) : Prop := ∃ e ∈ s.events, e.acks t = true

instance (s : System V) (t : TxnTime) : Decidable (s.Acked t) :=
  inferInstanceAs (Decidable (∃ e ∈ s.events, e.acks t = true))

/-- The message is delivered in order: a completed commit after all its releases, a
    repeated commit only from a `cleanup` after the completion, and an initial value
    to a pointer that is not locked. -/
def InOrder (s : System V) : Msg V → Prop
  | .completed _ .commit t true => ∀ m ∈ s.net, m.commits t = false
  | .setState .commit caller t => s.outcome t = .COMMIT → caller = none ∧ s.Acked t
  | .ptr x (.init _ _) =>
    ∀ p ∈ s.node.ptrs x, p.actor.history.isEmpty → p.actor.writeLock = none
  | _ => True

instance (s : System V) : ∀ m, Decidable (s.InOrder m)
  | .completed _ .commit t true => inferInstanceAs (Decidable (∀ m ∈ s.net, m.commits t = false))
  | .setState .commit caller t =>
    inferInstanceAs (Decidable (s.outcome t = .COMMIT → caller = none ∧ s.Acked t))
  | .ptr x (.init _ _) =>
    inferInstanceAs (Decidable
      (∀ p ∈ s.node.ptrs x, p.actor.history.isEmpty → p.actor.writeLock = none))
  | .completed _ .commit _ false | .completed _ .reset _ _ | .setState .reset _ _ | .addLock _ _
  | .txnState _ | .ptr _ .getCurrentValue | .ptr _ (.getValue _) | .ptr _ (.writeLock _)
  | .ptr _ (.writeBlob _ _) | .ptr _ (.delete _) | .ptr _ (.writeCommit _)
  | .ptr _ (.writeReset _) =>
    inferInstanceAs (Decidable True)

/-- The step is one of clients that wait for their answers, and delivers in order. -/
def Orderly (s : System V) : Action V → Prop
  | .deliver i => ∀ m ∈ s.net[i]?, s.InOrder m
  | a => s.Awaits a

instance (s : System V) : ∀ a, Decidable (s.Orderly a)
  | .deliver i => inferInstanceAs (Decidable (∀ m ∈ s.net[i]?, s.InOrder m))
  | .call c => inferInstanceAs (Decidable (s.Awaits (.call c)))
  | .tick c => inferInstanceAs (Decidable (s.Awaits (.tick c)))

theorem Orderly.awaits (h : s.Orderly a) : s.Awaits a := by
  cases a with
  | deliver => trivial
  | _ => exact h

theorem Orderly.inOrder (h : s.Orderly a) (hdel : s.Delivers a m) : s.InOrder m := by
  obtain ⟨i, rfl, hi⟩ := hdel
  exact h m hi

/-! ## Steps -/

theorem Acked.step (h : s.Acked t) (a : Action V) : (s.step a).Acked t := by
  obtain ⟨e, he, hacks⟩ := h
  exact ⟨e, mem_events_step he a, hacks⟩

theorem Acked.of_step (h : (s.step a).Acked t) :
    s.Acked t ∨ ∃ c, s.Delivers a (.completed c .commit t true) := by
  obtain ⟨e, he, hacks⟩ := h
  unfold Event.acks at hacks
  split at hacks
  · next c w =>
    obtain rfl := of_decide_eq_true hacks
    refine (completed_of_step he).imp (fun h => ?_) fun h => ⟨c, h⟩
    exact ⟨.completed c .commit w true, h, decide_eq_true rfl⟩
  · cases hacks

/-- The commit of `t` was carried out on `x`. -/
def Done (s : System V) (x : StringPtr) (t : TxnTime) : Prop :=
  ∃ p, s.node.ptrs x = some p ∧ Released t p.log

theorem Done.step (h : s.Done x t) (a : Action V) : (s.step a).Done x t := by
  obtain ⟨p, hp, hreleased⟩ := h
  rcases ptr_step_of_some hp a with hp' | ⟨m, -, hp'⟩
  · exact ⟨p, hp', hreleased⟩
  · exact ⟨_, hp', LoggedActor.Released.step hreleased m⟩

/-- Messages that are sent together have different tickets. -/
theorem issued_pairwise (s : System V) (a : Action V) :
    (s.issued a).Pairwise fun m m' => ∀ k, m.ticket = some k → m'.ticket ≠ some k := by
  rcases step_cases s a with ⟨c, rfl⟩ | ⟨m, hdel⟩ | ⟨-, hissued, -⟩
  · exact List.pairwise_singleton _ _
  · rw [hdel.issued_eq]
    cases m with
    | ptr id m =>
      simp only [handle]
      split
      · exact List.Pairwise.nil
      · refine List.pairwise_of_forall_mem_list fun m hm m' _ k hk => ?_
        rcases mem_afterPtr hm with ⟨time, -, -, rfl⟩ | ⟨c, rfl⟩ <;> cases hk
    | addLock id time =>
      simp only [handle]
      cases (s.node.addLock id time).1 with
      | OPEN => exact List.Pairwise.nil
      | COMMIT | RESET => exact List.pairwise_singleton _ _
    | setState d caller time =>
      simp only [handle, RestmActors.setState]
      cases hr : ((s.node.txns time).setState d.state).1 with
      | error e =>
        cases caller with
        | none => exact List.Pairwise.nil
        | some c => exact List.pairwise_singleton _ _
      | ok locks =>
        obtain ⟨-, rfl⟩ := (TxnActor.setState_ok_iff d.state_ne_open).mp hr
        refine List.pairwise_append.mpr ⟨?_, ?_, ?_⟩
        · -- one release for each lock
          rw [List.pairwise_map]
          refine (s.node.txns time).nodup.imp fun {x y} hne k hx hy => ?_
          cases d with
          | commit => cases hx; cases hy; exact hne rfl
          | reset => cases hx
        · cases caller with
          | none => exact List.Pairwise.nil
          | some c => exact List.pairwise_singleton _ _
        · intro m hm m' hm' k hk hk'
          obtain ⟨x, -, rfl⟩ := List.mem_map.mp hm
          obtain ⟨c, -, rfl⟩ := List.mem_map.mp hm'
          cases d with
          | commit => cases hk; cases hk'
          | reset => cases hk
    | txnState time =>
      simp only [handle]
      cases s.node.txnState time <;> exact List.pairwise_singleton _ _
    | completed => exact List.Pairwise.nil
  · rw [hissued]; exact List.Pairwise.nil

/-- What the log of a run with deliveries in order says. -/
structure InSync (s : System V) : Prop where
  consistent : s.Consistent
  awaited : s.Awaited
  kept : ∀ x p, s.node.ptrs x = some p → p.Kept s.outcome
  held : ∀ x t, x ∈ (s.node.txns t).locks ∨ .addLock x t ∈ s.net →
    s.outcome t = .RESET ∨ s.LockedBy x t ∨ s.Done x t
  releasing : ∀ x t, s.outcome t = .COMMIT → x ∈ (s.node.txns t).locks →
    s.Done x t ∨ .ptr x (.writeCommit t) ∈ s.net
  acked : ∀ t, s.Acked t → s.outcome t = .COMMIT ∧ ∀ x ∈ (s.node.txns t).locks, s.Done x t
  completing : ∀ c t, .completed c .commit t true ∈ s.net → s.outcome t = .COMMIT ∧ ¬s.Acked t
  inFlight : ∀ x t, .ptr x (.writeCommit t) ∈ s.net → s.Acked t ∨ s.LockedBy x t
  once : s.net.Pairwise fun m m' => ∀ k, m.ticket = some k → m'.ticket = some k → s.Acked k.2
  failed : ∀ x t, .failed x (.writeCommit t) ∈ s.events → s.Acked t
  reported : s.events.Pairwise fun later earlier =>
    ∀ c x t, later = .completed c .commit t true → earlier ≠ .failed x (.writeCommit t)

theorem inSync_start (clock : Clock) (cold : StringPtr → List (TxnTime × Option V)) :
    (start clock cold).InSync where
  consistent := consistent_start clock cold
  awaited := awaited_start clock cold
  kept _ _ h := nomatch h
  held _ _ h := h.elim (fun h => absurd h List.not_mem_nil) fun h => absurd h List.not_mem_nil
  releasing _ _ h := nomatch h
  acked _ h := by obtain ⟨e, he, -⟩ := h; exact absurd he List.not_mem_nil
  completing _ _ h := absurd h List.not_mem_nil
  inFlight _ _ h := absurd h List.not_mem_nil
  once := List.Pairwise.nil
  failed _ _ h := absurd h List.not_mem_nil
  reported := List.Pairwise.nil

variable (hs : s.InSync) (ha : s.Orderly a)

include hs ha

theorem InSync.timely {m : MemMsg V} {p : LoggedActor V} (hp : s.node.ptrs x = some p)
    (hdel : s.Delivers a (.ptr x m)) : Timely s.outcome p.actor m := by
  refine hs.awaited.timely hs.consistent hdel.mem p.actor ?_
  rintro t v rfl hempty
  exact ha.inOrder hdel p hp (by simp [hempty])

theorem InSync.kept_step (p' : LoggedActor V) (h : (s.step a).node.ptrs x = some p') :
    p'.Kept (s.step a).outcome := by
  have hmono : ∀ t, s.outcome t ≠ .OPEN → (s.step a).outcome t = s.outcome t :=
    fun t ht => outcome_step a ht
  rcases ptr_step h with hp | ⟨-, now, time, rfl⟩ | ⟨p, m, hp, hdel, rfl⟩
  · exact (hs.kept x p' hp).mono hmono
  · exact LoggedActor.kept_restore
  · exact ((hs.kept x p hp).step (hs.timely ha hp hdel)).mono hmono

/-- A lock stays held until its commit is carried out or it is reset. -/
theorem InSync.lockedBy_step (h : s.LockedBy x t) :
    (s.step a).LockedBy x t ∨
      s.Delivers a (.ptr x (.writeCommit t)) ∧ (s.step a).Done x t ∨ s.outcome t = .RESET := by
  obtain ⟨p, hp, hlock⟩ := h
  rcases ptr_step_of_some hp a with hp' | ⟨m, hdel, hp'⟩
  · exact .inl ⟨p, hp', hlock⟩
  · rcases (hs.kept x p hp).lock_step (hs.timely ha hp hdel) hlock with h | ⟨rfl, h⟩ | h
    · exact .inl ⟨_, hp', h⟩
    · exact .inr (.inl ⟨hdel, _, hp', h⟩)
    · exact .inr (.inr h)

theorem InSync.held_step (h : x ∈ ((s.step a).node.txns t).locks ∨ .addLock x t ∈ (s.step a).net) :
    (s.step a).outcome t = .RESET ∨ (s.step a).LockedBy x t ∨ (s.step a).Done x t := by
  have hold : x ∈ (s.node.txns t).locks ∨ .addLock x t ∈ s.net →
      (s.step a).outcome t = .RESET ∨ (s.step a).LockedBy x t ∨ (s.step a).Done x t := by
    intro h
    have hreset : s.outcome t = .RESET → (s.step a).outcome t = .RESET :=
      state_step_eq (d := .reset) (a := a)
    rcases hs.held x t h with h | h | h
    · exact .inl (hreset h)
    · rcases hs.lockedBy_step ha h with h | ⟨-, h⟩ | h
      · exact .inr (.inl h)
      · exact .inr (.inr h)
      · exact .inl (hreset h)
    · exact .inr (.inr (h.step a))
  rcases h with h | h
  · by_cases hx : x ∈ (s.node.txns t).locks
    · exact hold (.inl hx)
    · exact hold (.inr (delivers_of_locks_step hx h).1.mem)
  · rcases mem_net_step h with h | h
    · exact hold (.inr h)
    · rcases follows_of_issued h with ⟨c, rfl, hc⟩ | ⟨m', hdel, hfollows⟩
      · cases c <;> cases hc
      · cases hfollows with
        | register _ _ p hp hgrant =>
          exact .inr (.inl ⟨_, hdel.ptr_step hp, LoggedActor.lock_of_grant hgrant⟩)

/-- What is delivered to a pointer whose commit is on its way carries it out. -/
theorem InSync.releasing_step (hcommit : (s.step a).outcome t = .COMMIT)
    (hx : x ∈ ((s.step a).node.txns t).locks) :
    (s.step a).Done x t ∨ .ptr x (.writeCommit t) ∈ (s.step a).net := by
  by_cases hold : s.outcome t = .COMMIT
  · have hx' : x ∈ (s.node.txns t).locks := by
      by_contra hnot
      have hopen := (delivers_of_locks_step hnot hx).2
      rw [show (s.node.txns t).state = .COMMIT from hold] at hopen
      cases hopen
    rcases hs.releasing x t hold hx' with h | h
    · exact .inl (h.step a)
    · rcases mem_net_or_delivers h a with h | hdel
      · exact .inr h
      · rcases hs.held x t (.inl hx') with h | ⟨p, hp, hlock⟩ | h
        · rw [hold] at h; cases h
        · left
          rcases hs.lockedBy_step ha ⟨p, hp, hlock⟩ with ⟨p', hp', hlock'⟩ | ⟨-, h⟩ | h
          · rw [hdel.ptr_step hp] at hp'
            rw [← Option.some.inj hp'] at hlock'
            exact absurd hlock'
              (MemActor.Effect.released (d := .commit) (MemActor.receive_effect p.actor _))
          · exact h
          · rw [hold] at h; cases h
        · exact .inl (h.step a)
  · obtain ⟨hopen, caller, hdel⟩ := delivers_of_state_step (d := .commit) hold hcommit
    have hx' : x ∈ (s.node.txns t).locks := by
      by_contra hnot
      cases (delivers_of_locks_step hnot hx).1.unique hdel
    exact .inr (hdel.releases (d := .commit) (.inl hopen) hx')

theorem InSync.acked_step (h : (s.step a).Acked t) :
    (s.step a).outcome t = .COMMIT ∧ ∀ x ∈ ((s.step a).node.txns t).locks, (s.step a).Done x t := by
  rcases h.of_step with h | ⟨c, hdel⟩
  · obtain ⟨hcommit, hdone⟩ := hs.acked t h
    refine ⟨state_step_eq (d := .commit) hcommit a, fun x hx => ?_⟩
    by_cases hx' : x ∈ (s.node.txns t).locks
    · exact (hdone x hx').step a
    · have hopen := (delivers_of_locks_step hx' hx).2
      rw [show (s.node.txns t).state = .COMMIT from hcommit] at hopen
      cases hopen
  · have hcommit := (hs.completing c t hdel.mem).1
    refine ⟨state_step_eq (d := .commit) hcommit a, fun x hx => ?_⟩
    have hx' : x ∈ (s.node.txns t).locks := by
      by_contra hnot
      cases (delivers_of_locks_step hnot hx).1.unique hdel
    rcases hs.releasing x t hcommit hx' with h | h
    · exact h.step a
    · -- the completion waited for the releases
      have := ha.inOrder hdel _ h
      rw [show Msg.commits t (.ptr x (.writeCommit t) : Msg V) = true from decide_eq_true rfl] at this
      cases this

omit ha in
/-- A second message with the ticket of the one delivered is of an acknowledged
    commit. -/
theorem InSync.acked_of_twin {m' : Msg V} {k : Option StringPtr × TxnTime}
    (hdel : s.Delivers a m) (hm' : m' ∈ s.remaining a) (hk : m.ticket = some k)
    (hk' : m'.ticket = some k) : s.Acked k.2 := by
  obtain ⟨i, rfl, hi⟩ := hdel
  exact pairwise_eraseIdx (fun _ _ h k hk hk' => h k hk' hk) hs.once hi hm' k hk' hk

/-- A message with a ticket is sent by a first decision, or after the acknowledgement. -/
theorem InSync.issued_ticket {k : Option StringPtr × TxnTime} (hm : m ∈ s.issued a)
    (hk : m.ticket = some k) :
    ∃ caller, s.Delivers a (.setState .commit caller k.2) ∧
      (s.outcome k.2 = .OPEN ∨ s.Acked k.2 ∧ k.1 ≠ none) ∧
      ∀ y, k.1 = some y → y ∈ (s.node.txns k.2).locks := by
  rcases follows_of_issued hm with ⟨c, rfl, rfl⟩ | ⟨m', hdel, hfollows⟩
  · cases c <;> cases hk
  · cases hfollows with
    | register | probe | decide => cases hk
    | lateRelease d id time hstate =>
      cases d with
      | reset => cases hk
      | commit =>
        have := hs.awaited.answered time (hs.awaited.decided time hstate) _ hdel.mem
        rw [show Msg.pends time (.addLock id time : Msg V) = true from decide_eq_true rfl] at this
        cases this
    | release d caller time id hstate hlock =>
      cases d with
      | reset => cases hk
      | commit =>
        cases hk
        refine ⟨caller, hdel, ?_, fun y hy => by cases hy; exact hlock⟩
        exact hstate.imp_right fun h => ⟨(ha.inOrder hdel h).2, nofun⟩
    | complete d c time ok hok =>
      cases d with
      | reset => cases hk
      | commit =>
        cases ok with
        | false => cases hk
        | true =>
          cases hk
          refine ⟨some c, hdel, .inl ?_, nofun⟩
          exact (hok.mp rfl).resolve_right fun h => (nomatch (ha.inOrder hdel h).1)

theorem InSync.completing_step {c : ℕ} (h : .completed c .commit t true ∈ (s.step a).net) :
    (s.step a).outcome t = .COMMIT ∧ ¬(s.step a).Acked t := by
  rw [step_net, List.mem_append] at h
  rcases h with h | h
  · obtain ⟨hcommit, hnot⟩ := hs.completing c t (mem_of_mem_remaining h)
    refine ⟨state_step_eq (d := .commit) hcommit a, fun hacked => ?_⟩
    rcases hacked.of_step with hacked | ⟨c', hdel⟩
    · exact hnot hacked
    · exact hnot (hs.acked_of_twin hdel h rfl rfl)
  · obtain ⟨caller, hdel, hopen, -⟩ := hs.issued_ticket ha h rfl
    have hopen := hopen.resolve_right fun h => h.2 rfl
    refine ⟨hdel.state_setState (d := .commit) (.inl hopen), fun hacked => ?_⟩
    rcases hacked.of_step with hacked | ⟨c', hdel'⟩
    · have := (hs.acked t hacked).1
      rw [show s.outcome t = .OPEN from hopen] at this; cases this
    · cases hdel.unique hdel'

theorem InSync.inFlight_step (h : .ptr x (.writeCommit t) ∈ (s.step a).net) :
    (s.step a).Acked t ∨ (s.step a).LockedBy x t := by
  rw [step_net, List.mem_append] at h
  rcases h with h | h
  · rcases hs.inFlight x t (mem_of_mem_remaining h) with hacked | hlock
    · exact .inl (hacked.step a)
    · rcases hs.lockedBy_step ha hlock with hlock | ⟨hdel, -⟩ | hreset
      · exact .inr hlock
      · exact .inl (Acked.step (hs.acked_of_twin hdel h rfl rfl) a)
      · have hcommit : s.outcome t = .COMMIT := hs.consistent.net x _ (mem_of_mem_remaining h)
        rw [hreset] at hcommit; cases hcommit
  · obtain ⟨caller, hdel, hopen | ⟨hacked, -⟩, hlocks⟩ := hs.issued_ticket ha h rfl
    · rcases hs.held x t (.inl (hlocks x rfl)) with hreset | hlock | ⟨p, hp, hreleased⟩
      · rw [hreset] at hopen; cases hopen
      · right
        rcases hs.lockedBy_step ha hlock with hlock | ⟨hdel', -⟩ | hreset
        · exact hlock
        · cases hdel.unique hdel'
        · rw [hreset] at hopen; cases hopen
      · rw [((hs.kept x p hp).released t hreleased).1] at hopen; cases hopen
    · exact .inl (hacked.step a)

omit ha in
/-- A message with a ticket is of a committed transaction. -/
theorem InSync.ticket_commit {k : Option StringPtr × TxnTime} (hm : m ∈ s.net)
    (hk : m.ticket = some k) : s.outcome k.2 = .COMMIT := by
  unfold Msg.ticket at hk
  split at hk
  · cases hk; exact hs.consistent.net _ _ hm
  · cases hk; exact (hs.completing _ _ hm).1
  · cases hk

theorem InSync.once_step : (s.step a).net.Pairwise fun m m' =>
    ∀ k, m.ticket = some k → m'.ticket = some k → (s.step a).Acked k.2 := by
  rw [step_net, List.pairwise_append]
  refine ⟨?_, (issued_pairwise s a).imp fun h k hk hk' => absurd hk' (h k hk), ?_⟩
  · have hsub : (s.remaining a).Sublist s.net := by
      cases a with
      | deliver i => exact List.eraseIdx_sublist _ _
      | _ => exact List.Sublist.refl _
    exact (hs.once.sublist hsub).imp fun h k hk hk' => (h k hk hk').step a
  · intro m hm m' hm' k hk hk'
    obtain ⟨caller, -, hopen | ⟨hacked, -⟩, -⟩ := hs.issued_ticket ha hm' hk'
    · rw [hs.ticket_commit (mem_of_mem_remaining hm) hk] at hopen
      cases hopen
    · exact hacked.step a

omit ha in
theorem InSync.failed_step (h : .failed x (.writeCommit t) ∈ (s.step a).events) :
    (s.step a).Acked t := by
  rcases event_step s a with heq | ⟨c, -, heq⟩ | ⟨c, d, time, ok, -, heq⟩ |
    ⟨id, m, p, e, hdel, hp, hr, heq⟩ <;> rw [heq] at h
  · exact (hs.failed x t h).step a
  · exact (hs.failed x t (by simpa using h)).step a
  · exact (hs.failed x t (by simpa using h)).step a
  · rcases List.mem_cons.mp h with h | h
    · cases h
      -- a release that fails finds the lock gone
      rcases hs.inFlight x t hdel.mem with hacked | ⟨p', hp', hlock⟩
      · exact hacked.step a
      · obtain rfl := Option.some.inj (hp'.symm.trans hp)
        exact absurd hr (LoggedActor.reply_writeCommit hlock)
    · exact (hs.failed x t h).step a

omit ha in
theorem InSync.reported_step : (s.step a).events.Pairwise fun later earlier =>
    ∀ c x t, later = .completed c .commit t true → earlier ≠ .failed x (.writeCommit t) := by
  rcases event_step s a with heq | ⟨c, -, heq⟩ | ⟨c, d, time, ok, hdel, heq⟩ |
    ⟨id, m, p, e, -, -, -, heq⟩ <;> rw [heq]
  · exact hs.reported
  · exact hs.reported.cons fun _ _ _ _ _ h => (nomatch h)
  · refine hs.reported.cons fun e he c' x t h hfailed => ?_
    cases h
    exact (hs.completing c time hdel.mem).2 (hs.failed x time (hfailed ▸ he))
  · exact hs.reported.cons fun _ _ _ _ _ h => (nomatch h)

theorem inSync_step : (s.step a).InSync where
  consistent := consistent_step hs.consistent a
  awaited := awaited_step hs.awaited ha.awaits
  kept _ p' h := hs.kept_step ha p' h
  held _ _ h := hs.held_step ha h
  releasing _ _ hcommit hx := hs.releasing_step ha hcommit hx
  acked _ h := hs.acked_step ha h
  completing _ _ h := hs.completing_step ha h
  inFlight _ _ h := hs.inFlight_step ha h
  once := hs.once_step ha
  failed _ _ h := hs.failed_step h
  reported := hs.reported_step

omit hs ha

/-- In every run whose steps are orderly, every pointer registered under a transaction
    whose commit was acknowledged has carried out the commit, so that its value is
    there for every later read; and no commit is acknowledged after a pointer refused
    it. -/
theorem acknowledged_commit_complete (clock : Clock)
    (coldStorage : StringPtr → List (TxnTime × Option V)) (as : List (Action V))
    (horderly : Along step Orderly (start clock coldStorage) as) :
    let s := run step (start clock coldStorage) as
    (∀ t, s.Acked t → ∀ x ∈ (s.node.txns t).locks,
      ∃ p, s.node.ptrs x = some p ∧ LoggedActor.Executed t p) ∧
    s.events.Pairwise fun later earlier =>
      ∀ c x t, later = .completed c .commit t true → earlier ≠ .failed x (.writeCommit t) := by
  intro s
  have hs : s.InSync :=
    horderly.invariant (I := InSync) (fun _ _ hs ha => inSync_step hs ha)
      (inSync_start clock coldStorage)
  refine ⟨fun t hacked x hx => ?_, hs.reported⟩
  obtain ⟨p, hp, hreleased⟩ := (hs.acked t hacked).2 x hx
  exact ⟨p, hp, (hs.kept x p hp).executed hreleased⟩

/-- One pointer is committed before the acknowledgement arrives. -/
theorem acknowledged_commit_complete_one :
    let as : List (Action ℕ) :=
      [.call (.lock ⟨"x"⟩ (.ofEpoch 1)), .deliver 0, .deliver 0,
        .call (.queueValue ⟨"x"⟩ (.ofEpoch 1) 10), .deliver 0,
        .call (.commit 0 (.ofEpoch 1)), .deliver 0, .deliver 0, .deliver 0]
    let s := run step (start ⟨1000, 0⟩ fun _ => []) as
    ∃ p, s.node.ptrs ⟨"x"⟩ = some p ∧ LoggedActor.Executed (.ofEpoch 1) p := by
  intro as s
  have h := acknowledged_commit_complete ⟨1000, 0⟩ (fun _ => []) as (by decide)
  exact h.1 (.ofEpoch 1) (by decide) ⟨"x"⟩ (by decide)

/-- The acknowledgement of transaction 1 arrives before the release of its pointer: a
    read at 2 conflicts with 1, and an untimed read finds nothing. When the commit is
    called a second time, the pointer refuses, and the commit is acknowledged. -/
theorem acknowledged_too_early :
    let early : List (Action ℕ) :=
      [.call (.lock ⟨"x"⟩ (.ofEpoch 1)), .deliver 0, .deliver 0,
        .call (.queueValue ⟨"x"⟩ (.ofEpoch 1) 10), .deliver 0,
        .call (.commit 0 (.ofEpoch 1)), .deliver 0, .deliver 1]
    let s := run step (start ⟨1000, 0⟩ fun _ => []) early
    let s' := run step s
      [.deliver 0, .call (.commit 1 (.ofEpoch 1)), .deliver 0, .deliver 0, .deliver 0]
    (s.Acked (.ofEpoch 1) ∧ ⟨"x"⟩ ∈ (s.node.txns (.ofEpoch 1)).locks ∧
      (s.node.ptrs ⟨"x"⟩).map (fun p => (p.actor.history, p.actor.writeLock)) =
        some ([], some (.ofEpoch 1)) ∧
      (s.node.ptrs ⟨"x"⟩).map (fun p => (p.actor.getValue (.ofEpoch 2)).1) =
        some (.error (.lockedBy (.ofEpoch 1))) ∧
      (s.node.ptrs ⟨"x"⟩).map (fun p => p.actor.getCurrentValue) = some none) ∧
    s'.events.take 2 =
      [.completed 1 .commit (.ofEpoch 1) true, .failed ⟨"x"⟩ (.writeCommit (.ofEpoch 1))] := by
  decide

end System

end ReSTM
