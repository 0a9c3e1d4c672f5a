import ReSTM.Storage.RestmImpl

/-!
# What one step does

A step takes at most one message out of those in flight, changes at most one
actor, and sends the messages that follow. The lemmas here say so once, one
component at a time; the invariants of runs are proved from them and do not
unfold `System.step`.

* `mem_net_step`, `mem_net_or_delivers`: the messages in flight.
* `issued_ptr`, `issued_addLock`, `issued_setState`, `issued_completed`: where each
  kind of message comes from.
* `txn_step`, `ptr_step`, `event_step`: transactions, pointers and events.
-/

namespace ReSTM

namespace System

variable {V : Type} {s : System V} {a : Action V} {m m' : Msg V} {x : StringPtr}
  {p p' : LoggedActor V} {t : TxnTime} {d : Decision} {caller : Option ℕ}

/-- The action delivers the message. -/
def Delivers (s : System V) (a : Action V) (m : Msg V) : Prop :=
  ∃ i, a = .deliver i ∧ s.net[i]? = some m

/-- The messages that the action sends. -/
def issued (s : System V) : Action V → List (Msg V)
  | .call c => [c.msg]
  | .tick _ => []
  | .deliver i => (s.net[i]?).toList.flatMap fun m => (s.handle m).2

/-- The messages that the action leaves in flight. -/
def remaining (s : System V) : Action V → List (Msg V)
  | .deliver i => s.net.eraseIdx i
  | _ => s.net

theorem Delivers.unique (h : s.Delivers a m) (h' : s.Delivers a m') : m = m' := by
  obtain ⟨i, rfl, hi⟩ := h
  obtain ⟨j, hj, hj'⟩ := h'
  cases hj
  exact Option.some.inj (hi.symm.trans hj')

theorem Delivers.mem (h : s.Delivers a m) : m ∈ s.net := by
  obtain ⟨i, -, hi⟩ := h
  exact List.mem_of_getElem? hi

/-- The messages that follow from one message do not depend on the others. -/
theorem handle_outs (s : System V) (net : List (Msg V)) (m : Msg V) :
    ({ s with net := net }.handle m).2 = (s.handle m).2 := by
  cases m with
  | ptr id m => simp only [handle]; split <;> rfl
  | _ => rfl

theorem handle_net (s : System V) (m : Msg V) : (s.handle m).1.net = s.net := by
  cases m with
  | ptr id m => simp only [handle]; split <;> rfl
  | _ => rfl

/-- Handling a message, written with `Delivers`. -/
theorem Delivers.step_eq (h : s.Delivers a m) :
    s.step a = ({ s with net := s.remaining a }.handle m).1.sendAll (s.handle m).2 := by
  obtain ⟨i, rfl, hi⟩ := h
  simp only [step, hi, remaining, handle_outs]

theorem Delivers.issued_eq (h : s.Delivers a m) : s.issued a = (s.handle m).2 := by
  obtain ⟨i, rfl, hi⟩ := h
  simp [issued, hi]

/-- An action calls, lets time pass, delivers nothing, or delivers one message. -/
theorem step_cases (s : System V) (a : Action V) :
    (∃ c, a = .call c) ∨ (∃ m, s.Delivers a m) ∨
      ((∃ clock, s.step a = { s with clock := clock }) ∧ s.issued a = [] ∧ ∀ c, a ≠ .call c) := by
  cases a with
  | call c => exact .inl ⟨c, rfl⟩
  | tick clock => exact .inr (.inr ⟨⟨clock, rfl⟩, rfl, by simp⟩)
  | deliver i =>
    cases hi : s.net[i]? with
    | some m => exact .inr (.inl ⟨m, i, rfl, hi⟩)
    | none => exact .inr (.inr ⟨⟨s.clock, by simp [step, hi]⟩, by simp [issued, hi], by simp⟩)

/-! ## Messages in flight -/

theorem step_net (s : System V) (a : Action V) :
    (s.step a).net = s.remaining a ++ s.issued a := by
  rcases step_cases s a with ⟨c, rfl⟩ | ⟨m, h⟩ | ⟨⟨clock, h⟩, hissued, hcall⟩
  · simp [step, remaining, issued]
  · rw [h.step_eq, sendAll_net, handle_net, h.issued_eq]
  · rw [h, hissued, List.append_nil]
    cases a with
    | call c => exact absurd rfl (hcall c)
    | tick => rfl
    | deliver i =>
      cases hi : s.net[i]? with
      | none => exact (List.eraseIdx_of_length_le (List.getElem?_eq_none_iff.mp hi)).symm
      | some m =>
        have hnet := congrArg (fun s : System V => s.net) h
        simp only [Delivers.step_eq ⟨i, rfl, hi⟩, sendAll_net, handle_net,
          ← Delivers.issued_eq ⟨i, rfl, hi⟩, hissued, List.append_nil] at hnet
        exact hnet.symm

theorem mem_of_mem_remaining (h : m ∈ s.remaining a) : m ∈ s.net := by
  cases a with
  | deliver i => exact List.mem_of_mem_eraseIdx h
  | _ => exact h

/-- A message in flight was so before, or has just been sent. -/
theorem mem_net_step (h : m ∈ (s.step a).net) : m ∈ s.net ∨ m ∈ s.issued a := by
  rw [step_net, List.mem_append] at h
  exact h.imp_left mem_of_mem_remaining

theorem mem_net_of_issued (h : m ∈ s.issued a) : m ∈ (s.step a).net := by
  rw [step_net, List.mem_append]; exact .inr h

/-- A message stays in flight until it is delivered. -/
theorem mem_net_or_delivers (h : m ∈ s.net) (a : Action V) :
    m ∈ (s.step a).net ∨ s.Delivers a m := by
  rw [step_net, List.mem_append]
  cases a with
  | deliver i =>
    obtain ⟨j, hj⟩ := List.mem_iff_getElem?.mp h
    by_cases hij : j = i
    · subst hij; exact .inr ⟨j, rfl, hj⟩
    · exact .inl (.inl (List.mem_eraseIdx_iff_getElem?.mpr ⟨j, hij, hj⟩))
  | _ => exact .inl (.inl h)

/-! ## Where messages come from -/

theorem mem_afterPtr {clock : Clock} {id : StringPtr} {m' : MemMsg V}
    {r : Except Failure (Answer V)} (h : m ∈ afterPtr clock id m' r) :
    (∃ time, m' = .writeLock time ∧ r = .ok (.conflicting none) ∧ m = .addLock id time) ∨
      ∃ c, m = .txnState c := by
  unfold afterPtr at h
  split at h
  · obtain ⟨c, -, hc⟩ := List.mem_flatMap.mp h
    unfold cleanupExpired at hc
    split at hc
    · exact .inr ⟨c, List.mem_singleton.mp hc⟩
    · exact absurd hc List.not_mem_nil
  · exact .inl ⟨_, rfl, rfl, List.mem_singleton.mp h⟩
  · unfold cleanupExpired at h
    split at h
    · exact .inr ⟨_, List.mem_singleton.mp h⟩
    · exact absurd h List.not_mem_nil
  · exact absurd h List.not_mem_nil

/-- A message that follows from one delivered: the registration of a lock, the
    release of a lock, a look at a transaction's state, a decision of `cleanup`, or the
    completion of a client's decision. -/
inductive Follows (s : System V) : Msg V → Msg V → Prop
  | register (id : StringPtr) (time : TxnTime) (p : LoggedActor V) (hp : s.node.ptrs id = some p)
      (hgrant : p.actor.reply (.writeLock time) = .ok (.conflicting none)) :
      Follows s (.ptr id (.writeLock time)) (.addLock id time)
  | probe (id : StringPtr) (m : MemMsg V) (c : TxnTime) : Follows s (.ptr id m) (.txnState c)
  | lateRelease (d : Decision) (id : StringPtr) (time : TxnTime)
      (hstate : (s.node.txns time).state = d.state) :
      Follows s (.addLock id time) (.ptr id (d.release time))
  | release (d : Decision) (caller : Option ℕ) (time : TxnTime) (id : StringPtr)
      (hstate : (s.node.txns time).state = .OPEN ∨ (s.node.txns time).state = d.state)
      (hlock : id ∈ (s.node.txns time).locks) :
      Follows s (.setState d caller time) (.ptr id (d.release time))
  | complete (d : Decision) (c : ℕ) (time : TxnTime) (ok : Bool)
      (hok : ok = true ↔ (s.node.txns time).state = .OPEN ∨ (s.node.txns time).state = d.state) :
      Follows s (.setState d (some c) time) (.completed c d time ok)
  | decide (d : Decision) (time : TxnTime)
      (hcommit : d = .commit ↔ (s.node.txns time).state = .COMMIT) :
      Follows s (.txnState time) (.setState d none time)

theorem follows_of_mem_handle (h : m' ∈ (s.handle m).2) : s.Follows m m' := by
  cases m with
  | ptr id m =>
    simp only [handle] at h
    split at h
    · exact absurd h List.not_mem_nil
    · next p hp =>
      rcases mem_afterPtr h with ⟨time, rfl, hgrant, rfl⟩ | ⟨c, rfl⟩
      · exact .register id time p hp hgrant
      · exact .probe id m c
  | addLock id time =>
    simp only [handle, RestmActors.addLock, TxnActor.addLock_fst] at h
    cases hstate : (s.node.txns time).state with
    | OPEN => rw [hstate] at h; exact absurd h List.not_mem_nil
    | COMMIT => rw [hstate] at h; rw [List.mem_singleton.mp h]; exact .lateRelease .commit id time hstate
    | RESET => rw [hstate] at h; rw [List.mem_singleton.mp h]; exact .lateRelease .reset id time hstate
  | setState d caller time =>
    simp only [handle, RestmActors.setState] at h
    cases hr : ((s.node.txns time).setState d.state).1 with
    | ok locks =>
      obtain ⟨hstate, rfl⟩ := (TxnActor.setState_ok_iff d.state_ne_open).mp hr
      rw [hr] at h
      rcases List.mem_append.mp h with h | h
      · obtain ⟨id, hid, rfl⟩ := List.mem_map.mp h
        exact .release d caller time id hstate hid
      · obtain ⟨c, hc, rfl⟩ := List.mem_map.mp h
        obtain rfl := Option.mem_toList.mp hc
        exact .complete d c time true (by simpa using hstate)
    | error e =>
      rw [hr] at h
      obtain ⟨c, hc, rfl⟩ := List.mem_map.mp h
      obtain rfl := Option.mem_toList.mp hc
      refine .complete d c time false (iff_of_false (by decide) fun hstate => ?_)
      have := (TxnActor.setState_ok_iff d.state_ne_open).mpr ⟨hstate, rfl⟩
      rw [hr] at this; cases this
  | txnState time =>
    simp only [handle, RestmActors.txnState, TxnActor.getState] at h
    cases hstate : (s.node.txns time).state <;> rw [hstate] at h <;> rw [List.mem_singleton.mp h] <;>
      exact .decide _ time (by simp [hstate])
  | completed => exact absurd h List.not_mem_nil

/-- Every message that is sent is the first of a call or follows from the one
    delivered. -/
theorem follows_of_issued (h : m ∈ s.issued a) :
    (∃ c, a = .call c ∧ m = c.msg) ∨ ∃ m', s.Delivers a m' ∧ s.Follows m' m := by
  cases a with
  | call c => exact .inl ⟨c, rfl, List.mem_singleton.mp h⟩
  | tick => exact absurd h List.not_mem_nil
  | deliver i =>
    cases hi : s.net[i]? with
    | none => simp [issued, hi] at h
    | some m' =>
      have hdel : s.Delivers (.deliver i) m' := ⟨i, rfl, hi⟩
      exact .inr ⟨m', hdel, follows_of_mem_handle (hdel.issued_eq ▸ h)⟩

theorem Delivers.issues (h : s.Delivers a m) (hm : m' ∈ (s.handle m).2) :
    m' ∈ (s.step a).net :=
  mem_net_of_issued (h.issued_eq ▸ hm)

/-- A granted lock is registered. -/
theorem Delivers.registers (h : s.Delivers a (.ptr x (.writeLock t)))
    (hp : s.node.ptrs x = some p) (hgrant : p.actor.reply (.writeLock t) = .ok (.conflicting none)) :
    .addLock x t ∈ (s.step a).net :=
  h.issues (by simp [handle, hp, hgrant, afterPtr])

/-- A lock that is registered too late is released. -/
theorem Delivers.lateReleases (h : s.Delivers a (.addLock x t))
    (hstate : (s.node.txns t).state = d.state) : .ptr x (d.release t) ∈ (s.step a).net :=
  h.issues (by cases d <;> simp_all [handle, RestmActors.addLock, Decision.state, afterAddLock])

/-- A decision releases every registered lock. -/
theorem Delivers.releases (h : s.Delivers a (.setState d caller t))
    (hstate : (s.node.txns t).state = .OPEN ∨ (s.node.txns t).state = d.state)
    (hx : x ∈ (s.node.txns t).locks) : .ptr x (d.release t) ∈ (s.step a).net := by
  refine h.issues ?_
  have hok := (TxnActor.setState_ok_iff d.state_ne_open).mpr ⟨hstate, rfl⟩
  simp only [handle, RestmActors.setState, hok, afterSetState]
  exact List.mem_append_left _ (List.mem_map_of_mem hx)

/-! ## Transactions, pointers and events -/

@[simp] theorem step_cold (s : System V) (a : Action V) :
    (s.step a).node.coldStorage = s.node.coldStorage := by
  rcases step_cases s a with ⟨c, rfl⟩ | ⟨m, h⟩ | ⟨⟨clock, h⟩, -⟩
  · simp [step]
  · rw [h.step_eq, sendAll_cold]
    cases m with
    | ptr id m => simp only [handle]; split <;> rfl
    | _ => rfl
  · rw [h]

/-- A transaction stays as it is, registers a lock, or is asked to decide. -/
theorem txn_step (s : System V) (a : Action V) (t : TxnTime) :
    (s.step a).node.txns t = s.node.txns t ∨
      (∃ id, s.Delivers a (.addLock id t) ∧
        (s.step a).node.txns t = ((s.node.txns t).addLock id).2) ∨
      ∃ d caller, s.Delivers a (.setState d caller t) ∧
        (s.step a).node.txns t = ((s.node.txns t).setState d.state).2 := by
  rcases step_cases s a with ⟨c, rfl⟩ | ⟨m, h⟩ | ⟨⟨clock, h⟩, -⟩
  · exact .inl (by simp [step])
  · rw [h.step_eq, sendAll_txns]
    cases m with
    | ptr id m => exact .inl (by simp only [handle]; split <;> rfl)
    | txnState | completed => exact .inl rfl
    | addLock id time =>
      by_cases ht : t = time
      · subst ht
        exact .inr (.inl ⟨id, h, RestmActors.setTxn_self⟩)
      · exact .inl (RestmActors.setTxn_of_ne ht)
    | setState d caller time =>
      by_cases ht : t = time
      · subst ht
        exact .inr (.inr ⟨d, caller, h, RestmActors.setTxn_self⟩)
      · exact .inl (RestmActors.setTxn_of_ne ht)
  · exact .inl (by rw [h])

/-- A decision that was made stays. -/
theorem state_step (h : (s.node.txns t).state ≠ .OPEN) (a : Action V) :
    ((s.step a).node.txns t).state = (s.node.txns t).state := by
  rcases txn_step s a t with heq | ⟨id, -, heq⟩ | ⟨d, caller, -, heq⟩ <;> rw [heq]
  · exact TxnActor.addLock_state
  · rw [TxnActor.setState_state d.state_ne_open, if_neg h]

theorem state_step_eq {d : Decision} (h : (s.node.txns t).state = d.state) (a : Action V) :
    ((s.step a).node.txns t).state = d.state :=
  (state_step (h ▸ d.state_ne_open) a).trans h

/-- A transaction is decided by the delivery of that decision only. -/
theorem delivers_of_state_step (hopen : (s.node.txns t).state ≠ d.state)
    (h : ((s.step a).node.txns t).state = d.state) :
    (s.node.txns t).state = .OPEN ∧ ∃ caller, s.Delivers a (.setState d caller t) := by
  rcases txn_step s a t with heq | ⟨id, -, heq⟩ | ⟨d', caller, hdel, heq⟩ <;> rw [heq] at h
  · exact absurd h hopen
  · rw [TxnActor.addLock_state] at h; exact absurd h hopen
  · rw [TxnActor.setState_state d'.state_ne_open] at h
    split at h
    · next hstate =>
      have : d' = d := by revert h; cases d' <;> cases d <;> decide
      exact ⟨hstate, caller, this ▸ hdel⟩
    · exact absurd h hopen

theorem Delivers.state_setState (h : s.Delivers a (.setState d caller t))
    (hstate : (s.node.txns t).state = .OPEN ∨ (s.node.txns t).state = d.state) :
    ((s.step a).node.txns t).state = d.state := by
  rw [h.step_eq, sendAll_txns]
  simp only [handle, RestmActors.setState, RestmActors.setTxn_self]
  rw [TxnActor.setState_state d.state_ne_open]
  rcases hstate with hstate | hstate
  · rw [if_pos hstate]
  · rw [if_neg (hstate ▸ d.state_ne_open), hstate]

/-- Registered locks stay registered. -/
theorem locks_step (h : x ∈ (s.node.txns t).locks) (a : Action V) :
    x ∈ ((s.step a).node.txns t).locks := by
  rcases txn_step s a t with heq | ⟨id, -, heq⟩ | ⟨d, caller, -, heq⟩ <;> rw [heq]
  · exact h
  · exact TxnActor.mem_addLock_iff.mpr (.inl h)
  · rwa [TxnActor.setState_locks]

/-- A lock is registered with an open transaction only. -/
theorem delivers_of_locks_step (hx : x ∉ (s.node.txns t).locks)
    (h : x ∈ ((s.step a).node.txns t).locks) :
    s.Delivers a (.addLock x t) ∧ (s.node.txns t).state = .OPEN := by
  rcases txn_step s a t with heq | ⟨id, hdel, heq⟩ | ⟨d, caller, -, heq⟩ <;> rw [heq] at h
  · exact absurd h hx
  · rcases TxnActor.mem_addLock_iff.mp h with h | ⟨hopen, rfl⟩
    · exact absurd h hx
    · exact ⟨hdel, hopen⟩
  · rw [TxnActor.setState_locks] at h; exact absurd h hx

theorem Delivers.locks_addLock (h : s.Delivers a (.addLock x t))
    (hopen : (s.node.txns t).state = .OPEN) : x ∈ ((s.step a).node.txns t).locks := by
  rw [h.step_eq, sendAll_txns]
  simp only [handle, RestmActors.addLock, RestmActors.setTxn_self]
  exact TxnActor.mem_addLock_iff.mpr (.inr ⟨hopen, rfl⟩)

/-- The pointer's actor takes the message that is delivered to it. -/
theorem Delivers.ptr_step {m : MemMsg V} (h : s.Delivers a (.ptr x m))
    (hp : s.node.ptrs x = some p) : (s.step a).node.ptrs x = some (p.step m) := by
  rw [h.step_eq]
  refine sendAll_ptrs_of_some ?_
  simp only [handle, hp]
  exact RestmActors.setPtr_self

/-- An actor stays as it is or takes the message that is delivered to it. -/
theorem ptr_step_of_some (hp : s.node.ptrs x = some p) (a : Action V) :
    (s.step a).node.ptrs x = some p ∨
      ∃ m, s.Delivers a (.ptr x m) ∧ (s.step a).node.ptrs x = some (p.step m) := by
  rcases step_cases s a with ⟨c, rfl⟩ | ⟨m, h⟩ | ⟨⟨clock, h⟩, -⟩
  · exact .inl (send_ptrs_of_some hp)
  · cases m with
    | ptr id m =>
      by_cases hx : x = id
      · subst hx
        exact .inr ⟨m, h, h.ptr_step hp⟩
      · left
        rw [h.step_eq]
        refine sendAll_ptrs_of_some ?_
        simp only [handle]
        split
        · exact hp
        · exact (RestmActors.setPtr_of_ne hx).trans hp
    | _ => exact .inl (by rw [h.step_eq]; exact sendAll_ptrs_of_some hp)
  · exact .inl (by rw [h]; exact hp)

/-- An actor was there, has just been restored, or has taken the message delivered. -/
theorem ptr_step (h : (s.step a).node.ptrs x = some p') :
    s.node.ptrs x = some p' ∨ s.Fresh x p' ∨
      ∃ p m, s.node.ptrs x = some p ∧ s.Delivers a (.ptr x m) ∧ p' = p.step m := by
  cases hp : s.node.ptrs x with
  | some p =>
    rcases ptr_step_of_some hp a with h' | ⟨m, hdel, h'⟩ <;> rw [h'] at h <;> cases h
    · exact .inl rfl
    · exact .inr (.inr ⟨p, m, rfl, hdel, rfl⟩)
  | none =>
    refine .inr (.inl ?_)
    rcases step_cases s a with ⟨c, rfl⟩ | ⟨m, hdel⟩ | ⟨⟨clock, hs⟩, -⟩
    · rcases send_ptrs h with h | h
      · rw [show s.node.ptrs x = some p' from h] at hp; cases hp
      · exact h
    · rw [hdel.step_eq] at h
      have hnode : ({ s with net := s.remaining a }.handle m).1.node.ptrs x = s.node.ptrs x ∧
          ({ s with net := s.remaining a }.handle m).1.node.coldStorage = s.node.coldStorage := by
        cases m with
        | ptr id m =>
          simp only [handle]
          split
          · exact ⟨rfl, rfl⟩
          · next q hq =>
            refine ⟨RestmActors.setPtr_of_ne ?_, rfl⟩
            rintro rfl; rw [hp] at hq; cases hq
        | _ => exact ⟨rfl, rfl⟩
      rcases sendAll_ptrs h with h | ⟨-, now, time, rfl⟩
      · rw [hnode.1, hp] at h; cases h
      · exact ⟨hp, now, time, by rw [hnode.2]⟩
    · rw [hs] at h; rw [show s.node.ptrs x = some p' from h] at hp; cases hp

/-- The events that an action adds. -/
theorem event_step (s : System V) (a : Action V) :
    (s.step a).events = s.events ∨
      (∃ c, a = .call c ∧ (s.step a).events = .called c :: s.events) ∨
      (∃ c d time ok, s.Delivers a (.completed c d time ok) ∧
        (s.step a).events = .completed c d time ok :: s.events) ∨
      ∃ id m p e, s.Delivers a (.ptr id m) ∧ s.node.ptrs id = some p ∧
        p.actor.reply m = .error e ∧ (s.step a).events = .failed id m :: s.events := by
  rcases step_cases s a with ⟨c, rfl⟩ | ⟨m, h⟩ | ⟨⟨clock, h⟩, -⟩
  · exact .inr (.inl ⟨c, rfl, send_events⟩)
  · have hevents : (s.step a).events = ({ s with net := s.remaining a }.handle m).1.events := by
      rw [h.step_eq, sendAll_events]
    rw [hevents]
    cases m with
    | ptr id m =>
      simp only [handle]
      cases hp : s.node.ptrs id with
      | none => exact .inl rfl
      | some p =>
        cases hr : p.actor.reply m with
        | ok answer => exact .inl (by simp [hr])
        | error e => exact .inr (.inr (.inr ⟨id, m, p, e, h, hp, hr, by simp [hr]⟩))
    | completed c d time ok => exact .inr (.inr (.inl ⟨c, d, time, ok, h, rfl⟩))
    | _ => exact .inl rfl
  · exact .inl (by rw [h])

theorem mem_events_step {e : Event V} (h : e ∈ s.events) (a : Action V) :
    e ∈ (s.step a).events := by
  rcases event_step s a with heq | ⟨c, -, heq⟩ | ⟨c, d, time, ok, -, heq⟩ | ⟨id, m, p, err, -, -, -, heq⟩ <;>
    rw [heq]
  · exact h
  all_goals exact List.mem_cons_of_mem _ h

/-- A call that is recorded was made before, or by this action. -/
theorem called_of_step {c : Call V} (h : .called c ∈ (s.step a).events) :
    .called c ∈ s.events ∨ a = .call c := by
  rcases event_step s a with heq | ⟨c', rfl, heq⟩ | ⟨c', d, time, ok, -, heq⟩ | ⟨id, m, p, err, -, -, -, heq⟩ <;>
    rw [heq] at h
  · exact .inl h
  all_goals simp only [List.mem_cons, reduceCtorEq, false_or, Event.called.injEq] at h
  · exact h.elim (fun h => .inr (congrArg _ h.symm)) .inl
  · exact .inl h
  · exact .inl h

/-- A completion that is recorded was so before, or has just been delivered. -/
theorem completed_of_step {c : ℕ} {ok : Bool} (h : .completed c d t ok ∈ (s.step a).events) :
    .completed c d t ok ∈ s.events ∨ s.Delivers a (.completed c d t ok) := by
  rcases event_step s a with heq | ⟨c', rfl, heq⟩ | ⟨c', d', time, ok', hdel, heq⟩ |
    ⟨id, m, p, err, -, -, -, heq⟩ <;> rw [heq] at h
  · exact .inl h
  · exact .inl (by simpa using h)
  · rcases List.mem_cons.mp h with h | h
    · cases h; exact .inr hdel
    · exact .inl h
  · exact .inl (by simpa using h)

theorem mem_called_step (s : System V) (c : Call V) : .called c ∈ (s.step (.call c)).events := by
  rw [show (s.step (.call c)).events = .called c :: s.events from send_events]
  exact List.mem_cons_self

end System

end ReSTM
