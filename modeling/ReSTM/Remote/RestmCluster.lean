import Mathlib.Data.List.FinRange
import ReSTM.Common.Transition
import ReSTM.Remote.ClusterRestmImpl
import ReSTM.Storage.RestmImpl

/-!
# A cluster is one node

Model of `RestmCluster` (`storage/remote/RestmCluster.scala`): `RestmImpl` over a
`RestmInternalStaticListRouter` (`storage/remote/RestmInternalRouter.scala`), which
hands every request to one of its shards, each a `RestmActors` with pointers,
transactions and a cold storage of its own. A request for a pointer is routed by the
pointer, one for a transaction by its timestamp.

* `RestmCluster.refines`: in every run, the cluster is the single node that has the
  entries of all shards, and no shard has an entry of another.
-/

namespace ReSTM

open Transition

variable {V : Type}

/-- What `RestmInternalRouter` passes to `inner` (lines 30–64). The completion of a
    caller's future is no request. -/
def Msg.shardObj : Msg V → Option ShardObj
  | .ptr id _ => some (.pointer id)
  | .addLock _ time | .setState _ _ time | .txnState time => some (.time time)
  | .completed _ _ _ _ => none

/-- The shards, the messages in flight and the events so far. A single clock is enough:
    time may pass between any two steps, in either direction. -/
structure RestmCluster (V : Type) (n : ℕ) where
  clock : Clock
  clusterShards : Fin n → RestmActors V
  net : List (Msg V) := []
  events : List (Event V) := []

namespace RestmCluster

variable {n : ℕ} [NeZero n] (timeHash : TxnTime → ℤ)

variable (n) in
/-- The shard that `inner` returns, as its place in the list. -/
def inner (shardObj : ShardObj) : Fin n :=
  match RestmInternalStaticListRouter.inner (List.finRange n) (shardObj.hashCode timeHash) with
  | .ok i => i
  | .error _ => 0

/-- The router never fails. -/
theorem inner_eq (shardObj : ShardObj) :
    RestmInternalStaticListRouter.inner (List.finRange n) (shardObj.hashCode timeHash) =
      .ok (inner n timeHash shardObj) := by
  have hne : List.finRange n ≠ [] := by
    rw [← List.length_pos_iff, List.length_finRange]
    exact Nat.pos_of_neZero n
  obtain ⟨i, -, hi⟩ := RestmInternalStaticListRouter.inner_spec hne (shardObj.hashCode timeHash)
  rw [inner, hi]

/-- The store as shard `i` sees it. -/
def view (c : RestmCluster V n) (i : Fin n) : System V where
  clock := c.clock
  node := c.clusterShards i
  net := c.net
  events := c.events

/-- Shard `i` has taken the store to `s`. -/
def put (c : RestmCluster V n) (i : Fin n) (s : System V) : RestmCluster V n where
  clock := s.clock
  clusterShards := Function.update c.clusterShards i s.node
  net := s.net
  events := s.events

/-- The shard that a message goes to. -/
def shardOf (m : Msg V) : Fin n := (m.shardObj.map (inner n timeHash)).getD 0

def send (c : RestmCluster V n) (m : Msg V) : RestmCluster V n :=
  c.put (shardOf timeHash m) ((c.view (shardOf timeHash m)).send m)

def sendAll (c : RestmCluster V n) (msgs : List (Msg V)) : RestmCluster V n :=
  msgs.foldl (send timeHash) c

/-- Process a message at its shard. -/
def handle (c : RestmCluster V n) (m : Msg V) : RestmCluster V n × List (Msg V) :=
  let r := (c.view (shardOf timeHash m)).handle m
  (c.put (shardOf timeHash m) r.1, r.2)

def step (c : RestmCluster V n) : Action V → RestmCluster V n
  | .call call => { c with events := .called call :: c.events }.send timeHash call.msg
  | .tick clock => { c with clock := clock }
  | .deliver i =>
    match c.net[i]? with
    | none => c
    | some m =>
      let r := { c with net := c.net.eraseIdx i }.handle timeHash m
      r.1.sendAll timeHash r.2

/-- Shards that have just started. -/
def start (clock : Clock) (coldStorage : Fin n → StringPtr → List (TxnTime × Option V)) :
    RestmCluster V n where
  clock := clock
  clusterShards i := { coldStorage := coldStorage i }

/-- The node that has of each pointer and of each transaction what its shard has. -/
def mergeShards (shards : Fin n → RestmActors V) : RestmActors V where
  coldStorage id := (shards (inner n timeHash (.pointer id))).coldStorage id
  ptrs id := (shards (inner n timeHash (.pointer id))).ptrs id
  txns t := (shards (inner n timeHash (.time t))).txns t

/-- The cluster as a single node. -/
def merge (c : RestmCluster V n) : System V where
  clock := c.clock
  node := mergeShards timeHash c.clusterShards
  net := c.net
  events := c.events

/-- No shard has an actor that another one is asked for. -/
structure Placed (shards : Fin n → RestmActors V) : Prop where
  ptrs : ∀ i id, i ≠ inner n timeHash (.pointer id) → (shards i).ptrs id = none
  txns : ∀ i t, i ≠ inner n timeHash (.time t) → (shards i).txns t = {}

/-! ## One actor changes -/

variable {timeHash} {c : RestmCluster V n} {shards : Fin n → RestmActors V} {i j : Fin n}
  {node : RestmActors V} {id x : StringPtr} {t : TxnTime} {m : Msg V} {msgs : List (Msg V)}

omit [NeZero n] in
/-- What the change of a shard leaves as it is. -/
theorem update_same {β : Type} (f : RestmActors V → β) (h : f node = f (shards i)) :
    f (Function.update shards i node j) = f (shards j) := by
  rw [Function.update_apply]
  split
  · rename_i heq
    rw [h, heq]
  · rfl

/-- A pointer changes at its shard. -/
theorem merge_setPtr (p : LoggedActor V) (h : inner n timeHash (.pointer id) = i) :
    mergeShards timeHash (Function.update shards i ((shards i).setPtr id p)) =
      (mergeShards timeHash shards).setPtr id p := by
  have hptrs : ∀ x, (Function.update shards i ((shards i).setPtr id p)
      (inner n timeHash (.pointer x))).ptrs x =
        ((mergeShards timeHash shards).setPtr id p).ptrs x := by
    intro x
    by_cases hx : x = id
    · subst hx
      rw [h, Function.update_self, RestmActors.setPtr_self, RestmActors.setPtr_self]
    · rw [RestmActors.setPtr_of_ne hx]
      exact update_same (fun node => node.ptrs x) (RestmActors.setPtr_of_ne hx)
  refine RestmActors.mk.injEq .. |>.mpr ⟨funext fun x => ?_, funext hptrs, funext fun t => ?_⟩
  · exact update_same (fun node => node.coldStorage x) rfl
  · exact update_same (fun node => node.txns t) rfl

/-- A transaction changes at its shard. -/
theorem merge_setTxn (a : TxnActor) (h : inner n timeHash (.time t) = i) :
    mergeShards timeHash (Function.update shards i ((shards i).setTxn t a)) =
      (mergeShards timeHash shards).setTxn t a := by
  have htxns : ∀ u, (Function.update shards i ((shards i).setTxn t a)
      (inner n timeHash (.time u))).txns u = ((mergeShards timeHash shards).setTxn t a).txns u := by
    intro u
    by_cases hu : u = t
    · subst hu
      rw [h, Function.update_self, RestmActors.setTxn_self, RestmActors.setTxn_self]
    · rw [RestmActors.setTxn_of_ne hu]
      exact update_same (fun node => node.txns u) (RestmActors.setTxn_of_ne hu)
  refine RestmActors.mk.injEq .. |>.mpr ⟨funext fun x => ?_, funext fun x => ?_, funext htxns⟩
  · exact update_same (fun node => node.coldStorage x) rfl
  · exact update_same (fun node => node.ptrs x) rfl

/-- An actor is created at its shard. -/
theorem merge_getPtrActor (clock : Clock) (time : Option TxnTime)
    (h : inner n timeHash (.pointer id) = i) :
    mergeShards timeHash (Function.update shards i ((shards i).getPtrActor clock id time)) =
      (mergeShards timeHash shards).getPtrActor clock id time := by
  have hptr : (mergeShards timeHash shards).ptrs id = (shards i).ptrs id := h ▸ rfl
  have hcold : (mergeShards timeHash shards).coldStorage id = (shards i).coldStorage id := h ▸ rfl
  unfold RestmActors.getPtrActor
  rw [hptr, hcold]
  cases (shards i).ptrs id with
  | some p => exact congrArg _ (Function.update_eq_self i shards)
  | none => exact merge_setPtr _ h

/-- A shard that does not change. -/
theorem merge_same : mergeShards timeHash (Function.update shards i (shards i)) =
    mergeShards timeHash shards :=
  congrArg _ (Function.update_eq_self i shards)

/-! ## The cluster does what the node does -/

theorem merge_send (c : RestmCluster V n) (m : Msg V) :
    (c.send timeHash m).merge timeHash = (c.merge timeHash).send m := by
  cases m with
  | ptr id m =>
    exact System.mk.injEq .. |>.mpr ⟨rfl, merge_getPtrActor c.clock m.time? rfl, rfl, rfl⟩
  | _ => exact System.mk.injEq .. |>.mpr ⟨rfl, merge_same, rfl, rfl⟩

theorem merge_sendAll (c : RestmCluster V n) (msgs : List (Msg V)) :
    (c.sendAll timeHash msgs).merge timeHash = (c.merge timeHash).sendAll msgs := by
  induction msgs generalizing c with
  | nil => rfl
  | cons m msgs ih =>
    show ((c.send timeHash m).sendAll timeHash msgs).merge timeHash = _
    rw [ih, merge_send]
    rfl

/-- The answer is that of the shard's actor, which is the node's. -/
theorem merge_handle (c : RestmCluster V n) (m : Msg V) :
    ((c.handle timeHash m).1.merge timeHash, (c.handle timeHash m).2) =
      (c.merge timeHash).handle m := by
  cases m with
  | ptr id m =>
    have hptr : (c.clusterShards (inner n timeHash (.pointer id))).ptrs id =
        (c.merge timeHash).node.ptrs id := rfl
    unfold handle System.handle
    simp only [shardOf, Msg.shardObj, Option.map_some, Option.getD_some, view, hptr]
    cases (c.merge timeHash).node.ptrs id with
    | none => exact Prod.ext (System.mk.injEq .. |>.mpr ⟨rfl, merge_same, rfl, rfl⟩) rfl
    | some p => exact Prod.ext (System.mk.injEq .. |>.mpr ⟨rfl, merge_setPtr _ rfl, rfl, rfl⟩) rfl
  | addLock id time =>
    exact Prod.ext (System.mk.injEq .. |>.mpr ⟨rfl, merge_setTxn _ rfl, rfl, rfl⟩) rfl
  | setState d caller time =>
    exact Prod.ext (System.mk.injEq .. |>.mpr ⟨rfl, merge_setTxn _ rfl, rfl, rfl⟩) rfl
  | txnState time =>
    exact Prod.ext (System.mk.injEq .. |>.mpr ⟨rfl, merge_same, rfl, rfl⟩) rfl
  | completed caller d time ok =>
    exact Prod.ext (System.mk.injEq .. |>.mpr ⟨rfl, merge_same, rfl, rfl⟩) rfl

theorem merge_step (c : RestmCluster V n) (a : Action V) :
    (c.step timeHash a).merge timeHash = (c.merge timeHash).step a := by
  cases a with
  | call call => exact merge_send _ _
  | tick clock => rfl
  | deliver k =>
    have hnet : (c.merge timeHash).net = c.net := rfl
    unfold step System.step
    simp only [hnet]
    cases hk : c.net[k]? with
    | none => rfl
    | some m =>
      obtain ⟨h1, h2⟩ := Prod.ext_iff.mp (merge_handle { c with net := c.net.eraseIdx k } m)
      exact (merge_sendAll _ _).trans (congrArg₂ System.sendAll h1 h2)

theorem merge_run (c : RestmCluster V n) (as : List (Action V)) :
    (run (step timeHash) c as).merge timeHash = run System.step (c.merge timeHash) as :=
  (List.foldl_hom (merge timeHash) fun c a => (merge_step c a).symm).symm

/-! ## Every actor is at its shard -/

omit [NeZero n] in
/-- What holds of every shard holds after one has changed. -/
theorem update_forall {P : Fin n → RestmActors V → Prop} (h : ∀ j, P j (shards j)) (hi : P i node)
    (j : Fin n) : P j (Function.update shards i node j) := by
  rw [Function.update_apply]
  split
  · rename_i heq
    exact heq ▸ hi
  · exact h j

/-- A shard may change the actors that it is asked for. -/
theorem Placed.update (h : Placed timeHash shards)
    (hptrs : ∀ x, i ≠ inner n timeHash (.pointer x) → node.ptrs x = (shards i).ptrs x)
    (htxns : ∀ t, i ≠ inner n timeHash (.time t) → node.txns t = (shards i).txns t) :
    Placed timeHash (Function.update shards i node) where
  ptrs := update_forall (P := fun i node => ∀ x, i ≠ inner n timeHash (.pointer x) →
    node.ptrs x = none) h.ptrs fun x hx => (hptrs x hx).trans (h.ptrs i x hx)
  txns := update_forall (P := fun i node => ∀ t, i ≠ inner n timeHash (.time t) →
    node.txns t = {}) h.txns fun t ht => (htxns t ht).trans (h.txns i t ht)

theorem Placed.same (h : Placed timeHash shards) :
    Placed timeHash (Function.update shards i (shards i)) :=
  h.update (fun _ _ => rfl) fun _ _ => rfl

theorem Placed.setPtr (p : LoggedActor V) (h : Placed timeHash shards)
    (hi : inner n timeHash (.pointer id) = i) :
    Placed timeHash (Function.update shards i ((shards i).setPtr id p)) := by
  refine h.update (fun x hx => RestmActors.setPtr_of_ne ?_) fun _ _ => rfl
  rintro rfl
  exact hx hi.symm

theorem Placed.setTxn (a : TxnActor) (h : Placed timeHash shards)
    (hi : inner n timeHash (.time t) = i) :
    Placed timeHash (Function.update shards i ((shards i).setTxn t a)) := by
  refine h.update (fun _ _ => rfl) fun u hu => RestmActors.setTxn_of_ne ?_
  rintro rfl
  exact hu hi.symm

theorem Placed.send (h : Placed timeHash c.clusterShards) :
    Placed timeHash (c.send timeHash m).clusterShards := by
  cases m with
  | ptr id m =>
    show Placed timeHash (Function.update _ _ (RestmActors.getPtrActor _ _ _ _))
    unfold RestmActors.getPtrActor
    split
    · exact h.same
    · exact h.setPtr _ rfl
  | _ => exact h.same

theorem Placed.sendAll (h : Placed timeHash c.clusterShards) :
    Placed timeHash (c.sendAll timeHash msgs).clusterShards := by
  induction msgs generalizing c with
  | nil => exact h
  | cons m msgs ih => exact ih (c := c.send timeHash m) h.send

theorem Placed.handle (h : Placed timeHash c.clusterShards) :
    Placed timeHash (c.handle timeHash m).1.clusterShards := by
  cases m with
  | ptr id m =>
    show Placed timeHash (Function.update _ _ (System.handle _ (.ptr id m)).1.node)
    unfold System.handle
    simp only
    split
    · exact h.same
    · exact h.setPtr _ rfl
  | addLock id time => exact h.setTxn _ rfl
  | setState d caller time => exact h.setTxn _ rfl
  | txnState time => exact h.same
  | completed caller d time ok => exact h.same

theorem Placed.step (c : RestmCluster V n) (a : Action V) (h : Placed timeHash c.clusterShards) :
    Placed timeHash (c.step timeHash a).clusterShards := by
  cases a with
  | call call => exact Placed.send (c := { c with events := _ }) h
  | tick clock => exact h
  | deliver k =>
    unfold RestmCluster.step
    simp only
    split
    · exact h
    · exact (Placed.handle (c := { c with net := c.net.eraseIdx k }) h).sendAll

/-- In every run, from shards that have just started: the messages in flight, what the
    clients see and the clock are those of one node that has the cold storage of each
    pointer's shard, and each shard has the node's actors that it is asked for and no
    others. -/
theorem refines (timeHash : TxnTime → ℤ) (clock : Clock)
    (cold : Fin n → StringPtr → List (TxnTime × Option V)) (as : List (Action V)) :
    let c := run (step timeHash) (start clock cold) as
    let s := run System.step
      (System.start clock fun id => cold (inner n timeHash (.pointer id)) id) as
    c.net = s.net ∧ c.events = s.events ∧ c.clock = s.clock ∧
      (∀ i id, (c.clusterShards i).ptrs id =
        if inner n timeHash (.pointer id) = i then s.node.ptrs id else none) ∧
      ∀ i t, (c.clusterShards i).txns t =
        if inner n timeHash (.time t) = i then s.node.txns t else {} := by
  intro c s
  have hmerge : c.merge timeHash = s := merge_run (start clock cold) as
  have hplaced : Placed timeHash c.clusterShards :=
    run_invariant Placed.step as ⟨fun _ _ _ => rfl, fun _ _ _ => rfl⟩
  refine ⟨congrArg System.net hmerge, congrArg System.events hmerge, congrArg System.clock hmerge,
    fun i id => ?_, fun i t => ?_⟩
  · rw [← hmerge]
    split
    · next heq => exact heq ▸ rfl
    · next hne => exact hplaced.ptrs i id (Ne.symm hne)
  · rw [← hmerge]
    split
    · next heq => exact heq ▸ rfl
    · next hne => exact hplaced.txns i t (Ne.symm hne)

/-- Two shards: after a lock has been asked for and granted, what is in flight and what the
    clients have seen are the same as with one node. -/
theorem refines_two :
    let as : List (Action ℕ) :=
      [.call (.lock ⟨"a"⟩ ⟨⟨0, 1⟩, 0⟩), .deliver 0, .tick ⟨1, 1⟩, .deliver 0]
    let c := run (step fun _ => 1) (start (n := 2) ⟨0, 0⟩ fun _ _ => []) as
    let s := run System.step (System.start ⟨0, 0⟩ fun _ => []) as
    c.net = s.net ∧ c.events = s.events ∧ c.clock = s.clock :=
  have h := refines (n := 2) (fun _ => 1) ⟨0, 0⟩ (fun _ _ => [])
    [.call (.lock ⟨"a"⟩ ⟨⟨0, 1⟩, 0⟩), .deliver 0, .tick ⟨1, 1⟩, .deliver 0]
  ⟨h.1, h.2.1, h.2.2.1⟩

end RestmCluster

end ReSTM
