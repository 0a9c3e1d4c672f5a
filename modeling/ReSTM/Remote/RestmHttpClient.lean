import Mathlib.Data.List.Infix
import ReSTM.Remote.RestmInternalRestmHttpClient

/-!
# A client of the store over HTTP

Models of the part of `RestmController` (`app/controllers/RestmController.scala`) that serves
`Restm`, with its routes (`conf/routes`), and of `RestmHttpClient`
(`storage/remote/RestmHttpClient.scala`): `lock`, `getPtr` and `newPtr`. HTTP delivers requests and
responses unchanged, as between nodes.

The action for `lock` prints an `Option`, where the one for nodes prints what is in it, and the
client reads a timestamp.

* `RestmCall.Decodes`: the results that come back as they were.
* `client_restmCall`: what the client returns is the store's result exactly then.
-/

namespace ReSTM

open JavaText

variable {V σ α : Type}

/-! ## `Restm` -/

/-- `trait Restm` (`storage/Restm.scala`), the operations whose result is more than a success. -/
structure Restm (V σ : Type) where
  newPtr : TxnTime → V → NodeOp σ StringPtr
  getPtr : StringPtr → NodeOp σ (Option (Option V))
  getPtrAt : StringPtr → TxnTime → NodeOp σ (Option (Option V))
  lock : StringPtr → TxnTime → NodeOp σ (Option TxnTime)

/-- A call of an operation. -/
inductive RestmCall (V : Type) where
  | newPtr (time : TxnTime) (value : V)
  | getPtr (id : StringPtr)
  | getPtrAt (id : StringPtr) (time : TxnTime)
  | lock (id : StringPtr) (time : TxnTime)
deriving DecidableEq

/-- The value of a completed future. -/
inductive RestmReply (V : Type) where
  | pointer (id : StringPtr)
  | value (v : Option (Option V))
  | conflicting (t : Option TxnTime)
deriving DecidableEq

/-- Make a call. -/
def Restm.call (store : Restm V σ) : RestmCall V → NodeOp σ (RestmReply V)
  | .newPtr time value => (store.newPtr time value).map .pointer
  | .getPtr id => (store.getPtr id).map .value
  | .getPtrAt id time => (store.getPtrAt id time).map .value
  | .lock id time => (store.lock id time).map .conflicting

/-- The timestamp that a call passes. -/
def RestmCall.time? : RestmCall V → Option TxnTime
  | .getPtr _ => none
  | .newPtr time _ | .getPtrAt _ time | .lock _ time => some time

/-! ## `RestmController` -/

/-- `e.getMessage`. -/
def Failure.message : Failure → String
  | transactionConflict msg _ | illegalArgument msg | noSuchElement msg | runtime msg _
  | runtimeException msg => msg

/-- `e.toString.contains("Write locked")`. The name of no class contains this text. -/
def Failure.writeLocked (e : Failure) : Bool :=
  decide ("Write locked".toList <:+: e.message.toList)

namespace RestmController

/-- `NotFound(body)`. -/
def notFound (body : String) : Response := ⟨404, body⟩

/-- `NotModified`. -/
def notModified : Response := ⟨304, ""⟩

variable (store : Restm JacksonValue σ)

/-- `newValue` (lines 51–55). -/
def newValue (time body : String) : NodeOp σ Response :=
  withTime time fun time => (store.newPtr time ⟨body⟩).map fun x => ok x.id

/-- The response to what was read (line 64). -/
def valueResponse (id : String) (ifModifiedSince : Option String) :
    Option (Option JacksonValue) → Except Failure Response
  | none => .ok (if ifModifiedSince.isSome then notModified else notFound id)
  | some none => .error Failure.nullPointer
  | some (some v) => .ok (ok v.data)

/-- The `recover` of lines 65–69. -/
def recoverRead : Except Failure Response → Except Failure Response
  | .error (.transactionConflict _ (some t)) => .ok (conflict t.toString)
  | .error (.transactionConflict _ none) => .error Failure.nullPointer
  | .error e => if e.writeLocked then .ok (conflict "Write locked") else .error e
  | .ok response => .ok response

/-- `getValue` (lines 57–71). -/
def getValue (id : String) (time ifModifiedSince : Option String) : NodeOp σ Response :=
  let respond (op : NodeOp σ (Option (Option JacksonValue))) : NodeOp σ Response := fun s =>
    let r := op s
    (recoverRead (r.1.bind (valueResponse id ifModifiedSince)), r.2)
  match time with
  | some time => withTime time fun time => respond (store.getPtrAt ⟨id⟩ time)
  | none => respond (store.getPtr ⟨id⟩)

/-- The response to a request for a lock (line 76): `x.toString` of an `Option`. -/
def lockResponse : Option TxnTime → Response
  | none => ok ""
  | some t => conflict ("Some(" ++ t.toString ++ ")")

/-- `lockValue` (lines 73–79). -/
def lockValue (id time : String) : NodeOp σ Response :=
  withTime time fun time => (store.lock ⟨id⟩ time).map lockResponse

/-- `conf/routes`, lines 11–13. -/
def storeRoutes (req : Request) : NodeOp σ Response :=
  match req.method, req.path with
  | .PUT, ["mem"] => required "time" req fun time => newValue store time req.body
  | .GET, ["mem", id] =>
    getValue store id (req.query.lookup "time") (req.query.lookup "ifModifiedSince")
  | .POST, ["mem", id] => required "time" req fun time => lockValue store id time
  | _, path => fun s => (.ok ⟨404, "/".intercalate path⟩, s)

/-- The response to a request. -/
def serveStore (errorPage : Failure → String) (req : Request) (s : σ) : Response × σ :=
  let r := storeRoutes store req s
  (respond errorPage r.1, r.2)

end RestmController

/-! ## `RestmHttpClient` -/

namespace RestmHttpClient

open RestmController RestmInternalRestmHttpClient

/-- The response handler of `lock` (lines 43–46). -/
def lockOf (response : Response) : Except Failure (Option TxnTime) :=
  if response.status = 200 then .ok none
  else if response.status = 409 then (TxnTime.ofString response.body).map some
  else .error (matchError response.status)

/-- The response handlers of `getPtr` (lines 63–68, 76–81). -/
def ptrOf (response : Response) : Except Failure (Option (Option JacksonValue)) :=
  if response.status = 200 then .ok (some (some ⟨response.body⟩))
  else if response.status = 304 then .ok none
  else if response.status = 404 then .ok none
  else if response.status = 409 then .error (.transactionConflict response.body none)
  else .error (matchError response.status)

/-- `RestmHttpClient` (lines 41–89). -/
def client (serve : Request → σ → Response × σ) : Restm JacksonValue σ where
  newPtr time value :=
    http serve
      { method := .PUT, path := ["mem"], query := [("time", time.toString)], body := value.data }
      fun response => (okAsString response).map StringPtr.mk
  getPtr id := http serve { method := .GET, path := ["mem", id.id] } ptrOf
  getPtrAt id time :=
    http serve { method := .GET, path := ["mem", id.id], query := [("time", time.toString)] } ptrOf
  lock id time :=
    http serve { method := .POST, path := ["mem", id.id], query := [("time", time.toString)] } lockOf

end RestmHttpClient

/-! ## Transparency -/

/-- The same value, a conflict for a conflict, or another failure for another failure. -/
def SameResult : Except Failure (RestmReply V) → Except Failure (RestmReply V) → Prop
  | .ok r, .ok r' => r = r'
  | .error e, .error e' => e.conflict?.isSome = e'.conflict?.isSome
  | _, _ => False

/-- The results of a read that come back as they were. -/
def ReadDecodes : Except Failure (RestmReply V) → Prop
  | .ok r => r ≠ .value (some none)
  | .error e => e.conflict? ≠ some none ∧ (e.conflict? = none → e.writeLocked = false)

/-- The results that come back as they were. -/
def RestmCall.Decodes : RestmCall V → Except Failure (RestmReply V) → Prop
  | .newPtr .., .ok _ => True
  | .lock .., .ok r => r = .conflicting none
  | .newPtr .., .error e | .lock .., .error e => e.conflict? = none
  | .getPtr .., r | .getPtrAt .., r => ReadDecodes r

namespace RestmHttpClient

open RestmController RestmInternalRestmHttpClient

variable {store : Restm JacksonValue σ} {errorPage : Failure → String} {time : TxnTime}
  {id : StringPtr} {s : σ}

theorem http_serveStore {req : Request} {action : NodeOp σ Response}
    (handler : Response → Except Failure α) (hroute : storeRoutes store req = action) :
    http (serveStore store errorPage) req handler s =
      (handler (respond errorPage (action s).1), (action s).2) := by
  rw [http, serveStore, hroute]

theorem same_error {e e' : Failure} (he : e.conflict? = none) :
    SameResult (V := V) (.error e) (.error e') ↔ e'.conflict? = none := by
  show e.conflict?.isSome = e'.conflict?.isSome ↔ _
  rw [he, Option.isSome_none, eq_comm, Option.isSome_eq_false_iff, Option.isNone_iff_eq_none]

/-- A created pointer. -/
theorem same_newPtr (r : Except Failure StringPtr) (value : JacksonValue) :
    SameResult (V := JacksonValue)
        (((okAsString (respond errorPage (r.map fun x => ok x.id))).map StringPtr.mk).map
          RestmReply.pointer)
        (r.map RestmReply.pointer) ↔
      (RestmCall.newPtr time value).Decodes (r.map .pointer) := by
  cases r with
  | ok id =>
    simp only [Except.map, respond, okAsString_ok]
    exact iff_of_true rfl trivial
  | error e =>
    simp only [Except.map, respond, okAsString_error]
    exact same_error rfl

/-- A granted lock comes back, a refused one fails on the text of the timestamp. -/
theorem same_lock (r : Except Failure (Option TxnTime)) :
    SameResult (V := JacksonValue)
        ((lockOf (respond errorPage (r.map lockResponse))).map RestmReply.conflicting)
        (r.map RestmReply.conflicting) ↔
      (RestmCall.lock (V := JacksonValue) id time).Decodes (r.map .conflicting) := by
  cases r with
  | error e => exact same_error (V := JacksonValue) rfl
  | ok t =>
    cases t with
    | none => exact iff_of_true rfl rfl
    | some t =>
      obtain ⟨msg, herror⟩ := TxnTime.ofString_some t
      have hlock : lockOf (lockResponse (some t)) = .error (.illegalArgument msg) := by
        show Except.map some (TxnTime.ofString ("Some(" ++ t.toString ++ ")")) = _
        rw [herror]
        rfl
      simp only [Except.map, respond, hlock]
      exact iff_of_false (fun h => h) fun h => by cases h

/-- A read of a value, of an absent pointer or of one that is locked. -/
theorem same_getPtr (r : Except Failure (Option (Option JacksonValue))) (id : String) :
    SameResult
      ((ptrOf (respond errorPage (recoverRead (r.bind (valueResponse id none))))).map
        RestmReply.value)
      (r.map RestmReply.value) ↔
      ReadDecodes (r.map RestmReply.value) := by
  cases r with
  | ok v =>
    cases v with
    | none => exact iff_of_true rfl fun h => by cases h
    | some v =>
      cases v with
      | none => exact iff_of_false (fun h => h) fun h => h rfl
      | some v => exact iff_of_true rfl fun h => by cases h
  | error e =>
    have hother : e.conflict? = none → recoverRead (.error e) =
        if e.writeLocked then .ok (conflict "Write locked") else .error e := by
      intro he
      cases e with
      | transactionConflict msg t => cases he
      | illegalArgument | noSuchElement | runtime | runtimeException => rfl
    cases hconflict : e.conflict? with
    | some t =>
      cases e with
      | transactionConflict msg t' =>
        cases hconflict
        cases t with
        | none => exact iff_of_false (fun h => by cases h) fun h => h.1 rfl
        | some t => exact iff_of_true rfl ⟨fun h => (by cases h), fun h => by cases h⟩
      | illegalArgument | noSuchElement | runtime | runtimeException => cases hconflict
    | none =>
      show SameResult ((ptrOf (respond errorPage (recoverRead (.error e)))).map RestmReply.value)
        (.error e) ↔ e.conflict? ≠ some none ∧ (e.conflict? = none → e.writeLocked = false)
      rw [hother hconflict]
      cases hlocked : e.writeLocked with
      | true =>
        refine iff_of_false (fun h => ?_) fun h => Bool.true_eq_false_eq_False (h.2 hconflict)
        have hsome : true = e.conflict?.isSome := h
        rw [hconflict] at hsome
        cases hsome
      | false =>
        refine iff_of_true ((same_error rfl).mpr hconflict) ⟨?_, fun _ => rfl⟩
        rw [hconflict]
        exact fun h => by cases h

/-- Asking a store over HTTP leaves it in the state that asking it directly does, and the result is
    the same exactly when it is one that decodes. -/
theorem client_restmCall (store : Restm JacksonValue σ) (errorPage : Failure → String)
    (c : RestmCall JacksonValue) (s : σ) (hc : ∀ time, c.time? = some time → time.InRange) :
    (SameResult ((client (serveStore store errorPage)).call c s).1 (store.call c s).1 ↔
        c.Decodes (store.call c s).1) ∧
      ((client (serveStore store errorPage)).call c s).2 = (store.call c s).2 := by
  cases c with
  | newPtr time value =>
    have hroute : storeRoutes store
        { method := .PUT, path := ["mem"], query := [("time", time.toString)],
          body := value.data } = newValue store time.toString value.data := rfl
    simp only [Restm.call, NodeOp.map, client, http_serveStore _ hroute, newValue,
      withTime_toString (hc time rfl), and_true]
    exact same_newPtr _ value
  | getPtr id =>
    have hroute : storeRoutes store { method := .GET, path := ["mem", id.id] } =
        getValue store id.id none none := rfl
    simp only [Restm.call, NodeOp.map, client, http_serveStore _ hroute, getValue, and_true]
    exact same_getPtr _ id.id
  | getPtrAt id time =>
    have hroute : storeRoutes store
        { method := .GET, path := ["mem", id.id], query := [("time", time.toString)] } =
          getValue store id.id (some time.toString) none := rfl
    simp only [Restm.call, NodeOp.map, client, http_serveStore _ hroute, getValue,
      withTime_toString (hc time rfl), and_true]
    exact same_getPtr _ id.id
  | lock id time =>
    have hroute : storeRoutes store
        { method := .POST, path := ["mem", id.id], query := [("time", time.toString)] } =
          lockValue store id.id time.toString := rfl
    simp only [Restm.call, NodeOp.map, client, http_serveStore _ hroute, lockValue,
      withTime_toString (hc time rfl), and_true]
    exact same_lock _

/-- A store with one node, whose results are those of the node. -/
def nodeStore : Restm JacksonValue (RestmActors JacksonValue) where
  newPtr time value :=
    NodeOp.map (fun _ => ⟨"x"⟩) <| (RestmActors.internal ⟨0, 0⟩).initValue time value ⟨"x"⟩
  getPtr := (RestmActors.internal ⟨0, 0⟩).getValue
  getPtrAt := (RestmActors.internal ⟨0, 0⟩).getValueAt
  lock := (RestmActors.internal ⟨0, 0⟩).lockValue

def clientOfNode : Restm JacksonValue (RestmActors JacksonValue) :=
  client (serveStore nodeStore fun _ => "Oops, an error occurred")

/-- A node with one pointer that has processed the messages `msgs`. -/
def nodeAfter (msgs : List (MemMsg JacksonValue)) : RestmActors JacksonValue where
  coldStorage := fun _ => []
  ptrs := fun _ => some ⟨Transition.run MemActor.step {} msgs, []⟩

theorem client_restmCall_read :
    SameResult (clientOfNode.call (.getPtrAt ⟨"x"⟩ (.ofEpoch 2)) (nodeAfter [])).1
      (nodeStore.call (.getPtrAt ⟨"x"⟩ (.ofEpoch 2)) (nodeAfter [])).1 := by
  refine (client_restmCall nodeStore _ (.getPtrAt ⟨"x"⟩ (.ofEpoch 2)) (nodeAfter []) ?_).1.mpr ?_
  · intro time h
    rw [← Option.some.inj h]
    decide
  · exact fun h => by cases h

/-- The time of the lock that is in the way cannot be read, and a deleted pointer that is read without
    a time is a failure. -/
theorem client_restmCall_differs :
    let locked := nodeAfter [.writeLock (.ofEpoch 1)]
    let deleted := nodeAfter [.init (.ofEpoch 1) ⟨"a"⟩, .writeLock (.ofEpoch 2), .delete (.ofEpoch 2),
      .writeCommit (.ofEpoch 2)]
    (nodeStore.call (.lock ⟨"x"⟩ (.ofEpoch 2)) locked).1 = .ok (.conflicting (some (.ofEpoch 1))) ∧
      (clientOfNode.call (.lock ⟨"x"⟩ (.ofEpoch 2)) locked).1 =
        .error (.illegalArgument "For input string: \"Some(1\"") ∧
      (nodeStore.call (.getPtr ⟨"x"⟩) deleted).1 = .ok (.value (some none)) ∧
      (clientOfNode.call (.getPtr ⟨"x"⟩) deleted).1 =
        .error (.runtimeException "500 (of class java.lang.Integer)") := by
  decide

end RestmHttpClient

end ReSTM
