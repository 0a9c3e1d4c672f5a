import ReSTM.Remote.RestmInternal
import ReSTM.Types.JacksonValue
import ReSTM.Types.TxnTimeText

/-!
# One node asking another over HTTP

Models of `RestmController` (`app/controllers/RestmController.scala`), the part that serves
`RestmInternal`, with its routes (`conf/routes`), and of `RestmInternalRestmHttpClient`
(`storage/remote/RestmInternalRestmHttpClient.scala`). HTTP delivers requests and
responses unchanged; a failure that an action does not handle becomes a response with
status 500, whose body, the error page, is a parameter.

* `Carried`: the outcomes that survive the encoding, for each operation.
* `client_call`: what the client returns is the same as what the node returned exactly
  when the outcome is carried.
-/

namespace ReSTM

open JavaText

/-- HTTP methods. -/
inductive Method where
  | GET
  | POST
  | PUT
  | DELETE
deriving DecidableEq

/-- A request: the segments of the path, the query and the body. -/
structure Request where
  method : Method
  path : List String
  query : List (String × String) := []
  body : String := ""

structure Response where
  status : ℕ
  body : String
deriving DecidableEq

variable {σ α : Type}

/-! ## `RestmController` -/

namespace RestmController

/-- `Ok(body)`. -/
def ok (body : String) : Response := ⟨200, body⟩

/-- `Conflict(body)`. -/
def conflict (body : String) : Response := ⟨409, body⟩

/-- `new TimeStamp(time)` before the operation is called. -/
def withTime (time : String) (action : TxnTime → NodeOp σ Response) : NodeOp σ Response := fun s =>
  match TxnTime.ofString time with
  | .ok time => action time s
  | .error e => (.error e, s)

/-- `x.map(_.toString).getOrElse("")` (lines 147, 152). -/
def valueText : Option (Option JacksonValue) → Except Failure String
  | none => .ok ""
  | some none => .error Failure.nullPointer
  | some (some v) => .ok v.data

/-- `x.map(_.toString).reduceOption(_ + "\n" + _)`, or the empty text (lines 165, 171). -/
def lines (ids : List StringPtr) : String := "\n".intercalate (ids.map (·.id))

/-- The `recover` of lines 147–150: the text of `e.conflitingTxn`. -/
def recoverConflict : Except Failure Response → Except Failure Response
  | .error (.transactionConflict _ (some t)) => .ok (conflict t.toString)
  | .error (.transactionConflict _ none) => .error Failure.nullPointer
  | r => r

variable (node : RestmInternal JacksonValue σ)

/-- `writeValue` (lines 81–85). -/
def writeValue (id time body : String) : NodeOp σ Response :=
  withTime time fun time => (node.queueValue ⟨id⟩ time ⟨body⟩).map fun _ => ok ""

/-- `delValue` (lines 87–91). -/
def delValue (id time : String) : NodeOp σ Response :=
  withTime time fun time => (node.delete ⟨id⟩ time).map fun _ => ok ""

/-- `getTxn` (lines 99–103). -/
def getTxn (time : String) : NodeOp σ Response :=
  withTime time fun time => (node.txnState time).map ok

/-- `_resetValue` (lines 117–121). -/
def _resetValue (id time : String) : NodeOp σ Response :=
  withTime time fun time => (node.resetValue ⟨id⟩ time).map fun _ => ok ""

/-- `_lock` (lines 123–128). -/
def _lock (id time : String) : NodeOp σ Response :=
  withTime time fun time =>
    (node.lockValue ⟨id⟩ time).map fun x => ok ((x.map TxnTime.toString).getD "")

/-- `_commitValue` (lines 130–134). -/
def _commitValue (id time : String) : NodeOp σ Response :=
  withTime time fun time => (node.commitValue ⟨id⟩ time).map fun _ => ok ""

/-- `_init` (lines 136–141). -/
def _init (id time body : String) : NodeOp σ Response :=
  withTime time fun time =>
    (node.initValue time ⟨body⟩ ⟨id⟩).map fun b => if b then ok "" else conflict ""

/-- `_getValue` (lines 143–155). Only the branch with a time recovers from a conflict. -/
def _getValue (id : String) : Option String → NodeOp σ Response
  | some time => withTime time fun time s =>
    let r := node.getValueAt ⟨id⟩ time s
    (recoverConflict ((r.1.bind valueText).map ok), r.2)
  | none => fun s =>
    let r := node.getValue ⟨id⟩ s
    ((r.1.bind valueText).map ok, r.2)

/-- `_addLock` (lines 157–161). -/
def _addLock (id time : String) : NodeOp σ Response :=
  withTime time fun time => (node.addLock ⟨id⟩ time).map ok

/-- `_reset` (lines 163–167). -/
def _reset (time : String) : NodeOp σ Response :=
  withTime time fun time => (node.resetTxn time).map fun ids => ok (lines ids)

/-- `_commit` (lines 169–173). -/
def _commit (time : String) : NodeOp σ Response :=
  withTime time fun time => (node.commitTxn time).map fun ids => ok (lines ids)

/-- A required parameter of the query. -/
def required (name : String) (req : Request) (action : String → NodeOp σ Response) :
    NodeOp σ Response :=
  match req.query.lookup name with
  | some value => action value
  | none => fun s => (.ok ⟨400, "Missing parameter: " ++ name⟩, s)

/-- `conf/routes`, lines 14–15, 18 and 22–30. -/
def routes (req : Request) : NodeOp σ Response :=
  match req.method, req.path with
  | .PUT, ["mem", id] => required "time" req fun time => writeValue node id time req.body
  | .DELETE, ["mem", id] => required "time" req fun time => delValue node id time
  | .GET, ["txn", time] => getTxn node time
  | .PUT, ["_mem", "init", id] => required "time" req fun time => _init node id time req.body
  | .GET, ["_mem", "get", id] => _getValue node id (req.query.lookup "time")
  | .POST, ["_mem", "lock", id] => required "time" req fun time => _lock node id time
  | .POST, ["_mem", "reset", id] => required "time" req fun time => _resetValue node id time
  | .POST, ["_mem", "commit", id] => required "time" req fun time => _commitValue node id time
  | .POST, ["_txn", "addLock", time] => required "id" req fun id => _addLock node id time
  | .POST, ["_txn", "reset", time] => _reset node time
  | .POST, ["_txn", "commit", time] => _commit node time
  | _, path => fun s => (.ok ⟨404, "/".intercalate path⟩, s)

/-- What an action does not handle becomes the error page. -/
def respond (errorPage : Failure → String) : Except Failure Response → Response
  | .ok response => response
  | .error e => ⟨500, errorPage e⟩

/-- The response to a request. -/
def serve (errorPage : Failure → String) (req : Request) (s : σ) : Response × σ :=
  let r := routes node req s
  (respond errorPage r.1, r.2)

end RestmController

/-! ## `RestmInternalRestmHttpClient` -/

namespace RestmInternalRestmHttpClient

/-- `scala.MatchError`. -/
def matchError (status : ℕ) : Failure :=
  .runtimeException (Nat.repr status ++ " (of class java.lang.Integer)")

/-- `OK as.String`. -/
def okAsString (response : Response) : Except Failure String :=
  if response.status / 100 = 2 then .ok response.body
  else .error (.runtimeException ("Unexpected response status: " ++ Nat.repr response.status))

/-- The response handler of `_getValue` (lines 52–55, 65–68). -/
def valueOf (response : Response) : Except Failure (Option (Option JacksonValue)) :=
  if response.status = 200 then .ok (some (some ⟨response.body⟩))
  else if response.status = 409 then
    (TxnTime.ofString response.body).bind fun t => .error (Failure.lockedBy t)
  else .error (matchError response.status)

/-- The response handler of `_lockValue` (lines 40–42). -/
def lockOf (response : Response) : Except Failure (Option TxnTime) :=
  if response.body.isEmpty then .ok none else (TxnTime.ofString response.body).map some

/-- The response handler of `_initValue` (lines 95–98). -/
def initOf (response : Response) : Except Failure Bool :=
  if response.status = 200 then .ok true
  else if response.status = 409 then .ok false
  else .error (matchError response.status)

/-- Send a request and handle the response. -/
def http (serve : Request → σ → Response × σ) (req : Request)
    (handler : Response → Except Failure α) : NodeOp σ α := fun s =>
  let r := serve req s
  (handler r.1, r.2)

/-- `url(baseUrl) / "_mem" / op / id.toString`, with the parameter `time`. -/
def memRequest (method : Method) (op : String) (id : StringPtr) (time : TxnTime)
    (body : String := "") : Request where
  method := method
  path := ["_mem", op, id.id]
  query := [("time", time.toString)]
  body := body

/-- `url(baseUrl) / "_txn" / op / time.toString`. -/
def txnRequest (op : String) (time : TxnTime) (query : List (String × String) := []) : Request where
  method := .POST
  path := ["_txn", op, time.toString]
  query := query

/-- `url(baseUrl) / "mem" / id.toString`, with the parameter `time`. -/
def ptrRequest (method : Method) (id : StringPtr) (time : TxnTime) (body : String := "") :
    Request where
  method := method
  path := ["mem", id.id]
  query := [("time", time.toString)]
  body := body

/-- `RestmInternalRestmHttpClient` (lines 28–110). -/
def client (serve : Request → σ → Response × σ) : RestmInternal JacksonValue σ where
  txnState time := http serve { method := .GET, path := ["txn", time.toString] } okAsString
  resetValue id time := http serve (memRequest .POST "reset" id time) fun _ => .ok ()
  lockValue id time := http serve (memRequest .POST "lock" id time) lockOf
  commitValue id time := http serve (memRequest .POST "commit" id time) fun _ => .ok ()
  getValue id := http serve { method := .GET, path := ["_mem", "get", id.id] } valueOf
  getValueAt id time := http serve (memRequest .GET "get" id time) valueOf
  addLock id time :=
    http serve (txnRequest "addLock" time [("id", id.id)]) fun response => .ok response.body
  resetTxn time := http serve (txnRequest "reset" time) fun response =>
    .ok ((split '\n' response.body).map StringPtr.mk)
  commitTxn time := http serve (txnRequest "commit" time) fun response =>
    .ok (((split '\n' response.body).filter (!·.isEmpty)).map StringPtr.mk)
  initValue time value id := http serve (memRequest .PUT "init" id time value.data) initOf
  queueValue id time value := http serve (ptrRequest .PUT id time value.data) fun response =>
    (okAsString response).map fun _ => ()
  delete id time := http serve (ptrRequest .DELETE id time) fun response =>
    (okAsString response).map fun _ => ()

end RestmInternalRestmHttpClient

/-! ## Sets of pointers -/

namespace RestmController

variable {ids : List StringPtr}

theorem mem_map_mk {pieces : List String} {id : StringPtr} :
    id ∈ pieces.map StringPtr.mk ↔ id.id ∈ pieces := by
  constructor
  · intro h
    obtain ⟨piece, hpiece, rfl⟩ := List.mem_map.mp h
    exact hpiece
  · exact fun h => List.mem_map.mpr ⟨id.id, h, rfl⟩

theorem mem_map_id {id : StringPtr} : id.id ∈ ids.map (·.id) ↔ id ∈ ids := by
  constructor
  · intro h
    obtain ⟨⟨x⟩, hx, heq⟩ := List.mem_map.mp h
    obtain ⟨y⟩ := id
    rw [show y = x from heq.symm]
    exact hx
  · exact fun h => List.mem_map.mpr ⟨id, h, rfl⟩

theorem newline_not_mem (hlines : ∀ id ∈ ids, '\n' ∉ id.id.toList) :
    ∀ p ∈ ids.map (·.id), '\n' ∉ p.toList := by
  intro p hp
  obtain ⟨id, hid, rfl⟩ := List.mem_map.mp hp
  exact hlines id hid

theorem split_lines (hlines : ∀ id ∈ ids, '\n' ∉ id.id.toList) (hne : ids ≠ [])
    (hlast : ids.length = 1 ∨ ∀ l, ids.getLast? = some l → l.id ≠ "") :
    split '\n' (lines ids) = ids.map (·.id) := by
  rcases hlast with hone | hlast
  · obtain ⟨id, rfl⟩ := List.length_eq_one_iff.mp hone
    exact split_of_not_mem (hlines id List.mem_cons_self)
  · refine split_intercalate_of_getLast (newline_not_mem hlines) (by simpa using hne) ?_
    intro l hl
    rw [List.getLast?_map, Option.map_eq_some_iff] at hl
    obtain ⟨id, hid, rfl⟩ := hl
    exact hlast id hid

/-- The sets that come back through `split("\n")`. -/
theorem mem_split_lines_iff (hids : ids.Nodup) :
    (∀ id : StringPtr, id ∈ (split '\n' (lines ids)).map StringPtr.mk ↔ id ∈ ids) ↔
      ids ≠ [] ∧ (∀ id ∈ ids, '\n' ∉ id.id.toList) ∧
        (ids.length = 1 ∨ ∀ l, ids.getLast? = some l → l.id ≠ "") := by
  constructor
  · intro h
    have hlines : ∀ id ∈ ids, '\n' ∉ id.id.toList := fun id hid =>
      not_mem_of_mem_split (mem_map_mk.mp ((h id).mpr hid))
    have hne : ids ≠ [] := by
      rintro rfl
      exact List.not_mem_nil ((h ⟨""⟩).mp (by decide))
    refine ⟨hne, hlines, ?_⟩
    by_contra hcon
    rw [not_or] at hcon
    obtain ⟨hone, hlast⟩ := hcon
    push Not at hlast
    obtain ⟨⟨l⟩, hl, rfl⟩ := hlast
    -- The empty id is last: it is dropped, and by `hids` nothing else stands for it.
    obtain ⟨front, rfl⟩ := List.getLast?_eq_some_iff.mp hl
    have hlength : 2 ≤ (front ++ [(⟨""⟩ : StringPtr)]).length := by
      simp only [List.length_append, List.length_singleton] at hone ⊢
      omega
    have hback := mem_map_mk.mp ((h ⟨""⟩).mpr (List.mem_append_right _ List.mem_cons_self))
    have hsplit := split_intercalate (newline_not_mem hlines) (by simpa using hlength)
    change "" ∈ split '\n' ((String.singleton '\n').intercalate _) at hback
    rw [hsplit, List.map_append, dropTrailingEmpty, List.map_singleton,
      List.rdropWhile_concat_pos _ _ _ (by simp)] at hback
    have hfront := mem_map_id.mp ((List.rdropWhile_prefix _ _).subset hback)
    exact (List.nodup_append.mp hids).2.2 _ hfront _ List.mem_cons_self rfl
  · rintro ⟨hne, hlines, hlast⟩ id
    rw [mem_map_mk, split_lines hlines hne hlast, mem_map_id]

/-- The sets that come back through `split("\n").filterNot(_.isEmpty)`. -/
theorem mem_filter_split_lines_iff :
    (∀ id : StringPtr,
        id ∈ ((split '\n' (lines ids)).filter (!·.isEmpty)).map StringPtr.mk ↔ id ∈ ids) ↔
      ∀ id ∈ ids, '\n' ∉ id.id.toList ∧ id.id ≠ "" := by
  constructor
  · intro h id hid
    have hmem := List.mem_filter.mp (mem_map_mk.mp ((h id).mpr hid))
    exact ⟨not_mem_of_mem_split hmem.1, by simpa using hmem.2⟩
  · intro h id
    rw [mem_map_mk, List.mem_filter]
    by_cases hne : ids = []
    · subst hne
      have : split '\n' (lines []) = [""] := by decide
      rw [this, List.mem_singleton]
      simp only [List.not_mem_nil, iff_false, not_and]
      rintro hid
      simp [hid]
    · rw [split_lines (fun x hx => (h x hx).1) hne
        (.inr fun l hl => (h l (List.mem_of_getLast? hl)).2), mem_map_id]
      refine and_iff_left_of_imp fun hid => ?_
      simpa using (h id hid).2

end RestmController

/-! ## Transparency -/

/-- The timestamp that a call passes. -/
def InternalCall.time? {V : Type} : InternalCall V → Option TxnTime
  | .getValue _ => none
  | .resetValue _ time | .lockValue _ time | .commitValue _ time | .getValueAt _ time
  | .initValue time _ _ | .addLock _ time | .resetTxn time | .commitTxn time | .txnState time
  | .queueValue _ time _ | .delete _ time => some time

/-- An outcome is of the type of the operation: timestamps are ones, and sets have no
    repetitions. -/
def Typed {V : Type} : Except Failure (Reply V) → Prop
  | .ok (.conflicting t) => ∀ time, t = some time → time.InRange
  | .ok (.pointers ids) => ids.Nodup
  | .ok _ => True
  | .error e => ∀ time, e.conflict? = some (some time) → time.InRange

/-- The outcomes that the encoding of an operation carries. -/
def Carried (errorPage : Failure → String) :
    InternalCall JacksonValue → Except Failure (Reply JacksonValue) → Prop
  | .resetValue .., r | .commitValue .., r | .addLock .., r => ∃ v, r = .ok v
  | .getValue .., .ok v | .getValueAt .., .ok v => ∃ data, v = .value (some (some data))
  | .getValueAt .., .error e => e.conflict? ≠ some none
  | .lockValue .., .error e =>
    e.conflict? = none ∧ errorPage e ≠ "" ∧ ∀ t, TxnTime.ofString (errorPage e) ≠ .ok t
  | .resetTxn .., .ok (.pointers ids) =>
    ids ≠ [] ∧ (∀ id ∈ ids, '\n' ∉ id.id.toList) ∧
      (ids.length = 1 ∨ ∀ l, ids.getLast? = some l → l.id ≠ "")
  | .commitTxn .., .ok (.pointers ids) => ∀ id ∈ ids, '\n' ∉ id.id.toList ∧ id.id ≠ ""
  | .resetTxn .., _ | .commitTxn .., _ => False
  | .lockValue .., .ok _ | .initValue .., .ok _ | .txnState .., .ok _ | .queueValue .., .ok _
  | .delete .., .ok _ => True
  | .getValue .., .error e | .initValue .., .error e | .txnState .., .error e
  | .queueValue .., .error e | .delete .., .error e => e.conflict? = none

namespace RestmInternalRestmHttpClient

open RestmController

variable {node : RestmInternal JacksonValue σ} {errorPage : Failure → String} {time : TxnTime}
  {id : StringPtr} {s : σ}

theorem withTime_toString (ht : time.InRange) (action : TxnTime → NodeOp σ Response) :
    withTime time.toString action = action time := by
  funext s
  rw [withTime, TxnTime.ofString_toString ht]

/-- What the client makes of the response to a request. -/
theorem http_serve {req : Request} {action : NodeOp σ Response} (handler : Response → Except Failure α)
    (hroute : routes node req = action) :
    http (serve node errorPage) req handler s =
      (handler (respond errorPage (action s).1), (action s).2) := by
  rw [http, serve, hroute]

/-! One lemma for each response handler: the outcome `r` of the node, what the controller
responds, and what the client makes of it. -/

/-- The handlers that do not look at the response at all. -/
theorem same_ignored (r : Except Failure Unit) :
    SameOutcome (V := JacksonValue) (Except.map (fun _ => Reply.unit) (.ok ()))
      (r.map fun _ => Reply.unit) ↔
      ∃ v : Reply JacksonValue, (r.map fun _ => Reply.unit) = .ok v := by
  cases r with
  | ok u => exact iff_of_true rfl ⟨.unit, rfl⟩
  | error e => exact iff_of_false (fun h => h) fun ⟨v, hv⟩ => by cases hv

theorem okAsString_ok (body : String) : okAsString (ok body) = .ok body := by
  simp [okAsString, ok]

theorem okAsString_error (body : String) :
    okAsString ⟨500, body⟩ =
      .error (.runtimeException ("Unexpected response status: " ++ Nat.repr 500)) := by
  simp [okAsString]

/-- The handlers that look at the status only for an answer without content. -/
theorem same_okAsString_unit (r : Except Failure Unit)
    (carried : Except Failure (Reply JacksonValue) → Prop)
    (hok : carried (.ok .unit)) (herror : ∀ e, carried (.error e) ↔ e.conflict? = none) :
    SameOutcome (V := JacksonValue)
        (((okAsString (respond errorPage (r.map fun _ => ok ""))).map fun _ => ()).map
          fun _ => Reply.unit)
        (r.map fun _ => Reply.unit) ↔
      carried (r.map fun _ => Reply.unit) := by
  cases r with
  | ok u =>
    simp only [Except.map, respond, okAsString_ok]
    exact iff_of_true rfl hok
  | error e =>
    simp only [Except.map, respond, okAsString_error]
    exact eq_comm.trans (herror e).symm

theorem same_state (r : Except Failure String) (time : TxnTime) :
    SameOutcome (V := JacksonValue) ((okAsString (respond errorPage (r.map ok))).map Reply.state)
      (r.map Reply.state) ↔
      Carried errorPage (.txnState time) (r.map .state) := by
  cases r with
  | ok state =>
    simp only [Except.map, respond, okAsString_ok]
    exact iff_of_true rfl trivial
  | error e =>
    simp only [Except.map, respond, okAsString_error]
    exact eq_comm

theorem same_addLock (r : Except Failure String) :
    SameOutcome (V := JacksonValue)
      (Except.map Reply.state (.ok (respond errorPage (r.map ok)).body)) (r.map Reply.state) ↔
      Carried errorPage (.addLock id time) (r.map .state) := by
  cases r with
  | ok state => exact iff_of_true rfl ⟨.state state, rfl⟩
  | error e => exact iff_of_false (fun h => h) fun ⟨v, hv⟩ => by cases hv

theorem same_init (r : Except Failure Bool) (value : JacksonValue) :
    SameOutcome (V := JacksonValue)
        ((initOf (respond errorPage (r.map fun b => if b then ok "" else conflict ""))).map Reply.flag)
        (r.map Reply.flag) ↔
      Carried errorPage (.initValue time value id) (r.map .flag) := by
  cases r with
  | ok b => cases b <;> exact iff_of_true rfl trivial
  | error e => exact eq_comm

theorem same_lock (r : Except Failure (Option TxnTime))
    (hr : Typed (V := JacksonValue) (r.map .conflicting)) :
    SameOutcome (V := JacksonValue)
        ((lockOf (respond errorPage (r.map fun x => ok ((x.map TxnTime.toString).getD "")))).map
          Reply.conflicting)
        (r.map Reply.conflicting) ↔
      Carried errorPage (.lockValue id time) (r.map .conflicting) := by
  cases r with
  | ok x =>
    refine iff_of_true ?_ trivial
    cases x with
    | none => rfl
    | some t =>
      show SameOutcome ((lockOf (ok t.toString)).map _) _
      have hne : t.toString.isEmpty = false := by simpa using TxnTime.toString_ne_empty t
      rw [lockOf, if_neg (by simp [ok, hne]), ok, TxnTime.ofString_toString (hr t rfl)]
      rfl
  | error e =>
    show SameOutcome ((lockOf ⟨500, errorPage e⟩).map _) (.error e) ↔ _
    unfold lockOf
    by_cases hempty : errorPage e = ""
    · rw [if_pos (by simpa using hempty)]
      exact iff_of_false (fun h => h) fun h => h.2.1 hempty
    · rw [if_neg (by simpa using hempty)]
      cases hpage : TxnTime.ofString (errorPage e) with
      | ok t => exact iff_of_false (fun h => h) fun h => h.2.2 t hpage
      | error e' =>
        have hconflict := TxnTime.ofString_error hpage
        constructor
        · intro h
          exact ⟨(Eq.symm h).trans hconflict, hempty, fun t ht => by rw [hpage] at ht; cases ht⟩
        · intro h
          exact hconflict.trans h.1.symm

theorem same_value (r : Except Failure (Option (Option JacksonValue))) :
    SameOutcome (V := JacksonValue)
      ((valueOf (respond errorPage ((r.bind valueText).map ok))).map Reply.value)
        (r.map Reply.value) ↔
      Carried errorPage (.getValue id) (r.map .value) := by
  match r with
  | .ok none => exact iff_of_false (fun h => by cases h) fun ⟨data, h⟩ => by cases h
  | .ok (some none) => exact iff_of_false (fun h => h) fun ⟨data, h⟩ => by cases h
  | .ok (some (some v)) => exact iff_of_true rfl ⟨v, rfl⟩
  | .error e => exact eq_comm

theorem same_valueAt (r : Except Failure (Option (Option JacksonValue)))
    (hr : Typed (r.map Reply.value)) :
    SameOutcome (V := JacksonValue)
        ((valueOf (respond errorPage (recoverConflict ((r.bind valueText).map ok)))).map Reply.value)
        (r.map Reply.value) ↔
      Carried errorPage (.getValueAt id time) (r.map .value) := by
  match r with
  | .ok none => exact iff_of_false (fun h => by cases h) fun ⟨data, h⟩ => by cases h
  | .ok (some none) => exact iff_of_false (fun h => h) fun ⟨data, h⟩ => by cases h
  | .ok (some (some v)) => exact iff_of_true rfl ⟨v, rfl⟩
  | .error e =>
    cases e with
    | transactionConflict msg t =>
      cases t with
      | none => exact iff_of_false (fun h => by cases h) fun h => h rfl
      | some t =>
        refine iff_of_true ?_ fun h => by cases h
        show SameOutcome ((valueOf (conflict t.toString)).map Reply.value) _
        have hbody : TxnTime.ofString (conflict t.toString).body = .ok t :=
          TxnTime.ofString_toString (hr t rfl)
        rw [valueOf, if_neg (by simp [conflict]), if_pos (by rfl), hbody]
        rfl
    | _ => exact iff_of_true rfl fun h => by cases h

theorem same_resetTxn (r : Except Failure (List StringPtr))
    (hr : Typed (V := JacksonValue) (r.map .pointers)) :
    SameOutcome (V := JacksonValue)
        (Except.map Reply.pointers (.ok ((split '\n' (respond errorPage
          (r.map fun ids => ok (lines ids))).body).map StringPtr.mk)))
        (r.map Reply.pointers) ↔
      Carried errorPage (.resetTxn time) (r.map .pointers) := by
  cases r with
  | ok ids => exact mem_split_lines_iff hr
  | error e => exact iff_of_false (fun h => h) fun h => h

theorem same_commitTxn (r : Except Failure (List StringPtr)) :
    SameOutcome (V := JacksonValue)
        (Except.map Reply.pointers (.ok (((split '\n' (respond errorPage
          (r.map fun ids => ok (lines ids))).body).filter (!·.isEmpty)).map StringPtr.mk)))
        (r.map Reply.pointers) ↔
      Carried errorPage (.commitTxn time) (r.map .pointers) := by
  cases r with
  | ok ids => exact mem_filter_split_lines_iff
  | error e => exact iff_of_false (fun h => h) fun h => h

/-- Asking a node over HTTP leaves it in the state that asking it directly does, and the
    outcome is the same exactly when it is one that the encoding carries. -/
theorem client_call (node : RestmInternal JacksonValue σ) (errorPage : Failure → String)
    (c : InternalCall JacksonValue) (s : σ) (hc : ∀ time, c.time? = some time → time.InRange)
    (hr : Typed (node.call c s).1) :
    (SameOutcome ((client (serve node errorPage)).call c s).1 (node.call c s).1 ↔
        Carried errorPage c (node.call c s).1) ∧
      ((client (serve node errorPage)).call c s).2 = (node.call c s).2 := by
  cases c with
  | resetValue id time =>
    have hroute : routes node (memRequest .POST "reset" id time) =
        _resetValue node id.id time.toString := rfl
    simp only [RestmInternal.call, NodeOp.map, client, http_serve _ hroute, _resetValue,
      withTime_toString (hc time rfl), and_true]
    exact same_ignored _
  | lockValue id time =>
    have hroute : routes node (memRequest .POST "lock" id time) =
        _lock node id.id time.toString := rfl
    simp only [RestmInternal.call, NodeOp.map, client, http_serve _ hroute, _lock,
      withTime_toString (hc time rfl), and_true]
    exact same_lock _ hr
  | commitValue id time =>
    have hroute : routes node (memRequest .POST "commit" id time) =
        _commitValue node id.id time.toString := rfl
    simp only [RestmInternal.call, NodeOp.map, client, http_serve _ hroute, _commitValue,
      withTime_toString (hc time rfl), and_true]
    exact same_ignored _
  | getValue id =>
    have hroute : routes node { method := .GET, path := ["_mem", "get", id.id] } =
        _getValue node id.id none := rfl
    simp only [RestmInternal.call, NodeOp.map, client, http_serve _ hroute, _getValue, and_true]
    exact same_value _
  | getValueAt id time =>
    have hroute : routes node (memRequest .GET "get" id time) =
        _getValue node id.id (some time.toString) := rfl
    simp only [RestmInternal.call, NodeOp.map, client, http_serve _ hroute, _getValue,
      withTime_toString (hc time rfl), and_true]
    exact same_valueAt _ hr
  | initValue time value id =>
    have hroute : routes node (memRequest .PUT "init" id time value.data) =
        _init node id.id time.toString value.data := rfl
    simp only [RestmInternal.call, NodeOp.map, client, http_serve _ hroute, _init,
      withTime_toString (hc time rfl), and_true]
    exact same_init _ value
  | addLock id time =>
    have hroute : routes node (txnRequest "addLock" time [("id", id.id)]) =
        _addLock node id.id time.toString := rfl
    simp only [RestmInternal.call, NodeOp.map, client, http_serve _ hroute, _addLock,
      withTime_toString (hc time rfl), and_true]
    exact same_addLock _
  | resetTxn time =>
    have hroute : routes node (txnRequest "reset" time) = _reset node time.toString := rfl
    simp only [RestmInternal.call, NodeOp.map, client, http_serve _ hroute, _reset,
      withTime_toString (hc time rfl), and_true]
    exact same_resetTxn _ hr
  | commitTxn time =>
    have hroute : routes node (txnRequest "commit" time) = _commit node time.toString := rfl
    simp only [RestmInternal.call, NodeOp.map, client, http_serve _ hroute, _commit,
      withTime_toString (hc time rfl), and_true]
    exact same_commitTxn _
  | txnState time =>
    have hroute : routes node { method := .GET, path := ["txn", time.toString] } =
        getTxn node time.toString := rfl
    simp only [RestmInternal.call, NodeOp.map, client, http_serve _ hroute, getTxn,
      withTime_toString (hc time rfl), and_true]
    exact same_state _ time
  | queueValue id time value =>
    have hroute : routes node (ptrRequest .PUT id time value.data) =
        writeValue node id.id time.toString value.data := rfl
    simp only [RestmInternal.call, NodeOp.map, client, http_serve _ hroute, writeValue,
      withTime_toString (hc time rfl), and_true]
    exact same_okAsString_unit _ (Carried errorPage (.queueValue id time value)) trivial
      fun _ => Iff.rfl
  | delete id time =>
    have hroute : routes node (ptrRequest .DELETE id time) =
        delValue node id.id time.toString := rfl
    simp only [RestmInternal.call, NodeOp.map, client, http_serve _ hroute, delValue,
      withTime_toString (hc time rfl), and_true]
    exact same_okAsString_unit _ (Carried errorPage (.delete id time)) trivial fun _ => Iff.rfl

/-- A node that has just started, asked over HTTP. -/
def freshNode : RestmActors JacksonValue := { coldStorage := fun _ => [] }

def overHttp : RestmInternal JacksonValue (RestmActors JacksonValue) :=
  client (serve (RestmActors.internal ⟨0, 0⟩) fun _ => "Oops, an error occurred")

theorem client_call_lock :
    SameOutcome (overHttp.call (.lockValue ⟨"x"⟩ (.ofEpoch 1)) freshNode).1
      ((RestmActors.internal ⟨0, 0⟩).call (.lockValue ⟨"x"⟩ (.ofEpoch 1)) freshNode).1 := by
  refine (client_call (RestmActors.internal ⟨0, 0⟩) _ (.lockValue ⟨"x"⟩ (.ofEpoch 1)) freshNode
    ?_ ?_).1.mpr
    trivial
  · intro time h
    rw [← Option.some.inj h]
    decide
  · intro time h
    cases h

/-- An absent value comes back as the empty text, a refused reset as a success, and the
    empty set as the set of the empty id. -/
theorem client_call_differs :
    ¬SameOutcome (overHttp.call (.getValueAt ⟨"x"⟩ (.ofEpoch 1)) freshNode).1
        ((RestmActors.internal ⟨0, 0⟩).call (.getValueAt ⟨"x"⟩ (.ofEpoch 1)) freshNode).1 ∧
      ¬SameOutcome (overHttp.call (.resetValue ⟨"x"⟩ (.ofEpoch 1)) freshNode).1
        ((RestmActors.internal ⟨0, 0⟩).call (.resetValue ⟨"x"⟩ (.ofEpoch 1)) freshNode).1 ∧
      ¬SameOutcome (overHttp.call (.resetTxn (.ofEpoch 1)) freshNode).1
        ((RestmActors.internal ⟨0, 0⟩).call (.resetTxn (.ofEpoch 1)) freshNode).1 := by
  have habsent : (overHttp.call (.getValueAt ⟨"x"⟩ (.ofEpoch 1)) freshNode).1 =
      .ok (.value (some (some ⟨""⟩))) := by decide
  have hreset : (overHttp.call (.resetValue ⟨"x"⟩ (.ofEpoch 1)) freshNode).1 = .ok .unit := by decide
  have hempty : (overHttp.call (.resetTxn (.ofEpoch 1)) freshNode).1 = .ok (.pointers [⟨""⟩]) := by
    decide
  rw [habsent, hreset, hempty]
  refine ⟨fun h => (by cases h), fun h => h, fun h => ?_⟩
  exact List.not_mem_nil ((h ⟨""⟩).mp List.mem_cons_self)

end RestmInternalRestmHttpClient

end ReSTM
