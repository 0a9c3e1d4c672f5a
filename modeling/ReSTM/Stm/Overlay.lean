import Mathlib.Logic.Function.Basic
import ReSTM.Stm.STMTxnCtx

/-!
# What a transaction sees and sends

Within a transaction a pointer has the value last written, else the initial value if
it was created here, else what the cluster had at the transaction's timestamp. An
`Overlay` says this without caches; `Represents` says that a context with its three
caches is in step with it, and every operation keeps it so.

Deletion breaks it: `delete` reads the pointer as a value of class `Nothing$`. On a
pointer whose value the context does not hold yet this fails and leaves the failure
in `readCache`, or finds no value and deletes nothing. `Known` is the condition that a
deletion does not depend on such a read.

* `represents_of_run`: the caches are in step with the overlay in every run of known
  operations.
* `overlay_of_run`: reads return the overlay's content, and `commit` sends it.
-/

namespace ReSTM

open Transition WP

variable {O : Type}

/-! ## Operations -/

/-- The operations of `STMPtr`, and `newPtr` with the id that the cluster drew and its
    answer. -/
inductive Op (O : Type) where
  | newPtr (id : StringPtr) (value : Option (AnyRef O)) (answer : Except Failure Unit)
  | init (id : StringPtr) (default : Option (AnyRef O))
  | readOpt (id : StringPtr)
  | write (id : StringPtr) (value : Option (AnyRef O))
  | delete (id : StringPtr)
  | lock (id : StringPtr)

/-- The contents of pointers, `none` where they cannot be read: before the transaction,
    with the initial values of the pointers it created, and now. -/
structure Overlay (O : Type) where
  base : StringPtr → Option (Option (AnyRef O))
  content : StringPtr → Option (Option (AnyRef O))

namespace Overlay

/-- The pointer's content becomes `value`. -/
def put (o : Overlay O) (id : StringPtr) (value : Option (AnyRef O)) : Overlay O :=
  { o with content := Function.update o.content id (some value) }

/-- The pointer is created with the content `value`. -/
def create (o : Overlay O) (id : StringPtr) (value : Option (AnyRef O)) : Overlay O where
  base := Function.update o.base id (some value)
  content := Function.update o.content id (some value)

variable {o : Overlay O} {id x : StringPtr} {value : Option (AnyRef O)}

@[simp] theorem put_base : (o.put id value).base = o.base := rfl

@[simp] theorem put_content : (o.put id value).content id = some value := Function.update_self ..

theorem put_content_of_ne (h : x ≠ id) : (o.put id value).content x = o.content x :=
  Function.update_of_ne h ..

theorem put_of_content (h : o.content id = some value) : o.put id value = o := by
  rw [put, ← h, Function.update_eq_self]

@[simp] theorem create_base : (o.create id value).base id = some value := Function.update_self ..

@[simp] theorem create_content : (o.create id value).content id = some value :=
  Function.update_self ..

theorem create_base_of_ne (h : x ≠ id) : (o.create id value).base x = o.base x :=
  Function.update_of_ne h ..

theorem create_content_of_ne (h : x ≠ id) : (o.create id value).content x = o.content x :=
  Function.update_of_ne h ..

end Overlay

/-- The effect of an operation that succeeded. -/
def Op.apply (o : Overlay O) : Op O → Overlay O
  | .newPtr id value _ => o.create id value
  | .init id default =>
    match o.content id with
    | some none => o.put id default
    | _ => o
  | .write id value => o.put id value
  | .delete id => o.put id none
  | .readOpt _ | .lock _ => o

/-- The transaction's context and what it stands for. -/
structure Session (O : Type) where
  ctx : STMTxnCtx O
  overlay : Overlay O

section

-- `valueType` is the class of each pointer's values
variable (k : Cluster O) (valueType : StringPtr → RuntimeClass)

/-- The value that the cluster has for a pointer of this type. -/
def Cluster.snapshot (id : StringPtr) : Option (Option (AnyRef O)) :=
  (k.read (valueType id) id).toOption.map Option.join

/-- The operation as a program. -/
def Op.exec [DecidableEq O] : Op O → Txn O Unit
  | .newPtr id value answer => do
    let _ ← STMTxnCtx.newPtr k id value answer
  | .init id default => STMPtr.init k (valueType id) id default
  | .readOpt id => do
    let _ ← STMPtr.readOpt k (valueType id) id
  | .write id value => STMPtr.write k (valueType id) id value
  | .delete id => STMPtr.delete k id
  | .lock id => do
    let _ ← STMPtr.lock k id

namespace Session

/-- One operation: it counts when it succeeds. -/
def step [DecidableEq O] (s : Session O) (op : Op O) : Session O :=
  match op.exec k valueType s.ctx with
  | .ok _ ctx => { ctx := ctx, overlay := op.apply s.overlay }
  | .error _ ctx => { s with ctx := ctx }

def start (caller : ℕ) (txnId : TxnTime) : Session O where
  ctx := { caller := caller, txnId := txnId }
  overlay := { base := k.snapshot valueType, content := k.snapshot valueType }

/-- A pointer to be deleted is held in a cache, or reads the same as a `Nothing$`. The
    id drawn for a new pointer was not written before. -/
def Known (s : Session O) : Op O → Prop
  | .delete id =>
    id ∈ s.ctx.writeCache ∨ id ∈ s.ctx.initCache ∨ id ∈ s.ctx.readCache ∨
      (k.read .nothing id).toOption.map Option.join = k.snapshot valueType id
  | .newPtr id _ _ => id ∉ s.ctx.writeCache
  | _ => True

instance [DecidableEq O] (s : Session O) : ∀ op, Decidable (s.Known k valueType op)
  | .delete id =>
    inferInstanceAs (Decidable
      (id ∈ s.ctx.writeCache ∨ id ∈ s.ctx.initCache ∨ id ∈ s.ctx.readCache ∨
        (k.read .nothing id).toOption.map Option.join = k.snapshot valueType id))
  | .newPtr id _ _ => inferInstanceAs (Decidable (id ∉ s.ctx.writeCache))
  | .init _ _ | .readOpt _ | .write _ _ | .lock _ => inferInstanceAs (Decidable True)

end Session

end

/-! ## Caches in step with the overlay -/

/-- The call sends a value or a deletion to the pointer. -/
def Call.writes {V : Type} (id : StringPtr) : Call V → Bool
  | .queueValue x _ _ | .delete x _ => decide (x = id)
  | _ => false

namespace STMTxnCtx

variable {k : Cluster O} {valueType : StringPtr → RuntimeClass}
variable {ctx : STMTxnCtx O} {o : Overlay O} {id : StringPtr}

variable (k valueType) in
/-- `writeCache` over `initCache` over the cluster is the overlay. What is cached is what
    the cluster answered, what is written is locked, and nothing is sent yet. -/
structure Represents (ctx : STMTxnCtx O) (o : Overlay O) : Prop where
  isOpen : ctx.isClosed = false
  content : ∀ id, o.content id = (ctx.writeCache.lookup id).or (o.base id)
  base : ∀ id, o.base id = (ctx.initCache.lookup id).or (k.snapshot valueType id)
  reads : ∀ id future, ctx.readCache.lookup id = some future →
    future.toOption.map Option.join = k.snapshot valueType id
  locks : ∀ id, ctx.writeLocks.lookup id = some (.ok true) →
    k.lock id = .ok none ∧ .lock id ctx.txnId ∈ ctx.calls
  written : ∀ id ∈ ctx.writeCache, ctx.writeLocks.lookup id = some (.ok true)
  unsent : ∀ c ∈ ctx.calls, ∀ id, c.writes id = false
  asked : ∀ id, ctx.calls.count (.getPtr id ctx.txnId) = if id ∈ ctx.readCache then 1 else 0

theorem wp_await {α : Type} {future : Except Failure α} {Q : α → STMTxnCtx O → Prop}
    {E : Failure → STMTxnCtx O → Prop} :
    wp (await future) Q E ctx ↔
      (∀ a, future = .ok a → Q a ctx) ∧ ∀ e, future = .error e → E e ctx := by
  cases future <;> simp [await, wp_pure, wp_throw]

theorem wp_chainEx {α : Type} {str : String} {x : Txn O α} {Q : α → STMTxnCtx O → Prop}
    {E : Failure → STMTxnCtx O → Prop} :
    wp (chainEx str x) Q E ctx ↔ wp x Q (fun e ctx' => E (e.chainEx str) ctx') ctx :=
  wp_adaptExcept

theorem wp_requireOpen {Q : Unit → STMTxnCtx O → Prop} {E : Failure → STMTxnCtx O → Prop}
    (hopen : ctx.isClosed = false) : wp requireOpen Q E ctx ↔ Q () ctx := by
  simp [requireOpen, wp_bind, wp_get, wp_pure, hopen]

theorem Represents.unsent_concat (h : ctx.Represents k valueType o) {c : Call JacksonValue}
    (hc : ∀ x, c.writes x = false) : ∀ c' ∈ ctx.calls ++ [c], ∀ x, c'.writes x = false := by
  intro c' hc' x
  rcases List.mem_append.mp hc' with hc' | hc'
  · exact h.unsent c' hc' x
  · rw [List.mem_singleton.mp hc']
    exact hc x

/-- A read that is asked for the first time may be cached. -/
theorem Represents.cacheRead (h : ctx.Represents k valueType o)
    {future : Except Failure (Option (Option (AnyRef O)))} (hcache : id ∉ ctx.readCache)
    (hread : future.toOption.map Option.join = k.snapshot valueType id) :
    Represents k valueType
      { ctx with
        readCache := ctx.readCache.insert id future
        calls := ctx.calls ++ [.getPtr id ctx.txnId] } o where
  isOpen := h.isOpen
  content := h.content
  base := h.base
  reads x future' hlookup := by
    by_cases hx : x = id
    · subst hx
      rw [AList.lookup_insert] at hlookup
      obtain rfl := Option.some.inj hlookup
      exact hread
    · rw [AList.lookup_insert_ne hx] at hlookup
      exact h.reads x future' hlookup
  locks x hlock := (h.locks x hlock).imp_right (List.mem_append_left _)
  written := h.written
  unsent := h.unsent_concat fun _ => rfl
  asked x := by
    rw [List.count_append, h.asked]
    by_cases hx : x = id
    · subst hx
      simp [hcache]
    · have hne : Call.getPtr id ctx.txnId ≠ (Call.getPtr x ctx.txnId : Call JacksonValue) :=
        fun heq => hx (Call.getPtr.inj heq).1.symm
      simp [hx, hne]

/-- The context holds the pointer's value, or `c` reads it as its type does. -/
theorem Represents.readOpt (h : ctx.Represents k valueType o) {c : RuntimeClass}
    (hknown : id ∈ ctx.writeCache ∨ id ∈ ctx.initCache ∨ id ∈ ctx.readCache ∨
      (k.read c id).toOption.map Option.join = k.snapshot valueType id) :
    wp (STMTxnCtx.readOpt k c id)
      (fun value ctx' => o.content id = some value.join ∧ ctx'.Represents k valueType o)
      (fun _ ctx' => o.content id = none ∧ ctx'.Represents k valueType o) ctx := by
  have hcontent : o.content id = ((ctx.writeCache.lookup id).or (ctx.initCache.lookup id)).or
      (k.snapshot valueType id) := by
    rw [h.content, h.base, Option.or_assoc]
  have houtcome : ∀ future : Except Failure (Option (Option (AnyRef O))),
      future.toOption.map Option.join = o.content id →
      (∀ a, future = .ok a → o.content id = some a.join) ∧
        ∀ e, future = .error e → o.content id = none := by
    rintro (e | a) hfuture
    · exact ⟨nofun, fun _ _ => hfuture.symm⟩
    · refine ⟨fun a' ha' => ?_, nofun⟩
      obtain rfl := Except.ok.inj ha'
      exact hfuture.symm
  simp only [STMTxnCtx.readOpt, wp_bind, wp_requireOpen h.isOpen, wp_get]
  split
  · rename_i x hown
    rw [wp_pure]
    rw [hown] at hcontent
    refine ⟨?_, h⟩
    cases x <;> exact hcontent
  · rename_i hown
    rw [hown, Option.none_or] at hcontent
    split
    · rename_i future hcache
      have hfuture := houtcome future ((h.reads id future hcache).trans hcontent.symm)
      exact wp_await.mpr ⟨fun a ha => ⟨hfuture.1 a ha, h⟩, fun e he => ⟨hfuture.2 e he, h⟩⟩
    · rename_i hcache
      obtain ⟨hwrite, hinit⟩ := Option.or_eq_none_iff.mp hown
      rw [AList.lookup_eq_none] at hcache hwrite hinit
      have hread : (k.read c id).toOption.map Option.join = k.snapshot valueType id := by
        tauto
      have hfuture := houtcome (k.read c id) (hread.trans hcontent.symm)
      have h' := h.cacheRead hcache hread
      rw [wp_bind, wp_modify, wp_await]
      exact ⟨fun a ha => ⟨hfuture.1 a ha, h'⟩, fun e he => ⟨hfuture.2 e he, h'⟩⟩

/-- A call that neither writes nor reads a pointer at the transaction's timestamp. -/
theorem Represents.called (h : ctx.Represents k valueType o) {c : Call JacksonValue}
    (hwrites : ∀ x, c.writes x = false) (hread : ∀ x, c ≠ .getPtr x ctx.txnId) :
    Represents k valueType { ctx with calls := ctx.calls ++ [c] } o where
  isOpen := h.isOpen
  content := h.content
  base := h.base
  reads := h.reads
  locks x hlock := (h.locks x hlock).imp_right (List.mem_append_left _)
  written := h.written
  unsent := h.unsent_concat hwrites
  asked x := by
    have hother : [c].count (.getPtr x ctx.txnId) = 0 := by simp [hread x]
    rw [List.count_append, h.asked, hother, Nat.add_zero]

/-- The answer to a lock that was called for may be cached. -/
theorem Represents.cacheLock (h : ctx.Represents k valueType o) (hlocks : id ∉ ctx.writeLocks)
    (hcalled : .lock id ctx.txnId ∈ ctx.calls) :
    Represents k valueType
      { ctx with writeLocks := ctx.writeLocks.insert id ((k.lock id).map Option.isNone) } o where
  isOpen := h.isOpen
  content := h.content
  base := h.base
  reads := h.reads
  locks x hlock := by
    by_cases hx : x = id
    · subst hx
      rw [AList.lookup_insert] at hlock
      refine ⟨?_, hcalled⟩
      rcases hanswer : k.lock x with e | _ | t
      · rw [hanswer] at hlock; cases hlock
      · rfl
      · rw [hanswer] at hlock; cases hlock
    · rw [AList.lookup_insert_ne hx] at hlock
      exact h.locks x hlock
  written x hx := by
    have hlock := h.written x hx
    have hne : x ≠ id := by
      rintro rfl
      rw [AList.lookup_eq_none.mpr hlocks] at hlock; cases hlock
    rw [AList.lookup_insert_ne hne]
    exact hlock
  unsent := h.unsent
  asked := h.asked

/-- A lock that is granted is in `writeLocks`. -/
theorem Represents.lockOptional (h : ctx.Represents k valueType o) :
    wp (STMTxnCtx.lockOptional k id)
      (fun success ctx' => ctx'.Represents k valueType o ∧
        ctx'.writeLocks.lookup id = some (.ok success))
      (fun _ ctx' => ctx'.Represents k valueType o) ctx := by
  simp only [STMTxnCtx.lockOptional, wp_bind, wp_get]
  split
  · rename_i future hcache
    rw [wp_await]
    refine ⟨fun success hsuccess => ⟨h, ?_⟩, fun _ _ => h⟩
    rw [hcache, hsuccess]
  · rename_i hcache
    have h' := (h.called (c := .lock id ctx.txnId) (fun _ => rfl) nofun).cacheLock
      (AList.lookup_eq_none.mp hcache) (List.mem_append_right _ (List.mem_singleton_self _))
    rw [if_neg (by simp [h.isOpen]), wp_bind, wp_modify, wp_await]
    refine ⟨fun success hsuccess => ⟨h', ?_⟩, fun _ _ => h'⟩
    rw [AList.lookup_insert, hsuccess]

theorem Represents.lock (h : ctx.Represents k valueType o) :
    wp (STMTxnCtx.lock k id)
      (fun _ ctx' => ctx'.Represents k valueType o ∧ ctx'.writeLocks.lookup id = some (.ok true))
      (fun _ ctx' => ctx'.Represents k valueType o) ctx := by
  rw [STMTxnCtx.lock, wp_bind]
  refine wp_mono h.lockOptional (fun success ctx' h' => ?_) fun _ _ h' => h'
  cases success with
  | true => exact h'
  | false => exact h'.1

/-- What is written under the lock becomes the content. -/
theorem Represents.put (h : ctx.Represents k valueType o)
    (hlock : ctx.writeLocks.lookup id = some (.ok true)) (value : Option (AnyRef O)) :
    Represents k valueType { ctx with writeCache := ctx.writeCache.insert id value }
      (o.put id value) where
  isOpen := h.isOpen
  content x := by
    by_cases hx : x = id
    · subst hx
      rw [Overlay.put_content, AList.lookup_insert, Option.some_or]
    · rw [Overlay.put_content_of_ne hx, AList.lookup_insert_ne hx, h.content, Overlay.put_base]
  base := h.base
  reads := h.reads
  locks := h.locks
  written x hx := by
    rcases (AList.mem_insert _).mp hx with rfl | hx
    · exact hlock
    · exact h.written x hx
  unsent := h.unsent
  asked := h.asked

/-- The end of `write` and `delete`: the lock, then the entry of `writeCache`. -/
theorem Represents.lockAndPut (h : ctx.Represents k valueType o) (e : Failure)
    (value : Option (AnyRef O)) {E : Failure → STMTxnCtx O → Prop}
    (hE : ∀ e ctx', ctx'.Represents k valueType o → E e ctx') :
    wp (do
        STMTxnCtx.lock k id
        if (← get).isClosed then throw e
        modify fun ctx => { ctx with writeCache := ctx.writeCache.insert id value })
      (fun _ ctx' => ctx'.Represents k valueType (o.put id value)) E ctx := by
  rw [wp_bind]
  refine wp_mono h.lock (fun _ ctx' h' => ?_) hE
  rw [wp_bind, wp_get]
  simp only [h'.1.isOpen]
  exact h'.1.put h'.2 value

theorem Represents.write [DecidableEq O] (h : ctx.Represents k valueType o)
    (value : Option (AnyRef O)) :
    wp (STMPtr.write k (valueType id) id value)
      (fun _ ctx' => ctx'.Represents k valueType (o.put id value))
      (fun _ ctx' => ctx'.Represents k valueType o) ctx := by
  rw [STMPtr.write, STMPtr.recover, wp_adaptExcept, STMTxnCtx.write, wp_chainEx, wp_bind,
    wp_requireOpen h.isOpen, wp_bind]
  refine wp_mono (h.readOpt (.inr (.inr (.inr rfl)))) (fun prior ctx' h' => ?_) fun _ _ h' => h'.2
  obtain ⟨hprior, h'⟩ := h'
  by_cases hvalue : value = prior.join
  · -- elided: this is the content already
    rw [if_neg (not_not_intro hvalue)]
    show ctx'.Represents k valueType (o.put id value)
    rw [Overlay.put_of_content (hvalue ▸ hprior)]
    exact h'
  · rw [if_pos hvalue]
    exact h'.lockAndPut _ value fun _ _ h' => h'

theorem Represents.delete (h : ctx.Represents k valueType o)
    (hknown : id ∈ ctx.writeCache ∨ id ∈ ctx.initCache ∨ id ∈ ctx.readCache ∨
      (k.read .nothing id).toOption.map Option.join = k.snapshot valueType id) :
    wp (STMPtr.delete k id)
      (fun _ ctx' => ctx'.Represents k valueType (o.put id none))
      (fun _ ctx' => ctx'.Represents k valueType o) ctx := by
  rw [STMPtr.delete, STMPtr.recover, wp_adaptExcept, STMTxnCtx.delete, wp_chainEx, wp_bind,
    wp_requireOpen h.isOpen, wp_bind]
  refine wp_mono (h.readOpt hknown) (fun prior ctx' h' => ?_) fun _ _ h' => h'.2
  obtain ⟨hprior, h'⟩ := h'
  cases prior with
  | none =>
    show ctx'.Represents k valueType (o.put id none)
    rw [Overlay.put_of_content (show o.content id = some none from hprior)]
    exact h'
  | some prior => exact h'.lockAndPut _ none fun _ _ h' => h'

/-- `STMPtr.readOpt` returns the content and fails where there is none to read. -/
theorem Represents.readPtr (h : ctx.Represents k valueType o) :
    wp (STMPtr.readOpt k (valueType id) id)
      (fun value ctx' => o.content id = some value ∧ ctx'.Represents k valueType o)
      (fun _ ctx' => o.content id = none ∧ ctx'.Represents k valueType o) ctx := by
  rw [STMPtr.readOpt, wp_bind, wp_requireOpen h.isOpen, wp_chainEx, wp_bind]
  exact h.readOpt (.inr (.inr (.inr rfl)))

theorem Represents.init [DecidableEq O] (h : ctx.Represents k valueType o)
    (default : Option (AnyRef O)) :
    wp (STMPtr.init k (valueType id) id default)
      (fun _ ctx' => ctx'.Represents k valueType ((Op.init id default).apply o))
      (fun _ ctx' => ctx'.Represents k valueType o) ctx := by
  rw [STMPtr.init, wp_bind]
  refine wp_mono h.readPtr (fun value ctx' h' => ?_) fun _ _ h' => h'.2
  obtain ⟨hvalue, h'⟩ := h'
  rw [Op.apply, hvalue]
  cases value with
  | none => exact h'.write default
  | some value => exact h'

/-- A pointer that was not written before may be created. -/
theorem Represents.create (h : ctx.Represents k valueType o) (hfresh : id ∉ ctx.writeCache)
    (value : Option (AnyRef O)) :
    Represents k valueType { ctx with initCache := ctx.initCache.insert id value }
      (o.create id value) where
  isOpen := h.isOpen
  content x := by
    by_cases hx : x = id
    · subst hx
      rw [Overlay.create_content, Overlay.create_base, AList.lookup_eq_none.mpr hfresh,
        Option.none_or]
    · rw [Overlay.create_content_of_ne hx, Overlay.create_base_of_ne hx, h.content]
  base x := by
    by_cases hx : x = id
    · subst hx
      rw [Overlay.create_base, AList.lookup_insert, Option.some_or]
    · rw [Overlay.create_base_of_ne hx, AList.lookup_insert_ne hx, h.base]
  reads := h.reads
  locks := h.locks
  written := h.written
  unsent := h.unsent
  asked := h.asked

theorem Represents.newPtr (h : ctx.Represents k valueType o) (hfresh : id ∉ ctx.writeCache)
    (value : Option (AnyRef O)) (answer : Except Failure Unit) :
    wp (STMTxnCtx.newPtr k id value answer)
      (fun _ ctx' => ctx'.Represents k valueType (o.create id value))
      (fun _ ctx' => ctx'.Represents k valueType o) ctx := by
  have h' := h.called (c := .newPtr id ctx.txnId (.ofValue k.mapper value)) (fun _ => rfl) nofun
  rw [STMTxnCtx.newPtr, wp_bind, wp_modify, wp_bind, wp_await]
  refine ⟨fun _ _ => ?_, fun _ _ => h'⟩
  rw [wp_bind, wp_modify, wp_pure]
  exact h'.create hfresh value

/-! ### Commit -/

theorem entryCall_writes {txnId : TxnTime} {value : Option (AnyRef O)} {x : StringPtr} :
    (entryCall k id txnId value).writes x = decide (id = x) := by
  cases value <;> rfl

/-- One call for each entry of the cache. -/
theorem filter_writes (txnId : TxnTime) (id : StringPtr)
    (l : List (Sigma fun _ : StringPtr => Option (AnyRef O))) (hl : l.NodupKeys) :
    (l.map fun write => entryCall k write.1 txnId write.2).filter (Call.writes id) =
      ((l.dlookup id).map (entryCall k id txnId)).toList := by
  induction l with
  | nil => rfl
  | cons write l ih =>
    obtain ⟨x, value⟩ := write
    obtain ⟨hx, hl⟩ := List.nodupKeys_cons.mp hl
    rw [List.map_cons, List.filter_cons, entryCall_writes, ih hl]
    by_cases hid : x = id
    · subst hid
      simp [List.dlookup_eq_none.mpr hx]
    · have hne : id ≠ x := fun h => hid h.symm
      simp [hid, List.dlookup_cons_ne l ⟨x, value⟩ hne]

theorem Represents.filter_calls (h : ctx.Represents k valueType o) (id : StringPtr) :
    (ctx.calls ++ ctx.writes k).filter (Call.writes id) =
      ((ctx.writeCache.lookup id).map (entryCall k id ctx.txnId)).toList := by
  have hunsent : ctx.calls.filter (Call.writes id) = [] := by
    simpa [List.filter_eq_nil_iff] using fun c hc => h.unsent c hc id
  rw [List.filter_append, hunsent, List.nil_append]
  exact filter_writes ctx.txnId id ctx.writeCache.entries ctx.writeCache.nodupKeys

/-- However `commit` ends, it has sent one call for each entry of `writeCache`. -/
theorem Represents.commit (h : ctx.Represents k valueType o) {P : List (Call JacksonValue) → Prop}
    (hP : P ((ctx.writeCache.lookup id).map (entryCall k id ctx.txnId)).toList) :
    wp (STMTxnCtx.commit k) (fun _ ctx' => P (ctx'.calls.filter (Call.writes id)))
      (fun _ ctx' => P (ctx'.calls.filter (Call.writes id))) ctx := by
  rw [← h.filter_calls] at hP
  have hcommit : P ((ctx.calls ++ ctx.writes k ++ [Call.commit ctx.caller ctx.txnId]).filter
      (Call.writes id)) := by
    rw [List.filter_append]
    simpa [Call.writes] using hP
  let closed : STMTxnCtx O :=
    { ctx with isClosed := true, calls := ctx.calls ++ ctx.writes k }
  -- the answers are awaited without a change of the context
  have hawait : wp ((ctx.writes k).forM fun call => await (k.answer call))
      (fun _ ctx' => ctx' = closed) (fun _ ctx' => ctx' = closed) closed :=
    wp_forM (I := fun ctx' => ctx' = closed)
      (fun _ _ _ h' => wp_await.mpr ⟨fun _ _ => h', fun _ _ => h'⟩) rfl
  rw [STMTxnCtx.commit, wp_bind, wp_modify, wp_bind, wp_get, wp_bind, wp_modify, wp_bind]
  refine wp_mono hawait ?_ ?_
  · rintro _ ctx' rfl
    rw [wp_bind, wp_modify, wp_await]
    exact ⟨fun _ _ => hcommit, fun _ _ => hcommit⟩
  · rintro _ ctx' rfl
    exact hP

end STMTxnCtx

/-! ## Runs -/

namespace Session

open STMTxnCtx

variable {k : Cluster O} {valueType : StringPtr → RuntimeClass} [DecidableEq O]

/-- Every known operation acts on the overlay as it should, and not at all when it
    fails. -/
theorem exec_represents {s : Session O} (h : s.ctx.Represents k valueType s.overlay) {op : Op O}
    (hknown : s.Known k valueType op) :
    wp (op.exec k valueType)
      (fun _ ctx' => ctx'.Represents k valueType (op.apply s.overlay))
      (fun _ ctx' => ctx'.Represents k valueType s.overlay) s.ctx := by
  cases op with
  | newPtr id value answer =>
    rw [Op.exec, wp_bind]
    exact h.newPtr hknown value answer
  | init id default => exact h.init default
  | readOpt id =>
    rw [Op.exec, wp_bind]
    exact wp_mono h.readPtr (fun _ _ h' => h'.2) fun _ _ h' => h'.2
  | write id value => exact h.write value
  | delete id => exact h.delete hknown
  | lock id =>
    rw [Op.exec, wp_bind, STMPtr.lock, wp_chainEx]
    exact wp_mono h.lockOptional (fun _ _ h' => h'.1) fun _ _ h' => h'

theorem step_represents {s : Session O} (h : s.ctx.Represents k valueType s.overlay) {op : Op O}
    (hknown : s.Known k valueType op) :
    (s.step k valueType op).ctx.Represents k valueType (s.step k valueType op).overlay := by
  have hexec := exec_represents h hknown
  unfold wp at hexec
  unfold step
  cases hresult : op.exec k valueType s.ctx with
  | ok _ ctx' => rw [hresult] at hexec; exact hexec
  | error e ctx' => rw [hresult] at hexec; exact hexec

omit [DecidableEq O] in
theorem start_represents (caller : ℕ) (txnId : TxnTime) :
    (start k valueType caller txnId).ctx.Represents k valueType
      (start k valueType caller txnId).overlay where
  isOpen := rfl
  content _ := rfl
  base _ := rfl
  reads _ _ h := by cases h
  locks _ h := by cases h
  written _ h := absurd h (AList.notMem_empty _)
  unsent _ h := absurd h List.not_mem_nil
  asked _ := rfl

/-- The caches are in step with the overlay in every run of known operations. -/
theorem represents_of_run (caller : ℕ) (txnId : TxnTime) (ops : List (Op O))
    (hknown : Along (step k valueType) (Known k valueType) (start k valueType caller txnId) ops) :
    (run (step k valueType) (start k valueType caller txnId) ops).ctx.Represents k valueType
      (run (step k valueType) (start k valueType caller txnId) ops).overlay :=
  hknown.invariant (I := fun s => s.ctx.Represents k valueType s.overlay)
    (fun _ _ h hop => step_represents h hop) (start_represents caller txnId)

/-- What `commit` sends to a pointer: nothing if its content is what it was before, or
    was created with; else the content, once, under a lock that was granted. -/
def Sends (k : Cluster O) (s : Session O) (id : StringPtr) (sent : List (Call JacksonValue)) :
    Prop :=
  (sent = [] ∧ s.overlay.content id = s.overlay.base id) ∨
    ∃ value, s.overlay.content id = some value ∧
      sent = [entryCall k id s.ctx.txnId value] ∧
      k.lock id = .ok none ∧ .lock id s.ctx.txnId ∈ s.ctx.calls

omit [DecidableEq O] in
theorem sends_of_represents {s : Session O} (h : s.ctx.Represents k valueType s.overlay)
    (id : StringPtr) :
    s.Sends k id ((s.ctx.writeCache.lookup id).map (entryCall k id s.ctx.txnId)).toList := by
  have hcontent := h.content id
  cases hwrite : s.ctx.writeCache.lookup id with
  | none =>
    rw [hwrite, Option.none_or] at hcontent
    exact .inl ⟨rfl, hcontent⟩
  | some value =>
    rw [hwrite, Option.some_or] at hcontent
    have hlock := h.written id (AList.lookup_isSome.mp (hwrite ▸ rfl))
    exact .inr ⟨value, hcontent, rfl, h.locks id hlock⟩

/-- After any run of known operations, reading a pointer returns the value last
    written, else the initial value, else the cluster's, and fails where the cluster's
    cannot be read; the cluster was asked for it at most once; and `commit`, however it
    ends, sends the pointer nothing if the content is unchanged, and else the content
    exactly once, under the pointer's lock. -/
theorem overlay_of_run (k : Cluster O) (valueType : StringPtr → RuntimeClass) (caller : ℕ)
    (txnId : TxnTime) (ops : List (Op O))
    (hknown : Along (step k valueType) (Known k valueType) (start k valueType caller txnId) ops) :
    let s := run (step k valueType) (start k valueType caller txnId) ops
    (∀ id, wp (STMPtr.readOpt k (valueType id) id)
      (fun value _ => s.overlay.content id = some value)
      (fun _ _ => s.overlay.content id = none) s.ctx) ∧
    (∀ id, s.ctx.calls.count (.getPtr id s.ctx.txnId) ≤ 1) ∧
    ∀ id, wp (STMTxnCtx.commit k)
      (fun _ ctx' => s.Sends k id (ctx'.calls.filter (Call.writes id)))
      (fun _ ctx' => s.Sends k id (ctx'.calls.filter (Call.writes id))) s.ctx := by
  intro s
  have h := represents_of_run caller txnId ops hknown
  refine ⟨fun id => wp_mono h.readPtr (fun _ _ h' => h'.1) fun _ _ h' => h'.1, fun id => ?_,
    fun id => h.commit (sends_of_represents h id)⟩
  rw [h.asked]
  split <;> omega

/-- A cluster of strings that grants every lock. -/
def strings (stored : StringPtr → Option String) : Cluster Empty where
  mapper :=
    { writeValue := fun _ => "null"
      readValue := fun json _ =>
        if json = "null" then .ok none
        else .error (.illegalArgument ("Unrecognized token '" ++ json ++ "'"))
      pretty := .ok }
  getPtr id := .ok ((stored id).map .mk)
  lock _ := .ok none
  answer _ := .ok ()

/-- A pointer is read, overwritten, deleted and written again; another is created and
    deleted. -/
theorem overlay_of_run_overwrites :
    let k := strings fun _ => some "bar"
    let ops : List (Op Empty) :=
      [.readOpt ⟨"p"⟩, .write ⟨"p"⟩ (some (.string "jack")), .delete ⟨"p"⟩,
        .write ⟨"p"⟩ (some (.string "jill")), .newPtr ⟨"q"⟩ (some (.string "foo")) (.ok ()),
        .delete ⟨"q"⟩]
    let s := run (step k fun _ => .string) (start k (fun _ => .string) 0 (.ofEpoch 5)) ops
    s.overlay.content ⟨"p"⟩ = some (some (.string "jill")) ∧
    wp (STMPtr.readOpt k .string ⟨"p"⟩) (fun value _ => s.overlay.content ⟨"p"⟩ = some value)
      (fun _ _ => s.overlay.content ⟨"p"⟩ = none) s.ctx ∧
    wp (STMTxnCtx.commit k)
      (fun _ ctx' => s.Sends k ⟨"q"⟩ (ctx'.calls.filter (Call.writes ⟨"q"⟩)))
      (fun _ ctx' => s.Sends k ⟨"q"⟩ (ctx'.calls.filter (Call.writes ⟨"q"⟩))) s.ctx := by
  intro k ops
  have h := overlay_of_run k (fun _ => .string) 0 (.ofEpoch 5) ops (by decide)
  have hcontent : (run (step k fun _ => .string) (start k (fun _ => .string) 0 (.ofEpoch 5))
      ops).overlay.content ⟨"p"⟩ = some (some (.string "jill")) := by decide
  generalize run (step k fun _ => .string) (start k (fun _ => .string) 0 (.ofEpoch 5)) ops = s
    at h hcontent ⊢
  exact ⟨hcontent, h.1 ⟨"p"⟩, h.2.2 ⟨"q"⟩⟩

/-- Two strings that are deleted without having been read. The deletion of "foo" fails
    and so does every later read, although the cluster has the value. The deletion of the
    empty string succeeds, but nothing is sent. -/
theorem delete_unread :
    (let k := strings fun _ => some "foo"
     let s := run (step k fun _ => .string) (start k (fun _ => .string) 0 (.ofEpoch 5))
       [.delete ⟨"p"⟩]
     s.overlay.content ⟨"p"⟩ = some (some (.string "foo")) ∧
      wp (STMPtr.readOpt k .string ⟨"p"⟩) (fun _ _ => False) (fun _ _ => True) s.ctx) ∧
    (let k := strings fun _ => some ""
     let s := run (step k fun _ => .string) (start k (fun _ => .string) 0 (.ofEpoch 5))
       [.delete ⟨"p"⟩]
     s.overlay.base ⟨"p"⟩ = some (some (.string "")) ∧ s.overlay.content ⟨"p"⟩ = some none ∧
      wp (STMTxnCtx.commit k) (fun _ ctx' => ctx'.calls.filter (Call.writes ⟨"p"⟩) = [])
        (fun _ _ => False) s.ctx) := by
  decide

end Session

end ReSTM
