import ReSTM.Common.LastWhere
import ReSTM.Types.JacksonValue
import ReSTM.Types.StringPtr
import ReSTM.Types.TxnTimeText
import Mathlib.Data.List.AList

/-!
# Cold storage

Models of `ColdStorage` (`storage/cold/ColdStorage.scala`) and its implementations on the
heap, in a Berkeley DB and in a DynamoDB table. What lies below them is taken as a map:
the `TrieMap`s, the database from bytes to bytes, and the table from a hash key and a
range key to an item. Kryo is the identity.

* `Faithful`: no `store` failed, and `read` returns what was stored last.
* `read_run_heap`, `read_run_bdb`, `read_run_dynamo`: what each implementation returns
  after any calls.
* `coldStorage_faithful`: for which calls each implementation is faithful.
-/

namespace ReSTM

open LastWhere

/-- `Map[TimeStamp, ValueType]`. The value `none` is `null`, which marks a deletion. -/
abbrev Versions (V : Type) : Type := AList fun _ : TxnTime => Option V

namespace Versions

variable {V : Type} {t : TxnTime}

/-- `m ++ data`: the bindings of `data` win. -/
def concat (m data : Versions V) : Versions V := data ∪ m

/-- Put the bindings `l` into `m`, one after the other. -/
def putAll (l : List ((_ : TxnTime) × Option V)) (m : Versions V) : Versions V :=
  l.foldl (fun m e => m.insert e.1 e.2) m

/-- `.toMap`: of several bindings for a key the last one wins. -/
def ofList (l : List ((_ : TxnTime) × Option V)) : Versions V := putAll l ∅

theorem putAll_append_one (l : List ((_ : TxnTime) × Option V)) (e : (_ : TxnTime) × Option V)
    (m : Versions V) : putAll (l ++ [e]) m = (putAll l m).insert e.1 e.2 := by
  rw [putAll, List.foldl_append]
  rfl

theorem lookup_putAll (l : List ((_ : TxnTime) × Option V)) (m : Versions V) :
    (putAll l m).lookup t =
      ((lastWhere (fun e => decide (e.1 = t)) l).map (·.2)).or (m.lookup t) := by
  induction l using List.reverseRecOn with
  | nil => rfl
  | append_singleton l e ih =>
    rw [putAll_append_one, lastWhere, List.filter_append]
    by_cases h : e.1 = t
    · subst h
      simp [AList.lookup_insert]
    · rw [AList.lookup_insert_ne (Ne.symm h), ih]
      simp [lastWhere, h]

theorem lookup_ofList_of_not_mem {l : List ((_ : TxnTime) × Option V)} (h : ∀ e ∈ l, e.1 ≠ t) :
    (ofList l).lookup t = none := by
  have hnone : lastWhere (fun e => decide (e.1 = t)) l = none :=
    lastWhere_eq_none_iff.mpr fun e he => decide_eq_false (h e he)
  rw [ofList, lookup_putAll, hnone]
  rfl

/-- Of bindings for different keys each is found again. -/
theorem lookup_ofList_of_mem {l : List ((_ : TxnTime) × Option V)} {e : (_ : TxnTime) × Option V}
    (hl : (l.map (·.1)).Nodup) (he : e ∈ l) : (ofList l).lookup e.1 = some e.2 := by
  rw [ofList, lookup_putAll]
  cases hlast : lastWhere (fun x => decide (x.1 = e.1)) l with
  | none =>
    have := lastWhere_eq_none_iff.mp hlast e he
    simp at this
  | some x =>
    obtain ⟨hmem, hkey⟩ := mem_of_lastWhere hlast
    have hx : x = e := List.inj_on_of_nodup_map hl hmem he (of_decide_eq_true hkey)
    rw [hx]
    rfl

/-- The last binding of a map for a key is its only one. -/
theorem lastWhere_entries (m : Versions V) :
    (lastWhere (fun e => decide (e.1 = t)) m.entries).map (·.2) = m.lookup t := by
  cases hlast : lastWhere (fun e => decide (e.1 = t)) m.entries with
  | none =>
    rw [lastWhere_eq_none_iff] at hlast
    have hmem : t ∉ m := by
      intro hmem
      obtain ⟨e, he, rfl⟩ := List.mem_map.mp (AList.mem_keys.mp hmem)
      simpa using hlast e he
    exact (AList.lookup_eq_none.mpr hmem).symm
  | some e =>
    obtain ⟨hmem, ht⟩ := mem_of_lastWhere hlast
    rw [decide_eq_true_eq] at ht
    subst ht
    exact (AList.mem_lookup_iff.mpr hmem).symm

theorem lookup_putAll_entries (m data : Versions V) :
    (putAll data.entries m).lookup t = (data.lookup t).or (m.lookup t) := by
  rw [lookup_putAll, lastWhere_entries]

/-- A map is the map of its bindings. -/
theorem lookup_ofList_entries (m : Versions V) : (ofList m.entries).lookup t = m.lookup t := by
  rw [ofList, lookup_putAll_entries]
  exact Option.or_none

theorem lookup_concat (m data : Versions V) :
    (m.concat data).lookup t = (data.lookup t).or (m.lookup t) := by
  unfold concat
  by_cases h : t ∈ data
  · obtain ⟨v, hv⟩ := Option.isSome_iff_exists.mp (AList.lookup_isSome.mpr h)
    rw [AList.lookup_union_left h, hv, Option.some_or]
  · rw [AList.lookup_union_right h, AList.lookup_eq_none.mpr h, Option.none_or]

end Versions

/-- The implementation of `trait ColdStorage` on a state of type `S`. -/
structure ColdStorage (V S : Type) where
  empty : S
  store : StringPtr → Versions V → S → Except Failure Unit × S
  read : StringPtr → S → Except Failure (Versions V)

namespace ColdStorage

variable {V S : Type}

/-- The outcomes of the calls `store(id, data)`, and the state after them. -/
def run (C : ColdStorage V S) :
    S → List (StringPtr × Versions V) → List (Except Failure Unit) × S
  | s, [] => ([], s)
  | s, (id, data) :: calls =>
    let r := C.store id data s
    let rest := C.run r.2 calls
    (r.1 :: rest.1, rest.2)

/-- The value stored last for `id` at `t`. -/
def latest (id : StringPtr) (t : TxnTime) (calls : List (StringPtr × Versions V)) :
    Option (Option V) :=
  calls.foldl (fun v c => if c.1 = id then (c.2.lookup t).or v else v) none

/-- The value stored first for `id` at `t`. -/
def first (id : StringPtr) (t : TxnTime) (calls : List (StringPtr × Versions V)) :
    Option (Option V) :=
  calls.foldl (fun v c => if c.1 = id then v.or (c.2.lookup t) else v) none

/-- After `calls` on an empty store, none of which failed, each pointer reads as the union
    of everything stored for it, in which the latest store wins. -/
structure Faithful (C : ColdStorage V S) (calls : List (StringPtr × Versions V)) : Prop where
  store_ok : ∀ r ∈ (C.run C.empty calls).1, r = .ok ()
  read_eq : ∀ id, ∃ m, C.read id (C.run C.empty calls).2 = .ok m ∧
    ∀ t, m.lookup t = latest id t calls

variable {C : ColdStorage V S} {calls : List (StringPtr × Versions V)} {id : StringPtr} {t : TxnTime}

theorem latest_append (c : StringPtr × Versions V) :
    latest id t (calls ++ [c]) =
      if c.1 = id then (c.2.lookup t).or (latest id t calls) else latest id t calls := by
  rw [latest, List.foldl_append]
  rfl

theorem first_append (c : StringPtr × Versions V) :
    first id t (calls ++ [c]) =
      if c.1 = id then (first id t calls).or (c.2.lookup t) else first id t calls := by
  rw [first, List.foldl_append]
  rfl

theorem run_append (s : S) (calls' : List (StringPtr × Versions V)) :
    (C.run s (calls ++ calls')).1 = (C.run s calls).1 ++ (C.run (C.run s calls).2 calls').1 ∧
      (C.run s (calls ++ calls')).2 = (C.run (C.run s calls).2 calls').2 := by
  induction calls generalizing s with
  | nil => exact ⟨rfl, rfl⟩
  | cons c calls ih =>
    obtain ⟨h1, h2⟩ := ih (C.store c.1 c.2 s).2
    exact ⟨congrArg _ h1, h2⟩

theorem run_append_one (s : S) (c : StringPtr × Versions V) :
    (C.run s (calls ++ [c])).2 = (C.store c.1 c.2 (C.run s calls).2).2 :=
  (run_append s [c]).2

/-- An implementation whose `store` never fails does not fail in a run. -/
theorem run_ok (h : ∀ id data s, (C.store id data s).1 = .ok ()) (s : S) :
    ∀ r ∈ (C.run s calls).1, r = .ok () := by
  induction calls generalizing s with
  | nil => intro r hr; cases hr
  | cons c calls ih =>
    intro r hr
    rcases List.mem_cons.mp hr with rfl | hr
    · exact h c.1 c.2 s
    · exact ih _ r hr

end ColdStorage

open ColdStorage

/-! ## On the heap -/

/-- `HeapColdStorage` (`storage/cold/HeapColdStorage.scala`, lines 26–38). The map that
    `getOrElseUpdate` makes for an unknown pointer is empty. -/
def heapColdStorage (V : Type) : ColdStorage V (StringPtr → Versions V) where
  empty := fun _ => ∅
  store id data mem := (.ok (), fun x => if x = id then (mem id).concat data else mem x)
  read id mem := .ok (mem id)

variable {V : Type} {id : StringPtr} {t : TxnTime}

theorem read_run_heap (calls : List (StringPtr × Versions V)) :
    (((heapColdStorage V).run (heapColdStorage V).empty calls).2 id).lookup t = latest id t calls := by
  induction calls using List.reverseRecOn with
  | nil => rfl
  | append_singleton calls c ih =>
    rw [run_append_one, latest_append]
    generalize ((heapColdStorage V).run (heapColdStorage V).empty calls).2 = mem at ih ⊢
    show AList.lookup t (if id = c.1 then (mem c.1).concat c.2 else mem id) = _
    by_cases h : c.1 = id
    · rw [if_pos h, if_pos h.symm, Versions.lookup_concat, h, ih]
    · rw [if_neg h, if_neg (Ne.symm h), ih]

/-! ## In a Berkeley DB -/

/-- `BdbColdStorage` (`storage/cold/BdbColdStorage.scala`, lines 49–63): the entry for a
    pointer is the whole map. -/
def bdbColdStorage (V : Type) : ColdStorage V (String → Option (Versions V)) where
  empty := fun _ => none
  store id data db :=
    (.ok (), fun key => if key = id.id then some (data.concat ((db id.id).getD ∅)) else db key)
  read id db := .ok ((db id.id).getD ∅)

/-- The value stored first is kept: `data ++ read(id)` lets the old bindings win. -/
theorem read_run_bdb (calls : List (StringPtr × Versions V)) :
    ((((bdbColdStorage V).run (bdbColdStorage V).empty calls).2 id.id).getD ∅).lookup t =
      first id t calls := by
  induction calls using List.reverseRecOn with
  | nil => rfl
  | append_singleton calls c ih =>
    rw [run_append_one, first_append]
    generalize ((bdbColdStorage V).run (bdbColdStorage V).empty calls).2 = db at ih ⊢
    show AList.lookup t (Option.getD
      (if id.id = c.1.id then some (c.2.concat ((db c.1.id).getD ∅)) else db id.id) ∅) = _
    by_cases h : c.1 = id
    · rw [if_pos h, if_pos (congrArg _ h.symm), Option.getD_some, Versions.lookup_concat, h, ih]
    · have hid : id.id ≠ c.1.id := fun heq => h (by obtain ⟨id⟩ := id; obtain ⟨⟨x⟩, _⟩ := c; simp_all)
      rw [if_neg h, if_neg hid, ih]

/-! ## In a DynamoDB table -/

/-- The items of the table, by hash key `ptrId` and range key `txnTime`. -/
abbrev DynamoTable : Type := String → AList fun _ : String => String

namespace DynamoTable

/-- `table.putItem` (lines 62–64). -/
def putItem (ptrId txnTime value : String) (table : DynamoTable) : DynamoTable :=
  fun key => if key = ptrId then (table ptrId).insert txnTime value else table key

/-- The loop of `store` (lines 61–65), which writes `d._2.toString`. -/
def putItems (id : StringPtr) :
    List ((_ : TxnTime) × Option JacksonValue) → DynamoTable → Except Failure Unit × DynamoTable
  | [], table => (.ok (), table)
  | ⟨_, none⟩ :: _, table => (.error Failure.nullPointer, table)
  | ⟨time, some value⟩ :: data, table =>
    putItems id data (table.putItem id.id time.toString value.data)

/-- `read` (lines 68–72). -/
def read (id : StringPtr) (table : DynamoTable) : Except Failure (Versions JacksonValue) := do
  let items ← (table id.id).entries.mapM fun item => do
    let time ← TxnTime.ofString item.1
    return (⟨time, some ⟨item.2⟩⟩ : (_ : TxnTime) × Option JacksonValue)
  return Versions.ofList items

end DynamoTable

/-- `DynamoColdStorage` (`storage/cold/DynamoColdStorage.scala`, lines 60–72). -/
def dynamoColdStorage : ColdStorage JacksonValue DynamoTable where
  empty := fun _ => ∅
  store id data table := table.putItems id data.entries
  read := DynamoTable.read

namespace DynamoTable

/-- The item of a binding. -/
def item (e : (_ : TxnTime) × Option JacksonValue) : (_ : String) × String :=
  ⟨e.1.toString, (e.2.map (·.data)).getD ""⟩

/-- What the table can hold: no `null`, and a time that is one. -/
def Storable (e : (_ : TxnTime) × Option JacksonValue) : Prop := e.1.InRange ∧ e.2.isSome

/-- The items of the hash key `ptrId` are those of the map `m`. -/
def Holds (table : DynamoTable) (ptrId : String) (m : Versions JacksonValue) : Prop :=
  (∀ e ∈ m.entries, Storable e) ∧ (table ptrId).entries = m.entries.map item

variable {table : DynamoTable} {m : Versions JacksonValue} {e : (_ : TxnTime) × Option JacksonValue}
  {l : List ((_ : TxnTime) × Option JacksonValue)}

theorem mem_kerase (h : e ∈ List.kerase t l) : e ∈ l := (List.kerase_sublist t l).subset h

/-- Erasing a time erases its item. -/
theorem kerase_map_item (ht : t.InRange) (hl : ∀ e ∈ l, Storable e) :
    List.kerase t.toString (l.map item) = (List.kerase t l).map item := by
  induction l with
  | nil => rfl
  | cons e l ih =>
    have ih := ih fun x hx => hl x (List.mem_cons_of_mem e hx)
    by_cases h : t = e.1
    · subst h
      rw [List.kerase_cons_eq rfl]
      exact List.kerase_cons_eq (s := item e) rfl
    · have hne : t.toString ≠ (item e).1 := fun heq =>
        h (TxnTime.toString_injective ht (hl e List.mem_cons_self).1 heq)
      rw [List.map_cons, List.kerase_cons_ne hne, List.kerase_cons_ne h, List.map_cons, ih]

theorem holds_putItem {ptrId : String} {v : JacksonValue} (h : table.Holds ptrId m) (ht : t.InRange) :
    (table.putItem ptrId t.toString v.data).Holds ptrId (m.insert t (some v)) := by
  constructor
  · intro e he
    rw [AList.entries_insert, List.mem_cons] at he
    rcases he with rfl | he
    · exact ⟨ht, rfl⟩
    · exact h.1 e (mem_kerase he)
  · rw [putItem, if_pos rfl, AList.entries_insert, AList.entries_insert, h.2, kerase_map_item ht h.1]
    rfl

theorem holds_putItem_of_ne {ptrId x time v : String} (h : table.Holds x m) (hx : x ≠ ptrId) :
    (table.putItem ptrId time v).Holds x m := by
  unfold Holds putItem
  rw [if_neg hx]
  exact h

/-- `store` of a map without `null` succeeds and puts it into what the table holds. -/
theorem putItems_storable (hl : ∀ e ∈ l, Storable e) (h : table.Holds id.id m) :
    (table.putItems id l).1 = .ok () ∧ (table.putItems id l).2.Holds id.id (m.putAll l) := by
  induction l generalizing table m with
  | nil => exact ⟨rfl, h⟩
  | cons e l ih =>
    obtain ⟨time, value⟩ := e
    have hstorable := hl ⟨time, value⟩ List.mem_cons_self
    cases value with
    | none => cases hstorable.2
    | some v =>
      exact ih (fun x hx => hl x (List.mem_cons_of_mem _ hx)) (holds_putItem h hstorable.1)

theorem putItems_of_ne {x : String} (h : table.Holds x m) (hx : x ≠ id.id) :
    (table.putItems id l).2.Holds x m := by
  induction l generalizing table with
  | nil => exact h
  | cons e l ih =>
    obtain ⟨time, value⟩ := e
    cases value with
    | none => exact h
    | some v => exact ih (holds_putItem_of_ne h hx)

/-- `store` of a map with a `null` fails. -/
theorem putItems_null (h : ∃ e ∈ l, e.2 = none) :
    (table.putItems id l).1 = .error Failure.nullPointer := by
  induction l generalizing table with
  | nil => simp at h
  | cons e l ih =>
    obtain ⟨time, value⟩ := e
    cases value with
    | none => rfl
    | some v =>
      refine ih ?_
      obtain ⟨e, he, hnull⟩ := h
      rcases List.mem_cons.mp he with rfl | he
      · cases hnull
      · exact ⟨e, he, hnull⟩

/-- `read` returns what the table holds. -/
theorem read_of_holds (h : table.Holds id.id m) : table.read id = .ok (Versions.ofList m.entries) := by
  have hitems : (m.entries.map item).mapM (fun item => do
      let time ← TxnTime.ofString item.1
      return (⟨time, some ⟨item.2⟩⟩ : (_ : TxnTime) × Option JacksonValue)) = .ok m.entries := by
    have hall := h.1
    generalize m.entries = l at hall
    induction l with
    | nil => rfl
    | cons e l ih =>
      obtain ⟨hrange, hsome⟩ := hall e List.mem_cons_self
      obtain ⟨v, hv⟩ := Option.isSome_iff_exists.mp hsome
      obtain ⟨time, value⟩ := e
      subst hv
      rw [List.map_cons, List.mapM_cons, ih fun x hx => hall x (List.mem_cons_of_mem _ hx)]
      simp only [item, TxnTime.ofString_toString hrange]
      rfl
  rw [read, h.2, hitems]
  rfl

end DynamoTable

/-- The timestamps are ones. -/
def InRange (calls : List (StringPtr × Versions V)) : Prop :=
  ∀ c ∈ calls, ∀ t ∈ c.2.keys, t.InRange

/-- No `null` is stored. -/
def NoNull (calls : List (StringPtr × Versions V)) : Prop :=
  ∀ c ∈ calls, ∀ e ∈ c.2.entries, e.2 ≠ none

/-- After any calls without `null` the table holds what was stored last. -/
theorem read_run_dynamo {calls : List (StringPtr × Versions JacksonValue)} (hrange : InRange calls)
    (hnull : NoNull calls) :
    (∀ r ∈ (dynamoColdStorage.run dynamoColdStorage.empty calls).1, r = .ok ()) ∧
      ∀ id : StringPtr, ∃ m,
        (dynamoColdStorage.run dynamoColdStorage.empty calls).2.Holds id.id m ∧
          ∀ t, m.lookup t = latest id t calls := by
  induction calls using List.reverseRecOn with
  | nil =>
    refine ⟨fun r hr => (List.not_mem_nil hr).elim, fun id => ⟨∅, ⟨?_, rfl⟩, fun _ => rfl⟩⟩
    exact fun e he => (List.not_mem_nil he).elim
  | append_singleton calls c ih =>
    obtain ⟨hok, hholds⟩ := ih (fun x hx => hrange x (List.mem_append_left _ hx))
      fun x hx => hnull x (List.mem_append_left _ hx)
    have hc : c ∈ calls ++ [c] := List.mem_append_right _ List.mem_cons_self
    have hstorable : ∀ e ∈ c.2.entries, DynamoTable.Storable e := fun e he =>
      ⟨hrange c hc e.1 (List.mem_map.mpr ⟨e, he, rfl⟩),
        Option.isSome_iff_ne_none.mpr (hnull c hc e he)⟩
    constructor
    · intro r hr
      rw [(run_append _ _).1, List.mem_append] at hr
      refine hr.elim (hok r) fun hr => ?_
      obtain ⟨m, hm, -⟩ := hholds c.1
      rw [List.mem_singleton.mp hr]
      exact (DynamoTable.putItems_storable hstorable hm).1
    · intro id
      rw [run_append_one]
      obtain ⟨m, hm, hlatest⟩ := hholds id
      by_cases h : c.1 = id
      · subst h
        refine ⟨_, (DynamoTable.putItems_storable hstorable hm).2, fun t => ?_⟩
        rw [Versions.lookup_putAll_entries, latest_append, if_pos rfl, hlatest]
      · have hid : id.id ≠ c.1.id := fun heq => h (by obtain ⟨id⟩ := id; obtain ⟨⟨x⟩, _⟩ := c; simp_all)
        refine ⟨m, DynamoTable.putItems_of_ne hm hid, fun t => ?_⟩
        rw [latest_append, if_neg h, hlatest]

/-! ## Agreement -/

/-- The heap returns what was stored last after any calls, the Berkeley DB exactly when no
    later value for a timestamp differs from the first one, and DynamoDB exactly when no
    `null` is stored. -/
theorem coldStorage_faithful (calls : List (StringPtr × Versions JacksonValue))
    (hrange : InRange calls) :
    (heapColdStorage JacksonValue).Faithful calls ∧
      ((bdbColdStorage JacksonValue).Faithful calls ↔
        ∀ id t, latest id t calls = first id t calls) ∧
      (dynamoColdStorage.Faithful calls ↔ NoNull calls) := by
  refine ⟨⟨run_ok (fun _ _ _ => rfl) _, fun id => ⟨_, rfl, fun t => read_run_heap calls⟩⟩, ?_, ?_⟩
  · constructor
    · rintro ⟨-, hread⟩ id t
      obtain ⟨m, hm, hlatest⟩ := hread id
      rw [← hlatest t, ← read_run_bdb, Except.ok.inj hm]
    · intro h
      refine ⟨run_ok (fun _ _ _ => rfl) _, fun id => ⟨_, rfl, fun t => ?_⟩⟩
      rw [read_run_bdb, h]
  · constructor
    · rintro ⟨hok, -⟩ c hc e he hnull
      obtain ⟨calls₁, calls₂, rfl⟩ := List.append_of_mem hc
      have hfail : Except.error Failure.nullPointer ∈
          (dynamoColdStorage.run dynamoColdStorage.empty (calls₁ ++ c :: calls₂)).1 := by
        rw [(run_append _ _).1, List.mem_append]
        exact .inr (List.mem_cons.mpr (.inl (DynamoTable.putItems_null ⟨e, he, hnull⟩).symm))
      cases hok _ hfail
    · intro hnull
      obtain ⟨hok, hholds⟩ := read_run_dynamo hrange hnull
      refine ⟨hok, fun id => ?_⟩
      obtain ⟨m, hm, hlatest⟩ := hholds id
      refine ⟨_, DynamoTable.read_of_holds hm, fun t => ?_⟩
      rw [Versions.lookup_ofList_entries, hlatest]

/-- Two pointers: `x` is stored twice at the same time, `y` with a deletion. -/
def twoPointers : List (StringPtr × Versions JacksonValue) :=
  [(⟨"x"⟩, .ofList [⟨.ofEpoch 1, some ⟨"a"⟩⟩]), (⟨"x"⟩, .ofList [⟨.ofEpoch 1, some ⟨"b"⟩⟩]),
    (⟨"y"⟩, .ofList [⟨.ofEpoch 2, none⟩])]

theorem inRange_twoPointers : InRange twoPointers := by unfold InRange; decide

theorem coldStorage_faithful_two :
    (heapColdStorage JacksonValue).Faithful twoPointers ∧
      ¬(bdbColdStorage JacksonValue).Faithful twoPointers ∧
      ¬dynamoColdStorage.Faithful twoPointers := by
  obtain ⟨hheap, hbdb, hdynamo⟩ := coldStorage_faithful twoPointers inRange_twoPointers
  refine ⟨hheap, fun h => ?_, fun h => ?_⟩
  · have := hbdb.mp h ⟨"x"⟩ (.ofEpoch 1)
    revert this
    decide
  · exact hdynamo.mp h _ (List.mem_cons_of_mem _ (List.mem_cons_of_mem _ List.mem_cons_self))
      ⟨.ofEpoch 2, none⟩ (by decide) rfl

/-- The Berkeley DB returns `a` where `b` was stored last, and DynamoDB does not store a
    deletion. -/
theorem coldStorage_unfaithful :
    ¬(bdbColdStorage JacksonValue).Faithful
        [(⟨"x"⟩, .ofList [⟨.ofEpoch 1, some ⟨"a"⟩⟩]), (⟨"x"⟩, .ofList [⟨.ofEpoch 1, some ⟨"b"⟩⟩])] ∧
      ¬dynamoColdStorage.Faithful [(⟨"y"⟩, .ofList [⟨.ofEpoch 2, none⟩])] := by
  constructor
  · rintro ⟨-, hread⟩
    obtain ⟨m, hm, hlatest⟩ := hread ⟨"x"⟩
    have hlast := hlatest (.ofEpoch 1)
    rw [← Except.ok.inj hm] at hlast
    revert hlast
    decide
  · rintro ⟨hok, -⟩
    exact absurd (hok (.error Failure.nullPointer) (by decide)) (by simp)

end ReSTM
