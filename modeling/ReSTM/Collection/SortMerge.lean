import ReSTM.Collection.Sort
import ReSTM.Common.KWayMerge

/-!
# The merge function of a sort

`newFunction` merges its sources through cursors (`KWayMerge`): `Lists h cont` says which values the
lists have, and `Merging` is the invariant of the function, with a bound on the transactions that it
has left. The values are not `null`.

* `Merging.step`: a transaction keeps the invariant and the bound gets smaller, or the result of the
  function is sorted; the lists that are not its own stay as they are.
-/

namespace ReSTM

open HeapModel KWayMerge WP

variable {T : Type}

/-! ## The lists -/

/-- The lists have the values `cont`. -/
def Lists (h : Heap (SortList T)) (cont : Ptr → List T) : Prop :=
  ∀ p < h.next, ((h.get p).getD {}).Represents ((cont p).map some)

variable {h : Heap (SortList T)} {cont : Ptr → List T} {p r : Ptr} {x : T} {xs : List T}
  {l : SortList T}

theorem Lists.set (hl : Lists h cont) (hr : l.Represents (xs.map some)) :
    Lists (h.set p (some l)) (Function.update cont p xs) := by
  intro q hq
  rw [Heap.next_set] at hq
  rcases eq_or_ne q p with rfl | hne
  · rw [Heap.get_set_self hq, Function.update_self]
    exact hr
  · rw [Heap.get_set_of_ne hne, Function.update_of_ne hne]
    exact hl q hq

theorem Lists.alloc (hl : Lists h cont) : Lists (h.alloc {}) (Function.update cont h.next []) := by
  intro q hq
  rcases eq_or_ne q h.next with rfl | hne
  · rw [Heap.get_alloc_self, Function.update_self]
    exact LinkedList.represents_nil rfl
  · rw [Heap.get_alloc_of_ne hne, Function.update_of_ne hne]
    rw [Heap.next_alloc] at hq
    exact hl q (Nat.lt_of_le_of_ne (Nat.le_of_lt_succ hq) hne)

theorem LinkedList.atomic_ok {α : Type} {x : ListTxn (Option T) α} {a : α}
    (hx : x ((h.get p).getD {}) = .ok (a, l)) :
    atomic p x h = .ok (a, h.set p (some l)) := by
  show (x ((h.get p).getD {}) >>= _) = _
  rw [hx]
  rfl

/-- A value is added behind the others. -/
theorem Lists.add [BEq T] (hl : Lists h cont) (hp : p < h.next) (x : T) :
    ∃ h', LinkedList.atomic p (LinkedList.add (some x)) h = .ok ((), h') ∧ h'.next = h.next ∧
      Lists h' (Function.update cont p (cont p ++ [x])) := by
  obtain ⟨l, hadd, hr⟩ := LinkedList.add_spec (hl p hp) (some x)
  exact ⟨_, LinkedList.atomic_ok hadd, Heap.next_set, hl.set (by rwa [List.map_append])⟩

namespace Merge

variable [BEq T]

/-- The first value of a source is taken. -/
theorem read_cons (hl : Lists h cont) (hp : p < h.next) (hx : cont p = x :: xs) :
    ∃ h', read p h = .ok (some (some x, some p), h') ∧ h'.next = h.next ∧
      Lists h' (Function.update cont p xs) := by
  have hrep := hl p hp
  rw [hx, List.map_cons] at hrep
  obtain ⟨l, hrem, hr⟩ := LinkedList.remove_spec hrep
  exact ⟨_, bind_ok (LinkedList.atomic_ok hrem), Heap.next_set, hl.set hr⟩

/-- A source without values stays so. -/
theorem read_nil (hl : Lists h cont) (hp : p < h.next) (hx : cont p = []) :
    ∃ h', read p h = .ok (none, h') ∧ h'.next = h.next ∧ Lists h' cont := by
  have hrep := hl p hp
  rw [hx] at hrep
  have hrep' : ((h.get p).getD {}).Represents (([] : List T).map some) := hrep
  have hset := hl.set (p := p) hrep'
  rw [← hx, Function.update_eq_self] at hset
  exact ⟨_, bind_ok (LinkedList.atomic_ok (LinkedList.remove_spec_nil hrep)), Heap.next_set, hset⟩

end Merge

/-! ## The function -/

namespace Merge

/-- The list that the function has created. -/
def result : Merge T → Option Ptr
  | .loop _ result | .next _ _ result => some result
  | _ => none

/-- The source that the next transaction reads. -/
def reads : Merge T → Option Ptr
  | .firsts _ (list :: _) _ | .next (some list) _ _ => some list
  | _ => none

/-- A cursor as the code has it. -/
def cursor (c : T × Option Ptr) : Cursor T := (some c.1, c.2)

variable [LinearOrder T]

/-- The least cursor is found. -/
theorem minFrom_spec (c : T × Option Ptr) (K : List (T × Option Ptr)) :
    ∃ b ∈ c :: K, minFrom (cursor c) (K.map cursor) = .ok (cursor b) ∧ ∀ a ∈ c :: K, b.1 ≤ a.1 := by
  induction K generalizing c with
  | nil =>
    refine ⟨c, List.mem_singleton_self c, rfl, fun a ha => ?_⟩
    rw [List.mem_singleton.mp ha]
  | cons d K ih =>
    have hstep : minFrom (cursor c) ((d :: K).map cursor) =
        minFrom (cursor (if d.1 < c.1 then d else c)) (K.map cursor) := by
      show minFrom (if decide (d.1 < c.1) = true then cursor d else cursor c) _ = _
      simp only [decide_eq_true_eq, apply_ite cursor]
    rw [hstep]
    obtain ⟨b, hb, hmin, hle⟩ := ih (if d.1 < c.1 then d else c)
    have hhead := hle _ List.mem_cons_self
    refine ⟨b, ?_, hmin, fun a ha => ?_⟩
    · rcases List.mem_cons.mp hb with rfl | hb
      · split_ifs
        · exact List.mem_cons_of_mem _ List.mem_cons_self
        · exact List.mem_cons_self
      · exact List.mem_cons_of_mem _ (List.mem_cons_of_mem _ hb)
    · rcases List.mem_cons.mp ha with rfl | ha
      · split_ifs at hhead with hlt
        · exact le_trans hhead hlt.le
        · exact hhead
      · rcases List.mem_cons.mp ha with rfl | ha
        · split_ifs at hhead with hlt
          · exact hhead
          · exact le_trans hhead (not_lt.mp hlt)
        · exact hle a (List.mem_cons_of_mem _ ha)

end Merge

open Merge

/-- A transaction of a function takes the first value of the source that it reads, and changes no
    other list that was there but its result. -/
structure Affects (S : List Ptr) (m : Merge T) (h : Heap (SortList T)) (cont : Ptr → List T)
    (h' : Heap (SortList T)) (cont' : Ptr → List T) : Prop where
  next_le : h.next ≤ h'.next
  sources : ∀ p ∈ S, cont' p = if m.reads = some p then (cont p).tail else cont p
  frame : ∀ p < h.next, p ∉ S → m.result ≠ some p → cont' p = cont p

section Step

variable {outcome outcome' : Ptr → Option Ptr} {cont' : Ptr → List T} {v : T} {S : List Ptr}
  {all : Multiset T} {m : Merge T} {k : ℕ} {h' : Heap (SortList T)}

theorem affects_refl (hnext : h'.next = h.next) (hreads : m.reads = none) :
    Affects S m h cont h' cont :=
  ⟨hnext.ge, fun _ _ => by rw [hreads, if_neg nofun], fun _ _ _ _ => rfl⟩

/-- A source is read. -/
theorem affects_read (hnext : h'.next = h.next) (hreads : m.reads = some p) (hp : p ∈ S)
    (hself : cont' p = (cont p).tail) (hother : ∀ q, q ≠ p → cont' q = cont q) :
    Affects S m h cont h' cont' := by
  refine ⟨hnext.ge, fun q _ => ?_, fun q _ hq _ => hother q fun heq => hq (heq ▸ hp)⟩
  rw [hreads]
  split_ifs with heq
  · cases heq
    exact hself
  · exact hother q fun hqp => heq (congrArg some hqp.symm)

/-- The sources stay as they are when another list changes. -/
theorem update_sources (cont : Ptr → List T) (hr : r ∉ S) (ys : List T) :
    ∀ p ∈ S, Function.update cont r ys p = cont p := fun p hp =>
  Function.update_of_ne (fun heq : p = r => hr (heq ▸ hp)) _ _

/-- A list that is not a source changes. -/
theorem affects_update (hnext : h.next ≤ h'.next) (hreads : m.reads = none) (hr : r ∉ S)
    (hr' : h.next ≤ r ∨ m.result = some r) : Affects S m h cont h' (Function.update cont r xs) := by
  refine ⟨hnext, fun q hq => ?_, fun q hq _ ho => ?_⟩
  · rw [hreads, if_neg nofun, update_sources cont hr xs q hq]
  · refine Function.update_of_ne (fun heq : q = r => ?_) _ _
    rcases hr' with hle | hsome
    · exact absurd hq (Nat.not_lt.mpr (heq ▸ hle))
    · exact ho (heq ▸ hsome)

theorem filter_cursor (o : Option Ptr) (K : List (T × Option Ptr)) :
    (K.map cursor).filter (·.2 ≠ o) = (K.filter (·.2 ≠ o)).map cursor := List.filter_map

variable [LinearOrder T]

/-- The function merges the value `v` and the sources `S`, which are the outcomes of its tasks, to
    `all`. The number bounds the transactions that are left. -/
inductive Merging (outcome : Ptr → Option Ptr) (cont : Ptr → List T) (v : T)
    (S : List Ptr) (all : Multiset T) : Merge T → ℕ → Prop
  | sources {todo lists rest : List Ptr} (htodo : todo.map outcome = rest.map some)
      (hS : lists ++ rest = S) (hK : Cursors cont S S []) (hall : v ::ₘ pending cont S [] = all) :
      Merging outcome cont v S all (.sources (some v) todo lists)
        (todo.length + S.length + 2 * all.card + 3)
  | firsts {todo : List Ptr} {K : List (T × Option Ptr)} (hK : Cursors cont S todo K)
      (hnone : none ∉ K.map Prod.snd) (hall : v ::ₘ pending cont S K = all) :
      Merging outcome cont v S all (.firsts (some v) todo (K.map cursor))
        (todo.length + 2 * all.card + 2)
  | loop {K : List (T × Option Ptr)} {r : Ptr} (hK : Cursors cont S [] K) (hr : r ∉ S)
      (hsel : Selects (cont r) (pending cont S K) all) (hrest : v ::ₘ pending cont S [] ≤ all) :
      Merging outcome cont v S all (.loop (K.map cursor) r) (2 * (pending cont S K).card + 1)
  | next {o : Option Ptr} {K : List (T × Option Ptr)} {r : Ptr} (hK : Cursors cont S o.toList K)
      (hr : r ∉ S) (hsel : Selects (cont r) (pending cont S K) all)
      (hrest : v ::ₘ pending cont S [] ≤ all) :
      Merging outcome cont v S all (.next o (K.map cursor) r) (2 * (pending cont S K).card + 2)

/-- Only the sources and the result matter, and the tasks that are complete. -/
theorem Merging.congr (hm : Merging outcome cont v S all m k)
    (hS : ∀ p ∈ S, cont' p = cont p) (hr : ∀ r, m.result = some r → cont' r = cont r)
    (houtcome : ∀ u p, outcome u = some p → outcome' u = some p) :
    Merging outcome' cont' v S all m k := by
  have hpending : ∀ K, pending cont' S K = pending cont S K := fun K => pending_congr hS
  cases hm with
  | @sources todo lists rest htodo hSl hK hall =>
    have htodo' : todo.map outcome' = rest.map some := by
      rw [← htodo]
      refine List.map_congr_left fun u hu => ?_
      obtain ⟨p, -, hp⟩ := List.mem_map.mp (htodo ▸ List.mem_map_of_mem hu)
      rw [← hp, houtcome u p hp.symm]
    exact .sources htodo' hSl (hK.congr hS) ((hpending []).symm ▸ hall)
  | firsts hK hnone hall => exact .firsts (hK.congr hS) hnone ((hpending _).symm ▸ hall)
  | loop hK hrS hsel hrest =>
    rw [← hpending] at hrest ⊢
    exact .loop (hK.congr hS) hrS (by rw [hr _ rfl, hpending]; exact hsel) hrest
  | next hK hrS hsel hrest =>
    rw [← hpending] at hrest ⊢
    exact .next (hK.congr hS) hrS (by rw [hr _ rfl, hpending]; exact hsel) hrest

theorem Merging.pos (hm : Merging outcome cont v S all m k) : 0 < k := by
  cases hm <;> exact Nat.succ_pos _

/-- How a transaction ends: the function goes on, or has returned the sorted list. -/
inductive MergeStep (outcome : Ptr → Option Ptr) (h : Heap (SortList T)) (cont : Ptr → List T) (v : T)
    (S : List Ptr) (all : Multiset T) (m : Merge T) (k : ℕ) :
    Except Failure ((Merge T ⊕ Ptr) × Heap (SortList T)) → Prop
  | goOn {m' : Merge T} {k' : ℕ} {h' : Heap (SortList T)} {cont' : Ptr → List T}
      (hm : Merging outcome cont' v S all m' k') (hk : k' < k) (hl : Lists h' cont')
      (haff : Affects S m h cont h' cont')
      (hr : ∀ r, m'.result = some r → r < h'.next ∧ (m.result = some r ∨ h.next ≤ r)) :
      MergeStep outcome h cont v S all m k (.ok (.inl m', h'))
  | done {r : Ptr} (hr : m.result = some r) (hsort : cont r = all.sort) :
      MergeStep outcome h cont v S all m k (.ok (.inr r, h))

/-- A source is read: what `Merging` says of the cursors and the sources is kept. -/
theorem read_spec {todo : List Ptr} {K : List (T × Option Ptr)} (hl : Lists h cont)
    (hS : ∀ p ∈ S, p < h.next) (hK : Cursors cont S (p :: todo) K) :
    ∃ h' cont' c, Merge.read p h = .ok (c, h') ∧ Lists h' cont' ∧ h'.next = h.next ∧
      cont' p = (cont p).tail ∧ (∀ q, q ≠ p → cont' q = cont q) ∧
      ∃ K', K.map cursor ++ c.toList = K'.map cursor ∧ Cursors cont' S todo K' ∧
        pending cont' S K' = pending cont S K ∧ (none ∉ K.map Prod.snd → none ∉ K'.map Prod.snd) := by
  obtain ⟨hpS, -⟩ := hK.todo_mem p List.mem_cons_self
  cases hx : cont p with
  | nil =>
    obtain ⟨h', hread, hnext, hl'⟩ := Merge.read_nil hl (hS p hpS) hx
    exact ⟨h', cont, none, hread, hl', hnext, hx, fun _ _ => rfl, K, List.append_nil _,
      hK.read_nil hx, rfl, id⟩
  | cons x xs =>
    obtain ⟨h', hread, hnext, hl'⟩ := Merge.read_cons hl (hS p hpS) hx
    refine ⟨h', _, some (some x, some p), hread, hl', hnext, Function.update_self _ _ _,
      fun q hq => Function.update_of_ne hq _ _, K ++ [(x, some p)], ?_, hK.read_cons hx,
      pending_read hK.sources hpS hx, fun hnone hmem => ?_⟩
    · rw [List.map_append]
      rfl
    · rw [List.map_append] at hmem
      rcases List.mem_append.mp hmem with hmem | hmem
      · exact hnone hmem
      · cases List.mem_singleton.mp hmem

/-- The outcome of the next task is asked for, or all sources are known. -/
theorem Merging.sources_step {todo lists rest : List Ptr} (res : Ptr → Except Failure Ptr)
    (htodo : todo.map outcome = rest.map some) (hSl : lists ++ rest = S) (hK : Cursors cont S S [])
    (hall : v ::ₘ pending cont S [] = all) (hl : Lists h cont)
    (hres : ∀ u p, outcome u = some p → res u = .ok p) :
    MergeStep outcome h cont v S all (.sources (some v) todo lists)
      (todo.length + S.length + 2 * all.card + 3)
      ((Merge.sources (some v) todo lists).step res h) := by
  cases todo with
  | cons u todo =>
    obtain ⟨p, rest, rfl, hu, hrest⟩ := List.map_eq_cons_iff.mp htodo.symm
    have hstep : (Merge.sources (some v) (u :: todo) lists).step res h =
        .ok (.inl (.sources (some v) todo (lists ++ [p])), h) := by
      rw [Merge.step, bind_ok (b := p) (r := h) (by rw [hres u p hu.symm]; rfl)]
      rfl
    rw [hstep]
    refine .goOn (.sources hrest.symm (by rw [List.append_assoc]; exact hSl) hK hall) ?_ hl
      (affects_refl rfl rfl) nofun
    rw [List.length_cons]
    omega
  | nil =>
    obtain rfl : rest = [] := List.map_eq_nil_iff.mp htodo.symm
    obtain rfl : lists = S := (List.append_nil lists).symm.trans hSl
    show MergeStep _ _ _ _ _ _ _ _ (.ok (.inl (.firsts (some v) lists (([] : List (T × Option Ptr)).map
      cursor)), h))
    refine .goOn (.firsts hK List.not_mem_nil hall) ?_ hl (affects_refl rfl rfl) nofun
    rw [List.length_nil]
    omega

/-- The first value of the next source is read, or the result is created. -/
theorem Merging.firsts_step {todo : List Ptr} {K : List (T × Option Ptr)} (res : Ptr → Except Failure Ptr)
    (hK : Cursors cont S todo K) (hnone : none ∉ K.map Prod.snd)
    (hall : v ::ₘ pending cont S K = all) (hl : Lists h cont) (hS : ∀ p ∈ S, p < h.next) :
    MergeStep outcome h cont v S all (.firsts (some v) todo (K.map cursor))
      (todo.length + 2 * all.card + 2) ((Merge.firsts (some v) todo (K.map cursor)).step res h) := by
  cases todo with
  | cons p todo =>
    obtain ⟨h', cont', c, hread, hl', hnext, hself, hother, K', hmap, hK', hpending, hnone'⟩ :=
      read_spec hl hS hK
    rw [Merge.step, bind_ok hread]
    show MergeStep _ _ _ _ _ _ _ _ (.ok (.inl (.firsts (some v) todo (K.map cursor ++ c.toList)), h'))
    rw [hmap]
    refine .goOn (.firsts hK' (hnone' hnone) (hpending ▸ hall)) ?_ hl'
      (affects_read hnext rfl (hK.todo_mem p List.mem_cons_self).1 hself hother) nofun
    rw [List.length_cons]
    omega
  | nil =>
    have hnext : h.next ∉ S := fun hmem => Nat.lt_irrefl _ (hS _ hmem)
    have hsame := update_sources cont hnext []
    have hpending : pending (Function.update cont h.next []) S (K ++ [(v, none)]) = all := by
      rw [pending_congr hsame, pending_concat, hall]
    have hcursors : K.map cursor ++ [(some v, none)] = (K ++ [(v, none)]).map cursor := by
      rw [List.map_append]
      rfl
    show MergeStep _ _ _ _ _ _ _ _
      (.ok (.inl (.loop (K.map cursor ++ [(some v, none)]) h.next), h.alloc {}))
    rw [hcursors]
    refine .goOn (.loop ((hK.own hnone v).congr hsame) hnext ?_ ?_) ?_ hl.alloc
      (affects_update ?_ rfl hnext (.inl (Nat.le_refl _))) (fun r hr => ?_)
    · rw [Function.update_self, hpending]
      exact .nil
    · rw [pending_congr hsame, ← hall]
      exact Multiset.cons_le_cons v (pending_mono fun _ _ => List.Sublist.refl _)
    · rw [hpending, List.length_nil]
      omega
    · rw [Heap.next_alloc]
      exact Nat.le_succ _
    · obtain rfl : h.next = r := Option.some.inj hr
      exact ⟨by rw [Heap.next_alloc]; exact Nat.lt_succ_self _, .inr (Nat.le_refl _)⟩

/-- The least cursor is moved to the result, or none is left. -/
theorem Merging.loop_step {K : List (T × Option Ptr)} {r : Ptr} (res : Ptr → Except Failure Ptr)
    (hK : Cursors cont S [] K) (hrS : r ∉ S) (hsel : Selects (cont r) (pending cont S K) all)
    (hrest : v ::ₘ pending cont S [] ≤ all) (hl : Lists h cont) (hr : r < h.next) :
    MergeStep outcome h cont v S all (.loop (K.map cursor) r) (2 * (pending cont S K).card + 1)
      ((Merge.loop (K.map cursor) r).step res h) := by
  cases K with
  | nil =>
    refine .done rfl ?_
    rw [hK.pending_nil] at hsel
    exact hsel.eq_sort
  | cons c K =>
    obtain ⟨b, hb, hmin, hle⟩ := minFrom_spec c K
    obtain ⟨h', hadd, hnext, hl'⟩ := hl.add hr b.1
    have hstep : (Merge.loop ((c :: K).map cursor) r).step res h =
        .ok (.inl (.next b.2 (((c :: K).filter (·.2 ≠ b.2)).map cursor) r), h') := by
      rw [List.map_cons, Merge.step, bind_ok (b := cursor b) (r := h) (by rw [hmin]; rfl)]
      show (LinkedList.atomic r (LinkedList.add (some b.1)) >>= _) h = _
      rw [bind_ok hadd, ← filter_cursor]
      rfl
    have hsame := update_sources cont hrS (cont r ++ [b.1])
    have hpending : pending cont S (c :: K) =
        b.1 ::ₘ pending cont S ((c :: K).filter (·.2 ≠ b.2)) := pending_select hK.keys hb
    rw [hstep]
    refine .goOn (.next ((hK.select hb).congr hsame) hrS ?_ (pending_congr hsame ▸ hrest)) ?_ hl'
      (affects_update hnext.ge rfl hrS (.inr rfl)) (fun q hq => ?_)
    · rw [Function.update_self, pending_congr hsame]
      refine (hpending ▸ hsel).step fun y hy => hK.le_pending hle y ?_
      rw [hpending]
      exact Multiset.mem_cons_of_mem hy
    · rw [pending_congr hsame, hpending, Multiset.card_cons]
      omega
    · obtain rfl : r = q := Option.some.inj hq
      exact ⟨hnext.symm ▸ hr, .inl rfl⟩

/-- The source of the value that was moved is read again. -/
theorem Merging.next_step {o : Option Ptr} {K : List (T × Option Ptr)} {r : Ptr}
    (res : Ptr → Except Failure Ptr) (hK : Cursors cont S o.toList K) (hrS : r ∉ S)
    (hsel : Selects (cont r) (pending cont S K) all) (hrest : v ::ₘ pending cont S [] ≤ all)
    (hl : Lists h cont) (hS : ∀ p ∈ S, p < h.next) (hr : r < h.next) :
    MergeStep outcome h cont v S all (.next o (K.map cursor) r) (2 * (pending cont S K).card + 2)
      ((Merge.next o (K.map cursor) r).step res h) := by
  cases o with
  | none =>
    exact .goOn (.loop hK hrS hsel hrest) (Nat.lt_succ_self _) hl (affects_refl rfl rfl)
      (fun q hq => ⟨Option.some.inj hq ▸ hr, .inl hq⟩)
  | some p =>
    obtain ⟨h', cont', c, hread, hl', hnext, hself, hother, K', hmap, hK', hpending, -⟩ :=
      read_spec hl hS hK
    obtain ⟨hpS, -⟩ := hK.todo_mem p List.mem_cons_self
    have hresult : cont' r = cont r := hother r fun heq => hrS (heq ▸ hpS)
    rw [Merge.step, bind_ok hread]
    show MergeStep _ _ _ _ _ _ _ _ (.ok (.inl (.loop (K.map cursor ++ c.toList) r), h'))
    rw [hmap]
    refine .goOn (.loop hK' hrS ?_ ?_) ?_ hl' (affects_read hnext rfl hpS hself hother)
      (fun q hq => ⟨hnext ▸ Option.some.inj hq ▸ hr, .inl hq⟩)
    · rw [hresult, hpending]
      exact hsel
    · refine (Multiset.cons_le_cons v (pending_mono fun q _ => ?_)).trans hrest
      rcases eq_or_ne q p with rfl | hne
      · rw [hself]
        exact List.tail_sublist _
      · rw [hother q hne]
    · rw [hpending]
      omega

theorem Merging.step (hm : Merging outcome cont v S all m k) (res : Ptr → Except Failure Ptr)
    (hl : Lists h cont) (hS : ∀ p ∈ S, p < h.next) (hr : ∀ r, m.result = some r → r < h.next)
    (hres : ∀ u p, outcome u = some p → res u = .ok p) :
    MergeStep outcome h cont v S all m k (m.step res h) := by
  cases hm with
  | sources htodo hSl hK hall => exact sources_step res htodo hSl hK hall hl hres
  | firsts hK hnone hall => exact firsts_step res hK hnone hall hl hS
  | loop hK hrS hsel hrest => exact loop_step res hK hrS hsel hrest hl (hr _ rfl)
  | next hK hrS hsel hrest => exact next_step res hK hrS hsel hrest hl hS (hr _ rfl)

end Step

end ReSTM
