import Mathlib.Data.Fintype.Card
import ReSTM.Task.Bookkeeping

/-!
# When a queue is called empty

`MultiQueueData.take(minEmpty)` (`stm/task/TaskQueue.scala`, lines 104–131) goes through the shuffled
lists and counts down with every list that it has locked and found empty. A list that it cannot lock
does not count.

* `takeFirst_justified`: the answer of the recursion for the lists that are left.
* `takeMin_justified`: none only for `minEmpty` empty lists, which `take` asks of all of them.
-/

namespace ReSTM

open Transition

variable {T K : Type}

namespace MultiQueueData

variable {m : MultiQueueData T K} {queues : List (LinkedList T)}

/-- The list is locked and empty. -/
def Emptied (locked : ℕ → Bool) (queues : List (LinkedList T)) (i : Fin queues.length) : Prop :=
  locked i ∧ (queues.get i).Represents []

/-- The oldest value of one locked list, the `i`-th, has been taken, and nothing else. -/
def TakenFrom (locked : ℕ → Bool) (queues queues' : List (LinkedList T)) (x : T) : Prop :=
  ∃ (i : Fin queues.length) (xs : List T) (list : LinkedList T), locked i ∧
    (queues.get i).Represents (x :: xs) ∧ list.Represents xs ∧ queues' = queues.set i list

/-- What the recursion may answer for the lists `l` when `k` more have to be empty. -/
def FirstJustified (locked : ℕ → Bool) (queues : List (LinkedList T)) (l : List (Fin queues.length))
    (k : ℤ) : Except Failure (Option T × List (LinkedList T)) → Prop
  | .ok (none, queues') =>
    queues' = queues ∧ ∃ S : Finset (Fin queues.length),
      S ⊆ l.toFinset ∧ k ≤ S.card ∧ ∀ i ∈ S, Emptied locked queues i
  | .ok (some x, queues') => TakenFrom locked queues queues' x
  | .error e => (∃ msg, e = .transactionConflict msg none) ∧
    ∀ i ∈ l, locked i → (queues.get i).Represents []

/-- What `take(minEmpty)` may answer. When it is a conflict, no locked list had a value that could
    have been removed. -/
def Justified (m : MultiQueueData T K) (c : Chance) (minEmpty : ℤ) :
    Except Failure (Option T × MultiQueueData T K) → Prop
  | .ok (none, m') =>
    m' = m ∧ ∃ S : Finset (Fin m.queues.length),
      minEmpty ≤ S.card ∧ ∀ i ∈ S, Emptied c.queueLocked m.queues i
  | .ok (some x, m') =>
    ∃ queues', TakenFrom c.queueLocked m.queues queues' x ∧ m' = { m with queues := queues' }
  | .error e => (∃ msg, e = .transactionConflict msg none) ∧
    ∀ i : Fin m.queues.length, c.queueLocked i → (m.queues.get i).Represents []

/-- The list at the head could be locked and is empty. -/
theorem FirstJustified.cons_empty {locked : ℕ → Bool} {i : Fin queues.length}
    {l : List (Fin queues.length)} {k : ℤ} {res : Except Failure (Option T × List (LinkedList T))}
    (h : FirstJustified locked queues l (k - 1) res) (hi : Emptied locked queues i) (hnew : i ∉ l) :
    FirstJustified locked queues (i :: l) k res := by
  rcases res with e | ⟨_ | x, queues'⟩
  · refine ⟨h.1, fun j hj hlock => ?_⟩
    rcases List.mem_cons.mp hj with rfl | hj
    · exact hi.2
    · exact h.2 j hj hlock
  · obtain ⟨rfl, S, hS, hcard, hempty⟩ := h
    have hiS : i ∉ S := fun hmem => hnew (List.mem_toFinset.mp (hS hmem))
    refine ⟨rfl, insert i S, ?_, ?_, ?_⟩
    · rw [List.toFinset_cons]
      exact Finset.insert_subset_insert i hS
    · rw [Finset.card_insert_of_notMem hiS]
      omega
    · intro j hj
      rcases Finset.mem_insert.mp hj with rfl | hj
      · exact hi
      · exact hempty j hj
  · exact h

/-- The list at the head could not be locked. -/
theorem FirstJustified.cons_refused {locked : ℕ → Bool} {i : Fin queues.length}
    {l : List (Fin queues.length)} {k : ℤ} {res : Except Failure (Option T × List (LinkedList T))}
    (h : FirstJustified locked queues l k res) (hi : ¬locked i) :
    FirstJustified locked queues (i :: l) k res := by
  rcases res with e | ⟨_ | x, queues'⟩
  · refine ⟨h.1, fun j hj hlock => ?_⟩
    rcases List.mem_cons.mp hj with rfl | hj
    · exact absurd hlock hi
    · exact h.2 j hj hlock
  · obtain ⟨heq, S, hS, hrest⟩ := h
    refine ⟨heq, S, hS.trans ?_, hrest⟩
    rw [List.toFinset_cons]
    exact Finset.subset_insert i _
  · exact h

theorem mem_shuffledLists (m : MultiQueueData T K) (c : Chance) (i : Fin m.queues.length) :
    i ∈ m.shuffledLists c :=
  (shuffle_perm _ _).mem_iff.mpr (List.mem_finRange i)

variable [BEq T]

theorem takeFirst_justified (hqueues : ∀ q ∈ queues, ∃ xs, q.Represents xs) (locked : ℕ → Bool)
    (minEmpty : ℤ) (l : List (Fin queues.length)) (hl : l.Nodup) (k : ℤ) :
    FirstJustified locked queues l k (takeFirst locked minEmpty queues l k) := by
  induction l generalizing k with
  | nil => exact ⟨⟨_, rfl⟩, fun _ hi => absurd hi List.not_mem_nil⟩
  | cons i l ih =>
    obtain ⟨hnew, hl⟩ := List.nodup_cons.mp hl
    by_cases hlock : locked i
    · obtain ⟨xs, hxs⟩ := hqueues (queues.get i) (List.get_mem queues i)
      rw [takeFirst, if_pos hlock]
      cases xs with
      | nil =>
        rw [LinkedList.remove_spec_nil hxs]
        show FirstJustified locked queues (i :: l) k
          (if k ≤ 1 then .ok (none, queues) else takeFirst locked minEmpty queues l (k - 1))
        split_ifs with hk
        · refine ⟨rfl, {i}, ?_, ?_, ?_⟩
          · rw [List.toFinset_cons, Finset.singleton_subset_iff]
            exact Finset.mem_insert_self i _
          · rw [Finset.card_singleton]
            omega
          · intro j hj
            rw [Finset.mem_singleton.mp hj]
            exact ⟨hlock, hxs⟩
        · exact (ih hl (k - 1)).cons_empty ⟨hlock, hxs⟩ hnew
      | cons x xs =>
        obtain ⟨list, hrem, hlist⟩ := LinkedList.remove_spec hxs
        rw [hrem]
        exact ⟨i, xs, list, hlock, hxs, hlist, rfl⟩
    · rw [takeFirst, if_neg hlock]
      exact (ih hl k).cons_refused hlock

/-- `take(minEmpty)` for any number of lists that there are. -/
theorem justified_takeMin (hqueues : ∀ q ∈ m.queues, ∃ xs, q.Represents xs) (c : Chance) {minEmpty : ℤ}
    (hmin : minEmpty ≤ m.queues.length) : m.Justified c minEmpty (m.takeMin c minEmpty) := by
  have hnodup : (m.shuffledLists c).Nodup :=
    (shuffle_perm _ _).nodup_iff.mpr (List.nodup_finRange _)
  have hfirst := takeFirst_justified hqueues c.queueLocked minEmpty (m.shuffledLists c) hnodup minEmpty
  rw [takeMin_eq c hmin]
  cases htake : takeFirst c.queueLocked minEmpty m.queues (m.shuffledLists c) minEmpty with
  | error e =>
    rw [htake] at hfirst
    exact ⟨hfirst.1, fun i hlock => hfirst.2 i (mem_shuffledLists m c i) hlock⟩
  | ok res =>
    rw [htake] at hfirst
    obtain ⟨_ | x, queues'⟩ := res
    · obtain ⟨rfl, S, -, hcard, hempty⟩ := hfirst
      exact ⟨rfl, S, hcard, hempty⟩
    · exact ⟨queues', hfirst, rfl⟩

/-- Whichever lists are tried first and whichever can be locked, `take(minEmpty)` answers none only if
    it has locked at least `minEmpty` lists that are empty, and a value only if it has taken it from
    one list, whose oldest it was; otherwise it is a conflict, and nothing could be removed. So `take`
    answers none only if all lists are locked and empty. -/
theorem takeMin_justified (hqueues : ∀ q ∈ m.queues, ∃ xs, q.Represents xs) (c : Chance) :
    (∀ minEmpty : ℤ, 1 ≤ minEmpty → minEmpty ≤ m.queues.length →
        m.Justified c minEmpty (m.takeMin c minEmpty)) ∧
      ∀ m', m.take c = .ok (none, m') → m' = m ∧ ∀ i, Emptied c.queueLocked m.queues i := by
  refine ⟨fun minEmpty _ hmin => justified_takeMin hqueues c hmin, fun m' htake => ?_⟩
  have hall := justified_takeMin hqueues c (le_refl (m.queues.length : ℤ))
  rw [show m.takeMin c m.queues.length = .ok (none, m') from htake] at hall
  obtain ⟨heq, S, hcard, hempty⟩ := hall
  have huniv : S = Finset.univ := Finset.eq_univ_of_card S <| le_antisymm (Finset.card_le_univ S) <| by
    rw [Fintype.card_fin]
    exact_mod_cast hcard
  exact ⟨heq, fun i => hempty i (huniv ▸ Finset.mem_univ i)⟩

/-- The second list can be locked, the first cannot. -/
def secondLocked : Chance := ⟨fun _ => 0, (· == 1), fun _ => 0, fun _ => true⟩

theorem takeMin_justified_refused :
    (createInnerData 2 : MultiQueueData ℕ ℕ).Justified secondLocked 1
      ((createInnerData 2 : MultiQueueData ℕ ℕ).takeMin secondLocked 1) :=
  (takeMin_justified (fun _ hq => ⟨[], List.eq_of_mem_replicate hq ▸ LinkedList.represents_create⟩)
    secondLocked).1 1 (by decide) (by decide)

end MultiQueueData

namespace TaskQueue

variable [LinearOrder K] [Identifiable T K]

theorem Keeps.represents {q : TaskQueue T K} {subs : List (List T)} (hq : Keeps q subs) :
    ∀ l ∈ q.getInner.queues, ∃ xs, l.Represents xs := by
  intro l hl
  obtain ⟨i, rfl⟩ := List.mem_iff_get.mp hl
  obtain ⟨-, -, -, xs, -, -, hxs, -⟩ := exists_of_forall₂ hq.queues i
  exact ⟨xs, hxs⟩

/-- In every run the lists of the queue are well formed. -/
theorem represents_of_run [BEq T] (size : Option ℤ) (ops : List (Op T K)) :
    ∀ l ∈ (run step (start size) ops).queue.getInner.queues, ∃ xs, l.Represents xs := by
  obtain ⟨subs, hq, -⟩ : Balanced (run step (start size) ops) :=
    run_invariant (fun s op hs => hs.step op) ops (balanced_start size)
  exact hq.represents

end TaskQueue

end ReSTM
