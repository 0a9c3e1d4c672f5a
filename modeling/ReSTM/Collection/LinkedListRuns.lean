import ReSTM.Collection.LinkedList
import ReSTM.Common.Refinement

/-!
# Runs of a `LinkedList`

Every call on a `LinkedList` is a transaction. Here the values may be `null`, which is `none`:
`remove` returns `Option(tailValue.value)` (`stm/collection/LinkedList.scala`, lines 180 and 184).

* `LinkedList.queue`: the specification, a list of values with the oldest one first.
* `LinkedList.results_eq_queue`: the results of any calls are those of the queue.
-/

namespace ReSTM

open Refinement Transition

variable {T : Type}

namespace LinkedList

/-- A call. -/
inductive Call (T : Type)
  | add (value : Option T)
  | remove
  | size
  | stream

/-- What a call returns. -/
inductive Result (T : Type)
  | unit
  | value (value : Option T)
  | size (n : ℕ)
  | stream (values : List (Option T))
deriving DecidableEq

/-- One call, as a transaction. `Option(tailValue.value)` of `null` is `None`. -/
def call [BEq T] (l : LinkedList (Option T)) :
    Call T → Except Failure (Result T) × LinkedList (Option T)
  | .add value => attempt ((l.add value).map fun r => (.unit, r.2)) l
  | .remove => attempt ((l.remove).map fun r => (.value r.1.join, r.2)) l
  | .size => (l.size.map .size, l)
  | .stream => (l.stream.map .stream, l)

/-- A queue. No call fails. -/
def queue (xs : List (Option T)) : Call T → Except Failure (Result T) × List (Option T)
  | .add value => (.ok .unit, xs ++ [value])
  | .remove => (.ok (.value xs.head?.join), xs.tail)
  | .size => (.ok (.size xs.length), xs)
  | .stream => (.ok (.stream xs), xs)

/-- A header that is not defined, or that has no ends, is that of an empty list. -/
theorem represents_nil {l : LinkedList (Option T)} (hl : l.root.getD {} = {}) : Represents l [] :=
  ⟨[], rfl, List.nodup_nil, trivial, hl⟩

variable [BEq T]

/-- A call does what the queue does. -/
theorem matches_queue : Matches (call (T := T)) queue (fun _ _ => True) Represents := by
  intro l xs c hl _
  cases c with
  | add value =>
    obtain ⟨l', hadd, hl'⟩ := add_spec hl value
    rw [call, hadd]
    exact ⟨rfl, hl'⟩
  | remove =>
    cases xs with
    | nil =>
      rw [call, remove_spec_nil hl]
      exact ⟨rfl, hl⟩
    | cons x xs =>
      obtain ⟨l', hrem, hl'⟩ := remove_spec hl
      rw [call, hrem]
      exact ⟨rfl, hl'⟩
  | size =>
    rw [call, size, stream_spec hl]
    exact ⟨rfl, hl⟩
  | stream =>
    rw [call, stream_spec hl]
    exact ⟨rfl, hl⟩

/-- The results of any calls are those of the queue. -/
theorem results_eq_queue {l : LinkedList (Option T)} (hl : l.root.getD {} = {})
    (calls : List (Call T)) : results call l calls = results queue [] calls :=
  matches_queue.results_eq (represents_nil hl) along_true

theorem results_eq_queue_create :
    results call (create : LinkedList (Option ℕ)) [.add (some 1), .remove, .remove] =
      [.ok .unit, .ok (.value (some 1)), .ok (.value none)] :=
  results_eq_queue rfl _

/-- A value that is `null` goes out as `None`, as if the list were empty. -/
theorem remove_null : results call (create : LinkedList (Option ℕ))
    [.add none, .size, .remove, .size] =
    [.ok .unit, .ok (.size 1), .ok (.value none), .ok (.size 0)] := rfl

end LinkedList

end ReSTM
