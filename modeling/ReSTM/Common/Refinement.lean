import ReSTM.Common.Transition

/-!
# Objects and their specifications

An object is a total function `step : S → A → B × S`, which gives the result of a call and the
state after it. A specification is a relation between a state of its own, a call, a result and
the next state.

* `Simulates.allows`: the results of any calls are results that the specification allows, if
  those of one call are.
* `Matches.results_eq`: two objects give the same results if one call does.
* `attempt`: calls that may fail and then change nothing.
-/

namespace Refinement

open Transition

universe u v w

variable {S S' M : Type u} {A : Type v} {B : Type w}

/-- The results of the calls `as`. -/
def results (step : S → A → B × S) : S → List A → List B
  | _, [] => []
  | s, a :: as => (step s a).1 :: results step (step s a).2 as

/-- The state after a call. -/
def next (step : S → A → B × S) (s : S) (a : A) : S := (step s a).2

theorem results_concat (step : S → A → B × S) (s : S) (as : List A) (a : A) :
    results step s (as ++ [a]) = results step s as ++ [(step (run (next step) s as) a).1] := by
  induction as generalizing s with
  | nil => rfl
  | cons a' as ih => exact congrArg (_ :: ·) (ih (next step s a'))

/-- The specification allows the results `bs` of the calls `as` from `m`, and ends in `m'`. -/
inductive Allows (spec : M → A → B → M → Prop) : M → List A → List B → M → Prop
  | nil {m : M} : Allows spec m [] [] m
  | cons {m m' m'' : M} {a : A} {b : B} {as : List A} {bs : List B} (hstep : spec m a b m')
      (hrest : Allows spec m' as bs m'') : Allows spec m (a :: as) (b :: bs) m''

/-- Every call of the object does what the specification allows, and keeps `R`. -/
def Simulates (step : S → A → B × S) (spec : M → A → B → M → Prop) (R : S → M → Prop) : Prop :=
  ∀ s m a, R s m → ∃ m', spec m a (step s a).1 m' ∧ R (step s a).2 m'

/-- Calls that meet `ok` give the same results, and keep `R`. -/
def Matches (step : S → A → B × S) (step' : S' → A → B × S') (ok : S → A → Prop)
    (R : S → S' → Prop) : Prop :=
  ∀ s s' a, R s s' → ok s a → (step s a).1 = (step' s' a).1 ∧ R (step s a).2 (step' s' a).2

variable {step : S → A → B × S} {step' : S' → A → B × S'} {spec : M → A → B → M → Prop}
  {R : S → M → Prop} {s : S} {m : M}

theorem Simulates.allows (h : Simulates step spec R) (hR : R s m) (as : List A) :
    ∃ m', Allows spec m as (results step s as) m' ∧ R (run (next step) s as) m' := by
  induction as generalizing s m with
  | nil => exact ⟨m, .nil, hR⟩
  | cons a as ih =>
    obtain ⟨m₁, hspec, hR₁⟩ := h s m a hR
    obtain ⟨m', hallows, hR'⟩ := ih hR₁
    exact ⟨m', .cons hspec hallows, hR'⟩

theorem Matches.results_eq {ok : S → A → Prop} {R : S → S' → Prop} (h : Matches step step' ok R)
    {s' : S'} (hR : R s s') {as : List A} (hok : Along (next step) ok s as) :
    results step s as = results step' s' as := by
  induction as generalizing s s' with
  | nil => rfl
  | cons a as ih =>
    obtain ⟨heq, hR'⟩ := h s s' a hR hok.1
    rw [results, results, heq, ih hR' hok.2]

/-! ## Calls that may fail -/

variable {ε : Type w}

/-- A call that fails changes nothing. -/
def attempt (x : Except ε (B × S)) (s : S) : Except ε B × S :=
  match x with
  | .ok (b, s') => (.ok b, s')
  | .error e => (.error e, s)

end Refinement
