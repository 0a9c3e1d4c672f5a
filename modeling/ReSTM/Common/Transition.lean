import Mathlib.Init

/-!
# Runs of a transition function

A system is a total function `step : S → A → S`; an action that is not enabled
leaves the state as it is. `run` iterates it over a list of actions, and
`Along ok` says that every step of a run meets a condition on the state before
the step and the action taken.

* `Along.invariant`: the induction over a run, with a condition on its steps.
* `Along.run_eq`: two systems that do the same in the states of an invariant.
* `along_append`: conditions split where runs do.
-/

namespace Transition

universe u v

variable {S : Type u} {A : Type v} (step : S → A → S)

/-- The state after the actions `as`. -/
def run (s : S) (as : List A) : S := as.foldl step s

@[simp] theorem run_nil (s : S) : run step s [] = s := rfl

@[simp] theorem run_cons (s : S) (a : A) (as : List A) :
    run step s (a :: as) = run step (step s a) as := rfl

theorem run_append (s : S) (as bs : List A) :
    run step s (as ++ bs) = run step (run step s as) bs := List.foldl_append

/-- Every step of the run from `s` meets `ok`. -/
def Along (ok : S → A → Prop) : S → List A → Prop
  | _, [] => True
  | s, a :: as => ok s a ∧ Along ok (step s a) as

variable {step}

@[simp] theorem along_nil (ok : S → A → Prop) (s : S) : Along step ok s [] := trivial

@[simp] theorem along_cons {ok : S → A → Prop} {s : S} {a : A} {as : List A} :
    Along step ok s (a :: as) ↔ ok s a ∧ Along step ok (step s a) as := Iff.rfl

theorem along_append {ok : S → A → Prop} {s : S} {as bs : List A} :
    Along step ok s (as ++ bs) ↔ Along step ok s as ∧ Along step ok (run step s as) bs := by
  induction as generalizing s with
  | nil => simp
  | cons a as ih => simp [ih, and_assoc]

instance decidableAlong (ok : S → A → Prop) [∀ s a, Decidable (ok s a)] :
    ∀ (s : S) (as : List A), Decidable (Along step ok s as)
  | _, [] => inferInstanceAs (Decidable True)
  | s, a :: as =>
    have := decidableAlong ok (step s a) as
    inferInstanceAs (Decidable (ok s a ∧ Along step ok (step s a) as))

/-- A condition on the actions alone may be added to the steps. -/
theorem Along.and_mem {ok : S → A → Prop} {P : A → Prop} {s : S} {as : List A}
    (h : Along step ok s as) (hP : ∀ a ∈ as, P a) :
    Along step (fun s a => ok s a ∧ P a) s as := by
  induction as generalizing s with
  | nil => trivial
  | cons a as ih =>
    exact ⟨⟨h.1, hP a List.mem_cons_self⟩, ih h.2 fun b hb => hP b (List.mem_cons_of_mem _ hb)⟩

/-- A weaker condition. -/
theorem Along.imp {ok ok' : S → A → Prop} (himp : ∀ s a, ok s a → ok' s a) {s : S} {as : List A}
    (h : Along step ok s as) : Along step ok' s as := by
  induction as generalizing s with
  | nil => trivial
  | cons a as ih => exact ⟨himp s a h.1, ih h.2⟩

/-- A condition on the actions alone, along a run that takes only actions that meet it. -/
theorem along_of_mem {P : A → Prop} {s : S} {as : List A} (hP : ∀ a ∈ as, P a) :
    Along step (fun _ a => P a) s as := by
  induction as generalizing s with
  | nil => trivial
  | cons a as ih =>
    exact ⟨hP a List.mem_cons_self, ih fun b hb => hP b (List.mem_cons_of_mem _ hb)⟩

theorem along_true {s : S} {as : List A} : Along step (fun _ _ => True) s as :=
  along_of_mem (P := fun _ => True) fun _ _ => trivial

/-- What every step that meets `ok` preserves holds after the run. -/
theorem Along.invariant {ok : S → A → Prop} {I : S → Prop}
    (hstep : ∀ s a, I s → ok s a → I (step s a)) {s : S} {as : List A}
    (h : Along step ok s as) (hs : I s) : I (run step s as) := by
  induction as generalizing s with
  | nil => exact hs
  | cons a as ih => exact ih h.2 (hstep s a hs h.1)

/-- Systems that do the same in every state of an invariant are in the same states. -/
theorem Along.run_eq {step' : S → A → S} {ok : S → A → Prop} {I : S → Prop}
    (hstep : ∀ s a, I s → ok s a → step' s a = step s a ∧ I (step s a)) {s : S} {as : List A}
    (h : Along step ok s as) (hs : I s) : run step' s as = run step s as := by
  induction as generalizing s with
  | nil => rfl
  | cons a as ih =>
    obtain ⟨heq, hs'⟩ := hstep s a hs h.1
    rw [run_cons, run_cons, heq]
    exact ih h.2 hs'

/-- What every step preserves holds after any run. -/
theorem run_invariant {I : S → Prop} (hstep : ∀ s a, I s → I (step s a)) {s : S}
    (as : List A) (hs : I s) : I (run step s as) := by
  induction as generalizing s with
  | nil => exact hs
  | cons a as ih => exact ih (hstep s a hs)

end Transition
