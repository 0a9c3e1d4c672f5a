import Mathlib.Data.Nat.Notation

/-!
# Lazy streams

A lazy stream is given by its steps: from a state, it ends, fails, goes on without an element, or
has an element and goes on. `read` reads a stream to its end in a bounded number of steps. A stream
that neither ends nor fails has no result at all, however many steps it is given.

* `reads_done`, `reads_skip`, `reads_yield`: a stream is read step by step.
* `not_reads`: an invariant under which a stream never ends.
* `begins_of_reads`: what is kept of a stream that ends has a first element, or none.
* `read_eq_none`: an invariant under which it looks for an element for ever.
-/

namespace LazyStream

variable {ε σ α β : Type}

/-- What a step of a stream does. -/
inductive Step (ε σ α : Type)
  | done
  | fail (e : ε)
  | skip (s : σ)
  | yield (a : α) (s : σ)

/-- A stream, by its steps. -/
abbrev Stream (ε σ α : Type) : Type := σ → Step ε σ α

/-- A stream is read to its end, in fewer than `fuel` steps. -/
def read (next : Stream ε σ α) : ℕ → σ → Option (Except ε (List α))
  | 0, _ => none
  | fuel + 1, s =>
    match next s with
    | .done => some (.ok [])
    | .fail e => some (.error e)
    | .skip s' => read next fuel s'
    | .yield a s' => (read next fuel s').map fun r => r.map (a :: ·)

/-- A stream is evaluated to its first element, if it has one, in fewer than `fuel` steps. -/
def first (next : Stream ε σ α) : ℕ → σ → Option (Except ε (Option α))
  | 0, _ => none
  | fuel + 1, s =>
    match next s with
    | .done => some (.ok none)
    | .fail e => some (.error e)
    | .skip s' => first next fuel s'
    | .yield a _ => some (.ok (some a))

/-- The stream from a state finds this as its first element, or its end. -/
def Begins (next : Stream ε σ α) (s : σ) (r : Option α) : Prop :=
  ∃ k, ∀ fuel, k ≤ fuel → first next fuel s = some (.ok r)

/-- The stream from a state ends, and has had these elements. -/
def Reads (next : Stream ε σ α) (s : σ) (l : List α) : Prop := ∃ fuel, read next fuel s = some (.ok l)

/-! ## Streams of the library -/

/-- Where `Stream.iterate` is: before an element, or before the one that follows an element. -/
inductive Iterated (α : Type)
  | element (a : α)
  | after (a : α)

/-- `Stream.iterate(start)(f)`, from `element start` on. -/
def iterate (f : α → Except ε α) : Stream ε (Iterated α) α
  | .element a => .yield a (.after a)
  | .after a =>
    match f a with
    | .ok b => .yield b (.after b)
    | .error e => .fail e

/-- `map`. -/
def map (f : α → β) (next : Stream ε σ α) : Stream ε σ β := fun s =>
  match next s with
  | .done => .done
  | .fail e => .fail e
  | .skip s' => .skip s'
  | .yield a s' => .yield (f a) s'

/-- `takeWhile`. -/
def takeWhile (p : α → Bool) (next : Stream ε σ α) : Stream ε σ α := fun s =>
  match next s with
  | .yield a s' => if p a then .yield a s' else .done
  | step => step

/-- `flatMap` with at most one element for each, which looks for the next element at once. -/
def flatMap (f : α → Option β) (next : Stream ε σ α) : Stream ε σ β := fun s =>
  match next s with
  | .done => .done
  | .fail e => .fail e
  | .skip s' => .skip s'
  | .yield a s' =>
    match f a with
    | some b => .yield b s'
    | none => .skip s'

variable {next : Stream ε σ α} {s s' : σ} {a : α} {l : List α}

section Steps

variable {f : α → β} {g : α → Option β} {h : α → Except ε α} {p : α → Bool} {b : β} {e : ε}

theorem iterate_ok {a' : α} (hf : h a = .ok a') : iterate h (.after a) = .yield a' (.after a') := by
  rw [iterate, hf]

theorem iterate_error (hf : h a = .error e) : iterate h (.after a) = .fail e := by
  rw [iterate, hf]

theorem map_done (hs : next s = .done) : map f next s = .done := by rw [map, hs]

theorem map_fail (hs : next s = .fail e) : map f next s = .fail e := by rw [map, hs]

theorem map_skip (hs : next s = .skip s') : map f next s = .skip s' := by rw [map, hs]

theorem map_yield (hs : next s = .yield a s') : map f next s = .yield (f a) s' := by rw [map, hs]

theorem takeWhile_fail (hs : next s = .fail e) : takeWhile p next s = .fail e := by
  rw [takeWhile, hs]

theorem takeWhile_skip (hs : next s = .skip s') : takeWhile p next s = .skip s' := by
  rw [takeWhile, hs]

theorem takeWhile_yield (hs : next s = .yield a s') (hp : p a = true) :
    takeWhile p next s = .yield a s' := by
  rw [takeWhile, hs]
  exact if_pos hp

theorem takeWhile_stop (hs : next s = .yield a s') (hp : p a = false) :
    takeWhile p next s = .done := by
  rw [takeWhile, hs]
  exact if_neg (Bool.eq_false_iff.mp hp)

theorem flatMap_done (hs : next s = .done) : flatMap g next s = .done := by rw [flatMap, hs]

theorem flatMap_fail (hs : next s = .fail e) : flatMap g next s = .fail e := by rw [flatMap, hs]

theorem flatMap_skip (hs : next s = .skip s') : flatMap g next s = .skip s' := by
  rw [flatMap, hs]

theorem flatMap_yield (hs : next s = .yield a s') (hg : g a = some b) :
    flatMap g next s = .yield b s' := by
  rw [flatMap, hs]
  dsimp only
  rw [hg]

theorem flatMap_none (hs : next s = .yield a s') (hg : g a = none) :
    flatMap g next s = .skip s' := by
  rw [flatMap, hs]
  dsimp only
  rw [hg]

end Steps

/-! ## Rules -/

theorem reads_done (h : next s = .done) : Reads next s [] := by
  refine ⟨1, ?_⟩
  rw [read, h]

theorem reads_skip (h : next s = .skip s') (hrest : Reads next s' l) : Reads next s l := by
  obtain ⟨fuel, hfuel⟩ := hrest
  refine ⟨fuel + 1, ?_⟩
  rw [read, h]
  exact hfuel

theorem reads_yield (h : next s = .yield a s') (hrest : Reads next s' l) :
    Reads next s (a :: l) := by
  obtain ⟨fuel, hfuel⟩ := hrest
  refine ⟨fuel + 1, ?_⟩
  rw [read, h]
  show (read next fuel s').map _ = _
  rw [hfuel]
  rfl

/-- A stream whose states all have another step never ends. -/
theorem not_reads {I : σ → Prop} (hdone : ∀ s, I s → next s ≠ .done)
    (hskip : ∀ s s', I s → next s = .skip s' → I s')
    (hyield : ∀ s a s', I s → next s = .yield a s' → I s') (hs : I s) : ¬Reads next s l := by
  rintro ⟨fuel, hfuel⟩
  induction fuel generalizing s l with
  | zero => cases hfuel
  | succ fuel ih =>
    rw [read] at hfuel
    cases hstep : next s with
    | done => exact hdone s hs hstep
    | fail e =>
      rw [hstep] at hfuel
      cases hfuel
    | skip s' =>
      rw [hstep] at hfuel
      exact ih (hskip s s' hs hstep) hfuel
    | yield a s' =>
      rw [hstep] at hfuel
      dsimp only at hfuel
      cases hrest : read next fuel s' with
      | none =>
        rw [hrest] at hfuel
        cases hfuel
      | some r =>
        cases r with
        | error e =>
          rw [hrest] at hfuel
          cases hfuel
        | ok l' => exact ih (hyield s a s' hs hstep) hrest

/-- A stream that goes on without an element from every state has no result. -/
theorem read_eq_none {I : σ → Prop} (hstep : ∀ s, I s → ∃ s', next s = .skip s' ∧ I s') (hs : I s)
    (fuel : ℕ) : read next fuel s = none := by
  induction fuel generalizing s with
  | zero => rfl
  | succ fuel ih =>
    obtain ⟨s', hskip, hs'⟩ := hstep s hs
    rw [read, hskip]
    exact ih hs'

/-! ## The first element -/

theorem first_yield (h : next s = .yield a s') (fuel : ℕ) :
    first next (fuel + 1) s = some (.ok (some a)) := by
  rw [first, h]

theorem first_fail {e : ε} (h : next s = .fail e) (fuel : ℕ) :
    first next (fuel + 1) s = some (.error e) := by
  rw [first, h]

theorem first_skip (h : next s = .skip s') (fuel : ℕ) :
    first next (fuel + 1) s = first next fuel s' := by
  rw [first, h]

/-- A stream that goes on without an element from every state has no first element. -/
theorem first_eq_none {I : σ → Prop} (hstep : ∀ s, I s → ∃ s', next s = .skip s' ∧ I s') (hs : I s)
    (fuel : ℕ) : first next fuel s = none := by
  induction fuel generalizing s with
  | zero => rfl
  | succ fuel ih =>
    obtain ⟨s', hskip, hs'⟩ := hstep s hs
    rw [first_skip hskip]
    exact ih hs'

theorem begins_of_step {r : Option α} (h : ∀ fuel, first next (fuel + 1) s = some (.ok r)) :
    Begins next s r := by
  refine ⟨1, fun fuel hfuel => ?_⟩
  obtain ⟨fuel, rfl⟩ := Nat.exists_eq_succ_of_ne_zero (Nat.ne_zero_of_lt hfuel)
  exact h fuel

theorem begins_skip {r : Option α} (h : next s = .skip s') (hrest : Begins next s' r) :
    Begins next s r := by
  obtain ⟨k, hk⟩ := hrest
  refine ⟨k + 1, fun fuel hfuel => ?_⟩
  obtain ⟨fuel, rfl⟩ := Nat.exists_eq_succ_of_ne_zero (Nat.ne_zero_of_lt hfuel)
  rw [first_skip h]
  exact hk fuel (Nat.le_of_succ_le_succ hfuel)

/-- Among the elements of a stream that ends, the first one that is kept is found, or the end. -/
theorem begins_of_reads {g : α → Option β} (h : Reads next s l) :
    ∃ r, Begins (flatMap g next) s r := by
  obtain ⟨steps, hsteps⟩ := h
  induction steps generalizing s l with
  | zero => cases hsteps
  | succ steps ih =>
    rw [read] at hsteps
    cases hstep : next s with
    | done =>
      refine ⟨none, begins_of_step fun fuel => ?_⟩
      rw [first, flatMap_done hstep]
    | fail e =>
      rw [hstep] at hsteps
      cases hsteps
    | skip s' =>
      rw [hstep] at hsteps
      obtain ⟨r, hr⟩ := ih hsteps
      exact ⟨r, begins_skip (flatMap_skip hstep) hr⟩
    | yield a s' =>
      cases hg : g a with
      | some b => exact ⟨some b, begins_of_step (first_yield (flatMap_yield hstep hg))⟩
      | none =>
        rw [hstep] at hsteps
        dsimp only at hsteps
        cases hrest : read next steps s' with
        | none =>
          rw [hrest] at hsteps
          cases hsteps
        | some r =>
          cases r with
          | error e =>
            rw [hrest] at hsteps
            cases hsteps
          | ok l' =>
            obtain ⟨r, hr⟩ := ih hrest
            exact ⟨r, begins_skip (flatMap_none hstep hg) hr⟩

end LazyStream
