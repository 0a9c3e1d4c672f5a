import Mathlib.Init

/-!
# Replaying a run

Two programs do the same but ask different oracles. `Replays Ok x y` says that `y` repeats
every run of `x` that returns in a state that `Ok` accepts, and that such a run also started
in one: what `Ok` says of a state are the answers that a run up to it was given.

* `replays_bind` and the rules beside it: one for each way to build a program.
-/

namespace Replay

universe u

variable {ε σ α β : Type u} {Ok : σ → Prop}

/-- `y` repeats what `x` does where it returns. -/
def Replays (Ok : σ → Prop) (x y : EStateM ε σ α) : Prop :=
  ∀ s a s', x s = .ok a s' → Ok s' → y s = .ok a s' ∧ Ok s

theorem replays_pure (a : α) : Replays (ε := ε) Ok (pure a) (pure a) := by
  intro s b s' h hok
  cases h
  exact ⟨rfl, hok⟩

/-- A program that fails is repeated by every program. -/
theorem replays_throw (e : ε) (y : EStateM ε σ α) : Replays Ok (throw e) y :=
  fun _ _ _ h => nomatch h

theorem replays_get : Replays (ε := ε) Ok (get : EStateM ε σ σ) get := by
  intro s b s' h hok
  cases h
  exact ⟨rfl, hok⟩

/-- Where the run is known to go on from the state that was read. -/
theorem replays_get_bind {f g : σ → EStateM ε σ α}
    (h : ∀ s a s', f s s = .ok a s' → Ok s' → g s s = .ok a s' ∧ Ok s) :
    Replays Ok (get >>= f) (get >>= g) := h

/-- A change that `Ok` does not see. -/
theorem replays_modify {f : σ → σ} (hf : ∀ s, Ok (f s) → Ok s) :
    Replays (ε := ε) Ok (modify f : EStateM ε σ PUnit) (modify f) := by
  intro s b s' h hok
  cases h
  exact ⟨rfl, hf s hok⟩

theorem replays_bind {x y : EStateM ε σ β} {f g : β → EStateM ε σ α} (hx : Replays Ok x y)
    (hf : ∀ b, Replays Ok (f b) (g b)) : Replays Ok (x >>= f) (y >>= g) := by
  intro s a s' h hok
  change EStateM.bind x f s = _ at h
  unfold EStateM.bind at h
  cases hs : x s with
  | error e s₁ => rw [hs] at h; cases h
  | ok b s₁ =>
    rw [hs] at h
    obtain ⟨hg, hok₁⟩ := hf b s₁ a s' h hok
    obtain ⟨hy, hok₀⟩ := hx s b s₁ hs hok₁
    refine ⟨?_, hok₀⟩
    show EStateM.bind y g s = _
    unfold EStateM.bind
    rw [hy]
    exact hg

theorem replays_adaptExcept {x y : EStateM ε σ α} {f : ε → ε} (h : Replays Ok x y) :
    Replays Ok (x.adaptExcept f) (y.adaptExcept f) := by
  intro s a s' hx hok
  unfold EStateM.adaptExcept at hx ⊢
  cases hs : x s with
  | error e s₁ => rw [hs] at hx; cases hx
  | ok b s₁ =>
    rw [hs] at hx
    cases hx
    obtain ⟨hy, hok⟩ := h s a s' hs hok
    rw [hy]
    exact ⟨rfl, hok⟩

end Replay
