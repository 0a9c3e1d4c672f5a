import Mathlib.Init

/-!
# Weakest preconditions

Programs that change a state and may fail keep the changes made before the failure:
they are `EStateM` programs. `wp x Q E s` says that `x` run from `s` ends in `Q` when it
returns and in `E` when it fails.

* `wp_bind`, `wp_pure`, `wp_throw`, …: one rule for each way to build a program.
* `wp_mono`, `wp_forM`: the rules of consequence and of loops.

Programs whose changes are lost when they fail are `StateT σ (Except ε)` programs.

* `bind_ok`, `bind_error`, `bind_ok_iff`: what follows a program that returned or failed.
* `foldlM_keeps`: what every step of a loop keeps.
-/

namespace WP

universe u

variable {ε σ α β : Type u}

/-- The weakest precondition of `x` for the postcondition `Q` and the exceptional
    postcondition `E`. -/
def wp (x : EStateM ε σ α) (Q : α → σ → Prop) (E : ε → σ → Prop) (s : σ) : Prop :=
  match x s with
  | .ok a s' => Q a s'
  | .error e s' => E e s'

instance (x : EStateM ε σ α) (Q : α → σ → Prop) (E : ε → σ → Prop) (s : σ)
    [∀ a s', Decidable (Q a s')] [∀ e s', Decidable (E e s')] : Decidable (wp x Q E s) := by
  unfold wp
  split <;> infer_instance

variable {Q : α → σ → Prop} {E : ε → σ → Prop} {s : σ}

theorem wp_pure {a : α} : wp (pure a) Q E s ↔ Q a s := Iff.rfl

theorem wp_throw {e : ε} : wp (throw e : EStateM ε σ α) Q E s ↔ E e s := Iff.rfl

theorem wp_get {Q : σ → σ → Prop} : wp (get : EStateM ε σ σ) Q E s ↔ Q s s := Iff.rfl

theorem wp_modify {Q : PUnit → σ → Prop} {f : σ → σ} :
    wp (modify f : EStateM ε σ PUnit) Q E s ↔ Q ⟨⟩ (f s) := Iff.rfl

theorem wp_bind {x : EStateM ε σ β} {f : β → EStateM ε σ α} :
    wp (x >>= f) Q E s ↔ wp x (fun b s' => wp (f b) Q E s') E s := by
  show wp (EStateM.bind x f) Q E s ↔ _
  unfold wp EStateM.bind
  cases x s <;> rfl

theorem wp_adaptExcept {x : EStateM ε σ α} {f : ε → ε} :
    wp (x.adaptExcept f) Q E s ↔ wp x Q (fun e s' => E (f e) s') s := by
  unfold wp EStateM.adaptExcept
  cases x s <;> rfl

/-- The rule of consequence. -/
theorem wp_mono {x : EStateM ε σ α} {Q' : α → σ → Prop} {E' : ε → σ → Prop}
    (h : wp x Q E s) (hQ : ∀ a s', Q a s' → Q' a s') (hE : ∀ e s', E e s' → E' e s') :
    wp x Q' E' s := by
  unfold wp at *
  split
  · rename_i heq; rw [heq] at h; exact hQ _ _ h
  · rename_i heq; rw [heq] at h; exact hE _ _ h

/-- The rule of a loop, with the invariant `I`. -/
theorem wp_forM {γ : Type} {I : σ → Prop} {f : γ → EStateM ε σ PUnit} {l : List γ}
    (hbody : ∀ c ∈ l, ∀ s, I s → wp (f c) (fun _ => I) E s) (hs : I s) :
    wp (l.forM f) (fun _ => I) E s := by
  induction l generalizing s with
  | nil => exact hs
  | cons c l ih =>
    show wp (f c >>= fun _ => l.forM f) _ E s
    rw [wp_bind]
    refine wp_mono (hbody c List.mem_cons_self s hs) (fun _ s' hs' => ?_) fun _ _ h => h
    exact ih (fun c' hc' => hbody c' (List.mem_cons_of_mem c hc')) hs'

/-! ## Programs whose changes are lost -/

section Lost

variable {x : StateT σ (Except ε) β} {f : β → StateT σ (Except ε) α} {r : σ}

theorem bind_ok {b : β} (h : x s = .ok (b, r)) : (x >>= f) s = f b r := by
  show (x s >>= fun r => f r.1 r.2) = _
  rw [h]
  rfl

theorem bind_error {e : ε} (h : x s = .error e) : (x >>= f) s = .error e := by
  show (x s >>= fun r => f r.1 r.2) = _
  rw [h]
  rfl

/-- A program that returned had a first part that returned. -/
theorem bind_ok_iff {a : α} {t : σ} :
    (x >>= f) s = .ok (a, t) ↔ ∃ b r, x s = .ok (b, r) ∧ f b r = .ok (a, t) := by
  cases hres : x s with
  | error e =>
    rw [bind_error hres]
    refine iff_of_false nofun ?_
    rintro ⟨b, r, h, -⟩
    cases h
  | ok res =>
    rw [bind_ok hres]
    constructor
    · exact fun h => ⟨res.1, res.2, rfl, h⟩
    · rintro ⟨b, r, h, hf⟩
      cases h
      exact hf

/-- Programs that do the same up to here, and after it. -/
theorem bind_congr_ok {x' : StateT σ (Except ε) β} {f' : β → StateT σ (Except ε) α}
    (hx : x' s = x s) (hf : ∀ b r, x s = .ok (b, r) → f' b r = f b r) :
    (x' >>= f') s = (x >>= f) s := by
  cases hres : x s with
  | error e => rw [bind_error hres, bind_error (hx.trans hres)]
  | ok res => rw [bind_ok hres, bind_ok (hx.trans hres), hf _ _ hres]

end Lost

/-- A loop that may fail keeps what every step of it keeps. -/
theorem foldlM_keeps {f : σ → α → Except ε σ} {I : σ → Prop}
    (hf : ∀ {s x s'}, f s x = .ok s' → I s → I s') {l : List α} {s s' : σ}
    (h : l.foldlM f s = .ok s') (hs : I s) : I s' := by
  induction l generalizing s with
  | nil =>
    cases h
    exact hs
  | cons x l ih =>
    rw [List.foldlM_cons] at h
    cases hstep : f s x with
    | error e =>
      rw [hstep] at h
      cases h
    | ok s₁ =>
      rw [hstep] at h
      exact ih h (hf hstep hs)

end WP
