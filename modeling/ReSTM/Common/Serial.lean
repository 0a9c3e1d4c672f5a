import Mathlib.Data.List.Induction
import Mathlib.Data.List.Pairwise

/-!
# Serial execution

Transactions that each write some keys, executed one after another. A key that
some transaction writes has the value of its last writer; in a list ordered by
timestamp that is the greatest one (`exec_cases`).

* `foldl_eq_exec`: programs that write these keys when they are executed there.
-/

namespace Serial

universe u v w

variable {T : Type u} {K : Type v} {W : Type w} (writes : T → K → Option W) (σ : K → W)
  {ts : List T} (k : K)

/-- The store after executing `ts` from `σ`; `writes t k` is what `t` writes to `k`. -/
def exec (ts : List T) : K → W :=
  ts.foldl (fun σ t k => (writes t k).getD (σ k)) σ

theorem exec_concat (t : T) :
    exec writes σ (ts ++ [t]) k = (writes t k).getD (exec writes σ ts k) := by
  simp [exec]

/-- In an ordered list, either nobody writes the key, or its value is the greatest
    writer's. -/
theorem exec_cases {r : T → T → Prop} (hasymm : ∀ t t', r t t' → ¬r t' t)
    (hsorted : ts.Pairwise r) :
    (∀ t ∈ ts, writes t k = none) ∧ exec writes σ ts k = σ k ∨
      ∃ t ∈ ts, writes t k = some (exec writes σ ts k) ∧ ∀ t' ∈ ts, r t t' → writes t' k = none := by
  induction ts using List.reverseRecOn with
  | nil => exact .inl ⟨fun t ht => absurd ht List.not_mem_nil, rfl⟩
  | append_singleton ts last ih =>
    rw [exec_concat]
    obtain ⟨hts, -, hlast⟩ := List.pairwise_append.mp hsorted
    have hmem : last ∈ ts ++ [last] := List.mem_append_right _ (List.mem_singleton_self last)
    cases hw : writes last k with
    | some v =>
      -- nothing comes after the last entry
      refine .inr ⟨last, hmem, hw, fun t ht hr => ?_⟩
      rcases List.mem_append.mp ht with ht | ht
      · exact absurd hr (hasymm _ _ (hlast t ht last (List.mem_singleton_self last)))
      · rw [List.mem_singleton.mp ht] at hr
        exact absurd hr (hasymm _ _ hr)
    | none =>
      rw [Option.getD_none]
      have hall : ∀ t ∈ ts ++ [last], t ∈ ts ∨ t = last := fun t ht =>
        (List.mem_append.mp ht).imp_right List.mem_singleton.mp
      rcases ih hts with ⟨hno, heq⟩ | ⟨t, ht, hwrite, hgreatest⟩
      · refine .inl ⟨fun t ht => ?_, heq⟩
        rcases hall t ht with ht | rfl
        · exact hno t ht
        · exact hw
      · refine .inr ⟨t, List.mem_append_left _ ht, hwrite, fun t' ht' hr => ?_⟩
        rcases hall t' ht' with ht' | rfl
        · exact hgreatest t' ht' hr
        · exact hw

/-- A program may read before it writes: if each one, executed after those before it, writes
    what `writes` says, then so do all of them. -/
theorem foldl_eq_exec {step : (K → W) → T → K → W}
    (hstep : ∀ ts₁ t ts₂, ts = ts₁ ++ t :: ts₂ → ∀ k,
      step (exec writes σ ts₁) t k = (writes t k).getD (exec writes σ ts₁ k)) :
    ts.foldl step σ = exec writes σ ts := by
  induction ts using List.reverseRecOn with
  | nil => rfl
  | append_singleton ts t ih =>
    have hts : ts.foldl step σ = exec writes σ ts := by
      refine ih fun ts₁ t' ts₂ heq => hstep ts₁ t' (ts₂ ++ [t]) ?_
      rw [heq, List.append_assoc, List.cons_append]
    funext k
    rw [List.foldl_append, hts, exec_concat]
    exact hstep ts t [] rfl k

/-- In an ordered list, what comes before an entry is what is smaller. -/
theorem filter_lt_of_pairwise {r : T → T → Prop} [DecidableRel r]
    (hasymm : ∀ t t', r t t' → ¬r t' t) {ts₁ ts₂ : List T} {t : T}
    (hsorted : (ts₁ ++ t :: ts₂).Pairwise r) :
    (ts₁ ++ t :: ts₂).filter (fun t' => decide (r t' t)) = ts₁ := by
  obtain ⟨-, h₂, h₁⟩ := List.pairwise_append.mp hsorted
  have hbefore : ts₁.filter (fun t' => decide (r t' t)) = ts₁ :=
    List.filter_eq_self.mpr fun t' ht' => decide_eq_true (h₁ t' ht' t List.mem_cons_self)
  have hafter : (t :: ts₂).filter (fun t' => decide (r t' t)) = [] := by
    refine List.filter_eq_nil_iff.mpr fun t' ht' h => ?_
    rcases List.mem_cons.mp ht' with rfl | ht'
    · exact hasymm t' t' (of_decide_eq_true h) (of_decide_eq_true h)
    · exact hasymm t t' ((List.pairwise_cons.mp h₂).1 t' ht') (of_decide_eq_true h)
  rw [List.filter_append, hbefore, hafter, List.append_nil]

end Serial
