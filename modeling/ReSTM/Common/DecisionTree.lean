import Mathlib.Data.Nat.Notation

/-!
# Decision trees

Every inner node asks a question and has a child for each answer. `eval ask t` is the leaf that is
reached if `ask` answers, and `path ask t` are the questions on the way.

* `eval_eq_iff`: two ways to answer reach the same leaf exactly if they agree along the path.
-/

universe u v w x

/-- A decision tree with the questions `Q`, the answers `B` and the leaves `L`. -/
inductive DecisionTree (Q : Type u) (B : Type v) (L : Type w)
  | leaf (l : L)
  | node (q : Q) (child : B → DecisionTree Q B L)

namespace DecisionTree

variable {Q : Type u} {B : Type v} {L : Type w} {K : Type x}

/-- The leaf that is reached. -/
def eval (ask : Q → B) : DecisionTree Q B L → L
  | leaf l => l
  | node q child => (child (ask q)).eval ask

/-- The questions that are asked. -/
def path (ask : Q → B) : DecisionTree Q B L → List Q
  | leaf _ => []
  | node q child => q :: (child (ask q)).path ask

/-- The leaves. -/
def HasLeaf (l : L) : DecisionTree Q B L → Prop
  | leaf l' => l = l'
  | node _ child => ∃ b, (child b).HasLeaf l

/-- No two leaves have the same value. -/
def DistinctBy (f : L → K) : DecisionTree Q B L → Prop
  | leaf _ => True
  | node _ child => (∀ b, (child b).DistinctBy f) ∧
      ∀ b b' l l', (child b).HasLeaf l → (child b').HasLeaf l' → f l = f l' → b = b'

/-- A recursion with this fuel reaches every leaf. -/
def Within : ℕ → DecisionTree Q B L → Prop
  | 0, _ => False
  | _ + 1, leaf _ => True
  | fuel + 1, node _ child => ∀ b, (child b).Within fuel

variable {t : DecisionTree Q B L} {ask ask' : Q → B} {f : L → K}

theorem hasLeaf_eval (ask : Q → B) (t : DecisionTree Q B L) : t.HasLeaf (t.eval ask) := by
  induction t with
  | leaf l => exact rfl
  | node q child ih => exact ⟨ask q, ih (ask q)⟩

/-- Leaves with the same value are the same. -/
theorem DistinctBy.eq (h : t.DistinctBy f) {l l' : L} (hl : t.HasLeaf l) (hl' : t.HasLeaf l')
    (heq : f l = f l') : l = l' := by
  induction t with
  | leaf m => exact Eq.trans hl (Eq.symm hl')
  | node q child ih =>
    obtain ⟨b, hb⟩ := hl
    obtain ⟨b', hb'⟩ := hl'
    obtain rfl := h.2 b b' l l' hb hb' heq
    exact ih b (h.1 b) hb hb'

/-- The same leaf is reached exactly if the answers along the path agree. -/
theorem eval_eq_iff (h : t.DistinctBy f) :
    t.eval ask = t.eval ask' ↔ ∀ q ∈ t.path ask, ask q = ask' q := by
  induction t with
  | leaf l => exact iff_of_true rfl fun q hq => absurd hq List.not_mem_nil
  | node q child ih =>
    simp only [path, List.mem_cons, forall_eq_or_imp]
    constructor
    · intro heq
      have hb : ask q = ask' q :=
        h.2 _ _ _ _ (hasLeaf_eval ask _) (hasLeaf_eval ask' _) (congrArg f heq)
      refine ⟨hb, (ih _ (h.1 _)).mp ?_⟩
      rw [eval, eval, ← hb] at heq
      exact heq
    · rintro ⟨hb, hpath⟩
      rw [eval, eval, ← hb]
      exact (ih _ (h.1 _)).mpr hpath

end DecisionTree
