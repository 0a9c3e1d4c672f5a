import ReSTM.Clustering.NodeSplit
import ReSTM.Common.Batching

/-!
# The buffers of a split

What the parts of `ClassificationTreeNode.split` do to the buffers and the nodes.

* `ClusterStore.drain_spec`, `addPages_spec`: pages are taken out of a buffer, or put into it.
* `flatten_batches`: the batches have the pages, in their order.
-/

namespace ReSTM

open HeapModel Nodes Page WP

/-! ## Batches -/

/-- The batches are groups that collect pages until they have enough rows. -/
theorem batches_eq (pages : List Page) : batches pages =
    Batching.groups (fun group => (group.map Page.size).sum < pageSize) pages := rfl

/-- Nothing is lost on the way through the accumulator, and nothing is added. -/
theorem flatten_batches (pages : List Page) : (batches pages).flatten = pages := by
  rw [batches_eq]
  exact Batching.flatten_groups _ pages

namespace ClusterStore

variable {s s' s'' : ClusterStore} {b p : Ptr} {M : Multiset Page} {n m : ClassificationTreeNode}
  {pages : List Page} {fuel k : ℕ} {u : Unit}

/-! ## Single buffers -/

/-- Nothing has changed but the buffer `b`. -/
structure Touches (b : Ptr) (s s' : ClusterStore) : Prop where
  nodes : s'.nodes = s.nodes
  other : ∀ b', b' ≠ b → s'.buffers.get b' = s.buffers.get b'

theorem Touches.refl (b : Ptr) (s : ClusterStore) : Touches b s s := ⟨rfl, fun _ _ => rfl⟩

theorem Touches.trans (h : Touches b s s') (h' : Touches b s' s'') : Touches b s s'' :=
  ⟨h'.nodes.trans h.nodes, fun b' hb' => (h'.other b' hb').trans (h.other b' hb')⟩

/-- A buffer holds one multiset of pages. -/
theorem Holds.unique {M' : Multiset Page} (h : s.Holds b M) (h' : s.Holds b M') : M = M' := by
  obtain ⟨t, ht, F, hshape, rfl⟩ := h
  obtain ⟨t', ht', F', hshape', rfl⟩ := h'
  obtain rfl := Option.some.inj (ht.symm.trans ht')
  have hsub : ∀ F F' : Finset Ptr, PageTree.Shape t F → PageTree.Shape t F' → F ⊆ F' := by
    intro F F' hshape hshape' q hq
    obtain ⟨n, hn⟩ := hshape.linked.stored hq
    exact hshape'.reached q n hn
  rw [(hsub F F' hshape hshape').antisymm (hsub F' F hshape' hshape)]

theorem of_require {c : Prop} [Decidable c] (h : require c s = .ok (u, s')) : c ∧ s' = s := by
  unfold require at h
  split_ifs at h with hc
  · cases h
    exact ⟨hc, rfl⟩
  · cases h

theorem bufferSize_spec (h : s.Holds b M) (hrun : bufferSize b s = .ok (k, s')) :
    k = (M.map Page.size).sum ∧ s'.nodes = s.nodes ∧ s'.buffers = s.buffers := by
  obtain ⟨hquiet, hnodes⟩ := onBuffer_quiet hrun
  obtain ⟨t, ht, hM⟩ := h
  unfold bufferSize onBuffer at hrun
  rw [ht] at hrun
  dsimp only at hrun
  rw [hM.size] at hrun
  cases hrun
  exact ⟨rfl, hnodes, hquiet.buffers⟩

theorem bufferPages_spec (h : s.Holds b M) (hrun : bufferPages b s = .ok (pages, s')) :
    (pages : Multiset Page) = M ∧ s'.nodes = s.nodes ∧ s'.buffers = s.buffers := by
  obtain ⟨hquiet, hnodes⟩ := onBuffer_quiet hrun
  obtain ⟨t, ht, hM⟩ := h
  unfold bufferPages onBuffer at hrun
  rw [ht] at hrun
  dsimp only at hrun
  cases hpages : t.pageStream with
  | error e =>
    rw [hpages] at hrun
    cases hrun
  | ok l =>
    rw [hpages] at hrun
    cases hrun
    exact ⟨hM.pageStream hpages, hnodes, hquiet.buffers⟩

theorem addPages_spec (h : s.Holds b M) (hrun : addPages (some b) pages s = .ok (u, s')) :
    Touches b s s' ∧ s'.Holds b (pages + M) := by
  induction pages generalizing s M with
  | nil =>
    cases hrun
    exact ⟨.refl _ _, by rwa [Multiset.coe_nil, zero_add]⟩
  | cons page pages ih =>
    obtain ⟨s₁, h₁, hnodes, hM, hother⟩ := addPage_ok h page
    have hrun' : (addPage b page >>= fun _ => addPages (some b) pages) s = .ok (u, s') := hrun
    rw [bind_ok h₁] at hrun'
    obtain ⟨htouch, hM'⟩ := ih hM hrun'
    refine ⟨Touches.trans ⟨hnodes, hother⟩ htouch, ?_⟩
    rw [← Multiset.cons_coe, Multiset.cons_add, ← Multiset.add_cons]
    exact hM'

/-- A page is taken, if there is one. -/
theorem takePage_spec (h : s.Holds b M) : ∃ o s' M', takePage b s = .ok (o, s') ∧
    Touches b s s' ∧ s'.Holds b M' ∧ M = o.elim M' (· ::ₘ M') ∧ (o = none → M = 0) := by
  obtain ⟨t, ht, hM⟩ := h
  have hrun : ∀ o t', t.get PageTreeNode.equals (s.choices 0) = .ok (o, t') →
      takePage b s = .ok (o, { s with
        buffers := s.buffers.set b (some t')
        choices := fun i => s.choices (i + 1) }) := by
    intro o t' hget
    have hdraw : draw s = .ok (s.choices 0, { s with choices := fun i => s.choices (i + 1) }) := rfl
    rw [takePage, bind_ok hdraw, onBuffer]
    dsimp only
    rw [ht]
    dsimp only
    rw [hget]
    rfl
  have hset : ∀ t' : PageTree, (s.buffers.set b (some t')).get b = some t' := fun t' =>
    Heap.get_set_self (Heap.lt_next ht)
  by_cases hzero : M = 0
  · subst hzero
    refine ⟨none, _, 0, hrun none t (hM.get_zero _ _), ⟨rfl, fun b' hb' => ?_⟩,
      ⟨t, hset t, hM⟩, rfl, fun _ => rfl⟩
    exact Heap.get_set_of_ne hb'
  · obtain ⟨v, t', M', hget, hM', hcons⟩ := hM.get hzero (s.choices 0)
    refine ⟨some v, _, M', hrun _ t' (hget _ PageTreeNode.sameLinks_equals),
      ⟨rfl, fun b' hb' => ?_⟩, ⟨t', hset t', hM'⟩, hcons, nofun⟩
    exact Heap.get_set_of_ne hb'

/-- All pages are taken. -/
theorem drain_spec (h : s.Holds b M) (hrun : drain b fuel s = .ok (pages, s')) :
    (pages : Multiset Page) = M ∧ Touches b s s' ∧ s'.Holds b 0 := by
  induction fuel generalizing s M pages with
  | zero => cases hrun
  | succ fuel ih =>
    obtain ⟨o, s₁, M₁, h₁, htouch, hM₁, hM, hzero⟩ := takePage_spec h
    unfold drain at hrun
    rw [bind_ok h₁] at hrun
    cases o with
    | none =>
      cases hrun
      obtain rfl := hzero rfl
      have hM₁' : M₁ = 0 := hM.symm
      exact ⟨rfl, htouch, hM₁' ▸ hM₁⟩
    | some page =>
      obtain ⟨rest, s₂, h₂, hrest⟩ := bind_ok_iff.mp hrun
      cases hrest
      obtain ⟨hpages, htouch', hempty⟩ := ih hM₁ h₂
      refine ⟨?_, htouch.trans htouch', hempty⟩
      rw [← Multiset.cons_coe, hpages]
      exact hM.symm

/-! ## Nodes and new buffers -/

theorem of_writeNode (h : writeNode p n s = .ok (u, s')) (hm : s.nodes.get p = some m) :
    s' = { s with nodes := s.nodes.set p (some n) } := by
  have hwrite : s.nodes.write Heap.never p n = s.nodes.set p (some n) := by
    rw [Heap.write, hm]
    rfl
  unfold writeNode onNodes write at h
  rw [hwrite] at h
  cases h
  rfl

theorem newBuffer_ok (s : ClusterStore) :
    newBuffer s = .ok (s.buffers.next, { s with buffers := s.buffers.alloc PageTree.create }) := rfl

/-- A new buffer is empty. -/
theorem holds_new (h : s.buffers = s'.buffers.alloc PageTree.create) :
    s.Holds s'.buffers.next 0 :=
  ⟨PageTree.create, by rw [h, Heap.get_alloc_self], PageTree.holds_create⟩

/-- A buffer that is stored is none of the new ones. -/
theorem Holds.lt_next (h : s.Holds b M) : b < s.buffers.next := by
  obtain ⟨t, ht, -⟩ := h
  exact Heap.lt_next ht

end ClusterStore

end ReSTM
