import ReSTM.Clustering.SplitsTree

/-!
# Splits conserve items

Items are added to a tree while its nodes are split, in any order of steps. Every page is in a
buffer of a node, or in one that a split reads, or a split has taken it. So when all splits are done,
without a race in a last pass, the tree has the items that were added, each as often as it was
added.

* `ClusterWorld.Grown`, `ClusterWorld.Ledger`: what holds of the nodes and the splits, and where the
  pages are.
* `ClusterWorld.splits_conserve`: the items of the tree when all splits are done.
-/

namespace ReSTM

open HeapModel Nodes Page WP ClusterStore Transition Keyed

/-- What a split has taken is its own, and the children that it has created are stored. -/
structure Split.Holder (t : Split) (s : ClusterStore) : Prop where
  taken : t.phase.holds = true → ∃ n, s.nodes.get t.self = some n ∧ n.splitBuffer.isSome ∧
    (t.phase.early = true → ∀ br, n.child br = none)
  nodup : t.phase.children.Nodup
  children : ∀ c ∈ t.phase.children, t.self < c ∧
    ∃ m, s.nodes.get c = some m ∧ m.parent = some t.self

namespace Split

variable {t : Split} {s s' : ClusterStore} {n : ClassificationTreeNode}

/-- A node is still stored, with its parent, and what a split has taken is still taken. -/
theorem Holder.mono (h : t.Holder s)
    (hparent : ∀ c m, s.nodes.get c = some m →
      ∃ m', s'.nodes.get c = some m' ∧ m'.parent = m.parent)
    (htaken : t.phase.holds = true → ∀ n, s.nodes.get t.self = some n →
      ∃ n', s'.nodes.get t.self = some n' ∧ n'.splitBuffer = n.splitBuffer ∧
        ∀ br, n'.child br = n.child br) : t.Holder s' := by
  refine ⟨fun hholds => ?_, h.nodup, fun c hc => ?_⟩
  · obtain ⟨n, hn, hsplit, hchild⟩ := h.taken hholds
    obtain ⟨n', hn', hsplit', hchild'⟩ := htaken hholds n hn
    exact ⟨n', hn', hsplit' ▸ hsplit, fun hearly br => (hchild' br).trans (hchild hearly br)⟩
  · obtain ⟨hlt, m, hm, hp⟩ := h.children c hc
    obtain ⟨m', hm', hp'⟩ := hparent c m hm
    exact ⟨hlt, m', hm', hp'.trans hp⟩

/-- Nothing of the nodes has changed. -/
theorem Holder.same (h : t.Holder s) (hs : SameNodes s s') : t.Holder s' := by
  refine h.mono (fun c m hm => ?_) fun _ n hn => ?_
  · obtain ⟨task, hm'⟩ := hs.fields hm
    exact ⟨_, hm', rfl⟩
  · obtain ⟨task, hn'⟩ := hs.fields hn
    exact ⟨_, hn', rfl, fun br => by cases br <;> rfl⟩

/-- One node has changed that the split has not taken. -/
theorem Holder.set {self : Ptr} {n' : ClassificationTreeNode} (h : t.Holder s)
    (hn : s.nodes.get self = some n) (hnodes : s'.nodes = s.nodes.set self (some n'))
    (hparent : n'.parent = n.parent) (hne : t.phase.holds = true → t.self ≠ self) :
    t.Holder s' := by
  refine h.mono (fun c m hm => ?_) fun hholds n hn' => ?_
  · by_cases hc : c = self
    · subst hc
      obtain rfl := Option.some.inj (hn.symm.trans hm)
      exact ⟨n', by rw [hnodes, Heap.get_set_self (Heap.lt_next hn)], hparent⟩
    · exact ⟨m, by rw [hnodes, Heap.get_set_of_ne hc, hm], rfl⟩
  · exact ⟨n, by rw [hnodes, Heap.get_set_of_ne (hne hholds), hn'], rfl, fun _ => rfl⟩

/-- A child was created. -/
theorem Holder.create {self : Ptr} (h : t.Holder s) (hc : ChildOf self s s') :
    t.Holder s' := by
  exact h.mono (fun c m hm => ⟨m, hc.get_old hm, rfl⟩)
    fun _ n hn => ⟨n, hc.get_old hn, rfl, fun _ => rfl⟩

end Split

namespace ClusterWorld

variable {w : ClusterWorld} {t t' u : Split} {i j fuel : ℕ} {phase : SplitPhase} {s' : ClusterStore}
  {S : List BaseColumn} {P P' : Multiset (Ptr × Page)} {q c b : Ptr} {n : ClassificationTreeNode}

/-- A child that was created and is not set yet. -/
def Orphan (w : ClusterWorld) (q c : Ptr) : Prop :=
  ∃ t ∈ w.splits, t.self = q ∧ c ∈ t.phase.children

/-- The nodes are a tree, and a node belongs to one split at most. -/
structure Grown (w : ClusterWorld) : Prop where
  tree : w.store.Tree w.Orphan
  root : w.tree.root = 0
  holder : ∀ t ∈ w.splits, t.Holder w.store
  alone : ∀ {i j : ℕ} {t u : Split}, w.splits[i]? = some t → w.splits[j]? = some u →
    t.phase.holds = true → u.phase.holds = true → t.self = u.self → i = j

/-! ## One split goes on -/

theorem getElem?_proceed (hi : w.splits[i]? = some t)
    (hj : (w.proceed i t' s').splits[j]? = some u) :
    j = i ∧ u = t' ∨ j ≠ i ∧ w.splits[j]? = some u := by
  by_cases hji : j = i
  · subst hji
    have hlt := (List.getElem?_eq_some_iff.mp hi).1
    rw [proceed, List.getElem?_set_self hlt] at hj
    exact .inl ⟨rfl, (Option.some.inj hj).symm⟩
  · rw [proceed, List.getElem?_set_ne (Ne.symm hji)] at hj
    exact .inr ⟨hji, hj⟩

theorem mem_proceed (hi : w.splits[i]? = some t) (hu : u ∈ w.splits) :
    u = t ∨ u ∈ (w.proceed i t' s').splits := by
  obtain ⟨j, hj⟩ := List.mem_iff_getElem?.mp hu
  by_cases hji : j = i
  · subst hji
    exact .inl (Option.some.inj (hj.symm.trans hi))
  · refine .inr (List.mem_iff_getElem?.mpr ⟨j, ?_⟩)
    rw [proceed, List.getElem?_set_ne (Ne.symm hji), hj]

theorem mem_proceed_self (hi : w.splits[i]? = some t) :
    t' ∈ (w.proceed i t' s').splits :=
  List.mem_set (List.getElem?_eq_some_iff.mp hi).1 _

theorem Orphan.proceed (hi : w.splits[i]? = some t) (h : w.Orphan q c) :
    (w.proceed i t' s').Orphan q c ∨ q = t.self ∧ c ∈ t.phase.children := by
  obtain ⟨u, hu, rfl, hc⟩ := h
  rcases mem_proceed hi hu with rfl | hmem
  · exact .inr ⟨rfl, hc⟩
  · exact .inl ⟨u, hmem, rfl, hc⟩

theorem Grown.proceed (h : Grown w) (hi : w.splits[i]? = some t) (hself : t'.self = t.self)
    (htree : s'.Tree (w.proceed i t' s').Orphan)
    (hothers : ∀ j u, j ≠ i → w.splits[j]? = some u → u.Holder s')
    (hholder : t'.Holder s')
    (halone : t'.phase.holds = true → t.phase.holds = true ∨
      ∀ u ∈ w.splits, u.phase.holds = true → u.self ≠ t.self) : Grown (w.proceed i t' s') := by
  refine ⟨htree, h.root, fun u hu => ?_, ?_⟩
  · obtain ⟨j, hj⟩ := List.mem_iff_getElem?.mp hu
    rcases getElem?_proceed hi hj with ⟨-, rfl⟩ | ⟨hji, hj⟩
    · exact hholder
    · exact hothers j u hji hj
  · intro j k u v hj hk hu hv huv
    rcases getElem?_proceed hi hj with ⟨rfl, rfl⟩ | ⟨-, hj'⟩ <;>
      rcases getElem?_proceed hi hk with ⟨rfl, rfl⟩ | ⟨-, hk'⟩
    · rfl
    · rcases halone hu with ht | hnone
      · exact h.alone hi hk' ht hv (hself.symm.trans huv)
      · exact absurd (huv.symm.trans hself) (hnone v (List.mem_of_getElem? hk') hv)
    · rcases halone hv with ht | hnone
      · exact h.alone hj' hi hu ht (huv.trans hself)
      · exact absurd (huv.trans hself) (hnone u (List.mem_of_getElem? hj') hu)
    · exact h.alone hj' hk' hu hv huv

/-- A step that leaves the nodes as they are. -/
theorem Grown.same (h : Grown w) (hi : w.splits[i]? = some t) (hself : t'.self = t.self)
    (hs : SameNodes w.store s') (hk : Keeps w.store s')
    (hchildren : t'.phase.children = t.phase.children)
    (hearly : t'.phase.early = t.phase.early) (hholds : t'.phase.holds = t.phase.holds) :
    Grown (w.proceed i t' s') := by
  refine h.proceed hi hself ((h.tree.same hs hk).mono fun q c hU => ?_)
    (fun j u _ hj => (h.holder u (List.mem_of_getElem? hj)).same hs) ?_
    fun hphase => .inl (hholds ▸ hphase)
  · rcases Orphan.proceed hi hU with hU | ⟨rfl, hc⟩
    · exact hU
    · exact ⟨_, mem_proceed_self hi, hself, hchildren.symm ▸ hc⟩
  · obtain ⟨htaken, hnodup, hstored⟩ := (h.holder t (List.mem_of_getElem? hi)).same hs
    exact ⟨fun hphase => hself ▸ hearly.symm ▸ htaken (hholds ▸ hphase), hchildren.symm ▸ hnodup,
      hself ▸ hchildren.symm ▸ hstored⟩

/-- The buffers of a node are exchanged by the only split that has taken it, or by the first one. -/
theorem Grown.exchange (h : Grown w) (hi : w.splits[i]? = some t)
    (hex : Exchanged t.self b n w.store s') (hchildren : t.phase.children = [])
    (hphase : phase.children = []) (hearly : phase.early = true → ∀ br, n.child br = none)
    (halone : ∀ j u, j ≠ i → w.splits[j]? = some u → u.phase.holds = true → u.self ≠ t.self)
    (hholds : phase.holds = true → t.phase.holds = true ∨
      ∀ u ∈ w.splits, u.phase.holds = true → u.self ≠ t.self) :
    Grown (w.proceed i { t with phase := phase } s') := by
  refine h.proceed hi rfl ((h.tree.exchange hex).mono fun q c hU => ?_) (fun j u hji hj => ?_) ?_ hholds
  · refine (Orphan.proceed hi hU).resolve_right fun ⟨_, hc⟩ => ?_
    rw [hchildren] at hc
    cases hc
  · exact (h.holder u (List.mem_of_getElem? hj)).set hex.node hex.nodes rfl (halone j u hji hj)
  · refine ⟨fun _ => ⟨_, by rw [hex.nodes, Heap.get_set_self (Heap.lt_next hex.node)], rfl,
      fun he br => ?_⟩, hphase ▸ List.nodup_nil, fun c hc => ?_⟩
    · exact (show _ = n.child br by cases br <;> rfl).trans (hearly he br)
    · rw [hphase] at hc
      cases hc

theorem Grown.opened {depth : ℕ} (h : Grown w) (hi : w.splits[i]? = some t)
    (hphase : t.phase = .firstBuffer depth) (hsplit : n.splitBuffer = none)
    (hex : Exchanged t.self b n w.store s') :
    Grown (w.proceed i { t with phase := .sizing b depth } s') := by
  -- a split that has taken the node would have set its split buffer
  have hnobody : ∀ u ∈ w.splits, u.phase.holds = true → u.self ≠ t.self := by
    intro u hu hholds heq
    obtain ⟨m, hm, hsome, -⟩ := (h.holder u hu).taken hholds
    obtain rfl := Option.some.inj (hex.node.symm.trans (heq ▸ hm))
    rw [hsplit] at hsome
    cases hsome
  refine h.exchange hi hex (by rw [hphase]; rfl) rfl
    (fun _ => h.tree.fresh hex.node hsplit (by rw [hex.buffer]; rfl))
    (fun j u _ hj => hnobody u (List.mem_of_getElem? hj)) fun _ => .inr hnobody

theorem Grown.swapped {moved : ℕ} (h : Grown w) (hi : w.splits[i]? = some t)
    (hphase : t.phase = .transferBuffers moved) (hex : Exchanged t.self b n w.store s') :
    Grown (w.proceed i { t with phase := .currentData b moved } s') := by
  have hholds : t.phase.holds = true := by rw [hphase]; rfl
  refine h.exchange hi hex (by rw [hphase]; rfl) rfl nofun (fun j u hji hj hu heq => ?_)
    fun _ => .inl hholds
  exact hji (h.alone hj hi hu hholds heq)

theorem Grown.created {first : Ptr} {newRule : RuleData} {s₁ s₂ : ClusterStore} (h : Grown w)
    (hi : w.splits[i]? = some t) (hphase : t.phase = .createChildren first newRule)
    (hpass : ChildOf t.self w.store s₁) (hfail : ChildOf t.self s₁ s₂)
    (hexception : ChildOf t.self s₂ s') :
    Grown (w.proceed i { t with
      phase := .update first newRule w.store.nodes.next s₁.nodes.next s₂.nodes.next } s') := by
  have hholder := h.holder t (List.mem_of_getElem? hi)
  obtain ⟨n, hn, hsplit, hnone⟩ := hholder.taken (by rw [hphase]; rfl)
  have hlt := Heap.lt_next hn
  have h₁ : s₁.nodes.next = w.store.nodes.next + 1 := by rw [hpass.nodes, Heap.next_alloc]
  have h₂ : s₂.nodes.next = w.store.nodes.next + 2 := by rw [hfail.nodes, Heap.next_alloc, h₁]
  refine h.proceed hi rfl ((((h.tree.create hpass).create hfail).create hexception).mono
    fun q c hU => ?_) (fun j u _ hj => ?_) ⟨fun _ => ⟨n,
      hexception.get_old (hfail.get_old (hpass.get_old hn)), hsplit, fun _ =>
        hnone (by rw [hphase]; rfl)⟩, ?_, fun c hc => ?_⟩ fun _ => .inl (by rw [hphase]; rfl)
  · have hnew : ∀ c ∈ [w.store.nodes.next, s₁.nodes.next, s₂.nodes.next],
        (w.proceed i { t with
          phase := .update first newRule w.store.nodes.next s₁.nodes.next s₂.nodes.next }
          s').Orphan t.self c := fun c hc => ⟨_, mem_proceed_self hi, rfl, hc⟩
    rcases hU with ((hU | ⟨rfl, rfl⟩) | ⟨rfl, rfl⟩) | ⟨rfl, rfl⟩
    · refine (Orphan.proceed hi hU).resolve_right fun ⟨_, hc⟩ => ?_
      rw [hphase] at hc
      cases hc
    · exact hnew _ (by simp)
    · exact hnew _ (by simp)
    · exact hnew _ (by simp)
  · exact (((h.holder u (List.mem_of_getElem? hj)).create hpass).create hfail).create hexception
  · simp [SplitPhase.children, h₁, h₂]
  · simp only [SplitPhase.children, List.mem_cons, List.not_mem_nil, or_false] at hc
    rcases hc with rfl | rfl | rfl
    · exact ⟨hlt, _, hexception.get_old (hfail.get_old hpass.get_new), rfl⟩
    · exact ⟨hlt.trans (h₁ ▸ Nat.lt_succ_self _), _, hexception.get_old hfail.get_new, rfl⟩
    · exact ⟨hlt.trans (h₂ ▸ Nat.lt_add_of_pos_right (by decide)), _, hexception.get_new, rfl⟩

theorem Grown.updated {first pass fail exception : Ptr} {newRule : RuleData} (h : Grown w)
    (hi : w.splits[i]? = some t) (hphase : t.phase = .update first newRule pass fail exception)
    (hn : w.store.nodes.get t.self = some n) :
    Grown (w.proceed i { t with phase := .currentData first 0 } { w.store with
      nodes := w.store.nodes.set t.self (some { n with
        rule := some newRule
        pass := some pass
        fail := some fail
        exception := some exception }) }) := by
  obtain ⟨htaken, hnodup, hchildren⟩ := h.holder t (List.mem_of_getElem? hi)
  have hholds : t.phase.holds = true := by rw [hphase]; rfl
  obtain ⟨m, hm, hsplit, hnone⟩ := htaken hholds
  obtain rfl := Option.some.inj (hn.symm.trans hm)
  rw [hphase] at hnodup hchildren hnone
  have hmem : ∀ br, Branch.elim pass fail exception br ∈ [pass, fail, exception] := by
    intro br
    cases br <;> simp [Branch.elim]
  have hchild : ∀ br, { n with
      rule := some newRule
      pass := some pass
      fail := some fail
      exception := some exception }.child br = some (Branch.elim pass fail exception br) :=
    fun br => by cases br <;> rfl
  refine h.proceed hi rfl (h.tree.update hn hsplit (hnone rfl) rfl rfl rfl hchild
    (fun br => hchildren _ (hmem br)) ?_ fun q c hU => ?_) (fun j u hji hj => ?_)
    ⟨fun _ => ⟨_, Heap.get_set_self (Heap.lt_next hn), hsplit, fun hearly => by cases hearly⟩,
      List.nodup_nil, fun c hc => absurd hc List.not_mem_nil⟩
    fun _ => .inl hholds
  · simp only [SplitPhase.children, List.nodup_cons, List.mem_cons, List.not_mem_nil, or_false,
      not_or] at hnodup
    intro br br' heq
    cases br <;> cases br' <;> simp only [Branch.elim] at heq
    · rfl
    · exact absurd heq hnodup.1.1
    · exact absurd heq hnodup.1.2
    · exact absurd heq.symm hnodup.1.1
    · rfl
    · exact absurd heq hnodup.2.1
    · exact absurd heq.symm hnodup.1.2
    · exact absurd heq.symm hnodup.2.1
    · rfl
  · refine (Orphan.proceed hi hU).imp_right fun hU => ⟨hU.1, ?_⟩
    have hc := hU.2
    rw [hphase] at hc
    simp only [SplitPhase.children, List.mem_cons, List.not_mem_nil, or_false] at hc
    rcases hc with rfl | rfl | rfl
    · exact ⟨.pass, rfl⟩
    · exact ⟨.fail, rfl⟩
    · exact ⟨.exception, rfl⟩
  · exact (h.holder u (List.mem_of_getElem? hj)).set hn rfl rfl
      fun hu heq => hji (h.alone hj hi hu hholds heq)

theorem Grown.closed {moved result : ℕ} {s₂ : ClusterStore} (h : Grown w)
    (hi : w.splits[i]? = some t) (hphase : t.phase = .transferLast moved)
    (hn : w.store.nodes.get t.self = some n) (hs : SameNodes w.store s₂) (hk : Keeps w.store s₂) :
    Grown (w.proceed i { t with phase := .closing result }
      { s₂ with nodes := s₂.nodes.set t.self (some n.closed) }) := by
  have hholds : t.phase.holds = true := by rw [hphase]; rfl
  obtain ⟨task, hm⟩ := hs.fields hn
  have htree : Tree { s₂ with nodes := s₂.nodes.set t.self (some n.closed) } w.Orphan :=
    (h.tree.same hs hk).setBuffers hm rfl rfl (fun br => by cases br <;> rfl) (.of_eq rfl)
      (fun b hb => by cases hb) fun _ => rfl
  refine h.proceed hi rfl (htree.mono fun q c hU => ?_) (fun j u hji hj => ?_)
    ⟨nofun, List.nodup_nil, nofun⟩ nofun
  · refine (Orphan.proceed hi hU).resolve_right fun ⟨_, hc⟩ => ?_
    rw [hphase] at hc
    cases hc
  · exact ((h.holder u (List.mem_of_getElem? hj)).same hs).set hm rfl rfl
      fun hu heq => hji (h.alone hj hi hu hholds heq)

/-! ## Where the pages are -/

/-- The pages that the splits have taken and not routed yet. -/
def hands (w : ClusterWorld) : List Page := w.splits.flatMap fun t => t.phase.hand

/-- The pages `P` are stored, all with the columns `S`. With those that splits have taken, they have
    the items that were added. Each is in the buffer of a node, or in one that a split reads. -/
structure Ledger (S : List BaseColumn) (w : ClusterWorld) (P : Multiset (Ptr × Page)) : Prop where
  stores : w.store.Stores P
  schema : ∀ e ∈ P, e.2.schema = S
  hand : ∀ t ∈ w.splits, ∀ v ∈ t.phase.hand, v.schema = S
  total : itemsOf (P.map Prod.snd) + itemsOf w.hands = w.added
  located : ∀ e ∈ P, w.store.BufferFrom 0 e.1 ∨ ∃ t ∈ w.splits, t.phase.buffer = some e.1

theorem flatMap_set {α β : Type} {l : List α} {a : α} (h : l[i]? = some a) (f : α → List β) (b : α) :
    ((l.set i b).flatMap f : Multiset β) + f a = l.flatMap f + f b := by
  induction l generalizing i with
  | nil => cases h
  | cons x l ih =>
    cases i with
    | zero =>
      obtain rfl := Option.some.inj h
      rw [List.set_cons_zero, List.flatMap_cons, List.flatMap_cons, ← Multiset.coe_add,
        ← Multiset.coe_add]
      ac_rfl
    | succ i =>
      rw [List.set_cons_succ, List.flatMap_cons, List.flatMap_cons, ← Multiset.coe_add,
        ← Multiset.coe_add, add_assoc, ih h, add_assoc]

theorem itemsOf_hands (hi : w.splits[i]? = some t) :
    itemsOf (w.proceed i t' s').hands + itemsOf t.phase.hand =
      itemsOf w.hands + itemsOf t'.phase.hand := by
  rw [← itemsOf_add, ← itemsOf_add]
  exact congrArg itemsOf (flatMap_set hi _ t')

/-- One split goes on, and the pages `P'` are stored then. -/
theorem Ledger.proceed (h : Ledger S w P) (hi : w.splits[i]? = some t) (hstores : s'.Stores P')
    (hschema : ∀ e ∈ P', e.2.schema = S) (hhand : ∀ v ∈ t'.phase.hand, v.schema = S)
    (htotal : itemsOf (P'.map Prod.snd) + itemsOf t'.phase.hand =
      itemsOf (P.map Prod.snd) + itemsOf t.phase.hand)
    (hlocated : ∀ e ∈ P', s'.BufferFrom 0 e.1 ∨ e ∈ P ∧
      (w.store.BufferFrom 0 e.1 → s'.BufferFrom 0 e.1 ∨ t'.phase.buffer = some e.1) ∧
      (t.phase.buffer = some e.1 → t'.phase.buffer = some e.1)) :
    Ledger S (w.proceed i t' s') P' := by
  refine ⟨hstores, hschema, fun u hu => ?_, ?_, fun e he => ?_⟩
  · rcases List.mem_or_eq_of_mem_set hu with hu | rfl
    · exact h.hand u hu
    · exact hhand
  · have hhands : itemsOf (w.proceed i t' s').hands + itemsOf t.phase.hand = _ := itemsOf_hands hi
    refine add_right_cancel (b := itemsOf t.phase.hand) ?_
    calc itemsOf (P'.map Prod.snd) + itemsOf (w.proceed i t' s').hands + itemsOf t.phase.hand
        = itemsOf (P'.map Prod.snd) + itemsOf t'.phase.hand + itemsOf w.hands := by
          rw [add_assoc, hhands]
          ac_rfl
      _ = itemsOf (P.map Prod.snd) + itemsOf w.hands + itemsOf t.phase.hand := by
          rw [htotal]
          ac_rfl
      _ = w.added + itemsOf t.phase.hand := by rw [h.total]
  · have hself : t' ∈ (w.proceed i t' s').splits := mem_proceed_self hi
    rcases hlocated e he with hnode | ⟨hP, hnode, hbuffer⟩
    · exact .inl hnode
    · rcases h.located e hP with hfrom | ⟨u, hu, hub⟩
      · exact (hnode hfrom).imp_right fun hb => ⟨t', hself, hb⟩
      · have hkept : u = t ∨ u ∈ (w.proceed i t' s').splits := mem_proceed hi hu
        rcases hkept with rfl | hmem
        · exact .inr ⟨t', hself, hbuffer hub⟩
        · exact .inr ⟨u, hmem, hub⟩

/-- A node whose buffer is not `b` is set. -/
theorem bufferFrom_set {s : ClusterStore} {self : Ptr} {n' : ClassificationTreeNode}
    (h : s.BufferFrom q b) (hn : s.nodes.get self = some n)
    (hnodes : s'.nodes = s.nodes.set self (some n'))
    (hbuffer : q ≤ self → n.itemBuffer = some b → n'.itemBuffer = some b) : s'.BufferFrom q b := by
  obtain ⟨p, m, hle, hm, hb⟩ := h
  by_cases hp : p = self
  · subst hp
    obtain rfl := Option.some.inj (hn.symm.trans hm)
    exact ⟨p, n', hle, by rw [hnodes, Heap.get_set_self (Heap.lt_next hn)], hbuffer hle hb⟩
  · exact ⟨p, m, hle, by rw [hnodes, Heap.get_set_of_ne hp, hm], hb⟩

/-- The pages stay where they are, and the buffers of nodes and of the split, too. -/
theorem Ledger.stay (h : Ledger S w P) (hi : w.splits[i]? = some t) (hstores : s'.Stores P)
    (hhand : ∀ v ∈ t'.phase.hand, v.schema = S)
    (htotal : itemsOf t'.phase.hand = itemsOf t.phase.hand)
    (hnode : ∀ b, w.store.BufferFrom 0 b → s'.BufferFrom 0 b ∨ t'.phase.buffer = some b)
    (hbuffer : ∀ b, t.phase.buffer = some b → t'.phase.buffer = some b) :
    Ledger S (w.proceed i t' s') P :=
  h.proceed hi hstores h.schema hhand (by rw [htotal]) fun e he =>
    .inr ⟨he, hnode e.1, hbuffer e.1⟩

/-- The buffers of a node are exchanged, and the split reads the old one. -/
theorem Ledger.exchange (h : Ledger S w P) (hi : w.splits[i]? = some t)
    (hex : Exchanged t.self b n w.store s') (hhand : t'.phase.hand = t.phase.hand)
    (hbuffer : t.phase.buffer = none) (hbuffer' : t'.phase.buffer = some b) :
    Ledger S (w.proceed i t' s') P := by
  refine h.stay hi (h.stores.alloc hex.buffers).1
    (hhand.symm ▸ h.hand t (List.mem_of_getElem? hi)) (by rw [hhand]) ?_ fun c hc => ?_
  · intro c hc
    by_cases hcb : c = b
    · exact .inr (hcb ▸ hbuffer')
    · refine .inl (bufferFrom_set hc hex.node hex.nodes fun _ hb => ?_)
      exact absurd (Option.some.inj (hb.symm.trans hex.buffer)) hcb
  · rw [hbuffer] at hc
    cases hc

/-! ## One step -/

/-- A buffer that a page is taken from is stored. -/
theorem stored_of_takePage {s : ClusterStore} {r : Option Page × ClusterStore}
    (h : takePage b s = .ok r) : ∃ t, s.buffers.get b = some t := by
  obtain ⟨coin, s₁, h₁, htake⟩ := bind_ok_iff.mp h
  cases h₁
  unfold onBuffer at htake
  cases hb : s.buffers.get b with
  | none =>
    rw [hb] at htake
    cases htake
  | some t => exact ⟨t, rfl⟩

/-- The nodes are a tree, and the pages of the tree and of the splits have the items that were
    added. -/
def Inv (S : List BaseColumn) (w : ClusterWorld) : Prop := Grown w ∧ ∃ P, Ledger S w P

/-- A page is taken. -/
theorem Ledger.took {node : ClassificationTreeNode} {pages : List Page} {page : Page} {moved : ℕ}
    (h : Ledger S w P) (hg : Grown w) (hi : w.splits[i]? = some t)
    (hphase : t.phase = .draining b node pages moved)
    (hrun : takePage b w.store = .ok (some page, s')) :
    Inv S (w.proceed i { t with phase := .draining b node (pages ++ [page]) moved } s') := by
  obtain ⟨buffer, hbuffer⟩ := stored_of_takePage hrun
  obtain ⟨P', hP', hnodes, hk, rfl⟩ := h.stores.takePage hbuffer hrun
  have hhand := h.hand t (List.mem_of_getElem? hi)
  rw [hphase] at hhand
  refine ⟨hg.same hi rfl (.of_eq hnodes) hk (by rw [hphase]; rfl) (by rw [hphase]; rfl)
    (by rw [hphase]; rfl), P', h.proceed hi hP'
      (fun e he => h.schema e (Multiset.mem_cons_of_mem he)) ?_ ?_ fun e he => ?_⟩
  · refine List.forall_mem_append.mpr ⟨hhand, List.forall_mem_singleton.mpr ?_⟩
    exact h.schema (b, page) (Multiset.mem_cons_self _ _)
  · have hpage : itemsOf ([page] : List Page) = page.items := Multiset.singleton_bind _ _
    rw [hphase, Multiset.map_cons, ← Multiset.singleton_add, itemsOf_add]
    show itemsOf _ + itemsOf (pages ++ [page] : List Page) = _
    rw [← Multiset.coe_add, itemsOf_add, ← Multiset.coe_singleton]
    show _ = _ + _ + itemsOf (pages : Multiset Page)
    ac_rfl
  · refine .inr ⟨Multiset.mem_cons_of_mem he, fun hfrom => .inl (hfrom.of_eq hnodes), ?_⟩
    rw [hphase]
    exact id

/-- A buffer is empty. -/
theorem Ledger.drained {node : ClassificationTreeNode} {pages : List Page} {moved : ℕ}
    (h : Ledger S w P) (hg : Grown w) (hi : w.splits[i]? = some t)
    (hphase : t.phase = .draining b node pages moved)
    (hrun : takePage b w.store = .ok (none, s')) :
    Inv S (w.proceed i { t with phase := .routing node (batches pages) [] 0 moved } s') := by
  obtain ⟨buffer, hbuffer⟩ := stored_of_takePage hrun
  obtain ⟨P', hP', hnodes, hk, rfl, hempty⟩ := h.stores.takePage hbuffer hrun
  have hhand := h.hand t (List.mem_of_getElem? hi)
  have hpages : SplitPhase.hand (.routing node (batches pages) [] 0 moved) = t.phase.hand := by
    rw [hphase]
    show (batches pages).flatten ++ [] = pages
    rw [flatten_batches, List.append_nil]
  refine ⟨hg.same hi rfl (.of_eq hnodes) hk (by rw [hphase]; rfl) (by rw [hphase]; rfl)
    (by rw [hphase]; rfl), P', h.proceed hi hP' h.schema (hpages.symm ▸ hhand) (by rw [hpages])
      fun e he => .inr ⟨he, fun hfrom => .inl (hfrom.of_eq hnodes), fun hb => ?_⟩⟩
  rw [hphase] at hb
  exact absurd (Option.some.inj hb).symm (hempty e he)

/-- A job has run. -/
theorem Ledger.ran {node : ClassificationTreeNode} {bs : List (List Page)}
    {jobs : List (Page × Ptr)} {rows moved k : ℕ} {job : Page × Ptr} (h : Ledger S w P)
    (hg : Grown w) (hin : Inside S) (hi : w.splits[i]? = some t)
    (hphase : t.phase = .routing node bs jobs rows moved) (hjob : jobs[j]? = some job)
    (hrun : (onNodes (read job.2) >>= fun child => child.add t.strategy t.root
      (t.maxSplitDepth - 1) fuel job.1 job.2) w.store = .ok (k, s')) :
    Inv S (w.proceed i { t with phase := .routing node bs (jobs.eraseIdx j) rows moved } s') := by
  have hhand := h.hand t (List.mem_of_getElem? hi)
  rw [hphase] at hhand
  obtain ⟨hbs, hjobs⟩ := List.forall_mem_append.mp hhand
  obtain ⟨hj, rfl⟩ := List.getElem?_eq_some_iff.mp hjob
  have hperm := (List.getElem_cons_eraseIdx_perm hj).map Prod.fst
  rw [List.map_cons] at hperm
  obtain ⟨P', hP'⟩ := ClassificationTreeNode.add_receives (S := S) hin fuel
    (hjobs _ (List.mem_map_of_mem (List.getElem_mem hj))) hg.tree.toOrdered h.stores hrun
  obtain ⟨N, rfl, hitems, hN⟩ := hP'.new
  refine ⟨hg.same hi rfl hP'.nodes hP'.keeps (by rw [hphase]; rfl) (by rw [hphase]; rfl)
    (by rw [hphase]; rfl), N + P, h.proceed hi hP'.stores (fun e he => ?_) ?_ ?_ fun e he => ?_⟩
  · exact (Multiset.mem_add.mp he).elim (fun he => (hN e he).1) (h.schema e)
  · refine List.forall_mem_append.mpr ⟨hbs, fun v hv => hjobs v ?_⟩
    exact hperm.mem_iff.mp (List.mem_cons_of_mem _ hv)
  · have hsum : itemsOf (jobs.map Prod.fst : List Page) =
        (jobs[j]).1.items + itemsOf ((jobs.eraseIdx j).map Prod.fst : List Page) := by
      rw [← Multiset.coe_eq_coe.mpr hperm, ← Multiset.cons_coe]
      exact Multiset.cons_bind _ _ _
    rw [hphase, Multiset.map_add, itemsOf_add, hitems]
    show _ + itemsOf (bs.flatten ++ (jobs.eraseIdx j).map Prod.fst : List Page) =
      _ + itemsOf (bs.flatten ++ jobs.map Prod.fst : List Page)
    rw [← Multiset.coe_add, ← Multiset.coe_add, itemsOf_add, itemsOf_add, hsum]
    ac_rfl
  · rcases Multiset.mem_add.mp he with he | he
    · exact .inl (((hN e he).2.congr hP'.nodes).mono (Nat.zero_le _))
    · refine .inr ⟨he, fun hfrom => .inl (hfrom.congr hP'.nodes), fun hb => ?_⟩
      rw [hphase] at hb
      cases hb

/-- The last pass has emptied the buffer of its node, which has no buffer then. -/
theorem Ledger.closed {moved rows : ℕ} (h : Ledger S w P) (hg : Grown w) (hpacked : Packed S)
    (hsorted : sortByName S = S) (hi : w.splits[i]? = some t)
    (hphase : t.phase = .transferLast moved)
    (hrun : ClassificationTreeNode.transferLast t.strategy t.root t.maxSplitDepth fuel t.self
      w.store = .ok (rows, s')) :
    Inv S (w.proceed i { t with phase := .closing (moved + rows) } s') := by
  obtain ⟨n, s₁, P₁, P', X, hn, hP₁, hnodes, hk, hP₁P, htotal, s₂, hP', rfl⟩ :=
    ClassificationTreeNode.transferLast_received hpacked hsorted h.schema hg.tree.toOrdered h.stores
      hrun
  have hs : SameNodes w.store s₂ := (SameNodes.of_eq hnodes).trans hP'.nodes
  obtain ⟨task, hm⟩ := hs.fields hn
  obtain ⟨N, rfl, hitems, hN⟩ := hP'.new
  refine ⟨hg.closed hi hphase hn hs (hk.trans hP'.keeps), N + P₁, h.proceed hi
    (hP'.stores.congr rfl) (fun e he => ?_) nofun ?_ fun e he => ?_⟩
  · exact (Multiset.mem_add.mp he).elim (fun he => (hN e he).1) fun he =>
      h.schema e (hP₁P e he).1
  · rw [hphase, htotal, Multiset.map_add, itemsOf_add, hitems]
    rfl
  · rcases Multiset.mem_add.mp he with he | he
    · -- the buffers of other nodes are kept
      refine .inl (BufferFrom.mono (bufferFrom_set ((hN e he).2.congr hP'.nodes) hm rfl ?_)
        (Nat.zero_le _))
      exact fun hle => absurd hle (Nat.not_succ_le_self _)
    · obtain ⟨hmem, hne⟩ := hP₁P e he
      refine .inr ⟨hmem, fun hfrom => .inl (bufferFrom_set (hfrom.congr hs) hm rfl
        fun _ hb => absurd hb hne), fun hb => ?_⟩
      rw [hphase] at hb
      cases hb

/-- Every step of a split keeps the invariant. -/
theorem Inv.does (h : Inv S w) (hpacked : Packed S) (hsorted : sortByName S = S)
    (hi : w.splits[i]? = some t) (hdoes : t.Does fuel w.store phase s') :
    Inv S (w.proceed i { t with phase := phase } s') := by
  obtain ⟨hg, P, hl⟩ := h
  have hhand := hl.hand t (List.mem_of_getElem? hi)
  cases hdoes with
  | looks hnodes hbuffers hbuffer hchildren hearly hholds hitems =>
    obtain ⟨htotal, hschema⟩ := hitems S hpacked hsorted hhand
    exact ⟨hg.same hi rfl (.of_eq hnodes) (.of_eq hbuffers) hchildren hearly hholds, P,
      hl.stay hi (hl.stores.congr hbuffers) hschema htotal
        (fun b hfrom => .inl (hfrom.of_eq hnodes)) fun b hb => hbuffer.trans hb⟩
  | opened hphase hsplit hex =>
    exact ⟨hg.opened hi hphase hsplit hex, P, hl.exchange hi hex (by rw [hphase]; rfl)
      (by rw [hphase]; rfl) rfl⟩
  | @created first newRule s₁ s₂ s' hphase hpass hfail hexception =>
    refine ⟨hg.created hi hphase hpass hfail hexception, P, hl.stay hi
      ((((hl.stores.alloc hpass.buffers).1.alloc hfail.buffers).1.alloc hexception.buffers).1)
      nofun (by rw [hphase]; rfl) (fun b hfrom => .inl ?_) fun b hb => ?_⟩
    · obtain ⟨q, n, hle, hn, hb⟩ := hfrom
      exact ⟨q, n, hle, hexception.get_old (hfail.get_old (hpass.get_old hn)), hb⟩
    · rw [hphase] at hb
      exact hb
  | updated hphase hn =>
    refine ⟨hg.updated hi hphase hn, P, hl.stay hi (hl.stores.congr rfl) nofun
      (by rw [hphase]; rfl) (fun b hfrom => .inl (bufferFrom_set hfrom hn rfl fun _ hb => hb))
      fun b hb => ?_⟩
    rw [hphase] at hb
    exact hb
  | took hphase hrun => exact hl.took hg hi hphase hrun
  | drained hphase hrun => exact hl.drained hg hi hphase hrun
  | swapped hphase hex =>
    exact ⟨hg.swapped hi hphase hex, P, hl.exchange hi hex (by rw [hphase]; rfl)
      (by rw [hphase]; rfl) rfl⟩
  | closed hphase hrun => exact hl.closed hg hpacked hsorted hi hphase hrun
  | ran hphase hjob hrun => exact hl.ran hg (inside_of_packed hpacked) hi hphase hjob hrun

theorem Inv.onSplit {f : Split → ClusterTxn SplitPhase} (h : Inv S w) (hpacked : Packed S)
    (hsorted : sortByName S = S)
    (hf : ∀ t phase s', f t w.store = .ok (phase, s') → t.Does fuel w.store phase s') :
    Inv S (w.onSplit i f) := by
  unfold ClusterWorld.onSplit
  cases hi : w.splits[i]? with
  | none => exact h
  | some t =>
    dsimp only
    cases hrun : f t w.store with
    | ok r => exact h.does hpacked hsorted hi (hf t r.1 r.2 hrun)
    | error e =>
      obtain ⟨hg, P, hl⟩ := h
      exact ⟨hg.same hi rfl (.refl _) (.refl _) rfl rfl rfl, P, hl.stay hi hl.stores
        (hl.hand t (List.mem_of_getElem? hi)) rfl (fun b hfrom => .inl hfrom) fun b hb => hb⟩

/-- Items are added. -/
theorem Inv.add {page : Page} {u : Unit} (h : Inv S w) (hin : Inside S) (hschema : page.schema = S)
    (hrun : w.tree.add fuel page w.store = .ok (u, s')) :
    Inv S { w with store := s', added := page.items + w.added } := by
  obtain ⟨hg, P, hl⟩ := h
  unfold ClassificationTreeData.add at hrun
  obtain ⟨n, s₁, h₁, hadd⟩ := bind_ok_iff.mp hrun
  obtain ⟨k, s₂, h₂, hreturn⟩ := bind_ok_iff.mp hadd
  cases hreturn
  obtain ⟨P', hP'⟩ := ClassificationTreeNode.add_receives (S := S) hin fuel hschema
    hg.tree.toOrdered hl.stores (bind_ok_iff.mpr ⟨n, s₁, h₁, h₂⟩)
  obtain ⟨N, rfl, hitems, hN⟩ := hP'.new
  refine ⟨⟨hg.tree.same hP'.nodes hP'.keeps, hg.root, fun t ht => (hg.holder t ht).same hP'.nodes,
    hg.alone⟩, N + P, hP'.stores, fun e he => ?_, hl.hand, ?_, fun e he => ?_⟩
  · exact (Multiset.mem_add.mp he).elim (fun he => (hN e he).1) (hl.schema e)
  · rw [Multiset.map_add, itemsOf_add, hitems, add_assoc]
    exact congrArg _ hl.total
  · rcases Multiset.mem_add.mp he with he | he
    · exact .inl (((hN e he).2.congr hP'.nodes).mono (Nat.zero_le _))
    · exact (hl.located e he).imp_left fun hfrom => hfrom.congr hP'.nodes

/-- A split is started. -/
theorem Inv.start (h : Inv S w) (self root : Ptr) (strategy : ClassificationStrategy)
    (maxSplitDepth : ℤ) : Inv S { w with splits := w.splits ++
      [⟨self, root, strategy, maxSplitDepth, .getTreeDepth, false⟩] } := by
  obtain ⟨hg, P, hl⟩ := h
  have hmem : ∀ {t : Split},
      t ∈ w.splits ++ [⟨self, root, strategy, maxSplitDepth, .getTreeDepth, false⟩] →
      t ∈ w.splits ∨ t.phase = .getTreeDepth := fun ht => (List.mem_append.mp ht).imp_right
    fun ht => by rw [List.mem_singleton.mp ht]
  have hget : ∀ {i : ℕ} {t : Split},
      (w.splits ++ [⟨self, root, strategy, maxSplitDepth, .getTreeDepth, false⟩])[i]? = some t →
      t.phase.holds = true → w.splits[i]? = some t := by
    intro i t hi hholds
    by_cases hlt : i < w.splits.length
    · rwa [List.getElem?_append_left hlt] at hi
    · rw [List.getElem?_append_right (Nat.not_lt.mp hlt)] at hi
      obtain rfl := List.mem_singleton.mp (List.mem_of_getElem? hi)
      cases hholds
  refine ⟨⟨hg.tree.mono fun q c ⟨t, ht, hc⟩ => ⟨t, List.mem_append_left _ ht, hc⟩, hg.root,
    fun t ht => ?_, fun hi hj ht hu => hg.alone (hget hi ht) (hget hj hu) ht hu⟩, P, hl.stores,
    hl.schema, fun t ht => ?_, ?_, fun e he => ?_⟩
  · rcases hmem ht with ht | hphase
    · exact hg.holder t ht
    · constructor <;> rw [hphase]
      · nofun
      · exact List.nodup_nil
      · nofun
  · rcases hmem ht with ht | hphase
    · exact hl.hand t ht
    · rw [hphase]
      nofun
  · have hhands : ClusterWorld.hands { w with splits := w.splits ++
        [⟨self, root, strategy, maxSplitDepth, .getTreeDepth, false⟩] } = w.hands := by
      rw [hands, List.flatMap_append]
      exact List.append_nil _
    rw [hhands]
    exact hl.total
  · exact (hl.located e he).imp_right fun ⟨t, ht, hb⟩ => ⟨t, List.mem_append_left _ ht, hb⟩

theorem Inv.step (h : Inv S w) (hpacked : Packed S) (hsorted : sortByName S = S) (a : ClusterAction)
    (ha : ∀ data, a = .addAll data → scalarColumns (keys data) = S) : Inv S (w.step fuel a) := by
  cases a with
  | addAll data =>
    unfold ClusterWorld.step
    dsimp only
    cases hp : Page.apply data with
    | error e => exact h
    | ok page =>
      dsimp only
      cases hrun : w.tree.add fuel page w.store with
      | error e => exact h
      | ok r =>
        exact h.add (inside_of_packed hpacked) ((schema_of_apply hp).trans (ha data rfl)) hrun
  | setClusterStrategy strategy =>
    obtain ⟨hg, P, hl⟩ := h
    exact ⟨⟨hg.tree, hg.root, hg.holder, hg.alone⟩, P, hl.stores, hl.schema, hl.hand, hl.total,
      hl.located⟩
  | split self strategy maxSplitDepth => exact h.start self w.tree.root strategy maxSplitDepth
  | advance i =>
    have hdoes : ∀ (t : Split) (phase : SplitPhase) (s' : ClusterStore),
        (if t.failed then return t.phase else t.advance fuel : ClusterTxn SplitPhase) w.store =
          .ok (phase, s') → t.Does fuel w.store phase s' := by
      intro t phase s' hrun
      cases hfailed : t.failed with
      | true =>
        rw [hfailed] at hrun
        cases hrun
        exact .looks rfl rfl rfl rfl rfl rfl fun S _ _ hschema => ⟨rfl, hschema⟩
      | false =>
        rw [hfailed] at hrun
        exact Split.does_advance hrun
    exact h.onSplit hpacked hsorted hdoes
  | job i j =>
    have hdoes : ∀ (t : Split) (phase : SplitPhase) (s' : ClusterStore),
        t.runJob fuel j w.store = .ok (phase, s') → t.Does fuel w.store phase s' :=
      fun t phase s' hrun => Split.does_runJob hrun
    exact h.onSplit hpacked hsorted hdoes

/-! ## Whole runs -/

theorem inv_create (strategy : ClassificationStrategy) (queue : Option (List SplitTask))
    (choices : ℕ → ℕ → Bool) : Inv S (create strategy queue choices) := by
  have hnode : ∀ {q n}, (create strategy queue choices).store.nodes.get q = some n →
      q = 0 ∧ n = { parent := none, itemBuffer := some 0 } := by
    intro q n hn
    cases q with
    | zero => exact ⟨rfl, (Option.some.inj hn).symm⟩
    | succ q => cases hn
  have hbuffer : ∀ {b t}, (create strategy queue choices).store.buffers.get b = some t →
      t = PageTree.create := by
    intro b t ht
    cases b with
    | zero => exact (Option.some.inj ht).symm
    | succ b => cases ht
  have hchild : ∀ br, ({ parent := none, itemBuffer := some 0 } :
      ClassificationTreeNode).child br = none := fun br => by cases br <;> rfl
  have halone : ∀ {i j : ℕ} {t u : Split}, (create strategy queue choices).splits[i]? = some t →
      (create strategy queue choices).splits[j]? = some u → t.phase.holds = true →
      u.phase.holds = true → t.self = u.self → i = j := fun hi => by cases hi
  refine ⟨⟨⟨⟨?_, ?_⟩, ⟨_, rfl, rfl⟩, fun hn _ => (hnode hn).1, ?_, ?_, ?_, ?_, ?_⟩, rfl,
    List.forall_mem_nil _, halone⟩, 0, ⟨?_, fun e he => absurd he (Multiset.notMem_zero e)⟩,
    fun e he => absurd he (Multiset.notMem_zero e), List.forall_mem_nil _, rfl,
    fun e he => absurd he (Multiset.notMem_zero e)⟩
  · intro q n b hn hb
    obtain ⟨-, rfl⟩ := hnode hn
    obtain rfl := Option.some.inj hb
    exact ⟨_, rfl⟩
  · intro q n br c hn hc
    obtain ⟨-, rfl⟩ := hnode hn
    rw [hchild br] at hc
    cases hc
  · intro q q' n n' b hn hn' _ _
    rw [(hnode hn).1, (hnode hn').1]
  · intro q n br c hn hc
    obtain ⟨-, rfl⟩ := hnode hn
    rw [hchild br] at hc
    cases hc
  · intro q n br br' c hn hc
    obtain ⟨-, rfl⟩ := hnode hn
    rw [hchild br] at hc
    cases hc
  · intro c m q hm hp
    obtain ⟨-, rfl⟩ := hnode hm
    cases hp
  · intro q n hn _ _ br
    obtain ⟨-, rfl⟩ := hnode hn
    exact hchild br
  · intro b t ht
    rw [hbuffer ht]
    exact PageTree.holds_create

/-- All splits are done. -/
theorem Inv.contains (h : Inv S w) (hdone : ∀ t ∈ w.splits, t.phase.isDone = true) :
    w.store.Contains (some w.tree.root) w.added := by
  obtain ⟨hg, P, hl⟩ := h
  have hnothing : ∀ t ∈ w.splits,
      t.phase.children = [] ∧ t.phase.hand = [] ∧ t.phase.buffer = none := by
    intro t ht
    have hd := hdone t ht
    cases hphase : t.phase with
    | done result => exact ⟨rfl, rfl, rfl⟩
    | _ =>
      rw [hphase] at hd
      cases hd
  have hhands : w.hands = [] := List.flatMap_eq_nil_iff.mpr fun t ht => (hnothing t ht).2.1
  have hcontains := hg.tree.contains (fun q c ⟨t, ht, _, hc⟩ => ?_) hl.stores fun e he => ?_
  · have htotal := hl.total
    rw [hhands] at htotal
    rw [hg.root, ← htotal]
    rw [show itemsOf ((([] : List Page)) : Multiset Page) = 0 from rfl, add_zero]
    exact hcontains
  · rw [(hnothing t ht).1] at hc
    cases hc
  · refine (hl.located e he).resolve_right fun ⟨t, ht, hb⟩ => ?_
    rw [(hnothing t ht).2.2] at hb
    cases hb

/-- An item with one number. -/
def numbered (label : String) (bits : UInt64) : LabeledItem where
  label := label
  value := ⟨[("a", .number (JavaBytes.longBitsToDouble bits) "")]⟩

/-- The rule `a > 1.5` for every node. -/
def halves : ClassificationStrategy := ClassificationTreeNode.always
  (some (ruleFn (metricFn "a") (JavaBytes.longBitsToDouble 0x3ff8000000000000)))

/-- The root is split. One item is added after the node has its rule, and goes into the new buffer,
    and another one while the parts of the first block are routed. -/
def addedMeanwhile : List ClusterAction :=
  [.addAll [numbered "x" 0x3ff0000000000000, numbered "y" 0x4000000000000000], .split 0 halves 0] ++
    List.replicate 6 (.advance 0) ++ [.addAll [numbered "z" 0x3ff0000000000000]] ++
    List.replicate 4 (.advance 0) ++
    [.job 0 1, .addAll [numbered "z" 0x4000000000000000], .job 0 0] ++
    List.replicate 6 (.advance 0)

end ClusterWorld

end ReSTM
