import ReSTM.Clustering.ClassificationTreeNode
import ReSTM.Common.DecisionTree

/-!
# Where the rows of a page go

A classification tree at rest is a decision tree: every node has a rule and three children, or a
buffer. `ClassificationTreeNode.add` divides a page among the buffers, each row to the leaf that
the rules lead to, and `find` answers with a leaf. They ask the rules about a row of the page and
about the item that was inserted.

* `RuleData.split_part`: what a split does to the rows of a page.
* `ClassificationTreeNode.add_places`: where `add` places the rows.
* `ClassificationTreeData.find_placed_iff`: when `find` leads to the leaf that has the row.
-/

namespace ReSTM

open HeapModel Nodes Page WP

/-! ## Splits -/

/-- The indexes that meet a condition are the places of such indexes. -/
theorem map_getD_filter (I : List ℕ) (P : ℕ → Bool) :
    ((List.range I.length).filter fun j => P (I.getD j 0)).map (fun j => I.getD j 0) =
      I.filter P := by
  have hI : (List.range I.length).map (fun j => I.getD j 0) = I := by
    refine List.ext_getElem? fun i => ?_
    by_cases hi : i < I.length
    · simp [hi]
    · simp [hi]
  have hmap := List.filter_map (p := P) (f := fun j => I.getD j 0) (l := List.range I.length)
  rw [hI] at hmap
  exact hmap.symm

/-- The part for a branch has the rows that take it. -/
theorem RuleData.split_part {p q : Page} {I : List ℕ} (hpart : Part p I q)
    (hin : Inside p.schema) (rule : RuleData) (b : Branch) :
    let K := I.filter fun i => rule.eval (PageRow.mk p i).keyValue = b
    rule.split q b = .ok none ∧ K = [] ∨
      ∃ q', rule.split q b = .ok (some q') ∧ Part p K q' := by
  intro K
  have heval : ∀ j < q.size, rule.eval (PageRow.mk q j).keyValue =
      rule.eval (PageRow.mk p (I.getD j 0)).keyValue := by
    intro j hj
    rw [hpart.size] at hj
    rw [hpart.keyValue hin (i := I.getD j 0)]
    rw [List.getElem?_eq_getElem hj, List.getD_eq_getElem _ _ hj]
  have hrows : q.rows.filter (fun r => rule.eval r.keyValue = b) =
      ((List.range q.size).filter fun j => decide (rule.eval (PageRow.mk p (I.getD j 0)).keyValue =
        b)).map fun j => ⟨q, j⟩ := by
    rw [rows, List.filter_map]
    congr 1
    refine List.filter_congr fun j hj => ?_
    rw [Function.comp_apply, heval j (List.mem_range.mp hj)]
  have hK : ((List.range q.size).filter fun j =>
      decide (rule.eval (PageRow.mk p (I.getD j 0)).keyValue = b)).map (fun j => I.getD j 0) = K := by
    rw [hpart.size]
    exact map_getD_filter I fun i => decide (rule.eval (PageRow.mk p i).keyValue = b)
  generalize hJ : (List.range q.size).filter (fun j =>
    decide (rule.eval (PageRow.mk p (I.getD j 0)).keyValue = b)) = J at hrows hK
  have hsub : J.Sublist (List.range q.size) := hJ ▸ List.filter_sublist
  unfold RuleData.split
  rw [hrows]
  cases J with
  | nil => exact .inl ⟨rfl, hK.symm⟩
  | cons j J =>
    right
    have hindexes : ((j :: J).map fun j => PageRow.mk q j).map PageRow.row = j :: J := by
      rw [List.map_map]
      exact List.map_id _
    obtain ⟨q', hq', hpart'⟩ := getAll_part (p := q) hindexes
      (List.pairwise_lt_range.sublist hsub) fun i hi => List.mem_range.mp (hsub.subset hi)
    refine ⟨q', ?_, hK ▸ hpart.trans hpart'⟩
    show (q.getAll _ >>= _) = _
    rw [hq']
    rfl

/-! ## Transactions on the store -/

namespace ClusterStore

/-- The buffer holds the pages `M`. -/
def Holds (s : ClusterStore) (b : Ptr) (M : Multiset Page) : Prop :=
  ∃ t, s.buffers.get b = some t ∧ t.Holds M

/-- The nodes are the same, but for their split tasks. -/
def SameNodes (s s' : ClusterStore) : Prop :=
  ∀ p, (s'.nodes.get p).map (fun n => { n with splitTask := none }) =
    (s.nodes.get p).map fun n => { n with splitTask := none }

/-- Nothing but split tasks has changed, and the buffers. -/
structure Quiet (s s' : ClusterStore) : Prop where
  nodes : SameNodes s s'
  buffers : s'.buffers = s.buffers

variable {s s' s'' : ClusterStore} {b p : Ptr} {M : Multiset Page} {n n' : ClassificationTreeNode}

theorem SameNodes.refl (s : ClusterStore) : SameNodes s s := fun _ => rfl

theorem SameNodes.trans (h : SameNodes s s') (h' : SameNodes s' s'') : SameNodes s s'' :=
  fun p => (h' p).trans (h p)

/-- A node is still stored, with the same rule, buffer and children. -/
theorem SameNodes.get (h : SameNodes s s') (hn : s.nodes.get p = some n) :
    ∃ n', s'.nodes.get p = some n' ∧ n'.rule = n.rule ∧ n'.itemBuffer = n.itemBuffer ∧
      ∀ b, n'.child b = n.child b := by
  have hp := h p
  rw [hn, Option.map_some] at hp
  obtain ⟨n', hn', heq⟩ := Option.map_eq_some_iff.mp hp
  rw [ClassificationTreeNode.mk.injEq] at heq
  obtain ⟨-, hpass, hfail, hexception, hbuffer, -, -, hrule⟩ := heq
  refine ⟨n', hn', hrule, hbuffer, fun b => ?_⟩
  cases b with
  | pass => exact hpass
  | fail => exact hfail
  | exception => exact hexception

theorem Quiet.refl (s : ClusterStore) : Quiet s s := ⟨.refl s, rfl⟩

theorem Quiet.trans (h : Quiet s s') (h' : Quiet s' s'') : Quiet s s'' :=
  ⟨h.nodes.trans h'.nodes, h'.buffers.trans h.buffers⟩

theorem Holds.congr (h : s.Holds b M) (hb : s'.buffers.get b = s.buffers.get b) :
    s'.Holds b M := by
  obtain ⟨t, ht, hM⟩ := h
  exact ⟨t, hb.trans ht, hM⟩

theorem read_ok (hn : s.nodes.get p = some n) : onNodes (read p) s = .ok (n, s) := by
  rw [onNodes, read_some hn]
  rfl

/-- What is read is stored. -/
theorem of_read (h : onNodes (read p) s = .ok (n, s')) : s.nodes.get p = some n ∧ s' = s := by
  unfold onNodes Nodes.read at h
  cases hn : s.nodes.get p with
  | none =>
    rw [hn] at h
    cases h
  | some n =>
    rw [hn] at h
    cases h
    exact ⟨rfl, rfl⟩

theorem addPage_ok (h : s.Holds b M) (v : Page) : ∃ s', addPage b v s = .ok ((), s') ∧
    s'.nodes = s.nodes ∧ s'.Holds b (v ::ₘ M) ∧
    ∀ b', b' ≠ b → s'.buffers.get b' = s.buffers.get b' := by
  obtain ⟨t, ht, hM⟩ := h
  obtain ⟨t', hadd, hM'⟩ := hM.add (s.choices 0) v
  refine ⟨{ s with buffers := s.buffers.set b (some t'), choices := fun i => s.choices (i + 1) },
    ?_, rfl, ⟨t', Heap.get_set_self (Heap.lt_next ht), hM'⟩, fun b' hb' => Heap.get_set_of_ne hb'⟩
  unfold addPage
  rw [bind_ok (b := s.choices 0) (r := { s with choices := fun i => s.choices (i + 1) }) rfl]
  unfold onBuffer
  dsimp only
  rw [ht]
  dsimp only
  rw [hadd _ PageTreeNode.sameLinks_equals]
  rfl

/-- The bits that are drawn are no longer to be drawn. -/
theorem draw_quiet {coin : ℕ → Bool} (h : draw s = .ok (coin, s')) :
    Quiet s s' ∧ s'.nodes = s.nodes := by
  cases h
  exact ⟨⟨.refl s, rfl⟩, rfl⟩

/-- Looking at a buffer changes nothing. -/
theorem onBuffer_quiet {α : Type} {f : PageTree → Except Failure α} {a : α}
    (h : onBuffer b (fun t => (f t).map fun r => (r, t)) s = .ok (a, s')) :
    Quiet s s' ∧ s'.nodes = s.nodes := by
  unfold onBuffer at h
  cases hb : s.buffers.get b with
  | none =>
    rw [hb] at h
    cases h
  | some t =>
    rw [hb] at h
    dsimp only at h
    cases hf : f t with
    | error e =>
      rw [hf] at h
      cases h
    | ok r =>
      rw [hf] at h
      cases h
      exact ⟨⟨.refl s, Heap.set_self hb⟩, rfl⟩

theorem enqueue_quiet {task : SplitTask} {o : Option ℕ} (h : enqueue task s = .ok (o, s')) :
    Quiet s s' ∧ s'.nodes = s.nodes := by
  unfold enqueue at h
  cases hq : s.queue with
  | none =>
    rw [hq] at h
    cases h
    exact ⟨.refl s, rfl⟩
  | some tasks =>
    rw [hq] at h
    cases h
    exact ⟨⟨.refl s, rfl⟩, rfl⟩

/-- The split task of a node is stored. -/
theorem writeNode_quiet {u : Unit} {task : Option ℕ} (hn : s.nodes.get p = some n)
    (h : writeNode p { n with splitTask := task } s = .ok (u, s')) : Quiet s s' := by
  have hwrite : s.nodes.write Heap.never p { n with splitTask := task } =
      s.nodes.set p (some { n with splitTask := task }) := by
    rw [Heap.write, hn]
    rfl
  unfold writeNode onNodes write at h
  rw [hwrite] at h
  cases h
  refine ⟨fun p' => ?_, rfl⟩
  by_cases hp : p' = p
  · rw [hp, hn, Heap.get_set_self (Heap.lt_next hn)]
    rfl
  · rw [Heap.get_set_of_ne hp]

end ClusterStore

/-! ## Trees at rest -/

/-- A leaf, with the buffer that it has. -/
structure Leaf where
  node : Ptr
  buffer : Ptr
deriving DecidableEq

namespace ClusterStore

variable {Q : Type} {rules : Q → RuleData} {s s' s'' : ClusterStore} {ptr b : Ptr}
  {t : DecisionTree Q Branch Leaf} {p : Page} {I : List ℕ} {ask : ℕ → Q → Branch}

/-- The nodes under a pointer are those of a tree at rest. -/
inductive Rests (rules : Q → RuleData) (s : ClusterStore) :
    Ptr → DecisionTree Q Branch Leaf → Prop
  | leaf {ptr b : Ptr} {n : ClassificationTreeNode} (hn : s.nodes.get ptr = some n)
      (hrule : n.rule = none) (hbuffer : n.itemBuffer = some b) : Rests rules s ptr (.leaf ⟨ptr, b⟩)
  | node {ptr : Ptr} {n : ClassificationTreeNode} {q : Q} {childPtr : Branch → Ptr}
      {child : Branch → DecisionTree Q Branch Leaf} (hn : s.nodes.get ptr = some n)
      (hrule : n.rule = some (rules q)) (hbuffer : n.itemBuffer = none)
      (hptr : ∀ b, n.child b = some (childPtr b))
      (hchild : ∀ b, Rests rules s (childPtr b) (child b)) : Rests rules s ptr (.node q child)

theorem Rests.stored (h : Rests rules s ptr t) : ∃ n, s.nodes.get ptr = some n := by
  cases h with
  | leaf hn => exact ⟨_, hn⟩
  | node hn => exact ⟨_, hn⟩

theorem Rests.mono (h : Rests rules s ptr t) (hs : SameNodes s s') : Rests rules s' ptr t := by
  induction h with
  | leaf hn hrule hbuffer =>
    obtain ⟨n', hn', hr, hb, -⟩ := hs.get hn
    exact .leaf hn' (hr.trans hrule) (hb.trans hbuffer)
  | node hn hrule hbuffer hptr _ ih =>
    obtain ⟨n', hn', hr, hb, hc⟩ := hs.get hn
    exact .node hn' (hr.trans hrule) (hb.trans hbuffer) (fun b => (hc b).trans (hptr b)) ih

/-- Every leaf has a buffer. -/
def Buffered (s : ClusterStore) (t : DecisionTree Q Branch Leaf) : Prop :=
  ∀ leaf, t.HasLeaf leaf → ∃ M, s.Holds leaf.buffer M

/-- The new pages of a buffer are one page with these rows of `p`, or none. -/
def Placed (p : Page) (I : List ℕ) (new : Multiset Page) : Prop :=
  new = 0 ∧ I = [] ∨ ∃ v, new = {v} ∧ Part p I v

/-- The rows of `p` with the indexes `I` have been placed in the leaves that they lead to. -/
structure Places (s s' : ClusterStore) (t : DecisionTree Q Branch Leaf) (p : Page) (I : List ℕ)
    (ask : ℕ → Q → Branch) : Prop where
  nodes : SameNodes s s'
  other : ∀ b, (∀ leaf, t.HasLeaf leaf → leaf.buffer ≠ b) → s'.buffers.get b = s.buffers.get b
  leaf : ∀ leaf, t.HasLeaf leaf → ∀ M, s.Holds leaf.buffer M →
    ∃ new, Placed p (I.filter fun i => t.eval (ask i) = leaf) new ∧ s'.Holds leaf.buffer (new + M)

/-- No row is placed. -/
theorem Places.nil (s : ClusterStore) (t : DecisionTree Q Branch Leaf) (p : Page)
    (ask : ℕ → Q → Branch) : Places s s t p [] ask :=
  ⟨.refl s, fun _ _ => rfl, fun _ _ M hM => ⟨0, .inl ⟨rfl, rfl⟩, (zero_add M).symm ▸ hM⟩⟩

end ClusterStore

open ClusterStore

namespace ClassificationTreeNode

variable {s s' : ClusterStore} {strategy : ClassificationStrategy} {n : ClassificationTreeNode}
  {b self root : Ptr} {maxSplitDepth : ℤ} {k : ℕ}

/-- `autosplit` adds a task at most. -/
theorem autosplit_quiet (hn : s.nodes.get self = some n)
    (h : n.autosplit strategy b self root maxSplitDepth s = .ok (k, s')) : Quiet s s' := by
  unfold autosplit at h
  split_ifs at h
  · obtain ⟨coin, s₁, h₁, h⟩ := bind_ok_iff.mp h
    obtain ⟨split, s₂, h₂, h⟩ := bind_ok_iff.mp h
    obtain ⟨hq₁, hn₁⟩ := draw_quiet h₁
    obtain ⟨hq₂, hn₂⟩ := onBuffer_quiet h₂
    have hq := hq₁.trans hq₂
    split_ifs at h
    · obtain ⟨locked, s₃, h₃, h⟩ := bind_ok_iff.mp h
      obtain ⟨hq₃, hn₃⟩ := draw_quiet h₃
      split_ifs at h
      · obtain ⟨task, s₄, h₄, h⟩ := bind_ok_iff.mp h
        obtain ⟨hq₄, hn₄⟩ := enqueue_quiet h₄
        have hq := (hq.trans hq₃).trans hq₄
        cases task with
        | some task =>
          obtain ⟨u, s₅, h₅, h⟩ := bind_ok_iff.mp h
          rw [← hn₁, ← hn₂, ← hn₃, ← hn₄] at hn
          cases h
          exact hq.trans (writeNode_quiet hn h₅)
        | none =>
          cases h
          exact hq
      · cases h
        exact hq.trans hq₃
    · cases h
      exact hq
  · cases h
    exact .refl s

/-! ## Insertion -/

variable {Q : Type} {rules : Q → RuleData} {child : Branch → DecisionTree Q Branch Leaf} {q : Q}
  {p page : Page} {I : List ℕ} {ask : ℕ → Q → Branch}

/-- The children that are still to be visited in the loop of `insert`. -/
def insertAll (addTo : Page → Ptr → ClusterTxn ℕ)
    (results : Branch → Except Failure (Option Page)) (cs : List (Branch × Ptr)) :
    ClusterTxn (List ℕ) :=
  cs.mapM fun c => do
    match ← (results c.1 : Except Failure (Option Page)) with
    | some page => addTo page c.2
    | none => return 0

theorem insertAll_places {addTo : Page → Ptr → ClusterTxn ℕ} {rule : RuleData}
    {cs : List (Branch × Ptr)} {ks : List ℕ} (hnodup : (cs.map Prod.fst).Nodup)
    (hdistinct : (DecisionTree.node q child).DistinctBy Leaf.buffer)
    (hadd : ∀ c ∈ cs, ∀ s s' page I k, Rests rules s c.2 (child c.1) → s.Buffered (child c.1) →
      Part p I page → addTo page c.2 s = .ok (k, s') → Places s s' (child c.1) p I ask)
    (hpart : Part p I page) (hin : Inside p.schema)
    (hrests : ∀ c ∈ cs, Rests rules s c.2 (child c.1))
    (hbuffered : ∀ c ∈ cs, s.Buffered (child c.1))
    (h : insertAll addTo (rule.split page) cs s = .ok (ks, s')) :
    SameNodes s s' ∧
      (∀ b, (∀ c ∈ cs, ∀ leaf, (child c.1).HasLeaf leaf → leaf.buffer ≠ b) →
        s'.buffers.get b = s.buffers.get b) ∧
      ∀ c ∈ cs, ∀ leaf, (child c.1).HasLeaf leaf → ∀ M, s.Holds leaf.buffer M →
        ∃ new, Placed p ((I.filter fun i => rule.eval (PageRow.mk p i).keyValue = c.1).filter
          fun i => (child c.1).eval (ask i) = leaf) new ∧ s'.Holds leaf.buffer (new + M) := by
  induction cs generalizing s ks with
  | nil =>
    cases h
    exact ⟨.refl _, fun _ _ => rfl, fun c hc => absurd hc List.not_mem_nil⟩
  | cons c cs ih =>
    rw [List.map_cons, List.nodup_cons] at hnodup
    unfold insertAll at h
    rw [List.mapM_cons] at h
    obtain ⟨k, s₁, h₁, h⟩ := bind_ok_iff.mp h
    obtain ⟨ks', s₂, h₂, h⟩ := bind_ok_iff.mp h
    cases h
    -- the first child
    have hplaces : Places s s₁ (child c.1) p
        (I.filter fun i => rule.eval (PageRow.mk p i).keyValue = c.1) ask := by
      rcases rule.split_part hpart hin c.1 with ⟨hsplit, hnil⟩ | ⟨page', hsplit, hpart'⟩
      · have h₁' : (Except.ok (k, s₁) : Except Failure (ℕ × ClusterStore)) = .ok (0, s) := by
          rw [← h₁, hsplit]
          rfl
        have hs₁ : s₁ = s := congrArg Prod.snd (Except.ok.inj h₁')
        rw [hs₁, hnil]
        exact .nil _ _ _ _
      · refine hadd c List.mem_cons_self s s₁ page' _ k (hrests c List.mem_cons_self)
          (hbuffered c List.mem_cons_self) hpart' ?_
        rw [← h₁, hsplit]
        rfl
    -- the others have other leaves
    have hother : ∀ c' ∈ cs, ∀ leaf leaf', (child c.1).HasLeaf leaf → (child c'.1).HasLeaf leaf' →
        leaf.buffer ≠ leaf'.buffer := by
      intro c' hc' leaf leaf' hleaf hleaf' heq
      refine hnodup.1 (List.mem_map.mpr ⟨c', hc', ?_⟩)
      exact (hdistinct.2 c.1 c'.1 leaf leaf' hleaf hleaf' heq).symm
    have hkept : ∀ c' ∈ cs, ∀ leaf', (child c'.1).HasLeaf leaf' →
        s₁.buffers.get leaf'.buffer = s.buffers.get leaf'.buffer := fun c' hc' leaf' hleaf' =>
      hplaces.other _ fun leaf hleaf => hother c' hc' leaf leaf' hleaf hleaf'
    obtain ⟨hnodes, hothers, hleaves⟩ := ih hnodup.2
      (fun c' hc' => hadd c' (List.mem_cons_of_mem _ hc'))
      (fun c' hc' => (hrests c' (List.mem_cons_of_mem _ hc')).mono hplaces.nodes)
      (fun c' hc' leaf' hleaf' => by
        obtain ⟨M, hM⟩ := hbuffered c' (List.mem_cons_of_mem _ hc') leaf' hleaf'
        exact ⟨M, hM.congr (hkept c' hc' leaf' hleaf')⟩) h₂
    refine ⟨hplaces.nodes.trans hnodes, fun b hb => ?_, fun c' hc' leaf hleaf M hM => ?_⟩
    · rw [hothers b fun c' hc' => hb c' (List.mem_cons_of_mem _ hc')]
      exact hplaces.other b fun leaf hleaf => hb c List.mem_cons_self leaf hleaf
    · rcases List.mem_cons.mp hc' with rfl | hc'
      · obtain ⟨new, hnew, hM'⟩ := hplaces.leaf leaf hleaf M hM
        refine ⟨new, hnew, hM'.congr (hothers _ fun c'' hc'' leaf' hleaf' heq => ?_)⟩
        exact hother c'' hc'' leaf leaf' hleaf hleaf' heq.symm
      · exact hleaves c' hc' leaf hleaf M (hM.congr (hkept c' hc' leaf hleaf))

/-- The rows that a tree leads to a leaf under a child are those that take its branch first. -/
theorem filter_eval {rule : RuleData} (hdistinct : (DecisionTree.node q child).DistinctBy Leaf.buffer)
    (hask : ∀ i, ask i q = rule.eval (PageRow.mk p i).keyValue) {b : Branch} {leaf : Leaf}
    (hleaf : (child b).HasLeaf leaf) :
    ((I.filter fun i => rule.eval (PageRow.mk p i).keyValue = b).filter
      fun i => (child b).eval (ask i) = leaf) =
      I.filter fun i => (DecisionTree.node q child).eval (ask i) = leaf := by
  rw [List.filter_filter]
  refine List.filter_congr fun i _ => ?_
  rw [← hask i, DecisionTree.eval, ← Bool.decide_and, decide_eq_decide]
  constructor
  · rintro ⟨heval, rfl⟩
    exact heval
  · intro heval
    have hb : ask i q = b :=
      hdistinct.2 _ b _ leaf (DecisionTree.hasLeaf_eval (ask i) _) hleaf (congrArg _ heval)
    exact ⟨hb ▸ heval, hb⟩

/-- `route` divides a page among the children. -/
theorem route_places {addTo : Page → Ptr → ClusterTxn ℕ} {n : ClassificationTreeNode}
    {childPtr : Branch → Ptr} (hrule : n.rule = some (rules q))
    (hptr : ∀ b, n.child b = some (childPtr b))
    (hdistinct : (DecisionTree.node q child).DistinctBy Leaf.buffer)
    (hask : ∀ i, ask i q = (rules q).eval (PageRow.mk p i).keyValue)
    (hadd : ∀ b s s' page I k, Rests rules s (childPtr b) (child b) → s.Buffered (child b) →
      Part p I page → addTo page (childPtr b) s = .ok (k, s') → Places s s' (child b) p I ask)
    (hpart : Part p I page) (hin : Inside p.schema)
    (hrests : ∀ b, Rests rules s (childPtr b) (child b)) (hbuffered : ∀ b, s.Buffered (child b))
    (h : n.route addTo page s = .ok (k, s')) : Places s s' (.node q child) p I ask := by
  have hpass : n.pass = some (childPtr .pass) := hptr .pass
  have hfail : n.fail = some (childPtr .fail) := hptr .fail
  have hexception : n.exception = some (childPtr .exception) := hptr .exception
  unfold route at h
  rw [hrule] at h
  unfold insert at h
  rw [hpass, hfail, hexception] at h
  obtain ⟨ks, s₁, h₁, h⟩ := bind_ok_iff.mp h
  cases h
  have hmem : ∀ b, (b, childPtr b) ∈ [(Branch.pass, childPtr .pass), (.fail, childPtr .fail),
      (.exception, childPtr .exception)] := by
    intro b
    cases b <;> simp
  have hcs : ∀ c ∈ [(Branch.pass, childPtr .pass), (.fail, childPtr .fail),
      (.exception, childPtr .exception)], c.2 = childPtr c.1 := by simp
  have hnodup : ([(Branch.pass, childPtr .pass), (.fail, childPtr .fail),
      (.exception, childPtr .exception)].map Prod.fst).Nodup := by simp
  obtain ⟨hnodes, hothers, hleaves⟩ := insertAll_places hnodup hdistinct
    (fun c hc => hcs c hc ▸ hadd c.1) hpart hin (fun c hc => hcs c hc ▸ hrests c.1)
    (fun c _ => hbuffered c.1) h₁
  refine ⟨hnodes, fun b hb => hothers b fun c _ leaf hleaf => hb leaf ⟨c.1, hleaf⟩, ?_⟩
  rintro leaf ⟨b, hleaf⟩ M hM
  obtain ⟨new, hnew, hM'⟩ := hleaves _ (hmem b) leaf hleaf M hM
  exact ⟨new, filter_eval hdistinct hask hleaf ▸ hnew, hM'⟩

/-- `add` places the rows of a page in the leaves that they lead to. -/
theorem add_places {t : DecisionTree Q Branch Leaf} {fuel : ℕ}
    (hdistinct : t.DistinctBy Leaf.buffer)
    (hask : ∀ i q, ask i q = (rules q).eval (PageRow.mk p i).keyValue)
    (hrests : Rests rules s self t) (hbuffered : s.Buffered t) (hn : s.nodes.get self = some n)
    (hpart : Part p I page) (hin : Inside p.schema)
    (h : n.add strategy root maxSplitDepth fuel page self s = .ok (k, s')) :
    Places s s' t p I ask := by
  induction fuel generalizing s s' self n t I page k with
  | zero => cases h
  | succ fuel ih =>
    cases hrests with
    | @leaf _ b n' hn' hrule hbuffer =>
      obtain rfl : n' = n := Option.some.inj (hn'.symm.trans hn)
      obtain ⟨M, hM⟩ := hbuffered _ rfl
      unfold add at h
      rw [hbuffer] at h
      obtain ⟨u, s₁, h₁, h⟩ := bind_ok_iff.mp h
      obtain ⟨s₂, h₂, hnodes, hM₂, hother⟩ := addPage_ok hM page
      obtain rfl : s₁ = s₂ := congrArg Prod.snd (Except.ok.inj (h₁.symm.trans h₂))
      have hquiet := autosplit_quiet (hnodes ▸ hn) h
      refine ⟨?_, fun b' hb' => ?_, ?_⟩
      · exact fun p => (hquiet.nodes p).trans (by rw [hnodes])
      · rw [hquiet.buffers]
        exact hother b' (hb' _ rfl).symm
      · rintro leaf rfl M' hM'
        have hall : (I.filter fun i => DecisionTree.eval (ask i) (.leaf (Leaf.mk self b)) =
            Leaf.mk self b) = I := List.filter_eq_self.mpr fun i _ => decide_eq_true rfl
        refine ⟨{page}, .inr ⟨page, rfl, hall.symm ▸ hpart⟩, ?_⟩
        · obtain ⟨s₂, h₂, -, hM₂, -⟩ := addPage_ok hM' page
          obtain rfl : s₁ = s₂ := congrArg Prod.snd (Except.ok.inj (h₁.symm.trans h₂))
          exact hM₂.congr (by rw [hquiet.buffers])
    | @node _ n' q childPtr child hn' hrule hbuffer hptr hchild =>
      obtain rfl : n' = n := Option.some.inj (hn'.symm.trans hn)
      unfold add at h
      rw [hbuffer] at h
      refine route_places hrule hptr hdistinct (fun i => hask i q) ?_ hpart hin hchild
        (fun b leaf hleaf => hbuffered leaf ⟨b, hleaf⟩) h
      intro b s s' page I k hrests hbuffered hpart h
      obtain ⟨m, s₁, h₁, h₂⟩ := bind_ok_iff.mp h
      obtain ⟨hm, rfl⟩ := of_read h₁
      exact ih (hdistinct.1 b) hrests hbuffered hm hpart h₂

/-! ## Lookup -/

/-- `find` answers with the leaf that the rules lead to, unless that is the node itself. -/
theorem find_eq {t : DecisionTree Q Branch Leaf} {fuel : ℕ} (hfuel : t.Within fuel)
    (hrests : Rests rules s self t) (hn : s.nodes.get self = some n) (value : KeyValue) :
    ∃ o, n.find fuel value s = .ok (o, s) ∧
      o.getD self = (t.eval fun q => (rules q).eval value).node := by
  induction fuel generalizing self n t with
  | zero => cases hfuel
  | succ fuel ih =>
    cases hrests with
    | leaf hn' hrule hbuffer =>
      obtain rfl := Option.some.inj (hn'.symm.trans hn)
      refine ⟨none, ?_, rfl⟩
      unfold find
      rw [hrule]
      rfl
    | @node _ n' q childPtr child hn' hrule hbuffer hptr hchild =>
      obtain rfl := Option.some.inj (hn'.symm.trans hn)
      have hb := hchild ((rules q).eval value)
      obtain ⟨m, hm⟩ := hb.stored
      obtain ⟨o, ho, heval⟩ := ih (hfuel _) hb hm
      refine ⟨o <|> some (childPtr ((rules q).eval value)), ?_, ?_⟩
      · unfold find
        rw [hrule]
        dsimp only
        rw [hptr]
        show (onNodes _ >>= fun _ => _) s = _
        rw [bind_ok (read_ok hm), bind_ok ho]
        rfl
      · cases o <;> exact heval

end ClassificationTreeNode

/-! ## Metric rules -/

/-- The rule `metric(field) > threshold`. -/
def metricRule (q : String × Float) : RuleData := ruleFn (metricFn q.1) q.2

theorem metricRule_eval {q : String × Float} {value : KeyValue} {x : AnyValue} {y : Float}
    (h : value.apply q.1 = .ok x) (hx : x.doubleValue = .ok y) :
    (metricRule q).eval value = if q.2.lt y then .pass else .fail := by
  have hmetric : metricFn q.1 value = .ok y := by
    rw [metricFn, h]
    exact hx
  simp only [RuleData.eval, metricRule, ruleFn, hmetric, Except.map]
  cases q.2.lt y <;> rfl

theorem metricRule_exception {q : String × Float} {value : KeyValue} {e : Failure}
    (h : value.apply q.1 = .error e) : (metricRule q).eval value = .exception := by
  have hmetric : metricFn q.1 value = .error e := by
    rw [metricFn, h]
    rfl
  simp only [RuleData.eval, metricRule, ruleFn, hmetric, Except.map]

/-- The pages of items are pages of numbers. -/
theorem Page.allNumbers_of_apply {data : List LabeledItem} {p : Page}
    (hp : Page.apply data = .ok p) : AllNumbers data := by
  intro i hi key v hget
  by_contra hv
  obtain ⟨e, he⟩ := apply_error hi hget (Bool.not_eq_true _ ▸ hv)
  rw [hp] at he
  cases he

theorem Page.inside_of_apply {data : List LabeledItem} {p : Page}
    (hp : Page.apply data = .ok p) : Inside p.schema := by
  obtain ⟨p', hp', hschema, -⟩ := apply_of_allNumbers (allNumbers_of_apply hp)
  obtain rfl := Except.ok.inj (hp.symm.trans hp')
  intro name start hc
  rw [hschema] at hc ⊢
  rw [rowValueSize_scalarColumns]
  rw [scalarColumns, running_eq, List.map_map] at hc
  obtain ⟨⟨key, j⟩, hj, heq⟩ := List.mem_map.mp hc
  cases heq
  have hlt := (List.getElem?_eq_some_iff.mp (List.mem_zipIdx_iff_getElem?.mp hj)).1
  refine ⟨j * 8, by push_cast; rfl, ?_⟩
  have := Nat.mul_le_mul_right 8 (Nat.succ_le_of_lt hlt)
  rw [Nat.succ_mul] at this
  exact this

/-- A field that the item does not have. -/
theorem item_apply_none {item : LabeledItem} {key : String} (h : item.value.get key = none) :
    item.value.keyValue.apply key = .error .noneGet := by
  unfold ClassificationTreeItem.keyValue
  dsimp only
  rw [h]

/-- The row of an item has a double for each field of the page. -/
theorem row_apply_of_mem {data : List LabeledItem} {p : Page} (hp : Page.apply data = .ok p)
    {i : ℕ} {item : LabeledItem} (hi : data[i]? = some item) {key : String}
    (hkey : key ∈ keys data) :
    (PageRow.mk p i).keyValue.apply key = .ok (.cell (.double (numberOf item key))) := by
  have hrow : (PageRow.mk p i).apply key = .ok (.double (numberOf item key)) := by
    have hget := (row_of_allNumbers (allNumbers_of_apply hp) hp hi).2 key hkey
    unfold PageRow.get at hget
    unfold PageRow.apply
    cases hc : (PageRow.mk p i).column? key with
    | none =>
      rw [hc] at hget
      cases hget
    | some c =>
      rw [hc] at hget
      dsimp only at hget ⊢
      cases hx : c.get ⟨p, i⟩ with
      | error e =>
        rw [hx] at hget
        cases hget
      | ok x =>
        rw [hx] at hget
        cases hget
        rfl
  show Except.map _ (PageRow.apply _ _) = _
  rw [hrow]
  rfl

/-- A field of no item has no column. -/
theorem row_apply_of_not_mem {data : List LabeledItem} {p : Page} (hp : Page.apply data = .ok p)
    (i : ℕ) {key : String} (hkey : key ∉ keys data) :
    (PageRow.mk p i).keyValue.apply key = .error (.noSuchElement ("key not found: " ++ key)) := by
  obtain ⟨p', hp', hschema, -⟩ := apply_of_allNumbers (allNumbers_of_apply hp)
  obtain rfl := Except.ok.inj (hp.symm.trans hp')
  have hcolumn : (PageRow.mk p i).column? key = none := by
    refine List.find?_eq_none.mpr fun c hc heq => hkey ?_
    rw [← of_decide_eq_true heq, ← scalarColumns_names (keys data), ← hschema]
    exact List.mem_map.mpr ⟨c, hc, rfl⟩
  show Except.map _ (PageRow.apply _ _) = _
  rw [PageRow.apply, hcolumn]
  rfl

/-- A rule sees the same of an item and of its row exactly if the item has the field, or no item
    of the page has it: a value that is missing is `NaN` in the row, and a failure in the item. -/
theorem metricRule_eval_iff {data : List LabeledItem} {p : Page} (hp : Page.apply data = .ok p)
    {i : ℕ} {item : LabeledItem} (hi : data[i]? = some item) (q : String × Float) :
    (metricRule q).eval (PageRow.mk p i).keyValue = (metricRule q).eval item.value.keyValue ↔
      (item.value.get q.1).isSome ∨ ∀ item' ∈ data, item'.value.get q.1 = none := by
  by_cases hkey : q.1 ∈ keys data
  · have heval := metricRule_eval (row_apply_of_mem hp hi hkey) rfl
    cases hget : item.value.get q.1 with
    | some v =>
      refine iff_of_true ?_ (.inl rfl)
      have hv := allNumbers_of_apply hp item (List.mem_of_getElem? hi) q.1 v hget
      cases v with
      | null => cases hv
      | object s => cases hv
      | number x str =>
        have hitem : item.value.keyValue.apply q.1 = .ok (.item (.number x str)) := by
          unfold ClassificationTreeItem.keyValue
          dsimp only
          rw [hget]
        rw [heval, metricRule_eval hitem rfl, numberOf, hget]
    | none =>
      refine iff_of_false (fun heq => ?_) ?_
      · rw [heval, metricRule_exception (item_apply_none hget)] at heq
        split_ifs at heq
      · rintro (h | h)
        · cases h
        · obtain ⟨item', hmem, hsome⟩ := mem_keys.mp hkey
          rw [h item' hmem] at hsome
          cases hsome
  · have hnone : ∀ item' ∈ data, item'.value.get q.1 = none := by
      intro item' hmem
      by_contra hsome
      exact hkey (mem_keys.mpr ⟨item', hmem, Option.isSome_iff_ne_none.mpr hsome⟩)
    refine iff_of_true ?_ (.inr hnone)
    rw [metricRule_exception (row_apply_of_not_mem hp i hkey),
      metricRule_exception (item_apply_none (hnone item (List.mem_of_getElem? hi)))]

/-! ## Lookup after insertion -/

namespace ClassificationTreeData

/-- A page of items is inserted in a tree at rest with metric rules. The row of an item is placed
    in the leaf that `find` answers for the item exactly if, for each rule on its way, the item
    has the field of the rule or no item of the page has it. -/
theorem find_placed_iff {s s' : ClusterStore} {tree : ClassificationTreeData} {fuel : ℕ}
    {t : DecisionTree (String × Float) Branch Leaf} {data : List LabeledItem} {p : Page}
    (hrests : Rests metricRule s tree.root t) (hnodes : t.DistinctBy Leaf.node)
    (hbuffers : t.DistinctBy Leaf.buffer) (hbuffered : s.Buffered t) (hfuel : t.Within fuel)
    (hp : Page.apply data = .ok p) (hadd : tree.add fuel p s = .ok ((), s')) :
    ∃ placed : ℕ → Leaf, (∀ i, t.HasLeaf (placed i)) ∧
      (∀ leaf, t.HasLeaf leaf → ∀ M, s.Holds leaf.buffer M →
        ∃ new, Placed p ((List.range p.size).filter fun i => placed i = leaf) new ∧
          s'.Holds leaf.buffer (new + M)) ∧
      ∀ i item, data[i]? = some item →
        ((tree.find fuel item.value.keyValue s').map Prod.fst = .ok (placed i).node ↔
          ∀ q ∈ t.path fun q => (metricRule q).eval item.value.keyValue,
            (item.value.get q.1).isSome ∨ ∀ item' ∈ data, item'.value.get q.1 = none) := by
  obtain ⟨n, hn⟩ := hrests.stored
  unfold add at hadd
  rw [bind_ok (read_ok hn)] at hadd
  obtain ⟨k, s₁, h₁, h⟩ := bind_ok_iff.mp hadd
  obtain rfl : s' = s₁ := (congrArg Prod.snd (Except.ok.inj h)).symm
  have hplaces : Places s s' t p (List.range p.size) fun i q =>
      (metricRule q).eval (PageRow.mk p i).keyValue :=
    ClassificationTreeNode.add_places hbuffers (fun _ _ => rfl) hrests hbuffered hn (Part.refl p)
      (inside_of_apply hp) h₁
  refine ⟨fun i => t.eval fun q => (metricRule q).eval (PageRow.mk p i).keyValue,
    fun i => DecisionTree.hasLeaf_eval _ t, hplaces.leaf, fun i item hi => ?_⟩
  have hrests' := hrests.mono hplaces.nodes
  obtain ⟨n', hn'⟩ := hrests'.stored
  obtain ⟨o, ho, heval⟩ :=
    ClassificationTreeNode.find_eq hfuel hrests' hn' item.value.keyValue
  have hfind : (tree.find fuel item.value.keyValue s').map Prod.fst =
      .ok (t.eval fun q => (metricRule q).eval item.value.keyValue).node := by
    unfold find
    rw [bind_ok (read_ok hn'), bind_ok ho, ← heval]
    rfl
  rw [hfind, Except.ok.injEq]
  refine Iff.trans ⟨fun heq => ?_, fun heq => congrArg Leaf.node heq⟩
    ((DecisionTree.eval_eq_iff hnodes).trans (forall₂_congr fun q _ => ?_))
  · exact hnodes.eq (DecisionTree.hasLeaf_eval _ t) (DecisionTree.hasLeaf_eval _ t) heq
  · rw [eq_comm]
    exact metricRule_eval_iff hp hi q

/-- A tree with one rule, on the field `"b"`, that is never split. -/
def sampleTree : ClassificationTreeData where
  root := 0
  strategy := ⟨fun _ _ => .ok none, fun _ _ => .ok false⟩

/-- Its root, with the leaves `1`, `2` and `3`. -/
def sampleRoot : ClassificationTreeNode where
  parent := none
  pass := some 1
  fail := some 2
  exception := some 3
  itemBuffer := none
  rule := some (metricRule ("b", JavaBytes.longBitsToDouble 0))

/-- Its leaves have the buffers `0`, `1` and `2`. -/
def sampleStore : ClusterStore where
  nodes := ⟨[some sampleRoot, some { parent := some 0, itemBuffer := some 0 },
    some { parent := some 0, itemBuffer := some 1 },
    some { parent := some 0, itemBuffer := some 2 }]⟩
  buffers := ⟨[some PageTree.create, some PageTree.create, some PageTree.create]⟩
  choices := fun _ _ => false

/-- An item with the number `1` for some fields. -/
def sampleItem (label : String) (fields : List String) : LabeledItem where
  label := label
  value := ⟨fields.map fun f => (f, .number (JavaBytes.longBitsToDouble 0x3ff0000000000000) "1.0")⟩

/-- The label of the row of a page that a buffer holds. -/
def labelIn (s : ClusterStore) (b : Ptr) : Option (Except Failure (Option String)) :=
  (s.buffers.get b).map fun t => do
    match ← t.get PageTreeNode.equals fun _ => false with
    | (some page, _) => return some (← (PageRow.mk page 0).label)
    | (none, _) => return none

/-- Both items have the field, and are found where they were placed. -/
theorem find_placed_both :
    let data := [sampleItem "x" ["a", "b"], sampleItem "y" ["b"]]
    ∃ p s', Page.apply data = .ok p ∧ sampleTree.add 2 p sampleStore = .ok ((), s') ∧
      ∃ placed : ℕ → Leaf, ∀ i item, data[i]? = some item →
        (sampleTree.find 2 item.value.keyValue s').map Prod.fst = .ok (placed i).node := by
  intro data
  have hrun : (Page.apply data >>= fun p => sampleTree.add 2 p sampleStore).toBool = true := by
    decide +kernel
  cases hp : Page.apply data with
  | error e =>
    rw [hp] at hrun
    cases hrun
  | ok p =>
    rw [hp] at hrun
    cases hadd : sampleTree.add 2 p sampleStore with
    | error e =>
      replace hrun : (sampleTree.add 2 p sampleStore).toBool = true := hrun
      rw [hadd] at hrun
      cases hrun
    | ok r =>
      let leaf : Branch → Leaf := Branch.elim ⟨1, 0⟩ ⟨2, 1⟩ ⟨3, 2⟩
      have hdistinct : ∀ b b', (leaf b).buffer = (leaf b').buffer ∨ (leaf b).node = (leaf b').node →
          b = b' := by
        intro b b'
        cases b <;> cases b' <;> simp [leaf, Branch.elim]
      have hrests : Rests metricRule sampleStore sampleTree.root
          (.node ("b", JavaBytes.longBitsToDouble 0) fun b => .leaf (leaf b)) := by
        have hptr : ∀ b, sampleRoot.child b = some (leaf b).node := by
          intro b
          cases b <;> rfl
        exact .node (n := sampleRoot) rfl rfl rfl hptr fun b => by cases b <;> exact .leaf rfl rfl rfl
      have hbuffered : sampleStore.Buffered
          (.node ("b", JavaBytes.longBitsToDouble 0) fun b => .leaf (leaf b)) := by
        rintro l ⟨b, rfl⟩
        exact ⟨0, PageTree.create, by cases b <;> rfl, PageTree.holds_create⟩
      have hwithin : DecisionTree.Within 2
          (.node ("b", JavaBytes.longBitsToDouble 0) fun b => .leaf (leaf b)) := fun _ => trivial
      have hadd' : sampleTree.add 2 p sampleStore = .ok ((), r.2) := hadd
      obtain ⟨placed, -, -, hfind⟩ := find_placed_iff hrests
        ⟨fun _ => trivial, fun b b' l l' hl hl' heq => hdistinct b b' (.inr (hl ▸ hl' ▸ heq))⟩
        ⟨fun _ => trivial, fun b b' l l' hl hl' heq => hdistinct b b' (.inl (hl ▸ hl' ▸ heq))⟩
        hbuffered hwithin hp hadd'
      refine ⟨p, r.2, rfl, hadd', placed, fun i item hi => (hfind i item hi).mpr fun q hq => .inl ?_⟩
      rcases List.mem_cons.mp hq with rfl | hq
      · have hmem := List.mem_of_getElem? hi
        simp only [data, List.mem_cons, List.not_mem_nil, or_false] at hmem
        rcases hmem with rfl | rfl <;> rfl
      · cases hq

/-- The second item has no `"b"`. Its row has `NaN` there and is placed in the buffer `1` of the
    leaf `2`, and `find` answers `3` for it. -/
theorem find_elsewhere :
    (do
      let p ← Page.apply [sampleItem "x" ["a", "b"], sampleItem "y" ["a"]]
      let (_, s) ← sampleTree.add 2 p sampleStore
      let (leaf, _) ← sampleTree.find 2 (sampleItem "y" ["a"]).value.keyValue s
      return (leaf, [0, 1, 2].map (labelIn s)) :
        Except Failure (Ptr × List (Option (Except Failure (Option String))))) =
    .ok (3, [some (.ok (some "x")), some (.ok (some "y")), some (.ok none)]) := by
  decide +kernel

end ClassificationTreeData

end ReSTM
