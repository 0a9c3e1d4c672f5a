import ReSTM.Clustering.Entries
import ReSTM.Common.Forest

/-!
# The tree while its nodes are split

The nodes are a tree at every moment, apart from children that were created and not yet set, and no
two nodes have the same buffer. A node whose buffer was taken aside belongs to one split.

* `Split.Does`: what one step of a split does.
* `ClusterStore.Tree`: what holds of the nodes, with one lemma for each way they are changed.
* `ClusterStore.Tree.contains`: the items under the root are all that the buffers hold.
-/

namespace ReSTM

open HeapModel Nodes Page WP ClusterStore Keyed

/-! ## What a split has -/

namespace SplitPhase

/-- The buffer that was taken aside and is not read to its end. -/
def buffer : SplitPhase → Option Ptr
  | .sizing first _ | .getRule first _ | .createChildren first _ | .update first _ _ _ _ => some first
  | .currentData pageTree _ | .draining pageTree _ _ _ => some pageTree
  | .unsplit first => first
  | _ => none

/-- The pages that were taken and are not routed yet. -/
def hand : SplitPhase → List Page
  | .draining _ _ pages _ => pages
  | .routing _ batches jobs _ _ => batches.flatten ++ jobs.map Prod.fst
  | _ => []

/-- The children that were created and are not set yet. -/
def children : SplitPhase → List Ptr
  | .update _ _ pass fail exception => [pass, fail, exception]
  | _ => []

/-- The split has taken the buffer of its node, and the node has no children yet. -/
def early : SplitPhase → Bool
  | .sizing _ _ | .getRule _ _ | .createChildren _ _ | .update _ _ _ _ _ => true
  | .unsplit first => first.isSome
  | _ => false

/-- The split has taken the buffer of its node. -/
def holds : SplitPhase → Bool
  | .currentData _ _ | .draining _ _ _ _ | .routing _ _ _ _ _ | .transferBuffers _
  | .transferLast _ | .raced _ => true
  | phase => phase.early

end SplitPhase

/-! ## What a step does -/

/-- A child of a node was created, with an empty buffer. -/
structure ChildOf (ptr : Ptr) (s s' : ClusterStore) : Prop where
  nodes : s'.nodes = s.nodes.alloc { parent := some ptr, itemBuffer := some s.buffers.next }
  buffers : s'.buffers = s.buffers.alloc PageTree.create

theorem ChildOf.get_new {ptr : Ptr} {s s' : ClusterStore} (h : ChildOf ptr s s') :
    s'.nodes.get s.nodes.next = some { parent := some ptr, itemBuffer := some s.buffers.next } := by
  rw [h.nodes, Heap.get_alloc_self]

theorem ChildOf.get_old {ptr q : Ptr} {n : ClassificationTreeNode} {s s' : ClusterStore}
    (h : ChildOf ptr s s') (hn : s.nodes.get q = some n) : s'.nodes.get q = some n := by
  rw [h.nodes, Heap.get_alloc_of_lt (Heap.lt_next hn), hn]

/-- The pages of a phase have the items of those of another one. -/
def SameItems (phase phase' : SplitPhase) : Prop :=
  ∀ S, Packed S → sortByName S = S → (∀ v ∈ phase.hand, v.schema = S) →
    itemsOf phase'.hand = itemsOf phase.hand ∧ ∀ v ∈ phase'.hand, v.schema = S

/-- The buffers of a node are exchanged: it has a new one, and the old one is taken aside. -/
structure Exchanged (ptr b : Ptr) (n : ClassificationTreeNode) (s s' : ClusterStore) : Prop where
  node : s.nodes.get ptr = some n
  buffer : n.itemBuffer = some b
  nodes : s'.nodes = s.nodes.set ptr
    (some { n with itemBuffer := some s.buffers.next, splitBuffer := some b })
  buffers : s'.buffers = s.buffers.alloc PageTree.create

/-- What a step of a split does to the store, and the next phase of the split. -/
inductive Split.Does (fuel : ℕ) (t : Split) (s : ClusterStore) : SplitPhase → ClusterStore → Prop
  | looks {phase : SplitPhase} {s' : ClusterStore} (hnodes : s'.nodes = s.nodes)
      (hbuffers : s'.buffers = s.buffers) (hbuffer : phase.buffer = t.phase.buffer)
      (hchildren : phase.children = t.phase.children) (hearly : phase.early = t.phase.early)
      (hholds : phase.holds = t.phase.holds) (hitems : SameItems t.phase phase) :
      Does fuel t s phase s'
  | opened {depth : ℕ} {b : Ptr} {n : ClassificationTreeNode} {s' : ClusterStore}
      (hphase : t.phase = .firstBuffer depth) (hsplit : n.splitBuffer = none)
      (hexchanged : Exchanged t.self b n s s') : Does fuel t s (.sizing b depth) s'
  | created {first : Ptr} {newRule : RuleData} {s₁ s₂ s' : ClusterStore}
      (hphase : t.phase = .createChildren first newRule) (hpass : ChildOf t.self s s₁)
      (hfail : ChildOf t.self s₁ s₂) (hexception : ChildOf t.self s₂ s') :
      Does fuel t s
        (.update first newRule s.nodes.next s₁.nodes.next s₂.nodes.next) s'
  | updated {first pass fail exception : Ptr} {newRule : RuleData} {n : ClassificationTreeNode}
      (hphase : t.phase = .update first newRule pass fail exception)
      (hn : s.nodes.get t.self = some n) :
      Does fuel t s (.currentData first 0) { s with nodes := s.nodes.set t.self (some { n with
        rule := some newRule
        pass := some pass
        fail := some fail
        exception := some exception }) }
  | took {b : Ptr} {node : ClassificationTreeNode} {pages : List Page} {page : Page} {moved : ℕ}
      {s' : ClusterStore} (hphase : t.phase = .draining b node pages moved)
      (hrun : takePage b s = .ok (some page, s')) :
      Does fuel t s (.draining b node (pages ++ [page]) moved) s'
  | drained {b : Ptr} {node : ClassificationTreeNode} {pages : List Page} {moved : ℕ}
      {s' : ClusterStore} (hphase : t.phase = .draining b node pages moved)
      (hrun : takePage b s = .ok (none, s')) :
      Does fuel t s (.routing node (batches pages) [] 0 moved) s'
  | swapped {b : Ptr} {n : ClassificationTreeNode} {moved : ℕ} {s' : ClusterStore}
      (hphase : t.phase = .transferBuffers moved) (hexchanged : Exchanged t.self b n s s') :
      Does fuel t s (.currentData b moved) s'
  | closed {rows moved : ℕ} {s' : ClusterStore} (hphase : t.phase = .transferLast moved)
      (hrun : ClassificationTreeNode.transferLast t.strategy t.root t.maxSplitDepth fuel t.self s =
        .ok (rows, s')) : Does fuel t s (.closing (moved + rows)) s'
  | ran {node : ClassificationTreeNode} {batches : List (List Page)} {jobs : List (Page × Ptr)}
      {rows moved j k : ℕ} {job : Page × Ptr} {s' : ClusterStore}
      (hphase : t.phase = .routing node batches jobs rows moved) (hjob : jobs[j]? = some job)
      (hrun : (onNodes (read job.2) >>= fun child => child.add t.strategy t.root
        (t.maxSplitDepth - 1) fuel job.1 job.2) s = .ok (k, s')) :
      Does fuel t s (.routing node batches (jobs.eraseIdx j) rows moved) s'

namespace Split

variable {fuel : ℕ} {t : Split} {s s' : ClusterStore} {phase : SplitPhase} {b self : Ptr}

theorem firstBuffer_cases {o : Option Ptr}
    (h : ClassificationTreeNode.firstBuffer self s = .ok (o, s')) :
    o = none ∧ s' = s ∨ ∃ b n, o = some b ∧ n.splitBuffer = none ∧ Exchanged self b n s s' := by
  unfold ClassificationTreeNode.firstBuffer at h
  obtain ⟨n, s₁, h₁, hrest⟩ := bind_ok_iff.mp h
  obtain ⟨hn, rfl⟩ := of_read h₁
  cases hsplit : n.splitBuffer with
  | some c =>
    rw [hsplit] at hrest
    cases hrest
    exact .inl ⟨rfl, rfl⟩
  | none =>
    cases hbuffer : n.itemBuffer with
    | none =>
      rw [hsplit, hbuffer] at hrest
      cases hrest
      exact .inl ⟨rfl, rfl⟩
    | some b =>
      rw [hsplit, hbuffer] at hrest
      replace hrest : (newBuffer >>= fun c => writeNode self
        { n with itemBuffer := some c, splitBuffer := some b } >>= fun _ => pure (some b)) s₁ =
          .ok (o, s') := hrest
      rw [bind_ok (newBuffer_ok s₁)] at hrest
      obtain ⟨u, s₂, h₂, hreturn⟩ := bind_ok_iff.mp hrest
      obtain rfl := of_writeNode h₂ hn
      cases hreturn
      exact .inr ⟨b, n, rfl, hsplit, hn, hbuffer, rfl, rfl⟩

theorem transferBuffers_exchanged
    (h : ClassificationTreeNode.transferBuffers self s = .ok (b, s')) :
    ∃ n, Exchanged self b n s s' := by
  unfold ClassificationTreeNode.transferBuffers at h
  obtain ⟨n, s₁, h₁, hrest⟩ := bind_ok_iff.mp h
  obtain ⟨hn, rfl⟩ := of_read h₁
  cases hbuffer : n.itemBuffer with
  | none =>
    rw [hbuffer] at hrest
    cases hrest
  | some c =>
    rw [hbuffer] at hrest
    dsimp only at hrest
    rw [bind_ok (newBuffer_ok s₁)] at hrest
    obtain ⟨u, s₂, h₂, hreturn⟩ := bind_ok_iff.mp hrest
    obtain rfl := of_writeNode h₂ hn
    cases hreturn
    exact ⟨n, hn, hbuffer, rfl, rfl⟩

theorem childOf_newChild {ptr : Ptr} (h : ClassificationTreeNode.newChild self s = .ok (ptr, s')) :
    ptr = s.nodes.next ∧ ChildOf self s s' := by
  cases h
  exact ⟨rfl, rfl, rfl⟩

/-- What is computed changes nothing. -/
theorem of_liftM {α : Type} {x : Except Failure α} {a : α}
    (h : (liftM x : ClusterTxn α) s = .ok (a, s')) : x = .ok a ∧ s' = s := by
  cases x with
  | error e => cases h
  | ok b =>
    cases h
    exact ⟨rfl, rfl⟩

/-- The items of a batch are those of the parts of its block. -/
theorem sameItems_dispatch {node : ClassificationTreeNode} {batch : List Page}
    {rest : List (List Page)} {jobs parts : List (Page × Ptr)} {rows rows' moved : ℕ} {block : Page}
    (hunion : Page.union batch = .ok block) (hparts : node.routePage block = .ok parts) :
    SameItems (.routing node (batch :: rest) jobs rows moved)
      (.routing node rest (jobs ++ parts) rows' moved) := by
  intro S hpacked hsorted hschema
  have hhand : SplitPhase.hand (.routing node (batch :: rest) jobs rows moved) =
      batch ++ (rest.flatten ++ jobs.map Prod.fst) := List.append_assoc _ _ _
  have hhand' : SplitPhase.hand (.routing node rest (jobs ++ parts) rows' moved) =
      rest.flatten ++ jobs.map Prod.fst ++ parts.map Prod.fst := by
    rw [SplitPhase.hand, List.map_append, List.append_assoc]
  rw [hhand, List.forall_mem_append] at hschema
  obtain ⟨hin, hblock⟩ := items_union hschema.1 (inside_of_packed hpacked) hunion
  obtain ⟨hitems, hmem⟩ := ClassificationTreeNode.routePage_items hin hparts
  rw [hhand, hhand', ← Multiset.coe_add batch, ← Multiset.coe_add _ (parts.map Prod.fst),
    itemsOf_add, itemsOf_add, hitems, hblock,
    ClassificationTreeNode.relaidItemsOf_packed hschema.1 hpacked, add_comm]
  refine ⟨rfl, List.forall_mem_append.mpr ⟨hschema.2, fun v hv => ?_⟩⟩
  obtain ⟨job, hjob, rfl⟩ := List.mem_map.mp hv
  obtain ⟨hv, hrows⟩ := hmem job hjob
  exact hv.trans ((schema_union hschema.1 hpacked hunion).resolve_left hrows |>.trans hsorted)

theorem does_advance (h : t.advance fuel s = .ok (phase, s')) : t.Does fuel s phase s' := by
  have hlooks : ∀ {phase s'}, s'.nodes = s.nodes → s'.buffers = s.buffers →
      phase.buffer = t.phase.buffer → phase.children = t.phase.children →
      phase.early = t.phase.early → phase.holds = t.phase.holds → phase.hand = t.phase.hand →
      t.Does fuel s phase s' := fun hnodes hbuffers hbuffer hchildren hearly hholds hhand =>
    .looks hnodes hbuffers hbuffer hchildren hearly hholds fun S _ _ hschema =>
      ⟨by rw [hhand], hhand ▸ hschema⟩
  unfold advance at h
  cases hphase : t.phase with
  | getTreeDepth =>
    rw [hphase] at h hlooks
    obtain ⟨n, s₁, h₁, hrest⟩ := bind_ok_iff.mp h
    obtain ⟨-, rfl⟩ := of_read h₁
    obtain ⟨depth, s₂, h₂, hreturn⟩ := bind_ok_iff.mp hrest
    obtain rfl := ClassificationTreeNode.getTreeDepth_read h₂
    cases hreturn
    exact hlooks rfl rfl rfl rfl rfl rfl rfl
  | firstBuffer depth =>
    rw [hphase] at h hlooks
    obtain ⟨o, s₁, h₁, hreturn⟩ := bind_ok_iff.mp h
    rcases firstBuffer_cases h₁ with ⟨rfl, rfl⟩ | ⟨b, n, rfl, hsplit, hexchanged⟩
    · cases hreturn
      exact hlooks rfl rfl rfl rfl rfl rfl rfl
    · cases hreturn
      exact .opened hphase hsplit hexchanged
  | sizing first depth =>
    rw [hphase] at h hlooks
    obtain ⟨size, s₁, h₁, hrest⟩ := bind_ok_iff.mp h
    obtain ⟨u, s₂, h₂, hreturn⟩ := bind_ok_iff.mp hrest
    obtain ⟨-, rfl⟩ := of_require h₂
    cases hreturn
    obtain ⟨hquiet, hnodes⟩ := onBuffer_quiet h₁
    exact hlooks hnodes hquiet.buffers rfl rfl rfl rfl rfl
  | getRule first depth =>
    rw [hphase] at h hlooks
    obtain ⟨rule, s₁, h₁, hreturn⟩ := bind_ok_iff.mp h
    obtain ⟨hquiet, hnodes⟩ := onBuffer_quiet h₁
    cases rule with
    | none =>
      cases hreturn
      exact hlooks hnodes hquiet.buffers rfl rfl rfl rfl rfl
    | some newRule =>
      cases hreturn
      exact hlooks hnodes hquiet.buffers rfl rfl rfl rfl rfl
  | createChildren first newRule =>
    rw [hphase] at h
    obtain ⟨ptrs, s₁, h₁, hreturn⟩ := bind_ok_iff.mp h
    unfold ClassificationTreeNode.createChildren at h₁
    obtain ⟨pass, s₂, h₂, hrest⟩ := bind_ok_iff.mp h₁
    obtain ⟨fail, s₃, h₃, hrest'⟩ := bind_ok_iff.mp hrest
    obtain ⟨exception, s₄, h₄, hptrs⟩ := bind_ok_iff.mp hrest'
    cases hptrs
    cases hreturn
    obtain ⟨rfl, hpass⟩ := childOf_newChild h₂
    obtain ⟨rfl, hfail⟩ := childOf_newChild h₃
    obtain ⟨rfl, hexception⟩ := childOf_newChild h₄
    exact .created hphase hpass hfail hexception
  | update first newRule pass fail exception =>
    rw [hphase] at h
    obtain ⟨u, s₁, h₁, hreturn⟩ := bind_ok_iff.mp h
    cases hreturn
    unfold ClassificationTreeNode.setRule at h₁
    obtain ⟨n, s₂, h₂, hwrite⟩ := bind_ok_iff.mp h₁
    obtain ⟨hn, rfl⟩ := of_read h₂
    obtain rfl := of_writeNode hwrite hn
    exact .updated hphase hn
  | currentData pageTree moved =>
    rw [hphase] at h hlooks
    obtain ⟨n, s₁, h₁, hreturn⟩ := bind_ok_iff.mp h
    obtain ⟨-, rfl⟩ := of_read h₁
    cases hreturn
    exact hlooks rfl rfl rfl rfl rfl rfl rfl
  | draining pageTree node pages moved =>
    rw [hphase] at h
    obtain ⟨o, s₁, h₁, hreturn⟩ := bind_ok_iff.mp h
    cases o with
    | none =>
      cases hreturn
      exact .drained hphase h₁
    | some page =>
      cases hreturn
      exact .took hphase h₁
  | routing node batches jobs rows moved =>
    cases batches with
    | nil =>
      cases jobs with
      | nil =>
        rw [hphase] at h hlooks
        dsimp only at h
        split_ifs at h
        all_goals
          cases h
          exact hlooks rfl rfl rfl rfl rfl rfl rfl
      | cons job jobs =>
        rw [hphase] at h hlooks
        cases h
        exact hlooks rfl rfl rfl rfl rfl rfl rfl
    | cons batch rest =>
      rw [hphase] at h
      dsimp only at h
      obtain ⟨block, s₁, h₁, hrest⟩ := bind_ok_iff.mp h
      obtain ⟨parts, s₂, h₂, hreturn⟩ := bind_ok_iff.mp hrest
      cases hreturn
      obtain ⟨hunion, rfl⟩ := of_liftM h₁
      obtain ⟨hparts, rfl⟩ := of_liftM h₂
      refine .looks rfl rfl ?_ ?_ ?_ ?_ ?_ <;> rw [hphase]
      all_goals first | rfl | exact sameItems_dispatch hunion hparts
  | transferBuffers moved =>
    rw [hphase] at h
    obtain ⟨b, s₁, h₁, hreturn⟩ := bind_ok_iff.mp h
    obtain ⟨n, hexchanged⟩ := transferBuffers_exchanged h₁
    cases hreturn
    exact .swapped hphase hexchanged
  | transferLast moved =>
    rw [hphase] at h hlooks
    obtain ⟨s₀, s₁, hget, hrest⟩ := bind_ok_iff.mp h
    cases hget
    split_ifs at hrest
    · cases hrest
      exact hlooks rfl rfl rfl rfl rfl rfl rfl
    · obtain ⟨rows, s₁, h₁, hreturn⟩ := bind_ok_iff.mp hrest
      cases hreturn
      exact .closed hphase h₁
  | closing result =>
    rw [hphase] at h hlooks
    obtain ⟨n, s₁, h₁, hrest⟩ := bind_ok_iff.mp h
    obtain ⟨-, rfl⟩ := of_read h₁
    split_ifs at hrest
    · obtain ⟨u, s₂, h₂, hreturn⟩ := bind_ok_iff.mp hrest
      obtain ⟨-, rfl⟩ := of_require h₂
      cases hreturn
      exact hlooks rfl rfl rfl rfl rfl rfl rfl
    · cases hrest
      exact hlooks rfl rfl rfl rfl rfl rfl rfl
  | checking children result =>
    rw [hphase] at h hlooks
    cases children with
    | nil =>
      cases h
      exact hlooks rfl rfl rfl rfl rfl rfl rfl
    | cons child rest =>
      obtain ⟨u, s₁, h₁, hreturn⟩ := bind_ok_iff.mp h
      cases hreturn
      obtain ⟨hnodes, hbuffers⟩ := ClassificationTreeNode.requireItems_read h₁
      exact hlooks hnodes hbuffers rfl rfl rfl rfl rfl
  | raced moved =>
    rw [hphase] at h hlooks
    cases h
    exact hlooks rfl rfl rfl rfl rfl rfl rfl
  | unsplit first =>
    rw [hphase] at h hlooks
    cases h
    exact hlooks rfl rfl rfl rfl rfl rfl rfl
  | done result =>
    rw [hphase] at h hlooks
    cases h
    exact hlooks rfl rfl rfl rfl rfl rfl rfl

theorem does_runJob {j : ℕ} (h : t.runJob fuel j s = .ok (phase, s')) : t.Does fuel s phase s' := by
  have hnothing : (pure t.phase : ClusterTxn SplitPhase) s = .ok (phase, s') →
      t.Does fuel s phase s' := by
    intro hpure
    cases hpure
    exact .looks rfl rfl rfl rfl rfl rfl fun S _ _ hschema => ⟨rfl, hschema⟩
  unfold runJob at h
  cases hphase : t.phase with
  | routing node batches jobs rows moved =>
    rw [hphase] at h hnothing
    dsimp only at h
    cases hjob : jobs[j]? with
    | none =>
      rw [hjob] at h
      exact hnothing h
    | some job =>
      rw [hjob] at h
      obtain ⟨child, s₁, h₁, hrest⟩ := bind_ok_iff.mp h
      obtain ⟨k, s₂, h₂, hreturn⟩ := bind_ok_iff.mp hrest
      cases hreturn
      exact .ran hphase hjob (bind_ok_iff.mpr ⟨child, s₁, h₁, h₂⟩)
  | _ =>
    rw [hphase] at h hnothing
    exact hnothing h

end Split

/-! ## The tree -/

namespace ClusterStore

variable {s s' : ClusterStore} {U U' : Ptr → Ptr → Prop} {self : Ptr} {n m : ClassificationTreeNode}
  {P : Multiset (Ptr × Page)} {q c b : Ptr}

/-- The nodes are a tree with the root `0`, apart from the children `c` of nodes `q` for which
    `U q c` holds, which were created and not set yet. -/
structure Tree (s : ClusterStore) (U : Ptr → Ptr → Prop) : Prop extends Ordered s where
  root : ∃ n, s.nodes.get 0 = some n ∧ n.parent = none
  parent : ∀ {c m}, s.nodes.get c = some m → m.parent = none → c = 0
  distinct : ∀ {q q' n n' b}, s.nodes.get q = some n → s.nodes.get q' = some n' →
    n.itemBuffer = some b → n'.itemBuffer = some b → q = q'
  stored : ∀ {q n br c}, s.nodes.get q = some n → n.child br = some c →
    ∃ m, s.nodes.get c = some m ∧ m.parent = some q
  branch : ∀ {q n br br' c}, s.nodes.get q = some n → n.child br = some c →
    n.child br' = some c → br = br'
  linked : ∀ {c m q}, s.nodes.get c = some m → m.parent = some q →
    (∃ n br, s.nodes.get q = some n ∧ n.child br = some c) ∨ U q c
  fresh : ∀ {q n}, s.nodes.get q = some n → n.splitBuffer = none → n.itemBuffer.isSome →
    ∀ br, n.child br = none

theorem Tree.mono (h : Tree s U) (hU : ∀ q c, U q c → U' q c) : Tree s U' :=
  { h with linked := fun hm hp => (h.linked hm hp).imp_right (hU _ _) }

/-- A node is still stored, and the same in all fields but the task. -/
theorem SameNodes.fields (h : SameNodes s s') (hn : s.nodes.get q = some n) :
    ∃ task, s'.nodes.get q = some { n with splitTask := task } := by
  have hq := h q
  rw [hn, Option.map_some] at hq
  obtain ⟨n', hn', heq⟩ := Option.map_eq_some_iff.mp hq
  refine ⟨n'.splitTask, hn'.trans (congrArg some ?_)⟩
  have hfields := congrArg (fun m => { m with splitTask := n'.splitTask }) heq
  exact hfields

/-- Nothing of the tree has changed. -/
theorem Tree.same (h : Tree s U) (hs : SameNodes s s') (hk : Keeps s s') : Tree s' U := by
  have hback : ∀ {q n}, s'.nodes.get q = some n →
      ∃ task, s.nodes.get q = some { n with splitTask := task } := fun hn => hs.symm.fields hn
  refine ⟨h.toOrdered.congr hs hk, ?_, ?_, ?_, ?_, ?_, ?_, ?_⟩
  · obtain ⟨n, hn, hp⟩ := h.root
    obtain ⟨task, hn'⟩ := hs.fields hn
    exact ⟨_, hn', hp⟩
  · intro c m hm hp
    obtain ⟨task, hm'⟩ := hback hm
    exact h.parent hm' hp
  · intro q q' n n' b hn hn' hb hb'
    obtain ⟨task, hm⟩ := hback hn
    obtain ⟨task', hm'⟩ := hback hn'
    exact h.distinct hm hm' hb hb'
  · intro q n br c hn hc
    obtain ⟨task, hm⟩ := hback hn
    have hc' : { n with splitTask := task }.child br = some c := by cases br <;> exact hc
    obtain ⟨m, hcm, hp⟩ := h.stored hm hc'
    obtain ⟨task', hcm'⟩ := hs.fields hcm
    exact ⟨_, hcm', hp⟩
  · intro q n br br' c hn hc hc'
    obtain ⟨task, hm⟩ := hback hn
    exact h.branch hm (by cases br <;> exact hc) (by cases br' <;> exact hc')
  · intro c m q hm hp
    obtain ⟨task, hm'⟩ := hback hm
    refine (h.linked hm' hp).imp_left ?_
    rintro ⟨n, br, hn, hc⟩
    obtain ⟨task', hn'⟩ := hs.fields hn
    exact ⟨_, br, hn', by cases br <;> exact hc⟩
  · intro q n hn hsplit hbuffer br
    obtain ⟨task, hm⟩ := hback hn
    have hnone := h.fresh hm hsplit hbuffer br
    cases br <;> exact hnone

/-- A node has other buffers. -/
theorem Tree.setBuffers {n' : ClassificationTreeNode} (h : Tree s U) (hn : s.nodes.get self = some n)
    (hnodes : s'.nodes = s.nodes.set self (some n')) (hparent : n'.parent = n.parent)
    (hchild : ∀ br, n'.child br = n.child br) (hk : Keeps s s')
    (ho : ∀ b, n'.itemBuffer = some b → (∃ t, s'.buffers.get b = some t) ∧
      ∀ q m, s.nodes.get q = some m → m.itemBuffer ≠ some b)
    (hfresh : n'.splitBuffer = none → n'.itemBuffer = none) : Tree s' U := by
  have hself : s'.nodes.get self = some n' := by
    rw [hnodes, Heap.get_set_self (Heap.lt_next hn)]
  have hother : ∀ q, q ≠ self → s'.nodes.get q = s.nodes.get q := fun q hq => by
    rw [hnodes, Heap.get_set_of_ne hq]
  -- every node has the same parent and the same children
  have hnode : ∀ q m, s.nodes.get q = some m → ∃ m', s'.nodes.get q = some m' ∧
      m'.parent = m.parent ∧ ∀ br, m'.child br = m.child br := by
    intro q m hm
    by_cases hq : q = self
    · subst hq
      obtain rfl := Option.some.inj (hn.symm.trans hm)
      exact ⟨n', hself, hparent, hchild⟩
    · exact ⟨m, (hother q hq).trans hm, rfl, fun _ => rfl⟩
  have hback : ∀ q m', s'.nodes.get q = some m' → ∃ m, s.nodes.get q = some m ∧
      m'.parent = m.parent ∧ (∀ br, m'.child br = m.child br) ∧
      (q = self ∧ m' = n' ∨ q ≠ self ∧ m' = m) := by
    intro q m' hm'
    by_cases hq : q = self
    · subst hq
      obtain rfl := Option.some.inj (hself.symm.trans hm')
      exact ⟨n, hn, hparent, hchild, .inl ⟨rfl, rfl⟩⟩
    · exact ⟨m', (hother q hq).symm.trans hm', rfl, fun _ => rfl, .inr ⟨hq, rfl⟩⟩
  refine ⟨⟨?_, ?_⟩, ?_, ?_, ?_, ?_, ?_, ?_, ?_⟩
  · intro q m' b hm' hb
    obtain ⟨m, hm, -, -, ⟨-, rfl⟩ | ⟨-, rfl⟩⟩ := hback q m' hm'
    · exact (ho b hb).1
    · obtain ⟨t, ht⟩ := h.buffer hm hb
      exact hk b t ht
  · intro q m' br c hm' hc
    obtain ⟨m, hm, -, hchild, -⟩ := hback q m' hm'
    exact h.child hm ((hchild br).symm.trans hc)
  · obtain ⟨m, hm, hp⟩ := h.root
    obtain ⟨m', hm', hparent, -⟩ := hnode 0 m hm
    exact ⟨m', hm', hparent.trans hp⟩
  · intro c m' hm' hp
    obtain ⟨m, hm, hparent, -⟩ := hback c m' hm'
    exact h.parent hm (hparent.symm.trans hp)
  · intro q q' m m' b hm hm' hb hb'
    obtain ⟨n₁, h₁, -, -, hcase₁⟩ := hback q m hm
    obtain ⟨n₂, h₂, -, -, hcase₂⟩ := hback q' m' hm'
    rcases hcase₁ with ⟨rfl, rfl⟩ | ⟨-, rfl⟩ <;> rcases hcase₂ with ⟨rfl, rfl⟩ | ⟨-, rfl⟩
    · rfl
    · exact absurd hb' ((ho b hb).2 q' _ h₂)
    · exact absurd hb ((ho b hb').2 q _ h₁)
    · exact h.distinct h₁ h₂ hb hb'
  · intro q m' br c hm' hc
    obtain ⟨m, hm, -, hchild, -⟩ := hback q m' hm'
    obtain ⟨x, hx, hp⟩ := h.stored hm ((hchild br).symm.trans hc)
    obtain ⟨x', hx', hparent, -⟩ := hnode c x hx
    exact ⟨x', hx', hparent.trans hp⟩
  · intro q m' br br' c hm' hc hc'
    obtain ⟨m, hm, -, hchild, -⟩ := hback q m' hm'
    exact h.branch hm ((hchild br).symm.trans hc) ((hchild br').symm.trans hc')
  · intro c m' q hm' hp
    obtain ⟨m, hm, hparent, -⟩ := hback c m' hm'
    refine (h.linked hm (hparent.symm.trans hp)).imp_left ?_
    rintro ⟨x, br, hx, hc⟩
    obtain ⟨x', hx', -, hchild⟩ := hnode q x hx
    exact ⟨x', br, hx', (hchild br).trans hc⟩
  · intro q m' hm' hsplit hbuffer br
    obtain ⟨m, hm, -, -, ⟨-, rfl⟩ | ⟨-, rfl⟩⟩ := hback q m' hm'
    · rw [hfresh hsplit] at hbuffer
      cases hbuffer
    · exact h.fresh hm hsplit hbuffer br

/-- The buffers of a node are exchanged. -/
theorem Tree.exchange (h : Tree s U) (hex : Exchanged self b n s s') : Tree s' U := by
  refine h.setBuffers hex.node hex.nodes rfl (fun br => by cases br <;> rfl) ?_ ?_ nofun
  · intro c t ht
    exact ⟨t, by rw [hex.buffers, Heap.get_alloc_of_lt (Heap.lt_next ht), ht]⟩
  · rintro _ ⟨⟩
    refine ⟨⟨_, by rw [hex.buffers, Heap.get_alloc_self]⟩, fun q m hm heq => ?_⟩
    obtain ⟨t, ht⟩ := h.buffer hm heq
    exact (Heap.lt_next ht).ne rfl

/-- A child is created. -/
theorem Tree.create (h : Tree s U) (hc : ChildOf self s s') :
    Tree s' fun q c => U q c ∨ q = self ∧ c = s.nodes.next := by
  have hold : ∀ {q n}, s.nodes.get q = some n → s'.nodes.get q = some n := fun hn => hc.get_old hn
  have hback : ∀ {q n}, s'.nodes.get q = some n → s.nodes.get q = some n ∨ q = s.nodes.next ∧
      n = { parent := some self, itemBuffer := some s.buffers.next } := by
    intro q n hn
    by_cases hq : q = s.nodes.next
    · subst hq
      exact .inr ⟨rfl, Option.some.inj (hn.symm.trans hc.get_new)⟩
    · rw [hc.nodes, Heap.get_alloc_of_ne hq] at hn
      exact .inl hn
  have hnone : ∀ br, ({ parent := some self, itemBuffer := some s.buffers.next } :
      ClassificationTreeNode).child br = none := fun br => by cases br <;> rfl
  have hunused : ∀ {q n}, s.nodes.get q = some n → n.itemBuffer ≠ some s.buffers.next := by
    intro q n hn hb
    obtain ⟨t, ht⟩ := h.buffer hn hb
    exact (Heap.lt_next ht).ne rfl
  refine ⟨⟨?_, ?_⟩, ?_, ?_, ?_, ?_, ?_, ?_, ?_⟩
  · intro q n b hn hb
    rcases hback hn with hn | ⟨rfl, rfl⟩
    · obtain ⟨t, ht⟩ := h.buffer hn hb
      exact ⟨t, by rw [hc.buffers, Heap.get_alloc_of_lt (Heap.lt_next ht), ht]⟩
    · obtain rfl := Option.some.inj hb
      exact ⟨_, by rw [hc.buffers, Heap.get_alloc_self]⟩
  · intro q n br c hn hchild
    rcases hback hn with hn | ⟨rfl, rfl⟩
    · exact h.child hn hchild
    · rw [hnone br] at hchild
      cases hchild
  · obtain ⟨n, hn, hp⟩ := h.root
    exact ⟨n, hold hn, hp⟩
  · intro c m hm hp
    rcases hback hm with hm | ⟨rfl, rfl⟩
    · exact h.parent hm hp
    · cases hp
  · intro q q' n n' b hn hn' hb hb'
    rcases hback hn with hn | ⟨rfl, rfl⟩ <;> rcases hback hn' with hn' | ⟨rfl, rfl⟩
    · exact h.distinct hn hn' hb hb'
    · exact absurd (hb.trans hb'.symm) (hunused hn)
    · exact absurd (hb'.trans hb.symm) (hunused hn')
    · rfl
  · intro q n br c hn hchild
    rcases hback hn with hn | ⟨rfl, rfl⟩
    · obtain ⟨m, hm, hp⟩ := h.stored hn hchild
      exact ⟨m, hold hm, hp⟩
    · rw [hnone br] at hchild
      cases hchild
  · intro q n br br' c hn hchild hchild'
    rcases hback hn with hn | ⟨rfl, rfl⟩
    · exact h.branch hn hchild hchild'
    · rw [hnone br] at hchild
      cases hchild
  · intro c m q hm hp
    rcases hback hm with hm | ⟨rfl, rfl⟩
    · rcases h.linked hm hp with ⟨n, br, hn, hchild⟩ | hU
      · exact .inl ⟨n, br, hold hn, hchild⟩
      · exact .inr (.inl hU)
    · exact .inr (.inr ⟨(Option.some.inj hp).symm, rfl⟩)
  · intro q n hn hsplit hbuffer br
    rcases hback hn with hn | ⟨rfl, rfl⟩
    · exact h.fresh hn hsplit hbuffer br
    · exact hnone br

/-- The children of a node are set. -/
theorem Tree.update {n' : ClassificationTreeNode} {ptr : Branch → Ptr} (h : Tree s U)
    (hn : s.nodes.get self = some n) (hsplit : n.splitBuffer.isSome) (hnone : ∀ br, n.child br = none)
    (hparent : n'.parent = n.parent) (hbuffer : n'.itemBuffer = n.itemBuffer)
    (hsplit' : n'.splitBuffer = n.splitBuffer) (hchild : ∀ br, n'.child br = some (ptr br))
    (hptr : ∀ br, self < ptr br ∧ ∃ m, s.nodes.get (ptr br) = some m ∧ m.parent = some self)
    (hinj : ∀ br br', ptr br = ptr br' → br = br')
    (hU : ∀ q c, U q c → U' q c ∨ q = self ∧ ∃ br, c = ptr br) :
    Tree { s with nodes := s.nodes.set self (some n') } U' := by
  have hself : (s.nodes.set self (some n')).get self = some n' :=
    Heap.get_set_self (Heap.lt_next hn)
  have hother : ∀ {q}, q ≠ self → (s.nodes.set self (some n')).get q = s.nodes.get q := fun hq =>
    Heap.get_set_of_ne hq
  have hnode : ∀ {q m}, s.nodes.get q = some m → ∃ m', (s.nodes.set self (some n')).get q = some m' ∧
      m'.parent = m.parent ∧ ∀ br c, m.child br = some c → m'.child br = some c := by
    intro q m hm
    by_cases hq : q = self
    · subst hq
      obtain rfl := Option.some.inj (hn.symm.trans hm)
      refine ⟨n', hself, hparent, fun br c hc => ?_⟩
      rw [hnone br] at hc
      cases hc
    · exact ⟨m, (hother hq).trans hm, rfl, fun _ _ hc => hc⟩
  have hback : ∀ {q m'}, (s.nodes.set self (some n')).get q = some m' → ∃ m,
      s.nodes.get q = some m ∧ m'.parent = m.parent ∧ m'.itemBuffer = m.itemBuffer ∧
      m'.splitBuffer = m.splitBuffer ∧ (q = self ∧ m = n ∧ m' = n' ∨ m' = m) := by
    intro q m' hm'
    by_cases hq : q = self
    · subst hq
      obtain rfl := Option.some.inj (hself.symm.trans hm')
      exact ⟨n, hn, hparent, hbuffer, hsplit', .inl ⟨rfl, rfl, rfl⟩⟩
    · exact ⟨m', (hother hq).symm.trans hm', rfl, rfl, rfl, .inr rfl⟩
  refine ⟨⟨?_, ?_⟩, ?_, ?_, ?_, ?_, ?_, ?_, ?_⟩
  · intro q m' b hm' hb
    obtain ⟨m, hm, -, hb', -⟩ := hback hm'
    exact h.buffer hm (hb'.symm.trans hb)
  · intro q m' br c hm' hc
    obtain ⟨m, hm, -, -, -, ⟨rfl, rfl, rfl⟩ | rfl⟩ := hback hm'
    · obtain rfl := Option.some.inj ((hchild br).symm.trans hc)
      exact (hptr br).1
    · exact h.child hm hc
  · obtain ⟨m, hm, hp⟩ := h.root
    obtain ⟨m', hm', hp', -⟩ := hnode hm
    exact ⟨m', hm', hp'.trans hp⟩
  · intro c m' hm' hp
    obtain ⟨m, hm, hp', -⟩ := hback hm'
    exact h.parent hm (hp'.symm.trans hp)
  · intro q q' m m' b hm hm' hb hb'
    obtain ⟨n₁, h₁, -, hb₁, -⟩ := hback hm
    obtain ⟨n₂, h₂, -, hb₂, -⟩ := hback hm'
    exact h.distinct h₁ h₂ (hb₁.symm.trans hb) (hb₂.symm.trans hb')
  · intro q m' br c hm' hc
    obtain ⟨m, hm, -, -, -, ⟨rfl, rfl, rfl⟩ | rfl⟩ := hback hm'
    · obtain rfl := Option.some.inj ((hchild br).symm.trans hc)
      obtain ⟨x, hx, hp⟩ := (hptr br).2
      obtain ⟨x', hx', hp', -⟩ := hnode hx
      exact ⟨x', hx', hp'.trans hp⟩
    · obtain ⟨x, hx, hp⟩ := h.stored hm hc
      obtain ⟨x', hx', hp', -⟩ := hnode hx
      exact ⟨x', hx', hp'.trans hp⟩
  · intro q m' br br' c hm' hc hc'
    obtain ⟨m, hm, -, -, -, ⟨rfl, rfl, rfl⟩ | rfl⟩ := hback hm'
    · refine hinj br br' (Option.some.inj ?_)
      rw [← hchild br, ← hchild br', hc, hc']
    · exact h.branch hm hc hc'
  · intro c m' q hm' hp
    obtain ⟨m, hm, hp', -⟩ := hback hm'
    rcases h.linked hm (hp'.symm.trans hp) with ⟨x, br, hx, hc⟩ | horphan
    · obtain ⟨x', hx', -, hkept⟩ := hnode hx
      exact .inl ⟨x', br, hx', hkept br c hc⟩
    · rcases hU q c horphan with hU' | ⟨rfl, br, rfl⟩
      · exact .inr hU'
      · exact .inl ⟨n', br, hself, hchild br⟩
  · intro q m' hm' hs hb br
    obtain ⟨m, hm, -, -, -, ⟨rfl, rfl, rfl⟩ | rfl⟩ := hback hm'
    · rw [← hsplit', hs] at hsplit
      cases hsplit
    · exact h.fresh hm hs hb br

/-! ## The items under the root -/

/-- The pages of the buffer of a node. -/
def pagesOf (s : ClusterStore) (P : Multiset (Ptr × Page)) (q : Ptr) : Multiset Page :=
  ((s.nodes.get q).bind ClassificationTreeNode.itemBuffer).elim 0 (valuesAt P)

theorem Stores.holdsIn (h : s.Stores P) (ho : s.Ordered) (hn : s.nodes.get q = some n) :
    s.HoldsIn n.itemBuffer (s.pagesOf P q) := by
  have hpages : s.pagesOf P q = n.itemBuffer.elim 0 (valuesAt P) := by
    rw [pagesOf, hn]
    rfl
  rw [hpages]
  cases hb : n.itemBuffer with
  | none => rfl
  | some b =>
    obtain ⟨t, ht⟩ := ho.buffer hn hb
    exact h.holds_of ht

/-- Every node contains some items, since children come after their parent. -/
theorem Tree.exists_contains (h : Tree s U) (hP : s.Stores P) (hn : s.nodes.get q = some n) :
    ∃ X, s.Contains (some q) X := by
  induction hk : s.nodes.next - q using Nat.strongRecOn generalizing q n with
  | ind k ih =>
    have hchild : ∀ br, ∃ X, s.Contains (n.child br) X := by
      intro br
      cases hc : n.child br with
      | none => exact ⟨0, .none⟩
      | some c =>
        obtain ⟨m, hm, -⟩ := h.stored hn hc
        have hlt := h.child hn hc
        have hnext := Heap.lt_next hm
        exact ih (s.nodes.next - c) (by subst hk; exact Nat.sub_lt_sub_left (hlt.trans hnext) hlt) hm rfl
    choose X hX using hchild
    exact ⟨_, .node hn (hP.holdsIn h.toOrdered hn) hX⟩

/-- The children of a node, one for each branch. -/
theorem Tree.sum_children (h : Tree s U) (hU : ∀ q c, ¬U q c) (hn : s.nodes.get q = some n)
    (total : Ptr → Multiset Item) :
    ∑ c ∈ Finset.range s.nodes.next with (s.nodes.get c).bind ClassificationTreeNode.parent = some q,
      total c = (n.child .pass).elim 0 total + (n.child .fail).elim 0 total +
        (n.child .exception).elim 0 total := by
  have hsum : ∀ br, (n.child br).elim 0 total =
      ∑ c ∈ Finset.range s.nodes.next, if n.child br = some c then total c else 0 := by
    intro br
    cases hc : n.child br with
    | none => simp
    | some c =>
      obtain ⟨m, hm, -⟩ := h.stored hn hc
      simp only [Option.some.injEq]
      rw [Finset.sum_ite_eq, if_pos (Finset.mem_range.mpr (Heap.lt_next hm))]
      rfl
  rw [Finset.sum_filter, hsum, hsum, hsum, ← Finset.sum_add_distrib, ← Finset.sum_add_distrib]
  refine Finset.sum_congr rfl fun c _ => ?_
  by_cases hparent : (s.nodes.get c).bind ClassificationTreeNode.parent = some q
  · obtain ⟨m, hm, hp⟩ := Option.bind_eq_some_iff.mp hparent
    rcases h.linked hm hp with ⟨n', br, hn', hc⟩ | hU'
    · obtain rfl := Option.some.inj (hn.symm.trans hn')
      have hother : ∀ br', br' ≠ br → n.child br' ≠ some c := fun br' hne hc' =>
        hne (h.branch hn hc' hc)
      rw [if_pos hparent]
      cases br with
      | pass =>
        rw [if_pos hc, if_neg (hother .fail nofun), if_neg (hother .exception nofun), add_zero,
          add_zero]
      | fail =>
        rw [if_pos hc, if_neg (hother .pass nofun), if_neg (hother .exception nofun), zero_add,
          add_zero]
      | exception =>
        rw [if_pos hc, if_neg (hother .pass nofun), if_neg (hother .fail nofun), zero_add, zero_add]
    · exact absurd hU' (hU q c)
  · have hnot : ∀ br, n.child br ≠ some c := by
      intro br hc
      obtain ⟨m, hm, hp⟩ := h.stored hn hc
      exact hparent (by rw [hm]; exact hp)
    rw [if_neg hparent, if_neg (hnot _), if_neg (hnot _), if_neg (hnot _), add_zero, add_zero]

/-- If every page is in the buffer of a node, the tree has the items of all pages. -/
theorem Tree.contains (h : Tree s U) (hU : ∀ q c, ¬U q c) (hP : s.Stores P)
    (hlocated : ∀ e ∈ P, s.BufferFrom 0 e.1) :
    s.Contains (some 0) (itemsOf (P.map Prod.snd)) := by
  classical
  have hall : ∀ q, ∃ X, (∀ n, s.nodes.get q = some n → s.Contains (some q) X) ∧
      (s.nodes.get q = none → X = 0) := by
    intro q
    cases hn : s.nodes.get q with
    | none => exact ⟨0, nofun, fun _ => rfl⟩
    | some n =>
      obtain ⟨X, hX⟩ := h.exists_contains hP hn
      exact ⟨X, fun _ _ => hX, nofun⟩
  choose total htotal hzero using hall
  let parent : Ptr → Option Ptr := fun q => (s.nodes.get q).bind ClassificationTreeNode.parent
  have hstored : ∀ c q, parent c = some q → ∃ n, s.nodes.get q = some n := by
    intro c q hc
    obtain ⟨m, hm, hp⟩ := Option.bind_eq_some_iff.mp hc
    rcases h.linked hm hp with ⟨n, -, hn, -⟩ | hU'
    · exact ⟨n, hn⟩
    · exact absurd hU' (hU q c)
  have hsum : ∑ q ∈ Finset.range s.nodes.next, itemsOf (s.pagesOf P q) =
      ∑ q ∈ Finset.range s.nodes.next with parent q = none, total q := by
    refine Forest.sum_own (fun c _ q hc => ?_) fun q _ => ?_
    · obtain ⟨n, hn⟩ := hstored c q hc
      exact Finset.mem_range.mpr (Heap.lt_next hn)
    · cases hn : s.nodes.get q with
      | none =>
        have hpages : s.pagesOf P q = 0 := by
          rw [pagesOf, hn]
          rfl
        rw [hzero q hn, hpages, Finset.sum_eq_zero fun c hc => ?_]
        · rfl
        · obtain ⟨n, hn'⟩ := hstored c q (Finset.mem_filter.mp hc).2
          rw [hn] at hn'
          cases hn'
      | some n =>
        rw [show (∑ c ∈ Finset.range s.nodes.next with parent c = some q, total c) = _ from
          h.sum_children hU hn total]
        refine (htotal q n hn).unique (.node (X := fun br => (n.child br).elim 0 total) hn
          (hP.holdsIn h.toOrdered hn) fun br => ?_)
        cases hc : n.child br with
        | none => exact .none
        | some c =>
          obtain ⟨m, hm, -⟩ := h.stored hn hc
          exact htotal c m hm
  obtain ⟨root, hroot, hparent⟩ := h.root
  have hroots : ∑ q ∈ Finset.range s.nodes.next with parent q = none, total q = total 0 := by
    refine Finset.sum_eq_single 0 (fun q hq hne => ?_) fun hnot => ?_
    · -- what is no root is not stored
      cases hn : s.nodes.get q with
      | none => exact hzero q hn
      | some n =>
        have hp := (Finset.mem_filter.mp hq).2
        simp only [parent, hn, Option.bind_some] at hp
        exact absurd (h.parent hn hp) hne
    · refine absurd (Finset.mem_filter.mpr ⟨Finset.mem_range.mpr (Heap.lt_next hroot), ?_⟩) hnot
      simp only [parent, hroot, Option.bind_some, hparent]
  have hpages : ∑ q ∈ Finset.range s.nodes.next, s.pagesOf P q = P.map Prod.snd := by
    refine sum_valuesAt (fun e he => ?_) fun q _ q' _ b hq hq' => ?_
    · obtain ⟨q, n, -, hn, hb⟩ := hlocated e he
      exact ⟨q, Finset.mem_range.mpr (Heap.lt_next hn), by rw [hn]; exact hb⟩
    · obtain ⟨n, hn, hb⟩ := Option.bind_eq_some_iff.mp hq
      obtain ⟨n', hn', hb'⟩ := Option.bind_eq_some_iff.mp hq'
      exact h.distinct hn hn' hb hb'
  have hitems : ∀ F : Finset Ptr, itemsOf (∑ q ∈ F, s.pagesOf P q) =
      ∑ q ∈ F, itemsOf (s.pagesOf P q) := by
    intro F
    induction F using Finset.induction_on with
    | empty => rfl
    | insert q F hq ih => rw [Finset.sum_insert hq, Finset.sum_insert hq, itemsOf_add, ih]
  rw [← hpages, hitems, hsum, hroots]
  exact htotal 0 root hroot

end ClusterStore

end ReSTM
