import ReSTM.Clustering.Transfer

/-!
# What a split does to the items of a node

A split that finds a rule moves the items into three new leaves. A split that finds no rule adds
the pages of the first buffer to the new one, and then adds them once more, since the first buffer
is still the split buffer.

* `ClassificationTreeNode.split_spec`: where the items are after a split.
* `ClassificationTreeNode.split_conserves_iff`: when a split conserves them.
-/

namespace ReSTM

open HeapModel Nodes Page WP ClusterStore

namespace ClassificationTreeNode

variable {s s' : ClusterStore} {self root b c : Ptr} {t : PageTree} {M N : Multiset Page}
  {n : ClassificationTreeNode} {strategy : ClassificationStrategy} {maxSplitDepth : ℤ}
  {fuel k depth : ℕ} {S : List BaseColumn} {X : Multiset Item}

/-! ## The steps of a split -/

/-- `getTreeDepth` only reads. -/
theorem getTreeDepth_read (h : n.getTreeDepth fuel self root s = .ok (k, s')) : s' = s := by
  induction fuel generalizing n self k s' with
  | zero => cases h
  | succ fuel ih =>
    unfold getTreeDepth at h
    cases hparent : n.parent.filter fun _ => self ≠ root with
    | none =>
      rw [hparent] at h
      cases h
      rfl
    | some parentPtr =>
      rw [hparent] at h
      obtain ⟨m, s₁, h₁, hdepth⟩ := bind_ok_iff.mp h
      obtain ⟨-, rfl⟩ := of_read h₁
      obtain ⟨d, s₂, h₂, hbit⟩ := bind_ok_iff.mp hdepth
      obtain rfl := ih h₂
      obtain ⟨bit, s₃, h₃, hlast⟩ := bind_ok_iff.mp hbit
      cases hlast
      unfold getTreeBit at h₃
      split_ifs at h₃
      all_goals cases h₃
      all_goals rfl

/-- The items of a leaf are in its split buffer `b`, and the pages `N` in its new buffer `c`. -/
structure Opened (s : ClusterStore) (ptr b c : Ptr) (t : PageTree) (N : Multiset Page) : Prop where
  node : ∃ n, s.nodes.get ptr = some n ∧ n.rule = none ∧ n.itemBuffer = some c ∧
    n.splitBuffer = some b ∧ ∀ br, n.child br = none
  first : s.buffers.get b = some t
  new : s.Holds c N
  apart : b ≠ c

theorem Opened.congr (h : Opened s self b c t N) (hnodes : s'.nodes = s.nodes)
    (hbuffers : s'.buffers = s.buffers) : Opened s' self b c t N :=
  ⟨hnodes ▸ h.node, hbuffers ▸ h.first, h.new.congr (by rw [hbuffers]), h.apart⟩

theorem firstBuffer_spec {o : Option Ptr} (hn : s.nodes.get self = some n)
    (hchild : ∀ br, n.child br = none) (hrule : n.rule = none) (hsplit : n.splitBuffer = none)
    (hbuffer : n.itemBuffer = some b) (ht : s.buffers.get b = some t)
    (hrun : firstBuffer self s = .ok (o, s')) : o = some b ∧ ∃ c, Opened s' self b c t 0 := by
  unfold firstBuffer at hrun
  rw [bind_ok (read_ok hn), hsplit, hbuffer] at hrun
  replace hrun : (newBuffer >>= fun c => writeNode self
      { n with itemBuffer := some c, splitBuffer := some b } >>= fun _ => pure (some b)) s =
    .ok (o, s') := hrun
  rw [bind_ok (newBuffer_ok s)] at hrun
  obtain ⟨u, s₁, h₁, hrun⟩ := bind_ok_iff.mp hrun
  obtain rfl := of_writeNode h₁ hn
  cases hrun
  have hlt := Heap.lt_next ht
  refine ⟨rfl, s.buffers.next, ⟨_, Heap.get_set_self (Heap.lt_next hn), hrule, rfl, rfl,
    fun br => ?_⟩, (Heap.get_alloc_of_lt hlt).trans ht, holds_new rfl, hlt.ne⟩
  exact (show _ = n.child br by cases br <;> rfl).trans (hchild br)

/-- What is read from a buffer. -/
theorem of_onBuffer {α : Type} {f : PageTree → Except Failure α} {a : α}
    (h : onBuffer b (fun t => (f t).map fun r => (r, t)) s = .ok (a, s'))
    (ht : s.buffers.get b = some t) : f t = .ok a := by
  unfold onBuffer at h
  rw [ht] at h
  dsimp only at h
  cases hf : f t with
  | error e =>
    rw [hf] at h
    cases h
  | ok r =>
    rw [hf] at h
    cases h
    rfl

/-- A leaf was created, with an empty buffer of its own. -/
structure Created (ptr : Ptr) (s s' : ClusterStore) : Prop where
  node : s'.nodes.get s.nodes.next = some { parent := some ptr, itemBuffer := some s.buffers.next }
  buffer : s'.Holds s.buffers.next 0
  nodes : ∀ p < s.nodes.next, s'.nodes.get p = s.nodes.get p
  buffers : ∀ b < s.buffers.next, s'.buffers.get b = s.buffers.get b
  ltNode : s.nodes.next < s'.nodes.next
  ltBuffer : s.buffers.next < s'.buffers.next

theorem newChild_spec {ptr : Ptr} (h : newChild self s = .ok (ptr, s')) :
    ptr = s.nodes.next ∧ Created self s s' := by
  cases h
  exact ⟨rfl, Heap.get_alloc_self, holds_new rfl, fun p hp => Heap.get_alloc_of_lt hp,
    fun b hb => Heap.get_alloc_of_lt hb, (Nat.lt_succ_self _).trans_eq Heap.next_alloc.symm,
    (Nat.lt_succ_self _).trans_eq Heap.next_alloc.symm⟩

/-- The leaves that were created from these stores. -/
def newLeaves (s : Branch → ClusterStore) (br : Branch) : Leaf :=
  ⟨(s br).nodes.next, (s br).buffers.next⟩

/-- Three leaves were created, one after the other. -/
theorem newLeaves_spec {r : Branch → ClusterStore} (hpass : Created self (r .pass) (r .fail))
    (hfail : Created self (r .fail) (r .exception)) (hexception : Created self (r .exception) s) :
    (∀ br, s.nodes.get (newLeaves r br).node =
        some { parent := some self, itemBuffer := some (newLeaves r br).buffer }) ∧
      (∀ br, s.Holds (newLeaves r br).buffer 0) ∧
      (∀ br br', (newLeaves r br).buffer = (newLeaves r br').buffer → br = br') ∧
      (∀ br, (r .pass).nodes.next ≤ (newLeaves r br).node ∧
        (r .pass).buffers.next ≤ (newLeaves r br).buffer) ∧
      (∀ p < (r .pass).nodes.next, s.nodes.get p = (r .pass).nodes.get p) ∧
      ∀ b < (r .pass).buffers.next, s.buffers.get b = (r .pass).buffers.get b := by
  have hn₁ := hpass.ltNode
  have hn₂ := hfail.ltNode
  have hb₁ := hpass.ltBuffer
  have hb₂ := hfail.ltBuffer
  refine ⟨fun br => ?_, fun br => ?_, fun br br' heq => ?_, fun br => ?_, fun p hp => ?_,
    fun b hb => ?_⟩
  · cases br with
    | pass =>
      exact ((hexception.nodes _ (hn₁.trans hn₂)).trans (hfail.nodes _ hn₁)).trans hpass.node
    | fail => exact (hexception.nodes _ hn₂).trans hfail.node
    | exception => exact hexception.node
  · cases br with
    | pass =>
      exact hpass.buffer.congr ((hexception.buffers _ (hb₁.trans hb₂)).trans (hfail.buffers _ hb₁))
    | fail => exact hfail.buffer.congr (hexception.buffers _ hb₂)
    | exception => exact hexception.buffer
  · cases br <;> cases br'
    · rfl
    · exact absurd heq hb₁.ne
    · exact absurd heq (hb₁.trans hb₂).ne
    · exact absurd heq hb₁.ne'
    · rfl
    · exact absurd heq hb₂.ne
    · exact absurd heq (hb₁.trans hb₂).ne'
    · exact absurd heq hb₂.ne'
    · rfl
  · cases br with
    | pass => exact ⟨le_rfl, le_rfl⟩
    | fail => exact ⟨hn₁.le, hb₁.le⟩
    | exception => exact ⟨(hn₁.trans hn₂).le, (hb₁.trans hb₂).le⟩
  · rw [hexception.nodes p (hp.trans (hn₁.trans hn₂)), hfail.nodes p (hp.trans hn₁),
      hpass.nodes p hp]
  · rw [hexception.buffers b (hb.trans (hb₁.trans hb₂)), hfail.buffers b (hb.trans hb₁),
      hpass.buffers b hb]

/-- Three new leaves under the node, which has their pointers and a rule. -/
theorem makeRule_spec {made : Bool} (h : Opened s self b c t 0)
    (hrun : makeRule strategy self b depth s = .ok (made, s')) :
    ∃ rule, strategy.getRule t depth = .ok rule ∧ made = rule.isSome ∧
      (rule = none → Opened s' self b c t 0) ∧
      ∀ r, rule = some r → ∃ leaf, Splitting s' self r leaf c 0 ∧ s'.buffers.get b = some t ∧
        ∀ br, (leaf br).buffer ≠ b := by
  unfold makeRule at hrun
  obtain ⟨rule, s₁, h₁, hrun⟩ := bind_ok_iff.mp hrun
  obtain ⟨hquiet, hnodes⟩ := onBuffer_quiet h₁
  have hrule := of_onBuffer h₁ h.first
  replace h := h.congr hnodes hquiet.buffers
  cases rule with
  | none =>
    cases hrun
    exact ⟨none, hrule, rfl, fun _ => h, nofun⟩
  | some r =>
    obtain ⟨⟨n, hn, -, hbuffer, -, -⟩, hfirst, hnew, -⟩ := h
    have hlt := Heap.lt_next hn
    have hb := Heap.lt_next hfirst
    have hc := hnew.lt_next
    obtain ⟨pass, s₂, h₂, hrun⟩ := bind_ok_iff.mp hrun
    obtain ⟨fail, s₃, h₃, hrun⟩ := bind_ok_iff.mp hrun
    obtain ⟨exception, s₄, h₄, hrun⟩ := bind_ok_iff.mp hrun
    obtain ⟨m, s₅, h₅, hrun⟩ := bind_ok_iff.mp hrun
    obtain ⟨u, s₆, h₆, hrun⟩ := bind_ok_iff.mp hrun
    cases hrun
    obtain ⟨rfl, hpass⟩ := newChild_spec h₂
    obtain ⟨rfl, hfail⟩ := newChild_spec h₃
    obtain ⟨rfl, hexception⟩ := newChild_spec h₄
    obtain ⟨hm, rfl⟩ := of_read h₅
    obtain rfl := of_writeNode h₆ hm
    let before : Branch → ClusterStore := Branch.elim s₁ s₂ s₃
    obtain ⟨hnode, hholds, hdistinct, hge, hnodes', hbuffers'⟩ :=
      newLeaves_spec (r := before) hpass hfail hexception
    have hmn : m = n := Option.some.inj (hm.symm.trans ((hnodes' self hlt).trans hn))
    have hapart : ∀ br, (newLeaves before br).node ≠ self := fun br => (hlt.trans_le (hge br).1).ne'
    refine ⟨some r, hrule, rfl, nofun, ?_⟩
    rintro _ ⟨⟩
    refine ⟨newLeaves before, ⟨⟨_, Heap.get_set_self (Heap.lt_next hm), hmn ▸ hbuffer, rfl,
      fun br => by cases br <;> rfl⟩, ⟨fun br => ⟨_, (Heap.get_set_of_ne (hapart br)).trans
      (hnode br), rfl, rfl, fun br => by cases br <;> rfl⟩, hdistinct, fun _ => 0, hholds, rfl⟩,
      hapart, hnew.congr (hbuffers' c hc), fun br => (hc.trans_le (hge br).2).ne'⟩,
      (hbuffers' b hb).trans hfirst, fun br => (hb.trans_le (hge br).2).ne'⟩

/-- The pages of the split buffer are added to the new one. -/
theorem addPages_opened {u : Unit} {pages : List Page} (h : Opened s self b c t N)
    (hM : t.Holds M) {s₁ : ClusterStore} (hpages : bufferPages b s = .ok (pages, s₁))
    (hrun : addPages (some c) pages s₁ = .ok (u, s')) : Opened s' self b c t (M + N) := by
  obtain ⟨rfl, hnodes, hbuffers⟩ := bufferPages_spec ⟨t, h.first, hM⟩ hpages
  have h₁ := h.congr hnodes hbuffers
  obtain ⟨htouch, hnew⟩ := addPages_spec h₁.new hrun
  exact ⟨htouch.nodes ▸ h₁.node, (htouch.other b h₁.apart).trans h₁.first, hnew, h₁.apart⟩

/-- Without a rule, the pages are put back. -/
theorem keepItems_spec (h : Opened s self b c t N) (hM : t.Holds M)
    (hrun : keepItems self b s = .ok (k, s')) : Opened s' self b c t (M + N) := by
  obtain ⟨n, hn, -, hbuffer, -, -⟩ := h.node
  unfold keepItems at hrun
  rw [bind_ok (read_ok hn), hbuffer] at hrun
  obtain ⟨size, s₁, h₁, hrun⟩ := bind_ok_iff.mp hrun
  obtain ⟨u, s₂, h₂, hrun⟩ := bind_ok_iff.mp hrun
  obtain ⟨pages, s₃, h₃, hrun⟩ := bind_ok_iff.mp hrun
  obtain ⟨v, s₄, h₄, hrun⟩ := bind_ok_iff.mp hrun
  obtain ⟨size', s₅, h₅, hrun⟩ := bind_ok_iff.mp hrun
  obtain ⟨w, s₆, h₆, hrun⟩ := bind_ok_iff.mp hrun
  cases hrun
  obtain ⟨-, hnodes₁, hbuffers₁⟩ := bufferSize_spec ⟨t, h.first, hM⟩ h₁
  obtain ⟨-, rfl⟩ := of_require h₂
  have hadded := addPages_opened (h.congr hnodes₁ hbuffers₁) hM h₃ h₄
  obtain ⟨-, hnodes₅, hbuffers₅⟩ := bufferSize_spec hadded.new h₅
  obtain ⟨-, rfl⟩ := of_require h₆
  exact hadded.congr hnodes₅ hbuffers₅

/-- The split buffer is still there, and its pages are added once more. -/
theorem afterSplit_opened (h : Opened s self b c t N) (hM : t.Holds M) {result : ℕ}
    (hrun : afterSplit self result s = .ok (k, s')) : Opened s' self b c t (M + N) := by
  obtain ⟨n, hn, hrule, hbuffer, hsplit, -⟩ := h.node
  unfold afterSplit at hrun
  rw [bind_ok (read_ok hn), hrule, hbuffer, hsplit] at hrun
  obtain ⟨pages, s₁, h₁, hrun⟩ := bind_ok_iff.mp hrun
  obtain ⟨u, s₂, h₂, hrun⟩ := bind_ok_iff.mp hrun
  obtain ⟨size, s₃, h₃, hrun⟩ := bind_ok_iff.mp hrun
  obtain ⟨v, s₄, h₄, hrun⟩ := bind_ok_iff.mp hrun
  cases hrun
  have hadded := addPages_opened h hM h₁ h₂
  obtain ⟨-, hnodes, hbuffers⟩ := bufferSize_spec hadded.new h₃
  obtain ⟨-, rfl⟩ := of_require h₄
  exact hadded.congr hnodes hbuffers

theorem requireItems_read {o : Option Ptr} {u : Unit} (hrun : requireItems o s = .ok (u, s')) :
    s'.nodes = s.nodes ∧ s'.buffers = s.buffers := by
  unfold requireItems at hrun
  cases o with
  | none => cases hrun
  | some ptr =>
    obtain ⟨n, s₁, h₁, hsize⟩ := bind_ok_iff.mp hrun
    obtain ⟨-, rfl⟩ := of_read h₁
    cases hbuffer : n.itemBuffer with
    | none =>
      rw [hbuffer] at hsize
      cases hsize
    | some b =>
      rw [hbuffer] at hsize
      obtain ⟨size, s₂, h₂, hrequire⟩ := bind_ok_iff.mp hsize
      obtain ⟨-, rfl⟩ := of_require hrequire
      obtain ⟨hquiet, hnodes⟩ := onBuffer_quiet h₂
      exact ⟨hnodes, hquiet.buffers⟩

/-- With a rule, the end of a split only looks at the leaves. -/
theorem afterSplit_read {result : ℕ} (hn : s.nodes.get self = some n) (hrule : n.rule.isSome)
    (hrun : afterSplit self result s = .ok (k, s')) :
    s'.nodes = s.nodes ∧ s'.buffers = s.buffers := by
  unfold afterSplit at hrun
  rw [bind_ok (read_ok hn), if_pos hrule] at hrun
  obtain ⟨u, s₁, h₁, hrun⟩ := bind_ok_iff.mp hrun
  obtain ⟨v, s₂, h₂, hrun⟩ := bind_ok_iff.mp hrun
  obtain ⟨w, s₃, h₃, hrun⟩ := bind_ok_iff.mp hrun
  cases hrun
  obtain ⟨-, rfl⟩ := of_require h₁
  obtain ⟨hnodes₂, hbuffers₂⟩ := requireItems_read h₂
  obtain ⟨hnodes₃, hbuffers₃⟩ := requireItems_read h₃
  exact ⟨hnodes₃.trans hnodes₂, hbuffers₃.trans hbuffers₂⟩

/-! ## Whole splits -/

/-- Where the items of a leaf are after a split: in new leaves, laid out again, if there is a rule,
    and twice in the buffer of the node if there is none. -/
theorem split_spec (hn : s.nodes.get self = some n) (hchild : ∀ br, n.child br = none)
    (hrule : n.rule = none) (hsplit : n.splitBuffer = none) (hbuffer : n.itemBuffer = some b)
    (ht : s.buffers.get b = some t) (hM : t.Holds M) (hschema : ∀ p ∈ M, p.schema = S)
    (hrun : split strategy root maxSplitDepth fuel self s = .ok (k, s')) :
    ∃ depth rule, n.getTreeDepth fuel self root s = .ok (depth, s) ∧
      strategy.getRule t depth = .ok rule ∧ 0 < (M.map Page.size).sum ∧
      (rule = none → s'.Contains (some self) (itemsOf (M + M))) ∧
      (rule.isSome → Inside S → s'.Contains (some self) (relaidItemsOf M)) := by
  unfold split at hrun
  rw [bind_ok (read_ok hn)] at hrun
  obtain ⟨depth, s₁, h₁, hrest⟩ := bind_ok_iff.mp hrun
  obtain rfl := getTreeDepth_read h₁
  obtain ⟨o, s₂, h₂, htaken⟩ := bind_ok_iff.mp hrest
  obtain ⟨rfl, c, hopened⟩ := firstBuffer_spec hn hchild hrule hsplit hbuffer ht h₂
  obtain ⟨result, s₃, h₃, hafter⟩ := bind_ok_iff.mp htaken
  unfold splitItems at h₃
  obtain ⟨size, s₄, h₄, hsized⟩ := bind_ok_iff.mp h₃
  obtain ⟨rfl, hnodes, hbuffers⟩ := bufferSize_spec ⟨t, hopened.first, hM⟩ h₄
  obtain ⟨u, s₅, h₅, hrequired⟩ := bind_ok_iff.mp hsized
  obtain ⟨hsize, rfl⟩ := of_require h₅
  obtain ⟨made, s₆, h₆, hmoved⟩ := bind_ok_iff.mp hrequired
  obtain ⟨rule, hgetRule, hmade, hnone, hsome⟩ := makeRule_spec (hopened.congr hnodes hbuffers) h₆
  refine ⟨depth, rule, h₁, hgetRule, hsize, fun hrule => ?_, fun hrule hin => ?_⟩
  · obtain rfl : made = false := by rw [hmade, hrule]; rfl
    have hkept := keepItems_spec (hnone hrule) hM hmoved
    obtain ⟨⟨m, hm, -, hmbuffer, -, hmchild⟩, -, hnew, -⟩ := afterSplit_opened hkept hM hafter
    rw [add_zero] at hnew
    exact contains_leaf hm hmchild hmbuffer hnew
  · obtain rfl : made = true := hmade.trans hrule
    obtain ⟨r, rfl⟩ := Option.isSome_iff_exists.mp hrule
    obtain ⟨leaf, hsplitting, hfirst, hother⟩ := hsome r rfl
    obtain ⟨rows, s₇, h₇, hlast⟩ := bind_ok_iff.mp hmoved
    obtain ⟨rows', s₈, h₈, hreturn⟩ := bind_ok_iff.mp hlast
    cases hreturn
    obtain ⟨c', hall⟩ := hsplitting.transferRecursive hin ⟨t, hfirst, hM⟩ hother hschema h₇
    rw [add_zero] at hall
    obtain ⟨hcontains, m, hm, hmrule⟩ := hall.last hin h₈
    obtain ⟨hnodes', hbuffers'⟩ := afterSplit_read hm (by rw [hmrule]; rfl) hafter
    exact hcontains.congr hnodes' hbuffers'

theorem card_itemsOf (M : Multiset Page) : Multiset.card (itemsOf M) = (M.map Page.size).sum := by
  rw [itemsOf, Multiset.card_bind]
  congr 1
  refine Multiset.map_congr rfl fun p _ => ?_
  rw [Function.comp_apply, items, Multiset.coe_card, List.length_map, rows, List.length_map,
    List.length_range]

/-- Pages that have items do not have them twice. -/
theorem itemsOf_double_ne (h : 0 < (M.map Page.size).sum) : itemsOf M ≠ itemsOf (M + M) := by
  intro heq
  have hcard := congrArg Multiset.card heq
  rw [card_itemsOf, card_itemsOf, Multiset.map_add, Multiset.sum_add] at hcard
  omega

/-- Rows with packed columns stay as they are. -/
theorem relaidItemsOf_packed (hschema : ∀ p ∈ M, p.schema = S) (h : Packed S) :
    relaidItemsOf M = itemsOf M := by
  refine Multiset.bind_congr fun p hp => congrArg _ (List.map_congr_left fun r hr => ?_)
  obtain ⟨rfl, hlt⟩ := mem_rows hr
  exact relaid_of_packed ((hschema _ hp).symm ▸ h) hlt

/-- When a split conserves the items of a leaf: there must be a rule, and it is enough if the
    columns are packed then. If they are inside of the row, the rest is that laying the rows out
    again gives the same items. -/
theorem split_conserves_iff (hn : s.nodes.get self = some n) (hchild : ∀ br, n.child br = none)
    (hrule : n.rule = none) (hsplit : n.splitBuffer = none) (hbuffer : n.itemBuffer = some b)
    (ht : s.buffers.get b = some t) (hM : t.Holds M) (hschema : ∀ p ∈ M, p.schema = S)
    (hrun : split strategy root maxSplitDepth fuel self s = .ok (k, s')) :
    ∃ depth rule, n.getTreeDepth fuel self root s = .ok (depth, s) ∧
      strategy.getRule t depth = .ok rule ∧
      (s.Conserves s' self → rule.isSome) ∧
      (rule.isSome → Packed S → s.Conserves s' self) ∧
      (Inside S → (s.Conserves s' self ↔ rule.isSome ∧ relaidItemsOf M = itemsOf M)) := by
  obtain ⟨depth, rule, hdepth, hgetRule, hsize, hnone, hsome⟩ :=
    split_spec hn hchild hrule hsplit hbuffer ht hM hschema hrun
  have hbefore : s.Contains (some self) (itemsOf M) :=
    contains_leaf hn hchild hbuffer ⟨t, ht, hM⟩
  have hmade : s.Conserves s' self → rule.isSome := by
    rintro ⟨X, hX, hX'⟩
    obtain rfl := hX.unique hbefore
    rw [← Option.ne_none_iff_isSome]
    exact fun hr => itemsOf_double_ne hsize (hX'.unique (hnone hr))
  have hiff : Inside S → (s.Conserves s' self ↔ rule.isSome ∧ relaidItemsOf M = itemsOf M) := by
    intro hin
    constructor
    · rintro ⟨X, hX, hX'⟩
      have hr := hmade ⟨X, hX, hX'⟩
      exact ⟨hr, ((hsome hr hin).unique hX').trans (hX.unique hbefore)⟩
    · rintro ⟨hr, heq⟩
      exact ⟨_, hbefore, heq ▸ hsome hr hin⟩
  refine ⟨depth, rule, hdepth, hgetRule, hmade, fun hr hpacked => ?_, hiff⟩
  exact (hiff (inside_of_packed hpacked)).mpr ⟨hr, relaidItemsOf_packed hschema hpacked⟩

/-- A page with the rows `1.0` and `2.0`. -/
def twoRows : Page where
  schema := [.doubleColumn "a" 0]
  labelNames := ["x", "y"]
  values := JavaBytes.toByteArray 0x3ff0000000000000 ++ JavaBytes.toByteArray 0x4000000000000000
  refs := []
  labels := [0, 1]
  nodup := List.nodup_singleton _
  length_values := rfl
  length_refs := rfl
  labels_lt := by decide

/-- A buffer with this page. -/
def twoRowsBuffer : PageTree where
  nodes := ⟨[some { parent := none, value := 0, size := 2 }]⟩
  pages := ⟨[some twoRows]⟩

/-- A root that is a leaf with this buffer. -/
def twoRowsStore : ClusterStore where
  nodes := ⟨[some { parent := none, itemBuffer := some 0 }]⟩
  buffers := ⟨[some twoRowsBuffer]⟩
  choices := fun _ _ => false

/-- A strategy that always has the same outcome. -/
def always (rule : Option RuleData) : ClassificationStrategy where
  getRule _ _ := .ok rule
  split _ _ := .ok false

theorem holds_twoRowsBuffer : twoRowsBuffer.Holds {twoRows} := by
  obtain ⟨t, hadd, ht⟩ := PageTree.holds_create.add (fun _ => false) twoRows
  have hbuffer : PageTree.create.add PageTreeNode.equals (fun _ => false) twoRows =
      .ok ((), twoRowsBuffer) := by decide +kernel
  rw [hadd _ PageTreeNode.sameLinks_equals] at hbuffer
  cases hbuffer
  exact ht

theorem of_map_fst {result : Except Failure (ℕ × ClusterStore)}
    (h : result.map Prod.fst = .ok k) : ∃ s', result = .ok (k, s') := by
  cases result with
  | error e => cases h
  | ok r =>
    cases h
    exact ⟨r.2, rfl⟩

/-- The rule `a > 1.5` puts one row in the pass leaf and the other one in the fail leaf. -/
theorem split_conserves_twoRows :
    ∃ s', split (always (some (ruleFn (metricFn "a") (JavaBytes.longBitsToDouble
      0x3ff8000000000000)))) 0 0 5 0 twoRowsStore = .ok (2, s') ∧ twoRowsStore.Conserves s' 0 := by
  have hrun : (split (always (some (ruleFn (metricFn "a") (JavaBytes.longBitsToDouble
      0x3ff8000000000000)))) 0 0 5 0 twoRowsStore).map Prod.fst = .ok 2 := by decide +kernel
  obtain ⟨s', hsplit⟩ := of_map_fst hrun
  refine ⟨s', hsplit, ?_⟩
  obtain ⟨depth, rule, -, hrule, -, hpacked, -⟩ := split_conserves_iff rfl (fun br => by
    cases br <;> rfl) rfl rfl rfl rfl holds_twoRowsBuffer (S := twoRows.schema) (by simp) hsplit
  cases hrule
  refine hpacked rfl fun c hc => ?_
  obtain rfl := List.mem_singleton.mp hc
  rfl

/-- Without a rule the node has both rows twice. -/
theorem split_doubles :
    ∃ s', split (always none) 0 0 5 0 twoRowsStore = .ok (0, s') ∧
      ¬twoRowsStore.Conserves s' 0 := by
  have hrun : (split (always none) 0 0 5 0 twoRowsStore).map Prod.fst = .ok 0 := by
    decide +kernel
  obtain ⟨s', hsplit⟩ := of_map_fst hrun
  have hchild : ∀ br, ({ parent := none, itemBuffer := some 0 } :
      ClassificationTreeNode).child br = none := fun br => by cases br <;> rfl
  obtain ⟨depth, rule, -, hrule, hsize, hnone, -⟩ := split_spec rfl hchild rfl rfl rfl rfl
    holds_twoRowsBuffer (S := twoRows.schema) (by simp) hsplit
  cases hrule
  refine ⟨s', hsplit, fun ⟨X, hX, hX'⟩ => itemsOf_double_ne hsize ?_⟩
  have hbefore : twoRowsStore.Contains (some 0) (itemsOf {twoRows}) :=
    contains_leaf rfl hchild rfl ⟨_, rfl, holds_twoRowsBuffer⟩
  exact (hbefore.unique hX).trans (hX'.unique (hnone rfl))

end ClassificationTreeNode

end ReSTM
