import ReSTM.Clustering.Buffers
import ReSTM.Clustering.PageItems

/-!
# The transfer of items

The items of a node are those in its buffer and in the buffers of its descendants. A split that
finds a rule moves them into three new leaves. Each page goes through one union on the way, so that
its rows are laid out again.

* `ClusterStore.Contains`: the items of a node, and `Conserves`: they are the same before and after.
* `ClusterStore.route_items`: a page that is routed adds its items.
* `ClusterStore.Splitting`: what holds while items are moved, with one lemma for each step.
-/

namespace ReSTM

open HeapModel Nodes Page WP

namespace ClusterStore

variable {s s' s'' : ClusterStore} {b self : Ptr} {M : Multiset Page} {n : ClassificationTreeNode}
  {o : Option Ptr} {X Y : Multiset Item}

/-! ## The items under a node -/

/-- The pages of a buffer, if there is one. -/
def HoldsIn (s : ClusterStore) (o : Option Ptr) (M : Multiset Page) : Prop :=
  match o with
  | some b => s.Holds b M
  | none => M = 0

/-- The items in the buffers of a node and of its descendants. -/
inductive Contains (s : ClusterStore) : Option Ptr → Multiset Item → Prop
  | none : Contains s none 0
  | node {ptr : Ptr} {n : ClassificationTreeNode} {M : Multiset Page} {X : Branch → Multiset Item}
      (hn : s.nodes.get ptr = some n) (hbuffer : s.HoldsIn n.itemBuffer M)
      (hchild : ∀ b, Contains s (n.child b) (X b)) :
      Contains s (some ptr) (itemsOf M + (X .pass + X .fail + X .exception))

/-- A node has the same items before and after. -/
def Conserves (s s' : ClusterStore) (self : Ptr) : Prop :=
  ∃ X, s.Contains (some self) X ∧ s'.Contains (some self) X

theorem HoldsIn.unique {M' : Multiset Page} (h : s.HoldsIn o M) (h' : s.HoldsIn o M') : M = M' := by
  cases o with
  | none => exact Eq.trans h (Eq.symm h')
  | some b => exact Holds.unique h h'

theorem Contains.unique (h : s.Contains o X) (h' : s.Contains o Y) : X = Y := by
  induction h generalizing Y with
  | none =>
    cases h'
    rfl
  | @node ptr n M X hn hbuffer hchild ih =>
    cases h' with
    | @node _ n' M' X' hn' hbuffer' hchild' =>
      obtain rfl : n' = n := Option.some.inj (hn'.symm.trans hn)
      rw [hbuffer.unique hbuffer', ih .pass (hchild' .pass), ih .fail (hchild' .fail),
        ih .exception (hchild' .exception)]

theorem Contains.congr (h : s.Contains o X) (hnodes : s'.nodes = s.nodes)
    (hbuffers : s'.buffers = s.buffers) : s'.Contains o X := by
  induction h with
  | none => exact .none
  | @node ptr n M X hn hbuffer hchild ih =>
    refine .node (by rw [hnodes, hn]) ?_ ih
    cases hb : n.itemBuffer with
    | none =>
      rw [hb] at hbuffer
      exact hbuffer
    | some b =>
      rw [hb] at hbuffer
      exact Holds.congr hbuffer (by rw [hbuffers])

/-- The items of a leaf are those of its buffer. -/
theorem contains_leaf (hn : s.nodes.get self = some n) (hchild : ∀ b, n.child b = none)
    (hbuffer : n.itemBuffer = some b) (hM : s.Holds b M) :
    s.Contains (some self) (itemsOf M) := by
  have hnode : s.Contains (some self) (itemsOf M + (0 + 0 + 0)) :=
    .node (X := fun _ => 0) hn (by rw [hbuffer]; exact hM) fun b => by
      rw [hchild]
      exact .none
  rwa [add_zero, add_zero, add_zero] at hnode

/-! ## Three leaves -/

/-- Every index takes one of the branches. -/
theorem add_branches {α : Type} (I : List ℕ) (f : ℕ → Branch) (g : ℕ → α) :
    (((I.filter fun i => f i = .pass).map g : List α) : Multiset α) +
      ((I.filter fun i => f i = .fail).map g : List α) +
      ((I.filter fun i => f i = .exception).map g : List α) = (I.map g : List α) := by
  induction I with
  | nil => rfl
  | cons i I ih =>
    rw [List.map_cons, ← Multiset.cons_coe, ← ih]
    cases hf : f i with
    | pass => simp [hf, ← Multiset.cons_coe]
    | fail => simp [hf, ← Multiset.cons_coe]
    | exception => simp [hf, ← Multiset.cons_coe]

/-- The items of three buffers. -/
def branchItems (M : Branch → Multiset Page) : Multiset Item :=
  itemsOf (M .pass) + itemsOf (M .fail) + itemsOf (M .exception)

/-- Three leaves, with buffers of their own, that have the items `X`. -/
structure Leaves (s : ClusterStore) (leaf : Branch → Leaf) (X : Multiset Item) : Prop where
  node : ∀ b, ∃ n, s.nodes.get (leaf b).node = some n ∧ n.rule = none ∧
    n.itemBuffer = some (leaf b).buffer ∧ ∀ br, n.child br = none
  distinct : ∀ b b', (leaf b).buffer = (leaf b').buffer → b = b'
  items : ∃ M : Branch → Multiset Page, (∀ b, s.Holds (leaf b).buffer (M b)) ∧ X = branchItems M

/-- A node with a rule and these leaves. -/
structure Divides (n : ClassificationTreeNode) (rule : RuleData) (leaf : Branch → Leaf) : Prop where
  rule : n.rule = some rule
  child : ∀ b, n.child b = some (leaf b).node

variable {rule : RuleData} {leaf : Branch → Leaf} {strategy : ClassificationStrategy} {root : Ptr}
  {maxSplitDepth : ℤ} {fuel k : ℕ} {p : Page} {S : List BaseColumn}

theorem Leaves.rests (h : Leaves s leaf X) (b : Branch) :
    Rests (fun _ : Unit => rule) s (leaf b).node (.leaf (leaf b)) := by
  obtain ⟨n, hn, hrule, hbuffer, -⟩ := h.node b
  exact .leaf hn hrule hbuffer

/-- The items of the pages that are placed in a leaf. -/
theorem items_of_placed {I : List ℕ} {new : Multiset Page} (h : Placed p I new)
    (hin : Inside p.schema) :
    itemsOf new = (I.map fun i => (PageRow.mk p i).item : List Item) := by
  rcases h with ⟨rfl, rfl⟩ | ⟨v, rfl, hpart⟩
  · rfl
  · rw [itemsOf, Multiset.singleton_bind]
    exact items_of_part hpart hin

/-- `route` adds the items of the page. -/
theorem route_items (h : Leaves s leaf X) (hn : Divides n rule leaf) (hin : Inside p.schema)
    (hrun : n.route (fun page ptr => do
      ClassificationTreeNode.add strategy root maxSplitDepth fuel (← onNodes (read ptr)) page ptr)
      p s = .ok (k, s')) :
    Leaves s' leaf (p.items + X) ∧ SameNodes s s' ∧
      ∀ b, (∀ br, (leaf br).buffer ≠ b) → s'.buffers.get b = s.buffers.get b := by
  have hrests : ∀ b, Rests (fun _ : Unit => rule) s (leaf b).node (.leaf (leaf b)) := h.rests
  obtain ⟨hnode, hdistinct, M, hM, rfl⟩ := h
  have hdistinct' : (DecisionTree.node () fun b => .leaf (leaf b)).DistinctBy Leaf.buffer :=
    ⟨fun _ => trivial, fun b b' l l' hl hl' heq => hdistinct b b' (hl ▸ hl' ▸ heq)⟩
  have hplaces : Places s s' (.node () fun b => .leaf (leaf b)) p (List.range p.size)
      fun i _ => rule.eval (PageRow.mk p i).keyValue := by
    refine ClassificationTreeNode.route_places hn.rule hn.child hdistinct' (fun _ => rfl) ?_
      (Part.refl p) hin hrests (fun b l hl => ⟨M b, hl ▸ hM b⟩) hrun
    intro b s s' page I k hrests hbuffered hpart hadd
    obtain ⟨m, s₁, h₁, h₂⟩ := bind_ok_iff.mp hadd
    obtain ⟨hm, rfl⟩ := of_read h₁
    exact ClassificationTreeNode.add_places trivial (fun _ _ => rfl) hrests hbuffered hm hpart hin h₂
  have hleaf : ∀ b, ∃ new, itemsOf new = (((List.range p.size).filter fun i =>
      rule.eval (PageRow.mk p i).keyValue = b).map fun i => (PageRow.mk p i).item : List Item) ∧
      s'.Holds (leaf b).buffer (new + M b) := by
    intro b
    obtain ⟨new, hnew, hM'⟩ := hplaces.leaf (leaf b) ⟨b, rfl⟩ (M b) (hM b)
    refine ⟨new, ?_, hM'⟩
    rw [items_of_placed hnew hin]
    congr 2
    refine List.filter_congr fun i _ => decide_eq_decide.mpr ⟨fun heq => ?_, fun heq => ?_⟩
    · exact hdistinct _ _ (congrArg Leaf.buffer heq)
    · exact congrArg leaf heq
  choose new hnew hM' using hleaf
  refine ⟨⟨fun b => ?_, hdistinct, fun b => new b + M b, hM', ?_⟩, hplaces.nodes,
    fun b hb => hplaces.other b ?_⟩
  · obtain ⟨n, hn, hrule, hbuffer, hchild⟩ := hnode b
    obtain ⟨n', hn', hrule', hbuffer', hchild'⟩ := hplaces.nodes.get hn
    exact ⟨n', hn', hrule'.trans hrule, hbuffer'.trans hbuffer,
      fun br => (hchild' br).trans (hchild br)⟩
  · have hsum := add_branches (List.range p.size) (fun i => rule.eval (PageRow.mk p i).keyValue)
      fun i => (PageRow.mk p i).item
    have hp : p.items = ((List.range p.size).map fun i => (PageRow.mk p i).item : List Item) :=
      items_of_part (Part.refl p) hin
    have hadd : ∀ A B : Multiset Page, itemsOf (A + B) = itemsOf A + itemsOf B :=
      fun A B => Multiset.add_bind A B _
    rw [hp, ← hsum, branchItems, branchItems, hadd, hadd, hadd, hnew, hnew, hnew]
    ac_rfl
  · rintro l ⟨br, rfl⟩
    exact hb br

/-- Leaves that are kept, with their buffers. -/
theorem Leaves.frame (h : Leaves s leaf X)
    (hnodes : ∀ br, s'.nodes.get (leaf br).node = s.nodes.get (leaf br).node)
    (hbuffers : ∀ br, s'.buffers.get (leaf br).buffer = s.buffers.get (leaf br).buffer) :
    Leaves s' leaf X := by
  obtain ⟨hnode, hdistinct, M, hM, hX⟩ := h
  refine ⟨fun br => ?_, hdistinct, M, fun br => (hM br).congr (hbuffers br), hX⟩
  rw [hnodes br]
  exact hnode br

/-- The blocks add their items, laid out again. -/
theorem routePages_items {bs : List (List Page)} (h : Leaves s leaf X)
    (hn : Divides n rule leaf) (hin : Inside S) (hschema : ∀ p ∈ bs.flatten, p.schema = S)
    (hrun : ClassificationTreeNode.routePages strategy root maxSplitDepth fuel n bs s =
      .ok (k, s')) :
    Leaves s' leaf (relaidItemsOf bs.flatten + X) ∧ SameNodes s s' ∧
      ∀ b, (∀ br, (leaf br).buffer ≠ b) → s'.buffers.get b = s.buffers.get b := by
  induction bs generalizing s k X with
  | nil =>
    cases hrun
    refine ⟨?_, .refl _, fun _ _ => rfl⟩
    have hnil : relaidItemsOf ([] : List Page) = 0 := rfl
    rwa [List.flatten_nil, hnil, zero_add]
  | cons batch bs ih =>
    rw [List.flatten_cons, List.forall_mem_append] at hschema
    unfold ClassificationTreeNode.routePages at hrun
    cases hunion : Page.union batch with
    | error e =>
      rw [hunion] at hrun
      cases hrun
    | ok block =>
      rw [hunion] at hrun
      obtain ⟨block', s₀, h₀, hrun⟩ := bind_ok_iff.mp hrun
      cases h₀
      obtain ⟨k₁, s₁, h₁, hrun⟩ := bind_ok_iff.mp hrun
      obtain ⟨rows, s₂, h₂, hrun⟩ := bind_ok_iff.mp hrun
      cases hrun
      obtain ⟨hin', hitems⟩ := items_union hschema.1 hin hunion
      obtain ⟨hleaves, hnodes, hother⟩ := route_items h hn hin' h₁
      obtain ⟨hleaves', hnodes', hother'⟩ := ih hleaves hschema.2 h₂
      refine ⟨?_, hnodes.trans hnodes', fun b hb => (hother' b hb).trans (hother b hb)⟩
      have hadd : relaidItemsOf (batch ++ bs.flatten : List Page) =
          relaidItemsOf batch + relaidItemsOf bs.flatten := by
        rw [← Multiset.coe_add]
        exact Multiset.add_bind _ _ _
      have hsum : relaidItemsOf (batch ++ bs.flatten : List Page) + X =
          relaidItemsOf bs.flatten + (block.items + X) := by
        rw [hadd, ← hitems]
        ac_rfl
      rw [List.flatten_cons, hsum]
      exact hleaves'

/-! ## While items are moved -/

/-- The node has a rule and three leaves with the items `X`, and its own buffer is empty. -/
structure Splitting (s : ClusterStore) (ptr : Ptr) (rule : RuleData) (leaf : Branch → Leaf)
    (b : Ptr) (X : Multiset Item) : Prop where
  node : ∃ n, s.nodes.get ptr = some n ∧ n.itemBuffer = some b ∧ Divides n rule leaf
  leaves : Leaves s leaf X
  apart : ∀ br, (leaf br).node ≠ ptr
  empty : s.Holds b 0
  other : ∀ br, (leaf br).buffer ≠ b

theorem Divides.mono {n' : ClassificationTreeNode} (h : Divides n rule leaf)
    (hrule : n'.rule = n.rule) (hchild : ∀ b, n'.child b = n.child b) : Divides n' rule leaf :=
  ⟨hrule.trans h.rule, fun b => (hchild b).trans (h.child b)⟩

/-- A buffer is emptied into the leaves. -/
theorem Splitting.transfer {b c : Ptr} (h : Splitting s self rule leaf b X) (hin : Inside S)
    (hM : s.Holds c M) (hc : ∀ br, (leaf br).buffer ≠ c) (hschema : ∀ p ∈ M, p.schema = S)
    (hn : Divides n rule leaf) {pages : List Page} {s₁ : ClusterStore}
    (hdrain : drain c fuel s = .ok (pages, s₁))
    (hrun : ClassificationTreeNode.routePages strategy root maxSplitDepth fuel n (batches pages)
      s₁ = .ok (k, s')) : Splitting s' self rule leaf b (relaidItemsOf M + X) := by
  obtain ⟨⟨m, hm, hbuffer, hdivides⟩, hleaves, hapart, hempty, hother⟩ := h
  obtain ⟨rfl, htouch, hc₀⟩ := drain_spec hM hdrain
  have hleaves₁ : Leaves s₁ leaf X :=
    hleaves.frame (fun br => by rw [htouch.nodes]) fun br => htouch.other _ (hc br)
  have hempty₁ : s₁.Holds b 0 := by
    by_cases hbc : b = c
    · exact hbc ▸ hc₀
    · exact hempty.congr (htouch.other b hbc)
  obtain ⟨hleaves', hnodes, hkept⟩ := routePages_items hleaves₁ hn hin
    (by rw [flatten_batches]; exact hschema) hrun
  rw [flatten_batches] at hleaves'
  obtain ⟨m', hm', hrule', hbuffer', hchild'⟩ := hnodes.get (htouch.nodes ▸ hm)
  exact ⟨⟨m', hm', hbuffer'.trans hbuffer, hdivides.mono hrule' hchild'⟩, hleaves', hapart,
    hempty₁.congr (hkept b hother), hother⟩

/-- The buffers are exchanged. -/
theorem Splitting.exchange (h : Splitting s self rule leaf b X) {c : Ptr}
    (hrun : ClassificationTreeNode.transferBuffers self s = .ok (c, s')) :
    c = b ∧ s'.Holds b 0 ∧ ∃ b', Splitting s' self rule leaf b' X := by
  obtain ⟨⟨n, hn, hbuffer, hdivides⟩, hleaves, hapart, hempty, hother⟩ := h
  unfold ClassificationTreeNode.transferBuffers at hrun
  rw [bind_ok (read_ok hn), hbuffer] at hrun
  dsimp only at hrun
  rw [bind_ok (newBuffer_ok s)] at hrun
  obtain ⟨u, s₁, h₁, hrun⟩ := bind_ok_iff.mp hrun
  obtain rfl := of_writeNode h₁ hn
  cases hrun
  have hold : ∀ c M, s.Holds c M →
      (s.buffers.alloc PageTree.create).get c = s.buffers.get c := fun c M hc =>
    Heap.get_alloc_of_lt hc.lt_next
  obtain ⟨M, hM, -⟩ := hleaves.items
  refine ⟨rfl, hempty.congr (hold b 0 hempty), s.buffers.next,
    ⟨_, Heap.get_set_self (Heap.lt_next hn), rfl, hdivides.mono rfl fun br => by cases br <;> rfl⟩,
    hleaves.frame (fun br => Heap.get_set_of_ne (hapart br)) fun br => hold _ _ (hM br), hapart,
    holds_new rfl, fun br => (hM br).lt_next.ne⟩

theorem relaidItemsOf_zero : relaidItemsOf 0 = 0 := Multiset.zero_bind _

/-- All rounds of the transfer. -/
theorem Splitting.transferRecursive {b c : Ptr} {times : ℕ} (h : Splitting s self rule leaf b X)
    (hin : Inside S) (hM : s.Holds c M) (hc : ∀ br, (leaf br).buffer ≠ c)
    (hschema : ∀ p ∈ M, p.schema = S)
    (hrun : ClassificationTreeNode.transferRecursive strategy root maxSplitDepth fuel self times c
      s = .ok (k, s')) : ∃ b', Splitting s' self rule leaf b' (relaidItemsOf M + X) := by
  induction times generalizing s b c M X k with
  | zero => cases hrun
  | succ times ih =>
    unfold ClassificationTreeNode.transferRecursive at hrun
    obtain ⟨rows, s₁, h₁, hrun⟩ := bind_ok_iff.mp hrun
    obtain ⟨n, hn, -, hdivides⟩ := h.node
    unfold ClassificationTreeNode.transferAsync at h₁
    rw [bind_ok (read_ok hn)] at h₁
    obtain ⟨pages, s₂, h₂, h₃⟩ := bind_ok_iff.mp h₁
    have hmoved := h.transfer hin hM hc hschema hdivides h₂ h₃
    split_ifs at hrun
    · obtain ⟨c', s₄, h₄, hrun⟩ := bind_ok_iff.mp hrun
      obtain ⟨rest, s₅, h₅, hrun⟩ := bind_ok_iff.mp hrun
      cases hrun
      obtain ⟨rfl, hempty, b', hexchanged⟩ := hmoved.exchange h₄
      -- nobody has added items, so that the next rounds have nothing to move
      obtain ⟨b'', hrest⟩ := ih hexchanged hempty hmoved.other
        (fun p hp => absurd hp (Multiset.notMem_zero p)) h₅
      refine ⟨b'', ?_⟩
      rwa [relaidItemsOf_zero, zero_add] at hrest
    · cases hrun
      exact ⟨b, hmoved⟩

/-- The last pass leaves the items in the leaves. -/
theorem Splitting.last (h : Splitting s self rule leaf b X) (hin : Inside S)
    (hrun : ClassificationTreeNode.transferLast strategy root maxSplitDepth fuel self s =
      .ok (k, s')) :
    s'.Contains (some self) X ∧ ∃ n, s'.nodes.get self = some n ∧ n.rule = some rule := by
  obtain ⟨n, hn, hbuffer, hdivides⟩ := h.node
  unfold ClassificationTreeNode.transferLast at hrun
  rw [bind_ok (read_ok hn), hbuffer] at hrun
  obtain ⟨pages, s₁, h₁, hrun⟩ := bind_ok_iff.mp hrun
  obtain ⟨rows, s₂, h₂, hrun⟩ := bind_ok_iff.mp hrun
  have hmoved := h.transfer hin h.empty h.other
    (fun p hp => absurd hp (Multiset.notMem_zero p)) hdivides h₁ h₂
  rw [relaidItemsOf_zero, zero_add] at hmoved
  obtain ⟨m, hm, -, -⟩ := hmoved.node
  obtain ⟨u, s₃, h₃, hrun⟩ := bind_ok_iff.mp hrun
  obtain rfl := of_writeNode h₃ hm
  cases hrun
  obtain ⟨M, hM, hX⟩ := hmoved.leaves.items
  have hself : (s₂.nodes.set self
      (some { n with itemBuffer := none, splitBuffer := none })).get self =
      some { n with itemBuffer := none, splitBuffer := none } :=
    Heap.get_set_self (Heap.lt_next hm)
  refine ⟨?_, _, hself, hdivides.rule⟩
  rw [hX, branchItems, ← zero_add (itemsOf (M .pass) + _ + _)]
  refine .node (M := 0) (X := fun br => itemsOf (M br)) hself rfl fun br => ?_
  obtain ⟨c, hc, -, hcbuffer, hchild⟩ := hmoved.leaves.node br
  have hptr : ({ n with itemBuffer := none, splitBuffer := none } :
      ClassificationTreeNode).child br = some (leaf br).node :=
    (show _ = n.child br by cases br <;> rfl).trans (hdivides.child br)
  rw [hptr]
  exact contains_leaf ((Heap.get_set_of_ne (hmoved.apart br)).trans hc) hchild hcbuffer (hM br)

end ClusterStore

end ReSTM
