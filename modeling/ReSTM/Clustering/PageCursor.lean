import ReSTM.Clustering.PageStream

/-!
# Ids and cursors of a page tree

The id of a node is a 64-bit number that doubles at every step from the root, so that it is refused
as soon as a node lies 63 or more steps below the root, and exact for every other node. `follow` is
the iteration over the cursors of `nextBlock`, from one to the next until a cursor is negative.

* `PageTree.getTreeId_exact`: an id leads back to its node, or is refused.
* `PageTree.Consistent.follow_all`: the iteration has the page of every node, in order.
-/

namespace ReSTM

open HeapModel PageTree

theorem treeId_lt_two_pow (bits : List Bool) : treeId bits < 2 ^ (bits.length + 1) := by
  induction bits with
  | nil => exact Nat.one_lt_two
  | cons b bits ih =>
    have hcons : treeId (b :: bits) = treeId bits * 2 + b.toNat := rfl
    have hb : b.toNat < 2 := by cases b <;> decide
    rw [List.length_cons, Nat.pow_succ]
    omega

/-- The ids that fit are those of fewer than 63 steps. -/
theorem treeId_lt_iff (bits : List Bool) : treeId bits < 2 ^ 63 ↔ bits.length < 63 := by
  constructor
  · intro hlt
    exact (Nat.pow_lt_pow_iff_right (by decide)).mp ((two_pow_le_treeId bits).trans_lt hlt)
  · intro hlt
    exact (treeId_lt_two_pow bits).trans_le (Nat.pow_le_pow_right (by decide) hlt)

/-- `empty` (`Page.scala`, lines 30–31). -/
def Page.empty : Page := ⟨[], [], [], [], [], List.nodup_nil, rfl, rfl, by simp⟩

namespace PageTree

variable {t : PageTree} {F : Finset Ptr} {L : List Ptr} {p q : Ptr} {i : ℕ}

/-- The id of a node is refused if the node is 63 or more steps below the root, and leads back to
    the node otherwise. -/
theorem getTreeId_exact (hl : Linked t.nodes none (some rootPtr) F) (hp : p ∈ F) :
    ∃ root n bits, t.nodes.get rootPtr = some root ∧ t.nodes.get p = some n ∧
      Above t.nodes rootPtr p bits ∧
      ((∃ e, n.getTreeId t.fuel p t = .error e) ↔ 63 ≤ bits.length) ∧
      ∀ id t', n.getTreeId t.fuel p t = .ok (id, t') →
        t' = t ∧ root.getByTreeId id rootPtr t = .ok (p, t) := by
  obtain ⟨root, hroot, -⟩ := hl.root_spec
  obtain ⟨n, hn⟩ := hl.stored hp
  obtain ⟨bits, habove, hfuel⟩ := above_root hl hp
  have hid := PageTreeNode.getTreeId_eq habove hn hfuel
  refine ⟨root, n, bits, hroot, hn, habove, ?_⟩
  by_cases hlt : treeId bits < 2 ^ 63
  · rw [if_pos hlt] at hid
    have hdepth := (treeId_lt_iff bits).mp hlt
    constructor
    · constructor
      · rintro ⟨e, he⟩
        rw [hid] at he
        cases he
      · intro hge
        omega
    · intro id t' hok
      rw [hid] at hok
      cases hok
      exact ⟨rfl, PageTreeNode.getByTreeId_eq habove hroot hlt⟩
  · rw [if_neg hlt] at hid
    have hdepth := mt (treeId_lt_iff bits).mpr hlt
    constructor
    · exact ⟨fun _ => Nat.not_lt.mp hdepth, fun _ => ⟨_, hid⟩⟩
    · intro id t' hok
      rw [hid] at hok
      cases hok

/-! A root that has a child on the left only, with pages that have no rows. -/

/-- A tree of two nodes. -/
def twoNodes : PageTree where
  nodes := ⟨[some { parent := none, value := 0, size := 0, left := some 1 },
    some { parent := some 0, value := 1, size := 0 }]⟩
  pages := ⟨[some Page.empty, some Page.empty]⟩

theorem linked_twoNodes : Linked twoNodes.nodes none (some rootPtr) {0, 1} := by
  have hchild : Linked twoNodes.nodes (some 0) (some 1) (insert 1 (∅ ∪ ∅)) :=
    .node rfl rfl .nil .nil (Finset.disjoint_empty_left ∅) (Finset.notMem_empty 1)
  have hroot : Linked twoNodes.nodes none (some 0) (insert 0 (insert 1 (∅ ∪ ∅) ∪ ∅)) :=
    .node (n := (⟨none, 0, 0, some 1, none⟩ : PageTreeNode)) rfl rfl hchild .nil
      (Finset.disjoint_empty_right _) (by decide)
  exact hroot

theorem getTreeId_exact_child : ∃ root n bits, twoNodes.nodes.get rootPtr = some root ∧
    twoNodes.nodes.get 1 = some n ∧ Above twoNodes.nodes rootPtr 1 bits ∧
    ((∃ e, n.getTreeId twoNodes.fuel 1 twoNodes = .error e) ↔ 63 ≤ bits.length) ∧
    ∀ id t', n.getTreeId twoNodes.fuel 1 twoNodes = .ok (id, t') →
      t' = twoNodes ∧ root.getByTreeId id rootPtr twoNodes = .ok (1, twoNodes) :=
  getTreeId_exact linked_twoNodes (by decide)

/-! ## From cursor to cursor -/

/-- The blocks from a cursor on, until the next cursor is negative. -/
def follow (t : PageTree) : ℕ → ℤ → Except Failure (List (Option Page))
  | 0, _ => throw Nodes.stackOverflow
  | fuel + 1, cursor =>
    if cursor < 0 then return []
    else do
      let (next, block) ← t.nextBlock cursor
      return block :: (← t.follow fuel next)

/-- No node is 63 or more steps below the root. -/
def Shallow (t : PageTree) (F : Finset Ptr) : Prop :=
  ∀ q ∈ F, ∀ bits, Above t.nodes rootPtr q bits → bits.length < 63

theorem CursorAt.nonneg {cursor : ℤ} (h : CursorAt t L i cursor) : 0 ≤ cursor := by
  rcases h with ⟨rfl, -⟩ | ⟨q, bits, -, -, rfl, -⟩ <;> omega

/-- The cursors of a shallow tree go through the places of the order. -/
theorem Consistent.nextBlock_of_shallow (h : Consistent t F) (hshallow : Shallow t F)
    (hl : Linked t.nodes none (some rootPtr) F) (hi : InOrder t.nodes (some rootPtr) L)
    (hL : (L : Multiset Ptr) = F.val) {cursor : ℤ} (hq : L[i]? = some q)
    (hcursor : CursorAt t L i cursor) : ∃ v next, t.pageOf q = some v ∧
      t.nextBlock cursor = .ok (next, some v) ∧
      (L[i + 1]? = none ∧ next = -1 ∨ ∃ q', L[i + 1]? = some q' ∧ CursorAt t L (i + 1) next) := by
  obtain ⟨v, hv, ⟨hlast, hblock⟩ | ⟨q', bits, hq', habove, hblock⟩⟩ :=
    h.nextBlock hl hi hL hq hcursor
  · exact ⟨v, -1, hv, hblock, .inl ⟨hlast, rfl⟩⟩
  · have hqF' : q' ∈ F :=
      Finset.mem_val.mp (hL ▸ Multiset.mem_coe.mpr (List.mem_of_getElem? hq'))
    have hlt := (treeId_lt_iff bits).mpr (hshallow q' hqF' bits habove)
    rw [if_pos hlt] at hblock
    exact ⟨v, _, hv, hblock, .inr ⟨q', hq', .inr ⟨q', bits, hq', habove, rfl, hlt⟩⟩⟩

/-- From a place on, the iteration has the pages of the nodes from there on. -/
theorem Consistent.follow_from (h : Consistent t F) (hshallow : Shallow t F)
    (hl : Linked t.nodes none (some rootPtr) F) (hi : InOrder t.nodes (some rootPtr) L)
    (hL : (L : Multiset Ptr) = F.val) {fuel : ℕ} {cursor : ℤ} (hq : L[i]? = some q)
    (hcursor : CursorAt t L i cursor) (hfuel : L.length - i < fuel) :
    t.follow fuel cursor = .ok ((L.drop i).map t.pageOf) := by
  induction fuel generalizing i q cursor with
  | zero => cases hfuel
  | succ fuel ih =>
    obtain ⟨v, next, hv, hblock, hnext⟩ := h.nextBlock_of_shallow hshallow hl hi hL hq hcursor
    have hpos := hcursor.nonneg
    have hlt := (List.getElem?_eq_some_iff.mp hq).1
    have hrest : t.follow fuel next = .ok ((L.drop (i + 1)).map t.pageOf) := by
      rcases hnext with ⟨hlast, rfl⟩ | ⟨q', hq', hcursor'⟩
      · rw [List.drop_eq_nil_of_le (List.getElem?_eq_none_iff.mp hlast)]
        cases fuel with
        | zero => omega
        | succ fuel => rfl
      · exact ih hq' hcursor' (by omega)
    rw [follow, if_neg (by omega), hblock]
    show (t.follow fuel next >>= _) = _
    rw [hrest, drop_of_getElem? hq, List.map_cons, hv]
    rfl

/-- The first cursor of an empty tree. -/
theorem nextBlock_of_empty (hr : t.nodes.get rootPtr = none) : t.nextBlock 0 = .ok (-1, none) := by
  unfold PageTree.nextBlock
  rw [if_neg (by decide), hr]
  rfl

/-- The iteration from the start has the page of every node once, in the order of the tree, in as
    many blocks as there are nodes. Of an empty tree it has one empty block. -/
theorem Consistent.follow_all (h : Consistent t F) (hshallow : Shallow t F) :
    ∃ (L : List Ptr) (pages : List Page), InOrder t.nodes t.rootLink L ∧
      (L : Multiset Ptr) = F.val ∧ pages.map some = L.map t.pageOf ∧ pages.length = F.card ∧
      ∀ fuel, F.card + 2 ≤ fuel →
        t.follow fuel 0 = .ok (if pages = [] then [none] else pages.map some) := by
  rcases h.places with ⟨hr, hlink, rfl⟩ | ⟨L, q, hlink, hl, hi, hL, hq⟩
  · refine ⟨[], [], hlink ▸ .nil, rfl, rfl, rfl, fun fuel hfuel => ?_⟩
    rw [Finset.card_empty] at hfuel
    obtain ⟨fuel, rfl⟩ := Nat.exists_eq_add_of_le' hfuel
    rw [if_pos rfl, follow, if_neg (by decide), nextBlock_of_empty hr]
    rfl
  · have hcard : L.length = F.card := by rw [← Multiset.coe_card, hL, Finset.card_val]
    -- every node of the list has its page
    have hpage : ∀ p ∈ L, ∃ v, t.pageOf p = some v := by
      intro p hp
      have hpF := Finset.mem_val.mp (hL ▸ Multiset.mem_coe.mpr hp)
      obtain ⟨n, hn⟩ := hl.stored hpF
      obtain ⟨v, hv⟩ := h.page p n hpF hn
      exact ⟨v, pageOf_eq hn hv⟩
    have hpages : (L.filterMap t.pageOf).map some = L.map t.pageOf := by
      clear hi hL hq hcard
      induction L with
      | nil => rfl
      | cons p L ih =>
        obtain ⟨v, hv⟩ := hpage p List.mem_cons_self
        rw [List.filterMap_cons_some hv, List.map_cons, List.map_cons, hv,
          ih fun p hp => hpage p (List.mem_cons_of_mem _ hp)]
    have hlength : (L.filterMap t.pageOf).length = L.length := by
      rw [← List.length_map (f := some), hpages, List.length_map]
    have hlt := (List.getElem?_eq_some_iff.mp hq).1
    refine ⟨L, L.filterMap t.pageOf, hlink ▸ hi, hL, hpages, hlength.trans hcard,
      fun fuel hfuel => ?_⟩
    have hne : L.filterMap t.pageOf ≠ [] := by
      rw [← List.length_pos_iff]
      omega
    rw [if_neg hne, hpages, h.follow_from hshallow hl hi hL hq (.inl ⟨rfl, rfl⟩) (by omega),
      List.drop_zero]

theorem consistent_twoNodes : Consistent twoNodes {0, 1} := by
  refine ⟨linked_twoNodes, fun p n hp hn => ?_⟩
  rcases Finset.mem_insert.mp hp with rfl | hp
  · cases hn
    exact ⟨Page.empty, rfl⟩
  · obtain rfl := Finset.mem_singleton.mp hp
    cases hn
    exact ⟨Page.empty, rfl⟩

theorem shallow_twoNodes : Shallow twoNodes {0, 1} := by
  intro q hq bits habove
  obtain ⟨bits', habove', hlt⟩ := above_root linked_twoNodes hq
  rw [Linked.above_unique habove habove']
  exact hlt.trans (by decide)

theorem follow_all_twoNodes : ∃ (L : List Ptr) (pages : List Page),
    InOrder twoNodes.nodes twoNodes.rootLink L ∧ (L : Multiset Ptr) = ({0, 1} : Finset Ptr).val ∧
    pages.map some = L.map twoNodes.pageOf ∧ pages.length = ({0, 1} : Finset Ptr).card ∧
    ∀ fuel, ({0, 1} : Finset Ptr).card + 2 ≤ fuel →
      twoNodes.follow fuel 0 = .ok (if pages = [] then [none] else pages.map some) :=
  consistent_twoNodes.follow_all shallow_twoNodes

/-- An empty tree has a block, but no page. -/
theorem follow_create : Consistent create ∅ ∧ Shallow create ∅ ∧
    ∀ fuel blocks, create.follow fuel 0 = .ok blocks → blocks.length ≠ (∅ : Finset Ptr).card := by
  refine ⟨consistent_create,
    fun q hq => absurd hq (Finset.notMem_empty q), fun fuel blocks hblocks => ?_⟩
  match fuel, hblocks with
  | _ + 2, hblocks =>
    cases hblocks
    decide

end PageTree

end ReSTM
