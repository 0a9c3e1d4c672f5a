import ReSTM.Clustering.Splits
import ReSTM.Common.Keyed

/-!
# Pages and the buffers that hold them

All pages of a store, each under its buffer. Pages that are added to any node enter the buffers of
nodes that come after it, and their items are conserved, whatever the tree looks like.

* `ClusterStore.add_receives`: an insertion that does not fail.
* `ClassificationTreeNode.routePage_items`: the parts of a block.
* `ClassificationTreeNode.transferLast_received`: the last pass of a split.
-/

namespace ReSTM

open HeapModel Nodes Page WP Keyed

/-! ## Unions -/

namespace Page

variable {pages : List Page} {p : Page} {S : List BaseColumn}

/-- The union of pages with packed columns has the same columns, sorted, if it has a row. -/
theorem schema_union (hschema : ∀ p ∈ pages, p.schema = S) (h : Packed S)
    (hp : union pages = .ok p) : p.rows = [] ∨ p.schema = sortByName S := by
  unfold union at hp
  cases hdata : pages.flatMap rows with
  | nil =>
    rw [hdata] at hp
    obtain rfl : _ = p := Except.ok.inj hp
    exact .inl rfl
  | cons r₀ data =>
    have hall : ∀ r ∈ r₀ :: data, r.row < r.page.size ∧ r.page.schema = S := by
      intro r hr
      obtain ⟨q, hq, hr⟩ := List.mem_flatMap.mp (hdata ▸ hr)
      obtain ⟨rfl, hlt⟩ := mem_rows hr
      exact ⟨hlt, hschema _ hq⟩
    have hnumeric : ∀ c ∈ S, c.isRef = false := fun c hc => by
      rw [h c hc]
      rfl
    have huniform : Uniform (r₀ :: data) := by
      refine ⟨fun r hr c hc => hnumeric c ((hall r hr).2 ▸ hc), fun r hr r' hr' c hc => ?_,
        fun r hr c hc => ?_⟩
      · rw [(hall r' hr').2, ← (hall r hr).2]
        exact List.mem_map.mpr ⟨c, hc, rfl⟩
      · have hr' := hall r hr
        exact readable_of_inside (hr'.2.symm ▸ inside_of_packed h) hr'.1 hc (hnumeric c (hr'.2 ▸ hc))
    obtain ⟨q, hq, hschemaq, -⟩ := fromRows_of_uniform huniform fun r hr => (hall r hr).1
    rw [hdata] at hp
    obtain rfl : q = p := Except.ok.inj (hq.symm.trans hp)
    exact .inr (hschemaq.trans (by rw [(hall r₀ List.mem_cons_self).2]))

/-! ## Pages of items -/

theorem schema_of_apply {data : List LabeledItem} (hp : apply data = .ok p) :
    p.schema = scalarColumns (keys data) := by
  obtain ⟨p', hp', hschema, -⟩ := apply_of_allNumbers (allNumbers_of_apply hp)
  obtain rfl := Except.ok.inj (hp.symm.trans hp')
  exact hschema

/-- The columns of a page of items are sorted. -/
theorem sortByName_keys (data : List LabeledItem) :
    sortByName (scalarColumns (keys data)) = scalarColumns (keys data) := by
  refine List.Pairwise.insertionSort_eq ?_
  rw [← List.pairwise_map (f := BaseColumn.name) (R := JavaText.le), scalarColumns_names]
  exact pairwise_keys data

/-- The columns of a page of items are packed. -/
theorem packed_keys (data : List LabeledItem) : Packed (scalarColumns (keys data)) := by
  have hnames : columnNames (scalarColumns (keys data)) = keys data := by
    rw [← sortByName_names, sortByName_keys, scalarColumns_names]
  intro c hc
  rw [hnames]
  rw [scalarColumns, running_eq, List.map_map] at hc
  obtain ⟨⟨key, j⟩, hj, rfl⟩ := List.mem_map.mp hc
  obtain ⟨hlt, hkey⟩ := List.getElem?_eq_some_iff.mp (List.mem_zipIdx_iff_getElem?.mp hj)
  have hidx : (keys data).idxOf key = j := by
    rw [← show (keys data)[j] = key from hkey]
    exact (nodup_keys data).idxOf_getElem j hlt
  show BaseColumn.doubleColumn key (j * 8) = BaseColumn.doubleColumn key ((keys data).idxOf key * 8)
  rw [hidx]

end Page

/-! ## Parts -/

/-- The items of the rows that take a branch. -/
def RuleData.itemsOn (rule : RuleData) (value : Page) (b : Branch) : Multiset Item :=
  (((List.range value.size).filter fun i => rule.eval (PageRow.mk value i).keyValue = b).map
    fun i => (PageRow.mk value i).item : List Item)

variable {rule : RuleData} {value : Page} {S : List BaseColumn}

/-- Every row takes one of the branches. -/
theorem RuleData.sum_itemsOn (rule : RuleData) (hin : Inside value.schema) :
    rule.itemsOn value .pass + rule.itemsOn value .fail + rule.itemsOn value .exception =
      value.items :=
  (ClusterStore.add_branches (List.range value.size) _ _).trans
    (items_of_part (Part.refl value) hin).symm

/-- The part for a branch has the items of the rows that take it. -/
theorem RuleData.split_items {o : Option Page} {b : Branch} (hin : Inside value.schema)
    (h : rule.split value b = .ok o) : o.elim 0 Page.items = rule.itemsOn value b ∧
      ∀ v ∈ o, v.schema = value.schema ∧ value.rows ≠ [] := by
  rcases rule.split_part (Part.refl value) hin b with ⟨hnone, hnil⟩ | ⟨v, hsome, hpart⟩
  · obtain rfl : none = o := Except.ok.inj (hnone.symm.trans h)
    exact ⟨by rw [itemsOn, hnil]; rfl, nofun⟩
  · obtain rfl : some v = o := Except.ok.inj (hsome.symm.trans h)
    refine ⟨items_of_part hpart hin, ?_⟩
    rintro _ ⟨⟩
    refine ⟨hpart.schema, fun hrows => ?_⟩
    -- a part has a row of the page
    unfold split at hsome
    rw [hrows] at hsome
    cases hsome

namespace ClusterStore

variable {s s' s'' : ClusterStore} {P P' P'' : Multiset (Ptr × Page)} {M : Multiset Page}
  {b c p q self root : Ptr} {t : PageTree} {n : ClassificationTreeNode} {X Y : Multiset Item}
  {u : Unit} {k fuel : ℕ} {strategy : ClassificationStrategy} {maxSplitDepth : ℤ}

theorem itemsOf_add (M N : Multiset Page) : itemsOf (M + N) = itemsOf M + itemsOf N :=
  Multiset.add_bind M N _

/-! ## All pages of a store -/

/-- The buffers hold the pages `P`, each under its buffer. -/
structure Stores (s : ClusterStore) (P : Multiset (Ptr × Page)) : Prop where
  holds : ∀ b t, s.buffers.get b = some t → t.Holds (valuesAt P b)
  stored : ∀ e ∈ P, ∃ t, s.buffers.get e.1 = some t

theorem Stores.holds_of (h : s.Stores P) (ht : s.buffers.get b = some t) :
    s.Holds b (valuesAt P b) := ⟨t, ht, h.holds b t ht⟩

theorem Stores.congr (h : s.Stores P) (hbuffers : s'.buffers = s.buffers) : s'.Stores P :=
  ⟨hbuffers ▸ h.holds, hbuffers ▸ h.stored⟩

/-- What is in one buffer has changed. -/
theorem Stores.touch (h : s.Stores P) (htouch : Touches b s s') (hb : s'.Holds b (valuesAt P' b))
    (hother : ∀ c, c ≠ b → valuesAt P' c = valuesAt P c)
    (hmem : ∀ e ∈ P', e ∈ P ∨ e.1 = b) : s'.Stores P' := by
  constructor
  · intro c t ht
    by_cases hc : c = b
    · subst hc
      obtain ⟨t', ht', hM⟩ := hb
      obtain rfl := Option.some.inj (ht'.symm.trans ht)
      exact hM
    · rw [hother c hc]
      exact h.holds c t (htouch.other c hc ▸ ht)
  · intro e he
    by_cases hc : e.1 = b
    · obtain ⟨t, ht, -⟩ := hb
      exact ⟨t, hc ▸ ht⟩
    · rw [htouch.other e.1 hc]
      exact h.stored e ((hmem e he).resolve_right hc)

/-- A buffer that is stored stays. -/
def Keeps (s s' : ClusterStore) : Prop :=
  ∀ b t, s.buffers.get b = some t → ∃ t', s'.buffers.get b = some t'

theorem Keeps.refl (s : ClusterStore) : Keeps s s := fun _ t ht => ⟨t, ht⟩

theorem Keeps.of_eq (h : s'.buffers = s.buffers) : Keeps s s' := fun _ t ht => ⟨t, h ▸ ht⟩

theorem Keeps.trans (h : Keeps s s') (h' : Keeps s' s'') : Keeps s s'' := fun b t ht => by
  obtain ⟨t', ht'⟩ := h b t ht
  exact h' b t' ht'

theorem Touches.keeps (h : Touches b s s') (hb : s'.Holds b M) : Keeps s s' := by
  intro c t ht
  by_cases hc : c = b
  · obtain ⟨t', ht', -⟩ := hb
    exact ⟨t', hc ▸ ht'⟩
  · exact ⟨t, (h.other c hc).trans ht⟩

theorem Stores.addPage (h : s.Stores P) (ht : s.buffers.get b = some t)
    (hrun : addPage b value s = .ok (u, s')) :
    s'.Stores ((b, value) ::ₘ P) ∧ s'.nodes = s.nodes ∧ Keeps s s' := by
  obtain ⟨s₁, h₁, hnodes, hM, hother⟩ := addPage_ok (h.holds_of ht) value
  obtain rfl : s' = s₁ := congrArg Prod.snd (Except.ok.inj (hrun.symm.trans h₁))
  have htouch : Touches b s s' := ⟨hnodes, hother⟩
  refine ⟨h.touch htouch ?_ (fun c hc => valuesAt_cons_of_ne hc.symm) fun e he => ?_, hnodes,
    htouch.keeps hM⟩
  · rw [valuesAt_cons_self]
    exact hM
  · exact (Multiset.mem_cons.mp he).symm.imp_right (congrArg Prod.fst)

/-- A page that is taken is no longer stored. -/
theorem Stores.takePage {o : Option Page} (h : s.Stores P) (ht : s.buffers.get b = some t)
    (hrun : takePage b s = .ok (o, s')) : ∃ P', s'.Stores P' ∧ s'.nodes = s.nodes ∧ Keeps s s' ∧
      match o with
      | some v => P = (b, v) ::ₘ P'
      | none => P' = P ∧ ∀ e ∈ P, e.1 ≠ b := by
  obtain ⟨o', s₁, M', h₁, htouch, hM', hM, hzero⟩ := takePage_spec (h.holds_of ht)
  obtain ⟨rfl, rfl⟩ := Prod.mk.inj (Except.ok.inj (hrun.symm.trans h₁))
  cases o with
  | none =>
    have hP := hzero rfl
    refine ⟨P, h.touch htouch ?_ (fun _ _ => rfl) fun e he => .inl he, htouch.nodes,
      htouch.keeps hM', rfl, valuesAt_eq_zero.mp hP⟩
    rw [show valuesAt P b = M' from hM]
    exact hM'
  | some v =>
    have hmem : v ∈ valuesAt P b := hM ▸ Multiset.mem_cons_self v M'
    obtain ⟨P', rfl⟩ := exists_cons_of_mem_valuesAt hmem
    refine ⟨P', h.touch htouch ?_ (fun c hc => (valuesAt_cons_of_ne hc.symm).symm)
      fun e he => .inl (Multiset.mem_cons_of_mem he), htouch.nodes, htouch.keeps hM', rfl⟩
    rw [valuesAt_cons_self] at hM
    rw [(Multiset.cons_inj_right v).mp hM]
    exact hM'

/-- A buffer that is read to its end is empty. -/
theorem Stores.drain {pages : List Page} (h : s.Stores P) (ht : s.buffers.get b = some t)
    (hrun : drain b fuel s = .ok (pages, s')) : (pages : Multiset Page) = valuesAt P b ∧
      s'.Stores (without P b) ∧ s'.nodes = s.nodes ∧ Keeps s s' := by
  obtain ⟨hpages, htouch, hempty⟩ := drain_spec (h.holds_of ht) hrun
  refine ⟨hpages, h.touch htouch ?_ (fun c hc => valuesAt_without_of_ne hc)
    fun e he => .inl (Multiset.mem_of_mem_filter he), htouch.nodes, htouch.keeps hempty⟩
  rw [valuesAt_without_self]
  exact hempty

/-- A new buffer is empty. -/
theorem Stores.alloc (h : s.Stores P) (hbuffers : s'.buffers = s.buffers.alloc PageTree.create) :
    s'.Stores P ∧ Keeps s s' := by
  have hkeep : Keeps s s' := fun b t ht =>
    ⟨t, by rw [hbuffers, Heap.get_alloc_of_lt (Heap.lt_next ht), ht]⟩
  refine ⟨⟨fun b t ht => ?_, fun e he => ?_⟩, hkeep⟩
  · by_cases hb : b = s.buffers.next
    · subst hb
      rw [hbuffers, Heap.get_alloc_self] at ht
      obtain rfl := Option.some.inj ht
      have hzero : valuesAt P s.buffers.next = 0 := valuesAt_eq_zero.mpr fun e he heq => by
        obtain ⟨t, ht⟩ := h.stored e he
        exact (Heap.lt_next ht).ne heq
      rw [hzero]
      exact PageTree.holds_create
    · rw [hbuffers, Heap.get_alloc_of_ne hb] at ht
      exact h.holds b t ht
  · obtain ⟨t, ht⟩ := h.stored e he
    exact hkeep _ t ht

/-! ## Where pages enter -/

/-- The buffer of a node from `p` on. -/
def BufferFrom (s : ClusterStore) (p b : Ptr) : Prop :=
  ∃ q n, p ≤ q ∧ s.nodes.get q = some n ∧ n.itemBuffer = some b

/-- Buffers are stored, and children come after their parent. -/
structure Ordered (s : ClusterStore) : Prop where
  buffer : ∀ {q n b}, s.nodes.get q = some n → n.itemBuffer = some b →
    ∃ t, s.buffers.get b = some t
  child : ∀ {q n br c}, s.nodes.get q = some n → n.child br = some c → q < c

theorem SameNodes.symm (h : SameNodes s s') : SameNodes s' s := fun p => (h p).symm

theorem SameNodes.of_eq (h : s'.nodes = s.nodes) : SameNodes s s' := fun p => by rw [h]

theorem BufferFrom.mono (h : s.BufferFrom q b) (hle : p ≤ q) : s.BufferFrom p b := by
  obtain ⟨r, n, hr, hn⟩ := h
  exact ⟨r, n, hle.trans hr, hn⟩

theorem BufferFrom.congr (h : s.BufferFrom p b) (hs : SameNodes s s') : s'.BufferFrom p b := by
  obtain ⟨q, n, hle, hn, hb⟩ := h
  obtain ⟨n', hn', -, hbuffer, -⟩ := hs.get hn
  exact ⟨q, n', hle, hn', hbuffer.trans hb⟩

theorem BufferFrom.of_eq (h : s.BufferFrom p b) (hnodes : s'.nodes = s.nodes) :
    s'.BufferFrom p b := h.congr (.of_eq hnodes)

theorem Ordered.congr (h : s.Ordered) (hs : SameNodes s s') (hk : Keeps s s') : s'.Ordered := by
  constructor
  · intro q n b hn hb
    obtain ⟨n', hn', -, hbuffer, -⟩ := hs.symm.get hn
    obtain ⟨t, ht⟩ := h.buffer hn' (hbuffer.trans hb)
    exact hk b t ht
  · intro q n br c hn hc
    obtain ⟨n', hn', -, -, hchild⟩ := hs.symm.get hn
    exact h.child hn' ((hchild br).trans hc)

/-- Buffers of nodes from `p` on have received pages with the items `X`. -/
structure Received (S : List BaseColumn) (p : Ptr) (X : Multiset Item) (s s' : ClusterStore)
    (P P' : Multiset (Ptr × Page)) : Prop where
  nodes : SameNodes s s'
  keeps : Keeps s s'
  stores : s'.Stores P'
  new : ∃ N, P' = N + P ∧ itemsOf (N.map Prod.snd) = X ∧
    ∀ e ∈ N, e.2.schema = S ∧ s.BufferFrom p e.1

theorem Received.refl (h : s.Stores P) : Received S p 0 s s P P :=
  ⟨.refl s, .refl s, h, 0, (zero_add P).symm, rfl, fun _ he => absurd he (Multiset.notMem_zero _)⟩

theorem Received.trans (h : Received S p X s s' P P') (h' : Received S p Y s' s'' P' P'') :
    Received S p (X + Y) s s'' P P'' := by
  obtain ⟨N, rfl, rfl, hN⟩ := h.new
  obtain ⟨N', rfl, rfl, hN'⟩ := h'.new
  refine ⟨h.nodes.trans h'.nodes, h.keeps.trans h'.keeps, h'.stores, N + N', ?_, ?_, fun e he => ?_⟩
  · ac_rfl
  · rw [Multiset.map_add, itemsOf_add]
  · rcases Multiset.mem_add.mp he with he | he
    · exact hN e he
    · exact ⟨(hN' e he).1, (hN' e he).2.congr h.nodes.symm⟩

theorem Received.mono (h : Received S q X s s' P P') (hle : p ≤ q) : Received S p X s s' P P' := by
  obtain ⟨N, hP, hX, hN⟩ := h.new
  exact ⟨h.nodes, h.keeps, h.stores, N, hP, hX, fun e he => ⟨(hN e he).1, (hN e he).2.mono hle⟩⟩

/-- Buffers receive the pages that are given to a node. -/
def Receives (S : List BaseColumn) (addTo : Page → Ptr → ClusterTxn ℕ) : Prop :=
  ∀ {value ptr s s' P k}, value.schema = S → s.Ordered → s.Stores P →
    addTo value ptr s = .ok (k, s') → ∃ P', Received S ptr value.items s s' P P'

end ClusterStore

open ClusterStore

namespace ClassificationTreeNode

variable {s s' : ClusterStore} {P : Multiset (Ptr × Page)} {self root : Ptr}
  {n : ClassificationTreeNode} {addTo : Page → Ptr → ClusterTxn ℕ} {k fuel : ℕ}
  {strategy : ClassificationStrategy} {maxSplitDepth : ℤ}

/-- An insertion that does not fail has all three children. -/
theorem insert_children {results : Branch → Except Failure (Option Page)}
    (h : n.insert addTo results s = .ok (k, s')) : ∃ pass fail exception, n.pass = some pass ∧
      n.fail = some fail ∧ n.exception = some exception := by
  unfold insert at h
  cases hpass : n.pass with
  | none =>
    rw [hpass] at h
    cases h
  | some pass =>
    cases hfail : n.fail with
    | none =>
      rw [hpass, hfail] at h
      cases h
    | some fail =>
      cases hexception : n.exception with
      | none =>
        rw [hpass, hfail, hexception] at h
        cases h
      | some exception => exact ⟨pass, fail, exception, rfl, rfl, rfl⟩

/-- The parts for some children. -/
theorem insertAll_received {cs : List (Branch × Ptr)} {ks : List ℕ} (hadd : Receives S addTo)
    (hin : Inside value.schema) (hschema : value.rows = [] ∨ value.schema = S)
    (hle : ∀ c ∈ cs, self ≤ c.2) (ho : s.Ordered) (hP : s.Stores P)
    (h : insertAll addTo (rule.split value) cs s = .ok (ks, s')) :
    ∃ P', Received S self (cs.map fun c => rule.itemsOn value c.1).sum s s' P P' := by
  induction cs generalizing s P ks with
  | nil =>
    cases h
    exact ⟨P, .refl hP⟩
  | cons c cs ih =>
    unfold insertAll at h
    rw [List.mapM_cons] at h
    obtain ⟨k, s₁, h₁, h⟩ := bind_ok_iff.mp h
    obtain ⟨ks', s₂, h₂, h⟩ := bind_ok_iff.mp h
    cases h
    obtain ⟨o, s₀, h₀, h₁⟩ := bind_ok_iff.mp h₁
    have hfirst : ∃ P', Received S self (rule.itemsOn value c.1) s s₁ P P' := by
      cases hsplit : rule.split value c.1 with
      | error e =>
        rw [hsplit] at h₀
        cases h₀
      | ok o' =>
        rw [hsplit] at h₀
        cases h₀
        obtain ⟨hitems, hpart⟩ := rule.split_items hin hsplit
        rw [← hitems]
        cases o with
        | none =>
          cases h₁
          exact ⟨P, .refl hP⟩
        | some page =>
          obtain ⟨hpage, hrows⟩ := hpart page rfl
          obtain ⟨P', hP'⟩ := hadd (hpage.trans (hschema.resolve_left hrows)) ho hP h₁
          exact ⟨P', hP'.mono (hle c List.mem_cons_self)⟩
    obtain ⟨P', hP'⟩ := hfirst
    obtain ⟨P'', hP''⟩ := ih (fun c' hc' => hle c' (List.mem_cons_of_mem _ hc'))
      (ho.congr hP'.nodes hP'.keeps) hP'.stores h₂
    rw [List.map_cons, List.sum_cons]
    exact ⟨P'', hP'.trans hP''⟩

/-- A page that is routed enters buffers under the children. -/
theorem route_received (hadd : Receives S addTo) (hin : Inside value.schema)
    (hschema : value.rows = [] ∨ value.schema = S) (hchild : ∀ br c, n.child br = some c → self ≤ c)
    (ho : s.Ordered) (hP : s.Stores P) (h : n.route addTo value s = .ok (k, s')) :
    ∃ P', Received S self value.items s s' P P' := by
  unfold route at h
  cases hrule : n.rule with
  | none =>
    rw [hrule] at h
    cases h
  | some rule =>
    rw [hrule] at h
    obtain ⟨pass, fail, exception, hpass, hfail, hexception⟩ := insert_children h
    unfold insert at h
    rw [hpass, hfail, hexception] at h
    obtain ⟨ks, s₁, h₁, h⟩ := bind_ok_iff.mp h
    cases h
    have hle : ∀ c ∈ [(Branch.pass, pass), (.fail, fail), (.exception, exception)], self ≤ c.2 := by
      intro c hc
      simp only [List.mem_cons, List.not_mem_nil, or_false] at hc
      rcases hc with rfl | rfl | rfl
      · exact hchild .pass _ hpass
      · exact hchild .fail _ hfail
      · exact hchild .exception _ hexception
    obtain ⟨P', hP'⟩ := insertAll_received hadd hin hschema hle ho hP h₁
    refine ⟨P', ?_⟩
    rw [← rule.sum_itemsOn hin]
    simpa only [List.map_cons, List.map_nil, List.sum_cons, List.sum_nil, add_zero, add_assoc]
      using hP'

/-- `add` gives a page to a node. -/
theorem add_receives (hin : Inside S) (fuel : ℕ) : Receives S (fun page ptr => do
    add strategy root maxSplitDepth fuel (← onNodes (read ptr)) page ptr) := by
  induction fuel with
  | zero =>
    intro value ptr s s' P k _ _ _ h
    obtain ⟨n, s₁, -, h⟩ := bind_ok_iff.mp h
    cases h
  | succ fuel ih =>
    intro value ptr s s' P k hschema ho hP h
    obtain ⟨n, s₁, h₁, hadd⟩ := bind_ok_iff.mp h
    obtain ⟨hn, rfl⟩ := of_read h₁
    unfold add at hadd
    cases hbuffer : n.itemBuffer with
    | some b =>
      rw [hbuffer] at hadd
      obtain ⟨u, s₂, h₂, hsplit⟩ := bind_ok_iff.mp hadd
      obtain ⟨t, ht⟩ := ho.buffer hn hbuffer
      obtain ⟨hP', hnodes, hkeep⟩ := hP.addPage ht h₂
      have hquiet := autosplit_quiet (hnodes ▸ hn) hsplit
      refine ⟨(b, value) ::ₘ P, (SameNodes.of_eq hnodes).trans hquiet.nodes,
        hkeep.trans (.of_eq hquiet.buffers), hP'.congr hquiet.buffers, {(b, value)},
        (Multiset.singleton_add _ _).symm, Multiset.singleton_bind _ _, fun e he => ?_⟩
      obtain rfl := Multiset.mem_singleton.mp he
      exact ⟨hschema, ptr, n, le_rfl, hn, hbuffer⟩
    | none =>
      rw [hbuffer] at hadd
      exact route_received ih (hschema ▸ hin) (.inr hschema)
        (fun br c hc => (ho.child hn hc).le) ho hP hadd

/-- The blocks enter buffers under the children. -/
theorem routePages_received {bs : List (List Page)} (hpacked : Packed S) (hsorted : sortByName S = S)
    (hschema : ∀ p ∈ bs.flatten, p.schema = S) (hchild : ∀ br c, n.child br = some c → self ≤ c)
    (ho : s.Ordered) (hP : s.Stores P)
    (h : routePages strategy root maxSplitDepth fuel n bs s = .ok (k, s')) :
    ∃ P', Received S self (itemsOf bs.flatten) s s' P P' := by
  induction bs generalizing s P k with
  | nil =>
    cases h
    exact ⟨P, .refl hP⟩
  | cons batch bs ih =>
    rw [List.flatten_cons, List.forall_mem_append] at hschema
    unfold routePages at h
    cases hunion : Page.union batch with
    | error e =>
      rw [hunion] at h
      cases h
    | ok block =>
      rw [hunion] at h
      obtain ⟨block', s₀, h₀, h⟩ := bind_ok_iff.mp h
      cases h₀
      obtain ⟨k₁, s₁, h₁, h⟩ := bind_ok_iff.mp h
      obtain ⟨rows, s₂, h₂, h⟩ := bind_ok_iff.mp h
      cases h
      have hin := inside_of_packed hpacked
      obtain ⟨hin', hitems⟩ := items_union hschema.1 hin hunion
      obtain ⟨P', hP'⟩ := route_received (add_receives hin fuel) hin'
        (hsorted ▸ schema_union hschema.1 hpacked hunion) hchild ho hP h₁
      obtain ⟨P'', hP''⟩ := ih hschema.2 (ho.congr hP'.nodes hP'.keeps) hP'.stores h₂
      rw [hitems, relaidItemsOf_packed hschema.1 hpacked] at hP'
      refine ⟨P'', ?_⟩
      rw [List.flatten_cons, ← Multiset.coe_add, itemsOf_add]
      exact hP'.trans hP''

/-- The node without its buffers. -/
def closed (n : ClassificationTreeNode) : ClassificationTreeNode :=
  { n with itemBuffer := none, splitBuffer := none }

/-- The last pass: the buffer of the node is emptied, and the node has no buffer any more. -/
theorem transferLast_received (hpacked : Packed S) (hsorted : sortByName S = S)
    (hschema : ∀ e ∈ P, e.2.schema = S) (ho : s.Ordered) (hP : s.Stores P)
    (h : transferLast strategy root maxSplitDepth fuel self s = .ok (k, s')) :
    ∃ n s₁ P₁ P' X, s.nodes.get self = some n ∧ s₁.Stores P₁ ∧ s₁.nodes = s.nodes ∧ Keeps s s₁ ∧
      (∀ e ∈ P₁, e ∈ P ∧ n.itemBuffer ≠ some e.1) ∧
      itemsOf (P.map Prod.snd) = X + itemsOf (P₁.map Prod.snd) ∧
      ∃ s₂, Received S (self + 1) X s₁ s₂ P₁ P' ∧
        s' = { s₂ with nodes := s₂.nodes.set self (some n.closed) } := by
  unfold transferLast at h
  obtain ⟨n, s₀, h₀, hread⟩ := bind_ok_iff.mp h
  obtain ⟨hn, rfl⟩ := of_read h₀
  have hdrained : ∃ (pages : List Page) (P₁ : _) (s₁ : _), s₁.Stores P₁ ∧
      s₁.nodes = s₀.nodes ∧ Keeps s₀ s₁ ∧ (∀ e ∈ P₁, e ∈ P ∧ n.itemBuffer ≠ some e.1) ∧
      P.map Prod.snd = (pages : Multiset Page) + P₁.map Prod.snd ∧ (∀ p ∈ pages, p.schema = S) ∧
      (routePages strategy root maxSplitDepth fuel n (batches pages) >>= fun transfered =>
        writeNode self n.closed >>= fun _ => pure transfered) s₁ = .ok (k, s') := by
    cases hbuffer : n.itemBuffer with
    | none =>
      rw [hbuffer] at hread
      obtain ⟨pages, s₁, h₁, hrest⟩ := bind_ok_iff.mp hread
      cases h₁
      exact ⟨[], P, s₀, hP, rfl, .refl _, fun e he => ⟨he, nofun⟩, (zero_add _).symm,
        fun p hp => absurd hp List.not_mem_nil, hrest⟩
    | some b =>
      rw [hbuffer] at hread
      obtain ⟨pages, s₁, h₁, hrest⟩ := bind_ok_iff.mp hread
      obtain ⟨t, ht⟩ := ho.buffer hn hbuffer
      obtain ⟨hpages, hP₁, hnodes, hkeep⟩ := hP.drain ht h₁
      refine ⟨pages, without P b, s₁, hP₁, hnodes, hkeep, fun e he => ?_, hpages ▸ map_snd_eq P b,
        fun p hp => ?_, hrest⟩
      · obtain ⟨hmem, hne⟩ := Multiset.mem_filter.mp he
        exact ⟨hmem, fun heq => hne (Option.some.inj heq).symm⟩
      · exact hschema _ (mem_valuesAt.mp (hpages ▸ Multiset.mem_coe.mpr hp))
  obtain ⟨pages, P₁, s₁, hP₁, hnodes, hkeep, hmem, htotal, hpages, hrest⟩ := hdrained
  obtain ⟨rows, s₂, h₂, hclose⟩ := bind_ok_iff.mp hrest
  obtain ⟨u, s₃, h₃, hreturn⟩ := bind_ok_iff.mp hclose
  cases hreturn
  have ho₁ : s₁.Ordered := ho.congr (.of_eq hnodes) hkeep
  have hchild : ∀ br c, n.child br = some c → self + 1 ≤ c := fun br c hc => ho.child hn hc
  obtain ⟨P', hP'⟩ := routePages_received hpacked hsorted
    (by rw [flatten_batches]; exact hpages) hchild ho₁ hP₁ h₂
  rw [flatten_batches] at hP'
  obtain ⟨m, hm, -⟩ := hP'.nodes.get (hnodes ▸ hn)
  refine ⟨n, s₁, P₁, P', itemsOf pages, hn, hP₁, hnodes, hkeep, hmem, ?_, s₂, hP',
    of_writeNode h₃ hm⟩
  rw [htotal, itemsOf_add]

/-- The parts for some children. -/
theorem mapM_parts {cs : List (Branch × Ptr)} {results : List (Option (Page × Ptr))}
    (hin : Inside value.schema)
    (h : cs.mapM (fun c => (rule.split value c.1).map (Option.map (·, c.2))) = .ok results) :
    itemsOf (results.reduceOption.map Prod.fst : List Page) =
        (cs.map fun c => rule.itemsOn value c.1).sum ∧
      ∀ v ∈ results.reduceOption, v.1.schema = value.schema ∧ value.rows ≠ [] := by
  induction cs generalizing results with
  | nil =>
    cases h
    exact ⟨rfl, fun v hv => absurd hv List.not_mem_nil⟩
  | cons c cs ih =>
    obtain ⟨o, results, ho, hresults, rfl⟩ := Layout.mapM_cons_ok h
    obtain ⟨hitems, hmem⟩ := ih hresults
    cases hsplit : rule.split value c.1 with
    | error e =>
      rw [hsplit] at ho
      cases ho
    | ok part =>
      rw [hsplit] at ho
      cases ho
      obtain ⟨hpart, hschema⟩ := rule.split_items hin hsplit
      rw [List.map_cons, List.sum_cons, ← hpart, ← hitems]
      cases part with
      | none => exact ⟨(zero_add _).symm, hmem⟩
      | some page =>
        refine ⟨?_, List.forall_mem_cons.mpr ⟨hschema page rfl, hmem⟩⟩
        show itemsOf (page :: results.reduceOption.map Prod.fst : List Page) = _
        rw [← Multiset.cons_coe]
        exact Multiset.cons_bind _ _ _

/-- The parts of a block have its items. -/
theorem routePage_items {parts : List (Page × Ptr)} (hin : Inside value.schema)
    (h : n.routePage value = .ok parts) :
    itemsOf (parts.map Prod.fst : List Page) = value.items ∧
      ∀ v ∈ parts, v.1.schema = value.schema ∧ value.rows ≠ [] := by
  unfold routePage at h
  cases hrule : n.rule with
  | none =>
    rw [hrule] at h
    cases h
  | some rule =>
    rw [hrule] at h
    dsimp only at h
    split at h
    · next pass fail exception _ _ _ =>
      cases hresults : [(Branch.pass, pass), (.fail, fail), (.exception, exception)].mapM fun c =>
          (rule.split value c.1).map (Option.map (·, c.2)) with
      | error e =>
        rw [hresults] at h
        cases h
      | ok results =>
        rw [hresults] at h
        cases h
        obtain ⟨hitems, hmem⟩ := mapM_parts hin hresults
        refine ⟨hitems.trans ?_, hmem⟩
        rw [← rule.sum_itemsOn hin]
        simp only [List.map_cons, List.map_nil, List.sum_cons, List.sum_nil, add_zero, add_assoc]
    · cases h

end ClassificationTreeNode

end ReSTM
