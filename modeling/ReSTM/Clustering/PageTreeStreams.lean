import ReSTM.Clustering.PageCursor
import ReSTM.Common.LazyStream

/-!
# The two streams of a page tree

Model of `pageStream` inside of a transaction (`stm/clustering/PageTree.scala`, lines 277–280) and
of `AtomicApi.pageStream` (lines 323–329) as the lazy streams that they are. Both iterate
`nextBlock` without an end. `AtomicApi` stops at the first cursor below `-1` and then drops the
empty blocks. The other one drops the empty blocks first, so that it looks for a page behind the
last one and does not get to its test.

* `PageTree.txnPageStream_not_reads`: the stream of a transaction has no end, for any tree.
* `PageTree.Consistent.reads_atomicPageStream`: the other one has every page, in order.
-/

namespace ReSTM

open HeapModel LazyStream WP

namespace PageTree

/-- `Stream.iterate((0l, KryoValue.empty[Page]))(t => sync.nextBlock(t._1))`, from `firstBlock`. -/
def blockStream (t : PageTree) :
    Stream Failure (Iterated (ℤ × Option Page)) (ℤ × Option Page) :=
  iterate fun b => t.nextBlock b.1

/-- The first element, which has no page. -/
def firstBlock : Iterated (ℤ × Option Page) := .element (0, none)

/-- `pageStream` (lines 277–280). -/
def txnPageStream (t : PageTree) : Stream Failure (Iterated (ℤ × Option Page)) Page :=
  map Prod.snd (takeWhile (fun x => -1 ≤ x.1)
    (flatMap (fun x => x.2.map fun page => (x.1, page)) t.blockStream))

/-- `AtomicApi.rawStream` (lines 327–329). -/
def rawStream (t : PageTree) : Stream Failure (Iterated (ℤ × Option Page)) (Option Page) :=
  map Prod.snd (takeWhile (fun x => -2 < x.1) t.blockStream)

/-- `AtomicApi.pageStream` (lines 323–325). -/
def atomicPageStream (t : PageTree) : Stream Failure (Iterated (ℤ × Option Page)) Page :=
  flatMap id t.rawStream

/-! ## The stream of a transaction -/

end PageTree

namespace PageTreeNode

variable {t t' : PageTree} {n : PageTreeNode} {p : Ptr} {fuel : ℕ}

/-- No id is negative. -/
theorem getTreeId_nonneg {id : ℤ} (h : n.getTreeId fuel p t = .ok (id, t')) : 0 ≤ id := by
  cases fuel with
  | zero => cases h
  | succ fuel =>
    unfold getTreeId at h
    cases hparent : n.parent with
    | none =>
      rw [hparent] at h
      cases h
      decide
    | some parentPtr =>
      rw [hparent] at h
      obtain ⟨parentNode, t₁, -, h⟩ := bind_ok_iff.mp h
      obtain ⟨parentId, t₂, -, h⟩ := bind_ok_iff.mp h
      obtain ⟨bit, t₃, -, h⟩ := bind_ok_iff.mp h
      split_ifs at h with hneg
      · cases h
      · cases h
        exact Int.not_lt.mp hneg

/-- The cursor after a page is `-1`, or an id. -/
theorem getCursorBlock_next {next : ℤ} {page : Option Page}
    (h : n.getCursorBlock fuel p t = .ok ((next, page), t')) : -1 ≤ next := by
  unfold getCursorBlock at h
  obtain ⟨nextNode, t₁, -, h⟩ := bind_ok_iff.mp h
  obtain ⟨value, t₂, -, h⟩ := bind_ok_iff.mp h
  cases nextNode with
  | none =>
    cases h
    exact le_refl _
  | some nextPtr =>
    obtain ⟨m, t₃, -, h⟩ := bind_ok_iff.mp h
    obtain ⟨nextId, t₄, hid, h⟩ := bind_ok_iff.mp h
    cases h
    have := getTreeId_nonneg hid
    omega

end PageTreeNode

namespace PageTree

variable {t : PageTree} {F : Finset Ptr} {L : List Ptr} {q : Ptr} {i : ℕ}

theorem nextBlock_page {cursor next : ℤ} {page : Page}
    (h : t.nextBlock cursor = .ok (next, some page)) : -1 ≤ next := by
  have hfst : ∀ {x : Except Failure ((ℤ × Option Page) × PageTree)},
      x.map Prod.fst = .ok (next, some page) → ∃ t', x = .ok ((next, some page), t') := by
    intro x hx
    cases x with
    | error e => cases hx
    | ok r => exact ⟨r.2, congrArg (fun y => Except.ok (y, r.2)) (Except.ok.inj hx)⟩
  unfold PageTree.nextBlock at h
  by_cases hneg : cursor < 0
  · rw [if_pos hneg] at h
    cases h
  · rw [if_neg hneg] at h
    cases hr : t.nodes.get rootPtr with
    | none =>
      rw [hr] at h
      cases h
    | some root =>
      rw [hr] at h
      obtain ⟨t', hrun⟩ := hfst h
      split_ifs at hrun
      · obtain ⟨nodePtr, t₁, -, hrun⟩ := bind_ok_iff.mp hrun
        obtain ⟨node, t₂, -, hrun⟩ := bind_ok_iff.mp hrun
        exact PageTreeNode.getCursorBlock_next hrun
      · obtain ⟨nodePtr, t₁, -, hrun⟩ := bind_ok_iff.mp hrun
        obtain ⟨node, t₂, -, hrun⟩ := bind_ok_iff.mp hrun
        exact PageTreeNode.getCursorBlock_next hrun

/-- Where the streams are after the start. -/
def Started (s : Iterated (ℤ × Option Page)) : Prop := s = firstBlock ∨ ∃ b, s = .after b

variable {b : ℤ × Option Page} {s : Iterated (ℤ × Option Page)}

/-- A block without a page is passed over, and one with a page is taken: its cursor is `-1` or an
    id. -/
theorem txnPageStream_block (hs : t.blockStream s = .yield b (.after b))
    (hpage : ∀ page, b.2 = some page → -1 ≤ b.1) : t.txnPageStream s = .skip (.after b) ∨
      ∃ page, t.txnPageStream s = .yield page (.after b) := by
  obtain ⟨next, _ | page⟩ := b
  · exact .inl (map_skip (takeWhile_skip (flatMap_none hs rfl)))
  · have hfirst : flatMap (fun x : ℤ × Option Page => x.2.map fun page => (x.1, page))
        t.blockStream s = .yield (next, page) (.after (next, some page)) := flatMap_yield hs rfl
    exact .inr ⟨page, map_yield (takeWhile_yield hfirst (decide_eq_true (hpage page rfl)))⟩

theorem txnPageStream_step (hs : Started s) : (∃ e, t.txnPageStream s = .fail e) ∨
    (∃ b, t.txnPageStream s = .skip (.after b)) ∨
      ∃ b page, t.txnPageStream s = .yield page (.after b) := by
  have hcases : ∀ b, t.txnPageStream s = .skip (.after b) ∨
      (∃ page, t.txnPageStream s = .yield page (.after b)) →
      (∃ e, t.txnPageStream s = .fail e) ∨ (∃ b, t.txnPageStream s = .skip (.after b)) ∨
        ∃ b page, t.txnPageStream s = .yield page (.after b) := by
    rintro b (h | ⟨page, h⟩)
    · exact .inr (.inl ⟨b, h⟩)
    · exact .inr (.inr ⟨b, page, h⟩)
  rcases hs with rfl | ⟨b, rfl⟩
  · exact hcases _ (txnPageStream_block rfl nofun)
  · cases hb : t.nextBlock b.1 with
    | error e => exact .inl ⟨e, map_fail (takeWhile_fail (flatMap_fail (iterate_error hb)))⟩
    | ok b' =>
      refine hcases b' (txnPageStream_block (iterate_ok hb) fun page hpage => ?_)
      have hb' : t.nextBlock b.1 = .ok (b'.1, some page) := by rw [hb, ← hpage]
      exact nextBlock_page hb'

/-- Without a page, it goes on without an element. -/
theorem txnPageStream_skips (hr : t.nodes.get rootPtr = none) (hs : Started s) :
    ∃ s', t.txnPageStream s = .skip s' ∧ Started s' := by
  rcases hs with rfl | ⟨b, rfl⟩
  · exact ⟨_, rfl, .inr ⟨_, rfl⟩⟩
  · have hnext : ∃ next, t.nextBlock b.1 = .ok (next, none) := by
      unfold PageTree.nextBlock
      rw [hr]
      split_ifs <;> exact ⟨_, rfl⟩
    obtain ⟨next, hnext⟩ := hnext
    exact ⟨.after (next, none), map_skip (takeWhile_skip (flatMap_none (iterate_ok hnext) rfl)),
      .inr ⟨_, rfl⟩⟩

/-- It is never read to its end: behind the last page it looks for another one. -/
theorem txnPageStream_not_reads (t : PageTree) (l : List Page) :
    ¬Reads t.txnPageStream firstBlock l := by
  refine not_reads (I := Started) ?_ ?_ ?_ (.inl rfl)
  · intro s hs hdone
    rcases txnPageStream_step hs with ⟨e, h⟩ | ⟨b, h⟩ | ⟨b, page, h⟩ <;> rw [h] at hdone <;>
      cases hdone
  · intro s s' hs hskip
    rcases txnPageStream_step hs with ⟨e, h⟩ | ⟨b, h⟩ | ⟨b, page, h⟩ <;> rw [h] at hskip <;>
      cases hskip
    exact .inr ⟨b, rfl⟩
  · intro s a s' hs hyield
    rcases txnPageStream_step hs with ⟨e, h⟩ | ⟨b, h⟩ | ⟨b, page, h⟩ <;> rw [h] at hyield <;>
      cases hyield
    exact .inr ⟨b, rfl⟩

/-! ## The stream outside of a transaction -/

/-- One page. -/
theorem atomicPageStream_page {next : ℤ} {page : Page}
    (hb : t.nextBlock b.1 = .ok (next, some page)) :
    t.atomicPageStream (.after b) = .yield page (.after (next, some page)) := by
  have hlt : -2 < next := by
    have := nextBlock_page hb
    omega
  exact flatMap_yield (map_yield (takeWhile_yield (iterate_ok hb) (decide_eq_true hlt))) rfl

/-- Behind the last page is the end. -/
theorem atomicPageStream_end {page : Option Page} :
    t.atomicPageStream (.after (-1, page)) = .done := by
  have hnext : t.nextBlock (-1) = .ok (-2, none) := rfl
  exact flatMap_done (map_done (takeWhile_stop (iterate_ok hnext) rfl))

/-- From a place on, it has the pages of the nodes from there on. -/
theorem Consistent.reads_from (h : Consistent t F) (hshallow : Shallow t F)
    (hl : Linked t.nodes none (some rootPtr) F) (hi : InOrder t.nodes (some rootPtr) L)
    (hL : (L : Multiset Ptr) = F.val) (hq : L[i]? = some q) (hcursor : CursorAt t L i b.1) :
    ∃ pages, pages.map some = (L.drop i).map t.pageOf ∧
      Reads t.atomicPageStream (.after b) pages := by
  induction hlen : L.length - i generalizing i q b with
  | zero =>
    have := (List.getElem?_eq_some_iff.mp hq).1
    omega
  | succ k ih =>
    obtain ⟨v, next, hv, hblock, hnext⟩ := h.nextBlock_of_shallow hshallow hl hi hL hq hcursor
    obtain ⟨pages, hpages, hreads⟩ : ∃ pages, pages.map some = (L.drop (i + 1)).map t.pageOf ∧
        Reads t.atomicPageStream (.after (next, some v)) pages := by
      rcases hnext with ⟨hlast, rfl⟩ | ⟨q', hq', hcursor'⟩
      · rw [List.drop_eq_nil_of_le (List.getElem?_eq_none_iff.mp hlast)]
        exact ⟨[], rfl, reads_done atomicPageStream_end⟩
      · exact ih (b := (next, some v)) hq' hcursor' (by omega)
    refine ⟨v :: pages, ?_, reads_yield (atomicPageStream_page hblock) hreads⟩
    rw [drop_of_getElem? hq, List.map_cons, List.map_cons, hv, hpages]

/-- It ends, and has had the page of every node once, in the order of the tree. -/
theorem Consistent.reads_atomicPageStream (h : Consistent t F) (hshallow : Shallow t F) :
    ∃ (L : List Ptr) (pages : List Page), InOrder t.nodes t.rootLink L ∧
      (L : Multiset Ptr) = F.val ∧ pages.map some = L.map t.pageOf ∧
      Reads t.atomicPageStream firstBlock pages := by
  have hfirst : t.atomicPageStream firstBlock = .skip (.after (0, none)) := rfl
  rcases h.places with ⟨hr, hlink, rfl⟩ | ⟨L, q, hlink, hl, hi, hL, hq⟩
  · have hskip : t.atomicPageStream (.after (0, none)) = .skip (.after (-1, none)) :=
      flatMap_none (map_yield (takeWhile_yield (iterate_ok (nextBlock_of_empty hr)) rfl)) rfl
    exact ⟨[], [], hlink ▸ .nil, rfl, rfl,
      reads_skip hfirst (reads_skip hskip (reads_done atomicPageStream_end))⟩
  · obtain ⟨pages, hpages, hreads⟩ :=
      h.reads_from (b := (0, none)) hshallow hl hi hL hq (.inl ⟨rfl, rfl⟩)
    exact ⟨L, pages, hlink ▸ hi, hL, hpages, reads_skip hfirst hreads⟩

/-- The list of pages of `PageTree.pageStream` is what the stream is read to. -/
theorem reads_of_blocks {fuel : ℕ} {pages : List Page} (h : t.blocks fuel b.1 = .ok pages) :
    Reads t.atomicPageStream (.after b) pages := by
  induction fuel generalizing b pages with
  | zero => cases h
  | succ fuel ih =>
    unfold PageTree.blocks at h
    cases hb : t.nextBlock b.1 with
    | error e =>
      rw [hb] at h
      cases h
    | ok b' =>
      obtain ⟨next, page⟩ := b'
      rw [hb] at h
      change (if next > -2 then (do
        return page.toList ++ (← t.blocks fuel next) : Except Failure (List Page))
        else return []) = _ at h
      split_ifs at h with hgt
      · have htake : takeWhile (fun x : ℤ × Option Page => -2 < x.1) t.blockStream (.after b) =
            .yield (next, page) (.after (next, page)) :=
          takeWhile_yield (iterate_ok hb) (decide_eq_true hgt)
        cases hrest : t.blocks fuel next with
        | error e =>
          rw [hrest] at h
          cases h
        | ok rest =>
          rw [hrest] at h
          cases h
          have hreads := ih (b := (next, page)) hrest
          cases page with
          | none => exact reads_skip (flatMap_none (map_yield htake) rfl) hreads
          | some page => exact reads_yield (flatMap_yield (map_yield htake) rfl) hreads
      · cases h
        exact reads_done (flatMap_done (map_done
          (takeWhile_stop (iterate_ok hb) (decide_eq_false hgt))))

theorem reads_of_pageStream {pages : List Page} (h : t.pageStream = .ok pages) :
    Reads t.atomicPageStream firstBlock pages :=
  reads_skip rfl (reads_of_blocks (b := (0, none)) h)

/-! ## Both streams -/

/-- There is no list that both streams are read to. -/
theorem streams_not_same (t : PageTree) : ¬∃ pages, Reads t.txnPageStream firstBlock pages ∧
    Reads t.atomicPageStream firstBlock pages := by
  rintro ⟨pages, hpages, -⟩
  exact t.txnPageStream_not_reads pages hpages

/-- Of an empty tree, the stream outside of a transaction is empty. The other one looks for a page
    for ever. -/
theorem streams_of_empty : Consistent create ∅ ∧ Reads create.atomicPageStream firstBlock [] ∧
    ∀ fuel, read create.txnPageStream fuel firstBlock = none := by
  refine ⟨consistent_create, ⟨4, rfl⟩, fun fuel => ?_⟩
  exact read_eq_none (fun _ => txnPageStream_skips rfl) (.inl rfl) fuel

end PageTree

end ReSTM
