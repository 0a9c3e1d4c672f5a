import ReSTM.Clustering.PageTreeStreams
import ReSTM.Clustering.TreeId

/-!
# From node to node of a classification tree

Model of `firstNode`, `nextNode` and `nextBlock` (`stm/clustering/ClassificationTreeNode.scala`,
lines 88–111 and 201–221) and of `NodeAtomicApi.nextBlock` (lines 345–365). Both versions of
`nextBlock` make the stream of the pages of a node, and so evaluate its first element. The stream
of a transaction, of a buffer without pages, has none, but does not end either.

* `ClassificationTreeNode.traversal_iff`: `nextNode` goes through all nodes, and `nextBlock` does,
  too, if there are pages in all buffers.
* `ClassificationTreeNode.followIds_atomic`: `NodeAtomicApi.nextBlock` goes through all nodes.
-/

namespace ReSTM

open BranchTree ClusterStore HeapModel LazyStream Nodes WP

/-! ## Model -/

namespace ClassificationTreeNode

/-- `firstNode` (lines 88–92). -/
def firstNode : ℕ → ClassificationTreeNode → Ptr → ClusterTxn Ptr
  | 0, _, _ => throw stackOverflow
  | fuel + 1, n, self =>
    match n.pass <|> n.fail <|> n.exception with
    | some ptr => do firstNode fuel (← onNodes (read ptr)) ptr
    | none => return self

/-- The first node under a child, or else the parent (lines 98–103). -/
def firstOr (fuel : ℕ) (child : Option Ptr) (parentPtr : Ptr) : ClusterTxn Ptr :=
  match child with
  | some nodePtr => do firstNode fuel (← onNodes (read nodePtr)) nodePtr
  | none => return parentPtr

/-- The cases of `nextNode` (lines 97–106). -/
def nextIn (fuel : ℕ) (parentNode : ClassificationTreeNode) (self parentPtr : Ptr) :
    ClusterTxn Ptr :=
  if some self = parentNode.pass then firstOr fuel (parentNode.fail <|> parentNode.exception) parentPtr
  else if some self = parentNode.fail then firstOr fuel parentNode.exception parentPtr
  else if some self = parentNode.exception then return parentPtr
  else throw (.runtimeException (self.repr ++ " not found in " ++ parentPtr.repr))

/-- `nextNode` (lines 94–111). -/
def nextNode (fuel : ℕ) (n : ClassificationTreeNode) (self root : Ptr) :
    ClusterTxn (Option Ptr) :=
  match n.parent.filter fun _ => self ≠ root with
  | some parentPtr => do
    let parentNode ← onNodes (read parentPtr)
    let ptr ← nextIn fuel parentNode self parentPtr
    if self ≠ ptr then return some ptr else throw Page.requirementFailed
  | none => return none

/-- The stream of a buffer is made, and evaluated to its first element. -/
def members {α : Type} (first : PageTree → Except Failure (Option α)) (n : ClassificationTreeNode) :
    ClusterTxn (Option α) :=
  match n.itemBuffer with
  | some b => onBuffer b fun t => (first t).map fun member => (member, t)
  | none => return none

/-- `cursorPtr` (lines 205–209). -/
def cursorPtr (fuel : ℕ) (n : ClassificationTreeNode) (cursor : ℤ) (self : Ptr) : ClusterTxn Ptr :=
  if cursor = 0 then n.firstNode fuel self else n.getByTreeId fuel cursor self

/-- `nextId` (lines 213–214). -/
def nextId (fuel : ℕ) (node : ClassificationTreeNode) (nodePtr root : Ptr) : ClusterTxn ℤ := do
  match ← node.nextNode fuel nodePtr root with
  | some y => do (← onNodes (read y)).getTreeId fuel y root
  | none => return -1

/-- `nextBlock` (lines 201–221 and 345–365), with the first element of the stream of members. -/
def nextBlock {α : Type} (first : PageTree → Except Failure (Option α)) (fuel : ℕ)
    (n : ClassificationTreeNode) (cursor : ℤ) (self root : Ptr) : ClusterTxn (ℤ × Option α) :=
  if cursor < 0 then return (cursor - 1, none)
  else do
    let nodePtr ← n.cursorPtr fuel cursor self
    let node ← onNodes (read nodePtr)
    let members ← node.members first
    let nextId ← node.nextId fuel nodePtr root
    return (nextId, members)

/-- The first page in a transaction: `itemBuffer.map(_.pageStream())` (line 212). -/
def txnFirst (fuel : ℕ) (t : PageTree) : Except Failure (Option Page) :=
  (first t.txnPageStream fuel PageTree.firstBlock).getD (throw stackOverflow)

/-- The first row outside of a transaction: `x.atomic().stream()` (line 384), of which the rows are
    those of `pageStream`. -/
def atomicFirst (fuel : ℕ) (t : PageTree) : Except Failure (Option PageRow) :=
  (first (flatMap (fun page => page.rows.head?) t.atomicPageStream) fuel
    PageTree.firstBlock).getD (throw stackOverflow)

/-- `nextNode`, again and again. -/
def traverse : ℕ → Ptr → Ptr → ClusterTxn (List Ptr)
  | 0, _, _ => throw stackOverflow
  | fuel + 1, self, root => do
    match ← (← onNodes (read self)).nextNode fuel self root with
    | some next => return self :: (← traverse fuel next root)
    | none => return [self]

/-- The nodes from `firstNode` on. -/
def traversal (fuel : ℕ) (root : Ptr) : ClusterTxn (List Ptr) := do
  let first ← (← onNodes (read root)).firstNode fuel root
  traverse fuel first root

/-- The nodes at the cursors from a cursor on, as `nextBlock` gives them. -/
def followIds {α : Type} (first : ℕ → PageTree → Except Failure (Option α)) :
    ℕ → ℤ → Ptr → ClusterTxn (List Ptr)
  | 0, _, _ => throw stackOverflow
  | fuel + 1, cursor, root =>
    if cursor < 0 then return []
    else do
      let n ← onNodes (read root)
      let nodePtr ← n.cursorPtr fuel cursor root
      let (next, _) ← n.nextBlock (first fuel) fuel cursor root root
      return nodePtr :: (← followIds first fuel next root)

end ClassificationTreeNode

/-- The nodes under a root, with buffers of pages. -/
structure BufferedSubtree (s : ClusterStore) (root : Ptr) (L : List Ptr) : Prop
    extends Subtree s root L where
  buffer : ∀ p ∈ L, ∀ n b, s.nodes.get p = some n → n.itemBuffer = some b →
    ∃ t F, s.buffers.get b = some t ∧ PageTree.Consistent t F

/-- There is a page, and the node after the first page is less than 63 levels deep. -/
def PageTree.HasFirst (t : PageTree) : Prop :=
  ∃ L, InOrder t.nodes t.rootLink L ∧ L ≠ [] ∧
    ∀ q bits, L[1]? = some q → Above t.nodes rootPtr q bits → bits.length < 63

namespace ClassificationTreeNode

variable {s : ClusterStore} {n m : ClassificationTreeNode} {p q a root : Ptr} {L : List Ptr}
  {b : Branch} {bs : List Branch} {cursor : ℤ} {fuel : ℕ}

/-! ## By the links -/

theorem childIn_all : childIn n Branches.all = (n.pass <|> n.fail <|> n.exception) := by
  have hpass : n.child .pass = n.pass := rfl
  have hfail : n.child .fail = n.fail := rfl
  have hexception : n.child .exception = n.exception := rfl
  show [Branch.pass, .fail, .exception].findSome? n.child = _
  rw [List.findSome?_cons, List.findSome?_cons, List.findSome?_cons, List.findSome?_nil, hpass,
    hfail, hexception]
  cases n.pass <;> cases n.fail <;> cases n.exception <;> rfl

theorem firstNode_succ : n.firstNode (fuel + 1) p = firstOr fuel (childIn n Branches.all) p := by
  rw [firstNode, childIn_all]
  rfl

/-- The first node of a subtree is found. -/
theorem firstNode_ends (hfirst : First s.nodes p q) (hp : s.nodes.get p = some n) :
    Ends (fun fuel => n.firstNode fuel p s) (.ok (q, s)) := by
  induction hfirst generalizing n with
  | here hget hnone =>
    obtain rfl := Option.some.inj (hp.symm.trans hget)
    refine Ends.succ ?_
    simp only [firstNode_succ, hnone]
    exact .const nofun
  | down hget hsome hrest ih =>
    obtain rfl := Option.some.inj (hp.symm.trans hget)
    obtain ⟨k, hk⟩ := hrest.stored
    refine Ends.succ ?_
    simp only [firstNode_succ, hsome]
    exact .after (onNodes_read hk) (ih hk)

/-- The branches after a branch. -/
theorem after_branch {pre post : List Branch} (h : Branches.all = pre ++ b :: post) :
    post = b.elim [.fail, .exception] [.exception] [] := by
  change [Branch.pass, .fail, .exception] = pre ++ b :: post at h
  match pre, h with
  | [], h => cases h; rfl
  | [x], h => cases h; rfl
  | [x, y], h => cases h; rfl
  | x :: y :: z :: pre, h => simp at h

/-- The cases of `nextNode` are those of the branch. -/
theorem nextIn_eq (honly : OnlyChild m p b) {pre post : List Branch}
    (hall : Branches.all = pre ++ b :: post) : nextIn fuel m p a = firstOr fuel (childIn m post) a := by
  have hchild : m.child b = some p := honly.child
  have hother : ∀ b', b' ≠ b → m.child b' ≠ some p := fun b' hne hb' => hne (honly.only b' hb')
  have hfail : m.child .fail = m.fail := rfl
  have hexception : m.child .exception = m.exception := rfl
  rw [after_branch hall]
  unfold nextIn
  cases b with
  | pass =>
    have hin : childIn m [.fail, .exception] = (m.fail <|> m.exception) := by
      show [Branch.fail, .exception].findSome? m.child = _
      rw [List.findSome?_cons, List.findSome?_cons, List.findSome?_nil, hfail, hexception]
      cases m.fail <;> cases m.exception <;> rfl
    change m.pass = some p at hchild
    rw [if_pos hchild.symm, ← hin]
    rfl
  | fail =>
    have hin : childIn m [.exception] = m.exception := by
      show [Branch.exception].findSome? m.child = _
      rw [List.findSome?_cons, List.findSome?_nil, hexception]
      cases m.exception <;> rfl
    have hpass : m.pass ≠ some p := hother .pass (by decide)
    rw [hfail] at hchild
    rw [if_neg hpass.symm, if_pos hchild.symm, ← hin]
    rfl
  | exception =>
    have hpass : m.pass ≠ some p := hother .pass (by decide)
    have hne : m.fail ≠ some p := hother .fail (by decide)
    rw [hexception] at hchild
    rw [if_neg hpass.symm, if_neg hne.symm, if_pos hchild.symm]
    rfl

/-- Below the root, the node that follows by the links is the next node. -/
theorem nextNode_ends (hnext : Next s.nodes p q) (hp : s.nodes.get p = some n) (hroot : p ≠ root)
    (hne : p ≠ q) : Ends (fun fuel => n.nextNode fuel p root s) (.ok (some q, s)) := by
  have hcases : ∀ {n m : ClassificationTreeNode} {a : Ptr} {b : Branch} {pre post : List Branch},
      s.nodes.get p = some n → n.parent = some a → s.nodes.get a = some m → OnlyChild m p b →
      Branches.all = pre ++ b :: post →
      Ends (fun fuel => firstOr fuel (childIn m post) a s) (.ok (q, s)) →
      Ends (fun fuel => n.nextNode fuel p root s) (.ok (some q, s)) := by
    intro n m a b pre post hget hparent hm honly hall hends
    simp only [nextNode, filter_of_ne hparent hroot]
    refine .after (onNodes_read hm) ?_
    simp only [nextIn_eq honly hall]
    refine .bind hends ?_
    rw [if_pos hne]
    exact .const nofun
  cases hnext with
  | sibling hget hparent hm honly hall hsome hfirst =>
    obtain rfl := Option.some.inj (hp.symm.trans hget)
    obtain ⟨k, hk⟩ := hfirst.stored
    refine hcases hget hparent hm honly hall ?_
    simp only [hsome]
    exact .after (onNodes_read hk) (firstNode_ends hfirst hk)
  | parent hget hparent hm honly hall hnone =>
    obtain rfl := Option.some.inj (hp.symm.trans hget)
    refine hcases hget hparent hm honly hall ?_
    simp only [hnone]
    exact .const nofun

theorem nextNode_root (n : ClassificationTreeNode) (s : ClusterStore) (root : Ptr) :
    Ends (fun fuel => n.nextNode fuel root root s) (.ok (none, s)) := by
  simp only [nextNode, filter_root]
  exact .const nofun

/-! ## Runs -/

/-- The nodes from a node on: they follow one another up to the root. -/
structure Rest (s : ClusterStore) (root : Ptr) (L : List Ptr) : Prop where
  chain : L.IsChain (Next s.nodes)
  last : L.getLast? = some root
  nodup : L.Nodup
  stored : ∀ q ∈ L, ∃ n, s.nodes.get q = some n
  above : ∀ q ∈ L, ∃ bs : List Branch, Above s.nodes root q bs

/-- The root is the last one, and there is a next one before it. -/
theorem Rest.cases (h : Rest s root (p :: L)) : L = [] ∧ p = root ∨
    ∃ q L', L = q :: L' ∧ p ≠ root ∧ p ≠ q ∧ Next s.nodes p q ∧ Rest s root L := by
  cases L with
  | nil => exact .inl ⟨rfl, Option.some.inj h.last⟩
  | cons q L =>
    have hnodup := List.nodup_cons.mp h.nodup
    have hchain := List.isChain_cons_cons.mp h.chain
    have hlast : (q :: L).getLast? = some root := by
      rw [← h.last, List.getLast?_cons_cons]
    refine .inr ⟨q, L, rfl, ?_, ?_, hchain.1, hchain.2, hlast, hnodup.2,
      fun r hr => h.stored r (List.mem_cons_of_mem _ hr),
      fun r hr => h.above r (List.mem_cons_of_mem _ hr)⟩
    · rintro rfl
      exact hnodup.1 (List.mem_of_getLast? hlast)
    · rintro rfl
      exact hnodup.1 List.mem_cons_self

/-- A tree has its nodes from the first one on. -/
theorem rest_of_subtree (h : Subtree s root L) :
    Rest s root L ∧ ∃ p L', L = p :: L' ∧ First s.nodes root p := by
  obtain ⟨o, hpost⟩ := h.postOrder
  have hwalk := hpost.walk h.nodup
  refine ⟨⟨hwalk.chain, hwalk.last, h.nodup, fun _ => hpost.stored, fun _ => hpost.above h.nodup⟩, ?_⟩
  obtain ⟨p, hhead, hfirst⟩ := hwalk.first
  obtain ⟨L', rfl⟩ := List.head?_eq_some_iff.mp hhead
  exact ⟨p, L', rfl, hfirst⟩

theorem traverse_ends (h : Rest s root (p :: L)) :
    Ends (fun fuel => traverse fuel p root s) (.ok (p :: L, s)) := by
  induction L generalizing p with
  | nil =>
    obtain ⟨n, hn⟩ := h.stored p List.mem_cons_self
    rcases h.cases with ⟨-, rfl⟩ | ⟨q, L', hnil, -⟩
    · refine Ends.succ ?_
      simp only [traverse]
      refine .after (onNodes_read hn) ?_
      exact .bind (nextNode_root n s p) (.const nofun)
    · cases hnil
  | cons q L ih =>
    obtain ⟨n, hn⟩ := h.stored p List.mem_cons_self
    rcases h.cases with ⟨hnil, -⟩ | ⟨_, _, heq, hroot, hne, hnext, hrest⟩
    · cases hnil
    · cases heq
      refine Ends.succ ?_
      simp only [traverse]
      refine .after (onNodes_read hn) ?_
      refine .bind (nextNode_ends hnext hn hroot hne) ?_
      exact .bind (ih hrest) (.const nofun)

/-- `nextNode` goes through all nodes. -/
theorem traversal_ends (h : Subtree s root L) :
    Ends (fun fuel => traversal fuel root s) (.ok (L, s)) := by
  obtain ⟨hrest, p, L, rfl, hfirst⟩ := rest_of_subtree h
  obtain ⟨r, hr⟩ := hrest.stored root (List.mem_of_getLast? hrest.last)
  exact .after (onNodes_read hr) (.bind (firstNode_ends hfirst hr) (traverse_ends hrest))

/-! ## Runs of ids -/

variable {α : Type} {first : ℕ → PageTree → Except Failure (Option α)}

/-- A cursor that stands for a node. -/
def AtCursor (s : ClusterStore) (root p : Ptr) (cursor : ℤ) : Prop :=
  cursor = 0 ∧ First s.nodes root p ∨ ∃ bs : List Branch, Above s.nodes root p bs ∧ cursor = treeId bs

theorem AtCursor.nonneg (h : AtCursor s root p cursor) : 0 ≤ cursor := by
  rcases h with ⟨rfl, -⟩ | ⟨bs, -, rfl⟩
  · exact le_rfl
  · have := treeId_pos bs
    omega

theorem cursorPtr_ends (h : AtCursor s root p cursor) (hr : s.nodes.get root = some n) :
    Ends (fun fuel => n.cursorPtr fuel cursor root s) (.ok (p, s)) := by
  rcases h with ⟨rfl, hfirst⟩ | ⟨bs, habove, rfl⟩
  · exact firstNode_ends hfirst hr
  · have hpos := treeId_pos bs
    obtain ⟨-, n', hn', hends⟩ := of_above habove
    obtain rfl := Option.some.inj (hr.symm.trans hn')
    have hne : treeId bs ≠ 0 := by omega
    simp only [cursorPtr, if_neg hne]
    exact hends

theorem nextId_root (n : ClassificationTreeNode) (s : ClusterStore) (root : Ptr) :
    Ends (fun fuel => n.nextId fuel root root s) (.ok (-1, s)) :=
  .bind (nextNode_root n s root) (.const nofun)

theorem nextId_ends (hnext : Next s.nodes p q) (hp : s.nodes.get p = some n) (hroot : p ≠ root)
    (hne : p ≠ q) (habove : Above s.nodes root q bs) :
    Ends (fun fuel => n.nextId fuel p root s) (.ok (treeId bs, s)) := by
  obtain ⟨⟨m, hm, hid⟩, -⟩ := of_above habove
  exact .bind (nextNode_ends hnext hp hroot hne) (.after (onNodes_read hm) hid)

/-- A buffer that is only read stays as it is. -/
theorem onBuffer_read {first : PageTree → Except Failure (Option α)} {b : Ptr} {t : PageTree}
    (ht : s.buffers.get b = some t) : onBuffer b (fun t => (first t).map fun member => (member, t)) s =
      (first t).map fun member => (member, s) := by
  have hset : { s with buffers := s.buffers.set b (some t) } = s := by rw [Heap.set_self ht]
  unfold onBuffer
  rw [ht]
  dsimp only
  cases first t with
  | error e => rfl
  | ok member =>
    show Except.ok (member, { s with buffers := s.buffers.set b (some t) }) = _
    rw [hset]
    rfl

/-- The stream of a node is made if that of its buffer is. -/
theorem members_ok_iff {first : PageTree → Except Failure (Option α)} {r : Option α × ClusterStore} :
    n.members first s = .ok r ↔ r.2 = s ∧ (n.itemBuffer = none ∧ r.1 = none ∨
      ∃ b t, n.itemBuffer = some b ∧ s.buffers.get b = some t ∧ first t = .ok r.1) := by
  obtain ⟨member, s'⟩ := r
  unfold members
  cases hbuffer : n.itemBuffer with
  | none =>
    constructor
    · rintro ⟨⟩
      exact ⟨rfl, .inl ⟨rfl, rfl⟩⟩
    · rintro ⟨rfl, ⟨-, rfl⟩ | ⟨b, t, hb, -⟩⟩
      · rfl
      · cases hb
  | some b =>
    dsimp only
    cases ht : s.buffers.get b with
    | none =>
      unfold onBuffer
      rw [ht]
      refine ⟨nofun, ?_⟩
      rintro ⟨-, ⟨hb, -⟩ | ⟨b', t, hb, ht', -⟩⟩
      · cases hb
      · cases hb
        rw [ht] at ht'
        cases ht'
    | some t =>
      rw [onBuffer_read ht]
      constructor
      · intro hok
        cases hfirst : first t with
        | error e =>
          rw [hfirst] at hok
          cases hok
        | ok member =>
          rw [hfirst] at hok
          cases hok
          exact ⟨rfl, .inr ⟨b, t, rfl, ht, hfirst⟩⟩
      · rintro ⟨rfl, ⟨hb, -⟩ | ⟨b', t', hb, ht', hfirst⟩⟩
        · cases hb
        · cases hb
          obtain rfl := Option.some.inj (ht.symm.trans ht')
          rw [hfirst]
          rfl

/-- The block of a node, and then the rest. -/
theorem followIds_block {l : List Ptr} {id : ℤ} {member : Option α}
    (hcursor : AtCursor s root p cursor) (hr : s.nodes.get root = some m)
    (hn : s.nodes.get p = some n)
    (hmember : Ends (fun fuel => n.members (first fuel) s) (.ok (member, s)))
    (hid : Ends (fun fuel => n.nextId fuel p root s) (.ok (id, s)))
    (hrest : Ends (fun fuel => followIds first fuel id root s) (.ok (l, s))) :
    Ends (fun fuel => followIds first fuel cursor root s) (.ok (p :: l, s)) := by
  have hnonneg := hcursor.nonneg
  have hblock : Ends (fun fuel => m.nextBlock (first fuel) fuel cursor root root s)
      (.ok ((id, member), s)) := by
    simp only [nextBlock, if_neg (Int.not_lt.mpr hnonneg)]
    refine .bind (cursorPtr_ends hcursor hr) ?_
    refine .after (onNodes_read hn) ?_
    exact .bind hmember (.bind hid (.const nofun))
  refine Ends.succ ?_
  simp only [followIds, if_neg (Int.not_lt.mpr hnonneg)]
  refine .after (onNodes_read hr) ?_
  refine .bind (cursorPtr_ends hcursor hr) ?_
  exact .bind hblock (.bind hrest (.const nofun))

/-- `nextBlock` goes on from node to node, where the streams are made. -/
theorem followIds_ends (h : Rest s root (p :: L)) (hcursor : AtCursor s root p cursor)
    (hmembers : ∀ q ∈ p :: L, ∀ n, s.nodes.get q = some n →
      ∃ r, Ends (fun fuel => n.members (first fuel) s) (.ok (r, s))) :
    Ends (fun fuel => followIds first fuel cursor root s) (.ok (p :: L, s)) := by
  induction L generalizing p cursor with
  | nil =>
    obtain ⟨n, hn⟩ := h.stored p List.mem_cons_self
    obtain ⟨member, hmember⟩ := hmembers p List.mem_cons_self n hn
    rcases h.cases with ⟨-, rfl⟩ | ⟨q, L', hnil, -⟩
    · refine followIds_block hcursor hn hn hmember (nextId_root n s p) (.succ ?_)
      simp only [followIds]
      exact .const nofun
    · cases hnil
  | cons q L ih =>
    obtain ⟨n, hn⟩ := h.stored p List.mem_cons_self
    obtain ⟨r, hr⟩ := h.stored root (List.mem_of_getLast? h.last)
    obtain ⟨member, hmember⟩ := hmembers p List.mem_cons_self n hn
    obtain ⟨bs, habove⟩ := h.above q (List.mem_cons_of_mem _ List.mem_cons_self)
    rcases h.cases with ⟨hnil, -⟩ | ⟨_, _, heq, hroot, hne, hnext, hrest⟩
    · cases hnil
    · cases heq
      refine followIds_block hcursor hr hn hmember (nextId_ends hnext hn hroot hne habove) ?_
      exact ih hrest (.inr ⟨bs, habove, rfl⟩) fun q hq => hmembers q (List.mem_cons_of_mem _ hq)

/-- From a given fuel on, the nodes are followed to the end. -/
def Follows (s : ClusterStore) (root : Ptr) (first : ℕ → PageTree → Except Failure (Option α))
    (cursor : ℤ) : Prop :=
  ∃ k, ∀ fuel, k ≤ fuel → ∃ r, followIds first fuel cursor root s = .ok r

/-- A block that is passed has made its stream. -/
theorem Follows.block {id : ℤ} (h : Follows s root first cursor)
    (hcursor : AtCursor s root p cursor) (hr : s.nodes.get root = some m)
    (hn : s.nodes.get p = some n)
    (hid : Ends (fun fuel => n.nextId fuel p root s) (.ok (id, s))) :
    (∃ fuel r, n.members (first fuel) s = .ok r) ∧ Follows s root first id := by
  have hnonneg := hcursor.nonneg
  obtain ⟨k, hk⟩ := h
  obtain ⟨-, kp, hp⟩ := cursorPtr_ends hcursor hr
  obtain ⟨-, ki, hi⟩ := hid
  have hstep : ∀ fuel, max k (max kp ki) ≤ fuel → (∃ r, n.members (first fuel) s = .ok r) ∧
      ∃ r, followIds first fuel id root s = .ok r := by
    intro fuel hfuel
    have hkp := hp fuel (by omega)
    have hki := hi fuel (by omega)
    dsimp only at hkp hki
    obtain ⟨⟨nodes, s'⟩, hrun⟩ := hk (fuel + 1) (by omega)
    simp only [followIds, if_neg (Int.not_lt.mpr hnonneg)] at hrun
    rw [bind_ok (onNodes_read hr), bind_ok hkp] at hrun
    obtain ⟨⟨next, member⟩, s₁, hblock, hrun⟩ := bind_ok_iff.mp hrun
    simp only [nextBlock, if_neg (Int.not_lt.mpr hnonneg)] at hblock
    rw [bind_ok hkp, bind_ok (onNodes_read hn)] at hblock
    obtain ⟨member', s₂, hmembers, hid⟩ := bind_ok_iff.mp hblock
    have hsame : s₂ = s := (members_ok_iff.mp hmembers).1
    rw [hsame, bind_ok hki] at hid
    cases hid
    obtain ⟨rest, s₃, hrest, -⟩ := bind_ok_iff.mp hrun
    exact ⟨⟨_, hmembers⟩, _, hrest⟩
  obtain ⟨hmembers, -⟩ := hstep _ le_rfl
  exact ⟨⟨_, hmembers⟩, _, fun fuel hfuel => (hstep fuel hfuel).2⟩

/-- Where `nextBlock` gets through, the streams are made. -/
theorem Follows.members (h : Follows s root first cursor) (hrest : Rest s root (p :: L))
    (hcursor : AtCursor s root p cursor) :
    ∀ q ∈ p :: L, ∀ n, s.nodes.get q = some n → ∃ fuel r, n.members (first fuel) s = .ok r := by
  obtain ⟨r, hr⟩ := hrest.stored root (List.mem_of_getLast? hrest.last)
  induction L generalizing p cursor with
  | nil =>
    rcases hrest.cases with ⟨-, rfl⟩ | ⟨q, L', hnil, -⟩
    · intro q hq n hn
      obtain rfl := List.mem_singleton.mp hq
      exact (h.block hcursor hr hn (nextId_root n s q)).1
    · cases hnil
  | cons q L ih =>
    rcases hrest.cases with ⟨hnil, -⟩ | ⟨_, _, heq, hroot, hne, hnext, hrest'⟩
    · cases hnil
    · cases heq
      obtain ⟨n, hn⟩ := hrest.stored p List.mem_cons_self
      obtain ⟨bs, habove⟩ := hrest.above q (List.mem_cons_of_mem _ List.mem_cons_self)
      have hblock := h.block hcursor hr hn (nextId_ends hnext hn hroot hne habove)
      intro q' hq' n' hn'
      rcases List.mem_cons.mp hq' with rfl | hq'
      · obtain rfl := Option.some.inj (hn.symm.trans hn')
        exact hblock.1
      · exact ih hblock.2 hrest' (.inr ⟨bs, habove, rfl⟩) q' hq' n' hn'

end ClassificationTreeNode

/-! ## The first page of a buffer -/

namespace PageTree

open ClassificationTreeNode

variable {t : PageTree} {F : Finset Ptr}

/-- Without a page, the stream of a transaction is never made. -/
theorem txnFirst_of_empty (hr : t.nodes.get rootPtr = none) (fuel : ℕ) :
    txnFirst fuel t = .error stackOverflow := by
  have hnone : first t.txnPageStream fuel firstBlock = none :=
    first_eq_none (fun _ => txnPageStream_skips hr) (.inl rfl) fuel
  rw [txnFirst, hnone]
  rfl

theorem txnFirst_of_page {next : ℤ} {v : Page} (h : t.nextBlock 0 = .ok (next, some v)) (fuel : ℕ) :
    txnFirst (fuel + 2) t = .ok (some v) := by
  have hflat : flatMap (fun x : ℤ × Option Page => x.2.map fun page => (x.1, page))
      t.blockStream (.after (0, none)) = .yield (next, v) (.after (next, some v)) :=
    flatMap_yield (iterate_ok h) rfl
  have hyield : t.txnPageStream (.after (0, none)) = .yield v (.after (next, some v)) :=
    map_yield (takeWhile_yield hflat (decide_eq_true (nextBlock_page h)))
  have hstart : t.txnPageStream firstBlock = .skip (.after (0, none)) := rfl
  rw [txnFirst, first_skip hstart, first_yield hyield]
  rfl

theorem txnFirst_of_failure {e : Failure} (h : t.nextBlock 0 = .error e) (fuel : ℕ)
    (r : Option Page) : txnFirst fuel t ≠ .ok r := by
  intro hok
  have hfail : t.txnPageStream (.after (0, none)) = .fail e :=
    map_fail (takeWhile_fail (flatMap_fail (iterate_error h)))
  have hstart : t.txnPageStream firstBlock = .skip (.after (0, none)) := rfl
  cases fuel with
  | zero => cases hok
  | succ fuel =>
    cases fuel with
    | zero => cases hok
    | succ fuel =>
      rw [txnFirst, first_skip hstart, first_fail hfail] at hok
      cases hok

/-- The stream of a transaction is made if there is a first page. -/
theorem Consistent.txnFirst_cases (h : Consistent t F) :
    (t.HasFirst ∧ ∃ page, ∀ fuel, txnFirst (fuel + 2) t = .ok (some page)) ∨
      ¬t.HasFirst ∧ ∀ fuel r, txnFirst fuel t ≠ .ok r := by
  rcases h.places with ⟨hr, hlink, -⟩ | ⟨L, q, hlink, hl, hi, hL, hq⟩
  · refine .inr ⟨?_, fun fuel r hok => ?_⟩
    · rintro ⟨L, hi, hne, -⟩
      rw [hlink] at hi
      cases hi
      exact hne rfl
    · rw [txnFirst_of_empty hr] at hok
      cases hok
  · have hne : L ≠ [] := by
      rintro rfl
      cases hq
    obtain ⟨v, -, ⟨hlast, hblock⟩ | ⟨q', bits, hq', habove, hblock⟩⟩ :=
      h.nextBlock hl hi hL hq (.inl ⟨rfl, rfl⟩)
    · refine .inl ⟨⟨L, hlink ▸ hi, hne, fun q bits hq => ?_⟩, v, txnFirst_of_page hblock⟩
      rw [hlast] at hq
      cases hq
    · by_cases hlt : treeId bits < 2 ^ 63
      · rw [if_pos hlt] at hblock
        refine .inl ⟨⟨L, hlink ▸ hi, hne, fun q bits' hq habove' => ?_⟩, v, txnFirst_of_page hblock⟩
        obtain rfl := Option.some.inj (hq'.symm.trans hq)
        rw [Linked.above_unique habove' habove]
        exact (treeId_lt_iff bits).mp hlt
      · rw [if_neg hlt] at hblock
        refine .inr ⟨?_, txnFirst_of_failure hblock⟩
        rintro ⟨L', hi', -, hshallow⟩
        obtain rfl := Linked.inOrder_unique (hlink ▸ hi') hi
        exact hlt ((treeId_lt_iff bits).mpr (hshallow q' bits hq' habove))

/-- The stream outside of a transaction is always made. -/
theorem Consistent.atomicFirst_ok (h : Consistent t F) (hshallow : Shallow t F) :
    ∃ r k, ∀ fuel, k ≤ fuel → atomicFirst fuel t = .ok r := by
  obtain ⟨-, pages, -, -, -, hreads⟩ := h.reads_atomicPageStream hshallow
  obtain ⟨r, k, hk⟩ := begins_of_reads (g := fun page : Page => page.rows.head?) hreads
  refine ⟨r, k, fun fuel hfuel => ?_⟩
  rw [atomicFirst, hk fuel hfuel]
  rfl

end PageTree

namespace ClassificationTreeNode

variable {s : ClusterStore} {root : Ptr} {L : List Ptr}

/-- The streams of all nodes are made if those of all buffers are. -/
theorem members_ends {α : Type} {first : ℕ → PageTree → Except Failure (Option α)}
    (h : BufferedSubtree s root L) (hfirst : ∀ p ∈ L, ∀ n b t, s.nodes.get p = some n →
      n.itemBuffer = some b → s.buffers.get b = some t →
      ∃ r k, ∀ fuel, k ≤ fuel → first fuel t = .ok r) :
    ∀ p ∈ L, ∀ n, s.nodes.get p = some n →
      ∃ r, Ends (fun fuel => n.members (first fuel) s) (.ok (r, s)) := by
  intro p hp n hn
  cases hb : n.itemBuffer with
  | none => exact ⟨none, nofun, 0, fun _ _ => members_ok_iff.mpr ⟨rfl, .inl ⟨hb, rfl⟩⟩⟩
  | some b =>
    obtain ⟨t, F, ht, -⟩ := h.buffer p hp n b hn hb
    obtain ⟨r, k, hk⟩ := hfirst p hp n b t hn hb ht
    exact ⟨r, nofun, k, fun fuel hfuel =>
      members_ok_iff.mpr ⟨rfl, .inr ⟨b, t, hb, ht, hk fuel hfuel⟩⟩⟩

/-- Outside of a transaction, the ids lead through all nodes. -/
theorem followIds_atomic (h : BufferedSubtree s root L) (hshallow : ∀ p ∈ L, ∀ n b t F,
    s.nodes.get p = some n → n.itemBuffer = some b → s.buffers.get b = some t →
    PageTree.Consistent t F → PageTree.Shallow t F) :
    Ends (fun fuel => followIds atomicFirst fuel 0 root s) (.ok (L, s)) := by
  obtain ⟨hrest, p, L, rfl, hfirst⟩ := rest_of_subtree h.toSubtree
  refine followIds_ends hrest (.inl ⟨rfl, hfirst⟩) (members_ends h fun p hp n b t hn hb ht => ?_)
  obtain ⟨t', F, ht', hconsistent⟩ := h.buffer p hp n b hn hb
  obtain rfl := Option.some.inj (ht.symm.trans ht')
  exact hconsistent.atomicFirst_ok (hshallow p hp n b t F hn hb ht hconsistent)

/-- From the first node, `nextNode` goes through all nodes under a root, children before parents,
    and ends at the root. In a transaction, the ids lead through them if all buffers have a first
    page, and do not otherwise. -/
theorem traversal_iff (h : BufferedSubtree s root L) :
    Ends (fun fuel => traversal fuel root s) (.ok (L, s)) ∧
      (Ends (fun fuel => followIds txnFirst fuel 0 root s) (.ok (L, s)) ↔
        ∀ p ∈ L, ∀ n b t, s.nodes.get p = some n → n.itemBuffer = some b →
          s.buffers.get b = some t → t.HasFirst) := by
  refine ⟨traversal_ends h.toSubtree, ?_⟩
  obtain ⟨hrest, p, L, rfl, hfirst⟩ := rest_of_subtree h.toSubtree
  constructor
  · rintro ⟨-, k, hk⟩ q hq n b t hn hb ht
    have hfollows : Follows s root txnFirst 0 := ⟨k, fun fuel hfuel => ⟨_, hk fuel hfuel⟩⟩
    obtain ⟨fuel, r, hok⟩ := hfollows.members hrest (.inl ⟨rfl, hfirst⟩) q hq n hn
    obtain ⟨t', F, ht', hconsistent⟩ := h.buffer q hq n b hn hb
    obtain rfl := Option.some.inj (ht.symm.trans ht')
    rcases hconsistent.txnFirst_cases with ⟨hhas, -⟩ | ⟨-, hnot⟩
    · exact hhas
    · rcases (members_ok_iff.mp hok).2 with ⟨hnone, -⟩ | ⟨b', t', hb', ht', hmade⟩
      · rw [hb] at hnone
        cases hnone
      · obtain rfl := Option.some.inj (hb.symm.trans hb')
        obtain rfl := Option.some.inj (ht.symm.trans ht')
        exact absurd hmade (hnot fuel r.1)
  · intro hhas
    refine followIds_ends hrest (.inl ⟨rfl, hfirst⟩) (members_ends h fun q hq n b t hn hb ht => ?_)
    obtain ⟨t', F, ht', hconsistent⟩ := h.buffer q hq n b hn hb
    obtain rfl := Option.some.inj (ht.symm.trans ht')
    rcases hconsistent.txnFirst_cases with ⟨-, page, hmade⟩ | ⟨hnot, -⟩
    · refine ⟨some page, 2, fun fuel hfuel => ?_⟩
      obtain ⟨fuel, rfl⟩ := Nat.exists_eq_add_of_le' hfuel
      exact hmade fuel
    · exact absurd (hhas q hq n b t hn hb ht) hnot

/-- The three nodes, with two pages in the one buffer and none in the other one. -/
def threeNodesWithPages : ClusterStore :=
  { threeNodes with buffers := ⟨[some PageTree.twoNodes, some PageTree.create]⟩ }

theorem buffered_threeNodes : BufferedSubtree threeNodesWithPages 0 [1, 2, 0] := by
  refine ⟨⟨subtree_threeNodes.postOrder, subtree_threeNodes.nodup⟩, fun p hp n b hn hb => ?_⟩
  simp only [List.mem_cons, List.not_mem_nil, or_false] at hp
  rcases hp with rfl | rfl | rfl
  · cases hn
    cases hb
    exact ⟨_, _, rfl, PageTree.consistent_twoNodes⟩
  · cases hn
    cases hb
    exact ⟨_, _, rfl, PageTree.consistent_create⟩
  · cases hn
    cases hb

theorem traversal_iff_threeNodes :
    Ends (fun fuel => traversal fuel 0 threeNodesWithPages) (.ok ([1, 2, 0], threeNodesWithPages)) ∧
      (Ends (fun fuel => followIds txnFirst fuel 0 0 threeNodesWithPages)
          (.ok ([1, 2, 0], threeNodesWithPages)) ↔
        ∀ p ∈ [1, 2, 0], ∀ n b t, threeNodesWithPages.nodes.get p = some n →
          n.itemBuffer = some b → threeNodesWithPages.buffers.get b = some t → t.HasFirst) :=
  traversal_iff buffered_threeNodes

/-- A new tree: a root with an empty buffer. -/
def newTree : ClusterStore where
  nodes := ⟨[some { parent := none, itemBuffer := some 0 }]⟩
  buffers := ⟨[some PageTree.create]⟩
  choices _ _ := false

/-- In a new tree, the block of the only node is never made. -/
theorem followIds_newTree : BufferedSubtree newTree 0 [0] ∧
    ∀ fuel r, followIds txnFirst fuel 0 0 newTree ≠ .ok r := by
  have hfirst : ∀ {fuel : ℕ} {n : ClassificationTreeNode} {p : Ptr} {s' : ClusterStore},
      newTree.nodes.get 0 = some n → n.cursorPtr fuel 0 0 newTree = .ok (p, s') →
      p = 0 ∧ s' = newTree := by
    intro fuel n p s' hn hptr
    cases hn
    cases fuel with
    | zero => cases hptr
    | succ fuel =>
      cases hptr
      exact ⟨rfl, rfl⟩
  refine ⟨⟨⟨⟨none, postOrder_leaf (s := newTree) (p := 0) rfl rfl fun b => by cases b <;> rfl⟩,
    by decide⟩, ?_⟩, ?_⟩
  · intro p hp n b hn hb
    obtain rfl := List.mem_singleton.mp hp
    cases hn
    cases hb
    exact ⟨_, _, rfl, PageTree.consistent_create⟩
  · intro fuel r hrun
    cases fuel with
    | zero => cases hrun
    | succ fuel =>
      obtain ⟨n, hn⟩ : ∃ n, newTree.nodes.get 0 = some n := ⟨_, rfl⟩
      obtain ⟨r, s₁⟩ := r
      rw [followIds, if_neg (by decide), bind_ok (onNodes_read hn)] at hrun
      obtain ⟨ptr, s₂, hptr, hrun⟩ := bind_ok_iff.mp hrun
      obtain ⟨rfl, rfl⟩ := hfirst hn hptr
      obtain ⟨block, s₃, hblock, -⟩ := bind_ok_iff.mp hrun
      rw [nextBlock, if_neg (by decide), bind_ok hptr, bind_ok (onNodes_read hn)] at hblock
      obtain ⟨member, s₄, hmember, -⟩ := bind_ok_iff.mp hblock
      cases hn
      rcases (members_ok_iff.mp hmember).2 with ⟨hnone, -⟩ | ⟨b, t, hb, ht, hmade⟩
      · cases hnone
      · cases hb
        cases ht
        rw [PageTree.txnFirst_of_empty rfl] at hmade
        cases hmade

end ClassificationTreeNode

end ReSTM
