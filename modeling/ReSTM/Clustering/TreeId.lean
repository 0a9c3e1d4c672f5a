import Mathlib.Algebra.Order.Ring.Int
import Mathlib.Tactic.Ring
import ReSTM.Clustering.NodeSplit
import ReSTM.Common.BranchTree

/-!
# Ids of the nodes of a classification tree

Model of `recursePath`, `getByTreeId`, `getTreeId` and `getTreeId_Minus1`
(`stm/clustering/ClassificationTreeNode.scala`, lines 113–175) and of `Util.toDigits` of a `BigInt`
(`util/Util.scala`, lines 48–56). The nodes of a level have the ids after those of the levels above,
in the order of their paths, which are the digits to the base 3.

* `ClassificationTreeNode.getByTreeId_getTreeId`: the id of a node leads back to it.
* `ClassificationTreeNode.getByTreeId_ends_iff`: the ids that are looked up in the end.
-/

namespace ReSTM

open BranchTree ClusterStore HeapModel Nodes WP

/-! ## Model -/

namespace BigInt

/-- `Util.toDigits` of a `BigInt` (lines 48–56). -/
def toDigits (radix : ℤ) : ℕ → ℤ → Except Failure (List ℤ)
  | 0, _ => throw stackOverflow
  | fuel + 1, number =>
    if number = 0 then return []
    else do
      let bit := number % radix
      let remainder := (number - bit).tdiv radix
      return (← toDigits radix fuel remainder) ++ [bit]

end BigInt

/-- The digit of a branch. -/
def Branch.digit : Branch → ℤ
  | .pass => 0
  | .fail => 1
  | .exception => 2

/-- The cases of `recursePath`. -/
def Branch.ofDigit (digit : ℤ) : Except Failure Branch :=
  if digit = 0 then return .pass
  else if digit = 1 then return .fail
  else if digit = 2 then return .exception
  else throw (.runtimeException "scala.MatchError")

namespace ClassificationTreeNode

/-- `recursePath` (lines 113–131). -/
def recursePath : List ℤ → ClassificationTreeNode → Ptr → ClusterTxn Ptr
  | [], _, self => return self
  | digit :: path, n, _ => do
    let b ← (Branch.ofDigit digit : Except Failure Branch)
    match n.child b with
    | some ptr => do
      match ← onNodes (readOpt ptr) with
      | some node => recursePath path node ptr
      | none => throw (.noSuchElement "null")
    | none => throw .noneGet

/-- The loop of `getByTreeId` (lines 141–146): the level, and the first id of it. -/
def findLevel (cursor : ℤ) : ℕ → ℕ → ℤ → ℤ → Except Failure (ℕ × ℤ)
  | 0, _, _, _ => throw stackOverflow
  | fuel + 1, depth, lastCounter, counter =>
    if counter ≤ cursor then findLevel cursor fuel (depth + 1) counter (counter + 3 ^ (depth + 1))
    else return (depth, lastCounter)

/-- The path of an id: the digits of its place in its level (lines 138–148). -/
def treePath (fuel : ℕ) (cursor : ℤ) : Except Failure (List ℤ) := do
  let (depth, lastCounter) ← findLevel cursor fuel 0 1 2
  let path ← BigInt.toDigits 3 fuel (cursor - lastCounter)
  return List.replicate (depth - path.length) 0 ++ path

/-- `getByTreeId` (lines 133–151). -/
def getByTreeId (fuel : ℕ) (cursor : ℤ) (n : ClassificationTreeNode) (self : Ptr) :
    ClusterTxn Ptr := do
  if cursor < 0 then throw Page.requirementFailed
  if cursor = 1 then return self
  else do
    let path ← (treePath fuel cursor : Except Failure (List ℤ))
    n.recursePath path self

/-- `getTreeId_Minus1` (lines 163–175). -/
def getTreeId_Minus1 : ℕ → ClassificationTreeNode → Ptr → Ptr → ClusterTxn ℤ
  | 0, _, _, _ => throw stackOverflow
  | fuel + 1, n, self, root =>
    match n.parent.filter fun _ => self ≠ root with
    | some parentPtr => do
      let parentNode ← onNodes (read parentPtr)
      let parentId ← parentNode.getTreeId_Minus1 fuel parentPtr root
      let bit ← parentNode.getTreeBit self
      let id := parentId * 3 + bit + 1
      if id < 0 then throw (.runtimeException "Node is too deep to calculate id") else return id
    | none => return 0

/-- `getTreeId` (lines 153–161). -/
def getTreeId (fuel : ℕ) (n : ClassificationTreeNode) (self root : Ptr) : ClusterTxn ℤ := do
  let id := (← n.getTreeId_Minus1 fuel self root) + 1
  let rootValue ← onNodes (read root)
  let verifyNode ← rootValue.getByTreeId fuel id root
  if verifyNode = self then return id else throw Page.requirementFailed

end ClassificationTreeNode

/-! ## Trees -/

instance : Branches Branch where
  all := [.pass, .fail, .exception]
  mem_all b := by cases b <;> simp

instance : BranchNode ClassificationTreeNode Branch where
  parent := ClassificationTreeNode.parent
  child := ClassificationTreeNode.child

/-- The nodes under a root, in post-order. Each of them is there once. The root may have a parent
    that is not in the list. -/
structure Subtree (s : ClusterStore) (root : Ptr) (L : List Ptr) : Prop where
  postOrder : ∃ parent, PostOrder s.nodes parent (some root) L
  nodup : L.Nodup

/-- Some fuel is enough for a result, and more of it makes no difference. -/
def Ends {α : Type} (f : ℕ → Except Failure α) (r : Except Failure α) : Prop :=
  r ≠ .error stackOverflow ∧ ∃ k, ∀ fuel, k ≤ fuel → f fuel = r

namespace Ends

variable {α β : Type} {s s' : ClusterStore} {a : α} {f : ℕ → ClusterTxn α}
  {g : ℕ → α → ClusterTxn β} {r : Except Failure (β × ClusterStore)}

/-- A step that ends comes first. -/
theorem bind (h : Ends (fun fuel => f fuel s) (.ok (a, s'))) (hrest : Ends (fun fuel => g fuel a s') r) :
    Ends (fun fuel => (f fuel >>= g fuel) s) r := by
  obtain ⟨-, k, hk⟩ := h
  obtain ⟨hr, k', hk'⟩ := hrest
  refine ⟨hr, max k k', fun fuel hfuel => ?_⟩
  exact (bind_ok (hk fuel (le_of_max_le_left hfuel))).trans (hk' fuel (le_of_max_le_right hfuel))

/-- A step without fuel comes first. -/
theorem after {x : ClusterTxn α} (h : x s = .ok (a, s')) (hrest : Ends (fun fuel => g fuel a s') r) :
    Ends (fun fuel => (x >>= g fuel) s) r := by
  obtain ⟨hr, k, hk⟩ := hrest
  exact ⟨hr, k, fun fuel hfuel => (bind_ok h).trans (hk fuel hfuel)⟩

/-- A result without fuel. -/
theorem const {r : Except Failure α} (h : r ≠ .error stackOverflow) : Ends (fun _ => r) r :=
  ⟨h, 0, fun _ _ => rfl⟩

/-- One more unit of fuel. -/
theorem succ {f : ℕ → Except Failure α} {r : Except Failure α}
    (h : Ends (fun fuel => f (fuel + 1)) r) : Ends f r := by
  obtain ⟨hr, k, hk⟩ := h
  refine ⟨hr, k + 1, fun fuel hfuel => ?_⟩
  obtain ⟨fuel, rfl⟩ := Nat.exists_eq_succ_of_ne_zero (Nat.ne_zero_of_lt hfuel)
  exact hk fuel (Nat.le_of_succ_le_succ hfuel)

end Ends

theorem Ends.unique {α : Type} {f : ℕ → Except Failure α} {r r' : Except Failure α}
    (h : Ends f r) (h' : Ends f r') : r = r' := by
  obtain ⟨-, k, hk⟩ := h
  obtain ⟨-, k', hk'⟩ := h'
  rw [← hk (max k k') (le_max_left _ _), hk' _ (le_max_right _ _)]

namespace ClassificationTreeNode

/-- A node gets this id. -/
def HasId (s : ClusterStore) (root p : Ptr) (id : ℤ) : Prop :=
  ∃ n, s.nodes.get p = some n ∧ Ends (fun fuel => n.getTreeId fuel p root s) (.ok (id, s))

/-- An id leads to this node. -/
def Finds (s : ClusterStore) (root : Ptr) (id : ℤ) (p : Ptr) : Prop :=
  ∃ n, s.nodes.get root = some n ∧ Ends (fun fuel => n.getByTreeId fuel id root s) (.ok (p, s))

/-! ## Paths and ids -/

/-- The id at the end of a path from the root, with the last branch first. -/
def treeId (bs : List Branch) : ℤ := bs.foldr (fun b id => (id - 1) * 3 + b.digit + 2) 1

/-- The first id of a level. -/
def levelStart : ℕ → ℤ
  | 0 => 1
  | depth + 1 => levelStart depth + 3 ^ depth

/-- The place in its level at the end of a path, with the last branch first. -/
def offset (bs : List Branch) : ℤ := bs.foldr (fun b place => place * 3 + b.digit) 0

variable {bs : List Branch} {b : Branch} {s : ClusterStore} {n : ClassificationTreeNode}
  {p q root self : Ptr} {L : List Ptr} {fuel : ℕ} {cursor id : ℤ}

theorem treeId_cons : treeId (b :: bs) = (treeId bs - 1) * 3 + b.digit + 2 := rfl

theorem offset_cons : offset (b :: bs) = offset bs * 3 + b.digit := rfl

theorem digit_bounds (b : Branch) : 0 ≤ b.digit ∧ b.digit < 3 := by cases b <;> decide

theorem offset_bounds (bs : List Branch) : 0 ≤ offset bs ∧ offset bs < 3 ^ bs.length := by
  induction bs with
  | nil => decide
  | cons b bs ih =>
    have hb := digit_bounds b
    rw [offset_cons, List.length_cons, pow_succ]
    omega

theorem levelStart_succ (depth : ℕ) : levelStart (depth + 1) = levelStart depth * 3 - 1 := by
  induction depth with
  | zero => rfl
  | succ depth ih =>
    have hsucc : levelStart (depth + 1 + 1) = levelStart (depth + 1) + 3 ^ (depth + 1) := rfl
    have hdepth : levelStart (depth + 1) = levelStart depth + 3 ^ depth := rfl
    rw [pow_succ] at hsucc
    omega

theorem treeId_eq (bs : List Branch) : treeId bs = levelStart bs.length + offset bs := by
  induction bs with
  | nil => rfl
  | cons b bs ih =>
    rw [treeId_cons, offset_cons, List.length_cons, levelStart_succ, ih]
    ring

theorem treeId_pos (bs : List Branch) : 1 ≤ treeId bs := by
  induction bs with
  | nil => decide
  | cons b bs ih =>
    have hb := digit_bounds b
    rw [treeId_cons]
    omega

/-- Every positive number is an id. -/
theorem exists_treeId (hcursor : 1 ≤ cursor) : ∃ bs, treeId bs = cursor := by
  induction hn : cursor.toNat using Nat.strong_induction_on generalizing cursor with
  | _ n ih =>
    by_cases hone : cursor = 1
    · exact ⟨[], hone.symm⟩
    · obtain ⟨bs, hbs⟩ := ih ((cursor - 2) / 3 + 1).toNat (by omega) (by omega) rfl
      obtain ⟨b, hb⟩ : ∃ b : Branch, b.digit = (cursor - 2) % 3 := by
        have hcases : (cursor - 2) % 3 = 0 ∨ (cursor - 2) % 3 = 1 ∨ (cursor - 2) % 3 = 2 := by omega
        rcases hcases with h | h | h <;> rw [h]
        · exact ⟨.pass, rfl⟩
        · exact ⟨.fail, rfl⟩
        · exact ⟨.exception, rfl⟩
      refine ⟨b :: bs, ?_⟩
      rw [treeId_cons, hbs, hb]
      omega

/-- The loop finds the level of an id. -/
theorem findLevel_eq {level : ℕ} (hle : levelStart level ≤ cursor)
    (hlt : cursor < levelStart (level + 1)) (rest : ℕ) {depth : ℕ} (hdepth : depth + rest = level)
    (hfuel : rest < fuel) :
    findLevel cursor fuel depth (levelStart depth) (levelStart (depth + 1)) =
      .ok (level, levelStart level) := by
  induction rest generalizing depth fuel with
  | zero =>
    obtain ⟨fuel, rfl⟩ := Nat.exists_eq_succ_of_ne_zero (Nat.ne_of_gt hfuel)
    obtain rfl : depth = level := hdepth
    rw [findLevel, if_neg (Int.not_le.mpr hlt)]
    rfl
  | succ rest ih =>
    obtain ⟨fuel, rfl⟩ := Nat.exists_eq_succ_of_ne_zero (Nat.ne_zero_of_lt hfuel)
    have hmono : ∀ a b, levelStart a ≤ levelStart (a + b) := by
      intro a b
      induction b with
      | zero => exact le_refl _
      | succ b ihb => exact ihb.trans (le_add_of_nonneg_right (pow_nonneg (by decide) _))
    have hnext : levelStart (depth + 1) ≤ cursor := by
      have := hmono (depth + 1) rest
      rw [show depth + 1 + rest = level by omega] at this
      exact this.trans hle
    rw [findLevel, if_pos hnext]
    exact ih (by omega) (by omega)

/-- The digits of a place, filled up, are the path. -/
theorem toDigits_offset (bs : List Branch) (hfuel : bs.length < fuel) : ∃ path,
    BigInt.toDigits 3 fuel (offset bs) = .ok path ∧
      List.replicate (bs.length - path.length) 0 ++ path = bs.reverse.map Branch.digit := by
  induction bs generalizing fuel with
  | nil =>
    obtain ⟨fuel, rfl⟩ := Nat.exists_eq_succ_of_ne_zero (Nat.ne_of_gt hfuel)
    exact ⟨[], rfl, rfl⟩
  | cons b bs ih =>
    obtain ⟨fuel, rfl⟩ := Nat.exists_eq_succ_of_ne_zero (Nat.ne_zero_of_lt hfuel)
    obtain ⟨path, hpath, hdigits⟩ := ih (Nat.lt_of_succ_lt_succ hfuel)
    have hb := digit_bounds b
    have hbs := (offset_bounds bs).1
    have hlength := congrArg List.length hdigits
    rw [List.length_append, List.length_replicate, List.length_map, List.length_reverse] at hlength
    rw [List.reverse_cons, List.map_append, ← hdigits, BigInt.toDigits, offset_cons]
    by_cases hzero : offset bs * 3 + b.digit = 0
    · have hoffset : offset bs = 0 := by omega
      have hdigit : b.digit = 0 := by omega
      obtain ⟨fuel, rfl⟩ := Nat.exists_eq_succ_of_ne_zero
        (Nat.ne_zero_of_lt (Nat.lt_of_succ_lt_succ hfuel))
      rw [hoffset] at hpath
      obtain rfl : [] = path := Except.ok.inj hpath
      rw [if_pos hzero]
      refine ⟨[], rfl, ?_⟩
      rw [List.append_nil, List.append_nil, List.map_singleton, hdigit]
      exact List.replicate_succ'
    · have hbit : (offset bs * 3 + b.digit) % 3 = b.digit := by omega
      have hrest : (offset bs * 3 + b.digit - b.digit).tdiv 3 = offset bs := by
        rw [Int.add_sub_cancel]
        exact Int.mul_tdiv_cancel _ (by decide)
      rw [if_neg hzero, hbit]
      dsimp only
      rw [hrest, hpath]
      refine ⟨path ++ [b.digit], rfl, ?_⟩
      rw [List.length_append, List.length_singleton, List.length_cons, Nat.add_sub_add_right,
        List.append_assoc]
      rfl

theorem treePath_treeId (bs : List Branch) (hfuel : bs.length < fuel) :
    treePath fuel (treeId bs) = .ok (bs.reverse.map Branch.digit) := by
  have hbounds := offset_bounds bs
  have hsucc : levelStart (bs.length + 1) = levelStart bs.length + 3 ^ bs.length := rfl
  have hlevel : findLevel (treeId bs) fuel 0 1 2 = .ok (bs.length, levelStart bs.length) :=
    findLevel_eq (by rw [treeId_eq]; omega) (by rw [treeId_eq]; omega) bs.length (Nat.zero_add _)
      hfuel
  obtain ⟨path, hpath, hdigits⟩ := toDigits_offset bs hfuel
  have hoffset : treeId bs - levelStart bs.length = offset bs := by
    rw [treeId_eq]
    omega
  unfold treePath
  rw [hlevel]
  show (BigInt.toDigits 3 fuel (treeId bs - levelStart bs.length) >>= fun path =>
    (.ok (List.replicate (bs.length - path.length) 0 ++ path) : Except Failure (List ℤ))) = _
  rw [hoffset, hpath, ← hdigits]
  rfl

/-! ## From ids to nodes -/

theorem onNodes_read (hp : s.nodes.get p = some n) : onNodes (read p) s = .ok (n, s) := by
  unfold onNodes
  rw [read_some hp]
  rfl

theorem ofDigit_digit (b : Branch) : Branch.ofDigit b.digit = .ok b := by cases b <;> rfl

/-- The first branch of a path. -/
theorem recursePath_cons {path : List ℤ} : recursePath (b.digit :: path) n self s =
    match n.child b with
    | some ptr =>
      match s.nodes.get ptr with
      | some node => recursePath path node ptr s
      | none => .error (.noSuchElement "null")
    | none => .error .noneGet := by
  have hbranch : ((Branch.ofDigit b.digit : Except Failure Branch) : ClusterTxn Branch) s =
      .ok (b, s) := by
    rw [ofDigit_digit]
    rfl
  rw [recursePath, bind_ok hbranch]
  cases n.child b with
  | none => rfl
  | some ptr =>
    have hread : onNodes (readOpt ptr) s = .ok (s.nodes.get ptr, s) := rfl
    dsimp only
    rw [bind_ok hread]
    cases s.nodes.get ptr <;> rfl

/-- A path that leads down to a node is followed to it. -/
theorem recursePath_of_down (hdown : Down s.nodes self bs q) (hself : s.nodes.get self = some n) :
    recursePath (bs.map Branch.digit) n self s = .ok (q, s) := by
  induction hdown generalizing n with
  | here => rfl
  | child hget hchild hstored _ ih =>
    obtain rfl := Option.some.inj (hself.symm.trans hget)
    rw [List.map_cons, recursePath_cons]
    change ClassificationTreeNode.child n _ = some _ at hchild
    rw [hchild]
    dsimp only
    rw [hstored]
    exact ih hstored

/-- A path leads to a node below, or is refused. -/
theorem recursePath_cases (hself : s.nodes.get self = some n) (bs : List Branch) :
    (∃ q, recursePath (bs.map Branch.digit) n self s = .ok (q, s) ∧ Down s.nodes self bs q) ∨
      ∃ e, e ≠ stackOverflow ∧ recursePath (bs.map Branch.digit) n self s = .error e := by
  induction bs generalizing n self with
  | nil => exact .inl ⟨self, rfl, .here⟩
  | cons b bs ih =>
    rw [List.map_cons, recursePath_cons]
    cases hchild : n.child b with
    | none => exact .inr ⟨.noneGet, by decide, rfl⟩
    | some ptr =>
      dsimp only
      cases hptr : s.nodes.get ptr with
      | none => exact .inr ⟨.noSuchElement "null", by decide, rfl⟩
      | some node =>
        rcases ih hptr with ⟨q, hq, hdown⟩ | hrefused
        · exact .inl ⟨q, hq, .child hself hchild hptr hdown⟩
        · exact .inr hrefused

/-- An id is looked up by its path. -/
theorem getByTreeId_treeId (bs : List Branch) (hfuel : bs.length < fuel) :
    n.getByTreeId fuel (treeId bs) self s = recursePath (bs.reverse.map Branch.digit) n self s := by
  have hpos := treeId_pos bs
  have hpath : ((treePath fuel (treeId bs) : Except Failure (List ℤ)) : ClusterTxn (List ℤ)) s =
      .ok (bs.reverse.map Branch.digit, s) := by
    rw [treePath_treeId bs hfuel]
    rfl
  unfold getByTreeId
  rw [if_neg (by omega)]
  cases bs with
  | nil => rfl
  | cons b bs =>
    have hb := digit_bounds b
    have hbs := treeId_pos bs
    have hne : treeId (b :: bs) ≠ 1 := by
      rw [treeId_cons]
      omega
    show (if treeId (b :: bs) = 1 then _ else _ : ClusterTxn Ptr) s = _
    rw [if_neg hne]
    exact bind_ok hpath

/-! ## From nodes to ids -/

theorem getTreeBit_eq (h : OnlyChild n p b) : n.getTreeBit p s = .ok (b.digit.toNat, s) := by
  have hchild : n.child b = some p := h.child
  have honly : ∀ b', b' ≠ b → n.child b' ≠ some p := fun b' hne hb' => hne (h.only b' hb')
  unfold getTreeBit
  cases b with
  | pass =>
    change n.pass = some p at hchild
    rw [if_pos hchild]
    rfl
  | fail =>
    have hpass : n.pass ≠ some p := honly .pass (by decide)
    change n.fail = some p at hchild
    rw [if_neg hpass, if_pos hchild]
    rfl
  | exception =>
    have hpass : n.pass ≠ some p := honly .pass (by decide)
    have hfail : n.fail ≠ some p := honly .fail (by decide)
    change n.exception = some p at hchild
    rw [if_neg hpass, if_neg hfail, if_pos hchild]
    rfl

/-- The root has no parent to go up to, even if it has one. -/
theorem filter_root (n : ClassificationTreeNode) (root : Ptr) :
    (n.parent.filter fun _ => root ≠ root) = none := by
  rw [Option.filter_eq_none_iff]
  intro _ _
  simp

/-- Every other node has its parent. -/
theorem filter_of_ne {a : Ptr} (hparent : n.parent = some a) (hne : p ≠ root) :
    (n.parent.filter fun _ => p ≠ root) = some a := by
  rw [hparent, Option.filter_some, if_pos (decide_eq_true hne)]

/-- The id, less one, is computed on the way up. -/
theorem getTreeId_Minus1_eq (habove : Above s.nodes root p bs) (hp : s.nodes.get p = some n)
    (hfuel : bs.length < fuel) : n.getTreeId_Minus1 fuel p root s = .ok (treeId bs - 1, s) := by
  induction habove generalizing n fuel with
  | root _ =>
    obtain ⟨fuel, rfl⟩ := Nat.exists_eq_succ_of_ne_zero (Nat.ne_of_gt hfuel)
    rw [getTreeId_Minus1, filter_root]
    rfl
  | @child p a n' m b bs hget hroot hparent hm honly _ ih =>
    obtain ⟨fuel, rfl⟩ := Nat.exists_eq_succ_of_ne_zero (Nat.ne_zero_of_lt hfuel)
    obtain rfl := Option.some.inj (hp.symm.trans hget)
    have hb := digit_bounds b
    have hbs := treeId_pos bs
    rw [getTreeId_Minus1, filter_of_ne hparent hroot]
    dsimp only
    rw [bind_ok (onNodes_read hm), bind_ok (ih hm (Nat.lt_of_succ_lt_succ hfuel)),
      bind_ok (getTreeBit_eq honly), Int.toNat_of_nonneg hb.1, if_neg (by omega), treeId_cons]
    show Except.ok ((treeId bs - 1) * 3 + b.digit + 1, s) = _
    congr 2
    omega

/-- A node that is reached by a path has its id, which leads back to it. -/
theorem of_above (habove : Above s.nodes root p bs) :
    HasId s root p (treeId bs) ∧ Finds s root (treeId bs) p := by
  have hdown := habove.down
  obtain ⟨⟨r, hr⟩, n, hn⟩ := habove.stored
  have hfinds : ∀ fuel, bs.length < fuel →
      r.getByTreeId fuel (treeId bs) root s = .ok (p, s) := fun fuel hfuel => by
    rw [getByTreeId_treeId bs hfuel, recursePath_of_down hdown hr]
  refine ⟨⟨n, hn, nofun, bs.length + 1, fun fuel hfuel => ?_⟩, r, hr, nofun, bs.length + 1, hfinds⟩
  show n.getTreeId fuel p root s = _
  unfold getTreeId
  rw [bind_ok (getTreeId_Minus1_eq habove hn hfuel), Int.sub_add_cancel,
    bind_ok (onNodes_read hr), bind_ok (hfinds fuel hfuel), if_pos rfl]
  rfl

theorem HasId.unique {id' : ℤ} (h : HasId s root p id) (h' : HasId s root p id') : id = id' := by
  obtain ⟨n, hn, hid⟩ := h
  obtain ⟨n', hn', hid'⟩ := h'
  obtain rfl := Option.some.inj (hn.symm.trans hn')
  cases hid.unique hid'
  rfl

theorem Finds.unique (h : Finds s root id p) (h' : Finds s root id q) : p = q := by
  obtain ⟨n, hn, hp⟩ := h
  obtain ⟨n', hn', hq⟩ := h'
  obtain rfl := Option.some.inj (hn.symm.trans hn')
  cases hp.unique hq
  rfl

/-- Every node under a root has an id that leads back to it, and no two nodes have the same. -/
theorem getByTreeId_getTreeId (h : Subtree s root L) :
    (∀ p ∈ L, ∃ id, HasId s root p id ∧ Finds s root id p) ∧
      ∀ p ∈ L, ∀ q ∈ L, ∀ id, HasId s root p id → HasId s root q id → p = q := by
  obtain ⟨o, hpost⟩ := h.postOrder
  have hid : ∀ p ∈ L, ∃ id, HasId s root p id ∧ Finds s root id p := by
    intro p hp
    obtain ⟨bs, habove⟩ := hpost.above h.nodup hp
    exact ⟨treeId bs, of_above habove⟩
  refine ⟨hid, fun p hp q hq id hidp hidq => ?_⟩
  obtain ⟨idp, hp', hfinds⟩ := hid p hp
  obtain ⟨idq, hq', hfinds'⟩ := hid q hq
  obtain rfl := hidp.unique hp'
  obtain rfl := hidq.unique hq'
  exact hfinds.unique hfinds'

/-- A root with two children. -/
def threeNodes : ClusterStore where
  nodes := ⟨[some { parent := none, pass := some 1, exception := some 2, itemBuffer := none },
    some { parent := some 0, itemBuffer := some 0 },
    some { parent := some 0, itemBuffer := some 1 }]⟩
  choices _ _ := false

/-- A node without children is all of its tree. -/
theorem postOrder_leaf {o : Option Ptr} (hp : s.nodes.get p = some n) (hparent : n.parent = o)
    (hchild : ∀ b, n.child b = none) : PostOrder s.nodes o (some p) [p] := by
  have hnil : ∀ b, PostOrder s.nodes (some p) (n.child b) [] := by
    intro b
    rw [hchild]
    exact .nil
  exact .node hp hparent hnil

theorem subtree_threeNodes : Subtree threeNodes 0 [1, 2, 0] := by
  obtain ⟨n, hn⟩ : ∃ n, threeNodes.nodes.get 0 = some n := ⟨_, rfl⟩
  have hlists : ∀ b, PostOrder threeNodes.nodes (some 0) (n.child b)
      (Branch.elim [1] [] [2] b) := by
    intro b
    obtain rfl := Option.some.inj hn
    cases b with
    | pass => exact postOrder_leaf (s := threeNodes) (p := 1) rfl rfl fun b => by cases b <;> rfl
    | fail => exact .nil
    | exception => exact postOrder_leaf (s := threeNodes) (p := 2) rfl rfl fun b => by cases b <;> rfl
  have hroot := PostOrder.node hn rfl hlists
  exact ⟨⟨n.parent, hroot⟩, by decide⟩

theorem getByTreeId_getTreeId_threeNodes :
    (∀ p ∈ [1, 2, 0], ∃ id, HasId threeNodes 0 p id ∧ Finds threeNodes 0 id p) ∧
      ∀ p ∈ [1, 2, 0], ∀ q ∈ [1, 2, 0], ∀ id, HasId threeNodes 0 p id →
        HasId threeNodes 0 q id → p = q :=
  getByTreeId_getTreeId subtree_threeNodes

/-! ## Ids that are looked up -/

/-- The digits of `-1` do not end. -/
theorem toDigits_neg_one (fuel : ℕ) : BigInt.toDigits 3 fuel (-1) = .error stackOverflow := by
  induction fuel with
  | zero => rfl
  | succ fuel ih =>
    show (BigInt.toDigits 3 fuel (-1) >>= fun digits => pure (digits ++ [2])) = _
    rw [ih]
    rfl

theorem getByTreeId_zero (fuel : ℕ) : n.getByTreeId fuel 0 self s = .error stackOverflow := by
  have hpath : ((treePath fuel 0 : Except Failure (List ℤ)) : ClusterTxn (List ℤ)) s =
      .error stackOverflow := by
    cases fuel with
    | zero => rfl
    | succ fuel =>
      have hlevel : treePath (fuel + 1) 0 = BigInt.toDigits 3 (fuel + 1) (-1) >>= fun path =>
        pure (List.replicate (0 - path.length) 0 ++ path) := rfl
      rw [hlevel, toDigits_neg_one]
      rfl
  exact bind_error hpath

/-- A number is looked up to the end if it is not zero: it leads to a node of the tree, or to an
    error. -/
theorem getByTreeId_ends_iff (hcursor : 0 ≤ cursor) (hself : s.nodes.get self = some n) :
    (∃ r, Ends (fun fuel => n.getByTreeId fuel cursor self s) r ∧
      ∀ q s', r = .ok (q, s') → s' = s ∧ ∃ bs, Down s.nodes self bs q) ↔ cursor ≠ 0 := by
  constructor
  · rintro ⟨r, ⟨hr, k, hk⟩, -⟩ rfl
    exact hr ((hk k le_rfl).symm.trans (getByTreeId_zero k))
  · intro hne
    have hpos : 1 ≤ cursor := by omega
    obtain ⟨bs, rfl⟩ := exists_treeId hpos
    have hpath : ∀ fuel, bs.length + 1 ≤ fuel → n.getByTreeId fuel (treeId bs) self s =
        recursePath (bs.reverse.map Branch.digit) n self s := fun fuel => getByTreeId_treeId bs
    rcases recursePath_cases hself bs.reverse with ⟨q, hq, hdown⟩ | ⟨e, he, herror⟩
    · refine ⟨.ok (q, s), ⟨nofun, bs.length + 1, fun fuel hfuel => ?_⟩, ?_⟩
      · exact (hpath fuel hfuel).trans hq
      · rintro q' s' heq
        cases heq
        exact ⟨rfl, bs.reverse, hdown⟩
    · refine ⟨.error e, ⟨fun heq => he (Except.error.inj heq), bs.length + 1, fun fuel hfuel => ?_⟩,
        nofun⟩
      exact (hpath fuel hfuel).trans herror

theorem getByTreeId_ends_two : ∃ n, threeNodes.nodes.get 0 = some n ∧
    ((∃ r, Ends (fun fuel => n.getByTreeId fuel 2 0 threeNodes) r ∧
      ∀ q s', r = .ok (q, s') → s' = threeNodes ∧ ∃ bs, Down threeNodes.nodes 0 bs q) ↔
        (2 : ℤ) ≠ 0) :=
  ⟨_, rfl, getByTreeId_ends_iff (by decide) rfl⟩

/-- At the root of three nodes, the lookup of zero has no end. -/
theorem getByTreeId_zero_threeNodes : ∃ n, threeNodes.nodes.get 0 = some n ∧
    ¬∃ r, Ends (fun fuel => n.getByTreeId fuel 0 0 threeNodes) r := by
  refine ⟨_, rfl, ?_⟩
  rintro ⟨r, hr, k, hk⟩
  exact hr ((hk k le_rfl).symm.trans (getByTreeId_zero k))

end ClassificationTreeNode

end ReSTM
