import ReSTM.Collection.SortPhase

/-!
# The tasks of a sort

`SortInv` is the invariant of the whole sort: every task is in a phase. A step that is enabled makes
the sum of the bounds of the phases smaller, so that every run ends; and when no step is enabled, the
task of the root node has its result.

* `SortInv.step`: what a step does.
* `sort_sorts`: the result of a sort is sorted, however the tasks are executed.
-/

namespace ReSTM

open HeapModel KWayMerge SortGhost TaskWorld Transition WP

variable {T : Type} [LinearOrder T]

/-- The sort of the values `M` by the task `root`. -/
structure SortInv (M : Multiset T) (root : Ptr) (G : SortGhost T) (w : SortWorld T) (pot : Ptr → ℕ) :
    Prop where
  sound : w.tasks.Sound
  exists_of_lt : ∀ t < w.tasks.tasks.next, ∃ d, w.tasks.tasks.get t = some d
  phase : ∀ t d, w.tasks.tasks.get t = some d →
    SortPhase G w.nodes w.tasks.tasks.next w.lists.next t d (w.running t) (pot t)
  running : ∀ t, (w.running t).isSome ↔ t ∈ w.tasks.obtained
  outcome : ∀ t, G.outcome t = (w.tasks.tasks.get t).bind (·.result)
  exception : ∀ t d, w.tasks.tasks.get t = some d → d.exception = none
  owns : G.Owns w.lists.next
  lists : Lists w.lists G.cont
  root_lt : root < w.tasks.tasks.next
  root_bag : G.bag root = M
  root_parent : G.parent root = root
  root_full : G.Full root
  parent_lt : ∀ t < w.tasks.tasks.next, t ≠ root → G.parent t < t

/-- The sum of the bounds. -/
def SortWorld.potential (w : SortWorld T) (pot : Ptr → ℕ) : ℕ :=
  ∑ t ∈ Finset.range w.tasks.tasks.next, pot t

section Inv

variable {M : Multiset T} {root : Ptr} {G G' : SortGhost T} {w : SortWorld T} {pot : Ptr → ℕ}
  {t u p : Ptr} {d d' : TaskData (SortFunction T) Ptr} {l : List Ptr} {a a' : Option (Attempt T)}
  {k : ℕ}

/-! ## One task changes -/

theorem sum_update_lt {f : ℕ → ℕ} {i n c : ℕ} (hi : i < n) (h : k + c < f i) :
    (∑ j ∈ Finset.range n, Function.update f i k j) + c < ∑ j ∈ Finset.range n, f j := by
  have hmem := Finset.mem_range.mpr hi
  have hrest : ∑ j ∈ (Finset.range n).erase i, Function.update f i k j =
      ∑ j ∈ (Finset.range n).erase i, f j :=
    Finset.sum_congr rfl fun j hj => Function.update_of_ne (Finset.ne_of_mem_erase hj) _ _
  rw [← Finset.add_sum_erase _ _ hmem, ← Finset.add_sum_erase _ f hmem, Function.update_self, hrest]
  omega

namespace SortInv

/-- A task that is not complete has no result. -/
theorem outcome_none (hi : SortInv M root G w pot) (hd : w.tasks.tasks.get t = some d)
    (hincomplete : d.isComplete = false) : G.outcome t = none := by
  rw [hi.outcome t, hd]
  rw [TaskData.isComplete, Bool.or_eq_false_iff] at hincomplete
  exact Option.isSome_eq_false_iff.mp hincomplete.1 |> Option.isNone_iff_eq_none.mp

/-- A task that is not there has no result. -/
theorem outcome_next (hi : SortInv M root G w pot) : G.outcome w.tasks.tasks.next = none := by
  rw [hi.outcome, Heap.get_of_le (Nat.le_refl _)]
  rfl

/-- What runs is the function of a task that was obtained. -/
theorem running_some (hi : SortInv M root G w pot) (ha : (w.running t).isSome) :
    t ∈ w.tasks.obtained ∧ ∃ d, w.tasks.tasks.get t = some d ∧ G.outcome t = none := by
  have ht := (hi.running t).mp ha
  obtain ⟨d, hd, -, hincomplete⟩ := hi.sound.obtained_mem t ht
  exact ⟨ht, d, hd, hi.outcome_none hd hincomplete⟩

/-- An outcome is the result of a task. -/
theorem result (hi : SortInv M root G w pot) (u p : Ptr) (hp : G.outcome u = some p) :
    Task.result u w.tasks = .ok p := by
  rw [hi.outcome u] at hp
  obtain ⟨d, hd, hresult⟩ := Option.bind_eq_some_iff.mp hp
  exact Task.result_of_some hd hresult (hi.exception u d hd)

/-- The task `t` takes a step. -/
theorem change (hi : SortInv M root G w pot) (ht : t < w.tasks.tasks.next)
    {tasks : TaskWorld (SortFunction T) Ptr} {lists : Heap (SortList T)} (hsound : tasks.Sound)
    (hc : Change t d' l w.tasks tasks) (hnext : tasks.tasks.next = w.tasks.tasks.next)
    (hobtained : ∀ s, s ≠ t → (s ∈ tasks.obtained ↔ s ∈ w.tasks.obtained))
    (ha : a'.isSome ↔ t ∈ tasks.obtained) (hln : w.lists.next ≤ lists.next)
    (hlists : Lists lists G'.cont) (hmv : Moves t w.tasks.tasks.next w.lists.next G G')
    (hnone : G.outcome t = none) (hexception : d'.exception = none)
    (houtcome : G'.outcome t = d'.result)
    (howns : ∀ p, G'.outcome t = some p → G'.owner p = t ∧ p < lists.next)
    (hphase : SortPhase G' w.nodes w.tasks.tasks.next lists.next t d' a' k) :
    SortInv M root G' (SortWorld.run t a' { w with tasks := tasks, lists := lists })
      (Function.update pot t k) where
  sound := hsound
  exists_of_lt s hs := by
    have hs' : s < w.tasks.tasks.next := hnext ▸ hs
    exact hc.mem (hi.exists_of_lt s hs')
  phase s e he := by
    show SortPhase G' w.nodes tasks.tasks.next lists.next s e (Function.update w.running t a' s) _
    rw [hnext]
    rcases hc.of_get he with ⟨rfl, rfl⟩ | ⟨hst, e₀, he₀, rfl⟩
    · rw [Function.update_self, Function.update_self]
      exact hphase
    · rw [Function.update_of_ne hst, Function.update_of_ne hst]
      refine (hi.phase s e₀ he₀).frame hmv hi.owns hst (Heap.lt_next he₀) (Nat.le_refl _)
        (fun u hle hlt => absurd hlt (Nat.not_lt.mpr hle)) hln hnone (fun hrun => ?_) _
      obtain ⟨-, -, -, hs⟩ := hi.running_some hrun
      exact hs
  running s := by
    show (Function.update w.running t a' s).isSome ↔ s ∈ tasks.obtained
    rcases eq_or_ne s t with rfl | hst
    · rw [Function.update_self]
      exact ha
    · rw [Function.update_of_ne hst, hobtained s hst]
      exact hi.running s
  outcome s := by
    show _ = (tasks.tasks.get s).bind _
    rcases eq_or_ne s t with rfl | hst
    · rw [hc.self]
      exact houtcome
    · rw [hmv.outcome s hst, hi.outcome s, hc.other s hst]
      cases w.tasks.tasks.get s <;> rfl
  exception s e he := by
    rcases hc.of_get he with ⟨rfl, rfl⟩ | ⟨hst, e₀, he₀, rfl⟩
    · exact hexception
    · exact hi.exception s e₀ he₀
  owns s p hp := by
    rcases eq_or_ne s t with rfl | hst
    · exact howns p hp
    · rw [hmv.outcome s hst] at hp
      obtain ⟨howner, hlt⟩ := hi.owns s p hp
      exact ⟨(hmv.owner p hlt).trans howner, Nat.lt_of_lt_of_le hlt hln⟩
  lists := hlists
  root_lt := hnext.symm ▸ hi.root_lt
  root_bag := (hmv.bag root hi.root_lt).trans hi.root_bag
  root_parent := (hmv.parent root hi.root_lt).trans hi.root_parent
  root_full := by
    rcases eq_or_ne root t with rfl | hne
    · exact hmv.full
    · exact hi.root_full.frame hmv hi.owns hi.root_lt (hi.root_parent.symm ▸ hne)
  parent_lt s hs hroot := by
    have hs' : s < w.tasks.tasks.next := hnext ▸ hs
    exact hmv.parent s hs' ▸ hi.parent_lt s hs' hroot

/-! ## A task is taken from the queue -/

/-- What is known of the tasks and the lists stays as it is. -/
theorem moves_refl {n ln : Ptr} (hnone : G.outcome t = none) : Moves t n ln G G := by
  refine ⟨fun _ _ => rfl, fun _ _ => rfl, fun _ _ => rfl, fun _ _ => rfl, fun _ _ _ _ => rfl,
    fun p hp => ?_⟩
  rw [hnone] at hp
  cases hp

theorem getTask (hi : SortInv M root G w pot) {i : ℕ} (executorName : String)
    (ht : w.tasks.workQueue[i]? = some t) :
    ∃ pot', SortInv M root G (w.getTask i executorName) pot' ∧
      (w.getTask i executorName).potential pot' < w.potential pot := by
  obtain ⟨d, f, hd, hf, hready, hget⟩ := hi.sound.getTask_some executorName ht
  have hstep : w.tasks.step (.getTask i executorName) = w.tasks.started i executorName t d := by
    rw [TaskWorld.step, hget]
    rfl
  have hgetTask : w.getTask i executorName = SortWorld.run t
      (some { function := f, execution := f.start })
      { w with tasks := w.tasks.started i executorName t d } := by
    unfold SortWorld.getTask
    rw [hget, hstep]
  -- nothing runs for a task that waits in the queue
  have hidle : w.running t = none := by
    by_contra hrun
    obtain ⟨e, he, hexec, -⟩ :=
      hi.sound.obtained_mem t ((hi.running t).mp (Option.isSome_iff_ne_none.mpr hrun))
    cases hd.symm.trans he
    rw [hready.1] at hexec
    cases hexec
  have hincomplete : d.isComplete = false := by
    rw [TaskData.isComplete, hready.2.1, hready.2.2.1]
    rfl
  have hcomplete : ∀ u ∈ d.triggers, (G.outcome u).isSome := by
    intro u hu
    have hcomp := triggered_iff.mp hready.2.2.2 u hu
    obtain ⟨e, he⟩ := hi.sound.triggers_mem t d hd u hu
    rw [complete_some he, TaskData.isComplete, hi.exception u e he] at hcomp
    rw [hi.outcome u, he]
    simpa using hcomp
  have hph := hi.phase t d hd
  rw [hidle] at hph
  obtain ⟨k, hk, hph'⟩ := hph.start { d with executorId := some executorName } hf hready.2.1
    hcomplete hi.owns
  have hnone := hi.outcome_none hd hincomplete
  rw [hgetTask]
  refine ⟨_, hi.change (Heap.lt_next hd) (hi.sound.getTask executorName ht hd hready)
    (change_started hd i executorName) Heap.next_set (fun s hs => ?_) ?_ (Nat.le_refl _) hi.lists
    (moves_refl hnone) hnone (hi.exception t d hd) ((hi.outcome t).trans ?_) (hi.owns t) hph', ?_⟩
  · exact List.mem_cons.trans (or_iff_right hs)
  · exact iff_of_true rfl List.mem_cons_self
  · rw [hd]
    rfl
  · show ∑ s ∈ Finset.range (w.tasks.tasks.set t _).next, _ < _
    rw [Heap.next_set]
    exact sum_update_lt (c := 0) (Heap.lt_next hd) hk

/-! ## A task is created -/

theorem moves_adopt (hi : SortInv M root G w pot) (t : Ptr) (B : Multiset T) :
    Moves w.tasks.tasks.next w.tasks.tasks.next w.lists.next G (G.adopt w.tasks.tasks.next t B) := by
  refine ⟨fun u hu => Function.update_of_ne (Nat.ne_of_lt hu) _ _,
    fun u hu => Function.update_of_ne (Nat.ne_of_lt hu) _ _, fun _ _ => rfl, fun _ _ => rfl,
    fun _ _ _ _ => rfl, fun p hp => ?_⟩
  exact absurd (hi.outcome_next.symm.trans hp) nofun

/-- Nothing runs for a task that does not exist yet. -/
theorem running_next (hi : SortInv M root G w pot) : w.running w.tasks.tasks.next = none := by
  by_contra hrun
  obtain ⟨-, e, he, -⟩ := hi.running_some (Option.isSome_iff_ne_none.mpr hrun)
  exact ne_next_of_some he rfl

/-- A task that was just created is to sort its values, and has no kids. -/
theorem phase_created {n ln : Ptr} {nodes : Heap (TreeCollectionNode T)}
    {node : TreeCollectionNode T} {B : Multiset T} (hf : d.kryoTask = some (.sort node))
    (hx : d.executorId = none) (htr : d.triggers = []) (hresult : d.result = none)
    (hB : Below nodes node B) :
    SortPhase (G.adopt n t B) nodes (n + 1) ln n d none (10 * B.card ^ 2) := by
  have hbag : (G.adopt n t B).bag n = B := Function.update_self _ _ _
  have hkids : (G.adopt n t B).Kids (n + 1) n [] :=
    ⟨List.nodup_nil, fun u hu => absurd hu List.not_mem_nil,
      fun u hu hlt _ => absurd hu (Nat.not_lt.mpr hlt)⟩
  nth_rewrite 2 [← hbag]
  exact .idle hf hx htr hresult hkids (hbag.symm ▸ hB)

/-- The task `t` creates a task. -/
theorem add (hi : SortInv M root G w pot) (ht : t ∈ w.tasks.obtained) {node : TreeCollectionNode T}
    {B : Multiset T} (hB : Below w.nodes node B) {b : Attempt T}
    (hphase : ∀ d, SortPhase (G.adopt w.tasks.tasks.next t B) w.nodes (w.tasks.tasks.next + 1)
      w.lists.next t d (some b) k) :
    SortInv M root (G.adopt w.tasks.tasks.next t B)
      (SortWorld.run t (some b) { w with tasks := w.tasks.added (.sort node) [] })
      (Function.update (Function.update pot w.tasks.tasks.next (10 * B.card ^ 2)) t k) := by
  obtain ⟨d, hc, hfunction, hexecutor, hresult, hexception, htriggers, -⟩ :=
    change_added (SortFunction.sort node) [] w.tasks
  obtain ⟨c, hget, -⟩ := hi.sound.obtained_mem t ht
  have htn : t ≠ w.tasks.tasks.next := ne_next_of_some hget
  have hnone := hi.outcome_next
  have hnext : (w.tasks.added (.sort node) []).tasks.next = w.tasks.tasks.next + 1 := Heap.next_alloc
  have hmv := hi.moves_adopt t B
  have hne : root ≠ w.tasks.tasks.next := Nat.ne_of_lt hi.root_lt
  have hparent : (G.adopt w.tasks.tasks.next t B).parent w.tasks.tasks.next = t :=
    Function.update_self _ _ _
  refine ⟨hi.sound.added List.nodup_nil nofun, fun s hs => ?_, fun s e he => ?_, fun s => ?_,
    fun s => ?_, fun s e he => ?_, hi.owns, hi.lists, ?_, ?_, ?_, ?_, fun s hs hroot => ?_⟩
  · rcases eq_or_ne s w.tasks.tasks.next with rfl | hne
    · exact ⟨d, hc.self⟩
    · have hs' : s < w.tasks.tasks.next + 1 := hnext ▸ hs
      exact hc.mem (hi.exists_of_lt s (Nat.lt_of_le_of_ne (Nat.le_of_lt_succ hs') hne))
  · show SortPhase _ w.nodes (w.tasks.added (.sort node) []).tasks.next w.lists.next s e
      (Function.update w.running t (some b) s) _
    rw [hnext]
    rcases eq_or_ne s t with rfl | hst
    · rw [Function.update_self, Function.update_self]
      exact hphase e
    rw [Function.update_of_ne hst, Function.update_of_ne hst]
    rcases hc.of_get he with ⟨rfl, rfl⟩ | ⟨hsn, e₀, he₀, rfl⟩
    · rw [hi.running_next, Function.update_self]
      exact phase_created hfunction hexecutor htriggers hresult hB
    · rw [Function.update_of_ne hsn]
      refine (hi.phase s e₀ he₀).frame hmv hi.owns hsn (Heap.lt_next he₀) (Nat.le_succ _)
        (fun u hle hlt => ?_) (Nat.le_refl _) hnone (fun hrun => ?_) _
      · rw [Nat.le_antisymm (Nat.le_of_lt_succ hlt) hle, hparent]
        exact hst.symm
      · obtain ⟨-, -, -, hs⟩ := hi.running_some hrun
        exact hs
  · show (Function.update w.running t (some b) s).isSome ↔ _
    rcases eq_or_ne s t with rfl | hst
    · rw [Function.update_self]
      exact iff_of_true rfl ht
    · rw [Function.update_of_ne hst]
      exact hi.running s
  · show G.outcome s = ((w.tasks.added (.sort node) []).tasks.get s).bind _
    rcases eq_or_ne s w.tasks.tasks.next with rfl | hne
    · rw [hnone, hc.self, Option.bind_some, hresult]
    · rw [hi.outcome s, hc.other s hne]
      cases w.tasks.tasks.get s <;> rfl
  · rcases hc.of_get he with ⟨rfl, rfl⟩ | ⟨hne, e₀, he₀, rfl⟩
    · exact hexception
    · exact hi.exception s e₀ he₀
  · exact hnext ▸ Nat.lt_succ_of_lt hi.root_lt
  · exact (hmv.bag root hi.root_lt).trans hi.root_bag
  · exact (hmv.parent root hi.root_lt).trans hi.root_parent
  · exact hi.root_full.frame hmv hi.owns hi.root_lt (hi.root_parent.symm ▸ hne)
  · rcases eq_or_ne s w.tasks.tasks.next with rfl | hsn
    · rw [hparent]
      exact Heap.lt_next hget
    · have hs' : s < w.tasks.tasks.next + 1 := hnext ▸ hs
      have hlt := Nat.lt_of_le_of_ne (Nat.le_of_lt_succ hs') hsn
      exact hmv.parent s hlt ▸ hi.parent_lt s hlt hroot

/-- The function of a task goes on, and no task changes. -/
theorem goOn (hi : SortInv M root G w pot) (hd : w.tasks.tasks.get t = some d)
    (ht : t ∈ w.tasks.obtained) {lists : Heap (SortList T)} (hln : w.lists.next ≤ lists.next)
    (hlists : Lists lists G'.cont) (hmv : Moves t w.tasks.tasks.next w.lists.next G G')
    (hsame : G'.outcome = G.outcome) {b : Attempt T}
    (hphase : SortPhase G' w.nodes w.tasks.tasks.next lists.next t d (some b) k) :
    SortInv M root G' (SortWorld.run t (some b) { w with lists := lists })
      (Function.update pot t k) := by
  have hincomplete := (hi.sound.obtained_some ht hd).2.1
  have hnone := hi.outcome_none hd hincomplete
  have hrefl : Change t d [] w.tasks w.tasks := by
    refine ⟨hd, fun s _ => ?_⟩
    cases h : w.tasks.tasks.get s <;> simp
  refine hi.change (Heap.lt_next hd) hi.sound hrefl rfl (fun _ _ => Iff.rfl) (iff_of_true rfl ht)
    hln hlists hmv hnone (hi.exception t d hd) ?_ (fun p hp => ?_) hphase
  · rw [hsame, hi.outcome t, hd]
    rfl
  · rw [hsame, hnone] at hp
    cases hp

/-- The created task is the last one that its creator waits for. -/
theorem kids_adopt (hi : SortInv M root G w pot) {B : Multiset T} {ts : List Ptr}
    (hkids : G.Kids w.tasks.tasks.next t ts) (hlt : t < w.tasks.tasks.next) (hB : B ≠ 0) :
    (G.adopt w.tasks.tasks.next t B).Kids (w.tasks.tasks.next + 1) t (ts ++ [w.tasks.tasks.next]) := by
  have hmv := hi.moves_adopt t B
  have hbag' : (G.adopt w.tasks.tasks.next t B).bag w.tasks.tasks.next = B :=
    Function.update_self _ _ _
  refine ⟨List.nodup_append.mpr ⟨hkids.nodup, List.nodup_singleton _, fun u hu s hs => ?_⟩,
    fun u hu => ?_, fun u hu htu hparent => ?_⟩
  · rw [List.mem_singleton.mp hs]
    exact Nat.ne_of_lt (hkids.mem u hu).2.1
  · rcases List.mem_append.mp hu with hu | hu
    · obtain ⟨htu, hun, hparent, hne'⟩ := hkids.mem u hu
      exact ⟨htu, Nat.lt_succ_of_lt hun, (hmv.parent u hun).trans hparent,
        (hmv.bag u hun).symm ▸ hne'⟩
    · rw [List.mem_singleton.mp hu]
      exact ⟨hlt, Nat.lt_succ_self _, Function.update_self _ _ _, hbag'.symm ▸ hB⟩
  · rcases eq_or_ne u w.tasks.tasks.next with rfl | hun
    · exact List.mem_append_right _ (List.mem_singleton_self _)
    · have hun' := Nat.lt_of_le_of_ne (Nat.le_of_lt_succ hu) hun
      exact List.mem_append_left _ (hkids.all u hun' htu ((hmv.parent u hun').symm.trans hparent))

/-- A child gets its task. -/
theorem create (hi : SortInv M root G w pot) {f : SortFunction T} {retries : ℕ}
    {node : TreeCollectionNode T} {child : Ptr} {children ts : List Ptr}
    (hrun : w.running t = some ⟨f, retries, .creating node (child :: children) ts⟩) :
    ∃ G' pot', SortInv M root G' (w.execute t) pot' ∧
      (w.execute t).potential pot' < w.potential pot := by
  obtain ⟨ht, d, hd, hnone⟩ := hi.running_some (by rw [hrun]; rfl)
  have hph := hi.phase t d hd
  rw [hrun] at hph
  generalize hk : pot t = k at hph
  cases hph with
  | @creating _ _ _ _ _ Bs v hv hkids hfull hc hbag =>
    cases hc with
    | @cons _ B _ Bs hp hc =>
      obtain ⟨n, hget, hB⟩ := hp
      have hadd := add_some (SortFunction.sort n) [] w.tasks nofun
      have hstep : w.execute t =
          SortWorld.run t (some ⟨f, retries, .creating node children (ts ++ [w.tasks.tasks.next])⟩)
            { w with tasks := w.tasks.added (.sort n) [] } := by
        have haddTask : w.addTask child =
            .ok ([w.tasks.tasks.next], { w with tasks := w.tasks.added (.sort n) [] }) := by
          unfold SortWorld.addTask
          rw [hget]
          dsimp only
          rw [hadd]
          rfl
        unfold SortWorld.execute
        rw [hrun]
        dsimp only
        rw [haddTask]
      have hlt := Heap.lt_next hd
      have hmv := hi.moves_adopt t B
      have hnext : (w.tasks.added (.sort n) []).tasks.next = w.tasks.tasks.next + 1 := Heap.next_alloc
      have hne : t ≠ w.tasks.tasks.next := Nat.ne_of_lt hlt
      have hbag' : (G.adopt w.tasks.tasks.next t B).bag w.tasks.tasks.next = B :=
        Function.update_self _ _ _
      have hkids' := hi.kids_adopt hkids hlt hB.ne_zero
      rw [hstep]
      refine ⟨_, _, hi.add ht hB fun d => .creating hv hkids' (fun u hu => ?_) hc ?_, ?_⟩
      · rcases List.mem_append.mp hu with hu | hu
        · exact hkids.full hfull hmv hi.owns hne u hu
        · rw [List.mem_singleton.mp hu]
          exact fun p hp => absurd (hi.outcome_next.symm.trans hp) nofun
      · rw [hmv.bag t hlt, hbag, List.map_append, List.sum_append, hkids.bag_sum hmv,
          List.map_singleton, List.sum_singleton, hbag', List.sum_cons, add_assoc]
      · rw [List.map_cons, List.sum_cons] at hk
        show ∑ s ∈ Finset.range (w.tasks.added (.sort n) []).tasks.next, _ < _
        rw [hnext, Function.update_comm hne.symm, Finset.sum_range_succ, Function.update_self,
          Finset.sum_congr rfl fun s hs =>
            Function.update_of_ne (Nat.ne_of_lt (Finset.mem_range.mp hs)) _ _]
        refine sum_update_lt hlt ?_
        rw [hmv.bag t hlt, hk]
        omega

/-- A task that has created the tasks of its children waits for them. -/
theorem wait (hi : SortInv M root G w pot) {f : SortFunction T} {retries : ℕ}
    {node : TreeCollectionNode T} {ts : List Ptr}
    (hrun : w.running t = some ⟨f, retries, .creating node [] ts⟩) :
    ∃ G' pot', SortInv M root G' (w.execute t) pot' ∧
      (w.execute t).potential pot' < w.potential pot := by
  obtain ⟨ht, d, hd, hnone⟩ := hi.running_some (by rw [hrun]; rfl)
  have hph := hi.phase t d hd
  rw [hrun] at hph
  generalize hk : pot t = k at hph
  cases hph with
  | @creating _ _ _ _ _ Bs v hv hkids hfull hc hbag =>
    obtain rfl : Bs = [] := List.forall₂_nil_left_iff.mp hc
    rw [List.sum_nil, add_zero] at hbag
    have hmem : ∀ u ∈ ts, ∃ e, w.tasks.tasks.get u = some e := fun u hu =>
      hi.exists_of_lt u (hkids.mem u hu).2.1
    have hresult : d.result = none := by
      have hout := hi.outcome t
      rw [hd, hnone] at hout
      exact hout.symm
    have hstep : w.execute t = SortWorld.run t none
        { w with tasks := w.tasks.continued t d (.merge node.value ts) ts } := by
      unfold SortWorld.execute
      rw [hrun]
      dsimp only
      rw [SortWorld.finish, hi.sound.step_continue ht hd _ hmem]
    have hnext : (w.tasks.continued t d (.merge node.value ts) ts).tasks.next = w.tasks.tasks.next :=
      Heap.next_set.trans subscribe_next
    rw [hstep]
    refine ⟨G, _, hi.change (Heap.lt_next hd) (hi.sound.continued ht hd _ hkids.nodup hmem)
      (change_continued hd _ ts) hnext (fun s hs => List.mem_erase_of_ne hs) ?_ (Nat.le_refl _)
      hi.lists (moves_refl hnone) hnone (hi.exception t d hd) ((hi.outcome t).trans ?_) (hi.owns t)
      (.waiting (congrArg (fun v => some (SortFunction.merge v ts)) hv) rfl rfl hresult hkids hfull hbag),
      ?_⟩
    · exact iff_of_false nofun hi.sound.obtained_nodup.not_mem_erase
    · rw [hd]
      rfl
    · show ∑ s ∈ Finset.range (w.tasks.continued t d _ ts).tasks.next, _ < _
      rw [hnext]
      refine sum_update_lt (c := 0) (Heap.lt_next hd) ?_
      rw [hk]
      simp

/-! ## The lists of the children are merged -/

/-- The function of a task returns its list, which is sorted. -/
theorem settle (hi : SortInv M root G w pot) (ht : t ∈ w.tasks.obtained)
    (hd : w.tasks.tasks.get t = some d) (hnone : G.outcome t = none) {ts S : List Ptr} {r : Ptr}
    (hkids : G.Kids w.tasks.tasks.next t ts) (hS : ts.map G.outcome = S.map some)
    (howner : G.owner r = t) (hlt : r < w.lists.next) (hsort : G.cont r = (G.bag t).sort)
    (hpos : 0 < pot t) :
    let w' := SortWorld.run t none
      { w with tasks := { w.tasks.settle t { d with result := some r } d.subscribers with
                          obtained := w.tasks.obtained.erase t } }
    ∃ G' pot', SortInv M root G' w' pot' ∧ w'.potential pot' < w.potential pot := by
  let G' : SortGhost T := { G with outcome := Function.update G.outcome t (some r) }
  have hself : G'.outcome t = some r := Function.update_self _ _ _
  have hmv : Moves t w.tasks.tasks.next w.lists.next G G' := by
    refine ⟨fun _ _ => rfl, fun _ _ => rfl, fun u hu => Function.update_of_ne hu _ _,
      fun _ _ => rfl, fun _ _ _ _ => rfl, fun p hp => ?_⟩
    obtain rfl : r = p := Option.some.inj (hself.symm.trans hp)
    exact hsort
  refine ⟨G', _, hi.change (Heap.lt_next hd) (hi.sound.settle ht hd rfl rfl rfl rfl)
    (change_settle hd) Heap.next_set (fun s hs => List.mem_erase_of_ne hs) ?_ (Nat.le_refl _)
    hi.lists hmv hnone (hi.exception t d hd) hself (fun p hp => ?_)
    (.done rfl (hkids.frame hmv (Nat.le_refl _) fun u hle hlt => absurd hlt (Nat.not_lt.mpr hle))
      fun u hu => ?_), ?_⟩
  · exact iff_of_false nofun hi.sound.obtained_nodup.not_mem_erase
  · obtain rfl : r = p := Option.some.inj (hself.symm.trans hp)
    exact ⟨howner, hlt⟩
  · obtain ⟨q, -, hq⟩ := List.mem_map.mp (hS ▸ List.mem_map_of_mem (f := G.outcome) hu)
    rw [hmv.outcome u (Nat.ne_of_gt (hkids.mem u hu).1), ← hq]
    rfl
  · show ∑ s ∈ Finset.range (w.tasks.tasks.set t _).next, _ < _
    rw [Heap.next_set]
    exact sum_update_lt (c := 0) (Heap.lt_next hd) hpos

/-- The merge function takes a step. -/
theorem merge (hi : SortInv M root G w pot) {f : SortFunction T} {retries : ℕ} {m : Merge T}
    (hrun : w.running t = some ⟨f, retries, .merging m⟩) :
    ∃ G' pot', SortInv M root G' (w.execute t) pot' ∧
      (w.execute t).potential pot' < w.potential pot := by
  obtain ⟨ht, d, hd, hnone⟩ := hi.running_some (by rw [hrun]; rfl)
  have hph := hi.phase t d hd
  rw [hrun] at hph
  generalize hk : pot t = k at hph
  cases hph with
  | @merging _ v ts S _ _ hkids hS hm hr =>
    have hsource : ∀ p ∈ S, G.parent (G.owner p) = t ∧ G.outcome (G.owner p) = some p ∧
        p < w.lists.next := by
      intro p hp
      obtain ⟨u, hu, heq⟩ := List.mem_map.mp (hS ▸ List.mem_map_of_mem (f := some) hp)
      obtain ⟨howner, hlt⟩ := hi.owns u p heq
      rw [howner]
      exact ⟨(hkids.mem u hu).2.2.1, heq, hlt⟩
    have hmerge := hm.step (fun u => Task.result u w.tasks) hi.lists
      (fun p hp => (hsource p hp).2.2) (fun p hp => (hr p hp).2) hi.result
    generalize hout : m.step (fun u => Task.result u w.tasks) w.lists = out at hmerge
    cases hmerge with
    | @goOn m' k' h' cont' hm' hk' hl' haff hr' =>
      have hstep : w.execute t =
          SortWorld.run t (some ⟨.merge (some v) ts, retries, .merging m'⟩) { w with lists := h' } := by
        unfold SortWorld.execute
        rw [hrun]
        dsimp only
        rw [hout]
      let G' : SortGhost T :=
        { G with owner := fun p => if p < w.lists.next then G.owner p else t, cont := cont' }
      have hmv : Moves t w.tasks.tasks.next w.lists.next G G' := by
        refine ⟨fun _ _ => rfl, fun _ _ => rfl, fun _ _ => rfl, fun p hp => if_pos hp,
          fun p hp howner hparent => haff.frame p hp (fun hmem => ?_) fun hresult => ?_,
          fun p hp => absurd (hnone.symm.trans hp) nofun⟩
        · obtain ⟨hpt, hout, -⟩ := hsource p hmem
          exact hparent hout hpt
        · exact howner (hr p hresult).1
      rw [hstep]
      refine ⟨G', _, hi.goOn hd ht haff.next_le hl' hmv rfl
        (.merging (hkids.frame hmv (Nat.le_refl _) fun u hle hlt => absurd hlt (Nat.not_lt.mpr hle))
          hS hm' fun p hp => ?_),
        sum_update_lt (c := 0) (Heap.lt_next hd) (hk ▸ hk')⟩
      obtain ⟨hlt, hold | hnew⟩ := hr' p hp
      · exact ⟨(if_pos (hr p hold).2).trans (hr p hold).1, hlt⟩
      · exact ⟨if_neg (Nat.not_lt.mpr hnew), hlt⟩
    | @done r hresult hsort =>
      obtain ⟨howner, hlt⟩ := hr r hresult
      have hstep : w.execute t = SortWorld.run t none
          { w with tasks := { w.tasks.settle t { d with result := some r } d.subscribers with
                              obtained := w.tasks.obtained.erase t } } := by
        unfold SortWorld.execute
        rw [hrun]
        dsimp only
        rw [hout]
        dsimp only
        rw [SortWorld.finish, hi.sound.step_settle ht hd rfl]
      rw [hstep]
      exact hi.settle ht hd hnone hkids hS howner hlt hsort (hk ▸ hm.pos)

/-! ## Runs -/

theorem step (hi : SortInv M root G w pot) {act : SortAction} (hact : ¬act.Fails) :
    ∃ G' pot', SortInv M root G' (w.step act) pot' ∧
      (w.Enabled act → (w.step act).potential pot' < w.potential pot) := by
  cases act with
  | fail t e => exact absurd trivial hact
  | getTask i executorName =>
    cases ht : w.tasks.workQueue[i]? with
    | none =>
      have hget := getTask_none executorName ht
      have htasks : w.tasks.step (.getTask i executorName) = w.tasks := by
        rw [TaskWorld.step, hget]
      have hstep : w.step (.getTask i executorName) = w := by
        show w.getTask i executorName = w
        unfold SortWorld.getTask
        rw [htasks, hget]
      rw [hstep]
      refine ⟨G, pot, hi, fun hlt => ?_⟩
      exact absurd hlt (Nat.not_lt.mpr (List.getElem?_eq_none_iff.mp ht))
    | some t =>
      obtain ⟨pot', hi', hlt⟩ := hi.getTask executorName ht
      exact ⟨G, pot', hi', fun _ => hlt⟩
  | execute t =>
    cases hrun : w.running t with
    | none =>
      have hstep : w.step (.execute t) = w := by
        show w.execute t = w
        unfold SortWorld.execute
        rw [hrun]
      rw [hstep]
      refine ⟨G, pot, hi, fun hsome => ?_⟩
      have hsome' : (w.running t).isSome := hsome
      rw [hrun] at hsome'
      cases hsome'
    | some b =>
      obtain ⟨f, retries, execution⟩ := b
      have hstep : ∃ G' pot', SortInv M root G' (w.execute t) pot' ∧
          (w.execute t).potential pot' < w.potential pot := by
        cases execution with
        | creating node children ts =>
          cases children with
          | nil => exact hi.wait hrun
          | cons child children => exact hi.create hrun
        | merging m => exact hi.merge hrun
      obtain ⟨G', pot', hi', hlt⟩ := hstep
      exact ⟨G', pot', hi', fun _ => hlt⟩

/-- The sum of the bounds bounds the steps. -/
theorem run (hi : SortInv M root G w pot) {as : List SortAction} (has : ∀ act ∈ as, ¬act.Fails) :
    ∃ G' pot', SortInv M root G' (Transition.run SortWorld.step w as) pot' ∧
      (Along SortWorld.step SortWorld.Enabled w as → as.length ≤ w.potential pot) := by
  induction as generalizing w G pot with
  | nil => exact ⟨G, pot, hi, fun _ => Nat.zero_le _⟩
  | cons act as ih =>
    obtain ⟨G₁, pot₁, hi₁, hlt⟩ := hi.step (has act List.mem_cons_self)
    obtain ⟨G₂, pot₂, hi₂, hle⟩ := ih hi₁ fun b hb => has b (List.mem_cons_of_mem act hb)
    refine ⟨G₂, pot₂, hi₂, fun halong => ?_⟩
    have hact := hlt halong.1
    have hrest := hle halong.2
    rw [List.length_cons]
    omega

/-- When no step is enabled, every task has its result. -/
theorem outcome_isSome (hi : SortInv M root G w pot) (hstuck : ∀ act, ¬w.Enabled act) (n : ℕ) :
    ∀ t < w.tasks.tasks.next, w.tasks.tasks.next ≤ t + n → (G.outcome t).isSome := by
  induction n with
  | zero => exact fun t hlt hle => absurd hlt (Nat.not_lt.mpr hle)
  | succ n ih =>
    intro t hlt hle
    obtain ⟨d, hd⟩ := hi.exists_of_lt t hlt
    have hidle : w.running t = none := Option.not_isSome_iff_eq_none.mp (hstuck (.execute t))
    have houtcome : G.outcome t = d.result := by
      rw [hi.outcome t, hd]
      rfl
    by_contra hnone
    rw [houtcome, Option.not_isSome_iff_eq_none] at hnone
    -- a task that is ready would be in the queue
    have hnot : ¬w.tasks.Ready d := by
      intro hready
      have hcount := hi.sound.queued t d hd
      rw [if_pos hready] at hcount
      have hmem : t ∈ w.tasks.workQueue := List.count_pos_iff.mp (hcount ▸ Nat.one_pos)
      exact hstuck (.getTask 0 "") (List.length_pos_of_mem hmem)
    have hph := hi.phase t d hd
    rw [hidle] at hph
    generalize pot t = k at hph
    cases hph with
    | idle hf hx htr _ hkids hB =>
      refine hnot ⟨hx, hnone, hi.exception t d hd, triggered_iff.mpr fun u hu => ?_⟩
      rw [htr] at hu
      cases hu
    | waiting hf hx htr _ hkids hfull hbag =>
      refine hnot ⟨hx, hnone, hi.exception t d hd, triggered_iff.mpr fun u hu => ?_⟩
      obtain ⟨htu, hun, -⟩ := hkids.mem u (htr ▸ hu)
      have hle' : w.tasks.tasks.next ≤ u + n := by
        have hstep : t + (n + 1) = t + 1 + n := by rw [Nat.add_assoc, Nat.add_comm 1 n]
        exact (hle.trans_eq hstep).trans (Nat.add_le_add_right htu n)
      have hsome := ih u hun hle'
      obtain ⟨e, he⟩ := hi.exists_of_lt u hun
      rw [hi.outcome u, he] at hsome
      rw [complete_some he, TaskData.isComplete]
      exact Bool.or_eq_true_iff.mpr (.inl hsome)
    | done hresult _ _ =>
      rw [hnone] at hresult
      cases hresult

/-- The task of the root node has been created. -/
theorem init {nodes : Heap (TreeCollectionNode T)} {node : TreeCollectionNode T}
    (hB : Below nodes node M) :
    SortInv M 0 { bag := fun _ => M, parent := fun _ => 0, outcome := fun _ => none,
                  owner := fun _ => 0, cont := fun _ => [] }
      { nodes := nodes, tasks := ({} : TaskWorld (SortFunction T) Ptr).added (.sort node) [] }
      fun _ => 10 * M.card ^ 2 := by
  obtain ⟨d, hc, hfunction, hexecutor, hresult, hexception, htriggers, -⟩ :=
    change_added (SortFunction.sort node) [] ({} : TaskWorld (SortFunction T) Ptr)
  have honly : ∀ s e, (({} : TaskWorld (SortFunction T) Ptr).added (.sort node) []).tasks.get s =
      some e → s = 0 ∧ e = d := by
    intro s e he
    rcases hc.of_get he with hself | ⟨-, e₀, he₀, -⟩
    · exact hself
    · rw [Heap.get_empty] at he₀
      cases he₀
  refine ⟨sound_empty.added List.nodup_nil nofun, fun s hs => ?_, fun s e he => ?_,
    fun s => iff_of_false nofun List.not_mem_nil, fun s => ?_, fun s e he => ?_, nofun, nofun,
    Nat.one_pos, rfl, rfl, nofun, fun s hs hs0 => absurd (Nat.lt_one_iff.mp hs) hs0⟩
  · obtain rfl : s = 0 := Nat.lt_one_iff.mp hs
    exact ⟨d, hc.self⟩
  · obtain ⟨rfl, rfl⟩ := honly s e he
    exact .idle hfunction hexecutor htriggers hresult
      ⟨List.nodup_nil, fun u hu => absurd hu List.not_mem_nil,
        fun u hu hlt _ => absurd hu (Nat.not_lt.mpr hlt)⟩ hB
  · show none = ((({} : TaskWorld (SortFunction T) Ptr).added (.sort node) []).tasks.get s).bind _
    cases he : (({} : TaskWorld (SortFunction T) Ptr).added (.sort node) []).tasks.get s with
    | none => rfl
    | some e => rw [(honly s e he).2, Option.bind_some, hresult]
  · rw [(honly s e he).2, hexception]

/-- The list of a result is sorted. -/
theorem stream_of_result (hi : SortInv M root G w pot) (hp : Task.result root w.tasks = .ok p) :
    w.stream p = .ok (M.sort.map some) := by
  obtain ⟨d, hd⟩ := hi.exists_of_lt root hi.root_lt
  have hout : G.outcome root = some p := by
    rw [hi.outcome root, hd]
    rw [Task.result, hd] at hp
    simp only [hi.exception root d hd] at hp
    cases hresult : d.result with
    | none =>
      rw [hresult] at hp
      cases hp
    | some q =>
      rw [hresult] at hp
      rw [Option.bind_some, hresult, Except.ok.inj hp]
  have hrep := hi.lists p (hi.owns root p hout).2
  rw [hi.root_full p hout, hi.root_bag] at hrep
  exact LinkedList.stream_spec hrep

end SortInv

end Inv

/-- The sort of a collection that is not empty starts. -/
theorem TreeCollection.sort_some {c : TreeCollection T} {M : Multiset T} (hc : c.Holds (M.map some))
    (hM : M ≠ 0) : ∃ w G pot, c.sort = .ok (0, w) ∧ SortInv M 0 G w pot := by
  obtain ⟨node, hroot, hB⟩ := Below.of_holds hc hM
  refine ⟨_, _, _, ?_, SortInv.init hB⟩
  unfold TreeCollection.sort
  rw [hroot]
  dsimp only
  rw [add_some (SortFunction.sort node) [] {} nofun]
  rfl

/-- The sort of a collection ends, however its tasks are executed, if no attempt fails; and its result
    is the list of the sorted values. -/
theorem TreeCollection.sort_sorts {c : TreeCollection T} {M : Multiset T} (hc : c.Holds (M.map some))
    (hM : M ≠ 0) :
    ∃ root w, c.sort = .ok (root, w) ∧
      (∃ bound, ∀ as : List SortAction, (∀ act ∈ as, ¬act.Fails) →
        Along SortWorld.step SortWorld.Enabled w as → as.length ≤ bound) ∧
      ∀ as : List SortAction, (∀ act ∈ as, ¬act.Fails) →
        let w' := run SortWorld.step w as
        (∀ p, Task.result root w'.tasks = .ok p → w'.stream p = .ok (M.sort.map some)) ∧
          ((∀ act, ¬w'.Enabled act) → ∃ p, Task.result root w'.tasks = .ok p) := by
  obtain ⟨w, G, pot, hsort, hi⟩ := sort_some hc hM
  refine ⟨0, w, hsort, ⟨w.potential pot, fun as has halong => ?_⟩, fun as has => ?_⟩
  · obtain ⟨G', pot', -, hle⟩ := hi.run has
    exact hle halong
  · obtain ⟨G', pot', hi', -⟩ := hi.run has
    refine ⟨fun p hp => hi'.stream_of_result hp, fun hstuck => ?_⟩
    obtain ⟨p, hp⟩ := Option.isSome_iff_exists.mp
      (hi'.outcome_isSome hstuck _ 0 hi'.root_lt (Nat.le_add_left _ _))
    exact ⟨p, hi'.result 0 p hp⟩

/-- A node with the value 2 and one child with the value 1. -/
def twoValues : TreeCollection ℕ where
  root := some (some { value := some 2, left := some 0 })
  nodes := ({} : Heap (TreeCollectionNode ℕ)).alloc { value := some 1 }

theorem twoValues_holds : twoValues.Holds (({1, 2} : Multiset ℕ).map some) := by
  have hchild : Stored twoValues.nodes (some 0) (.node (some 1) .nil .nil) {0} :=
    .leaf (n := ({ value := some 1 } : TreeCollectionNode ℕ)) rfl rfl rfl
  exact ⟨.node (some 2) (.node (some 1) .nil .nil) .nil, {0} ∪ ∅,
    .node hchild .nil (Finset.disjoint_empty_right _), by decide⟩

theorem TreeCollection.sort_sorts_two :
    twoValues.Holds (({1, 2} : Multiset ℕ).map some) ∧ ∃ root w, twoValues.sort = .ok (root, w) ∧
      (∃ bound, ∀ as : List SortAction, (∀ act ∈ as, ¬act.Fails) →
        Along SortWorld.step SortWorld.Enabled w as → as.length ≤ bound) ∧
      ∀ as : List SortAction, (∀ act ∈ as, ¬act.Fails) →
        let w' := run SortWorld.step w as
        (∀ p, Task.result root w'.tasks = .ok p →
            w'.stream p = .ok ((({1, 2} : Multiset ℕ).sort).map some)) ∧
          ((∀ act, ¬w'.Enabled act) → ∃ p, Task.result root w'.tasks = .ok p) :=
  ⟨twoValues_holds, sort_sorts twoValues_holds (by decide)⟩

end ReSTM
