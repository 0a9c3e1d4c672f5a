import ReSTM.Common.JavaOrder
import ReSTM.Common.Transition
import ReSTM.Types.Failure
import ReSTM.Types.StringPtr

/-!
# The router of a cluster node

Model of `ClusterRestmImpl` (`controllers/ClusterRestmImpl.scala`, lines 34–67), of `addPeer` and
`delPeer` (`controllers/ClusterController.scala`, lines 40–52) and of the choice of a shard by
`RestmInternalStaticListRouter` (`storage/remote/RestmInternalRouter.scala`, lines 68–76). Every
node makes the list of the hosts from its own set of peers and its own name, which is in the list
twice if it is a peer, too. `timeHash` is the hash code of a timestamp.

* `ClusterRestmImpl.routesAlike_iff`: the nodes that choose the same hosts.
-/

namespace ReSTM

open JavaText Transition

/-! ## Hash codes -/

/-- `String.hashCode`, in 32 bits. -/
def stringHashCode (s : String) : ℤ :=
  (units s).foldl (fun h (unit : ℕ) => (31 * h + unit).bmod (2 ^ 32)) 0

/-- What a request is routed by: a pointer, or a transaction. -/
inductive ShardObj
  | pointer (id : StringPtr)
  | time (time : TxnTime)

/-- `shardObj.hashCode()` (`storage/types/StringPtr.scala`, line 12). -/
def ShardObj.hashCode (timeHash : TxnTime → ℤ) : ShardObj → ℤ
  | pointer id => stringHashCode id.id
  | time t => timeHash t

/-! ## The router -/

namespace RestmInternalStaticListRouter

/-- `while (mod < 0) mod += shards.size`, at most `turns` times. -/
def raise (size : ℤ) : ℕ → ℤ → ℤ
  | 0, mod => mod
  | turns + 1, mod => if mod < 0 then raise size turns (mod + size) else mod

/-- `inner` (lines 71–75). -/
def inner {α : Type} (shards : List α) (hashCode : ℤ) : Except Failure α :=
  if shards.length = 0 then throw (.runtimeException "java.lang.ArithmeticException: / by zero")
  else
    let mod := hashCode.tmod shards.length
    match shards[(raise shards.length mod.natAbs mod).toNat]? with
    | some shard => return shard
    | none => throw (.runtimeException "java.lang.IndexOutOfBoundsException")

end RestmInternalStaticListRouter

/-- `names.grouped(size)`. -/
def grouped {α : Type} (size : ℕ) (names : List α) : List (List α) :=
  (List.range ((names.length + size - 1) / size)).map fun i => (names.drop (i * size)).take size

/-- What `ClusterRestmImpl` keeps of the cluster: its own name, and a set of peers. -/
structure ClusterRestmImpl where
  localName : String
  peers : List String := []
  nodup : peers.Nodup := by exact List.nodup_nil

/-- A request that changes the peers. -/
inductive PeerCall
  | addPeer (peer : String)
  | delPeer (peer : String)
deriving DecidableEq

/-- The node that a request goes to: this one, or another one by its name. -/
inductive Shard
  | here
  | client (name : String)
deriving DecidableEq

namespace ClusterRestmImpl

/-- `addPeer` and `delPeer`. -/
def step (node : ClusterRestmImpl) : PeerCall → ClusterRestmImpl
  | .addPeer peer => ⟨node.localName, node.peers.insert peer, node.nodup.insert⟩
  | .delPeer peer => ⟨node.localName, node.peers.erase peer, node.nodup.erase _⟩

/-- `peerList` (line 37). -/
def peerList (node : ClusterRestmImpl) : List String := sorted (node.peers ++ [node.localName])

/-- `getShards` (lines 50–55). -/
def getShards (node : ClusterRestmImpl) (names : List String) : List Shard :=
  names.map fun name => if name = node.localName then .here else .client name

/-- `shards` (lines 58–66): single nodes, or groups of replicas. -/
def shards (node : ClusterRestmImpl) (replicationFactor : ℤ) : List (List Shard) :=
  if replicationFactor ≤ 1 then (node.getShards node.peerList).map fun shard => [shard]
  else (grouped replicationFactor.toNat node.peerList).map node.getShards

/-- The host behind a shard. -/
def hostOf (node : ClusterRestmImpl) : Shard → String
  | .here => node.localName
  | .client name => name

/-- The hosts that a request is sent to. -/
def select (timeHash : TxnTime → ℤ) (node : ClusterRestmImpl) (replicationFactor : ℤ)
    (shardObj : ShardObj) : Except Failure (List String) :=
  (RestmInternalStaticListRouter.inner (node.shards replicationFactor)
    (shardObj.hashCode timeHash)).map fun group => group.map node.hostOf

/-- The hosts that a node knows. -/
def Knows (node : ClusterRestmImpl) (host : String) : Prop :=
  host ∈ node.peers ∨ host = node.localName

/-- Two nodes send every request to the same host, or the same group of hosts. -/
def RoutesAlike (timeHash : TxnTime → ℤ) (node node' : ClusterRestmImpl) : Prop :=
  ∀ replicationFactor shardObj, ∃ group group',
    node.select timeHash replicationFactor shardObj = .ok group ∧
    node'.select timeHash replicationFactor shardObj = .ok group' ∧
    ∀ host, host ∈ group ↔ host ∈ group'

end ClusterRestmImpl

/-! ## What the router chooses -/

namespace RestmInternalStaticListRouter

theorem raise_of_nonneg {size mod : ℤ} {turns : ℕ} (h : 0 ≤ mod) : raise size turns mod = mod := by
  cases turns with
  | zero => rfl
  | succ turns => rw [raise, if_neg (Int.not_lt.mpr h)]

/-- The loop makes the remainder that is not negative. -/
theorem raise_tmod {size : ℤ} (hsize : 0 < size) (h : ℤ) :
    raise size (h.tmod size).natAbs (h.tmod size) = h % size := by
  have hemod := Int.tmod_eq_emod (a := h) (b := size)
  have hlt := Int.emod_lt_of_pos h hsize
  have hnonneg := Int.emod_nonneg h hsize.ne'
  by_cases hneg : h.tmod size < 0
  · obtain ⟨turns, hturns⟩ : ∃ turns, (h.tmod size).natAbs = turns + 1 :=
      ⟨(h.tmod size).natAbs - 1, by omega⟩
    rw [hturns, raise, if_pos hneg]
    split_ifs at hemod
    · omega
    · rw [raise_of_nonneg (by omega)]
      omega
  · rw [raise_of_nonneg (Int.not_lt.mp hneg)]
    split_ifs at hemod <;> omega

/-- The shard at the hash code, modulo the number of shards. -/
theorem inner_spec {α : Type} {shards : List α} (hne : shards ≠ []) (h : ℤ) :
    ∃ shard, shards[(h % shards.length).toNat]? = some shard ∧ inner shards h = .ok shard := by
  have hpos := List.length_pos_iff.mpr hne
  have hnonneg := Int.emod_nonneg h (b := shards.length) (by omega)
  have hlt := Int.emod_lt_of_pos h (b := shards.length) (by omega)
  have hget : (h % shards.length).toNat < shards.length := by omega
  refine ⟨shards[(h % shards.length).toNat], List.getElem?_eq_getElem hget, ?_⟩
  unfold inner
  rw [if_neg (by omega)]
  dsimp only
  rw [raise_tmod (by omega), List.getElem?_eq_getElem hget]
  rfl

end RestmInternalStaticListRouter

section Grouped

variable {α : Type} {size : ℕ} {names : List α}

theorem grouped_ne_nil (hsize : 0 < size) (hnames : names ≠ []) : grouped size names ≠ [] := by
  have hpos := List.length_pos_iff.mpr hnames
  have hcount : 0 < (names.length + size - 1) / size := Nat.div_pos (by omega) hsize
  rw [← List.length_pos_iff, grouped, List.length_map, List.length_range]
  exact hcount

/-- A group has some of the names. -/
theorem grouped_spec (hsize : 0 < size) {group : List α} (h : group ∈ grouped size names) :
    group ≠ [] ∧ ∀ name ∈ group, name ∈ names := by
  obtain ⟨i, hi, rfl⟩ := List.mem_map.mp h
  have hlt := (Nat.lt_div_iff_mul_lt hsize).mp (List.mem_range.mp hi)
  constructor
  · rw [← List.length_pos_iff, List.length_take, List.length_drop, lt_min_iff]
    exact ⟨hsize, by omega⟩
  · intro name hname
    exact List.mem_of_mem_drop (List.mem_of_mem_take hname)

theorem grouped_head (hsize : 0 < size) (hnames : names ≠ []) :
    (grouped size names)[0]? = some (names.take size) := by
  have hlt := List.length_pos_iff.mpr (grouped_ne_nil hsize hnames)
  rw [grouped, List.length_map, List.length_range] at hlt
  rw [grouped, List.getElem?_map, List.getElem?_range hlt, Option.map_some, Nat.zero_mul,
    List.drop_zero]

/-- One name too many is in a group of its own. -/
theorem grouped_succ (hsize : 2 ≤ size) (hlength : names.length = size + 1) :
    grouped size names = [names.take size, names.drop size] := by
  have hcount : (names.length + size - 1) / size = 2 := by
    rw [hlength]
    exact Nat.div_eq_of_lt_le (by omega) (by omega)
  rw [grouped, hcount]
  show [(names.drop (0 * size)).take size, (names.drop (1 * size)).take size] = _
  rw [Nat.zero_mul, Nat.one_mul, List.drop_zero, List.take_of_length_le (l := names.drop size)]
  rw [List.length_drop]
  omega

theorem grouped_of_length (hsize : 0 < size) (hlength : names.length = size) :
    grouped size names = [names] := by
  have hcount : (names.length + size - 1) / size = 1 := by
    rw [hlength]
    exact Nat.div_eq_of_lt_le (by omega) (by omega)
  rw [grouped, hcount]
  show [(names.drop (0 * size)).take size] = _
  rw [Nat.zero_mul, List.drop_zero, List.take_of_length_le hlength.le]

end Grouped

namespace ClusterRestmImpl

variable {timeHash : TxnTime → ℤ} {node node' : ClusterRestmImpl} {factor : ℤ} {host : String}

theorem mem_peerList : host ∈ node.peerList ↔ node.Knows host := by
  rw [peerList, mem_sorted, List.mem_append, List.mem_singleton, Knows]

theorem peerList_ne_nil (node : ClusterRestmImpl) : node.peerList ≠ [] :=
  List.ne_nil_of_mem (mem_peerList.mpr (.inr rfl))

theorem pairwise_peerList : node.peerList.Pairwise le := pairwise_sorted _

theorem length_peerList : node.peerList.length = node.peers.length + 1 := by
  rw [peerList, (sorted_perm _).length_eq, List.length_append, List.length_singleton]

/-- The names that the shards stand for. -/
def groups (node : ClusterRestmImpl) (replicationFactor : ℤ) : List (List String) :=
  if replicationFactor ≤ 1 then node.peerList.map fun name => [name]
  else grouped replicationFactor.toNat node.peerList

theorem map_hostOf_getShards (node : ClusterRestmImpl) (names : List String) :
    (node.getShards names).map node.hostOf = names := by
  rw [getShards, List.map_map]
  refine (List.map_congr_left fun name _ => ?_).trans (List.map_id names)
  show node.hostOf (if name = node.localName then .here else .client name) = name
  split_ifs with h
  · exact h.symm
  · rfl

theorem map_hostOf_shards :
    (node.shards factor).map (fun group => group.map node.hostOf) = node.groups factor := by
  unfold shards groups
  split_ifs
  · have hshards := map_hostOf_getShards node node.peerList
    rw [List.map_map]
    conv_rhs => rw [← hshards, List.map_map]
    rfl
  · rw [List.map_map]
    exact (List.map_congr_left fun names _ => map_hostOf_getShards node names).trans (List.map_id _)

theorem groups_ne_nil : node.groups factor ≠ [] := by
  unfold groups
  split_ifs
  · exact fun h => peerList_ne_nil node (List.map_eq_nil_iff.mp h)
  · exact grouped_ne_nil (by omega) (peerList_ne_nil node)

theorem select_spec (timeHash : TxnTime → ℤ) (node : ClusterRestmImpl) (factor : ℤ)
    (shardObj : ShardObj) : ∃ group,
    (node.groups factor)[(shardObj.hashCode timeHash % (node.groups factor).length).toNat]? =
      some group ∧ node.select timeHash factor shardObj = .ok group := by
  have hlength : (node.shards factor).length = (node.groups factor).length := by
    rw [← map_hostOf_shards, List.length_map]
  have hne : node.shards factor ≠ [] := by
    rw [← List.length_pos_iff, hlength]
    exact List.length_pos_iff.mpr groups_ne_nil
  obtain ⟨group, hgroup, hinner⟩ :=
    RestmInternalStaticListRouter.inner_spec hne (shardObj.hashCode timeHash)
  refine ⟨group.map node.hostOf, ?_, ?_⟩
  · rw [← hlength, ← map_hostOf_shards, List.getElem?_map, hgroup, Option.map_some]
  · rw [select, hinner]
    rfl

theorem mem_groups {group : List String} (h : group ∈ node.groups factor) :
    group ≠ [] ∧ ∀ name ∈ group, node.Knows name := by
  unfold groups at h
  split_ifs at h
  · obtain ⟨name, hname, rfl⟩ := List.mem_map.mp h
    refine ⟨List.cons_ne_nil _ _, fun name' hname' => ?_⟩
    rw [List.mem_singleton.mp hname']
    exact mem_peerList.mp hname
  · obtain ⟨hne, hmem⟩ := grouped_spec (by omega) h
    exact ⟨hne, fun name hname => mem_peerList.mp (hmem name hname)⟩

/-! ## When two nodes choose the same -/

/-- The node is one of its own peers. -/
def ListsItself (node : ClusterRestmImpl) : Prop := node.localName ∈ node.peers

theorem RoutesAlike.symm (h : RoutesAlike timeHash node node') : RoutesAlike timeHash node' node := by
  intro factor shardObj
  obtain ⟨group, group', hgroup, hgroup', hmem⟩ := h factor shardObj
  exact ⟨group', group, hgroup', hgroup, fun host => (hmem host).symm⟩

/-- The groups that are chosen have the same hosts. -/
theorem RoutesAlike.groups (h : RoutesAlike timeHash node node') (factor : ℤ) (shardObj : ShardObj) :
    ∃ group group',
      (node.groups factor)[(shardObj.hashCode timeHash % (node.groups factor).length).toNat]? =
        some group ∧
      (node'.groups factor)[(shardObj.hashCode timeHash % (node'.groups factor).length).toNat]? =
        some group' ∧ ∀ host, host ∈ group ↔ host ∈ group' := by
  obtain ⟨group, group', hselect, hselect', hmem⟩ := h factor shardObj
  obtain ⟨g, hgroup, hs⟩ := select_spec timeHash node factor shardObj
  obtain ⟨g', hgroup', hs'⟩ := select_spec timeHash node' factor shardObj
  obtain rfl := Except.ok.inj (hs.symm.trans hselect)
  obtain rfl := Except.ok.inj (hs'.symm.trans hselect')
  exact ⟨g, g', hgroup, hgroup', hmem⟩

/-- Nodes with the same list of hosts choose the same. -/
theorem routesAlike_of_peerList (h : node.peerList = node'.peerList) :
    RoutesAlike timeHash node node' := by
  have hgroups : ∀ factor, node.groups factor = node'.groups factor := by
    intro factor
    rw [groups, groups, h]
  intro factor shardObj
  obtain ⟨group, hgroup, hselect⟩ := select_spec timeHash node factor shardObj
  obtain ⟨group', hgroup', hselect'⟩ := select_spec timeHash node' factor shardObj
  rw [hgroups] at hgroup
  obtain rfl := Option.some.inj (hgroup.symm.trans hgroup')
  exact ⟨group, group, hselect, hselect', fun host => Iff.rfl⟩

/-- There is no choice with one host only. -/
theorem routesAlike_of_single (hsingle : ∀ name, node.Knows name → name = host)
    (hsingle' : ∀ name, node'.Knows name → name = host) : RoutesAlike timeHash node node' := by
  have honly : ∀ {node : ClusterRestmImpl} {factor group},
      (∀ name, node.Knows name → name = host) → group ∈ node.groups factor →
      ∀ name, name ∈ group ↔ name = host := by
    intro node factor group hsingle hgroup name
    obtain ⟨hne, hmem⟩ := mem_groups hgroup
    obtain ⟨name', hname'⟩ := List.exists_mem_of_ne_nil group hne
    refine ⟨fun hname => hsingle name (hmem name hname), ?_⟩
    rintro rfl
    rwa [← hsingle name' (hmem name' hname')]
  intro factor shardObj
  obtain ⟨group, hgroup, hselect⟩ := select_spec timeHash node factor shardObj
  obtain ⟨group', hgroup', hselect'⟩ := select_spec timeHash node' factor shardObj
  refine ⟨group, group', hselect, hselect', fun name => ?_⟩
  rw [honly hsingle (List.mem_of_getElem? hgroup), honly hsingle' (List.mem_of_getElem? hgroup')]

/-- The hosts that a node knows, each once. -/
def hosts (node : ClusterRestmImpl) : List String :=
  if node.localName ∈ node.peers then node.peers else node.peers ++ [node.localName]

theorem hosts_of_listsItself (h : node.ListsItself) : node.hosts = node.peers := if_pos h

theorem hosts_of_not (h : ¬node.ListsItself) : node.hosts = node.peers ++ [node.localName] :=
  if_neg h

theorem nodup_hosts : node.hosts.Nodup := by
  unfold hosts
  split_ifs with hself
  · exact node.nodup
  · rw [List.nodup_append']
    refine ⟨node.nodup, List.nodup_singleton _, fun host hhost hmem => hself ?_⟩
    rwa [← List.mem_singleton.mp hmem]

theorem mem_hosts : host ∈ node.hosts ↔ node.Knows host := by
  unfold hosts Knows
  split_ifs with hself
  · refine ⟨.inl, ?_⟩
    rintro (hmem | rfl)
    · exact hmem
    · exact hself
  · rw [List.mem_append, List.mem_singleton]

section Known

variable (hknown : ∀ host, node.Knows host ↔ node'.Knows host)

include hknown

theorem hosts_perm : node.hosts.Perm node'.hosts := by
  refine (List.perm_ext_iff_of_nodup nodup_hosts nodup_hosts).mpr fun host => ?_
  rw [mem_hosts, mem_hosts, hknown]

/-- Nodes that both list themselves, or both do not, have the same list if they are the same or
    do not list themselves. -/
theorem peerList_eq (h : ¬node.ListsItself ∧ ¬node'.ListsItself ∨
    node.ListsItself ∧ node'.ListsItself ∧ node.localName = node'.localName) :
    node.peerList = node'.peerList := by
  have hperm := hosts_perm hknown
  refine sorted_congr ?_
  rcases h with ⟨hself, hself'⟩ | ⟨hself, hself', hname⟩
  · rwa [hosts_of_not hself, hosts_of_not hself'] at hperm
  · rw [hosts_of_listsItself hself, hosts_of_listsItself hself'] at hperm
    rw [hname]
    exact hperm.append_right _

/-- A node that lists itself has one entry more than one that does not. -/
theorem single_of_one (hself : node.ListsItself) (hself' : ¬node'.ListsItself)
    (hroutes : RoutesAlike timeHash node node') :
    ∃ host, ∀ name, node.Knows name → name = host := by
  have hperm := hosts_perm hknown
  rw [hosts_of_listsItself hself, hosts_of_not hself'] at hperm
  have hlength : node.peerList.length = node'.peerList.length + 1 := by
    rw [length_peerList, length_peerList, hperm.length_eq, List.length_append,
      List.length_singleton]
  -- the other node has a list of one, or chooses one host out of the list of two
  suffices h : ∃ host, ∀ name ∈ node'.peerList, name = host by
    obtain ⟨host, hhost⟩ := h
    exact ⟨host, fun name hname => hhost name (mem_peerList.mpr ((hknown name).mp hname))⟩
  rcases Nat.lt_or_ge node'.peerList.length 2 with hsmall | hsize
  · have hpos := List.length_pos_iff.mpr (peerList_ne_nil node')
    obtain ⟨host, hhost⟩ := List.length_eq_one_iff.mp (show node'.peerList.length = 1 by omega)
    exact ⟨host, fun name hname => List.mem_singleton.mp (hhost ▸ hname)⟩
  · have hgroups : node.groups node'.peerList.length =
        [node.peerList.take node'.peerList.length, node.peerList.drop node'.peerList.length] := by
      rw [groups, if_neg (by omega), Int.toNat_natCast]
      exact grouped_succ hsize hlength
    have hgroups' : node'.groups node'.peerList.length = [node'.peerList] := by
      rw [groups, if_neg (by omega), Int.toNat_natCast]
      exact grouped_of_length (by omega) rfl
    obtain ⟨group, group', hgroup, hgroup', hmem⟩ :=
      hroutes.groups node'.peerList.length (.pointer ⟨"a"⟩)
    have hhash : (ShardObj.pointer ⟨"a"⟩).hashCode timeHash = 97 := by
      show stringHashCode "a" = 97
      decide
    rw [hgroups, hhash] at hgroup
    rw [hgroups', hhash] at hgroup'
    obtain rfl : node.peerList.drop node'.peerList.length = group := by
      simpa using hgroup
    obtain rfl : node'.peerList = group' := by
      simpa using hgroup'
    have hone : (node.peerList.drop node'.peerList.length).length = 1 := by
      rw [List.length_drop]
      omega
    obtain ⟨host, hhost⟩ := List.length_eq_one_iff.mp hone
    refine ⟨host, fun name hname => ?_⟩
    have := (hmem name).mpr hname
    rw [hhost] at this
    exact List.mem_singleton.mp this

/-- Of two nodes that list themselves, the one with the lower name has one entry more up to there. -/
theorem localName_eq_of_le (hself : node.ListsItself) (hself' : node'.ListsItself)
    (hle : le node.localName node'.localName) (hroutes : RoutesAlike timeHash node node') :
    node.localName = node'.localName := by
  by_contra hne
  have hnle : ¬le node'.localName node.localName := fun h => hne (Std.Antisymm.antisymm _ _ hle h)
  have hperm := hosts_perm hknown
  rw [hosts_of_listsItself hself, hosts_of_listsItself hself'] at hperm
  have hrefl : le node.localName node.localName := le_refl (units node.localName)
  -- the entries up to the lower name
  have hcount : (node.peerList.filter fun name => le name node.localName).length =
      (node.peers.filter fun name => le name node.localName).length + 1 := by
    rw [peerList, ((sorted_perm _).filter _).length_eq, List.filter_append, List.length_append,
      List.filter_singleton, decide_eq_true hrefl]
    rfl
  have hcount' : (node'.peerList.filter fun name => le name node.localName).length =
      (node.peers.filter fun name => le name node.localName).length := by
    rw [peerList, ((sorted_perm _).filter _).length_eq, List.filter_append, List.length_append,
      List.filter_singleton, decide_eq_false hnle, (hperm.filter _).length_eq]
    rfl
  have hpos : 0 < (node.peers.filter fun name => le name node.localName).length :=
    List.length_pos_of_mem (List.mem_filter.mpr ⟨hself, decide_eq_true hrefl⟩)
  generalize hk : (node.peers.filter fun name => le name node.localName).length = k at *
  -- the first group of this node has these entries, and that of the other one has another
  have hgroup : ∀ {node : ClusterRestmImpl},
      (node.groups (k + 1 : ℕ))[((ShardObj.pointer ⟨""⟩).hashCode timeHash %
        (node.groups (k + 1 : ℕ)).length).toNat]? = some (node.peerList.take (k + 1)) := by
    intro node
    have hindex : ((ShardObj.pointer ⟨""⟩).hashCode timeHash %
        (node.groups (k + 1 : ℕ)).length).toNat = 0 := by
      show ((0 : ℤ) % _).toNat = 0
      rw [Int.zero_emod]
      rfl
    rw [hindex, groups, if_neg (by omega), Int.toNat_natCast]
    exact grouped_head (Nat.succ_pos k) (peerList_ne_nil node)
  obtain ⟨group, group', hg, hg', hmem⟩ := hroutes.groups (k + 1 : ℕ) (.pointer ⟨""⟩)
  rw [hgroup] at hg hg'
  obtain rfl := Option.some.inj hg
  obtain rfl := Option.some.inj hg'
  have hall : ∀ name ∈ node'.peerList.take (k + 1), decide (le name node.localName) = true := by
    intro name hname
    have hin := (hmem name).mpr hname
    rw [← hcount, take_filter_le pairwise_peerList] at hin
    exact (List.mem_filter.mp hin).2
  have hlength : (node'.peerList.take (k + 1)).length = k + 1 := by
    have hle : k ≤ node.peers.length := hk ▸ List.length_filter_le _ _
    rw [List.length_take, length_peerList, ← hperm.length_eq]
    omega
  have hsub := ((List.take_sublist (k + 1) node'.peerList).filter
    fun name => le name node.localName).length_le
  rw [List.filter_eq_self.mpr hall, hlength, hcount'] at hsub
  omega

/-- Two nodes choose the same hosts exactly if there is only one, if neither lists itself, or if
    they have the same name and both list themselves. -/
theorem routesAlike_known : RoutesAlike timeHash node node' ↔
    (∃ host, ∀ name, node.Knows name → name = host) ∨
      ¬node.ListsItself ∧ ¬node'.ListsItself ∨
      node.ListsItself ∧ node'.ListsItself ∧ node.localName = node'.localName := by
  have hknown' : ∀ host, node'.Knows host ↔ node.Knows host := fun host => (hknown host).symm
  constructor
  · intro hroutes
    by_cases hself : node.ListsItself
    · by_cases hself' : node'.ListsItself
      · refine .inr (.inr ⟨hself, hself', ?_⟩)
        rcases Std.Total.total (r := le) node.localName node'.localName with hle | hle
        · exact localName_eq_of_le hknown hself hself' hle hroutes
        · exact (localName_eq_of_le hknown' hself' hself hle hroutes.symm).symm
      · exact .inl (single_of_one hknown hself hself' hroutes)
    · by_cases hself' : node'.ListsItself
      · obtain ⟨host, hhost⟩ := single_of_one hknown' hself' hself hroutes.symm
        exact .inl ⟨host, fun name hname => hhost name ((hknown name).mp hname)⟩
      · exact .inr (.inl ⟨hself, hself'⟩)
  · rintro (⟨host, hhost⟩ | h)
    · exact routesAlike_of_single hhost fun name hname => hhost name ((hknown name).mpr hname)
    · exact routesAlike_of_peerList (peerList_eq hknown h)

end Known

/-- A node that has just started. -/
def start (localName : String) : ClusterRestmImpl := { localName := localName }

/-- Nodes that know the same hosts, after any calls on each of them. -/
theorem routesAlike_iff (timeHash : TxnTime → ℤ) (localName localName' : String)
    (calls calls' : List PeerCall) :
    let node := run step (start localName) calls
    let node' := run step (start localName') calls'
    (∀ host, node.Knows host ↔ node'.Knows host) →
      (RoutesAlike timeHash node node' ↔ (∃ host, ∀ name, node.Knows name → name = host) ∨
        ¬node.ListsItself ∧ ¬node'.ListsItself ∨
        node.ListsItself ∧ node'.ListsItself ∧ node.localName = node'.localName) :=
  fun hknown => routesAlike_known hknown

/-- A node of two that was told of the other one. -/
def first : ClusterRestmImpl := run step (start "10.0.0.1") [.addPeer "10.0.0.2"]

/-- The other one. -/
def second : ClusterRestmImpl := run step (start "10.0.0.2") [.addPeer "10.0.0.1"]

/-- The first one, that was told of itself, too. -/
def firstTwice : ClusterRestmImpl :=
  run step (start "10.0.0.1") [.addPeer "10.0.0.2", .addPeer "10.0.0.1"]

theorem knows_second (host : String) : second.Knows host ↔ host = "10.0.0.1" ∨ host = "10.0.0.2" := by
  show host ∈ ["10.0.0.1"] ∨ host = "10.0.0.2" ↔ _
  rw [List.mem_singleton]

theorem knows_first (host : String) : first.Knows host ↔ second.Knows host := by
  rw [knows_second]
  show host ∈ ["10.0.0.2"] ∨ host = "10.0.0.1" ↔ _
  rw [List.mem_singleton, or_comm]

theorem routesAlike_first_second : RoutesAlike (fun _ => 0) first second ↔
    (∃ host, ∀ name, first.Knows name → name = host) ∨
      ¬first.ListsItself ∧ ¬second.ListsItself ∨
      first.ListsItself ∧ second.ListsItself ∧ first.localName = second.localName :=
  routesAlike_iff (fun _ => 0) "10.0.0.1" "10.0.0.2" [.addPeer "10.0.0.2"] [.addPeer "10.0.0.1"]
    knows_first

/-- One pointer goes to two hosts. -/
theorem select_firstTwice : (∀ host, firstTwice.Knows host ↔ second.Knows host) ∧
    firstTwice.select (fun _ => 0) 1 (.pointer ⟨"b"⟩) = .ok ["10.0.0.2"] ∧
    second.select (fun _ => 0) 1 (.pointer ⟨"b"⟩) = .ok ["10.0.0.1"] := by
  refine ⟨fun host => ?_, by decide +kernel, by decide +kernel⟩
  rw [knows_second]
  show host ∈ ["10.0.0.1", "10.0.0.2"] ∨ host = "10.0.0.1" ↔ _
  rw [List.mem_cons, List.mem_singleton]
  exact ⟨fun h => h.elim id .inl, .inl⟩

end ClusterRestmImpl

end ReSTM
