import Mathlib.Data.List.AList
import Speedy.Imageserver.ConnPools
import Speedy.Lib.Decimal
import Speedy.Lib.Registry

/-! # The connection pools follow the routing table

`handleChunkServerInfo` gets a new routing table, computes group by group which servers
have come and which have gone, makes a new map of connection pools from the old one, and
closes the pools of the servers that have gone. A server that has moved to another group has
both come and gone. A `range` over a map visits its entries in any order. -/
namespace Speedy.Imageserver
open Speedy.Lib

/-! ## The two differences -/

def ChunkServer.hostInfoEqual (cs another : ChunkServer) : Bool :=
  cs.ip = another.ip && cs.port = another.port

/-- The nil map -/
def GroupMap.empty : GroupMap := ⟨[], List.nodup_nil⟩

def infoDiff (info1 info2 : GroupMap) : List ChunkServer :=
  info1.entries.flatMap fun (groupId, servers1) =>
    match info2.entries.lookup groupId with
    | none => servers1
    | some servers2 => servers1.filter fun server1 => !servers2.any server1.hostInfoEqual

/-- `delServers` and `addServers` -/
def serverInfoDiff (newInfo oldInfo : GroupMap) : List ChunkServer × List ChunkServer :=
  (infoDiff oldInfo newInfo, infoDiff newInfo oldInfo)

/-! ## The pools -/

/-- `Pools`, with numbers for the pointers -/
abbrev PoolMap := AList fun _ : String => Nat

/-- The pools that have been made, and which of them are open. -/
structure PoolHeap where
  next : Nat
  isOpen : Nat → Bool

def addExistPool (pools : PoolMap) (key : String) (pool : Nat) : PoolMap :=
  if (pools.lookup key).isSome then pools else pools.insert key pool

def removePool (pools : PoolMap) (cs : ChunkServer) : PoolMap := pools.erase cs.poolKey

/-- `none` is the panic of `NewResourcePool`. -/
def addPool (capacity : Int) (heap : PoolHeap) (pools : PoolMap) (cs : ChunkServer) :
    Option (PoolHeap × PoolMap) :=
  if (pools.lookup cs.poolKey).isSome then some (heap, pools)
  else if capacity ≤ 0 then none
  else some (⟨heap.next + 1, Function.update heap.isOpen heap.next true⟩,
    pools.insert cs.poolKey heap.next)

def addPools (capacity : Int) : PoolHeap → PoolMap → List ChunkServer → Option (PoolHeap × PoolMap)
  | heap, pools, [] => some (heap, pools)
  | heap, pools, cs :: servers =>
    match addPool capacity heap pools cs with
    | none => none
    | some (heap, pools) => addPools capacity heap pools servers

def removeAndClosePool (heap : PoolHeap) (pools : PoolMap) (cs : ChunkServer) :
    PoolHeap × PoolMap :=
  match pools.lookup cs.poolKey with
  | none => (heap, pools)
  | some pool =>
    ({ heap with isOpen := Function.update heap.isOpen pool false }, pools.erase cs.poolKey)

/-! ## The handler -/

/-- `chunkServerGroups` and `connectionPools` of a `Server`. -/
structure RouteState where
  groups : Option GroupMap
  pools : Option PoolMap
  heap : PoolHeap

def RouteState.new : RouteState := ⟨none, none, ⟨0, fun _ => false⟩⟩

def handleChunkServerInfo (connPoolCapacity : Int) (s : RouteState) (infos : GroupMap) :
    Option RouteState :=
  let (delServers, addServers) := serverInfoDiff infos (s.groups.getD .empty)
  if delServers.length = 0 ∧ addServers.length = 0 then some { s with groups := some infos }
  else
    let oldPools := s.pools.getD ∅
    let newPools := oldPools.entries.foldl (fun pools e => addExistPool pools e.1 e.2) ∅
    let newPools := delServers.foldl removePool newPools
    match addPools connPoolCapacity s.heap newPools addServers with
    | none => none
    | some (heap, newPools) =>
      -- the servers are served from the new map before the pools are closed
      let (heap, _) := delServers.foldl (fun (heap, pools) cs => removeAndClosePool heap pools cs)
        (heap, oldPools)
      some ⟨some infos, some newPools, heap⟩

/-- The pool of a key; no map is an empty one. -/
def RouteState.poolOf (s : RouteState) (key : String) : Option Nat := (s.pools.getD ∅).lookup key

/-- The same maps in other orders. -/
structure RouteState.Reorders (s s' : RouteState) : Prop where
  groups : (s.groups.getD .empty).entries.Perm (s'.groups.getD .empty).entries
  pools : (s.pools.getD ∅).entries.Perm (s'.pools.getD ∅).entries
  heap : s'.heap = s.heap

def GroupMap.servers (infos : GroupMap) : List ChunkServer := infos.entries.flatMap Prod.snd

/-- No address occurs twice. -/
def GroupMap.Unique (infos : GroupMap) : Prop := (infos.servers.map ChunkServer.poolKey).Nodup

abbrev RouteRun (connPoolCapacity : Int) : RouteState → Prop :=
  Reach (· = RouteState.new) fun s (infos : GroupMap) s' => infos.Unique ∧
    ∃ s1, s.Reorders s1 ∧ handleChunkServerInfo connPoolCapacity s1 infos = some s'

/-! ## Where the addresses are -/

section Placed
variable {infos info1 info2 : GroupMap} {group group' key : String}

/-- The key says which host it is, whatever the text of the address. -/
theorem poolKey_inj {cs cs' : ChunkServer} :
    cs.poolKey = cs'.poolKey ↔ cs.hostInfoEqual cs' = true := by
  unfold ChunkServer.hostInfoEqual
  rw [Bool.and_eq_true, decide_eq_true_iff, decide_eq_true_iff]
  constructor
  · exact text_sep_toString_inj (c := ':') (by decide) rfl (by decide)
  · rintro ⟨hip, hport⟩
    unfold ChunkServer.poolKey
    rw [hip, hport]

/-- A server with this key is in the group. -/
def GroupMap.Placed (infos : GroupMap) (group key : String) : Prop :=
  ∃ servers, infos.entries.lookup group = some servers ∧ ∃ cs ∈ servers, cs.poolKey = key

theorem mem_of_lookup {entries : List (String × List ChunkServer)} {servers : List ChunkServer}
    (h : entries.lookup group = some servers) : (group, servers) ∈ entries := by
  induction entries with
  | nil => cases h
  | cons e entries ih =>
    obtain ⟨id, list⟩ := e
    rw [List.lookup_cons] at h
    split at h
    · rename_i heq
      obtain rfl := beq_iff_eq.mp heq
      cases h
      exact List.mem_cons_self
    · exact List.mem_cons_of_mem _ (ih h)

theorem GroupMap.lookup_eq_some {servers : List ChunkServer} :
    infos.entries.lookup group = some servers ↔ (group, servers) ∈ infos.entries :=
  ⟨mem_of_lookup, lookup_of_mem infos.nodup⟩

theorem GroupMap.exists_placed :
    (∃ group, infos.Placed group key) ↔ ∃ cs ∈ infos.servers, cs.poolKey = key := by
  constructor
  · rintro ⟨group, servers, hlookup, cs, hcs, hkey⟩
    exact ⟨cs, List.mem_flatMap.mpr ⟨_, mem_of_lookup hlookup, hcs⟩, hkey⟩
  · rintro ⟨cs, hcs, hkey⟩
    obtain ⟨⟨group, servers⟩, hmem, hcs⟩ := List.mem_flatMap.mp hcs
    exact ⟨group, servers, GroupMap.lookup_eq_some.mpr hmem, cs, hcs, hkey⟩

/-- An address is in one group. -/
theorem GroupMap.Unique.placed (h : infos.Unique) (h1 : infos.Placed group key)
    (h2 : infos.Placed group' key) : group = group' := by
  obtain ⟨servers, hlookup, cs, hcs, hkey⟩ := h1
  obtain ⟨servers', hlookup', cs', hcs', hkey'⟩ := h2
  unfold GroupMap.Unique GroupMap.servers at h
  rw [List.map_flatMap, List.nodup_flatMap] at h
  by_contra hne
  have hsymm : Std.Symm (Function.onFun List.Disjoint
      fun e : String × List ChunkServer => e.2.map ChunkServer.poolKey) :=
    ⟨fun _ _ hd _ h1 h2 => hd h2 h1⟩
  have hapart := h.2.forall (mem_of_lookup hlookup) (mem_of_lookup hlookup')
    fun he => hne (Prod.mk.inj he).1
  exact hapart (List.mem_map.mpr ⟨cs, hcs, hkey⟩) (List.mem_map.mpr ⟨cs', hcs', hkey'⟩)

/-- The keys of a difference: those that the second table does not have in the same group. -/
theorem mem_infoDiff_keys :
    key ∈ (infoDiff info1 info2).map ChunkServer.poolKey ↔
      ∃ group, info1.Placed group key ∧ ¬ info2.Placed group key := by
  have hmem : ∀ cs group servers, (group, servers) ∈ info1.entries → cs ∈ servers →
      (cs ∈ (match info2.entries.lookup group with
        | none => servers
        | some servers2 => servers.filter fun server1 => !servers2.any server1.hostInfoEqual) ↔
        ¬ info2.Placed group cs.poolKey) := by
    intro cs group servers hgroup hcs
    unfold GroupMap.Placed
    cases info2.entries.lookup group with
    | none => exact iff_of_true hcs (by rintro ⟨_, hno, _⟩; cases hno)
    | some servers2 =>
      simp only [List.mem_filter, hcs, true_and, Bool.not_eq_true', Option.some.injEq,
        exists_eq_left', ← Bool.not_eq_true, List.any_eq_true]
      refine not_congr (exists_congr fun cs2 => and_congr_right fun _ => ?_)
      rw [← poolKey_inj]
      exact eq_comm
  constructor
  · intro h
    obtain ⟨cs, hcs, rfl⟩ := List.mem_map.mp h
    obtain ⟨⟨group, servers⟩, hgroup, hcs⟩ := List.mem_flatMap.mp hcs
    have hin : cs ∈ servers := by
      simp only at hcs
      split at hcs
      · exact hcs
      · exact (List.mem_filter.mp hcs).1
    exact ⟨group, ⟨servers, GroupMap.lookup_eq_some.mpr hgroup, cs, hin, rfl⟩,
      (hmem cs group servers hgroup hin).mp hcs⟩
  · rintro ⟨group, ⟨servers, hlookup, cs, hin, rfl⟩, hno⟩
    have hgroup := mem_of_lookup hlookup
    exact List.mem_map.mpr ⟨cs, List.mem_flatMap.mpr ⟨(group, servers), hgroup,
      (hmem cs group servers hgroup hin).mpr hno⟩, rfl⟩

end Placed

/-! ## What the loops do -/

section Pools
variable {pools old : PoolMap} {heap heap' : PoolHeap} {key : String} {pool : Nat}

/-- A map of pools and the pools that have been made. -/
def PoolHeap.registry (heap : PoolHeap) (pools : PoolMap) : Registry String :=
  ⟨fun key => pools.lookup key, heap.next, heap.isOpen⟩

theorem addExistPool_lookup (pools : PoolMap) (key' : String) (pool : Nat) (key : String) :
    (addExistPool pools key' pool).lookup key =
      (pools.lookup key).or (if key = key' then some pool else none) := by
  unfold addExistPool
  by_cases heq : key = key'
  · subst heq
    cases hl : pools.lookup key with
    | none => rw [if_neg nofun, AList.lookup_insert, if_pos rfl, Option.none_or]
    | some id => rw [if_pos Option.isSome_some, hl, Option.some_or]
  · rw [if_neg heq, Option.or_none]
    split
    · rfl
    · exact AList.lookup_insert_ne heq

/-- The new map begins as a copy of the old one. -/
theorem copyPools_lookup (old : PoolMap) (key : String) :
    (old.entries.foldl (fun pools e => addExistPool pools e.1 e.2) (∅ : PoolMap)).lookup key =
      old.lookup key := by
  have hfold : ∀ (l : List (Sigma fun _ : String => Nat)) (pools : PoolMap),
      (l.foldl (fun pools e => addExistPool pools e.1 e.2) pools).lookup key =
        (pools.lookup key).or (l.dlookup key) := by
    intro l
    induction l with
    | nil => exact fun pools => (Option.or_none).symm
    | cons e l ih =>
      intro pools
      rw [List.foldl_cons, ih, addExistPool_lookup, Option.or_assoc]
      congr 1
      by_cases heq : key = e.1
      · subst heq
        rw [if_pos rfl, List.dlookup_cons_eq, Option.some_or]
      · rw [if_neg heq, Option.none_or, List.dlookup_cons_ne l e heq]
  rw [hfold]
  exact Option.none_or

theorem removePool_registry (heap : PoolHeap) (pools : PoolMap) (cs : ChunkServer) :
    heap.registry (removePool pools cs) = (heap.registry pools).drop cs.poolKey := by
  unfold PoolHeap.registry Registry.drop removePool
  congr 1
  funext key
  rw [Function.update_apply]
  split
  · rename_i heq
    rw [heq, AList.lookup_erase]
  · rename_i hne
    exact AList.lookup_erase_ne hne

theorem removePools_registry (heap : PoolHeap) (servers : List ChunkServer) (pools : PoolMap) :
    heap.registry (servers.foldl removePool pools) =
      (servers.map ChunkServer.poolKey).foldl (fun r k => r.drop k) (heap.registry pools) := by
  induction servers generalizing pools with
  | nil => rfl
  | cons cs servers ih =>
    rw [List.foldl_cons, ih, removePool_registry]
    rfl

/-- What `addPools` changes: the servers have pools afterwards, those they had if they had
some, and new ones otherwise. -/
structure PoolsAdded (servers : List ChunkServer) (pools pools' : PoolMap) : Prop where
  keys : ∀ key, (∃ pool, pools'.lookup key = some pool) ↔
    (∃ pool, pools.lookup key = some pool) ∨ key ∈ servers.map ChunkServer.poolKey
  same : ∀ key pool, pools.lookup key = some pool → pools'.lookup key = some pool

theorem addPool_ok {capacity : Int} {cs : ChunkServer} {pools' : PoolMap} {gone : Nat → Prop}
    (hk : Registry.Kept gone (heap.registry pools))
    (h : addPool capacity heap pools cs = some (heap', pools')) :
    Registry.Kept gone (heap'.registry pools') ∧ PoolsAdded [cs] pools pools' := by
  unfold addPool at h
  cases hl : pools.lookup cs.poolKey with
  | some pool =>
    rw [hl, if_pos Option.isSome_some] at h
    cases h
    refine ⟨hk, fun key => ?_, fun _ _ hid => hid⟩
    rw [List.map_singleton, List.mem_singleton]
    exact ⟨.inl, fun h => h.elim (fun h => h) fun heq => ⟨pool, heq ▸ hl⟩⟩
  | none =>
    rw [hl, if_neg nofun] at h
    split at h
    · cases h
    · cases h
      have hnew : (⟨heap.next + 1, Function.update heap.isOpen heap.next true⟩ :
          PoolHeap).registry (pools.insert cs.poolKey heap.next) =
          (heap.registry pools).register cs.poolKey := by
        unfold PoolHeap.registry Registry.register
        congr 1
        funext key
        rw [Function.update_apply]
        split
        · rename_i heq
          rw [heq, AList.lookup_insert]
        · rename_i hne
          exact AList.lookup_insert_ne hne
      refine ⟨hnew ▸ hk.register hl, fun key => ?_, fun key id hid => ?_⟩
      · rw [List.map_singleton, List.mem_singleton]
        by_cases heq : key = cs.poolKey
        · exact iff_of_true ⟨heap.next, heq ▸ AList.lookup_insert _⟩ (.inr heq)
        · rw [AList.lookup_insert_ne heq]
          exact ⟨.inl, fun h => h.resolve_right heq⟩
      · have hne : key ≠ cs.poolKey := by
          rintro rfl
          rw [hl] at hid
          cases hid
        rw [AList.lookup_insert_ne hne]
        exact hid

theorem addPools_ok {capacity : Int} {gone : Nat → Prop} {pools' : PoolMap}
    (servers : List ChunkServer) (hk : Registry.Kept gone (heap.registry pools))
    (h : addPools capacity heap pools servers = some (heap', pools')) :
    Registry.Kept gone (heap'.registry pools') ∧ PoolsAdded servers pools pools' := by
  induction servers generalizing heap pools with
  | nil =>
    cases h
    refine ⟨hk, fun key => ?_, fun _ _ hid => hid⟩
    exact ⟨.inl, fun h => h.resolve_right List.not_mem_nil⟩
  | cons cs servers ih =>
    unfold addPools at h
    split at h
    · cases h
    · rename_i heap1 pools1 hadd
      obtain ⟨hk1, hkeys1, hsame1⟩ := addPool_ok hk hadd
      obtain ⟨hk', hkeys, hsame⟩ := ih hk1 h
      refine ⟨hk', fun key => ?_, fun key id hid => hsame key id (hsame1 key id hid)⟩
      rw [hkeys, hkeys1, List.map_singleton, List.mem_singleton, List.map_cons, List.mem_cons,
        or_assoc]

/-- With room for connections no pool is refused. -/
theorem addPools_isSome {capacity : Int} (hcap : 0 < capacity) (servers : List ChunkServer)
    (heap : PoolHeap) (pools : PoolMap) :
    ∃ heap' pools', addPools capacity heap pools servers = some (heap', pools') := by
  induction servers generalizing heap pools with
  | nil => exact ⟨heap, pools, rfl⟩
  | cons cs servers ih =>
    have hone : ∃ heap' pools', addPool capacity heap pools cs = some (heap', pools') := by
      unfold addPool
      split
      · exact ⟨_, _, rfl⟩
      · rw [if_neg (Int.not_le.mpr hcap)]
        exact ⟨_, _, rfl⟩
    obtain ⟨heap1, pools1, h1⟩ := hone
    unfold addPools
    rw [h1]
    exact ih heap1 pools1

theorem lookup_erase_eq_some {pools : PoolMap} {k k' : String} {id : Nat} :
    (pools.erase k').lookup k = some id ↔ k ≠ k' ∧ pools.lookup k = some id := by
  by_cases heq : k = k'
  · rw [heq, AList.lookup_erase]
    exact iff_of_false nofun fun h => h.1 rfl
  · rw [AList.lookup_erase_ne heq]
    exact ⟨fun h => ⟨heq, h⟩, fun h => h.2⟩

/-- The pools that the servers have in the old map are closed. -/
theorem closePools_kept {new : PoolMap} (servers : List ChunkServer) (heap : PoolHeap)
    (old : PoolMap) (hone : ∀ k k' id, old.lookup k = some id → old.lookup k' = some id → k = k')
    (hk : Registry.Kept (fun id => ∃ k ∈ servers.map ChunkServer.poolKey, old.lookup k = some id)
      (heap.registry new)) :
    Registry.Kept (fun _ => False)
      ((servers.foldl (fun (heap, pools) cs => removeAndClosePool heap pools cs)
        (heap, old)).1.registry new) := by
  induction servers generalizing heap old with
  | nil => exact hk.congr fun id => ⟨nofun, nofun⟩
  | cons cs servers ih =>
    rw [List.foldl_cons]
    cases hl : old.lookup cs.poolKey with
    | none =>
      have hstep : removeAndClosePool heap old cs = (heap, old) := by
        unfold removeAndClosePool
        rw [hl]
      simp only [hstep]
      refine ih heap old hone (hk.congr fun id => ?_)
      rw [List.map_cons, List.exists_mem_cons_iff, hl]
      exact ⟨fun h => h.resolve_left nofun, .inr⟩
    | some pool =>
      have hstep : removeAndClosePool heap old cs =
          ({ heap with isOpen := Function.update heap.isOpen pool false },
            old.erase cs.poolKey) := by
        unfold removeAndClosePool
        rw [hl]
      have hgone : ∃ k ∈ (cs :: servers).map ChunkServer.poolKey, old.lookup k = some pool :=
        ⟨cs.poolKey, List.mem_cons_self, hl⟩
      simp only [hstep]
      refine ih _ _ ?_ ((hk.close (hk.apart pool hgone).2).congr fun id => ?_)
      · intro k k' id h1 h2
        exact hone k k' id (lookup_erase_eq_some.mp h1).2 (lookup_erase_eq_some.mp h2).2
      · constructor
        · rintro ⟨⟨k, hmem, hid⟩, hne⟩
          have hk' : k ≠ cs.poolKey := by
            rintro rfl
            rw [hl] at hid
            exact hne (Option.some.inj hid).symm
          exact ⟨k, (List.mem_cons.mp hmem).resolve_left hk',
            lookup_erase_eq_some.mpr ⟨hk', hid⟩⟩
        · rintro ⟨k, hmem, hid⟩
          obtain ⟨hk', hid⟩ := lookup_erase_eq_some.mp hid
          refine ⟨⟨k, List.mem_cons_of_mem _ hmem, hid⟩, ?_⟩
          rintro rfl
          exact hk' (hone k cs.poolKey id hid hl)

end Pools

/-! ## What a call leaves -/

section Routes
variable {s s1 s' : RouteState} {infos : GroupMap} {capacity : Int}

def RouteState.table (s : RouteState) : GroupMap := s.groups.getD .empty

def RouteState.registry (s : RouteState) : Registry String := s.heap.registry (s.pools.getD ∅)

/-- One open pool for each address in the table, and no other open pool. -/
structure RouteState.Sound (s : RouteState) : Prop where
  kept : Registry.Kept (fun _ => False) s.registry
  keys : ∀ key, (∃ pool, s.poolOf key = some pool) ↔ ∃ group, s.table.Placed group key
  unique : s.table.Unique

theorem RouteState.new_sound : RouteState.new.Sound := by
  refine ⟨Registry.kept_empty, fun key => iff_of_false nofun ?_, List.nodup_nil⟩
  rintro ⟨group, servers, hlookup, -⟩
  cases hlookup

theorem GroupMap.lookup_perm {a b : GroupMap} (h : a.entries.Perm b.entries) (group : String) :
    a.entries.lookup group = b.entries.lookup group := by
  refine Option.ext fun servers => ?_
  rw [GroupMap.lookup_eq_some, GroupMap.lookup_eq_some]
  exact h.mem_iff

theorem RouteState.Reorders.refl (s : RouteState) : s.Reorders s := ⟨.refl _, .refl _, rfl⟩

/-- The order of the maps does not matter. -/
theorem RouteState.Reorders.same (h : s.Reorders s1) :
    s1.registry = s.registry ∧ (∀ key, s1.poolOf key = s.poolOf key) ∧
      (∀ group key, s1.table.Placed group key ↔ s.table.Placed group key) ∧
      (s.table.Unique → s1.table.Unique) := by
  have hpools : ∀ key, s1.poolOf key = s.poolOf key := fun key => (AList.perm_lookup h.pools).symm
  refine ⟨?_, hpools, fun group key => ?_, fun hu => ?_⟩
  · unfold RouteState.registry PoolHeap.registry
    rw [h.heap]
    congr 1
    exact funext hpools
  · unfold GroupMap.Placed RouteState.table
    rw [GroupMap.lookup_perm h.groups]
  · exact (((h.groups.flatMap_right Prod.snd).map ChunkServer.poolKey).nodup_iff).mp hu

theorem RouteState.Reorders.sound (h : s.Reorders s1) (hs : s.Sound) : s1.Sound := by
  obtain ⟨hreg, hpools, hplaced, hunique⟩ := h.same
  refine ⟨hreg ▸ hs.kept, fun key => ?_, hunique hs.unique⟩
  rw [hpools, hs.keys]
  exact exists_congr fun group => (hplaced group key).symm

/-- After a call with a table: one open pool for each of its addresses, the one it had for
a server that stayed where it was, and every other pool is closed. -/
structure PoolsTrack (s : RouteState) (infos : GroupMap) (s' : RouteState) : Prop where
  table : s'.groups = some infos
  keys : ∀ key, (∃ pool, s'.poolOf key = some pool) ↔ ∃ cs ∈ infos.servers, cs.poolKey = key
  opened : ∀ key pool, s'.poolOf key = some pool → s'.heap.isOpen pool = true
  stayed : ∀ group key, s.table.Placed group key → infos.Placed group key →
    s'.poolOf key = s.poolOf key
  closed : ∀ pool < s'.heap.next, (∀ key, s'.poolOf key ≠ some pool) → s'.heap.isOpen pool = false

/-- What has to be shown of the new maps. -/
theorem RouteState.Sound.track (h : s'.Sound) (htable : s'.groups = some infos)
    (hstayed : ∀ group key, s.table.Placed group key → infos.Placed group key →
      s'.poolOf key = s.poolOf key) : PoolsTrack s infos s' := by
  have hinfos : s'.table = infos := by
    unfold RouteState.table
    rw [htable]
    rfl
  refine ⟨htable, fun key => ?_, fun key pool hpool => ?_, hstayed, fun pool _ hno => ?_⟩
  · rw [h.keys, hinfos, GroupMap.exists_placed]
  · exact (h.kept.opened pool).mpr (.inl ⟨key, hpool⟩)
  · refine Bool.eq_false_iff.mpr fun hopen => ?_
    rcases (h.kept.opened pool).mp hopen with ⟨key, hkey⟩ | hgone
    · exact hno key hkey
    · exact hgone

/-- A server that stayed in its group is in neither difference. -/
theorem not_mem_infoDiff {old new : GroupMap} (hu : old.Unique) {group key : String}
    (ho : old.Placed group key) (hn : new.Placed group key) :
    key ∉ (infoDiff old new).map ChunkServer.poolKey := by
  rw [mem_infoDiff_keys]
  rintro ⟨group', ho', hn'⟩
  exact hn' (hu.placed ho' ho ▸ hn)

/-- Without what has gone and with what has come, the old addresses are the new ones. -/
theorem placed_iff_diff {old : GroupMap} (hu : old.Unique) (new : GroupMap) (key : String) :
    (key ∉ (infoDiff old new).map ChunkServer.poolKey ∧ ∃ group, old.Placed group key) ∨
        key ∈ (infoDiff new old).map ChunkServer.poolKey ↔
      ∃ group, new.Placed group key := by
  rw [mem_infoDiff_keys, mem_infoDiff_keys]
  constructor
  · rintro (⟨hdel, group, ho⟩ | ⟨group, hn, -⟩)
    · by_contra hno
      exact hdel ⟨group, ho, fun hn => hno ⟨group, hn⟩⟩
    · exact ⟨group, hn⟩
  · rintro ⟨group, hn⟩
    by_cases ho : old.Placed group key
    · refine .inl ⟨?_, group, ho⟩
      rintro ⟨group', ho', hn'⟩
      exact hn' (hu.placed ho' ho ▸ hn)
    · exact .inr ⟨group, hn, ho⟩

/-- Nothing has come and nothing has gone. -/
theorem RouteState.Sound.unchanged (hs : s.Sound) (hu : infos.Unique)
    (hdel : infoDiff s.table infos = []) (hadd : infoDiff infos s.table = []) :
    ({ s with groups := some infos } : RouteState).Sound := by
  refine ⟨hs.kept, fun key => ?_, hu⟩
  have hkeys := placed_iff_diff hs.unique infos key
  rw [hdel, hadd, List.map_nil] at hkeys
  refine (hs.keys key).trans (Iff.trans ?_ hkeys)
  exact ⟨fun h => .inl ⟨List.not_mem_nil, h⟩, fun h => (h.resolve_right List.not_mem_nil).2⟩

/-- The pools that are taken over. -/
theorem removePools_lookup (old : PoolMap) (servers : List ChunkServer) (key : String)
    (pool : Nat) :
    (servers.foldl removePool
        (old.entries.foldl (fun pools e => addExistPool pools e.1 e.2) ∅)).lookup key = some pool ↔
      key ∉ servers.map ChunkServer.poolKey ∧ old.lookup key = some pool := by
  have hreg := removePools_registry ⟨0, fun _ => false⟩ servers
    (old.entries.foldl (fun pools e => addExistPool pools e.1 e.2) ∅)
  have hids := congrArg (fun r => Registry.ids r key) hreg
  have hcopy := copyPools_lookup old key
  rw [show (servers.foldl removePool _).lookup key = _ from hids, Registry.dropAll_ids, ← hcopy]
  rfl

theorem removePools_kept {heap : PoolHeap} {old : PoolMap} (servers : List ChunkServer)
    (hk : Registry.Kept (fun _ => False) (heap.registry old)) :
    Registry.Kept (fun id => ∃ k ∈ servers.map ChunkServer.poolKey, old.lookup k = some id)
      (heap.registry (servers.foldl removePool
        (old.entries.foldl (fun pools e => addExistPool pools e.1 e.2) ∅))) := by
  have hcopy : heap.registry (old.entries.foldl (fun pools e => addExistPool pools e.1 e.2) ∅) =
      heap.registry old := by
    unfold PoolHeap.registry
    congr 1
    exact funext (copyPools_lookup old)
  rw [removePools_registry, hcopy]
  exact (hk.dropAll _).congr fun id => ⟨fun h => h.resolve_left fun hf => hf, .inr⟩

/-- The new map and the pools after those of the servers that have gone are closed. -/
theorem RouteState.Sound.changed (hs : s.Sound) (hu : infos.Unique) {heap : PoolHeap}
    {newPools : PoolMap}
    (hadd : addPools capacity s.heap ((infoDiff s.table infos).foldl removePool
      ((s.pools.getD ∅).entries.foldl (fun pools e => addExistPool pools e.1 e.2) ∅))
      (infoDiff infos s.table) = some (heap, newPools)) :
    (⟨some infos, some newPools, ((infoDiff s.table infos).foldl
      (fun (heap, pools) cs => removeAndClosePool heap pools cs)
      (heap, s.pools.getD ∅)).1⟩ : RouteState).Sound ∧
      ∀ group key, s.table.Placed group key → infos.Placed group key →
        newPools.lookup key = s.poolOf key := by
  obtain ⟨hk, hkeys, hsame⟩ := addPools_ok _ (removePools_kept _ hs.kept) hadd
  refine ⟨⟨closePools_kept _ _ _ hs.kept.one hk, fun key => ?_, hu⟩, fun group key ho hn => ?_⟩
  · refine (hkeys key).trans (Iff.trans ?_ (placed_iff_diff hs.unique infos key))
    refine or_congr_left ?_
    rw [← hs.keys key, ← exists_and_left]
    exact exists_congr fun pool => removePools_lookup _ _ key pool
  · obtain ⟨pool, hpool⟩ := (hs.keys key).mpr ⟨group, ho⟩
    rw [hpool]
    exact hsame key pool
      ((removePools_lookup _ _ key pool).mpr ⟨not_mem_infoDiff hs.unique ho hn, hpool⟩)

theorem handleChunkServerInfo_sound (hs : s.Sound) (hu : infos.Unique)
    (h : handleChunkServerInfo capacity s infos = some s') :
    s'.Sound ∧ PoolsTrack s infos s' := by
  unfold handleChunkServerInfo serverInfoDiff at h
  simp only at h
  split at h
  · rename_i hnone
    cases h
    have hsound := hs.unchanged hu (List.length_eq_zero_iff.mp hnone.1)
      (List.length_eq_zero_iff.mp hnone.2)
    exact ⟨hsound, hsound.track rfl fun _ _ _ _ => rfl⟩
  · split at h
    · cases h
    · rename_i heap newPools hadd
      cases h
      obtain ⟨hsound, hstayed⟩ := hs.changed hu hadd
      exact ⟨hsound, hsound.track rfl hstayed⟩

theorem handleChunkServerInfo_isSome (hcap : 0 < capacity) (s : RouteState) (infos : GroupMap) :
    ∃ s', handleChunkServerInfo capacity s infos = some s' := by
  unfold handleChunkServerInfo serverInfoDiff
  simp only
  split
  · exact ⟨_, rfl⟩
  · obtain ⟨heap, pools, hadd⟩ :=
      addPools_isSome hcap (infoDiff infos (s.groups.getD .empty)) s.heap
      ((infoDiff (s.groups.getD .empty) infos).foldl removePool
        ((s.pools.getD ∅).entries.foldl (fun pools e => addExistPool pools e.1 e.2) ∅))
    rw [hadd]
    exact ⟨_, rfl⟩

theorem RouteRun.sound (h : RouteRun capacity s) : s.Sound := by
  refine Reach.invariant (I := RouteState.Sound) ?_ ?_ h
  · rintro s rfl
    exact RouteState.new_sound
  · rintro s infos s' - hs ⟨hu, s1, horder, hstep⟩
    exact (handleChunkServerInfo_sound (horder.sound hs) hu hstep).1

end Routes

/-- Whatever tables arrive one after the other: after each call the pools are those of the
servers in the table. A call fails only when no connection is allowed at all. -/
theorem pools_track_routes {capacity : Int} {s s1 : RouteState} (hrun : RouteRun capacity s)
    (horder : s.Reorders s1) {infos : GroupMap} (hu : infos.Unique) :
    (0 < capacity → ∃ s', handleChunkServerInfo capacity s1 infos = some s') ∧
      ∀ s', handleChunkServerInfo capacity s1 infos = some s' → PoolsTrack s infos s' := by
  refine ⟨fun hcap => handleChunkServerInfo_isSome hcap s1 infos, fun s' h => ?_⟩
  obtain ⟨-, hpools, hplaced, -⟩ := horder.same
  obtain ⟨-, htrack⟩ := handleChunkServerInfo_sound (horder.sound hrun.sound) hu h
  refine ⟨htrack.table, htrack.keys, htrack.opened, fun group key ho hn => ?_, htrack.closed⟩
  rw [htrack.stayed group key ((hplaced group key).mpr ho) hn, hpools]

def movingServer (groupId : Int) : ChunkServer := ⟨groupId, "10.0.0.1", 8000, 1, 0, 1000, 0, 0⟩

def stayingServer : ChunkServer := ⟨8, "10.0.0.2", 8000, 1, 0, 1000, 0, 0⟩

def tableBefore : GroupMap := ⟨[("7", [movingServer 7]), ("8", [stayingServer])], by decide⟩

def tableAfter : GroupMap := ⟨[("8", [movingServer 8, stayingServer])], by decide⟩

def routesBefore : RouteState := (handleChunkServerInfo 200 .new tableBefore).getD .new

theorem routesBefore_run : RouteRun 200 routesBefore := by
  have hunique : tableBefore.Unique := by
    unfold GroupMap.Unique
    decide
  exact .next (.init rfl) ⟨hunique, _, .refl _, rfl⟩

/-- A server moves from one group to another: its pool is closed and it gets a new one. -/
theorem pools_track_moved : ∃ s', handleChunkServerInfo 200 routesBefore tableAfter = some s' ∧
    PoolsTrack routesBefore tableAfter s' ∧
    ["10.0.0.1:8000", "10.0.0.2:8000"].map routesBefore.poolOf = [some 0, some 1] ∧
    ["10.0.0.1:8000", "10.0.0.2:8000"].map s'.poolOf = [some 2, some 1] ∧
    [0, 1, 2].map s'.heap.isOpen = [false, true, true] := by
  have hunique : tableAfter.Unique := by
    unfold GroupMap.Unique
    decide
  have htrack := (pools_track_routes routesBefore_run (.refl _) hunique).2
  exact ⟨_, rfl, htrack _ rfl, rfl, rfl, rfl⟩

end Speedy.Imageserver
