import Speedy.Imageserver.MinHeap

/-! # Choosing a group for an upload

`selectChunkServerGroupComplex` goes over the routing table, keeps the eligible
groups with the most free space and returns one of them at random. -/
namespace Speedy.Imageserver
open Speedy.Lib

@[simp] def rwStatus : Int := 1
@[simp] def errStatus : Int := 3
@[simp] def globalNormalStatus : Int := 0
@[simp] def maxInt64 : Int := 9223372036854775807

/-- A server in the routing table. -/
structure ChunkServer where
  groupId : Int
  ip : String
  port : Int
  status : Int
  globalStatus : Int
  maxFreeSpace : Int
  pendingWrites : Int
  writingCount : Int
  deriving DecidableEq, Repr

/-- `GroupMap` in the order in which a `range` visits it. -/
structure GroupMap where
  entries : List (String × List ChunkServer)
  nodup : (entries.map Prod.fst).Nodup

/-- An index expression; a missing key gives the nil slice. -/
def GroupMap.get (groups : GroupMap) (id : String) : List ChunkServer :=
  (groups.entries.lookup id).getD []

/-- The variables of the loop over the servers of one group. -/
structure GroupScan where
  minMaxFreeSpace : Int
  normalNum : Int
  available : Bool
  pendingWrites : Int
  writingCount : Int
  deriving DecidableEq, Repr

def GroupScan.start : GroupScan := ⟨maxInt64, 0, true, 0, 0⟩

/-- The rest of the loop body for a server that is not skipped. -/
def GroupScan.add (g : GroupScan) (server : ChunkServer) : GroupScan :=
  { g with
    normalNum := if server.status = rwStatus then g.normalNum + 1 else g.normalNum
    minMaxFreeSpace :=
      if server.maxFreeSpace < g.minMaxFreeSpace then server.maxFreeSpace else g.minMaxFreeSpace
    pendingWrites :=
      if server.pendingWrites > g.pendingWrites then server.pendingWrites else g.pendingWrites
    writingCount :=
      if server.writingCount > g.writingCount then server.writingCount else g.writingCount }

/-- The loop over the servers, with its `break`. -/
def scanServers (g : GroupScan) : List ChunkServer → GroupScan
  | [] => g
  | server :: servers =>
    if server.status ≠ errStatus ∧ server.status ≠ rwStatus then { g with available := false }
    else if server.status = errStatus then scanServers g servers
    else scanServers (g.add server) servers

/-- The body of the loop over the groups. -/
def considerGroup (limitNum size : Int) (minHeap : MinHeap) (group : String × List ChunkServer) :
    MinHeap :=
  match group.2 with
  | [] => minHeap
  | first :: _ =>
    if first.globalStatus ≠ globalNormalStatus then minHeap
    else
      let g := scanServers .start group.2
      if g.available ∧ g.minMaxFreeSpace > size ∧ g.normalNum ≥ limitNum then
        minHeap.addElement group.1 g.minMaxFreeSpace g.pendingWrites g.writingCount
      else minHeap

/-- The end of the selection, when the heap is filled; `rand` is the number drawn. -/
def pickGroup (groups : GroupMap) (minHeap : MinHeap) (selectNum rand : Nat) :
    Except String (List ChunkServer) :=
  if selectNum = 0 then .error "there's not an avaiable chunkserver"
  else
    match minHeap.buildMinHeapSecondary.getElementGroupId (rand % selectNum) with
    | .error _ => .error "can not find an available chunkserver"
    | .ok resultGroupId => .ok (groups.get resultGroupId)

def selectChunkServerGroupComplex (limitNum : Int) (groups : GroupMap) (rand : Nat) (size : Int) :
    Except String (List ChunkServer) :=
  if size ≤ 0 then .error ("data size: " ++ toString size ++ " <= 0")
  else
    let selectNum := groups.entries.length / 10 + 3
    let minHeap := groups.entries.foldl (considerGroup limitNum size)
      (newMinHeap selectNum (Nat.succ_pos _))
    pickGroup groups minHeap
      (if minHeap.getSize < selectNum then minHeap.getSize else selectNum) rand

/-! ## What is returned -/

/-- What the selection asks of a group. -/
structure Eligible (limitNum size : Int) (servers : List ChunkServer) : Prop where
  normal : ∃ first rest, servers = first :: rest ∧ first.globalStatus = globalNormalStatus
  status : ∀ server ∈ servers, server.status = errStatus ∨ server.status = rwStatus
  enough : limitNum ≤ (servers.filter fun server => server.status = rwStatus).length
  bounded : size < maxInt64
  space : ∀ server ∈ servers, server.status = rwStatus → size < server.maxFreeSpace

/-- The least free space of the RW servers; all are 64-bit numbers, so that `MaxInt64` is
the minimum of none. -/
def minFreeSpace (servers : List ChunkServer) : Int :=
  ((servers.filter fun server => server.status = rwStatus).map ChunkServer.maxFreeSpace).foldr
    min maxInt64

theorem lt_minFreeSpace (size : Int) (servers : List ChunkServer) :
    size < minFreeSpace servers ↔ size < maxInt64 ∧
      ∀ server ∈ servers, server.status = rwStatus → size < server.maxFreeSpace := by
  have hfold : ∀ l : List Int,
      size < l.foldr min maxInt64 ↔ size < maxInt64 ∧ ∀ x ∈ l, size < x := by
    intro l
    induction l with
    | nil => simp
    | cons x l ih =>
      rw [List.foldr_cons, Int.lt_min, ih, List.forall_mem_cons]
      exact and_left_comm
  rw [minFreeSpace, hfold, List.forall_mem_map, List.forall_mem_filter]
  simp only [decide_eq_true_eq]

/-- In terms of the least free space. -/
theorem eligible_iff_min {limitNum size : Int} {servers : List ChunkServer} :
    Eligible limitNum size servers ↔
      (∃ first, servers.head? = some first ∧ first.globalStatus = globalNormalStatus) ∧
      (∀ server ∈ servers, server.status = errStatus ∨ server.status = rwStatus) ∧
      limitNum ≤ (servers.filter fun server => server.status = rwStatus).length ∧
      size < minFreeSpace servers := by
  rw [lt_minFreeSpace]
  constructor
  · intro ⟨⟨first, rest, heq, hn⟩, hst, hen, hb, hsp⟩
    exact ⟨⟨first, by rw [heq, List.head?_cons], hn⟩, hst, hen, hb, hsp⟩
  · intro ⟨⟨first, heq, hn⟩, hst, hen, hb, hsp⟩
    obtain ⟨rest, hrest⟩ := List.head?_eq_some_iff.mp heq
    exact ⟨⟨first, rest, hrest, hn⟩, hst, hen, hb, hsp⟩

instance (limitNum size : Int) (servers : List ChunkServer) :
    Decidable (Eligible limitNum size servers) :=
  decidable_of_iff _ eligible_iff_min.symm

section Scan
variable {g : GroupScan} {servers : List ChunkServer} {limitNum size : Int}

theorem foldl_add_available (servers : List ChunkServer) (g : GroupScan) :
    (servers.foldl GroupScan.add g).available = g.available := by
  induction servers generalizing g with
  | nil => rfl
  | cons server servers ih => exact ih _

theorem foldl_add_normalNum (g : GroupScan)
    (h : ∀ server ∈ servers, server.status = rwStatus) :
    (servers.foldl GroupScan.add g).normalNum = g.normalNum + servers.length := by
  induction servers generalizing g with
  | nil => simp
  | cons server servers ih =>
    rw [List.foldl_cons, ih (g.add server) fun t ht => h t (List.mem_cons_of_mem _ ht)]
    simp only [GroupScan.add, h server List.mem_cons_self, if_true, List.length_cons]
    omega

/-- The minimum exceeds a size when all its members do. -/
theorem lt_foldl_add_min (servers : List ChunkServer) (g : GroupScan) (size : Int) :
    size < (servers.foldl GroupScan.add g).minMaxFreeSpace ↔
      size < g.minMaxFreeSpace ∧ ∀ server ∈ servers, size < server.maxFreeSpace := by
  induction servers generalizing g with
  | nil => simp
  | cons server servers ih =>
    have hadd : size < (g.add server).minMaxFreeSpace ↔
        size < g.minMaxFreeSpace ∧ size < server.maxFreeSpace := by
      simp only [GroupScan.add]
      split <;> omega
    rw [List.foldl_cons, ih, hadd, and_assoc, List.forall_mem_cons]

/-- Without a `break` the loop adds up the RW servers. -/
theorem scanServers_eq
    (h : ∀ server ∈ servers, server.status = errStatus ∨ server.status = rwStatus) :
    scanServers g servers =
      (servers.filter fun server => server.status = rwStatus).foldl GroupScan.add g := by
  induction servers generalizing g with
  | nil => rfl
  | cons server servers ih =>
    have hrest := fun g => ih (g := g) fun t ht => h t (List.mem_cons_of_mem _ ht)
    rw [scanServers]
    rcases h server List.mem_cons_self with he | he
    · rw [if_neg (by simp [he]), if_pos he, hrest, List.filter_cons_of_neg (by simp [he])]
    · rw [if_neg (by simp [he]), if_neg (by simp [he]), hrest,
        List.filter_cons_of_pos (by simp [he]), List.foldl_cons]

theorem scanServers_available (hg : g.available = true) :
    (scanServers g servers).available = true ↔
      ∀ server ∈ servers, server.status = errStatus ∨ server.status = rwStatus := by
  constructor
  · intro ha
    induction servers generalizing g with
    | nil => exact nofun
    | cons server servers ih =>
      rw [scanServers] at ha
      split at ha
      · cases ha
      rename_i hst
      have hor : server.status = errStatus ∨ server.status = rwStatus := by
        by_contra hno
        exact hst (not_or.mp hno)
      split at ha
      · exact List.forall_mem_cons.mpr ⟨hor, ih hg ha⟩
      · exact List.forall_mem_cons.mpr ⟨hor, ih (g := g.add server) hg ha⟩
  · intro h
    rw [scanServers_eq h, foldl_add_available, hg]

/-- The tests on a scanned group are those of `Eligible`. -/
theorem eligible_iff {first : ChunkServer} :
    Eligible limitNum size (first :: servers) ↔
      first.globalStatus = globalNormalStatus ∧
      (scanServers .start (first :: servers)).available = true ∧
      (scanServers .start (first :: servers)).minMaxFreeSpace > size ∧
      (scanServers .start (first :: servers)).normalNum ≥ limitNum := by
  rw [scanServers_available rfl]
  have hmin := lt_foldl_add_min
    ((first :: servers).filter fun server => server.status = rwStatus) .start size
  have hrws : ∀ server ∈ (first :: servers).filter fun server => server.status = rwStatus,
      server.status = rwStatus := fun server hs => of_decide_eq_true (List.mem_filter.mp hs).2
  have hnum := foldl_add_normalNum .start hrws
  constructor
  · rintro ⟨⟨_, _, heq, hgl⟩, hst, hen, hb, hsp⟩
    obtain ⟨rfl, rfl⟩ := List.cons.inj heq
    rw [scanServers_eq hst, hnum]
    refine ⟨hgl, hst, hmin.mpr ⟨hb, fun server hs => ?_⟩, ?_⟩
    · obtain ⟨h1, h2⟩ := List.mem_filter.mp hs
      exact hsp server h1 (of_decide_eq_true h2)
    · simpa [GroupScan.start] using hen
  · rintro ⟨hgl, hst, hsp, hen⟩
    rw [scanServers_eq hst] at hsp hen
    obtain ⟨hb, hsp⟩ := hmin.mp hsp
    rw [hnum] at hen
    refine ⟨⟨first, servers, rfl, hgl⟩, hst, by simpa [GroupScan.start] using hen, hb, ?_⟩
    intro server hs hrw
    exact hsp server (List.mem_filter.mpr ⟨hs, decide_eq_true hrw⟩)

/-- The minimum that the loop over the servers computes. -/
theorem scanServers_min
    (h : ∀ server ∈ servers, server.status = errStatus ∨ server.status = rwStatus) :
    (scanServers .start servers).minMaxFreeSpace = minFreeSpace servers := by
  refine eq_of_forall_lt_iff fun size => ?_
  rw [scanServers_eq h, lt_foldl_add_min, lt_minFreeSpace, List.forall_mem_filter]
  simp only [decide_eq_true_eq]
  rfl

end Scan

section Select
variable {limitNum size : Int} {groups : GroupMap} {rand : Nat} {servers : List ChunkServer}

/-- What is added to the heap for a group. -/
def heapElement (group : String × List ChunkServer) : HeapElement :=
  let g := scanServers .start group.2
  ⟨group.1, g.minMaxFreeSpace, g.pendingWrites, g.writingCount⟩

/-- The body of the loop adds the eligible groups. -/
theorem considerGroup_eq (h : MinHeap) (group : String × List ChunkServer) :
    considerGroup limitNum size h group =
      if Eligible limitNum size group.2 then h.addElements [heapElement group] else h := by
  obtain ⟨id, servers⟩ := group
  cases servers with
  | nil =>
    refine (if_neg fun hel => ?_).symm
    obtain ⟨_, _, heq, _⟩ := hel.normal
    cases heq
  | cons first rest =>
    simp only [considerGroup, eligible_iff]
    by_cases hgl : first.globalStatus = globalNormalStatus
    · rw [if_neg (not_not.mpr hgl)]
      simp only [hgl, true_and]
      rfl
    · rw [if_pos hgl, if_neg fun hel => hgl hel.1]

theorem foldl_considerGroup (entries : List (String × List ChunkServer)) (h : MinHeap) :
    entries.foldl (considerGroup limitNum size) h =
      h.addElements ((entries.filter fun group => Eligible limitNum size group.2).map
        heapElement) := by
  induction entries generalizing h with
  | nil => rfl
  | cons group entries ih =>
    rw [List.foldl_cons, ih, considerGroup_eq, List.filter_cons]
    by_cases hel : Eligible limitNum size group.2
    · rw [if_pos hel, if_pos (decide_eq_true hel)]
      rfl
    · rw [if_neg hel, if_neg (by simpa using hel)]

theorem lookup_of_mem {entries : List (String × List ChunkServer)}
    (hnd : (entries.map Prod.fst).Nodup) {group : String × List ChunkServer}
    (h : group ∈ entries) : entries.lookup group.1 = some group.2 := by
  induction entries with
  | nil => cases h
  | cons x xs ih =>
    rw [List.map_cons, List.nodup_cons] at hnd
    rw [List.lookup_cons]
    rcases List.mem_cons.mp h with rfl | hx
    · simp
    · have hne : group.1 ≠ x.1 := fun he => hnd.1 (he ▸ List.mem_map.mpr ⟨group, hx, rfl⟩)
      simp only [beq_eq_false_iff_ne.mpr hne]
      exact ih hnd.2 hx

theorem GroupMap.get_of_mem {group : String × List ChunkServer} (h : group ∈ groups.entries) :
    groups.get group.1 = group.2 := by
  rw [GroupMap.get, lookup_of_mem groups.nodup h]
  rfl

theorem selectChunkServerGroupComplex_pos
    (h : selectChunkServerGroupComplex limitNum groups rand size = .ok servers) : 0 < size := by
  unfold selectChunkServerGroupComplex at h
  split at h
  · cases h
  · omega

/-- The index drawn is below the size, so that nothing can fail but an empty heap. -/
theorem pickGroup_getSize (groups : GroupMap) (minHeap : MinHeap) (rand : Nat) :
    (minHeap.arr.size = 0 ∧ ∃ msg, pickGroup groups minHeap minHeap.getSize rand = .error msg) ∨
    ∃ e ∈ minHeap.arr,
      pickGroup groups minHeap minHeap.getSize rand = .ok (groups.get e.groupId) := by
  unfold pickGroup
  by_cases h0 : minHeap.getSize = 0
  · rw [if_pos h0]
    exact .inl ⟨h0, _, rfl⟩
  · rw [if_neg h0]
    have hlt : rand % minHeap.getSize < minHeap.buildMinHeapSecondary.arr.size := by
      rw [MinHeap.buildMinHeapSecondary, MinHeap.heapify, Lib.heapify_size]
      exact Nat.mod_lt _ (Nat.pos_of_ne_zero h0)
    refine .inr ⟨_, (MinHeap.mem_heapify lessLoad).mp (Array.getElem_mem hlt), ?_⟩
    simp only [MinHeap.getElementGroupId, Array.getElem?_eq_getElem hlt]

/-- What the selection returns: an error when no group is eligible, otherwise one of the
eligible groups with the most free space that the heap has room for. -/
theorem selectChunkServerGroupComplex_cases (limitNum : Int) (groups : GroupMap) (rand : Nat)
    (hsize : 0 < size) :
    ((∃ msg, selectChunkServerGroupComplex limitNum groups rand size = .error msg) ∧
      ∀ group ∈ groups.entries, ¬ Eligible limitNum size group.2) ∨
    ∃ group top, selectChunkServerGroupComplex limitNum groups rand size = .ok group.2 ∧
      group ∈ groups.entries ∧ Eligible limitNum size group.2 ∧ group ∈ top ∧
      Largest (fun group => minFreeSpace group.2) (groups.entries.length / 10 + 3) top
        (groups.entries.filter fun group => Eligible limitNum size group.2) := by
  unfold selectChunkServerGroupComplex
  rw [if_neg (by omega)]
  simp only [foldl_considerGroup]
  generalize hheap : (newMinHeap _ _).addElements _ = minHeap
  generalize hel : groups.entries.filter _ = eligible at hheap ⊢
  have hl := MinHeap.largest_addElements (groups.entries.length / 10 + 3) (Nat.succ_pos _)
    (eligible.map heapElement)
  rw [hheap] at hl
  obtain ⟨top, htop, hlargest⟩ := hl.of_map
  have hlen := hl.length
  have hnum : (if minHeap.getSize < groups.entries.length / 10 + 3 then minHeap.getSize
      else groups.entries.length / 10 + 3) = minHeap.getSize := by
    have : minHeap.getSize = minHeap.arr.toList.length := rfl
    split <;> omega
  rw [hnum]
  have hmem : ∀ group ∈ eligible, group ∈ groups.entries ∧ Eligible limitNum size group.2 := by
    intro group hg
    rw [← hel, List.mem_filter] at hg
    exact ⟨hg.1, of_decide_eq_true hg.2⟩
  rcases pickGroup_getSize groups minHeap rand with ⟨h0, herr⟩ | ⟨e, he, hok⟩
  · refine .inl ⟨herr, fun group hg hgel => ?_⟩
    have hin : group ∈ eligible := hel ▸ List.mem_filter.mpr ⟨hg, decide_eq_true hgel⟩
    have : minHeap.arr.toList.length = 0 := h0
    have := List.length_pos_of_mem hin
    rw [List.length_map] at hlen
    omega
  · rw [← Array.mem_toList_iff, ← htop] at he
    obtain ⟨group, hg, rfl⟩ := List.mem_map.mp he
    obtain ⟨hentry, hgel⟩ := hmem group (hlargest.subperm.subset hg)
    refine .inr ⟨group, top, hok.trans ?_, hentry, hgel, hg, hlargest.congr fun g hg => ?_⟩
    · exact congrArg Except.ok (GroupMap.get_of_mem hentry)
    · exact scanServers_min (hmem g hg).2.status

/-- A group that is returned is in the table and eligible. -/
theorem selectChunkServerGroupComplex_eligible
    (h : selectChunkServerGroupComplex limitNum groups rand size = .ok servers) :
    (∃ id, (id, servers) ∈ groups.entries) ∧ Eligible limitNum size servers := by
  rcases selectChunkServerGroupComplex_cases limitNum groups rand
    (selectChunkServerGroupComplex_pos h) with ⟨⟨msg, herr⟩, -⟩ | ⟨group, top, hok, hentry, hel, -⟩
  · rw [h] at herr
    cases herr
  · rw [h] at hok
    cases hok
    exact ⟨⟨group.1, hentry⟩, hel⟩

/-- The selection fails exactly when no group is eligible. A group that it returns is an
eligible one of the table, and among the `totalNum/10 + 3` eligible groups with the most
free space. -/
theorem selectChunkServerGroupComplex_sound_complete (limitNum size : Int) (groups : GroupMap)
    (rand : Nat) (hsize : 0 < size) :
    ((∃ msg, selectChunkServerGroupComplex limitNum groups rand size = .error msg) ↔
      ∀ group ∈ groups.entries, ¬ Eligible limitNum size group.2) ∧
    ∀ servers, selectChunkServerGroupComplex limitNum groups rand size = .ok servers →
      ∃ id top, (id, servers) ∈ groups.entries ∧ Eligible limitNum size servers ∧
        (id, servers) ∈ top ∧
        Largest (fun group => minFreeSpace group.2) (groups.entries.length / 10 + 3) top
          (groups.entries.filter fun group => Eligible limitNum size group.2) := by
  rcases selectChunkServerGroupComplex_cases limitNum groups rand hsize with
    ⟨herr, hnone⟩ | ⟨group, top, hok, hentry, hel, hg, hl⟩
  · refine ⟨iff_of_true herr hnone, ?_⟩
    intro servers hok
    obtain ⟨msg, herr⟩ := herr
    rw [hok] at herr
    cases herr
  · constructor
    · constructor
      · intro ⟨msg, herr⟩
        rw [hok] at herr
        cases herr
      · intro hnone
        exact absurd hel (hnone group hentry)
    · intro servers hs
      rw [hok] at hs
      cases hs
      exact ⟨group.1, top, hentry, hel, hg, hl⟩

/-- The second group is read-only and the third is too full. -/
def fourGroups : GroupMap :=
  ⟨[("1", [⟨1, "10.0.0.1", 7654, rwStatus, globalNormalStatus, 100, 0, 0⟩]),
    ("2", [⟨2, "10.0.0.2", 7654, 2, globalNormalStatus, 900, 0, 0⟩]),
    ("3", [⟨3, "10.0.0.3", 7654, rwStatus, globalNormalStatus, 5, 0, 0⟩]),
    ("4", [⟨4, "10.0.0.4", 7654, rwStatus, globalNormalStatus, 300, 0, 0⟩,
      ⟨4, "10.0.0.5", 7654, rwStatus, globalNormalStatus, 200, 0, 0⟩])], by decide⟩

theorem selectChunkServerGroupComplex_sound_complete_four :
    fourGroups.entries.map (fun group => decide (Eligible 1 10 group.2)) =
      [true, false, false, true] ∧
    (¬ ∃ msg, selectChunkServerGroupComplex 1 fourGroups 5 10 = .error msg) ∧
    ∀ servers, selectChunkServerGroupComplex 1 fourGroups 5 10 = .ok servers →
      Eligible 1 10 servers := by
  obtain ⟨herror, hok⟩ := selectChunkServerGroupComplex_sound_complete 1 10 fourGroups 5 (by decide)
  refine ⟨by decide, fun herr => ?_, fun servers hs => ?_⟩
  · exact herror.mp herr _ List.mem_cons_self (by decide)
  · obtain ⟨_, _, _, heligible, _⟩ := hok servers hs
    exact heligible

end Select

end Speedy.Imageserver
