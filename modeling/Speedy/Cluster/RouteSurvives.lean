import Speedy.Cluster.RouteLayout
import Mathlib.Algebra.Order.BigOperators.Group.List

/-! # When the routing table survives its transport

A directive that does not end in its string swallows the text up to a later string, and with
it the port of its server or the brace of the next one. Each server that arrives with a port
takes the weight of a brace and of a port, so that nothing has been swallowed when all of them
arrive. -/
namespace Speedy.Cluster
open Speedy.Lib Speedy.Chunkmaster

/-! ## What arrives has its weight -/

section Arrives

theorem decodeMember_port {c c' : ChunkServerInfo} {m : List Char × Json}
    (h : decodeMember c m = some c') : c'.port = c.port ∨ portWeight m.1 = 1 := by
  unfold decodeMember at h
  split at h
  · cases h
    exact .inl rfl
  · next f hf =>
    by_cases hport : f = .port
    · exact .inr (if_pos (hport ▸ hf))
    · refine .inl ?_
      cases f with
      | port => exact absurd rfl hport
      | _ =>
        obtain ⟨n, -, rfl⟩ := Option.map_eq_some_iff.mp h
        rfl

theorem foldlM_decodeMember_port {ms : List (List Char × Json)} {c c' : ChunkServerInfo}
    (h : ms.foldlM decodeMember c = some c') :
    c'.port = c.port ∨ 1 ≤ membersWeight portWeight ms := by
  induction ms generalizing c with
  | nil =>
    cases h
    exact .inl rfl
  | cons m ms ih =>
    obtain ⟨key, v⟩ := m
    rw [List.foldlM_cons] at h
    obtain ⟨d, hd, h⟩ := Option.bind_eq_some_iff.mp h
    rw [membersWeight]
    rcases ih h with hc' | hle
    · rcases decodeMember_port hd with hport | hweight
      · exact .inl (hc'.trans hport)
      · dsimp only at hweight
        exact .inr (by omega)
    · exact .inr (by omega)

/-- A server with a port is an object with a port. -/
theorem unmarshalServer_weight {v : Json} {c : ChunkServerInfo} (h : unmarshalServer v = some c)
    (hport : c.port ≠ 0) : 2 ≤ v.weight portWeight := by
  unfold unmarshalServer at h
  split at h
  · cases h
    exact absurd rfl hport
  · rcases foldlM_decodeMember_port h with hzero | hle
    · exact absurd hzero hport
    · rw [Json.weight]
      omega
  · cases h

def withPort (cs : List ChunkServerInfo) : Nat := cs.countP fun c => c.port ≠ 0

theorem mapM_unmarshalServer_weight {vs : List Json} {cs : List ChunkServerInfo}
    (h : vs.mapM unmarshalServer = some cs) :
    2 * withPort cs ≤ elementsWeight portWeight vs := by
  induction vs generalizing cs with
  | nil =>
    cases h
    exact Nat.zero_le _
  | cons v vs ih =>
    rw [List.mapM_cons] at h
    obtain ⟨c, hc, h⟩ := Option.bind_eq_some_iff.mp h
    obtain ⟨cs', hcs', h⟩ := Option.bind_eq_some_iff.mp h
    cases h
    have hle := ih hcs'
    rw [elementsWeight, withPort, List.countP_cons, ← withPort]
    split
    · next hport =>
      have := unmarshalServer_weight hc (of_decide_eq_true hport)
      omega
    · omega

theorem unmarshalServers_weight {v : Json} {cs : List ChunkServerInfo}
    (h : unmarshalServers v = some cs) : 2 * withPort cs ≤ v.weight portWeight := by
  unfold unmarshalServers at h
  split at h
  · cases h
    exact Nat.zero_le _
  · rw [Json.weight]
    exact mapM_unmarshalServer_weight h
  · cases h

/-- The servers with a port in the whole map. -/
def RouteInfos.withPort (infos : RouteInfos) : Nat :=
  (infos.entries.map fun e => Cluster.withPort e.2).sum

theorem RouteInfos.withPort_insert (infos : RouteInfos) (id : String) (cs : List ChunkServerInfo) :
    RouteInfos.withPort (infos.insert id cs) ≤ infos.withPort + Cluster.withPort cs := by
  have hsub := (List.kerase_sublist id infos.entries).map fun e => Cluster.withPort e.2
  have hle := hsub.sum_le_sum fun _ _ => Nat.zero_le _
  rw [RouteInfos.withPort, AList.entries_insert, List.map_cons, List.sum_cons, Nat.add_comm]
  exact Nat.add_le_add_right hle _

theorem foldlM_unmarshalGroup_weight {ms : List (List Char × Json)} {infos infos' : RouteInfos}
    (h : ms.foldlM unmarshalGroup infos = some infos') :
    2 * infos'.withPort ≤ 2 * infos.withPort + membersWeight portWeight ms := by
  induction ms generalizing infos with
  | nil =>
    cases h
    omega
  | cons m ms ih =>
    obtain ⟨key, v⟩ := m
    rw [List.foldlM_cons] at h
    obtain ⟨infos'', hm, h⟩ := Option.bind_eq_some_iff.mp h
    obtain ⟨cs, hcs, rfl⟩ := Option.map_eq_some_iff.mp hm
    dsimp only at h hcs
    have hle := ih h
    have hinsert := RouteInfos.withPort_insert infos (String.ofList key) cs
    have hweight := unmarshalServers_weight hcs
    rw [membersWeight]
    omega

theorem unmarshalGroups_weight {v : Json} {infos : RouteInfos}
    (h : unmarshalGroups v = some infos) :
    infos = ∅ ∨ 1 + 2 * infos.withPort ≤ v.weight portWeight := by
  unfold unmarshalGroups at h
  split at h
  · cases h
    exact .inl rfl
  · have hle := foldlM_unmarshalGroup_weight h
    have hempty : RouteInfos.withPort ∅ = 0 := rfl
    rw [hempty] at hle
    rw [Json.weight]
    exact .inr (by omega)
  · cases h

end Arrives

/-! ## Nothing has been swallowed -/

section Exact
variable {s : ServerTables} {visits : List String}

theorem isGroup_sortedEntries {e : String × List MetadataChunkserver}
    (he : e ∈ sortedEntries (chunkmasterRouteHandler s visits)) : IsGroup e ∧ e.2 ≠ [] := by
  have hlookup := mem_sortedEntries.mp he
  have hmem : e.1 ∈ chunkmasterRouteHandler s visits := by
    rw [← AList.lookup_isSome, hlookup]
    rfl
  obtain ⟨c, hc, hid⟩ := exists_of_mem_foldl_addToGroup hmem
  refine ⟨⟨_, hid.symm⟩, fun hnil => ?_⟩
  have hservers := lookup_route s visits e.1
  rw [hlookup, Option.getD_some, hnil] at hservers
  exact List.filter_eq_nil_iff.mp hservers.symm c hc (decide_eq_true hid)

/-- A server of the cache is in a group of the table. -/
theorem exists_group {c : MetadataChunkserver} (hc : c ∈ cachedServers s visits) :
    ∃ e ∈ sortedEntries (chunkmasterRouteHandler s visits), c ∈ e.2 := by
  have hfilter : c ∈ (cachedServers s visits).filter fun d =>
      toString d.groupId.toNat = toString c.groupId.toNat :=
    List.mem_filter.mpr ⟨hc, decide_eq_true rfl⟩
  rw [← lookup_route] at hfilter
  cases hlookup : (chunkmasterRouteHandler s visits).lookup (toString c.groupId.toNat) with
  | none =>
    rw [hlookup] at hfilter
    cases hfilter
  | some servers =>
    rw [hlookup] at hfilter
    exact ⟨_, mem_sortedEntries.mpr hlookup, hfilter⟩

section Arrived
variable {infos : RouteInfos} (hinfos : ∀ id, (infos.lookup id).getD [] =
  ((cachedServers s visits).filter fun c => toString c.groupId.toNat = id).map ChunkServerInfo.of)
include hinfos

theorem lookup_arrived {e : String × List MetadataChunkserver}
    (he : e ∈ sortedEntries (chunkmasterRouteHandler s visits)) :
    infos.lookup e.1 = some (e.2.map ChunkServerInfo.of) := by
  have hgroup := hinfos e.1
  rw [← lookup_route, mem_sortedEntries.mp he, Option.getD_some] at hgroup
  cases hlookup : infos.lookup e.1 with
  | none =>
    rw [hlookup] at hgroup
    exact absurd (List.map_eq_nil_iff.mp hgroup.symm) (isGroup_sortedEntries he).2
  | some cs =>
    rw [hlookup] at hgroup
    exact congrArg some hgroup

/-- When the whole table arrives, all of its servers with a port do. -/
theorem length_le_withPort (hport : ∀ c ∈ cachedServers s visits, c.port ≠ 0) :
    ((sortedEntries (chunkmasterRouteHandler s visits)).map fun e => e.2.length).sum ≤
      infos.withPort := by
  let arrive : String × List MetadataChunkserver → Sigma fun _ : String => List ChunkServerInfo :=
    fun e => ⟨e.1, e.2.map ChunkServerInfo.of⟩
  have hsubset : (sortedEntries (chunkmasterRouteHandler s visits)).map arrive ⊆ infos.entries := by
    intro x hx
    obtain ⟨e, he, rfl⟩ := List.mem_map.mp hx
    exact AList.mem_lookup_iff.mp (lookup_arrived hinfos he)
  have hnodup : ((sortedEntries (chunkmasterRouteHandler s visits)).map arrive).Nodup := by
    refine List.Nodup.of_map Sigma.fst ?_
    rw [List.map_map]
    exact nodup_sortedEntries _
  have hcount : ∀ e ∈ sortedEntries (chunkmasterRouteHandler s visits),
      e.2.length = withPort (arrive e).2 := by
    intro e he
    rw [withPort, List.countP_map]
    refine (List.countP_eq_length.mpr fun c hc => ?_).symm
    exact decide_eq_true (hport c (mem_cachedServers he hc))
  obtain ⟨l, hperm, hsub⟩ := List.subperm_of_subset hnodup hsubset
  calc ((sortedEntries (chunkmasterRouteHandler s visits)).map fun e => e.2.length).sum
    _ = (((sortedEntries (chunkmasterRouteHandler s visits)).map arrive).map
          fun e => withPort e.2).sum := by
        rw [List.map_map, List.map_congr_left hcount]
        rfl
    _ = (l.map fun e => withPort e.2).sum := (hperm.map _).sum_eq.symm
    _ ≤ infos.withPort := (hsub.map _).sum_le_sum fun _ _ => Nat.zero_le _

end Arrived

theorem getChunkServerInfo_eq_ok {byteData : List Char} {infos : RouteInfos}
    (h : getChunkServerInfo byteData = .ok infos) :
    ∃ v, Json.parse byteData = some v ∧ unmarshalGroups v = some infos := by
  unfold getChunkServerInfo at h
  split at h
  · cases h
  · next v hparse =>
    split at h
    · cases h
    · next infos' hgroups =>
      cases h
      exact ⟨v, hparse, hgroups⟩

/-- Every string is printed within itself. -/
theorem printsAs_of_survives (h : Survives s visits)
    (hport : ∀ c ∈ cachedServers s visits, c.port ≠ 0) {c : MetadataChunkserver}
    (hc : c ∈ cachedServers s visits) :
    (∃ ip, PrintsAs c.ip.toList ip) ∧ ∃ dataDir, PrintsAs c.dataDir.toList dataDir := by
  obtain ⟨infos, hread, hinfos⟩ := h
  obtain ⟨v, hparse, hgroups⟩ := getChunkServerInfo_eq_ok hread
  obtain ⟨e, he, hce⟩ := exists_group hc
  have hlength := length_le_withPort hinfos hport
  have hgroup : ∀ e ∈ sortedEntries (chunkmasterRouteHandler s visits), IsGroup e :=
    fun e he => (isGroup_sortedEntries he).1
  have hne : infos ≠ ∅ := by
    intro hempty
    have hlookup := lookup_arrived hinfos he
    rw [hempty, AList.lookup_empty] at hlookup
    cases hlookup
  have hweight := (unmarshalGroups_weight hgroups).resolve_left hne
  have hbody : routeBody s visits = fprintf (Json.object
      ((sortedEntries (chunkmasterRouteHandler s visits)).map fun e =>
        (e.1.toList, .array (e.2.map marshalChunkserver)))).encode := rfl
  rw [hbody] at hparse
  cases hsorted : sortedEntries (chunkmasterRouteHandler s visits) with
  | nil =>
    rw [hsorted] at he
    cases he
  | cons d es =>
    rw [hsorted] at he hlength hgroup hparse
    obtain ⟨hd, hes⟩ := List.forall_mem_cons.mp hgroup
    rw [← render_tableSegs] at hparse
    have hweighs : Weighs portWeight _ _ := Json.weighs_of_parse hparse
    obtain ⟨hle, htight⟩ := (layout_tableSegs hd hes).weighs hweighs
    rw [segsWeight_tableSegs hd hes] at hle htight
    have hprints := htight (by omega)
    refine ⟨hprints _ (mem_tableSegs (by simp) (ip_mem_serverSegs c) he hce), ?_⟩
    by_cases hdataDir : c.dataDir = ""
    · exact ⟨[], hdataDir ▸ .nil⟩
    · exact hprints _ (mem_tableSegs (by simp) (dataDir_mem_serverSegs hdataDir) he hce)

theorem harmless_of_survives (hfits : ∀ c ∈ cachedServers s visits, FitsRoute c)
    (hport : ∀ c ∈ cachedServers s visits, c.port ≠ 0) (h : Survives s visits) :
    ∀ c ∈ cachedServers s visits, Harmless c := by
  choose! ip hip using fun c hc => (printsAs_of_survives h hport (c := c) hc).1
  choose! dataDir hdataDir using fun c hc => (printsAs_of_survives h hport (c := c) hc).2
  obtain ⟨infos, hread, hinfos⟩ := h
  rw [getChunkServerInfo_printed hfits hip hdataDir] at hread
  cases hread
  intro c hc
  have hgroup := hinfos (toString c.groupId.toNat)
  rw [lookup_collect_route] at hgroup
  have hsame := List.map_inj_left.mp hgroup c (List.mem_filter.mpr ⟨hc, decide_eq_true rfl⟩)
  have hipc : String.ofList (ip c) = c.ip := congrArg (fun i => i.ip) hsame
  have hself := hip c hc
  rw [← hipc, String.toList_ofList] at hself
  refine ⟨?_, dataDir c, hdataDir c hc⟩
  rw [← hipc, String.toList_ofList]
  exact hself.not_mem

/-- A `range` over the cache visits all of it. -/
theorem forall_cachedServers {P : MetadataChunkserver → Prop}
    (hvisits : visits.Perm s.serverInfo.index.keys) :
    (∀ c ∈ cachedServers s visits, P c) ↔ ∀ key c, s.serverInfo.entry key = some c → P c := by
  constructor
  · intro h key c hentry
    obtain ⟨p, hp, -⟩ := Option.map_eq_some_iff.mp hentry
    have hkey : key ∈ s.serverInfo.index := AList.lookup_isSome.mp (hp ▸ rfl)
    exact h c (List.mem_filterMap.mpr ⟨key, hvisits.mem_iff.mpr hkey, hentry⟩)
  · intro h c hc
    obtain ⟨key, -, hentry⟩ := List.mem_filterMap.mp hc
    exact h key c hentry

/-- The table arrives if all strings are harmless. When no port is zero it arrives only then.
A port that is zero is not missed: a server with the address `%[q`, no port and the data
directory `]%[q` arrives, as the second directive writes again what the first has swallowed. -/
theorem routeTable_survives_iff (hvisits : visits.Perm s.serverInfo.index.keys)
    (hfits : ∀ key c, s.serverInfo.entry key = some c → FitsRoute c) :
    ((∀ key c, s.serverInfo.entry key = some c → Harmless c) → Survives s visits) ∧
      ((∀ key c, s.serverInfo.entry key = some c → c.port ≠ 0) → Survives s visits →
        ∀ key c, s.serverInfo.entry key = some c → Harmless c) := by
  simp only [← forall_cachedServers hvisits] at hfits ⊢
  exact ⟨survives_of_harmless hfits, harmless_of_survives hfits⟩

/-- A cache with one server. -/
def oneServer (c : MetadataChunkserver) : ServerTables := ⟨[], (PtrMap.empty {}).store c.key c⟩

theorem entry_oneServer {c d : MetadataChunkserver} {key : String}
    (h : (oneServer d).serverInfo.entry key = some c) : c = d := by
  rw [oneServer, PtrMap.entry_store] at h
  split at h
  · exact (Option.some.inj h).symm
  · cases h

def padded : MetadataChunkserver :=
  { groupId := 1, ip := "10.0.0.1", port := 7654, status := 1, dataDir := "/data%20d" }

/-- A directive that ends in the data directory does no harm. -/
theorem routeTable_survives_padded : Survives (oneServer padded) [padded.key] := by
  have hfits : FitsRoute padded := by
    constructor <;> exact ⟨by decide, by decide⟩
  have hdataDir : PrintsAs padded.dataDir.toList "/data%!d(MISSING)".toList :=
    .char (by decide) <| .char (by decide) <| .char (by decide) <| .char (by decide) <|
      .char (by decide) <| .directive rfl rfl .nil
  have hall : ∀ key c, (oneServer padded).serverInfo.entry key = some c →
      FitsRoute c ∧ Harmless c := by
    intro key c hentry
    rw [entry_oneServer hentry]
    exact ⟨hfits, by decide, _, hdataDir⟩
  exact (routeTable_survives_iff (.refl _) fun key c h => (hall key c h).1).1
    fun key c h => (hall key c h).2

def zoned : MetadataChunkserver :=
  { groupId := 1, ip := "fe80::1%eth0", port := 7654, status := 1, dataDir := "/data" }

/-- The zone of an address is taken for a directive. -/
theorem routeTable_changes_zone :
    (∃ infos, getChunkServerInfo (routeBody (oneServer zoned) [zoned.key]) = .ok infos ∧
      infos.lookup "1" = some [.of { zoned with ip := "fe80::1%!e(MISSING)th0" }]) ∧
    ¬ Survives (oneServer zoned) [zoned.key] := by
  have harrives : (getChunkServerInfo (routeBody (oneServer zoned) [zoned.key])).toOption.bind
      (·.lookup "1") = some [.of { zoned with ip := "fe80::1%!e(MISSING)th0" }] := by
    decide +kernel
  have hsent : ((cachedServers (oneServer zoned) [zoned.key]).filter fun c =>
      toString c.groupId.toNat = "1").map ChunkServerInfo.of = [.of zoned] := by
    decide +kernel
  cases hread : getChunkServerInfo (routeBody (oneServer zoned) [zoned.key]) with
  | error err =>
    rw [hread] at harrives
    cases harrives
  | ok infos =>
    rw [hread] at harrives
    have hlookup : infos.lookup "1" = _ := harrives
    refine ⟨⟨infos, rfl, hlookup⟩, fun hsurvives => ?_⟩
    obtain ⟨infos', hread', hinfos⟩ := hsurvives
    obtain rfl : infos = infos' := Except.ok.inj (hread.symm.trans hread')
    have hgroup := hinfos "1"
    rw [hlookup, hsent] at hgroup
    exact absurd hgroup (by decide)

end Exact

end Speedy.Cluster
