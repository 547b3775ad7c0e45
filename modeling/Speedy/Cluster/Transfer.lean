import Speedy.Chunkmaster.GlobalStatus
import Speedy.Imageserver.GroupSelection

/-! # Groups under transfer and the choice of a group

The imageserver chooses a group from the routing table of the chunkmaster and leaves out
those with a global status. -/
namespace Speedy.Cluster
open Speedy.Lib Speedy.Chunkmaster
open Speedy.Imageserver (ChunkServer GroupMap selectChunkServerGroupComplex)

/-- A number that is decoded into an `int8`; the error is the field it does not fit. -/
def decodeInt8 (field : String) (v : Int) : Except String Int :=
  if -128 ≤ v ∧ v ≤ 127 then .ok v else .error field

/-- A server of the table as `GetChunkServerInfo` decodes it; the fields that are left out
of the JSON are those that are zero. -/
def decodeServer (c : MetadataChunkserver) : Except String ChunkServer := do
  let status ← decodeInt8 "Status" c.status
  let globalStatus ← decodeInt8 "GlobalStatus" c.globalStatus
  return { groupId := c.groupId.toNat, ip := c.ip, port := c.port, status, globalStatus,
           maxFreeSpace := c.maxFreeSpace, pendingWrites := c.pendingWrites,
           writingCount := c.writingCount }

def decodeTable (table : RouteTable) : Except String (List (String × List ChunkServer)) :=
  table.entries.mapM fun e => do return (e.1, ← e.2.mapM decodeServer)

/-- The imageserver gets this table. -/
def Received (s : ServerTables) (groups : GroupMap) : Prop :=
  ∃ visits entries, visits.Perm s.serverInfo.index.keys ∧
    decodeTable (chunkmasterRouteHandler s visits) = .ok entries ∧ groups.entries.Perm entries

/-- The server of this entry of the cache. -/
def Describes (s : ServerTables) (key : String) (cs : ChunkServer) : Prop :=
  ∃ c, s.serverInfo.entry key = some c ∧ decodeServer c = .ok cs

section Received
variable {s : ServerTables} {groups : GroupMap}

theorem decodeServer_globalStatus {c : MetadataChunkserver} {cs : ChunkServer}
    (h : decodeServer c = .ok cs) : cs.globalStatus = c.globalStatus := by
  unfold decodeServer at h
  obtain ⟨_, -, h⟩ := bind_eq_ok h
  obtain ⟨globalStatus, hglobal, h⟩ := bind_eq_ok h
  cases h
  unfold decodeInt8 at hglobal
  split at hglobal
  · exact (Except.ok.inj hglobal).symm
  · cases hglobal

theorem Received.describes (h : Received s groups) {id : String} {servers : List ChunkServer}
    (hgroup : (id, servers) ∈ groups.entries) {cs : ChunkServer} (hcs : cs ∈ servers) :
    ∃ key, Describes s key cs := by
  obtain ⟨visits, entries, -, hdecode, hperm⟩ := h
  obtain ⟨e, he, hgroup⟩ := exists_of_mem_mapM hdecode (hperm.mem_iff.mp hgroup)
  obtain ⟨list, hlist, hpair⟩ := bind_eq_ok hgroup
  cases hpair
  obtain ⟨c, hc, hcs⟩ := exists_of_mem_mapM hlist hcs
  have hlookup : (chunkmasterRouteHandler s visits).lookup e.1 = some e.2 :=
    AList.mem_lookup_iff.mpr he
  have hfilter := lookup_foldl_addToGroup (visits.filterMap s.serverInfo.entry) e.1
  rw [chunkmasterRouteHandler] at hlookup
  rw [hlookup, Option.getD_some] at hfilter
  rw [hfilter] at hc
  obtain ⟨key, -, hentry⟩ := List.mem_filterMap.mp (List.mem_filter.mp hc).1
  exact ⟨key, c, hentry, hcs⟩

/-- The first server of a group that is chosen has no global status in the cache. -/
theorem selected_describes (h : Received s groups) {limitNum size : Int} {rand : Nat}
    {servers : List ChunkServer}
    (hselect : selectChunkServerGroupComplex limitNum groups rand size = .ok servers) :
    ∃ key cs, servers.head? = some cs ∧ Describes s key cs ∧
      ∃ c, s.serverInfo.entry key = some c ∧ c.globalStatus = 0 := by
  obtain ⟨⟨id, hgroup⟩, helig⟩ :=
    Imageserver.selectChunkServerGroupComplex_eligible hselect
  obtain ⟨cs, rest, rfl, hzero⟩ := helig.normal
  obtain ⟨key, c, hentry, hdecode⟩ := h.describes hgroup List.mem_cons_self
  refine ⟨key, cs, rfl, ⟨c, hentry, hdecode⟩, c, hentry, ?_⟩
  rw [← decodeServer_globalStatus hdecode]
  exact hzero

end Received

/-- In a run in which no operation loses a global status the cache has in every state the
ones that were loaded, and a group that is chosen begins with a server that was loaded
without one. In each of these states an operation keeps that exactly when it loses none. -/
theorem transferred_groups_stay_excluded {w : Watched}
    (h : WatchedRun (fun s op => ¬ op.Loses s) w) :
    (∀ key c, w.tables.serverInfo.entry key = some c → c.globalStatus = w.loaded key) ∧
    (∀ groups, Received w.tables groups → ∀ limitNum rand size servers,
      selectChunkServerGroupComplex limitNum groups rand size = .ok servers →
      ∃ key cs, servers.head? = some cs ∧ Describes w.tables key cs ∧ w.loaded key = 0) ∧
    ∀ op, (w.step op).Tracks ↔ ¬ op.Loses w.tables := by
  have htracks := h.tracks
  refine ⟨htracks, ?_, htracks.step_iff⟩
  intro groups hreceived limitNum rand size servers hselect
  obtain ⟨key, cs, hhead, hdescribes, c, hentry, hzero⟩ := selected_describes hreceived hselect
  refine ⟨key, cs, hhead, hdescribes, ?_⟩
  rw [← htracks key c hentry, hzero]

/-! ## Two servers, one of them under transfer -/

def normalRow : MetadataChunkserver :=
  { groupId := 1, ip := "10.0.0.1", port := 8000, status := 1, maxFreeSpace := 1000 }

def transferRow : MetadataChunkserver :=
  { groupId := 2, ip := "10.0.0.2", port := 8000, status := 1, globalStatus := 8,
    maxFreeSpace := 1000 }

/-- The report of a server with as much space. -/
def reportOf (c : MetadataChunkserver) : JsonMap :=
  [("Ip", .string c.ip), ("Port", .float64 c.port), ("GroupId", .float64 c.groupId.toNat),
    ("MaxFreeSpace", .float64 1000), ("TotalFreeSpace", .float64 1000),
    ("PendingWrites", .float64 0), ("WritingCount", .float64 0), ("DataDir", .string "/data"),
    ("ReadingCount", .float64 0), ("TotalChunks", .float64 1), ("ConnectionsCount", .float64 0)]

/-- These rows are loaded, then a report about a server arrives. -/
def afterReportOf (rows : List MetadataChunkserver) (c : MetadataChunkserver) : Watched :=
  (Watched.start rows rows.length 0).step (.report (some (reportOf c)) true 5)

theorem afterReportOf_run {ok : ServerTables → MasterOp → Prop} {rows : List MetadataChunkserver}
    {c : MetadataChunkserver} (h : ok (Watched.start rows rows.length 0).tables
      (.report (some (reportOf c)) true 5)) : WatchedRun ok (afterReportOf rows c) :=
  .next (e := .report (some (reportOf c)) true 5) (.init ⟨_, _, _, rfl⟩) ⟨trivial, h, rfl⟩

def normalServer : ChunkServer := ⟨1, "10.0.0.1", 8000, 1, 0, 1000, 0, 0⟩

def transferServer (globalStatus : Int) : ChunkServer :=
  ⟨2, "10.0.0.2", 8000, 1, globalStatus, 1000, 0, 0⟩

def bothGroups : GroupMap := ⟨[("1", [normalServer]), ("2", [transferServer 8])], by decide⟩

def transferGroup : GroupMap := ⟨[("2", [transferServer 0])], by decide⟩

theorem normal_report_run :
    WatchedRun (fun s op => ¬ op.Loses s) (afterReportOf [normalRow, transferRow] normalRow) := by
  refine afterReportOf_run ?_
  rintro ⟨old, hold, hne⟩
  have hnormal : (Watched.start [normalRow, transferRow] 2 0).tables.Replaces
      (some (reportOf normalRow)) true normalRow := ⟨_, _, rfl, rfl, rfl, .inl rfl⟩
  exact hne (congrArg MetadataChunkserver.globalStatus (hold.unique hnormal))

theorem bothGroups_received :
    Received (afterReportOf [normalRow, transferRow] normalRow).tables bothGroups :=
  ⟨["2:10.0.0.2:8000", "1:10.0.0.1:8000"], bothGroups.entries, by decide, rfl, .refl _⟩

/-- After a report about the other server the group under transfer is not chosen. -/
theorem transfer_stays_excluded :
    (afterReportOf [normalRow, transferRow] normalRow).loaded "2:10.0.0.2:8000" = 8 ∧
    selectChunkServerGroupComplex 1 bothGroups 0 100 = .ok [normalServer] ∧
    ∃ key cs, [normalServer].head? = some cs ∧
      Describes (afterReportOf [normalRow, transferRow] normalRow).tables key cs ∧
      (afterReportOf [normalRow, transferRow] normalRow).loaded key = 0 := by
  have hselect : selectChunkServerGroupComplex 1 bothGroups 0 100 = .ok [normalServer] := rfl
  exact ⟨rfl, hselect, (transferred_groups_stay_excluded normal_report_run).2.1 _
    bothGroups_received 1 0 100 _ hselect⟩

theorem transferGroup_received :
    Received (afterReportOf [transferRow] transferRow).tables transferGroup :=
  ⟨["2:10.0.0.2:8000"], transferGroup.entries, by decide, rfl, .refl _⟩

/-- After a report about the server under transfer its group is chosen. -/
theorem reported_transfer_is_chosen :
    WatchedRun (fun _ _ => True) (afterReportOf [transferRow] transferRow) ∧
    (afterReportOf [transferRow] transferRow).loaded "2:10.0.0.2:8000" = 8 ∧
    ((afterReportOf [transferRow] transferRow).tables.serverInfo.entry "2:10.0.0.2:8000").map
      MetadataChunkserver.globalStatus = some 0 ∧
    Received (afterReportOf [transferRow] transferRow).tables transferGroup ∧
    selectChunkServerGroupComplex 1 transferGroup 0 100 = .ok [transferServer 0] :=
  ⟨afterReportOf_run trivial, rfl, rfl, transferGroup_received, rfl⟩

end Speedy.Cluster
