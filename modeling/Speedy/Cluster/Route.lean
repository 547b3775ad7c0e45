import Speedy.Chunkmaster.Handlers
import Speedy.Imageserver.GroupSelection
import Speedy.Lib.FormatJson
import Mathlib.Data.String.Basic
import Mathlib.Data.List.Sort
import Mathlib.Algebra.Ring.Int.Defs

/-! # The transport of the routing table

The chunkmaster writes the routing table as JSON, and the text gets to `fmt.Fprintf` as its
format. The imageserver decodes what arrives into a record with fewer fields and narrower
types. Texts are lists of characters; the strings in the cache have been decoded from JSON
or come from the database, so that they are texts. -/
namespace Speedy.Cluster
open Speedy.Lib Speedy.Chunkmaster
open Speedy.Imageserver (ChunkServer)

/-! ## Sending -/

def numberJson (n : Int) : Json := .number (toString n).toList

/-- A field with `omitempty`. -/
def omitEmpty (name : String) (n : Int) : List (List Char × Json) :=
  if n = 0 then [] else [(name.toList, numberJson n)]

/-- The fields of a `metadata.Chunkserver` between `Port` and `DataDir`. -/
def marshalCounters (c : MetadataChunkserver) : List (List Char × Json) :=
  omitEmpty "Status" c.status ++ omitEmpty "GlobalStatus" c.globalStatus ++
  omitEmpty "TotalFreeSpace" c.totalFreeSpace ++ omitEmpty "MaxFreeSpace" c.maxFreeSpace ++
  omitEmpty "PendingWrites" c.pendingWrites ++ omitEmpty "WritingCount" c.writingCount ++
  omitEmpty "ReadingCount" c.readingCount.toNat ++ omitEmpty "TotalChunks" c.totalChunks.toNat ++
  omitEmpty "ConnectionsCount" c.connectionsCount.toNat

/-- The fields before `DataDir`. -/
def marshalFields (c : MetadataChunkserver) : List (List Char × Json) :=
  ("GroupId".toList, numberJson c.groupId.toNat) :: ("Ip".toList, .string c.ip.toList) ::
    ("Port".toList, numberJson c.port) :: marshalCounters c

def marshalChunkserver (c : MetadataChunkserver) : Json :=
  .object (marshalFields c ++
    if c.dataDir = "" then [] else [("DataDir".toList, .string c.dataDir.toList)])

/-- The keys of a map are sorted. -/
def sortedEntries (table : RouteTable) : List (String × List MetadataChunkserver) :=
  (table.entries.map fun e => (e.1, e.2)).insertionSort fun x y => x.1 ≤ y.1

/-- `json.Marshal` -/
def marshalTable (table : RouteTable) : Json :=
  .object ((sortedEntries table).map fun e =>
    (e.1.toList, .array (e.2.map marshalChunkserver)))

/-- `util.Response` -/
def response (data : List Char) : List Char := fprintf data

/-- What `chunkmasterRouteHandler` writes. -/
def routeBody (s : ServerTables) (visits : List String) : List Char :=
  response (marshalTable (chunkmasterRouteHandler s visits)).encode

/-! ## Decoding -/

/-- `chunkserver.ChunkServer`, with the field that the choice of a group does not read. -/
structure ChunkServerInfo extends ChunkServer where
  totalFreeSpace : Int
  deriving DecidableEq, Repr

def ChunkServerInfo.zero : ChunkServerInfo := ⟨⟨0, "", 0, 0, 0, 0, 0, 0⟩, 0⟩

inductive RouteField where
  | groupId
  | ip
  | port
  | status
  | globalStatus
  | totalFreeSpace
  | maxFreeSpace
  | pendingWrites
  | writingCount
  deriving DecidableEq, Repr

def RouteField.name : RouteField → String
  | groupId => "GroupId"
  | ip => "Ip"
  | port => "Port"
  | status => "Status"
  | globalStatus => "GlobalStatus"
  | totalFreeSpace => "TotalFreeSpace"
  | maxFreeSpace => "MaxFreeSpace"
  | pendingWrites => "PendingWrites"
  | writingCount => "WritingCount"

def RouteField.all : List RouteField :=
  [groupId, ip, port, status, globalStatus, totalFreeSpace, maxFreeSpace, pendingWrites,
    writingCount]

/-- Names are compared without regard to case. -/
def foldChar (c : Char) : Char :=
  if c = '\u017f' then 's' else if c = '\u212a' then 'k' else c.toLower

def fieldOf (key : List Char) : Option RouteField :=
  RouteField.all.find? fun f => f.name.toList.map foldChar = key.map foldChar

/-- A number of so many bits; `null` leaves what was there. -/
def decodeInt (bits : Nat) (old : Int) : Json → Option Int
  | .null => some old
  | .number literal => (parseInt literal).filter fun n => -2 ^ (bits - 1) ≤ n ∧ n < 2 ^ (bits - 1)
  | _ => none

def decodeString (old : String) : Json → Option String
  | .null => some old
  | .string s => some (String.ofList s)
  | _ => none

def RouteField.decode (f : RouteField) (c : ChunkServerInfo) (v : Json) : Option ChunkServerInfo :=
  match f with
  | groupId => (decodeInt 32 c.groupId v).map fun n => { c with groupId := n }
  | ip => (decodeString c.ip v).map fun s => { c with ip := s }
  | port => (decodeInt 64 c.port v).map fun n => { c with port := n }
  | status => (decodeInt 8 c.status v).map fun n => { c with status := n }
  | globalStatus => (decodeInt 8 c.globalStatus v).map fun n => { c with globalStatus := n }
  | totalFreeSpace => (decodeInt 64 c.totalFreeSpace v).map fun n => { c with totalFreeSpace := n }
  | maxFreeSpace => (decodeInt 64 c.maxFreeSpace v).map fun n => { c with maxFreeSpace := n }
  | pendingWrites => (decodeInt 64 c.pendingWrites v).map fun n => { c with pendingWrites := n }
  | writingCount => (decodeInt 64 c.writingCount v).map fun n => { c with writingCount := n }

/-- A member of an object; one that is not known is skipped. -/
def decodeMember (c : ChunkServerInfo) (m : List Char × Json) : Option ChunkServerInfo :=
  match fieldOf m.1 with
  | none => some c
  | some f => f.decode c m.2

def unmarshalServer : Json → Option ChunkServerInfo
  | .null => some .zero
  | .object members => members.foldlM decodeMember .zero
  | _ => none

def unmarshalServers : Json → Option (List ChunkServerInfo)
  | .null => some []
  | .array vs => vs.mapM unmarshalServer
  | _ => none

/-- The map `infos` -/
abbrev RouteInfos := AList fun _ : String => List ChunkServerInfo

def unmarshalGroup (infos : RouteInfos) (m : List Char × Json) : Option RouteInfos :=
  (unmarshalServers m.2).map (infos.insert (String.ofList m.1))

def unmarshalGroups : Json → Option RouteInfos
  | .null => some ∅
  | .object members => members.foldlM unmarshalGroup ∅
  | _ => none

inductive UnmarshalError where
  | malformed
  | mismatch
  deriving DecidableEq, Repr

/-- The decoding of `GetChunkServerInfo`, when the status was 200. -/
def getChunkServerInfo (byteData : List Char) : Except UnmarshalError RouteInfos :=
  match Json.parse byteData with
  | none => .error .malformed
  | some v =>
    match unmarshalGroups v with
    | none => .error .mismatch
    | some infos => .ok infos

/-! ## What arrives -/

/-- The servers of the cache in the order of the visits. -/
def cachedServers (s : ServerTables) (visits : List String) : List MetadataChunkserver :=
  visits.filterMap s.serverInfo.entry

/-- A server as the imageserver should know it. -/
def ChunkServerInfo.of (c : MetadataChunkserver) : ChunkServerInfo :=
  { groupId := c.groupId.toNat, ip := c.ip, port := c.port, status := c.status,
    globalStatus := c.globalStatus, maxFreeSpace := c.maxFreeSpace,
    pendingWrites := c.pendingWrites, writingCount := c.writingCount,
    totalFreeSpace := c.totalFreeSpace }

/-- Each server is found once, under its group and with its values. -/
def Survives (s : ServerTables) (visits : List String) : Prop :=
  ∃ infos, getChunkServerInfo (routeBody s visits) = .ok infos ∧
    ∀ id, (infos.lookup id).getD [] =
      ((cachedServers s visits).filter fun c => toString c.groupId.toNat = id).map
        ChunkServerInfo.of

def FitsInt (bits : Nat) (n : Int) : Prop := -2 ^ (bits - 1) ≤ n ∧ n < 2 ^ (bits - 1)

/-- The values are of the types of the source, and the statuses of those into which they are
decoded. -/
structure FitsRoute (c : MetadataChunkserver) : Prop where
  port : FitsInt 64 c.port
  status : FitsInt 8 c.status
  globalStatus : FitsInt 8 c.globalStatus
  totalFreeSpace : FitsInt 64 c.totalFreeSpace
  maxFreeSpace : FitsInt 64 c.maxFreeSpace
  pendingWrites : FitsInt 64 c.pendingWrites
  writingCount : FitsInt 64 c.writingCount

section Members
variable {c c' : ChunkServerInfo}

theorem decodeInt_number {bits : Nat} {n : Int} (h : FitsInt bits n) (old : Int) :
    decodeInt bits old (numberJson n) = some n := by
  simp only [decodeInt, numberJson, parseInt_toString]
  exact Option.filter_some_pos (decide_eq_true h)

theorem decodeMember_name (f : RouteField) (v : Json) :
    decodeMember c (f.name.toList, v) = f.decode c v := by
  have hfield : fieldOf f.name.toList = some f := by
    cases f <;> rfl
  simp only [decodeMember, hfield]

theorem foldlM_member {f : RouteField} {v : Json} (h : f.decode c v = some c')
    (ms : List (List Char × Json)) :
    ((f.name.toList, v) :: ms).foldlM decodeMember c = ms.foldlM decodeMember c' := by
  rw [List.foldlM_cons, decodeMember_name, h]
  rfl

theorem decodeMember_unknown {key : List Char} (h : fieldOf key = none) (v : Json) :
    decodeMember c (key, v) = some c := by
  simp only [decodeMember, h]

/-- A number that is left out is zero already. -/
theorem foldlM_omitEmpty (f : RouteField) (bits : Nat) (get : ChunkServerInfo → Int)
    (set : ChunkServerInfo → Int → ChunkServerInfo)
    (hdecode : ∀ c v, f.decode c v = (decodeInt bits (get c) v).map (set c)) {n : Int}
    (hn : FitsInt bits n) (hzero : set c 0 = c) :
    (omitEmpty f.name n).foldlM decodeMember c = some (set c n) := by
  unfold omitEmpty
  split
  · rename_i h
    rw [h, hzero]
    rfl
  · refine (foldlM_member ?_ []).trans rfl
    rw [hdecode, decodeInt_number hn, Option.map_some]

theorem foldlM_omitEmpty_unknown {name : String} (h : fieldOf name.toList = none) (n : Int) :
    (omitEmpty name n).foldlM decodeMember c = some c := by
  unfold omitEmpty
  split
  · rfl
  · rw [List.foldlM_cons, decodeMember_unknown h]
    rfl

theorem foldlM_append {ms ms' : List (List Char × Json)} {c'' : ChunkServerInfo}
    (h : ms.foldlM decodeMember c = some c') (h' : ms'.foldlM decodeMember c' = some c'') :
    (ms ++ ms').foldlM decodeMember c = some c'' := by
  rw [List.foldlM_append, h]
  exact h'

theorem foldlM_marshalCounters {c : MetadataChunkserver} (h : FitsRoute c) :
    (marshalCounters c).foldlM decodeMember { ChunkServerInfo.zero with
      groupId := c.groupId.toNat, ip := c.ip, port := c.port } = some (.of c) := by
  refine foldlM_append ?_ (foldlM_omitEmpty_unknown rfl _)
  refine foldlM_append ?_ (foldlM_omitEmpty_unknown rfl _)
  refine foldlM_append ?_ (foldlM_omitEmpty_unknown rfl _)
  have hstatus : (omitEmpty "Status" c.status).foldlM decodeMember { ChunkServerInfo.zero with
      groupId := c.groupId.toNat, ip := c.ip, port := c.port } = _ :=
    foldlM_omitEmpty .status 8 (·.status) (fun c n => { c with status := n }) (fun _ _ => rfl)
      h.status rfl
  have hglobal := foldlM_append hstatus <| foldlM_omitEmpty .globalStatus 8 (·.globalStatus)
    (fun c n => { c with globalStatus := n }) (fun _ _ => rfl) h.globalStatus rfl
  have htotal := foldlM_append hglobal <| foldlM_omitEmpty .totalFreeSpace 64 (·.totalFreeSpace)
    (fun c n => { c with totalFreeSpace := n }) (fun _ _ => rfl) h.totalFreeSpace rfl
  have hmax := foldlM_append htotal <| foldlM_omitEmpty .maxFreeSpace 64 (·.maxFreeSpace)
    (fun c n => { c with maxFreeSpace := n }) (fun _ _ => rfl) h.maxFreeSpace rfl
  have hpending := foldlM_append hmax <| foldlM_omitEmpty .pendingWrites 64 (·.pendingWrites)
    (fun c n => { c with pendingWrites := n }) (fun _ _ => rfl) h.pendingWrites rfl
  exact foldlM_append hpending <| foldlM_omitEmpty .writingCount 64 (·.writingCount)
    (fun c n => { c with writingCount := n }) (fun _ _ => rfl) h.writingCount rfl

theorem foldlM_marshalFields {c : MetadataChunkserver} (h : FitsRoute c) :
    (marshalFields c).foldlM decodeMember .zero = some (.of c) := by
  have hfits : FitsInt 32 c.groupId.toNat := by
    have hlt := c.groupId.toNat_lt
    constructor <;> omega
  have hgroup : RouteField.groupId.decode .zero (numberJson c.groupId.toNat) = _ :=
    congrArg (Option.map _) (decodeInt_number hfits _)
  have hip : RouteField.ip.decode { ChunkServerInfo.zero with groupId := c.groupId.toNat }
      (.string c.ip.toList) = some { ChunkServerInfo.zero with
        groupId := c.groupId.toNat, ip := c.ip } := by
    rw [RouteField.decode, decodeString, String.ofList_toList]
    rfl
  have hport : RouteField.port.decode { ChunkServerInfo.zero with
      groupId := c.groupId.toNat, ip := c.ip } (numberJson c.port) = _ :=
    congrArg (Option.map _) (decodeInt_number h.port _)
  refine (foldlM_member hgroup _).trans ((foldlM_member hip _).trans ?_)
  exact (foldlM_member hport _).trans (foldlM_marshalCounters h)

end Members

section Printed
variable {c : MetadataChunkserver}

def counterNames : List String :=
  ["Status", "GlobalStatus", "TotalFreeSpace", "MaxFreeSpace", "PendingWrites", "WritingCount",
    "ReadingCount", "TotalChunks", "ConnectionsCount"]

theorem mem_omitEmpty {name : String} {n : Int} {m : List Char × Json}
    (h : m ∈ omitEmpty name n) : m = (name.toList, numberJson n) := by
  unfold omitEmpty at h
  split at h
  · cases h
  · exact List.mem_singleton.mp h

/-- Between `Port` and `DataDir` there are numbers only. -/
theorem mem_marshalCounters {m : List Char × Json} (h : m ∈ marshalCounters c) :
    ∃ name ∈ counterNames, ∃ n, m = (name.toList, numberJson n) := by
  have hmem : ∀ {name n}, m ∈ omitEmpty name n → name ∈ counterNames →
      ∃ name ∈ counterNames, ∃ n, m = (name.toList, numberJson n) :=
    fun hm hname => ⟨_, hname, _, mem_omitEmpty hm⟩
  simp only [marshalCounters, List.mem_append] at h
  rcases h with (((((((h | h) | h) | h) | h) | h) | h) | h) | h <;>
    exact hmem h (by simp [counterNames])

/-- A server whose address is another one. -/
def withIp (c : MetadataChunkserver) (ip : List Char) : MetadataChunkserver :=
  { c with ip := String.ofList ip }

theorem marshalFields_withIp (c : MetadataChunkserver) (ip : List Char) :
    marshalFields (withIp c ip) =
      ("GroupId".toList, numberJson c.groupId.toNat) :: ("Ip".toList, .string ip) ::
        ("Port".toList, numberJson c.port) :: marshalCounters c := by
  have hip : (withIp c ip).ip.toList = ip := String.toList_ofList
  rw [marshalFields, hip]
  rfl

/-- A server with what its strings are printed as. -/
def printedServer (c : MetadataChunkserver) (ip dataDir : List Char) : Json :=
  .object (marshalFields (withIp c ip) ++
    if c.dataDir = "" then [] else [("DataDir".toList, .string dataDir)])

theorem numberJson_member {key : List Char} (hkey : '%' ∉ key) (n : Int) :
    MemberPrintsAs (key, numberJson n) (key, numberJson n) :=
  ⟨hkey, rfl, .number (not_mem_toString rfl (by decide) n)⟩

theorem stringJson_member {key s t : List Char} (hkey : '%' ∉ key) (h : PrintsAs s t) :
    MemberPrintsAs (key, .string s) (key, .string t) := ⟨hkey, rfl, .string h⟩

theorem marshalFields_printsAs {ip : List Char} (h : PrintsAs c.ip.toList ip) :
    List.Forall₂ MemberPrintsAs (marshalFields c) (marshalFields (withIp c ip)) := by
  have hcounters : List.Forall₂ MemberPrintsAs (marshalCounters c) (marshalCounters c) := by
    refine List.forall₂_same.mpr fun m hm => ?_
    obtain ⟨name, hname, n, rfl⟩ := mem_marshalCounters hm
    have hpercent : ∀ name ∈ counterNames, '%' ∉ name.toList := by decide
    exact numberJson_member (hpercent name hname) n
  rw [marshalFields_withIp]
  exact .cons (numberJson_member (by decide) _) <| .cons (stringJson_member (by decide) h) <|
    .cons (numberJson_member (by decide) _) hcounters

theorem marshalFields_valid (c : MetadataChunkserver) : ∀ m ∈ marshalFields c, m.2.Valid := by
  refine List.forall_mem_cons.mpr ⟨Json.valid_number _, ?_⟩
  refine List.forall_mem_cons.mpr ⟨.string _, ?_⟩
  refine List.forall_mem_cons.mpr ⟨Json.valid_number _, fun m hm => ?_⟩
  obtain ⟨name, -, n, rfl⟩ := mem_marshalCounters hm
  exact Json.valid_number n

theorem marshalChunkserver_printsAs {ip dataDir : List Char} (hip : PrintsAs c.ip.toList ip)
    (h : PrintsAs c.dataDir.toList dataDir) :
    (marshalChunkserver c).PrintsAs (printedServer c ip dataDir) := by
  refine .object (List.rel_append (marshalFields_printsAs hip) ?_)
  split
  · exact .nil
  · exact .cons (stringJson_member (by decide) h) .nil

theorem printedServer_valid (c : MetadataChunkserver) (ip dataDir : List Char) :
    (printedServer c ip dataDir).Valid := by
  refine .object (List.forall_mem_append.mpr ⟨marshalFields_valid _, ?_⟩)
  split
  · exact fun m hm => absurd hm List.not_mem_nil
  · exact List.forall_mem_singleton.mpr (.string dataDir)

theorem unmarshalServer_printed (h : FitsRoute c) (ip dataDir : List Char) :
    unmarshalServer (printedServer c ip dataDir) = some (.of (withIp c ip)) := by
  have hfits : FitsRoute (withIp c ip) :=
    ⟨h.port, h.status, h.globalStatus, h.totalFreeSpace, h.maxFreeSpace, h.pendingWrites,
      h.writingCount⟩
  refine foldlM_append (foldlM_marshalFields hfits) ?_
  split
  · rfl
  · rw [List.foldlM_cons, decodeMember_unknown rfl]
    rfl

end Printed

section Table
variable {es : List (String × List MetadataChunkserver)}

theorem mapM_map {α β γ : Type} {f : α → β} {g : β → Option γ} {h : α → γ} {l : List α}
    (hl : ∀ x ∈ l, g (f x) = some (h x)) : (l.map f).mapM g = some (l.map h) := by
  induction l with
  | nil => rfl
  | cons x l ih =>
    obtain ⟨hx, hl⟩ := List.forall_mem_cons.mp hl
    rw [List.map_cons, List.mapM_cons, hx, ih hl]
    rfl

/-- The groups that are put into the map one after the other, with the addresses that
arrive. -/
def collect (ip : MetadataChunkserver → List Char) (infos : RouteInfos)
    (es : List (String × List MetadataChunkserver)) : RouteInfos :=
  es.foldl (fun infos e => infos.insert e.1 (e.2.map fun c => .of (withIp c (ip c)))) infos

/-- The groups with what their strings are printed as. -/
def printedGroup (ip dataDir : MetadataChunkserver → List Char)
    (e : String × List MetadataChunkserver) : List Char × Json :=
  (e.1.toList, .array (e.2.map fun c => printedServer c (ip c) (dataDir c)))

variable (ip dataDir : MetadataChunkserver → List Char)

theorem foldlM_unmarshalGroup (h : ∀ e ∈ es, ∀ c ∈ e.2, FitsRoute c) (infos : RouteInfos) :
    (es.map (printedGroup ip dataDir)).foldlM unmarshalGroup infos =
      some (collect ip infos es) := by
  induction es generalizing infos with
  | nil => rfl
  | cons e es ih =>
    obtain ⟨he, hes⟩ := List.forall_mem_cons.mp h
    have hservers : unmarshalServers (printedGroup ip dataDir e).2 =
        some (e.2.map fun c => .of (withIp c (ip c))) :=
      mapM_map fun c hc => unmarshalServer_printed (he c hc) (ip c) (dataDir c)
    rw [List.map_cons, List.foldlM_cons, unmarshalGroup, hservers, printedGroup,
      String.ofList_toList]
    exact ih hes _

theorem lookup_collect_of_not_mem {id : String} (h : id ∉ es.map Prod.fst) (infos : RouteInfos) :
    (collect ip infos es).lookup id = infos.lookup id := by
  induction es generalizing infos with
  | nil => rfl
  | cons e es ih =>
    rw [List.map_cons, List.mem_cons, not_or] at h
    rw [collect, List.foldl_cons, ← collect, ih h.2, AList.lookup_insert_ne h.1]

theorem lookup_collect {id : String} {servers : List MetadataChunkserver}
    (hnodup : (es.map Prod.fst).Nodup) (h : (id, servers) ∈ es) (infos : RouteInfos) :
    (collect ip infos es).lookup id = some (servers.map fun c => .of (withIp c (ip c))) := by
  induction es generalizing infos with
  | nil => cases h
  | cons e es ih =>
    rw [List.map_cons, List.nodup_cons] at hnodup
    rw [collect, List.foldl_cons, ← collect]
    rcases List.mem_cons.mp h with rfl | h
    · rw [lookup_collect_of_not_mem ip hnodup.1, AList.lookup_insert]
    · exact ih hnodup.2 h _

theorem sortedEntries_perm (table : RouteTable) :
    (sortedEntries table).Perm (table.entries.map fun e => (e.1, e.2)) :=
  List.perm_insertionSort _ _

theorem mem_sortedEntries {table : RouteTable} {id : String} {servers : List MetadataChunkserver} :
    (id, servers) ∈ sortedEntries table ↔ table.lookup id = some servers := by
  rw [(sortedEntries_perm table).mem_iff, ← Option.mem_def, AList.mem_lookup_iff, List.mem_map]
  constructor
  · intro h
    obtain ⟨e, he, heq⟩ := h
    cases heq
    exact he
  · exact fun h => ⟨_, h, rfl⟩

theorem nodup_sortedEntries (table : RouteTable) :
    ((sortedEntries table).map Prod.fst).Nodup := by
  rw [((sortedEntries_perm table).map Prod.fst).nodup_iff, List.map_map]
  exact table.keys_nodup

end Table

section Survives
variable {s : ServerTables} {visits : List String}

/-- The strings of a server are harmless: the address is not changed, and the data directory
is changed at most into another one. -/
def Harmless (c : MetadataChunkserver) : Prop :=
  '%' ∉ c.ip.toList ∧ ∃ dataDir, PrintsAs c.dataDir.toList dataDir

/-- The servers of a group of the table are those of the cache. -/
theorem lookup_route (s : ServerTables) (visits : List String) (id : String) :
    ((chunkmasterRouteHandler s visits).lookup id).getD [] =
      (cachedServers s visits).filter fun c => toString c.groupId.toNat = id :=
  lookup_foldl_addToGroup (cachedServers s visits) id

theorem mem_cachedServers {e : String × List MetadataChunkserver}
    (he : e ∈ sortedEntries (chunkmasterRouteHandler s visits)) {c : MetadataChunkserver}
    (hc : c ∈ e.2) : c ∈ cachedServers s visits := by
  have hlookup := lookup_route s visits e.1
  rw [mem_sortedEntries.mp he, Option.getD_some] at hlookup
  rw [hlookup] at hc
  exact (List.mem_filter.mp hc).1

theorem percent_not_mem_group {e : String × List MetadataChunkserver}
    (he : e ∈ sortedEntries (chunkmasterRouteHandler s visits)) : '%' ∉ e.1.toList := by
  have hmem : e.1 ∈ chunkmasterRouteHandler s visits := by
    rw [← AList.lookup_isSome, mem_sortedEntries.mp he]
    rfl
  obtain ⟨c, -, hid⟩ := exists_of_mem_foldl_addToGroup hmem
  rw [← hid]
  exact not_mem_repr rfl _

/-- What arrives when every string is printed within itself. -/
theorem getChunkServerInfo_printed (hfits : ∀ c ∈ cachedServers s visits, FitsRoute c)
    {ip dataDir : MetadataChunkserver → List Char}
    (hip : ∀ c ∈ cachedServers s visits, PrintsAs c.ip.toList (ip c))
    (hdataDir : ∀ c ∈ cachedServers s visits, PrintsAs c.dataDir.toList (dataDir c)) :
    getChunkServerInfo (routeBody s visits) =
      .ok (collect ip ∅ (sortedEntries (chunkmasterRouteHandler s visits))) := by
  have hparse : Json.parse (routeBody s visits) = some (.object
      ((sortedEntries (chunkmasterRouteHandler s visits)).map (printedGroup ip dataDir))) := by
    refine Json.PrintsAs.parse (.object ?_) (.object ?_)
    · rw [List.forall₂_map_left_iff, List.forall₂_map_right_iff, List.forall₂_same]
      refine fun e he => ⟨percent_not_mem_group he, rfl, .array ?_⟩
      rw [List.forall₂_map_left_iff, List.forall₂_map_right_iff, List.forall₂_same]
      exact fun c hc => marshalChunkserver_printsAs (hip c (mem_cachedServers he hc))
        (hdataDir c (mem_cachedServers he hc))
    · intro m hm
      obtain ⟨e, he, rfl⟩ := List.mem_map.mp hm
      refine .array fun v hv => ?_
      obtain ⟨c, hc, rfl⟩ := List.mem_map.mp hv
      exact printedServer_valid c _ _
  have hgroups := foldlM_unmarshalGroup ip dataDir
    (fun e he c hc => hfits c (mem_cachedServers (s := s) (e := e) he hc)) ∅
  simp only [getChunkServerInfo, hparse, unmarshalGroups, hgroups]

theorem lookup_collect_route (s : ServerTables) (visits : List String)
    (ip : MetadataChunkserver → List Char) (id : String) :
    ((collect ip ∅ (sortedEntries (chunkmasterRouteHandler s visits))).lookup id).getD [] =
      ((cachedServers s visits).filter fun c => toString c.groupId.toNat = id).map
        fun c => .of (withIp c (ip c)) := by
  rw [← lookup_route]
  cases hlookup : (chunkmasterRouteHandler s visits).lookup id with
  | none =>
    have hkey : id ∉ (sortedEntries (chunkmasterRouteHandler s visits)).map Prod.fst := by
      intro hmem
      obtain ⟨e, he, rfl⟩ := List.mem_map.mp hmem
      rw [mem_sortedEntries.mp he] at hlookup
      cases hlookup
    rw [lookup_collect_of_not_mem _ hkey]
    rfl
  | some servers =>
    rw [lookup_collect _ (nodup_sortedEntries _) (mem_sortedEntries.mpr hlookup)]
    rfl

theorem survives_of_harmless (hfits : ∀ c ∈ cachedServers s visits, FitsRoute c)
    (h : ∀ c ∈ cachedServers s visits, Harmless c) : Survives s visits := by
  choose! dataDir hdataDir using fun c hc => (h c hc).2
  refine ⟨_, getChunkServerInfo_printed hfits (fun c hc => .refl (h c hc).1) hdataDir, fun id => ?_⟩
  rw [lookup_collect_route]
  refine List.map_congr_left fun c _ => ?_
  rw [withIp, String.ofList_toList]

end Survives

end Speedy.Cluster
