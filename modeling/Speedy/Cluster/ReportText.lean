import Speedy.Cluster.Route
import Speedy.Chunkserver.Report
import Speedy.Lib.Float

/-! # The text of a report

`spy_report_routine` prints `report_info` by `json_data`, and the master makes a record of
what it decodes. -/
namespace Speedy.Cluster
open Speedy.Lib Speedy.Chunkmaster Speedy.Chunkserver

/-- What a report has from `config` -/
structure AgentConfig where
  serverId : Int
  bindAddr : String
  port : Int
  dataDir : String

/-- The members of `json_data` behind the first, with the values printed into them -/
def reportMembers (c : AgentConfig) (values : Infos) : List (Bool × List Char × Json) :=
  [(false, "Ip".toList, .string c.bindAddr.toList), (false, "Port".toList, numberJson c.port),
    (true, "Status".toList, numberJson (values .status)),
    (false, "TotalFreeSpace".toList, numberJson (values .totalFreeSpace)),
    (false, "MaxFreeSpace".toList, numberJson (values .maxFreeSpace)),
    (true, "PendingWrites".toList, numberJson (values .pendingWrites)),
    (true, "WritingCount".toList, numberJson (values .writingCount)),
    (true, "ReadingCount".toList, numberJson (values .readingCount)),
    (true, "DataDir".toList, .string c.dataDir.toList),
    (false, "TotalChunks".toList, numberJson (values .nChunks)),
    (false, "ConnectionsCount".toList, numberJson (values .connCount))]

/-- The `snprintf` for `json_data`; the strings are printed as they are. -/
def jsonContent (c : AgentConfig) (values : Infos) : List Char :=
  '{' :: (printMember (true, "GroupId".toList, numberJson c.serverId) ++
    printMembers (reportMembers c values))

/-- A value of a `map[string]interface{}`. Of the numbers only whole ones are decoded. -/
def decodeValue : Json → JsonValue
  | .string s => .string (String.ofList s)
  | .number literal =>
    (parseInt literal).elim .other fun p => .float64 (p.sign * roundBits 53 p.natAbs)
  | _ => .other

/-- The last one of several members of one name counts. -/
def unmarshalMap : Json → Option JsonMap
  | .null => some []
  | .object ms => some (ms.reverse.map fun m => (String.ofList m.1, decodeValue m.2))
  | _ => none

/-- The record of a report, without statuses -/
def reportedServer (c : AgentConfig) (values : Infos) : MetadataChunkserver where
  groupId := .ofInt c.serverId
  ip := c.bindAddr
  port := c.port
  totalFreeSpace := values .totalFreeSpace
  maxFreeSpace := values .maxFreeSpace
  pendingWrites := values .pendingWrites
  writingCount := values .writingCount
  readingCount := .ofInt (values .readingCount)
  totalChunks := .ofInt (values .nChunks)
  connectionsCount := .ofInt (values .connCount)
  dataDir := c.dataDir

section Decode
variable {c : AgentConfig} {values : Infos} {p : Int}

theorem plain_string {key s : String} (h : escape key.toList = key.toList) (blank : Bool)
    (hs : escape s.toList = s.toList) : Plain (blank, key.toList, .string s.toList) :=
  ⟨.string _, h, by simp only [printValue, Json.encode, hs]⟩

theorem decodeValue_number (h : p.natAbs ≤ 2 ^ 53) : decodeValue (numberJson p) = .float64 p := by
  have hround := roundBits_of_mantissa (p := 53) (e := 0) (by decide) h
  rw [Nat.pow_zero, Nat.mul_one] at hround
  simp only [decodeValue, numberJson, parseInt_toString, Option.elim, hround, Int.sign_mul_natAbs]

theorem floatToInt64_of_le (h : p.natAbs ≤ 2 ^ 53) : floatToInt64 p = p :=
  if_pos ⟨by omega, by omega⟩

/-- What the master makes of a report is what the server has printed, as long as the texts have
nothing to escape and a `float64` holds the numbers. -/
theorem reports_are_understood (hserver : FitsInt 32 c.serverId) (hport : FitsInt 32 c.port)
    (hip : escape c.bindAddr.toList = c.bindAddr.toList)
    (hdir : escape c.dataDir.toList = c.dataDir.toList) (hvalues : ∀ f, values f ≤ 2 ^ 53) :
    ((Json.parse (jsonContent c values)).bind unmarshalMap).map genChunkserver =
      some (.ok (reportedServer c values)) := by
  have hv : ∀ f, (values f : Int).natAbs ≤ 2 ^ 53 := hvalues
  have hs : c.serverId.natAbs ≤ 2 ^ 53 := by obtain ⟨h, h'⟩ := hserver; omega
  have hp : c.port.natAbs ≤ 2 ^ 53 := by obtain ⟨h, h'⟩ := hport; omega
  have hplain : ∀ m ∈ (true, "GroupId".toList, numberJson c.serverId) :: reportMembers c values,
      Plain m := by
    simp only [reportMembers, List.forall_mem_cons]
    refine ⟨?_, plain_string rfl _ hip, ?_, ?_, ?_, ?_, ?_, ?_, ?_, plain_string rfl _ hdir, ?_, ?_,
      nofun⟩ <;> exact ⟨Json.valid_number _, rfl, rfl⟩
  have hn := fun f => decodeValue_number (hv f)
  have hi := fun f => floatToInt64_of_le (hv f)
  have hgroup : floatToUint16 c.serverId = .ofInt c.serverId :=
    congrArg UInt16.ofInt (if_pos hserver)
  rw [jsonContent, Json.parse_print hplain]
  simp [reportMembers, unmarshalMap, hn, decodeValue_number hs, decodeValue_number hp,
    decodeValue.eq_1, genChunkserver, checkMapString, checkMapInt, checkMapUInt16, checkMapInt64,
    checkMapUInt32, checkMap, JsonValue.asFloat64, JsonValue.asString, List.lookup_cons,
    floatToUint32, floatToInt64_of_le hp, hi, hgroup]
  rfl

theorem reports_are_understood_local : ∃ server,
    ((Json.parse (jsonContent ⟨1, "127.0.0.1", 5444, "/data"⟩ fun _ => 7)).bind unmarshalMap).map
      genChunkserver = some (.ok server) ∧ server.key = "1:127.0.0.1:5444" :=
  ⟨_, reports_are_understood ⟨by decide, by decide⟩ ⟨by decide, by decide⟩ rfl rfl
    fun _ => by decide, by decide⟩

end Decode
end Speedy.Cluster
