import Speedy.Lib.Except

/-! # The records of the chunkmaster

`metadata.Chunkserver`, and `GenChunkserver`, which makes one out of the decoded JSON of a
report. Every field of a report is checked by one of the `CheckMap` functions, which differ
in the Go type they ask for. -/
namespace Speedy.Chunkmaster
open Speedy.Lib

/-- `metadata.Chunkserver`, without the identifier of the row. Times are in nanoseconds. -/
structure MetadataChunkserver where
  groupId : UInt16 := 0
  ip : String := ""
  port : Int := 0
  status : Int := 0
  globalStatus : Int := 0
  totalFreeSpace : Int := 0
  maxFreeSpace : Int := 0
  pendingWrites : Int := 0
  writingCount : Int := 0
  readingCount : UInt32 := 0
  totalChunks : UInt32 := 0
  connectionsCount : UInt32 := 0
  dataDir : String := ""
  updateTime : Int := 0
  deriving DecidableEq, Repr

/-- `fmt.Sprintf("%d:%s:%d", GroupId, Ip, Port)` -/
def MetadataChunkserver.key (c : MetadataChunkserver) : String :=
  toString c.groupId.toNat ++ ":" ++ c.ip ++ ":" ++ toString c.port

/-! ## Decoded JSON -/

/-- A value of a `map[string]interface{}`. Of a number only the integral part is used. -/
inductive JsonValue where
  | string (v : String)
  | float64 (integral : Int)
  | other
  deriving DecidableEq, Repr

abbrev JsonMap := List (String × JsonValue)

def JsonValue.asString : JsonValue → Option String
  | .string v => some v
  | _ => none

def JsonValue.asFloat64 : JsonValue → Option Int
  | .float64 v => some v
  | _ => none

/-- `int64(v)`, and `int(v)`: out of range it is the smallest number, as on amd64. -/
def floatToInt64 (v : Int) : Int :=
  if -9223372036854775808 ≤ v ∧ v < 9223372036854775808 then v else -9223372036854775808

/-- `uint32(v)`, by way of `int64` -/
def floatToUint32 (v : Int) : UInt32 := UInt32.ofInt (floatToInt64 v)

/-- `uint16(v)`, by way of `int32` -/
def floatToUint16 (v : Int) : UInt16 :=
  UInt16.ofInt (if -2147483648 ≤ v ∧ v < 2147483648 then v else -2147483648)

section CheckMap
variable {α : Type}

/-- The `CheckMap` functions: `as` is the type assertion with the conversion behind it. -/
def checkMap (as : JsonValue → Option α) (type : String) (m : JsonMap) (key : String) :
    Except String α :=
  match m.lookup key with
  | none => .error (key ++ " is nil")
  | some v =>
    match as v with
    | some x => .ok x
    | none => .error (key ++ " is not " ++ type ++ " type")

theorem checkMap_error {as : JsonValue → Option α} {type : String} {m : JsonMap} {key e : String}
    (h : checkMap as type m key = .error e) :
    e = key ++ " is nil" ∨ e = key ++ " is not " ++ type ++ " type" := by
  unfold checkMap at h
  split at h
  · exact .inl (Except.error.inj h).symm
  · split at h
    · cases h
    · exact .inr (Except.error.inj h).symm

def checkMapString : JsonMap → String → Except String String := checkMap JsonValue.asString "string"

def checkMapInt64 : JsonMap → String → Except String Int :=
  checkMap (fun v => v.asFloat64.map floatToInt64) "int64"

def checkMapInt : JsonMap → String → Except String Int :=
  checkMap (fun v => v.asFloat64.map floatToInt64) "int"

def checkMapUInt16 : JsonMap → String → Except String UInt16 :=
  checkMap (fun v => v.asFloat64.map floatToUint16) "uint16"

def checkMapUInt32 : JsonMap → String → Except String UInt32 :=
  checkMap (fun v => v.asFloat64.map floatToUint32) "uint32"

end CheckMap

/-- The record of a report. It has neither of the two statuses, whatever the report says. -/
def genChunkserver (jsonMap : JsonMap) : Except String MetadataChunkserver := do
  let ip ← checkMapString jsonMap "Ip"
  let port ← checkMapInt jsonMap "Port"
  let groupId ← checkMapUInt16 jsonMap "GroupId"
  let maxFreeSpace ← checkMapInt64 jsonMap "MaxFreeSpace"
  let totalFreeSpace ← checkMapInt64 jsonMap "TotalFreeSpace"
  let pendingWrites ← checkMapInt jsonMap "PendingWrites"
  let writingCount ← checkMapInt jsonMap "WritingCount"
  let dataDir ← checkMapString jsonMap "DataDir"
  let readingCount ← checkMapUInt32 jsonMap "ReadingCount"
  let totalChunks ← checkMapUInt32 jsonMap "TotalChunks"
  let connectionsCount ← checkMapUInt32 jsonMap "ConnectionsCount"
  return { ip, port, groupId, maxFreeSpace, totalFreeSpace, pendingWrites, writingCount, dataDir,
           readingCount, totalChunks, connectionsCount }

/-- What a report must have. -/
def reportFields : List (String × String) :=
  [("Ip", "string"), ("Port", "int"), ("GroupId", "uint16"), ("MaxFreeSpace", "int64"),
    ("TotalFreeSpace", "int64"), ("PendingWrites", "int"), ("WritingCount", "int"),
    ("DataDir", "string"), ("ReadingCount", "uint32"), ("TotalChunks", "uint32"),
    ("ConnectionsCount", "uint32")]

/-- The error of a report names a field, and the type it should have. -/
theorem genChunkserver_error {jsonMap : JsonMap} {e : String}
    (h : genChunkserver jsonMap = .error e) : ∃ field ∈ reportFields,
    e = field.1 ++ " is nil" ∨ e = field.1 ++ " is not " ++ field.2 ++ " type" := by
  unfold genChunkserver at h
  iterate 11
    rcases bind_eq_error h with h | ⟨_, -, h⟩
    · exact ⟨(_, _), by decide, checkMap_error h⟩
  cases h

theorem genChunkserver_statuses {jsonMap : JsonMap} {c : MetadataChunkserver}
    (h : genChunkserver jsonMap = .ok c) : c.status = 0 ∧ c.globalStatus = 0 := by
  unfold genChunkserver at h
  iterate 11 obtain ⟨_, -, h⟩ := bind_eq_ok h
  cases h
  exact ⟨rfl, rfl⟩

end Speedy.Chunkmaster
