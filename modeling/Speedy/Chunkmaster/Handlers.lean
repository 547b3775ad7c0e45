import Mathlib.Data.List.Induction
import Speedy.Chunkmaster.Records
import Speedy.Lib.PtrMap

/-! # The operations of the chunkmaster, one after the other

The handlers of the chunkmaster and its monitor on whole records: the rows of the
`chunkserver` table and the map `serverInfo` of pointers to records. What the database
answers and the time are given to each operation.

The loop of `batchAddChunkserver` has one variable, and `serverInfo` gets its address for
each server of the list. -/
namespace Speedy.Chunkmaster
open Speedy.Lib

def initStatus : Int := 0
def rwStatus : Int := 1
def roStatus : Int := 2
def errStatus : Int := 3

/-- The rows that are not deleted, and the cache. -/
structure ServerTables where
  rows : List MetadataChunkserver
  serverInfo : PtrMap String MetadataChunkserver

namespace ServerTables

/-! ## The table -/

/-- `group_id = ? AND ip = ? AND port = ? AND status = ?` -/
def matchesRow (c : MetadataChunkserver) (preStatus : Int) (row : MetadataChunkserver) : Bool :=
  row.groupId = c.groupId && row.ip = c.ip && row.port = c.port && row.status = preStatus

/-- `AddChunkserver`; the column `global_status` has its default. -/
def addRow (s : ServerTables) (c : MetadataChunkserver) : ServerTables :=
  { s with rows := s.rows ++ [{ c with globalStatus := 0, updateTime := 0 }] }

def updateRowInfo (s : ServerTables) (c : MetadataChunkserver) (preStatus status : Int) :
    ServerTables :=
  { s with
    rows := s.rows.map fun row =>
      if matchesRow c preStatus row then
        { row with
          totalFreeSpace := c.totalFreeSpace
          maxFreeSpace := c.maxFreeSpace
          pendingWrites := c.pendingWrites
          writingCount := c.writingCount
          dataDir := c.dataDir
          readingCount := c.readingCount
          totalChunks := c.totalChunks
          connectionsCount := c.connectionsCount
          status := status }
      else row }

def updateRowStatus (s : ServerTables) (c : MetadataChunkserver) (preStatus status : Int) :
    ServerTables :=
  { s with
    rows := s.rows.map fun row =>
      if matchesRow c preStatus row then { row with status := status } else row }

/-- `ListChunkserver`: an error, or so many rows. The loop over the rows also ends when the
connection breaks, and `rows.Err` is not looked at. -/
def listChunkserver (s : ServerTables) (read : Option Nat) : Option (List MetadataChunkserver) :=
  read.map fun n => s.rows.take n

/-! ## Loading -/

def loadServer (now : Int) (serverInfoTemp : PtrMap String MetadataChunkserver)
    (server : MetadataChunkserver) : PtrMap String MetadataChunkserver :=
  if server.status = errStatus then serverInfoTemp
  else serverInfoTemp.store server.key { server with updateTime := now }

def loadChunkserverInfo (s : ServerTables) (read : Option Nat) (now : Int) : ServerTables :=
  match s.listChunkserver read with
  | none => s
  | some chunkserverList =>
    { s with serverInfo := chunkserverList.foldl (loadServer now) s.serverInfo.clear }

/-! ## Reports -/

/-- `reportChunkserverInfo`; `updated` is the answer to its statement. `chunkserver` is a
record of its own, so that the status of the old one is the same in all three tests. `none`
is an error. -/
def reportChunkserverInfo (s : ServerTables) (key : String)
    (chunkserver oldChunkserver : MetadataChunkserver) (updated : Bool) (now : Int) :
    Option ServerTables :=
  if oldChunkserver.status = initStatus ∨ oldChunkserver.status = rwStatus ∨
      oldChunkserver.status = roStatus then
    if updated then
      let s := s.updateRowInfo chunkserver oldChunkserver.status rwStatus
      some { s with
        serverInfo := s.serverInfo.store key
          { chunkserver with status := rwStatus, updateTime := now } }
    else none
  else
    some { s with serverInfo := s.serverInfo.store key { chunkserver with updateTime := now } }

/-- The tables and the status code; `body` is `none` when it is not JSON. -/
def reportChunkserverInfoHandler (s : ServerTables) (body : Option JsonMap) (updated : Bool)
    (now : Int) : ServerTables × Nat :=
  match body with
  | none => (s, 400)
  | some jsonMap =>
    match genChunkserver jsonMap with
    | .error _ => (s, 400)
    | .ok chunkserver =>
      match s.serverInfo.entry chunkserver.key with
      | none => (s, 400)
      | some oldChunkserver =>
        match s.reportChunkserverInfo chunkserver.key chunkserver oldChunkserver updated now with
        -- the answer 200 that follows comes too late
        | none => (s, 500)
        | some s => (s, 200)

/-! ## The monitor -/

def updateChunkserverInfo (s : ServerTables) (key : String) (status : Int) : ServerTables :=
  match s.serverInfo.index.lookup key with
  | none => s
  | some p =>
    { s with
      serverInfo := s.serverInfo.write p { s.serverInfo.record p with status := status } }

/-- The test for `serverInfoAbnormal`. -/
def expired (s : ServerTables) (timeoutSecond now : Int) (key : String) : Bool :=
  match s.serverInfo.entry key with
  | none => false
  | some c => c.status = rwStatus && now - c.updateTime > timeoutSecond * 1000000000

/-- The body of the second loop. -/
def monitorServer (updated : String → Bool) (s : ServerTables) (key : String) : ServerTables :=
  match s.serverInfo.entry key with
  | none => s
  | some c =>
    if updated key then
      (s.updateRowStatus c rwStatus roStatus).updateChunkserverInfo key roStatus
    else s

/-- A tick; `visits` are the keys in the order in which they are visited. -/
def chunkserverMonitor (s : ServerTables) (timeoutSecond now : Int) (visits : List String)
    (updated : String → Bool) : ServerTables :=
  (visits.filter (s.expired timeoutSecond now)).foldl (monitorServer updated) s

/-! ## New servers -/

/-- The assignments at the begin of `addChunkserver`. -/
def reset (c : MetadataChunkserver) : MetadataChunkserver :=
  { c with
    status := initStatus
    totalFreeSpace := 0
    maxFreeSpace := 0
    pendingWrites := 0
    writingCount := 0
    dataDir := ""
    readingCount := 0
    totalChunks := 0
    connectionsCount := 0 }

/-- `addChunkserver` for the record at `p`. It returns whether the row was inserted. -/
def addChunkserver (s : ServerTables) (p : Nat) (inserted : Bool) (now : Int) :
    ServerTables × Bool :=
  let chunkserver := reset (s.serverInfo.record p)
  if inserted then
    let s := s.addRow chunkserver
    ({ s with
        serverInfo := (s.serverInfo.write p { chunkserver with updateTime := now }).point
          chunkserver.key p }, true)
  else ({ s with serverInfo := s.serverInfo.write p chunkserver }, false)

/-- The three type assertions of `initChunkserverHandler`; `none` is a panic. -/
def initRecord (jsonMap : JsonMap) : Option MetadataChunkserver := do
  let groupId ← (← jsonMap.lookup "GroupId").asFloat64
  let ip ← (← jsonMap.lookup "Ip").asString
  let port ← (← jsonMap.lookup "Port").asFloat64
  return { groupId := floatToUint16 groupId, ip, port := floatToInt64 port }

/-- After a panic there is no answer. -/
def initChunkserverHandler (s : ServerTables) (body : Option JsonMap) (inserted : Bool)
    (now : Int) : ServerTables × Option Nat :=
  match body with
  | none => (s, some 400)
  | some jsonMap =>
    match initRecord jsonMap with
    | none => (s, none)
    | some chunkserver =>
      match addChunkserver { s with serverInfo := s.serverInfo.alloc chunkserver }
          s.serverInfo.next inserted now with
      | (s, false) => (s, some 500)
      | (s, true) => (s, some 200)

/-- A server of the list, with the answer to its `INSERT` and the time. -/
structure BatchItem where
  chunkserver : MetadataChunkserver
  inserted : Bool
  now : Int

/-- The loop; its variable is the record at `p`. -/
def batchAddLoop (p : Nat) : ServerTables → List BatchItem → ServerTables × Bool
  | s, [] => (s, true)
  | s, item :: items =>
    match addChunkserver { s with serverInfo := s.serverInfo.write p item.chunkserver } p
        item.inserted item.now with
    | (s, false) => (s, false)
    | (s, true) => batchAddLoop p s items

def batchAddChunkserver (s : ServerTables) (chunkserverList : List BatchItem) :
    ServerTables × Bool :=
  batchAddLoop s.serverInfo.next { s with serverInfo := s.serverInfo.alloc {} } chunkserverList

def batchInitChunkserverHandler (s : ServerTables) (chunkserverList : Option (List BatchItem)) :
    ServerTables × Nat :=
  match chunkserverList with
  | none => (s, 400)
  | some chunkserverList =>
    match s.batchAddChunkserver chunkserverList with
    | (s, false) => (s, 500)
    | (s, true) => (s, 200)

end ServerTables

/-! ## The routing table -/

/-- `chunkserverGroup` -/
abbrev RouteTable := AList fun _ : String => List MetadataChunkserver

/-- The body of the loop. -/
def addToGroup (chunkserverGroup : RouteTable) (chunkserver : MetadataChunkserver) : RouteTable :=
  let groupId := toString chunkserver.groupId.toNat
  chunkserverGroup.insert groupId ((chunkserverGroup.lookup groupId).getD [] ++ [chunkserver])

/-- The table that is sent; `visits` are the keys in the order in which they are visited. -/
def chunkmasterRouteHandler (s : ServerTables) (visits : List String) : RouteTable :=
  (visits.filterMap s.serverInfo.entry).foldl addToGroup ∅

/-- The servers of a group are in the order in which they were visited. -/
theorem lookup_foldl_addToGroup (servers : List MetadataChunkserver) (id : String) :
    ((servers.foldl addToGroup ∅).lookup id).getD [] =
      servers.filter fun c => toString c.groupId.toNat = id := by
  induction servers using List.reverseRecOn with
  | nil => rfl
  | append_singleton servers c ih =>
    rw [List.foldl_append, List.foldl_cons, List.foldl_nil, List.filter_append, ← ih, addToGroup]
    by_cases hid : toString c.groupId.toNat = id
    · rw [List.filter_cons_of_pos (by simpa using hid), List.filter_nil, hid, AList.lookup_insert]
      rfl
    · rw [List.filter_cons_of_neg (by simpa using hid), List.filter_nil, List.append_nil,
        AList.lookup_insert_ne (Ne.symm hid)]

/-- There is no group without servers. -/
theorem exists_of_mem_foldl_addToGroup {servers : List MetadataChunkserver} {id : String}
    (h : id ∈ servers.foldl addToGroup ∅) : ∃ c ∈ servers, toString c.groupId.toNat = id := by
  induction servers using List.reverseRecOn with
  | nil => exact absurd h (AList.notMem_empty id)
  | append_singleton servers c ih =>
    rw [List.foldl_append, List.foldl_cons, List.foldl_nil, addToGroup, AList.mem_insert] at h
    rcases h with h | h
    · exact ⟨c, List.mem_append_right _ List.mem_cons_self, h.symm⟩
    · obtain ⟨d, hd, hid⟩ := ih h
      exact ⟨d, List.mem_append_left _ hd, hid⟩

/-! ## Runs -/

/-- An operation, with what it gets from outside. -/
inductive MasterOp where
  | load (read : Option Nat) (now : Int)
  | report (body : Option JsonMap) (updated : Bool) (now : Int)
  | monitor (timeoutSecond now : Int) (visits : List String) (updated : String → Bool)
  | init (body : Option JsonMap) (inserted : Bool) (now : Int)
  | batchInit (chunkserverList : Option (List ServerTables.BatchItem))
  /-- a change of the rows by another program -/
  | edit (rows : List MetadataChunkserver)

/-- A `range` visits each key once. -/
def MasterOp.Fits (s : ServerTables) : MasterOp → Prop
  | .monitor _ _ visits _ => visits.Perm s.serverInfo.index.keys
  | _ => True

def ServerTables.step (s : ServerTables) : MasterOp → ServerTables
  | .load read now => s.loadChunkserverInfo read now
  | .report body updated now => (s.reportChunkserverInfoHandler body updated now).1
  | .monitor timeoutSecond now visits updated =>
    s.chunkserverMonitor timeoutSecond now visits updated
  | .init body inserted now => (s.initChunkserverHandler body inserted now).1
  | .batchInit chunkserverList => (s.batchInitChunkserverHandler chunkserverList).1
  | .edit rows => { s with rows }

end Speedy.Chunkmaster
