import Speedy.Lib.Run

/-! # The chunkmaster's table of chunkservers

`serverInfo` caches the rows of the `chunkserver` table. Reports, the monitor,
`addChunkserver` and `LoadChunkserverInfo` each change the table and the cache in
separate steps, and run concurrently. One step here is one statement, one section
under the lock, or one test of a record that others can change.

A server is known by its group, address and port, of type `κ`; the key of the cache
is made of these three. -/
namespace Speedy.Chunkmaster
open Speedy.Lib

inductive Status where
  | init
  | rw
  | ro
  | err
  deriving DecidableEq, Repr

/-- A row that is not deleted. -/
structure Row where
  status : Status
  globalStatus : Int
  deriving DecidableEq, Repr

/-- A record of the cache, as far as it is read here. -/
structure Chunkserver where
  status : Status
  globalStatus : Int
  updateTime : Nat
  deriving DecidableEq, Repr

/-- Where `reportChunkserverInfo` stands: before one of its three tests, in the branch
of one, or behind them. -/
inductive ReportPc where
  | check (status : Status)
  | update (status : Status)
  | store
  deriving DecidableEq, Repr

/-- The test behind the one for this status. -/
def afterCheck : Status → ReportPc
  | .init => .check .rw
  | .rw => .check .ro
  | _ => .store

/-- An operation that has been started. -/
inductive MasterTask (κ : Type) where
  /-- a report, with the record it found and the status of the one it is going to store -/
  | report (key : κ) (old : Nat) (status : Status) (pc : ReportPc)
  /-- a monitor tick; `updated` says that the row of the first server has been updated -/
  | monitor (todo : List κ) (updated : Bool)
  /-- `addChunkserver` behind its `INSERT` -/
  | add (key : κ)
  /-- `LoadChunkserverInfo` behind its `SELECT` -/
  | load (rows : κ → Option Row)
  | done

/-- The rows, the cache with the records it points to, and the operations. Records are
numbered; `next` is the first number not in use. -/
structure Master (κ : Type) where
  db : κ → Option Row
  serverInfo : κ → Option Nat
  records : κ → Nat → Chunkserver
  next : Nat
  tasks : List (MasterTask κ)

section Master
variable {κ : Type} [DecidableEq κ]

/-- `UPDATE ... SET status = post WHERE ... AND status = pre` -/
def Master.update (m : Master κ) (key : κ) (pre post : Status) : Master κ :=
  { m with
    db := fun k =>
      if k = key then
        (m.db k).map fun row => if row.status = pre then { row with status := post } else row
      else m.db k }

/-- `serverInfo[key] = chunkserver`, for a new record -/
def Master.store (m : Master κ) (key : κ) (chunkserver : Chunkserver) : Master κ :=
  { m with
    serverInfo := fun k => if k = key then some m.next else m.serverInfo k
    records := fun k n => if k = key ∧ n = m.next then chunkserver else m.records k n
    next := m.next + 1 }

/-- `updateChunkserverInfo` -/
def Master.updateChunkserverInfo (m : Master κ) (key : κ) (status : Status) : Master κ :=
  match m.serverInfo key with
  | none => m
  | some p =>
    { m with
      records := fun k n =>
        if k = key ∧ n = p then { m.records k n with status := status } else m.records k n }

/-- The new map of `LoadChunkserverInfo` takes the place of the old one. -/
def Master.swap (m : Master κ) (rows : κ → Option Row) (now : Nat) : Master κ :=
  { m with
    serverInfo := fun k => (rows k).map fun _ => m.next
    records := fun k n =>
      match rows k with
      | none => m.records k n
      | some row => if n = m.next then ⟨row.status, row.globalStatus, now⟩ else m.records k n
    next := m.next + 1 }

def Master.setTask (m : Master κ) (i : Nat) (t : MasterTask κ) : Master κ :=
  { m with tasks := m.tasks.set i t }

def Master.spawn (m : Master κ) (t : MasterTask κ) : Master κ :=
  { m with tasks := m.tasks ++ [t] }

/-- The test of the monitor. -/
def Master.expired (m : Master κ) (now timeout : Nat) (key : κ) : Bool :=
  match m.serverInfo key with
  | none => false
  | some p =>
    decide ((m.records key p).status = .rw) && decide (now - (m.records key p).updateTime > timeout)

/-- The next step of the `i`-th operation, which is `t`, at this time. -/
def Master.taskStep (m : Master κ) (i now : Nat) : MasterTask κ → Option (Master κ)
  | .report key old status (.check s) =>
    if (m.records key old).status = s then some (m.setTask i (.report key old status (.update s)))
    else some (m.setTask i (.report key old status (afterCheck s)))
  | .report key old _ (.update s) =>
    some ((m.update key s .rw).setTask i (.report key old .rw (afterCheck s)))
  | .report key _ status .store =>
    match m.serverInfo key with
    | none => some (m.setTask i .done)
    -- a report says nothing about the global status
    | some _ => some ((m.store key ⟨status, 0, now⟩).setTask i .done)
  | .monitor [] _ => some (m.setTask i .done)
  | .monitor (key :: todo) false =>
    some ((m.update key .rw .ro).setTask i (.monitor (key :: todo) true))
  | .monitor (key :: todo) true =>
    some ((m.updateChunkserverInfo key .ro).setTask i (.monitor todo false))
  | .add key => some ((m.store key ⟨.init, 0, now⟩).setTask i .done)
  | .load rows => some ((m.swap rows now).setTask i .done)
  | .done => none

inductive MasterMove (κ : Type) where
  /-- a report up to the lookup of its server -/
  | report (key : κ)
  /-- a monitor tick up to the end of its loop over these servers -/
  | tick (now timeout : Nat) (keys : List κ)
  /-- `addChunkserver` with its `INSERT`, which needs a new key -/
  | add (key : κ)
  /-- `LoadChunkserverInfo` with its `SELECT` -/
  | load
  | task (i now : Nat)
  deriving DecidableEq, Repr

def Master.step (m : Master κ) : MasterMove κ → Option (Master κ)
  | .report key =>
    match m.serverInfo key with
    | none => none
    | some p => some (m.spawn (.report key p .init (.check .init)))
  | .tick now timeout keys => some (m.spawn (.monitor (keys.filter (m.expired now timeout)) false))
  | .add key =>
    match m.db key with
    | some _ => none
    | none =>
      some ({ m with db := fun k => if k = key then some ⟨.init, 0⟩ else m.db k }.spawn (.add key))
  | .load => some (m.spawn (.load fun k => (m.db k).filter fun row => row.status != .err))
  | .task i now =>
    match m.tasks[i]? with
    | none => none
    | some t => m.taskStep i now t

end Master

/-! ## Agreement -/

section Status
variable {κ : Type}

def Master.rowStatus (m : Master κ) (k : κ) : Option Status := (m.db k).map Row.status

def Master.entryStatus (m : Master κ) (k : κ) : Option Status :=
  (m.serverInfo k).map fun p => (m.records k p).status

/-- The status that a server should have in the cache. -/
def listed (status : Option Status) : Option Status := status.filter fun s => s != .err

/-- The cache has one entry for each row that is not in error, with its status. -/
def Master.Agrees (m : Master κ) : Prop := ∀ k, m.entryStatus k = listed (m.rowStatus k)

/-- No operation is in progress. -/
def Master.Idle (m : Master κ) : Prop := ∀ t ∈ m.tasks, t = .done

def Master.Fresh (m : Master κ) : Prop :=
  m.Agrees ∧ m.tasks = [] ∧ ∀ k p, m.serverInfo k = some p → p < m.next

/-- A report on this server is in progress. -/
def Reporting (m : Master κ) (k : κ) : Prop :=
  ∃ old status pc, MasterTask.report k old status pc ∈ m.tasks

/-- A report on this server has made its `UPDATE`. -/
def Updated (m : Master κ) (k : κ) : Prop :=
  ∃ old pc, MasterTask.report k old .rw pc ∈ m.tasks

/-- The monitor has updated the row of this server and not yet the cache. -/
def Demoting (m : Master κ) (k : κ) : Prop := ∃ todo, MasterTask.monitor (k :: todo) true ∈ m.tasks

/-- `addChunkserver` has inserted the row of this server and not yet the entry. -/
def Registering (m : Master κ) (k : κ) : Prop := MasterTask.add k ∈ m.tasks

def Reloading (m : Master κ) : Prop := ∃ rows, MasterTask.load rows ∈ m.tasks

/-- The steps that keep the operations out of each other's way: none that lets the
monitor's change of a server overlap with a report on it, and no change of a status
while the rows read by a reload are not yet in the cache, or the entry of the server
is not. -/
structure Calm (m m' : Master κ) : Prop where
  apart : ∀ k, Reporting m' k → ¬ Demoting m' k
  reload : Reloading m → ∀ k, m'.rowStatus k = m.rowStatus k
  register : ∀ k, Registering m k → m'.rowStatus k = m.rowStatus k

end Status

/-- The runs whose steps satisfy a condition. -/
abbrev MasterRun {κ : Type} [DecidableEq κ] (ok : Master κ → Master κ → Prop) : Master κ → Prop :=
  Reach Master.Fresh fun m (move : MasterMove κ) m' => m.step move = some m' ∧ ok m m'

end Speedy.Chunkmaster
