import Speedy.Chunkserver.Append
import Speedy.Chunkserver.Handlers

/-! # What the store has promised: the ledger

The part of a server's state that decides which bytes a READ returns: the
connections, the chunks and their files, the index, the jobs with the stage each
is in, and the answers given. `LedgerStep` lists the small changes a run is made
of; handlers, callbacks and workers are sequences of them. -/
namespace Speedy.Chunkserver
open Speedy.Lib

/-- How far a job has come. -/
inductive Stage where
  | pending
  | queued
  | running (progress : Progress)
  | finished
  deriving DecidableEq, Repr

structure Ledger where
  nextConn : Nat
  conns : Nat → Option Connection
  disk : UInt64 → ByteStore
  chunk : UInt64 → Chunk
  chunkIndex : List UInt64
  chunks : List UInt64
  fileIndex : List IndexEntry
  works : List (Work × Stage)
  answers : List Answer

/-- Every job of the server, with its stage. -/
def Server.works (s : Server) : List (Work × Stage) :=
  s.pendingWrites.map (fun job => (.io job, .pending)) ++
    (s.queued.map (fun work => (work, .queued)) ++
      (s.running.map (fun x => (x.1, .running x.2)) ++
        s.finished.map (fun work => (work, .finished))))

def Server.ledger (s : Server) : Ledger where
  nextConn := s.nextConn
  conns := s.conns
  disk := s.disk
  chunk := s.chunk
  chunkIndex := s.chunkIndex
  chunks := s.chunks
  fileIndex := s.fileIndex
  works := s.works
  answers := s.answers

namespace Ledger

/-- The connections that wait for a job. -/
def waiting (v : Ledger) : List Nat := v.works.map fun x => x.1.conn

def setConn (v : Ledger) (c : Nat) (conn : Connection) : Ledger :=
  { v with conns := fun i => if i = c then some conn else v.conns i }

def dropConn (v : Ledger) (c : Nat) : Ledger :=
  { v with conns := fun i => if i = c then none else v.conns i }

end Ledger

/-- The chunk a job has to itself: a dispatched write owns its chunk. -/
def owner : Work × Stage → Option UInt64
  | (.io job, stage) => if job.fn = .write ∧ stage ≠ .pending then some job.chunk else none
  | (.dump _, _) => none

/-- The fid of a WRITE in flight. -/
def writeFid : Work × Stage → Option UInt64
  | (.io job, _) => if job.fn = .write then some job.file.fid else none
  | (.dump _, _) => none

/-- The successful WRITEs among the answers, newest first. -/
def successWrites (answers : List Answer) : List (UInt64 × Bytes) :=
  answers.filterMap fun
    | .write _ fid .success payload => some (fid, payload)
    | _ => none

/-- The successful READs among the answers: fid, announced length, body. -/
def successReads (answers : List Answer) : List (UInt64 × Nat × Bytes) :=
  answers.filterMap fun
    | .read _ fid .success bodyLen body => some (fid, bodyLen, body)
    | _ => none

/-- Not a success of a WRITE or a READ. -/
def Answer.Quiet : Answer → Prop
  | .write _ _ error _ => error ≠ .success
  | .read _ _ error _ _ => error ≠ .success
  | .other _ _ _ => True

/-- A connection is receiving, waiting for a job, or sending. -/
def ConnOk (conn : Connection) (waits : Prop) : Prop :=
  match conn.state with
  | .receiveHdr => conn.readable = true ∧ conn.writable = false ∧ conn.request.readPos = 0 ∧
      conn.rspBody = spyRwBufferInit ∧ ¬ waits
  | .receiveBody => conn.readable = true ∧ conn.writable = false ∧ conn.request.readPos = 5 ∧
      5 ≤ conn.request.writePos ∧ conn.bodyLen < 4294967296 ∧ conn.rspBody = spyRwBufferInit ∧
      ¬ waits
  | .processRequest => conn.readable = false ∧ conn.writable = false ∧ waits
  | .sendRsp => conn.writable = true ∧ ¬ waits

/-- The connection of a job. -/
structure Waits (conn : Connection) : Prop where
  state : conn.state = .processRequest
  readable : conn.readable = false
  writable : conn.writable = false

/-- The request buffer stands behind the inner header and holds the payload. -/
structure Loaded (job : IoJob) (request : RwBuffer) : Prop where
  readPos : request.readPos = 15
  data : 15 + job.file.size ≤ request.data.length
  size_lt : job.file.size < 4294967296

/-- The job's chunk had room for it, and it goes where the chunk ends. -/
structure Placed (v : Ledger) (job : IoJob) : Prop where
  offset : job.offset = (v.chunk job.chunk).currentOffset
  fits : (v.chunk job.chunk).availSpace > u32 (job.file.size + fileMetaSize)

/-- The entries of one chunk, in the order they were added. -/
def entriesOf (index : List IndexEntry) (id : UInt64) : List IndexEntry :=
  (index.filter fun e => e.chunkId == id).reverse

/-- The job's record is the last one of its chunk, and not in the index yet. -/
def Appended (v : Ledger) (recs : UInt64 → List Record) (job : IoJob) (conn : Connection) : Prop :=
  ∃ rs rec, recs job.chunk = rs ++ [rec] ∧ job.offset = 55 + extent rs ∧
    rec.fid = job.file.fid ∧ rec.payload = conn.payload job.file.size ∧
    rec.payload.length = job.file.size ∧ job.file.size < 2147483648 ∧
    entriesOf v.fileIndex job.chunk = entriesAt job.chunk 55 rs

/-- The record an entry stands for. -/
structure Indexed (recs : UInt64 → List Record) (e : IndexEntry) (rec : Record) : Prop where
  mem : (e.offset, rec) ∈ placed (fun r => r.bytes.length) 55 (recs e.chunkId)
  eq : e = rec.entry e.chunkId e.offset

/-- A dispatched write before it has finished, or after. -/
def WritingOk (v : Ledger) (recs : UInt64 → List Record) (job : IoJob) (conn : Connection)
    (pc : WritePc) : Prop :=
  match pc with
  | .finished retcode => retcode = 0 → Appended v recs job conn
  | pc => Placed v job ∧ ∃ request d0, Loaded job request ∧
      WriteState (fun _ => True) job.file job.offset request (v.chunk job.chunk) d0
        ⟨pc, v.disk job.chunk, v.chunk job.chunk, conn.request⟩

/-- What a read has in the response buffer. -/
def ReadingOk (rec : Record) (job : IoJob) (conn : Connection) (pc : ReadPc) : Prop :=
  match pc with
  | .start => conn.rspBody.data = [] ∧ conn.rspBody.readPos = 0
  | .loop left offset => conn.rspBody.readPos = 0 ∧ left ≤ rec.bytes.length ∧
      offset = job.indexEntry.offset + (rec.bytes.length - left) ∧
      conn.rspBody.data = rec.bytes.take (rec.bytes.length - left)
  | .finished retcode => retcode = 0 → job.file.size = rec.payload.length ∧
      conn.rspBody.data = rec.bytes ∧ conn.rspBody.readPos = 30

/-- The place in `spy_read_file` a stage stands for. -/
def readPc (job : IoJob) : Stage → Option ReadPc
  | .queued => some .start
  | .running (.read pc) => some pc
  | .finished => some (.finished job.retcode)
  | _ => none

/-- The stages of a job that touches neither the index nor the chunks. -/
def Stage.Plain : Stage → Prop
  | .queued => True
  | .running (.single _) => True
  | .finished => True
  | _ => False

/-- A disk check or a dump. -/
def Work.Plain : Work → Prop
  | .io job => job.fn = .check
  | .dump _ => True

/-- What is known of a job in its stage. -/
inductive WorkOk (v : Ledger) (recs : UInt64 → List Record) (conn : Connection) :
    Work × Stage → Prop
  | parked (job : IoJob) (fn : job.fn = .write) (loaded : Loaded job conn.request) :
      WorkOk v recs conn (.io job, .pending)
  | placed (job : IoJob) (fn : job.fn = .write) (place : Placed v job)
      (loaded : Loaded job conn.request) : WorkOk v recs conn (.io job, .queued)
  | writing (job : IoJob) (pc : WritePc) (fn : job.fn = .write)
      (state : WritingOk v recs job conn pc) : WorkOk v recs conn (.io job, .running (.write pc))
  | written (job : IoJob) (fn : job.fn = .write)
      (state : job.retcode = 0 → Appended v recs job conn) : WorkOk v recs conn (.io job, .finished)
  | reading (job : IoJob) (stage : Stage) (pc : ReadPc) (rec : Record) (fn : job.fn = .read)
      (at_ : readPc job stage = some pc) (chunk : job.indexEntry.chunkId = job.chunk)
      (mem : job.chunk ∈ v.chunkIndex)
      (indexed : Indexed recs job.indexEntry rec)
      (said : (rec.fid, rec.payload) ∈ successWrites v.answers)
      (state : ReadingOk rec job conn pc) : WorkOk v recs conn (.io job, stage)
  | plain (work : Work) (stage : Stage) (hw : work.Plain) (hs : stage.Plain) :
      WorkOk v recs conn (work, stage)

/-- The job's record is in the file and not in the index. -/
def Committed (id : UInt64) : Work × Stage → Prop
  | (.io job, stage) => job.fn = .write ∧ job.chunk = id ∧
      (stage = .running (.write (.finished 0)) ∨ stage = .finished ∧ job.retcode = 0)
  | (.dump _, _) => False

/-! ## Small steps -/

/-- A request that becomes a job: its connection stops receiving. -/
structure Submit (v : Ledger) (c : Nat) (conn : Connection) : Prop where
  live : ∃ old, v.conns c = some old
  idle : c ∉ v.waiting
  waits : Waits conn

/-- The changes a run is made of. `sb` says how the `pwrite()` of a superblock may
end, `dup` whether a write may end while there is another of its fid, `ack`
whether one may be acknowledged. -/
inductive LedgerStep (sb : Pwrite → Prop) (dup ack : Prop) : Ledger → Ledger → Prop
  | shuffle {v : Ledger} {works : List (Work × Stage)} (perm : v.works.Perm works) :
      LedgerStep sb dup ack v { v with works := works }
  | accept {v : Ledger} :
      LedgerStep sb dup ack v { v.setConn v.nextConn .new with nextConn := v.nextConn + 1 }
  | idle {v : Ledger} {c : Nat} {conn : Connection} (as : List Answer)
      (live : ∃ old, v.conns c = some old) (idle : c ∉ v.waiting) (ok : ConnOk conn False)
      (quiet : ∀ a ∈ as, a.Quiet) :
      LedgerStep sb dup ack v { v.setConn c conn with answers := as ++ v.answers }
  | drop {v : Ledger} {c : Nat} (live : ∃ old, v.conns c = some old) (idle : c ∉ v.waiting) :
      LedgerStep sb dup ack v (v.dropConn c)
  | park {v : Ledger} {job : IoJob} {conn : Connection} (submit : Submit v job.conn conn)
      (fn : job.fn = .write) (loaded : Loaded job conn.request)
      (fresh : Fresh v.fileIndex job.file.fid) :
      LedgerStep sb dup ack v
        { v.setConn job.conn conn with works := (.io job, .pending) :: v.works }
  | assign {v : Ledger} {job : IoJob} {id : UInt64} {rest : List (Work × Stage)}
      (works : v.works = (.io job, .pending) :: rest) (free : id ∈ v.chunks)
      (fits : (v.chunk id).availSpace > u32 (job.file.size + fileMetaSize)) :
      LedgerStep sb dup ack v { v with
        chunks := v.chunks.erase id
        works := (.io { job with chunk := id, offset := (v.chunk id).currentOffset }, .queued) ::
          rest }
  | abandon {v : Ledger} {id : UInt64} (free : id ∈ v.chunks) :
      LedgerStep sb dup ack v { v with chunks := v.chunks.erase id }
  | submitRead {v : Ledger} {job : IoJob} {conn : Connection} (submit : Submit v job.conn conn)
      (fn : job.fn = .read) (entry : job.indexEntry ∈ v.fileIndex)
      (chunk : job.indexEntry.chunkId = job.chunk)
      (empty : conn.rspBody.data = [] ∧ conn.rspBody.readPos = 0) :
      LedgerStep sb dup ack v
        { v.setConn job.conn conn with works := (.io job, .queued) :: v.works }
  | submitPlain {v : Ledger} {work : Work} {conn : Connection} (submit : Submit v work.conn conn)
      (plain : work.Plain) :
      LedgerStep sb dup ack v { v.setConn work.conn conn with works := (work, .queued) :: v.works }
  | start {v : Ledger} {work : Work} {rest : List (Work × Stage)}
      (works : v.works = (work, .queued) :: rest) :
      LedgerStep sb dup ack v { v with works := (work, .running work.begin) :: rest }
  | pwrite {v : Ledger} {job : IoJob} {pc : WritePc} {rest : List (Work × Stage)}
      {conn : Connection} {io : Pwrite} {now : Nat} {r : WriteRun}
      (works : v.works = (.io job, .running (.write pc)) :: rest)
      (live : v.conns job.conn = some conn)
      (step : spyWriteFileStep job.file job.offset io now
        ⟨pc, v.disk job.chunk, v.chunk job.chunk, conn.request⟩ = some r)
      (superblock : pc = .commit → sb io) :
      LedgerStep sb dup ack v { v.setConn job.conn { conn with request := r.request } with
        disk := Function.update v.disk job.chunk r.disk
        chunk := Function.update v.chunk job.chunk r.chunk
        works := (.io job, .running (.write r.pc)) :: rest }
  | pread {v : Ledger} {job : IoJob} {pc : ReadPc} {rest : List (Work × Stage)}
      {conn : Connection} {io : Pread} {r : ReadRun}
      (works : v.works = (.io job, .running (.read pc)) :: rest)
      (live : v.conns job.conn = some conn)
      (step : spyReadFileStep job.indexEntry (v.disk job.chunk) io
        ⟨pc, conn.rspBody, job.file⟩ = some r) :
      LedgerStep sb dup ack v { v.setConn job.conn { conn with rspBody := r.rspBody } with
        works := (.io { job with file := r.file }, .running (.read r.pc)) :: rest }
  | single {v : Ledger} {work : Work} {rest : List (Work × Stage)} (retcode : Int)
      (works : v.works = (work, .running (.single none)) :: rest) :
      LedgerStep sb dup ack v { v with works := (work, .running (.single (some retcode))) :: rest }
  | finish {v : Ledger} {work : Work} {progress : Progress} {retcode : Int}
      {rest : List (Work × Stage)} (works : v.works = (work, .running progress) :: rest)
      (done : progress.retcode = some retcode) :
      LedgerStep sb dup ack v { v with works := (work.setRetcode retcode, .finished) :: rest }
  | reply {v : Ledger} {x : Work × Stage} {rest : List (Work × Stage)} {conn : Connection}
      {a : Answer} (works : v.works = x :: rest) (free : owner x = none)
      (ok : ConnOk conn False) (quiet : a.Quiet) :
      LedgerStep sb dup ack v
        { v.setConn x.1.conn conn with works := rest, answers := a :: v.answers }
  | dumped {v : Ledger} {job : DumpJob} {rest : List (Work × Stage)} {conn : Option Connection}
      (works : v.works = (.dump job, .finished) :: rest) (ok : ∀ conn', conn = some conn' →
        ConnOk conn' False) :
      LedgerStep sb dup ack v { v with
        conns := fun i => if i = job.conn then conn else v.conns i
        works := rest }
  | readDone {v : Ledger} {job : IoJob} {rest : List (Work × Stage)} {conn conn' : Connection}
      (works : v.works = (.io job, .finished) :: rest) (fn : job.fn = .read)
      (success : job.retcode = 0) (live : v.conns job.conn = some conn)
      (ok : ConnOk conn' False) :
      LedgerStep sb dup ack v { v.setConn job.conn conn' with
        works := rest
        answers := .read job.conn job.indexEntry.fid .success job.file.size
          (conn.rspBody.unread.take job.file.size) :: v.answers }
  | writeDone {v : Ledger} {job : IoJob} {rest : List (Work × Stage)} {conn conn' : Connection}
      (works : v.works = (.io job, .finished) :: rest) (fn : job.fn = .write)
      (success : job.retcode = 0) (fresh : Fresh v.fileIndex job.file.fid)
      (alone : dup ∨ ∀ x ∈ rest, writeFid x ≠ some job.file.fid)
      (live : v.conns job.conn = some conn) (ok : ConnOk conn' False) (acked : ack) :
      LedgerStep sb dup ack v { v.setConn job.conn conn' with
        works := rest
        chunks := v.chunks ++ [job.chunk]
        fileIndex := ⟨(v.chunk job.chunk).chunkId, job.file.fid, job.offset,
          u32 (job.file.size + fileMetaSize)⟩ :: v.fileIndex
        answers := .write job.conn job.file.fid .success (conn.payload job.file.size) ::
          v.answers }
  | writeFailed {v : Ledger} {job : IoJob} {rest : List (Work × Stage)} {conn' : Connection}
      {a : Answer} (works : v.works = (.io job, .finished) :: rest) (fn : job.fn = .write)
      (failed : job.retcode ≠ 0) (ok : ConnOk conn' False) (quiet : a.Quiet) :
      LedgerStep sb dup ack v { v.setConn job.conn conn' with
        works := rest
        chunks := v.chunks ++ [job.chunk]
        answers := a :: v.answers }
  | writeLost {v : Ledger} {job : IoJob} {rest : List (Work × Stage)} {conn' : Connection}
      {a : Answer} (works : v.works = (.io job, .finished) :: rest) (fn : job.fn = .write)
      (stale : ¬ Fresh v.fileIndex job.file.fid) (allowed : dup) (ok : ConnOk conn' False)
      (quiet : a.Quiet) :
      LedgerStep sb dup ack v
        { v.setConn job.conn conn' with works := rest, answers := a :: v.answers }

end Speedy.Chunkserver
