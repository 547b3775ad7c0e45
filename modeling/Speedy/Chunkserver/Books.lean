import Speedy.Chunkserver.LedgerInv
import Speedy.Chunkserver.Outcomes
import Speedy.Lib.Tally

/-! # The books of a chunkserver

What the server counts and hands out: memory blocks, job slots, chunks, places
among the pending writes, and responses. `BookStep` lists the transactions an
event is made of. A transaction is atomic where the handler's own steps in between
would leave the counters out of balance. -/
namespace Speedy.Chunkserver
open Speedy.Lib

/-! ## Buffers and connections -/

/-- The positions of a buffer lie within its blocks. -/
structure RwBuffer.Fits (b : RwBuffer) : Prop where
  read : b.readPos ≤ b.writePos
  write : b.writePos ≤ b.cap

/-- The blocks a connection has taken from the pool. -/
def Connection.held (conn : Connection) : Nat := conn.request.blocks + conn.rspBody.blocks

/-- What remains to be sent of a response is in the response buffer. -/
structure Connection.Sendable (conn : Connection) : Prop where
  nonneg : 0 ≤ conn.sentlen
  le : conn.sentlen ≤ rspHdrSize + conn.bodyLen
  header : conn.sentlen < rspHdrSize → conn.bodyLen ≤ conn.rspBody.unread.length
  body : rspHdrSize ≤ conn.sentlen →
    rspHdrSize + conn.bodyLen - conn.sentlen ≤ conn.rspBody.unread.length

structure Connection.Fine (conn : Connection) : Prop where
  request : conn.request.Fits
  rspBody : conn.rspBody.Fits
  unsent : conn.state ≠ .sendRsp → conn.sentlen = 0
  sendable : conn.state = .sendRsp → conn.Sendable

/-! ## Marks -/

/-- What a run shows of a connection: a handler is called for a request of it, or a
response to it is started. -/
inductive Mark where
  | dispatched (c : Nat)
  | started (c : Nat)
  deriving DecidableEq, Repr

def Mark.conn : Mark → Nat
  | .dispatched c => c
  | .started c => c

/-- The newest mark of the connection is a dispatch. -/
def Open (marks : List Mark) (c : Nat) : Prop :=
  marks.find? (fun m => m.conn == c) = some (.dispatched c)

/-- The newest mark of the connection is the start of a response. -/
def Begun (marks : List Mark) (c : Nat) : Prop :=
  marks.find? (fun m => m.conn == c) = some (.started c)

/-- No connection gets a response without a dispatch since its last response; the
newest mark is the first. -/
def Alternating : List Mark → Prop
  | [] => True
  | .dispatched _ :: marks => Alternating marks
  | .started c :: marks => Open marks c ∧ Alternating marks

/-! ## Jobs -/

def isPending : Work × Stage → Bool
  | (_, .pending) => true
  | _ => false

def isRead : Work × Stage → Bool
  | (_, .pending) => false
  | (.io job, _) => job.fn == .read
  | (.dump _, _) => false

/-- The response to the job's request has not been started. A dump is sent by the
worker itself. -/
def Answerable : Work × Stage → Prop
  | (.io _, _) => True
  | (.dump _, .queued) => True
  | (.dump _, .running (.single none)) => True
  | (.dump _, _) => False

/-- A read has the blocks for its record. -/
def Roomy (conn : Connection) : Work × Stage → Prop
  | (.io job, _) => job.fn = .read → job.indexEntry.size ≤ conn.rspBody.cap
  | (.dump _, _) => True

/-- The same job, further on. -/
structure SameJob (x x' : Work × Stage) : Prop where
  conn : x'.1.conn = x.1.conn
  slot : slotOf x' = slotOf x
  owner : owner x' = owner x
  read : isRead x' = isRead x
  pending : isPending x = false ∧ isPending x' = false
  answerable : Answerable x' → Answerable x

/-! ## Books -/

structure Books where
  nextConn : Nat
  conns : Nat → Option Connection
  connCount : Nat
  mem : MemBlocks
  works : List (Work × Stage)
  freeIoJobs : List Nat
  pendingWritesSize : Nat
  writingCount : Nat
  readingCount : Nat
  avail : UInt64 → Nat
  chunks : List UInt64
  writingChunks : List UInt64
  marks : List Mark

def Server.books (s : Server) (marks : List Mark) : Books where
  nextConn := s.nextConn
  conns := s.conns
  connCount := s.statistic.connCount
  mem := s.mem
  works := s.works
  freeIoJobs := s.freeIoJobs
  pendingWritesSize := s.pendingWritesSize
  writingCount := s.statistic.writingCount
  readingCount := s.statistic.readingCount
  avail := fun id => (s.chunk id).availSpace
  chunks := s.chunks
  writingChunks := s.writingChunks
  marks := marks

/-- `n` blocks go back to the free list. -/
def MemBlocks.giveBack (m : MemBlocks) (n : Nat) : MemBlocks :=
  { m with free := m.free + n, used := m.used - n }

namespace Books

def waiting (v : Books) : List Nat := v.works.map fun x => x.1.conn

/-- A job is added, with what it takes and what is counted for it. -/
def enter (v : Books) (x : Work × Stage) (free : List Nat) : Books :=
  { v with
    works := x :: v.works
    freeIoJobs := free
    pendingWritesSize := if isPending x then u32 (v.pendingWritesSize + 1) else v.pendingWritesSize
    writingCount := if (owner x).isSome then u32 (v.writingCount + 1) else v.writingCount
    readingCount := if isRead x then u32 (v.readingCount + 1) else v.readingCount }

/-- A job is gone and the others are `rest`. -/
def leave (v : Books) (x : Work × Stage) (rest : List (Work × Stage)) : Books :=
  { v with
    works := rest
    freeIoJobs := (slotOf x).toList ++ v.freeIoJobs
    pendingWritesSize := if isPending x then u32 (v.pendingWritesSize - 1) else v.pendingWritesSize
    writingCount := if (owner x).isSome then u32 (v.writingCount - 1) else v.writingCount
    readingCount := if isRead x then u32 (v.readingCount - 1) else v.readingCount }

/-- One connection, the pool and the number of connections change. -/
def put (v : Books) (c : Nat) (new : Option Connection) (mem : MemBlocks) (count : Nat) : Books :=
  { v with conns := fun i => if i = c then new else v.conns i, mem := mem, connCount := count }

end Books

/-- What may happen to a live connection: it takes `n` more blocks, and then keeps
them, or is reset, or freed. -/
inductive Effect (v : Books) (c : Nat) : Option Connection → MemBlocks → Nat → Prop
  | keep {old conn : Connection} {mem : MemBlocks} {n : Nat} (live : v.conns c = some old)
      (draws : Draws v.mem mem n) (held : conn.held = old.held + n) :
      Effect v c (some conn) mem v.connCount
  | reset {old conn : Connection} {mem : MemBlocks} {n : Nat} (live : v.conns c = some old)
      (draws : Draws v.mem mem n) (held : conn.held = 0) :
      Effect v c (some conn) (mem.giveBack (old.held + n)) v.connCount
  | free {old : Connection} {mem : MemBlocks} {n : Nat} (live : v.conns c = some old)
      (draws : Draws v.mem mem n) :
      Effect v c none (mem.giveBack (old.held + n)) (u32 (v.connCount - 1))

/-- The chunk lists when a job is added. -/
inductive Takes (v : Books) : Work × Stage → List UInt64 → List UInt64 → Prop
  | parked {job : IoJob} (fn : job.fn = .write) (room : v.pendingWritesSize < defMaxPendingWrites)
      (full : ∀ id ∈ v.chunks, v.avail id ≤ u32 (job.file.size + fileMetaSize)) :
      Takes v (.io job, .pending) v.chunks v.writingChunks
  | taken {job : IoJob} (fn : job.fn = .write) (free : job.chunk ∈ v.chunks) :
      Takes v (.io job, .queued) (v.chunks.erase job.chunk) (job.chunk :: v.writingChunks)
  | other {work : Work} (own : owner (work, .queued) = none) :
      Takes v (work, .queued) v.chunks v.writingChunks

/-- The chunk lists when a job is gone: its chunk comes back if no pending write
fits it, or is lost, or there is none. -/
inductive Gives (strand : Prop) (v : Books) (x : Work × Stage) (rest : List (Work × Stage)) :
    List UInt64 → List UInt64 → Prop
  | returned {id : UInt64} (own : owner x = some id)
      (full : ∀ job, (Work.io job, Stage.pending) ∈ rest →
        v.avail id ≤ u32 (job.file.size + fileMetaSize)) :
      Gives strand v x rest (v.chunks ++ [id]) (v.writingChunks.erase id)
  | lost (allowed : strand) : Gives strand v x rest v.chunks v.writingChunks
  | other (own : owner x = none) : Gives strand v x rest v.chunks v.writingChunks

/-- A job is gone with its response started, or its connection has nothing to send. -/
inductive Closes (new : Option Connection) : Work × Stage → List Mark → Prop
  | started {x : Work × Stage} (h : Answerable x) : Closes new x [.started x.1.conn]
  | silent {x : Work × Stage} (h : ∀ conn, new = some conn → conn.state ≠ .sendRsp) :
      Closes new x []

/-- The transactions. `strand` says whether a chunk may leave the free list for good. -/
inductive BookStep (strand : Prop) : Books → Books → Prop
  | shuffle {v : Books} {works : List (Work × Stage)} (perm : v.works.Perm works) :
      BookStep strand v { v with works := works }
  | accept {v : Books} :
      BookStep strand v
        { v.put v.nextConn (some .new) v.mem (u32 (v.connCount + 1)) with
          nextConn := v.nextConn + 1 }
  | dispatch {v : Books} {c : Nat} {old : Connection} (live : v.conns c = some old)
      (unsent : old.state ≠ .sendRsp) (idle : c ∉ v.waiting) :
      BookStep strand v { v with marks := .dispatched c :: v.marks }
  | respond {v : Books} {c : Nat} (idle : c ∉ v.waiting) (isOpen : Open v.marks c) :
      BookStep strand v { v with marks := .started c :: v.marks }
  | idle {v : Books} {c : Nat} {new : Option Connection} {mem : MemBlocks} {count : Nat}
      (idle : c ∉ v.waiting) (eff : Effect v c new mem count)
      (ok : ∀ conn, new = some conn → ConnOk conn False ∧ conn.Fine)
      (sends : ∀ conn, new = some conn → conn.state = .sendRsp →
        Begun v.marks c ∨ ∃ old, v.conns c = some old ∧ old.state = .sendRsp) :
      BookStep strand v (v.put c new mem count)
  | submit {v : Books} {x : Work × Stage} {conn : Connection} {mem : MemBlocks} {free : List Nat}
      {chunks writingChunks : List UInt64} (idle : x.1.conn ∉ v.waiting)
      (isOpen : Open v.marks x.1.conn) (eff : Effect v x.1.conn (some conn) mem v.connCount)
      (waits : Waits conn) (fine : conn.Fine) (roomy : Roomy conn x)
      (slots : v.freeIoJobs = (slotOf x).toList ++ free)
      (takes : Takes v x chunks writingChunks) :
      BookStep strand v { (v.enter x free).put x.1.conn (some conn) mem v.connCount with
        chunks := chunks
        writingChunks := writingChunks }
  | abandon {v : Books} {id : UInt64} (allowed : strand) (free : id ∈ v.chunks) :
      BookStep strand v
        { v with chunks := v.chunks.erase id, writingChunks := id :: v.writingChunks }
  | advance {v : Books} {x x' : Work × Stage} {rest : List (Work × Stage)}
      {old conn : Connection} {avail : UInt64 → Nat} (works : v.works = x :: rest)
      (same : SameJob x x') (live : v.conns x.1.conn = some old) (held : conn.held = old.held)
      (waits : Waits conn) (fine : conn.Fine) (roomy : Roomy old x → Roomy conn x')
      (others : ∀ id, owner x ≠ some id → avail id = v.avail id) :
      BookStep strand v { v.put x.1.conn (some conn) v.mem v.connCount with
        works := x' :: rest
        avail := avail }
  | send {v : Books} {job : DumpJob} (retcode : Int) {rest : List (Work × Stage)}
      (works : v.works = (.dump job, .running (.single none)) :: rest) :
      BookStep strand v { v with
        works := (.dump job, .running (.single (some retcode))) :: rest
        marks := .started job.conn :: v.marks }
  | complete {v : Books} {x : Work × Stage} {rest : List (Work × Stage)}
      {new : Option Connection} {mem : MemBlocks} {count : Nat}
      {chunks writingChunks : List UInt64} {marks : List Mark} (works : v.works = x :: rest)
      (eff : Effect v x.1.conn new mem count)
      (ok : ∀ conn, new = some conn → ConnOk conn False ∧ conn.Fine)
      (gives : Gives strand v x rest chunks writingChunks) (closes : Closes new x marks) :
      BookStep strand v { (v.leave x rest).put x.1.conn new mem count with
        chunks := chunks
        writingChunks := writingChunks
        marks := marks ++ v.marks }
  | handOver {v : Books} {x : Work × Stage} {job : IoJob} {id : UInt64} (offset : Nat)
      {rest : List (Work × Stage)} {conn : Connection} {mem : MemBlocks}
      (works : v.works = x :: (.io job, .pending) :: rest) (own : owner x = some id)
      (fn : job.fn = .write) (eff : Effect v x.1.conn (some conn) mem v.connCount)
      (ok : ConnOk conn False) (fine : conn.Fine) (closes : Answerable x) :
      BookStep strand v
        { (((v.leave x ((.io job, .pending) :: rest)).leave (.io job, .pending) rest).enter
            (.io { job with chunk := id, offset := offset }, .queued)
            ((slotOf x).toList ++ v.freeIoJobs)).put x.1.conn (some conn) mem v.connCount with
          marks := .started x.1.conn :: v.marks }

end Speedy.Chunkserver
