import Speedy.Chunkserver.Worker

/-! # The state of a chunkserver

The globals `server` and `statistic`, the connections with their registered
events, the work queue and the chunk files. A pointer to a connection is a
number that is never used again; a pointer to a chunk is its id, since
`spy_add_chunk` asserts that ids differ. -/
namespace Speedy.Chunkserver
open Speedy.Lib

/-! ## Constants and enumerations -/

@[simp] def reqHdrSize : Nat := 5
@[simp] def reqInnerHdrSize : Nat := 10
@[simp] def rspHdrSize : Nat := 6
@[simp] def defMaxIoJobs : Nat := 5000
@[simp] def defMaxPendingWrites : Nat := 20
@[simp] def defPendingWriteTimeout : Nat := 5
@[simp] def chunkFilenameLenMax : Nat := 32
@[simp] def defDetailInfosHdrSize : Nat := 76

/-- `spy_error_t` -/
inductive SpyError where
  | success
  | serverIdMismatch
  | chunkUnavailable
  | fileNotFound
  | fileExists
  | writeError
  | readError
  | internalError
  | ioJobUnavailable
  | reachMemoryLimit
  | serverReadOnly
  | killed
  | chunkCheckError
  deriving DecidableEq, Repr

def SpyError.code : SpyError → Nat
  | .success => 0
  | .serverIdMismatch => 1
  | .chunkUnavailable => 2
  | .fileNotFound => 3
  | .fileExists => 4
  | .writeError => 5
  | .readError => 6
  | .internalError => 7
  | .ioJobUnavailable => 8
  | .reachMemoryLimit => 9
  | .serverReadOnly => 10
  | .killed => 11
  | .chunkCheckError => 12

/-- The opcodes `spy_process_receive_buffer` knows. -/
inductive Opcode where
  | write
  | read
  | ping
  | checkDisk
  | killPdWr
  | queryIoStatus
  | queryDetailInfos
  | dumpChunk
  deriving DecidableEq, Repr

def Opcode.ofByte : Nat → Option Opcode
  | 0 => some .write
  | 1 => some .read
  | 10 => some .ping
  | 11 => some .checkDisk
  | 30 => some .killPdWr
  | 31 => some .queryIoStatus
  | 32 => some .queryDetailInfos
  | 40 => some .dumpChunk
  | _ => none

/-- `spy_conn_state_t` -/
inductive ConnState where
  | receiveHdr
  | receiveBody
  | processRequest
  | sendRsp
  deriving DecidableEq, Repr

/-! ## Connections -/

/-- `spy_connection_t`, with the events registered for its descriptor. -/
structure Connection where
  request : RwBuffer
  rspBody : RwBuffer
  rspHeader : Bytes
  sentlen : Int
  opcode : Nat
  error : SpyError
  bodyLen : Nat
  state : ConnState
  readable : Bool
  writable : Bool
  deriving DecidableEq, Repr

/-- `spy_create_client_connection` -/
def Connection.new : Connection where
  request := spyRwBufferInit
  rspBody := spyRwBufferInit
  rspHeader := []
  sentlen := 0
  opcode := 0
  error := .success
  bodyLen := 0
  state := .receiveHdr
  readable := true
  writable := false

/-- The payload of a WRITE request: what follows the header, the server id and
the fid in the request buffer. -/
def Connection.payload (conn : Connection) (size : Nat) : Bytes :=
  (conn.request.data.drop (reqHdrSize + reqInnerHdrSize)).take size

/-- `spy_send_response_if_needed`; registering the event succeeds. -/
def spySendResponseIfNeeded (conn : Connection) : Connection :=
  if conn.state = .sendRsp then { conn with writable := true } else conn

def spyReplyHeader (conn : Connection) : Connection :=
  spySendResponseIfNeeded { conn with
    rspHeader := spyMachWriteTo1 conn.opcode ++ (spyMachWriteTo1 conn.error.code ++
      spyMachWriteTo4 conn.bodyLen) }

def spyReplyBody (conn : Connection) : Connection := spySendResponseIfNeeded conn

/-- `error`, `body_len = 0`, `state = SEND_RSP`, then the header: how every
response without a body is started. -/
def errorReply (conn : Connection) (error : SpyError) : Connection :=
  spyReplyHeader { conn with error := error, bodyLen := 0, state := .sendRsp }

/-- A response that has been started. It is what a run is judged by, not part of
the server's own state. -/
inductive Answer where
  /-- a WRITE of this payload -/
  | write (conn : Nat) (fid : UInt64) (error : SpyError) (payload : Bytes)
  /-- a READ, with the `body_len` announced and the bytes that will be sent -/
  | read (conn : Nat) (fid : UInt64) (error : SpyError) (bodyLen : Nat) (body : Bytes)
  | other (conn : Nat) (opcode : Nat) (error : SpyError)
  deriving DecidableEq, Repr

/-! ## Jobs and the work queue -/

inductive WorkFn where
  | write
  | read
  | check
  deriving DecidableEq, Repr

/-- `spy_io_job_t`; `slot` tells the preallocated jobs apart. Of the union of
`offset` and `index_entry` a write uses the first and a read the second. -/
structure IoJob where
  slot : Nat
  fn : WorkFn
  conn : Nat
  file : SpyFile
  chunk : UInt64
  offset : Nat
  indexEntry : IndexEntry
  retcode : Int
  reqTime : Nat
  deriving DecidableEq, Repr

/-- The memory of a job as `spy_free_io_job` leaves it. -/
def IoJob.blank (slot : Nat) : IoJob where
  slot := slot
  fn := .check
  conn := 0
  file := ⟨0, 0, 0, 0, 0⟩
  chunk := 0
  offset := 0
  indexEntry := ⟨0, 0, 0, 0⟩
  retcode := 0
  reqTime := 0

/-- `spy_dump_job_t` -/
structure DumpJob where
  conn : Nat
  chunk : UInt64
  chunkName : Bytes
  retcode : Int
  deriving DecidableEq, Repr

/-- `spy_work_t` inside the job it is part of -/
inductive Work where
  | io (job : IoJob)
  | dump (job : DumpJob)
  deriving DecidableEq, Repr

def Work.conn : Work → Nat
  | .io job => job.conn
  | .dump job => job.conn

/-- The local state of a worker in the middle of a job. -/
inductive Progress where
  | write (pc : WritePc)
  | read (pc : ReadPc)
  | single (retcode : Option Int)
  deriving DecidableEq, Repr

def Work.begin : Work → Progress
  | .io job => match job.fn with
    | .write => .write .header
    | .read => .read .start
    | .check => .single none
  | .dump _ => .single none

/-- The return code of a job the worker has finished. -/
def Progress.retcode : Progress → Option Int
  | .write (.finished retcode) => some retcode
  | .read (.finished retcode) => some retcode
  | .single retcode => retcode
  | _ => none

def Work.setRetcode : Work → Int → Work
  | .io job, retcode => .io { job with retcode := retcode }
  | .dump job, retcode => .dump { job with retcode := retcode }

/-! ## The server -/

/-- The options and the constants the modelled functions read from `config`. -/
structure Config where
  serverId : Nat
  nChunks : Nat
  mbLimit : Nat
  dataDir : Bytes
  deriving DecidableEq, Repr

/-- `spy_statistic_t` -/
structure Statistic where
  readBytes : Nat
  writeBytes : Nat
  readCount : Nat
  writeCount : Nat
  readError : Nat
  writeError : Nat
  connCount : Nat
  readingCount : Nat
  writingCount : Nat
  deriving DecidableEq, Repr

/-- `free_mem_blocks` (its length) and the counters beside it -/
structure MemBlocks where
  free : Nat
  alloc : Nat
  limit : Nat
  used : Nat
  deriving DecidableEq, Repr

/-- `spy_rw_buffer_expand`; `none` is -1, at the limit or when `calloc` fails. -/
def spyRwBufferExpand (mem : MemBlocks) (b : RwBuffer) (calloc : Bool) :
    Option (MemBlocks × RwBuffer) :=
  if mem.free = 0 then
    if mem.alloc ≥ mem.limit then none
    else if calloc then
      some ({ mem with alloc := mem.alloc + 1, used := mem.used + 1 },
        { b with blocks := b.blocks + 1 })
    else none
  else some ({ mem with free := mem.free - 1, used := mem.used + 1 },
    { b with blocks := b.blocks + 1 })

/-- `while (cap < size)` around an expansion; at most `fuel` of them are needed. -/
def expandTo (size : Nat) (calloc : Bool) : Nat → MemBlocks → RwBuffer →
    MemBlocks × RwBuffer × Bool
  | 0, mem, b => (mem, b, b.cap ≥ size)
  | n + 1, mem, b =>
    if b.cap < size then
      match spyRwBufferExpand mem b calloc with
      | none => (mem, b, false)
      | some (mem, b) => expandTo size calloc n mem b
    else (mem, b, true)

/-- `spy_rw_buffer_reset`: the blocks go back to the free list. -/
def spyRwBufferReset (mem : MemBlocks) (b : RwBuffer) : MemBlocks :=
  { mem with free := mem.free + b.blocks, used := mem.used - b.blocks }

structure Server where
  nextConn : Nat
  conns : Nat → Option Connection
  disk : UInt64 → ByteStore
  chunk : UInt64 → Chunk
  path : UInt64 → Bytes
  chunkIndex : List UInt64
  chunks : List UInt64
  writingChunks : List UInt64
  nChunks : Nat
  fileIndex : List IndexEntry
  pendingWrites : List IoJob
  pendingWritesSize : Nat
  freeIoJobs : List Nat
  queued : List Work
  running : List (Work × Progress)
  finished : List Work
  mem : MemBlocks
  statistic : Statistic
  answers : List Answer

/-- Why an event cannot be processed: an assertion fails, or memory that was
freed or never assigned is used, or the event cannot occur in this state. -/
inductive Fault where
  | assertion
  | wildPointer
  | disabled
  deriving DecidableEq, Repr

def Server.setConn (s : Server) (c : Nat) (conn : Connection) : Server :=
  { s with conns := fun i => if i = c then some conn else s.conns i }

def Server.answer (s : Server) (a : Answer) : Server := { s with answers := a :: s.answers }

def Server.count (s : Server) (f : Statistic → Statistic) : Server :=
  { s with statistic := f s.statistic }

def Server.freeIoJob (s : Server) (job : IoJob) : Server :=
  { s with freeIoJobs := job.slot :: s.freeIoJobs }

def spyQueueWork (s : Server) (work : Work) : Server := { s with queued := s.queued ++ [work] }

/-- The connection behind a pointer. -/
def Server.conn (s : Server) (c : Nat) : Except Fault Connection :=
  match s.conns c with
  | some conn => .ok conn
  | none => .error .wildPointer

/-- The fit test of `spy_handle_write` and `spy_write_file_done`; the sum is a
32-bit one. -/
def Server.fits (s : Server) (id : UInt64) (size : Nat) : Bool :=
  decide ((s.chunk id).availSpace > u32 (size + fileMetaSize))

def spyResetClientConnection (s : Server) (c : Nat) (conn : Connection) : Server :=
  { s with mem := spyRwBufferReset (spyRwBufferReset s.mem conn.request) conn.rspBody }.setConn c
    { conn with
      request := spyRwBufferInit
      rspBody := spyRwBufferInit
      sentlen := 0
      error := .success
      bodyLen := 0
      state := .receiveHdr
      readable := true
      writable := false }

def spyFreeClientConnection (s : Server) (c : Nat) (conn : Connection) : Server :=
  { s with
    mem := spyRwBufferReset (spyRwBufferReset s.mem conn.request) conn.rspBody
    conns := fun i => if i = c then none else s.conns i
    statistic := { s.statistic with connCount := u32 (s.statistic.connCount - 1) } }

end Speedy.Chunkserver
