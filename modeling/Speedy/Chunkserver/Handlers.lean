import Speedy.Chunkserver.Server
import Mathlib.Logic.Function.Basic

/-! # The handlers of the event loop and the workers

One definition per function of the event loop. `step` is what one event does:
a readiness event of a socket, a worker taking up, advancing or handing back a
job, a done callback, the timer. What the outside world decides (socket results,
I/O outcomes, the clock, `rand()`, whether `calloc` and `fcntl` succeed) is part
of the event. -/
namespace Speedy.Chunkserver
open Speedy.Lib

/-- What a request handler takes from its surroundings. -/
structure Env where
  now : Nat
  rand : Nat
  calloc : Bool
  fcntl : Bool
  deriving DecidableEq, Repr

/-! ## Done callbacks -/

def spyReadFileDone (s : Server) (job : IoJob) : Except Fault Server := do
  let conn ← s.conn job.conn
  let s := s.count fun t => { t with readingCount := u32 (t.readingCount - 1) }
  if job.retcode ≠ 0 then
    let s := s.count fun t => { t with readError := u64 (t.readError + 1) }
    let s := s.setConn job.conn (errorReply conn .readError)
    return (s.answer (.read job.conn job.indexEntry.fid .readError 0 [])).freeIoJob job
  else
    -- the event is registered by `spy_reply_body`: the state is set in between
    let conn := spyReplyHeader { conn with error := .success, bodyLen := job.file.size }
    let conn := spyReplyBody { conn with state := .sendRsp }
    let s := s.setConn job.conn conn
    let s := s.count fun t => { t with readBytes := u64 (t.readBytes + job.file.size) }
    return (s.answer (.read job.conn job.indexEntry.fid .success job.file.size
      (conn.rspBody.unread.take job.file.size))).freeIoJob job

def spyLookupFileIndex (index : List IndexEntry) (fid : UInt64) : Option IndexEntry :=
  index.find? fun e => e.fid == fid

/-- `ERROR_REPLY` of `spy_write_file_done` -/
def writeDoneError (s : Server) (conn : Connection) (job : IoJob) (error : SpyError) : Server :=
  let s := s.count fun t => { t with writeError := u64 (t.writeError + 1) }
  let s := s.setConn job.conn (errorReply conn error)
  (s.answer (.write job.conn job.file.fid error (conn.payload job.file.size))).freeIoJob job

/-- "deal pending writes": the first pending job that fits takes the chunk over,
or the chunk goes back to the list. -/
def handOver (s : Server) (id : UInt64) : Server :=
  let fit := fun (tmp : IoJob) => s.fits id tmp.file.size
  match if s.pendingWritesSize > 0 then s.pendingWrites.find? fit else none with
  | some pending =>
    let s := { s with
      pendingWrites := s.pendingWrites.eraseP fit
      pendingWritesSize := u32 (s.pendingWritesSize - 1) }
    let s := s.count fun t =>
      { t with writeCount := u64 (t.writeCount + 1), writingCount := u32 (t.writingCount + 1) }
    spyQueueWork s (.io { pending with chunk := id, offset := (s.chunk id).currentOffset })
  | none => { s with writingChunks := s.writingChunks.erase id, chunks := s.chunks ++ [id] }

def spyWriteFileDone (s : Server) (job : IoJob) : Except Fault Server := do
  let conn ← s.conn job.conn
  let conn := { conn with bodyLen := 0 }
  let s := s.count fun t => { t with writingCount := u32 (t.writingCount - 1) }
  match spyLookupFileIndex s.fileIndex job.file.fid with
  | some _ => return writeDoneError s conn job .internalError
  | none =>
    let s := handOver s job.chunk
    if job.retcode ≠ 0 then return writeDoneError s conn job .writeError
    else
      let s := s.count fun t => { t with writeBytes := u64 (t.writeBytes + job.file.size) }
      let entry : IndexEntry :=
        ⟨(s.chunk job.chunk).chunkId, job.file.fid, job.offset, u32 (job.file.size + fileMetaSize)⟩
      let s := { s with fileIndex := entry :: s.fileIndex }
      let s := s.setConn job.conn (errorReply conn .success)
      return (s.answer (.write job.conn job.file.fid .success
        (conn.payload job.file.size))).freeIoJob job

def spyCheckChunkDone (s : Server) (job : IoJob) : Except Fault Server := do
  let conn ← s.conn job.conn
  let error := if job.retcode = 0 then SpyError.success else .chunkCheckError
  let s := s.setConn job.conn (errorReply conn error)
  return (s.answer (.other job.conn conn.opcode error)).freeIoJob job

/-- `fcntl` says whether the socket could be made non-blocking again. -/
def spyDumpChunkfileDone (s : Server) (job : DumpJob) (fcntl : Bool) : Except Fault Server := do
  let conn ← s.conn job.conn
  if job.retcode ≠ 0 then return spyFreeClientConnection s job.conn conn
  else if fcntl then return spyResetClientConnection s job.conn conn
  else return spyFreeClientConnection s job.conn conn

/-! ## Pending writes -/

/-- A pending job leaves the list with an error; `rest` is the list behind it. -/
def dropPending (s : Server) (job : IoJob) (rest : List IoJob) (error : SpyError) :
    Except Fault Server := do
  let conn ← s.conn job.conn
  let s := { s with
    pendingWrites := rest
    pendingWritesSize := u32 (s.pendingWritesSize - 1) }
  let s := s.setConn job.conn (errorReply conn error)
  return (s.answer (.write job.conn job.file.fid error (conn.payload job.file.size))).freeIoJob job

/-- `while (!list_empty(&server.pending_writes))` -/
def killLoop : List IoJob → Server → Except Fault Server
  | [], s => .ok s
  | job :: rest, s => do
    let s ← dropPending s job rest .killed
    killLoop rest s

def spyKillPendingWrites (s : Server) (c : Nat) : Except Fault Server := do
  let s ← killLoop s.pendingWrites s
  let conn ← s.conn c
  return (s.setConn c (errorReply conn .success)).answer (.other c conn.opcode .success)

/-- `list_for_each_entry_safe` with its `break` -/
def timeoutLoop (now : Nat) : List IoJob → Server → Except Fault Server
  | [], s => .ok s
  | job :: rest, s =>
    if job.reqTime + defPendingWriteTimeout > now then .ok s
    else do
      let s ← dropPending s job rest .chunkUnavailable
      timeoutLoop now rest s

def spyRemoveTimeoutPendingWrites (s : Server) (now : Nat) : Except Fault Server :=
  if s.pendingWritesSize = 0 then .ok s
  else if s.pendingWrites = [] then .error .assertion
  else timeoutLoop now s.pendingWrites s

/-! ## Queries -/

/-- The tail both queries share: room for the body, the header, the body. -/
def replyWithBody (s : Server) (c : Nat) (conn : Connection) (env : Env) (body : Bytes) :
    Except Fault Server :=
  match expandTo body.length env.calloc (body.length / memBlockRoom + 1) s.mem conn.rspBody with
  | (mem, rspBody, false) =>
    let conn := { conn with rspBody := rspBody }
    .ok (({ s with mem := mem }.setConn c (errorReply conn .reachMemoryLimit)).answer
      (.other c conn.opcode .reachMemoryLimit))
  | (mem, rspBody, true) =>
    let conn := spyReplyHeader { conn with error := .success, bodyLen := u32 body.length }
    let (n, rspBody) := spyRwBufferWriteN rspBody body
    if n = body.length then
      let conn := spyReplyBody { conn with rspBody := rspBody, state := .sendRsp }
      .ok (({ s with mem := mem }.setConn c conn).answer (.other c conn.opcode .success))
    else .error .assertion

def spyQueryIoStatus (s : Server) (c : Nat) (conn : Connection) (env : Env) :
    Except Fault Server :=
  replyWithBody s c conn env
    (spyMachWriteTo4 s.pendingWritesSize ++ (spyMachWriteTo4 s.statistic.writingCount ++
      spyMachWriteTo4 s.statistic.readingCount))

/-- One line of the chunk table of the report. -/
def chunkLine (s : Server) (id : UInt64) : Bytes :=
  spyMachWriteTo8 (s.chunk id).chunkId.toNat ++ spyMachWriteTo8 (s.chunk id).availSpace

/-- The report is built in a buffer for `n_chunks` lines. -/
def spyQueryDetailInfos (s : Server) (c : Nat) (conn : Connection) (env : Env) :
    Except Fault Server :=
  let t := s.statistic
  let ids := s.chunks ++ s.writingChunks
  let body := spyMachWriteTo4 t.connCount ++ (spyMachWriteTo4 t.readingCount ++
    (spyMachWriteTo4 t.writingCount ++ (spyMachWriteTo4 s.pendingWritesSize ++
    (spyMachWriteTo8 t.readCount ++ (spyMachWriteTo8 t.writeCount ++
    (spyMachWriteTo8 t.readError ++ (spyMachWriteTo8 t.writeError ++
    (spyMachWriteTo8 t.readBytes ++ (spyMachWriteTo8 t.writeBytes ++
    (spyMachWriteTo4 s.nChunks ++ (ids.flatMap (chunkLine s) ++
    spyMachWriteTo8 (ids.map fun id => (s.chunk id).filesCount).sum)))))))))))
  -- a longer report would be written past the buffer, a shorter one leave part of it unset
  if body.length = defDetailInfosHdrSize + s.nChunks * 16 then replyWithBody s c conn env body
  else .error .wildPointer

def spyHandlePing (s : Server) (c : Nat) (conn : Connection) : Server :=
  (s.setConn c (errorReply { conn with readable := false } .success)).answer
    (.other c conn.opcode .success)

/-! ## Requests -/

/-- `server_id` and `fid`, read from the front of the request. -/
def readInnerHdr (conn : Connection) : Except Fault (Nat × UInt64 × Connection) :=
  let (buf, request) := spyRwBufferReadN conn.request reqInnerHdrSize
  if buf.length = reqInnerHdrSize then
    .ok (spyMachReadFrom2 buf, UInt64.ofNat (spyMachReadFrom8 (buf.drop 2)),
      { conn with request := request })
  else .error .assertion

/-- `ERROR_REPLY` of `spy_handle_write`; the read event stays registered. -/
def handleWriteError (s : Server) (c : Nat) (conn : Connection) (fid : UInt64) (size : Nat)
    (error : SpyError) : Server :=
  let s := s.count fun t => { t with writeError := u64 (t.writeError + 1) }
  (s.setConn c (errorReply conn error)).answer (.write c fid error (conn.payload size))

/-- The job of a WRITE before it has a chunk. -/
def writeJob (slot c : Nat) (fid : UInt64) (size : Nat) : IoJob :=
  { IoJob.blank slot with
    fn := .write
    conn := c
    file := ⟨fid, 1, size, 0, 0⟩ }

/-- The part of `spy_handle_write` behind the duplicate check: a chunk or a place
among the pending writes, then a job. A chunk is moved before it is known that
there is a job for it. -/
def placeWrite (s : Server) (c : Nat) (conn : Connection) (fid : UInt64) (size now : Nat) :
    Server :=
  let chunk := s.chunks.find? fun id => s.fits id size
  if chunk = none ∧ s.pendingWritesSize ≥ defMaxPendingWrites then
    handleWriteError s c conn fid size .chunkUnavailable
  else
    let s := match chunk with
      | some id => { s with chunks := s.chunks.erase id, writingChunks := id :: s.writingChunks }
      | none => s
    match s.freeIoJobs with
    | [] => handleWriteError s c conn fid size .ioJobUnavailable
    | slot :: rest =>
      let job := writeJob slot c fid size
      let s := { s with freeIoJobs := rest }.setConn c { conn with readable := false }
      match chunk with
      | some id =>
        let s := s.count fun t =>
          { t with writeCount := u64 (t.writeCount + 1), writingCount := u32 (t.writingCount + 1) }
        spyQueueWork s (.io { job with offset := (s.chunk id).currentOffset, chunk := id })
      | none =>
        { s with
          pendingWrites := s.pendingWrites ++ [{ job with reqTime := now }]
          pendingWritesSize := u32 (s.pendingWritesSize + 1) }

def spyHandleWrite (cfg : Config) (s : Server) (c : Nat) (conn : Connection) (env : Env) :
    Except Fault Server := do
  if conn.bodyLen < reqInnerHdrSize then throw .assertion
  let bodyLen := conn.bodyLen - 8 - 2
  let (serverId, fid, conn) ← readInnerHdr conn
  if serverId ≠ cfg.serverId then
    return handleWriteError s c conn fid bodyLen .serverIdMismatch
  match spyLookupFileIndex s.fileIndex fid with
  | some _ => return handleWriteError s c conn fid bodyLen .fileExists
  | none => return placeWrite s c conn fid bodyLen env.now

def handleReadError (s : Server) (c : Nat) (conn : Connection) (fid : UInt64)
    (error : SpyError) : Server :=
  let s := s.count fun t => { t with readError := u64 (t.readError + 1) }
  (s.setConn c (errorReply conn error)).answer (.read c fid error 0 [])

/-- `chunk` is never initialised: an entry whose chunk is not in the index makes
the handler use whatever the variable holds. -/
def spyHandleRead (cfg : Config) (s : Server) (c : Nat) (conn : Connection) (env : Env) :
    Except Fault Server := do
  let (serverId, fid, conn) ← readInnerHdr conn
  if serverId ≠ cfg.serverId then return handleReadError s c conn fid .serverIdMismatch
  match spyLookupFileIndex s.fileIndex fid with
  | none => return handleReadError s c conn fid .fileNotFound
  | some entry =>
    match s.chunkIndex.find? fun id => (s.chunk id).chunkId == entry.chunkId with
    | none => throw .wildPointer
    | some id =>
      match expandTo entry.size env.calloc (entry.size / memBlockRoom + 1) s.mem conn.rspBody with
      | (mem, rspBody, false) =>
        return handleReadError { s with mem := mem } c { conn with rspBody := rspBody } fid
          .reachMemoryLimit
      | (mem, rspBody, true) =>
        let s := { s with mem := mem }
        let conn := { conn with rspBody := rspBody }
        match s.freeIoJobs with
        | [] => return handleReadError s c conn fid .ioJobUnavailable
        | slot :: rest =>
          let job := { IoJob.blank slot with
            fn := .read
            conn := c
            chunk := id
            indexEntry := entry }
          let s := { s with freeIoJobs := rest }.setConn c { conn with readable := false }
          let s := s.count fun t =>
            { t with readCount := u64 (t.readCount + 1), readingCount := u32 (t.readingCount + 1) }
          return spyQueueWork s (.io job)

/-- `chunk` is never initialised here either. -/
def spyHandleCheckDisk (s : Server) (c : Nat) (conn : Connection) (env : Env) :
    Except Fault Server :=
  let chunkId := UInt64.ofNat (env.rand % s.nChunks + 1)
  match s.chunkIndex.find? fun id => (s.chunk id).chunkId == chunkId with
  | none => .error .wildPointer
  | some id =>
    match s.freeIoJobs with
    | [] =>
      .ok ((s.setConn c (errorReply conn .ioJobUnavailable)).answer
        (.other c conn.opcode .ioJobUnavailable))
    | slot :: rest =>
      let job := { IoJob.blank slot with fn := .check, conn := c, chunk := id }
      .ok (spyQueueWork ({ s with freeIoJobs := rest }.setConn c { conn with readable := false })
        (.io job))

/-- `spy_string_ends_with` -/
def spyStringEndsWith (str suffix : Bytes) : Bool :=
  decide (suffix.length ≤ str.length) && (str.drop (str.length - suffix.length) == suffix)

def spyDumpChunk (s : Server) (c : Nat) (conn : Connection) (env : Env) : Except Fault Server :=
  let fail := fun (conn : Connection) (error : SpyError) =>
    Except.ok ((s.setConn c (errorReply conn error)).answer (.other c conn.opcode error))
  if conn.bodyLen ≥ chunkFilenameLenMax then fail conn .internalError
  else
    let (name, request) := spyRwBufferReadN conn.request conn.bodyLen
    let conn := { conn with request := request }
    if name.length = conn.bodyLen then
      -- a string ends at its first zero byte
      let buf : Bytes := 47 :: name.takeWhile (· ≠ 0)
      match s.chunks.find? fun id => spyStringEndsWith (s.path id) buf with
      | none => fail conn .fileNotFound
      | some id =>
        if env.fcntl then
          .ok (spyQueueWork (s.setConn c { conn with readable := false })
            (.dump ⟨c, id, name, 0⟩))
        else fail conn .internalError
    else .error .assertion

/-! ## Receiving and sending -/

/-- `RECEIVE_HDR` to `RECEIVE_BODY` once the five header bytes are there. -/
def receiveHdr (conn : Connection) : Except Fault Connection :=
  if conn.state = .receiveHdr ∧ conn.request.writePos - conn.request.readPos ≥ reqHdrSize then
    let (buf, request) := spyRwBufferReadN conn.request reqHdrSize
    if buf.length = reqHdrSize then
      .ok { conn with
        request := request
        opcode := spyMachReadFrom1 buf
        bodyLen := spyMachReadFrom4 (buf.drop 1)
        state := .receiveBody }
    else .error .assertion
  else .ok conn

/-- `RECEIVE_BODY` to `PROCESS_REQUEST` once the body is there. -/
def receiveBody (conn : Connection) : Connection :=
  if conn.state = .receiveBody ∧
      conn.request.writePos - conn.request.readPos ≥ conn.bodyLen then
    { conn with state := .processRequest }
  else conn

def dispatch (cfg : Config) (s : Server) (c : Nat) (conn : Connection) (env : Env) :
    Except Fault Server :=
  match Opcode.ofByte conn.opcode with
  | some .write => spyHandleWrite cfg s c conn env
  | some .read => spyHandleRead cfg s c conn env
  | some .ping => .ok (spyHandlePing s c conn)
  | some .checkDisk => spyHandleCheckDisk s c conn env
  | some .killPdWr => spyKillPendingWrites (s.setConn c conn) c
  | some .queryIoStatus => spyQueryIoStatus s c conn env
  | some .queryDetailInfos => spyQueryDetailInfos s c conn env
  | some .dumpChunk => spyDumpChunk s c conn env
  | none => .ok (spyFreeClientConnection s c conn)

def spyProcessReceiveBuffer (cfg : Config) (s : Server) (c : Nat) (conn : Connection) (env : Env) :
    Except Fault Server := do
  let conn ← receiveHdr conn
  let conn := receiveBody conn
  if conn.state = .processRequest then dispatch cfg s c conn env
  else return s.setConn c conn

/-- The outcome of `read()` on a socket; the bytes are cut to what it asks for. -/
inductive SockRead where
  | data (bs : Bytes)
  | eagain
  | eof
  | error
  deriving DecidableEq, Repr

/-- The room the next `read()` may fill; one block is added if there is none. -/
def writeableArea (s : Server) (request : RwBuffer) (calloc : Bool) :
    Option (MemBlocks × RwBuffer × Nat) :=
  match spyRwBufferNextWriteable request with
  | some len => some (s.mem, request, len)
  | none =>
    match spyRwBufferExpand s.mem request calloc with
    | none => none
    | some (mem, request) =>
      (spyRwBufferNextWriteable request).map fun len => (mem, request, len)

def spyReadHandler (cfg : Config) (s : Server) (c : Nat) (conn : Connection) (r : SockRead)
    (env : Env) : Except Fault Server :=
  match writeableArea s conn.request env.calloc with
  | none => .ok (spyFreeClientConnection s c conn)
  | some (mem, request, len) =>
    let s := { s with mem := mem }
    let conn := { conn with request := request }
    match r with
    | .eagain => .ok (s.setConn c conn)
    | .eof => .ok (spyFreeClientConnection s c conn)
    | .error => .ok (spyFreeClientConnection s c conn)
    | .data bs =>
      if (bs.take len).length = 0 then .ok (spyFreeClientConnection s c conn)
      else
        spyProcessReceiveBuffer cfg s c { conn with request := request.put (bs.take len) } env

/-- The outcome of `write()` on a socket; a count is cut to what it was given. -/
inductive SockWrite where
  | sent (n : Nat)
  | eagain
  | error
  deriving DecidableEq, Repr

/-- `RSP_HDR_SIZE + conn->body_len - conn->sentlen` as an `int` -/
def Connection.remaining (conn : Connection) : Int :=
  i32 (u32 (rspHdrSize + conn.bodyLen - conn.sentlen))

/-- How much the next `write()` is given: the rest of the header, or what one block
holds of the body; `none` once nothing remains. -/
def Connection.nextSend (conn : Connection) : Except Fault (Option Nat) :=
  if conn.remaining > 0 then
    if conn.sentlen < rspHdrSize then .ok (some (rspHdrSize - conn.sentlen).toNat)
    else match spyRwBufferNextReadable conn.rspBody with
      | none => .error .assertion
      | some area => .ok (some (area.take conn.remaining.toNat).length)
  else .ok none

/-- `nwritten` bytes more are sent. -/
def Connection.sent (conn : Connection) (nwritten : Nat) : Connection :=
  if conn.sentlen < rspHdrSize then { conn with sentlen := conn.sentlen + nwritten }
  else { conn with rspBody := conn.rspBody.skip nwritten, sentlen := conn.sentlen + nwritten }

/-- Behind the loop -/
def sendEnd (s : Server) (c : Nat) (conn : Connection) : Server :=
  if conn.sentlen = rspHdrSize + conn.bodyLen then spyResetClientConnection s c conn
  else s.setConn c conn

/-- `while (remaining > 0)`; when the results run out the socket is full. -/
def sendLoop (s : Server) (c : Nat) : List SockWrite → Connection → Except Fault Server
  | [], conn => match conn.nextSend with
    | .error e => .error e
    | .ok none => .ok (sendEnd s c conn)
    | .ok (some _) => .ok (s.setConn c conn)
  | r :: results, conn => match conn.nextSend with
    | .error e => .error e
    | .ok none => .ok (sendEnd s c conn)
    | .ok (some len) => match r with
      | .eagain => .ok (s.setConn c conn)
      | .error => .ok (spyFreeClientConnection s c conn)
      | .sent n => sendLoop s c results (conn.sent (min (max n 1) len))

/-- `spy_write_handler` -/
def spyWriteHandler (s : Server) (c : Nat) (conn : Connection) (results : List SockWrite) :
    Except Fault Server :=
  sendLoop s c results conn

/-! ## Workers -/

/-- The outcome of one I/O call of a worker. -/
inductive WorkerIo where
  | pwrite (io : Pwrite) (now : Nat)
  | pread (io : Pread)
  | send (retcode : Int)
  deriving DecidableEq, Repr

/-- A worker takes the first queued job. -/
def workerStart (s : Server) : Except Fault Server :=
  match s.queued with
  | [] => .error .disabled
  | work :: rest => .ok { s with queued := rest, running := s.running ++ [(work, work.begin)] }

/-- The `i`-th busy worker makes one I/O call. -/
def workerStep (s : Server) (i : Nat) (io : WorkerIo) : Except Fault Server :=
  match s.running[i]?, io with
  | some (.io job, .write pc), .pwrite io now => do
    let conn ← s.conn job.conn
    match spyWriteFileStep job.file job.offset io now
        ⟨pc, s.disk job.chunk, s.chunk job.chunk, conn.request⟩ with
    | none => throw .assertion
    | some r =>
      return { s with
        disk := Function.update s.disk job.chunk r.disk
        chunk := Function.update s.chunk job.chunk r.chunk
        running := s.running.set i (.io job, .write r.pc) }.setConn job.conn
          { conn with request := r.request }
  | some (.io job, .read pc), .pread io => do
    let conn ← s.conn job.conn
    match spyReadFileStep job.indexEntry (s.disk job.chunk) io ⟨pc, conn.rspBody, job.file⟩ with
    | none => throw .assertion
    | some r =>
      return { s with
        running := s.running.set i (.io { job with file := r.file }, .read r.pc) }.setConn job.conn
          { conn with rspBody := r.rspBody }
  | some (.io job, .single none), .pread io =>
    .ok { s with running := s.running.set i (.io job, .single (some (spyCheckChunk io))) }
  | some (.dump job, .single none), .send retcode =>
    .ok { s with running := s.running.set i (.dump job, .single (some retcode)) }
  | _, _ => .error .disabled

/-- The `i`-th busy worker hands its finished job back. -/
def workerFinish (s : Server) (i : Nat) : Except Fault Server :=
  match s.running[i]? with
  | none => .error .disabled
  | some (work, progress) =>
    match progress.retcode with
    | none => .error .disabled
    | some retcode =>
      .ok { s with
        running := s.running.eraseIdx i
        finished := s.finished ++ [work.setRetcode retcode] }

/-- One round of `spy_wq_thread_done` -/
def spyWqThreadDone (s : Server) (fcntl : Bool) : Except Fault Server :=
  match s.finished with
  | [] => .error .disabled
  | work :: rest =>
    let s := { s with finished := rest }
    match work with
    | .dump job => spyDumpChunkfileDone s job fcntl
    | .io job => match job.fn with
      | .write => spyWriteFileDone s job
      | .read => spyReadFileDone s job
      | .check => spyCheckChunkDone s job

/-! ## Events -/

inductive Event where
  | accept
  | readable (c : Nat) (r : SockRead) (env : Env)
  | writable (c : Nat) (results : List SockWrite)
  | start
  | io (i : Nat) (io : WorkerIo)
  | finish (i : Nat)
  | done (fcntl : Bool)
  | cron (now : Nat)
  deriving DecidableEq, Repr

def spyCreateClientConnection (s : Server) : Server :=
  { s with
    nextConn := s.nextConn + 1
    statistic := { s.statistic with connCount := u32 (s.statistic.connCount + 1) } }.setConn
      s.nextConn .new

/-- A socket event only comes for a live connection that is registered for it. -/
def step (cfg : Config) (s : Server) : Event → Except Fault Server
  | .accept => .ok (spyCreateClientConnection s)
  | .readable c r env => match s.conns c with
    | none => .error .disabled
    | some conn => if conn.readable then spyReadHandler cfg s c conn r env else .error .disabled
  | .writable c results => match s.conns c with
    | none => .error .disabled
    | some conn => if conn.writable then spyWriteHandler s c conn results else .error .disabled
  | .start => workerStart s
  | .io i io => workerStep s i io
  | .finish i => workerFinish s i
  | .done fcntl => spyWqThreadDone s fcntl
  | .cron now => spyRemoveTimeoutPendingWrites s now

end Speedy.Chunkserver
