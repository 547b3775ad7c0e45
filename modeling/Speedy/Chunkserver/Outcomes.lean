import Speedy.Chunkserver.Ledger
import Speedy.Lib.Except

/-! # The ways an event can go

Every handler is taken apart here once: each lemma lists what a call that returns can have
done. The proofs about events go through these lists. -/
namespace Speedy.Chunkserver
open Speedy.Lib

def Answer.conn : Answer → Nat
  | .write c _ _ _ => c
  | .read c _ _ _ _ => c
  | .other c _ _ => c

def Answer.error : Answer → SpyError
  | .write _ _ error _ => error
  | .read _ _ error _ _ => error
  | .other _ _ error => error

/-- What is counted when a handler refuses a request. -/
def Answer.refusal : Answer → Statistic → Statistic
  | .write _ _ _ _ => fun t => { t with writeError := u64 (t.writeError + 1) }
  | .read _ _ _ _ _ => fun t => { t with readError := u64 (t.readError + 1) }
  | .other _ _ _ => id

/-- The entry of `server.free_io_jobs` that a job takes up. -/
def slotOf : Work × Stage → Option Nat
  | (.io job, _) => some job.slot
  | (.dump _, _) => none

/-! ## Blocks -/

/-- `n` blocks have been taken, from the free list or newly allocated. -/
structure Draws (m m' : MemBlocks) (n : Nat) : Prop where
  used : m'.used = m.used + n
  total : m.used + m.free = m.alloc → m'.used + m'.free = m'.alloc
  alloc : m'.alloc ≤ max m.alloc m.limit
  limit : m'.limit = m.limit

theorem Draws.refl (m : MemBlocks) : Draws m m 0 := ⟨rfl, id, Nat.le_max_left _ _, rfl⟩

theorem Draws.trans {m m' m'' : MemBlocks} {j k : Nat} (h : Draws m m' j) (h' : Draws m' m'' k) :
    Draws m m'' (j + k) := by
  refine ⟨?_, fun ht => h'.total (h.total ht), ?_, h'.limit.trans h.limit⟩
  · rw [h'.used, h.used, Nat.add_assoc]
  · have h1 := h.alloc
    have h2 := h'.alloc
    have h3 := h.limit
    omega

theorem spyRwBufferExpand_draws {mem mem' : MemBlocks} {b b' : RwBuffer} {calloc : Bool}
    (h : spyRwBufferExpand mem b calloc = some (mem', b')) :
    Draws mem mem' 1 ∧ b' = { b with blocks := b.blocks + 1 } := by
  unfold spyRwBufferExpand at h
  split at h
  · split at h
    · cases h
    · rename_i hfree hlim
      split at h
      · obtain ⟨rfl, rfl⟩ := Prod.mk.inj (Option.some.inj h)
        refine ⟨⟨rfl, ?_, ?_, rfl⟩, rfl⟩
        · intro ht
          show mem.used + 1 + mem.free = mem.alloc + 1
          omega
        · show mem.alloc + 1 ≤ _
          omega
      · cases h
  · rename_i hfree
    obtain ⟨rfl, rfl⟩ := Prod.mk.inj (Option.some.inj h)
    refine ⟨⟨rfl, ?_, Nat.le_max_left _ _, rfl⟩, rfl⟩
    intro ht
    show mem.used + 1 + (mem.free - 1) = mem.alloc
    omega

/-- The blocks of a response buffer after the expansion loop. -/
theorem expandTo_draws (size : Nat) (calloc : Bool) (n : Nat) {mem mem' : MemBlocks}
    {b b' : RwBuffer} {done : Bool} (h : expandTo size calloc n mem b = (mem', b', done)) :
    ∃ k, Draws mem mem' k ∧ b' = { b with blocks := b.blocks + k } ∧
      (done = true → size ≤ b'.cap) := by
  induction n generalizing mem b with
  | zero =>
    obtain ⟨rfl, hrest⟩ := Prod.mk.inj h
    obtain ⟨rfl, rfl⟩ := Prod.mk.inj hrest
    exact ⟨0, .refl _, rfl, fun hd => by simpa using hd⟩
  | succ n ih =>
    unfold expandTo at h
    split at h
    · cases hx : spyRwBufferExpand mem b calloc with
      | none =>
        rw [hx] at h
        obtain ⟨rfl, hrest⟩ := Prod.mk.inj h
        obtain ⟨rfl, rfl⟩ := Prod.mk.inj hrest
        exact ⟨0, .refl _, rfl, fun hd => absurd hd Bool.false_ne_true⟩
      | some x =>
        obtain ⟨mem1, b1⟩ := x
        rw [hx] at h
        obtain ⟨hd, rfl⟩ := spyRwBufferExpand_draws hx
        obtain ⟨k, hk, rfl, hcap⟩ := ih h
        refine ⟨1 + k, hd.trans hk, ?_, hcap⟩
        simp only [Nat.add_assoc]
    · rename_i hge
      obtain ⟨rfl, hrest⟩ := Prod.mk.inj h
      obtain ⟨rfl, rfl⟩ := Prod.mk.inj hrest
      exact ⟨0, .refl _, rfl, fun _ => Nat.le_of_not_lt hge⟩

/-- The blocks of a request buffer that the next `read()` may fill. -/
theorem writeableArea_draws {s : Server} {b b' : RwBuffer} {calloc : Bool} {mem : MemBlocks}
    {len : Nat} (h : writeableArea s b calloc = some (mem, b', len)) :
    ∃ k, Draws s.mem mem k ∧ b' = { b with blocks := b.blocks + k } ∧
      spyRwBufferNextWriteable b' = some len := by
  unfold writeableArea at h
  split at h
  · rename_i n hn
    obtain ⟨rfl, hrest⟩ := Prod.mk.inj (Option.some.inj h)
    obtain ⟨rfl, rfl⟩ := Prod.mk.inj hrest
    exact ⟨0, .refl _, rfl, hn⟩
  · split at h
    · cases h
    · rename_i mem1 b1 hexp
      obtain ⟨hd, rfl⟩ := spyRwBufferExpand_draws hexp
      obtain ⟨n, hn, hx⟩ := Option.map_eq_some_iff.mp h
      obtain ⟨rfl, hrest⟩ := Prod.mk.inj hx
      obtain ⟨rfl, rfl⟩ := Prod.mk.inj hrest
      exact ⟨1, hd, rfl, hn⟩

/-! ## Pending writes -/

theorem Server.conn_ok {s : Server} {c : Nat} {conn : Connection} (h : s.conn c = .ok conn) :
    s.conns c = some conn := by
  unfold Server.conn at h
  split at h
  · rename_i heq
    rw [heq, Except.ok.inj h]
  · cases h

/-- The first pending write has left with an error. -/
def Server.drop (s : Server) (job : IoJob) (rest : List IoJob) (conn : Connection)
    (error : SpyError) : Server :=
  (({ s with
    pendingWrites := rest
    pendingWritesSize := u32 (s.pendingWritesSize - 1) }.setConn job.conn
      (errorReply conn error)).answer
      (.write job.conn job.file.fid error (conn.payload job.file.size))).freeIoJob job

/-- Pending writes are dropped from the front. -/
inductive Drops : Server → Server → Prop
  | stop {s : Server} : Drops s s
  | drop {s s' : Server} {job : IoJob} {rest : List IoJob} {conn : Connection} (error : SpyError)
      (first : s.pendingWrites = job :: rest) (live : s.conns job.conn = some conn)
      (failed : error ≠ .success) (more : Drops (s.drop job rest conn error) s') : Drops s s'

theorem dropPending_ok {s s' : Server} {job : IoJob} {rest : List IoJob} {error : SpyError}
    (hs : dropPending s job rest error = .ok s') :
    ∃ conn, s.conns job.conn = some conn ∧ s' = s.drop job rest conn error := by
  obtain ⟨conn, hc, hs⟩ := bind_eq_ok hs
  exact ⟨conn, Server.conn_ok hc, (Except.ok.inj hs).symm⟩

theorem killLoop_drops {s s' : Server} (jobs : List IoJob) (hp : s.pendingWrites = jobs)
    (hs : killLoop jobs s = .ok s') : Drops s s' := by
  induction jobs generalizing s with
  | nil => exact Except.ok.inj hs ▸ .stop
  | cons job rest ih =>
    obtain ⟨t, hd, hs⟩ := bind_eq_ok hs
    obtain ⟨conn, hc, rfl⟩ := dropPending_ok hd
    exact .drop .killed hp hc nofun (ih rfl hs)

theorem timeoutLoop_drops {s s' : Server} {now : Nat} (jobs : List IoJob)
    (hp : s.pendingWrites = jobs) (hs : timeoutLoop now jobs s = .ok s') : Drops s s' := by
  induction jobs generalizing s with
  | nil => exact Except.ok.inj hs ▸ .stop
  | cons job rest ih =>
    unfold timeoutLoop at hs
    split at hs
    · exact Except.ok.inj hs ▸ .stop
    · obtain ⟨t, hd, hs⟩ := bind_eq_ok hs
      obtain ⟨conn, hc, rfl⟩ := dropPending_ok hd
      exact .drop .chunkUnavailable hp hc nofun (ih rfl hs)

theorem spyRemoveTimeoutPendingWrites_drops {s s' : Server} {now : Nat}
    (hs : spyRemoveTimeoutPendingWrites s now = .ok s') : Drops s s' := by
  unfold spyRemoveTimeoutPendingWrites at hs
  split at hs
  · exact Except.ok.inj hs ▸ .stop
  · split at hs
    · cases hs
    · exact timeoutLoop_drops _ rfl hs

/-! ## Requests -/

section Requests
variable {cfg : Config} {s s' : Server} {c : Nat} {conn conn' : Connection} {env : Env}

/-- The inner header is read whole, and of the connection only the request changes. -/
theorem readInnerHdr_conn {v : Nat × UInt64 × Connection} (hs : readInnerHdr conn = .ok v) :
    (conn.request.unread.take reqInnerHdrSize).length = reqInnerHdrSize ∧
      v.2.2 = { conn with request := (spyRwBufferReadN conn.request reqInnerHdrSize).2 } := by
  unfold readInnerHdr at hs
  simp only at hs
  split at hs
  · rename_i hbuf
    obtain rfl := Except.ok.inj hs
    exact ⟨hbuf, rfl⟩
  · cases hs

/-- A response with a body, as the two reply functions leave it. -/
def bodyReply (conn : Connection) (n : Nat) (b : RwBuffer) : Connection :=
  spyReplyBody { spyReplyHeader { conn with error := .success, bodyLen := n } with
    rspBody := b
    state := .sendRsp }

/-- A handler's copy of the connection: it has read from the request and taken blocks for
the response. -/
inductive Prepares (mem : MemBlocks) (conn : Connection) : MemBlocks → Connection → Prop
  | mk {mem' : MemBlocks} {k : Nat} (n : Nat) (readable : Bool) (draws : Draws mem mem' k) :
      Prepares mem conn mem' { conn with
        request := (spyRwBufferReadN conn.request n).2
        rspBody := { conn.rspBody with blocks := conn.rspBody.blocks + k }
        readable := readable }

/-- A WRITE that names this server and a new file. -/
structure NewWrite (cfg : Config) (s : Server) (conn : Connection) (fid : UInt64) (size : Nat)
    (conn' : Connection) : Prop where
  opcode : Opcode.ofByte conn.opcode = some .write
  header : readInnerHdr conn = .ok (cfg.serverId, fid, conn')
  size_eq : size = conn.bodyLen - 8 - 2
  unstored : spyLookupFileIndex s.fileIndex fid = none

/-- What the handler of a request can do. -/
inductive Handles (cfg : Config) (s : Server) (c : Nat) (conn : Connection) (env : Env) :
    Server → Prop
  /-- it replies without a body -/
  | reply {mem : MemBlocks} {conn' : Connection} (a : Answer) (told : a.conn = c)
      (quiet : a.Quiet) (copy : Prepares s.mem conn mem conn') :
      Handles cfg s c conn env ((({ s with mem := mem }.count a.refusal).setConn c
        (errorReply conn' a.error)).answer a)
  /-- it replies to a query -/
  | body {mem : MemBlocks} {k : Nat} {b : RwBuffer} (body : Bytes) (draws : Draws s.mem mem k)
      (blocks : b = { conn.rspBody with blocks := conn.rspBody.blocks + k })
      (all : (spyRwBufferWriteN b body).1 = body.length) :
      Handles cfg s c conn env (({ s with mem := mem }.setConn c
        (bodyReply conn (u32 body.length) (spyRwBufferWriteN b body).2)).answer
        (.other c (bodyReply conn (u32 body.length) (spyRwBufferWriteN b body).2).opcode .success))
  /-- it queues a read -/
  | read {mem : MemBlocks} {conn' : Connection} {free : List Nat} (slot : Nat) (id : UInt64)
      (entry : IndexEntry) (copy : Prepares s.mem conn mem conn') (indexed : entry ∈ s.fileIndex)
      (found : s.chunkIndex.find? (fun id => (s.chunk id).chunkId == entry.chunkId) = some id)
      (room : entry.size ≤ conn'.rspBody.cap) (slots : s.freeIoJobs = slot :: free) :
      Handles cfg s c conn env (spyQueueWork
        (({ s with mem := mem, freeIoJobs := free }.setConn c
          { conn' with readable := false }).count fun t =>
            { t with readCount := u64 (t.readCount + 1), readingCount := u32 (t.readingCount + 1) })
        (.io { IoJob.blank slot with fn := .read, conn := c, chunk := id, indexEntry := entry }))
  /-- it queues a disk check or a dump -/
  | plain {conn' : Connection} {free : List Nat} (work : Work) (same : work.conn = c)
      (plain : work.Plain) (copy : Prepares s.mem conn s.mem conn')
      (slots : s.freeIoJobs = (slotOf (work, .queued)).toList ++ free) :
      Handles cfg s c conn env (spyQueueWork
        ({ s with freeIoJobs := free }.setConn c { conn' with readable := false }) work)
  /-- it queues a write to a free chunk -/
  | take {conn' : Connection} {free : List Nat} (slot : Nat) (id fid : UInt64) (size : Nat)
      (new : NewWrite cfg s conn fid size conn')
      (found : s.chunks.find? (fun id => s.fits id size) = some id)
      (slots : s.freeIoJobs = slot :: free) :
      Handles cfg s c conn env (spyQueueWork
        (({ s with
          chunks := s.chunks.erase id
          writingChunks := id :: s.writingChunks
          freeIoJobs := free }.setConn c { conn' with readable := false }).count fun t => { t with
            writeCount := u64 (t.writeCount + 1)
            writingCount := u32 (t.writingCount + 1) })
        (.io { writeJob slot c fid size with offset := (s.chunk id).currentOffset, chunk := id }))
  /-- it moves a chunk and finds no job for it -/
  | strand {conn' : Connection} (id fid : UInt64) (size : Nat)
      (new : NewWrite cfg s conn fid size conn')
      (found : s.chunks.find? (fun id => s.fits id size) = some id) (none : s.freeIoJobs = []) :
      Handles cfg s c conn env (handleWriteError
        { s with chunks := s.chunks.erase id, writingChunks := id :: s.writingChunks } c conn' fid
        size .ioJobUnavailable)
  /-- it finds no chunk, and the write has to wait -/
  | park {conn' : Connection} {free : List Nat} (slot : Nat) (fid : UInt64) (size : Nat)
      (new : NewWrite cfg s conn fid size conn')
      (full : s.chunks.find? (fun id => s.fits id size) = none)
      (room : s.pendingWritesSize < defMaxPendingWrites) (slots : s.freeIoJobs = slot :: free) :
      Handles cfg s c conn env
        { { s with freeIoJobs := free }.setConn c { conn' with readable := false } with
          pendingWrites := s.pendingWrites ++ [{ writeJob slot c fid size with reqTime := env.now }]
          pendingWritesSize := u32 (s.pendingWritesSize + 1) }
  /-- it answers the pending writes -/
  | kill {t : Server} {conn' : Connection} (drops : Drops (s.setConn c conn) t)
      (live : t.conns c = some conn') :
      Handles cfg s c conn env ((t.setConn c (errorReply conn' .success)).answer
        (.other c conn'.opcode .success))
  | free : Handles cfg s c conn env (spyFreeClientConnection s c conn)

/-- A copy of which nothing is read, and no block taken. -/
theorem Prepares.none (mem : MemBlocks) (conn : Connection) : Prepares mem conn mem conn :=
  .mk 0 conn.readable (.refl mem)

theorem Prepares.header {mem : MemBlocks} {v : Nat × UInt64 × Connection}
    (h : readInnerHdr conn = .ok v) : Prepares mem conn mem v.2.2 :=
  (readInnerHdr_conn h).2 ▸ .mk reqInnerHdrSize conn.readable (.refl mem)

theorem Prepares.unsent {mem mem' : MemBlocks} (copy : Prepares mem conn mem' conn') :
    conn'.state = conn.state ∧ conn'.sentlen = conn.sentlen := by
  cases copy
  exact ⟨rfl, rfl⟩

theorem placeWrite_handles {fid : UInt64} {size : Nat} (new : NewWrite cfg s conn fid size conn') :
    Handles cfg s c conn env (placeWrite s c conn' fid size env.now) := by
  have hcopy : Prepares s.mem conn s.mem conn' := .header new.header
  unfold placeWrite
  cases hfind : s.chunks.find? fun id => s.fits id size with
  | none =>
    simp only [true_and]
    split
    · exact .reply (.write c fid .chunkUnavailable (conn'.payload size)) rfl nofun hcopy
    · rename_i hroom
      split
      · exact .reply (.write c fid .ioJobUnavailable (conn'.payload size)) rfl nofun hcopy
      · rename_i slot free hslot
        exact .park slot fid size new hfind (Nat.lt_of_not_le hroom) hslot
  | some id =>
    simp only [reduceCtorEq, false_and, if_false]
    split
    · rename_i hnone
      exact .strand id fid size new hfind hnone
    · rename_i slot free hslot
      exact .take slot id fid size new hfind hslot

theorem spyHandleWrite_handles (hop : Opcode.ofByte conn.opcode = some .write)
    (hs : spyHandleWrite cfg s c conn env = .ok s') : Handles cfg s c conn env s' := by
  unfold spyHandleWrite at hs
  split at hs
  · cases hs
  · obtain ⟨⟨serverId, fid, conn'⟩, hin, hs⟩ := bind_eq_ok hs
    have hcopy : Prepares s.mem conn s.mem conn' := .header hin
    simp only at hs
    split at hs
    · obtain rfl := Except.ok.inj hs
      exact .reply (.write c fid .serverIdMismatch (conn'.payload _)) rfl nofun hcopy
    · rename_i hid
      obtain rfl := Decidable.not_not.mp hid
      split at hs
      · obtain rfl := Except.ok.inj hs
        exact .reply (.write c fid .fileExists (conn'.payload _)) rfl nofun hcopy
      · rename_i hnone
        obtain rfl := Except.ok.inj hs
        exact placeWrite_handles ⟨hop, hin, rfl, hnone⟩

theorem spyHandleRead_handles (hs : spyHandleRead cfg s c conn env = .ok s') :
    Handles cfg s c conn env s' := by
  unfold spyHandleRead at hs
  obtain ⟨⟨serverId, fid, conn'⟩, hin, hs⟩ := bind_eq_ok hs
  have hcopy : Prepares s.mem conn s.mem conn' := .header hin
  simp only at hs
  split at hs
  · obtain rfl := Except.ok.inj hs
    exact .reply (.read c fid .serverIdMismatch 0 []) rfl nofun hcopy
  · split at hs
    · obtain rfl := Except.ok.inj hs
      exact .reply (.read c fid .fileNotFound 0 []) rfl nofun hcopy
    · rename_i entry hentry
      split at hs
      · cases hs
      · rename_i id hid
        rcases hexp : expandTo entry.size env.calloc (entry.size / memBlockRoom + 1) s.mem
          conn'.rspBody with ⟨mem, rspBody, done⟩
        rw [hexp] at hs
        obtain ⟨k, hd, rfl, hcap⟩ := expandTo_draws _ _ _ hexp
        obtain ⟨-, rfl⟩ := readInnerHdr_conn hin
        have hcopy : Prepares s.mem conn mem _ := .mk reqInnerHdrSize conn.readable hd
        cases done with
        | false =>
          obtain rfl := Except.ok.inj hs
          exact .reply (.read c fid .reachMemoryLimit 0 []) rfl nofun hcopy
        | true =>
          simp only at hs
          split at hs
          · obtain rfl := Except.ok.inj hs
            exact .reply (.read c fid .ioJobUnavailable 0 []) rfl nofun hcopy
          · rename_i slot free hslot
            obtain rfl := Except.ok.inj hs
            exact .read slot id entry hcopy (List.mem_of_find?_eq_some hentry) hid (hcap rfl) hslot

theorem spyHandleCheckDisk_handles (hs : spyHandleCheckDisk s c conn env = .ok s') :
    Handles cfg s c conn env s' := by
  unfold spyHandleCheckDisk at hs
  simp only at hs
  split at hs
  · cases hs
  · rename_i id hid
    split at hs
    · obtain rfl := Except.ok.inj hs
      exact .reply (.other c conn.opcode .ioJobUnavailable) rfl trivial (.none _ conn)
    · rename_i slot free hslot
      obtain rfl := Except.ok.inj hs
      exact .plain (.io { IoJob.blank slot with fn := .check, conn := c, chunk := id }) rfl rfl
        (.none _ conn) hslot

theorem spyDumpChunk_handles (hs : spyDumpChunk s c conn env = .ok s') :
    Handles cfg s c conn env s' := by
  unfold spyDumpChunk at hs
  simp only at hs
  split at hs
  · obtain rfl := Except.ok.inj hs
    exact .reply (.other c conn.opcode .internalError) rfl trivial (.none _ conn)
  · have hcopy : Prepares s.mem conn s.mem _ := .mk conn.bodyLen conn.readable (.refl _)
    split at hs
    · split at hs
      · obtain rfl := Except.ok.inj hs
        exact .reply (.other c conn.opcode .fileNotFound) rfl trivial hcopy
      · rename_i id hid
        split at hs
        · obtain rfl := Except.ok.inj hs
          exact .plain (.dump ⟨c, id, (spyRwBufferReadN conn.request conn.bodyLen).1, 0⟩) rfl
            trivial hcopy rfl
        · obtain rfl := Except.ok.inj hs
          exact .reply (.other c conn.opcode .internalError) rfl trivial hcopy
    · cases hs

theorem replyWithBody_handles {body : Bytes} (hs : replyWithBody s c conn env body = .ok s') :
    Handles cfg s c conn env s' := by
  unfold replyWithBody at hs
  rcases hexp : expandTo body.length env.calloc (body.length / memBlockRoom + 1) s.mem
    conn.rspBody with ⟨mem, rspBody, done⟩
  rw [hexp] at hs
  obtain ⟨k, hd, rfl, -⟩ := expandTo_draws _ _ _ hexp
  cases done with
  | false =>
    obtain rfl := Except.ok.inj hs
    exact .reply (.other c conn.opcode .reachMemoryLimit) rfl trivial (.mk 0 conn.readable hd)
  | true =>
    simp only at hs
    split at hs
    · rename_i hall
      obtain rfl := Except.ok.inj hs
      exact .body body hd rfl hall
    · cases hs

theorem dispatch_handles (hs : dispatch cfg s c conn env = .ok s') :
    Handles cfg s c conn env s' := by
  unfold dispatch at hs
  split at hs
  · rename_i hop
    exact spyHandleWrite_handles hop hs
  · exact spyHandleRead_handles hs
  · obtain rfl := Except.ok.inj hs
    exact .reply (.other c conn.opcode .success) rfl trivial (.mk 0 false (.refl _))
  · exact spyHandleCheckDisk_handles hs
  · obtain ⟨t, hk, hs⟩ := bind_eq_ok hs
    obtain ⟨conn', hc, hs⟩ := bind_eq_ok hs
    obtain rfl := Except.ok.inj hs
    exact .kill (killLoop_drops _ rfl hk) (Server.conn_ok hc)
  · exact replyWithBody_handles hs
  · unfold spyQueryDetailInfos at hs
    simp only at hs
    split at hs
    · exact replyWithBody_handles hs
    · cases hs
  · exact spyDumpChunk_handles hs
  · obtain rfl := Except.ok.inj hs
    exact .free

/-! ## Sockets -/

theorem step_readable_ok {r : SockRead} (hs : step cfg s (.readable c r env) = .ok s') :
    ∃ conn, s.conns c = some conn ∧ conn.readable = true ∧
      spyReadHandler cfg s c conn r env = .ok s' := by
  simp only [step] at hs
  split at hs
  · cases hs
  · rename_i conn hc
    split at hs
    · rename_i hread
      exact ⟨conn, hc, hread, hs⟩
    · cases hs

theorem step_writable_ok {results : List SockWrite}
    (hs : step cfg s (.writable c results) = .ok s') :
    ∃ conn, s.conns c = some conn ∧ conn.writable = true ∧
      sendLoop s c results conn = .ok s' := by
  simp only [step] at hs
  split at hs
  · cases hs
  · rename_i conn hc
    split at hs
    · rename_i hwrite
      exact ⟨conn, hc, hwrite, hs⟩
    · cases hs

/-- What the write handler can do. -/
inductive Sends (s : Server) (c : Nat) : Connection → Server → Prop
  | kept {conn : Connection} : Sends s c conn (s.setConn c conn)
  | reset {conn : Connection} : Sends s c conn (spyResetClientConnection s c conn)
  | freed {conn : Connection} : Sends s c conn (spyFreeClientConnection s c conn)
  | sent {conn : Connection} {s' : Server} {len n : Nat}
      (next : conn.nextSend = .ok (some len)) (le : n ≤ len) (more : Sends s c (conn.sent n) s') :
      Sends s c conn s'

theorem sendLoop_sends (results : List SockWrite) (hs : sendLoop s c results conn = .ok s') :
    Sends s c conn s' := by
  have hend : ∀ conn : Connection, Sends s c conn (sendEnd s c conn) := by
    intro conn
    unfold sendEnd
    split
    · exact .reset
    · exact .kept
  induction results generalizing conn with
  | nil =>
    unfold sendLoop at hs
    split at hs
    · cases hs
    · exact Except.ok.inj hs ▸ hend conn
    · exact Except.ok.inj hs ▸ .kept
  | cons r results ih =>
    unfold sendLoop at hs
    split at hs
    · cases hs
    · exact Except.ok.inj hs ▸ hend conn
    · rename_i len hnext
      split at hs
      · exact Except.ok.inj hs ▸ .kept
      · exact Except.ok.inj hs ▸ .freed
      · exact .sent hnext (Nat.min_le_right _ len) (ih hs)

/-! ## Workers -/

theorem workerStart_ok (hs : workerStart s = .ok s') :
    ∃ work rest, s.queued = work :: rest ∧
      s' = { s with queued := rest, running := s.running ++ [(work, work.begin)] } := by
  unfold workerStart at hs
  split at hs
  · cases hs
  · rename_i work rest hq
    exact ⟨work, rest, hq, (Except.ok.inj hs).symm⟩

theorem workerFinish_ok {i : Nat} (hs : workerFinish s i = .ok s') :
    ∃ work progress retcode, s.running[i]? = some (work, progress) ∧
      progress.retcode = some retcode ∧ s' = { s with
        running := s.running.eraseIdx i
        finished := s.finished ++ [work.setRetcode retcode] } := by
  unfold workerFinish at hs
  split at hs
  · cases hs
  · rename_i work progress hrun
    split at hs
    · cases hs
    · rename_i retcode hret
      exact ⟨work, progress, retcode, hrun, hret, (Except.ok.inj hs).symm⟩

/-- What an I/O call of the `i`-th busy worker can do. -/
inductive Advances (s : Server) (i : Nat) : WorkerIo → Server → Prop
  | write {job : IoJob} {pc : WritePc} {io : Pwrite} {now : Nat} {conn : Connection} {r : WriteRun}
      (running : s.running[i]? = some (.io job, .write pc))
      (live : s.conns job.conn = some conn)
      (call : spyWriteFileStep job.file job.offset io now
        ⟨pc, s.disk job.chunk, s.chunk job.chunk, conn.request⟩ = some r) :
      Advances s i (.pwrite io now) ({ s with
        disk := Function.update s.disk job.chunk r.disk
        chunk := Function.update s.chunk job.chunk r.chunk
        running := s.running.set i (.io job, .write r.pc) }.setConn job.conn
          { conn with request := r.request })
  | read {job : IoJob} {pc : ReadPc} {io : Pread} {conn : Connection} {r : ReadRun}
      (running : s.running[i]? = some (.io job, .read pc))
      (live : s.conns job.conn = some conn)
      (call : spyReadFileStep job.indexEntry (s.disk job.chunk) io
        ⟨pc, conn.rspBody, job.file⟩ = some r) :
      Advances s i (.pread io) ({ s with
        running := s.running.set i (.io { job with file := r.file }, .read r.pc) }.setConn job.conn
          { conn with rspBody := r.rspBody })
  | check {job : IoJob} (io : Pread) (running : s.running[i]? = some (.io job, .single none)) :
      Advances s i (.pread io)
        { s with running := s.running.set i (.io job, .single (some (spyCheckChunk io))) }
  | send {job : DumpJob} (retcode : Int)
      (running : s.running[i]? = some (.dump job, .single none)) :
      Advances s i (.send retcode)
        { s with running := s.running.set i (.dump job, .single (some retcode)) }

theorem workerStep_advances {i : Nat} {io : WorkerIo} (hs : workerStep s i io = .ok s') :
    Advances s i io s' := by
  unfold workerStep at hs
  split at hs
  · rename_i hrun
    obtain ⟨conn, hc, hs⟩ := bind_eq_ok hs
    split at hs
    · cases hs
    · rename_i r hr
      exact Except.ok.inj hs ▸ .write hrun (Server.conn_ok hc) hr
  · rename_i hrun
    obtain ⟨conn, hc, hs⟩ := bind_eq_ok hs
    split at hs
    · cases hs
    · rename_i r hr
      exact Except.ok.inj hs ▸ .read hrun (Server.conn_ok hc) hr
  · rename_i hrun
    exact Except.ok.inj hs ▸ .check _ hrun
  · rename_i hrun
    exact Except.ok.inj hs ▸ .send _ hrun
  · cases hs

/-! ## Done callbacks -/

/-- What the callback of a job can do; `conn` is the connection of the job. -/
inductive Completes (s : Server) (conn : Connection) : Work → Server → Prop
  /-- another write of the fid has been faster -/
  | writeLost {job : IoJob} {e : IndexEntry} (fn : job.fn = .write)
      (stored : spyLookupFileIndex s.fileIndex job.file.fid = some e) :
      Completes s conn (.io job) (writeDoneError
        (s.count fun t => { t with writingCount := u32 (t.writingCount - 1) })
        { conn with bodyLen := 0 } job .internalError)
  | writeFailed {job : IoJob} {t : Server} (fn : job.fn = .write)
      (unstored : spyLookupFileIndex s.fileIndex job.file.fid = none) (failed : job.retcode ≠ 0)
      (given : t = handOver
        (s.count fun t => { t with writingCount := u32 (t.writingCount - 1) }) job.chunk) :
      Completes s conn (.io job) (writeDoneError t { conn with bodyLen := 0 } job .writeError)
  | writeDone {job : IoJob} {t : Server} (fn : job.fn = .write)
      (unstored : spyLookupFileIndex s.fileIndex job.file.fid = none) (done : job.retcode = 0)
      (given : t = handOver
        (s.count fun t => { t with writingCount := u32 (t.writingCount - 1) }) job.chunk) :
      Completes s conn (.io job) (((({ t with
        statistic := { t.statistic with
          writeBytes := u64 (t.statistic.writeBytes + job.file.size) }
        fileIndex := ⟨(t.chunk job.chunk).chunkId, job.file.fid, job.offset,
          u32 (job.file.size + fileMetaSize)⟩ :: t.fileIndex } : Server).setConn job.conn
          (errorReply { conn with bodyLen := 0 } .success)).answer
          (.write job.conn job.file.fid .success (conn.payload job.file.size))).freeIoJob job)
  | readFailed {job : IoJob} (fn : job.fn = .read) (failed : job.retcode ≠ 0) :
      Completes s conn (.io job) ((((s.count fun t => { t with
        readingCount := u32 (t.readingCount - 1)
        readError := u64 (t.readError + 1) }).setConn job.conn
          (errorReply conn .readError)).answer
          (.read job.conn job.indexEntry.fid .readError 0 [])).freeIoJob job)
  | readDone {job : IoJob} {conn' : Connection} (fn : job.fn = .read) (done : job.retcode = 0)
      (reply : conn' = spyReplyBody { spyReplyHeader { conn with
        error := .success, bodyLen := job.file.size } with state := .sendRsp }) :
      Completes s conn (.io job) ((((s.count fun t => { t with
        readingCount := u32 (t.readingCount - 1)
        readBytes := u64 (t.readBytes + job.file.size) }).setConn job.conn conn').answer
          (.read job.conn job.indexEntry.fid .success job.file.size
            (conn'.rspBody.unread.take job.file.size))).freeIoJob job)
  | checked {job : IoJob} (fn : job.fn = .check) (error : SpyError) :
      Completes s conn (.io job) (((s.setConn job.conn (errorReply conn error)).answer
        (.other job.conn conn.opcode error)).freeIoJob job)
  | dumpReset (job : DumpJob) :
      Completes s conn (.dump job) (spyResetClientConnection s job.conn conn)
  | dumpFreed (job : DumpJob) :
      Completes s conn (.dump job) (spyFreeClientConnection s job.conn conn)

theorem spyWriteFileDone_completes {job : IoJob} (fn : job.fn = .write)
    (hs : spyWriteFileDone s job = .ok s') :
    ∃ conn, s.conns job.conn = some conn ∧ Completes s conn (.io job) s' := by
  obtain ⟨conn, hc, hs⟩ := bind_eq_ok hs
  refine ⟨conn, Server.conn_ok hc, ?_⟩
  simp only at hs
  split at hs
  · rename_i e he
    exact Except.ok.inj hs ▸ .writeLost fn he
  · rename_i hnone
    change spyLookupFileIndex s.fileIndex job.file.fid = none at hnone
    split at hs
    · rename_i hret
      exact Except.ok.inj hs ▸ .writeFailed fn hnone hret rfl
    · rename_i hret
      obtain rfl := Except.ok.inj hs
      exact .writeDone fn hnone (Decidable.not_not.mp hret) rfl

theorem spyReadFileDone_completes {job : IoJob} (fn : job.fn = .read)
    (hs : spyReadFileDone s job = .ok s') :
    ∃ conn, s.conns job.conn = some conn ∧ Completes s conn (.io job) s' := by
  obtain ⟨conn, hc, hs⟩ := bind_eq_ok hs
  refine ⟨conn, Server.conn_ok hc, ?_⟩
  simp only at hs
  split at hs
  · rename_i hret
    exact Except.ok.inj hs ▸ .readFailed fn hret
  · rename_i hret
    exact Except.ok.inj hs ▸ .readDone fn (Decidable.not_not.mp hret) rfl

theorem spyDumpChunkfileDone_completes {job : DumpJob} {fcntl : Bool}
    (hs : spyDumpChunkfileDone s job fcntl = .ok s') :
    ∃ conn, s.conns job.conn = some conn ∧ Completes s conn (.dump job) s' := by
  obtain ⟨conn, hc, hs⟩ := bind_eq_ok hs
  refine ⟨conn, Server.conn_ok hc, ?_⟩
  split at hs
  · exact Except.ok.inj hs ▸ .dumpFreed job
  · split at hs
    · exact Except.ok.inj hs ▸ .dumpReset job
    · exact Except.ok.inj hs ▸ .dumpFreed job

theorem spyWqThreadDone_completes {fcntl : Bool} (hs : spyWqThreadDone s fcntl = .ok s') :
    ∃ work rest conn, s.finished = work :: rest ∧ s.conns work.conn = some conn ∧
      Completes { s with finished := rest } conn work s' := by
  unfold spyWqThreadDone at hs
  split at hs
  · cases hs
  · rename_i work rest hf
    refine ⟨work, rest, ?_⟩
    simp only at hs
    split at hs
    · obtain ⟨conn, hc, h⟩ := spyDumpChunkfileDone_completes hs
      exact ⟨conn, hf, hc, h⟩
    · split at hs
      · rename_i fn
        obtain ⟨conn, hc, h⟩ := spyWriteFileDone_completes fn hs
        exact ⟨conn, hf, hc, h⟩
      · rename_i fn
        obtain ⟨conn, hc, h⟩ := spyReadFileDone_completes fn hs
        exact ⟨conn, hf, hc, h⟩
      · rename_i fn
        obtain ⟨conn, hc, hs⟩ := bind_eq_ok hs
        exact ⟨conn, hf, Server.conn_ok hc, Except.ok.inj hs ▸ .checked fn _⟩

end Requests
end Speedy.Chunkserver
