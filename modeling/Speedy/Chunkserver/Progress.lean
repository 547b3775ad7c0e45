import Speedy.Chunkserver.Framing
import Speedy.Chunkserver.Runs

/-! # Requests and writes that nothing holds up

A request that comes in whole blocks reaches its handler, and a write whose
`pwrite()`s succeed is committed and answered: the events to take are given by
induction on what is left. -/
namespace Speedy.Chunkserver
open Speedy.Lib Relation

/-- Some events lead from one state to the other. -/
abbrev Leads (cfg : Config) : Server → Server → Prop :=
  ReflTransGen fun s s' => ∃ e, step cfg s e = .ok s'

theorem Run.leads {cfg : Config} {s s' : Server} (h : Run cfg (fun _ _ _ => True) s)
    (hl : Leads cfg s s') : Run cfg (fun _ _ _ => True) s' := by
  induction hl with
  | refl => exact h
  | tail _ hs ih =>
    obtain ⟨e, hs⟩ := hs
    exact .next ih ⟨hs, trivial⟩

/-! ## Receiving whole blocks -/

/-- The pool that had `a` blocks, all of them free, after `n` have been taken. -/
def pool (a limit n : Nat) : MemBlocks := ⟨a - n, max a n, limit, n⟩

/-- The server while one connection is being served. -/
def Server.serving (s : Server) (c : Nat) (mem : MemBlocks) (conn : Connection) : Server :=
  { s with mem := mem }.setConn c conn

section Receive
variable {cfg : Config} {s : Server} {c : Nat} {mem mem' : MemBlocks} {conn conn' : Connection}
  {a limit n k : Nat} {bytes : Bytes}

theorem pool_expand (b : RwBuffer) (h : n < limit) :
    spyRwBufferExpand (pool a limit n) b true =
      some (pool a limit (n + 1), { b with blocks := b.blocks + 1 }) := by
  unfold spyRwBufferExpand pool
  by_cases hfree : a - n = 0
  · have hmax : max a n = n := Nat.max_eq_right (Nat.sub_eq_zero_iff_le.mp hfree)
    have hmax' : max a (n + 1) = n + 1 := by omega
    rw [if_pos hfree, if_neg (by rw [hmax]; exact Nat.not_le_of_lt h), if_pos rfl]
    simp only [hmax, hmax', hfree]
    rw [show a - (n + 1) = 0 by omega]
  · have hmax : max a n = a := by omega
    have hmax' : max a (n + 1) = a := by omega
    rw [if_neg hfree]
    simp only [hmax, hmax', Nat.sub_sub]

theorem serving_conns : (s.serving c mem conn).conns c = some conn := if_pos rfl

theorem serving_serving : Server.setConn { s.serving c mem conn with mem := mem' } c conn' =
    s.serving c mem' conn' := by
  unfold Server.serving Server.setConn
  simp only [Server.mk.injEq, true_and, and_true]
  funext i
  by_cases hi : i = c
  · rw [if_pos hi, if_pos hi]
  · rw [if_neg hi, if_neg hi, if_neg hi]

theorem serving_self (hc : s.conns c = some conn) (hm : s.mem = mem) :
    s.serving c mem conn = s := by
  subst hm
  unfold Server.serving Server.setConn
  congr 1
  funext i
  by_cases hi : i = c
  · rw [if_pos hi, hi, hc]
  · rw [if_neg hi]

/-- The next block, when the others are full. -/
theorem writeableArea_pool (s : Server) (c a : Nat) (conn : Connection)
    (hb : bytes.length = memBlockRoom * k) (hk : k < limit) (readPos : Nat) :
    writeableArea (s.serving c (pool a limit k) conn) ⟨bytes, readPos, k⟩ true =
      some (pool a limit (k + 1), ⟨bytes, readPos, k + 1⟩, memBlockRoom) := by
  have hnone : spyRwBufferNextWriteable ⟨bytes, readPos, k⟩ = none := if_pos hb
  have hmod : bytes.length % memBlockRoom = 0 := by rw [hb]; exact Nat.mul_mod_right _ _
  have hsome : spyRwBufferNextWriteable ⟨bytes, readPos, k + 1⟩ = some memBlockRoom := by
    unfold spyRwBufferNextWriteable RwBuffer.writePos RwBuffer.cap
    rw [if_neg]
    · rw [hmod, Nat.sub_zero]
    · simp only [hb, memBlockRoom]
      omega
  unfold writeableArea
  rw [hnone]
  simp only [Server.serving, Server.setConn]
  rw [pool_expand _ hk]
  simp only [hsome, Option.map_some]

/-- The bytes of the first `k` blocks of a request. -/
theorem take_block (bytes : Bytes) (k : Nat) :
    bytes.take (memBlockRoom * k) ++ (bytes.drop (memBlockRoom * k)).take memBlockRoom =
      bytes.take (memBlockRoom * (k + 1)) := by
  rw [Nat.mul_add, Nat.mul_one, List.take_add]

/-- All blocks of a request but the last one arrive. -/
theorem receives_blocks (hread : conn.readable = true) (hk : memBlockRoom * k < bytes.length)
    (hlimit : k ≤ limit) (hann : announced bytes = bytes.length - 5) :
    Leads cfg (s.serving c (pool a limit 0) (conn.received [] 0))
      (s.serving c (pool a limit k) (conn.received (bytes.take (memBlockRoom * k)) k)) := by
  induction k with
  | zero =>
    rw [Nat.mul_zero, List.take_zero]
  | succ k ih =>
    have hk' : memBlockRoom * k < bytes.length := by
      simp only [memBlockRoom] at hk ⊢
      omega
    refine (ih hk' (Nat.le_of_succ_le hlimit)).tail
      ⟨.readable c (.data (bytes.drop (memBlockRoom * k))) ⟨0, 0, true, true⟩, ?_⟩
    have hlen : (bytes.take (memBlockRoom * k)).length = memBlockRoom * k :=
      List.length_take_of_le (Nat.le_of_lt hk')
    have hpiece : (bytes.drop (memBlockRoom * k)).take memBlockRoom ≠ [] := by
      intro hnil
      have h0 := congrArg List.length hnil
      rw [List.length_take, List.length_drop, List.length_nil] at h0
      simp only [memBlockRoom] at h0 hk'
      omega
    have hpart : ¬ Complete (bytes.take (memBlockRoom * k) ++
        (bytes.drop (memBlockRoom * k)).take memBlockRoom) := by
      rw [take_block]
      rintro ⟨h5, hle⟩
      have hall : announced (bytes.take (memBlockRoom * (k + 1))) = bytes.length - 5 := by
        rw [← announced_append (bytes.drop (memBlockRoom * (k + 1))) h5,
          List.take_append_drop, hann]
      rw [List.length_take_of_le (Nat.le_of_lt hk)] at h5 hle
      rw [hall] at hle
      omega
    have harea := writeableArea_pool s c a (conn.received (bytes.take (memBlockRoom * k)) k) hlen
      hlimit (if (bytes.take (memBlockRoom * k)).length < 5 then 0 else 5)
    rw [← received_request conn] at harea
    rw [step_readable_incomplete serving_conns hread harea hpiece hpart, serving_serving,
      take_block]

/-- The last block calls the handler. -/
theorem receives_last (hread : conn.readable = true) (hk : memBlockRoom * k < bytes.length)
    (hk' : bytes.length ≤ memBlockRoom * (k + 1)) (hlimit : k < limit) (h5 : 5 ≤ bytes.length)
    (hann : announced bytes = bytes.length - 5) :
    step cfg (s.serving c (pool a limit k) (conn.received (bytes.take (memBlockRoom * k)) k))
        (.readable c (.data (bytes.drop (memBlockRoom * k))) ⟨0, 0, true, true⟩) =
      dispatch cfg { s.serving c (pool a limit k)
        (conn.received (bytes.take (memBlockRoom * k)) k) with mem := pool a limit (k + 1) } c
        (conn.called bytes (k + 1)) ⟨0, 0, true, true⟩ := by
  have hlen : (bytes.take (memBlockRoom * k)).length = memBlockRoom * k :=
    List.length_take_of_le (Nat.le_of_lt hk)
  have hrest :
      (bytes.drop (memBlockRoom * k)).take memBlockRoom = bytes.drop (memBlockRoom * k) := by
    refine List.take_of_length_le ?_
    rw [List.length_drop]
    simp only [memBlockRoom] at hk' ⊢
    omega
  have hpiece : (bytes.drop (memBlockRoom * k)).take memBlockRoom ≠ [] := by
    rw [hrest]
    intro hnil
    have h0 := congrArg List.length hnil
    rw [List.length_drop, List.length_nil] at h0
    omega
  have harea := writeableArea_pool s c a (conn.received (bytes.take (memBlockRoom * k)) k) hlen
    hlimit (if (bytes.take (memBlockRoom * k)).length < 5 then 0 else 5)
  rw [← received_request conn] at harea
  have hwhole : bytes.take (memBlockRoom * k) ++
      (bytes.drop (memBlockRoom * k)).take memBlockRoom = bytes := by
    rw [hrest, List.take_append_drop]
  rw [step_readable_complete serving_conns hread harea hpiece, hwhole]
  rw [hwhole]
  exact ⟨h5, Nat.le_of_eq hann⟩

end Receive

/-! ## Writes that succeed -/

section Sums
variable {b : RwBuffer} {len : Nat}

/-- There is a readable area as long as something is unread. -/
theorem spyRwBufferNextReadable_pos (hb : b.readPos ≤ b.writePos) (h : 0 < b.unread.length) :
    ∃ area, spyRwBufferNextReadable b = some area ∧ 0 < area.length ∧
      area.length ≤ b.unread.length := by
  cases hn : spyRwBufferNextReadable b with
  | none =>
    rw [spyRwBufferNextReadable_none hn] at h
    exact absurd h (Nat.lt_irrefl 0)
  | some area =>
    obtain ⟨n, _, harea, hne⟩ := spyRwBufferNextReadable_some hn hb
    refine ⟨area, rfl, List.length_pos_iff.mpr hne, ?_⟩
    rw [harea]
    exact List.length_take_le' n b.unread

/-- The checksum of bytes that are there can be computed. -/
theorem bufferSums_isSome (n : Nat) (st : Nat × Nat) (hb : b.readPos ≤ b.writePos)
    (h : len ≤ b.unread.length) : (bufferSums n st b len).isSome = true := by
  induction n generalizing st b len with
  | zero => rfl
  | succ n ih =>
    unfold bufferSums
    split
    · rename_i hpos
      obtain ⟨area, harea, hapos, hale⟩ :=
        spyRwBufferNextReadable_pos hb (Nat.lt_of_lt_of_le hpos h)
      rw [harea]
      have hm : (area.take len).length ≤ b.unread.length :=
        Nat.le_trans (List.length_take_le' len area) hale
      refine ih _ ?_ ?_
      · rw [unread_length] at hm
        show b.readPos + (area.take len).length ≤ b.writePos
        omega
      · rw [RwBuffer.skip_unread, List.length_drop]
        omega
    · rfl

theorem spyBufferAdler32_isSome (adler : Nat) (hb : b.readPos ≤ b.writePos)
    (h : len ≤ b.unread.length) : (spyBufferAdler32 adler b len).isSome = true := by
  unfold spyBufferAdler32
  rw [unread_length] at h
  rw [if_pos h, Option.isSome_map]
  exact bufferSums_isSome _ _ hb (by rw [unread_length]; exact h)

end Sums
section Write
variable {cfg : Config} {s : Server} {i : Nat} {job : IoJob} {conn : Connection}
  {file : SpyFile} {offset now : Nat} {request : RwBuffer} {chunk : Chunk} {disk : ByteStore}
  {pc : WritePc}

/-- The `pwrite()`s of a call that all succeed. -/
abbrev Stores (file : SpyFile) (offset now : Nat) : WriteRun → WriteRun → Prop :=
  ReflTransGen fun r r' => spyWriteFileStep file offset .full now r = some r'

/-- The rest of the body is stored. -/
theorem stores_body (left : Nat) {off : Nat} (hb : request.readPos ≤ request.writePos)
    (h : left ≤ request.unread.length) :
    ∃ disk', Stores file offset now ⟨bodyOrEnd off left, disk, chunk, request⟩
      ⟨.commit, disk', chunk, request.skip left⟩ := by
  induction left using Nat.strongRecOn generalizing off disk request with
  | ind left ih =>
    by_cases hz : left = 0
    · subst hz
      exact ⟨disk, .refl⟩
    · have hpos : 0 < left := Nat.pos_of_ne_zero hz
      obtain ⟨area, harea, hapos, hale⟩ :=
        spyRwBufferNextReadable_pos hb (Nat.lt_of_lt_of_le hpos h)
      obtain ⟨m, hm⟩ : ∃ m, m = (area.take left).length := ⟨_, rfl⟩
      have hlen := hm
      rw [List.length_take] at hlen
      have hskip : (request.skip m).readPos ≤ (request.skip m).writePos := by
        rw [unread_length] at hale
        show request.readPos + m ≤ request.writePos
        omega
      have hleft : left - m ≤ (request.skip m).unread.length := by
        rw [RwBuffer.skip_unread, List.length_drop]
        omega
      obtain ⟨disk', hrest⟩ : ∃ disk', Stores file offset now ⟨bodyOrEnd (off + m) (left - m : Nat),
          store disk off (area.take left), chunk, request.skip m⟩
          ⟨.commit, disk', chunk, (request.skip m).skip (left - m)⟩ :=
        ih (left - m) (by omega) hskip hleft
      refine ⟨disk', .head ?_ (b := ⟨bodyOrEnd (off + m) (left - m : Nat),
        store disk off (area.take left), chunk, request.skip m⟩) ?_⟩
      · have hbody : bodyOrEnd off left = .body off left := if_pos (by omega)
        rw [hbody]
        simp only [spyWriteFileStep, harea, Int.toNat_natCast, spyPwrite, if_true, ← hm]
        rw [Int.ofNat_sub (by omega)]
      · have hsum : (request.skip m).skip (left - m) = request.skip left := by
          simp only [RwBuffer.skip, Nat.add_assoc]
          rw [Nat.add_sub_cancel' (by omega)]
        rw [← hsum]
        exact hrest

/-- A call whose `pwrite()`s all succeed commits the record. -/
theorem stores_record (hb : request.readPos ≤ request.writePos)
    (h : file.size ≤ request.unread.length) (hsize : file.size < 2147483648) :
    ∃ disk', Stores file offset now ⟨.header, disk, chunk, request⟩
      ⟨.finished 0, disk', chunk.commit file.size, request.skip file.size⟩ := by
  obtain ⟨sum, hsum⟩ := Option.isSome_iff_exists.mp (spyBufferAdler32_isSome 0 hb h)
  obtain ⟨disk', hbody⟩ : ∃ disk', Stores file offset now
      ⟨bodyOrEnd (offset + fileMetaSize) file.size, store disk offset
        (fillFileMeta { file with checksum := sum, timestamp := now }), chunk, request⟩
      ⟨.commit, disk', chunk, request.skip file.size⟩ := stores_body file.size hb h
  have hheader : spyWriteFileStep file offset .full now ⟨.header, disk, chunk, request⟩ =
      some ⟨bodyOrEnd (offset + fileMetaSize) file.size, store disk offset
        (fillFileMeta { file with checksum := sum, timestamp := now }), chunk, request⟩ := by
    simp only [spyWriteFileStep, hsum, spyPwrite, if_true]
    rw [i32_of_range (by omega) (by omega)]
  exact ⟨_, .head hheader (hbody.tail rfl)⟩

/-- The server with its `i`-th worker in this state of `spy_write_file`. -/
def Server.writing (s : Server) (i : Nat) (job : IoJob) (conn : Connection) (r : WriteRun) :
    Server :=
  { s with
    disk := Function.update s.disk job.chunk r.disk
    chunk := Function.update s.chunk job.chunk r.chunk
    running := s.running.set i (.io job, .write r.pc) }.setConn job.conn
      { conn with request := r.request }

theorem writing_step (hi : i < s.running.length) {io : Pwrite} {r r' : WriteRun}
    (hs : spyWriteFileStep job.file job.offset io now r = some r') :
    step cfg (s.writing i job conn r) (.io i (.pwrite io now)) = .ok (s.writing i job conn r') := by
  have hrun : (s.writing i job conn r).running[i]? = some (.io job, .write r.pc) :=
    List.getElem?_set_self hi
  have hconn : (s.writing i job conn r).conn job.conn = .ok { conn with request := r.request } := by
    simp [Server.conn, Server.writing, Server.setConn]
  simp only [step, workerStep, hrun, hconn, bind, Except.bind]
  have hr : (⟨r.pc, (s.writing i job conn r).disk job.chunk,
      (s.writing i job conn r).chunk job.chunk, r.request⟩ : WriteRun) = r := by
    simp [Server.writing, Server.setConn]
  rw [hr, hs]
  simp only [Server.writing, Server.setConn, Function.update_idem, List.set_set]
  congr 2
  funext j
  by_cases hj : j = job.conn
  · rw [if_pos hj, if_pos hj]
  · rw [if_neg hj, if_neg hj, if_neg hj]

theorem Stores.leads (hi : i < s.running.length) {r r' : WriteRun}
    (hs : Stores job.file job.offset now r r') :
    Leads cfg (s.writing i job conn r) (s.writing i job conn r') := by
  induction hs with
  | refl => exact .refl
  | tail _ hstep ih => exact ih.tail ⟨_, writing_step hi hstep⟩

/-! ## Up to the answer -/

theorem writing_self (hc : s.conns job.conn = some conn) (hr : s.running = [(.io job, .write pc)]) :
    s.writing 0 job conn ⟨pc, s.disk job.chunk, s.chunk job.chunk, conn.request⟩ = s := by
  have hset : s.running.set 0 (.io job, .write pc) = s.running := by
    rw [hr]
    rfl
  unfold Server.writing Server.setConn
  simp only [Function.update_eq_self, hset]
  congr 1
  funext j
  by_cases hj : j = job.conn
  · rw [if_pos hj, hj, hc]
  · rw [if_neg hj]

/-- The only job is a write that nothing has been done of. -/
structure Alone (s : Server) (job : IoJob) (conn : Connection) : Prop where
  fn : job.fn = .write
  retcode : job.retcode = 0
  queued : s.queued = [.io job]
  running : s.running = []
  finished : s.finished = []
  pending : s.pendingWritesSize = 0
  live : s.conns job.conn = some conn
  unsent : conn.sentlen = 0
  new : spyLookupFileIndex s.fileIndex job.file.fid = none
  fits : conn.request.readPos ≤ conn.request.writePos
  loaded : job.file.size ≤ conn.request.unread.length

/-- The record is committed, and what was taken for the write is free again. -/
structure Answered (s : Server) (job : IoJob) (conn : Connection) (s' : Server) : Prop where
  live : ∃ conn' : Connection, s'.conns job.conn = some (conn'.received [] 0) ∧
    conn'.readable = true ∧ conn'.sentlen = 0 ∧ conn'.rspBody.blocks = 0
  mem : s'.mem = s.mem.giveBack conn.held
  chunk : s'.chunk = Function.update s.chunk job.chunk ((s.chunk job.chunk).commit job.file.size)
  chunks : s'.chunks = s.chunks ++ [job.chunk]
  slots : s'.freeIoJobs = job.slot :: s.freeIoJobs
  index : ∃ e, e.fid = job.file.fid ∧ s'.fileIndex = e :: s.fileIndex
  queued : s'.queued = []
  running : s'.running = []
  finished : s'.finished = []
  pending : s'.pendingWritesSize = 0

/-- The response is sent at once and the connection is reset. -/
theorem reply_is_sent {c : Nat} (hc : s.conns c = some (errorReply conn .success))
    (hz : conn.sentlen = 0) :
    step cfg s (.writable c [.sent 6]) =
      .ok (spyResetClientConnection s c { errorReply conn .success with sentlen := 6 }) := by
  have hw : (errorReply conn .success).writable = true := by
    simp [errorReply, spyReplyHeader, spySendResponseIfNeeded]
  have hsent : (errorReply conn .success).sentlen = 0 := by
    simp [errorReply, spyReplyHeader, spySendResponseIfNeeded, hz]
  have hbody : (errorReply conn .success).bodyLen = 0 := by
    simp [errorReply, spyReplyHeader, spySendResponseIfNeeded]
  generalize errorReply conn .success = reply at hc hw hsent hbody
  simp only [step, hc]
  rw [if_pos hw]
  unfold spyWriteHandler sendLoop
  have hnext : reply.nextSend = .ok (some 6) := by
    unfold Connection.nextSend Connection.remaining
    rw [hsent, hbody]
    rfl
  have hdone : reply.sent 6 = { reply with sentlen := 6 } := by
    unfold Connection.sent
    rw [hsent]
    rfl
  have hend : Connection.nextSend { reply with sentlen := 6 } = .ok none := by
    unfold Connection.nextSend Connection.remaining
    simp only [hbody]
    rfl
  rw [hnext]
  simp only
  rw [show min (max 6 1) 6 = 6 from rfl, hdone]
  unfold sendLoop
  rw [hend]
  unfold sendEnd
  rw [if_pos]
  rw [hbody]
  rfl

theorem write_is_finished (hr : s.running = [(.io job, .write (.finished 0))]) :
    step cfg s (.finish 0) = .ok { s with
      running := []
      finished := s.finished ++ [.io { job with retcode := 0 }] } := by
  simp only [step, workerFinish, hr, List.getElem?_cons_zero, Progress.retcode, Work.setRetcode,
    List.eraseIdx_zero, List.tail_cons]

/-- The state the done callback of a successful write leaves, when no write is pending. -/
theorem write_is_done (hf : s.finished = [.io job]) (fn : job.fn = .write)
    (hret : job.retcode = 0) (hc : s.conns job.conn = some conn)
    (hnew : spyLookupFileIndex s.fileIndex job.file.fid = none) (hp : s.pendingWritesSize = 0) :
    ∃ statistic answers, step cfg s (.done true) = .ok { s with
      finished := []
      writingChunks := s.writingChunks.erase job.chunk
      chunks := s.chunks ++ [job.chunk]
      fileIndex := ⟨(s.chunk job.chunk).chunkId, job.file.fid, job.offset,
        u32 (job.file.size + fileMetaSize)⟩ :: s.fileIndex
      freeIoJobs := job.slot :: s.freeIoJobs
      conns := fun i => if i = job.conn then some (errorReply conn .success) else s.conns i
      statistic := statistic
      answers := answers } := by
  refine ⟨{ s.statistic with
    writingCount := u32 (s.statistic.writingCount - 1)
    writeBytes := u64 (s.statistic.writeBytes + job.file.size) },
    .write job.conn job.file.fid .success (conn.payload job.file.size) :: s.answers, ?_⟩
  simp only [step, spyWqThreadDone, hf, fn, spyWriteFileDone, Server.conn, hc, bind, Except.bind,
    Server.count, hnew, handOver, hp, Nat.lt_irrefl, gt_iff_lt, if_false, hret, ne_eq,
    not_true_eq_false, Server.setConn, Server.answer, Server.freeIoJob]
  rfl

theorem reset_conns {c : Nat} : (spyResetClientConnection s c conn).conns c =
    some (conn.cleared.received [] 0) := if_pos rfl

/-- A write that nothing holds up is committed and answered. -/
theorem write_is_answered (h : Alone s job conn) (hsize : job.file.size < 2147483648) :
    ∃ s', Leads cfg s s' ∧ Answered s job conn s' := by
  obtain ⟨s1, hs1⟩ : ∃ s1, s1 = { s with
    queued := [], running := [(.io job, .write .header)] } := ⟨_, rfl⟩
  have hstart : step cfg s .start = .ok s1 := by
    have hbegin : (Work.io job).begin = .write .header := by
      simp only [Work.begin, h.fn]
    simp only [step, workerStart, h.queued, h.running, hbegin, List.nil_append, hs1]
  have hself : s1 = s1.writing 0 job conn
      ⟨.header, s.disk job.chunk, s.chunk job.chunk, conn.request⟩ := by
    rw [hs1]
    exact (writing_self (s := { s with queued := [], running := [(.io job, .write .header)] })
      h.live rfl).symm
  obtain ⟨disk', hstores⟩ : ∃ disk', Stores job.file job.offset 0
      ⟨.header, s.disk job.chunk, s.chunk job.chunk, conn.request⟩ ⟨.finished 0, disk',
        (s.chunk job.chunk).commit job.file.size, conn.request.skip job.file.size⟩ :=
    stores_record h.fits h.loaded hsize
  have hwrites : Leads cfg s1 (s1.writing 0 job conn ⟨.finished 0, disk',
      (s.chunk job.chunk).commit job.file.size, conn.request.skip job.file.size⟩) := by
    have hi : 0 < s1.running.length := by rw [hs1]; exact Nat.one_pos
    have hall : Leads cfg (s1.writing 0 job conn _) _ := hstores.leads hi
    rw [← hself] at hall
    exact hall
  obtain ⟨s2, hs2⟩ : ∃ s2, s2 = s1.writing 0 job conn ⟨.finished 0, disk',
    (s.chunk job.chunk).commit job.file.size, conn.request.skip job.file.size⟩ := ⟨_, rfl⟩
  rw [← hs2] at hwrites
  have hrun : s2.running = [(.io job, .write (.finished 0))] := by
    rw [hs2, hs1]
    rfl
  have hfinish : step cfg s2 (.finish 0) = .ok _ := write_is_finished hrun
  have hjob : ({ job with retcode := 0 } : IoJob) = job := by
    rw [← h.retcode]
  rw [hjob] at hfinish
  obtain ⟨s3, hs3⟩ : ∃ s3 : Server, s3 = { s2 with
    running := [], finished := s2.finished ++ [.io job] } := ⟨_, rfl⟩
  rw [← hs3] at hfinish
  obtain ⟨conn2, hconn2⟩ : ∃ conn2, conn2 = { conn with
    request := conn.request.skip job.file.size } := ⟨_, rfl⟩
  have hlive : s3.conns job.conn = some conn2 := by
    rw [hs3, hs2, hconn2]
    exact if_pos rfl
  have hfin : s3.finished = [.io job] := by
    rw [hs3, hs2, hs1]
    exact congrArg (· ++ [Work.io job]) h.finished
  have hnew : spyLookupFileIndex s3.fileIndex job.file.fid = none := by
    rw [hs3, hs2, hs1]
    exact h.new
  have hpend : s3.pendingWritesSize = 0 := by
    rw [hs3, hs2, hs1]
    exact h.pending
  obtain ⟨statistic, answers, hdone⟩ : ∃ statistic answers, step cfg s3 (.done true) = .ok _ :=
    write_is_done hfin h.fn h.retcode hlive hnew hpend
  obtain ⟨s4, hs4⟩ : ∃ s4, step cfg s3 (.done true) = .ok s4 := ⟨_, hdone⟩
  rw [hs4] at hdone
  have hs4' := Except.ok.inj hdone
  have hreply : s4.conns job.conn = some (errorReply conn2 .success) := by
    rw [hs4']
    exact if_pos rfl
  have hsent : conn2.sentlen = 0 := by rw [hconn2]; exact h.unsent
  have hsend : step cfg s4 (.writable job.conn [.sent 6]) = .ok _ := reply_is_sent hreply hsent
  refine ⟨_, (((ReflTransGen.single ⟨_, hstart⟩).trans hwrites).tail ⟨_, hfinish⟩).tail
    ⟨_, hs4⟩ |>.tail ⟨_, hsend⟩, ?_⟩
  refine ⟨⟨_, reset_conns, rfl, rfl, rfl⟩, ?_, ?_, ?_, ?_, ?_, ?_, ?_, ?_, ?_⟩
    <;> rw [hs4', hs3, hs2, hs1]
  · rw [hconn2]
    exact giveBack_held s.mem conn
  · rfl
  · rfl
  · rfl
  · exact ⟨_, rfl, rfl⟩
  · rfl
  · rfl
  · rfl
  · exact h.pending

/-! ## From the first byte -/

/-- A WRITE request, as the handler gets it. -/
def writeFrame (cfg : Config) (fid : UInt64) (payload : Bytes) : Bytes :=
  frame 0 (innerBody cfg.serverId fid payload)

theorem writeFrame_length (cfg : Config) (fid : UInt64) (payload : Bytes) :
    (writeFrame cfg fid payload).length = 15 + payload.length := by
  unfold writeFrame
  rw [frame_length, innerBody_length]
  omega

/-- The connection when the inner header of a WRITE has been read. -/
def Connection.asked (conn : Connection) (cfg : Config) (fid : UInt64) (payload : Bytes)
    (blocks : Nat) : Connection :=
  { conn.called (writeFrame cfg fid payload) blocks with
    request := ⟨writeFrame cfg fid payload, 15, blocks⟩ }

/-- The handler looks for a chunk for a new fid. -/
theorem write_is_placed {c blocks : Nat} {fid : UInt64} {payload : Bytes} {env : Env}
    (hid : cfg.serverId < 65536) (hlen : payload.length < 4294967286)
    (hnew : spyLookupFileIndex s.fileIndex fid = none) :
    dispatch cfg s c (conn.called (writeFrame cfg fid payload) blocks) env =
      .ok (placeWrite s c (conn.asked cfg fid payload blocks) fid payload.length env.now) := by
  have hbody : (innerBody cfg.serverId fid payload).length = 10 + payload.length :=
    innerBody_length _ _ _
  have hann : announced (writeFrame cfg fid payload) = 10 + payload.length := by
    unfold writeFrame
    rw [announced_frame (by rw [hbody]; omega), hbody]
  have hop : spyMachReadFrom1 ((writeFrame cfg fid payload).take reqHdrSize) = 0 :=
    frame_opcode (by decide)
  obtain ⟨called, hcalled⟩ : ∃ called, called = conn.called (writeFrame cfg fid payload) blocks :=
    ⟨_, rfl⟩
  have hinner : readInnerHdr called =
      .ok (cfg.serverId, fid, conn.asked cfg fid payload blocks) := by
    rw [hcalled]
    exact readInnerHdr_called conn blocks hid
  have hopcode : called.opcode = 0 := by rw [hcalled]; exact hop
  have hbl : called.bodyLen = 10 + payload.length := by rw [hcalled]; exact hann
  have hsize : 10 + payload.length - 8 - 2 = payload.length := by omega
  rw [← hcalled]
  unfold dispatch
  rw [hopcode]
  simp only [Opcode.ofByte]
  unfold spyHandleWrite
  rw [hbl, if_neg (by simp only [reqInnerHdrSize]; omega)]
  simp only [bind, Except.bind, hinner, ne_eq, not_true_eq_false, if_false, hnew, hsize]
  rfl

/-- A connection is idle, no job is about, and the `a` blocks are all free. -/
structure Quiet (s : Server) (c a limit : Nat) : Prop where
  live : ∃ conn : Connection, s.conns c = some (conn.received [] 0) ∧ conn.readable = true ∧
    conn.sentlen = 0 ∧ conn.rspBody.blocks = 0
  mem : s.mem = pool a limit 0
  queued : s.queued = []
  running : s.running = []
  finished : s.finished = []
  pending : s.pendingWritesSize = 0

/-- A WRITE request for this chunk has come and been queued, in `blocks` blocks. -/
structure Queued (s : Server) (c a limit blocks slot : Nat) (fid id : UInt64) (payload : Bytes)
    (s' : Server) (conn : Connection) : Prop where
  alone : Alone s' { writeJob slot c fid payload.length with
    offset := (s.chunk id).currentOffset, chunk := id } conn
  held : conn.held = blocks
  mem : s'.mem = pool a limit blocks
  chunk : s'.chunk = s.chunk
  chunks : s'.chunks = s.chunks.erase id
  slots : s.freeIoJobs = slot :: s'.freeIoJobs
  index : s'.fileIndex = s.fileIndex

/-- A WRITE of a new fid that comes to a quiet server reaches its handler. -/
theorem write_comes {c a k : Nat} {fid : UInt64} {payload : Bytes}
    (h : Quiet s c a cfg.mbLimit) (hid : cfg.serverId < 65536)
    (hk : memBlockRoom * k < 15 + payload.length)
    (hk' : 15 + payload.length ≤ memBlockRoom * (k + 1))
    (hlimit : k < cfg.mbLimit) (hlen : payload.length < 4294967286)
    (hnew : spyLookupFileIndex s.fileIndex fid = none) :
    ∃ conn conn' : Connection, conn.sentlen = 0 ∧ conn.rspBody.blocks = 0 ∧
      Leads cfg s (placeWrite
        (Server.setConn { s with mem := pool a cfg.mbLimit (k + 1) } c conn') c
        (conn.asked cfg fid payload (k + 1)) fid payload.length 0) := by
  obtain ⟨conn, hc, hread, hsent, hrsp⟩ := h.live
  have hbody : (innerBody cfg.serverId fid payload).length = 10 + payload.length :=
    innerBody_length _ _ _
  have hwlen := writeFrame_length cfg fid payload
  have hann : announced (writeFrame cfg fid payload) = (writeFrame cfg fid payload).length - 5 := by
    rw [hwlen]
    unfold writeFrame
    rw [announced_frame (by rw [hbody]; omega), hbody]
    omega
  have hblocks : Leads cfg (s.serving c (pool a cfg.mbLimit 0) (conn.received [] 0)) _ :=
    receives_blocks hread (hwlen ▸ hk) (Nat.le_of_lt hlimit) hann
  rw [serving_self hc h.mem] at hblocks
  refine ⟨conn, conn.received ((writeFrame cfg fid payload).take (memBlockRoom * k)) k, hsent, hrsp,
    hblocks.tail ⟨_, (receives_last hread (hwlen ▸ hk) (hwlen ▸ hk') hlimit
      (by rw [hwlen]; omega) hann).trans ?_⟩⟩
  exact write_is_placed hid hlen hnew

theorem write_arrives {c a k slot : Nat} {fid id : UInt64} {payload : Bytes} {rest : List Nat}
    (h : Quiet s c a cfg.mbLimit) (hid : cfg.serverId < 65536)
    (hk : memBlockRoom * k < 15 + payload.length)
    (hk' : 15 + payload.length ≤ memBlockRoom * (k + 1))
    (hlimit : k < cfg.mbLimit) (hlen : payload.length < 4294967286)
    (hnew : spyLookupFileIndex s.fileIndex fid = none)
    (hfind : s.chunks.find? (fun id => s.fits id payload.length) = some id)
    (hslot : s.freeIoJobs = slot :: rest) :
    ∃ s' conn, Leads cfg s s' ∧ Queued s c a cfg.mbLimit (k + 1) slot fid id payload s' conn := by
  obtain ⟨conn, conn', hsent, hrsp, hleads⟩ := write_comes h hid hk hk' hlimit hlen hnew
  have hwlen := writeFrame_length cfg fid payload
  refine ⟨_, { conn.asked cfg fid payload (k + 1) with readable := false }, hleads, ?_⟩
  have hfind' : (Server.setConn { s with mem := pool a cfg.mbLimit (k + 1) } c conn').chunks.find?
      (fun id => Server.fits (Server.setConn { s with mem := pool a cfg.mbLimit (k + 1) } c conn')
        id payload.length) = some id := hfind
  unfold placeWrite
  simp only [hfind', reduceCtorEq, false_and, if_false]
  simp only [Server.setConn, hslot]
  refine ⟨⟨rfl, rfl, ?_, h.running, h.finished, h.pending, if_pos rfl, hsent, hnew, ?_, ?_⟩, ?_,
    rfl, rfl, rfl, hslot, rfl⟩
  · show s.queued ++ _ = _
    rw [h.queued]
    rfl
  · show 15 ≤ (writeFrame cfg fid payload).length
    rw [hwlen]
    exact Nat.le_add_right _ _
  · show payload.length ≤ ((writeFrame cfg fid payload).drop 15).length
    rw [List.length_drop, hwlen]
    omega
  · show k + 1 + conn.rspBody.blocks = k + 1
    rw [hrsp]

/-- A WRITE that is alone on a quiet server leaves it quiet. -/
theorem write_leaves_quiet {c a blocks slot : Nat} {fid id : UInt64} {payload : Bytes}
    {t : Server} (hq : Queued s c a cfg.mbLimit blocks slot fid id payload t conn)
    (hsize : payload.length < 2147483648) :
    ∃ s', Leads cfg t s' ∧ Quiet s' c (max a blocks) cfg.mbLimit ∧
      s'.chunk = Function.update s.chunk id ((s.chunk id).commit payload.length) ∧
      s'.chunks = s.chunks.erase id ++ [id] ∧ s'.freeIoJobs = s.freeIoJobs ∧
      ∃ e, e.fid = fid ∧ s'.fileIndex = e :: s.fileIndex := by
  obtain ⟨s', hleads, ha⟩ : ∃ s', Leads cfg t s' ∧ Answered t _ conn s' :=
    write_is_answered hq.alone hsize
  refine ⟨s', hleads, ⟨ha.live, ?_, ha.queued, ha.running, ha.finished, ha.pending⟩,
    ?_, ?_, ?_, ?_⟩
  · rw [ha.mem, hq.mem, hq.held]
    unfold pool MemBlocks.giveBack
    simp only [MemBlocks.mk.injEq, true_and]
    omega
  · rw [ha.chunk, hq.chunk]
    rfl
  · rw [ha.chunks, hq.chunks]
  · rw [ha.slots, hq.slots]
    rfl
  · obtain ⟨e, he, hindex⟩ := ha.index
    exact ⟨e, he, hindex.trans (by rw [hq.index])⟩

end Write
end Speedy.Chunkserver
