import Speedy.Chunkserver.Bounds
import Speedy.Chunkserver.RwFlat
import Speedy.Chunkserver.Turns

/-! # Assertions on the way of a request

In a state that a run can reach, an event makes an assertion fail exactly when it
completes a WRITE or a READ request that is too short for its inner header. All
other assertions are implied by the books and the ledger. -/
namespace Speedy.Chunkserver
open Speedy.Lib Relation

/-- The handler asserts ten bytes that the request does not have. -/
def tooShort (conn : Connection) : Bool :=
  match Opcode.ofByte conn.opcode with
  | some .write => decide (conn.bodyLen < reqInnerHdrSize)
  | some .read => decide (conn.request.unread.length < reqInnerHdrSize)
  | _ => false

/-- The event calls such a handler. -/
def truncated (s : Server) (e : Event) : Bool :=
  match handlerCall s e with
  | some (_, conn) => tooShort conn
  | none => false

/-- The server id in front of a complete request. -/
def Connection.innerId (conn : Connection) : Nat :=
  spyMachReadFrom2 (conn.request.unread.take reqInnerHdrSize)

/-- A request no client of this server would send: an unknown opcode, the id of another
server, or the name of a chunk that is too long. -/
def malformed (cfg : Config) (conn : Connection) : Bool :=
  match Opcode.ofByte conn.opcode with
  | some .write => decide (conn.innerId ≠ cfg.serverId)
  | some .read => decide (conn.innerId ≠ cfg.serverId)
  | some .dumpChunk => decide (conn.bodyLen ≥ chunkFilenameLenMax)
  | some _ => false
  | none => true

/-- The request was answered with an error or its connection closed. -/
def Refused (s : Server) (c : Nat) : Prop :=
  s.conns c = none ∨
    ∃ conn, s.conns c = some conn ∧ conn.state = .sendRsp ∧ conn.error ≠ .success

section Asserts
variable {cfg : Config} {s s' : Server} {c : Nat} {conn : Connection} {env : Env}

theorem ok_ne_assertion : (Except.ok s : Except Fault Server) ≠ .error .assertion := by
  intro h
  cases h

theorem disabled_ne_assertion :
    (Except.error .disabled : Except Fault Server) ≠ .error .assertion := by
  intro h
  cases h

theorem Server.conn_ne_assertion (s : Server) (c : Nat) : s.conn c ≠ .error .assertion := by
  unfold Server.conn
  split <;> exact nofun

/-! ## Handlers -/

/-- A lookup that fails is a dangling pointer, which is another fault. -/
theorem Server.bind_conn_ne_assertion {f : Connection → Except Fault Server}
    (hf : ∀ conn, f conn ≠ .error .assertion) : (s.conn c >>= f) ≠ .error .assertion := by
  intro hs
  cases hc : s.conn c with
  | error e =>
    rw [hc] at hs
    obtain rfl := Except.error.inj hs
    exact s.conn_ne_assertion c hc
  | ok conn =>
    rw [hc] at hs
    exact hf conn hs

theorem dropPending_ne_assertion {job : IoJob} {rest : List IoJob} {error : SpyError} :
    dropPending s job rest error ≠ .error .assertion :=
  Server.bind_conn_ne_assertion fun _ => nofun

theorem killLoop_ne_assertion (jobs : List IoJob) : killLoop jobs s ≠ .error .assertion := by
  induction jobs generalizing s with
  | nil => exact nofun
  | cons job rest ih =>
    intro hs
    simp only [killLoop, bind, Except.bind] at hs
    cases hd : dropPending s job rest .killed with
    | error e =>
      rw [hd] at hs
      obtain rfl := Except.error.inj hs
      exact dropPending_ne_assertion hd
    | ok t => rw [hd] at hs; exact ih hs

theorem timeoutLoop_ne_assertion (now : Nat) (jobs : List IoJob) :
    timeoutLoop now jobs s ≠ .error .assertion := by
  induction jobs generalizing s with
  | nil => exact nofun
  | cons job rest ih =>
    intro hs
    unfold timeoutLoop at hs
    split at hs
    · cases hs
    · simp only [bind, Except.bind] at hs
      cases hd : dropPending s job rest .chunkUnavailable with
      | error e =>
        rw [hd] at hs
        obtain rfl := Except.error.inj hs
        exact dropPending_ne_assertion hd
      | ok t => rw [hd] at hs; exact ih hs

theorem readInnerHdr_ok_iff : (∃ x, readInnerHdr conn = .ok x) ↔
    reqInnerHdrSize ≤ conn.request.unread.length := by
  unfold readInnerHdr spyRwBufferReadN
  simp only [List.length_take]
  constructor
  · rintro ⟨x, hx⟩
    split at hx
    · rename_i hlen
      omega
    · cases hx
  · intro hle
    rw [if_pos (Nat.min_eq_left hle)]
    exact ⟨_, rfl⟩

theorem readInnerHdr_error {e : Fault} (h : readInnerHdr conn = .error e) : e = .assertion := by
  unfold readInnerHdr at h
  simp only at h
  split at h
  · cases h
  · exact (Except.error.inj h).symm

/-- The body of a request is in the buffer. -/
theorem Ready.unread (hr : Ready conn) : conn.bodyLen ≤ conn.request.unread.length := by
  have hdata := hr.data
  rw [unread_length, hr.readPos]
  unfold RwBuffer.writePos
  omega

theorem spyHandleWrite_assertion (hr : Ready conn) :
    spyHandleWrite cfg s c conn env = .error .assertion ↔ conn.bodyLen < reqInnerHdrSize := by
  unfold spyHandleWrite
  by_cases hlt : conn.bodyLen < reqInnerHdrSize
  · rw [if_pos hlt]
    exact iff_of_true rfl hlt
  · refine iff_of_false (fun hs => ?_) hlt
    obtain ⟨x, hx⟩ := readInnerHdr_ok_iff.mpr (Nat.le_trans (Nat.le_of_not_lt hlt) hr.unread)
    rw [if_neg hlt] at hs
    simp only [bind, Except.bind, pure, Except.pure, hx] at hs
    split at hs
    · cases hs
    · split at hs <;> cases hs

theorem spyHandleRead_assertion :
    spyHandleRead cfg s c conn env = .error .assertion ↔
      conn.request.unread.length < reqInnerHdrSize := by
  unfold spyHandleRead
  simp only [bind, Except.bind, pure, Except.pure]
  cases hx : readInnerHdr conn with
  | error e =>
    obtain rfl := readInnerHdr_error hx
    refine iff_of_true rfl (Nat.lt_of_not_le fun hle => ?_)
    obtain ⟨x, hok⟩ := readInnerHdr_ok_iff.mpr hle
    rw [hx] at hok
    cases hok
  | ok x =>
    refine iff_of_false (fun hs => ?_) (Nat.not_lt_of_le (readInnerHdr_ok_iff.mp ⟨x, hx⟩))
    simp only at hs
    split at hs
    · cases hs
    · split at hs
      · cases hs
      · split at hs
        · cases hs
        · split at hs
          · cases hs
          · split at hs <;> cases hs

theorem replyWithBody_ne_assertion {body : Bytes} (hr : Ready conn) :
    replyWithBody s c conn env body ≠ .error .assertion := by
  intro hs
  unfold replyWithBody at hs
  rcases hexp : expandTo body.length env.calloc (body.length / memBlockRoom + 1) s.mem
    conn.rspBody with ⟨mem', rspBody, done⟩
  rw [hexp] at hs
  cases done with
  | false => cases hs
  | true =>
    obtain ⟨k, _, hbody, hcap⟩ := expandTo_draws _ _ _ hexp
    have hroom : body.length ≤ rspBody.cap := hcap rfl
    have hzero : rspBody.writePos = 0 := by
      rw [hbody, hr.rspBody]
      rfl
    have hall : (spyRwBufferWriteN rspBody body).1 = body.length := by
      unfold spyRwBufferWriteN
      rw [hzero, Nat.sub_zero, List.take_of_length_le hroom]
    simp only at hs
    rw [if_pos hall] at hs
    cases hs

theorem spyDumpChunk_ne_assertion (hr : Ready conn) :
    spyDumpChunk s c conn env ≠ .error .assertion := by
  intro hs
  unfold spyDumpChunk at hs
  simp only at hs
  split at hs
  · cases hs
  · have hlen : (spyRwBufferReadN conn.request conn.bodyLen).1.length = conn.bodyLen := by
      unfold spyRwBufferReadN
      rw [List.length_take]
      exact Nat.min_eq_left hr.unread
    rw [if_pos hlen] at hs
    split at hs
    · cases hs
    · split at hs <;> cases hs

/-- Among the handlers only two can fail an assertion. -/
theorem dispatch_assertion (hr : Ready conn) :
    dispatch cfg s c conn env = .error .assertion ↔ tooShort conn = true := by
  unfold dispatch tooShort
  cases hop : Opcode.ofByte conn.opcode with
  | none => exact iff_of_false nofun nofun
  | some op =>
    cases op with
    | write => rw [decide_eq_true_iff]; exact spyHandleWrite_assertion hr
    | read => rw [decide_eq_true_iff]; exact spyHandleRead_assertion
    | ping => exact iff_of_false nofun nofun
    | checkDisk =>
      refine iff_of_false (fun hs => ?_) nofun
      simp only [spyHandleCheckDisk] at hs
      split at hs
      · cases hs
      · split at hs <;> cases hs
    | killPdWr =>
      refine iff_of_false (fun hs => ?_) nofun
      simp only [spyKillPendingWrites, bind, Except.bind] at hs
      split at hs
      · rename_i e he
        obtain rfl := Except.error.inj hs
        exact killLoop_ne_assertion _ he
      · split at hs
        · rename_i e he
          obtain rfl := Except.error.inj hs
          exact Server.conn_ne_assertion _ _ he
        · cases hs
    | queryIoStatus => exact iff_of_false (replyWithBody_ne_assertion hr) nofun
    | queryDetailInfos =>
      refine iff_of_false (fun hs => ?_) nofun
      simp only [spyQueryDetailInfos] at hs
      split at hs
      · exact replyWithBody_ne_assertion hr hs
      · cases hs
    | dumpChunk => exact iff_of_false (spyDumpChunk_ne_assertion hr) nofun

theorem readInnerHdr_eq (h : reqInnerHdrSize ≤ conn.request.unread.length) :
    ∃ fid conn', readInnerHdr conn = .ok (conn.innerId, fid, conn') := by
  have hlen : (spyRwBufferReadN conn.request reqInnerHdrSize).1.length = reqInnerHdrSize := by
    unfold spyRwBufferReadN
    rw [List.length_take]
    exact Nat.min_eq_left h
  unfold readInnerHdr
  exact ⟨_, _, if_pos hlen⟩

/-- A malformed request that is long enough is refused. -/
theorem dispatch_malformed (hr : Ready conn) (hshort : tooShort conn = false)
    (hbad : malformed cfg conn = true) :
    ∃ s', dispatch cfg s c conn env = .ok s' ∧ Refused s' c := by
  unfold malformed at hbad
  unfold tooShort at hshort
  unfold dispatch
  cases hop : Opcode.ofByte conn.opcode with
  | none => exact ⟨_, rfl, .inl (if_pos rfl)⟩
  | some op =>
    rw [hop] at hbad hshort
    cases op with
    | write =>
      have hlen : ¬ conn.bodyLen < reqInnerHdrSize := of_decide_eq_false hshort
      obtain ⟨fid, conn', hx⟩ := readInnerHdr_eq (Nat.le_trans (Nat.le_of_not_lt hlen) hr.unread)
      simp only [spyHandleWrite, bind, Except.bind, pure, Except.pure]
      rw [if_neg hlen]
      simp only [hx]
      rw [if_pos (of_decide_eq_true hbad)]
      exact ⟨_, rfl, .inr ⟨errorReply conn' .serverIdMismatch, if_pos rfl, rfl, nofun⟩⟩
    | read =>
      have hlen : ¬ conn.request.unread.length < reqInnerHdrSize := of_decide_eq_false hshort
      obtain ⟨fid, conn', hx⟩ := readInnerHdr_eq (Nat.le_of_not_lt hlen)
      simp only [spyHandleRead, bind, Except.bind, pure, Except.pure, hx]
      rw [if_pos (of_decide_eq_true hbad)]
      exact ⟨_, rfl, .inr ⟨errorReply conn' .serverIdMismatch, if_pos rfl, rfl, nofun⟩⟩
    | dumpChunk =>
      simp only [spyDumpChunk]
      rw [if_pos (of_decide_eq_true hbad)]
      exact ⟨_, rfl, .inr ⟨errorReply conn .internalError, if_pos rfl, rfl, nofun⟩⟩
    | ping => cases hbad
    | checkDisk => cases hbad
    | killPdWr => cases hbad
    | queryIoStatus => cases hbad
    | queryDetailInfos => cases hbad

/-! ## Sockets -/

theorem spyReadHandler_assertion (hok : ConnOk conn False) {r : SockRead} :
    spyReadHandler cfg s c conn r env = .error .assertion ↔
      ∃ conn', arrived s conn r env.calloc = some conn' ∧ tooShort conn' = true := by
  cases harr : arrived s conn r env.calloc with
  | none =>
    obtain ⟨s', hs, _⟩ := spyReadHandler_silent harr
    rw [hs]
    exact iff_of_false nofun nofun
  | some conn' =>
    obtain ⟨hr, _, mem, hs⟩ := spyReadHandler_arrived hok harr
    rw [hs, dispatch_assertion hr]
    constructor
    · exact fun hshort => ⟨conn', rfl, hshort⟩
    · rintro ⟨conn'', he, hshort⟩
      exact Option.some.inj he ▸ hshort

/-- A response that can be sent has something readable until it is sent. -/
theorem nextSend_isOk (hf : conn.Fine) (hst : conn.state = .sendRsp) :
    ∃ next, conn.nextSend = .ok next := by
  obtain ⟨h1, h2, h3, h4⟩ := hf.sendable hst
  unfold Connection.nextSend
  split
  · rename_i hpos
    split
    · exact ⟨_, rfl⟩
    · rename_i hge
      have hrem := remaining_le conn (by omega)
      have hbody := h4 (Int.not_lt.mp hge)
      obtain ⟨area, harea, _⟩ := spyRwBufferNextReadable_pos hf.rspBody.read (by omega)
      rw [harea]
      exact ⟨_, rfl⟩
  · exact ⟨_, rfl⟩

theorem sendLoop_ne_assertion (results : List SockWrite) (hf : conn.Fine)
    (hst : conn.state = .sendRsp) : sendLoop s c results conn ≠ .error .assertion := by
  induction results generalizing conn with
  | nil =>
    obtain ⟨next, hnext⟩ := nextSend_isOk hf hst
    unfold sendLoop
    rw [hnext]
    cases next <;> exact ok_ne_assertion
  | cons r results ih =>
    obtain ⟨next, hnext⟩ := nextSend_isOk hf hst
    unfold sendLoop
    rw [hnext]
    cases next with
    | none => exact ok_ne_assertion
    | some len =>
      cases r with
      | sent n =>
        obtain ⟨hf', _, hst', _⟩ := hf.sent hst hnext (Nat.min_le_right (max n 1) len)
        exact ih hf' hst'
      | eagain => exact ok_ne_assertion
      | error => exact ok_ne_assertion

/-! ## Workers -/

variable {recs : UInt64 → List Record} {lost : UInt64 → Prop} {limit : Nat} {ids : List UInt64}
  {marks : List Mark} {job : IoJob}

/-- Only the header needs the whole payload at once. -/
theorem spyWriteFileStep_isSome {file : SpyFile} {offset now : Nat} {io : Pwrite} {r : WriteRun}
    (h : r.pc = .header → r.request.readPos ≤ r.request.writePos ∧
      file.size ≤ r.request.unread.length) :
    ∃ r', spyWriteFileStep file offset io now r = some r' := by
  unfold spyWriteFileStep
  split
  · rename_i hpc
    obtain ⟨hb, hlen⟩ := h hpc
    obtain ⟨sum, hsum⟩ := Option.isSome_iff_exists.mp (spyBufferAdler32_isSome 0 hb hlen)
    rw [hsum]
    exact ⟨_, rfl⟩
  · split
    · exact ⟨_, rfl⟩
    · simp only
      split <;> exact ⟨_, rfl⟩
  · exact ⟨_, rfl⟩
  · exact ⟨_, rfl⟩

theorem LedgerInv.header_loaded (h : LedgerInv s.ledger recs lost)
    (hx : (Work.io job, Stage.running (.write .header)) ∈ s.works)
    (hc : s.conns job.conn = some conn) :
    conn.request.readPos ≤ conn.request.writePos ∧ job.file.size ≤ conn.request.unread.length := by
  obtain ⟨_, _, request, d0, hload, hstate⟩ := h.write_state hx nofun hc
  obtain rfl : conn.request = request := hstate.at_header rfl
  have hdata := hload.data
  rw [unread_length, hload.readPos]
  unfold RwBuffer.writePos
  omega

/-- The blocks of a read hold its record. -/
theorem spyReadFileStep_isSome {index : IndexEntry} {rec : Record} {disk : ByteStore} {io : Pread}
    {r : ReadRun} (hsize : index.size = rec.bytes.length) (hcap : index.size ≤ r.rspBody.cap)
    (hloop : ∀ left offset, r.pc = .loop left offset → r.rspBody.readPos = 0 ∧
      left ≤ rec.bytes.length ∧ r.rspBody.data = rec.bytes.take (rec.bytes.length - left)) :
    ∃ r', spyReadFileStep index disk io r = some r' := by
  unfold spyReadFileStep
  split
  · rw [if_pos hcap]
    exact ⟨_, rfl⟩
  · rename_i left offset hpc
    obtain ⟨hpos, hle, hdata⟩ := hloop left offset hpc
    have hlen : r.rspBody.writePos = rec.bytes.length - left := by
      unfold RwBuffer.writePos
      rw [hdata, List.length_take]
      exact Nat.min_eq_left (Nat.sub_le _ _)
    split
    · have hroom : r.rspBody.writePos ≠ r.rspBody.cap := by omega
      unfold spyRwBufferNextWriteable
      rw [if_neg hroom]
      cases io <;> exact ⟨_, rfl⟩
    · -- the whole record is in the buffer: the header, and the payload behind it
      have hbytes : rec.bytes.length = 30 + rec.payload.length := Record.bytes_length rec
      have hunread : r.rspBody.unread.length = rec.bytes.length := by
        rw [unread_length, hlen, hpos]
        omega
      have hmeta : (spyRwBufferReadN r.rspBody fileMetaSize).1.length = fileMetaSize := by
        unfold spyRwBufferReadN
        rw [List.length_take, hunread]
        exact Nat.min_eq_left (by rw [hbytes]; exact Nat.le_add_right _ _)
      unfold spyReadFileCheck
      simp only
      rw [if_pos hmeta]
      have hskip : (spyRwBufferReadN r.rspBody fileMetaSize).2 = r.rspBody.skip fileMetaSize := by
        show r.rspBody.skip (spyRwBufferReadN r.rspBody fileMetaSize).1.length = _
        rw [hmeta]
      have hsum : (spyBufferAdler32 0 (r.rspBody.skip fileMetaSize)
          (u32 (index.size - fileMetaSize))).isSome = true := by
        refine spyBufferAdler32_isSome 0 ?_ ?_
        · show r.rspBody.readPos + 30 ≤ r.rspBody.writePos
          omega
        · rw [RwBuffer.skip_unread, List.length_drop, hunread, hsize, hbytes]
          show u32 (((30 + rec.payload.length : Nat) : Int) - (30 : Nat)) ≤
            30 + rec.payload.length - 30
          unfold u32
          omega
      obtain ⟨sum, hsum⟩ := Option.isSome_iff_exists.mp hsum
      rw [hskip, hsum]
      exact ⟨_, rfl⟩
  · exact ⟨_, rfl⟩

theorem workerStep_ne_assertion (h : BookInv limit ids (s.books marks))
    (hl : LedgerInv s.ledger recs lost) {i : Nat} {io : WorkerIo} :
    workerStep s i io ≠ .error .assertion := by
  intro hs
  unfold workerStep at hs
  split at hs
  · rename_i job pc io now hrun
    simp only [bind, Except.bind] at hs
    cases hc : s.conn job.conn with
    | error e =>
      rw [hc] at hs
      obtain rfl := Except.error.inj hs
      exact s.conn_ne_assertion _ hc
    | ok conn =>
      rw [hc] at hs
      obtain ⟨r', hr⟩ : ∃ r', spyWriteFileStep job.file job.offset io now
          ⟨pc, s.disk job.chunk, s.chunk job.chunk, conn.request⟩ = some r' := by
        refine spyWriteFileStep_isSome fun hpc => ?_
        obtain rfl : pc = .header := hpc
        exact hl.header_loaded (mem_works_running hrun) (Server.conn_ok hc)
      simp only [hr] at hs
      cases hs
  · rename_i job pc io hrun
    simp only [bind, Except.bind] at hs
    cases hc : s.conn job.conn with
    | error e =>
      rw [hc] at hs
      obtain rfl := Except.error.inj hs
      exact s.conn_ne_assertion _ hc
    | ok conn =>
      rw [hc] at hs
      have hx := mem_works_running hrun
      have hlive := Server.conn_ok hc
      obtain ⟨r', hr⟩ : ∃ r', spyReadFileStep job.indexEntry (s.disk job.chunk) io
          ⟨pc, conn.rspBody, job.file⟩ = some r' := by
        cases hl.works _ hx conn hlive with
        | reading _ _ pc' rec fn at_ _ _ indexed _ state =>
          obtain rfl := Option.some.inj at_
          refine spyReadFileStep_isSome indexed.size (h.roomy _ hx conn hlive fn) ?_
          intro left offset hpc
          obtain rfl : pc = .loop left offset := hpc
          exact ⟨state.1, state.2.1, state.2.2.2⟩
        | plain _ _ _ hst => exact hst.elim
      simp only [hr] at hs
      cases hs
  · cases hs
  · cases hs
  · cases hs

/-! ## Every event -/

theorem spyWqThreadDone_ne_assertion {fcntl : Bool} :
    spyWqThreadDone s fcntl ≠ .error .assertion := by
  unfold spyWqThreadDone
  split
  · exact nofun
  · split
    · refine Server.bind_conn_ne_assertion fun conn => ?_
      split
      · exact nofun
      · split <;> exact nofun
    · split
      · refine Server.bind_conn_ne_assertion fun conn => ?_
        simp only
        split
        · exact nofun
        · split <;> exact nofun
      · refine Server.bind_conn_ne_assertion fun conn => ?_
        simp only
        split <;> exact nofun
      · exact Server.bind_conn_ne_assertion fun _ => nofun

theorem spyRemoveTimeoutPendingWrites_ne_assertion (h : BookInv limit ids (s.books marks))
    {now : Nat} : spyRemoveTimeoutPendingWrites s now ≠ .error .assertion := by
  unfold spyRemoveTimeoutPendingWrites
  split
  · exact nofun
  · rename_i hsize
    rw [if_neg]
    · exact timeoutLoop_ne_assertion now _
    · intro hnil
      have hcount : s.pendingWritesSize = s.works.countP isPending := h.jobs.pending_eq
      rw [countP_isPending, hnil] at hcount
      exact hsize hcount

theorem step_assertion (h : BookInv limit ids (s.books marks))
    (hl : LedgerInv s.ledger recs lost) (e : Event) :
    step cfg s e = .error .assertion ↔ truncated s e = true := by
  cases e with
  | accept => exact iff_of_false ok_ne_assertion Bool.false_ne_true
  | readable c r env =>
    simp only [step, truncated, handlerCall]
    cases hc : s.conns c with
    | none => exact iff_of_false disabled_ne_assertion Bool.false_ne_true
    | some conn =>
      simp only
      by_cases hread : conn.readable = true
      · rw [if_pos hread, if_pos hread]
        obtain ⟨_, hok⟩ := h.served hc (.inl hread)
        rw [spyReadHandler_assertion hok]
        cases arrived s conn r env.calloc with
        | none =>
          refine iff_of_false ?_ Bool.false_ne_true
          rintro ⟨conn', hconn', -⟩
          cases hconn'
        | some conn' => simp
      · rw [if_neg hread, if_neg hread]
        exact iff_of_false disabled_ne_assertion Bool.false_ne_true
  | writable c results =>
    refine iff_of_false ?_ Bool.false_ne_true
    simp only [step]
    cases hc : s.conns c with
    | none => exact disabled_ne_assertion
    | some conn =>
      simp only
      split
      · rename_i hwrite
        obtain ⟨_, hok⟩ := h.served hc (.inr hwrite)
        exact sendLoop_ne_assertion results (h.table.fine c conn hc) (hok.sends hwrite)
      · exact disabled_ne_assertion
  | start =>
    refine iff_of_false ?_ Bool.false_ne_true
    show workerStart s ≠ _
    unfold workerStart
    split
    · exact disabled_ne_assertion
    · exact ok_ne_assertion
  | io i io => exact iff_of_false (workerStep_ne_assertion h hl) Bool.false_ne_true
  | finish i =>
    refine iff_of_false ?_ Bool.false_ne_true
    show workerFinish s i ≠ _
    unfold workerFinish
    split
    · exact disabled_ne_assertion
    · split
      · exact disabled_ne_assertion
      · exact ok_ne_assertion
  | done fcntl => exact iff_of_false spyWqThreadDone_ne_assertion Bool.false_ne_true
  | cron now =>
    exact iff_of_false (spyRemoveTimeoutPendingWrites_ne_assertion h) Bool.false_ne_true

/-- No client input aborts the server, except requests that are too short for their
inner header. In every state that a run reaches:
an event fails an assertion exactly when it completes such a request;
the blocks behind each buffer add no failure, whatever is done with them;
and any other malformed request is answered with an error or its connection closed. -/
theorem only_short_requests_abort {ok : Server → Event → Server → Prop}
    (h : Run cfg ok s) (e : Event) :
    (step cfg s e = .error .assertion ↔ truncated s e = true) ∧
    (∀ c conn, s.conns c = some conn → ∀ b, b = conn.request ∨ b = conn.rspBody →
      (∃ chain, Rep chain b) ∧ ∀ chain, Rep chain b →
        ∀ (ops : List RwOp) b', ops.foldlM RwBuffer.apply b = some b' →
          ∃ chain', ops.foldlM RwChain.apply chain = .ok chain' ∧ Rep chain' b') ∧
    ∀ c conn, handlerCall s e = some (c, conn) → tooShort conn = false →
      malformed cfg conn = true → ∃ s', step cfg s e = .ok s' ∧ Refused s' c := by
  obtain ⟨recs, lost, hl⟩ := h.sound
  obtain ⟨marks, hb⟩ := h.books
  refine ⟨step_assertion hb hl e, ?_, ?_⟩
  · intro c conn hc b hbuf
    have hfine := hb.table.fine c conn hc
    have hfits : b.Fits := by
      rcases hbuf with rfl | rfl
      · exact hfine.request
      · exact hfine.rspBody
    exact ⟨exists_rep hfits, fun chain hrep ops b' hops => hrep.foldlM ops hops⟩
  · intro c conn hcall hshort hbad
    obtain ⟨hr, mem, env, hstep⟩ := step_handlerCall hb hcall
    rw [hstep]
    exact dispatch_malformed hr hshort hbad

/-- An unknown opcode on the first connection: no assertion fails, the connection goes. -/
theorem only_short_requests_unknownOpcode : ∃ s s' : Server,
    step sampleConfig s (.readable 0 (.data [9, 0, 0, 0, 0]) ⟨0, 0, true, true⟩) = .ok s' ∧
      Refused s' 0 := by
  have hplay : (play sampleConfig (fun _ _ _ => true) [.accept] (newServer sampleConfig)).map
      (fun s => handlerCall s (.readable 0 (.data [9, 0, 0, 0, 0]) ⟨0, 0, true, true⟩)) =
        .ok (some (0, { Connection.new with
          state := .processRequest
          opcode := 9
          request := ⟨[9, 0, 0, 0, 0], 5, 1⟩ })) := by
    decide +kernel
  obtain ⟨s, hs, hcall⟩ := map_eq_ok hplay
  have hrun := play_run _ (.init newServer_fresh) hs
  obtain ⟨s', hstep⟩ := (only_short_requests_abort hrun _).2.2 _ _ hcall rfl rfl
  exact ⟨s, s', hstep⟩

/-- Five bytes from one client are enough: a WRITE or a READ that announces no body. -/
theorem short_requests_abort : ∃ s : Server, Run sampleConfig (fun _ _ _ => True) s ∧
    step sampleConfig s (.readable 0 (.data [0, 0, 0, 0, 0]) ⟨0, 0, true, true⟩) =
      .error .assertion ∧
    step sampleConfig s (.readable 0 (.data [1, 0, 0, 0, 0]) ⟨0, 0, true, true⟩) =
      .error .assertion := by
  refine ⟨spyCreateClientConnection (newServer sampleConfig),
    .next (.init newServer_fresh) ⟨(rfl : step _ _ .accept = _), trivial⟩, ?_, ?_⟩
  · rfl
  · rfl

end Asserts
end Speedy.Chunkserver
