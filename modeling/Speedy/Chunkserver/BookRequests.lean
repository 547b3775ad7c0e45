import Speedy.Chunkserver.BookInv
import Speedy.Chunkserver.Simulation

/-! # Requests are runs of transactions

What the handlers of a readable or writable socket do to the books, one lemma per
handler. While a request is handled the bytes that came with it are in the local
copy of the connection, and the blocks taken for them are out of the pool: the
books are those before the event until the handler has put the connection back. -/
namespace Speedy.Chunkserver
open Speedy.Lib Relation

abbrev BookSteps (strand : Prop) : Books → Books → Prop := ReflTransGen (BookStep strand)

def Answer.mark (a : Answer) : Mark := .started a.conn

/-- The way from `v` to the books of `s'`, with a mark for every answer that `s'`
has and `s` has not. -/
def Traces (strand : Prop) (v : Books) (s s' : Server) : Prop :=
  ∃ as, s'.answers = as ++ s.answers ∧
    BookSteps strand v (s'.books (as.map Answer.mark ++ v.marks))

/-- A transaction puts a job at the head, and the server keeps it at the end of the
queue. -/
theorem BookSteps.queue {strand : Prop} {v : Books} {s : Server} {marks : List Mark} {work : Work}
    (h : BookSteps strand v { s.books marks with works := (work, .queued) :: s.works }) :
    BookSteps strand v ((spyQueueWork s work).books marks) :=
  h.tail (.shuffle (works_perm_queued (s := spyQueueWork s work)
    (List.perm_append_singleton work s.queued)).symm)

theorem BookSteps.pend {strand : Prop} {v : Books} {s : Server} {marks : List Mark} {job : IoJob}
    {n : Nat} (h : BookSteps strand v { s.books marks with
      works := (.io job, .pending) :: s.works
      pendingWritesSize := n }) :
    BookSteps strand v ({ s with
      pendingWrites := s.pendingWrites ++ [job]
      pendingWritesSize := n }.books marks) :=
  h.tail (.shuffle (works_perm_pending
    (s := { s with pendingWrites := s.pendingWrites ++ [job], pendingWritesSize := n })
    (List.perm_append_singleton job s.pendingWrites)).symm)

/-! ## Blocks -/

theorem RwBuffer.Fits.grow {b : RwBuffer} (h : b.Fits) (k : Nat) :
    RwBuffer.Fits { b with blocks := b.blocks + k } := by
  refine ⟨h.read, Nat.le_trans h.write ?_⟩
  exact Nat.mul_le_mul_left memBlockRoom (Nat.le_add_right b.blocks k)

theorem spyRwBufferInit_fits : spyRwBufferInit.Fits := ⟨Nat.le_refl _, Nat.le_refl _⟩

/-- A writeable area ends within the blocks. -/
theorem spyRwBufferNextWriteable_le {b : RwBuffer} {len : Nat} (h : b.Fits)
    (hs : spyRwBufferNextWriteable b = some len) : 0 < len ∧ b.writePos + len ≤ b.cap := by
  have hle := h.write
  unfold spyRwBufferNextWriteable at hs
  unfold RwBuffer.cap at hs hle ⊢
  split at hs
  · cases hs
  · rename_i hne
    obtain rfl := Option.some.inj hs
    have hmod := Nat.mod_lt b.writePos (show 0 < memBlockRoom by decide)
    have hdiv := Nat.div_add_mod b.writePos memBlockRoom
    have hq : b.writePos / memBlockRoom < b.blocks :=
      Nat.div_lt_of_lt_mul (Nat.lt_of_le_of_ne hle hne)
    have hmul := Nat.mul_le_mul_left memBlockRoom (Nat.succ_le_of_lt hq)
    rw [Nat.mul_succ] at hmul
    omega

theorem RwBuffer.Fits.put {b : RwBuffer} (h : b.Fits) {bs : Bytes}
    (hle : b.writePos + bs.length ≤ b.cap) : (b.put bs).Fits := by
  have hr := h.read
  have hw : (b.put bs).writePos = b.writePos + bs.length := List.length_append ..
  refine ⟨?_, ?_⟩
  · rw [hw]
    exact Nat.le_trans hr (Nat.le_add_right _ _)
  · rw [hw]
    exact hle

theorem RwBuffer.Fits.readN {b : RwBuffer} (h : b.Fits) (n : Nat) :
    (spyRwBufferReadN b n).2.Fits := by
  refine ⟨?_, h.write⟩
  have hr := h.read
  show b.readPos + (b.unread.take n).length ≤ b.writePos
  unfold RwBuffer.unread RwBuffer.writePos at *
  rw [List.length_take, List.length_drop]
  omega

/-! ## Connections -/

theorem errorReply_held (conn : Connection) (error : SpyError) :
    (errorReply conn error).held = conn.held := by
  simp [errorReply, spyReplyHeader, spySendResponseIfNeeded, Connection.held]

/-- A response without a body can be sent. -/
theorem errorReply_fine {conn : Connection} (error : SpyError) (h : conn.Fine)
    (hs : conn.state ≠ .sendRsp) : (errorReply conn error).Fine := by
  have hz := h.unsent hs
  have hsent : (errorReply conn error).sentlen = 0 := by
    simp [errorReply, spyReplyHeader, spySendResponseIfNeeded, hz]
  have hbody : (errorReply conn error).bodyLen = 0 := by
    simp [errorReply, spyReplyHeader, spySendResponseIfNeeded]
  refine ⟨?_, ?_, fun _ => hsent, fun _ => ⟨?_, ?_, ?_, ?_⟩⟩
  · simpa [errorReply, spyReplyHeader, spySendResponseIfNeeded] using h.request
  · simpa [errorReply, spyReplyHeader, spySendResponseIfNeeded] using h.rspBody
  · rw [hsent]
  · rw [hsent, hbody]; decide
  · intro _; rw [hbody]; exact Nat.zero_le _
  · intro hge; rw [hsent] at hge; exact absurd hge (by decide)

theorem unsent_of_state {conn : Connection} (h : conn.state = .processRequest) :
    conn.state ≠ .sendRsp := by
  rw [h]; simp

theorem Ready.unsent {conn : Connection} (h : Ready conn) : conn.state ≠ .sendRsp :=
  unsent_of_state h.state

theorem Waits.unsent {conn : Connection} (h : Waits conn) : conn.state ≠ .sendRsp :=
  unsent_of_state h.state

/-! ## The connection that is served -/

/-- The books with the pool as it was before the event. -/
def Server.before (s : Server) (mem : MemBlocks) (marks : List Mark) : Books :=
  { s.books marks with mem := mem }

/-- `conn` is the local copy of connection `c`: it waits for no job, is sending only if
it was before, and has the blocks that were taken since the pool was `mem`. -/
structure Served (s : Server) (mem : MemBlocks) (c : Nat) (conn : Connection) : Prop where
  idle : c ∉ s.ledger.waiting
  grown : ∃ old n, s.conns c = some old ∧ Draws mem s.mem n ∧ conn.held = old.held + n ∧
    (conn.state = .sendRsp ↔ old.state = .sendRsp)
  fine : conn.Fine

section Served
variable {strand : Prop} {s s' : Server} {mem mem' : MemBlocks} {c k : Nat}
  {conn conn' : Connection} {marks : List Mark} {env : Env} {cfg : Config}

theorem Served.effect (hv : Served s mem c conn) (draws : Draws s.mem mem' k)
    (held : conn'.held = conn.held + k) :
    Effect (s.before mem marks) c (some conn') mem' s.statistic.connCount := by
  obtain ⟨old, n, hold, hd, hh, _⟩ := hv.grown
  have hsum : conn'.held = old.held + (n + k) := by omega
  exact Effect.keep (v := s.before mem marks) hold (hd.trans draws) hsum

/-- The connection is put back and its response started. -/
theorem Served.reply (hv : Served s mem c conn) (draws : Draws s.mem mem' k)
    (held : conn'.held = conn.held + k) (ok : ConnOk conn' False) (fine : conn'.Fine)
    (isOpen : Open marks c) :
    BookSteps strand (s.before mem marks)
      (({ s with mem := mem' }.setConn c conn').books (.started c :: marks)) := by
  have hrespond : BookStep strand (s.before mem marks) (s.before mem (.started c :: marks)) :=
    .respond hv.idle isOpen
  have hidle : BookStep strand (s.before mem (.started c :: marks)) _ :=
    .idle hv.idle (hv.effect draws held) (fun _ he => Option.some.inj he ▸ ⟨ok, fine⟩)
      fun _ _ _ => .inl (.started marks c)
  exact (ReflTransGen.single hrespond).tail hidle

theorem Served.error (hv : Served s mem c conn) (hs : conn.state ≠ .sendRsp)
    (error : SpyError) (isOpen : Open marks c) :
    BookSteps strand (s.before mem marks)
      ((s.setConn c (errorReply conn error)).books (.started c :: marks)) :=
  hv.reply (.refl _) (errorReply_held conn error) (errorReply_ok conn error)
    (errorReply_fine error hv.fine hs) isOpen

/-- The connection is put back without a response. -/
theorem Served.set (hv : Served s mem c conn) (ok : ConnOk conn False) :
    BookSteps strand (s.before mem marks) ((s.setConn c conn).books marks) := by
  obtain ⟨old, n, hold, _, _, hst⟩ := hv.grown
  refine .single (.idle hv.idle (hv.effect (.refl _) rfl)
    (fun _ he => Option.some.inj he ▸ ⟨ok, hv.fine⟩) fun conn' he hsend => ?_)
  obtain rfl := Option.some.inj he
  exact .inr ⟨old, hold, hst.mp hsend⟩

theorem giveBack_held (m : MemBlocks) (conn : Connection) :
    spyRwBufferReset (spyRwBufferReset m conn.request) conn.rspBody = m.giveBack conn.held := by
  simp only [spyRwBufferReset, MemBlocks.giveBack, Connection.held, Nat.add_assoc, Nat.sub_sub]

theorem Served.free (hv : Served s mem c conn) :
    BookSteps strand (s.before mem marks) ((spyFreeClientConnection s c conn).books marks) := by
  obtain ⟨old, n, hold, hd, hh, _⟩ := hv.grown
  have heff : Effect (s.before mem marks) c none (s.mem.giveBack (old.held + n))
      (u32 (s.statistic.connCount - 1)) := .free hold hd
  have hstep : BookStep strand (s.before mem marks) _ := .idle hv.idle heff nofun nofun
  rw [← hh, ← giveBack_held] at hstep
  exact .single hstep

/-- What `spy_reset_client_connection` leaves. -/
def Connection.cleared (conn : Connection) : Connection :=
  { conn with
    request := spyRwBufferInit
    rspBody := spyRwBufferInit
    sentlen := 0
    error := .success
    bodyLen := 0
    state := .receiveHdr
    readable := true
    writable := false }

theorem Connection.cleared_ok (conn : Connection) : ConnOk conn.cleared False ∧ conn.cleared.Fine :=
  ⟨⟨rfl, rfl, rfl, rfl, id⟩, spyRwBufferInit_fits, spyRwBufferInit_fits, fun _ => rfl, nofun⟩

theorem Served.reset (hv : Served s mem c conn) :
    BookSteps strand (s.before mem marks) ((spyResetClientConnection s c conn).books marks) := by
  obtain ⟨old, n, hold, hd, hh, _⟩ := hv.grown
  have heff : Effect (s.before mem marks) c (some conn.cleared) (s.mem.giveBack (old.held + n))
      s.statistic.connCount := .reset hold hd rfl
  have hstep : BookStep strand (s.before mem marks) _ :=
    .idle hv.idle heff (fun _ he => Option.some.inj he ▸ conn.cleared_ok) fun _ he hst =>
      absurd (Option.some.inj he ▸ hst : conn.cleared.state = .sendRsp) nofun
  rw [← hh, ← giveBack_held] at hstep
  exact .single hstep

/-- An error reply, with the answer it stands for. -/
theorem Served.answer (hv : Served s mem c conn) (hs : conn.state ≠ .sendRsp) (error : SpyError)
    (isOpen : Open marks c) (a : Answer) (ha : a.conn = c) :
    Traces strand (s.before mem marks) s ((s.setConn c (errorReply conn error)).answer a) := by
  refine ⟨[a], rfl, ?_⟩
  have hsteps : BookSteps strand (s.before mem marks)
      ((s.setConn c (errorReply conn error)).books (.started c :: marks)) :=
    hv.error hs error isOpen
  show BookSteps strand _ ((s.setConn c (errorReply conn error)).books (.started a.conn :: marks))
  rw [ha]
  exact hsteps

theorem Connection.Fine.of_unsent (hq : conn.request.Fits) (hr : conn.rspBody.Fits)
    (hz : conn.sentlen = 0) (hs : conn.state ≠ .sendRsp) : conn.Fine :=
  ⟨hq, hr, fun _ => hz, fun he => absurd he hs⟩

/-! ## The copy of a handler -/

theorem Served.copy (hv : Served s mem c conn) (hr : Ready conn)
    (copy : Prepares s.mem conn mem' conn') :
    Served { s with mem := mem' } mem c conn' ∧ conn'.state = .processRequest ∧
      conn'.writable = false := by
  cases copy with
  | @mk k n readable draws =>
    obtain ⟨old, j, hold, hd, hh, hst⟩ := hv.grown
    refine ⟨⟨hv.idle, ⟨old, j + k, hold, hd.trans draws, ?_, hst⟩,
      .of_unsent (hv.fine.request.readN n) (hv.fine.rspBody.grow k) (hv.fine.unsent hr.unsent)
        hr.unsent⟩, hr.state, hr.writable⟩
    show conn.request.blocks + (conn.rspBody.blocks + k) = old.held + (j + k)
    unfold Connection.held at hh ⊢
    omega

/-- The copy is put back to wait for a job. -/
theorem Served.waits (hv : Served s mem c conn) (marks : List Mark)
    (hstate : conn.state = .processRequest) (hwr : conn.writable = false) :
    Effect (s.before mem marks) c (some { conn with readable := false }) s.mem
        s.statistic.connCount ∧
      Waits { conn with readable := false } ∧ Connection.Fine { conn with readable := false } := by
  have hns := unsent_of_state hstate
  exact ⟨hv.effect (.refl _) rfl, ⟨hstate, rfl, hwr⟩,
    .of_unsent hv.fine.request hv.fine.rspBody (hv.fine.unsent hns) hns⟩

/-- A job that is queued and owns no chunk. -/
theorem Served.submit (hv : Served s mem c conn) (work : Work) {free : List Nat}
    (hc : work.conn = c) (isOpen : Open marks c) (hstate : conn.state = .processRequest)
    (hwr : conn.writable = false) (own : owner (work, .queued) = none)
    (roomy : Roomy { conn with readable := false } (work, .queued))
    (slots : s.freeIoJobs = (slotOf (work, .queued)).toList ++ free) :
    BookSteps strand (s.before mem marks)
      { ({ s with freeIoJobs := free }.setConn c { conn with readable := false }).books marks with
        works := (work, .queued) :: s.works
        readingCount := if isRead (work, .queued) then u32 (s.statistic.readingCount + 1)
          else s.statistic.readingCount } := by
  subst hc
  obtain ⟨heff, hwaits, hfine⟩ := hv.waits marks hstate hwr
  have hstep : BookStep strand (s.before mem marks) _ :=
    .submit (x := (work, .queued)) hv.idle isOpen heff hwaits hfine roomy slots (.other own)
  refine .single ?_
  have henter : (s.before mem marks).enter (work, .queued) free =
      { s.before mem marks with
        works := (work, .queued) :: s.works
        freeIoJobs := free
        readingCount := if isRead (work, .queued) then u32 (s.statistic.readingCount + 1)
          else s.statistic.readingCount } := by
    unfold Books.enter
    rw [own]
    rfl
  rw [henter] at hstep
  exact hstep

/-- A disk check or a dump owns no chunk and reads nothing. -/
theorem Work.Plain.idle {work : Work} (h : work.Plain) :
    owner (work, .queued) = none ∧ isRead (work, .queued) = false ∧
      ∀ conn, Roomy conn (work, .queued) := by
  cases work with
  | io job =>
    have fn : job.fn = .check := h
    simp [owner, isRead, Roomy, fn]
  | dump job => exact ⟨rfl, rfl, fun _ => trivial⟩

theorem fits_false {s : Server} {size : Nat} {id : UInt64} (h : ¬ s.fits id size = true) :
    (s.chunk id).availSpace ≤ u32 (size + fileMetaSize) := by
  simpa [Server.fits] using h

/-- The free chunk a WRITE request is going to take. -/
def writeTarget (cfg : Config) (s : Server) (conn : Connection) : Option UInt64 :=
  match readInnerHdr conn with
  | .error _ => none
  | .ok (serverId, fid, _) =>
    if serverId = cfg.serverId ∧ spyLookupFileIndex s.fileIndex fid = none then
      s.chunks.find? fun id => s.fits id (conn.bodyLen - 8 - 2)
    else none

theorem NewWrite.target {fid : UInt64} {size : Nat} (new : NewWrite cfg s conn fid size conn') :
    writeTarget cfg s conn = s.chunks.find? fun id => s.fits id size := by
  unfold writeTarget
  rw [new.header, new.size_eq]
  exact if_pos ⟨rfl, new.unstored⟩

/-! ## Queries -/

theorem u32_le (n : Nat) : u32 n ≤ n := by
  unfold u32; omega

theorem bodyReply_eq (hs : conn.state ≠ .sendRsp) (n : Nat) (b : RwBuffer) :
    bodyReply conn n b = { conn with
      error := .success
      bodyLen := n
      rspHeader := spyMachWriteTo1 conn.opcode ++ (spyMachWriteTo1 SpyError.success.code ++
        spyMachWriteTo4 n)
      rspBody := b
      state := .sendRsp
      writable := true } := by
  simp [bodyReply, spyReplyBody, spyReplyHeader, spySendResponseIfNeeded, hs]

/-- `spy_reply_header` leaves the response buffer alone. -/
theorem bodyReply_rspBody (hs : conn.state ≠ .sendRsp) (n : Nat) :
    spyReplyBody { spyReplyHeader { conn with error := .success, bodyLen := n } with
      state := .sendRsp } = bodyReply conn n conn.rspBody := by
  simp [bodyReply, spyReplyBody, spyReplyHeader, spySendResponseIfNeeded, hs]

theorem bodyReply_spec (h : conn.Fine) (hs : conn.state ≠ .sendRsp) {n : Nat} {b : RwBuffer}
    (hb : b.Fits) (hn : n ≤ b.unread.length) :
    ConnOk (bodyReply conn n b) False ∧ (bodyReply conn n b).Fine ∧
      (bodyReply conn n b).held = conn.request.blocks + b.blocks := by
  rw [bodyReply_eq hs]
  have hz := h.unsent hs
  refine ⟨⟨rfl, id⟩, ⟨h.request, hb, fun hne => absurd rfl hne, fun _ => ⟨?_, ?_, ?_, ?_⟩⟩, rfl⟩
  · exact Int.le_of_eq hz.symm
  · show conn.sentlen ≤ _
    rw [hz]
    exact Int.add_nonneg (by decide) (Int.natCast_nonneg n)
  · exact fun _ => hn
  · intro hge
    have hge' : (rspHdrSize : Int) ≤ conn.sentlen := hge
    rw [hz] at hge'
    exact absurd hge' (by decide)

theorem spyRwBufferWriteN_all {b : RwBuffer} {buf : Bytes}
    (h : (spyRwBufferWriteN b buf).1 = buf.length) (hf : b.Fits) :
    (spyRwBufferWriteN b buf).2 = b.put buf ∧ b.writePos + buf.length ≤ b.cap := by
  have hw := hf.write
  have hlen : buf.length ≤ b.cap - b.writePos := by
    simp only [spyRwBufferWriteN, List.length_take] at h
    omega
  refine ⟨?_, by omega⟩
  unfold spyRwBufferWriteN
  rw [List.take_of_length_le hlen]

/-! ## Pending writes that are given up -/

theorem leave_pending (v : Books) (job : IoJob) (rest : List (Work × Stage)) :
    v.leave (.io job, .pending) rest = { v with
      works := rest
      freeIoJobs := job.slot :: v.freeIoJobs
      pendingWritesSize := u32 (v.pendingWritesSize - 1) } := by
  have hown : owner (Work.io job, Stage.pending) = none := by simp [owner]
  unfold Books.leave
  rw [hown]
  rfl

/-- The books with another connection already as its answer will leave it. -/
def Server.settledBooks (s : Server) (marks : List Mark) : Option (Nat × Connection) → Books
  | none => s.books marks
  | some (c, conn) => (s.books marks).put c (some conn) s.mem s.statistic.connCount

theorem put_comm {v : Books} {i j : Nat} {a b : Option Connection} {m m' : MemBlocks} {n n' : Nat}
    (h : i ≠ j) : (v.put i a m n).put j b m' n' = (v.put j b m n).put i a m' n' := by
  simp only [Books.put, Books.mk.injEq, true_and, and_true]
  funext k
  by_cases hi : k = i
  · rw [if_pos hi, if_pos hi, if_neg fun hj => h (hi.symm.trans hj)]
  · rw [if_neg hi, if_neg hi]

theorem put_put (v : Books) (c : Nat) (a b : Option Connection) (m m' : MemBlocks) (n n' : Nat) :
    (v.put c a m n).put c b m' n' = v.put c b m' n' := by
  simp only [Books.put, Books.mk.injEq, true_and, and_true]
  funext i
  by_cases hi : i = c
  · rw [if_pos hi, if_pos hi]
  · rw [if_neg hi, if_neg hi, if_neg hi]

/-- A job that is waited for has a live connection which is ready for its reply. -/
theorem BookInv.waits {limit : Nat} {ids : List UInt64} {v : Books} (h : BookInv limit ids v)
    {x : Work × Stage} (hx : x ∈ v.works) (hc : v.conns x.1.conn = some conn) :
    Waits conn ∧ conn.Fine :=
  ⟨(h.conns.ok _ conn hc).waits (List.mem_map.mpr ⟨x, hx, rfl⟩), h.table.fine _ conn hc⟩

/-- The first job is answered with an empty response. -/
theorem BookInv.fail {limit : Nat} {ids : List UInt64} {v : Books} (h : BookInv limit ids v)
    {x : Work × Stage} {rest : List (Work × Stage)} {chunks writingChunks : List UInt64}
    (hw : v.works = x :: rest) (hc : v.conns x.1.conn = some conn)
    (gives : Gives strand v x rest chunks writingChunks) (ha : Answerable x) (error : SpyError) :
    BookStep strand v { (v.leave x rest).put x.1.conn (some (errorReply conn error)) v.mem
      v.connCount with
        chunks := chunks
        writingChunks := writingChunks
        marks := .started x.1.conn :: v.marks } := by
  obtain ⟨hwaits, hfine⟩ := h.waits (hw ▸ List.mem_cons_self ..) hc
  have heff : Effect v x.1.conn (some (errorReply conn error)) v.mem v.connCount :=
    .keep (n := 0) hc (.refl _) (errorReply_held conn error)
  exact .complete hw heff (fun _ he => Option.some.inj he ▸
    ⟨errorReply_ok conn error, errorReply_fine error hfine hwaits.unsent⟩) gives (.started ha)

/-- A pending write does not wait on the connection that is being served. -/
theorem pending_ne {c : Nat} {job : IoJob} {rest : List IoJob} (hidle : c ∉ s.ledger.waiting)
    (hp : s.pendingWrites = job :: rest) : c ≠ job.conn := by
  intro he
  refine hidle ?_
  show c ∈ s.works.map fun y => y.1.conn
  unfold Server.works
  rw [hp, he]
  exact List.mem_cons_self ..

theorem drop_books {limit : Nat} {ids : List UInt64} (new : Option (Nat × Connection))
    {job : IoJob} {rest : List IoJob} (error : SpyError)
    (h : BookInv limit ids (s.settledBooks marks new))
    (hidle : ∀ x, new = some x → x.1 ∉ s.ledger.waiting) (hp : s.pendingWrites = job :: rest)
    (hlive : s.conns job.conn = some conn) :
    BookStep strand (s.settledBooks marks new)
      ((s.drop job rest conn error).settledBooks (.started job.conn :: marks) new) := by
  have hworks : s.works = (.io job, .pending) :: { s with pendingWrites := rest }.works := by
    unfold Server.works; rw [hp]; rfl
  have hown : owner (Work.io job, Stage.pending) = none := by simp [owner]
  cases new with
  | none =>
    have hstep : BookStep strand (s.books marks) _ :=
      BookInv.fail h hworks hlive (.other hown) trivial error
    rw [leave_pending] at hstep
    exact hstep
  | some x =>
    obtain ⟨c, conn'⟩ := x
    have hne : c ≠ job.conn := pending_ne (hidle (c, conn') rfl) hp
    have hstep : BookStep strand (s.settledBooks marks (some (c, conn'))) _ :=
      BookInv.fail h hworks ((if_neg hne.symm).trans hlive) (.other hown) trivial error
    rw [leave_pending] at hstep
    -- the books without either of the two connections
    obtain ⟨v, hv⟩ : ∃ v : Books, v = { s.books marks with
      works := { s with pendingWrites := rest }.works
      freeIoJobs := job.slot :: s.freeIoJobs
      pendingWritesSize := u32 (s.pendingWritesSize - 1)
      marks := .started job.conn :: marks } := ⟨_, rfl⟩
    have hstep' : BookStep strand (s.settledBooks marks (some (c, conn')))
        ((v.put c (some conn') s.mem s.statistic.connCount).put job.conn
          (some (errorReply conn error)) s.mem s.statistic.connCount) := by
      rw [hv]
      exact hstep
    rw [put_comm hne, hv] at hstep'
    exact hstep'

theorem map_mark_snoc (as : List Answer) (a : Answer) (marks : List Mark) :
    (as ++ [a]).map Answer.mark ++ marks = as.map Answer.mark ++ .started a.conn :: marks := by
  simp [Answer.mark]

theorem Drops.books {limit : Nat} {ids : List UInt64} (new : Option (Nat × Connection))
    (h : BookInv limit ids (s.settledBooks marks new))
    (hidle : ∀ x, new = some x → x.1 ∉ s.ledger.waiting) (hd : Drops s s') :
    ∃ as, s'.answers = as ++ s.answers ∧ (∀ a ∈ as, ∀ x, new = some x → a.conn ≠ x.1) ∧
      BookSteps strand (s.settledBooks marks new)
        (s'.settledBooks (as.map Answer.mark ++ marks) new) := by
  induction hd generalizing marks with
  | stop => exact ⟨[], rfl, nofun, .refl⟩
  | @drop s s' job rest conn error first live failed _ ih =>
    have hstep : BookStep strand _ _ := drop_books new error h hidle first live
    obtain ⟨_, hu⟩ : LedgerStep (fun _ => True) True True _ _ ∧ _ :=
      drop_sim new hidle first failed
    obtain ⟨as, has, hne, hsteps⟩ := ih (hstep.inv h) hu.idle
    refine ⟨as ++ [.write job.conn job.file.fid error (conn.payload job.file.size)], ?_, ?_, ?_⟩
    · rw [has, List.append_assoc]
      rfl
    · intro a ha x hx
      rcases List.mem_append.mp ha with ha | ha
      · exact hne a ha x hx
      · rw [List.mem_singleton.mp ha]
        exact (pending_ne (hidle x hx) first).symm
    · rw [map_mark_snoc]
      exact .head hstep hsteps

theorem Open.append {ms : List Mark} (h : Open marks c) (hm : ∀ m ∈ ms, m.conn ≠ c) :
    Open (ms ++ marks) c := by
  induction ms with
  | nil => exact h
  | cons m ms ih =>
    exact (ih fun m' hm' => hm m' (List.mem_cons_of_mem _ hm')).cons (hm m (List.mem_cons_self ..))

theorem Served.kill {limit : Nat} {ids : List UInt64}
    (h : BookInv limit ids (s.before mem marks)) (hv : Served s mem c conn) (hr : Ready conn)
    (isOpen : Open marks c) {t : Server} (drops : Drops (s.setConn c conn) t)
    (live : t.conns c = some conn') :
    Traces strand (s.before mem marks) s ((t.setConn c (errorReply conn' .success)).answer
      (.other c conn'.opcode .success)) := by
  -- the connection waits as one that is receiving until the pending writes are dropped
  obtain ⟨idle, hidle_eq⟩ : ∃ idle, idle = { conn with state := .receiveBody } := ⟨_, rfl⟩
  have hok : ConnOk idle False ∧ idle.Fine := by
    rw [hidle_eq]
    refine ⟨⟨hr.readable, hr.writable, hr.readPos, ?_, hr.bodyLen_lt, hr.rspBody, id⟩,
      .of_unsent hv.fine.request hv.fine.rspBody (hv.fine.unsent hr.unsent) nofun⟩
    exact Nat.le_trans (Nat.le_add_right _ _) hr.data
  have hunsent : idle.state ≠ .sendRsp := by
    rw [hidle_eq]
    exact nofun
  have hset : (s.setConn c conn).settledBooks marks (some (c, idle)) =
      (s.before mem marks).put c (some idle) s.mem s.statistic.connCount :=
    put_put (s.before mem marks) c _ _ s.mem s.mem s.statistic.connCount _
  have hheld : idle.held = conn.held + 0 := by rw [hidle_eq]; rfl
  have hbegin : BookStep strand (s.before mem marks)
      ((s.setConn c conn).settledBooks marks (some (c, idle))) := by
    rw [hset]
    exact .idle hv.idle (hv.effect (.refl _) hheld) (fun _ he => Option.some.inj he ▸ hok)
      fun _ he hst => absurd (Option.some.inj he ▸ hst) hunsent
  have hidle : ∀ x, some (c, idle) = some x → x.1 ∉ (s.setConn c conn).ledger.waiting := by
    intro x hx
    obtain rfl := Option.some.inj hx
    exact hv.idle
  obtain ⟨as, has, hne, hsteps⟩ : ∃ as, _ ∧ _ ∧ BookSteps strand _ (t.settledBooks _ _) :=
    drops.books (some (c, idle)) (hbegin.inv h) hidle
  obtain ⟨_, hu⟩ : Steps (fun _ => True) True True _ (t.settled _) ∧ _ :=
    drops.sim (some (c, idle)) hidle
  have hconn : t.conns c = some conn := (hu.conn _ rfl).trans (if_pos rfl)
  obtain rfl := Option.some.inj (hconn.symm.trans live)
  have hopen : Open (as.map Answer.mark ++ marks) c := by
    refine isOpen.append fun m hm => ?_
    obtain ⟨a, ha, rfl⟩ := List.mem_map.mp hm
    exact hne a ha _ rfl
  have hrespond : BookStep strand
      (t.settledBooks (as.map Answer.mark ++ marks) (some (c, idle)))
      (t.settledBooks (.started c :: (as.map Answer.mark ++ marks)) (some (c, idle))) :=
    .respond (hu.idle _ rfl) hopen
  have heff : Effect (t.settledBooks (.started c :: (as.map Answer.mark ++ marks))
      (some (c, idle))) c (some (errorReply conn .success)) t.mem t.statistic.connCount := by
    refine .keep (n := 0) (if_pos rfl) (.refl _) ?_
    rw [hheld]
    exact errorReply_held conn .success
  have hend : BookStep strand _ _ := .idle (hu.idle _ rfl) heff
    (fun _ he => Option.some.inj he ▸ ⟨errorReply_ok _ _, errorReply_fine _ hv.fine hr.unsent⟩)
    fun _ _ _ => .inl (.started _ c)
  simp only [Server.settledBooks, put_put] at hend
  refine ⟨.other c conn.opcode .success :: as, ?_, ?_⟩
  · show _ :: t.answers = _
    rw [has]
    rfl
  · exact ReflTransGen.head hbegin ((hsteps.tail hrespond).tail hend)

/-! ## Every request -/

theorem Handles.books {limit : Nat} {ids : List UInt64}
    (h : BookInv limit ids (s.before mem marks)) (hv : Served s mem c conn) (hr : Ready conn)
    (isOpen : Open marks c)
    (hkeep : Opcode.ofByte conn.opcode = some .write → (writeTarget cfg s conn).isSome = true →
      s.freeIoJobs = [] → strand)
    (hh : Handles cfg s c conn env s') : Traces strand (s.before mem marks) s s' := by
  cases hh with
  | reply a told _ copy =>
    obtain ⟨hv', hstate, -⟩ := hv.copy hr copy
    cases a <;> exact hv'.answer (unsent_of_state hstate) _ isOpen _ told
  | @body mem' k b body draws blocks all =>
    subst blocks
    obtain ⟨hput, hle⟩ := spyRwBufferWriteN_all all (hv.fine.rspBody.grow k)
    have hfits := (hv.fine.rspBody.grow k).put hle
    have hunread : u32 body.length ≤ (RwBuffer.put { conn.rspBody with
        blocks := conn.rspBody.blocks + k } body).unread.length := by
      rw [hr.rspBody]
      exact u32_le body.length
    obtain ⟨hok, hfine, hheld⟩ := bodyReply_spec hv.fine hr.unsent hfits hunread
    have hsum : (bodyReply conn (u32 body.length) _).held = conn.held + k :=
      hheld.trans (Nat.add_assoc ..).symm
    refine ⟨[.other c _ .success], rfl, ?_⟩
    rw [hput]
    exact hv.reply draws hsum hok hfine isOpen
  | read slot id entry copy _ _ room slots =>
    obtain ⟨hv', hstate, hwr⟩ := hv.copy hr copy
    have hsubmit : BookSteps strand _ _ := hv'.submit (.io { IoJob.blank slot with
      fn := .read, conn := c, chunk := id, indexEntry := entry }) rfl isOpen hstate hwr
      (owner_none (by simp)) (fun _ => room) slots
    exact ⟨[], rfl, BookSteps.queue hsubmit⟩
  | plain work same plain copy slots =>
    obtain ⟨hv', hstate, hwr⟩ := hv.copy hr copy
    obtain ⟨hown, hread, hroomy⟩ := plain.idle
    have hsubmit : BookSteps strand (s.before mem marks) _ :=
      hv'.submit work same isOpen hstate hwr hown (hroomy _) slots
    rw [hread] at hsubmit
    exact ⟨[], rfl, BookSteps.queue hsubmit⟩
  | take slot id fid size new found slots =>
    obtain ⟨hv', hstate, hwr⟩ := hv.copy hr (.header new.header)
    obtain ⟨heff, hwaits, hfine⟩ := hv'.waits marks hstate hwr
    have hstep : BookStep strand (s.before mem marks) _ :=
      .submit (x := (.io { writeJob slot c fid size with
        offset := (s.chunk id).currentOffset, chunk := id }, .queued)) hv.idle
        isOpen heff hwaits hfine nofun slots (.taken rfl (List.mem_of_find?_eq_some found))
    exact ⟨[], rfl, BookSteps.queue (.single hstep)⟩
  | @strand conn' id fid size new found none =>
    obtain ⟨hv', hstate, -⟩ := hv.copy hr (.header new.header)
    have hstep : BookStep strand (s.before mem marks) _ :=
      .abandon (hkeep new.opcode (by rw [new.target, found]; rfl) none)
        (List.mem_of_find?_eq_some found)
    have hmoved : Served { s with
        chunks := s.chunks.erase id, writingChunks := id :: s.writingChunks } mem c conn' :=
      ⟨hv'.idle, hv'.grown, hv'.fine⟩
    obtain ⟨as, has, hsteps⟩ : Traces strand _ _ _ := hmoved.answer
      (unsent_of_state hstate) .ioJobUnavailable isOpen
      (.write c fid .ioJobUnavailable (conn'.payload size)) rfl
    exact ⟨as, has, .head hstep hsteps⟩
  | park slot fid size new full room slots =>
    obtain ⟨hv', hstate, hwr⟩ := hv.copy hr (.header new.header)
    obtain ⟨heff, hwaits, hfine⟩ := hv'.waits marks hstate hwr
    have hfull : ∀ id ∈ s.chunks, (s.chunk id).availSpace ≤ u32 (size + fileMetaSize) :=
      fun id hid => fits_false (List.find?_eq_none.mp full id hid)
    have hstep : BookStep strand (s.before mem marks) _ :=
      .submit (x := (.io { writeJob slot c fid size with reqTime := env.now }, .pending)) hv.idle
        isOpen heff hwaits hfine nofun slots (.parked rfl room hfull)
    exact ⟨[], rfl, BookSteps.pend (.single hstep)⟩
  | kill drops live => exact hv.kill h hr isOpen drops live
  | free => exact ⟨[], rfl, hv.free⟩

end Served
end Speedy.Chunkserver
