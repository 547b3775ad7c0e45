import Speedy.Chunkserver.Flow
import Speedy.Chunkserver.Outcomes

/-! # Socket events are runs of small steps

What the handlers of a readable or writable socket do to a server whose ledger
keeps the invariant is a sequence of `LedgerStep`s: one lemma per handler, up to
`spyReadHandler_sim` and `Sends.sim`. -/
namespace Speedy.Chunkserver
open Speedy.Lib Relation

abbrev Steps (sb : Pwrite → Prop) (dup ack : Prop) : Ledger → Ledger → Prop :=
  ReflTransGen (LedgerStep sb dup ack)

/-- A step on the jobs in another order. -/
theorem Steps.shuffled {sb : Pwrite → Prop} {dup ack : Prop} {v v' : Ledger}
    {ws ws' : List (Work × Stage)} (before : v.works.Perm ws)
    (step : LedgerStep sb dup ack { v with works := ws } v') (after : v'.works.Perm ws') :
    Steps sb dup ack v { v' with works := ws' } :=
  ((ReflTransGen.single (.shuffle before)).tail step).tail (.shuffle after)

/-! ## The jobs in another order -/

section Perm
variable {s : Server}

theorem works_perm_pending {job : IoJob} {rest : List IoJob}
    (h : s.pendingWrites.Perm (job :: rest)) :
    s.works.Perm ((.io job, .pending) :: { s with pendingWrites := rest }.works) := by
  unfold Server.works
  exact (h.map _).append_right _

theorem works_perm_queued {work : Work} {rest : List Work} (h : s.queued.Perm (work :: rest)) :
    s.works.Perm ((work, .queued) :: { s with queued := rest }.works) := by
  unfold Server.works
  refine (((h.map fun work => (work, Stage.queued)).append_right _).append_left _).trans ?_
  exact List.perm_middle

theorem works_perm_running {x : Work × Progress} {rest : List (Work × Progress)}
    (h : s.running.Perm (x :: rest)) :
    s.works.Perm ((x.1, .running x.2) :: { s with running := rest }.works) := by
  unfold Server.works
  refine ((((h.map fun x => (x.1, Stage.running x.2)).append_right _).append_left _).append_left
    _).trans ?_
  refine (List.Perm.append_left _ List.perm_middle).trans ?_
  exact List.perm_middle

theorem works_perm_finished {work : Work} {rest : List Work} (h : s.finished.Perm (work :: rest)) :
    s.works.Perm ((work, .finished) :: { s with finished := rest }.works) := by
  unfold Server.works
  refine ((((h.map fun work => (work, Stage.finished)).append_left _).append_left _).append_left
    _).trans ?_
  simp only [List.map_cons, ← List.append_assoc]
  exact List.perm_middle

end Perm

/-! ## Requests -/

section Requests
variable {sb : Pwrite → Prop} {dup ack : Prop} {cfg : Config} {s s' : Server} {c : Nat}
  {conn : Connection} {env : Env}

/-- The connection whose request is processed: it waits for no job. -/
structure Serving (s : Server) (c : Nat) : Prop where
  live : ∃ old, s.conns c = some old
  idle : c ∉ s.ledger.waiting

/-- A connection with a whole request in its buffer. -/
structure Ready (conn : Connection) : Prop where
  state : conn.state = .processRequest
  readable : conn.readable = true
  writable : conn.writable = false
  readPos : conn.request.readPos = 5
  data : 5 + conn.bodyLen ≤ conn.request.data.length
  bodyLen_lt : conn.bodyLen < 4294967296
  rspBody : conn.rspBody = spyRwBufferInit

theorem errorReply_ok (conn : Connection) (error : SpyError) :
    ConnOk (errorReply conn error) False := by
  simp [ConnOk, errorReply, spyReplyHeader, spySendResponseIfNeeded]

/-- Only the connection changes, and an answer that promises nothing is given. -/
theorem Serving.reply (hv : Serving s c) (ok : ConnOk conn False) {a : Answer} (quiet : a.Quiet) :
    Steps sb dup ack s.ledger ((s.setConn c conn).answer a).ledger :=
  .single (.idle [a] hv.live hv.idle ok (by simpa using quiet))

theorem Serving.set (hv : Serving s c) (ok : ConnOk conn False) :
    Steps sb dup ack s.ledger (s.setConn c conn).ledger :=
  .single (.idle [] hv.live hv.idle ok (by simp))

theorem Serving.free (hv : Serving s c) (conn : Connection) :
    Steps sb dup ack s.ledger (spyFreeClientConnection s c conn).ledger :=
  .single (.drop hv.live hv.idle)

/-- A step puts a job at the head, and the server keeps it at the end of the queue. -/
theorem Steps.queue {v : Ledger} {work : Work}
    (steps : Steps sb dup ack v { s.ledger with works := (work, .queued) :: s.works }) :
    Steps sb dup ack v (spyQueueWork s work).ledger :=
  steps.tail (.shuffle (works_perm_queued (s := spyQueueWork s work)
    (List.perm_append_singleton work s.queued)).symm)

theorem Steps.pend {v : Ledger} {job : IoJob} {n : Nat}
    (steps : Steps sb dup ack v { s.ledger with works := (.io job, .pending) :: s.works }) :
    Steps sb dup ack v
      { s with pendingWrites := s.pendingWrites ++ [job], pendingWritesSize := n }.ledger :=
  steps.tail (.shuffle (works_perm_pending
    (s := { s with pendingWrites := s.pendingWrites ++ [job], pendingWritesSize := n })
    (List.perm_append_singleton job s.pendingWrites)).symm)

theorem spyLookupFileIndex_none {index : List IndexEntry} {fid : UInt64}
    (h : spyLookupFileIndex index fid = none) : Fresh index fid := by
  intro e he hfid
  have hne := List.find?_eq_none.mp h e he
  simp [hfid] at hne

theorem spyLookupFileIndex_some {index : List IndexEntry} {fid : UInt64} {e : IndexEntry}
    (h : spyLookupFileIndex index fid = some e) : e ∈ index ∧ e.fid = fid :=
  ⟨List.mem_of_find?_eq_some h, by simpa using List.find?_some h⟩

/-- What `spy_handle_write` knows once it has read the inner header. -/
structure Inner (conn : Connection) (size : Nat) : Prop where
  state : conn.state = .processRequest
  writable : conn.writable = false
  readPos : conn.request.readPos = 15
  data : 15 + size ≤ conn.request.data.length
  size_lt : size < 4294967296

theorem NewWrite.inner {conn' : Connection} {fid : UInt64} {size : Nat}
    (new : NewWrite cfg s conn fid size conn') (hr : Ready conn) : Inner conn' size := by
  have hd := hr.data
  have hlt := hr.bodyLen_lt
  have hsize := new.size_eq
  obtain ⟨hbuf, rfl⟩ := readInnerHdr_conn new.header
  have hten : 10 ≤ conn.request.data.length - 5 := by
    rw [RwBuffer.unread, hr.readPos, List.length_take, List.length_drop] at hbuf
    simp only [reqInnerHdrSize] at hbuf
    omega
  refine ⟨hr.state, hr.writable, ?_, ?_, by omega⟩
  · show conn.request.readPos + (conn.request.unread.take reqInnerHdrSize).length = 15
    rw [hr.readPos, hbuf]
    rfl
  · show 15 + _ ≤ conn.request.data.length
    omega

theorem Prepares.waits {mem mem' : MemBlocks} {conn' : Connection}
    (copy : Prepares mem conn mem' conn') (hr : Ready conn) :
    Waits { conn' with readable := false } := by
  cases copy
  exact ⟨hr.state, rfl, hr.writable⟩

theorem Prepares.empty {mem mem' : MemBlocks} {conn' : Connection}
    (copy : Prepares mem conn mem' conn') (hr : Ready conn) :
    conn'.rspBody.data = [] ∧ conn'.rspBody.readPos = 0 := by
  cases copy
  exact ⟨congrArg RwBuffer.data hr.rspBody, congrArg RwBuffer.readPos hr.rspBody⟩

theorem Inner.waits {size : Nat} (hi : Inner conn size) : Waits { conn with readable := false } :=
  ⟨hi.state, rfl, hi.writable⟩

theorem Serving.park (hv : Serving s c) {job : IoJob} {size : Nat} (hi : Inner conn size)
    (fresh : Fresh s.fileIndex job.file.fid) (hc : job.conn = c) (hfn : job.fn = .write)
    (hsize : job.file.size = size) :
    LedgerStep sb dup ack s.ledger
      { s.ledger.setConn c { conn with readable := false } with
        works := (.io job, .pending) :: s.works } := by
  subst hc hsize
  exact .park ⟨hv.live, hv.idle, hi.waits⟩ hfn ⟨hi.readPos, hi.data, hi.size_lt⟩ fresh

/-! ### Pending writes that are given up -/

/-- The ledger with another connection already as its answer will leave it. -/
def Server.settled (s : Server) : Option (Nat × Connection) → Ledger
  | none => s.ledger
  | some (c, conn) => s.ledger.setConn c conn

/-- What happens to the pending writes does not touch the connection that is
being served. -/
structure Untouched (new : Option (Nat × Connection)) (s s' : Server) : Prop where
  idle : ∀ x, new = some x → x.1 ∉ s'.ledger.waiting
  conn : ∀ x, new = some x → s'.conns x.1 = s.conns x.1

theorem setConn_comm {v : Ledger} {i j : Nat} {a b : Connection} (h : i ≠ j) :
    (v.setConn i a).setConn j b = (v.setConn j b).setConn i a := by
  simp only [Ledger.setConn, Ledger.mk.injEq, true_and, and_true]
  funext k
  by_cases hi : k = i
  · rw [if_pos hi, if_pos hi, if_neg fun hj => h (hi.symm.trans hj)]
  · rw [if_neg hi, if_neg hi]

theorem drop_sim (new : Option (Nat × Connection)) {job : IoJob} {rest : List IoJob}
    {error : SpyError} (hidle : ∀ x, new = some x → x.1 ∉ s.ledger.waiting)
    (hp : s.pendingWrites = job :: rest) (he : error ≠ .success) :
    LedgerStep sb dup ack (s.settled new) ((s.drop job rest conn error).settled new) ∧
      Untouched new s (s.drop job rest conn error) := by
  have hworks : s.works = (.io job, .pending) :: { s with pendingWrites := rest }.works := by
    unfold Server.works; rw [hp]; rfl
  have hwait :
      s.ledger.waiting = job.conn :: { s with pendingWrites := rest }.ledger.waiting := by
    show s.works.map (fun y => y.1.conn) = _
    rw [hworks]; rfl
  have hstep : ∀ v : Ledger, v.works = s.works → LedgerStep sb dup ack v
      { v.setConn job.conn (errorReply conn error) with
        works := { s with pendingWrites := rest }.works
        answers := .write job.conn job.file.fid error (conn.payload job.file.size) ::
          v.answers } :=
    fun v hv => .reply (hv.trans hworks) (by simp [owner]) (errorReply_ok conn error) he
  refine ⟨?_, fun x hx hin => ?_, fun x hx => if_neg fun he => ?_⟩
  · cases new with
    | none => exact hstep s.ledger rfl
    | some x =>
      have hne : x.1 ≠ job.conn := by
        intro he
        exact hidle x rfl (hwait ▸ he ▸ List.mem_cons_self ..)
      have h1 := hstep (s.ledger.setConn x.1 x.2) rfl
      rw [setConn_comm hne] at h1
      exact h1
  · exact hidle x hx (hwait ▸ List.mem_cons_of_mem _ hin)
  · exact hidle x hx (hwait ▸ he ▸ List.mem_cons_self ..)

theorem Untouched.trans {new : Option (Nat × Connection)} {t : Server}
    (h1 : Untouched new s s') (h2 : Untouched new s' t) : Untouched new s t :=
  ⟨h2.idle, fun x hx => (h2.conn x hx).trans (h1.conn x hx)⟩

theorem Drops.sim (new : Option (Nat × Connection))
    (hidle : ∀ x, new = some x → x.1 ∉ s.ledger.waiting) (h : Drops s s') :
    Steps sb dup ack (s.settled new) (s'.settled new) ∧ Untouched new s s' := by
  induction h with
  | stop => exact ⟨.refl, hidle, fun _ _ => rfl⟩
  | drop _ first _ failed _ ih =>
    obtain ⟨h1, hu⟩ := drop_sim new hidle first failed
    obtain ⟨h2, hu'⟩ := ih hu.idle
    exact ⟨.head h1 h2, hu.trans hu'⟩

theorem setConn_setConn {v : Ledger} {i : Nat} {a b : Connection} :
    (v.setConn i a).setConn i b = v.setConn i b := by
  simp only [Ledger.setConn, Ledger.mk.injEq, true_and, and_true]
  funext k
  by_cases hi : k = i
  · rw [if_pos hi, if_pos hi]
  · rw [if_neg hi, if_neg hi, if_neg hi]

theorem Serving.kill (hv : Serving s c) {t : Server} {conn' : Connection}
    (drops : Drops (s.setConn c conn) t) (live : t.conns c = some conn') :
    Steps sb dup ack s.ledger ((t.setConn c (errorReply conn' .success)).answer
      (.other c conn'.opcode .success)).ledger := by
  -- the answer is prepared first, the pending writes are dropped behind it
  obtain ⟨hsteps, hu⟩ : Steps sb dup ack _ (t.settled _) ∧ _ :=
    drops.sim (some (c, errorReply conn .success))
      (fun x hx => by obtain rfl := Option.some.inj hx; exact hv.idle)
  have hconn : t.conns c = some conn := (hu.conn _ rfl).trans (if_pos rfl)
  obtain rfl := Option.some.inj (hconn.symm.trans live)
  have hbegin : Steps sb dup ack s.ledger (s.ledger.setConn c (errorReply conn .success)) :=
    hv.set (errorReply_ok conn .success)
  have hsettled : (s.setConn c conn).settled (some (c, errorReply conn .success)) =
      s.ledger.setConn c (errorReply conn .success) := by
    show (s.ledger.setConn c conn).setConn c _ = _
    exact setConn_setConn
  rw [hsettled] at hsteps
  have hend : LedgerStep sb dup ack (t.ledger.setConn c (errorReply conn .success)) _ :=
    .idle [.other c conn.opcode .success] ⟨_, if_pos rfl⟩ (hu.idle _ rfl)
      (errorReply_ok conn .success) (by simp [Answer.Quiet])
  rw [setConn_setConn] at hend
  exact (hbegin.trans hsteps).tail hend

/-! ### Receiving -/

theorem Handles.sim (h : FlowInv s.ledger) (hv : Serving s c) (hr : Ready conn)
    (hh : Handles cfg s c conn env s') : Steps sb dup ack s.ledger s'.ledger := by
  cases hh with
  | reply a _ quiet => exact hv.reply (errorReply_ok _ _) quiet
  | body =>
    refine hv.reply ?_ trivial
    simp [ConnOk, bodyReply, spyReplyBody, spySendResponseIfNeeded]
  | read slot id entry copy indexed found =>
    have hcid : (s.chunk id).chunkId = entry.chunkId := by simpa using List.find?_some found
    have hchunk := hcid.symm.trans (h.ids id (List.mem_of_find?_eq_some found))
    exact Steps.queue (.single (@LedgerStep.submitRead sb dup ack s.ledger
      { IoJob.blank slot with fn := .read, conn := c, chunk := id, indexEntry := entry } _
      ⟨hv.live, hv.idle, copy.waits hr⟩ rfl indexed hchunk (copy.empty hr)))
  | plain work same plain copy =>
    subst same
    exact Steps.queue (.single (.submitPlain ⟨hv.live, hv.idle, copy.waits hr⟩ plain))
  | take slot id fid size new found =>
    have hfits : (s.chunk id).availSpace > u32 (size + fileMetaSize) := by
      simpa [Server.fits] using List.find?_some found
    have hpark : LedgerStep sb dup ack s.ledger { s.ledger.setConn c _ with
        works := (.io (writeJob slot c fid size), .pending) :: s.works } :=
      hv.park (new.inner hr) (spyLookupFileIndex_none new.unstored) rfl rfl rfl
    exact Steps.queue ((ReflTransGen.single hpark).tail
      (.assign rfl (List.mem_of_find?_eq_some found) hfits))
  | strand id fid size _ found =>
    -- the chunk has been moved for nothing
    refine (ReflTransGen.single (.abandon (List.mem_of_find?_eq_some found))).trans ?_
    exact Serving.reply (s := { s with
      chunks := s.chunks.erase id, writingChunks := id :: s.writingChunks })
      ⟨hv.live, hv.idle⟩ (errorReply_ok _ _) (a := .write c fid .ioJobUnavailable _) nofun
  | park _ _ _ new =>
    exact Steps.pend (.single
      (hv.park (new.inner hr) (spyLookupFileIndex_none new.unstored) rfl rfl rfl))
  | kill drops live => exact hv.kill drops live
  | free => exact hv.free conn

/-- More bytes in the request buffer. -/
theorem ConnOk.request {p : Prop} (h : ConnOk conn p) {b : RwBuffer}
    (hpos : b.readPos = conn.request.readPos) (hle : conn.request.writePos ≤ b.writePos) :
    ConnOk { conn with request := b } p := by
  unfold ConnOk at h ⊢
  cases hst : conn.state with
  | receiveHdr =>
    rw [hst] at h
    exact ⟨h.1, h.2.1, hpos.trans h.2.2.1, h.2.2.2⟩
  | receiveBody =>
    rw [hst] at h
    exact ⟨h.1, h.2.1, hpos.trans h.2.2.1, Nat.le_trans h.2.2.2.1 hle, h.2.2.2.2⟩
  | processRequest => rw [hst] at h; exact h
  | sendRsp => rw [hst] at h; exact h

/-- The bytes of a `read()`, behind those in a buffer that may have got another block. -/
theorem ConnOk.put {p : Prop} (h : ConnOk conn p) {b : RwBuffer} {blocks : Nat}
    (hb : b = { conn.request with blocks := blocks }) (bs : Bytes) :
    ConnOk { conn with request := b.put bs } p := by
  subst hb
  refine h.request rfl ?_
  unfold RwBuffer.writePos
  rw [RwBuffer.put_data, List.length_append]
  exact Nat.le_add_right _ _

theorem receiveHdr_ok {conn' : Connection} (h : ConnOk conn False)
    (hs : receiveHdr conn = .ok conn') : ConnOk conn' False := by
  unfold receiveHdr at hs
  split at hs
  · rename_i hst
    obtain ⟨hst, hge⟩ := hst
    unfold ConnOk at h
    rw [hst] at h
    obtain ⟨h1, h2, h3, h4, _⟩ := h
    rcases hread : spyRwBufferReadN conn.request reqHdrSize with ⟨buf, request⟩
    rw [hread] at hs
    simp only at hs
    split at hs
    · rename_i hbuf
      obtain rfl := Except.ok.inj hs
      obtain ⟨rfl, rfl⟩ := Prod.mk.inj hread
      refine ⟨h1, h2, ?_, ?_, spyMachReadFrom4_lt _, h4, id⟩
      · show conn.request.readPos + (conn.request.unread.take reqHdrSize).length = 5
        rw [h3, hbuf]
        rfl
      · show 5 ≤ conn.request.writePos
        simp only [reqHdrSize] at hge
        omega
    · cases hs
  · obtain rfl := Except.ok.inj hs
    exact h

/-- The body is there, or the connection goes on as it was. -/
theorem receiveBody_spec (h : ConnOk conn False) :
    Ready (receiveBody conn) ∨ (receiveBody conn).state ≠ .processRequest ∧
      ConnOk (receiveBody conn) False := by
  unfold receiveBody
  split
  · rename_i hst
    obtain ⟨hst, hge⟩ := hst
    unfold ConnOk at h
    rw [hst] at h
    obtain ⟨h1, h2, h3, h4, h5, h6, _⟩ := h
    refine .inl ⟨rfl, h1, h2, h3, ?_, h5, h6⟩
    show 5 + conn.bodyLen ≤ conn.request.writePos
    omega
  · refine .inr ⟨fun hst => ?_, h⟩
    unfold ConnOk at h
    rw [hst] at h
    exact h.2.2

theorem spyProcessReceiveBuffer_sim (h : FlowInv s.ledger) (hv : Serving s c)
    (hok : ConnOk conn False) (hs : spyProcessReceiveBuffer cfg s c conn env = .ok s') :
    Steps sb dup ack s.ledger s'.ledger := by
  unfold spyProcessReceiveBuffer at hs
  simp only [bind, Except.bind] at hs
  cases hh : receiveHdr conn with
  | error e => rw [hh] at hs; cases hs
  | ok conn' =>
    rw [hh] at hs
    simp only at hs
    rcases receiveBody_spec (receiveHdr_ok hok hh) with hr | ⟨hne, hok'⟩
    · rw [if_pos hr.state] at hs
      exact (dispatch_handles hs).sim h hv hr
    · rw [if_neg hne] at hs
      obtain rfl := Except.ok.inj hs
      exact hv.set hok'

theorem spyReadHandler_sim {r : SockRead} (h : FlowInv s.ledger) (hv : Serving s c)
    (hok : ConnOk conn False) (hs : spyReadHandler cfg s c conn r env = .ok s') :
    Steps sb dup ack s.ledger s'.ledger := by
  unfold spyReadHandler at hs
  split at hs
  · obtain rfl := Except.ok.inj hs
    exact hv.free conn
  · rename_i mem request len harea
    obtain ⟨k, -, rfl, -⟩ := writeableArea_draws harea
    have hvm : Serving { s with mem := mem } c := ⟨hv.live, hv.idle⟩
    simp only at hs
    split at hs
    · obtain rfl := Except.ok.inj hs
      exact hvm.set (hok.request rfl (Nat.le_refl _))
    · obtain rfl := Except.ok.inj hs
      exact hvm.free _
    · obtain rfl := Except.ok.inj hs
      exact hvm.free _
    · split at hs
      · obtain rfl := Except.ok.inj hs
        exact hvm.free _
      · exact spyProcessReceiveBuffer_sim (s := { s with mem := mem }) h hvm (hok.put rfl _) hs

/-! ### Sending -/

theorem ConnOk.sending (hst : conn.state = .sendRsp) (hw : conn.writable = true) :
    ConnOk conn False := by
  unfold ConnOk
  rw [hst]
  exact ⟨hw, id⟩

theorem spyResetClientConnection_sim (hv : Serving s c) :
    Steps sb dup ack s.ledger (spyResetClientConnection s c conn).ledger :=
  Serving.set (s := { s with
    mem := spyRwBufferReset (spyRwBufferReset s.mem conn.request) conn.rspBody })
    ⟨hv.live, hv.idle⟩ ⟨rfl, rfl, rfl, rfl, id⟩

theorem Sends.sim (hv : Serving s c) (hst : conn.state = .sendRsp) (hw : conn.writable = true)
    (h : Sends s c conn s') : Steps sb dup ack s.ledger s'.ledger := by
  induction h with
  | kept => exact hv.set (.sending hst hw)
  | reset => exact spyResetClientConnection_sim hv
  | freed => exact hv.free _
  | sent _ _ _ ih =>
    refine ih ?_ ?_
    · unfold Connection.sent; split <;> exact hst
    · unfold Connection.sent; split <;> exact hw

end Requests
end Speedy.Chunkserver
