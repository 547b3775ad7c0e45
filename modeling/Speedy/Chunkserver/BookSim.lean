import Speedy.Chunkserver.BookRequests

/-! # An event is a run of transactions

Receiving, sending, the workers and the done callbacks, up to `step_books`: whatever
one event does to a server whose books balance is a sequence of transactions, and
each answer given on the way has its mark. -/
namespace Speedy.Chunkserver
open Speedy.Lib Relation

/-! ## Requests that are complete -/

/-- The request a `read()` completes, as the connection its handler is called with. -/
def arrived (s : Server) (conn : Connection) (r : SockRead) (calloc : Bool) : Option Connection :=
  match writeableArea s conn.request calloc, r with
  | some (_, request, len), .data bs =>
    if (bs.take len).length = 0 then none
    else match receiveHdr { conn with request := request.put (bs.take len) } with
      | .ok conn =>
        if (receiveBody conn).state = .processRequest then some (receiveBody conn) else none
      | .error _ => none
  | _, _ => none

/-- The handler call an event leads to: the connection and what its buffers hold. -/
def handlerCall (s : Server) : Event → Option (Nat × Connection)
  | .readable c r env => match s.conns c with
    | none => none
    | some conn =>
      if conn.readable then (arrived s conn r env.calloc).map fun conn => (c, conn) else none
  | _ => none

/-- The job whose response this event starts to send from a worker. -/
def dumpSent (s : Server) : Event → Option DumpJob
  | .io i (.send _) => match s.running[i]? with
    | some (.dump job, .single none) => some job
    | _ => none
  | _ => none

/-- The marks of an event besides the answers the server keeps. -/
def eventMarks (s : Server) (e : Event) : List Mark :=
  (dumpSent s e).toList.map (fun job => .started job.conn) ++
    (handlerCall s e).toList.map fun x => .dispatched x.1

/-- A chunk leaves the free list for good: a WRITE takes it when there is no job
left, or its write is done when the fid has an entry. -/
def strands (cfg : Config) (s : Server) : Event → Bool
  | .readable c r env => match handlerCall s (.readable c r env) with
    | some (_, conn) => Opcode.ofByte conn.opcode == some .write &&
        (writeTarget cfg s conn).isSome && s.freeIoJobs.isEmpty
    | none => false
  | .done _ => match s.finished with
    | .io job :: _ => job.fn == .write && (spyLookupFileIndex s.fileIndex job.file.fid).isSome
    | _ => false
  | _ => false

section Receive
variable {strand : Prop} {limit : Nat} {ids : List UInt64} {cfg : Config} {s s' : Server}
  {mem : MemBlocks} {c : Nat} {conn conn' : Connection} {marks : List Mark} {env : Env}

/-- More bytes in the request buffer. -/
theorem Connection.Fine.withRequest (h : conn.Fine) {b : RwBuffer} (hb : b.Fits) :
    Connection.Fine { conn with request := b } := by
  refine ⟨hb, h.rspBody, h.unsent, fun hst => ?_⟩
  obtain ⟨h1, h2, h3, h4⟩ := h.sendable hst
  exact ⟨h1, h2, h3, h4⟩

theorem receiveHdr_fine (h : conn.Fine) (hs : receiveHdr conn = .ok conn') :
    conn'.Fine ∧ conn'.held = conn.held ∧ (conn'.state = .sendRsp ↔ conn.state = .sendRsp) := by
  unfold receiveHdr at hs
  split at hs
  · rename_i hst
    have hz : conn.sentlen = 0 := h.unsent (by rw [hst.1]; simp)
    have hfits := h.request.readN reqHdrSize
    rcases hread : spyRwBufferReadN conn.request reqHdrSize with ⟨buf, request⟩
    rw [hread] at hs hfits
    simp only at hs
    split at hs
    · obtain rfl := Except.ok.inj hs
      obtain ⟨_, rfl⟩ := Prod.mk.inj hread
      exact ⟨.of_unsent hfits h.rspBody hz nofun, rfl, by rw [hst.1]; simp⟩
    · cases hs
  · obtain rfl := Except.ok.inj hs
    exact ⟨h, rfl, Iff.rfl⟩

theorem receiveBody_fine (h : conn.Fine) :
    (receiveBody conn).Fine ∧ (receiveBody conn).held = conn.held ∧
      ((receiveBody conn).state = .sendRsp ↔ conn.state = .sendRsp) := by
  unfold receiveBody
  split
  · rename_i hst
    have hz : conn.sentlen = 0 := h.unsent (by rw [hst.1]; simp)
    exact ⟨.of_unsent h.request h.rspBody hz nofun, rfl, by rw [hst.1]; simp⟩
  · exact ⟨h, rfl, Iff.rfl⟩

/-- The bytes just read either complete a request or leave the connection as it was. -/
theorem spyProcessReceiveBuffer_books (h : BookInv limit ids (s.before mem marks))
    (hv : Served s mem c conn) (hok : ConnOk conn False) {call : Option Connection}
    (hcall : call = match receiveHdr conn with
      | .ok conn =>
        if (receiveBody conn).state = .processRequest then some (receiveBody conn) else none
      | .error _ => none)
    (hkeep : ∀ conn', call = some conn' → Opcode.ofByte conn'.opcode = some .write →
      (writeTarget cfg s conn').isSome = true → s.freeIoJobs = [] → strand)
    (hs : spyProcessReceiveBuffer cfg s c conn env = .ok s') :
    ∃ as, s'.answers = as ++ s.answers ∧ BookSteps strand (s.before mem marks)
      (s'.books (as.map Answer.mark ++ (call.toList.map (fun _ => .dispatched c) ++ marks))) := by
  unfold spyProcessReceiveBuffer at hs
  simp only [bind, Except.bind] at hs
  cases hh : receiveHdr conn with
  | error e => rw [hh] at hs; cases hs
  | ok conn1 =>
    rw [hh] at hs hcall
    simp only at hs hcall
    obtain ⟨hf1, hh1, hst1⟩ := receiveHdr_fine hv.fine hh
    obtain ⟨hf2, hh2, hst2⟩ := receiveBody_fine hf1
    have hv' : Served s mem c (receiveBody conn1) := by
      obtain ⟨old, n, hold, hd, hheld, hst⟩ := hv.grown
      exact ⟨hv.idle, ⟨old, n, hold, hd, by rw [hh2, hh1, hheld], (hst2.trans hst1).trans hst⟩,
        hf2⟩
    rcases receiveBody_spec (receiveHdr_ok hok hh) with hr | ⟨hne, hok'⟩
    · rw [if_pos hr.state] at hs hcall
      subst hcall
      obtain ⟨old, n, hold, _, _, hst⟩ := hv'.grown
      have hmark : BookStep strand (s.before mem marks) (s.before mem (.dispatched c :: marks)) :=
        .dispatch hold (fun hsend => hr.unsent (hst.mpr hsend)) hv.idle
      obtain ⟨as, has, hsteps⟩ := (dispatch_handles hs).books (hmark.inv h) hv' hr
        (Open.dispatched marks c) (hkeep _ rfl)
      exact ⟨as, has, .head hmark hsteps⟩
    · rw [if_neg hne] at hs hcall
      subst hcall
      obtain rfl := Except.ok.inj hs
      exact ⟨[], rfl, hv'.set hok'⟩

/-- Only a response is written. -/
theorem ConnOk.sends {waits : Prop} (hok : ConnOk conn waits) (hw : conn.writable = true) :
    conn.state = .sendRsp := by
  unfold ConnOk at hok
  split at hok
  · rw [hok.2.1] at hw; cases hw
  · rw [hok.2.1] at hw; cases hw
  · rw [hok.2.1] at hw; cases hw
  · assumption

/-- A connection that is not waited for, as it is in the table. -/
theorem BookInv.served (h : BookInv limit ids (s.books marks)) (hc : s.conns c = some conn)
    (hev : conn.readable = true ∨ conn.writable = true) :
    Served s s.mem c conn ∧ ConnOk conn False := by
  have hok := h.conns.ok c conn hc
  have hidle : c ∉ s.ledger.waiting := by
    intro hw
    have hwaits := hok.waits hw
    rw [hwaits.readable, hwaits.writable] at hev
    simp at hev
  exact ⟨⟨hidle, ⟨conn, 0, hc, .refl _, rfl, Iff.rfl⟩, h.table.fine c conn hc⟩,
    hok.congr ⟨hidle, False.elim⟩⟩

theorem spyReadHandler_books (h : BookInv limit ids (s.books marks)) (hc : s.conns c = some conn)
    (hread : conn.readable = true) {r : SockRead}
    (hkeep : ∀ conn', arrived s conn r env.calloc = some conn' →
      Opcode.ofByte conn'.opcode = some .write → (writeTarget cfg s conn').isSome = true →
      s.freeIoJobs = [] → strand)
    (hs : spyReadHandler cfg s c conn r env = .ok s') :
    ∃ as, s'.answers = as ++ s.answers ∧ BookSteps strand (s.books marks)
      (s'.books (as.map Answer.mark ++
        ((arrived s conn r env.calloc).toList.map (fun _ => .dispatched c) ++ marks))) := by
  obtain ⟨hv, hok⟩ := h.served hc (.inl hread)
  unfold spyReadHandler at hs
  unfold arrived at hkeep ⊢
  cases harea : writeableArea s conn.request env.calloc with
  | none =>
    rw [harea] at hs
    obtain rfl := Except.ok.inj hs
    exact ⟨[], rfl, hv.free⟩
  | some area =>
    obtain ⟨mem, request, len⟩ := area
    obtain ⟨k, hd, hreq, hlen⟩ := writeableArea_draws harea
    have hfits : request.Fits := hreq ▸ hv.fine.request.grow k
    have hle := (spyRwBufferNextWriteable_le hfits hlen).2
    have hblocks : request.blocks = conn.request.blocks + k := by rw [hreq]
    rw [harea] at hs hkeep
    simp only at hs hkeep ⊢
    -- the local copy, with the block that was added and whatever was read
    have hserved : ∀ b : RwBuffer, b.blocks = conn.request.blocks + k → b.Fits →
        Served { s with mem := mem } s.mem c { conn with request := b } := by
      intro b hb hbf
      refine ⟨hv.idle, ⟨conn, k, hc, hd, ?_, Iff.rfl⟩, hv.fine.withRequest hbf⟩
      unfold Connection.held
      simp only
      omega
    cases r with
    | eagain =>
      obtain rfl := Except.ok.inj hs
      refine ⟨[], rfl, (hserved _ hblocks hfits).set ?_⟩
      exact hok.request (by rw [hreq]) (by rw [hreq]; exact Nat.le_refl _)
    | eof =>
      obtain rfl := Except.ok.inj hs
      exact ⟨[], rfl, (hserved _ hblocks hfits).free⟩
    | error =>
      obtain rfl := Except.ok.inj hs
      exact ⟨[], rfl, (hserved _ hblocks hfits).free⟩
    | data bs =>
      simp only at hs hkeep ⊢
      split at hs
      · rename_i hzero
        rw [if_pos hzero]
        obtain rfl := Except.ok.inj hs
        exact ⟨[], rfl, (hserved _ hblocks hfits).free⟩
      · rename_i hzero
        rw [if_neg hzero] at hkeep ⊢
        have hput : (request.put (bs.take len)).Fits := by
          refine hfits.put (Nat.le_trans (Nat.add_le_add_left ?_ _) hle)
          rw [List.length_take]
          exact Nat.min_le_left _ _
        exact spyProcessReceiveBuffer_books (s := { s with mem := mem }) h
          (hserved (request.put (bs.take len)) hblocks hput) (hok.put hreq _) rfl hkeep hs

/-! ## Sending -/

theorem remaining_le (conn : Connection)
    (hn : 0 ≤ rspHdrSize + (conn.bodyLen : Int) - conn.sentlen) :
    conn.remaining ≤ rspHdrSize + conn.bodyLen - conn.sentlen := by
  unfold Connection.remaining i32 u32
  omega

/-- What one `write()` leaves of a response can still be sent. -/
theorem Connection.Fine.sent (h : conn.Fine) (hst : conn.state = .sendRsp) {len n : Nat}
    (hnext : conn.nextSend = .ok (some len)) (hn : n ≤ len) :
    (conn.sent n).Fine ∧ (conn.sent n).held = conn.held ∧ (conn.sent n).state = .sendRsp ∧
      (conn.sent n).writable = conn.writable := by
  obtain ⟨h1, h2, h3, h4⟩ := h.sendable hst
  have hrem := remaining_le conn (by omega)
  unfold Connection.nextSend at hnext
  unfold Connection.sent
  split at hnext
  · rename_i hpos
    split at hnext
    · rename_i hlt
      rw [if_pos hlt]
      obtain rfl := Option.some.inj (Except.ok.inj hnext)
      simp only [rspHdrSize] at hlt hn h2 h3 h4
      refine ⟨⟨h.request, h.rspBody, fun hne => absurd hst hne, fun _ => ⟨?_, ?_, ?_, ?_⟩⟩, rfl,
        hst, rfl⟩
      · show 0 ≤ conn.sentlen + n
        omega
      · show conn.sentlen + n ≤ (6 : Nat) + conn.bodyLen
        omega
      · intro _
        exact h3 hlt
      · intro hge
        have hge' : ((6 : Nat) : Int) ≤ conn.sentlen + n := hge
        show ((6 : Nat) : Int) + conn.bodyLen - (conn.sentlen + n) ≤ conn.rspBody.unread.length
        have := h3 hlt
        omega
    · rename_i hge
      rw [if_neg hge]
      split at hnext
      · cases hnext
      · rename_i area harea
        obtain rfl := Option.some.inj (Except.ok.inj hnext)
        obtain ⟨m, _, rfl, _⟩ := spyRwBufferNextReadable_some harea h.rspBody.read
        have hall := h4 (by omega)
        rw [List.length_take, List.length_take] at hn
        simp only [rspHdrSize] at hge h2 hall hrem
        have hread := h.rspBody.read
        have hunread :
            conn.rspBody.unread.length = conn.rspBody.writePos - conn.rspBody.readPos := by
          unfold RwBuffer.unread RwBuffer.writePos
          exact List.length_drop
        refine ⟨⟨h.request, ⟨?_, h.rspBody.write⟩, fun hne => absurd hst hne,
          fun _ => ⟨?_, ?_, ?_, ?_⟩⟩, rfl, hst, rfl⟩
        · show conn.rspBody.readPos + n ≤ conn.rspBody.writePos
          omega
        · show 0 ≤ conn.sentlen + n
          omega
        · show conn.sentlen + n ≤ (6 : Nat) + conn.bodyLen
          omega
        · intro hlt
          have hlt' : conn.sentlen + n < ((6 : Nat) : Int) := hlt
          omega
        · intro _
          show ((6 : Nat) : Int) + conn.bodyLen - (conn.sentlen + n) ≤
            ((conn.rspBody.skip n).unread.length : Nat)
          rw [RwBuffer.skip_unread, List.length_drop]
          omega
  · cases hnext

theorem Sends.books (hv : Served s s.mem c conn) (hst : conn.state = .sendRsp)
    (hw : conn.writable = true) (h : Sends s c conn s') : Traces strand (s.books marks) s s' := by
  induction h with
  | kept => exact ⟨[], rfl, hv.set (.sending hst hw)⟩
  | reset => exact ⟨[], rfl, hv.reset⟩
  | freed => exact ⟨[], rfl, hv.free⟩
  | sent next le _ ih =>
    obtain ⟨hf, hheld, hst', hw'⟩ := hv.fine.sent hst next le
    obtain ⟨old, k, hold, hd, hh, hold_st⟩ := hv.grown
    exact ih ⟨hv.idle, ⟨old, k, hold, hd, hheld.trans hh, by rw [← hold_st, hst, hst']⟩, hf⟩ hst'
      (hw'.trans hw)

end Receive

/-! ## Workers -/

section Workers
variable {strand : Prop} {limit : Nat} {ids : List UInt64} {s s' : Server} {v : Books}
  {marks : List Mark} {recs : UInt64 → List Record} {lost : UInt64 → Prop}

theorem Books.put_self {c : Nat} {conn : Connection} (hc : v.conns c = some conn) :
    v.put c (some conn) v.mem v.connCount = v := by
  have hsame : (fun i => if i = c then some conn else v.conns i) = v.conns := by
    funext i
    by_cases hi : i = c
    · rw [if_pos hi, hi, hc]
    · rw [if_neg hi]
  unfold Books.put
  rw [hsame]

theorem BookInv.shuffle (h : BookInv limit ids v) {works : List (Work × Stage)}
    (perm : v.works.Perm works) : BookInv limit ids { v with works := works } := by
  have hstep : BookStep False v { v with works := works } := .shuffle perm
  exact hstep.inv h

/-- The first job goes on and its connection is left alone. -/
theorem BookInv.progress (h : BookInv limit ids v) {x x' : Work × Stage}
    {rest : List (Work × Stage)} (works : v.works = x :: rest) (same : SameJob x x')
    (roomy : ∀ conn, Roomy conn x → Roomy conn x') :
    BookStep strand v { v with works := x' :: rest } := by
  have hx : x ∈ v.works := works ▸ List.mem_cons_self ..
  obtain ⟨conn, hc⟩ := h.conns.live _ (List.mem_map.mpr ⟨x, hx, rfl⟩)
  obtain ⟨hwaits, hfine⟩ := h.waits hx hc
  have hstep : BookStep strand v { v.put x.1.conn (some conn) v.mem v.connCount with
      works := x' :: rest
      avail := v.avail } :=
    .advance works same hc rfl hwaits hfine (roomy conn) fun _ _ => rfl
  rw [Books.put_self hc] at hstep
  exact hstep

/-- A transaction on the jobs in another order. -/
theorem BookSteps.between {w : Books} {ws ws' : List (Work × Stage)} (before : v.works.Perm ws)
    (step : BookStep strand { v with works := ws } w) (after : w.works.Perm ws') :
    BookSteps strand v { w with works := ws' } :=
  ((ReflTransGen.single (.shuffle before)).tail step).tail (.shuffle after)

theorem workerStart_books (h : BookInv limit ids (s.books marks)) (hs : workerStart s = .ok s') :
    Traces strand (s.books marks) s s' := by
  obtain ⟨work, rest, hq, rfl⟩ := workerStart_ok hs
  have hbefore : s.works.Perm ((work, .queued) :: { s with queued := rest }.works) :=
    works_perm_queued (by rw [hq])
  have hafter := works_perm_running (s := { s with
    queued := rest, running := s.running ++ [(work, work.begin)] })
    (List.perm_append_singleton (work, work.begin) s.running)
  have hsame : SameJob (work, .queued) (work, .running work.begin) := by
    cases work with
    | io job => exact ⟨rfl, rfl, by simp [owner], rfl, ⟨rfl, rfl⟩, fun _ => trivial⟩
    | dump job => exact ⟨rfl, rfl, rfl, rfl, ⟨rfl, rfl⟩, fun _ => trivial⟩
  have hinv : BookInv limit ids { s.books marks with
      works := (work, .queued) :: { s with queued := rest }.works } :=
    h.shuffle hbefore
  have hroomy : ∀ conn, Roomy conn (work, .queued) → Roomy conn (work, .running work.begin) := by
    intro conn hroom
    cases work with
    | io job => exact hroom
    | dump job => trivial
  exact ⟨[], rfl, .between hbefore (hinv.progress rfl hsame hroomy) hafter.symm⟩

/-- The books with the `i`-th busy worker's job in front. -/
def Server.focusBooks (s : Server) (marks : List Mark) (i : Nat) (x : Work × Progress) : Books :=
  { s.books marks with
    works := (x.1, .running x.2) :: { s with running := s.running.eraseIdx i }.works }

theorem focus_perm {i : Nat} {x : Work × Progress} (hx : s.running[i]? = some x) :
    s.works.Perm ((x.1, .running x.2) :: { s with running := s.running.eraseIdx i }.works) := by
  obtain ⟨hi, rfl⟩ := List.getElem?_eq_some_iff.mp hx
  exact works_perm_running (List.getElem_cons_eraseIdx_perm hi).symm

theorem BookInv.focus (h : BookInv limit ids (s.books marks)) {i : Nat} {x : Work × Progress}
    (hx : s.running[i]? = some x) : BookInv limit ids (s.focusBooks marks i x) :=
  h.shuffle (focus_perm hx)

/-- The `i`-th busy worker's job takes part in a transaction. -/
theorem BookSteps.running {w : Books} {i : Nat} {x : Work × Progress} (x' : Work × Progress)
    (hx : s.running[i]? = some x) (step : BookStep strand (s.focusBooks marks i x) w)
    (hw : w.works = (s.focusBooks marks i x').works) :
    BookSteps strand (s.books marks)
      { w with works := { s with running := s.running.set i x' }.works } := by
  obtain ⟨hi, _⟩ := List.getElem?_eq_some_iff.mp hx
  have hafter := works_perm_running (s := { s with running := s.running.set i x' })
    (List.set_perm_cons_eraseIdx hi x')
  refine BookSteps.between (focus_perm hx) step ?_
  rw [hw]
  exact hafter.symm

theorem spyWriteFileStep_request {file : SpyFile} {offset now : Nat} {io : Pwrite} {r r' : WriteRun}
    (hf : r.request.Fits) (hs : spyWriteFileStep file offset io now r = some r') :
    r'.request.Fits ∧ r'.request.blocks = r.request.blocks := by
  unfold spyWriteFileStep at hs
  split at hs
  · split at hs
    · cases hs
    · obtain rfl := Option.some.inj hs
      exact ⟨hf, rfl⟩
  · split at hs
    · obtain rfl := Option.some.inj hs
      exact ⟨hf, rfl⟩
    · rename_i area harea
      simp only at hs
      split at hs
      · obtain rfl := Option.some.inj hs
        obtain ⟨m, _, rfl, _⟩ := spyRwBufferNextReadable_some harea hf.read
        refine ⟨⟨?_, hf.write⟩, rfl⟩
        have hr := hf.read
        show r.request.readPos + _ ≤ r.request.writePos
        unfold RwBuffer.unread RwBuffer.writePos at *
        rw [List.length_take, List.length_take, List.length_drop]
        omega
      · obtain rfl := Option.some.inj hs
        exact ⟨hf, rfl⟩
  · obtain rfl := Option.some.inj hs
    exact ⟨hf, rfl⟩
  · obtain rfl := Option.some.inj hs
    exact ⟨hf, rfl⟩

theorem spyReadFileStep_rspBody {index : IndexEntry} {disk : ByteStore} {io : Pread}
    {r r' : ReadRun} (hf : r.rspBody.Fits) (hs : spyReadFileStep index disk io r = some r') :
    r'.rspBody.Fits ∧ r'.rspBody.blocks = r.rspBody.blocks := by
  unfold spyReadFileStep at hs
  split at hs
  · split at hs
    · obtain rfl := Option.some.inj hs
      exact ⟨hf, rfl⟩
    · cases hs
  · split at hs
    · split at hs
      · cases hs
      · rename_i len hlen
        split at hs
        · obtain rfl := Option.some.inj hs
          obtain ⟨_, hle⟩ := spyRwBufferNextWriteable_le hf hlen
          refine ⟨hf.put ?_, rfl⟩
          rw [slice_length]
          exact Nat.le_trans (Nat.add_le_add_left (Nat.min_le_right _ _) _) hle
        · obtain rfl := Option.some.inj hs
          exact ⟨hf, rfl⟩
    · unfold spyReadFileCheck at hs
      have hread := hf.readN fileMetaSize
      rcases hn : spyRwBufferReadN r.rspBody fileMetaSize with ⟨filemeta, rspBody⟩
      rw [hn] at hs hread
      simp only at hs
      split at hs
      · split at hs
        · cases hs
        · obtain rfl := Option.some.inj hs
          obtain ⟨_, rfl⟩ := Prod.mk.inj hn
          exact ⟨hread, rfl⟩
      · cases hs
  · obtain rfl := Option.some.inj hs
    exact ⟨hf, rfl⟩

/-- A worker that runs `spy_write_file` has a write. -/
theorem LedgerInv.fn_write (h : LedgerInv s.ledger recs lost) {job : IoJob} {pc : WritePc}
    (hx : (Work.io job, Stage.running (.write pc)) ∈ s.works) : job.fn = .write := by
  obtain ⟨conn, hc⟩ := h.conns.live _ (List.mem_map.mpr ⟨_, hx, rfl⟩)
  cases h.works _ hx conn hc with
  | writing _ _ fn _ => exact fn
  | reading _ _ _ _ _ at_ _ _ _ _ _ => cases at_
  | plain _ _ _ hs => exact hs.elim

theorem Advances.books (h : BookInv limit ids (s.books marks)) (hl : LedgerInv s.ledger recs lost)
    {i : Nat} {io : WorkerIo} (hs : Advances s i io s') : s'.answers = s.answers ∧
      BookSteps strand (s.books marks) (s'.books (eventMarks s (.io i io) ++ marks)) := by
  cases hs with
  | @write job pc _ _ conn r running live call =>
    have hmem : (Work.io job, Stage.running (.write pc)) ∈ s.works :=
      (focus_perm running).mem_iff.mpr (List.mem_cons_self ..)
    obtain ⟨hwaits, hfine⟩ := (h.focus running).waits (List.mem_cons_self ..) live
    obtain ⟨hfits, hblocks⟩ := spyWriteFileStep_request hfine.request call
    have hown : ∀ pc, owner (Work.io job, Stage.running (.write pc)) = some job.chunk := fun _ =>
      owner_write (hl.fn_write hmem) (by simp)
    have hsame : SameJob (.io job, .running (.write pc)) (.io job, .running (.write r.pc)) :=
      ⟨rfl, rfl, (hown _).trans (hown _).symm, rfl, ⟨rfl, rfl⟩, fun _ => trivial⟩
    have hheld : Connection.held { conn with request := r.request } = conn.held := by
      unfold Connection.held
      rw [hblocks]
    have hothers : ∀ id, owner (Work.io job, Stage.running (.write pc)) ≠ some id →
        (Function.update s.chunk job.chunk r.chunk id).availSpace = (s.chunk id).availSpace := by
      intro id hne
      rw [Function.update_of_ne]
      intro he
      exact hne (he ▸ hown pc)
    have hstep : BookStep strand (s.focusBooks marks i (.io job, .write pc)) _ :=
      .advance rfl hsame live hheld ⟨hwaits.state, hwaits.readable, hwaits.writable⟩
        (hfine.withRequest hfits) (fun hro => hro) hothers
    exact ⟨rfl, BookSteps.running (.io job, .write r.pc) running hstep rfl⟩
  | @read job pc _ conn r running live call =>
    obtain ⟨hwaits, hfine⟩ := (h.focus running).waits (List.mem_cons_self ..) live
    obtain ⟨hfits, hblocks⟩ := spyReadFileStep_rspBody hfine.rspBody call
    have hsame : SameJob (.io job, .running (.read pc))
        (.io { job with file := r.file }, .running (.read r.pc)) :=
      ⟨rfl, rfl, by simp [owner], rfl, ⟨rfl, rfl⟩, fun _ => trivial⟩
    have hheld : Connection.held { conn with rspBody := r.rspBody } = conn.held := by
      unfold Connection.held
      rw [hblocks]
    have hroomy : Roomy conn (.io job, .running (.read pc)) →
        Roomy { conn with rspBody := r.rspBody }
          (.io { job with file := r.file }, .running (.read r.pc)) := by
      intro hro hfn
      have hcap := hro hfn
      unfold RwBuffer.cap at hcap ⊢
      rw [hblocks]
      exact hcap
    have hstep : BookStep strand (s.focusBooks marks i (.io job, .read pc)) _ :=
      .advance rfl hsame live hheld ⟨hwaits.state, hwaits.readable, hwaits.writable⟩
        (.of_unsent hfine.request hfits (hfine.unsent hwaits.unsent) hwaits.unsent) hroomy
        fun _ _ => rfl
    exact ⟨rfl, BookSteps.running (.io { job with file := r.file }, .read r.pc) running hstep rfl⟩
  | @check job io running =>
    have hsame : SameJob (.io job, .running (.single none))
        (.io job, .running (.single (some (spyCheckChunk io)))) :=
      ⟨rfl, rfl, by simp [owner], rfl, ⟨rfl, rfl⟩, fun _ => trivial⟩
    have hstep : BookStep strand (s.focusBooks marks i (.io job, .single none)) _ :=
      (h.focus running).progress rfl hsame fun _ hro => hro
    exact ⟨rfl, BookSteps.running (.io job, .single _) running hstep rfl⟩
  | @send job retcode running =>
    have hmarks : eventMarks s (.io i (.send retcode)) = [.started job.conn] := by
      simp [eventMarks, dumpSent, running, handlerCall]
    rw [hmarks]
    have hstep : BookStep strand (s.focusBooks marks i (.dump job, .single none)) _ :=
      .send retcode rfl
    exact ⟨rfl, BookSteps.running (.dump job, .single _) running hstep rfl⟩

theorem workerFinish_books (h : BookInv limit ids (s.books marks)) {i : Nat}
    (hs : workerFinish s i = .ok s') : Traces strand (s.books marks) s s' := by
  obtain ⟨work, progress, retcode, hrun, -, rfl⟩ := workerFinish_ok hs
  have hsame : SameJob (work, .running progress) (work.setRetcode retcode, .finished) := by
    cases work with
    | io job => exact ⟨rfl, rfl, by simp [owner, Work.setRetcode], rfl, ⟨rfl, rfl⟩,
        fun _ => trivial⟩
    | dump job => exact ⟨rfl, rfl, rfl, rfl, ⟨rfl, rfl⟩, False.elim⟩
  have hroomy : ∀ conn, Roomy conn (work, .running progress) →
      Roomy conn (work.setRetcode retcode, .finished) := by
    intro conn hro
    cases work with
    | io job => exact hro
    | dump job => trivial
  have hstep : BookStep strand (s.focusBooks marks i (work, progress)) _ :=
    (h.focus hrun).progress rfl hsame hroomy
  have hafter := works_perm_finished (s := { s with
    running := s.running.eraseIdx i
    finished := s.finished ++ [work.setRetcode retcode] })
    (List.perm_append_singleton (work.setRetcode retcode) s.finished)
  exact ⟨[], rfl, .between (focus_perm hrun) hstep hafter.symm⟩

end Workers

/-! ## Done callbacks -/

section Done
variable {strand : Prop} {limit : Nat} {ids : List UInt64} {s s' : Server} {v : Books}
  {marks : List Mark} {recs : UInt64 → List Record} {lost : UInt64 → Prop} {job : IoJob}
  {rest : List Work} {conn : Connection}

/-- The books with the first finished job in front. -/
def Server.poppedBooks (s : Server) (marks : List Mark) (work : Work) (rest : List Work) : Books :=
  { s.books marks with works := (work, .finished) :: { s with finished := rest }.works }

theorem popped_perm {work : Work} (hf : s.finished = work :: rest) :
    s.works.Perm ((work, .finished) :: { s with finished := rest }.works) :=
  works_perm_finished (by rw [hf])

theorem BookInv.popped (h : BookInv limit ids (s.books marks)) {work : Work}
    (hf : s.finished = work :: rest) : BookInv limit ids (s.poppedBooks marks work rest) :=
  h.shuffle (popped_perm hf)

theorem BookSteps.popped {w : Books} {work : Work} (hf : s.finished = work :: rest)
    (steps : BookSteps strand (s.poppedBooks marks work rest) w) :
    BookSteps strand (s.books marks) w :=
  .head (.shuffle (popped_perm hf)) steps

theorem leave_write (hfn : job.fn = .write) (works : List (Work × Stage)) :
    v.leave (.io job, .finished) works = { v with
      works := works
      freeIoJobs := job.slot :: v.freeIoJobs
      writingCount := u32 (v.writingCount - 1) } := by
  have hown : owner (Work.io job, Stage.finished) = some job.chunk := owner_write hfn (by simp)
  have hread : isRead (Work.io job, Stage.finished) = false := by simp [isRead, hfn]
  unfold Books.leave
  rw [hown, hread]
  rfl

theorem leave_read (hfn : job.fn = .read) (works : List (Work × Stage)) :
    v.leave (.io job, .finished) works = { v with
      works := works
      freeIoJobs := job.slot :: v.freeIoJobs
      readingCount := u32 (v.readingCount - 1) } := by
  have hown : owner (Work.io job, Stage.finished) = none := owner_none (by simp [hfn])
  have hread : isRead (Work.io job, Stage.finished) = true := by simp [isRead, hfn]
  unfold Books.leave
  rw [hown, hread]
  rfl

theorem leave_check (hfn : job.fn = .check) (works : List (Work × Stage)) :
    v.leave (.io job, .finished) works = { v with
      works := works
      freeIoJobs := job.slot :: v.freeIoJobs } := by
  have hown : owner (Work.io job, Stage.finished) = none := owner_none (by simp [hfn])
  have hread : isRead (Work.io job, Stage.finished) = false := by simp [isRead, hfn]
  unfold Books.leave
  rw [hown, hread]
  rfl

/-- A read that succeeded has the payload in front of the response buffer. -/
theorem LedgerInv.read_unread (h : LedgerInv s.ledger recs lost)
    (hx : (Work.io job, Stage.finished) ∈ s.works) (fn : job.fn = .read) (hret : job.retcode = 0)
    (hc : s.conns job.conn = some conn) : job.file.size ≤ conn.rspBody.unread.length := by
  cases h.works _ hx conn hc with
  | written _ fn' _ => rw [fn] at fn'; cases fn'
  | plain _ _ hw _ =>
    have hw' : job.fn = .check := hw
    rw [fn] at hw'
    cases hw'
  | reading _ _ pc rec _ at_ _ _ _ _ state =>
    obtain rfl := Option.some.inj at_
    obtain ⟨hsize, hdata, hpos⟩ := state hret
    unfold RwBuffer.unread
    rw [hdata, hpos, hsize, List.length_drop, Record.bytes_length]
    simp only [fileMetaSize]
    omega

theorem enter_write (hfn : job.fn = .write) (free : List Nat) :
    v.enter (.io job, .queued) free = { v with
      works := (.io job, .queued) :: v.works
      freeIoJobs := free
      writingCount := u32 (v.writingCount + 1) } := by
  have hown : owner (Work.io job, Stage.queued) = some job.chunk := owner_write hfn (by simp)
  have hread : isRead (Work.io job, Stage.queued) = false := by simp [isRead, hfn]
  unfold Books.enter
  rw [hown, hread]
  rfl

/-- A write is gone and a pending one goes to the queue in its place. -/
theorem promote_write (fn : job.fn = .write) {p : IoJob} (hp : p.fn = .write) {id : UInt64}
    {offset : Nat} {works : List (Work × Stage)} {free : List Nat} :
    ((v.leave (.io job, .finished) ((.io p, .pending) :: works)).leave
      (.io p, .pending) works).enter
      (.io { p with chunk := id, offset := offset }, .queued) free = { v with
        works := (.io { p with chunk := id, offset := offset }, .queued) :: works
        freeIoJobs := free
        pendingWritesSize := u32 (v.pendingWritesSize - 1)
        writingCount := u32 (u32 (v.writingCount - 1) + 1) } := by
  have hp' : ({ p with chunk := id, offset := offset } : IoJob).fn = .write := hp
  rw [leave_pending, leave_write fn, enter_write hp']

/-- A pending job is a write. -/
theorem LedgerInv.fn_pending (h : LedgerInv s.ledger recs lost)
    (hx : (Work.io job, Stage.pending) ∈ s.works) : job.fn = .write := by
  obtain ⟨conn, hc⟩ := h.conns.live _ (List.mem_map.mpr ⟨_, hx, rfl⟩)
  cases h.works _ hx conn hc with
  | parked _ fn _ => exact fn
  | reading _ _ _ _ _ at_ _ _ _ _ _ => cases at_
  | plain _ _ _ hs => exact hs.elim

/-- Without a counted pending write there is none. -/
theorem BookInv.no_pending (h : BookInv limit ids v) (hz : v.pendingWritesSize = 0)
    (hx : (Work.io job, Stage.pending) ∈ v.works) : False := by
  have hcount := h.jobs.pending_eq
  rw [hz] at hcount
  exact List.countP_eq_zero.mp hcount.symm _ hx rfl

theorem mem_works_running {i : Nat} {x : Work × Progress} (h : s.running[i]? = some x) :
    (x.1, Stage.running x.2) ∈ s.works := by
  have hmem := List.mem_of_getElem? h
  refine List.mem_append_right _ (List.mem_append_right _ (List.mem_append_left _ ?_))
  exact List.mem_map.mpr ⟨x, hmem, rfl⟩

theorem mem_pendingWrites (h : (Work.io job, Stage.pending) ∈ s.works) : job ∈ s.pendingWrites := by
  unfold Server.works at h
  simp only [List.mem_append, List.mem_map, Prod.mk.injEq, Work.io.injEq, reduceCtorEq, and_false,
    exists_false, or_false, and_true, exists_eq_right] at h
  exact h

/-- The chunk of a write that is done goes to the first pending write that fits, or
back to the free list. -/
theorem handOver_books (h : BookInv limit ids (s.books marks)) (hl : LedgerInv s.ledger recs lost)
    (hf : s.finished = .io job :: rest) (fn : job.fn = .write)
    (hconn : s.conns job.conn = some conn) (error : SpyError) {t : Server}
    (ht : handOver (Server.count { s with finished := rest } fun x =>
      { x with writingCount := u32 (x.writingCount - 1) }) job.chunk = t) :
    BookSteps strand (s.books marks)
      (((t.setConn job.conn (errorReply conn error)).freeIoJob job).books
        (.started job.conn :: marks)) := by
  subst ht
  have hpop := h.popped hf
  obtain ⟨hwaits, hfine⟩ := hpop.waits (List.mem_cons_self ..) hconn
  have hok := errorReply_ok conn error
  have hfine' := errorReply_fine error hfine hwaits.unsent
  have hown : owner (Work.io job, Stage.finished) = some job.chunk := owner_write fn (by simp)
  refine .popped hf ?_
  unfold handOver
  simp only
  split
  · rename_i p hfind
    have hfind' : s.pendingWrites.find? (fun tmp => s.fits job.chunk tmp.file.size) = some p := by
      split at hfind
      · exact hfind
      · cases hfind
    have hmem : (Work.io p, Stage.pending) ∈ s.works :=
      List.mem_append_left _ (List.mem_map.mpr ⟨p, List.mem_of_find?_eq_some hfind', rfl⟩)
    have hperm := works_perm_pending (s := { s with finished := rest }) (find?_eraseP_perm hfind')
    have hpfn := hl.fn_pending hmem
    obtain ⟨others, hothers⟩ : ∃ others, others = { s with
      finished := rest
      pendingWrites := s.pendingWrites.eraseP fun tmp =>
        s.fits job.chunk tmp.file.size }.works := ⟨_, rfl⟩
    rw [← hothers] at hperm
    have heff : Effect { s.poppedBooks marks (.io job) rest with
        works := (.io job, .finished) :: (.io p, .pending) :: others } job.conn
        (some (errorReply conn error)) s.mem s.statistic.connCount :=
      .keep (n := 0) hconn (.refl _) (errorReply_held conn error)
    have hstep : BookStep strand _ _ :=
      .handOver (s.chunk job.chunk).currentOffset rfl hown hpfn heff hok hfine' trivial
    rw [promote_write fn hpfn] at hstep
    have hafter := works_perm_queued (s := spyQueueWork { s with
      finished := rest
      pendingWrites := s.pendingWrites.eraseP fun tmp => s.fits job.chunk tmp.file.size }
      (.io { p with chunk := job.chunk, offset := (s.chunk job.chunk).currentOffset }))
      (List.perm_append_singleton _ s.queued)
    subst hothers
    exact BookSteps.between (hperm.cons _) hstep hafter.symm
  · rename_i hfind
    have hfull : ∀ p, (Work.io p, Stage.pending) ∈ { s with finished := rest }.works →
        (s.chunk job.chunk).availSpace ≤ u32 (p.file.size + fileMetaSize) := by
      intro p hp
      have hin : p ∈ s.pendingWrites := mem_pendingWrites (s := { s with finished := rest }) hp
      split at hfind
      · exact fits_false (s := s) (List.find?_eq_none.mp hfind p hin)
      · rename_i hz
        have hmem : (Work.io p, Stage.pending) ∈ s.works :=
          List.mem_append_left _ (List.mem_map.mpr ⟨p, hin, rfl⟩)
        exact (h.no_pending (Nat.eq_zero_of_not_pos hz) hmem).elim
    have hstep : BookStep strand (s.poppedBooks marks (.io job) rest) _ :=
      hpop.fail rfl hconn (.returned hown hfull) trivial error
    rw [leave_write fn] at hstep
    exact .single hstep

theorem handOver_answers {s t : Server} {id : UInt64} (ht : handOver s id = t) :
    t.answers = s.answers := by
  subst ht
  unfold handOver
  simp only
  split <;> rfl

theorem Completes.books {work : Work} (h : BookInv limit ids (s.books marks))
    (hl : LedgerInv s.ledger recs lost) (hf : s.finished = work :: rest)
    (hc : s.conns work.conn = some conn)
    (hkeep : ∀ job, work = .io job → job.fn = .write →
      (spyLookupFileIndex s.fileIndex job.file.fid).isSome = true → strand)
    (hs : Completes { s with finished := rest } conn work s') :
    Traces strand (s.books marks) s s' := by
  have hpop := h.popped hf
  have hmem : (work, Stage.finished) ∈ s.works :=
    (popped_perm hf).mem_iff.mpr (List.mem_cons_self ..)
  obtain ⟨hwaits, hfine⟩ := hpop.waits (List.mem_cons_self ..) hc
  cases hs with
  | @writeLost job e fn stored =>
    have hlost : strand := hkeep job rfl fn (by
      rw [show spyLookupFileIndex s.fileIndex job.file.fid = some e from stored]; rfl)
    have hstep : BookStep strand (s.poppedBooks marks (.io job) rest) _ :=
      hpop.fail rfl hc (.lost hlost) trivial .internalError
    rw [leave_write fn] at hstep
    exact ⟨[.write job.conn job.file.fid .internalError _], rfl, .popped hf (.single hstep)⟩
  | @writeFailed job _ fn _ _ given =>
    exact ⟨[.write job.conn job.file.fid .writeError (conn.payload job.file.size)],
      congrArg (List.cons _) ((handOver_answers given.symm).trans rfl),
      handOver_books h hl hf fn hc .writeError given.symm⟩
  | @writeDone job t fn _ _ given =>
    exact ⟨[.write job.conn job.file.fid .success (conn.payload job.file.size)],
      congrArg (List.cons _) ((handOver_answers given.symm).trans rfl),
      handOver_books h hl hf fn hc .success given.symm⟩
  | @readFailed job fn =>
    have hstep : BookStep strand (s.poppedBooks marks (.io job) rest) _ :=
      hpop.fail rfl hc (.other (owner_none (by simp [fn]))) trivial .readError
    rw [leave_read fn] at hstep
    exact ⟨[.read job.conn job.indexEntry.fid .readError 0 []], rfl, .popped hf (.single hstep)⟩
  | @readDone job conn' fn done reply =>
    have hunread := hl.read_unread hmem fn done hc
    obtain ⟨hok, hfine', hheld⟩ := bodyReply_spec hfine hwaits.unsent hfine.rspBody hunread
    have heff : Effect (s.poppedBooks marks (.io job) rest) job.conn
        (some (bodyReply conn job.file.size conn.rspBody)) s.mem s.statistic.connCount :=
      .keep (n := 0) hc (.refl _) hheld
    have hstep : BookStep strand (s.poppedBooks marks (.io job) rest) _ :=
      .complete rfl heff (fun _ he => Option.some.inj he ▸ ⟨hok, hfine'⟩)
        (.other (owner_none (by simp [fn]))) (.started trivial)
    rw [leave_read fn, ← bodyReply_rspBody hwaits.unsent, ← reply] at hstep
    exact ⟨[.read job.conn job.indexEntry.fid .success job.file.size _], rfl,
      .popped hf (.single hstep)⟩
  | @checked job fn error =>
    have hstep : BookStep strand (s.poppedBooks marks (.io job) rest) _ :=
      hpop.fail rfl hc (.other (owner_none (by simp [fn]))) trivial error
    rw [leave_check fn] at hstep
    exact ⟨[.other job.conn conn.opcode error], rfl, .popped hf (.single hstep)⟩
  | dumpReset job =>
    have heff : Effect (s.poppedBooks marks (.dump job) rest) job.conn (some conn.cleared)
        (s.mem.giveBack (conn.held + 0)) s.statistic.connCount := .reset hc (.refl _) rfl
    have hstep : BookStep strand (s.poppedBooks marks (.dump job) rest) _ :=
      .complete rfl heff (fun _ he => Option.some.inj he ▸ conn.cleared_ok) (.other rfl)
        (.silent fun _ he hst =>
          absurd (Option.some.inj he ▸ hst : conn.cleared.state = .sendRsp) nofun)
    rw [Nat.add_zero, ← giveBack_held] at hstep
    exact ⟨[], rfl, .popped hf (.single hstep)⟩
  | dumpFreed job =>
    have heff : Effect (s.poppedBooks marks (.dump job) rest) job.conn none
        (s.mem.giveBack (conn.held + 0)) (u32 (s.statistic.connCount - 1)) :=
      .free hc (.refl _)
    have hstep : BookStep strand (s.poppedBooks marks (.dump job) rest) _ :=
      .complete rfl heff nofun (.other rfl) (.silent nofun)
    rw [Nat.add_zero, ← giveBack_held] at hstep
    exact ⟨[], rfl, .popped hf (.single hstep)⟩

end Done

/-! ## Events -/

section Step
variable {strand : Prop} {limit : Nat} {ids : List UInt64} {cfg : Config} {s s' : Server}
  {marks : List Mark} {recs : UInt64 → List Record} {lost : UInt64 → Prop} {e : Event}

theorem Traces.plain (hm : eventMarks s e = []) (ht : Traces strand (s.books marks) s s') :
    ∃ as, s'.answers = as ++ s.answers ∧ BookSteps strand (s.books marks)
      (s'.books (as.map Answer.mark ++ (eventMarks s e ++ marks))) := by
  rw [hm]
  exact ht

/-- Each event of the server is a run of transactions on its books. -/
theorem step_books (h : BookInv limit ids (s.books marks)) (hl : LedgerInv s.ledger recs lost)
    (hkeep : strands cfg s e = true → strand) (hs : step cfg s e = .ok s') :
    ∃ as, s'.answers = as ++ s.answers ∧ BookSteps strand (s.books marks)
      (s'.books (as.map Answer.mark ++ (eventMarks s e ++ marks))) := by
  cases e with
  | accept =>
    obtain rfl := Except.ok.inj hs
    exact ⟨[], rfl, .single .accept⟩
  | readable c r env =>
    obtain ⟨conn, hc, hr, hs⟩ := step_readable_ok hs
    have hcall : handlerCall s (.readable c r env) =
        (arrived s conn r env.calloc).map fun conn => (c, conn) := by
      simp only [handlerCall, hc]
      rw [if_pos hr]
    have hmarks : eventMarks s (.readable c r env) =
        (arrived s conn r env.calloc).toList.map fun _ => .dispatched c := by
      unfold eventMarks
      rw [hcall]
      cases arrived s conn r env.calloc <;> rfl
    rw [hmarks]
    refine spyReadHandler_books h hc hr (fun conn' ha hop ht hfree => hkeep ?_) hs
    simp only [strands, hcall, ha, Option.map_some]
    simp [hop, ht, hfree]
  | writable c results =>
    obtain ⟨conn, hc, hw, hs⟩ := step_writable_ok hs
    obtain ⟨hv, hok⟩ := h.served hc (.inr hw)
    exact Traces.plain rfl ((sendLoop_sends results hs).books hv (hok.sends hw) hw)
  | start => exact Traces.plain rfl (workerStart_books h hs)
  | io i io =>
    obtain ⟨hanswers, hsteps⟩ := (workerStep_advances hs).books h hl
    exact ⟨[], hanswers, hsteps⟩
  | finish i => exact Traces.plain rfl (workerFinish_books h hs)
  | done fcntl =>
    obtain ⟨work, rest, conn, hf, hc, hdone⟩ := spyWqThreadDone_completes hs
    refine Traces.plain rfl (hdone.books h hl hf hc ?_)
    rintro job rfl fn he
    refine hkeep ?_
    simp only [strands, hf]
    simp [fn, he]
  | cron now =>
    obtain ⟨as, has, -, hsteps⟩ := (spyRemoveTimeoutPendingWrites_drops hs).books none h nofun
    exact ⟨as, has, hsteps⟩

end Step
end Speedy.Chunkserver
