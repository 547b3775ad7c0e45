import Speedy.Chunkserver.Framing

/-! # What an event means for one connection

An event changes the connection it is about, and connections that wait for a job or a
pending write. A connection that waits goes on waiting, or its response is started, or
it is reset or freed; every other connection stays as it is. -/
namespace Speedy.Chunkserver
open Speedy.Lib

/-- The event is one of this connection's descriptor. -/
def Event.On (c : Nat) : Event → Prop
  | .readable i _ _ => i = c
  | .writable i _ => i = c
  | _ => False

/-- A response of which nothing is sent. Its header says how long its body is. -/
structure Replying (conn : Connection) : Prop where
  state : conn.state = .sendRsp
  sentlen : conn.sentlen = 0
  header : conn.rspHeader = spyMachWriteTo1 conn.opcode ++ (spyMachWriteTo1 conn.error.code ++
    spyMachWriteTo4 conn.bodyLen)
  bodyLen_lt : conn.bodyLen < 4294967296

/-- A request has been dispatched and nothing is sent yet. -/
def Busy (conn : Connection) : Prop := conn.state = .processRequest ∨ Replying conn

/-- Reset: nothing of a next request is there. -/
structure Blank (conn : Connection) : Prop where
  state : conn.state = .receiveHdr
  request : conn.request = spyRwBufferInit
  readable : conn.readable = true

/-- Only connection `c` changes; it is freed or satisfies `P`. -/
def Puts (c : Nat) (P : Connection → Prop) (s s' : Server) : Prop :=
  ∃ new, s'.conns = (fun i => if i = c then new else s.conns i) ∧ ∀ conn, new = some conn → P conn

/-- Nothing but connection `c`, the memory blocks and the number of connections changes. -/
def OnlyReceives (c : Nat) (s s' : Server) : Prop :=
  ∃ mem new connCount, s' = { s with
    mem := mem
    conns := fun i => if i = c then new else s.conns i
    statistic := { s.statistic with connCount := connCount } }

section Turns
variable {cfg : Config} {s s' : Server} {c i : Nat} {conn : Connection} {env : Env}
  {P : Connection → Prop} {limit : Nat} {ids : List UInt64} {marks : List Mark}

theorem Puts.other (h : Puts c P s s') (hne : i ≠ c) : s'.conns i = s.conns i := by
  obtain ⟨new, hconns, _⟩ := h
  rw [hconns]
  exact if_neg hne

theorem Puts.self (h : Puts c P s s') : ∀ conn, s'.conns c = some conn → P conn := by
  obtain ⟨new, hconns, hnew⟩ := h
  intro conn hc
  rw [hconns] at hc
  exact hnew conn ((if_pos rfl).symm.trans hc)

/-- `s'` differs from `s.setConn c conn` in other things than connections. -/
theorem Puts.of_set (hconns : s'.conns = (s.setConn c conn).conns) (hP : P conn) :
    Puts c P s s' :=
  ⟨some conn, hconns, fun _ he => Option.some.inj he ▸ hP⟩

theorem Puts.of_free (hconns : s'.conns = fun i => if i = c then none else s.conns i) :
    Puts c P s s' :=
  ⟨none, hconns, nofun⟩

theorem errorReply_replying (hsent : conn.sentlen = 0) (error : SpyError) :
    Replying (errorReply conn error) :=
  ⟨rfl, hsent, rfl, Nat.zero_lt_succ _⟩

theorem errorReply_busy (hsent : conn.sentlen = 0) (error : SpyError) :
    Busy (errorReply conn error) :=
  .inr (errorReply_replying hsent error)

theorem Puts.error (conn : Connection) (error : SpyError)
    (hconns : s'.conns = (s.setConn c (errorReply conn error)).conns) (hsent : conn.sentlen = 0) :
    Puts c Busy s s' :=
  .of_set hconns (errorReply_busy hsent error)

theorem bodyReply_replying (hs : conn.state ≠ .sendRsp) (hsent : conn.sentlen = 0) {n : Nat}
    (hn : n < 4294967296) (b : RwBuffer) : Replying (bodyReply conn n b) := by
  rw [bodyReply_eq hs]
  exact ⟨rfl, hsent, rfl, hn⟩

/-! ## Requests -/

/-- What the loops over the pending writes do to a connection: nothing unless one of the
jobs is for it, and then it is answered with an error. -/
def Dropped (jobs : List IoJob) (i : Nat) (s s' : Server) : Prop :=
  s'.conns i = s.conns i ∨ (∃ job ∈ jobs, job.conn = i) ∧
    ∃ conn error, s.conns i = some conn ∧ s'.conns i = some (errorReply conn error)

theorem drop_dropped {job : IoJob} {rest : List IoJob} {error : SpyError}
    (hc : s.conns job.conn = some conn) (i : Nat) :
    Dropped [job] i s (s.drop job rest conn error) := by
  by_cases hi : i = job.conn
  · subst hi
    exact .inr ⟨⟨job, List.mem_cons_self, rfl⟩, conn, error, hc, if_pos rfl⟩
  · exact .inl (if_neg hi)

/-- An answered connection is only answered again. -/
theorem Dropped.cons {job : IoJob} {rest : List IoJob} {t : Server} (h1 : Dropped [job] i s t)
    (h2 : Dropped rest i t s') : Dropped (job :: rest) i s s' := by
  rcases h1 with h1 | ⟨⟨job', hmem, hi⟩, conn, error, hc, hc'⟩
  · rcases h2 with h2 | ⟨⟨job', hmem, hi⟩, conn, error, hc, hc'⟩
    · exact .inl (h2.trans h1)
    · exact .inr ⟨⟨job', List.mem_cons_of_mem job hmem, hi⟩, conn, error, h1 ▸ hc, hc'⟩
  · obtain rfl := List.mem_singleton.mp hmem
    refine .inr ⟨⟨job', List.mem_cons_self, hi⟩, ?_⟩
    rcases h2 with h2 | ⟨_, conn', error', hc2, hc2'⟩
    · exact ⟨conn, error, hc, h2.trans hc'⟩
    · obtain rfl := Option.some.inj (hc'.symm.trans hc2)
      exact ⟨conn, error', hc, hc2'⟩

theorem Drops.dropped (h : Drops s s') (i : Nat) : Dropped s.pendingWrites i s s' := by
  induction h with
  | stop => exact .inl rfl
  | drop _ first live _ _ ih =>
    rw [first]
    exact (drop_dropped live i).cons ih

/-- A handler serves its own connection; only a KILL_PD_WR touches others. -/
theorem Handles.turns (hr : Ready conn) (hsent : conn.sentlen = 0)
    (hidle : ∀ job ∈ s.pendingWrites, job.conn ≠ c) (hh : Handles cfg s c conn env s') :
    (∀ conn', s'.conns c = some conn' → Busy conn') ∧
      ∀ i, i ≠ c → Dropped s.pendingWrites i s s' := by
  have hputs : Puts c Busy s s' → (∀ conn', s'.conns c = some conn' → Busy conn') ∧
      ∀ i, i ≠ c → Dropped s.pendingWrites i s s' :=
    fun hp => ⟨hp.self, fun i hi => .inl (hp.other hi)⟩
  have hcopy : ∀ {mem conn'}, Prepares s.mem conn mem conn' →
      conn'.state = .processRequest ∧ conn'.sentlen = 0 :=
    fun copy => ⟨copy.unsent.1.trans hr.state, copy.unsent.2.trans hsent⟩
  cases hh with
  | reply a _ _ copy => exact hputs (.error _ _ rfl (hcopy copy).2)
  | body =>
    exact hputs (.of_set rfl (.inr
      (bodyReply_replying hr.unsent hsent (by unfold u32; omega) _)))
  | read _ _ _ copy => exact hputs (.of_set rfl (.inl (hcopy copy).1))
  | plain _ _ _ copy => exact hputs (.of_set rfl (.inl (hcopy copy).1))
  | take _ _ _ _ new => exact hputs (.of_set rfl (.inl (hcopy (.header new.header)).1))
  | strand _ _ _ new => exact hputs (.error _ _ rfl (hcopy (.header new.header)).2)
  | park _ _ _ new => exact hputs (.of_set rfl (.inl (hcopy (.header new.header)).1))
  | @kill t conn' drops live =>
    have hdropped : ∀ i, Dropped s.pendingWrites i (s.setConn c conn) t := drops.dropped
    have hself : t.conns c = some conn := by
      rcases hdropped c with hsame | ⟨⟨job, hmem, hjob⟩, _⟩
      · exact hsame.trans (if_pos rfl)
      · exact absurd hjob (hidle job hmem)
    obtain rfl := Option.some.inj (hself.symm.trans live)
    refine ⟨fun conn' hc => ?_, fun i hi => ?_⟩
    · obtain rfl := Option.some.inj ((if_pos rfl).symm.trans hc)
      exact errorReply_busy hsent _
    · have hset : (s.setConn c conn).conns i = s.conns i := if_neg hi
      have hset' : ((t.setConn c (errorReply conn .success)).answer
          (.other c conn.opcode .success)).conns i = t.conns i := if_neg hi
      have hloop := hdropped i
      unfold Dropped at hloop ⊢
      rw [hset', ← hset]
      exact hloop
  | free => exact hputs (.of_free rfl)

/-! ## Sockets -/

theorem receiveHdr_isOk (conn : Connection) : ∃ conn', receiveHdr conn = .ok conn' := by
  unfold receiveHdr
  split
  · rename_i hst
    have hlen : (spyRwBufferReadN conn.request reqHdrSize).1.length = reqHdrSize := by
      unfold spyRwBufferReadN
      rw [List.length_take, unread_length]
      exact Nat.min_eq_left hst.2
    exact ⟨_, if_pos hlen⟩
  · exact ⟨_, rfl⟩

/-- The parser sends nothing, and leaves a response alone. -/
theorem receive_unsent {conn' : Connection} (h : receiveHdr conn = .ok conn') :
    (receiveBody conn').sentlen = conn.sentlen ∧
      (conn.state = .sendRsp → (receiveBody conn').state = .sendRsp) := by
  have hbody : ∀ conn : Connection, (receiveBody conn).sentlen = conn.sentlen ∧
      (conn.state = .sendRsp → (receiveBody conn).state = .sendRsp) := by
    intro conn
    unfold receiveBody
    split
    · rename_i hst
      exact ⟨rfl, fun hsend => by rw [hsend] at hst; cases hst.1⟩
    · exact ⟨rfl, id⟩
  unfold receiveHdr at h
  split at h
  · rename_i hst
    simp only at h
    split at h
    · rw [← Except.ok.inj h]
      refine ⟨(hbody _).1, fun hsend => ?_⟩
      rw [hsend] at hst
      cases hst.1
    · cases h
  · rw [← Except.ok.inj h]
    exact hbody conn

/-- A `read()` that completes a request ends in the call of its handler. -/
theorem spyReadHandler_arrived (hok : ConnOk conn False) {r : SockRead} {conn' : Connection}
    (h : arrived s conn r env.calloc = some conn') :
    Ready conn' ∧ (conn'.sentlen = conn.sentlen ∧ conn.state ≠ .sendRsp) ∧
      ∃ mem, spyReadHandler cfg s c conn r env =
        dispatch cfg { s with mem := mem } c conn' env := by
  unfold arrived at h
  unfold spyReadHandler
  cases harea : writeableArea s conn.request env.calloc with
  | none => rw [harea] at h; cases h
  | some area =>
    obtain ⟨mem, request, len⟩ := area
    rw [harea] at h
    cases r with
    | data bs =>
      simp only at h ⊢
      by_cases hzero : (bs.take len).length = 0
      · rw [if_pos hzero] at h
        cases h
      · rw [if_neg hzero] at h ⊢
        obtain ⟨conn1, h1⟩ := receiveHdr_isOk { conn with request := request.put (bs.take len) }
        rw [h1] at h
        unfold spyProcessReceiveBuffer
        simp only [bind, Except.bind, h1] at h ⊢
        have hput := hok.put (writeableArea_eq harea) (bs.take len)
        rcases receiveBody_spec (receiveHdr_ok hput h1) with hr | ⟨hne, _⟩
        · rw [if_pos hr.state] at h ⊢
          obtain rfl := Option.some.inj h
          have hstate := hr.state
          obtain ⟨hsent, hsend⟩ := receive_unsent h1
          refine ⟨hr, ⟨hsent, fun he => ?_⟩, mem, rfl⟩
          rw [hsend he] at hstate
          cases hstate
        · rw [if_neg hne] at h
          cases h
    | eagain => cases h
    | eof => cases h
    | error => cases h

/-- Any other `read()` concerns nothing but its connection. -/
theorem spyReadHandler_silent {r : SockRead} (h : arrived s conn r env.calloc = none) :
    ∃ s', spyReadHandler cfg s c conn r env = .ok s' ∧ OnlyReceives c s s' := by
  unfold arrived at h
  unfold spyReadHandler
  cases harea : writeableArea s conn.request env.calloc with
  | none => exact ⟨_, rfl, _, _, _, rfl⟩
  | some area =>
    obtain ⟨mem, request, len⟩ := area
    rw [harea] at h
    cases r with
    | data bs =>
      simp only at h ⊢
      by_cases hzero : (bs.take len).length = 0
      · rw [if_pos hzero]
        exact ⟨_, rfl, _, _, _, rfl⟩
      · rw [if_neg hzero] at h ⊢
        obtain ⟨conn1, h1⟩ := receiveHdr_isOk { conn with request := request.put (bs.take len) }
        rw [h1] at h
        unfold spyProcessReceiveBuffer
        simp only [bind, Except.bind, h1] at h ⊢
        by_cases hst : (receiveBody conn1).state = .processRequest
        · rw [if_pos hst] at h
          cases h
        · rw [if_neg hst]
          exact ⟨_, rfl, _, _, _, rfl⟩
    | eagain => exact ⟨_, rfl, _, _, _, rfl⟩
    | eof => exact ⟨_, rfl, _, _, _, rfl⟩
    | error => exact ⟨_, rfl, _, _, _, rfl⟩

/-- Without a handler call the event only receives bytes. -/
theorem step_silent {r : SockRead} (hcall : handlerCall s (.readable c r env) = none)
    (hs : step cfg s (.readable c r env) = .ok s') : OnlyReceives c s s' := by
  obtain ⟨conn, hc, hread, hs⟩ := step_readable_ok hs
  simp only [handlerCall, hc] at hcall
  rw [if_pos hread, Option.map_eq_none_iff] at hcall
  obtain ⟨t, ht, honly⟩ : ∃ t, spyReadHandler cfg s c conn r env = .ok t ∧
    OnlyReceives c s t := spyReadHandler_silent hcall
  exact Except.ok.inj (ht.symm.trans hs) ▸ honly

/-- The handler call is all that is left of the event. -/
theorem step_handlerCall (h : BookInv limit ids (s.books marks)) {e : Event}
    (hcall : handlerCall s e = some (c, conn)) :
    Ready conn ∧ ∃ mem env, step cfg s e = dispatch cfg { s with mem := mem } c conn env := by
  cases e with
  | readable i r env =>
    simp only [handlerCall] at hcall
    simp only [step]
    cases hc : s.conns i with
    | none => rw [hc] at hcall; cases hcall
    | some old =>
      rw [hc] at hcall
      by_cases hread : old.readable = true
      · simp only at hcall ⊢
        rw [if_pos hread] at hcall ⊢
        obtain ⟨conn', harr, hpair⟩ := Option.map_eq_some_iff.mp hcall
        obtain ⟨rfl, rfl⟩ := Prod.mk.inj hpair
        obtain ⟨_, hok⟩ := h.served hc (.inl hread)
        obtain ⟨hr, _, mem, hs⟩ := spyReadHandler_arrived hok harr
        exact ⟨hr, mem, env, hs⟩
      · simp only at hcall
        rw [if_neg hread] at hcall
        cases hcall
  | accept => cases hcall
  | writable i results => cases hcall
  | start => cases hcall
  | io i io => cases hcall
  | finish i => cases hcall
  | done fcntl => cases hcall
  | cron now => cases hcall

theorem pending_waits {job : IoJob} (h : job ∈ s.pendingWrites) :
    job.conn ∈ s.ledger.waiting := by
  refine List.mem_map.mpr ⟨(.io job, .pending), ?_, rfl⟩
  exact List.mem_append_left _ (List.mem_map.mpr ⟨job, h, rfl⟩)

/-- Another connection is read from. -/
theorem spyReadHandler_other (h : BookInv limit ids (s.books marks)) (hc : s.conns c = some conn)
    (hread : conn.readable = true) {r : SockRead} (hs : spyReadHandler cfg s c conn r env = .ok s')
    (hi : i ≠ c) : Dropped s.pendingWrites i s s' := by
  obtain ⟨hv, hok⟩ := h.served hc (.inl hread)
  cases harr : arrived s conn r env.calloc with
  | none =>
    obtain ⟨t, ht, mem, new, connCount, rfl⟩ : ∃ t, spyReadHandler cfg s c conn r env = .ok t ∧
      OnlyReceives c s t := spyReadHandler_silent harr
    obtain rfl := Except.ok.inj (ht.symm.trans hs)
    exact .inl (if_neg hi)
  | some conn' =>
    obtain ⟨hr, ⟨hsent, hst⟩, mem, hdisp⟩ : Ready conn' ∧
      (conn'.sentlen = conn.sentlen ∧ conn.state ≠ .sendRsp) ∧
      ∃ mem, spyReadHandler cfg s c conn r env =
        dispatch cfg { s with mem := mem } c conn' env := spyReadHandler_arrived hok harr
    rw [hdisp] at hs
    have hidle : ∀ job ∈ s.pendingWrites, job.conn ≠ c := by
      rintro job hjob rfl
      exact hv.idle (pending_waits hjob)
    exact (Handles.turns (s := { s with mem := mem }) hr (hsent.trans (hv.fine.unsent hst)) hidle
      (dispatch_handles hs)).2 i hi

theorem Sends.other (h : Sends s c conn s') (hi : i ≠ c) : s'.conns i = s.conns i := by
  induction h with
  | kept => exact if_neg hi
  | reset => exact if_neg hi
  | freed => exact if_neg hi
  | sent _ _ _ ih => exact ih

/-! ## Every event -/

/-- A connection the event is not about: it stays as it is, or it is waiting, and then it
goes on waiting, or its response is started, or it is reset or freed. -/
def Turned (i : Nat) (s s' : Server) : Prop :=
  s'.conns i = s.conns i ∨
    i ∈ s.ledger.waiting ∧ ∀ conn, s'.conns i = some conn → Busy conn ∨ Blank conn

variable {recs : UInt64 → List Record} {lost : UInt64 → Prop}

theorem BookInv.waits_at (h : BookInv limit ids (s.books marks)) (hw : i ∈ s.ledger.waiting)
    (hc : s.conns i = some conn) : conn.state = .processRequest ∧ conn.sentlen = 0 := by
  obtain ⟨x, hx, rfl⟩ := List.mem_map.mp hw
  obtain ⟨hwaits, hfine⟩ := h.waits hx hc
  exact ⟨hwaits.state, hfine.unsent hwaits.unsent⟩

theorem Dropped.turned (h : BookInv limit ids (s.books marks))
    (hd : Dropped s.pendingWrites i s s') : Turned i s s' := by
  rcases hd with hsame | ⟨⟨job, hjob, rfl⟩, conn, error, hc, hc'⟩
  · exact .inl hsame
  · have hw := pending_waits hjob
    refine .inr ⟨hw, fun conn' he => ?_⟩
    obtain rfl := Option.some.inj (hc'.symm.trans he)
    exact .inl (errorReply_busy (h.waits_at hw hc).2 error)

theorem Puts.turned (hp : Puts c (fun conn => Busy conn ∨ Blank conn) s s')
    (hw : c ∈ s.ledger.waiting) (i : Nat) : Turned i s s' := by
  by_cases hi : i = c
  · subst hi
    exact .inr ⟨hw, hp.self⟩
  · exact .inl (hp.other hi)

theorem running_waits {k : Nat} {x : Work × Progress} (hk : s.running[k]? = some x) :
    x.1.conn ∈ s.ledger.waiting :=
  List.mem_map.mpr ⟨(x.1, .running x.2), mem_works_running hk, rfl⟩

theorem finished_waits {work : Work} {rest : List Work} (hf : s.finished = work :: rest) :
    work.conn ∈ s.ledger.waiting :=
  List.mem_map.mpr ⟨(work, .finished), (popped_perm hf).mem_iff.mpr List.mem_cons_self, rfl⟩

theorem Advances.turned (h : BookInv limit ids (s.books marks)) {k : Nat} {io : WorkerIo}
    (hs : Advances s k io s') (i : Nat) : Turned i s s' := by
  cases hs with
  | write running live =>
    have hw := running_waits running
    refine Puts.turned (.of_set rfl ?_) hw i
    exact .inl (.inl (h.waits_at hw live).1)
  | read running live =>
    have hw := running_waits running
    refine Puts.turned (.of_set rfl ?_) hw i
    exact .inl (.inl (h.waits_at hw live).1)
  | check => exact .inl rfl
  | send => exact .inl rfl

theorem handOver_conns (s : Server) (id : UInt64) : (handOver s id).conns = s.conns := by
  unfold handOver
  simp only
  split <;> rfl

/-- A record that was read is shorter than its chunk. -/
theorem LedgerInv.read_size (hl : LedgerInv s.ledger recs lost) {job : IoJob}
    (hx : (Work.io job, Stage.finished) ∈ s.works) (fn : job.fn = .read) (hret : job.retcode = 0)
    (hc : s.conns job.conn = some conn) : job.file.size < 4294967296 := by
  cases hl.works _ hx conn hc with
  | written _ fn' _ => rw [fn] at fn'; cases fn'
  | plain _ _ hw _ =>
    have hw' : job.fn = .check := hw
    rw [fn] at hw'
    cases hw'
  | reading _ _ pc rec _ at_ chunk mem indexed _ state =>
    obtain rfl := Option.some.inj at_
    obtain ⟨hsize, _⟩ := state hret
    have hlen := (hl.record (chunk ▸ mem) indexed).2
    rw [Record.bytes_length] at hlen
    omega

theorem Completes.puts {work : Work} (hwait : conn.state = .processRequest ∧ conn.sentlen = 0)
    (hsize : ∀ job, work = .io job → job.fn = .read → job.retcode = 0 →
      job.file.size < 4294967296) (h : Completes s conn work s') :
    Puts work.conn (fun conn => Busy conn ∨ Blank conn) s s' := by
  have herror : ∀ (conn' : Connection) (error : SpyError) {t : Server}, conn'.sentlen = 0 →
      t.conns = s.conns → s'.conns = (t.setConn work.conn (errorReply conn' error)).conns →
      Puts work.conn (fun conn => Busy conn ∨ Blank conn) s s' := by
    intro conn' error t hsent ht hs'
    refine .of_set (hs'.trans ?_) (.inl (errorReply_busy hsent error))
    unfold Server.setConn
    rw [ht]
  cases h with
  | writeLost => exact herror { conn with bodyLen := 0 } _ hwait.2 rfl rfl
  | writeFailed _ _ _ given =>
    subst given
    exact herror { conn with bodyLen := 0 } .writeError hwait.2 (handOver_conns (s.count _) _) rfl
  | writeDone _ _ _ given =>
    subst given
    exact herror { conn with bodyLen := 0 } .success hwait.2 (handOver_conns (s.count _) _) rfl
  | readFailed => exact herror conn .readError hwait.2 rfl rfl
  | readDone fn done reply =>
    have hne : conn.state ≠ .sendRsp := by
      rw [hwait.1]
      exact nofun
    subst reply
    refine .of_set rfl (.inl ?_)
    rw [bodyReply_rspBody hne]
    exact .inr (bodyReply_replying hne hwait.2 (hsize _ rfl fn done) _)
  | checked => exact herror conn _ hwait.2 rfl rfl
  | dumpReset => exact .of_set rfl (.inr ⟨rfl, rfl, rfl⟩)
  | dumpFreed => exact .of_free rfl

theorem spyWqThreadDone_turned (h : BookInv limit ids (s.books marks))
    (hl : LedgerInv s.ledger recs lost) {fcntl : Bool} (hs : spyWqThreadDone s fcntl = .ok s')
    (i : Nat) : Turned i s s' := by
  obtain ⟨work, rest, conn, hf, hc, hdone⟩ := spyWqThreadDone_completes hs
  have hw := finished_waits hf
  have hputs : Puts work.conn (fun conn => Busy conn ∨ Blank conn) { s with finished := rest } s' :=
    hdone.puts (h.waits_at hw hc) fun job he fn hret => by
      subst he
      exact hl.read_size ((popped_perm hf).mem_iff.mpr List.mem_cons_self) fn hret hc
  exact Puts.turned (s := s) hputs hw i

/-- An event leaves every connection it is not about as it is, unless that one waits. -/
theorem step_turned (h : BookInv limit ids (s.books marks)) (hl : LedgerInv s.ledger recs lost)
    {e : Event} (hs : step cfg s e = .ok s') (hlt : c < s.nextConn) (hon : ¬ e.On c) :
    Turned c s s' := by
  cases e with
  | accept =>
    obtain rfl := Except.ok.inj hs
    exact .inl (if_neg (Nat.ne_of_lt hlt))
  | readable j r env =>
    obtain ⟨conn', hc', hread, hs⟩ := step_readable_ok hs
    exact (spyReadHandler_other h hc' hread hs fun he => hon he.symm).turned h
  | writable j results =>
    obtain ⟨_, -, -, hs⟩ := step_writable_ok hs
    exact .inl ((sendLoop_sends results hs).other fun he => hon he.symm)
  | start =>
    obtain ⟨_, _, -, rfl⟩ := workerStart_ok hs
    exact .inl rfl
  | io k io => exact (workerStep_advances hs).turned h c
  | finish k =>
    obtain ⟨_, _, _, -, -, rfl⟩ := workerFinish_ok hs
    exact .inl rfl
  | done fcntl => exact spyWqThreadDone_turned h hl hs c
  | cron now => exact ((spyRemoveTimeoutPendingWrites_drops hs).dropped c).turned h

/-- Numbers of connections are not used again. -/
theorem step_nextConn_le (hl : LedgerInv s.ledger recs lost) {e : Event}
    (hs : step cfg s e = .ok s') : s.nextConn ≤ s'.nextConn := by
  have hsim : Steps (fun _ => True) True True s.ledger s'.ledger :=
    step_sim hl.flow (fun _ _ => trivial) (.inl trivial) (fun _ _ _ _ _ _ => trivial) hs
  refine ReflTransGen.keeps (I := fun v => s.nextConn ≤ v.nextConn) ?_ (Nat.le_refl _) hsim
  intro v v' hv hstep
  refine Nat.le_trans hv ?_
  cases hstep with
  | accept => exact Nat.le_succ _
  | _ => exact Nat.le_refl _

/-! ## A connection that is receiving -/

theorem Blank.received (h : Blank conn) : conn.received [] 0 = conn := by
  have hst := h.state
  have hreq : conn.request = ⟨[], 0, 0⟩ := h.request
  cases conn
  simp only at hst hreq
  subst hst hreq
  rfl

theorem received_state (conn : Connection) (bytes : Bytes) (blocks : Nat) :
    (conn.received bytes blocks).state = .receiveHdr ∨
      (conn.received bytes blocks).state = .receiveBody := by
  unfold Connection.received
  split
  · exact .inl rfl
  · exact .inr rfl

theorem received_not_waiting (h : BookInv limit ids (s.books marks)) {bytes : Bytes} {blocks : Nat}
    (hc : s.conns c = some (conn.received bytes blocks)) : c ∉ s.ledger.waiting := by
  intro hw
  have hst := (h.waits_at hw hc).1
  rcases received_state conn bytes blocks with he | he <;> rw [he] at hst <;> cases hst

theorem received_blocks (bytes : Bytes) (blocks b : Nat) :
    { conn.received bytes blocks with
      request := { (conn.received bytes blocks).request with blocks := b } } =
        conn.received bytes b := by
  unfold Connection.received
  split <;> rfl

/-- A connection that is closed by its client, or fails, is freed. -/
theorem step_readable_closed {r : SockRead} (hr : r = .eof ∨ r = .error)
    (hc : s.conns c = some conn) (hs : step cfg s (.readable c r env) = .ok s') :
    s'.conns c = none := by
  simp only [step, hc] at hs
  split at hs
  · unfold spyReadHandler at hs
    split at hs
    · obtain rfl := Except.ok.inj hs
      exact if_pos rfl
    · rcases hr with rfl | rfl
      · obtain rfl := Except.ok.inj hs
        exact if_pos rfl
      · obtain rfl := Except.ok.inj hs
        exact if_pos rfl
  · cases hs

end Turns
end Speedy.Chunkserver
