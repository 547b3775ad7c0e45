import Speedy.Chunkserver.Responses

/-! # What becomes of a waiting request

A connection that waits for a job goes on waiting for the same job with the same request, or
the answer to it is logged and started, in every event. -/
namespace Speedy.Chunkserver
open Speedy.Lib

/-- What a job is done for. -/
inductive Order where
  | write (fid : UInt64) (size : Nat)
  | read (fid : UInt64)
  | other
  deriving DecidableEq, Repr

def Work.order : Work → Order
  | .io job => match job.fn with
    | .write => .write job.file.fid job.file.size
    | .read => .read job.indexEntry.fid
    | .check => .other
  | .dump _ => .other

/-- Every job's connection and order. -/
def Server.orders (s : Server) : List (Nat × Order) := s.works.map fun x => (x.1.conn, x.1.order)

def Answer.body : Answer → Bytes
  | .read _ _ _ _ body => body
  | _ => []

/-- The answer is one to the order; `payload` is what the request carries. -/
def Answer.For (a : Answer) (c : Nat) (payload : Nat → Bytes) : Order → Prop
  | .write fid size => ∃ error, a = .write c fid error (payload size)
  | .read fid => ∃ error body, a = .read c fid error body.length body ∧
      (error ≠ .success → body = [])
  | .other => ∃ opcode, a = .other c opcode .success

/-- The response that the connection has started is the answer. -/
structure Starts (a : Answer) (opcode : Nat) (conn : Connection) : Prop where
  state : conn.state = .sendRsp
  opcode : conn.opcode = opcode
  error : conn.error = a.error
  bodyLen : conn.bodyLen = a.body.length
  body : conn.rspBody.unread.take conn.bodyLen = a.body

/-- What has become of the order of a connection. -/
inductive Became (c : Nat) (o : Order) (conn : Connection) (s' : Server) : Prop
  | waits {conn' : Connection} (live : s'.conns c = some conn')
      (opcode : conn'.opcode = conn.opcode) (data : conn'.request.data = conn.request.data)
      (mem : (c, o) ∈ s'.orders) : Became c o conn s'
  | told {conn' : Connection} {a : Answer} (live : s'.conns c = some conn')
      (logged : a ∈ s'.answers) (answer : a.For c conn.payload o)
      (starts : Starts a conn.opcode conn') : Became c o conn s'

/-- Neither the connection nor its order is touched. -/
structure Spares (c : Nat) (s s' : Server) : Prop where
  conns : s'.conns c = s.conns c
  orders : ∀ o, (c, o) ∈ s.orders → (c, o) ∈ s'.orders

section Orders
variable {cfg : Config} {s s' t : Server} {c j : Nat} {conn : Connection} {env : Env} {o : Order}
  {job : IoJob} {recs : UInt64 → List Record} {lost : UInt64 → Prop}

theorem Spares.trans (h1 : Spares c s t) (h2 : Spares c t s') : Spares c s s' :=
  ⟨h2.conns.trans h1.conns, fun o ho => h2.orders o (h1.orders o ho)⟩

theorem Spares.became (h : Spares c s s') (hc : s.conns c = some conn)
    (ho : (c, o) ∈ s.orders) : Became c o conn s' :=
  .waits (h.conns.trans hc) rfl rfl (h.orders o ho)

/-- Jobs may be added at the ends of the lists. -/
theorem Spares.of_lists {ps : List IoJob} {qs : List Work} (hconns : s'.conns c = s.conns c)
    (hp : s'.pendingWrites = s.pendingWrites ++ ps) (hq : s'.queued = s.queued ++ qs)
    (hr : s'.running = s.running) (hf : s'.finished = s.finished) : Spares c s s' := by
  refine ⟨hconns, fun o ho => ?_⟩
  obtain ⟨x, hx, he⟩ := List.mem_map.mp ho
  refine List.mem_map.mpr ⟨x, ?_, he⟩
  unfold Server.works at hx ⊢
  rw [hp, hq, hr, hf, List.map_append, List.map_append]
  simp only [List.mem_append] at hx ⊢
  tauto

theorem Spares.of_same (hconns : s'.conns c = s.conns c) (hw : s'.works = s.works) :
    Spares c s s' :=
  ⟨hconns, fun o ho => by unfold Server.orders at ho ⊢; rw [hw]; exact ho⟩

theorem Spares.of_ok (hs : (Except.ok t : Except Fault Server) = .ok s')
    (hconns : t.conns c = s.conns c) (hw : t.works = s.works) : Spares c s s' :=
  Except.ok.inj hs ▸ .of_same hconns hw

/-- The order of a connection is not among those of others. -/
theorem mem_orders_of_perm {x : Work × Stage} {works : List (Work × Stage)}
    (hp : s.works.Perm (x :: works)) (hne : c ≠ x.1.conn) (ho : (c, o) ∈ s.orders) :
    (c, o) ∈ works.map fun x => (x.1.conn, x.1.order) := by
  have hm := (hp.map fun x => (x.1.conn, x.1.order)).mem_iff.mp ho
  rw [List.map_cons, List.mem_cons] at hm
  exact hm.resolve_left fun he => hne (Prod.mk.inj he).1

theorem orders_unique (hnd : s.ledger.waiting.Nodup) {x : Work × Stage} (hx : x ∈ s.works)
    (ho : (x.1.conn, o) ∈ s.orders) : o = x.1.order := by
  obtain ⟨y, hy, he⟩ := List.mem_map.mp ho
  obtain ⟨hconn, rfl⟩ := Prod.mk.inj he
  rw [List.inj_on_of_nodup_map hnd hy hx hconn]

/-! ## Pending writes that are dropped -/

theorem starts_errorReply (conn : Connection) {a : Answer} {error : SpyError}
    (herror : a.error = error) (hbody : a.body = []) :
    Starts a conn.opcode (errorReply conn error) :=
  ⟨rfl, rfl, herror.symm, (congrArg List.length hbody).symm, hbody.symm⟩

/-- The connection has its answer, and keeps it. -/
theorem Became.spares (h : Became c o conn t) (hs : Spares c t s')
    (ha : ∀ a ∈ t.answers, a ∈ s'.answers) : Became c o conn s' := by
  cases h with
  | waits live opcode data mem => exact .waits (hs.conns.trans live) opcode data (hs.orders _ mem)
  | told live logged answer starts =>
    exact .told (hs.conns.trans live) (ha _ logged) answer starts

/-- What is left when the first of them is dropped. -/
theorem drop_works {rest : List IoJob} (hp : s.pendingWrites = job :: rest) (conn : Connection)
    (error : SpyError) :
    s.works.Perm ((.io job, .pending) :: (s.drop job rest conn error).works) :=
  works_perm_pending (List.Perm.of_eq hp)

theorem drop_spares {rest : List IoJob} (hp : s.pendingWrites = job :: rest)
    (hne : c ≠ job.conn) (conn : Connection) (error : SpyError) :
    Spares c s (s.drop job rest conn error) :=
  ⟨if_neg hne, fun _ ho => mem_orders_of_perm (drop_works hp conn error) hne ho⟩

theorem Drops.spares (h : Drops s s') (hne : ∀ job ∈ s.pendingWrites, c ≠ job.conn) :
    Spares c s s' ∧ ∀ a ∈ s.answers, a ∈ s'.answers := by
  induction h with
  | stop => exact ⟨⟨rfl, fun _ ho => ho⟩, fun _ ha => ha⟩
  | drop _ first _ _ _ ih =>
    rw [first] at hne
    obtain ⟨hs, ha⟩ := ih fun job hj => hne job (List.mem_cons_of_mem _ hj)
    exact ⟨(drop_spares first (hne _ (List.mem_cons_self ..)) _ _).trans hs,
      fun a h => ha a (List.mem_cons_of_mem _ h)⟩

theorem Drops.became (h : Drops s s') (hfn : ∀ job ∈ s.pendingWrites, job.fn = .write)
    (hnd : s.ledger.waiting.Nodup) (hc : s.conns c = some conn) (ho : (c, o) ∈ s.orders) :
    Became c o conn s' := by
  induction h with
  | stop => exact .waits hc rfl rfl ho
  | @drop s s' job rest old error first live _ more ih =>
    have hworks := drop_works first old error
    have hnd' := (hworks.map fun x : Work × Stage => x.1.conn).nodup_iff.mp hnd
    rw [List.map_cons, List.nodup_cons] at hnd'
    rw [first] at hfn
    by_cases hi : c = job.conn
    · subst hi
      obtain rfl := Option.some.inj (hc.symm.trans live)
      have hlater : ∀ job' ∈ rest, job.conn ≠ job'.conn := by
        intro job' hj he
        refine hnd'.1 (List.mem_map.mpr ⟨(.io job', .pending), ?_, he.symm⟩)
        exact List.mem_append_left _ (List.mem_map.mpr ⟨job', hj, rfl⟩)
      obtain ⟨hs, hans⟩ := more.spares hlater
      have ho' := orders_unique hnd (hworks.mem_iff.mpr (List.mem_cons_self ..)) ho
      rw [show (Work.io job).order = .write job.file.fid job.file.size by
        simp only [Work.order, hfn job (List.mem_cons_self ..)]] at ho'
      subst ho'
      exact .told (hs.conns.trans (if_pos rfl)) (hans _ (List.mem_cons_self ..)) ⟨error, rfl⟩
        (starts_errorReply conn rfl rfl)
    · have hs := drop_spares first hi old error
      exact ih (fun job hj => hfn job (List.mem_cons_of_mem _ hj)) hnd'.2 (hs.conns.trans hc)
        (hs.orders o ho)

/-- A handler of another connection. -/
theorem Handles.became (hne : c ≠ j) (hfn : ∀ job ∈ s.pendingWrites, job.fn = .write)
    (hnd : s.ledger.waiting.Nodup) {connj : Connection}
    (hh : Handles cfg s j connj env s') (hc : s.conns c = some conn)
    (ho : (c, o) ∈ s.orders) : Became c o conn s' := by
  have hspares : Spares c s s' → Became c o conn s' := fun hs => hs.became hc ho
  cases hh with
  | reply => exact hspares (.of_same (if_neg hne) rfl)
  | body => exact hspares (.of_same (if_neg hne) rfl)
  | read => exact hspares (.of_lists (if_neg hne) (List.append_nil _).symm rfl rfl rfl)
  | plain => exact hspares (.of_lists (if_neg hne) (List.append_nil _).symm rfl rfl rfl)
  | take => exact hspares (.of_lists (if_neg hne) (List.append_nil _).symm rfl rfl rfl)
  | strand => exact hspares (.of_same (if_neg hne) rfl)
  | park => exact hspares (.of_lists (if_neg hne) rfl (List.append_nil _).symm rfl rfl)
  | kill drops =>
    have hb : Became c o conn _ := drops.became hfn hnd ((if_neg hne).trans hc) ho
    exact hb.spares (.of_same (if_neg hne) rfl) fun a ha => List.mem_cons_of_mem _ ha
  | free => exact hspares (.of_same (if_neg hne) rfl)

/-! ## Sockets of others -/

theorem spyReadHandler_became (hne : c ≠ j) (hfn : ∀ job ∈ s.pendingWrites, job.fn = .write)
    (hnd : s.ledger.waiting.Nodup) {connj : Connection} {r : SockRead}
    (hs : spyReadHandler cfg s j connj r env = .ok s') (hc : s.conns c = some conn)
    (ho : (c, o) ∈ s.orders) : Became c o conn s' := by
  unfold spyReadHandler at hs
  split at hs
  · exact (Spares.of_ok hs (if_neg hne) rfl).became hc ho
  · rename_i mem request len harea
    split at hs
    · exact (Spares.of_ok hs (if_neg hne) rfl).became hc ho
    · exact (Spares.of_ok hs (if_neg hne) rfl).became hc ho
    · exact (Spares.of_ok hs (if_neg hne) rfl).became hc ho
    · split at hs
      · exact (Spares.of_ok hs (if_neg hne) rfl).became hc ho
      · obtain ⟨conn1, -, hs⟩ := bind_eq_ok hs
        simp only at hs
        split at hs
        · exact Handles.became (s := { s with mem := mem }) hne hfn hnd (dispatch_handles hs) hc ho
        · exact (Spares.of_ok hs (if_neg hne) rfl).became hc ho

theorem Sends.works {connj : Connection} (h : Sends s j connj s') : s'.works = s.works := by
  induction h with
  | kept => rfl
  | reset => rfl
  | freed => rfl
  | sent _ _ _ ih => exact ih

/-! ## Workers and what they hand back -/

/-- A job that goes from one list to another keeps its order. -/
theorem orders_perm {x y : Work × Stage} {works : List (Work × Stage)}
    (h : s.works.Perm (x :: works)) (h' : s'.works.Perm (y :: works))
    (he : (x.1.conn, x.1.order) = (y.1.conn, y.1.order)) : s.orders.Perm s'.orders := by
  have hx := h.map fun x => (x.1.conn, x.1.order)
  have hy := h'.map fun x => (x.1.conn, x.1.order)
  rw [List.map_cons] at hx hy
  exact hx.trans (he ▸ hy.symm)

theorem Spares.of_perm (hconns : s'.conns c = s.conns c) (hp : s.orders.Perm s'.orders) :
    Spares c s s' :=
  ⟨hconns, fun _ ho => hp.mem_iff.mp ho⟩

theorem workerStart_spares (hs : workerStart s = .ok s') : Spares c s s' := by
  obtain ⟨work, rest, hq, rfl⟩ := workerStart_ok hs
  exact .of_perm rfl (orders_perm (works_perm_queued (List.Perm.of_eq hq))
    (works_perm_running (s := { s with queued := rest, running := s.running ++ [_] })
      (List.perm_append_singleton _ s.running)) rfl)

theorem orders_set {k : Nat} {x : Work × Progress} (x' : Work × Progress)
    (hk : s.running[k]? = some x) (ht : s'.works = { s with running := s.running.set k x' }.works)
    (he : (x.1.conn, x.1.order) = (x'.1.conn, x'.1.order)) : s.orders.Perm s'.orders := by
  obtain ⟨hlt, rfl⟩ := List.getElem?_eq_some_iff.mp hk
  have hafter := works_perm_running (s := { s with running := s.running.set k x' })
    (List.set_perm_cons_eraseIdx hlt x')
  rw [← ht] at hafter
  exact orders_perm (works_perm_running (List.getElem_cons_eraseIdx_perm hlt).symm) hafter he

theorem workerFinish_spares {k : Nat} (hs : workerFinish s k = .ok s') : Spares c s s' := by
  obtain ⟨work, _, _, hk, -, rfl⟩ := workerFinish_ok hs
  obtain ⟨hlt, he⟩ := List.getElem?_eq_some_iff.mp hk
  refine .of_perm rfl (orders_perm
    (works_perm_running (List.getElem_cons_eraseIdx_perm hlt).symm)
    (works_perm_finished (s := { s with
      running := s.running.eraseIdx k, finished := s.finished ++ [_] })
      (List.perm_append_singleton _ s.finished)) ?_)
  rw [he]
  cases work <;> rfl

theorem spyWriteFileStep_data {file : SpyFile} {offset now : Nat} {io : Pwrite} {r r' : WriteRun}
    (hs : spyWriteFileStep file offset io now r = some r') :
    r'.request.data = r.request.data := by
  unfold spyWriteFileStep at hs
  split at hs
  · split at hs
    · cases hs
    · obtain rfl := Option.some.inj hs
      rfl
  · split at hs
    · obtain rfl := Option.some.inj hs
      rfl
    · simp only at hs
      split at hs <;> obtain rfl := Option.some.inj hs <;> rfl
  · obtain rfl := Option.some.inj hs
    rfl
  · obtain rfl := Option.some.inj hs
    rfl

/-- The connection of a job may be written, but for its opcode and its request. -/
theorem Became.of_perm (hp : s.orders.Perm s'.orders) {new : Connection}
    (hconns : s'.conns = (s.setConn j new).conns)
    (hnew : ∀ old, s.conns j = some old →
      new.opcode = old.opcode ∧ new.request.data = old.request.data)
    (hc : s.conns c = some conn) (ho : (c, o) ∈ s.orders) : Became c o conn s' := by
  by_cases hi : c = j
  · subst hi
    obtain ⟨hop, hdata⟩ := hnew conn hc
    exact .waits (hconns ▸ if_pos rfl) hop hdata (hp.mem_iff.mp ho)
  · exact .waits ((congrFun hconns c).trans ((if_neg hi).trans hc)) rfl rfl (hp.mem_iff.mp ho)

theorem Advances.became (hl : LedgerInv s.ledger recs lost) {k : Nat} {io : WorkerIo}
    (hs : Advances s k io s') (hc : s.conns c = some conn) (ho : (c, o) ∈ s.orders) :
    Became c o conn s' := by
  cases hs with
  | write running live call =>
    refine .of_perm (orders_set _ running rfl rfl) rfl (fun old hold => ?_) hc ho
    obtain rfl := Option.some.inj (live.symm.trans hold)
    exact ⟨rfl, spyWriteFileStep_data call⟩
  | @read job _ _ _ r running live =>
    have hfn : job.fn = .read := by
      cases hl.works _ (mem_works_running running) _ live with
      | reading _ _ _ _ fn => exact fn
      | plain _ _ _ hplain => cases hplain
    have he : (job.conn, (Work.io job).order) =
        (job.conn, (Work.io { job with file := r.file }).order) := by
      simp only [Work.order, hfn]
    refine .of_perm (orders_set _ running rfl he) rfl (fun old hold => ?_) hc ho
    obtain rfl := Option.some.inj (live.symm.trans hold)
    exact ⟨rfl, rfl⟩
  | check io running =>
    exact Spares.became (s := s) (.of_perm rfl (orders_set _ running rfl rfl)) hc ho
  | send retcode running =>
    exact Spares.became (s := s) (.of_perm rfl (orders_set _ running rfl rfl)) hc ho

theorem handOver_perm (s : Server) (id : UInt64) : s.orders.Perm (handOver s id).orders := by
  unfold handOver
  simp only
  split
  · rename_i pending hfind
    split at hfind
    · exact orders_perm (works_perm_pending (find?_eraseP_perm hfind))
        (works_perm_queued (List.perm_append_singleton _ s.queued)) rfl
    · cases hfind
  · exact .refl _

/-- The callback of another connection's job. -/
theorem Completes.spares {work : Work} {old : Connection} (h : Completes s old work s')
    (hne : c ≠ work.conn) : Spares c s s' := by
  cases h with
  | writeLost => exact .of_same (if_neg hne) rfl
  | writeFailed _ _ _ given =>
    subst given
    exact .of_perm ((if_neg hne).trans (congrFun (handOver_conns (s.count _) _) c))
      (handOver_perm (s.count _) _)
  | writeDone _ _ _ given =>
    subst given
    exact .of_perm ((if_neg hne).trans (congrFun (handOver_conns (s.count _) _) c))
      (handOver_perm (s.count _) _)
  | readFailed => exact .of_same (if_neg hne) rfl
  | readDone => exact .of_same (if_neg hne) rfl
  | checked => exact .of_same (if_neg hne) rfl
  | dumpReset => exact .of_same (if_neg hne) rfl
  | dumpFreed => exact .of_same (if_neg hne) rfl

/-- The callback of the connection's own job. -/
theorem Completes.told {work : Work} (h : Completes s conn work s')
    (hunsent : conn.state ≠ .sendRsp)
    (hreads : ∀ r ∈ successReads s'.answers, r.2.1 = r.2.2.length)
    (hne : work.order ≠ .other) : Became work.conn work.order conn s' := by
  have hwrite : ∀ {job : IoJob} (error : SpyError), work = .io job → job.fn = .write →
      s'.conns job.conn = some (errorReply { conn with bodyLen := 0 } error) →
      .write job.conn job.file.fid error (conn.payload job.file.size) ∈ s'.answers →
      Became work.conn work.order conn s' := by
    rintro job error rfl fn hlive hlogged
    refine .told hlive hlogged ?_ (starts_errorReply { conn with bodyLen := 0 } rfl rfl)
    rw [show (Work.io job).order = .write job.file.fid job.file.size by simp only [Work.order, fn]]
    exact ⟨error, rfl⟩
  have hread : ∀ {job : IoJob}, job.fn = .read →
      (Work.io job).order = .read job.indexEntry.fid := fun fn => by simp only [Work.order, fn]
  cases h with
  | writeLost fn => exact hwrite .internalError rfl fn (if_pos rfl) (List.mem_cons_self ..)
  | writeFailed fn => exact hwrite .writeError rfl fn (if_pos rfl) (List.mem_cons_self ..)
  | writeDone fn => exact hwrite .success rfl fn (if_pos rfl) (List.mem_cons_self ..)
  | readFailed fn =>
    refine .told (if_pos rfl) (List.mem_cons_self ..) ?_ (starts_errorReply conn rfl rfl)
    rw [hread fn]
    exact ⟨.readError, [], rfl, fun _ => rfl⟩
  | @readDone job conn' fn _ reply =>
    -- the answer is logged with the announced length
    have hlen : job.file.size = (conn'.rspBody.unread.take job.file.size).length :=
      hreads (job.indexEntry.fid, _, _) (List.mem_filterMap.mpr ⟨_, List.mem_cons_self .., rfl⟩)
    refine .told (if_pos rfl) (List.mem_cons_self ..) ?_ ?_
    · rw [hread fn]
      exact ⟨.success, _, congrArg (Answer.read job.conn _ .success · _) hlen,
        fun hne => absurd rfl hne⟩
    · rw [bodyReply_rspBody hunsent, bodyReply_eq hunsent] at reply
      subst reply
      exact ⟨rfl, rfl, rfl, hlen, rfl⟩
  | checked fn => exact absurd (by simp only [Work.order, fn]) hne
  | dumpReset => exact absurd rfl hne
  | dumpFreed => exact absurd rfl hne

theorem spyWqThreadDone_became (hl : LedgerInv s.ledger recs lost)
    (hl' : ∀ r ∈ successReads s'.answers, r.2.1 = r.2.2.length) {fcntl : Bool}
    (hs : spyWqThreadDone s fcntl = .ok s') (hc : s.conns c = some conn)
    (ho : (c, o) ∈ s.orders) (hne : o ≠ .other) : Became c o conn s' := by
  obtain ⟨work, rest, old, hf, hold, hdone⟩ := spyWqThreadDone_completes hs
  have hperm := popped_perm hf
  have hmem : (work, Stage.finished) ∈ s.works := hperm.mem_iff.mpr List.mem_cons_self
  by_cases hi : c = work.conn
  · subst hi
    obtain rfl := Option.some.inj (hc.symm.trans hold)
    have hunsent := ((hl.conns.ok _ conn hc).waits (List.mem_map.mpr ⟨_, hmem, rfl⟩)).unsent
    obtain rfl := orders_unique hl.conns.nodup hmem ho
    exact hdone.told hunsent hl' hne
  · exact (hdone.spares hi).became hc (mem_orders_of_perm hperm hi ho)

/-- In every event, the order of a waiting connection stays as it is, or it has its answer. -/
theorem step_became (hl : LedgerInv s.ledger recs lost) {recs' : UInt64 → List Record}
    {lost' : UInt64 → Prop} (hl' : LedgerInv s'.ledger recs' lost') {e : Event}
    (hs : step cfg s e = .ok s') (hc : s.conns c = some conn) (ho : (c, o) ∈ s.orders)
    (hne : o ≠ .other) : Became c o conn s' := by
  have hw : c ∈ s.ledger.waiting := by
    obtain ⟨x, hx, he⟩ := List.mem_map.mp ho
    exact List.mem_map.mpr ⟨x, hx, (Prod.mk.inj he).1⟩
  have hwaits := (hl.conns.ok c conn hc).waits hw
  have hbusy : ∀ {j connj}, s.conns j = some connj →
      connj.readable = true ∨ connj.writable = true → c ≠ j := by
    rintro j connj hcj hready rfl
    obtain rfl := Option.some.inj (hc.symm.trans hcj)
    rw [hwaits.readable, hwaits.writable] at hready
    exact hready.elim nofun nofun
  have hfn : ∀ job ∈ s.pendingWrites, job.fn = .write := by
    intro job hj
    have hx : (Work.io job, Stage.pending) ∈ s.works :=
      List.mem_append_left _ (List.mem_map.mpr ⟨job, hj, rfl⟩)
    obtain ⟨conn, hc⟩ := hl.conns.live _ (pending_waits hj)
    cases hl.works _ hx conn hc with
    | parked _ fn _ => exact fn
    | reading _ _ _ _ _ at_ => cases at_
    | plain _ _ _ hplain => cases hplain
  cases e with
  | accept =>
    obtain rfl := Except.ok.inj hs
    have hi : c ≠ s.nextConn := by
      rintro rfl
      exact nomatch (hl.conns.fresh _ (Nat.le_refl _)).symm.trans hc
    exact Spares.became (s := s) (.of_same (if_neg hi) rfl) hc ho
  | readable j r env =>
    obtain ⟨connj, hcj, hread, hs⟩ := step_readable_ok hs
    exact spyReadHandler_became (hbusy hcj (.inl hread)) hfn hl.conns.nodup hs hc ho
  | writable j results =>
    obtain ⟨connj, hcj, hwrite, hs⟩ := step_writable_ok hs
    have hsends := sendLoop_sends results hs
    exact (Spares.of_same (hsends.other (hbusy hcj (.inr hwrite))) hsends.works).became hc ho
  | start => exact (workerStart_spares hs).became hc ho
  | io k io => exact (workerStep_advances hs).became hl hc ho
  | finish k => exact (workerFinish_spares hs).became hc ho
  | done fcntl =>
    exact spyWqThreadDone_became hl (fun r hr => (hl'.reads r hr).1) hs hc ho hne
  | cron now =>
    exact (spyRemoveTimeoutPendingWrites_drops hs).became hfn hl.conns.nodup hc ho

/-! ## The request itself -/

theorem handleWriteError_became (fid : UInt64) (size : Nat) (error : SpyError) :
    Became c (.write fid size) conn (handleWriteError s c conn fid size error) :=
  .told (if_pos rfl) (List.mem_cons_self ..) ⟨error, rfl⟩ (starts_errorReply conn rfl rfl)

theorem handleReadError_became (fid : UInt64) (error : SpyError) :
    Became c (.read fid) conn (handleReadError s c conn fid error) :=
  .told (if_pos rfl) (List.mem_cons_self ..) ⟨error, [], rfl, fun _ => rfl⟩
    (starts_errorReply conn rfl rfl)

theorem mem_orders_queue (s : Server) (work : Work) :
    (work.conn, work.order) ∈ (spyQueueWork s work).orders :=
  List.mem_map.mpr ⟨(work, .queued), (works_perm_queued (s := spyQueueWork s work)
    (List.perm_append_singleton work s.queued)).mem_iff.mpr (List.mem_cons_self ..), rfl⟩

theorem placeWrite_became (fid : UInt64) (size now : Nat) :
    Became c (.write fid size) conn (placeWrite s c conn fid size now) := by
  unfold placeWrite
  simp only
  split
  · exact handleWriteError_became ..
  · cases s.chunks.find? fun id => s.fits id size with
    | none =>
      simp only
      split
      · exact handleWriteError_became ..
      · rename_i slot rest hslot
        refine .waits (if_pos rfl) rfl rfl (List.mem_map.mpr
          ⟨(.io { writeJob slot c fid size with reqTime := now }, .pending), ?_, rfl⟩)
        exact List.mem_append_left _ (List.mem_map.mpr
          ⟨_, List.mem_append_right _ (List.mem_singleton_self _), rfl⟩)
    | some id =>
      simp only
      split
      · exact handleWriteError_became ..
      · exact .waits (if_pos rfl) rfl rfl (mem_orders_queue _ (.io _))

theorem Became.congr {conn' : Connection} (h : Became c o conn' s')
    (hop : conn'.opcode = conn.opcode) (hdata : conn'.request.data = conn.request.data) :
    Became c o conn s' := by
  have hpay : conn'.payload = conn.payload := by
    funext n
    unfold Connection.payload
    rw [hdata]
  cases h with
  | waits live opcode data mem => exact .waits live (opcode.trans hop) (data.trans hdata) mem
  | told live logged answer starts =>
    rw [hpay] at answer
    rw [hop] at starts
    exact .told live logged answer starts

/-- The inner header is read from the request; it stays the same request. -/
theorem Became.of_read {conn' : Connection} (h : Became c o conn' s') {serverId : Nat}
    {fid : UInt64} (hread : readInnerHdr conn = .ok (serverId, fid, conn')) :
    Became c o conn s' := by
  obtain ⟨-, rfl⟩ := readInnerHdr_conn hread
  exact h.congr rfl rfl

theorem spyHandleWrite_became {serverId : Nat} {fid : UInt64} {conn' : Connection}
    (hread : readInnerHdr conn = .ok (serverId, fid, conn'))
    (hs : spyHandleWrite cfg s c conn env = .ok s') :
    Became c (.write fid (conn.bodyLen - reqInnerHdrSize)) conn s' := by
  refine Became.of_read ?_ hread
  unfold spyHandleWrite at hs
  simp only [bind, Except.bind, pure, Except.pure, hread] at hs
  split at hs
  · cases hs
  · split at hs
    · obtain rfl := Except.ok.inj hs
      exact handleWriteError_became ..
    · split at hs
      · obtain rfl := Except.ok.inj hs
        exact handleWriteError_became ..
      · obtain rfl := Except.ok.inj hs
        exact placeWrite_became ..

theorem spyHandleRead_became {serverId : Nat} {fid : UInt64} {conn' : Connection}
    (hread : readInnerHdr conn = .ok (serverId, fid, conn'))
    (hs : spyHandleRead cfg s c conn env = .ok s') : Became c (.read fid) conn s' := by
  refine Became.of_read ?_ hread
  unfold spyHandleRead at hs
  simp only [bind, Except.bind, pure, Except.pure, hread] at hs
  split at hs
  · obtain rfl := Except.ok.inj hs
    exact handleReadError_became ..
  · split at hs
    · obtain rfl := Except.ok.inj hs
      exact handleReadError_became ..
    · rename_i entry hentry
      split at hs
      · cases hs
      · split at hs
        · obtain rfl := Except.ok.inj hs
          exact (handleReadError_became ..).congr rfl rfl
        · split at hs
          · obtain rfl := Except.ok.inj hs
            exact (handleReadError_became ..).congr rfl rfl
          · obtain rfl := Except.ok.inj hs
            obtain ⟨-, rfl⟩ := spyLookupFileIndex_some hentry
            exact .waits (if_pos rfl) rfl rfl (mem_orders_queue _ (.io _))

end Orders
end Speedy.Chunkserver
