import Speedy.Chunkserver.RequestSim
import Mathlib.Data.List.Perm.Basic

/-! # An event is a run of small steps

The workers, the done callbacks and the timer, and with the socket handlers
`step_sim`: whatever one event does is a sequence of `LedgerStep`s. -/
namespace Speedy.Chunkserver
open Speedy.Lib Relation

/-- How the `pwrite()` of a superblock ends, if the event is one. -/
def superblockIo (s : Server) : Event → Option Pwrite
  | .io i (.pwrite io _) => match s.running[i]? with
    | some (.io _, .write .commit) => some io
    | _ => none
  | _ => none

/-- No two WRITEs in flight share a fid, and none has one that is in the index. -/
structure NoDuplicates (v : Ledger) : Prop where
  distinct : (v.works.filterMap writeFid).Nodup
  fresh : WritesFresh v

/-- The fid of a write is not that of another one. -/
theorem NoDuplicates.alone {v : Ledger} (h : NoDuplicates v) {x : Work × Stage}
    {works : List (Work × Stage)} {fid : UInt64} (hperm : v.works.Perm (x :: works))
    (hfid : writeFid x = some fid) : ∀ y ∈ works, writeFid y ≠ some fid := by
  intro y hy hyf
  have hnd := (hperm.filterMap writeFid).nodup_iff.mp h.distinct
  rw [List.filterMap_cons_some hfid, List.nodup_cons] at hnd
  exact hnd.1 (List.mem_filterMap.mpr ⟨y, hy, hyf⟩)

section Workers
variable {sb : Pwrite → Prop} {dup ack : Prop} {s s' : Server}

theorem workerStart_sim (hs : workerStart s = .ok s') : Steps sb dup ack s.ledger s'.ledger := by
  obtain ⟨work, rest, hq, rfl⟩ := workerStart_ok hs
  have hafter := works_perm_running (s := { s with
    queued := rest, running := s.running ++ [(work, work.begin)] })
    (List.perm_append_singleton (work, work.begin) s.running)
  exact Steps.shuffled (works_perm_queued (by rw [hq])) (.start rfl) hafter.symm

/-- The ledger with the `i`-th busy worker's job in front. -/
def Server.focus (s : Server) (i : Nat) (x : Work × Progress) : Ledger :=
  { s.ledger with
    works := (x.1, .running x.2) :: { s with running := s.running.eraseIdx i }.works }

theorem Steps.running {i : Nat} {x x' : Work × Progress} {v' : Ledger}
    (hx : s.running[i]? = some x) (step : LedgerStep sb dup ack (s.focus i x) v')
    (hw : v'.works = (s.focus i x').works) :
    Steps sb dup ack s.ledger
      { v' with works := { s with running := s.running.set i x' }.works } := by
  obtain ⟨hi, rfl⟩ := List.getElem?_eq_some_iff.mp hx
  have hbefore := works_perm_running (s := s) (List.getElem_cons_eraseIdx_perm hi).symm
  have hafter := works_perm_running (s := { s with running := s.running.set i x' })
    (List.set_perm_cons_eraseIdx hi x')
  exact Steps.shuffled hbefore step (hw ▸ hafter.symm)

theorem Advances.sim {i : Nat} {io : WorkerIo}
    (hsb : ∀ p, superblockIo s (.io i io) = some p → sb p) (hs : Advances s i io s') :
    Steps sb dup ack s.ledger s'.ledger := by
  cases hs with
  | @write job pc io _ _ _ running live call =>
    have hstep : LedgerStep sb dup ack (s.focus i (.io job, .write pc)) _ :=
      .pwrite rfl live call fun hpc => hsb io (by simp only [superblockIo, running, hpc])
    exact Steps.running running hstep rfl
  | @read job pc _ _ _ running live call =>
    have hstep : LedgerStep sb dup ack (s.focus i (.io job, .read pc)) _ := .pread rfl live call
    exact Steps.running running hstep rfl
  | @check job io running =>
    have hstep : LedgerStep sb dup ack (s.focus i (.io job, .single none)) _ :=
      .single (spyCheckChunk io) rfl
    exact Steps.running running hstep rfl
  | @send job retcode running =>
    have hstep : LedgerStep sb dup ack (s.focus i (.dump job, .single none)) _ :=
      .single retcode rfl
    exact Steps.running running hstep rfl

theorem workerFinish_sim {i : Nat} (hs : workerFinish s i = .ok s') :
    Steps sb dup ack s.ledger s'.ledger := by
  obtain ⟨work, progress, retcode, hrun, hdone, rfl⟩ := workerFinish_ok hs
  obtain ⟨hi, hx⟩ := List.getElem?_eq_some_iff.mp hrun
  have hbefore := works_perm_running (s := s) (List.getElem_cons_eraseIdx_perm hi).symm
  rw [hx] at hbefore
  have hstep : LedgerStep sb dup ack (s.focus i (work, progress)) _ := .finish rfl hdone
  have hafter := works_perm_finished (s := { s with
    running := s.running.eraseIdx i
    finished := s.finished ++ [work.setRetcode retcode] })
    (List.perm_append_singleton (work.setRetcode retcode) s.finished)
  exact Steps.shuffled hbefore hstep hafter.symm

end Workers

/-! ## Done callbacks -/

section Done
variable {sb : Pwrite → Prop} {dup ack : Prop} {s s' : Server} {work : Work} {rest : List Work}

/-- The ledger with the first finished job in front. -/
def Server.popped (s : Server) (work : Work) (rest : List Work) : Ledger :=
  { s.ledger with works := (work, .finished) :: { s with finished := rest }.works }

theorem finished_first (hf : s.finished = work :: rest) :
    LedgerStep sb dup ack s.ledger (s.popped work rest) :=
  .shuffle (works_perm_finished (by rw [hf]))

theorem handOver_ledger (s : Server) (id : UInt64) :
    (handOver s id).ledger =
      { s.ledger with works := (handOver s id).works, chunks := (handOver s id).chunks } := by
  unfold handOver
  simp only
  split <;> rfl

theorem find?_eraseP_perm {α : Type} {p : α → Bool} {l : List α} {a : α}
    (h : l.find? p = some a) : l.Perm (a :: l.eraseP p) := by
  induction l with
  | nil => cases h
  | cons b l ih =>
    by_cases hb : p b = true
    · rw [List.find?_cons_of_pos hb] at h
      rw [List.eraseP_cons_of_pos hb, Option.some.inj h]
    · rw [List.find?_cons_of_neg hb] at h
      rw [List.eraseP_cons_of_neg hb]
      exact ((ih h).cons b).trans (.swap ..)

theorem Steps.assign {v : Ledger} {job : IoJob} {id : UInt64} {ws ws' : List (Work × Stage)}
    (before : v.works.Perm ((.io job, .pending) :: ws)) (free : id ∈ v.chunks)
    (fits : (v.chunk id).availSpace > u32 (job.file.size + fileMetaSize))
    (after : ws'.Perm ((.io { job with chunk := id, offset := (v.chunk id).currentOffset },
      .queued) :: ws)) :
    Steps sb dup ack v { v with chunks := v.chunks.erase id, works := ws' } :=
  Steps.shuffled before (.assign rfl free fits) after.symm

/-- The chunk that has come back goes to the first pending write that fits. -/
theorem handOver_sim {id : UInt64} {v : Ledger} (hnot : id ∉ s.chunks) (hw : v.works = s.works)
    (hch : v.chunks = s.chunks ++ [id]) (hc : v.chunk = s.chunk) :
    Steps sb dup ack v
      { v with works := (handOver s id).works, chunks := (handOver s id).chunks } := by
  obtain ⟨nextConn, conns, disk, chunk, chunkIndex, chunks, fileIndex, works, answers⟩ := v
  subst hw hch hc
  unfold handOver
  simp only
  split
  · rename_i job hfind
    have hfind' : s.pendingWrites.find? (fun tmp => s.fits id tmp.file.size) = some job := by
      split at hfind
      · exact hfind
      · cases hfind
    have hfits : (s.chunk id).availSpace > u32 (job.file.size + fileMetaSize) := by
      simpa [Server.fits] using List.find?_some hfind'
    have hafter := works_perm_queued (s := spyQueueWork
      { s with pendingWrites := s.pendingWrites.eraseP fun tmp => s.fits id tmp.file.size }
      (.io { job with chunk := id, offset := (s.chunk id).currentOffset }))
      (List.perm_append_singleton _ s.queued)
    have hsteps : Steps sb dup ack ⟨nextConn, conns, disk, s.chunk, chunkIndex, s.chunks ++ [id],
        fileIndex, s.works, answers⟩ _ :=
      Steps.assign (works_perm_pending (find?_eraseP_perm hfind'))
        (List.mem_append_right s.chunks (List.mem_singleton.mpr rfl)) hfits hafter
    rw [List.erase_append_right _ hnot, List.erase_cons_head, List.append_nil] at hsteps
    exact hsteps
  · exact .refl

theorem spyReplyHeader_rspBody (conn : Connection) :
    (spyReplyHeader conn).rspBody = conn.rspBody := by
  unfold spyReplyHeader spySendResponseIfNeeded
  split <;> rfl

theorem spyReplyBody_ok (conn : Connection) (hst : conn.state = .sendRsp) :
    ConnOk (spyReplyBody conn) False ∧ (spyReplyBody conn).rspBody = conn.rspBody := by
  unfold spyReplyBody spySendResponseIfNeeded
  rw [if_pos hst]
  exact ⟨.sending hst rfl, rfl⟩

theorem Completes.sim {conn : Connection} (h : FlowInv s.ledger)
    (hd : dup ∨ NoDuplicates s.ledger) (hack : ∀ job, work = .io job → job.fn = .write → ack)
    (hf : s.finished = work :: rest) (hc : s.conns work.conn = some conn)
    (hs : Completes { s with finished := rest } conn work s') :
    Steps sb dup ack s.ledger s'.ledger := by
  have hperm : s.works.Perm ((work, .finished) :: { s with finished := rest }.works) :=
    works_perm_finished (by rw [hf])
  have hx : (work, Stage.finished) ∈ s.works := hperm.mem_iff.mpr (List.mem_cons_self ..)
  have hfid : ∀ {job : IoJob}, job.fn = .write →
      writeFid (Work.io job, Stage.finished) = some job.file.fid := fun fn => by
    simp only [writeFid]; rw [if_pos fn]
  -- the state `handOver` starts from
  obtain ⟨t, ht⟩ : ∃ t, t = Server.count { s with finished := rest } fun x =>
    { x with writingCount := u32 (x.writingCount - 1) } := ⟨_, rfl⟩
  have hnot : ∀ job, work = .io job → job.fn = .write → job.chunk ∉ t.chunks := by
    rintro job rfl fn
    rw [ht]
    exact (h.owners _ (List.mem_filterMap.mpr ⟨_, hx, owner_write fn (by simp)⟩)).2
  refine .head (finished_first hf) ?_
  cases hs with
  | @writeLost job e fn stored =>
    obtain ⟨hmem, hef⟩ := spyLookupFileIndex_some stored
    have hstale : ¬ Fresh s.fileIndex job.file.fid := fun hfr => hfr e hmem hef
    have hdup : dup := hd.resolve_right fun hn => hstale (hn.fresh _ hx _ (hfid fn))
    exact .single (.writeLost rfl fn hstale hdup (errorReply_ok _ _) (by simp [Answer.Quiet]))
  | @writeFailed job _ fn _ failed given =>
    have hstep : LedgerStep sb dup ack (s.popped (.io job) rest) _ :=
      .writeFailed rfl fn failed (errorReply_ok { conn with bodyLen := 0 } .writeError)
        (show Answer.Quiet (.write job.conn job.file.fid .writeError
          (conn.payload job.file.size)) by simp [Answer.Quiet])
    refine .head hstep ?_
    rw [← ht] at given
    subst given
    show Steps sb dup ack _ { (handOver t job.chunk).ledger.setConn job.conn _ with
      answers := _ :: (handOver t job.chunk).ledger.answers }
    rw [handOver_ledger]
    have hnot' := hnot job rfl fn
    subst ht
    exact handOver_sim hnot' rfl rfl rfl
  | @writeDone job _ fn unstored done given =>
    have hstep : LedgerStep sb dup ack (s.popped (.io job) rest) _ :=
      .writeDone rfl fn done (spyLookupFileIndex_none unstored)
        (hd.imp id fun hn => hn.alone hperm (hfid fn)) hc
        (errorReply_ok { conn with bodyLen := 0 } .success) (hack job rfl fn)
    refine .head hstep ?_
    rw [← ht] at given
    subst given
    show Steps sb dup ack _ { (handOver t job.chunk).ledger.setConn job.conn _ with
      fileIndex := ⟨((handOver t job.chunk).ledger.chunk job.chunk).chunkId, _, _, _⟩ ::
        (handOver t job.chunk).ledger.fileIndex
      answers := _ :: (handOver t job.chunk).ledger.answers }
    rw [handOver_ledger]
    have hnot' := hnot job rfl fn
    subst ht
    exact handOver_sim hnot' rfl rfl rfl
  | readFailed fn =>
    exact .single (.reply rfl (owner_none (by simp [fn])) (errorReply_ok _ _)
      (by simp [Answer.Quiet]))
  | @readDone job conn' fn done reply =>
    obtain ⟨hok, hbody⟩ := spyReplyBody_ok { spyReplyHeader { conn with
      error := .success, bodyLen := job.file.size } with state := .sendRsp } rfl
    rw [← reply, spyReplyHeader_rspBody] at hbody
    rw [hbody]
    have hstep : LedgerStep sb dup ack (s.popped (.io job) rest) _ :=
      .readDone rfl fn done hc (reply ▸ hok)
    exact .single hstep
  | checked fn =>
    exact .single (.reply rfl (owner_none (by simp [fn])) (errorReply_ok _ _) trivial)
  | dumpReset =>
    refine .single (.dumped rfl fun conn' he => ?_)
    obtain rfl := Option.some.inj he
    exact ⟨rfl, rfl, rfl, rfl, id⟩
  | dumpFreed => exact .single (.dumped rfl fun _ he => by cases he)

end Done

/-! ## Events -/

section Step
variable {sb : Pwrite → Prop} {dup ack : Prop} {cfg : Config} {s s' : Server} {e : Event} {c : Nat}
  {conn : Connection}

/-- A connection with an event registered waits for no job. -/
theorem FlowInv.serving (h : FlowInv s.ledger) (hc : s.conns c = some conn)
    (hev : conn.readable = true ∨ conn.writable = true) : Serving s c ∧ ConnOk conn False := by
  have hok := h.conns.ok c conn hc
  have hidle : c ∉ s.ledger.waiting := by
    intro hw
    have hwaits := hok.waits hw
    rw [hwaits.readable, hwaits.writable] at hev
    simp at hev
  exact ⟨⟨⟨conn, hc⟩, hidle⟩, hok.congr ⟨hidle, False.elim⟩⟩

theorem step_sim (h : FlowInv s.ledger)
    (hsb : ∀ p, superblockIo s e = some p → sb p) (hd : dup ∨ NoDuplicates s.ledger)
    (hack : ∀ fcntl job rest, e = .done fcntl → s.finished = .io job :: rest →
      job.fn = .write → ack)
    (hs : step cfg s e = .ok s') : Steps sb dup ack s.ledger s'.ledger := by
  cases e with
  | accept =>
    obtain rfl := Except.ok.inj hs
    exact .single .accept
  | readable c r env =>
    obtain ⟨conn, hc, hr, hs⟩ := step_readable_ok hs
    obtain ⟨hv, hok⟩ := h.serving hc (.inl hr)
    exact spyReadHandler_sim h hv hok hs
  | writable c results =>
    obtain ⟨conn, hc, hw, hs⟩ := step_writable_ok hs
    obtain ⟨hv, hok⟩ := h.serving hc (.inr hw)
    have hst : conn.state = .sendRsp := by
      unfold ConnOk at hok
      cases hst : conn.state <;> rw [hst] at hok <;> simp_all
    exact (sendLoop_sends results hs).sim hv hst hw
  | start => exact workerStart_sim hs
  | io i io => exact (workerStep_advances hs).sim hsb
  | finish i => exact workerFinish_sim hs
  | done fcntl =>
    obtain ⟨work, rest, conn, hf, hc, hdone⟩ := spyWqThreadDone_completes hs
    exact hdone.sim h hd (fun job he fn => hack fcntl job rest rfl (he ▸ hf) fn) hf hc
  | cron now => exact ((spyRemoveTimeoutPendingWrites_drops hs).sim none nofun).1

end Step
end Speedy.Chunkserver
