import Speedy.Chunkserver.Simulation
import Speedy.Chunkserver.Startup

/-! # The lists of chunks and of pending writes

A chunk is on `server.chunks` or on `server.writing_chunks`; a write that finds none waits
on `server.pending_writes`. `ListStep` says what an event can do to these lists and the
counters beside them. It needs nothing of the chunk files, so what follows from it holds
from any data directory on. -/
namespace Speedy.Chunkserver
open Speedy.Lib Relation

structure Lists where
  chunks : List UInt64
  writingChunks : List UInt64
  chunkIndex : List UInt64
  nChunks : Nat
  pendingWrites : List IoJob
  pendingWritesSize : Nat

def Server.lists (s : Server) : Lists where
  chunks := s.chunks
  writingChunks := s.writingChunks
  chunkIndex := s.chunkIndex
  nChunks := s.nChunks
  pendingWrites := s.pendingWrites
  pendingWritesSize := s.pendingWritesSize

/-- The changes an event at time `now` is made of. -/
inductive ListStep (now : Nat) (l : Lists) : Lists → Prop
  /-- a WRITE gets a chunk -/
  | take (id : UInt64) (free : id ∈ l.chunks) :
      ListStep now l { l with
        chunks := l.chunks.erase id
        writingChunks := id :: l.writingChunks }
  /-- a WRITE has to wait -/
  | park (job : IoJob) (time : job.reqTime = now)
      (room : l.pendingWritesSize < defMaxPendingWrites) :
      ListStep now l { l with
        pendingWrites := l.pendingWrites ++ [job]
        pendingWritesSize := u32 (l.pendingWritesSize + 1) }
  /-- a chunk is handed over to a pending write, anywhere in the list -/
  | promote (fit : IoJob → Bool) (job : IoJob) (found : l.pendingWrites.find? fit = some job) :
      ListStep now l { l with
        pendingWrites := l.pendingWrites.eraseP fit
        pendingWritesSize := u32 (l.pendingWritesSize - 1) }
  /-- a chunk goes back -/
  | giveBack (id : UInt64) (mem : id ∈ l.chunkIndex) (busy : id ∉ l.chunks) :
      ListStep now l { l with
        writingChunks := l.writingChunks.erase id
        chunks := l.chunks ++ [id] }
  /-- the first pending write is answered with an error -/
  | drop (job : IoJob) (rest : List IoJob) (first : l.pendingWrites = job :: rest) :
      ListStep now l { l with
        pendingWrites := rest
        pendingWritesSize := u32 (l.pendingWritesSize - 1) }

/-- Every counter fits its C type. -/
structure Statistic.InRange (t : Statistic) : Prop where
  readBytes : t.readBytes < 18446744073709551616
  writeBytes : t.writeBytes < 18446744073709551616
  readCount : t.readCount < 18446744073709551616
  writeCount : t.writeCount < 18446744073709551616
  readError : t.readError < 18446744073709551616
  writeError : t.writeError < 18446744073709551616
  connCount : t.connCount < 4294967296
  readingCount : t.readingCount < 4294967296
  writingCount : t.writingCount < 4294967296

/-- What an event at time `now` does to the lists, and that no counter leaves its range. -/
structure Moves (now : Nat) (s s' : Server) : Prop where
  lists : ReflTransGen (ListStep now) s.lists s'.lists
  statistic : s.statistic.InRange → s'.statistic.InRange
  chunk : (∀ id, (s.chunk id).InRange) → ∀ id, (s'.chunk id).InRange

theorem u32_lt (x : Int) : u32 x < 4294967296 := by
  unfold u32
  omega

theorem u64_lt (x : Int) : u64 x < 18446744073709551616 := by
  unfold u64
  omega

section Setters
variable {t : Statistic} (h : t.InRange) (x : Int)
include h

theorem Statistic.InRange.setReadBytes : Statistic.InRange { t with readBytes := u64 x } :=
  { h with readBytes := u64_lt x }

theorem Statistic.InRange.setWriteBytes : Statistic.InRange { t with writeBytes := u64 x } :=
  { h with writeBytes := u64_lt x }

theorem Statistic.InRange.startRead (y : Int) :
    Statistic.InRange { t with readCount := u64 x, readingCount := u32 y } :=
  { h with readCount := u64_lt x, readingCount := u32_lt y }

theorem Statistic.InRange.startWrite (y : Int) :
    Statistic.InRange { t with writeCount := u64 x, writingCount := u32 y } :=
  { h with writeCount := u64_lt x, writingCount := u32_lt y }

theorem Statistic.InRange.setReadError : Statistic.InRange { t with readError := u64 x } :=
  { h with readError := u64_lt x }

theorem Statistic.InRange.setWriteError : Statistic.InRange { t with writeError := u64 x } :=
  { h with writeError := u64_lt x }

theorem Statistic.InRange.setConnCount : Statistic.InRange { t with connCount := u32 x } :=
  { h with connCount := u32_lt x }

theorem Statistic.InRange.setReadingCount : Statistic.InRange { t with readingCount := u32 x } :=
  { h with readingCount := u32_lt x }

theorem Statistic.InRange.setWritingCount : Statistic.InRange { t with writingCount := u32 x } :=
  { h with writingCount := u32_lt x }

end Setters

section Moves
variable {now : Nat} {cfg : Config} {s s' t : Server} {c : Nat} {conn : Connection} {env : Env}

/-- Neither the lists nor the counters change. -/
theorem Moves.same (hl : s'.lists = s.lists) (ht : s'.statistic = s.statistic)
    (hc : s'.chunk = s.chunk) : Moves now s s' :=
  ⟨hl ▸ .refl, fun h => ht ▸ h, fun h => hc ▸ h⟩

/-- Only counters change. -/
theorem Moves.counted (hl : s'.lists = s.lists)
    (ht : s.statistic.InRange → s'.statistic.InRange) (hc : s'.chunk = s.chunk) : Moves now s s' :=
  ⟨hl ▸ .refl, ht, fun h => hc ▸ h⟩

theorem Moves.single (hl : ListStep now s.lists s'.lists)
    (ht : s.statistic.InRange → s'.statistic.InRange) (hc : s'.chunk = s.chunk) : Moves now s s' :=
  ⟨.single hl, ht, fun h => hc ▸ h⟩

theorem Moves.trans (h1 : Moves now s t) (h2 : Moves now t s') : Moves now s s' :=
  ⟨h1.lists.trans h2.lists, h2.statistic ∘ h1.statistic, fun h => h2.chunk (h1.chunk h)⟩

/-! ## Requests -/

theorem spyFreeClientConnection_moves : Moves now s (spyFreeClientConnection s c conn) :=
  .counted rfl (fun h => h.setConnCount _) rfl

theorem Drops.moves (h : Drops s s') : Moves now s s' := by
  induction h with
  | stop => exact .same rfl rfl rfl
  | drop _ first _ _ _ ih =>
    refine Moves.trans ?_ ih
    exact .single (.drop _ _ first) id rfl

theorem Handles.moves (h : Handles cfg s c conn env s') : Moves env.now s s' := by
  cases h with
  | reply a =>
    cases a with
    | write => exact .counted rfl (fun h => h.setWriteError _) rfl
    | read => exact .counted rfl (fun h => h.setReadError _) rfl
    | other => exact .same rfl rfl rfl
  | body => exact .same rfl rfl rfl
  | read => exact .counted rfl (fun h => h.startRead _ _) rfl
  | plain => exact .same rfl rfl rfl
  | take _ _ _ _ _ found =>
    exact .single (.take _ (List.mem_of_find?_eq_some found)) (fun h => h.startWrite _ _) rfl
  | strand _ _ _ _ found =>
    exact .single (.take _ (List.mem_of_find?_eq_some found)) (fun h => h.setWriteError _) rfl
  | park _ _ _ _ _ room => exact .single (.park _ rfl room) id rfl
  | kill drops =>
    have hm : Moves env.now _ _ := drops.moves
    exact ⟨hm.lists, hm.statistic, hm.chunk⟩
  | free => exact spyFreeClientConnection_moves

/-! ## Sockets -/

theorem spyReadHandler_moves {r : SockRead} (hs : spyReadHandler cfg s c conn r env = .ok s') :
    Moves env.now s s' := by
  unfold spyReadHandler at hs
  split at hs
  · cases hs
    exact spyFreeClientConnection_moves
  · rename_i mem request len _
    have hfree : Moves env.now s (spyFreeClientConnection { s with mem := mem } c
        { conn with request := request }) :=
      .counted rfl (fun h => h.setConnCount _) rfl
    simp only at hs
    split at hs
    · cases hs
      exact .same rfl rfl rfl
    · cases hs
      exact hfree
    · cases hs
      exact hfree
    · split at hs
      · cases hs
        exact hfree
      · simp only [spyProcessReceiveBuffer, bind, Except.bind, pure, Except.pure] at hs
        split at hs
        · cases hs
        · split at hs
          · have hd := (dispatch_handles hs).moves
            exact ⟨hd.lists, hd.statistic, hd.chunk⟩
          · cases hs
            exact .same rfl rfl rfl

theorem Sends.moves (h : Sends s c conn s') : Moves now s s' := by
  induction h with
  | kept => exact .same rfl rfl rfl
  | reset => exact .same rfl rfl rfl
  | freed => exact spyFreeClientConnection_moves
  | sent _ _ _ ih => exact ih

/-! ## Workers and done callbacks -/

theorem Chunk.commit_inRange (k : Chunk) (size : Nat) : (k.commit size).InRange := by
  simp only [Chunk.InRange, Chunk.commit, u32, u64]
  omega

theorem spyWriteFileStep_inRange {file : SpyFile} {offset time : Nat} {io : Pwrite}
    {r r' : WriteRun} (h : r.chunk.InRange)
    (hs : spyWriteFileStep file offset io time r = some r') : r'.chunk.InRange := by
  unfold spyWriteFileStep at hs
  split at hs
  · split at hs
    · cases hs
    · cases hs
      exact h
  · split at hs
    · cases hs
      exact h
    · simp only at hs
      split at hs <;> cases hs <;> exact h
  · cases hs
    exact r.chunk.commit_inRange _
  · cases hs
    exact h

theorem Advances.moves {i : Nat} {io : WorkerIo} (h : Advances s i io s') : Moves now s s' := by
  cases h with
  | @write job _ _ _ _ r _ _ call =>
    refine ⟨.refl, id, fun h id => ?_⟩
    show (Function.update s.chunk job.chunk r.chunk id).InRange
    by_cases he : id = job.chunk
    · subst he
      rw [Function.update_self]
      exact spyWriteFileStep_inRange (h job.chunk) call
    · rw [Function.update_of_ne he]
      exact h id
  | read => exact .same rfl rfl rfl
  | check => exact .same rfl rfl rfl
  | send => exact .same rfl rfl rfl

theorem handOver_moves {id : UInt64} (mem : id ∈ s.chunkIndex) (busy : id ∉ s.chunks) :
    Moves now s (handOver s id) := by
  unfold handOver
  simp only
  split
  · rename_i job hfind
    refine .single (.promote (fun tmp => s.fits id tmp.file.size) job ?_)
      (fun h => h.startWrite _ _) rfl
    split at hfind
    · exact hfind
    · cases hfind
  · exact .single (.giveBack id mem busy) (fun h => h) rfl

theorem Completes.moves {work : Work} (h : Completes s conn work s')
    (hown : ∀ job, work = .io job → job.fn = .write →
      job.chunk ∈ s.chunkIndex ∧ job.chunk ∉ s.chunks) : Moves now s s' := by
  have hover : ∀ job, work = .io job → job.fn = .write → Moves now s (handOver
      (s.count fun t => { t with writingCount := u32 (t.writingCount - 1) }) job.chunk) := by
    intro job hw fn
    obtain ⟨mem, busy⟩ := hown job hw fn
    refine Moves.trans ?_ (handOver_moves mem busy)
    exact .counted rfl (fun h => h.setWritingCount _) rfl
  cases h with
  | writeLost => exact .counted rfl (fun h => (h.setWritingCount _).setWriteError _) rfl
  | writeFailed fn _ _ given =>
    subst given
    exact (hover _ rfl fn).trans (.counted rfl (fun h => h.setWriteError _) rfl)
  | writeDone fn _ _ given =>
    subst given
    exact (hover _ rfl fn).trans (.counted rfl (fun h => h.setWriteBytes _) rfl)
  | readFailed => exact .counted rfl (fun h => (h.setReadingCount _).setReadError _) rfl
  | readDone => exact .counted rfl (fun h => (h.setReadingCount _).setReadBytes _) rfl
  | checked => exact .same rfl rfl rfl
  | dumpReset => exact .same rfl rfl rfl
  | dumpFreed => exact spyFreeClientConnection_moves

/-! ## Events -/

/-- The time an event reads from the clock. -/
def Event.clock : Event → Option Nat
  | .readable _ _ env => some env.now
  | .cron now => some now
  | _ => none

theorem step_moves {e : Event} (h : FlowInv s.ledger)
    (hnow : ∀ time, e.clock = some time → time = now) (hs : step cfg s e = .ok s') :
    Moves now s s' := by
  cases e with
  | accept =>
    cases hs
    exact .counted rfl (fun h => h.setConnCount _) rfl
  | readable c r env =>
    obtain rfl := hnow env.now rfl
    obtain ⟨conn, -, -, hs⟩ := step_readable_ok hs
    exact spyReadHandler_moves hs
  | writable c results =>
    obtain ⟨conn, -, -, hs⟩ := step_writable_ok hs
    exact (sendLoop_sends results hs).moves
  | start =>
    obtain ⟨work, rest, -, rfl⟩ := workerStart_ok hs
    exact .same rfl rfl rfl
  | io i io => exact (workerStep_advances hs).moves
  | finish i =>
    obtain ⟨work, progress, retcode, -, -, rfl⟩ := workerFinish_ok hs
    exact .same rfl rfl rfl
  | done fcntl =>
    obtain ⟨work, rest, conn, hf, -, hdone⟩ := spyWqThreadDone_completes hs
    have hm : Moves now { s with finished := rest } s' := hdone.moves fun job hw fn => by
      subst hw
      have hx : (Work.io job, Stage.finished) ∈ s.works :=
        (works_perm_finished (by rw [hf])).mem_iff.mpr List.mem_cons_self
      exact h.owners job.chunk (List.mem_filterMap.mpr ⟨_, hx, owner_write fn (by simp)⟩)
    exact ⟨hm.lists, hm.statistic, hm.chunk⟩
  | cron time => exact (spyRemoveTimeoutPendingWrites_drops hs).moves

end Moves

end Speedy.Chunkserver
