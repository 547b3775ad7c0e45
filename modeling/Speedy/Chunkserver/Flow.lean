import Speedy.Chunkserver.LedgerSteps
import Mathlib.Data.List.Nodup
import Mathlib.Data.List.Perm.Subperm

/-! # What holds whatever the chunk files contain

The invariant of the ledger is about bytes on disk. A weaker one is about the flow of
connections and chunks alone: a connection waits for at most one job, and a dispatched
write has its chunk to itself. Every small step keeps it, also on a server that was
started on damaged files. -/
namespace Speedy.Chunkserver
open Speedy.Lib

structure FlowInv (v : Ledger) : Prop where
  conns : ConnInv v.nextConn v.conns v.waiting
  owners_nodup : (v.works.filterMap owner).Nodup
  owners : ∀ id ∈ v.works.filterMap owner, id ∈ v.chunkIndex ∧ id ∉ v.chunks
  chunks_nodup : v.chunks.Nodup
  chunks_mem : ∀ id ∈ v.chunks, id ∈ v.chunkIndex
  ids : ∀ id ∈ v.chunkIndex, (v.chunk id).chunkId = id

theorem LedgerInv.flow {v : Ledger} {recs : UInt64 → List Record} {lost : UInt64 → Prop}
    (h : LedgerInv v recs lost) : FlowInv v where
  conns := h.conns
  owners_nodup := h.owners_nodup
  owners id hid := ⟨(h.owners id hid).1, (h.owners id hid).2.1⟩
  chunks_nodup := h.chunks_nodup
  chunks_mem id hid := (h.chunks_mem id hid).1
  ids id hid := (h.laid id hid).1

section Flow
variable {v v' : Ledger} {x : Work × Stage} {rest : List (Work × Stage)} {id : UInt64}

/-- A step that hands no chunk out. -/
theorem FlowInv.keep (h : FlowInv v) (hc : ConnInv v'.nextConn v'.conns v'.waiting)
    (hown : (v'.works.filterMap owner).Subperm (v.works.filterMap owner))
    (hch : v'.chunks = v.chunks) (hidx : v'.chunkIndex = v.chunkIndex)
    (hids : ∀ id, (v'.chunk id).chunkId = (v.chunk id).chunkId) : FlowInv v' where
  conns := hc
  owners_nodup := by
    obtain ⟨l, hp, hl⟩ := hown
    exact hp.nodup_iff.mp (h.owners_nodup.sublist hl)
  owners id hid := by
    rw [hidx, hch]
    exact h.owners id (hown.subset hid)
  chunks_nodup := hch ▸ h.chunks_nodup
  chunks_mem := by
    rw [hch, hidx]
    exact h.chunks_mem
  ids := by
    intro id hid
    rw [hids]
    exact h.ids id (hidx ▸ hid)

/-- The first job goes on to its next stage. -/
theorem FlowInv.advance (h : FlowInv v) (x' : Work × Stage) (works : v.works = x :: rest)
    (same : x'.1.conn = x.1.conn) (own : owner x' = owner x) {conns : Nat → Option Connection}
    {chunk : UInt64 → Chunk} {disk : UInt64 → ByteStore}
    (hc : ConnInv v.nextConn conns v.waiting)
    (hids : ∀ id, (chunk id).chunkId = (v.chunk id).chunkId) :
    FlowInv { v with conns := conns, chunk := chunk, disk := disk, works := x' :: rest } := by
  refine h.keep ?_ ?_ rfl rfl hids
  · show ConnInv v.nextConn conns ((x' :: rest).map fun y => y.1.conn)
    rw [List.map_cons, same]
    unfold Ledger.waiting at hc
    rwa [works] at hc
  · show ((x' :: rest).filterMap owner).Subperm _
    rw [works, List.filterMap_cons, List.filterMap_cons, own]

/-- The connection of the first job changes and goes on waiting. -/
theorem FlowInv.update (h : FlowInv v) (works : v.works = x :: rest) {conn : Connection}
    (live : v.conns x.1.conn = some conn) (conn' : Connection)
    (same : (conn'.state, conn'.readable, conn'.writable) =
      (conn.state, conn.readable, conn.writable)) :
    ConnInv v.nextConn (fun i => if i = x.1.conn then some conn' else v.conns i) v.waiting := by
  have hin : x.1.conn ∈ v.waiting :=
    List.mem_map.mpr ⟨x, works ▸ List.mem_cons_self, rfl⟩
  obtain ⟨h1, h2, h3⟩ := (h.conns.ok _ conn live).waits hin
  obtain ⟨e1, e2, e3⟩ : _ ∧ _ ∧ _ := ⟨congrArg Prod.fst same,
    congrArg (fun t => t.2.1) same, congrArg (fun t => t.2.2) same⟩
  exact h.conns.update hin ⟨e1.trans h1, e2.trans h2, e3.trans h3⟩

/-- The first job is over; its connection is answered or closed. -/
theorem FlowInv.release (h : FlowInv v) (works : v.works = x :: rest) {new : Option Connection}
    (ok : ∀ conn, new = some conn → ConnOk conn False) :
    ConnInv v.nextConn (fun i => if i = x.1.conn then new else v.conns i)
      (rest.map fun y => y.1.conn) := by
  have hc := h.conns
  unfold Ledger.waiting at hc
  rw [works, List.map_cons] at hc
  exact hc.release ok

theorem FlowInv.done (h : FlowInv v) (works : v.works = x :: rest) {new : Option Connection}
    {answers : List Answer} (ok : ∀ conn, new = some conn → ConnOk conn False) :
    FlowInv { v with
      conns := fun i => if i = x.1.conn then new else v.conns i
      works := rest
      answers := answers } := by
  refine h.keep (h.release works ok) ?_ rfl rfl fun _ => rfl
  rw [works]
  exact (List.Sublist.filterMap owner (List.sublist_cons_self x rest)).subperm

/-- The chunk of a write that is over goes back to the list. -/
theorem FlowInv.giveBack (h : FlowInv v) (works : v.works = x :: rest) (own : owner x = some id)
    {conn : Connection} {fileIndex : List IndexEntry} {answers : List Answer}
    (ok : ConnOk conn False) :
    FlowInv { v.setConn x.1.conn conn with
      works := rest
      chunks := v.chunks ++ [id]
      fileIndex := fileIndex
      answers := answers } := by
  have hnd := h.owners_nodup
  have hown := h.owners
  rw [works, List.filterMap_cons_some own] at hnd hown
  obtain ⟨hnot, hnd⟩ := List.nodup_cons.mp hnd
  obtain ⟨hmem, hfree⟩ := hown id List.mem_cons_self
  refine ⟨h.release works fun conn' he => Option.some.inj he ▸ ok, hnd, ?_, ?_, ?_, h.ids⟩
  · intro i hi
    obtain ⟨h1, h2⟩ := hown i (List.mem_cons_of_mem id hi)
    refine ⟨h1, fun hin => ?_⟩
    rcases List.mem_append.mp hin with hin | hin
    · exact h2 hin
    · exact hnot (List.mem_singleton.mp hin ▸ hi)
  · refine List.nodup_append.mpr ⟨h.chunks_nodup, List.nodup_singleton id, ?_⟩
    intro a ha b hb he
    exact hfree (List.mem_singleton.mp hb ▸ he ▸ ha)
  · intro i hi
    rcases List.mem_append.mp hi with hi | hi
    · exact h.chunks_mem i hi
    · exact List.mem_singleton.mp hi ▸ hmem

theorem FlowInv.submit (h : FlowInv v) {conn : Connection} (submit : Submit v x.1.conn conn)
    (free : owner x = none) : FlowInv { v.setConn x.1.conn conn with works := x :: v.works } := by
  refine h.keep (h.conns.submit submit.live submit.idle submit.waits) ?_ rfl rfl fun _ => rfl
  show ((x :: v.works).filterMap owner).Subperm _
  rw [List.filterMap_cons_none free]

theorem FlowInv.abandon (h : FlowInv v) : FlowInv { v with chunks := v.chunks.erase id } := by
  refine ⟨h.conns, h.owners_nodup, ?_, h.chunks_nodup.erase id, ?_, h.ids⟩
  · intro i hi
    obtain ⟨h1, h2⟩ := h.owners i hi
    exact ⟨h1, fun hin => h2 (List.mem_of_mem_erase hin)⟩
  · intro i hi
    exact h.chunks_mem i (List.mem_of_mem_erase hi)

/-- A free chunk becomes the chunk of a job that had none. -/
theorem FlowInv.assign (h : FlowInv v) {x' : Work × Stage} (works : v.works = x :: rest)
    (same : x'.1.conn = x.1.conn) (none : owner x = none) (own : owner x' = some id)
    (free : id ∈ v.chunks) :
    FlowInv { v with chunks := v.chunks.erase id, works := x' :: rest } := by
  have hold : v.works.filterMap owner = rest.filterMap owner := by
    rw [works, List.filterMap_cons_none none]
  have hnew : (x' :: rest).filterMap owner = id :: rest.filterMap owner :=
    List.filterMap_cons_some own
  have ha : FlowInv { v with chunks := v.chunks.erase id } := h.abandon
  have hnot : id ∉ v.chunks.erase id := fun hin => (h.chunks_nodup.mem_erase_iff.mp hin).1 rfl
  refine ⟨?_, ?_, ?_, ha.chunks_nodup, ha.chunks_mem, h.ids⟩
  · show ConnInv v.nextConn v.conns ((x' :: rest).map fun y => y.1.conn)
    have hc := h.conns
    unfold Ledger.waiting at hc
    rw [works] at hc
    rwa [List.map_cons, same]
  · show ((x' :: rest).filterMap owner).Nodup
    rw [hnew, ← hold]
    exact List.nodup_cons.mpr ⟨fun hin => (h.owners id hin).2 free, h.owners_nodup⟩
  · intro i hi
    replace hi : i ∈ (x' :: rest).filterMap owner := hi
    rw [hnew, ← hold] at hi
    rcases List.mem_cons.mp hi with rfl | hi
    · exact ⟨h.chunks_mem i free, hnot⟩
    · exact ha.owners i hi

theorem spyWriteFileStep_chunkId {file : SpyFile} {offset now : Nat} {io : Pwrite}
    {r r' : WriteRun} (hs : spyWriteFileStep file offset io now r = some r') :
    r'.chunk.chunkId = r.chunk.chunkId := by
  unfold spyWriteFileStep at hs
  split at hs
  · split at hs
    · cases hs
    · cases hs
      rfl
  · split at hs
    · cases hs
      rfl
    · simp only at hs
      split at hs <;> cases hs <;> rfl
  · cases hs
    rfl
  · cases hs
    rfl

theorem LedgerStep.flow {sb : Pwrite → Prop} {dup ack : Prop} (hs : LedgerStep sb dup ack v v')
    (h : FlowInv v) : FlowInv v' := by
  cases hs with
  | shuffle perm =>
    refine h.keep (h.conns.perm (perm.map fun x : Work × Stage => x.1.conn)) ?_ rfl rfl
      fun _ => rfl
    exact (perm.filterMap owner).symm.subperm
  | accept => exact h.keep h.conns.accept (List.Subperm.refl _) rfl rfl fun _ => rfl
  | idle as live idle ok quiet =>
    exact h.keep (h.conns.idle live idle ok) (List.Subperm.refl _) rfl rfl fun _ => rfl
  | drop live idle =>
    refine h.keep (h.conns.set live h.conns.nodup (fun _ _ => Iff.rfl) ?_ ?_)
      (List.Subperm.refl _) rfl rfl fun _ => rfl
    · intro conn he
      cases he
    · exact fun hin => absurd hin idle
  | park submit fn loaded => exact h.submit (x := (.io _, .pending)) submit (by simp [owner])
  | assign works free fits =>
    rename_i job id rest
    by_cases fn : job.fn = .write
    · exact h.assign works rfl (by simp [owner]) (owner_write fn (by simp)) free
    · have ha : FlowInv { v with chunks := v.chunks.erase id } := h.abandon
      exact ha.advance
        (.io { job with chunk := id, offset := (v.chunk id).currentOffset }, .queued) works rfl
        (by simp [owner, fn]) ha.conns fun _ => rfl
  | abandon free => exact h.abandon
  | submitRead submit fn entry chunk empty =>
    exact h.submit (x := (.io _, .queued)) submit (owner_none (by simp [fn]))
  | submitPlain submit plain => exact h.submit (x := (_, .queued)) submit (plain.owner_none _)
  | start works =>
    rename_i work rest
    exact h.advance (work, .running work.begin) works rfl (by cases work <;> simp [owner]) h.conns
      fun _ => rfl
  | pwrite works live step superblock =>
    rename_i job pc rest conn io now r
    refine h.advance (.io job, .running (.write r.pc)) works rfl (by simp [owner])
      (h.update works live { conn with request := r.request } rfl) fun id => ?_
    by_cases he : id = job.chunk
    · subst he
      rw [Function.update_self]
      exact spyWriteFileStep_chunkId step
    · rw [Function.update_of_ne he]
  | pread works live step =>
    rename_i job pc rest conn io r
    exact h.advance (.io { job with file := r.file }, .running (.read r.pc)) works rfl
      (by simp [owner]) (h.update works live { conn with rspBody := r.rspBody } rfl) fun _ => rfl
  | single retcode works =>
    rename_i work rest
    exact h.advance (work, .running (.single (some retcode))) works rfl
      (by cases work <;> simp [owner]) h.conns fun _ => rfl
  | finish works done =>
    rename_i work progress retcode rest
    exact h.advance (work.setRetcode retcode, .finished) works (by cases work <;> rfl)
      (by cases work <;> simp [owner, Work.setRetcode]) h.conns fun _ => rfl
  | reply works free ok quiet => exact h.done works fun conn he => Option.some.inj he ▸ ok
  | dumped works ok => exact h.done works ok
  | readDone works fn success live ok => exact h.done works fun conn he => Option.some.inj he ▸ ok
  | writeDone works fn success fresh alone live ok =>
    exact h.giveBack works (owner_write fn (by simp)) ok
  | writeFailed works fn failed ok quiet => exact h.giveBack works (owner_write fn (by simp)) ok
  | writeLost works fn stale allowed ok quiet =>
    exact h.done works fun conn he => Option.some.inj he ▸ ok

end Flow

end Speedy.Chunkserver
