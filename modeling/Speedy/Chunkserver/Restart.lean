import Speedy.Chunkserver.Runs
import Mathlib.Data.List.Nodup

/-! # What a restart finds

A restart sees the chunk files alone. If every `pwrite()` of a superblock stores
all its bytes, the file of a chunk always tells the state of the chunk in memory,
so an acknowledged WRITE is found again. If moreover no two WRITEs of one fid are
in flight at the same time, a server at rest has exactly one record per fid and a
restart rebuilds its index. -/
namespace Speedy.Chunkserver
open Speedy.Lib Relation

/-- If the event is the `pwrite()` of a superblock, it stores all of it. -/
def SuperblockStored (s : Server) (e : Event) : Prop :=
  ∀ io, superblockIo s e = some io → io = .full

instance (s : Server) (e : Event) : Decidable (SuperblockStored s e) :=
  match h : superblockIo s e with
  | none => .isTrue fun io hio => by rw [h] at hio; cases hio
  | some io =>
    if hf : io = .full then .isTrue fun io' hio => by
      rw [h] at hio; exact Option.some.inj hio ▸ hf
    else .isFalse fun hs => hf (hs io h)

section Files
variable {v : Ledger} {recs : UInt64 → List Record} {lost : UInt64 → Prop} {id : UInt64}

/-- Memory and file of a chunk agree. -/
theorem LedgerInv.synchronized (h : LedgerInv v recs lost) (hsb : SuperblocksAgree v)
    (hid : id ∈ v.chunkIndex) : Synchronized (v.disk id) (v.chunk id) (recs id) :=
  ⟨(h.laid id hid).2, hsb id hid⟩

theorem entriesOf_fids_nodup {index : List IndexEntry} (h : (index.map IndexEntry.fid).Nodup)
    (id : UInt64) : ((entriesOf index id).map IndexEntry.fid).Nodup := by
  unfold entriesOf
  rw [List.map_reverse, (List.reverse_perm _).nodup_iff]
  exact h.sublist (List.filter_sublist.map _)

/-- Recovering the file of a chunk whose records are all in the index. -/
theorem LedgerInv.setup (h : LedgerInv v recs lost) (hsb : SuperblocksAgree v)
    (hid : id ∈ v.chunkIndex) (hex : entriesOf v.fileIndex id = entriesAt id 55 (recs id))
    {reads : Nat → ReadResult} {size : Nat} (hreads : ∀ k, (reads k).Whole) {before : Recovered}
    (hnew : ∀ e ∈ entriesOf v.fileIndex id, Fresh before.fileIndex e.fid)
    (hids : ∀ c ∈ before.chunks, c.chunkId ≠ id) :
    spySetupChunk (v.disk id) size reads before =
      .accepted (before.add { v.chunk id with fileSize := u32 size }
        (entriesOf v.fileIndex id)) := by
  have hcid := (h.laid id hid).1
  have hfids : (entriesOf v.fileIndex id).map IndexEntry.fid = (recs id).map Record.fid := by
    rw [hex, entriesAt_map_fid]
  have hfresh : ∀ r ∈ recs id, Fresh before.fileIndex r.fid := by
    intro r hr
    have hin : r.fid ∈ (entriesOf v.fileIndex id).map IndexEntry.fid := by
      rw [hfids]; exact List.mem_map_of_mem hr
    obtain ⟨e, he, hef⟩ := List.mem_map.mp hin
    exact hef ▸ hnew e he
  rw [(h.synchronized hsb hid).setup hreads (hfids ▸ entriesOf_fids_nodup h.fids id) hfresh
      (by rw [hcid]; exact hids), hex,
    show entriesAt (v.chunk id).chunkId 55 (recs id) = entriesAt id 55 (recs id) by rw [hcid]]

end Files

/-! ## Acknowledged writes are found again -/

section Acknowledged
variable {cfg : Config} {s s' : Server} {e : Event}

/-- A small step that acknowledges nothing. -/
theorem LedgerStep.unacknowledged {sb : Pwrite → Prop} {dup : Prop} {v v' : Ledger}
    (hs : LedgerStep sb dup False v v') :
    successWrites v'.answers = successWrites v.answers := by
  cases hs with
  | idle _ _ _ _ quiet => exact (quiet_append quiet _).1
  | reply _ _ _ quiet => exact successWrites_quiet quiet _
  | writeDone _ _ _ _ _ _ _ acked => exact acked.elim
  | writeFailed _ _ _ _ quiet => exact successWrites_quiet quiet _
  | writeLost _ _ _ _ _ quiet => exact successWrites_quiet quiet _
  | _ => rfl

/-- In runs that store every superblock, memory and files agree. -/
theorem Run.superblocks {ok : Server → Event → Server → Prop}
    (hok : ∀ s e s', ok s e s' → SuperblockStored s e) (h : Run cfg ok s) :
    ∃ recs lost, LedgerInv s.ledger recs lost ∧ SuperblocksAgree s.ledger := by
  refine h.invariant
    (I := fun s => ∃ recs lost, LedgerInv s.ledger recs lost ∧ SuperblocksAgree s.ledger)
    (fun s hs => ⟨_, _, hs.inv, hs.superblocks⟩) ?_
  intro s e s' _ ⟨recs, lost, hinv, hsb⟩ hs
  have hsim : Steps (· = .full) True True s.ledger s'.ledger :=
    step_sim hinv.flow (hok s e s' hs.2) (.inl trivial) (fun _ _ _ _ _ _ => trivial) hs.1
  refine ReflTransGen.keeps
    (I := fun v => ∃ recs lost, LedgerInv v recs lost ∧ SuperblocksAgree v) ?_
    ⟨recs, lost, hinv, hsb⟩ hsim
  intro v v' ⟨recs, lost, hi, hb⟩ hstep
  obtain ⟨recs', lost', hi', _⟩ := hstep.inv hi
  exact ⟨recs', lost', hi', hstep.superblocks hi hb⟩

/-- The index entry a finished write is going to get. -/
def IoJob.entry (job : IoJob) : IndexEntry :=
  ⟨job.chunk, job.file.fid, job.offset, u32 (job.file.size + fileMetaSize)⟩

/-- What `spy_write_file_done` has done when it answers with success. -/
theorem spyWriteFileDone_success {job : IoJob} {c : Nat} {fid : UInt64} {payload : Bytes}
    (fn : job.fn = .write) (hs : spyWriteFileDone s job = .ok s')
    (ha : s'.answers = .write c fid .success payload :: s.answers) :
    job.retcode = 0 ∧ Fresh s.fileIndex job.file.fid ∧ fid = job.file.fid ∧
      (∃ conn, s.conns job.conn = some conn) ∧ s'.disk = s.disk ∧ s'.chunk = s.chunk ∧
      s'.fileIndex = { job.entry with chunkId := (s.chunk job.chunk).chunkId } :: s.fileIndex := by
  obtain ⟨conn, hc, hdone⟩ := spyWriteFileDone_completes fn hs
  cases hdone with
  | writeLost => cases (List.cons.inj ha).1
  | writeFailed => cases (List.cons.inj ha).1
  | @writeDone _ t _ unstored done given =>
    have hdisk : t.ledger.disk = s.disk := by rw [given, handOver_ledger]; rfl
    have hchunk : t.ledger.chunk = s.chunk := by rw [given, handOver_ledger]; rfl
    have hindex : t.ledger.fileIndex = s.fileIndex := by rw [given, handOver_ledger]; rfl
    refine ⟨done, spyLookupFileIndex_none unstored, ?_, ⟨conn, hc⟩, hdisk, hchunk, ?_⟩
    · injection (List.cons.inj ha).1 with _ h2
      exact h2.symm
    · show ⟨(t.ledger.chunk job.chunk).chunkId, _, _, _⟩ :: t.ledger.fileIndex = _
      rw [hchunk, hindex]
      rfl
  | readFailed fn' => cases fn.symm.trans fn'
  | readDone fn' => cases fn.symm.trans fn'
  | checked fn' => cases fn.symm.trans fn'

/-- Only the done callback of a write acknowledges one. -/
theorem step_acknowledges {recs : UInt64 → List Record} {lost : UInt64 → Prop} {c : Nat}
    {fid : UInt64} {payload : Bytes} (h : LedgerInv s.ledger recs lost)
    (hs : step cfg s e = .ok s') (ha : s'.answers = .write c fid .success payload :: s.answers) :
    ∃ job rest, s.finished = .io job :: rest ∧ job.fn = .write ∧
      spyWriteFileDone { s with finished := rest } job = .ok s' := by
  by_contra hno
  have hsim : Steps (fun _ => True) True False s.ledger s'.ledger := by
    refine step_sim h.flow (fun _ _ => trivial) (.inl trivial)
      (fun fcntl job rest he hf fn => ?_) hs
    refine hno ⟨job, rest, hf, fn, ?_⟩
    subst he
    simp only [step, spyWqThreadDone, hf, fn] at hs
    exact hs
  have hsame : successWrites s'.answers = successWrites s.answers :=
    ReflTransGen.keeps (I := fun v => successWrites v.answers = successWrites s.answers)
      (fun _ _ hv hstep => hstep.unacknowledged.trans hv) rfl hsim
  rw [ha] at hsame
  exact List.cons_ne_self _ _ hsame

/-- When a finished write is about to be acknowledged, the file of its chunk has
everything recovery needs to index it. -/
theorem LedgerInv.recoverable {v : Ledger} {recs : UInt64 → List Record} {lost : UInt64 → Prop}
    {job : IoJob} {rest : List (Work × Stage)} {conn : Connection} (h : LedgerInv v recs lost)
    (hsb : SuperblocksAgree v) (works : v.works = (.io job, .finished) :: rest)
    (fn : job.fn = .write) (success : job.retcode = 0) (fresh : Fresh v.fileIndex job.file.fid)
    (live : v.conns job.conn = some conn) {reads : Nat → ReadResult} (size : Nat)
    (hreads : ∀ k, (reads k).Whole) :
    (v.chunk job.chunk).chunkId = job.chunk ∧
      job.offset + job.entry.size ≤ (v.chunk job.chunk).currentOffset ∧
      Holds (v.disk job.chunk) 0 (spyFillSuperblock (v.chunk job.chunk)) ∧
      (v.chunk job.chunk).InRange ∧
      ∃ st, spySetupChunk (v.disk job.chunk) size reads ⟨[], [], 0⟩ = .accepted st ∧
        job.entry ∈ st.fileIndex := by
  have hx : (Work.io job, Stage.finished) ∈ v.works := by rw [works]; exact List.mem_cons_self ..
  have own : owner (Work.io job, Stage.finished) = some job.chunk := owner_write fn (by simp)
  obtain ⟨hmem, _, hnl⟩ := h.owners job.chunk (List.mem_filterMap.mpr ⟨_, hx, own⟩)
  obtain ⟨hcid, hlaid⟩ := h.laid _ hmem
  have hdone := h.writeDone works fn success fresh live (errorReply_ok conn .success)
  rw [hcid] at hdone
  -- no other job is on the chunk, so with the new entry its records are all indexed
  have hex := hdone.exact_ job.chunk hmem (fun hl => hl.elim hnl fun hx => Bool.noConfusion hx.2)
    fun y hy hcy => h.rest_owner works own y hy hcy.owner
  have hin : job.entry ∈ entriesOf (job.entry :: v.fileIndex) job.chunk := by
    rw [entriesOf_cons_eq _ (show IndexEntry.chunkId _ = job.chunk from rfl)]
    exact List.mem_append_right _ (List.mem_singleton.mpr rfl)
  obtain ⟨_, _, _, rec, hrec, _⟩ := hdone.acknowledged (List.mem_cons_self ..)
  refine ⟨hcid, (hdone.inside hmem hrec).2, hsb _ hmem, hlaid.inRange, _,
    hdone.setup hsb hmem hex hreads nofun nofun, ?_⟩
  show job.entry ∈ (entriesOf (job.entry :: v.fileIndex) job.chunk).reverse ++ []
  simpa using hin

/-- Acknowledged means recoverable, when every superblock is stored. At the moment
a WRITE is answered with success the superblock in its chunk's file covers the
record, and recovering that file indexes the fid as it is indexed in memory. -/
theorem acknowledged_is_recoverable {c : Nat} {fid : UInt64} {payload : Bytes}
    {reads : Nat → ReadResult} (h : Run cfg (fun s e _ => SuperblockStored s e) s)
    (hs : step cfg s e = .ok s') (ha : s'.answers = .write c fid .success payload :: s.answers)
    (size : Nat) (hreads : ∀ k, (reads k).Whole) :
    ∃ entry ∈ s'.fileIndex, entry.fid = fid ∧
      (∃ chunk, spyParseChunkSuperblock (slice (s'.disk entry.chunkId) 0 superblockSize)
          (spyAllocChunk 0 (u32 size)) = some chunk ∧
        entry.offset + entry.size ≤ chunk.currentOffset) ∧
      ∃ st, spySetupChunk (s'.disk entry.chunkId) size reads ⟨[], [], 0⟩ = .accepted st ∧
        entry ∈ st.fileIndex := by
  obtain ⟨recs, lost, hinv, hsb⟩ := h.superblocks fun _ _ _ hok => hok
  obtain ⟨job, rest, hf, fn, hdone⟩ := step_acknowledges hinv hs ha
  obtain ⟨hret, hfresh, rfl, ⟨conn, hconn⟩, hdisk, hchunk, hindex⟩ :=
    spyWriteFileDone_success fn hdone ha
  have hpop := hinv.shuffle (works_perm_finished (s := s) (by rw [hf]))
  obtain ⟨hcid, hcover, hsuper, hrange, hst⟩ :=
    hpop.recoverable hsb rfl fn hret hfresh hconn size hreads
  have hdisk' : s'.disk = s.disk := hdisk
  refine ⟨job.entry, ?_, rfl, ⟨{ s.chunk job.chunk with fileSize := u32 size }, ?_, hcover⟩, ?_⟩
  · rw [hindex]
    refine List.mem_cons.mpr (.inl ?_)
    show job.entry = { job.entry with chunkId := (s.chunk job.chunk).chunkId }
    rw [show (s.chunk job.chunk).chunkId = job.chunk from hcid]
    rfl
  · show spyParseChunkSuperblock (slice (s'.disk job.chunk) 0 superblockSize) _ = _
    have hsuper' : Holds (s.disk job.chunk) 0 (spyFillSuperblock (s.chunk job.chunk)) := hsuper
    have hrange' : (s.chunk job.chunk).InRange := hrange
    rw [hdisk', hsuper'.slice_eq (by simp), spyParseChunkSuperblock_fill hrange']
    rfl
  · rw [hdisk']
    exact hst

/-- What the done callback would answer. -/
def doneAnswers (s : Server) : Except Fault (List Answer) :=
  (step sampleConfig s (.done true)).map Server.answers

theorem acknowledged_is_recoverable_sampleWrite :
    ∃ (s' : Server) (entry : IndexEntry) (st : Recovered),
    entry ∈ s'.fileIndex ∧ entry.fid = 7 ∧
      spySetupChunk (s'.disk entry.chunkId) 2147483648 fullReads ⟨[], [], 0⟩ = .accepted st ∧
      entry ∈ st.fileIndex := by
  have hplay : (play sampleConfig (fun s e _ => decide (SuperblockStored s e)) (writeEvents .full)
      (newServer sampleConfig)).map (fun s => (doneAnswers s, s.answers)) =
        .ok (.ok [.write 0 7 .success [1, 2, 3]], []) := by
    decide +kernel
  obtain ⟨s, hs, hf⟩ := map_eq_ok hplay
  obtain ⟨hdone, hnone⟩ := Prod.mk.inj hf
  have hrun : Run sampleConfig (fun s e _ => SuperblockStored s e) s :=
    (play_run _ (.init newServer_fresh) hs).mono fun s e s' h => ⟨h.1, of_decide_eq_true h.2⟩
  unfold doneAnswers at hdone
  cases hstep : step sampleConfig s (.done true) with
  | error fault => rw [hstep] at hdone; cases hdone
  | ok s' =>
    rw [hstep] at hdone
    have ha : s'.answers = .write 0 7 .success [1, 2, 3] :: s.answers := by
      rw [hnone]; exact Except.ok.inj hdone
    obtain ⟨entry, hmem, hfid, _, st, hst, hin⟩ :=
      acknowledged_is_recoverable hrun hstep ha 2147483648 fullReads_whole
    exact ⟨s', entry, st, hmem, hfid, hst, hin⟩

/-- The `pwrite()` of the superblock fails, and the WRITE is acknowledged all the
same: recovery accepts the chunk without it. -/
theorem acknowledged_is_not_recovered : ∃ s s' : Server,
    Run sampleConfig (fun _ _ _ => True) s ∧ step sampleConfig s (.done true) = .ok s' ∧
      s'.answers = .write 0 7 .success [1, 2, 3] :: s.answers ∧
      s'.fileIndex = [⟨2, 7, 55, 33⟩] ∧
      spySetupChunk (s'.disk 2) 2147483648 fullReads ⟨[], [], 0⟩ =
        .accepted ⟨[spyAllocChunk 2 2147483648], [], 2⟩ := by
  have hplay : (play sampleConfig (fun _ _ _ => true) (writeEvents (.short 0))
      (newServer sampleConfig)).map (fun s => ((step sampleConfig s (.done true)).map fun s' =>
        (s'.answers, s'.fileIndex, spySetupChunk (s'.disk 2) 2147483648 fullReads ⟨[], [], 0⟩),
          s.answers)) =
      .ok (.ok ([.write 0 7 .success [1, 2, 3]], [⟨2, 7, 55, 33⟩],
        .accepted ⟨[spyAllocChunk 2 2147483648], [], 2⟩), []) := by
    decide +kernel
  obtain ⟨s, hs, hf⟩ := map_eq_ok hplay
  obtain ⟨hdone, hnone⟩ := Prod.mk.inj hf
  cases hstep : step sampleConfig s (.done true) with
  | error fault => rw [hstep] at hdone; cases hdone
  | ok s' =>
    rw [hstep] at hdone
    obtain ⟨ha, hdone⟩ := Prod.mk.inj (Except.ok.inj hdone)
    obtain ⟨hindex, hsetup⟩ := Prod.mk.inj hdone
    refine ⟨s, s', (play_run _ (.init newServer_fresh) hs).mono fun _ _ _ h => ⟨h.1, trivial⟩,
      hstep, ?_, hindex, hsetup⟩
    rw [hnone]
    exact ha

end Acknowledged

/-! ## A server at rest -/

/-- The fids of the WRITEs in flight, from the request to the done callback. -/
def inFlight (s : Server) : List UInt64 := s.works.filterMap writeFid

/-- The records in the chunk files below `current_offset` are `recs`, and they are
what the index and the counters say. -/
structure Consistent (s : Server) (recs : UInt64 → List Record) : Prop where
  laid : ∀ id ∈ s.chunkIndex, Laid (s.disk id) (s.chunk id) (recs id)
  entries : ∀ id ∈ s.chunkIndex, entriesOf s.fileIndex id = entriesAt id superblockSize (recs id)
  covered : ∀ e ∈ s.fileIndex, e.chunkId ∈ s.chunkIndex
  fids : ((s.chunkIndex.flatMap recs).map Record.fid).Nodup
  count : ∀ id ∈ s.chunkIndex, (s.chunk id).filesCount = (entriesOf s.fileIndex id).length

/-- The data directory as a restart reads it, in some order. -/
def DirectoryOf (s : Server) (dir : List DirEntry) : Prop :=
  ∃ ids, ids.Perm s.chunkIndex ∧ List.Forall₂ (fun id d => d.valid = true ∧ d.file = s.disk id ∧
    ∀ k, (d.reads k).Whole) ids dir

section Rest
variable {cfg : Config} {s s' : Server} {v v' : Ledger} {recs : UInt64 → List Record}
  {lost : UInt64 → Prop}

theorem LedgerStep.chunkIndex_eq {sb : Pwrite → Prop} {dup ack : Prop}
    (hs : LedgerStep sb dup ack v v') : v'.chunkIndex = v.chunkIndex := by
  cases hs <;> rfl

/-- What runs without a lost superblock and without duplicate writes keep. -/
structure Orderly (v : Ledger) (recs : UInt64 → List Record) : Prop where
  inv : LedgerInv v recs fun _ => False
  superblocks : SuperblocksAgree v
  fresh : WritesFresh v
  ids : v.chunkIndex.Nodup

theorem Orderly.step {ack : Prop} (h : Orderly v recs)
    (hs : LedgerStep (· = .full) False ack v v') : ∃ recs', Orderly v' recs' := by
  obtain ⟨recs', lost', hi, hl⟩ := hs.inv h.inv
  have hlost : lost' = fun _ => False := by
    funext id
    exact propext ⟨hl not_false id, False.elim⟩
  subst hlost
  refine ⟨recs', hi, hs.superblocks h.inv h.superblocks, hs.fresh not_false h.inv h.fresh, ?_⟩
  rw [hs.chunkIndex_eq]
  exact h.ids

/-- The conditions on a run: every superblock is stored, and no two WRITEs of one
fid are in flight. -/
def OneWritePerFid (s : Server) (e : Event) (s' : Server) : Prop :=
  SuperblockStored s e ∧ (inFlight s').Nodup

theorem Run.orderly (h : Run cfg OneWritePerFid s) :
    (∃ recs, Orderly s.ledger recs) ∧ (inFlight s).Nodup ∧ s.chunkIndex.length = cfg.nChunks := by
  refine h.invariant (I := fun s => (∃ recs, Orderly s.ledger recs) ∧ (inFlight s).Nodup ∧
    s.chunkIndex.length = cfg.nChunks) (fun s hs => ?_) ?_
  · obtain ⟨t, hc, rfl, hlen⟩ := hs.created
    have hfresh : WritesFresh (Server.start cfg t).ledger := by
      intro x hx
      cases hx
    refine ⟨⟨_, hs.inv, hs.superblocks, hfresh, hc.ids⟩, List.nodup_nil, ?_⟩
    simpa [Server.start] using hlen
  · rintro s e s' - ⟨⟨recs, ho⟩, hnd, hlen⟩ hs
    have hsim : Steps (· = .full) False True s.ledger s'.ledger :=
      step_sim ho.inv.flow hs.2.1 (.inr ⟨hnd, ho.fresh⟩) (fun _ _ _ _ _ _ => trivial) hs.1
    refine ⟨?_, hs.2.2, ?_⟩
    · refine ReflTransGen.keeps (I := fun v => ∃ recs, Orderly v recs) ?_ ⟨recs, ho⟩ hsim
      rintro v v' ⟨recs, hv⟩ hstep
      exact hv.step hstep
    · refine ReflTransGen.keeps (I := fun v => v.chunkIndex.length = cfg.nChunks) ?_ hlen hsim
      intro v v' hv hstep
      rw [hstep.chunkIndex_eq]
      exact hv

/-- Without a WRITE in flight every chunk's records are in the index. -/
theorem Orderly.exact_at_rest (h : Orderly v recs) (hq : v.works.filterMap writeFid = [])
    {id : UInt64} (hid : id ∈ v.chunkIndex) :
    entriesOf v.fileIndex id = entriesAt id 55 (recs id) := by
  refine h.inv.exact_ id hid not_false fun x hx hc => ?_
  obtain ⟨work, stage⟩ := x
  cases work with
  | dump job => exact hc.elim
  | io job =>
    have hin : job.file.fid ∈ v.works.filterMap writeFid :=
      List.mem_filterMap.mpr ⟨_, hx, by simp only [writeFid]; rw [if_pos hc.1]⟩
    rw [hq] at hin
    cases hin

theorem mem_entriesOf {index : List IndexEntry} {id : UInt64} {e : IndexEntry} :
    e ∈ entriesOf index id ↔ e ∈ index ∧ e.chunkId = id := by
  simp [entriesOf]

/-- The index is made up of the entries of its chunks. -/
theorem entriesOf_perm {index : List IndexEntry} {ids : List UInt64}
    (hfids : (index.map IndexEntry.fid).Nodup) (hids : ids.Nodup)
    (hcov : ∀ e ∈ index, e.chunkId ∈ ids) : (ids.flatMap (entriesOf index)).Perm index := by
  refine (List.perm_ext_iff_of_nodup ?_ (List.Nodup.of_map _ hfids)).mpr fun e => ?_
  · rw [List.nodup_flatMap]
    refine ⟨fun id _ => List.Nodup.of_map _ (entriesOf_fids_nodup hfids id), ?_⟩
    refine hids.imp fun {a b} hne e ha hb => hne ?_
    rw [← (mem_entriesOf.mp ha).2, ← (mem_entriesOf.mp hb).2]
  · rw [List.mem_flatMap]
    constructor
    · rintro ⟨id, _, he⟩
      exact (mem_entriesOf.mp he).1
    · intro he
      exact ⟨e.chunkId, hcov e he, mem_entriesOf.mpr ⟨he, rfl⟩⟩

theorem Orderly.consistent (h : Orderly s.ledger recs) (hq : inFlight s = []) :
    Consistent s recs := by
  have hex : ∀ id ∈ s.chunkIndex, entriesOf s.fileIndex id = entriesAt id 55 (recs id) :=
    fun id hid => h.exact_at_rest hq hid
  have hcov : ∀ e ∈ s.fileIndex, e.chunkId ∈ s.chunkIndex := by
    intro e he
    obtain ⟨_, _, hm, _⟩ := h.inv.acknowledged he
    exact hm
  have hfids : ∀ ids : List UInt64, (∀ id ∈ ids, id ∈ s.chunkIndex) →
      (ids.flatMap recs).map Record.fid =
        (ids.flatMap (entriesOf s.fileIndex)).map IndexEntry.fid := by
    intro ids hsub
    rw [List.map_flatMap, List.map_flatMap]
    refine List.flatMap_congr fun id hid => ?_
    rw [hex id (hsub id hid), entriesAt_map_fid]
  refine ⟨fun id hid => (h.inv.laid id hid).2, hex, hcov, ?_, fun id hid => ?_⟩
  · rw [hfids _ fun _ hid => hid]
    exact ((entriesOf_perm h.inv.fids h.ids hcov).map _).nodup_iff.mpr h.inv.fids
  · have hlen := congrArg List.length (entriesAt_map_fid id 55 (recs id))
    rw [List.length_map, List.length_map] at hlen
    rw [hex id hid, hlen]
    exact (h.inv.laid id hid).2.count

/-- The `readdir()` loop over the files of the chunks `ids`. -/
theorem foldlM_setupEntry {ids : List UInt64} {dir : List DirEntry} (h : Orderly v recs)
    (hq : v.works.filterMap writeFid = [])
    (hdir : List.Forall₂ (fun id d => d.valid = true ∧ d.file = v.disk id ∧
      ∀ k, (d.reads k).Whole) ids dir) (t : Started)
    (hsub : ∀ id ∈ ids, id ∈ v.chunkIndex) (hids : ids.Nodup)
    (hnew : ∀ c ∈ t.st.chunks, c.chunkId ∉ ids)
    (hfids : ((ids.flatMap (entriesOf v.fileIndex) ++ t.st.fileIndex).map IndexEntry.fid).Nodup) :
    ∃ t', dir.foldlM setupEntry t = .ok t' ∧
      t'.st.fileIndex.Perm (ids.flatMap (entriesOf v.fileIndex) ++ t.st.fileIndex) ∧
      t'.st.chunks.length = ids.length + t.st.chunks.length := by
  induction hdir generalizing t with
  | nil => exact ⟨t, rfl, List.Perm.refl _, by simp⟩
  | @cons id d ids dir hd _ ih =>
    obtain ⟨hvalid, hfile, hreads⟩ := hd
    obtain ⟨hnotin, hids'⟩ := List.nodup_cons.mp hids
    have hmem := hsub id (List.mem_cons_self ..)
    have hsplit := hfids
    rw [List.flatMap_cons, List.append_assoc, List.map_append, List.nodup_append] at hsplit
    obtain ⟨_, _, hdis⟩ := hsplit
    -- this file is recovered
    have hset : spySetupChunk d.file d.size d.reads t.st =
        .accepted (t.st.add { v.chunk id with fileSize := u32 d.size }
          (entriesOf v.fileIndex id)) := by
      rw [hfile]
      refine h.inv.setup h.superblocks hmem (h.exact_at_rest hq hmem) hreads ?_ ?_
      · intro e he e' he' heq
        refine hdis e.fid (List.mem_map_of_mem he) e'.fid ?_ heq.symm
        exact List.mem_map_of_mem (List.mem_append_right _ he')
      · intro c hc hcid
        exact hnew c hc (hcid ▸ List.mem_cons_self ..)
    have hstep : ∃ u, setupEntry t d = .ok u ∧
        u.st = t.st.add { v.chunk id with fileSize := u32 d.size } (entriesOf v.fileIndex id) := by
      unfold setupEntry
      rw [if_pos hvalid, hset]
      exact ⟨_, rfl, rfl⟩
    obtain ⟨u, hu, hst⟩ := hstep
    have hindex : u.st.fileIndex.Perm (entriesOf v.fileIndex id ++ t.st.fileIndex) := by
      rw [hst]
      exact (List.reverse_perm _).append_right _
    have hmove : (ids.flatMap (entriesOf v.fileIndex) ++ u.st.fileIndex).Perm
        ((id :: ids).flatMap (entriesOf v.fileIndex) ++ t.st.fileIndex) := by
      refine (hindex.append_left _).trans ?_
      rw [List.flatMap_cons, ← List.append_assoc]
      exact List.perm_append_comm.append_right _
    have hnew' : ∀ c ∈ u.st.chunks, c.chunkId ∉ ids := by
      intro c hc hin
      rw [hst] at hc
      rcases List.mem_cons.mp hc with rfl | hc
      · exact hnotin ((h.inv.laid id hmem).1 ▸ hin)
      · exact hnew c hc (List.mem_cons_of_mem _ hin)
    obtain ⟨t', ht', hperm, hlen⟩ := ih u (fun i hi => hsub i (List.mem_cons_of_mem _ hi)) hids'
      hnew' ((hmove.map IndexEntry.fid).nodup_iff.mpr hfids)
    refine ⟨t', ?_, hperm.trans hmove, ?_⟩
    · rw [List.foldlM_cons, hu]
      exact ht'
    · rw [hlen, hst]
      simp only [Recovered.add, List.length_cons]
      omega

/-- One committed record per fid, when every superblock is stored and no two WRITEs
of one fid are in flight at the same time. A server at rest has exactly the
records its index says, each fid once, and a restart succeeds with the same
index. -/
theorem restart_rebuilds_index (h : Run cfg OneWritePerFid s) (hq : inFlight s = []) :
    (∃ recs, Consistent s recs) ∧ ∀ create dir, DirectoryOf s dir →
      ∃ t, spyCreateOrRecoverFiles cfg create dir = .ok t ∧ t.st.fileIndex.Perm s.fileIndex := by
  obtain ⟨⟨recs, ho⟩, _, hlen⟩ := h.orderly
  have hcons := ho.consistent hq
  refine ⟨⟨recs, hcons⟩, fun create dir ⟨ids, hperm, hdir⟩ => ?_⟩
  have hids : ids.Nodup := hperm.nodup_iff.mpr ho.ids
  have hall := entriesOf_perm ho.inv.fids hids fun e he => hperm.mem_iff.mpr (hcons.covered e he)
  obtain ⟨t, ht, hindex, hchunks⟩ := foldlM_setupEntry ho hq hdir .empty
    (fun id hid => hperm.mem_iff.mp hid) hids nofun (by
      rw [show Started.empty.st.fileIndex = [] from rfl, List.append_nil]
      exact (hall.map _).nodup_iff.mpr ho.inv.fids)
  rw [show Started.empty.st.fileIndex = [] from rfl, List.append_nil] at hindex
  unfold spyCreateOrRecoverFiles
  rw [ht]
  show ∃ t',
    (if t.st.chunks = [] then createChunks cfg create cfg.nChunks t else .ok t) = .ok t' ∧ _
  split
  · -- there was no chunk to begin with
    rename_i hnil
    have hzero : cfg.nChunks = 0 := by
      rw [hnil, hperm.length_eq] at hchunks
      simp only [List.length_nil] at hchunks
      omega
    rw [hzero]
    exact ⟨t, rfl, hindex.trans hall⟩
  · exact ⟨t, rfl, hindex.trans hall⟩

/-- The two chunk files of the sample server, the older one first. -/
def sampleDir (s : Server) : List DirEntry :=
  [⟨true, [], s.disk 1, defChunkSize, fullReads⟩, ⟨true, [], s.disk 2, defChunkSize, fullReads⟩]

theorem sampleDir_directoryOf (h : s.chunkIndex = [2, 1]) : DirectoryOf s (sampleDir s) := by
  refine ⟨[1, 2], ?_, .cons ⟨rfl, rfl, fullReads_whole⟩ (.cons ⟨rfl, rfl, fullReads_whole⟩ .nil)⟩
  rw [h]
  exact .swap ..

theorem restart_rebuilds_sampleIndex : ∃ s : Server, s.fileIndex = [⟨2, 7, 55, 33⟩] ∧
    ∃ t, spyCreateOrRecoverFiles sampleConfig (fun _ => false) (sampleDir s) = .ok t ∧
      t.st.fileIndex.Perm [⟨2, 7, 55, 33⟩] := by
  have hplay : (play sampleConfig
      (fun s e s' => decide (SuperblockStored s e) && decide (inFlight s').Nodup)
      (writeEvents .full ++ [.done true]) (newServer sampleConfig)).map
        (fun s => (inFlight s, s.chunkIndex, s.fileIndex)) =
      .ok ([], [2, 1], [⟨2, 7, 55, 33⟩]) := by
    decide +kernel
  obtain ⟨s, hs, hf⟩ := map_eq_ok hplay
  obtain ⟨hq, hf⟩ := Prod.mk.inj hf
  obtain ⟨hids, hindex⟩ := Prod.mk.inj hf
  have hrun : Run sampleConfig OneWritePerFid s := by
    refine (play_run _ (.init newServer_fresh) hs).mono fun s e s' h => ⟨h.1, ?_⟩
    obtain ⟨h1, h2⟩ := Bool.and_eq_true_iff.mp h.2
    exact ⟨of_decide_eq_true h1, of_decide_eq_true h2⟩
  refine ⟨s, hindex, ?_⟩
  rw [← hindex]
  exact (restart_rebuilds_index hrun hq).2 _ _ (sampleDir_directoryOf hids)

/-- Every I/O call of a worker does all it was asked to. -/
def ioOk : Event → Bool
  | .io _ (.pwrite io _) => io == .full
  | .io _ (.pread io) => io == .full
  | _ => true

/-- Two WRITEs of one fid that are both dispatched before either is done. -/
def duplicateEvents : List Event :=
  [.accept, .accept, .readable 0 (.data (request 0 7 [1])) ⟨0, 0, true, true⟩,
    .readable 1 (.data (request 0 7 [2])) ⟨0, 0, true, true⟩, .start, .start,
    .io 0 (.pwrite .full 0), .io 0 (.pwrite .full 0), .io 0 (.pwrite .full 0),
    .io 1 (.pwrite .full 0), .io 1 (.pwrite .full 0), .io 1 (.pwrite .full 0),
    .finish 0, .finish 0, .done true, .done true]

set_option synthInstance.maxSize 512 in
/-- Both records are committed, one is indexed, and the server cannot be started
again: `spy_add_file_index` finds the fid twice. -/
theorem duplicate_writes_break_restart : ∃ s : Server,
    Run sampleConfig (fun _ e _ => ioOk e = true) s ∧ inFlight s = [] ∧
      s.fileIndex = [⟨2, 7, 55, 31⟩] ∧ (s.chunk 1).filesCount = 1 ∧ DirectoryOf s (sampleDir s) ∧
      (spyCreateOrRecoverFiles sampleConfig (fun _ => true) (sampleDir s)).map
        (fun t => t.st.fileIndex) = .error .aborted := by
  have hplay : (play sampleConfig (fun _ e _ => ioOk e) duplicateEvents
      (newServer sampleConfig)).map (fun s => (inFlight s, s.chunkIndex, s.fileIndex,
        (s.chunk 1).filesCount, (spyCreateOrRecoverFiles sampleConfig (fun _ => true)
          (sampleDir s)).map fun t => t.st.fileIndex)) =
      .ok ([], [2, 1], [⟨2, 7, 55, 31⟩], 1, .error .aborted) := by
    decide +kernel
  obtain ⟨s, hs, hf⟩ := map_eq_ok hplay
  obtain ⟨hq, hf⟩ := Prod.mk.inj hf
  obtain ⟨hids, hf⟩ := Prod.mk.inj hf
  obtain ⟨hindex, hf⟩ := Prod.mk.inj hf
  obtain ⟨hcount, hrestart⟩ := Prod.mk.inj hf
  exact ⟨s, play_run _ (.init newServer_fresh) hs, hq, hindex, hcount, sampleDir_directoryOf hids,
    hrestart⟩

end Rest
end Speedy.Chunkserver
