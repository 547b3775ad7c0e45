import Speedy.Chunkserver.Append
import Speedy.Lib.Run

/-! # Dumping a chunk that is being written

`spy_dump_chunkfile` copies a chunk file in pieces while workers go on appending
to it. `HotDump` runs the two against each other: a piece is taken between any
two steps of `spy_write_file`, or in the middle of a `pwrite()` other than that
of the superblock. A finished copy is the chunk file as it was when its
superblock was copied, as far as `spy_setup_chunk` looks. -/
namespace Speedy.Chunkserver
open Speedy.Lib

/-! ## The two sides -/

/-- A call of `spy_write_file` under way, with the payload it is to store. -/
structure WriteCall where
  file : SpyFile
  offset : Nat
  payload : Bytes
  pc : WritePc
  request : RwBuffer

/-- A chunk, its file and the call that writes to it; `committed` lists the fid
and the payload of every record whose superblock was written. -/
structure Appender where
  disk : ByteStore
  chunk : Chunk
  call : Option WriteCall
  committed : List (UInt64 × Bytes)

def Appender.run (a : Appender) (call : WriteCall) : WriteRun :=
  ⟨call.pc, a.disk, a.chunk, call.request⟩

instance (file : SpyFile) (chunk : Chunk) (request : RwBuffer) :
    Decidable (Dispatched file chunk request) :=
  decidable_of_iff (chunk.availSpace > u32 (file.size + fileMetaSize) ∧
      file.size < 4294967296 ∧ file.size ≤ request.unread.length ∧
      request.readPos ≤ request.writePos)
    ⟨fun ⟨h1, h2, h3, h4⟩ => ⟨h1, h2, h3, h4⟩,
      fun h => ⟨h.fits, h.size_lt, h.loaded, h.read_le⟩⟩

/-- The dispatch of a call for a fid that the chunk does not have. -/
def Appender.start (a : Appender) (file : SpyFile) (request : RwBuffer) : Option Appender :=
  if a.call.isNone ∧ Dispatched file a.chunk request ∧ file.fid ∉ a.committed.map Prod.fst then
    some { a with
      call := some ⟨file, a.chunk.currentOffset, request.unread.take file.size, .header, request⟩ }
  else none

/-- A whole `pwrite()` of the call; that of the superblock is atomic. -/
def Appender.pwrite (a : Appender) (io : Pwrite) (now : Nat) : Option Appender :=
  match a.call with
  | none => none
  | some call =>
    if call.pc = .commit ∧ io ≠ .full then none
    else
      match spyWriteFileStep call.file call.offset io now (a.run call) with
      | none => none
      | some r =>
        some {
          disk := r.disk
          chunk := r.chunk
          call := some { call with pc := r.pc, request := r.request }
          committed := if call.pc = .commit then a.committed ++ [(call.file.fid, call.payload)]
            else a.committed }

/-- The call returns. -/
def Appender.done (a : Appender) : Option Appender :=
  match a.call with
  | some ⟨_, _, _, .finished _, _⟩ => some { a with call := none }
  | _ => none

/-- What a reader sees of the file: of a `pwrite()` under way, other than that of
the superblock, the bytes that `stored` says. -/
def Appender.view (a : Appender) (io : Pwrite) (now : Nat) (stored : Nat → Bool) : ByteStore :=
  match a.call with
  | none => a.disk
  | some call =>
    if call.pc = .commit then a.disk
    else
      match spyWriteFileStep call.file call.offset io now (a.run call) with
      | none => a.disk
      | some r => fun i => if stored i then r.disk i else a.disk i

/-- An appender and a `spy_dump_chunkfile` at `offset`, which has sent the bytes
of `image` before it; `snapshot` is what was committed at its first piece. -/
structure HotDump where
  file : Appender
  offset : Nat
  image : ByteStore
  snapshot : List (UInt64 × Bytes)

inductive DumpMove where
  | start (file : SpyFile) (request : RwBuffer)
  | pwrite (io : Pwrite) (now : Nat)
  | done
  | sendfile (n : Nat) (io : Pwrite) (now : Nat) (stored : Nat → Bool)

/-- One `sendfile64()` of the loop of `spy_dump_chunkfile`, which sent `n` bytes;
the first one sends at least the superblock. -/
def HotDump.sendfile (x : HotDump) (n : Nat) (view : ByteStore) : Option HotDump :=
  if x.offset ≠ x.file.chunk.fileSize ∧ n ≤ x.file.chunk.fileSize - x.offset ∧
      (x.offset = 0 → superblockSize ≤ n) then
    some { x with
      offset := x.offset + n
      image := store x.image x.offset (slice view x.offset n)
      snapshot := if x.offset = 0 then x.file.committed else x.snapshot }
  else none

def HotDump.step (x : HotDump) : DumpMove → Option HotDump
  | .start file request => (x.file.start file request).map fun a => { x with file := a }
  | .pwrite io now => (x.file.pwrite io now).map fun a => { x with file := a }
  | .done => x.file.done.map fun a => { x with file := a }
  | .sendfile n io now stored => x.sendfile n (x.file.view io now stored)

def Record.stored (r : Record) : UInt64 × Bytes := (r.fid, r.payload)

/-- No call is under way, and the chunk and its file agree on some records with
different fids; nothing has been copied. -/
def HotDump.Fresh (x : HotDump) : Prop :=
  x.file.call = none ∧ x.offset = 0 ∧ x.file.chunk.fileSize = defChunkSize ∧
    ∃ recs : List Record, Synchronized x.file.disk x.file.chunk recs ∧
      x.file.committed = recs.map Record.stored ∧ (recs.map Record.fid).Nodup

abbrev HotDumpRun : HotDump → Prop :=
  Reach HotDump.Fresh fun x (m : DumpMove) x' => x.step m = some x'

/-! ## The appender -/

/-- The call in relation to the chunk `c` whose superblock is on disk: it has
written that superblock, or it was started on `c` and has written none. -/
inductive Writing (a : Appender) (c : Chunk) (recs : List Record) (call : WriteCall) : Prop
  | ended (pc : call.pc = .finished 0) (chunk : a.chunk = c)
  | running (pc : call.pc ≠ .finished 0) (d0 : ByteStore) (request : RwBuffer)
      (sync : Synchronized d0 c recs) (dispatched : Dispatched call.file c request)
      (offset : call.offset = c.currentOffset)
      (payload : call.payload = request.unread.take call.file.size)
      (unstored : call.file.fid ∉ recs.map Record.fid)
      (state : WriteState (· = .full) call.file c.currentOffset request c d0 (a.run call))

/-- The file holds the records, with a superblock that says `c`. -/
structure Appender.Ok (a : Appender) (c : Chunk) (recs : List Record) : Prop where
  sync : Synchronized a.disk c recs
  committed : a.committed = recs.map Record.stored
  nodup : (recs.map Record.fid).Nodup
  size : a.chunk.fileSize = defChunkSize
  idle : a.call = none → a.chunk = c
  busy : ∀ call, a.call = some call → Writing a c recs call

/-- What a step of the appender leaves of the records that were there. -/
structure Appender.Grows (a a' : Appender) (c c' : Chunk) (recs' : List Record) : Prop where
  ok : a'.Ok c' recs'
  offset_le : c.currentOffset ≤ c'.currentOffset
  kept : ∀ i, 55 ≤ i → i < c.currentOffset → a'.disk i = a.disk i

section Appender
variable {a a' : Appender} {c : Chunk} {recs : List Record}

theorem map_stored_fst (recs : List Record) :
    (recs.map Record.stored).map Prod.fst = recs.map Record.fid := by
  rw [List.map_map]
  rfl

/-- A step that leaves the file and the records as they are. -/
theorem Appender.Ok.grows (h : a'.Ok c recs) (hd : a'.disk = a.disk) : a.Grows a' c c recs :=
  ⟨h, Nat.le_refl _, fun i _ _ => by rw [hd]⟩

theorem Appender.Ok.start (h : a.Ok c recs) {file : SpyFile} {request : RwBuffer}
    (hs : a.start file request = some a') : a.Grows a' c c recs := by
  unfold Appender.start at hs
  split at hs
  · rename_i hc
    obtain ⟨hnone, hd, hfid⟩ := hc
    obtain rfl := Option.some.inj hs
    have hchunk := h.idle (Option.isNone_iff_eq_none.mp hnone)
    rw [h.committed, map_stored_fst] at hfid
    refine Appender.Ok.grows ⟨h.sync, h.committed, h.nodup, h.size, nofun, ?_⟩ rfl
    rintro call ⟨⟩
    refine .running nofun a.disk request h.sync (hchunk ▸ hd) (hchunk ▸ rfl) rfl hfid ?_
    simp only [Appender.run, hchunk]
    exact .header
  · cases hs

theorem Appender.Ok.done (h : a.Ok c recs) (hs : a.done = some a') : a.Grows a' c c recs := by
  unfold Appender.done at hs
  split at hs
  · rename_i file offset payload retcode request hcall
    obtain rfl := Option.some.inj hs
    refine Appender.Ok.grows ⟨h.sync, h.committed, h.nodup, h.size, fun _ => ?_, nofun⟩ rfl
    cases h.busy _ hcall with
    | ended _ chunk => exact chunk
    | running pc d0 request sync dispatched _ _ _ state =>
      -- a call that failed has not touched the chunk
      rcases sync.run dispatched state with ⟨_, _, hc⟩ | ⟨hfin, _⟩
      · exact hc _ rfl
      · exact absurd hfin pc
  · cases hs

theorem Laid.offset_le_append {disk disk' : ByteStore} {c' : Chunk} {rec : Record}
    (h : Laid disk c recs) (h' : Laid disk' c' (recs ++ [rec])) :
    c.currentOffset ≤ c'.currentOffset := by
  rw [h.offset, h'.offset, extent_append]
  omega

/-- A call ends successfully only by the `pwrite()` of its superblock. -/
theorem WriteState.commits {sb : Pwrite → Prop} {file : SpyFile} {offset : Nat}
    {request : RwBuffer} {d0 : ByteStore} {r r' : WriteRun} {io : Pwrite} {now : Nat}
    (h : WriteState sb file offset request c d0 r)
    (hs : spyWriteFileStep file offset io now r = some r') (hpc : r.pc ≠ .finished 0) :
    r'.pc = .finished 0 ↔ r.pc = .commit := by
  constructor
  · intro hfin
    by_contra hne
    by_cases hf : ∃ retcode, r.pc = .finished retcode
    · obtain ⟨retcode, hf⟩ := hf
      simp only [spyWriteFileStep, hf, Option.some.injEq] at hs
      exact hpc (hs ▸ hfin)
    · exact (h.step_before hs hne fun retcode he => hf ⟨retcode, he⟩).2.1 hfin
  · intro hc
    simp only [spyWriteFileStep, hc, Option.some.injEq] at hs
    rw [← hs]

theorem nodup_stored {rec : Record} (hnd : (recs.map Record.fid).Nodup)
    (hnew : rec.fid ∉ recs.map Record.fid) : ((recs ++ [rec]).map Record.fid).Nodup := by
  rw [List.map_append, List.map_singleton, List.nodup_append]
  refine ⟨hnd, by simp, ?_⟩
  rintro f hf g hg rfl
  exact hnew (List.mem_singleton.mp hg ▸ hf)

theorem Appender.Ok.pwrite (h : a.Ok c recs) {io : Pwrite} {now : Nat}
    (hs : a.pwrite io now = some a') :
    ∃ c' recs', a.Grows a' c c' recs' := by
  unfold Appender.pwrite at hs
  split at hs
  · cases hs
  rename_i call hcall
  split at hs
  · cases hs
  rename_i hatomic
  split at hs
  · cases hs
  rename_i r hstep
  obtain rfl := Option.some.inj hs
  have hfull : (a.run call).pc = .commit → io = .full := by
    intro hpc
    by_contra hio
    exact hatomic ⟨hpc, hio⟩
  have hbusy : ∀ {call : WriteCall} {P : Prop}, some call = none → P := by
    intro call P h
    cases h
  cases h.busy call hcall with
  | ended pc chunk =>
    have hr : r = a.run call := by
      simp only [spyWriteFileStep, Appender.run, pc, Option.some.injEq] at hstep
      rw [← hstep, Appender.run, pc]
    subst hr
    have hne : call.pc ≠ .commit := by
      rw [pc]
      intro h
      cases h
    refine ⟨c, recs, Appender.Ok.grows ⟨h.sync, ?_, h.nodup, h.size, hbusy, ?_⟩ rfl⟩
    · simp only [if_neg hne, h.committed]
    · rintro call' ⟨⟩
      exact .ended pc chunk
  | running pc d0 request sync dispatched offset payload unstored state =>
    rw [offset] at hstep
    have hstate := state.step dispatched.loaded dispatched.read_le dispatched.size_lt hfull hstep
    have hcommits := state.commits hstep pc
    have hsize : r.chunk.fileSize = defChunkSize := by
      rw [hstate.fileSize, ← state.fileSize]
      exact h.size
    have hkept : ∀ i, 55 ≤ i → i < c.currentOffset → r.disk i = a.disk i := by
      intro i h1 h2
      exact (hstate.kept h1 h2).trans (state.kept h1 h2).symm
    rcases sync.run dispatched hstate with ⟨hne, hsync, _⟩ | ⟨hfin, rec, his, _, hsync⟩
    · have hnc : call.pc ≠ .commit := fun hpc => hne (hcommits.mpr hpc)
      refine ⟨c, recs, ⟨⟨hsync, ?_, h.nodup, hsize, hbusy, ?_⟩, Nat.le_refl _, hkept⟩⟩
      · simp only [if_neg hnc, h.committed]
      · rintro call' ⟨⟩
        exact .running hne d0 request sync dispatched offset payload unstored hstate
    · have hc : call.pc = .commit := hcommits.mp hfin
      refine ⟨r.chunk, recs ++ [rec], ⟨⟨hsync, ?_, ?_, hsize, hbusy, ?_⟩, ?_, hkept⟩⟩
      · simp only [if_pos hc, h.committed, payload, List.map_append, List.map_singleton,
          Record.stored, his.1, his.2]
      · exact nodup_stored h.nodup (his.1 ▸ unstored)
      · rintro call' ⟨⟩
        exact .ended hfin rfl
      · exact sync.toLaid.offset_le_append hsync.toLaid

/-- A reader sees no trace of the running call below `current_offset`. -/
theorem Appender.Ok.view_eq (h : a.Ok c recs) (io : Pwrite) (now : Nat) (stored : Nat → Bool)
    {i : Nat} (hi : i < c.currentOffset) : a.view io now stored i = a.disk i := by
  cases hcall : a.call with
  | none => rw [Appender.view, hcall]
  | some call =>
    by_cases hne : call.pc = .commit
    · simp only [Appender.view, hcall, if_pos hne]
    cases hstep : spyWriteFileStep call.file call.offset io now (a.run call) with
    | none => simp only [Appender.view, hcall, if_neg hne, hstep]
    | some r =>
      have hr : r.disk i = a.disk i := by
        cases h.busy call hcall with
        | ended pc _ =>
          simp only [spyWriteFileStep, Appender.run, pc, Option.some.injEq] at hstep
          rw [← hstep]
        | running pc d0 request sync dispatched offset _ _ state =>
          rw [offset] at hstep
          have hstate := state.step dispatched.loaded dispatched.read_le dispatched.size_lt
            (fun hpc => absurd hpc hne) hstep
          have hpc' : r.pc ≠ .finished 0 := fun hfin => hne ((state.commits hstep pc).mp hfin)
          exact (hstate.below hpc' hi).trans (state.below pc hi).symm
      simp only [Appender.view, hcall, if_neg hne, hstep, hr, ite_self]

end Appender

/-! ## The copy -/

/-- The copy has the superblock of `c`, and the file still has the records of `c`,
of which the copy has the bytes before its offset. -/
structure HotDump.Copied (x : HotDump) (c : Chunk) (recs : List Record) : Prop where
  begun : 55 ≤ x.offset
  superblock : Holds x.image 0 (spyFillSuperblock c)
  laid : Laid x.file.disk c recs
  copied : ∀ i, 55 ≤ i → i < c.currentOffset → i < x.offset → x.image i = x.file.disk i
  snapshot : x.snapshot = recs.map Record.stored
  nodup : (recs.map Record.fid).Nodup

/-- What holds throughout a run, `c` and `recs` being what is on disk. -/
structure HotDump.Inv (x : HotDump) (c : Chunk) (recs : List Record) : Prop where
  ok : x.file.Ok c recs
  dump : x.offset = 0 ∨ ∃ c0 recs0, x.Copied c0 recs0 ∧ c0.currentOffset ≤ c.currentOffset

section Copy
variable {x x' : HotDump} {c : Chunk} {recs : List Record}

theorem HotDump.Inv.grows (h : x.Inv c recs) {a : Appender} {c' : Chunk} {recs' : List Record}
    (hg : x.file.Grows a c c' recs') : HotDump.Inv { x with file := a } c' recs' := by
  refine ⟨hg.ok, ?_⟩
  rcases h.dump with h0 | ⟨c0, recs0, hcop, hle⟩
  · exact .inl h0
  · refine .inr ⟨c0, recs0, ⟨hcop.begun, hcop.superblock, ?_, ?_, hcop.snapshot, hcop.nodup⟩,
      Nat.le_trans hle hg.offset_le⟩
    · exact hcop.laid.congr fun i h1 h2 => hg.kept i h1 (by omega)
    · intro i h1 h2 h3
      rw [hg.kept i h1 (by omega)]
      exact hcop.copied i h1 h2 h3

/-- The first piece takes the superblock and, with it, the snapshot. -/
theorem Appender.Ok.first {a : Appender} (h : a.Ok c recs) {n : Nat} {image view : ByteStore}
    (hview : ∀ i, i < c.currentOffset → view i = a.disk i) (hn : 55 ≤ n) :
    HotDump.Copied ⟨a, n, store image 0 (slice view 0 n), a.committed⟩ c recs := by
  have hcopy : ∀ i, i < n → i < c.currentOffset →
      store image 0 (slice view 0 n) i = a.disk i := by
    intro i hi hc
    rw [store_slice _ _ (Nat.zero_le i) (by omega)]
    exact hview i hc
  have hsb : (spyFillSuperblock c).length = 55 := by simp
  have hoff := h.sync.offset
  refine ⟨hn, ?_, h.sync.toLaid, fun i _ hc hi => hcopy i hi hc, h.committed, h.nodup⟩
  exact h.sync.superblock.congr fun i _ hi => hcopy i (by omega) (by omega)

/-- A further piece. -/
theorem HotDump.Copied.piece {c0 : Chunk} {recs0 : List Record} (h : x.Copied c0 recs0) {n : Nat}
    {view : ByteStore} (hview : ∀ i, i < c0.currentOffset → view i = x.file.disk i) :
    HotDump.Copied { x with
      offset := x.offset + n
      image := store x.image x.offset (slice view x.offset n) } c0 recs0 := by
  have hsb : (spyFillSuperblock c0).length = 55 := by simp
  have hbegun := h.begun
  refine ⟨by show 55 ≤ x.offset + n; omega, ?_, h.laid, ?_, h.snapshot, h.nodup⟩
  · exact h.superblock.store_out (.inl (by omega))
  · intro i h1 h2 h3
    by_cases hi : i < x.offset
    · exact (store_apply_out _ (.inl hi)).trans (h.copied i h1 h2 hi)
    · exact (store_slice _ _ (by omega) h3).trans (hview i h2)

theorem HotDump.Inv.sendfile (h : x.Inv c recs) {n : Nat} {view : ByteStore}
    (hview : ∀ i, i < c.currentOffset → view i = x.file.disk i)
    (hs : x.sendfile n view = some x') : x'.Inv c recs := by
  unfold HotDump.sendfile at hs
  split at hs
  · rename_i hc
    obtain rfl := Option.some.inj hs
    refine ⟨h.ok, .inr ?_⟩
    by_cases h0 : x.offset = 0
    · refine ⟨c, recs, ?_, Nat.le_refl _⟩
      simp only [h0, Nat.zero_add, if_true]
      exact h.ok.first hview (hc.2.2 h0)
    · rcases h.dump with h0' | ⟨c0, recs0, hcop, hle⟩
      · exact absurd h0' h0
      · refine ⟨c0, recs0, ?_, hle⟩
        simp only [if_neg h0]
        exact hcop.piece fun i hi => hview i (by omega)
  · cases hs

theorem HotDump.Inv.step (h : x.Inv c recs) {m : DumpMove} (hs : x.step m = some x') :
    ∃ c' recs', x'.Inv c' recs' := by
  cases m with
  | start file request =>
    obtain ⟨a, ha, rfl⟩ := Option.map_eq_some_iff.mp hs
    exact ⟨c, recs, h.grows (h.ok.start ha)⟩
  | pwrite io now =>
    obtain ⟨a, ha, rfl⟩ := Option.map_eq_some_iff.mp hs
    obtain ⟨c', recs', hg⟩ := h.ok.pwrite ha
    exact ⟨c', recs', h.grows hg⟩
  | done =>
    obtain ⟨a, ha, rfl⟩ := Option.map_eq_some_iff.mp hs
    exact ⟨c, recs, h.grows (h.ok.done ha)⟩
  | sendfile n io now stored =>
    exact ⟨c, recs, h.sendfile (fun i hi => h.ok.view_eq io now stored hi) hs⟩

theorem HotDumpRun.inv (h : HotDumpRun x) : ∃ c recs, x.Inv c recs := by
  refine Reach.invariant (I := fun x => ∃ c recs, HotDump.Inv x c recs) ?_ ?_ h
  · rintro x ⟨hcall, h0, hsize, recs, hsync, hcom, hnd⟩
    refine ⟨x.file.chunk, recs, ⟨⟨hsync, hcom, hnd, hsize, fun _ => rfl, ?_⟩, .inl h0⟩⟩
    intro call hc
    rw [hcall] at hc
    cases hc
  · rintro x m x' _ ⟨c, recs, hinv⟩ hs
    exact hinv.step hs

/-- Once `current_offset` is passed, the copy is a chunk file of its own. -/
theorem HotDump.Copied.synchronized {c0 : Chunk} {recs0 : List Record} (h : x.Copied c0 recs0)
    (hend : c0.currentOffset ≤ x.offset) : Synchronized x.image c0 recs0 :=
  ⟨h.laid.congr fun i h1 h2 => h.copied i h1 h2 (by omega), h.superblock⟩

end Copy

/-! ## Setting up the copy -/

/-- The entry points to the fid and the payload in the file. -/
def Indexes (disk : ByteStore) (e : IndexEntry) (r : UInt64 × Bytes) : Prop :=
  e.fid = r.1 ∧ e.size = r.2.length + fileMetaSize ∧
    slice disk (e.offset + fileMetaSize) r.2.length = r.2

theorem entriesAt_indexes {disk : ByteStore} (cid : UInt64) {pos : Nat} {recs : List Record}
    (h : Holds disk pos (recs.flatMap Record.bytes)) :
    List.Forall₂ (Indexes disk) (entriesAt cid pos recs) (recs.map Record.stored) := by
  induction recs generalizing pos with
  | nil => exact .nil
  | cons r rs ih =>
    rw [List.flatMap_cons, holds_append] at h
    have hpay := h.1
    rw [Record.bytes, holds_append] at hpay
    refine .cons ⟨rfl, rfl, ?_⟩ (ih h.2)
    have hlen : (fillFileMeta r.file).length = fileMetaSize := by simp
    exact hlen ▸ hpay.2

/-- A finished dump of a chunk that was written to meanwhile is set up again with
exactly the records that were committed when its superblock was copied. -/
theorem dump_is_snapshot {x : HotDump} (h : HotDumpRun x)
    (hend : x.offset = x.file.chunk.fileSize) {reads : Nat → ReadResult}
    (hreads : ∀ k, (reads k).Whole) :
    ∃ st, spySetupChunk x.image x.file.chunk.fileSize reads ⟨[], [], 0⟩ = .accepted st ∧
      List.Forall₂ (Indexes x.image) st.fileIndex.reverse x.snapshot := by
  obtain ⟨c, recs, hinv⟩ := h.inv
  have hsize := hinv.ok.size
  rcases hinv.dump with h0 | ⟨c0, recs0, hcop, _⟩
  · rw [h0, hsize] at hend
    cases hend
  · have htotal := hcop.laid.total
    have hsync := hcop.synchronized (by rw [hend, hsize]; simp only [defChunkSize]; omega)
    refine ⟨_, hsync.setup hreads hcop.nodup (by simp [Fresh]) (by simp), ?_⟩
    simp only [Recovered.add, List.append_nil, List.reverse_reverse, hcop.snapshot]
    exact entriesAt_indexes _ hsync.layout

/-- A new chunk that is going to be dumped. -/
def sampleDump : HotDump where
  file := ⟨store (fun _ => 0) 0 (spyFillSuperblock (spyAllocChunk 1 defChunkSize)),
    spyAllocChunk 1 defChunkSize, none, []⟩
  offset := 0
  image := fun _ => 0
  snapshot := []

/-- File 7 is stored, the dump begins in the middle of the header of file 8, and
ends when that is stored as well. -/
def sampleDumpMoves : List DumpMove :=
  [.start ⟨7, 1, 3, 0, 0⟩ ⟨List.replicate 15 0 ++ [1, 2, 3], 15, 1⟩,
    .pwrite .full 0, .pwrite .full 0, .pwrite .full 0, .done,
    .start ⟨8, 1, 2, 0, 0⟩ ⟨List.replicate 15 0 ++ [4, 5], 15, 1⟩,
    .sendfile 95 .full 0 (fun i => i % 2 == 0),
    .pwrite .full 0, .pwrite .full 0, .pwrite .full 0, .done,
    .sendfile 2147483553 .full 0 (fun _ => true)]

theorem dump_is_snapshot_sample :
    ∃ x, play HotDump.step sampleDumpMoves sampleDump = some x ∧
      x.snapshot = [(7, [1, 2, 3])] ∧ x.file.committed = [(7, [1, 2, 3]), (8, [4, 5])] ∧
      ∃ st, spySetupChunk x.image x.file.chunk.fileSize fullReads ⟨[], [], 0⟩ = .accepted st ∧
        List.Forall₂ (Indexes x.image) st.fileIndex.reverse x.snapshot := by
  have hplay : (play HotDump.step sampleDumpMoves sampleDump).map
      (fun x => (x.snapshot, x.file.committed, x.offset, x.file.chunk.fileSize)) =
      some ([(7, [1, 2, 3])], [(7, [1, 2, 3]), (8, [4, 5])], 2147483648, 2147483648) := by
    decide +kernel
  obtain ⟨x, hx, hfields⟩ := Option.map_eq_some_iff.mp hplay
  simp only [Prod.mk.injEq] at hfields
  obtain ⟨hsnap, hcom, hoff, hsize⟩ := hfields
  have hsync : Synchronized sampleDump.file.disk sampleDump.file.chunk [] :=
    ⟨spyAllocChunk_laid 1 _,
      Holds.store_self (fun _ => 0) 0 (spyFillSuperblock (spyAllocChunk 1 defChunkSize))⟩
  have hfresh : sampleDump.Fresh := ⟨rfl, rfl, rfl, [], hsync, rfl, by simp⟩
  have hrun : HotDumpRun x :=
    Reach.play (fun _ _ _ hs => hs) sampleDumpMoves (.init hfresh) hx
  exact ⟨x, hx, hsnap, hcom, dump_is_snapshot hrun (hoff.trans hsize.symm) fullReads_whole⟩

end Speedy.Chunkserver
