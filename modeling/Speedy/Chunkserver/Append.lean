import Speedy.Chunkserver.Recovery
import Speedy.Chunkserver.Worker
import Mathlib.Logic.Relation

/-! # Appending a record, and crashing in the middle

`spy_write_file` stores the header and the pieces of the body behind
`current_offset` and only then moves `current_offset` and writes the superblock.
`WriteState` says what the file holds at each of its steps; whatever was stored
behind `current_offset` before is not looked at by recovery. -/
namespace Speedy.Chunkserver
open Speedy.Lib

/-! ## The steps of one call -/

/-- The first `n` payload bytes of the record, and its header, stand at
`offset`; below it nothing has changed. -/
structure Stored (d0 : ByteStore) (offset : Nat) (rec : Record) (n : Nat) (disk : ByteStore) :
    Prop where
  bytes : Holds disk offset (rec.bytes.take (30 + n))
  below : ∀ i, i < offset → disk i = d0 i

theorem Stored.extend {d0 disk : ByteStore} {offset n k : Nat} {rec : Record}
    (h : Stored d0 offset rec n disk) (hn : n ≤ rec.payload.length) :
    Stored d0 offset rec (n + ((rec.payload.drop n).take k).length)
      (store disk (offset + 30 + n) ((rec.payload.drop n).take k)) := by
  have hlen : (rec.bytes.take (30 + n)).length = 30 + n := by
    rw [List.length_take, Record.bytes_length]
    simp only [fileMetaSize]
    omega
  have hdrop : rec.bytes.drop (30 + n) = rec.payload.drop n := by
    rw [← List.drop_drop, Record.bytes, List.drop_left' (by simp)]
  have hsplit : rec.bytes.take (30 + (n + ((rec.payload.drop n).take k).length)) =
      rec.bytes.take (30 + n) ++ (rec.payload.drop n).take k := by
    rw [← Nat.add_assoc, List.take_add, hdrop]
    congr 1
    rw [List.length_take, ← List.take_take, List.take_length]
  refine ⟨?_, fun i hi => ?_⟩
  · rw [hsplit, holds_append, hlen]
    refine ⟨h.bytes.store_out (.inl ?_), ?_⟩
    · rw [hlen]; omega
    · rw [← Nat.add_assoc]; exact Holds.store_self _ _ _
  · rw [store_apply_out _ (.inl (by omega))]
    exact h.below i hi

/-- The record is the one of this job, with some checksum and time. -/
def Record.IsOf (rec : Record) (file : SpyFile) (payload : Bytes) : Prop :=
  rec.fid = file.fid ∧ rec.payload = payload

/-- The states of a call that was started on `chunk` and `d0` with the payload in
front of `request`, when the superblock's `pwrite()` can end as `sb` allows. -/
inductive WriteState (sb : Pwrite → Prop) (file : SpyFile) (offset : Nat) (request : RwBuffer)
    (chunk : Chunk) (d0 : ByteStore) : WriteRun → Prop
  | header : WriteState sb file offset request chunk d0 ⟨.header, d0, chunk, request⟩
  | body (rec : Record) (n : Nat) (disk : ByteStore)
      (is : rec.IsOf file (request.unread.take file.size)) (stored : Stored d0 offset rec n disk)
      (lt : n < file.size) (small : file.size < 2147483648) :
      WriteState sb file offset request chunk d0
        ⟨.body (offset + 30 + n) (file.size - n), disk, chunk, request.skip n⟩
  | commit (rec : Record) (disk : ByteStore)
      (is : rec.IsOf file (request.unread.take file.size))
      (stored : Stored d0 offset rec file.size disk) (small : file.size < 2147483648) :
      WriteState sb file offset request chunk d0 ⟨.commit, disk, chunk, request.skip file.size⟩
  | failed (n : Nat) (disk : ByteStore) (below : ∀ i, i < offset → disk i = d0 i) :
      WriteState sb file offset request chunk d0 ⟨.finished (-1), disk, chunk, request.skip n⟩
  | committed (rec : Record) (disk : ByteStore) (io : Pwrite)
      (is : rec.IsOf file (request.unread.take file.size))
      (stored : Stored d0 offset rec file.size disk) (small : file.size < 2147483648)
      (ended : sb io) :
      WriteState sb file offset request chunk d0
        ⟨.finished 0, (spyPwrite disk (spyFillSuperblock (chunk.commit file.size)) 0 io).1,
          chunk.commit file.size, request.skip file.size⟩

section Step
variable {sb : Pwrite → Prop} {file : SpyFile} {offset : Nat} {request : RwBuffer}
  {chunk : Chunk} {d0 : ByteStore}

/-- The head of the body loop, once `n` bytes are stored. -/
theorem WriteState.enter {rec : Record} {n : Nat} {disk : ByteStore}
    (is : rec.IsOf file (request.unread.take file.size)) (stored : Stored d0 offset rec n disk)
    (le : n ≤ file.size) (small : file.size < 2147483648) :
    WriteState sb file offset request chunk d0
      ⟨bodyOrEnd (offset + 30 + n) (file.size - n), disk, chunk, request.skip n⟩ := by
  unfold bodyOrEnd
  by_cases h : (file.size : Int) - n > 0
  · rw [if_pos h]
    exact .body rec n disk is stored (by omega) small
  · have hn : n = file.size := by omega
    rw [if_neg h, if_neg (by omega), hn]
    exact .commit rec disk is (hn ▸ stored) small

theorem spyPwrite_below {disk : ByteStore} {buf : Bytes} {o : Nat} (io : Pwrite)
    {i : Nat} (hi : i < o) : (spyPwrite disk buf o io).1 i = disk i := by
  cases io <;> exact store_apply_out _ (.inl hi)

/-- Every `pwrite()` leads to a state of the list. -/
theorem WriteState.step (hreq : file.size ≤ request.unread.length)
    (hrp : request.readPos ≤ request.writePos) (hsz : file.size < 4294967296) {r r' : WriteRun}
    (h : WriteState sb file offset request chunk d0 r) {io : Pwrite} {now : Nat}
    (hsb : r.pc = .commit → sb io)
    (hs : spyWriteFileStep file offset io now r = some r') :
    WriteState sb file offset request chunk d0 r' := by
  cases h with
  | header =>
    simp only [spyWriteFileStep] at hs
    cases hsum : spyBufferAdler32 0 request file.size with
    | none => rw [hsum] at hs; cases hs
    | some sum =>
      rw [hsum] at hs
      obtain rfl := Option.some.inj hs
      cases io with
      | short k =>
        simp only [spyPwrite, Bool.false_eq_true, if_false]
        exact .failed 0 _ fun i hi => store_apply_out _ (.inl hi)
      | full =>
        simp only [spyPwrite, if_true]
        by_cases hsm : file.size < 2147483648
        · rw [i32_of_range (by omega) (by omega)]
          -- the record the call is going to store
          obtain ⟨new, hnew⟩ : ∃ new : Record,
            new = ⟨file.fid, file.ref, sum, now, request.unread.take file.size⟩ := ⟨_, rfl⟩
          have hfile : new.file = { file with checksum := sum, timestamp := now } := by
            simp only [Record.file, hnew, List.length_take, Nat.min_eq_left hreq]
          have hst : Stored d0 offset new 0
              (store d0 offset (fillFileMeta { file with checksum := sum, timestamp := now })) := by
            refine ⟨?_, fun i hi => store_apply_out _ (.inl hi)⟩
            rw [Record.bytes, List.take_left' (by simp), hfile]
            exact Holds.store_self _ _ _
          have : WriteState sb file offset request chunk d0 _ := WriteState.enter (n := 0)
            (by rw [hnew]; exact ⟨rfl, rfl⟩) hst (Nat.zero_le _) hsm
          simpa using this
        · -- `left` is negative: the body is not written and the call fails
          have hneg : i32 file.size < 0 := by unfold i32; omega
          rw [bodyOrEnd, if_neg (by omega), if_pos (by omega)]
          exact .failed 0 _ fun i hi => store_apply_out _ (.inl hi)
  | body rec n disk is stored lt small =>
    simp only [spyWriteFileStep] at hs
    cases hnr : spyRwBufferNextReadable (request.skip n) with
    | none =>
      rw [hnr] at hs
      obtain rfl := Option.some.inj hs
      exact .failed n disk stored.below
    | some area =>
      rw [hnr] at hs
      have hle : (request.skip n).readPos ≤ (request.skip n).writePos := by
        unfold RwBuffer.unread at hreq
        rw [List.length_drop] at hreq
        simp only [RwBuffer.skip_readPos, RwBuffer.writePos, RwBuffer.skip_data] at hrp ⊢
        omega
      obtain ⟨m, hm, harea, hne⟩ := spyRwBufferNextReadable_some hnr hle
      -- the piece is the next part of the payload
      have hpiece : area.take ((file.size : Int) - n).toNat = (rec.payload.drop n).take m := by
        rw [harea, RwBuffer.skip_unread, is.2, List.drop_take, List.take_take, List.take_take,
          show ((file.size : Int) - n).toNat = file.size - n by omega, Nat.min_comm]
      have hlen : rec.payload.length = file.size := by
        rw [is.2, List.length_take, Nat.min_eq_left hreq]
      have hplen : ((rec.payload.drop n).take m).length ≤ file.size - n := by
        rw [List.length_take, List.length_drop, hlen]; omega
      simp only [hpiece] at hs
      cases io with
      | short k =>
        simp only [spyPwrite, Bool.false_eq_true, if_false] at hs
        obtain rfl := Option.some.inj hs
        refine .failed n _ fun i hi => ?_
        rw [store_apply_out _ (.inl (by omega))]
        exact stored.below i hi
      | full =>
        simp only [spyPwrite, if_true] at hs
        obtain rfl := Option.some.inj hs
        have hext := stored.extend (k := m) (by omega)
        have : WriteState sb file offset request chunk d0 _ :=
          WriteState.enter is hext (by omega) small
        rw [show (file.size : Int) - n - ((rec.payload.drop n).take m).length =
          file.size - (n + ((rec.payload.drop n).take m).length : Nat) by omega, Nat.add_assoc]
        simpa only [RwBuffer.skip, Nat.add_assoc] using this
  | commit rec disk is stored small =>
    simp only [spyWriteFileStep] at hs
    obtain rfl := Option.some.inj hs
    exact .committed rec disk io is stored small (hsb rfl)
  | failed n disk below =>
    obtain rfl := Option.some.inj hs
    exact .failed n disk below
  | committed rec disk io' is stored small ended =>
    obtain rfl := Option.some.inj hs
    exact .committed rec disk io' is stored small ended

theorem bodyOrEnd_ne (o : Nat) (l : Int) : bodyOrEnd o l ≠ .finished 0 := by
  unfold bodyOrEnd
  split
  · exact nofun
  · split
    · simp
    · exact nofun

/-- Until the commit a call leaves the chunk and the bytes below its offset alone. -/
theorem WriteState.step_before {r r' : WriteRun}
    (h : WriteState sb file offset request chunk d0 r) {io : Pwrite} {now : Nat}
    (hs : spyWriteFileStep file offset io now r = some r') (hne : r.pc ≠ .commit)
    (hnf : ∀ retcode, r.pc ≠ .finished retcode) :
    r'.chunk = r.chunk ∧ r'.pc ≠ .finished 0 ∧ ∀ i, i < offset → r'.disk i = r.disk i := by
  cases h with
  | header =>
    simp only [spyWriteFileStep] at hs
    cases hsum : spyBufferAdler32 0 request file.size with
    | none => rw [hsum] at hs; cases hs
    | some sum =>
      rw [hsum] at hs
      obtain rfl := Option.some.inj hs
      refine ⟨rfl, ?_, fun i hi => spyPwrite_below io hi⟩
      simp only
      split
      · exact bodyOrEnd_ne _ _
      · simp
  | body rec n disk is stored lt small =>
    simp only [spyWriteFileStep] at hs
    cases hnr : spyRwBufferNextReadable (request.skip n) with
    | none =>
      rw [hnr] at hs
      obtain rfl := Option.some.inj hs
      exact ⟨rfl, by simp, fun i _ => rfl⟩
    | some area =>
      rw [hnr] at hs
      simp only at hs
      split at hs
      · obtain rfl := Option.some.inj hs
        exact ⟨rfl, bodyOrEnd_ne _ _, fun i hi => spyPwrite_below io (by omega)⟩
      · obtain rfl := Option.some.inj hs
        exact ⟨rfl, by simp, fun i hi => spyPwrite_below io (by omega)⟩
  | commit _ _ _ _ _ => exact absurd rfl hne
  | failed _ _ _ => exact absurd rfl (hnf _)
  | committed _ _ _ _ _ _ _ => exact absurd rfl (hnf _)

theorem WriteState.at_commit {r : WriteRun} (h : WriteState sb file offset request chunk d0 r)
    (hpc : r.pc = .commit) :
    ∃ rec : Record, rec.IsOf file (request.unread.take file.size) ∧
      Stored d0 offset rec file.size r.disk ∧ file.size < 2147483648 ∧
      r.request = request.skip file.size := by
  cases h with
  | commit rec disk is stored small => exact ⟨rec, is, stored, small, rfl⟩
  | header => cases hpc
  | body _ _ _ _ _ _ _ => cases hpc
  | failed _ _ _ => cases hpc
  | committed _ _ _ _ _ _ _ => cases hpc

/-- Before its superblock a call has changed nothing below its offset. -/
theorem WriteState.below {r : WriteRun} (h : WriteState sb file offset request chunk d0 r)
    (hpc : r.pc ≠ .finished 0) {i : Nat} (hi : i < offset) : r.disk i = d0 i := by
  cases h with
  | header => rfl
  | body _ _ _ _ stored _ _ => exact stored.below i hi
  | commit _ _ _ stored _ => exact stored.below i hi
  | failed _ _ below => exact below i hi
  | committed _ _ _ _ _ _ _ => exact absurd rfl hpc

theorem WriteState.chunkId {r : WriteRun} (h : WriteState sb file offset request chunk d0 r) :
    r.chunk.chunkId = chunk.chunkId := by
  cases h <;> rfl

theorem WriteState.fileSize {r : WriteRun} (h : WriteState sb file offset request chunk d0 r) :
    r.chunk.fileSize = chunk.fileSize := by
  cases h <;> rfl

end Step

/-! ## A chunk and its file -/

/-- The file holds exactly these records below `current_offset`, and the chunk's
counters say so. -/
structure Laid (disk : ByteStore) (chunk : Chunk) (recs : List Record) : Prop where
  layout : Holds disk 55 (recs.flatMap Record.bytes)
  offset : chunk.currentOffset = 55 + extent recs
  total : chunk.currentOffset + chunk.availSpace = 2147483648
  avail : 1 ≤ chunk.availSpace
  alloc : chunk.filesAlloc = recs.length
  count : chunk.filesCount = recs.length

theorem extent_eq_length (recs : List Record) :
    (recs.flatMap Record.bytes).length = extent recs := by
  induction recs with
  | nil => rfl
  | cons r rs ih =>
    rw [List.flatMap_cons, List.length_append, ih, extent_cons, Record.bytes_length]
    rfl

theorem length_le_extent (recs : List Record) : 30 * recs.length ≤ extent recs := by
  induction recs with
  | nil => simp
  | cons r rs ih => rw [List.length_cons, extent_cons]; omega

section Laid
variable {disk d0 : ByteStore} {chunk : Chunk} {recs : List Record} {rec : Record} {size : Nat}

theorem Laid.inRange (h : Laid disk chunk recs) : chunk.InRange := by
  have h1 := h.offset
  have h2 := h.total
  have h3 := h.alloc
  have h4 := h.count
  have h5 := length_le_extent recs
  unfold Chunk.InRange
  omega

/-- Only the bytes from the superblock to `current_offset` matter. -/
theorem Laid.congr (h : Laid d0 chunk recs)
    (hb : ∀ i, 55 ≤ i → i < chunk.currentOffset → disk i = d0 i) : Laid disk chunk recs := by
  refine { h with layout := h.layout.congr fun i h1 h2 => ?_ }
  rw [extent_eq_length] at h2
  exact hb i h1 (by have := h.offset; omega)

/-- A whole record behind the others and the chunk's counters moved. -/
theorem Laid.commit (h : Laid d0 chunk recs) (hst : Stored d0 chunk.currentOffset rec size disk)
    (hlen : rec.payload.length = size) (hsm : size < 2147483648)
    (hfit : chunk.availSpace > u32 (size + fileMetaSize)) :
    Laid disk (chunk.commit size) (recs ++ [rec]) := by
  have h1 := h.offset
  have h2 := h.total
  have hu : u32 (size + (30 : Nat)) = size + 30 := u32_of_lt (x := size + 30) (by omega)
  have hfit' : chunk.availSpace > size + 30 := by
    rw [← hu]; exact hfit
  have hoff : (chunk.commit size).currentOffset = chunk.currentOffset + (size + 30) := by
    show u64 (chunk.currentOffset + u32 (size + (30 : Nat))) = _
    rw [hu]
    exact u64_of_lt (x := chunk.currentOffset + (size + 30)) (by omega)
  have hav : (chunk.commit size).availSpace = chunk.availSpace - (size + 30) := by
    show u64 (chunk.availSpace - u32 (size + (30 : Nat))) = _
    rw [hu]
    exact u64_sub (by omega) (by omega)
  have hcnt := length_le_extent recs
  have hcount : ∀ {n : Nat}, n = recs.length → u32 (n + 1) = (recs ++ [rec]).length := by
    intro n hn
    rw [List.length_append, hn]
    exact u32_of_lt (x := recs.length + 1) (by omega)
  refine ⟨?_, ?_, ?_, ?_, hcount h.alloc, hcount h.count⟩
  · rw [List.flatMap_append, holds_append, extent_eq_length, ← h1]
    refine ⟨(h.congr fun i _ hi => hst.below i hi).layout, ?_⟩
    have hb := hst.bytes
    rw [← hlen, List.take_of_length_le (by rw [Record.bytes_length]; exact Nat.le_refl _)] at hb
    rw [List.flatMap_singleton]
    exact hb
  · rw [hoff, extent_append, extent_cons, extent_nil]; omega
  · rw [hoff, hav]; omega
  · rw [hav]; omega

/-- A new chunk has no records, whatever its file holds. -/
theorem spyAllocChunk_laid (id : UInt64) (disk : ByteStore) :
    Laid disk (spyAllocChunk id defChunkSize) [] := by
  have hoff : (spyAllocChunk id defChunkSize).currentOffset = 55 := rfl
  have hav : (spyAllocChunk id defChunkSize).availSpace = 2147483593 := rfl
  refine ⟨Holds.nil _ _, hoff, ?_, ?_, rfl, rfl⟩
  · rw [hoff, hav]
  · rw [hav]; omega

theorem spyPwrite_superblock {c : Chunk} (io : Pwrite) {i : Nat} (hi : 55 ≤ i) :
    (spyPwrite disk (spyFillSuperblock c) 0 io).1 i = disk i := by
  have hl := spyFillSuperblock_length c
  simp only [superblockSize, superblockMagicSize] at hl
  cases io with
  | full =>
    simp only [spyPwrite]
    exact store_apply_out _ (.inr (by omega))
  | short k =>
    simp only [spyPwrite]
    exact store_apply_out _ (.inr (by rw [List.length_take]; omega))

/-- The superblock apart, no call ever changes a byte below its offset. -/
theorem WriteState.kept {sb : Pwrite → Prop} {file : SpyFile} {offset : Nat}
    {request : RwBuffer} {r : WriteRun} (h : WriteState sb file offset request chunk d0 r)
    {i : Nat} (h1 : 55 ≤ i) (h2 : i < offset) : r.disk i = d0 i := by
  cases h with
  | header => rfl
  | body _ _ _ _ stored _ _ => exact stored.below i h2
  | commit _ _ _ stored _ => exact stored.below i h2
  | failed _ _ below => exact below i h2
  | committed _ _ io _ stored _ _ =>
    exact (spyPwrite_superblock io h1).trans (stored.below i h2)

end Laid

/-! ## Histories of calls -/

/-- The fit test of the dispatch was passed and the request is in the buffer. -/
structure Dispatched (file : SpyFile) (chunk : Chunk) (request : RwBuffer) : Prop where
  fits : chunk.availSpace > u32 (file.size + fileMetaSize)
  size_lt : file.size < 4294967296
  loaded : file.size ≤ request.unread.length
  read_le : request.readPos ≤ request.writePos

/-- One `pwrite()` of a call; that of the superblock is atomic. -/
inductive WriteStep (file : SpyFile) (offset : Nat) : WriteRun → WriteRun → Prop
  | pwrite {r r' : WriteRun} (io : Pwrite) (now : Nat) (atomic : r.pc = .commit → io = .full)
      (step : spyWriteFileStep file offset io now r = some r') : WriteStep file offset r r'

/-- The calls made so far have left this file, this chunk and, in memory, the
entries of the successful ones. -/
inductive History (id : UInt64) : ByteStore → Chunk → List IndexEntry → Prop
  | created (disk : ByteStore) :
      History id (store disk 0 (spyFillSuperblock (spyAllocChunk id defChunkSize)))
        (spyAllocChunk id defChunkSize) []
  | failed {disk : ByteStore} {chunk : Chunk} {entries : List IndexEntry} {file : SpyFile}
      {request : RwBuffer} {r : WriteRun} {retcode : Int} (before : History id disk chunk entries)
      (dispatched : Dispatched file chunk request)
      (run : Relation.ReflTransGen (WriteStep file chunk.currentOffset)
        ⟨.header, disk, chunk, request⟩ r)
      (done : r.pc = .finished retcode) (error : retcode ≠ 0) : History id r.disk r.chunk entries
  | stored {disk : ByteStore} {chunk : Chunk} {entries : List IndexEntry} {file : SpyFile}
      {request : RwBuffer} {r : WriteRun} (before : History id disk chunk entries)
      (dispatched : Dispatched file chunk request)
      (run : Relation.ReflTransGen (WriteStep file chunk.currentOffset)
        ⟨.header, disk, chunk, request⟩ r)
      (done : r.pc = .finished 0) :
      History id r.disk r.chunk
        (entries ++ [⟨id, file.fid, chunk.currentOffset, file.size + fileMetaSize⟩])

section Crash
variable {disk : ByteStore} {chunk : Chunk} {file : SpyFile} {request : RwBuffer}
  {recs : List Record} {r : WriteRun}

/-- The superblock on disk is the chunk's. -/
structure Synchronized (disk : ByteStore) (chunk : Chunk) (recs : List Record) : Prop
    extends Laid disk chunk recs where
  superblock : Holds disk 0 (spyFillSuperblock chunk)

theorem WriteState.run (hd : Dispatched file chunk request)
    (h : Relation.ReflTransGen (WriteStep file chunk.currentOffset)
      ⟨.header, disk, chunk, request⟩ r) :
    WriteState (· = .full) file chunk.currentOffset request chunk disk r := by
  induction h with
  | refl => exact .header
  | tail _ hs ih =>
    cases hs with
    | pwrite io now atomic step => exact ih.step hd.loaded hd.read_le hd.size_lt atomic step

/-- What a call leaves behind wherever it stops: the records as before, or one more. -/
theorem Synchronized.run (h : Synchronized disk chunk recs) (hd : Dispatched file chunk request)
    (hw : WriteState (· = .full) file chunk.currentOffset request chunk disk r) :
    (r.pc ≠ .finished 0 ∧ Synchronized r.disk chunk recs ∧
      (∀ retcode, r.pc = .finished retcode → r.chunk = chunk)) ∨
    (r.pc = .finished 0 ∧ ∃ rec : Record, rec.IsOf file (request.unread.take file.size) ∧
      rec.payload.length = file.size ∧ Synchronized r.disk r.chunk (recs ++ [rec])) := by
  have hsbl := spyFillSuperblock_length chunk
  simp only [superblockSize, superblockMagicSize] at hsbl
  have hco := h.offset
  have hkeep : ∀ d : ByteStore, (∀ i, i < chunk.currentOffset → d i = disk i) →
      Synchronized d chunk recs := by
    intro d hb
    refine ⟨h.toLaid.congr fun i _ hi => hb i hi, h.superblock.congr fun i _ hi => hb i ?_⟩
    omega
  cases hw with
  | header => exact .inl ⟨nofun, h, nofun⟩
  | body rec n d is stored lt small => exact .inl ⟨nofun, hkeep d stored.below, nofun⟩
  | commit rec d is stored small => exact .inl ⟨nofun, hkeep d stored.below, nofun⟩
  | failed n d below => exact .inl ⟨by simp, hkeep d below, fun _ _ => rfl⟩
  | committed rec d io is stored small ended =>
    subst ended
    have hlen : rec.payload.length = file.size := by
      rw [is.2, List.length_take, Nat.min_eq_left hd.loaded]
    have hlaid := h.toLaid.commit stored hlen small hd.fits
    refine .inr ⟨rfl, rec, is, hlen, hlaid.congr fun i hi _ => ?_, ?_⟩
    · exact spyPwrite_superblock .full hi
    · simp only [spyPwrite]
      exact Holds.store_self _ _ _

theorem History.synchronized {id : UInt64} {entries : List IndexEntry}
    (h : History id disk chunk entries) :
    chunk.chunkId = id ∧ ∃ recs, Synchronized disk chunk recs ∧ entries = entriesAt id 55 recs := by
  induction h with
  | created disk =>
    exact ⟨rfl, [], ⟨spyAllocChunk_laid id _, Holds.store_self _ _ _⟩, rfl⟩
  | failed _ hd run done error ih =>
    obtain ⟨hid, recs, hsync, rfl⟩ := ih
    rcases hsync.run hd (WriteState.run hd run) with ⟨_, hs, hc⟩ | ⟨hfin, _⟩
    · rw [hc _ done]
      exact ⟨hid, recs, hs, rfl⟩
    · rw [hfin] at done
      exact absurd (WritePc.finished.inj done).symm error
  | @stored _ c _ f _ _ _ hd run done ih =>
    obtain ⟨hid, recs, hsync, rfl⟩ := ih
    rcases hsync.run hd (WriteState.run hd run) with ⟨hne, _⟩ | ⟨_, rec, ⟨hfid, _⟩, hlen, hs⟩
    · exact absurd done hne
    · refine ⟨(WriteState.run hd run).chunkId.trans hid, recs ++ [rec], hs, ?_⟩
      rw [entriesAt_append, ← hsync.offset, ← hfid, ← hlen]
      rfl

/-- A chunk file and its superblock are set up again as they are. -/
theorem Synchronized.setup {reads : Nat → ReadResult} {size : Nat} {before : Recovered}
    (h : Synchronized disk chunk recs) (hreads : ∀ k, (reads k).Whole)
    (hnd : (recs.map Record.fid).Nodup) (hnew : ∀ r ∈ recs, Fresh before.fileIndex r.fid)
    (hid : ∀ c ∈ before.chunks, c.chunkId ≠ chunk.chunkId) :
    spySetupChunk disk size reads before =
      .accepted (before.add { chunk with fileSize := u32 size }
        (entriesAt chunk.chunkId 55 recs)) := by
  have h1 := h.total
  have h2 := h.avail
  exact spySetupChunk_records h.superblock h.toLaid.inRange h.layout h.offset (by omega) hreads hnd
    hnew hid

/-- Crash atomicity of an append. After any history of calls and any part of one
more, recovery accepts the chunk and indexes the records of the successful calls,
and the new one if and only if its superblock was written. -/
theorem spySetupChunk_after_crash {id : UInt64} {entries : List IndexEntry}
    {reads : Nat → ReadResult} {size : Nat} (hh : History id disk chunk entries)
    (hnd : (entries.map IndexEntry.fid).Nodup) (hd : Dispatched file chunk request)
    (hnew : ∀ e ∈ entries, e.fid ≠ file.fid)
    (hrun : Relation.ReflTransGen (WriteStep file chunk.currentOffset)
      ⟨.header, disk, chunk, request⟩ r)
    (hreads : ∀ k, (reads k).Whole) :
    ∃ st, spySetupChunk r.disk size reads ⟨[], [], 0⟩ = .accepted st ∧
      st.fileIndex.reverse = entries ++
        if r.pc = .finished 0 then [⟨id, file.fid, chunk.currentOffset, file.size + fileMetaSize⟩]
        else [] := by
  obtain ⟨hid, recs, hsync, rfl⟩ := hh.synchronized
  rw [entriesAt_map_fid] at hnd
  have hfids : ∀ t ∈ recs, t.fid ≠ file.fid := by
    intro t ht
    have hmem : t.fid ∈ (entriesAt id 55 recs).map IndexEntry.fid := by
      rw [entriesAt_map_fid]; exact List.mem_map.mpr ⟨t, ht, rfl⟩
    obtain ⟨e, he, hef⟩ := List.mem_map.mp hmem
    rw [← hef]; exact hnew e he
  have hw := WriteState.run hd hrun
  rcases hsync.run hd hw with ⟨hne, hs, _⟩ | ⟨hfin, rec, ⟨hfid, _⟩, hlen, hs⟩
  · refine ⟨_, hs.setup hreads hnd (by simp [Fresh]) (by simp), ?_⟩
    rw [if_neg hne]
    simp [Recovered.add, hid]
  · have hnd' : ((recs ++ [rec]).map Record.fid).Nodup := by
      rw [List.map_append, List.nodup_append]
      refine ⟨hnd, by simp, ?_⟩
      intro a ha b hb heq
      obtain ⟨t, ht, rfl⟩ := List.mem_map.mp ha
      rw [List.map_singleton, List.mem_singleton] at hb
      exact hfids t ht (heq.trans (hb.trans hfid))
    have hcid : r.chunk.chunkId = id := hw.chunkId.trans hid
    refine ⟨_, hs.setup hreads hnd' (by simp [Fresh]) (by simp), ?_⟩
    rw [if_pos hfin]
    simp only [Recovered.add, List.append_nil, List.reverse_reverse, hcid]
    rw [entriesAt_append, ← hsync.offset, ← hfid, ← hlen]
    rfl

end Crash

/-- A call for three bytes on a new chunk, stopped after these many `pwrite()`s. -/
def sampleCall : Nat → WriteRun
  | 0 => ⟨.header, store (fun _ => 0) 0 (spyFillSuperblock (spyAllocChunk 1 defChunkSize)),
      spyAllocChunk 1 defChunkSize, ⟨List.replicate 15 0 ++ [1, 2, 3], 15, 1⟩⟩
  | n + 1 => (spyWriteFileStep ⟨7, 1, 3, 0, 0⟩ 55 .full 0 (sampleCall n)).getD (sampleCall n)

theorem sampleCall_run {n : Nat}
    (h : ∀ k < n, (spyWriteFileStep ⟨7, 1, 3, 0, 0⟩ 55 .full 0 (sampleCall k)).isSome = true) :
    Relation.ReflTransGen (WriteStep ⟨7, 1, 3, 0, 0⟩ 55) (sampleCall 0) (sampleCall n) := by
  induction n with
  | zero => exact .refl
  | succ n ih =>
    refine (ih fun k hk => h k (by omega)).tail (.pwrite .full 0 (fun _ => rfl) ?_)
    obtain ⟨r, hr⟩ := Option.isSome_iff_exists.mp (h n (by omega))
    rw [sampleCall, hr]
    rfl

/-- Cut off before its superblock, and behind it. -/
theorem spySetupChunk_after_sampleCall :
    (∃ st, spySetupChunk (sampleCall 2).disk 0 fullReads ⟨[], [], 0⟩ = .accepted st ∧
      st.fileIndex.reverse =
        [] ++ if (sampleCall 2).pc = .finished 0 then [⟨1, 7, 55, 33⟩] else []) ∧
    ∃ st, spySetupChunk (sampleCall 3).disk 0 fullReads ⟨[], [], 0⟩ = .accepted st ∧
      st.fileIndex.reverse =
        [] ++ if (sampleCall 3).pc = .finished 0 then [⟨1, 7, 55, 33⟩] else [] := by
  have hd : Dispatched ⟨7, 1, 3, 0, 0⟩ (spyAllocChunk 1 defChunkSize) (sampleCall 0).request :=
    ⟨by decide, by decide, by decide, by decide⟩
  have hstep : ∀ k < 3,
      (spyWriteFileStep ⟨7, 1, 3, 0, 0⟩ 55 .full 0 (sampleCall k)).isSome = true := by
    decide +kernel
  exact ⟨spySetupChunk_after_crash (History.created _) (by simp) hd (by simp)
      (sampleCall_run fun k hk => hstep k (by omega)) fullReads_whole,
    spySetupChunk_after_crash (History.created _) (by simp) hd (by simp)
      (sampleCall_run hstep) fullReads_whole⟩
end Speedy.Chunkserver
