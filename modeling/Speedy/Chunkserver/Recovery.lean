import Speedy.Chunkserver.ParserSound

/-! # Recovering the index of a chunk file

Two results about the loop of `spy_parse_next_file` calls. On a file the write
path laid out, with `read()` returning what it is asked for, the loop rebuilds
the index exactly. On an arbitrary file, what `spy_setup_chunk` accepts tiles
the record area exactly when the stored headers do and `current_offset` fits an
`int`. -/
namespace Speedy.Chunkserver
open Speedy.Lib

/-! ## Records back to back -/

/-- The index entry of a record that stands at `pos` of chunk `cid`. -/
def Record.entry (cid : UInt64) (r : Record) (pos : Nat) : IndexEntry :=
  ⟨cid, r.fid, pos, r.payload.length + fileMetaSize⟩

/-- The entries of records laid out from `pos` on, in file order. -/
def entriesAt (cid : UInt64) : Nat → List Record → List IndexEntry
  | _, [] => []
  | pos, r :: rs => r.entry cid pos :: entriesAt cid (pos + r.bytes.length) rs

/-- The length of the records' bytes. -/
def extent (rs : List Record) : Nat := span (fun r => r.bytes.length) rs

@[simp] theorem extent_nil : extent [] = 0 := rfl

@[simp] theorem extent_cons (r : Record) (rs : List Record) :
    extent (r :: rs) = 30 + r.payload.length + extent rs := by
  simp only [extent, span_cons, Record.bytes_length, fileMetaSize]

@[simp] theorem extent_append (rs ts : List Record) :
    extent (rs ++ ts) = extent rs + extent ts := span_append _ rs ts

theorem entriesAt_eq (cid : UInt64) (pos : Nat) (rs : List Record) :
    entriesAt cid pos rs =
      (placed (fun r => r.bytes.length) pos rs).map fun q => q.2.entry cid q.1 := by
  induction rs generalizing pos with
  | nil => rfl
  | cons r rs ih => simp only [entriesAt, placed, List.map_cons, ih]

theorem entriesAt_append (cid : UInt64) (pos : Nat) (rs ts : List Record) :
    entriesAt cid pos (rs ++ ts) = entriesAt cid pos rs ++ entriesAt cid (pos + extent rs) ts := by
  simp only [entriesAt_eq, placed_append, List.map_append, extent]

theorem entriesAt_map_fid (cid : UInt64) (pos : Nat) (rs : List Record) :
    (entriesAt cid pos rs).map IndexEntry.fid = rs.map Record.fid := by
  induction rs generalizing pos with
  | nil => rfl
  | cons r rs ih => simp only [entriesAt, List.map_cons, ih]; rfl

section Header
variable {file : ByteStore} {pos : Nat} {r : Record}

theorem headerAt_record (h : Holds file pos r.bytes) :
    headerAt file pos = parseFileMeta (fillFileMeta r.file) := by
  have hh : Holds file pos (fillFileMeta r.file) := (holds_append.mp h).1
  unfold headerAt
  rw [hh.slice_eq (by simp)]

theorem headerAt_fid (h : Holds file pos r.bytes) : (headerAt file pos).fid = r.fid := by
  have := parseFileMeta_fid r.file []
  rw [List.append_nil] at this
  rw [headerAt_record h, this]
  rfl

theorem headerAt_size (h : Holds file pos r.bytes) (hl : r.payload.length < 4294967296) :
    (headerAt file pos).size = r.payload.length := by
  have := parseFileMeta_size r.file hl []
  rw [List.append_nil] at this
  rw [headerAt_record h, this]
  rfl

end Header

/-! ## The loop on a file of whole records -/

section Loop
variable {c : Parsing} {p : Parser} {pos left : Nat}

/-- Behind a record that ends below 2^31 the backwards computation of the start
offset is right. -/
theorem Synced.entry_eq (h : Synced c p pos left) (hl : c.lim < 2147483648)
    {start n : Nat} (hp : pos = start + 30 + n) (fid : UInt64) :
    p.entry fid n = ⟨c.cid, fid, start, n + 30⟩ := by
  have hle := h.le
  have hpe := h.pos_eq
  have hoff : u64 (p.fpos - n - (30 : Nat) - p.bufLeft) = start := by
    rw [h.fpos, h.left_eq, i32_of_range (by omega) (by omega)]
    unfold u64
    omega
  have hsz : u32 (n + (30 : Nat)) = n + 30 := u32_of_lt (x := n + 30) (by omega)
  unfold Parser.entry
  rw [h.chunkId]
  simp only [fileMetaSize, IndexEntry.mk.injEq, true_and]
  exact ⟨hoff, hsz⟩

theorem spyAllocFileParser_synced {chunk : Chunk} (hid : chunk.chunkId = c.cid)
    (hc : chunk.currentOffset = c.co) (hl : 55 ≤ c.lim) :
    Synced c (spyAllocFileParser chunk superblockSize c.size) 55 0 := by
  have hsz := c.size_lt
  have hfpos : ((55 : Nat) : Int) = i32 ((55 : Nat) : Int) :=
    (i32_of_range (by omega) (by omega)).symm
  have hbuf : i32 c.size = c.size := i32_of_range (by omega) (by omega)
  refine ⟨⟨hid, hc, hbuf, hfpos, Nat.le_refl 55, hl, ?_⟩, rfl, Nat.le_refl 55, rfl, rfl,
    Nat.zero_le _⟩
  intro h
  cases h

/-- The parsing of records that end below 2^31. -/
def parsingOf (file : ByteStore) (reads : Nat → ReadResult) (chunk : Chunk) (size : Nat)
    (hmax : chunk.currentOffset < 2147483648) (hge : 30 ≤ size) (hlt : size < 2147483648) :
    Parsing where
  file := file
  reads := reads
  co := chunk.currentOffset
  lim := chunk.currentOffset
  size := size
  wrong := False
  cid := chunk.chunkId
  agree := by simp
  lim_lt := by omega
  size_ge := hge
  size_lt := hlt

/-- The loop over records that end where the chunk does. -/
theorem parseLoop_records (hco : c.co < 2147483648) (hr : ∀ k, (c.reads k).Whole)
    (recs : List Record) :
    ∀ (fuel : Nat) (p : Parser) (pos left : Nat) (index : List IndexEntry),
      Synced c p pos left → Holds c.file pos (recs.flatMap Record.bytes) →
      pos + extent recs = c.co → recs.length < fuel → (recs.map Record.fid).Nodup →
      (∀ r ∈ recs, Fresh index r.fid) →
      ∃ q, parseLoop c.file c.reads fuel p index =
          .stopped 0 q ((entriesAt c.cid pos recs).reverse ++ index) ∧
        q.fpos = c.co ∧ q.wrapped = false := by
  have hlim := c.lim_eq hco
  induction recs with
  | nil =>
    intro fuel p pos left index h _ hpos hf _ _
    obtain ⟨n, rfl⟩ := Nat.exists_eq_succ_of_ne_zero (Nat.ne_of_gt hf)
    have hpe := h.pos_eq
    have hle := h.le
    rw [extent_nil] at hpos
    have hfp : p.fpos = c.co := by
      rw [h.fpos, i32_of_range (by omega) (by omega)]; omega
    refine ⟨p, ?_, hfp, ?_⟩
    · unfold parseLoop spyParseNextFile
      rw [if_pos ⟨by rw [hfp, h.offset, u64_of_lt (by omega)], by rw [h.left_eq]; omega⟩]
      rfl
    · cases hw : p.wrapped with
      | false => rfl
      | true => have := h.wrap hw; omega
  | cons r recs ih =>
    intro fuel p pos left index h hh hpos hf hnd hfr
    obtain ⟨n, rfl⟩ := Nat.exists_eq_succ_of_ne_zero (Nat.ne_of_gt (Nat.zero_lt_of_lt hf))
    rw [List.flatMap_cons, holds_append] at hh
    rw [extent_cons] at hpos
    have hfid := headerAt_fid hh.1
    have hsz := headerAt_size hh.1 (by omega)
    have hend : recordEnd c.file pos = pos + 30 + r.payload.length := by rw [recordEnd, hsz]
    obtain ⟨hne, hnd'⟩ := List.nodup_cons.mp hnd
    have hfresh := hfr r (List.mem_cons_self ..)
    -- every other way for a call to end contradicts the layout
    have hcall := spyParseNextFile_spec h index
    unfold parseLoop
    generalize spyParseNextFile c.file c.reads p index = res at hcall ⊢
    cases hcall with
    | finished here done =>
      have hle := h.le
      have hpge := h.pos_ge
      rw [h.fpos, i32_of_range (by omega) (by omega), u64_of_lt (by omega)] at done
      omega
    | failed q _ why =>
      rcases why with ⟨_, k, hk⟩ | hlt
      · exact absurd (hr k) hk
      · omega
    | aborted why =>
      rcases why with ⟨k, hk⟩ | hlt | hst
      · exact absurd (hr k) hk
      · omega
      · rw [hfid] at hst; exact absurd hfresh hst
    | skipped q l _ huge => omega
    | broken q cur _ why =>
      obtain ⟨k, hk⟩ := why
      have := hr k
      cases hx : c.reads k <;> rw [hx] at hk this <;> first | exact hk.elim | exact this.elim
    | whole q l next =>
      have hent := next.entry_eq (hlim ▸ hco) rfl (headerAt c.file pos).fid
      rw [hend] at next
      rw [hsz, hfid] at hent
      have hnext : pos + 30 + r.payload.length = pos + r.bytes.length := by simp; omega
      rw [hnext] at next
      simp only [Parser.indexed, hsz, hfid, hent]
      obtain ⟨q', hq, hfp, hw⟩ := ih n q _ l (⟨c.cid, r.fid, pos, r.payload.length + 30⟩ :: index)
        next hh.2 (by simp only [Record.bytes_length, fileMetaSize]; omega)
        (by simpa using hf) hnd' (by
          intro t ht e he
          rcases List.mem_cons.mp he with rfl | he
          · intro heq
            exact hne (List.mem_map.mpr ⟨t, ht, heq.symm⟩)
          · exact hfr t (List.mem_cons_of_mem _ ht) e he)
      refine ⟨q', ?_, hfp, hw⟩
      simp only [hq, entriesAt, List.reverse_cons, List.append_assoc, List.singleton_append]
      rfl

theorem fullReads_whole (k : Nat) : (fullReads k).Whole := by
  show (30 : Nat) ≤ 2 ^ 64
  decide

/-- Recovery inverts the write path: the loop returns 0 with `fpos` at
`current_offset`, never having left the range of `int`, and the index has got
one entry per record. -/
theorem parseLoop_inverts_layout {file : ByteStore} {chunk : Chunk} {recs : List Record}
    {bufSize fuel : Nat} {index : List IndexEntry}
    (hlay : Holds file superblockSize (recs.flatMap Record.bytes))
    (hoff : chunk.currentOffset = superblockSize + extent recs)
    (hmax : chunk.currentOffset ≤ 2147483647) (hge : fileMetaSize ≤ bufSize)
    (hlt : bufSize < 2147483648) (hnd : (recs.map Record.fid).Nodup)
    (hnew : ∀ r ∈ recs, Fresh index r.fid) (hfuel : recs.length < fuel) :
    ∃ q, parseLoop file fullReads fuel (spyAllocFileParser chunk superblockSize bufSize) index =
        .stopped 0 q ((entriesAt chunk.chunkId superblockSize recs).reverse ++ index) ∧
      q.fpos = chunk.currentOffset ∧ q.wrapped = false := by
  simp only [fileMetaSize, superblockSize, superblockMagicSize] at hge hoff
  have hs : Synced (parsingOf file fullReads chunk bufSize (by omega) hge hlt)
      (spyAllocFileParser chunk superblockSize bufSize) 55 0 :=
    spyAllocFileParser_synced rfl rfl (show 55 ≤ chunk.currentOffset by omega)
  exact parseLoop_records (Nat.lt_succ_of_le hmax) fullReads_whole recs fuel _ 55 0 index hs hlay
    hoff.symm hfuel hnd hnew

end Loop

/-- An empty file and one larger than a parse buffer of 32 bytes. -/
def sampleRecords : List Record := [⟨7, 1, 0, 0, []⟩, ⟨8, 1, 0, 0, List.replicate 40 5⟩]

theorem parseLoop_inverts_sampleRecords :
    ∃ q, parseLoop (store (fun _ => 0) 55 (sampleRecords.flatMap Record.bytes)) fullReads 3
        (spyAllocFileParser ⟨3, 0, 2, 155, 0, 0⟩ superblockSize 32) [] =
      .stopped 0 q [⟨3, 8, 85, 70⟩, ⟨3, 7, 55, 30⟩] ∧ q.fpos = 155 ∧ q.wrapped = false :=
  parseLoop_inverts_layout (Holds.store_self _ _ _) (by decide)
    (by decide) (by decide) (by decide) (by decide) (by simp [Fresh]) (by decide)

/-! ## Setting up a chunk the write path left behind -/

theorem spySetupChunk_eq {file : ByteStore} {reads : Nat → ReadResult} {chunk : Chunk}
    {size : Nat}
    (hsb : spyParseChunkSuperblock (slice file 0 superblockSize) (spyAllocChunk 0 (u32 size)) =
      some chunk) (before : Recovered) :
    spySetupChunk file size reads before =
      acceptStopped chunk
        { before with
          maxChunkId := if before.maxChunkId < chunk.chunkId then chunk.chunkId
            else before.maxChunkId }
        (parseLoop file reads parseFuel (spyAllocFileParser chunk superblockSize bufferSize)
          before.fileIndex) := by
  unfold spySetupChunk
  rw [hsb]

/-- `server` after `spy_setup_chunk` has added a chunk and its entries. -/
def Recovered.add (st : Recovered) (chunk : Chunk) (entries : List IndexEntry) : Recovered where
  chunks := chunk :: st.chunks
  fileIndex := entries.reverse ++ st.fileIndex
  maxChunkId := if st.maxChunkId < chunk.chunkId then chunk.chunkId else st.maxChunkId

/-- A file that starts with the superblock of `chunk` and holds whole records up
to `current_offset` is accepted with the entries of the records. -/
theorem spySetupChunk_records {file : ByteStore} {reads : Nat → ReadResult} {chunk : Chunk}
    {recs : List Record} {size : Nat} {before : Recovered}
    (hsb : Holds file 0 (spyFillSuperblock chunk)) (hr : chunk.InRange)
    (hlay : Holds file superblockSize (recs.flatMap Record.bytes))
    (hoff : chunk.currentOffset = superblockSize + extent recs)
    (hmax : chunk.currentOffset < 2147483648) (hreads : ∀ k, (reads k).Whole)
    (hnd : (recs.map Record.fid).Nodup) (hnew : ∀ r ∈ recs, Fresh before.fileIndex r.fid)
    (hid : ∀ c ∈ before.chunks, c.chunkId ≠ chunk.chunkId) :
    spySetupChunk file size reads before =
      .accepted (before.add { chunk with fileSize := u32 size }
        (entriesAt chunk.chunkId superblockSize recs)) := by
  have hparse : spyParseChunkSuperblock (slice file 0 superblockSize)
      (spyAllocChunk 0 (u32 size)) = some { chunk with fileSize := u32 size } := by
    rw [hsb.slice_eq (by simp), spyParseChunkSuperblock_fill hr]
    rfl
  have hlen : recs.length < parseFuel := by
    have hle : recs.length ≤ extent recs := by
      clear hlay hoff hnd hnew
      induction recs with
      | nil => simp
      | cons r rs ih => rw [List.length_cons, extent_cons]; omega
    simp only [parseFuel, superblockSize, superblockMagicSize] at hoff ⊢
    omega
  rw [spySetupChunk_eq hparse]
  simp only [superblockSize, superblockMagicSize] at hoff
  have hs : Synced (parsingOf file reads chunk 4194304 hmax (by omega) (by omega))
      (spyAllocFileParser { chunk with fileSize := u32 size } superblockSize 4194304) 55 0 :=
    spyAllocFileParser_synced rfl rfl (show 55 ≤ chunk.currentOffset by omega)
  obtain ⟨q, hq, hfp, _⟩ := parseLoop_records hmax hreads recs parseFuel _ 55 0
    before.fileIndex hs hlay hoff.symm hlen hnd hnew
  have hbuf : bufferSize = 4194304 := rfl
  rw [hbuf]
  replace hfp : q.fpos = chunk.currentOffset := hfp
  have hnlt : ¬ u64 q.fpos < chunk.currentOffset := by
    rw [hfp, u64_of_lt (by omega)]; omega
  have hnone : ¬ before.chunks.any (fun c => c.chunkId == chunk.chunkId) = true := by
    intro hany
    obtain ⟨c, hc, he⟩ := List.any_eq_true.mp hany
    exact hid c hc (by simpa using he)
  refine (congrArg (acceptStopped _ _) hq).trans ?_
  simp only [acceptStopped, spyAddChunk, if_neg hnlt, if_neg hnone, Recovered.add]
  rfl

/-! ## The loop on any file -/

/-- The headers stored from `pos` on lead exactly to `co`. -/
inductive RecordChain (file : ByteStore) : Nat → Nat → Prop
  | here (co : Nat) : RecordChain file co co
  | record {pos co : Nat} (rest : RecordChain file (recordEnd file pos) co) :
      RecordChain file pos co

theorem RecordChain.le {file : ByteStore} {pos co : Nat} (h : RecordChain file pos co) :
    pos ≤ co := by
  induction h with
  | here => exact Nat.le_refl _
  | record _ ih => unfold recordEnd at ih; omega

/-- The entries, in order, take up the range from `pos` to `co` without a gap or
an overlap, and each is the one of the header stored at its offset. -/
def Tiles (file : ByteStore) (cid : UInt64) : Nat → List IndexEntry → Nat → Prop
  | pos, [], co => pos = co
  | pos, e :: es, co =>
    e = ⟨cid, (headerAt file pos).fid, pos, (headerAt file pos).size + 30⟩ ∧
      Tiles file cid (pos + e.size) es co

theorem Tiles.chain {file : ByteStore} {cid : UInt64} {es : List IndexEntry} {pos co : Nat}
    (h : Tiles file cid pos es co) : RecordChain file pos co := by
  induction es generalizing pos with
  | nil => cases h; exact .here _
  | cons e es ih =>
    obtain ⟨rfl, ht⟩ := h
    have hrest := ih ht
    rw [Nat.add_comm _ 30, ← Nat.add_assoc] at hrest
    exact .record hrest

/-- The entry does not reach over offset 2^31. -/
def IndexEntry.Below (e : IndexEntry) : Prop :=
  e.offset < 2147483648 → e.offset + e.size < 2147483648

theorem Tiles.lt {file : ByteStore} {cid : UInt64} {es : List IndexEntry} {pos co : Nat}
    (h : Tiles file cid pos es co) (hp : pos < 2147483648) (hes : ∀ e ∈ es, e.Below) :
    co < 2147483648 := by
  induction es generalizing pos with
  | nil => cases h; exact hp
  | cons e es ih =>
    obtain ⟨he, ht⟩ := h
    have hbe : e.offset < 2147483648 → e.offset + e.size < 2147483648 :=
      hes e (List.mem_cons_self ..)
    have hoff : e.offset = pos := by rw [he]
    exact ih ht (by omega) fun t ht => hes t (List.mem_cons_of_mem _ ht)

section AnyFile
variable {c : Parsing} {p : Parser} {pos left : Nat}

/-- The start offset is computed from an `int`, so an entry that begins below
2^31 ends below it. -/
theorem Synced.entry_below (h : Synced c p pos left) {n : Nat} (hn : n < 4294967296)
    (fid : UInt64) : (p.entry fid n).Below := by
  have hrange := i32_lt p.filePos
  have hlow : -2147483648 ≤ i32 p.filePos := by unfold i32; omega
  have hroom := h.room
  have hsl := c.size_lt
  unfold IndexEntry.Below Parser.entry
  simp only [fileMetaSize, h.fpos, h.left_eq]
  unfold u64 u32
  omega

/-- After a failed `read()` only an `fpos` that has wrapped passes the last check. -/
theorem Broken.wraps {cur : Nat} (h : Broken c pos cur p) (hc : c.co ≤ u64 p.fpos) :
    2147483648 ≤ c.co ∧ 2147483649 ≤ p.filePos := by
  have h1 := h.lt
  have h2 := h.start
  have h3 := c.agree
  have h4 := c.lim_lt
  rw [h.fpos] at hc
  unfold u64 i32 at hc
  omega

theorem Broken.entry_below {cur : Nat} (h : Broken c pos cur p) (hc : c.co ≤ u64 p.fpos)
    (fid : UInt64) : (p.entry fid (headerAt c.file pos).size).Below := by
  have h1 := (h.wraps hc).2
  have h2 := h.start
  have h3 := h.ends
  have h4 := h.lt
  have h5 := c.lim_lt
  have h6 : (headerAt c.file pos).size < 4294967296 := parseFileMeta_size_lt _
  unfold recordEnd at h3
  unfold IndexEntry.Below Parser.entry
  simp only [fileMetaSize, h.fpos, h.left_eq]
  unfold u64 u32 i32
  omega

/-- What the loop can do from a state in step with the file at `pos`. -/
inductive LoopSpec (c : Parsing) (p : Parser) (pos : Nat) (index : List IndexEntry) :
    LoopResult → Prop
  | aborted (ends : ¬ c.Misreads p index pos) : LoopSpec c p pos index .aborted
  | undefined (ends : c.Misreads p index pos) : LoopSpec c p pos index .undefined
  | stopped (result : Int) (q : Parser) (added : List IndexEntry)
      (ends : c.Misreads p index pos ↔ c.wrong ∧ c.co ≤ u64 q.fpos)
      (below : c.co ≤ u64 q.fpos → ∀ e ∈ added, e.Below)
      (tiles : c.co < 2147483648 → RecordChain c.file pos c.co → c.co ≤ u64 q.fpos →
        Tiles c.file c.cid pos added.reverse c.co) :
      LoopSpec c p pos index (.stopped result q (added ++ index))

/-- One more entry in front of what the rest of the loop does. -/
theorem LoopSpec.more {index : List IndexEntry} {res : LoopResult} {q : Parser}
    {e : IndexEntry} {pos' : Nat} (he : e.Below)
    (hends : c.Misreads p index pos ↔ c.Misreads q (e :: index) pos')
    (hrec : c.co < 2147483648 → RecordChain c.file pos c.co →
      RecordChain c.file pos' c.co ∧
      e = ⟨c.cid, (headerAt c.file pos).fid, pos, (headerAt c.file pos).size + 30⟩ ∧
      pos' = pos + e.size)
    (h : LoopSpec c q pos' (e :: index) res) : LoopSpec c p pos index res := by
  cases h with
  | aborted ends => exact .aborted (mt hends.mp ends)
  | undefined ends => exact .undefined (hends.mpr ends)
  | stopped result q added ends below tiles =>
    have heq : added ++ e :: index = (added ++ [e]) ++ index := by simp
    rw [heq]
    refine .stopped result q _ (hends.trans ends) ?_ ?_
    · intro hq t ht
      rcases List.mem_append.mp ht with ht | ht
      · exact below hq t ht
      · rw [List.mem_singleton.mp ht]; exact he
    · intro hc hch hq
      obtain ⟨hch', hee, hpe⟩ := hrec hc hch
      have := tiles hc hch' hq
      rw [List.reverse_append]
      refine ⟨hee, ?_⟩
      rw [← hpe]
      exact this

/-- Below 2^31 the last check passes at `current_offset` only. -/
theorem Tracked.at_end (h : Tracked c p) (hc : c.co < 2147483648) (hq : c.co ≤ u64 p.fpos) :
    p.filePos = c.co := by
  have hlim := c.lim_eq hc
  have hle := h.le
  rw [h.fpos, i32_of_range (by omega) (by omega), u64_of_lt (by omega)] at hq
  omega

theorem parseLoop_spec :
    ∀ (fuel : Nat) (p : Parser) (pos left : Nat) (index : List IndexEntry),
      Synced c p pos left → c.lim + 60 < pos + 30 * fuel →
      LoopSpec c p pos index (parseLoop c.file c.reads fuel p index) := by
  intro fuel
  induction fuel with
  | zero =>
    intro p pos left index h hf
    have := h.le
    have := h.pos_eq
    omega
  | succ n ih =>
    intro p pos left index h hf
    have hle := h.le
    have hpe := h.pos_eq
    have hhl : (headerAt c.file pos).size < 4294967296 := parseFileMeta_size_lt _
    have hrec : recordEnd c.file pos = pos + 30 + (headerAt c.file pos).size := rfl
    have hcall := spyParseNextFile_spec h index
    unfold parseLoop
    generalize spyParseNextFile c.file c.reads p index = res at hcall ⊢
    cases hcall with
    | finished here done =>
      have hdone : c.co ≤ u64 (i32 pos) := by rwa [← here, ← h.fpos]
      refine .stopped 0 p [] ?_ (by simp) ?_
      · rw [and_iff_left done, Parsing.Misreads, here]
        exact misreads_finished hdone
      · intro hc _ hq
        exact here.symm.trans (h.at_end hc hq)
    | failed q at_ why ends =>
      refine .stopped (-1) q [] ends (by simp) ?_
      intro hc hch hq
      have hlim := c.lim_eq hc
      have hend := at_.at_end hc hq
      cases hch with
      | here => exact rfl
      | record rest =>
        have := rest.le
        rcases why with ⟨hlt, _⟩ | hlt <;> omega
    | aborted why ends => exact .aborted ends
    | whole q l next ends =>
      refine LoopSpec.more (next.entry_below hhl _) ends ?_ (ih q _ l _ next (by omega))
      intro hc hch
      have hnl := next.le
      have hnp := next.pos_eq
      have hlim := c.lim_eq hc
      cases hch with
      | here => omega
      | record rest =>
        have hent := next.entry_eq (hlim ▸ hc) rfl (headerAt c.file pos).fid
        refine ⟨rest, hent, ?_⟩
        rw [hent]
        simp only
        omega
    | skipped q l next huge ends =>
      refine LoopSpec.more (next.entry_below hhl _) ends ?_ (ih q _ l _ next (by omega))
      intro hc hch
      have hnl := next.le
      have hnp := next.pos_eq
      have hlim := c.lim_eq hc
      cases hch with
      | here => omega
      | record rest => have := rest.le; omega
    | broken q cur next why ends =>
      obtain ⟨m, rfl⟩ : ∃ m, n = m + 1 := ⟨n - 1, by omega⟩
      simp only
      unfold parseLoop
      rcases next.next (q.indexed c.file pos index) with
        ⟨hres, hb⟩ | ⟨q', hres, hfp, hb⟩ | ⟨hres, hb⟩
      · rw [hres]
        exact .undefined (ends.mpr hb)
      · rw [hres]
        rw [← hfp] at hb
        refine .stopped (-1) q' [_] (ends.trans hb) ?_ ?_
        · rw [hfp]
          intro hq e he
          rw [List.mem_singleton.mp he]
          exact next.entry_below hq _
        · rw [hfp]
          intro hc _ hq
          exact absurd (next.wraps hq).1 (Nat.not_le_of_lt hc)
      · rw [hres]
        exact .aborted (mt ends.mp hb)

end AnyFile

/-! ## Accepting a chunk -/

/-- The added entries tile the record area. -/
def Tiled (file : ByteStore) (chunk : Chunk) (added : List IndexEntry) : Prop :=
  (chunk.currentOffset ≤ superblockSize ∧ added = []) ∨
    ∃ es, es.Perm added ∧ Tiles file chunk.chunkId superblockSize es chunk.currentOffset

/-- An accepted chunk has a right index; anything else is a clean rejection. -/
def RecoverySound (file : ByteStore) (chunk : Chunk) (before : Recovered) : SetupResult → Prop
  | .accepted st => ∃ added, st.fileIndex = added ++ before.fileIndex ∧ Tiled file chunk added
  | .exited => True
  | .aborted => True
  | .undefined => False
  | .outOfFuel => False

/-- The stored headers fill the record area, and it ends where an `int` can count. -/
def WholeRecords (file : ByteStore) (chunk : Chunk) : Prop :=
  chunk.currentOffset < 2147483648 ∧
    (chunk.currentOffset ≤ superblockSize ∨
      RecordChain file superblockSize chunk.currentOffset)

/-- On these `read()` results the parser goes wrong: it comes to accept a chunk whose id is
new although its records do not fill it, or it does what C leaves undefined. -/
def Misread (file : ByteStore) (reads : Nat → ReadResult) (chunk : Chunk) (before : Recovered) :
    Prop :=
  superblockSize < chunk.currentOffset ∧ 0 < i32 (chunk.currentOffset - superblockSize) ∧
    Misreads
      { file, reads
        co := chunk.currentOffset
        lim := superblockSize + (chunk.currentOffset - superblockSize) % 4294967296
        size := bufferSize
        wrong := ¬ WholeRecords file chunk ∧ ∀ c ∈ before.chunks, c.chunkId ≠ chunk.chunkId }
      (before.fileIndex.map IndexEntry.fid) superblockSize superblockSize 0

section Setup
variable {file : ByteStore} {reads : Nat → ReadResult} {chunk : Chunk} {size : Nat}
  {before : Recovered}

/-- The ways for `spy_setup_chunk` to end on a chunk with a valid superblock. -/
inductive SetupSpec (file : ByteStore) (reads : Nat → ReadResult) (chunk : Chunk)
    (before : Recovered) : SetupResult → Prop
  | exited (ends : ¬ Misread file reads chunk before) : SetupSpec file reads chunk before .exited
  | aborted (ends : ¬ Misread file reads chunk before) : SetupSpec file reads chunk before .aborted
  | undefined (ends : Misread file reads chunk before) :
      SetupSpec file reads chunk before .undefined
  | accepted (st : Recovered) (added : List IndexEntry)
      (index : st.fileIndex = added ++ before.fileIndex)
      (ends : Misread file reads chunk before ↔ ¬ WholeRecords file chunk)
      (below : ∀ e ∈ added, e.Below) (none : chunk.currentOffset ≤ superblockSize → added = [])
      (tiles : chunk.currentOffset < 2147483648 →
        RecordChain file superblockSize chunk.currentOffset →
        Tiles file chunk.chunkId superblockSize added.reverse chunk.currentOffset) :
      SetupSpec file reads chunk before (.accepted st)

theorem acceptStopped_spec {maxId : UInt64} {result : Int} {p : Parser} (added : List IndexEntry)
    (ends : Misread file reads chunk before ↔
      (¬ WholeRecords file chunk ∧ ∀ c ∈ before.chunks, c.chunkId ≠ chunk.chunkId) ∧
        chunk.currentOffset ≤ u64 p.fpos)
    (hb : chunk.currentOffset ≤ u64 p.fpos → ∀ e ∈ added, e.Below)
    (hn : chunk.currentOffset ≤ superblockSize → added = [])
    (ht : chunk.currentOffset < 2147483648 →
      RecordChain file superblockSize chunk.currentOffset → chunk.currentOffset ≤ u64 p.fpos →
      Tiles file chunk.chunkId superblockSize added.reverse chunk.currentOffset) :
    SetupSpec file reads chunk before
      (acceptStopped chunk { before with maxChunkId := maxId }
        (.stopped result p (added ++ before.fileIndex))) := by
  unfold acceptStopped
  by_cases hlt : u64 p.fpos < chunk.currentOffset
  · simp only [if_pos hlt]
    exact .exited fun hm => Nat.not_le_of_lt hlt (ends.mp hm).2
  · have hle := Nat.le_of_not_lt hlt
    rw [and_iff_left hle] at ends
    simp only [if_neg hlt, spyAddChunk]
    by_cases hnew : ∀ c ∈ before.chunks, c.chunkId ≠ chunk.chunkId
    · rw [and_iff_left hnew] at ends
      rw [if_neg (by simpa using hnew)]
      exact .accepted _ added rfl ends (hb hle) hn fun hc hch => ht hc hch hle
    · rw [if_pos (by simpa using hnew)]
      exact .aborted fun hm => hnew (ends.mp hm).2

/-- The first call already ends the loop when `current_offset` is not behind the
superblock, or so far behind it that `fleft` is not positive. -/
theorem parseLoop_at_once (file : ByteStore) (reads : Nat → ReadResult) (n : Nat)
    (index : List IndexEntry)
    (h : chunk.currentOffset ≤ 55 ∨ i32 (chunk.currentOffset - 55) ≤ 0) :
    ∃ r p, parseLoop file reads (n + 1) (spyAllocFileParser chunk superblockSize bufferSize) index =
      .stopped r p index ∧ p.fpos = 55 := by
  have hfp : (spyAllocFileParser chunk superblockSize bufferSize).fpos = (55 : Nat) := rfl
  unfold parseLoop spyParseNextFile
  by_cases hco : chunk.currentOffset ≤ 55
  · rw [if_pos ⟨by rw [hfp, u64_of_lt (by omega)]; exact hco, rfl⟩]
    exact ⟨0, _, rfl, rfl⟩
  · have hfl : i32 (chunk.currentOffset - (55 : Nat)) ≤ 0 := h.resolve_left hco
    have hlt : ¬ u64 (spyAllocFileParser chunk superblockSize bufferSize).fpos ≥
        chunk.currentOffset := by
      rw [hfp, u64_of_lt (by omega)]; omega
    rw [if_neg fun h => hlt h.1]
    have hbl : (spyAllocFileParser chunk superblockSize bufferSize).bufLeft = 0 := rfl
    have hof : (spyAllocFileParser chunk superblockSize bufferSize).chunkOffset =
      chunk.currentOffset := rfl
    rw [refill_no_fleft _ _ (by rw [hbl]; omega) (by rw [hof, hfp]; exact hfl)]
    exact ⟨-1, _, rfl, rfl⟩

theorem spySetupChunk_spec
    (hsb : spyParseChunkSuperblock (slice file 0 superblockSize) (spyAllocChunk 0 (u32 size)) =
      some chunk) :
    SetupSpec file reads chunk before (spySetupChunk file size reads before) := by
  rw [spySetupChunk_eq hsb]
  by_cases h1 : chunk.currentOffset ≤ 55 ∨ i32 (chunk.currentOffset - 55) ≤ 0
  · obtain ⟨r, p, hl, hp⟩ := parseLoop_at_once file reads (2 ^ 31 - 1)
      before.fileIndex h1
    rw [show parseFuel = 2 ^ 31 - 1 + 1 from rfl, hl]
    have hu : u64 p.fpos = 55 := by rw [hp]; rfl
    refine acceptStopped_spec [] ⟨?_, ?_⟩ (by simp) (fun _ => rfl) ?_
    · rintro ⟨hlt, hpos, _⟩
      exact absurd h1 (not_or.mpr ⟨Nat.not_le_of_lt hlt, Int.not_le.mpr hpos⟩)
    · rw [hu]
      rintro ⟨⟨hw, _⟩, hle⟩
      exact absurd ⟨by omega, .inl hle⟩ hw
    · intro hlt hch hle
      rw [hu] at hle
      exact Nat.le_antisymm hch.le hle
  · obtain ⟨hbehind, hleft⟩ := not_or.mp h1
    have hmod : (chunk.currentOffset - 55) % 4294967296 < 2147483648 := by
      unfold i32 at hleft; omega
    let c : Parsing :=
      { file, reads
        co := chunk.currentOffset
        lim := 55 + (chunk.currentOffset - 55) % 4294967296
        size := 4194304
        wrong := ¬ WholeRecords file chunk ∧ ∀ c ∈ before.chunks, c.chunkId ≠ chunk.chunkId
        cid := chunk.chunkId
        agree := by omega
        lim_lt := by omega
        size_ge := by omega
        size_lt := by omega }
    have hs : Synced c (spyAllocFileParser chunk superblockSize 4194304) 55 0 :=
      spyAllocFileParser_synced rfl rfl (Nat.le_add_right _ _)
    have hmis : Misread file reads chunk before ↔
        c.Misreads (spyAllocFileParser chunk superblockSize 4194304) before.fileIndex 55 :=
      ⟨fun h => h.2.2, fun h => ⟨Nat.lt_of_not_le hbehind, Int.not_le.mp hleft, h⟩⟩
    have hloop := parseLoop_spec parseFuel _ 55 0 before.fileIndex hs
      (show 55 + (chunk.currentOffset - 55) % 4294967296 + 60 < _ by simp only [parseFuel]; omega)
    have hbuf : bufferSize = 4194304 := rfl
    rw [hbuf]
    change LoopSpec c _ 55 _ (parseLoop file reads _ _ _) at hloop
    generalize parseLoop file reads parseFuel _ before.fileIndex = res at hloop ⊢
    cases hloop with
    | aborted ends => exact .aborted (mt hmis.mp ends)
    | undefined ends => exact .undefined (hmis.mpr ends)
    | stopped r q added ends below tiles =>
      exact acceptStopped_spec added (hmis.trans ends) below
        (fun hle => absurd hle hbehind) tiles

/-- The index of an accepted chunk is right exactly where its records fill the record area. -/
theorem recoverySound_accepted {st : Recovered} {added : List IndexEntry}
    (index : st.fileIndex = added ++ before.fileIndex) (below : ∀ e ∈ added, e.Below)
    (none : chunk.currentOffset ≤ superblockSize → added = [])
    (tiles : chunk.currentOffset < 2147483648 →
      RecordChain file superblockSize chunk.currentOffset →
      Tiles file chunk.chunkId superblockSize added.reverse chunk.currentOffset) :
    RecoverySound file chunk before (.accepted st) ↔ WholeRecords file chunk := by
  constructor
  · rintro ⟨added', hidx, ht⟩
    have heq : added' = added := List.append_cancel_right (hidx.symm.trans index)
    subst heq
    rcases ht with ⟨hle, _⟩ | ⟨es, hperm, hes⟩
    · exact ⟨Nat.lt_of_le_of_lt hle (by decide), .inl hle⟩
    · exact ⟨hes.lt (by decide) fun e he => below e (hperm.mem_iff.mp he), .inr hes.chain⟩
  · rintro ⟨hlt, hle | hch⟩
    · exact ⟨added, index, .inl ⟨hle, none hle⟩⟩
    · exact ⟨added, index, .inr ⟨_, List.reverse_perm added, tiles hlt hch⟩⟩

/-- `spy_setup_chunk` gives a right answer exactly where the file and the `read()` results
do not make the parser go wrong. They do not when the stored headers fill the record area
below 2^31 and no `read()` fails. -/
theorem spySetupChunk_sound_iff
    (hsb : spyParseChunkSuperblock (slice file 0 superblockSize) (spyAllocChunk 0 (u32 size)) =
      some chunk) :
    (RecoverySound file chunk before (spySetupChunk file size reads before) ↔
      ¬ Misread file reads chunk before) ∧
    (WholeRecords file chunk → (∀ k, ¬ (reads k).Fails) → ¬ Misread file reads chunk before) := by
  have hspec : SetupSpec file reads chunk before (spySetupChunk file size reads before) :=
    spySetupChunk_spec hsb
  constructor
  · generalize spySetupChunk file size reads before = res at hspec ⊢
    cases hspec with
    | exited ends => exact iff_of_true trivial ends
    | aborted ends => exact iff_of_true trivial ends
    | undefined ends => exact iff_of_false id (not_not.mpr ends)
    | accepted st added index ends below none tiles =>
      rw [recoverySound_accepted index below none tiles, ends, not_not]
  · rintro hw hno ⟨_, _, hm⟩
    obtain ⟨k, hk⟩ := hm.fails fun h => h.1 hw
    exact hno k hk

end Setup

/-- A chunk with one record of three bytes. -/
def wholeChunk : Chunk := ⟨1, 1, 1, 88, 2147483560, 88⟩

def wholeFile : ByteStore :=
  store (store (fun _ => 0) 0 (spyFillSuperblock wholeChunk)) 55
    (Record.bytes ⟨7, 1, 0, 0, [1, 2, 3]⟩)

theorem spySetupChunk_sound_wholeFile :
    WholeRecords wholeFile wholeChunk ∧ ¬ Misread wholeFile fullReads wholeChunk ⟨[], [], 0⟩ ∧
    RecoverySound wholeFile wholeChunk ⟨[], [], 0⟩
      (spySetupChunk wholeFile 88 fullReads ⟨[], [], 0⟩) := by
  have hend : recordEnd wholeFile superblockSize = 88 := by decide +kernel
  have hw : WholeRecords wholeFile wholeChunk := by
    refine ⟨by decide, .inr (.record ?_)⟩
    rw [hend]
    exact .here 88
  obtain ⟨hiff, hsuff⟩ := @spySetupChunk_sound_iff wholeFile fullReads wholeChunk 88 ⟨[], [], 0⟩
    (by decide +kernel)
  have hno := hsuff hw fun _ h => h
  exact ⟨hw, hno, hiff.mpr hno⟩

/-- A chunk with `current_offset` 85: one header, which announces 100 bytes. -/
def tornChunk : Chunk := ⟨1, 1, 1, 85, 2147483563, 85⟩

def tornFile : ByteStore :=
  store (store (fun _ => 0) 0 (spyFillSuperblock tornChunk)) 55 (fillFileMeta ⟨7, 1, 100, 0, 0⟩)

/-- A record that overruns `current_offset` is not indexed, and the chunk is accepted. -/
theorem spySetupChunk_accepts_torn :
    spyParseChunkSuperblock (slice tornFile 0 superblockSize) (spyAllocChunk 0 (u32 85)) =
      some tornChunk ∧
    spySetupChunk tornFile 85 fullReads ⟨[], [], 0⟩ = .accepted ⟨[tornChunk], [], 1⟩ ∧
    ¬ RecoverySound tornFile tornChunk ⟨[], [], 0⟩
      (spySetupChunk tornFile 85 fullReads ⟨[], [], 0⟩) := by
  have hacc : spySetupChunk tornFile 85 fullReads ⟨[], [], 0⟩ =
      .accepted ⟨[tornChunk], [], 1⟩ := by decide +kernel
  refine ⟨by decide +kernel, hacc, ?_⟩
  rw [hacc]
  rintro ⟨added, hidx, ht⟩
  have hnil : added = [] := (List.append_eq_nil_iff.mp hidx.symm).1
  subst hnil
  rcases ht with ⟨hle, _⟩ | ⟨es, hperm, hes⟩
  · exact absurd hle (by decide)
  · rw [List.perm_nil.mp hperm] at hes
    exact absurd (show (55 : Nat) = 85 from hes) (by decide)

end Speedy.Chunkserver
