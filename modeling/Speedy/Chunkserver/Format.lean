import Speedy.Lib.Words
import Speedy.Lib.ByteStore

/-! # On-disk format of a chunk file

A chunk file is a superblock of 55 bytes followed by records, each a header of
30 bytes and the payload. This file has the encoders and decoders of both
(`spy_utils.c`, `spy_adler32.c`, `spy_store.c`) and the round trips that recovery
rests on. -/
namespace Speedy.Chunkserver
open Speedy.Lib

/-! ## Constants -/

@[simp] def superblockMagicSize : Nat := 15
@[simp] def superblockSize : Nat := superblockMagicSize + 8 + 4 + 4 + 8 + 8 + 8
@[simp] def fileMetaSize : Nat := 30
@[simp] def bufferSize : Nat := 4194304
/-- `1UL << 31` -/
@[simp] def defChunkSize : Nat := 2147483648

/-- "CHUNK_SB_MAGIC!" -/
def superblockMagic : Bytes := [67, 72, 85, 78, 75, 95, 83, 66, 95, 77, 65, 71, 73, 67, 33]

/-! ## Machine words -/

def spyMachWriteTo1 (data : Nat) : Bytes := beEncode 1 data
def spyMachWriteTo2 (data : Nat) : Bytes := beEncode 2 data
def spyMachWriteTo4 (data : Nat) : Bytes := beEncode 4 data
def spyMachWriteTo8 (data : Nat) : Bytes := beEncode 8 data

def spyMachReadFrom1 (b : Bytes) : Nat := beDecode (b.take 1)
def spyMachReadFrom2 (b : Bytes) : Nat := beDecode (b.take 2)
def spyMachReadFrom4 (b : Bytes) : Nat := beDecode (b.take 4)
def spyMachReadFrom8 (b : Bytes) : Nat := beDecode (b.take 8)

theorem spyMachReadFrom4_lt (b : Bytes) : spyMachReadFrom4 b < 4294967296 := by
  have h := beDecode_lt (b.take 4)
  have hl : (b.take 4).length ≤ 4 := by simp
  have hp := Nat.pow_le_pow_right (n := 256) (by omega) hl
  unfold spyMachReadFrom4
  omega

theorem take_beEncode_append (w v : Nat) (rest : Bytes) :
    (beEncode w v ++ rest).take w = beEncode w v := List.take_left' (beEncode_length w v)

theorem drop_beEncode_append (w v : Nat) (rest : Bytes) :
    (beEncode w v ++ rest).drop w = rest := List.drop_left' (beEncode_length w v)

/-! ## Adler checksum -/

@[simp] def base : Nat := 65521
@[simp] def nmax : Nat := 5552

/-- `DO1` over a run of bytes: `adler += b; sum2 += adler`. -/
def doSums (st : Nat × Nat) (data : Bytes) : Nat × Nat :=
  data.foldl (fun st b => (st.1 + b.toNat, st.2 + (st.1 + b.toNat))) st

/-- `n` rounds of `DO16`, each over the next sixteen bytes. -/
def do16 : Nat → Nat × Nat → Bytes → (Nat × Nat) × Bytes
  | 0, st, data => (st, data)
  | n + 1, st, data => do16 n (doSums st (data.take 16)) (data.drop 16)

def modBase (st : Nat × Nat) : Nat × Nat := (st.1 % base, st.2 % base)

/-- `while (len >= NMAX)`, which runs `len / NMAX` times. -/
def nmaxBlocks : Nat → Nat × Nat → Bytes → (Nat × Nat) × Bytes
  | 0, st, data => (st, data)
  | n + 1, st, data =>
    let r := do16 (nmax / 16) st data
    nmaxBlocks n (modBase r.1) r.2

/-- The two loops over one contiguous area, shared by `spy_adler32` and
`spy_buffer_adler32`. -/
def adlerArea (st : Nat × Nat) (data : Bytes) : Nat × Nat :=
  let r := nmaxBlocks (data.length / nmax) st data
  if r.2.length = 0 then r.1
  else
    let q := do16 (r.2.length / 16) r.1 r.2
    modBase (doSums q.1 q.2)

/-- `adler | (sum2 << 16)` -/
def recombine (st : Nat × Nat) : Nat := st.1 ||| (st.2 <<< 16)

/-- The component sums of a running checksum. -/
def components (adler : Nat) : Nat × Nat := (adler &&& 0xffff, (adler >>> 16) &&& 0xffff)

def spyAdler32 (adler : Nat) (buf : Bytes) : Nat :=
  let st := components adler
  if buf.length = 1 then
    let s := doSums st buf
    let a := if s.1 ≥ base then s.1 - base else s.1
    let t := st.2 + a
    recombine (a, if t ≥ base then t - base else t)
  else if buf.length < 16 then
    let s := doSums st buf
    recombine (if s.1 ≥ base then s.1 - base else s.1, s.2 % base)
  else recombine (adlerArea st buf)

theorem recombine_lt {st : Nat × Nat} (h1 : st.1 < 2 ^ 16) (h2 : st.2 < 2 ^ 16) :
    recombine st < 2 ^ 32 := by
  unfold recombine
  apply Nat.or_lt_two_pow (by omega)
  rw [Nat.shiftLeft_eq]; omega

theorem modBase_lt (st : Nat × Nat) : (modBase st).1 < 2 ^ 16 ∧ (modBase st).2 < 2 ^ 16 := by
  simp only [modBase, base]; omega

theorem nmaxBlocks_lt {st : Nat × Nat} (h : st.1 < 2 ^ 16 ∧ st.2 < 2 ^ 16) (n : Nat)
    (data : Bytes) :
    (nmaxBlocks n st data).1.1 < 2 ^ 16 ∧ (nmaxBlocks n st data).1.2 < 2 ^ 16 := by
  induction n generalizing st data with
  | zero => exact h
  | succ n ih => exact ih (modBase_lt _) _

theorem adlerArea_lt {st : Nat × Nat} (h : st.1 < 2 ^ 16 ∧ st.2 < 2 ^ 16) (data : Bytes) :
    (adlerArea st data).1 < 2 ^ 16 ∧ (adlerArea st data).2 < 2 ^ 16 := by
  unfold adlerArea
  simp only
  split
  · exact nmaxBlocks_lt h _ _
  · exact modBase_lt _

theorem spyAdler32_lt {buf : Bytes} (h : 16 ≤ buf.length) : spyAdler32 0 buf < 2 ^ 32 := by
  unfold spyAdler32
  rw [if_neg (by omega), if_neg (by omega)]
  have hz : (components 0).1 < 2 ^ 16 ∧ (components 0).2 < 2 ^ 16 := by decide
  obtain ⟨h1, h2⟩ := adlerArea_lt hz buf
  exact recombine_lt h1 h2

/-! ## Record headers -/

/-- `spy_file_t`: fid, reference count, payload size, payload checksum, time. -/
structure SpyFile where
  fid : UInt64
  ref : UInt16
  size : Nat
  checksum : Nat
  timestamp : Nat
  deriving DecidableEq, Repr

/-- The five fields as `spy_fill_file_meta` writes them. -/
def fillFileMeta (file : SpyFile) : Bytes :=
  spyMachWriteTo8 file.fid.toNat ++ (spyMachWriteTo2 file.ref.toNat ++
    (spyMachWriteTo4 file.size ++ (spyMachWriteTo8 file.checksum ++
      spyMachWriteTo8 file.timestamp)))

/-- The five fields as `spy_read_file` and the recovery parser read them. -/
def parseFileMeta (b : Bytes) : SpyFile where
  fid := UInt64.ofNat (spyMachReadFrom8 b)
  ref := UInt16.ofNat (spyMachReadFrom2 (b.drop 8))
  size := spyMachReadFrom4 (b.drop 10)
  checksum := spyMachReadFrom8 (b.drop 14)
  timestamp := spyMachReadFrom8 (b.drop 22)

@[simp] theorem fillFileMeta_length (file : SpyFile) :
    (fillFileMeta file).length = fileMetaSize := by
  simp [fillFileMeta, spyMachWriteTo8, spyMachWriteTo2, spyMachWriteTo4]

theorem parseFileMeta_fid (file : SpyFile) (rest : Bytes) :
    (parseFileMeta (fillFileMeta file ++ rest)).fid = file.fid := by
  simp only [parseFileMeta, fillFileMeta, spyMachReadFrom8, spyMachWriteTo8, List.append_assoc]
  rw [take_beEncode_append, beDecode_beEncode]
  apply UInt64.toNat_inj.mp
  have := file.fid.toNat_lt
  simp only [UInt64.toNat_ofNat']
  omega

theorem parseFileMeta_size (file : SpyFile) (h : file.size < 2 ^ 32) (rest : Bytes) :
    (parseFileMeta (fillFileMeta file ++ rest)).size = file.size := by
  simp only [parseFileMeta, fillFileMeta, spyMachReadFrom4, spyMachWriteTo8, spyMachWriteTo2,
    spyMachWriteTo4, List.append_assoc]
  rw [show 10 = 8 + 2 from rfl, ← List.drop_drop, drop_beEncode_append, drop_beEncode_append,
    take_beEncode_append]
  exact beDecode_beEncode_of_lt h

theorem parseFileMeta_checksum (file : SpyFile) (h : file.checksum < 2 ^ 64) (rest : Bytes) :
    (parseFileMeta (fillFileMeta file ++ rest)).checksum = file.checksum := by
  simp only [parseFileMeta, fillFileMeta, spyMachReadFrom8, spyMachWriteTo8, spyMachWriteTo2,
    spyMachWriteTo4, List.append_assoc]
  rw [show 14 = 8 + (2 + 4) from rfl, ← List.drop_drop, ← List.drop_drop, drop_beEncode_append,
    drop_beEncode_append, drop_beEncode_append, take_beEncode_append]
  exact beDecode_beEncode_of_lt h

theorem parseFileMeta_size_lt (b : Bytes) : (parseFileMeta b).size < 2 ^ 32 :=
  spyMachReadFrom4_lt _

/-- A record as the write path lays it out: the header's fields and the
payload, whose length the header announces. -/
structure Record where
  fid : UInt64
  ref : UInt16
  checksum : Nat
  timestamp : Nat
  payload : Bytes
  deriving DecidableEq, Repr

def Record.file (r : Record) : SpyFile where
  fid := r.fid
  ref := r.ref
  size := r.payload.length
  checksum := r.checksum
  timestamp := r.timestamp

def Record.bytes (r : Record) : Bytes := fillFileMeta r.file ++ r.payload

@[simp] theorem Record.bytes_length (r : Record) :
    r.bytes.length = fileMetaSize + r.payload.length := by
  simp [Record.bytes]

/-! ## Superblock -/

/-- `spy_chunk_t` without its descriptor, path and list links. -/
structure Chunk where
  chunkId : UInt64
  filesAlloc : Nat
  filesCount : Nat
  currentOffset : Nat
  availSpace : Nat
  fileSize : Nat
  deriving DecidableEq, Repr

/-- The fields fit their C types. -/
def Chunk.InRange (c : Chunk) : Prop :=
  c.filesAlloc < 2 ^ 32 ∧ c.filesCount < 2 ^ 32 ∧ c.currentOffset < 2 ^ 64 ∧ c.availSpace < 2 ^ 64

/-- `spy_alloc_chunk` -/
def spyAllocChunk (chunkId : UInt64) (size : Nat) : Chunk where
  chunkId := chunkId
  filesAlloc := 0
  filesCount := 0
  fileSize := size
  availSpace := defChunkSize - superblockSize
  currentOffset := superblockSize

/-- The superblock up to its checksum. -/
def superblockBody (c : Chunk) : Bytes :=
  superblockMagic ++ (spyMachWriteTo8 c.chunkId.toNat ++ (spyMachWriteTo4 c.filesAlloc ++
    (spyMachWriteTo4 c.filesCount ++ (spyMachWriteTo8 c.currentOffset ++
      spyMachWriteTo8 c.availSpace))))

def spyFillSuperblock (c : Chunk) : Bytes :=
  superblockBody c ++ spyMachWriteTo8 (spyAdler32 0 (superblockBody c))

/-- `none` is a failed assertion: wrong magic or wrong checksum. -/
def spyParseChunkSuperblock (sb : Bytes) (c : Chunk) : Option Chunk :=
  if sb.take superblockMagicSize = superblockMagic then
    let p := sb.drop superblockMagicSize
    if spyMachReadFrom8 (p.drop 32) = spyAdler32 0 (sb.take 47) then
      some { c with
        chunkId := UInt64.ofNat (spyMachReadFrom8 p)
        filesAlloc := spyMachReadFrom4 (p.drop 8)
        filesCount := spyMachReadFrom4 (p.drop 12)
        currentOffset := spyMachReadFrom8 (p.drop 16)
        availSpace := spyMachReadFrom8 (p.drop 24) }
    else none
  else none

@[simp] theorem superblockBody_length (c : Chunk) : (superblockBody c).length = 47 := by
  simp [superblockBody, superblockMagic, spyMachWriteTo8, spyMachWriteTo4]

@[simp] theorem spyFillSuperblock_length (c : Chunk) :
    (spyFillSuperblock c).length = superblockSize := by
  simp [spyFillSuperblock, spyMachWriteTo8]

/-- Parsing the bytes of a filled superblock passes both assertions and gives
the five fields back. -/
theorem spyParseChunkSuperblock_fill {c : Chunk} (h : c.InRange) (c' : Chunk) :
    spyParseChunkSuperblock (spyFillSuperblock c) c' =
      some { c with fileSize := c'.fileSize } := by
  obtain ⟨ha, hc, ho, hs⟩ := h
  have hbody : (spyFillSuperblock c).take 47 = superblockBody c := by
    unfold spyFillSuperblock
    exact List.take_left' (superblockBody_length c)
  have hmagic : (spyFillSuperblock c).take superblockMagicSize = superblockMagic := by
    simp only [spyFillSuperblock, superblockBody, List.append_assoc]
    exact List.take_left' rfl
  have hsum : spyAdler32 0 (superblockBody c) < 256 ^ 8 := by
    have := spyAdler32_lt (show 16 ≤ (superblockBody c).length by simp)
    omega
  have hdrop : (spyFillSuperblock c).drop superblockMagicSize =
      spyMachWriteTo8 c.chunkId.toNat ++ (spyMachWriteTo4 c.filesAlloc ++
        (spyMachWriteTo4 c.filesCount ++ (spyMachWriteTo8 c.currentOffset ++
          (spyMachWriteTo8 c.availSpace ++
            spyMachWriteTo8 (spyAdler32 0 (superblockBody c)))))) := by
    simp only [spyFillSuperblock]
    conv_lhs => rw [superblockBody]
    simp only [List.append_assoc]
    exact List.drop_left' rfl
  have hid : UInt64.ofNat c.chunkId.toNat = c.chunkId := by simp
  unfold spyParseChunkSuperblock
  simp only
  rw [if_pos hmagic, hbody, hdrop]
  simp only [spyMachReadFrom8, spyMachReadFrom4, spyMachWriteTo8, spyMachWriteTo4]
  rw [show 32 = 8 + (4 + (4 + (8 + 8))) from rfl, show 24 = 8 + (4 + (4 + 8)) from rfl,
    show 16 = 8 + (4 + 4) from rfl, show 12 = 8 + 4 from rfl]
  simp only [← List.drop_drop, drop_beEncode_append, take_beEncode_append]
  rw [← List.append_nil (beEncode 8 (spyAdler32 0 (superblockBody c))), take_beEncode_append,
    beDecode_beEncode_of_lt hsum, if_pos rfl]
  rw [beDecode_beEncode_of_lt (w := 8) c.chunkId.toNat_lt, hid,
    beDecode_beEncode_of_lt (w := 4) (by omega), beDecode_beEncode_of_lt (w := 4) (by omega),
    beDecode_beEncode_of_lt (w := 8) (by omega), beDecode_beEncode_of_lt (w := 8) (by omega)]

end Speedy.Chunkserver
