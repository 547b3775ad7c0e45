import Speedy.Chunkserver.Format

/-! # The recovery parser of a chunk file

`spy_parse_next_file` walks the records of a chunk file through a buffer it
refills with `read()`. Its counters are C integers of mixed types; every
assignment below is reduced to the type of the variable it assigns to, and every
comparison converts as C does (an `int` next to a `size_t` or `uint64_t` becomes
unsigned). The results of the `read()` calls are an input: a positive count up to
the requested size, end of file, or the error return -1, which the parser stores
in a `size_t`. -/
namespace Speedy.Chunkserver
open Speedy.Lib

/-- `spy_file_index_entry_t` -/
structure IndexEntry where
  chunkId : UInt64
  fid : UInt64
  offset : Nat
  size : Nat
  deriving DecidableEq, Repr

/-- The outcome of one `read()`; a count is cut to what the call asked for. -/
inductive ReadResult where
  | bytes (n : Nat)
  | eof
  | eintr
  | error
  deriving DecidableEq, Repr

def ReadResult.Fails : ReadResult → Prop
  | .eintr => True
  | .error => True
  | _ => False

/-- Every `read()` returns all the bytes it asked for. -/
def fullReads : Nat → ReadResult := fun _ => .bytes (2 ^ 64)

/-- `spy_file_parser_t`, with the descriptor's own position (`filePos`), the
number of `read()` calls made so far, and a flag that an assignment to `fpos`
has left the range of `int`. -/
structure Parser where
  fpos : Int
  chunkId : UInt64
  chunkOffset : Nat
  buf : ByteStore
  bufSize : Int
  bufPos : Nat
  bufLeft : Int
  filePos : Nat
  nreads : Nat
  wrapped : Bool

/-- `spy_alloc_file_parser` on a descriptor positioned at `fpos` -/
def spyAllocFileParser (chunk : Chunk) (fpos : Nat) (bufSize : Nat) : Parser where
  fpos := fpos
  chunkId := chunk.chunkId
  chunkOffset := chunk.currentOffset
  buf := fun _ => 0
  bufSize := i32 bufSize
  bufPos := 0
  bufLeft := 0
  filePos := fpos
  nreads := 0
  wrapped := false

/-- `read(fd, buf + dst, rsize)`: the parser afterwards and `nread`. -/
def readInto (file : ByteStore) (reads : Nat → ReadResult) (p : Parser) (dst rsize : Nat) :
    Parser × Nat :=
  match reads p.nreads with
  | .bytes n =>
    let k := min (max n 1) rsize
    ({ p with
        buf := store p.buf dst (slice file p.filePos k)
        filePos := p.filePos + k
        nreads := p.nreads + 1 }, k)
  | .eof => ({ p with nreads := p.nreads + 1 }, 0)
  | .eintr => ({ p with nreads := p.nreads + 1 }, u64 (-1))
  | .error => ({ p with nreads := p.nreads + 1 }, u64 (-1))

/-- `parser->fpos += nread` -/
def Parser.advance (p : Parser) (nread : Nat) : Parser :=
  { p with
    fpos := i32 (p.fpos + nread)
    wrapped := p.wrapped || decide (p.fpos + nread ≠ i32 (p.fpos + nread)) }

/-- The result of a call; where C does not define what happens it is `undefined`. -/
inductive ParseResult where
  | more (p : Parser) (index : List IndexEntry)
  | finished (p : Parser)
  | failed (p : Parser)
  | aborted
  | undefined

/-- `memmove` what is left to the front of the buffer -/
def Parser.shift (p : Parser) : Parser :=
  { p with
    buf := if p.bufLeft > 0 then store p.buf 0 (slice p.buf p.bufPos p.bufLeft.toNat) else p.buf
    bufPos := 0 }

/-- "read data to buffer if there is not enough data" -/
def refill (file : ByteStore) (reads : Nat → ReadResult) (p : Parser) :
    Except ParseResult Parser :=
  if p.bufLeft < fileMetaSize then
    let p := p.shift
    let fleft := i32 (p.chunkOffset - p.fpos)
    if fleft ≤ 0 then .error (.failed p)
    else
      let bufFree := p.bufSize - p.bufLeft
      -- an `int` that overflows
      if bufFree ≠ i32 bufFree then .error .undefined
      else
        let rsize := u64 (if fleft < bufFree then fleft else bufFree)
        let r := readInto file reads p p.bufLeft.toNat rsize
        -- `nread` is unsigned: only end of file is `<= 0`, and no EINTR is retried
        if r.2 = 0 then .error (.failed r.1)
        -- the destination `buf + buf_left` lies before the buffer
        else if p.bufLeft < 0 ∧ p.filePos < r.1.filePos then .error .undefined
        else .ok { r.1.advance r.2 with bufLeft := i32 (r.1.bufLeft + r.2) }
  else .ok p

/-- The loop `while (cur_fleft > 0)` over a body that is not all in the buffer;
`.error` is `return -1`. Called with `cur_fleft` as its bound. -/
def parseBody (file : ByteStore) (reads : Nat → ReadResult) :
    Nat → Parser → Int → Except Parser Parser
  | 0, p, _ => .ok p
  | n + 1, p, curFleft =>
    if curFleft > 0 then
      let fleft := i32 (p.chunkOffset - p.fpos)
      if fleft ≤ 0 then .error p
      else
        let rsize := u64 (if fleft < p.bufSize then fleft else p.bufSize)
        let r := readInto file reads p 0 rsize
        if r.2 = 0 then .error r.1
        else
          let p := r.1.advance r.2
          if u64 curFleft > r.2 then
            parseBody file reads n { p with bufPos := 0, bufLeft := 0 } (i32 (curFleft - r.2))
          else
            parseBody file reads n
              { p with bufPos := curFleft.toNat, bufLeft := i32 (i32 r.2 - curFleft) } 0
    else .ok p

/-- `spy_add_file_index`; `none` is its assertion that the fid is new. -/
def spyAddFileIndex (index : List IndexEntry) (e : IndexEntry) : Option (List IndexEntry) :=
  if index.any (fun t => t.fid == e.fid) then none else some (e :: index)

/-- "add memory index": the start offset is computed backwards from `fpos`. -/
def addIndex (p : Parser) (fid : UInt64) (size : Nat) (index : List IndexEntry) : ParseResult :=
  match spyAddFileIndex index
      ⟨p.chunkId, fid, u64 (p.fpos - size - fileMetaSize - p.bufLeft),
        u32 (size + fileMetaSize)⟩ with
  | some index => .more p index
  | none => .aborted

/-- The header at `buf_pos`, then the body, in the buffer or behind it; the
assertion is that the buffer holds a whole header. -/
def parseRecord (file : ByteStore) (reads : Nat → ReadResult) (p : Parser)
    (index : List IndexEntry) : ParseResult :=
  if p.bufLeft ≥ fileMetaSize then
    let hdr := parseFileMeta (slice p.buf p.bufPos fileMetaSize)
    let p := { p with bufPos := p.bufPos + fileMetaSize, bufLeft := p.bufLeft - fileMetaSize }
    if u64 p.bufLeft < hdr.size then
      let curFleft := i32 (hdr.size - p.bufLeft)
      match parseBody file reads curFleft.toNat p curFleft with
      | .error p => .failed p
      | .ok p => addIndex p hdr.fid hdr.size index
    else
      addIndex { p with bufPos := p.bufPos + hdr.size, bufLeft := p.bufLeft - hdr.size }
        hdr.fid hdr.size index
  else .aborted

def spyParseNextFile (file : ByteStore) (reads : Nat → ReadResult) (p : Parser)
    (index : List IndexEntry) : ParseResult :=
  if u64 p.fpos ≥ p.chunkOffset ∧ p.bufLeft = 0 then .finished p
  else match refill file reads p with
  | .error r => r
  | .ok p => parseRecord file reads p index

inductive LoopResult where
  | stopped (result : Int) (p : Parser) (index : List IndexEntry)
  | aborted
  | undefined
  | outOfFuel

/-- `while (result = spy_parse_next_file(parser))`, at most `fuel` calls. -/
def parseLoop (file : ByteStore) (reads : Nat → ReadResult) :
    Nat → Parser → List IndexEntry → LoopResult
  | 0, _, _ => .outOfFuel
  | n + 1, p, index => match spyParseNextFile file reads p index with
    | .more p index => parseLoop file reads n p index
    | .finished p => .stopped 0 p index
    | .failed p => .stopped (-1) p index
    | .aborted => .aborted
    | .undefined => .undefined

/-! ## Setting a chunk up -/

/-- What start-up has put together so far: `server.chunks` (newest first), the
file index and `server.max_chunk_id`. -/
structure Recovered where
  chunks : List Chunk
  fileIndex : List IndexEntry
  maxChunkId : UInt64
  deriving DecidableEq, Repr

inductive SetupResult where
  | accepted (st : Recovered)
  | exited
  | aborted
  | undefined
  | outOfFuel
  deriving DecidableEq, Repr

/-- `spy_add_chunk`; `none` is its assertion that the chunk id is new. -/
def spyAddChunk (st : Recovered) (chunk : Chunk) : Option Recovered :=
  if st.chunks.any (fun c => c.chunkId == chunk.chunkId) then none
  else some { st with chunks := chunk :: st.chunks }

/-- More calls than any chunk file can need. -/
@[simp] def parseFuel : Nat := 2 ^ 31

/-- The end of `spy_setup_chunk`: a result of -1 is only logged; what counts is
how far `fpos` came. -/
def acceptStopped (chunk : Chunk) (st : Recovered) : LoopResult → SetupResult
  | .aborted => .aborted
  | .undefined => .undefined
  | .outOfFuel => .outOfFuel
  | .stopped _ p index =>
    if u64 p.fpos < chunk.currentOffset then .exited
    else match spyAddChunk { st with fileIndex := index } chunk with
      | none => .aborted
      | some st => .accepted st

/-- `spy_setup_chunk` on a file of `size` bytes; the superblock's own `read()`
returns all 55 bytes. -/
def spySetupChunk (file : ByteStore) (size : Nat) (reads : Nat → ReadResult) (st : Recovered) :
    SetupResult :=
  match spyParseChunkSuperblock (slice file 0 superblockSize) (spyAllocChunk 0 (u32 size)) with
  | none => .aborted
  | some chunk =>
    let st := { st with
      maxChunkId := if st.maxChunkId < chunk.chunkId then chunk.chunkId else st.maxChunkId }
    let parser := spyAllocFileParser chunk superblockSize bufferSize
    acceptStopped chunk st (parseLoop file reads parseFuel parser st.fileIndex)

end Speedy.Chunkserver
