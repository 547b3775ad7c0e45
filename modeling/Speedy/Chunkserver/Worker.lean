import Speedy.Chunkserver.Parser
import Speedy.Chunkserver.RwBuffer

/-! # What the workers run

`spy_write_file`, `spy_read_file` and `spy_check_chunk` as machines that take one
`pwrite()` or `pread()` per step, since the event loop and the other workers run
in between. An I/O call's outcome is an input. -/
namespace Speedy.Chunkserver
open Speedy.Lib

/-! ## `spy_write_file` -/

/-- The outcome of `spy_pwrite`: all bytes, or an error after `k` of them. -/
inductive Pwrite where
  | full
  | short (k : Nat)
  deriving DecidableEq, Repr

/-- The file afterwards, and whether the return value is the count asked for. -/
def spyPwrite (disk : ByteStore) (buf : Bytes) (offset : Nat) : Pwrite → ByteStore × Bool
  | .full => (store disk offset buf, true)
  | .short k => (store disk offset (buf.take (min k (buf.length - 1))), false)

/-- Where `spy_write_file` stands. -/
inductive WritePc where
  | header
  | body (offset : Nat) (left : Int)
  | commit
  | finished (retcode : Int)
  deriving DecidableEq, Repr

/-- What a run of `spy_write_file` reads and changes: the chunk's file, the
chunk, and the request buffer of the connection. -/
structure WriteRun where
  pc : WritePc
  disk : ByteStore
  chunk : Chunk
  request : RwBuffer

/-- The test at the head of the body loop and the one behind it. -/
def bodyOrEnd (offset : Nat) (left : Int) : WritePc :=
  if left > 0 then .body offset left else if left ≠ 0 then .finished (-1) else .commit

/-- `current_offset`, `avail_space` and the counters of a chunk that got a file
of `size` bytes; the sum with `FILE_META_SIZE` is a 32-bit one. -/
def Chunk.commit (c : Chunk) (size : Nat) : Chunk :=
  { c with
    currentOffset := u64 (c.currentOffset + u32 (size + fileMetaSize))
    availSpace := u64 (c.availSpace - u32 (size + fileMetaSize))
    filesAlloc := u32 (c.filesAlloc + 1)
    filesCount := u32 (c.filesCount + 1) }

/-- One `pwrite()` of `spy_write_file` for this file at this offset; `none` is a
failed assertion. The superblock's own outcome and that of the `fsync()` behind
it are only logged. -/
def spyWriteFileStep (file : SpyFile) (offset : Nat) (io : Pwrite) (now : Nat) (r : WriteRun) :
    Option WriteRun :=
  match r.pc with
  | .header =>
    match spyBufferAdler32 0 r.request file.size with
    | none => none
    | some sum =>
      let w := spyPwrite r.disk (fillFileMeta { file with checksum := sum, timestamp := now })
        offset io
      some { r with
        disk := w.1
        pc := if w.2 then bodyOrEnd (offset + fileMetaSize) (i32 file.size) else .finished (-1) }
  | .body off left =>
    match spyRwBufferNextReadable r.request with
    | none => some { r with pc := .finished (-1) }
    | some area =>
      let piece := area.take left.toNat
      let w := spyPwrite r.disk piece off io
      if w.2 then
        some { r with
          disk := w.1
          request := r.request.skip piece.length
          pc := bodyOrEnd (off + piece.length) (left - piece.length) }
      else some { r with disk := w.1, pc := .finished (-1) }
  | .commit =>
    let chunk := r.chunk.commit file.size
    let w := spyPwrite r.disk (spyFillSuperblock chunk) 0 io
    some { r with disk := w.1, chunk := chunk, pc := .finished 0 }
  | .finished _ => some r

/-! ## `spy_read_file` and `spy_check_chunk` -/

/-- The outcome of `spy_pread`. -/
inductive Pread where
  | full
  | failed
  deriving DecidableEq, Repr

inductive ReadPc where
  | start
  | loop (left offset : Nat)
  | finished (retcode : Int)
  deriving DecidableEq, Repr

/-- What a run of `spy_read_file` changes: the response buffer of the
connection, and the job's file. -/
structure ReadRun where
  pc : ReadPc
  rspBody : RwBuffer
  file : SpyFile
  deriving DecidableEq, Repr

/-- The part of `spy_read_file` behind its loop. -/
def spyReadFileCheck (index : IndexEntry) (r : ReadRun) : Option ReadRun :=
  let (filemeta, rspBody) := spyRwBufferReadN r.rspBody fileMetaSize
  if filemeta.length = fileMetaSize then
    let file := parseFileMeta filemeta
    match spyBufferAdler32 0 rspBody (u32 (index.size - fileMetaSize)) with
    | none => none
    | some sum =>
      some ⟨.finished (if file.fid ≠ index.fid ∨ file.checksum ≠ sum then -1 else 0), rspBody, file⟩
  else none

/-- One `pread()` of `spy_read_file`; `none` is a failed assertion. -/
def spyReadFileStep (index : IndexEntry) (disk : ByteStore) (io : Pread) (r : ReadRun) :
    Option ReadRun :=
  match r.pc with
  | .start =>
    if r.rspBody.cap ≥ index.size then some { r with pc := .loop index.size index.offset }
    else none
  | .loop left offset =>
    if left > 0 then
      match spyRwBufferNextWriteable r.rspBody with
      | none => none
      | some len =>
        match io with
        | .full =>
          some { r with
            rspBody := r.rspBody.put (slice disk offset (min left len))
            pc := .loop (left - min left len) (offset + min left len) }
        | .failed => some { r with pc := .finished (-1) }
    else spyReadFileCheck index r
  | .finished _ => some r

/-- `spy_check_chunk`: the return code for the outcome of its one `pread()`. -/
def spyCheckChunk : Pread → Int
  | .full => 0
  | .failed => -1

end Speedy.Chunkserver
