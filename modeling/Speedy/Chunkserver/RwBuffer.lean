import Speedy.Chunkserver.Format

/-! # Request and response buffers

`spy_rw_buffer_t` is a chain of memory blocks of one size with a read and a
write position. What its users see is flat: the bytes stored below `write_pos`,
the read position and the number of blocks. Block borders only show in how much
one `next_readable` or `next_writeable` offers. -/
namespace Speedy.Chunkserver
open Speedy.Lib

/-- The room of one block: `MEM_BLOCK_SIZE - sizeof(spy_mem_block_t)` -/
@[simp] def memBlockRoom : Nat := 1048552

structure RwBuffer where
  data : Bytes
  readPos : Nat
  blocks : Nat
  deriving DecidableEq, Repr

namespace RwBuffer

def writePos (b : RwBuffer) : Nat := b.data.length

def cap (b : RwBuffer) : Nat := memBlockRoom * b.blocks

/-- The bytes from `read_pos` on. -/
def unread (b : RwBuffer) : Bytes := b.data.drop b.readPos

/-- `read_pos += n` -/
def skip (b : RwBuffer) (n : Nat) : RwBuffer := { b with readPos := b.readPos + n }

/-- Bytes stored at the area `next_writeable` returned, and `write_pos` moved. -/
def put (b : RwBuffer) (bs : Bytes) : RwBuffer := { b with data := b.data ++ bs }

@[simp] theorem skip_data (b : RwBuffer) (n : Nat) : (b.skip n).data = b.data := rfl
@[simp] theorem skip_readPos (b : RwBuffer) (n : Nat) : (b.skip n).readPos = b.readPos + n := rfl
@[simp] theorem skip_unread (b : RwBuffer) (n : Nat) : (b.skip n).unread = b.unread.drop n := by
  simp [unread, skip, List.drop_drop]
@[simp] theorem skip_zero (b : RwBuffer) : b.skip 0 = b := rfl
@[simp] theorem put_data (b : RwBuffer) (bs : Bytes) : (b.put bs).data = b.data ++ bs := rfl

end RwBuffer

/-- `spy_rw_buffer_init`, and `spy_rw_buffer_reset` for what it leaves in the buffer -/
def spyRwBufferInit : RwBuffer := ⟨[], 0, 0⟩

/-- The next readable area; `none` is the return value -1. -/
def spyRwBufferNextReadable (b : RwBuffer) : Option Bytes :=
  if b.readPos = b.writePos then none
  else some (b.unread.take (memBlockRoom - b.readPos % memBlockRoom))

/-- The size of the next writeable area; `none` is the return value -1. -/
def spyRwBufferNextWriteable (b : RwBuffer) : Option Nat :=
  if b.writePos = b.cap then none else some (memBlockRoom - b.writePos % memBlockRoom)

def spyRwBufferReadN (b : RwBuffer) (size : Nat) : Bytes × RwBuffer :=
  (b.unread.take size, b.skip (b.unread.take size).length)

def spyRwBufferWriteN (b : RwBuffer) (buf : Bytes) : Nat × RwBuffer :=
  ((buf.take (b.cap - b.writePos)).length, b.put (buf.take (b.cap - b.writePos)))

theorem unread_length (b : RwBuffer) : b.unread.length = b.writePos - b.readPos :=
  List.length_drop ..

/-- An area is never empty and is what is read next. -/
theorem spyRwBufferNextReadable_some {b : RwBuffer} {area : Bytes}
    (h : spyRwBufferNextReadable b = some area) (hle : b.readPos ≤ b.writePos) :
    ∃ n, 0 < n ∧ area = b.unread.take n ∧ area ≠ [] := by
  unfold spyRwBufferNextReadable at h
  split at h
  · cases h
  · rename_i hne
    have hpos : 0 < memBlockRoom - b.readPos % memBlockRoom := by
      have := Nat.mod_lt b.readPos (show 0 < memBlockRoom by decide)
      omega
    refine ⟨_, hpos, (Option.some.inj h).symm, ?_⟩
    rw [← Option.some.inj h]
    intro hnil
    have hlen := congrArg List.length hnil
    simp only [List.length_take, List.length_nil, RwBuffer.unread, List.length_drop] at hlen
    unfold RwBuffer.writePos at hle hne
    omega

theorem spyRwBufferNextReadable_none {b : RwBuffer} (h : spyRwBufferNextReadable b = none) :
    b.unread = [] := by
  unfold spyRwBufferNextReadable at h
  split at h
  · rename_i heq
    simp [RwBuffer.unread, heq, RwBuffer.writePos]
  · cases h

/-! ## The checksum of a buffer -/

/-- `while (left > 0)` of `spy_buffer_adler32`, one round per readable area. -/
def bufferSums : Nat → Nat × Nat → RwBuffer → Nat → Option (Nat × Nat)
  | 0, st, _, _ => some st
  | n + 1, st, b, left =>
    if left > 0 then
      match spyRwBufferNextReadable b with
      | none => none
      | some area =>
        bufferSums n (adlerArea st (area.take left)) (b.skip (area.take left).length)
          (left - (area.take left).length)
    else some st

/-- `none` is a failed assertion. The read position is reset at the end, so the
buffer is as before. -/
def spyBufferAdler32 (adler : Nat) (b : RwBuffer) (len : Nat) : Option Nat :=
  if b.writePos - b.readPos ≥ len then
    (bufferSums len (components adler) b len).map recombine
  else none

end Speedy.Chunkserver
