import Speedy.Lib.Blocks
import Speedy.Lib.Queue
import Speedy.Lib.Run
import Speedy.Chunkserver.Checksum
import Speedy.Chunkserver.Server

/-! # The blocks behind a buffer

`spy_rw_buffer_t` as the source has it: a list of blocks, positions, and for each
position the block it is in and the place where that block begins. A pointer to a
block is its number in the list; blocks are only added at the end. Whatever sizes
the blocks have, the chain is a queue of bytes with a read cursor: no assertion of
`spy_rw_buffer.c` fails, no pointer leaves the list, and block borders only show in
how much one area offers. -/
namespace Speedy.Chunkserver
open Speedy.Lib

/-- `spy_mem_block_t`; every block has room for something. -/
structure MemBlock where
  buf : Bytes
  roomy : 0 < buf.length

def MemBlock.size (block : MemBlock) : Nat := block.buf.length

/-- Bytes copied into the block, from `off` on. -/
def MemBlock.store (block : MemBlock) (off : Nat) (bs : Bytes)
    (h : off + bs.length ≤ block.size) : MemBlock :=
  ⟨overwrite block.buf off bs, by rw [overwrite_length h]; exact block.roomy⟩

structure RwChain where
  memBlocks : List MemBlock
  readPos : Nat
  writePos : Nat
  cap : Nat
  readBlock : Option Nat
  writeBlock : Option Nat
  readBase : Nat
  writeBase : Nat

namespace RwChain

/-- `spy_rw_buffer_init` -/
def init : RwChain := ⟨[], 0, 0, 0, none, none, 0, 0⟩

/-- `spy_rw_buffer_reset`; the blocks go back to the server's free ones. -/
def reset (_ : RwChain) : RwChain where
  memBlocks := []
  readPos := 0
  readBase := 0
  writePos := 0
  writeBase := 0
  cap := 0
  readBlock := none
  writeBlock := none

/-- `spy_rw_buffer_expand` once it has a block. -/
def expand (b : RwChain) (block : MemBlock) : Except Fault RwChain :=
  if b.memBlocks.isEmpty then
    if b.readBlock.isNone ∧ b.writeBlock.isNone then
      .ok { b with
        readBlock := some 0
        writeBlock := some 0
        memBlocks := b.memBlocks ++ [block]
        cap := b.cap + block.size }
    else .error .assertion
  else .ok { b with memBlocks := b.memBlocks ++ [block], cap := b.cap + block.size }

/-- `while (buffer->read_base + mem_block->size < pos)` over the blocks from the
`k`-th on -/
def seek (pos : Nat) : List MemBlock → Nat → Nat → Except Fault (Nat × Nat)
  | [], _, _ => .error .wildPointer
  | block :: rest, k, base =>
    if base + block.size < pos then seek pos rest (k + 1) (base + block.size) else .ok (k, base)

/-- `spy_rw_buffer_reset_read` -/
def resetRead (b : RwChain) (pos : Nat) : Except Fault RwChain :=
  if pos ≤ b.writePos then
    if b.memBlocks.isEmpty then
      if pos = 0 then .ok { b with readBlock := none, readBase := 0, readPos := 0 }
      else .error .assertion
    else do
      let (k, base) ← seek pos b.memBlocks 0 0
      return { b with readBlock := some k, readBase := base, readPos := pos }
  else .error .assertion

/-- The block `pos` is in: the current one, or the next one if `pos` is its end. -/
def jump (blocks : List MemBlock) (cur : Option Nat) (base pos : Nat) :
    Except Fault (Nat × Nat × MemBlock) :=
  match cur with
  | none => .error .wildPointer
  | some k => match blocks[k]? with
    | none => .error .wildPointer
    | some block =>
      if base + block.size = pos then match blocks[k + 1]? with
        | none => .error .wildPointer
        | some next => .ok (k + 1, base + block.size, next)
      else .ok (k, base, block)

/-- `spy_rw_buffer_next_readable` -/
def nextReadable (b : RwChain) : Except Fault (Option Bytes × RwChain) :=
  if b.readPos = b.writePos then .ok (none, b)
  else if b.readBlock.isNone then .error .assertion
  else do
    let (k, base, block) ← jump b.memBlocks b.readBlock b.readBase b.readPos
    let size := min (base + block.size - b.readPos) (b.writePos - b.readPos)
    return (some ((block.buf.drop (b.readPos - base)).take size),
      { b with readBlock := some k, readBase := base })

/-- `spy_rw_buffer_next_writeable` -/
def nextWriteable (b : RwChain) : Except Fault (Option Nat × RwChain) :=
  if b.writePos = b.cap then .ok (none, b)
  else do
    let (k, base, block) ← jump b.memBlocks b.writeBlock b.writeBase b.writePos
    return (some (base + block.size - b.writePos),
      { b with writeBlock := some k, writeBase := base })

/-- `read_pos += n` -/
def skip (b : RwChain) (n : Nat) : RwChain := { b with readPos := b.readPos + n }

/-- Bytes stored at the area `next_writeable` returned, and `write_pos` moved. -/
def put (b : RwChain) (bs : Bytes) : Except Fault RwChain :=
  match b.writeBlock with
  | none => .error .wildPointer
  | some k => match b.memBlocks[k]? with
    | none => .error .wildPointer
    | some block =>
      if h : b.writePos - b.writeBase + bs.length ≤ block.size then
        .ok { b with
          memBlocks := b.memBlocks.set k (block.store (b.writePos - b.writeBase) bs h)
          writePos := b.writePos + bs.length }
      else .error .wildPointer

/-- `while (left > 0 && data_len > 0)`, at most `fuel` rounds -/
def readLoop : Nat → Nat → RwChain → Except Fault (Bytes × RwChain)
  | 0, _, b => .ok ([], b)
  | fuel + 1, left, b =>
    if left > 0 ∧ b.writePos - b.readPos > 0 then do
      let (k, base, block) ← jump b.memBlocks b.readBlock b.readBase b.readPos
      let readable := min b.writePos (base + block.size) - b.readPos
      let nread := min readable left
      let bytes := (block.buf.drop (b.readPos - base)).take nread
      let (rest, b) ← readLoop fuel (left - nread)
        { b with readBlock := some k, readBase := base, readPos := b.readPos + nread }
      return (bytes ++ rest, b)
    else .ok ([], b)

/-- `spy_rw_buffer_read_n`; a round reads at least one byte. -/
def readN (b : RwChain) (size : Nat) : Except Fault (Bytes × RwChain) := readLoop size size b

/-- `while (left > 0)` of `spy_rw_buffer_write_n`, at most `fuel` rounds -/
def writeLoop : Nat → Bytes → RwChain → Except Fault (Nat × RwChain)
  | 0, _, b => .ok (0, b)
  | fuel + 1, buf, b =>
    if buf.length > 0 then do
      let (area, b) ← b.nextWriteable
      match area with
      | none => return (0, b)
      | some len =>
        let b ← b.put (buf.take (min len buf.length))
        let (n, b) ← writeLoop fuel (buf.drop (min len buf.length)) b
        return (min len buf.length + n, b)
    else .ok (0, b)

/-- `spy_rw_buffer_write_n` -/
def writeN (b : RwChain) (buf : Bytes) : Except Fault (Nat × RwChain) := writeLoop buf.length buf b

/-- `while (left > 0)` of `spy_buffer_adler32`, at most `fuel` rounds -/
def sums : Nat → Nat × Nat → RwChain → Nat → Except Fault ((Nat × Nat) × RwChain)
  | 0, st, b, _ => .ok (st, b)
  | fuel + 1, st, b, left =>
    if left > 0 then do
      let (area, b) ← b.nextReadable
      match area with
      | none => throw .assertion
      | some area =>
        sums fuel (adlerArea st (area.take left)) (b.skip (area.take left).length)
          (left - (area.take left).length)
    else .ok (st, b)

/-- `spy_buffer_adler32` -/
def adler32 (adler : Nat) (b : RwChain) (len : Nat) : Except Fault (Nat × RwChain) :=
  if b.writePos - b.readPos ≥ len then do
    let (st, b') ← sums len (components adler) b len
    let b' ← b'.resetRead b.readPos
    return (recombine st, b')
  else .error .assertion

end RwChain

/-! ## Uses -/

/-- What the server does with a buffer: room is added, some bytes of the next readable
area are consumed, bytes are stored in the next writeable area, or one of the functions
over all blocks is called. -/
inductive RwOp where
  | expand (block : MemBlock)
  | consume (n : Nat)
  | fill (bs : Bytes)
  | readN (size : Nat)
  | writeN (buf : Bytes)
  | adler32 (adler len : Nat)
  | resetRead (pos : Nat)
  | reset

/-- What the caller gets back. -/
inductive RwReturn where
  | done
  | readable (area : Option Bytes)
  | writeable (len : Option Nat)
  | bytes (bytes : Bytes)
  | written (n : Nat)
  | checksum (sum : Nat)

def RwChain.call (c : RwChain) : RwOp → Except Fault (RwReturn × RwChain)
  | .expand block => return (.done, ← c.expand block)
  | .consume n => do
    let (area, c) ← c.nextReadable
    match area with
    | none => return (.readable none, c)
    | some area => return (.readable (some area), c.skip (min n area.length))
  | .fill bs => do
    let (area, c) ← c.nextWriteable
    match area with
    | none => return (.writeable none, c)
    | some len => return (.writeable (some len), ← c.put (bs.take len))
  | .readN size => do
    let (bytes, c) ← c.readN size
    return (.bytes bytes, c)
  | .writeN buf => do
    let (n, c) ← c.writeN buf
    return (.written n, c)
  | .adler32 adler len => do
    let (sum, c) ← RwChain.adler32 adler c len
    return (.checksum sum, c)
  | .resetRead pos => return (.done, ← c.resetRead pos)
  | .reset => return (.done, c.reset)

def RwChain.apply (c : RwChain) (op : RwOp) : Except Fault RwChain := return (← c.call op).2

/-! ## The queue of a chain -/

namespace RwChain

def sizes (c : RwChain) : List Nat := c.memBlocks.map MemBlock.size

def bufs (c : RwChain) : List Bytes := c.memBlocks.map MemBlock.buf

/-- What was stored, the read position, and the room of all blocks together. -/
def queue (c : RwChain) : Queue UInt8 := ⟨c.bufs.flatten.take c.writePos, c.readPos, c.cap⟩

end RwChain

/-- A position is in the block its pointer names, or at the end of it. -/
def InBlock (blocks : List MemBlock) (cur : Option Nat) (base pos : Nat) : Prop :=
  match cur with
  | none => blocks = [] ∧ base = 0
  | some k => ∃ block, blocks[k]? = some block ∧ base = blockStart (blocks.map MemBlock.buf) k ∧
      base ≤ pos ∧ pos ≤ base + block.size

structure RwChain.Sound (c : RwChain) : Prop where
  cap : c.cap = c.bufs.flatten.length
  read_le : c.readPos ≤ c.writePos
  write_le : c.writePos ≤ c.cap
  read : InBlock c.memBlocks c.readBlock c.readBase c.readPos
  write : InBlock c.memBlocks c.writeBlock c.writeBase c.writePos

/-- What an operation makes of a chain. -/
structure RwChain.Becomes (c c' : RwChain) (q : Queue UInt8) : Prop where
  sound : c'.Sound
  queue : c'.queue = q
  sizes : c'.sizes = c.sizes

theorem RwChain.init_sound : RwChain.init.Sound :=
  ⟨rfl, Nat.le_refl _, Nat.le_refl _, ⟨rfl, rfl⟩, ⟨rfl, rfl⟩⟩

section Sound
variable {c c' : RwChain} {blocks : List MemBlock} {block : MemBlock} {cur : Option Nat}
  {base pos k : Nat} {q : Queue UInt8}

theorem bufs_getElem? (hk : blocks[k]? = some block) :
    (blocks.map MemBlock.buf)[k]? = some block.buf := by
  rw [List.getElem?_map, hk]
  rfl

/-- Below the end of the chain there is a block to jump to. -/
theorem jump_inBlock (h : InBlock blocks cur base pos)
    (hpos : pos < (blocks.map MemBlock.buf).flatten.length) :
    ∃ k block, RwChain.jump blocks cur base pos =
        .ok (k, blockStart (blocks.map MemBlock.buf) k, block) ∧
      blocks[k]? = some block ∧ blockStart (blocks.map MemBlock.buf) k ≤ pos ∧
      pos < blockStart (blocks.map MemBlock.buf) k + block.size := by
  cases cur with
  | none =>
    obtain ⟨rfl, -⟩ := h
    exact absurd hpos (Nat.not_lt_zero pos)
  | some k =>
    obtain ⟨block, hk, rfl, hlo, hhi⟩ := h
    unfold RwChain.jump
    simp only [hk]
    by_cases hend : blockStart (blocks.map MemBlock.buf) k + block.size = pos
    · -- the position is the end of its block, and the next block is there
      have hsucc := blockStart_succ (bufs_getElem? hk)
      have hend' : blockStart (blocks.map MemBlock.buf) (k + 1) = pos := hsucc.trans hend
      have hnext : k + 1 < blocks.length := by
        refine Nat.lt_of_le_of_ne (List.getElem?_eq_some_iff.mp hk).1 fun he => ?_
        have hall : blockStart (blocks.map MemBlock.buf) blocks.length =
            (blocks.map MemBlock.buf).flatten.length := by
          rw [← blockStart_length, List.length_map]
        rw [← he, hend'] at hall
        omega
      rw [if_pos hend, List.getElem?_eq_getElem hnext]
      refine ⟨k + 1, _, ?_, List.getElem?_eq_getElem hnext, Nat.le_of_eq hend', ?_⟩
      · rw [hsucc]
        rfl
      · rw [hend']
        exact Nat.lt_add_of_pos_right (MemBlock.roomy _)
    · rw [if_neg hend]
      exact ⟨k, _, rfl, hk, hlo, Nat.lt_of_le_of_ne hhi (Ne.symm hend)⟩

theorem inBlock_some (hk : blocks[k]? = some block)
    (hlo : blockStart (blocks.map MemBlock.buf) k ≤ pos)
    (hhi : pos ≤ blockStart (blocks.map MemBlock.buf) k + block.size) :
    InBlock blocks (some k) (blockStart (blocks.map MemBlock.buf) k) pos :=
  ⟨block, hk, rfl, hlo, hhi⟩

theorem InBlock.of_nil (h : InBlock blocks cur base pos) (hnil : blocks = []) :
    cur = none ∧ base = 0 := by
  cases cur with
  | none => exact ⟨rfl, h.2⟩
  | some k =>
    obtain ⟨block, hk, -⟩ := h
    rw [hnil] at hk
    cases hk

theorem InBlock.grow (h : InBlock blocks cur base pos) (hne : blocks ≠ [])
    (block : MemBlock) : InBlock (blocks ++ [block]) cur base pos := by
  cases cur with
  | none => exact absurd h.1 hne
  | some k =>
    obtain ⟨old, hk, hbase, hlo, hhi⟩ := h
    have hlt := (List.getElem?_eq_some_iff.mp hk).1
    refine ⟨old, ?_, ?_, hlo, hhi⟩
    · rw [List.getElem?_append_left hlt]
      exact hk
    · rw [List.map_append, blockStart_append _ (by rw [List.length_map]; exact Nat.le_of_lt hlt)]
      exact hbase

/-- Bytes stored in a block move no block. -/
theorem InBlock.set (h : InBlock blocks cur base pos) {new : MemBlock}
    (hk : blocks[k]? = some block) (hsize : new.size = block.size) :
    InBlock (blocks.set k new) cur base pos := by
  cases cur with
  | none =>
    rw [h.1] at hk
    cases hk
  | some j =>
    obtain ⟨old, hj, hbase, hlo, hhi⟩ := h
    have hstart : blockStart ((blocks.set k new).map MemBlock.buf) j =
        blockStart (blocks.map MemBlock.buf) j := by
      rw [List.map_set]
      exact blockStart_set (bufs_getElem? hk) hsize j
    by_cases hjk : k = j
    · subst hjk
      obtain rfl := Option.some.inj (hj.symm.trans hk)
      have hlt := (List.getElem?_eq_some_iff.mp hk).1
      refine ⟨new, List.getElem?_set_self hlt, hbase.trans hstart.symm, hlo, ?_⟩
      rw [hsize]
      exact hhi
    · refine ⟨old, ?_, hbase.trans hstart.symm, hlo, hhi⟩
      rw [List.getElem?_set_ne hjk]
      exact hj

/-! ## Operations -/

namespace RwChain.Sound

theorem data_length (h : c.Sound) : c.queue.data.length = c.writePos := by
  unfold RwChain.queue
  rw [List.length_take, ← h.cap]
  exact Nat.min_eq_left h.write_le

theorem unread_length (h : c.Sound) : c.queue.unread.length = c.writePos - c.readPos := by
  rw [Queue.unread_length, h.data_length]
  rfl

theorem room_eq (h : c.Sound) : c.queue.room = c.cap - c.writePos := by
  unfold Queue.room
  rw [h.data_length]
  rfl

theorem unread_eq_nil (h : c.Sound) : c.queue.unread = [] ↔ c.readPos = c.writePos := by
  have hle := h.read_le
  rw [← List.length_eq_zero_iff, h.unread_length]
  omega

theorem expand (h : c.Sound) (block : MemBlock) :
    ∃ c', c.expand block = .ok c' ∧ c'.Sound ∧ c'.queue = c.queue.expand block.size ∧
      c'.sizes = c.sizes ++ [block.size] := by
  have hbufs : ((c.memBlocks ++ [block]).map MemBlock.buf).flatten =
      c.bufs.flatten ++ block.buf := by
    rw [List.map_append, List.flatten_append]
    exact congrArg (c.bufs.flatten ++ ·) (List.append_nil block.buf)
  have hcap : c.cap + block.size = ((c.memBlocks ++ [block]).map MemBlock.buf).flatten.length := by
    rw [hbufs, List.length_append, h.cap]
    rfl
  have hdata : ((c.memBlocks ++ [block]).map MemBlock.buf).flatten.take c.writePos =
      c.bufs.flatten.take c.writePos := by
    rw [hbufs]
    exact List.take_append_of_le_length (h.cap ▸ h.write_le)
  have hroom : c.writePos ≤ c.cap + block.size := Nat.le_trans h.write_le (Nat.le_add_right _ _)
  have hsizes : (c.memBlocks ++ [block]).map MemBlock.size = c.sizes ++ [block.size] :=
    List.map_append
  unfold RwChain.expand
  by_cases hnil : c.memBlocks = []
  · obtain ⟨hread, hrbase⟩ := h.read.of_nil hnil
    obtain ⟨hwrite, hwbase⟩ := h.write.of_nil hnil
    have hzero : c.cap = 0 := by
      rw [h.cap, RwChain.bufs, hnil]
      rfl
    have hwpos : c.writePos = 0 := Nat.le_zero.mp (hzero ▸ h.write_le)
    have hrpos : c.readPos = 0 := Nat.le_zero.mp (hwpos ▸ h.read_le)
    have hfirst : InBlock (c.memBlocks ++ [block]) (some 0) 0 0 := by
      rw [hnil]
      exact ⟨block, rfl, rfl, Nat.le_refl _, Nat.zero_le _⟩
    rw [if_pos (List.isEmpty_iff.mpr hnil), hread, hwrite, if_pos ⟨rfl, rfl⟩]
    refine ⟨_, rfl, ⟨hcap, h.read_le, hroom, ?_, ?_⟩, ?_, hsizes⟩
    · show InBlock _ (some 0) c.readBase c.readPos
      rw [hrbase, hrpos]
      exact hfirst
    · show InBlock _ (some 0) c.writeBase c.writePos
      rw [hwbase, hwpos]
      exact hfirst
    · exact congrArg (fun data => Queue.mk data c.readPos (c.cap + block.size)) hdata
  · rw [if_neg (fun he => hnil (List.isEmpty_iff.mp he))]
    refine ⟨_, rfl, ⟨hcap, h.read_le, hroom, h.read.grow hnil block, h.write.grow hnil block⟩, ?_,
      hsizes⟩
    exact congrArg (fun data => Queue.mk data c.readPos (c.cap + block.size)) hdata

end RwChain.Sound

/-- `seek` over the blocks behind the first `k`. -/
theorem seek_inBlock (before behind : List MemBlock) (hne : behind ≠ [])
    (hlo : (before.map MemBlock.buf).flatten.length ≤ pos)
    (hhi : pos ≤ ((before ++ behind).map MemBlock.buf).flatten.length) :
    ∃ j base, RwChain.seek pos behind before.length
        (before.map MemBlock.buf).flatten.length = .ok (j, base) ∧
      InBlock (before ++ behind) (some j) base pos := by
  induction behind generalizing before with
  | nil => exact absurd rfl hne
  | cons block rest ih =>
    have hlen : ((before ++ [block]).map MemBlock.buf).flatten.length =
        (before.map MemBlock.buf).flatten.length + block.size := by
      rw [List.map_append, List.flatten_append, List.length_append]
      exact congrArg (_ + List.length ·) (List.append_nil block.buf)
    have hsplit : before ++ block :: rest = before ++ [block] ++ rest := by
      rw [List.append_assoc]
      rfl
    unfold RwChain.seek
    by_cases hend : (before.map MemBlock.buf).flatten.length + block.size < pos
    · have hrest : rest ≠ [] := by
        rintro rfl
        rw [hlen] at hhi
        exact absurd hhi (Nat.not_le_of_lt hend)
      have hnext := ih (before ++ [block]) hrest (by rw [hlen]; exact Nat.le_of_lt hend)
        (by rw [← hsplit]; exact hhi)
      rw [hlen, List.length_append, ← hsplit] at hnext
      rw [if_pos hend]
      exact hnext
    · rw [if_neg hend]
      refine ⟨_, _, rfl, block, ?_, ?_, hlo, Nat.le_of_not_lt hend⟩
      · rw [List.getElem?_append_right (Nat.le_refl _), Nat.sub_self]
        rfl
      · unfold blockStart
        rw [List.map_append, List.take_left' (List.length_map ..)]

namespace RwChain.Sound

theorem resetRead (h : c.Sound) (hpos : pos ≤ c.writePos) :
    ∃ c', c.resetRead pos = .ok c' ∧ c.Becomes c' (c.queue.seek pos) := by
  unfold RwChain.resetRead
  rw [if_pos hpos]
  by_cases hnil : c.memBlocks = []
  · have hzero : c.cap = 0 := by
      rw [h.cap, RwChain.bufs, hnil]
      rfl
    have hw := h.write_le
    obtain rfl : pos = 0 := by omega
    rw [if_pos (List.isEmpty_iff.mpr hnil), if_pos rfl]
    exact ⟨_, rfl, ⟨h.cap, Nat.zero_le _, h.write_le, ⟨hnil, rfl⟩, h.write⟩, rfl, rfl⟩
  · rw [if_neg (fun he => hnil (List.isEmpty_iff.mp he))]
    obtain ⟨j, base, hseek, hin⟩ := seek_inBlock [] c.memBlocks hnil (Nat.zero_le pos)
      (Nat.le_trans hpos (h.cap ▸ h.write_le))
    rw [show RwChain.seek pos c.memBlocks 0 0 = .ok (j, base) from hseek]
    exact ⟨_, rfl, ⟨h.cap, hpos, h.write_le, hin, h.write⟩, rfl, rfl⟩

/-- One round of a reader: the pointer moves to the block the position is in, and what
that block holds is what is read next. -/
theorem round (h : c.Sound) (hlt : c.readPos < c.writePos) :
    ∃ k block, RwChain.jump c.memBlocks c.readBlock c.readBase c.readPos =
        .ok (k, blockStart c.bufs k, block) ∧ c.memBlocks[k]? = some block ∧
      blockStart c.bufs k ≤ c.readPos ∧ c.readPos < blockStart c.bufs k + block.size ∧
      ∀ n, c.readPos + n ≤ blockStart c.bufs k + block.size → c.readPos + n ≤ c.writePos →
        (block.buf.drop (c.readPos - blockStart c.bufs k)).take n = c.queue.unread.take n ∧
        c.Becomes { c with
          readBlock := some k
          readBase := blockStart c.bufs k
          readPos := c.readPos + n } (c.queue.skip n) := by
  have hpos : c.readPos < c.bufs.flatten.length :=
    Nat.lt_of_lt_of_le hlt (h.cap ▸ h.write_le)
  obtain ⟨k, block, hjump, hk, hlo, hhi⟩ := jump_inBlock h.read hpos
  refine ⟨k, block, hjump, hk, hlo, hhi, ?_⟩
  intro n hroom hn
  constructor
  · have hoff : blockStart c.bufs k + (c.readPos - blockStart c.bufs k) = c.readPos :=
      Nat.add_sub_cancel' hlo
    have hslice := block_slice (bufs_getElem? hk)
      (show c.readPos - blockStart c.bufs k + n ≤ block.buf.length by
        have hsize : block.size = block.buf.length := rfl
        omega)
    have hunread : c.queue.unread.take n = (c.bufs.flatten.drop c.readPos).take n := by
      unfold Queue.unread RwChain.queue
      rw [List.drop_take, List.take_take, Nat.min_eq_left (Nat.le_sub_of_add_le' hn)]
    rw [hunread, ← hslice]
    exact congrArg (fun pos => (c.bufs.flatten.drop pos).take n) hoff
  · refine ⟨⟨h.cap, hn, h.write_le, ?_, h.write⟩, rfl, rfl⟩
    exact inBlock_some hk (Nat.le_trans hlo (Nat.le_add_right _ _)) hroom

end RwChain.Sound

/-- The pointer names the block that `pos` is in, and not at the end of. -/
def RwChain.PointsTo (c : RwChain) (cur : Option Nat) (base pos : Nat) (block : MemBlock) : Prop :=
  ∃ k, cur = some k ∧ c.memBlocks[k]? = some block ∧ base = blockStart c.bufs k ∧
    base ≤ pos ∧ pos < base + block.size

namespace RwChain.Sound

/-- The area `next_readable` offers: what is stored in the rest of the block. -/
theorem nextReadable (h : c.Sound) :
    ∃ area c', c.nextReadable = .ok (area, c') ∧ c.Becomes c' c.queue ∧
      match area with
      | none => c.queue.unread = []
      | some area => c.queue.unread ≠ [] ∧
          (∃ block, c.PointsTo c'.readBlock c'.readBase c.readPos block ∧
            area = c.queue.unread.take (c'.readBase + block.size - c.readPos)) ∧
          ∀ n ≤ area.length, c.Becomes (c'.skip n) (c.queue.skip n) := by
  unfold RwChain.nextReadable
  by_cases hend : c.readPos = c.writePos
  · rw [if_pos hend]
    exact ⟨none, c, rfl, ⟨h, rfl, rfl⟩, h.unread_eq_nil.mpr hend⟩
  · obtain ⟨k, block, hjump, hk, hlo, hhi, hround⟩ :=
      h.round (Nat.lt_of_le_of_ne h.read_le hend)
    have hle := h.read_le
    have hsome : ¬ c.readBlock.isNone = true := by
      intro hnone
      rw [Option.isNone_iff_eq_none.mp hnone] at hjump
      cases hjump
    rw [if_neg hend, if_neg hsome, hjump]
    have hlen : (c.queue.unread.take (blockStart c.bufs k + block.size - c.readPos)).length =
        min (blockStart c.bufs k + block.size - c.readPos) (c.writePos - c.readPos) := by
      rw [List.length_take, h.unread_length]
    have harea := (hround (min (blockStart c.bufs k + block.size - c.readPos)
      (c.writePos - c.readPos)) (by omega) (by omega)).1
    have hall : c.queue.unread.take (min (blockStart c.bufs k + block.size - c.readPos)
        (c.writePos - c.readPos)) =
          c.queue.unread.take (blockStart c.bufs k + block.size - c.readPos) := by
      rw [← hlen]
      exact (List.prefix_iff_eq_take.mp (List.take_prefix _ _)).symm
    refine ⟨some (c.queue.unread.take (blockStart c.bufs k + block.size - c.readPos)),
      { c with readBlock := some k, readBase := blockStart c.bufs k }, ?_,
      (hround 0 (by omega) (by omega)).2, ?_, ⟨block, ⟨k, rfl, hk, rfl, hlo, hhi⟩, rfl⟩, ?_⟩
    · simp only [bind, Except.bind, pure, Except.pure, harea, hall]
    · exact fun hnil => hend (h.unread_eq_nil.mp hnil)
    · intro n hn
      rw [hlen] at hn
      exact (hround n (by omega) (by omega)).2

/-- Bytes stored in the block the write position is in. -/
theorem put (h : c.Sound) {bs : Bytes}
    (hat : c.PointsTo c.writeBlock c.writeBase c.writePos block)
    (hroom : bs.length ≤ c.writeBase + block.size - c.writePos) :
    ∃ c', c.put bs = .ok c' ∧ c.Becomes c' (c.queue.put bs) := by
  obtain ⟨k, hcur, hk, hbase, hlo, hhi⟩ := hat
  have hfit : c.writePos - c.writeBase + bs.length ≤ block.size := by omega
  have hsize : (block.store (c.writePos - c.writeBase) bs hfit).size = block.size :=
    overwrite_length hfit
  have hend : c.writePos + bs.length ≤ c.cap := by
    have hle : blockStart c.bufs k + block.size ≤ c.bufs.flatten.length :=
      blockStart_add_le (bufs_getElem? hk)
    rw [h.cap]
    omega
  -- the new bytes stand behind those below the write position
  have hset : ((c.memBlocks.set k (block.store (c.writePos - c.writeBase) bs hfit)).map
      MemBlock.buf).flatten = overwrite c.bufs.flatten c.writePos bs := by
    rw [List.map_set]
    have hflat := flatten_set_overwrite (bufs_getElem? hk) hfit
    rw [show blockStart (c.memBlocks.map MemBlock.buf) k + (c.writePos - c.writeBase) =
      c.writePos by rw [← RwChain.bufs, ← hbase]; exact Nat.add_sub_cancel' hlo] at hflat
    exact hflat
  have hcap : c.cap = (overwrite c.bufs.flatten c.writePos bs).length := by
    rw [overwrite_length (h.cap ▸ hend)]
    exact h.cap
  unfold RwChain.put
  rw [hcur]
  simp only [hk]
  rw [dif_pos hfit]
  refine ⟨_, rfl, ⟨?_, ?_, hend, h.read.set hk hsize, ?_⟩, ?_, ?_⟩
  · exact hcap.trans (congrArg List.length hset.symm)
  · exact Nat.le_trans h.read_le (Nat.le_add_right _ _)
  · have hin : InBlock c.memBlocks (some k) c.writeBase (c.writePos + bs.length) :=
      ⟨block, hk, hbase, Nat.le_trans hlo (Nat.le_add_right _ _), by omega⟩
    rw [← hcur]
    rw [← hcur] at hin
    exact hin.set hk hsize
  · have hdata : (overwrite c.bufs.flatten c.writePos bs).take (c.writePos + bs.length) =
        c.bufs.flatten.take c.writePos ++ bs := overwrite_take (h.cap ▸ h.write_le)
    exact congrArg (fun data => Queue.mk data c.readPos c.cap)
      ((congrArg (List.take (c.writePos + bs.length)) hset).trans hdata)
  · unfold RwChain.sizes
    rw [List.map_set, hsize]
    have hget : (c.memBlocks.map MemBlock.size)[k]? = some block.size := by
      rw [List.getElem?_map, hk]
      rfl
    obtain ⟨hlt, hget⟩ := List.getElem?_eq_some_iff.mp hget
    rw [← hget]
    exact List.set_getElem_self hlt

/-- The area `next_writeable` offers: the rest of the block. -/
theorem nextWriteable (h : c.Sound) :
    ∃ area c', c.nextWriteable = .ok (area, c') ∧ c.Becomes c' c.queue ∧
      match area with
      | none => c.queue.room = 0
      | some len => 0 < len ∧ len ≤ c.queue.room ∧
          (∃ block, c.PointsTo c'.writeBlock c'.writeBase c.writePos block ∧
            len = c'.writeBase + block.size - c.writePos) ∧
          ∀ bs : Bytes, bs.length ≤ len →
            ∃ c'', c'.put bs = .ok c'' ∧ c.Becomes c'' (c.queue.put bs) := by
  unfold RwChain.nextWriteable
  rw [h.room_eq]
  by_cases hend : c.writePos = c.cap
  · rw [if_pos hend]
    exact ⟨none, c, rfl, ⟨h, rfl, rfl⟩, by rw [hend]; exact Nat.sub_self _⟩
  · have hlt : c.writePos < c.cap := Nat.lt_of_le_of_ne h.write_le hend
    obtain ⟨k, block, hjump, hk, hlo, hhi⟩ := jump_inBlock h.write (h.cap ▸ hlt)
    have hle : blockStart c.bufs k + block.size ≤ c.bufs.flatten.length :=
      blockStart_add_le (bufs_getElem? hk)
    rw [← h.cap] at hle
    have hsound : RwChain.Sound
        { c with writeBlock := some k, writeBase := blockStart c.bufs k } :=
      ⟨h.cap, h.read_le, h.write_le, h.read, inBlock_some hk hlo (Nat.le_of_lt hhi)⟩
    rw [if_neg hend, hjump]
    refine ⟨some (blockStart c.bufs k + block.size - c.writePos),
      { c with writeBlock := some k, writeBase := blockStart c.bufs k }, rfl,
      ⟨hsound, rfl, rfl⟩, Nat.sub_pos_of_lt hhi, Nat.sub_le_sub_right hle _,
      ⟨block, ⟨k, rfl, hk, rfl, hlo, hhi⟩, rfl⟩, ?_⟩
    intro bs hbs
    obtain ⟨c'', hput, hb⟩ := hsound.put ⟨k, rfl, hk, rfl, hlo, hhi⟩ hbs
    exact ⟨c'', hput, hb.sound, hb.queue, hb.sizes⟩

/-- `read_n` copies what is left, block by block. -/
theorem readLoop (fuel left : Nat) (h : c.Sound) (hfuel : left ≤ fuel) :
    ∃ c', RwChain.readLoop fuel left c = .ok ((c.queue.read left).1, c') ∧
      c.Becomes c' (c.queue.read left).2 := by
  induction fuel generalizing left c with
  | zero =>
    obtain rfl := Nat.le_zero.mp hfuel
    exact ⟨c, rfl, h, rfl, rfl⟩
  | succ fuel ih =>
    unfold RwChain.readLoop
    by_cases hmore : left > 0 ∧ c.writePos - c.readPos > 0
    · rw [if_pos hmore]
      obtain ⟨k, block, hjump, -, hlo, hhi, hround⟩ :=
        h.round (Nat.lt_of_sub_pos hmore.2)
      rw [hjump]
      obtain ⟨n, hn⟩ : ∃ n, n = min (min c.writePos (blockStart c.bufs k + block.size) - c.readPos)
        left := ⟨_, rfl⟩
      have hpos : 0 < n ∧ n ≤ left ∧ c.readPos + n ≤ blockStart c.bufs k + block.size ∧
          c.readPos + n ≤ c.writePos := by omega
      obtain ⟨hpos, hn', hroom, hend⟩ := hpos
      obtain ⟨hbytes, hb⟩ := hround n hroom hend
      obtain ⟨c', hloop, hb'⟩ := ih (left - n) hb.sound (by omega)
      have hsplit := Queue.read_split (q := c.queue) hn'
        (by rw [h.unread_length]; exact Nat.le_sub_of_add_le' hend)
      rw [hb.queue] at hloop hb'
      rw [hsplit]
      refine ⟨c', ?_, hb'.sound, hb'.queue, hb'.sizes.trans hb.sizes⟩
      simp only [bind, Except.bind, pure, Except.pure, ← hn, hloop, hbytes]
    · rw [if_neg hmore]
      have hnone : left = 0 ∨ c.queue.unread = [] := by
        rw [← List.length_eq_zero_iff, h.unread_length]
        omega
      rw [Queue.read_nothing hnone]
      exact ⟨c, rfl, h, rfl, rfl⟩

theorem readN (h : c.Sound) (size : Nat) :
    ∃ c', c.readN size = .ok ((c.queue.read size).1, c') ∧
      c.Becomes c' (c.queue.read size).2 :=
  h.readLoop size size (Nat.le_refl size)

/-- `write_n` fills one block after the other. -/
theorem writeLoop (fuel : Nat) (buf : Bytes) (h : c.Sound) (hfuel : buf.length ≤ fuel) :
    ∃ c', RwChain.writeLoop fuel buf c = .ok ((c.queue.write buf).1, c') ∧
      c.Becomes c' (c.queue.write buf).2 := by
  induction fuel generalizing buf c with
  | zero =>
    obtain rfl := List.length_eq_zero_iff.mp (Nat.le_zero.mp hfuel)
    rw [Queue.write_nothing (.inl rfl)]
    exact ⟨c, rfl, h, rfl, rfl⟩
  | succ fuel ih =>
    unfold RwChain.writeLoop
    by_cases hmore : buf.length > 0
    · rw [if_pos hmore]
      obtain ⟨area, c1, hnext, hb1, hspec⟩ := h.nextWriteable
      rw [hnext]
      cases area with
      | none =>
        rw [Queue.write_nothing (.inr hspec)]
        exact ⟨c1, rfl, hb1⟩
      | some len =>
        obtain ⟨hpos, hroom, -, hput⟩ := hspec
        obtain ⟨m, hm⟩ : ∃ m, m = min len buf.length := ⟨_, rfl⟩
        have hle : (buf.take m).length ≤ len := by
          rw [List.length_take]
          omega
        obtain ⟨c2, hput, hb2⟩ := hput (buf.take m) hle
        obtain ⟨c3, hloop, hb3⟩ := ih (buf.drop m) hb2.sound (by rw [List.length_drop]; omega)
        rw [hb2.queue] at hloop hb3
        rw [Queue.write_split (show m ≤ buf.length by omega) (show m ≤ c.queue.room by omega)]
        refine ⟨c3, ?_, hb3.sound, hb3.queue, hb3.sizes.trans hb2.sizes⟩
        simp only [bind, Except.bind, pure, Except.pure, ← hm, hput, hloop]
    · rw [if_neg hmore]
      obtain rfl := List.length_eq_zero_iff.mp (Nat.eq_zero_of_not_pos hmore)
      rw [Queue.write_nothing (.inl rfl)]
      exact ⟨c, rfl, h, rfl, rfl⟩

theorem writeN (h : c.Sound) (buf : Bytes) :
    ∃ c', c.writeN buf = .ok ((c.queue.write buf).1, c') ∧
      c.Becomes c' (c.queue.write buf).2 :=
  h.writeLoop buf.length buf (Nat.le_refl _)

/-- `spy_buffer_adler32` goes over the areas of `left` bytes. -/
theorem sums (fuel : Nat) (st : Nat × Nat) (left : Nat) (h : c.Sound)
    (hleft : left ≤ c.queue.unread.length) (hfuel : left ≤ fuel) :
    ∃ c', RwChain.sums fuel st c left = .ok (areaSums st (c.queue.unread.take left), c') ∧
      c.Becomes c' (c.queue.skip left) := by
  induction fuel generalizing st left c with
  | zero =>
    obtain rfl := Nat.le_zero.mp hfuel
    exact ⟨c, rfl, h, rfl, rfl⟩
  | succ fuel ih =>
    unfold RwChain.sums
    by_cases hmore : left > 0
    · rw [if_pos hmore]
      obtain ⟨area, c1, hnext, -, hspec⟩ := h.nextReadable
      rw [hnext]
      cases area with
      | none =>
        rw [show c.queue.unread = [] from hspec] at hleft
        exact absurd hleft (Nat.not_le_of_lt hmore)
      | some area =>
        obtain ⟨hne, ⟨block, ⟨k, -, -, -, hlo, hhi⟩, rfl⟩, hskip⟩ := hspec
        obtain ⟨m, hm⟩ : ∃ m, m = min left (c1.readBase + block.size - c.readPos) := ⟨_, rfl⟩
        have htake : (c.queue.unread.take (c1.readBase + block.size - c.readPos)).take left =
            c.queue.unread.take m := by
          rw [List.take_take, hm]
        have hlen : (c.queue.unread.take m).length = m := by
          rw [List.length_take]
          omega
        have hb := hskip m (by rw [List.length_take]; omega)
        obtain ⟨c2, hsums, hb2⟩ := ih (areaSums st (c.queue.unread.take m)) (left - m) hb.sound
          (by rw [hb.queue, Queue.skip_unread, List.length_drop]; omega) (by omega)
        rw [hb.queue, Queue.skip_unread, areaSums_append, ← List.take_add,
          Nat.add_sub_cancel' (show m ≤ left by omega)] at hsums
        rw [hb.queue, Queue.skip_skip, Nat.add_sub_cancel' (show m ≤ left by omega)] at hb2
        refine ⟨c2, ?_, hb2.sound, hb2.queue, hb2.sizes.trans hb.sizes⟩
        simp only [bind, Except.bind, htake, hlen, adlerArea_eq, hsums]
    · rw [if_neg hmore]
      obtain rfl := Nat.eq_zero_of_not_pos hmore
      exact ⟨c, rfl, h, rfl, rfl⟩

/-- The checksum is that of the bytes read next, however they are cut into blocks, and
they can be read again. -/
theorem adler32 (h : c.Sound) (adler : Nat) {len : Nat} (hlen : len ≤ c.queue.unread.length) :
    ∃ c', RwChain.adler32 adler c len =
        .ok (recombine (areaSums (components adler) (c.queue.unread.take len)), c') ∧
      c.Becomes c' c.queue := by
  obtain ⟨c1, hsums, hb1⟩ := h.sums len (components adler) len hlen (Nat.le_refl len)
  have hdata : c1.writePos = c.writePos := by
    rw [← hb1.sound.data_length, hb1.queue, ← h.data_length]
    rfl
  have hback : c.readPos ≤ c1.writePos := hdata ▸ h.read_le
  obtain ⟨c2, hreset, hb2⟩ := hb1.sound.resetRead hback
  unfold RwChain.adler32
  rw [if_pos (h.unread_length ▸ hlen), hsums]
  refine ⟨c2, ?_, hb2.sound, ?_, hb2.sizes.trans hb1.sizes⟩
  · simp only [bind, Except.bind, hreset]
    rfl
  · rw [hb2.queue, hb1.queue]
    rfl

end RwChain.Sound
end Sound

/-! ## A queue of bytes -/

/-- What the caller has to see to: `reset_read` stays within what was stored, and the
checksum within what is unread. -/
def RwOp.Permitted : RwOp → Queue UInt8 → Prop
  | .resetRead pos, q => pos ≤ q.data.length
  | .adler32 _ len, q => len ≤ q.unread.length
  | _, _ => True

/-- An operation of the flat queue. An area is some of what is unread, or of the room;
how much is up to the blocks. -/
def RwOp.Spec (q q' : Queue UInt8) : RwOp → RwReturn → Prop
  | .expand block, ret => ret = .done ∧ q' = q.expand block.size
  | .consume n, ret =>
    (q.unread = [] ∧ ret = .readable none ∧ q' = q) ∨
      ∃ area, area ≠ [] ∧ area <+: q.unread ∧ ret = .readable (some area) ∧
        q' = q.skip (min n area.length)
  | .fill bs, ret =>
    (q.room = 0 ∧ ret = .writeable none ∧ q' = q) ∨
      ∃ len, 0 < len ∧ len ≤ q.room ∧ ret = .writeable (some len) ∧ q' = q.put (bs.take len)
  | .readN size, ret =>
    ret = .bytes (q.unread.take size) ∧ q' = q.skip (min size q.unread.length)
  | .writeN buf, ret => ret = .written (min q.room buf.length) ∧ q' = q.put (buf.take q.room)
  | .adler32 adler len, ret =>
    ret = .checksum (recombine (areaSums (components adler) (q.unread.take len))) ∧ q' = q
  | .resetRead pos, ret => ret = .done ∧ q' = q.seek pos
  | .reset, ret => ret = .done ∧ q' = .empty

/-- The positions from `pos` on are all in one block of the chain. -/
def RwChain.InOneBlock (c : RwChain) (pos len : Nat) : Prop :=
  ∃ k block, c.memBlocks[k]? = some block ∧ blockStart c.bufs k ≤ pos ∧
    pos + len ≤ blockStart c.bufs k + block.size

/-- An area that was returned is inside one block. -/
def RwChain.Offers (c : RwChain) : RwReturn → Prop
  | .readable (some area) => c.InOneBlock c.readPos area.length
  | .writeable (some len) => c.InOneBlock c.writePos len
  | _ => True

/-- The chains that permitted calls lead to. -/
abbrev RwChain.Run : RwChain → Prop :=
  Reach (· = RwChain.init) fun c op c' => op.Permitted c.queue ∧ ∃ ret, c.call op = .ok (ret, c')

section Calls
variable {c : RwChain}

theorem RwChain.Sound.call (h : c.Sound) {op : RwOp} (hop : op.Permitted c.queue) :
    ∃ ret c', c.call op = .ok (ret, c') ∧ c'.Sound ∧ op.Spec c.queue c'.queue ret ∧
      c.Offers ret := by
  cases op with
  | expand block =>
    obtain ⟨c', hc, hs, hq, -⟩ := h.expand block
    exact ⟨.done, c', by simp only [RwChain.call, hc]; rfl, hs, ⟨rfl, hq⟩, trivial⟩
  | consume n =>
    obtain ⟨area, c1, hc, hb, hspec⟩ := h.nextReadable
    simp only [RwChain.call, hc]
    cases area with
    | none => exact ⟨_, c1, rfl, hb.sound, .inl ⟨hspec, rfl, hb.queue⟩, trivial⟩
    | some area =>
      obtain ⟨hne, ⟨block, ⟨k, -, hk, hbase, hlo, hhi⟩, rfl⟩, hskip⟩ := hspec
      obtain ⟨room, hroom⟩ : ∃ room, room = c1.readBase + block.size - c.readPos := ⟨_, rfl⟩
      rw [← hroom] at hskip ⊢
      have hb1 := hskip (min n (c.queue.unread.take room).length) (Nat.min_le_right _ _)
      refine ⟨_, _, rfl, hb1.sound, .inr ⟨_, ?_, List.take_prefix _ _, rfl, hb1.queue⟩, ?_⟩
      · intro hnil
        rcases List.take_eq_nil_iff.mp hnil with hz | hu
        · omega
        · exact hne hu
      · refine ⟨k, block, hk, hbase ▸ hlo, ?_⟩
        rw [← hbase, List.length_take]
        omega
  | fill bs =>
    obtain ⟨area, c1, hc, hb, hspec⟩ := h.nextWriteable
    simp only [RwChain.call, hc]
    cases area with
    | none => exact ⟨_, c1, rfl, hb.sound, .inl ⟨hspec, rfl, hb.queue⟩, trivial⟩
    | some len =>
      obtain ⟨hpos, hroom, ⟨block, ⟨k, -, hk, hbase, hlo, hhi⟩, hlen⟩, hput⟩ := hspec
      obtain ⟨c2, hc2, hb2⟩ := hput (bs.take len) (List.length_take_le _ _)
      refine ⟨.writeable (some len), c2, by simp only [bind, Except.bind, hc2]; rfl, hb2.sound,
        .inr ⟨len, hpos, hroom, rfl, hb2.queue⟩, k, block, hk, hbase ▸ hlo, ?_⟩
      rw [← hbase]
      omega
  | readN size =>
    obtain ⟨c', hc, hb⟩ := h.readN size
    refine ⟨.bytes _, c', by simp only [RwChain.call, hc]; rfl, hb.sound, ⟨rfl, ?_⟩, trivial⟩
    rw [hb.queue, ← List.length_take]
    rfl
  | writeN buf =>
    obtain ⟨c', hc, hb⟩ := h.writeN buf
    refine ⟨.written _, c', by simp only [RwChain.call, hc]; rfl, hb.sound, ⟨?_, hb.queue⟩, trivial⟩
    rw [← List.length_take]
    rfl
  | adler32 adler len =>
    obtain ⟨c', hc, hb⟩ := h.adler32 adler hop
    exact ⟨.checksum _, c', by simp only [RwChain.call, hc]; rfl, hb.sound, ⟨rfl, hb.queue⟩,
      trivial⟩
  | resetRead pos =>
    have hle : pos ≤ c.queue.data.length := hop
    rw [h.data_length] at hle
    obtain ⟨c', hc, hb⟩ := h.resetRead hle
    exact ⟨.done, c', by simp only [RwChain.call, hc]; rfl, hb.sound, ⟨rfl, hb.queue⟩, trivial⟩
  | reset => exact ⟨.done, _, rfl, RwChain.init_sound, ⟨rfl, rfl⟩, trivial⟩

/-- One more call. -/
theorem RwChain.Run.call (h : RwChain.Run c) (op : RwOp) (hop : op.Permitted c.queue)
    {ret : RwReturn} {c' : RwChain} (hc : c.call op = .ok (ret, c')) : RwChain.Run c' :=
  .next h ⟨hop, ret, hc⟩

theorem RwChain.Run.sound (h : RwChain.Run c) : c.Sound := by
  refine h.invariant (I := RwChain.Sound) ?_ ?_
  · rintro _ rfl
    exact RwChain.init_sound
  · rintro c op c' - hc ⟨hop, ret, hcall⟩
    obtain ⟨ret', c1, hcall', hs, -⟩ := hc.call hop
    rw [hcall] at hcall'
    cases hcall'
    exact hs

/-- The chained block buffer is a queue of bytes. It starts out empty, and from every
chain that permitted calls lead to, each further one succeeds, returns what the flat
queue returns and leaves the chain of the flat queue's new state; an area is never empty
and lies in one block. -/
theorem chain_is_byte_queue (h : RwChain.Run c) :
    RwChain.init.queue = .empty ∧
      ∀ op : RwOp, op.Permitted c.queue → ∃ ret c', c.call op = .ok (ret, c') ∧
        RwChain.Run c' ∧ op.Spec c.queue c'.queue ret ∧ c.Offers ret := by
  refine ⟨rfl, fun op hop => ?_⟩
  obtain ⟨ret, c', hcall, -, hspec, hoffers⟩ := h.sound.call hop
  exact ⟨ret, c', hcall, h.call op hop hcall, hspec, hoffers⟩

/-- Three bytes over two blocks, of which two are read. -/
theorem chain_is_byte_queue_sample : ∃ c, RwChain.Run c ∧ c.sizes = [2, 1] ∧
    c.queue.data = [7, 8, 9] ∧
      ∃ ret c', c.call (.readN 2) = .ok (ret, c') ∧ ret = .bytes [7, 8] := by
  have hinit : RwChain.Run .init := .init rfl
  have hrun := hinit.call (.expand ⟨[0, 0], by decide⟩) trivial rfl
  have hrun := hrun.call (.expand ⟨[0], by decide⟩) trivial rfl
  have hrun := hrun.call (.writeN [7, 8, 9]) trivial rfl
  obtain ⟨ret, c', hcall, -, ⟨hret, -⟩, -⟩ := (chain_is_byte_queue hrun).2 (.readN 2) trivial
  exact ⟨_, hrun, rfl, rfl, ret, c', hcall, hret⟩

end Calls
end Speedy.Chunkserver
