import Speedy.Chunkserver.BookRequests
import Speedy.Chunkserver.RwChain

/-! # Blocks of one size

The blocks that the server allocates all have the same size. Of a chain of such
blocks the server's own buffer model only keeps the number: what the next area offers
is then known from the position alone. On a chain that represents a flat buffer every
operation succeeds and does what the flat one does. -/
namespace Speedy.Chunkserver
open Speedy.Lib

/-- The queue that a flat buffer is. -/
def RwBuffer.queue (b : RwBuffer) : Queue UInt8 := ⟨b.data, b.readPos, b.cap⟩

structure Rep (c : RwChain) (b : RwBuffer) : Prop where
  sound : c.Sound
  queue : c.queue = b.queue
  sizes : c.sizes = List.replicate b.blocks memBlockRoom

theorem init_rep : Rep .init spyRwBufferInit := ⟨RwChain.init_sound, rfl, rfl⟩

section Rep
variable {c c' : RwChain} {b : RwBuffer} {block : MemBlock} {cur : Option Nat} {base pos : Nat}

theorem Rep.readPos (h : Rep c b) : c.readPos = b.readPos := congrArg Queue.readPos h.queue

theorem Rep.cap (h : Rep c b) : c.cap = b.cap := congrArg Queue.cap h.queue

theorem Rep.writePos (h : Rep c b) : c.writePos = b.writePos := by
  rw [← h.sound.data_length, h.queue]
  rfl

theorem Rep.fits (h : Rep c b) : b.Fits := by
  refine ⟨?_, ?_⟩
  · rw [← h.readPos, ← h.writePos]
    exact h.sound.read_le
  · rw [← h.writePos, ← h.cap]
    exact h.sound.write_le

/-- An operation that adds no block. -/
theorem Rep.becomes (h : Rep c b) {b' : RwBuffer} (hb : c.Becomes c' b'.queue)
    (hblocks : b'.blocks = b.blocks) : Rep c' b' :=
  ⟨hb.sound, hb.queue, by rw [hb.sizes, hblocks]; exact h.sizes⟩

/-- A pointer into blocks of one size, and what is left of its block. -/
theorem Rep.pointsTo (h : Rep c b) (hp : c.PointsTo cur base pos block) :
    base + block.size - pos = memBlockRoom - pos % memBlockRoom := by
  obtain ⟨k, -, hk, rfl, hlo, hhi⟩ := hp
  have hsizes : ∀ x ∈ c.memBlocks, x.size = memBlockRoom := by
    intro x hx
    have hmem : x.size ∈ c.sizes := List.mem_map_of_mem hx
    rw [h.sizes] at hmem
    exact List.eq_of_mem_replicate hmem
  have huniform : Uniform memBlockRoom c.bufs := by
    intro buf hbuf
    obtain ⟨x, hx, rfl⟩ := List.mem_map.mp hbuf
    exact hsizes x hx
  have hlt : k < c.memBlocks.length := (List.getElem?_eq_some_iff.mp hk).1
  have hstart : blockStart c.bufs k = memBlockRoom * k :=
    huniform.blockStart (by rw [RwChain.bufs, List.length_map]; exact Nat.le_of_lt hlt)
  rw [hstart] at hlo hhi ⊢
  rw [hsizes block (List.mem_of_getElem? hk)] at hhi ⊢
  unfold memBlockRoom at hlo hhi ⊢
  omega

/-! ## Operations -/

theorem Rep.expand (h : Rep c b) (hsize : block.size = memBlockRoom) :
    ∃ c', c.expand block = .ok c' ∧ Rep c' { b with blocks := b.blocks + 1 } := by
  obtain ⟨c', hc, hs, hq, hsizes⟩ := h.sound.expand block
  refine ⟨c', hc, hs, ?_, ?_⟩
  · rw [hq, h.queue, hsize]
    rfl
  · rw [hsizes, h.sizes, hsize, ← List.replicate_succ']

theorem Rep.resetRead (h : Rep c b) (hpos : pos ≤ b.writePos) :
    ∃ c', c.resetRead pos = .ok c' ∧ Rep c' { b with readPos := pos } := by
  obtain ⟨c', hc, hb⟩ := h.sound.resetRead (h.writePos ▸ hpos)
  rw [h.queue] at hb
  exact ⟨c', hc, h.becomes hb rfl⟩

theorem Rep.nextReadable (h : Rep c b) :
    ∃ c', c.nextReadable = .ok (spyRwBufferNextReadable b, c') ∧ Rep c' b ∧
      ∀ area, spyRwBufferNextReadable b = some area → ∀ n ≤ area.length,
        Rep (c'.skip n) (b.skip n) := by
  obtain ⟨area, c', hc, hb, hspec⟩ := h.sound.nextReadable
  rw [h.queue] at hb hspec
  have hle := h.fits.read
  have hlen := unread_length b
  unfold spyRwBufferNextReadable
  cases area with
  | none =>
    have hnil : b.unread = [] := hspec
    have hend : b.readPos = b.writePos := by
      rw [hnil] at hlen
      simp only [List.length_nil] at hlen
      omega
    rw [if_pos hend]
    exact ⟨c', hc, h.becomes hb rfl, nofun⟩
  | some area =>
    obtain ⟨hne, ⟨block, hp, rfl⟩, hskip⟩ := hspec
    have hend : b.readPos ≠ b.writePos := by
      intro he
      refine hne (List.length_eq_zero_iff.mp (hlen.trans ?_))
      omega
    have hroom := h.pointsTo hp
    rw [hroom, h.readPos] at hskip hc
    rw [if_neg hend]
    refine ⟨c', hc, h.becomes hb rfl, ?_⟩
    intro area he n hn
    obtain rfl := Option.some.inj he
    exact h.becomes (hskip n hn) rfl

theorem Rep.nextWriteable (h : Rep c b) :
    ∃ c', c.nextWriteable = .ok (spyRwBufferNextWriteable b, c') ∧ Rep c' b ∧
      ∀ len, spyRwBufferNextWriteable b = some len → ∀ bs : Bytes, bs.length ≤ len →
        ∃ c'', c'.put bs = .ok c'' ∧ Rep c'' (b.put bs) := by
  obtain ⟨area, c', hc, hb, hspec⟩ := h.sound.nextWriteable
  rw [h.queue] at hb hspec
  have hle := h.fits.write
  unfold spyRwBufferNextWriteable
  cases area with
  | none =>
    have hfull : b.cap - b.writePos = 0 := hspec
    rw [if_pos (show b.writePos = b.cap by omega)]
    exact ⟨c', hc, h.becomes hb rfl, nofun⟩
  | some len =>
    obtain ⟨hpos, hroom, ⟨block, hp, rfl⟩, hput⟩ := hspec
    have hroom : c'.writeBase + block.size - c.writePos ≤ b.cap - b.writePos := hroom
    have hlen := h.pointsTo hp
    rw [if_neg (show b.writePos ≠ b.cap by omega)]
    rw [hlen, h.writePos] at hput hc
    refine ⟨c', hc, h.becomes hb rfl, ?_⟩
    intro len he bs hbs
    obtain rfl := Option.some.inj he
    obtain ⟨c'', hc'', hb''⟩ := hput bs hbs
    exact ⟨c'', hc'', h.becomes hb'' rfl⟩

theorem Rep.readN (h : Rep c b) (size : Nat) :
    ∃ c', c.readN size = .ok ((spyRwBufferReadN b size).1, c') ∧
      Rep c' (spyRwBufferReadN b size).2 := by
  obtain ⟨c', hc, hb⟩ := h.sound.readN size
  rw [h.queue] at hb hc
  exact ⟨c', hc, h.becomes hb rfl⟩

theorem Rep.writeN (h : Rep c b) (buf : Bytes) :
    ∃ c', c.writeN buf = .ok ((spyRwBufferWriteN b buf).1, c') ∧
      Rep c' (spyRwBufferWriteN b buf).2 := by
  obtain ⟨c', hc, hb⟩ := h.sound.writeN buf
  rw [h.queue] at hb hc
  exact ⟨c', hc, h.becomes hb rfl⟩

/-- The checksum over the chain is the checksum over the flat buffer. -/
theorem Rep.adler32 (h : Rep c b) {adler len sum : Nat}
    (hsum : spyBufferAdler32 adler b len = some sum) :
    ∃ c', RwChain.adler32 adler c len = .ok (sum, c') ∧ Rep c' b := by
  have hlen : len ≤ b.unread.length := by
    unfold spyBufferAdler32 at hsum
    split at hsum
    · rename_i hle
      rw [unread_length]
      exact hle
    · cases hsum
  rw [spyBufferAdler32_eq adler h.fits.read hlen] at hsum
  obtain rfl := Option.some.inj hsum
  have hlen' : len ≤ c.queue.unread.length := by
    rw [h.queue]
    exact hlen
  obtain ⟨c', hc, hb⟩ := h.sound.adler32 adler hlen'
  rw [h.queue] at hb hc
  exact ⟨c', hc, h.becomes hb rfl⟩

/-! ## Uses -/

/-- The same uses of a flat buffer; `none` is a failed assertion, or a block of another
size. -/
def RwBuffer.apply (b : RwBuffer) : RwOp → Option RwBuffer
  | .expand block =>
    if block.size = memBlockRoom then some { b with blocks := b.blocks + 1 } else none
  | .consume n => match spyRwBufferNextReadable b with
    | none => some b
    | some area => some (b.skip (min n area.length))
  | .fill bs => match spyRwBufferNextWriteable b with
    | none => some b
    | some len => some (b.put (bs.take len))
  | .readN size => some (spyRwBufferReadN b size).2
  | .writeN buf => some (spyRwBufferWriteN b buf).2
  | .adler32 adler len => (spyBufferAdler32 adler b len).map fun _ => b
  | .resetRead pos => if pos ≤ b.writePos then some { b with readPos := pos } else none
  | .reset => some spyRwBufferInit

/-- One use of the chain is that use of the flat buffer. -/
theorem Rep.apply (h : Rep c b) {op : RwOp} {b' : RwBuffer} (hb : b.apply op = some b') :
    ∃ c', c.apply op = .ok c' ∧ Rep c' b' := by
  unfold RwChain.apply
  cases op with
  | expand block =>
    simp only [RwBuffer.apply] at hb
    split at hb
    · rename_i hsize
      obtain rfl := Option.some.inj hb
      obtain ⟨c', hc, hrep⟩ := h.expand hsize
      exact ⟨c', by simp only [RwChain.call, hc]; rfl, hrep⟩
    · cases hb
  | consume n =>
    obtain ⟨c1, hnext, hrep, hskip⟩ := h.nextReadable
    simp only [RwBuffer.apply] at hb
    simp only [RwChain.call, hnext]
    cases harea : spyRwBufferNextReadable b with
    | none =>
      rw [harea] at hb
      obtain rfl := Option.some.inj hb
      exact ⟨c1, rfl, hrep⟩
    | some area =>
      rw [harea] at hb
      obtain rfl := Option.some.inj hb
      exact ⟨_, rfl, hskip area harea _ (Nat.min_le_right _ _)⟩
  | fill bs =>
    obtain ⟨c1, hnext, hrep, hput⟩ := h.nextWriteable
    simp only [RwBuffer.apply] at hb
    simp only [RwChain.call, hnext]
    cases harea : spyRwBufferNextWriteable b with
    | none =>
      rw [harea] at hb
      obtain rfl := Option.some.inj hb
      exact ⟨c1, rfl, hrep⟩
    | some len =>
      rw [harea] at hb
      obtain rfl := Option.some.inj hb
      obtain ⟨c2, hc2, hrep2⟩ := hput len harea _ (List.length_take_le _ _)
      exact ⟨c2, by simp only [bind, Except.bind, hc2]; rfl, hrep2⟩
  | readN size =>
    obtain rfl := Option.some.inj hb
    obtain ⟨c', hc, hrep⟩ := h.readN size
    exact ⟨c', by simp only [RwChain.call, hc]; rfl, hrep⟩
  | writeN buf =>
    obtain rfl := Option.some.inj hb
    obtain ⟨c', hc, hrep⟩ := h.writeN buf
    exact ⟨c', by simp only [RwChain.call, hc]; rfl, hrep⟩
  | adler32 adler len =>
    simp only [RwBuffer.apply] at hb
    obtain ⟨sum, hsum, rfl⟩ := Option.map_eq_some_iff.mp hb
    obtain ⟨c', hc, hrep⟩ := h.adler32 hsum
    exact ⟨c', by simp only [RwChain.call, hc]; rfl, hrep⟩
  | resetRead pos =>
    simp only [RwBuffer.apply] at hb
    split at hb
    · rename_i hpos
      obtain rfl := Option.some.inj hb
      obtain ⟨c', hc, hrep⟩ := h.resetRead hpos
      exact ⟨c', by simp only [RwChain.call, hc]; rfl, hrep⟩
    · cases hb
  | reset =>
    obtain rfl := Option.some.inj hb
    exact ⟨_, rfl, init_rep⟩

/-- Any sequence of uses that the flat buffer passes the chain passes, and they agree
at the end. -/
theorem Rep.foldlM (ops : List RwOp) (h : Rep c b) {b' : RwBuffer}
    (hb : ops.foldlM RwBuffer.apply b = some b') :
    ∃ c', ops.foldlM RwChain.apply c = .ok c' ∧ Rep c' b' := by
  induction ops generalizing c b with
  | nil =>
    obtain rfl := Option.some.inj hb
    exact ⟨c, rfl, h⟩
  | cons op ops ih =>
    rw [List.foldlM_cons] at hb
    obtain ⟨b1, hop, hrest⟩ := Option.bind_eq_some_iff.mp hb
    obtain ⟨c1, hc, hrep⟩ := h.apply hop
    obtain ⟨c', hc', hrep'⟩ := ih hrep hrest
    exact ⟨c', by rw [List.foldlM_cons, hc]; exact hc', hrep'⟩

/-- Every buffer that fits its blocks is represented by a chain. -/
theorem exists_rep (h : b.Fits) : ∃ c, Rep c b := by
  have hempty : ∀ n, ∃ c, Rep c ⟨[], 0, n⟩ := by
    intro n
    induction n with
    | zero => exact ⟨_, init_rep⟩
    | succ n ih =>
      obtain ⟨c, hc⟩ := ih
      have hroom : (List.replicate memBlockRoom (0 : UInt8)).length = memBlockRoom :=
        List.length_replicate
      have hpos : 0 < (List.replicate memBlockRoom (0 : UInt8)).length := by
        rw [hroom]
        decide
      have hsize : MemBlock.size ⟨_, hpos⟩ = memBlockRoom := hroom
      obtain ⟨c', _, hc'⟩ := hc.expand hsize
      exact ⟨c', hc'⟩
  obtain ⟨c, hc⟩ := hempty b.blocks
  obtain ⟨c1, _, hc1⟩ := hc.writeN b.data
  have hall : (spyRwBufferWriteN ⟨[], 0, b.blocks⟩ b.data).2 = ⟨b.data, 0, b.blocks⟩ := by
    unfold spyRwBufferWriteN RwBuffer.put
    rw [List.take_of_length_le]
    · rfl
    · exact h.write
  rw [hall] at hc1
  obtain ⟨c2, _, hc2⟩ := hc1.resetRead h.read
  exact ⟨c2, hc2⟩

end Rep
end Speedy.Chunkserver
