import Speedy.Chunkserver.Accounts

/-! # Where a write goes

`spy_handle_write` takes the first chunk of `server.chunks` with more than
`body_len + FILE_META_SIZE` bytes left. `spy_collect_free_space` reports the
largest space of any chunk, with those in `writing_chunks`. -/
namespace Speedy.Chunkserver
open Speedy.Lib

/-- The body of both loops of `spy_collect_free_space`: total and maximum. -/
def collectChunk (s : Server) (acc : Nat × Nat) (id : UInt64) : Nat × Nat :=
  (u64 (acc.1 + (s.chunk id).availSpace),
    if (s.chunk id).availSpace > acc.2 then (s.chunk id).availSpace else acc.2)

def spyCollectFreeSpace (s : Server) : Nat × Nat :=
  s.writingChunks.foldl (collectChunk s) (s.chunks.foldl (collectChunk s) (0, 0))

/-- What it would report if the chunks in `writing_chunks` were left out. -/
def allocFreeSpace (s : Server) : Nat × Nat := s.chunks.foldl (collectChunk s) (0, 0)

section Collect
variable {s : Server} {n : Nat}

theorem lt_foldl_collectChunk (ids : List UInt64) (acc : Nat × Nat) :
    n < (ids.foldl (collectChunk s) acc).2 ↔
      n < acc.2 ∨ ∃ id ∈ ids, n < (s.chunk id).availSpace := by
  induction ids generalizing acc with
  | nil => simp
  | cons id ids ih =>
    have hone : n < (collectChunk s acc id).2 ↔ n < acc.2 ∨ n < (s.chunk id).availSpace := by
      simp only [collectChunk]
      split <;> omega
    rw [List.foldl_cons, ih, hone, or_assoc, List.exists_mem_cons_iff]

theorem lt_allocFreeSpace :
    n < (allocFreeSpace s).2 ↔ ∃ id ∈ s.chunks, n < (s.chunk id).availSpace := by
  rw [allocFreeSpace, lt_foldl_collectChunk]
  simp

theorem lt_spyCollectFreeSpace :
    n < (spyCollectFreeSpace s).2 ↔
      ∃ id ∈ s.chunks ++ s.writingChunks, n < (s.chunk id).availSpace := by
  rw [spyCollectFreeSpace, lt_foldl_collectChunk, lt_foldl_collectChunk]
  simp [or_and_right, exists_or]

end Collect

/-- No chunk has more space left than a chunk file is long. -/
def Server.Sized (s : Server) : Prop :=
  ∀ id ∈ s.chunks ++ s.writingChunks, (s.chunk id).availSpace ≤ defChunkSize

theorem Run.sized {cfg : Config} {ok : Server → Event → Server → Prop} {s : Server}
    (h : Run cfg ok s) : s.Sized := by
  intro id hid
  obtain ⟨marks, hb⟩ := h.books
  obtain ⟨recs, lost, hl⟩ := h.sound
  have hmem : id ∈ s.chunkIndex := hb.chunks.all.mem_iff.mp hid
  have htotal := (hl.laid id hmem).2.total
  have hchunk : (s.ledger.chunk id) = s.chunk id := rfl
  rw [hchunk] at htotal
  simp only [defChunkSize]
  omega

theorem Server.Sized.report_le {s : Server} (h : s.Sized) :
    (spyCollectFreeSpace s).2 ≤ defChunkSize := by
  by_contra hlt
  obtain ⟨id, hid, hgt⟩ := lt_spyCollectFreeSpace.mp (Nat.lt_of_not_le hlt)
  have := h id hid
  omega

/-! ## The handler -/

/-- A WRITE of `size` bytes that names this server and a new file. -/
structure WriteOf (cfg : Config) (s : Server) (size : Nat) where
  c : Nat
  conn : Connection
  env : Env
  fid : UInt64
  rest : Connection
  length : conn.bodyLen = size + reqInnerHdrSize
  header : readInnerHdr conn = .ok (cfg.serverId, fid, rest)
  unstored : spyLookupFileIndex s.fileIndex fid = none

section Handler
variable {cfg : Config} {s : Server} {size : Nat}

/-- The handler finds a chunk: it moves one to `writing_chunks`, and the write
does not become pending. -/
def WriteOf.TakesChunk (w : WriteOf cfg s size) : Prop :=
  ∃ s', spyHandleWrite cfg s w.c w.conn w.env = .ok s' ∧
    s'.pendingWrites = s.pendingWrites ∧ ∃ id ∈ s.chunks, s'.writingChunks = id :: s.writingChunks

theorem WriteOf.handle (w : WriteOf cfg s size) :
    spyHandleWrite cfg s w.c w.conn w.env =
      .ok (placeWrite s w.c w.rest w.fid size w.env.now) := by
  have hsize : w.conn.bodyLen - 8 - 2 = size := by
    rw [w.length]
    simp only [reqInnerHdrSize]
    omega
  unfold spyHandleWrite
  rw [if_neg (by rw [w.length]; omega)]
  simp only [bind, Except.bind, pure, Except.pure, w.header, w.unstored, hsize, ne_eq,
    not_true_eq_false, if_false]

theorem placeWrite_none {c now : Nat} {conn : Connection} {fid : UInt64}
    (h : s.chunks.find? (fun id => s.fits id size) = none) :
    (placeWrite s c conn fid size now).writingChunks = s.writingChunks := by
  unfold placeWrite
  simp only [h]
  split
  · rfl
  · split <;> rfl

theorem placeWrite_some {c now : Nat} {conn : Connection} {fid id : UInt64}
    (h : s.chunks.find? (fun id => s.fits id size) = some id) :
    (placeWrite s c conn fid size now).writingChunks = id :: s.writingChunks ∧
      (placeWrite s c conn fid size now).pendingWrites = s.pendingWrites := by
  unfold placeWrite
  simp only [h, reduceCtorEq, false_and, if_false]
  split <;> exact ⟨rfl, rfl⟩

/-- The handler finds a chunk when one that is not being written to has room for
the payload and its header. -/
theorem WriteOf.takesChunk_iff (w : WriteOf cfg s size) (hsize : size < 2147483648) :
    w.TakesChunk ↔ size + fileMetaSize < (allocFreeSpace s).2 := by
  have hfits : ∀ id, s.fits id size = true ↔ size + fileMetaSize < (s.chunk id).availSpace := by
    intro id
    have hu : u32 (size + (30 : Nat)) = size + 30 := u32_of_lt (x := size + 30) (by omega)
    simp only [Server.fits, decide_eq_true_eq, fileMetaSize, hu, gt_iff_lt]
  rw [lt_allocFreeSpace]
  constructor
  · rintro ⟨s', hs, _, id, _, hw⟩
    cases hfind : s.chunks.find? fun id => s.fits id size with
    | none =>
      rw [w.handle] at hs
      obtain rfl := Except.ok.inj hs
      rw [placeWrite_none hfind] at hw
      exact absurd hw (by simp)
    | some id =>
      have hfit : s.fits id size = true := by simpa using List.find?_some hfind
      exact ⟨id, List.mem_of_find?_eq_some hfind, (hfits id).mp hfit⟩
  · rintro ⟨id, hid, hlt⟩
    obtain ⟨id', hfind⟩ : ∃ id', s.chunks.find? (fun id => s.fits id size) = some id' :=
      Option.isSome_iff_exists.mp (List.find?_isSome.mpr ⟨id, hid, (hfits id).mpr hlt⟩)
    obtain ⟨hw, hp⟩ : (placeWrite s w.c w.rest w.fid size w.env.now).writingChunks =
        id' :: s.writingChunks ∧
        (placeWrite s w.c w.rest w.fid size w.env.now).pendingWrites = s.pendingWrites :=
      placeWrite_some hfind
    exact ⟨_, w.handle, hp, id', List.mem_of_find?_eq_some hfind, hw⟩

end Handler

end Speedy.Chunkserver
