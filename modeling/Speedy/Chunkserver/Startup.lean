import Speedy.Chunkserver.Handlers

/-! # Starting a chunkserver

`spy_create_or_recover_files` sets up every chunk file of the data directory, in
the order `readdir()` gives them, or creates new chunks in an empty one; `main`
then starts with what it built. -/
namespace Speedy.Chunkserver
open Speedy.Lib

/-- A regular file of the data directory: whether its name has the right format
and server id, its path, its content and length, and what the `read()` calls on
it are going to return. -/
structure DirEntry where
  valid : Bool
  path : Bytes
  file : ByteStore
  size : Nat
  reads : Nat → ReadResult

/-- The chunks and the index together with the files behind them. -/
structure Started where
  st : Recovered
  disk : UInt64 → ByteStore
  path : UInt64 → Bytes

inductive StartFailure where
  | exited
  | aborted
  | undefined
  | outOfFuel
  deriving DecidableEq, Repr

/-- One round of the `readdir()` loop; the chunk that was added is the first of
`server.chunks`. -/
def setupEntry (t : Started) (e : DirEntry) : Except StartFailure Started :=
  if e.valid then
    match spySetupChunk e.file e.size e.reads t.st with
    | .exited => .error .exited
    | .aborted => .error .aborted
    | .undefined => .error .undefined
    | .outOfFuel => .error .outOfFuel
    | .accepted st =>
      match st.chunks with
      | [] => .error .aborted
      | chunk :: _ =>
        .ok ⟨st, Function.update t.disk chunk.chunkId e.file,
          Function.update t.path chunk.chunkId e.path⟩
  else .error .exited

/-- The bytes of a number in decimal -/
def decimal (n : Nat) : Bytes := (Nat.toDigits 10 n).map fun d => UInt8.ofNat d.toNat

/-- `chunk_<server id>_<chunk id>.chunk` in the data directory -/
def chunkPath (cfg : Config) (id : UInt64) : Bytes :=
  cfg.dataDir ++ ([47, 99, 104, 117, 110, 107, 95] ++ (decimal cfg.serverId ++ ([95] ++
    (decimal id.toNat ++ [46, 99, 104, 117, 110, 107]))))

/-- `spy_create_chunk`: a file of zeros with a superblock; `create` says whether
the file could be made. -/
def spyCreateChunk (cfg : Config) (create : UInt64 → Bool) (t : Started) :
    Except StartFailure Started :=
  let id := t.st.maxChunkId + 1
  if create id then
    let chunk := spyAllocChunk id defChunkSize
    match spyAddChunk { t.st with maxChunkId := id } chunk with
    | none => .error .aborted
    | some st =>
      .ok ⟨st, Function.update t.disk id (store (fun _ => 0) 0 (spyFillSuperblock chunk)),
        Function.update t.path id (chunkPath cfg id)⟩
  else .error .exited

def createChunks (cfg : Config) (create : UInt64 → Bool) : Nat → Started →
    Except StartFailure Started
  | 0, t => .ok t
  | n + 1, t => do
    let t ← spyCreateChunk cfg create t
    createChunks cfg create n t

def Started.empty : Started := ⟨⟨[], [], 0⟩, fun _ _ => 0, fun _ => []⟩

def spyCreateOrRecoverFiles (cfg : Config) (create : UInt64 → Bool) (dir : List DirEntry) :
    Except StartFailure Started := do
  let t ← dir.foldlM setupEntry .empty
  if t.st.chunks = [] then createChunks cfg create cfg.nChunks t else return t

/-- `main` up to the event loop -/
def Server.start (cfg : Config) (t : Started) : Server where
  nextConn := 0
  conns := fun _ => none
  disk := t.disk
  chunk := fun id => (t.st.chunks.find? fun c => c.chunkId == id).getD (spyAllocChunk id 0)
  path := t.path
  chunkIndex := t.st.chunks.map Chunk.chunkId
  chunks := t.st.chunks.map Chunk.chunkId
  writingChunks := []
  nChunks := t.st.chunks.length
  fileIndex := t.st.fileIndex
  pendingWrites := []
  pendingWritesSize := 0
  freeIoJobs := (List.range defMaxIoJobs).reverse
  queued := []
  running := []
  finished := []
  mem := ⟨16, 16, cfg.mbLimit, 0⟩
  statistic := ⟨0, 0, 0, 0, 0, 0, 0, 0, 0⟩
  answers := []

/-- A server that has just been started on an empty data directory. -/
def Server.Fresh (cfg : Config) (s : Server) : Prop :=
  ∃ create t, spyCreateOrRecoverFiles cfg create [] = .ok t ∧ s = Server.start cfg t

end Speedy.Chunkserver
