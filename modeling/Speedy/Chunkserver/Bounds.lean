import Speedy.Chunkserver.Accounts
import Speedy.Chunkserver.Progress

/-! # Where `spy_write_file` writes

The header and the body of a record go behind `current_offset`, and the fit test
leaves room for both unless the 32-bit sum in it wraps around. A request that long
needs more memory blocks than most servers may allocate. -/
namespace Speedy.Chunkserver
open Speedy.Lib Relation

/-- The chunk, the offset and the length of the `pwrite()` of a header or a body that
an event stands for. -/
def pwriteRange (s : Server) : Event → Option (UInt64 × Nat × Nat)
  | .io i (.pwrite _ _) => match s.running[i]? with
    | some (.io job, .write .header) => some (job.chunk, job.offset, fileMetaSize)
    | some (.io job, .write (.body offset left)) => match s.conns job.conn with
      | some conn => (spyRwBufferNextReadable conn.request).map fun area =>
          (job.chunk, offset, (area.take left.toNat).length)
      | none => none
    | _ => none
  | _ => none

/-- The 32-bit sum of the fit test is exact for every write. -/
def ShortWrites (s : Server) : Prop :=
  ∀ job stage, (Work.io job, stage) ∈ s.works → job.fn = .write →
    job.file.size + fileMetaSize < 4294967296

section Bounds
variable {cfg : Config} {s : Server} {marks : List Mark} {limit : Nat} {ids : List UInt64}
  {recs : UInt64 → List Record} {lost : UInt64 → Prop} {job : IoJob} {conn : Connection}

/-- A request lies in blocks that were allocated. -/
theorem BookInv.request_le {c : Nat} (h : BookInv limit ids (s.books marks))
    (hc : s.conns c = some conn) : conn.request.data.length ≤ memBlockRoom * max 16 limit := by
  have hfits := (h.table.fine c conn hc).request.write
  have hheld : conn.held ≤ s.mem.used := h.table.held_le (h.conns.lt hc) hc
  have htotal : s.mem.used + s.mem.free = s.mem.alloc := h.table.total
  have halloc : s.mem.alloc ≤ max 16 limit := h.table.alloc
  have hblocks : conn.request.blocks ≤ max 16 limit := by
    unfold Connection.held at hheld
    omega
  exact Nat.le_trans hfits (Nat.mul_le_mul_left memBlockRoom hblocks)

/-- The buffer of a write keeps its bytes. -/
theorem WriteState.data_eq {sb : Pwrite → Prop} {file : SpyFile} {offset : Nat}
    {request : RwBuffer} {chunk : Chunk} {d0 : ByteStore} {r : WriteRun}
    (h : WriteState sb file offset request chunk d0 r) : r.request.data = request.data := by
  cases h <;> rfl

/-- The body stands `n` bytes behind the header. -/
theorem WriteState.at_body {sb : Pwrite → Prop} {file : SpyFile} {offset off : Nat} {left : Int}
    {request : RwBuffer} {chunk : Chunk} {d0 : ByteStore} {r : WriteRun}
    (h : WriteState sb file offset request chunk d0 r) (hpc : r.pc = .body off left) :
    ∃ n : Nat, off = offset + 30 + n ∧ left = file.size - n ∧ n < file.size := by
  cases h with
  | body rec n disk is stored lt small =>
    obtain ⟨rfl, rfl⟩ := WritePc.body.inj hpc
    exact ⟨n, rfl, rfl, lt⟩
  | _ => cases hpc

theorem WriteState.at_header {sb : Pwrite → Prop} {file : SpyFile} {offset : Nat}
    {request : RwBuffer} {chunk : Chunk} {d0 : ByteStore} {r : WriteRun}
    (h : WriteState sb file offset request chunk d0 r) (hpc : r.pc = .header) :
    r.request = request := by
  cases h with
  | header => rfl
  | _ => cases hpc

/-- A write that is under way was placed where its chunk ended, and its request is in
the buffer. -/
theorem LedgerInv.write_state (h : LedgerInv s.ledger recs lost) {pc : WritePc}
    (hx : (Work.io job, Stage.running (.write pc)) ∈ s.works) (hpc : ∀ r, pc ≠ .finished r)
    (hc : s.conns job.conn = some conn) :
    Placed s.ledger job ∧ job.chunk ∈ s.chunkIndex ∧ ∃ request d0, Loaded job request ∧
      WriteState (fun _ => True) job.file job.offset request (s.chunk job.chunk) d0
        ⟨pc, s.disk job.chunk, s.chunk job.chunk, conn.request⟩ := by
  have hmem : job.chunk ∈ s.chunkIndex := by
    refine (h.owners job.chunk (List.mem_filterMap.mpr ⟨_, hx, ?_⟩)).1
    exact owner_write (h.fn_write hx) (by simp)
  cases h.works _ hx conn hc with
  | writing _ _ fn state =>
    cases pc with
    | finished r => exact absurd rfl (hpc r)
    | _ => exact ⟨state.1, hmem, state.2⟩
  | reading _ _ _ _ _ at_ _ _ _ _ _ => cases at_
  | plain _ _ _ hs => exact hs.elim

/-- With at most 4096 blocks no complete request is long enough for the sum to wrap. -/
theorem BookInv.short {pc : WritePc} (h : BookInv limit ids (s.books marks))
    (hl : LedgerInv s.ledger recs lost) (hlimit : limit ≤ 4096)
    (hx : (Work.io job, Stage.running (.write pc)) ∈ s.works) (hpc : ∀ r, pc ≠ .finished r) :
    job.file.size + fileMetaSize < 4294967296 := by
  obtain ⟨conn, hc⟩ := hl.conns.live _ (List.mem_map.mpr ⟨_, hx, rfl⟩)
  obtain ⟨_, _, request, d0, hload, hstate⟩ := hl.write_state hx hpc hc
  have hdata : conn.request.data = request.data := hstate.data_eq
  have hle := h.request_le hc
  rw [hdata] at hle
  have hmax : max 16 limit ≤ 4096 := Nat.max_le.mpr ⟨by decide, hlimit⟩
  have hlen := Nat.le_trans hle (Nat.mul_le_mul_left memBlockRoom hmax)
  have hsize := hload.data
  simp only [memBlockRoom, fileMetaSize] at hlen ⊢
  omega

/-- The range a write may use of its chunk. -/
theorem LedgerInv.room (h : LedgerInv s.ledger recs lost) (hp : Placed s.ledger job)
    (hm : job.chunk ∈ s.chunkIndex) (hsize : job.file.size + fileMetaSize < 4294967296) :
    superblockSize ≤ job.offset ∧ job.offset + fileMetaSize + job.file.size < defChunkSize := by
  have hlaid : Laid _ (s.chunk job.chunk) _ := (h.laid job.chunk hm).2
  have hoff : job.offset = (s.chunk job.chunk).currentOffset := hp.offset
  have hfits : (s.chunk job.chunk).availSpace > u32 (job.file.size + fileMetaSize) := hp.fits
  have hsum : u32 (job.file.size + fileMetaSize) = job.file.size + fileMetaSize := u32_of_lt hsize
  have htotal := hlaid.total
  have hstart := hlaid.offset
  rw [hsum] at hfits
  have hfits' : (s.chunk job.chunk).availSpace > job.file.size + 30 := hfits
  show 55 ≤ job.offset ∧ job.offset + 30 + job.file.size < 2147483648
  omega

theorem LedgerInv.pwrite_inside (hl : LedgerInv s.ledger recs lost)
    (hshort : ∀ job pc, (Work.io job, Stage.running (.write pc)) ∈ s.works →
      (∀ r, pc ≠ .finished r) → job.file.size + fileMetaSize < 4294967296)
    {e : Event} {id : UInt64} {offset len : Nat} (hr : pwriteRange s e = some (id, offset, len)) :
    superblockSize ≤ offset ∧ offset + len ≤ defChunkSize := by
  unfold pwriteRange at hr
  split at hr
  · split at hr
    · rename_i job hrun
      obtain ⟨_, hr⟩ := Prod.mk.inj (Option.some.inj hr)
      obtain ⟨rfl, rfl⟩ := Prod.mk.inj hr
      have hx := mem_works_running hrun
      obtain ⟨conn, hc⟩ := hl.conns.live _ (List.mem_map.mpr ⟨_, hx, rfl⟩)
      obtain ⟨hp, hm, _⟩ := hl.write_state hx nofun hc
      obtain ⟨h1, h2⟩ := hl.room hp hm (hshort job _ hx nofun)
      exact ⟨h1, Nat.le_of_lt (Nat.lt_of_le_of_lt (Nat.le_add_right _ _) h2)⟩
    · rename_i job off left hrun
      have hx := mem_works_running hrun
      split at hr
      · rename_i conn hc
        obtain ⟨area, _, hrange⟩ := Option.map_eq_some_iff.mp hr
        obtain ⟨_, hrange⟩ := Prod.mk.inj hrange
        obtain ⟨rfl, rfl⟩ := Prod.mk.inj hrange
        obtain ⟨hp, hm, request, d0, hload, hstate⟩ := hl.write_state hx nofun hc
        obtain ⟨h1, h2⟩ := hl.room hp hm (hshort job _ hx nofun)
        obtain ⟨n, rfl, rfl, hlt⟩ := hstate.at_body rfl
        have hlen := List.length_take_le ((job.file.size : Int) - n).toNat area
        have h1' : 55 ≤ job.offset := h1
        have h2' : job.offset + 30 + job.file.size < 2147483648 := h2
        show 55 ≤ job.offset + 30 + n ∧ job.offset + 30 + n + _ ≤ 2147483648
        omega
      · cases hr
    · cases hr
  · cases hr

/-- Writes stay inside the chunk, on every server with at most 4096 blocks of memory and
as long as no WRITE of 2^32 - 30 bytes or more is in flight: `current_offset` and
`avail_space` add up to the size of the chunk, something is always left, and every
`pwrite()` of a header or a body lies between the superblock and the end. -/
theorem writes_stay_inside_chunk
    (h : Run cfg (fun _ _ s' => cfg.mbLimit ≤ 4096 ∨ ShortWrites s') s) :
    (∀ id ∈ s.chunkIndex, (s.chunk id).currentOffset + (s.chunk id).availSpace = defChunkSize ∧
      1 ≤ (s.chunk id).availSpace) ∧
    ∀ e id offset len, pwriteRange s e = some (id, offset, len) →
      superblockSize ≤ offset ∧ offset + len ≤ defChunkSize := by
  obtain ⟨recs, lost, hl⟩ := h.sound
  obtain ⟨marks, hb⟩ := h.books
  have hcond : cfg.mbLimit ≤ 4096 ∨ ShortWrites s := by
    cases h with
    | init hf =>
      obtain ⟨t, _, rfl, _⟩ := hf.created
      exact .inr nofun
    | next _ hs => exact hs.2
  refine ⟨fun id hid => ?_, fun e id offset len hr => hl.pwrite_inside (fun job pc hx hpc => ?_) hr⟩
  · have hlaid : Laid _ (s.chunk id) _ := (hl.laid id hid).2
    exact ⟨hlaid.total, hlaid.avail⟩
  · rcases hcond with hlimit | hshort
    · exact hb.short hl hlimit hx hpc
    · exact hshort job _ hx (hl.fn_write hx)

theorem writes_stay_inside_sampleWrite : ∃ s : Server,
    pwriteRange s (.io 0 (.pwrite .full 0)) = some (2, 55, 30) ∧
      superblockSize ≤ 55 ∧ 55 + 30 ≤ defChunkSize := by
  have hplay : (play sampleConfig (fun _ _ _ => true) ((writeEvents .full).take 3)
      (newServer sampleConfig)).map (fun s => pwriteRange s (.io 0 (.pwrite .full 0))) =
        .ok (some (2, 55, 30)) := by
    decide +kernel
  obtain ⟨s, hs, hr⟩ := map_eq_ok hplay
  have hrun := play_run _ (.init newServer_fresh) hs
  have hin := writes_stay_inside_chunk (s := s)
    (hrun.mono fun _ _ _ hstep => ⟨hstep.1, .inl (by decide)⟩)
  exact ⟨s, hr, hin.2 _ _ _ _ hr⟩

/-! ## A chunk that is almost full -/

/-- A server with one chunk that may allocate 4097 blocks. -/
def wideConfig : Config := ⟨1, 1, 4097, []⟩

/-- It has accepted a connection. -/
def wideServer : Server := spyCreateClientConnection (newServer wideConfig)

theorem wideServer_run : Run wideConfig (fun _ _ _ => True) wideServer :=
  .next (e := .accept) (.init ⟨fun _ => true, _, rfl, rfl⟩) ⟨rfl, trivial⟩

theorem wideServer_quiet : Quiet wideServer 0 16 wideConfig.mbLimit :=
  ⟨⟨.new, rfl, rfl, rfl, rfl⟩, rfl, rfl, rfl, rfl, rfl⟩

theorem wideServer_slot : ∃ slot rest, wideServer.freeIoJobs = slot :: rest := by
  have hall : wideServer.freeIoJobs = (List.range defMaxIoJobs).reverse := by
    simp only [wideServer, spyCreateClientConnection, newServer, Server.start,
      Server.setConn]
  refine List.exists_cons_of_length_pos ?_
  rw [hall, List.length_reverse, List.length_range]
  decide

/-- There are payloads of every length. -/
theorem exists_payload (n : Nat) : ∃ payload : Bytes, payload.length = n :=
  ⟨List.replicate n 0, List.length_replicate⟩

/-- A WRITE of 2147483600 bytes finds no room in the free chunk and waits. -/
theorem wideServer_waits : ∃ s, Run wideConfig (fun _ _ _ => True) s ∧
    s.pendingWrites.map (fun job => job.file.size) = [2147483600] ∧ s.chunks = [1] ∧
    (s.chunk 1).availSpace = 2147483593 := by
  obtain ⟨payload, hlen⟩ := exists_payload 2147483600
  obtain ⟨slot, rest, hslot⟩ := wideServer_slot
  have hk : memBlockRoom * 2048 < 15 + payload.length := by rw [hlen]; decide
  have hk' : 15 + payload.length ≤ memBlockRoom * (2048 + 1) := by rw [hlen]; decide
  have hnew : spyLookupFileIndex wideServer.fileIndex 7 = none := rfl
  obtain ⟨conn, conn', _, _, hleads⟩ :=
    write_comes wideServer_quiet (by decide) hk hk' (by decide) (by rw [hlen]; decide) hnew
  refine ⟨_, wideServer_run.leads hleads, ?_⟩
  rw [hlen]
  generalize ht : Server.setConn
    { wideServer with mem := pool 16 wideConfig.mbLimit (2048 + 1) } 0 conn' = t
  have hfind : t.chunks.find? (fun id => t.fits id 2147483600) = none := by rw [← ht]; rfl
  have hpend : ¬ t.pendingWritesSize ≥ defMaxPendingWrites := by
    rw [← ht]
    show ¬ 0 ≥ defMaxPendingWrites
    decide
  have hfree : t.freeIoJobs = slot :: rest := by rw [← ht, ← hslot]; simp only [Server.setConn]
  unfold placeWrite
  simp only [hfind, hpend, hfree, and_false, if_false]
  rw [← ht]
  exact ⟨rfl, rfl, rfl⟩

/-- A pending write never waits beside a chunk that could hold it. -/
theorem pending_writes_fit_no_free_chunk {ok : Server → Event → Server → Prop}
    (h : Run cfg ok s) :
    ∀ job ∈ s.pendingWrites, ∀ id ∈ s.chunks,
      (s.chunk id).availSpace ≤ u32 (job.file.size + fileMetaSize) := by
  intro job hjob id hid
  obtain ⟨marks, hb⟩ := h.books
  refine hb.chunks.full job ?_ id hid
  exact List.mem_append_left _ (List.mem_map.mpr ⟨job, hjob, rfl⟩)

theorem pending_writes_fit_no_free_chunk_wide : ∃ s : Server,
    s.pendingWrites.map (fun job => job.file.size) = [2147483600] ∧ s.chunks = [1] ∧
    (s.chunk 1).availSpace = 2147483593 ∧ ∀ job ∈ s.pendingWrites, ∀ id ∈ s.chunks,
      (s.chunk id).availSpace ≤ u32 (job.file.size + fileMetaSize) := by
  obtain ⟨s, hrun, hsize, hchunks, havail⟩ := wideServer_waits
  exact ⟨s, hsize, hchunks, havail, pending_writes_fit_no_free_chunk hrun⟩

/-- One WRITE of 2^31 - 86 bytes leaves one byte of the chunk. -/
theorem wideServer_filled : ∃ s, Run wideConfig (fun _ _ _ => True) s ∧
    Quiet s 0 2049 wideConfig.mbLimit ∧ (s.chunk 1).availSpace = 1 ∧
    (s.chunk 1).currentOffset = 2147483647 ∧ s.chunks = [1] ∧
    s.freeIoJobs = wideServer.freeIoJobs ∧ spyLookupFileIndex s.fileIndex 8 = none := by
  obtain ⟨payload, hlen⟩ := exists_payload 2147483562
  have hchunk : wideServer.chunk 1 = spyAllocChunk 1 defChunkSize := rfl
  have hfind : wideServer.chunks.find? (fun id => wideServer.fits id payload.length) =
      some 1 := by
    rw [hlen]
    rfl
  obtain ⟨slot, rest, hslot⟩ := wideServer_slot
  obtain ⟨t, conn, harrives, hqueued⟩ : ∃ t conn, Leads wideConfig wideServer t ∧
      Queued wideServer 0 16 wideConfig.mbLimit (2048 + 1) slot 7 1 payload t conn := by
    refine write_arrives wideServer_quiet (by decide) ?_ ?_ (by decide) ?_ rfl hfind hslot
    all_goals rw [hlen]
    all_goals decide
  obtain ⟨s, hleads, hquiet, hchunk', hchunks, hfree, e, he, hindex⟩ :=
    write_leaves_quiet hqueued (by rw [hlen]; decide)
  refine ⟨s, (wideServer_run.leads harrives).leads hleads, hquiet, ?_, ?_, hchunks, hfree, ?_⟩
  · rw [hchunk', Function.update_self, hchunk, hlen]
    rfl
  · rw [hchunk', Function.update_self, hchunk, hlen]
    rfl
  · have hnil : wideServer.fileIndex = [] := rfl
    rw [hindex, hnil]
    simp [spyLookupFileIndex, he]

/-- On the server with 4097 blocks the sum for a payload of 2^32 - 30 bytes wraps to
zero, the write is given the chunk that has one byte left, and its header goes beyond
the end. -/
theorem header_written_beyond_chunk : ∃ s : Server, Run wideConfig (fun _ _ _ => True) s ∧
    (∃ s', step wideConfig s (.io 0 (.pwrite .full 0)) = .ok s') ∧
    pwriteRange s (.io 0 (.pwrite .full 0)) = some (1, 2147483647, 30) ∧
    defChunkSize < 2147483647 + 30 := by
  obtain ⟨s, hrun, hquiet, havail, hoff, hchunks, hfree, hnew⟩ := wideServer_filled
  obtain ⟨slot, rest, hslot⟩ := wideServer_slot
  obtain ⟨payload, hlen⟩ := exists_payload 4294967266
  have hfind : s.chunks.find? (fun id => s.fits id payload.length) = some 1 := by
    have hfits : s.fits 1 payload.length = true := by
      unfold Server.fits
      rw [havail, hlen]
      rfl
    rw [hchunks]
    exact List.find?_cons_of_pos hfits
  obtain ⟨t, conn, harrives, hqueued⟩ : ∃ t conn, Leads wideConfig s t ∧
      Queued s 0 2049 wideConfig.mbLimit (4096 + 1) slot 8 1 payload t conn := by
    refine write_arrives hquiet (by decide) ?_ ?_ (by decide) ?_ hnew hfind (hfree.trans hslot)
    all_goals rw [hlen]
    all_goals decide
  have ha := hqueued.alone
  rw [hoff] at ha
  generalize hjob : ({ writeJob slot 0 8 payload.length with
    offset := 2147483647, chunk := 1 } : IoJob) = job at ha
  obtain ⟨u, hu⟩ : ∃ u, u = { t with queued := [], running := [(.io job, .write .header)] } :=
    ⟨_, rfl⟩
  have hstart : step wideConfig t .start = .ok u := by
    have hbegin : (Work.io job).begin = .write .header := by
      simp only [Work.begin, ha.fn]
    simp only [step, workerStart, ha.queued, ha.running, hbegin, List.nil_append, hu]
  have hrange : pwriteRange u (.io 0 (.pwrite .full 0)) = some (job.chunk, job.offset, 30) := by
    rw [hu]
    rfl
  refine ⟨u, (hrun.leads harrives).leads (.single ⟨_, hstart⟩), ?_, ?_, by decide⟩
  · have hself : u.writing 0 job conn
        ⟨.header, u.disk job.chunk, u.chunk job.chunk, conn.request⟩ = u := by
      rw [hu]
      exact writing_self ha.live rfl
    obtain ⟨sum, hsum⟩ := Option.isSome_iff_exists.mp (spyBufferAdler32_isSome 0 ha.fits ha.loaded)
    obtain ⟨r, hr⟩ : ∃ r, spyWriteFileStep job.file job.offset .full 0
        ⟨.header, u.disk job.chunk, u.chunk job.chunk, conn.request⟩ = some r := by
      simp only [spyWriteFileStep, hsum]
      exact ⟨_, rfl⟩
    have hone : 0 < u.running.length := by rw [hu]; exact Nat.one_pos
    have hstep : step wideConfig (u.writing 0 job conn _) _ = .ok _ := writing_step hone hr
    rw [hself] at hstep
    exact ⟨_, hstep⟩
  · rw [hrange, ← hjob]

end Bounds
end Speedy.Chunkserver
