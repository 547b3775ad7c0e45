import Mathlib.Algebra.Order.BigOperators.Group.List
import Speedy.Chunkserver.Boot
import Speedy.Chunkserver.Responses
import Speedy.Chunktool.DumpClient
import Speedy.Lib.Fields

/-! # The detail report

`spy_query_detail_infos` writes the counters, a line for every chunk and the number of
files; `SpyClient.queryDetails` reads them back. The client keeps the space of a chunk at
the position its id says in a table with as many places as there are chunks, so it needs
the ids to be the numbers from one on. A data directory need not be like that. -/
namespace Speedy.Chunktool
open Speedy.Lib Speedy.Chunkserver

/-! ## The client -/

def opcodeQeuryDetails : Nat := 32

def queryDetailHdrSize : Nat := 68

/-- What `queryDetails` prints. -/
structure Details where
  connCount : Nat
  readingCount : Nat
  writingCount : Nat
  pendingWrites : Nat
  readCount : Nat
  writeCount : Nat
  readError : Nat
  writeError : Nat
  readBytes : Nat
  writeBytes : Nat
  nChunks : Nat
  chunkInfos : List Nat
  filesCount : Nat
  deriving DecidableEq, Repr

/-- The places where `queryDetails` ends; a slice or an index out of range is a panic. -/
inductive QueryEnd where
  | writeError
  | headerError
  | failed (status : Nat)
  | invalidBodyLen (bodyLen : Nat)
  | bodyError
  | panicked
  | ok (details : Details)
  | waiting
  deriving DecidableEq, Repr

/-- `binary.BigEndian` on `infos[lo:hi]` -/
def wordAt (infos : Bytes) (lo hi : Nat) : Option Nat := (between lo hi infos).map beDecode

/-- `chunk_infos[index-1] = avail` -/
def placeChunk (table : List Nat) (index avail : Nat) : Option (List Nat) :=
  if u64 (index - 1) < table.length then some (table.set (u64 (index - 1)) avail) else none

/-- The loop over the lines of the chunks: `left` rounds from line `i` on. The positions are
of type `uint32`. -/
def readChunkInfos (infos : Bytes) : Nat → Nat → List Nat → Option (List Nat)
  | 0, _, table => some table
  | left + 1, i, table => do
    let index ← wordAt infos (u32 (queryDetailHdrSize + i * 16))
      (u32 (queryDetailHdrSize + i * 16 + 8))
    let avail ← wordAt infos (u32 (queryDetailHdrSize + i * 16 + 8))
      (u32 (queryDetailHdrSize + i * 16 + 16))
    let table ← placeChunk table index avail
    readChunkInfos infos left (i + 1) table

/-- `binary.BigEndian.Uint64` of all from `lo` on: the first eight bytes -/
def uint64From (infos : Bytes) (lo : Nat) : Option Nat := do
  let rest ← between lo infos.length infos
  wordAt rest 0 8

/-- From the body of the response to what is printed -/
def readDetails (infos : Bytes) : Option Details := do
  let connCount ← wordAt infos 0 4
  let readingCount ← wordAt infos 4 8
  let writingCount ← wordAt infos 8 12
  let pendingWrites ← wordAt infos 12 16
  let readCount ← wordAt infos 16 24
  let writeCount ← wordAt infos 24 32
  let readError ← wordAt infos 32 40
  let writeError ← wordAt infos 40 48
  let readBytes ← wordAt infos 48 56
  let writeBytes ← wordAt infos 56 64
  let nChunks ← wordAt infos 64 68
  let chunkInfos ← readChunkInfos infos nChunks 0 (List.replicate nChunks 0)
  let filesCount ← uint64From infos (u32 (queryDetailHdrSize + 16 * nChunks))
  return { connCount, readingCount, writingCount, pendingWrites, readCount, writeCount,
           readError, writeError, readBytes, writeBytes, nChunks, chunkInfos, filesCount }

theorem reader_roomy : 0 < 1024 := Nat.zero_lt_succ _

/-- `SpyClient.queryDetails` on a connection on which `pieces` arrive. -/
def queryDetails (writes : Bool) (pieces : List Bytes) (ending : Ending) : QueryEnd :=
  let missing (error : QueryEnd) : QueryEnd := if ending = .waiting then .waiting else error
  if writes = false then .writeError
  else
    match BufReader.readFull 6 ⟨1024, reader_roomy, [], pieces⟩ with
    | none => missing .headerError
    | some (header, rb) =>
      if header.getD 0 0 ≠ UInt8.ofNat opcodeQeuryDetails ∨ header.getD 1 0 ≠ 0 then
        .failed (header.getD 1 0).toNat
      else
        let bodyLen := beDecode ((header.drop 2).take 4)
        if bodyLen < queryDetailHdrSize then .invalidBodyLen bodyLen
        else
          match rb.readFull bodyLen with
          | none => missing .bodyError
          | some (infos, _) =>
            match readDetails infos with
            | none => .panicked
            | some details => .ok details

/-! ## The report -/

/-- The two fields of a chunk. -/
def chunkFields (s : Server) (id : UInt64) : List (Nat × Nat) :=
  [(8, (s.chunk id).chunkId.toNat), (8, (s.chunk id).availSpace)]

/-- The fields before those of the chunks. -/
def headFields (s : Server) : List (Nat × Nat) :=
  [(4, s.statistic.connCount), (4, s.statistic.readingCount), (4, s.statistic.writingCount),
    (4, s.pendingWritesSize), (8, s.statistic.readCount), (8, s.statistic.writeCount),
    (8, s.statistic.readError), (8, s.statistic.writeError), (8, s.statistic.readBytes),
    (8, s.statistic.writeBytes), (4, s.nChunks)]

def totalFiles (s : Server) : Nat :=
  ((s.chunks ++ s.writingChunks).map fun id => (s.chunk id).filesCount).sum

/-- The fields of the report. -/
def detailFields (s : Server) : List (Nat × Nat) :=
  headFields s ++ ((s.chunks ++ s.writingChunks).flatMap (chunkFields s) ++ [(8, totalFiles s)])

/-- The bytes of the report. -/
def detailInfos (s : Server) : Bytes := encodeFields (detailFields s)

/-- The details are those of the server: the counters, for every chunk its space at the
position of its id, and the number of files of all chunks. -/
structure Details.Reports (d : Details) (s : Server) : Prop where
  connCount : d.connCount = s.statistic.connCount
  readingCount : d.readingCount = s.statistic.readingCount
  writingCount : d.writingCount = s.statistic.writingCount
  pendingWrites : d.pendingWrites = s.pendingWritesSize
  readCount : d.readCount = s.statistic.readCount
  writeCount : d.writeCount = s.statistic.writeCount
  readError : d.readError = s.statistic.readError
  writeError : d.writeError = s.statistic.writeError
  readBytes : d.readBytes = s.statistic.readBytes
  writeBytes : d.writeBytes = s.statistic.writeBytes
  nChunks : d.nChunks = s.chunkIndex.length
  places : d.chunkInfos.length = d.nChunks
  avail : ∀ id ∈ s.chunkIndex, ∃ i, i + 1 = id.toNat ∧
    d.chunkInfos[i]? = some (s.chunk id).availSpace
  filesCount : d.filesCount = (s.chunkIndex.map fun id => (s.chunk id).filesCount).sum

section Report
variable {s s' : Server} {c : Nat} {conn conn' : Connection} {env : Env}

theorem encodeFields_chunkFields (ids : List UInt64) :
    encodeFields (ids.flatMap (chunkFields s)) = ids.flatMap (chunkLine s) := by
  unfold encodeFields
  rw [List.flatMap_assoc]
  refine List.flatMap_congr fun id _ => ?_
  simp only [chunkFields, chunkLine, spyMachWriteTo8, List.flatMap_cons, List.flatMap_nil,
    List.append_nil]

theorem width_chunkFields (ids : List UInt64) :
    width (ids.flatMap (chunkFields s)) = ids.length * 16 := by
  induction ids with
  | nil => rfl
  | cons id ids ih =>
    rw [List.flatMap_cons, width_append, ih, List.length_cons, Nat.succ_mul, Nat.add_comm]
    rfl

theorem width_headFields (s : Server) : width (headFields s) = 68 := by
  simp [headFields, width]

/-- The report is that of its fields, if it fits the buffer it is written to. -/
theorem spyQueryDetailInfos_eq : spyQueryDetailInfos s c conn env =
    if (detailInfos s).length = defDetailInfosHdrSize + s.nChunks * 16 then
      replyWithBody s c conn env (detailInfos s)
    else .error .wildPointer := by
  unfold detailInfos detailFields
  rw [encodeFields_append, encodeFields_append, encodeFields_chunkFields]
  simp only [headFields, encodeFields, List.flatMap_cons, List.flatMap_nil, List.append_nil,
    List.append_assoc]
  rfl

theorem detailInfos_length :
    (detailInfos s).length = 76 + (s.chunks ++ s.writingChunks).length * 16 := by
  unfold detailInfos detailFields
  rw [encodeFields_length, width_append, width_append, width_chunkFields, width_headFields,
    width_cons]
  simp only [width, List.map_nil, List.sum_nil]
  omega

/-- The report fits the buffer exactly. -/
theorem detailInfos_fits (h : ServerInv s) :
    (detailInfos s).length = defDetailInfosHdrSize + s.nChunks * 16 := by
  have hcount : s.nChunks = s.chunkIndex.length := h.lists.count
  have hall : (s.chunks ++ s.writingChunks).length = s.chunkIndex.length := h.lists.all.length_eq
  rw [detailInfos_length, hall, hcount, defDetailInfosHdrSize]

/-- What is sent if there is room for the report. -/
theorem replyWithBody_response {body : Bytes} (hr : Ready conn)
    (hs : replyWithBody s c conn env body = .ok s') (hc : s'.conns c = some conn')
    (hok : conn'.error = .success) :
    conn'.response = encodeFields [(1, conn.opcode), (1, 0), (4, u32 body.length)] ++
      body.take (u32 body.length) := by
  unfold replyWithBody at hs
  rcases hexp : expandTo body.length env.calloc (body.length / memBlockRoom + 1) s.mem
    conn.rspBody with ⟨mem, rspBody, done⟩
  rw [hexp] at hs
  obtain ⟨k, -, rfl, -⟩ := expandTo_draws _ _ _ hexp
  cases done with
  | false =>
    obtain rfl := Except.ok.inj hs
    obtain rfl := Option.some.inj ((if_pos rfl).symm.trans hc)
    cases hok
  | true =>
    simp only at hs
    split at hs
    · rename_i hall
      obtain rfl := Except.ok.inj hs
      obtain rfl := Option.some.inj ((if_pos rfl).symm.trans hc)
      have hfits : RwBuffer.Fits { conn.rspBody with blocks := conn.rspBody.blocks + k } := by
        rw [hr.rspBody]
        exact ⟨Nat.le_refl _, Nat.zero_le _⟩
      obtain ⟨hput, -⟩ := spyRwBufferWriteN_all hall hfits
      show (bodyReply conn (u32 body.length) _).response = _
      rw [bodyReply_eq hr.unsent, hput, hr.rspBody]
      simp only [Connection.response, encodeFields, List.flatMap_cons, List.flatMap_nil,
        List.append_nil]
      rfl
    · cases hs

end Report

/-! ## Reading the fields -/

section Fields
variable {infos : Bytes} {fs gs : List (Nat × Nat)} {w v lo hi i left n : Nat}
  {table table' : List Nat} {d : Details}

theorem wordAt_field (fs gs : List (Nat × Nat)) (hlo : width fs = lo) (hhi : lo + w = hi)
    (hv : v < 256 ^ w) : wordAt (encodeFields (fs ++ (w, v) :: gs)) lo hi = some v := by
  rw [wordAt, between_field fs gs hlo hhi, Option.map_some, beDecode_beEncode_of_lt hv]

theorem wordAt_eq_some (h : wordAt infos lo hi = some v) : lo ≤ hi ∧ hi ≤ infos.length := by
  obtain ⟨b, hb, -⟩ := Option.map_eq_some_iff.mp h
  obtain ⟨hle, hlen, -⟩ := between_eq_some hb
  exact ⟨hle, hlen⟩

/-- The loop does not read beyond the end, and no position wraps around on the way. -/
theorem readChunkInfos_length (hi : 68 + i * 16 ≤ infos.length)
    (hlen : infos.length < 4294967296) (h : readChunkInfos infos left i table = some table') :
    68 + (i + left) * 16 ≤ infos.length := by
  induction left generalizing i table with
  | zero => exact hi
  | succ left ih =>
    obtain ⟨index, hindex, h⟩ := Option.bind_eq_some_iff.mp h
    obtain ⟨avail, havail, h⟩ := Option.bind_eq_some_iff.mp h
    obtain ⟨table'', -, h⟩ := Option.bind_eq_some_iff.mp h
    obtain ⟨h1, h2⟩ := wordAt_eq_some hindex
    obtain ⟨h3, h4⟩ := wordAt_eq_some havail
    simp only [queryDetailHdrSize, u32] at h1 h2 h3 h4
    have hnext := ih (i := i + 1) (by omega) h
    omega

/-- Whatever is printed was all there. -/
theorem readDetails_length (hlen : infos.length < 4294967296)
    (h : readDetails infos = some d) : 76 + d.nChunks * 16 ≤ infos.length := by
  unfold readDetails at h
  iterate 10 obtain ⟨_, -, h⟩ := Option.bind_eq_some_iff.mp h
  obtain ⟨n, hn, h⟩ := Option.bind_eq_some_iff.mp h
  obtain ⟨table, htable, h⟩ := Option.bind_eq_some_iff.mp h
  obtain ⟨files, hfiles, h⟩ := Option.bind_eq_some_iff.mp h
  cases h
  have hend := readChunkInfos_length (i := 0) (wordAt_eq_some hn).2 hlen htable
  obtain ⟨rest, hrest, hword⟩ := Option.bind_eq_some_iff.mp hfiles
  obtain ⟨-, -, hlength⟩ := between_eq_some hrest
  have hword := (wordAt_eq_some hword).2
  simp only [queryDetailHdrSize, u32] at hlength
  show 76 + n * 16 ≤ _
  omega

end Fields

/-! ## The table of the chunks -/

/-- The rounds of the loop on what the server wrote. -/
def placeChunks (s : Server) (ids : List UInt64) (table : List Nat) : Option (List Nat) :=
  ids.foldlM (fun table id =>
    placeChunk table (s.chunk id).chunkId.toNat (s.chunk id).availSpace) table

section Table
variable {s : Server} {ids : List UInt64} {table table' : List Nat}

theorem u64_pred {x : Nat} (hx : x < 18446744073709551616) (hpos : 1 ≤ x) :
    u64 ((x : Int) - 1) = x - 1 := by
  unfold u64
  omega

theorem placeChunk_eq_some {index avail : Nat} (hindex : index < 18446744073709551616)
    (hlen : table.length < 4294967296) :
    placeChunk table index avail = some table' ↔
      (1 ≤ index ∧ index ≤ table.length) ∧ table' = table.set (index - 1) avail := by
  unfold placeChunk
  constructor
  · intro h
    split at h
    · rename_i hlt
      have hpos : 1 ≤ index := by
        unfold u64 at hlt
        omega
      rw [u64_pred hindex hpos] at h hlt
      exact ⟨⟨hpos, by omega⟩, (Option.some.inj h).symm⟩
    · cases h
  · intro h
    obtain ⟨⟨hpos, hle⟩, rfl⟩ := h
    rw [u64_pred hindex hpos, if_pos (by omega)]

/-- An id outside the table stops the client. -/
theorem placeChunks_range (hids : ∀ id ∈ ids, (s.chunk id).chunkId = id)
    (hlen : table.length < 4294967296) (h : placeChunks s ids table = some table') :
    ∀ id ∈ ids, 1 ≤ id.toNat ∧ id.toNat ≤ table.length := by
  induction ids generalizing table with
  | nil =>
    intro id hid
    cases hid
  | cons a ids ih =>
    unfold placeChunks at h
    rw [List.foldlM_cons] at h
    obtain ⟨table'', hplace, h⟩ := Option.bind_eq_some_iff.mp h
    rw [hids a List.mem_cons_self] at hplace
    obtain ⟨hrange, rfl⟩ := (placeChunk_eq_some a.toNat_lt hlen).mp hplace
    have hrest := ih (fun id hid => hids id (List.mem_cons_of_mem a hid))
      (by rw [List.length_set]; exact hlen) h
    rw [List.length_set] at hrest
    exact List.forall_mem_cons.mpr ⟨hrange, hrest⟩

/-- With every id inside, each chunk gets its own place. -/
theorem placeChunks_spec (hids : ∀ id ∈ ids, (s.chunk id).chunkId = id) (hnd : ids.Nodup)
    (table : List Nat) (hlen : table.length < 4294967296)
    (hrange : ∀ id ∈ ids, 1 ≤ id.toNat ∧ id.toNat ≤ table.length) :
    ∃ table', placeChunks s ids table = some table' ∧ table'.length = table.length ∧
      (∀ id ∈ ids, table'[id.toNat - 1]? = some (s.chunk id).availSpace) ∧
      ∀ i, (∀ id ∈ ids, i + 1 ≠ id.toNat) → table'[i]? = table[i]? := by
  induction ids generalizing table with
  | nil => exact ⟨table, rfl, rfl, fun id hid => absurd hid List.not_mem_nil, fun _ _ => rfl⟩
  | cons a ids ih =>
    obtain ⟨hnew, hnd⟩ := List.nodup_cons.mp hnd
    obtain ⟨ha, hrest⟩ := List.forall_mem_cons.mp hrange
    have hset : (table.set (a.toNat - 1) (s.chunk a).availSpace).length = table.length :=
      List.length_set
    obtain ⟨table', hplace, hlength, hin, hout⟩ := ih
      (fun id hid => hids id (List.mem_cons_of_mem a hid)) hnd _ (hset ▸ hlen)
      (fun id hid => hset ▸ hrest id hid)
    refine ⟨table', ?_, hlength.trans hset, List.forall_mem_cons.mpr ⟨?_, hin⟩, ?_⟩
    · unfold placeChunks
      rw [List.foldlM_cons, hids a List.mem_cons_self,
        (placeChunk_eq_some a.toNat_lt hlen).mpr ⟨ha, rfl⟩]
      exact hplace
    · -- no later chunk has the same place
      rw [hout, List.getElem?_set_self (by omega)]
      intro id hid he
      have heq : a = id := UInt64.toNat_inj.mp (by omega)
      exact hnew (heq ▸ hid)
    · intro i hi
      obtain ⟨hne, hi⟩ := List.forall_mem_cons.mp hi
      rw [hout i hi, List.getElem?_set_ne (by omega)]

end Table

/-! ## The whole report -/

/-- What is printed with this table of the chunks. -/
def detailsOf (s : Server) (table : List Nat) : Details where
  connCount := s.statistic.connCount
  readingCount := s.statistic.readingCount
  writingCount := s.statistic.writingCount
  pendingWrites := s.pendingWritesSize
  readCount := s.statistic.readCount
  writeCount := s.statistic.writeCount
  readError := s.statistic.readError
  writeError := s.statistic.writeError
  readBytes := s.statistic.readBytes
  writeBytes := s.statistic.writeBytes
  nChunks := s.nChunks
  chunkInfos := table
  filesCount := totalFiles s

section RoundTrip
variable {cfg : Config} {s s' : Server} {c : Nat} {conn conn' : Connection} {env : Env}

/-- The loop, line by line. -/
theorem readChunkInfos_fields (hr : ∀ id, (s.chunk id).InRange) (ids : List UInt64)
    (fs gs : List (Nat × Nat)) {i : Nat} (hfs : width fs = 68 + i * 16)
    (hlen : 68 + (i + ids.length) * 16 < 4294967296) (table : List Nat) :
    readChunkInfos (encodeFields (fs ++ (ids.flatMap (chunkFields s) ++ gs))) ids.length i table =
      placeChunks s ids table := by
  induction ids generalizing fs i table with
  | nil => rfl
  | cons id ids ih =>
    rw [List.length_cons] at hlen
    have h0 : u32 (queryDetailHdrSize + i * 16) = 68 + i * 16 := by
      unfold u32 queryDetailHdrSize
      omega
    have h8 : u32 (queryDetailHdrSize + i * 16 + 8) = 68 + i * 16 + 8 := by
      unfold u32 queryDetailHdrSize
      omega
    have h16 : u32 (queryDetailHdrSize + i * 16 + 16) = 68 + i * 16 + 8 + 8 := by
      unfold u32 queryDetailHdrSize
      omega
    have hsplit : fs ++ ((id :: ids).flatMap (chunkFields s) ++ gs) =
        (fs ++ [(8, (s.chunk id).chunkId.toNat)]) ++ (8, (s.chunk id).availSpace) ::
          (ids.flatMap (chunkFields s) ++ gs) := by
      rw [List.flatMap_cons, chunkFields, List.append_assoc, List.append_assoc]
      rfl
    have hindex : wordAt (encodeFields (fs ++ ((id :: ids).flatMap (chunkFields s) ++ gs)))
        (68 + i * 16) (68 + i * 16 + 8) = some (s.chunk id).chunkId.toNat :=
      wordAt_field fs _ hfs rfl (s.chunk id).chunkId.toNat_lt
    have havail : wordAt (encodeFields (fs ++ ((id :: ids).flatMap (chunkFields s) ++ gs)))
        (68 + i * 16 + 8) (68 + i * 16 + 8 + 8) = some (s.chunk id).availSpace := by
      rw [hsplit]
      refine wordAt_field _ _ ?_ rfl (hr id).2.2.2
      rw [width_append, hfs]
      rfl
    have hnext := ih (fs ++ chunkFields s id) (i := i + 1)
      (by
        rw [width_append, hfs, Nat.succ_mul]
        rfl)
      (by omega)
    unfold placeChunks
    rw [List.length_cons, readChunkInfos, h0, h8, h16, hindex, havail, List.foldlM_cons]
    simp only [bind, Option.bind_some]
    congr 1
    funext table'
    rw [List.flatMap_cons, List.append_assoc, ← List.append_assoc fs]
    exact hnext table'

theorem totalFiles_eq (h : ServerInv s) :
    totalFiles s = (s.chunkIndex.map fun id => (s.chunk id).filesCount).sum :=
  (h.lists.all.map _).sum_eq

theorem totalFiles_lt (h : ServerInv s) (hn : s.chunkIndex.length < 4294967296) :
    totalFiles s < 18446744073709551616 := by
  have hle : (s.chunkIndex.map fun id => (s.chunk id).filesCount).sum ≤
      (s.chunkIndex.map fun id => (s.chunk id).filesCount).length • 4294967295 := by
    refine List.sum_le_card_nsmul _ _ fun x hx => ?_
    obtain ⟨id, -, rfl⟩ := List.mem_map.mp hx
    exact Nat.le_pred_of_lt (h.chunk id).2.1
  rw [List.length_map, nsmul_eq_mul, Nat.cast_id] at hle
  rw [totalFiles_eq h]
  omega

theorem detailsOf_reports (h : ServerInv s) {table : List Nat}
    (hlen : table.length = s.chunkIndex.length)
    (havail : ∀ id ∈ s.chunkIndex, ∃ i, i + 1 = id.toNat ∧
      table[i]? = some (s.chunk id).availSpace) : (detailsOf s table).Reports s where
  connCount := rfl
  readingCount := rfl
  writingCount := rfl
  pendingWrites := rfl
  readCount := rfl
  writeCount := rfl
  readError := rfl
  writeError := rfl
  readBytes := rfl
  writeBytes := rfl
  nChunks := h.lists.count
  places := hlen.trans h.lists.count.symm
  avail := havail
  filesCount := totalFiles_eq h

/-- A field before the lines of the chunks. -/
theorem wordAt_head (fs gs : List (Nat × Nat)) {w v lo hi : Nat}
    (hsplit : headFields s = fs ++ (w, v) :: gs) (hlo : width fs = lo) (hhi : lo + w = hi)
    (hv : v < 256 ^ w) : wordAt (detailInfos s) lo hi = some v := by
  unfold detailInfos detailFields
  rw [hsplit, List.append_assoc, List.cons_append]
  exact wordAt_field fs _ hlo hhi hv

/-- The last field, behind those lines. -/
theorem uint64From_detailInfos (h : ServerInv s)
    (hlen : 76 + s.chunkIndex.length * 16 < 4294967296) :
    uint64From (detailInfos s) (u32 (queryDetailHdrSize + 16 * s.nChunks)) =
      some (totalFiles s) := by
  have hcount : s.nChunks = s.chunkIndex.length := h.lists.count
  have hall : (s.chunks ++ s.writingChunks).length = s.chunkIndex.length := h.lists.all.length_eq
  have hwidth : width (headFields s ++ (s.chunks ++ s.writingChunks).flatMap (chunkFields s)) =
      68 + s.chunkIndex.length * 16 := by
    rw [width_append, width_chunkFields, hall, width_headFields]
  have hpos : u32 (queryDetailHdrSize + 16 * s.nChunks) = 68 + s.chunkIndex.length * 16 := by
    rw [hcount]
    unfold u32 queryDetailHdrSize
    omega
  have hend : (detailInfos s).length = 68 + s.chunkIndex.length * 16 + 8 := by
    rw [detailInfos_length, hall]
    omega
  have hlast : between (68 + s.chunkIndex.length * 16) (68 + s.chunkIndex.length * 16 + 8)
      (detailInfos s) = some (beEncode 8 (totalFiles s)) := by
    rw [detailInfos, detailFields, ← List.append_assoc]
    exact between_field _ [] hwidth rfl
  have hword : wordAt (encodeFields [(8, totalFiles s)]) 0 8 = some (totalFiles s) :=
    wordAt_field [] [] rfl rfl (totalFiles_lt h (by omega))
  rw [encodeFields_cons] at hword
  unfold uint64From
  rw [hpos, hend, hlast, ← List.append_nil (beEncode 8 (totalFiles s))]
  exact hword

/-- On a report that is not too long only the table can fail. -/
theorem readDetails_detailInfos (h : ServerInv s)
    (hlen : 76 + s.chunkIndex.length * 16 < 4294967296) :
    readDetails (detailInfos s) =
      (placeChunks s (s.chunks ++ s.writingChunks)
        (List.replicate s.chunkIndex.length 0)).map (detailsOf s) := by
  have ht := h.statistic
  have hcount : s.nChunks = s.chunkIndex.length := h.lists.count
  have hall : (s.chunks ++ s.writingChunks).length = s.chunkIndex.length := h.lists.all.length_eq
  have hpending : s.pendingWritesSize < 4294967296 := by
    have hsize : s.pendingWritesSize = s.pendingWrites.length := h.lists.size
    have hfew : s.pendingWrites.length ≤ 20 := h.lists.few
    omega
  have h0 : wordAt (detailInfos s) 0 4 = some s.statistic.connCount :=
    wordAt_head [] _ rfl rfl rfl ht.connCount
  have h4 : wordAt (detailInfos s) 4 8 = some s.statistic.readingCount :=
    wordAt_head [_] _ rfl rfl rfl ht.readingCount
  have h8 : wordAt (detailInfos s) 8 12 = some s.statistic.writingCount :=
    wordAt_head [_, _] _ rfl rfl rfl ht.writingCount
  have h12 : wordAt (detailInfos s) 12 16 = some s.pendingWritesSize :=
    wordAt_head [_, _, _] _ rfl rfl rfl hpending
  have h16 : wordAt (detailInfos s) 16 24 = some s.statistic.readCount :=
    wordAt_head [_, _, _, _] _ rfl rfl rfl ht.readCount
  have h24 : wordAt (detailInfos s) 24 32 = some s.statistic.writeCount :=
    wordAt_head [_, _, _, _, _] _ rfl rfl rfl ht.writeCount
  have h32 : wordAt (detailInfos s) 32 40 = some s.statistic.readError :=
    wordAt_head [_, _, _, _, _, _] _ rfl rfl rfl ht.readError
  have h40 : wordAt (detailInfos s) 40 48 = some s.statistic.writeError :=
    wordAt_head [_, _, _, _, _, _, _] _ rfl rfl rfl ht.writeError
  have h48 : wordAt (detailInfos s) 48 56 = some s.statistic.readBytes :=
    wordAt_head [_, _, _, _, _, _, _, _] _ rfl rfl rfl ht.readBytes
  have h56 : wordAt (detailInfos s) 56 64 = some s.statistic.writeBytes :=
    wordAt_head [_, _, _, _, _, _, _, _, _] _ rfl rfl rfl ht.writeBytes
  have h64 : wordAt (detailInfos s) 64 68 = some s.nChunks :=
    wordAt_head [_, _, _, _, _, _, _, _, _, _] [] rfl rfl rfl (show s.nChunks < 256 ^ 4 by omega)
  have hlines : readChunkInfos (detailInfos s) s.nChunks 0 (List.replicate s.nChunks 0) =
      placeChunks s (s.chunks ++ s.writingChunks) (List.replicate s.chunkIndex.length 0) := by
    rw [hcount, ← hall]
    exact readChunkInfos_fields h.chunk _ (headFields s) _ (width_headFields s) (by omega) _
  have hfiles := uint64From_detailInfos h hlen
  unfold readDetails
  rw [h0, h4, h8, h12, h16, h24, h32, h40, h48, h56, h64]
  simp only [bind, Option.bind_some, hlines, hfiles]
  cases placeChunks s (s.chunks ++ s.writingChunks) (List.replicate s.chunkIndex.length 0) <;> rfl

/-- The client on a response to its request, whatever its body is. -/
theorem queryDetails_eq (infos more : Bytes) (pieces : List Bytes) (ending : Ending)
    (hlen : infos.length < 4294967296)
    (hwire : pieces.flatten =
      encodeFields [(1, opcodeQeuryDetails), (1, 0), (4, infos.length)] ++ (infos ++ more)) :
    queryDetails true pieces ending =
      if infos.length < queryDetailHdrSize then .invalidBodyLen infos.length
      else match readDetails infos with
        | none => .panicked
        | some details => .ok details := by
  obtain ⟨rb, hheader, hrest⟩ := BufReader.readFull_take (n := 6)
    (r := ⟨1024, reader_roomy, [], pieces⟩) (by
      rw [BufReader.unread, List.nil_append, hwire, List.length_append, encodeFields_length]
      exact Nat.le_add_right 6 _)
  have h6 : (encodeFields [(1, opcodeQeuryDetails), (1, 0), (4, infos.length)]).length = 6 :=
    encodeFields_length _
  have hunread : (⟨1024, reader_roomy, [], pieces⟩ : BufReader UInt8).unread = _ := hwire
  rw [hunread, List.take_left' h6] at hheader
  rw [hunread, List.drop_left' h6] at hrest
  have hbodyLen : beDecode ((List.drop 2 (encodeFields
      [(1, opcodeQeuryDetails), (1, 0), (4, infos.length)])).take 4) = infos.length := by
    show beDecode ((beEncode 4 infos.length ++ []).take 4) = _
    rw [List.append_nil, List.take_of_length_le (Nat.le_of_eq (beEncode_length 4 _)),
      beDecode_beEncode_of_lt hlen]
  obtain ⟨rb', hbody, -⟩ := BufReader.readFull_take (n := infos.length) (r := rb) (by
    rw [hrest, List.length_append]
    exact Nat.le_add_right _ _)
  rw [hrest, List.take_left' rfl] at hbody
  unfold queryDetails
  simp only [hheader, hbodyLen, hbody]
  rfl

theorem detailInfos_length_eq (h : ServerInv s) :
    (detailInfos s).length = 76 + s.chunkIndex.length * 16 := by
  have hall : (s.chunks ++ s.writingChunks).length = s.chunkIndex.length := h.lists.all.length_eq
  rw [detailInfos_length, hall]

/-- What the client makes of the bytes that are sent. -/
theorem queryDetails_reports_iff {pieces : List Bytes} {ending : Ending} {more : Bytes}
    (h : ServerInv s)
    (hwire : pieces.flatten =
      encodeFields [(1, opcodeQeuryDetails), (1, 0), (4, u32 (detailInfos s).length)] ++
        ((detailInfos s).take (u32 (detailInfos s).length) ++ more)) :
    (∃ d, queryDetails true pieces ending = .ok d ∧ d.Reports s) ↔
      (∀ id ∈ s.chunkIndex, 1 ≤ id.toNat ∧ id.toNat ≤ s.chunkIndex.length) ∧
        76 + s.chunkIndex.length * 16 < 4294967296 := by
  have hlength := detailInfos_length_eq h
  have hids : ∀ id ∈ s.chunks ++ s.writingChunks, (s.chunk id).chunkId = id :=
    fun id hid => h.flow.ids id (h.lists.all.mem_iff.mp hid)
  have hnd : (s.chunks ++ s.writingChunks).Nodup := h.lists.all.nodup_iff.mpr h.lists.nodup
  have htaken : ((detailInfos s).take (u32 (detailInfos s).length)).length =
      u32 (detailInfos s).length := by
    rw [List.length_take]
    unfold u32
    omega
  have hshort : ((detailInfos s).take (u32 (detailInfos s).length)).length < 4294967296 := by
    rw [htaken]
    exact u32_lt _
  have hquery := queryDetails_eq _ more pieces ending hshort (by
    rw [htaken]
    exact hwire)
  rw [htaken] at hquery
  constructor
  · intro hd
    obtain ⟨d, hd, hreports⟩ := hd
    rw [hquery] at hd
    split at hd
    · cases hd
    · split at hd
      · cases hd
      · rename_i d' hread
        cases hd
        -- the table has a place for every chunk, so the report was not cut
        have hroom := readDetails_length hshort hread
        rw [htaken, hreports.nChunks, ← hlength] at hroom
        have hfits : 76 + s.chunkIndex.length * 16 < 4294967296 := by
          rw [← hlength]
          exact Nat.lt_of_le_of_lt hroom (u32_lt _)
        rw [List.take_of_length_le hroom, readDetails_detailInfos h hfits] at hread
        obtain ⟨table, hplace, -⟩ := Option.map_eq_some_iff.mp hread
        have hrange := placeChunks_range hids (by rw [List.length_replicate]; omega) hplace
        rw [List.length_replicate] at hrange
        exact ⟨fun id hid => hrange id (h.lists.all.mem_iff.mpr hid), hfits⟩
  · intro hgood
    obtain ⟨hrange, hfits⟩ := hgood
    have hall : u32 (detailInfos s).length = (detailInfos s).length := by
      refine u32_of_lt ?_
      rw [hlength]
      exact hfits
    obtain ⟨table, hplace, hlen, havail, -⟩ := placeChunks_spec hids hnd
      (List.replicate s.chunkIndex.length 0) (by rw [List.length_replicate]; omega)
      (fun id hid => by
        rw [List.length_replicate]
        exact hrange id (h.lists.all.mem_iff.mp hid))
    rw [List.length_replicate] at hlen
    rw [hall, if_neg (by rw [hlength]; unfold queryDetailHdrSize; omega), List.take_length,
      readDetails_detailInfos h hfits, hplace] at hquery
    refine ⟨detailsOf s table, hquery, detailsOf_reports h hlen ?_⟩
    intro id hid
    obtain ⟨hpos, -⟩ := hrange id hid
    exact ⟨id.toNat - 1, Nat.sub_add_cancel hpos, havail id (h.lists.all.mem_iff.mpr hid)⟩

/-- In every run from any data directory the report fits the buffer it is written to, and
what the client makes of it is right exactly when the ids of the chunks are the numbers from
one on and the length of the report fits its four bytes. -/
theorem detail_report_agrees_iff {create : UInt64 → Bool} {dir : List DirEntry} {t : Started}
    (hboot : spyCreateOrRecoverFiles cfg create dir = .ok t)
    (hrun : Reach (· = Server.start cfg t) (fun s e s' => step cfg s e = .ok s') s) :
    (detailInfos s).length = defDetailInfosHdrSize + s.nChunks * 16 ∧
    spyQueryDetailInfos s c conn env = replyWithBody s c conn env (detailInfos s) ∧
    (Ready conn → conn.opcode = opcodeQeuryDetails →
      spyQueryDetailInfos s c conn env = .ok s' → s'.conns c = some conn' →
      conn'.error = .success → ∀ pieces ending more, pieces.flatten = conn'.response ++ more →
        ((∃ d, queryDetails true pieces ending = .ok d ∧ d.Reports s) ↔
          (∀ k ∈ t.st.chunks, 1 ≤ k.chunkId.toNat ∧ k.chunkId.toNat ≤ t.st.chunks.length) ∧
            defDetailInfosHdrSize + t.st.chunks.length * 16 < 4294967296)) := by
  obtain ⟨hinv, hindex⟩ := serverInv_of_run hboot hrun
  have hcount : s.chunkIndex.length = t.st.chunks.length := by
    rw [hindex, List.length_map]
  have hfits := detailInfos_fits hinv
  have hreply : spyQueryDetailInfos s c conn env = replyWithBody s c conn env (detailInfos s) := by
    rw [spyQueryDetailInfos_eq, if_pos hfits]
  refine ⟨hfits, hreply, ?_⟩
  intro hready hop hs hc hok pieces ending more hwire
  rw [hreply] at hs
  rw [replyWithBody_response hready hs hc hok, hop, List.append_assoc] at hwire
  rw [queryDetails_reports_iff hinv hwire, hindex, List.length_map]
  refine and_congr_left fun _ => ?_
  exact List.forall_mem_map

/-- A connection with the request of the client. -/
def queryConn : Connection :=
  { Connection.new with
    opcode := opcodeQeuryDetails
    state := .processRequest
    request := ⟨[32, 0, 0, 0, 0], 5, 1⟩ }

/-- The two chunks of a new server are reported. -/
theorem new_server_report_agrees : ∃ s' conn' d,
    spyQueryDetailInfos (newServer sampleConfig) 0 queryConn ⟨0, 0, true, true⟩ = .ok s' ∧
    s'.conns 0 = some conn' ∧ queryDetails true [conn'.response] .waiting = .ok d ∧
      d.Reports (newServer sampleConfig) := by
  have hplay : (spyQueryDetailInfos (newServer sampleConfig) 0 queryConn
      ⟨0, 0, true, true⟩).map (fun s' => (s'.conns 0).map (·.error)) = .ok (some .success) := by
    decide +kernel
  obtain ⟨s', hreply, hview⟩ := map_eq_ok hplay
  obtain ⟨conn', hc, hok⟩ := Option.map_eq_some_iff.mp hview
  have hready : Ready queryConn := ⟨rfl, rfl, rfl, rfl, by decide, by decide, rfl⟩
  obtain ⟨create, t, hboot, hstart⟩ := newServer_fresh
  have hids : t.st.chunks.map Chunk.chunkId = [2, 1] := by
    have hindex : (newServer sampleConfig).chunkIndex = [2, 1] := by decide +kernel
    rw [hstart] at hindex
    exact hindex
  have hgood : (∀ k ∈ t.st.chunks, 1 ≤ k.chunkId.toNat ∧ k.chunkId.toNat ≤ t.st.chunks.length) ∧
      defDetailInfosHdrSize + t.st.chunks.length * 16 < 4294967296 := by
    have hrange : ∀ id ∈ t.st.chunks.map Chunk.chunkId, 1 ≤ id.toNat ∧ id.toNat ≤ 2 := by
      rw [hids]
      exact List.forall_mem_cons.mpr ⟨by decide, List.forall_mem_singleton.mpr (by decide)⟩
    rw [← List.length_map Chunk.chunkId, hids]
    exact ⟨List.forall_mem_map.mp hrange, by decide⟩
  obtain ⟨d, hd, hreports⟩ := ((detail_report_agrees_iff hboot (.init hstart)).2.2 hready rfl
    hreply hc hok [conn'.response] .waiting [] (by simp)).mpr hgood
  exact ⟨s', conn', d, hreply, hc, hd, hreports⟩

/-- The file of a chunk with id 2. -/
def secondChunk : DirEntry :=
  ⟨true, [], store (fun _ => 0) 0 (spyFillSuperblock (spyAllocChunk 2 defChunkSize)),
    defChunkSize, fullReads⟩

/-- A server that finds only this file starts, and its report stops the client. -/
theorem second_chunk_alone_panics : ∃ t s conn,
    spyCreateOrRecoverFiles sampleConfig (fun _ => false) [secondChunk] = .ok t ∧
    Reach (· = Server.start sampleConfig t) (fun s e s' => step sampleConfig s e = .ok s') s ∧
    s.conns 0 = some conn ∧ conn.error = .success ∧
      queryDetails true [conn.response] .waiting = .panicked := by
  have hplay : (spyCreateOrRecoverFiles sampleConfig (fun _ => false) [secondChunk]).map
      (fun t => (Chunkserver.play sampleConfig (fun _ _ _ => true)
        [.accept, .readable 0 (.data [32, 0, 0, 0, 0]) ⟨0, 0, true, true⟩]
        (Server.start sampleConfig t)).map fun s => (s.conns 0).map fun conn =>
          (conn.error, queryDetails true [conn.response] .waiting)) =
      .ok (.ok (some (.success, .panicked))) := by
    decide +kernel
  obtain ⟨t, hboot, hplay⟩ := map_eq_ok hplay
  obtain ⟨s, hs, hview⟩ := map_eq_ok hplay
  obtain ⟨conn, hc, hview⟩ := Option.map_eq_some_iff.mp hview
  obtain ⟨hok, hpanic⟩ := Prod.mk.inj hview
  have hinit : Reach (· = Server.start sampleConfig t)
      (fun s e s' => step sampleConfig s e = .ok s' ∧ true = true) (Server.start sampleConfig t) :=
    .init rfl
  exact ⟨t, s, conn, hboot, (play_run _ hinit hs).mono fun _ _ _ h => h.1, hc, hok, hpanic⟩

end RoundTrip
end Speedy.Chunktool
