import Speedy.Chunkserver.RecordSum
import Speedy.Chunkserver.Responses

/-! # One damaged byte

The checksum tells apart any two byte lists that differ in one place. A superblock with
one damaged byte is therefore refused. A record with one damaged byte is refused or
still good, except where the damage is in the size field of its header: nothing covers
that field, and the length of the answer is taken from it. -/
namespace Speedy.Chunkserver
open Speedy.Lib

section Damage
variable {data : Bytes} {i : Nat} {x b : UInt8}

/-! ## The checksum and one byte -/

theorem recombine_eq {st : Nat × Nat} (h : st.1 < 2 ^ 16) : recombine st = st.2 * 65536 + st.1 := by
  unfold recombine
  rw [Nat.or_comm, ← Nat.shiftLeft_add_eq_or_of_lt h, Nat.shiftLeft_eq]

theorem recombine_fst {st : Nat × Nat} (h : st.1 < 2 ^ 16) : recombine st % 65536 = st.1 := by
  rw [recombine_eq h]
  omega

theorem set_split (hx : data[i]? = some x) (b : UInt8) :
    ∃ before behind, data = before ++ x :: behind ∧ data.set i b = before ++ b :: behind := by
  obtain ⟨hlt, rfl⟩ := List.getElem?_eq_some_iff.mp hx
  refine ⟨data.take i, data.drop (i + 1), ?_, List.set_eq_take_append_cons_drop.trans (if_pos hlt)⟩
  rw [← List.drop_eq_getElem_cons hlt, List.take_append_drop]

/-- The low half of the checksum is the sum of the bytes. -/
theorem recordSum_mod (data : Bytes) :
    recordSum data % 65536 = (runningSums (0, 0) (data.map UInt8.toNat)).1 % 65521 := by
  unfold recordSum
  rw [recombine_fst (adlerSums_lt _ _).1, ← modBase_doSums_eq, doSums_eq]
  rfl

theorem recordSum_set (hx : data[i]? = some x) (hne : b ≠ x) :
    recordSum (data.set i b) ≠ recordSum data := by
  obtain ⟨before, behind, hdata, hset⟩ := set_split hx b
  intro he
  have hlow : recordSum (data.set i b) % 65536 = recordSum data % 65536 := by rw [he]
  rw [recordSum_mod, recordSum_mod, hset, hdata, List.map_append, List.map_append, List.map_cons,
    List.map_cons] at hlow
  refine runningSums_change ?_ ?_ (fun heq => hne (UInt8.toNat_inj.mp heq)) hlow
  · exact Nat.lt_trans b.toNat_lt (by decide)
  · exact Nat.lt_trans x.toNat_lt (by decide)

/-! ## Superblocks -/

/-- Both assertions together need the sum that is stored behind the first 47 bytes. -/
theorem spyParseChunkSuperblock_none {sb : Bytes} (c : Chunk)
    (h : spyMachReadFrom8 (sb.drop 47) ≠ recordSum (sb.take 47)) :
    spyParseChunkSuperblock sb c = none := by
  unfold spyParseChunkSuperblock
  simp only [spyAdler32_zero, List.drop_drop]
  by_cases hmagic : sb.take superblockMagicSize = superblockMagic
  · rw [if_pos hmagic]
    exact if_neg h
  · exact if_neg hmagic

/-- A superblock that was written is read back as it was, and with any one of its 55 bytes
changed it fails an assertion. -/
theorem damaged_superblock_is_detected {c : Chunk} (h : c.InRange) (c' : Chunk) :
    spyParseChunkSuperblock (spyFillSuperblock c) c' = some { c with fileSize := c'.fileSize } ∧
      ∀ (i : Nat) (b : UInt8), i < superblockSize → (spyFillSuperblock c)[i]? ≠ some b →
        spyParseChunkSuperblock ((spyFillSuperblock c).set i b) c' = none := by
  refine ⟨spyParseChunkSuperblock_fill h c', ?_⟩
  intro i b hi hb
  have hlen : (superblockBody c).length = 47 := superblockBody_length c
  have hstored : beDecode (spyMachWriteTo8 (spyAdler32 0 (superblockBody c))) =
      recordSum (superblockBody c) := by
    rw [spyAdler32_zero]
    exact beDecode_beEncode_of_lt (Nat.lt_trans (recordSum_lt _) (by decide))
  have hsum : (spyMachWriteTo8 (spyAdler32 0 (superblockBody c))).length = 8 := beEncode_length 8 _
  unfold spyFillSuperblock at hb ⊢
  generalize spyMachWriteTo8 (spyAdler32 0 (superblockBody c)) = sum at hstored hsum hb ⊢
  apply spyParseChunkSuperblock_none
  unfold spyMachReadFrom8
  rcases Nat.lt_or_ge i 47 with hlt | hge
  · -- in front of the checksum: the sum of what is there is another one
    obtain ⟨x, hx⟩ : ∃ x, (superblockBody c)[i]? = some x :=
      ⟨_, List.getElem?_eq_getElem (hlen ▸ hlt)⟩
    have hne : b ≠ x := by
      rintro rfl
      rw [List.getElem?_append_left (hlen ▸ hlt)] at hb
      exact hb hx
    have hlen' : ((superblockBody c).set i b).length = 47 := (List.length_set ..).trans hlen
    rw [List.set_append_left _ _ (hlen ▸ hlt), List.take_left' hlen', List.drop_left' hlen',
      List.take_of_length_le (Nat.le_of_eq hsum), hstored]
    exact (recordSum_set hx hne).symm
  · -- in the checksum itself: it is another one than that of what is there
    have hi' : i - 47 < sum.length := by
      rw [hsum]
      simp only [superblockSize, superblockMagicSize] at hi
      omega
    rw [List.set_append_right _ _ (hlen ▸ hge), hlen, List.take_left' hlen, List.drop_left' hlen,
      List.take_of_length_le (by rw [List.length_set, hsum]), ← hstored]
    intro he
    have hset := beDecode_inj (List.length_set ..) he
    rw [List.getElem?_append_right (hlen ▸ hge), hlen] at hb
    refine hb ?_
    rw [← hset]
    exact List.getElem?_set_self hi'

/-- A new chunk, and its superblock with a byte of `files_alloc` changed. -/
theorem damaged_superblock_sample :
    spyParseChunkSuperblock (spyFillSuperblock (spyAllocChunk 7 0)) (spyAllocChunk 0 0) =
        some (spyAllocChunk 7 0) ∧
      spyParseChunkSuperblock ((spyFillSuperblock (spyAllocChunk 7 0)).set 26 1)
        (spyAllocChunk 0 0) = none := by
  have hrange : (spyAllocChunk 7 0).InRange := ⟨by decide, by decide, by decide, by decide⟩
  have hcase := damaged_superblock_is_detected hrange (spyAllocChunk 0 0)
  exact ⟨hcase.1, hcase.2 26 1 (by decide) (by decide)⟩

/-! ## Reading a record -/

/-- `spy_read_file` to its end, at most `fuel` steps of it. -/
def spyReadFile (index : IndexEntry) (disk : ByteStore) :
    Nat → (Nat → Pread) → ReadRun → Option ReadRun
  | 0, _, r => some r
  | fuel + 1, ios, r => match r.pc with
    | .finished _ => some r
    | _ => match spyReadFileStep index disk (ios 0) r with
      | none => none
      | some r => spyReadFile index disk fuel (fun k => ios (k + 1)) r

/-- The job of a READ from the worker on: `spy_read_file`, then `spy_read_file_done`, then
`spy_write_handler` as often as the socket can take more. The result is the server and
the bytes handed to the socket. -/
def serveRead (s : Server) (job : IoJob) (ios : Nat → Pread) (rounds : List (List SockWrite)) :
    Except Fault (Server × Bytes) := do
  let conn ← s.conn job.conn
  match spyReadFile job.indexEntry (s.disk job.chunk) (job.indexEntry.size + 2) ios
      ⟨.start, conn.rspBody, job.file⟩ with
  | none => throw .assertion
  | some r => match r.pc with
    | .finished retcode => do
      let s := s.setConn job.conn { conn with rspBody := r.rspBody }
      let s ← spyReadFileDone s { job with file := r.file, retcode := retcode }
      sendRounds job.conn rounds s
    | _ => throw .disabled

section ReadFile
variable {index : IndexEntry} {disk : ByteStore}

theorem spyReadFile_finished (fuel : Nat) (ios : Nat → Pread) {r : ReadRun} {retcode : Int}
    (h : r.pc = .finished retcode) : spyReadFile index disk fuel ios r = some r := by
  cases fuel with
  | zero => rfl
  | succ fuel =>
    unfold spyReadFile
    simp only [h]

theorem spyReadFileCheck_finished {r r' : ReadRun} (h : spyReadFileCheck index r = some r') :
    ∃ retcode, r'.pc = .finished retcode := by
  unfold spyReadFileCheck at h
  simp only at h
  split at h
  · split at h
    · cases h
    · exact ⟨_, congrArg ReadRun.pc (Option.some.inj h).symm⟩
  · cases h

variable (disk) in
/-- The loop fills the buffer with what is on disk, or stops at a `pread()` that fails. -/
theorem spyReadFile_loop (fuel left blocks : Nat) (ios : Nat → Pread) (file : SpyFile)
    (hcap : index.size ≤ memBlockRoom * blocks) (hleft : left ≤ index.size) (hfuel : left < fuel)
    (hcheck : ∀ pc, ∃ r, spyReadFileCheck index
      ⟨pc, ⟨slice disk index.offset index.size, 0, blocks⟩, file⟩ = some r) :
    ∃ r, spyReadFile index disk fuel ios
        ⟨.loop left (index.offset + (index.size - left)),
          ⟨slice disk index.offset (index.size - left), 0, blocks⟩, file⟩ = some r ∧
      ((r.pc = .finished (-1) ∧ r.rspBody.readPos ≤ r.rspBody.writePos ∧ ∃ k, ios k = .failed) ∨
        ∃ pc, spyReadFileCheck index
          ⟨pc, ⟨slice disk index.offset index.size, 0, blocks⟩, file⟩ = some r) := by
  induction fuel generalizing left ios with
  | zero => exact absurd hfuel (Nat.not_lt_zero left)
  | succ fuel ih =>
    unfold spyReadFile spyReadFileStep
    by_cases hmore : left > 0
    · simp only [hmore, if_true]
      have hfull : (⟨slice disk index.offset (index.size - left), 0, blocks⟩ : RwBuffer).writePos ≠
          RwBuffer.cap ⟨slice disk index.offset (index.size - left), 0, blocks⟩ := by
        unfold RwBuffer.writePos RwBuffer.cap
        rw [slice_length]
        simp only
        omega
      have hpos := Nat.mod_lt
        (⟨slice disk index.offset (index.size - left), 0, blocks⟩ : RwBuffer).writePos
        (show 0 < memBlockRoom by decide)
      unfold spyRwBufferNextWriteable
      rw [if_neg hfull]
      generalize hlen : memBlockRoom - (⟨slice disk index.offset (index.size - left), 0, blocks⟩ :
        RwBuffer).writePos % memBlockRoom = len
      cases hio : ios 0 with
      | failed =>
        simp only
        rw [spyReadFile_finished fuel _ rfl]
        exact ⟨_, rfl, .inl ⟨rfl, Nat.zero_le _, 0, hio⟩⟩
      | full =>
        simp only
        obtain ⟨n, hn⟩ : ∃ n, n = min left len := ⟨_, rfl⟩
        rw [← hn]
        have hsplit : slice disk index.offset (index.size - left) ++
            slice disk (index.offset + (index.size - left)) n =
              slice disk index.offset (index.size - (left - n)) := by
          rw [← slice_add]
          congr 1
          omega
        have hoff : index.offset + (index.size - left) + n =
            index.offset + (index.size - (left - n)) := by omega
        obtain ⟨r, hr, hcases⟩ := ih (left - n) (fun k => ios (k + 1)) (by omega) (by omega)
        rw [← hsplit, ← hoff] at hr
        refine ⟨r, hr, hcases.imp ?_ id⟩
        rintro ⟨hpc, hle, k, hk⟩
        exact ⟨hpc, hle, k + 1, hk⟩
    · obtain rfl := Nat.eq_zero_of_not_pos hmore
      simp only [gt_iff_lt, Nat.lt_irrefl, if_false, Nat.sub_zero]
      obtain ⟨r, hr⟩ := hcheck (.loop 0 (index.offset + index.size))
      simp only [hr]
      obtain ⟨retcode, hpc⟩ := spyReadFileCheck_finished hr
      exact ⟨r, spyReadFile_finished fuel _ hpc, .inr ⟨_, hr⟩⟩

/-- From an empty buffer: the record as it is on disk is checked, unless a `pread()`
fails. -/
theorem spyReadFile_start {header payload : Bytes} (blocks : Nat) (ios : Nat → Pread)
    (file : SpyFile) (hbytes : slice disk index.offset index.size = header ++ payload)
    (hheader : header.length = fileMetaSize) (hsize : index.size = fileMetaSize + payload.length)
    (hlt : payload.length < 4294967296) (hcap : index.size ≤ memBlockRoom * blocks) :
    ∃ r, spyReadFile index disk (index.size + 2) ios ⟨.start, ⟨[], 0, blocks⟩, file⟩ = some r ∧
      ((r.pc = .finished (-1) ∧ r.rspBody.readPos ≤ r.rspBody.writePos ∧ ∃ k, ios k = .failed) ∨
        r = ⟨.finished (if (parseFileMeta header).fid ≠ index.fid ∨
            (parseFileMeta header).checksum ≠ recordSum payload then -1 else 0),
          ⟨header ++ payload, fileMetaSize, blocks⟩, parseFileMeta header⟩) := by
  have hcheck : ∀ pc, spyReadFileCheck index
      ⟨pc, ⟨slice disk index.offset index.size, 0, blocks⟩, file⟩ = some
        ⟨.finished (if (parseFileMeta header).fid ≠ index.fid ∨
            (parseFileMeta header).checksum ≠ recordSum payload then -1 else 0),
          ⟨header ++ payload, fileMetaSize, blocks⟩, parseFileMeta header⟩ := by
    intro pc
    rw [hbytes, spyReadFileCheck_eq (Nat.zero_le _) rfl hheader hsize hlt]
    rfl
  unfold spyReadFile spyReadFileStep
  have hroom : RwBuffer.cap ⟨[], 0, blocks⟩ ≥ index.size := hcap
  simp only [hroom, if_true]
  obtain ⟨r, hr, hcases⟩ := spyReadFile_loop disk (index.size + 1) index.size blocks
    (fun k => ios (k + 1)) file hcap (Nat.le_refl _) (Nat.lt_succ_self _)
    (fun pc => ⟨_, hcheck pc⟩)
  rw [Nat.sub_self, slice_zero] at hr
  refine ⟨r, hr, hcases.imp ?_ ?_⟩
  · rintro ⟨hpc, hle, k, hk⟩
    exact ⟨hpc, hle, k + 1, hk⟩
  · rintro ⟨pc, hpc⟩
    exact Option.some.inj (hpc.symm.trans (hcheck pc))

end ReadFile

/-! ## The answer to a READ -/

/-- The bytes that answer a READ. -/
def readWire (error : SpyError) (body : Bytes) : Bytes :=
  spyMachWriteTo1 1 ++ (spyMachWriteTo1 error.code ++ spyMachWriteTo4 body.length) ++ body

/-- `got` was handed to the socket, and the connection is reset when that is all. -/
def Delivered (conn : Connection) (wire got : Bytes) : Prop :=
  got <+: wire ∧ (conn.state = .receiveHdr ↔ got = wire)

/-- The READ is answered READ_ERROR, or SUCCESS with the length and the payload of the
record; the server goes on. -/
def GoodAnswer (c : Nat) (r : Record) (result : Except Fault (Server × Bytes)) : Prop :=
  ∃ s conn got, result = .ok (s, got) ∧ s.conns c = some conn ∧
    ((s.answers.head? = some (.read c r.fid .readError 0 []) ∧
        Delivered conn (readWire .readError []) got) ∨
      (s.answers.head? = some (.read c r.fid .success r.payload.length r.payload) ∧
        Delivered conn (readWire .success r.payload) got))

section Answer
variable {cfg : Config} {s s' : Server} {c : Nat} {conn : Connection} {env : Env} {job : IoJob}
  {r : Record} {rounds : List (List SockWrite)}

/-- What a READ leaves behind that was handed to the workers. -/
theorem spyHandleRead_queued (hr : Ready conn) (hs : spyHandleRead cfg s c conn env = .ok s')
    (hq : s'.queued = s.queued ++ [.io job]) :
    job.conn = c ∧ ∃ conn' blocks, s'.conns c = some conn' ∧ conn'.rspBody = ⟨[], 0, blocks⟩ ∧
      job.indexEntry.size ≤ memBlockRoom * blocks ∧ conn'.opcode = conn.opcode ∧
      conn'.state = .processRequest ∧ conn'.sentlen = conn.sentlen := by
  have hsame : ¬ s.queued = s.queued ++ [.io job] := by
    intro he
    have hlen := congrArg List.length he
    rw [List.length_append, List.length_singleton] at hlen
    omega
  unfold spyHandleRead at hs
  simp only [bind, Except.bind, pure, Except.pure] at hs
  cases hx : readInnerHdr conn with
  | error e => rw [hx] at hs; cases hs
  | ok x =>
    obtain ⟨serverId, fid, conn1⟩ := x
    obtain ⟨-, rfl⟩ := readInnerHdr_conn hx
    rw [hx] at hs
    simp only at hs
    split at hs
    · obtain rfl := Except.ok.inj hs
      exact absurd hq hsame
    · split at hs
      · obtain rfl := Except.ok.inj hs
        exact absurd hq hsame
      · rename_i entry hentry
        split at hs
        · cases hs
        · rename_i id hid
          rcases hexp : expandTo entry.size env.calloc (entry.size / memBlockRoom + 1) s.mem
            conn.rspBody with ⟨mem, rspBody, done⟩
          obtain ⟨k, -, hbody, hcap⟩ := expandTo_draws _ _ _ hexp
          rw [hexp] at hs
          cases done with
          | false =>
            obtain rfl := Except.ok.inj hs
            exact absurd hq hsame
          | true =>
            simp only at hs
            split at hs
            · obtain rfl := Except.ok.inj hs
              exact absurd hq hsame
            · rename_i slot rest hfree
              obtain rfl := Except.ok.inj hs
              have hjob := List.append_cancel_left hq
              obtain rfl := Work.io.inj (List.cons.inj hjob).1
              have hempty : rspBody = ⟨[], 0, k⟩ := by
                rw [hbody, hr.rspBody]
                show RwBuffer.mk [] 0 (0 + k) = _
                rw [Nat.zero_add]
              have hroom : entry.size ≤ memBlockRoom * k := by
                have hle := hcap rfl
                rw [hempty] at hle
                exact hle
              exact ⟨rfl, _, k, if_pos rfl, hempty, hroom, rfl, hr.state, rfl⟩

theorem Sends.answers (h : Sends s c conn s') : s'.answers = s.answers := by
  induction h with
  | kept => rfl
  | reset => rfl
  | freed => rfl
  | sent _ _ _ ih => exact ih

theorem sendRounds_answers {got : Bytes} (hs : sendRounds c rounds s = .ok (s', got)) :
    s'.answers = s.answers := by
  induction rounds generalizing s got with
  | nil =>
    obtain ⟨rfl, -⟩ := Prod.mk.inj (Except.ok.inj hs)
    rfl
  | cons results rounds ih =>
    unfold sendRounds at hs
    split at hs
    · obtain ⟨rfl, -⟩ := Prod.mk.inj (Except.ok.inj hs)
      rfl
    · rename_i conn hc
      split at hs
      · simp only [bind, Except.bind, pure, Except.pure] at hs
        cases hloop : spyWriteHandler s c conn results with
        | error e => rw [hloop] at hs; cases hs
        | ok s1 =>
          rw [hloop] at hs
          simp only at hs
          cases hrest : sendRounds c rounds s1 with
          | error e => rw [hrest] at hs; cases hs
          | ok x =>
            obtain ⟨s2, more⟩ := x
            rw [hrest] at hs
            obtain ⟨rfl, -⟩ := Prod.mk.inj (Except.ok.inj hs)
            exact (ih hrest).trans (sendLoop_sends results hloop).answers
      · obtain ⟨rfl, -⟩ := Prod.mk.inj (Except.ok.inj hs)
        rfl

/-- A response that is ready goes out as it is. -/
theorem sendRounds_delivers (hcalm : ∀ results ∈ rounds, Calm results)
    (hc : s.conns c = some conn) (hout : Outgoing conn conn.response []) :
    ∃ s' conn' got, sendRounds c rounds s = .ok (s', got) ∧ s'.conns c = some conn' ∧
      s'.answers = s.answers ∧ Delivered conn' conn.response got := by
  have hlt : ([] : Bytes).length < conn.response.length := by
    have hlen := congrArg List.length hout.rest
    rw [List.nil_append, hout.unsent_length] at hlen
    rw [← hlen]
    exact Nat.lt_of_lt_of_le (by decide) (Nat.le_add_right rspHdrSize conn.bodyLen)
  obtain ⟨s', conn', got, hsend, hc', hsent⟩ :=
    Outgoing.sendRounds rounds hcalm hc (.inl ⟨hout, hlt⟩)
  rw [List.nil_append] at hsent
  refine ⟨s', conn', got, hsend, hc', sendRounds_answers hsend, ?_⟩
  rcases hsent with ⟨h, hlt⟩ | ⟨rfl, hst, -⟩
  · refine ⟨⟨_, h.rest⟩, iff_of_false ?_ ?_⟩
    · rw [h.state]
      exact nofun
    · rintro rfl
      exact absurd hlt (Nat.lt_irrefl _)
  · exact ⟨List.prefix_rfl, iff_of_true hst rfl⟩

variable (job) in
/-- A job that failed. -/
theorem readError_delivers (hcalm : ∀ results ∈ rounds, Calm results)
    (hc : s.conns job.conn = some conn) (hop : conn.opcode = 1) (hsent : conn.sentlen = 0)
    (hread : conn.rspBody.readPos ≤ conn.rspBody.writePos) (hfid : job.indexEntry.fid = r.fid)
    (hret : job.retcode ≠ 0) :
    GoodAnswer job.conn r (spyReadFileDone s job >>= sendRounds job.conn rounds) := by
  have hdone : ∃ s1, spyReadFileDone s job = .ok s1 ∧
      s1.conns job.conn = some (errorReply conn .readError) ∧
      s1.answers = .read job.conn job.indexEntry.fid .readError 0 [] :: s.answers := by
    unfold spyReadFileDone
    have hconn : s.conn job.conn = .ok conn := by
      unfold Server.conn
      rw [hc]
    simp only [bind, Except.bind, pure, Except.pure, hconn, if_pos hret]
    exact ⟨_, rfl, if_pos rfl, rfl⟩
  obtain ⟨s1, hs1, hc1, hanswers⟩ := hdone
  have hreply : Replying (errorReply conn .readError) :=
    ⟨rfl, hsent, rfl, show 0 < 4294967296 by decide⟩
  have hout := hreply.outgoing rfl hread (Nat.zero_le _) (show rspHdrSize + 0 < _ by decide)
  have hwire : (errorReply conn .readError).response = readWire .readError [] := by
    show spyMachWriteTo1 conn.opcode ++ _ ++ _ = _
    rw [hop]
    rfl
  obtain ⟨s2, conn2, got, hsend, hc2, hsame, hdel⟩ := sendRounds_delivers hcalm hc1 hout
  rw [hwire] at hdel
  refine ⟨s2, conn2, got, ?_, hc2, .inl ⟨?_, hdel⟩⟩
  · rw [hs1]
    exact hsend
  · rw [hsame, hanswers, hfid]
    rfl

variable (job) in
/-- The callback of a job that succeeded takes the length from the header it read. -/
theorem spyReadFileDone_success (hc : s.conns job.conn = some conn) (hret : job.retcode = 0) :
    ∃ s1 conn1, spyReadFileDone s job = .ok s1 ∧ s1.conns job.conn = some conn1 ∧
      s1.answers = .read job.conn job.indexEntry.fid .success job.file.size
        (conn.rspBody.unread.take job.file.size) :: s.answers ∧
      (conn.sentlen = 0 → job.file.size < 4294967296 → Replying conn1) ∧ conn1.writable = true ∧
      conn1.rspBody = conn.rspBody ∧ conn1.bodyLen = job.file.size ∧
      conn1.response = spyMachWriteTo1 conn.opcode ++ (spyMachWriteTo1 SpyError.success.code ++
        spyMachWriteTo4 job.file.size) ++ conn.rspBody.unread.take job.file.size := by
  have hconn : s.conn job.conn = .ok conn := by
    unfold Server.conn
    rw [hc]
  have hheader : ∀ conn : Connection, ∃ writable, spyReplyHeader conn = { conn with
      rspHeader := spyMachWriteTo1 conn.opcode ++ (spyMachWriteTo1 conn.error.code ++
        spyMachWriteTo4 conn.bodyLen)
      writable := writable } := by
    intro conn
    unfold spyReplyHeader spySendResponseIfNeeded
    split
    · exact ⟨_, rfl⟩
    · exact ⟨conn.writable, rfl⟩
  obtain ⟨writable, hheader⟩ := hheader { conn with error := .success, bodyLen := job.file.size }
  unfold spyReadFileDone
  simp only [bind, Except.bind, pure, Except.pure, hconn, hret, ne_eq, not_true_eq_false, if_false]
  rw [hheader]
  refine ⟨_, _, rfl, if_pos rfl, rfl, ?_, rfl, rfl, rfl, rfl⟩
  exact fun hsent hlt => ⟨rfl, hsent, rfl, hlt⟩

/-! ## The fields of a header -/

/-- A change outside a field. -/
theorem field_set_out {off w : Nat} (bytes : Bytes) (b : UInt8) (h : i < off ∨ off + w ≤ i) :
    ((bytes.set i b).drop off).take w = (bytes.drop off).take w := by
  refine List.ext_getElem? fun j => ?_
  rw [List.getElem?_take, List.getElem?_take, List.getElem?_drop, List.getElem?_drop]
  split
  · rw [List.getElem?_set_ne (by omega)]
  · rfl

/-- A change inside a field. -/
theorem field_set_in {off w : Nat} (hx : data[i]? = some x) (hne : b ≠ x) (hlo : off ≤ i)
    (hhi : i < off + w) :
    beDecode (((data.set i b).drop off).take w) ≠ beDecode ((data.drop off).take w) := by
  intro he
  have hlen : (((data.set i b).drop off).take w).length = ((data.drop off).take w).length := by
    simp only [List.length_take, List.length_drop, List.length_set]
  have hsame := congrArg (·[i - off]?) (beDecode_inj hlen he)
  simp only [List.getElem?_take, List.getElem?_drop, show i - off < w by omega, if_true,
    show off + (i - off) = i by omega] at hsame
  rw [hx, List.getElem?_set_self (List.getElem?_eq_some_iff.mp hx).1] at hsame
  exact hne (Option.some.inj hsame)

/-! ## A damaged record -/

/-- The header as it is read when the `i`-th byte of the record is `b`. -/
def Record.damagedFile (r : Record) (i : Nat) (b : UInt8) : SpyFile :=
  parseFileMeta ((r.bytes.set i b).take fileMetaSize)

def Record.damagedPayload (r : Record) (i : Nat) (b : UInt8) : Bytes :=
  (r.bytes.set i b).drop fileMetaSize

theorem Record.damagedField (r : Record) (i : Nat) (b : UInt8) (off w : Nat)
    (hoff : off + w ≤ fileMetaSize) (h : i < off ∨ off + w ≤ i) :
    ((((r.bytes.set i b).take fileMetaSize).drop off).take w) = (r.bytes.drop off).take w := by
  rw [List.drop_take, List.take_take, Nat.min_eq_left (by omega), field_set_out _ _ h]

theorem Record.damagedFile_fid (r : Record) (b : UInt8) (h : 8 ≤ i) :
    (r.damagedFile i b).fid = r.fid := by
  have hfield := r.damagedField i b 0 8 (by decide) (.inr h)
  have hstored : (parseFileMeta r.bytes).fid = r.fid := parseFileMeta_fid r.file r.payload
  unfold damagedFile parseFileMeta spyMachReadFrom8
  unfold parseFileMeta spyMachReadFrom8 at hstored
  rw [List.drop_zero, List.drop_zero] at hfield
  rw [hfield]
  exact hstored

theorem Record.damagedFile_checksum (r : Record) (b : UInt8) (hsum : r.checksum < 2 ^ 64)
    (h : i < 14 ∨ 22 ≤ i) : (r.damagedFile i b).checksum = r.checksum := by
  have hfield := r.damagedField i b 14 8 (by decide) h
  have hstored : (parseFileMeta r.bytes).checksum = r.checksum :=
    parseFileMeta_checksum r.file hsum r.payload
  unfold damagedFile parseFileMeta spyMachReadFrom8
  unfold parseFileMeta spyMachReadFrom8 at hstored
  rw [hfield]
  exact hstored

theorem Record.damagedFile_size (r : Record) (b : UInt8) (hlen : r.payload.length < 2 ^ 32)
    (h : i < 10 ∨ 14 ≤ i) : (r.damagedFile i b).size = r.payload.length := by
  have hfield := r.damagedField i b 10 4 (by decide) h
  have hstored : (parseFileMeta r.bytes).size = r.payload.length :=
    parseFileMeta_size r.file hlen r.payload
  unfold damagedFile parseFileMeta spyMachReadFrom4
  unfold parseFileMeta spyMachReadFrom4 at hstored
  rw [hfield]
  exact hstored

theorem Record.damagedFile_size_ne (r : Record) (hlen : r.payload.length < 2 ^ 32)
    (hx : r.bytes[i]? = some x) (hne : b ≠ x) (hlo : 10 ≤ i) (hhi : i < 14) :
    (r.damagedFile i b).size ≠ r.payload.length := by
  have hstored : (parseFileMeta r.bytes).size = r.payload.length :=
    parseFileMeta_size r.file hlen r.payload
  unfold damagedFile parseFileMeta spyMachReadFrom4
  unfold parseFileMeta spyMachReadFrom4 at hstored
  simp only at hstored ⊢
  rw [List.drop_take, List.take_take, Nat.min_eq_left (by decide), ← hstored]
  exact field_set_in hx hne hlo hhi

theorem Record.damagedPayload_eq (r : Record) (b : UInt8) (h : i < fileMetaSize) :
    r.damagedPayload i b = r.payload := by
  have hheader : (fillFileMeta r.file).length = fileMetaSize := fillFileMeta_length _
  unfold damagedPayload Record.bytes
  rw [List.set_append_left _ _ (hheader ▸ h)]
  exact List.drop_left' ((List.length_set ..).trans hheader)

/-- Damage in the payload shows in the checksum. -/
theorem Record.damagedPayload_sum (r : Record) (hx : r.bytes[i]? = some x) (hne : b ≠ x)
    (h : fileMetaSize ≤ i) : recordSum (r.damagedPayload i b) ≠ recordSum r.payload := by
  have hheader : (fillFileMeta r.file).length = fileMetaSize := fillFileMeta_length _
  unfold Record.bytes at hx
  rw [List.getElem?_append_right (hheader ▸ h), hheader] at hx
  unfold damagedPayload Record.bytes
  rw [List.set_append_right _ _ (hheader ▸ h), hheader, List.drop_left' hheader]
  exact recordSum_set hx hne

theorem Record.damaged_length (r : Record) (i : Nat) (b : UInt8) :
    (r.bytes.set i b).length = fileMetaSize + r.payload.length ∧
      (r.damagedPayload i b).length = r.payload.length := by
  have hlen : (r.bytes.set i b).length = fileMetaSize + r.payload.length :=
    (List.length_set ..).trans (Record.bytes_length r)
  refine ⟨hlen, ?_⟩
  unfold damagedPayload
  rw [List.length_drop, hlen]
  exact Nat.add_sub_cancel_left _ _

/-- What `spy_read_file` returns for the damaged record. -/
def Record.damagedCode (r : Record) (i : Nat) (b : UInt8) : Int :=
  if (r.damagedFile i b).fid ≠ r.fid ∨
    (r.damagedFile i b).checksum ≠ recordSum (r.damagedPayload i b) then -1 else 0

/-- The job of an accepted READ of an indexed record, of whose bytes on disk the `i`-th was
`x` and is `b`. -/
structure DamagedRead (cfg : Config) (env : Env) (conn : Connection) (s s' : Server) (c : Nat)
    (job : IoJob) (r : Record) (i : Nat) (x b : UInt8) : Prop where
  ready : Ready conn
  opcode : conn.opcode = 1
  unsent : conn.sentlen = 0
  handled : spyHandleRead cfg s c conn env = .ok s'
  queued : s'.queued = s.queued ++ [.io job]
  fid : job.indexEntry.fid = r.fid
  size : job.indexEntry.size = r.bytes.length
  checksum : r.checksum = recordSum r.payload
  storable : r.payload.length ≤ largestFile
  byte : r.bytes[i]? = some x
  changed : b ≠ x
  disk : slice (s'.disk job.chunk) job.indexEntry.offset r.bytes.length = r.bytes.set i b

namespace DamagedRead
variable {s1 : Server}

theorem payload_lt (h : DamagedRead cfg env conn s s1 c job r i x b) :
    rspHdrSize + r.payload.length < 2147483648 := by
  have hle : r.payload.length ≤ 2147483563 := h.storable
  simp only [rspHdrSize]
  omega

/-- The worker finishes: with -1 at a `pread()` that fails, or with the damaged record in
the buffer. -/
theorem worker (h : DamagedRead cfg env conn s s1 c job r i x b) :
    job.conn = c ∧ ∃ conn1 blocks, s1.conns c = some conn1 ∧ conn1.opcode = 1 ∧
      conn1.sentlen = 0 ∧ ∀ ios, ∃ run : ReadRun,
        (∃ code, run.pc = .finished code ∧ ∀ rounds, serveRead s1 job ios rounds =
          spyReadFileDone (s1.setConn c { conn1 with rspBody := run.rspBody })
            { job with file := run.file, retcode := code } >>= sendRounds c rounds) ∧
        ((run.pc = .finished (-1) ∧ run.rspBody.readPos ≤ run.rspBody.writePos ∧
            ∃ k, ios k = .failed) ∨
          run = ⟨.finished (r.damagedCode i b), ⟨r.bytes.set i b, fileMetaSize, blocks⟩,
            r.damagedFile i b⟩) := by
  obtain ⟨rfl, conn1, blocks, hc, hbody, hcap, hop, -, hsent⟩ :=
    spyHandleRead_queued h.ready h.handled h.queued
  refine ⟨rfl, conn1, blocks, hc, hop.trans h.opcode, hsent.trans h.unsent, fun ios => ?_⟩
  obtain ⟨hlen, hpayload⟩ := r.damaged_length i b
  have hdisk := h.disk
  rw [← h.size, ← List.take_append_drop fileMetaSize (r.bytes.set i b)] at hdisk
  have hheader : ((r.bytes.set i b).take fileMetaSize).length = fileMetaSize := by
    rw [List.length_take, hlen]
    exact Nat.min_eq_left (Nat.le_add_right _ _)
  have hsize : job.indexEntry.size = fileMetaSize + (r.damagedPayload i b).length := by
    rw [h.size, Record.bytes_length, hpayload]
  have hlt := h.payload_lt
  obtain ⟨run, hrun, hcases⟩ := spyReadFile_start blocks ios job.file hdisk hheader hsize
    (by rw [show ((r.bytes.set i b).drop fileMetaSize).length = _ from hpayload]; omega) hcap
  rw [List.take_append_drop, h.fid] at hcases
  have hcode : ∃ code, run.pc = .finished code := by
    rcases hcases with ⟨hpc, -⟩ | rfl
    · exact ⟨_, hpc⟩
    · exact ⟨_, rfl⟩
  obtain ⟨code, hpc⟩ := hcode
  refine ⟨run, ⟨code, hpc, fun rounds => ?_⟩, hcases⟩
  have hconn : s1.conn job.conn = .ok conn1 := by
    unfold Server.conn
    rw [hc]
  unfold serveRead
  simp only [bind, Except.bind, hconn, hbody, hrun, hpc]

/-- Outside the size field a record that passes the check has the original length and
payload. -/
theorem passes (h : DamagedRead cfg env conn s s1 c job r i x b) (hi : ¬ (10 ≤ i ∧ i < 14))
    (hcode : r.damagedCode i b = 0) :
    (r.damagedFile i b).size = r.payload.length ∧ r.damagedPayload i b = r.payload := by
  have hlt := h.payload_lt
  refine ⟨r.damagedFile_size b (by omega) (by omega), ?_⟩
  unfold Record.damagedCode at hcode
  split at hcode
  · cases hcode
  · rename_i hbad
    have hsum := not_not.mp (not_or.mp hbad).2
    rcases Nat.lt_or_ge i fileMetaSize with hin | hge
    · exact r.damagedPayload_eq b hin
    · have hstored : r.checksum < 2 ^ 64 :=
        h.checksum ▸ Nat.lt_trans (recordSum_lt _) (by decide)
      have hge' : 30 ≤ i := hge
      rw [r.damagedFile_checksum b hstored (by omega), h.checksum] at hsum
      exact absurd hsum.symm (r.damagedPayload_sum h.byte h.changed hge)

/-- Outside the size field: the record is refused, or answered as it was. -/
theorem good (h : DamagedRead cfg env conn s s1 c job r i x b) (hi : ¬ (10 ≤ i ∧ i < 14))
    (ios : Nat → Pread) (hcalm : ∀ results ∈ rounds, Calm results) :
    GoodAnswer c r (serveRead s1 job ios rounds) := by
  obtain ⟨rfl, conn1, blocks, hc, hop, hsent, hworker⟩ := h.worker
  obtain ⟨run, ⟨code, hpc, heq⟩, hcases⟩ := hworker ios
  have hset : (s1.setConn job.conn { conn1 with rspBody := run.rspBody }).conns job.conn =
      some { conn1 with rspBody := run.rspBody } := if_pos rfl
  have hle : run.rspBody.readPos ≤ run.rspBody.writePos := by
    rcases hcases with ⟨-, hle, -⟩ | rfl
    · exact hle
    · show fileMetaSize ≤ (r.bytes.set i b).length
      rw [(r.damaged_length i b).1]
      exact Nat.le_add_right _ _
  rw [heq]
  by_cases hcode : code = 0
  · rcases hcases with ⟨hpc', -⟩ | rfl
    · rw [hcode, hpc'] at hpc
      cases hpc
    · obtain rfl : code = r.damagedCode i b := (ReadPc.finished.inj hpc).symm
      obtain ⟨hsize, hpayload⟩ := h.passes hi hcode
      have hunread : RwBuffer.unread ⟨r.bytes.set i b, fileMetaSize, blocks⟩ = r.payload :=
        hpayload
      have hlt := h.payload_lt
      obtain ⟨s2, conn2, hdone, hc2, hanswers, hreply, hwr, hbody2, hlen2, hresp⟩ :=
        spyReadFileDone_success { job with
          file := r.damagedFile i b
          retcode := r.damagedCode i b } hset hcode
      simp only [hsize, hunread, List.take_length] at hanswers hlen2 hresp hreply
      have hout := (hreply hsent (by omega)).outgoing hwr (by rw [hbody2]; exact hle)
        (by rw [hbody2, hlen2]; exact Nat.le_of_eq (congrArg List.length hunread.symm))
        (by rw [hlen2]; exact hlt)
      obtain ⟨s3, conn3, got, hsend, hc3, hsame, hdel⟩ := sendRounds_delivers hcalm hc2 hout
      refine ⟨s3, conn3, got, ?_, hc3, .inr ⟨?_, ?_⟩⟩
      · simp only [bind, Except.bind, hdone]
        exact hsend
      · rw [hsame, hanswers, h.fid]
        rfl
      · rw [hresp, hop] at hdel
        exact hdel
  · exact readError_delivers { job with file := run.file, retcode := code } hcalm hset hop
      hsent hle h.fid hcode

/-- In the size field: nothing is noticed, and the length that is announced is wrong. -/
theorem bad (h : DamagedRead cfg env conn s s1 c job r i x b) (hlo : 10 ≤ i) (hhi : i < 14) :
    ¬ GoodAnswer c r (serveRead s1 job (fun _ => .full) []) := by
  obtain ⟨rfl, conn1, blocks, hc, -, -, hworker⟩ := h.worker
  obtain ⟨run, ⟨code, hpc, heq⟩, hcases⟩ := hworker fun _ => .full
  have hset : (s1.setConn job.conn { conn1 with rspBody := run.rspBody }).conns job.conn =
      some { conn1 with rspBody := run.rspBody } := if_pos rfl
  have hlt := h.payload_lt
  rcases hcases with ⟨-, -, k, hk⟩ | rfl
  · cases hk
  · obtain rfl : code = r.damagedCode i b := (ReadPc.finished.inj hpc).symm
    have hcode : r.damagedCode i b = 0 := by
      have hstored : r.checksum < 2 ^ 64 :=
        h.checksum ▸ Nat.lt_trans (recordSum_lt _) (by decide)
      unfold Record.damagedCode
      rw [r.damagedFile_fid b (by omega), r.damagedFile_checksum b hstored (.inl hhi),
        r.damagedPayload_eq b (by simp only [fileMetaSize]; omega), h.checksum]
      exact if_neg (not_or.mpr ⟨not_not.mpr rfl, not_not.mpr rfl⟩)
    have hsize := r.damagedFile_size_ne (by omega) h.byte h.changed hlo hhi
    obtain ⟨s2, conn2, hdone, -, hanswers, -⟩ :=
      spyReadFileDone_success { job with
        file := r.damagedFile i b
        retcode := r.damagedCode i b } hset hcode
    rw [heq]
    rintro ⟨s3, conn3, got, hresult, -, hanswer⟩
    simp only [bind, Except.bind, hdone] at hresult
    obtain ⟨rfl, -⟩ := Prod.mk.inj (Except.ok.inj hresult)
    rw [hanswers] at hanswer
    rcases hanswer with ⟨hhead, -⟩ | ⟨hhead, -⟩
    · injection Option.some.inj hhead with _ _ herror
      cases herror
    · injection Option.some.inj hhead with _ _ _ hlen
      exact hsize hlen

end DamagedRead

/-- A READ of a record with one damaged byte is answered READ_ERROR, or SUCCESS with the
original length and payload, whatever the `pread()`s and `write()`s do, exactly when the
byte is not one of the four of the size field. -/
theorem damaged_record_is_caught_iff {s1 : Server}
    (h : DamagedRead cfg env conn s s1 c job r i x b) :
    (∀ ios rounds, (∀ results ∈ rounds, Calm results) →
      GoodAnswer c r (serveRead s1 job ios rounds)) ↔ ¬ (10 ≤ i ∧ i < 14) := by
  constructor
  · rintro hall ⟨hlo, hhi⟩
    exact h.bad hlo hhi (hall (fun _ => .full) [] nofun)
  · intro hi ios rounds hcalm
    exact h.good hi ios hcalm

/-- A record of one byte at the beginning of the first chunk. -/
def sampleRecord : Record := ⟨5, 1, recordSum [7], 0, [7]⟩

/-- A server whose only record it is, with its `i`-th byte changed. -/
def damagedServer (i : Nat) (b : UInt8) : Server :=
  { newServer sampleConfig with
    fileIndex := [⟨1, 5, 55, 31⟩]
    freeIoJobs := [0]
    disk := Function.update (newServer sampleConfig).disk 1
      (store (fun _ => 0) 55 (sampleRecord.bytes.set i b)) }

/-- A READ of it that has just arrived. -/
def sampleRead : Connection :=
  { Connection.new with
    state := .processRequest
    opcode := 1
    bodyLen := 10
    request := ⟨request 1 5 [], 5, 1⟩ }

/-- The server once it has accepted the READ, and the job for it. -/
def readServer (i : Nat) (b : UInt8) : Server :=
  match spyHandleRead sampleConfig (damagedServer i b) 0 sampleRead ⟨0, 0, true, true⟩ with
  | .ok s => s
  | .error _ => damagedServer i b

def sampleJob : IoJob :=
  { IoJob.blank 0 with fn := .read, chunk := 1, indexEntry := ⟨1, 5, 55, 31⟩ }

theorem damagedServer_read (hx : sampleRecord.bytes[i]? = some x) (hne : b ≠ x) :
    DamagedRead sampleConfig ⟨0, 0, true, true⟩ sampleRead (damagedServer i b) (readServer i b) 0
      sampleJob sampleRecord i x b := by
  refine ⟨⟨rfl, rfl, rfl, rfl, by decide, by decide, rfl⟩, rfl, rfl, rfl, rfl, rfl, by decide, rfl,
    by decide, hx, hne, ?_⟩
  have hself := slice_store_self (fun _ => 0) 55 (sampleRecord.bytes.set i b)
  rw [List.length_set] at hself
  exact hself

/-- The payload is damaged: the READ is refused. -/
theorem damaged_payload_is_caught :
    GoodAnswer 0 sampleRecord (serveRead (readServer 30 8) sampleJob (fun _ => .full) []) ∧
      sampleRecord.bytes[30]? = some 7 := by
  have h := damagedServer_read (i := 30) (x := 7) (b := 8) (by decide) (by decide)
  exact ⟨(damaged_record_is_caught_iff h).mpr (by decide) _ _ nofun, by decide⟩

/-- The size field says two bytes in place of one: two are announced, one is sent, and the
next call for more fails an assertion. -/
theorem damaged_size_aborts :
    DamagedRead sampleConfig ⟨0, 0, true, true⟩ sampleRead (damagedServer 13 2) (readServer 13 2) 0
      sampleJob sampleRecord 13 1 2 ∧
    (serveRead (readServer 13 2) sampleJob (fun _ => .full) [[.sent 6], [.sent 1]]).map Prod.snd =
      .error .assertion ∧
    (serveRead (readServer 13 2) sampleJob (fun _ => .full) [[.sent 6]]).map Prod.snd =
      .ok [1, 0, 0, 0, 0, 2] := by
  refine ⟨damagedServer_read (by decide) (by decide), ?_, ?_⟩
  · decide +kernel
  · decide +kernel

end Answer
end Damage
end Speedy.Chunkserver
