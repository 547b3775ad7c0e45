import Speedy.Chunkserver.RwChain

/-! # The checksum of a record

`spy_fill_file_meta` takes it over the request buffer, `spy_read_file` over the
response buffer, where a header stands in front of the payload: the same bytes, cut at
other places. -/
namespace Speedy.Chunkserver
open Speedy.Lib

/-- The sum of the bytes, and the sum of all its prefixes, modulo 65521. -/
def adlerSums (st : Nat × Nat) (data : Bytes) : Nat × Nat :=
  ((st.1 + (data.map UInt8.toNat).sum) % 65521,
    (st.2 + ∑ i ∈ Finset.range data.length,
      (st.1 + ((data.take (i + 1)).map UInt8.toNat).sum)) % 65521)

section RecordSum
variable {st : Nat × Nat} {adler : Nat} {data : Bytes}

theorem modBase_doSums_eq (st : Nat × Nat) (data : Bytes) :
    modBase (doSums st data) = adlerSums st data := by
  unfold modBase adlerSums
  rw [doSums_eq, runningSums_fst, runningSums_snd, List.length_map]
  simp only [List.map_take]
  rfl

theorem adlerSums_lt (st : Nat × Nat) (data : Bytes) :
    (adlerSums st data).1 < 2 ^ 16 ∧ (adlerSums st data).2 < 2 ^ 16 := by
  rw [← modBase_doSums_eq]
  exact modBase_lt _

theorem spyAdler32_eq_adlerSums (h1 : (components adler).1 < base)
    (h2 : (components adler).2 < base) (buf : Bytes) :
    spyAdler32 adler buf = recombine (adlerSums (components adler) buf) := by
  rw [spyAdler32_eq h1 h2, modBase_doSums_eq]

/-- Where nothing is added the starting value has to be reduced already. -/
theorem areaSums_eq (h1 : st.1 < base) (h2 : st.2 < base) (data : Bytes) :
    areaSums st data = adlerSums st data := by
  rw [← modBase_doSums_eq]
  unfold areaSums
  by_cases hnil : data = []
  · rw [if_pos hnil, hnil]
    exact (modBase_of_lt h1 h2).symm
  · rw [if_neg hnil]

/-- The checksum that the functions of the server compute, which start from 0. -/
def recordSum (payload : Bytes) : Nat := recombine (adlerSums (0, 0) payload)

theorem recordSum_lt (payload : Bytes) : recordSum payload < 2 ^ 32 :=
  recombine_lt (adlerSums_lt _ _).1 (adlerSums_lt _ _).2

theorem spyAdler32_zero (buf : Bytes) : spyAdler32 0 buf = recordSum buf :=
  spyAdler32_eq_adlerSums (by decide) (by decide) buf

theorem spyBufferAdler32_zero {b : RwBuffer} {len : Nat} (hb : b.readPos ≤ b.writePos)
    (hlen : len ≤ b.unread.length) :
    spyBufferAdler32 0 b len = some (recordSum (b.unread.take len)) := by
  rw [spyBufferAdler32_eq 0 hb hlen]
  exact congrArg (fun st => some (recombine st)) (areaSums_eq (by decide) (by decide) _)

/-- What `spy_write_file` puts on disk first. -/
theorem spyWriteFileStep_header {file : SpyFile} {r : WriteRun} (offset now : Nat)
    (hpc : r.pc = .header) (hb : r.request.readPos ≤ r.request.writePos)
    (hlen : file.size ≤ r.request.unread.length) :
    (spyWriteFileStep file offset .full now r).map WriteRun.disk =
      some (store r.disk offset (fillFileMeta { file with
        checksum := recordSum (r.request.unread.take file.size)
        timestamp := now })) := by
  unfold spyWriteFileStep
  simp only [hpc, spyBufferAdler32_zero hb hlen]
  rfl

/-- What `spy_read_file` finds when the header and the payload are in its buffer. -/
theorem spyReadFileCheck_eq {index : IndexEntry} {r : ReadRun} {header payload : Bytes}
    (hb : r.rspBody.readPos ≤ r.rspBody.writePos) (hunread : r.rspBody.unread = header ++ payload)
    (hheader : header.length = fileMetaSize) (hsize : index.size = fileMetaSize + payload.length)
    (hlt : payload.length < 4294967296) :
    spyReadFileCheck index r = some
      ⟨.finished (if (parseFileMeta header).fid ≠ index.fid ∨
          (parseFileMeta header).checksum ≠ recordSum payload then -1 else 0),
        r.rspBody.skip fileMetaSize, parseFileMeta header⟩ := by
  have hread : spyRwBufferReadN r.rspBody fileMetaSize =
      (header, r.rspBody.skip fileMetaSize) := by
    unfold spyRwBufferReadN
    rw [hunread, List.take_left' hheader, hheader]
  have hrest : (r.rspBody.skip fileMetaSize).unread = payload := by
    rw [RwBuffer.skip_unread, hunread, List.drop_left' hheader]
  have hcount : u32 ((index.size : Int) - fileMetaSize) = payload.length := by
    rw [hsize]
    unfold u32
    simp only [fileMetaSize]
    omega
  have hb' : (r.rspBody.skip fileMetaSize).readPos ≤ (r.rspBody.skip fileMetaSize).writePos := by
    have hlen := unread_length r.rspBody
    rw [hunread, List.length_append, hheader] at hlen
    show r.rspBody.readPos + fileMetaSize ≤ r.rspBody.writePos
    omega
  have hsum := spyBufferAdler32_zero hb' (Nat.le_of_eq (congrArg List.length hrest.symm))
  rw [hrest, List.take_length] at hsum
  unfold spyReadFileCheck
  rw [hread]
  simp only [hheader, if_true, hcount, hsum]

/-- The checksum of a buffer is that of the bytes laid out in one piece. On every chain of
blocks, from every read position and every reduced starting value, both functions return
the sums modulo 65521, and the bytes can be read again. What is stored with a record is
therefore what is found when it is read into another buffer. -/
theorem buffer_checksum_is_flat :
    (∀ (c : RwChain) (adler len : Nat), c.Sound → adler % 65536 < 65521 →
      adler / 65536 % 65536 < 65521 → len ≤ c.queue.unread.length →
      ∃ c', RwChain.adler32 adler c len = .ok (spyAdler32 adler (c.queue.unread.take len), c') ∧
        c'.Sound ∧ c'.queue = c.queue ∧
        spyAdler32 adler (c.queue.unread.take len) = recombine
          (adlerSums (adler % 65536, adler / 65536 % 65536) (c.queue.unread.take len))) ∧
    ∀ (file : SpyFile) (offset now : Nat) (w : WriteRun), w.pc = .header →
      w.request.readPos ≤ w.request.writePos → file.size ≤ w.request.unread.length →
      fileMetaSize + file.size < 4294967296 →
      ∃ filemeta, (spyWriteFileStep file offset .full now w).map WriteRun.disk =
          some (store w.disk offset filemeta) ∧
        ∀ (index : IndexEntry) (r : ReadRun), r.rspBody.readPos ≤ r.rspBody.writePos →
          r.rspBody.unread = filemeta ++ w.request.unread.take file.size →
          index.fid = file.fid → index.size = fileMetaSize + file.size →
          (spyReadFileCheck index r).map ReadRun.pc = some (.finished 0) := by
  have hcomponents : ∀ adler, components adler = (adler % 65536, adler / 65536 % 65536) := by
    intro adler
    unfold components
    rw [Nat.and_two_pow_sub_one_eq_mod adler 16, Nat.and_two_pow_sub_one_eq_mod _ 16,
      Nat.shiftRight_eq_div_pow]
  constructor
  · intro c adler len hc h1 h2 hlen
    have h1' : (components adler).1 < base := by
      rw [hcomponents]
      exact h1
    have h2' : (components adler).2 < base := by
      rw [hcomponents]
      exact h2
    obtain ⟨c', hsum, hb⟩ := hc.adler32 adler hlen
    rw [areaSums_eq h1' h2'] at hsum
    rw [spyAdler32_eq_adlerSums h1' h2', ← hcomponents]
    exact ⟨c', hsum, hb.sound, hb.queue, rfl⟩
  · intro file offset now w hpc hb hlen hlt
    refine ⟨_, spyWriteFileStep_header offset now hpc hb hlen, ?_⟩
    intro index r hb' hunread hfid hsize
    have hpayload : (w.request.unread.take file.size).length = file.size := by
      rw [List.length_take]
      exact Nat.min_eq_left hlen
    rw [spyReadFileCheck_eq hb' hunread (fillFileMeta_length _) (by rw [hpayload]; exact hsize)
      (by rw [hpayload]; exact Nat.lt_of_le_of_lt (Nat.le_add_left _ _) hlt)]
    refine congrArg (fun code => some (ReadPc.finished code)) (if_neg ?_)
    have hfid' := parseFileMeta_fid { file with
      checksum := recordSum (w.request.unread.take file.size), timestamp := now } []
    have hsum' := parseFileMeta_checksum { file with
      checksum := recordSum (w.request.unread.take file.size), timestamp := now }
      (Nat.lt_trans (recordSum_lt _) (by decide)) []
    rw [List.append_nil] at hfid' hsum'
    rw [hfid', hsum']
    exact not_or.mpr ⟨fun hne => hne hfid.symm, fun hne => hne rfl⟩

/-- Three bytes over two blocks; written and read back, the sum is accepted. -/
theorem buffer_checksum_is_flat_sample :
    (∃ c c' : RwChain, c.sizes = [2, 1] ∧ c.queue.unread = [7, 8, 9] ∧ c'.queue = c.queue ∧
      RwChain.adler32 1 c 3 = .ok (spyAdler32 1 [7, 8, 9], c') ∧
      spyAdler32 1 [7, 8, 9] = recombine (25, 49)) ∧
    ∃ filemeta, (spyWriteFileStep ⟨5, 0, 3, 0, 0⟩ 55 .full 0
          ⟨.header, fun _ => 0, spyAllocChunk 0 0, ⟨[7, 8, 9], 0, 1⟩⟩).map WriteRun.disk =
        some (store (fun _ => 0) 55 filemeta) ∧
      (spyReadFileCheck ⟨0, 5, 55, 33⟩
        ⟨.start, ⟨filemeta ++ [7, 8, 9], 0, 1⟩, ⟨5, 0, 3, 0, 0⟩⟩).map ReadRun.pc =
          some (.finished 0) := by
  constructor
  · have hinit : RwChain.Run .init := .init rfl
    have hrun := hinit.call (.expand ⟨[0, 0], by decide⟩) trivial rfl
    have hrun := hrun.call (.expand ⟨[0], by decide⟩) trivial rfl
    have hrun := hrun.call (.writeN [7, 8, 9]) trivial rfl
    obtain ⟨c', hsum, -, hqueue, hvalue⟩ :=
      buffer_checksum_is_flat.1 _ 1 3 hrun.sound (by decide) (by decide) (by decide)
    exact ⟨_, c', rfl, rfl, hqueue, hsum, hvalue.trans (by decide)⟩
  · obtain ⟨filemeta, hdisk, hread⟩ := buffer_checksum_is_flat.2 ⟨5, 0, 3, 0, 0⟩ 55 0
      ⟨.header, fun _ => 0, spyAllocChunk 0 0, ⟨[7, 8, 9], 0, 1⟩⟩ rfl (by decide) (by decide)
      (by decide)
    exact ⟨filemeta, hdisk, hread _ _ (Nat.zero_le _) rfl rfl rfl⟩

end RecordSum
end Speedy.Chunkserver
