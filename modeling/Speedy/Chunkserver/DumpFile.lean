import Speedy.Chunkserver.Server

/-! # Sending a chunk file

`spy_dump_chunkfile` sends a response header with a loop of `write()`s and the chunk file
with a loop of `sendfile64()`s. The loop of the header moves `sent` forward and counts
`total` down by the same amount, and asks for `total - sent` bytes: it does its work only
when the first `write()` takes the whole header. After a shorter one it either asks for
nothing for ever or asks for what lies behind the header. -/
namespace Speedy.Chunkserver
open Speedy.Lib

/-! ## The two loops -/

/-- A call that `spy_dump_chunkfile` makes: a `write()` of `len` bytes from
`rsp_header + start`, or a `sendfile64()`. -/
inductive DumpIo where
  | write (start len : Nat)
  | sendfile (offset count : Nat)
  deriving DecidableEq, Repr

/-- What the call can return when it does not fail: a positive count of at most what was
asked for, and 0 when nothing was. The result is an `ssize_t`. -/
def DumpIo.Accepts : DumpIo → Int → Prop
  | .write _ len, n => 0 ≤ n ∧ n ≤ len ∧ n < 9223372036854775808 ∧ (0 < len → 0 < n)
  | .sendfile _ count, n => 0 < n ∧ n ≤ count

instance : ∀ (io : DumpIo) (n : Int), Decidable (io.Accepts n)
  | .write _ len, n =>
    inferInstanceAs (Decidable (0 ≤ n ∧ n ≤ len ∧ n < 9223372036854775808 ∧ (0 < len → 0 < n)))
  | .sendfile _ count, n => inferInstanceAs (Decidable (0 < n ∧ n ≤ count))

/-- The variables of the function, and the bytes that the socket has taken. -/
structure DumpCall where
  sent : Nat
  total : Int
  offset : Nat
  retcode : Int
  out : Bytes
  deriving DecidableEq, Repr

def DumpCall.start : DumpCall := ⟨0, 6, 0, 0, []⟩

/-- The next call, `none` once the function has returned. Both lengths are converted to
`size_t`. -/
def DumpCall.io (fileSize : Nat) (d : DumpCall) : Option DumpIo :=
  if d.retcode ≠ 0 then none
  else if d.total > 0 then some (.write d.sent (u64 (d.total - d.sent)))
  else if d.offset ≠ fileSize then some (.sendfile d.offset (u64 (fileSize - d.offset)))
  else none

/-- The rest of the round once the call has returned `n`; `mem` is the memory from
`rsp_header` on. -/
def DumpCall.after (mem file : ByteStore) (d : DumpCall) (n : Int) : DumpIo → DumpCall
  | .write start _ =>
    if n < 0 then { d with retcode := -1 }
    else
      { d with
        sent := d.sent + n.toNat
        total := d.total - n
        out := d.out ++ slice mem start n.toNat }
  | .sendfile offset _ =>
    if n < 0 then { d with retcode := -1 }
    else { d with offset := offset + n.toNat, out := d.out ++ slice file offset n.toNat }

def dumpHeader (opcode fileSize : Nat) : Bytes :=
  spyMachWriteTo1 opcode ++ (spyMachWriteTo1 0 ++ spyMachWriteTo4 fileSize)

/-- The function after `k` calls, of which the `i`-th returned `results i`. The header is
put into the connection first. -/
def spyDumpChunkfile (opcode fileSize : Nat) (mem file : ByteStore) (results : Nat → Int) :
    Nat → DumpCall
  | 0 => DumpCall.start
  | k + 1 =>
    let d := spyDumpChunkfile opcode fileSize mem file results k
    match d.io fileSize with
    | none => d
    | some io => d.after (store mem 0 (dumpHeader opcode fileSize)) file (results k) io

/-- Each call returns something that it can return. -/
def DumpAccepts (opcode fileSize : Nat) (mem file : ByteStore) (results : Nat → Int) : Prop :=
  ∀ k io, (spyDumpChunkfile opcode fileSize mem file results k).io fileSize = some io →
    io.Accepts (results k)

/-- The function returns; the socket got the header, with the length of the file, and the
file; and no `write()` was asked for bytes behind the header. -/
structure DumpsWhole (opcode fileSize : Nat) (mem file : ByteStore) (results : Nat → Int) :
    Prop where
  returns : ∃ k, (spyDumpChunkfile opcode fileSize mem file results k).io fileSize = none ∧
    (spyDumpChunkfile opcode fileSize mem file results k).retcode = 0 ∧
    (spyDumpChunkfile opcode fileSize mem file results k).out =
      dumpHeader opcode fileSize ++ slice file 0 fileSize
  length : spyMachReadFrom4 ((dumpHeader opcode fileSize).drop 2) = fileSize
  inside : ∀ k start len, (spyDumpChunkfile opcode fileSize mem file results k).io fileSize =
    some (.write start len) → start + len ≤ rspHdrSize

section DumpFile
variable {opcode fileSize : Nat} {mem file : ByteStore} {results : Nat → Int} {k : Nat}

theorem dumpHeader_length (opcode fileSize : Nat) :
    (dumpHeader opcode fileSize).length = rspHdrSize := by
  unfold dumpHeader spyMachWriteTo1 spyMachWriteTo4
  simp only [List.length_append, beEncode_length, rspHdrSize]

theorem dumpHeader_fileSize (opcode : Nat) (h : fileSize < 4294967296) :
    spyMachReadFrom4 ((dumpHeader opcode fileSize).drop 2) = fileSize := by
  unfold dumpHeader spyMachReadFrom4 spyMachWriteTo1 spyMachWriteTo4
  have hdrop : (beEncode 1 opcode ++ (beEncode 1 0 ++ beEncode 4 fileSize)).drop 2 =
      beEncode 4 fileSize := rfl
  rw [hdrop, List.take_of_length_le (Nat.le_of_eq (beEncode_length 4 fileSize))]
  exact beDecode_beEncode_of_lt h

theorem slice_dumpHeader (opcode fileSize : Nat) (mem : ByteStore) :
    slice (store mem 0 (dumpHeader opcode fileSize)) 0 rspHdrSize = dumpHeader opcode fileSize := by
  rw [← dumpHeader_length opcode fileSize]
  exact slice_store_self mem 0 _

/-- One round. -/
theorem spyDumpChunkfile_succ {io : DumpIo}
    (hio : (spyDumpChunkfile opcode fileSize mem file results k).io fileSize = some io) :
    spyDumpChunkfile opcode fileSize mem file results (k + 1) =
      (spyDumpChunkfile opcode fileSize mem file results k).after
        (store mem 0 (dumpHeader opcode fileSize)) file (results k) io := by
  show (match (spyDumpChunkfile opcode fileSize mem file results k).io fileSize with
    | none => _ | some io => _) = _
  rw [hio]

/-- A function that has returned makes no more calls. -/
theorem spyDumpChunkfile_returned
    (h : (spyDumpChunkfile opcode fileSize mem file results k).io fileSize = none) (j : Nat) :
    spyDumpChunkfile opcode fileSize mem file results (k + j) =
      spyDumpChunkfile opcode fileSize mem file results k := by
  induction j with
  | zero => rfl
  | succ j ih =>
    show (match (spyDumpChunkfile opcode fileSize mem file results (k + j)).io fileSize with
      | none => _ | some io => _) = _
    rw [ih, h]
    exact ih

theorem DumpAccepts.of_returned (k : Nat)
    (hend : (spyDumpChunkfile opcode fileSize mem file results k).io fileSize = none)
    (h : ∀ j < k, ∀ io ∈ (spyDumpChunkfile opcode fileSize mem file results j).io fileSize,
      io.Accepts (results j)) :
    DumpAccepts opcode fileSize mem file results := by
  intro j io hio
  by_cases hj : j < k
  · exact h j hj io hio
  · obtain ⟨i, rfl⟩ := Nat.exists_eq_add_of_le (Nat.le_of_not_lt hj)
    rw [spyDumpChunkfile_returned hend, hend] at hio
    cases hio

/-! ## A header that goes out in one piece -/

/-- The loop of the `sendfile64()`s: so far the header and the beginning of the file. -/
structure InFile (opcode fileSize : Nat) (file : ByteStore) (d : DumpCall) : Prop where
  total : d.total = 0
  retcode : d.retcode = 0
  offset : d.offset ≤ fileSize
  out : d.out = dumpHeader opcode fileSize ++ slice file 0 d.offset

theorem InFile.io_eq {d : DumpCall} (h : InFile opcode fileSize file d)
    (hsize : fileSize < 4294967296) :
    d.io fileSize = if d.offset ≠ fileSize then some (.sendfile d.offset (fileSize - d.offset))
      else none := by
  have hlen : u64 ((fileSize : Int) - d.offset) = fileSize - d.offset :=
    u64_sub h.offset (Nat.lt_trans hsize (by decide))
  unfold DumpCall.io
  rw [if_neg (not_not.mpr h.retcode), if_neg (by rw [h.total]; decide), hlen]

theorem InFile.after {d : DumpCall} (h : InFile opcode fileSize file d) {n : Int} {count : Nat}
    (hn : 0 < n) (hle : n ≤ count) (hcount : d.offset + count ≤ fileSize) :
    InFile opcode fileSize file (d.after mem file n (.sendfile d.offset count)) ∧
      d.offset < (d.after mem file n (.sendfile d.offset count)).offset := by
  unfold DumpCall.after
  simp only [if_neg (show ¬ n < 0 by omega)]
  refine ⟨⟨h.total, h.retcode, by show d.offset + n.toNat ≤ fileSize; omega, ?_⟩, by omega⟩
  show d.out ++ slice file d.offset n.toNat = _ ++ slice file 0 (d.offset + n.toNat)
  rw [h.out, slice_add, List.append_assoc, Nat.zero_add]

/-- Each round of the second loop sends something, so the loop ends. -/
theorem inFile_rounds (hsize : fileSize < 4294967296)
    (hacc : DumpAccepts opcode fileSize mem file results)
    (hfirst : InFile opcode fileSize file (spyDumpChunkfile opcode fileSize mem file results 1))
    (j : Nat) :
    InFile opcode fileSize file (spyDumpChunkfile opcode fileSize mem file results (1 + j)) ∧
      (j ≤ (spyDumpChunkfile opcode fileSize mem file results (1 + j)).offset ∨
        (spyDumpChunkfile opcode fileSize mem file results (1 + j)).offset = fileSize) := by
  induction j with
  | zero => exact ⟨hfirst, .inl (Nat.zero_le _)⟩
  | succ j ih =>
    obtain ⟨hin, hoff⟩ := ih
    have hio := hin.io_eq hsize
    by_cases hend : (spyDumpChunkfile opcode fileSize mem file results (1 + j)).offset = fileSize
    · rw [if_neg (not_not.mpr hend)] at hio
      have hsame := spyDumpChunkfile_returned hio 1
      rw [← Nat.add_assoc, hsame]
      exact ⟨hin, .inr hend⟩
    · rw [if_pos hend] at hio
      obtain ⟨hn, hle⟩ := hacc _ _ hio
      have hroom := hin.offset
      obtain ⟨hnext, hlt⟩ := hin.after hn hle (Nat.le_of_eq (Nat.add_sub_cancel' hroom))
      rw [← Nat.add_assoc, spyDumpChunkfile_succ hio]
      refine ⟨hnext, .inl ?_⟩
      rcases hoff with hoff | hoff
      · exact Nat.succ_le_of_lt (Nat.lt_of_le_of_lt hoff hlt)
      · exact absurd hoff hend

/-- The first round, when the whole header is taken. -/
theorem inFile_first (h : results 0 = 6) :
    InFile opcode fileSize file (spyDumpChunkfile opcode fileSize mem file results 1) := by
  have hio : (spyDumpChunkfile opcode fileSize mem file results 0).io fileSize =
      some (.write 0 6) := rfl
  have hround := spyDumpChunkfile_succ hio
  rw [h] at hround
  rw [Nat.zero_add] at hround
  rw [hround]
  refine ⟨rfl, rfl, Nat.zero_le _, ?_⟩
  show [] ++ slice _ 0 6 = _ ++ slice file 0 0
  rw [List.nil_append, slice_zero, List.append_nil]
  exact slice_dumpHeader opcode fileSize mem

theorem dumpsWhole_of_header (hsize : fileSize < 4294967296)
    (hacc : DumpAccepts opcode fileSize mem file results) (h : results 0 = 6) :
    DumpsWhole opcode fileSize mem file results := by
  have hrounds := inFile_rounds hsize hacc (inFile_first h)
  refine ⟨⟨1 + fileSize, ?_⟩, dumpHeader_fileSize opcode hsize, ?_⟩
  · obtain ⟨hin, hoff⟩ := hrounds fileSize
    have hend : (spyDumpChunkfile opcode fileSize mem file results (1 + fileSize)).offset =
        fileSize := hoff.elim (Nat.le_antisymm hin.offset) id
    refine ⟨?_, hin.retcode, ?_⟩
    · rw [hin.io_eq hsize, if_neg (not_not.mpr hend)]
    · rw [hin.out, hend]
  · intro k start len hio
    cases k with
    | zero =>
      obtain ⟨rfl, rfl⟩ : 0 = start ∧ 6 = len := by
        injection Option.some.inj hio with hstart hlen
        exact ⟨hstart, hlen⟩
      exact Nat.le_refl _
    | succ k =>
      obtain ⟨hin, -⟩ := hrounds k
      rw [Nat.add_comm 1 k] at hin
      rw [hin.io_eq hsize] at hio
      split at hio
      · cases Option.some.inj hio
      · cases hio

/-! ## A header that goes out in pieces -/

/-- Within the header and past its first byte: the two counters add up to 6, and what is
asked for lies inside the header only while `sent` is at most 3. -/
structure InHeader (d : DumpCall) : Prop where
  retcode : d.retcode = 0
  sent : 0 < d.sent ∧ d.sent ≤ 3
  total : d.total = 6 - d.sent

theorem InHeader.io_eq {d : DumpCall} (h : InHeader d) (fileSize : Nat) :
    d.io fileSize = some (.write d.sent (6 - 2 * d.sent)) := by
  have hsent := h.sent
  have hlen : u64 (d.total - d.sent) = 6 - 2 * d.sent := by
    rw [h.total]
    unfold u64
    omega
  unfold DumpCall.io
  rw [if_neg (not_not.mpr h.retcode), if_pos (by rw [h.total]; omega), hlen]

/-- A `write()` of the first loop that leaves some of the header; the next one is not
asked for too much. -/
theorem inHeader_after {d : DumpCall} {n : Int} {start len : Nat} (hret : d.retcode = 0)
    (htotal : d.total = 6 - d.sent) (hn : 0 ≤ n) (hlo : 0 < d.sent + n) (hhi : d.sent + n < 6)
    (hinside : ∀ start' len', (d.after mem file n (.write start len)).io fileSize =
      some (.write start' len') → start' + len' ≤ rspHdrSize) :
    InHeader (d.after mem file n (.write start len)) := by
  have hafter : d.after mem file n (.write start len) =
      { d with
        sent := d.sent + n.toNat
        total := d.total - n
        out := d.out ++ slice mem start n.toNat } := if_neg (by omega)
  rw [hafter] at hinside ⊢
  have hle : d.sent + n.toNat + u64 (d.total - n - (d.sent + n.toNat : Nat)) ≤ 6 := by
    refine hinside _ _ ?_
    unfold DumpCall.io
    rw [if_neg (not_not.mpr hret), if_pos (show d.total - n > 0 by omega)]
  refine ⟨hret, ⟨by show 0 < d.sent + n.toNat; omega, ?_⟩, ?_⟩
  · show d.sent + n.toNat ≤ 3
    unfold u64 at hle
    omega
  · show d.total - n = 6 - ((d.sent + n.toNat : Nat) : Int)
    omega

theorem inHeader_rounds (hacc : DumpAccepts opcode fileSize mem file results)
    (hinside : ∀ k start len, (spyDumpChunkfile opcode fileSize mem file results k).io fileSize =
      some (.write start len) → start + len ≤ rspHdrSize) (h : results 0 ≠ 6) (k : Nat) :
    InHeader (spyDumpChunkfile opcode fileSize mem file results (k + 1)) := by
  induction k with
  | zero =>
    have hio : (spyDumpChunkfile opcode fileSize mem file results 0).io fileSize =
        some (.write 0 6) := rfl
    obtain ⟨hn, hle, -, hpos⟩ := hacc _ _ hio
    have hone := hpos (by decide)
    have hnext := hinside 1
    rw [spyDumpChunkfile_succ hio] at hnext ⊢
    exact inHeader_after rfl rfl hn (show ((0 : Nat) : Int) < 0 + results 0 by omega)
      (show (0 : Int) + results 0 < 6 by omega) hnext
  | succ k ih =>
    have hio := ih.io_eq fileSize
    have hsent := ih.sent
    obtain ⟨hn, hle, -⟩ := hacc _ _ hio
    have hnext := hinside (k + 1 + 1)
    rw [spyDumpChunkfile_succ hio] at hnext ⊢
    exact inHeader_after ih.retcode ih.total hn (by omega) (by omega) hnext

end DumpFile

/-- A dump sends the header and the file, each byte once, and nothing else exactly when
the first `write()` takes the whole header. `spy_alloc_chunk` keeps the size of the file
in 32 bits. -/
theorem dump_is_whole_iff (opcode size : Nat) (mem file : ByteStore) (results : Nat → Int)
    (hacc : DumpAccepts opcode (u32 size) mem file results) :
    DumpsWhole opcode (u32 size) mem file results ↔ results 0 = 6 := by
  have hsize : u32 size < 4294967296 := by
    unfold u32
    omega
  constructor
  · rintro ⟨⟨k, hnone, -⟩, -, hinside⟩
    by_contra hne
    cases k with
    | zero => cases hnone
    | succ k =>
      have hin := inHeader_rounds hacc hinside hne k
      rw [hin.io_eq] at hnone
      cases hnone
  · exact dumpsWhole_of_header hsize hacc

/-- The results of a `write()` and of the calls after it. -/
def firstThen (first rest : Int) (k : Nat) : Int := if k = 0 then first else rest

/-- Three bytes of a file, taken one after the other behind a whole header. -/
theorem dump_is_whole_three :
    DumpAccepts 40 (u32 3) (fun _ => 0) (fun _ => 7) (firstThen 6 1) ∧
    DumpsWhole 40 (u32 3) (fun _ => 0) (fun _ => 7) (firstThen 6 1) := by
  have hacc : DumpAccepts 40 (u32 3) (fun _ => 0) (fun _ => 7) (firstThen 6 1) :=
    DumpAccepts.of_returned 4 (by decide) (by decide)
  exact ⟨hacc, (dump_is_whole_iff 40 3 _ _ _ hacc).mpr rfl⟩

/-- The first `write()` takes four bytes: the second is asked for 2^64 - 2 more, and what
it takes beyond two is not of the header. Or it takes three: from then on the loop asks for
nothing and does not end. -/
theorem split_header_breaks_dump :
    (DumpAccepts 40 (u32 0) (fun _ => 1) (fun _ => 7) (firstThen 4 3) ∧
      (spyDumpChunkfile 40 (u32 0) (fun _ => 1) (fun _ => 7) (firstThen 4 3) 1).io (u32 0) =
        some (.write 4 18446744073709551614) ∧
      (spyDumpChunkfile 40 (u32 0) (fun _ => 1) (fun _ => 7) (firstThen 4 3) 2).out =
        [40, 0, 0, 0, 0, 0, 1]) ∧
    DumpAccepts 40 (u32 0) (fun _ => 1) (fun _ => 7) (firstThen 3 0) ∧
      ∀ k, (spyDumpChunkfile 40 (u32 0) (fun _ => 1) (fun _ => 7) (firstThen 3 0) (k + 1)).io
        (u32 0) = some (.write 3 0) := by
  have hstuck : ∀ k, spyDumpChunkfile 40 (u32 0) (fun _ => 1) (fun _ => 7) (firstThen 3 0) (k + 1) =
      ⟨3, 3, 0, 0, [40, 0, 0]⟩ := by
    intro k
    induction k with
    | zero => decide
    | succ k ih =>
      have hio : (spyDumpChunkfile 40 (u32 0) (fun _ => 1) (fun _ => 7) (firstThen 3 0) (k + 1)).io
          (u32 0) = some (.write 3 0) := by
        rw [ih]
        rfl
      rw [spyDumpChunkfile_succ hio, ih]
      rfl
  refine ⟨⟨DumpAccepts.of_returned 2 (by decide) (by decide), by decide, by decide⟩, ?_, ?_⟩
  · intro k io hio
    cases k with
    | zero =>
      cases hio
      decide
    | succ k =>
      rw [hstuck k] at hio
      cases hio
      exact (by decide : DumpIo.Accepts (.write 3 0) 0)
  · intro k
    rw [hstuck k]
    rfl

end Speedy.Chunkserver
