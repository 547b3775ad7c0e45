import Speedy.Chunkserver.Parser

/-! # What one call of the recovery parser does

The buffer, `buf_left` and `fpos` stay in step with the descriptor: the unread
part of the buffer is the stretch of the file that ends at the descriptor's
position (`Synced`). Every `read()` is bounded by `fleft`, which is the distance
to a limit `lim` fixed at the start: `lim` is `current_offset` when that fits an
`int`, and otherwise the first position from 55 on that agrees with it modulo
2^32. Only a failed `read()` inside a body breaks the step (`Broken`). Where that leads
is said without the buffer and the counters, in positions of the file (`Misreads`). -/
namespace Speedy.Chunkserver
open Speedy.Lib

/-! ## Reading by positions -/

/-- The record header stored at this offset of the file -/
def headerAt (file : ByteStore) (pos : Nat) : SpyFile := parseFileMeta (slice file pos fileMetaSize)

/-- Where the record at `pos` ends according to its header. -/
def recordEnd (file : ByteStore) (pos : Nat) : Nat := pos + 30 + (headerAt file pos).size

/-- A part of the body is missing, and an `int` can count it. -/
def InBody (file : ByteStore) (pos upto : Nat) : Prop :=
  pos + 30 ≤ upto ∧ upto < recordEnd file pos ∧ recordEnd file pos < upto + 2147483648

/-- A part of the header or of the body is missing. -/
def Short (file : ByteStore) (pos upto : Nat) : Prop := upto < pos + 30 ∨ InBody file pos upto

/-- A chunk file to be read: `co` is its `current_offset`, `lim` is how far it may be read,
`size` is the size of the buffer, and `wrong` says that the chunk must not be accepted. -/
structure Reading where
  file : ByteStore
  reads : Nat → ReadResult
  co : Nat
  lim : Nat
  size : Nat
  wrong : Prop

/-- How far a `read()` of `n` bytes comes: not beyond the limit, nor beyond the buffer,
which keeps the part of a header that is there. -/
def Reading.upTo (r : Reading) (pos upto n : Nat) : Nat :=
  upto + min (max n 1)
    (min (r.lim - upto) (if upto < pos + 30 then r.size - (upto - pos) else r.size))

/-- The ways for the reading to go wrong from the record at `pos`, when the fids `ids` have
been met and `k` calls of `read()` have brought the bytes up to `upto`. It does not go wrong
where an assertion fails, or with an `fpos` below `current_offset`. -/
inductive Misreads (r : Reading) : List UInt64 → Nat → Nat → Nat → Prop
  | accepted {ids : List UInt64} {pos upto k : Nat}
      (stop : pos = upto ∨ Short r.file pos upto ∧ (upto = r.lim ∨ r.reads k = .eof))
      (passes : r.co ≤ u64 (i32 upto)) (h : r.wrong) : Misreads r ids pos upto k
  | read {ids : List UInt64} {pos upto k n : Nat} (short : Short r.file pos upto)
      (behind : upto < r.lim) (going : pos = upto → u64 (i32 upto) < r.co)
      (result : r.reads k = .bytes n) (header : pos + 30 ≤ r.upTo pos upto n)
      (rest : Misreads r ids pos (r.upTo pos upto n) (k + 1)) : Misreads r ids pos upto k
  | record {ids : List UInt64} {pos upto k : Nat} (whole : recordEnd r.file pos ≤ upto)
      (new : (headerAt r.file pos).fid ∉ ids)
      (rest : Misreads r ((headerAt r.file pos).fid :: ids) (recordEnd r.file pos) upto k) :
      Misreads r ids pos upto k
  /-- A body too long for an `int` is not skipped over. -/
  | huge {ids : List UInt64} {pos upto k : Nat} (header : pos + 30 ≤ upto)
      (long : upto + 2147483648 ≤ recordEnd r.file pos) (new : (headerAt r.file pos).fid ∉ ids)
      (rest : Misreads r ((headerAt r.file pos).fid :: ids) (pos + 30) upto k) :
      Misreads r ids pos upto k
  /-- A `read()` in a body fails, and the next one finds the end of the file. -/
  | failed {ids : List UInt64} {pos upto k : Nat} (body : InBody r.file pos upto)
      (behind : upto < r.lim) (fails : (r.reads k).Fails) (new : (headerAt r.file pos).fid ∉ ids)
      (small : r.size + (recordEnd r.file pos - upto) < 2147483647)
      (next : r.reads (k + 1) = .eof) (passes : r.co ≤ u64 (i32 (upto - 1))) (h : r.wrong) :
      Misreads r ids pos upto k
  /-- A `read()` in a body fails, and `buf_free` overflows or the next one brings bytes. -/
  | undefined {ids : List UInt64} {pos upto k : Nat} (body : InBody r.file pos upto)
      (behind : upto < r.lim) (fails : (r.reads k).Fails) (new : (headerAt r.file pos).fid ∉ ids)
      (next : 2147483647 ≤ r.size + (recordEnd r.file pos - upto) ∨
        ∃ n, r.reads (k + 1) = .bytes n) : Misreads r ids pos upto k

section Reading
variable {r : Reading} {ids : List UInt64} {pos upto k : Nat}

theorem Short.lt {file : ByteStore} (h : Short file pos upto) :
    upto < recordEnd file pos ∧ ¬ (pos + 30 ≤ upto ∧ upto + 2147483648 ≤ recordEnd file pos) := by
  unfold Short InBody recordEnd at *
  omega

theorem misreads_finished (h : r.co ≤ u64 (i32 pos)) : Misreads r ids pos pos k ↔ r.wrong := by
  constructor
  · intro hm
    cases hm <;> grind [InBody, recordEnd]
  · exact .accepted (.inl rfl) h

theorem misreads_stopped (short : Short r.file pos upto)
    (stop : upto = r.lim ∨ r.reads k = .eof) :
    Misreads r ids pos upto k ↔ r.wrong ∧ r.co ≤ u64 (i32 upto) := by
  constructor
  · intro hm
    have := short.lt
    cases hm <;> grind [InBody, ReadResult.Fails]
  · intro h
    exact .accepted (.inr ⟨short, stop⟩) h.2 h.1

theorem misreads_read {n : Nat} (short : Short r.file pos upto) (behind : upto < r.lim)
    (going : pos = upto → u64 (i32 upto) < r.co) (result : r.reads k = .bytes n) :
    Misreads r ids pos upto k ↔
      pos + 30 ≤ r.upTo pos upto n ∧ Misreads r ids pos (r.upTo pos upto n) (k + 1) := by
  constructor
  · intro hm
    have := short.lt
    cases hm <;> grind [InBody, ReadResult.Fails]
  · intro h
    exact .read short behind going result h.1 h.2

theorem misreads_record (whole : recordEnd r.file pos ≤ upto) :
    Misreads r ids pos upto k ↔ (headerAt r.file pos).fid ∉ ids ∧
      Misreads r ((headerAt r.file pos).fid :: ids) (recordEnd r.file pos) upto k := by
  constructor
  · intro hm
    cases hm <;> grind [InBody, Short, recordEnd]
  · intro h
    exact .record whole h.1 h.2

theorem misreads_huge (header : pos + 30 ≤ upto)
    (long : upto + 2147483648 ≤ recordEnd r.file pos) :
    Misreads r ids pos upto k ↔ (headerAt r.file pos).fid ∉ ids ∧
      Misreads r ((headerAt r.file pos).fid :: ids) (pos + 30) upto k := by
  constructor
  · intro hm
    cases hm <;> grind [InBody, Short]
  · intro h
    exact .huge header long h.1 h.2

theorem not_misreads_header (short : upto < pos + 30) (behind : upto < r.lim)
    (going : pos = upto → u64 (i32 upto) < r.co) (fails : (r.reads k).Fails) :
    ¬ Misreads r ids pos upto k := by
  intro hm
  cases hm <;> grind [InBody, ReadResult.Fails, recordEnd]

theorem misreads_body (body : InBody r.file pos upto) (behind : upto < r.lim)
    (fails : (r.reads k).Fails) :
    Misreads r ids pos upto k ↔ (headerAt r.file pos).fid ∉ ids ∧
      ((2147483647 ≤ r.size + (recordEnd r.file pos - upto) ∨ ∃ n, r.reads (k + 1) = .bytes n) ∨
        r.size + (recordEnd r.file pos - upto) < 2147483647 ∧ r.reads (k + 1) = .eof ∧
          r.co ≤ u64 (i32 (upto - 1)) ∧ r.wrong) := by
  constructor
  · intro hm
    cases hm <;> grind [InBody, Short, ReadResult.Fails]
  · rintro ⟨new, next | ⟨small, next, passes, h⟩⟩
    · exact .undefined body behind fails new next
    · exact .failed body behind fails new small next passes h

/-- Where every file may be accepted, it takes a failed `read()`. -/
theorem Misreads.fails (hm : Misreads r ids pos upto k) (h : ¬ r.wrong) :
    ∃ k, (r.reads k).Fails := by
  induction hm with
  | accepted _ _ hw => exact absurd hw h
  | read _ _ _ _ _ _ ih => exact ih
  | record _ _ _ ih => exact ih
  | huge _ _ _ _ ih => exact ih
  | failed _ _ fails => exact ⟨_, fails⟩
  | undefined _ _ fails => exact ⟨_, fails⟩

end Reading

/-! ## The parser in step -/

/-- A reading by the parser, for the chunk `cid`. -/
structure Parsing extends Reading where
  cid : UInt64
  agree : ((co : Int) - lim) % 4294967296 = 0
  lim_lt : lim < 2147483703
  size_ge : 30 ≤ size
  size_lt : size < 2147483648

theorem Parsing.lim_eq (c : Parsing) (h : c.co < 2147483648) : c.lim = c.co := by
  have := c.agree
  have := c.lim_lt
  omega

/-- The position counters agree with the descriptor. -/
structure Tracked (c : Parsing) (p : Parser) : Prop where
  chunkId : p.chunkId = c.cid
  offset : p.chunkOffset = c.co
  bufSize : p.bufSize = c.size
  fpos : p.fpos = i32 p.filePos
  start : 55 ≤ p.filePos
  le : p.filePos ≤ c.lim
  wrap : p.wrapped = true → 2147483648 ≤ p.filePos

/-- The `left` unread bytes of the buffer are those of the file at `pos`. -/
structure Synced (c : Parsing) (p : Parser) (pos left : Nat) : Prop extends Tracked c p where
  left_eq : p.bufLeft = left
  pos_ge : 55 ≤ pos
  pos_eq : p.filePos = pos + left
  buf_eq : slice p.buf p.bufPos left = slice c.file pos left
  room : p.bufPos + left ≤ c.size

/-- The read brought enough for a header. -/
def ReadResult.Whole : ReadResult → Prop
  | .bytes n => 30 ≤ n
  | _ => False

/-- A failed `read()` was taken for data with `cur` bytes of the body at `pos` missing. -/
structure Broken (c : Parsing) (pos cur : Nat) (p : Parser) : Prop where
  left_eq : p.bufLeft = -1 - cur
  bufSize : p.bufSize = c.size
  fleft_pos : 0 < i32 (p.chunkOffset - p.fpos)
  fpos : p.fpos = i32 (p.filePos - 1)
  start : pos + 30 ≤ p.filePos
  ends : p.filePos + cur = recordEnd c.file pos
  lt : p.filePos < c.lim

/-- The reading goes wrong from where the parser stands. -/
abbrev Parsing.Misreads (c : Parsing) (p : Parser) (index : List IndexEntry) (pos : Nat) : Prop :=
  Chunkserver.Misreads c.toReading (index.map IndexEntry.fid) pos p.filePos p.nreads

/-- The same where a failed `read()` was taken for data. -/
def Parsing.BreaksDown (c : Parsing) (p : Parser) (cur : Nat) : Prop :=
  (2147483647 ≤ c.size + cur ∨ ∃ n, c.reads p.nreads = .bytes n) ∨
    c.size + cur < 2147483647 ∧ c.reads p.nreads = .eof ∧ c.co ≤ u64 p.fpos ∧ c.wrong

/-- No entry of the index has this fid. -/
def Fresh (index : List IndexEntry) (fid : UInt64) : Prop := ∀ e ∈ index, e.fid ≠ fid

theorem fresh_iff {index : List IndexEntry} {fid : UInt64} :
    Fresh index fid ↔ fid ∉ index.map IndexEntry.fid := by
  simp [Fresh]

section Calls
variable {c : Parsing} {p : Parser} {pos left : Nat}

theorem Tracked.fleft (h : Tracked c p) :
    i32 (p.chunkOffset - p.fpos) = (c.lim : Int) - p.filePos := by
  have h1 := c.agree
  have h2 := c.lim_lt
  have h3 := h.start
  have h4 := h.le
  rw [h.offset, h.fpos, i32_sub]
  unfold i32
  omega

/-- Counting bytes that were read keeps the counters in step. -/
theorem Tracked.advance (h : Tracked c p) (q : Parser) {k : Nat}
    (hq : q.chunkId = p.chunkId ∧ q.chunkOffset = p.chunkOffset ∧ q.bufSize = p.bufSize ∧
      q.fpos = p.fpos ∧ q.wrapped = p.wrapped) (hk : q.filePos = p.filePos + k)
    (hle : p.filePos + k ≤ c.lim) : Tracked c (q.advance k) := by
  obtain ⟨h0, h1, h2, h3, h4⟩ := hq
  have hf := h.fpos
  have hs := h.start
  refine ⟨?_, ?_, ?_, ?_, ?_, ?_, ?_⟩
  · exact h0.trans h.chunkId
  · exact h1.trans h.offset
  · exact h2.trans h.bufSize
  · simp only [Parser.advance, h3, hf, hk, i32_add]
    rfl
  · simp only [Parser.advance, hk]; omega
  · simp only [Parser.advance, hk]; exact hle
  · simp only [Parser.advance, hk, h3, h4, Bool.or_eq_true, decide_eq_true_eq]
    rintro (hw | hne)
    · have := h.wrap hw
      omega
    · rw [hf, i32_add] at hne
      unfold i32 at hne
      omega

/-! ## Reading -/

theorem readInto_bytes {n : Nat} (hr : c.reads p.nreads = .bytes n) (dst rsize : Nat) :
    readInto c.file c.reads p dst rsize =
      ({ p with
          buf := store p.buf dst (slice c.file p.filePos (min (max n 1) rsize))
          filePos := p.filePos + min (max n 1) rsize
          nreads := p.nreads + 1 }, min (max n 1) rsize) := by
  simp only [readInto, hr]

theorem readInto_eof (hr : c.reads p.nreads = .eof) (dst rsize : Nat) :
    readInto c.file c.reads p dst rsize = ({ p with nreads := p.nreads + 1 }, 0) := by
  simp only [readInto, hr]

theorem readInto_fails (hr : (c.reads p.nreads).Fails) (dst rsize : Nat) :
    readInto c.file c.reads p dst rsize =
      ({ p with nreads := p.nreads + 1 }, 18446744073709551615) := by
  cases hx : c.reads p.nreads with
  | bytes n => rw [hx] at hr; exact hr.elim
  | eof => rw [hx] at hr; exact hr.elim
  | eintr => simp only [readInto, hx]; rfl
  | error => simp only [readInto, hx]; rfl

theorem ReadResult.cases_on (r : ReadResult) :
    (∃ n, r = .bytes n) ∨ r = .eof ∨ r.Fails := by
  cases r with
  | bytes n => exact .inl ⟨n, rfl⟩
  | eof => exact .inr (.inl rfl)
  | eintr => exact .inr (.inr trivial)
  | error => exact .inr (.inr trivial)

/-! ## Refilling for a header -/

theorem Synced.shift (h : Synced c p pos left) : Synced c p.shift pos left := by
  refine ⟨⟨h.chunkId, h.offset, h.bufSize, h.fpos, h.start, h.le, h.wrap⟩, h.left_eq, h.pos_ge,
    h.pos_eq, ?_, ?_⟩
  · have hl : p.bufLeft.toNat = left := by rw [h.left_eq]; rfl
    simp only [Parser.shift, hl]
    by_cases hz : p.bufLeft > 0
    · rw [if_pos hz, ← h.buf_eq]
      exact Holds.slice_eq (Holds.store_self _ _ _) (by simp)
    · have : left = 0 := by have := h.left_eq; omega
      subst this; simp
  · simp only [Parser.shift]
    have := h.room
    omega

theorem refill_enough (h : Synced c p pos left) (hl : 30 ≤ left) :
    refill c.file c.reads p = .ok p := by
  unfold refill
  rw [if_neg]
  have := h.left_eq
  simp only [fileMetaSize]
  omega

/-- Nothing of the chunk is left to read, as the `int` arithmetic sees it. -/
theorem refill_no_fleft (file : ByteStore) (reads : Nat → ReadResult) (hl : p.bufLeft < 30)
    (hd : i32 (p.chunkOffset - p.fpos) ≤ 0) : refill file reads p = .error (.failed p.shift) := by
  have hsh : i32 (p.shift.chunkOffset - p.shift.fpos) ≤ 0 := hd
  unfold refill
  rw [if_pos (show p.bufLeft < (fileMetaSize : Nat) from hl)]
  simp only
  rw [if_pos hsh]

theorem refill_dry (h : Synced c p pos left) (hl : left < 30) (hd : p.filePos = c.lim) :
    refill c.file c.reads p = .error (.failed p.shift) := by
  refine refill_no_fleft _ _ ?_ ?_
  · rw [h.left_eq]; omega
  · rw [h.fleft]; omega

/-- The requested size of a refill: the rest of the chunk or of the buffer. -/
theorem refill_rsize (h : Synced c p pos left) :
    u64 (if (c.lim : Int) - p.filePos < p.bufSize - p.bufLeft then (c.lim : Int) - p.filePos
      else p.bufSize - p.bufLeft) = min (c.lim - p.filePos) (c.size - left) := by
  have h1 := h.left_eq
  have h2 := h.bufSize
  have h3 := h.le
  have h4 := h.room
  have h5 := c.size_lt
  have h6 := c.lim_lt
  unfold u64
  split <;> omega

theorem refill_step (h : Synced c p pos left) (hl : left < 30) (hd : p.filePos < c.lim) :
    refill c.file c.reads p =
      (let r := readInto c.file c.reads p.shift left (min (c.lim - p.filePos) (c.size - left))
       if r.2 = 0 then .error (.failed r.1)
       else .ok { r.1.advance r.2 with bufLeft := i32 (r.1.bufLeft + r.2) }) := by
  have hle := h.left_eq
  have hroom := h.room
  have hlt := c.size_lt
  have hsh := h.shift
  have hfp : p.shift.filePos = p.filePos := rfl
  have hr := refill_rsize hsh
  have hfree : p.shift.bufSize - p.shift.bufLeft =
      i32 (p.shift.bufSize - p.shift.bufLeft) := by
    rw [hsh.bufSize, hsh.left_eq]
    exact (i32_of_range (by omega) (by omega)).symm
  have hpos : ¬ ((left : Int) < 0) := by omega
  rw [hfp] at hr
  unfold refill
  rw [if_pos (by simp only [fileMetaSize]; omega)]
  simp only
  rw [hsh.fleft, hfp, if_neg (by omega), if_neg (not_not.mpr hfree), hr, hsh.left_eq]
  simp only [hpos, false_and, if_false, Int.toNat_natCast]

theorem refill_eof (h : Synced c p pos left) (hl : left < 30) (hd : p.filePos < c.lim)
    (hr : c.reads p.nreads = .eof) :
    refill c.file c.reads p = .error (.failed { p.shift with nreads := p.nreads + 1 }) := by
  rw [refill_step h hl hd, readInto_eof (p := p.shift) hr]
  rfl

theorem refill_fails (h : Synced c p pos left) (hl : left < 30) (hd : p.filePos < c.lim)
    (hr : (c.reads p.nreads).Fails) :
    ∃ q, refill c.file c.reads p = .ok q ∧ q.bufLeft < 30 := by
  rw [refill_step h hl hd, readInto_fails (p := p.shift) hr]
  refine ⟨_, if_neg (by simp), ?_⟩
  have := h.left_eq
  simp only [Parser.shift, this]
  unfold i32
  omega

theorem refill_bytes (h : Synced c p pos left) (hl : left < 30) (hd : p.filePos < c.lim) {n : Nat}
    (hr : c.reads p.nreads = .bytes n) :
    ∃ q k, refill c.file c.reads p = .ok q ∧ Synced c q pos (left + k) ∧
      k = min (max n 1) (min (c.lim - p.filePos) (c.size - left)) ∧ q.nreads = p.nreads + 1 := by
  have hsz := c.size_ge
  have hsl := c.size_lt
  have hlt := c.lim_lt
  have hsh := h.shift
  have hk : min (max n 1) (min (c.lim - p.filePos) (c.size - left)) ≠ 0 := by omega
  rw [refill_step h hl hd, readInto_bytes (p := p.shift) hr]
  generalize hkd : min (max n 1) (min (c.lim - p.filePos) (c.size - left)) = k at hk ⊢
  refine ⟨_, k, if_neg hk, ?_, rfl, rfl⟩
  have hbl : i32 (p.shift.bufLeft + k) = ((left + k : Nat) : Int) := by
    rw [hsh.left_eq]
    exact i32_of_range (by omega) (by omega)
  have hfp : p.shift.filePos = p.filePos := rfl
  have hbp : p.shift.bufPos = 0 := rfl
  have ht := hsh.toTracked.advance
    { p.shift with
      buf := store p.shift.buf left (slice c.file p.shift.filePos k)
      filePos := p.shift.filePos + k
      nreads := p.shift.nreads + 1 } ⟨rfl, rfl, rfl, rfl, rfl⟩ rfl (by omega)
  refine ⟨⟨ht.chunkId, ht.offset, ht.bufSize, ht.fpos, ht.start, ht.le, ht.wrap⟩, hbl, h.pos_ge,
    ?_, ?_, ?_⟩
  · have := h.pos_eq
    simp only [Parser.advance]
    omega
  · -- the old bytes were moved to the front, the new ones stand behind them
    have hold := hsh.buf_eq
    simp only [Parser.advance, hbp, hfp]
    rw [hbp] at hold
    rw [slice_add, slice_add, slice_store_out _ (by omega), Nat.zero_add,
      Holds.slice_eq (Holds.store_self _ _ _) (by simp), h.pos_eq, hold]
  · simp only [Parser.advance, hbp]
    omega

/-! ## The body loop -/

theorem parseBody_nonpos (file : ByteStore) (reads : Nat → ReadResult) (n : Nat) (p : Parser)
    {cur : Int} (h : cur ≤ 0) : parseBody file reads n p cur = .ok p := by
  cases n with
  | zero => rfl
  | succ n => unfold parseBody; rw [if_neg (by omega)]

theorem parseBody_step (h : Tracked c p) {n cur : Nat} (hc : 0 < cur) (hd : p.filePos < c.lim) :
    parseBody c.file c.reads (n + 1) p cur =
      (let r := readInto c.file c.reads p 0 (min (c.lim - p.filePos) c.size)
       if r.2 = 0 then .error r.1
       else if u64 cur > r.2 then
         parseBody c.file c.reads n { r.1.advance r.2 with bufPos := 0, bufLeft := 0 }
           (i32 (cur - r.2))
       else
         parseBody c.file c.reads n
           { r.1.advance r.2 with
             bufPos := (cur : Int).toNat
             bufLeft := i32 (i32 r.2 - cur) } 0) := by
  have hsz := c.size_ge
  have hsl := c.size_lt
  have hlt := c.lim_lt
  have hst := h.start
  have hr : u64 (if (c.lim : Int) - p.filePos < p.bufSize then (c.lim : Int) - p.filePos
      else p.bufSize) = min (c.lim - p.filePos) c.size := by
    rw [h.bufSize]
    unfold u64
    split <;> omega
  conv_lhs => unfold parseBody
  rw [if_pos (by omega)]
  simp only
  rw [h.fleft, if_neg (by omega), hr]

/-- The ways for the loop over a body to end: it stops at end of file or at the limit, or
leaves the buffer in step behind the body, or has taken a failed `read()` for data. -/
inductive BodySpec (c : Parsing) (p : Parser) (pos : Nat) (index : List IndexEntry) :
    Except Parser Parser → Prop
  | stopped (q : Parser) (at_ : Tracked c q)
      (why : (q.filePos < c.lim ∧ ∃ k, ¬ (c.reads k).Whole) ∨ c.lim < recordEnd c.file pos)
      (ends : c.Misreads p index pos ↔ c.wrong ∧ c.co ≤ u64 q.fpos) :
      BodySpec c p pos index (.error q)
  | whole (q : Parser) (left : Nat) (next : Synced c q (recordEnd c.file pos) left)
      (ends : c.Misreads p index pos ↔ c.Misreads q index pos) : BodySpec c p pos index (.ok q)
  | broken (q : Parser) (cur : Nat) (next : Broken c pos cur q) (why : ∃ k, (c.reads k).Fails)
      (ends : c.Misreads p index pos ↔
        Fresh index (headerAt c.file pos).fid ∧ c.BreaksDown q cur) :
      BodySpec c p pos index (.ok q)

/-- The loop goes on with another part of the body. -/
theorem BodySpec.of_misreads {q : Parser} {index : List IndexEntry} {res : Except Parser Parser}
    (hends : c.Misreads p index pos ↔ c.Misreads q index pos) (h : BodySpec c q pos index res) :
    BodySpec c p pos index res := by
  cases h with
  | stopped q at_ why ends => exact .stopped q at_ why (hends.trans ends)
  | whole q left next ends => exact .whole q left next (hends.trans ends)
  | broken q cur next why ends => exact .broken q cur next why (hends.trans ends)

/-- The error return, as a `size_t`, is larger than any `cur_fleft`. -/
theorem parseBody_fails (index : List IndexEntry) (hpos : 55 ≤ pos) (n : Nat) {cur : Nat}
    (h : Tracked c p) (hst : pos + 30 ≤ p.filePos)
    (hend : p.filePos + cur = recordEnd c.file pos) (hc : 0 < cur) (hcl : cur < 2147483648)
    (hd : p.filePos < c.lim) (hr : (c.reads p.nreads).Fails) :
    BodySpec c p pos index (parseBody c.file c.reads (n + 1) p cur) := by
  have hf := h.fleft
  have hlt := c.lim_lt
  have hfpos : i32 (p.fpos + (18446744073709551615 : Nat)) = i32 (p.filePos - 1) := by
    rw [h.fpos, i32_add]
    unfold i32
    omega
  rw [parseBody_step h hc hd, readInto_fails hr]
  simp only
  rw [if_neg (by omega), u64_of_lt (by omega), if_neg (by omega),
    parseBody_nonpos _ _ _ _ (Int.le_refl 0)]
  refine .broken _ cur ⟨?_, h.bufSize, ?_, hfpos, hst, hend, hd⟩ ⟨_, hr⟩ ?_
  · simp only
    unfold i32
    omega
  · simp only [Parser.advance]
    rw [i32_sub]
    unfold i32 at hf ⊢
    omega
  · have hmiss : recordEnd c.file pos - p.filePos = cur := by omega
    have hbreak : c.Misreads p index pos ↔ _ :=
      misreads_body ⟨hst, by omega, by omega⟩ hd hr
    rw [hmiss, ← fresh_iff] at hbreak
    simpa only [Parsing.BreaksDown, Parser.advance, hfpos] using hbreak

/-- The loop over a body that ends `cur` bytes after the descriptor. -/
theorem parseBody_spec (index : List IndexEntry) (hpos : 55 ≤ pos) (n : Nat) (p : Parser)
    (cur : Nat) (h : Tracked c p) (hst : pos + 30 ≤ p.filePos)
    (hend : p.filePos + cur = recordEnd c.file pos) (hc : 0 < cur) (hcl : cur < 2147483648)
    (hn : cur ≤ n) : BodySpec c p pos index (parseBody c.file c.reads n p cur) := by
  induction n generalizing p cur with
  | zero => omega
  | succ n ih =>
    have hsz := c.size_ge
    have hsl := c.size_lt
    have hlt := c.lim_lt
    have hbody : InBody c.file pos p.filePos := ⟨hst, by omega, by omega⟩
    by_cases hd : p.filePos < c.lim
    · rcases (c.reads p.nreads).cases_on with ⟨m, hr⟩ | hr | hr
      · -- some bytes came
        have hread : c.Misreads p index pos ↔ _ :=
          misreads_read (.inr hbody) hd (fun he => by omega) hr
        rw [Reading.upTo, if_neg (Nat.not_lt.mpr hst), and_iff_right (by omega)] at hread
        rw [parseBody_step h hc hd, readInto_bytes hr]
        have hk0 : min (max m 1) (min (c.lim - p.filePos) c.size) ≠ 0 := by omega
        have hkl : min (max m 1) (min (c.lim - p.filePos) c.size) ≤ c.lim - p.filePos := by omega
        have hks : min (max m 1) (min (c.lim - p.filePos) c.size) ≤ c.size := by omega
        generalize min (max m 1) (min (c.lim - p.filePos) c.size) = k at hk0 hkl hks hread ⊢
        have ht := h.advance
          { p with
            buf := store p.buf 0 (slice c.file p.filePos k)
            filePos := p.filePos + k
            nreads := p.nreads + 1 } ⟨rfl, rfl, rfl, rfl, rfl⟩ rfl (by omega)
        simp only [if_neg hk0]
        rw [u64_of_lt (by omega)]
        by_cases hck : cur > k
        · rw [if_pos hck, show i32 ((cur : Int) - k) = ((cur - k : Nat) : Int) by
            rw [i32_of_range (by omega) (by omega)]; omega]
          refine .of_misreads hread (ih
            { (Parser.advance { p with
                buf := store p.buf 0 (slice c.file p.filePos k)
                filePos := p.filePos + k
                nreads := p.nreads + 1 } k) with bufPos := 0, bufLeft := 0 } (cur - k)
            ⟨ht.chunkId, ht.offset, ht.bufSize, ht.fpos, ht.start, ht.le, ht.wrap⟩ ?_ ?_
            (by omega) (by omega) (by omega))
          · simp only [Parser.advance]; omega
          · simp only [Parser.advance]; omega
        · -- the body ends inside what was read
          rw [if_neg hck, parseBody_nonpos _ _ _ _ (Int.le_refl 0)]
          have hbl : i32 (i32 k - cur) = ((k - cur : Nat) : Int) := by
            rw [i32_of_range (x := (k : Int)) (by omega) (by omega),
              i32_of_range (by omega) (by omega)]
            omega
          refine .whole _ (k - cur)
            ⟨⟨ht.chunkId, ht.offset, ht.bufSize, ht.fpos, ht.start, ht.le, ht.wrap⟩, hbl, by omega,
            ?_, ?_, ?_⟩ hread
          · simp only [Parser.advance]; omega
          · simp only [Parser.advance, Int.toNat_natCast, ← hend]
            have hself := slice_store_self p.buf 0 (slice c.file p.filePos k)
            rw [slice_length] at hself
            have hdrop := congrArg (List.drop cur) hself
            rw [drop_slice _ _ (by omega), drop_slice _ _ (by omega), Nat.zero_add] at hdrop
            exact hdrop
          · simp only [Int.toNat_natCast]; omega
      · -- end of file
        rw [parseBody_step h hc hd, readInto_eof hr]
        simp only [if_true]
        refine .stopped _ ⟨h.chunkId, h.offset, h.bufSize, h.fpos, h.start, h.le, h.wrap⟩
          (.inl ⟨hd, p.nreads, by rw [hr]; exact id⟩) ?_
        simp only [h.fpos]
        exact misreads_stopped (.inr hbody) (.inr hr)
      · exact parseBody_fails index hpos n h hst hend hc hcl hd hr
    · have hfl : p.filePos = c.lim := Nat.le_antisymm h.le (Nat.not_lt.mp hd)
      have hf := h.fleft
      unfold parseBody
      rw [if_pos (by omega)]
      simp only
      rw [if_pos (by omega)]
      refine .stopped p h (.inr (by omega)) ?_
      rw [h.fpos]
      exact misreads_stopped (.inr hbody) (.inl hfl)

/-! ## One call -/

/-- The entry that is added for a record the parser stands behind. -/
def Parser.entry (p : Parser) (fid : UInt64) (size : Nat) : IndexEntry :=
  ⟨p.chunkId, fid, u64 (p.fpos - size - fileMetaSize - p.bufLeft), u32 (size + fileMetaSize)⟩

/-- The index with the entry for the record at `pos`. -/
def Parser.indexed (p : Parser) (file : ByteStore) (pos : Nat) (index : List IndexEntry) :
    List IndexEntry :=
  p.entry (headerAt file pos).fid (headerAt file pos).size :: index

theorem spyAddFileIndex_fresh {index : List IndexEntry} {e : IndexEntry} (h : Fresh index e.fid) :
    spyAddFileIndex index e = some (e :: index) := by
  unfold spyAddFileIndex
  rw [if_neg]
  intro hany
  obtain ⟨t, ht, he⟩ := List.any_eq_true.mp hany
  exact h t ht (by simpa using he)

theorem spyAddFileIndex_stale {index : List IndexEntry} {e : IndexEntry}
    (h : ¬ Fresh index e.fid) : spyAddFileIndex index e = none := by
  unfold spyAddFileIndex
  rw [if_pos]
  by_contra hany
  refine h fun t ht he => hany ?_
  exact List.any_eq_true.mpr ⟨t, ht, by simpa using he⟩

/-- What a call can do that starts in step with the file at `pos`, and how the reading goes
on then. -/
inductive CallSpec (c : Parsing) (p : Parser) (pos : Nat) (index : List IndexEntry) :
    ParseResult → Prop
  | finished (here : p.filePos = pos) (done : c.co ≤ u64 p.fpos) :
      CallSpec c p pos index (.finished p)
  | failed (q : Parser) (at_ : Tracked c q)
      (why : (q.filePos < c.lim ∧ ∃ k, ¬ (c.reads k).Whole) ∨ c.lim < recordEnd c.file pos)
      (ends : c.Misreads p index pos ↔ c.wrong ∧ c.co ≤ u64 q.fpos) :
      CallSpec c p pos index (.failed q)
  | aborted (why : (∃ k, ¬ (c.reads k).Whole) ∨ c.lim < pos + 30 ∨
        ¬ Fresh index (headerAt c.file pos).fid) (ends : ¬ c.Misreads p index pos) :
      CallSpec c p pos index .aborted
  | whole (q : Parser) (left : Nat) (next : Synced c q (recordEnd c.file pos) left)
      (ends : c.Misreads p index pos ↔
        c.Misreads q (q.indexed c.file pos index) (recordEnd c.file pos)) :
      CallSpec c p pos index (.more q (q.indexed c.file pos index))
  | skipped (q : Parser) (left : Nat) (next : Synced c q (pos + 30) left)
      (huge : left + 2147483648 ≤ (headerAt c.file pos).size)
      (ends : c.Misreads p index pos ↔ c.Misreads q (q.indexed c.file pos index) (pos + 30)) :
      CallSpec c p pos index (.more q (q.indexed c.file pos index))
  | broken (q : Parser) (cur : Nat) (next : Broken c pos cur q) (why : ∃ k, (c.reads k).Fails)
      (ends : c.Misreads p index pos ↔ c.BreaksDown q cur) :
      CallSpec c p pos index (.more q (q.indexed c.file pos index))

/-- The end of a call: the entry is added if the fid is new, and the reading goes on. -/
theorem addIndex_spec {p0 : Parser} {index : List IndexEntry} {goes : Prop} (p : Parser)
    (hends : c.Misreads p0 index pos ↔ (headerAt c.file pos).fid ∉ index.map IndexEntry.fid ∧ goes)
    (hmore : (c.Misreads p0 index pos ↔ goes) →
      CallSpec c p0 pos index (.more p (p.indexed c.file pos index))) :
    CallSpec c p0 pos index
      (addIndex p (headerAt c.file pos).fid (headerAt c.file pos).size index) := by
  rw [← fresh_iff] at hends
  unfold addIndex
  by_cases hf : Fresh index (headerAt c.file pos).fid
  · rw [spyAddFileIndex_fresh hf]
    exact hmore (hends.trans (and_iff_right hf))
  · rw [spyAddFileIndex_stale hf]
    exact .aborted (.inr (.inr hf)) fun hm => hf (hends.mp hm).1

/-- Taking the header out of the buffer. -/
theorem Synced.header (h : Synced c p pos left) {k n : Nat} (hn : left = k + n) :
    Synced c { p with bufPos := p.bufPos + k, bufLeft := n } (pos + k) n := by
  have hp := h.pos_eq
  have hr := h.room
  refine ⟨⟨h.chunkId, h.offset, h.bufSize, h.fpos, h.start, h.le, h.wrap⟩, rfl,
    Nat.le_add_right_of_le h.pos_ge, ?_, ?_, ?_⟩
  · simp only; omega
  · have hd := congrArg (List.drop k) h.buf_eq
    rwa [drop_slice _ _ (by omega), drop_slice _ _ (by omega), hn, Nat.add_sub_cancel_left] at hd
  · simp only; omega

theorem Synced.hdr_eq (h : Synced c p pos left) (hl : 30 ≤ left) :
    parseFileMeta (slice p.buf p.bufPos 30) = headerAt c.file pos := by
  have ht := congrArg (List.take 30) h.buf_eq
  rw [take_slice _ _ hl, take_slice _ _ hl] at ht
  exact congrArg parseFileMeta ht

/-- The part of a call behind the refill. -/
theorem parseRecord_spec {p0 : Parser} {index : List IndexEntry} (h : Synced c p pos left)
    (hl : 30 ≤ left) (hends : c.Misreads p0 index pos ↔ c.Misreads p index pos) :
    CallSpec c p0 pos index (parseRecord c.file c.reads p index) := by
  obtain ⟨n, rfl⟩ : ∃ n, left = 30 + n := ⟨left - 30, by omega⟩
  have hnext := h.header rfl
  have hle := h.left_eq
  have hlt : (headerAt c.file pos).size < 4294967296 := parseFileMeta_size_lt _
  have hroom := h.room
  have hsl := c.size_lt
  have hst := h.pos_ge
  have hpe := h.pos_eq
  have hrec : recordEnd c.file pos = pos + 30 + (headerAt c.file pos).size := rfl
  unfold parseRecord
  rw [if_pos (by simp only [fileMetaSize]; omega)]
  simp only [fileMetaSize, h.hdr_eq hl, hle]
  rw [show ((30 + n : Nat) : Int) - ((30 : Nat) : Int) = n by omega, u64_of_lt (by omega)]
  by_cases hin : n < (headerAt c.file pos).size
  · rw [if_pos hin]
    by_cases hh : (headerAt c.file pos).size < n + 2147483648
    · -- the rest of the body is read piece by piece
      obtain ⟨cur, hcur⟩ : ∃ cur, (headerAt c.file pos).size = n + cur :=
        ⟨_, (Nat.add_sub_cancel' (Nat.le_of_lt hin)).symm⟩
      have hi : i32 ((headerAt c.file pos).size - (n : Int)) = (cur : Nat) := by
        rw [i32_of_range (by omega) (by omega)]; omega
      rw [hi, Int.toNat_natCast]
      have hspec := parseBody_spec index hst cur _ cur hnext.toTracked (by simp only; omega)
        (by simp only; omega) (by omega) (by omega) le_rfl
      generalize parseBody c.file c.reads cur _ (cur : Int) = res at hspec ⊢
      cases hspec with
      | stopped q at_ why ends => exact .failed q at_ why (hends.trans ends)
      | whole q l next ends =>
        exact addIndex_spec q ((hends.trans ends).trans (misreads_record (by
          rw [next.pos_eq]; exact Nat.le_add_right _ _))) (.whole q l next)
      | broken q cur' next why ends =>
        exact addIndex_spec q (hends.trans (by rwa [← fresh_iff])) (.broken q cur' next why)
    · -- `cur_fleft` is negative and the body is not skipped over
      rw [parseBody_nonpos _ _ _ _ (by unfold i32; omega)]
      exact addIndex_spec _ (hends.trans (misreads_huge (by omega) (by omega)))
        (.skipped _ n hnext (by omega))
  · rw [if_neg hin]
    obtain ⟨m, hm⟩ : ∃ m, n = (headerAt c.file pos).size + m :=
      ⟨_, (Nat.add_sub_cancel' (Nat.le_of_not_lt hin)).symm⟩
    rw [show (n : Int) - (headerAt c.file pos).size = m by omega]
    exact addIndex_spec _ (hends.trans (misreads_record (by omega)))
      (.whole _ m (hnext.header hm))

theorem spyParseNextFile_spec (h : Synced c p pos left) (index : List IndexEntry) :
    CallSpec c p pos index (spyParseNextFile c.file c.reads p index) := by
  have hpe := h.pos_eq
  have hle := h.left_eq
  have hsz := c.size_ge
  unfold spyParseNextFile
  by_cases hd : u64 p.fpos ≥ p.chunkOffset ∧ p.bufLeft = 0
  · rw [if_pos hd]
    exact .finished (by omega) (h.offset ▸ hd.1)
  rw [if_neg hd]
  by_cases hl : 30 ≤ left
  · rw [refill_enough h hl]
    exact parseRecord_spec h hl .rfl
  have hl' : left < 30 := by omega
  have hshort : p.filePos < pos + 30 := by omega
  have hgoing : pos = p.filePos → u64 (i32 p.filePos) < c.co := by
    intro he
    rw [← h.fpos, ← h.offset]
    exact Nat.lt_of_not_le fun hge => hd ⟨hge, by omega⟩
  by_cases hlim : p.filePos < c.lim
  · rcases (c.reads p.nreads).cases_on with ⟨n, hr⟩ | hr | hr
    · obtain ⟨q, k, hq, hs, hk, hreads⟩ := refill_bytes h hl' hlim hr
      have hqe := hs.pos_eq
      have hread : c.Misreads p index pos ↔ _ := misreads_read (.inl hshort) hlim hgoing hr
      have hto : c.upTo pos p.filePos n = q.filePos := by
        rw [Reading.upTo, if_pos hshort, hqe, hk, hpe, Nat.add_sub_cancel_left]
        omega
      rw [hto, ← hreads] at hread
      rw [hq]
      by_cases hlk : 30 ≤ left + k
      · exact parseRecord_spec hs hlk (hread.trans (and_iff_right (by omega)))
      · -- the assertion on `buf_left` fails: a short read, or a stub of a header
        simp only
        rw [parseRecord, if_neg (by simp only [hs.left_eq, fileMetaSize]; omega)]
        refine .aborted ?_ fun hm => ?_
        · by_cases hn : 30 ≤ n
          · exact .inr (.inl (by omega))
          · exact .inl ⟨p.nreads, by rw [hr]; exact hn⟩
        · have := (hread.mp hm).1
          omega
    · rw [refill_eof h hl' hlim hr]
      have ht := h.shift
      refine .failed _ ⟨ht.chunkId, ht.offset, ht.bufSize, ht.fpos, ht.start, ht.le, ht.wrap⟩
        (.inl ⟨hlim, p.nreads, by rw [hr]; exact id⟩) ?_
      simp only [ht.fpos]
      exact misreads_stopped (.inl hshort) (.inr hr)
    · obtain ⟨q, hq, hql⟩ := refill_fails h hl' hlim hr
      rw [hq]
      simp only
      rw [parseRecord, if_neg (by simp only [fileMetaSize]; omega)]
      refine .aborted (.inl ⟨p.nreads, fun hw => ?_⟩) (not_misreads_header hshort hlim hgoing hr)
      cases hx : c.reads p.nreads <;> rw [hx] at hr hw <;> first | exact hr | exact hw
  · have hfl : p.filePos = c.lim := by have := h.le; omega
    rw [refill_dry h hl' hfl]
    refine .failed _ h.shift.toTracked (.inr (by simp only [recordEnd]; omega)) ?_
    rw [h.shift.fpos]
    exact misreads_stopped (.inl hshort) (.inl hfl)

/-- The call after a failed `read()` in a body. -/
theorem Broken.next {cur : Nat} (h : Broken c pos cur p) (index : List IndexEntry) :
    (spyParseNextFile c.file c.reads p index = .undefined ∧ c.BreaksDown p cur) ∨
    (∃ q, spyParseNextFile c.file c.reads p index = .failed q ∧ q.fpos = p.fpos ∧
      (c.BreaksDown p cur ↔ c.wrong ∧ c.co ≤ u64 p.fpos)) ∨
    (spyParseNextFile c.file c.reads p index = .aborted ∧ ¬ c.BreaksDown p cur) := by
  have hneg := h.left_eq
  have hfl : 0 < i32 (p.shift.chunkOffset - p.shift.fpos) := h.fleft_pos
  have hleft : p.shift.bufLeft = -1 - cur := h.left_eq
  have hfree : p.shift.bufSize - p.shift.bufLeft = ((c.size + cur + 1 : Nat) : Int) := by
    rw [hleft, show p.shift.bufSize = c.size from h.bufSize]
    omega
  unfold spyParseNextFile Parsing.BreaksDown
  rw [if_neg (by omega)]
  unfold refill
  rw [if_pos (by simp only [fileMetaSize]; omega)]
  simp only
  rw [if_neg (by omega), hfree, hleft]
  by_cases hover : 2147483647 ≤ c.size + cur
  · rw [if_pos (by unfold i32; omega)]
    exact .inl ⟨rfl, .inl (.inl hover)⟩
  rw [if_neg (not_not.mpr (i32_of_range (by omega) (by omega)).symm)]
  have hfl2 : i32 (p.shift.chunkOffset - p.shift.fpos) < 2147483648 := by unfold i32; omega
  generalize i32 (p.shift.chunkOffset - p.shift.fpos) = fleft at hfl hfl2 ⊢
  rcases (c.reads p.nreads).cases_on with ⟨n, hr⟩ | hr | hr
  · -- the bytes are stored before the buffer
    have hsize : 0 < u64 (if fleft < ((c.size + cur + 1 : Nat) : Int) then fleft
        else ((c.size + cur + 1 : Nat) : Int)) := by
      unfold u64
      split <;> omega
    rw [readInto_bytes (p := p.shift) hr]
    simp only
    rw [if_neg (by omega), if_pos (by omega)]
    exact .inl ⟨rfl, .inl (.inr ⟨n, hr⟩)⟩
  · rw [readInto_eof (p := p.shift) hr]
    refine .inr (.inl ⟨_, rfl, rfl, ?_⟩)
    grind
  · rw [readInto_fails (p := p.shift) hr]
    simp only
    rw [if_neg (by omega), if_neg (by omega)]
    refine .inr (.inr ⟨?_, ?_⟩)
    · simp only [parseRecord]
      rw [if_neg]
      simp only [hleft, fileMetaSize]
      unfold i32
      omega
    · grind [ReadResult.Fails]

end Calls
end Speedy.Chunkserver
