import Speedy.Chunkserver.LedgerInv

/-! # Every small step keeps the invariant of the ledger

One lemma per kind of step, and `LedgerStep.inv` for all of them. Two further
invariants need conditions on the run: the superblocks agree with the chunks
when no `pwrite()` of one fails, and the fid of a WRITE in flight is not in the
index when no two of them share it. -/
namespace Speedy.Chunkserver
open Speedy.Lib

/-! ## Steps of a write -/

section Write
variable {v : Ledger} {recs : UInt64 → List Record} {lost : UInt64 → Prop}

/-- The other jobs own other chunks than the first. -/
theorem LedgerInv.rest_owner (h : LedgerInv v recs lost) {x : Work × Stage} {id : UInt64}
    {rest : List (Work × Stage)} (hw : v.works = x :: rest) (hx : owner x = some id) :
    ∀ y ∈ rest, owner y ≠ some id := by
  have hnd := h.owners_nodup
  rw [hw, List.filterMap_cons_some hx, List.nodup_cons] at hnd
  intro y hy he
  exact hnd.1 (List.mem_filterMap.mpr ⟨y, hy, he⟩)

/-- The write that owns chunk `id` changes its file, its counters and perhaps its
records. -/
theorem LedgerInv.onChunk (h : LedgerInv v recs lost) {x x' : Work × Stage}
    {rest : List (Work × Stage)} {id : UInt64} {conn : Connection} {disk : ByteStore}
    {chunk : Chunk} {rs : List Record} (works : v.works = x :: rest)
    (own : owner x = some id) (own' : owner x' = some id) (same : x'.1.conn = x.1.conn)
    (waits : Waits conn) (hid : chunk.chunkId = id) (laid : Laid disk chunk rs)
    (grow : recs id <+: rs) (com : ¬ Committed id x' → rs = recs id ∧ ¬ Committed id x)
    (ok : WorkOk { v.setConn x.1.conn conn with
        disk := Function.update v.disk id disk
        chunk := Function.update v.chunk id chunk
        works := x' :: rest } (Function.update recs id rs) conn x') :
    LedgerInv { v.setConn x.1.conn conn with
        disk := Function.update v.disk id disk
        chunk := Function.update v.chunk id chunk
        works := x' :: rest } (Function.update recs id rs) lost := by
  have hpre : ∀ i, recs i <+: Function.update recs id rs i := by
    intro i
    by_cases hi : i = id
    · subst hi; rw [Function.update_self]; exact grow
    · exact (Function.update_of_ne hi rs recs).symm ▸ List.prefix_rfl
  have hwait : (x' :: rest).map (fun y => y.1.conn) = v.waiting := by
    unfold Ledger.waiting; rw [works, List.map_cons, List.map_cons, same]
  have hin : x.1.conn ∈ v.waiting := by
    rw [← hwait, List.map_cons, same]; exact List.mem_cons_self ..
  have hown : (x' :: rest).filterMap owner = v.works.filterMap owner := by
    rw [works, List.filterMap_cons, List.filterMap_cons, own, own']
  have hoid : id ∈ v.works.filterMap owner :=
    List.mem_filterMap.mpr ⟨x, by rw [works]; exact List.mem_cons_self .., own⟩
  refine ⟨?_, ?_, ?_, ?_, h.chunks_nodup, h.chunks_mem, ?_, ?_, ?_, h.fids, h.reads⟩
  · show ConnInv v.nextConn _ ((x' :: rest).map fun y => y.1.conn)
    rw [hwait]
    exact h.conns.update hin waits
  · intro y hy conn' hconn
    rcases List.mem_cons.mp hy with rfl | hy
    · have hconn' : (if y.1.conn = x.1.conn then some conn else v.conns y.1.conn) = some conn' :=
        hconn
      rw [if_pos same] at hconn'
      obtain rfl := Option.some.inj hconn'
      exact ok
    · have hconn' : (if y.1.conn = x.1.conn then some conn else v.conns y.1.conn) = some conn' :=
        hconn
      rw [if_neg (h.rest_ne works y hy)] at hconn'
      have hy' : y ∈ v.works := by rw [works]; exact List.mem_cons_of_mem _ hy
      refine (h.works y hy' conn' hconn').keep (fun i hi => ?_) hpre rfl fun w hw => hw
      have hne : i ≠ id := fun he => h.rest_owner works own y hy (he ▸ hi)
      exact ⟨Function.update_of_ne hne _ _, Function.update_of_ne hne _ _,
        Function.update_of_ne hne _ _, rfl⟩
  · show ((x' :: rest).filterMap owner).Nodup
    rw [hown]; exact h.owners_nodup
  · intro i hi
    have hi' : i ∈ (x' :: rest).filterMap owner := hi
    rw [hown] at hi'
    exact h.owners i hi'
  · intro i hi
    by_cases he : i = id
    · subst he
      show (Function.update v.chunk i chunk i).chunkId = i ∧
        Laid (Function.update v.disk i disk i) (Function.update v.chunk i chunk i)
          (Function.update recs i rs i)
      rw [Function.update_self, Function.update_self, Function.update_self]
      exact ⟨hid, laid⟩
    · show (Function.update v.chunk id chunk i).chunkId = i ∧
        Laid (Function.update v.disk id disk i) (Function.update v.chunk id chunk i)
          (Function.update recs id rs i)
      rw [Function.update_of_ne he, Function.update_of_ne he, Function.update_of_ne he]
      exact h.laid i hi
  · intro i hi hl hno
    by_cases he : i = id
    · subst he
      obtain ⟨hrs, hnc⟩ := com (hno x' (List.mem_cons_self ..))
      rw [Function.update_self, hrs]
      refine h.exact_ i hi hl fun y hy => ?_
      rw [works] at hy
      rcases List.mem_cons.mp hy with rfl | hy
      · exact hnc
      · exact hno y (List.mem_cons_of_mem _ hy)
    · rw [Function.update_of_ne he]
      refine h.exact_ i hi hl fun y hy hcy => ?_
      rw [works] at hy
      rcases List.mem_cons.mp hy with rfl | hy
      · rw [hcy.owner] at own
        exact he (Option.some.inj own)
      · exact hno y (List.mem_cons_of_mem _ hy) hcy
  · refine h.index.imp fun w e hwe => ?_
    obtain ⟨hm, rec, hi, hw⟩ := hwe
    exact ⟨hm, rec, hi.mono hpre, hw⟩

theorem WritingOk.of_state {job : IoJob} {conn : Connection} {pc : WritePc} (request : RwBuffer)
    (d0 : ByteStore) (hp : Placed v job) (hl : Loaded job request)
    (hw : WriteState (fun _ => True) job.file job.offset request (v.chunk job.chunk) d0
      ⟨pc, v.disk job.chunk, v.chunk job.chunk, conn.request⟩) (hne : pc ≠ .finished 0) :
    WritingOk v recs job conn pc := by
  cases pc with
  | finished retcode => exact fun hz => absurd (by rw [hz]) hne
  | header => exact ⟨hp, request, d0, hl, hw⟩
  | body offset left => exact ⟨hp, request, d0, hl, hw⟩
  | commit => exact ⟨hp, request, d0, hl, hw⟩

theorem Loaded.unread {job : IoJob} {request : RwBuffer} (h : Loaded job request) :
    job.file.size ≤ request.unread.length ∧ request.readPos ≤ request.writePos := by
  have h1 := h.readPos
  have h2 := h.data
  unfold RwBuffer.unread RwBuffer.writePos
  rw [List.length_drop]
  omega

theorem Loaded.payload {job : IoJob} {request : RwBuffer} {conn : Connection}
    (h : Loaded job request) (hd : conn.request.data = request.data) :
    request.unread.take job.file.size = conn.payload job.file.size := by
  unfold Connection.payload RwBuffer.unread
  rw [h.readPos, hd]
  rfl

/-- The write that owns its chunk and is not through yet: the index has the
chunk's records. -/
theorem LedgerInv.exact_owned (h : LedgerInv v recs lost) {x : Work × Stage} {id : UInt64}
    {rest : List (Work × Stage)} (works : v.works = x :: rest) (own : owner x = some id)
    (hx : ¬ Committed id x) : entriesOf v.fileIndex id = entriesAt id 55 (recs id) := by
  have hin : id ∈ v.works.filterMap owner :=
    List.mem_filterMap.mpr ⟨x, by rw [works]; exact List.mem_cons_self .., own⟩
  obtain ⟨hm, _, hl⟩ := h.owners id hin
  refine h.exact_ id hm hl fun y hy hcy => ?_
  rw [works] at hy
  rcases List.mem_cons.mp hy with rfl | hy
  · exact hx hcy
  · exact h.rest_owner works own y hy hcy.owner

/-- What is known of a write that a worker is busy with. -/
theorem LedgerInv.writing (h : LedgerInv v recs lost) {job : IoJob} {pc : WritePc}
    {rest : List (Work × Stage)} {conn : Connection}
    (works : v.works = (.io job, .running (.write pc)) :: rest)
    (live : v.conns job.conn = some conn) :
    Waits conn ∧ job.fn = .write ∧ WritingOk v recs job conn pc ∧ job.chunk ∈ v.chunkIndex := by
  have hx : (Work.io job, Stage.running (.write pc)) ∈ v.works := by
    rw [works]; exact List.mem_cons_self ..
  have hwaits : Waits conn :=
    (h.conns.ok job.conn conn live).waits (List.mem_map.mpr ⟨_, hx, rfl⟩)
  obtain ⟨fn, state⟩ : job.fn = .write ∧ WritingOk v recs job conn pc := by
    cases h.works _ hx conn live with
    | writing _ _ fn state => exact ⟨fn, state⟩
    | reading _ _ _ _ _ at_ => cases at_
    | plain _ _ _ hs => exact hs.elim
  have hown := h.owners job.chunk (List.mem_filterMap.mpr ⟨_, hx, owner_write fn (by simp)⟩)
  exact ⟨hwaits, fn, state, hown.1⟩

theorem WritingOk.unfinished {job : IoJob} {conn : Connection} {pc : WritePc}
    (h : WritingOk v recs job conn pc) (hfin : ∀ retcode, pc ≠ .finished retcode) :
    Placed v job ∧ ∃ request d0, Loaded job request ∧
      WriteState (fun _ => True) job.file job.offset request (v.chunk job.chunk) d0
        ⟨pc, v.disk job.chunk, v.chunk job.chunk, conn.request⟩ := by
  cases pc with
  | finished retcode => exact absurd rfl (hfin retcode)
  | header => exact h
  | body offset left => exact h
  | commit => exact h

theorem LedgerInv.pwrite (h : LedgerInv v recs lost) {job : IoJob} {pc : WritePc}
    {rest : List (Work × Stage)} {conn : Connection} {io : Pwrite} {now : Nat} {r : WriteRun}
    (works : v.works = (.io job, .running (.write pc)) :: rest)
    (live : v.conns job.conn = some conn)
    (step : spyWriteFileStep job.file job.offset io now
      ⟨pc, v.disk job.chunk, v.chunk job.chunk, conn.request⟩ = some r) :
    ∃ recs', LedgerInv { v.setConn job.conn { conn with request := r.request } with
      disk := Function.update v.disk job.chunk r.disk
      chunk := Function.update v.chunk job.chunk r.chunk
      works := (.io job, .running (.write r.pc)) :: rest } recs' lost := by
  obtain ⟨hwaits, fn, state, hmem⟩ := h.writing works live
  have hwaits' : Waits { conn with request := r.request } :=
    ⟨hwaits.state, hwaits.readable, hwaits.writable⟩
  have own : ∀ pc, owner (Work.io job, Stage.running (.write pc)) = some job.chunk :=
    fun pc => owner_write fn (by simp)
  obtain ⟨hcid, hlaid⟩ := h.laid _ hmem
  by_cases hfin : ∃ retcode, pc = .finished retcode
  · -- nothing is left to do
    obtain ⟨retcode, rfl⟩ := hfin
    obtain rfl := Option.some.inj step
    refine ⟨_, h.onChunk works (own _) (own _) rfl hwaits' hcid hlaid List.prefix_rfl
      (fun hnc => ⟨rfl, hnc⟩) (.writing job _ fn (state.keep ⟨?_, ?_, ?_, rfl⟩))⟩
    · exact Function.update_self ..
    · exact Function.update_self ..
    · exact Function.update_self ..
  obtain ⟨hp, request, d0, hl, hw⟩ := state.unfinished fun retcode he => hfin ⟨retcode, he⟩
  by_cases hcommit : pc = .commit
  · subst hcommit
    have hexact := h.exact_owned works (own _) (by simp [Committed])
    obtain rfl := Option.some.inj step
    obtain ⟨rec, is, stored, small, hreq⟩ := hw.at_commit rfl
    have hlen : rec.payload.length = job.file.size := by
      rw [is.2, List.length_take, Nat.min_eq_left hl.unread.1]
    have hstored : Stored (v.disk job.chunk) (v.chunk job.chunk).currentOffset rec
        job.file.size (v.disk job.chunk) := by
      rw [← hp.offset]; exact ⟨stored.bytes, fun _ _ => rfl⟩
    have hnew : Laid (spyPwrite (v.disk job.chunk)
        (spyFillSuperblock ((v.chunk job.chunk).commit job.file.size)) 0 io).1 _ _ :=
      (hlaid.commit hstored hlen small hp.fits).congr fun i hi _ => spyPwrite_superblock io hi
    refine ⟨_, h.onChunk works (own _) (own _) rfl hwaits' hcid hnew
      (List.prefix_append _ _) (fun hnc => absurd ⟨fn, rfl, .inl rfl⟩ hnc)
      (.writing job _ fn fun _ => ⟨recs job.chunk, rec, Function.update_self .., ?_, is.1, ?_,
        hlen, small, hexact⟩)⟩
    · rw [hp.offset, hlaid.offset]
    · rw [is.2]
      refine hl.payload ?_
      have hreq' : conn.request = request.skip job.file.size := hreq
      show conn.request.data = request.data
      rw [hreq']
      rfl
  · have hw' := hw.step hl.unread.1 hl.unread.2 hl.size_lt (fun _ => trivial) step
    obtain ⟨hch, hne, hbelow⟩ := hw.step_before step hcommit fun retcode he => hfin ⟨retcode, he⟩
    have hch' : r.chunk = v.chunk job.chunk := hch
    have hlaid' : Laid r.disk r.chunk (recs job.chunk) := by
      rw [hch']
      exact hlaid.congr fun i _ hi => hbelow i (by rw [hp.offset]; exact hi)
    refine ⟨_, h.onChunk works (own _) (own _) rfl hwaits' (by rw [hch']; exact hcid) hlaid'
      List.prefix_rfl (fun _ => ⟨rfl, ?_⟩) (.writing job _ fn ?_)⟩
    · rintro ⟨_, _, he | ⟨he, _⟩⟩
      · exact hfin ⟨0, (Progress.write.inj (Stage.running.inj he))⟩
      · cases he
    · refine .of_state request d0 ⟨?_, ?_⟩ hl ?_ hne
      · show job.offset = (Function.update v.chunk job.chunk r.chunk job.chunk).currentOffset
        rw [Function.update_self, hch']; exact hp.offset
      · show (Function.update v.chunk job.chunk r.chunk job.chunk).availSpace > _
        rw [Function.update_self, hch']; exact hp.fits
      · show WriteState _ _ _ _ (Function.update v.chunk job.chunk r.chunk job.chunk) _
          ⟨r.pc, Function.update v.disk job.chunk r.disk job.chunk,
            Function.update v.chunk job.chunk r.chunk job.chunk, r.request⟩
        rw [Function.update_self, Function.update_self]
        nth_rewrite 1 [hch']
        exact hw'

end Write

/-! ## Steps of a read -/

section Read
variable {v : Ledger} {recs : UInt64 → List Record} {lost : UInt64 → Prop} {e : IndexEntry}
  {rec : Record}

theorem Indexed.size (h : Indexed recs e rec) : e.size = rec.bytes.length := by
  have heq := h.eq
  rw [heq, Record.bytes_length]
  simp only [Record.entry, fileMetaSize]
  omega

/-- The record of an entry stands in the chunk's file, and is short. -/
theorem LedgerInv.record (h : LedgerInv v recs lost) (hm : e.chunkId ∈ v.chunkIndex)
    (hi : Indexed recs e rec) :
    Holds (v.disk e.chunkId) e.offset rec.bytes ∧ rec.bytes.length < 2147483648 := by
  obtain ⟨_, hl⟩ := h.laid _ hm
  have hb : 55 ≤ e.offset ∧ e.offset + rec.bytes.length ≤ _ := placed_bounds _ hi.mem
  have h1 := hl.offset
  have h2 := hl.total
  unfold extent at h1
  exact ⟨holds_placed hl.layout hi.mem, by omega⟩

/-- The steps of `spy_read_file` on a record that stands in the file. -/
theorem ReadingOk.step {disk : ByteStore} {job : IoJob} {conn : Connection} {pc : ReadPc}
    {io : Pread} {r : ReadRun} (h : ReadingOk rec job conn pc)
    (hsz : job.indexEntry.size = rec.bytes.length)
    (hd : Holds disk job.indexEntry.offset rec.bytes) (hlen : rec.bytes.length < 2147483648)
    (hs : spyReadFileStep job.indexEntry disk io ⟨pc, conn.rspBody, job.file⟩ = some r) :
    ReadingOk rec { job with file := r.file } { conn with rspBody := r.rspBody } r.pc := by
  cases pc with
  | start =>
    simp only [spyReadFileStep] at hs
    split at hs
    · obtain rfl := Option.some.inj hs
      refine ⟨h.2, ?_, ?_, ?_⟩
      · rw [hsz]
      · rw [hsz]; simp
      · rw [hsz]; simpa using h.1
    · cases hs
  | loop left offset =>
    obtain ⟨hrp, hle, hoff, hdata⟩ := h
    simp only [spyReadFileStep] at hs
    split at hs
    · cases hnw : spyRwBufferNextWriteable conn.rspBody with
      | none => rw [hnw] at hs; cases hs
      | some len =>
        rw [hnw] at hs
        cases io with
        | failed =>
          obtain rfl := Option.some.inj hs
          exact nofun
        | full =>
          obtain rfl := Option.some.inj hs
          have hk : min left len ≤ left := Nat.min_le_left _ _
          refine ⟨hrp, Nat.le_trans (Nat.sub_le _ _) hle, ?_, ?_⟩
          · simp only [hoff]; omega
          · simp only [RwBuffer.put_data, hdata, hoff]
            rw [hd.slice_sub (by omega), ← List.take_add]
            congr 1
            omega
    · -- the whole record is in the buffer
      have hz : left = 0 := by omega
      subst hz
      rw [Nat.sub_zero, List.take_length] at hdata
      have hun : conn.rspBody.unread = rec.bytes := by
        unfold RwBuffer.unread; rw [hrp, hdata]; rfl
      have hmeta : rec.bytes.take 30 = fillFileMeta rec.file := by
        unfold Record.bytes; exact List.take_left' (by simp)
      have hml : (rec.bytes.take 30).length = 30 := by rw [hmeta]; simp
      simp only [spyReadFileCheck, spyRwBufferReadN, hun, fileMetaSize, hml, if_true] at hs
      split at hs
      · cases hs
      · obtain rfl := Option.some.inj hs
        intro _
        refine ⟨?_, ?_, ?_⟩
        · have hsize := parseFileMeta_size rec.file
            (by rw [Record.bytes_length] at hlen; simp only [Record.file]; omega) []
          rw [List.append_nil] at hsize
          simp only [hmeta]
          exact hsize
        · simpa using hdata
        · simp [hrp]
  | finished retcode =>
    obtain rfl := Option.some.inj hs
    exact h

theorem LedgerInv.pread (h : LedgerInv v recs lost) {job : IoJob} {pc : ReadPc}
    {rest : List (Work × Stage)} {conn : Connection} {io : Pread} {r : ReadRun}
    (works : v.works = (.io job, .running (.read pc)) :: rest)
    (live : v.conns job.conn = some conn)
    (step : spyReadFileStep job.indexEntry (v.disk job.chunk) io
      ⟨pc, conn.rspBody, job.file⟩ = some r) :
    LedgerInv { v.setConn job.conn { conn with rspBody := r.rspBody } with
      works := (.io { job with file := r.file }, .running (.read r.pc)) :: rest } recs lost := by
  have hx : (Work.io job, Stage.running (.read pc)) ∈ v.works := by
    rw [works]; exact List.mem_cons_self ..
  have hwaits : Waits conn :=
    (h.conns.ok job.conn conn live).waits (List.mem_map.mpr ⟨_, hx, rfl⟩)
  cases h.works _ hx conn live with
  | plain _ _ _ hs => exact hs.elim
  | reading _ _ pc' rec fn at_ chunk mem indexed said state =>
    obtain rfl := Option.some.inj at_
    obtain ⟨hd, hlen⟩ := h.record (chunk.symm ▸ mem) indexed
    rw [chunk] at hd
    refine h.advance works rfl ⟨hwaits.state, hwaits.readable, hwaits.writable⟩ ?_ ?_
      (.reading _ _ r.pc rec fn rfl chunk mem indexed said
        (state.step indexed.size hd hlen step))
    · rw [owner_none (by simp [fn]), owner_none (by simp [fn])]
    · rintro id ⟨hf, _⟩
      rw [fn] at hf
      cases hf

theorem LedgerInv.readDone (h : LedgerInv v recs lost) {job : IoJob}
    {rest : List (Work × Stage)} {conn conn' : Connection}
    (works : v.works = (.io job, .finished) :: rest) (fn : job.fn = .read)
    (success : job.retcode = 0) (live : v.conns job.conn = some conn) (ok : ConnOk conn' False) :
    LedgerInv { v.setConn job.conn conn' with
      works := rest
      answers := .read job.conn job.indexEntry.fid .success job.file.size
        (conn.rspBody.unread.take job.file.size) :: v.answers } recs lost := by
  have hx : (Work.io job, Stage.finished) ∈ v.works := by
    rw [works]; exact List.mem_cons_self ..
  cases h.works _ hx conn live with
  | written _ fn' => rw [fn] at fn'; cases fn'
  | plain _ _ hw => rw [show job.fn = .check from hw] at fn; cases fn
  | reading _ _ pc rec _ at_ chunk mem indexed said state =>
    obtain rfl := Option.some.inj at_
    obtain ⟨hsize, hdata, hpos⟩ := state success
    have hbody : conn.rspBody.unread.take job.file.size = rec.payload := by
      unfold RwBuffer.unread
      rw [hdata, hpos, Record.bytes, List.drop_left' (by simp), hsize, List.take_length]
    have hfid : job.indexEntry.fid = rec.fid := by rw [indexed.eq]; rfl
    refine h.reply [_] works (owner_none (by simp [fn]))
      (fun c hc => Option.some.inj hc ▸ ok) rfl ?_
    intro r hr
    rcases List.mem_cons.mp hr with rfl | hr
    · refine .inr ⟨?_, ?_⟩
      · simp only [hbody]; exact hsize
      · simp only [hbody, hfid]; exact said
    · exact .inl hr

end Read

/-! ## Worker steps that leave the chunk alone -/

section Stages
variable {v : Ledger} {recs : UInt64 → List Record} {lost : UInt64 → Prop} {work : Work}
  {rest : List (Work × Stage)}

theorem Work.Plain.owner_none (h : work.Plain) (stage : Stage) : owner (work, stage) = none := by
  cases work with
  | io job => exact Speedy.Chunkserver.owner_none (by rw [show job.fn = .check from h]; simp)
  | dump job => rfl

/-- `advance` for a step that does not touch the connection. -/
theorem LedgerInv.stage (h : LedgerInv v recs lost) {x x' : Work × Stage}
    (works : v.works = x :: rest) (same : x'.1.conn = x.1.conn) (own : owner x' = owner x)
    (com : ∀ id, Committed id x → Committed id x')
    (ok : ∀ conn, v.conns x.1.conn = some conn → WorkOk v recs conn x →
      WorkOk { v with works := x' :: rest } recs conn x') :
    LedgerInv { v with works := x' :: rest } recs lost := by
  have hx : x ∈ v.works := by rw [works]; exact List.mem_cons_self ..
  obtain ⟨conn, hconn⟩ := h.conns.live x.1.conn (List.mem_map.mpr ⟨_, hx, rfl⟩)
  have hwaits : Waits conn := (h.conns.ok _ conn hconn).waits (List.mem_map.mpr ⟨_, hx, rfl⟩)
  have hsame : v.setConn x.1.conn conn = v := by
    unfold Ledger.setConn
    have : (fun i => if i = x.1.conn then some conn else v.conns i) = v.conns := by
      funext i
      split
      · rename_i hi; rw [hi, hconn]
      · rfl
    rw [this]
  have hadv := h.advance works same hwaits own com
  rw [hsame] at hadv
  exact hadv (ok conn hconn (h.works x hx conn hconn))

theorem LedgerInv.start (h : LedgerInv v recs lost) (works : v.works = (work, .queued) :: rest) :
    LedgerInv { v with works := (work, .running work.begin) :: rest } recs lost := by
  refine h.stage works rfl ?_ ?_ fun conn _ hok => ?_
  · cases work <;> simp [owner]
  · intro id hc
    cases work with
    | io job => simp [Committed] at hc
    | dump job => exact hc
  · cases hok with
    | placed job fn place loaded =>
      rw [show Work.begin (.io job) = .write .header by simp [Work.begin, fn]]
      exact .writing job _ fn ⟨⟨place.offset, place.fits⟩, conn.request, v.disk job.chunk, loaded,
        .header⟩
    | reading job _ pc rec fn at_ chunk mem indexed said state =>
      obtain rfl := Option.some.inj at_
      rw [show Work.begin (.io job) = .read .start by simp [Work.begin, fn]]
      exact .reading job _ .start rec fn rfl chunk mem indexed said state
    | plain _ _ hw hs =>
      have hb : work.begin = .single none := by
        cases work with
        | io job => simp [Work.begin, show job.fn = .check from hw]
        | dump job => rfl
      rw [hb]
      exact .plain _ _ hw trivial

theorem LedgerInv.single (h : LedgerInv v recs lost) (retcode : Int)
    (works : v.works = (work, .running (.single none)) :: rest) :
    LedgerInv { v with works := (work, .running (.single (some retcode))) :: rest } recs lost := by
  refine h.stage works rfl ?_ ?_ fun conn _ hok => ?_
  · cases work <;> simp [owner]
  · intro id hc
    cases work with
    | io job => simp [Committed] at hc
    | dump job => exact hc
  · cases hok with
    | reading job _ pc rec fn at_ => cases at_
    | plain _ _ hw hs => exact .plain _ _ hw trivial

theorem LedgerInv.finish (h : LedgerInv v recs lost) {progress : Progress} {retcode : Int}
    (works : v.works = (work, .running progress) :: rest)
    (done : progress.retcode = some retcode) :
    LedgerInv { v with works := (work.setRetcode retcode, .finished) :: rest } recs lost := by
  refine h.stage works (by cases work <;> rfl) ?_ ?_ fun conn _ hok => ?_
  · cases work <;> simp [owner, Work.setRetcode]
  · intro id hc
    cases work with
    | dump job => exact hc
    | io job =>
      obtain ⟨fn, chunk, hs | ⟨hs, _⟩⟩ := hc
      · obtain rfl := Stage.running.inj hs
        exact ⟨fn, chunk, .inr ⟨rfl, (Option.some.inj done).symm⟩⟩
      · cases hs
  · cases hok with
    | writing job pc fn state =>
      cases pc with
      | finished rc =>
        obtain rfl := Option.some.inj done
        exact .written _ fn state
      | _ => cases done
    | reading job _ pc rec fn at_ chunk mem indexed said state =>
      cases progress with
      | read pc' =>
        obtain rfl := Option.some.inj at_
        cases pc' with
        | finished rc =>
          obtain rfl := Option.some.inj done
          exact .reading _ _ (.finished rc) rec fn rfl chunk mem indexed said state
        | _ => cases done
      | _ => cases at_
    | plain _ _ hw hs =>
      refine .plain _ _ ?_ trivial
      cases work <;> exact hw

/-- Behind every index entry stands an acknowledged WRITE. -/
theorem LedgerInv.acknowledged (h : LedgerInv v recs lost) {e : IndexEntry}
    (he : e ∈ v.fileIndex) : ∃ w ∈ successWrites v.answers, Acknowledged v recs w e := by
  obtain ⟨i, hi, rfl⟩ := List.mem_iff_getElem.mp he
  have hl := h.index.length_eq
  exact ⟨_, List.getElem_mem (hl ▸ hi), h.index.get (hl ▸ hi) hi⟩

end Stages

/-! ## Chunks change hands -/

section Chunks
variable {v : Ledger} {recs : UInt64 → List Record} {lost : UInt64 → Prop} {id : UInt64}

theorem LedgerInv.abandon (h : LedgerInv v recs lost) :
    LedgerInv { v with chunks := v.chunks.erase id } recs lost := by
  refine ⟨h.conns, ?_, h.owners_nodup, ?_, h.chunks_nodup.erase id, ?_, h.laid, h.exact_, h.index,
    h.fids, h.reads⟩
  · intro x hx conn hc
    exact (h.works x hx conn hc).keep (fun _ _ => ⟨rfl, rfl, rfl, rfl⟩) (fun _ => List.prefix_rfl)
      rfl fun w hw => hw
  · intro i hi
    obtain ⟨h1, h2, h3⟩ := h.owners i hi
    exact ⟨h1, fun hin => h2 (List.mem_of_mem_erase hin), h3⟩
  · intro i hi
    exact h.chunks_mem i (List.mem_of_mem_erase hi)

/-- A pending write takes a free chunk that has room for it. -/
theorem LedgerInv.assign (h : LedgerInv v recs lost) {job : IoJob} {rest : List (Work × Stage)}
    (works : v.works = (.io job, .pending) :: rest) (free : id ∈ v.chunks)
    (fits : (v.chunk id).availSpace > u32 (job.file.size + fileMetaSize)) :
    LedgerInv { v with
      chunks := v.chunks.erase id
      works := (.io { job with chunk := id, offset := (v.chunk id).currentOffset }, .queued) ::
        rest } recs lost := by
  have hx : (Work.io job, Stage.pending) ∈ v.works := by rw [works]; exact List.mem_cons_self ..
  obtain ⟨conn, hconn⟩ := h.conns.live job.conn (List.mem_map.mpr ⟨_, hx, rfl⟩)
  obtain ⟨fn, loaded⟩ : job.fn = .write ∧ Loaded job conn.request := by
    cases h.works _ hx conn hconn with
    | parked _ fn loaded => exact ⟨fn, loaded⟩
    | reading _ _ _ _ _ at_ => cases at_
    | plain _ _ _ hs => exact hs.elim
  have hown : owner (Work.io { job with chunk := id, offset := (v.chunk id).currentOffset },
      Stage.queued) = some id := owner_write fn (by simp)
  have hnone : owner (Work.io job, Stage.pending) = none := by
    simp only [owner]
    rw [if_neg (by simp)]
  have howners : v.works.filterMap owner = rest.filterMap owner := by
    rw [works, List.filterMap_cons_none hnone]
  have hnot : id ∉ rest.filterMap owner := by
    intro hin
    exact (h.owners id (howners ▸ hin)).2.1 free
  have hwait : v.waiting = job.conn :: rest.map fun y => y.1.conn := by
    unfold Ledger.waiting; rw [works]; rfl
  refine ⟨?_, ?_, ?_, ?_, h.chunks_nodup.erase id, ?_, h.laid, ?_, h.index, h.fids, h.reads⟩
  · have hc := h.conns
    rw [hwait] at hc
    exact hc
  · intro y hy conn' hc
    rcases List.mem_cons.mp hy with rfl | hy
    · obtain rfl : conn = conn' := Option.some.inj (hconn.symm.trans hc)
      exact .placed _ fn ⟨rfl, fits⟩ ⟨loaded.readPos, loaded.data, loaded.size_lt⟩
    · have hy' : y ∈ v.works := by rw [works]; exact List.mem_cons_of_mem _ hy
      exact (h.works y hy' conn' hc).keep (fun _ _ => ⟨rfl, rfl, rfl, rfl⟩)
        (fun _ => List.prefix_rfl) rfl fun w hw => hw
  · show (List.filterMap owner (_ :: rest)).Nodup
    rw [List.filterMap_cons_some hown]
    exact List.nodup_cons.mpr ⟨hnot, howners ▸ h.owners_nodup⟩
  · intro i hi
    have hi' : i ∈ List.filterMap owner (_ :: rest) := hi
    rw [List.filterMap_cons_some hown] at hi'
    rcases List.mem_cons.mp hi' with rfl | hi'
    · obtain ⟨h1, h2⟩ := h.chunks_mem i free
      exact ⟨h1, h.chunks_nodup.not_mem_erase, h2⟩
    · obtain ⟨h1, h2, h3⟩ := h.owners i (howners ▸ hi')
      exact ⟨h1, fun hin => h2 (List.mem_of_mem_erase hin), h3⟩
  · intro i hi
    exact h.chunks_mem i (List.mem_of_mem_erase hi)
  · intro i hi hl hno
    refine h.exact_ i hi hl fun y hy hcy => ?_
    rw [works] at hy
    rcases List.mem_cons.mp hy with rfl | hy
    · rw [hcy.owner] at hnone; cases hnone
    · exact hno y (List.mem_cons_of_mem _ hy) hcy

/-- The write that owned chunk `id` is answered. The chunk goes back to the list,
with the index up to date, or it is given up. -/
theorem LedgerInv.release (h : LedgerInv v recs lost) {x : Work × Stage}
    {rest : List (Work × Stage)} {conn : Connection} {index : List IndexEntry}
    {answers : List Answer} (back : Bool) (works : v.works = x :: rest)
    (own : owner x = some id) (ok : ConnOk conn False)
    (others : ∀ i, i ≠ id → entriesOf index i = entriesOf v.fileIndex i)
    (exact_ : back = true → entriesOf index id = entriesAt id 55 (recs id))
    (acks : List.Forall₂ (Acknowledged v recs) (successWrites answers) index)
    (fids : (index.map IndexEntry.fid).Nodup)
    (grow : ∀ w ∈ successWrites v.answers, w ∈ successWrites answers)
    (reads : successReads answers = successReads v.answers) :
    LedgerInv { v.setConn x.1.conn conn with
      works := rest
      chunks := if back then v.chunks ++ [id] else v.chunks
      fileIndex := index
      answers := answers } recs fun i => lost i ∨ i = id ∧ back = false := by
  have hin : id ∈ v.works.filterMap owner :=
    List.mem_filterMap.mpr ⟨x, by rw [works]; exact List.mem_cons_self .., own⟩
  obtain ⟨hmem, hnot, hnl⟩ := h.owners id hin
  have hrest : ∀ i ∈ rest.filterMap owner, i ≠ id := by
    intro i hi he
    obtain ⟨y, hy, hyo⟩ := List.mem_filterMap.mp hi
    exact h.rest_owner works own y hy (he ▸ hyo)
  have hci := h.conns
  unfold Ledger.waiting at hci
  rw [works, List.map_cons] at hci
  have hchunks : ∀ i, i ∈ (if back then v.chunks ++ [id] else v.chunks) →
      i ∈ v.chunks ∨ i = id ∧ back = true := by
    intro i hi
    cases back with
    | true => simpa using hi
    | false => exact .inl hi
  refine ⟨?_, ?_, ?_, ?_, ?_, ?_, h.laid, ?_, acks, fids, ?_⟩
  · refine hci.release fun c hc => ?_
    obtain rfl := Option.some.inj hc
    exact ok
  · intro y hy conn' hc
    have hc' : (if y.1.conn = x.1.conn then some conn else v.conns y.1.conn) = some conn' := hc
    rw [if_neg (h.rest_ne works y hy)] at hc'
    have hy' : y ∈ v.works := by rw [works]; exact List.mem_cons_of_mem _ hy
    refine (h.works y hy' conn' hc').keep (fun i hi => ⟨rfl, rfl, rfl, others i ?_⟩)
      (fun _ => List.prefix_rfl) rfl grow
    exact fun he => h.rest_owner works own y hy (he ▸ hi)
  · have hnd := h.owners_nodup
    rw [works, List.filterMap_cons_some own, List.nodup_cons] at hnd
    exact hnd.2
  · intro i hi
    have hne := hrest i hi
    have hi' : i ∈ v.works.filterMap owner := by
      rw [works, List.filterMap_cons_some own]; exact List.mem_cons_of_mem _ hi
    obtain ⟨h1, h2, h3⟩ := h.owners i hi'
    refine ⟨h1, fun hc => ?_, fun hl => ?_⟩
    · exact (hchunks i hc).elim h2 fun hx => hne hx.1
    · exact hl.elim h3 fun hx => hne hx.1
  · cases back with
    | false => exact h.chunks_nodup
    | true =>
      show (v.chunks ++ [id]).Nodup
      rw [List.nodup_append]
      refine ⟨h.chunks_nodup, by simp, ?_⟩
      rintro a ha b hb rfl
      rw [List.mem_singleton] at hb
      exact hnot (hb ▸ ha)
  · intro i hi
    rcases hchunks i hi with hc | ⟨rfl, hb⟩
    · obtain ⟨h1, h2⟩ := h.chunks_mem i hc
      refine ⟨h1, fun hl => hl.elim h2 fun hx => ?_⟩
      exact hnot (hx.1 ▸ hc)
    · refine ⟨hmem, fun hl => hl.elim hnl fun hx => ?_⟩
      rw [hb] at hx
      exact Bool.noConfusion hx.2
  · intro i hi hl hno
    by_cases hid : i = id
    · subst hid
      cases hb : back with
      | true => exact exact_ hb
      | false => exact absurd (.inr ⟨rfl, hb⟩) hl
    · rw [others i hid]
      refine h.exact_ i hi (fun hl' => hl (.inl hl')) fun y hy hcy => ?_
      rw [works] at hy
      rcases List.mem_cons.mp hy with rfl | hy
      · rw [hcy.owner] at own
        exact hid (Option.some.inj own)
      · exact hno y hy hcy
  · intro r hr
    have hr' : r ∈ successReads v.answers := reads ▸ hr
    exact ⟨(h.reads r hr').1, grow _ (h.reads r hr').2⟩

theorem entriesOf_cons_ne {e : IndexEntry} (index : List IndexEntry) (h : e.chunkId ≠ id) :
    entriesOf (e :: index) id = entriesOf index id := by
  unfold entriesOf
  rw [List.filter_cons_of_neg (by simpa using h)]

theorem entriesOf_cons_eq {e : IndexEntry} (index : List IndexEntry) (h : e.chunkId = id) :
    entriesOf (e :: index) id = entriesOf index id ++ [e] := by
  unfold entriesOf
  rw [List.filter_cons_of_pos (by simpa using h), List.reverse_cons]

theorem LedgerInv.writeDone (h : LedgerInv v recs lost) {job : IoJob} {rest : List (Work × Stage)}
    {conn conn' : Connection} (works : v.works = (.io job, .finished) :: rest)
    (fn : job.fn = .write) (success : job.retcode = 0) (fresh : Fresh v.fileIndex job.file.fid)
    (live : v.conns job.conn = some conn) (ok : ConnOk conn' False) :
    LedgerInv { v.setConn job.conn conn' with
      works := rest
      chunks := v.chunks ++ [job.chunk]
      fileIndex := ⟨(v.chunk job.chunk).chunkId, job.file.fid, job.offset,
        u32 (job.file.size + fileMetaSize)⟩ :: v.fileIndex
      answers := .write job.conn job.file.fid .success (conn.payload job.file.size) ::
        v.answers } recs fun i => lost i ∨ i = job.chunk ∧ true = false := by
  have hx : (Work.io job, Stage.finished) ∈ v.works := by
    rw [works]; exact List.mem_cons_self ..
  have own : owner (Work.io job, Stage.finished) = some job.chunk := owner_write fn (by simp)
  obtain ⟨hmem, _, _⟩ := h.owners job.chunk (List.mem_filterMap.mpr ⟨_, hx, own⟩)
  obtain ⟨hcid, _⟩ := h.laid _ hmem
  obtain ⟨rs, rec, hrecs, hoff, hfid, hpay, hlen, hsmall, hexact⟩ : Appended v recs job conn := by
    cases h.works _ hx conn live with
    | written _ _ state => exact state success
    | reading _ _ _ _ fn' => rw [fn] at fn'; cases fn'
    | plain _ _ hw => rw [show job.fn = .check from hw] at fn; cases fn
  have hsize : u32 (job.file.size + fileMetaSize) = rec.payload.length + fileMetaSize := by
    rw [hlen]
    unfold u32
    simp only [fileMetaSize]
    omega
  have hentry : (⟨(v.chunk job.chunk).chunkId, job.file.fid, job.offset,
      u32 (job.file.size + fileMetaSize)⟩ : IndexEntry) = rec.entry job.chunk job.offset := by
    rw [hcid, hsize, ← hfid]; rfl
  rw [hentry]
  refine h.release true works own ok (fun i hi => entriesOf_cons_ne _ hi.symm) ?_ ?_ ?_ ?_ rfl
  · intro _
    rw [entriesOf_cons_eq _ (show IndexEntry.chunkId _ = job.chunk from rfl), hexact, hrecs,
      entriesAt_append, hoff]
    rfl
  · refine .cons ⟨hmem, rec, ⟨?_, rfl⟩, ?_⟩ h.index
    · show (job.offset, rec) ∈ placed _ 55 (recs job.chunk)
      rw [hrecs, placed_append, hoff]
      exact List.mem_append_right _ (List.mem_cons_self ..)
    · rw [hfid, hpay]
  · refine List.nodup_cons.mpr ⟨fun hin => ?_, h.fids⟩
    obtain ⟨e, he, hef⟩ := List.mem_map.mp hin
    exact fresh e he (hef.trans hfid)
  · exact fun w hw => List.mem_cons_of_mem _ hw

theorem LedgerInv.writeFailed (h : LedgerInv v recs lost) {job : IoJob}
    {rest : List (Work × Stage)} {conn' : Connection} {a : Answer}
    (works : v.works = (.io job, .finished) :: rest) (fn : job.fn = .write)
    (failed : job.retcode ≠ 0) (ok : ConnOk conn' False) (quiet : a.Quiet) :
    LedgerInv { v.setConn job.conn conn' with
      works := rest
      chunks := v.chunks ++ [job.chunk]
      answers := a :: v.answers } recs fun i => lost i ∨ i = job.chunk ∧ true = false := by
  have own : owner (Work.io job, Stage.finished) = some job.chunk := owner_write fn (by simp)
  have hexact := h.exact_owned works own (by simp [Committed, failed])
  refine h.release true works own ok (fun _ _ => rfl) (fun _ => hexact) ?_ h.fids ?_
    (successReads_quiet quiet _)
  · rw [successWrites_quiet quiet]; exact h.index
  · rw [successWrites_quiet quiet]; exact fun w hw => hw

theorem LedgerInv.writeLost (h : LedgerInv v recs lost) {job : IoJob}
    {rest : List (Work × Stage)} {conn' : Connection} {a : Answer}
    (works : v.works = (.io job, .finished) :: rest) (fn : job.fn = .write)
    (ok : ConnOk conn' False) (quiet : a.Quiet) :
    LedgerInv { v.setConn job.conn conn' with
      works := rest
      answers := a :: v.answers } recs fun i => lost i ∨ i = job.chunk ∧ false = false := by
  have own : owner (Work.io job, Stage.finished) = some job.chunk := owner_write fn (by simp)
  refine h.release false works own ok (fun _ _ => rfl) nofun ?_ h.fids ?_
    (successReads_quiet quiet _)
  · rw [successWrites_quiet quiet]; exact h.index
  · rw [successWrites_quiet quiet]; exact fun w hw => hw

/-- Every small step keeps the invariant, and only a second write of a fid gives a
chunk up. -/
theorem LedgerStep.inv {sb : Pwrite → Prop} {dup ack : Prop} {v' : Ledger}
    (hs : LedgerStep sb dup ack v v') (h : LedgerInv v recs lost) :
    ∃ recs' lost', LedgerInv v' recs' lost' ∧ (¬ dup → ∀ id, lost' id → lost id) := by
  cases hs with
  | shuffle perm => exact ⟨recs, lost, h.shuffle perm, fun _ _ => id⟩
  | accept => exact ⟨recs, lost, h.accept, fun _ _ => id⟩
  | idle as live idle ok quiet => exact ⟨recs, lost, h.idle live idle ok quiet, fun _ _ => id⟩
  | drop live idle => exact ⟨recs, lost, h.drop live idle, fun _ _ => id⟩
  | park submit fn loaded =>
    exact ⟨recs, lost, h.submit (x := (.io _, .pending)) submit (by simp [owner])
      (.parked _ fn loaded), fun _ _ => id⟩
  | assign works free fits => exact ⟨recs, lost, h.assign works free fits, fun _ _ => id⟩
  | abandon => exact ⟨recs, lost, h.abandon, fun _ _ => id⟩
  | submitRead submit fn entry chunk empty =>
    obtain ⟨w, hw, hm, rec, hi, hwr⟩ := h.acknowledged entry
    refine ⟨recs, lost, h.submit (x := (.io _, .queued)) submit (owner_none (by simp [fn]))
      (.reading _ _ .start rec fn rfl chunk (chunk ▸ hm) hi ?_ empty), fun _ _ => id⟩
    rw [← hwr]; exact hw
  | submitPlain submit plain =>
    exact ⟨recs, lost, h.submit (x := (_, .queued)) submit (plain.owner_none _)
      (.plain _ _ plain trivial), fun _ _ => id⟩
  | start works => exact ⟨recs, lost, h.start works, fun _ _ => id⟩
  | pwrite works live step =>
    obtain ⟨recs', h'⟩ := h.pwrite works live step
    exact ⟨recs', lost, h', fun _ _ => id⟩
  | pread works live step => exact ⟨recs, lost, h.pread works live step, fun _ _ => id⟩
  | single retcode works => exact ⟨recs, lost, h.single retcode works, fun _ _ => id⟩
  | finish works done => exact ⟨recs, lost, h.finish works done, fun _ _ => id⟩
  | reply works free ok quiet =>
    refine ⟨recs, lost, h.reply [_] works free (fun c hc => Option.some.inj hc ▸ ok)
      (successWrites_quiet quiet _) fun r hr => .inl ?_, fun _ _ => id⟩
    rw [← successReads_quiet quiet]; exact hr
  | dumped works ok =>
    exact ⟨recs, lost, h.reply [] works rfl ok rfl fun r hr => .inl hr, fun _ _ => id⟩
  | readDone works fn success live ok =>
    exact ⟨recs, lost, h.readDone works fn success live ok, fun _ _ => id⟩
  | writeDone works fn success fresh _ live ok =>
    exact ⟨recs, _, h.writeDone works fn success fresh live ok, fun _ i hi => hi.elim id
      fun hx => Bool.noConfusion hx.2⟩
  | writeFailed works fn failed ok quiet =>
    exact ⟨recs, _, h.writeFailed works fn failed ok quiet, fun _ i hi => hi.elim id
      fun hx => Bool.noConfusion hx.2⟩
  | writeLost works fn _ allowed ok quiet =>
    exact ⟨recs, _, h.writeLost works fn ok quiet, fun hd => absurd allowed hd⟩

end Chunks

/-! ## Superblocks and duplicate writes -/

section Conditions
variable {v v' : Ledger} {recs : UInt64 → List Record} {lost : UInt64 → Prop} {dup ack : Prop}

/-- The superblock in every chunk file says what the chunk in memory says. -/
def SuperblocksAgree (v : Ledger) : Prop :=
  ∀ id ∈ v.chunkIndex, Holds (v.disk id) 0 (spyFillSuperblock (v.chunk id))

theorem LedgerInv.superblock (h : LedgerInv v recs lost) {job : IoJob} {pc : WritePc}
    {rest : List (Work × Stage)} {conn : Connection} {io : Pwrite} {now : Nat} {r : WriteRun}
    (works : v.works = (.io job, .running (.write pc)) :: rest)
    (live : v.conns job.conn = some conn)
    (step : spyWriteFileStep job.file job.offset io now
      ⟨pc, v.disk job.chunk, v.chunk job.chunk, conn.request⟩ = some r)
    (full : pc = .commit → io = .full)
    (hsb : Holds (v.disk job.chunk) 0 (spyFillSuperblock (v.chunk job.chunk))) :
    Holds r.disk 0 (spyFillSuperblock r.chunk) := by
  obtain ⟨_, _, state, hmem⟩ := h.writing works live
  by_cases hfin : ∃ retcode, pc = .finished retcode
  · obtain ⟨retcode, rfl⟩ := hfin
    obtain rfl := Option.some.inj step
    exact hsb
  by_cases hcommit : pc = .commit
  · subst hcommit
    obtain rfl := full rfl
    obtain rfl := Option.some.inj step
    show Holds (store _ 0 (spyFillSuperblock _)) 0 (spyFillSuperblock _)
    exact Holds.store_self _ _ _
  · have hnf := fun retcode he => hfin ⟨retcode, he⟩
    obtain ⟨hp, request, d0, _, hw⟩ := state.unfinished hnf
    obtain ⟨hch, _, hbelow⟩ := hw.step_before step hcommit hnf
    have hoff := (h.laid _ hmem).2.offset
    rw [show r.chunk = v.chunk job.chunk from hch]
    refine hsb.congr fun i _ hi => hbelow i ?_
    rw [hp.offset, hoff]
    rw [spyFillSuperblock_length] at hi
    simp only [superblockSize, superblockMagicSize] at hi
    omega

theorem LedgerStep.superblocks (hs : LedgerStep (· = .full) dup ack v v')
    (h : LedgerInv v recs lost)
    (hsb : SuperblocksAgree v) : SuperblocksAgree v' := by
  cases hs with
  | pwrite works live step superblock =>
    rename_i job pc rest conn io now r
    intro id hid
    by_cases he : id = job.chunk
    · subst he
      show Holds (Function.update v.disk job.chunk r.disk job.chunk) 0
        (spyFillSuperblock (Function.update v.chunk job.chunk r.chunk job.chunk))
      rw [Function.update_self, Function.update_self]
      exact h.superblock works live step superblock (hsb _ hid)
    · show Holds (Function.update v.disk job.chunk r.disk id) 0
        (spyFillSuperblock (Function.update v.chunk job.chunk r.chunk id))
      rw [Function.update_of_ne he, Function.update_of_ne he]
      exact hsb id hid
  | _ => exact hsb

/-- No WRITE in flight has a fid that is in the index. -/
def WritesFresh (v : Ledger) : Prop :=
  ∀ x ∈ v.works, ∀ fid, writeFid x = some fid → Fresh v.fileIndex fid

theorem WritesFresh.cons {x : Work × Stage} (hf : WritesFresh v)
    (hx : ∀ fid, writeFid x = some fid → Fresh v.fileIndex fid) :
    ∀ y ∈ x :: v.works, ∀ fid, writeFid y = some fid → Fresh v.fileIndex fid := by
  intro y hy
  rcases List.mem_cons.mp hy with rfl | hy
  · exact hx
  · exact hf y hy

theorem WritesFresh.tail {x : Work × Stage} {rest : List (Work × Stage)} (hf : WritesFresh v)
    (works : v.works = x :: rest) :
    ∀ y ∈ rest, ∀ fid, writeFid y = some fid → Fresh v.fileIndex fid := by
  intro y hy
  exact hf y (by rw [works]; exact List.mem_cons_of_mem _ hy)

theorem WritesFresh.head {x x' : Work × Stage} {rest : List (Work × Stage)} (hf : WritesFresh v)
    (works : v.works = x :: rest) (same : writeFid x' = writeFid x) :
    ∀ y ∈ x' :: rest, ∀ fid, writeFid y = some fid → Fresh v.fileIndex fid := by
  intro y hy
  rcases List.mem_cons.mp hy with rfl | hy
  · rw [same]
    exact hf x (by rw [works]; exact List.mem_cons_self ..)
  · exact hf.tail works y hy

theorem writeFid_stage (work : Work) (stage stage' : Stage) :
    writeFid (work, stage) = writeFid (work, stage') := by
  cases work <;> rfl

theorem Work.Plain.writeFid_none {work : Work} (h : work.Plain) (stage : Stage) :
    writeFid (work, stage) = none := by
  cases work with
  | io job => simp [writeFid, show job.fn = .check from h]
  | dump job => rfl

theorem LedgerInv.reading (h : LedgerInv v recs lost) {job : IoJob} {pc : ReadPc}
    {rest : List (Work × Stage)} {conn : Connection}
    (works : v.works = (.io job, .running (.read pc)) :: rest)
    (live : v.conns job.conn = some conn) : job.fn = .read := by
  have hx : (Work.io job, Stage.running (.read pc)) ∈ v.works := by
    rw [works]; exact List.mem_cons_self ..
  cases h.works _ hx conn live with
  | reading _ _ _ _ fn => exact fn
  | plain _ _ _ hs => exact hs.elim

theorem LedgerStep.fresh {sb : Pwrite → Prop} (hs : LedgerStep sb dup ack v v') (hd : ¬ dup)
    (h : LedgerInv v recs lost) (hf : WritesFresh v) : WritesFresh v' := by
  cases hs with
  | accept => exact hf
  | idle => exact hf
  | drop => exact hf
  | abandon => exact hf
  | shuffle perm => exact fun x hx => hf x (perm.mem_iff.mpr hx)
  | park _ fn _ fresh =>
    refine hf.cons fun fid hx => ?_
    rw [writeFid, if_pos fn] at hx
    exact Option.some.inj hx ▸ fresh
  | assign works => exact hf.head works rfl
  | submitRead _ fn => exact hf.cons fun fid hx => by simp [writeFid, fn] at hx
  | submitPlain _ plain => exact hf.cons fun fid hx => by simp [plain.writeFid_none] at hx
  | start works => exact hf.head works (writeFid_stage ..)
  | pwrite works => exact hf.head works rfl
  | pread works live =>
    have fn := h.reading works live
    exact hf.head works (by simp [writeFid, fn])
  | single _ works => exact hf.head works (writeFid_stage ..)
  | finish works =>
    rename_i work _ _ _ _
    exact hf.head works (by cases work <;> rfl)
  | reply works => exact hf.tail works
  | dumped works => exact hf.tail works
  | readDone works => exact hf.tail works
  | writeFailed works => exact hf.tail works
  | writeLost works => exact hf.tail works
  | writeDone works _ _ _ alone =>
    intro x hx fid hw e he
    rcases List.mem_cons.mp he with rfl | he
    · rintro rfl
      exact (alone.resolve_left hd) x hx hw
    · exact hf.tail works x hx fid hw e he

end Conditions
end Speedy.Chunkserver
