import Speedy.Driver.StreamRead
import Speedy.Lib.Tally

/-! # The registry driver: what a reader gets

The state of a download is known from a few numbers: how many fragments are stored and how many
of them are accounted for, the fragment that is read and the cursor. As long as nothing fails,
every step keeps it so (`Live`) until the file was read to its end (`Done`). The reader never
gets ahead of the watermark, which is what makes the next fragment's file be there when it
steps over to it. -/
namespace Speedy.Driver
open Speedy.Lib Speedy.Imageserver

/-- A fragment's temporary file, when the cursor has come to `cursor` and `cur` is read -/
def fileAt (blocks : List Bytes) (cur cursor i : Nat) : TempFile where
  data := blocks.getD i []
  pos := min (cursor - blockStart blocks i) (blocks.getD i []).length
  closed := decide (i < cur)

def tempfileAt (cur stored i : Nat) : Option Nat :=
  if cur ≤ i ∧ i < stored then some i else none

def completedAt (blocks : List Bytes) (done i : Nat) : Option (Nat × Nat) :=
  if i < done then some (i, blockStart blocks (i + 1)) else none

/-- `stored` fragments are in temporary files, and `done` of them are accounted for. -/
def DownloaderPhase.At (parts : List Part) (stored done : Nat) : DownloaderPhase → Prop
  | .refreshing f => stored = done + 1 ∧ ∃ p, parts[done]? = some p ∧ p.info = f
  | .downloading | .checking => stored = done

/-- A call that is past the wait is below the watermark. -/
def ReaderPhase.At (cursor fsize watermark : Nat) : ReaderPhase → Prop
  | .idle => True
  | .waiting size => 0 < size ∧ cursor < fsize
  | .reading size => 0 < size ∧ cursor < watermark

/-- The file is being read, and nothing has failed. -/
structure Live (parts : List Part) (fsize stored done : Nat) (s : StreamReader) : Prop where
  fsize_eq : s.fsize = fsize
  stored_le : stored ≤ parts.length
  downloader : s.downloader.At parts stored done
  todo : s.todo = (parts.drop stored).map Part.info
  files : s.files = (List.range stored).map
    (fileAt (contents parts) s.curReadFragment s.cursor)
  tempfiles : s.fragmentTempfiles =
    (List.range parts.length).map (tempfileAt s.curReadFragment stored)
  completed : s.completed = (List.range parts.length).map (completedAt (contents parts) done)
  watermark : s.maxCompletedByte = blockStart (contents parts) done
  healthy : s.error = false
  going : s.ended = none
  cur_lt : s.curReadFragment < parts.length
  begun : blockStart (contents parts) s.curReadFragment ≤ s.cursor
  within : s.cursor ≤ blockStart (contents parts) (s.curReadFragment + 1)
  below : s.cursor ≤ blockStart (contents parts) done
  read_eq : s.results.flatten = (contents parts).flatten.take s.cursor
  nonempty : ∀ b ∈ s.results, b ≠ []
  reader : s.reader.At s.cursor fsize (blockStart (contents parts) done)

/-- The file was read to its end. -/
structure Done (parts : List Part) (s : StreamReader) : Prop where
  eof : s.ended = some .eof
  idle : s.reader = .idle
  drained : s.todo = []
  settled : ∀ f, s.downloader ≠ .refreshing f
  healthy : s.error = false
  read_eq : s.results.flatten = (contents parts).flatten
  nonempty : ∀ b ∈ s.results, b ≠ []
  files_length : s.files.length = parts.length
  closed : ∀ f ∈ s.files, f.closed = true

section Live
variable {parts : List Part} {fsize stored done : Nat} {s s' : StreamReader}

theorem Live.start (hne : parts ≠ []) :
    Live parts fsize 0 0 (.start fsize (parts.map Part.info)) := by
  have hpos : 0 < parts.length := List.length_pos_iff.mpr hne
  have hzero : blockStart (contents parts) 0 = 0 := by simp [blockStart]
  refine ⟨rfl, Nat.zero_le _, rfl, rfl, rfl, ?_, ?_, hzero.symm, rfl, rfl, hpos,
    Nat.le_of_eq hzero, Nat.zero_le _, Nat.zero_le _, rfl, ?_, trivial⟩
  · refine (List.eq_replicate_iff.mpr ⟨by simp, ?_⟩).symm
    intro x hx
    obtain ⟨i, -, rfl⟩ := List.mem_map.mp hx
    exact if_neg fun hi => Nat.not_lt_zero i hi.2
  · refine (List.eq_replicate_iff.mpr ⟨by simp, ?_⟩).symm
    intro x hx
    obtain ⟨i, -, rfl⟩ := List.mem_map.mp hx
    exact if_neg (Nat.not_lt_zero i)
  · intro b hb
    cases hb

theorem Live.done_le (h : Live parts fsize stored done s) : done ≤ stored := by
  have hphase := h.downloader
  unfold DownloaderPhase.At at hphase
  split at hphase
  · omega
  · omega
  · omega

/-- The fragment that is read has been completed, or is the next one to be. -/
theorem Live.cur_le (L : Layout parts fsize) (h : Live parts fsize stored done s) :
    s.curReadFragment ≤ done := by
  by_contra hlt
  have hcur := contents_length parts ▸ Nat.le_of_lt h.cur_lt
  have := blockStart_lt L.solid (Nat.lt_of_not_le hlt) hcur
  have := h.begun
  have := h.below
  omega

/-- What is left of the loop begins with the fragment behind those that are stored. -/
theorem Live.todo_cons {f : FragmentInfo} {rest : List FragmentInfo}
    (h : Live parts fsize stored done s) (htodo : s.todo = f :: rest) :
    ∃ p, parts[stored]? = some p ∧ p.info = f ∧ rest = (parts.drop (stored + 1)).map Part.info := by
  obtain ⟨p, ps, hdrop, hf, hrest⟩ := List.map_eq_cons_iff.mp (h.todo.symm.trans htodo)
  refine ⟨p, ?_, hf, ?_⟩
  · rw [← List.head?_drop, hdrop]
    rfl
  · rw [← hrest, ← List.tail_drop, hdrop]
    rfl

/-! ### The downloader's steps -/

theorem Live.download (L : Layout parts fsize) {f : FragmentInfo} {rest : List FragmentInfo}
    {p : Part} (h : Live parts fsize stored done s) (hphase : s.downloader = .downloading)
    (htodo : s.todo = f :: rest) (hp : p ∈ parts) (hf : p.info = f) :
    Live parts fsize (stored + 1) done (s.download f rest (some p.data)) := by
  obtain ⟨q, hq, hqf, hrest⟩ := h.todo_cons htodo
  have hat := h.downloader
  rw [hphase] at hat
  have hsame : stored = done := hat
  have hlt : stored < parts.length := (List.getElem?_eq_some_iff.mp hq).1
  have hindex : f.index = stored := hqf ▸ (L.place stored q hq).1
  have hpq : parts[stored]? = some p := by
    rw [← hindex, ← hf]
    exact L.getElem? hp
  have hlen : s.files.length = stored := by rw [h.files]; simp
  have hcur := h.cur_le L
  have hbelow := h.below
  have hdownload : s.download f rest (some p.data) = { s with
      todo := rest
      downloader := .refreshing f
      files := s.files ++ [⟨p.data, 0, false⟩]
      fragmentTempfiles := s.fragmentTempfiles.set stored (some stored) } := by
    simp only [StreamReader.download, hindex, hlen]
    exact if_pos (by rw [h.tempfiles]; simpa using hlt)
  rw [hdownload]
  refine { h with
    stored_le := hlt
    downloader := ⟨by omega, p, hsame ▸ hpq, hf⟩
    todo := hrest
    files := ?_
    tempfiles := ?_ }
  · -- the new file is not read yet
    have hnew : fileAt (contents parts) s.curReadFragment s.cursor stored = ⟨p.data, 0, false⟩ := by
      have hpos : s.cursor - blockStart (contents parts) stored = 0 := by
        rw [hsame]
        omega
      unfold fileAt
      rw [List.getD_eq_getElem?_getD, contents_getElem? hpq, hpos]
      simp only [Option.getD_some, Nat.zero_min, TempFile.mk.injEq, true_and,
        decide_eq_false_iff_not]
      omega
    show s.files ++ _ = _
    rw [h.files, List.range_succ, List.map_append, List.map_singleton, hnew]
  · show s.fragmentTempfiles.set stored _ = _
    rw [h.tempfiles]
    have hself : tempfileAt s.curReadFragment (stored + 1) stored = some stored :=
      if_pos ⟨by omega, by omega⟩
    rw [← hself]
    refine map_range_set ?_
    intro j _ hj
    unfold tempfileAt
    congr 1
    exact propext ⟨fun hc => ⟨hc.1, by omega⟩, fun hc => ⟨hc.1, by omega⟩⟩

theorem Live.publish (L : Layout parts fsize) {f : FragmentInfo}
    (h : Live parts fsize stored done s) (hphase : s.downloader = .refreshing f) :
    Live parts fsize stored stored (s.refreshMaxCompletedByte f) := by
  have hat := h.downloader
  rw [hphase] at hat
  obtain ⟨rfl, p, hp, rfl⟩ := hat
  obtain ⟨hindex, hstop⟩ := L.place done p hp
  have hgrow : blockStart (contents parts) done ≤ blockStart (contents parts) (done + 1) :=
    blockStart_mono (Nat.le_succ done)
  refine { h with
    downloader := rfl
    completed := ?_
    watermark := hstop
    below := Nat.le_trans h.below hgrow
    reader := ?_ }
  · show s.completed.set p.index (some (p.index, p.stop)) = _
    rw [h.completed, hindex, hstop]
    have hself : completedAt (contents parts) (done + 1) done =
        some (done, blockStart (contents parts) (done + 1)) := if_pos (Nat.lt_succ_self done)
    rw [← hself]
    refine map_range_set ?_
    intro j _ hj
    unfold completedAt
    congr 1
    exact propext ⟨fun hc => by omega, fun hc => by omega⟩
  · have hreader := h.reader
    show s.reader.At s.cursor fsize _
    unfold ReaderPhase.At at hreader ⊢
    split at hreader
    · trivial
    · exact hreader
    · exact ⟨hreader.1, by omega⟩

theorem Live.clock (h : Live parts fsize stored done s) (hphase : s.downloader = .checking) :
    Live parts fsize stored done (s.checkReadTime false) := by
  have hat := h.downloader
  rw [hphase] at hat
  exact { h with downloader := hat }

/-! ### The reader's steps -/

section Files
variable {blocks : List Bytes} {cur c c' i : Nat} {b : Bytes}

theorem fileAt_self (hb : blocks[cur]? = some b) (hbegun : blockStart blocks cur ≤ c)
    (hwithin : c ≤ blockStart blocks (cur + 1)) :
    fileAt blocks cur c cur = ⟨b, c - blockStart blocks cur, false⟩ := by
  rw [blockStart_succ hb] at hwithin
  unfold fileAt
  rw [List.getD_eq_getElem?_getD, hb, Option.getD_some, Nat.min_eq_left (by omega),
    decide_eq_false (Nat.lt_irrefl cur)]

/-- Reading in one fragment moves no other file. -/
theorem fileAt_other (hi : i < blocks.length) (hne : i ≠ cur) (hbegun : blockStart blocks cur ≤ c)
    (hle : c ≤ c') (hwithin : c' ≤ blockStart blocks (cur + 1)) :
    fileAt blocks cur c i = fileAt blocks cur c' i := by
  have hb : blocks[i]? = some blocks[i] := List.getElem?_eq_getElem hi
  unfold fileAt
  rw [List.getD_eq_getElem?_getD, hb, Option.getD_some]
  congr 1
  rcases Nat.lt_or_gt_of_ne hne with hlt | hgt
  · have hpast : blockStart blocks (i + 1) ≤ blockStart blocks cur := blockStart_mono hlt
    rw [blockStart_succ hb] at hpast
    omega
  · have hahead : blockStart blocks (cur + 1) ≤ blockStart blocks i := blockStart_mono hgt
    omega

end Files

theorem Live.tempfile (h : Live parts fsize stored done s) (hcur : s.curReadFragment < stored) :
    s.tempfile s.curReadFragment = .ok s.curReadFragment := by
  have hget : s.fragmentTempfiles[s.curReadFragment]? = some (some s.curReadFragment) := by
    rw [h.tempfiles, List.getElem?_map, List.getElem?_range h.cur_lt]
    exact congrArg some (if_pos ⟨Nat.le_refl _, hcur⟩)
  unfold StreamReader.tempfile
  rw [hget]

theorem Live.file_eq (h : Live parts fsize stored done s) {i : Nat} (hi : i < stored) :
    s.files[i]? = some (fileAt (contents parts) s.curReadFragment s.cursor i) := by
  rw [h.files, List.getElem?_map, List.getElem?_range hi]
  rfl

theorem Live.file (h : Live parts fsize stored done s) (hcur : s.curReadFragment < stored) :
    ∃ b, (contents parts)[s.curReadFragment]? = some b ∧
      s.files[s.curReadFragment]? =
        some ⟨b, s.cursor - blockStart (contents parts) s.curReadFragment, false⟩ := by
  have hlt : s.curReadFragment < (contents parts).length := contents_length parts ▸ h.cur_lt
  have hb := List.getElem?_eq_getElem hlt
  refine ⟨_, hb, ?_⟩
  rw [h.file_eq hcur, fileAt_self hb h.begun h.within]

/-- Only the file of the current fragment moves when it is read. -/
theorem Live.files_moved (h : Live parts fsize stored done s) {b : Bytes} {n : Nat}
    (hb : (contents parts)[s.curReadFragment]? = some b)
    (hn : s.cursor + n ≤ blockStart (contents parts) (s.curReadFragment + 1)) :
    s.files.set s.curReadFragment
        ⟨b, s.cursor - blockStart (contents parts) s.curReadFragment + n, false⟩ =
      (List.range stored).map
        (fileAt (contents parts) s.curReadFragment (s.cursor + n)) := by
  have hbegun := h.begun
  have hself : fileAt (contents parts) s.curReadFragment (s.cursor + n) s.curReadFragment =
      ⟨b, s.cursor - blockStart (contents parts) s.curReadFragment + n, false⟩ := by
    rw [fileAt_self hb (by omega) hn]
    congr 1
    omega
  rw [h.files, ← hself]
  refine map_range_set ?_
  intro j hj hne
  refine fileAt_other ?_ hne hbegun (Nat.le_add_right _ _) hn
  rw [contents_length]
  exact Nat.lt_of_lt_of_le hj h.stored_le

/-- Some bytes of the current fragment are read. -/
theorem Live.readCurrent (h : Live parts fsize stored done s) (hcur : s.curReadFragment < done)
    (hlt : s.cursor < blockStart (contents parts) (s.curReadFragment + 1)) {sz : Int}
    (hsz : 0 < sz) :
    ∃ s', s.readCurrent sz = .ok s' ∧ Live parts fsize stored done s' ∧
      s'.curReadFragment = s.curReadFragment ∧ s'.downloader = s.downloader ∧
      s'.reader = .idle ∧ s.cursor < s'.cursor := by
  have hstored : s.curReadFragment < stored := Nat.lt_of_lt_of_le hcur h.done_le
  obtain ⟨b, hb, hfile⟩ := h.file hstored
  have hbegun := h.begun
  have hsucc := blockStart_succ hb
  have hdone : blockStart (contents parts) (s.curReadFragment + 1) ≤
      blockStart (contents parts) done := blockStart_mono hcur
  obtain ⟨n, rfl⟩ := Int.eq_ofNat_of_zero_le (Int.le_of_lt hsz)
  have hn : 0 < n := by omega
  generalize hpos : s.cursor - blockStart (contents parts) s.curReadFragment = pos at hfile
  have hcursor : s.cursor = blockStart (contents parts) s.curReadFragment + pos := by omega
  let buf := (b.drop pos).take n
  have hread : TempFile.read ⟨b, pos, false⟩ n = buf := if_neg (by omega)
  have hlen : buf.length = min n (b.length - pos) := by simp [buf]
  have hne : buf ≠ [] := by
    intro hc
    rw [hc, List.length_nil] at hlen
    omega
  have hslice : ((contents parts).flatten.drop s.cursor).take buf.length = buf := by
    rw [hcursor, block_slice hb (by omega)]
    exact (List.prefix_iff_eq_take.mp (List.take_prefix n (b.drop pos))).symm
  have hstep : s.readCurrent n = .ok { s with
      files := s.files.set s.curReadFragment ⟨b, pos + buf.length, false⟩
      cursor := s.cursor + buf.length
      reader := .idle
      results := s.results ++ [buf] } := by
    unfold StreamReader.readCurrent
    rw [h.tempfile hstored]
    simp only [Except.bind, bind, hfile, hread, Bool.false_eq_true, if_false, if_neg hne]
  refine ⟨_, hstep, ?_, rfl, rfl, rfl, ?_⟩
  · refine { h with
      files := ?_
      begun := Nat.le_trans hbegun (Nat.le_add_right _ _)
      within := ?_
      below := ?_
      read_eq := ?_
      nonempty := ?_
      reader := trivial }
    · have hmoved := h.files_moved hb (n := buf.length) (by omega)
      rwa [hpos] at hmoved
    · show s.cursor + buf.length ≤ blockStart (contents parts) (s.curReadFragment + 1)
      omega
    · show s.cursor + buf.length ≤ blockStart (contents parts) done
      omega
    · show (s.results ++ [buf]).flatten = (contents parts).flatten.take (s.cursor + buf.length)
      rw [List.flatten_append, h.read_eq, List.flatten_singleton, List.take_add, hslice]
    · refine List.forall_mem_append.mpr ⟨h.nonempty, ?_⟩
      exact List.forall_mem_singleton.mpr hne
  · show s.cursor < s.cursor + buf.length
    have := List.length_pos_iff.mpr hne
    omega

theorem closeFile_eq {files : List TempFile} {i : Nat} {f : TempFile} (hf : files[i]? = some f)
    (hopen : f.closed = false) :
    closeFile files i = some (files.set i { f with closed := true }) := by
  unfold closeFile
  simp only [hf, hopen, Bool.false_eq_true, if_false]

theorem Live.files_closed (h : Live parts fsize stored done s) {b : Bytes}
    (hb : (contents parts)[s.curReadFragment]? = some b) :
    s.files.set s.curReadFragment
        ⟨b, s.cursor - blockStart (contents parts) s.curReadFragment, true⟩ =
      (List.range stored).map (fileAt (contents parts) (s.curReadFragment + 1) s.cursor) := by
  have hself : fileAt (contents parts) (s.curReadFragment + 1) s.cursor s.curReadFragment =
      ⟨b, s.cursor - blockStart (contents parts) s.curReadFragment, true⟩ := by
    have hopen : fileAt (contents parts) (s.curReadFragment + 1) s.cursor s.curReadFragment =
        { fileAt (contents parts) s.curReadFragment s.cursor s.curReadFragment with
          closed := decide (s.curReadFragment < s.curReadFragment + 1) } := rfl
    rw [hopen, fileAt_self hb h.begun h.within, decide_eq_true (Nat.lt_succ_self _)]
  rw [h.files, ← hself]
  refine map_range_set ?_
  intro j _ hj
  unfold fileAt
  congr 1
  exact decide_eq_decide.mpr ⟨fun hc => by omega, fun hc => by omega⟩

/-- The reader steps over to a fragment that is complete. -/
theorem Live.nextFragment (h : Live parts fsize stored done s)
    (hend : s.cursor = blockStart (contents parts) (s.curReadFragment + 1))
    (hlt : s.cursor < blockStart (contents parts) done) :
    ∃ s', s.nextFragment = .ok s' ∧ Live parts fsize stored done s' ∧
      s'.curReadFragment = s.curReadFragment + 1 ∧ s'.curReadFragment < done ∧
      s'.cursor = s.cursor ∧ s'.downloader = s.downloader := by
  have hnext : s.curReadFragment + 1 < done := lt_of_blockStart_lt (hend ▸ hlt)
  have hle := h.done_le
  have hstored := h.stored_le
  obtain ⟨b, hb, hfile⟩ := h.file (by omega)
  have hstep : s.nextFragment = .ok { s with
      files := s.files.set s.curReadFragment
        ⟨b, s.cursor - blockStart (contents parts) s.curReadFragment, true⟩
      fragmentTempfiles := s.fragmentTempfiles.set s.curReadFragment none
      curReadFragment := s.curReadFragment + 1 } := by
    unfold StreamReader.nextFragment
    rw [h.tempfile (by omega)]
    simp only [Except.bind, bind, closeFile_eq hfile rfl]
  refine ⟨_, hstep, ?_, rfl, hnext, rfl, rfl⟩
  refine { h with
    files := ?_
    tempfiles := ?_
    cur_lt := by dsimp only; omega
    begun := Nat.le_of_eq hend.symm
    within := Nat.le_trans (Nat.le_of_eq hend) (blockStart_mono (Nat.le_succ _)) }
  · exact h.files_closed hb
  · show s.fragmentTempfiles.set s.curReadFragment none = _
    rw [h.tempfiles]
    have hself : tempfileAt (s.curReadFragment + 1) stored s.curReadFragment = none :=
      if_neg fun hc => Nat.not_succ_le_self _ hc.1
    rw [← hself]
    refine map_range_set ?_
    intro j _ hj
    unfold tempfileAt
    congr 1
    exact propext ⟨fun hc => ⟨by omega, hc.2⟩, fun hc => ⟨by omega, hc.2⟩⟩

theorem Live.completed_eq (h : Live parts fsize stored done s) {i : Nat} (hi : i < done) :
    s.completed[i]? = some (some (i, blockStart (contents parts) (i + 1))) := by
  have hlt : i < parts.length := Nat.lt_of_lt_of_le hi (Nat.le_trans h.done_le h.stored_le)
  rw [h.completed, List.getElem?_map, List.getElem?_range hlt]
  exact congrArg some (if_pos hi)

/-- Below the watermark there is something to read, and it is read from a fragment that is
complete. -/
theorem Live.fetch (L : Layout parts fsize) (h : Live parts fsize stored done s) {size : Nat}
    (hsize : 0 < size) (hlt : s.cursor < blockStart (contents parts) done) :
    ∃ s', s.fetch size = .ok s' ∧ Live parts fsize stored done s' ∧
      s'.curReadFragment < done ∧ s'.downloader = s.downloader ∧ s'.reader = .idle ∧
      s.cursor < s'.cursor := by
  have hbegun := h.begun
  have hwithin := h.within
  have hcur : s.curReadFragment < done := lt_of_blockStart_lt (Nat.lt_of_le_of_lt hbegun hlt)
  simp only [StreamReader.fetch, h.completed_eq hcur]
  split
  · rename_i hleft
    obtain ⟨t, ht, hlive, hnext, htdone, htcursor, htdown⟩ := h.nextFragment (by omega) hlt
    have hroom : t.cursor < blockStart (contents parts) (t.curReadFragment + 1) := by
      have hle : done ≤ (contents parts).length := by
        rw [contents_length]
        exact Nat.le_trans h.done_le h.stored_le
      have hbehind : blockStart (contents parts) t.curReadFragment <
          blockStart (contents parts) (t.curReadFragment + 1) :=
        blockStart_lt L.solid (Nat.lt_succ_self _) (Nat.le_trans htdone hle)
      have hat : t.cursor = blockStart (contents parts) t.curReadFragment := by
        rw [htcursor, hnext]
        omega
      exact hat ▸ hbehind
    have hsz : (0 : Int) < size := by omega
    obtain ⟨s', hs', hlive', hcur', hdown', hidle', hmore⟩ := hlive.readCurrent htdone hroom hsz
    refine ⟨s', ?_, hlive', hcur' ▸ htdone, hdown'.trans htdown, hidle', htcursor ▸ hmore⟩
    simp only [ht, Except.bind, bind, hs']
  · rename_i hleft
    generalize hleft' : (blockStart (contents parts) (s.curReadFragment + 1) : Int) - s.cursor =
      left at hleft ⊢
    have hsz : 0 < if left ≤ size then left else (size : Int) := by
      split <;> omega
    obtain ⟨s', hs', hlive', hcur', hdown', hidle', hmore⟩ := h.readCurrent hcur (by omega) hsz
    exact ⟨s', hs', hlive', hcur' ▸ hcur, hdown', hidle', hmore⟩

theorem Live.fetch_completed (L : Layout parts fsize) (h : Live parts fsize stored done s)
    (hs : s.step .fetch = some s') :
    ∃ x, s.completed[s'.curReadFragment]? = some (some x) := by
  simp only [StreamReader.step] at hs
  split at hs
  · rename_i size hreading
    have hreader := h.reader
    rw [hreading] at hreader
    obtain ⟨t, ht, -, hcur, -⟩ := h.fetch L hreader.1 hreader.2
    rw [ht] at hs
    cases hs
    exact ⟨_, h.completed_eq hcur⟩
  · cases hs

/-- Files that are open are closed one by one. -/
theorem clear_spec {files : List TempFile} {tempfiles : List (Option Nat)}
    (hdiff : tempfiles.Pairwise fun a b => a = b → a = none)
    (hopen : ∀ i, some i ∈ tempfiles → ∃ f, files[i]? = some f ∧ f.closed = false) :
    ∃ files', clear files tempfiles = (files', true) ∧ files'.length = files.length ∧
      ∀ (i : Nat) f', files'[i]? = some f' →
        (some i ∈ tempfiles ∨ ∃ f, files[i]? = some f ∧ f.closed = true) → f'.closed = true := by
  induction tempfiles generalizing files with
  | nil =>
    refine ⟨files, rfl, rfl, ?_⟩
    intro i f' hf' hi
    rcases hi with hi | ⟨f, hf, hclosed⟩
    · cases hi
    · cases hf.symm.trans hf'
      exact hclosed
  | cons t tempfiles ih =>
    obtain ⟨hfirst, hlater⟩ := List.pairwise_cons.mp hdiff
    have hrest : ∀ i, some i ∈ tempfiles → ∃ f, files[i]? = some f ∧ f.closed = false :=
      fun i hi => hopen i (List.mem_cons_of_mem t hi)
    cases t with
    | none =>
      obtain ⟨files', hclear, hlen, hclosed⟩ := ih hlater hrest
      refine ⟨files', hclear, hlen, ?_⟩
      intro i f' hf' hi
      exact hclosed i f' hf' (hi.imp_left fun hmem => by simpa using hmem)
    | some k =>
      obtain ⟨f, hf, hfopen⟩ := hopen k List.mem_cons_self
      have hlt : k < files.length := (List.getElem?_eq_some_iff.mp hf).1
      have hself : (files.set k { f with closed := true })[k]? =
          some { f with closed := true } := List.getElem?_set_self hlt
      have hother : ∀ i, i ≠ k → (files.set k { f with closed := true })[i]? = files[i]? :=
        fun i hi => List.getElem?_set_ne (Ne.symm hi)
      have hstill : ∀ i, some i ∈ tempfiles →
          ∃ f', (files.set k { f with closed := true })[i]? = some f' ∧ f'.closed = false := by
        intro i hi
        -- no file is referred to twice
        have hne : i ≠ k := by
          intro he
          have hnone := hfirst (some i) hi (congrArg some he.symm)
          cases hnone
        rw [hother i hne]
        exact hrest i hi
      obtain ⟨files', hclear, hlen, hclosed⟩ := ih hlater hstill
      refine ⟨files', ?_, by rw [hlen, List.length_set], ?_⟩
      · simp only [clear, closeFile_eq hf hfopen]
        exact hclear
      · intro i f' hf' hi
        refine hclosed i f' hf' ?_
        by_cases hik : i = k
        · subst hik
          exact .inr ⟨_, hself, rfl⟩
        · rw [hother i hik]
          exact hi.imp_left fun hmem => by simpa [hik] using hmem

/-- At the end of the file, everything has been downloaded. -/
theorem Live.all_done (L : Layout parts fsize) (h : Live parts fsize stored done s)
    (hend : fsize ≤ s.cursor) : done = parts.length ∧ stored = parts.length := by
  have hle := h.done_le
  have hstored := h.stored_le
  have hbelow := h.below
  have hsize := L.size
  rw [← blockStart_length, contents_length] at hsize
  have hdone : ¬ done < parts.length := by
    intro hlt
    have := blockStart_lt L.solid hlt (Nat.le_of_eq (contents_length parts).symm)
    omega
  omega

theorem Live.mem_tempfiles (h : Live parts fsize stored done s) {i : Nat} :
    some i ∈ s.fragmentTempfiles ↔ s.curReadFragment ≤ i ∧ i < stored := by
  have hle := h.stored_le
  rw [h.tempfiles]
  simp only [List.mem_map, List.mem_range, tempfileAt]
  constructor
  · intro hmem
    obtain ⟨j, -, hj⟩ := hmem
    split at hj
    · rename_i hc
      cases hj
      exact hc
    · cases hj
  · intro hi
    exact ⟨i, by omega, if_pos hi⟩

theorem Live.tempfiles_diff (h : Live parts fsize stored done s) :
    s.fragmentTempfiles.Pairwise fun a b => a = b → a = none := by
  rw [h.tempfiles]
  refine List.pairwise_map.mpr (List.pairwise_lt_range.imp ?_)
  intro i j hij he
  unfold tempfileAt at he ⊢
  split
  · rename_i hc
    rw [if_pos hc] at he
    split at he
    · cases he
      omega
    · exact he
  · rfl

/-- `clear` closes the files that the reader has not closed before. -/
theorem Live.clear (h : Live parts fsize stored done s) :
    ∃ files, clear s.files s.fragmentTempfiles = (files, true) ∧ files.length = stored ∧
      ∀ f ∈ files, f.closed = true := by
  have hstored : s.files.length = stored := by
    rw [h.files, List.length_map, List.length_range]
  obtain ⟨files, hclear, hlen, hclosed⟩ := clear_spec h.tempfiles_diff (by
    intro i hi
    obtain ⟨hle, hlt⟩ := h.mem_tempfiles.mp hi
    exact ⟨_, h.file_eq hlt, decide_eq_false (Nat.not_lt.mpr hle)⟩)
  refine ⟨files, hclear, hlen.trans hstored, ?_⟩
  intro f hf
  obtain ⟨i, hi⟩ := List.mem_iff_getElem?.mp hf
  have hlt : i < stored := by
    rw [← hstored, ← hlen]
    exact (List.getElem?_eq_some_iff.mp hi).1
  refine hclosed i f hi ?_
  rcases Nat.lt_or_ge i s.curReadFragment with hpast | hnow
  · exact .inr ⟨_, h.file_eq hlt, decide_eq_true hpast⟩
  · exact .inl (h.mem_tempfiles.mpr ⟨hnow, hlt⟩)

theorem Live.finish (L : Layout parts fsize) (h : Live parts fsize stored done s)
    (hend : fsize ≤ s.cursor) : Done parts (s.clearAndFinish .eof) := by
  obtain ⟨hdone, hstored⟩ := h.all_done L hend
  obtain ⟨files, hclear, hlen, hclosed⟩ := h.clear
  have hfinish : s.clearAndFinish .eof =
      { s with files := files, reader := .idle, ended := some .eof } := by
    unfold StreamReader.clearAndFinish
    rw [hclear]
    rfl
  rw [hfinish]
  refine ⟨rfl, rfl, ?_, ?_, h.healthy, ?_, h.nonempty, hlen.trans hstored, hclosed⟩
  · show s.todo = []
    rw [h.todo, hstored, List.drop_length]
    rfl
  · intro f hf
    have hat := h.downloader
    rw [show s.downloader = .refreshing f from hf] at hat
    have := hat.1
    omega
  · show s.results.flatten = _
    rw [h.read_eq, List.take_of_length_le (L.size ▸ hend)]

/-! ### Any step -/

def DownloaderPhase.left : DownloaderPhase → Nat
  | .downloading => 0
  | .checking => 1
  | .refreshing _ => 2

def ReaderPhase.left : ReaderPhase → Nat
  | .reading _ => 0
  | .waiting _ => 1
  | .idle => 2

/-- A bound on the steps that are left, waking up in vain not counted: three for each fragment,
and three for each byte -/
def StreamReader.left (s : StreamReader) : Nat :=
  3 * s.todo.length + s.downloader.left + 3 * (s.fsize - s.cursor) + s.reader.left +
    s.ended.elim 1 fun _ => 0

theorem DownloaderPhase.left_le (d : DownloaderPhase) : d.left ≤ 2 := by
  cases d with
  | downloading => exact Nat.zero_le _
  | checking => exact Nat.le_succ _
  | refreshing f => exact Nat.le_refl _

/-- The file is being read without a failure, or was read to its end. -/
def Safe (parts : List Part) (fsize : Nat) (s : StreamReader) : Prop :=
  (∃ stored done, Live parts fsize stored done s) ∨ Done parts s

theorem Live.proceed (h : Live parts fsize stored done s) {size : Nat} (hsize : 0 < size)
    (hlt : s.cursor < s.maxCompletedByte) :
    s.proceed size = { s with reader := .reading size } ∧
      Live parts fsize stored done { s with reader := .reading size } := by
  have hproceed : s.proceed size = { s with reader := .reading size } := by
    unfold StreamReader.proceed
    rw [h.healthy]
    rfl
  exact ⟨hproceed, { h with reader := ⟨hsize, h.watermark ▸ hlt⟩ }⟩

theorem Live.read (L : Layout parts fsize) (h : Live parts fsize stored done s) {size : Nat}
    (hsize : 0 < size) (hidle : s.reader = .idle) :
    Safe parts fsize (s.read size) ∧ (s.read size).left < s.left := by
  have hgoing := h.going
  unfold StreamReader.read
  split
  · rename_i hend
    rw [h.fsize_eq] at hend
    refine ⟨.inr (h.finish L hend), ?_⟩
    simp only [StreamReader.left, StreamReader.clearAndFinish, StreamReader.finish, hidle, hgoing]
    simp
  · rename_i hend
    rw [h.fsize_eq] at hend
    split
    · refine ⟨.inl ⟨stored, done, { h with reader := ⟨hsize, Nat.lt_of_not_le hend⟩ }⟩, ?_⟩
      simp only [StreamReader.left, hidle, ReaderPhase.left]
      omega
    · obtain ⟨hproceed, hlive⟩ := h.proceed hsize (by omega)
      rw [hproceed]
      refine ⟨.inl ⟨stored, done, hlive⟩, ?_⟩
      simp only [StreamReader.left, hidle, ReaderPhase.left]
      omega

/-- The loop wakes up in vain, or goes on. -/
theorem Live.wake (h : Live parts fsize stored done s) {size : Nat}
    (hwait : s.reader = .waiting size) :
    Live parts fsize stored done (s.wake size) ∧
      (s.cursor < s.maxCompletedByte → (s.wake size).left < s.left) ∧
      (s.maxCompletedByte ≤ s.cursor → s.wake size = s) := by
  have hreader := h.reader
  rw [hwait] at hreader
  unfold StreamReader.wake
  split
  · rename_i hc
    exact ⟨h, fun hlt => absurd hc.1 (Nat.not_le.mpr hlt), fun _ => rfl⟩
  · rename_i hc
    have hlt : s.cursor < s.maxCompletedByte := by
      by_contra hle
      exact hc ⟨Nat.le_of_not_lt hle, h.healthy⟩
    obtain ⟨hproceed, hlive⟩ := h.proceed hreader.1 hlt
    rw [hproceed]
    refine ⟨hlive, ?_, fun hle => absurd hlt (Nat.not_lt.mpr hle)⟩
    intro _
    simp only [StreamReader.left, hwait, ReaderPhase.left]
    omega

theorem StreamReader.download_reader (s : StreamReader) (f : FragmentInfo)
    (rest : List FragmentInfo) (response : Option Bytes) :
    (s.download f rest response).cursor = s.cursor ∧
      (s.download f rest response).reader = s.reader := by
  unfold StreamReader.download
  split
  · exact ⟨rfl, rfl⟩
  · dsimp only
    split
    · exact ⟨rfl, rfl⟩
    · exact ⟨rfl, rfl⟩

theorem Live.left_eq (h : Live parts fsize stored done s) :
    s.left = 3 * (parts.length - stored) + s.downloader.left + 3 * (fsize - s.cursor) +
      s.reader.left + 1 := by
  unfold StreamReader.left
  rw [h.todo, h.going, h.fsize_eq, List.length_map, List.length_drop]
  rfl

theorem Live.step (L : Layout parts fsize) {e : ReaderEvent}
    (h : Live parts fsize stored done s) (hsmooth : e.Smooth parts s)
    (hs : s.step e = some s') :
    Safe parts fsize s' ∧ (s'.left < s.left ∨ e = .wake ∧ s' = s) := by
  cases e with
  | download response =>
    simp only [StreamReader.step] at hs
    split at hs
    · rename_i f rest hphase htodo
      cases hs
      obtain ⟨p, hp, hf, rfl⟩ := hsmooth f (by rw [htodo]; rfl)
      have hlive := h.download L hphase htodo hp hf
      obtain ⟨hcursor, hreader⟩ := s.download_reader f rest (some p.data)
      refine ⟨.inl ⟨_, _, hlive⟩, .inl ?_⟩
      have hroom := hlive.stored_le
      have hphase' := (s.download f rest (some p.data)).downloader.left_le
      rw [hlive.left_eq, h.left_eq, hcursor, hreader]
      omega
    · cases hs
  | publish =>
    simp only [StreamReader.step] at hs
    split at hs
    · rename_i f hphase
      cases hs
      refine ⟨.inl ⟨_, _, h.publish L hphase⟩, .inl ?_⟩
      simp only [StreamReader.left, StreamReader.refreshMaxCompletedByte, hphase,
        DownloaderPhase.left]
      omega
    · cases hs
  | clock expired =>
    obtain rfl : expired = false := hsmooth
    simp only [StreamReader.step] at hs
    split at hs
    · rename_i hphase
      cases hs
      refine ⟨.inl ⟨_, _, h.clock hphase⟩, .inl ?_⟩
      simp only [StreamReader.left, StreamReader.checkReadTime, hphase, DownloaderPhase.left,
        Bool.false_eq_true, if_false]
      omega
    · cases hs
  | read size =>
    simp only [StreamReader.step] at hs
    split at hs
    · rename_i hidle _
      cases hs
      obtain ⟨hsafe, hless⟩ := h.read L hsmooth hidle
      exact ⟨hsafe, .inl hless⟩
    · cases hs
  | wake =>
    simp only [StreamReader.step] at hs
    split at hs
    · rename_i size hwait
      cases hs
      obtain ⟨hlive, hless, hvain⟩ := h.wake hwait
      refine ⟨.inl ⟨_, _, hlive⟩, ?_⟩
      rcases Nat.lt_or_ge s.cursor s.maxCompletedByte with hlt | hle
      · exact .inl (hless hlt)
      · exact .inr ⟨rfl, hvain hle⟩
    · cases hs
  | fetch =>
    simp only [StreamReader.step] at hs
    split at hs
    · rename_i size hreading
      have hreader := h.reader
      rw [hreading] at hreader
      obtain ⟨t, ht, hlive, -, hdown, hidle, hmore⟩ := h.fetch L hreader.1 hreader.2
      rw [ht] at hs
      cases hs
      refine ⟨.inl ⟨_, _, hlive⟩, .inl ?_⟩
      -- the cursor has moved, and has not passed the end
      have hbound : s.cursor < fsize := by
        rw [L.size]
        exact Nat.lt_of_lt_of_le hreader.2 (blockStart_le _ _)
      rw [hlive.left_eq, h.left_eq, hdown, hidle, hreading]
      simp only [ReaderPhase.left]
      omega
    · cases hs

theorem Done.step {e : ReaderEvent} (h : Done parts s) (hsmooth : e.Smooth parts s)
    (hs : s.step e = some s') : Done parts s' ∧ s'.left < s.left := by
  cases e with
  | download response =>
    simp only [StreamReader.step, h.drained] at hs
    split at hs
    · rename_i htodo
      cases htodo
    · cases hs
  | publish =>
    simp only [StreamReader.step] at hs
    split at hs
    · rename_i f hphase
      exact absurd hphase (h.settled f)
    · cases hs
  | clock expired =>
    obtain rfl : expired = false := hsmooth
    simp only [StreamReader.step] at hs
    split at hs
    · rename_i hphase
      cases hs
      refine ⟨{ h with settled := fun f hf => by cases hf }, ?_⟩
      simp only [StreamReader.left, StreamReader.checkReadTime, hphase, DownloaderPhase.left,
        Bool.false_eq_true, if_false]
      omega
    · cases hs
  | read size =>
    simp only [StreamReader.step, h.eof] at hs
    split at hs
    · rename_i hnone
      cases hnone
    · cases hs
  | wake =>
    simp only [StreamReader.step, h.idle] at hs
    cases hs
  | fetch =>
    simp only [StreamReader.step, h.idle] at hs
    cases hs

theorem Safe.of_streams (L : Layout parts fsize) (hne : parts ≠ []) (h : Streams parts fsize s) :
    Safe parts fsize s := by
  refine Reach.invariant ?_ ?_ h
  · intro s hs
    rw [hs]
    exact .inl ⟨0, 0, .start hne⟩
  · intro s e s' _ hsafe hs
    rcases hsafe with ⟨stored, done, hlive⟩ | hdone
    · exact (hlive.step L hs.1 hs.2).1
    · exact .inr (hdone.step hs.1 hs.2).1

/-- A step of the downloader -/
def ReaderEvent.Background : ReaderEvent → Prop
  | .download _ | .publish | .clock _ => True
  | .read _ | .wake | .fetch => False

/-- While a fragment is awaited, the downloader can go on. -/
theorem Live.downloads (h : Live parts fsize stored done s) (hleft : done < parts.length) :
    ∃ e t, e.Background ∧ e.Smooth parts s ∧ s.step e = some t := by
  have hat := h.downloader
  cases hphase : s.downloader with
  | downloading =>
    rw [hphase] at hat
    obtain rfl : stored = done := hat
    have htodo : s.todo = parts[stored].info :: (parts.drop (stored + 1)).map Part.info := by
      rw [h.todo, List.drop_eq_getElem_cons hleft]
      rfl
    have hs : s.step (.download (some parts[stored].data)) =
        some (s.download parts[stored].info ((parts.drop (stored + 1)).map Part.info)
          (some parts[stored].data)) := by
      simp only [StreamReader.step, hphase, htodo]
    refine ⟨.download (some parts[stored].data), _, trivial, ?_, hs⟩
    intro f hf
    rw [htodo] at hf
    cases hf
    exact ⟨_, List.getElem_mem hleft, rfl, rfl⟩
  | refreshing f =>
    refine ⟨.publish, s.refreshMaxCompletedByte f, trivial, trivial, ?_⟩
    simp only [StreamReader.step, hphase]
  | checking =>
    refine ⟨.clock false, s.checkReadTime false, trivial, rfl, ?_⟩
    simp only [StreamReader.step, hphase]

/-- There is always a step that brings the end nearer. -/
theorem Live.progress (L : Layout parts fsize) (h : Live parts fsize stored done s) {size : Nat}
    (hsize : 0 < size) :
    ∃ e t, e.Smooth parts s ∧ (∀ z, e = .read z → z = size) ∧ s.step e = some t ∧
      t.left < s.left := by
  have hreader := h.reader
  cases hphase : s.reader with
  | idle =>
    refine ⟨.read size, s.read size, hsize, ?_, ?_, (h.read L hsize hphase).2⟩
    · intro z hz
      exact (ReaderEvent.read.inj hz).symm
    · simp only [StreamReader.step, hphase, h.going]
  | waiting z =>
    rw [hphase] at hreader
    rcases Nat.lt_or_ge s.cursor s.maxCompletedByte with hlt | hle
    · refine ⟨.wake, s.wake z, trivial, fun z hz => (by cases hz), ?_, (h.wake hphase).2.1 hlt⟩
      simp only [StreamReader.step, hphase]
    · -- the watermark is below the end of the file
      have hleft : done < parts.length := by
        refine Nat.lt_of_not_le fun hall => ?_
        have hmono : blockStart (contents parts) parts.length ≤ blockStart (contents parts) done :=
          blockStart_mono hall
        rw [← contents_length, blockStart_length, ← L.size, ← h.watermark] at hmono
        have := hreader.2
        omega
      obtain ⟨e, t, hback, hsmooth, hs⟩ := h.downloads hleft
      refine ⟨e, t, hsmooth, fun z hz => ?_, hs, ?_⟩
      · rw [hz] at hback
        exact hback.elim
      · refine (h.step L hsmooth hs).2.resolve_right fun hw => ?_
        rw [hw.1] at hback
        exact hback
  | reading z =>
    rw [hphase] at hreader
    obtain ⟨t, ht, -⟩ := h.fetch L hreader.1 hreader.2
    have hs : s.step .fetch = some t := by simp only [StreamReader.step, hphase, ht]
    refine ⟨.fetch, t, trivial, fun z hz => (by cases hz), hs, ?_⟩
    exact (h.step L (e := .fetch) trivial hs).2.resolve_right fun hw => by cases hw.1

end Live

/-- The fragments of a file are downloaded and read in any interleaving, without a failure. No
read gets to a fragment that is not complete, and none raises an exception. What was read is
the beginning of the file, in pieces that are not empty; at the first empty result it is the
whole file, and every temporary file is closed. The end comes: every step brings it nearer but
a wait in vain, and until then there is such a step, whatever size is asked for. -/
theorem streamed_download_reproduces_file {parts : List Part} {fsize : Nat} (hne : parts ≠ [])
    (hdata : ∀ p ∈ parts, p.data ≠ [] ∧ p.stop = p.start + p.data.length)
    (hfile : checkLoop 0 0 (parts.map Part.info) = some fsize) {s : StreamReader}
    (hs : Streams parts fsize s) :
    (∀ s', s.step .fetch = some s' → ∃ x, s.completed[s'.curReadFragment]? = some (some x)) ∧
      (∀ e, s.ended = some e → e = .eof) ∧
      (∀ b ∈ s.results, b ≠ []) ∧ s.results.flatten <+: (contents parts).flatten ∧
      (s.ended = some .eof → s.results.flatten = (contents parts).flatten ∧
        s.files.length = parts.length ∧ ∀ f ∈ s.files, f.closed = true) ∧
      (∀ e s', e.Smooth parts s → s.step e = some s' →
        s'.left < s.left ∨ e = .wake ∧ s' = s) ∧
      (s.ended = none → ∀ size, 0 < size → ∃ e s', e.Smooth parts s ∧
        (∀ z, e = .read z → z = size) ∧ s.step e = some s' ∧ s'.left < s.left) := by
  have L := Layout.of_checkLoop hfile hdata
  rcases Safe.of_streams L hne hs with ⟨stored, done, hlive⟩ | hdone
  · have hgoing := hlive.going
    refine ⟨fun s' => hlive.fetch_completed L, ?_, hlive.nonempty, ?_, ?_, ?_, ?_⟩
    · intro e he
      rw [hgoing] at he
      cases he
    · rw [hlive.read_eq]
      exact List.take_prefix _ _
    · intro he
      rw [hgoing] at he
      cases he
    · intro e s' hsmooth hstep
      exact (hlive.step L hsmooth hstep).2
    · intro _ size hsize
      exact hlive.progress L hsize
  · have heof := hdone.eof
    refine ⟨?_, ?_, hdone.nonempty, ?_, ?_, ?_, ?_⟩
    · intro s' hstep
      simp only [StreamReader.step, hdone.idle] at hstep
      cases hstep
    · intro e he
      exact Option.some.inj (he.symm.trans heof)
    · exact hdone.read_eq ▸ List.prefix_rfl
    · intro _
      exact ⟨hdone.read_eq, hdone.files_length, hdone.closed⟩
    · intro e s' hsmooth hstep
      exact .inl (hdone.step hsmooth hstep).2
    · intro hnone
      rw [heof] at hnone
      cases hnone

/-- The first read waits for the first fragment, and the second one asks for more than is left
of it. -/
theorem streamed_download_reproduces_file_two :
    ∃ s, Streams [⟨0, 0, 3, false, [1, 2, 3]⟩, ⟨1, 3, 5, true, [4, 5]⟩] 5 s ∧
      s.ended = some .eof ∧ s.results = [[1, 2], [3], [4, 5]] ∧
      s.results.flatten = [1, 2, 3, 4, 5] ∧ s.files.length = 2 ∧
      ∀ f ∈ s.files, f.closed = true := by
  let parts : List Part := [⟨0, 0, 3, false, [1, 2, 3]⟩, ⟨1, 3, 5, true, [4, 5]⟩]
  let smoothStep (s : StreamReader) (e : ReaderEvent) : Option StreamReader :=
    if e.Smooth parts s then s.step e else none
  let events : List ReaderEvent := [.read 2, .wake, .download (some [1, 2, 3]), .wake, .publish,
    .wake, .fetch, .clock false, .read 2, .wake, .download (some [4, 5]), .fetch, .publish,
    .read 2, .fetch, .read 2]
  have hrun : (play smoothStep events (.start 5 (parts.map Part.info))).map
      (fun s => (s.ended, s.results)) = some (some .eof, [[1, 2], [3], [4, 5]]) := by
    decide +kernel
  obtain ⟨s, hplay, hend⟩ := Option.map_eq_some_iff.mp hrun
  obtain ⟨heof, hresults⟩ := Prod.mk.inj hend
  have hs : Streams parts 5 s := by
    refine Reach.play ?_ events (.init rfl) hplay
    intro s e s' hstep
    exact Option.ite_none_right_eq_some.mp hstep
  obtain ⟨-, -, -, -, hall, -⟩ :=
    streamed_download_reproduces_file (List.cons_ne_nil _ _) (by decide) (by decide) hs
  exact ⟨s, hs, heof, hresults, hall heof⟩

end Speedy.Driver
