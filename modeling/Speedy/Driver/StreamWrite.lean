import Mathlib.Data.List.Perm.Basic
import Speedy.Driver.Multipart
import Speedy.Lib.Run

/-! # The registry driver: writing a stream

`stream_write` pushes the buffers of a stream one after the other. Each part that fills up is
handed to a greenlet of its own, `_upload_part`, which may end at any later time; when the
stream has ended, `wait_all_part_complete` polls two counters until they account for every
part. Whether the server got the whole file is then decided by `_check_fragments`, from the
records of the parts in whatever order they are listed. -/
namespace Speedy.Driver
open Speedy.Lib Speedy.Imageserver

/-- What `conn.upload` came to: `resp.status_code`, or an exception -/
inductive PartResult where
  | status (code : Nat)
  | raised
  deriving DecidableEq, Repr

/-- How `wait_all_part_complete` ends; `_check_error` deletes the path before it raises. -/
inductive WaitEnd where
  | returned
  | uploadFailed
  deriving DecidableEq, Repr

/-- `stream_write` and the greenlets it has spawned -/
structure StreamWriter where
  ctx : UploadContext
  /-- What `fp.read` is still to return -/
  unread : List Bytes
  /-- The parts whose `_upload_part` is not over -/
  running : List Part
  /-- The parts whose `_upload_part` is over, and what it came to -/
  finished : List (Part × PartResult)
  successParts : Nat
  failedParts : Nat
  ended : Option WaitEnd
  deriving DecidableEq, Repr

inductive WriterEvent where
  | push
  | uploaded (i : Nat) (r : PartResult)
  | poll
  deriving DecidableEq, Repr

namespace StreamWriter

def start (bufs : List Bytes) : StreamWriter := ⟨.new, bufs, [], [], 0, 0, none⟩

def refreshPartCompleted (w : StreamWriter) : PartResult → StreamWriter
  | .status 200 => { w with successParts := w.successParts + 1 }
  | _ => { w with failedParts := w.failedParts + 1 }

def finishedCount (w : StreamWriter) : Nat := w.successParts + w.failedParts

def checkError (w : StreamWriter) : WaitEnd :=
  if w.failedParts > 0 then .uploadFailed else .returned

/-- The next buffer is pushed, the `i`-th of the running uploads ends, or
`wait_all_part_complete` wakes up. -/
def step (fragmentSize : Nat) (w : StreamWriter) : WriterEvent → Option StreamWriter
  | .push =>
    match w.unread with
    | [] => none
    | buf :: rest =>
      if buf = [] then none
      else
        let pushed := pushContent fragmentSize w.ctx buf (moreData rest)
        some { w with ctx := pushed.1, unread := rest, running := w.running ++ pushed.2.toList }
  | .uploaded i r =>
    match w.running[i]? with
    | none => none
    | some p =>
      some { w.refreshPartCompleted r with
        running := w.running.eraseIdx i, finished := w.finished ++ [(p, r)] }
  | .poll =>
    if moreData w.unread = true ∨ w.ended ≠ none then none
    else if w.finishedCount ≥ w.ctx.curFragment then some { w with ended := some w.checkError }
    else some w

end StreamWriter

/-- The states of `stream_write` over a stream that is read in the buffers `bufs` -/
def Writes (fragmentSize : Nat) (bufs : List Bytes) : StreamWriter → Prop :=
  Reach (· = StreamWriter.start bufs) fun w e w' => w.step fragmentSize e = some w'

/-! ## The parts are slices of the stream -/

theorem streamWrite_cons (fragmentSize : Nat) (ctx : UploadContext) {buf : Bytes}
    (rest : List Bytes) (hbuf : buf ≠ []) :
    streamWrite fragmentSize ctx (buf :: rest) =
      (pushContent fragmentSize ctx buf (moreData rest)).2.toList ++
        streamWrite fragmentSize (pushContent fragmentSize ctx buf (moreData rest)).1 rest :=
  if_neg hbuf

theorem pushContent_cases (fragmentSize : Nat) (ctx : UploadContext) (buf : Bytes) (more : Bool) :
    pushContent fragmentSize ctx buf more =
        (⟨ctx.curFragment + 1, ctx.curOffset + (ctx.file ++ buf).length, []⟩,
          some ⟨ctx.curFragment, ctx.curOffset, ctx.curOffset + (ctx.file ++ buf).length, !more,
            ctx.file ++ buf⟩) ∨
      pushContent fragmentSize ctx buf more = ({ ctx with file := ctx.file ++ buf }, none) := by
  simp only [pushContent]
  split
  · exact .inl rfl
  · exact .inr rfl

theorem pushContent_curFragment (fragmentSize : Nat) (ctx : UploadContext) (buf : Bytes)
    (more : Bool) :
    (pushContent fragmentSize ctx buf more).1.curFragment =
      ctx.curFragment + (pushContent fragmentSize ctx buf more).2.toList.length := by
  rcases pushContent_cases fragmentSize ctx buf more with h | h <;> rw [h] <;> rfl

/-- The stream, from the offset of the current part on, is what the file holds and what is
still to be pushed. -/
theorem streamWrite_slice (fragmentSize : Nat) (ctx : UploadContext) (bufs : List Bytes) :
    ∀ p ∈ streamWrite fragmentSize ctx bufs, ctx.curOffset ≤ p.start ∧
      p.data = ((ctx.file ++ bufs.flatten).drop (p.start - ctx.curOffset)).take
        (p.stop - p.start) := by
  induction bufs generalizing ctx with
  | nil =>
    intro p hp
    cases hp
  | cons buf rest ih =>
    intro p hp
    by_cases hbuf : buf = []
    · rw [streamWrite, if_pos hbuf] at hp
      cases hp
    rw [streamWrite_cons _ _ _ hbuf] at hp
    rw [List.flatten_cons, ← List.append_assoc]
    rcases pushContent_cases fragmentSize ctx buf (moreData rest) with h | h
    · rw [h, Option.toList_some, List.singleton_append, List.mem_cons] at hp
      rcases hp with rfl | hp
      · refine ⟨Nat.le_refl _, ?_⟩
        rw [Nat.sub_self, List.drop_zero, Nat.add_sub_cancel_left, List.take_left]
      · -- a later part lies behind this one
        obtain ⟨hle, hdata⟩ := ih _ p hp
        dsimp only at hle hdata
        have hdrop : p.start - ctx.curOffset =
            (ctx.file ++ buf).length + (p.start - (ctx.curOffset + (ctx.file ++ buf).length)) := by
          omega
        refine ⟨by omega, ?_⟩
        rw [hdata, hdrop, List.drop_length_add_append, List.nil_append]
    · rw [h] at hp
      exact ih _ p hp

/-! ## The books of the uploads -/

namespace StreamWriter

/-- The parts that were spawned are over or running, and the counters count those that are
over. -/
structure Books (fragmentSize : Nat) (bufs : List Bytes) (w : StreamWriter) : Prop where
  nonempty : ∀ b ∈ w.unread, b ≠ []
  parts : (w.finished.map Prod.fst ++ w.running ++ streamWrite fragmentSize w.ctx w.unread).Perm
    (streamWrite fragmentSize .new bufs)
  spawned : w.ctx.curFragment = w.finished.length + w.running.length
  success : w.successParts = w.finished.countP fun x => x.2 = .status 200
  counted : w.finishedCount = w.finished.length
  ended : ∀ e, w.ended = some e → moreData w.unread = false ∧ w.running = [] ∧ e = w.checkError

variable {fragmentSize : Nat} {bufs : List Bytes} {w w' : StreamWriter}

theorem refreshPartCompleted_spec (w : StreamWriter) (r : PartResult) :
    ∃ a b, w.refreshPartCompleted r = { w with successParts := a, failedParts := b } ∧
      a = w.successParts + (if r = .status 200 then 1 else 0) ∧
      a + b = w.finishedCount + 1 := by
  unfold refreshPartCompleted finishedCount
  split
  · exact ⟨w.successParts + 1, w.failedParts, rfl, rfl, by omega⟩
  · rename_i hr
    exact ⟨w.successParts, w.failedParts + 1, rfl, by rw [if_neg hr]; rfl, by omega⟩

theorem Books.start (hbufs : ∀ b ∈ bufs, b ≠ []) : Books fragmentSize bufs (start bufs) where
  nonempty := hbufs
  parts := .rfl
  spawned := rfl
  success := rfl
  counted := rfl
  ended := fun e h => by cases h

theorem Books.push {buf : Bytes} {rest : List Bytes} (h : Books fragmentSize bufs w)
    (hunread : w.unread = buf :: rest) :
    Books fragmentSize bufs { w with
      ctx := (pushContent fragmentSize w.ctx buf (moreData rest)).1
      unread := rest
      running := w.running ++
        (pushContent fragmentSize w.ctx buf (moreData rest)).2.toList } := by
  have hne : ∀ b ∈ buf :: rest, b ≠ [] := hunread ▸ h.nonempty
  obtain ⟨hbuf, hrest⟩ := List.forall_mem_cons.mp hne
  refine ⟨hrest, ?_, ?_, h.success, h.counted, ?_⟩
  · have hparts := h.parts
    rw [hunread, streamWrite_cons _ _ _ hbuf] at hparts
    simpa only [List.append_assoc] using hparts
  · have hspawned := h.spawned
    rw [pushContent_curFragment, List.length_append]
    dsimp only
    omega
  · -- a call that has ended had pushed everything
    intro e he
    have hmore := (h.ended e he).1
    rw [hunread] at hmore
    exact absurd hbuf (by simpa [moreData] using hmore)

theorem Books.uploaded {i : Nat} {p : Part} (h : Books fragmentSize bufs w)
    (hp : w.running[i]? = some p) (r : PartResult) :
    Books fragmentSize bufs { w.refreshPartCompleted r with
      running := w.running.eraseIdx i, finished := w.finished ++ [(p, r)] } := by
  obtain ⟨a, b, hw, ha, hab⟩ := w.refreshPartCompleted_spec r
  rw [hw]
  have hlt : i < w.running.length := (List.getElem?_eq_some_iff.mp hp).1
  refine ⟨h.nonempty, ?_, ?_, ?_, ?_, ?_⟩
  · have hrun : (p :: w.running.eraseIdx i).Perm w.running := by
      obtain ⟨_, rfl⟩ := List.getElem?_eq_some_iff.mp hp
      exact List.getElem_cons_eraseIdx_perm hlt
    refine List.Perm.trans (List.Perm.append_right _ ?_) h.parts
    rw [List.map_append, List.append_assoc]
    exact hrun.append_left _
  · have hspawned := h.spawned
    simp only [List.length_append, List.length_singleton, List.length_eraseIdx_of_lt hlt]
    omega
  · show a = _
    rw [ha, h.success, List.countP_append]
    congr 1
    by_cases hr : r = .status 200 <;> simp [hr]
  · show a + b = _
    rw [hab, h.counted, List.length_append]
    rfl
  · -- nothing runs any more when the call has ended
    intro e he
    have hrun := (h.ended e he).2.1
    rw [hrun] at hlt
    exact absurd hlt (Nat.not_lt_zero i)

theorem Books.poll (h : Books fragmentSize bufs w) (hmore : moreData w.unread = false)
    (hcount : w.ctx.curFragment ≤ w.finishedCount) :
    Books fragmentSize bufs { w with ended := some w.checkError } := by
  refine ⟨h.nonempty, h.parts, h.spawned, h.success, h.counted, ?_⟩
  intro e he
  have hspawned := h.spawned
  have hcounted := h.counted
  exact ⟨hmore, List.eq_nil_of_length_eq_zero (by dsimp only; omega), (Option.some.inj he).symm⟩

theorem Books.step {e : WriterEvent} (h : Books fragmentSize bufs w)
    (hs : w.step fragmentSize e = some w') : Books fragmentSize bufs w' := by
  cases e with
  | push =>
    simp only [StreamWriter.step] at hs
    split at hs
    · cases hs
    · rename_i buf rest hunread
      split at hs
      · cases hs
      · cases hs
        exact h.push hunread
  | uploaded i r =>
    simp only [StreamWriter.step] at hs
    split at hs
    · cases hs
    · rename_i p hp
      cases hs
      exact h.uploaded hp r
  | poll =>
    simp only [StreamWriter.step] at hs
    split at hs
    · cases hs
    · rename_i hopen
      split at hs
      · rename_i hcount
        cases hs
        exact h.poll (by simpa using fun hc => hopen (.inl hc)) hcount
      · cases hs
        exact h

theorem Books.of_writes (hbufs : ∀ b ∈ bufs, b ≠ []) (h : Writes fragmentSize bufs w) :
    Books fragmentSize bufs w := by
  refine Reach.invariant ?_ ?_ h
  · intro w hw
    rw [hw]
    exact .start hbufs
  · intro w e w' _ hw hs
    exact hw.step hs

/-- The stream is read to its end exactly when no part is to come. -/
theorem Books.streamWrite_eq_nil (h : Books fragmentSize bufs w) :
    streamWrite fragmentSize w.ctx w.unread = [] ↔ moreData w.unread = false := by
  cases hunread : w.unread with
  | nil => exact iff_of_true rfl rfl
  | cons buf rest =>
    have hne : ∀ b ∈ buf :: rest, b ≠ [] := hunread ▸ h.nonempty
    have htiles := streamWrite_tiles fragmentSize w.ctx (List.cons_ne_nil buf rest) hne
    refine iff_of_false (fun hnil => htiles.ne_nil (by rw [hnil]; rfl)) ?_
    simpa [moreData] using hne buf List.mem_cons_self

/-- Every part was uploaded exactly when nothing is left to push and nothing runs. -/
theorem Books.uploaded_iff (h : Books fragmentSize bufs w) :
    (w.finished.map Prod.fst).Perm (streamWrite fragmentSize .new bufs) ↔
      moreData w.unread = false ∧ w.running = [] := by
  rw [← h.streamWrite_eq_nil]
  constructor
  · intro hperm
    have hlen := (h.parts.trans hperm.symm).length_eq
    simp only [List.length_append] at hlen
    exact ⟨List.eq_nil_of_length_eq_zero (by omega), List.eq_nil_of_length_eq_zero (by omega)⟩
  · intro hnil
    have hparts := h.parts
    rwa [hnil.1, hnil.2, List.append_nil, List.append_nil] at hparts

theorem Books.checkError_eq (h : Books fragmentSize bufs w) :
    w.checkError = .returned ↔ ∀ x ∈ w.finished, x.2 = .status 200 := by
  have hsuccess := h.success
  have hcounted := h.counted
  unfold finishedCount at hcounted
  have hall : w.finished.countP (fun x => x.2 = .status 200) = w.finished.length ↔
      ∀ x ∈ w.finished, x.2 = .status 200 := by
    simp [List.countP_eq_length]
  rw [← hall, ← hsuccess]
  unfold checkError
  split
  · exact iff_of_false (fun hc => by cases hc) (by omega)
  · exact iff_of_true rfl (by omega)

end StreamWriter

/-! ## A part of a file is not a file -/

/-- The fragment marked last has the highest index. -/
theorem Tiles.index_of_isLast {total i off : Nat} {fs : List FragmentInfo}
    (h : Tiles total i off fs) : ∀ f ∈ fs, f.isLast = true → f.index + 1 = i + fs.length := by
  induction fs generalizing i off with
  | nil => exact h.elim
  | cons f fs ih =>
    cases fs with
    | nil =>
      refine List.forall_mem_singleton.mpr fun _ => ?_
      rw [h.1, List.length_singleton]
    | cons g fs =>
      obtain ⟨-, -, -, hl, hrest⟩ := h
      refine List.forall_mem_cons.mpr ⟨fun hf => ?_, fun f' hf' hlast => ?_⟩
      · rw [hl] at hf
        cases hf
      · rw [ih hrest f' hf' hlast, List.length_cons (a := f)]
        omega

theorem checkLoop_last {total : Nat} {gs : List FragmentInfo} {last : FragmentInfo}
    (h : checkLoop 0 0 gs = some total) (hlast : gs.getLast? = some last) :
    last.index + 1 = gs.length := by
  have hpos : gs.length ≠ 0 := by
    intro hc
    rw [List.eq_nil_of_length_eq_zero hc] at hlast
    cases hlast
  have hmap : (gs.map FragmentInfo.index).getLast? = some last.index := by
    rw [List.getLast?_map, hlast]
    rfl
  rw [checkLoop_index h, List.getLast?_range', if_neg hpos, Option.some.injEq] at hmap
  omega

/-- As long as a record of a file is missing, the file is not accepted. -/
theorem Tiles.checkFragments_ne {total off : Nat} {infos fs : List FragmentInfo}
    (h : Tiles total 0 off infos) (hsub : fs.Subperm infos) (hlt : fs.length < infos.length)
    (r : Nat × List FragmentInfo) : Driver.checkFragments fs ≠ .ok (some r) := by
  intro hok
  obtain ⟨hp, hloop, last, hlast, hmark⟩ := checkFragments_eq_ok_iff.mp hok
  have hmem : last ∈ infos := hsub.subset (hp.mem_iff.mp (List.mem_of_getLast? hlast))
  have hindex := h.index_of_isLast last hmem hmark
  have hcount := checkLoop_last hloop hlast
  rw [hp.length_eq] at hcount
  omega

/-! ## The whole of `stream_write` -/

theorem Tiles.index_eq {total : Nat} {fs : List FragmentInfo} (h : Tiles total 0 0 fs) :
    fs.map FragmentInfo.index = List.range fs.length := by
  rw [checkLoop_index h.checkLoop, List.range_eq_range']

/-- The parts of a stream are its consecutive slices. In every run `wait_all_part_complete`
ends only when each part was uploaded, and the first time it wakes up after that; it returns
if every upload got status 200 and raises otherwise. `_check_fragments` accepts the records of
the parts in any order, and no part of them. -/
theorem stream_write_fragments_cover (fragmentSize : Nat) {bufs : List Bytes} (hne : bufs ≠ [])
    (hbufs : ∀ b ∈ bufs, b ≠ []) :
    let parts := streamWrite fragmentSize .new bufs
    let infos := parts.map Part.info
    let total := bufs.flatten.length
    infos.map FragmentInfo.index = List.range infos.length ∧ Tiles total 0 0 infos ∧
      (∀ p ∈ parts, p.data = (bufs.flatten.drop p.start).take (p.stop - p.start)) ∧
      (∀ w, Writes fragmentSize bufs w → ∀ e, w.ended = some e →
        (w.finished.map Prod.fst).Perm parts ∧
          (e = .returned ↔ ∀ x ∈ w.finished, x.2 = .status 200)) ∧
      (∀ w, Writes fragmentSize bufs w → w.ended = none → (w.finished.map Prod.fst).Perm parts →
        ∃ w' e, w.step fragmentSize .poll = some w' ∧ w'.ended = some e ∧
          (e = .returned ↔ ∀ x ∈ w.finished, x.2 = .status 200)) ∧
      (∀ fs : List FragmentInfo, fs.Perm infos →
        checkFragments fs = .ok (some (total, infos))) ∧
      ∀ fs : List FragmentInfo, fs.Subperm infos → fs.length < infos.length →
        ∀ r, checkFragments fs ≠ .ok (some r) := by
  intro parts infos total
  have htiles : Tiles total 0 0 infos := by
    have h := streamWrite_tiles fragmentSize .new hne hbufs
    have htotal : UploadContext.new.curOffset + UploadContext.new.file.length +
        (bufs.map List.length).sum = total := by
      rw [← List.length_flatten]
      exact Nat.zero_add _
    rwa [htotal] at h
  refine ⟨htiles.index_eq, htiles, ?_, ?_, ?_, fun fs => htiles.checkFragments,
    fun fs => htiles.checkFragments_ne⟩
  · intro p hp
    exact (streamWrite_slice fragmentSize .new bufs p hp).2
  · intro w hw e he
    have hbooks := StreamWriter.Books.of_writes hbufs hw
    obtain ⟨hmore, hrun, rfl⟩ := hbooks.ended e he
    exact ⟨hbooks.uploaded_iff.mpr ⟨hmore, hrun⟩, hbooks.checkError_eq⟩
  · intro w hw hopen hall
    have hbooks := StreamWriter.Books.of_writes hbufs hw
    obtain ⟨hmore, hrun⟩ := hbooks.uploaded_iff.mp hall
    have hcount : w.finishedCount ≥ w.ctx.curFragment := by
      rw [hbooks.counted, hbooks.spawned, hrun]
      exact Nat.le_refl _
    refine ⟨{ w with ended := some w.checkError }, w.checkError, ?_, rfl, hbooks.checkError_eq⟩
    simp [StreamWriter.step, hmore, hopen, hcount]

/-- Three buffers make two parts; the second one is uploaded before the first. -/
theorem stream_write_fragments_cover_two :
    (streamWrite 2 .new [[1], [2, 3], [4]]).map Part.info =
        [⟨0, 0, 3, false⟩, ⟨1, 3, 4, true⟩] ∧
      (∃ w, Writes 2 [[1], [2, 3], [4]] w ∧ w.ended = some .returned ∧
        ∀ x ∈ w.finished, x.2 = .status 200) ∧
      checkFragments [⟨1, 3, 4, true⟩, ⟨0, 0, 3, false⟩] =
        .ok (some (4, [⟨0, 0, 3, false⟩, ⟨1, 3, 4, true⟩])) ∧
      ∀ r, checkFragments [⟨1, 3, 4, true⟩] ≠ .ok (some r) := by
  have hinfos : (streamWrite 2 .new [[1], [2, 3], [4]]).map Part.info =
      [⟨0, 0, 3, false⟩, ⟨1, 3, 4, true⟩] := by decide
  obtain ⟨-, -, -, hended, -, hperm, hsub⟩ := stream_write_fragments_cover 2
    (List.cons_ne_nil [1] [[2, 3], [4]]) (by decide)
  rw [hinfos] at hperm hsub
  let events : List WriterEvent :=
    [.push, .push, .push, .uploaded 1 (.status 200), .poll, .uploaded 0 (.status 200), .poll]
  have hrun : ((play (StreamWriter.step 2) events (.start [[1], [2, 3], [4]])).map
      StreamWriter.ended) = some (some .returned) := by decide
  obtain ⟨w, hplay, hw⟩ := Option.map_eq_some_iff.mp hrun
  have hreach : Writes 2 [[1], [2, 3], [4]] w :=
    Reach.play (fun _ _ _ h => h) events (.init rfl) hplay
  refine ⟨hinfos, ⟨w, hreach, hw, (hended w hreach _ hw).2.mp rfl⟩, ?_, ?_⟩
  · exact hperm _ (List.Perm.swap ..)
  · exact hsub _ (List.Sublist.subperm (List.sublist_cons_self _ _)) (by decide)

end Speedy.Driver
