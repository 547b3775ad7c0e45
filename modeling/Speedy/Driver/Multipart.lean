import Mathlib.Data.List.Sort
import Speedy.Imageserver.Handlers
import Speedy.Lib.ByteStore

/-! # The registry driver: files in fragments

`stream_write` cuts a stream into fragments as the buffers come in, and
`getfileinfo` accepts a list of fragments only if it is a complete file. -/
namespace Speedy.Driver
open Speedy.Lib Speedy.Imageserver

/-- The arguments of `_upload_part`, and the content of its temporary file -/
structure Part where
  index : Nat
  start : Nat
  stop : Nat
  isLast : Bool
  data : Bytes
  deriving DecidableEq, Repr

/-- `_SpeedyMultiPartUploadContext`, with the content of the file that is being filled -/
structure UploadContext where
  curFragment : Nat
  curOffset : Nat
  file : Bytes
  deriving DecidableEq, Repr

def UploadContext.new : UploadContext := ⟨0, 0, []⟩

def pushContent (fragmentSize : Nat) (ctx : UploadContext) (buf : Bytes) (moreData : Bool) :
    UploadContext × Option Part :=
  let file := ctx.file ++ buf
  let fsize := file.length
  if fsize ≥ fragmentSize ∨ moreData = false then
    (⟨ctx.curFragment + 1, ctx.curOffset + fsize, []⟩,
      some ⟨ctx.curFragment, ctx.curOffset, ctx.curOffset + fsize, !moreData, file⟩)
  else ({ ctx with file := file }, none)

/-- Whether the next `fp.read` returns something -/
def moreData : List Bytes → Bool
  | [] => false
  | buf :: _ => buf ≠ []

/-- The loop of `stream_write` over the results of `fp.read`; the parts that are
uploaded -/
def streamWrite (fragmentSize : Nat) : UploadContext → List Bytes → List Part
  | _, [] => []
  | ctx, buf :: rest =>
    if buf = [] then []
    else
      let pushed := pushContent fragmentSize ctx buf (moreData rest)
      pushed.2.toList ++ streamWrite fragmentSize pushed.1 rest

/-- A fragment as the client gets it -/
structure FragmentInfo where
  index : Nat
  start : Nat
  stop : Nat
  isLast : Bool
  deriving DecidableEq, Repr

def Part.info (p : Part) : FragmentInfo := ⟨p.index, p.start, p.stop, p.isLast⟩

def fragmentInfoOf (v : MetaInfoValue) : FragmentInfo :=
  ⟨v.index.toNat, v.start.toNat, v.stop.toNat, v.isLast⟩

inductive DriverError where
  | indexError
  | uncompleted
  | fragmentInfo
  | fileNotFound
  | unknownStatus (code : Nat)
  | retryFailed
  deriving DecidableEq, Repr

/-- The loop of `_check_fragments`; the result is `max_range`. -/
def checkLoop : Nat → Nat → List FragmentInfo → Option Nat
  | _, maxRange, [] => some maxRange
  | fragcount, maxRange, f :: fs =>
    if f.index ≠ fragcount ∨ f.start ≠ maxRange then none
    else checkLoop (fragcount + 1) f.stop fs

def checkFragments (fragments : List FragmentInfo) :
    Except DriverError (Option (Nat × List FragmentInfo)) :=
  let sorted := fragments.insertionSort fun f g => f.index ≤ g.index
  match checkLoop 0 0 sorted with
  | none => .ok none
  | some maxRange =>
    match sorted.getLast? with
    | none => .error .indexError
    | some last => if last.isLast then .ok (some (maxRange, sorted)) else .error .uncompleted

def getfileinfo : FileInfoResponse → Except DriverError (Nat × List FragmentInfo)
  | .broken => .error .retryFailed
  | .status 404 => .error .fileNotFound
  | .status code => .error (.unknownStatus code)
  | .fragmentInfo values =>
    match checkFragments (values.map fragmentInfoOf) with
    | .error e => .error e
    | .ok none => .error .fragmentInfo
    | .ok (some (maxRange, fragments)) =>
      if maxRange = 0 ∨ fragments = [] then .error .fragmentInfo else .ok (maxRange, fragments)

/-- Fragments from index `i` and offset `off` on that end at `total`: contiguous,
none empty, and only the last one marked. -/
def Tiles (total : Nat) : Nat → Nat → List FragmentInfo → Prop
  | _, _, [] => False
  | i, off, [f] => f.index = i ∧ f.start = off ∧ off < f.stop ∧ f.stop = total ∧ f.isLast = true
  | i, off, f :: g :: fs =>
    f.index = i ∧ f.start = off ∧ off < f.stop ∧ f.isLast = false ∧
      Tiles total (i + 1) f.stop (g :: fs)

/-! ## What `_check_fragments` accepts -/

section Check
variable {total i off : Nat} {f : FragmentInfo} {fs gs : List FragmentInfo}

theorem checkLoop_cons : checkLoop i off (f :: fs) = some total ↔
    f.index = i ∧ f.start = off ∧ checkLoop (i + 1) f.stop fs = some total := by
  simp only [checkLoop]
  split
  · rename_i hne
    refine iff_of_false (fun h => by cases h) fun h => ?_
    exact hne.elim (fun hi => hi h.1) fun ho => ho h.2.1
  · rename_i hok
    obtain ⟨hi, ho⟩ := not_or.mp hok
    exact ⟨fun h => ⟨not_not.mp hi, not_not.mp ho, h⟩, fun h => h.2.2⟩

/-- The indices count up. -/
theorem checkLoop_index (h : checkLoop i off fs = some total) :
    fs.map FragmentInfo.index = List.range' i fs.length := by
  induction fs generalizing i off with
  | nil => rfl
  | cons f fs ih =>
    obtain ⟨hi, -, hrest⟩ := checkLoop_cons.mp h
    rw [List.map_cons, ih hrest, hi, List.length_cons, List.range'_succ]

theorem checkLoop_sorted (h : checkLoop i off fs = some total) :
    fs.Pairwise fun f g => f.index < g.index := by
  refine List.pairwise_map.mp ?_
  rw [checkLoop_index h]
  exact List.pairwise_lt_range'

/-- Sorting finds the only order in which the indices count up. -/
theorem insertionSort_eq (hp : gs.Perm fs) (hs : gs.Pairwise fun f g => f.index < g.index) :
    fs.insertionSort (fun f g => f.index ≤ g.index) = gs := by
  have : IsTrans FragmentInfo fun f g => f.index ≤ g.index := ⟨fun _ _ _ => Nat.le_trans⟩
  have : Std.Total fun f g : FragmentInfo => f.index ≤ g.index := ⟨fun f g => Nat.le_total ..⟩
  refine List.Perm.eq_of_pairwise ?_ (List.pairwise_insertionSort _ _)
    (hs.imp fun hlt => hlt.le) ((List.perm_insertionSort _ _).trans hp.symm)
  -- equal indices belong to the same fragment
  intro f g hf hg hfg hgf
  have hf' : f ∈ gs := hp.mem_iff.mpr ((List.perm_insertionSort _ _).mem_iff.mp hf)
  have hinj := List.inj_on_of_nodup_map (f := FragmentInfo.index)
    (List.pairwise_map.mpr (hs.imp fun hlt => hlt.ne))
  exact hinj hf' hg (Nat.le_antisymm hfg hgf)

/-- What is returned is the list in another order, in which the fragments follow each other
and the last one is marked. -/
theorem checkFragments_eq_ok_iff :
    checkFragments fs = .ok (some (total, gs)) ↔
      gs.Perm fs ∧ checkLoop 0 0 gs = some total ∧
        ∃ last, gs.getLast? = some last ∧ last.isLast = true := by
  constructor
  · intro h
    simp only [checkFragments] at h
    split at h
    · cases h
    · rename_i hloop
      split at h
      · cases h
      · rename_i last hlast
        split at h
        · rename_i hl
          cases h
          exact ⟨List.perm_insertionSort _ _, hloop, last, hlast, hl⟩
        · cases h
  · intro h
    obtain ⟨hp, hloop, last, hlast, hl⟩ := h
    simp [checkFragments, insertionSort_eq hp (checkLoop_sorted hloop), hloop, hlast, hl]

end Check

section Tiles
variable {total i off : Nat} {fs : List FragmentInfo}

theorem Tiles.checkLoop (h : Tiles total i off fs) : checkLoop i off fs = some total := by
  induction fs generalizing i off with
  | nil => exact h.elim
  | cons f fs ih =>
    cases fs with
    | nil =>
      obtain ⟨hi, ho, -, ht, -⟩ := h
      exact checkLoop_cons.mpr ⟨hi, ho, congrArg some ht⟩
    | cons g fs =>
      obtain ⟨hi, ho, -, -, hrest⟩ := h
      exact checkLoop_cons.mpr ⟨hi, ho, ih hrest⟩

theorem Tiles.cons {f : FragmentInfo} (hi : f.index = i) (ho : f.start = off) (hlt : off < f.stop)
    (hl : f.isLast = false) (h : Tiles total (i + 1) f.stop fs) : Tiles total i off (f :: fs) := by
  cases fs with
  | nil => exact h.elim
  | cons g fs => exact ⟨hi, ho, hlt, hl, h⟩

theorem Tiles.ne_nil (h : Tiles total i off fs) : fs ≠ [] := by
  rintro rfl
  exact h

theorem Tiles.lt (h : Tiles total i off fs) : off < total := by
  induction fs generalizing i off with
  | nil => exact h.elim
  | cons f fs ih =>
    cases fs with
    | nil =>
      obtain ⟨-, -, hlt, ht, -⟩ := h
      exact ht ▸ hlt
    | cons g fs => exact Nat.lt_trans h.2.2.1 (ih h.2.2.2.2)

theorem Tiles.index_le (h : Tiles total i off fs) : ∀ f ∈ fs, i ≤ f.index := by
  induction fs generalizing i off with
  | nil => exact h.elim
  | cons f fs ih =>
    cases fs with
    | nil => exact List.forall_mem_singleton.mpr h.1.ge
    | cons g fs =>
      refine List.forall_mem_cons.mpr ⟨h.1.ge, fun f' hf' => ?_⟩
      exact Nat.le_of_succ_le (ih h.2.2.2.2 f' hf')

theorem Tiles.sorted (h : Tiles total i off fs) : fs.Pairwise fun f g => f.index < g.index := by
  induction fs generalizing i off with
  | nil => exact .nil
  | cons f fs ih =>
    cases fs with
    | nil => exact List.pairwise_singleton ..
    | cons g fs =>
      obtain ⟨hi, -, -, -, hrest⟩ := h
      exact List.pairwise_cons.mpr ⟨fun f' hf' => hi ▸ hrest.index_le f' hf', ih hrest⟩

theorem Tiles.getLast (h : Tiles total i off fs) :
    ∃ last, fs.getLast? = some last ∧ last.isLast = true := by
  induction fs generalizing i off with
  | nil => exact h.elim
  | cons f fs ih =>
    cases fs with
    | nil => exact ⟨f, rfl, h.2.2.2.2⟩
    | cons g fs =>
      rw [List.getLast?_cons_cons]
      exact ih h.2.2.2.2

/-- Only a file of one fragment has one with index 0 that is the last. -/
theorem Tiles.not_single (h : Tiles total i off fs) (h2 : 2 ≤ fs.length) :
    ∀ f ∈ fs, ¬ (f.isLast = true ∧ f.index = i) := by
  cases fs with
  | nil => exact h.elim
  | cons f fs =>
    cases fs with
    | nil => simp at h2
    | cons g fs =>
      obtain ⟨-, -, -, hl, hrest⟩ := h
      refine List.forall_mem_cons.mpr ⟨fun hf => ?_, fun f' hf' hf => ?_⟩
      · rw [hl] at hf
        exact absurd hf.1 Bool.false_ne_true
      · have hle := hrest.index_le f' hf'
        omega

theorem Tiles.nodup (h : Tiles total i off fs) : fs.Nodup :=
  h.sorted.imp fun {f g} (hlt : f.index < g.index) (he : f = g) => by subst he; omega

/-- In whatever order a complete file is listed, it is accepted. -/
theorem Tiles.checkFragments (h : Tiles total 0 0 fs) {fs' : List FragmentInfo}
    (hp : fs'.Perm fs) : checkFragments fs' = .ok (some (total, fs)) :=
  checkFragments_eq_ok_iff.mpr ⟨hp.symm, h.checkLoop, h.getLast⟩

end Tiles

theorem pushContent_of_full {fragmentSize : Nat} {ctx : UploadContext} {buf : Bytes} {more : Bool}
    (h : fragmentSize ≤ (ctx.file ++ buf).length ∨ more = false) :
    pushContent fragmentSize ctx buf more =
      (⟨ctx.curFragment + 1, ctx.curOffset + (ctx.file ++ buf).length, []⟩,
        some ⟨ctx.curFragment, ctx.curOffset, ctx.curOffset + (ctx.file ++ buf).length, !more,
          ctx.file ++ buf⟩) :=
  if_pos h

theorem pushContent_of_short {fragmentSize : Nat} {ctx : UploadContext} {buf : Bytes}
    (h : ¬ fragmentSize ≤ (ctx.file ++ buf).length) :
    pushContent fragmentSize ctx buf true = ({ ctx with file := ctx.file ++ buf }, none) :=
  if_neg fun hc => hc.elim h nofun

/-- The parts of a stream are a complete file. -/
theorem streamWrite_tiles (fragmentSize : Nat) {bufs : List Bytes} (ctx : UploadContext)
    (hne : bufs ≠ []) (hbufs : ∀ b ∈ bufs, b ≠ []) :
    Tiles (ctx.curOffset + ctx.file.length + (bufs.map List.length).sum) ctx.curFragment
      ctx.curOffset ((streamWrite fragmentSize ctx bufs).map Part.info) := by
  induction bufs generalizing ctx with
  | nil => exact absurd rfl hne
  | cons buf rest ih =>
    have hbuf : buf ≠ [] := hbufs buf List.mem_cons_self
    have hpos : 0 < buf.length := List.length_pos_iff.mpr hbuf
    rw [streamWrite, if_neg hbuf]
    cases rest with
    | nil =>
      have hmore : moreData [] = false := rfl
      rw [hmore, pushContent_of_full (.inr rfl)]
      simp only [streamWrite, Option.toList, List.append_nil, List.map_cons, List.map_nil,
        List.sum_cons, List.sum_nil, Part.info, List.length_append]
      exact ⟨rfl, rfl, by dsimp only; omega, by dsimp only; omega, rfl⟩
    | cons buf' rest =>
      have hrest : ∀ b ∈ buf' :: rest, b ≠ [] := fun b hb => hbufs b (List.mem_cons_of_mem _ hb)
      have hmore : moreData (buf' :: rest) = true := by simp [moreData, hrest buf']
      by_cases hfull : fragmentSize ≤ (ctx.file ++ buf).length
      · rw [hmore, pushContent_of_full (.inl hfull)]
        have hnext := ih ⟨ctx.curFragment + 1, ctx.curOffset + (ctx.file ++ buf).length, []⟩
          (List.cons_ne_nil _ _) hrest
        refine Tiles.cons rfl rfl ?_ rfl ?_
        · simp only [Part.info, List.length_append]
          omega
        · simpa [Part.info, Nat.add_assoc] using hnext
      · rw [hmore, pushContent_of_short hfull]
        have hnext := ih { ctx with file := ctx.file ++ buf } (List.cons_ne_nil _ _) hrest
        simpa [Nat.add_assoc] using hnext

end Speedy.Driver
