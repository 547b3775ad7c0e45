import Mathlib.Data.List.Perm.Basic
import Speedy.Driver.Multipart

/-! # Uploading a file in several fragments

The fragments of a stream are posted concurrently and each may take effect more than
once, in any order; the file is then read back through `getfileinfo`. -/
namespace Speedy.Cluster
open Speedy.Lib Speedy.Imageserver Speedy.Driver
open scoped List

/-- A `POST` of a fragment that reached an imageserver, with what the upload to the
chunkservers came to, and the time at which the metadata were stored -/
structure Delivery where
  part : Part
  fileId : UInt64
  groupId : UInt16
  now : Nat
  deriving DecidableEq, Repr

def Delivery.request (path : Key) (d : Delivery) : UploadRequest :=
  ⟨path, d.part.index, (d.part.start, d.part.stop), d.part.isLast, true, d.part.data.length⟩

/-- The statements that the imageserver executes for it -/
def Delivery.stmts (path : Key) (d : Delivery) : Except Nat (List Stmt) :=
  uploadFile (d.request path) (.posted d.fileId d.groupId)

/-- The request is answered with 200. -/
def Delivery.Accepted (path : Key) (d : Delivery) : Prop := ∃ stmts, d.stmts path = .ok stmts

section Deliver
variable {δ : Type} [DecidableEq δ] (encrypt : Key → δ) (collate : Key → Key) (path : Key)

def deliver (t : KeyList δ) (d : Delivery) : KeyList δ :=
  match d.stmts path with
  | .ok stmts => execAll encrypt collate t (stmts.map fun s => (d.now, s))
  | .error _ => t

def deliverAll (t : KeyList δ) (ds : List Delivery) : KeyList δ :=
  ds.foldl (deliver encrypt collate path) t

end Deliver

/-- A fragment as it comes back from the table: its numbers have been doubles. -/
def readBack (f : FragmentInfo) : FragmentInfo :=
  ⟨readUint64 f.index, readUint64 f.start, readUint64 f.stop, f.isLast⟩

theorem readBack_idem (f : FragmentInfo) : readBack (readBack f) = readBack f := by
  simp only [readBack, readUint64_idem]

section Rows
variable {δ : Type} [DecidableEq δ] {encrypt : Key → δ} {collate : Key → Key} {path : Key}

/-- A fragment that is not a whole file adds a row and removes none. -/
theorem deliver_rowsOf (hdir : IsTag path → encrypt (dirOf path) ≠ encrypt path)
    {t : KeyList δ} {d : Delivery} (hacc : d.Accepted path)
    (hmany : ¬ (d.part.isLast = true ∧ d.part.index = 0)) :
    ∃ row : Row δ, rowsOf encrypt path (deliver encrypt collate path t d) =
        rowsOf encrypt path t ++ [row] ∧ ∃ v, readRow false row = .ok v ∧
        fragmentInfoOf v = readBack d.part.info := by
  obtain ⟨stmts, hstmts⟩ := hacc
  obtain ⟨v, hindex, hstart, hstop, hlast, -, -, rfl⟩ := uploadFile_eq_ok hstmts
  have hwhole : (v.isLast && v.index == 0) = false := by
    refine Bool.eq_false_iff.mpr fun hv => hmany ?_
    obtain ⟨hl, hi⟩ := (Bool.and_eq_true _ _).mp hv
    refine ⟨hlast.symm.trans hl, ?_⟩
    rw [eq_of_beq hi] at hindex
    exact hindex.symm
  refine ⟨⟨path, encrypt path, .json (marshal v), d.now, d.now⟩, ?_, _,
    readMetaInfoValue_marshal v d.now, ?_⟩
  · rw [deliver, hstmts]
    simp only [Delivery.request, if_true, storeMetaInfoV1, hwhole, Bool.false_eq_true, if_false,
      List.nil_append, List.map_append, execAll_append]
    rw [List.map_singleton, execAll_cons, execAll_nil, rowsOf_pushList_self]
    rw [rowsOf_handleDirectory hdir .addFile (by simp [Function.comp_def])]
  · simp only [fragmentInfoOf, readBack, Part.info, readUint64, hindex, hstart, hstop, hlast,
      Delivery.request]

theorem deliverAll_rowsOf (hdir : IsTag path → encrypt (dirOf path) ≠ encrypt path)
    {t : KeyList δ} {ds : List Delivery} (hacc : ∀ d ∈ ds, d.Accepted path)
    (hmany : ∀ d ∈ ds, ¬ (d.part.isLast = true ∧ d.part.index = 0)) :
    ∃ rows : List (Row δ),
      rowsOf encrypt path (deliverAll encrypt collate path t ds) = rowsOf encrypt path t ++ rows ∧
      ∃ vs : List MetaInfoValue,
        rows.map (readRow false) = vs.map .ok ∧
        vs.map fragmentInfoOf = ds.map fun d => readBack d.part.info := by
  induction ds generalizing t with
  | nil => exact ⟨[], (List.append_nil _).symm, [], rfl, rfl⟩
  | cons d ds ih =>
    obtain ⟨hd, hds⟩ := List.forall_mem_cons.mp hacc
    obtain ⟨hm, hms⟩ := List.forall_mem_cons.mp hmany
    obtain ⟨row, hrow, v, hv, hinfo⟩ := deliver_rowsOf hdir (t := t) hd hm
    obtain ⟨rows, hrows, vs, hvs, hinfos⟩ := ih (t := deliver encrypt collate path t d) hds hms
    refine ⟨row :: rows, ?_, v :: vs, ?_, ?_⟩
    · change rowsOf encrypt path (deliverAll encrypt collate path _ ds) = _
      rw [hrows, hrow, List.append_assoc, List.singleton_append]
    · rw [List.map_cons, List.map_cons, hv, hvs]
    · rw [List.map_cons, List.map_cons, hinfo, hinfos]

end Rows

/-- What `getfileinfo` returns are the rows it was given, in the order of their indices. -/
theorem getfileinfo_eq_ok {δ : Type} {answer : KeyList δ} {total : Nat} {fs : List FragmentInfo}
    (h : getfileinfo (getFileInfo answer) = .ok (total, fs)) :
    ∃ vs : List MetaInfoValue,
      answer.map (readRow false) = vs.map .ok ∧
      fs.Perm (vs.map fragmentInfoOf) := by
  unfold getFileInfo at h
  split at h
  · cases h
  · cases h
  · rename_i vs hvs
    refine ⟨vs, mapM_eq_ok_iff.mp hvs, ?_⟩
    split at h
    · cases h
    · simp only [getfileinfo] at h
      split at h
      · cases h
      · cases h
      · rename_i hcheck
        split at h
        · cases h
        · cases h
          exact (checkFragments_eq_ok_iff.mp hcheck).1

/-- A complete file is returned, in whatever order the rows come. -/
theorem getfileinfo_of_tiles {δ : Type} {answer : KeyList δ} {total : Nat}
    {fs : List FragmentInfo} {vs : List MetaInfoValue} (ht : Tiles total 0 0 fs)
    (hvs : answer.map (readRow false) = vs.map .ok)
    (hp : (vs.map fragmentInfoOf).Perm fs) :
    getfileinfo (getFileInfo answer) = .ok (total, fs) := by
  have hne : vs.length ≠ 0 := by
    have hlen := hp.length_eq
    rw [List.length_map] at hlen
    exact hlen ▸ (List.length_pos_iff.mpr ht.ne_nil).ne'
  have hread : getFileMetaInfo false answer = .ok vs := mapM_eq_ok_iff.mpr hvs
  simp only [getFileInfo, hread, hne, if_false, getfileinfo, ht.checkFragments hp]
  rw [if_neg]
  exact fun hc => hc.elim ht.lt.ne' ht.ne_nil

/-- An idempotent function that permutes a list without repetitions is the identity
on it. -/
theorem fixed_of_perm_map {α : Type} {f : α → α} (hf : ∀ x, f (f x) = f x) {l : List α}
    (hl : l.Nodup) (hp : (l.map f).Perm l) : ∀ x ∈ l, f x = x := by
  intro x hx
  have hinj := List.inj_on_of_nodup_map (hp.nodup_iff.mpr hl)
  exact hinj (hp.mem_iff.mp (List.mem_map_of_mem hx)) hx (hf x)

section ReadBack
variable {δ : Type} [DecidableEq δ] {encrypt : Key → δ} {collate : Key → Key} {path : Key}
  {total : Nat} {parts : List Part} {t answer : KeyList δ} {ds : List Delivery}

/-- If the fragments come back, there is a row for each of them and no other. -/
theorem read_back_necessary (hdir : IsTag path → encrypt (dirOf path) ≠ encrypt path)
    (ht : Tiles total 0 0 (parts.map Part.info)) (h2 : 2 ≤ parts.length)
    (hds : ∀ d ∈ ds, d.part ∈ parts ∧ d.Accepted path) (hall : ∀ p ∈ parts, ∃ d ∈ ds, d.part = p)
    (hanswer : GetList encrypt path (deliverAll encrypt collate path t ds) answer)
    (h : getfileinfo (getFileInfo answer) = .ok (total, parts.map Part.info)) :
    rowsOf encrypt path t = [] ∧ (ds.map Delivery.part).Perm parts ∧
      ∀ p ∈ parts, readBack p.info = p.info := by
  have hmany : ∀ d ∈ ds, ¬ (d.part.isLast = true ∧ d.part.index = 0) := fun d hd =>
    ht.not_single (by simpa using h2) d.part.info (List.mem_map_of_mem (hds d hd).1)
  obtain ⟨rows, hrows, vs₀, hvs₀, hinfos⟩ :=
    deliverAll_rowsOf hdir (t := t) (fun d hd => (hds d hd).2) hmany
  obtain ⟨vs, hvs, hperm⟩ := getfileinfo_eq_ok h
  have hans := hrows ▸ hanswer.1
  -- every row is returned, so there are as many rows as fragments
  have hlen : parts.length = (rowsOf encrypt path t).length + ds.length := by
    have h₁ := hperm.length_eq
    have h₂ := congrArg List.length hvs
    have h₃ := congrArg List.length hvs₀
    have h₄ := congrArg List.length hinfos
    have h₅ := hans.length_eq
    simp only [List.length_map, List.length_append] at h₁ h₂ h₃ h₄ h₅
    omega
  have hnodup : parts.Nodup := ht.nodup.of_map
  have hsub : parts.Subperm (ds.map Delivery.part) := by
    refine List.subperm_of_subset hnodup fun p hp => ?_
    obtain ⟨d, hd, rfl⟩ := hall p hp
    exact List.mem_map_of_mem hd
  have hle := hsub.length_le
  rw [List.length_map] at hle
  have hprior : rowsOf encrypt path t = [] := List.length_eq_zero_iff.mp (by omega)
  have honce : (ds.map Delivery.part).Perm parts :=
    (hsub.perm_of_length_le (by rw [List.length_map]; omega)).symm
  refine ⟨hprior, honce, fun p hp => ?_⟩
  rw [hprior, List.nil_append] at hans
  have hvsp : vs.Perm vs₀ := by
    have hmap := hans.map (readRow false)
    rw [hvs, hvs₀] at hmap
    exact (List.map_perm_map_iff fun _ _ he => Except.ok.inj he).mp hmap
  have hfixed : ((parts.map Part.info).map readBack).Perm (parts.map Part.info) := by
    rw [List.map_map]
    calc parts.map (readBack ∘ Part.info)
        ~ (ds.map Delivery.part).map (readBack ∘ Part.info) := (honce.map _).symm
      _ = vs₀.map fragmentInfoOf := by rw [hinfos, List.map_map]; rfl
      _ ~ vs.map fragmentInfoOf := (hvsp.map _).symm
      _ ~ parts.map Part.info := hperm.symm
  exact fixed_of_perm_map readBack_idem ht.nodup hfixed p.info (List.mem_map_of_mem hp)

theorem read_back_sufficient (hdir : IsTag path → encrypt (dirOf path) ≠ encrypt path)
    (ht : Tiles total 0 0 (parts.map Part.info)) (h2 : 2 ≤ parts.length)
    (hds : ∀ d ∈ ds, d.part ∈ parts ∧ d.Accepted path)
    (hanswer : GetList encrypt path (deliverAll encrypt collate path t ds) answer)
    (hprior : rowsOf encrypt path t = []) (honce : (ds.map Delivery.part).Perm parts)
    (hexact : ∀ p ∈ parts, readBack p.info = p.info) :
    getfileinfo (getFileInfo answer) = .ok (total, parts.map Part.info) := by
  have hmany : ∀ d ∈ ds, ¬ (d.part.isLast = true ∧ d.part.index = 0) := fun d hd =>
    ht.not_single (by simpa using h2) d.part.info (List.mem_map_of_mem (hds d hd).1)
  obtain ⟨rows, hrows, vs₀, hvs₀, hinfos⟩ :=
    deliverAll_rowsOf hdir (t := t) (fun d hd => (hds d hd).2) hmany
  have hans := hrows ▸ hanswer.1
  rw [hprior, List.nil_append] at hans
  -- the answer is read into the same values in another order
  obtain ⟨vs, hvs, hvsp⟩ : ∃ vs : List MetaInfoValue,
      answer.map (readRow false) = vs.map .ok ∧ vs.Perm vs₀ := by
    have hp := hans.map (readRow false)
    rw [hvs₀] at hp
    have hcomp := congrFun₂ (List.eq_map_comp_perm Except.ok) (answer.map (readRow false)) vs₀
    exact hcomp.mpr hp
  refine getfileinfo_of_tiles ht hvs ?_
  calc vs.map fragmentInfoOf
      ~ vs₀.map fragmentInfoOf := hvsp.map _
    _ = (ds.map Delivery.part).map (readBack ∘ Part.info) := by rw [hinfos, List.map_map]; rfl
    _ ~ parts.map (readBack ∘ Part.info) := honce.map _
    _ = parts.map Part.info := List.map_congr_left hexact

end ReadBack

/-- After a `stream_write` of several fragments, `getfileinfo` returns exactly these
fragments if and only if the path had no rows before, every fragment took effect
once, and no number was changed by becoming a double. -/
theorem multipart_upload_read_back_iff {δ : Type} [DecidableEq δ] {encrypt : Key → δ}
    {collate : Key → Key} {path : Key} (hdir : IsTag path → encrypt (dirOf path) ≠ encrypt path)
    {fragmentSize : Nat} {bufs : List Bytes}
    (hbufs : ∀ b ∈ bufs, b ≠ []) (h2 : 2 ≤ (streamWrite fragmentSize .new bufs).length)
    {t : KeyList δ} {ds : List Delivery}
    (hds : ∀ d ∈ ds, d.part ∈ streamWrite fragmentSize .new bufs ∧ d.Accepted path)
    (hall : ∀ p ∈ streamWrite fragmentSize .new bufs, ∃ d ∈ ds, d.part = p) {answer : KeyList δ}
    (hanswer : GetList encrypt path (deliverAll encrypt collate path t ds) answer) :
    getfileinfo (getFileInfo answer) =
        .ok ((bufs.map List.length).sum, (streamWrite fragmentSize .new bufs).map Part.info) ↔
      rowsOf encrypt path t = [] ∧
      (ds.map Delivery.part).Perm (streamWrite fragmentSize .new bufs) ∧
      ∀ p ∈ streamWrite fragmentSize .new bufs, readBack p.info = p.info := by
  have hne : bufs ≠ [] := by
    rintro rfl
    simp [streamWrite] at h2
  have htiles : Tiles (bufs.map List.length).sum 0 0
      ((streamWrite fragmentSize .new bufs).map Part.info) := by
    simpa [UploadContext.new] using streamWrite_tiles fragmentSize .new hne hbufs
  constructor
  · exact read_back_necessary hdir htiles h2 hds hall hanswer
  · rintro ⟨hprior, honce, hexact⟩
    exact read_back_sufficient hdir htiles h2 hds hanswer hprior honce hexact

def layerPath : Key := ['a', '/', 'l', 'a', 'y', 'e', 'r']

/-- Two buffers, each as long as a fragment -/
def layerBufs : List Bytes := [[1], [2]]

/-- The second fragment is stored before the first. -/
def layerDeliveries : List Delivery :=
  [⟨⟨1, 1, 2, true, [2]⟩, 8, 1, 5⟩, ⟨⟨0, 0, 1, false, [1]⟩, 7, 1, 5⟩]

theorem layerDeliveries_complete :
    (∀ d ∈ layerDeliveries, d.part ∈ streamWrite 1 .new layerBufs ∧ d.Accepted layerPath) ∧
    ∀ p ∈ streamWrite 1 .new layerBufs, ∃ d ∈ layerDeliveries, d.part = p := by
  refine ⟨?_, by decide⟩
  refine List.forall_mem_cons.mpr ⟨⟨by decide, _, rfl⟩, List.forall_mem_singleton.mpr ?_⟩
  exact ⟨by decide, _, rfl⟩

theorem multipart_upload_read_back_layer :
    getfileinfo (getFileInfo (rowsOf id layerPath
      (deliverAll id id layerPath [] layerDeliveries))) =
      .ok (2, [⟨0, 0, 1, false⟩, ⟨1, 1, 2, true⟩]) := by
  have hanswer : GetList id layerPath (deliverAll id id layerPath [] layerDeliveries)
      (rowsOf id layerPath (deliverAll id id layerPath [] layerDeliveries)) :=
    ⟨List.Perm.refl _, by decide +kernel⟩
  have hdir : IsTag layerPath → id (dirOf layerPath) ≠ id layerPath := fun h => h.directory_ne
  exact (multipart_upload_read_back_iff hdir (by decide) (by decide)
    layerDeliveries_complete.1 layerDeliveries_complete.2 hanswer).mpr
      ⟨by decide +kernel, by decide +kernel, by decide +kernel⟩

/-- A file of one fragment that was stored under the path before -/
def earlierDelivery : Delivery := ⟨⟨0, 0, 3, true, [9, 9, 9]⟩, 3, 1, 2⟩

theorem multipart_upload_hidden_by_earlier :
    earlierDelivery.Accepted layerPath ∧ (∀ d ∈ layerDeliveries, d.Accepted layerPath) ∧
    (layerDeliveries.map Delivery.part).Perm (streamWrite 1 .new layerBufs) ∧
    ∃ answer, GetList id layerPath
        (deliverAll id id layerPath [] (earlierDelivery :: layerDeliveries)) answer ∧
      getfileinfo (getFileInfo answer) = .error .fragmentInfo := by
  refine ⟨⟨_, rfl⟩, fun d hd => (layerDeliveries_complete.1 d hd).2, by decide,
    (rowsOf id layerPath (deliverAll id id layerPath []
      (earlierDelivery :: layerDeliveries))).reverse,
    ⟨List.reverse_perm _, by decide +kernel⟩, by decide +kernel⟩

end Speedy.Cluster
