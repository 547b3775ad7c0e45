import Speedy.Cluster.Content
import Speedy.Imageserver.Listing

/-! # Presence and readability

`exists` and `getfileinfo` ask the imageserver the same question. The first is content with
any fragment; the second demands a complete file. Between them lie the uploads that have not
ended, and those that were given up. -/
namespace Speedy.Cluster
open Speedy.Lib Speedy.Imageserver Speedy.Driver

/-- `Connection.exists` -/
def existsPath : FileInfoResponse → Except DriverError Bool
  | .broken => .error .retryFailed
  | .status 404 => .ok false
  | .status code => .error (.unknownStatus code)
  | .fragmentInfo _ => .ok true

/-- The requests of clients that change the metadata. -/
inductive ClientOp where
  | upload (req : UploadRequest) (outcome : UploadOutcome)
  | delete (version1 : Bool) (path : Key)

namespace ClientOp

/-- The statements that the imageserver executes. -/
def stmts : ClientOp → List Stmt
  | upload req outcome =>
    match uploadFile req outcome with
    | .ok stmts => stmts
    | .error _ => []
  | delete version1 path =>
    if version1 then deleteFileMetaInfoV1 path else deleteFileMetaInfoV2 path

/-- The call of the metadata driver; an upload that is not accepted makes none. -/
def metaOps : ClientOp → List MetaOp
  | upload req outcome =>
    match uploadFileReadParam req with
    | none => []
    | some info =>
      match Imageserver.upload req.length info.value outcome with
      | .error _ => []
      | .ok v => [.store req.version1 ⟨info.path, v⟩]
  | delete version1 path => [.delete version1 path]

theorem stmts_eq (op : ClientOp) : op.stmts = op.metaOps.flatMap MetaOp.stmts := by
  cases op with
  | upload req outcome =>
    simp only [stmts, metaOps, uploadFile]
    cases uploadFileReadParam req with
    | none => rfl
    | some info =>
      simp only
      cases Imageserver.upload req.length info.value outcome with
      | error status => rfl
      | ok v => exact (List.append_nil _).symm
  | delete version1 path => exact (List.append_nil _).symm

theorem flatMap_stmts (ops : List ClientOp) :
    ops.flatMap stmts = (ops.flatMap metaOps).flatMap MetaOp.stmts := by
  rw [List.flatMap_assoc]
  exact congrArg (List.flatMap · ops) (funext stmts_eq)

end ClientOp

theorem upload_stop {length : Nat} {v v' : MetaInfoValue} {outcome : UploadOutcome}
    (h : Imageserver.upload length v outcome = .ok v') : v'.stop = v.stop := by
  cases outcome with
  | noGroup => cases h
  | noFid => cases h
  | postFailed =>
    simp only [Imageserver.upload] at h
    split at h <;> cases h
  | posted fileId groupId =>
    simp only [Imageserver.upload] at h
    split at h
    · cases h
    · cases h
      rfl

/-- Whatever is stored ends behind the first byte. -/
theorem ClientOp.stop_pos {op : ClientOp} {version1 : Bool} {info : MetaInfo}
    (h : .store version1 info ∈ op.metaOps) : 0 < info.value.stop.toNat := by
  cases op with
  | delete version1 path => cases List.mem_singleton.mp h
  | upload req outcome =>
    simp only [metaOps] at h
    split at h
    · cases h
    · rename_i read hread
      split at h
      · cases h
      · rename_i v hv
        cases List.mem_singleton.mp h
        obtain ⟨⟨start, stop⟩, hrange, hread⟩ := Option.bind_eq_some_iff.mp hread
        obtain ⟨index, -, hread⟩ := Option.bind_eq_some_iff.mp hread
        cases hread
        obtain ⟨-, -, hlt⟩ := splitRange_eq_some hrange
        have hstop : v.stop = stop := upload_stop hv
        rw [hstop]
        exact Nat.lt_of_le_of_lt (Nat.zero_le _) (UInt64.lt_iff_toNat_lt.mp hlt)

/-- Each fragment begins where the one before it ends. -/
def Follows : Nat → Nat → List FragmentInfo → Prop
  | _, _, [] => True
  | index, offset, f :: fs =>
    f.index = index ∧ f.start = offset ∧ Follows (index + 1) f.stop fs

/-- The fragments of a whole file, in some order: they follow each other from 0 on, and the
last one is marked. -/
def WholeFile (fs : List FragmentInfo) : Prop :=
  ∃ gs : List FragmentInfo, gs.Perm fs ∧ Follows 0 0 gs ∧
    ∃ last, gs.getLast? = some last ∧ last.isLast = true

theorem WholeFile.perm {fs fs' : List FragmentInfo} (h : WholeFile fs) (hp : fs.Perm fs') :
    WholeFile fs' := by
  obtain ⟨gs, hgs, hrest⟩ := h
  exact ⟨gs, hgs.trans hp, hrest⟩

theorem checkLoop_eq_some_iff {gs : List FragmentInfo} {last : FragmentInfo}
    (hlast : gs.getLast? = some last) (index offset total : Nat) :
    checkLoop index offset gs = some total ↔ Follows index offset gs ∧ last.stop = total := by
  induction gs generalizing index offset with
  | nil => cases hlast
  | cons f fs ih =>
    simp only [checkLoop, Follows, Option.ite_none_left_eq_some, not_or, not_not]
    cases fs with
    | nil =>
      obtain rfl : f = last := Option.some.inj hlast
      simp only [checkLoop, Follows, and_true, Option.some.injEq]
    | cons g gs => rw [ih hlast, and_assoc, and_assoc, and_assoc]

section Responses
variable {δ : Type} {answer : KeyList δ}

theorem existsPath_eq_true_iff :
    existsPath (getFileInfo answer) = .ok true ↔
      ∃ vs, getFileMetaInfo false answer = .ok vs ∧ vs ≠ [] := by
  unfold getFileInfo
  constructor
  · intro h
    split at h
    · cases h
    · cases h
    · rename_i vs hvs
      split at h
      · cases h
      · rename_i hne
        exact ⟨vs, hvs, fun hnil => hne (by rw [hnil]; rfl)⟩
  · intro h
    obtain ⟨vs, hvs, hne⟩ := h
    simp only [hvs]
    rw [if_neg fun hlen => hne (List.length_eq_zero_iff.mp hlen)]
    rfl

theorem getfileinfo_fragmentInfo_iff {values : List MetaInfoValue}
    (hpos : ∀ f ∈ values.map fragmentInfoOf, 0 < f.stop) :
    (∃ r, getfileinfo (.fragmentInfo values) = .ok r) ↔
      WholeFile (values.map fragmentInfoOf) := by
  simp only [getfileinfo]
  constructor
  · intro h
    obtain ⟨⟨total, gs⟩, h⟩ := h
    split at h
    · cases h
    · cases h
    · rename_i hcheck
      split at h
      · cases h
      · cases h
        obtain ⟨hperm, hloop, last, hlast, hmark⟩ := checkFragments_eq_ok_iff.mp hcheck
        have hfollows := ((checkLoop_eq_some_iff hlast 0 0 total).mp hloop).1
        exact ⟨gs, hperm, hfollows, last, hlast, hmark⟩
  · intro h
    obtain ⟨gs, hperm, hfollows, last, hlast, hmark⟩ := h
    have hloop := (checkLoop_eq_some_iff hlast 0 0 last.stop).mpr ⟨hfollows, rfl⟩
    have hcheck := checkFragments_eq_ok_iff.mpr ⟨hperm, hloop, last, hlast, hmark⟩
    have hmem := List.mem_of_getLast? hlast
    have hne : ¬ (last.stop = 0 ∨ gs = []) :=
      not_or.mpr ⟨(hpos last (hperm.mem_iff.mp hmem)).ne', List.ne_nil_of_mem hmem⟩
    refine ⟨(last.stop, gs), ?_⟩
    simp only [hcheck, if_neg hne]

/-- A fragment as the client gets it from a value. -/
def infoOfValue (x : ListValue) (updateTime : Nat) : Option FragmentInfo :=
  (readMetaInfoValue false x updateTime).toOption.map fragmentInfoOf

theorem infoOfValue_fragment (v : MetaInfoValue) (u : Nat) :
    infoOfValue (fragmentValue v) u = some (readBack (fragmentInfoOf v)) := by
  rw [infoOfValue, fragmentValue, readMetaInfoValue_marshal]
  rfl

/-- Only fragments can be read. -/
theorem isJson_of_readRow {r : Row δ} {v : MetaInfoValue} (h : readRow false r = .ok v) :
    r.listValue.isJson = true := by
  unfold readRow readMetaInfoValue at h
  cases hv : r.listValue with
  | json o => rfl
  | name s =>
    rw [hv] at h
    cases h

/-- The fragments of an answer are those of its values. -/
theorem fragmentInfos_perm {vs kept : List MetaInfoValue}
    (hvs : getFileMetaInfo false answer = .ok vs)
    (hkept : (answer.map Row.listValue).Perm (kept.map fragmentValue)) :
    (vs.map fragmentInfoOf).Perm (kept.map fun v => readBack (fragmentInfoOf v)) := by
  have hread : (vs.map fragmentInfoOf).map some =
      answer.map fun r => infoOfValue r.listValue r.updateTime := by
    have hmap := congrArg (List.map fun e => e.toOption.map fragmentInfoOf)
      (mapM_eq_ok_iff.mp hvs)
    rw [List.map_map, List.map_map] at hmap
    rw [List.map_map]
    exact hmap.symm
  -- the time of a row is not part of what the client gets
  have htime : answer.map (fun r => infoOfValue r.listValue r.updateTime) =
      (answer.map Row.listValue).map (infoOfValue · 0) := by
    rw [List.map_map]
    refine List.map_congr_left fun r hr => ?_
    obtain ⟨v, -, hv⟩ := List.mem_map.mp (hkept.mem_iff.mp (List.mem_map_of_mem hr))
    rw [Function.comp_apply, ← hv, infoOfValue_fragment, infoOfValue_fragment]
  have hperm := hkept.map (infoOfValue · 0)
  have hsome : (kept.map fragmentValue).map (infoOfValue · 0) =
      (kept.map fun v => readBack (fragmentInfoOf v)).map some := by
    rw [List.map_map, List.map_map]
    exact List.map_congr_left fun v _ => infoOfValue_fragment v 0
  rw [← htime, ← hread, hsome] at hperm
  exact (List.map_perm_map_iff (Option.some_injective _)).mp hperm

theorem getFileInfo_of_found {vs : List MetaInfoValue} (hvs : getFileMetaInfo false answer = .ok vs)
    (hne : vs ≠ []) : getFileInfo answer = .fragmentInfo vs := by
  simp only [getFileInfo, hvs]
  exact if_neg fun hlen => hne (List.length_eq_zero_iff.mp hlen)

/-- Fragments can be read. -/
theorem exists_getFileMetaInfo {kept : List MetaInfoValue}
    (hkept : (answer.map Row.listValue).Perm (kept.map fragmentValue)) :
    ∃ vs, getFileMetaInfo false answer = .ok vs := by
  refine exists_mapM_eq_ok fun r hr => ?_
  obtain ⟨v, -, hv⟩ := List.mem_map.mp (hkept.mem_iff.mp (List.mem_map_of_mem hr))
  exact ⟨_, by rw [readRow, ← hv, fragmentValue, readMetaInfoValue_marshal]⟩

end Responses

section Presence
variable {δ : Type} [DecidableEq δ] {encrypt : Key → δ} {collate : Key → Key}
  {ops : List ClientOp} {stmts : List (Nat × Stmt)} {path : Key} {answer : KeyList δ}

/-- Where nothing but fragments is found, they are those kept. -/
theorem values_perm_kept (hkeys : ∀ s ∈ stmts, encrypt s.2.key = encrypt path → s.2.key = path)
    (hstmts : stmts.map Prod.snd = ops.flatMap ClientOp.stmts)
    (hanswer : GetList encrypt path (execAll encrypt collate [] stmts) answer)
    (hjson : ∀ x ∈ valuesKept collate path (ops.flatMap ClientOp.stmts), x.isJson = true) :
    (answer.map Row.listValue).Perm
      ((fragmentsKept path (ops.flatMap ClientOp.metaOps)).map fragmentValue) := by
  have hperm := hanswer.1.map Row.listValue
  rw [values_kept hkeys, hstmts] at hperm
  rw [← filter_valuesKept, ← ClientOp.flatMap_stmts, List.filter_eq_self.mpr hjson]
  exact hperm

/-- What can be read consists of fragments. -/
theorem isJson_of_getFileMetaInfo
    (hkeys : ∀ s ∈ stmts, encrypt s.2.key = encrypt path → s.2.key = path)
    (hstmts : stmts.map Prod.snd = ops.flatMap ClientOp.stmts)
    (hanswer : GetList encrypt path (execAll encrypt collate [] stmts) answer)
    {vs : List MetaInfoValue} (hvs : getFileMetaInfo false answer = .ok vs) :
    ∀ x ∈ valuesKept collate path (ops.flatMap ClientOp.stmts), x.isJson = true := by
  intro x hx
  rw [← hstmts, ← values_kept hkeys] at hx
  obtain ⟨r, hr, rfl⟩ := List.mem_map.mp hx
  have hmem : readRow false r ∈ answer.map (readRow false) :=
    List.mem_map_of_mem (hanswer.1.mem_iff.mpr hr)
  rw [mapM_eq_ok_iff.mp hvs] at hmem
  obtain ⟨v, -, hv⟩ := List.mem_map.mp hmem
  exact isJson_of_readRow hv.symm

/-- The fragments that uploads leave are not empty, as they are read back. -/
theorem stop_pos_of_kept {fs : List FragmentInfo}
    (hperm : fs.Perm ((fragmentsKept path (ops.flatMap ClientOp.metaOps)).map fun v =>
      readBack (fragmentInfoOf v))) : ∀ f ∈ fs, 0 < f.stop := by
  intro f hf
  obtain ⟨v, hv, rfl⟩ := List.mem_map.mp (hperm.mem_iff.mp hf)
  obtain ⟨version1, info, hmem, -, rfl⟩ := mem_fragmentsKept hv
  obtain ⟨op, -, hop⟩ := List.mem_flatMap.mp hmem
  exact readUint64_pos (ClientOp.stop_pos hop)

end Presence

/-- A path that exists can be read if what is kept of it is nothing or a complete file, or if
it is the key of a directory with entries, of which neither is said. -/
theorem exists_readable_iff {δ : Type} [DecidableEq δ] {encrypt : Key → δ}
    {collate : Key → Key} {ops : List ClientOp} {stmts : List (Nat × Stmt)}
    (hstmts : stmts.map Prod.snd = ops.flatMap ClientOp.stmts) {path : Key}
    (hkeys : ∀ s ∈ stmts, encrypt s.2.key = encrypt path → s.2.key = path) :
    (∀ answer answer', GetList encrypt path (execAll encrypt collate [] stmts) answer →
      GetList encrypt path (execAll encrypt collate [] stmts) answer' →
      existsPath (getFileInfo answer) = .ok true →
      ∃ r, getfileinfo (getFileInfo answer') = .ok r) ↔
    (∃ x ∈ valuesKept collate path (ops.flatMap ClientOp.stmts), x.isJson = false) ∨
    fragmentsKept path (ops.flatMap ClientOp.metaOps) = [] ∨
    WholeFile ((fragmentsKept path (ops.flatMap ClientOp.metaOps)).map
      fun v => readBack (fragmentInfoOf v)) := by
  constructor
  · intro h
    by_cases hjson : ∀ x ∈ valuesKept collate path (ops.flatMap ClientOp.stmts), x.isJson = true
    · obtain ⟨answer, hanswer⟩ := exists_getList encrypt path (execAll encrypt collate [] stmts)
      have hkept := values_perm_kept hkeys hstmts hanswer hjson
      obtain ⟨vs, hvs⟩ := exists_getFileMetaInfo hkept
      have hperm := fragmentInfos_perm hvs hkept
      by_cases hne : vs = []
      · rw [hne, List.map_nil, List.nil_perm, List.map_eq_nil_iff] at hperm
        exact .inr (.inl hperm)
      · obtain ⟨r, hr⟩ := h answer answer hanswer hanswer
          (existsPath_eq_true_iff.mpr ⟨vs, hvs, hne⟩)
        rw [getFileInfo_of_found hvs hne] at hr
        have hwhole := (getfileinfo_fragmentInfo_iff (stop_pos_of_kept hperm)).mp ⟨r, hr⟩
        exact .inr (.inr (hwhole.perm hperm))
    · simp only [not_forall, Bool.not_eq_true] at hjson
      obtain ⟨x, hx, hname⟩ := hjson
      exact .inl ⟨x, hx, hname⟩
  · intro h answer answer' hanswer hanswer' hexists
    obtain ⟨vs, hvs, hne⟩ := existsPath_eq_true_iff.mp hexists
    have hjson := isJson_of_getFileMetaInfo hkeys hstmts hanswer hvs
    have hkept := values_perm_kept hkeys hstmts hanswer' hjson
    obtain ⟨vs', hvs'⟩ := exists_getFileMetaInfo hkept
    have hperm := fragmentInfos_perm hvs (values_perm_kept hkeys hstmts hanswer hjson)
    have hperm' := fragmentInfos_perm hvs' hkept
    rcases h with ⟨x, hx, hname⟩ | hnil | hcomplete
    · rw [hjson x hx] at hname
      cases hname
    · rw [hnil, List.map_nil, List.perm_nil, List.map_eq_nil_iff] at hperm
      exact absurd hperm hne
    · have hne' : vs' ≠ [] := by
        intro hnil
        have hlen := (hperm.trans hperm'.symm).length_eq
        rw [hnil, List.length_map, List.length_map] at hlen
        exact hne (List.length_eq_zero_iff.mp hlen)
      rw [getFileInfo_of_found hvs' hne']
      exact (getfileinfo_fragmentInfo_iff (stop_pos_of_kept hperm')).mpr
        (hcomplete.perm hperm'.symm)

/-- The first fragment of a layer of two. -/
def firstUpload : ClientOp := .upload ⟨layerPath, 0, (0, 1), false, true, 1⟩ (.posted 7 1)

def lastUpload : ClientOp := .upload ⟨layerPath, 1, (1, 2), true, true, 1⟩ (.posted 8 1)

def uploadsTable (ops : List ClientOp) : KeyList Key :=
  execAll id id [] (stmtsAt 1 (ops.flatMap ClientOp.stmts))

theorem exists_readable_layer :
    existsPath (getFileInfo (rowsOf id layerPath (uploadsTable [lastUpload, firstUpload]))) =
      .ok true ∧
    ∃ r, getfileinfo (getFileInfo (rowsOf id layerPath (uploadsTable [lastUpload, firstUpload]))) =
      .ok r := by
  have hanswer : GetList id layerPath (uploadsTable [lastUpload, firstUpload])
      (rowsOf id layerPath (uploadsTable [lastUpload, firstUpload])) :=
    ⟨.refl _, by decide +kernel⟩
  have hexists : existsPath (getFileInfo (rowsOf id layerPath
      (uploadsTable [lastUpload, firstUpload]))) = .ok true := by
    decide +kernel
  refine ⟨hexists, ?_⟩
  refine (exists_readable_iff (stmtsAt_snd 1 _) fun _ _ h => h).mpr
    (.inr (.inr ?_)) _ _ hanswer hanswer hexists
  exact ⟨[⟨0, 0, 1, false⟩, ⟨1, 1, 2, true⟩], by decide +kernel, ⟨rfl, rfl, rfl, rfl, trivial⟩,
    _, rfl, rfl⟩

theorem exists_unreadable :
    ∃ answer, GetList id layerPath (uploadsTable [firstUpload]) answer ∧
      existsPath (getFileInfo answer) = .ok true ∧
      getfileinfo (getFileInfo answer) = .error .uncompleted :=
  ⟨rowsOf id layerPath (uploadsTable [firstUpload]), ⟨.refl _, by decide +kernel⟩,
    by decide +kernel, by decide +kernel⟩

end Speedy.Cluster
