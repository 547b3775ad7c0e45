import Speedy.Imageserver.Handlers
import Speedy.Lib.ByteStore

/-! # Finding a fragment again

`GetFragmentMetaInfo` looks for the row of a fragment by its index and range. The numbers of
a row are written exactly but read as doubles, and a group or a file id of 0 is not written
at all. -/
namespace Speedy.Imageserver
open Speedy.Lib

/-- `GetFragmentMetaInfo` on what `getList` has returned -/
def getFragmentMetaInfo {δ : Type} (list : KeyList δ) (index start stop : UInt64) :
    Except MetaFailure (Option MetaInfoValue) := do
  let metaInfoValues ← getFileMetaInfo true list
  return metaInfoValues.find? fun temp =>
    index == temp.index && start == temp.start && stop == temp.stop

/-- The answer to a request for a fragment -/
inductive DownloadResponse where
  | status (code : Nat)
  | content (data : Bytes)
  /-- The handler has panicked, and the connection is closed. -/
  | broken
  deriving DecidableEq, Repr

/-- The handler `downloadFile` on what `getList` has returned. What `GetData` gets from a
server of the group is an outcome here. -/
def downloadResponse {δ : Type} (getData : UInt16 → UInt64 → Option Bytes) (list : KeyList δ)
    (fragmentIndex : Nat) (bytesRange : Nat × Nat) : DownloadResponse :=
  match splitRange bytesRange.1 bytesRange.2 with
  | none => .status 400
  | some (start, stop) =>
    match parseUint64 fragmentIndex with
    | none => .status 400
    | some index =>
      match getFragmentMetaInfo list index start stop with
      | .error .notJson => .status 500
      | .error .panicked => .broken
      | .ok none => .status 404
      | .ok (some v) =>
        match getData v.groupId v.fileId with
        | none => .status 500
        | some data => .content data

/-- The value of a row of `v` as it is read. -/
def readValue (v : MetaInfoValue) (updateTime : Nat) : MetaInfoValue :=
  ⟨floatToUint64 (roundBits 53 v.index.toNat), floatToUint64 (roundBits 53 v.start.toNat),
    floatToUint64 (roundBits 53 v.stop.toNat), v.groupId,
    floatToUint64 (roundBits 53 v.fileId.toNat), v.isLast, updateTime⟩

/-- The fields that describe a fragment and where it is stored. -/
def SameFragment (v w : MetaInfoValue) : Prop :=
  v.index = w.index ∧ v.start = w.start ∧ v.stop = w.stop ∧ v.isLast = w.isLast ∧
    v.fileId = w.fileId ∧ v.groupId = w.groupId

/-- The fields that are written survive being read. -/
structure Survives (v : MetaInfoValue) : Prop where
  index : Representable 53 v.index.toNat
  start : Representable 53 v.start.toNat
  stop : Representable 53 v.stop.toNat
  fileId : Representable 53 v.fileId.toNat

/-! ## One row -/

theorem readMetaInfoValue_detail (v : MetaInfoValue) (u : Nat) :
    readMetaInfoValue true (.json (marshal v)) u =
      if v.fileId = 0 ∨ v.groupId = 0 then .error .panicked else .ok (readValue v u) := by
  have hround : roundBits 53 v.groupId.toNat = v.groupId.toNat := by
    rw [roundBits_eq_self_iff (by decide)]
    refine representable_of_lt (Nat.lt_trans v.groupId.toNat_lt ?_)
    decide
  have hgroup : floatToUint16 (roundBits 53 v.groupId.toNat) = v.groupId := by
    rw [hround]
    exact UInt16.ofNat_toNat
  simp only [readMetaInfoValue, jsonFloat_index, jsonFloat_start, jsonFloat_stop, jsonBool_isLast,
    jsonFloat_fileId, jsonFloat_groupId]
  by_cases hfile : v.fileId = 0
  · simp only [hfile, if_true, true_or]
    rfl
  · by_cases hzero : v.groupId = 0
    · simp only [hfile, hzero, if_true, if_false, or_true]
      rfl
    · simp only [hfile, hzero, if_false, or_self, readValue, bind, Except.bind, if_true, hgroup]
      rfl

theorem floatToUint64_round_eq_iff (x : UInt64) :
    floatToUint64 (roundBits 53 x.toNat) = x ↔ Representable 53 x.toNat := by
  rw [← roundBits_eq_self_iff (by decide)]
  have hx := x.toNat_lt
  unfold floatToUint64
  constructor
  · intro h
    split at h
    · rename_i hlt
      have hnat := congrArg UInt64.toNat h
      rwa [UInt64.toNat_ofNat_of_lt' hlt] at hnat
    · -- a number that is rounded up to 2^64 is not 2^63
      rename_i hge
      rw [← h] at hge
      exact absurd (by decide +kernel) hge
  · intro h
    rw [h, if_pos hx, UInt64.ofNat_toNat]

theorem sameFragment_readValue_iff (v : MetaInfoValue) (u : Nat) :
    SameFragment (readValue v u) v ↔ Survives v := by
  unfold SameFragment readValue
  simp only [floatToUint64_round_eq_iff, and_true, true_and]
  exact ⟨fun ⟨hi, hs, he, hf⟩ => ⟨hi, hs, he, hf⟩, fun h => ⟨h.index, h.start, h.stop, h.fileId⟩⟩

/-- A search for what the row is read as. -/
theorem getFragmentMetaInfo_read {δ : Type} (r : Row δ) (v : MetaInfoValue)
    (hr : r.listValue = .json (marshal v)) (hf : v.fileId ≠ 0) (hg : v.groupId ≠ 0) :
    getFragmentMetaInfo [r] (floatToUint64 (roundBits 53 v.index.toNat))
        (floatToUint64 (roundBits 53 v.start.toNat)) (floatToUint64 (roundBits 53 v.stop.toNat)) =
      .ok (some (readValue v r.updateTime)) := by
  have hread : readRow true r = .ok (readValue v r.updateTime) := by
    rw [readRow, hr, readMetaInfoValue_detail, if_neg (not_or.mpr ⟨hf, hg⟩)]
  unfold getFragmentMetaInfo getFileMetaInfo
  rw [List.mapM_cons, List.mapM_nil, hread]
  refine congrArg Except.ok (List.find?_cons_of_pos ?_)
  simp only [readValue, beq_self_eq_true, Bool.and_true]

/-- The search on the only row of a path. -/
theorem getFragmentMetaInfo_singleton {δ : Type} (r : Row δ) (v : MetaInfoValue)
    (hr : r.listValue = .json (marshal v)) :
    (∃ v', getFragmentMetaInfo [r] v.index v.start v.stop = .ok (some v') ∧ SameFragment v' v) ↔
      Survives v ∧ v.fileId ≠ 0 ∧ v.groupId ≠ 0 := by
  have hread : readRow true r = if v.fileId = 0 ∨ v.groupId = 0 then .error .panicked
      else .ok (readValue v r.updateTime) := by
    rw [readRow, hr, readMetaInfoValue_detail]
  unfold getFragmentMetaInfo getFileMetaInfo
  rw [List.mapM_cons, List.mapM_nil, hread]
  by_cases hzero : v.fileId = 0 ∨ v.groupId = 0
  · rw [if_pos hzero]
    refine iff_of_false ?_ ?_
    · intro h
      obtain ⟨v', h, -⟩ := h
      cases h
    · intro h
      exact hzero.elim h.2.1 h.2.2
  · rw [if_neg hzero, ← not_or, and_iff_left hzero, ← sameFragment_readValue_iff v r.updateTime]
    constructor
    · intro h
      obtain ⟨v', h, hsame⟩ := h
      have hmem := List.mem_of_find?_eq_some (Except.ok.inj h)
      rw [List.mem_singleton.mp hmem] at hsame
      exact hsame
    · intro h
      refine ⟨readValue v r.updateTime, congrArg Except.ok (List.find?_cons_of_pos ?_), h⟩
      obtain ⟨hi, hs, he, -⟩ := h
      simp only [hi, hs, he, beq_self_eq_true, Bool.and_true]

/-! ## After a store -/

section Store
variable {δ : Type} [DecidableEq δ] {encrypt : Key → δ} {collate : Key → Key} {t answer : KeyList δ}
  {path : Key} {v : MetaInfoValue} {stmts : List (Nat × Stmt)}

/-- A path without rows has one row afterwards. -/
theorem rowsOf_storeMetaInfoV2 (hprior : rowsOf encrypt path t = [])
    (hstmts : stmts.map Prod.snd = storeMetaInfoV2 ⟨path, v⟩) :
    ∃ now, rowsOf encrypt path (execAll encrypt collate t stmts) =
      [⟨path, encrypt path, .json (marshal v), now, now⟩] := by
  unfold storeMetaInfoV2 at hstmts
  split at hstmts
  · obtain ⟨⟨n₁, s₁⟩, rest, rfl, rfl, hrest⟩ := List.map_eq_cons_iff.mp hstmts
    obtain ⟨⟨n₂, s₂⟩, rfl, rfl⟩ := List.map_eq_singleton_iff.mp hrest
    refine ⟨n₂, ?_⟩
    rw [execAll_cons, execAll_cons, execAll_nil, rowsOf_pushList_self, rowsOf_delList_self]
    rfl
  · obtain ⟨⟨n, s⟩, rfl, rfl⟩ := List.map_eq_singleton_iff.mp hstmts
    refine ⟨n, ?_⟩
    rw [execAll_cons, execAll_nil, rowsOf_pushList_self, hprior]
    rfl

/-- A fragment stored under a path without rows is found again, with the same index, range,
mark, file and group, if and only if its numbers have 53 significant bits and neither id
is 0. -/
theorem stored_fragment_found_iff (hprior : rowsOf encrypt path t = [])
    (hstmts : stmts.map Prod.snd = storeMetaInfoV2 ⟨path, v⟩)
    (hanswer : GetList encrypt path (execAll encrypt collate t stmts) answer) :
    (∃ v', getFragmentMetaInfo answer v.index v.start v.stop = .ok (some v') ∧
        SameFragment v' v) ↔
      Survives v ∧ v.fileId ≠ 0 ∧ v.groupId ≠ 0 := by
  obtain ⟨now, hrows⟩ := rowsOf_storeMetaInfoV2 hprior hstmts
  have hone := hanswer.1
  rw [hrows] at hone
  rw [List.perm_singleton.mp hone]
  exact getFragmentMetaInfo_singleton _ v rfl

end Store

/-- The second fragment of a file. -/
theorem stored_fragment_found_second :
    ∃ v', getFragmentMetaInfo (execAll id id [] [(4, .pushList ['a'] (.json (marshal
      ⟨1, 16, 32, 2, 7, true, 0⟩)))]) 1 16 32 = .ok (some v') ∧
      SameFragment v' ⟨1, 16, 32, 2, 7, true, 0⟩ := by
  have hanswer : GetList id ['a'] (execAll id id [] [(4, .pushList ['a'] (.json (marshal
      ⟨1, 16, 32, 2, 7, true, 0⟩)))]) _ := ⟨.refl _, List.pairwise_singleton ..⟩
  have hsmall : ∀ n < 2 ^ 53, Representable 53 n := fun _ => representable_of_lt
  exact (stored_fragment_found_iff (v := ⟨1, 16, 32, 2, 7, true, 0⟩) rfl rfl hanswer).mpr
    ⟨⟨hsmall 1 (by decide), hsmall 16 (by decide), hsmall 32 (by decide), hsmall 7 (by decide)⟩,
      by decide, by decide⟩

/-- An index of more than 53 bits is not found, and a group id of 0 cannot be read. -/
theorem stored_fragment_lost :
    getFragmentMetaInfo (execAll id id [] [(4, .pushList ['a'] (.json (marshal
      ⟨9007199254740993, 16, 32, 2, 7, true, 0⟩)))]) 9007199254740993 16 32 = .ok none ∧
    getFragmentMetaInfo (execAll id id [] [(4, .pushList ['a'] (.json (marshal
      ⟨1, 16, 32, 0, 7, true, 0⟩)))]) 1 16 32 = .error .panicked := by
  decide +kernel

end Speedy.Imageserver
