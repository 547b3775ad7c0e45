import Speedy.Imageserver.Meta

/-! # Uploading a fragment and listing the fragments of a file

The handlers `uploadFile` and `getFileInfo`. What happens between an upload and the
chunkservers is an outcome here; the metadata are not touched before it is known. -/
namespace Speedy.Imageserver

def parseUint64 (n : Nat) : Option UInt64 :=
  if n < 18446744073709551616 then some (UInt64.ofNat n) else none

/-- `splitRange`: a number that does not fit leaves its variable, and that of the
number after it, at 0. -/
def splitRange (first last : Nat) : Option (UInt64 × UInt64) := do
  let start ← parseUint64 first
  let stop ← parseUint64 last
  if stop ≤ start then none else some (start, stop)

structure UploadRequest where
  path : Key
  fragmentIndex : Nat
  bytesRange : Nat × Nat
  isLast : Bool
  version1 : Bool
  length : Nat
  deriving DecidableEq, Repr

def uploadFileReadParam (req : UploadRequest) : Option MetaInfo := do
  let (start, stop) ← splitRange req.bytesRange.1 req.bytesRange.2
  let index ← parseUint64 req.fragmentIndex
  return ⟨req.path, ⟨index, start, stop, 0, 0, req.isLast, 0⟩⟩

inductive UploadOutcome where
  | noGroup
  | noFid
  | postFailed
  /-- Every server of the group has stored the data. -/
  | posted (fileId : UInt64) (groupId : UInt16)
  deriving DecidableEq, Repr

/-- `upload`, with the status code of an error -/
def upload (length : Nat) (v : MetaInfoValue) : UploadOutcome → Except Nat MetaInfoValue
  | .noGroup => .error 500
  | .noFid => .error 500
  | .postFailed => if length ≠ (v.stop - v.start).toNat then .error 400 else .error 500
  | .posted fileId groupId =>
    if length ≠ (v.stop - v.start).toNat then .error 400
    else .ok { v with fileId := fileId, groupId := groupId }

/-- `uploadFile`: the statements to execute, after which the answer is 200, or the
status code of an error -/
def uploadFile (req : UploadRequest) (outcome : UploadOutcome) : Except Nat (List Stmt) :=
  match uploadFileReadParam req with
  | none => .error 400
  | some info =>
    match upload req.length info.value outcome with
    | .error status => .error status
    | .ok v =>
      .ok (if req.version1 then storeMetaInfoV1 ⟨info.path, v⟩ else storeMetaInfoV2 ⟨info.path, v⟩)

theorem parseUint64_eq_some {n : Nat} {x : UInt64} (h : parseUint64 n = some x) :
    x.toNat = n := by
  unfold parseUint64 at h
  split at h
  · rename_i hlt
    cases h
    exact UInt64.toNat_ofNat_of_lt' hlt
  · cases h

theorem splitRange_eq_some {first last : Nat} {r : UInt64 × UInt64}
    (h : splitRange first last = some r) :
    r.1.toNat = first ∧ r.2.toNat = last ∧ r.1 < r.2 := by
  obtain ⟨start, hstart, h⟩ := Option.bind_eq_some_iff.mp h
  obtain ⟨stop, hstop, h⟩ := Option.bind_eq_some_iff.mp h
  split at h
  · cases h
  · rename_i hlt
    cases h
    exact ⟨parseUint64_eq_some hstart, parseUint64_eq_some hstop, UInt64.not_le.mp hlt⟩

theorem parseUint64_toNat (x : UInt64) : parseUint64 x.toNat = some x := by
  rw [parseUint64, if_pos x.toNat_lt, UInt64.ofNat_toNat]

theorem splitRange_toNat {start stop : UInt64} (h : start < stop) :
    splitRange start.toNat stop.toNat = some (start, stop) := by
  unfold splitRange
  rw [parseUint64_toNat, parseUint64_toNat]
  exact if_neg (UInt64.not_le.mpr h)

/-- An accepted upload stores what the request says. -/
theorem uploadFile_eq_ok {req : UploadRequest} {fileId : UInt64} {groupId : UInt16}
    {stmts : List Stmt} (h : uploadFile req (.posted fileId groupId) = .ok stmts) :
    ∃ v : MetaInfoValue, v.index.toNat = req.fragmentIndex ∧ v.start.toNat = req.bytesRange.1 ∧
      v.stop.toNat = req.bytesRange.2 ∧ v.isLast = req.isLast ∧ v.fileId = fileId ∧
      v.groupId = groupId ∧
      stmts = if req.version1 then storeMetaInfoV1 ⟨req.path, v⟩
        else storeMetaInfoV2 ⟨req.path, v⟩ := by
  unfold uploadFile at h
  split at h
  · cases h
  · rename_i info hinfo
    obtain ⟨r, hr, hinfo⟩ := Option.bind_eq_some_iff.mp hinfo
    obtain ⟨index, hindex, hinfo⟩ := Option.bind_eq_some_iff.mp hinfo
    obtain ⟨hstart, hstop, -⟩ := splitRange_eq_some hr
    cases hinfo
    split at h
    · cases h
    · rename_i v hv
      simp only [upload] at hv
      split at hv
      · cases hv
      · cases hv
        cases h
        exact ⟨_, parseUint64_eq_some hindex, hstart, hstop, rfl, rfl, rfl, rfl⟩

/-- The answer to a request for the fragments of a file -/
inductive FileInfoResponse where
  | status (code : Nat)
  | fragmentInfo (values : List MetaInfoValue)
  /-- The handler has panicked, and the connection is closed. -/
  | broken
  deriving DecidableEq, Repr

/-- `getFileInfo` on what `getList` has returned -/
def getFileInfo {δ : Type} (list : KeyList δ) : FileInfoResponse :=
  match getFileMetaInfo false list with
  | .error .notJson => .status 500
  | .error .panicked => .broken
  | .ok result => if result.length = 0 then .status 404 else .fragmentInfo result

end Speedy.Imageserver
