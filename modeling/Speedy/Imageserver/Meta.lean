import Speedy.Imageserver.KeyList
import Speedy.Lib.Except

/-! # The metadata driver

`StoreMetaInfoV1` and `StoreMetaInfoV2` as the lists of statements they execute one
by one, without a transaction, and the readers. -/
namespace Speedy.Imageserver
open Speedy.Lib

structure MetaInfoValue where
  index : UInt64
  start : UInt64
  stop : UInt64
  groupId : UInt16
  fileId : UInt64
  isLast : Bool
  modTime : Nat
  deriving DecidableEq, Repr

structure MetaInfo where
  path : Key
  value : MetaInfoValue
  deriving DecidableEq, Repr

def tag : Key := ['t', 'a', 'g', '_']
def split : Key := ['/']
def directory : Key := ['D', 'I', 'R', 'E', 'C', 'T', 'O', 'R', 'Y', '_']

/-- `strings.Index` -/
def strIndex (sub : Key) : Key → Option Nat
  | [] => if sub = [] then some 0 else none
  | c :: s => if sub.isPrefixOf (c :: s) then some 0 else (strIndex sub s).map (· + 1)

/-- `strings.LastIndex` -/
def strLastIndex (sub : Key) : Key → Option Nat
  | [] => if sub = [] then some 0 else none
  | c :: s =>
    match strLastIndex sub s with
    | some i => some (i + 1)
    | none => if sub.isPrefixOf (c :: s) then some 0 else none

def extractDirectoryAndFile (path : Key) : Key × Key :=
  match strLastIndex split path with
  | none => ([], [])
  | some lastSplitIndex =>
    let lastFragment := path.drop lastSplitIndex
    if strIndex tag lastFragment = some 1 then
      (directory ++ path.take lastSplitIndex, lastFragment.drop 1)
    else ([], [])

inductive DirOp where
  | addFile
  | delFile
  deriving DecidableEq, Repr

def handleDirectory (path : Key) (opcode : DirOp) : List Stmt :=
  let (dir, file) := extractDirectoryAndFile path
  if dir.length = 0 ∨ file.length = 0 then []
  else
    match opcode with
    | .addFile => [.pushList dir (.name file)]
    | .delFile => [.delListOne dir (.name file)]

def deleteFileMetaInfoV1 (path : Key) : List Stmt := .delList path :: handleDirectory path .delFile

def deleteFileMetaInfoV2 (path : Key) : List Stmt := [.delList path]

/-- `json.Marshal`: zeros of `GroupId` and `FileId` are left out; the tag of `ModTime`
lacks its closing quote and has no effect. -/
def marshal (v : MetaInfoValue) : JsonObject :=
  [(.index, .number v.index.toNat), (.start, .number v.start.toNat),
    (.stop, .number v.stop.toNat)] ++
  (if v.groupId = 0 then [] else [(.groupId, .number v.groupId.toNat)]) ++
  (if v.fileId = 0 then [] else [(.fileId, .number v.fileId.toNat)]) ++
  [(.isLast, .bool v.isLast), (.modTime, .time v.modTime)]

def storeMetaInfoV1 (info : MetaInfo) : List Stmt :=
  (if info.value.isLast && info.value.index == 0 then deleteFileMetaInfoV1 info.path else []) ++
  handleDirectory info.path .addFile ++
  [.pushList info.path (.json (marshal info.value))]

def storeMetaInfoV2 (info : MetaInfo) : List Stmt :=
  (if info.value.isLast && info.value.index == 0 then deleteFileMetaInfoV2 info.path else []) ++
  [.pushList info.path (.json (marshal info.value))]

/-- Why `GetFileMetaInfo` does not return: the text is no JSON, or a type assertion
panics. -/
inductive MetaFailure where
  | notJson
  | panicked
  deriving DecidableEq, Repr

/-- `jsonMap[field].(float64)`: numbers come as doubles. -/
def jsonFloat (o : JsonObject) (field : JsonField) : Except MetaFailure Nat :=
  match o.lookup field with
  | some (.number n) => .ok (roundBits 53 n)
  | _ => .error .panicked

def jsonBool (o : JsonObject) (field : JsonField) : Except MetaFailure Bool :=
  match o.lookup field with
  | some (.bool b) => .ok b
  | _ => .error .panicked

/-- `uint64(f)`; outside the range the result is that of amd64. -/
def floatToUint64 (f : Nat) : UInt64 :=
  if f < 18446744073709551616 then UInt64.ofNat f else 9223372036854775808

/-- `uint16(f)`; the conversion goes through a wider integer. -/
def floatToUint16 (f : Nat) : UInt16 := UInt16.ofNat f

/-- The body of the loop of `GetFileMetaInfo` -/
def readMetaInfoValue (detail : Bool) (value : ListValue) (updateTime : Nat) :
    Except MetaFailure MetaInfoValue :=
  match value with
  | .name _ => .error .notJson
  | .json o => do
    let index ← jsonFloat o .index
    let start ← jsonFloat o .start
    let stop ← jsonFloat o .stop
    let isLast ← jsonBool o .isLast
    let v : MetaInfoValue :=
      ⟨floatToUint64 index, floatToUint64 start, floatToUint64 stop, 0, 0, isLast, updateTime⟩
    if detail then
      let fileId ← jsonFloat o .fileId
      let groupId ← jsonFloat o .groupId
      return { v with fileId := floatToUint64 fileId, groupId := floatToUint16 groupId }
    else return v

def readRow {δ : Type} (detail : Bool) (r : Row δ) : Except MetaFailure MetaInfoValue :=
  readMetaInfoValue detail r.listValue r.updateTime

/-- `GetFileMetaInfo` on what `getList` has returned -/
def getFileMetaInfo {δ : Type} (detail : Bool) (list : KeyList δ) :
    Except MetaFailure (List MetaInfoValue) :=
  list.mapM (readRow detail)

/-! ## The directory of a file -/

theorem strLastIndex_drop {sub s : Key} {i : Nat} (h : strLastIndex sub s = some i) :
    sub <+: s.drop i := by
  induction s generalizing i with
  | nil =>
    simp only [strLastIndex] at h
    split at h
    · subst sub
      exact List.nil_prefix
    · cases h
  | cons c s ih =>
    simp only [strLastIndex] at h
    split at h
    · rename_i j hj
      cases h
      exact ih hj
    · split at h
      · rename_i hp
        cases h
        exact List.isPrefixOf_iff_prefix.mp hp
      · cases h

/-- The key of a directory is never the path of the file: it has a slash less. -/
theorem extractDirectoryAndFile_ne {path : Key} (h : (extractDirectoryAndFile path).1 ≠ []) :
    (extractDirectoryAndFile path).1 ≠ path := by
  unfold extractDirectoryAndFile at h ⊢
  split at h
  · exact absurd rfl h
  · rename_i i hi
    obtain ⟨rest, hrest⟩ := strLastIndex_drop hi
    dsimp only at h ⊢
    split at h
    · rename_i htag
      simp only [htag, if_true]
      intro he
      have hcount := congrArg (List.count '/') he
      have hpath : path.count '/' = (path.take i).count '/' + (path.drop i).count '/' := by
        rw [← List.count_append, List.take_append_drop]
      rw [hpath, ← hrest, List.count_append, List.count_append] at hcount
      simp [directory, split] at hcount
    · exact absurd rfl h

def dirOf (path : Key) : Key := (extractDirectoryAndFile path).1

def fileOf (path : Key) : ListValue := .name (extractDirectoryAndFile path).2

/-- Whether the path is that of a tag, which is listed in its directory -/
def IsTag (path : Key) : Prop := dirOf path ≠ [] ∧ (extractDirectoryAndFile path).2 ≠ []

theorem handleDirectory_of_isTag {path : Key} (h : IsTag path) (op : DirOp) :
    handleDirectory path op = match op with
      | .addFile => [.pushList (dirOf path) (fileOf path)]
      | .delFile => [.delListOne (dirOf path) (fileOf path)] := by
  have hne : ¬ ((extractDirectoryAndFile path).1.length = 0 ∨
      (extractDirectoryAndFile path).2.length = 0) := by
    rw [List.length_eq_zero_iff, List.length_eq_zero_iff, not_or]
    exact h
  unfold handleDirectory
  simp only [hne, if_false]
  cases op <;> rfl

theorem handleDirectory_of_not_isTag {path : Key} (h : ¬ IsTag path) (op : DirOp) :
    handleDirectory path op = [] := by
  have hnil : (extractDirectoryAndFile path).1.length = 0 ∨
      (extractDirectoryAndFile path).2.length = 0 := by
    rw [List.length_eq_zero_iff, List.length_eq_zero_iff]
    by_contra hc
    exact h (not_or.mp hc)
  unfold handleDirectory
  simp only [hnil, if_true]

theorem IsTag.directory_ne {path : Key} (h : IsTag path) :
    dirOf path ≠ path :=
  extractDirectoryAndFile_ne h.1

section Store
variable {δ : Type} [DecidableEq δ] {encrypt : Key → δ} {collate : Key → Key} {t : KeyList δ}
  {path : Key}

/-- The statements about the directory leave the rows of the path alone. -/
theorem rowsOf_handleDirectory (hdir : IsTag path → encrypt (dirOf path) ≠ encrypt path)
    (op : DirOp) {stmts : List (Nat × Stmt)} (h : stmts.map Prod.snd = handleDirectory path op) :
    rowsOf encrypt path (execAll encrypt collate t stmts) = rowsOf encrypt path t := by
  refine rowsOf_execAll_of_ne fun s hs => ?_
  have hmem : s.2 ∈ handleDirectory path op := h ▸ List.mem_map_of_mem hs
  by_cases htag : IsTag path
  · rw [handleDirectory_of_isTag htag] at hmem
    cases op <;> rw [List.mem_singleton.mp hmem] <;> exact hdir htag
  · rw [handleDirectory_of_not_isTag htag] at hmem
    cases hmem

end Store

/-! ## Reading back -/

/-- A number as `GetFileMetaInfo` returns it -/
def readUint64 (n : Nat) : Nat := (floatToUint64 (roundBits 53 n)).toNat

theorem readUint64_idem (n : Nat) : readUint64 (readUint64 n) = readUint64 n := by
  have hround := roundBits_idem (n := n) (by decide : 0 < 53)
  by_cases hlt : roundBits 53 n < 18446744073709551616
  · have hread : readUint64 n = roundBits 53 n := by
      rw [readUint64, floatToUint64, if_pos hlt, UInt64.toNat_ofNat_of_lt' hlt]
    rw [hread]
    rw [readUint64, hround, floatToUint64, if_pos hlt, UInt64.toNat_ofNat_of_lt' hlt]
  · have hread : readUint64 n = 9223372036854775808 := by
      rw [readUint64, floatToUint64, if_neg hlt]
      rfl
    rw [hread]
    decide +kernel

section Fields
variable (v : MetaInfoValue)

theorem jsonFloat_index : jsonFloat (marshal v) .index = .ok (roundBits 53 v.index.toNat) := rfl

theorem jsonFloat_start : jsonFloat (marshal v) .start = .ok (roundBits 53 v.start.toNat) := rfl

theorem jsonFloat_stop : jsonFloat (marshal v) .stop = .ok (roundBits 53 v.stop.toNat) := rfl

theorem jsonBool_isLast : jsonBool (marshal v) .isLast = .ok v.isLast := by
  by_cases hg : v.groupId = 0 <;> by_cases hf : v.fileId = 0 <;>
    simp only [marshal, hg, hf, if_true, if_false] <;> rfl

/-- `omitempty` leaves out an id of 0. -/
theorem jsonFloat_fileId : jsonFloat (marshal v) .fileId =
    if v.fileId = 0 then .error .panicked else .ok (roundBits 53 v.fileId.toNat) := by
  by_cases hg : v.groupId = 0 <;> by_cases hf : v.fileId = 0 <;>
    simp only [marshal, hg, hf, if_true, if_false] <;> rfl

theorem jsonFloat_groupId : jsonFloat (marshal v) .groupId =
    if v.groupId = 0 then .error .panicked else .ok (roundBits 53 v.groupId.toNat) := by
  by_cases hg : v.groupId = 0 <;> by_cases hf : v.fileId = 0 <;>
    simp only [marshal, hg, hf, if_true, if_false] <;> rfl

end Fields

theorem readMetaInfoValue_marshal (v : MetaInfoValue) (u : Nat) :
    readMetaInfoValue false (.json (marshal v)) u =
      .ok ⟨floatToUint64 (roundBits 53 v.index.toNat), floatToUint64 (roundBits 53 v.start.toNat),
        floatToUint64 (roundBits 53 v.stop.toNat), 0, 0, v.isLast, u⟩ := by
  simp only [readMetaInfoValue, jsonFloat_index, jsonFloat_start, jsonFloat_stop, jsonBool_isLast]
  rfl

end Speedy.Imageserver
