import Mathlib.Data.List.Perm.Basic
import Speedy.Driver.Multipart

/-! # Moving a file

`MoveFile` gives the rows of one path the key of another. Rows that the other path has stay
where they are, so a file is only renamed if there are none; else the fragments of both are
found under one path. -/
namespace Speedy.Cluster
open Speedy.Lib Speedy.Imageserver Speedy.Driver

section Table
variable {δ : Type} [DecidableEq δ] (encrypt : Key → δ)

/-- A row under its new key. The column `update_time` follows every change of a row. -/
def renamed (now : Nat) (newKey : Key) (r : Row δ) : Row δ :=
  { r with listKey := newKey, md5Key := encrypt newKey, updateTime := now }

def updateListKey (now : Nat) (oldKey newKey : Key) (t : KeyList δ) : KeyList δ :=
  t.map fun r => if r.md5Key = encrypt oldKey then renamed encrypt now newKey r else r

def moveFile (now : Nat) (sourcePath destPath : Key) (t : KeyList δ) : KeyList δ :=
  updateListKey encrypt now sourcePath destPath t

/-- `GetFileMetaInfo` can return these fragments. Rows of one second come in any order. -/
def Returns (detail : Bool) (path : Key) (t : KeyList δ) (vs : List MetaInfoValue) : Prop :=
  ∃ answer, GetList encrypt path t answer ∧ getFileMetaInfo detail answer = .ok vs

end Table

/-- The fragment of a row that was changed at the time `now`. -/
def touched (now : Nat) (v : MetaInfoValue) : MetaInfoValue := { v with modTime := now }

section Read
variable {δ : Type} {encrypt : Key → δ} {detail : Bool} {now : Nat}

/-- The time of a row is that of its fragment, and has no other effect. -/
theorem readMetaInfoValue_touched (x : ListValue) (u : Nat) :
    readMetaInfoValue detail x now = (readMetaInfoValue detail x u).map (touched now) := by
  cases x with
  | name s => rfl
  | json o =>
    unfold readMetaInfoValue
    simp only
    cases jsonFloat o .index with
    | error e => rfl
    | ok index =>
      cases jsonFloat o .start with
      | error e => rfl
      | ok start =>
        cases jsonFloat o .stop with
        | error e => rfl
        | ok stop =>
          cases jsonBool o .isLast with
          | error e => rfl
          | ok isLast =>
            cases detail with
            | false => rfl
            | true =>
              cases jsonFloat o .fileId with
              | error e => rfl
              | ok fileId => cases jsonFloat o .groupId <;> rfl

theorem readRow_renamed (r : Row δ) (newKey : Key) :
    readRow detail (renamed encrypt now newKey r) = (readRow detail r).map (touched now) :=
  readMetaInfoValue_touched r.listValue r.updateTime

/-- Renaming the rows of an answer. -/
theorem getFileMetaInfo_renamed (answer : KeyList δ) (newKey : Key) :
    getFileMetaInfo detail (answer.map (renamed encrypt now newKey)) =
      (getFileMetaInfo detail answer).map fun vs => vs.map (touched now) := by
  unfold getFileMetaInfo
  induction answer with
  | nil => rfl
  | cons r answer ih =>
    rw [List.map_cons, List.mapM_cons, List.mapM_cons, ih, readRow_renamed]
    cases readRow detail r with
    | error e => rfl
    | ok v => cases answer.mapM (readRow detail) <;> rfl

end Read

section Rows
variable {δ : Type} [DecidableEq δ] {encrypt : Key → δ} {now : Nat} {src dst key : Key}
  {t answer : KeyList δ} {detail : Bool} {vs : List MetaInfoValue}

theorem getList_congr {t' : KeyList δ} {key' : Key}
    (h : rowsOf encrypt key' t' = rowsOf encrypt key t) :
    GetList encrypt key' t' answer ↔ GetList encrypt key t answer := by
  unfold GetList
  rw [h]

/-- As many fragments as rows, and every row can be read. -/
theorem Returns.rows (h : Returns encrypt detail key t vs) :
    vs.length = (rowsOf encrypt key t).length ∧
      ∀ r ∈ rowsOf encrypt key t, ∃ v, readRow detail r = .ok v := by
  obtain ⟨answer, ⟨hperm, -⟩, hread⟩ := h
  have hmap := mapM_eq_ok_iff.mp hread
  constructor
  · have hlen := congrArg List.length hmap
    rw [List.length_map, List.length_map] at hlen
    rw [← hlen, hperm.length_eq]
  · intro r hr
    have hmem : readRow detail r ∈ answer.map (readRow detail) :=
      List.mem_map_of_mem (hperm.mem_iff.mpr hr)
    rw [hmap] at hmem
    obtain ⟨v, -, hv⟩ := List.mem_map.mp hmem
    exact ⟨v, hv.symm⟩

theorem exists_returns (h : ∀ r ∈ rowsOf encrypt key t, ∃ v, readRow detail r = .ok v) :
    ∃ vs, Returns encrypt detail key t vs := by
  obtain ⟨answer, hanswer⟩ := exists_getList encrypt key t
  have hread : ∀ r ∈ answer, ∃ v, readRow detail r = .ok v :=
    fun r hr => h r (hanswer.1.mem_iff.mp hr)
  obtain ⟨vs, hvs⟩ := exists_mapM_eq_ok hread
  exact ⟨vs, answer, hanswer, hvs⟩

/-! ## The rows after a move -/

theorem rowsOf_moveFile_source (now : Nat) (t : KeyList δ) (hne : encrypt src ≠ encrypt dst) :
    rowsOf encrypt src (moveFile encrypt now src dst t) = [] := by
  refine List.filter_eq_nil_iff.mpr fun r hr => ?_
  obtain ⟨q, -, rfl⟩ := List.mem_map.mp hr
  split
  · exact fun he => hne (of_decide_eq_true he).symm
  · rename_i hq
    exact fun he => hq (of_decide_eq_true he)

theorem rowsOf_moveFile_other (now : Nat) (t : KeyList δ) (hsrc : encrypt key ≠ encrypt src)
    (hdst : encrypt key ≠ encrypt dst) :
    rowsOf encrypt key (moveFile encrypt now src dst t) = rowsOf encrypt key t := by
  unfold rowsOf moveFile updateListKey
  induction t with
  | nil => rfl
  | cons r t ih =>
    rw [List.map_cons, List.filter_cons, List.filter_cons, ih]
    by_cases hr : r.md5Key = encrypt src
    · simp [hr, renamed, hsrc.symm, hdst.symm]
    · simp [hr]

/-- The rows of the destination stay, and those of the source are added. -/
theorem rowsOf_moveFile_dest (now : Nat) (t : KeyList δ) (hne : encrypt src ≠ encrypt dst) :
    (rowsOf encrypt dst (moveFile encrypt now src dst t)).Perm
      ((rowsOf encrypt src t).map (renamed encrypt now dst) ++ rowsOf encrypt dst t) := by
  unfold rowsOf moveFile updateListKey
  induction t with
  | nil => exact .refl _
  | cons r t ih =>
    rw [List.map_cons, List.filter_cons, List.filter_cons, List.filter_cons]
    by_cases hr : r.md5Key = encrypt src
    · simpa [hr, renamed, hne] using ih
    · by_cases hd : r.md5Key = encrypt dst
      · simp only [hd, hne.symm, if_false, decide_true, decide_false, if_true,
          Bool.false_eq_true]
        exact (List.Perm.cons r ih).trans List.perm_middle.symm
      · simpa [hr, hd] using ih

/-- Onto a path without rows: the same answers under the new key. -/
theorem getList_moveFile_iff (hne : encrypt src ≠ encrypt dst)
    (hfree : rowsOf encrypt dst t = []) :
    GetList encrypt dst (moveFile encrypt now src dst t) answer ↔
      ∃ before, GetList encrypt src t before ∧ answer = before.map (renamed encrypt now dst) := by
  have hrows := rowsOf_moveFile_dest now t hne
  rw [hfree, List.append_nil] at hrows
  constructor
  · intro h
    obtain ⟨hperm, hsorted⟩ := h
    have hcomp := congrFun₂ (List.eq_map_comp_perm (renamed encrypt now dst)) answer
      (rowsOf encrypt src t)
    obtain ⟨before, rfl, hbefore⟩ := hcomp.mpr (hperm.trans hrows)
    exact ⟨before, ⟨hbefore, List.pairwise_map.mp hsorted⟩, rfl⟩
  · intro h
    obtain ⟨before, ⟨hperm, hsorted⟩, rfl⟩ := h
    exact ⟨(hperm.map _).trans hrows.symm, List.pairwise_map.mpr hsorted⟩

theorem returns_moveFile_iff (hne : encrypt src ≠ encrypt dst)
    (hfree : rowsOf encrypt dst t = []) :
    Returns encrypt detail dst (moveFile encrypt now src dst t) vs ↔
      ∃ before, Returns encrypt detail src t before ∧ vs = before.map (touched now) := by
  unfold Returns
  constructor
  · intro h
    obtain ⟨answer, hanswer, hread⟩ := h
    obtain ⟨before, hbefore, rfl⟩ := (getList_moveFile_iff hne hfree).mp hanswer
    rw [getFileMetaInfo_renamed] at hread
    obtain ⟨ws, hws, rfl⟩ := map_eq_ok hread
    exact ⟨ws, ⟨before, hbefore, hws⟩, rfl⟩
  · intro h
    obtain ⟨ws, ⟨before, hbefore, hws⟩, rfl⟩ := h
    refine ⟨_, (getList_moveFile_iff hne hfree).mpr ⟨before, hbefore, rfl⟩, ?_⟩
    rw [getFileMetaInfo_renamed, hws]
    rfl

/-- Only with a row that cannot be read, or none at the destination. -/
theorem moved_fragments_iff (hne : encrypt src ≠ encrypt dst) :
    (∀ vs, Returns encrypt detail dst (moveFile encrypt now src dst t) vs ↔
      ∃ before, Returns encrypt detail src t before ∧ vs = before.map (touched now)) ↔
      rowsOf encrypt dst t = [] ∨ ∃ r ∈ rowsOf encrypt src t, ∀ v, readRow detail r ≠ .ok v := by
  have hrows := rowsOf_moveFile_dest now t hne
  constructor
  · intro h
    by_cases hread : ∀ r ∈ rowsOf encrypt src t, ∃ v, readRow detail r = .ok v
    · refine .inl (List.length_eq_zero_iff.mp ?_)
      obtain ⟨before, hbefore⟩ := exists_returns hread
      have hafter := (h _).mpr ⟨before, hbefore, rfl⟩
      have hlen := hafter.rows.1
      rw [List.length_map, hbefore.rows.1, hrows.length_eq, List.length_append,
        List.length_map] at hlen
      omega
    · refine .inr ?_
      by_contra hc
      refine hread fun r hr => ?_
      by_contra hv
      exact hc ⟨r, hr, fun v he => hv ⟨v, he⟩⟩
  · intro h vs
    rcases h with hfree | ⟨r, hr, hbad⟩
    · exact returns_moveFile_iff hne hfree
    · refine iff_of_false ?_ ?_
      · intro hret
        have hmem : renamed encrypt now dst r ∈
            rowsOf encrypt dst (moveFile encrypt now src dst t) :=
          hrows.mem_iff.mpr (List.mem_append_left _ (List.mem_map_of_mem hr))
        obtain ⟨v, hv⟩ := hret.rows.2 _ hmem
        rw [readRow_renamed] at hv
        obtain ⟨w, hw, -⟩ := map_eq_ok hv
        exact hbad w hw
      · intro hret
        obtain ⟨before, hbefore, -⟩ := hret
        obtain ⟨v, hv⟩ := hbefore.rows.2 r hr
        exact hbad v hv

/-- Two answers are the same fragments in another order. -/
theorem Returns.perm {ws : List MetaInfoValue} (h : Returns encrypt detail key t vs)
    (h' : Returns encrypt detail key t ws) : vs.Perm ws := by
  obtain ⟨a, ⟨ha, -⟩, hvs⟩ := h
  obtain ⟨b, ⟨hb, -⟩, hws⟩ := h'
  have hmap := (ha.trans hb.symm).map (readRow detail)
  rw [mapM_eq_ok_iff.mp hvs, mapM_eq_ok_iff.mp hws] at hmap
  exact (List.map_perm_map_iff fun _ _ he => Except.ok.inj he).mp hmap

/-- A move empties the source and leaves other paths alone. The destination then has exactly
the fragments of the source, and is the same complete file, if and only if it had no row
before (or the source has a row that cannot be read). -/
theorem move_is_rename_iff (hne : encrypt src ≠ encrypt dst) (now : Nat) (t : KeyList δ)
    (detail : Bool) :
    ((∀ vs, Returns encrypt detail src (moveFile encrypt now src dst t) vs ↔ vs = []) ∧
      ∀ key, encrypt key ≠ encrypt src → encrypt key ≠ encrypt dst →
        ∀ vs, Returns encrypt detail key (moveFile encrypt now src dst t) vs ↔
          Returns encrypt detail key t vs) ∧
    ((∀ vs, Returns encrypt detail dst (moveFile encrypt now src dst t) vs ↔
        ∃ before, Returns encrypt detail src t before ∧ vs = before.map (touched now)) ↔
      rowsOf encrypt dst t = [] ∨ ∃ r ∈ rowsOf encrypt src t, ∀ v, readRow detail r ≠ .ok v) ∧
    (rowsOf encrypt dst t = [] → ∀ before file, Returns encrypt detail src t before →
      checkFragments (before.map fragmentInfoOf) = .ok (some file) →
      ∀ after, Returns encrypt detail dst (moveFile encrypt now src dst t) after →
        checkFragments (after.map fragmentInfoOf) = .ok (some file)) := by
  refine ⟨⟨?_, ?_⟩, moved_fragments_iff hne, ?_⟩
  · intro vs
    have hnone := rowsOf_moveFile_source now t hne
    constructor
    · intro h
      have hlen := h.rows.1
      rw [hnone] at hlen
      exact List.length_eq_zero_iff.mp hlen
    · intro h
      refine ⟨[], ⟨?_, .nil⟩, ?_⟩
      · rw [hnone]
      · rw [h]
        rfl
  · intro key hsrc hdst vs
    have hrows := rowsOf_moveFile_other now t hsrc hdst
    unfold Returns
    simp only [getList_congr hrows]
  · intro hfree before file hbefore hcheck after hafter
    obtain ⟨ws, hws, rfl⟩ := (returns_moveFile_iff hne hfree).mp hafter
    obtain ⟨total, gs⟩ := file
    obtain ⟨hperm, hrest⟩ := checkFragments_eq_ok_iff.mp hcheck
    refine checkFragments_eq_ok_iff.mpr ⟨?_, hrest⟩
    have hinfo : (ws.map (touched now)).map fragmentInfoOf = ws.map fragmentInfoOf := by
      rw [List.map_map]
      rfl
    rw [hinfo]
    exact hperm.trans ((hbefore.perm hws).map _)

end Rows

/-- A row of a file of one fragment. -/
def fileRow (path : Key) (length fileId : UInt64) (time : Nat) : Row Key :=
  ⟨path, path, .json (marshal ⟨0, 0, length, 1, fileId, true, 0⟩), time, time⟩

theorem move_is_rename_free :
    rowsOf id ['b'] [fileRow ['a'] 3 7 2] = [] ∧
    ∀ vs, Returns id true ['b'] (moveFile id 9 ['a'] ['b'] [fileRow ['a'] 3 7 2]) vs ↔
      ∃ before, Returns id true ['a'] [fileRow ['a'] 3 7 2] before ∧
        vs = before.map (touched 9) := by
  have hne : id ['a'] ≠ id ['b'] := by decide
  have hfree : rowsOf id ['b'] [fileRow ['a'] 3 7 2] = [] := by decide +kernel
  exact ⟨hfree, (move_is_rename_iff hne 9 _ true).2.1.mpr (.inl hfree)⟩

/-- Moved onto another file, it cannot be read, and neither can the other. -/
theorem move_onto_file_merges :
    let t := [fileRow ['a'] 3 7 2, fileRow ['b'] 5 8 1]
    let moved := [renamed id 9 ['b'] (fileRow ['a'] 3 7 2), fileRow ['b'] 5 8 1]
    moveFile id 9 ['a'] ['b'] t = moved ∧ GetList id ['b'] moved moved ∧
    getfileinfo (getFileInfo (rowsOf id ['a'] t)) = .ok (3, [⟨0, 0, 3, true⟩]) ∧
    getfileinfo (getFileInfo moved) = .error .fragmentInfo := by
  refine ⟨by decide +kernel, ⟨.of_eq (by decide +kernel), ?_⟩, by decide +kernel, by decide +kernel⟩
  decide +kernel

end Speedy.Cluster
