import Speedy.Imageserver.Handlers
import Speedy.Lib.Replace

/-! # Concurrent uploads of a small file

Uploads of a file of one fragment store its metadata by deleting what the path had and
inserting a row, statement by statement; of concurrent uploads to one path the
statements interleave. -/
namespace Speedy.Imageserver
open Speedy.Lib

/-- The statements of `n` concurrent uploads in the order and at the times at which
they are executed, each with the upload it belongs to -/
abbrev Schedule (n : Nat) := List (Fin n × (Nat × Stmt))

/-- The schedule executes the statements of every upload in their order. -/
def Schedule.Executes {n : Nat} (sched : Schedule n) (stmts : Fin n → List Stmt) : Prop :=
  ∀ i, (sched.filter fun e => e.1 = i).map (fun e => e.2.2) = stmts i

/-- Some upload executes the `DELETE` statement `del` after all others have executed
their `INSERT` of a value of `sel` under `key`. -/
def Schedule.DeletesLast {n : Nat} (sched : Schedule n) (del : Stmt) (key : Key)
    (sel : ListValue → Bool) : Prop :=
  ∃ p i now q, sched = p ++ (i, (now, del)) :: q ∧
    ∀ e ∈ q, e.1 ≠ i → ∀ v, sel v = true → e.2.2 ≠ .pushList key v

/-- What a statement does to the rows of a key with a value of `sel`, if `del` is the
one that deletes them -/
def replaceOp {δ : Type} {n : Nat} (encrypt : Key → δ) (del : Stmt) (key : Key)
    (sel : ListValue → Bool) (e : Fin n × (Nat × Stmt)) : Option (Op (Row δ)) :=
  if e.2.2 = del then some .clear
  else
    match e.2.2 with
    | .pushList k v =>
      if k = key ∧ sel v = true then some (.add ⟨k, encrypt k, v, e.2.1, e.2.1⟩) else none
    | _ => none

section ReplaceOp
variable {δ : Type} {encrypt : Key → δ} {n : Nat} {del : Stmt} {key : Key}
  {sel : ListValue → Bool}

theorem replaceOp_eq_clear {e : Fin n × (Nat × Stmt)} :
    replaceOp encrypt del key sel e = some .clear ↔ e.2.2 = del := by
  unfold replaceOp
  split
  · simp [*]
  · rename_i hne
    split
    · split <;> simp [hne]
    · simp [hne]

theorem added_replaceOp {e : Fin n × (Nat × Stmt)} (hdel : ∀ v, del ≠ .pushList key v) :
    added (replaceOp encrypt del key sel) e = none ↔
      ∀ v, sel v = true → e.2.2 ≠ .pushList key v := by
  obtain ⟨i, now, s⟩ := e
  unfold added replaceOp
  by_cases hs : s = del
  · subst hs
    simpa using fun v _ => hdel v
  simp only [hs, if_false]
  cases s with
  | pushList k v =>
    by_cases hk : k = key ∧ sel v = true
    · simp only [hk, and_self, if_true]
      simpa using hk.2
    · simp only [hk, if_false, true_iff]
      rintro w hw he
      cases he
      exact hk ⟨rfl, hw⟩
  | delList k => simp
  | delListOne k v => simp

theorem replaceOp_of_pushList {e : Fin n × (Nat × Stmt)} {v : ListValue}
    (he : e.2.2 = .pushList key v)
    (hv : sel v = true) (hdel : ∀ v, del ≠ .pushList key v) :
    replaceOp encrypt del key sel e = some (.add ⟨key, encrypt key, v, e.2.1, e.2.1⟩) := by
  have hne : e.2.2 ≠ del := fun hd => hdel v (hd ▸ he)
  unfold replaceOp
  rw [if_neg hne, he]
  exact if_pos ⟨rfl, hv⟩

theorem replaceOp_eq_none {e : Fin n × (Nat × Stmt)} (hdel : e.2.2 ≠ del)
    (hpush : ∀ v, e.2.2 ≠ .pushList key v) : replaceOp encrypt del key sel e = none := by
  unfold replaceOp
  rw [if_neg hdel]
  split
  · rename_i k v he
    exact if_neg fun (hk : k = key ∧ sel v = true) => hpush v (hk.1 ▸ he)
  · rfl

theorem clearsLast_iff {sched : Schedule n} (hdel : ∀ v, del ≠ .pushList key v) :
    ClearsLast (replaceOp encrypt del key sel) Prod.fst sched ↔
      sched.DeletesLast del key sel := by
  constructor
  · rintro ⟨p, ⟨i, now, s⟩, q, hsched, hs, hq⟩
    have hs : s = del := replaceOp_eq_clear.mp hs
    subst hs
    exact ⟨p, i, now, q, hsched, fun e he hne => (added_replaceOp hdel).mp (hq e he hne)⟩
  · rintro ⟨p, i, now, q, hsched, hq⟩
    exact ⟨p, _, q, hsched, replaceOp_eq_clear.mpr rfl, fun e he hne =>
      (added_replaceOp hdel).mpr (hq e he hne)⟩

end ReplaceOp

/-- The rows of a key with a value of `sel` -/
def rowsWith {δ : Type} [DecidableEq δ] (encrypt : Key → δ) (key : Key) (sel : ListValue → Bool)
    (t : KeyList δ) : KeyList δ :=
  (rowsOf encrypt key t).filter fun r => sel r.listValue

/-- A statement that deletes rows of a key is `del` itself, and one about another key has
another digest. -/
def OnlyDeletes {δ : Type} (encrypt : Key → δ) (del : Stmt) (key : Key) : Stmt → Prop
  | .pushList k _ => k = key ∨ encrypt k ≠ encrypt key
  | .delList k => .delList k = del ∨ encrypt k ≠ encrypt key
  | .delListOne k v => .delListOne k v = del ∨ encrypt k ≠ encrypt key

section Rows
variable {δ : Type} [DecidableEq δ] {encrypt : Key → δ} {collate : Key → Key} {n : Nat}
  {del : Stmt} {key : Key} {sel : ListValue → Bool}

theorem rowsWith_exec
    (hdel : ∀ now t, rowsWith encrypt key sel (del.exec encrypt collate now t) = []) {t : KeyList δ}
    {e : Fin n × (Nat × Stmt)} (he : OnlyDeletes encrypt del key e.2.2) :
    rowsWith encrypt key sel (e.2.2.exec encrypt collate e.2.1 t) =
      Op.apply (replaceOp encrypt del key sel) (rowsWith encrypt key sel t) e := by
  obtain ⟨i, now, s⟩ := e
  unfold Op.apply replaceOp
  by_cases hs : s = del
  · simp only [hs, if_true]
    exact hdel now t
  simp only [hs, if_false]
  cases s with
  | pushList k v =>
    by_cases hk : k = key
    · subst hk
      simp only [rowsWith, rowsOf_pushList_self, List.filter_append, true_and]
      by_cases hv : sel v = true <;> simp [hv]
    · simp only [hk, false_and, if_false]
      rw [rowsWith, rowsOf_pushList_of_ne now (he.resolve_left hk)]
      rfl
  | delList k =>
    rw [rowsWith, rowsOf_delList_of_ne now (he.resolve_left hs)]
    rfl
  | delListOne k v =>
    rw [rowsWith, rowsOf_delListOne_of_ne now (he.resolve_left hs)]
    rfl

/-- The rows at the end of a schedule -/
theorem rowsWith_execAll
    (hdel : ∀ now t, rowsWith encrypt key sel (del.exec encrypt collate now t) = []) {t : KeyList δ}
    {sched : Schedule n} (hs : ∀ e ∈ sched, OnlyDeletes encrypt del key e.2.2) :
    rowsWith encrypt key sel (execAll encrypt collate t (sched.map Prod.snd)) =
      content (replaceOp encrypt del key sel) (rowsWith encrypt key sel t) sched := by
  induction sched generalizing t with
  | nil => rfl
  | cons e sched ih =>
    obtain ⟨he, hs⟩ := List.forall_mem_cons.mp hs
    rw [List.map_cons, execAll_cons, ih hs, rowsWith_exec hdel he]
    rfl

end Rows

/-! ## The uploads -/

/-- `n` uploads of a whole file to one path that are accepted, and the statements they
execute -/
structure SmallUploads {n : Nat} (path : Key) (reqs : Fin n → UploadRequest)
    (stmts : Fin n → List Stmt) : Prop where
  path_eq : ∀ i, (reqs i).path = path
  whole : ∀ i, (reqs i).fragmentIndex = 0 ∧ (reqs i).isLast = true
  accepted : ∀ i, ∃ fileId groupId, uploadFile (reqs i) (.posted fileId groupId) = .ok (stmts i)

/-- The statements of `StoreMetaInfoV1` that are about the directory -/
def dirStmts (path : Key) (version1 : Bool) : List Stmt :=
  if version1 then handleDirectory path .delFile ++ handleDirectory path .addFile else []

theorem SmallUploads.stmts_eq {n : Nat} {path : Key} {reqs : Fin n → UploadRequest}
    {stmts : Fin n → List Stmt} (h : SmallUploads path reqs stmts) (i : Fin n) :
    ∃ v, stmts i = .delList path ::
      (dirStmts path (reqs i).version1 ++ [.pushList path (.json (marshal v))]) := by
  obtain ⟨fileId, groupId, hacc⟩ := h.accepted i
  obtain ⟨v, hindex, -, -, hlast, -, -, hstmts⟩ := uploadFile_eq_ok hacc
  rw [(h.whole i).1] at hindex
  have hwhole : (v.isLast && v.index == 0) = true := by
    have hzero : v.index = 0 := UInt64.toNat_inj.mp hindex
    rw [hlast, (h.whole i).2, hzero]
    rfl
  refine ⟨v, ?_⟩
  rw [hstmts, h.path_eq i]
  cases (reqs i).version1 <;>
    simp [dirStmts, storeMetaInfoV1, storeMetaInfoV2, hwhole, deleteFileMetaInfoV1,
      deleteFileMetaInfoV2]

theorem mem_dirStmts {path : Key} {version1 : Bool} {s : Stmt} (h : s ∈ dirStmts path version1) :
    IsTag path ∧
      (s = .delListOne (dirOf path) (fileOf path) ∨ s = .pushList (dirOf path) (fileOf path)) := by
  unfold dirStmts at h
  split at h
  · by_cases htag : IsTag path
    · rw [handleDirectory_of_isTag htag, handleDirectory_of_isTag htag] at h
      simpa [htag] using h
    · rw [handleDirectory_of_not_isTag htag, handleDirectory_of_not_isTag htag] at h
      cases h
  · cases h

/-- What the statements of an upload do to the rows of its path -/
abbrev pathOp {δ : Type} {n : Nat} (encrypt : Key → δ) (path : Key) :
    Fin n × (Nat × Stmt) → Option (Op (Row δ)) :=
  replaceOp encrypt (.delList path) path fun _ => true

/-- What they do to the entry in its directory -/
abbrev dirOp {δ : Type} {n : Nat} (encrypt : Key → δ) (path : Key) :
    Fin n × (Nat × Stmt) → Option (Op (Row δ)) :=
  replaceOp encrypt (.delListOne (dirOf path) (fileOf path)) (dirOf path) fun v => v = fileOf path

section Uploads
variable {δ : Type} (encrypt : Key → δ) {n : Nat} {path : Key} {reqs : Fin n → UploadRequest}
  {stmts : Fin n → List Stmt} {sched : Schedule n}

theorem Schedule.Executes.mem (h : sched.Executes stmts) {e : Fin n × (Nat × Stmt)}
    (he : e ∈ sched) : e.2.2 ∈ stmts e.1 := by
  rw [← h e.1]
  exact List.mem_map_of_mem (List.mem_filter.mpr ⟨he, by simp⟩)

theorem SmallUploads.mem_stmts (h : SmallUploads path reqs stmts) {i : Fin n} {s : Stmt}
    (hs : s ∈ stmts i) :
    s = .delList path ∨ s ∈ dirStmts path (reqs i).version1 ∨ ∃ v, s = .pushList path v := by
  obtain ⟨v, hv⟩ := h.stmts_eq i
  rw [hv] at hs
  rcases List.mem_cons.mp hs with rfl | hs
  · exact .inl rfl
  · rcases List.mem_append.mp hs with hs | hs
    · exact .inr (.inl hs)
    · exact .inr (.inr ⟨_, List.mem_singleton.mp hs⟩)

/-- The events of one upload in the order of the schedule. -/
theorem SmallUploads.executed (h : SmallUploads path reqs stmts) (hs : sched.Executes stmts)
    (i : Fin n) : ∃ v e ds e', (sched.filter fun e => e.1 = i) = e :: (ds ++ [e']) ∧
      e.2.2 = .delList path ∧
      ds.map (fun e => e.2.2) = dirStmts path (reqs i).version1 ∧
      e'.2.2 = .pushList path (.json (marshal v)) := by
  obtain ⟨v, hv⟩ := h.stmts_eq i
  obtain ⟨e, es, hes, he, hrest⟩ := List.map_eq_cons_iff.mp ((hs i).trans hv)
  obtain ⟨ds, ps, rfl, hd, hp⟩ := List.map_eq_append_iff.mp hrest
  obtain ⟨e', rfl, he'⟩ := List.map_eq_singleton_iff.mp hp
  exact ⟨v, e, ds, e', hes, he, hd, he'⟩

/-- What is about the directory is not about the path. -/
theorem filterMap_pathOp_eq_nil {ds : List (Fin n × (Nat × Stmt))} {version1 : Bool}
    (hd : ds.map (fun e => e.2.2) = dirStmts path version1) :
    ds.filterMap (pathOp encrypt path) = [] := by
  refine List.filterMap_eq_nil_iff.mpr fun d hmem => ?_
  obtain ⟨htag, hd⟩ := mem_dirStmts (hd ▸ List.mem_map_of_mem hmem)
  refine replaceOp_eq_none ?_ fun w hw => ?_
  · rcases hd with hd | hd <;> rw [hd] <;> nofun
  · rcases hd with hd | hd
    · rw [hd] at hw
      cases hw
    · rw [hd] at hw
      exact htag.directory_ne (Stmt.pushList.inj hw).1

/-- And the other way round. -/
theorem dirOp_eq_none (htag : IsTag path) {e : Fin n × (Nat × Stmt)}
    (he : e.2.2 = .delList path ∨ ∃ v, e.2.2 = .pushList path v) :
    dirOp encrypt path e = none := by
  rcases he with he | ⟨v, he⟩
  · exact replaceOp_eq_none (he ▸ nofun) fun w => he ▸ nofun
  · refine replaceOp_eq_none (he ▸ nofun) fun w hw => ?_
    rw [he] at hw
    exact htag.directory_ne (Stmt.pushList.inj hw).1.symm

/-- The rows of the path are replaced by every upload. -/
theorem SmallUploads.replaces_path (h : SmallUploads path reqs stmts)
    (hs : sched.Executes stmts) :
    ∃ rows : Fin n → Row δ,
      Replaces (pathOp encrypt path) Prod.fst
        (fun i => some (rows i)) sched ∧
      ∀ i, .pushList path (rows i).listValue ∈ stmts i := by
  have hone : ∀ i, ∃ row : Row δ,
      opsOf (pathOp encrypt path) Prod.fst i sched =
        [.clear, .add row] ∧ .pushList path row.listValue ∈ stmts i := by
    intro i
    obtain ⟨v, e, ds, e', hes, he, hd, he'⟩ := h.executed hs i
    have hmem : Stmt.pushList path (.json (marshal v)) ∈ stmts i := by
      rw [← hs i, hes, ← he']
      exact List.mem_map_of_mem (by simp)
    refine ⟨⟨path, encrypt path, .json (marshal v), e'.2.1, e'.2.1⟩, ?_, hmem⟩
    have hdel : pathOp encrypt path e = some .clear := replaceOp_eq_clear.mpr he
    have hadd : pathOp encrypt path e' = some (.add ⟨path, encrypt path, .json (marshal v),
        e'.2.1, e'.2.1⟩) := replaceOp_of_pushList he' rfl (by simp)
    rw [opsOf, hes, List.filterMap_cons, hdel, List.filterMap_append,
      filterMap_pathOp_eq_nil encrypt hd, List.nil_append, List.filterMap_cons, hadd]
    rfl
  choose rows hrows hpush using hone
  exact ⟨rows, hrows, hpush⟩

/-- The entry in the directory is replaced by every upload of version 1. -/
theorem SmallUploads.replaces_directory (h : SmallUploads path reqs stmts)
    (hs : sched.Executes stmts) (htag : IsTag path) :
    ∃ rows : Fin n → Row δ,
      Replaces (dirOp encrypt path) Prod.fst
        (fun i => if (reqs i).version1 then some (rows i) else none) sched := by
  have hone : ∀ i, ∃ row : Row δ,
      opsOf (dirOp encrypt path) Prod.fst i sched =
        if (reqs i).version1 then [.clear, .add row] else [] := by
    intro i
    obtain ⟨v, e, ds, e', hes, he, hd, he'⟩ := h.executed hs i
    have hops : opsOf (dirOp encrypt path) Prod.fst i sched =
        ds.filterMap (dirOp encrypt path) := by
      rw [opsOf, hes, List.filterMap_cons, dirOp_eq_none encrypt htag (.inl he),
        List.filterMap_append, List.filterMap_cons,
        dirOp_eq_none encrypt htag (.inr ⟨_, he'⟩)]
      simp
    rw [hops]
    cases hver : (reqs i).version1 with
    | false =>
      rw [hver] at hd
      rw [List.map_eq_nil_iff.mp hd]
      exact ⟨⟨path, encrypt path, fileOf path, 0, 0⟩, rfl⟩
    | true =>
      rw [hver, dirStmts, if_pos rfl, handleDirectory_of_isTag htag,
        handleDirectory_of_isTag htag] at hd
      obtain ⟨d, ds, rfl, he, hd⟩ := List.map_eq_cons_iff.mp hd
      obtain ⟨d', rfl, he'⟩ := List.map_eq_singleton_iff.mp hd
      refine ⟨⟨dirOf path, encrypt (dirOf path), fileOf path, d'.2.1, d'.2.1⟩, ?_⟩
      have hdel : dirOp encrypt path d = some .clear := replaceOp_eq_clear.mpr he
      have hadd : dirOp encrypt path d' = some (.add ⟨dirOf path, encrypt (dirOf path),
          fileOf path, d'.2.1, d'.2.1⟩) := replaceOp_of_pushList he' (by simp) (by simp)
      rw [List.filterMap_cons, hdel, List.filterMap_cons, hadd]
      rfl
  choose rows hrows using hone
  refine ⟨rows, fun i => ?_⟩
  rw [hrows i]
  dsimp only
  cases (reqs i).version1 <;> rfl

end Uploads

section Converge
variable {δ : Type} [DecidableEq δ] {encrypt : Key → δ} {collate : Key → Key} {n : Nat}
  {path : Key} {reqs : Fin n → UploadRequest} {stmts : Fin n → List Stmt} {sched : Schedule n}
  {t : KeyList δ}

/-- The rows of the path at the end -/
theorem SmallUploads.rowsOf_path (hdir : IsTag path → encrypt (dirOf path) ≠ encrypt path)
    (h : SmallUploads path reqs stmts) (hs : sched.Executes stmts) :
    rowsOf encrypt path (execAll encrypt collate t (sched.map Prod.snd)) =
      content (pathOp encrypt path) (rowsOf encrypt path t) sched := by
  have hall : ∀ t' : KeyList δ, rowsWith encrypt path (fun _ => true) t' = rowsOf encrypt path t' :=
    fun t' => List.filter_eq_self.mpr fun _ _ => rfl
  rw [← hall, ← hall]
  refine rowsWith_execAll (fun now t' => ?_) fun e he => ?_
  · rw [hall, rowsOf_delList_self]
  · rcases h.mem_stmts (hs.mem he) with hd | hd | ⟨v, hd⟩
    · rw [hd]
      exact .inl rfl
    · obtain ⟨htag, hd | hd⟩ := mem_dirStmts hd <;> rw [hd] <;> exact .inr (hdir htag)
    · rw [hd]
      exact .inl rfl

/-- The entries of the file in its directory at the end -/
theorem SmallUploads.rowsWith_directory (hdir : encrypt (dirOf path) ≠ encrypt path)
    (h : SmallUploads path reqs stmts) (hs : sched.Executes stmts) :
    rowsWith encrypt (dirOf path) (fun v => v = fileOf path)
        (execAll encrypt collate t (sched.map Prod.snd)) =
      content (dirOp encrypt path)
        (rowsWith encrypt (dirOf path) (fun v => v = fileOf path) t) sched := by
  refine rowsWith_execAll (fun now t' => ?_) fun e he => ?_
  · rw [rowsWith, rowsOf_delListOne_self, List.filter_filter]
    exact List.filter_eq_nil_iff.mpr fun r _ => by simp +contextual
  · rcases h.mem_stmts (hs.mem he) with hd | hd | ⟨v, hd⟩
    · rw [hd]
      exact .inr hdir.symm
    · obtain ⟨-, hd | hd⟩ := mem_dirStmts hd <;> rw [hd] <;> exact .inl rfl
    · rw [hd]
      exact .inr hdir.symm

/-- How often the directory of the path lists its file -/
def listed (encrypt : Key → δ) (path : Key) (t : KeyList δ) : Nat :=
  ((rowsOf encrypt (dirOf path) t).map Row.listValue).count (fileOf path)

theorem listed_eq_length : listed encrypt path t =
    (rowsWith encrypt (dirOf path) (fun v => v = fileOf path) t).length := by
  rw [listed, rowsWith, List.count, List.countP_map, List.countP_eq_length_filter]
  rfl

/-- Of concurrent uploads of a whole file one row is left, and one entry in the
directory of a tag, if and only if some upload deletes after all others have inserted:
the row of the path, and the entry in the directory. -/
theorem concurrent_uploads_converge_iff
    (hdir : IsTag path → encrypt (dirOf path) ≠ encrypt path) (hn : 0 < n)
    (h : SmallUploads path reqs stmts) (hs : sched.Executes stmts) :
    ((∃ row i, rowsOf encrypt path (execAll encrypt collate t (sched.map Prod.snd)) = [row] ∧
        .pushList path row.listValue ∈ stmts i) ∧
      (IsTag path → (∃ i, (reqs i).version1 = true) →
        listed encrypt path (execAll encrypt collate t (sched.map Prod.snd)) = 1)) ↔
    sched.DeletesLast (.delList path) path (fun _ => true) ∧
      (IsTag path → (∃ i, (reqs i).version1 = true) →
        sched.DeletesLast (.delListOne (dirOf path) (fileOf path)) (dirOf path)
          fun v => v = fileOf path) := by
  refine and_congr ?_ (forall₂_congr fun htag hver => ?_)
  · obtain ⟨rows, hreplaces, hpush⟩ := h.replaces_path encrypt hs
    have hiff : ClearsLast (pathOp encrypt path) Prod.fst sched ↔ _ :=
      clearsLast_iff (by simp)
    rw [h.rowsOf_path hdir hs, ← hiff]
    constructor
    · rintro ⟨row, i, hrow, -⟩
      exact hreplaces.clearsLast ⟨⟨0, hn⟩, nofun⟩ (congrArg List.length hrow)
    · intro hlast
      obtain ⟨i, row, hi, hrow⟩ := hreplaces.content_of_clearsLast hlast
      cases hi
      exact ⟨rows i, i, hrow, hpush i⟩
  · obtain ⟨rows, hreplaces⟩ := h.replaces_directory encrypt hs htag
    have hiff : ClearsLast (dirOp encrypt path) Prod.fst sched ↔ _ :=
      clearsLast_iff (by simp)
    rw [listed_eq_length, h.rowsWith_directory (hdir htag) hs, ← hiff]
    constructor
    · intro hlen
      obtain ⟨i, hi⟩ := hver
      exact hreplaces.clearsLast ⟨i, by simp [hi]⟩ hlen
    · intro hlast
      obtain ⟨i, row, -, hrow⟩ := hreplaces.content_of_clearsLast hlast
      rw [hrow]
      rfl

end Converge

def tagPath : Key := ['u', '/', 't', 'a', 'g', '_', '1']

/-- Two clients put three bytes each under a tag, one for either version. -/
def tagRequests (i : Fin 2) : UploadRequest := ⟨tagPath, 0, (0, 3), true, i = 0, 3⟩

def tagValue (i : Fin 2) : ListValue :=
  .json (marshal ⟨0, 0, 3, 1, if i = 0 then 5 else 6, true, 0⟩)

def tagDir : Key := directory ++ ['u']

def tagFile : ListValue := .name ['t', 'a', 'g', '_', '1']

def tagStmts (i : Fin 2) : List Stmt :=
  if i = 0 then
    [.delList tagPath, .delListOne tagDir tagFile, .pushList tagDir tagFile,
      .pushList tagPath (tagValue 0)]
  else [.delList tagPath, .pushList tagPath (tagValue 1)]

theorem tagRequests_uploads : SmallUploads tagPath tagRequests tagStmts where
  path_eq _ := rfl
  whole _ := ⟨rfl, rfl⟩
  accepted i := ⟨if i = 0 then 5 else 6, 1, by revert i; decide +kernel⟩

/-- The second upload begins when the first has inserted its row. -/
def tagSchedule : Schedule 2 :=
  [(0, 1, .delList tagPath), (0, 1, .delListOne tagDir tagFile), (0, 1, .pushList tagDir tagFile),
    (0, 2, .pushList tagPath (tagValue 0)), (1, 2, .delList tagPath),
    (1, 3, .pushList tagPath (tagValue 1))]

theorem concurrent_uploads_converge_tag :
    (∃ row i, rowsOf id tagPath (execAll id id [] (tagSchedule.map Prod.snd)) = [row] ∧
      .pushList tagPath row.listValue ∈ tagStmts i) ∧
    listed id tagPath (execAll id id [] (tagSchedule.map Prod.snd)) = 1 := by
  have hexec : tagSchedule.Executes tagStmts := by
    unfold Schedule.Executes
    decide +kernel
  have htag : IsTag tagPath → id (dirOf tagPath) ≠ id tagPath := fun h => h.directory_ne
  have hpath : ClearsLast (pathOp id tagPath) Prod.fst tagSchedule :=
    ⟨tagSchedule.take 4, (1, 2, .delList tagPath), tagSchedule.drop 5, rfl, rfl,
      by decide +kernel⟩
  have hdir : ClearsLast (dirOp id tagPath) Prod.fst tagSchedule :=
    ⟨tagSchedule.take 1, (0, 1, .delListOne tagDir tagFile), tagSchedule.drop 2, rfl,
      replaceOp_eq_clear.mpr (by decide +kernel), by decide +kernel⟩
  have h : _ ∧ (_ → _ → listed id tagPath (execAll id id [] (tagSchedule.map Prod.snd)) = 1) :=
    (concurrent_uploads_converge_iff htag (by decide) tagRequests_uploads hexec).mpr
      ⟨(clearsLast_iff (by simp)).mp hpath, fun _ _ => (clearsLast_iff (by simp)).mp hdir⟩
  exact ⟨h.1, h.2 (by unfold IsTag; decide +kernel) ⟨0, rfl⟩⟩

/-- Both uploads have deleted before either inserts. -/
def tagRace : Schedule 2 :=
  [(0, 1, .delList tagPath), (0, 1, .delListOne tagDir tagFile), (0, 1, .pushList tagDir tagFile),
    (1, 1, .delList tagPath), (0, 2, .pushList tagPath (tagValue 0)),
    (1, 2, .pushList tagPath (tagValue 1))]

theorem concurrent_uploads_leave_two_rows :
    SmallUploads tagPath tagRequests tagStmts ∧ tagRace.Executes tagStmts ∧
      (rowsOf id tagPath (execAll id id [] (tagRace.map Prod.snd))).length = 2 := by
  refine ⟨tagRequests_uploads, ?_, by decide +kernel⟩
  unfold Schedule.Executes
  decide +kernel

end Speedy.Imageserver
