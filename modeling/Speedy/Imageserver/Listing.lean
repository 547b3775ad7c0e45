import Speedy.Imageserver.StoreFailure
import Speedy.Lib.Like

/-! # Listings

Two ways to ask which files there are. `GetDirectoryInfo` reads the rows under the key of a
directory, which the stores and deletes of tags keep beside the rows of the tags themselves:
one for every fragment. `GetDescendantPath` selects the keys by a pattern, into which the
path goes as it is. -/
namespace Speedy.Imageserver
open Speedy.Lib

/-! ## Calls that change the metadata -/

inductive MetaOp where
  | store (version1 : Bool) (info : MetaInfo)
  | delete (version1 : Bool) (path : Key)

namespace MetaOp

def path : MetaOp → Key
  | store _ info => info.path
  | delete _ path => path

def version1 : MetaOp → Bool
  | store version1 _ => version1
  | delete version1 _ => version1

def stmts : MetaOp → List Stmt
  | store version1 info => storeMetaInfo version1 info
  | delete version1 path =>
    if version1 then deleteFileMetaInfoV1 path else deleteFileMetaInfoV2 path

/-- What a call makes of the fragments of a path. -/
def onFragments (path : Key) (vs : List MetaInfoValue) : MetaOp → List MetaInfoValue
  | store _ info =>
    if info.path = path then if isWhole info then [info.value] else vs ++ [info.value] else vs
  | delete _ p => if p = path then [] else vs

/-- How many they are then, if it is the path of the call. -/
def fragmentCount (n : Nat) : MetaOp → Nat
  | store _ info => if isWhole info then 1 else n + 1
  | delete _ _ => 0

theorem length_onFragments (path : Key) (vs : List MetaInfoValue) (op : MetaOp) :
    (op.onFragments path vs).length =
      if op.path = path then op.fragmentCount vs.length else vs.length := by
  cases op with
  | store version1 info =>
    by_cases hp : info.path = path <;> cases hw : isWhole info <;>
      simp [onFragments, fragmentCount, MetaOp.path, hp, hw]
  | delete version1 p =>
    by_cases hp : p = path <;> simp [onFragments, fragmentCount, MetaOp.path, hp]

theorem mem_onFragments {path : Key} {vs : List MetaInfoValue} {v : MetaInfoValue} (op : MetaOp)
    (h : v ∈ op.onFragments path vs) :
    v ∈ vs ∨ ∃ version1 info, op = store version1 info ∧ info.path = path ∧ info.value = v := by
  cases op with
  | delete version1 p =>
    simp only [onFragments] at h
    split at h
    · cases h
    · exact .inl h
  | store version1 info =>
    simp only [onFragments] at h
    split at h
    · rename_i hpath
      have hnew : v = info.value → ∃ version1' info',
          store version1 info = store version1' info' ∧ info'.path = path ∧ info'.value = v :=
        fun hv => ⟨version1, info, rfl, hpath, hv.symm⟩
      split at h
      · exact .inr (hnew (List.mem_singleton.mp h))
      · rcases List.mem_append.mp h with h | h
        · exact .inl h
        · exact .inr (hnew (List.mem_singleton.mp h))
    · exact .inl h

end MetaOp

/-- The fragments of a path since it was last cleared. -/
def fragmentsKept (path : Key) (ops : List MetaOp) : List MetaInfoValue :=
  ops.foldl (MetaOp.onFragments path) []

theorem mem_fragmentsKept {path : Key} {ops : List MetaOp} {v : MetaInfoValue}
    (h : v ∈ fragmentsKept path ops) :
    ∃ version1 info, .store version1 info ∈ ops ∧ info.path = path ∧ info.value = v := by
  unfold fragmentsKept at h
  induction ops using List.reverseRecOn with
  | nil => cases h
  | append_singleton ops op ih =>
    rw [List.foldl_concat] at h
    rcases op.mem_onFragments h with hbefore | ⟨version1, info, rfl, hv⟩
    · obtain ⟨version1, info, hmem, hv⟩ := ih hbefore
      exact ⟨version1, info, List.mem_append_left _ hmem, hv⟩
    · exact ⟨version1, info, List.mem_append_right _ List.mem_cons_self, hv⟩

/-! ## The values under a key -/

/-- What a statement makes of the values under a key. -/
def Stmt.onValues (collate : Key → Key) (key : Key) (vs : List ListValue) : Stmt → List ListValue
  | .pushList k v => if k = key then vs ++ [v] else vs
  | .delList k => if k = key then [] else vs
  | .delListOne k v =>
    if k = key then vs.filter fun x => x.collated collate ≠ v.collated collate else vs

def ListValue.isJson : ListValue → Bool
  | .json _ => true
  | .name _ => false

/-- The values under a key after the statements. -/
def valuesKept (collate : Key → Key) (key : Key) (stmts : List Stmt) : List ListValue :=
  stmts.foldl (Stmt.onValues collate key) []

section Values
variable {collate : Key → Key} {key : Key} {vs : List ListValue} {v : ListValue}

theorem onValues_of_ne {s : Stmt} (h : s.key ≠ key) : s.onValues collate key vs = vs := by
  cases s <;> exact if_neg h

theorem onValues_pushList : (Stmt.pushList key v).onValues collate key vs = vs ++ [v] := if_pos rfl

theorem onValues_delList : (Stmt.delList key).onValues collate key vs = [] := if_pos rfl

theorem onValues_delListOne : (Stmt.delListOne key v).onValues collate key vs =
    vs.filter fun x => x.collated collate ≠ v.collated collate := if_pos rfl

variable {δ : Type} [DecidableEq δ] {encrypt : Key → δ}

theorem values_exec (t : KeyList δ) (now : Nat) {s : Stmt}
    (hkey : encrypt s.key = encrypt key → s.key = key) :
    (rowsOf encrypt key (s.exec encrypt collate now t)).map Row.listValue =
      s.onValues collate key ((rowsOf encrypt key t).map Row.listValue) := by
  by_cases hk : s.key = key
  · cases s with
    | pushList k v =>
      obtain rfl : k = key := hk
      rw [rowsOf_pushList_self, List.map_append, List.map_singleton, onValues_pushList]
    | delList k =>
      obtain rfl : k = key := hk
      rw [rowsOf_delList_self, List.map_nil, onValues_delList]
    | delListOne k v =>
      obtain rfl : k = key := hk
      rw [rowsOf_delListOne_self, onValues_delListOne, List.filter_map]
      rfl
  · rw [rowsOf_exec_of_ne now (mt hkey hk), onValues_of_ne hk]

theorem values_execAll (t : KeyList δ) {stmts : List (Nat × Stmt)}
    (hkeys : ∀ s ∈ stmts, encrypt s.2.key = encrypt key → s.2.key = key) :
    (rowsOf encrypt key (execAll encrypt collate t stmts)).map Row.listValue =
      (stmts.map Prod.snd).foldl (Stmt.onValues collate key)
        ((rowsOf encrypt key t).map Row.listValue) := by
  induction stmts generalizing t with
  | nil => rfl
  | cons s stmts ih =>
    obtain ⟨hs, hkeys⟩ := List.forall_mem_cons.mp hkeys
    rw [execAll_cons, ih _ hkeys, values_exec t s.1 hs, List.map_cons, List.foldl_cons]

/-- The values under a key after statements on the empty table. -/
theorem values_kept {stmts : List (Nat × Stmt)}
    (hkeys : ∀ s ∈ stmts, encrypt s.2.key = encrypt key → s.2.key = key) :
    (rowsOf encrypt key (execAll encrypt collate [] stmts)).map Row.listValue =
      valuesKept collate key (stmts.map Prod.snd) :=
  values_execAll [] hkeys

end Values

/-! ## The fragments of a path -/

/-- The value of a fragment. -/
def fragmentValue (v : MetaInfoValue) : ListValue := .json (marshal v)

section Fragments
variable {collate : Key → Key} {path : Key} {vs : List ListValue}

/-- An entry in a directory is no fragment, whatever the key. -/
theorem filter_onValues_delListOne (path p : Key) :
    ((Stmt.delListOne (dirOf p) (fileOf p)).onValues collate path vs).filter ListValue.isJson =
      vs.filter ListValue.isJson := by
  by_cases hk : dirOf p = path
  · subst hk
    rw [onValues_delListOne, List.filter_filter]
    refine List.filter_congr fun x _ => ?_
    cases x with
    | json o => simp [ListValue.isJson, ListValue.collated, fileOf]
    | name n => simp [ListValue.isJson]
  · exact congrArg _ (if_neg hk)

theorem filter_onValues_pushList (path p : Key) :
    ((Stmt.pushList (dirOf p) (fileOf p)).onValues collate path vs).filter ListValue.isJson =
      vs.filter ListValue.isJson := by
  by_cases hk : dirOf p = path
  · subst hk
    rw [onValues_pushList, List.filter_append]
    exact List.append_nil _
  · exact congrArg _ (if_neg hk)

theorem filter_onValues_fragment (path p : Key) (v : MetaInfoValue) :
    ((Stmt.pushList p (.json (marshal v))).onValues collate path vs).filter ListValue.isJson =
      vs.filter ListValue.isJson ++ if p = path then [fragmentValue v] else [] := by
  by_cases hk : p = path
  · subst hk
    rw [onValues_pushList, List.filter_append, if_pos rfl]
    rfl
  · rw [if_neg hk, List.append_nil]
    exact congrArg _ (if_neg hk)

theorem filter_onValues_delList (path p : Key) :
    ((Stmt.delList p).onValues collate path vs).filter ListValue.isJson =
      if p = path then [] else vs.filter ListValue.isJson := by
  by_cases hk : p = path
  · subst hk
    rw [onValues_delList, if_pos rfl]
    rfl
  · rw [if_neg hk]
    exact congrArg _ (if_neg hk)

/-- The two lists of statements of a delete. -/
theorem delete_stmts_cases (version1 : Bool) (p : Key) :
    (MetaOp.delete version1 p).stmts = [.delList p] ∨
      IsTag p ∧ (MetaOp.delete version1 p).stmts =
        [.delList p, .delListOne (dirOf p) (fileOf p)] := by
  cases version1 with
  | false => exact .inl rfl
  | true =>
    simp only [MetaOp.stmts, if_true, deleteFileMetaInfoV1]
    by_cases htag : IsTag p
    · exact .inr ⟨htag, by rw [handleDirectory_of_isTag htag]⟩
    · exact .inl (by rw [handleDirectory_of_not_isTag htag])

/-- One call, on the fragments among the values of a path. -/
theorem filter_onValues_op (path : Key) (op : MetaOp) (kept : List MetaInfoValue)
    (hkept : vs.filter ListValue.isJson = kept.map fragmentValue) :
    (op.stmts.foldl (Stmt.onValues collate path) vs).filter ListValue.isJson =
      (op.onFragments path kept).map fragmentValue := by
  cases op with
  | store version1 info =>
    have hstore : ((MetaOp.store version1 info).stmts.foldl (Stmt.onValues collate path) vs).filter
        ListValue.isJson =
        (if isWhole info then if info.path = path then [] else vs.filter ListValue.isJson
          else vs.filter ListValue.isJson) ++
        if info.path = path then [fragmentValue info.value] else [] := by
      simp only [MetaOp.stmts]
      rcases storeMetaInfo_cases version1 info with
        ⟨hw, hs | ⟨-, hs⟩⟩ | ⟨hw, hs | ⟨-, hs⟩⟩
      all_goals
        rw [hs, hw]
        simp only [List.foldl_cons, List.foldl_nil, filter_onValues_fragment,
          filter_onValues_pushList, filter_onValues_delListOne, filter_onValues_delList,
          Bool.false_eq_true, if_true, if_false]
    rw [hstore, hkept]
    simp only [MetaOp.onFragments]
    by_cases hp : info.path = path
    · cases isWhole info <;> simp [hp]
    · cases isWhole info <;> simp [hp]
  | delete version1 p =>
    have hdel : ((MetaOp.delete version1 p).stmts.foldl (Stmt.onValues collate path) vs).filter
        ListValue.isJson = if p = path then [] else vs.filter ListValue.isJson := by
      rcases delete_stmts_cases version1 p with hs | ⟨-, hs⟩
      · rw [hs, List.foldl_cons, List.foldl_nil, filter_onValues_delList]
      · rw [hs, List.foldl_cons, List.foldl_cons, List.foldl_nil, filter_onValues_delListOne,
          filter_onValues_delList]
    rw [hdel, hkept]
    simp only [MetaOp.onFragments]
    split <;> rfl

/-- The fragments under a path are those kept. -/
theorem filter_valuesKept (path : Key) (ops : List MetaOp) :
    (valuesKept collate path (ops.flatMap MetaOp.stmts)).filter ListValue.isJson =
      (fragmentsKept path ops).map fragmentValue := by
  unfold valuesKept fragmentsKept
  rw [List.foldl_flatMap]
  induction ops using List.reverseRecOn with
  | nil => rfl
  | append_singleton ops op ih =>
    rw [List.foldl_concat, List.foldl_concat]
    exact filter_onValues_op path op _ ih

end Fragments

/-! ## The tags of a directory -/

/-- The name of a file that is listed. -/
def TagName (f : Key) : Prop := tag <+: f ∧ '/' ∉ f

/-- The path `d/f` -/
def pathIn (d f : Key) : Key := d ++ '/' :: f

theorem isPrefixOf_split (c : Char) (f : Key) : split.isPrefixOf (c :: f) = true ↔ c = '/' := by
  rw [split, List.isPrefixOf_iff_prefix, List.cons_prefix_cons]
  exact ⟨fun h => h.1.symm, fun h => ⟨h.symm, List.nil_prefix⟩⟩

theorem strLastIndex_split_eq_none (f : Key) : strLastIndex split f = none ↔ '/' ∉ f := by
  induction f with
  | nil => simp [strLastIndex, split]
  | cons c f ih =>
    rw [strLastIndex, List.mem_cons, not_or, ← ih]
    split
    · rename_i i hi
      simp [hi]
    · rename_i hnone
      by_cases hc : c = '/'
      · rw [if_pos ((isPrefixOf_split c f).mpr hc)]
        simp [hc]
      · have hpre : ¬ split.isPrefixOf (c :: f) = true := fun h => hc ((isPrefixOf_split c f).mp h)
        simp [hpre, hnone, Ne.symm hc]

theorem strLastIndex_pathIn (d : Key) {f : Key} (h : '/' ∉ f) :
    strLastIndex split (pathIn d f) = some d.length := by
  induction d with
  | nil =>
    rw [pathIn, List.nil_append, strLastIndex, (strLastIndex_split_eq_none f).mpr h]
    exact if_pos ((isPrefixOf_split '/' f).mpr rfl)
  | cons c d ih =>
    have hcons : pathIn (c :: d) f = c :: pathIn d f := rfl
    rw [hcons, strLastIndex, ih, List.length_cons]

/-- What comes after the last slash has none. -/
theorem strLastIndex_split_some {s : Key} {i : Nat} (h : strLastIndex split s = some i) :
    ∃ f, s.drop i = '/' :: f ∧ '/' ∉ f := by
  induction s generalizing i with
  | nil => cases h
  | cons c s ih =>
    rw [strLastIndex] at h
    split at h
    · rename_i j hj
      cases h
      exact ih hj
    · rename_i hnone
      split at h
      · rename_i hpre
        cases h
        rw [(isPrefixOf_split c s).mp hpre]
        exact ⟨s, rfl, (strLastIndex_split_eq_none s).mp hnone⟩
      · cases h

theorem strIndex_tag (f : Key) : strIndex tag ('/' :: f) = some 1 ↔ tag <+: f := by
  have hslash : tag.isPrefixOf ('/' :: f) = false := rfl
  rw [strIndex, hslash]
  cases f with
  | nil => simp [strIndex, tag]
  | cons c f =>
    by_cases hpre : tag.isPrefixOf (c :: f) = true
    · simp [strIndex, hpre, List.isPrefixOf_iff_prefix.mp hpre]
    · have hno : ¬ tag <+: c :: f := fun h => hpre (List.isPrefixOf_iff_prefix.mpr h)
      simp [strIndex, hpre, hno]

theorem extractDirectoryAndFile_pathIn (d : Key) {f : Key} (hf : TagName f) :
    extractDirectoryAndFile (pathIn d f) = (directory ++ d, f) := by
  have hdrop : (pathIn d f).drop d.length = '/' :: f := List.drop_left
  have htake : (pathIn d f).take d.length = d := List.take_left
  unfold extractDirectoryAndFile
  simp only [strLastIndex_pathIn d hf.2, hdrop, htake, (strIndex_tag f).mpr hf.1, if_true,
    List.drop_one, List.tail_cons]

theorem dirOf_pathIn (d : Key) {f : Key} (hf : TagName f) :
    dirOf (pathIn d f) = directory ++ d := by
  rw [dirOf, extractDirectoryAndFile_pathIn d hf]

theorem fileOf_pathIn (d : Key) {f : Key} (hf : TagName f) :
    fileOf (pathIn d f) = .name f := by
  rw [fileOf, extractDirectoryAndFile_pathIn d hf]

theorem isTag_pathIn (d : Key) {f : Key} (hf : TagName f) : IsTag (pathIn d f) := by
  rw [IsTag, dirOf_pathIn d hf, extractDirectoryAndFile_pathIn d hf]
  refine ⟨List.cons_ne_nil _ _, ?_⟩
  intro hnil
  have hpre := hf.1
  rw [show f = [] from hnil, List.prefix_nil] at hpre
  cases hpre

theorem pathIn_inj {d d' f f' : Key} (hf : TagName f) (hf' : TagName f')
    (h : pathIn d f = pathIn d' f') : d = d' ∧ f = f' := by
  have hext := extractDirectoryAndFile_pathIn d hf
  rw [h, extractDirectoryAndFile_pathIn d' hf'] at hext
  obtain ⟨hd, hfile⟩ := Prod.mk.inj hext
  exact ⟨(List.append_cancel_left hd).symm, hfile.symm⟩

/-- The paths that are listed in a directory are those of a tag in it. -/
theorem eq_pathIn {p : Key} (hdir : dirOf p ≠ []) : ∃ d f, TagName f ∧ p = pathIn d f := by
  unfold dirOf extractDirectoryAndFile at hdir
  split at hdir
  · exact absurd rfl hdir
  · rename_i i hi
    obtain ⟨f, hdrop, hf⟩ := strLastIndex_split_some hi
    dsimp only at hdir
    split at hdir
    · rename_i htag
      rw [hdrop, strIndex_tag] at htag
      refine ⟨p.take i, f, ⟨htag, hf⟩, ?_⟩
      rw [pathIn, ← hdrop, List.take_append_drop]
    · exact absurd rfl hdir

/-- The statements of the first version that are about the directory. -/
def MetaOp.dirStmts : MetaOp → List Stmt
  | store _ info =>
    (if isWhole info then handleDirectory info.path .delFile else []) ++
      handleDirectory info.path .addFile
  | delete _ path => handleDirectory path .delFile

/-- Taking this path out of its directory takes the tag `f` of the directory `d` out. -/
def unlists (collate : Key → Key) (d f path : Key) : Bool :=
  dirOf path = directory ++ d ∧ (fileOf path).collated collate = .name (collate f)

/-- What a call makes of the number of times that a tag is listed. -/
def MetaOp.onListed (collate : Key → Key) (d f : Key) (n : Nat) : MetaOp → Nat
  | store _ info =>
    (if isWhole info && unlists collate d f info.path then 0 else n) +
      if info.path = pathIn d f then 1 else 0
  | delete _ path => if unlists collate d f path then 0 else n

/-- The fragments of a tag since it was last taken out of the directory: by a call about the
tag itself, or about one whose name is the same to the database. -/
def timesListed (collate : Key → Key) (d f : Key) (ops : List MetaOp) : Nat :=
  ops.foldl (MetaOp.onListed collate d f) 0

section Listing
variable {collate : Key → Key} {d key : Key} {vs : List ListValue} {op : MetaOp}
  {ops : List MetaOp}

theorem unlists_pathIn {f f' : Key} (hf : TagName f) :
    unlists collate d f' (pathIn d f) = true ↔ collate f = collate f' := by
  simp [unlists, dirOf_pathIn d hf, fileOf_pathIn d hf, ListValue.collated]

/-- The directory of another path is another one. -/
theorem dirOf_ne (h : ∀ f, TagName f → key ≠ pathIn d f) : dirOf key ≠ directory ++ d := by
  intro he
  have hdir : dirOf key ≠ [] := he ▸ List.append_ne_nil_of_left_ne_nil (List.cons_ne_nil _ _) d
  obtain ⟨d', f, hf, hp⟩ := eq_pathIn hdir
  rw [hp, dirOf_pathIn d' hf] at he
  exact h f hf (hp.trans (by rw [List.append_cancel_left he]))

/-- A tag is not listed more often than it has fragments. -/
theorem timesListed_le (collate : Key → Key) (d : Key) {f : Key} (hf : TagName f)
    (ops : List MetaOp) :
    timesListed collate d f ops ≤ (fragmentsKept (pathIn d f) ops).length := by
  unfold timesListed fragmentsKept
  induction ops using List.reverseRecOn with
  | nil => exact Nat.le_refl 0
  | append_singleton ops op ih =>
    rw [List.foldl_concat, List.foldl_concat, MetaOp.length_onFragments]
    have hself : unlists collate d f (pathIn d f) = true := (unlists_pathIn hf).mpr rfl
    cases op with
    | store version1 info =>
      by_cases hp : info.path = pathIn d f <;>
        simp only [MetaOp.onListed, MetaOp.path, MetaOp.fragmentCount, hp, hself, Bool.and_true,
          if_true, if_false] <;> split <;> omega
    | delete version1 p =>
      by_cases hp : p = pathIn d f
      · simp [MetaOp.onListed, hp, hself]
      · simp only [MetaOp.onListed, MetaOp.path, hp, if_false]
        split <;> omega

/-- The others are about the path. -/
theorem foldl_onValues_dirStmts (hv : op.version1 = true) (hne : op.path ≠ key) :
    op.stmts.foldl (Stmt.onValues collate key) vs =
      op.dirStmts.foldl (Stmt.onValues collate key) vs := by
  have hdel : ∀ vs, (Stmt.delList op.path).onValues collate key vs = vs := fun vs => if_neg hne
  have hpush : ∀ v vs, (Stmt.pushList op.path v).onValues collate key vs = vs :=
    fun v vs => if_neg hne
  cases op with
  | store version1 info =>
    obtain rfl : version1 = true := hv
    simp only [MetaOp.path] at hdel hpush
    have hwhole : (info.value.isLast && info.value.index == 0) = isWhole info := rfl
    simp only [MetaOp.stmts, MetaOp.dirStmts, storeMetaInfo, if_true, storeMetaInfoV1, hwhole,
      deleteFileMetaInfoV1, List.foldl_append, List.foldl_cons, List.foldl_nil, hpush]
    cases isWhole info with
    | false => rfl
    | true => simp only [if_true, List.foldl_cons, hdel]
  | delete version1 path =>
    obtain rfl : version1 = true := hv
    simp only [MetaOp.path] at hdel
    simp only [MetaOp.stmts, MetaOp.dirStmts, if_true, deleteFileMetaInfoV1, List.foldl_cons, hdel]

/-- A call about something else than a tag of the directory. -/
theorem foldl_dirStmts_of_ne (h : ∀ f, TagName f → op.path ≠ pathIn d f) :
    op.dirStmts.foldl (Stmt.onValues collate (directory ++ d)) vs = vs := by
  have hnone : ∀ kind vs, (handleDirectory op.path kind).foldl
      (Stmt.onValues collate (directory ++ d)) vs = vs := by
    intro kind vs
    by_cases htag : IsTag op.path
    · rw [handleDirectory_of_isTag htag]
      cases kind <;> exact if_neg (dirOf_ne h)
    · rw [handleDirectory_of_not_isTag htag]
      rfl
  cases op with
  | store version1 info =>
    simp only [MetaOp.path] at hnone
    simp only [MetaOp.dirStmts, List.foldl_append, hnone]
    split
    · exact hnone _ vs
    · rfl
  | delete version1 path => exact hnone .delFile vs

theorem onListed_of_ne (h : ∀ f, TagName f → op.path ≠ pathIn d f) {f : Key} (hf : TagName f)
    (n : Nat) : op.onListed collate d f n = n := by
  have hne := h f hf
  have hdir : unlists collate d f op.path = false := by simp [unlists, dirOf_ne h]
  cases op with
  | store version1 info =>
    simp only [MetaOp.path] at hne hdir
    simp [MetaOp.onListed, hne, hdir]
  | delete version1 path =>
    simp only [MetaOp.path] at hdir
    simp [MetaOp.onListed, hdir]

/-- The entries of a directory: tags, each as often as `n` says. -/
structure Lists (n : Key → Nat) (vs : List ListValue) : Prop where
  entries : ∀ x ∈ vs, ∃ f, TagName f ∧ x = .name f
  count : ∀ f, TagName f → vs.count (.name f) = n f

theorem Lists.congr {n n' : Key → Nat} (h : Lists n vs) (hn : ∀ f, TagName f → n' f = n f) :
    Lists n' vs :=
  ⟨h.entries, fun f hf => (h.count f hf).trans (hn f hf).symm⟩

theorem count_filter_collated (x y : ListValue) (vs : List ListValue) :
    (vs.filter fun v => v.collated collate ≠ x).count y =
      if y.collated collate = x then 0 else vs.count y := by
  split
  · rename_i he
    refine List.count_eq_zero.mpr fun hmem => ?_
    exact of_decide_eq_true (List.mem_filter.mp hmem).2 he
  · rename_i hne
    exact List.count_filter (by simpa using hne)

/-- An entry is taken out with all that are the same to the database. -/
theorem Lists.unlist {n : Key → Nat} (h : Lists n vs) (f : Key) :
    Lists (fun f' => if collate f = collate f' then 0 else n f')
      (vs.filter fun v => v.collated collate ≠ (ListValue.name f).collated collate) := by
  refine ⟨fun x hx => h.entries x (List.mem_filter.mp hx).1, ?_⟩
  intro f' hf'
  rw [count_filter_collated, h.count f' hf']
  simp only [ListValue.collated, ListValue.name.injEq, eq_comm]

theorem Lists.list {n : Key → Nat} (h : Lists n vs) {f : Key} (hf : TagName f) :
    Lists (fun f' => n f' + if f = f' then 1 else 0) (vs ++ [.name f]) := by
  constructor
  · intro x hx
    rcases List.mem_append.mp hx with hx | hx
    · exact h.entries x hx
    · exact ⟨f, hf, List.mem_singleton.mp hx⟩
  · intro f' hf'
    rw [List.count_append, h.count f' hf', List.count_singleton]
    simp only [beq_iff_eq, ListValue.name.injEq]

/-- A call about a tag of the directory. -/
theorem Lists.foldl_dirStmts {n : Key → Nat} (h : Lists n vs) {f : Key} (hf : TagName f)
    (hp : op.path = pathIn d f) :
    Lists (fun f' => op.onListed collate d f' (n f'))
      (op.dirStmts.foldl (Stmt.onValues collate (directory ++ d)) vs) := by
  have hadd : ∀ vs, (handleDirectory (pathIn d f) .addFile).foldl
      (Stmt.onValues collate (directory ++ d)) vs = vs ++ [.name f] := by
    intro vs
    rw [handleDirectory_of_isTag (isTag_pathIn d hf), dirOf_pathIn d hf, fileOf_pathIn d hf]
    exact if_pos rfl
  have hdel : ∀ vs, (handleDirectory (pathIn d f) .delFile).foldl
      (Stmt.onValues collate (directory ++ d)) vs =
        vs.filter fun v => v.collated collate ≠ (ListValue.name f).collated collate := by
    intro vs
    rw [handleDirectory_of_isTag (isTag_pathIn d hf), dirOf_pathIn d hf, fileOf_pathIn d hf]
    exact onValues_delListOne
  have hsame : ∀ f', TagName f' → (pathIn d f = pathIn d f' ↔ f = f') := fun f' hf' =>
    ⟨fun he => (pathIn_inj hf hf' he).2, congrArg _⟩
  cases op with
  | store version1 info =>
    simp only [MetaOp.path] at hp
    simp only [MetaOp.dirStmts, MetaOp.onListed, hp, List.foldl_append, hadd]
    cases isWhole info with
    | false =>
      refine (h.list hf).congr fun f' hf' => ?_
      simp [hsame f' hf']
    | true =>
      simp only [if_true, hdel]
      refine ((h.unlist f).list hf).congr fun f' hf' => ?_
      simp [hsame f' hf', unlists_pathIn hf]
  | delete version1 path =>
    simp only [MetaOp.path] at hp
    simp only [MetaOp.dirStmts, MetaOp.onListed, hp, hdel]
    exact (h.unlist f).congr fun f' _ => by simp only [unlists_pathIn hf]

/-- In every run a tag is listed once for each fragment since it was last taken out. -/
theorem lists_valuesKept (collate : Key → Key) (d : Key)
    (hops : ∀ op ∈ ops, op.version1 = true ∧ ¬ directory <+: op.path) :
    Lists (fun f => timesListed collate d f ops)
      (valuesKept collate (directory ++ d) (ops.flatMap MetaOp.stmts)) := by
  unfold valuesKept timesListed
  rw [List.foldl_flatMap]
  induction ops using List.reverseRecOn with
  | nil =>
    refine ⟨?_, fun f _ => rfl⟩
    intro x hx
    cases hx
  | append_singleton ops op ih =>
    obtain ⟨hops, hop⟩ := List.forall_mem_append.mp hops
    obtain ⟨hv, hdir⟩ := List.forall_mem_singleton.mp hop
    have hne : op.path ≠ directory ++ d := fun he => hdir (he ▸ List.prefix_append ..)
    simp only [List.foldl_concat]
    rw [foldl_onValues_dirStmts hv hne]
    by_cases htag : ∃ f, TagName f ∧ op.path = pathIn d f
    · obtain ⟨f, hf, hp⟩ := htag
      exact (ih hops).foldl_dirStmts hf hp
    · have hall : ∀ f, TagName f → op.path ≠ pathIn d f := fun f hf hp => htag ⟨f, hf, hp⟩
      rw [foldl_dirStmts_of_ne hall]
      exact (ih hops).congr fun f hf => onListed_of_ne hall hf _

end Listing

section Directory
variable {δ : Type} [DecidableEq δ] (encrypt : Key → δ)

/-- What `GetDirectoryInfo` can return. -/
def GetDirectoryInfo (path : Key) (t : KeyList δ) (files : List ListValue) : Prop :=
  ∃ rows, GetList encrypt (directory ++ path) t rows ∧ files = rows.map Row.listValue

/-- The rows of the fragments of a path. -/
def metaRows (path : Key) (t : KeyList δ) : KeyList δ :=
  (rowsOf encrypt path t).filter fun r => r.listValue.isJson

/-- The tags of the directory that have a fragment, each of them once, and nothing else,
among the keys in use. -/
structure MirrorsTags (keys : Set Key) (d : Key) (t : KeyList δ) (files : List ListValue) :
    Prop where
  once : ∀ f, TagName f → pathIn d f ∈ keys →
    files.count (.name f) = if (metaRows encrypt (pathIn d f) t).isEmpty then 0 else 1
  others : ∀ x ∈ files, ∃ f, TagName f ∧ pathIn d f ∈ keys ∧ x = .name f

end Directory

theorem MetaOp.exists_key (op : MetaOp) : ∃ s ∈ op.stmts, s.key = op.path := by
  cases op with
  | store version1 info =>
    refine ⟨.pushList info.path (.json (marshal info.value)), ?_, rfl⟩
    simp only [stmts]
    rcases storeMetaInfo_cases version1 info with
      ⟨-, hs | ⟨-, hs⟩⟩ | ⟨-, hs | ⟨-, hs⟩⟩ <;> rw [hs] <;> simp
  | delete version1 path => cases version1 <;> exact ⟨.delList path, List.mem_cons_self, rfl⟩

section Mirror
variable {δ : Type} [DecidableEq δ] {encrypt : Key → δ} {collate : Key → Key} {ops : List MetaOp}
  {stmts : List (Nat × Stmt)} {keys : Set Key}

theorem length_metaRows (hstmts : stmts.map Prod.snd = ops.flatMap MetaOp.stmts) {path : Key}
    (hkeys : ∀ s ∈ stmts, encrypt s.2.key = encrypt path → s.2.key = path) :
    (metaRows encrypt path (execAll encrypt collate [] stmts)).length =
      (fragmentsKept path ops).length := by
  have hvalues : (metaRows encrypt path (execAll encrypt collate [] stmts)).map Row.listValue =
      (fragmentsKept path ops).map fragmentValue := by
    rw [← filter_valuesKept, ← hstmts, ← values_kept hkeys, List.filter_map]
    rfl
  simpa using congrArg List.length hvalues

theorem GetDirectoryInfo.lists
    (hops : ∀ op ∈ ops, op.version1 = true ∧ ¬ directory <+: op.path)
    (hstmts : stmts.map Prod.snd = ops.flatMap MetaOp.stmts) {d : Key}
    (hkeys : ∀ s ∈ stmts, encrypt s.2.key = encrypt (directory ++ d) → s.2.key = directory ++ d)
    {files : List ListValue}
    (h : GetDirectoryInfo encrypt d (execAll encrypt collate [] stmts) files) :
    Lists (fun f => timesListed collate d f ops) files := by
  obtain ⟨rows, ⟨hperm, -⟩, rfl⟩ := h
  have hvalues := hperm.map Row.listValue
  rw [values_kept hkeys, hstmts] at hvalues
  have hlists := lists_valuesKept collate d hops
  refine ⟨fun x hx => hlists.entries x (hvalues.mem_iff.mp hx), ?_⟩
  intro f hf
  rw [hvalues.count_eq, hlists.count f hf]

/-- A path that has fragments is a key in use. -/
theorem mem_keys_of_fragmentsKept (hstmts : stmts.map Prod.snd = ops.flatMap MetaOp.stmts)
    (hkeys : ∀ s ∈ stmts, s.2.key ∈ keys) {path : Key} (h : fragmentsKept path ops ≠ []) :
    path ∈ keys := by
  obtain ⟨v, hv⟩ := List.exists_mem_of_ne_nil _ h
  obtain ⟨version1, info, hop, rfl, -⟩ := mem_fragmentsKept hv
  obtain ⟨s, hs, hkey⟩ := (MetaOp.store version1 info).exists_key
  have hmem : s ∈ stmts.map Prod.snd := hstmts ▸ List.mem_flatMap.mpr ⟨_, hop, hs⟩
  obtain ⟨s', hs', rfl⟩ := List.mem_map.mp hmem
  have hpath : s'.2.key = info.path := hkey
  exact hpath ▸ hkeys s' hs'

end Mirror

/-- The listing of a directory is that of its tags if each tag that is stored has one
fragment since it was last taken out of the directory. -/
theorem directoryInfo_mirrors_iff {δ : Type} [DecidableEq δ] {encrypt : Key → δ}
    {collate : Key → Key} {keys : Set Key} (hinj : Set.InjOn encrypt keys) {ops : List MetaOp}
    (hops : ∀ op ∈ ops, op.version1 = true ∧ ¬ directory <+: op.path)
    {stmts : List (Nat × Stmt)} (hstmts : stmts.map Prod.snd = ops.flatMap MetaOp.stmts)
    (hkeys : ∀ s ∈ stmts, s.2.key ∈ keys) {d : Key} (hd : directory ++ d ∈ keys) :
    (∀ files, GetDirectoryInfo encrypt d (execAll encrypt collate [] stmts) files →
      MirrorsTags encrypt keys d (execAll encrypt collate [] stmts) files) ↔
    ∀ f, TagName f → fragmentsKept (pathIn d f) ops ≠ [] → timesListed collate d f ops = 1 := by
  have hin : ∀ key ∈ keys, ∀ s ∈ stmts, encrypt s.2.key = encrypt key → s.2.key = key :=
    fun key hkey s hs he => hinj (hkeys s hs) hkey he
  have hempty : ∀ f, pathIn d f ∈ keys →
      ((metaRows encrypt (pathIn d f) (execAll encrypt collate [] stmts)).isEmpty = true ↔
        fragmentsKept (pathIn d f) ops = []) := by
    intro f hf
    rw [List.isEmpty_iff_length_eq_zero, length_metaRows hstmts (hin _ hf),
      List.length_eq_zero_iff]
  constructor
  · intro h f hf hkept
    have hmem := mem_keys_of_fragmentsKept hstmts hkeys hkept
    obtain ⟨rows, hrows⟩ :=
      exists_getList encrypt (directory ++ d) (execAll encrypt collate [] stmts)
    have hinfo : GetDirectoryInfo encrypt d (execAll encrypt collate [] stmts) _ :=
      ⟨rows, hrows, rfl⟩
    have hone := (h _ hinfo).once f hf hmem
    rwa [(hinfo.lists hops hstmts (hin _ hd)).count f hf,
      if_neg (mt (hempty f hmem).mp hkept)] at hone
  · intro h files hfiles
    have hlists := hfiles.lists hops hstmts (hin _ hd)
    constructor
    · intro f hf hmem
      rw [hlists.count f hf]
      split
      · rename_i hz
        have hle := timesListed_le collate d hf ops
        rw [(hempty f hmem).mp hz] at hle
        exact Nat.le_zero.mp hle
      · rename_i hz
        exact h f hf (mt (hempty f hmem).mpr hz)
    · intro x hx
      obtain ⟨f, hf, rfl⟩ := hlists.entries x hx
      refine ⟨f, hf, mem_keys_of_fragmentsKept hstmts hkeys fun hnil => ?_, rfl⟩
      have hle := timesListed_le collate d hf ops
      rw [hnil, ← hlists.count f hf] at hle
      exact absurd (List.count_pos_iff.mpr hx) (Nat.not_lt.mpr hle)

def repository : Key := ['r']

def tagA : Key := ['t', 'a', 'g', '_', 'a']

theorem tagA_tagName : TagName tagA := by
  unfold TagName
  decide

/-- A tag that is stored whole. -/
def wholeTag : List MetaOp := [.store true ⟨pathIn repository tagA, ⟨0, 0, 5, 1, 7, true, 0⟩⟩]

/-- A tag that is stored in two fragments. -/
def twoFragments : List MetaOp :=
  [.store true ⟨pathIn repository tagA, ⟨0, 0, 5, 1, 7, false, 0⟩⟩,
    .store true ⟨pathIn repository tagA, ⟨1, 5, 9, 1, 8, true, 0⟩⟩]

/-- Statements that are all executed at one time. -/
def stmtsAt (now : Nat) (stmts : List Stmt) : List (Nat × Stmt) := stmts.map fun s => (now, s)

theorem stmtsAt_snd (now : Nat) (stmts : List Stmt) : (stmtsAt now stmts).map Prod.snd = stmts := by
  simp [stmtsAt, Function.comp_def]

/-- The table after a tag was stored whole. -/
def wholeTable : KeyList Key := execAll id id [] (stmtsAt 1 (wholeTag.flatMap MetaOp.stmts))

/-- The table after it was stored in two fragments. -/
def fragmentsTable : KeyList Key := execAll id id [] (stmtsAt 1 (twoFragments.flatMap MetaOp.stmts))

theorem directoryInfo_mirrors_whole :
    (∀ op ∈ wholeTag, op.version1 = true ∧ ¬ directory <+: op.path) ∧
    ∀ files, GetDirectoryInfo id repository wholeTable files →
      MirrorsTags id Set.univ repository wholeTable files := by
  have hops : ∀ op ∈ wholeTag, op.version1 = true ∧ ¬ directory <+: op.path := by
    refine List.forall_mem_singleton.mpr ⟨rfl, ?_⟩
    decide
  refine ⟨hops, ?_⟩
  refine (directoryInfo_mirrors_iff Function.injective_id.injOn hops (stmtsAt_snd 1 _)
    (fun _ _ => Set.mem_univ _) (Set.mem_univ _)).mpr ?_
  intro f hf hkept
  have hp : pathIn repository tagA = pathIn repository f := by
    by_contra hne
    exact hkept (if_neg hne)
  simp [wholeTag, timesListed, MetaOp.onListed, hp]

theorem directoryInfo_lists_twice :
    (∀ op ∈ twoFragments, op.version1 = true ∧ ¬ directory <+: op.path) ∧
    GetDirectoryInfo id repository fragmentsTable [.name tagA, .name tagA] ∧
    ¬ MirrorsTags id Set.univ repository fragmentsTable [.name tagA, .name tagA] := by
  refine ⟨?_, ⟨rowsOf id (directory ++ repository) fragmentsTable,
    ⟨.refl _, by decide +kernel⟩, by decide +kernel⟩, ?_⟩
  · refine List.forall_mem_cons.mpr ⟨⟨rfl, by decide⟩, List.forall_mem_singleton.mpr ⟨rfl, ?_⟩⟩
    decide
  · intro h
    have honce := h.once tagA tagA_tagName trivial
    revert honce
    decide +kernel

/-! ## Descendants -/

theorem backslash_ne_percent : '\\' ≠ '%' := by decide

theorem percent_ne_underscore : '%' ≠ '_' := by decide

/-- The special characters of `LIKE`. -/
def likeWildcards : Wildcards Char := ⟨'%', '_', '\\', backslash_ne_percent, percent_ne_underscore⟩

section Descendants
variable {δ : Type}

/-- What `getDescendantPath` can return: the keys of the rows that the pattern matches, in
any order. -/
def GetDescendantPath (key : Key) (t : KeyList δ) (values : List Key) : Prop :=
  values.Perm ((t.filter fun r => like likeWildcards (key ++ ['%']) r.listKey).map Row.listKey)

/-- A key for every row whose key begins with the path. -/
def ListsDescendants (path : Key) (t : KeyList δ) (values : List Key) : Prop :=
  values.Perm ((t.filter fun r => path.isPrefixOf r.listKey).map Row.listKey)

end Descendants

/-- A path has the right descendants in every table if it has none of the special
characters. -/
theorem descendantPath_exact_iff {δ : Type} [Inhabited δ] (path : Key) :
    (∀ (t : KeyList δ) (values : List Key), GetDescendantPath path t values →
      ListsDescendants path t values) ↔
    ∀ c ∈ path, c ≠ '%' ∧ c ≠ '_' ∧ c ≠ '\\' := by
  constructor
  · intro h
    -- the table with the sample of the pattern as its only key
    have hlist := h [⟨prefixSample likeWildcards path, default, .name [], 0, 0⟩] _ (.refl _)
    refine plain_of_prefix_sample likeWildcards (List.isPrefixOf_iff_prefix.mp ?_)
    by_contra hpre
    have hlike : like likeWildcards (path ++ ['%']) (prefixSample likeWildcards path) = true :=
      like_sample likeWildcards path
    simp only [ListsDescendants, List.filter_cons, hlike, hpre, if_true, List.filter_nil] at hlist
    exact List.cons_ne_nil _ _ hlist.eq_nil
  · intro h t values hvalues
    have hfilter : (t.filter fun r => like likeWildcards (path ++ ['%']) r.listKey) =
        t.filter fun r => path.isPrefixOf r.listKey := by
      refine List.filter_congr fun r _ => ?_
      rw [Bool.eq_iff_iff, List.isPrefixOf_iff_prefix]
      exact like_iff_prefix likeWildcards h r.listKey
    unfold GetDescendantPath at hvalues
    rwa [hfilter] at hvalues

/-- The table of a repository whose name another one matches. -/
def twoRepositories : KeyList Unit :=
  [⟨['m', 'y', '_', 'a'], (), .name [], 0, 0⟩, ⟨['m', 'y', 'x', 'a'], (), .name [], 0, 0⟩]

theorem descendantPath_of_other :
    GetDescendantPath ['m', 'y', '_'] twoRepositories
      [['m', 'y', '_', 'a'], ['m', 'y', 'x', 'a']] ∧
    ¬ ListsDescendants ['m', 'y', '_'] twoRepositories
      [['m', 'y', '_', 'a'], ['m', 'y', 'x', 'a']] := by
  unfold GetDescendantPath ListsDescendants
  decide +kernel

end Speedy.Imageserver
