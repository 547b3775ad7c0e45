import Speedy.Imageserver.ConcurrentStore

/-! # Stores that fail half way

`StoreMetaInfoV1` and `StoreMetaInfoV2` execute their statements one by one and return at the
first error. What was executed before stays: the rows of a whole file are deleted first, and
a tag is listed in its directory before its own row is there. -/
namespace Speedy.Imageserver

/-! ## Statements that may fail -/

section Calls
variable {δ : Type} [DecidableEq δ] (encrypt : Key → δ) (collate : Key → Key)

/-- The statements one after the other, each with its time and whether the database executes
it; the first that fails has no effect and ends the call. The result is the table and
whether all were executed. -/
def execTill : KeyList δ → List ((Nat × Stmt) × Bool) → KeyList δ × Bool
  | t, [] => (t, true)
  | t, (s, true) :: calls => execTill (s.2.exec encrypt collate s.1 t) calls
  | t, (_, false) :: _ => (t, false)

end Calls

/-- The statements before the first that fails. -/
def executed (calls : List ((Nat × Stmt) × Bool)) : List (Nat × Stmt) :=
  (calls.takeWhile Prod.snd).map Prod.fst

/-- What `uploadFile` calls, depending on the version of the registry. -/
def storeMetaInfo (version1 : Bool) (info : MetaInfo) : List Stmt :=
  if version1 then storeMetaInfoV1 info else storeMetaInfoV2 info

/-- The fragment is a whole file. -/
def isWhole (info : MetaInfo) : Bool := info.value.isLast && info.value.index == 0

section Table
variable {δ : Type} [DecidableEq δ] (encrypt : Key → δ) (collate : Key → Key)

/-- The rows of the key are the same; a table has no order. -/
def SameRows (key : Key) (t t' : KeyList δ) : Prop :=
  (rowsOf encrypt key t').Perm (rowsOf encrypt key t)

/-- The row that lists a file in its directory. -/
def listingRow (path : Key) (now : Nat) : Row δ :=
  ⟨dirOf path, encrypt (dirOf path), fileOf path, now, now⟩

/-- The rows of the directory that the database takes for it. -/
def listingRows (path : Key) (t : KeyList δ) : KeyList δ :=
  rowsWith encrypt (dirOf path) (fun v => v.collated collate = (fileOf path).collated collate) t

/-- The statements executed have changed nothing: there were none; or there was nothing to
delete; or what was deleted is what was inserted again. -/
def Harmless (info : MetaInfo) (t : KeyList δ) : List (Nat × Stmt) → Prop
  | [] => True
  | [_] => isWhole info = true ∧ rowsOf encrypt info.path t = []
  | [_, _] => rowsOf encrypt info.path t = [] ∧ listingRows encrypt collate info.path t = []
  | _ :: _ :: s :: _ =>
    rowsOf encrypt info.path t =
      rowsOf encrypt info.path [listingRow encrypt info.path s.1] ∧
    listingRows encrypt collate info.path t = [listingRow encrypt info.path s.1]

end Table

section Failure
variable {δ : Type} [DecidableEq δ] {encrypt : Key → δ} {collate : Key → Key} {t t' : KeyList δ}
  {key path : Key} {info : MetaInfo} {version1 : Bool} {calls : List ((Nat × Stmt) × Bool)}
  {done : List (Nat × Stmt)}

/-- A call that fails has executed the statements before, and not all. -/
theorem execTill_failed (h : execTill encrypt collate t calls = (t', false)) :
    t' = execAll encrypt collate t (executed calls) ∧
      ∃ s rest, calls.map Prod.fst = executed calls ++ s :: rest := by
  induction calls generalizing t with
  | nil => cases h
  | cons call calls ih =>
    obtain ⟨s, ok⟩ := call
    cases ok with
    | true =>
      obtain ⟨ht, s', rest, hsplit⟩ := ih h
      refine ⟨ht, s', rest, ?_⟩
      rw [List.map_cons, hsplit]
      rfl
    | false =>
      cases h
      exact ⟨rfl, s, calls.map Prod.fst, rfl⟩

/-- The four lists of statements. -/
theorem storeMetaInfo_cases (version1 : Bool) (info : MetaInfo) :
    (isWhole info = false ∧
      (storeMetaInfo version1 info = [.pushList info.path (.json (marshal info.value))] ∨
      IsTag info.path ∧ storeMetaInfo version1 info =
        [.pushList (dirOf info.path) (fileOf info.path),
          .pushList info.path (.json (marshal info.value))])) ∨
    (isWhole info = true ∧
      (storeMetaInfo version1 info =
        [.delList info.path, .pushList info.path (.json (marshal info.value))] ∨
      IsTag info.path ∧ storeMetaInfo version1 info =
        [.delList info.path, .delListOne (dirOf info.path) (fileOf info.path),
          .pushList (dirOf info.path) (fileOf info.path),
          .pushList info.path (.json (marshal info.value))])) := by
  have hwhole : (info.value.isLast && info.value.index == 0) = isWhole info := rfl
  unfold storeMetaInfo storeMetaInfoV1 storeMetaInfoV2 deleteFileMetaInfoV1 deleteFileMetaInfoV2
  rw [hwhole]
  by_cases htag : IsTag info.path
  · rw [handleDirectory_of_isTag htag, handleDirectory_of_isTag htag]
    cases isWhole info <;> cases version1 <;> simp [htag]
  · rw [handleDirectory_of_not_isTag htag, handleDirectory_of_not_isTag htag]
    cases isWhole info <;> cases version1 <;> simp [htag]

/-- What can have been executed when a statement fails. -/
theorem executed_cases {s : Stmt} {rest : List Stmt}
    (h : done.map Prod.snd ++ s :: rest = storeMetaInfo version1 info) :
    done = [] ∨
    (isWhole info = true ∧ ∃ n, done = [(n, .delList info.path)]) ∨
    (isWhole info = false ∧ IsTag info.path ∧
      ∃ n, done = [(n, .pushList (dirOf info.path) (fileOf info.path))]) ∨
    (IsTag info.path ∧ ∃ n₁ n₂, done = [(n₁, .delList info.path),
      (n₂, .delListOne (dirOf info.path) (fileOf info.path))]) ∨
    (IsTag info.path ∧ ∃ n₁ n₂ n₃, done = [(n₁, .delList info.path),
      (n₂, .delListOne (dirOf info.path) (fileOf info.path)),
      (n₃, .pushList (dirOf info.path) (fileOf info.path))]) := by
  have hlen := congrArg List.length h
  rw [List.length_append, List.length_map, List.length_cons] at hlen
  rcases storeMetaInfo_cases version1 info with
    ⟨hw, hs | ⟨htag, hs⟩⟩ | ⟨hw, hs | ⟨htag, hs⟩⟩
  all_goals rw [hs] at h hlen
  all_goals simp only [List.length_cons, List.length_nil] at hlen
  · exact .inl (List.length_eq_zero_iff.mp (by omega))
  · rcases done with _ | ⟨⟨n₁, s₁⟩, _ | ⟨_, _⟩⟩
    · exact .inl rfl
    · cases h
      exact .inr (.inr (.inl ⟨hw, htag, n₁, rfl⟩))
    · simp only [List.length_cons] at hlen
      omega
  · rcases done with _ | ⟨⟨n₁, s₁⟩, _ | ⟨_, _⟩⟩
    · exact .inl rfl
    · cases h
      exact .inr (.inl ⟨hw, n₁, rfl⟩)
    · simp only [List.length_cons] at hlen
      omega
  · rcases done with _ | ⟨⟨n₁, s₁⟩, _ | ⟨⟨n₂, s₂⟩, _ | ⟨⟨n₃, s₃⟩, _ | ⟨_, _⟩⟩⟩⟩
    · exact .inl rfl
    · cases h
      exact .inr (.inl ⟨hw, n₁, rfl⟩)
    · cases h
      exact .inr (.inr (.inr (.inl ⟨htag, n₁, n₂, rfl⟩)))
    · cases h
      exact .inr (.inr (.inr (.inr ⟨htag, n₁, n₂, n₃, rfl⟩)))
    · simp only [List.length_cons] at hlen
      omega

/-! ## What the statements leave -/

theorem delList_of_none (now : Nat) (h : rowsOf encrypt key t = []) :
    (Stmt.delList key).exec encrypt collate now t = t := by
  refine List.filter_eq_self.mpr fun r hr => ?_
  have hne := List.filter_eq_nil_iff.mp h r hr
  simpa using hne

theorem delListOne_of_none {value : ListValue} (now : Nat)
    (h : rowsWith encrypt key (fun v => v.collated collate = value.collated collate) t = []) :
    (Stmt.delListOne key value).exec encrypt collate now t = t := by
  refine List.filter_eq_self.mpr fun r hr => ?_
  have hnone : ∀ r ∈ t, r.listValue.collated collate = value.collated collate →
      r.md5Key ≠ encrypt key := by
    simpa [rowsWith, rowsOf, List.filter_filter] using h
  refine decide_eq_true fun hboth => ?_
  exact hnone r hr hboth.2 hboth.1

/-- Rows that are not there are not there after a deletion. -/
theorem rowsOf_delListOne_nil {key' : Key} {value : ListValue} (now : Nat)
    (h : rowsOf encrypt key t = []) :
    rowsOf encrypt key ((Stmt.delListOne key' value).exec encrypt collate now t) = [] := by
  have hne := List.filter_eq_nil_iff.mp h
  refine List.filter_eq_nil_iff.mpr fun r hr => ?_
  exact hne r (List.mem_of_mem_filter hr)

/-- The listing is deleted, or there was none. -/
theorem rowsOf_split_listing (encrypt : Key → δ) (collate : Key → Key) (path : Key)
    (t : KeyList δ) : (rowsOf encrypt (dirOf path) t).Perm
      ((rowsOf encrypt (dirOf path) t).filter (fun r =>
        r.listValue.collated collate ≠ (fileOf path).collated collate) ++
        listingRows encrypt collate path t) := by
  have hsplit := List.filter_append_perm (fun r : Row δ =>
    decide (r.listValue.collated collate = (fileOf path).collated collate))
    (rowsOf encrypt (dirOf path) t)
  refine hsplit.symm.trans (List.perm_append_comm.trans (.of_eq ?_))
  simp only [listingRows, rowsWith, ne_eq, decide_not]

theorem sameRows_delList_iff (now : Nat) :
    SameRows encrypt key t ((Stmt.delList key).exec encrypt collate now t) ↔
      rowsOf encrypt key t = [] := by
  unfold SameRows
  rw [rowsOf_delList_self, List.nil_perm]

theorem sameRows_refl (key : Key) (t : KeyList δ) : SameRows encrypt key t t := .refl _

/-- A row more is not the same. -/
theorem not_sameRows_pushList {value : ListValue} (now : Nat) :
    ¬ SameRows encrypt key t ((Stmt.pushList key value).exec encrypt collate now t) := by
  intro h
  have hlen := List.Perm.length_eq h
  rw [rowsOf_pushList_self, List.length_append, List.length_singleton] at hlen
  omega

/-- The rows of the path and of the tag in its directory are deleted. -/
theorem sameRows_deleted_iff (n₁ n₂ : Nat) :
    (SameRows encrypt path t (execAll encrypt collate t [(n₁, .delList path),
        (n₂, .delListOne (dirOf path) (fileOf path))]) ∧
      SameRows encrypt (dirOf path) t (execAll encrypt collate t [(n₁, .delList path),
        (n₂, .delListOne (dirOf path) (fileOf path))])) ↔
      rowsOf encrypt path t = [] ∧ listingRows encrypt collate path t = [] := by
  rw [execAll_cons, execAll_cons, execAll_nil]
  constructor
  · intro h
    obtain ⟨hpath, hdir⟩ := h
    unfold SameRows at hpath
    rw [rowsOf_delListOne_nil n₂ (rowsOf_delList_self n₁), List.nil_perm] at hpath
    refine ⟨hpath, ?_⟩
    unfold SameRows at hdir
    rw [delList_of_none n₁ hpath, rowsOf_delListOne_self] at hdir
    have hlen := (hdir.trans (rowsOf_split_listing encrypt collate path t)).length_eq
    rw [List.length_append] at hlen
    exact List.length_eq_zero_iff.mp (by omega)
  · intro h
    rw [delList_of_none n₁ h.1, delListOne_of_none n₂ h.2]
    exact ⟨sameRows_refl _ _, sameRows_refl _ _⟩

/-- The same with the tag listed again. The digests of the two keys may be the same. -/
theorem sameRows_listed_iff (n₁ n₂ n₃ : Nat) :
    (SameRows encrypt path t (execAll encrypt collate t [(n₁, .delList path),
        (n₂, .delListOne (dirOf path) (fileOf path)),
        (n₃, .pushList (dirOf path) (fileOf path))]) ∧
      SameRows encrypt (dirOf path) t (execAll encrypt collate t [(n₁, .delList path),
        (n₂, .delListOne (dirOf path) (fileOf path)),
        (n₃, .pushList (dirOf path) (fileOf path))])) ↔
      rowsOf encrypt path t = rowsOf encrypt path [listingRow encrypt path n₃] ∧
        listingRows encrypt collate path t = [listingRow encrypt path n₃] := by
  rw [execAll_cons, execAll_cons, execAll_cons, execAll_nil]
  unfold SameRows
  rw [rowsOf_pushList_self]
  by_cases hsame : encrypt (dirOf path) = encrypt path
  · -- all rows of the directory were rows of the path
    have hkeys : ∀ t : KeyList δ, rowsOf encrypt (dirOf path) t = rowsOf encrypt path t := by
      intro t
      simp only [rowsOf, hsame]
    have hrow : rowsOf encrypt path [listingRow encrypt path n₃] =
        [listingRow encrypt path n₃] := by
      simp [rowsOf, listingRow, hsame]
    have hpush : ∀ t, rowsOf encrypt path ((Stmt.pushList (dirOf path) (fileOf path)).exec encrypt
        collate n₃ t) = rowsOf encrypt path t ++ [listingRow encrypt path n₃] := by
      intro t
      rw [← hkeys, rowsOf_pushList_self, hkeys]
      rfl
    rw [hpush, hrow, hkeys, rowsOf_delListOne_nil n₂ (rowsOf_delList_self n₁), hkeys]
    constructor
    · intro h
      have hrows := List.perm_singleton.mp h.1.symm
      refine ⟨hrows, ?_⟩
      unfold listingRows rowsWith
      rw [hkeys, hrows]
      simp [listingRow]
    · intro h
      rw [h.1]
      exact ⟨.refl _, .refl _⟩
  · have hrow : rowsOf encrypt path [listingRow encrypt path n₃] = [] := by
      simp [rowsOf, listingRow, hsame]
    rw [rowsOf_pushList_of_ne n₃ hsame, rowsOf_delListOne_nil n₂ (rowsOf_delList_self n₁), hrow,
      List.nil_perm]
    refine and_congr_right fun hpath => ?_
    rw [delList_of_none n₁ hpath, rowsOf_delListOne_self]
    constructor
    · intro h
      have hcancel := h.trans (rowsOf_split_listing encrypt collate path t)
      exact (List.perm_singleton.mp ((List.perm_append_left_iff _).mp hcancel).symm)
    · intro h
      have hsplit := rowsOf_split_listing encrypt collate path t
      rw [h] at hsplit
      exact hsplit.symm

/-- When a store returns an error, the rows of the path and those of its directory are what
they were if and only if the statements executed before were harmless. -/
theorem failed_store_changes_nothing_iff
    (hcalls : calls.map (fun call => call.1.2) = storeMetaInfo version1 info)
    (hfail : execTill encrypt collate t calls = (t', false)) :
    (SameRows encrypt info.path t t' ∧
        (IsTag info.path → SameRows encrypt (dirOf info.path) t t')) ↔
      Harmless encrypt collate info t (executed calls) := by
  obtain ⟨rfl, s, rest, hsplit⟩ := execTill_failed hfail
  have hstmts : (executed calls).map Prod.snd ++ s.2 :: rest.map Prod.snd =
      storeMetaInfo version1 info := by
    rw [← hcalls, ← List.map_cons, ← List.map_append, ← hsplit, List.map_map]
    rfl
  rcases executed_cases hstmts with hd | ⟨hw, n, hd⟩ | ⟨hw, htag, n, hd⟩ |
    ⟨htag, n₁, n₂, hd⟩ | ⟨htag, n₁, n₂, n₃, hd⟩
  · rw [hd]
    exact iff_of_true ⟨sameRows_refl _ _, fun _ => sameRows_refl _ _⟩ trivial
  · rw [hd, execAll_cons, execAll_nil]
    simp only [Harmless, hw, true_and]
    constructor
    · intro h
      exact (sameRows_delList_iff n).mp h.1
    · intro h
      rw [delList_of_none n h]
      exact ⟨sameRows_refl _ _, fun _ => sameRows_refl _ _⟩
  · rw [hd, execAll_cons, execAll_nil]
    refine iff_of_false (fun h => not_sameRows_pushList n (h.2 htag)) ?_
    simp only [Harmless, hw, Bool.false_eq_true, false_and, not_false_eq_true]
  · rw [hd, forall_prop_of_true htag]
    exact sameRows_deleted_iff n₁ n₂
  · rw [hd, forall_prop_of_true htag]
    exact sameRows_listed_iff n₁ n₂ n₃

end Failure

/-- A file of one fragment, as it is in the table. -/
def smallFile : MetaInfo := ⟨['a'], ⟨0, 0, 3, 1, 7, true, 0⟩⟩

/-- Its store fails at the last statement. -/
def lastFails : List ((Nat × Stmt) × Bool) :=
  [((4, .delList ['a']), true), ((4, .pushList ['a'] (.json (marshal smallFile.value))), false)]

/-- Nothing is left of a first upload. -/
theorem failed_store_changes_nothing_first :
    execTill id id ([] : KeyList Key) lastFails = ([], false) ∧
      SameRows id ['a'] ([] : KeyList Key) [] := by
  have hcalls : lastFails.map (fun call => call.1.2) = storeMetaInfo true smallFile := by
    decide +kernel
  have hfail : execTill id id ([] : KeyList Key) lastFails = ([], false) := rfl
  exact ⟨hfail, ((failed_store_changes_nothing_iff hcalls hfail).mpr ⟨rfl, rfl⟩).1⟩

/-- A second one has deleted the first. -/
theorem failed_store_deletes_file :
    let t : KeyList Key := [⟨['a'], ['a'], .json (marshal smallFile.value), 2, 2⟩]
    lastFails.map (fun call => call.1.2) = storeMetaInfoV1 smallFile ∧
    execTill id id t lastFails = ([], false) ∧
    getFileInfo (rowsOf id ['a'] t) = .fragmentInfo [⟨0, 0, 3, 0, 0, true, 2⟩] ∧
    getFileInfo (rowsOf id ['a'] ([] : KeyList Key)) = .status 404 := by
  decide +kernel

end Speedy.Imageserver
