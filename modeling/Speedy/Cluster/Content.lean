import Speedy.Cluster.Multipart
import Speedy.Imageserver.ConcurrentStore
import Speedy.Imageserver.Fragments

/-! # Small files

`put_content` posts a file as one fragment; the `POST` may take effect more than once before
its answer arrives. `get_content` asks for the fragments and downloads the only one. -/
namespace Speedy.Cluster
open Speedy.Lib Speedy.Imageserver Speedy.Driver

/-- Why `get_content` fails. -/
inductive ContentError where
  | info (e : DriverError)
  | littleFile
  | fileNotFound
  | unexceptStatus (code : Nat)
  | retryFailed
  deriving DecidableEq, Repr

/-- What `put_content` uploads. -/
def putContent (content : Bytes) : Part := ⟨0, 0, content.length, true, content⟩

/-- `get_content`, with the answers of the imageservers to its two requests. -/
def getContent (info : FileInfoResponse) (download : Nat → Nat × Nat → DownloadResponse) :
    Except ContentError Bytes :=
  match getfileinfo info with
  | .error e => .error (.info e)
  | .ok (_, [fragment]) =>
    match download 0 (fragment.start, fragment.stop) with
    | .content data => .ok data
    | .status 404 => .error .fileNotFound
    | .status code => .error (.unexceptStatus code)
    | .broken => .error .retryFailed
  | .ok (_, _) => .error .littleFile

/-! ## Reading a row back -/

section Row
variable {δ : Type} {encrypt : Key → δ} {path : Key} {d : Delivery} {content : Bytes}

/-- The row of a delivery. -/
def contentRow (encrypt : Key → δ) (path : Key) (v : MetaInfoValue) (now : Nat) : Row δ :=
  ⟨path, encrypt path, .json (marshal v), now, now⟩

theorem readUint64_pos {n : Nat} (h : 0 < n) : 0 < readUint64 n := by
  have hround := roundBits_pos (by decide : 0 < 53) h
  unfold readUint64 floatToUint64
  split
  · rename_i hlt
    rw [UInt64.toNat_ofNat_of_lt' hlt]
    exact hround
  · decide

/-- What the row is read as is what is asked for and found again, so it does not matter
whether the length survived. -/
theorem getContent_of_row {v : MetaInfoValue} {now : Nat}
    (hv : v.index = 0 ∧ v.start = 0 ∧ v.stop.toNat = content.length ∧ v.isLast = true ∧
      v.fileId = d.fileId ∧ v.groupId = d.groupId)
    (hcontent : content ≠ []) (hf : d.fileId ≠ 0) (hg : d.groupId ≠ 0)
    (hlt : d.fileId.toNat < 2 ^ 53) {getData : UInt16 → UInt64 → Option Bytes}
    (hdata : getData d.groupId d.fileId = some content) :
    getContent (getFileInfo [contentRow encrypt path v now])
      (downloadResponse getData [contentRow encrypt path v now]) = .ok content := by
  obtain ⟨hi, hs, hstop, hlast, hfile, hgroup⟩ := hv
  have hpos : 0 < readUint64 content.length := readUint64_pos (List.length_pos_iff.mpr hcontent)
  have hread : [contentRow encrypt path v now].map (readRow false) = [_].map .ok :=
    congrArg (fun x => [x]) (readMetaInfoValue_marshal v now)
  have hinfo : getfileinfo (getFileInfo [contentRow encrypt path v now]) =
      .ok (readUint64 content.length, [⟨0, 0, readUint64 content.length, true⟩]) := by
    refine getfileinfo_of_tiles ⟨rfl, rfl, hpos, rfl, rfl⟩ hread (.of_eq ?_)
    simp only [List.map_cons, List.map_nil, fragmentInfoOf, hi, hs, hstop, hlast]
    rfl
  have hstop' : (floatToUint64 (roundBits 53 v.stop.toNat)).toNat = readUint64 content.length := by
    rw [hstop]
    rfl
  have hsplit : splitRange 0 (readUint64 content.length) =
      some (0, floatToUint64 (roundBits 53 v.stop.toNat)) := by
    have hlt : (0 : UInt64) < floatToUint64 (roundBits 53 v.stop.toNat) := by
      rw [UInt64.lt_iff_toNat_lt, hstop']
      exact hpos
    rw [← hstop']
    exact splitRange_toNat hlt
  have hfound := getFragmentMetaInfo_read (contentRow encrypt path v now) v rfl (hfile ▸ hf)
    (hgroup ▸ hg)
  have hzero : floatToUint64 (roundBits 53 (0 : UInt64).toNat) = 0 := by decide +kernel
  have hfid : floatToUint64 (roundBits 53 v.fileId.toNat) = d.fileId := by
    rw [hfile, floatToUint64_round_eq_iff]
    exact representable_of_lt hlt
  rw [hi, hs, hzero] at hfound
  have hparse : parseUint64 0 = some 0 := by decide +kernel
  unfold getContent
  simp only [hinfo, downloadResponse, hsplit, hparse, hfound, readValue, hfid, hgroup, hdata]

end Row

/-! ## Storing it -/

section Content
variable {δ : Type} [DecidableEq δ] {encrypt : Key → δ} {collate : Key → Key} {path : Key}
  {t : KeyList δ} {d : Delivery} {ds : List Delivery} {content : Bytes}

/-- The statements of a delivery: the path is cleared, a tag is listed again, and the row is
inserted. -/
theorem deliver_content (encrypt : Key → δ) (collate : Key → Key)
    (hpart : d.part = putContent content)
    (hacc : d.Accepted path) :
    ∃ v : MetaInfoValue, (v.index = 0 ∧ v.start = 0 ∧ v.stop.toNat = content.length ∧
        v.isLast = true ∧ v.fileId = d.fileId ∧ v.groupId = d.groupId) ∧
      ∀ t : KeyList δ, deliver encrypt collate path t d = execAll encrypt collate t
        ((d.now, .delList path) :: ((dirStmts path true).map (fun s => (d.now, s)) ++
          [(d.now, .pushList path (.json (marshal v)))])) := by
  obtain ⟨stmts, hstmts⟩ := hacc
  obtain ⟨v, hindex, hstart, hstop, hlast, hfile, hgroup, rfl⟩ := uploadFile_eq_ok hstmts
  simp only [Delivery.request, hpart, putContent] at hindex hstart hstop hlast
  have hi : v.index = 0 := UInt64.toNat_inj.mp hindex
  have hs : v.start = 0 := UInt64.toNat_inj.mp hstart
  refine ⟨v, ⟨hi, hs, hstop, hlast, hfile, hgroup⟩, fun t => ?_⟩
  rw [deliver, hstmts]
  simp only [Delivery.request, if_true, storeMetaInfoV1, hi, hlast, beq_self_eq_true,
    Bool.and_true, deleteFileMetaInfoV1, dirStmts, List.cons_append, List.map_cons,
    List.map_append, List.append_assoc, List.map_nil]

/-- The statements about the directory leave other rows alone. -/
theorem rowsOf_dirStmts {key : Key} (hkey : IsTag path → encrypt (dirOf path) ≠ encrypt key)
    (now : Nat) (t : KeyList δ) :
    rowsOf encrypt key (execAll encrypt collate t ((dirStmts path true).map fun s => (now, s))) =
      rowsOf encrypt key t := by
  refine rowsOf_execAll_of_ne fun s hs => ?_
  obtain ⟨s', hs', rfl⟩ := List.mem_map.mp hs
  obtain ⟨htag, rfl | rfl⟩ := mem_dirStmts hs'
  · exact hkey htag
  · exact hkey htag

/-- One row is left, whatever there was. -/
theorem rowsOf_deliver_content (hdir : IsTag path → encrypt (dirOf path) ≠ encrypt path)
    (hpart : d.part = putContent content) (hacc : d.Accepted path) (t : KeyList δ) :
    ∃ v : MetaInfoValue, (v.index = 0 ∧ v.start = 0 ∧ v.stop.toNat = content.length ∧
        v.isLast = true ∧ v.fileId = d.fileId ∧ v.groupId = d.groupId) ∧
      rowsOf encrypt path (deliver encrypt collate path t d) =
        [contentRow encrypt path v d.now] := by
  obtain ⟨v, hv, hdeliver⟩ := deliver_content encrypt collate hpart hacc
  refine ⟨v, hv, ?_⟩
  rw [hdeliver, execAll_cons, execAll_append, execAll_cons, execAll_nil, rowsOf_pushList_self,
    rowsOf_dirStmts hdir, rowsOf_delList_self]
  rfl

/-- A tag is listed once. -/
theorem listed_deliver_content (htag : IsTag path) (hdir : encrypt (dirOf path) ≠ encrypt path)
    (hpart : d.part = putContent content) (hacc : d.Accepted path) (t : KeyList δ) :
    listed encrypt path (deliver encrypt collate path t d) = 1 := by
  obtain ⟨v, -, hdeliver⟩ := deliver_content encrypt collate hpart hacc
  have hdirs : (dirStmts path true).map (fun s => (d.now, s)) =
      [(d.now, .delListOne (dirOf path) (fileOf path)),
        (d.now, .pushList (dirOf path) (fileOf path))] := by
    unfold dirStmts
    rw [if_pos rfl, handleDirectory_of_isTag htag, handleDirectory_of_isTag htag]
    rfl
  unfold listed
  rw [hdeliver, hdirs, execAll_cons, execAll_append, execAll_cons, execAll_cons, execAll_nil,
    execAll_cons, execAll_nil, rowsOf_pushList_of_ne _ hdir.symm, rowsOf_pushList_self,
    rowsOf_delListOne_self, List.map_append, List.count_append]
  have hnone : fileOf path ∉ ((rowsOf encrypt (dirOf path)
      ((Stmt.delList path).exec encrypt collate d.now t)).filter
        fun r => r.listValue.collated collate ≠ (fileOf path).collated collate).map
          Row.listValue := by
    intro hmem
    obtain ⟨r, hr, he⟩ := List.mem_map.mp hmem
    exact of_decide_eq_true (List.mem_filter.mp hr).2 (congrArg _ he)
  rw [List.count_eq_zero.mpr hnone, List.map_singleton, List.count_singleton_self]

/-- The rows of other keys stay. -/
theorem rowsOf_deliver_other {key : Key} (hpath : encrypt key ≠ encrypt path)
    (hdir : IsTag path → encrypt key ≠ encrypt (dirOf path))
    (hpart : d.part = putContent content) (hacc : d.Accepted path) (t : KeyList δ) :
    rowsOf encrypt key (deliver encrypt collate path t d) = rowsOf encrypt key t := by
  obtain ⟨v, -, hdeliver⟩ := deliver_content encrypt collate hpart hacc
  rw [hdeliver, execAll_cons, execAll_append, execAll_cons, execAll_nil,
    rowsOf_pushList_of_ne _ hpath.symm, rowsOf_dirStmts fun htag => (hdir htag).symm,
    rowsOf_delList_of_ne _ hpath.symm]

theorem deliverAll_append (ds : List Delivery) (d : Delivery) (t : KeyList δ) :
    deliverAll encrypt collate path t (ds ++ [d]) =
      deliver encrypt collate path (deliverAll encrypt collate path t ds) d :=
  List.foldl_append ..

theorem rowsOf_deliverAll_other {key : Key} (hpath : encrypt key ≠ encrypt path)
    (hdir : IsTag path → encrypt key ≠ encrypt (dirOf path))
    (hds : ∀ d ∈ ds, d.part = putContent content ∧ d.Accepted path) (t : KeyList δ) :
    rowsOf encrypt key (deliverAll encrypt collate path t ds) = rowsOf encrypt key t := by
  induction ds generalizing t with
  | nil => rfl
  | cons d ds ih =>
    obtain ⟨⟨hpart, hacc⟩, hds⟩ := List.forall_mem_cons.mp hds
    have hnext := ih hds (deliver encrypt collate path t d)
    rw [rowsOf_deliver_other hpath hdir hpart hacc] at hnext
    exact hnext

/-- After a `put_content` that took effect at least once, whatever the path had before: it has
one row, a tag is listed once, the rows of other keys are what they were, and `get_content`
returns the content. -/
theorem put_content_then_get_content
    (hdir : IsTag path → encrypt (dirOf path) ≠ encrypt path) (hcontent : content ≠ [])
    (hne : ds ≠ []) (hds : ∀ d ∈ ds, d.part = putContent content ∧ d.Accepted path)
    (hids : ∀ d ∈ ds, d.fileId ≠ 0 ∧ d.groupId ≠ 0 ∧ d.fileId.toNat < 2 ^ 53)
    {getData : UInt16 → UInt64 → Option Bytes}
    (hdata : ∀ d ∈ ds, getData d.groupId d.fileId = some content) (t : KeyList δ) :
    (rowsOf encrypt path (deliverAll encrypt collate path t ds)).length = 1 ∧
    (IsTag path → listed encrypt path (deliverAll encrypt collate path t ds) = 1) ∧
    (∀ key, encrypt key ≠ encrypt path → (IsTag path → encrypt key ≠ encrypt (dirOf path)) →
      rowsOf encrypt key (deliverAll encrypt collate path t ds) = rowsOf encrypt key t) ∧
    ∀ info download, GetList encrypt path (deliverAll encrypt collate path t ds) info →
      GetList encrypt path (deliverAll encrypt collate path t ds) download →
      getContent (getFileInfo info) (downloadResponse getData download) = .ok content := by
  obtain ⟨init, d, rfl⟩ : ∃ init d, ds = init ++ [d] := by
    rcases List.eq_nil_or_concat ds with h | h
    · exact absurd h hne
    · simpa only [List.concat_eq_append] using h
  have hd : d ∈ init ++ [d] := List.mem_append_right _ List.mem_cons_self
  obtain ⟨hpart, hacc⟩ := hds d hd
  obtain ⟨hf, hg, hlt⟩ := hids d hd
  obtain ⟨v, hv, hrows⟩ :=
    rowsOf_deliver_content hdir hpart hacc (deliverAll encrypt collate path t init)
  rw [deliverAll_append]
  refine ⟨?_, ?_, ?_, ?_⟩
  · rw [hrows]
    rfl
  · intro htag
    exact listed_deliver_content htag (hdir htag) hpart hacc _
  · intro key hpath hkey
    rw [← deliverAll_append]
    exact rowsOf_deliverAll_other hpath hkey hds t
  · intro info download hinfo hdownload
    have hone := hinfo.1
    have htwo := hdownload.1
    rw [hrows] at hone htwo
    rw [List.perm_singleton.mp hone, List.perm_singleton.mp htwo]
    exact getContent_of_row hv hcontent hf hg hlt (hdata d hd)

end Content

/-- A tag that was uploaded in two fragments. -/
def taggedTable : KeyList Key := deliverAll id id tagPath []
  [⟨⟨1, 1, 2, true, [2]⟩, 8, 1, 5⟩, ⟨⟨0, 0, 1, false, [1]⟩, 7, 1, 5⟩]

/-- The `POST` of a whole file takes effect twice. -/
def twice : List Delivery := [⟨putContent [9], 10, 1, 6⟩, ⟨putContent [9], 11, 1, 6⟩]

def storedNine (_groupId : UInt16) (_fileId : UInt64) : Option Bytes := some [9]

theorem put_content_then_get_content_tag :
    ((rowsOf id tagPath taggedTable).length = 2 ∧ listed id tagPath taggedTable = 2) ∧
    listed id tagPath (deliverAll id id tagPath taggedTable twice) = 1 ∧
    ∃ info, GetList id tagPath (deliverAll id id tagPath taggedTable twice) info ∧
      getContent (getFileInfo info) (downloadResponse storedNine info) = .ok [9] := by
  have htag : IsTag tagPath := by
    unfold IsTag
    decide +kernel
  have hdir : IsTag tagPath → id (dirOf tagPath) ≠ id tagPath := fun h => h.directory_ne
  have hds : ∀ d ∈ twice, d.part = putContent [9] ∧ d.Accepted tagPath :=
    List.forall_mem_cons.mpr ⟨⟨rfl, _, rfl⟩, List.forall_mem_singleton.mpr ⟨rfl, _, rfl⟩⟩
  have hdata : ∀ d ∈ twice, storedNine d.groupId d.fileId = some [9] := fun _ _ => rfl
  obtain ⟨-, hlisted, -, hget⟩ :=
    put_content_then_get_content hdir (by decide) (by decide) hds (by decide) hdata taggedTable
  have hanswer : GetList id tagPath (deliverAll id id tagPath taggedTable twice)
      (rowsOf id tagPath (deliverAll id id tagPath taggedTable twice)) :=
    ⟨.refl _, by decide +kernel⟩
  exact ⟨by decide +kernel, hlisted htag, _, hanswer, hget _ _ hanswer hanswer⟩

end Speedy.Cluster
