import Mathlib.Data.List.Basic
import Mathlib.Tactic.Common
import Speedy.Driver.Multipart
import Speedy.Lib.Blocks
import Speedy.Lib.Run

/-! # The registry driver: reading a stream

A greenlet, `_downloader`, fetches the fragments of a file one by one into temporary files and
raises the watermark `_max_completed_byte` after each. `read` moves a cursor over the whole
file, the number of a fragment and the position in its temporary file, and waits while the
cursor is at the watermark. It steps over to the next fragment only in the call after the one
that read a fragment to its end. -/
namespace Speedy.Driver
open Speedy.Lib Speedy.Imageserver

/-- `_TempFile`; `close` removes the file, too. -/
structure TempFile where
  data : Bytes
  pos : Nat
  closed : Bool
  deriving DecidableEq, Repr

/-- `read` with a negative size reads to the end. -/
def TempFile.read (f : TempFile) (sz : Int) : Bytes :=
  if sz < 0 then f.data.drop f.pos else (f.data.drop f.pos).take sz.toNat

/-- How the reads end: with an empty result, or with an exception -/
inductive ReadEnd where
  | eof
  /-- The error flag is on. -/
  | downloadFailed
  /-- An empty read on the buffer -/
  | interrupted
  /-- `_completed` has no entry for the fragment yet. -/
  | notCompleted
  | indexError
  /-- The fragment has no temporary file. -/
  | noFile
  | closedFile
  deriving DecidableEq, Repr

/-- Where `_downloader` is in its loop: before a download, with a temporary file that
`_refresh_max_completed_byte` is to account for, or before it looks at the clock -/
inductive DownloaderPhase where
  | downloading
  | refreshing (f : FragmentInfo)
  | checking
  deriving DecidableEq, Repr

/-- Whether a call of `read` is in progress, and is waiting or past that -/
inductive ReaderPhase where
  | idle
  | waiting (size : Nat)
  | reading (size : Nat)
  deriving DecidableEq, Repr

/-- `_SpeedyMultiPartDownloadContext`, its downloader and its reader. All temporary files that
were ever made are in `files`; `fragmentTempfiles` refers to them. -/
structure StreamReader where
  fsize : Nat
  todo : List FragmentInfo
  downloader : DownloaderPhase
  files : List TempFile
  fragmentTempfiles : List (Option Nat)
  completed : List (Option (Nat × Nat))
  maxCompletedIndex : Nat
  maxCompletedByte : Nat
  error : Bool
  curReadFragment : Nat
  cursor : Nat
  reader : ReaderPhase
  results : List Bytes
  ended : Option ReadEnd
  deriving DecidableEq, Repr

/-- The steps of the downloader, with the content of a response of status 200 and whether
there was no read for too long, and those of the reader -/
inductive ReaderEvent where
  | download (response : Option Bytes)
  | publish
  | clock (expired : Bool)
  | read (size : Nat)
  | wake
  | fetch
  deriving DecidableEq, Repr

/-- `close`; removing the file fails the second time. -/
def closeFile (files : List TempFile) (i : Nat) : Option (List TempFile) :=
  match files[i]? with
  | none => none
  | some f => if f.closed then none else some (files.set i { f with closed := true })

/-- The files that are left by `clear`, and whether it got to the end -/
def clear : List TempFile → List (Option Nat) → List TempFile × Bool
  | files, [] => (files, true)
  | files, none :: tempfiles => clear files tempfiles
  | files, some i :: tempfiles =>
    match closeFile files i with
    | none => (files, false)
    | some files' => clear files' tempfiles

namespace StreamReader

/-- `_spawn_downloader`, with what `getfileinfo` returned -/
def start (fsize : Nat) (fragments : List FragmentInfo) : StreamReader where
  fsize := fsize
  todo := fragments
  downloader := .downloading
  files := []
  fragmentTempfiles := List.replicate fragments.length none
  completed := List.replicate fragments.length none
  maxCompletedIndex := 0
  maxCompletedByte := 0
  error := false
  curReadFragment := 0
  cursor := 0
  reader := .idle
  results := []
  ended := none

/-! ## The downloader -/

/-- The downloader gives up. -/
def setError (s : StreamReader) : StreamReader :=
  { s with error := true, todo := [], downloader := .downloading }

def download (s : StreamReader) (f : FragmentInfo) (rest : List FragmentInfo) :
    Option Bytes → StreamReader
  | none => s.setError
  | some content =>
    -- the file is made before its place in the list is looked up
    let files := s.files ++ [⟨content, 0, false⟩]
    if f.index < s.fragmentTempfiles.length then
      { s with
        todo := rest
        downloader := .refreshing f
        files := files
        fragmentTempfiles := s.fragmentTempfiles.set f.index (some s.files.length) }
    else { s with files := files }.setError

def refreshMaxCompletedByte (s : StreamReader) (f : FragmentInfo) : StreamReader :=
  { s with
    downloader := .checking
    completed := s.completed.set f.index (some (f.index, f.stop))
    maxCompletedIndex := f.index
    maxCompletedByte := f.stop }

def checkReadTime (s : StreamReader) (expired : Bool) : StreamReader :=
  if expired then { s with files := (clear s.files s.fragmentTempfiles).1 }.setError
  else { s with downloader := .downloading }

/-! ## The reader -/

def finish (s : StreamReader) (e : ReadEnd) : StreamReader :=
  { s with reader := .idle, ended := some e }

/-- `clear`, and then the end that was to come -/
def clearAndFinish (s : StreamReader) (e : ReadEnd) : StreamReader :=
  let cleared := clear s.files s.fragmentTempfiles
  { s with files := cleared.1 }.finish (if cleared.2 then e else .closedFile)

/-- Behind the wait: the error flag is looked at. -/
def proceed (s : StreamReader) (size : Nat) : StreamReader :=
  if s.error then s.clearAndFinish .downloadFailed else { s with reader := .reading size }

def read (s : StreamReader) (size : Nat) : StreamReader :=
  if s.cursor ≥ s.fsize then s.clearAndFinish .eof
  else if s.cursor + size > s.maxCompletedByte then { s with reader := .waiting size }
  else s.proceed size

def wake (s : StreamReader) (size : Nat) : StreamReader :=
  if s.cursor ≥ s.maxCompletedByte ∧ s.error = false then s else s.proceed size

def tempfile (s : StreamReader) (i : Nat) : Except ReadEnd Nat :=
  match s.fragmentTempfiles[i]? with
  | none => .error .indexError
  | some none => .error .noFile
  | some (some h) => .ok h

/-- The current fragment was read to its end. -/
def nextFragment (s : StreamReader) : Except ReadEnd StreamReader := do
  let h ← s.tempfile s.curReadFragment
  match closeFile s.files h with
  | none => .error .closedFile
  | some files => .ok { s with
      files := files
      fragmentTempfiles := s.fragmentTempfiles.set s.curReadFragment none
      curReadFragment := s.curReadFragment + 1 }

def readCurrent (s : StreamReader) (sz : Int) : Except ReadEnd StreamReader := do
  let h ← s.tempfile s.curReadFragment
  match s.files[h]? with
  | none => .error .noFile
  | some f =>
    if f.closed then .error .closedFile
    else
      let buf := f.read sz
      if buf = [] then .error .interrupted
      else .ok { s with
        files := s.files.set h { f with pos := f.pos + buf.length }
        cursor := s.cursor + buf.length
        reader := .idle
        results := s.results ++ [buf] }

/-- The rest of `read`, once there is something to be read -/
def fetch (s : StreamReader) (size : Nat) : Except ReadEnd StreamReader :=
  match s.completed[s.curReadFragment]? with
  | none => .error .indexError
  | some none => .error .notCompleted
  | some (some (_, stop)) =>
    let left : Int := stop - s.cursor
    if left = 0 then do
      let s' ← s.nextFragment
      s'.readCurrent size
    else s.readCurrent (if left ≤ size then left else size)

/-! ## All steps -/

def step (s : StreamReader) : ReaderEvent → Option StreamReader
  | .download response =>
    match s.downloader, s.todo with
    | .downloading, f :: rest => some (s.download f rest response)
    | _, _ => none
  | .publish =>
    match s.downloader with
    | .refreshing f => some (s.refreshMaxCompletedByte f)
    | _ => none
  | .clock expired =>
    match s.downloader with
    | .checking => some (s.checkReadTime expired)
    | _ => none
  | .read size =>
    match s.reader, s.ended with
    | .idle, none => some (s.read size)
    | _, _ => none
  | .wake =>
    match s.reader with
    | .waiting size => some (s.wake size)
    | _ => none
  | .fetch =>
    match s.reader with
    | .reading size =>
      match s.fetch size with
      | .error e => some (s.finish e)
      | .ok s' => some s'
    | _ => none

end StreamReader

/-- No failure and no timeout: a download returns the bytes of its fragment. -/
def ReaderEvent.Smooth (parts : List Part) (s : StreamReader) : ReaderEvent → Prop
  | .download response => ∀ f ∈ s.todo.head?, ∃ p ∈ parts, p.info = f ∧ response = some p.data
  | .clock expired => expired = false
  | .read size => 0 < size
  | .publish | .wake | .fetch => True

instance (parts : List Part) (s : StreamReader) : DecidablePred (ReaderEvent.Smooth parts s)
  | .download response => inferInstanceAs
      (Decidable (∀ f ∈ s.todo.head?, ∃ p ∈ parts, p.info = f ∧ response = some p.data))
  | .clock expired => inferInstanceAs (Decidable (expired = false))
  | .read size => inferInstanceAs (Decidable (0 < size))
  | .publish | .wake | .fetch => .isTrue trivial

/-- The states in which a file of `fsize` bytes is read without a failure -/
def Streams (parts : List Part) (fsize : Nat) : StreamReader → Prop :=
  Reach (· = StreamReader.start fsize (parts.map Part.info)) fun s (e : ReaderEvent) s' =>
    e.Smooth parts s ∧ s.step e = some s'

/-! ## The fragments of a file -/

def contents (parts : List Part) : List Bytes := parts.map Part.data

/-- Every fragment has its number for an index and ends where the next one begins, and none is
empty. -/
structure Layout (parts : List Part) (fsize : Nat) : Prop where
  place : ∀ (i : Nat) p, parts[i]? = some p →
    p.index = i ∧ p.stop = blockStart (contents parts) (i + 1)
  solid : ∀ b ∈ contents parts, b ≠ []
  size : fsize = (contents parts).flatten.length

section Layout
variable {parts : List Part} {fsize : Nat}

theorem checkLoop_place {i off total : Nat} (h : checkLoop i off (parts.map Part.info) = some total)
    (hdata : ∀ p ∈ parts, p.stop = p.start + p.data.length) :
    (∀ (j : Nat) p, parts[j]? = some p →
        p.index = i + j ∧ p.stop = off + blockStart (contents parts) (j + 1)) ∧
      total = off + (contents parts).flatten.length := by
  induction parts generalizing i off with
  | nil =>
    refine ⟨?_, (Option.some.inj h).symm⟩
    intro j p hp
    cases hp
  | cons q parts ih =>
    obtain ⟨hq, hrest⟩ := List.forall_mem_cons.mp hdata
    rw [List.map_cons] at h
    obtain ⟨hi, hoff, hloop⟩ := checkLoop_cons.mp h
    have hidx : q.index = i := hi
    have hstop : q.info.stop = off + q.data.length := hoff ▸ hq
    obtain ⟨hplace, htotal⟩ := ih hloop hrest
    have hcons : ∀ j, blockStart (contents (q :: parts)) (j + 1) =
        q.data.length + blockStart (contents parts) j := by
      intro j
      simp [blockStart, contents]
    refine ⟨?_, ?_⟩
    · intro j p hp
      rw [hcons]
      cases j with
      | zero =>
        cases hp
        exact ⟨hidx, hstop⟩
      | succ j =>
        obtain ⟨hp', hend⟩ := hplace j p hp
        exact ⟨by omega, by omega⟩
    · have hlen : (contents (q :: parts)).flatten.length =
          q.data.length + (contents parts).flatten.length := by
        simp [contents]
      omega

/-- The list of fragments that `_check_fragments` has looked through -/
theorem Layout.of_checkLoop (h : checkLoop 0 0 (parts.map Part.info) = some fsize)
    (hdata : ∀ p ∈ parts, p.data ≠ [] ∧ p.stop = p.start + p.data.length) :
    Layout parts fsize := by
  obtain ⟨hplace, hsize⟩ := checkLoop_place h fun p hp => (hdata p hp).2
  refine ⟨?_, ?_, by omega⟩
  · intro i p hp
    obtain ⟨hi, hstop⟩ := hplace i p hp
    exact ⟨by omega, by omega⟩
  · intro b hb
    obtain ⟨p, hp, rfl⟩ := List.mem_map.mp hb
    exact (hdata p hp).1

theorem Layout.getElem? (h : Layout parts fsize) {p : Part} (hp : p ∈ parts) :
    parts[p.index]? = some p := by
  obtain ⟨i, hi⟩ := List.mem_iff_getElem?.mp hp
  rw [(h.place i p hi).1]
  exact hi

theorem contents_getElem? {i : Nat} {p : Part} (h : parts[i]? = some p) :
    (contents parts)[i]? = some p.data := by
  rw [contents, List.getElem?_map, h]
  rfl

theorem contents_length (parts : List Part) : (contents parts).length = parts.length :=
  List.length_map _

end Layout

end Speedy.Driver
