import Speedy.Driver.Multipart

/-! # The load tool

`preprocessFile` reads a file and counts its parts, and `postFileTestSpeedy` posts them. The
last part of the loop is posted behind it, and when something is left over it is that part
which is cut: the file is uploaded if its size is a multiple of the part size. A file of less
than one part is posted, but then the tool goes on and slices at a negative offset. -/
namespace Speedy.Speedytool
open Speedy.Lib Speedy.Driver

/-- The arguments of `postFile`. -/
structure Post where
  path : String
  data : Bytes
  index : Int
  start : Int
  stop : Int
  isLast : Bool
  deriving DecidableEq, Repr

/-- `s[low:high]`; `none` is a panic. -/
def slice (s : Bytes) (low high : Int) : Option Bytes :=
  if 0 ≤ low ∧ low ≤ high ∧ high ≤ s.length then some ((s.take high.toNat).drop low.toNat) else none

/-- What opening a file and reading it comes to. -/
inductive FileOutcome where
  | openFails
  | statFails
  | readFails
  | read (nread : Nat)
  deriving DecidableEq, Repr

inductive PreprocessError where
  | openFile
  | stat
  | read
  deriving DecidableEq, Repr

/-- The body of the file, its size, and how many parts there are and what is left over. -/
def preprocessFile (content : Bytes) (partSize : Nat) :
    FileOutcome → Except PreprocessError (Bytes × Nat × Nat × Nat)
  | .openFails => .error .openFile
  | .statFails => .error .stat
  | .readFails => .error .read
  | .read nread =>
    let fileSize := content.length
    if nread ≠ fileSize then .error .read
    else .ok (content, fileSize, fileSize / partSize, fileSize % partSize)

/-- The calls of `postFile` made when `postFileTestSpeedy` ends early, and whether it is a
panic that ends it. -/
structure PostStop where
  posts : List Post
  panicked : Bool
  deriving DecidableEq, Repr

def pathPrefixDir : String := "loadtest/abc/tag_"

section Post
variable (ok : Post → Bool) (path : String) (fileBody : Bytes)

/-- A call of `postFile` with a slice of the body; `ok` says which calls succeed. -/
def postSlice (k start stop : Int) (isLast : Bool) (posts : List Post) :
    Except PostStop (List Post) :=
  match slice fileBody start stop with
  | none => .error ⟨posts, true⟩
  | some data =>
    let post : Post := ⟨path, data, k, start, stop, isLast⟩
    if ok post then .ok (posts ++ [post]) else .error ⟨posts ++ [post], false⟩

/-- The loop. -/
def postParts (partSize : Int) (ks : List Nat) (posts : List Post) :
    Except PostStop (List Post) :=
  ks.foldlM (fun posts (k : Nat) =>
    postSlice ok path fileBody (k : Int) ((k : Int) * partSize) (((k : Int) + 1) * partSize) false
      posts) posts

def postAll (partCount partialSize partSize : Int) : Except PostStop (List Post) := do
  let posts ←
    if partCount = 0 ∧ partialSize ≠ 0 then postSlice ok path fileBody 0 0 partialSize true []
    else pure []
  let posts ← postParts ok path fileBody partSize (List.range (partCount - 1).toNat) posts
  let k := partCount - 1
  let start := k * partSize
  let stop := if partialSize ≠ 0 then start + partialSize else (k + 1) * partSize
  postSlice ok path fileBody k start stop true posts

end Post

/-- How a call of `postFileTestSpeedy` has ended. -/
structure PostRun where
  posts : List Post
  panicked : Bool
  result : List Nat
  deriving DecidableEq, Repr

def postFileTestSpeedy (ok : Post → Bool) (index : Nat) (fileBody : Bytes)
    (partCount partialSize partSize : Int) (result : List Nat) : PostRun :=
  if partCount = 0 ∧ partialSize = 0 then ⟨[], false, result⟩
  else
    match postAll ok (pathPrefixDir ++ toString index) fileBody partCount partialSize partSize with
    | .error stop => ⟨stop.posts, stop.panicked, result⟩
    | .ok posts => ⟨posts, false, result.set index 1⟩

/-- One of the goroutines of a test, on the file that was read before. -/
def testSpeedy (ok : Post → Bool) {numGoroutine : Nat} (index : Fin numGoroutine)
    (content : Bytes) (partSize : Nat) (outcome : FileOutcome) : PostRun :=
  let result := List.replicate numGoroutine 0
  match preprocessFile content partSize outcome with
  | .error _ => ⟨[], false, result⟩
  | .ok (fileBody, _, partCount, partialSize) =>
    postFileTestSpeedy ok index fileBody partCount partialSize partSize result

/-! ## What should be posted -/

def Post.info (p : Post) : FragmentInfo := ⟨p.index.toNat, p.start.toNat, p.stop.toNat, p.isLast⟩

/-- The posts are the fragments of the file: no number is negative, the ranges follow each
other from 0 to the end, only the last one is marked, and each has its slice. -/
structure PostsFile (content : Bytes) (posts : List Post) : Prop where
  natural : ∀ p ∈ posts, 0 ≤ p.index ∧ 0 ≤ p.start ∧ 0 ≤ p.stop
  tiles : Tiles content.length 0 0 (posts.map Post.info)
  data : ∀ p ∈ posts, slice content p.start p.stop = some p.data

structure Uploaded (content : Bytes) (index : Nat) (run : PostRun) : Prop where
  posts : PostsFile content run.posts
  panicked : run.panicked = false
  result : run.result[index]? = some 1

/-! ## What is posted -/

section Slices
variable {path : String} {content : Bytes}

theorem slice_of_le {low high : Nat} (h : low ≤ high) (hh : high ≤ content.length) :
    slice content low high = some ((content.take high).drop low) := by
  rw [slice, if_pos (by omega)]
  rfl

/-- The post of a slice. -/
def partOf (path : String) (content : Bytes) (k start stop : Nat) (isLast : Bool) : Post :=
  ⟨path, (content.take stop).drop start, k, start, stop, isLast⟩

theorem postSlice_of_le (path : String) {start stop : Nat} (k : Nat) (isLast : Bool)
    (posts : List Post) (h : start ≤ stop) (hh : stop ≤ content.length) :
    postSlice (fun _ => true) path content k start stop isLast posts =
      .ok (posts ++ [partOf path content k start stop isLast]) := by
  rw [postSlice, slice_of_le h hh]
  rfl

/-- A part of the loop. -/
def fullPart (path : String) (content : Bytes) (partSize k : Nat) : Post :=
  partOf path content k (k * partSize) ((k + 1) * partSize) false

theorem postParts_eq (path : String) {partSize : Nat} (ks : List Nat) (posts : List Post)
    (h : ∀ k ∈ ks, (k + 1) * partSize ≤ content.length) :
    postParts (fun _ => true) path content partSize ks posts =
      .ok (posts ++ ks.map (fullPart path content partSize)) := by
  unfold postParts
  induction ks generalizing posts with
  | nil =>
    rw [List.map_nil, List.append_nil]
    rfl
  | cons k ks ih =>
    obtain ⟨hk, hks⟩ := List.forall_mem_cons.mp h
    have hle : k * partSize ≤ (k + 1) * partSize := Nat.mul_le_mul_right _ (Nat.le_succ k)
    have hpost := postSlice_of_le path k false posts hle hk
    push_cast at hpost
    rw [List.foldlM_cons, hpost]
    refine (ih _ hks).trans ?_
    rw [List.append_assoc, List.map_cons]
    rfl

/-- Where the last part ends: what is left over ends in it, not behind it. -/
def lastStop (partSize n rest : Nat) : Nat :=
  if rest ≠ 0 then n * partSize + rest else (n + 1) * partSize

/-- The posts of a file of more than `n` parts. -/
theorem postAll_eq {partSize n rest : Nat} (hrest : rest < partSize)
    (hsize : content.length = (n + 1) * partSize + rest) :
    postAll (fun _ => true) path content (n + 1 : Nat) rest partSize =
      .ok ((List.range n).map (fullPart path content partSize) ++
        [partOf path content n (n * partSize) (lastStop partSize n rest) true]) := by
  have hfull : ∀ k ∈ List.range n, (k + 1) * partSize ≤ content.length := by
    intro k hk
    have hle : (k + 1) * partSize ≤ (n + 1) * partSize :=
      Nat.mul_le_mul_right _ (by have := List.mem_range.mp hk; omega)
    omega
  have hstop : n * partSize ≤ lastStop partSize n rest ∧
      lastStop partSize n rest ≤ content.length := by
    have hmul : (n + 1) * partSize = n * partSize + partSize := Nat.succ_mul n partSize
    unfold lastStop
    split <;> omega
  have hcast : (lastStop partSize n rest : Int) =
      if (rest : Int) ≠ 0 then (n : Int) * partSize + rest else ((n : Int) + 1) * partSize := by
    unfold lastStop
    by_cases hz : rest = 0
    · simp [hz]
    · simp [hz]
  have hlast := postSlice_of_le path n true
    ((List.range n).map (fullPart path content partSize)) hstop.1 hstop.2
  rw [hcast] at hlast
  push_cast at hlast
  have hcount : ((n + 1 : Nat) : Int) - 1 = n := by omega
  have hne : ¬ (((n + 1 : Nat) : Int) = 0 ∧ (rest : Int) ≠ 0) := by omega
  unfold postAll
  rw [if_neg hne, hcount, Int.toNat_natCast]
  have hparts := postParts_eq path (List.range n) [] hfull
  rw [List.nil_append] at hparts
  simp only [pure_bind, hparts]
  exact hlast

/-- A file of less than one part is posted, and then its body is sliced before its begin. -/
theorem postAll_small {partSize rest : Nat} (hpos : 0 < partSize) (hrest : rest ≠ 0)
    (hsize : content.length = rest) :
    postAll (fun _ => true) path content (0 : Nat) rest partSize =
      .error ⟨[partOf path content 0 0 rest true], true⟩ := by
  have hfirst := postSlice_of_le path 0 true [] (Nat.zero_le rest) hsize.ge
  have hslice : ∀ high, slice content (-1 * (partSize : Int)) high = none := by
    intro high
    exact if_neg (by omega)
  have hif : ((0 : Nat) : Int) = 0 ∧ (rest : Int) ≠ 0 := ⟨rfl, by exact_mod_cast hrest⟩
  push_cast at hfirst
  unfold postAll
  rw [if_pos hif, hfirst]
  change postSlice (fun _ => true) path content (-1) (-1 * (partSize : Int)) _ true
    [partOf path content 0 0 rest true] = _
  rw [postSlice, hslice]

end Slices

section Tiles
variable {path : String} {content : Bytes}

/-- The parts, and a last one up to the end, are the fragments of a file. -/
theorem tiles_parts (path : String) (content : Bytes) {partSize : Nat} (hpos : 0 < partSize)
    (n i : Nat) :
    Tiles ((i + n + 1) * partSize) i (i * partSize)
      (((List.range' i n).map (fullPart path content partSize) ++
        [partOf path content (i + n) ((i + n) * partSize) ((i + n + 1) * partSize) true]).map
          Post.info) := by
  induction n generalizing i with
  | zero =>
    have hlt : i * partSize < (i + 1) * partSize :=
      Nat.mul_lt_mul_of_pos_right (Nat.lt_succ_self i) hpos
    exact ⟨rfl, rfl, hlt, rfl, rfl⟩
  | succ n ih =>
    have hnext := ih (i + 1)
    have hlt : i * partSize < (i + 1) * partSize :=
      Nat.mul_lt_mul_of_pos_right (Nat.lt_succ_self i) hpos
    have hi : i + 1 + n = i + (n + 1) := by omega
    rw [hi] at hnext
    rw [List.range'_succ, List.map_cons, List.cons_append, List.map_cons]
    exact hnext.cons rfl rfl hlt rfl

theorem Tiles.getLast_stop {total i off : Nat} {fs : List FragmentInfo}
    (h : Tiles total i off fs) : ∃ last, fs.getLast? = some last ∧ last.stop = total := by
  induction fs generalizing i off with
  | nil => exact h.elim
  | cons f fs ih =>
    cases fs with
    | nil => exact ⟨f, rfl, h.2.2.2.1⟩
    | cons g fs =>
      rw [List.getLast?_cons_cons]
      exact ih h.2.2.2.2

/-- A run is right if its last post ends at the end of the file. -/
theorem postsFile_iff {partSize n rest : Nat} (hrest : rest < partSize)
    (hsize : content.length = (n + 1) * partSize + rest) :
    PostsFile content ((List.range n).map (fullPart path content partSize) ++
      [partOf path content n (n * partSize) (lastStop partSize n rest) true]) ↔ rest = 0 := by
  have hmul : (n + 1) * partSize = n * partSize + partSize := Nat.succ_mul n partSize
  constructor
  · intro h
    obtain ⟨last, hlast, hstop⟩ := Tiles.getLast_stop h.tiles
    rw [List.map_append, List.map_singleton, List.getLast?_concat] at hlast
    cases hlast
    have hend : lastStop partSize n rest = content.length := hstop
    unfold lastStop at hend
    split at hend <;> omega
  · intro hz
    subst hz
    have hstop : lastStop partSize n 0 = (n + 1) * partSize := rfl
    rw [hstop]
    refine ⟨?_, ?_, ?_⟩
    · intro p hp
      rcases List.mem_append.mp hp with hp | hp
      · obtain ⟨k, -, rfl⟩ := List.mem_map.mp hp
        exact ⟨Int.natCast_nonneg _, Int.natCast_nonneg _, Int.natCast_nonneg _⟩
      · cases List.mem_singleton.mp hp
        exact ⟨Int.natCast_nonneg _, Int.natCast_nonneg _, Int.natCast_nonneg _⟩
    · have htiles := tiles_parts path content hrest n 0
      rw [Nat.zero_add, Nat.zero_mul, ← List.range_eq_range'] at htiles
      rwa [hsize, Nat.add_zero]
    · intro p hp
      rcases List.mem_append.mp hp with hp | hp
      · obtain ⟨k, hk, rfl⟩ := List.mem_map.mp hp
        have hle : (k + 1) * partSize ≤ (n + 1) * partSize :=
          Nat.mul_le_mul_right _ (by have := List.mem_range.mp hk; omega)
        have hk1 : (k + 1) * partSize = k * partSize + partSize := Nat.succ_mul k partSize
        exact slice_of_le (by omega) (by omega)
      · cases List.mem_singleton.mp hp
        exact slice_of_le (by omega) (by omega)

end Tiles

section Run
variable {numGoroutine : Nat} (index : Fin numGoroutine) {content : Bytes} {partSize : Nat}

theorem testSpeedy_read (ok : Post → Bool) :
    testSpeedy ok index content partSize (.read content.length) =
      postFileTestSpeedy ok index content (content.length / partSize : Nat)
        (content.length % partSize : Nat) partSize (List.replicate numGoroutine 0) := by
  unfold testSpeedy preprocessFile
  simp only [ne_eq, not_true_eq_false, if_false]

/-- A file that is not read, or not in one go, is not posted. -/
theorem testSpeedy_not_read (ok : Post → Bool) {outcome : FileOutcome}
    (h : outcome ≠ .read content.length) :
    testSpeedy ok index content partSize outcome =
      ⟨[], false, List.replicate numGoroutine 0⟩ := by
  cases outcome with
  | openFails => rfl
  | statFails => rfl
  | readFails => rfl
  | read nread =>
    have hne : nread ≠ content.length := fun he => h (by rw [he])
    unfold testSpeedy preprocessFile
    simp only [hne, ne_eq, not_false_eq_true, if_true]

theorem not_uploaded_nil {panicked : Bool} {result : List Nat} :
    ¬ Uploaded content index ⟨[], panicked, result⟩ :=
  fun h => h.posts.tiles

theorem postFileTestSpeedy_small {rest : Nat} (hpart : 0 < partSize) (hrest : rest ≠ 0)
    (hsize : content.length = rest) (result : List Nat) :
    (postFileTestSpeedy (fun _ => true) index content (0 : Nat) rest partSize result).panicked =
      true := by
  have hne : ¬ (((0 : Nat) : Int) = 0 ∧ (rest : Int) = 0) := by omega
  rw [postFileTestSpeedy, if_neg hne, postAll_small hpart hrest hsize]

theorem postFileTestSpeedy_parts {n rest : Nat} (hrest : rest < partSize)
    (hsize : content.length = (n + 1) * partSize + rest) (result : List Nat) :
    postFileTestSpeedy (fun _ => true) index content (n + 1 : Nat) rest partSize result =
      ⟨(List.range n).map (fullPart (pathPrefixDir ++ toString index.val) content partSize) ++
          [partOf (pathPrefixDir ++ toString index.val) content n (n * partSize)
            (lastStop partSize n rest) true],
        false, result.set index 1⟩ := by
  have hne : ¬ (((n + 1 : Nat) : Int) = 0 ∧ (rest : Int) = 0) := by omega
  rw [postFileTestSpeedy, if_neg hne, postAll_eq hrest hsize]

end Run

/-- With every post accepted, the tool uploads a file if it reads it in one go and its size
is a multiple of the part size. -/
theorem testSpeedy_uploads_iff {numGoroutine : Nat} (index : Fin numGoroutine) {content : Bytes}
    (hcontent : 1 ≤ content.length) {partSize : Nat} (hpart : 1 ≤ partSize)
    (outcome : FileOutcome) :
    Uploaded content index (testSpeedy (fun _ => true) index content partSize outcome) ↔
      outcome = .read content.length ∧ partSize ∣ content.length := by
  by_cases hread : outcome = .read content.length
  · have hrest : content.length % partSize < partSize := Nat.mod_lt _ hpart
    have hdiv : content.length = content.length / partSize * partSize +
        content.length % partSize := by
      rw [Nat.mul_comm]
      exact (Nat.div_add_mod ..).symm
    rw [hread, testSpeedy_read, Nat.dvd_iff_mod_eq_zero]
    simp only [true_and]
    generalize content.length / partSize = count at *
    generalize content.length % partSize = rest at *
    cases count with
    | zero =>
      have hsize : content.length = rest := by omega
      have hne : rest ≠ 0 := by omega
      refine iff_of_false ?_ hne
      intro h
      have hpanic := postFileTestSpeedy_small index hpart hne hsize
        (List.replicate numGoroutine 0)
      rw [h.panicked] at hpanic
      cases hpanic
    | succ n =>
      rw [postFileTestSpeedy_parts index hrest hdiv]
      constructor
      · intro h
        exact (postsFile_iff hrest hdiv).mp h.posts
      · intro hz
        refine ⟨(postsFile_iff hrest hdiv).mpr hz, rfl, ?_⟩
        exact List.getElem?_set_self (by rw [List.length_replicate]; exact index.isLt)
  · refine iff_of_false ?_ fun h => hread h.1
    rw [testSpeedy_not_read index _ hread]
    exact not_uploaded_nil index

theorem testSpeedy_uploads_four :
    1 ≤ [10, 11, 12, 13].length ∧ 1 ≤ 2 ∧
    Uploaded [10, 11, 12, 13] 0
      (testSpeedy (fun _ => true) (0 : Fin 1) [10, 11, 12, 13] 2 (.read 4)) := by
  have h1 : 1 ≤ ([10, 11, 12, 13] : Bytes).length := by decide
  have h2 : 1 ≤ 2 := by decide
  exact ⟨h1, h2, (testSpeedy_uploads_iff (0 : Fin 1) h1 h2 (.read 4)).mpr ⟨rfl, by decide⟩⟩

/-- Of three bytes in parts of two the first is posted as the whole file; one byte alone is
posted before the panic. -/
theorem testSpeedy_truncates :
    testSpeedy (fun _ => true) (0 : Fin 1) [10, 11, 12] 2 (.read 3) =
      ⟨[⟨"loadtest/abc/tag_0", [10], 0, 0, 1, true⟩], false, [1]⟩ ∧
    ¬ Uploaded [10, 11, 12] 0
      (testSpeedy (fun _ => true) (0 : Fin 1) [10, 11, 12] 2 (.read 3)) ∧
    (testSpeedy (fun _ => true) (0 : Fin 1) [10] 2 (.read 1)).panicked = true := by
  have hrun : testSpeedy (fun _ => true) (0 : Fin 1) [10, 11, 12] 2 (.read 3) =
      ⟨[⟨"loadtest/abc/tag_0", [10], 0, 0, 1, true⟩], false, [1]⟩ := by
    decide +kernel
  refine ⟨hrun, ?_, by decide +kernel⟩
  intro h
  have htiles := h.posts.tiles
  rw [hrun] at htiles
  obtain ⟨-, -, -, hstop, -⟩ := htiles
  cases hstop

end Speedy.Speedytool
