import Mathlib.Algebra.GroupWithZero.Nat
import Mathlib.Data.List.Basic
import Mathlib.Tactic.Common

/-! # Bytes that arrive in pieces

What arrives on a stream connection arrives in pieces, and one read returns the next
piece or as much of it as there is room for. `BufReader` reads through a buffer: it
fetches one read's worth whenever its buffer is empty, and hands out of the buffer what
is asked for. Everything read that way comes in order, but behind what was handed out the
buffer may hold more, and that part can no longer be read from the connection. -/
namespace Speedy.Lib

section Pieces
variable {α : Type} {cap n : Nat} {pieces rest : List (List α)} {got : List α}

/-! ## The connection -/

/-- One read with room for `cap`, and the pieces left; `none` when there is nothing. -/
def readPiece (cap : Nat) : List (List α) → Option (List α × List (List α))
  | [] => none
  | piece :: rest =>
    if piece.length ≤ cap then some (piece, rest)
    else some (piece.take cap, piece.drop cap :: rest)

/-- A bound on the number of reads: each of them takes a piece, or elements. -/
def weight (pieces : List (List α)) : Nat := (pieces.map fun piece => piece.length + 1).sum

/-- No piece is empty. -/
def Solid (pieces : List (List α)) : Prop := ∀ piece ∈ pieces, piece ≠ []

/-- Some pieces end exactly behind `n` elements. -/
def Boundary (pieces : List (List α)) (n : Nat) : Prop :=
  ∃ k, (pieces.take k).flatten.length = n

theorem readPiece_fits {piece : List α} (h : piece.length ≤ cap) :
    readPiece cap (piece :: pieces) = some (piece, pieces) := if_pos h

theorem readPiece_cut {piece : List α} (h : ¬ piece.length ≤ cap) :
    readPiece cap (piece :: pieces) = some (piece.take cap, piece.drop cap :: pieces) := if_neg h

theorem readPiece_eq_none : readPiece cap pieces = none ↔ pieces = [] := by
  constructor
  · intro h
    cases pieces with
    | nil => rfl
    | cons piece pieces =>
      by_cases hfits : piece.length ≤ cap
      · rw [readPiece_fits hfits] at h
        cases h
      · rw [readPiece_cut hfits] at h
        cases h
  · rintro rfl
    rfl

theorem readPiece_flatten (h : readPiece cap pieces = some (got, rest)) :
    pieces.flatten = got ++ rest.flatten := by
  cases pieces with
  | nil => cases h
  | cons piece pieces =>
    by_cases hfits : piece.length ≤ cap
    · rw [readPiece_fits hfits] at h
      cases h
      rfl
    · rw [readPiece_cut hfits] at h
      cases h
      rw [List.flatten_cons, List.flatten_cons, ← List.append_assoc, List.take_append_drop]

theorem readPiece_weight (h : readPiece cap pieces = some (got, rest)) (hcap : 0 < cap) :
    weight rest + got.length ≤ weight pieces ∧ weight rest < weight pieces := by
  cases pieces with
  | nil => cases h
  | cons piece pieces =>
    by_cases hfits : piece.length ≤ cap
    · rw [readPiece_fits hfits] at h
      cases h
      simp only [weight, List.map_cons, List.sum_cons]
      omega
    · rw [readPiece_cut hfits] at h
      cases h
      simp only [weight, List.map_cons, List.sum_cons, List.length_take, List.length_drop]
      omega

theorem readPiece_solid (h : readPiece cap pieces = some (got, rest)) (hcap : 0 < cap)
    (hsolid : Solid pieces) : got ≠ [] ∧ Solid rest := by
  cases pieces with
  | nil => cases h
  | cons piece pieces =>
    have hpiece : piece ≠ [] := hsolid piece List.mem_cons_self
    have hrest : Solid pieces := fun p hp => hsolid p (List.mem_cons_of_mem _ hp)
    by_cases hfits : piece.length ≤ cap
    · rw [readPiece_fits hfits] at h
      cases h
      exact ⟨hpiece, hrest⟩
    · rw [readPiece_cut hfits] at h
      cases h
      refine ⟨List.ne_nil_of_length_pos ?_, ?_⟩
      · rw [List.length_take]
        exact Nat.lt_min.mpr ⟨hcap, List.length_pos_of_ne_nil hpiece⟩
      · intro p hp
        rcases List.mem_cons.mp hp with rfl | hp
        · exact List.ne_nil_of_length_pos (by rw [List.length_drop]; omega)
        · exact hrest p hp

theorem boundary_cons {piece : List α} (hn : 0 < n) :
    Boundary (piece :: pieces) n ↔ piece.length ≤ n ∧ Boundary pieces (n - piece.length) := by
  constructor
  · rintro ⟨k, hk⟩
    cases k with
    | zero =>
      rw [List.take_zero, List.flatten_nil, List.length_nil] at hk
      omega
    | succ k =>
      rw [List.take_succ_cons, List.flatten_cons, List.length_append] at hk
      exact ⟨by omega, k, by omega⟩
  · rintro ⟨hle, k, hk⟩
    refine ⟨k + 1, ?_⟩
    rw [List.take_succ_cons, List.flatten_cons, List.length_append, hk]
    omega

theorem boundary_zero (pieces : List (List α)) : Boundary pieces 0 := ⟨0, rfl⟩

/-! ## The buffered reader -/

/-- A reader with what its buffer holds unread and the pieces still to come. -/
structure BufReader (α : Type) where
  cap : Nat
  roomy : 0 < cap
  buf : List α
  pieces : List (List α)

namespace BufReader
variable {r r' : BufReader α}

def weight (r : BufReader α) : Nat := Lib.weight r.pieces + r.buf.length

/-- One read of at most `n`: from the buffer if it holds anything; else the buffer is
filled by one read first, unless it has less room than the reader. -/
def read (n : Nat) (r : BufReader α) : Option (List α × BufReader α) :=
  match r.buf with
  | [] =>
    if r.cap ≤ n then
      (readPiece n r.pieces).map fun (got, rest) => (got, { r with pieces := rest })
    else
      (readPiece r.cap r.pieces).map fun (got, rest) =>
        (got.take n, { r with buf := got.drop n, pieces := rest })
  | buf => some (buf.take n, { r with buf := buf.drop n })

theorem read_weight (h : r.read n = some (got, r')) (hn : 0 < n) : r'.weight < r.weight := by
  unfold read at h
  split at h
  · rename_i hbuf
    split at h
    · obtain ⟨⟨data, rest⟩, hread, heq⟩ := Option.map_eq_some_iff.mp h
      obtain ⟨-, hlt⟩ := readPiece_weight hread hn
      cases heq
      exact Nat.add_lt_add_right hlt _
    · obtain ⟨⟨data, rest⟩, hread, heq⟩ := Option.map_eq_some_iff.mp h
      obtain ⟨hle, hlt⟩ := readPiece_weight hread r.roomy
      cases heq
      simp only [weight, hbuf, List.length_drop, List.length_nil]
      omega
  · rename_i hbuf
    have hpos : 0 < r.buf.length := List.length_pos_of_ne_nil fun hnil => hbuf hnil
    cases h
    simp only [weight, List.length_drop]
    omega

/-- Reads until there are `n` elements; `none` when they end before. -/
def readFull (n : Nat) (r : BufReader α) : Option (List α × BufReader α) :=
  if _hn : n = 0 then some ([], r)
  else
    match _h : r.read n with
    | none => none
    | some (got, r') =>
      (readFull (n - got.length) r').map fun (more, r'') => (got ++ more, r'')
termination_by r.weight
decreasing_by exact read_weight _h (Nat.pos_of_ne_zero _hn)

theorem readFull_zero (r : BufReader α) : r.readFull 0 = some ([], r) := by
  rw [readFull, dif_pos rfl]

theorem readFull_of_read (hn : 0 < n) (h : r.read n = some (got, r')) :
    r.readFull n =
      (r'.readFull (n - got.length)).map fun (more, r'') => (got ++ more, r'') := by
  rw [readFull, dif_neg (Nat.pos_iff_ne_zero.mp hn)]
  split
  · rename_i hnone
    rw [hnone] at h
    cases h
  · rename_i hsome
    rw [hsome] at h
    cases h
    rfl

/-- What is still to be read. -/
def unread (r : BufReader α) : List α := r.buf ++ r.pieces.flatten

theorem read_eq_none (h : r.read n = none) : r.unread = [] := by
  unfold read at h
  split at h
  · rename_i hbuf
    have hnil : r.pieces = [] := by
      split at h
      · exact readPiece_eq_none.mp (Option.map_eq_none_iff.mp h)
      · exact readPiece_eq_none.mp (Option.map_eq_none_iff.mp h)
    rw [unread, hbuf, hnil]
    rfl
  · cases h

theorem readPiece_length (h : readPiece cap pieces = some (got, rest)) : got.length ≤ cap := by
  cases pieces with
  | nil => cases h
  | cons piece pieces =>
    by_cases hfits : piece.length ≤ cap
    · rw [readPiece_fits hfits] at h
      cases h
      exact hfits
    · rw [readPiece_cut hfits] at h
      cases h
      exact List.length_take_le ..

/-- A read hands out the front of what is still to be read. -/
theorem read_spec (h : r.read n = some (got, r')) :
    r.unread = got ++ r'.unread ∧ got.length ≤ n := by
  unfold read at h
  split at h
  · rename_i hbuf
    split at h
    · obtain ⟨⟨data, rest⟩, hread, heq⟩ := Option.map_eq_some_iff.mp h
      cases heq
      refine ⟨?_, readPiece_length hread⟩
      rw [unread, unread, hbuf, readPiece_flatten hread]
      rfl
    · obtain ⟨⟨data, rest⟩, hread, heq⟩ := Option.map_eq_some_iff.mp h
      cases heq
      refine ⟨?_, List.length_take_le ..⟩
      rw [unread, unread, hbuf, readPiece_flatten hread, List.nil_append]
      show _ = data.take n ++ (data.drop n ++ rest.flatten)
      rw [← List.append_assoc, List.take_append_drop]
  · cases h
    refine ⟨?_, List.length_take_le ..⟩
    show _ = r.buf.take n ++ (r.buf.drop n ++ r.pieces.flatten)
    rw [← List.append_assoc, List.take_append_drop, unread]

/-- `readFull` hands out the next `n` elements, however they arrive. -/
theorem readFull_take (hlen : n ≤ r.unread.length) :
    ∃ r', r.readFull n = some (r.unread.take n, r') ∧ r'.unread = r.unread.drop n := by
  generalize hw : r.weight = w
  induction w using Nat.strongRecOn generalizing r n with
  | ind w ih =>
    rcases Nat.eq_zero_or_pos n with rfl | hpos
    · exact ⟨r, readFull_zero r, rfl⟩
    cases hread : r.read n with
    | none =>
      rw [read_eq_none hread] at hlen
      exact absurd hpos (Nat.not_lt_of_le hlen)
    | some x =>
      obtain ⟨got, r'⟩ := x
      obtain ⟨hfront, hgot⟩ := read_spec hread
      rw [hfront, List.length_append] at hlen
      obtain ⟨r'', hmore, hrest⟩ :=
        ih r'.weight (hw ▸ read_weight hread hpos) (n := n - got.length) (by omega) rfl
      refine ⟨r'', ?_, ?_⟩
      · rw [readFull_of_read hpos hread, hmore, hfront, List.take_append,
          List.take_of_length_le hgot]
        rfl
      · rw [hrest, hfront, List.drop_append, List.drop_of_length_le hgot]
        rfl

/-- A read that finds the buffer empty and leaves room in it. -/
theorem read_empty (hbuf : r.buf = []) (hn : n < r.cap) (h : readPiece r.cap r.pieces =
    some (got, rest)) :
    r.read n = some (got.take n, { r with buf := got.drop n, pieces := rest }) := by
  unfold read
  rw [hbuf]
  simp only [if_neg (Nat.not_le_of_lt hn), h, Option.map_some]

/-- A piece that is longer than what is asked for is so as well when it is cut. -/
theorem readPiece_longer {piece got : List α} {pieces rest : List (List α)}
    (hgot : readPiece cap (piece :: pieces) = some (got, rest)) (hn : n < cap)
    (hlong : n < piece.length) : n < got.length := by
  by_cases hfits : piece.length ≤ cap
  · rw [readPiece_fits hfits] at hgot
    cases hgot
    exact hlong
  · rw [readPiece_cut hfits] at hgot
    cases hgot
    rw [List.length_take]
    omega

/-- With an empty buffer and fewer elements to read than the buffer has room for: they
come in order, and the buffer is empty again exactly when they end with a piece. -/
theorem readFull_spec (pieces : List (List α)) (hcap : 0 < cap) (hsolid : Solid pieces)
    (hn : n < cap) (hlen : n ≤ pieces.flatten.length) :
    ∃ got r', readFull n ⟨cap, hcap, [], pieces⟩ = some (got, r') ∧ got.length = n ∧
      pieces.flatten = got ++ (r'.buf ++ r'.pieces.flatten) ∧ Solid r'.pieces ∧
      (r'.buf = [] ↔ Boundary pieces n) := by
  induction pieces generalizing n with
  | nil =>
    obtain rfl : n = 0 := Nat.le_zero.mp hlen
    exact ⟨_, _, readFull_zero _, rfl, rfl, hsolid, iff_of_true rfl (boundary_zero _)⟩
  | cons piece pieces ih =>
    have hrest : Solid pieces := fun p hp => hsolid p (List.mem_cons_of_mem _ hp)
    rcases Nat.eq_zero_or_pos n with rfl | hpos
    · exact ⟨_, _, readFull_zero _, rfl, rfl, hsolid, iff_of_true rfl (boundary_zero _)⟩
    by_cases hle : piece.length ≤ n
    · -- the whole piece is handed out, and the buffer is empty again
      have hfits : readPiece cap (piece :: pieces) = some (piece, pieces) :=
        readPiece_fits (by omega)
      have hread : read n ⟨cap, hcap, [], piece :: pieces⟩ =
          some (piece, ⟨cap, hcap, [], pieces⟩) := by
        rw [read_empty rfl hn hfits, List.take_of_length_le hle, List.drop_of_length_le hle]
      rw [List.flatten_cons, List.length_append] at hlen
      obtain ⟨more, r', hmore, hmlen, hflat, hsolid', hiff⟩ :=
        ih hrest (show n - piece.length < cap by omega) (by omega)
      refine ⟨piece ++ more, r', ?_, ?_, ?_, hsolid', ?_⟩
      · rw [readFull_of_read hpos hread, hmore]
        rfl
      · rw [List.length_append, hmlen]
        omega
      · rw [List.flatten_cons, hflat, List.append_assoc]
      · rw [hiff, boundary_cons hpos]
        exact ⟨fun h => ⟨hle, h⟩, fun h => h.2⟩
    · -- the piece, or as much of it as the buffer has room for, reaches further
      obtain ⟨⟨got, rest⟩, hgot⟩ := Option.ne_none_iff_exists'.mp
        fun h => List.cons_ne_nil piece pieces (readPiece_eq_none.mp h)
      have hlong : n < got.length := readPiece_longer hgot hn (Nat.lt_of_not_le hle)
      have htake : (got.take n).length = n := by
        rw [List.length_take]
        omega
      obtain ⟨-, hsolid'⟩ := readPiece_solid hgot hcap hsolid
      refine ⟨got.take n, ⟨cap, hcap, got.drop n, rest⟩, ?_, htake, ?_, hsolid', ?_⟩
      · rw [readFull_of_read hpos (read_empty rfl hn hgot), htake, Nat.sub_self, readFull_zero]
        simp only [Option.map_some, List.append_nil]
      · rw [readPiece_flatten hgot, ← List.append_assoc, List.take_append_drop]
      · refine iff_of_false ?_ ?_
        · intro hnil
          have hzero := congrArg List.length hnil
          rw [List.length_drop, List.length_nil] at hzero
          omega
        · rw [boundary_cons hpos]
          exact fun h => hle h.1

end BufReader
end Pieces
end Speedy.Lib
