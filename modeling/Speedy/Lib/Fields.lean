import Mathlib.Algebra.GroupWithZero.Nat
import Speedy.Lib.Words

/-! # Records of fixed-width fields

A record is written as the big-endian words of its fields, one behind the other, and read
back by position. -/
namespace Speedy.Lib

/-- `bs[lo:hi]`, if that is inside. -/
def between {α : Type} (lo hi : Nat) (bs : List α) : Option (List α) :=
  if lo ≤ hi ∧ hi ≤ bs.length then some ((bs.drop lo).take (hi - lo)) else none

/-- The bytes of fields, each given by its width and its value. -/
def encodeFields (fs : List (Nat × Nat)) : List UInt8 := fs.flatMap fun f => beEncode f.1 f.2

/-- The bytes they take. -/
def width (fs : List (Nat × Nat)) : Nat := (fs.map Prod.fst).sum

section Fields
variable {α : Type} {fs gs : List (Nat × Nat)} {w v lo hi : Nat}

theorem between_eq_some {bs b : List α} (h : between lo hi bs = some b) :
    lo ≤ hi ∧ hi ≤ bs.length ∧ b.length = hi - lo := by
  unfold between at h
  split at h
  · rename_i hin
    cases h
    refine ⟨hin.1, hin.2, ?_⟩
    rw [List.length_take, List.length_drop]
    omega
  · cases h

theorem encodeFields_append (fs gs : List (Nat × Nat)) :
    encodeFields (fs ++ gs) = encodeFields fs ++ encodeFields gs := List.flatMap_append

theorem encodeFields_cons (f : Nat × Nat) (fs : List (Nat × Nat)) :
    encodeFields (f :: fs) = beEncode f.1 f.2 ++ encodeFields fs := List.flatMap_cons

theorem width_append (fs gs : List (Nat × Nat)) : width (fs ++ gs) = width fs + width gs := by
  unfold width
  rw [List.map_append, List.sum_append]

theorem width_cons (f : Nat × Nat) (fs : List (Nat × Nat)) :
    width (f :: fs) = f.1 + width fs := by
  unfold width
  rw [List.map_cons, List.sum_cons]

theorem encodeFields_length (fs : List (Nat × Nat)) : (encodeFields fs).length = width fs := by
  induction fs with
  | nil => rfl
  | cons f fs ih => rw [encodeFields_cons, List.length_append, beEncode_length, ih, width_cons]

/-- A field stands at the width of those before it. -/
theorem between_field (fs gs : List (Nat × Nat)) (hlo : width fs = lo) (hhi : lo + w = hi) :
    between lo hi (encodeFields (fs ++ (w, v) :: gs)) = some (beEncode w v) := by
  have hlen := encodeFields_length fs
  rw [hlo] at hlen
  rw [encodeFields_append, encodeFields_cons, between, if_pos]
  · rw [List.drop_left' hlen, List.take_left' (by rw [beEncode_length]; omega)]
  · rw [List.length_append, List.length_append, beEncode_length]
    omega

end Fields
end Speedy.Lib
