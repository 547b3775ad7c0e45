import Mathlib.Data.List.Basic
import Mathlib.Tactic.Common

/-! # A sequence kept in blocks

The blocks one after another are the sequence. Part of a block is part of the
sequence, and storing into a block is storing into the sequence. -/
namespace Speedy.Lib

section Blocks
variable {α : Type*} {room k off : Nat} {blocks : List (List α)} {b : List α}

/-- Where the `k`-th block begins. -/
def blockStart (blocks : List (List α)) (k : Nat) : Nat := (blocks.take k).flatten.length

/-- All blocks are of one size. -/
def Uniform (room : Nat) (blocks : List (List α)) : Prop := ∀ b ∈ blocks, b.length = room

/-- `ys` stored over what was at `off`. -/
def overwrite (xs : List α) (off : Nat) (ys : List α) : List α :=
  xs.take off ++ (ys ++ xs.drop (off + ys.length))

theorem overwrite_length {xs ys : List α} (h : off + ys.length ≤ xs.length) :
    (overwrite xs off ys).length = xs.length := by
  unfold overwrite
  rw [List.length_append, List.length_append, List.length_take, List.length_drop]
  omega

/-- Everything up to the end of what was stored. -/
theorem overwrite_take {xs ys : List α} (h : off ≤ xs.length) :
    (overwrite xs off ys).take (off + ys.length) = xs.take off ++ ys := by
  have hlen : (xs.take off).length = off := by
    rw [List.length_take]
    exact Nat.min_eq_left h
  unfold overwrite
  rw [← List.append_assoc]
  exact List.take_left' (by rw [List.length_append, hlen])

/-! ## Where a block begins -/

/-- What stands before and behind a block. -/
theorem blocks_around (hk : blocks[k]? = some b) :
    ∃ before behind, blocks = before ++ b :: behind ∧ before.length = k ∧
      blockStart blocks k = before.flatten.length := by
  obtain ⟨hlt, rfl⟩ := List.getElem?_eq_some_iff.mp hk
  refine ⟨blocks.take k, blocks.drop (k + 1), ?_, ?_, rfl⟩
  · rw [← List.drop_eq_getElem_cons hlt]
    exact (List.take_append_drop k blocks).symm
  · rw [List.length_take]
    exact Nat.min_eq_left (Nat.le_of_lt hlt)

theorem blockStart_succ (hk : blocks[k]? = some b) :
    blockStart blocks (k + 1) = blockStart blocks k + b.length := by
  unfold blockStart
  rw [List.take_add_one, hk, List.flatten_append, List.length_append]
  simp

theorem blockStart_length : blockStart blocks blocks.length = blocks.flatten.length := by
  unfold blockStart
  rw [List.take_length]

theorem blockStart_add_le (hk : blocks[k]? = some b) :
    blockStart blocks k + b.length ≤ blocks.flatten.length := by
  obtain ⟨before, behind, rfl, -, hstart⟩ := blocks_around hk
  rw [hstart, List.flatten_append, List.flatten_cons, List.length_append, List.length_append]
  omega

/-- A further block leaves the others where they are. -/
theorem blockStart_append (more : List (List α)) (hk : k ≤ blocks.length) :
    blockStart (blocks ++ more) k = blockStart blocks k := by
  unfold blockStart
  rw [List.take_append_of_le_length hk]

/-- So does a block in place of one as long. -/
theorem blockStart_set {b' : List α} (hk : blocks[k]? = some b) (hlen : b'.length = b.length)
    (j : Nat) : blockStart (blocks.set k b') j = blockStart blocks j := by
  have hmap : (blocks.set k b').map List.length = blocks.map List.length := by
    rw [List.map_set, hlen]
    obtain ⟨hlt, rfl⟩ := List.getElem?_eq_some_iff.mp hk
    refine List.ext_getElem (List.length_set ..) fun i h1 h2 => ?_
    rw [List.getElem_set]
    split
    · rename_i he
      subst he
      rw [List.getElem_map]
    · rfl
  unfold blockStart
  rw [List.length_flatten, List.length_flatten, List.map_take, List.map_take, hmap]

theorem Uniform.length_flatten (h : Uniform room blocks) :
    blocks.flatten.length = room * blocks.length := by
  induction blocks with
  | nil => rfl
  | cons b rest ih =>
    have hrest : Uniform room rest := fun x hx => h x (List.mem_cons_of_mem b hx)
    rw [List.flatten_cons, List.length_append, h b List.mem_cons_self, ih hrest,
      List.length_cons, Nat.mul_succ, Nat.add_comm]

theorem Uniform.blockStart (h : Uniform room blocks) (hk : k ≤ blocks.length) :
    blockStart blocks k = room * k := by
  have htake : Uniform room (blocks.take k) := fun x hx => h x (List.mem_of_mem_take hx)
  unfold Lib.blockStart
  rw [htake.length_flatten, List.length_take, Nat.min_eq_left hk]

theorem blockStart_mono {j : Nat} (h : k ≤ j) : blockStart blocks k ≤ blockStart blocks j := by
  obtain ⟨d, rfl⟩ := Nat.exists_eq_add_of_le h
  unfold blockStart
  rw [List.take_add, List.flatten_append, List.length_append]
  exact Nat.le_add_right _ _

theorem blockStart_le (blocks : List (List α)) (k : Nat) :
    blockStart blocks k ≤ blocks.flatten.length := by
  conv_rhs => rw [← List.take_append_drop k blocks, List.flatten_append, List.length_append]
  exact Nat.le_add_right _ _

theorem lt_of_blockStart_lt {j : Nat} (h : blockStart blocks k < blockStart blocks j) : k < j := by
  by_contra hle
  exact absurd (blockStart_mono (Nat.le_of_not_lt hle)) (Nat.not_le.mpr h)

/-- Without empty blocks, later blocks begin later. -/
theorem blockStart_lt {j : Nat} (hne : ∀ b ∈ blocks, b ≠ []) (h : k < j)
    (hj : j ≤ blocks.length) : blockStart blocks k < blockStart blocks j := by
  have hk : blocks[k]? = some blocks[k] := List.getElem?_eq_getElem (Nat.lt_of_lt_of_le h hj)
  have hpos : 0 < blocks[k].length := List.length_pos_iff.mpr (hne _ (List.getElem_mem _))
  have hle : blockStart blocks (k + 1) ≤ blockStart blocks j := blockStart_mono h
  rw [blockStart_succ hk] at hle
  omega

/-! ## Reading and storing -/

/-- Part of one block is part of the sequence. -/
theorem block_slice (hk : blocks[k]? = some b) {n : Nat} (hle : off + n ≤ b.length) :
    (blocks.flatten.drop (blockStart blocks k + off)).take n = (b.drop off).take n := by
  obtain ⟨before, behind, rfl, -, hstart⟩ := blocks_around hk
  rw [hstart, List.flatten_append, List.flatten_cons, List.drop_length_add_append,
    List.drop_append_of_le_length (by omega),
    List.take_append_of_le_length (by rw [List.length_drop]; omega)]

/-- Storing into a block is storing into the sequence. -/
theorem flatten_set_overwrite (hk : blocks[k]? = some b) {ys : List α}
    (hle : off + ys.length ≤ b.length) :
    (blocks.set k (overwrite b off ys)).flatten =
      overwrite blocks.flatten (blockStart blocks k + off) ys := by
  obtain ⟨before, behind, rfl, rfl, hstart⟩ := blocks_around hk
  rw [hstart, List.set_append_right _ _ (Nat.le_refl _), Nat.sub_self, List.set_cons_zero,
    List.flatten_append, List.flatten_cons, List.flatten_append, List.flatten_cons]
  unfold overwrite
  rw [Nat.add_assoc before.flatten.length, List.take_length_add_append,
    List.drop_length_add_append, List.take_append_of_le_length (by omega),
    List.drop_append_of_le_length hle]
  simp only [List.append_assoc]

end Blocks
end Speedy.Lib
