import Mathlib.Algebra.GroupWithZero.Nat
import Mathlib.Data.List.Basic

/-! # Totals over a table

The sum of a weight over the first entries of a table indexed by numbers, and how
it moves when one entry is replaced or the table grows by one. -/
namespace Speedy.Lib

/-- The sum of the first `n` values. -/
def tally (n : Nat) (f : Nat → Nat) : Nat := ((List.range n).map f).sum

section Tally
variable {α : Type} {n c : Nat} {f g : Nat → Nat}

theorem tally_succ (n : Nat) (f : Nat → Nat) : tally (n + 1) f = tally n f + f n := by
  simp [tally, List.range_succ]

theorem tally_congr (h : ∀ i < n, f i = g i) : tally n f = tally n g := by
  unfold tally
  congr 1
  exact List.map_congr_left fun i hi => h i (List.mem_range.mp hi)

/-- One entry is replaced: the total moves by the difference of the two. -/
theorem tally_set (w : α → Nat) (t : Nat → α) (y : α) (hc : c < n) :
    tally n (fun i => w (if i = c then y else t i)) + w (t c) =
      tally n (fun i => w (t i)) + w y := by
  induction n with
  | zero => omega
  | succ n ih =>
    rw [tally_succ, tally_succ]
    by_cases he : c = n
    · subst he
      have hsame : tally c (fun i => w (if i = c then y else t i)) = tally c fun i => w (t i) :=
        tally_congr fun i hi => by rw [if_neg (by omega)]
      rw [hsame, if_pos rfl]
      omega
    · have hprev := ih (by omega)
      rw [if_neg fun h => he h.symm]
      omega

/-- An entry behind the others is added. -/
theorem tally_push (w : α → Nat) (t : Nat → α) (y : α) :
    tally (n + 1) (fun i => w (if i = n then y else t i)) = tally n (fun i => w (t i)) + w y := by
  rw [tally_succ, if_pos rfl]
  congr 1
  exact tally_congr fun i hi => by rw [if_neg (by omega)]

theorem le_tally (f : Nat → Nat) (hc : c < n) : f c ≤ tally n f := by
  induction n with
  | zero => omega
  | succ n ih =>
    rw [tally_succ]
    by_cases he : c = n
    · rw [he]; omega
    · exact Nat.le_trans (ih (by omega)) (Nat.le_add_right _ _)

end Tally

/-- One entry of a table that is written out is replaced. -/
theorem map_range_set {α : Type} {n i : Nat} {f g : Nat → α}
    (h : ∀ j < n, j ≠ i → f j = g j) :
    ((List.range n).map f).set i (g i) = (List.range n).map g := by
  refine List.ext_getElem (by simp) ?_
  intro j hj _
  have hlt : j < n := by simpa using hj
  rw [List.getElem_set]
  split
  · rename_i he
    subst he
    simp
  · rename_i hne
    simpa using h j hlt (Ne.symm hne)

/-! ## What the members of a list hold -/

/-- One member is replaced: what the new one holds comes for what the old one held. -/
theorem flatMap_set_perm {α β : Type} (f : α → List β) {l : List α} {i : Nat} {x : α} (y : α)
    (hx : l[i]? = some x) : ((l.set i y).flatMap f ++ f x).Perm (l.flatMap f ++ f y) := by
  induction l generalizing i with
  | nil => cases hx
  | cons z l ih =>
    cases i with
    | zero =>
      obtain rfl : z = x := Option.some.inj hx
      simp only [List.set_cons_zero, List.flatMap_cons]
      rw [List.append_assoc]
      exact List.perm_append_comm.trans (List.perm_append_comm.append_right _)
    | succ i =>
      simp only [List.set_cons_succ, List.flatMap_cons, List.append_assoc]
      exact (ih (i := i) hx).append_left (f z)

/-- Taking out an element that contributes nothing. -/
theorem flatMap_eraseIdx_of_nil {α β : Type} (f : α → List β) {l : List α} {i : Nat} {x : α}
    (hx : l[i]? = some x) (hf : f x = []) : (l.eraseIdx i).flatMap f = l.flatMap f := by
  induction l generalizing i with
  | nil => cases hx
  | cons z l ih =>
    cases i with
    | zero =>
      obtain rfl : z = x := Option.some.inj hx
      rw [List.eraseIdx_cons_zero, List.flatMap_cons, hf, List.nil_append]
    | succ i => rw [List.eraseIdx_cons_succ, List.flatMap_cons, List.flatMap_cons, ih hx]

/-- One member is replaced by one that weighs less. -/
theorem sum_map_set_lt {α : Type} (w : α → Nat) {l : List α} {i : Nat} {x y : α}
    (hx : l[i]? = some x) (hlt : w y < w x) : ((l.set i y).map w).sum < (l.map w).sum := by
  induction l generalizing i with
  | nil => cases hx
  | cons z l ih =>
    cases i with
    | zero =>
      obtain rfl : z = x := Option.some.inj hx
      simp only [List.set_cons_zero, List.map_cons, List.sum_cons]
      omega
    | succ i =>
      have hrest := ih (i := i) hx
      simp only [List.set_cons_succ, List.map_cons, List.sum_cons]
      omega

end Speedy.Lib
