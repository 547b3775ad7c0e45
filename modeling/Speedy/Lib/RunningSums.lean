import Mathlib.Algebra.BigOperators.Group.Finset.Basic
import Mathlib.Data.Nat.ModEq
import Mathlib.Tactic.Ring

/-! # A sum and the sum of its prefixes

The two sums of a checksum, as a fold and in closed form. Reducing them modulo some
number before going on changes nothing modulo that number, and one changed element
changes the first sum. -/
namespace Speedy.Lib

section RunningSums
variable {m x y : Nat} {st st' : Nat × Nat} {xs ys : List Nat}

/-- Each element goes into the first sum, and the first sum into the second. -/
def runningSums (st : Nat × Nat) (xs : List Nat) : Nat × Nat :=
  xs.foldl (fun st x => (st.1 + x, st.2 + (st.1 + x))) st

/-- Both sums reduced. -/
def modPair (m : Nat) (st : Nat × Nat) : Nat × Nat := (st.1 % m, st.2 % m)

theorem runningSums_fst (st : Nat × Nat) (xs : List Nat) :
    (runningSums st xs).1 = st.1 + xs.sum := by
  induction xs generalizing st with
  | nil => rfl
  | cons x xs ih =>
    rw [List.sum_cons, ← Nat.add_assoc]
    exact ih _

/-- The second sum is that of all prefix sums. -/
theorem runningSums_snd (st : Nat × Nat) (xs : List Nat) :
    (runningSums st xs).2 =
      st.2 + ∑ i ∈ Finset.range xs.length, (st.1 + (xs.take (i + 1)).sum) := by
  induction xs generalizing st with
  | nil => rfl
  | cons x xs ih =>
    rw [List.length_cons, Finset.sum_range_succ']
    have hstep : (runningSums st (x :: xs)).2 = st.2 + (st.1 + x) +
        ∑ i ∈ Finset.range xs.length, (st.1 + x + (xs.take (i + 1)).sum) := ih _
    have hfirst : ((x :: xs).take (0 + 1)).sum = x := by
      rw [Nat.zero_add, List.take_succ_cons, List.take_zero, List.sum_cons, List.sum_nil]
      exact Nat.add_zero x
    have hrest : ∀ i, st.1 + ((x :: xs).take (i + 1 + 1)).sum =
        st.1 + x + (xs.take (i + 1)).sum := by
      intro i
      rw [List.take_succ_cons, List.sum_cons, Nat.add_assoc]
    rw [hstep, hfirst]
    simp only [hrest]
    ring

/-- Sums that agree modulo `m` still do after more elements. -/
theorem runningSums_congr (h : modPair m st = modPair m st') (xs : List Nat) :
    modPair m (runningSums st xs) = modPair m (runningSums st' xs) := by
  induction xs generalizing st st' with
  | nil => exact h
  | cons x xs ih =>
    obtain ⟨h1, h2⟩ := Prod.mk.inj h
    have hfst : (st.1 + x) % m = (st'.1 + x) % m := Nat.ModEq.add_right x h1
    exact ih (Prod.ext hfst (Nat.ModEq.add h2 hfst))

theorem modPair_modPair (m : Nat) (st : Nat × Nat) : modPair m (modPair m st) = modPair m st :=
  Prod.ext (Nat.mod_mod _ _) (Nat.mod_mod _ _)

/-- How large the sums can get. -/
theorem runningSums_le {b : Nat} (h : ∀ x ∈ xs, x ≤ b) :
    (runningSums st xs).1 ≤ st.1 + b * xs.length ∧
      (runningSums st xs).2 ≤ st.2 + xs.length * st.1 + b * (xs.length * (xs.length + 1) / 2) := by
  induction xs generalizing st with
  | nil => exact ⟨Nat.le_refl _, by simp [runningSums]⟩
  | cons x xs ih =>
    have hx : x ≤ b := h x List.mem_cons_self
    have htail : ∀ y ∈ xs, y ≤ b := fun y hy => h y (List.mem_cons_of_mem x hy)
    obtain ⟨h1, h2⟩ := @ih (st.1 + x, st.2 + (st.1 + x)) htail
    have hxs : xs.length * x ≤ b * xs.length := by
      rw [Nat.mul_comm b]
      exact Nat.mul_le_mul_left _ hx
    have htri : (xs.length + 1) * (xs.length + 1 + 1) / 2 =
        xs.length * (xs.length + 1) / 2 + (xs.length + 1) := by
      have hstep : (xs.length + 1) * (xs.length + 1 + 1) =
          xs.length * (xs.length + 1) + 2 * (xs.length + 1) := by ring
      rw [hstep, Nat.add_mul_div_left _ _ (by decide)]
    refine ⟨?_, ?_⟩
    · show (runningSums (st.1 + x, st.2 + (st.1 + x)) xs).1 ≤ _
      rw [List.length_cons, Nat.mul_succ]
      simp only at h1
      omega
    · show (runningSums (st.1 + x, st.2 + (st.1 + x)) xs).2 ≤ _
      simp only at h2
      rw [List.length_cons, htri]
      generalize xs.length * (xs.length + 1) / 2 = t at h2 ⊢
      rw [Nat.mul_add] at h2
      rw [Nat.mul_add b, Nat.mul_succ, Nat.add_mul, Nat.one_mul]
      omega

/-- One changed element shows in the first sum. -/
theorem runningSums_change (hx : x < m) (hy : y < m) (hne : x ≠ y) :
    (runningSums st (xs ++ x :: ys)).1 % m ≠ (runningSums st (xs ++ y :: ys)).1 % m := by
  rw [runningSums_fst, runningSums_fst, List.sum_append, List.sum_append, List.sum_cons,
    List.sum_cons]
  intro he
  have hcancel : x + (st.1 + xs.sum + ys.sum) ≡ y + (st.1 + xs.sum + ys.sum) [MOD m] := by
    have hl : ∀ z, st.1 + (xs.sum + (z + ys.sum)) = z + (st.1 + xs.sum + ys.sum) := by
      intro z
      omega
    rw [hl, hl] at he
    exact he
  have hmod := Nat.ModEq.add_right_cancel' _ hcancel
  rw [Nat.ModEq, Nat.mod_eq_of_lt hx, Nat.mod_eq_of_lt hy] at hmod
  exact hne hmod

end RunningSums
end Speedy.Lib
