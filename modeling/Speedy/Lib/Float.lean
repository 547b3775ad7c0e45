import Mathlib.Algebra.Group.Nat.Defs
import Mathlib.Data.Nat.Log

/-! # Naturals as binary floating point numbers

Rounding a natural number to a given number of significant bits, to nearest and to
even at a tie. The exponent range never matters for the sizes at hand. -/
namespace Speedy.Lib

/-- `n` rounded to `p` significant bits -/
def roundBits (p n : Nat) : Nat :=
  let e := n.log2 + 1 - p
  let q := n / 2 ^ e
  let r := n % 2 ^ e
  if 2 * r < 2 ^ e ∨ 2 * r = 2 ^ e ∧ q % 2 = 0 then q * 2 ^ e else (q + 1) * 2 ^ e

theorem roundBits_of_dvd {p n : Nat} (h : 2 ^ (n.log2 + 1 - p) ∣ n) : roundBits p n = n := by
  obtain ⟨q, hq⟩ := h
  have hpos : 0 < 2 ^ (n.log2 + 1 - p) := Nat.two_pow_pos _
  have hr : n % 2 ^ (n.log2 + 1 - p) = 0 := Nat.mod_eq_zero_of_dvd ⟨q, hq⟩
  simp only [roundBits, hr, Nat.mul_zero, hpos, true_or, if_true]
  exact Nat.div_mul_cancel ⟨q, hq⟩

/-- A number of at most `p` bits times a power of two is kept, and so is the next
power of two. -/
theorem roundBits_of_mantissa {p m e : Nat} (hp : 0 < p) (hm : m ≤ 2 ^ p) :
    roundBits p (m * 2 ^ e) = m * 2 ^ e := by
  apply roundBits_of_dvd
  by_cases hm0 : m = 0
  · simp [hm0]
  have hx : m * 2 ^ e ≠ 0 := Nat.mul_ne_zero hm0 (Nat.two_pow_pos e).ne'
  rcases Nat.lt_or_eq_of_le hm with hlt | rfl
  · have hlog : (m * 2 ^ e).log2 < p + e := by
      rw [Nat.log2_lt hx, Nat.pow_add]
      exact Nat.mul_lt_mul_of_pos_right hlt (Nat.two_pow_pos e)
    exact Nat.dvd_trans (Nat.pow_dvd_pow 2 (by omega)) (Nat.dvd_mul_left ..)
  · rw [← Nat.pow_add, Nat.log2_two_pow]
    exact Nat.pow_dvd_pow 2 (by omega)

/-- Rounding gives a number of at most `p` bits times a power of two, or the next power of
two. -/
theorem exists_mantissa (p n : Nat) :
    ∃ m, m ≤ 2 ^ p ∧ roundBits p n = m * 2 ^ (n.log2 + 1 - p) := by
  have hq : n / 2 ^ (n.log2 + 1 - p) < 2 ^ p := by
    rw [Nat.div_lt_iff_lt_mul (Nat.two_pow_pos _), ← Nat.pow_add]
    exact Nat.lt_of_lt_of_le Nat.lt_log2_self (Nat.pow_le_pow_right (by omega) (by omega))
  by_cases hdown : 2 * (n % 2 ^ (n.log2 + 1 - p)) < 2 ^ (n.log2 + 1 - p) ∨
      2 * (n % 2 ^ (n.log2 + 1 - p)) = 2 ^ (n.log2 + 1 - p) ∧
        n / 2 ^ (n.log2 + 1 - p) % 2 = 0
  · exact ⟨_, hq.le, if_pos hdown⟩
  · exact ⟨_, hq, if_neg hdown⟩

theorem roundBits_idem {p n : Nat} (hp : 0 < p) :
    roundBits p (roundBits p n) = roundBits p n := by
  obtain ⟨m, hm, hr⟩ := exists_mantissa p n
  rw [hr]
  exact roundBits_of_mantissa hp hm

/-- `n` has `p` significant bits. -/
def Representable (p n : Nat) : Prop := ∃ m e, m < 2 ^ p ∧ n = m * 2 ^ e

theorem representable_of_lt {p n : Nat} (h : n < 2 ^ p) : Representable p n :=
  ⟨n, 0, h, (Nat.mul_one n).symm⟩

theorem roundBits_eq_self_iff {p n : Nat} (hp : 0 < p) :
    roundBits p n = n ↔ Representable p n := by
  constructor
  · intro h
    obtain ⟨m, hm, hr⟩ := exists_mantissa p n
    rw [h] at hr
    rcases Nat.lt_or_eq_of_le hm with hlt | rfl
    · exact ⟨m, _, hlt, hr⟩
    · refine ⟨1, p + (n.log2 + 1 - p), Nat.one_lt_two_pow hp.ne', ?_⟩
      rw [Nat.one_mul, Nat.pow_add]
      exact hr
  · intro h
    obtain ⟨m, e, hm, rfl⟩ := h
    exact roundBits_of_mantissa hp hm.le

theorem roundBits_pos {p n : Nat} (hp : 0 < p) (hn : 0 < n) : 0 < roundBits p n := by
  have hle : 2 ^ (n.log2 + 1 - p) ≤ n :=
    (Nat.pow_le_pow_right (by omega) (by omega)).trans (Nat.log2_self_le hn.ne')
  have hq : 0 < n / 2 ^ (n.log2 + 1 - p) := Nat.div_pos hle (Nat.two_pow_pos _)
  unfold roundBits
  dsimp only
  split
  · exact Nat.mul_pos hq (Nat.two_pow_pos _)
  · exact Nat.mul_pos (Nat.succ_pos _) (Nat.two_pow_pos _)

end Speedy.Lib
