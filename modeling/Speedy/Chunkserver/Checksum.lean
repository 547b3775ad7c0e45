import Speedy.Lib.RunningSums
import Speedy.Chunkserver.RwBuffer

/-! # Both checksum functions compute the same sums

`spy_adler32` and `spy_buffer_adler32` reduce their sums at different places: behind
5552 bytes, at the end of each area, or by one subtraction where the input is short.
All of it is the same pair of sums modulo 65521. -/
namespace Speedy.Chunkserver
open Speedy.Lib

section Checksum
variable {st : Nat × Nat} {data xs ys : Bytes}

/-- The sums behind one contiguous area: nothing is reduced where nothing is added. -/
def areaSums (st : Nat × Nat) (data : Bytes) : Nat × Nat :=
  if data = [] then st else modBase (doSums st data)

theorem doSums_eq (st : Nat × Nat) (data : Bytes) :
    doSums st data = runningSums st (data.map UInt8.toNat) := by
  unfold doSums runningSums
  rw [List.foldl_map]

theorem doSums_append (st : Nat × Nat) (xs ys : Bytes) :
    doSums st (xs ++ ys) = doSums (doSums st xs) ys := List.foldl_append

theorem modBase_modBase (st : Nat × Nat) : modBase (modBase st) = modBase st :=
  modPair_modPair base st

theorem modBase_doSums_congr {st' : Nat × Nat} (h : modBase st = modBase st') (data : Bytes) :
    modBase (doSums st data) = modBase (doSums st' data) := by
  rw [doSums_eq, doSums_eq]
  exact runningSums_congr h _

theorem modBase_doSums (st : Nat × Nat) (data : Bytes) :
    modBase (doSums (modBase st) data) = modBase (doSums st data) :=
  modBase_doSums_congr (modBase_modBase st) data

theorem modBase_of_lt (h1 : st.1 < base) (h2 : st.2 < base) : modBase st = st :=
  Prod.ext (Nat.mod_eq_of_lt h1) (Nat.mod_eq_of_lt h2)

theorem toNat_le (data : Bytes) : ∀ x ∈ data.map UInt8.toNat, x ≤ 255 := by
  intro x hx
  obtain ⟨b, -, rfl⟩ := List.mem_map.mp hx
  exact Nat.le_of_lt_succ b.toNat_lt

/-- Up to the next reduction the sums stay below 2^32, so that no addition of
`unsigned long`s wraps. -/
theorem doSums_lt (h : st.1 < 2 ^ 16 ∧ st.2 < 2 ^ 16) (hlen : data.length ≤ nmax) :
    (doSums st data).1 < 2 ^ 32 ∧ (doSums st data).2 < 2 ^ 32 := by
  obtain ⟨h1, h2⟩ : (runningSums st _).1 ≤ _ ∧ (runningSums st _).2 ≤ _ :=
    runningSums_le (toNat_le data)
  rw [List.length_map] at h1 h2
  rw [doSums_eq]
  have hn : data.length ≤ 5552 := hlen
  have htri : data.length * (data.length + 1) / 2 ≤ 5552 * 5553 / 2 :=
    Nat.div_le_div_right (Nat.mul_le_mul hn (Nat.succ_le_succ hn))
  have hfirst : data.length * st.1 ≤ 5552 * 65535 := Nat.mul_le_mul hn (Nat.le_of_lt_succ h.1)
  omega

/-! ## The loops -/

theorem do16_eq (n : Nat) (st : Nat × Nat) (data : Bytes) :
    do16 n st data = (doSums st (data.take (16 * n)), data.drop (16 * n)) := by
  induction n generalizing st data with
  | zero => rfl
  | succ n ih =>
    unfold do16
    rw [ih, ← doSums_append, ← List.take_add, List.drop_drop, Nat.mul_succ, Nat.add_comm 16]

/-- `len / NMAX` rounds consume that many times `NMAX` bytes. -/
theorem nmaxBlocks_eq (n : Nat) (st : Nat × Nat) (data : Bytes) :
    modBase (nmaxBlocks n st data).1 = modBase (doSums st (data.take (nmax * n))) ∧
      (nmaxBlocks n st data).2 = data.drop (nmax * n) := by
  induction n generalizing st data with
  | zero => exact ⟨rfl, rfl⟩
  | succ n ih =>
    unfold nmaxBlocks
    simp only [do16_eq]
    obtain ⟨hsums, hrest⟩ := ih (modBase (doSums st (data.take (16 * (nmax / 16)))))
      (data.drop (16 * (nmax / 16)))
    have hround : 16 * (nmax / 16) = nmax := rfl
    rw [hround] at hsums hrest
    rw [hround, hsums, hrest, modBase_doSums, ← doSums_append, ← List.take_add, List.drop_drop,
      Nat.mul_succ, Nat.add_comm nmax]
    exact ⟨rfl, rfl⟩

/-- A round ends with a reduction. -/
theorem nmaxBlocks_reduced (n : Nat) (st : Nat × Nat) (data : Bytes) :
    modBase (nmaxBlocks (n + 1) st data).1 = (nmaxBlocks (n + 1) st data).1 := by
  induction n generalizing st data with
  | zero => exact modBase_modBase _
  | succ n ih => exact ih _ _

theorem adlerArea_eq (st : Nat × Nat) (data : Bytes) : adlerArea st data = areaSums st data := by
  obtain ⟨hsums, hrest⟩ := nmaxBlocks_eq (data.length / nmax) st data
  unfold adlerArea areaSums
  simp only [do16_eq, ← doSums_append, List.take_append_drop]
  by_cases hnil : data = []
  · subst hnil
    rfl
  · rw [if_neg hnil]
    by_cases hdone : (nmaxBlocks (data.length / nmax) st data).2.length = 0
    · -- the length is a multiple of `NMAX`: the last round has reduced the sums
      rw [if_pos hdone]
      rw [hrest, List.length_drop] at hdone
      have hpos : 0 < data.length := List.length_pos_iff.mpr hnil
      obtain ⟨n, hn⟩ : ∃ n, data.length / nmax = n + 1 := by
        refine Nat.exists_eq_succ_of_ne_zero fun hz => ?_
        rw [hz] at hdone
        omega
      rw [List.take_of_length_le (by omega)] at hsums
      rw [hn] at hsums ⊢
      rw [← nmaxBlocks_reduced, hsums]
    · rw [if_neg hdone, modBase_doSums_congr hsums, hrest, ← doSums_append,
        List.take_append_drop]

/-- Two areas one after the other are one area. -/
theorem areaSums_append (st : Nat × Nat) (xs ys : Bytes) :
    areaSums (areaSums st xs) ys = areaSums st (xs ++ ys) := by
  unfold areaSums
  by_cases hx : xs = []
  · rw [if_pos hx, hx, List.nil_append]
  · by_cases hy : ys = []
    · rw [if_pos hy, hy, List.append_nil]
    · rw [if_neg hx, if_neg hy, if_neg (by simp [hx]), modBase_doSums, ← doSums_append]

/-! ## `spy_adler32` -/

theorem mod_of_lt_twice {n : Nat} (h : n < 2 * base) :
    (if n ≥ base then n - base else n) = n % base := by
  unfold base at *
  split <;> omega

theorem doSums_fst_lt (h : st.1 < base) (hlen : data.length < 16) :
    (doSums st data).1 < 2 * base := by
  have hle : (runningSums st _).1 ≤ _ := (runningSums_le (toNat_le data)).1
  rw [← doSums_eq, List.length_map] at hle
  unfold base at *
  omega

/-- Whatever the length, the result is the pair of sums modulo 65521. -/
theorem spyAdler32_eq {adler : Nat} (h1 : (components adler).1 < base)
    (h2 : (components adler).2 < base) (buf : Bytes) :
    spyAdler32 adler buf = recombine (modBase (doSums (components adler) buf)) := by
  unfold spyAdler32
  simp only
  by_cases hone : buf.length = 1
  · obtain ⟨b, rfl⟩ := List.length_eq_one_iff.mp hone
    have hfst : (doSums (components adler) [b]).1 < 2 * base :=
      doSums_fst_lt h1 (show 1 < 16 by decide)
    have hmod := Nat.mod_lt (doSums (components adler) [b]).1 (show 0 < base by decide)
    rw [if_pos hone, mod_of_lt_twice hfst, mod_of_lt_twice (by omega)]
    refine congrArg recombine (Prod.ext rfl ?_)
    exact Nat.add_mod_mod _ _ _
  · rw [if_neg hone]
    by_cases hshort : buf.length < 16
    · rw [if_pos hshort, mod_of_lt_twice (doSums_fst_lt h1 hshort)]
      rfl
    · have hne : buf ≠ [] := by
        rintro rfl
        exact hshort (by decide)
      rw [if_neg hshort, adlerArea_eq, areaSums, if_neg hne]

/-! ## `spy_buffer_adler32` on a flat buffer -/

theorem bufferSums_eq (n : Nat) {b : RwBuffer} {left : Nat} (st : Nat × Nat)
    (hb : b.readPos ≤ b.writePos) (hleft : left ≤ b.unread.length) (hn : left ≤ n) :
    bufferSums n st b left = some (areaSums st (b.unread.take left)) := by
  induction n generalizing st b left with
  | zero =>
    obtain rfl := Nat.le_zero.mp hn
    rfl
  | succ n ih =>
    unfold bufferSums
    by_cases hmore : left > 0
    · rw [if_pos hmore]
      cases harea : spyRwBufferNextReadable b with
      | none =>
        rw [spyRwBufferNextReadable_none harea] at hleft
        exact absurd hleft (Nat.not_le_of_lt hmore)
      | some area =>
        obtain ⟨m, hm, rfl, hne⟩ := spyRwBufferNextReadable_some harea hb
        simp only
        have htake : (b.unread.take m).take left = b.unread.take (min left m) := by
          rw [List.take_take]
        have hlen : (b.unread.take (min left m)).length = min left m := by
          rw [List.length_take]
          omega
        have hb' : (b.skip (min left m)).readPos ≤ (b.skip (min left m)).writePos := by
          have hu := unread_length b
          show b.readPos + min left m ≤ b.writePos
          omega
        have hleft : left - min left m ≤ (b.skip (min left m)).unread.length := by
          rw [RwBuffer.skip_unread, List.length_drop]
          omega
        rw [htake, hlen, adlerArea_eq, ih _ hb' hleft (by omega), RwBuffer.skip_unread,
          areaSums_append, ← List.take_add,
          Nat.add_sub_cancel' (Nat.min_le_left _ _)]
    · obtain rfl := Nat.eq_zero_of_not_pos hmore
      rfl

theorem spyBufferAdler32_eq (adler : Nat) {b : RwBuffer} {len : Nat}
    (hb : b.readPos ≤ b.writePos) (hlen : len ≤ b.unread.length) :
    spyBufferAdler32 adler b len =
      some (recombine (areaSums (components adler) (b.unread.take len))) := by
  unfold spyBufferAdler32
  rw [if_pos (unread_length b ▸ hlen), bufferSums_eq len _ hb hlen (Nat.le_refl len)]
  rfl

end Checksum
end Speedy.Chunkserver
