import Mathlib.Data.List.Basic
import Mathlib.Tactic.Ring

/-! # Fixed-width words and their big-endian encoding

C integers are modelled by `Int` and `Nat` values that are reduced at every
assignment: `u32`/`u64` for the unsigned types and `i32` for `int`, whose
out-of-range conversions wrap. The second half is the big-endian encoding of
such words as byte lists, at any width. -/
namespace Speedy.Lib

/-! ## Conversions to C integer types -/

/-- Conversion to `uint32_t`: modulo 2^32. -/
def u32 (x : Int) : Nat := (x % 4294967296).toNat

/-- Conversion to `uint64_t` and `size_t`: modulo 2^64. -/
def u64 (x : Int) : Nat := (x % 18446744073709551616).toNat

/-- Conversion to `int`: the representative in [-2^31, 2^31). -/
def i32 (x : Int) : Int := (2147483648 + x) % 4294967296 - 2147483648

theorem u32_of_lt {x : Nat} (h : x < 4294967296) : u32 x = x := by
  unfold u32; omega

theorem u64_of_lt {x : Nat} (h : x < 18446744073709551616) : u64 x = x := by
  unfold u64; omega

theorem u64_sub {x y : Nat} (hy : y ≤ x) (hx : x < 18446744073709551616) :
    u64 ((x : Int) - y) = x - y := by
  unfold u64; omega

theorem i32_of_range {x : Int} (hl : -2147483648 ≤ x) (hu : x < 2147483648) : i32 x = x := by
  unfold i32; omega

theorem i32_lt (x : Int) : i32 x < 2147483648 := by
  unfold i32; omega

/-- Adding to a value that was already converted is adding before. -/
theorem i32_add (x y : Int) : i32 (i32 x + y) = i32 (x + y) := by
  unfold i32; omega

theorem i32_sub (x y : Int) : i32 (x - i32 y) = i32 (x - y) := by
  unfold i32; omega

/-! ## Big-endian byte lists -/

/-- The `w` low-order bytes of `v`, most significant first. -/
def beEncode : Nat → Nat → List UInt8
  | 0, _ => []
  | w + 1, v => UInt8.ofNat (v / 256 ^ w) :: beEncode w v

def beDecode (bs : List UInt8) : Nat := bs.foldl (fun acc b => acc * 256 + b.toNat) 0

@[simp] theorem beEncode_length (w v : Nat) : (beEncode w v).length = w := by
  induction w with
  | zero => rfl
  | succ w ih => simp [beEncode, ih]

theorem foldl_be (bs : List UInt8) (a : Nat) :
    bs.foldl (fun acc b => acc * 256 + b.toNat) a = a * 256 ^ bs.length + beDecode bs := by
  unfold beDecode
  induction bs generalizing a with
  | nil => simp
  | cons b bs ih =>
    simp only [List.foldl_cons, List.length_cons]
    rw [ih (a * 256 + b.toNat), ih (0 * 256 + b.toNat)]
    ring

theorem beDecode_cons (b : UInt8) (bs : List UInt8) :
    beDecode (b :: bs) = b.toNat * 256 ^ bs.length + beDecode bs := by
  rw [beDecode, List.foldl_cons, foldl_be]; simp

theorem beDecode_lt (bs : List UInt8) : beDecode bs < 256 ^ bs.length := by
  induction bs with
  | nil => simp [beDecode]
  | cons b bs ih =>
    rw [beDecode_cons, List.length_cons, pow_succ]
    have hb : b.toNat ≤ 255 := by have := b.toNat_lt; omega
    have := Nat.mul_le_mul_right (256 ^ bs.length) hb
    omega

theorem beDecode_beEncode (w v : Nat) : beDecode (beEncode w v) = v % 256 ^ w := by
  induction w with
  | zero => simp [beEncode, beDecode, Nat.mod_one]
  | succ w ih =>
    rw [beEncode, beDecode_cons, ih, beEncode_length, pow_succ, Nat.mod_mul]
    simp only [UInt8.toNat_ofNat', Nat.reducePow]
    ring

/-- Byte lists of one length are told apart by the words they encode. -/
theorem beDecode_inj {as bs : List UInt8} (hlen : as.length = bs.length)
    (h : beDecode as = beDecode bs) : as = bs := by
  induction as generalizing bs with
  | nil => exact (List.length_eq_zero_iff.mp hlen.symm).symm
  | cons a as ih =>
    cases bs with
    | nil => cases hlen
    | cons b bs =>
      have hlen' : as.length = bs.length := Nat.succ.inj hlen
      have hpos : 0 < 256 ^ bs.length := Nat.pow_pos (by decide)
      have ha := beDecode_lt as
      have hb := beDecode_lt bs
      rw [beDecode_cons, beDecode_cons, hlen'] at h
      rw [hlen'] at ha
      have hdiv := congrArg (· / 256 ^ bs.length) h
      have hmod := congrArg (· % 256 ^ bs.length) h
      simp only [Nat.mul_comm _ (256 ^ bs.length), Nat.mul_add_div hpos, Nat.div_eq_of_lt ha,
        Nat.div_eq_of_lt hb, Nat.add_zero, Nat.mul_add_mod, Nat.mod_eq_of_lt ha,
        Nat.mod_eq_of_lt hb] at hdiv hmod
      rw [UInt8.toNat_inj.mp hdiv, ih hlen' hmod]

theorem beDecode_beEncode_of_lt {w v : Nat} (h : v < 256 ^ w) : beDecode (beEncode w v) = v := by
  rw [beDecode_beEncode, Nat.mod_eq_of_lt h]

end Speedy.Lib
