import Mathlib.Data.List.Basic
import Mathlib.Tactic.Ring

/-! # Byte stores and contiguous layouts

A byte store maps every position to a byte; `store` overwrites a range, `slice`
reads one, and `Holds f off bs` says that `bs` is what the range at `off`
contains. `placed w p xs` puts the elements of `xs` back to back from position
`p`, an element `x` taking `w x` positions. -/
namespace Speedy.Lib

abbrev Bytes := List UInt8
abbrev ByteStore := Nat → UInt8

/-! ## Reading and writing ranges -/

def store (f : ByteStore) (off : Nat) (bs : Bytes) : ByteStore :=
  fun i => if off ≤ i then (bs[i - off]?).getD (f i) else f i

def slice (f : ByteStore) (off n : Nat) : Bytes := (List.range n).map fun i => f (off + i)

@[simp] theorem slice_length (f : ByteStore) (off n : Nat) : (slice f off n).length = n := by
  simp [slice]

theorem slice_getElem? (f : ByteStore) (off n i : Nat) :
    (slice f off n)[i]? = if i < n then some (f (off + i)) else none := by
  unfold slice
  rw [List.getElem?_map]
  split
  · rename_i h
    rw [List.getElem?_range h]; rfl
  · rename_i h
    rw [List.getElem?_eq_none (by simpa using h)]; rfl

@[simp] theorem slice_zero (f : ByteStore) (off : Nat) : slice f off 0 = [] := rfl

theorem slice_congr {f g : ByteStore} {off n : Nat} (h : ∀ i, off ≤ i → i < off + n → f i = g i) :
    slice f off n = slice g off n := by
  unfold slice
  apply List.map_congr_left
  intro i hi
  exact h _ (by omega) (by have := List.mem_range.mp hi; omega)

theorem slice_add (f : ByteStore) (off m n : Nat) :
    slice f off (m + n) = slice f off m ++ slice f (off + m) n := by
  unfold slice
  rw [List.range_add, List.map_append, List.map_map]
  congr 1
  apply List.map_congr_left
  intro i _
  simp [Nat.add_assoc]

theorem take_slice (f : ByteStore) (off : Nat) {m n : Nat} (h : m ≤ n) :
    (slice f off n).take m = slice f off m := by
  obtain ⟨k, rfl⟩ := Nat.exists_eq_add_of_le h
  rw [slice_add, List.take_left' (by simp)]

theorem drop_slice (f : ByteStore) (off : Nat) {m n : Nat} (h : m ≤ n) :
    (slice f off n).drop m = slice f (off + m) (n - m) := by
  obtain ⟨k, rfl⟩ := Nat.exists_eq_add_of_le h
  rw [slice_add, List.drop_left' (by simp), Nat.add_sub_cancel_left]

theorem store_apply_out (f : ByteStore) {off i : Nat} {bs : Bytes}
    (h : i < off ∨ off + bs.length ≤ i) : store f off bs i = f i := by
  unfold store
  split
  · rw [List.getElem?_eq_none (by omega)]; rfl
  · rfl

theorem store_apply_in (f : ByteStore) {off i : Nat} {bs : Bytes} (h : i < bs.length) :
    store f off bs (off + i) = bs[i] := by
  unfold store
  rw [if_pos (by omega), Nat.add_sub_cancel_left, List.getElem?_eq_getElem h]; rfl

@[simp] theorem store_nil (f : ByteStore) (off : Nat) : store f off [] = f := by
  funext i; exact store_apply_out f (by simp; omega)

theorem slice_store_out (f : ByteStore) {off n o : Nat} {bs : Bytes}
    (h : off + n ≤ o ∨ o + bs.length ≤ off) : slice (store f o bs) off n = slice f off n :=
  slice_congr fun i hl hu => store_apply_out f (by omega)

theorem slice_store_self (f : ByteStore) (off : Nat) (bs : Bytes) :
    slice (store f off bs) off bs.length = bs := by
  apply List.ext_getElem?
  intro i
  rw [slice_getElem?]
  split
  · rename_i h
    rw [store_apply_in f h, List.getElem?_eq_getElem h]
  · rename_i h
    rw [List.getElem?_eq_none (by omega)]

/-- Copying a range of another store. -/
theorem store_slice (f g : ByteStore) {off n i : Nat} (h1 : off ≤ i) (h2 : i < off + n) :
    store f off (slice g off n) i = g i := by
  unfold store
  rw [if_pos h1, slice_getElem?, if_pos (by omega), Nat.add_sub_cancel' h1]
  rfl

/-! ## What a range holds -/

def Holds (f : ByteStore) (off : Nat) (bs : Bytes) : Prop := slice f off bs.length = bs

instance (f : ByteStore) (off : Nat) (bs : Bytes) : Decidable (Holds f off bs) :=
  inferInstanceAs (Decidable (_ = _))

@[simp] theorem Holds.nil (f : ByteStore) (off : Nat) : Holds f off [] := rfl

theorem holds_append {f : ByteStore} {off : Nat} {a b : Bytes} :
    Holds f off (a ++ b) ↔ Holds f off a ∧ Holds f (off + a.length) b := by
  unfold Holds
  rw [List.length_append, slice_add]
  constructor
  · intro h; exact List.append_inj h (by simp)
  · rintro ⟨ha, hb⟩; rw [ha, hb]

theorem Holds.store_self (f : ByteStore) (off : Nat) (bs : Bytes) :
    Holds (store f off bs) off bs := slice_store_self f off bs

theorem Holds.store_out {f : ByteStore} {off o : Nat} {bs ws : Bytes} (h : Holds f off bs)
    (hd : off + bs.length ≤ o ∨ o + ws.length ≤ off) : Holds (store f o ws) off bs := by
  unfold Holds; rw [slice_store_out f hd]; exact h

theorem Holds.slice_eq {f : ByteStore} {off n : Nat} {bs : Bytes} (h : Holds f off bs)
    (hn : n = bs.length) : slice f off n = bs := by rw [hn]; exact h

theorem Holds.slice_sub {f : ByteStore} {off k m : Nat} {bs : Bytes} (h : Holds f off bs)
    (hk : k + m ≤ bs.length) : slice f (off + k) m = (bs.drop k).take m := by
  have hs : slice f off bs.length = bs := h
  calc slice f (off + k) m = (slice f (off + k) (bs.length - k)).take m :=
        (take_slice f _ (by omega)).symm
    _ = ((slice f off bs.length).drop k).take m := by rw [drop_slice f off (by omega)]
    _ = (bs.drop k).take m := by rw [hs]

theorem Holds.congr {f g : ByteStore} {off : Nat} {bs : Bytes} (h : Holds f off bs)
    (hfg : ∀ i, off ≤ i → i < off + bs.length → g i = f i) : Holds g off bs := by
  unfold Holds; rw [slice_congr hfg]; exact h

/-! ## Contiguous placement -/

section Placed
variable {α : Type} (w : α → Nat)

def placed : Nat → List α → List (Nat × α)
  | _, [] => []
  | p, x :: xs => (p, x) :: placed (p + w x) xs

def span (xs : List α) : Nat := (xs.map w).sum

@[simp] theorem span_nil : span w [] = 0 := rfl
@[simp] theorem span_cons (x : α) (xs : List α) : span w (x :: xs) = w x + span w xs := by
  simp [span]
@[simp] theorem span_append (xs ys : List α) : span w (xs ++ ys) = span w xs + span w ys := by
  simp [span]

theorem placed_append (p : Nat) (xs ys : List α) :
    placed w p (xs ++ ys) = placed w p xs ++ placed w (p + span w xs) ys := by
  induction xs generalizing p with
  | nil => simp [placed]
  | cons x xs ih => simp [placed, ih, Nat.add_assoc]

theorem placed_bounds {p : Nat} {xs : List α} {q : Nat × α} (h : q ∈ placed w p xs) :
    p ≤ q.1 ∧ q.1 + w q.2 ≤ p + span w xs := by
  induction xs generalizing p with
  | nil => simp [placed] at h
  | cons x xs ih =>
    rcases List.mem_cons.mp h with rfl | h
    · simp
    · have := ih h
      rw [span_cons]; omega

/-- Elements placed one after the other take disjoint ranges. -/
theorem placed_disjoint {p : Nat} {xs : List α} {a b : Nat × α} (ha : a ∈ placed w p xs)
    (hb : b ∈ placed w p xs) (hne : a ≠ b) : a.1 + w a.2 ≤ b.1 ∨ b.1 + w b.2 ≤ a.1 := by
  induction xs generalizing p with
  | nil => simp [placed] at ha
  | cons x xs ih =>
    rcases List.mem_cons.mp ha with rfl | ha <;> rcases List.mem_cons.mp hb with rfl | hb
    · exact absurd rfl hne
    · exact .inl (placed_bounds w hb).1
    · exact .inr (placed_bounds w ha).1
    · exact ih ha hb

end Placed

/-- Encoded elements laid out back to back: each placed element's bytes stand
at its position. -/
theorem holds_placed {α : Type} {enc : α → Bytes} {f : ByteStore} {p : Nat} {xs : List α}
    (h : Holds f p (xs.flatMap enc)) {q : Nat × α}
    (hq : q ∈ placed (fun x => (enc x).length) p xs) : Holds f q.1 (enc q.2) := by
  induction xs generalizing p with
  | nil => simp [placed] at hq
  | cons x xs ih =>
    rw [List.flatMap_cons, holds_append] at h
    rcases List.mem_cons.mp hq with rfl | hq
    · exact h.1
    · exact ih h.2 hq

end Speedy.Lib
