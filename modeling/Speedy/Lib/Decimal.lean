import Mathlib.Data.List.Basic
import Mathlib.Tactic.Common

/-! # Numbers in texts

The decimal text of a number has only digits and perhaps a minus sign, and says which
number it is; so a number can be read off the end of a text when another character stands
in front of it. -/
namespace Speedy.Lib

/-- Two texts with a separator that does not occur before it. -/
theorem append_sep_inj {c : Char} {x y a b : List Char} (hx : c ∉ x) (hy : c ∉ y)
    (h : x ++ c :: a = y ++ c :: b) : x = y ∧ a = b := by
  induction x generalizing y with
  | nil =>
    cases y with
    | nil => exact ⟨rfl, (List.cons.inj h).2⟩
    | cons d y => exact absurd ((List.cons.inj h).1 ▸ List.mem_cons_self) hy
  | cons d x ih =>
    cases y with
    | nil => exact absurd ((List.cons.inj h).1 ▸ List.mem_cons_self) hx
    | cons e y =>
      obtain ⟨rfl, htail⟩ := List.cons.inj h
      obtain ⟨rfl, hab⟩ := ih (fun hm => hx (List.mem_cons_of_mem _ hm))
        (fun hm => hy (List.mem_cons_of_mem _ hm)) htail
      exact ⟨rfl, hab⟩

section Decimal
variable {c : Char} {m n : Nat} {p q : Int}

theorem repr_toList (n : Nat) : n.repr.toList = Nat.toDigits 10 n := by
  have hrepr : n.repr = String.ofList (Nat.toDigits 10 n) := Nat.toString_eq_ofList_toDigits
  rw [hrepr, String.toList_ofList]

theorem not_mem_repr (hc : c.isDigit = false) (n : Nat) : c ∉ n.repr.toList := by
  rw [repr_toList]
  intro hm
  rw [Nat.isDigit_of_mem_toDigits (by decide) (by decide) hm] at hc
  cases hc

theorem repr_toList_inj (h : m.repr.toList = n.repr.toList) : m = n := by
  rw [repr_toList, repr_toList] at h
  have hvalue := congrArg (fun digits => Nat.ofDigitChars 10 digits 0) h
  simpa only [Nat.ofDigitChars_ten_toDigits] using hvalue

theorem ofNat_toList (n : Nat) : (toString (Int.ofNat n)).toList = n.repr.toList := by
  rw [Int.toString_eq_repr]
  rfl

theorem negSucc_toList (n : Nat) :
    (toString (Int.negSucc n)).toList = '-' :: (n + 1).repr.toList := by
  rw [Int.toString_eq_repr]
  show ("-" ++ (n + 1).repr).toList = _
  rw [String.toList_append]
  rfl

theorem not_mem_toString (hc : c.isDigit = false) (hminus : c ≠ '-') (p : Int) :
    c ∉ (toString p).toList := by
  cases p with
  | ofNat n =>
    rw [ofNat_toList]
    exact not_mem_repr hc n
  | negSucc n =>
    rw [negSucc_toList, List.mem_cons, not_or]
    exact ⟨hminus, not_mem_repr hc (n + 1)⟩

theorem toString_toList_inj (h : (toString p).toList = (toString q).toList) : p = q := by
  have hminus : ∀ m n : Nat, m.repr.toList ≠ '-' :: n.repr.toList := by
    intro m n he
    exact not_mem_repr rfl m (he ▸ List.mem_cons_self : '-' ∈ m.repr.toList)
  cases p with
  | ofNat m =>
    cases q with
    | ofNat n =>
      rw [ofNat_toList, ofNat_toList] at h
      rw [repr_toList_inj h]
    | negSucc n =>
      rw [ofNat_toList, negSucc_toList] at h
      exact absurd h (hminus m (n + 1))
  | negSucc m =>
    cases q with
    | ofNat n =>
      rw [ofNat_toList, negSucc_toList] at h
      exact absurd h.symm (hminus n (m + 1))
    | negSucc n =>
      rw [negSucc_toList, negSucc_toList] at h
      rw [Nat.succ.inj (repr_toList_inj (List.cons.inj h).2)]

/-- A text, a separator and a number: all of it can be read back. -/
theorem text_sep_toString_inj {s t sep : String} (hsep : sep.toList = [c])
    (hc : c.isDigit = false) (hminus : c ≠ '-')
    (h : s ++ sep ++ toString p = t ++ sep ++ toString q) : s = t ∧ p = q := by
  have hlist : ∀ (u : String) (i : Int), (u ++ sep ++ toString i).toList.reverse =
      (toString i).toList.reverse ++ c :: u.toList.reverse := by
    intro u i
    rw [String.toList_append, String.toList_append, hsep, List.reverse_append, List.reverse_append]
    rfl
  have hrev := congrArg (fun u => u.toList.reverse) h
  simp only [hlist] at hrev
  obtain ⟨hpq, hst⟩ := append_sep_inj
    (fun hm => not_mem_toString hc hminus p (List.mem_reverse.mp hm))
    (fun hm => not_mem_toString hc hminus q (List.mem_reverse.mp hm)) hrev
  exact ⟨String.toList_inj.mp (List.reverse_injective hst),
    toString_toList_inj (List.reverse_injective hpq)⟩

/-- The number that a decimal text says. -/
def parseDigits (digits : List Char) : Option Nat :=
  if digits ≠ [] ∧ digits.all Char.isDigit then some (Nat.ofDigitChars 10 digits 0) else none

def parseInt : List Char → Option Int
  | '-' :: digits => (parseDigits digits).map fun n => -(n : Int)
  | digits => (parseDigits digits).map fun n => (n : Int)

theorem parseDigits_repr (n : Nat) : parseDigits n.repr.toList = some n := by
  rw [repr_toList, parseDigits, Nat.ofDigitChars_ten_toDigits]
  refine if_pos ⟨Nat.toDigits_ne_nil, ?_⟩
  rw [List.all_eq_true]
  exact fun c hc => Nat.isDigit_of_mem_toDigits (by decide) (by decide) hc

theorem parseInt_toString (p : Int) : parseInt (toString p).toList = some p := by
  cases p with
  | ofNat n =>
    rw [ofNat_toList]
    have hunsigned : parseInt n.repr.toList =
        (parseDigits n.repr.toList).map fun n => (n : Int) := by
      unfold parseInt
      split
      · rename_i digits heq
        exact absurd (heq ▸ List.mem_cons_self) (not_mem_repr (c := '-') rfl n)
      · rfl
    rw [hunsigned, parseDigits_repr]
    rfl
  | negSucc n =>
    rw [negSucc_toList, parseInt, parseDigits_repr]
    rfl

/-- Only zero begins with a zero. -/
theorem repr_head {n : Nat} (hn : 0 < n) : ∃ c cs, n.repr.toList = c :: cs ∧ c ≠ '0' := by
  have hdigit : ∀ d, d < 10 → 0 < d → Nat.digitChar d ≠ '0' := by decide
  rw [repr_toList]
  induction n using Nat.strongRecOn with
  | ind n ih =>
    rcases Nat.lt_or_ge n 10 with hlt | hge
    · exact ⟨n.digitChar, [], Nat.toDigits_of_lt_base hlt, hdigit n hlt hn⟩
    · obtain ⟨c, cs, hcs, hc⟩ := ih (n / 10) (by omega) (by omega)
      refine ⟨c, cs ++ [(n % 10).digitChar], ?_, hc⟩
      rw [Nat.toDigits_of_base_le (by decide) hge, hcs, List.cons_append]

theorem repr_cons (n : Nat) : ∃ d cs, n.repr.toList = d :: cs ∧ d.isDigit = true := by
  have hcons : ∃ d cs, n.repr.toList = d :: cs := by
    rcases Nat.eq_zero_or_pos n with rfl | hn
    · exact ⟨'0', [], rfl⟩
    · obtain ⟨d, cs, hcs, -⟩ := repr_head hn
      exact ⟨d, cs, hcs⟩
  obtain ⟨d, cs, hcs⟩ := hcons
  refine ⟨d, cs, hcs, ?_⟩
  cases hd : d.isDigit with
  | true => rfl
  | false => exact absurd (hcs ▸ List.mem_cons_self) (not_mem_repr hd n)

end Decimal
end Speedy.Lib
