import Mathlib.Data.List.Induction
import Mathlib.Data.List.Infix
import Mathlib.Tactic.Common

/-! # Patterns with wildcards

A pattern is a text in which one character stands for any text, one for any character,
and one takes the special meaning from the character after it. A text followed by the
wildcard for any text is the pattern of those that begin with it, if it has none of the
three (`like_iff_prefix`); if it has one, the pattern also matches a text that does not
begin so (`like_sample`, `plain_of_prefix_sample`). -/
namespace Speedy.Lib

structure Wildcards (α : Type) where
  many : α
  single : α
  escape : α
  escape_ne_many : escape ≠ many
  many_ne_single : many ≠ single

inductive LikeToken (α : Type) where
  | anyText
  | anyOne
  | literal (c : α)
  deriving DecidableEq, Repr

section Like
variable {α : Type} [DecidableEq α] (w : Wildcards α)

def likeToken (c : α) : LikeToken α :=
  if c = w.many then .anyText else if c = w.single then .anyOne else .literal c

/-- An escape character at the end stands for itself. -/
def likeTokens : List α → List (LikeToken α)
  | [] => []
  | [c] => [if c = w.escape then .literal c else likeToken w c]
  | c :: d :: cs =>
    if c = w.escape then .literal d :: likeTokens cs else likeToken w c :: likeTokens (d :: cs)

def likeMatches : List (LikeToken α) → List α → Bool
  | [], s => s.isEmpty
  | .literal _ :: _, [] => false
  | .literal c :: ts, d :: s => c = d && likeMatches ts s
  | .anyOne :: _, [] => false
  | .anyOne :: ts, _ :: s => likeMatches ts s
  | .anyText :: ts, s => s.tails.any (likeMatches ts)

def like (pattern s : List α) : Bool := likeMatches (likeTokens w pattern) s

/-- None of the special characters. -/
def Wildcards.Plain (c : α) : Prop := c ≠ w.many ∧ c ≠ w.single ∧ c ≠ w.escape

section Tokens
variable {w}

theorem likeTokens_escape (c : α) (cs : List α) :
    likeTokens w (w.escape :: c :: cs) = .literal c :: likeTokens w cs := by
  rw [likeTokens, if_pos rfl]

theorem likeTokens_cons {c : α} (h : c ≠ w.escape) (cs : List α) :
    likeTokens w (c :: cs) = likeToken w c :: likeTokens w cs := by
  cases cs with
  | nil => simp only [likeTokens, if_neg h]
  | cons d cs => rw [likeTokens, if_neg h]

theorem likeToken_many : likeToken w w.many = .anyText := if_pos rfl

theorem likeToken_single : likeToken w w.single = .anyOne := by
  rw [likeToken, if_neg w.many_ne_single.symm, if_pos rfl]

theorem Wildcards.Plain.likeToken {c : α} (h : w.Plain c) : likeToken w c = .literal c := by
  rw [Lib.likeToken, if_neg h.1, if_neg h.2.1]

theorem likeTokens_many : likeTokens w [w.many] = [.anyText] := by
  rw [likeTokens_cons w.escape_ne_many.symm, likeToken_many, likeTokens]

end Tokens

/-! ## Plain texts -/

theorem likeMatches_anyText (s : List α) : likeMatches [.anyText] s = true := by
  rw [likeMatches, List.any_eq_true]
  exact ⟨[], (List.mem_tails [] s).mpr List.nil_suffix, rfl⟩

theorem like_iff_prefix {text : List α} (h : ∀ c ∈ text, w.Plain c) (s : List α) :
    like w (text ++ [w.many]) s = true ↔ text <+: s := by
  unfold like
  induction text generalizing s with
  | nil =>
    rw [List.nil_append, likeTokens_many, likeMatches_anyText]
    simp only [List.nil_prefix]
  | cons c text ih =>
    obtain ⟨hc, htext⟩ := List.forall_mem_cons.mp h
    rw [List.cons_append, likeTokens_cons hc.2.2, hc.likeToken]
    cases s with
    | nil => simp only [likeMatches, Bool.false_eq_true, List.prefix_nil, reduceCtorEq]
    | cons d s =>
      rw [likeMatches, Bool.and_eq_true, decide_eq_true_eq, ih htext, List.cons_prefix_cons]

/-! ## Texts with special characters -/

/-- A shortest text that a pattern matches; the wildcard for one character gets `many`. -/
def likeSample : List (LikeToken α) → List α
  | [] => []
  | .anyText :: ts => likeSample ts
  | .anyOne :: ts => w.many :: likeSample ts
  | .literal c :: ts => c :: likeSample ts

theorem likeMatches_anyText_of {ts : List (LikeToken α)} {s : List α}
    (h : likeMatches ts s = true) : likeMatches (.anyText :: ts) s = true := by
  rw [likeMatches, List.any_eq_true]
  exact ⟨s, (List.mem_tails s s).mpr (List.suffix_refl s), h⟩

theorem likeMatches_sample (ts : List (LikeToken α)) :
    likeMatches ts (likeSample w ts) = true := by
  induction ts with
  | nil => rfl
  | cons t ts ih =>
    cases t with
    | anyText => exact likeMatches_anyText_of ih
    | anyOne => rwa [likeSample, likeMatches]
    | literal c => rw [likeSample, likeMatches, ih, Bool.and_true, decide_eq_true rfl]

/-- The sample for the texts that should begin with `text`. -/
def prefixSample (text : List α) : List α := likeSample w (likeTokens w (text ++ [w.many]))

theorem like_sample (text : List α) : like w (text ++ [w.many]) (prefixSample w text) = true :=
  likeMatches_sample w _

theorem length_prefixSample_le (text : List α) : (prefixSample w text).length ≤ text.length := by
  unfold prefixSample
  induction text using List.twoStepInduction with
  | nil => rw [List.nil_append, likeTokens_many]; exact Nat.le_refl 0
  | singleton c =>
    by_cases hc : c = w.escape
    · rw [hc, List.singleton_append, likeTokens_escape, likeTokens]
      exact Nat.le_refl 1
    · rw [List.singleton_append, likeTokens_cons hc, likeTokens_many]
      cases likeToken w c <;> simp only [likeSample, List.length_cons, List.length_nil] <;> omega
  | cons_cons c d cs ih2 ih1 =>
    by_cases hc : c = w.escape
    · rw [hc, List.cons_append, List.cons_append, likeTokens_escape, likeSample]
      simp only [List.length_cons]
      omega
    · rw [List.cons_append, likeTokens_cons hc]
      have ih := ih1 d
      cases likeToken w c <;> simp only [likeSample, List.length_cons] at ih ⊢ <;> omega

/-- If the sample begins with the text, nothing in the text is special: an escape character
and a wildcard for any text leave the sample too short, and the wildcard for one character
is not itself in it. -/
theorem plain_of_prefix_sample {text : List α} (h : text <+: prefixSample w text) :
    ∀ c ∈ text, w.Plain c := by
  induction text with
  | nil => simp only [List.not_mem_nil, false_implies, implies_true]
  | cons c text ih =>
    have hlen := length_prefixSample_le w text
    by_cases hc : c = w.escape
    · subst hc
      exfalso
      cases text with
      | nil =>
        rw [prefixSample, List.singleton_append, likeTokens_escape, likeSample] at h
        exact w.escape_ne_many (List.cons_prefix_cons.mp h).1
      | cons d text =>
        rw [prefixSample, List.cons_append, List.cons_append, likeTokens_escape, likeSample] at h
        have hle := h.length_le
        have hshort := length_prefixSample_le w text
        unfold prefixSample at hshort
        simp only [List.length_cons] at hle
        omega
    · have hsample : prefixSample w (c :: text) = likeSample w (likeToken w c ::
          likeTokens w (text ++ [w.many])) := by
        rw [prefixSample, List.cons_append, likeTokens_cons hc]
      rw [hsample] at h
      by_cases hm : c = w.many
      · rw [hm, likeToken_many, likeSample] at h
        have hle := h.length_le
        unfold prefixSample at hlen
        simp only [List.length_cons] at hle
        omega
      by_cases hs : c = w.single
      · rw [hs, likeToken_single, likeSample] at h
        exact absurd (List.cons_prefix_cons.mp h).1 w.many_ne_single.symm
      have hplain : w.Plain c := ⟨hm, hs, hc⟩
      rw [hplain.likeToken, likeSample] at h
      exact List.forall_mem_cons.mpr ⟨hplain, ih (List.cons_prefix_cons.mp h).2⟩

end Like

end Speedy.Lib
