import Speedy.Lib.Json

/-! # The weight of a JSON value

An object weighs one, a member what its key is given. A text has a weight too, told from its
braces and its strings alone, and the weight of a value that is read from a text is one of the
text. -/
namespace Speedy.Lib

section JsonWeight
variable (weigh : List Char → Nat)

mutual

def Json.weight : Json → Nat
  | .null | .bool _ | .number _ | .string _ => 0
  | .array vs => elementsWeight vs
  | .object ms => 1 + membersWeight ms

def elementsWeight : List Json → Nat
  | [] => 0
  | v :: vs => v.weight + elementsWeight vs

def membersWeight : List (List Char × Json) → Nat
  | [] => 0
  | (key, v) :: ms => weigh key + v.weight + membersWeight ms

end

/-- A value ends where this text begins. -/
def EndsValue (cs : List Char) : Prop :=
  ∀ c cs', skipSpace cs = c :: cs' → c = ',' ∨ c = ']' ∨ c = '}'

/-- A string is a value or a key by what stands behind it; the structure around it is not
looked at. -/
inductive Weighs : List Char → Nat → Prop
  | nil : Weighs [] 0
  | char {c : Char} {cs : List Char} {n : Nat} (hquote : c ≠ '"') (hbrace : c ≠ '{')
      (h : Weighs cs n) : Weighs (c :: cs) n
  | brace {cs : List Char} {n : Nat} (h : Weighs cs n) : Weighs ('{' :: cs) (n + 1)
  | string {cs rest : List Char} {us : List Nat} {n : Nat}
      (hread : parseUnits cs = some (us, rest)) (hrest : EndsValue rest) (h : Weighs rest n) :
      Weighs ('"' :: cs) n
  | key {cs rest rest' : List Char} {us : List Nat} {n : Nat}
      (hread : parseUnits cs = some (us, rest)) (hrest : skipSpace rest = ':' :: rest')
      (h : Weighs rest' n) : Weighs ('"' :: cs) (weigh (fromUnits us) + n)

variable {weigh} {cs rest : List Char} {k : Nat}

theorem Weighs.text {w : List Char} (hquote : '"' ∉ w) (hbrace : '{' ∉ w)
    (h : Weighs weigh cs k) : Weighs weigh (w ++ cs) k := by
  induction w with
  | nil => exact h
  | cons c w ih =>
    rw [List.mem_cons, not_or] at hquote hbrace
    exact .char (Ne.symm hquote.1) (Ne.symm hbrace.1) (ih hquote.2 hbrace.2)

theorem Weighs.of_text {w : List Char} (hquote : '"' ∉ w) (h : Weighs weigh (w ++ cs) k) :
    ∃ n, k = w.count '{' + n ∧ Weighs weigh cs n := by
  induction w generalizing k with
  | nil => exact ⟨k, by simp, h⟩
  | cons c w ih =>
    rw [List.mem_cons, not_or] at hquote
    cases h with
    | char _ hbrace h =>
      obtain ⟨n, hk, hn⟩ := ih hquote.2 h
      exact ⟨n, by rw [hk, List.count_cons_of_ne hbrace], hn⟩
    | @brace _ k h =>
      obtain ⟨n, hk, hn⟩ := ih hquote.2 h
      exact ⟨n, by rw [hk, List.count_cons_self]; omega, hn⟩
    | string => exact absurd rfl hquote.1
    | key => exact absurd rfl hquote.1

theorem Weighs.dropWhile {p : Char → Bool} (hquote : p '"' = false) (hbrace : p '{' = false)
    (h : Weighs weigh (cs.dropWhile p) k) : Weighs weigh cs k := by
  have hp : ∀ c ∈ cs.takeWhile p, p c = true := fun c hc => List.mem_takeWhile_imp hc
  rw [← @List.takeWhile_append_dropWhile _ p cs]
  refine .text ?_ ?_ h
  · exact fun hmem => Bool.false_ne_true (hquote.symm.trans (hp _ hmem))
  · exact fun hmem => Bool.false_ne_true (hbrace.symm.trans (hp _ hmem))

theorem Weighs.skipSpace (h : Weighs weigh (skipSpace cs) k) : Weighs weigh cs k :=
  h.dropWhile rfl rfl

theorem EndsValue.of_skipSpace {c : Char} (h : Lib.skipSpace cs = c :: rest)
    (hc : c = ',' ∨ c = ']' ∨ c = '}') : EndsValue cs := by
  intro c' cs' h'
  rw [h] at h'
  cases h'
  exact hc

theorem Weighs.number {v : Json} (hread : parseNumber cs = some (v, rest))
    (h : Weighs weigh rest k) : Weighs weigh cs (v.weight weigh + k) := by
  simp only [parseNumber] at hread
  split at hread
  · cases hread
    rw [Json.weight, Nat.zero_add]
    exact h.dropWhile rfl rfl
  · cases hread

theorem Weighs.word {v : Json} (hread : parseWord cs = some (v, rest))
    (h : Weighs weigh rest k) : Weighs weigh cs (v.weight weigh + k) := by
  rw [parseWord.eq_def] at hread
  split at hread
  · cases hread
    rw [Json.weight, Nat.zero_add]
    exact Weighs.text (w := ['n', 'u', 'l', 'l']) (by decide) (by decide) h
  · cases hread
    rw [Json.weight, Nat.zero_add]
    exact Weighs.text (w := ['t', 'r', 'u', 'e']) (by decide) (by decide) h
  · cases hread
    rw [Json.weight, Nat.zero_add]
    exact Weighs.text (w := ['f', 'a', 'l', 's', 'e']) (by decide) (by decide) h
  · cases hread

variable (weigh)

/-- The weight of what is read, with that of the text behind it. -/
structure ReadsWeight (n : Nat) : Prop where
  value : ∀ {v : Json} {cs rest : List Char} {k : Nat}, parseValue n cs = some (v, rest) →
    EndsValue rest → Weighs weigh rest k → Weighs weigh cs (v.weight weigh + k)
  elements : ∀ {vs : List Json} {cs rest : List Char} {k : Nat},
    parseElements n cs = some (vs, rest) → Weighs weigh rest k →
    EndsValue cs ∧ Weighs weigh cs (elementsWeight weigh vs + k)
  member : ∀ {m : List Char × Json} {cs rest : List Char} {k : Nat},
    parseMember n cs = some (m, rest) → EndsValue rest → Weighs weigh rest k →
    Weighs weigh cs (weigh m.1 + m.2.weight weigh + k)
  members : ∀ {ms : List (List Char × Json)} {cs rest : List Char} {k : Nat},
    parseMembers n cs = some (ms, rest) → Weighs weigh rest k →
    EndsValue cs ∧ Weighs weigh cs (membersWeight weigh ms + k)

variable {weigh} {n : Nat}

theorem ReadsWeight.array (hr : ReadsWeight weigh n) {v : Json} {vs : List Json}
    {tail : List Char} (hv : parseValue n cs = some (v, tail))
    (hvs : parseElements n tail = some (vs, rest)) (h : Weighs weigh rest k) :
    Weighs weigh cs (elementsWeight weigh (v :: vs) + k) := by
  obtain ⟨hends, htail⟩ := hr.elements hvs h
  rw [elementsWeight, Nat.add_assoc]
  exact hr.value hv hends htail

theorem ReadsWeight.object (hr : ReadsWeight weigh n) {m : List Char × Json}
    {ms : List (List Char × Json)} {tail : List Char} (hm : parseMember n cs = some (m, tail))
    (hms : parseMembers n tail = some (ms, rest)) (h : Weighs weigh rest k) :
    Weighs weigh cs (membersWeight weigh (m :: ms) + k) := by
  obtain ⟨hends, htail⟩ := hr.members hms h
  rw [membersWeight, Nat.add_assoc]
  exact hr.member hm hends htail

theorem ReadsWeight.parseValue (hr : ReadsWeight weigh n) {v : Json}
    (hread : parseValue (n + 1) cs = some (v, rest)) (hrest : EndsValue rest)
    (h : Weighs weigh rest k) : Weighs weigh cs (v.weight weigh + k) := by
  refine Weighs.skipSpace ?_
  rw [Lib.parseValue] at hread
  split at hread
  · cases hread
  · next c cs hcs =>
    rw [hcs]
    split at hread
    · next hc =>
      obtain ⟨⟨s, rest'⟩, hstring, he⟩ := Option.map_eq_some_iff.mp hread
      obtain ⟨⟨us, rest''⟩, hunits, he'⟩ := Option.map_eq_some_iff.mp hstring
      cases he
      cases he'
      rw [Json.weight, Nat.zero_add, hc]
      exact .string hunits hrest h
    · next hquote =>
      split at hread
      · next hc =>
        subst hc
        refine .char (by decide) (by decide) (Weighs.skipSpace ?_)
        split at hread
        · next hcs =>
          cases hread
          rw [hcs, Json.weight, elementsWeight, Nat.zero_add]
          exact .char (by decide) (by decide) h
        · next hcs =>
          obtain ⟨⟨v, tail⟩, hv, hread⟩ := Option.bind_eq_some_iff.mp hread
          obtain ⟨⟨vs, rest'⟩, hvs, hread⟩ := Option.bind_eq_some_iff.mp hread
          cases hread
          rw [Json.weight]
          exact hr.array hv hvs h
      · split at hread
        · next hc =>
          subst hc
          split at hread
          · next hcs =>
            cases hread
            rw [Json.weight, membersWeight, Nat.add_zero, Nat.add_comm]
            refine .brace (Weighs.skipSpace ?_)
            rw [hcs]
            exact .char (by decide) (by decide) h
          · next hcs =>
            obtain ⟨⟨m, tail⟩, hm, hread⟩ := Option.bind_eq_some_iff.mp hread
            obtain ⟨⟨ms, rest'⟩, hms, hread⟩ := Option.bind_eq_some_iff.mp hread
            cases hread
            rw [Json.weight, Nat.add_assoc, Nat.add_comm]
            exact .brace (Weighs.skipSpace (hr.object hm hms h))
        · split at hread
          · exact h.number hread
          · exact h.word hread

theorem ReadsWeight.parseElements (hr : ReadsWeight weigh n) {vs : List Json}
    (hread : parseElements (n + 1) cs = some (vs, rest)) (h : Weighs weigh rest k) :
    EndsValue cs ∧ Weighs weigh cs (elementsWeight weigh vs + k) := by
  rw [Lib.parseElements] at hread
  split at hread
  · next hcs =>
    cases hread
    refine ⟨.of_skipSpace hcs (.inr (.inl rfl)), Weighs.skipSpace ?_⟩
    rw [hcs, elementsWeight, Nat.zero_add]
    exact .char (by decide) (by decide) h
  · next hcs =>
    obtain ⟨⟨v, tail⟩, hv, hread⟩ := Option.bind_eq_some_iff.mp hread
    obtain ⟨⟨vs, rest'⟩, hvs, hread⟩ := Option.bind_eq_some_iff.mp hread
    cases hread
    refine ⟨.of_skipSpace hcs (.inl rfl), Weighs.skipSpace ?_⟩
    rw [hcs]
    exact .char (by decide) (by decide) (hr.array hv hvs h)
  · cases hread

theorem ReadsWeight.parseMember (hr : ReadsWeight weigh n) {m : List Char × Json}
    (hread : parseMember (n + 1) cs = some (m, rest)) (hrest : EndsValue rest)
    (h : Weighs weigh rest k) : Weighs weigh cs (weigh m.1 + m.2.weight weigh + k) := by
  rw [Lib.parseMember] at hread
  split at hread
  · next hcs =>
    obtain ⟨⟨key, tail⟩, hkey, hread⟩ := Option.bind_eq_some_iff.mp hread
    dsimp only at hread
    split at hread
    · next hcolon =>
      obtain ⟨⟨v, rest'⟩, hv, hread⟩ := Option.bind_eq_some_iff.mp hread
      obtain ⟨⟨us, tail'⟩, hunits, he⟩ := Option.map_eq_some_iff.mp hkey
      cases hread
      cases he
      refine Weighs.skipSpace ?_
      rw [hcs, Nat.add_assoc]
      exact .key hunits hcolon (hr.value hv hrest h)
    · cases hread
  · cases hread

theorem ReadsWeight.parseMembers (hr : ReadsWeight weigh n) {ms : List (List Char × Json)}
    (hread : parseMembers (n + 1) cs = some (ms, rest)) (h : Weighs weigh rest k) :
    EndsValue cs ∧ Weighs weigh cs (membersWeight weigh ms + k) := by
  rw [Lib.parseMembers] at hread
  split at hread
  · next hcs =>
    cases hread
    refine ⟨.of_skipSpace hcs (.inr (.inr rfl)), Weighs.skipSpace ?_⟩
    rw [hcs, membersWeight, Nat.zero_add]
    exact .char (by decide) (by decide) h
  · next hcs =>
    obtain ⟨⟨m, tail⟩, hm, hread⟩ := Option.bind_eq_some_iff.mp hread
    obtain ⟨⟨ms, rest'⟩, hms, hread⟩ := Option.bind_eq_some_iff.mp hread
    cases hread
    refine ⟨.of_skipSpace hcs (.inl rfl), Weighs.skipSpace ?_⟩
    rw [hcs]
    exact .char (by decide) (by decide) (hr.object hm hms h)
  · cases hread

theorem readsWeight (n : Nat) : ReadsWeight weigh n := by
  induction n with
  | zero =>
    constructor
    · intro _ _ _ _ h
      cases h
    · intro _ _ _ _ h
      cases h
    · intro _ _ _ _ h
      cases h
    · intro _ _ _ _ h
      cases h
  | succ n hr => exact ⟨hr.parseValue, hr.parseElements, hr.parseMember, hr.parseMembers⟩

theorem Json.weighs_of_parse {v : Json} (h : Json.parse cs = some v) :
    Weighs weigh cs (v.weight weigh) := by
  rw [Json.parse] at h
  split at h
  · cases h
  · next v' rest hread =>
    split at h
    · next hrest =>
      cases h
      have hends : EndsValue rest := fun c cs' hcs => absurd (hrest.symm.trans hcs) (by simp)
      have hzero : Weighs weigh rest 0 := Weighs.skipSpace (by rw [hrest]; exact .nil)
      exact (readsWeight _).value hread hends hzero
    · cases h

end JsonWeight

end Speedy.Lib
