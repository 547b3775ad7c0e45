import Mathlib.Data.List.Basic
import Mathlib.Data.List.TakeWhile
import Mathlib.Tactic.Common
import Speedy.Lib.Decimal

/-! # JSON texts

Values, the text in which Go's `encoding/json` writes them, and a reader of texts. What is
written is read back. -/
namespace Speedy.Lib

inductive Json where
  | null
  | bool (b : Bool)
  /-- a number as it is written -/
  | number (literal : List Char)
  | string (s : List Char)
  | array (elements : List Json)
  | object (members : List (List Char × Json))

/-! ## Writing -/

def unicodeEscape (n : Nat) : List Char :=
  ['\\', 'u', Nat.digitChar (n / 4096 % 16), Nat.digitChar (n / 256 % 16),
    Nat.digitChar (n / 16 % 16), Nat.digitChar (n % 16)]

/-- A character that is only written by its number; some of them have a meaning in HTML or
in JavaScript. -/
def byNumber (c : Char) : Bool :=
  c.toNat < 32 || c = '<' || c = '>' || c = '&' || c = '\u2028' || c = '\u2029'

def escapeChar (c : Char) : List Char :=
  if c = '"' then ['\\', '"']
  else if c = '\\' then ['\\', '\\']
  else if c = '\n' then ['\\', 'n']
  else if c = '\r' then ['\\', 'r']
  else if c = '\t' then ['\\', 't']
  else if byNumber c then unicodeEscape c.toNat
  else [c]

def escape (s : List Char) : List Char := s.flatMap escapeChar

mutual

def Json.encode : Json → List Char
  | .null => "null".toList
  | .bool b => if b then "true".toList else "false".toList
  | .number literal => literal
  | .string s => '"' :: (escape s ++ ['"'])
  | .array [] => ['[', ']']
  | .array (v :: vs) => '[' :: (v.encode ++ encodeElements vs)
  | .object [] => ['{', '}']
  | .object (m :: ms) => '{' :: (encodeMember m ++ encodeMembers ms)

/-- What follows an element. -/
def encodeElements : List Json → List Char
  | [] => [']']
  | v :: vs => ',' :: (v.encode ++ encodeElements vs)

def encodeMember : List Char × Json → List Char
  | (key, v) => '"' :: (escape key ++ '"' :: ':' :: v.encode)

/-- What follows a member. -/
def encodeMembers : List (List Char × Json) → List Char
  | [] => ['}']
  | m :: ms => ',' :: (encodeMember m ++ encodeMembers ms)

end

/-! ## Reading -/

def isSpace (c : Char) : Bool := c = ' ' || c = '\t' || c = '\r' || c = '\n'

def skipSpace (cs : List Char) : List Char := cs.dropWhile isSpace

def hexVal (c : Char) : Option Nat :=
  if c.isDigit then some (c.toNat - '0'.toNat)
  else if 'a' ≤ c ∧ c ≤ 'f' then some (c.toNat - 'a'.toNat + 10)
  else if 'A' ≤ c ∧ c ≤ 'F' then some (c.toNat - 'A'.toNat + 10)
  else none

def hex4 (a b c d : Char) : Option Nat := do
  return 4096 * (← hexVal a) + 256 * (← hexVal b) + 16 * (← hexVal c) + (← hexVal d)

def simpleEscape (c : Char) : Option Nat :=
  if c = '"' ∨ c = '\\' ∨ c = '/' then some c.toNat
  else if c = 'b' then some 8
  else if c = 'f' then some 12
  else if c = 'n' then some 10
  else if c = 'r' then some 13
  else if c = 't' then some 9
  else none

def consUnit (u : Nat) (r : List Nat × List Char) : List Nat × List Char := (u :: r.1, r.2)

/-- The code units of a string up to its closing quote, and the text behind that. -/
def parseUnits : List Char → Option (List Nat × List Char)
  | [] => none
  | c :: cs =>
    if c = '"' then some ([], cs)
    else if c = '\\' then
      match cs with
      | [] => none
      | e :: cs =>
        if e = 'u' then
          match cs with
          | a :: b :: c :: d :: cs =>
            (hex4 a b c d).bind fun u => (parseUnits cs).map (consUnit u)
          | _ => none
        else (simpleEscape e).bind fun u => (parseUnits cs).map (consUnit u)
    else if c.toNat < 32 then none
    else (parseUnits cs).map (consUnit c.toNat)

/-- Two surrogates make one character, and one of them none. -/
def fromUnits : List Nat → List Char
  | [] => []
  | [u] => [if 0xD800 ≤ u ∧ u < 0xE000 then '\ufffd' else Char.ofNat u]
  | u :: u' :: us =>
    if 0xD800 ≤ u ∧ u < 0xDC00 ∧ 0xDC00 ≤ u' ∧ u' < 0xE000 then
      Char.ofNat (0x10000 + (u - 0xD800) * 0x400 + (u' - 0xDC00)) :: fromUnits us
    else
      (if 0xD800 ≤ u ∧ u < 0xE000 then '\ufffd' else Char.ofNat u) :: fromUnits (u' :: us)

def parseString (cs : List Char) : Option (List Char × List Char) :=
  (parseUnits cs).map fun r => (fromUnits r.1, r.2)

def isNumberChar (c : Char) : Bool :=
  c.isDigit || c = '-' || c = '+' || c = '.' || c = 'e' || c = 'E'

/-- One digit or more. -/
def skipDigits : List Char → Option (List Char)
  | [] => none
  | c :: cs => if c.isDigit then some (cs.dropWhile Char.isDigit) else none

def skipInteger : List Char → Option (List Char)
  | '0' :: cs => some cs
  | cs => skipDigits cs

def skipFraction : List Char → Option (List Char)
  | '.' :: cs => skipDigits cs
  | cs => some cs

def skipExponent : List Char → Option (List Char)
  | c :: cs =>
    if c = 'e' ∨ c = 'E' then
      match cs with
      | '+' :: cs => skipDigits cs
      | '-' :: cs => skipDigits cs
      | cs => skipDigits cs
    else some (c :: cs)
  | [] => some []

def skipSign : List Char → List Char
  | '-' :: cs => cs
  | cs => cs

def validNumber (literal : List Char) : Bool :=
  ((skipInteger (skipSign literal)).bind skipFraction).bind skipExponent = some []

def parseNumber (cs : List Char) : Option (Json × List Char) :=
  let literal := cs.takeWhile isNumberChar
  if validNumber literal then some (.number literal, cs.dropWhile isNumberChar) else none

def parseWord : List Char → Option (Json × List Char)
  | 'n' :: 'u' :: 'l' :: 'l' :: cs => some (.null, cs)
  | 't' :: 'r' :: 'u' :: 'e' :: cs => some (.bool true, cs)
  | 'f' :: 'a' :: 'l' :: 's' :: 'e' :: cs => some (.bool false, cs)
  | _ => none

mutual

/-- A value and the text behind it; the number bounds the depth of the recursion. -/
def parseValue : Nat → List Char → Option (Json × List Char)
  | 0, _ => none
  | n + 1, cs =>
    match skipSpace cs with
    | [] => none
    | c :: cs =>
      if c = '"' then (parseString cs).map fun r => (.string r.1, r.2)
      else if c = '[' then
        match skipSpace cs with
        | ']' :: cs => some (.array [], cs)
        | cs => do
          let (v, cs) ← parseValue n cs
          let (vs, cs) ← parseElements n cs
          return (.array (v :: vs), cs)
      else if c = '{' then
        match skipSpace cs with
        | '}' :: cs => some (.object [], cs)
        | cs => do
          let (m, cs) ← parseMember n cs
          let (ms, cs) ← parseMembers n cs
          return (.object (m :: ms), cs)
      else if isNumberChar c then parseNumber (c :: cs)
      else parseWord (c :: cs)

def parseElements : Nat → List Char → Option (List Json × List Char)
  | 0, _ => none
  | n + 1, cs =>
    match skipSpace cs with
    | ']' :: cs => some ([], cs)
    | ',' :: cs => do
      let (v, cs) ← parseValue n cs
      let (vs, cs) ← parseElements n cs
      return (v :: vs, cs)
    | _ => none

def parseMember : Nat → List Char → Option ((List Char × Json) × List Char)
  | 0, _ => none
  | n + 1, cs =>
    match skipSpace cs with
    | '"' :: cs => do
      let (key, cs) ← parseString cs
      match skipSpace cs with
      | ':' :: cs =>
        let (v, cs) ← parseValue n cs
        return ((key, v), cs)
      | _ => none
    | _ => none

def parseMembers : Nat → List Char → Option (List (List Char × Json) × List Char)
  | 0, _ => none
  | n + 1, cs =>
    match skipSpace cs with
    | '}' :: cs => some ([], cs)
    | ',' :: cs => do
      let (m, cs) ← parseMember n cs
      let (ms, cs) ← parseMembers n cs
      return (m :: ms, cs)
    | _ => none

end

/-- The value of a whole text. -/
def Json.parse (text : List Char) : Option Json :=
  match parseValue (text.length + 1) text with
  | none => none
  | some (v, rest) => if skipSpace rest = [] then some v else none

/-! ## What is written is read back -/

inductive Json.Valid : Json → Prop
  | null : Valid .null
  | bool (b : Bool) : Valid (.bool b)
  | number {literal : List Char} (h : validNumber literal = true)
      (hchars : ∀ c ∈ literal, isNumberChar c = true) : Valid (.number literal)
  | string (s : List Char) : Valid (.string s)
  | array {vs : List Json} (h : ∀ v ∈ vs, Valid v) : Valid (.array vs)
  | object {ms : List (List Char × Json)} (h : ∀ m ∈ ms, Valid m.2) : Valid (.object ms)

section Strings

theorem escape_cons (c : Char) (s : List Char) : escape (c :: s) = escapeChar c ++ escape s :=
  List.flatMap_cons

theorem hexVal_digitChar : ∀ n < 16, hexVal (Nat.digitChar n) = some n := by decide

theorem hex4_unicodeEscape {n : Nat} (hn : n < 65536) :
    hex4 (Nat.digitChar (n / 4096 % 16)) (Nat.digitChar (n / 256 % 16))
      (Nat.digitChar (n / 16 % 16)) (Nat.digitChar (n % 16)) = some n := by
  have hlt : ∀ m, m % 16 < 16 := fun m => Nat.mod_lt m (by decide)
  simp only [hex4, hexVal_digitChar _ (hlt _), Option.bind_eq_bind, Option.bind_some,
    Option.pure_def, Option.some.injEq]
  omega

theorem byNumber_lt {c : Char} (h : byNumber c = true) : c.toNat < 65536 := by
  simp only [byNumber, Bool.or_eq_true, decide_eq_true_eq] at h
  rcases h with ((((h | rfl) | rfl) | rfl) | rfl) | rfl
  · omega
  all_goals decide

theorem parseUnits_quote (cs : List Char) : parseUnits ('"' :: cs) = some ([], cs) := by
  rw [parseUnits.eq_def]
  rfl

theorem parseUnits_unicode (a b c d : Char) (cs : List Char) :
    parseUnits ('\\' :: 'u' :: a :: b :: c :: d :: cs) =
      (hex4 a b c d).bind fun u => (parseUnits cs).map (consUnit u) := by
  rw [parseUnits.eq_def]
  rfl

theorem parseUnits_simple {e : Char} (he : e ≠ 'u') (cs : List Char) :
    parseUnits ('\\' :: e :: cs) =
      (simpleEscape e).bind fun u => (parseUnits cs).map (consUnit u) := by
  rw [parseUnits.eq_def]
  exact if_neg he

theorem parseUnits_char {c : Char} (hquote : c ≠ '"') (hback : c ≠ '\\') (hlow : ¬ c.toNat < 32)
    (cs : List Char) : parseUnits (c :: cs) = (parseUnits cs).map (consUnit c.toNat) := by
  rw [parseUnits.eq_def]
  exact (if_neg hquote).trans ((if_neg hback).trans (if_neg hlow))

theorem parseUnits_escapeChar (c : Char) (cs : List Char) :
    parseUnits (escapeChar c ++ cs) = (parseUnits cs).map (consUnit c.toNat) := by
  have hsimple : ∀ {e : Char}, e ≠ 'u' → simpleEscape e = some c.toNat →
      parseUnits (['\\', e] ++ cs) = (parseUnits cs).map (consUnit c.toNat) := by
    intro e he hsimple
    rw [List.cons_append, List.singleton_append, parseUnits_simple he, hsimple]
    rfl
  unfold escapeChar
  split_ifs with hquote hback hn hr ht hnumber
  · rw [hquote] at hsimple ⊢
    exact hsimple (by decide) rfl
  · rw [hback] at hsimple ⊢
    exact hsimple (by decide) rfl
  · rw [hn] at hsimple ⊢
    exact hsimple (by decide) rfl
  · rw [hr] at hsimple ⊢
    exact hsimple (by decide) rfl
  · rw [ht] at hsimple ⊢
    exact hsimple (by decide) rfl
  · refine (parseUnits_unicode _ _ _ _ cs).trans ?_
    rw [hex4_unicodeEscape (byNumber_lt hnumber)]
    rfl
  · refine parseUnits_char hquote hback ?_ cs
    intro hlow
    exact hnumber (by simp [byNumber, hlow])

theorem parseUnits_escape (s cs : List Char) :
    parseUnits (escape s ++ '"' :: cs) = some (s.map Char.toNat, cs) := by
  induction s with
  | nil => exact parseUnits_quote cs
  | cons c s ih =>
    rw [escape_cons, List.append_assoc, parseUnits_escapeChar, ih]
    rfl

theorem fromUnits_toNat (s : List Char) : fromUnits (s.map Char.toNat) = s := by
  have hvalid : ∀ c : Char, ¬ (0xD800 ≤ c.toNat ∧ c.toNat < 0xE000) := by
    intro c
    have h : c.toNat < 0xD800 ∨ 0xDFFF < c.toNat ∧ c.toNat < 0x110000 := c.valid
    omega
  induction s with
  | nil => rfl
  | cons c s ih =>
    cases s with
    | nil => simp only [List.map, fromUnits, if_neg (hvalid c), Char.ofNat_toNat]
    | cons d s =>
      have hpair : ¬ (0xD800 ≤ c.toNat ∧ c.toNat < 0xDC00 ∧ 0xDC00 ≤ d.toNat ∧
          d.toNat < 0xE000) := by
        intro h
        exact hvalid c ⟨h.1, by omega⟩
      rw [List.map_cons] at ih
      rw [List.map_cons, List.map_cons, fromUnits, if_neg hpair, if_neg (hvalid c),
        Char.ofNat_toNat, ih]

theorem parseString_escape (s cs : List Char) :
    parseString (escape s ++ '"' :: cs) = some (s, cs) := by
  rw [parseString, parseUnits_escape, Option.map_some, fromUnits_toNat]

end Strings

section Values

/-- A number ends where this text begins. -/
def EndsNumber (rest : List Char) : Prop := ∀ c ∈ rest.head?, isNumberChar c = false

theorem endsNumber_cons {c : Char} (h : isNumberChar c = false) (cs : List Char) :
    EndsNumber (c :: cs) := by
  intro d hd
  cases hd
  exact h

theorem endsNumber_elements (vs : List Json) (rest : List Char) :
    EndsNumber (encodeElements vs ++ rest) := by
  cases vs <;> exact endsNumber_cons rfl _

theorem endsNumber_members (ms : List (List Char × Json)) (rest : List Char) :
    EndsNumber (encodeMembers ms ++ rest) := by
  cases ms <;> exact endsNumber_cons rfl _

theorem parseNumber_append {literal rest : List Char} (h : validNumber literal = true)
    (hchars : ∀ c ∈ literal, isNumberChar c = true) (hrest : EndsNumber rest) :
    parseNumber (literal ++ rest) = some (.number literal, rest) := by
  have hend : rest.takeWhile isNumberChar = [] ∧ rest.dropWhile isNumberChar = rest := by
    cases rest with
    | nil => exact ⟨rfl, rfl⟩
    | cons c rest =>
      have hc : ¬ isNumberChar c = true := Bool.eq_false_iff.mp (hrest c rfl)
      exact ⟨List.takeWhile_cons_of_neg hc, List.dropWhile_cons_of_neg hc⟩
  have htake : (literal ++ rest).takeWhile isNumberChar = literal := by
    rw [List.takeWhile_append_of_pos hchars, hend.1, List.append_nil]
  have hdrop : (literal ++ rest).dropWhile isNumberChar = rest := by
    rw [List.dropWhile_append_of_pos hchars, hend.2]
  simp only [parseNumber, htake, hdrop, h, if_true]

theorem isNumberChar_ne {c : Char} (h : isNumberChar c = true) :
    isSpace c = false ∧ c ≠ ']' ∧ c ≠ '"' ∧ c ≠ '[' ∧ c ≠ '{' := by
  have hne : ∀ {d : Char}, isNumberChar d = false → c ≠ d := by
    intro d hd hc
    rw [hc, hd] at h
    cases h
  refine ⟨?_, hne rfl, hne rfl, hne rfl, hne rfl⟩
  simp only [isSpace, Bool.or_eq_false_iff, decide_eq_false_iff_not]
  exact ⟨⟨⟨hne rfl, hne rfl⟩, hne rfl⟩, hne rfl⟩

/-- The text of a value begins with a character that is neither a space nor the end of an
array. -/
theorem Json.Valid.encode_cons {v : Json} (h : v.Valid) :
    ∃ c cs, v.encode = c :: cs ∧ isSpace c = false ∧ c ≠ ']' := by
  cases h with
  | null => exact ⟨'n', _, rfl, rfl, by decide⟩
  | bool b => cases b <;> exact ⟨_, _, rfl, rfl, by decide⟩
  | @number literal h hchars =>
    cases literal with
    | nil => cases h
    | cons c cs =>
      have hc := isNumberChar_ne (hchars c List.mem_cons_self)
      exact ⟨c, cs, by rw [encode], hc.1, hc.2.1⟩
  | string s => exact ⟨'"', _, by rw [encode], rfl, by decide⟩
  | @array vs h => cases vs <;> exact ⟨'[', _, by rw [encode], rfl, by decide⟩
  | @object ms h => cases ms <;> exact ⟨'{', _, by rw [encode], rfl, by decide⟩

theorem skipSpace_cons {c : Char} (h : isSpace c = false) (cs : List Char) :
    skipSpace (c :: cs) = c :: cs := List.dropWhile_cons_of_neg (Bool.eq_false_iff.mp h)

/-- The values, elements and members that this bound admits are read back. -/
structure ReadsBack (n : Nat) : Prop where
  value : ∀ {v : Json} {rest : List Char}, v.Valid → EndsNumber rest → v.encode.length < n →
    parseValue n (v.encode ++ rest) = some (v, rest)
  elements : ∀ {vs : List Json} (rest : List Char), (∀ v ∈ vs, v.Valid) →
    (encodeElements vs).length < n → parseElements n (encodeElements vs ++ rest) = some (vs, rest)
  member : ∀ {m : List Char × Json} {rest : List Char}, m.2.Valid → EndsNumber rest →
    (encodeMember m).length < n → parseMember n (encodeMember m ++ rest) = some (m, rest)
  members : ∀ {ms : List (List Char × Json)} (rest : List Char), (∀ m ∈ ms, m.2.Valid) →
    (encodeMembers ms).length < n → parseMembers n (encodeMembers ms ++ rest) = some (ms, rest)

theorem ReadsBack.parseValue {n : Nat} (hr : ReadsBack n) {v : Json} {rest : List Char}
    (hv : v.Valid) (hrest : EndsNumber rest) (hn : v.encode.length < n + 1) :
    Lib.parseValue (n + 1) (v.encode ++ rest) = some (v, rest) := by
  cases hv with
  | null => rfl
  | bool b => cases b <;> rfl
  | @number literal h hchars =>
    cases literal with
    | nil => cases h
    | cons c cs =>
      obtain ⟨hspace, -, hquote, hbracket, hbrace⟩ := isNumberChar_ne (hchars c List.mem_cons_self)
      have hnumber := parseNumber_append h hchars hrest
      rw [List.cons_append] at hnumber
      simp only [Json.encode, List.cons_append, Lib.parseValue, skipSpace_cons hspace,
        if_neg hquote, if_neg hbracket, if_neg hbrace, hchars c List.mem_cons_self, if_true,
        hnumber]
  | string s =>
    have hstring := parseString_escape s rest
    simp only [Json.encode, List.cons_append, List.append_assoc, List.nil_append, Lib.parseValue,
      skipSpace_cons (c := '"') rfl, if_true, hstring, Option.map_some]
  | @array vs h =>
    cases vs with
    | nil => rfl
    | cons v vs =>
      obtain ⟨hv, hvs⟩ := List.forall_mem_cons.mp h
      obtain ⟨c, cs, hc, hspace, hclose⟩ := hv.encode_cons
      simp only [Json.encode, List.length_cons, List.length_append] at hn
      have hvalue := hr.value hv (endsNumber_elements vs rest) (by omega)
      have helements := hr.elements rest hvs (by omega)
      rw [hc, List.cons_append] at hvalue
      simp only [Json.encode, hc, List.cons_append, List.append_assoc, Lib.parseValue,
        skipSpace_cons (c := '[') rfl, skipSpace_cons hspace]
      rw [if_neg (by decide), if_pos trivial]
      split
      · rename_i heq
        exact absurd (List.cons.inj heq).1 hclose
      · simp only [hvalue, Option.bind_eq_bind, Option.bind_some, helements, Option.pure_def]
  | @object ms h =>
    cases ms with
    | nil => rfl
    | cons m ms =>
      obtain ⟨hm, hms⟩ := List.forall_mem_cons.mp h
      simp only [Json.encode, List.length_cons, List.length_append] at hn
      have hmember := hr.member hm (endsNumber_members ms rest) (by omega)
      have hmembers := hr.members rest hms (by omega)
      obtain ⟨cs, hcs⟩ : ∃ cs, encodeMember m = '"' :: cs := ⟨_, by rw [encodeMember]⟩
      rw [hcs, List.cons_append] at hmember
      simp only [Json.encode, hcs, List.cons_append, List.append_assoc, Lib.parseValue,
        skipSpace_cons (c := '{') rfl, skipSpace_cons (c := '"') rfl]
      rw [if_neg (by decide), if_neg (by decide), if_pos trivial]
      show (parseMember n ('"' :: (cs ++ (encodeMembers ms ++ rest)))).bind _ = _
      simp only [hmember, Option.bind_eq_bind, Option.bind_some, hmembers, Option.pure_def]

theorem ReadsBack.parseElements {n : Nat} (hr : ReadsBack n) {vs : List Json} (rest : List Char)
    (hvs : ∀ v ∈ vs, v.Valid) (hn : (encodeElements vs).length < n + 1) :
    Lib.parseElements (n + 1) (encodeElements vs ++ rest) = some (vs, rest) := by
  cases vs with
  | nil => rfl
  | cons v vs =>
    obtain ⟨hv, hvs⟩ := List.forall_mem_cons.mp hvs
    simp only [encodeElements, List.length_cons, List.length_append] at hn
    have hvalue := hr.value hv (endsNumber_elements vs rest) (by omega)
    have helements := hr.elements rest hvs (by omega)
    simp only [encodeElements, List.cons_append, List.append_assoc, Lib.parseElements,
      skipSpace_cons (c := ',') rfl, hvalue, Option.bind_eq_bind, Option.bind_some, helements,
      Option.pure_def]

theorem ReadsBack.parseMember {n : Nat} (hr : ReadsBack n) {m : List Char × Json}
    {rest : List Char} (hm : m.2.Valid) (hrest : EndsNumber rest)
    (hn : (encodeMember m).length < n + 1) :
    Lib.parseMember (n + 1) (encodeMember m ++ rest) = some (m, rest) := by
  obtain ⟨key, v⟩ := m
  simp only [encodeMember, List.length_cons, List.length_append] at hn
  have hkey := parseString_escape key (':' :: (v.encode ++ rest))
  have hvalue := hr.value hm hrest (by dsimp only; omega)
  simp only [encodeMember, List.cons_append, List.append_assoc, Lib.parseMember,
    skipSpace_cons (c := '"') rfl, hkey, Option.bind_eq_bind, Option.bind_some,
    skipSpace_cons (c := ':') rfl, hvalue, Option.pure_def]

theorem ReadsBack.parseMembers {n : Nat} (hr : ReadsBack n) {ms : List (List Char × Json)}
    (rest : List Char) (hms : ∀ m ∈ ms, m.2.Valid) (hn : (encodeMembers ms).length < n + 1) :
    Lib.parseMembers (n + 1) (encodeMembers ms ++ rest) = some (ms, rest) := by
  cases ms with
  | nil => rfl
  | cons m ms =>
    obtain ⟨hm, hms⟩ := List.forall_mem_cons.mp hms
    simp only [encodeMembers, List.length_cons, List.length_append] at hn
    have hmember := hr.member hm (endsNumber_members ms rest) (by omega)
    have hmembers := hr.members rest hms (by omega)
    simp only [encodeMembers, List.cons_append, List.append_assoc, Lib.parseMembers,
      skipSpace_cons (c := ',') rfl, hmember, Option.bind_eq_bind, Option.bind_some, hmembers,
      Option.pure_def]

theorem readsBack (n : Nat) : ReadsBack n := by
  induction n with
  | zero =>
    exact ⟨fun _ _ h => absurd h (Nat.not_lt_zero _), fun _ _ h => absurd h (Nat.not_lt_zero _),
      fun _ _ h => absurd h (Nat.not_lt_zero _), fun _ _ h => absurd h (Nat.not_lt_zero _)⟩
  | succ n ih => exact ⟨ih.parseValue, ih.parseElements, ih.parseMember, ih.parseMembers⟩

theorem Json.parse_encode {v : Json} (h : v.Valid) : parse v.encode = some v := by
  have hends : EndsNumber [] := fun _ h => absurd h (by simp)
  have hread := (readsBack (v.encode.length + 1)).value h hends (Nat.lt_succ_self _)
  rw [List.append_nil] at hread
  simp only [parse, hread]
  rfl

end Values

section Numbers

theorem skipInteger_repr (n : Nat) : skipInteger n.repr.toList = some [] := by
  rcases Nat.eq_zero_or_pos n with rfl | hn
  · rfl
  · obtain ⟨c, cs, hcs, hc⟩ := repr_head hn
    have hdigits : ∀ d ∈ c :: cs, d.isDigit = true := by
      intro d hd
      rw [← hcs, repr_toList] at hd
      exact Nat.isDigit_of_mem_toDigits (by decide) (by decide) hd
    obtain ⟨hfirst, hrest⟩ := List.forall_mem_cons.mp hdigits
    have hskip : skipInteger (c :: cs) = skipDigits (c :: cs) := by
      unfold skipInteger
      split
      · rename_i heq
        exact absurd (List.cons.inj heq).1 hc
      · rfl
    rw [hcs, hskip, skipDigits, if_pos hfirst, List.dropWhile_eq_nil_iff.mpr hrest]

/-- The decimal text of a number is a number of JSON. -/
theorem validNumber_toString (p : Int) : validNumber (toString p).toList = true := by
  cases p with
  | ofNat n =>
    have hunsigned : skipSign n.repr.toList = n.repr.toList := by
      unfold skipSign
      split
      · next heq => exact absurd (heq ▸ List.mem_cons_self) (not_mem_repr (c := '-') rfl n)
      · rfl
    rw [ofNat_toList, validNumber, hunsigned, skipInteger_repr]
    rfl
  | negSucc n =>
    rw [negSucc_toList, validNumber, skipSign, skipInteger_repr]
    rfl

theorem isNumberChar_toString (p : Int) : ∀ c ∈ (toString p).toList, isNumberChar c = true := by
  intro c hc
  cases hdigit : c.isDigit with
  | true => simp [isNumberChar, hdigit]
  | false =>
    by_cases hminus : c = '-'
    · rw [hminus]
      rfl
    · exact absurd hc (not_mem_toString hdigit hminus p)

theorem Json.valid_number (p : Int) : (Json.number (toString p).toList).Valid :=
  .number (validNumber_toString p) (isNumberChar_toString p)

end Numbers

section Printed

/-- A value in the text of a program that escapes nothing. -/
def printValue : Json → List Char
  | .string s => '"' :: (s ++ ['"'])
  | v => v.encode

/-- A member with or without a blank before its value. -/
def printMember (m : Bool × List Char × Json) : List Char :=
  '"' :: (m.2.1 ++ '"' :: ':' :: ((if m.1 then [' '] else []) ++ printValue m.2.2))

def printMembers : List (Bool × List Char × Json) → List Char
  | [] => ['}']
  | m :: ms => ',' :: (printMember m ++ printMembers ms)

/-- There is nothing to be escaped. -/
structure Plain (m : Bool × List Char × Json) : Prop where
  valid : m.2.2.Valid
  key : escape m.2.1 = m.2.1
  value : printValue m.2.2 = m.2.2.encode

theorem parseValue_blank (n : Nat) (blank : Bool) (cs : List Char) :
    parseValue n ((if blank then [' '] else []) ++ cs) = parseValue n cs := by
  cases n <;> cases blank <;> rfl

variable {m : Bool × List Char × Json} {ms : List (Bool × List Char × Json)} {n : Nat}

theorem Plain.parseMember (hm : Plain m) (ms : List (Bool × List Char × Json))
    (hn : (printMember m).length ≤ n) :
    Lib.parseMember n (printMember m ++ printMembers ms) = some (m.2, printMembers ms) := by
  simp only [printMember, hm.value, List.length_cons, List.length_append] at hn
  obtain ⟨n, rfl⟩ := Nat.exists_eq_succ_of_ne_zero (n := n) (by omega)
  have hends : EndsNumber (printMembers ms) := by
    cases ms <;> exact endsNumber_cons rfl _
  have hvalue := (readsBack n).value hm.valid hends (by omega)
  have hkey := parseString_escape m.2.1
  rw [hm.key] at hkey
  simp only [printMember, hm.value, List.cons_append, List.append_assoc, Lib.parseMember,
    skipSpace_cons (c := '"') rfl, hkey, Option.bind_eq_bind, Option.bind_some,
    skipSpace_cons (c := ':') rfl, parseValue_blank, hvalue, Option.pure_def]

theorem parseMembers_print (hms : ∀ m ∈ ms, Plain m) (hn : (printMembers ms).length ≤ n) :
    parseMembers n (printMembers ms) = some (ms.map (·.2), []) := by
  induction ms generalizing n with
  | nil =>
    obtain ⟨n, rfl⟩ := Nat.exists_eq_succ_of_ne_zero (Nat.one_le_iff_ne_zero.mp hn)
    rfl
  | cons m ms ih =>
    obtain ⟨hm, hms⟩ := List.forall_mem_cons.mp hms
    simp only [printMembers, List.length_cons, List.length_append] at hn
    obtain ⟨n, rfl⟩ := Nat.exists_eq_succ_of_ne_zero (n := n) (by omega)
    have hmember := hm.parseMember (n := n) ms (by omega)
    simp only [printMembers, parseMembers, skipSpace_cons (c := ',') rfl, hmember,
      Option.bind_eq_bind, Option.bind_some, ih hms (n := n) (by omega), Option.pure_def,
      List.map_cons]

/-- Members without anything to escape are read back wherever the blanks are. -/
theorem Json.parse_print (hms : ∀ x ∈ m :: ms, Plain x) :
    parse ('{' :: (printMember m ++ printMembers ms)) =
      some (.object ((m :: ms).map (·.2))) := by
  obtain ⟨hm, hms⟩ := List.forall_mem_cons.mp hms
  obtain ⟨n, hn⟩ : ∃ n, n = (printMember m ++ printMembers ms).length + 1 := ⟨_, rfl⟩
  have hmember := hm.parseMember (n := n) ms (by rw [hn, List.length_append]; omega)
  have hmembers := parseMembers_print (n := n) hms (by rw [hn, List.length_append]; omega)
  have hvalue : parseValue (n + 1) ('{' :: (printMember m ++ printMembers ms)) =
      some (.object ((m :: ms).map (·.2)), []) := by
    change (Lib.parseMember n (printMember m ++ printMembers ms)).bind _ = _
    simp only [hmember, Option.bind_eq_bind, Option.bind_some, hmembers, Option.pure_def,
      List.map_cons]
  simp only [parse, List.length_cons, ← hn, hvalue]
  rfl

end Printed

end Speedy.Lib
