import Speedy.Lib.Json
import Speedy.Lib.Printf

/-! # JSON that is printed as a format

A JSON text that gets to `fprintf` as the format: what becomes of its strings. A directive in
a string is harmless if it ends before the string does, with a verb that JSON writes as
itself; then the text is still that of a value, with another string in this place. -/
namespace Speedy.Lib

/-- A text in a string is printed as another one. The quote and the bracket stand for what
follows it: a bracket that is opened in a directive would be closed behind the string. -/
inductive PrintsAs : List Char → List Char → Prop
  | nil : PrintsAs [] []
  | char {c : Char} {s t : List Char} (hc : c ≠ '%') (h : PrintsAs s t) : PrintsAs (c :: s) (c :: t)
  | directive {s r t : List Char} {verb : Char}
      (hscan : (Directive.scan (s ++ ['"', ']'])).rest = verb :: (r ++ ['"', ']']))
      (hverb : escapeChar verb = [verb]) (h : PrintsAs r t) :
      PrintsAs ('%' :: s) ((Directive.print (s ++ ['"', ']'])).1 ++ t)

theorem PrintsAs.refl {s : List Char} (h : '%' ∉ s) : PrintsAs s s := by
  induction s with
  | nil => exact .nil
  | cons c s ih =>
    rw [List.mem_cons, not_or] at h
    exact .char (Ne.symm h.1) (ih h.2)

section Escapes
variable {c : Char}

/-- A character is written as itself, or it is escaped. -/
theorem escapeChar_cases (c : Char) :
    escapeChar c = [c] ∧ c ≠ '\\' ∨
      ∃ cs, escapeChar c = '\\' :: cs ∧ ']' ∉ cs ∧ '%' ∉ cs := by
  have hdigit : ∀ n, n % 16 < 16 := fun n => Nat.mod_lt n (by decide)
  have hbracket : ∀ n < 16, ']' ≠ Nat.digitChar n := by decide
  have hpercent : ∀ n < 16, '%' ≠ Nat.digitChar n := by decide
  unfold escapeChar
  split_ifs with hquote hback
  · exact .inr ⟨_, rfl, by decide, by decide⟩
  · exact .inr ⟨_, rfl, by decide, by decide⟩
  · exact .inr ⟨_, rfl, by decide, by decide⟩
  · exact .inr ⟨_, rfl, by decide, by decide⟩
  · exact .inr ⟨_, rfl, by decide, by decide⟩
  · refine .inr ⟨_, rfl, ?_, ?_⟩
    · simp only [List.mem_cons, List.not_mem_nil, or_false, not_or]
      exact ⟨by decide, hbracket _ (hdigit _), hbracket _ (hdigit _), hbracket _ (hdigit _),
        hbracket _ (hdigit _)⟩
    · simp only [List.mem_cons, List.not_mem_nil, or_false, not_or]
      exact ⟨by decide, hpercent _ (hdigit _), hpercent _ (hdigit _), hpercent _ (hdigit _),
        hpercent _ (hdigit _)⟩
  · exact .inl ⟨rfl, hback⟩

theorem escapeChar_of_isDigit (h : c.isDigit = true) : escapeChar c = [c] := by
  have hne : ∀ {d : Char}, d.isDigit = false → c ≠ d := by
    intro d hd hc
    rw [hc, hd] at h
    cases h
  have hlow : ¬ c.toNat < 32 := by
    have hge : 48 ≤ c.toNat := (Char.isDigit_iff_toNat.mp h).1
    omega
  simp only [escapeChar, byNumber, hne (d := '"') rfl, hne (d := '\\') rfl, hne (d := '\n') rfl,
    hne (d := '\r') rfl, hne (d := '\t') rfl, hlow, hne (d := '<') rfl, hne (d := '>') rfl,
    hne (d := '&') rfl, hne (d := '\u2028') rfl, hne (d := '\u2029') rfl, if_false, decide_false,
    Bool.or_self, Bool.false_eq_true]

theorem escapeChar_of_isFlag (h : isFlag c = true) : escapeChar c = [c] := by
  simp only [isFlag, Bool.or_eq_true, decide_eq_true_eq] at h
  rcases h with (((rfl | rfl) | rfl) | rfl) | rfl <;> decide

end Escapes

section Scanning
variable (cs : List Char)

/-- In a string the text is escaped, and a quote and something else follow it. -/
theorem dropWhile_escape {p : Char → Bool} (hquote : p '"' = false) (hback : p '\\' = false)
    (hp : ∀ c, p c = true → escapeChar c = [c]) (a : List Char) :
    (escape a ++ '"' :: cs).dropWhile p = escape (a.dropWhile p) ++ '"' :: cs := by
  induction a with
  | nil => exact List.dropWhile_cons_of_neg (Bool.eq_false_iff.mp hquote)
  | cons c a ih =>
    cases hc : p c with
    | true =>
      rw [List.dropWhile_cons_of_pos hc, escape_cons, hp c hc, List.append_assoc,
        List.singleton_append, List.dropWhile_cons_of_pos hc, ih]
    | false =>
      have hneg : ¬ p c = true := Bool.eq_false_iff.mp hc
      rw [List.dropWhile_cons_of_neg hneg, escape_cons, List.append_assoc]
      rcases escapeChar_cases c with ⟨hself, -⟩ | ⟨t, hself, -⟩
      · rw [hself]
        exact List.dropWhile_cons_of_neg hneg
      · rw [hself]
        exact List.dropWhile_cons_of_neg (Bool.eq_false_iff.mp hback)

theorem dropWhile_quote {p : Char → Bool} (hquote : p '"' = false) (a : List Char) :
    (a ++ '"' :: cs).dropWhile p = a.dropWhile p ++ '"' :: cs := by
  induction a with
  | nil => exact List.dropWhile_cons_of_neg (Bool.eq_false_iff.mp hquote)
  | cons c a ih =>
    cases hc : p c with
    | true =>
      rw [List.cons_append, List.dropWhile_cons_of_pos hc, List.dropWhile_cons_of_pos hc, ih]
    | false =>
      have hneg : ¬ p c = true := Bool.eq_false_iff.mp hc
      rw [List.cons_append, List.dropWhile_cons_of_neg hneg, List.dropWhile_cons_of_neg hneg]
      rfl

/-- A number in a string: it is too large, or it ends before the string does. -/
theorem parsenum_escape (num : Nat) (isnum : Bool) (a : List Char) :
    (∀ cs, parsenum num isnum (a ++ '"' :: cs) = (false, []) ∧
      parsenum num isnum (escape a ++ '"' :: cs) = (false, [])) ∨
    ∃ b a', ∀ cs, parsenum num isnum (a ++ '"' :: cs) = (b, a' ++ '"' :: cs) ∧
      parsenum num isnum (escape a ++ '"' :: cs) = (b, escape a' ++ '"' :: cs) := by
  induction a generalizing num isnum with
  | nil => exact .inr ⟨isnum, [], fun cs => ⟨rfl, rfl⟩⟩
  | cons c a ih =>
    cases hc : c.isDigit with
    | true =>
      simp only [escape_cons, escapeChar_of_isDigit hc, List.cons_append, List.nil_append, parsenum,
        hc, if_true]
      split
      · exact .inl fun cs => ⟨rfl, rfl⟩
      · exact ih _ _
    | false =>
      refine .inr ⟨isnum, c :: a, fun cs => ⟨?_, ?_⟩⟩
      · simp only [List.cons_append, parsenum, hc, Bool.false_eq_true, if_false]
      · rw [escape_cons, List.append_assoc]
        rcases escapeChar_cases c with ⟨hself, -⟩ | ⟨t, hself, -⟩
        · simp only [hself, List.cons_append, parsenum, hc, Bool.false_eq_true, if_false]
        · rw [hself]
          rfl

theorem parsenum_index (num : Nat) (isnum : Bool) (a : List Char) :
    parsenum num isnum (escape a) = (true, []) ↔ parsenum num isnum a = (true, []) := by
  induction a generalizing num isnum with
  | nil => exact Iff.rfl
  | cons c a ih =>
    cases hc : c.isDigit with
    | true =>
      simp only [escape_cons, escapeChar_of_isDigit hc, List.cons_append, List.nil_append, parsenum,
        hc, if_true]
      split
      · exact Iff.rfl
      · exact ih _ _
    | false =>
      have hnot : ¬ parsenum num isnum (c :: a) = (true, []) := by
        simp [parsenum, hc]
      refine iff_of_false ?_ hnot
      rw [escape_cons]
      rcases escapeChar_cases c with ⟨hself, -⟩ | ⟨t, hself, -⟩
      · simp [hself, parsenum, hc]
      · rw [hself]
        intro h
        cases (Prod.mk.inj h).2

/-- A character with a meaning in directives begins the rest of a string, or does not, also
when the string is escaped. -/
theorem head_cases {x : Char} (hquote : x ≠ '"') (hback : x ≠ '\\') (a : List Char) :
    (∃ b, a = x :: b) ∨
      ∀ cs t : List Char, a ++ '"' :: cs ≠ x :: t ∧ escape a ++ '"' :: cs ≠ x :: t := by
  cases a with
  | nil =>
    refine .inr fun cs t => ⟨?_, ?_⟩
    · intro h
      exact hquote (List.cons.inj h).1.symm
    · intro h
      exact hquote (List.cons.inj h).1.symm
  | cons c a =>
    by_cases hc : c = x
    · exact .inl ⟨a, by rw [hc]⟩
    · refine .inr fun cs t => ⟨fun h => hc (List.cons.inj h).1, ?_⟩
      rw [escape_cons, List.append_assoc]
      rcases escapeChar_cases c with ⟨hself, -⟩ | ⟨u, hself, -⟩
      · rw [hself]
        exact fun h => hc (List.cons.inj h).1
      · rw [hself]
        exact fun h => hback (List.cons.inj h).1.symm

end Scanning

/-! ## A directive in a string -/

theorem escape_append (s t : List Char) : escape (s ++ t) = escape s ++ escape t :=
  List.flatMap_append

theorem not_mem_escape {s : List Char} (h : ']' ∉ s) : ']' ∉ escape s := by
  intro hmem
  obtain ⟨c, hc, hmem⟩ := List.mem_flatMap.mp hmem
  rcases escapeChar_cases c with ⟨hself, -⟩ | ⟨t, hself, ht, -⟩
  · rw [hself, List.mem_singleton] at hmem
    exact h (hmem ▸ hc)
  · rw [hself, List.mem_cons] at hmem
    rcases hmem with hmem | hmem
    · cases hmem
    · exact ht hmem

/-- What follows the next closing bracket. -/
def afterBracket (cs : List Char) : List Char := (cs.dropWhile Directive.inIndex).tail

/-- A directive is read in a string and in the escaped text of the string; it has stayed in
the string. -/
def Within (cs : List Char) (plain escaped : Directive) : Prop :=
  ∃ a, plain.rest = a ++ ['"', ']'] ∧ escaped = { plain with rest := escape a ++ '"' :: cs }

/-- It has just left the string: it is behind the next bracket, or at the end of the format. -/
def Leaves (cs : List Char) (plain escaped : Directive) : Prop :=
  plain.rest = [] ∧ (escaped.rest = [] ∨ (']' ∈ cs → escaped.rest = afterBracket cs))

/-- It has left the string. -/
def Beyond (cs : List Char) (plain escaped : Directive) : Prop :=
  plain.rest = [] ∧ (']' ∈ cs → escaped.rest <:+ afterBracket cs)

section Stages
variable {cs : List Char} {plain escaped : Directive}

theorem Leaves.beyond (h : Leaves cs plain escaped) : Beyond cs plain escaped := by
  refine ⟨h.1, fun hcs => ?_⟩
  rcases h.2 with hnil | hafter
  · exact hnil ▸ List.nil_suffix
  · exact hafter hcs ▸ List.suffix_refl _

theorem Beyond.next (h : Beyond cs plain escaped) {f : Directive → Directive}
    (hf : ∀ d, (f d).rest <:+ d.rest) : Beyond cs (f plain) (f escaped) := by
  exact ⟨List.suffix_nil.mp (h.1 ▸ hf plain), fun hcs => (hf escaped).trans (h.2 hcs)⟩

theorem afterBracket_append {x : List Char} (hx : ']' ∉ x) (cs : List Char) :
    afterBracket (x ++ ']' :: cs) = cs := by
  rw [afterBracket, (Directive.takeWhile_inIndex hx cs).2, List.tail_cons]

/-- An index that is not closed in the string is closed behind it. -/
theorem argNumber_beyond {d : Directive} {b : List Char} (hb : ']' ∉ b) (hcs : ']' ∈ cs)
    (hrest : d.rest = '[' :: (b ++ '"' :: cs)) : d.argNumber.rest = afterBracket cs := by
  obtain ⟨x, t, rfl, hx⟩ := List.eq_append_cons_of_mem hcs
  have hindex : ']' ∉ b ++ '"' :: x := by
    simp only [List.mem_append, List.mem_cons, not_or]
    exact ⟨hb, by decide, hx⟩
  have hlength : 0 < (b ++ '"' :: x).length + t.length := by
    rw [List.length_append, List.length_cons]
    omega
  rw [Directive.argNumber_closed t hindex hlength (by simpa using hrest), afterBracket_append hx]

theorem Within.argNumber (h : Within cs plain escaped) :
    Within cs plain.argNumber escaped.argNumber ∨ Leaves cs plain.argNumber escaped.argNumber := by
  obtain ⟨a, ha, rfl⟩ := h
  rcases head_cases (x := '[') (by decide) (by decide) a with ⟨b, rfl⟩ | hne
  · by_cases hb : ']' ∈ b
    · obtain ⟨index, r, rfl, hindex⟩ := List.eq_append_cons_of_mem hb
      have hplain := plain.argNumber_closed (r ++ ['"', ']']) hindex
        (by simp only [List.length_append, List.length_cons]; omega) (by simpa using ha)
      have hescaped := Directive.argNumber_closed
        (d := { plain with rest := escape ('[' :: (index ++ ']' :: r)) ++ '"' :: cs })
        (escape r ++ '"' :: cs) (not_mem_escape hindex)
        (by simp only [List.length_append, List.length_cons]; omega)
        (by simp [escape_cons, escape_append, escapeChar, byNumber])
      rw [hplain, hescaped]
      exact .inl ⟨r, rfl, by simp only [parsenum_index]⟩
    · refine .inr ⟨argNumber_beyond hb List.mem_cons_self ha, .inr fun hcs => ?_⟩
      exact argNumber_beyond (not_mem_escape hb) hcs rfl
  · have hplain := plain.argNumber_of_ne fun t => ha ▸ (hne [']'] t).1
    have hescaped := Directive.argNumber_of_ne
      (d := { plain with rest := escape a ++ '"' :: cs }) fun t => (hne cs t).2
    rw [hplain, hescaped]
    exact .inl ⟨a, ha, rfl⟩

theorem Within.width (h : Within cs plain escaped) :
    Within cs plain.width escaped.width ∨ Leaves cs plain.width escaped.width := by
  obtain ⟨a, ha, rfl⟩ := h
  rcases head_cases (x := '*') (by decide) (by decide) a with ⟨b, rfl⟩ | hne
  · refine .inl ⟨b, ?_, ?_⟩
    · simp [Directive.width, ha]
    · simp [Directive.width, ha, escape_cons, escapeChar, byNumber]
  · have hplain := plain.width_of_ne fun t => ha ▸ (hne [']'] t).1
    have hescaped := Directive.width_of_ne
      (d := { plain with rest := escape a ++ '"' :: cs }) fun t => (hne cs t).2
    rw [hplain, hescaped, ha]
    rcases parsenum_escape 0 false a with hlarge | ⟨b, a', hnum⟩
    · rw [(hlarge [']']).1, (hlarge cs).2]
      exact .inr ⟨rfl, .inl rfl⟩
    · rw [(hnum [']']).1, (hnum cs).2]
      exact .inl ⟨a', rfl, rfl⟩

theorem Within.precisionNumber (h : Within cs plain escaped) :
    Within cs plain.precisionNumber escaped.precisionNumber ∨
      Leaves cs plain.precisionNumber escaped.precisionNumber := by
  obtain ⟨a, ha, rfl⟩ := h
  rcases head_cases (x := '*') (by decide) (by decide) a with ⟨b, rfl⟩ | hne
  · refine .inl ⟨b, ?_, ?_⟩
    · simp [Directive.precisionNumber, ha]
    · simp [Directive.precisionNumber, ha, escape_cons, escapeChar, byNumber]
  · have hplain := plain.precisionNumber_of_ne fun t => ha ▸ (hne [']'] t).1
    have hescaped := Directive.precisionNumber_of_ne
      (d := { plain with rest := escape a ++ '"' :: cs }) fun t => (hne cs t).2
    rw [hplain, hescaped, ha]
    rcases parsenum_escape 0 false a with hlarge | ⟨b, a', hnum⟩
    · rw [(hlarge [']']).1, (hlarge cs).2]
      exact .inr ⟨rfl, .inl rfl⟩
    · rw [(hnum [']']).1, (hnum cs).2]
      exact .inl ⟨a', rfl, rfl⟩

theorem Within.precision (h : Within cs plain escaped) :
    Within cs plain.precision escaped.precision ∨
      Beyond cs plain.precision escaped.precision := by
  obtain ⟨a, ha, rfl⟩ := h
  rcases head_cases (x := '.') (by decide) (by decide) a with ⟨b, rfl⟩ | hne
  · have hstart : Within cs
        { plain with
          goodArgNum := plain.goodArgNum && !plain.afterIndex
          rest := b ++ ['"', ']'] }
        { plain with
          goodArgNum := plain.goodArgNum && !plain.afterIndex
          rest := escape b ++ '"' :: cs } := ⟨b, rfl, rfl⟩
    simp only [Directive.precision, ha, escape_cons, escapeChar]
    rcases hstart.argNumber with hwithin | hleaves
    · exact hwithin.precisionNumber.imp_right Leaves.beyond
    · exact .inr (hleaves.beyond.next Directive.precisionNumber_suffix)
  · have hplain := plain.precision_of_ne fun t => ha ▸ (hne [']'] t).1
    have hescaped := Directive.precision_of_ne
      (d := { plain with rest := escape a ++ '"' :: cs }) fun t => (hne cs t).2
    rw [hplain, hescaped]
    exact .inl ⟨a, ha, rfl⟩

theorem Within.verbIndex (h : Within cs plain escaped) :
    Within cs plain.verbIndex escaped.verbIndex ∨
      Beyond cs plain.verbIndex escaped.verbIndex := by
  have hsame : escaped.afterIndex = plain.afterIndex := by
    obtain ⟨a, -, rfl⟩ := h
    rfl
  unfold Directive.verbIndex
  rw [hsame]
  split
  · exact .inl h
  · exact h.argNumber.imp_right Leaves.beyond

/-- A directive stays in its string or ends behind the next bracket. -/
theorem scan_escape (cs s : List Char) :
    Within cs (Directive.scan (s ++ ['"', ']'])) (Directive.scan (escape s ++ '"' :: cs)) ∨
      Beyond cs (Directive.scan (s ++ ['"', ']'])) (Directive.scan (escape s ++ '"' :: cs)) := by
  have hflags : Within cs ⟨[], true, false, (s ++ ['"', ']']).dropWhile isFlag⟩
      ⟨[], true, false, (escape s ++ '"' :: cs).dropWhile isFlag⟩ := by
    rw [dropWhile_quote _ rfl, dropWhile_escape cs rfl rfl fun c => escapeChar_of_isFlag]
    exact ⟨_, rfl, rfl⟩
  -- once a directive has left the string, it does not come back
  rcases hflags.argNumber with h | h
  · rcases h.width with h | h
    · rcases h.precision with h | h
      · exact h.verbIndex
      · exact .inr (h.next Directive.verbIndex_suffix)
    · exact .inr ((h.beyond.next Directive.precision_suffix).next Directive.verbIndex_suffix)
  · exact .inr (((h.beyond.next Directive.width_suffix).next Directive.precision_suffix).next
      Directive.verbIndex_suffix)

end Stages

/-! ## Harmless strings -/

theorem print_of_rest {cs rest : List Char} {verb : Char}
    (h : (Directive.scan cs).rest = verb :: rest) :
    Directive.print cs = ((Directive.scan cs).out ++
      Directive.verbText (Directive.scan cs).goodArgNum verb, rest) := by
  simp only [Directive.print, h]

theorem percent_not_mem_escapeChar {c : Char} (hc : c ≠ '%') : '%' ∉ escapeChar c := by
  rcases escapeChar_cases c with ⟨hself, -⟩ | ⟨t, hself, -, ht⟩
  · rw [hself, List.mem_singleton]
    exact hc.symm
  · rw [hself, List.mem_cons, not_or]
    exact ⟨by decide, ht⟩

/-- What a directive writes needs no escapes, unless its verb does. -/
theorem escape_print {cs rest : List Char} {verb : Char}
    (h : (Directive.scan cs).rest = verb :: rest) (hverb : escapeChar verb = [verb]) :
    escape (Directive.print cs).1 = (Directive.print cs).1 := by
  have hout : ∀ out ∈ [[], "%!(BADWIDTH)".toList, "%!(BADPREC)".toList,
      "%!(BADWIDTH)%!(BADPREC)".toList], escape out = out := by decide
  have htext : ∀ good, escape (Directive.verbText good verb) = Directive.verbText good verb := by
    intro good
    unfold Directive.verbText
    split_ifs
    · decide
    · rw [escape_append, escape_cons, hverb]
      rfl
    · rw [escape_append, escape_cons, hverb]
      rfl
  rw [print_of_rest h, escape_append, hout _ (Directive.scan_out cs), htext]

/-- What a string is printed as is found in its place. -/
theorem PrintsAs.fprintf {s t : List Char} (h : PrintsAs s t) (cs : List Char) :
    fprintf (escape s ++ '"' :: cs) = escape t ++ '"' :: fprintf cs := by
  induction h with
  | nil => exact fprintf_char (by decide) cs
  | @char c s t hc h ih =>
    rw [escape_cons, escape_cons, List.append_assoc, List.append_assoc,
      fprintf_append (percent_not_mem_escapeChar hc), ih]
  | @directive s r t verb hscan hverb h ih =>
    obtain ⟨a, ha, hescaped⟩ := (scan_escape cs s).resolve_right fun hbeyond => by
      rw [hbeyond.1] at hscan
      cases hscan
    obtain rfl : a = verb :: r := List.append_cancel_right (ha.symm.trans hscan)
    have hrest : (Directive.scan (escape s ++ '"' :: cs)).rest =
        verb :: (escape r ++ '"' :: cs) := by
      rw [hescaped, escape_cons, hverb]
      rfl
    have hprint : Directive.print (escape s ++ '"' :: cs) =
        ((Directive.print (s ++ ['"', ']'])).1, escape r ++ '"' :: cs) := by
      rw [print_of_rest hrest, print_of_rest hscan, hescaped]
    have hpercent : escape ('%' :: s) = '%' :: escape s := rfl
    rw [hpercent, List.cons_append, fprintf_directive, hprint, ih, escape_append,
      escape_print hscan hverb, List.append_assoc]

/-! ## Strings that are printed as they are -/

section Unchanged
variable {s t : List Char}

/-- Each `%` is the last character, or `!` follows it. -/
def Complains (w : List Char) : Prop :=
  ∀ x y, w = x ++ '%' :: y → y ≠ [] → ∃ z, y = '!' :: z

theorem Complains.append {p w : List Char} (hp : '%' ∉ p) (hw : Complains w) :
    Complains ('%' :: '!' :: (p ++ w)) := by
  intro x y h hy
  cases x with
  | nil => exact ⟨p ++ w, (List.cons.inj h).2.symm⟩
  | cons c x =>
    obtain ⟨-, h⟩ := List.cons.inj h
    cases x with
    | nil => cases (List.cons.inj h).1
    | cons c' x =>
      obtain ⟨-, h⟩ := List.cons.inj h
      rcases List.append_eq_append_iff.mp h with ⟨g, hx, hw'⟩ | ⟨g, hp', hy'⟩
      · exact hw g y hw' hy
      · cases g with
        | nil => exact hw [] y hy'.symm hy
        | cons e g =>
          obtain ⟨rfl, -⟩ := List.cons.inj hy'
          exact absurd (hp' ▸ List.mem_append_right _ List.mem_cons_self) hp

theorem complains_verbText (good : Bool) (verb : Char) :
    Complains (Directive.verbText good verb) := by
  have hnil : Complains [] := fun x y h _ => by
    cases x <;> cases h
  unfold Directive.verbText
  split_ifs with hverb hgood
  · intro x y h hy
    cases x with
    | nil => exact absurd (List.cons.inj h).2.symm hy
    | cons c x => cases x <;> cases (List.cons.inj h).2
  · have h := hnil.append (p := verb :: "(MISSING)".toList)
      (List.not_mem_cons_of_ne_of_not_mem (Ne.symm hverb) (by decide))
    rwa [List.append_nil] at h
  · have h := hnil.append (p := verb :: "(BADINDEX)".toList)
      (List.not_mem_cons_of_ne_of_not_mem (Ne.symm hverb) (by decide))
    rwa [List.append_nil] at h

theorem complains_print {cs rest : List Char} {verb : Char}
    (hscan : (Directive.scan cs).rest = verb :: rest) : Complains (Directive.print cs).1 := by
  rw [print_of_rest hscan]
  have htext := complains_verbText (Directive.scan cs).goodArgNum verb
  have hout := Directive.scan_out cs
  simp only [List.mem_cons, List.not_mem_nil, or_false] at hout
  rcases hout with h | h | h | h
  · rw [h]
    exact htext
  · rw [h]
    exact htext.append (p := "(BADWIDTH)".toList) (by decide)
  · rw [h]
    exact htext.append (p := "(BADPREC)".toList) (by decide)
  · rw [h]
    exact (htext.append (p := "(BADPREC)".toList) (by decide)).append (p := "(BADWIDTH)".toList)
      (by decide)

theorem PrintsAs.of_append {g : List Char} (hg : '%' ∉ g) (h : PrintsAs (g ++ s) t) :
    ∃ t', t = g ++ t' ∧ PrintsAs s t' := by
  induction g generalizing t with
  | nil => exact ⟨t, rfl, h⟩
  | cons c g ih =>
    rw [List.mem_cons, not_or] at hg
    cases h with
    | char hc h =>
      obtain ⟨t', rfl, h'⟩ := ih hg.2 h
      exact ⟨t', rfl, h'⟩
    | directive => exact absurd rfl hg.1

/-- No text is printed as what is left of it without its begin. -/
theorem not_printsAs_suffix {g : List Char} (hg : '%' ∉ g) (hne : g ≠ []) (t : List Char) :
    ¬ PrintsAs (g ++ t) t := by
  induction hn : t.length using Nat.strongRecOn generalizing t with
  | ind n ih =>
    intro h
    obtain ⟨t', rfl, h'⟩ := h.of_append hg
    refine ih t'.length ?_ t' rfl h'
    have := List.length_pos_iff.mpr hne
    rw [← hn, List.length_append]
    omega

/-- Printing does not make a text that ends in the old one, unless nothing is to be done. -/
theorem PrintsAs.eq_of_suffix (h : PrintsAs s t) {v : List Char} (ht : t = v ++ s) :
    v = [] ∧ '%' ∉ s := by
  induction h generalizing v with
  | nil => exact ⟨(List.append_eq_nil_iff.mp ht.symm).1, List.not_mem_nil⟩
  | @char c s t hc h ih =>
    cases v with
    | nil =>
      obtain ⟨-, hs⟩ := ih (v := []) (List.cons.inj ht).2
      exact ⟨rfl, List.not_mem_cons_of_ne_of_not_mem (Ne.symm hc) hs⟩
    | cons x v =>
      obtain ⟨hnil, -⟩ := ih (v := v ++ [c]) (by rw [(List.cons.inj ht).2]; simp)
      simp at hnil
  | @directive s r t verb hscan hverb h ih =>
    exfalso
    obtain ⟨d, hd⟩ := Directive.scan_suffix (s ++ ['"', ']'])
    rw [hscan] at hd
    obtain rfl : s = d ++ verb :: r := by
      have hcancel : (d ++ verb :: r) ++ ['"', ']'] = s ++ ['"', ']'] := by simpa using hd
      exact (List.append_cancel_right hcancel).symm
    -- what is written ends where the directive ends in the old text, or behind that
    obtain ⟨g, hw, hr⟩ : ∃ g, (Directive.print (d ++ verb :: r ++ ['"', ']'])).1 =
        (v ++ '%' :: (d ++ [verb])) ++ g ∧ (g = [] ∨ r = g ++ t) := by
      have heq : (Directive.print (d ++ verb :: r ++ ['"', ']'])).1 ++ t =
          (v ++ '%' :: (d ++ [verb])) ++ r := by
        rw [ht]
        simp
      rcases List.append_eq_append_iff.mp heq with ⟨g, hP, ht'⟩ | ⟨g, hw, hr⟩
      · obtain ⟨rfl, -⟩ := ih ht'
        exact ⟨[], by rw [hP]; simp, .inl rfl⟩
      · exact ⟨g, hw, .inr hr⟩
    obtain ⟨z, hz⟩ := complains_print hscan v ((d ++ [verb]) ++ g) (by simpa using hw) (by simp)
    -- so the verb is the first character, and what is written is known
    obtain ⟨rfl, rfl⟩ : d = [] ∧ verb = '!' := by
      cases d with
      | nil => exact ⟨rfl, (List.cons.inj hz).1⟩
      | cons c d =>
        obtain rfl : c = '!' := (List.cons.inj hz).1
        have hrest : '!' :: (d ++ verb :: r ++ ['"', ']']) = verb :: (r ++ ['"', ']']) := hscan
        have hlength := congrArg List.length hrest
        simp only [List.length_cons, List.length_append] at hlength
        omega
    have hwritten : (Directive.print ([] ++ '!' :: r ++ ['"', ']'])).1 =
        '%' :: '!' :: "!(MISSING)".toList := rfl
    rw [hwritten] at hw
    cases v with
    | nil =>
      obtain rfl : g = "!(MISSING)".toList := by simpa using hw.symm
      exact not_printsAs_suffix (by decide) (by decide) t ((hr.resolve_left (by decide)) ▸ h)
    | cons c v =>
      have hmem : '%' ∈ '!' :: "!(MISSING)".toList := by
        rw [(List.cons.inj hw).2]
        simp
      exact absurd hmem (by decide)

theorem PrintsAs.not_mem (h : PrintsAs s s) : '%' ∉ s := (h.eq_of_suffix (v := []) rfl).2

end Unchanged

/-! ## Values -/

/-- The text of a value is printed as that of another one, whatever follows. -/
def Json.PrintsAs (v w : Json) : Prop :=
  ∀ cs, Lib.fprintf (v.encode ++ cs) = w.encode ++ Lib.fprintf cs

theorem Json.PrintsAs.number {literal : List Char} (h : '%' ∉ literal) :
    (Json.number literal).PrintsAs (.number literal) := by
  intro cs
  rw [encode]
  exact fprintf_append h cs

theorem Json.PrintsAs.string {s t : List Char} (h : Lib.PrintsAs s t) :
    (Json.string s).PrintsAs (.string t) := by
  intro cs
  simp only [encode, List.cons_append, List.append_assoc, List.nil_append]
  rw [fprintf_char (by decide), h.fprintf]

theorem encodeElements_printsAs {vs ws : List Json} (h : List.Forall₂ Json.PrintsAs vs ws)
    (cs : List Char) :
    fprintf (encodeElements vs ++ cs) = encodeElements ws ++ fprintf cs := by
  induction h with
  | nil =>
    simp only [encodeElements]
    exact fprintf_char (by decide) cs
  | cons hv _ ih =>
    simp only [encodeElements, List.cons_append, List.append_assoc]
    rw [fprintf_char (by decide), hv, ih]

theorem Json.PrintsAs.array {vs ws : List Json} (h : List.Forall₂ Json.PrintsAs vs ws) :
    (Json.array vs).PrintsAs (.array ws) := by
  intro cs
  cases h with
  | nil =>
    simp only [encode]
    exact fprintf_append (by decide) cs
  | cons hv hvs =>
    simp only [encode, List.cons_append, List.append_assoc]
    rw [fprintf_char (by decide), hv, encodeElements_printsAs hvs]

/-- A member whose key is printed as it is. -/
def MemberPrintsAs (m m' : List Char × Json) : Prop :=
  '%' ∉ m.1 ∧ m'.1 = m.1 ∧ m.2.PrintsAs m'.2

theorem MemberPrintsAs.encodeMember {m m' : List Char × Json} (h : MemberPrintsAs m m')
    (cs : List Char) :
    fprintf (encodeMember m ++ cs) = Lib.encodeMember m' ++ fprintf cs := by
  obtain ⟨key, v⟩ := m
  obtain ⟨key', v'⟩ := m'
  obtain ⟨hkey, rfl, hv⟩ := h
  simp only [Lib.encodeMember, List.cons_append, List.append_assoc]
  rw [fprintf_char (by decide), (PrintsAs.refl hkey).fprintf, fprintf_char (by decide), hv]

theorem encodeMembers_printsAs {ms ms' : List (List Char × Json)}
    (h : List.Forall₂ MemberPrintsAs ms ms') (cs : List Char) :
    fprintf (encodeMembers ms ++ cs) = encodeMembers ms' ++ fprintf cs := by
  induction h with
  | nil =>
    simp only [encodeMembers]
    exact fprintf_char (by decide) cs
  | cons hm _ ih =>
    simp only [encodeMembers, List.cons_append, List.append_assoc]
    rw [fprintf_char (by decide), hm.encodeMember, ih]

theorem Json.PrintsAs.object {ms ms' : List (List Char × Json)}
    (h : List.Forall₂ MemberPrintsAs ms ms') : (Json.object ms).PrintsAs (.object ms') := by
  intro cs
  cases h with
  | nil =>
    simp only [encode]
    exact fprintf_append (by decide) cs
  | cons hm hms =>
    simp only [encode, List.cons_append, List.append_assoc]
    rw [fprintf_char (by decide), hm.encodeMember, encodeMembers_printsAs hms]

/-- What is printed is read as the other value. -/
theorem Json.PrintsAs.parse {v w : Json} (h : v.PrintsAs w) (hw : w.Valid) :
    Json.parse (fprintf v.encode) = some w := by
  have hprint := h []
  rw [List.append_nil, fprintf_nil, List.append_nil] at hprint
  rw [hprint, parse_encode hw]

end Speedy.Lib
