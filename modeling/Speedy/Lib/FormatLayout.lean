import Speedy.Lib.FormatJson
import Speedy.Lib.JsonWeight

/-! # What can be read of a JSON text that was printed as a format

A directive that does not end in its string swallows what follows, up to a closing bracket in
a later string. A text is laid out in segments, each with a weight; what is swallowed is
missing in the weight of what is read, so that a text from which the whole weight is read has
no such directive. -/
namespace Speedy.Lib

/-- A piece of a JSON text; the colon belongs to the key. -/
inductive Seg where
  | text (w : List Char)
  | key (k : List Char)
  | str (s : List Char)

def render : List Seg → List Char
  | [] => []
  | .text w :: segs => w ++ render segs
  | .key k :: segs => '"' :: (escape k ++ '"' :: ':' :: render segs)
  | .str s :: segs => '"' :: (escape s ++ '"' :: render segs)

section Weights
variable (weigh : List Char → Nat)

/-- Braces that open weigh one, and keys what they are given. -/
def segsWeight : List Seg → Nat
  | [] => 0
  | .text w :: segs => w.count '{' + segsWeight segs
  | .key k :: segs => weigh k + segsWeight segs
  | .str _ :: segs => segsWeight segs

/-- Something of weight comes before the next string. -/
def Fenced : List Seg → Prop
  | [] => True
  | .text w :: segs => '{' ∈ w ∨ Fenced segs
  | .key k :: segs => 0 < weigh k ∨ Fenced segs
  | .str _ :: _ => False

/-- Objects in arrays in an object: brackets are closed only before the end and before the
next key, which begins with a digit. -/
inductive Layout : List Seg → Prop
  | last : Layout [.text [']', '}']]
  | group {d : Char} {k : List Char} {segs : List Seg} (hd : d.isDigit = true)
      (h : Layout (.key (d :: k) :: segs)) : Layout (.text [']', ','] :: .key (d :: k) :: segs)
  | text {w : List Char} {segs : List Seg} (hpercent : '%' ∉ w) (hquote : '"' ∉ w)
      (hbracket : ']' ∉ w) (h : Layout segs) : Layout (.text w :: segs)
  | key {k : List Char} {segs : List Seg} (hpercent : '%' ∉ k) (hbracket : ']' ∉ k)
      (h : Layout segs) : Layout (.key k :: segs)
  | str {s w : List Char} {c : Char} {segs : List Seg} (hc : c = ',' ∨ c = '}')
      (hfenced : Fenced weigh (.text (c :: w) :: segs)) (h : Layout (.text (c :: w) :: segs)) :
      Layout (.str s :: .text (c :: w) :: segs)

theorem segsWeight_append (segs segs' : List Seg) :
    segsWeight weigh (segs ++ segs') = segsWeight weigh segs + segsWeight weigh segs' := by
  induction segs with
  | nil => exact (Nat.zero_add _).symm
  | cons seg segs ih => cases seg <;> simp only [List.cons_append, segsWeight, ih, Nat.add_assoc]

variable {weigh}

theorem Fenced.weight_pos {segs pre segs' : List Seg} {s : List Char} (h : Fenced weigh segs)
    (hsegs : segs = pre ++ .str s :: segs') : 0 < segsWeight weigh pre := by
  induction pre generalizing segs with
  | nil =>
    rw [hsegs] at h
    exact h.elim
  | cons seg pre ih =>
    rw [hsegs] at h
    cases seg with
    | text w =>
      rcases h with h | h
      · have := List.count_pos_iff.mpr h
        simp only [segsWeight]
        omega
      · have := ih h rfl
        simp only [segsWeight]
        omega
    | key k =>
      rcases h with h | h
      · simp only [segsWeight]
        omega
      · have := ih h rfl
        simp only [segsWeight]
        omega
    | str s => exact h.elim

theorem Layout.tail {seg : Seg} {segs : List Seg} (h : Layout weigh (seg :: segs))
    (hne : segs ≠ []) : Layout weigh segs := by
  cases h with
  | last => exact absurd rfl hne
  | group _ h => exact h
  | text _ _ _ h => exact h
  | key _ _ h => exact h
  | str _ _ h => exact h

/-- Behind a string the layout goes on. -/
theorem Layout.after_str {pre segs' : List Seg} {s : List Char}
    (h : Layout weigh (pre ++ .str s :: segs')) :
    ∃ c w segs, segs' = .text (c :: w) :: segs ∧ (c = ',' ∨ c = '}') ∧ Fenced weigh segs' ∧
      Layout weigh segs' := by
  induction pre with
  | nil =>
    cases h with
    | @str s w c segs hc hfenced h => exact ⟨c, w, segs, rfl, hc, hfenced, h⟩
  | cons seg pre ih => exact ih (h.tail (by simp))

/-! ## Where a directive goes on -/

/-- What is left of the format when a directive has left its string: nothing, the last brace,
the comma before a key, or the rest of a later string. -/
inductive Lands (segs : List Seg) : List Char → Prop
  | nil : Lands segs []
  | close : Lands segs ['}']
  | group {d : Char} (hd : d.isDigit = true) (cs : List Char) : Lands segs (',' :: '"' :: d :: cs)
  | inside {pre segs' : List Seg} {s : List Char} (hsegs : segs = pre ++ .str s :: segs')
      (r : List Char) : Lands segs (escape r ++ '"' :: render segs')

theorem Lands.cons {segs : List Seg} {cs : List Char} (h : Lands segs cs) (seg : Seg) :
    Lands (seg :: segs) cs := by
  cases h with
  | nil => exact .nil
  | close => exact .close
  | group hd cs => exact .group hd cs
  | @inside pre segs' s hsegs r =>
    have hcons : seg :: segs = (seg :: pre) ++ .str s :: segs' := by rw [hsegs]; rfl
    exact .inside hcons r

theorem Lands.append {segs : List Seg} {cs : List Char} (h : Lands segs cs) (pre : List Seg) :
    Lands (pre ++ segs) cs := by
  induction pre with
  | nil => exact h
  | cons seg pre ih => exact ih.cons seg

theorem afterBracket_of_not_mem {x : List Char} (hx : ']' ∉ x) (cs : List Char) :
    afterBracket (x ++ cs) = afterBracket cs := by
  have hall : ∀ c ∈ x, Directive.inIndex c = true := fun c hc =>
    decide_eq_true fun he => hx (he ▸ hc)
  rw [afterBracket, List.dropWhile_append_of_pos hall, afterBracket]

/-- There is a bracket ahead, and what is behind it is known. -/
theorem Layout.afterBracket {segs : List Seg} (h : Layout weigh segs) :
    ']' ∈ render segs ∧ Lands segs (afterBracket (render segs)) := by
  induction h with
  | last => exact ⟨List.mem_cons_self, .close⟩
  | @group d k segs hd h ih =>
    refine ⟨List.mem_cons_self, ?_⟩
    simp only [render, escape_cons, escapeChar_of_isDigit hd]
    exact .group hd _
  | @text w segs hpercent hquote hbracket h ih =>
    refine ⟨List.mem_append_right _ ih.1, ?_⟩
    rw [render, afterBracket_of_not_mem hbracket]
    exact ih.2.cons _
  | @key k segs hpercent hbracket h ih =>
    have hrender : render (.key k :: segs) = ('"' :: escape k ++ ['"', ':']) ++ render segs := by
      simp [render]
    have hnone : ']' ∉ '"' :: escape k ++ ['"', ':'] := by
      simpa using not_mem_escape hbracket
    rw [hrender, afterBracket_of_not_mem hnone]
    exact ⟨List.mem_append_right _ ih.1, ih.2.cons _⟩
  | @str s w c segs hc hfenced h ih =>
    by_cases hs : ']' ∈ s
    · obtain ⟨x, y, rfl, hx⟩ := List.eq_append_cons_of_mem hs
      have hrender : render (.str (x ++ ']' :: y) :: .text (c :: w) :: segs) =
          ('"' :: escape x) ++ ']' :: (escape y ++ '"' :: render (.text (c :: w) :: segs)) := by
        have hbracket : escapeChar ']' = [']'] := rfl
        simp only [render, escape_append, escape_cons, hbracket, List.cons_append,
          List.append_assoc, List.nil_append]
      have hnone : ']' ∉ '"' :: escape x := by
        simpa using not_mem_escape hx
      rw [hrender, afterBracket_append hnone]
      have hpre : .str (x ++ ']' :: y) :: .text (c :: w) :: segs =
          [] ++ .str (x ++ ']' :: y) :: .text (c :: w) :: segs := rfl
      exact ⟨by simp, .inside hpre y⟩
    · have hrender : render (.str s :: .text (c :: w) :: segs) =
          ('"' :: escape s ++ ['"']) ++ render (.text (c :: w) :: segs) := by
        simp [render]
      have hnone : ']' ∉ '"' :: escape s ++ ['"'] := by
        simpa using not_mem_escape hs
      rw [hrender, afterBracket_of_not_mem hnone]
      exact ⟨List.mem_append_right _ ih.1, ih.2.cons _⟩

/-- The directive is still in its string, or it has landed. -/
def Reads (segs : List Seg) (cs : List Char) : Prop :=
  (∃ r, cs = escape r ++ '"' :: render segs) ∨ Lands segs cs

/-- A stage of a directive: it stays in a string or leaves it, and it does not take anything
else. -/
structure Stage (f : Directive → Directive) : Prop where
  within : ∀ {cs plain escaped}, Within cs plain escaped →
    Within cs (f plain) (f escaped) ∨ Leaves cs (f plain) (f escaped)
  nil : ∀ d, d.rest = [] → (f d).rest = []
  other : ∀ d c cs, d.rest = c :: cs → c = ',' ∨ c = '}' → (f d).rest = d.rest

theorem Stage.string {f : Directive → Directive} (hf : Stage f) {d : Directive}
    {r cs : List Char} (hcs : ']' ∈ cs) (hd : d.rest = escape r ++ '"' :: cs) :
    (∃ r', (f d).rest = escape r' ++ '"' :: cs) ∨ (f d).rest = [] ∨
      (f d).rest = Lib.afterBracket cs := by
  have hstart : Within cs { d with rest := r ++ ['"', ']'] } d := by
    refine ⟨r, rfl, ?_⟩
    rw [← hd]
  rcases hf.within hstart with ⟨r', -, hwithin⟩ | hleaves
  · exact .inl ⟨r', by rw [hwithin]⟩
  · rcases hleaves.2 with hnil | hafter
    · exact .inr (.inl hnil)
    · exact .inr (.inr (hafter hcs))

theorem Reads.stage {f : Directive → Directive} (hf : Stage f) {segs : List Seg}
    (hsegs : Layout weigh segs) {d : Directive} (h : Reads segs d.rest) :
    Reads segs (f d).rest := by
  rcases h with ⟨r, hr⟩ | h
  · rcases hf.string hsegs.afterBracket.1 hr with ⟨r', hr'⟩ | hnil | hafter
    · exact .inl ⟨r', hr'⟩
    · rw [hnil]
      exact .inr .nil
    · rw [hafter]
      exact .inr hsegs.afterBracket.2
  · generalize hcs : d.rest = cs at h
    refine .inr ?_
    cases h with
    | nil =>
      rw [hf.nil d hcs]
      exact .nil
    | close =>
      rw [hf.other d '}' [] hcs (.inr rfl), hcs]
      exact .close
    | group hd cs =>
      rw [hf.other d ',' _ hcs (.inl rfl), hcs]
      exact .group hd cs
    | @inside pre segs' s hpre r =>
      obtain ⟨_, _, _, -, -, -, hlayout⟩ := (hpre ▸ hsegs).after_str
      rcases hf.string hlayout.afterBracket.1 hcs with ⟨r', hr'⟩ | hnil | hafter
      · rw [hr']
        exact .inside hpre r'
      · rw [hnil]
        exact .nil
      · rw [hafter, hpre, List.append_cons]
        exact hlayout.afterBracket.2.append _

theorem rest_ne_cons {d : Directive} {c x : Char} {cs : List Char} (hd : d.rest = c :: cs)
    (hc : c = ',' ∨ c = '}') (hx : x ≠ ',' ∧ x ≠ '}') (cs' : List Char) : d.rest ≠ x :: cs' := by
  intro h
  rw [hd] at h
  obtain rfl : c = x := (List.cons.inj h).1
  exact hc.elim hx.1 hx.2

theorem stage_argNumber : Stage Directive.argNumber where
  within := Within.argNumber
  nil d hd := List.suffix_nil.mp (hd ▸ d.argNumber_suffix)
  other d c cs hd hc := by
    rw [Directive.argNumber_of_ne (rest_ne_cons hd hc (by decide))]

theorem stage_width : Stage Directive.width where
  within := Within.width
  nil d hd := List.suffix_nil.mp (hd ▸ d.width_suffix)
  other d c cs hd hc := by
    rw [Directive.width_of_ne (rest_ne_cons hd hc (by decide)), hd]
    rcases hc with rfl | rfl <;> rfl

theorem stage_precisionNumber : Stage Directive.precisionNumber where
  within := Within.precisionNumber
  nil d hd := List.suffix_nil.mp (hd ▸ d.precisionNumber_suffix)
  other d c cs hd hc := by
    rw [Directive.precisionNumber_of_ne (rest_ne_cons hd hc (by decide)), hd]
    rcases hc with rfl | rfl <;> rfl

/-- A point is a character of a string. -/
theorem Reads.point {segs : List Seg} {cs : List Char} (h : Reads segs ('.' :: cs)) :
    Reads segs cs := by
  have hstring : ∀ {r cs' : List Char}, '.' :: cs = escape r ++ '"' :: cs' →
      ∃ r', cs = escape r' ++ '"' :: cs' := by
    intro r cs' hr
    rcases head_cases (x := '.') (by decide) (by decide) r with ⟨r', rfl⟩ | hne
    · exact ⟨r', (List.cons.inj hr).2⟩
    · exact absurd hr.symm (hne cs' cs).2
  rcases h with ⟨r, hr⟩ | h
  · exact .inl (hstring hr)
  · generalize hcs : '.' :: cs = ρ at h
    cases h with
    | nil => cases hcs
    | close => cases (List.cons.inj hcs).1
    | group hd cs' => cases (List.cons.inj hcs).1
    | inside hpre r =>
      obtain ⟨r', rfl⟩ := hstring hcs
      exact .inr (.inside hpre r')

theorem Reads.precision {segs : List Seg} (hsegs : Layout weigh segs) {d : Directive}
    (h : Reads segs d.rest) : Reads segs d.precision.rest := by
  unfold Directive.precision
  split
  · rename_i cs hcs
    rw [hcs] at h
    have hindex := h.point.stage (d := { d with
      goodArgNum := d.goodArgNum && !d.afterIndex, rest := cs }) stage_argNumber hsegs
    exact hindex.stage stage_precisionNumber hsegs
  · exact h

theorem Reads.verbIndex {segs : List Seg} (hsegs : Layout weigh segs) {d : Directive}
    (h : Reads segs d.rest) : Reads segs d.verbIndex.rest := by
  unfold Directive.verbIndex
  split
  · exact h
  · exact h.stage stage_argNumber hsegs

/-- Where the verb of a directive in a string is found. -/
theorem reads_scan {segs : List Seg} (hsegs : Layout weigh segs) (s : List Char) :
    Reads segs (Directive.scan (escape s ++ '"' :: render segs)).rest := by
  have hflags : Reads segs
      (Directive.mk [] true false ((escape s ++ '"' :: render segs).dropWhile isFlag)).rest :=
    .inl ⟨_, dropWhile_escape _ rfl rfl (fun c => escapeChar_of_isFlag) s⟩
  refine .verbIndex hsegs (.precision hsegs (.stage stage_width hsegs ?_))
  exact hflags.stage stage_argNumber hsegs

/-! ## What a string is read as -/

/-- No value ends like this. -/
def BadEnd (cs : List Char) : Prop := ∃ c cs', cs = c :: cs' ∧ (c = '(' ∨ c.isDigit = true)

theorem parseUnits_append (s cs : List Char) :
    parseUnits (escape s ++ cs) =
      (parseUnits cs).map fun r => (s.map Char.toNat ++ r.1, r.2) := by
  induction s with
  | nil => exact Option.map_id'.symm
  | cons c s ih =>
    rw [escape_cons, List.append_assoc, parseUnits_escapeChar, ih, Option.map_map]
    rfl

theorem escape_inj {r r' cs : List Char} (h : escape r ++ '"' :: cs = escape r' ++ '"' :: cs) :
    r = r' := by
  have hread := congrArg parseString h
  rw [parseString_escape, parseString_escape] at hread
  exact (Prod.mk.inj (Option.some.inj hread)).1

theorem escape_out (cs : List Char) :
    escape ((Directive.scan cs).out ++ ['%', '!']) = (Directive.scan cs).out ++ ['%', '!'] := by
  have hout : ∀ out ∈ [[], "%!(BADWIDTH)".toList, "%!(BADPREC)".toList,
      "%!(BADWIDTH)%!(BADPREC)".toList], escape (out ++ ['%', '!']) = out ++ ['%', '!'] := by
    decide
  exact hout _ (Directive.scan_out cs)

/-- A verb that is not `%` is written between marks. -/
theorem print_verb {cs rest : List Char} {verb : Char}
    (h : (Directive.scan cs).rest = verb :: rest) (hverb : verb ≠ '%') :
    ∃ x, Directive.print cs =
      ((Directive.scan cs).out ++ ['%', '!'] ++ verb :: '(' :: x, rest) := by
  rw [print_of_rest h, Directive.verbText, if_neg hverb]
  split
  · exact ⟨"MISSING)".toList, by simp⟩
  · exact ⟨"BADINDEX)".toList, by simp⟩

section Verbs
variable {cs rest R : List Char} {us : List Nat}

theorem badEnd_of_quote (h : (Directive.scan cs).rest = '"' :: rest)
    (hread : parseUnits (fprintf ('%' :: cs)) = some (us, R)) : BadEnd R := by
  obtain ⟨x, hx⟩ := print_verb h (by decide)
  rw [fprintf_directive, hx, ← escape_out, List.append_assoc, parseUnits_append, List.cons_append,
    parseUnits_quote] at hread
  cases hread
  exact ⟨'(', _, rfl, .inl rfl⟩

theorem not_read_of_backslash (h : (Directive.scan cs).rest = '\\' :: rest) :
    parseUnits (fprintf ('%' :: cs)) = none := by
  obtain ⟨x, hx⟩ := print_verb h (by decide)
  rw [fprintf_directive, hx, ← escape_out, List.append_assoc, parseUnits_append, List.cons_append,
    List.cons_append, parseUnits_simple (by decide)]
  rfl

theorem not_read_of_nil (h : (Directive.scan cs).rest = []) :
    parseUnits (fprintf ('%' :: cs)) = none := by
  have hprint : Directive.print cs =
      (((Directive.scan cs).out ++ ['%', '!']) ++ "(NOVERB)".toList, []) := by
    simp only [Directive.print, h, List.append_assoc]
    rfl
  have hmark : escape "(NOVERB)".toList = "(NOVERB)".toList := by decide
  rw [fprintf_directive, hprint, ← escape_out, ← hmark, List.append_assoc, parseUnits_append,
    parseUnits_append]
  rfl

/-- A verb that is written as itself. -/
theorem read_of_verb {verb : Char} (h : (Directive.scan cs).rest = verb :: rest)
    (hverb : escapeChar verb = [verb])
    (hread : parseUnits (fprintf ('%' :: cs)) = some (us, R)) :
    ∃ us', parseUnits (fprintf rest) = some (us', R) ∧
      us = (Directive.print cs).1.map Char.toNat ++ us' := by
  have hrest : (Directive.print cs).2 = rest := by rw [print_of_rest h]
  rw [fprintf_directive, hrest, ← escape_print h hverb, parseUnits_append] at hread
  obtain ⟨⟨us', R'⟩, hr, heq⟩ := Option.map_eq_some_iff.mp hread
  obtain ⟨rfl, rfl⟩ := Prod.mk.inj heq
  exact ⟨us', hr, rfl⟩

/-- The verb of a directive is in a string. -/
theorem read_of_string {r X : List Char} (h : (Directive.scan cs).rest = escape r ++ '"' :: X)
    (hread : parseUnits (fprintf ('%' :: cs)) = some (us, R)) :
    BadEnd R ∨ ∃ v r' us', r = v :: r' ∧ escapeChar v = [v] ∧
      parseUnits (fprintf (escape r' ++ '"' :: X)) = some (us', R) ∧
      us = (Directive.print cs).1.map Char.toNat ++ us' := by
  cases r with
  | nil => exact .inl (badEnd_of_quote h hread)
  | cons v r =>
    rw [escape_cons, List.append_assoc] at h
    rcases escapeChar_cases v with ⟨hself, -⟩ | ⟨t, hself, -⟩
    · rw [hself] at h
      obtain ⟨us', hrest, hus⟩ := read_of_verb h hself hread
      exact .inr ⟨v, r, us', rfl, hself, hrest, hus⟩
    · rw [hself] at h
      rw [not_read_of_backslash h] at hread
      cases hread

/-- The verb of a directive is behind a closing bracket of the text. -/
theorem badEnd_of_separator {c : Char} (hc : c = ',' ∨ c = '}')
    (h : (Directive.scan cs).rest = c :: rest) (hrest : rest = [] ∨
      ∃ d rest', rest = '"' :: d :: rest' ∧ d.isDigit = true)
    (hread : parseUnits (fprintf ('%' :: cs)) = some (us, R)) : BadEnd R := by
  have hself : escapeChar c = [c] := by
    rcases hc with rfl | rfl <;> decide
  obtain ⟨us', hus, -⟩ := read_of_verb h hself hread
  rcases hrest with rfl | ⟨d, rest', rfl, hd⟩
  · cases hus
  · have hpercent : d ≠ '%' := by
      rintro rfl
      cases hd
    rw [fprintf_char (by decide), fprintf_char hpercent, parseUnits_quote] at hus
    cases hus
    exact ⟨d, _, rfl, .inr hd⟩

end Verbs

/-- A directive that is in its string yet when its verb comes has stayed there. -/
theorem scan_plain {s r X : List Char} {v : Char} (hX : ']' ∈ X) (hv : escapeChar v = [v])
    (h : (Directive.scan (escape s ++ '"' :: X)).rest = escape (v :: r) ++ '"' :: X) :
    (Directive.scan (s ++ ['"', ']'])).rest = v :: (r ++ ['"', ']']) ∧
      (Directive.print (escape s ++ '"' :: X)).1 = (Directive.print (s ++ ['"', ']'])).1 := by
  rcases scan_escape X s with ⟨a, ha, hescaped⟩ | hbeyond
  · obtain rfl : v :: r = a := escape_inj (h.symm.trans (congrArg Directive.rest hescaped))
    have hverb : (Directive.scan (escape s ++ '"' :: X)).rest = v :: (escape r ++ '"' :: X) := by
      rw [h, escape_cons, hv]
      rfl
    refine ⟨ha, ?_⟩
    rw [print_of_rest hverb, print_of_rest ha, hescaped]
  · have hlength := (hbeyond.2 hX).length_le
    have hafter : (afterBracket X).length ≤ X.length :=
      ((List.tail_suffix _).trans (List.dropWhile_suffix _)).length_le
    rw [h, List.length_append, List.length_cons] at hlength
    omega

/-- The rest of a string behind the verb is shorter. -/
theorem length_after_verb {r X : List Char} {v : Char} (hv : escapeChar v = [v])
    (h : (Directive.scan cs).rest = escape (v :: r) ++ '"' :: X) :
    (escape r ++ '"' :: X).length < cs.length := by
  have hsuffix := (Directive.scan_suffix cs).length_le
  rw [h, escape_cons, hv, List.append_assoc, List.singleton_append, List.length_cons] at hsuffix
  exact hsuffix

/-- What a string in the printed text is read as: it is what the string is printed as, or the
reading goes on behind a later string, or it ends where no value ends. -/
theorem read_printed {segs : List Seg} (hsegs : Layout weigh segs) {s : List Char} {us : List Nat}
    {R : List Char} (h : parseUnits (fprintf (escape s ++ '"' :: render segs)) = some (us, R)) :
    (∃ t, PrintsAs s t ∧ us = t.map Char.toNat ∧ R = fprintf (render segs)) ∨
      (∃ pre s' segs', segs = pre ++ .str s' :: segs' ∧ R = fprintf (render segs')) ∨ BadEnd R := by
  induction hn : (escape s ++ '"' :: render segs).length using Nat.strongRecOn
    generalizing segs s us with
  | ind n ih =>
    cases s with
    | nil =>
      have hquote : fprintf (escape [] ++ '"' :: render segs) = '"' :: fprintf (render segs) :=
        fprintf_char (by decide) _
      rw [hquote, parseUnits_quote] at h
      cases h
      exact .inl ⟨[], .nil, rfl, rfl⟩
    | cons c s =>
      by_cases hc : c = '%'
      · subst hc
        have hpercent : escape ('%' :: s) ++ '"' :: render segs =
            '%' :: (escape s ++ '"' :: render segs) := rfl
        rw [hpercent] at h hn
        have hlength : ∀ {v : Char} {r X : List Char}, escapeChar v = [v] →
            (Directive.scan (escape s ++ '"' :: render segs)).rest =
              escape (v :: r) ++ '"' :: X → (escape r ++ '"' :: X).length < n :=
          fun hv hrest => hn ▸ Nat.lt_succ_of_lt (length_after_verb hv hrest)
        rcases reads_scan hsegs s with ⟨r, hr⟩ | hlands
        · rcases read_of_string hr h with hbad | ⟨v, r, us', rfl, hv, hread, hus⟩
          · exact .inr (.inr hbad)
          · rcases ih _ (hlength hv hr) hsegs hread rfl with ⟨t, ht, hus', hR⟩ | hrest
            · obtain ⟨hscan, hprint⟩ := scan_plain hsegs.afterBracket.1 hv hr
              refine .inl ⟨_, .directive hscan hv ht, ?_, hR⟩
              rw [hus, hus', List.map_append, hprint]
            · exact .inr hrest
        · generalize hρ : (Directive.scan (escape s ++ '"' :: render segs)).rest = ρ at hlands
          cases hlands with
          | nil =>
            rw [not_read_of_nil hρ] at h
            cases h
          | close => exact .inr (.inr (badEnd_of_separator (.inr rfl) hρ (.inl rfl) h))
          | group hd cs =>
            exact .inr (.inr (badEnd_of_separator (.inl rfl) hρ (.inr ⟨_, cs, rfl, hd⟩) h))
          | @inside pre segs' s' hpre r =>
            obtain ⟨_, _, _, -, -, -, hlayout⟩ := (hpre ▸ hsegs).after_str
            rcases read_of_string hρ h with hbad | ⟨v, r, us', rfl, hv, hread, -⟩
            · exact .inr (.inr hbad)
            · rcases ih _ (hlength hv hρ) hlayout hread rfl with ⟨t, -, -, hR⟩ | hrest | hbad
              · exact .inr (.inl ⟨pre, s', segs', hpre, hR⟩)
              · obtain ⟨pre', s'', segs'', rfl, hR⟩ := hrest
                exact .inr (.inl ⟨pre ++ .str s' :: pre', s'', segs'', by simp [hpre], hR⟩)
              · exact .inr (.inr hbad)
      · rw [escape_cons, List.append_assoc, fprintf_append (percent_not_mem_escapeChar hc),
          parseUnits_escapeChar] at h
        obtain ⟨⟨us', R'⟩, hread, heq⟩ := Option.map_eq_some_iff.mp h
        obtain ⟨rfl, rfl⟩ := Prod.mk.inj heq
        have hlt : (escape s ++ '"' :: render segs).length < n := by
          have hpos : 0 < (escapeChar c).length := by
            rcases escapeChar_cases c with ⟨hself, -⟩ | ⟨t, hself, -⟩ <;> simp [hself]
          rw [escape_cons, List.append_assoc, List.length_append] at hn
          omega
        rcases ih _ hlt hsegs hread rfl with ⟨t, ht, hus, hR⟩ | hrest
        · exact .inl ⟨c :: t, .char hc ht, by rw [hus]; rfl, hR⟩
        · exact .inr hrest

/-! ## The weight that is left -/

/-- A key stays a key. -/
theorem fprintf_key {k : List Char} (hk : '%' ∉ k) (segs : List Seg) :
    fprintf (render (.key k :: segs)) =
      '"' :: (escape k ++ '"' :: ':' :: fprintf (render segs)) := by
  rw [render, fprintf_char (by decide), (PrintsAs.refl hk).fprintf, fprintf_char (by decide)]

theorem fprintf_str (s : List Char) (segs : List Seg) :
    fprintf (render (.str s :: segs)) = '"' :: fprintf (escape s ++ '"' :: render segs) :=
  fprintf_char (by decide) _

theorem Weighs.of_key {k : List Char} {segs : List Seg} {n : Nat} (hk : '%' ∉ k)
    (h : Weighs weigh (fprintf (render (.key k :: segs))) n) :
    ∃ n', n = weigh k + n' ∧ Weighs weigh (fprintf (render segs)) n' := by
  rw [fprintf_key hk] at h
  cases h with
  | char hquote => exact absurd rfl hquote
  | string hread hrest h =>
    rw [parseUnits_escape] at hread
    cases hread
    rcases hrest _ _ rfl with h | h | h <;> cases h
  | @key _ _ rest' us n' hread hrest h =>
    rw [parseUnits_escape] at hread
    cases hread
    cases hrest
    exact ⟨n', by rw [fromUnits_toNat], h⟩

theorem Layout.fprintf_after_str {pre segs : List Seg} {s : List Char}
    (h : Layout weigh (pre ++ .str s :: segs)) :
    ∃ c cs, fprintf (render segs) = c :: cs ∧ (c = ',' ∨ c = '}') := by
  obtain ⟨c, w, segs, rfl, hc, -, -⟩ := h.after_str
  have hpercent : c ≠ '%' := by
    rcases hc with rfl | rfl
    · decide
    · decide
  exact ⟨c, _, fprintf_char hpercent _, hc⟩

/-- Neither a value nor a key ends there. -/
theorem BadEnd.skipSpace {R : List Char} (h : BadEnd R) :
    ¬ EndsValue R ∧ ∀ R', skipSpace R ≠ ':' :: R' := by
  obtain ⟨c, cs, rfl, hc⟩ := h
  have hne : ∀ {d : Char}, d ≠ '(' → d.isDigit = false → c ≠ d := by
    intro d hd hdigit hcd
    subst hcd
    rcases hc with hc | hc
    · exact hd hc
    · exact Bool.false_ne_true (hdigit.symm.trans hc)
  have hspace : isSpace c = false := by
    simp only [isSpace, Bool.or_eq_false_iff, decide_eq_false_iff_not]
    exact ⟨⟨⟨hne (by decide) rfl, hne (by decide) rfl⟩, hne (by decide) rfl⟩, hne (by decide) rfl⟩
  have hskip := skipSpace_cons hspace cs
  refine ⟨fun hends => ?_, fun R' hcolon => ?_⟩
  · rcases hends c cs hskip with h | h | h
    · exact hne (by decide) rfl h
    · exact hne (by decide) rfl h
    · exact hne (by decide) rfl h
  · exact hne (by decide) rfl (List.cons.inj (hskip.symm.trans hcolon)).1

/-- What follows a string that is printed, when something is read of it: the segments behind
it or, with less weight, those behind a later one. -/
theorem Layout.read_str {s : List Char} {segs : List Seg} (h : Layout weigh (.str s :: segs))
    {us : List Nat} {R : List Char}
    (hread : parseUnits (fprintf (escape s ++ '"' :: render segs)) = some (us, R)) :
    BadEnd R ∨ ∃ pre s' segs', .str s :: segs = pre ++ .str s' :: segs' ∧
      R = fprintf (render segs') ∧
      ((∃ t, PrintsAs s t) ∧ segs' = segs ∨ segsWeight weigh segs' < segsWeight weigh segs) := by
  have hlayout : Layout weigh ([] ++ .str s :: segs) := h
  obtain ⟨_, _, _, -, -, hfenced, hsegs⟩ := hlayout.after_str
  rcases read_printed hsegs hread with ⟨t, ht, -, hR⟩ | ⟨pre, s', segs', hpre, hR⟩ | hbad
  · exact .inr ⟨[], s, segs, rfl, hR, .inl ⟨⟨t, ht⟩, rfl⟩⟩
  · have hpos := hfenced.weight_pos hpre
    refine .inr ⟨.str s :: pre, s', segs', by rw [hpre]; rfl, hR, .inr ?_⟩
    rw [hpre, segsWeight_append, segsWeight]
    omega
  · exact .inl hbad

theorem Weighs.of_str {s : List Char} {segs : List Seg} {k : Nat}
    (hsegs : Layout weigh (.str s :: segs))
    (h : Weighs weigh (fprintf (render (.str s :: segs))) k) :
    ∃ pre s' segs', .str s :: segs = pre ++ .str s' :: segs' ∧
      Weighs weigh (fprintf (render segs')) k ∧
      ((∃ t, PrintsAs s t) ∧ segs' = segs ∨ segsWeight weigh segs' < segsWeight weigh segs) := by
  rw [fprintf_str] at h
  cases h with
  | char hquote => exact absurd rfl hquote
  | string hread hrest h =>
    rcases hsegs.read_str hread with hbad | ⟨pre, s', segs', hpre, rfl, hwhich⟩
    · exact absurd hrest hbad.skipSpace.1
    · exact ⟨pre, s', segs', hpre, h, hwhich⟩
  | key hread hrest h =>
    rcases hsegs.read_str hread with hbad | ⟨pre, s', segs', hpre, rfl, hwhich⟩
    · exact absurd hrest (hbad.skipSpace.2 _)
    · obtain ⟨c, cs, hcs, hc⟩ := (hpre ▸ hsegs).fprintf_after_str
      rw [hcs] at hrest
      rcases hc with rfl | rfl <;> cases hrest

/-- No more than the weight of the segments is read, and when all of it is, every string is
printed within itself. -/
theorem Layout.weighs {segs : List Seg} (hsegs : Layout weigh segs) {k : Nat}
    (h : Weighs weigh (fprintf (render segs)) k) :
    k ≤ segsWeight weigh segs ∧
      (k = segsWeight weigh segs → ∀ s, .str s ∈ segs → ∃ t, PrintsAs s t) := by
  induction hn : segs.length using Nat.strongRecOn generalizing segs k with
  | ind n ih =>
    have htext : ∀ {w : List Char} {segs' : List Seg}, segs = .text w :: segs' → '%' ∉ w →
        '"' ∉ w → Layout weigh segs' → k ≤ segsWeight weigh segs ∧
          (k = segsWeight weigh segs → ∀ s, .str s ∈ segs → ∃ t, PrintsAs s t) := by
      intro w segs' hsegs' hpercent hquote hlayout
      rw [hsegs', render, fprintf_append hpercent] at h
      obtain ⟨n', hk, hn'⟩ := h.of_text hquote
      obtain ⟨hle, htight⟩ := ih _ (by rw [← hn, hsegs']; simp) hlayout hn' rfl
      rw [hsegs', segsWeight]
      refine ⟨by omega, fun heq s hs => htight (by omega) s ?_⟩
      exact (List.mem_cons.mp hs).resolve_left (by simp)
    cases hsegs with
    | last =>
      have hclose : Weighs weigh ([']', '}'] ++ []) k := h
      obtain ⟨n', hk, hn'⟩ := hclose.of_text (by decide)
      cases hn'
      refine ⟨hk.le, fun _ s hs => ?_⟩
      cases List.mem_singleton.mp hs
    | group hd hlayout => exact htext rfl (by decide) (by decide) hlayout
    | text hpercent hquote _ hlayout => exact htext rfl hpercent hquote hlayout
    | @key k' segs' hpercent _ hlayout =>
      obtain ⟨n', hk, hn'⟩ := h.of_key hpercent
      obtain ⟨hle, htight⟩ := ih _ (by rw [← hn]; simp) hlayout hn' rfl
      rw [segsWeight]
      refine ⟨by omega, fun heq s hs => htight (by omega) s ?_⟩
      exact (List.mem_cons.mp hs).resolve_left (by simp)
    | @str s w c segs' hc hfenced hlayout =>
      have hsegs : Layout weigh (.str s :: .text (c :: w) :: segs') := .str hc hfenced hlayout
      obtain ⟨pre, s', segs'', hpre, hk, hwhich⟩ := h.of_str hsegs
      obtain ⟨_, _, _, -, -, -, hlayout'⟩ := (hpre ▸ hsegs).after_str
      have hlength := congrArg List.length hpre
      rw [hn, List.length_append, List.length_cons] at hlength
      obtain ⟨hle, htight⟩ := ih segs''.length (by omega) hlayout' hk rfl
      rw [segsWeight]
      rcases hwhich with ⟨hprints, rfl⟩ | hlt
      · refine ⟨hle, fun heq s' hs' => ?_⟩
        rcases List.mem_cons.mp hs' with hs' | hs'
        · cases hs'
          exact hprints
        · exact htight heq s' hs'
      · exact ⟨by omega, fun heq => absurd heq (by omega)⟩

end Weights

end Speedy.Lib
