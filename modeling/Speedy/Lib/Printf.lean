import Mathlib.Data.List.Basic
import Mathlib.Data.List.TakeWhile
import Mathlib.Tactic.Common

/-! # Formats without operands

What Go's `Fprintf` writes when it gets a format and nothing else: text is copied, and a
directive is replaced by `%` if its verb is `%`, or else by a complaint about the operand
that is missing. A directive is `%`, flags, a width, a precision and a verb; in front of a
width, a precision or a verb there may be the index of an operand in brackets. -/
namespace Speedy.Lib

def isFlag (c : Char) : Bool := c = '#' || c = '0' || c = '+' || c = '-' || c = ' '

/-- The digits of a width or of a precision. A number that is too large takes the rest of the
format with it. -/
def parsenum (num : Nat) (isnum : Bool) : List Char → Bool × List Char
  | [] => (isnum, [])
  | c :: cs =>
    if c.isDigit then
      if num > 1000000 then (false, []) else parsenum (num * 10 + (c.toNat - '0'.toNat)) true cs
    else (isnum, c :: cs)

/-- A directive that is being read: what it has written, whether the indices in it were good,
whether the last thing in it was an index, and the format behind it. -/
structure Directive where
  out : List Char
  goodArgNum : Bool
  afterIndex : Bool
  rest : List Char
  deriving DecidableEq, Repr

namespace Directive

def inIndex (c : Char) : Bool := c ≠ ']'

/-- The index of an operand; there is none, so it is never good. Without a closing bracket
only the opening one is skipped. -/
def argNumber (d : Directive) : Directive :=
  match d.rest with
  | '[' :: cs =>
    if cs.length < 2 ∨ ']' ∉ cs then
      { d with goodArgNum := false, afterIndex := false, rest := cs }
    else
      { d with
        goodArgNum := false
        afterIndex := parsenum 0 false (cs.takeWhile inIndex) = (true, [])
        rest := (cs.dropWhile inIndex).tail }
  | _ => { d with afterIndex := false }

def width (d : Directive) : Directive :=
  match d.rest with
  | '*' :: cs => { d with out := d.out ++ "%!(BADWIDTH)".toList, afterIndex := false, rest := cs }
  | cs =>
    let (isnum, rest) := parsenum 0 false cs
    { d with goodArgNum := d.goodArgNum && !(d.afterIndex && isnum), rest }

/-- A precision, behind its index. -/
def precisionNumber (d : Directive) : Directive :=
  match d.rest with
  | '*' :: cs => { d with out := d.out ++ "%!(BADPREC)".toList, afterIndex := false, rest := cs }
  | cs => { d with rest := (parsenum 0 false cs).2 }

def precision (d : Directive) : Directive :=
  match d.rest with
  | '.' :: cs =>
    let d := { d with goodArgNum := d.goodArgNum && !d.afterIndex, rest := cs }
    d.argNumber.precisionNumber
  | _ => d

def verbIndex (d : Directive) : Directive := if d.afterIndex then d else d.argNumber

/-- The directive up to its verb. -/
def scan (cs : List Char) : Directive :=
  (Directive.mk [] true false (cs.dropWhile isFlag)).argNumber.width.precision.verbIndex

/-- What is written for the verb. -/
def verbText (goodArgNum : Bool) (verb : Char) : List Char :=
  if verb = '%' then ['%']
  else if goodArgNum then "%!".toList ++ verb :: "(MISSING)".toList
  else "%!".toList ++ verb :: "(BADINDEX)".toList

/-- What a directive writes and the format behind it. -/
def print (cs : List Char) : List Char × List Char :=
  let d := scan cs
  match d.rest with
  | [] => (d.out ++ "%!(NOVERB)".toList, [])
  | verb :: rest => (d.out ++ verbText d.goodArgNum verb, rest)

end Directive

/-- `fprintf`, for so many pieces of the format. -/
def fprintfPieces : Nat → List Char → List Char
  | 0, _ => []
  | _ + 1, [] => []
  | n + 1, c :: cs =>
    if c = '%' then (Directive.print cs).1 ++ fprintfPieces n (Directive.print cs).2
    else c :: fprintfPieces n cs

def fprintf (format : List Char) : List Char := fprintfPieces format.length format

section Stages
variable {d : Directive}

theorem Directive.argNumber_of_ne (h : ∀ cs, d.rest ≠ '[' :: cs) :
    d.argNumber = { d with afterIndex := false } := by
  unfold argNumber
  split
  · rename_i cs hrest
    exact absurd hrest (h cs)
  · rfl

theorem Directive.takeWhile_inIndex {index : List Char} (h : ']' ∉ index) (cs : List Char) :
    (index ++ ']' :: cs).takeWhile inIndex = index ∧
      (index ++ ']' :: cs).dropWhile inIndex = ']' :: cs := by
  have hall : ∀ c ∈ index, inIndex c = true := fun c hc =>
    decide_eq_true fun he => h (he ▸ hc)
  rw [List.takeWhile_append_of_pos hall, List.dropWhile_append_of_pos hall]
  exact ⟨List.append_nil index, rfl⟩

theorem Directive.argNumber_closed {index : List Char} (cs : List Char) (hindex : ']' ∉ index)
    (hlength : 0 < index.length + cs.length) (hrest : d.rest = '[' :: (index ++ ']' :: cs)) :
    d.argNumber =
      { d with
        goodArgNum := false
        afterIndex := parsenum 0 false index = (true, [])
        rest := cs } := by
  obtain ⟨htake, hdrop⟩ := takeWhile_inIndex hindex cs
  have hclosed : ¬ ((index ++ ']' :: cs).length < 2 ∨ ']' ∉ index ++ ']' :: cs) := by
    simp only [List.length_append, List.length_cons, List.mem_append, List.mem_cons, true_or,
      or_true, not_true_eq_false, or_false]
    omega
  simp only [argNumber, hrest, if_neg hclosed, htake, hdrop, List.tail_cons]

theorem Directive.width_of_ne (h : ∀ cs, d.rest ≠ '*' :: cs) :
    d.width =
      { d with
        goodArgNum := d.goodArgNum && !(d.afterIndex && (parsenum 0 false d.rest).1)
        rest := (parsenum 0 false d.rest).2 } := by
  unfold width
  split
  · rename_i cs hrest
    exact absurd hrest (h cs)
  · rfl

theorem Directive.precisionNumber_of_ne (h : ∀ cs, d.rest ≠ '*' :: cs) :
    d.precisionNumber = { d with rest := (parsenum 0 false d.rest).2 } := by
  unfold precisionNumber
  split
  · rename_i cs hrest
    exact absurd hrest (h cs)
  · rfl

theorem Directive.precision_of_ne (h : ∀ cs, d.rest ≠ '.' :: cs) : d.precision = d := by
  unfold precision
  split
  · rename_i cs hrest
    exact absurd hrest (h cs)
  · rfl

end Stages

section Suffixes

theorem parsenum_suffix (num : Nat) (isnum : Bool) (cs : List Char) :
    (parsenum num isnum cs).2 <:+ cs := by
  induction cs generalizing num isnum with
  | nil => exact List.suffix_refl _
  | cons c cs ih =>
    rw [parsenum]
    split
    · split
      · exact List.nil_suffix
      · exact (ih _ _).trans (List.suffix_cons c cs)
    · exact List.suffix_refl _

theorem Directive.argNumber_suffix (d : Directive) : d.argNumber.rest <:+ d.rest := by
  unfold argNumber
  split
  · rename_i cs hrest
    rw [hrest]
    split
    · exact List.suffix_cons _ cs
    · exact ((List.tail_suffix _).trans (List.dropWhile_suffix _)).trans (List.suffix_cons _ cs)
  · exact List.suffix_refl _

theorem Directive.width_suffix (d : Directive) : d.width.rest <:+ d.rest := by
  unfold width
  split
  · rename_i cs hrest
    rw [hrest]
    exact List.suffix_cons _ cs
  · exact parsenum_suffix _ _ _

theorem Directive.precisionNumber_suffix (d : Directive) : d.precisionNumber.rest <:+ d.rest := by
  unfold precisionNumber
  split
  · rename_i cs hrest
    rw [hrest]
    exact List.suffix_cons _ cs
  · exact parsenum_suffix _ _ _

theorem Directive.precision_suffix (d : Directive) : d.precision.rest <:+ d.rest := by
  unfold precision
  split
  · rename_i cs hrest
    rw [hrest]
    refine .trans ?_ (List.suffix_cons _ cs)
    exact (precisionNumber_suffix _).trans (argNumber_suffix _)
  · exact List.suffix_refl _

theorem Directive.verbIndex_suffix (d : Directive) : d.verbIndex.rest <:+ d.rest := by
  unfold verbIndex
  split
  · exact List.suffix_refl _
  · exact d.argNumber_suffix

theorem Directive.scan_suffix (cs : List Char) : (scan cs).rest <:+ cs := by
  refine (verbIndex_suffix _).trans ((precision_suffix _).trans ((width_suffix _).trans ?_))
  exact (argNumber_suffix _).trans (List.dropWhile_suffix _)

theorem Directive.print_suffix (cs : List Char) : (print cs).2 <:+ cs := by
  have hscan := scan_suffix cs
  simp only [print]
  split
  · exact List.nil_suffix
  · rename_i verb rest hrest
    rw [hrest] at hscan
    exact (List.suffix_cons verb rest).trans hscan

end Suffixes

/-! ## What a directive writes -/

namespace Directive

theorem argNumber_out (d : Directive) : d.argNumber.out = d.out := by
  unfold argNumber
  split
  · split <;> rfl
  · rfl

theorem width_out (d : Directive) :
    d.width.out = d.out ∨ d.width.out = d.out ++ "%!(BADWIDTH)".toList := by
  unfold width
  split
  · exact .inr rfl
  · exact .inl rfl

theorem precisionNumber_out (d : Directive) :
    d.precisionNumber.out = d.out ∨
      d.precisionNumber.out = d.out ++ "%!(BADPREC)".toList := by
  unfold precisionNumber
  split
  · exact .inr rfl
  · exact .inl rfl

theorem precision_out (d : Directive) :
    d.precision.out = d.out ∨ d.precision.out = d.out ++ "%!(BADPREC)".toList := by
  unfold precision
  split
  · rename_i cs hrest
    have hout := precisionNumber_out
      (argNumber { d with goodArgNum := d.goodArgNum && !d.afterIndex, rest := cs })
    rwa [argNumber_out] at hout
  · exact .inl rfl

theorem verbIndex_out (d : Directive) : d.verbIndex.out = d.out := by
  unfold verbIndex
  split
  · rfl
  · exact d.argNumber_out

/-- Before its verb a directive writes something only for the operands of its width and of its
precision. -/
theorem scan_out (cs : List Char) :
    (scan cs).out ∈ [[], "%!(BADWIDTH)".toList, "%!(BADPREC)".toList,
      "%!(BADWIDTH)%!(BADPREC)".toList] := by
  unfold scan
  rw [verbIndex_out]
  have hwidth := width_out (argNumber ⟨[], true, false, cs.dropWhile isFlag⟩)
  rw [argNumber_out, List.nil_append] at hwidth
  have hprecision := precision_out (width (argNumber ⟨[], true, false, cs.dropWhile isFlag⟩))
  rcases hwidth with hwidth | hwidth
  · rw [hwidth, List.nil_append] at hprecision
    rcases hprecision with hprecision | hprecision
    · rw [hprecision]
      exact List.mem_cons_self
    · rw [hprecision]
      decide
  · rw [hwidth] at hprecision
    rcases hprecision with hprecision | hprecision
    · rw [hprecision]
      decide
    · rw [hprecision]
      decide

end Directive

/-! ## Pieces of a format -/

theorem fprintfPieces_eq {m n : Nat} {cs : List Char} (hm : cs.length ≤ m) (hn : cs.length ≤ n) :
    fprintfPieces m cs = fprintfPieces n cs := by
  induction m generalizing n cs with
  | zero =>
    cases List.length_eq_zero_iff.mp (Nat.le_zero.mp hm)
    cases n <;> rfl
  | succ m ih =>
    cases cs with
    | nil => cases n <;> rfl
    | cons c cs =>
      cases n with
      | zero => cases hn
      | succ n =>
        have hcs : cs.length ≤ m := Nat.le_of_succ_le_succ hm
        have hcs' : cs.length ≤ n := Nat.le_of_succ_le_succ hn
        have hrest := (Directive.print_suffix cs).length_le
        rw [fprintfPieces, fprintfPieces, ih hcs hcs', ih (hrest.trans hcs) (hrest.trans hcs')]

@[simp] theorem fprintf_nil : fprintf [] = [] := rfl

theorem fprintf_char {c : Char} (hc : c ≠ '%') (cs : List Char) :
    fprintf (c :: cs) = c :: fprintf cs := if_neg hc

theorem fprintf_directive (cs : List Char) :
    fprintf ('%' :: cs) = (Directive.print cs).1 ++ fprintf (Directive.print cs).2 :=
  congrArg ((Directive.print cs).1 ++ ·)
    (fprintfPieces_eq (Directive.print_suffix cs).length_le (Nat.le_refl _))

/-- Text is copied. -/
theorem fprintf_append {text : List Char} (h : '%' ∉ text) (cs : List Char) :
    fprintf (text ++ cs) = text ++ fprintf cs := by
  induction text with
  | nil => rfl
  | cons c text ih =>
    rw [List.mem_cons, not_or] at h
    rw [List.cons_append, fprintf_char (Ne.symm h.1), ih h.2, List.cons_append]

end Speedy.Lib
