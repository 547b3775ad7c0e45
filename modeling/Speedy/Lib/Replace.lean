import Mathlib.Data.List.Basic
import Mathlib.Data.List.Perm.Basic

/-! # Replacing a content concurrently

Several participants replace a shared content, each by first clearing it and then
adding one element, in two separate operations. Their operations interleave in any
way, between others that do not matter. One element is left in the end if and only if
some participant's clearing comes after the additions of all others. -/
namespace Speedy.Lib

inductive Op (α : Type) where
  | clear
  | add (a : α)

section Replace
variable {ε ι α : Type} (op : ε → Option (Op α))

/-- The content after one event -/
def Op.apply (l : List α) (e : ε) : List α :=
  match op e with
  | none => l
  | some .clear => []
  | some (.add a) => l ++ [a]

def content (l : List α) (es : List ε) : List α := es.foldl (Op.apply op) l

/-- What an event adds -/
def added (e : ε) : Option α :=
  match op e with
  | some (.add a) => some a
  | _ => none

/-- The operations of a participant -/
def opsOf [DecidableEq ι] (who : ε → ι) (i : ι) (es : List ε) : List (Op α) :=
  (es.filter fun e => who e = i).filterMap op

/-- Every participant that takes part clears and then adds its element. -/
def Replaces [DecidableEq ι] (who : ε → ι) (a : ι → Option α) (es : List ε) : Prop :=
  ∀ i, opsOf op who i es = match a i with
    | some x => [.clear, .add x]
    | none => []

/-- Some participant clears after all others have added. -/
def ClearsLast (who : ε → ι) (es : List ε) : Prop :=
  ∃ p e q, es = p ++ e :: q ∧ op e = some .clear ∧
    ∀ e' ∈ q, who e' ≠ who e → added op e' = none

variable {op}

theorem content_of_no_clear {l : List α} {es : List ε} (h : ∀ e ∈ es, op e ≠ some .clear) :
    content op l es = l ++ es.filterMap (added op) := by
  induction es generalizing l with
  | nil => exact (List.append_nil l).symm
  | cons e es ih =>
    obtain ⟨he, hes⟩ := List.forall_mem_cons.mp h
    change content op (Op.apply op l e) es = _
    rw [ih hes, List.filterMap_cons]
    unfold Op.apply added
    split
    · rename_i hop
      rw [hop]
    · rename_i hop
      exact absurd hop he
    · rename_i a hop
      rw [hop, List.append_assoc, List.singleton_append]

/-- Only what comes after the last clearing counts. -/
theorem content_of_last_clear {l : List α} {p q : List ε} {e : ε} (he : op e = some .clear)
    (hq : ∀ e' ∈ q, op e' ≠ some .clear) :
    content op l (p ++ e :: q) = q.filterMap (added op) := by
  have hclear : Op.apply op (content op l p) e = [] := by
    unfold Op.apply
    rw [he]
  change List.foldl _ _ _ = _
  rw [List.foldl_append, List.foldl_cons]
  change content op (Op.apply op (content op l p) e) q = _
  rw [hclear, content_of_no_clear hq, List.nil_append]

theorem exists_last_clear {es : List ε} (h : ∃ e ∈ es, op e = some .clear) :
    ∃ p e q, es = p ++ e :: q ∧ op e = some .clear ∧ ∀ e' ∈ q, op e' ≠ some .clear := by
  induction es with
  | nil =>
    obtain ⟨e, he, -⟩ := h
    cases he
  | cons e es ih =>
    by_cases hes : ∃ e ∈ es, op e = some .clear
    · obtain ⟨p, e', q, rfl, he', hq⟩ := ih hes
      exact ⟨e :: p, e', q, rfl, he', hq⟩
    · have hno : ∀ e' ∈ es, op e' ≠ some .clear := fun e' he' hc => hes ⟨e', he', hc⟩
      obtain ⟨e', he', hc⟩ := h
      rcases List.mem_cons.mp he' with rfl | hmem
      · exact ⟨[], e', es, rfl, hc, hno⟩
      · exact absurd hc (hno e' hmem)

section Participants
variable [DecidableEq ι] {who : ε → ι} {a : ι → Option α} {p q : List ε} {e : ε}

/-- A clearing is the first operation of its participant and is followed by the addition. -/
theorem Replaces.after_clear (h : Replaces op who a (p ++ e :: q)) (he : op e = some .clear) :
    ∃ x, a (who e) = some x ∧ opsOf op who (who e) q = [.add x] := by
  have hi := h (who e)
  have hsplit : opsOf op who (who e) (p ++ e :: q) =
      opsOf op who (who e) p ++ .clear :: opsOf op who (who e) q := by
    simp [opsOf, he]
  rw [hsplit] at hi
  cases ha : a (who e) with
  | none =>
    rw [ha] at hi
    simp at hi
  | some x =>
    rw [ha] at hi
    refine ⟨x, rfl, ?_⟩
    cases hp : opsOf op who (who e) p with
    | nil =>
      rw [hp] at hi
      exact (List.cons.inj hi).2
    | cons o os =>
      -- then the clearing would be the second operation
      rw [hp] at hi
      have htail := (List.cons.inj hi).2
      cases os with
      | nil => cases htail
      | cons o' os => simp at htail

theorem filterMap_added_opsOf {i : ι} :
    (q.filter fun e => who e = i).filterMap (added op) =
      (opsOf op who i q).filterMap fun o => match o with
        | .clear => none
        | .add x => some x := by
  rw [opsOf, List.filterMap_filterMap]
  congr 1
  funext e
  unfold added
  cases op e with
  | none => rfl
  | some o => cases o <;> rfl

/-- After the last clearing there is the addition of its participant, and those of the
others that are still to come. -/
theorem Replaces.content_perm {l : List α} (h : Replaces op who a (p ++ e :: q))
    (he : op e = some .clear) (hq : ∀ e' ∈ q, op e' ≠ some .clear) :
    ∃ x, a (who e) = some x ∧ (content op l (p ++ e :: q)).Perm
      (x :: (q.filter fun e' => ¬ who e' = who e).filterMap (added op)) := by
  obtain ⟨x, hx, hops⟩ := h.after_clear he
  refine ⟨x, hx, ?_⟩
  rw [content_of_last_clear he hq]
  have hown : (q.filter fun e' => who e' = who e).filterMap (added op) = [x] := by
    rw [filterMap_added_opsOf, hops]
    rfl
  have hp := (List.filter_append_perm (fun e' => decide (who e' = who e)) q).symm.filterMap
    (added op)
  rw [List.filterMap_append, hown] at hp
  simpa using hp

/-- If a participant clears after all others have added, nobody clears after it. -/
theorem Replaces.no_clear (h : Replaces op who a (p ++ e :: q)) (he : op e = some .clear)
    (hq : ∀ e' ∈ q, who e' ≠ who e → added op e' = none) : ∀ e' ∈ q, op e' ≠ some .clear := by
  intro e' he' hc
  by_cases hw : who e' = who e
  · obtain ⟨x, -, hops⟩ := h.after_clear he
    have hmem : Op.clear ∈ opsOf op who (who e) q :=
      List.mem_filterMap.mpr ⟨e', List.mem_filter.mpr ⟨he', by simpa using hw⟩, hc⟩
    rw [hops] at hmem
    simp at hmem
  · -- the other's addition would come later still
    obtain ⟨q₁, q₂, rfl⟩ := List.append_of_mem he'
    have h' : Replaces op who a ((p ++ e :: q₁) ++ e' :: q₂) := by
      rwa [List.append_assoc, List.cons_append]
    obtain ⟨x, -, hops⟩ := h'.after_clear hc
    have hmem : Op.add x ∈ opsOf op who (who e') q₂ := hops ▸ List.mem_singleton_self _
    obtain ⟨e₂, he₂, hop⟩ := List.mem_filterMap.mp hmem
    obtain ⟨hin, hwho⟩ := List.mem_filter.mp he₂
    have hnone := hq e₂ (List.mem_append_right _ (List.mem_cons_of_mem _ hin))
      (by rw [of_decide_eq_true hwho]; exact hw)
    simp [added, hop] at hnone

/-- If one element is left, some participant cleared last. -/
theorem Replaces.clearsLast {l : List α} {es : List ε} (h : Replaces op who a es)
    (hsome : ∃ i, a i ≠ none) (hlen : (content op l es).length = 1) : ClearsLast op who es := by
  have hclear : ∃ e ∈ es, op e = some .clear := by
    obtain ⟨i, hi⟩ := hsome
    obtain ⟨x, hx⟩ := Option.ne_none_iff_exists'.mp hi
    have hops := h i
    rw [hx] at hops
    have hmem : Op.clear ∈ opsOf op who i es := hops ▸ List.mem_cons_self
    obtain ⟨e, he, hop⟩ := List.mem_filterMap.mp hmem
    exact ⟨e, List.mem_of_mem_filter he, hop⟩
  obtain ⟨p, e, q, rfl, he, hq⟩ := exists_last_clear hclear
  obtain ⟨x, -, hp⟩ := h.content_perm (l := l) he hq
  rw [hp.length_eq, List.length_cons, Nat.add_eq_right, List.length_eq_zero_iff,
    List.filterMap_eq_nil_iff] at hlen
  exact ⟨p, e, q, rfl, he, fun e' he' hw =>
    hlen e' (List.mem_filter.mpr ⟨he', by simpa using hw⟩)⟩

/-- If some participant clears last, its element is left. -/
theorem Replaces.content_of_clearsLast {l : List α} {es : List ε} (h : Replaces op who a es)
    (hlast : ClearsLast op who es) : ∃ i x, a i = some x ∧ content op l es = [x] := by
  obtain ⟨p, e, q, rfl, he, hq⟩ := hlast
  obtain ⟨x, hx, hp⟩ := h.content_perm (l := l) he (h.no_clear he hq)
  have hnil : (q.filter fun e' => ¬ who e' = who e).filterMap (added op) = [] := by
    refine List.filterMap_eq_nil_iff.mpr fun e' he' => ?_
    obtain ⟨hin, hw⟩ := List.mem_filter.mp he'
    exact hq e' hin (by simpa using hw)
  rw [hnil] at hp
  exact ⟨who e, x, hx, List.perm_singleton.mp hp⟩

end Participants

end Replace

end Speedy.Lib
