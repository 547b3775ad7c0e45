import Mathlib.Data.List.Basic

/-! # Sifting down in an array

`before a b` says that `a` belongs above `b`. `siftDown` lets the element at a
position sink below every child that belongs above it, and `heapify` does that
for all inner positions from the last to the first. Both only permute. -/
namespace Speedy.Lib

section Heapify
variable {α : Type} (before : α → α → Bool)

/-- The child if it exists and belongs above the parent. -/
def upper (arr : Array α) (parent child : Nat) : Nat :=
  match arr[parent]?, arr[child]? with
  | some p, some c => if before c p then child else parent
  | _, _ => parent

theorem upper_cases (arr : Array α) (parent child : Nat) :
    upper before arr parent child = parent ∨
      upper before arr parent child = child ∧ parent < arr.size ∧ child < arr.size := by
  unfold upper
  split
  · rename_i p c hp hc
    split
    · exact .inr ⟨rfl, (Array.getElem?_eq_some_iff.mp hp).1, (Array.getElem?_eq_some_iff.mp hc).1⟩
    · exact .inl rfl
  · exact .inl rfl

/-- Of a position and its two children, the one that belongs on top. -/
def topmost (arr : Array α) (index : Nat) : Nat :=
  upper before arr (upper before arr index (index * 2 + 1)) (index * 2 + 2)

theorem topmost_cases (arr : Array α) (index : Nat) :
    topmost before arr index = index ∨
      index < topmost before arr index ∧ topmost before arr index < arr.size := by
  unfold topmost
  rcases upper_cases before arr index (index * 2 + 1) with h1 | ⟨h1, _, hl⟩ <;>
    rcases upper_cases before arr (upper before arr index (index * 2 + 1)) (index * 2 + 2) with
      h2 | ⟨h2, _, hr⟩
  · exact .inl (h2.trans h1)
  · exact .inr (by omega)
  · exact .inr (by omega)
  · exact .inr (by omega)

theorem topmost_lt {arr : Array α} {index : Nat} (h : topmost before arr index ≠ index) :
    index < topmost before arr index ∧ topmost before arr index < arr.size :=
  (topmost_cases before arr index).resolve_left h

def siftDown (arr : Array α) (index : Nat) : Array α :=
  if h : topmost before arr index ≠ index then
    siftDown (arr.swap index (topmost before arr index)
      (by have := topmost_lt before h; omega) (topmost_lt before h).2)
      (topmost before arr index)
  else arr
termination_by arr.size - index
decreasing_by
  have := topmost_lt before h
  simp only [Array.size_swap]
  omega

def heapify (arr : Array α) : Array α :=
  (List.range (arr.size / 2)).reverse.foldl (siftDown before) arr

theorem siftDown_perm (arr : Array α) (index : Nat) : (siftDown before arr index).Perm arr := by
  fun_induction siftDown before arr index with
  | case1 arr index h ih => exact ih.trans (Array.swap_perm _ _)
  | case2 arr index h => exact .rfl

theorem foldl_siftDown_perm (is : List Nat) (arr : Array α) :
    (is.foldl (siftDown before) arr).Perm arr := by
  induction is generalizing arr with
  | nil => exact .rfl
  | cons i is ih => exact (ih _).trans (siftDown_perm before arr i)

theorem heapify_perm (arr : Array α) : (heapify before arr).Perm arr :=
  foldl_siftDown_perm before _ arr

@[simp] theorem heapify_size (arr : Array α) : (heapify before arr).size = arr.size :=
  (heapify_perm before arr).size_eq

/-! ## The order of the result -/

/-- `before` is a strict order in which what is not comparable counts as equal. -/
structure WeakOrder (before : α → α → Bool) : Prop where
  asymm : ∀ {a b}, before a b = true → before b a = false
  trans : ∀ {a b c}, before b a = false → before c b = false → before c a = false

theorem WeakOrder.irrefl {before : α → α → Bool} (hw : WeakOrder before) (a : α) :
    before a a = false := by
  cases h : before a a with
  | false => rfl
  | true => rw [← h, hw.asymm h]

/-- The two children of a position. -/
def IsChild (index child : Nat) : Prop := child = index * 2 + 1 ∨ child = index * 2 + 2

/-- From position `k` on no child belongs above its parent. -/
def OrderedFrom (arr : Array α) (k : Nat) : Prop :=
  ∀ i j p c, k ≤ i → IsChild i j → arr[i]? = some p → arr[j]? = some c → before c p = false

/-- Ordered from `k` on, except that the element at `index` may have to sink. -/
structure Sinking (arr : Array α) (k index : Nat) : Prop where
  from_k : k ≤ index
  off : ∀ i j p c, k ≤ i → i ≠ index → IsChild i j → arr[i]? = some p → arr[j]? = some c →
    before c p = false
  above : ∀ i j p c, k ≤ i → IsChild i index → IsChild index j → arr[i]? = some p →
    arr[j]? = some c → before c p = false

section Order
variable {before} {arr : Array α} {k index parent : Nat}

theorem topmost_isChild (h : topmost before arr index ≠ index) :
    IsChild index (topmost before arr index) := by
  unfold topmost at h ⊢
  rcases upper_cases before arr (upper before arr index (index * 2 + 1)) (index * 2 + 2) with
    h2 | ⟨h2, _⟩
  · rcases upper_cases before arr index (index * 2 + 1) with h1 | ⟨h1, _⟩
    · exact absurd (h2.trans h1) h
    · exact .inl (h2.trans h1)
  · exact .inr h2

/-- The one on top of a parent and a child: neither belongs above it. -/
theorem upper_top (hw : WeakOrder before) (child : Nat) {p : α} (hp : arr[parent]? = some p) :
    ∃ q, arr[upper before arr parent child]? = some q ∧ before p q = false ∧
      ∀ c, arr[child]? = some c → before c q = false := by
  unfold upper
  rw [hp]
  cases hc : arr[child]? with
  | none => exact ⟨p, hp, hw.irrefl p, fun c h => by cases h⟩
  | some c =>
    simp only
    split
    · rename_i hlt
      refine ⟨c, hc, hw.asymm hlt, fun c' h => ?_⟩
      cases h
      exact hw.irrefl c
    · rename_i hlt
      refine ⟨p, hp, hw.irrefl p, fun c' h => ?_⟩
      cases h
      exact Bool.eq_false_iff.mpr hlt

/-- The topmost of a position and its children: none of them belongs above it. -/
theorem topmost_top (hw : WeakOrder before) {p : α} (hp : arr[index]? = some p) :
    ∃ q, arr[topmost before arr index]? = some q ∧ before p q = false ∧
      ∀ j c, IsChild index j → arr[j]? = some c → before c q = false := by
  obtain ⟨m, hm, hpm, hlm⟩ := upper_top hw (index * 2 + 1) hp
  obtain ⟨q, hq, hmq, hrq⟩ := upper_top hw (index * 2 + 2) hm
  refine ⟨q, hq, hw.trans hmq hpm, ?_⟩
  intro j c hj hc
  rcases hj with rfl | rfl
  · exact hw.trans hmq (hlm c hc)
  · exact hrq c hc

/-- One exchange moves the disorder to the child that came up. -/
theorem Sinking.swap (hw : WeakOrder before) (hs : Sinking before arr k index)
    (hne : topmost before arr index ≠ index) (hi : index < arr.size) :
    Sinking before (arr.swap index (topmost before arr index) hi (topmost_lt before hne).2) k
      (topmost before arr index) := by
  obtain ⟨q, hq, hpq, hcq⟩ := topmost_top hw (Array.getElem?_eq_getElem hi)
  have ht := topmost_isChild hne
  obtain ⟨hlt, hsz⟩ := topmost_lt before hne
  generalize topmost before arr index = t at *
  have hget : ∀ i, (arr.swap index t hi hsz)[i]? =
      if t = i then some arr[index] else if index = i then some q else arr[i]? := by
    intro i
    rw [Array.getElem?_swap, ← Array.getElem?_eq_getElem hsz, hq]
  have hk := hs.from_k
  refine ⟨by omega, ?_, ?_⟩
  · intro i j p c hki hit hij hp hc
    rw [hget, if_neg (Ne.symm hit)] at hp
    rw [hget] at hc
    split at hp
    · -- the position the child came up to
      subst i
      cases hp
      split at hc
      · cases hc
        exact hpq
      · rw [if_neg (by unfold IsChild at hij; omega)] at hc
        exact hcq j c hij hc
    · rename_i hii
      rw [if_neg (by unfold IsChild at hij ht; omega)] at hc
      split at hc
      · subst j
        cases hc
        exact hs.above i t p q hki hij ht hp hq
      · exact hs.off i j p c hki (Ne.symm hii) hij hp hc
  · intro i j p c hki hit htj hp hc
    have hii : i = index := by unfold IsChild at hit ht; omega
    subst i
    rw [hget, if_neg (by omega), if_pos rfl] at hp
    cases hp
    rw [hget, if_neg (by unfold IsChild at htj; omega),
      if_neg (by unfold IsChild at htj; omega)] at hc
    exact hs.off t j q c (by omega) (by omega) htj hq hc

theorem siftDown_ordered (hw : WeakOrder before) (hs : Sinking before arr k index) :
    OrderedFrom before (siftDown before arr index) k := by
  fun_induction siftDown before arr index with
  | case1 arr index h ih => exact ih (hs.swap hw h _)
  | case2 arr index h =>
    intro i j p c hki hij hp hc
    by_cases hi : i = index
    · subst hi
      obtain ⟨q, hq, _, htop⟩ := topmost_top hw hp
      rw [not_not.mp h, hp] at hq
      cases hq
      exact htop j c hij hc
    · exact hs.off i j p c hki hi hij hp hc

/-- The loop lowers the bound from which the array is ordered down to the root. -/
theorem foldl_siftDown_ordered (hw : WeakOrder before) (m : Nat)
    (h : OrderedFrom before arr m) :
    OrderedFrom before ((List.range m).reverse.foldl (siftDown before) arr) 0 := by
  induction m generalizing arr with
  | zero => exact h
  | succ m ih =>
    rw [List.range_succ, List.reverse_append, List.reverse_singleton, List.singleton_append,
      List.foldl_cons]
    refine ih (siftDown_ordered hw ⟨Nat.le_refl m, ?_, ?_⟩)
    · intro i j p c hmi him hij hp hc
      exact h i j p c (by omega) hij hp hc
    · intro i j p c hmi him _ _ _
      unfold IsChild at him
      omega

theorem heapify_ordered (hw : WeakOrder before) (arr : Array α) :
    OrderedFrom before (heapify before arr) 0 := by
  refine foldl_siftDown_ordered hw _ ?_
  intro i j p c hi hij _ hc
  have := (Array.getElem?_eq_some_iff.mp hc).1
  unfold IsChild at hij
  omega

/-- In an ordered array nothing belongs above the root. -/
theorem OrderedFrom.root_top (hw : WeakOrder before) (h : OrderedFrom before arr 0) {r : α}
    (hr : arr[0]? = some r) (i : Nat) (c : α) (hc : arr[i]? = some c) : before c r = false := by
  induction i using Nat.strongRecOn generalizing c with
  | ind i ih =>
    by_cases hi : i = 0
    · subst hi
      rw [hr] at hc
      cases hc
      exact hw.irrefl r
    · have hlt := (Array.getElem?_eq_some_iff.mp hc).1
      have hp : arr[(i - 1) / 2]? = some arr[(i - 1) / 2] := Array.getElem?_eq_getElem (by omega)
      exact hw.trans (ih _ (by omega) _ hp)
        (h _ i _ c (Nat.zero_le _) (by unfold IsChild; omega) hp hc)

end Order

end Heapify

end Speedy.Lib
