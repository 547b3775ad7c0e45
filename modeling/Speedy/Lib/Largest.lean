import Mathlib.Data.List.Perm.Basic
import Mathlib.Data.List.Sort

/-! # The largest of a list

`Largest key k kept all` says that `kept` are `k` elements of `all` with the largest
keys, or all of them if there are not so many. Among equal keys the choice is free. -/
namespace Speedy.Lib

section Largest
variable {α β : Type} [LinearOrder β] {key : α → β} {k : Nat} {kept all : List α}

structure Largest (key : α → β) (k : Nat) (kept all : List α) : Prop where
  length : kept.length = min k all.length
  split : ∃ dropped, (kept ++ dropped).Perm all ∧ ∀ e ∈ kept, ∀ d ∈ dropped, key d ≤ key e

theorem Largest.nil (key : α → β) (k : Nat) : Largest key k [] [] :=
  ⟨by simp, [], .refl _, fun _ h => absurd h List.not_mem_nil⟩

theorem Largest.perm {kept' all' : List α} (h : Largest key k kept all) (hk : kept.Perm kept')
    (ha : all.Perm all') : Largest key k kept' all' := by
  obtain ⟨dropped, hp, hle⟩ := h.split
  refine ⟨by rw [← hk.length_eq, ← ha.length_eq, h.length], dropped, ?_, ?_⟩
  · exact (hk.symm.append_right dropped).trans (hp.trans ha)
  · intro e he
    exact hle e (hk.mem_iff.mpr he)

theorem Largest.congr {key' : α → β} (h : Largest key k kept all)
    (hkey : ∀ a ∈ all, key a = key' a) : Largest key' k kept all := by
  obtain ⟨dropped, hp, hle⟩ := h.split
  refine ⟨h.length, dropped, hp, ?_⟩
  intro e he d hd
  rw [← hkey e (hp.mem_iff.mp (List.mem_append_left _ he)),
    ← hkey d (hp.mem_iff.mp (List.mem_append_right _ hd))]
  exact hle e he d hd

theorem Largest.subperm (h : Largest key k kept all) : kept.Subperm all := by
  obtain ⟨dropped, hp, -⟩ := h.split
  exact (List.sublist_append_left kept dropped).subperm.trans hp.subperm

/-- As long as fewer than `k` are kept nothing has been dropped. -/
theorem Largest.perm_of_lt (h : Largest key k kept all) (hk : kept.length < k) :
    kept.Perm all := by
  obtain ⟨dropped, hp, -⟩ := h.split
  have hlen := hp.length_eq
  rw [List.length_append, h.length] at hlen
  have hk' := h.length ▸ hk
  have : dropped = [] := List.eq_nil_of_length_eq_zero (by omega)
  rwa [this, List.append_nil] at hp

theorem Largest.push (h : Largest key k kept all) (hk : kept.length < k) (a : α) :
    Largest key k (a :: kept) (a :: all) := by
  have hp := h.perm_of_lt hk
  have hlen := hp.length_eq
  refine ⟨by simp only [List.length_cons]; omega, [], ?_, ?_⟩
  · rw [List.append_nil]
    exact hp.cons a
  · intro e _ d hd
    cases hd

/-- A new element takes the place of a smallest kept one. -/
theorem Largest.replace {m a : α} {rest : List α} (h : Largest key k (m :: rest) all)
    (hk : (m :: rest).length = k) (hm : ∀ e ∈ m :: rest, key m ≤ key e) (ha : key m ≤ key a) :
    Largest key k (a :: rest) (a :: all) := by
  obtain ⟨dropped, hp, hle⟩ := h.split
  have hlen := h.length
  refine ⟨by simp only [List.length_cons] at hk hlen ⊢; omega, m :: dropped, ?_, ?_⟩
  · exact List.Perm.cons a (List.perm_middle.trans hp)
  · intro e he d hd
    have hme : key m ≤ key e := by
      rcases List.mem_cons.mp he with rfl | he
      · exact ha
      · exact hm e (List.mem_cons_of_mem m he)
    rcases List.mem_cons.mp hd with rfl | hd
    · exact hme
    · exact (hle m List.mem_cons_self d hd).trans hme

/-- A new element that is not larger than any kept one is dropped. -/
theorem Largest.keep {a : α} (h : Largest key k kept all) (hk : kept.length = k)
    (ha : ∀ e ∈ kept, key a ≤ key e) : Largest key k kept (a :: all) := by
  obtain ⟨dropped, hp, hle⟩ := h.split
  have hlen := h.length
  refine ⟨by simp only [List.length_cons]; omega, a :: dropped, ?_, ?_⟩
  · exact List.perm_middle.trans (hp.cons a)
  · intro e he d hd
    rcases List.mem_cons.mp hd with rfl | hd
    · exact ha e he
    · exact hle e he d hd

/-- The keys kept are the first `k` of all keys in descending order. -/
theorem Largest.keys (h : Largest key k kept all) :
    (kept.map key).Perm (((all.map key).mergeSort (· ≥ ·)).take k) := by
  obtain ⟨dropped, hp, hle⟩ := h.split
  have hsorted : (all.map key).mergeSort (· ≥ ·) =
      (kept.map key).mergeSort (· ≥ ·) ++ (dropped.map key).mergeSort (· ≥ ·) := by
    apply List.Perm.eq_of_sortedGE List.sortedGE_mergeSort
    · refine (List.pairwise_append.mpr ⟨List.sortedGE_mergeSort.pairwise,
        List.sortedGE_mergeSort.pairwise, ?_⟩).sortedGE
      intro x hx y hy
      obtain ⟨e, he, rfl⟩ := List.mem_map.mp (List.mem_mergeSort.mp hx)
      obtain ⟨d, hd, rfl⟩ := List.mem_map.mp (List.mem_mergeSort.mp hy)
      exact hle e he d hd
    · calc (all.map key).mergeSort (· ≥ ·)
          _ |>.Perm (all.map key) := List.mergeSort_perm _ _
          _ |>.Perm ((kept ++ dropped).map key) := (hp.map key).symm
          _ |>.Perm ((kept.map key).mergeSort (· ≥ ·) ++ (dropped.map key).mergeSort (· ≥ ·)) := by
            rw [List.map_append]
            exact ((List.mergeSort_perm _ _).append (List.mergeSort_perm _ _)).symm
  have hlen := h.length
  have hall := hp.length_eq
  rw [List.length_append] at hall
  have hdrop : ((dropped.map key).mergeSort (· ≥ ·)).take (k - kept.length) = [] := by
    rw [List.take_eq_nil_iff, ← List.length_eq_zero_iff, List.length_mergeSort, List.length_map]
    omega
  rw [hsorted, List.take_append, List.length_mergeSort, List.length_map, hdrop, List.append_nil,
    List.take_of_length_le (by rw [List.length_mergeSort, List.length_map]; omega)]
  exact (List.mergeSort_perm _ _).symm

/-- Elements with the largest keys among images come from such elements. -/
theorem Largest.of_map {γ : Type} {f : γ → α} {all : List γ} (h : Largest key k kept (all.map f)) :
    ∃ top : List γ, top.map f = kept ∧ Largest (key ∘ f) k top all := by
  obtain ⟨dropped, hp, hle⟩ := h.split
  rw [← congrFun₂ (List.eq_map_comp_perm f) (kept ++ dropped) all] at hp
  obtain ⟨l, hl, hperm⟩ := hp
  obtain ⟨top, rest, rfl, rfl, rfl⟩ := List.map_eq_append_iff.mp hl.symm
  refine ⟨top, rfl, by simpa only [List.length_map] using h.length, rest, hperm, ?_⟩
  intro e he d hd
  exact hle (f e) (List.mem_map_of_mem he) (f d) (List.mem_map_of_mem hd)

end Largest

end Speedy.Lib
