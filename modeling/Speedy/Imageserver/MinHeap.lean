import Speedy.Lib.Heapify
import Speedy.Lib.Largest

/-! # The bounded heap of the group selection

`MinHeap` keeps up to `capacity` groups, those with the most free space; a second
order, by load, is imposed at the end. -/
namespace Speedy.Imageserver
open Speedy.Lib

structure HeapElement where
  groupId : String
  freeSpace : Int
  pendingWrites : Int
  writingCount : Int
  deriving DecidableEq, Repr

/-- `arr` is the part of the slice before `size`. -/
structure MinHeap where
  capacity : Nat
  arr : Array HeapElement
  pos : 0 < capacity
  size_le : arr.size ≤ capacity

def newMinHeap (capa : Nat) (h : 0 < capa) : MinHeap := ⟨capa, #[], h, Nat.zero_le _⟩

def MinHeap.getSize (h : MinHeap) : Nat := h.arr.size

def MinHeap.getElementGroupId (h : MinHeap) (index : Nat) : Except String String :=
  match h.arr[index]? with
  | none => .error ("index: " ++ toString index ++ " > h.Size: " ++ toString h.getSize)
  | some e => .ok e.groupId

/-- The test of `compare`. -/
def lessSpace (child parent : HeapElement) : Bool := parent.freeSpace > child.freeSpace

/-- The test of `compareSecondary`: the writing count decides only when no write is
pending on either side. -/
def lessLoad (child parent : HeapElement) : Bool :=
  if parent.pendingWrites = 0 ∧ child.pendingWrites = 0 then
    parent.writingCount > child.writingCount
  else parent.pendingWrites > child.pendingWrites

def MinHeap.heapify (h : MinHeap) (before : HeapElement → HeapElement → Bool) : MinHeap :=
  { h with
    arr := Lib.heapify before h.arr
    size_le := by rw [heapify_size]; exact h.size_le }

def MinHeap.buildMinHeap (h : MinHeap) : MinHeap := h.heapify lessSpace

def MinHeap.buildMinHeapSecondary (h : MinHeap) : MinHeap := h.heapify lessLoad

def MinHeap.addElement (h : MinHeap) (groupId : String)
    (freeSpace pendingWrites writingCount : Int) :
    MinHeap :=
  let ele : HeapElement := ⟨groupId, freeSpace, pendingWrites, writingCount⟩
  if hlt : h.arr.size < h.capacity then
    let h' : MinHeap :=
      { h with
        arr := h.arr.push ele
        size_le := by rw [Array.size_push]; exact hlt }
    if h'.arr.size = h'.capacity then h'.buildMinHeap else h'
  else
    have h0 : 0 < h.arr.size := by have := h.pos; omega
    if ele.freeSpace > h.arr[0].freeSpace then
      MinHeap.buildMinHeap
        { h with
          arr := h.arr.set 0 ele
          size_le := by rw [Array.size_set]; exact h.size_le }
    else h

section MinHeap
variable {h : MinHeap} {e : HeapElement}

theorem MinHeap.mem_heapify (before : HeapElement → HeapElement → Bool) :
    e ∈ (h.heapify before).arr ↔ e ∈ h.arr :=
  (heapify_perm before h.arr).mem_iff

end MinHeap

/-! ## What the heap keeps -/

theorem lessSpace_weakOrder : WeakOrder lessSpace where
  asymm := by
    intro a b h
    simp only [lessSpace, decide_eq_true_eq, decide_eq_false_iff_not] at h ⊢
    omega
  trans := by
    intro a b c h1 h2
    simp only [lessSpace, decide_eq_false_iff_not] at h1 h2 ⊢
    omega

/-- A sequence of calls. -/
def MinHeap.addElements (h : MinHeap) (calls : List HeapElement) : MinHeap :=
  calls.foldl (fun h e => h.addElement e.groupId e.freeSpace e.pendingWrites e.writingCount) h

/-- The heap holds those with the most free space of what was added; a full heap has
the least of them at the root. -/
structure MinHeap.Holds (h : MinHeap) (added : List HeapElement) : Prop where
  largest : Largest HeapElement.freeSpace h.capacity h.arr.toList added
  root : h.arr.size = h.capacity → ∀ r, h.arr[0]? = some r → ∀ e ∈ h.arr, r.freeSpace ≤ e.freeSpace

section Holds
variable {h : MinHeap} {added : List HeapElement}

@[simp] theorem MinHeap.capacity_addElement (groupId : String)
    (freeSpace pendingWrites writingCount : Int) :
    (h.addElement groupId freeSpace pendingWrites writingCount).capacity = h.capacity := by
  unfold MinHeap.addElement
  simp only
  split
  · split <;> rfl
  · split <;> rfl

theorem MinHeap.buildMinHeap_root {r e : HeapElement} (hr : h.buildMinHeap.arr[0]? = some r)
    (he : e ∈ h.buildMinHeap.arr) : r.freeSpace ≤ e.freeSpace := by
  obtain ⟨i, hi⟩ := Array.mem_iff_getElem?.mp he
  have htop := (heapify_ordered lessSpace_weakOrder h.arr).root_top lessSpace_weakOrder hr i e hi
  simpa only [lessSpace, decide_eq_false_iff_not, Int.not_lt] using htop

/-- Rebuilding makes the root the least, whatever the order was. -/
theorem MinHeap.holds_buildMinHeap
    (hl : Largest HeapElement.freeSpace h.capacity h.arr.toList added) :
    h.buildMinHeap.Holds added where
  largest := hl.perm (heapify_perm lessSpace h.arr).symm.toList (.refl _)
  root _ _ hr _ he := MinHeap.buildMinHeap_root hr he

theorem MinHeap.holds_new (capa : Nat) (hc : 0 < capa) : (newMinHeap capa hc).Holds [] where
  largest := .nil _ _
  root _ _ _ e he := absurd he (Array.not_mem_empty e)

theorem MinHeap.Holds.addElement (hh : h.Holds added) (e : HeapElement) :
    (h.addElement e.groupId e.freeSpace e.pendingWrites e.writingCount).Holds (added ++ [e]) := by
  have hadd : (e :: added).Perm (added ++ [e]) := (List.perm_append_singleton e added).symm
  unfold MinHeap.addElement
  simp only
  split
  · rename_i hlt
    have hpush : Largest HeapElement.freeSpace h.capacity (h.arr.push e).toList (added ++ [e]) := by
      rw [Array.toList_push]
      exact (hh.largest.push hlt e).perm (List.perm_append_singleton e _).symm hadd
    split
    · exact MinHeap.holds_buildMinHeap hpush
    · rename_i hne
      exact ⟨hpush, fun hfull => absurd hfull hne⟩
  · rename_i hlt
    have hfull : h.arr.size = h.capacity := Nat.le_antisymm h.size_le (Nat.le_of_not_lt hlt)
    have hpos : 0 < h.arr.size := hfull ▸ h.pos
    have hmin := hh.root hfull h.arr[0] (Array.getElem?_eq_getElem hpos)
    split
    · rename_i hgt
      obtain ⟨m, rest, hrest⟩ := List.exists_cons_of_length_pos (l := h.arr.toList) hpos
      have hm : h.arr[0] = m := by simp only [← Array.getElem_toList, hrest, List.getElem_cons_zero]
      rw [hm] at hmin hgt
      apply MinHeap.holds_buildMinHeap
      simp only [Array.toList_set, hrest, List.set_cons_zero]
      refine Largest.perm (Largest.replace (hrest ▸ hh.largest) ?_ ?_ ?_) (.refl _) hadd
      · rw [← hrest]
        exact hfull
      · intro x hx
        rw [← hrest] at hx
        exact hmin x (Array.mem_toList_iff.mp hx)
      · exact Int.le_of_lt hgt
    · rename_i hle
      refine ⟨?_, hh.root⟩
      refine (hh.largest.keep hfull fun x hx => ?_).perm (.refl _) hadd
      have := hmin x (Array.mem_toList_iff.mp hx)
      omega

theorem MinHeap.Holds.addElements (hh : h.Holds added) (calls : List HeapElement) :
    (h.addElements calls).Holds (added ++ calls) := by
  induction calls generalizing h added with
  | nil => rwa [List.append_nil]
  | cons e calls ih =>
    have := ih (hh.addElement e)
    rwa [List.append_assoc, List.singleton_append] at this

theorem MinHeap.capacity_addElements (calls : List HeapElement) :
    (h.addElements calls).capacity = h.capacity := by
  induction calls generalizing h with
  | nil => rfl
  | cons e calls ih => exact ih.trans (MinHeap.capacity_addElement _ _ _ _)

theorem MinHeap.largest_addElements (capa : Nat) (hc : 0 < capa) (calls : List HeapElement) :
    Largest HeapElement.freeSpace capa ((newMinHeap capa hc).addElements calls).arr.toList
      calls := by
  have hl := ((MinHeap.holds_new capa hc).addElements calls).largest
  rwa [MinHeap.capacity_addElements] at hl

end Holds

/-- After any sequence of calls the heap holds as many of the elements as it can, each as
often as it was added at most; their free spaces are the largest ones, and in a full heap
the root has the least of them. -/
theorem addElements_keeps_largest (capa : Nat) (hc : 0 < capa) (calls : List HeapElement) :
    let h := (newMinHeap capa hc).addElements calls
    h.getSize = min capa calls.length ∧
    h.arr.toList.Subperm calls ∧
    (h.arr.toList.map HeapElement.freeSpace).Perm
      (((calls.map HeapElement.freeSpace).mergeSort (· ≥ ·)).take capa) ∧
    (h.getSize = capa → ∃ r, h.arr[0]? = some r ∧ ∀ e ∈ h.arr, r.freeSpace ≤ e.freeSpace) := by
  intro h
  have hh : h.Holds calls := (MinHeap.holds_new capa hc).addElements calls
  have hcap : h.capacity = capa := MinHeap.capacity_addElements calls
  have hl := MinHeap.largest_addElements capa hc calls
  refine ⟨hl.length, hl.subperm, hl.keys, ?_⟩
  intro hfull
  have hpos : 0 < h.arr.size := by
    have : h.arr.size = capa := hfull
    omega
  have hroot := Array.getElem?_eq_getElem hpos
  exact ⟨h.arr[0], hroot, hh.root (hcap ▸ hfull) _ hroot⟩

theorem addElements_keeps_largest_two :
    0 < 2 ∧ (((newMinHeap 2 Nat.two_pos).addElements
      [⟨"1", 30, 0, 0⟩, ⟨"2", 10, 0, 0⟩, ⟨"3", 20, 0, 0⟩]).arr.toList.map
        HeapElement.freeSpace).Perm [30, 20] := by
  refine ⟨Nat.two_pos, ?_⟩
  obtain ⟨-, -, hkeys, -⟩ := addElements_keeps_largest 2 Nat.two_pos
    [⟨"1", 30, 0, 0⟩, ⟨"2", 10, 0, 0⟩, ⟨"3", 20, 0, 0⟩]
  simpa [List.mergeSort, List.MergeSort.Internal.splitInTwo] using hkeys

/-! ## The order by load -/

/-- `a` is not heavier than `b`: pending writes count first, and the writing count where
neither has any. -/
def HeapElement.LoadLe (a b : HeapElement) : Prop :=
  a.pendingWrites ≤ b.pendingWrites ∧
    (a.pendingWrites = 0 → b.pendingWrites = 0 → a.writingCount ≤ b.writingCount)

theorem lessLoad_eq_false_iff (child parent : HeapElement) :
    lessLoad child parent = false ↔ parent.LoadLe child := by
  unfold lessLoad HeapElement.LoadLe
  split <;> simp only [decide_eq_false_iff_not, Int.not_lt, gt_iff_lt] <;> omega

theorem HeapElement.LoadLe.trans {a b c : HeapElement} (hab : a.LoadLe b) (hbc : b.LoadLe c) :
    a.LoadLe c := by
  refine ⟨Int.le_trans hab.1 hbc.1, ?_⟩
  intro ha hc
  -- what lies between two elements without pending writes has none either
  have hb : b.pendingWrites = 0 := by
    have h1 := hab.1
    have h2 := hbc.1
    omega
  exact Int.le_trans (hab.2 ha hb) (hbc.2 hb hc)

theorem HeapElement.LoadLe.total (a b : HeapElement) : a.LoadLe b ∨ b.LoadLe a := by
  unfold HeapElement.LoadLe
  omega

/-- The key of the comparison depends on both sides, and still it is an order. -/
theorem lessLoad_weakOrder : WeakOrder lessLoad where
  asymm := by
    intro a b h
    rw [lessLoad_eq_false_iff]
    refine (HeapElement.LoadLe.total a b).resolve_right ?_
    intro hba
    rw [(lessLoad_eq_false_iff a b).mpr hba] at h
    cases h
  trans := by
    intro a b c hab hbc
    rw [lessLoad_eq_false_iff] at hab hbc ⊢
    exact hab.trans hbc

/-- The heap by load holds what it held, no parent is heavier than its children, and the
root is not heavier than anything held. -/
theorem buildMinHeapSecondary_ordered (h : MinHeap) :
    let built := h.buildMinHeapSecondary
    built.capacity = h.capacity ∧ built.arr.Perm h.arr ∧
    (∀ index child p c, IsChild index child → built.arr[index]? = some p →
      built.arr[child]? = some c → p.LoadLe c) ∧
    (∀ root, built.arr[0]? = some root → ∀ e ∈ h.arr, root.LoadLe e) := by
  have hordered := heapify_ordered lessLoad_weakOrder h.arr
  refine ⟨rfl, heapify_perm lessLoad h.arr, ?_, ?_⟩
  · intro index child p c hchild hp hc
    rw [← lessLoad_eq_false_iff]
    exact hordered index child p c (Nat.zero_le _) hchild hp hc
  · intro root hroot e he
    rw [← lessLoad_eq_false_iff]
    obtain ⟨i, hi⟩ := Array.mem_iff_getElem?.mp ((heapify_perm lessLoad h.arr).mem_iff.mpr he)
    exact hordered.root_top lessLoad_weakOrder hroot i e hi

end Speedy.Imageserver
