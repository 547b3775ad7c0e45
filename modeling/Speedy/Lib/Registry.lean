import Mathlib.Logic.Function.Basic
import Mathlib.Tactic.Common

/-! # A table of open resources

Resources are numbered in the order in which they are opened, and a table has one under
each of its keys. A resource may leave the table before it is closed; `Kept gone` says that
the open resources are those of the table and those in `gone`, and that no two keys share
one. The operations take `gone` to what it is afterwards, so a sequence of them that ends
with nothing in `gone` has closed everything it took out. -/
namespace Speedy.Lib

structure Registry (κ : Type) where
  ids : κ → Option Nat
  next : Nat
  isOpen : Nat → Bool

namespace Registry
variable {κ : Type} {gone gone' : Nat → Prop} {r : Registry κ} {k : κ} {id : Nat}

structure Kept (gone : Nat → Prop) (r : Registry κ) : Prop where
  alloc : ∀ k id, r.ids k = some id → id < r.next
  one : ∀ k k' id, r.ids k = some id → r.ids k' = some id → k = k'
  opened : ∀ id, r.isOpen id = true ↔ (∃ k, r.ids k = some id) ∨ gone id
  apart : ∀ id, gone id → id < r.next ∧ ∀ k, r.ids k ≠ some id

theorem Kept.congr (h : Kept gone r) (hgone : ∀ id, gone id ↔ gone' id) : Kept gone' r := by
  refine ⟨h.alloc, h.one, fun id => ?_, fun id hid => h.apart id ((hgone id).mpr hid)⟩
  rw [← hgone id]
  exact h.opened id

theorem kept_empty : Kept (fun _ => False) (⟨fun _ => none, 0, fun _ => false⟩ : Registry κ) := by
  refine ⟨nofun, nofun, fun id => iff_of_false nofun ?_, nofun⟩
  rintro (⟨k, hk⟩ | h)
  · cases hk
  · exact h

section Update
variable [DecidableEq κ]

def drop (k : κ) (r : Registry κ) : Registry κ := { r with ids := Function.update r.ids k none }

def register (k : κ) (r : Registry κ) : Registry κ where
  ids := Function.update r.ids k (some r.next)
  next := r.next + 1
  isOpen := Function.update r.isOpen r.next true

def close (id : Nat) (r : Registry κ) : Registry κ :=
  { r with isOpen := Function.update r.isOpen id false }

theorem drop_ids {k' : κ} : (r.drop k).ids k' = some id ↔ k' ≠ k ∧ r.ids k' = some id := by
  unfold drop
  simp only [Function.update_apply]
  split
  · rename_i heq
    exact iff_of_false nofun fun h => h.1 heq
  · rename_i hne
    exact ⟨fun h => ⟨hne, h⟩, fun h => h.2⟩

/-- What a key had is open and in no table. -/
theorem Kept.drop (h : Kept gone r) (k : κ) :
    Kept (fun id => gone id ∨ r.ids k = some id) (r.drop k) := by
  refine ⟨?_, ?_, ?_, ?_⟩
  · intro k' id hid
    exact h.alloc k' id (drop_ids.mp hid).2
  · intro k1 k2 id h1 h2
    exact h.one k1 k2 id (drop_ids.mp h1).2 (drop_ids.mp h2).2
  · intro id
    refine (h.opened id).trans ?_
    constructor
    · rintro (⟨k', hk'⟩ | hgone)
      · by_cases heq : k' = k
        · exact .inr (.inr (heq ▸ hk'))
        · exact .inl ⟨k', drop_ids.mpr ⟨heq, hk'⟩⟩
      · exact .inr (.inl hgone)
    · rintro (⟨k', hk'⟩ | hgone | hk)
      · exact .inl ⟨k', (drop_ids.mp hk').2⟩
      · exact .inr hgone
      · exact .inl ⟨k, hk⟩
  · rintro id (hgone | hk)
    · obtain ⟨hlt, hno⟩ := h.apart id hgone
      exact ⟨hlt, fun k' hk' => hno k' (drop_ids.mp hk').2⟩
    · refine ⟨h.alloc k id hk, fun k' hk' => ?_⟩
      obtain ⟨hne, hk'⟩ := drop_ids.mp hk'
      exact hne (h.one k' k id hk' hk)

/-- The same for a list of keys. -/
theorem Kept.dropAll (h : Kept gone r) (ks : List κ) :
    Kept (fun id => gone id ∨ ∃ k ∈ ks, r.ids k = some id) (ks.foldl (fun r k => r.drop k) r) := by
  induction ks generalizing gone r with
  | nil => exact h.congr fun _ => ⟨.inl, fun hid => hid.elim (fun hgone => hgone) nofun⟩
  | cons k ks ih =>
    refine (ih (h.drop k)).congr fun id => ?_
    constructor
    · rintro ((hgone | hk) | ⟨k', hk', hid⟩)
      · exact .inl hgone
      · exact .inr ⟨k, List.mem_cons_self, hk⟩
      · exact .inr ⟨k', List.mem_cons_of_mem _ hk', (drop_ids.mp hid).2⟩
    · rintro (hgone | ⟨k', hk', hid⟩)
      · exact .inl (.inl hgone)
      · by_cases heq : k' = k
        · exact .inl (.inr (heq ▸ hid))
        · exact .inr ⟨k', (List.mem_cons.mp hk').resolve_left heq, drop_ids.mpr ⟨heq, hid⟩⟩

theorem dropAll_ids (ks : List κ) (k : κ) (id : Nat) :
    (ks.foldl (fun r k => r.drop k) r).ids k = some id ↔ k ∉ ks ∧ r.ids k = some id := by
  induction ks generalizing r with
  | nil => exact ⟨fun h => ⟨List.not_mem_nil, h⟩, fun h => h.2⟩
  | cons k' ks ih =>
    rw [List.foldl_cons, ih, drop_ids, List.mem_cons, not_or, and_left_comm, and_assoc]

theorem register_ids (hk : r.ids k = none) (k' : κ) (id : Nat) :
    (r.register k).ids k' = some id ↔ (k' = k ∧ id = r.next) ∨ r.ids k' = some id := by
  unfold register
  simp only [Function.update_apply]
  split
  · rename_i heq
    rw [heq, hk]
    constructor
    · intro hid
      exact .inl ⟨rfl, (Option.some.inj hid).symm⟩
    · rintro (⟨-, rfl⟩ | hid)
      · rfl
      · cases hid
  · rename_i hne
    exact ⟨.inr, fun hid => hid.elim (fun hid => absurd hid.1 hne) fun hid => hid⟩

/-- A new resource under a key that had none. -/
theorem Kept.register (h : Kept gone r) (hk : r.ids k = none) : Kept gone (r.register k) := by
  have hids := register_ids hk
  refine ⟨?_, ?_, ?_, ?_⟩
  · intro k' id hid
    rcases (hids k' id).mp hid with ⟨-, rfl⟩ | hid
    · exact Nat.lt_succ_self _
    · exact Nat.lt_succ_of_lt (h.alloc k' id hid)
  · intro k1 k2 id h1 h2
    rcases (hids k1 id).mp h1 with ⟨rfl, rfl⟩ | hold1
    · rcases (hids k2 _).mp h2 with ⟨rfl, -⟩ | hold2
      · rfl
      · exact absurd (h.alloc k2 _ hold2) (Nat.lt_irrefl _)
    · rcases (hids k2 id).mp h2 with ⟨rfl, rfl⟩ | hold2
      · exact absurd (h.alloc k1 _ hold1) (Nat.lt_irrefl _)
      · exact h.one k1 k2 id hold1 hold2
  · intro id
    show Function.update r.isOpen r.next true id = true ↔ _
    rw [Function.update_apply]
    split
    · rename_i heq
      exact iff_of_true rfl (.inl ⟨k, (hids k id).mpr (.inl ⟨rfl, heq⟩)⟩)
    · rename_i hne
      rw [h.opened id]
      refine or_congr_left ?_
      constructor
      · rintro ⟨k', hk'⟩
        exact ⟨k', (hids k' id).mpr (.inr hk')⟩
      · rintro ⟨k', hk'⟩
        rcases (hids k' id).mp hk' with ⟨-, heq⟩ | hk'
        · exact absurd heq hne
        · exact ⟨k', hk'⟩
  · intro id hgone
    obtain ⟨hlt, hno⟩ := h.apart id hgone
    refine ⟨Nat.lt_succ_of_lt hlt, fun k' hk' => ?_⟩
    rcases (hids k' id).mp hk' with ⟨-, rfl⟩ | hk'
    · exact Nat.lt_irrefl _ hlt
    · exact hno k' hk'

omit [DecidableEq κ] in
/-- A resource that is not in the table is closed. -/
theorem Kept.close (h : Kept gone r) (hid : ∀ k, r.ids k ≠ some id) :
    Kept (fun id' => gone id' ∧ id' ≠ id) (r.close id) := by
  refine ⟨h.alloc, h.one, ?_, fun id' hgone => h.apart id' hgone.1⟩
  intro id'
  show Function.update r.isOpen id false id' = true ↔ _
  rw [Function.update_apply]
  split
  · rename_i heq
    refine iff_of_false nofun ?_
    rintro (⟨k, hk⟩ | ⟨-, hne⟩)
    · exact hid k (heq ▸ hk)
    · exact hne heq
  · rename_i hne
    rw [h.opened id']
    exact or_congr_right ⟨fun hgone => ⟨hgone, hne⟩, fun hgone => hgone.1⟩

end Update
end Registry
end Speedy.Lib
