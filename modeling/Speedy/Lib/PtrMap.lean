import Mathlib.Data.List.AList
import Mathlib.Logic.Function.Basic
import Mathlib.Tactic.Common

/-! # A map of pointers

The map holds pointers to records, and several keys may hold the same pointer: what is
written through one of them is read through the others. A pointer that the map holds has
been handed out (`fresh`), so no entry changes when a new record is made.

`Agrees f g` says what a field `f` of the records is, key by key. The rules say what becomes
of it when a record is stored under a key, when it is written in place, and when one record
is written and stored under key after key (`Shares`). -/
namespace Speedy.Lib

/-- The records are numbered; `next` is the first number not in use. -/
structure PtrMap (κ α : Type) [DecidableEq κ] where
  index : AList fun _ : κ => Nat
  next : Nat
  record : Nat → α
  fresh : ∀ key p, index.lookup key = some p → p < next

namespace PtrMap
variable {κ α : Type} [DecidableEq κ]

def empty (a : α) : PtrMap κ α := ⟨∅, 0, fun _ => a, nofun⟩

def entry (m : PtrMap κ α) (key : κ) : Option α := (m.index.lookup key).map m.record

/-- A new map in the place of this one, which others may still hold. -/
def clear (m : PtrMap κ α) : PtrMap κ α := { m with index := ∅, fresh := nofun }

/-- A new record; its pointer is `m.next`. -/
def alloc (a : α) (m : PtrMap κ α) : PtrMap κ α where
  index := m.index
  next := m.next + 1
  record := fun q => if q = m.next then a else m.record q
  fresh key p hp := Nat.lt_succ_of_lt (m.fresh key p hp)

def write (p : Nat) (a : α) (m : PtrMap κ α) : PtrMap κ α :=
  { m with record := fun q => if q = p then a else m.record q }

theorem lookup_insert_eq (index : AList fun _ : κ => Nat) (key key' : κ) (p : Nat) :
    (index.insert key p).lookup key' = if key' = key then some p else index.lookup key' := by
  split
  · rename_i heq
    rw [heq, AList.lookup_insert]
  · rename_i hne
    exact AList.lookup_insert_ne hne

/-- The pointer under a key; it counts as handed out from now on. -/
def point (key : κ) (p : Nat) (m : PtrMap κ α) : PtrMap κ α where
  index := m.index.insert key p
  next := max m.next (p + 1)
  record := m.record
  fresh key' q hq := by
    rw [lookup_insert_eq] at hq
    split at hq
    · cases hq
      omega
    · have := m.fresh key' q hq
      omega

/-- A new record under a key. -/
def store (key : κ) (a : α) (m : PtrMap κ α) : PtrMap κ α := (m.alloc a).point key m.next

section Entry
variable {m : PtrMap κ α} {key key' : κ} {a : α} {p : Nat}

@[simp] theorem lookup_alloc : (m.alloc a).index.lookup key = m.index.lookup key := rfl

@[simp] theorem lookup_write : (m.write p a).index.lookup key = m.index.lookup key := rfl

theorem lookup_point : (m.point key p).index.lookup key' =
    if key' = key then some p else m.index.lookup key' :=
  lookup_insert_eq m.index key key' p

@[simp] theorem record_write : (m.write p a).record p = a := if_pos rfl

theorem record_write_ne {q : Nat} (h : q ≠ p) : (m.write p a).record q = m.record q := if_neg h

@[simp] theorem record_alloc : (m.alloc a).record m.next = a := if_pos rfl

@[simp] theorem record_point {q : Nat} : (m.point key p).record q = m.record q := rfl

@[simp] theorem entry_alloc : (m.alloc a).entry key = m.entry key := by
  unfold entry
  rw [lookup_alloc]
  cases hp : m.index.lookup key with
  | none => rfl
  | some p =>
    have hlt : p < m.next := m.fresh key p hp
    exact congrArg some (if_neg (Nat.ne_of_lt hlt))

theorem entry_point :
    (m.point key p).entry key' = if key' = key then some (m.record p) else m.entry key' := by
  unfold entry
  rw [lookup_point]
  split <;> rfl

theorem entry_store :
    (m.store key a).entry key' = if key' = key then some a else m.entry key' := by
  unfold store
  rw [entry_point, entry_alloc, record_alloc]

end Entry

section Agrees
variable {β : Type} {f : α → β} {g : κ → β} {m : PtrMap κ α} {key : κ} {a : α} {p : Nat} {v : β}

/-- The field `f` of the record under each key is what `g` says. -/
def Agrees (f : α → β) (g : κ → β) (m : PtrMap κ α) : Prop :=
  ∀ key a, m.entry key = some a → f a = g key

theorem agrees_store (h : m.Agrees f g) (key : κ) (a : α) (v : β) :
    (m.store key a).Agrees f (Function.update g key v) ↔ f a = v := by
  constructor
  · intro hstore
    have hkey := hstore key a (by rw [entry_store, if_pos rfl])
    rwa [Function.update_self] at hkey
  · intro hv key' b hb
    rw [entry_store] at hb
    by_cases heq : key' = key
    · rw [if_pos heq] at hb
      cases hb
      rw [heq, Function.update_self, hv]
    · rw [if_neg heq] at hb
      rw [Function.update_of_ne heq]
      exact h key' b hb

/-- A record that takes the place of another. -/
theorem agrees_replace (h : m.Agrees f g) (key : κ) (a : α) :
    (m.store key a).Agrees f g ↔ f a = g key := by
  rw [← agrees_store h key, Function.update_eq_self]

/-- Writing in place what leaves the field alone. -/
theorem agrees_write (hf : f a = f (m.record p)) : (m.write p a).Agrees f g ↔ m.Agrees f g := by
  have hrecord : ∀ q, f ((m.write p a).record q) = f (m.record q) := by
    intro q
    by_cases hq : q = p
    · rw [hq, record_write, hf]
    · rw [record_write_ne hq]
  have hentry : ∀ key, ((m.write p a).entry key).map f = (m.entry key).map f := by
    intro key
    unfold entry
    rw [lookup_write, Option.map_map, Option.map_map]
    exact congrArg (fun r => (m.index.lookup key).map r) (funext hrecord)
  have hagrees : ∀ m : PtrMap κ α,
      m.Agrees f g ↔ ∀ key b, (m.entry key).map f = some b → b = g key := by
    intro m
    constructor
    · intro h key b hb
      obtain ⟨a, ha, rfl⟩ := Option.map_eq_some_iff.mp hb
      exact h key a ha
    · intro h key a ha
      exact h key (f a) (by rw [ha]; rfl)
  rw [hagrees, hagrees]
  simp only [hentry]

/-- Some key holds `p`. -/
def Held (p : Nat) (m : PtrMap κ α) : Prop := ∃ key, m.index.lookup key = some p

theorem not_held_alloc : ¬ (m.alloc a).Held m.next := by
  rintro ⟨key, hkey⟩
  exact Nat.lt_irrefl _ (m.fresh key _ hkey)

@[simp] theorem held_write {q : Nat} : (m.write p a).Held q ↔ m.Held q := Iff.rfl

theorem held_point : (m.point key p).Held p := ⟨key, by rw [lookup_point, if_pos rfl]⟩

/-- The keys that do not hold `p` agree with `g`, and where `p` is held `g` is `v`. -/
structure Shares (f : α → β) (g : κ → β) (v : β) (p : Nat) (m : PtrMap κ α) : Prop where
  others : ∀ key q, m.index.lookup key = some q → q ≠ p → f (m.record q) = g key
  ours : ∀ key, m.index.lookup key = some p → g key = v

theorem Agrees.shares (h : m.Agrees f g) : (m.alloc a).Shares f g v m.next := by
  refine ⟨fun key q hq _ => ?_, fun key hp => absurd ⟨key, hp⟩ not_held_alloc⟩
  refine h key _ ?_
  rw [← entry_alloc (a := a)]
  unfold entry
  rw [hq]
  rfl

theorem Shares.write (h : m.Shares f g v p) (a : α) : (m.write p a).Shares f g v p := by
  refine ⟨fun key q hq hne => ?_, h.ours⟩
  rw [record_write_ne hne]
  exact h.others key q hq hne

theorem Shares.point (h : m.Shares f g v p) (key : κ) :
    (m.point key p).Shares f (Function.update g key v) v p := by
  constructor
  · intro key' q hq hne
    rw [lookup_point] at hq
    by_cases heq : key' = key
    · rw [if_pos heq] at hq
      exact absurd (Option.some.inj hq).symm hne
    · rw [if_neg heq] at hq
      rw [Function.update_of_ne heq]
      exact h.others key' q hq hne
  · intro key' hp
    by_cases heq : key' = key
    · rw [heq, Function.update_self]
    · rw [lookup_point, if_neg heq] at hp
      rw [Function.update_of_ne heq]
      exact h.ours key' hp

/-- It is the last value of the shared record that counts. -/
theorem Shares.agrees_iff (h : m.Shares f g v p) :
    m.Agrees f g ↔ (m.Held p → f (m.record p) = v) := by
  constructor
  · rintro hagrees ⟨key, hp⟩
    rw [← h.ours key hp]
    refine hagrees key _ ?_
    unfold entry
    rw [hp]
    rfl
  · intro hv key a ha
    obtain ⟨q, hq, rfl⟩ := Option.map_eq_some_iff.mp ha
    by_cases heq : q = p
    · subst heq
      rw [h.ours key hq]
      exact hv ⟨key, hq⟩
    · exact h.others key q hq heq

end Agrees

section Unshared
variable {m : PtrMap κ α} {key key' : κ} {p : Nat}

/-- No two keys hold the same pointer. -/
def Unshared (m : PtrMap κ α) : Prop :=
  ∀ key key' p, m.index.lookup key = some p → m.index.lookup key' = some p → key = key'

/-- What is written through one key is not seen through another. -/
theorem Unshared.entry_write (h : m.Unshared) (hp : m.index.lookup key = some p) (a : α)
    (hne : key' ≠ key) : (m.write p a).entry key' = m.entry key' := by
  unfold entry
  rw [lookup_write]
  cases hq : m.index.lookup key' with
  | none => rfl
  | some q =>
    have hqp : q ≠ p := fun he => hne (h key' key p (he ▸ hq) hp)
    exact congrArg some (record_write_ne hqp)

/-- It is seen where the pointer is shared, if it changes something. -/
theorem unshared_of_writes (h : ∀ key p, m.index.lookup key = some p →
    ∃ a, a ≠ m.record p ∧ ∀ key', key' ≠ key → (m.write p a).entry key' = m.entry key') :
    m.Unshared := by
  intro key key' p hp hp'
  obtain ⟨a, ha, hsame⟩ := h key p hp
  by_contra hne
  have hkey := hsame key' (Ne.symm hne)
  unfold entry at hkey
  rw [lookup_write, hp', Option.map_some, Option.map_some, record_write] at hkey
  exact ha (Option.some.inj hkey)

end Unshared

end PtrMap

end Speedy.Lib
