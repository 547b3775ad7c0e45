import Mathlib.Data.List.Basic
import Mathlib.Tactic.Common

/-! # A sequence with a read cursor

What has been stored so far, how far it has been read, and how much can be stored
altogether. -/
namespace Speedy.Lib

structure Queue (α : Type*) where
  data : List α
  readPos : Nat
  cap : Nat

namespace Queue
variable {α : Type*} {q : Queue α}

def empty : Queue α := ⟨[], 0, 0⟩

/-- What is read next, to the end. -/
def unread (q : Queue α) : List α := q.data.drop q.readPos

/-- How much can still be stored. -/
def room (q : Queue α) : Nat := q.cap - q.data.length

def expand (q : Queue α) (n : Nat) : Queue α := { q with cap := q.cap + n }

def seek (q : Queue α) (pos : Nat) : Queue α := { q with readPos := pos }

def skip (q : Queue α) (n : Nat) : Queue α := { q with readPos := q.readPos + n }

def put (q : Queue α) (xs : List α) : Queue α := { q with data := q.data ++ xs }

/-- At most `n` elements, and what is left. -/
def read (q : Queue α) (n : Nat) : List α × Queue α :=
  (q.unread.take n, q.skip (q.unread.take n).length)

/-- As much as there is room for, and how much that is. -/
def write (q : Queue α) (xs : List α) : Nat × Queue α :=
  ((xs.take q.room).length, q.put (xs.take q.room))

theorem unread_length (q : Queue α) : q.unread.length = q.data.length - q.readPos :=
  List.length_drop ..

theorem skip_unread (q : Queue α) (n : Nat) : (q.skip n).unread = q.unread.drop n := by
  unfold unread skip
  rw [List.drop_drop]

theorem skip_skip (q : Queue α) (m n : Nat) : (q.skip m).skip n = q.skip (m + n) := by
  unfold skip
  rw [Nat.add_assoc]

theorem put_put (q : Queue α) (xs ys : List α) : (q.put xs).put ys = q.put (xs ++ ys) := by
  unfold put
  rw [List.append_assoc]

theorem put_room (q : Queue α) (xs : List α) : (q.put xs).room = q.room - xs.length := by
  unfold room put
  rw [List.length_append, Nat.sub_add_eq]

theorem read_nothing {n : Nat} (h : n = 0 ∨ q.unread = []) : q.read n = ([], q) := by
  have hnil : q.unread.take n = [] := by
    rcases h with rfl | h
    · exact List.take_zero
    · rw [h, List.take_nil]
  unfold read
  rw [hnil]
  rfl

/-- Reading some first. -/
theorem read_split {m n : Nat} (hm : m ≤ n) (hle : m ≤ q.unread.length) :
    q.read n = (q.unread.take m ++ ((q.skip m).read (n - m)).1, ((q.skip m).read (n - m)).2) := by
  have hsplit : q.unread.take n = q.unread.take m ++ (q.skip m).unread.take (n - m) := by
    rw [skip_unread, ← List.take_add, Nat.add_sub_cancel' hm]
  have hlen : (q.unread.take m).length = m := by
    rw [List.length_take]
    exact Nat.min_eq_left hle
  unfold read
  rw [skip_skip, hsplit, List.length_append, hlen]

theorem write_nothing {xs : List α} (h : xs = [] ∨ q.room = 0) : q.write xs = (0, q) := by
  have hnil : xs.take q.room = [] := by
    rcases h with rfl | h
    · exact List.take_nil
    · rw [h, List.take_zero]
  unfold write put
  rw [hnil, List.append_nil]
  rfl

/-- Storing some first. -/
theorem write_split {m : Nat} {xs : List α} (hm : m ≤ xs.length) (hle : m ≤ q.room) :
    q.write xs =
      (m + ((q.put (xs.take m)).write (xs.drop m)).1,
        ((q.put (xs.take m)).write (xs.drop m)).2) := by
  have hlen : (xs.take m).length = m := by
    rw [List.length_take]
    exact Nat.min_eq_left hm
  have hsplit : xs.take q.room = xs.take m ++ (xs.drop m).take (q.room - m) := by
    rw [← List.take_add, Nat.add_sub_cancel' hle]
  unfold write
  rw [put_put, put_room, hlen, hsplit, List.length_append, hlen]

end Queue
end Speedy.Lib
