import Mathlib.Data.List.Sort
import Speedy.Lib.Float

/-! # The table `key_list`

The metadata database is one table of rows with a key, the digest of the key, by
which all queries but one select, a value and two times. Values are the JSON texts
of fragments under a file's path, and the names of files under a directory's key.
JSON is taken at the level of its documents: an object is the list of its fields.
The database compares names by the collation of the table: two names are the same to it
when `collate` makes the same of them. -/
namespace Speedy.Imageserver
open Speedy.Lib

abbrev Key := List Char

inductive JsonField where
  | index
  | start
  | stop
  | groupId
  | fileId
  | isLast
  | modTime
  deriving DecidableEq, Repr

inductive JsonScalar where
  | number (n : Nat)
  | bool (b : Bool)
  | time (t : Nat)
  deriving DecidableEq, Repr

abbrev JsonObject := List (JsonField × JsonScalar)

inductive ListValue where
  | json (o : JsonObject)
  | name (s : Key)
  deriving DecidableEq, Repr

/-- What a value is compared by -/
def ListValue.collated (collate : Key → Key) : ListValue → ListValue
  | .json o => .json o
  | .name s => .name (collate s)

/-- A row; `δ` is the type of digests. -/
structure Row (δ : Type) where
  listKey : Key
  md5Key : δ
  listValue : ListValue
  createTime : Nat
  updateTime : Nat
  deriving DecidableEq, Repr

abbrev KeyList (δ : Type) := List (Row δ)

/-- The statements that change the table -/
inductive Stmt where
  | pushList (key : Key) (value : ListValue)
  | delList (key : Key)
  | delListOne (key : Key) (value : ListValue)
  deriving DecidableEq, Repr

def Stmt.key : Stmt → Key
  | .pushList key _ => key
  | .delList key => key
  | .delListOne key _ => key

section Table
variable {δ : Type} [DecidableEq δ] (encrypt : Key → δ) (collate : Key → Key)

/-- A statement executed at the time `now` -/
def Stmt.exec (now : Nat) (t : KeyList δ) : Stmt → KeyList δ
  | .pushList key value => t ++ [⟨key, encrypt key, value, now, now⟩]
  | .delList key => t.filter fun r => r.md5Key ≠ encrypt key
  | .delListOne key value => t.filter fun r =>
    ¬ (r.md5Key = encrypt key ∧ r.listValue.collated collate = value.collated collate)

def execAll (t : KeyList δ) (stmts : List (Nat × Stmt)) : KeyList δ :=
  stmts.foldl (fun t s => s.2.exec encrypt collate s.1 t) t

/-- The rows a query for a key selects -/
def rowsOf (key : Key) (t : KeyList δ) : KeyList δ := t.filter fun r => r.md5Key = encrypt key

/-- An answer of `getList`: the rows of the key in descending order of `create_time`,
rows of the same second in any order -/
def GetList (key : Key) (t : KeyList δ) (answer : KeyList δ) : Prop :=
  answer.Perm (rowsOf encrypt key t) ∧ answer.Pairwise fun r q => q.createTime ≤ r.createTime

end Table

section Rows
variable {δ : Type} [DecidableEq δ] {encrypt : Key → δ} {collate : Key → Key} {t : KeyList δ}
  {key key' : Key} {value : ListValue}

@[simp] theorem execAll_nil : execAll encrypt collate t [] = t := rfl

@[simp] theorem execAll_cons (s : Nat × Stmt) (stmts : List (Nat × Stmt)) :
    execAll encrypt collate t (s :: stmts) =
      execAll encrypt collate (s.2.exec encrypt collate s.1 t) stmts := rfl

theorem execAll_append (a b : List (Nat × Stmt)) :
    execAll encrypt collate t (a ++ b) = execAll encrypt collate (execAll encrypt collate t a) b :=
  List.foldl_append ..

theorem rowsOf_pushList_self (now : Nat) :
    rowsOf encrypt key ((Stmt.pushList key value).exec encrypt collate now t) =
      rowsOf encrypt key t ++ [⟨key, encrypt key, value, now, now⟩] := by
  simp [Stmt.exec, rowsOf]

theorem rowsOf_pushList_of_ne (now : Nat) (h : encrypt key' ≠ encrypt key) :
    rowsOf encrypt key ((Stmt.pushList key' value).exec encrypt collate now t) =
      rowsOf encrypt key t := by
  simp [Stmt.exec, rowsOf, h]

theorem rowsOf_delList_self (now : Nat) :
    rowsOf encrypt key ((Stmt.delList key).exec encrypt collate now t) = [] := by
  simp [Stmt.exec, rowsOf, List.filter_filter]

theorem rowsOf_delList_of_ne (now : Nat) (h : encrypt key' ≠ encrypt key) :
    rowsOf encrypt key ((Stmt.delList key').exec encrypt collate now t) = rowsOf encrypt key t := by
  simp only [Stmt.exec, rowsOf, List.filter_filter]
  refine List.filter_congr fun r _ => ?_
  by_cases hr : r.md5Key = encrypt key
  · simp [hr, Ne.symm h]
  · simp [hr]

theorem rowsOf_delListOne_self (now : Nat) :
    rowsOf encrypt key ((Stmt.delListOne key value).exec encrypt collate now t) =
      (rowsOf encrypt key t).filter fun r =>
        r.listValue.collated collate ≠ value.collated collate := by
  simp only [Stmt.exec, rowsOf, List.filter_filter]
  refine List.filter_congr fun r _ => ?_
  by_cases hr : r.md5Key = encrypt key <;> simp [hr]

theorem rowsOf_delListOne_of_ne (now : Nat) (h : encrypt key' ≠ encrypt key) :
    rowsOf encrypt key ((Stmt.delListOne key' value).exec encrypt collate now t) =
      rowsOf encrypt key t := by
  simp only [Stmt.exec, rowsOf, List.filter_filter]
  refine List.filter_congr fun r _ => ?_
  by_cases hr : r.md5Key = encrypt key
  · simp [hr, Ne.symm h]
  · simp [hr]

/-- Statements about other keys leave the rows of a key alone. -/
theorem rowsOf_exec_of_ne {s : Stmt} (now : Nat) (h : encrypt s.key ≠ encrypt key) :
    rowsOf encrypt key (s.exec encrypt collate now t) = rowsOf encrypt key t := by
  cases s with
  | pushList k v => exact rowsOf_pushList_of_ne now h
  | delList k => exact rowsOf_delList_of_ne now h
  | delListOne k v => exact rowsOf_delListOne_of_ne now h

theorem rowsOf_execAll_of_ne {stmts : List (Nat × Stmt)}
    (h : ∀ s ∈ stmts, encrypt s.2.key ≠ encrypt key) :
    rowsOf encrypt key (execAll encrypt collate t stmts) = rowsOf encrypt key t := by
  induction stmts generalizing t with
  | nil => rfl
  | cons s stmts ih =>
    obtain ⟨hs, hstmts⟩ := List.forall_mem_cons.mp h
    rw [execAll_cons, ih hstmts, rowsOf_exec_of_ne s.1 hs]

/-- There is always an answer. -/
theorem exists_getList (encrypt : Key → δ) (key : Key) (t : KeyList δ) :
    ∃ answer, GetList encrypt key t answer := by
  have : IsTrans (Row δ) fun r q => q.createTime ≤ r.createTime :=
    ⟨fun _ _ _ hab hbc => Nat.le_trans hbc hab⟩
  have : Std.Total fun r q : Row δ => q.createTime ≤ r.createTime :=
    ⟨fun r q => Nat.le_total ..⟩
  exact ⟨(rowsOf encrypt key t).insertionSort fun r q => q.createTime ≤ r.createTime,
    List.perm_insertionSort _ _, List.pairwise_insertionSort _ _⟩

end Rows

end Speedy.Imageserver
