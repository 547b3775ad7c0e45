import Mathlib.Data.List.Perm.Basic
import Mathlib.Data.List.Nodup
import Mathlib.Tactic.Common

/-! # Items that move from place to place

A log of events, each about one item. `places` lists the items with the history that each
should have where it is; `Recorded` says that the log bears this out. An item may enter
without a history, and an event about an item takes it to a place whose history is longer by
that event. -/
namespace Speedy.Lib

section History
variable {ι ε : Type} [DecidableEq ι] {about : ε → ι} {places places' : List (ι × List ε)}
  {log : List ε} {x : ι} {h : List ε} {e : ε}

structure Recorded (about : ε → ι) (places : List (ι × List ε)) (log : List ε) : Prop where
  nodup : (places.map Prod.fst).Nodup
  history : ∀ x h, (x, h) ∈ places → log.filter (fun e => about e = x) = h
  known : ∀ e ∈ log, about e ∈ places.map Prod.fst

theorem Recorded.nil : Recorded about [] [] where
  nodup := List.nodup_nil
  history _ _ hmem := absurd hmem List.not_mem_nil
  known _ he := absurd he List.not_mem_nil

theorem Recorded.perm (hr : Recorded about places log) (hp : places.Perm places') :
    Recorded about places' log where
  nodup := (hp.map Prod.fst).nodup_iff.mp hr.nodup
  history x h hmem := hr.history x h (hp.mem_iff.mpr hmem)
  known e he := (hp.map Prod.fst).mem_iff.mp (hr.known e he)

/-- A new item. -/
theorem Recorded.add (hr : Recorded about places log) (hx : x ∉ places.map Prod.fst) :
    Recorded about ((x, []) :: places) log where
  nodup := List.nodup_cons.mpr ⟨hx, hr.nodup⟩
  history y h hmem := by
    rcases List.mem_cons.mp hmem with heq | hmem
    · cases heq
      refine List.filter_eq_nil_iff.mpr fun e he hy => ?_
      exact hx (of_decide_eq_true hy ▸ hr.known e he)
    · exact hr.history y h hmem
  known e he := List.mem_cons_of_mem _ (hr.known e he)

/-- An event. -/
theorem Recorded.move (hr : Recorded about ((x, h) :: places) log) (he : about e = x) :
    Recorded about ((x, h ++ [e]) :: places) (log ++ [e]) where
  nodup := hr.nodup
  history y h' hmem := by
    rw [List.filter_append]
    rcases List.mem_cons.mp hmem with heq | hrest
    · cases heq
      have hself : [e].filter (fun e => about e = x) = [e] := by simp [he]
      rw [hr.history x h List.mem_cons_self, hself]
    · have hne : x ≠ y := by
        intro hxy
        refine (List.nodup_cons.mp hr.nodup).1 ?_
        exact List.mem_map.mpr ⟨(y, h'), hrest, hxy.symm⟩
      have hother : [e].filter (fun e => about e = y) = [] := by simp [he, hne]
      rw [hr.history y h' (List.mem_cons_of_mem _ hrest), hother, List.append_nil]
  known e' he' := by
    rcases List.mem_append.mp he' with he' | he'
    · exact hr.known e' he'
    · rw [List.mem_singleton.mp he', he]
      exact List.mem_cons_self

end History

end Speedy.Lib
