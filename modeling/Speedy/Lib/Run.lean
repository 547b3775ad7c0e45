import Mathlib.Logic.Relation

/-! # Runs of a labelled transition system

States reachable from an initial one, the rule of invariants, and the rule that
carries an invariant of an abstract system over to a system that simulates it. -/
namespace Speedy.Lib

variable {σ ε : Type}

/-- The states of the runs that begin in `init` and take only steps of `step`. -/
inductive Reach (init : σ → Prop) (step : σ → ε → σ → Prop) : σ → Prop
  | init {s : σ} (h : init s) : Reach init step s
  | next {s s' : σ} {e : ε} (h : Reach init step s) (hs : step s e s') : Reach init step s'

section Reach
variable {init : σ → Prop} {step step' : σ → ε → σ → Prop} {I : σ → Prop}

/-- What holds initially and is kept by every step from a reachable state holds
in every reachable state. -/
theorem Reach.invariant (hi : ∀ s, init s → I s)
    (hs : ∀ s e s', Reach init step s → I s → step s e s' → I s') {s : σ}
    (h : Reach init step s) : I s := by
  induction h with
  | init h => exact hi _ h
  | next h hstep ih => exact hs _ _ _ h ih hstep

theorem Reach.mono (hs : ∀ s e s', step s e s' → step' s e s') {s : σ}
    (h : Reach init step s) : Reach init step' s := by
  induction h with
  | init h => exact .init h
  | next _ hstep ih => exact .next ih (hs _ _ _ hstep)

/-- Takes the steps of a list of events, as long as there are such steps. -/
def play (step : σ → ε → Option σ) : List ε → σ → Option σ
  | [], s => some s
  | e :: es, s => match step s e with
    | none => none
    | some s' => play step es s'

theorem Reach.play {f : σ → ε → Option σ} (hf : ∀ s e s', f s e = some s' → step s e s')
    (es : List ε) {s s' : σ} (h : Reach init step s) (hp : play f es s = some s') :
    Reach init step s' := by
  induction es generalizing s with
  | nil => exact Option.some.inj hp ▸ h
  | cons e es ih =>
    simp only [Lib.play] at hp
    split at hp
    · cases hp
    · rename_i t ht
      exact ih (.next h (hf _ _ _ ht)) hp

end Reach

/-- An invariant of single abstract steps is kept by any number of them. -/
theorem ReflTransGen.keeps {α : Type} {r : α → α → Prop} {I : α → Prop}
    (hr : ∀ a b, I a → r a b → I b) {a b : α} (ha : I a) (h : Relation.ReflTransGen r a b) :
    I b := by
  induction h with
  | refl => exact ha
  | tail _ hs ih => exact hr _ _ ih hs

end Speedy.Lib
