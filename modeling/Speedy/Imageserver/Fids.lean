import Speedy.Lib.Tokens

/-! # The fid channel of an imageserver

An imageserver keeps fids in a channel of capacity 200. Uploads take one each with
`getFid`, a ticker refills the channel when it runs short, and `getFid` refills it
itself when it finds it empty, one caller at a time. Everything runs concurrently;
one step here is one operation on the channel, on the retry flag or on the network. -/
namespace Speedy.Imageserver
open Speedy.Lib

def fidsCap : Nat := 200

/-- `Fids.IsShortage` -/
def isShortage (ch : List Nat) : Bool := ch.length < 20 && ch.length < fidsCap

/-- Who has called `GetFidRange`: `Run` once at the start, the ticker, or `getFid`. -/
inductive RangeCaller where
  | run
  | ticker
  | getFid
  deriving DecidableEq, Repr

/-- The argument `mergeWait` -/
def RangeCaller.mergeWait : RangeCaller → Bool
  | .ticker => true
  | _ => false

/-- Where a goroutine is. -/
inductive FidTask where
  | idle
  /-- `GetFidRange` before `IsShortage` -/
  | refill (caller : RangeCaller)
  /-- The request for a range is out; `served` says that the chunkmaster has taken it up. -/
  | asking (caller : RangeCaller) (served : Bool)
  /-- In the loop of `Merge`: `i` and `end` -/
  | merging (caller : RangeCaller) (i stop : Nat)
  /-- `getFid` has found the channel empty and is before `CompareAndSwap`. -/
  | swap
  /-- In `GetFidWait` -/
  | waiting
  /-- `getFid` after its own successful `GetFidRange` -/
  | again
  deriving DecidableEq, Repr

/-- The fids a goroutine has got and not yet put anywhere -/
def FidTask.rest : FidTask → List Nat
  | .merging _ i stop => List.range' i (stop - i)
  | _ => []

/-- The channel and the flag, as far as one goroutine sees them, and the goroutine -/
structure FidView where
  ch : List Nat
  getFidRetryCount : Bool
  task : FidTask
  deriving DecidableEq, Repr

/-- `GetFidRange` returns to its caller; `getFid` goes on only after a success. -/
def FidView.rangeDone (v : FidView) (caller : RangeCaller) (ok : Bool) : FidView :=
  match caller with
  | .getFid =>
    if ok then { v with task := .again } else { v with getFidRetryCount := false, task := .idle }
  | _ => { v with task := .idle }

inductive FidAction where
  /-- `Run` or the ticker calls `GetFidRange`. -/
  | callRange (ticker : Bool)
  /-- An upload calls `getFid`. -/
  | callGetFid
  /-- The goroutine takes its next step. -/
  | next
  /-- The request for a range fails, or `GetFidWait` times out. -/
  | fail
  deriving DecidableEq, Repr

/-- One step of a goroutine, with the fid that `getFid` returns, if it does.
A blocked goroutine has no step. -/
def FidView.act (v : FidView) : FidAction → Option (FidView × Option Nat)
  | .callRange ticker =>
    match v.task with
    | .idle => some ({ v with task := .refill (if ticker then .ticker else .run) }, none)
    | _ => none
  | .callGetFid =>
    match v.task, v.ch with
    | .idle, [] => some ({ v with task := .swap }, none)
    | .idle, fid :: ch => some ({ v with ch := ch }, some fid)
    | _, _ => none
  | .next =>
    match v.task with
    | .idle => none
    | .refill caller =>
      if isShortage v.ch then some ({ v with task := .asking caller false }, none)
      else some (v.rangeDone caller true, none)
    | .asking _ _ => none
    | .merging caller i stop =>
      if i < stop then
        if v.ch.length < fidsCap then
          some ({ v with ch := v.ch ++ [i], task := .merging caller (i + 1) stop }, none)
        -- `Merge` gives up the rest of the range, or blocks
        else if caller.mergeWait then none else some (v.rangeDone caller true, none)
      else some (v.rangeDone caller true, none)
    | .swap =>
      if v.getFidRetryCount then some ({ v with task := .waiting }, none)
      else some ({ v with getFidRetryCount := true, task := .refill .getFid }, none)
    | .waiting =>
      match v.ch with
      | [] => none
      | fid :: ch => some ({ v with ch := ch, task := .idle }, some fid)
    | .again =>
      -- the deferred `CompareAndSwap` runs on every way out
      match v.ch with
      | [] => some ({ v with getFidRetryCount := false, task := .idle }, none)
      | fid :: ch => some ({ ch := ch, getFidRetryCount := false, task := .idle }, some fid)
  | .fail =>
    match v.task with
    | .asking caller _ => some (v.rangeDone caller false, none)
    | .waiting => some ({ v with task := .idle }, none)
    | _ => none

@[simp] theorem FidView.rangeDone_ch (v : FidView) (caller : RangeCaller) (ok : Bool) :
    (v.rangeDone caller ok).ch = v.ch := by
  cases caller <;> cases ok <;> rfl

@[simp] theorem FidView.rangeDone_rest (v : FidView) (caller : RangeCaller) (ok : Bool) :
    (v.rangeDone caller ok).task.rest = [] := by
  cases caller <;> cases ok <;> rfl

/-- What a step can do with fids: nothing, give up those of the goroutine, put the
next one into the channel, or take one from it. -/
inductive FidView.Moves (v : FidView) : FidView → Option Nat → Prop
  | keep {v' : FidView} (hch : v'.ch = v.ch) (hrest : v'.task.rest = []) : Moves v v' none
  | put {v' : FidView} (i : Nat) (hrest : v.task.rest = i :: v'.task.rest)
    (hch : v'.ch = v.ch ++ [i]) : Moves v v' none
  | take {v' : FidView} (fid : Nat) (hch : v.ch = fid :: v'.ch)
    (hrest : v'.task.rest = v.task.rest) :
    Moves v v' (some fid)

theorem FidView.act_moves {v v' : FidView} {a : FidAction} {r : Option Nat}
    (h : v.act a = some (v', r)) : v.Moves v' r := by
  obtain ⟨ch, flag, task⟩ := v
  cases a with
  | callRange ticker =>
    cases task <;> cases h
    exact .keep rfl rfl
  | callGetFid =>
    cases task <;> cases ch <;> cases h
    · exact .keep rfl rfl
    · exact .take _ rfl rfl
  | fail =>
    cases task <;> cases h
    · exact .keep (by simp) (by simp)
    · exact .keep rfl rfl
  | next =>
    cases task with
    | idle => cases h
    | refill caller =>
      simp only [FidView.act] at h
      split at h <;> cases h
      · exact .keep rfl rfl
      · exact .keep (by simp) (by simp)
    | asking => cases h
    | merging caller i stop =>
      simp only [FidView.act] at h
      split at h
      next hlt =>
        split at h
        · cases h
          refine .put i ?_ rfl
          obtain ⟨n, hn⟩ : ∃ n, stop - i = n + 1 := ⟨stop - i - 1, by omega⟩
          have hn' : stop - (i + 1) = n := by omega
          simp [FidTask.rest, hn, hn', List.range'_succ]
        · split at h <;> cases h
          exact .keep (by simp) (by simp)
      · cases h
        exact .keep (by simp) (by simp)
    | swap =>
      simp only [FidView.act] at h
      split at h <;> cases h
      · exact .keep rfl rfl
      · exact .keep rfl rfl
    | waiting =>
      cases ch <;> cases h
      exact .take _ rfl rfl
    | again =>
      cases ch <;> cases h
      · exact .keep rfl rfl
      · exact .take _ rfl rfl

/-- An imageserver: its channel, its retry flag and its goroutines -/
structure FidImage where
  ch : List Nat
  getFidRetryCount : Bool
  task : Nat → FidTask

def FidImage.view (s : FidImage) (t : Nat) : FidView := ⟨s.ch, s.getFidRetryCount, s.task t⟩

def FidImage.put (s : FidImage) (t : Nat) (v : FidView) : FidImage :=
  ⟨v.ch, v.getFidRetryCount, Function.update s.task t v.task⟩

/-- An imageserver that has just been started -/
def FidImage.start : FidImage := ⟨[], false, fun _ => .idle⟩

end Speedy.Imageserver
