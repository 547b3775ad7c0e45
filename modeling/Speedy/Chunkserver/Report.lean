import Speedy.Lib.Run
import Mathlib.Logic.Function.Basic

/-! # Reports to the master

`spy_report_server_infos` of the main thread fills `report_info`, and the thread of the agent
prints it into its report. Each takes the lock first; fields are stored and read one by one. -/
namespace Speedy.Chunkserver
open Speedy.Lib

inductive ReportField where
  | maxFreeSpace | totalFreeSpace | status | nChunks | pendingWrites | writingCount
  | readingCount | connCount
  deriving DecidableEq, Repr

/-- The assignments of `spy_report_server_infos` -/
def storeOrder : List ReportField :=
  [.maxFreeSpace, .totalFreeSpace, .status, .nChunks, .pendingWrites, .writingCount,
    .readingCount, .connCount]

/-- The arguments of the `snprintf` for `json_data` -/
def printOrder : List ReportField :=
  [.status, .totalFreeSpace, .maxFreeSpace, .pendingWrites, .writingCount, .readingCount,
    .nChunks, .connCount]

abbrev Infos := ReportField → Nat

/-- What a run is judged by: ends of the critical sections -/
inductive ReportEntry where
  | stored (infos : Infos)
  | printed (values : List Nat)

structure Reporting where
  lock : Nat := 0
  info : Infos := fun _ => 0
  /-- the values and the assignments that are left, inside of `spy_report_server_infos` -/
  main : Option (Infos × List ReportField) := none
  /-- the arguments that are left and those that are read, between lock and unlock -/
  agent : Option (List ReportField × List Nat) := none
  /-- newest first -/
  history : List ReportEntry := []

inductive ReportMove where
  /-- a call that finds these values in `server` and `statistic` -/
  | report (infos : Infos)
  | store
  | spinlock
  | print

/-- `report` returns at once when the lock is taken, and `spinlock` goes on spinning. -/
def reportStep (r : Reporting) : ReportMove → Option Reporting
  | .report infos =>
    if r.main ≠ none then none
    else if r.lock = 0 then some { r with lock := 1, main := some (infos, storeOrder) }
    else some r
  | .store => match r.main with
    | none => none
    | some (infos, f :: todo) =>
      some { r with info := Function.update r.info f (infos f), main := some (infos, todo) }
    | some (infos, []) => some { r with
        lock := if r.lock = 1 then 0 else r.lock
        main := none
        history := .stored infos :: r.history }
  | .spinlock =>
    if r.agent ≠ none then none
    else if r.lock = 0 then some { r with lock := 1, agent := some (printOrder, []) }
    else some r
  | .print => match r.agent with
    | none => none
    | some (f :: todo, values) => some { r with agent := some (todo, values ++ [r.info f]) }
    | some ([], values) => some { r with
        lock := 0
        agent := none
        history := .printed values :: r.history }

abbrev ReportRun : Reporting → Prop := Reach (· = {}) fun r m r' => reportStep r m = some r'

/-- The values of the last call that was done, or those `report_info` starts with -/
def latest : List ReportEntry → Infos
  | [] => fun _ => 0
  | .stored infos :: _ => infos
  | .printed _ :: history => latest history

/-- Every report shows the values of the last call before it. -/
def Untorn : List ReportEntry → Prop
  | [] => True
  | .stored _ :: history => Untorn history
  | .printed values :: history => values = printOrder.map (latest history) ∧ Untorn history

/-- Who is in. -/
inductive ReportInv (r : Reporting) : Prop
  | free (lock : r.lock = 0) (main : r.main = none) (agent : r.agent = none)
      (info : r.info = latest r.history) : ReportInv r
  | storing {infos : Infos} (done : List ReportField) {todo : List ReportField}
      (lock : r.lock = 1) (main : r.main = some (infos, todo)) (agent : r.agent = none)
      (order : storeOrder = done ++ todo) (info : ∀ f ∈ done, r.info f = infos f) : ReportInv r
  | printing (done : List ReportField) {todo : List ReportField} (lock : r.lock = 1)
      (main : r.main = none)
      (agent : r.agent = some (todo, done.map (latest r.history)))
      (info : r.info = latest r.history) (order : printOrder = done ++ todo) : ReportInv r

section Report
variable {r r' : Reporting}

theorem mem_storeOrder (f : ReportField) : f ∈ storeOrder := by
  cases f <;> decide

theorem ReportInv.step (h : ReportInv r) (hu : Untorn r.history) {m : ReportMove}
    (hs : reportStep r m = some r') : ReportInv r' ∧ Untorn r'.history := by
  cases h with
  | free lock main agent info =>
    cases m with
    | report infos =>
      simp only [reportStep, main, lock] at hs
      obtain rfl := Option.some.inj hs
      exact ⟨.storing [] rfl rfl agent rfl nofun, hu⟩
    | spinlock =>
      simp only [reportStep, agent, lock] at hs
      obtain rfl := Option.some.inj hs
      exact ⟨.printing [] rfl main rfl info rfl, hu⟩
    | store => simp only [reportStep, main] at hs; cases hs
    | print => simp only [reportStep, agent] at hs; cases hs
  | storing done lock main agent order info =>
    rename_i infos todo
    cases m with
    | report _ => simp only [reportStep, main] at hs; cases hs
    | spinlock =>
      simp only [reportStep, agent, lock] at hs
      obtain rfl := Option.some.inj hs
      exact ⟨.storing done lock main agent order info, hu⟩
    | store =>
      cases todo with
      | nil =>
        simp only [reportStep, main, lock] at hs
        obtain rfl := Option.some.inj hs
        refine ⟨.free rfl rfl agent (funext fun f => info f ?_), hu⟩
        exact List.append_nil done ▸ order ▸ mem_storeOrder f
      | cons f todo =>
        simp only [reportStep, main] at hs
        obtain rfl := Option.some.inj hs
        rw [List.append_cons] at order
        refine ⟨.storing (done ++ [f]) lock rfl agent order fun g hg => ?_, hu⟩
        by_cases hfg : g = f
        · subst hfg
          exact Function.update_self ..
        · have hg' : g ∈ done := by simpa [hfg] using hg
          exact (Function.update_of_ne hfg _ _).trans (info g hg')
    | print => simp only [reportStep, agent] at hs; cases hs
  | printing done lock main agent info order =>
    rename_i todo
    cases m with
    | report _ =>
      simp only [reportStep, main, lock] at hs
      obtain rfl := Option.some.inj hs
      exact ⟨.printing done lock main agent info order, hu⟩
    | spinlock => simp only [reportStep, agent] at hs; cases hs
    | store => simp only [reportStep, main] at hs; cases hs
    | print =>
      cases todo with
      | nil =>
        simp only [reportStep, agent] at hs
        obtain rfl := Option.some.inj hs
        rw [List.append_nil] at order
        exact ⟨.free rfl main rfl info, order ▸ rfl, hu⟩
      | cons f todo =>
        simp only [reportStep, agent] at hs
        obtain rfl := Option.some.inj hs
        rw [List.append_cons] at order
        refine ⟨.printing (done ++ [f]) lock main ?_ info order, hu⟩
        rw [List.map_append, ← info]
        rfl

/-- No report is torn: in every interleaving of the two threads at most one of them is between
lock and unlock, and what the agent prints are the eight values of the last finished call of
`spy_report_server_infos`. -/
theorem reports_are_untorn (h : ReportRun r) :
    Untorn r.history ∧ (r.main = none ∨ r.agent = none) ∧
      (r.main = none → r.info = latest r.history) := by
  have hinv : ReportInv r ∧ Untorn r.history :=
    h.invariant (I := fun r => ReportInv r ∧ Untorn r.history)
      (fun _ hr => by subst hr; exact ⟨.free rfl rfl rfl rfl, trivial⟩)
      fun _ _ _ _ hi hs => hi.1.step hi.2 hs
  refine ⟨hinv.2, ?_, fun hm => ?_⟩
  · cases hinv.1 with
    | free _ main _ _ => exact .inl main
    | storing _ _ _ agent => exact .inr agent
    | printing _ _ main => exact .inl main
  · cases hinv.1 with
    | free _ _ _ info => exact info
    | storing _ _ main => rw [main] at hm; cases hm
    | printing _ _ _ _ info => exact info

/-- The agent prints while the next call finds the lock taken, and again after it. -/
def reportMoves : List ReportMove :=
  .report (fun _ => 5) :: List.replicate 9 .store ++ [.spinlock, .print] ++
    [.report fun _ => 6] ++ List.replicate 8 .print

theorem reports_are_untorn_skipped : ∃ r values infos,
    ReportRun r ∧ r.history = [.printed values, .stored infos] ∧
      values = printOrder.map infos := by
  have hrun : ReportRun _ :=
    Reach.play (fun _ _ _ he => he) reportMoves (.init rfl) (rfl : play reportStep _ {} = some _)
  exact ⟨_, _, _, hrun, rfl, (reports_are_untorn hrun).1.1⟩

end Report
end Speedy.Chunkserver
