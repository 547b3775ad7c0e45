import Speedy.Lib.History
import Speedy.Lib.Run
import Speedy.Lib.Tally

/-! # The work queue

`spy_work.c`, and `spy_wq_thread_done` of the event loop: items wait in `pending_list`, a
worker takes the first one, calls its `fn` and puts it into `finished_list`, from where the
event loop takes all of them at once and calls their `done`. Workers end when there is little
to do, and are created when there is much.

A step is a section under a lock, or what a thread does between two of them. Items are
numbered in the order in which `spy_queue_work` puts them into `pending_list`. -/
namespace Speedy.Chunkserver
open Speedy.Lib

def defWqNrThrs : Nat := 10

def shrinkPeriodProtection : UInt64 := 10

/-- Where a worker is in the loop of `spy_worker_routine`. -/
inductive WqWorker where
  /-- before `pending_lock` -/
  | ready
  /-- in `pthread_cond_wait` -/
  | waiting
  | holds (item : Nat)
  /-- behind the call of `fn` -/
  | ran (item : Nat)
  /-- behind `finished_lock`; the item still counts in `nr_works` -/
  | listed
  deriving DecidableEq, Repr

/-- What happens to an item. -/
inductive WqLog where
  | started (item : Nat)
  | ran (item : Nat)
  | done (item : Nat)
  deriving DecidableEq, Repr

def WqLog.item : WqLog → Nat
  | started item => item
  | ran item => item
  | done item => item

def WqLog.startedItem : WqLog → Option Nat
  | started item => some item
  | _ => none

/-- Where `spy_create_work_queue` is in the loop of `spy_create_worker_threads`. -/
inductive WqStart where
  | creating
  /-- between `pthread_create` and the count of it -/
  | counting
  | ended
  deriving DecidableEq, Repr

/-- `spy_work_queue_t` with its threads. Of the calls of `spy_queue_work`, `entering` have
counted their item and not yet taken the lock; `draining` is the list of
`spy_wq_thread_done`, and `finishedItems` those whose `done` was called. -/
structure WorkQueue where
  pendingList : List Nat
  finishedList : List Nat
  nrThreads : Nat
  nrWorks : Nat
  lastExpandTime : UInt64
  workers : List WqWorker
  start : WqStart
  entering : Nat
  draining : List Nat
  finishedItems : List Nat
  queued : Nat
  log : List WqLog
  deriving DecidableEq, Repr

inductive WqEvent where
  | create
  | count
  | startEnd
  | queueCount
  | queueAdd (created : Nat) (now : UInt64)
  | lock (worker : Nat) (now : UInt64)
  | wake (worker : Nat)
  | call (worker : Nat)
  | finish (worker : Nat)
  | release (worker : Nat)
  | drain
  | done
  deriving DecidableEq, Repr

namespace WorkQueue

def needShrink (s : WorkQueue) (currentTime : UInt64) : Bool :=
  let nrWorks := s.nrWorks + 1
  let nrThreads := s.nrThreads + 1
  nrWorks < nrThreads / 2 && nrThreads > defWqNrThrs / 2 &&
    currentTime > s.lastExpandTime + shrinkPeriodProtection

def needExpand (s : WorkQueue) : Bool :=
  let nrThreads := s.nrThreads + 1
  let nrWorks := s.nrWorks + 1
  nrThreads < nrWorks / 2 && nrThreads < 2 * defWqNrThrs

/-- `spy_create_worker_threads`; so many calls of `pthread_create` succeed before one fails. -/
def createWorkerThreads (nrThreads : Nat) : Nat → WorkQueue → WorkQueue
  | 0, s => s
  | created + 1, s =>
    if s.nrThreads < nrThreads then
      createWorkerThreads nrThreads created
        { s with workers := s.workers ++ [.ready], nrThreads := s.nrThreads + 1 }
    else s

/-- The section of `spy_queue_work` under the lock; the call has been counted before. -/
def queueWork (s : WorkQueue) (created : Nat) (now : UInt64) : WorkQueue :=
  let s :=
    if s.needExpand then
      { s.createWorkerThreads (s.nrThreads * 2) created with lastExpandTime := now }
    else s
  { s with
    entering := s.entering - 1
    pendingList := s.pendingList ++ [s.queued]
    queued := s.queued + 1 }

/-- The inner loop of a worker, from the test of `pending_list` on. -/
def takeWork (s : WorkQueue) (worker : Nat) : WorkQueue :=
  match s.pendingList with
  | [] => { s with workers := s.workers.set worker .waiting }
  | item :: rest =>
    { s with
      pendingList := rest
      workers := s.workers.set worker (.holds item)
      log := s.log ++ [.started item] }

def step (s : WorkQueue) : WqEvent → Option WorkQueue
  | .create =>
    if s.start = .creating ∧ s.nrThreads < defWqNrThrs then
      some { s with workers := s.workers ++ [.ready], start := .counting }
    else none
  | .count =>
    if s.start = .counting then some { s with nrThreads := s.nrThreads + 1, start := .creating }
    else none
  | .startEnd =>
    if s.start = .creating ∧ ¬ s.nrThreads < defWqNrThrs then some { s with start := .ended }
    else none
  | .queueCount =>
    if s.start = .ended then some { s with nrWorks := s.nrWorks + 1, entering := s.entering + 1 }
    else none
  | .queueAdd created now =>
    if s.start = .ended ∧ 0 < s.entering then some (s.queueWork created now) else none
  | .lock worker now =>
    if s.workers[worker]? = some .ready then
      if s.needShrink now then
        some { s with workers := s.workers.eraseIdx worker, nrThreads := s.nrThreads - 1 }
      else some (s.takeWork worker)
    else none
  | .wake worker =>
    if s.workers[worker]? = some .waiting then some (s.takeWork worker) else none
  | .call worker =>
    match s.workers[worker]? with
    | some (.holds item) =>
      some { s with workers := s.workers.set worker (.ran item), log := s.log ++ [.ran item] }
    | _ => none
  | .finish worker =>
    match s.workers[worker]? with
    | some (.ran item) =>
      some { s with
        finishedList := s.finishedList ++ [item]
        workers := s.workers.set worker .listed }
    | _ => none
  | .release worker =>
    if s.workers[worker]? = some .listed then
      some { s with nrWorks := s.nrWorks - 1, workers := s.workers.set worker .ready }
    else none
  | .drain =>
    if s.draining = [] then some { s with draining := s.finishedList, finishedList := [] } else none
  | .done =>
    match s.draining with
    | [] => none
    | item :: rest =>
      some { s with
        draining := rest
        finishedItems := s.finishedItems ++ [item]
        log := s.log ++ [.done item] }

/-- The queue before the first thread is created. -/
def fresh (now : UInt64) : WorkQueue := ⟨[], [], 0, 0, now, [], .creating, 0, [], [], 0, []⟩

end WorkQueue

/-- The states of the runs of a queue. -/
def WqRun (s : WorkQueue) : Prop :=
  Reach (fun s => ∃ now, s = .fresh now) (fun s e s' => WorkQueue.step s e = some s') s

/-- The steps, each with what has to hold before it. -/
inductive WqStep (s : WorkQueue) : WorkQueue → Prop
  | create (hstart : s.start = .creating) (hlt : s.nrThreads < defWqNrThrs) :
      WqStep s { s with workers := s.workers ++ [.ready], start := .counting }
  | count (hstart : s.start = .counting) :
      WqStep s { s with nrThreads := s.nrThreads + 1, start := .creating }
  | startEnd (hstart : s.start = .creating) (hlt : ¬ s.nrThreads < defWqNrThrs) :
      WqStep s { s with start := .ended }
  | queueCount : WqStep s { s with nrWorks := s.nrWorks + 1, entering := s.entering + 1 }
  | queueAdd (hstart : s.start = .ended) (hentering : 0 < s.entering) (created : Nat)
      (now : UInt64) : WqStep s (s.queueWork created now)
  | shrink {i : Nat} {now : UInt64} (hw : s.workers[i]? = some .ready) (h : s.needShrink now) :
      WqStep s { s with workers := s.workers.eraseIdx i, nrThreads := s.nrThreads - 1 }
  | take {i : Nat} {w : WqWorker} (hw : s.workers[i]? = some w)
      (hidle : w = .ready ∨ w = .waiting) : WqStep s (s.takeWork i)
  | call {i item : Nat} (hw : s.workers[i]? = some (.holds item)) :
      WqStep s { s with workers := s.workers.set i (.ran item), log := s.log ++ [.ran item] }
  | finish {i item : Nat} (hw : s.workers[i]? = some (.ran item)) :
      WqStep s { s with
        finishedList := s.finishedList ++ [item], workers := s.workers.set i .listed }
  | release {i : Nat} (hw : s.workers[i]? = some .listed) :
      WqStep s { s with nrWorks := s.nrWorks - 1, workers := s.workers.set i .ready }
  | drain (hnil : s.draining = []) :
      WqStep s { s with draining := s.finishedList, finishedList := [] }
  | done {item : Nat} {rest : List Nat} (hdraining : s.draining = item :: rest) :
      WqStep s { s with
        draining := rest
        finishedItems := s.finishedItems ++ [item]
        log := s.log ++ [.done item] }

theorem WqStep.of_step {s s' : WorkQueue} {e : WqEvent} (h : s.step e = some s') :
    WqStep s s' := by
  cases e with
  | create =>
    obtain ⟨⟨hstart, hlt⟩, h⟩ := Option.ite_none_right_eq_some.mp h
    cases h
    exact .create hstart hlt
  | count =>
    obtain ⟨hstart, h⟩ := Option.ite_none_right_eq_some.mp h
    cases h
    exact .count hstart
  | startEnd =>
    obtain ⟨⟨hstart, hlt⟩, h⟩ := Option.ite_none_right_eq_some.mp h
    cases h
    exact .startEnd hstart hlt
  | queueCount =>
    obtain ⟨-, h⟩ := Option.ite_none_right_eq_some.mp h
    cases h
    exact .queueCount
  | queueAdd created now =>
    obtain ⟨⟨hstart, hentering⟩, h⟩ := Option.ite_none_right_eq_some.mp h
    cases h
    exact .queueAdd hstart hentering created now
  | lock i now =>
    obtain ⟨hw, h⟩ := Option.ite_none_right_eq_some.mp h
    split at h
    · next hshrink =>
      cases h
      exact .shrink hw hshrink
    · cases h
      exact .take hw (.inl rfl)
  | wake i =>
    obtain ⟨hw, h⟩ := Option.ite_none_right_eq_some.mp h
    cases h
    exact .take hw (.inr rfl)
  | call i =>
    simp only [WorkQueue.step] at h
    split at h
    · next item hw =>
      cases h
      exact .call hw
    · cases h
  | finish i =>
    simp only [WorkQueue.step] at h
    split at h
    · next item hw =>
      cases h
      exact .finish hw
    · cases h
  | release i =>
    obtain ⟨hw, h⟩ := Option.ite_none_right_eq_some.mp h
    cases h
    exact .release hw
  | drain =>
    obtain ⟨hnil, h⟩ := Option.ite_none_right_eq_some.mp h
    cases h
    exact .drain hnil
  | done =>
    simp only [WorkQueue.step] at h
    split at h
    · cases h
    · next item rest hdraining =>
      cases h
      exact .done hdraining

/-! ## The places of the items -/

/-- The item in the hands of a worker, with its history. -/
def WqWorker.place : WqWorker → List (Nat × List WqLog)
  | holds item => [(item, [.started item])]
  | ran item => [(item, [.started item, .ran item])]
  | _ => []

namespace WorkQueue

/-- The items and what has happened to each of them where it is. -/
def places (s : WorkQueue) : List (Nat × List WqLog) :=
  s.pendingList.map (fun item => (item, [])) ++ s.workers.flatMap WqWorker.place ++
    (s.finishedList ++ s.draining).map (fun item => (item, [.started item, .ran item])) ++
    s.finishedItems.map fun item => (item, [.started item, .ran item, .done item])

def startedItems (s : WorkQueue) : List Nat := s.log.filterMap WqLog.startedItem

end WorkQueue

/-- What a step does to the items: nothing, or it lets a new one in, or something happens to
one of them. -/
inductive WqEffect (s s' : WorkQueue) : Prop
  | none (hlog : s'.log = s.log) (hqueued : s'.queued = s.queued)
      (hpending : s'.pendingList = s.pendingList) (hplaces : s'.places.Perm s.places)
  | enters (hlog : s'.log = s.log) (hqueued : s'.queued = s.queued + 1)
      (hpending : s'.pendingList = s.pendingList ++ [s.queued])
      (hplaces : s'.places.Perm ((s.queued, []) :: s.places))
  | happens {x : Nat} {h : List WqLog} {e : WqLog} {rest : List (Nat × List WqLog)}
      (hlog : s'.log = s.log ++ [e]) (hitem : e.item = x) (hqueued : s'.queued = s.queued)
      (hpending : s.pendingList = e.startedItem.toList ++ s'.pendingList)
      (hbefore : s.places.Perm ((x, h) :: rest)) (hafter : s'.places.Perm ((x, h ++ [e]) :: rest))

section Effects
variable {s s' : WorkQueue} {i : Nat} {w : WqWorker}

theorem place_set (hw : s.workers[i]? = some w) (w' : WqWorker) (x : Nat × List WqLog) :
    ((s.workers.set i w').flatMap WqWorker.place).count x + w.place.count x =
      (s.workers.flatMap WqWorker.place).count x + w'.place.count x := by
  have h := (flatMap_set_perm WqWorker.place w' hw).count_eq x
  rwa [List.count_append, List.count_append] at h

theorem createWorkerThreads_eq (nr created : Nat) (s : WorkQueue) :
    ∃ k, s.createWorkerThreads nr created =
      { s with
        workers := s.workers ++ List.replicate k .ready
        nrThreads := s.nrThreads + k } ∧ (k = 0 ∨ s.nrThreads + k ≤ nr) := by
  induction created generalizing s with
  | zero =>
    refine ⟨0, ?_, .inl rfl⟩
    rw [List.replicate_zero, List.append_nil]
    rfl
  | succ created ih =>
    rw [WorkQueue.createWorkerThreads]
    split
    · rename_i hlt
      obtain ⟨k, hk, hle⟩ := ih { s with
        workers := s.workers ++ [.ready], nrThreads := s.nrThreads + 1 }
      refine ⟨k + 1, ?_, .inr ?_⟩
      · rw [hk, List.replicate_succ]
        simp only [List.append_assoc, List.singleton_append, Nat.add_assoc, Nat.add_comm 1]
      · dsimp only at hle
        omega
    · refine ⟨0, ?_, .inl rfl⟩
      rw [List.replicate_zero, List.append_nil]
      rfl

/-- Something happens to an item if it gets into a place with that in its history. -/
theorem WqEffect.of_counts {x : Nat} {h : List WqLog} {e : WqLog} (hlog : s'.log = s.log ++ [e])
    (hitem : e.item = x) (hqueued : s'.queued = s.queued)
    (hpending : s.pendingList = e.startedItem.toList ++ s'.pendingList)
    (hcount : ∀ y, s'.places.count y + [(x, h)].count y =
      s.places.count y + [(x, h ++ [e])].count y) : WqEffect s s' := by
  have hmem : (x, h) ∈ s.places := by
    have hne : ¬ (x, h ++ [e]) = (x, h) := by simp
    have hself := hcount (x, h)
    rw [List.count_cons_self, List.count_cons_of_ne hne, List.count_nil] at hself
    exact List.count_pos_iff.mp (by omega)
  have hbefore := List.perm_cons_erase hmem
  refine .happens hlog hitem hqueued hpending hbefore (List.perm_iff_count.mpr fun y => ?_)
  have hy := hcount y
  rw [hbefore.count_eq y] at hy
  simp only [List.count_cons, List.count_nil] at hy ⊢
  omega

/-- A worker that goes on with nothing in its hands. -/
theorem WqEffect.idle (hw : s.workers[i]? = some w) (hplace : w.place = []) {w' : WqWorker}
    (hplace' : w'.place = []) (nrWorks : Nat) :
    WqEffect s { s with nrWorks := nrWorks, workers := s.workers.set i w' } := by
  refine .none rfl rfl rfl (List.perm_iff_count.mpr fun x => ?_)
  have hset := place_set hw w' x
  rw [hplace, hplace', List.count_nil] at hset
  simp only [WorkQueue.places, List.count_append]
  omega

theorem place_of_idle (h : w = .ready ∨ w = .waiting) : w.place = [] := by
  rcases h with rfl | rfl
  · rfl
  · rfl

theorem WqEffect.takeWork (hw : s.workers[i]? = some w) (hplace : w.place = []) :
    WqEffect s (s.takeWork i) := by
  unfold WorkQueue.takeWork
  split
  · exact .idle hw hplace rfl s.nrWorks
  · rename_i item rest hpending
    refine .of_counts (x := item) (h := []) (e := .started item) rfl rfl rfl hpending fun y => ?_
    have hset := place_set hw (.holds item) y
    rw [hplace, List.count_nil] at hset
    simp only [WorkQueue.places, hpending, List.count_append, List.count_cons, WqWorker.place,
      List.nil_append, List.count_nil, List.map_cons] at hset ⊢
    omega

theorem WqEffect.queueWork (created : Nat) (now : UInt64) :
    WqEffect s (s.queueWork created now) := by
  have hadd : ∀ k t, WqEffect s
      { s with
        workers := s.workers ++ List.replicate k .ready
        nrThreads := s.nrThreads + k
        lastExpandTime := t
        entering := s.entering - 1
        pendingList := s.pendingList ++ [s.queued]
        queued := s.queued + 1 } := by
    intro k t
    have hready : (List.replicate k WqWorker.ready).flatMap WqWorker.place = [] := by
      simp [WqWorker.place]
    refine .enters rfl rfl rfl (List.perm_iff_count.mpr fun x => ?_)
    simp only [WorkQueue.places, List.flatMap_append, hready, List.append_nil, List.map_append,
      List.map_singleton, List.count_append, List.count_cons, List.count_nil]
    omega
  unfold WorkQueue.queueWork
  split
  · obtain ⟨k, hk, -⟩ := createWorkerThreads_eq (s.nrThreads * 2) created s
    rw [hk]
    exact hadd k now
  · have hnone := hadd 0 s.lastExpandTime
    rw [List.replicate_zero, List.append_nil] at hnone
    exact hnone

/-- Every step has one of the effects. -/
theorem WqEffect.of_step (h : WqStep s s') : WqEffect s s' := by
  cases h with
  | create =>
    refine .none rfl rfl rfl (.of_eq ?_)
    simp only [WorkQueue.places, List.flatMap_append, List.flatMap_singleton, WqWorker.place,
      List.append_nil]
  | count => exact .none rfl rfl rfl (.refl _)
  | startEnd => exact .none rfl rfl rfl (.refl _)
  | queueCount => exact .none rfl rfl rfl (.refl _)
  | queueAdd _ _ created now => exact .queueWork created now
  | shrink hw =>
    refine .none rfl rfl rfl (.of_eq ?_)
    simp only [WorkQueue.places, flatMap_eraseIdx_of_nil WqWorker.place hw rfl]
  | take hw hidle => exact .takeWork hw (place_of_idle hidle)
  | @call i item hw =>
    refine .of_counts (x := item) (h := [.started item]) (e := .ran item) rfl rfl rfl rfl
      fun y => ?_
    have hset := place_set hw (.ran item) y
    simp only [WorkQueue.places, List.count_append, WqWorker.place, List.cons_append,
      List.nil_append] at hset ⊢
    omega
  | finish hw =>
    refine .none rfl rfl rfl (List.perm_iff_count.mpr fun x => ?_)
    have hset := place_set hw .listed x
    simp only [WorkQueue.places, WqWorker.place, List.count_append, List.count_cons,
      List.count_nil, List.map_append, List.map_cons, List.map_nil] at hset ⊢
    omega
  | release hw => exact .idle hw rfl rfl _
  | drain hnil =>
    refine .none rfl rfl rfl (.of_eq ?_)
    simp only [WorkQueue.places, hnil, List.nil_append, List.append_nil]
  | @done item rest hdraining =>
    refine .of_counts (x := item) (h := [.started item, .ran item]) (e := .done item) rfl rfl rfl
      rfl fun y => ?_
    simp only [WorkQueue.places, hdraining, List.map_append, List.map_cons, List.map_nil,
      List.count_append, List.count_cons, List.count_nil, List.cons_append, List.nil_append]
    omega

end Effects

/-- Every item that was queued is in one place, the log has what belongs there, and they were
started in the order in which they were queued. -/
structure WqItems (s : WorkQueue) : Prop where
  recorded : Recorded WqLog.item s.places s.log
  items : (s.places.map Prod.fst).Perm (List.range s.queued)
  order : s.startedItems ++ s.pendingList = List.range s.queued

theorem WqItems.fresh (now : UInt64) : WqItems (.fresh now) := ⟨.nil, .nil, rfl⟩

theorem WqItems.effect {s s' : WorkQueue} (hi : WqItems s) (h : WqEffect s s') : WqItems s' := by
  cases h with
  | none hlog hqueued hpending hplaces =>
    refine ⟨hlog ▸ hi.recorded.perm hplaces.symm, ?_, ?_⟩
    · rw [hqueued]
      exact (hplaces.map Prod.fst).trans hi.items
    · rw [WorkQueue.startedItems, hlog, hpending, hqueued]
      exact hi.order
  | enters hlog hqueued hpending hplaces =>
    have hnew : s.queued ∉ s.places.map Prod.fst := fun hmem =>
      Nat.lt_irrefl _ (List.mem_range.mp (hi.items.mem_iff.mp hmem))
    refine ⟨hlog ▸ (hi.recorded.add hnew).perm hplaces.symm, ?_, ?_⟩
    · rw [hqueued, List.range_succ]
      refine (hplaces.map Prod.fst).trans ?_
      rw [List.map_cons]
      exact (hi.items.cons _).trans (List.perm_append_singleton _ _).symm
    · rw [WorkQueue.startedItems, hlog, hpending, hqueued, List.range_succ, ← hi.order,
        List.append_assoc]
      rfl
  | happens hlog hitem hqueued hpending hbefore hafter =>
    refine ⟨?_, ?_, ?_⟩
    · rw [hlog]
      exact ((hi.recorded.perm hbefore).move hitem).perm hafter.symm
    · rw [hqueued]
      have hsame := (hafter.map Prod.fst).trans (hbefore.map Prod.fst).symm
      exact hsame.trans hi.items
    · rw [WorkQueue.startedItems, hlog, hqueued, ← hi.order, hpending, List.filterMap_append,
        List.append_assoc]
      rename_i e _
      cases e <;> rfl

theorem WqRun.items {s : WorkQueue} (h : WqRun s) : WqItems s :=
  Reach.invariant (I := WqItems)
    (fun s hs => by
      obtain ⟨now, rfl⟩ := hs
      exact .fresh now)
    (fun _ _ _ _ hi hs => hi.effect (.of_step (.of_step hs))) h

/-! ## The counters -/

/-- The worker has an item that still counts in `nr_works`. -/
def WqWorker.busy : WqWorker → Bool
  | ready => false
  | waiting => false
  | _ => true

/-- The threads that run already and are not yet counted in `nr_threads`. -/
def WqStart.uncounted : WqStart → Nat
  | counting => 1
  | _ => 0

/-- `nr_works` counts the items from the call of `spy_queue_work` on, `nr_threads` the threads;
and how many of these there can be. -/
structure WqCounts (s : WorkQueue) : Prop where
  works : s.nrWorks = s.entering + s.pendingList.length + s.workers.countP WqWorker.busy
  threads : s.workers.length = s.nrThreads + s.start.uncounted
  starting : s.start ≠ .ended → s.nrThreads + s.start.uncounted ≤ defWqNrThrs
  running : s.start = .ended → 4 ≤ s.nrThreads ∧ s.nrThreads ≤ 36

theorem WqCounts.fresh (now : UInt64) : WqCounts (.fresh now) :=
  ⟨rfl, rfl, fun _ => Nat.zero_le _, fun h => WqStart.noConfusion h⟩

section Counts
variable {s s' : WorkQueue} {i : Nat} {w : WqWorker}

theorem busy_set (hw : s.workers[i]? = some w) (w' : WqWorker) :
    (s.workers.set i w').countP WqWorker.busy + w.busy.toNat =
      s.workers.countP WqWorker.busy + w'.busy.toNat := by
  obtain ⟨hi, rfl⟩ := List.getElem?_eq_some_iff.mp hw
  have hpos : s.workers[i].busy = true → 0 < s.workers.countP WqWorker.busy := fun h =>
    List.countP_pos_iff.mpr ⟨_, List.getElem_mem hi, h⟩
  rw [List.countP_set hi]
  cases hb : s.workers[i].busy with
  | false => cases w'.busy <;> rfl
  | true =>
    have := hpos hb
    cases w'.busy <;> simp only [Bool.toNat_true, Bool.toNat_false, if_true, Bool.false_eq_true,
      if_false] <;> omega

/-- A worker goes on, with or without an item. -/
theorem WqCounts.worker (hc : WqCounts s) (hw : s.workers[i]? = some w) {w' : WqWorker}
    (hworkers : s'.workers = s.workers.set i w') (hthreads : s'.nrThreads = s.nrThreads)
    (hstart : s'.start = s.start)
    (hworks : s'.nrWorks + s.entering + s.pendingList.length + w.busy.toNat =
      s.nrWorks + s'.entering + s'.pendingList.length + w'.busy.toNat) : WqCounts s' := by
  have hset := busy_set hw w'
  have hbefore := hc.works
  refine ⟨?_, ?_, ?_, ?_⟩
  · rw [hworkers]
    omega
  · rw [hworkers, List.length_set, hthreads, hstart]
    exact hc.threads
  · rw [hthreads, hstart]
    exact hc.starting
  · rw [hthreads, hstart]
    exact hc.running

theorem WqCounts.takeWork (hc : WqCounts s) (hw : s.workers[i]? = some w)
    (hidle : w.busy = false) : WqCounts (s.takeWork i) := by
  unfold WorkQueue.takeWork
  split
  · refine hc.worker hw rfl rfl rfl ?_
    rw [hidle]
    rfl
  · rename_i item rest hpending
    refine hc.worker hw rfl rfl rfl ?_
    rw [hidle, hpending]
    simp only [List.length_cons, WqWorker.busy, Bool.toNat_true, Bool.toNat_false]
    omega

theorem WqCounts.queueWork (hc : WqCounts s) (hstart : s.start = .ended)
    (hentering : 0 < s.entering) (created : Nat) (now : UInt64) :
    WqCounts (s.queueWork created now) := by
  have hworks := hc.works
  have hthreads := hc.threads
  have hrunning := hc.running hstart
  rw [hstart] at hthreads
  unfold WorkQueue.queueWork
  split
  · rename_i hexpand
    obtain ⟨k, hk, hle⟩ := createWorkerThreads_eq (s.nrThreads * 2) created s
    have hfew : s.nrThreads + 1 < 2 * defWqNrThrs := by
      simp only [WorkQueue.needExpand, Bool.and_eq_true, decide_eq_true_eq] at hexpand
      exact hexpand.2
    have hready : (List.replicate k WqWorker.ready).countP WqWorker.busy = 0 := by
      rw [List.countP_replicate]
      rfl
    rw [hk]
    refine ⟨?_, ?_, fun h => absurd hstart h, fun _ => ?_⟩
    · simp only [List.countP_append, hready, List.length_append, List.length_singleton]
      omega
    · simp only [List.length_append, List.length_replicate, hstart]
      omega
    · simp only [defWqNrThrs] at hfew ⊢
      omega
  · refine ⟨?_, hc.threads, hc.starting, hc.running⟩
    simp only [List.length_append, List.length_singleton]
    omega

/-- A worker ends only when there are more than four. -/
theorem WqCounts.shrink (hc : WqCounts s) (hw : s.workers[i]? = some .ready) {now : UInt64}
    (hshrink : s.needShrink now) :
    WqCounts { s with workers := s.workers.eraseIdx i, nrThreads := s.nrThreads - 1 } := by
  obtain ⟨hi, hready⟩ := List.getElem?_eq_some_iff.mp hw
  have hmany : defWqNrThrs / 2 < s.nrThreads + 1 := by
    simp only [WorkQueue.needShrink, Bool.and_eq_true, decide_eq_true_eq] at hshrink
    exact hshrink.1.2
  have hbusy := (List.getElem_cons_eraseIdx_perm hi).countP_eq WqWorker.busy
  rw [hready, List.countP_cons_of_neg Bool.false_ne_true] at hbusy
  have hworks := hc.works
  have hthreads := hc.threads
  simp only [defWqNrThrs] at hmany
  refine ⟨?_, ?_, fun h => ?_, fun h => ?_⟩
  · dsimp only
    omega
  · rw [List.length_eraseIdx_of_lt hi]
    dsimp only
    omega
  · have := hc.starting h
    dsimp only
    omega
  · have := hc.running h
    dsimp only
    omega

theorem busy_of_idle (h : w = .ready ∨ w = .waiting) : w.busy = false := by
  rcases h with rfl | rfl
  · rfl
  · rfl

theorem WqCounts.step (hc : WqCounts s) (h : WqStep s s') : WqCounts s' := by
  cases h with
  | create hstart hlt =>
    have hthreads := hc.threads
    rw [hstart] at hthreads
    refine ⟨?_, ?_, fun _ => hlt, fun h => WqStart.noConfusion h⟩
    · simp only [List.countP_append, List.countP_singleton, WqWorker.busy]
      exact hc.works
    · rw [List.length_append, hthreads]
      rfl
  | count hstart =>
    have hthreads := hc.threads
    have hle := hc.starting (hstart ▸ WqStart.noConfusion)
    rw [hstart] at hthreads hle
    exact ⟨hc.works, hthreads, fun _ => hle, fun h => WqStart.noConfusion h⟩
  | startEnd hstart hlt =>
    have hthreads := hc.threads
    have hle := hc.starting (hstart ▸ WqStart.noConfusion)
    rw [hstart] at hthreads hle
    refine ⟨hc.works, hthreads, fun h => absurd rfl h, fun _ => ?_⟩
    simp only [defWqNrThrs, WqStart.uncounted] at hlt hle ⊢
    omega
  | queueCount =>
    refine ⟨?_, hc.threads, hc.starting, hc.running⟩
    have hworks := hc.works
    dsimp only
    omega
  | queueAdd hstart hentering created now => exact hc.queueWork hstart hentering created now
  | shrink hw hshrink => exact hc.shrink hw hshrink
  | take hw hidle => exact hc.takeWork hw (busy_of_idle hidle)
  | call hw => exact hc.worker hw rfl rfl rfl rfl
  | finish hw => exact hc.worker hw rfl rfl rfl rfl
  | release hw =>
    -- the count is above zero: the item of this worker is in it
    have hset := busy_set hw .ready
    have hworks := hc.works
    simp only [WqWorker.busy, Bool.toNat_true, Bool.toNat_false] at hset
    refine hc.worker hw rfl rfl rfl ?_
    simp only [WqWorker.busy, Bool.toNat_true, Bool.toNat_false]
    omega
  | drain => exact ⟨hc.works, hc.threads, hc.starting, hc.running⟩
  | done => exact ⟨hc.works, hc.threads, hc.starting, hc.running⟩

end Counts

theorem WqRun.counts {s : WorkQueue} (h : WqRun s) : WqCounts s :=
  Reach.invariant (I := WqCounts)
    (fun s hs => by
      obtain ⟨now, rfl⟩ := hs
      exact .fresh now)
    (fun _ _ _ _ hc hs => hc.step (.of_step hs)) h

/-! ## What the queue delivers -/

def WqWorker.inHands : WqWorker → List Nat
  | holds item => [item]
  | ran item => [item]
  | _ => []

/-- What has happened to an item, in this order. -/
def WorkQueue.history (s : WorkQueue) (item : Nat) : List WqLog :=
  s.log.filter fun e => e.item = item

theorem place_fst (w : WqWorker) : w.place.map Prod.fst = w.inHands := by cases w <;> rfl

theorem places_fst (s : WorkQueue) :
    s.places.map Prod.fst = s.pendingList ++ s.workers.flatMap WqWorker.inHands ++
      (s.finishedList ++ s.draining) ++ s.finishedItems := by
  have hid : ∀ (l : List Nat) (h : Nat → List WqLog),
      (l.map fun item => (item, h item)).map Prod.fst = l := by
    intro l h
    rw [List.map_map]
    exact List.map_id l
  rw [WorkQueue.places, List.map_append, List.map_append, List.map_append, hid, hid, hid,
    List.map_flatMap]
  simp only [place_fst]

/-- At any time every item that was queued is in exactly one place, its `fn` has run once when
it is behind a worker and its `done` once when it is behind the event loop; items are started
in the order in which they were queued; and after the start there are between 4 and 36
workers, as many as `nr_threads` says. -/
theorem workQueue_delivers {s : WorkQueue} (h : WqRun s) :
    (s.pendingList ++ s.workers.flatMap WqWorker.inHands ++ (s.finishedList ++ s.draining) ++
      s.finishedItems).Perm (List.range s.queued) ∧
    (∀ item ∈ s.pendingList, s.history item = []) ∧
    (∀ item, .holds item ∈ s.workers → s.history item = [.started item]) ∧
    (∀ item, .ran item ∈ s.workers → s.history item = [.started item, .ran item]) ∧
    (∀ item ∈ s.finishedList ++ s.draining, s.history item = [.started item, .ran item]) ∧
    (∀ item ∈ s.finishedItems, s.history item = [.started item, .ran item, .done item]) ∧
    s.startedItems ++ s.pendingList = List.range s.queued ∧
    (s.start = .ended → 4 ≤ s.nrThreads ∧ s.nrThreads ≤ 36 ∧ s.workers.length = s.nrThreads) := by
  have hitems := h.items
  have hcounts := h.counts
  have hhistory := hitems.recorded.history
  have hworker : ∀ {w : WqWorker} {item : Nat} {past : List WqLog}, w ∈ s.workers →
      (item, past) ∈ w.place → s.history item = past := by
    intro w item past hw hplace
    refine hhistory item past (List.mem_append_left _ (List.mem_append_left _ ?_))
    exact List.mem_append_right _ (List.mem_flatMap.mpr ⟨w, hw, hplace⟩)
  refine ⟨places_fst s ▸ hitems.items, ?_, ?_, ?_, ?_, ?_, hitems.order, ?_⟩
  · intro item hmem
    refine hhistory item [] (List.mem_append_left _ (List.mem_append_left _ ?_))
    exact List.mem_append_left _ (List.mem_map_of_mem hmem)
  · intro item hw
    exact hworker hw List.mem_cons_self
  · intro item hw
    exact hworker hw List.mem_cons_self
  · intro item hmem
    refine hhistory item _ (List.mem_append_left _ (List.mem_append_right _ ?_))
    exact List.mem_map_of_mem hmem
  · intro item hmem
    exact hhistory item _ (List.mem_append_right _ (List.mem_map_of_mem hmem))
  · intro hended
    have hthreads := hcounts.threads
    rw [hended] at hthreads
    exact ⟨(hcounts.running hended).1, (hcounts.running hended).2, hthreads⟩

/-- One item goes through the queue while a second one waits. -/
def twoItems : List WqEvent :=
  (List.replicate 10 [.create, .count]).flatten ++
    [.startEnd, .queueCount, .queueAdd 0 5, .queueCount, .lock 3 6, .queueAdd 0 6, .call 3,
      .finish 3, .release 3, .drain, .done]

theorem workQueue_delivers_first :
    ∃ s : WorkQueue, play WorkQueue.step twoItems (.fresh 0) = some s ∧
    s.history 0 = [.started 0, .ran 0, .done 0] ∧ s.history 1 = [] ∧ s.workers.length = 10 := by
  have hplay : (play WorkQueue.step twoItems (.fresh 0)).map (fun s =>
      (s.finishedItems, s.pendingList, s.start, s.nrThreads)) = some ([0], [1], .ended, 10) := by
    decide
  obtain ⟨s, hs, heq⟩ := Option.map_eq_some_iff.mp hplay
  have hrun : WqRun s := Reach.play (fun _ _ _ h => h) twoItems (.init ⟨0, rfl⟩) hs
  have hdelivers := workQueue_delivers hrun
  simp only [Prod.mk.injEq] at heq
  obtain ⟨hdone, hpending, hended, hthreads⟩ := heq
  obtain ⟨-, hwaits, -, -, -, hall, -, hworkers⟩ := hdelivers
  refine ⟨s, hs, hall 0 (hdone ▸ List.mem_cons_self), hwaits 1 (hpending ▸ List.mem_cons_self), ?_⟩
  exact (hworkers hended).2.2.trans hthreads

end Speedy.Chunkserver
