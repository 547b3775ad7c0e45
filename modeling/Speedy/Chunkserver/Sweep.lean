import Speedy.Chunkserver.Boot
import Speedy.Chunkserver.Runs

/-! # The sweep over the pending writes

`spy_remove_timeout_pending_writes` stops at the first job that is young enough. Jobs
enter the list at its end with the time they were requested at, and leave it anywhere, so
with a clock that does not run backwards the list is always in the order of these times,
and the sweep finds every job it should. -/
namespace Speedy.Chunkserver
open Speedy.Lib Relation

/-- Runs with the clock as of the last event. It does not run backwards, and what an event
reads from it is the time at which it happens. -/
abbrev TimedRun (cfg : Config) : Server × Nat → Prop :=
  Reach (fun x => Server.Booted cfg x.1) fun x e x' =>
    step cfg x.1 e = .ok x'.1 ∧ x.2 ≤ x'.2 ∧ ∀ time, e.clock = some time → time = x'.2

/-- In the order of the request times, none of which lies ahead. -/
structure Aged (clock : Nat) (jobs : List IoJob) : Prop where
  sorted : jobs.Pairwise fun a b => a.reqTime ≤ b.reqTime
  past : ∀ job ∈ jobs, job.reqTime ≤ clock

section Aged
variable {clock now : Nat} {jobs : List IoJob} {l l' : Lists}

theorem Aged.sublist {jobs' : List IoJob} (h : Aged clock jobs) (hs : jobs'.Sublist jobs) :
    Aged clock jobs' :=
  ⟨h.sorted.sublist hs, fun job hj => h.past job (hs.subset hj)⟩

theorem Aged.later (h : Aged clock jobs) (hle : clock ≤ now) : Aged now jobs :=
  ⟨h.sorted, fun job hj => (h.past job hj).trans hle⟩

theorem Aged.park (h : Aged now jobs) {job : IoJob} (time : job.reqTime = now) :
    Aged now (jobs ++ [job]) := by
  refine ⟨List.pairwise_append.mpr ⟨h.sorted, List.pairwise_singleton _ _, ?_⟩, ?_⟩
  · intro a ha b hb
    rw [List.mem_singleton.mp hb, time]
    exact h.past a ha
  · intro a ha
    rcases List.mem_append.mp ha with ha | ha
    · exact h.past a ha
    · rw [List.mem_singleton.mp ha, time]

theorem ListStep.aged (h : Aged now l.pendingWrites) (hs : ListStep now l l') :
    Aged now l'.pendingWrites := by
  cases hs with
  | take id free => exact h
  | park job time room => exact h.park time
  | promote fit job found => exact h.sublist List.eraseP_sublist
  | giveBack id mem busy => exact h
  | drop job rest first =>
    rw [first] at h
    exact h.sublist (List.sublist_cons_self job rest)

end Aged

section Sweep
variable {cfg : Config} {s : Server} {clock : Nat}

theorem TimedRun.inv {x : Server × Nat} (h : TimedRun cfg x) :
    ServerInv x.1 ∧ Aged x.2 x.1.pendingWrites := by
  refine h.invariant (I := fun x => ServerInv x.1 ∧ Aged x.2 x.1.pendingWrites) ?_ ?_
  · intro x hx
    obtain ⟨create, dir, t, ht, he⟩ := id hx
    refine ⟨hx.inv, ?_⟩
    rw [he]
    exact ⟨List.Pairwise.nil, fun job hj => absurd hj List.not_mem_nil⟩
  · intro x e x' _ hi hstep
    obtain ⟨hs, hle, hclock⟩ := hstep
    obtain ⟨hinv, hlists⟩ := hi.1.step hclock hs
    refine ⟨hinv, ?_⟩
    exact ReflTransGen.keeps (I := fun l => Aged x'.2 l.pendingWrites)
      (fun _ _ ha hab => hab.aged ha) (hi.2.later hle) hlists

/-- The job has waited long enough. -/
def expired (now : Nat) (job : IoJob) : Bool := decide (job.reqTime + defPendingWriteTimeout ≤ now)

/-- In the order of the request times the expired jobs are in front. -/
theorem Aged.split {jobs : List IoJob} (h : Aged clock jobs) (now : Nat) :
    jobs.takeWhile (expired now) = jobs.filter (expired now) ∧
      jobs.dropWhile (expired now) = jobs.filter fun job => !expired now job := by
  induction jobs with
  | nil => exact ⟨rfl, rfl⟩
  | cons job rest ih =>
    obtain ⟨hfirst, -⟩ := List.pairwise_cons.mp h.sorted
    obtain ⟨h1, h2⟩ := ih (h.sublist (List.sublist_cons_self job rest))
    by_cases he : expired now job = true
    · simp only [List.takeWhile_cons_of_pos he, List.dropWhile_cons_of_pos he,
        List.filter_cons_of_pos he, h1, h2]
      simp [he]
    · -- a young job is followed by young jobs only
      have hyoung : ∀ a ∈ job :: rest, expired now a = false := by
        intro a ha
        rcases List.mem_cons.mp ha with rfl | ha
        · exact Bool.eq_false_iff.mpr he
        · have := hfirst a ha
          simp only [expired, decide_eq_true_eq] at he
          simp only [expired, decide_eq_false_iff_not]
          omega
      rw [List.takeWhile_cons_of_neg he, List.dropWhile_cons_of_neg he]
      constructor
      · exact (List.filter_eq_nil_iff.mpr fun a ha => by simp [hyoung a ha]).symm
      · exact (List.filter_eq_self.mpr fun a ha => by simp [hyoung a ha]).symm

/-- What the loop does when the connections of the jobs are there and differ. -/
theorem timeoutLoop_spec (now : Nat) (jobs : List IoJob) {s : Server} (hp : s.pendingWrites = jobs)
    (hlive : ∀ job ∈ jobs, ∃ conn, s.conns job.conn = some conn)
    (hnd : (jobs.map IoJob.conn).Nodup) :
    ∃ s', timeoutLoop now jobs s = .ok s' ∧ s'.pendingWrites = jobs.dropWhile (expired now) ∧
      (∀ job ∈ jobs.takeWhile (expired now), ∃ conn, s.conns job.conn = some conn ∧
        s'.conns job.conn = some (errorReply conn .chunkUnavailable)) ∧
      ∀ c, (∀ job ∈ jobs.takeWhile (expired now), job.conn ≠ c) → s'.conns c = s.conns c := by
  induction jobs generalizing s with
  | nil => exact ⟨s, rfl, hp, fun job hj => absurd hj List.not_mem_nil, fun _ _ => rfl⟩
  | cons job rest ih =>
    by_cases he : expired now job = true
    · obtain ⟨conn, hconn⟩ := hlive job List.mem_cons_self
      obtain ⟨hnot, hnd⟩ := List.nodup_cons.mp hnd
      have hne : ∀ a ∈ rest, a.conn ≠ job.conn := fun a ha heq =>
        hnot (heq ▸ List.mem_map_of_mem ha)
      -- the state behind the first job
      obtain ⟨t, ht, htp, htc⟩ : ∃ t, dropPending s job rest .chunkUnavailable = .ok t ∧
          t.pendingWrites = rest ∧ t.conns = fun i =>
            if i = job.conn then some (errorReply conn .chunkUnavailable) else s.conns i := by
        unfold dropPending Server.conn
        rw [hconn]
        exact ⟨_, rfl, rfl, rfl⟩
      have hother : ∀ c, c ≠ job.conn → t.conns c = s.conns c := by
        intro c hc
        rw [htc]
        exact if_neg hc
      obtain ⟨s', hs', hpend, hans, hkeep⟩ := ih htp (fun a ha => by
        rw [hother a.conn (hne a ha)]
        exact hlive a (List.mem_cons_of_mem job ha)) hnd
      refine ⟨s', ?_, ?_, ?_, ?_⟩
      · have hle : ¬ job.reqTime + defPendingWriteTimeout > now :=
          Nat.not_lt.mpr (of_decide_eq_true he)
        simp only [timeoutLoop, if_neg hle, ht, bind, Except.bind]
        exact hs'
      · rw [List.dropWhile_cons_of_pos he, hpend]
      · rw [List.takeWhile_cons_of_pos he]
        intro a ha
        rcases List.mem_cons.mp ha with rfl | ha
        · refine ⟨conn, hconn, ?_⟩
          rw [hkeep a.conn fun b hb => hne b (List.takeWhile_subset _ hb), htc]
          exact if_pos rfl
        · obtain ⟨conn', h1, h2⟩ := hans a ha
          rw [hother a.conn (hne a (List.takeWhile_subset _ ha))] at h1
          exact ⟨conn', h1, h2⟩
      · intro c hc
        rw [List.takeWhile_cons_of_pos he] at hc
        rw [hkeep c fun b hb => hc b (List.mem_cons_of_mem job hb)]
        exact hother c fun heq => hc job List.mem_cons_self heq.symm
    · have hgt : job.reqTime + defPendingWriteTimeout > now := by
        simp only [expired, decide_eq_true_eq] at he
        exact Nat.lt_of_not_le he
      rw [List.takeWhile_cons_of_neg he, List.dropWhile_cons_of_neg he]
      refine ⟨s, ?_, hp, fun a ha => absurd ha List.not_mem_nil, fun _ _ => rfl⟩
      simp only [timeoutLoop, if_pos hgt]

/-- The connections of the pending writes are there, and no two are the same. -/
theorem FlowInv.pending (h : FlowInv s.ledger) :
    (∀ job ∈ s.pendingWrites, ∃ conn, s.conns job.conn = some conn) ∧
      (s.pendingWrites.map IoJob.conn).Nodup := by
  have hsub : (s.pendingWrites.map IoJob.conn).Sublist s.ledger.waiting := by
    show List.Sublist _ (s.works.map fun x => x.1.conn)
    unfold Server.works
    rw [List.map_append, List.map_map]
    exact List.sublist_append_left _ _
  refine ⟨fun job hj => ?_, h.conns.nodup.sublist hsub⟩
  exact h.conns.live job.conn (hsub.subset (List.mem_map_of_mem hj))

/-- The sweep is complete. In every run with a clock that does not run backwards, a sweep
takes exactly the writes off the list that have waited for `DEF_PENDING_WRITE_TIMEOUT`,
and leaves the others in their order. Their connections get CHUNK_UNAVAILABLE, and no other
connection changes. No assertion fails. -/
theorem timeout_sweep_is_complete (h : TimedRun cfg (s, clock)) (now : Nat) :
    ∃ s', spyRemoveTimeoutPendingWrites s now = .ok s' ∧
      s'.pendingWrites =
        s.pendingWrites.filter (fun job => now < job.reqTime + defPendingWriteTimeout) ∧
      (∀ job ∈ s.pendingWrites, job.reqTime + defPendingWriteTimeout ≤ now →
        ∃ conn, s.conns job.conn = some conn ∧
          s'.conns job.conn = some (errorReply conn .chunkUnavailable)) ∧
      ∀ c, (∀ job ∈ s.pendingWrites, job.reqTime + defPendingWriteTimeout ≤ now → job.conn ≠ c) →
        s'.conns c = s.conns c := by
  obtain ⟨hinv, haged⟩ := h.inv
  obtain ⟨hlive, hnd⟩ := hinv.flow.pending
  obtain ⟨htake, hdrop⟩ := haged.split now
  have hyoung : s.pendingWrites.dropWhile (expired now) =
      s.pendingWrites.filter fun job => now < job.reqTime + defPendingWriteTimeout := by
    rw [hdrop]
    refine List.filter_congr fun job _ => ?_
    simp only [expired, ← decide_not, Nat.not_le]
  have hold : ∀ job, job ∈ s.pendingWrites.takeWhile (expired now) ↔
      job ∈ s.pendingWrites ∧ job.reqTime + defPendingWriteTimeout ≤ now := by
    intro job
    rw [htake, List.mem_filter, expired, decide_eq_true_eq]
  obtain ⟨s', hs', hpend, hans, hkeep⟩ := timeoutLoop_spec now s.pendingWrites rfl hlive hnd
  have hsweep : spyRemoveTimeoutPendingWrites s now = .ok s' := by
    have hsize : s.pendingWritesSize = s.pendingWrites.length := hinv.lists.size
    unfold spyRemoveTimeoutPendingWrites
    by_cases hnil : s.pendingWrites = []
    · rw [hnil] at hsize hs'
      exact (if_pos hsize).trans hs'
    · rw [if_neg fun h0 => hnil (List.eq_nil_of_length_eq_zero (hsize.symm.trans h0)), if_neg hnil]
      exact hs'
  refine ⟨s', hsweep, hpend.trans hyoung, ?_, ?_⟩
  · intro job hj hage
    exact hans job ((hold job).mpr ⟨hj, hage⟩)
  · intro c hc
    exact hkeep c fun job hj => hc job ((hold job).mp hj).1 ((hold job).mp hj).2

/-- Four WRITEs to a server with two chunks, the last two of them late. -/
def lateEvents : List Event :=
  [.accept, .accept, .accept, .accept, .readable 0 (.data (request 0 7 [1])) ⟨10, 0, true, true⟩,
    .readable 1 (.data (request 0 8 [2])) ⟨10, 0, true, true⟩,
    .readable 2 (.data (request 0 9 [3])) ⟨11, 0, true, true⟩,
    .readable 3 (.data (request 0 10 [4])) ⟨13, 0, true, true⟩]

/-- The event at the time it reads, or without letting time pass. -/
def timedStep (cfg : Config) (x : Server × Nat) (e : Event) : Option (Server × Nat) :=
  match step cfg x.1 e with
  | .error _ => none
  | .ok s' => if x.2 ≤ e.clock.getD x.2 then some (s', e.clock.getD x.2) else none

theorem timedStep_step {x x' : Server × Nat} {e : Event} (h : timedStep cfg x e = some x') :
    step cfg x.1 e = .ok x'.1 ∧ x.2 ≤ x'.2 ∧ ∀ time, e.clock = some time → time = x'.2 := by
  unfold timedStep at h
  split at h
  · cases h
  · rename_i s' hs
    split at h
    · rename_i hle
      cases h
      refine ⟨hs, hle, fun time ht => ?_⟩
      rw [ht]
      rfl
    · cases h

/-- At time 16 the third WRITE is given up and the fourth goes on waiting. -/
theorem timeout_sweep_is_complete_late : ∃ s s' : Server,
    TimedRun sampleConfig (s, 13) ∧ s.pendingWrites.map (fun job => job.file.fid) = [9, 10] ∧
    spyRemoveTimeoutPendingWrites s 16 = .ok s' ∧
    s'.pendingWrites.map (fun job => job.file.fid) = [10] := by
  have hplay : (Lib.play (timedStep sampleConfig) lateEvents (newServer sampleConfig, 0)).map
      (fun x => (x.2, x.1.pendingWrites.map fun job => (job.file.fid, job.reqTime))) =
        some (13, [(9, 11), (10, 13)]) := by
    decide +kernel
  obtain ⟨⟨s, clock⟩, hx, hview⟩ := Option.map_eq_some_iff.mp hplay
  obtain ⟨rfl, hjobs⟩ := Prod.mk.inj hview
  have hinit : TimedRun sampleConfig (newServer sampleConfig, 0) :=
    .init ⟨fun _ => true, [], _, rfl, rfl⟩
  have hrun : TimedRun sampleConfig (s, 13) :=
    Reach.play (fun _ _ _ => timedStep_step) lateEvents hinit hx
  obtain ⟨s', hs', hpend, -⟩ := timeout_sweep_is_complete hrun 16
  have hfids : ∀ l : List IoJob, l.map (fun job => job.file.fid) =
      (l.map fun job => (job.file.fid, job.reqTime)).map Prod.fst := fun l => by
    rw [List.map_map]
    rfl
  refine ⟨s, s', hrun, ?_, hs', ?_⟩
  · rw [hfids, hjobs]
    rfl
  · have hfilter : (s.pendingWrites.filter fun job =>
        16 < job.reqTime + defPendingWriteTimeout).map (fun job => (job.file.fid, job.reqTime)) =
        [(9, 11), (10, 13)].filter fun y => 16 < y.2 + defPendingWriteTimeout := by
      rw [← hjobs, List.filter_map]
      rfl
    rw [hpend, hfids, hfilter]
    rfl

end Sweep

end Speedy.Chunkserver
