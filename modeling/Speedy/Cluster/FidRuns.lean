import Speedy.Lib.Run
import Speedy.Chunkmaster.AllocFid
import Speedy.Imageserver.Fids

/-! # File ids across the cluster

One chunkmaster and any number of imageservers that get ranges of fids from it.
Ranges are handed out under the chunkmaster's lock, answers may get lost, and both
kinds of process may be restarted at any time. -/
namespace Speedy.Cluster
open Speedy.Lib Speedy.Chunkmaster Speedy.Imageserver

/-- The chunkmaster, whose callers are goroutines of imageservers, the imageservers,
and the fids that `getFid` and `GetFidWait` have returned, the latest first -/
structure FidSystem where
  master : FidMaster (Nat × Nat)
  image : Nat → FidImage
  returned : List Nat

/-- Everything has just been started; the row of the database has some value. -/
def FidSystem.Initial (s : FidSystem) : Prop :=
  ∃ row, s = ⟨⟨0, 0, row, .unlocked, []⟩, fun _ => .start, []⟩

inductive FidEvent where
  /-- Goroutine `t` of imageserver `i` takes a step. -/
  | act (i t : Nat) (a : FidAction)
  /-- The request of that goroutine gets the lock; `ok` is the outcome of `GetFid`. -/
  | lock (i t : Nat) (ok : Bool)
  | updateFid (r : UpdateResult)
  /-- A range is taken from the window; its answer may get lost. -/
  | takeRange (delivered : Bool)
  | restartMaster
  | restartImage (i : Nat)
  deriving DecidableEq, Repr

def FidSystem.set (s : FidSystem) (i t : Nat) (v : FidView) : FidSystem :=
  { s with image := Function.update s.image i ((s.image i).put t v) }

def FidSystem.setTask (s : FidSystem) (i t : Nat) (task : FidTask) : FidSystem :=
  s.set i t { (s.image i).view t with task := task }

def FidSystem.step (s : FidSystem) : FidEvent → Option FidSystem
  | .act i t a =>
    match ((s.image i).view t).act a with
    | none => none
    | some (v, fid) => some { s.set i t v with returned := fid.toList ++ s.returned }
  | .lock i t ok =>
    match (s.image i).task t with
    | .asking caller false =>
      (s.master.lock (i, t) ok).map fun m =>
        { s.setTask i t (.asking caller true) with master := m }
    | _ => none
  | .updateFid r => (s.master.updateFid r).map fun m => { s with master := m }
  | .takeRange delivered =>
    match s.master.takeRange with
    | none => none
    | some ((i, t), range, m) =>
      match delivered, (s.image i).task t with
      | true, .asking caller true =>
        some { s.setTask i t (.merging caller range.1 range.2) with master := m }
      | _, _ => some { s with master := m }
  | .restartMaster => some { s with master := s.master.restart }
  | .restartImage i => some { s with image := Function.update s.image i .start }

/-- Who may have a fid -/
inductive FidHolder where
  | returned
  | channel (i : Nat)
  | task (i t : Nat)
  deriving DecidableEq

def FidSystem.held (s : FidSystem) : FidHolder → List Nat
  | .returned => s.returned
  | .channel i => (s.image i).ch
  | .task i t => ((s.image i).task t).rest

section Held
variable {s : FidSystem} {i t : Nat} {v : FidView} {h : FidHolder}

theorem held_set_channel : (s.set i t v).held (.channel i) = v.ch := by
  simp [FidSystem.held, FidSystem.set, FidImage.put]

theorem held_set_task : (s.set i t v).held (.task i t) = v.task.rest := by
  simp [FidSystem.held, FidSystem.set, FidImage.put]

theorem held_set_of_ne (hc : h ≠ .channel i) (ht : h ≠ .task i t) :
    (s.set i t v).held h = s.held h := by
  cases h with
  | returned => rfl
  | channel j =>
    have hj : j ≠ i := fun he => hc (he ▸ rfl)
    simp [FidSystem.held, FidSystem.set, hj]
  | task j u =>
    by_cases hj : j = i
    · subst hj
      have hu : u ≠ t := fun he => ht (he ▸ rfl)
      simp [FidSystem.held, FidSystem.set, FidImage.put, hu]
    · simp [FidSystem.held, FidSystem.set, hj]

theorem held_setTask_of_ne {task : FidTask} (ht : h ≠ .task i t) :
    (s.setTask i t task).held h = s.held h := by
  by_cases hc : h = .channel i
  · subst hc
    exact held_set_channel
  · exact held_set_of_ne hc ht

end Held

/-- Whether a fid is in a range that was handed out -/
def FidSystem.Allocated (s : FidSystem) (x : Nat) : Prop :=
  ∃ r ∈ s.master.allocated, r.1 ≤ x ∧ x < r.2

structure FidSystem.Inv (s : FidSystem) : Prop where
  master : s.master.Inv
  exclusive : Exclusive s.Allocated s.held

theorem FidSystem.Initial.inv {s : FidSystem} (h : s.Initial) : s.Inv := by
  obtain ⟨row, rfl⟩ := h
  refine ⟨⟨.nil, nofun, ⟨0, rfl⟩, fun h => absurd h (Nat.lt_irrefl _), fun _ => Nat.zero_le _,
    nofun, nofun⟩, ⟨?_, ?_, ?_⟩⟩
  · rintro (_ | _ | _) x hx <;> cases hx
  · rintro (_ | _ | _) <;> exact .nil
  · rintro (_ | _ | _) h' x hx <;> cases hx

section Steps
variable {s : FidSystem} {i t : Nat}

/-- A step of a goroutine only moves fids. -/
theorem FidSystem.Inv.moves {v : FidView} {fid : Option Nat} (hi : s.Inv)
    (hm : ((s.image i).view t).Moves v fid) :
    FidSystem.Inv { s.set i t v with returned := fid.toList ++ s.returned } := by
  refine ⟨hi.master, ?_⟩
  have hx := hi.exclusive
  have hch : s.held (.channel i) = ((s.image i).view t).ch := rfl
  have htask : s.held (.task i t) = ((s.image i).view t).task.rest := rfl
  cases hm with
  | keep hc hr =>
    refine hx.lose fun h => ?_
    change ((s.set i t v).held h).Subperm _
    by_cases hhc : h = .channel i
    · rw [hhc, held_set_channel, hc, hch]
    by_cases hht : h = .task i t
    · rw [hht, held_set_task, hr]
      exact List.nil_subperm
    · rw [held_set_of_ne hhc hht]
  | put x hr hc =>
    refine hx.exchange (a := .task i t) (b := .channel i) nofun ?_ fun h hne hne' =>
      held_set_of_ne hne' hne
    change ((s.set i t v).held _ ++ (s.set i t v).held _).Subperm _
    rw [held_set_task, held_set_channel, hch, htask, hr, hc, ← List.append_assoc]
    exact List.perm_append_singleton x _ |>.subperm
  | take x hc hr =>
    refine hx.exchange (a := .channel i) (b := .returned) nofun ?_ fun h hne hne' => ?_
    · change ((s.set i t v).held (.channel i) ++ x :: s.returned).Subperm
        (s.held (.channel i) ++ s.returned)
      rw [held_set_channel, hch, hc]
      exact List.perm_middle.subperm
    · cases h with
      | returned => exact absurd rfl hne'
      | channel j => exact held_set_of_ne hne nofun
      | task j u =>
        by_cases he : FidHolder.task j u = .task i t
        · obtain ⟨rfl, rfl⟩ := FidHolder.task.inj he
          change (s.set j u v).held (.task j u) = s.held (.task j u)
          rw [held_set_task, htask, hr]
        · exact held_set_of_ne hne he

/-- Where a goroutine that has no fids is does not matter. -/
theorem FidSystem.Inv.setTask {task : FidTask} {m : FidMaster (Nat × Nat)} (hi : s.Inv)
    (htask : task.rest = []) (hm : m.Inv) (ha : m.allocated = s.master.allocated) :
    FidSystem.Inv { s.setTask i t task with master := m } := by
  refine ⟨hm, ?_⟩
  have hissued : FidSystem.Allocated { s.setTask i t task with master := m } = s.Allocated := by
    funext x
    simp only [FidSystem.Allocated, ha]
  rw [hissued]
  refine hi.exclusive.lose fun h => ?_
  change ((s.setTask i t task).held h).Subperm _
  by_cases hht : h = .task i t
  · subst hht
    rw [FidSystem.setTask, held_set_task, htask]
    exact List.nil_subperm
  · rw [held_setTask_of_ne hht]

/-- A range that has just been taken is nobody's, and goes to one goroutine or is lost. -/
theorem FidSystem.Inv.takeRange {caller : Nat × Nat} {range : Nat × Nat} {image : Nat → FidImage}
    {m : FidMaster (Nat × Nat)} (hi : s.Inv)
    (hm : s.master.takeRange = some (caller, range, m))
    (htask : ∀ h, h ≠ .task i t → FidSystem.held { s with image := image } h = s.held h)
    (hrest : ((image i).task t).rest.Subperm
      (((s.image i).task t).rest ++ List.range' range.1 (range.2 - range.1))) :
    FidSystem.Inv { s with master := m, image := image } := by
  obtain ⟨hmi, halloc, hlen, hafter⟩ := hi.master.takeRange hm
  refine ⟨hmi, hi.exclusive.issue (a := .task i t) List.nodup_range' ?_ ?_ hrest htask⟩
  · rintro x hx ⟨r, hr, -, hlt⟩
    have hle := hafter r hr
    obtain ⟨hx, -⟩ := List.mem_range'_1.mp hx
    omega
  · rintro x (⟨r, hr, hx⟩ | hx)
    · exact ⟨r, halloc ▸ List.mem_cons_of_mem _ hr, hx⟩
    · obtain ⟨hge, hlt⟩ := List.mem_range'_1.mp hx
      exact ⟨range, halloc ▸ List.mem_cons_self, hge, by omega⟩

theorem FidSystem.Inv.restartImage (hi : s.Inv) :
    FidSystem.Inv { s with image := Function.update s.image i .start } := by
  refine ⟨hi.master, hi.exclusive.lose fun h => ?_⟩
  cases h with
  | returned => exact List.Subperm.refl _
  | channel j =>
    by_cases hj : j = i
    · subst hj
      simp [FidSystem.held, FidImage.start, List.nil_subperm]
    · simp [FidSystem.held, hj, List.Subperm.refl]
  | task j u =>
    by_cases hj : j = i
    · subst hj
      simp [FidSystem.held, FidImage.start, FidTask.rest, List.nil_subperm]
    · simp [FidSystem.held, hj, List.Subperm.refl]

end Steps

/-- If `GetFid` fails, the window in memory is the initial one and not one that has
been used up. -/
def FidSystem.GetFidFailsEarly (s : FidSystem) : FidEvent → Prop
  | .lock _ _ false => s.master.Exhausted → s.master.fidEnd = 0
  | _ => True

instance (s : FidSystem) (e : FidEvent) : Decidable (s.GetFidFailsEarly e) :=
  match e with
  | .lock _ _ false => inferInstanceAs (Decidable (_ → _))
  | .lock _ _ true | .act .. | .updateFid _ | .takeRange _ | .restartMaster | .restartImage _ =>
    inferInstanceAs (Decidable True)

theorem FidSystem.Inv.step {s s' : FidSystem} {e : FidEvent} (hi : s.Inv)
    (hok : s.GetFidFailsEarly e) (h : s.step e = some s') : s'.Inv := by
  cases e with
  | act i t a =>
    simp only [FidSystem.step] at h
    split at h
    · cases h
    · rename_i v fid hact
      cases h
      exact hi.moves (FidView.act_moves hact)
  | lock i t ok =>
    simp only [FidSystem.step] at h
    split at h
    · obtain ⟨m, hm, rfl⟩ := Option.map_eq_some_iff.mp h
      refine hi.setTask rfl (hi.master.lock (fun hf => ?_) hm) (FidMaster.lock_allocated hm)
      subst hf
      exact hok
    · cases h
  | updateFid r =>
    obtain ⟨m, hm, rfl⟩ := Option.map_eq_some_iff.mp h
    refine ⟨hi.master.updateFid hm, ?_⟩
    have hissued : FidSystem.Allocated { s with master := m } = s.Allocated := by
      funext x
      simp only [FidSystem.Allocated, FidMaster.updateFid_allocated hm]
    exact hissued ▸ hi.exclusive
  | takeRange delivered =>
    simp only [FidSystem.step] at h
    split at h
    · cases h
    · rename_i i t range m hm
      split at h
      · rename_i caller htask
        cases h
        refine hi.takeRange (i := i) (t := t) hm (fun h hne => held_setTask_of_ne hne) ?_
        have hrest : (((s.setTask i t (.merging caller range.1 range.2)).image i).task t).rest =
            List.range' range.1 (range.2 - range.1) := held_set_task
        rw [hrest]
        exact (List.sublist_append_right _ _).subperm
      · cases h
        exact hi.takeRange (i := i) (t := t) hm (fun h _ => rfl)
          (List.sublist_append_left _ _).subperm
  | restartMaster =>
    cases h
    exact ⟨hi.master.restart (Nat.le_refl _), hi.exclusive⟩
  | restartImage i =>
    cases h
    exact hi.restartImage

/-- The runs in which `GetFid` fails only on the initial window -/
def FidRun : FidSystem → Prop :=
  Reach FidSystem.Initial fun s e s' => s.step e = some s' ∧ s.GetFidFailsEarly e

theorem FidRun.inv {s : FidSystem} (h : FidRun s) : s.Inv :=
  Reach.invariant (I := FidSystem.Inv) (fun _ => FidSystem.Initial.inv)
    (fun _ _ _ _ hi hs => hi.step hs.2 hs.1) h

/-- As long as `GetFid` fails only on the initial window, no fid is allocated twice
and none is returned twice, and the row in the database is above all of them. -/
theorem fids_are_unique {s : FidSystem} (h : FidRun s) :
    (s.master.allocated.Pairwise fun r q => Disjoint (Set.Ico r.1 r.2) (Set.Ico q.1 q.2)) ∧
    (∀ r ∈ s.master.allocated, ∀ x ∈ Set.Ico r.1 r.2, x < s.master.genFid) ∧
    s.returned.Nodup := by
  have hi := h.inv
  refine ⟨hi.master.disjoint, fun r hr x hx => ?_, hi.exclusive.nodup .returned⟩
  exact Nat.lt_of_lt_of_le hx.2 (hi.master.below r hr)

/-- A goroutine calls `GetFidRange` and its request goes out. -/
def askRange (i t : Nat) (ticker : Bool) : List FidEvent :=
  [.act i t (.callRange ticker), .act i t .next]

def freshSystem (row : Nat) : FidSystem := ⟨⟨0, 0, row, .unlocked, []⟩, fun _ => .start, []⟩

/-- Two imageservers; the database fails in both statements and the chunkmaster is
restarted with a window in memory. -/
def stormyEvents : List FidEvent :=
  askRange 0 0 false ++ [.lock 0 0 false, .act 0 0 .fail] ++
  askRange 0 0 false ++ [.lock 0 0 true, .updateFid (.failed true), .act 0 0 .fail] ++
  askRange 0 0 false ++ [.lock 0 0 true, .updateFid .done, .takeRange true, .act 0 0 .next,
    .act 0 1 .callGetFid, .restartMaster] ++
  askRange 1 0 true ++ [.lock 1 0 true, .updateFid .done, .takeRange true, .act 1 0 .next,
    .act 1 0 .next, .act 1 1 .callGetFid, .act 1 1 .callGetFid]

theorem fids_are_unique_stormy : ∃ s, FidRun s ∧ s.returned = [20001, 20000, 10000] ∧
    s.master.genFid = 30000 ∧ s.returned.Nodup := by
  have hplay : (play (fun s e => if s.GetFidFailsEarly e then s.step e else none) stormyEvents
      (freshSystem 0)).map (fun s => (s.returned, s.master.genFid)) =
        some ([20001, 20000, 10000], 30000) := by
    decide +kernel
  obtain ⟨s, hs, hr⟩ := Option.map_eq_some_iff.mp hplay
  obtain ⟨hret, hrow⟩ := Prod.mk.inj hr
  have hrun : FidRun s := by
    refine Reach.play (fun s e s' h => ?_) stormyEvents (.init ⟨0, rfl⟩) hs
    split at h
    · exact ⟨h, by assumption⟩
    · cases h
  exact ⟨s, hrun, hret, hrow, (fids_are_unique hrun).2.2⟩

/-- A range is allocated whose answer gets lost. -/
def loseRange (i t : Nat) : List FidEvent :=
  askRange i t false ++ [.lock i t true, .takeRange false, .act i t .fail]

/-- The first window is used up, `GetFid` fails once, and the next request is served
from 0 again. -/
def outageEvents : List FidEvent :=
  askRange 0 0 false ++ [.lock 0 0 true, .updateFid .done, .takeRange true, .act 0 0 .next,
    .act 0 1 .callGetFid] ++
  (List.replicate 99 (loseRange 0 2)).flatten ++
  askRange 0 2 false ++ [.lock 0 2 false, .act 0 2 .fail] ++
  askRange 0 2 false ++ [.lock 0 2 true, .takeRange true, .act 0 2 .next, .act 0 1 .callGetFid]

theorem fids_repeat_after_outage :
    ∃ s, Reach FidSystem.Initial (fun s e s' => s.step e = some s') s ∧
      (¬ s.master.allocated.Pairwise fun r q => Disjoint (Set.Ico r.1 r.2) (Set.Ico q.1 q.2)) ∧
      s.returned = [0, 0] := by
  have hplay : (play FidSystem.step outageEvents (freshSystem 0)).map
      (fun s => (s.master.allocated.head?, s.master.allocated.getLast?,
        s.master.allocated.length, s.returned)) =
        some (some (0, 100), some (0, 100), 101, [0, 0]) := by
    decide +kernel
  obtain ⟨s, hs, hr⟩ := Option.map_eq_some_iff.mp hplay
  simp only [Prod.mk.injEq] at hr
  obtain ⟨hhead, hlast, hlen, hret⟩ := hr
  refine ⟨s, Reach.play (fun _ _ _ h => h) outageEvents (.init ⟨0, rfl⟩) hs, fun hd => ?_, hret⟩
  obtain ⟨rest, hrest⟩ := List.head?_eq_some_iff.mp hhead
  rw [hrest] at hd hlast hlen
  have hmem : (0, 100) ∈ rest := by
    cases rest with
    | nil => simp at hlen
    | cons r rest =>
      rw [List.getLast?_cons_cons] at hlast
      exact List.mem_of_getLast? hlast
  exact Set.disjoint_left.mp (List.rel_of_pairwise_cons hd hmem)
    (Set.mem_Ico.mpr ⟨le_refl 0, by simp⟩)
    (Set.mem_Ico.mpr ⟨le_refl 0, by simp⟩)

end Speedy.Cluster
