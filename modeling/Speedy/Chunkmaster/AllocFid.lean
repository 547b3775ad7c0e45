import Mathlib.Data.List.Basic
import Mathlib.Order.CompletePartialOrder
import Mathlib.Order.Interval.Set.Disjoint

/-! # Allocating ranges of file ids

The chunkmaster takes a window of `MAX_RANGE` fids at a time from the `gen_fid`
row of the database and hands it out in ranges of `ALLOCATE_RANGE`. `allocFid`
runs under a lock, so at most one call is in it; the call is cut at its database
statements, since each may fail and the process may be restarted between them. -/
namespace Speedy.Chunkmaster

def maxRange : Nat := 10000
def allocateRange : Nat := maxRange / 100

/-- What an `UPDATE` statement came to: it may fail although the row was written. -/
inductive UpdateResult where
  | done
  | failed (written : Bool)
  deriving DecidableEq, Repr

/-- Where the call of `allocFid` that has the lock is; `κ` names the callers. -/
inductive AllocPc (κ : Type) where
  | unlocked
  /-- before `mdDriver.UpdateFid(fid.End)` -/
  | update (caller : κ)
  /-- after the `if`, about to take a range from the window -/
  | take (caller : κ)
  deriving DecidableEq, Repr

/-- The variable `fid`, the `gen_fid` row, the call that has the lock, and the
ranges that calls have returned, the latest first. -/
structure FidMaster (κ : Type) where
  fidBegin : Nat
  fidEnd : Nat
  genFid : Nat
  pc : AllocPc κ
  allocated : List (Nat × Nat)

variable {κ : Type}

/-- The process has just been started: `newFid`. -/
def FidMaster.restart (m : FidMaster κ) : FidMaster κ :=
  { m with fidBegin := 0, fidEnd := 0, pc := .unlocked }

/-- `allocFid` up to `UpdateFid`; `ok` says whether `GetFid` succeeds if it is
called. The result of `GetFid` is assigned before its error is looked at, and with
an error it is 0. -/
def FidMaster.lock (m : FidMaster κ) (caller : κ) (ok : Bool) : Option (FidMaster κ) :=
  match m.pc with
  | .unlocked =>
    if m.fidBegin = m.fidEnd then
      if ok then
        some { m with fidBegin := m.genFid, fidEnd := m.genFid + maxRange, pc := .update caller }
      else some { m with fidBegin := 0 }
    else some { m with pc := .take caller }
  | _ => none

/-- `UpdateFid` and the test of its error -/
def FidMaster.updateFid (m : FidMaster κ) (r : UpdateResult) : Option (FidMaster κ) :=
  match m.pc with
  | .update caller =>
    match r with
    | .done => some { m with genFid := m.fidEnd, pc := .take caller }
    | .failed written =>
      some { m with
        genFid := if written then m.fidEnd else m.genFid
        fidBegin := 0, fidEnd := 0, pc := .unlocked }
  | _ => none

/-- The last lines of `allocFid`: the caller gets the range. -/
def FidMaster.takeRange (m : FidMaster κ) : Option (κ × (Nat × Nat) × FidMaster κ) :=
  match m.pc with
  | .take caller =>
    let range := (m.fidBegin, m.fidBegin + allocateRange)
    some (caller, range,
      { m with fidBegin := range.2, pc := .unlocked, allocated := range :: m.allocated })
  | _ => none

theorem FidMaster.lock_allocated {m m' : FidMaster κ} {caller : κ} {ok : Bool}
    (h : m.lock caller ok = some m') : m'.allocated = m.allocated := by
  unfold FidMaster.lock at h
  split at h
  · split at h
    · split at h <;> cases h <;> rfl
    · cases h; rfl
  · cases h

theorem FidMaster.updateFid_allocated {m m' : FidMaster κ} {r : UpdateResult}
    (h : m.updateFid r = some m') : m'.allocated = m.allocated := by
  unfold FidMaster.updateFid at h
  split at h
  · split at h <;> cases h <;> rfl
  · cases h

/-- Whether `GetFid` is going to be called. -/
def FidMaster.Exhausted (m : FidMaster κ) : Prop := m.pc = .unlocked ∧ m.fidBegin = m.fidEnd

instance [DecidableEq κ] (m : FidMaster κ) : Decidable m.Exhausted :=
  inferInstanceAs (Decidable (_ ∧ _))

/-- Everything handed out lies below the window, and the window below the row,
except while the row is about to be advanced. -/
structure FidMaster.Inv (m : FidMaster κ) : Prop where
  ordered : m.allocated.Pairwise fun later earlier => earlier.2 ≤ later.1
  below : ∀ r ∈ m.allocated, r.2 ≤ m.genFid
  window : ∃ n, m.fidEnd = m.fidBegin + n * allocateRange
  ahead : m.fidBegin < m.fidEnd → ∀ r ∈ m.allocated, r.2 ≤ m.fidBegin
  stored : (∀ k, m.pc ≠ .update k) → m.fidEnd ≤ m.genFid
  updating : ∀ k, m.pc = .update k → m.fidBegin = m.genFid ∧ m.fidEnd = m.genFid + maxRange
  taking : ∀ k, m.pc = .take k → m.fidBegin < m.fidEnd

/-- With an empty window only the row matters, and that may have been advanced. -/
theorem FidMaster.Inv.restart {m : FidMaster κ} (hi : m.Inv) {row : Nat}
    (hrow : m.genFid ≤ row) : ({ m with genFid := row } : FidMaster κ).restart.Inv where
  ordered := hi.ordered
  below r hr := Nat.le_trans (hi.below r hr) hrow
  window := ⟨0, by simp [FidMaster.restart]⟩
  ahead h := absurd h (Nat.lt_irrefl _)
  stored _ := Nat.zero_le _
  updating := nofun
  taking := nofun

theorem FidMaster.Inv.lock {m m' : FidMaster κ} {caller : κ} {ok : Bool} (hi : m.Inv)
    (hok : ok = false → m.Exhausted → m.fidEnd = 0) (h : m.lock caller ok = some m') :
    m'.Inv := by
  unfold FidMaster.lock at h
  cases hpc : m.pc with
  | unlocked =>
    rw [hpc] at h
    simp only at h
    have hstored : m.fidEnd ≤ m.genFid := hi.stored fun k => by rw [hpc]; nofun
    split at h
    next hempty =>
      split at h
      · cases h
        exact {
          ordered := hi.ordered
          below := hi.below
          window := ⟨100, rfl⟩
          ahead := fun _ => hi.below
          stored := fun hne => absurd rfl (hne caller)
          updating := fun _ _ => ⟨rfl, rfl⟩
          taking := nofun }
      next hfail =>
        -- the window was empty in the initial way, and stays so
        cases h
        have hend : m.fidEnd = 0 := hok (by simpa using hfail) ⟨hpc, hempty⟩
        rw [hend]
        exact hi.restart (Nat.le_refl _)
    next hsome =>
      cases h
      obtain ⟨n, hn⟩ := hi.window
      exact {
        ordered := hi.ordered
        below := hi.below
        window := hi.window
        ahead := hi.ahead
        stored := fun _ => hstored
        updating := nofun
        taking := fun _ _ => by change m.fidBegin < m.fidEnd; omega }
  | update k => rw [hpc] at h; cases h
  | take k => rw [hpc] at h; cases h

theorem FidMaster.Inv.updateFid {m m' : FidMaster κ} {r : UpdateResult} (hi : m.Inv)
    (h : m.updateFid r = some m') : m'.Inv := by
  unfold FidMaster.updateFid at h
  cases hpc : m.pc with
  | unlocked => rw [hpc] at h; cases h
  | take k => rw [hpc] at h; cases h
  | update k =>
    obtain ⟨hb, he⟩ := hi.updating k hpc
    have hadv : m.genFid ≤ m.fidEnd := by omega
    rw [hpc] at h
    cases r with
    | done =>
      cases h
      exact {
        ordered := hi.ordered
        below := fun r hr => Nat.le_trans (hi.below r hr) hadv
        window := hi.window
        ahead := fun _ r hr => hb.symm ▸ hi.below r hr
        stored := fun _ => Nat.le_refl _
        updating := nofun
        taking := fun _ _ => by change m.fidBegin < m.fidEnd; rw [hb, he]; simp [maxRange] }
    | failed written =>
      cases h
      cases written with
      | false => exact hi.restart (Nat.le_refl _)
      | true => exact hi.restart hadv

/-- The range that is handed out comes after all earlier ones. -/
theorem FidMaster.Inv.takeRange {m m' : FidMaster κ} {caller : κ} {range : Nat × Nat}
    (hi : m.Inv) (h : m.takeRange = some (caller, range, m')) :
    m'.Inv ∧ m'.allocated = range :: m.allocated ∧ range.2 = range.1 + allocateRange ∧
      ∀ r ∈ m.allocated, r.2 ≤ range.1 := by
  unfold FidMaster.takeRange at h
  cases hpc : m.pc with
  | unlocked => rw [hpc] at h; cases h
  | update k => rw [hpc] at h; cases h
  | take k =>
    rw [hpc] at h
    obtain ⟨rfl, rfl, rfl⟩ := Prod.mk.inj (Option.some.inj h) |>.imp_right Prod.mk.inj
    have hlt : m.fidBegin < m.fidEnd := hi.taking k hpc
    have hearlier := hi.ahead hlt
    have hstored : m.fidEnd ≤ m.genFid := hi.stored fun k' => by rw [hpc]; nofun
    -- a window that is not used up has a whole range left
    obtain ⟨n, hn⟩ := hi.window
    obtain ⟨n, rfl⟩ : ∃ n', n = n' + 1 := ⟨n - 1, by cases n <;> omega⟩
    have hrest : m.fidEnd = m.fidBegin + allocateRange + n * allocateRange := by
      rw [hn, Nat.succ_mul]; omega
    refine ⟨?_, rfl, rfl, hearlier⟩
    exact {
      ordered := List.pairwise_cons.mpr ⟨hearlier, hi.ordered⟩
      below := List.forall_mem_cons.mpr ⟨by change m.fidBegin + allocateRange ≤ m.genFid; omega,
        hi.below⟩
      window := ⟨n, hrest⟩
      ahead := fun _ => List.forall_mem_cons.mpr ⟨Nat.le_refl _, fun r hr =>
        Nat.le_trans (hearlier r hr) (Nat.le_add_right _ _)⟩
      stored := fun _ => hstored
      updating := nofun
      taking := nofun }

theorem FidMaster.Inv.disjoint {m : FidMaster κ} (hi : m.Inv) :
    m.allocated.Pairwise fun r q => Disjoint (Set.Ico r.1 r.2) (Set.Ico q.1 q.2) := by
  refine hi.ordered.imp fun {r q} hle => ?_
  exact Set.disjoint_left.mpr fun x hr hq =>
    Nat.lt_irrefl x (Nat.lt_of_lt_of_le hq.2 (Nat.le_trans hle hr.1))

end Speedy.Chunkmaster
