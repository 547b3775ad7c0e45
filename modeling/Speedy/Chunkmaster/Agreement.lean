import Speedy.Chunkmaster.ServerInfo

/-! # When the cache agrees with the table

Each operation leaves the status of a row and that of its entry apart for some
time. `MasterInv` says by how much, and which operation in progress is going to put
it right; it is kept by every calm step. -/
namespace Speedy.Chunkmaster
open Speedy.Lib

variable {κ : Type} {m m' : Master κ} {k key : κ} {i now : Nat} {t t' : MasterTask κ}

/-! ## What the parts of a step do to the two statuses -/

theorem entryStatus_swap (m : Master κ) (rows : κ → Option Row) (now : Nat) (k : κ) :
    (m.swap rows now).entryStatus k = (rows k).map Row.status := by
  simp only [Master.entryStatus, Master.swap]
  cases rows k with
  | none => rfl
  | some row => simp

section Parts
variable [DecidableEq κ]

theorem rowStatus_update (m : Master κ) (key : κ) (pre post : Status) (k : κ) :
    (m.update key pre post).rowStatus k =
      if k = key then (m.rowStatus k).map fun s => if s = pre then post else s
      else m.rowStatus k := by
  simp only [Master.rowStatus, Master.update]
  split
  · cases m.db k with
    | none => rfl
    | some row =>
      simp only [Option.map_some]
      split <;> rfl
  · rfl

theorem entryStatus_store (m : Master κ) (key : κ) (cs : Chunkserver) (k : κ) :
    (m.store key cs).entryStatus k = if k = key then some cs.status else m.entryStatus k := by
  simp only [Master.entryStatus, Master.store]
  split
  · rename_i hk
    simp [hk]
  · rename_i hk
    simp only [hk, false_and, if_false]

theorem entryStatus_updateChunkserverInfo (m : Master κ) (key : κ) (status : Status) (k : κ) :
    (m.updateChunkserverInfo key status).entryStatus k =
      if k = key then (m.entryStatus k).map fun _ => status else m.entryStatus k := by
  unfold Master.updateChunkserverInfo
  split
  · rename_i hnone
    split
    · rename_i hk
      simp [Master.entryStatus, hk, hnone]
    · rfl
  · rename_i p hp
    simp only [Master.entryStatus]
    split
    · rename_i hk
      subst hk
      simp [hp]
    · rename_i hk
      simp only [hk, false_and, if_false]

theorem rowStatus_updateChunkserverInfo (m : Master κ) (key : κ) (status : Status) (k : κ) :
    (m.updateChunkserverInfo key status).rowStatus k = m.rowStatus k := by
  unfold Master.updateChunkserverInfo
  split <;> rfl

end Parts

/-! ## The invariant -/

def Status.rank : Status → Nat
  | .init => 0
  | .rw => 1
  | .ro => 2
  | .err => 3

/-- A report that found a record of this status: the test for it is ahead, or its
`UPDATE` is, or both are passed. -/
inductive ReportAt (old : Status) : Status → ReportPc → Prop
  | ahead {c : Status} (ne : old ≠ .err) (le : c.rank ≤ old.rank) : ReportAt old .init (.check c)
  | inside (ne : old ≠ .err) : ReportAt old .init (.update old)
  | passed {c : Status} (ne : old ≠ .err) (lt : old.rank < c.rank) : ReportAt old .rw (.check c)
  | behind (ne : old ≠ .err) : ReportAt old .rw .store

theorem ReportAt.check_eq {old status : Status} (h : ReportAt old status (.check old)) :
    ReportAt old status (.update old) := by
  cases h with
  | ahead ne _ => exact .inside ne
  | passed _ lt => exact absurd lt (Nat.lt_irrefl _)

theorem ReportAt.check_ne {old status c : Status} (h : ReportAt old status (.check c))
    (hne : old ≠ c) : ReportAt old status (afterCheck c) := by
  cases h with
  | ahead ne le =>
    cases c with
    | init => exact .ahead ne (by cases old <;> simp_all [Status.rank])
    | rw => exact .ahead ne (by cases old <;> simp_all [Status.rank])
    | ro => cases old <;> simp_all [Status.rank]
    | err => cases old <;> simp_all [Status.rank]
  | passed ne lt =>
    cases c with
    | init => exact absurd lt (Nat.not_lt_zero _)
    | rw => exact .passed ne (Nat.lt_succ_of_lt lt)
    | ro => exact .behind ne
    | err => exact .behind ne

theorem ReportAt.updated {old status c : Status} (h : ReportAt old status (.update c)) :
    c = old ∧ ReportAt old .rw (afterCheck c) := by
  cases h with
  | inside ne =>
    refine ⟨rfl, ?_⟩
    cases old with
    | init => exact .passed ne (by decide)
    | rw => exact .passed ne (by decide)
    | ro => exact .behind ne
    | err => exact absurd rfl ne

/-- What an operation in progress relies on. -/
def TaskOk (m : Master κ) : MasterTask κ → Prop
  | .report key old status pc =>
    old < m.next ∧ m.entryStatus key ≠ none ∧ ReportAt (m.records key old).status status pc ∧
      (m.rowStatus key = some (m.records key old).status ∨ m.rowStatus key = some .rw) ∧
      (status = .rw → m.rowStatus key = some .rw)
  | .monitor todo updated =>
    (∀ k ∈ todo, m.rowStatus k = some .rw ∨ m.rowStatus k = some .ro) ∧
      (updated = true → ∀ k ∈ todo.head?, m.rowStatus k = some .ro)
  | .add key => m.rowStatus key = some .init
  | .load rows => ∀ k, (rows k).map Row.status = listed (m.rowStatus k)
  | .done => True

/-- The entry of a server agrees with its row, or a report or the monitor is going to
make it agree, or `addChunkserver` is going to make it. -/
structure KeyOk (m : Master κ) (k : κ) : Prop where
  bounded : ∀ p, m.serverInfo k = some p → p < m.next
  agrees : m.entryStatus k = listed (m.rowStatus k) ∨
    (m.entryStatus k ≠ none ∧ m.entryStatus k ≠ some .err ∧
      (m.rowStatus k = some .rw ∧ Updated m k ∨ m.rowStatus k = some .ro ∧ Demoting m k)) ∨
    (m.entryStatus k = none ∧ Registering m k)

structure MasterInv (m : Master κ) : Prop where
  tasks : ∀ t ∈ m.tasks, TaskOk m t
  keys : ∀ k, KeyOk m k
  apart : ∀ k, Reporting m k → ¬ Demoting m k

/-! ## Frames -/

/-- The servers whose rows an operation relies on. -/
def MasterTask.Concerns : MasterTask κ → κ → Prop
  | .report key _ _ _, k => k = key
  | .monitor todo _, k => k ∈ todo
  | .add key, k => k = key
  | .load _, _ => True
  | .done, _ => False

/-- No entry has gone and the records of reports have their status. -/
structure Frame (m m' : Master κ) : Prop where
  next_le : m.next ≤ m'.next
  entries : ∀ k, m.entryStatus k ≠ none → m'.entryStatus k ≠ none
  records : ∀ k old, Reporting m k → old < m.next →
    (m'.records k old).status = (m.records k old).status

theorem TaskOk.frame (h : TaskOk m t) (hf : Frame m m') (ht : t ∈ m.tasks)
    (hrow : ∀ k, t.Concerns k → m'.rowStatus k = m.rowStatus k) : TaskOk m' t := by
  cases t with
  | report key old status pc =>
    obtain ⟨h1, h2, h3, h4, h5⟩ := h
    have hrec := hf.records key old ⟨old, status, pc, ht⟩ h1
    refine ⟨Nat.lt_of_lt_of_le h1 hf.next_le, hf.entries key h2, ?_, ?_, ?_⟩
    · rw [hrec]; exact h3
    · rw [hrec, hrow key rfl]; exact h4
    · rw [hrow key rfl]; exact h5
  | monitor todo updated =>
    refine ⟨fun k hk => ?_, fun hu k hk => ?_⟩
    · rw [hrow k hk]; exact h.1 k hk
    · rw [hrow k (List.mem_of_mem_head? hk)]; exact h.2 hu k hk
  | add key => exact (hrow key rfl).trans h
  | load rows =>
    intro k
    rw [hrow k trivial]
    exact h k
  | done => trivial

/-- Only a reload is concerned with servers that have no row. -/
theorem TaskOk.row_ne_none (h : TaskOk m t) (hc : t.Concerns k) :
    m.rowStatus k ≠ none ∨ ∃ rows, t = .load rows := by
  cases t with
  | report key old status pc =>
    obtain rfl : k = key := hc
    refine .inl ?_
    rcases h.2.2.2.1 with h1 | h1 <;> rw [h1] <;> exact nofun
  | monitor todo updated =>
    refine .inl ?_
    rcases h.1 k hc with h1 | h1 <;> rw [h1] <;> exact nofun
  | add key =>
    obtain rfl : k = key := hc
    have hinit : m.rowStatus k = some .init := h
    rw [hinit]
    exact .inl nofun
  | load rows => exact .inr ⟨rows, rfl⟩
  | done => exact hc.elim

theorem KeyOk.frame (h : KeyOk m k) (hrow : m'.rowStatus k = m.rowStatus k)
    (hinfo : m'.serverInfo k = m.serverInfo k) (hentry : m'.entryStatus k = m.entryStatus k)
    (hnext : m.next ≤ m'.next) (hup : Updated m k → Updated m' k)
    (hde : Demoting m k → Demoting m' k) (hre : Registering m k → Registering m' k) :
    KeyOk m' k := by
  refine ⟨fun p hp => Nat.lt_of_lt_of_le (h.bounded p (hinfo ▸ hp)) hnext, ?_⟩
  rw [hrow, hentry]
  rcases h.agrees with h1 | ⟨h1, h2, h3⟩ | ⟨h1, h2⟩
  · exact .inl h1
  · refine .inr (.inl ⟨h1, h2, ?_⟩)
    rcases h3 with ⟨h3, h4⟩ | ⟨h3, h4⟩
    · exact .inl ⟨h3, hup h4⟩
    · exact .inr ⟨h3, hde h4⟩
  · exact .inr (.inr ⟨h1, hre h2⟩)

theorem mem_set_of_ne {α : Type} {l : List α} {i : Nat} {x y z : α} (hx : l[i]? = some x)
    (hz : z ∈ l) (hne : z ≠ x) : z ∈ l.set i y := by
  obtain ⟨j, hj⟩ := List.mem_iff_getElem?.mp hz
  have hij : i ≠ j := by
    rintro rfl
    rw [hx] at hj
    exact hne (Option.some.inj hj).symm
  exact List.mem_iff_getElem?.mpr ⟨j, by rw [List.getElem?_set_ne hij]; exact hj⟩

section Set
variable (ht : m.tasks[i]? = some t) (hset : m'.tasks = m.tasks.set i t')
include ht hset

theorem Updated.set (h : Updated m k)
    (hsame : ∀ old pc, t = .report k old .rw pc → Updated m' k) : Updated m' k := by
  obtain ⟨old, pc, hmem⟩ := h
  by_cases he : MasterTask.report k old .rw pc = t
  · exact hsame old pc he.symm
  · exact ⟨old, pc, hset ▸ mem_set_of_ne ht hmem he⟩

theorem Demoting.set (h : Demoting m k)
    (hsame : ∀ todo, t = .monitor (k :: todo) true → Demoting m' k) : Demoting m' k := by
  obtain ⟨todo, hmem⟩ := h
  by_cases he : MasterTask.monitor (k :: todo) true = t
  · exact hsame todo he.symm
  · exact ⟨todo, hset ▸ mem_set_of_ne ht hmem he⟩

theorem Registering.set (h : Registering m k) (hne : t ≠ .add k) : Registering m' k := by
  show MasterTask.add k ∈ m'.tasks
  rw [hset]
  exact mem_set_of_ne ht h hne.symm

theorem mem_new : t' ∈ m'.tasks := by
  rw [hset]
  exact List.mem_set (List.getElem?_eq_some_iff.mp ht).1 t'

end Set

/-- The tasks of a state in which one was replaced. -/
theorem MasterInv.of_set (hset : m'.tasks = m.tasks.set i t') (hcalm : Calm m m')
    (hold : ∀ u ∈ m.tasks, TaskOk m' u) (hnew : TaskOk m' t') (hkeys : ∀ k, KeyOk m' k) :
    MasterInv m' := by
  refine ⟨fun u hu => ?_, hkeys, hcalm.apart⟩
  rw [hset] at hu
  rcases List.mem_or_eq_of_mem_set hu with h | rfl
  · exact hold u h
  · exact hnew

/-- The tasks of a state in which one was started. -/
theorem MasterInv.of_spawn (hset : m'.tasks = m.tasks ++ [t']) (hcalm : Calm m m')
    (hold : ∀ u ∈ m.tasks, TaskOk m' u) (hnew : TaskOk m' t') (hkeys : ∀ k, KeyOk m' k) :
    MasterInv m' := by
  refine ⟨fun u hu => ?_, hkeys, hcalm.apart⟩
  rw [hset] at hu
  rcases List.mem_append.mp hu with h | h
  · exact hold u h
  · exact List.mem_singleton.mp h ▸ hnew

/-! ## Entries -/

theorem listed_some {s : Status} (h : s ≠ .err) : listed (some s) = some s := by
  cases s <;> first | rfl | exact absurd rfl h

theorem listed_ne_err (status : Option Status) : listed status ≠ some .err := by
  cases status with
  | none => exact nofun
  | some s => cases s <;> decide

theorem eq_of_listed {status : Option Status} {s : Status} (h : listed status = some s) :
    status = some s := by
  cases status with
  | none => cases h
  | some r => cases r <;> cases s <;> simp_all [listed, Option.filter]

theorem KeyOk.entry_ne_err (h : KeyOk m k) : m.entryStatus k ≠ some .err := by
  rcases h.agrees with h1 | ⟨_, h1, _⟩ | ⟨h1, _⟩
  · rw [h1]; exact listed_ne_err _
  · exact h1
  · rw [h1]; exact nofun

/-- A server whose row is RW or RO has an entry. -/
theorem MasterInv.entry_ne_none (h : MasterInv m) {s : Status} (hrow : m.rowStatus k = some s)
    (herr : s ≠ .err) (hinit : s ≠ .init) : m.entryStatus k ≠ none := by
  rcases (h.keys k).agrees with h1 | ⟨h1, _, _⟩ | ⟨_, h1⟩
  · rw [h1, hrow, listed_some herr]
    exact nofun
  · exact h1
  · have hadd : m.rowStatus k = some .init := h.tasks _ h1
    rw [hrow] at hadd
    exact absurd (Option.some.inj hadd) hinit

/-- What the row of a server with an entry can be. -/
theorem KeyOk.row_of_entry (h : KeyOk m k) {c : Status} (hentry : m.entryStatus k = some c) :
    m.rowStatus k = some c ∨ m.rowStatus k = some .rw ∨
      (m.rowStatus k = some .ro ∧ Demoting m k) := by
  rcases h.agrees with h1 | ⟨_, _, h2 | h2⟩ | ⟨h1, _⟩
  · exact .inl (eq_of_listed (h1.symm.trans hentry))
  · exact .inr (.inl h2.1)
  · exact .inr (.inr h2)
  · rw [hentry] at h1
    cases h1

/-! ## Starting an operation -/

section Spawn

theorem KeyOk.spawn (h : KeyOk m k) (t' : MasterTask κ) : KeyOk (m.spawn t') k :=
  h.frame rfl rfl rfl (Nat.le_refl _)
    (fun ⟨old, pc, hm⟩ => ⟨old, pc, List.mem_append_left _ hm⟩)
    (fun ⟨todo, hm⟩ => ⟨todo, List.mem_append_left _ hm⟩)
    (fun hm => List.mem_append_left _ hm)

theorem frame_spawn (m : Master κ) (t' : MasterTask κ) : Frame m (m.spawn t') :=
  ⟨Nat.le_refl _, fun _ h => h, fun _ _ _ _ => rfl⟩

theorem MasterInv.spawn (h : MasterInv m) (hcalm : Calm m (m.spawn t'))
    (hnew : TaskOk (m.spawn t') t') : MasterInv (m.spawn t') :=
  .of_spawn rfl hcalm (fun u hu => (h.tasks u hu).frame (frame_spawn m t') hu fun _ _ => rfl) hnew
    fun k => (h.keys k).spawn t'

theorem MasterInv.report (h : MasterInv m) {p : Nat} (hp : m.serverInfo key = some p)
    (hcalm : Calm m (m.spawn (.report key p .init (.check .init)))) :
    MasterInv (m.spawn (.report key p .init (.check .init))) := by
  have hkey := h.keys key
  have hentry : m.entryStatus key = some (m.records key p).status := by
    rw [Master.entryStatus, hp]
    rfl
  refine h.spawn hcalm ⟨hkey.bounded p hp, ?_, .ahead ?_ (Nat.zero_le _), ?_, nofun⟩
  · show m.entryStatus key ≠ none
    rw [hentry]
    exact nofun
  · intro he
    exact hkey.entry_ne_err (hentry.trans (congrArg some he))
  · show m.rowStatus key = _ ∨ m.rowStatus key = _
    rcases hkey.row_of_entry hentry with h1 | h1 | ⟨_, todo, hm⟩
    · exact .inl h1
    · exact .inr h1
    · -- the monitor is just demoting this server
      have hrep : Reporting (m.spawn (.report key p .init (.check .init))) key :=
        ⟨p, .init, .check .init, List.mem_append_right _ List.mem_cons_self⟩
      exact absurd ⟨todo, List.mem_append_left _ hm⟩ (hcalm.apart key hrep)

theorem MasterInv.tick [DecidableEq κ] (h : MasterInv m) {now timeout : Nat} {keys : List κ}
    (hcalm : Calm m (m.spawn (.monitor (keys.filter (m.expired now timeout)) false))) :
    MasterInv (m.spawn (.monitor (keys.filter (m.expired now timeout)) false)) := by
  refine h.spawn hcalm ⟨fun k hk => ?_, nofun⟩
  show m.rowStatus k = _ ∨ m.rowStatus k = _
  have hexp := (List.mem_filter.mp hk).2
  have hentry : m.entryStatus k = some .rw := by
    unfold Master.expired at hexp
    split at hexp
    · cases hexp
    · rename_i p hp
      rw [Bool.and_eq_true, decide_eq_true_iff] at hexp
      rw [Master.entryStatus, hp, Option.map_some, hexp.1]
  rcases (h.keys k).row_of_entry hentry with h1 | h1 | ⟨h1, _⟩
  · exact .inl h1
  · exact .inl h1
  · exact .inr h1

theorem MasterInv.load (h : MasterInv m)
    (hcalm : Calm m (m.spawn (.load fun k => (m.db k).filter fun row => row.status != .err))) :
    MasterInv (m.spawn (.load fun k => (m.db k).filter fun row => row.status != .err)) := by
  refine h.spawn hcalm fun k => ?_
  show ((m.db k).filter fun row => row.status != .err).map Row.status = listed (m.rowStatus k)
  unfold listed Master.rowStatus
  cases m.db k with
  | none => rfl
  | some row =>
    simp only [Option.filter, Option.map_some]
    split <;> rfl

/-- `INSERT`: nothing is known of a server without a row. -/
theorem MasterInv.insert [DecidableEq κ] (h : MasterInv m) (hrow : m.db key = none)
    (hm' : m' = ({ m with
      db := fun k => if k = key then some ⟨.init, 0⟩ else m.db k }.spawn (.add key)))
    (hcalm : Calm m m') : MasterInv m' := by
  have hnone : m.rowStatus key = none := by rw [Master.rowStatus, hrow]; rfl
  have hnew : m'.rowStatus key = some .init := by
    rw [hm']
    simp [Master.rowStatus, Master.spawn]
  have hother : ∀ k, k ≠ key → m'.rowStatus k = m.rowStatus k := by
    intro k hk
    rw [hm']
    simp [Master.rowStatus, Master.spawn, hk]
  have hentry : ∀ k, m'.entryStatus k = m.entryStatus k := by rw [hm']; exact fun _ => rfl
  have htasks : m'.tasks = m.tasks ++ [.add key] := by rw [hm']; rfl
  have hnext : m'.next = m.next := by rw [hm']; rfl
  have hframe : Frame m m' := by
    refine ⟨Nat.le_of_eq hnext.symm, fun k => ?_, fun k old _ _ => by rw [hm']; rfl⟩
    rw [hentry k]
    exact id
  refine .of_spawn htasks hcalm (fun u hu => ?_) hnew fun k => ?_
  · refine (h.tasks u hu).frame hframe hu fun k hc => ?_
    by_cases hk : k = key
    · rcases (h.tasks u hu).row_ne_none hc with h1 | ⟨rows, rfl⟩
      · exact absurd hnone (hk ▸ h1)
      · exact hcalm.reload ⟨rows, hu⟩ k
    · exact hother k hk
  · by_cases hk : k = key
    · subst hk
      have hno : m.entryStatus k = none := by
        rcases (h.keys k).agrees with h1 | ⟨_, _, h1 | h1⟩ | ⟨h1, _⟩
        · rw [h1, hnone]; rfl
        · rw [hnone] at h1; cases h1.1
        · rw [hnone] at h1; cases h1.1
        · exact h1
      refine ⟨fun p hp => ?_, .inr (.inr ⟨(hentry k).trans hno, ?_⟩)⟩
      · rw [hnext]
        refine (h.keys k).bounded p ?_
        rw [hm'] at hp
        exact hp
      · show MasterTask.add k ∈ m'.tasks
        rw [htasks]
        exact List.mem_append_right _ List.mem_cons_self
    · have hin : ∀ {u : MasterTask κ}, u ∈ m.tasks → u ∈ m'.tasks := by
        intro u hu
        rw [htasks]
        exact List.mem_append_left _ hu
      exact (h.keys k).frame (hother k hk) (by rw [hm']; rfl) (hentry k) (Nat.le_of_eq hnext.symm)
        (fun ⟨old, pc, hmem⟩ => ⟨old, pc, hin hmem⟩) (fun ⟨todo, hmem⟩ => ⟨todo, hin hmem⟩)
        (fun hmem => hin hmem)

end Spawn

/-! ## Going on with one -/

section Task

/-- The operation is on its own behalf: it is not what the entry of `k` waits for. -/
structure Aside (t : MasterTask κ) (k : κ) : Prop where
  updated : ∀ old pc, t ≠ .report k old .rw pc
  demoting : ∀ todo, t ≠ .monitor (k :: todo) true
  registering : t ≠ .add k

theorem aside_report {old : Nat} {status : Status} {pc : ReportPc} (hk : k ≠ key) :
    Aside (.report key old status pc) k :=
  ⟨fun _ _ he => hk (MasterTask.report.inj he).1.symm, nofun, nofun⟩

theorem aside_monitor {todo : List κ} {updated : Bool} (hk : k ≠ key) :
    Aside (.monitor (key :: todo) updated) k :=
  ⟨nofun, fun _ he => hk (List.cons.inj (MasterTask.monitor.inj he).1).1.symm, nofun⟩

theorem aside_add (hk : k ≠ key) : Aside (.add key) k :=
  ⟨nofun, nofun, fun he => hk (MasterTask.add.inj he).symm⟩

/-- A server that the step and its operation have nothing to do with. -/
theorem KeyOk.aside (h : KeyOk m k) (ht : m.tasks[i]? = some t)
    (hset : m'.tasks = m.tasks.set i t') (ha : Aside t k)
    (hrow : m'.rowStatus k = m.rowStatus k) (hinfo : m'.serverInfo k = m.serverInfo k)
    (hentry : m'.entryStatus k = m.entryStatus k) (hnext : m.next ≤ m'.next) : KeyOk m' k :=
  h.frame hrow hinfo hentry hnext
    (fun hup => hup.set ht hset fun old pc he => absurd he (ha.updated old pc))
    (fun hde => hde.set ht hset fun todo he => absurd he (ha.demoting todo))
    (fun hre => hre.set ht hset ha.registering)

theorem frame_setTask (m : Master κ) (i : Nat) (t' : MasterTask κ) : Frame m (m.setTask i t') :=
  ⟨Nat.le_refl _, fun _ h => h, fun _ _ _ _ => rfl⟩

/-- A test of the record that the report has found. -/
theorem MasterInv.check (h : MasterInv m) {old : Nat} {status s : Status} {pc : ReportPc}
    (ht : m.tasks[i]? = some (.report key old status (.check s)))
    (hpc : ReportAt (m.records key old).status status pc)
    (hcalm : Calm m (m.setTask i (.report key old status pc))) :
    MasterInv (m.setTask i (.report key old status pc)) := by
  have hmem := List.mem_of_getElem? ht
  obtain ⟨h1, h2, _, h4, h5⟩ := h.tasks _ hmem
  refine .of_set rfl hcalm
    (fun u hu => (h.tasks u hu).frame (frame_setTask m i _) hu fun _ _ => rfl)
    ⟨h1, h2, hpc, h4, h5⟩ fun k => ?_
  refine (h.keys k).frame rfl rfl rfl (Nat.le_refl _) (fun hup => hup.set ht rfl fun o c he => ?_)
    (fun hde => hde.set ht rfl nofun) (fun hre => hre.set ht rfl nofun)
  obtain ⟨rfl, rfl, rfl, rfl⟩ := MasterTask.report.inj he
  exact ⟨old, pc, mem_new ht rfl⟩

theorem MasterInv.monitorEnd (h : MasterInv m) {updated : Bool}
    (ht : m.tasks[i]? = some (.monitor [] updated)) (hcalm : Calm m (m.setTask i .done)) :
    MasterInv (m.setTask i .done) := by
  refine .of_set rfl hcalm
    (fun u hu => (h.tasks u hu).frame (frame_setTask m i _) hu fun _ _ => rfl) trivial fun k => ?_
  have haside : Aside (.monitor [] updated) k := by
    refine ⟨nofun, fun todo he => ?_, nofun⟩
    injection he with hnil
    cases hnil
  exact (h.keys k).aside ht rfl haside rfl rfl rfl (Nat.le_refl _)

/-- The new map of a reload. -/
theorem MasterInv.swap (h : MasterInv m) {rows : κ → Option Row}
    (ht : m.tasks[i]? = some (.load rows)) (hcalm : Calm m ((m.swap rows now).setTask i .done)) :
    MasterInv ((m.swap rows now).setTask i .done) := by
  have hrows : ∀ k, (rows k).map Row.status = listed (m.rowStatus k) :=
    h.tasks _ (List.mem_of_getElem? ht)
  have hentries : ∀ k, (m.swap rows now).entryStatus k = listed (m.rowStatus k) := by
    intro k
    rw [entryStatus_swap, hrows]
  have hframe : Frame m ((m.swap rows now).setTask i .done) := by
    refine ⟨Nat.le_succ _, fun k hk => ?_, fun k old _ hlt => ?_⟩
    · show (m.swap rows now).entryStatus k ≠ none
      rw [hentries]
      obtain ⟨c, hc⟩ := Option.ne_none_iff_exists'.mp hk
      have hne : c ≠ .err := by
        rintro rfl
        exact (h.keys k).entry_ne_err hc
      rcases (h.keys k).row_of_entry hc with h1 | h1 | ⟨h1, _⟩
      · rw [h1, listed_some hne]; exact nofun
      · rw [h1]; exact nofun
      · rw [h1]; exact nofun
    · simp only [Master.setTask, Master.swap]
      split
      · rfl
      · rw [if_neg (by omega)]
  have hset : ((m.swap rows now).setTask i .done).tasks = m.tasks.set i .done := rfl
  refine .of_set hset hcalm (fun u hu => (h.tasks u hu).frame hframe hu fun k _ => rfl) trivial
    fun k => ⟨fun p hp => ?_, .inl (hentries k)⟩
  obtain ⟨row, _, hp⟩ := Option.map_eq_some_iff.mp hp
  exact hp ▸ Nat.lt_succ_self _

variable [DecidableEq κ]

/-- A step that has changed at most the row of `key`, and the operation `i`. -/
structure Changed (m m' : Master κ) (i : Nat) (t' : MasterTask κ) (key : κ) : Prop where
  set : m'.tasks = m.tasks.set i t'
  frame : Frame m m'
  rows : ∀ k, k ≠ key → m'.rowStatus k = m.rowStatus k
  info : m'.serverInfo = m.serverInfo
  entries : ∀ k, m'.entryStatus k = m.entryStatus k

theorem changed_update (m : Master κ) (key : κ) (pre post : Status) (i : Nat) (t' : MasterTask κ) :
    Changed m ((m.update key pre post).setTask i t') i t' key := by
  refine ⟨rfl, ⟨Nat.le_refl _, fun _ h => h, fun _ _ _ _ => rfl⟩, fun k hk => ?_, rfl,
    fun _ => rfl⟩
  exact (rowStatus_update m key pre post k).trans (if_neg hk)

/-- Such a step keeps the invariant if it does so for the server, and for the reports
and monitors that are concerned with it. -/
theorem MasterInv.changed (h : MasterInv m) (ht : m.tasks[i]? = some t)
    (hch : Changed m m' i t' key) (hcalm : Calm m m') (hnew : TaskOk m' t')
    (hreport : ∀ old status pc, .report key old status pc ∈ m.tasks →
      TaskOk m' (.report key old status pc))
    (hmonitor : ∀ todo updated, .monitor todo updated ∈ m.tasks → TaskOk m' (.monitor todo updated))
    (haside : ∀ k, k ≠ key → Aside t k) (hkey : KeyOk m' key) : MasterInv m' := by
  refine .of_set hch.set hcalm (fun u hu => ?_) hnew fun k => ?_
  · have hok := h.tasks u hu
    cases u with
    | report key2 old status pc =>
      by_cases hk : key2 = key
      · subst hk
        exact hreport old status pc hu
      · refine hok.frame hch.frame hu fun k hc => hch.rows k ?_
        rw [show k = key2 from hc]
        exact hk
    | monitor todo updated => exact hmonitor todo updated hu
    | add key2 =>
      refine hok.frame hch.frame hu fun k hc => ?_
      rw [show k = key2 from hc]
      exact hcalm.register key2 hu
    | load rows => exact hok.frame hch.frame hu fun k _ => hcalm.reload ⟨rows, hu⟩ k
    | done => trivial
  · by_cases hk : k = key
    · exact hk ▸ hkey
    · exact (h.keys k).aside ht hch.set (haside k hk) (hch.rows k hk) (by rw [hch.info])
        (hch.entries k) hch.frame.next_le

/-- The `UPDATE` of a report. -/
theorem MasterInv.reportUpdate (h : MasterInv m) {old : Nat} {status s : Status}
    (ht : m.tasks[i]? = some (.report key old status (.update s)))
    (hm' : m' = (m.update key s .rw).setTask i (.report key old .rw (afterCheck s)))
    (hcalm : Calm m m') : MasterInv m' := by
  obtain ⟨h1, h2, h3, h4, _⟩ := h.tasks _ (List.mem_of_getElem? ht)
  obtain ⟨hs, hat⟩ := h3.updated
  have hch : Changed m m' i (.report key old .rw (afterCheck s)) key :=
    hm' ▸ changed_update m key s .rw i _
  have hrow : m'.rowStatus key = some .rw := by
    have hupd := rowStatus_update m key s .rw key
    rw [if_pos rfl] at hupd
    rw [hm']
    refine hupd.trans ?_
    rcases h4 with h4 | h4 <;> rw [h4, Option.map_some]
    · rw [if_pos hs.symm]
    · rw [ite_self]
  have hnew : TaskOk m' (.report key old .rw (afterCheck s)) := by
    refine ⟨Nat.lt_of_lt_of_le h1 hch.frame.next_le, hch.frame.entries key h2, ?_, .inr hrow,
      fun _ => hrow⟩
    rw [hm']
    exact hat
  have hup : Updated m' key := ⟨old, _, mem_new ht hch.set⟩
  refine h.changed ht hch hcalm hnew (fun old2 status2 pc2 hu => ?_) (fun todo updated hu => ?_)
    (fun k hk => aside_report hk) ?_
  · have hok := h.tasks _ hu
    refine ⟨Nat.lt_of_lt_of_le hok.1 hch.frame.next_le, hch.frame.entries key h2, ?_, .inr hrow,
      fun _ => hrow⟩
    rw [hch.frame.records key old2 ⟨old2, status2, pc2, hu⟩ hok.1]
    exact hok.2.2.1
  · have hok := h.tasks _ hu
    refine ⟨fun k hk => ?_, fun hupd k hk => ?_⟩
    · by_cases he : k = key
      · exact .inl (he ▸ hrow)
      · rw [hch.rows k he]
        exact hok.1 k hk
    · by_cases he : k = key
      · -- the monitor would be demoting a server that is reporting
        cases todo with
        | nil => cases hk
        | cons a rest =>
          obtain rfl : a = k := Option.some.inj hk
          subst he hupd
          have hde : Demoting m' a := by
            refine ⟨rest, ?_⟩
            rw [hch.set]
            exact mem_set_of_ne ht hu nofun
          obtain ⟨o, pc, hrep⟩ := hup
          exact absurd hde (hcalm.apart a ⟨o, .rw, pc, hrep⟩)
      · rw [hch.rows k he]
        exact hok.2 hupd k hk
  · refine ⟨?_, .inr (.inl ⟨?_, ?_, .inl ⟨hrow, hup⟩⟩)⟩
    · rw [hm']
      exact (h.keys key).bounded
    · rw [hch.entries]
      exact h2
    · rw [hch.entries]
      exact (h.keys key).entry_ne_err

/-- The `UPDATE` of the monitor. -/
theorem MasterInv.monitorUpdate (h : MasterInv m) {todo : List κ}
    (ht : m.tasks[i]? = some (.monitor (key :: todo) false))
    (hm' : m' = (m.update key .rw .ro).setTask i (.monitor (key :: todo) true))
    (hcalm : Calm m m') : MasterInv m' := by
  obtain ⟨htodo, _⟩ := h.tasks _ (List.mem_of_getElem? ht)
  have hbefore := htodo key List.mem_cons_self
  have hch : Changed m m' i (.monitor (key :: todo) true) key :=
    hm' ▸ changed_update m key .rw .ro i _
  have hrow : m'.rowStatus key = some .ro := by
    have hupd := rowStatus_update m key .rw .ro key
    rw [if_pos rfl] at hupd
    rw [hm']
    refine hupd.trans ?_
    rcases hbefore with h4 | h4 <;> rw [h4] <;> rfl
  have hentry : m.entryStatus key ≠ none := by
    rcases hbefore with h4 | h4
    · exact h.entry_ne_none h4 nofun nofun
    · exact h.entry_ne_none h4 nofun nofun
  have hmon : ∀ todo updated, TaskOk m (.monitor todo updated) →
      TaskOk m' (.monitor todo updated) := by
    intro todo updated hok
    refine ⟨fun k hk => ?_, fun hupd k hk => ?_⟩
    · by_cases he : k = key
      · exact .inr (he ▸ hrow)
      · rw [hch.rows k he]
        exact hok.1 k hk
    · by_cases he : k = key
      · exact he ▸ hrow
      · rw [hch.rows k he]
        exact hok.2 hupd k hk
  have hnew : TaskOk m' (.monitor (key :: todo) true) := by
    refine ⟨(hmon (key :: todo) false ⟨htodo, nofun⟩).1, fun _ k hk => ?_⟩
    obtain rfl : key = k := Option.some.inj hk
    exact hrow
  have hde : Demoting m' key := ⟨todo, mem_new ht hch.set⟩
  refine h.changed ht hch hcalm hnew (fun old status pc hu => ?_)
    (fun todo2 updated hu => hmon todo2 updated (h.tasks _ hu)) (fun k hk => aside_monitor hk) ?_
  · -- a report would be going on
    have hrep : Reporting m' key := by
      refine ⟨old, status, pc, ?_⟩
      rw [hch.set]
      exact mem_set_of_ne ht hu nofun
    exact absurd hde (hcalm.apart key hrep)
  · refine ⟨?_, .inr (.inl ⟨?_, ?_, .inr ⟨hrow, hde⟩⟩)⟩
    · rw [hm']
      exact (h.keys key).bounded
    · rw [hch.entries]
      exact hentry
    · rw [hch.entries]
      exact (h.keys key).entry_ne_err

/-- The monitor's change of the cache. -/
theorem MasterInv.monitorStore (h : MasterInv m) {todo : List κ}
    (ht : m.tasks[i]? = some (.monitor (key :: todo) true))
    (hm' : m' = (m.updateChunkserverInfo key .ro).setTask i (.monitor todo false))
    (hcalm : Calm m m') : MasterInv m' := by
  have hmem := List.mem_of_getElem? ht
  obtain ⟨htodo, hhead⟩ := h.tasks _ hmem
  have hrow : m.rowStatus key = some .ro := hhead rfl key rfl
  have hrows : ∀ k, m'.rowStatus k = m.rowStatus k := by
    intro k
    rw [hm']
    exact rowStatus_updateChunkserverInfo m key .ro k
  have hentries : ∀ k, m'.entryStatus k =
      if k = key then (m.entryStatus k).map fun _ => .ro else m.entryStatus k := by
    intro k
    rw [hm']
    exact entryStatus_updateChunkserverInfo m key .ro k
  have hset : m'.tasks = m.tasks.set i (.monitor todo false) := by
    rw [hm', Master.setTask, Master.updateChunkserverInfo]
    split <;> rfl
  have hnext : m'.next = m.next := by
    rw [hm', Master.setTask, Master.updateChunkserverInfo]
    split <;> rfl
  have hinfo : m'.serverInfo = m.serverInfo := by
    rw [hm', Master.setTask, Master.updateChunkserverInfo]
    split <;> rfl
  have hframe : Frame m m' := by
    refine ⟨Nat.le_of_eq hnext.symm, fun k hk => ?_, fun k old hrep _ => ?_⟩
    · rw [hentries]
      split
      · simpa using hk
      · exact hk
    · -- no report is going on for the server that is being demoted
      have hne : k ≠ key := by
        rintro rfl
        exact h.apart k hrep ⟨todo, hmem⟩
      rw [hm', Master.setTask, Master.updateChunkserverInfo]
      split
      · rfl
      · simp only [hne, false_and, if_false]
  refine .of_set hset hcalm
    (fun u hu => (h.tasks u hu).frame hframe hu fun k _ => hrows k) ⟨fun k hk => ?_, nofun⟩
    fun k => ?_
  · rw [hrows]
    exact htodo k (List.mem_cons_of_mem _ hk)
  · by_cases hk : k = key
    · subst hk
      refine ⟨?_, .inl ?_⟩
      · rw [hinfo, hnext]
        exact (h.keys k).bounded
      · obtain ⟨c, hc⟩ := Option.ne_none_iff_exists'.mp (h.entry_ne_none hrow nofun nofun)
        rw [hentries, if_pos rfl, hrows, hrow, hc]
        rfl
    · exact (h.keys k).aside ht hset (aside_monitor hk) (hrows k) (by rw [hinfo])
        (by rw [hentries, if_neg hk]) hframe.next_le

/-- A report or `addChunkserver` puts a record with the status of the row into the
cache. -/
theorem MasterInv.store (h : MasterInv m) {s : Status} {cs : Chunkserver}
    (ht : m.tasks[i]? = some t) (hrow : m.rowStatus key = some s) (herr : s ≠ .err)
    (hcs : cs.status = s) (haside : ∀ k, k ≠ key → Aside t k)
    (hcalm : Calm m ((m.store key cs).setTask i .done)) :
    MasterInv ((m.store key cs).setTask i .done) := by
  have hentries := entryStatus_store m key cs
  have hframe : Frame m ((m.store key cs).setTask i .done) := by
    refine ⟨Nat.le_succ _, fun k hk => ?_, fun k old _ hlt => ?_⟩
    · show (m.store key cs).entryStatus k ≠ none
      rw [hentries]
      split
      · exact nofun
      · exact hk
    · show (if k = key ∧ old = m.next then cs else m.records k old).status = _
      rw [if_neg (by omega)]
  have hset : ((m.store key cs).setTask i .done).tasks = m.tasks.set i .done := rfl
  refine .of_set hset hcalm
    (fun u hu => (h.tasks u hu).frame hframe hu fun k _ => rfl) trivial fun k => ?_
  by_cases hk : k = key
  · subst hk
    refine ⟨fun p hp => ?_, .inl ?_⟩
    · have hp' : (if k = k then some m.next else m.serverInfo k) = some p := hp
      rw [if_pos rfl] at hp'
      exact Option.some.inj hp' ▸ Nat.lt_succ_self _
    · show (m.store k cs).entryStatus k = listed (m.rowStatus k)
      rw [hentries, if_pos rfl, hrow, listed_some herr, hcs]
  · exact (h.keys k).aside ht rfl (haside k hk) rfl (if_neg hk)
      ((hentries k).trans (if_neg hk)) hframe.next_le

end Task

/-! ## Runs -/

theorem Master.Fresh.inv (h : m.Fresh) : MasterInv m := by
  obtain ⟨hagrees, htasks, hbounded⟩ := h
  refine ⟨?_, fun k => ⟨hbounded k, .inl (hagrees k)⟩, ?_⟩
  · rw [htasks]
    exact nofun
  · rintro k ⟨old, status, pc, hm⟩
    rw [htasks] at hm
    cases hm

section Runs
variable [DecidableEq κ]

theorem MasterInv.taskStep (h : MasterInv m) (ht : m.tasks[i]? = some t)
    (hs : m.taskStep i now t = some m') (hcalm : Calm m m') : MasterInv m' := by
  have hok := h.tasks _ (List.mem_of_getElem? ht)
  cases t with
  | report key old status pc =>
    cases pc with
    | check s =>
      simp only [Master.taskStep] at hs
      split at hs
      · rename_i heq
        obtain rfl := Option.some.inj hs
        have hat := hok.2.2.1
        rw [heq] at hat
        exact h.check ht (by rw [heq]; exact hat.check_eq) hcalm
      · rename_i hne
        obtain rfl := Option.some.inj hs
        exact h.check ht (hok.2.2.1.check_ne hne) hcalm
    | update s => exact h.reportUpdate ht (Option.some.inj hs).symm hcalm
    | store =>
      obtain ⟨_, hentry, hat, _, hrw⟩ := hok
      have hstatus : status = .rw := by cases hat; rfl
      simp only [Master.taskStep] at hs
      split at hs
      · rename_i hnone
        exact absurd (by rw [Master.entryStatus, hnone]; rfl) hentry
      · obtain rfl := Option.some.inj hs
        exact h.store ht (hrw hstatus) nofun hstatus (fun k hk => aside_report hk) hcalm
  | monitor todo updated =>
    cases todo with
    | nil =>
      obtain rfl := Option.some.inj hs
      exact h.monitorEnd ht hcalm
    | cons key todo =>
      cases updated with
      | false => exact h.monitorUpdate ht (Option.some.inj hs).symm hcalm
      | true => exact h.monitorStore ht (Option.some.inj hs).symm hcalm
  | add key =>
    obtain rfl := Option.some.inj hs
    exact h.store ht hok nofun rfl (fun k hk => aside_add hk) hcalm
  | load rows =>
    obtain rfl := Option.some.inj hs
    exact h.swap ht hcalm
  | done => cases hs

theorem MasterInv.step (h : MasterInv m) {move : MasterMove κ} (hs : m.step move = some m')
    (hcalm : Calm m m') : MasterInv m' := by
  cases move with
  | report key =>
    simp only [Master.step] at hs
    split at hs
    · cases hs
    · rename_i p hp
      obtain rfl := Option.some.inj hs
      exact h.report hp hcalm
  | tick now timeout keys =>
    obtain rfl := Option.some.inj hs
    exact h.tick hcalm
  | add key =>
    simp only [Master.step] at hs
    split at hs
    · cases hs
    · rename_i hnone
      exact h.insert hnone (Option.some.inj hs).symm hcalm
  | load =>
    obtain rfl := Option.some.inj hs
    exact h.load hcalm
  | task i now =>
    simp only [Master.step] at hs
    split at hs
    · cases hs
    · rename_i t ht
      exact h.taskStep ht hs hcalm

theorem MasterRun.inv (h : MasterRun Calm m) : MasterInv m :=
  Reach.invariant (fun _ hf => hf.inv) (fun _ _ _ _ hi hs => hi.step hs.1 hs.2) h

/-- In a run of calm steps the cache agrees with the table whenever no operation is in
progress. -/
theorem cache_agrees_when_calm (h : MasterRun Calm m) (hidle : m.Idle) : m.Agrees := by
  intro k
  rcases (h.inv.keys k).agrees with h1 | ⟨_, _, ⟨_, old, pc, hm⟩ | ⟨_, todo, hm⟩⟩ | ⟨_, hm⟩
  · exact h1
  · cases hidle _ hm
  · cases hidle _ hm
  · cases hidle _ hm

end Runs

/-! ## A tick, and a tick during a report -/

/-- One server, RW in the table and in the cache, that has not reported since time 0. -/
def oneServer : Master Nat where
  db := fun k => if k = 7 then some ⟨.rw, 0⟩ else none
  serverInfo := fun k => if k = 7 then some 0 else none
  records := fun _ _ => ⟨.rw, 0, 0⟩
  next := 1
  tasks := []

theorem oneServer_fresh : oneServer.Fresh := by
  refine ⟨fun k => ?_, rfl, fun k p hp => ?_⟩
  · simp only [Master.entryStatus, Master.rowStatus, oneServer]
    split <;> rfl
  · simp only [oneServer] at hp ⊢
    split at hp
    · exact Option.some.inj hp ▸ Nat.zero_lt_one
    · cases hp

def MasterTask.isReport : MasterTask κ → Bool
  | .report .. => true
  | _ => false

def MasterTask.isMonitor : MasterTask κ → Bool
  | .monitor .. => true
  | _ => false

/-- `addChunkserver` or a reload -/
def MasterTask.isOther : MasterTask κ → Bool
  | .add _ | .load _ => true
  | _ => false

/-- Reports and ticks that do not overlap are calm. -/
theorem calm_of_apart {m m' : Master κ}
    (h : (∀ t ∈ m'.tasks, t.isReport = false) ∨ ∀ t ∈ m'.tasks, t.isMonitor = false)
    (hm : ∀ t ∈ m.tasks, t.isOther = false) : Calm m m' := by
  refine ⟨?_, ?_, ?_⟩
  · rintro k ⟨old, status, pc, hr⟩ ⟨todo, hd⟩
    rcases h with h | h
    · cases h _ hr
    · cases h _ hd
  · rintro ⟨rows, hl⟩
    cases hm _ hl
  · intro k hr
    cases hm _ hr

/-- A step at which `calm_of_apart` applies. -/
def Master.stepApart [DecidableEq κ] (m : Master κ) (e : MasterMove κ) : Option (Master κ) :=
  (m.step e).filter fun m' => (m'.tasks.all (!·.isReport) || m'.tasks.all (!·.isMonitor)) &&
    m.tasks.all (!·.isOther)

/-- A tick that demotes the server, its next report, and a reload. -/
def demotedAndBack : List (MasterMove Nat) :=
  [.tick 100 60 [7], .task 0 100, .task 0 100, .task 0 100, .report 7, .task 1 200, .task 1 200,
    .task 1 200, .task 1 200, .task 1 200, .load]

theorem cache_agrees_after_reload : ∃ m,
    play Master.step (demotedAndBack ++ [.task 2 300]) oneServer = some m ∧
      m.rowStatus 7 = some .rw ∧ m.Agrees := by
  obtain ⟨m, hm⟩ : ∃ m, play Master.stepApart demotedAndBack oneServer = some m := ⟨_, rfl⟩
  have hrun : MasterRun Calm m := by
    refine Reach.play (fun m e m' hs => ?_) demotedAndBack (.init oneServer_fresh) hm
    obtain ⟨hs, hcalm⟩ := Option.filter_eq_some_iff.mp hs
    simp only [Bool.and_eq_true, Bool.or_eq_true, List.all_eq_true, Bool.not_eq_true'] at hcalm
    exact ⟨hs, calm_of_apart hcalm.1 hcalm.2⟩
  obtain rfl := Option.some.inj hm
  have hdone : ∀ t : MasterTask Nat, t ∈ [MasterTask.done, .done, .done] → t = .done := by
    simp
  refine ⟨_, rfl, rfl, cache_agrees_when_calm (.next hrun (e := .task 2 300)
    ⟨rfl, ⟨?_, fun _ _ => rfl, fun _ _ => rfl⟩⟩) hdone⟩
  rintro k ⟨old, status, pc, hr⟩
  cases hdone _ hr

/-- A report has made its `UPDATE`; the monitor, for which the server has been silent
for too long, demotes it; then the report stores its record. -/
def lateReport : List (MasterMove Nat) :=
  [.report 7, .task 0 100, .task 0 100, .task 0 100, .task 0 100, .tick 100 60 [7], .task 1 100,
    .task 1 100, .task 1 100, .task 0 100]

/-- The cache says RW and the table RO, with nothing going on. -/
theorem late_report_undoes_tick :
    ∃ m, MasterRun (fun _ _ => True) m ∧ m.Idle ∧
      m.entryStatus 7 = some .rw ∧ m.rowStatus 7 = some .ro := by
  obtain ⟨m, hm⟩ : ∃ m, play Master.step lateReport oneServer = some m := ⟨_, rfl⟩
  have hrun : MasterRun (fun _ _ => True) m :=
    Reach.play (fun _ _ _ hs => ⟨hs, trivial⟩) lateReport (.init oneServer_fresh) hm
  obtain rfl := Option.some.inj hm
  refine ⟨_, hrun, ?_, rfl, rfl⟩
  intro t ht
  rcases List.mem_cons.mp ht with rfl | ht
  · rfl
  · exact List.mem_singleton.mp ht

end Speedy.Chunkmaster
