import Speedy.Chunkmaster.Handlers
import Speedy.Lib.Run

/-! # Global statuses between two loads

A group that is being transferred has a `global_status` in its rows, which
`LoadChunkserverInfo` copies into the cache. What an operation does to the copies is
compared here with what was loaded: a report puts a record without a global status in the
place of the one that was loaded, and a batch takes the global status of its JSON. All
other operations keep the copies. -/
namespace Speedy.Chunkmaster
open Speedy.Lib

/-! ## What was loaded -/

/-- The `global_status` of the row of a key; with several rows it is that of the last one. -/
def rowGlobalStatus (list : List MetadataChunkserver) (key : String) : Int :=
  ((list.filter fun row => row.status ≠ errStatus ∧ row.key = key).getLast?.map
    MetadataChunkserver.globalStatus).getD 0

/-- The keys that the loop of `batchAddChunkserver` adds. -/
def addedKeys (items : List ServerTables.BatchItem) : List String :=
  (items.takeWhile ServerTables.BatchItem.inserted).map fun item => item.chunkserver.key

/-- The global statuses of the last load, and 0 for the servers that were added since,
behind an operation. -/
def MasterOp.loadedAfter (s : ServerTables) (loaded : String → Int) : MasterOp → String → Int
  | .load read _ => match s.listChunkserver read with
    | none => loaded
    | some list => rowGlobalStatus list
  | .init body inserted _ => match body.bind ServerTables.initRecord with
    | none => loaded
    | some c => if inserted then Function.update loaded c.key 0 else loaded
  | .batchInit (some items) => (addedKeys items).foldl (fun g key => Function.update g key 0) loaded
  | _ => loaded

/-- The tables, and what was loaded. -/
structure Watched where
  tables : ServerTables
  loaded : String → Int

def Watched.step (w : Watched) (op : MasterOp) : Watched :=
  ⟨w.tables.step op, op.loadedAfter w.tables w.loaded⟩

/-- The cache has the global statuses that were loaded. -/
def Watched.Tracks (w : Watched) : Prop :=
  w.tables.serverInfo.Agrees MetadataChunkserver.globalStatus w.loaded

/-! ## The operations that lose one -/

/-- `reportChunkserverInfo` comes to its end with this record. -/
def Reported (old : MetadataChunkserver) (updated : Bool) : Prop :=
  updated = true ∨ old.status ≠ initStatus ∧ old.status ≠ rwStatus ∧ old.status ≠ roStatus

/-- A report takes the place of this record. -/
def ServerTables.Replaces (s : ServerTables) (body : Option JsonMap) (updated : Bool)
    (old : MetadataChunkserver) : Prop :=
  ∃ jsonMap chunkserver, body = some jsonMap ∧ genChunkserver jsonMap = .ok chunkserver ∧
    s.serverInfo.entry chunkserver.key = some old ∧ Reported old updated

theorem ServerTables.Replaces.unique {s : ServerTables} {body : Option JsonMap} {updated : Bool}
    {old old' : MetadataChunkserver} (h : s.Replaces body updated old)
    (h' : s.Replaces body updated old') : old = old' := by
  obtain ⟨jsonMap, c, hbody, hgen, hentry, -⟩ := h
  obtain ⟨_, _, hbody', hgen', hentry', -⟩ := h'
  cases hbody.symm.trans hbody'
  cases hgen.symm.trans hgen'
  exact Option.some.inj (hentry.symm.trans hentry')

/-- The item that the loop of `batchAddChunkserver` has come to when it ends. -/
def lastItem : List ServerTables.BatchItem → Option ServerTables.BatchItem
  | [] => none
  | item :: items => if item.inserted then (lastItem items).or (some item) else some item

/-- A report about a server that was loaded with a global status, or a batch that adds a
server and ends with one that has a global status in the JSON. -/
def MasterOp.Loses (s : ServerTables) : MasterOp → Prop
  | .report body updated _ => ∃ old, s.Replaces body updated old ∧ old.globalStatus ≠ 0
  | .batchInit (some items) => addedKeys items ≠ [] ∧
    ∃ item, lastItem items = some item ∧ item.chunkserver.globalStatus ≠ 0
  | _ => False

/-! ## Loading -/

section Load
variable {s : ServerTables} {list : List MetadataChunkserver} {now : Int}

theorem entry_load (m : PtrMap String MetadataChunkserver) (key : String) :
    (list.foldl (ServerTables.loadServer now) m.clear).entry key =
      (list.filter fun row => row.status ≠ errStatus ∧ row.key = key).getLast?.map
        fun row => { row with updateTime := now } := by
  -- the last row of a key is the one that stays, so the induction adds rows at the end
  induction list using List.reverseRecOn with
  | nil => rfl
  | append_singleton list row ih =>
    rw [List.foldl_append, List.foldl_cons, List.foldl_nil, List.filter_append,
      ServerTables.loadServer]
    by_cases herr : row.status = errStatus
    · rw [if_pos herr, ih, List.filter_cons_of_neg (by simp [herr]), List.filter_nil,
        List.append_nil]
    · rw [if_neg herr, PtrMap.entry_store]
      by_cases hkey : row.key = key
      · rw [if_pos hkey.symm, List.filter_cons_of_pos (by simp [herr, hkey]), List.filter_nil,
          List.getLast?_concat, Option.map_some]
      · rw [if_neg (Ne.symm hkey), ih, List.filter_cons_of_neg (by simp [hkey]),
          List.filter_nil, List.append_nil]

theorem agrees_load (m : PtrMap String MetadataChunkserver) :
    (list.foldl (ServerTables.loadServer now) m.clear).Agrees
      MetadataChunkserver.globalStatus (rowGlobalStatus list) := by
  intro key c hc
  rw [entry_load] at hc
  obtain ⟨row, hrow, rfl⟩ := Option.map_eq_some_iff.mp hc
  rw [rowGlobalStatus, hrow]
  rfl

end Load

/-! ## One step -/

section Step
variable {s : ServerTables} {g : String → Int}

/-- The operations that only write a status in place. -/
theorem agrees_updateChunkserverInfo {key : String} {status : Int} :
    (s.updateChunkserverInfo key status).serverInfo.Agrees MetadataChunkserver.globalStatus g ↔
      s.serverInfo.Agrees MetadataChunkserver.globalStatus g := by
  unfold ServerTables.updateChunkserverInfo
  split
  · exact Iff.rfl
  · exact PtrMap.agrees_write rfl

theorem agrees_monitorServer {updated : String → Bool} {key : String} :
    (ServerTables.monitorServer updated s key).serverInfo.Agrees
      MetadataChunkserver.globalStatus g ↔
      s.serverInfo.Agrees MetadataChunkserver.globalStatus g := by
  unfold ServerTables.monitorServer
  split
  · exact Iff.rfl
  · split
    · exact agrees_updateChunkserverInfo
    · exact Iff.rfl

theorem agrees_chunkserverMonitor {timeoutSecond now : Int} {visits : List String}
    {updated : String → Bool} :
    (s.chunkserverMonitor timeoutSecond now visits updated).serverInfo.Agrees
      MetadataChunkserver.globalStatus g ↔
      s.serverInfo.Agrees MetadataChunkserver.globalStatus g := by
  have hfold : ∀ (keys : List String) (s : ServerTables),
      (keys.foldl (ServerTables.monitorServer updated) s).serverInfo.Agrees
        MetadataChunkserver.globalStatus g ↔
        s.serverInfo.Agrees MetadataChunkserver.globalStatus g := by
    intro keys
    induction keys with
    | nil => exact fun _ => Iff.rfl
    | cons key keys ih => exact fun s => (ih _).trans agrees_monitorServer
  exact hfold _ s

theorem reportChunkserverInfo_none (key : String) (c : MetadataChunkserver) (now : Int)
    {old : MetadataChunkserver} {updated : Bool} (h : ¬ Reported old updated) :
    s.reportChunkserverInfo key c old updated now = none := by
  obtain ⟨hupdated, hstatus⟩ := not_or.mp h
  have hone : old.status = initStatus ∨ old.status = rwStatus ∨ old.status = roStatus := by
    by_contra hno
    exact hstatus ⟨fun h => hno (.inl h), fun h => hno (.inr (.inl h)),
      fun h => hno (.inr (.inr h))⟩
  unfold ServerTables.reportChunkserverInfo
  rw [if_pos hone, if_neg hupdated]

theorem reportChunkserverInfo_some (key : String) (c : MetadataChunkserver) (now : Int)
    {old : MetadataChunkserver} {updated : Bool} (h : Reported old updated) : ∃ s' c',
    s.reportChunkserverInfo key c old updated now = some s' ∧
      s'.serverInfo = s.serverInfo.store key c' ∧ c'.globalStatus = c.globalStatus := by
  unfold ServerTables.reportChunkserverInfo
  split
  · rename_i hone
    rcases h with hupdated | ⟨hinit, hrw, hro⟩
    · rw [if_pos hupdated]
      exact ⟨_, _, rfl, rfl, rfl⟩
    · rcases hone with h | h | h
      · exact absurd h hinit
      · exact absurd h hrw
      · exact absurd h hro
  · exact ⟨_, _, rfl, rfl, rfl⟩

theorem report_unchanged {body : Option JsonMap} {updated : Bool}
    (hno : ∀ old, ¬ s.Replaces body updated old) (now : Int) :
    (s.reportChunkserverInfoHandler body updated now).1 = s := by
  unfold ServerTables.reportChunkserverInfoHandler
  cases body with
  | none => rfl
  | some jsonMap =>
    cases hgen : genChunkserver jsonMap with
    | error e => simp only [hgen]
    | ok c =>
      cases hentry : s.serverInfo.entry c.key with
      | none => simp only [hgen, hentry]
      | some old =>
        have hrep : ¬ Reported old updated :=
          fun h => hno old ⟨jsonMap, c, rfl, hgen, hentry, h⟩
        simp only [hgen, hentry, reportChunkserverInfo_none c.key c now hrep]

/-- The record of a report has no global status. -/
theorem report_stored {body : Option JsonMap} {updated : Bool} {old : MetadataChunkserver}
    (h : s.Replaces body updated old) (now : Int) : ∃ key c, s.serverInfo.entry key = some old ∧
    c.globalStatus = 0 ∧
    (s.reportChunkserverInfoHandler body updated now).1.serverInfo = s.serverInfo.store key c := by
  obtain ⟨jsonMap, c, rfl, hgen, hentry, hrep⟩ := h
  obtain ⟨s', c', hs', hinfo, hglobal⟩ :=
    reportChunkserverInfo_some (s := s) c.key c now hrep
  refine ⟨c.key, c', hentry, hglobal.trans (genChunkserver_statuses hgen).2, ?_⟩
  unfold ServerTables.reportChunkserverInfoHandler
  simp only [hgen, hentry, hs', hinfo]

theorem agrees_report (h : s.serverInfo.Agrees MetadataChunkserver.globalStatus g)
    (body : Option JsonMap) (updated : Bool) (now : Int) :
    (s.reportChunkserverInfoHandler body updated now).1.serverInfo.Agrees
      MetadataChunkserver.globalStatus g ↔
      ∀ old, s.Replaces body updated old → old.globalStatus = 0 := by
  by_cases hrep : ∃ old, s.Replaces body updated old
  · obtain ⟨old, hold⟩ := hrep
    obtain ⟨key, c, hentry, hzero, hinfo⟩ := report_stored hold now
    rw [hinfo, PtrMap.agrees_replace h, hzero, ← h key old hentry]
    constructor
    · intro heq old' hold'
      rw [hold'.unique hold, ← heq]
    · intro hall
      exact (hall old hold).symm
  · have hno : ∀ old, ¬ s.Replaces body updated old := fun old hold => hrep ⟨old, hold⟩
    rw [report_unchanged hno]
    exact iff_of_true h fun old hold => absurd hold (hno old)

/-! ## Batches -/

theorem batchAddLoop_stop (p : Nat) (c : MetadataChunkserver) (now : Int)
    (items : List ServerTables.BatchItem) :
    (ServerTables.batchAddLoop p s (⟨c, false, now⟩ :: items)).1.serverInfo =
      (s.serverInfo.write p c).write p (ServerTables.reset c) := by
  simp only [ServerTables.batchAddLoop, ServerTables.addChunkserver, PtrMap.record_write]
  rfl

theorem batchAddLoop_next (p : Nat) (c : MetadataChunkserver) (now : Int)
    (items : List ServerTables.BatchItem) : ∃ s' : ServerTables,
    s.batchAddLoop p (⟨c, true, now⟩ :: items) = s'.batchAddLoop p items ∧
    s'.serverInfo = ((s.serverInfo.write p c).write p
      { ServerTables.reset c with updateTime := now }).point c.key p := by
  simp only [ServerTables.batchAddLoop, ServerTables.addChunkserver, PtrMap.record_write]
  exact ⟨_, rfl, rfl⟩

theorem batchAddLoop_shares (p : Nat) (items : List ServerTables.BatchItem)
    (h : s.serverInfo.Shares MetadataChunkserver.globalStatus g 0 p) :
    (ServerTables.batchAddLoop p s items).1.serverInfo.Shares MetadataChunkserver.globalStatus
      ((addedKeys items).foldl (fun g key => Function.update g key 0) g) 0 p := by
  induction items generalizing s g with
  | nil => exact h
  | cons item items ih =>
    obtain ⟨c, inserted, now⟩ := item
    cases inserted with
    | false =>
      rw [batchAddLoop_stop]
      exact (h.write c).write _
    | true =>
      obtain ⟨s', heq, hinfo⟩ := batchAddLoop_next (s := s) p c now items
      have hstored :=
        ((h.write c).write { ServerTables.reset c with updateTime := now }).point c.key
      rw [← hinfo] at hstored
      rw [heq]
      exact ih hstored

theorem batchAddLoop_held (p : Nat) (items : List ServerTables.BatchItem) :
    (ServerTables.batchAddLoop p s items).1.serverInfo.Held p ↔
      s.serverInfo.Held p ∨ addedKeys items ≠ [] := by
  induction items generalizing s with
  | nil => exact ⟨.inl, fun h => h.resolve_right fun hne => hne rfl⟩
  | cons item items ih =>
    obtain ⟨c, inserted, now⟩ := item
    cases inserted with
    | false =>
      rw [batchAddLoop_stop, PtrMap.held_write, PtrMap.held_write]
      exact ⟨.inl, fun h => h.resolve_right fun hne => hne rfl⟩
    | true =>
      obtain ⟨s', heq, hinfo⟩ := batchAddLoop_next (s := s) p c now items
      rw [heq, ih, hinfo]
      exact iff_of_true (.inl PtrMap.held_point) (.inr (List.cons_ne_nil _ _))

theorem batchAddLoop_record (p : Nat) (items : List ServerTables.BatchItem) :
    ((ServerTables.batchAddLoop p s items).1.serverInfo.record p).globalStatus =
      ((lastItem items).map fun item => item.chunkserver.globalStatus).getD
        (s.serverInfo.record p).globalStatus := by
  induction items generalizing s with
  | nil => rfl
  | cons item items ih =>
    obtain ⟨c, inserted, now⟩ := item
    cases inserted with
    | false =>
      rw [batchAddLoop_stop, PtrMap.record_write]
      rfl
    | true =>
      obtain ⟨s', heq, hinfo⟩ := batchAddLoop_next (s := s) p c now items
      rw [heq, ih, hinfo, PtrMap.record_point, PtrMap.record_write]
      show _ = (((lastItem items).or (some _)).map _).getD _
      cases lastItem items <;> rfl

/-- All the servers of a batch get the global status of its last one. -/
theorem agrees_batch (h : s.serverInfo.Agrees MetadataChunkserver.globalStatus g)
    (items : List ServerTables.BatchItem) :
    (s.batchAddChunkserver items).1.serverInfo.Agrees MetadataChunkserver.globalStatus
      ((addedKeys items).foldl (fun g key => Function.update g key 0) g) ↔
      (addedKeys items ≠ [] → ∀ item, lastItem items = some item →
        item.chunkserver.globalStatus = 0) := by
  unfold ServerTables.batchAddChunkserver
  rw [(batchAddLoop_shares _ items h.shares).agrees_iff, batchAddLoop_held, batchAddLoop_record]
  have hnone : ¬ (s.serverInfo.alloc {}).Held s.serverInfo.next := PtrMap.not_held_alloc
  rw [or_iff_right hnone]
  refine imp_congr_right fun hadded => ?_
  cases hlast : lastItem items with
  | none =>
    refine iff_of_true ?_ fun _ hitem => absurd hitem (Option.some_ne_none _).symm
    rw [PtrMap.record_alloc]
    rfl
  | some item =>
    simp

/-! ## Adding one server -/

theorem initRecord_globalStatus {jsonMap : JsonMap} {c : MetadataChunkserver}
    (h : ServerTables.initRecord jsonMap = some c) : c.globalStatus = 0 := by
  unfold ServerTables.initRecord at h
  iterate 6 obtain ⟨_, -, h⟩ := Option.bind_eq_some_iff.mp h
  cases h
  rfl

theorem agrees_init (h : s.serverInfo.Agrees MetadataChunkserver.globalStatus g)
    (body : Option JsonMap) (inserted : Bool) (now : Int) :
    (s.initChunkserverHandler body inserted now).1.serverInfo.Agrees
      MetadataChunkserver.globalStatus
      (MasterOp.loadedAfter s g (.init body inserted now)) := by
  unfold ServerTables.initChunkserverHandler MasterOp.loadedAfter
  cases body with
  | none => exact h
  | some jsonMap =>
    simp only [Option.bind_some]
    cases hrecord : ServerTables.initRecord jsonMap with
    | none => exact h
    | some c =>
      have hshares := PtrMap.Agrees.shares h (a := c) (v := 0)
      cases inserted with
      | false =>
        simp only [ServerTables.addChunkserver, PtrMap.record_alloc, Bool.false_eq_true, if_false]
        rw [(hshares.write _).agrees_iff, PtrMap.held_write]
        exact fun hheld => absurd hheld PtrMap.not_held_alloc
      | true =>
        simp only [ServerTables.addChunkserver, ServerTables.addRow, PtrMap.record_alloc, if_true]
        have hstored := (hshares.write { ServerTables.reset c with updateTime := now }).point c.key
        refine hstored.agrees_iff.mpr fun _ => ?_
        rw [PtrMap.record_point, PtrMap.record_write]
        show c.globalStatus = 0
        exact initRecord_globalStatus hrecord

end Step

/-! ## Runs -/

/-- From tables that track what was loaded, a step leads to such tables exactly when it
loses no global status. -/
theorem Watched.Tracks.step_iff {w : Watched} (h : w.Tracks) (op : MasterOp) :
    (w.step op).Tracks ↔ ¬ op.Loses w.tables := by
  cases op with
  | load read now =>
    refine iff_of_true ?_ id
    unfold Watched.Tracks Watched.step ServerTables.step MasterOp.loadedAfter
      ServerTables.loadChunkserverInfo
    simp only
    cases w.tables.listChunkserver read with
    | none => exact h
    | some list => exact agrees_load w.tables.serverInfo
  | report body updated now =>
    refine (agrees_report h body updated now).trans ?_
    constructor
    · rintro hall ⟨old, hold, hne⟩
      exact hne (hall old hold)
    · intro hno old hold
      by_contra hne
      exact hno ⟨old, hold, hne⟩
  | monitor timeoutSecond now visits updated =>
    exact iff_of_true (agrees_chunkserverMonitor.mpr h) id
  | init body inserted now => exact iff_of_true (agrees_init h body inserted now) id
  | batchInit list =>
    cases list with
    | none => exact iff_of_true h id
    | some items =>
      have hfst : (w.tables.batchInitChunkserverHandler (some items)).1 =
          (w.tables.batchAddChunkserver items).1 := by
        unfold ServerTables.batchInitChunkserverHandler
        simp only
        split
        · rename_i heq
          rw [heq]
        · rename_i heq
          rw [heq]
      unfold Watched.Tracks Watched.step ServerTables.step MasterOp.loadedAfter
      simp only
      rw [hfst, agrees_batch h items]
      constructor
      · rintro hall ⟨hadded, item, hlast, hne⟩
        exact hne (hall hadded item hlast)
      · intro hno hadded item hlast
        by_contra hne
        exact hno ⟨hadded, item, hlast, hne⟩
  | edit rows => exact iff_of_true h id

/-- The chunkmaster loads the rows before it serves. -/
def Watched.start (rows : List MetadataChunkserver) (read : Nat) (now : Int) : Watched :=
  Watched.step ⟨⟨rows, .empty {}⟩, fun _ => 0⟩ (.load (some read) now)

/-- The states of the runs in which every operation meets `ok`. -/
abbrev WatchedRun (ok : ServerTables → MasterOp → Prop) : Watched → Prop :=
  Reach (fun w => ∃ rows read now, w = .start rows read now) fun w op w' =>
    op.Fits w.tables ∧ ok w.tables op ∧ w' = w.step op

theorem WatchedRun.tracks {w : Watched} (h : WatchedRun (fun s op => ¬ op.Loses s) w) :
    w.Tracks := by
  refine h.invariant (I := Watched.Tracks) ?_ ?_
  · rintro _ ⟨rows, read, now, rfl⟩
    exact agrees_load _
  · rintro w op _ - ih ⟨-, hok, rfl⟩
    exact (ih.step_iff op).mpr hok

end Speedy.Chunkmaster
