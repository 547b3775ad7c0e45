import Speedy.Chunkserver.BookSim
import Speedy.Chunkserver.Restart

/-! # What the runs of a chunkserver keep in balance

The books of a fresh server are in order, so by simulation they are in every state
of every run. From them: the modes of a connection, the accounts of jobs, blocks
and connections, which chunks a write may wait beside, and when a chunk that was
taken for a write can be lost. -/
namespace Speedy.Chunkserver
open Speedy.Lib Relation

/-! ## Runs with their marks -/

/-- The answers a step has added, the newest first. -/
def newAnswers (s s' : Server) : List Answer :=
  s'.answers.take (s'.answers.length - s.answers.length)

/-- The marks of one step, the newest first. -/
def stepMarks (s : Server) (e : Event) (s' : Server) : List Mark :=
  (newAnswers s s').map Answer.mark ++ eventMarks s e

/-- The states of runs as in `Run`, each with the marks of all its steps. -/
abbrev MarkedRun (cfg : Config) (ok : Server → Event → Server → Prop) :
    Server × List Mark → Prop :=
  Reach (fun x => Server.Fresh cfg x.1 ∧ x.2 = []) fun x e x' =>
    step cfg x.1 e = .ok x'.1 ∧ ok x.1 e x'.1 ∧ x'.2 = stepMarks x.1 e x'.1 ++ x.2

section Runs
variable {cfg : Config} {s s' : Server} {marks : List Mark}
  {ok : Server → Event → Server → Prop}

theorem Run.marked (h : Run cfg ok s) : ∃ marks, MarkedRun cfg ok (s, marks) := by
  induction h with
  | init h => exact ⟨[], .init ⟨h, rfl⟩⟩
  | @next s s' e _ hs ih =>
    obtain ⟨marks, hm⟩ := ih
    exact ⟨stepMarks s e s' ++ marks, .next hm ⟨hs.1, hs.2, rfl⟩⟩

theorem Server.Fresh.books {cfg : Config} {s : Server} (h : Server.Fresh cfg s) :
    BookInv cfg.mbLimit s.chunkIndex (s.books []) ∧ MarksInv (s.books []) ∧ (s.books []).Kept := by
  obtain ⟨t, hc, rfl, _⟩ := h.created
  have hjobs : JobBooks [] (List.range defMaxIoJobs).reverse 0 0 0 := by
    refine ⟨?_, rfl, Nat.zero_le _, rfl, rfl⟩
    rw [List.filterMap_nil, List.append_nil]
    exact List.reverse_perm _
  have hchunks : (t.st.chunks.map Chunk.chunkId ++ []).Perm (t.st.chunks.map Chunk.chunkId) := by
    rw [List.append_nil]
  -- there is no work and no connection yet
  have hworks : ∀ x, x ∉ ((Server.start cfg t).books []).works := fun _ => List.not_mem_nil
  have hconns : ∀ c conn, ((Server.start cfg t).books []).conns c ≠ some conn :=
    fun _ _ => (Option.some_ne_none _).symm
  refine ⟨⟨?_, ?_, ?_, ?_, fun x hx => absurd hx (hworks x)⟩,
    ⟨trivial, fun x hx => absurd hx (hworks x), fun c conn hc => absurd hc (hconns c conn)⟩,
    fun id hid => absurd hid List.not_mem_nil⟩
  · exact ⟨fun _ _ => rfl, List.nodup_nil, fun c hc => absurd hc List.not_mem_nil,
      fun c conn hc => absurd hc (hconns c conn)⟩
  · exact ⟨fun c conn hc => absurd hc (hconns c conn), rfl, rfl, rfl, Nat.le_max_left _ _, rfl⟩
  · simp only [Server.books, Server.start]
    exact hjobs
  · exact ⟨hc.ids, hchunks, List.nodup_nil, fun id hid => absurd hid List.not_mem_nil,
      fun job hjob => absurd hjob (hworks _)⟩

/-- What a run of transactions keeps. -/
theorem BookSteps.keeps {strand : Prop} {limit : Nat} {ids : List UInt64} {v v' : Books}
    (h : BookInv limit ids v ∧ MarksInv v) (hs : BookSteps strand v v') :
    BookInv limit ids v' ∧ MarksInv v' :=
  ReflTransGen.keeps (I := fun v => BookInv limit ids v ∧ MarksInv v)
    (fun _ _ hv hstep => ⟨hstep.inv hv.1, hstep.marks hv.1 hv.2⟩) h hs

theorem BookSteps.kept {limit : Nat} {ids : List UInt64} {v v' : Books}
    (h : BookInv limit ids v) (hk : v.Kept) (hs : BookSteps False v v') : v'.Kept :=
  (ReflTransGen.keeps (I := fun v => BookInv limit ids v ∧ v.Kept)
    (fun _ _ hv hstep => ⟨hstep.inv hv.1, hstep.kept hv.1 hv.2⟩) ⟨h, hk⟩ hs).2

theorem step_chunkIndex {recs : UInt64 → List Record} {lost : UInt64 → Prop} {e : Event}
    (h : LedgerInv s.ledger recs lost) (hs : step cfg s e = .ok s') :
    s'.chunkIndex = s.chunkIndex := by
  have hsim : Steps (fun _ => True) True True s.ledger s'.ledger :=
    step_sim h.flow (fun _ _ => trivial) (.inl trivial) (fun _ _ _ _ _ _ => trivial) hs
  refine ReflTransGen.keeps (I := fun v => v.chunkIndex = s.chunkIndex) ?_ rfl hsim
  intro v v' hv hstep
  rw [hstep.chunkIndex_eq]
  exact hv

/-- The run without its marks. -/
theorem MarkedRun.run {x : Server × List Mark} (h : MarkedRun cfg ok x) : Run cfg ok x.1 := by
  induction h with
  | init h => exact .init h.1
  | next _ hs ih => exact .next ih ⟨hs.1, hs.2.1⟩

/-- One step's transactions, with the marks of the step. -/
theorem step_marks {strand : Prop} {e : Event} (hsound : Sound s.ledger)
    (h : BookInv cfg.mbLimit s.chunkIndex (s.books marks))
    (hkeep : strands cfg s e = true → strand) (hs : step cfg s e = .ok s') :
    BookSteps strand (s.books marks) (s'.books (stepMarks s e s' ++ marks)) := by
  obtain ⟨recs, lost, hl⟩ := hsound
  obtain ⟨as, has, hsteps⟩ := step_books h hl hkeep hs
  have hnew : newAnswers s s' = as := by
    unfold newAnswers
    rw [has, List.length_append, Nat.add_sub_cancel, List.take_left']
    rfl
  unfold stepMarks
  rw [hnew, List.append_assoc]
  exact hsteps

/-- The books are in order in every state of every run. -/
theorem MarkedRun.books (h : MarkedRun cfg ok (s, marks)) :
    BookInv cfg.mbLimit s.chunkIndex (s.books marks) ∧ MarksInv (s.books marks) := by
  refine h.invariant (I := fun x => BookInv cfg.mbLimit x.1.chunkIndex (x.1.books x.2) ∧
    MarksInv (x.1.books x.2)) ?_ ?_
  · rintro ⟨s, marks⟩ ⟨hf, rfl⟩
    exact ⟨hf.books.1, hf.books.2.1⟩
  · rintro ⟨s, marks⟩ e ⟨s', marks'⟩ hr hi ⟨hs, _, hm⟩
    obtain rfl : marks' = stepMarks s e s' ++ marks := hm
    have hsound := (MarkedRun.run hr).sound
    have hsteps : BookSteps True _ _ := step_marks hsound hi.1 (fun _ => trivial) hs
    obtain ⟨recs, lost, hl⟩ := hsound
    rw [step_chunkIndex hl hs]
    exact hsteps.keeps hi

theorem Run.books (h : Run cfg ok s) :
    ∃ marks, BookInv cfg.mbLimit s.chunkIndex (s.books marks) := by
  obtain ⟨marks, hm⟩ := h.marked
  exact ⟨marks, hm.books.1⟩

/-! ## Connections -/

inductive Mode where
  | receiving
  | waiting
  | sending
  deriving DecidableEq, Repr

/-- The jobs that refer to a connection, wherever they are. -/
def Server.jobsOf (s : Server) (c : Nat) : Nat := s.works.countP fun x => x.1.conn == c

def Server.InMode (s : Server) (c : Nat) (conn : Connection) : Mode → Prop
  | .receiving => conn.readable = true ∧ conn.writable = false ∧ s.jobsOf c = 0
  | .waiting => conn.readable = false ∧ conn.writable = false ∧ s.jobsOf c = 1
  | .sending => conn.writable = true ∧ s.jobsOf c = 0

theorem jobsOf_eq_zero {c : Nat} (h : c ∉ s.ledger.waiting) : s.jobsOf c = 0 := by
  refine List.countP_eq_zero.mpr fun x hx he => h ?_
  exact List.mem_map.mpr ⟨x, hx, by simpa using he⟩

theorem jobsOf_eq_one {c : Nat} (hnd : s.ledger.waiting.Nodup) (h : c ∈ s.ledger.waiting) :
    s.jobsOf c = 1 := by
  have hcount : s.ledger.waiting.count c = 1 := List.count_eq_one_of_mem hnd h
  rw [List.count_eq_countP, Ledger.waiting, List.countP_map] at hcount
  exact hcount

theorem ConnInv.inMode {next : Nat} {c : Nat} {conn : Connection}
    (h : ConnInv next s.conns s.ledger.waiting) (hc : s.conns c = some conn) :
    ∃ mode, s.InMode c conn mode := by
  have hok := h.ok c conn hc
  unfold ConnOk at hok
  cases hst : conn.state with
  | receiveHdr =>
    rw [hst] at hok
    exact ⟨.receiving, hok.1, hok.2.1, jobsOf_eq_zero hok.2.2.2.2⟩
  | receiveBody =>
    rw [hst] at hok
    exact ⟨.receiving, hok.1, hok.2.1, jobsOf_eq_zero hok.2.2.2.2.2.2⟩
  | processRequest =>
    rw [hst] at hok
    exact ⟨.waiting, hok.1, hok.2.1, jobsOf_eq_one h.nodup hok.2.2⟩
  | sendRsp =>
    rw [hst] at hok
    exact ⟨.sending, hok.1, jobsOf_eq_zero hok.2⟩

theorem Server.InMode.unique {c : Nat} {conn : Connection} {m m' : Mode} (h : s.InMode c conn m)
    (h' : s.InMode c conn m') : m' = m := by
  cases m <;> cases m' <;> simp_all [Server.InMode]

/-- Connection lifecycle. In every state of every run each live connection is
receiving, or waiting for exactly one job, or sending; the connection of a job is
live; a response is started only for a request that was dispatched since the last
one, and what is being sent is the response to the last request. -/
theorem connections_have_one_mode (h : MarkedRun cfg ok (s, marks)) :
    (∀ c conn, s.conns c = some conn → ∃! mode, s.InMode c conn mode) ∧
    (∀ c, 0 < s.jobsOf c → ∃ conn, s.conns c = some conn) ∧
    Alternating marks ∧
    ∀ c conn, s.conns c = some conn → conn.writable = true → Begun marks c := by
  obtain ⟨hb, hm⟩ := h.books
  refine ⟨fun c conn hc => ?_, fun c hpos => ?_, hm.alternating, fun c conn hc hw => ?_⟩
  · obtain ⟨mode, hmode⟩ := ConnInv.inMode hb.conns hc
    exact ⟨mode, hmode, fun _ h' => hmode.unique h'⟩
  · refine hb.conns.live c ?_
    by_contra hnot
    rw [jobsOf_eq_zero hnot] at hpos
    exact absurd hpos (Nat.lt_irrefl 0)
  · refine hm.sending c conn hc ?_
    have hok := hb.conns.ok c conn hc
    unfold ConnOk at hok
    cases hst : conn.state with
    | sendRsp => rfl
    | _ =>
      rw [hst] at hok
      rw [hok.2.1] at hw
      cases hw

/-- The step of a run with its marks, where there is one. -/
def markedStep (cfg : Config) (x : Server × List Mark) (e : Event) : Option (Server × List Mark) :=
  match step cfg x.1 e with
  | .ok s' => some (s', stepMarks x.1 e s' ++ x.2)
  | .error _ => none

theorem markedStep_run {es : List Event} {x : Server × List Mark}
    (h : Lib.play (markedStep sampleConfig) es (newServer sampleConfig, []) = some x) :
    MarkedRun sampleConfig (fun _ _ _ => True) x := by
  refine Reach.play ?_ es (.init ⟨newServer_fresh, rfl⟩) h
  intro y e y' hy
  unfold markedStep at hy
  split at hy
  · rename_i s' hs
    obtain rfl := Option.some.inj hy
    exact ⟨hs, trivial, rfl⟩
  · cases hy

/-- While the WRITE is with the worker its connection waits. -/
theorem connections_have_one_mode_sampleWrite : ∃ s : Server,
    s.jobsOf 0 = 1 ∧ (∃ conn, s.conns 0 = some conn) ∧ Alternating [.dispatched 0] := by
  have hplay : (Lib.play (markedStep sampleConfig) (writeEvents .full)
      (newServer sampleConfig, [])).map (fun x => (x.1.jobsOf 0, x.2)) =
        some (1, [.dispatched 0]) := by
    decide +kernel
  obtain ⟨⟨s, marks⟩, hs, hx⟩ := Option.map_eq_some_iff.mp hplay
  obtain ⟨hjobs, rfl⟩ := Prod.mk.inj hx
  obtain ⟨_, hlive, halt, _⟩ := connections_have_one_mode (markedStep_run hs)
  exact ⟨s, hjobs, hlive 0 (hjobs ▸ Nat.one_pos), halt⟩

/-! ## Chunks -/

/-- The writes that have been given a chunk and are not done. -/
def Server.writersOf (s : Server) (id : UInt64) : Nat :=
  s.works.countP fun x => owner x == some id

theorem writersOf_eq_count (s : Server) (id : UInt64) :
    s.writersOf id = (s.works.filterMap owner).count id := by
  rw [List.count_filterMap]
  rfl

/-- Three WRITEs to a server with two chunks. -/
def crowdedEvents : List Event :=
  [.accept, .accept, .accept, .readable 0 (.data (request 0 7 [1])) ⟨0, 0, true, true⟩,
    .readable 1 (.data (request 0 8 [2])) ⟨0, 0, true, true⟩,
    .readable 2 (.data (request 0 9 [3])) ⟨0, 0, true, true⟩]

/-- No stranded chunk. In every run in which no WRITE takes a chunk while there is no
free job and no write is done when its fid has an entry, the chunks of the server
are those on the two lists, and every chunk that is being written to belongs to
exactly one write that is queued, running or finished. -/
theorem writing_chunks_have_one_writer (h : Run cfg (fun s e _ => strands cfg s e = false) s) :
    (s.chunks ++ s.writingChunks).Perm s.chunkIndex ∧
      ∀ id ∈ s.writingChunks, s.writersOf id = 1 := by
  obtain ⟨marks, hm⟩ := h.marked
  have hkept : BookInv cfg.mbLimit s.chunkIndex (s.books marks) ∧ (s.books marks).Kept := by
    refine hm.invariant (I := fun x => BookInv cfg.mbLimit x.1.chunkIndex (x.1.books x.2) ∧
      (x.1.books x.2).Kept) ?_ ?_
    · rintro ⟨s, marks⟩ ⟨hf, rfl⟩
      exact ⟨hf.books.1, hf.books.2.2⟩
    · rintro ⟨s, marks⟩ e ⟨s', marks'⟩ hr ⟨hi, hk⟩ hs
      have hnext : MarkedRun cfg (fun s e _ => strands cfg s e = false) (s', marks') := .next hr hs
      refine ⟨hnext.books.1, ?_⟩
      have hrun : MarkedRun cfg (fun s e _ => strands cfg s e = false) (s, marks) := hr
      obtain ⟨hstep, hok, hmarks⟩ := hs
      obtain rfl : marks' = stepMarks s e s' ++ marks := hmarks
      have hnot : strands cfg s e ≠ true := Bool.eq_false_iff.mp hok
      exact BookSteps.kept hi hk (step_marks hrun.run.sound hi hnot hstep)
  refine ⟨hkept.1.chunks.all, fun id hid => ?_⟩
  rw [writersOf_eq_count]
  exact List.count_eq_one_of_mem hkept.1.chunks.owners_nodup (hkept.2 id hid)

theorem writing_chunks_have_one_writer_crowded : ∃ s : Server,
    s.writingChunks = [1, 2] ∧ s.writersOf 1 = 1 ∧ s.writersOf 2 = 1 := by
  have hplay : (play sampleConfig (fun s e _ => strands sampleConfig s e == false) crowdedEvents
      (newServer sampleConfig)).map (fun s => s.writingChunks) = .ok [1, 2] := by
    decide +kernel
  obtain ⟨s, hs, hw⟩ := map_eq_ok hplay
  have hrun := play_run _ (.init newServer_fresh) hs
  have hone := (writing_chunks_have_one_writer (s := s)
    (hrun.mono fun _ _ _ hstep => ⟨hstep.1, beq_iff_eq.mp hstep.2⟩)).2
  rw [hw] at hone
  exact ⟨s, hw, hone 1 (by decide), hone 2 (by decide)⟩

/-- Two WRITEs of one fid, each with a chunk of its own: the one that is done last
leaves its chunk on the list of chunks being written to. -/
theorem duplicate_writes_strand_chunk : ∃ s : Server,
    Run sampleConfig (fun _ e _ => ioOk e = true) s ∧ s.works = [] ∧
      s.chunks = [2] ∧ s.writingChunks = [1] ∧ s.writersOf 1 = 0 := by
  have hplay : (play sampleConfig (fun _ e _ => ioOk e) duplicateEvents
      (newServer sampleConfig)).map (fun s => (s.works.length, s.chunks, s.writingChunks)) =
        .ok (0, [2], [1]) := by
    decide +kernel
  obtain ⟨s, hs, hx⟩ := map_eq_ok hplay
  obtain ⟨hworks, hx⟩ := Prod.mk.inj hx
  obtain ⟨hchunks, hwriting⟩ := Prod.mk.inj hx
  have hnil := List.eq_nil_of_length_eq_zero hworks
  refine ⟨s, play_run _ (.init newServer_fresh) hs, hnil, hchunks, hwriting, ?_⟩
  unfold Server.writersOf
  rw [hnil]
  rfl

/-! ## Accounts -/

/-- `DEF_MAX_CLIENTS`: the event loop takes no descriptor beyond it. -/
def defMaxClients : Nat := 10240

/-- The connections that have been accepted and not freed. -/
def Server.live (s : Server) : List Connection := (List.range s.nextConn).filterMap s.conns

/-- The jobs of the pool that are pending, queued, running or finished. -/
def Server.ioJobs (s : Server) : List Nat := s.works.filterMap slotOf

structure Balanced (cfg : Config) (s : Server) : Prop where
  jobs : s.freeIoJobs.length + s.ioJobs.length = defMaxIoJobs
  apart : (s.freeIoJobs ++ s.ioJobs).Nodup
  pending : s.pendingWritesSize = s.pendingWrites.length
  pending_le : s.pendingWritesSize ≤ defMaxPendingWrites
  writing : s.statistic.writingCount = s.works.countP fun x => (owner x).isSome
  reading : s.statistic.readingCount = s.works.countP isRead
  conns : s.statistic.connCount = u32 s.live.length
  conns_eq : s.live.length ≤ defMaxClients → s.statistic.connCount = s.live.length
  used : s.mem.used = (s.live.map fun conn => conn.request.blocks + conn.rspBody.blocks).sum
  total : s.mem.used + s.mem.free = s.mem.alloc
  alloc_le : s.mem.alloc ≤ max 16 cfg.mbLimit

/-- The total over a table of connections is the total over those that are live. -/
theorem tally_weigh (w : Connection → Nat) (conns : Nat → Option Connection) (n : Nat) :
    tally n (fun c => weigh w (conns c)) = (((List.range n).filterMap conns).map w).sum := by
  induction n with
  | zero => rfl
  | succ n ih =>
    rw [tally_succ, ih, List.range_succ, List.filterMap_append, List.map_append, List.sum_append]
    congr 1
    cases hc : conns n with
    | none => simp [hc, weigh_none]
    | some conn => simp [hc, weigh_some]

theorem countP_isPending (s : Server) : s.works.countP isPending = s.pendingWrites.length := by
  simp [Server.works, List.countP_append, List.countP_map, Function.comp_def, isPending]

/-- Resource accounting. The pools and the counters are in balance in every state of
every run. -/
theorem accounts_are_balanced (h : Run cfg ok s) : Balanced cfg s := by
  obtain ⟨marks, hb⟩ := h.books
  have hslots := hb.jobs.slots
  have hlive : s.statistic.connCount = u32 s.live.length := by
    have htally := tally_weigh (fun _ => 1) s.conns s.nextConn
    rw [List.map_const', List.sum_replicate_nat, Nat.mul_one] at htally
    rw [Server.live, ← htally]
    exact hb.table.live
  refine ⟨?_, ?_, ?_, hb.jobs.pending_le, ?_, hb.jobs.reading_eq, hlive, fun hle => ?_, ?_,
    hb.table.total, hb.table.alloc⟩
  · have hlen := hslots.length_eq
    rw [List.length_append, List.length_range] at hlen
    exact hlen
  · exact hslots.nodup_iff.mpr List.nodup_range
  · rw [← countP_isPending]
    exact hb.jobs.pending_eq
  · rw [← List.length_filterMap_eq_countP]
    exact hb.jobs.writing_eq
  · rw [hlive]
    unfold u32
    unfold defMaxClients at hle
    omega
  · rw [Server.live]
    exact hb.table.used.trans (tally_weigh Connection.held s.conns s.nextConn)

/-- One job and one block are in use while the WRITE is with the worker. -/
theorem accounts_are_balanced_sampleWrite : ∃ s : Server,
    s.ioJobs.length = 1 ∧ s.mem = ⟨15, 16, 16, 1⟩ ∧ Balanced sampleConfig s := by
  have hplay : (play sampleConfig (fun _ _ _ => true) (writeEvents .full)
      (newServer sampleConfig)).map (fun s => (s.ioJobs.length, s.mem)) =
        .ok (1, ⟨15, 16, 16, 1⟩) := by
    decide +kernel
  obtain ⟨s, hs, hx⟩ := map_eq_ok hplay
  obtain ⟨hjobs, hmem⟩ := Prod.mk.inj hx
  exact ⟨s, hjobs, hmem, accounts_are_balanced (play_run _ (.init newServer_fresh) hs)⟩

end Runs
end Speedy.Chunkserver
