import Speedy.Chunkserver.Lists
import Speedy.Lib.Except

/-! # Runs from any data directory

A server is started on whatever `spy_create_or_recover_files` accepts: chunk files with
distinct ids, or an empty directory. The lists and the counters are in order then, and
stay so in every run. -/
namespace Speedy.Chunkserver
open Speedy.Lib Relation

/-- A server that has just been started on some data directory. -/
def Server.Booted (cfg : Config) (s : Server) : Prop :=
  ∃ create dir t, spyCreateOrRecoverFiles cfg create dir = .ok t ∧ s = Server.start cfg t

/-! ## The first state -/

/-- The chunks that were set up or created. -/
structure Started.Sane (t : Started) : Prop where
  nodup : (t.st.chunks.map Chunk.chunkId).Nodup
  inRange : ∀ k ∈ t.st.chunks, k.InRange

section Start
variable {cfg : Config} {create : UInt64 → Bool} {t t' : Started}

theorem spyAllocChunk_inRange (id : UInt64) (size : Nat) : (spyAllocChunk id size).InRange := by
  simp only [Chunk.InRange, spyAllocChunk, defChunkSize, superblockSize, superblockMagicSize]
  omega

theorem spyParseChunkSuperblock_inRange {sb : Bytes} {k k' : Chunk}
    (h : spyParseChunkSuperblock sb k = some k') : k'.InRange := by
  have h8 : ∀ b : Bytes, spyMachReadFrom8 b < 2 ^ 64 := by
    intro b
    have hlt := beDecode_lt (b.take 8)
    have hlen : (b.take 8).length ≤ 8 := by simp
    have hpow := Nat.pow_le_pow_right (n := 256) (by omega) hlen
    unfold spyMachReadFrom8
    omega
  unfold spyParseChunkSuperblock at h
  split at h
  · simp only at h
    split at h
    · cases h
      exact ⟨spyMachReadFrom4_lt _, spyMachReadFrom4_lt _, h8 _, h8 _⟩
    · cases h
  · cases h

/-- A chunk is added only if its id is new. -/
theorem spyAddChunk_sane {st st' : Recovered} {k : Chunk} (h : spyAddChunk st k = some st')
    (hnd : (st.chunks.map Chunk.chunkId).Nodup) (hr : ∀ k ∈ st.chunks, k.InRange)
    (hk : k.InRange) :
    (st'.chunks.map Chunk.chunkId).Nodup ∧ ∀ k ∈ st'.chunks, k.InRange := by
  unfold spyAddChunk at h
  split at h
  · cases h
  · rename_i hany
    cases h
    refine ⟨List.nodup_cons.mpr ⟨fun hin => ?_, hnd⟩, List.forall_mem_cons.mpr ⟨hk, hr⟩⟩
    obtain ⟨x, hx, he⟩ := List.mem_map.mp hin
    exact hany (List.any_eq_true.mpr ⟨x, hx, by rw [he]; exact beq_self_eq_true _⟩)

theorem setupEntry_sane {e : DirEntry} (h : t.Sane) (hs : setupEntry t e = .ok t') : t'.Sane := by
  unfold setupEntry at hs
  split at hs
  · split at hs
    · cases hs
    · cases hs
    · cases hs
    · cases hs
    · rename_i st hst
      split at hs
      · cases hs
      · cases hs
        unfold spySetupChunk at hst
        split at hst
        · cases hst
        · rename_i k hk
          simp only [acceptStopped] at hst
          split at hst
          · cases hst
          · cases hst
          · cases hst
          · split at hst
            · cases hst
            · split at hst
              · cases hst
              · rename_i st' hadd
                cases hst
                obtain ⟨h1, h2⟩ := spyAddChunk_sane hadd h.nodup h.inRange
                  (spyParseChunkSuperblock_inRange hk)
                exact ⟨h1, h2⟩
  · cases hs

theorem foldlM_setupEntry_sane (dir : List DirEntry) (h : t.Sane)
    (hs : dir.foldlM setupEntry t = .ok t') : t'.Sane := by
  induction dir generalizing t with
  | nil =>
    cases hs
    exact h
  | cons e dir ih =>
    rw [List.foldlM_cons] at hs
    obtain ⟨u, hu, hs⟩ := bind_eq_ok hs
    exact ih (setupEntry_sane h hu) hs

theorem createChunks_sane (n : Nat) (h : t.Sane) (hs : createChunks cfg create n t = .ok t') :
    t'.Sane := by
  induction n generalizing t with
  | zero =>
    cases hs
    exact h
  | succ n ih =>
    simp only [createChunks] at hs
    obtain ⟨u, hu, hs⟩ := bind_eq_ok hs
    refine ih ?_ hs
    unfold spyCreateChunk at hu
    simp only at hu
    split at hu
    · split at hu
      · cases hu
      · rename_i st hadd
        cases hu
        obtain ⟨h1, h2⟩ := spyAddChunk_sane hadd h.nodup h.inRange (spyAllocChunk_inRange _ _)
        exact ⟨h1, h2⟩
    · cases hu

theorem spyCreateOrRecoverFiles_sane {dir : List DirEntry}
    (hs : spyCreateOrRecoverFiles cfg create dir = .ok t) : t.Sane := by
  unfold spyCreateOrRecoverFiles at hs
  obtain ⟨u, hu, hs⟩ := bind_eq_ok hs
  have hempty : Started.empty.Sane := ⟨List.nodup_nil, fun k hk => absurd hk List.not_mem_nil⟩
  have hsane : u.Sane := foldlM_setupEntry_sane dir hempty hu
  split at hs
  · exact createChunks_sane _ hsane hs
  · cases hs
    exact hsane

end Start

/-! ## The invariants of every run -/

/-- Every chunk is on one of the two lists, and the counters count. -/
structure ListInv (l : Lists) : Prop where
  nodup : l.chunkIndex.Nodup
  all : (l.chunks ++ l.writingChunks).Perm l.chunkIndex
  count : l.nChunks = l.chunkIndex.length
  size : l.pendingWritesSize = l.pendingWrites.length
  few : l.pendingWrites.length ≤ defMaxPendingWrites

section Inv
variable {now : Nat} {l l' : Lists}

theorem ListStep.chunkIndex (hs : ListStep now l l') :
    l'.chunkIndex = l.chunkIndex ∧ l'.nChunks = l.nChunks := by
  cases hs <;> exact ⟨rfl, rfl⟩

theorem ListStep.inv (h : ListInv l) (hs : ListStep now l l') : ListInv l' := by
  have hsize := h.size
  have hfew := h.few
  simp only [defMaxPendingWrites] at hfew
  cases hs with
  | take id free => exact ⟨h.nodup, (take_perm free).trans h.all, h.count, h.size, h.few⟩
  | park job time room =>
    simp only [defMaxPendingWrites] at room
    refine ⟨h.nodup, h.all, h.count, ?_, ?_⟩
    · simp only [u32, List.length_append, List.length_singleton]
      omega
    · rw [List.length_append, List.length_singleton, defMaxPendingWrites]
      omega
  | promote fit job found =>
    have hlen := (find?_eraseP_perm found).length_eq
    rw [List.length_cons] at hlen
    refine ⟨h.nodup, h.all, h.count, ?_, ?_⟩
    · simp only [u32]
      omega
    · simp only [defMaxPendingWrites]
      omega
  | giveBack id mem busy =>
    have hid : id ∈ l.writingChunks :=
      (List.mem_append.mp (h.all.mem_iff.mpr mem)).resolve_left busy
    exact ⟨h.nodup, (give_perm hid).trans h.all, h.count, h.size, h.few⟩
  | drop job rest first =>
    rw [first, List.length_cons] at hsize hfew
    refine ⟨h.nodup, h.all, h.count, ?_, ?_⟩
    · simp only [u32]
      omega
    · simp only [defMaxPendingWrites]
      omega

end Inv

/-- What holds in every run, from any data directory on. -/
structure ServerInv (s : Server) : Prop where
  flow : FlowInv s.ledger
  lists : ListInv s.lists
  statistic : s.statistic.InRange
  chunk : ∀ id, (s.chunk id).InRange

section Runs
variable {cfg : Config} {s s' : Server} {e : Event}

theorem Server.start_inv {t : Started} (h : t.Sane) : ServerInv (Server.start cfg t) := by
  have hfind : ∀ id, (Server.start cfg t).chunk id ∈ t.st.chunks ∧
      ((Server.start cfg t).chunk id).chunkId = id ∨
      (Server.start cfg t).chunk id = spyAllocChunk id 0 ∧ id ∉ t.st.chunks.map Chunk.chunkId := by
    intro id
    simp only [Server.start]
    cases hf : t.st.chunks.find? fun k => k.chunkId == id with
    | some k =>
      exact .inl ⟨List.mem_of_find?_eq_some hf, by simpa using List.find?_some hf⟩
    | none =>
      refine .inr ⟨rfl, fun hin => ?_⟩
      obtain ⟨k, hk, he⟩ := List.mem_map.mp hin
      exact List.find?_eq_none.mp hf k hk (by simpa using he)
  refine ⟨⟨⟨fun _ _ => rfl, List.nodup_nil, ?_, ?_⟩, List.nodup_nil, ?_, h.nodup, fun _ hid => hid,
    ?_⟩, ⟨h.nodup, ?_, ?_, rfl, Nat.zero_le _⟩, ?_, ?_⟩
  · intro c hc
    cases hc
  · intro c conn hc
    cases hc
  · intro id hid
    cases hid
  · intro id hid
    rcases hfind id with ⟨-, he⟩ | ⟨-, hno⟩
    · exact he
    · exact absurd hid hno
  · exact List.Perm.of_eq (List.append_nil _)
  · exact (List.length_map _).symm
  · constructor <;> exact Nat.zero_lt_succ _
  · intro id
    rcases hfind id with ⟨hm, -⟩ | ⟨he, -⟩
    · exact h.inRange _ hm
    · rw [he]
      exact spyAllocChunk_inRange id 0

theorem Server.Booted.inv (h : Server.Booted cfg s) : ServerInv s := by
  obtain ⟨create, dir, t, ht, rfl⟩ := h
  exact Server.start_inv (spyCreateOrRecoverFiles_sane ht)

/-- One event keeps the invariant; the lists move as `ListStep` says. -/
theorem ServerInv.step (h : ServerInv s) {now : Nat}
    (hnow : ∀ time, e.clock = some time → time = now) (hs : step cfg s e = .ok s') :
    ServerInv s' ∧ ReflTransGen (ListStep now) s.lists s'.lists := by
  have hm := step_moves h.flow hnow hs
  have hsim : Steps (fun _ => True) True True s.ledger s'.ledger :=
    step_sim h.flow (fun _ _ => trivial) (.inl trivial) (fun _ _ _ _ _ _ => trivial) hs
  refine ⟨⟨?_, ?_, hm.statistic h.statistic, hm.chunk h.chunk⟩, hm.lists⟩
  · exact ReflTransGen.keeps (fun _ _ ha hab => hab.flow ha) h.flow hsim
  · exact ReflTransGen.keeps (fun _ _ ha hab => hab.inv ha) h.lists hm.lists

/-- Some time at which the event can have happened. -/
theorem Event.exists_clock (e : Event) : ∃ now, ∀ time, e.clock = some time → time = now := by
  cases h : e.clock with
  | none => exact ⟨0, fun time ht => by cases ht⟩
  | some now => exact ⟨now, fun time ht => (Option.some.inj ht).symm⟩

/-- In every run the invariant holds, and the chunks are those that were found or created. -/
theorem serverInv_of_run {create : UInt64 → Bool} {dir : List DirEntry} {t : Started}
    (hboot : spyCreateOrRecoverFiles cfg create dir = .ok t)
    (hrun : Reach (· = Server.start cfg t) (fun s e s' => step cfg s e = .ok s') s) :
    ServerInv s ∧ s.chunkIndex = t.st.chunks.map Chunk.chunkId := by
  refine hrun.invariant (I := fun s => ServerInv s ∧ s.chunkIndex = t.st.chunks.map Chunk.chunkId)
    ?_ ?_
  · intro s hs
    rw [hs]
    exact ⟨Server.start_inv (spyCreateOrRecoverFiles_sane hboot), rfl⟩
  · intro s e s' _ hi hs
    obtain ⟨now, hnow⟩ := e.exists_clock
    obtain ⟨hi', hlists⟩ := hi.1.step hnow hs
    refine ⟨hi', ?_⟩
    exact ReflTransGen.keeps (I := fun l : Lists => l.chunkIndex = t.st.chunks.map Chunk.chunkId)
      (fun _ _ ha hab => hab.chunkIndex.1.trans ha) hi.2 hlists

end Runs

end Speedy.Chunkserver
