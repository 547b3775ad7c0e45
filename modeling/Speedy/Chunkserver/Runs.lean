import Speedy.Chunkserver.Simulation
import Speedy.Chunkserver.Startup
import Speedy.Lib.Except

/-! # Runs of the chunkserver

A run starts on an empty data directory and takes one event after the other. The
invariant of the ledger holds initially, so by simulation it holds in every state
of every run; what clients and a restart can rely on follows from it. -/
namespace Speedy.Chunkserver
open Speedy.Lib Relation

/-! ## The first state -/

/-- What `spy_create_chunk` builds in an empty data directory. -/
structure Created (t : Started) : Prop where
  index : t.st.fileIndex = []
  ids : (t.st.chunks.map Chunk.chunkId).Nodup
  chunk : ∀ c ∈ t.st.chunks, c = spyAllocChunk c.chunkId defChunkSize ∧
    Holds (t.disk c.chunkId) 0 (spyFillSuperblock c)

theorem spyCreateChunk_created {cfg : Config} {create : UInt64 → Bool} {t t' : Started}
    (h : Created t) (hs : spyCreateChunk cfg create t = .ok t') :
    Created t' ∧ t'.st.chunks.length = t.st.chunks.length + 1 := by
  unfold spyCreateChunk at hs
  simp only at hs
  split at hs
  · unfold spyAddChunk at hs
    split at hs
    · cases hs
    · rename_i st hadd
      split at hadd
      · cases hadd
      · rename_i hany
        obtain rfl := Option.some.inj hadd
        obtain rfl := Except.ok.inj hs
        have hnew : ∀ c ∈ t.st.chunks, c.chunkId ≠ t.st.maxChunkId + 1 := by
          intro c hc he
          exact hany (List.any_eq_true.mpr ⟨c, hc, by rw [he]; exact beq_self_eq_true _⟩)
        refine ⟨⟨h.index, ?_, ?_⟩, rfl⟩
        · refine List.nodup_cons.mpr ⟨fun hin => ?_, h.ids⟩
          obtain ⟨c, hc, he⟩ := List.mem_map.mp hin
          exact hnew c hc he
        · intro c hc
          rcases List.mem_cons.mp hc with rfl | hc
          · refine ⟨rfl, ?_⟩
            show Holds (Function.update t.disk (t.st.maxChunkId + 1) _ (t.st.maxChunkId + 1)) 0 _
            rw [Function.update_self]
            exact Holds.store_self _ _ _
          · obtain ⟨h1, h2⟩ := h.chunk c hc
            refine ⟨h1, ?_⟩
            show Holds (Function.update t.disk (t.st.maxChunkId + 1) _ c.chunkId) 0 _
            rw [Function.update_of_ne (hnew c hc)]
            exact h2
  · cases hs

theorem createChunks_created {cfg : Config} {create : UInt64 → Bool} (n : Nat) {t t' : Started}
    (h : Created t) (hs : createChunks cfg create n t = .ok t') :
    Created t' ∧ t'.st.chunks.length = t.st.chunks.length + n := by
  induction n generalizing t with
  | zero =>
    obtain rfl := Except.ok.inj hs
    exact ⟨h, rfl⟩
  | succ n ih =>
    simp only [createChunks, bind, Except.bind] at hs
    cases hc : spyCreateChunk cfg create t with
    | error e => rw [hc] at hs; cases hs
    | ok u =>
      rw [hc] at hs
      obtain ⟨hu, hlen⟩ := spyCreateChunk_created h hc
      obtain ⟨ht, hlen'⟩ := ih hu hs
      exact ⟨ht, by omega⟩

theorem Created.find {t : Started} (h : Created t) {cfg : Config} {id : UInt64}
    (hid : id ∈ (Server.start cfg t).chunkIndex) :
    (Server.start cfg t).chunk id = spyAllocChunk id defChunkSize ∧
      Holds (t.disk id) 0 (spyFillSuperblock (spyAllocChunk id defChunkSize)) := by
  obtain ⟨c, hc, rfl⟩ := List.mem_map.mp hid
  cases hf : t.st.chunks.find? fun x => x.chunkId == c.chunkId with
  | none =>
    have hne := List.find?_eq_none.mp hf c hc
    simp at hne
  | some x =>
    have hx : x.chunkId = c.chunkId := by simpa using List.find?_some hf
    obtain ⟨h1, h2⟩ := h.chunk x (List.mem_of_find?_eq_some hf)
    rw [hx] at h1 h2
    have hstart : (Server.start cfg t).chunk c.chunkId = x := by
      simp only [Server.start, hf, Option.getD_some]
    rw [hstart]
    exact ⟨h1, h1 ▸ h2⟩

theorem Server.Fresh.created {cfg : Config} {s : Server} (h : Server.Fresh cfg s) :
    ∃ t, Created t ∧ s = Server.start cfg t ∧ t.st.chunks.length = cfg.nChunks := by
  obtain ⟨create, t, ht, rfl⟩ := h
  have hempty : Created .empty := ⟨rfl, List.nodup_nil, nofun⟩
  obtain ⟨hc, hlen⟩ := createChunks_created cfg.nChunks hempty ht
  exact ⟨t, hc, rfl, by simpa [Started.empty] using hlen⟩

theorem Server.Fresh.inv {cfg : Config} {s : Server} (h : Server.Fresh cfg s) :
    LedgerInv s.ledger (fun _ => []) fun _ => False := by
  obtain ⟨t, hc, rfl, _⟩ := h.created
  refine ⟨⟨fun _ _ => rfl, List.nodup_nil, nofun, nofun⟩, nofun, List.nodup_nil, nofun, hc.ids,
    fun id hid => ⟨hid, not_false⟩, ?_, ?_, ?_, ?_, nofun⟩
  · intro id hid
    obtain ⟨hf, _⟩ := hc.find hid
    show ((Server.start cfg t).chunk id).chunkId = id ∧
      Laid (t.disk id) ((Server.start cfg t).chunk id) []
    rw [hf]
    exact ⟨rfl, spyAllocChunk_laid id _⟩
  · intro id _ _ _
    show entriesOf t.st.fileIndex id = []
    rw [hc.index]
    rfl
  · show List.Forall₂ _ [] t.st.fileIndex
    rw [hc.index]
    exact .nil
  · show (t.st.fileIndex.map IndexEntry.fid).Nodup
    rw [hc.index]
    exact List.nodup_nil

theorem Server.Fresh.superblocks {cfg : Config} {s : Server} (h : Server.Fresh cfg s) :
    SuperblocksAgree s.ledger := by
  obtain ⟨t, hc, rfl, _⟩ := h.created
  intro id hid
  obtain ⟨hf, hsb⟩ := hc.find hid
  show Holds (t.disk id) 0 (spyFillSuperblock ((Server.start cfg t).chunk id))
  rw [hf]
  exact hsb

/-! ## Every run -/

section Runs
variable {cfg : Config} {s s' : Server} {e : Event}

/-- The states of runs that start on an empty data directory and whose events all
meet `ok`. -/
abbrev Run (cfg : Config) (ok : Server → Event → Server → Prop) : Server → Prop :=
  Reach (Server.Fresh cfg) fun s e s' => step cfg s e = .ok s' ∧ ok s e s'

/-- The ledger keeps its invariant for some records. -/
def Sound (v : Ledger) : Prop := ∃ recs lost, LedgerInv v recs lost

theorem LedgerStep.sound {sb : Pwrite → Prop} {dup ack : Prop} {v v' : Ledger} (h : Sound v)
    (hs : LedgerStep sb dup ack v v') : Sound v' := by
  obtain ⟨recs, lost, hi⟩ := h
  obtain ⟨recs', lost', hi', _⟩ := hs.inv hi
  exact ⟨recs', lost', hi'⟩

theorem Run.sound {ok : Server → Event → Server → Prop} (h : Run cfg ok s) : Sound s.ledger := by
  refine h.invariant (I := fun s => Sound s.ledger) (fun s hs => ⟨_, _, hs.inv⟩) ?_
  intro s e s' _ hi hs
  obtain ⟨recs, lost, hinv⟩ := hi
  have hsim : Steps (fun _ => True) True True s.ledger s'.ledger :=
    step_sim hinv.flow (fun _ _ => trivial) (.inl trivial) (fun _ _ _ _ _ _ => trivial) hs.1
  exact ReflTransGen.keeps (fun _ _ ha hab => hab.sound ha) ⟨recs, lost, hinv⟩ hsim

/-! ## Playing a list of events -/

/-- The events one after the other, as long as each step meets `ok`. -/
def play (cfg : Config) (ok : Server → Event → Server → Bool) :
    List Event → Server → Except Fault Server
  | [], s => .ok s
  | e :: es, s => match step cfg s e with
    | .error fault => .error fault
    | .ok s' => if ok s e s' then play cfg ok es s' else .error .disabled

theorem play_run {init : Server → Prop} {ok : Server → Event → Server → Bool} (es : List Event)
    {s s' : Server} (h : Reach init (fun s e s' => step cfg s e = .ok s' ∧ ok s e s' = true) s)
    (hs : play cfg ok es s = .ok s') :
    Reach init (fun s e s' => step cfg s e = .ok s' ∧ ok s e s' = true) s' := by
  induction es generalizing s with
  | nil => exact Except.ok.inj hs ▸ h
  | cons e es ih =>
    simp only [play] at hs
    split at hs
    · cases hs
    · rename_i t ht
      split at hs
      · rename_i hok
        exact ih (.next h ⟨ht, hok⟩) hs
      · cases hs

/-- A server that has just created its chunks. -/
def newServer (cfg : Config) : Server :=
  Server.start cfg (match spyCreateOrRecoverFiles cfg (fun _ => true) [] with
    | .ok t => t
    | .error _ => .empty)

def sampleConfig : Config := ⟨1, 2, 16, []⟩

theorem newServer_fresh : Server.Fresh sampleConfig (newServer sampleConfig) :=
  ⟨fun _ => true, _, rfl, rfl⟩

/-- A request as a client sends it. -/
def request (opcode : Nat) (fid : UInt64) (payload : Bytes) : Bytes :=
  spyMachWriteTo1 opcode ++ (spyMachWriteTo4 (10 + payload.length) ++ (spyMachWriteTo2 1 ++
    (spyMachWriteTo8 fid.toNat ++ payload)))

/-! ## Reads return what was written -/

/-- Two entries of the index share no byte. -/
def Apart (a b : IndexEntry) : Prop :=
  a.chunkId = b.chunkId → a.offset + a.size ≤ b.offset ∨ b.offset + b.size ≤ a.offset

theorem Indexed.apart {recs : UInt64 → List Record} {a b : IndexEntry} {ra rb : Record}
    (ha : Indexed recs a ra) (hb : Indexed recs b rb) (hne : a.fid ≠ b.fid) : Apart a b := by
  intro hc
  have hfa : a.fid = ra.fid := by rw [ha.eq]; rfl
  have hfb : b.fid = rb.fid := by rw [hb.eq]; rfl
  rw [ha.size, hb.size]
  have hmem := hb.mem
  rw [← hc] at hmem
  refine placed_disjoint _ ha.mem hmem fun he => hne ?_
  rw [hfa, hfb]
  exact congrArg (fun q => q.2.fid) he

variable {v : Ledger} {recs : UInt64 → List Record} {lost : UInt64 → Prop}

/-- The fids acknowledged are those of the index. -/
theorem LedgerInv.fids_eq (h : LedgerInv v recs lost) :
    (successWrites v.answers).map Prod.fst = v.fileIndex.map IndexEntry.fid := by
  rw [← List.forall₂_eq_eq_eq, List.forall₂_map_left_iff, List.forall₂_map_right_iff]
  refine h.index.imp fun w e hwe => ?_
  obtain ⟨_, rec, hi, rfl⟩ := hwe
  rw [hi.eq]
  rfl

/-- An entry lies between the superblock and `current_offset`. -/
theorem LedgerInv.inside (h : LedgerInv v recs lost) {e : IndexEntry} {rec : Record}
    (hm : e.chunkId ∈ v.chunkIndex) (hi : Indexed recs e rec) :
    superblockSize ≤ e.offset ∧ e.offset + e.size ≤ (v.chunk e.chunkId).currentOffset := by
  have hb : 55 ≤ e.offset ∧ e.offset + rec.bytes.length ≤ _ := placed_bounds _ hi.mem
  have hoff := (h.laid _ hm).2.offset
  unfold extent at hoff
  rw [hi.size, hoff]
  exact hb

theorem LedgerInv.pairwise_apart (h : LedgerInv v recs lost) :
    v.fileIndex.Pairwise Apart := by
  have hnd := h.fids
  rw [List.nodup_iff_pairwise_ne, List.pairwise_map] at hnd
  refine hnd.imp_of_mem fun {a b} ha hb hne => ?_
  obtain ⟨_, _, _, ra, hia, _⟩ := h.acknowledged ha
  obtain ⟨_, _, _, rb, hib, _⟩ := h.acknowledged hb
  exact hia.apart hib hne

/-- Read after write. In every state of every run no fid has been acknowledged
twice, every successful READ carries the payload and the length of the
acknowledged WRITE of its fid, and the index points into chunks of the server at
ranges that lie inside the records area and do not overlap. -/
theorem reads_return_acknowledged_writes {ok : Server → Event → Server → Prop}
    (h : Run cfg ok s) :
    ((successWrites s.answers).map Prod.fst).Nodup ∧
    (∀ fid bodyLen body, (fid, bodyLen, body) ∈ successReads s.answers →
      bodyLen = body.length ∧ (fid, body) ∈ successWrites s.answers) ∧
    (∀ e ∈ s.fileIndex, e.chunkId ∈ s.chunkIndex ∧ superblockSize ≤ e.offset ∧
      e.offset + e.size ≤ (s.chunk e.chunkId).currentOffset) ∧
    s.fileIndex.Pairwise Apart := by
  obtain ⟨recs, lost, hi⟩ := h.sound
  refine ⟨?_, ?_, ?_, hi.pairwise_apart⟩
  · rw [show s.answers = s.ledger.answers from rfl, hi.fids_eq]
    exact hi.fids
  · intro fid bodyLen body hr
    exact hi.reads _ hr
  · intro e he
    obtain ⟨_, _, hm, rec, hrec, _⟩ := hi.acknowledged he
    exact ⟨hm, hi.inside hm hrec⟩

/-- A WRITE of three bytes up to its done callback, with this outcome of the
`pwrite()` of the superblock. -/
def writeEvents (superblock : Pwrite) : List Event :=
  [.accept, .readable 0 (.data (request 0 7 [1, 2, 3])) ⟨0, 0, true, true⟩, .start,
    .io 0 (.pwrite .full 0), .io 0 (.pwrite .full 0), .io 0 (.pwrite superblock 0), .finish 0]

def readEvents : List Event :=
  [.done true, .writable 0 [.sent 6], .readable 0 (.data (request 1 7 [])) ⟨0, 0, true, true⟩,
    .start, .io 0 (.pread .full), .io 0 (.pread .full), .io 0 (.pread .full), .finish 0, .done true]

theorem reads_return_sampleWrite : ∃ s : Server, successReads s.answers = [(7, 3, [1, 2, 3])] ∧
    (7, [1, 2, 3]) ∈ successWrites s.answers := by
  have hplay : (play sampleConfig (fun _ _ _ => true) (writeEvents .full ++ readEvents)
      (newServer sampleConfig)).map (fun s => successReads s.answers) =
        .ok [(7, 3, [1, 2, 3])] := by
    decide +kernel
  obtain ⟨s, hs, hr⟩ := map_eq_ok hplay
  have hrun := play_run _ (.init newServer_fresh) hs
  refine ⟨s, hr, ?_⟩
  have h := (reads_return_acknowledged_writes hrun).2.1 7 3 [1, 2, 3]
  rw [hr] at h
  exact (h (List.mem_cons_self ..)).2

end Runs
end Speedy.Chunkserver
