import Speedy.Chunkserver.Log
import Speedy.Chunkserver.Restart
import Mathlib.Data.List.Flatten
import Mathlib.Data.List.Pairwise

/-! # A chunkserver over all its lives

The process may be killed between any two events and started again on the files it has left.
A write that was committed and not answered yet then turns up in the index: the records of the
files are the index and at most one record more per chunk. So the invariant of a run holds again
after a restart, with the records found in the place of the answers given. -/
namespace Speedy.Chunkserver
open Speedy.Lib Relation

/-! ## The records at any moment -/

section Moment
variable {v : Ledger} {recs : UInt64 → List Record} {id fid : UInt64} {x : Work × Stage}

theorem filterMap_nodup_inj {α β : Type} {f : α → Option β} {l : List α}
    (h : (l.filterMap f).Nodup) {a b : α} (ha : a ∈ l) (hb : b ∈ l) {c : β} (hac : f a = some c)
    (hbc : f b = some c) : a = b := by
  by_contra hne
  have hp := List.pairwise_filterMap.mp h
  have : Std.Symm fun a a' => ∀ b, f a = some b → ∀ b', f a' = some b' → b ≠ b' :=
    ⟨fun a b hab c hc d hd => (hab d hd c hc).symm⟩
  exact hp.forall ha hb hne c hac c hbc rfl

/-- A committed write is the last record of its chunk, and all before it are in the index. -/
theorem LedgerInv.committed {lost : UInt64 → Prop} (h : LedgerInv v recs lost) (hx : x ∈ v.works)
    (hc : Committed id x) : ∃ fid, writeFid x = some fid ∧
      (recs id).map Record.fid = (entriesOf v.fileIndex id).map IndexEntry.fid ++ [fid] := by
  obtain ⟨conn, hconn⟩ := h.conns.live _ (List.mem_map.mpr ⟨x, hx, rfl⟩)
  have hw := h.works x hx conn hconn
  obtain ⟨work, stage⟩ := x
  cases work with
  | dump job => exact hc.elim
  | io job =>
    obtain ⟨fn, rfl, hs⟩ := hc
    have happ : Appended v recs job conn := by
      cases hw with
      | writing _ pc _ state =>
        obtain hs | hs := hs
        · cases hs; exact state rfl
        · cases hs.1
      | written _ _ state =>
        obtain hs | hs := hs
        · cases hs
        · exact state hs.2
      | parked => exact hs.elim nofun fun hs => nomatch hs.1
      | placed => exact hs.elim nofun fun hs => nomatch hs.1
      | reading _ _ _ _ fn' => rw [fn] at fn'; cases fn'
      | plain _ _ hp => rw [show job.fn = .check from hp] at fn; cases fn
    obtain ⟨rs, rec, hr, _, hf, _, _, _, he⟩ := happ
    refine ⟨job.file.fid, if_pos fn, ?_⟩
    rw [hr, he, entriesAt_map_fid, List.map_append, List.map_singleton, hf]

/-- The records of a chunk are its entries, and perhaps a write that is not answered yet. -/
theorem Orderly.recs_fids (h : Orderly v recs) (hid : id ∈ v.chunkIndex) :
    (recs id).map Record.fid = (entriesOf v.fileIndex id).map IndexEntry.fid ∨
      ∃ x ∈ v.works, ∃ fid, owner x = some id ∧ writeFid x = some fid ∧
        (recs id).map Record.fid = (entriesOf v.fileIndex id).map IndexEntry.fid ++ [fid] := by
  by_cases hc : ∃ x ∈ v.works, Committed id x
  · obtain ⟨x, hx, hc⟩ := hc
    obtain ⟨fid, hw, hr⟩ := h.inv.committed hx hc
    exact .inr ⟨x, hx, fid, hc.owner, hw, hr⟩
  · refine .inl ?_
    rw [h.inv.exact_ id hid not_false fun x hx hcx => hc ⟨x, hx, hcx⟩, entriesAt_map_fid]

/-- A fid among the records of a chunk is in the index there, or of a write in flight there. -/
theorem Orderly.mem_recs_fids (h : Orderly v recs) (hid : id ∈ v.chunkIndex)
    (hf : fid ∈ (recs id).map Record.fid) :
    (∃ e ∈ v.fileIndex, e.chunkId = id ∧ e.fid = fid) ∨
      ∃ x ∈ v.works, owner x = some id ∧ writeFid x = some fid := by
  have hentry (hf : fid ∈ (entriesOf v.fileIndex id).map IndexEntry.fid) :
      ∃ e ∈ v.fileIndex, e.chunkId = id ∧ e.fid = fid := by
    obtain ⟨e, he, hef⟩ := List.mem_map.mp hf
    obtain ⟨hm, hid⟩ := mem_entriesOf.mp he
    exact ⟨e, hm, hid, hef⟩
  rcases h.recs_fids hid with hr | ⟨x, hx, fid', ho, hw, hr⟩
  · exact .inl (hentry (hr ▸ hf))
  · rw [hr, List.mem_append, List.mem_singleton] at hf
    rcases hf with hf | rfl
    · exact .inl (hentry hf)
    · exact .inr ⟨x, hx, ho, hw⟩

/-- No two records have one fid, at any moment. -/
theorem Orderly.fids_nodup (h : Orderly v recs) (hnd : (v.works.filterMap writeFid).Nodup)
    {ids : List UInt64} (hids : ids.Nodup) (hsub : ∀ id ∈ ids, id ∈ v.chunkIndex) :
    ((ids.flatMap recs).map Record.fid).Nodup := by
  rw [List.map_flatMap, List.nodup_flatMap]
  constructor
  · intro id hid
    have hentries := entriesOf_fids_nodup h.inv.fids id
    rcases h.recs_fids (hsub id hid) with hr | ⟨x, hx, fid, _, hw, hr⟩
    · rw [hr]; exact hentries
    · rw [hr]
      refine List.nodup_append.mpr ⟨hentries, List.nodup_singleton _, ?_⟩
      intro a ha b hb
      rw [List.mem_singleton.mp hb]
      obtain ⟨e, he, rfl⟩ := List.mem_map.mp ha
      exact h.fresh x hx fid hw e (mem_entriesOf.mp he).1
  · refine hids.imp_of_mem fun {a b} ha hb hne fid hfa hfb => hne ?_
    rcases h.mem_recs_fids (hsub a ha) hfa with ⟨e, he, rfl, hef⟩ | ⟨x, hx, hox, hwx⟩ <;>
      rcases h.mem_recs_fids (hsub b hb) hfb with ⟨e', he', rfl, hef'⟩ | ⟨y, hy, hoy, hwy⟩
    · rw [List.inj_on_of_nodup_map h.inv.fids he he' (hef.trans hef'.symm)]
    · exact absurd hef (h.fresh y hy fid hwy e he)
    · exact absurd hef' (h.fresh x hx fid hwx e' he')
    · obtain rfl := filterMap_nodup_inj hnd hx hy hwx hwy
      exact Option.some.inj (hox.symm.trans hoy)

end Moment

/-! ## Recovery of a whole directory -/

/-- The chunks `ids` have been recovered with the records `recs`; the one set up last comes
first, here and in `server.chunks`. -/
structure Rebuilt (disk : UInt64 → ByteStore) (chunk : UInt64 → Chunk)
    (recs : UInt64 → List Record) (ids : List UInt64) (t : Started) : Prop where
  chunks : List.Forall₂ (fun id c => c.chunkId = id ∧
    ∃ size, c = { chunk id with fileSize := size }) ids t.st.chunks
  index : t.st.fileIndex = ids.flatMap fun id => (entriesAt id 55 (recs id)).reverse
  disk : ∀ id ∈ ids, t.disk id = disk id

section Rebuild
variable {disk : UInt64 → ByteStore} {chunk : UInt64 → Chunk} {recs : UInt64 → List Record}
  {ids done : List UInt64} {t : Started} {id : UInt64} {d : DirEntry}

theorem Rebuilt.mem_chunks (h : Rebuilt disk chunk recs ids t) {c : Chunk}
    (hc : c ∈ t.st.chunks) :
    c.chunkId ∈ ids ∧ ∃ size, c = { chunk c.chunkId with fileSize := size } := by
  obtain ⟨i, hi, rfl⟩ := List.mem_iff_getElem.mp hc
  have hl := h.chunks.length_eq
  obtain ⟨hcid, size, he⟩ := h.chunks.get (hl ▸ hi) hi
  simp only [List.get_eq_getElem] at hcid he
  rw [hcid]
  exact ⟨List.getElem_mem (hl ▸ hi), size, he⟩

theorem Rebuilt.ids_eq (h : Rebuilt disk chunk recs ids t) :
    t.st.chunks.map Chunk.chunkId = ids := by
  have hmap : List.Forall₂ Eq ids (t.st.chunks.map Chunk.chunkId) :=
    List.forall₂_map_right_iff.mpr (h.chunks.imp fun _ _ hc => hc.1.symm)
  rw [List.forall₂_eq_eq_eq] at hmap
  exact hmap.symm

/-- The fids found so far. -/
theorem Rebuilt.fids (h : Rebuilt disk chunk recs ids t) :
    (t.st.fileIndex.map IndexEntry.fid).Perm ((ids.flatMap recs).map Record.fid) := by
  rw [h.index, List.map_flatMap, List.map_flatMap]
  refine List.Perm.flatMap_left _ fun id _ => ?_
  rw [List.map_reverse, entriesAt_map_fid]
  exact List.reverse_perm _

/-- One more file is set up. -/
theorem Rebuilt.setup (h : Rebuilt disk chunk recs done t) (hcid : (chunk id).chunkId = id)
    (hsync : Synchronized (disk id) (chunk id) (recs id)) (hvalid : d.valid = true)
    (hfile : d.file = disk id) (hreads : ∀ k, (d.reads k).Whole) (hnew : id ∉ done)
    (hfids : (((id :: done).flatMap recs).map Record.fid).Nodup) :
    ∃ t', setupEntry t d = .ok t' ∧ Rebuilt disk chunk recs (id :: done) t' := by
  rw [List.flatMap_cons, List.map_append, List.nodup_append] at hfids
  obtain ⟨hnd, _, hdis⟩ := hfids
  have hset : spySetupChunk (disk id) d.size d.reads t.st = .accepted _ :=
    hsync.setup hreads hnd ?_ ?_
  · unfold setupEntry
    rw [if_pos hvalid, hfile, hset]
    refine ⟨_, rfl, .cons ⟨hcid, _, rfl⟩ h.chunks, ?_, ?_⟩
    · show (entriesAt (chunk id).chunkId 55 (recs id)).reverse ++ t.st.fileIndex = _
      rw [h.index, hcid, List.flatMap_cons]
    · intro i hi
      show Function.update t.disk (chunk id).chunkId (disk id) i = disk i
      rw [hcid]
      rcases List.mem_cons.mp hi with rfl | hi
      · exact Function.update_self ..
      · have hne : i ≠ id := fun he => hnew (he ▸ hi)
        rw [Function.update_of_ne hne]
        exact h.disk i hi
  · intro r hr e he hef
    refine hdis r.fid (List.mem_map_of_mem hr) e.fid ?_ hef.symm
    exact h.fids.mem_iff.mp (List.mem_map_of_mem he)
  · intro c hc he
    refine hnew ?_
    rw [← hcid, ← he]
    exact (h.mem_chunks hc).1

/-- The `readdir()` loop. -/
theorem Rebuilt.foldlM {dir : List DirEntry} (h : Rebuilt disk chunk recs done t)
    (hdir : List.Forall₂ (fun id d => d.valid = true ∧ d.file = disk id ∧
      ∀ k, (d.reads k).Whole) ids dir)
    (hchunk : ∀ id ∈ ids, (chunk id).chunkId = id ∧
      Synchronized (disk id) (chunk id) (recs id)) (hids : (ids.reverse ++ done).Nodup)
    (hfids : (((ids.reverse ++ done).flatMap recs).map Record.fid).Nodup) :
    ∃ t', dir.foldlM setupEntry t = .ok t' ∧ Rebuilt disk chunk recs (ids.reverse ++ done) t' := by
  induction hdir generalizing t done with
  | nil => exact ⟨t, rfl, h⟩
  | @cons id d ids dir hd _ ih =>
    obtain ⟨hvalid, hfile, hreads⟩ := hd
    rw [List.reverse_cons, List.append_assoc, List.singleton_append] at hids hfids ⊢
    obtain ⟨hcid, hsync⟩ := hchunk id (List.mem_cons_self ..)
    have hnd := hids.of_append_right
    have hsub := (List.sublist_append_right ids.reverse (id :: done))
    obtain ⟨u, hu, hr⟩ := h.setup hcid hsync hvalid hfile hreads
      (List.nodup_cons.mp hnd).1
      (hfids.sublist ((hsub.flatMap recs).map _))
    obtain ⟨t', ht', hr'⟩ := ih hr (fun i hi => hchunk i (List.mem_cons_of_mem _ hi)) hids hfids
    exact ⟨t', by rw [List.foldlM_cons, hu]; exact ht', hr'⟩

/-! ### The server that starts with it -/

theorem placed_map_snd {α : Type} (w : α → Nat) (pos : Nat) (xs : List α) :
    (placed w pos xs).map Prod.snd = xs := by
  induction xs generalizing pos with
  | nil => rfl
  | cons x xs ih => rw [placed, List.map_cons, ih]

/-- Record by record, the entries are what the index of a run has. -/
theorem forall₂_entriesAt (recs : UInt64 → List Record) (id : UInt64) :
    List.Forall₂ (fun r e => e.chunkId = id ∧ Indexed recs e r) (recs id)
      (entriesAt id 55 (recs id)) := by
  rw [entriesAt_eq]
  nth_rewrite 1 [← placed_map_snd (fun r : Record => r.bytes.length) 55 (recs id)]
  rw [List.forall₂_map_left_iff, List.forall₂_map_right_iff, List.forall₂_same]
  exact fun q hq => ⟨rfl, hq, rfl⟩

theorem entriesAt_chunkId {e : IndexEntry} (he : e ∈ entriesAt id 55 (recs id)) :
    e.chunkId = id := by
  rw [entriesAt_eq] at he
  obtain ⟨q, _, rfl⟩ := List.mem_map.mp he
  rfl

theorem entriesOf_append (xs ys : List IndexEntry) (id : UInt64) :
    entriesOf (xs ++ ys) id = entriesOf ys id ++ entriesOf xs id := by
  unfold entriesOf
  rw [List.filter_append, List.reverse_append]

theorem entriesOf_eq_nil {index : List IndexEntry} (h : ∀ e ∈ index, e.chunkId ≠ id) :
    entriesOf index id = [] :=
  List.eq_nil_iff_forall_not_mem.mpr fun e he => h e (mem_entriesOf.mp he).1 (mem_entriesOf.mp he).2

theorem entriesOf_flatMap (hids : ids.Nodup) (hid : id ∈ ids) :
    entriesOf (ids.flatMap fun id => (entriesAt id 55 (recs id)).reverse) id =
      entriesAt id 55 (recs id) := by
  induction ids with
  | nil => cases hid
  | cons i ids ih =>
    obtain ⟨hi, hids⟩ := List.nodup_cons.mp hids
    rw [List.flatMap_cons, entriesOf_append]
    rcases List.mem_cons.mp hid with rfl | hid
    · rw [@entriesOf_eq_nil _ (ids.flatMap _), List.nil_append, entriesOf,
        List.filter_eq_self.mpr, List.reverse_reverse]
      · intro e he
        rw [entriesAt_chunkId (List.mem_reverse.mp he)]
        exact beq_self_eq_true id
      · rintro e he rfl
        obtain ⟨j, hj, hej⟩ := List.mem_flatMap.mp he
        exact hi (entriesAt_chunkId (List.mem_reverse.mp hej) ▸ hj)
    · rw [ih hids hid, entriesOf_eq_nil, List.append_nil]
      rintro e he rfl
      exact hi (entriesAt_chunkId (List.mem_reverse.mp he) ▸ hid)

/-- The log of a server that would have written the records of the chunks itself. -/
def recordLog (recs : UInt64 → List Record) (ids : List UInt64) : List Answer :=
  (ids.flatMap fun id => (recs id).reverse).map fun r => .write 0 r.fid .success r.payload

theorem successWrites_recordLog (recs : UInt64 → List Record) (ids : List UInt64) :
    successWrites (recordLog recs ids) =
      (ids.flatMap fun id => (recs id).reverse).map fun r => (r.fid, r.payload) := by
  unfold successWrites recordLog
  rw [List.filterMap_map, ← List.filterMap_eq_map]
  rfl

theorem successReads_recordLog (recs : UInt64 → List Record) (ids : List UInt64) :
    successReads (recordLog recs ids) = [] := by
  unfold successReads recordLog
  rw [List.filterMap_map, List.filterMap_eq_nil_iff]
  exact fun _ _ => rfl

/-- The chunk of a recovered server. -/
theorem Rebuilt.chunk_eq (h : Rebuilt disk chunk recs ids t) (cfg : Config) (hid : id ∈ ids) :
    ∃ size, (Server.start cfg t).chunk id = { chunk id with fileSize := size } := by
  rw [← h.ids_eq] at hid
  obtain ⟨c, hc, rfl⟩ := List.mem_map.mp hid
  cases hf : t.st.chunks.find? fun x => x.chunkId == c.chunkId with
  | none =>
    have hne := List.find?_eq_none.mp hf c hc
    simp at hne
  | some x =>
    have hx : x.chunkId = c.chunkId := by simpa using List.find?_some hf
    obtain ⟨_, size, hsize⟩ := h.mem_chunks (List.mem_of_find?_eq_some hf)
    refine ⟨size, ?_⟩
    rw [← hx, ← hsize, hx]
    simp only [Server.start, hf, Option.getD_some]

/-- A recovered server is as good as one that has written the records itself. -/
theorem Rebuilt.orderly (h : Rebuilt disk chunk recs ids t) (cfg : Config) (hids : ids.Nodup)
    (hchunk : ∀ id ∈ ids, (chunk id).chunkId = id ∧
      Synchronized (disk id) (chunk id) (recs id))
    (hfids : ((ids.flatMap recs).map Record.fid).Nodup) :
    Orderly ((Server.start cfg t).ledger.relog (recordLog recs ids)) recs := by
  have hindex : (Server.start cfg t).chunkIndex = ids := h.ids_eq
  have hsync : ∀ id ∈ ids, ((Server.start cfg t).chunk id).chunkId = id ∧
      Synchronized (t.disk id) ((Server.start cfg t).chunk id) (recs id) := by
    intro id hid
    obtain ⟨size, he⟩ := h.chunk_eq cfg hid
    obtain ⟨hcid, hs⟩ := hchunk id hid
    rw [he, h.disk id hid]
    exact ⟨hcid, ⟨hs.layout, hs.offset, hs.total, hs.avail, hs.alloc, hs.count⟩, hs.superblock⟩
  refine ⟨⟨⟨fun _ _ => rfl, List.nodup_nil, nofun, nofun⟩, nofun, List.nodup_nil, nofun, ?_, ?_,
    ?_, ?_, ?_, ?_, ?_⟩, ?_, nofun, ?_⟩
  · show (t.st.chunks.map Chunk.chunkId).Nodup
    rw [h.ids_eq]; exact hids
  · exact fun id hid => ⟨hid, not_false⟩
  · intro id hid
    obtain ⟨hcid, hs⟩ := hsync id (hindex ▸ hid)
    exact ⟨hcid, hs.toLaid⟩
  · intro id hid _ _
    show entriesOf t.st.fileIndex id = _
    rw [h.index]
    exact entriesOf_flatMap hids (hindex ▸ hid)
  · show List.Forall₂ _ (successWrites (recordLog recs ids)) t.st.fileIndex
    rw [h.index, successWrites_recordLog, List.forall₂_map_left_iff]
    have hsame : List.Forall₂ (fun i j => i = j ∧ i ∈ ids) ids ids :=
      List.forall₂_same.mpr fun i hi => ⟨rfl, hi⟩
    refine List.rel_flatMap hsame ?_
    rintro i _ ⟨rfl, hi⟩
    rw [List.forall₂_reverse_iff]
    refine (forall₂_entriesAt recs i).imp fun r e ⟨hcid, hi'⟩ => ⟨?_, r, hi', rfl⟩
    rw [hcid]
    exact hindex ▸ hi
  · exact h.fids.nodup_iff.mpr hfids
  · intro r hr
    have hr' : r ∈ successReads (recordLog recs ids) := hr
    rw [successReads_recordLog] at hr'
    cases hr'
  · intro id hid
    exact (hsync id (hindex ▸ hid)).2.superblock
  · exact hindex ▸ hids

end Rebuild

/-! ## Lives -/

/-- An event of the running process, or the end of the process and a start on the files it has
left, in the order `readdir()` gives them. -/
inductive Life where
  | event (e : Event)
  | restart (create : UInt64 → Bool) (dir : List DirEntry)

/-- The log goes on over a restart: it is kept by the clients. -/
def LifeStep (cfg : Config) (s : Server) : Life → Server → Prop
  | .event e, s' => step cfg s e = .ok s' ∧ OneWritePerFid s e s'
  | .restart create dir, s' => DirectoryOf s dir ∧
      ∃ t, spyCreateOrRecoverFiles cfg create dir = .ok t ∧
        s' = (Server.start cfg t).relog s.answers

abbrev Lives (cfg : Config) : Server → Prop := Reach (Server.Fresh cfg) (LifeStep cfg)

/-- In any life the server is as one that has written all it found when it was started; `past`
is the log that server would have. -/
structure LifeInv (cfg : Config) (s : Server) (recs : UInt64 → List Record)
    (past : List Answer) : Prop where
  orderly : Orderly (s.ledger.relog past) recs
  inFlight : (inFlight s).Nodup
  chunks : s.chunkIndex.length = cfg.nChunks
  writes : (successWrites s.answers).Subperm (successWrites past)
  reads : ∀ r ∈ successReads s.answers, r.2.1 = r.2.2.length ∧
    (r.1, r.2.2) ∈ successWrites past

section Lives
variable {cfg : Config} {s s' : Server} {recs : UInt64 → List Record} {past : List Answer}

theorem successWrites_append (as bs : List Answer) :
    successWrites (as ++ bs) = successWrites as ++ successWrites bs :=
  List.filterMap_append

theorem successReads_append (as bs : List Answer) :
    successReads (as ++ bs) = successReads as ++ successReads bs :=
  List.filterMap_append

theorem LifeInv.event {e : Event} (h : LifeInv cfg s recs past) (hs : step cfg s e = .ok s')
    (hok : OneWritePerFid s e s') : ∃ recs' past', LifeInv cfg s' recs' past' := by
  have hf := h.orderly.inv.flow
  have hreal : Steps (· = .full) False True s.ledger s'.ledger :=
    step_sim ⟨hf.conns, hf.owners_nodup, hf.owners, hf.chunks_nodup, hf.chunks_mem, hf.ids⟩ hok.1
      (.inr ⟨h.inFlight, h.orderly.fresh⟩) (fun _ _ _ _ _ _ => trivial) hs
  -- the same steps, in the run of the server that has written everything itself
  obtain ⟨new, hnew, hrelog⟩ := hreal.relog
  have hsim := hrelog past
  obtain ⟨recs', ho⟩ := ReflTransGen.keeps (I := fun v => ∃ recs, Orderly v recs)
    (fun v v' ⟨recs, hv⟩ hstep => hv.step hstep) ⟨recs, h.orderly⟩ hsim
  have hids : s'.chunkIndex = s.chunkIndex :=
    ReflTransGen.keeps (I := fun v => v.chunkIndex = s.chunkIndex)
      (fun v v' hv hstep => hstep.chunkIndex_eq.trans hv) rfl hsim
  refine ⟨recs', new ++ past, ho, hok.2, hids ▸ h.chunks, ?_, ?_⟩
  · rw [show s'.answers = new ++ s.answers from hnew, successWrites_append, successWrites_append]
    exact (List.subperm_append_left _).mpr h.writes
  · intro r hr
    rw [show s'.answers = new ++ s.answers from hnew, successReads_append, List.mem_append] at hr
    rcases hr with hr | hr
    · refine ho.inv.reads r ?_
      show r ∈ successReads (new ++ past)
      rw [successReads_append]
      exact List.mem_append_left _ hr
    · obtain ⟨hlen, hm⟩ := h.reads r hr
      rw [successWrites_append]
      exact ⟨hlen, List.mem_append_right _ hm⟩

theorem LedgerInv.entry_of {v : Ledger} {lost : UInt64 → Prop} (h : LedgerInv v recs lost)
    {w : UInt64 × Bytes} (hw : w ∈ successWrites v.answers) :
    ∃ e ∈ v.fileIndex, Acknowledged v recs w e := by
  obtain ⟨i, hi, rfl⟩ := List.mem_iff_getElem.mp hw
  have hl := h.index.length_eq
  exact ⟨_, List.getElem_mem (hl ▸ hi), h.index.get hi (hl ▸ hi)⟩

theorem spyLookupFileIndex_of_mem {index : List IndexEntry} {e : IndexEntry} {fid : UInt64}
    (hnd : (index.map IndexEntry.fid).Nodup) (he : e ∈ index) (hfid : e.fid = fid) :
    spyLookupFileIndex index fid = some e := by
  cases hf : spyLookupFileIndex index fid with
  | none => exact absurd hfid (spyLookupFileIndex_none hf e he)
  | some e' =>
    obtain ⟨he', hfid'⟩ := spyLookupFileIndex_some hf
    rw [List.inj_on_of_nodup_map hnd he' he (hfid'.trans hfid.symm)]

theorem LifeInv.past_fids (h : LifeInv cfg s recs past) :
    ((successWrites past).map Prod.fst).Nodup := by
  rw [show successWrites past = successWrites (s.ledger.relog past).answers from rfl,
    h.orderly.inv.fids_eq]
  exact h.orderly.inv.fids

/-- What was acknowledged is among the records of the files. -/
theorem LifeInv.past_subperm (h : LifeInv cfg s recs past) (ids : List UInt64)
    (hids : ∀ id ∈ s.chunkIndex, id ∈ ids) :
    (successWrites past).Subperm (successWrites (recordLog recs ids)) := by
  refine List.subperm_of_subset ?_ fun w hw => ?_
  · exact List.Nodup.of_map Prod.fst h.past_fids
  · obtain ⟨e, _, hm, rec, hrec, heq⟩ := h.orderly.inv.entry_of hw
    rw [successWrites_recordLog, List.mem_map]
    refine ⟨rec, List.mem_flatMap.mpr ⟨_, hids _ hm, List.mem_reverse.mpr ?_⟩, heq.symm⟩
    have hplaced := List.mem_map_of_mem (f := Prod.snd) hrec.mem
    rwa [placed_map_snd] at hplaced

/-- The process can be started again at any moment, and everything is still there. -/
theorem LifeInv.restart (h : LifeInv cfg s recs past) {dir : List DirEntry}
    (hdir : DirectoryOf s dir) (create : UInt64 → Bool) :
    ∃ t, spyCreateOrRecoverFiles cfg create dir = .ok t ∧
      ∃ past', LifeInv cfg ((Server.start cfg t).relog s.answers) recs past' := by
  obtain ⟨ids, hperm, hfiles⟩ := hdir
  have hids : ids.Nodup := hperm.nodup_iff.mpr h.orderly.ids
  have hrev : ids.reverse.Nodup := List.nodup_reverse.mpr hids
  have hchunk : ∀ id ∈ ids, (s.chunk id).chunkId = id ∧
      Synchronized (s.disk id) (s.chunk id) (recs id) := by
    intro id hid
    have hm := hperm.mem_iff.mp hid
    exact ⟨(h.orderly.inv.laid id hm).1, h.orderly.inv.synchronized h.orderly.superblocks hm⟩
  have hfids : ((ids.reverse.flatMap recs).map Record.fid).Nodup :=
    h.orderly.fids_nodup h.inFlight hrev fun id hid => hperm.mem_iff.mp (List.mem_reverse.mp hid)
  have hempty : Rebuilt s.disk s.chunk recs [] .empty := ⟨.nil, rfl, nofun⟩
  obtain ⟨t, ht, hr⟩ := hempty.foldlM hfiles hchunk (by rwa [List.append_nil])
    (by rwa [List.append_nil])
  rw [List.append_nil] at hr
  have hlen : t.st.chunks.length = cfg.nChunks := by
    rw [← List.length_map Chunk.chunkId, hr.ids_eq, List.length_reverse, hperm.length_eq, h.chunks]
  refine ⟨t, ?_, recordLog recs ids.reverse, ?_⟩
  · unfold spyCreateOrRecoverFiles
    rw [ht]
    show (if t.st.chunks = [] then createChunks cfg create cfg.nChunks t else .ok t) = .ok t
    split
    · rename_i hnil
      rw [hnil] at hlen
      rw [← hlen]
      rfl
    · rfl
  · have hsub := h.past_subperm ids.reverse
      fun id hid => List.mem_reverse.mpr (hperm.mem_iff.mpr hid)
    refine ⟨?_, List.nodup_nil, ?_, h.writes.trans hsub, fun r hrd => ?_⟩
    · rw [Server.ledger_relog]
      exact hr.orderly cfg hrev (fun id hid => hchunk id (List.mem_reverse.mp hid)) hfids
    · show (t.st.chunks.map Chunk.chunkId).length = cfg.nChunks
      rw [List.length_map, hlen]
    · obtain ⟨hl, hm⟩ := h.reads r hrd
      exact ⟨hl, hsub.subset hm⟩

theorem Lives.inv (h : Lives cfg s) : ∃ recs past, LifeInv cfg s recs past := by
  refine h.invariant (I := fun s => ∃ recs past, LifeInv cfg s recs past) (fun s hs => ?_) ?_
  · obtain ⟨⟨recs, ho⟩, hnd, hlen⟩ := Run.orderly (.init hs)
    exact ⟨recs, s.answers, ho, hnd, hlen, List.Subperm.refl _, ho.inv.reads⟩
  · rintro s life s' - ⟨recs, past, hinv⟩ hs
    cases life with
    | event e => exact hinv.event hs.1 hs.2
    | restart create dir =>
      obtain ⟨hdir, t, ht, rfl⟩ := hs
      obtain ⟨t', ht', past', hinv'⟩ := hinv.restart hdir create
      obtain rfl := Except.ok.inj (ht.symm.trans ht')
      exact ⟨recs, past', hinv'⟩

/-- Acknowledged writes survive. However often the process ends between two events and is
started again, as long as every superblock is stored and no two WRITEs of one fid are in flight
together: a restart succeeds at every moment; no fid is acknowledged twice over all lives; every
WRITE acknowledged in any life is in the index, with its payload in the chunk file; and a READ
in any life returns that payload, and the same whenever it is repeated. -/
theorem acknowledged_writes_survive (h : Lives cfg s) :
    ((successWrites s.answers).map Prod.fst).Nodup ∧
    (∀ fid payload, (fid, payload) ∈ successWrites s.answers →
      ∃ entry, spyLookupFileIndex s.fileIndex fid = some entry ∧ entry.chunkId ∈ s.chunkIndex ∧
        ∃ rec : Record, rec.fid = fid ∧ rec.payload = payload ∧ entry.size = rec.bytes.length ∧
          Holds (s.disk entry.chunkId) entry.offset rec.bytes) ∧
    (∀ fid bodyLen body, (fid, bodyLen, body) ∈ successReads s.answers →
      bodyLen = body.length ∧
      (∀ payload, (fid, payload) ∈ successWrites s.answers → payload = body) ∧
      ∀ bodyLen' body', (fid, bodyLen', body') ∈ successReads s.answers → body' = body) ∧
    ∀ create dir, DirectoryOf s dir → ∃ t, spyCreateOrRecoverFiles cfg create dir = .ok t := by
  obtain ⟨recs, past, hinv⟩ := h.inv
  have hi := hinv.orderly.inv
  have hnd := hinv.past_fids
  have hunique : ∀ {fid p q}, (fid, p) ∈ successWrites past → (fid, q) ∈ successWrites past →
      p = q := fun hp hq => congrArg Prod.snd (List.inj_on_of_nodup_map hnd hp hq rfl)
  refine ⟨?_, fun fid payload hw => ?_, fun fid bodyLen body hr => ?_, fun create dir hdir => ?_⟩
  · obtain ⟨l, hl, hsub⟩ := hinv.writes
    exact (hl.map _).nodup_iff.mp (hnd.sublist (hsub.map _))
  · obtain ⟨entry, he, hm, rec, hrec, heq⟩ := hi.entry_of (hinv.writes.subset hw)
    obtain ⟨rfl, rfl⟩ := Prod.mk.inj heq
    have hfid : entry.fid = rec.fid := by rw [hrec.eq]; rfl
    exact ⟨entry, spyLookupFileIndex_of_mem hi.fids he hfid, hm, rec, rfl, rfl, hrec.size,
      (hi.record hm hrec).1⟩
  · obtain ⟨hlen, hm⟩ := hinv.reads _ hr
    exact ⟨hlen, fun payload hw => hunique (hinv.writes.subset hw) hm,
      fun _ body' hr' => hunique (hinv.reads _ hr').2 hm⟩
  · obtain ⟨t, ht, _⟩ := hinv.restart hdir create
    exact ⟨t, ht⟩

/-- `OneWritePerFid` as a test. -/
def onePerFid (s : Server) (e : Event) (s' : Server) : Bool :=
  decide (SuperblockStored s e) && decide (inFlight s').Nodup

theorem Lives.play (es : List Event) (h : Lives cfg s)
    (hs : play cfg onePerFid es s = .ok s') : Lives cfg s' := by
  induction es generalizing s with
  | nil => exact Except.ok.inj hs ▸ h
  | cons e es ih =>
    simp only [Chunkserver.play] at hs
    split at hs
    · cases hs
    · rename_i t ht
      split at hs
      · rename_i hok
        obtain ⟨h1, h2⟩ := Bool.and_eq_true_iff.mp hok
        exact ih (.next (e := .event e) h ⟨ht, of_decide_eq_true h1, of_decide_eq_true h2⟩) hs
      · cases hs

/-- What the sample server answers in its second life. -/
def secondLife (t : Started) (log : List Answer) : Except Fault (List Answer) :=
  (Chunkserver.play sampleConfig onePerFid (.accept :: readEvents.drop 2)
    ((Server.start sampleConfig t).relog log)).map Server.answers

set_option synthInstance.maxSize 512 in
/-- The file that was written in the first life is read in the second one. -/
theorem acknowledged_writes_survive_sampleWrite : ∃ s : Server,
    successReads s.answers = [(7, 3, [1, 2, 3])] ∧
    ∃ entry, spyLookupFileIndex s.fileIndex 7 = some entry ∧
      ∃ rec : Record, rec.payload = [1, 2, 3] ∧
        Holds (s.disk entry.chunkId) entry.offset rec.bytes := by
  have hplay : (Chunkserver.play sampleConfig onePerFid (writeEvents .full ++ [.done true])
      (newServer sampleConfig)).map (fun s => (s.chunkIndex,
        (spyCreateOrRecoverFiles sampleConfig (fun _ => false) (sampleDir s)).map fun t =>
          secondLife t s.answers)) =
      .ok ([2, 1], .ok (.ok [.read 0 7 .success 3 [1, 2, 3], .write 0 7 .success [1, 2, 3]])) := by
    decide +kernel
  obtain ⟨s, hs, hx⟩ := map_eq_ok hplay
  obtain ⟨hids, hx⟩ := Prod.mk.inj hx
  obtain ⟨t, ht, hx⟩ := map_eq_ok hx
  obtain ⟨s2, hs2, hlog⟩ := map_eq_ok hx
  have h1 : Lives sampleConfig s := Lives.play _ (.init newServer_fresh) hs
  have h2 : Lives sampleConfig ((Server.start sampleConfig t).relog s.answers) :=
    .next (e := .restart (fun _ => false) (sampleDir s)) h1
      ⟨sampleDir_directoryOf hids, t, ht, rfl⟩
  obtain ⟨-, hdurable, -⟩ := acknowledged_writes_survive (Lives.play _ h2 hs2)
  obtain ⟨entry, hlook, -, rec, -, hp, -, hholds⟩ :=
    hdurable 7 [1, 2, 3] (by rw [hlog]; exact List.mem_singleton.mpr rfl)
  exact ⟨s2, by rw [hlog]; rfl, entry, hlook, rec, hp, hholds⟩

end Lives
end Speedy.Chunkserver
