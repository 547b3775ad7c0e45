import Speedy.Chunkserver.Ledger
import Speedy.Lib.Run
import Mathlib.Data.List.Forall2

/-! # The invariant of the ledger

For some list of records per chunk, every chunk file holds its records below
`current_offset`, every index entry stands for a record whose payload was
acknowledged, every chunk is free, owned by one write or given up, and every job
is where its stage says. Each small step keeps this. -/
namespace Speedy.Chunkserver
open Speedy.Lib

/-! ## Connections -/

/-- Every connection is in one of its three modes, and waits for at most one job. -/
structure ConnInv (next : Nat) (conns : Nat → Option Connection) (waiting : List Nat) : Prop where
  fresh : ∀ c, next ≤ c → conns c = none
  nodup : waiting.Nodup
  live : ∀ c ∈ waiting, ∃ conn, conns c = some conn
  ok : ∀ c conn, conns c = some conn → ConnOk conn (c ∈ waiting)

theorem ConnOk.congr {conn : Connection} {p q : Prop} (h : ConnOk conn p) (hpq : p ↔ q) :
    ConnOk conn q := by
  unfold ConnOk at h ⊢
  cases hs : conn.state <;> rw [hs] at h <;> simp only [← hpq] <;> exact h

theorem Waits.ok {conn : Connection} {p : Prop} (h : Waits conn) (hp : p) : ConnOk conn p := by
  unfold ConnOk
  rw [h.state]
  exact ⟨h.readable, h.writable, hp⟩

theorem ConnOk.waits {conn : Connection} {p : Prop} (h : ConnOk conn p) (hp : p) : Waits conn := by
  unfold ConnOk at h
  cases hs : conn.state with
  | receiveHdr => rw [hs] at h; exact absurd hp h.2.2.2.2
  | receiveBody => rw [hs] at h; exact absurd hp h.2.2.2.2.2.2
  | processRequest => rw [hs] at h; exact ⟨hs, h.1, h.2.1⟩
  | sendRsp => rw [hs] at h; exact absurd hp h.2

section Conn
variable {next c : Nat} {conns : Nat → Option Connection} {waiting rest : List Nat}
  {conn : Connection}

theorem ConnInv.lt (h : ConnInv next conns waiting) (hc : conns c = some conn) : c < next := by
  by_contra hge
  have := h.fresh c (Nat.le_of_not_lt hge)
  rw [hc] at this
  cases this

theorem ConnInv.perm (h : ConnInv next conns waiting) (hp : waiting.Perm rest) :
    ConnInv next conns rest := by
  refine ⟨h.fresh, hp.nodup_iff.mp h.nodup, fun c hc => h.live c (hp.mem_iff.mpr hc), ?_⟩
  intro c conn hc
  exact (h.ok c conn hc).congr hp.mem_iff

/-- One connection changes, and with it perhaps what it waits for. -/
theorem ConnInv.set (h : ConnInv next conns waiting) (hc : ∃ old, conns c = some old)
    {new : Option Connection} {waiting' : List Nat} (hnd : waiting'.Nodup)
    (hmem : ∀ i, i ≠ c → (i ∈ waiting' ↔ i ∈ waiting))
    (hnew : ∀ conn, new = some conn → ConnOk conn (c ∈ waiting'))
    (hlive : c ∈ waiting' → ∃ conn, new = some conn) :
    ConnInv next (fun i => if i = c then new else conns i) waiting' := by
  obtain ⟨old, hold⟩ := hc
  have hlt := h.lt hold
  refine ⟨fun i hi => ?_, hnd, fun i hi => ?_, fun i conn hi => ?_⟩
  · rw [if_neg (by omega)]
    exact h.fresh i hi
  · by_cases hic : i = c
    · subst hic
      rw [if_pos rfl]
      exact hlive hi
    · rw [if_neg hic]
      exact h.live i ((hmem i hic).mp hi)
  · by_cases hic : i = c
    · subst hic
      rw [if_pos rfl] at hi
      exact hnew conn hi
    · rw [if_neg hic] at hi
      exact (h.ok i conn hi).congr (hmem i hic).symm

theorem ConnInv.idle (h : ConnInv next conns waiting) (hc : ∃ old, conns c = some old)
    (hw : c ∉ waiting) (hok : ConnOk conn False) :
    ConnInv next (fun i => if i = c then some conn else conns i) waiting := by
  refine h.set hc h.nodup (fun _ _ => Iff.rfl) ?_ fun hin => absurd hin hw
  intro conn' he
  obtain rfl := Option.some.inj he
  exact hok.congr ⟨False.elim, hw⟩

theorem ConnInv.submit (h : ConnInv next conns waiting) (hc : ∃ old, conns c = some old)
    (hw : c ∉ waiting) (hok : Waits conn) :
    ConnInv next (fun i => if i = c then some conn else conns i) (c :: waiting) := by
  refine h.set hc (List.nodup_cons.mpr ⟨hw, h.nodup⟩) ?_ ?_ fun _ => ⟨conn, rfl⟩
  · intro i hi
    rw [List.mem_cons]
    exact ⟨fun hm => hm.resolve_left hi, .inr⟩
  · intro conn' he
    obtain rfl := Option.some.inj he
    exact hok.ok (List.mem_cons_self ..)

/-- A connection stops waiting. -/
theorem ConnInv.release (h : ConnInv next conns (c :: rest)) {new : Option Connection}
    (hok : ∀ conn, new = some conn → ConnOk conn False) :
    ConnInv next (fun i => if i = c then new else conns i) rest := by
  obtain ⟨hc, hnd⟩ := List.nodup_cons.mp h.nodup
  refine h.set (h.live c (List.mem_cons_self ..)) hnd ?_ ?_ fun hin => absurd hin hc
  · intro i hi
    rw [List.mem_cons]
    exact ⟨.inr, fun hm => hm.resolve_left hi⟩
  · intro conn he
    exact (hok conn he).congr ⟨False.elim, hc⟩

/-- A waiting connection changes and goes on waiting. -/
theorem ConnInv.update (h : ConnInv next conns waiting) (hw : c ∈ waiting) (hok : Waits conn) :
    ConnInv next (fun i => if i = c then some conn else conns i) waiting := by
  refine h.set (h.live c hw) h.nodup (fun _ _ => Iff.rfl) ?_ fun _ => ⟨conn, rfl⟩
  intro conn' he
  obtain rfl := Option.some.inj he
  exact hok.ok hw

theorem ConnInv.accept (h : ConnInv next conns waiting) :
    ConnInv (next + 1) (fun i => if i = next then some .new else conns i) waiting := by
  have hnw : next ∉ waiting := by
    intro hin
    obtain ⟨conn, hc⟩ := h.live next hin
    rw [h.fresh next (Nat.le_refl _)] at hc
    cases hc
  refine ⟨fun i hi => ?_, h.nodup, fun i hi => ?_, fun i conn hi => ?_⟩
  · rw [if_neg (by omega)]
    exact h.fresh i (by omega)
  · have hne : i ≠ next := fun he => hnw (he ▸ hi)
    rw [if_neg hne]
    exact h.live i hi
  · by_cases hin : i = next
    · rw [if_pos hin] at hi
      obtain rfl := Option.some.inj hi
      exact ⟨rfl, rfl, rfl, rfl, hin ▸ hnw⟩
    · rw [if_neg hin] at hi
      exact h.ok i conn hi

end Conn

/-! ## Chunks, index and jobs -/

/-- A chunk leaves the free list. -/
theorem take_perm {id : UInt64} {chunks writing : List UInt64} (hid : id ∈ chunks) :
    (chunks.erase id ++ id :: writing).Perm (chunks ++ writing) := by
  refine List.perm_middle.trans ?_
  rw [← List.cons_append]
  exact (List.perm_cons_erase hid).symm.append_right writing

theorem give_perm {id : UInt64} {chunks writing : List UInt64} (hid : id ∈ writing) :
    ((chunks ++ [id]) ++ writing.erase id).Perm (chunks ++ writing) := by
  rw [List.append_assoc, List.singleton_append]
  exact (List.perm_cons_erase hid).symm.append_left chunks

/-- An acknowledged WRITE and the index entry it got. -/
def Acknowledged (v : Ledger) (recs : UInt64 → List Record) (w : UInt64 × Bytes)
    (e : IndexEntry) : Prop :=
  e.chunkId ∈ v.chunkIndex ∧ ∃ rec, Indexed recs e rec ∧ w = (rec.fid, rec.payload)

structure LedgerInv (v : Ledger) (recs : UInt64 → List Record) (lost : UInt64 → Prop) : Prop where
  conns : ConnInv v.nextConn v.conns v.waiting
  works : ∀ x ∈ v.works, ∀ conn, v.conns x.1.conn = some conn → WorkOk v recs conn x
  owners_nodup : (v.works.filterMap owner).Nodup
  owners : ∀ id ∈ v.works.filterMap owner, id ∈ v.chunkIndex ∧ id ∉ v.chunks ∧ ¬ lost id
  chunks_nodup : v.chunks.Nodup
  chunks_mem : ∀ id ∈ v.chunks, id ∈ v.chunkIndex ∧ ¬ lost id
  laid : ∀ id ∈ v.chunkIndex, (v.chunk id).chunkId = id ∧ Laid (v.disk id) (v.chunk id) (recs id)
  exact_ : ∀ id ∈ v.chunkIndex, ¬ lost id → (∀ x ∈ v.works, ¬ Committed id x) →
    entriesOf v.fileIndex id = entriesAt id 55 (recs id)
  index : List.Forall₂ (Acknowledged v recs) (successWrites v.answers) v.fileIndex
  fids : (v.fileIndex.map IndexEntry.fid).Nodup
  reads : ∀ r ∈ successReads v.answers, r.2.1 = r.2.2.length ∧
    (r.1, r.2.2) ∈ successWrites v.answers

/-- What a job on chunk `id` can see has not changed. -/
structure Keeps (v v' : Ledger) (recs recs' : UInt64 → List Record) (id : UInt64) : Prop where
  disk : v'.disk id = v.disk id
  chunk : v'.chunk id = v.chunk id
  recs : recs' id = recs id
  entries : entriesOf v'.fileIndex id = entriesOf v.fileIndex id

theorem Indexed.mono {recs recs' : UInt64 → List Record} {e : IndexEntry} {rec : Record}
    (h : Indexed recs e rec) (hp : ∀ id, recs id <+: recs' id) : Indexed recs' e rec := by
  refine ⟨?_, h.eq⟩
  obtain ⟨t, ht⟩ := hp e.chunkId
  rw [← ht, placed_append]
  exact List.mem_append_left _ h.mem

section Mono
variable {v v' : Ledger} {recs recs' : UInt64 → List Record} {conn : Connection} {job : IoJob}

theorem Placed.keep (h : Placed v job) (hk : Keeps v v' recs recs' job.chunk) : Placed v' job := by
  refine ⟨?_, ?_⟩
  · rw [hk.chunk]; exact h.offset
  · rw [hk.chunk]; exact h.fits

theorem Appended.keep (h : Appended v recs job conn) (hk : Keeps v v' recs recs' job.chunk) :
    Appended v' recs' job conn := by
  obtain ⟨rs, rec, hr, ho, hf, hp, hl, hs, he⟩ := h
  exact ⟨rs, rec, hk.recs.trans hr, ho, hf, hp, hl, hs, hk.entries.trans he⟩

theorem WritingOk.keep {pc : WritePc} (h : WritingOk v recs job conn pc)
    (hk : Keeps v v' recs recs' job.chunk) : WritingOk v' recs' job conn pc := by
  cases pc with
  | finished retcode => exact fun hz => (h hz).keep hk
  | header =>
    obtain ⟨hp, request, d0, hl, hw⟩ := h
    refine ⟨hp.keep hk, request, d0, hl, ?_⟩
    rw [hk.disk, hk.chunk]; exact hw
  | body offset left =>
    obtain ⟨hp, request, d0, hl, hw⟩ := h
    refine ⟨hp.keep hk, request, d0, hl, ?_⟩
    rw [hk.disk, hk.chunk]; exact hw
  | commit =>
    obtain ⟨hp, request, d0, hl, hw⟩ := h
    refine ⟨hp.keep hk, request, d0, hl, ?_⟩
    rw [hk.disk, hk.chunk]; exact hw

theorem owner_write {stage : Stage} (hf : job.fn = .write) (hs : stage ≠ .pending) :
    owner (.io job, stage) = some job.chunk := by
  simp only [owner]
  rw [if_pos ⟨hf, hs⟩]

theorem owner_none {stage : Stage} (hf : job.fn ≠ .write) : owner (.io job, stage) = none := by
  simp only [owner]
  rw [if_neg fun h => hf h.1]

/-- A job is still where it was when nothing happened to its own chunk, the
records only grew and no acknowledgement was taken back. -/
theorem WorkOk.keep {x : Work × Stage} (h : WorkOk v recs conn x)
    (hown : ∀ id, owner x = some id → Keeps v v' recs recs' id)
    (hp : ∀ id, recs id <+: recs' id) (hidx : v'.chunkIndex = v.chunkIndex)
    (ha : ∀ w ∈ successWrites v.answers, w ∈ successWrites v'.answers) :
    WorkOk v' recs' conn x := by
  cases h with
  | parked job fn loaded => exact .parked job fn loaded
  | placed job fn place loaded =>
    exact .placed job fn (place.keep (hown _ (owner_write fn (by simp)))) loaded
  | writing job pc fn state =>
    exact .writing job pc fn (state.keep (hown _ (owner_write fn (by simp))))
  | written job fn state =>
    exact .written job fn fun hz => (state hz).keep (hown _ (owner_write fn (by simp)))
  | reading job stage pc rec fn at_ chunk mem indexed said state =>
    exact .reading job stage pc rec fn at_ chunk (hidx ▸ mem) (indexed.mono hp) (ha _ said) state
  | plain work stage hw hs => exact .plain work stage hw hs

end Mono

/-! ## Steps that leave the store alone -/

/-- Only connections, jobs and answers other than successful WRITEs differ. -/
structure SameStore (v v' : Ledger) : Prop where
  disk : v'.disk = v.disk
  chunk : v'.chunk = v.chunk
  chunkIndex : v'.chunkIndex = v.chunkIndex
  chunks : v'.chunks = v.chunks
  fileIndex : v'.fileIndex = v.fileIndex
  writes : successWrites v'.answers = successWrites v.answers

theorem successWrites_quiet {a : Answer} (h : a.Quiet) (as : List Answer) :
    successWrites (a :: as) = successWrites as := by
  unfold successWrites
  rw [List.filterMap_cons_none]
  cases a with
  | write c fid error payload =>
    cases error with
    | success => exact absurd rfl h
    | _ => rfl
  | read => rfl
  | other => rfl

theorem successReads_quiet {a : Answer} (h : a.Quiet) (as : List Answer) :
    successReads (a :: as) = successReads as := by
  unfold successReads
  rw [List.filterMap_cons_none]
  cases a with
  | read c fid error bodyLen body =>
    cases error with
    | success => exact absurd rfl h
    | _ => rfl
  | write => rfl
  | other => rfl

theorem quiet_append {as : List Answer} (h : ∀ a ∈ as, a.Quiet) (bs : List Answer) :
    successWrites (as ++ bs) = successWrites bs ∧ successReads (as ++ bs) = successReads bs := by
  induction as with
  | nil => exact ⟨rfl, rfl⟩
  | cons a as ih =>
    obtain ⟨h1, h2⟩ := ih fun b hb => h b (List.mem_cons_of_mem _ hb)
    have ha := h a (List.mem_cons_self ..)
    rw [List.cons_append, successWrites_quiet ha, successReads_quiet ha]
    exact ⟨h1, h2⟩

theorem Committed.owner {id : UInt64} {x : Work × Stage} (h : Committed id x) :
    owner x = some id := by
  obtain ⟨work, stage⟩ := x
  cases work with
  | dump job => exact h.elim
  | io job =>
    obtain ⟨hf, hc, hs⟩ := h
    rw [owner_write hf (by rcases hs with hs | ⟨hs, _⟩ <;> rw [hs] <;> simp), hc]

section SameStore
variable {v v' : Ledger} {recs : UInt64 → List Record} {lost : UInt64 → Prop}

theorem SameStore.keeps (h : SameStore v v') (id : UInt64) : Keeps v v' recs recs id :=
  ⟨by rw [h.disk], by rw [h.chunk], rfl, by rw [h.fileIndex]⟩

theorem SameStore.work (hs : SameStore v v') {conn : Connection} {x : Work × Stage}
    (h : WorkOk v recs conn x) : WorkOk v' recs conn x :=
  h.keep (fun _ _ => hs.keeps _) (fun _ => List.prefix_rfl) hs.chunkIndex
    fun w hw => by rw [hs.writes]; exact hw

/-- The jobs of `rest` stay, those of `new` are where their stages say, and no
chunk changes hands. -/
theorem LedgerInv.jobs (h : LedgerInv v recs lost) (new : List (Work × Stage)) (hs : SameStore v v')
    (hreads : ∀ r ∈ successReads v'.answers, r ∈ successReads v.answers ∨
      r.2.1 = r.2.2.length ∧ (r.1, r.2.2) ∈ successWrites v.answers)
    (hc : ConnInv v'.nextConn v'.conns v'.waiting) {rest : List (Work × Stage)}
    (hw : v'.works = new ++ rest)
    (hrest : ∀ y ∈ rest, y ∈ v.works ∧ v'.conns y.1.conn = v.conns y.1.conn)
    (hnew : ∀ x ∈ new, ∀ conn, v'.conns x.1.conn = some conn → WorkOk v' recs conn x)
    (hown : (v'.works.filterMap owner).Perm (v.works.filterMap owner))
    (hcom : ∀ id, (∃ x ∈ v.works, Committed id x) → ∃ x ∈ v'.works, Committed id x) :
    LedgerInv v' recs lost := by
  refine ⟨hc, ?_, ?_, ?_, ?_, ?_, ?_, ?_, ?_, ?_, ?_⟩
  · intro x hx conn hconn
    rw [hw] at hx
    rcases List.mem_append.mp hx with hx | hx
    · exact hnew x hx conn hconn
    · obtain ⟨hm, he⟩ := hrest x hx
      exact hs.work (h.works x hm conn (he.symm.trans hconn))
  · exact hown.nodup_iff.mpr h.owners_nodup
  · intro id hid
    rw [hs.chunkIndex, hs.chunks]
    exact h.owners id (hown.mem_iff.mp hid)
  · rw [hs.chunks]; exact h.chunks_nodup
  · rw [hs.chunks, hs.chunkIndex]; exact h.chunks_mem
  · rw [hs.chunkIndex, hs.chunk, hs.disk]; exact h.laid
  · intro id hid hl hno
    rw [hs.chunkIndex] at hid
    rw [hs.fileIndex]
    refine h.exact_ id hid hl fun x hx hcx => ?_
    obtain ⟨y, hy, hcy⟩ := hcom id ⟨x, hx, hcx⟩
    exact hno y hy hcy
  · rw [hs.writes, hs.fileIndex]
    refine h.index.imp fun w e hwe => ?_
    unfold Acknowledged at hwe ⊢
    rw [hs.chunkIndex]
    exact hwe
  · rw [hs.fileIndex]; exact h.fids
  · intro r hr
    rw [hs.writes]
    exact (hreads r hr).elim (h.reads r) id

/-- The jobs behind the first one wait on other connections. -/
theorem LedgerInv.rest_ne (h : LedgerInv v recs lost) {x : Work × Stage}
    {rest : List (Work × Stage)} (hw : v.works = x :: rest) : ∀ y ∈ rest, y.1.conn ≠ x.1.conn := by
  have hnd := h.conns.nodup
  unfold Ledger.waiting at hnd
  rw [hw, List.map_cons, List.nodup_cons] at hnd
  intro y hy he
  exact hnd.1 (he ▸ List.mem_map.mpr ⟨y, hy, rfl⟩)

theorem LedgerInv.idle_ne (_ : LedgerInv v recs lost) {c : Nat} (hc : c ∉ v.waiting) :
    ∀ y ∈ v.works, y.1.conn ≠ c := by
  intro y hy he
  exact hc (he ▸ List.mem_map.mpr ⟨y, hy, rfl⟩)

theorem SameStore.conn {c : Nat} {conn : Connection} {works : List (Work × Stage)} :
    SameStore v { v.setConn c conn with works := works } :=
  ⟨rfl, rfl, rfl, rfl, rfl, rfl⟩

/-- A connection that waits for nothing changes. -/
theorem LedgerInv.idle (h : LedgerInv v recs lost) {c : Nat} {conn : Connection}
    {as : List Answer} (live : ∃ old, v.conns c = some old) (idle : c ∉ v.waiting)
    (ok : ConnOk conn False) (quiet : ∀ a ∈ as, a.Quiet) :
    LedgerInv { v.setConn c conn with answers := as ++ v.answers } recs lost := by
  obtain ⟨hw, hr⟩ := quiet_append quiet v.answers
  refine h.jobs [] ⟨rfl, rfl, rfl, rfl, rfl, hw⟩ (fun r h => .inl (hr ▸ h))
    (h.conns.idle live idle ok) rfl ?_ (by simp) (List.Perm.refl _) fun id hx => hx
  intro y hy
  exact ⟨hy, if_neg (h.idle_ne idle y hy)⟩

theorem LedgerInv.drop (h : LedgerInv v recs lost) {c : Nat}
    (live : ∃ old, v.conns c = some old) (idle : c ∉ v.waiting) :
    LedgerInv (v.dropConn c) recs lost := by
  have hc : ConnInv v.nextConn (fun i => if i = c then none else v.conns i) v.waiting :=
    h.conns.set live h.conns.nodup (fun _ _ => Iff.rfl) nofun fun hin => absurd hin idle
  refine h.jobs [] ⟨rfl, rfl, rfl, rfl, rfl, rfl⟩ (fun r h => .inl h) hc rfl ?_ (by simp)
    (List.Perm.refl _) fun id hx => hx
  intro y hy
  exact ⟨hy, if_neg (h.idle_ne idle y hy)⟩

theorem LedgerInv.shuffle (h : LedgerInv v recs lost) {works : List (Work × Stage)}
    (perm : v.works.Perm works) : LedgerInv { v with works := works } recs lost := by
  have hc : ConnInv v.nextConn v.conns (works.map fun x => x.1.conn) :=
    h.conns.perm (perm.map fun x : Work × Stage => x.1.conn)
  refine h.jobs [] ⟨rfl, rfl, rfl, rfl, rfl, rfl⟩ (fun r h => .inl h) hc rfl ?_ (by simp)
    (perm.filterMap owner).symm ?_
  · intro y hy
    exact ⟨perm.mem_iff.mpr hy, rfl⟩
  · rintro id ⟨x, hx, hcx⟩
    exact ⟨x, perm.mem_iff.mp hx, hcx⟩

theorem LedgerInv.accept (h : LedgerInv v recs lost) :
    LedgerInv { v.setConn v.nextConn .new with nextConn := v.nextConn + 1 } recs lost := by
  refine h.jobs [] ⟨rfl, rfl, rfl, rfl, rfl, rfl⟩ (fun r h => .inl h) h.conns.accept rfl ?_
    (by simp)
    (List.Perm.refl _) fun id hx => hx
  intro y hy
  refine ⟨hy, if_neg fun he => ?_⟩
  obtain ⟨conn, hc⟩ := h.conns.live _ (List.mem_map.mpr ⟨y, hy, rfl⟩)
  rw [he, h.conns.fresh _ (Nat.le_refl _)] at hc
  cases hc

/-- A new job that owns no chunk. -/
theorem LedgerInv.submit (h : LedgerInv v recs lost) {x : Work × Stage} {conn : Connection}
    (submit : Submit v x.1.conn conn) (free : owner x = none)
    (ok : WorkOk { v.setConn x.1.conn conn with works := x :: v.works } recs conn x) :
    LedgerInv { v.setConn x.1.conn conn with works := x :: v.works } recs lost := by
  have hown : ((x :: v.works).filterMap owner).Perm (v.works.filterMap owner) := by
    rw [List.filterMap_cons_none free]
  refine h.jobs [x] .conn (fun r h => .inl h)
    (h.conns.submit submit.live submit.idle submit.waits) rfl ?_ ?_
    hown fun id ⟨y, hy, hc⟩ => ⟨y, List.mem_cons_of_mem _ hy, hc⟩
  · intro y hy
    exact ⟨hy, if_neg (h.idle_ne submit.idle y hy)⟩
  · intro y hy conn' hconn
    rw [List.mem_singleton] at hy
    subst hy
    obtain rfl : conn = conn' := Option.some.inj ((if_pos rfl).symm.trans hconn)
    exact ok

/-- The first job advances; its connection may change but goes on waiting. -/
theorem LedgerInv.advance (h : LedgerInv v recs lost) {x x' : Work × Stage}
    {rest : List (Work × Stage)} {conn : Connection} (works : v.works = x :: rest)
    (same : x'.1.conn = x.1.conn) (waits : Waits conn) (own : owner x' = owner x)
    (com : ∀ id, Committed id x → Committed id x')
    (ok : WorkOk { v.setConn x.1.conn conn with works := x' :: rest } recs conn x') :
    LedgerInv { v.setConn x.1.conn conn with works := x' :: rest } recs lost := by
  have hin : x.1.conn ∈ v.waiting := by
    unfold Ledger.waiting; rw [works]; exact List.mem_cons_self ..
  have hwait : (x' :: rest).map (fun y => y.1.conn) = v.waiting := by
    unfold Ledger.waiting; rw [works, List.map_cons, List.map_cons, same]
  have hc : ConnInv v.nextConn (fun i => if i = x.1.conn then some conn else v.conns i)
      ((x' :: rest).map fun y => y.1.conn) := by
    rw [hwait]; exact h.conns.update hin waits
  refine h.jobs [x'] .conn (fun r h => .inl h) hc rfl ?_ ?_ ?_ ?_
  · intro y hy
    refine ⟨?_, if_neg (h.rest_ne works y hy)⟩
    rw [works]; exact List.mem_cons_of_mem _ hy
  · intro y hy conn' hconn
    rw [List.mem_singleton] at hy
    subst hy
    have hconn' :
        (if y.1.conn = x.1.conn then some conn else v.conns y.1.conn) = some conn' := hconn
    rw [if_pos same] at hconn'
    obtain rfl := Option.some.inj hconn'
    exact ok
  · rw [works, List.filterMap_cons, List.filterMap_cons, own]
  · rintro id ⟨y, hy, hcy⟩
    rw [works] at hy
    rcases List.mem_cons.mp hy with rfl | hy
    · exact ⟨x', List.mem_cons_self .., com id hcy⟩
    · exact ⟨y, List.mem_cons_of_mem _ hy, hcy⟩

/-- The first job, which owns no chunk, is answered. -/
theorem LedgerInv.reply (h : LedgerInv v recs lost) (as : List Answer) {x : Work × Stage}
    {rest : List (Work × Stage)} {new : Option Connection}
    (works : v.works = x :: rest) (free : owner x = none)
    (ok : ∀ conn, new = some conn → ConnOk conn False)
    (writes : successWrites (as ++ v.answers) = successWrites v.answers)
    (reads : ∀ r ∈ successReads (as ++ v.answers), r ∈ successReads v.answers ∨
      r.2.1 = r.2.2.length ∧ (r.1, r.2.2) ∈ successWrites v.answers) :
    LedgerInv { v with
      conns := fun i => if i = x.1.conn then new else v.conns i
      works := rest
      answers := as ++ v.answers } recs lost := by
  have hci := h.conns
  unfold Ledger.waiting at hci
  rw [works, List.map_cons] at hci
  refine h.jobs [] ⟨rfl, rfl, rfl, rfl, rfl, writes⟩ reads (hci.release ok) rfl ?_
    (by simp) ?_ ?_
  · intro y hy
    refine ⟨?_, if_neg (h.rest_ne works y hy)⟩
    rw [works]; exact List.mem_cons_of_mem _ hy
  · rw [works, List.filterMap_cons_none free]
  · rintro id ⟨y, hy, hcy⟩
    rw [works] at hy
    rcases List.mem_cons.mp hy with rfl | hy
    · rw [hcy.owner] at free; cases free
    · exact ⟨y, hy, hcy⟩

end SameStore

end Speedy.Chunkserver
