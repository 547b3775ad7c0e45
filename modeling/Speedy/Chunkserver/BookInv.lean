import Speedy.Chunkserver.Books
import Mathlib.Data.List.Nodup

/-! # The books balance

One invariant per ledger page: the connection table with the memory blocks, the
jobs with their slots and counters, the chunk lists, and the marks. Each is kept by
every transaction. -/
namespace Speedy.Chunkserver
open Speedy.Lib

/-! ## The connection table -/

/-- A weight of connections, zero where there is none. -/
def weigh (w : Connection → Nat) : Option Connection → Nat
  | none => 0
  | some conn => w conn

theorem weigh_none (w : Connection → Nat) : weigh w none = 0 := rfl

theorem weigh_some (w : Connection → Nat) (conn : Connection) : weigh w (some conn) = w conn := rfl

/-- `limit` is the limit of memory blocks the server was started with. -/
structure ConnBooks (limit next : Nat) (conns : Nat → Option Connection) (count : Nat)
    (mem : MemBlocks) : Prop where
  fine : ∀ c conn, conns c = some conn → conn.Fine
  live : count = u32 (tally next fun c => weigh (fun _ => 1) (conns c))
  used : mem.used = tally next fun c => weigh Connection.held (conns c)
  total : mem.used + mem.free = mem.alloc
  alloc : mem.alloc ≤ max 16 limit
  limit : mem.limit = limit

theorem u32_pred (n : Nat) : u32 ((u32 (n + 1 : Nat) : Int) - 1) = u32 n := by
  unfold u32; omega

theorem u32_succ (n : Nat) : u32 ((u32 n : Int) + 1) = u32 (n + 1 : Nat) := by
  unfold u32; omega

section Table
variable {limit next c : Nat} {conns : Nat → Option Connection} {count : Nat} {mem : MemBlocks}
  {v : Books} {new : Option Connection}

/-- A connection held no more blocks than are in use. -/
theorem ConnBooks.held_le (h : ConnBooks limit next conns count mem) {conn : Connection}
    (hlt : c < next) (hc : conns c = some conn) : conn.held ≤ mem.used := by
  rw [h.used]
  have hle := le_tally (fun c => weigh Connection.held (conns c)) hlt
  simp only [hc] at hle
  exact hle

theorem Effect.table (eff : Effect v c new mem count)
    (h : ConnBooks limit v.nextConn v.conns v.connCount v.mem) (hlt : c < v.nextConn)
    (fine : ∀ conn, new = some conn → conn.Fine) :
    ConnBooks limit v.nextConn (fun i => if i = c then new else v.conns i) count mem := by
  have hfine : ∀ i conn, (if i = c then new else v.conns i) = some conn → conn.Fine := by
    intro i conn hi
    by_cases hic : i = c
    · rw [if_pos hic] at hi; exact fine conn hi
    · rw [if_neg hic] at hi; exact h.fine i conn hi
  have hlive := tally_set (weigh fun _ => 1) v.conns new hlt
  have hheld := tally_set (weigh Connection.held) v.conns new hlt
  have h1 := h.live
  have h2 := h.used
  have h3 := h.total
  have h4 := h.alloc
  have h5 := h.limit
  cases eff with
  | @keep old conn mem n live draws held =>
    simp only [live, weigh_some] at hlive hheld
    have h6 := draws.used
    have h7 := draws.alloc
    refine ⟨hfine, ?_, ?_, draws.total h3, ?_, draws.limit.trans h5⟩
    · rw [h1]; congr 2; omega
    · omega
    · omega
  | @reset old conn mem n live draws held =>
    simp only [live, weigh_some] at hlive hheld
    have hle := h.held_le hlt live
    have h6 := draws.used
    have h7 := draws.alloc
    have h8 := draws.total h3
    refine ⟨hfine, ?_, ?_, ?_, ?_, draws.limit.trans h5⟩
    · rw [h1]; congr 2; omega
    all_goals simp only [MemBlocks.giveBack]; omega
  | @free old mem n live draws =>
    simp only [live, weigh_none, weigh_some] at hlive hheld
    have hle := h.held_le hlt live
    have h6 := draws.used
    have h7 := draws.alloc
    have h8 := draws.total h3
    refine ⟨hfine, ?_, ?_, ?_, ?_, draws.limit.trans h5⟩
    · rw [h1, ← Nat.add_zero (tally v.nextConn fun c => weigh (fun _ => 1) (v.conns c)), ← hlive]
      exact u32_pred _
    all_goals simp only [MemBlocks.giveBack]; omega

theorem Connection.new_fine : Connection.new.Fine :=
  ⟨⟨Nat.le_refl _, Nat.le_refl _⟩, ⟨Nat.le_refl _, Nat.le_refl _⟩, fun _ => rfl, nofun⟩

theorem ConnBooks.accept (h : ConnBooks limit next conns count mem) :
    ConnBooks limit (next + 1) (fun i => if i = next then some .new else conns i)
      (u32 (count + 1)) mem := by
  refine ⟨fun i conn hi => ?_, ?_, ?_, h.total, h.alloc, h.limit⟩
  · by_cases hin : i = next
    · rw [if_pos hin] at hi
      exact Option.some.inj hi ▸ Connection.new_fine
    · rw [if_neg hin] at hi
      exact h.fine i conn hi
  · rw [tally_push (weigh fun _ => 1) conns (some .new), h.live]
    exact u32_succ _
  · rw [tally_push (weigh Connection.held) conns (some .new), h.used]
    rfl

end Table

/-! ## Jobs and counters -/

structure JobBooks (works : List (Work × Stage)) (free : List Nat)
    (pending writing reading : Nat) : Prop where
  slots : (free ++ works.filterMap slotOf).Perm (List.range defMaxIoJobs)
  pending_eq : pending = works.countP isPending
  pending_le : pending ≤ defMaxPendingWrites
  writing_eq : writing = (works.filterMap owner).length
  reading_eq : reading = works.countP isRead

section Jobs
variable {works rest : List (Work × Stage)} {free : List Nat} {pending writing reading : Nat}
  {x x' : Work × Stage}

theorem slotOf_of_owner {id : UInt64} (h : owner x = some id) : (slotOf x).isSome = true := by
  obtain ⟨work, stage⟩ := x
  cases work with
  | io job => rfl
  | dump job => cases h

theorem slotOf_of_isRead (h : isRead x = true) : (slotOf x).isSome = true := by
  obtain ⟨work, stage⟩ := x
  cases work with
  | io job => rfl
  | dump job => cases stage <;> cases h

/-- No counter goes beyond the number of job slots. -/
theorem counters_le (h : (free ++ works.filterMap slotOf).Perm (List.range defMaxIoJobs)) :
    (works.filterMap owner).length ≤ 5000 ∧ works.countP isRead ≤ 5000 := by
  have hlen := h.length_eq
  rw [List.length_append, List.length_range, List.length_filterMap_eq_countP] at hlen
  have h1 : works.countP (fun x => (owner x).isSome) ≤ works.countP fun x => (slotOf x).isSome := by
    refine List.countP_mono_left fun x _ hx => ?_
    obtain ⟨id, hid⟩ := Option.isSome_iff_exists.mp hx
    exact slotOf_of_owner hid
  have h2 : works.countP isRead ≤ works.countP fun x => (slotOf x).isSome :=
    List.countP_mono_left fun x _ hx => slotOf_of_isRead hx
  simp only [defMaxIoJobs] at hlen
  rw [List.length_filterMap_eq_countP]
  omega

theorem JobBooks.perm (h : JobBooks works free pending writing reading)
    (hp : works.Perm rest) : JobBooks rest free pending writing reading := by
  refine ⟨((hp.filterMap slotOf).append_left free).symm.trans h.slots, ?_, h.pending_le, ?_, ?_⟩
  · rw [h.pending_eq, hp.countP_eq]
  · rw [h.writing_eq, (hp.filterMap owner).length_eq]
  · rw [h.reading_eq, hp.countP_eq]

theorem slots_cons (x : Work × Stage) (rest : List (Work × Stage)) (free : List Nat) :
    (free ++ (x :: rest).filterMap slotOf).Perm
      ((slotOf x).toList ++ free ++ rest.filterMap slotOf) := by
  rw [List.filterMap_cons]
  cases slotOf x with
  | none => exact .refl _
  | some slot => exact List.perm_middle

theorem JobBooks.enter (h : JobBooks works ((slotOf x).toList ++ free) pending writing reading)
    (hroom : isPending x = true → pending < defMaxPendingWrites) :
    JobBooks (x :: works) free (if isPending x then u32 (pending + 1) else pending)
      (if (owner x).isSome then u32 (writing + 1) else writing)
      (if isRead x then u32 (reading + 1) else reading) := by
  have hslots := (slots_cons x works free).trans h.slots
  obtain ⟨hw, hr⟩ := counters_le hslots
  have hp := h.pending_le
  simp only [defMaxPendingWrites] at hroom hp
  rw [List.filterMap_cons] at hw
  rw [List.countP_cons] at hr
  refine ⟨hslots, ?_, ?_, ?_, ?_⟩
  · rw [List.countP_cons, ← h.pending_eq]
    split
    · rename_i hx
      have hlt := hroom hx
      exact u32_of_lt (x := pending + 1) (by omega)
    · rfl
  · simp only [defMaxPendingWrites]
    split
    · rename_i hx
      have hlt := hroom hx
      have hsucc : u32 ((pending : Int) + 1) = pending + 1 :=
        u32_of_lt (x := pending + 1) (by omega)
      omega
    · exact hp
  · rw [List.filterMap_cons, h.writing_eq]
    cases hx : owner x with
    | none => rfl
    | some id =>
      rw [hx] at hw
      exact u32_of_lt (x := (works.filterMap owner).length + 1)
        (by simp only [List.length_cons] at hw; omega)
  · rw [List.countP_cons, h.reading_eq]
    split
    · rename_i hx
      rw [if_pos hx] at hr
      exact u32_of_lt (x := works.countP isRead + 1) (by omega)
    · rfl

theorem u32_back {n : Nat} (h : n < 4294967296) : u32 (((n + 1 : Nat) : Int) - 1) = n := by
  unfold u32; omega

theorem JobBooks.leave (h : JobBooks (x :: rest) free pending writing reading) :
    JobBooks rest ((slotOf x).toList ++ free) (if isPending x then u32 (pending - 1) else pending)
      (if (owner x).isSome then u32 (writing - 1) else writing)
      (if isRead x then u32 (reading - 1) else reading) := by
  obtain ⟨hw, hr⟩ := counters_le h.slots
  have hslots := (slots_cons x rest free).symm.trans h.slots
  have hp := h.pending_eq
  have hple := h.pending_le
  have hwr := h.writing_eq
  have hrd := h.reading_eq
  rw [List.filterMap_cons] at hw hwr
  rw [List.countP_cons] at hr hrd hp
  simp only [defMaxPendingWrites] at hple
  have hcount : (if isPending x then u32 (pending - 1) else pending) = rest.countP isPending := by
    split
    · rename_i hx
      rw [if_pos hx] at hp
      rw [hp]
      exact u32_back (by omega)
    · rename_i hx
      rw [if_neg hx] at hp
      exact hp
  refine ⟨hslots, hcount, ?_, ?_, ?_⟩
  · rw [hcount]
    simp only [defMaxPendingWrites]
    omega
  · cases hx : owner x with
    | none => rw [hx] at hwr; exact hwr
    | some id =>
      rw [hx] at hwr hw
      simp only [List.length_cons] at hwr hw
      rw [hwr]
      exact u32_back (by omega)
  · split
    · rename_i hx
      rw [if_pos hx] at hrd hr
      rw [hrd]
      exact u32_back (by omega)
    · rename_i hx
      rw [if_neg hx] at hrd
      exact hrd

theorem SameJob.jobs (same : SameJob x x') (h : JobBooks (x :: rest) free pending writing reading) :
    JobBooks (x' :: rest) free pending writing reading := by
  refine ⟨?_, ?_, h.pending_le, ?_, ?_⟩
  · have hs := h.slots
    rw [List.filterMap_cons, ← same.slot] at hs
    rw [List.filterMap_cons]
    exact hs
  · rw [h.pending_eq, List.countP_cons, List.countP_cons, same.pending.1, same.pending.2]
  · rw [h.writing_eq, List.filterMap_cons, List.filterMap_cons, same.owner]
  · rw [h.reading_eq, List.countP_cons, List.countP_cons, same.read]

end Jobs

/-! ## Chunks -/

/-- `ids` are the chunks the server was started with. -/
structure ChunkBooks (ids : List UInt64) (works : List (Work × Stage)) (avail : UInt64 → Nat)
    (chunks writing : List UInt64) : Prop where
  nodup : ids.Nodup
  all : (chunks ++ writing).Perm ids
  owners_nodup : (works.filterMap owner).Nodup
  owners : ∀ id ∈ works.filterMap owner, id ∈ writing
  full : ∀ job, (Work.io job, Stage.pending) ∈ works → ∀ id ∈ chunks,
    avail id ≤ u32 (job.file.size + fileMetaSize)

section Chunks
variable {ids chunks writing : List UInt64} {works rest : List (Work × Stage)}
  {avail avail' : UInt64 → Nat} {x x' : Work × Stage} {id : UInt64} {v : Books} {strand : Prop}

theorem ChunkBooks.apart (h : ChunkBooks ids works avail chunks writing) (hid : id ∈ writing) :
    id ∉ chunks := by
  have hnd := h.all.nodup_iff.mpr h.nodup
  intro hin
  exact (List.nodup_append'.mp hnd).2.2 hin hid

theorem ChunkBooks.perm (h : ChunkBooks ids works avail chunks writing) (hp : works.Perm rest) :
    ChunkBooks ids rest avail chunks writing := by
  refine ⟨h.nodup, h.all, (hp.filterMap owner).nodup_iff.mp h.owners_nodup, ?_, ?_⟩
  · intro id hid
    exact h.owners id ((hp.filterMap owner).mem_iff.mpr hid)
  · intro job hjob
    exact h.full job (hp.mem_iff.mpr hjob)

theorem Takes.chunkBooks {chunks' writing' : List UInt64} (takes : Takes v x chunks' writing')
    (h : ChunkBooks ids v.works v.avail v.chunks v.writingChunks) :
    ChunkBooks ids (x :: v.works) v.avail chunks' writing' := by
  cases takes with
  | parked fn room full =>
    refine ⟨h.nodup, h.all, ?_, ?_, ?_⟩
    · simpa [owner] using h.owners_nodup
    · intro id hid
      refine h.owners id ?_
      simpa [owner] using hid
    · intro job hjob
      rcases List.mem_cons.mp hjob with he | hjob
      · obtain ⟨rfl⟩ := Work.io.inj (Prod.mk.inj he).1
        exact full
      · exact h.full job hjob
  | @taken job fn free =>
    have hown : owner (.io job, .queued) = some job.chunk := owner_write fn (by simp)
    refine ⟨h.nodup, (take_perm free).trans h.all, ?_, ?_, ?_⟩
    · rw [List.filterMap_cons_some hown, List.nodup_cons]
      exact ⟨fun hin => h.apart (h.owners _ hin) free, h.owners_nodup⟩
    · intro id hid
      rw [List.filterMap_cons_some hown] at hid
      rcases List.mem_cons.mp hid with rfl | hid
      · exact List.mem_cons_self ..
      · exact List.mem_cons_of_mem _ (h.owners id hid)
    · intro other hother id hid
      rcases List.mem_cons.mp hother with he | hother
      · cases (Prod.mk.inj he).2
      · exact h.full other hother id (List.mem_of_mem_erase hid)
  | other own =>
    refine ⟨h.nodup, h.all, ?_, ?_, ?_⟩
    · rw [List.filterMap_cons_none own]; exact h.owners_nodup
    · rw [List.filterMap_cons_none own]; exact h.owners
    · intro job hjob
      rcases List.mem_cons.mp hjob with he | hjob
      · cases (Prod.mk.inj he).2
      · exact h.full job hjob

theorem ChunkBooks.abandon (h : ChunkBooks ids works avail chunks writing) (hid : id ∈ chunks) :
    ChunkBooks ids works avail (chunks.erase id) (id :: writing) := by
  refine ⟨h.nodup, (take_perm hid).trans h.all, h.owners_nodup, ?_, ?_⟩
  · intro i hi
    exact List.mem_cons_of_mem _ (h.owners i hi)
  · intro job hjob i hi
    exact h.full job hjob i (List.mem_of_mem_erase hi)

/-- A worker changes at most the chunk its job owns, which is not free. -/
theorem ChunkBooks.advance (h : ChunkBooks ids (x :: rest) avail chunks writing)
    (same : SameJob x x') (others : ∀ id, owner x ≠ some id → avail' id = avail id) :
    ChunkBooks ids (x' :: rest) avail' chunks writing := by
  have hown : (x' :: rest).filterMap owner = (x :: rest).filterMap owner := by
    rw [List.filterMap_cons, List.filterMap_cons, same.owner]
  refine ⟨h.nodup, h.all, hown ▸ h.owners_nodup, hown ▸ h.owners, ?_⟩
  intro job hjob id hid
  have hne : owner x ≠ some id := by
    intro he
    refine h.apart (h.owners id ?_) hid
    rw [List.filterMap_cons_some he]
    exact List.mem_cons_self ..
  rw [others id hne]
  rcases List.mem_cons.mp hjob with he | hjob
  · rw [← he] at same
    exact absurd same.pending.2 (by simp [isPending])
  · exact h.full job (List.mem_cons_of_mem _ hjob) id hid

/-- Without its first job. -/
theorem ChunkBooks.drop (h : ChunkBooks ids (x :: rest) avail chunks writing) :
    ChunkBooks ids rest avail chunks writing := by
  have hsub : (rest.filterMap owner).Sublist ((x :: rest).filterMap owner) :=
    (List.sublist_cons_self x rest).filterMap owner
  refine ⟨h.nodup, h.all, hsub.nodup h.owners_nodup, ?_, ?_⟩
  · intro id hid
    exact h.owners id (hsub.subset hid)
  · intro job hjob
    exact h.full job (List.mem_cons_of_mem _ hjob)

theorem Gives.chunkBooks {chunks' writing' : List UInt64}
    (gives : Gives strand v x rest chunks' writing')
    (h : ChunkBooks ids (x :: rest) v.avail v.chunks v.writingChunks) :
    ChunkBooks ids rest v.avail chunks' writing' := by
  cases gives with
  | @returned id own full =>
    have hnd := h.owners_nodup
    rw [List.filterMap_cons_some own, List.nodup_cons] at hnd
    have hid : id ∈ v.writingChunks := by
      refine h.owners id ?_
      rw [List.filterMap_cons_some own]
      exact List.mem_cons_self ..
    refine ⟨h.nodup, (give_perm hid).trans h.all, hnd.2, ?_, ?_⟩
    · intro i hi
      have hne : i ≠ id := fun he => hnd.1 (he ▸ hi)
      exact (List.mem_erase_of_ne hne).mpr (h.drop.owners i hi)
    · intro job hjob i hi
      rcases List.mem_append.mp hi with hi | hi
      · exact h.drop.full job hjob i hi
      · rw [List.mem_singleton.mp hi]
        exact full job hjob
  | lost allowed => exact h.drop
  | other own => exact h.drop

/-- The chunk of a completed job goes to a pending one. -/
theorem ChunkBooks.handOver {job job' : IoJob}
    (h : ChunkBooks ids (x :: (.io job, .pending) :: rest) avail chunks writing)
    (own : owner x = some id) (own' : owner (.io job', .queued) = some id) :
    ChunkBooks ids ((.io job', .queued) :: rest) avail chunks writing := by
  have hpend : owner (Work.io job, Stage.pending) = none := by simp [owner]
  have heq : ((Work.io job', Stage.queued) :: rest).filterMap owner =
      (x :: (Work.io job, Stage.pending) :: rest).filterMap owner := by
    rw [List.filterMap_cons_some own, List.filterMap_cons_none hpend,
      List.filterMap_cons_some own']
  refine ⟨h.nodup, h.all, heq ▸ h.owners_nodup, heq ▸ h.owners, ?_⟩
  intro other hother
  rcases List.mem_cons.mp hother with he | hother
  · cases (Prod.mk.inj he).2
  · exact h.full other (List.mem_cons_of_mem _ (List.mem_cons_of_mem _ hother))

end Chunks

/-! ## All pages -/

structure BookInv (limit : Nat) (ids : List UInt64) (v : Books) : Prop where
  conns : ConnInv v.nextConn v.conns v.waiting
  table : ConnBooks limit v.nextConn v.conns v.connCount v.mem
  jobs : JobBooks v.works v.freeIoJobs v.pendingWritesSize v.writingCount v.readingCount
  chunks : ChunkBooks ids v.works v.avail v.chunks v.writingChunks
  roomy : ∀ x ∈ v.works, ∀ conn, v.conns x.1.conn = some conn → Roomy conn x

section Inv
variable {limit : Nat} {ids : List UInt64} {v v' : Books} {strand : Prop}

theorem Effect.live {c count : Nat} {new : Option Connection} {mem : MemBlocks}
    (eff : Effect v c new mem count) : ∃ old, v.conns c = some old := by
  cases eff with
  | keep live _ _ => exact ⟨_, live⟩
  | reset live _ _ => exact ⟨_, live⟩
  | free live _ => exact ⟨_, live⟩

/-- The jobs behind the first one wait on other connections. -/
theorem ConnInv.rest_ne {next : Nat} {conns : Nat → Option Connection} {x : Work × Stage}
    {rest : List (Work × Stage)} (h : ConnInv next conns ((x :: rest).map fun y => y.1.conn)) :
    ∀ y ∈ rest, y.1.conn ≠ x.1.conn := by
  have hnd := h.nodup
  rw [List.map_cons, List.nodup_cons] at hnd
  intro y hy he
  exact hnd.1 (he ▸ List.mem_map.mpr ⟨y, hy, rfl⟩)

theorem Books.idle_ne {c : Nat} (hc : c ∉ v.waiting) : ∀ y ∈ v.works, y.1.conn ≠ c := by
  intro y hy he
  exact hc (he ▸ List.mem_map.mpr ⟨y, hy, rfl⟩)

/-- The reads keep their room when only other connections change. -/
theorem BookInv.roomy_of (h : BookInv limit ids v) {c : Nat} {new : Option Connection}
    (rest : List (Work × Stage)) (hsub : ∀ y ∈ rest, y ∈ v.works ∧ y.1.conn ≠ c) :
    ∀ y ∈ rest, ∀ conn, (if y.1.conn = c then new else v.conns y.1.conn) = some conn →
      Roomy conn y := by
  intro y hy conn hc
  obtain ⟨hm, hne⟩ := hsub y hy
  rw [if_neg hne] at hc
  exact h.roomy y hm conn hc

theorem BookStep.inv (h : BookInv limit ids v) (hs : BookStep strand v v') :
    BookInv limit ids v' := by
  cases hs with
  | @shuffle works perm =>
    exact ⟨h.conns.perm (perm.map fun x : Work × Stage => x.1.conn), h.table, h.jobs.perm perm,
      h.chunks.perm perm, fun x hx => h.roomy x (perm.mem_iff.mpr hx)⟩
  | accept =>
    refine ⟨h.conns.accept, h.table.accept, h.jobs, h.chunks, ?_⟩
    refine h.roomy_of _ fun y hy => ⟨hy, fun he => ?_⟩
    obtain ⟨conn, hc⟩ := h.conns.live _ (List.mem_map.mpr ⟨y, hy, rfl⟩)
    rw [he, h.conns.fresh _ (Nat.le_refl _)] at hc
    cases hc
  | dispatch live unsent idle => exact ⟨h.conns, h.table, h.jobs, h.chunks, h.roomy⟩
  | respond idle isOpen => exact ⟨h.conns, h.table, h.jobs, h.chunks, h.roomy⟩
  | @idle c new mem count idle eff ok sends =>
    obtain ⟨old, hold⟩ := eff.live
    refine ⟨?_, eff.table h.table (h.conns.lt hold) fun conn he => (ok conn he).2, h.jobs,
      h.chunks, h.roomy_of _ fun y hy => ⟨hy, Books.idle_ne idle y hy⟩⟩
    refine h.conns.set ⟨old, hold⟩ h.conns.nodup (fun _ _ => Iff.rfl) ?_
      fun hin => absurd hin idle
    intro conn he
    exact (ok conn he).1.congr ⟨False.elim, idle⟩
  | @submit x conn mem free chunks writing idle isOpen eff waits fine roomy slots takes =>
    obtain ⟨old, hold⟩ := eff.live
    have hjobs := h.jobs
    rw [slots] at hjobs
    refine ⟨h.conns.submit ⟨old, hold⟩ idle waits,
      eff.table h.table (h.conns.lt hold) fun conn' he => Option.some.inj he ▸ fine,
      hjobs.enter ?_, takes.chunkBooks h.chunks, ?_⟩
    · intro hp
      cases takes with
      | parked fn room full => exact room
      | taken fn free => cases hp
      | other own => cases hp
    · intro y hy conn' hc
      rcases List.mem_cons.mp hy with rfl | hy
      · exact Option.some.inj ((if_pos rfl).symm.trans hc) ▸ roomy
      · exact h.roomy_of _ (fun y hy => ⟨hy, Books.idle_ne idle y hy⟩) y hy conn' hc
  | abandon allowed free =>
    exact ⟨h.conns, h.table, h.jobs, h.chunks.abandon free, h.roomy⟩
  | @advance x x' rest old conn avail works same live held waits fine roomy others =>
    have hconns := h.conns
    have hjobs := h.jobs
    have hchunks := h.chunks
    unfold Books.waiting at hconns
    rw [works] at hconns hjobs hchunks
    have hmem : x ∈ v.works := works ▸ List.mem_cons_self ..
    have hrest : ∀ y ∈ rest, y ∈ v.works ∧ y.1.conn ≠ x.1.conn := fun y hy =>
      ⟨works ▸ List.mem_cons_of_mem _ hy, hconns.rest_ne y hy⟩
    have heff : Effect v x.1.conn (some conn) v.mem v.connCount :=
      .keep (n := 0) live ⟨rfl, id, Nat.le_max_left _ _, rfl⟩ held
    refine ⟨?_, heff.table h.table (h.conns.lt live) fun conn' he => Option.some.inj he ▸ fine,
      same.jobs hjobs, hchunks.advance same others, ?_⟩
    · have hwait : (x' :: rest).map (fun y => y.1.conn) = (x :: rest).map fun y => y.1.conn := by
        rw [List.map_cons, List.map_cons, same.conn]
      show ConnInv _ _ ((x' :: rest).map fun y => y.1.conn)
      rw [hwait]
      exact hconns.update (List.mem_cons_self ..) waits
    · intro y hy conn' hc
      rcases List.mem_cons.mp hy with rfl | hy
      · rw [show (Books.put v x.1.conn (some conn) v.mem v.connCount).conns y.1.conn = some conn
          from if_pos same.conn] at hc
        exact Option.some.inj hc ▸ roomy (h.roomy x hmem old live)
      · exact h.roomy_of _ hrest y hy conn' hc
  | @send job retcode rest works =>
    have hconns := h.conns
    have hjobs := h.jobs
    have hchunks := h.chunks
    unfold Books.waiting at hconns
    rw [works] at hconns hjobs hchunks
    have hown : ∀ p, owner (Work.dump job, Stage.running p) = none := fun _ => rfl
    have hsub : ∀ y ∈ rest, y ∈ v.works := fun y hy => works ▸ List.mem_cons_of_mem _ hy
    refine ⟨hconns, h.table, ⟨hjobs.slots, hjobs.pending_eq, hjobs.pending_le, hjobs.writing_eq,
      hjobs.reading_eq⟩, ⟨hchunks.nodup, hchunks.all, hchunks.owners_nodup, hchunks.owners, ?_⟩, ?_⟩
    · intro other hother
      rcases List.mem_cons.mp hother with he | hother
      · cases (Prod.mk.inj he).1
      · exact hchunks.full other (List.mem_cons_of_mem _ hother)
    · intro y hy conn hc
      rcases List.mem_cons.mp hy with rfl | hy
      · trivial
      · exact h.roomy y (hsub y hy) conn hc
  | @complete x rest new mem count chunks writing marks works eff ok gives closes =>
    obtain ⟨old, hold⟩ := eff.live
    have hconns := h.conns
    have hjobs := h.jobs
    have hchunks := h.chunks
    unfold Books.waiting at hconns
    rw [works] at hconns hjobs hchunks
    refine ⟨?_, eff.table h.table (h.conns.lt hold) fun conn he => (ok conn he).2, hjobs.leave,
      gives.chunkBooks hchunks, ?_⟩
    · rw [List.map_cons] at hconns
      exact hconns.release fun conn he => (ok conn he).1
    · exact h.roomy_of _ fun y hy => ⟨works ▸ List.mem_cons_of_mem _ hy, hconns.rest_ne y hy⟩
  | @handOver x job id offset rest conn mem works own fn eff ok fine closes =>
    obtain ⟨old, hold⟩ := eff.live
    have hconns := h.conns
    have hjobs := h.jobs
    have hchunks := h.chunks
    unfold Books.waiting at hconns
    rw [works] at hconns hjobs hchunks
    have hown' : owner (.io { job with chunk := id, offset := offset }, .queued) = some id :=
      owner_write fn (by simp)
    have hleave := (hjobs.leave).leave
    refine ⟨?_, eff.table h.table (h.conns.lt hold) fun conn' he => Option.some.inj he ▸ fine,
      JobBooks.enter (x := (.io { job with chunk := id, offset := offset }, .queued)) hleave
        (fun hp => by cases hp), hchunks.handOver own hown', ?_⟩
    · rw [List.map_cons] at hconns
      exact hconns.release fun conn' he => Option.some.inj he ▸ ok
    · intro y hy conn' hc
      rcases List.mem_cons.mp hy with rfl | hy
      · intro hr
        rw [show job.fn = .write from fn] at hr
        cases hr
      · refine h.roomy_of rest (fun y hy => ⟨?_, ?_⟩) y hy conn' hc
        · rw [works]
          exact List.mem_cons_of_mem _ (List.mem_cons_of_mem _ hy)
        · exact hconns.rest_ne y (List.mem_cons_of_mem _ hy)

end Inv

/-! ## No chunk is lost, and the marks alternate -/

section Marks
variable {limit : Nat} {ids : List UInt64} {v v' : Books} {strand : Prop}

/-- Every chunk that is not free belongs to a write. -/
def Books.Kept (v : Books) : Prop := ∀ id ∈ v.writingChunks, id ∈ v.works.filterMap owner

theorem BookStep.kept (h : BookInv limit ids v) (hk : v.Kept) (hs : BookStep False v v') :
    v'.Kept := by
  cases hs with
  | @shuffle works perm =>
    intro id hid
    exact (perm.filterMap owner).mem_iff.mp (hk id hid)
  | accept => exact hk
  | dispatch live unsent idle => exact hk
  | respond idle isOpen => exact hk
  | idle idle eff ok sends => exact hk
  | @submit x conn mem free chunks writing idle isOpen eff waits fine roomy slots takes =>
    intro id hid
    show id ∈ (x :: v.works).filterMap owner
    have hsub : (v.works.filterMap owner).Sublist ((x :: v.works).filterMap owner) :=
      (List.sublist_cons_self x v.works).filterMap owner
    cases takes with
    | parked fn room full => exact hsub.subset (hk id hid)
    | @taken job fn free =>
      rw [List.filterMap_cons_some (owner_write fn (by simp))]
      rcases List.mem_cons.mp hid with rfl | hid
      · exact List.mem_cons_self ..
      · exact List.mem_cons_of_mem _ (hk id hid)
    | other own => exact hsub.subset (hk id hid)
  | abandon allowed free => exact allowed.elim
  | @advance x x' rest old conn avail works same live held waits fine roomy others =>
    intro id hid
    have hin := hk id hid
    rw [works, List.filterMap_cons, ← same.owner] at hin
    show id ∈ (x' :: rest).filterMap owner
    rw [List.filterMap_cons]
    exact hin
  | @send job retcode rest works =>
    intro id hid
    have hin := hk id hid
    rw [works] at hin
    exact hin
  | @complete x rest new mem count chunks writing marks works eff ok gives closes =>
    have hnd := h.chunks.all.nodup_iff.mpr h.chunks.nodup
    have hwn := (List.nodup_append'.mp hnd).2.1
    intro id hid
    cases gives with
    | @returned i own full =>
      obtain ⟨hne, hin⟩ := (hwn.mem_erase_iff).mp hid
      have howner := hk id hin
      rw [works, List.filterMap_cons_some own] at howner
      exact (List.mem_cons.mp howner).resolve_left hne
    | lost allowed => exact allowed.elim
    | other own =>
      have howner := hk id hid
      rw [works, List.filterMap_cons_none own] at howner
      exact howner
  | @handOver x job i offset rest conn mem works own fn eff ok fine closes =>
    intro id hid
    have howner := hk id hid
    have hpend : owner (Work.io job, Stage.pending) = none := by simp [owner]
    have hown' : owner (.io { job with chunk := i, offset := offset }, .queued) = some i :=
      owner_write fn (by simp)
    rw [works, List.filterMap_cons_some own, List.filterMap_cons_none hpend] at howner
    show id ∈ List.filterMap owner
      ((.io { job with chunk := i, offset := offset }, .queued) :: rest)
    rw [List.filterMap_cons_some hown']
    exact howner

/-- The jobs whose response is still to come have an open request, and what is being
sent is the response to the last request. -/
structure MarksInv (v : Books) : Prop where
  alternating : Alternating v.marks
  jobs : ∀ x ∈ v.works, Answerable x → Open v.marks x.1.conn
  sending : ∀ c conn, v.conns c = some conn → conn.state = .sendRsp → Begun v.marks c

section Newest
variable {marks : List Mark} {c : Nat} {m : Mark}

theorem newest_cons_ne (hm : m.conn ≠ c) :
    (m :: marks).find? (fun m => m.conn == c) = marks.find? fun m => m.conn == c :=
  List.find?_cons_of_neg (by simpa using hm)

theorem Open.cons (h : Open marks c) (hm : m.conn ≠ c) : Open (m :: marks) c :=
  (newest_cons_ne hm).trans h

theorem Begun.cons (h : Begun marks c) (hm : m.conn ≠ c) : Begun (m :: marks) c :=
  (newest_cons_ne hm).trans h

theorem Open.dispatched (marks : List Mark) (c : Nat) : Open (.dispatched c :: marks) c :=
  List.find?_cons_of_pos (by simp [Mark.conn])

theorem Begun.started (marks : List Mark) (c : Nat) : Begun (.started c :: marks) c :=
  List.find?_cons_of_pos (by simp [Mark.conn])

end Newest

/-- A response is started: nobody else's newest mark changes. -/
theorem Begun.respond {marks : List Mark} {c i : Nat} (h : i ≠ c → Begun marks i) :
    Begun (.started c :: marks) i := by
  by_cases hi : i = c
  · rw [hi]
    exact .started marks c
  · exact (h hi).cons fun he => hi he.symm

/-- The connections of a table in which one is replaced. -/
theorem Books.put_sending {new : Option Connection} {c : Nat} {P : Nat → Prop}
    (hnew : ∀ conn, new = some conn → conn.state = .sendRsp → P c)
    (hold : ∀ i conn, i ≠ c → v.conns i = some conn → conn.state = .sendRsp → P i) :
    ∀ i conn, (if i = c then new else v.conns i) = some conn → conn.state = .sendRsp → P i := by
  intro i conn hi hst
  by_cases hic : i = c
  · rw [if_pos hic] at hi
    exact hic ▸ hnew conn hi hst
  · rw [if_neg hic] at hi
    exact hold i conn hic hi hst

/-- The jobs behind the first one keep their requests when that one is answered. -/
theorem MarksInv.rest {x : Work × Stage} {rest : List (Work × Stage)} (hm : MarksInv v)
    (works : v.works = x :: rest) (hne : ∀ y ∈ rest, y.1.conn ≠ x.1.conn) :
    ∀ y ∈ rest, Answerable y → Open (.started x.1.conn :: v.marks) y.1.conn := by
  intro y hy ha
  exact (hm.jobs y (works ▸ List.mem_cons_of_mem _ hy) ha).cons (hne y hy).symm

theorem BookStep.marks (h : BookInv limit ids v) (hm : MarksInv v)
    (hs : BookStep strand v v') : MarksInv v' := by
  have hconns := h.conns
  unfold Books.waiting at hconns
  cases hs with
  | @shuffle works perm =>
    exact ⟨hm.alternating, fun x hx => hm.jobs x (perm.mem_iff.mpr hx), hm.sending⟩
  | accept =>
    refine ⟨hm.alternating, hm.jobs, Books.put_sending ?_ fun i conn _ => hm.sending i conn⟩
    intro conn he
    obtain rfl := Option.some.inj he
    exact nofun
  | @dispatch c old live unsent idle =>
    refine ⟨hm.alternating, fun x hx ha => (hm.jobs x hx ha).cons ?_, fun i conn hi hst => ?_⟩
    · exact (Books.idle_ne idle x hx).symm
    · refine (hm.sending i conn hi hst).cons fun he => ?_
      obtain rfl : c = i := he
      exact unsent (Option.some.inj (live.symm.trans hi) ▸ hst)
  | @respond c idle isOpen =>
    refine ⟨⟨isOpen, hm.alternating⟩, fun x hx ha => (hm.jobs x hx ha).cons ?_, ?_⟩
    · exact (Books.idle_ne idle x hx).symm
    · exact fun i conn hi hst => .respond fun _ => hm.sending i conn hi hst
  | @idle c new mem count idle eff ok sends =>
    refine ⟨hm.alternating, hm.jobs, Books.put_sending ?_ fun i conn _ => hm.sending i conn⟩
    intro conn he hst
    rcases sends conn he hst with hb | ⟨old, hold, hsent⟩
    · exact hb
    · exact hm.sending c old hold hsent
  | @submit x conn mem free chunks writing idle isOpen eff waits fine roomy slots takes =>
    refine ⟨hm.alternating, fun y hy ha => ?_, Books.put_sending ?_ fun i conn _ =>
      hm.sending i conn⟩
    · rcases List.mem_cons.mp hy with rfl | hy
      · exact isOpen
      · exact hm.jobs y hy ha
    · intro conn' he hst
      rw [← Option.some.inj he, waits.state] at hst
      cases hst
  | abandon allowed free => exact ⟨hm.alternating, hm.jobs, hm.sending⟩
  | @advance x x' rest old conn avail works same live held waits fine roomy others =>
    refine ⟨hm.alternating, fun y hy ha => ?_, Books.put_sending ?_ fun i conn _ =>
      hm.sending i conn⟩
    · rcases List.mem_cons.mp hy with rfl | hy
      · have hopen := hm.jobs x (works ▸ List.mem_cons_self ..) (same.answerable ha)
        rw [← same.conn] at hopen
        exact hopen
      · exact hm.jobs y (works ▸ List.mem_cons_of_mem _ hy) ha
    · intro conn' he hst
      rw [← Option.some.inj he, waits.state] at hst
      cases hst
  | @send job retcode rest works =>
    rw [works] at hconns
    have hopen := hm.jobs (.dump job, .running (.single none)) (works ▸ List.mem_cons_self ..)
      trivial
    refine ⟨⟨hopen, hm.alternating⟩, fun y hy ha => ?_, fun i conn hi hst =>
      .respond fun _ => hm.sending i conn hi hst⟩
    rcases List.mem_cons.mp hy with rfl | hy
    · exact ha.elim
    · exact hm.rest works hconns.rest_ne y hy ha
  | @complete x rest new mem count chunks writing marks works eff ok gives closes =>
    rw [works] at hconns
    cases closes with
    | started ha =>
      refine ⟨⟨hm.jobs x (works ▸ List.mem_cons_self ..) ha, hm.alternating⟩,
        hm.rest works hconns.rest_ne, Books.put_sending ?_ fun i conn _ hi hst => ?_⟩
      · exact fun _ _ _ => .started ..
      · exact .respond fun _ => hm.sending i conn hi hst
    | silent hn =>
      refine ⟨hm.alternating, fun y hy => hm.jobs y (works ▸ List.mem_cons_of_mem _ hy),
        Books.put_sending ?_ fun i conn _ => hm.sending i conn⟩
      exact fun conn he hst => absurd hst (hn conn he)
  | @handOver x job i offset rest conn mem works own fn eff ok fine closes =>
    rw [works] at hconns
    have hrest := hm.rest works hconns.rest_ne
    refine ⟨⟨hm.jobs x (works ▸ List.mem_cons_self ..) closes, hm.alternating⟩,
      fun y hy ha => ?_, Books.put_sending ?_ fun i conn _ hi hst => ?_⟩
    · rcases List.mem_cons.mp hy with rfl | hy
      · exact hrest (.io job, .pending) (List.mem_cons_self ..) trivial
      · exact hrest y (List.mem_cons_of_mem _ hy) ha
    · exact fun _ _ _ => .started ..
    · exact .respond fun _ => hm.sending i conn hi hst

end Marks
end Speedy.Chunkserver
