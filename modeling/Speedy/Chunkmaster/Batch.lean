import Speedy.Chunkmaster.GlobalStatus

/-! # Batch registration

The loop of `batchAddChunkserver` has one variable for all its rounds, and the cache gets
its address each time. After a batch all of its keys point to one record, that of its last
server. -/
namespace Speedy.Chunkmaster
open Speedy.Lib

/-- What a server is registered under. -/
def MetadataChunkserver.identity (c : MetadataChunkserver) : UInt16 × String × Int :=
  (c.groupId, c.ip, c.port)

def batchKeys (items : List ServerTables.BatchItem) : List String :=
  items.map fun item => item.chunkserver.key

/-- What a batch should do: every server has a record of its own in the cache, the other
entries are as before, and changing the status of an entry changes no other. -/
structure Registers (s s' : ServerTables) (items : List ServerTables.BatchItem) : Prop where
  registered : ∀ item ∈ items, ∃ c, s'.serverInfo.entry item.chunkserver.key = some c ∧
    c.identity = item.chunkserver.identity ∧ c.status = initStatus
  others : ∀ key, key ∉ batchKeys items → s'.serverInfo.entry key = s.serverInfo.entry key
  independent : ∀ key status key', key' ≠ key →
    (s'.updateChunkserverInfo key status).serverInfo.entry key' = s'.serverInfo.entry key'

section Status
variable {s : ServerTables}

theorem serverInfo_updateChunkserverInfo {key : String} {p : Nat} (status : Int)
    (hp : s.serverInfo.index.lookup key = some p) :
    (s.updateChunkserverInfo key status).serverInfo =
      s.serverInfo.write p { s.serverInfo.record p with status := status } := by
  unfold ServerTables.updateChunkserverInfo
  rw [hp]

/-- Statuses can be changed one by one if no two keys share a record. -/
theorem independent_iff :
    (∀ key status key', key' ≠ key →
      (s.updateChunkserverInfo key status).serverInfo.entry key' = s.serverInfo.entry key') ↔
    s.serverInfo.Unshared := by
  constructor
  · intro h
    refine PtrMap.unshared_of_writes fun key p hp => ?_
    have hstatus : { s.serverInfo.record p with status := (s.serverInfo.record p).status + 1 } ≠
        s.serverInfo.record p := by
      intro he
      have := congrArg MetadataChunkserver.status he
      simp only at this
      omega
    refine ⟨_, hstatus, fun key' hne => ?_⟩
    rw [← serverInfo_updateChunkserverInfo _ hp]
    exact h key _ key' hne
  · intro h key status key' hne
    cases hp : s.serverInfo.index.lookup key with
    | none =>
      unfold ServerTables.updateChunkserverInfo
      rw [hp]
    | some p =>
      rw [serverInfo_updateChunkserverInfo status hp]
      exact h.entry_write hp _ hne

end Status

theorem eq_of_length_le_one {α : Type} {l : List α} {a b : α} (h : l.length ≤ 1) (ha : a ∈ l)
    (hb : b ∈ l) : a = b := by
  cases l with
  | nil => cases ha
  | cons x l =>
    have hnil : l = [] := List.length_eq_zero_iff.mp (by simpa using h)
    subst hnil
    rw [List.mem_singleton.mp ha, List.mem_singleton.mp hb]

/-! ## The cache after a batch -/

/-- The record of the loop variable behind the round of an item. -/
def batchRecord (item : ServerTables.BatchItem) : MetadataChunkserver :=
  { ServerTables.reset item.chunkserver with updateTime := item.now }

section Loop
variable {s : ServerTables} {p : Nat} {items : List ServerTables.BatchItem}

/-- All keys of the batch point to `p`, where the last server is found. -/
structure PointTo (p : Nat) (items : List ServerTables.BatchItem)
    (m m' : PtrMap String MetadataChunkserver) : Prop where
  lookup : ∀ key, m'.index.lookup key =
    if key ∈ batchKeys items then some p else m.index.lookup key
  records : ∀ q, q ≠ p → m'.record q = m.record q
  last : ∀ item, items.getLast? = some item → m'.record p = batchRecord item

theorem batchAddLoop_pointTo (p : Nat) (hins : ∀ item ∈ items, item.inserted = true) :
    PointTo p items s.serverInfo (s.batchAddLoop p items).1.serverInfo ∧
      (s.batchAddLoop p items).2 = true := by
  induction items generalizing s with
  | nil =>
    refine ⟨⟨fun key => rfl, fun q _ => rfl, ?_⟩, rfl⟩
    intro item hitem
    cases hitem
  | cons item items ih =>
    obtain ⟨c, inserted, now⟩ := item
    obtain ⟨hone, hrest⟩ := List.forall_mem_cons.mp hins
    obtain rfl : inserted = true := hone
    obtain ⟨s', heq, hinfo⟩ := batchAddLoop_next (s := s) p c now items
    rw [heq]
    obtain ⟨⟨hlookup, hrecords, hlast⟩, hok⟩ := ih (s := s') hrest
    refine ⟨⟨?_, ?_, ?_⟩, hok⟩
    · intro key
      rw [hlookup, hinfo, PtrMap.lookup_point, PtrMap.lookup_write, PtrMap.lookup_write]
      have hkeys : key ∈ batchKeys (⟨c, true, now⟩ :: items) ↔
          key = c.key ∨ key ∈ batchKeys items := List.mem_cons
      by_cases hmem : key ∈ batchKeys items
      · rw [if_pos hmem, if_pos (hkeys.mpr (.inr hmem))]
      · rw [if_neg hmem]
        by_cases hkey : key = c.key
        · rw [if_pos hkey, if_pos (hkeys.mpr (.inl hkey))]
        · rw [if_neg hkey, if_neg fun h => (hkeys.mp h).elim hkey hmem]
    · intro q hq
      rw [hrecords q hq, hinfo, PtrMap.record_point, PtrMap.record_write_ne hq,
        PtrMap.record_write_ne hq]
    · intro item hitem
      cases items with
      | nil =>
        cases hitem
        change s'.serverInfo.record p = _
        rw [hinfo, PtrMap.record_point, PtrMap.record_write]
        rfl
      | cons next items =>
        rw [List.getLast?_cons_cons] at hitem
        exact hlast item hitem

end Loop

section Batch
variable {s : ServerTables} {items : List ServerTables.BatchItem}
  {m m' : PtrMap String MetadataChunkserver} {p : Nat}

theorem batchAddChunkserver_pointTo (s : ServerTables)
    (hins : ∀ item ∈ items, item.inserted = true) :
    PointTo s.serverInfo.next items (s.serverInfo.alloc {})
      (s.batchAddChunkserver items).1.serverInfo :=
  (batchAddLoop_pointTo (s := { s with serverInfo := s.serverInfo.alloc {} }) s.serverInfo.next
    hins).1

/-- Other entries do not hold the pointer, and their records are the old ones. -/
theorem PointTo.entry_other (h : PointTo m.next items (m.alloc {}) m') {key : String}
    (hkey : key ∉ batchKeys items) : m'.entry key = m.entry key := by
  rw [← PtrMap.entry_alloc (m := m) (a := {})]
  unfold PtrMap.entry
  rw [h.lookup, if_neg hkey]
  cases hq : (m.alloc {}).index.lookup key with
  | none => rfl
  | some q =>
    have hlt : q < m.next := m.fresh key q hq
    exact congrArg some (h.records q (Nat.ne_of_lt hlt))

theorem PointTo.entry_batch (h : PointTo p items m m') {last : ServerTables.BatchItem}
    (hlast : items.getLast? = some last) {item : ServerTables.BatchItem} (hitem : item ∈ items) :
    m'.entry item.chunkserver.key = some (batchRecord last) := by
  have hkey : item.chunkserver.key ∈ batchKeys items := List.mem_map.mpr ⟨item, hitem, rfl⟩
  unfold PtrMap.entry
  rw [h.lookup, if_pos hkey, Option.map_some, h.last last hlast]

/-- Which entries share a record after a batch of at most one server. -/
theorem PointTo.unshared_iff (h : PointTo m.next items (m.alloc {}) m')
    (hone : items.length ≤ 1) :
    m'.Unshared ↔ ∀ key key' q, key ∉ batchKeys items → key' ∉ batchKeys items →
      m.index.lookup key = some q → m.index.lookup key' = some q → key = key' := by
  have hsingle : ∀ key key', key ∈ batchKeys items → key' ∈ batchKeys items → key = key' := by
    intro key key' hk hk'
    obtain ⟨item, hitem, rfl⟩ := List.mem_map.mp hk
    obtain ⟨item', hitem', rfl⟩ := List.mem_map.mp hk'
    rw [eq_of_length_le_one hone hitem hitem']
  have hfresh : ∀ key, m.index.lookup key ≠ some m.next :=
    fun key hp => Nat.lt_irrefl _ (m.fresh key _ hp)
  constructor
  · intro hun key key' q hk hk' hq hq'
    refine hun key key' q ?_ ?_
    · rw [h.lookup, if_neg hk]
      exact hq
    · rw [h.lookup, if_neg hk']
      exact hq'
  · intro hother key key' q hq hq'
    rw [h.lookup] at hq hq'
    by_cases hk : key ∈ batchKeys items
    · rw [if_pos hk] at hq
      cases hq
      by_cases hk' : key' ∈ batchKeys items
      · exact hsingle key key' hk hk'
      · rw [if_neg hk'] at hq'
        exact absurd hq' (hfresh key')
    · rw [if_neg hk] at hq
      by_cases hk' : key' ∈ batchKeys items
      · rw [if_pos hk'] at hq'
        cases hq'
        exact absurd hq (hfresh key)
      · rw [if_neg hk'] at hq'
        exact hother key key' q hk hk' hq hq'

/-- Of servers that differ only the last one finds its record. -/
theorem PointTo.registered_iff (h : PointTo p items m m')
    (hdistinct : items.Pairwise fun a b => a.chunkserver.identity ≠ b.chunkserver.identity) :
    (∀ item ∈ items, ∃ c, m'.entry item.chunkserver.key = some c ∧
      c.identity = item.chunkserver.identity ∧ c.status = initStatus) ↔ items.length ≤ 1 := by
  constructor
  · intro hreg
    by_contra hlen
    obtain ⟨first, items, rfl⟩ := List.exists_cons_of_length_pos (l := items) (by omega)
    rw [List.length_cons] at hlen
    obtain ⟨second, rest, rfl⟩ := List.exists_cons_of_length_pos (l := items) (by omega)
    obtain ⟨last, hlast⟩ : ∃ last, (second :: rest).getLast? = some last :=
      ⟨_, List.getLast?_eq_some_getLast (List.cons_ne_nil _ _)⟩
    have hlast' : (first :: second :: rest).getLast? = some last := by
      rw [List.getLast?_cons_cons, hlast]
    obtain ⟨c, hc, hid, -⟩ := hreg first List.mem_cons_self
    rw [h.entry_batch hlast' List.mem_cons_self] at hc
    cases hc
    exact (List.pairwise_cons.mp hdistinct).1 last (List.mem_of_getLast? hlast) hid.symm
  · intro hlen item hitem
    obtain ⟨last, hlast⟩ : ∃ last, items.getLast? = some last :=
      ⟨_, List.getLast?_eq_some_getLast (List.ne_nil_of_mem hitem)⟩
    have hsame : last = item :=
      eq_of_length_le_one hlen (List.mem_of_getLast? hlast) hitem
    exact ⟨batchRecord last, h.entry_batch hlast hitem, hsame ▸ rfl, rfl⟩

end Batch

/-- A batch registers its servers if there is at most one, and no two of the other entries
share a record already. -/
theorem batchAddChunkserver_registers_iff (s : ServerTables)
    {items : List ServerTables.BatchItem} (hins : ∀ item ∈ items, item.inserted = true)
    (hdistinct : items.Pairwise fun a b => a.chunkserver.identity ≠ b.chunkserver.identity) :
    Registers s (s.batchAddChunkserver items).1 items ↔
      items.length ≤ 1 ∧
      ∀ key key' p, key ∉ batchKeys items → key' ∉ batchKeys items →
        s.serverInfo.index.lookup key = some p → s.serverInfo.index.lookup key' = some p →
        key = key' := by
  have hpoint := batchAddChunkserver_pointTo s hins
  constructor
  · intro h
    have hlen := (hpoint.registered_iff hdistinct).mp h.registered
    exact ⟨hlen, (hpoint.unshared_iff hlen).mp (independent_iff.mp h.independent)⟩
  · intro h
    exact ⟨(hpoint.registered_iff hdistinct).mpr h.1, fun key hkey => hpoint.entry_other hkey,
      independent_iff.mpr ((hpoint.unshared_iff h.1).mpr h.2)⟩

def oneChunkserver : MetadataChunkserver := { groupId := 1, ip := "127.0.0.1", port := 7654 }

def anotherChunkserver : MetadataChunkserver := { groupId := 1, ip := "127.0.0.1", port := 7655 }

def noTables : ServerTables := ⟨[], .empty {}⟩

/-- One server was added before. -/
def oneTable : ServerTables := (noTables.batchAddChunkserver [⟨anotherChunkserver, true, 4⟩]).1

theorem batchAddChunkserver_registers_one :
    (oneTable.serverInfo.entry anotherChunkserver.key).isSome ∧
    Registers oneTable (oneTable.batchAddChunkserver [⟨oneChunkserver, true, 5⟩]).1
      [⟨oneChunkserver, true, 5⟩] := by
  have hbefore : PointTo _ [⟨anotherChunkserver, true, 4⟩] _ oneTable.serverInfo :=
    batchAddChunkserver_pointTo noTables (List.forall_mem_singleton.mpr rfl)
  refine ⟨by decide +kernel, ?_⟩
  refine (batchAddChunkserver_registers_iff oneTable (List.forall_mem_singleton.mpr rfl)
    (List.pairwise_singleton _ _)).mpr ⟨Nat.le_refl 1, ?_⟩
  -- the table has one key
  have hkey : ∀ key p, oneTable.serverInfo.index.lookup key = some p →
      key = anotherChunkserver.key := by
    intro key p hp
    rw [hbefore.lookup] at hp
    split at hp
    · rename_i hmem
      exact List.mem_singleton.mp hmem
    · cases hp
  intro key key' p _ _ hp hp'
  rw [hkey key p hp, hkey key' p hp']

/-- The list of the installation guide, cut to two servers. -/
def guideItems : List ServerTables.BatchItem :=
  [⟨oneChunkserver, true, 5⟩, ⟨anotherChunkserver, true, 5⟩]

theorem batchAddChunkserver_aliases :
    guideItems.Pairwise (fun a b => a.chunkserver.identity ≠ b.chunkserver.identity) ∧
    ¬ Registers noTables (noTables.batchAddChunkserver guideItems).1 guideItems ∧
    (((noTables.batchAddChunkserver guideItems).1.updateChunkserverInfo oneChunkserver.key
      roStatus).serverInfo.entry anotherChunkserver.key).map MetadataChunkserver.status =
        some roStatus := by
  have hport : ((noTables.batchAddChunkserver guideItems).1.serverInfo.entry
      oneChunkserver.key).map MetadataChunkserver.port = some 7655 := by
    decide +kernel
  refine ⟨by decide, ?_, by decide +kernel⟩
  intro h
  obtain ⟨c, hc, hid, -⟩ := h.registered _ List.mem_cons_self
  have hother : c.port = 7655 := by
    rw [hc] at hport
    exact Option.some.inj hport
  have hown : c.port = 7654 := congrArg (fun i => i.2.2) hid
  rw [hown] at hother
  exact absurd hother (by decide)

end Speedy.Chunkmaster
