import Speedy.Chunkserver.Placement
import Speedy.Imageserver.GroupSelection

/-! # Does the chosen group have room?

The imageserver compares the size of an upload with the free space the servers
report; a chunkserver then looks for a chunk with room for the payload and its
header. The two tests differ by `FILE_META_SIZE`, and by the chunks that the report
counts and the allocation does not. -/
namespace Speedy.Cluster
open Speedy.Lib Speedy.Chunkserver Speedy.Imageserver

/-- A chunkserver behind an entry of the routing table. -/
structure ServerNode where
  cfg : Config
  server : Server
  sized : server.Sized

/-- The free space in the routing table is what the servers compute. -/
def Reported (groups : GroupMap) (node : ChunkServer → ServerNode) : Prop :=
  ∀ group ∈ groups.entries, ∀ cs ∈ group.2, cs.status = rwStatus →
    cs.maxFreeSpace = (spyCollectFreeSpace (node cs).server).2

section Select
variable {limitNum size : Int} {groups : GroupMap} {rand : Nat} {group : List ChunkServer}
  {node : ChunkServer → ServerNode} {cs : ChunkServer}

/-- The selected size is below what any RW server of the group reports. -/
theorem selected_lt_report (hrep : Reported groups node)
    (hsel : selectChunkServerGroupComplex limitNum groups rand size = .ok group)
    (hcs : cs ∈ group) (hrw : cs.status = rwStatus) :
    size < (spyCollectFreeSpace (node cs).server).2 := by
  obtain ⟨⟨id, hid⟩, hel⟩ := selectChunkServerGroupComplex_eligible hsel
  have hspace := hel.space cs hcs hrw
  rwa [hrep _ hid cs hcs hrw] at hspace

/-- On the servers of a selected group a write finds a chunk at once exactly when
there is room for the payload and `FILE_META_SIZE` more in a chunk that is not in
`writing_chunks`. -/
theorem selected_group_takes_iff (hrep : Reported groups node)
    (hsel : selectChunkServerGroupComplex limitNum groups rand size = .ok group)
    (w : (cs : ChunkServer) → WriteOf (node cs).cfg (node cs).server size.toNat) :
    (∀ cs ∈ group, cs.status = rwStatus → (w cs).TakesChunk) ↔
      ∀ cs ∈ group, cs.status = rwStatus →
        size + fileMetaSize < (allocFreeSpace (node cs).server).2 := by
  have hpos := selectChunkServerGroupComplex_pos hsel
  refine forall_congr' fun cs => forall_congr' fun hcs => forall_congr' fun hrw => ?_
  have hlt := selected_lt_report hrep hsel hcs hrw
  have hle := (node cs).sized.report_le
  simp only [defChunkSize] at hle
  rw [(w cs).takesChunk_iff (by omega)]
  omega

end Select

/-- A new server whose chunks got one file each, which left 1000 bytes in them. -/
def fullServer : Server :=
  { newServer sampleConfig with
    chunk := fun id => (spyAllocChunk id defChunkSize).commit 2147482563 }

theorem fullServer_availSpace (id : UInt64) : (fullServer.chunk id).availSpace = 1000 := by
  show u64 ((2147483593 : Nat) - u32 ((2147482563 : Nat) + (30 : Nat))) = 1000
  decide

def fullNode : ServerNode where
  cfg := sampleConfig
  server := fullServer
  sized := by
    intro id _
    rw [fullServer_availSpace]
    decide

def fullChunkServer : ChunkServer := ⟨7, "10.0.0.1", 8000, 1, 0, 1000, 0, 0⟩

def fullGroups : GroupMap := ⟨[("7", [fullChunkServer])], by simp⟩

theorem fullGroups_reported : Reported fullGroups fun _ => fullNode := by
  intro group hg cs hcs _
  obtain rfl := List.mem_singleton.mp hg
  obtain rfl := List.mem_singleton.mp hcs
  decide +kernel

/-- A WRITE of `size` zeros under fid 9. -/
def zerosWrite (size : Nat) : WriteOf sampleConfig fullServer size where
  c := 1
  conn := { Connection.new with
    request := ⟨[0, 1, 0, 0, 0, 0, 0, 0, 0, 9] ++ List.replicate size 0, 0, 1⟩
    bodyLen := size + reqInnerHdrSize
    state := .processRequest }
  env := ⟨0, 0, true, true⟩
  fid := 9
  rest := { Connection.new with
    request := ⟨[0, 1, 0, 0, 0, 0, 0, 0, 0, 9] ++ List.replicate size 0, 10, 1⟩
    bodyLen := size + reqInnerHdrSize
    state := .processRequest }
  length := rfl
  header := rfl
  unstored := rfl

theorem selected_group_takes_900 :
    selectChunkServerGroupComplex 1 fullGroups 0 900 = .ok [fullChunkServer] ∧
      ∀ cs ∈ [fullChunkServer], cs.status = rwStatus → (zerosWrite 900).TakesChunk := by
  have hsel : selectChunkServerGroupComplex 1 fullGroups 0 900 = .ok [fullChunkServer] := rfl
  refine ⟨hsel, ?_⟩
  exact (selected_group_takes_iff fullGroups_reported hsel fun _ => zerosWrite 900).mpr
    (by decide +kernel)

/-- The group is selected for 980 bytes, and then the write has to wait although
nothing else is going on. -/
theorem selected_group_pends_980 :
    Reported fullGroups (fun _ => fullNode) ∧ fullServer.works = [] ∧
      selectChunkServerGroupComplex 1 fullGroups 0 980 = .ok [fullChunkServer] ∧
      ¬ (zerosWrite 980).TakesChunk ∧
      ∃ s', spyHandleWrite sampleConfig fullServer 1 (zerosWrite 980).conn ⟨0, 0, true, true⟩ =
        .ok s' ∧ s'.pendingWrites.map (fun job => job.file.size) = [980] := by
  refine ⟨fullGroups_reported, rfl, rfl, ?_, _, (zerosWrite 980).handle, ?_⟩
  · rw [WriteOf.takesChunk_iff _ (by omega)]
    decide +kernel
  · decide +kernel

end Speedy.Cluster
