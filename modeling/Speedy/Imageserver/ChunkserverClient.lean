import Speedy.Lib.Words

/-! # Requests to a chunkserver

What `Ping`, `PutData` and `GetData` write to their connection before they read the
response. -/
namespace Speedy.Imageserver
open Speedy.Lib

/-- `PUT`, `GET` and `PING` -/
def opPut : Nat := 0x00
def opGet : Nat := 0x01
def opPing : Nat := 0x0A

/-- A request with what it is made from: `cs.GroupId` and `fileId` of `PutData`, and
`miv.GroupId` and `miv.FileId` of `GetData` -/
inductive ChunkRequest where
  | ping
  | putData (groupId : Int32) (fileId : UInt64) (data : List UInt8)
  | getData (groupId : UInt16) (fileId : UInt64)
  deriving DecidableEq, Repr

namespace ChunkRequest

def opcode : ChunkRequest → Nat
  | .ping => opPing
  | .putData _ _ _ => opPut
  | .getData _ _ => opGet

/-- The group id as two bytes hold it: `uint16(cs.GroupId)` cuts off the upper half. -/
def encodedGroup : ChunkRequest → UInt16
  | .ping => 0
  | .putData groupId _ _ => groupId.toUInt32.toUInt16
  | .getData groupId _ => groupId

def payload : ChunkRequest → List UInt8
  | .putData _ _ data => data
  | _ => []

/-- The calls of `binary.Write(output, binary.BigEndian, ..)`, one after the other -/
def encode : ChunkRequest → List UInt8
  | .ping => beEncode 1 opPing ++ beEncode 4 0
  | .putData groupId fileId data =>
    beEncode 1 opPut ++ (beEncode 4 (u32 (data.length + 2 + 8)) ++
      (beEncode 2 groupId.toUInt32.toUInt16.toNat ++ (beEncode 8 fileId.toNat ++ data)))
  | .getData groupId fileId =>
    beEncode 1 opGet ++ (beEncode 4 (2 + 8) ++
      (beEncode 2 groupId.toNat ++ beEncode 8 fileId.toNat))

/-- The payload leaves room for the inner header in 32 bits. -/
def Short (r : ChunkRequest) : Prop := r.payload.length < 4294967296 - 10

instance (r : ChunkRequest) : Decidable r.Short := inferInstanceAs (Decidable (_ < _))

end ChunkRequest

/-! ## Responses

`none` until `conn.br` has the bytes that are waited for. -/

/-- `io.ReadFull(conn.br, ..)`: what is read, and what is left -/
def readFull (br : List UInt8) (n : Nat) : Option (List UInt8 × List UInt8) :=
  if n ≤ br.length then some (br.take n, br.drop n) else none

/-- The first two bytes of a header, the length behind them, and what is left -/
def readHeader (br : List UInt8) : Option (UInt8 × UInt8 × Nat × List UInt8) :=
  (readFull br 6).map fun (header, rest) =>
    (header.getD 0 0, header.getD 1 0, beDecode (header.drop 2), rest)

/-- What `Ping` returns; the error tells both bytes. -/
def pingResponse (br : List UInt8) : Option (Except (UInt8 × UInt8) Unit) :=
  (readHeader br).map fun (op, code, _) =>
    if op.toNat ≠ opPing ∨ code ≠ 0 then .error (op, code) else .ok ()

/-- What `PutData` returns; the error tells the code. -/
def putDataResponse (br : List UInt8) : Option (Except UInt8 Unit) :=
  (readHeader br).map fun (op, code, _) =>
    if op.toNat = opPut ∧ code = 0 then .ok () else .error code

/-- What `GetData` returns; a body is only read behind a good header. -/
def getDataResponse (br : List UInt8) : Option (Except UInt8 (List UInt8)) :=
  match readHeader br with
  | none => none
  | some (op, code, bodyLen, rest) =>
    if op.toNat ≠ opGet ∨ code ≠ 0 then some (.error code)
    else (readFull rest bodyLen).map fun x => .ok x.1

section Responses
variable {br rest body : List UInt8} {op code : Nat} {x : UInt8 × UInt8 × Nat × List UInt8}

/-- The header of what has come so far of a response. -/
theorem readHeader_of_isPrefix (hlen : body.length < 4294967296)
    (h : br <+: beEncode 1 op ++ (beEncode 1 code ++ (beEncode 4 body.length ++ body)))
    (hx : readHeader br = some x) :
    ∃ rest, rest <+: body ∧ x = (UInt8.ofNat op, UInt8.ofNat code, body.length, rest) := by
  obtain ⟨⟨header, rest⟩, hread, rfl⟩ := Option.map_eq_some_iff.mp hx
  unfold readFull at hread
  split at hread
  · rename_i hsix
    obtain ⟨rfl, rfl⟩ := Prod.mk.inj (Option.some.inj hread)
    obtain ⟨more, hmore⟩ := h
    have hone : ∀ v, beEncode 1 v = [UInt8.ofNat v] := fun v => by simp [beEncode]
    rw [hone, hone, ← List.take_append_drop 6 br, List.append_assoc] at hmore
    obtain ⟨hhead, htail⟩ : br.take 6 = UInt8.ofNat op :: UInt8.ofNat code ::
        beEncode 4 body.length ∧ br.drop 6 ++ more = body := by
      refine List.append_inj hmore ?_
      simp [hsix]
    refine ⟨br.drop 6, ⟨more, htail⟩, ?_⟩
    rw [hhead]
    simp only [List.getD_cons_zero, List.getD_cons_succ, List.drop_succ_cons, List.drop_zero]
    rw [beDecode_beEncode_of_lt hlen]
  · cases hread

end Responses
end Speedy.Imageserver
