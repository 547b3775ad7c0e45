import Speedy.Chunkserver.DumpFile
import Speedy.Lib.Pieces

/-! # The client of a chunk dump

`SpyClient.dumpChunk` asks a chunkserver for a chunk file and stores what it gets. It reads
the header through the buffered reader of the client and the body from the connection
itself. What the reader has fetched behind the header is not looked at again, so the file is
complete only when a read of the connection ended exactly behind the header. -/
namespace Speedy.Chunktool
open Speedy.Lib Speedy.Chunkserver

/-! ## The client -/

def opcodeDumpChunk : Nat := 40

/-- What a read finds behind everything that arrives: the end of the stream, an error, or
nothing yet. -/
inductive Ending where
  | eof
  | failed
  | waiting
  deriving DecidableEq, Repr

/-- The places where `dumpChunk` returns, and the reads at which it waits. -/
inductive DumpEnd where
  | noNames
  | writeError
  | headerError
  | refused (opcode : Nat)
  | noBody
  | createError
  | readError
  | eof
  | fileError
  | complete
  | waiting
  deriving DecidableEq, Repr

/-- Where the loop over the body leaves when nothing more arrives. -/
def Ending.inBody : Ending → DumpEnd
  | .eof => .eof
  | .failed => .readError
  | .waiting => .waiting

/-- The same for `io.ReadFull` of the header. -/
def Ending.inHeader : Ending → DumpEnd
  | .waiting => .waiting
  | _ => .headerError

/-- The calls that can fail: the `Write` of the request, `os.Create`, and the `Write`s to the
file, the `i`-th of which may stop after a number of bytes. -/
structure Outside where
  writes : Bool
  creates : Bool
  stores : Nat → Option Nat

/-- Nothing fails. -/
def Outside.Works (o : Outside) : Prop :=
  o.writes = true ∧ o.creates = true ∧ ∀ i, o.stores i = none

/-- The loop over the body: where it ends, and the file. -/
def receiveBody (o : Outside) (ending : Ending) (i bodyLen : Nat) (pieces : List Bytes)
    (file : Bytes) : DumpEnd × Bytes :=
  match _h : readPiece 4096 pieces with
  | none => (ending.inBody, file)
  | some (data, rest) =>
    match o.stores i with
    | some n => (.fileError, file ++ data.take n)
    | none =>
      let bodyLen := u32 (bodyLen - data.length)
      if bodyLen = 0 then (.complete, file ++ data)
      else receiveBody o ending (i + 1) bodyLen rest (file ++ data)
termination_by weight pieces
decreasing_by exact (readPiece_weight _h (by decide)).2

def dumpRequest (name : Bytes) : Bytes :=
  beEncode 1 opcodeDumpChunk ++ (beEncode 4 (u32 name.length) ++ name)

/-- What `dumpChunk` leaves: where it ended, what it sent, and the target file if it was
created. -/
structure DumpResult where
  ended : DumpEnd
  request : Bytes
  file : Option Bytes
  deriving DecidableEq, Repr

/-- `SpyClient.dumpChunk` on a connection on which `pieces` arrive; `c.rb` has room for 1024
bytes. -/
def dumpChunk (o : Outside) (name target : Bytes) (pieces : List Bytes) (ending : Ending) :
    DumpResult :=
  if name.length = 0 ∨ target.length = 0 then ⟨.noNames, [], none⟩
  else if o.writes = false then ⟨.writeError, [], none⟩
  else
    match BufReader.readFull 6 ⟨1024, by decide, [], pieces⟩ with
    | none => ⟨ending.inHeader, dumpRequest name, none⟩
    | some (header, rb) =>
      if header.getD 0 0 ≠ UInt8.ofNat opcodeDumpChunk ∨ header.getD 1 0 ≠ 0 then
        ⟨.refused (header.getD 0 0).toNat, dumpRequest name, none⟩
      else
        let bodyLen := beDecode ((header.drop 2).take 4)
        if bodyLen = 0 then ⟨.noBody, dumpRequest name, none⟩
        else if o.creates = false then ⟨.createError, dumpRequest name, none⟩
        else
          let (ended, file) := receiveBody o ending 0 bodyLen rb.pieces []
          ⟨ended, dumpRequest name, some file⟩

/-- `dumpChunk` returns, and the target file is the body. -/
def DumpResult.Stores (r : DumpResult) (body : Bytes) : Prop :=
  r.ended ≠ .waiting ∧ r.file = some body

/-! ## The loop over the body -/

section DumpClient
variable {o : Outside} {ending : Ending} {pieces rest : List Bytes} {i bodyLen : Nat} {file : Bytes}

theorem receiveBody_nothing (h : readPiece 4096 pieces = none) :
    receiveBody o ending i bodyLen pieces file = (ending.inBody, file) := by
  rw [receiveBody]
  split
  · rfl
  · rename_i hsome
    rw [h] at hsome
    cases hsome

theorem receiveBody_piece {data : Bytes} (hstores : o.stores i = none)
    (h : readPiece 4096 pieces = some (data, rest)) :
    receiveBody o ending i bodyLen pieces file =
      if u32 (bodyLen - data.length) = 0 then (.complete, file ++ data)
      else receiveBody o ending (i + 1) (u32 (bodyLen - data.length)) rest (file ++ data) := by
  rw [receiveBody]
  split
  · rename_i hnone
    rw [h] at hnone
    cases hnone
  · rename_i hsome
    rw [h] at hsome
    cases hsome
    simp only [hstores]

/-- Everything that arrives is stored, and the loop counts to zero exactly when that is the
whole body. -/
theorem receiveBody_eq (hstores : ∀ i, o.stores i = none) (hsolid : Solid pieces)
    (hle : pieces.flatten.length ≤ bodyLen) (hpos : 0 < bodyLen) (hlt : bodyLen < 4294967296) :
    receiveBody o ending i bodyLen pieces file =
      (if pieces.flatten.length = bodyLen then .complete else ending.inBody,
        file ++ pieces.flatten) := by
  generalize hw : weight pieces = w
  induction w using Nat.strongRecOn generalizing i bodyLen pieces file with
  | ind w ih =>
    cases hread : readPiece 4096 pieces with
    | none =>
      obtain rfl := readPiece_eq_none.mp hread
      rw [receiveBody_nothing hread, if_neg (by show 0 ≠ bodyLen; omega)]
      simp
    | some got =>
      obtain ⟨data, rest⟩ := got
      have hflat := readPiece_flatten hread
      obtain ⟨-, hlighter⟩ := readPiece_weight hread (by decide)
      obtain ⟨hdata, hrest⟩ := readPiece_solid hread (by decide) hsolid
      have hlen := congrArg List.length hflat
      rw [List.length_append] at hlen
      have hone := List.length_pos_of_ne_nil hdata
      have hcount : u32 ((bodyLen : Int) - data.length) = bodyLen - data.length := by
        unfold u32
        omega
      rw [receiveBody_piece (hstores i) hread, hcount]
      by_cases hend : bodyLen - data.length = 0
      · have hnil : rest.flatten = [] := List.eq_nil_of_length_eq_zero (by omega)
        rw [if_pos hend, if_pos (by omega), hflat, hnil, List.append_nil]
      · rw [if_neg hend, ih _ (hw ▸ hlighter) hrest (by omega) (by omega) (by omega) rfl, hflat,
          List.append_assoc]
        congr 1
        exact if_congr (by rw [List.length_append]; omega) rfl rfl

/-- The header is accepted, and the loop over the body gets the pieces that the reader of
the header has left on the connection. -/
theorem dumpChunk_eq {o : Outside} (ho : o.Works) {name target : Bytes} (hname : name ≠ [])
    (htarget : target ≠ []) {n : Nat} (hpos : 0 < n) (hlt : n < 4294967296) {rb : BufReader UInt8}
    (hheader : BufReader.readFull 6 ⟨1024, by decide, [], pieces⟩ =
      some (dumpHeader opcodeDumpChunk n, rb)) (ending : Ending) :
    dumpChunk o name target pieces ending =
      ⟨(receiveBody o ending 0 n rb.pieces []).1, dumpRequest name,
        some (receiveBody o ending 0 n rb.pieces []).2⟩ := by
  obtain ⟨hwrites, hcreates, -⟩ := ho
  have hnames : ¬ (name.length = 0 ∨ target.length = 0) := by
    rw [List.length_eq_zero_iff, List.length_eq_zero_iff]
    exact not_or.mpr ⟨hname, htarget⟩
  have hlen : beDecode (((dumpHeader opcodeDumpChunk n).drop 2).take 4) = n :=
    dumpHeader_fileSize opcodeDumpChunk hlt
  have hfields : ¬ ((dumpHeader opcodeDumpChunk n).getD 0 0 ≠ UInt8.ofNat opcodeDumpChunk ∨
      (dumpHeader opcodeDumpChunk n).getD 1 0 ≠ 0) :=
    not_or.mpr ⟨not_not.mpr rfl, not_not.mpr rfl⟩
  unfold dumpChunk
  rw [if_neg hnames, if_neg (by rw [hwrites]; decide), hheader]
  simp only [if_neg hfields, hlen, if_neg (Nat.pos_iff_ne_zero.mp hpos), hcreates,
    Bool.true_eq_false, if_false]

end DumpClient

/-! ## The whole file -/

/-- The target file is the body, whatever the connection does afterwards, exactly when a
piece ended right behind the header. -/
theorem dump_is_stored_iff {o : Outside} (ho : o.Works) {name target : Bytes} (hname : name ≠ [])
    (htarget : target ≠ []) {body : Bytes} (hbody : body ≠ []) (hlt : body.length < 4294967296)
    {pieces : List Bytes} (hsolid : ∀ piece ∈ pieces, piece ≠ [])
    (hstream : pieces.flatten = dumpHeader opcodeDumpChunk body.length ++ body)
    (ending : Ending) :
    (dumpChunk o name target pieces ending).Stores body ↔
      ∃ k, (pieces.take k).flatten.length = rspHdrSize := by
  have hpos := List.length_pos_of_ne_nil hbody
  have hhead := dumpHeader_length opcodeDumpChunk body.length
  have hlen : 6 ≤ pieces.flatten.length := by
    rw [hstream, List.length_append, hhead]
    exact Nat.le_add_right _ _
  obtain ⟨header, rb, hfull, hhlen, hflat, hsolid', hiff⟩ :=
    BufReader.readFull_spec pieces (show 0 < 1024 by decide) hsolid (by decide) hlen
  obtain ⟨rfl, hrest⟩ := List.append_inj (hstream.symm.trans hflat) (hhead.trans hhlen.symm)
  have hsum := congrArg List.length hrest
  rw [List.length_append] at hsum
  have hloop : receiveBody o ending 0 body.length rb.pieces [] = _ :=
    receiveBody_eq ho.2.2 hsolid' (by omega) hpos hlt
  rw [dumpChunk_eq ho hname htarget hpos hlt hfull, hloop]
  refine Iff.trans ?_ hiff
  constructor
  · rintro ⟨-, hfile⟩
    have hall : rb.pieces.flatten = body := Option.some.inj hfile
    refine List.eq_nil_of_length_eq_zero ?_
    rw [hall] at hsum
    omega
  · intro hbuf
    rw [hbuf, List.nil_append] at hrest
    refine ⟨?_, congrArg some hrest.symm⟩
    show (if _ then DumpEnd.complete else _) ≠ _
    rw [if_pos (congrArg List.length hrest.symm)]
    exact nofun

/-- The header in two pieces, and the body in one. -/
theorem dump_is_stored_whole :
    (dumpChunk ⟨true, true, fun _ => none⟩ [49] [50] [[40, 0, 0], [0, 0, 2], [7, 8]]
      .waiting).Stores [7, 8] :=
  (dump_is_stored_iff ⟨rfl, rfl, fun _ => rfl⟩ (by decide) (by decide) (by decide) (by decide)
    (by decide) (by decide) .waiting).mpr ⟨2, rfl⟩

/-- The body comes with the header: none of it is stored, and the client waits for it. -/
theorem dump_is_lost_with_header :
    dumpChunk ⟨true, true, fun _ => none⟩ [49] [50] [[40, 0, 0, 0, 0, 2, 7, 8]] .waiting =
      ⟨.waiting, [40, 0, 0, 0, 1, 49], some []⟩ ∧
    dumpChunk ⟨true, true, fun _ => none⟩ [49] [50] [[40, 0, 0, 0, 0, 2, 7], [8]] .eof =
      ⟨.eof, [40, 0, 0, 0, 1, 49], some [8]⟩ := by
  decide +kernel

end Speedy.Chunktool
