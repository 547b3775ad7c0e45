import Speedy.Chunkserver.BookSim

/-! # Requests on the wire

A request is five bytes, the opcode and the length of the body, and the body. What
the connection holds of a request that is still incomplete depends on the bytes
only, not on the reads they came with; the read that completes it calls the handler. -/
namespace Speedy.Chunkserver
open Speedy.Lib

/-- The length of the body, as the header says. -/
def announced (bytes : Bytes) : Nat := spyMachReadFrom4 ((bytes.take reqHdrSize).drop 1)

/-- The header is there and the whole body. -/
def Complete (bytes : Bytes) : Prop := 5 ≤ bytes.length ∧ announced bytes ≤ bytes.length - 5

instance (bytes : Bytes) : Decidable (Complete bytes) := inferInstanceAs (Decidable (_ ∧ _))

/-- A connection that has got these bytes of a request, in so many blocks. -/
def Connection.received (conn : Connection) (bytes : Bytes) (blocks : Nat) : Connection :=
  if bytes.length < 5 then { conn with request := ⟨bytes, 0, blocks⟩, state := .receiveHdr }
  else { conn with
    request := ⟨bytes, 5, blocks⟩
    opcode := spyMachReadFrom1 (bytes.take reqHdrSize)
    bodyLen := announced bytes
    state := .receiveBody }

/-- The connection as the handler gets it. -/
def Connection.called (conn : Connection) (bytes : Bytes) (blocks : Nat) : Connection :=
  { conn with
    request := ⟨bytes, 5, blocks⟩
    opcode := spyMachReadFrom1 (bytes.take reqHdrSize)
    bodyLen := announced bytes
    state := .processRequest }

section Receive
variable {cfg : Config} {s : Server} {c blocks : Nat} {conn : Connection} {bytes more bs : Bytes}
  {mem : MemBlocks} {request : RwBuffer} {len : Nat} {env : Env}

theorem take_announced (more : Bytes) (h : 5 ≤ bytes.length) :
    (bytes ++ more).take reqHdrSize = bytes.take reqHdrSize :=
  List.take_append_of_le_length h

theorem announced_append (more : Bytes) (h : 5 ≤ bytes.length) :
    announced (bytes ++ more) = announced bytes := by
  unfold announced
  rw [take_announced more h]

theorem received_readable : (conn.received bytes blocks).readable = conn.readable := by
  unfold Connection.received
  split <;> rfl

theorem received_request (conn : Connection) (bytes : Bytes) (blocks : Nat) :
    (conn.received bytes blocks).request =
      ⟨bytes, if bytes.length < 5 then 0 else 5, blocks⟩ := by
  unfold Connection.received
  split <;> rfl

/-- Bytes are read behind those that were there, and the header once it is complete. -/
theorem receiveHdr_received (b' : Nat) :
    receiveHdr { conn.received bytes blocks with
      request := ⟨bytes ++ more, if bytes.length < 5 then 0 else 5, b'⟩ } =
        .ok (conn.received (bytes ++ more) b') := by
  unfold Connection.received
  by_cases hlt : bytes.length < 5
  · rw [if_pos hlt, if_pos hlt]
    by_cases hlt' : (bytes ++ more).length < 5
    · rw [if_pos hlt']
      unfold receiveHdr
      rw [if_neg]
      rintro ⟨_, hge⟩
      exact absurd hge (Nat.not_le_of_lt hlt')
    · rw [if_neg hlt']
      have hge : 5 ≤ (bytes ++ more).length := Nat.le_of_not_lt hlt'
      have hlen : ((bytes ++ more).take 5).length = 5 := by
        rw [List.length_take]
        exact Nat.min_eq_left hge
      unfold receiveHdr
      rw [if_pos ⟨rfl, hge⟩]
      simp only [spyRwBufferReadN, RwBuffer.unread, List.drop_zero, reqHdrSize, hlen, if_true,
        RwBuffer.skip, announced]
  · have hge : 5 ≤ bytes.length := Nat.le_of_not_lt hlt
    have hge' : ¬ (bytes ++ more).length < 5 := by
      rw [List.length_append]
      omega
    rw [if_neg hlt, if_neg hlt, if_neg hge', take_announced more hge, announced_append more hge]
    unfold receiveHdr
    rw [if_neg]
    exact fun hst => absurd hst.1 (by simp)

theorem receiveBody_incomplete (h : ¬ Complete bytes) :
    receiveBody (conn.received bytes blocks) = conn.received bytes blocks := by
  unfold receiveBody Connection.received
  by_cases hlt : bytes.length < 5
  · rw [if_pos hlt, if_neg]
    exact fun hst => absurd hst.1 (by simp)
  · rw [if_neg hlt, if_neg]
    exact fun hst => h ⟨Nat.le_of_not_lt hlt, hst.2⟩

theorem receiveBody_complete (h : Complete bytes) :
    receiveBody (conn.received bytes blocks) = conn.called bytes blocks := by
  unfold receiveBody Connection.received
  rw [if_neg (Nat.not_lt_of_le h.1), if_pos ⟨rfl, h.2⟩]
  rfl

/-- What a `read()` finds: a writeable area behind the bytes that are there. -/
theorem writeableArea_eq {b : RwBuffer} {calloc : Bool}
    (h : writeableArea s b calloc = some (mem, request, len)) :
    request = { b with blocks := request.blocks } := by
  obtain ⟨k, -, rfl, -⟩ := writeableArea_draws h
  rfl

/-- A read event on a connection that is receiving, up to the parser. -/
theorem step_readable (hc : s.conns c = some (conn.received bytes blocks))
    (hread : conn.readable = true)
    (harea : writeableArea s (conn.received bytes blocks).request env.calloc =
      some (mem, request, len)) (hne : bs.take len ≠ []) :
    step cfg s (.readable c (.data bs) env) = spyProcessReceiveBuffer cfg { s with mem := mem } c
      { conn.received bytes blocks with
        request := ⟨bytes ++ bs.take len, if bytes.length < 5 then 0 else 5, request.blocks⟩ }
      env := by
  have hput : request.put (bs.take len) =
      ⟨bytes ++ bs.take len, if bytes.length < 5 then 0 else 5, request.blocks⟩ := by
    rw [writeableArea_eq harea, received_request]
    rfl
  have hlen : ¬ (bs.take len).length = 0 := fun h => hne (List.eq_nil_of_length_eq_zero h)
  simp only [step, hc]
  rw [if_pos (received_readable.trans hread)]
  unfold spyReadHandler
  rw [harea]
  simp only
  rw [if_neg hlen, hput]

/-- A read that leaves the request incomplete. -/
theorem step_readable_incomplete (hc : s.conns c = some (conn.received bytes blocks))
    (hread : conn.readable = true)
    (harea : writeableArea s (conn.received bytes blocks).request env.calloc =
      some (mem, request, len)) (hne : bs.take len ≠ []) (hp : ¬ Complete (bytes ++ bs.take len)) :
    step cfg s (.readable c (.data bs) env) =
      .ok ({ s with mem := mem }.setConn c
        (conn.received (bytes ++ bs.take len) request.blocks)) := by
  rw [step_readable hc hread harea hne]
  unfold spyProcessReceiveBuffer
  rw [receiveHdr_received]
  simp only [bind, Except.bind]
  rw [receiveBody_incomplete hp, if_neg]
  · rfl
  · unfold Connection.received
    split <;> simp

/-- A read that completes the request. -/
theorem step_readable_complete (hc : s.conns c = some (conn.received bytes blocks))
    (hread : conn.readable = true)
    (harea : writeableArea s (conn.received bytes blocks).request env.calloc =
      some (mem, request, len)) (hne : bs.take len ≠ []) (hp : Complete (bytes ++ bs.take len)) :
    step cfg s (.readable c (.data bs) env) = dispatch cfg { s with mem := mem } c
      (conn.called (bytes ++ bs.take len) request.blocks) env := by
  rw [step_readable hc hread harea hne]
  unfold spyProcessReceiveBuffer
  rw [receiveHdr_received]
  simp only [bind, Except.bind]
  rw [receiveBody_complete hp]
  exact if_pos rfl

/-- The handler call of a read is decided by the bytes that are there after it. -/
theorem arrived_received {calloc : Bool}
    (harea : writeableArea s (conn.received bytes blocks).request calloc =
      some (mem, request, len)) (hne : bs.take len ≠ []) :
    arrived s (conn.received bytes blocks) (.data bs) calloc =
      if Complete (bytes ++ bs.take len) then
        some (conn.called (bytes ++ bs.take len) request.blocks) else none := by
  have hput : request.put (bs.take len) =
      ⟨bytes ++ bs.take len, if bytes.length < 5 then 0 else 5, request.blocks⟩ := by
    rw [writeableArea_eq harea, received_request]
    rfl
  have hlen : ¬ (bs.take len).length = 0 := fun h => hne (List.eq_nil_of_length_eq_zero h)
  unfold arrived
  rw [harea]
  simp only
  rw [if_neg hlen, hput, receiveHdr_received]
  simp only
  by_cases hp : Complete (bytes ++ bs.take len)
  · rw [if_pos hp, receiveBody_complete hp]
    exact if_pos rfl
  · rw [if_neg hp, receiveBody_incomplete hp, if_neg]
    unfold Connection.received
    split <;> simp

/-- A `read()` that brings nothing leaves what was received, perhaps with a block more. -/
theorem step_readable_eagain {s' : Server} (hc : s.conns c = some conn)
    (hs : step cfg s (.readable c .eagain env) = .ok s') {conn' : Connection}
    (hc' : s'.conns c = some conn') :
    ∃ b, conn' = { conn with request := { conn.request with blocks := b } } := by
  simp only [step, hc] at hs
  split at hs
  · unfold spyReadHandler at hs
    split at hs
    · obtain rfl := Except.ok.inj hs
      cases (if_pos rfl).symm.trans hc'
    · rename_i mem request len harea
      obtain rfl := Except.ok.inj hs
      obtain rfl := Option.some.inj ((if_pos rfl).symm.trans hc')
      refine ⟨request.blocks, ?_⟩
      rw [← writeableArea_eq harea]
  · cases hs

end Receive

/-! ## Encoded requests -/

/-- A request with this body. -/
def frame (opcode : Nat) (body : Bytes) : Bytes :=
  spyMachWriteTo1 opcode ++ (spyMachWriteTo4 body.length ++ body)

/-- The body of a WRITE or a READ: server id, fid, and what follows them. -/
def innerBody (serverId : Nat) (fid : UInt64) (payload : Bytes) : Bytes :=
  spyMachWriteTo2 serverId ++ (spyMachWriteTo8 fid.toNat ++ payload)

section Frame
variable {opcode : Nat} {body payload : Bytes} {serverId : Nat} {fid : UInt64}

theorem frame_length (opcode : Nat) (body : Bytes) :
    (frame opcode body).length = 5 + body.length := by
  simp only [frame, spyMachWriteTo1, spyMachWriteTo4, List.length_append, beEncode_length]
  omega

theorem innerBody_length (serverId : Nat) (fid : UInt64) (payload : Bytes) :
    (innerBody serverId fid payload).length = 10 + payload.length := by
  simp only [innerBody, spyMachWriteTo2, spyMachWriteTo8, List.length_append, beEncode_length]
  omega

theorem frame_take (opcode : Nat) (body : Bytes) :
    (frame opcode body).take reqHdrSize =
      spyMachWriteTo1 opcode ++ spyMachWriteTo4 body.length := by
  unfold frame
  rw [← List.append_assoc]
  exact List.take_left' (by simp [spyMachWriteTo1, spyMachWriteTo4])

theorem frame_drop (opcode : Nat) (body : Bytes) : (frame opcode body).drop reqHdrSize = body := by
  unfold frame
  rw [← List.append_assoc]
  exact List.drop_left' (by simp [spyMachWriteTo1, spyMachWriteTo4])

/-- What follows the inner header. -/
theorem frame_payload (opcode serverId : Nat) (fid : UInt64) (payload : Bytes) :
    (frame opcode (innerBody serverId fid payload)).drop 15 = payload := by
  have hdrop := frame_drop opcode (innerBody serverId fid payload)
  rw [show (15 : Nat) = reqHdrSize + 10 from rfl, ← List.drop_drop, hdrop]
  unfold innerBody
  rw [← List.append_assoc]
  exact List.drop_left' (by simp [spyMachWriteTo2, spyMachWriteTo8])

theorem announced_frame (h : body.length < 4294967296) :
    announced (frame opcode body) = body.length := by
  unfold announced
  rw [frame_take]
  have hdrop : (spyMachWriteTo1 opcode ++ spyMachWriteTo4 body.length).drop 1 =
      spyMachWriteTo4 body.length := List.drop_left' (by simp [spyMachWriteTo1])
  rw [hdrop]
  unfold spyMachReadFrom4 spyMachWriteTo4
  rw [List.take_of_length_le (Nat.le_of_eq (beEncode_length 4 _))]
  exact beDecode_beEncode_of_lt h

theorem frame_complete (h : body.length < 4294967296) : Complete (frame opcode body) := by
  refine ⟨?_, ?_⟩
  · rw [frame_length]
    exact Nat.le_add_right 5 _
  · rw [announced_frame h, frame_length, Nat.add_sub_cancel_left]

/-- Part of a request is not a complete one. -/
theorem not_complete_of_append {bytes more : Bytes} (h : body.length < 4294967296)
    (he : bytes ++ more = frame opcode body) (hne : more ≠ []) : ¬ Complete bytes := by
  rintro ⟨h5, hle⟩
  have hlen := congrArg List.length he
  rw [List.length_append, frame_length] at hlen
  have hann : announced (frame opcode body) = body.length := announced_frame h
  rw [← he, announced_append more h5] at hann
  have hpos := List.length_pos_iff.mpr hne
  omega

theorem frame_opcode (h : opcode < 256) :
    spyMachReadFrom1 ((frame opcode body).take reqHdrSize) = opcode := by
  rw [frame_take]
  unfold spyMachReadFrom1 spyMachWriteTo1
  rw [take_beEncode_append]
  exact beDecode_beEncode_of_lt h

/-- The inner header of a request is read as it was encoded, and the payload is left. -/
theorem readInnerHdr_called (conn : Connection) (blocks : Nat) (hid : serverId < 65536) :
    readInnerHdr (conn.called (frame opcode (innerBody serverId fid payload)) blocks) =
      .ok (serverId, fid, { conn.called (frame opcode (innerBody serverId fid payload)) blocks with
        request := ⟨frame opcode (innerBody serverId fid payload), 15, blocks⟩ }) := by
  have hunread : (RwBuffer.unread ⟨frame opcode (innerBody serverId fid payload), 5, blocks⟩) =
      innerBody serverId fid payload := frame_drop _ _
  have htake : (innerBody serverId fid payload).take reqInnerHdrSize =
      spyMachWriteTo2 serverId ++ spyMachWriteTo8 fid.toNat := by
    unfold innerBody
    rw [← List.append_assoc]
    exact List.take_left' (by simp [spyMachWriteTo2, spyMachWriteTo8])
  have hlen : (spyMachWriteTo2 serverId ++ spyMachWriteTo8 fid.toNat).length = reqInnerHdrSize := by
    simp [spyMachWriteTo2, spyMachWriteTo8]
  have hserver : spyMachReadFrom2 (spyMachWriteTo2 serverId ++ spyMachWriteTo8 fid.toNat) =
      serverId := by
    unfold spyMachReadFrom2 spyMachWriteTo2
    rw [take_beEncode_append]
    exact beDecode_beEncode_of_lt hid
  have hfid : spyMachReadFrom8 ((spyMachWriteTo2 serverId ++ spyMachWriteTo8 fid.toNat).drop 2) =
      fid.toNat := by
    unfold spyMachReadFrom8 spyMachWriteTo2 spyMachWriteTo8
    rw [drop_beEncode_append, List.take_of_length_le (Nat.le_of_eq (beEncode_length 8 _))]
    exact beDecode_beEncode_of_lt fid.toNat_lt
  unfold readInnerHdr Connection.called
  simp only [spyRwBufferReadN, hunread, htake, hlen, if_true, hserver, hfid, UInt64.ofNat_toNat]
  rfl

end Frame
end Speedy.Chunkserver
