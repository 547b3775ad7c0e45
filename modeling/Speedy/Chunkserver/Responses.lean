import Speedy.Chunkserver.Runs
import Speedy.Chunkserver.Turns

/-! # Responses on the wire

A response is six bytes, of which the last four are the length of the body, and the
body. What the client has of a response that is not sent to its end is less than its
header announces, so a client that has a whole response finds the connection reset. -/
namespace Speedy.Chunkserver
open Speedy.Lib

/-- The bytes one `write()` sends. -/
def Connection.piece (conn : Connection) (n : Nat) : Bytes :=
  if conn.sentlen < rspHdrSize then (conn.rspHeader.drop conn.sentlen.toNat).take n
  else conn.rspBody.unread.take n

/-- The bytes a call of `spy_write_handler` sends, in `sendLoop`'s rounds. -/
def sendOutput : List SockWrite → Connection → Bytes
  | [], _ => []
  | r :: results, conn => match conn.nextSend, r with
    | .ok (some len), .sent n =>
      conn.piece (min (max n 1) len) ++ sendOutput results (conn.sent (min (max n 1) len))
    | _, _ => []

/-- The header of a response is there and the whole body it announces. -/
def Whole (got : Bytes) : Prop :=
  6 ≤ got.length ∧ 6 + spyMachReadFrom4 (got.drop 2) ≤ got.length

instance (got : Bytes) : Decidable (Whole got) := inferInstanceAs (Decidable (_ ∧ _))

/-- `got` is what has been sent of the response. -/
structure Sending (conn : Connection) (got : Bytes) : Prop where
  state : conn.state = .sendRsp
  header : conn.rspHeader = spyMachWriteTo1 conn.opcode ++ (spyMachWriteTo1 conn.error.code ++
    spyMachWriteTo4 conn.bodyLen)
  bodyLen_lt : conn.bodyLen < 4294967296
  length : (got.length : Int) = conn.sentlen
  front : got.take 6 = conn.rspHeader.take got.length

section Responses
variable {s s' : Server} {c : Nat} {conn : Connection} {got : Bytes}

theorem Replying.sending (h : Replying conn) : Sending conn [] :=
  ⟨h.state, h.header, h.bodyLen_lt, h.sentlen.symm, rfl⟩

theorem Sending.rspHeader_length (h : Sending conn got) : conn.rspHeader.length = 6 := by
  rw [h.header]
  simp only [spyMachWriteTo1, spyMachWriteTo4, List.length_append, beEncode_length]

/-- A response that is not sent to its end is not whole. -/
theorem Sending.not_whole (h : Sending conn got) (hlt : conn.sentlen < rspHdrSize + conn.bodyLen) :
    ¬ Whole got := by
  rintro ⟨h6, hwhole⟩
  have hfront : got.take 6 = conn.rspHeader := by
    rw [h.front]
    exact List.take_of_length_le (h.rspHeader_length ▸ h6)
  have hdrop : (got.drop 2).take 4 = spyMachWriteTo4 conn.bodyLen := by
    have hswap : (got.drop 2).take 4 = (got.take 6).drop 2 := by rw [List.drop_take]
    rw [hswap, hfront, h.header, ← List.append_assoc]
    exact List.drop_left' (by simp [spyMachWriteTo1])
  have hread : spyMachReadFrom4 (got.drop 2) = conn.bodyLen := by
    unfold spyMachReadFrom4
    rw [hdrop]
    exact beDecode_beEncode_of_lt h.bodyLen_lt
  rw [hread] at hwhole
  have hlen := h.length
  have hlt' : conn.sentlen < ((6 : Nat) : Int) + conn.bodyLen := hlt
  omega

/-- One `write()` of a response. -/
theorem Sending.sent (h : Sending conn got) (hf : conn.Fine) {len n : Nat}
    (hnext : conn.nextSend = .ok (some len)) (hn : n ≤ len) :
    Sending (conn.sent n) (got ++ conn.piece n) := by
  obtain ⟨h1, h2, h3, h4⟩ := hf.sendable h.state
  have hlen6 := h.rspHeader_length
  have hlength := h.length
  unfold Connection.nextSend at hnext
  unfold Connection.sent Connection.piece
  split at hnext
  · split at hnext
    · rename_i hlt
      obtain rfl := Option.some.inj (Except.ok.inj hnext)
      have hlt' : conn.sentlen < ((6 : Nat) : Int) := hlt
      have hn' : n ≤ (((6 : Nat) : Int) - conn.sentlen).toNat := hn
      rw [if_pos hlt, if_pos hlt]
      have hpos : conn.sentlen.toNat = got.length := by omega
      have hpiece : ((conn.rspHeader.drop conn.sentlen.toNat).take n).length = n := by
        rw [List.length_take, List.length_drop]
        omega
      have hgot : got = conn.rspHeader.take got.length := by
        have hfront := h.front
        rw [List.take_of_length_le (by omega)] at hfront
        exact hfront
      have hjoin : got ++ (conn.rspHeader.drop conn.sentlen.toNat).take n =
          conn.rspHeader.take (got.length + n) := by
        rw [hpos, List.take_add, ← hgot]
      refine ⟨h.state, h.header, h.bodyLen_lt, ?_, ?_⟩
      · rw [List.length_append, hpiece]
        show ((got.length + n : Nat) : Int) = conn.sentlen + n
        omega
      · rw [hjoin, List.length_take, List.take_take]
        congr 1
        omega
    · rename_i hge
      have hge' : ¬ conn.sentlen < ((6 : Nat) : Int) := hge
      rw [if_neg hge, if_neg hge]
      split at hnext
      · cases hnext
      · rename_i area harea
        obtain rfl := Option.some.inj (Except.ok.inj hnext)
        obtain ⟨m, _, rfl, _⟩ := spyRwBufferNextReadable_some harea hf.rspBody.read
        have hpiece : (conn.rspBody.unread.take n).length = n := by
          rw [List.length_take, List.length_take] at hn
          rw [List.length_take]
          omega
        refine ⟨h.state, h.header, h.bodyLen_lt, ?_, ?_⟩
        · rw [List.length_append, hpiece]
          show ((got.length + n : Nat) : Int) = conn.sentlen + n
          omega
        · rw [List.take_append_of_le_length (by omega), h.front, List.length_append]
          rw [List.take_of_length_le (by omega)]
          exact (List.take_of_length_le (by show conn.rspHeader.length ≤ _; omega)).symm
  · cases hnext

/-- As long as something is to be sent the end is not reached. -/
theorem nextSend_lt (hf : conn.Fine) (hst : conn.state = .sendRsp) {len : Nat}
    (hnext : conn.nextSend = .ok (some len)) : conn.sentlen < rspHdrSize + conn.bodyLen := by
  obtain ⟨_, hle, _, _⟩ := hf.sendable hst
  unfold Connection.nextSend at hnext
  split at hnext
  · rename_i hpos
    have hrem := remaining_le conn (by omega)
    omega
  · cases hnext

theorem sendEnd_sending (hf : conn.Fine) (h : Sending conn got) {conn' : Connection}
    (hc : (sendEnd s c conn).conns c = some conn') :
    Blank conn' ∨ Sending conn' got ∧ conn'.sentlen < rspHdrSize + conn'.bodyLen := by
  obtain ⟨_, hle, _, _⟩ := hf.sendable h.state
  unfold sendEnd at hc
  split at hc
  · obtain rfl := Option.some.inj ((if_pos rfl).symm.trans hc)
    exact .inl ⟨rfl, rfl, rfl⟩
  · rename_i hne
    obtain rfl := Option.some.inj ((if_pos rfl).symm.trans hc)
    exact .inr ⟨h, lt_of_le_of_ne hle hne⟩

/-- What the write handler leaves of a connection that is sending: it is reset once all
is sent. -/
theorem sendLoop_sending (results : List SockWrite) (hf : conn.Fine) (h : Sending conn got)
    (hs : sendLoop s c results conn = .ok s') {conn' : Connection}
    (hc : s'.conns c = some conn') :
    Blank conn' ∨ Sending conn' (got ++ sendOutput results conn) ∧
      conn'.sentlen < rspHdrSize + conn'.bodyLen := by
  have hstays : ∀ {conn : Connection} {got : Bytes} {len : Nat}, conn.Fine → Sending conn got →
      conn.nextSend = .ok (some len) → (s.setConn c conn).conns c = some conn' →
        Sending conn' got ∧ conn'.sentlen < rspHdrSize + conn'.bodyLen := by
    intro conn got len hf h hnext hc
    obtain rfl := Option.some.inj ((if_pos rfl).symm.trans hc)
    exact ⟨h, nextSend_lt hf h.state hnext⟩
  induction results generalizing conn got with
  | nil =>
    unfold sendLoop at hs
    unfold sendOutput
    rw [List.append_nil]
    split at hs
    · cases hs
    · obtain rfl := Except.ok.inj hs
      exact sendEnd_sending hf h hc
    · rename_i len hnext
      obtain rfl := Except.ok.inj hs
      exact .inr (hstays hf h hnext hc)
  | cons r results ih =>
    unfold sendLoop at hs
    unfold sendOutput
    split at hs
    · cases hs
    · rename_i hnext
      obtain rfl := Except.ok.inj hs
      simp only [hnext, List.append_nil]
      exact sendEnd_sending hf h hc
    · rename_i len hnext
      split at hs
      · obtain rfl := Except.ok.inj hs
        simp only [hnext, List.append_nil]
        exact .inr (hstays hf h hnext hc)
      · obtain rfl := Except.ok.inj hs
        cases (if_pos rfl).symm.trans hc
      · rename_i n
        have hle : min (max n 1) len ≤ len := Nat.min_le_right _ _
        obtain ⟨hf', _⟩ := hf.sent h.state hnext hle
        simp only [hnext]
        rw [← List.append_assoc]
        exact ih hf' (h.sent hf hnext hle) hs

end Responses

/-! ## Sent exactly once -/

/-- The size of the largest file that a chunk can hold. -/
def largestFile : Nat := defChunkSize - superblockSize - fileMetaSize

/-- The response as it should go over the wire. -/
def Connection.response (conn : Connection) : Bytes :=
  conn.rspHeader ++ conn.rspBody.unread.take conn.bodyLen

/-- What is still to be sent of it. -/
def Connection.unsent (conn : Connection) : Bytes :=
  conn.rspHeader.drop conn.sentlen.toNat ++
    conn.rspBody.unread.take (conn.bodyLen - (conn.sentlen.toNat - rspHdrSize))

/-- `spy_write_handler` is called each time the socket can take more, while it is
registered. The result is the server and the bytes handed to the socket. -/
def sendRounds (c : Nat) : List (List SockWrite) → Server → Except Fault (Server × Bytes)
  | [], s => .ok (s, [])
  | results :: rounds, s => match s.conns c with
    | none => .ok (s, [])
    | some conn =>
      if conn.writable then do
        let s ← spyWriteHandler s c conn results
        let (s, more) ← sendRounds c rounds s
        return (s, sendOutput results conn ++ more)
      else .ok (s, [])

/-- No call fails for another reason than a full socket. -/
def Calm (results : List SockWrite) : Prop := .error ∉ results

/-- The number of calls of `write()` that send something. -/
def accepted : List SockWrite → Nat
  | .sent _ :: results => accepted results + 1
  | _ => 0

/-- Between two calls of `write()`: `got` has been sent of `wire`. -/
structure Outgoing (conn : Connection) (wire got : Bytes) : Prop where
  state : conn.state = .sendRsp
  writable : conn.writable = true
  header : conn.rspHeader.length = rspHdrSize
  read_le : conn.rspBody.readPos ≤ conn.rspBody.writePos
  fits : rspHdrSize + conn.bodyLen < 2147483648
  sentlen : conn.sentlen = got.length
  sent_le : got.length ≤ rspHdrSize + conn.bodyLen
  body : conn.bodyLen - (got.length - rspHdrSize) ≤ conn.rspBody.unread.length
  rest : got ++ conn.unsent = wire

section Outgoing
variable {s s' : Server} {c n len : Nat} {conn : Connection} {wire got : Bytes}

namespace Outgoing

theorem toNat_sentlen (h : Outgoing conn wire got) : conn.sentlen.toNat = got.length := by
  rw [h.sentlen]
  exact Int.toNat_natCast _

theorem unsent_length (h : Outgoing conn wire got) :
    conn.unsent.length = rspHdrSize + conn.bodyLen - got.length := by
  have hbody := h.body
  unfold Connection.unsent
  rw [h.toNat_sentlen, List.length_append, List.length_drop, List.length_take, h.header]
  simp only [rspHdrSize] at *
  omega

/-- The `int` does not overflow. -/
theorem remaining_eq (h : Outgoing conn wire got) :
    conn.remaining = conn.unsent.length := by
  have hfits := h.fits
  have hle := h.sent_le
  rw [h.unsent_length]
  unfold Connection.remaining i32 u32
  rw [h.sentlen]
  simp only [rspHdrSize] at *
  omega

/-- There is something to write exactly as long as something is unsent. -/
theorem nextSend (h : Outgoing conn wire got) :
    (conn.unsent = [] ∧ conn.nextSend = .ok none) ∨
      ∃ len, 0 < len ∧ conn.nextSend = .ok (some len) := by
  have hlen := h.unsent_length
  have hrem := h.remaining_eq
  have hbody := h.body
  unfold Connection.nextSend
  by_cases hpos : conn.remaining > 0
  · refine .inr ?_
    rw [if_pos hpos]
    by_cases hhdr : conn.sentlen < rspHdrSize
    · rw [if_pos hhdr]
      refine ⟨_, ?_, rfl⟩
      simp only [rspHdrSize] at *
      omega
    · rw [if_neg hhdr]
      have hsome : 0 < conn.rspBody.unread.length := by
        rw [h.sentlen] at hhdr
        simp only [rspHdrSize] at *
        omega
      cases harea : spyRwBufferNextReadable conn.rspBody with
      | none =>
        rw [spyRwBufferNextReadable_none harea] at hsome
        exact absurd hsome (Nat.lt_irrefl 0)
      | some area =>
        obtain ⟨m, -, -, hne⟩ := spyRwBufferNextReadable_some harea h.read_le
        refine ⟨_, ?_, rfl⟩
        have harea : 0 < area.length := List.length_pos_iff.mpr hne
        rw [List.length_take]
        omega
  · refine .inl ⟨?_, if_neg hpos⟩
    rw [← List.length_eq_zero_iff]
    omega

/-- One `write()` takes its bytes from the front of what is unsent. -/
theorem unsent_sent (h : Outgoing conn wire got) (hnext : conn.nextSend = .ok (some len))
    (hn : n ≤ len) : (conn.piece n).length = n ∧
      conn.unsent = conn.piece n ++ (conn.sent n).unsent := by
  have hsent := h.toNat_sentlen
  have hbody := h.body
  have hheader := h.header
  have hcast := h.sentlen
  unfold Connection.nextSend at hnext
  split at hnext
  · unfold Connection.piece Connection.sent
    by_cases hhdr : conn.sentlen < rspHdrSize
    · -- the header is cut, and nothing of the body is sent yet
      rw [if_pos hhdr] at hnext ⊢
      rw [if_pos hhdr, hsent]
      obtain rfl := Option.some.inj (Except.ok.inj hnext)
      simp only [rspHdrSize] at *
      have hle : got.length + n ≤ 6 := by omega
      have hnone : ∀ k ≤ 6, conn.bodyLen - (k - 6) = conn.bodyLen := by
        intro k hk
        omega
      have hnew : (conn.sentlen + n).toNat = got.length + n := by omega
      refine ⟨by rw [List.length_take, List.length_drop]; omega, ?_⟩
      unfold Connection.unsent
      simp only [rspHdrSize, hnew, hsent]
      rw [hnone _ (by omega), hnone _ hle, ← List.append_assoc, ← List.drop_drop,
        List.take_append_drop]
    · -- the header is sent, and an area of the body is cut
      rw [if_neg hhdr] at hnext ⊢
      rw [if_neg hhdr]
      split at hnext
      · cases hnext
      · rename_i area harea
        obtain rfl := Option.some.inj (Except.ok.inj hnext)
        obtain ⟨m, -, rfl, -⟩ := spyRwBufferNextReadable_some harea h.read_le
        have hrem := h.remaining_eq
        have hlen := h.unsent_length
        rw [List.length_take, List.length_take] at hn
        simp only [rspHdrSize] at *
        have hnew : (conn.sentlen + n).toNat = got.length + n := by omega
        have hall : ∀ k, 6 ≤ k → conn.rspHeader.drop k = [] := by
          intro k hk
          exact List.drop_eq_nil_of_le (by omega)
        refine ⟨by rw [List.length_take]; omega, ?_⟩
        unfold Connection.unsent
        simp only [rspHdrSize, hnew, hsent, RwBuffer.skip_unread]
        rw [hall _ (by omega), hall _ (by omega), List.nil_append, List.nil_append,
          ← List.take_add]
        congr 1
        omega
  · cases hnext

theorem sent (h : Outgoing conn wire got) (hnext : conn.nextSend = .ok (some len))
    (hn : n ≤ len) : Outgoing (conn.sent n) wire (got ++ conn.piece n) := by
  obtain ⟨hpiece, hsplit⟩ := h.unsent_sent hnext hn
  have hlen := h.unsent_length
  have hle := h.sent_le
  have hbody := h.body
  have hcast := h.sentlen
  have hread := unread_length conn.rspBody
  have hread_le := h.read_le
  rw [hsplit, List.length_append, hpiece] at hlen
  have hcount : (got ++ conn.piece n).length = got.length + n := by
    rw [List.length_append, hpiece]
  have hrest : got ++ conn.piece n ++ (conn.sent n).unsent = wire := by
    rw [List.append_assoc, ← hsplit]
    exact h.rest
  have hstate : (conn.sent n).state = conn.state ∧ (conn.sent n).writable = conn.writable ∧
      (conn.sent n).rspHeader = conn.rspHeader ∧ (conn.sent n).bodyLen = conn.bodyLen ∧
      (conn.sent n).sentlen = conn.sentlen + n := by
    unfold Connection.sent
    split <;> exact ⟨rfl, rfl, rfl, rfl, rfl⟩
  obtain ⟨hst, hwr, hhd, hbl, hsl⟩ := hstate
  simp only [rspHdrSize] at *
  have hrsp : (conn.sent n).rspBody.readPos ≤ (conn.sent n).rspBody.writePos ∧
      conn.bodyLen - (got.length + n - 6) ≤ (conn.sent n).rspBody.unread.length := by
    unfold Connection.sent
    split
    · rename_i hhdr
      exact ⟨hread_le, Nat.le_trans (by omega) hbody⟩
    · rename_i hhdr
      simp only [rspHdrSize] at hhdr
      refine ⟨?_, ?_⟩
      · show conn.rspBody.readPos + n ≤ conn.rspBody.writePos
        omega
      · rw [RwBuffer.skip_unread, List.length_drop]
        omega
  refine ⟨hst.trans h.state, hwr.trans h.writable, ?_, hrsp.1, ?_, ?_, ?_, ?_, hrest⟩
  · rw [hhd]
    exact h.header
  · rw [hbl]
    exact h.fits
  · rw [hsl, hcount, hcast]
    rfl
  · rw [hcount, hbl]
    simp only [rspHdrSize]
    omega
  · rw [hcount, hbl]
    exact hrsp.2

end Outgoing

/-- What a connection is between two calls of the handler: still sending, or reset. -/
def SentSoFar (conn : Connection) (wire got : Bytes) : Prop :=
  (Outgoing conn wire got ∧ got.length < wire.length) ∨
    (got = wire ∧ conn.state = .receiveHdr ∧ conn.sentlen = 0 ∧ conn.writable = false ∧
      conn.readable = true ∧ conn.request = spyRwBufferInit ∧ conn.rspBody = spyRwBufferInit)

theorem Outgoing.length_lt (h : Outgoing conn wire got) (hne : conn.unsent ≠ []) :
    got.length < wire.length := by
  rw [← h.rest, List.length_append]
  exact Nat.lt_add_of_pos_right (List.length_pos_iff.mpr hne)

theorem Outgoing.unsent_ne_nil (h : Outgoing conn wire got)
    (hnext : conn.nextSend = .ok (some len)) : conn.unsent ≠ [] := by
  intro hnil
  rcases h.nextSend with ⟨-, hnone⟩ | ⟨_, _, hsome⟩
  · rw [hnone] at hnext
    cases hnext
  · have hrem := h.remaining_eq
    rw [hnil] at hrem
    unfold Connection.nextSend at hnext
    rw [if_neg (by rw [hrem]; decide)] at hnext
    cases hnext

/-- The bytes of one `write()`. -/
theorem Outgoing.piece_eq (h : Outgoing conn wire got) (hnext : conn.nextSend = .ok (some len))
    (hn : n ≤ len) : conn.piece n = (wire.drop got.length).take n := by
  obtain ⟨hpiece, hsplit⟩ := h.unsent_sent hnext hn
  rw [← h.rest, List.drop_left, hsplit]
  exact (List.take_left' hpiece).symm

/-- Every `write()` that sends something brings the response forward. -/
theorem Outgoing.accepted_le (results : List SockWrite) (h : Outgoing conn wire got) :
    min wire.length (got.length + accepted results) ≤ (got ++ sendOutput results conn).length := by
  induction results generalizing conn got with
  | nil => exact Nat.le_trans (Nat.min_le_right _ _) (by simp [accepted])
  | cons r results ih =>
    rcases h.nextSend with ⟨hnil, -⟩ | ⟨len, hpos, hsome⟩
    · refine Nat.le_trans (Nat.min_le_left _ _) ?_
      rw [← h.rest, hnil, List.append_nil, List.length_append]
      exact Nat.le_add_right _ _
    · cases r with
      | sent n =>
        have hle : min (max n 1) len ≤ len := Nat.min_le_right _ _
        have hrest := ih (h.sent hsome hle)
        have hpiece := (h.unsent_sent hsome hle).1
        simp only [sendOutput, hsome, accepted]
        rw [← List.append_assoc]
        refine Nat.le_trans ?_ hrest
        rw [List.length_append, hpiece]
        omega
      | eagain | error => exact Nat.le_trans (Nat.min_le_right _ _) (by simp [accepted])

/-- One call of the handler. -/
theorem Outgoing.sendLoop (results : List SockWrite) (hcalm : Calm results)
    (h : Outgoing conn wire got) :
    ∃ s' conn', sendLoop s c results conn = .ok s' ∧ s'.conns c = some conn' ∧
      SentSoFar conn' wire (got ++ sendOutput results conn) := by
  have hend : ∀ {conn : Connection} {got : Bytes}, Outgoing conn wire got → conn.unsent = [] →
      ∃ conn', (sendEnd s c conn).conns c = some conn' ∧ SentSoFar conn' wire got := by
    intro conn got h hnil
    have hlen := h.unsent_length
    have hle := h.sent_le
    rw [hnil, List.length_nil] at hlen
    have hall : conn.sentlen = rspHdrSize + conn.bodyLen := by
      rw [h.sentlen]
      simp only [rspHdrSize] at *
      omega
    have hwire : got = wire := by
      rw [← h.rest, hnil, List.append_nil]
    unfold sendEnd
    rw [if_pos hall]
    exact ⟨_, if_pos rfl, .inr ⟨hwire, rfl, rfl, rfl, rfl, rfl, rfl⟩⟩
  have hstays : ∀ {conn : Connection} {got : Bytes} {len : Nat}, Outgoing conn wire got →
      conn.nextSend = .ok (some len) →
        ∃ conn', (s.setConn c conn).conns c = some conn' ∧ SentSoFar conn' wire got := by
    intro conn got len h hnext
    exact ⟨conn, if_pos rfl, .inl ⟨h, h.length_lt (h.unsent_ne_nil hnext)⟩⟩
  induction results generalizing conn got with
  | nil =>
    unfold Chunkserver.sendLoop sendOutput
    rw [List.append_nil]
    rcases h.nextSend with ⟨hnil, hnone⟩ | ⟨len, -, hsome⟩
    · rw [hnone]
      obtain ⟨conn', hc, hsent⟩ := hend h hnil
      exact ⟨_, conn', rfl, hc, hsent⟩
    · rw [hsome]
      obtain ⟨conn', hc, hsent⟩ := hstays h hsome
      exact ⟨_, conn', rfl, hc, hsent⟩
  | cons r results ih =>
    have hcalm' : Calm results := fun hmem => hcalm (List.mem_cons_of_mem r hmem)
    unfold Chunkserver.sendLoop sendOutput
    rcases h.nextSend with ⟨hnil, hnone⟩ | ⟨len, -, hsome⟩
    · rw [hnone]
      simp only [List.append_nil]
      obtain ⟨conn', hc, hsent⟩ := hend h hnil
      exact ⟨_, conn', rfl, hc, hsent⟩
    · rw [hsome]
      cases r with
      | sent n =>
        simp only
        rw [← List.append_assoc]
        exact ih hcalm' (h.sent hsome (Nat.min_le_right (max n 1) len))
      | eagain =>
        simp only [List.append_nil]
        obtain ⟨conn', hc, hsent⟩ := hstays h hsome
        exact ⟨_, conn', rfl, hc, hsent⟩
      | error => exact absurd List.mem_cons_self hcalm

/-- Any number of calls. -/
theorem Outgoing.sendRounds (rounds : List (List SockWrite))
    (hcalm : ∀ results ∈ rounds, Calm results) (hc : s.conns c = some conn)
    (h : SentSoFar conn wire got) :
    ∃ s' conn' more, sendRounds c rounds s = .ok (s', more) ∧ s'.conns c = some conn' ∧
      SentSoFar conn' wire (got ++ more) ∧
      min wire.length (got.length + (rounds.map accepted).sum) ≤ (got ++ more).length := by
  induction rounds generalizing s conn got with
  | nil =>
    refine ⟨s, conn, [], rfl, hc, ?_⟩
    rw [List.append_nil]
    exact ⟨h, Nat.min_le_right _ _⟩
  | cons results rounds ih =>
    unfold Chunkserver.sendRounds
    simp only [hc]
    rcases h with ⟨hout, -⟩ | hreset
    · rw [if_pos hout.writable]
      obtain ⟨s1, conn1, hloop, hc1, hsent⟩ :=
        hout.sendLoop (s := s) (c := c) results (hcalm results List.mem_cons_self)
      obtain ⟨s2, conn2, more, hrest, hc2, hsent2, hle⟩ :=
        ih (fun r hr => hcalm r (List.mem_cons_of_mem results hr)) hc1 hsent
      have hstep := hout.accepted_le results
      refine ⟨s2, conn2, sendOutput results conn ++ more, ?_, hc2, ?_⟩
      · unfold spyWriteHandler
        simp only [bind, Except.bind, hloop, hrest]
        rfl
      · rw [← List.append_assoc, List.map_cons, List.sum_cons]
        exact ⟨hsent2, by omega⟩
    · have hoff : ¬ conn.writable = true := by
        rw [hreset.2.2.2.1]
        exact Bool.false_ne_true
      rw [if_neg hoff]
      refine ⟨s, conn, [], rfl, hc, ?_⟩
      rw [List.append_nil]
      exact ⟨.inr hreset, hreset.1 ▸ Nat.min_le_left _ _⟩

theorem Replying.outgoing (h : Replying conn) (hw : conn.writable = true)
    (hread : conn.rspBody.readPos ≤ conn.rspBody.writePos)
    (hbody : conn.bodyLen ≤ conn.rspBody.unread.length)
    (hfits : rspHdrSize + conn.bodyLen < 2147483648) : Outgoing conn conn.response [] := by
  have hheader : conn.rspHeader.length = rspHdrSize := h.sending.rspHeader_length
  refine ⟨h.state, hw, hheader, hread, hfits, h.sentlen, Nat.zero_le _, ?_, ?_⟩
  · exact Nat.le_trans (Nat.sub_le _ _) hbody
  · unfold Connection.unsent Connection.response
    rw [h.sentlen]
    rfl

/-- A response is sent exactly once, however the socket takes it. After any number of calls
of the handler no assertion has failed, what was handed to the socket is the beginning of
the header and the announced body, the counters are exact, the next `write()` hands over
the bytes that follow, and the connection is reset when and only when all of it has been
accepted, which is so after enough calls of `write()` that send something. -/
theorem response_is_sent_once (hc : s.conns c = some conn) (hr : Replying conn)
    (hw : conn.writable = true) (hread : conn.rspBody.readPos ≤ conn.rspBody.writePos)
    (hbody : conn.bodyLen ≤ conn.rspBody.unread.length) (hmax : conn.bodyLen ≤ largestFile)
    (rounds : List (List SockWrite)) (hcalm : ∀ results ∈ rounds, Calm results) :
    ∃ s' conn' got, sendRounds c rounds s = .ok (s', got) ∧ s'.conns c = some conn' ∧
      got <+: conn.response ∧ conn.response.length = rspHdrSize + conn.bodyLen ∧
      (conn'.state = .receiveHdr ↔ got = conn.response) ∧
      (conn.response.length ≤ (rounds.map accepted).sum → got = conn.response) ∧
      (got ≠ conn.response → conn'.state = .sendRsp ∧ conn'.sentlen = got.length ∧
        conn'.remaining = conn.response.length - got.length ∧ conn'.remaining < 2147483648 ∧
        ∃ len, 0 < len ∧ conn'.nextSend = .ok (some len) ∧ ∀ n, sendOutput [.sent n] conn' =
          (conn.response.drop got.length).take (min (max n 1) len)) := by
  have hfits : rspHdrSize + conn.bodyLen < 2147483648 := by
    have hle : conn.bodyLen ≤ 2147483563 := hmax
    simp only [rspHdrSize]
    omega
  have hout := hr.outgoing hw hread hbody hfits
  have hlen : conn.response.length = rspHdrSize + conn.bodyLen := by
    rw [← hout.rest, List.nil_append, hout.unsent_length]
    rfl
  have hstart : SentSoFar conn conn.response [] := by
    refine .inl ⟨hout, ?_⟩
    rw [hlen]
    exact Nat.lt_of_lt_of_le (by decide) (Nat.le_add_right _ _)
  obtain ⟨s', conn', got, hsend, hc', hsent, hle⟩ := Outgoing.sendRounds rounds hcalm hc hstart
  rw [List.nil_append] at hsent hle
  have hprefix : got <+: conn.response := by
    rcases hsent with ⟨h, -⟩ | ⟨rfl, -⟩
    · exact ⟨_, h.rest⟩
    · exact List.prefix_rfl
  refine ⟨s', conn', got, hsend, hc', hprefix, hlen, ?_, fun hmany => ?_, ?_⟩
  · rcases hsent with ⟨h, hlt⟩ | ⟨hall, hst, -⟩
    · refine iff_of_false ?_ ?_
      · rw [h.state]
        exact nofun
      · rintro rfl
        exact absurd hlt (Nat.lt_irrefl _)
    · exact iff_of_true hst hall
  · rw [List.length_nil, Nat.zero_add, Nat.min_eq_left hmany] at hle
    exact hprefix.eq_of_length_le hle
  · intro hne
    rcases hsent with ⟨h, hlt⟩ | ⟨hall, -⟩
    · have hrest := congrArg List.length h.rest
      rw [List.length_append] at hrest
      have hrem := h.remaining_eq
      refine ⟨h.state, h.sentlen, ?_, ?_, ?_⟩
      · rw [hrem, ← hrest]
        omega
      · rw [hlen] at hrest
        simp only [rspHdrSize] at *
        omega
      · rcases h.nextSend with ⟨hnil, -⟩ | ⟨len, hpos, hsome⟩
        · rw [hnil, List.length_nil] at hrest
          omega
        · refine ⟨len, hpos, hsome, fun n => ?_⟩
          simp only [sendOutput, hsome, List.append_nil]
          exact h.piece_eq hsome (Nat.min_le_right _ _)
    · exact absurd hall hne

/-- A READ that found three bytes. -/
def sampleReply : Connection :=
  { Connection.new with
    opcode := 1
    bodyLen := 3
    rspHeader := [1, 0, 0, 0, 0, 3]
    rspBody := ⟨[9, 8, 7], 0, 1⟩
    state := .sendRsp
    writable := true }

/-- Cut inside the header, at its end and inside the body. -/
def sampleRounds : List (List SockWrite) := [[.sent 4, .eagain], [.sent 9, .sent 1], [.sent 2]]

theorem sampleReply_is_sent_once : ∃ s' conn',
    sendRounds 0 sampleRounds ((newServer sampleConfig).setConn 0 sampleReply) =
      .ok (s', [1, 0, 0, 0, 0, 3, 9, 8, 7]) ∧
    s'.conns 0 = some conn' ∧ conn'.state = .receiveHdr := by
  have hcalm : ∀ results ∈ sampleRounds, Calm results := by
    unfold Calm
    decide
  have hc : ((newServer sampleConfig).setConn 0 sampleReply).conns 0 = some sampleReply := rfl
  have hall : (sendRounds 0 sampleRounds ((newServer sampleConfig).setConn 0 sampleReply)).map
      Prod.snd = .ok [1, 0, 0, 0, 0, 3, 9, 8, 7] := rfl
  obtain ⟨s', conn', got, hsend, hc', -, -, hreset, -⟩ :=
    response_is_sent_once hc ⟨rfl, rfl, by decide, by decide⟩ rfl (by decide) (by decide)
      (by decide) _ hcalm
  rw [hsend] at hall
  obtain rfl : got = [1, 0, 0, 0, 0, 3, 9, 8, 7] := Except.ok.inj hall
  exact ⟨s', conn', hsend, hc', hreset.mpr rfl⟩

end Outgoing
end Speedy.Chunkserver
