import Speedy.Chunkserver.Responses
import Speedy.Chunkserver.Runs
import Speedy.Chunkserver.Accounts
import Speedy.Imageserver.ChunkserverClient

/-! # A client on one connection of a chunkserver

The client sends a list of requests, each once it has the whole response to the one
before. The bytes reach the server in reads of any size; in between anything else may
happen on the server. Each request leads to one call of its handler, with what was
encoded, once the last byte of it is read. -/
namespace Speedy.Cluster
open Speedy.Lib Speedy.Chunkserver Speedy.Imageserver

/-- The client's end of the connection, and the handler calls on the server's end. -/
structure Link where
  todo : List ChunkRequest
  sent : List ChunkRequest
  /-- bytes that the server has not read yet -/
  wire : Bytes
  /-- what has been received since the last request was sent -/
  got : Bytes
  /-- the connection as each handler was called with it, oldest first -/
  calls : List Connection

namespace Link

/-- The next request is sent. -/
def send (l : Link) : Option Link :=
  match l.todo with
  | [] => none
  | r :: rest =>
    if l.sent = [] ∨ Whole l.got then
      some { l with
        todo := rest
        sent := l.sent ++ [r]
        wire := l.wire ++ r.encode
        got := [] }
    else none

/-- A `read()` returns a part of what is on the wire that fits the area it was given. -/
def deliver (l : Link) (s : Server) (c : Nat) (bs : Bytes) (env : Env) : Option Link :=
  match s.conns c with
  | none => none
  | some conn => match writeableArea s conn.request env.calloc with
    | none => none
    | some (_, _, len) =>
      if bs ≠ [] ∧ bs.length ≤ len ∧ bs.isPrefixOf l.wire = true then
        some { l with
          wire := l.wire.drop bs.length
          calls := l.calls ++
            ((handlerCall s (.readable c (.data bs) env)).toList.map fun x => x.2) }
      else none

/-- What an event of the server means for the client of connection `c`. -/
def observe (l : Link) (s : Server) (c : Nat) : Event → Option Link
  | .readable i (.data bs) env => if i = c then l.deliver s c bs env else some l
  | .writable i results =>
    if i = c then (s.conns c).map fun conn => { l with got := l.got ++ sendOutput results conn }
    else some l
  | _ => some l

end Link

inductive LinkMove where
  | send
  | event (e : Event)

def linkStep (cfg : Config) (c : Nat) (x : Server × Link) : LinkMove → Option (Server × Link)
  | .send => x.2.send.map fun l => (x.1, l)
  | .event e => match step cfg x.1 e, x.2.observe x.1 c e with
    | .ok s, some l => some (s, l)
    | _, _ => none

/-- A connection that was just accepted by a server in any state it can reach, and a
client with requests to send. -/
def Opened (cfg : Config) (c : Nat) (requests : List ChunkRequest) : Server × Link → Prop
  | (s, l) => Run cfg (fun _ _ _ => True) s ∧ s.conns c = some .new ∧
      l = ⟨requests, [], [], [], []⟩

/-- What the client and the server can do, in any order. -/
abbrev LinkRun (cfg : Config) (c : Nat) (requests : List ChunkRequest) : Server × Link → Prop :=
  Reach (Opened cfg c requests) fun x m y => linkStep cfg c x m = some y

/-- What the handler finds: the opcode, and for a WRITE or a READ the group id, the fid and
the payload behind them. -/
def Sees (r : ChunkRequest) (conn : Connection) : Prop :=
  conn.opcode = r.opcode ∧
    match r with
    | .ping => conn.bodyLen = 0
    | .putData _ fileId data =>
      conn.bodyLen - reqInnerHdrSize = data.length ∧ conn.payload data.length = data ∧
        ∃ conn', readInnerHdr conn = .ok (r.encodedGroup.toNat, fileId, conn') ∧
          conn'.request.unread = data
    | .getData _ fileId =>
      ∃ conn', readInnerHdr conn = .ok (r.encodedGroup.toNat, fileId, conn') ∧
        conn'.request.unread = []

section Requests
variable {cfg : Config} {c : Nat} {s s' : Server} {l l' : Link} {conn : Connection}
  {r : ChunkRequest} {limit : Nat} {ids : List UInt64} {marks : List Mark}
  {recs : UInt64 → List Record} {lost : UInt64 → Prop}

/-! ## Frames -/

/-- What follows the header of a request. -/
def body : ChunkRequest → Bytes
  | .ping => []
  | .putData groupId fileId data => innerBody groupId.toUInt32.toUInt16.toNat fileId data
  | .getData groupId fileId => innerBody groupId.toNat fileId []

theorem body_length (h : r.Short) : (body r).length < 4294967296 := by
  unfold ChunkRequest.Short at h
  cases r with
  | ping => exact Nat.zero_lt_succ _
  | putData groupId fileId data =>
    have hlen : data.length < 4294967286 := h
    show (innerBody _ _ _).length < _
    rw [innerBody_length]
    omega
  | getData groupId fileId =>
    show (innerBody _ _ _).length < _
    rw [innerBody_length]
    exact Nat.lt_of_sub_eq_succ rfl

theorem encode_eq (h : r.Short) : r.encode = frame r.opcode (body r) := by
  cases r with
  | ping => rfl
  | putData groupId fileId data =>
    have hlen : data.length < 4294967286 := h
    have hsize : u32 (data.length + 2 + 8) = 10 + data.length := by
      unfold u32
      omega
    simp only [ChunkRequest.encode, body, frame]
    rw [innerBody_length, hsize]
    rfl
  | getData groupId fileId =>
    simp only [ChunkRequest.encode, body, frame]
    rw [innerBody_length]
    simp only [innerBody, List.append_nil]
    rfl

theorem opcode_lt (r : ChunkRequest) : r.opcode < 256 := by
  cases r <;> exact Nat.lt_of_sub_eq_succ rfl

theorem encode_ne_nil (h : r.Short) : r.encode ≠ [] := by
  rw [encode_eq h]
  intro hnil
  have hlen := frame_length r.opcode (body r)
  rw [hnil] at hlen
  rw [List.length_nil] at hlen
  omega

/-- The call for an encoded request. -/
theorem sees_called (h : r.Short) (conn : Connection) (blocks : Nat) :
    Sees r (conn.called r.encode blocks) := by
  rw [encode_eq h]
  have hann : announced (frame r.opcode (body r)) = (body r).length :=
    announced_frame (body_length h)
  have hop : spyMachReadFrom1 ((frame r.opcode (body r)).take reqHdrSize) = r.opcode :=
    frame_opcode (opcode_lt r)
  refine ⟨hop, ?_⟩
  cases r with
  | ping => exact hann
  | putData groupId fileId data =>
    have hdrop := frame_payload opPut groupId.toUInt32.toUInt16.toNat fileId data
    refine ⟨?_, ?_, _, readInnerHdr_called conn blocks (UInt16.toNat_lt _), hdrop⟩
    · refine (congrArg (· - 10) hann).trans ?_
      show (innerBody _ _ _).length - 10 = _
      rw [innerBody_length, Nat.add_sub_cancel_left]
    · show ((frame opPut (innerBody _ _ _)).drop 15).take data.length = data
      rw [hdrop, List.take_length]
  | getData groupId fileId =>
    exact ⟨_, readInnerHdr_called conn blocks (UInt16.toNat_lt _),
      frame_payload opGet groupId.toNat fileId []⟩

/-! ## Phases of a connection -/

/-- Where the connection is; `rest` are the requests that are sent and have no call yet. -/
inductive Phase (c : Nat) (s : Server) (l : Link) : List ChunkRequest → Prop
  | closed {rest : List ChunkRequest} (gone : s.conns c = none)
      (last : rest = [] ∨ ∃ r, rest = [r] ∧ l.got = []) : Phase c s l rest
  | idle {conn : Connection} {blocks : Nat} (live : s.conns c = some (conn.received [] blocks))
      (readable : conn.readable = true) (wire : l.wire = []) : Phase c s l []
  | receiving {conn : Connection} {blocks : Nat} {read : Bytes} {r : ChunkRequest}
      (live : s.conns c = some (conn.received read blocks)) (readable : conn.readable = true)
      (bytes : read ++ l.wire = r.encode) (more : l.wire ≠ []) (got : l.got = []) :
      Phase c s l [r]
  | waiting {conn : Connection} (live : s.conns c = some conn)
      (state : conn.state = .processRequest) (sent : l.sent ≠ []) (wire : l.wire = [])
      (got : l.got = []) : Phase c s l []
  | sending {conn : Connection} (live : s.conns c = some conn) (sending : Sending conn l.got)
      (unsent : conn.sentlen < rspHdrSize + conn.bodyLen) (sent : l.sent ≠ [])
      (wire : l.wire = []) : Phase c s l []

/-- The calls made are those for the requests sent, except perhaps the last. -/
def Delivered (c : Nat) (s : Server) (l : Link) : Prop :=
  ∃ called rest, l.sent = called ++ rest ∧ List.Forall₂ Sees called l.calls ∧ Phase c s l rest

theorem not_whole_nil : ¬ Whole [] := fun h => absurd h.1 (by simp)

/-- What the server makes of a connection that had a whole request. -/
theorem Phase.of_served (hconn : ∀ conn, s.conns c = some conn → Busy conn ∨ Blank conn)
    (hsent : l.sent ≠ []) (hwire : l.wire = []) (hgot : l.got = []) : Phase c s l [] := by
  cases hc : s.conns c with
  | none => exact .closed hc (.inl rfl)
  | some conn =>
    rcases hconn conn hc with (hst | hrep) | hblank
    · exact .waiting hc hst hsent hwire hgot
    · refine .sending hc (hgot ▸ hrep.sending) ?_ hsent hwire
      rw [hrep.sentlen]
      show (0 : Int) < ((6 : Nat) : Int) + conn.bodyLen
      omega
    · exact .idle (hblank.received ▸ hc) hblank.readable hwire

/-- A request is sent only when the connection is idle, or gone. -/
theorem Delivered.send (h : Delivered c s l) (hs : l.send = some l')
    (hshort : ∀ r ∈ l.todo, r.Short) : Delivered c s l' := by
  obtain ⟨called, rest, hsent, hsees, hphase⟩ := h
  unfold Link.send at hs
  split at hs
  · cases hs
  · rename_i r todo htodo
    split at hs
    · rename_i hguard
      obtain rfl := Option.some.inj hs
      have hr : r.Short := hshort r (htodo ▸ List.mem_cons_self)
      cases hphase with
      | closed gone last =>
        rcases last with rfl | ⟨r', rfl, hgot⟩
        · rw [List.append_nil] at hsent
          exact ⟨called, [r], by rw [hsent], hsees, .closed gone (.inr ⟨r, rfl, rfl⟩)⟩
        · rcases hguard with hnil | hwhole
          · rw [hsent] at hnil
            exact absurd hnil (by simp)
          · exact absurd (hgot ▸ hwhole) not_whole_nil
      | idle live readable wire =>
        rw [List.append_nil] at hsent
        refine ⟨called, [r], by rw [hsent], hsees, .receiving live readable ?_ ?_ rfl⟩
        · rw [wire]
          rfl
        · rw [wire]
          exact encode_ne_nil hr
      | receiving live readable bytes more got =>
        rcases hguard with hnil | hwhole
        · rw [hsent] at hnil
          exact absurd hnil (by simp)
        · exact absurd (got ▸ hwhole) not_whole_nil
      | waiting live state sent wire got =>
        rcases hguard with hnil | hwhole
        · exact absurd hnil sent
        · exact absurd (got ▸ hwhole) not_whole_nil
      | sending live sending unsent sent wire =>
        rcases hguard with hnil | hwhole
        · exact absurd hnil sent
        · exact absurd hwhole (sending.not_whole unsent)
    · cases hs

/-! ## Events -/

/-- An event of others leaves the phase, except that a request may have been served. -/
theorem Phase.other (h : BookInv limit ids (s.books marks)) (hl : LedgerInv s.ledger recs lost)
    {rest : List ChunkRequest} (hp : Phase c s l rest) {e : Event} (hs : step cfg s e = .ok s')
    (hlt : c < s.nextConn) (hon : ¬ e.On c) : Phase c s' l rest := by
  have hsame : ∀ {conn : Connection}, s.conns c = some conn → c ∉ s.ledger.waiting →
      s'.conns c = some conn := by
    intro conn hc hw
    rcases step_turned h hl hs hlt hon with he | ⟨hw', _⟩
    · exact he.trans hc
    · exact absurd hw' hw
  cases hp with
  | closed gone last =>
    refine .closed ?_ last
    rcases step_turned h hl hs hlt hon with he | ⟨hw, _⟩
    · exact he.trans gone
    · obtain ⟨conn, hc⟩ := h.conns.live c hw
      have hc' : s.conns c = some conn := hc
      rw [gone] at hc'
      cases hc'
  | idle live readable wire =>
    exact .idle (hsame live (received_not_waiting h live)) readable wire
  | receiving live readable bytes more got =>
    exact .receiving (hsame live (received_not_waiting h live)) readable bytes more got
  | waiting live state sent wire got =>
    refine .of_served (fun conn' hc' => ?_) sent wire got
    rcases step_turned h hl hs hlt hon with he | ⟨_, hnew⟩
    · obtain rfl := Option.some.inj (live.symm.trans (he.symm.trans hc'))
      exact .inl (.inl state)
    · exact hnew conn' hc'
  | sending live sending unsent sent wire =>
    refine .sending (hsame live fun hw => ?_) sending unsent sent wire
    have hst := (h.waits_at hw live).1
    rw [sending.state] at hst
    cases hst

/-- A `read()` without data: the connection stays as it is, or it is freed. -/
theorem Phase.silent {rest : List ChunkRequest} (hp : Phase c s l rest) {r : SockRead} {env : Env}
    (hr : ∀ bs, r ≠ .data bs) (hs : step cfg s (.readable c r env) = .ok s') :
    Phase c s' l rest := by
  have hgone : s'.conns c = none → Phase c s' l rest := by
    intro hnone
    cases hp with
    | closed _ last => exact .closed hnone last
    | idle _ _ _ => exact .closed hnone (.inl rfl)
    | receiving _ _ _ _ got => exact .closed hnone (.inr ⟨_, rfl, got⟩)
    | waiting _ _ _ _ _ => exact .closed hnone (.inl rfl)
    | sending _ _ _ _ _ => exact .closed hnone (.inl rfl)
  cases hc' : s'.conns c with
  | none => exact hgone hc'
  | some conn' =>
    have hstay : ∀ {conn}, s.conns c = some conn →
        ∃ b, conn' = { conn with request := { conn.request with blocks := b } } := by
      intro conn hc
      cases r with
      | data bs => exact absurd rfl (hr bs)
      | eagain => exact step_readable_eagain hc hs hc'
      | eof =>
        rw [step_readable_closed (.inl rfl) hc hs] at hc'
        cases hc'
      | error =>
        rw [step_readable_closed (.inr rfl) hc hs] at hc'
        cases hc'
    cases hp with
    | closed gone _ =>
      simp only [step, gone] at hs
      cases hs
    | idle live readable wire =>
      obtain ⟨b, rfl⟩ := hstay live
      rw [received_blocks] at hc'
      exact .idle hc' readable wire
    | receiving live readable bytes more got =>
      obtain ⟨b, rfl⟩ := hstay live
      rw [received_blocks] at hc'
      exact .receiving hc' readable bytes more got
    | waiting live state sent wire got =>
      obtain ⟨b, rfl⟩ := hstay live
      exact .waiting hc' state sent wire got
    | sending live sending unsent sent wire =>
      obtain ⟨b, rfl⟩ := hstay live
      exact .sending hc' ⟨sending.state, sending.header, sending.bodyLen_lt, sending.length,
        sending.front⟩ unsent sent wire

/-- The write handler: the response goes on, and after its last byte the connection is
idle. -/
theorem Phase.written {rest : List ChunkRequest} (hp : Phase c s l rest) {results : List SockWrite}
    (h : BookInv limit ids (s.books marks)) (hs : step cfg s (.writable c results) = .ok s')
    (hl : l.observe s c (.writable c results) = some l') :
    Phase c s' l' rest ∧ l'.sent = l.sent ∧ l'.calls = l.calls ∧ l'.todo = l.todo := by
  obtain ⟨conn, hc, hwrite, hs⟩ := step_writable_ok hs
  obtain ⟨_, hok⟩ := h.served hc (.inr hwrite)
  have hst := hok.sends hwrite
  simp only [Link.observe, if_true, hc, Option.map_some] at hl
  obtain rfl := Option.some.inj hl
  refine ⟨?_, rfl, rfl, rfl⟩
  cases hp with
  | closed gone _ => rw [gone] at hc; cases hc
  | idle live _ _ =>
    obtain rfl := Option.some.inj (live.symm.trans hc)
    rcases received_state _ _ _ with he | he <;> rw [he] at hst <;> cases hst
  | receiving live _ _ _ _ =>
    obtain rfl := Option.some.inj (live.symm.trans hc)
    rcases received_state _ _ _ with he | he <;> rw [he] at hst <;> cases hst
  | waiting live state _ _ _ =>
    obtain rfl := Option.some.inj (live.symm.trans hc)
    rw [state] at hst
    cases hst
  | sending live sending unsent sent wire =>
    obtain rfl := Option.some.inj (live.symm.trans hc)
    cases hc' : s'.conns c with
    | none => exact .closed hc' (.inl rfl)
    | some conn' =>
      rcases sendLoop_sending results (h.table.fine c _ hc) sending hs hc' with
        hblank | ⟨hsending, hlt⟩
      · exact .idle (hblank.received ▸ hc') hblank.readable wire
      · exact .sending hc' hsending hlt sent wire

/-- The server's side of a read of the client's bytes. -/
structure Reading (s : Server) (c : Nat) (l : Link) (bs : Bytes) (env : Env) (conn : Connection)
    (mem : MemBlocks) (request : RwBuffer) (len : Nat) (rest : Bytes) : Prop where
  live : s.conns c = some conn
  area : writeableArea s conn.request env.calloc = some (mem, request, len)
  nonempty : bs ≠ []
  cut : bs.take len = bs
  wire : l.wire = bs ++ rest

theorem deliver_eq_some {bs : Bytes} {env : Env} (h : l.deliver s c bs env = some l') :
    ∃ conn mem request len rest, Reading s c l bs env conn mem request len rest ∧
      l' = { l with
        wire := rest
        calls := l.calls ++
          ((handlerCall s (.readable c (.data bs) env)).toList.map fun x => x.2) } := by
  unfold Link.deliver at h
  split at h
  · cases h
  · rename_i conn hc
    split at h
    · cases h
    · rename_i mem request len harea
      split at h
      · rename_i hguard
        obtain ⟨hne, hle, hpre⟩ := hguard
        obtain ⟨rest, hrest⟩ := List.isPrefixOf_iff_prefix.mp hpre
        obtain rfl := Option.some.inj h
        refine ⟨conn, mem, request, len, rest,
          ⟨hc, harea, hne, List.take_of_length_le hle, hrest.symm⟩, ?_⟩
        rw [← hrest, List.drop_left]
      · cases h

/-- The last byte of a request leads to the call, and any other byte to none. -/
theorem Delivered.deliver (hd : Delivered c s l) (h : BookInv limit ids (s.books marks))
    (hshort : ∀ r ∈ l.sent, r.Short) {bs : Bytes} {env : Env}
    (hs : step cfg s (.readable c (.data bs) env) = .ok s')
    (hl : l.deliver s c bs env = some l') : Delivered c s' l' := by
  obtain ⟨called, rest, hsent, hsees, hphase⟩ := hd
  obtain ⟨conn, mem, request, len, wire, hdel, rfl⟩ := deliver_eq_some hl
  have hwire : l.wire ≠ [] := by
    rw [hdel.wire]
    exact List.append_ne_nil_of_left_ne_nil hdel.nonempty wire
  cases hphase with
  | closed gone _ => cases gone.symm.trans hdel.live
  | idle _ _ wire => exact absurd wire hwire
  | waiting _ _ _ wire _ => exact absurd wire hwire
  | sending _ _ _ _ wire => exact absurd wire hwire
  | @receiving base blocks read r live readable bytes more got =>
    obtain rfl := Option.some.inj (live.symm.trans hdel.live)
    have hr : r.Short := hshort r (by rw [hsent]; simp)
    have hread : (base.received read blocks).readable = true := received_readable.trans readable
    have harr := arrived_received hdel.area (by rw [hdel.cut]; exact hdel.nonempty)
    rw [hdel.cut] at harr
    rw [hdel.wire, ← List.append_assoc] at bytes
    by_cases hend : wire = []
    · -- the request is complete
      rw [hend, List.append_nil] at bytes
      have hcomplete : Complete (read ++ bs) := by
        rw [bytes, encode_eq hr]
        exact frame_complete (body_length hr)
      rw [if_pos hcomplete, bytes] at harr
      obtain ⟨hv, hok⟩ := h.served live (.inl hread)
      simp only [step, live] at hs
      rw [if_pos hread] at hs
      obtain ⟨hready, ⟨hzero, hst⟩, mem', hdisp⟩ : Ready _ ∧ _ ∧ ∃ mem', spyReadHandler cfg s c
        (base.received read blocks) (.data bs) env = _ := spyReadHandler_arrived hok harr
      rw [hdisp] at hs
      have hidle : ∀ job ∈ s.pendingWrites, job.conn ≠ c := by
        rintro job hjob rfl
        exact hv.idle (pending_waits hjob)
      obtain ⟨hbusy, _⟩ := Handles.turns (s := { s with mem := mem' }) hready
        (hzero.trans (hv.fine.unsent hst)) hidle (dispatch_handles hs)
      have hcall : handlerCall s (.readable c (.data bs) env) =
          some (c, base.called r.encode request.blocks) := by
        simp only [handlerCall, live]
        rw [if_pos hread, harr]
        rfl
      refine ⟨called ++ [r], [], ?_, ?_, .of_served ?_ ?_ hend got⟩
      · rw [List.append_nil]
        exact hsent
      · rw [hcall]
        exact List.rel_append hsees (.cons (sees_called hr _ _) .nil)
      · exact fun conn hc => .inl (hbusy conn hc)
      · show l.sent ≠ []
        rw [hsent]
        simp
    · -- something is missing
      have hpart : ¬ Complete (read ++ bs) := by
        rw [encode_eq hr] at bytes
        exact not_complete_of_append (body_length hr) bytes hend
      rw [if_neg hpart] at harr
      have hstep : step cfg s (.readable c (.data bs) env) = _ :=
        step_readable_incomplete live readable hdel.area
          (by rw [hdel.cut]; exact hdel.nonempty) (by rw [hdel.cut]; exact hpart)
      have hcall : handlerCall s (.readable c (.data bs) env) = none := by
        simp only [handlerCall, live]
        rw [if_pos hread, harr]
        rfl
      rw [hstep, hdel.cut] at hs
      obtain rfl := Except.ok.inj hs
      refine ⟨called, [r], hsent, ?_, .receiving (if_pos rfl) readable bytes hend got⟩
      rw [hcall]
      simpa using hsees

theorem Delivered.silent (hd : Delivered c s l) {r : SockRead} {env : Env}
    (hr : ∀ bs, r ≠ .data bs) (hs : step cfg s (.readable c r env) = .ok s') :
    Delivered c s' l := by
  obtain ⟨called, rest, hsent, hsees, hphase⟩ := hd
  exact ⟨called, rest, hsent, hsees, hphase.silent hr hs⟩

theorem observe_other {e : Event} (hon : ¬ e.On c) : l.observe s c e = some l := by
  cases e with
  | readable i r env =>
    cases r with
    | data bs => exact if_neg hon
    | eagain => rfl
    | eof => rfl
    | error => rfl
  | writable i results => exact if_neg hon
  | accept => rfl
  | start => rfl
  | io i io => rfl
  | finish i => rfl
  | done fcntl => rfl
  | cron now => rfl

theorem Delivered.event (hd : Delivered c s l) (h : BookInv limit ids (s.books marks))
    (hl : LedgerInv s.ledger recs lost) (hlt : c < s.nextConn)
    (hshort : ∀ r ∈ l.sent, r.Short) {e : Event} (hs : step cfg s e = .ok s')
    (ho : l.observe s c e = some l') :
    Delivered c s' l' ∧ l'.sent = l.sent ∧ l'.todo = l.todo := by
  by_cases hon : e.On c
  · cases e with
    | readable i r env =>
      obtain rfl : i = c := hon
      cases r with
      | data bs =>
        have hdel : l.deliver s i bs env = some l' := (if_pos rfl).symm.trans ho
        refine ⟨hd.deliver h hshort hs hdel, ?_⟩
        obtain ⟨_, _, _, _, _, _, rfl⟩ := deliver_eq_some hdel
        exact ⟨rfl, rfl⟩
      | eagain =>
        obtain rfl := Option.some.inj ho
        exact ⟨hd.silent (fun _ he => by cases he) hs, rfl, rfl⟩
      | eof =>
        obtain rfl := Option.some.inj ho
        exact ⟨hd.silent (fun _ he => by cases he) hs, rfl, rfl⟩
      | error =>
        obtain rfl := Option.some.inj ho
        exact ⟨hd.silent (fun _ he => by cases he) hs, rfl, rfl⟩
    | writable i results =>
      obtain rfl : i = c := hon
      obtain ⟨called, rest, hsent, hsees, hphase⟩ := hd
      obtain ⟨hphase', hsent', hcalls, htodo⟩ := hphase.written h hs ho
      exact ⟨⟨called, rest, hsent'.trans hsent, hcalls ▸ hsees, hphase'⟩, hsent', htodo⟩
    | accept => exact hon.elim
    | start => exact hon.elim
    | io i io => exact hon.elim
    | finish i => exact hon.elim
    | done fcntl => exact hon.elim
    | cron now => exact hon.elim
  · rw [observe_other hon] at ho
    obtain rfl := Option.some.inj ho
    obtain ⟨called, rest, hsent, hsees, hphase⟩ := hd
    exact ⟨⟨called, rest, hsent, hsees, hphase.other h hl hs hlt hon⟩, rfl, rfl⟩

theorem send_all (h : l.send = some l') : l'.sent ++ l'.todo = l.sent ++ l.todo := by
  unfold Link.send at h
  split at h
  · cases h
  · rename_i r rest htodo
    split at h
    · obtain rfl := Option.some.inj h
      rw [htodo]
      simp
    · cases h

/-- What holds of the two ends at any time. -/
structure LinkInv (cfg : Config) (c : Nat) (requests : List ChunkRequest) (x : Server × Link) :
    Prop where
  run : Run cfg (fun _ _ _ => True) x.1
  known : c < x.1.nextConn
  all : x.2.sent ++ x.2.todo = requests
  delivered : Delivered c x.1 x.2

theorem LinkRun.inv {requests : List ChunkRequest} (hshort : ∀ r ∈ requests, r.Short)
    {x : Server × Link} (h : LinkRun cfg c requests x) : LinkInv cfg c requests x := by
  refine Reach.invariant ?_ ?_ h
  · rintro ⟨s, l⟩ ⟨hrun, hnew, rfl⟩
    obtain ⟨marks, hb⟩ := hrun.books
    refine ⟨hrun, hb.conns.lt hnew, rfl, [], [], rfl, .nil, ?_⟩
    have hlive : s.conns c = some (Connection.new.received [] 0) := hnew
    exact .idle hlive rfl rfl
  · rintro ⟨s, l⟩ m ⟨s', l'⟩ _ hinv hstep
    have hall : l.sent ++ l.todo = requests := hinv.all
    cases m with
    | send =>
      obtain ⟨l1, hsend, hpair⟩ := Option.map_eq_some_iff.mp hstep
      obtain ⟨rfl, rfl⟩ := Prod.mk.inj hpair
      refine ⟨hinv.run, hinv.known, ?_, hinv.delivered.send hsend fun r hr => hshort r ?_⟩
      · rw [← hall]
        exact send_all hsend
      · rw [← hall]
        exact List.mem_append_right _ hr
    | event e =>
      obtain ⟨recs, lost, hl⟩ := hinv.run.sound
      obtain ⟨marks, hb⟩ := hinv.run.books
      simp only [linkStep] at hstep
      split at hstep
      · rename_i t l1 hs ho
        obtain ⟨rfl, rfl⟩ := Prod.mk.inj (Option.some.inj hstep)
        have hsent : ∀ r ∈ l.sent, r.Short := fun r hr =>
          hshort r (hall ▸ List.mem_append_left _ hr)
        obtain ⟨hd, hsent', htodo'⟩ := hinv.delivered.event hb hl hinv.known hsent hs ho
        refine ⟨.next hinv.run ⟨hs, trivial⟩,
          Nat.lt_of_lt_of_le hinv.known (step_nextConn_le hl hs), ?_, hd⟩
        rw [← hall, ← hsent', ← htodo']
      · cases hstep

/-- Request framing is independent of segmentation. However the bytes are cut into reads,
and whatever else happens on the server: the handler calls are those of the requests
sent, in order, each with what was encoded; only the last request may be without one.
As long as the connection is open it has had its call exactly when all its bytes are
read. And a call is what it says: the rest of that event is the handler, and an event
without one only receives bytes. -/
theorem requests_are_framed {requests : List ChunkRequest} (hshort : ∀ r ∈ requests, r.Short)
    (h : LinkRun cfg c requests (s, l)) :
    l.sent ++ l.todo = requests ∧
    (∃ called rest, l.sent = called ++ rest ∧ rest.length ≤ 1 ∧
      List.Forall₂ Sees called l.calls ∧ (s.conns c ≠ none → (rest = [] ↔ l.wire = []))) ∧
    (∀ e conn, handlerCall s e = some (c, conn) →
      ∃ mem env, step cfg s e = dispatch cfg { s with mem := mem } c conn env) ∧
    ∀ r env s', handlerCall s (.readable c r env) = none →
      step cfg s (.readable c r env) = .ok s' → OnlyReceives c s s' := by
  have hinv := LinkRun.inv hshort h
  obtain ⟨marks, hb⟩ := hinv.run.books
  obtain ⟨called, rest, hsent, hsees, hphase⟩ := hinv.delivered
  refine ⟨hinv.all, ⟨called, rest, hsent, ?_, hsees, ?_⟩, ?_, fun _ _ _ => step_silent⟩
  · cases hphase with
    | closed gone last =>
      rcases last with rfl | ⟨r, rfl, _⟩
      · exact Nat.zero_le 1
      · exact Nat.le_refl 1
    | idle => exact Nat.zero_le 1
    | receiving => exact Nat.le_refl 1
    | waiting => exact Nat.zero_le 1
    | sending => exact Nat.zero_le 1
  · intro hlive
    cases hphase with
    | closed gone last => exact absurd gone hlive
    | idle live readable wire => exact iff_of_true rfl wire
    | receiving live readable bytes more got => exact iff_of_false nofun more
    | waiting live state sent wire got => exact iff_of_true rfl wire
    | sending live sending unsent sent wire => exact iff_of_true rfl wire
  · intro e conn hcall
    exact (step_handlerCall hb hcall).2

/-- A ping in two pieces, its response in two, and then an upload in three. -/
def segmentedMoves : List LinkMove :=
  [.send, .event (.readable 0 (.data [10]) ⟨0, 0, true, true⟩),
    .event (.readable 0 (.data [0, 0, 0, 0]) ⟨0, 0, true, true⟩),
    .event (.writable 0 [.sent 2, .eagain]), .event (.writable 0 [.sent 4]), .send,
    .event (.readable 0 (.data [0, 0, 0, 0]) ⟨0, 0, true, true⟩),
    .event (.readable 0 (.data [13, 0, 1, 0, 0, 0, 0]) ⟨0, 0, true, true⟩),
    .event (.readable 0 (.data [0, 0, 0, 7, 1, 2, 3]) ⟨0, 0, true, true⟩)]

def segmentedRequests : List ChunkRequest := [.ping, .putData 1 7 [1, 2, 3]]

theorem requests_are_framed_segmented : ∃ (s : Server) (l : Link),
    LinkRun sampleConfig 0 segmentedRequests (s, l) ∧ l.wire = [] ∧
      List.Forall₂ Sees segmentedRequests l.calls := by
  have hplay : ((play (linkStep sampleConfig 0) segmentedMoves
      (spyCreateClientConnection (newServer sampleConfig), ⟨segmentedRequests, [], [], [], []⟩)).map
        fun x => ((x.1.conns 0).isSome, x.2.sent, x.2.wire)) =
      some (true, segmentedRequests, []) := by
    decide +kernel
  obtain ⟨⟨s, l⟩, hp, hx⟩ := Option.map_eq_some_iff.mp hplay
  obtain ⟨hlive, hx⟩ := Prod.mk.inj hx
  obtain ⟨hsent, hwire⟩ := Prod.mk.inj hx
  have hrun : LinkRun sampleConfig 0 segmentedRequests (s, l) :=
    Reach.play (fun _ _ _ he => he) _ (.init ⟨.next (.init newServer_fresh)
      ⟨(rfl : step _ _ .accept = _), trivial⟩, rfl, rfl⟩) hp
  obtain ⟨_, ⟨called, rest, hcalled, _, hsees, hall⟩, _⟩ :=
    requests_are_framed (by decide) hrun
  have hnil : rest = [] := (hall (fun he => by rw [he] at hlive; cases hlive)).mpr hwire
  rw [hnil, List.append_nil] at hcalled
  refine ⟨s, l, hrun, hwire, ?_⟩
  rw [← hsent]
  exact hcalled ▸ hsees

end Requests
end Speedy.Cluster
