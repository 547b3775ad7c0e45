import Speedy.Cluster.Requests
import Speedy.Chunkserver.Orders
import Speedy.Chunkserver.Lives
import Mathlib.Data.List.TakeWhile

/-! # From the request to its response

What `Ping`, `PutData` and `GetData` read is the server's answer to their own request, in any
interleaving with other connections, the workers and the cron. -/
namespace Speedy.Cluster
open Speedy.Lib Speedy.Chunkserver Speedy.Imageserver

def orderOf : ChunkRequest → Order
  | .ping => .other
  | .putData _ fileId data => .write fileId data.length
  | .getData _ fileId => .read fileId

/-- An answer that is logged for the request on connection `c` -/
def Answers (c : Nat) (r : ChunkRequest) (a : Answer) : Prop :=
  a.For c (fun _ => r.payload) (orderOf r)

/-- The response to the request, as it goes over the wire -/
def replyBytes (r : ChunkRequest) (a : Answer) : Bytes :=
  beEncode 1 r.opcode ++ (beEncode 1 a.error.code ++ (beEncode 4 a.body.length ++ a.body))

/-- How far the last request `r` is. -/
inductive Heard (c : Nat) (r : ChunkRequest) (s : Server) (l : Link) : Prop
  | unread (fewer : l.calls.length < l.sent.length) (got : l.got = []) : Heard c r s l
  | waits {conn : Connection} (live : s.conns c = some conn) (opcode : conn.opcode = r.opcode)
      (payload : conn.payload r.payload.length = r.payload) (mem : (c, orderOf r) ∈ s.orders)
      (ne : orderOf r ≠ .other) (got : l.got = []) : Heard c r s l
  | sends {conn : Connection} {a : Answer} (live : s.conns c = some conn)
      (logged : a ∈ s.answers) (answer : Answers c r a)
      (out : Outgoing conn (replyBytes r a) l.got) : Heard c r s l
  | ended {a : Answer} (idle : ∀ conn, s.conns c = some conn →
        conn.readable = true ∧ conn.state ≠ .sendRsp ∧ l.wire = [])
      (logged : a ∈ s.answers) (answer : Answers c r a) (got : l.got <+: replyBytes r a) :
      Heard c r s l

section Exchange
variable {cfg : Config} {c : Nat} {s s' : Server} {l l' : Link} {conn : Connection} {a : Answer}
  {r : ChunkRequest} {wire got : Bytes}
  {recs : UInt64 → List Record} {lost : UInt64 → Prop} {requests : List ChunkRequest}

/-! ## The two ends -/

theorem Delivered.counts (hd : Delivered c s l) :
    l.calls.length ≤ l.sent.length ∧ l.sent.length ≤ l.calls.length + 1 := by
  obtain ⟨called, rest, hsent, hsees, hphase⟩ := hd
  have hrest : rest.length ≤ 1 := by
    cases hphase with
    | closed _ last =>
      rcases last with rfl | ⟨_, rfl, _⟩
      · exact Nat.zero_le 1
      · exact Nat.le_refl 1
    | receiving => exact Nat.le_refl 1
    | _ => exact Nat.zero_le 1
  rw [hsent, List.length_append, hsees.length_eq]
  omega

theorem Delivered.sending (hd : Delivered c s l) (hc : s.conns c = some conn)
    (hst : conn.state = .sendRsp) :
    Sending conn l.got ∧ l.wire = [] ∧ l.calls.length = l.sent.length := by
  have hreceived : ∀ {base : Connection} {read : Bytes} {blocks : Nat},
      s.conns c = some (base.received read blocks) → False := by
    intro base read blocks live
    obtain rfl := Option.some.inj (live.symm.trans hc)
    rcases received_state base read blocks with he | he <;> rw [he] at hst <;> cases hst
  obtain ⟨called, rest, hsent, hsees, hphase⟩ := hd
  cases hphase with
  | closed gone _ => cases gone.symm.trans hc
  | idle live _ _ => exact (hreceived live).elim
  | receiving live _ _ _ _ => exact (hreceived live).elim
  | waiting live state _ _ _ =>
    obtain rfl := Option.some.inj (live.symm.trans hc)
    rw [hst] at state
    cases state
  | sending live sending _ _ wire =>
    obtain rfl := Option.some.inj (live.symm.trans hc)
    refine ⟨sending, wire, ?_⟩
    rw [hsent, List.append_nil, hsees.length_eq]

/-- What an answer carries fits the lengths of the protocol. -/
theorem Answers.body_lt (h : Answers c r a) (hl : LedgerInv s.ledger recs lost)
    (ha : a ∈ s.answers) : a.body.length < 2147483642 := by
  cases r with
  | ping => obtain ⟨_, rfl⟩ := h; exact Nat.zero_lt_succ _
  | putData _ _ _ => obtain ⟨_, rfl⟩ := h; exact Nat.zero_lt_succ _
  | getData groupId fileId =>
    obtain ⟨error, body, rfl, hempty⟩ := h
    by_cases herr : error = .success
    · subst herr
      obtain ⟨-, hw⟩ := hl.reads (fileId, body.length, body) (List.mem_filterMap.mpr ⟨_, ha, rfl⟩)
      obtain ⟨e, -, hm, rec, hi, he⟩ := hl.entry_of hw
      obtain ⟨-, rfl⟩ := Prod.mk.inj he
      have hlen := (hl.record hm hi).2
      rw [Record.bytes_length] at hlen
      simp only [Answer.body, fileMetaSize] at *
      omega
    · rw [hempty herr]
      exact Nat.zero_lt_succ _

/-- An answer that was just started is on its way. -/
theorem Heard.of_told (hinv : LinkInv cfg c requests (s, l)) (hc : s.conns c = some conn)
    (ha : a ∈ s.answers) (hans : Answers c r a) (hst : Starts a r.opcode conn)
    (hgot : l.got = []) : Heard c r s l := by
  obtain ⟨recs, lost, hl⟩ := hinv.run.sound
  obtain ⟨marks, hb⟩ := hinv.run.books
  obtain ⟨hsend, -, -⟩ := hinv.delivered.sending hc hst.state
  have hwritable : conn.writable = true := by
    have hok : ConnOk conn _ := hl.conns.ok c conn hc
    unfold ConnOk at hok
    rw [hst.state] at hok
    exact hok.1
  have hlen : ((l.got.length : Nat) : Int) = conn.sentlen := hsend.length
  have hrep : Replying conn := ⟨hst.state, by rw [← hlen, hgot]; rfl, hsend.header,
    hsend.bodyLen_lt⟩
  have hbody : conn.bodyLen ≤ conn.rspBody.unread.length := by
    have htake := congrArg List.length hst.body
    rw [List.length_take, ← hst.bodyLen] at htake
    omega
  have hmax := hans.body_lt hl ha
  have hout := hrep.outgoing hwritable (hb.table.fine c conn hc).rspBody.read hbody
    (by rw [hst.bodyLen]; simp only [rspHdrSize]; omega)
  refine .sends hc ha hans (hgot ▸ ?_)
  have hwire : conn.response = replyBytes r a := by
    unfold Connection.response replyBytes
    rw [hst.body, hsend.header, hst.opcode, hst.error, hst.bodyLen]
    simp only [spyMachWriteTo1, spyMachWriteTo4, List.append_assoc]
  exact hwire ▸ hout

theorem Heard.of_became (hinv : LinkInv cfg c requests (s, l)) (h : Became c (orderOf r) conn s)
    (hop : conn.opcode = r.opcode) (hpay : conn.payload r.payload.length = r.payload)
    (hne : orderOf r ≠ .other) (hgot : l.got = []) : Heard c r s l := by
  cases h with
  | waits live opcode data mem =>
    refine .waits live (opcode.trans hop) ?_ mem hne hgot
    unfold Connection.payload at hpay ⊢
    rw [data]
    exact hpay
  | told live logged answer starts =>
    refine .of_told hinv live logged ?_ (hop ▸ starts) hgot
    cases r with
    | ping => exact absurd rfl hne
    | putData groupId fileId data =>
      obtain ⟨error, rfl⟩ := answer
      exact ⟨error, congrArg _ hpay⟩
    | getData groupId fileId => exact answer

/-! ## Events -/

theorem answers_mem (hinv : LinkInv cfg c requests (s, l)) {e : Event}
    (hs : step cfg s e = .ok s') (ha : a ∈ s.answers) : a ∈ s'.answers := by
  obtain ⟨recs, lost, hl⟩ := hinv.run.sound
  have hsim : Steps (fun _ => True) True True s.ledger s'.ledger :=
    step_sim hl.flow (fun _ _ => trivial) (.inl trivial) (fun _ _ _ _ _ _ => trivial) hs
  obtain ⟨new, hnew, -⟩ := hsim.relog
  rw [show s'.answers = new ++ s.answers from hnew]
  exact List.mem_append_right _ ha

theorem Heard.other (h : Heard c r s l) (hinv : LinkInv cfg c requests (s, l)) {e : Event}
    (hs : step cfg s e = .ok s') (hinv' : LinkInv cfg c requests (s', l)) (hon : ¬ e.On c) :
    Heard c r s' l := by
  obtain ⟨recs, lost, hl⟩ := hinv.run.sound
  obtain ⟨recs', lost', hl'⟩ := hinv'.run.sound
  obtain ⟨marks, hb⟩ := hinv.run.books
  have hsame : (∀ conn, s.conns c = some conn → ¬ Waits conn) → s'.conns c = s.conns c := by
    intro hidle
    rcases step_turned hb hl hs hinv.known hon with he | ⟨hw, -⟩
    · exact he
    · obtain ⟨conn, hc⟩ := hl.conns.live c hw
      exact absurd ((hl.conns.ok c conn hc).waits hw) (hidle conn hc)
  cases h with
  | unread fewer got => exact .unread fewer got
  | waits live opcode payload mem ne got =>
    exact .of_became hinv' (step_became hl hl' hs live mem ne) opcode payload ne got
  | sends live logged answer out =>
    refine .sends ((hsame fun conn hc hw => ?_).trans live) (answers_mem hinv hs logged) answer out
    obtain rfl := Option.some.inj (live.symm.trans hc)
    exact hw.unsent out.state
  | ended idle logged answer got =>
    have hc' := hsame fun conn hc hw => absurd (hw.readable.symm.trans (idle conn hc).1) nofun
    exact .ended (hc' ▸ idle) (answers_mem hinv hs logged) answer got

/-- Events on a connection that waits are not possible. -/
theorem waits_of_mem (hinv : LinkInv cfg c requests (s, l)) (hc : s.conns c = some conn)
    {o : Order} (hm : (c, o) ∈ s.orders) : Waits conn := by
  obtain ⟨recs, lost, hl⟩ := hinv.run.sound
  obtain ⟨x, hx, he⟩ := List.mem_map.mp hm
  exact (hl.conns.ok c conn hc).waits (List.mem_map.mpr ⟨x, hx, (Prod.mk.inj he).1⟩)

theorem Heard.silent (h : Heard c r s l) (hinv : LinkInv cfg c requests (s, l)) {read : SockRead}
    {env : Env} (hr : ∀ bs, read ≠ .data bs) (hs : step cfg s (.readable c read env) = .ok s') :
    Heard c r s' l := by
  obtain ⟨conn0, live0, hread, -⟩ := step_readable_ok hs
  have hstay : ∀ {conn conn'}, s.conns c = some conn → s'.conns c = some conn' →
      ∃ b, conn' = { conn with request := { conn.request with blocks := b } } := by
    intro conn conn' hc hc'
    cases read with
    | data bs => exact absurd rfl (hr bs)
    | eagain => exact step_readable_eagain hc hs hc'
    | eof => cases (step_readable_closed (.inl rfl) hc hs).symm.trans hc'
    | error => cases (step_readable_closed (.inr rfl) hc hs).symm.trans hc'
  cases h with
  | unread fewer got => exact .unread fewer got
  | waits live opcode payload mem ne got =>
    obtain rfl := Option.some.inj (live.symm.trans live0)
    cases (waits_of_mem hinv live mem).readable.symm.trans hread
  | sends live logged answer out =>
    cases hc' : s'.conns c with
    | none =>
      exact .ended (fun _ hc => by cases hc'.symm.trans hc) (answers_mem hinv hs logged) answer
        ⟨_, out.rest⟩
    | some conn' =>
      obtain ⟨b, rfl⟩ := hstay live hc'
      exact .sends hc' (answers_mem hinv hs logged) answer ⟨out.state, out.writable, out.header,
        out.read_le, out.fits, out.sentlen, out.sent_le, out.body, out.rest⟩
  | ended idle logged answer got =>
    refine .ended (fun conn' hc' => ?_) (answers_mem hinv hs logged) answer got
    obtain ⟨b, rfl⟩ := hstay live0 hc'
    exact idle conn0 live0

/-- The loop ends at a failed `write()`. -/
theorem sendLoop_takeWhile (results : List SockWrite) :
    sendOutput (results.takeWhile (· ≠ .error)) conn = sendOutput results conn ∧
      (sendLoop s c results conn = .ok s' → s'.conns c = none ∨
        sendLoop s c (results.takeWhile (· ≠ .error)) conn = .ok s') := by
  induction results generalizing conn with
  | nil => exact ⟨rfl, .inr⟩
  | cons r results ih =>
    by_cases hr : r = .error
    · rw [hr, List.takeWhile_cons_of_neg (by simp)]
      simp only [sendOutput, sendLoop]
      cases conn.nextSend with
      | error e => exact ⟨rfl, .inr⟩
      | ok next =>
        cases next with
        | none => exact ⟨rfl, .inr⟩
        | some len => exact ⟨rfl, fun hs => .inl (Except.ok.inj hs ▸ if_pos rfl)⟩
    · rw [List.takeWhile_cons_of_pos (by simpa using hr)]
      unfold sendOutput sendLoop
      cases conn.nextSend with
      | error e => exact ⟨rfl, .inr⟩
      | ok next =>
        cases next with
        | none => exact ⟨rfl, .inr⟩
        | some len =>
          cases r with
          | error => exact absurd rfl hr
          | eagain => exact ⟨rfl, .inr⟩
          | sent n =>
            obtain ⟨hout, hloop⟩ := @ih (conn.sent (min (max n 1) len))
            exact ⟨congrArg _ hout, hloop⟩

/-- A call of the write handler, whatever the socket does. -/
theorem outgoing_sendLoop (results : List SockWrite) (h : Outgoing conn wire got)
    (hs : sendLoop s c results conn = .ok s') :
    got ++ sendOutput results conn <+: wire ∧ ∀ conn', s'.conns c = some conn' →
      Outgoing conn' wire (got ++ sendOutput results conn) ∨
        conn'.readable = true ∧ conn'.state ≠ .sendRsp := by
  obtain ⟨hout, hloop⟩ := sendLoop_takeWhile (s := s) (c := c) results
  have hcalm : Calm (results.takeWhile (· ≠ .error)) := fun hm => by
    simpa using List.mem_takeWhile_imp (p := (· ≠ SockWrite.error)) hm
  obtain ⟨t, conn1, ht, hc1, hsent⟩ := h.sendLoop (s := s) (c := c) _ hcalm
  rw [hout] at hsent
  have hend : ∀ conn', s'.conns c = some conn' → conn' = conn1 := by
    intro conn' hc'
    rcases hloop hs with hnone | hsame
    · cases hnone.symm.trans hc'
    · obtain rfl := Except.ok.inj (ht.symm.trans hsame)
      exact Option.some.inj (hc'.symm.trans hc1)
  rcases hsent with ⟨hout, -⟩ | ⟨he, hst, -, -, hread, -⟩
  · exact ⟨⟨_, hout.rest⟩, fun conn' hc' => .inl (hend conn' hc' ▸ hout)⟩
  · refine ⟨he ▸ List.prefix_rfl, fun conn' hc' => .inr ?_⟩
    obtain rfl := hend conn' hc'
    exact ⟨hread, by rw [hst]; exact nofun⟩

theorem Heard.written (h : Heard c r s l) (hinv : LinkInv cfg c requests (s, l))
    {results : List SockWrite} (hs : step cfg s (.writable c results) = .ok s')
    (ho : l.observe s c (.writable c results) = some l') : Heard c r s' l' := by
  obtain ⟨recs, lost, hl⟩ := hinv.run.sound
  have hans := fun {a} => answers_mem (a := a) hinv hs
  obtain ⟨conn, hc, hwrite, hs⟩ := step_writable_ok hs
  simp only [Link.observe, if_true, hc, Option.map_some] at ho
  obtain rfl := Option.some.inj ho
  have hst := (hl.conns.ok c conn hc).sends hwrite
  obtain ⟨-, hwire, hall⟩ := hinv.delivered.sending hc hst
  cases h with
  | unread fewer got => exact absurd hall (Nat.ne_of_lt fewer)
  | waits live opcode payload mem ne got =>
    cases (waits_of_mem hinv hc mem).writable.symm.trans hwrite
  | sends live logged answer out =>
    obtain rfl := Option.some.inj (live.symm.trans hc)
    obtain ⟨hpre, hnext⟩ := outgoing_sendLoop results out hs
    cases hc' : s'.conns c with
    | none => exact .ended (fun _ hc => by cases hc'.symm.trans hc) (hans logged) answer hpre
    | some conn' =>
      rcases hnext conn' hc' with hout | ⟨hread, hst'⟩
      · exact .sends hc' (hans logged) answer hout
      · refine .ended (fun conn hc => ?_) (hans logged) answer hpre
        obtain rfl := Option.some.inj (hc'.symm.trans hc)
        exact ⟨hread, hst', hwire⟩
  | ended idle logged answer got => exact absurd hst (idle conn hc).2.1

/-- The last byte of a request: the handler answers it, or it becomes a job. -/
theorem Heard.called (hinv : LinkInv cfg c requests (s, l)) (hsees : Sees r conn) {t : Server}
    {env : Env} (hs : dispatch cfg t c conn env = .ok s) (hgot : l.got = []) : Heard c r s l := by
  obtain ⟨hop, hsees⟩ := hsees
  unfold dispatch at hs
  rw [hop] at hs
  cases r with
  | ping =>
    obtain rfl := Except.ok.inj hs
    refine .of_told (a := .other c conn.opcode .success) hinv (if_pos rfl) (List.mem_cons_self ..)
      ⟨_, rfl⟩ ?_ hgot
    exact hop ▸ starts_errorReply { conn with readable := false } rfl rfl
  | putData groupId fileId data =>
    obtain ⟨hsize, hpay, conn', hread, -⟩ := hsees
    have hbecame := spyHandleWrite_became hread hs
    rw [hsize] at hbecame
    exact .of_became hinv hbecame hop hpay nofun hgot
  | getData groupId fileId =>
    obtain ⟨conn', hread, -⟩ := hsees
    exact .of_became hinv (spyHandleRead_became hread hs) hop (List.take_zero ..) nofun hgot

/-- The newest call is the one for the last request. -/
theorem Delivered.last_sees (hd : Delivered c s l) {rest : Bytes}
    (hd' : Delivered c s' { l with wire := rest, calls := l.calls ++ [conn] })
    (hlast : l.sent.getLast? = some r) : Sees r conn := by
  obtain ⟨-, hle⟩ := hd.counts
  obtain ⟨called, more, hsent, hsees, -⟩ := hd'
  have hcount := hsees.length_eq
  have hsent' : l.sent = called ++ more := hsent
  rw [hsent', List.length_append] at hle
  rw [List.length_append, List.length_singleton] at hcount
  obtain rfl : more = [] := List.eq_nil_of_length_eq_zero (by omega)
  have hdrop := List.forall₂_drop_append called l.calls [conn] hsees
  rw [List.append_nil] at hsent'
  cases hr : called.drop l.calls.length with
  | nil => rw [hr] at hdrop; cases hdrop
  | cons r1 tail =>
    rw [hr] at hdrop
    obtain ⟨hsee, htail⟩ := List.forall₂_cons.mp hdrop
    obtain rfl := List.forall₂_nil_right_iff.mp htail
    rw [hsent', ← List.take_append_drop l.calls.length called, hr, List.getLast?_append] at hlast
    exact Option.some.inj hlast ▸ hsee

theorem Heard.deliver (h : Heard c r s l) (hinv : LinkInv cfg c requests (s, l))
    (hlast : l.sent.getLast? = some r) {bs : Bytes} {env : Env}
    (hs : step cfg s (.readable c (.data bs) env) = .ok s')
    (ho : l.deliver s c bs env = some l') (hinv' : LinkInv cfg c requests (s', l')) :
    Heard c r s' l' := by
  obtain ⟨marks, hb⟩ := hinv.run.books
  obtain ⟨conn, mem, request, len, rest, hread, rfl⟩ := deliver_eq_some ho
  have hwire : l.wire ≠ [] := by
    rw [hread.wire]
    exact List.append_ne_nil_of_left_ne_nil hread.nonempty rest
  cases h with
  | waits live opcode payload mem ne got =>
    have hw := waits_of_mem hinv live mem
    simp only [step, live, hw.readable] at hs
    cases hs
  | sends live logged answer out =>
    exact absurd (hinv.delivered.sending live out.state).2.1 hwire
  | ended idle logged answer got => exact absurd (idle conn hread.live).2.2 hwire
  | unread fewer got =>
    cases hcall : handlerCall s (.readable c (.data bs) env) with
    | none =>
      refine .unread ?_ got
      show (l.calls ++ []).length < _
      rw [List.append_nil]
      exact fewer
    | some call =>
      obtain ⟨i, conn1⟩ := call
      obtain rfl : c = i := by
        simp only [handlerCall, hread.live] at hcall
        split at hcall
        · obtain ⟨_, -, he⟩ := Option.map_eq_some_iff.mp hcall
          exact (Prod.mk.inj he).1
        · cases hcall
      rw [hcall] at hinv'
      obtain ⟨-, mem', env', hstep⟩ := step_handlerCall hb hcall
      exact .called hinv' (hinv.delivered.last_sees hinv'.delivered hlast) (hstep.symm.trans hs) got

/-! ## Whole runs -/

theorem Heard.event (h : Heard c r s l) (hinv : LinkInv cfg c requests (s, l))
    (hlast : l.sent.getLast? = some r) {e : Event} (hs : step cfg s e = .ok s')
    (ho : l.observe s c e = some l') (hinv' : LinkInv cfg c requests (s', l')) :
    Heard c r s' l' := by
  by_cases hon : e.On c
  · cases e with
    | readable i read env =>
      obtain rfl : i = c := hon
      cases read with
      | data bs => exact h.deliver hinv hlast hs ((if_pos rfl).symm.trans ho) hinv'
      | eagain => exact Option.some.inj ho ▸ h.silent hinv (fun _ he => by cases he) hs
      | eof => exact Option.some.inj ho ▸ h.silent hinv (fun _ he => by cases he) hs
      | error => exact Option.some.inj ho ▸ h.silent hinv (fun _ he => by cases he) hs
    | writable i results =>
      obtain rfl : i = c := hon
      exact h.written hinv hs ho
    | _ => exact hon.elim
  · rw [observe_other hon] at ho
    obtain rfl := Option.some.inj ho
    exact h.other hinv hs hinv' hon

theorem LinkRun.heard (hshort : ∀ r ∈ requests, r.Short) {x : Server × Link}
    (h : LinkRun cfg c requests x) : ∀ r, x.2.sent.getLast? = some r → Heard c r x.1 x.2 := by
  refine Reach.invariant (I := fun x => ∀ r, x.2.sent.getLast? = some r → Heard c r x.1 x.2)
    ?_ ?_ h
  · rintro ⟨s, l⟩ ⟨-, -, rfl⟩ r hlast
    cases hlast
  · rintro ⟨s, l⟩ m ⟨s', l'⟩ hreach ih hstep r hlast
    have hinv := LinkRun.inv hshort hreach
    have hinv' := LinkRun.inv hshort (.next hreach hstep)
    cases m with
    | send =>
      obtain ⟨l1, hsend, hpair⟩ := Option.map_eq_some_iff.mp hstep
      obtain ⟨rfl, rfl⟩ := Prod.mk.inj hpair
      have hle : l.calls.length ≤ l.sent.length := hinv.delivered.counts.1
      unfold Link.send at hsend
      split at hsend
      · cases hsend
      · split at hsend
        · obtain rfl := Option.some.inj hsend
          refine .unread ?_ rfl
          show l.calls.length < (l.sent ++ [_]).length
          rw [List.length_append]
          exact Nat.lt_succ_of_le hle
        · cases hsend
    | event e =>
      simp only [linkStep] at hstep
      split at hstep
      · rename_i t l1 hs ho
        obtain ⟨rfl, rfl⟩ := Prod.mk.inj (Option.some.inj hstep)
        obtain ⟨recs, lost, hl⟩ := hinv.run.sound
        obtain ⟨marks, hb⟩ := hinv.run.books
        obtain ⟨-, hsent, -⟩ := hinv.delivered.event hb hl hinv.known
          (fun r hr => hshort r (hinv.all ▸ List.mem_append_left _ hr)) hs ho
        have hlast' : l.sent.getLast? = some r := hsent ▸ hlast
        exact (ih r hlast').event hinv hlast' hs ho hinv'
      · cases hstep

/-- What has come is part of the response to the request. -/
theorem Heard.said (h : Heard c r s l) :
    l.got = [] ∨ ∃ a ∈ s.answers, Answers c r a ∧ l.got <+: replyBytes r a := by
  cases h with
  | unread fewer got => exact .inl got
  | waits live opcode payload mem ne got => exact .inl got
  | sends live logged answer out => exact .inr ⟨_, logged, answer, _, out.rest⟩
  | ended idle logged answer got => exact .inr ⟨_, logged, answer, got⟩

theorem code_eq_zero (error : SpyError) : UInt8.ofNat error.code = 0 ↔ error = .success := by
  cases error <;> decide

/-- A client gets the answer to its own request: whatever the order of events, `Ping` only
succeeds, `PutData` returns what was answered to a WRITE of its file with its data, and
`GetData` what was answered to a READ of its file. The data of a success was stored under this
id by an acknowledged WRITE. -/
theorem clients_get_their_answers (hshort : ∀ r ∈ requests, r.Short)
    (h : LinkRun cfg c requests (s, l)) (hlast : l.sent.getLast? = some r) :
    match r with
    | .ping => ∀ x, pingResponse l.got = some x → x = .ok ()
    | .putData _ fileId data => ∀ x, putDataResponse l.got = some x →
        ∃ error, .write c fileId error data ∈ s.answers ∧
          x = if error = .success then .ok () else .error (UInt8.ofNat error.code)
    | .getData _ fileId => ∀ x, getDataResponse l.got = some x →
        ∃ error body, .read c fileId error body.length body ∈ s.answers ∧
          x = (if error = .success then .ok body else .error (UInt8.ofNat error.code)) ∧
          (error = .success → (fileId, body) ∈ successWrites s.answers) := by
  obtain ⟨recs, lost, hl⟩ := (LinkRun.inv hshort h).run.sound
  rcases (LinkRun.heard hshort h r hlast).said with hnil | ⟨a, ha, hans, hpre⟩
  · have hgot : l.got = [] := hnil
    rw [hgot]
    cases r <;> exact fun x hx => nomatch hx
  · have hlen := hans.body_lt hl ha
    have hheader := fun x => readHeader_of_isPrefix (x := x) (by omega) hpre
    cases r with
    | ping =>
      intro x hx
      obtain ⟨y, hy, rfl⟩ := Option.map_eq_some_iff.mp hx
      obtain ⟨rest, -, rfl⟩ := hheader y hy
      obtain ⟨op, rfl⟩ := hans
      rfl
    | putData groupId fileId data =>
      intro x hx
      obtain ⟨y, hy, rfl⟩ := Option.map_eq_some_iff.mp hx
      obtain ⟨rest, -, rfl⟩ := hheader y hy
      obtain ⟨error, rfl⟩ := hans
      refine ⟨error, ha, ?_⟩
      simp only [Answer.error, code_eq_zero]
      exact if_congr (and_iff_right rfl) rfl rfl
    | getData groupId fileId =>
      intro x hx
      obtain ⟨error, body, rfl, hempty⟩ := hans
      refine ⟨error, body, ha, ?_, ?_⟩
      · unfold getDataResponse at hx
        split at hx
        · cases hx
        · rename_i op code len rest hy
          obtain ⟨rest', hrest, he⟩ := hheader _ hy
          simp only [Prod.mk.injEq] at he
          obtain ⟨rfl, rfl, rfl, rfl⟩ := he
          simp only [Answer.error, Answer.body, ne_eq, code_eq_zero] at hx hrest
          by_cases herr : error = .success
          · have hop : (UInt8.ofNat (ChunkRequest.getData groupId fileId).opcode).toNat = opGet :=
              rfl
            rw [if_neg (not_or.mpr ⟨not_not.mpr hop, not_not.mpr herr⟩)] at hx
            obtain ⟨y, hy, rfl⟩ := Option.map_eq_some_iff.mp hx
            unfold readFull at hy
            split at hy
            · rename_i hle
              obtain rfl := hrest.eq_of_length_le hle
              obtain rfl := Option.some.inj hy
              rw [if_pos herr, List.take_length]
            · cases hy
          · rw [if_pos (.inr herr)] at hx
            rw [if_neg herr]
            exact (Option.some.inj hx).symm
      · rintro rfl
        exact (hl.reads (fileId, body.length, body) (List.mem_filterMap.mpr ⟨_, ha, rfl⟩)).2

/-- An upload and a download of the file on one connection. -/
def exchangeRequests : List ChunkRequest := [.putData 1 7 [1, 2, 3], .getData 1 7]

def exchangeMoves : List LinkMove :=
  .send :: (writeEvents .full).tail.map .event ++
    [.event (.done true), .event (.writable 0 [.sent 6]), .send] ++
    (readEvents.drop 2).map .event ++ [.event (.writable 0 [.sent 4, .sent 2, .sent 3])]

theorem clients_get_their_answers_download : ∃ (s : Server) (l : Link) (body : Bytes),
    LinkRun sampleConfig 0 exchangeRequests (s, l) ∧
      getDataResponse l.got = some (.ok body) ∧ (7, body) ∈ successWrites s.answers := by
  have hplay : ((play (linkStep sampleConfig 0) exchangeMoves
      (spyCreateClientConnection (newServer sampleConfig), ⟨exchangeRequests, [], [], [], []⟩)).map
        fun x => (x.2.sent, getDataResponse x.2.got)) =
      some (exchangeRequests, some (.ok [1, 2, 3])) := by
    decide +kernel
  obtain ⟨⟨s, l⟩, hp, hx⟩ := Option.map_eq_some_iff.mp hplay
  obtain ⟨hsent, hdown⟩ : l.sent = _ ∧ getDataResponse l.got = _ := Prod.mk.inj hx
  have hrun : LinkRun sampleConfig 0 exchangeRequests (s, l) :=
    Reach.play (fun _ _ _ he => he) _ (.init ⟨.next (.init newServer_fresh)
      ⟨(rfl : step _ _ .accept = _), trivial⟩, rfl, rfl⟩) hp
  obtain ⟨error, body, -, hres, hstored⟩ :=
    clients_get_their_answers (r := .getData 1 7) (by decide) hrun (by rw [hsent]; rfl) _ hdown
  by_cases herr : error = .success
  · rw [if_pos herr] at hres
    exact ⟨s, l, body, hrun, hdown.trans (congrArg some hres), hstored herr⟩
  · rw [if_neg herr] at hres
    cases hres

end Exchange
end Speedy.Cluster
