import Speedy.Imageserver.ChunkserverClient
import Speedy.Imageserver.GroupSelection
import Speedy.Imageserver.Handlers
import Speedy.Lib.FanIn
import Speedy.Lib.Run

/-! # Storing the data of an upload

`upload` chooses a group, starts one `postFileConcurrence` for each of its RW servers and
waits in `handlePostResult` for as many messages as it has started goroutines; the empty
message is success. A step here is one call of a goroutine on the pools, on its connection
or on the channel, or one message taken by `handlePostResult`. -/
namespace Speedy.Imageserver
open Speedy.Lib

/-! ## One server -/

/-- What `PutData` gets: an error of the `Write` or of the read of the header, or a header. -/
inductive PutReply where
  | ioError (err : String)
  | header (opcode code : UInt8)
  deriving DecidableEq, Repr

/-- The error that `PutData` returns. -/
def PutReply.error : PutReply → Option String
  | .ioError err => some err
  | .header opcode code =>
    if opcode = UInt8.ofNat opPut ∧ code = 0 then none
    else some ("upload error, code: " ++ toString code.toNat)

/-- The request that `PutData` writes. -/
def ChunkServer.putRequest (cs : ChunkServer) (data : List UInt8) (fileId : UInt64) :
    ChunkRequest :=
  .putData (Int32.ofInt cs.groupId) fileId data

/-- What follows the message: nothing, `checkErrorAndConnPool`, or `ReleaseConn`. -/
inductive PostRest where
  | nothing
  | check (err : String)
  | release
  deriving DecidableEq, Repr

/-- Where a `postFileConcurrence` stands. -/
inductive PostPhase where
  | getPools
  | getConn
  | putData
  /-- `Close` and `ReleaseConn` after an error -/
  | close (err : String)
  | send (message : String) (rest : PostRest)
  | rest (rest : PostRest)
  | done
  deriving DecidableEq, Repr

/-- A `postFileConcurrence`. The last two fields record the request that its server has
acknowledged and the message that it has sent. -/
structure PostTask where
  server : ChunkServer
  phase : PostPhase
  acked : Option ChunkRequest
  sent : Option String
  deriving DecidableEq, Repr

inductive PostMove where
  | pools (i : Nat) (isNil : Bool)
  | conn (i : Nat) (err : Option String)
  | reply (i : Nat) (reply : PutReply)
  | proceed (i : Nat)
  | receive
  deriving DecidableEq, Repr

/-- The errors it brings have a text. -/
def PostMove.Worded : PostMove → Prop
  | .conn _ err => err ≠ some ""
  | .reply _ r => r ≠ .ioError ""
  | _ => True

/-- A step of a goroutine, with the message that it sends. -/
def PostTask.step (data : List UInt8) (fileId : UInt64) (t : PostTask) :
    PostMove → Option (PostTask × Option String)
  | .pools _ isNil =>
    match t.phase with
    | .getPools =>
      if isNil then some ({ t with phase := .send "connectionPools is nil" .nothing }, none)
      else some ({ t with phase := .getConn }, none)
    | _ => none
  | .conn _ err =>
    match t.phase, err with
    | .getConn, some err => some ({ t with phase := .send err .nothing }, none)
    | .getConn, none => some ({ t with phase := .putData }, none)
    | _, _ => none
  | .reply _ reply =>
    match t.phase, reply.error with
    | .putData, some err => some ({ t with phase := .close err }, none)
    | .putData, none =>
      some ({ t with
        phase := .send "" .release
        acked := some (t.server.putRequest data fileId) }, none)
    | _, _ => none
  | .proceed _ =>
    match t.phase with
    | .close err => some ({ t with phase := .send err (.check err) }, none)
    | .send message rest =>
      some ({ t with phase := .rest rest, sent := some message }, some message)
    | .rest _ => some ({ t with phase := .done }, none)
    | _ => none
  | .receive => none

/-! ## The goroutines and `handlePostResult` -/

/-- The goroutines of an upload, the channel `ch`, and the messages that
`handlePostResult` has taken. -/
structure Posting extends FanIn PostTask String where
  data : List UInt8
  fileId : UInt64
  deriving DecidableEq, Repr

def rwServers (servers : List ChunkServer) : List ChunkServer :=
  servers.filter fun cs => cs.status = rwStatus

def Posting.start (data : List UInt8) (fileId : UInt64) (servers : List ChunkServer) : Posting where
  tasks := (rwServers servers).map fun cs => ⟨cs, .getPools, none, none⟩
  chan := []
  got := []
  data := data
  fileId := fileId

/-- The goroutine a step is one of. -/
def PostMove.task : PostMove → Option Nat
  | .pools i _ => some i
  | .conn i _ => some i
  | .reply i _ => some i
  | .proceed i => some i
  | .receive => none

/-- A step of the goroutine `i`. The channel has room for `normal` messages, one for each. -/
def Posting.taskStep (p : Posting) (m : PostMove) (i : Nat) : Option Posting :=
  match p.tasks[i]? with
  | none => none
  | some t =>
    match t.step p.data p.fileId m with
    | none => none
    | some (t', none) => some { p with tasks := p.tasks.set i t' }
    | some (t', some message) =>
      if p.chan.length < p.tasks.length then
        some { p with tasks := p.tasks.set i t', chan := p.chan ++ [message] }
      else none

def Posting.step (p : Posting) (m : PostMove) : Option Posting :=
  match m.task with
  | some i => p.taskStep m i
  | none =>
    match p.chan with
    | [] => none
    | message :: rest =>
      if p.got.length < p.tasks.length then
        some { p with chan := rest, got := p.got ++ [message] }
      else none

/-- What `handlePostResult` makes its error of: the last message that is not empty. -/
def postResult (got : List String) : Option String :=
  got.foldl (fun result message => if message.length ≠ 0 then some message else result) none

/-! ## The upload -/

/-- What a call of `upload` depends on: the routing snapshot, the random number and the fid
are what it finds on its way. -/
structure UploadCall where
  limitNum : Int
  groups : GroupMap
  rand : Nat
  fid : Except String UInt64
  data : List UInt8
  value : MetaInfoValue

/-- `int64(End - Start)` -/
def MetaInfoValue.rangeSize (v : MetaInfoValue) : Int := (v.stop - v.start).toInt64.toInt

def UploadCall.selected (call : UploadCall) : Except String (List ChunkServer) :=
  selectChunkServerGroupComplex call.limitNum call.groups call.rand call.value.rangeSize

/-- Before the goroutines are started: the group and the fid, or the status of an error -/
def UploadCall.begin (call : UploadCall) : Except Nat (List ChunkServer × UInt64) :=
  match call.selected with
  | .error _ => .error 500
  | .ok chunkServers =>
    match call.fid with
    | .error _ => .error 500
    | .ok fileId =>
      if (call.data.length : Int) ≠ call.value.rangeSize then .error 400
      else .ok (chunkServers, fileId)

/-- `uint16(chunkServers[0].GroupId)`; a group that is selected is not empty. -/
def groupIdOf : List ChunkServer → UInt16
  | [] => 0
  | cs :: _ => UInt16.ofInt cs.groupId

/-- A call under way: `status` is what it has returned, `value` is `metaInfo.Value`. -/
structure UploadState where
  servers : List ChunkServer
  posting : Posting
  status : Option Nat
  value : MetaInfoValue

def UploadCall.start (call : UploadCall) : UploadState :=
  match call.begin with
  | .error status => ⟨[], Posting.start call.data 0 [], some status, call.value⟩
  | .ok (servers, fileId) => ⟨servers, Posting.start call.data fileId servers, none, call.value⟩

inductive UploadMove where
  | post (m : PostMove)
  | finish
  deriving DecidableEq, Repr

def UploadMove.Worded : UploadMove → Prop
  | .post m => m.Worded
  | .finish => True

/-- `finish` is what `upload` does once it has all the messages. -/
def UploadState.step (s : UploadState) : UploadMove → Option UploadState
  | .post m => (s.posting.step m).map fun p => { s with posting := p }
  | .finish =>
    if s.status = none ∧ s.posting.got.length = s.posting.tasks.length then
      match postResult s.posting.got with
      | some _ => some { s with status := some 500 }
      | none =>
        some { s with
          status := some 200
          value := { s.value with
            fileId := s.posting.fileId
            groupId := groupIdOf s.servers } }
    else none

/-- What the call comes to for the handler -/
def UploadState.outcome (s : UploadState) (call : UploadCall) : UploadOutcome :=
  match call.selected, call.fid with
  | .error _, _ => .noGroup
  | .ok _, .error _ => .noFid
  | .ok _, .ok _ =>
    match postResult s.posting.got with
    | some _ => .postFailed
    | none => .posted s.posting.fileId (groupIdOf s.servers)

/-- Each of the RW servers has acknowledged a PUT of the data under the fid. -/
def UploadState.Stored (s : UploadState) (servers : List ChunkServer) (data : List UInt8)
    (fileId : UInt64) : Prop :=
  s.posting.tasks.map (fun t => (t.server, t.acked)) =
    (rwServers servers).map fun cs => (cs, some (.putData (Int32.ofInt cs.groupId) fileId data))

/-! ## What one goroutine does -/

section Task
variable {data : List UInt8} {fileId : UInt64} {t t' : PostTask} {m : PostMove} {i : Nat}
  {message : Option String}

theorem PutReply.error_worded {r : PutReply} (h : r ≠ .ioError "") : r.error ≠ some "" := by
  cases r with
  | ioError err =>
    intro he
    exact h (congrArg PutReply.ioError (Option.some.inj he))
  | header opcode code =>
    intro he
    have hif : (if opcode = UInt8.ofNat opPut ∧ code = 0 then none
      else some ("upload error, code: " ++ toString code.toNat)) = some "" := he
    split at hif
    · cases hif
    · have hlen := congrArg String.length (Option.some.inj hif)
      rw [String.length_append] at hlen
      have htext : "upload error, code: ".length = 20 := rfl
      have hempty : "".length = 0 := rfl
      omega

/-- The empty message stands for an acknowledged request. -/
def PostTask.Says (data : List UInt8) (fileId : UInt64) (t : PostTask) (message : String) : Prop :=
  t.acked = if message = "" then some (t.server.putRequest data fileId) else none

/-- A goroutine in a phase has sent what it is to send by then. -/
def PostTask.Sound (data : List UInt8) (fileId : UInt64) (t : PostTask) : Prop :=
  match t.phase with
  | .getPools | .getConn | .putData => t.sent = none ∧ t.acked = none
  | .close err => t.sent = none ∧ t.acked = none ∧ err ≠ ""
  | .send message _ => t.sent = none ∧ t.Says data fileId message
  | .rest _ | .done => ∃ message, t.sent = some message ∧ t.Says data fileId message

/-- The number of steps that are left. -/
def PostPhase.weight : PostPhase → Nat
  | .getPools => 6
  | .getConn => 5
  | .putData => 4
  | .close _ => 3
  | .send _ _ => 2
  | .rest _ => 1
  | .done => 0

/-- A step of a goroutine: one of them sends, once. -/
structure PostTask.Steps (data : List UInt8) (fileId : UInt64) (t t' : PostTask)
    (message : Option String) : Prop where
  server : t'.server = t.server
  sound : t.Sound data fileId → t'.Sound data fileId
  sent : t.Sound data fileId → match message with
    | none => t'.sent = t.sent
    | some message => t.sent = none ∧ t'.sent = some message
  weight : t'.phase.weight < t.phase.weight

theorem PostTask.step_steps (hm : m.Worded) (h : t.step data fileId m = some (t', message)) :
    t.Steps data fileId t' message := by
  obtain ⟨server, phase, acked, sent⟩ := t
  cases m with
  | pools i isNil =>
    cases phase with
    | getPools =>
      cases isNil with
      | true =>
        cases h
        exact ⟨rfl, fun hs => ⟨hs.1, hs.2.trans (if_neg (by decide)).symm⟩, fun _ => rfl,
          show 2 < 6 by decide⟩
      | false =>
        cases h
        exact ⟨rfl, fun hs => hs, fun _ => rfl, show 5 < 6 by decide⟩
    | getConn | putData | close | send | rest | done => cases h
  | conn i err =>
    cases phase with
    | getConn =>
      cases err with
      | some err =>
        cases h
        have hne : err ≠ "" := fun he => hm (congrArg some he)
        exact ⟨rfl, fun hs => ⟨hs.1, hs.2.trans (if_neg hne).symm⟩, fun _ => rfl,
          show 2 < 5 by decide⟩
      | none =>
        cases h
        exact ⟨rfl, fun hs => hs, fun _ => rfl, show 4 < 5 by decide⟩
    | getPools | putData | close | send | rest | done => cases h
  | reply i r =>
    cases phase with
    | putData =>
      have hworded := PutReply.error_worded hm
      cases herr : r.error with
      | some err =>
        simp only [PostTask.step, herr] at h
        cases h
        have hne : err ≠ "" := fun he => hworded (herr.trans (congrArg some he))
        exact ⟨rfl, fun hs => ⟨hs.1, hs.2, hne⟩, fun _ => rfl, show 3 < 4 by decide⟩
      | none =>
        simp only [PostTask.step, herr] at h
        cases h
        exact ⟨rfl, fun hs => ⟨hs.1, (if_pos rfl).symm⟩, fun _ => rfl, show 2 < 4 by decide⟩
    | getPools | getConn | close | send | rest | done => cases h
  | proceed i =>
    cases phase with
    | close err =>
      cases h
      exact ⟨rfl, fun hs => ⟨hs.1, hs.2.1.trans (if_neg hs.2.2).symm⟩, fun _ => rfl,
        show 2 < 3 by decide⟩
    | send text rest =>
      cases h
      exact ⟨rfl, fun hs => ⟨text, rfl, hs.2⟩, fun hs => ⟨hs.1, rfl⟩, show 1 < 2 by decide⟩
    | rest rest =>
      cases h
      exact ⟨rfl, fun hs => hs, fun _ => rfl, show 0 < 1 by decide⟩
    | getPools | getConn | putData | done => cases h
  | receive => cases h

/-- A goroutine that has not sent can go on. -/
theorem PostTask.Sound.enabled (h : t.Sound data fileId) (hsent : t.sent = none) (i : Nat) :
    ∃ m, m.task = some i ∧ m.Worded ∧ ∃ t' message, t.step data fileId m = some (t', message) := by
  obtain ⟨server, phase, acked, sent⟩ := t
  cases phase with
  | getPools => exact ⟨.pools i false, rfl, trivial, _, _, rfl⟩
  | getConn => exact ⟨.conn i none, rfl, nofun, _, _, rfl⟩
  | putData => exact ⟨.reply i (.header 0 0), rfl, nofun, _, _, rfl⟩
  | close err => exact ⟨.proceed i, rfl, trivial, _, _, rfl⟩
  | send text rest => exact ⟨.proceed i, rfl, trivial, _, _, rfl⟩
  | rest | done =>
    obtain ⟨text, htext, -⟩ := h
    rw [hsent] at htext
    cases htext

end Task

/-! ## What all of them do -/

/-- Every message sent is in the channel or has been taken, and each goroutine is sound;
there is one for each RW server. -/
structure Posting.Sound (servers : List ChunkServer) (p : Posting) : Prop where
  books : p.toFanIn.Books PostTask.sent
  tasks : ∀ t ∈ p.tasks, t.Sound p.data p.fileId
  servers : p.tasks.map PostTask.server = rwServers servers

def Posting.weight (p : Posting) : Nat :=
  (p.tasks.map fun t => t.phase.weight).sum + (p.tasks.length - p.got.length)

section Posting
variable {servers : List ChunkServer} {p p' : Posting} {m : PostMove} {i : Nat} {t t' : PostTask}
  {data : List UInt8} {fileId : UInt64}

/-- A goroutine is replaced by one that came from it by a step. -/
theorem Posting.Sound.set (h : p.Sound servers) (ht : p.tasks[i]? = some t)
    (hserver : t'.server = t.server) (hsound : t'.Sound p.data p.fileId) :
    (∀ u ∈ p.tasks.set i t', u.Sound p.data p.fileId) ∧
      (p.tasks.set i t').map PostTask.server = rwServers servers := by
  refine ⟨fun u hu => ?_, ?_⟩
  · rcases List.mem_or_eq_of_mem_set hu with hu | rfl
    · exact h.tasks u hu
    · exact hsound
  · have hsame : (p.tasks.map PostTask.server)[i]? = some t'.server := by
      rw [List.getElem?_map, ht, hserver]
      rfl
    obtain ⟨hi, heq⟩ := List.getElem?_eq_some_iff.mp hsame
    rw [List.map_set, ← h.servers, ← heq, List.set_getElem_self]

theorem Posting.weight_set (ht : p.tasks[i]? = some t) (hlt : t'.phase.weight < t.phase.weight) :
    ((p.tasks.set i t').map fun t => t.phase.weight).sum +
        ((p.tasks.set i t').length - p.got.length) <
      p.weight := by
  rw [List.length_set]
  exact Nat.add_lt_add_right (sum_map_set_lt (fun t => t.phase.weight) ht hlt) _

/-- A step of a goroutine. -/
theorem Posting.Sound.taskStep (h : p.Sound servers) (hm : m.Worded)
    (hs : p.taskStep m i = some p') :
    p'.Sound servers ∧ p'.data = p.data ∧ p'.fileId = p.fileId ∧ p'.weight < p.weight ∧
      p'.got = p.got ∧ p'.tasks.length = p.tasks.length := by
  unfold Posting.taskStep at hs
  cases ht : p.tasks[i]? with
  | none =>
    rw [ht] at hs
    cases hs
  | some t =>
    simp only [ht] at hs
    have hsound := h.tasks t (List.mem_of_getElem? ht)
    cases hstep : t.step p.data p.fileId m with
    | none =>
      rw [hstep] at hs
      cases hs
    | some next =>
      obtain ⟨t', message⟩ := next
      have hsteps := PostTask.step_steps hm hstep
      obtain ⟨htasks, hservers⟩ := h.set ht hsteps.server (hsteps.sound hsound)
      have hsent := hsteps.sent hsound
      have hweight := Posting.weight_set ht hsteps.weight
      simp only [hstep] at hs
      cases message with
      | none =>
        cases hs
        exact ⟨⟨h.books.silent ht hsent, htasks, hservers⟩, rfl, rfl, hweight, rfl,
          List.length_set⟩
      | some text =>
        simp only at hs
        split at hs
        · cases hs
          exact ⟨⟨h.books.send ht hsent.1 hsent.2, htasks, hservers⟩, rfl, rfl, hweight, rfl,
            List.length_set⟩
        · cases hs

/-- One step: what it changes, and that it brings the end nearer. -/
theorem Posting.Sound.step (h : p.Sound servers) (hm : m.Worded) (hs : p.step m = some p') :
    p'.Sound servers ∧ p'.data = p.data ∧ p'.fileId = p.fileId ∧ p'.weight < p.weight ∧
      (p.got.length = p.tasks.length → p'.got = p.got ∧ p'.got.length = p'.tasks.length) := by
  unfold Posting.step at hs
  cases htask : m.task with
  | some i =>
    simp only [htask] at hs
    obtain ⟨hsound, hdata, hfid, hweight, hgot, hlen⟩ := h.taskStep hm hs
    exact ⟨hsound, hdata, hfid, hweight, fun hfull => ⟨hgot, by rw [hgot, hlen, hfull]⟩⟩
  | none =>
    simp only [htask] at hs
    cases hchan : p.chan with
    | nil =>
      simp only [hchan] at hs
      cases hs
    | cons message rest =>
      simp only [hchan] at hs
      split at hs
      · rename_i hlt
        cases hs
        refine ⟨⟨h.books.receive hchan, h.tasks, h.servers⟩, rfl, rfl, ?_, fun hfull => ?_⟩
        · refine Nat.add_lt_add_left ?_ _
          show p.tasks.length - (p.got ++ [message]).length < p.tasks.length - p.got.length
          rw [List.length_append, List.length_singleton]
          omega
        · exact absurd hfull (Nat.ne_of_lt hlt)
      · cases hs

/-- While messages are missing, somebody can go on. -/
theorem Posting.Sound.enabled (h : p.Sound servers) (hlt : p.got.length < p.tasks.length) :
    ∃ m p', m.Worded ∧ p.step m = some p' := by
  cases hchan : p.chan with
  | cons message rest =>
    refine ⟨.receive, { p with chan := rest, got := p.got ++ [message] }, trivial, ?_⟩
    simp only [Posting.step, PostMove.task, hchan]
    exact if_pos hlt
  | nil =>
    obtain ⟨i, t, ht, hnone⟩ := h.books.pending hchan hlt
    obtain ⟨m, htask, hm, t', message, hstep⟩ :=
      (h.tasks t (List.mem_of_getElem? ht)).enabled hnone i
    have hroom := h.books.room ht hnone
    refine ⟨m, ?_⟩
    unfold Posting.step Posting.taskStep
    simp only [htask, ht, hstep]
    cases message with
    | none => exact ⟨_, hm, rfl⟩
    | some text => exact ⟨_, hm, if_pos (by omega)⟩

/-- The messages are all empty exactly when every RW server has acknowledged. -/
theorem postResult_eq_none {got : List String} :
    postResult got = none ↔ ∀ message ∈ got, message = "" := by
  have hfold : ∀ (l : List String) (r : Option String),
      l.foldl (fun result message => if message.length ≠ 0 then some message else result) r = none ↔
        r = none ∧ ∀ message ∈ l, message = "" := by
    intro l
    induction l with
    | nil => exact fun r => ⟨fun h => ⟨h, nofun⟩, fun h => h.1⟩
    | cons message l ih =>
      intro r
      rw [List.foldl_cons, ih, List.forall_mem_cons, ← and_assoc]
      refine and_congr_left fun _ => ?_
      by_cases hempty : message = ""
      · rw [if_neg (by rw [hempty]; decide)]
        exact ⟨fun h => ⟨h, hempty⟩, fun h => h.1⟩
      · rw [if_pos (by simpa using hempty)]
        exact ⟨nofun, fun h => absurd h.2 hempty⟩
  unfold postResult
  rw [hfold]
  exact ⟨fun h => h.2, fun h => ⟨rfl, h⟩⟩

theorem PostTask.Sound.acked_iff {message : String} (h : t.Sound data fileId)
    (hsent : t.sent = some message) :
    message = "" ↔ t.acked = some (t.server.putRequest data fileId) := by
  have hstated : t.Says data fileId message := by
    obtain ⟨server, phase, acked, sent⟩ := t
    obtain rfl : sent = some message := hsent
    cases phase with
    | getPools | getConn | putData | close | send => cases h.1
    | rest | done =>
      obtain ⟨text, htext, hstated⟩ := h
      cases htext
      exact hstated
  unfold PostTask.Says at hstated
  rw [hstated]
  split
  · rename_i hempty
    exact iff_of_true hempty rfl
  · rename_i hne
    exact iff_of_false hne nofun

/-- With all the messages taken: success is that every RW server has acknowledged. -/
theorem Posting.Sound.result_iff (h : p.Sound servers) (hfull : p.got.length = p.tasks.length) :
    postResult p.got = none ↔ p.tasks.map (fun t => (t.server, t.acked)) =
      (rwServers servers).map fun cs => (cs, some (cs.putRequest p.data p.fileId)) := by
  obtain ⟨hall, hgot⟩ := h.books.collected hfull
  rw [postResult_eq_none, ← h.servers, List.map_map]
  constructor
  · intro hempty
    refine List.map_congr_left fun t ht => ?_
    obtain ⟨message, hmessage⟩ := hall t ht
    have hack := ((h.tasks t ht).acked_iff hmessage).mp
      (hempty message ((hgot message).mpr ⟨t, ht, hmessage⟩))
    exact congrArg (Prod.mk t.server) hack
  · intro hmap message hmem
    obtain ⟨t, ht, hmessage⟩ := (hgot message).mp hmem
    have hack := List.map_inj_left.mp hmap t ht
    exact ((h.tasks t ht).acked_iff hmessage).mpr (Prod.mk.inj hack).2

end Posting

/-! ## What the upload returns -/

section Upload
variable {call : UploadCall} {s s' : UploadState} {m : UploadMove}

/-- What holds of a call: nothing has been returned and the goroutines are at work, or the
call was refused before it started any, or it has returned what the messages say. -/
inductive UploadState.Follows (call : UploadCall) (s : UploadState) : Prop
  | refused (status : Nat) (hbegin : call.begin = .error status) (hstatus : s.status = some status)
      (hvalue : s.value = call.value)
  | posting (servers : List ChunkServer) (fileId : UInt64)
      (hbegin : call.begin = .ok (servers, fileId)) (hstatus : s.status = none)
      (hvalue : s.value = call.value)
  | failed (servers : List ChunkServer) (fileId : UInt64)
      (hbegin : call.begin = .ok (servers, fileId)) (hstatus : s.status = some 500)
      (hfull : s.posting.got.length = s.posting.tasks.length)
      (hresult : postResult s.posting.got ≠ none) (hvalue : s.value = call.value)
  | stored (servers : List ChunkServer) (fileId : UInt64)
      (hbegin : call.begin = .ok (servers, fileId)) (hstatus : s.status = some 200)
      (hfull : s.posting.got.length = s.posting.tasks.length)
      (hresult : postResult s.posting.got = none)
      (hvalue : s.value = { call.value with fileId := fileId, groupId := groupIdOf servers })

structure UploadState.Sound (call : UploadCall) (s : UploadState) : Prop where
  posting : s.posting.Sound s.servers
  data : s.posting.data = call.data
  begin : ∀ servers fileId, call.begin = .ok (servers, fileId) →
    s.servers = servers ∧ s.posting.fileId = fileId
  follows : s.Follows call

def UploadState.weight (s : UploadState) : Nat :=
  s.posting.weight + if s.status = none then 1 else 0

/-- What has been decided stays while the goroutines finish. -/
theorem UploadState.Follows.post {p : Posting} (h : s.Follows call)
    (hp : s.posting.got.length = s.posting.tasks.length →
      p.got = s.posting.got ∧ p.got.length = p.tasks.length) :
    ({ s with posting := p } : UploadState).Follows call := by
  cases h with
  | refused status hbegin hstatus hvalue => exact .refused status hbegin hstatus hvalue
  | posting servers fileId hbegin hstatus hvalue =>
    exact .posting servers fileId hbegin hstatus hvalue
  | failed servers fileId hbegin hstatus hfull hresult hvalue =>
    obtain ⟨hgot, hlen⟩ := hp hfull
    exact .failed servers fileId hbegin hstatus hlen (hgot ▸ hresult) hvalue
  | stored servers fileId hbegin hstatus hfull hresult hvalue =>
    obtain ⟨hgot, hlen⟩ := hp hfull
    exact .stored servers fileId hbegin hstatus hlen (hgot ▸ hresult) hvalue

theorem UploadState.Sound.step (h : s.Sound call) (hm : m.Worded) (hs : s.step m = some s') :
    s'.Sound call ∧ s'.weight < s.weight := by
  cases m with
  | post m =>
    obtain ⟨p, hstep, rfl⟩ := Option.map_eq_some_iff.mp hs
    obtain ⟨hsound, hdata, hfid, hweight, hfull⟩ := h.posting.step hm hstep
    refine ⟨⟨hsound, hdata.trans h.data, ?_, h.follows.post hfull⟩,
      Nat.add_lt_add_right hweight _⟩
    intro servers fileId hbegin
    obtain ⟨hservers, hfileId⟩ := h.begin servers fileId hbegin
    exact ⟨hservers, hfid.trans hfileId⟩
  | finish =>
    by_cases hcond : s.status = none ∧ s.posting.got.length = s.posting.tasks.length
    · have hfinish : (match postResult s.posting.got with
          | some _ => some { s with status := some 500 }
          | none => some { s with
              status := some 200
              value := { s.value with
                fileId := s.posting.fileId
                groupId := groupIdOf s.servers } }) = some s' := (if_pos hcond).symm.trans hs
      obtain ⟨hnone, hfull⟩ := hcond
      have hweight : ∀ status : Nat, s.posting.weight + (if some status = none then 1 else 0) <
          s.weight := by
        intro status
        unfold UploadState.weight
        rw [if_neg nofun, if_pos hnone]
        exact Nat.lt_succ_self _
      cases h.follows with
      | refused status hbegin hstatus hvalue => cases hnone.symm.trans hstatus
      | failed servers fileId hbegin hstatus => cases hnone.symm.trans hstatus
      | stored servers fileId hbegin hstatus => cases hnone.symm.trans hstatus
      | posting servers fileId hbegin hstatus hvalue =>
        obtain ⟨hservers, hfileId⟩ := h.begin servers fileId hbegin
        cases hresult : postResult s.posting.got with
        | some text =>
          rw [hresult] at hfinish
          cases hfinish
          exact ⟨⟨h.posting, h.data, h.begin, .failed servers fileId hbegin rfl hfull
            (by rw [hresult]; exact nofun) hvalue⟩, hweight 500⟩
        | none =>
          rw [hresult] at hfinish
          cases hfinish
          refine ⟨⟨h.posting, h.data, h.begin, .stored servers fileId hbegin rfl hfull hresult ?_⟩,
            hweight 200⟩
          show ({ s.value with fileId := s.posting.fileId, groupId := groupIdOf s.servers } :
            MetaInfoValue) = _
          rw [hvalue, hservers, hfileId]
    · cases (if_neg hcond).symm.trans hs

/-- Until it has returned the call can go on. -/
theorem UploadState.Sound.enabled (h : s.Sound call) (hnone : s.status = none) :
    ∃ m s', m.Worded ∧ s.step m = some s' := by
  rcases Nat.lt_or_eq_of_le h.posting.books.got_le with hlt | hfull
  · obtain ⟨m, p, hm, hstep⟩ := h.posting.enabled hlt
    exact ⟨.post m, { s with posting := p }, hm, by rw [UploadState.step, hstep]; rfl⟩
  · refine ⟨.finish, ?_⟩
    unfold UploadState.step
    rw [if_pos ⟨hnone, hfull⟩]
    cases postResult s.posting.got with
    | some text => exact ⟨_, trivial, rfl⟩
    | none => exact ⟨_, trivial, rfl⟩

theorem UploadCall.begin_eq_ok {servers : List ChunkServer} {fileId : UInt64} :
    call.begin = .ok (servers, fileId) ↔ call.selected = .ok servers ∧ call.fid = .ok fileId ∧
      (call.data.length : Int) = call.value.rangeSize := by
  unfold UploadCall.begin
  cases call.selected with
  | error err => exact ⟨nofun, nofun⟩
  | ok chunkServers =>
    cases call.fid with
    | error err => exact ⟨nofun, nofun⟩
    | ok fid =>
      simp only
      split
      · rename_i hne
        exact ⟨nofun, fun h => absurd h.2.2 hne⟩
      · rename_i heq
        rw [not_not] at heq
        constructor
        · intro h
          cases h
          exact ⟨rfl, rfl, heq⟩
        · rintro ⟨hsel, hfid, -⟩
          cases hsel
          cases hfid
          rfl

/-- A positive range is not changed by the conversion. -/
theorem MetaInfoValue.rangeSize_eq {v : MetaInfoValue} (h : 0 < v.rangeSize) :
    v.rangeSize = ((v.stop - v.start).toNat : Int) := by
  have hdef : v.rangeSize = if 2 * (v.stop - v.start).toNat < 2 ^ 64
      then ((v.stop - v.start).toNat : Int) else (v.stop - v.start).toNat - (2 ^ 64 : Nat) :=
    BitVec.toInt_eq_toNat_cond (v.stop - v.start).toBitVec
  have hlt := (v.stop - v.start).toNat_lt
  rw [hdef] at h ⊢
  split
  · rfl
  · rename_i hbig
    rw [if_neg hbig] at h
    omega

end Upload

/-- What has become of a call that has returned. -/
structure UploadReturned (call : UploadCall) (s : UploadState) (status : Nat) : Prop where
  /-- The status is that of success exactly when each RW server of the selected group has
  acknowledged the data under the fid. -/
  ok_iff : status = 200 ↔ ∃ servers fileId, call.selected = .ok servers ∧ call.fid = .ok fileId ∧
    (call.data.length : Int) = call.value.rangeSize ∧ s.Stored servers call.data fileId
  /-- Then there were enough of them, and the metadata say where the data are; the id of the
  group is kept in 16 bits. -/
  ok : status = 200 → ∃ servers fileId, call.selected = .ok servers ∧ call.fid = .ok fileId ∧
    call.limitNum ≤ (rwServers servers).length ∧
    s.value = { call.value with fileId := fileId, groupId := groupIdOf servers } ∧
    ∃ first ∈ servers.head?, 0 ≤ first.groupId → first.groupId < 65536 →
      ((groupIdOf servers).toNat : Int) = first.groupId
  unset : status ≠ 200 → s.value = call.value
  /-- The handler stores the metadata only after a success. -/
  handler : ∀ req, uploadFileReadParam req = some ⟨req.path, call.value⟩ →
    req.length = call.data.length → uploadFile req (s.outcome call) =
      if status = 200 then
        .ok (if req.version1 then storeMetaInfoV1 ⟨req.path, s.value⟩
          else storeMetaInfoV2 ⟨req.path, s.value⟩)
      else .error status

section Returned
variable {call : UploadCall} {s : UploadState} {status : Nat}

theorem uploadFile_eq {req : UploadRequest} {v : MetaInfoValue} (outcome : UploadOutcome)
    (hreq : uploadFileReadParam req = some ⟨req.path, v⟩) :
    uploadFile req outcome =
      match upload req.length v outcome with
      | .error status => .error status
      | .ok v => .ok (if req.version1 then storeMetaInfoV1 ⟨req.path, v⟩
          else storeMetaInfoV2 ⟨req.path, v⟩) := by
  unfold uploadFile
  rewrite [hreq]
  rfl

/-- A call that was refused. -/
theorem UploadCall.begin_error (h : call.begin = .error status) :
    status ≠ 200 ∧ upload call.data.length call.value (s.outcome call) = .error status := by
  unfold UploadCall.begin at h
  unfold UploadState.outcome
  cases hsel : call.selected with
  | error err =>
    rw [hsel] at h
    cases h
    exact ⟨by decide, rfl⟩
  | ok chunkServers =>
    simp only [hsel] at h
    cases hfid : call.fid with
    | error err =>
      rw [hfid] at h
      cases h
      exact ⟨by decide, rfl⟩
    | ok fid =>
      simp only [hfid] at h
      split at h
      · rename_i hne
        cases h
        rw [MetaInfoValue.rangeSize_eq (selectChunkServerGroupComplex_pos hsel)] at hne
        refine ⟨by decide, ?_⟩
        cases postResult s.posting.got <;> exact if_pos fun he => hne (congrArg Nat.cast he)
      · cases h

/-- The handler gets what the servers have answered to a call that was not. -/
theorem UploadCall.outcome_eq {servers : List ChunkServer} {fileId : UInt64}
    (h : call.begin = .ok (servers, fileId)) : s.outcome call =
      match postResult s.posting.got with
      | some _ => .postFailed
      | none => .posted s.posting.fileId (groupIdOf s.servers) := by
  obtain ⟨hsel, hfid, -⟩ := UploadCall.begin_eq_ok.mp h
  simp only [UploadState.outcome, hsel, hfid]

theorem groupIdOf_toNat {first : ChunkServer} {rest : List ChunkServer} (hlo : 0 ≤ first.groupId)
    (hhi : first.groupId < 65536) :
    ((groupIdOf (first :: rest)).toNat : Int) = first.groupId := by
  show ((UInt16.ofNat (first.groupId % 2 ^ 16).toNat).toNat : Int) = first.groupId
  rw [UInt16.toNat_ofNat']
  omega

/-- The length was compared before anything was started. -/
theorem UploadCall.length_eq {servers : List ChunkServer} {fileId : UInt64}
    (h : call.begin = .ok (servers, fileId)) :
    call.data.length = (call.value.stop - call.value.start).toNat := by
  obtain ⟨hsel, -, hlen⟩ := UploadCall.begin_eq_ok.mp h
  rw [MetaInfoValue.rangeSize_eq (selectChunkServerGroupComplex_pos hsel)] at hlen
  exact Int.ofNat.inj hlen

/-- Once the messages are there, success is what `Stored` says. -/
theorem UploadState.Sound.stored_iff (h : s.Sound call)
    (hfull : s.posting.got.length = s.posting.tasks.length) {servers : List ChunkServer}
    {fileId : UInt64} (hbegin : call.begin = .ok (servers, fileId)) :
    postResult s.posting.got = none ↔ ∃ servers fileId, call.selected = .ok servers ∧
      call.fid = .ok fileId ∧ (call.data.length : Int) = call.value.rangeSize ∧
      s.Stored servers call.data fileId := by
  obtain ⟨hservers, hfid⟩ := h.begin servers fileId hbegin
  rw [h.posting.result_iff hfull, hservers, hfid, h.data]
  constructor
  · intro hstored
    obtain ⟨hsel, hfileId, hlen⟩ := UploadCall.begin_eq_ok.mp hbegin
    exact ⟨servers, fileId, hsel, hfileId, hlen, hstored⟩
  · rintro ⟨servers', fileId', hsel, hfileId, hlen, hstored⟩
    cases hbegin.symm.trans (UploadCall.begin_eq_ok.mpr ⟨hsel, hfileId, hlen⟩)
    exact hstored

theorem UploadState.Sound.returned (h : s.Sound call) (hstatus : s.status = some status) :
    UploadReturned call s status := by
  cases h.follows with
  | posting servers fileId hbegin hnone => cases hnone.symm.trans hstatus
  | refused status' hbegin hst hvalue =>
    cases hst.symm.trans hstatus
    obtain ⟨hne, houtcome⟩ := UploadCall.begin_error (s := s) hbegin
    refine ⟨iff_of_false hne ?_, fun he => absurd he hne, fun _ => hvalue, ?_⟩
    · rintro ⟨servers, fileId, hsel, hfid, hlen, -⟩
      cases hbegin.symm.trans (UploadCall.begin_eq_ok.mpr ⟨hsel, hfid, hlen⟩)
    · intro req hreq hlen
      rw [uploadFile_eq _ hreq, hlen, houtcome, if_neg hne]
  | failed servers fileId hbegin hst hfull hresult hvalue =>
    cases hst.symm.trans hstatus
    have hne : 500 ≠ 200 := by decide
    refine ⟨iff_of_false hne ?_, fun he => absurd he hne, fun _ => hvalue, ?_⟩
    · rw [← h.stored_iff hfull hbegin]
      exact hresult
    · intro req hreq hlen
      have hupload : upload call.data.length call.value .postFailed = .error 500 :=
        if_neg (not_not.mpr (UploadCall.length_eq hbegin))
      obtain ⟨err, herr⟩ := Option.ne_none_iff_exists'.mp hresult
      rw [UploadCall.outcome_eq hbegin, herr, uploadFile_eq _ hreq, hlen, hupload, if_neg hne]
  | stored servers fileId hbegin hst hfull hresult hvalue =>
    cases hst.symm.trans hstatus
    obtain ⟨hsel, hfid, -⟩ := UploadCall.begin_eq_ok.mp hbegin
    obtain ⟨-, ⟨first, rest, rfl, -⟩, -, henough, -⟩ := selectChunkServerGroupComplex_eligible hsel
    refine ⟨iff_of_true rfl ((h.stored_iff hfull hbegin).mp hresult), fun _ => ?_,
      fun hne => absurd rfl hne, ?_⟩
    · exact ⟨_, fileId, hsel, hfid, henough, hvalue, first, rfl, groupIdOf_toNat⟩
    · intro req hreq hlen
      have hupload :
          upload call.data.length call.value (.posted fileId (groupIdOf (first :: rest))) =
          .ok { call.value with fileId := fileId, groupId := groupIdOf (first :: rest) } :=
        if_neg (not_not.mpr (UploadCall.length_eq hbegin))
      obtain ⟨hservers, hfileId⟩ := h.begin _ _ hbegin
      rw [UploadCall.outcome_eq hbegin, hresult, hservers, hfileId, uploadFile_eq _ hreq, hlen,
        hupload, if_pos rfl, hvalue]

end Returned

end Speedy.Imageserver
