import Speedy.Imageserver.GroupSelection
import Speedy.Lib.Run
import Speedy.Lib.Tally

/-! # The connection pools of an imageserver

`downloadFile` and `postFileConcurrence` take a connection from the pool of a
chunkserver, exchange one request and give the connection back; after an `EOF`
they call `CheckConnPool`, which takes connections until one answers a ping. Any
number of them run at once; one step here is one call on a pool or on a
connection. -/
namespace Speedy.Imageserver
open Speedy.Lib

/-! ## Pools -/

/-- `ResourcePool`. Its channel holds wrappers, `none` being one without a resource,
and its size is the capacity. -/
structure ResourcePool where
  capacity : Nat
  resources : List (Option Nat)
  deriving DecidableEq, Repr

def newResourcePool (capacity : Nat) : ResourcePool := ⟨capacity, List.replicate capacity none⟩

/-- What a `get` meets: whether the resource was idle for too long, and the error of
the factory, if it makes a new one. -/
structure GetEnv where
  expired : Bool
  dialErr : Option String
  deriving DecidableEq, Repr

/-- `get(true)`, `fresh` being the connection that the factory would make; `none` is
to wait. -/
def ResourcePool.get (p : ResourcePool) (fresh : Nat) (env : GetEnv) :
    Option (Except String Nat × ResourcePool) :=
  match p.resources with
  | [] => none
  | wrapper :: rest =>
    match if env.expired then none else wrapper with
    | some conn => some (.ok conn, { p with resources := rest })
    | none =>
      match env.dialErr with
      | none => some (.ok fresh, { p with resources := rest })
      | some err => some (.error err, { p with resources := rest ++ [none] })

/-- `none` is the panic of a pool that is full. -/
def ResourcePool.put (p : ResourcePool) (resource : Option Nat) : Option ResourcePool :=
  if p.resources.length < p.capacity then
    some { p with resources := p.resources ++ [resource] }
  else none

/-- The key of a server's pool. -/
def ChunkServer.poolKey (cs : ChunkServer) : String := cs.ip ++ ":" ++ toString cs.port

/-! ## Exchanges -/

inductive ExchangeKind where
  | getData
  | putData
  deriving DecidableEq, Repr

/-- How an exchange ends: with success, an error code in the header, an error of the
write or of the read of the header, or one of the read of the body. -/
inductive ExchangeResult where
  | success
  | code (code : UInt8)
  | ioError (err : String)
  | bodyError (err : String)
  deriving DecidableEq, Repr

/-- The error that `GetData` or `PutData` returns; `PutData` reads no body. -/
def ExchangeKind.error : ExchangeKind → ExchangeResult → Option String
  | _, .success => none
  | .getData, .code code =>
    some ("download file failed, code = " ++ toString code.toNat ++ "\n")
  | .putData, .code code => some ("upload error, code: " ++ toString code.toNat)
  | _, .ioError err => some err
  | .getData, .bodyError err => some ("read socket error " ++ err)
  | .putData, .bodyError _ => none

/-! ## Operations -/

/-- Where an operation stands, with the connection it has. -/
inductive PoolPhase where
  | getConn
  /-- `GetData` or `PutData` -/
  | exchange (conn : Nat)
  /-- before `ReleaseConn`; the connection has been closed if there was an error -/
  | release (conn : Nat) (err : Option String)
  /-- the head of the loop of `CheckConnPool` -/
  | check
  | ping (conn : Nat)
  /-- before `ReleaseConn`, after a failed ping and `Close` -/
  | discard (conn : Nat)
  | done
  deriving DecidableEq, Repr

structure PoolTask where
  kind : ExchangeKind
  server : ChunkServer
  phase : PoolPhase
  deriving DecidableEq, Repr

def downloadFile (server : ChunkServer) : PoolTask := ⟨.getData, server, .getConn⟩

def postFileConcurrence (server : ChunkServer) : PoolTask := ⟨.putData, server, .getConn⟩

/-- The connection an operation has, under the key of its pool. -/
def PoolTask.held (t : PoolTask) : List (String × Nat) :=
  match t.phase with
  | .exchange conn => [(t.server.poolKey, conn)]
  | .release conn _ => [(t.server.poolKey, conn)]
  | .ping conn => [(t.server.poolKey, conn)]
  | .discard conn => [(t.server.poolKey, conn)]
  | .getConn => []
  | .check => []
  | .done => []

/-- The pools and the operations. The last three fields record what was taken from a
pool, what was given back to it, and the connections on which a ping of
`CheckConnPool` succeeded. -/
structure PoolSystem where
  pools : String → Option ResourcePool
  tasks : List PoolTask
  nextConn : Nat
  obtained : List (String × Nat)
  returned : List (String × Nat)
  pinged : List (String × Nat)

/-- Why a step is not taken: the pool is empty, it does not apply, or it panics. -/
inductive PoolFault where
  | waits
  | disabled
  | panic
  deriving DecidableEq, Repr

def PoolSystem.setPool (s : PoolSystem) (key : String) (p : ResourcePool) : PoolSystem :=
  { s with pools := fun k => if k = key then some p else s.pools k }

def PoolSystem.setPhase (s : PoolSystem) (i : Nat) (t : PoolTask) (phase : PoolPhase) :
    PoolSystem :=
  { s with tasks := s.tasks.set i { t with phase := phase } }

/-- `GetConn` -/
def PoolSystem.getConn (s : PoolSystem) (key : String) (env : GetEnv) :
    Except PoolFault (Except String Nat × PoolSystem) :=
  match s.pools key with
  | none => .ok (.error ("pool " ++ key ++ " not exist"), s)
  | some p =>
    match p.get s.nextConn env with
    | none => .error .waits
    | some (.error err, p') => .ok (.error err, s.setPool key p')
    | some (.ok conn, p') =>
      .ok (.ok conn, { s.setPool key p' with
        nextConn := s.nextConn + 1
        obtained := (key, conn) :: s.obtained })

/-- `ReleaseConn`, which is `Recycle` -/
def PoolSystem.releaseConn (s : PoolSystem) (key : String) (conn : Nat) (closed : Bool) :
    Except PoolFault PoolSystem :=
  match s.pools key with
  | none => .error .panic
  | some p =>
    match p.put (if closed then none else some conn) with
    | none => .error .panic
    | some p' => .ok { s.setPool key p' with returned := (key, conn) :: s.returned }

/-- `checkErrorAndConnPool` -/
def afterRelease (err : Option String) : PoolPhase :=
  if err = some "EOF" then .check else .done

inductive PoolMove where
  | start (kind : ExchangeKind) (server : ChunkServer)
  | getConn (i : Nat) (env : GetEnv)
  | exchanged (i : Nat) (result : ExchangeResult)
  | pinged (i : Nat) (err : Option String)
  | releaseConn (i : Nat)
  deriving DecidableEq, Repr

/-- A step of the `i`-th operation, which is `t`. -/
def PoolSystem.taskStep (s : PoolSystem) (i : Nat) (t : PoolTask) :
    PoolMove → Except PoolFault PoolSystem
  | .getConn _ env =>
    let key := t.server.poolKey
    match t.phase with
    | .getConn =>
      match s.getConn key env with
      | .error fault => .error fault
      | .ok (.error _, s') => .ok (s'.setPhase i t .done)
      | .ok (.ok conn, s') => .ok (s'.setPhase i t (.exchange conn))
    | .check =>
      match s.getConn key env with
      | .error fault => .error fault
      | .ok (.error _, s') => .ok (s'.setPhase i t .done)
      | .ok (.ok conn, s') => .ok (s'.setPhase i t (.ping conn))
    | _ => .error .disabled
  | .exchanged _ result =>
    match t.phase with
    | .exchange conn => .ok (s.setPhase i t (.release conn (t.kind.error result)))
    | _ => .error .disabled
  | .pinged _ err =>
    match t.phase, err with
    | .ping conn, some _ => .ok (s.setPhase i t (.discard conn))
    -- the connection is not given back
    | .ping conn, none =>
      .ok { s.setPhase i t .done with pinged := (t.server.poolKey, conn) :: s.pinged }
    | _, _ => .error .disabled
  | .releaseConn _ =>
    match t.phase with
    | .release conn err =>
      match s.releaseConn t.server.poolKey conn err.isSome with
      | .error fault => .error fault
      | .ok s' => .ok (s'.setPhase i t (afterRelease err))
    | .discard conn =>
      match s.releaseConn t.server.poolKey conn true with
      | .error fault => .error fault
      | .ok s' => .ok (s'.setPhase i t .check)
    | _ => .error .disabled
  | .start _ _ => .error .disabled

/-- The operation a step is one of. -/
def PoolMove.task : PoolMove → Option Nat
  | .start _ _ => none
  | .getConn i _ => some i
  | .exchanged i _ => some i
  | .pinged i _ => some i
  | .releaseConn i => some i

def PoolSystem.step (s : PoolSystem) (m : PoolMove) : Except PoolFault PoolSystem :=
  match m with
  | .start .getData server => .ok { s with tasks := s.tasks ++ [downloadFile server] }
  | .start .putData server => .ok { s with tasks := s.tasks ++ [postFileConcurrence server] }
  | m =>
    match m.task with
    | none => .error .disabled
    | some i =>
      match s.tasks[i]? with
      | none => .error .disabled
      | some t => s.taskStep i t m

/-- New pools, and nothing has been done. -/
def PoolSystem.Fresh (s : PoolSystem) : Prop :=
  s.tasks = [] ∧ s.obtained = [] ∧ s.returned = [] ∧ s.pinged = [] ∧
    ∀ key p, s.pools key = some p → ∃ capacity, p = newResourcePool capacity

abbrev PoolRun : PoolSystem → Prop :=
  Reach PoolSystem.Fresh fun s (m : PoolMove) s' => s.step m = .ok s'

/-- No operation is in progress. -/
def PoolSystem.Idle (s : PoolSystem) : Prop := ∀ t ∈ s.tasks, t.phase = .done

/-! ## The books of the pools -/

/-- What was taken from the pools was given back or is out, and a pool lacks a
resource for each of its connections that is out. -/
structure PoolBooks (pools : String → Option ResourcePool)
    (obtained returned out : List (String × Nat)) : Prop where
  books : obtained.Perm (returned ++ out)
  slots : ∀ key p, pools key = some p →
    p.resources.length + out.countP (fun x => x.1 == key) = p.capacity
  opened : ∀ x ∈ out, ∃ p, pools x.1 = some p

section Books
variable {pools : String → Option ResourcePool} {obtained returned out out' : List (String × Nat)}
  {key : String} {p p' : ResourcePool} {conn fresh : Nat} {env : GetEnv}

theorem PoolBooks.perm (h : PoolBooks pools obtained returned out) (hp : out.Perm out') :
    PoolBooks pools obtained returned out' := by
  refine ⟨h.books.trans (hp.append_left _), ?_, fun x hx => h.opened x (hp.mem_iff.mpr hx)⟩
  intro key p hpool
  rw [← hp.countP_eq]
  exact h.slots key p hpool

theorem ResourcePool.get_ok (h : p.get fresh env = some (.ok conn, p')) :
    p.resources.length = p'.resources.length + 1 ∧ p'.capacity = p.capacity := by
  unfold ResourcePool.get at h
  split at h
  · cases h
  rename_i wrapper rest hr
  rw [hr]
  split at h
  · cases h
    exact ⟨rfl, rfl⟩
  · split at h
    · cases h
      exact ⟨rfl, rfl⟩
    · cases h

/-- When the factory fails the wrapper goes back into the channel. -/
theorem ResourcePool.get_error {err : String} (h : p.get fresh env = some (.error err, p')) :
    p'.resources.length = p.resources.length ∧ p'.capacity = p.capacity := by
  unfold ResourcePool.get at h
  split at h
  · cases h
  rename_i wrapper rest hr
  rw [hr]
  split at h
  · cases h
  · split at h
    · cases h
    · cases h
      exact ⟨by simp, rfl⟩

/-- The pool of `key` is changed, and so is what is out of it. -/
theorem PoolBooks.change (h : PoolBooks pools obtained returned out)
    {obtained' returned' : List (String × Nat)} (hbooks : obtained'.Perm (returned' ++ out'))
    (hother : ∀ k, k ≠ key → out'.countP (fun x => x.1 == k) = out.countP fun x => x.1 == k)
    (hslots : p'.resources.length + out'.countP (fun x => x.1 == key) = p'.capacity)
    (hmem : ∀ x ∈ out', x ∈ out ∨ x.1 = key) :
    PoolBooks (fun k => if k = key then some p' else pools k) obtained' returned' out' := by
  refine ⟨hbooks, ?_, ?_⟩
  · intro k q hq
    by_cases hk : k = key
    · rw [if_pos hk] at hq
      obtain rfl := Option.some.inj hq
      rw [hk]
      exact hslots
    · rw [if_neg hk] at hq
      rw [hother k hk]
      exact h.slots k q hq
  · intro x hx
    by_cases hk : x.1 = key
    · exact ⟨p', if_pos hk⟩
    · rw [if_neg hk]
      exact h.opened x ((hmem x hx).resolve_right hk)

theorem countP_cons_other {k : String} (hk : k ≠ key) :
    ((key, conn) :: out).countP (fun x => x.1 == k) = out.countP fun x => x.1 == k :=
  List.countP_cons_of_neg (by simpa using fun h => hk h.symm)

theorem countP_cons_self :
    ((key, conn) :: out).countP (fun x => x.1 == key) = (out.countP fun x => x.1 == key) + 1 :=
  List.countP_cons_of_pos (by simp)

theorem PoolBooks.get (h : PoolBooks pools obtained returned out) (hpool : pools key = some p)
    (hget : p.get fresh env = some (.ok conn, p')) :
    PoolBooks (fun k => if k = key then some p' else pools k) ((key, conn) :: obtained) returned
      ((key, conn) :: out) := by
  obtain ⟨hlen, hcap⟩ := ResourcePool.get_ok hget
  refine h.change ((h.books.cons _).trans List.perm_middle.symm)
    (fun k hk => countP_cons_other hk) ?_ ?_
  · have := h.slots key p hpool
    rw [countP_cons_self, hcap]
    omega
  · intro x hx
    rcases List.mem_cons.mp hx with rfl | hx
    · exact .inr rfl
    · exact .inl hx

theorem PoolBooks.get_error {err : String} (h : PoolBooks pools obtained returned out)
    (hpool : pools key = some p) (hget : p.get fresh env = some (.error err, p')) :
    PoolBooks (fun k => if k = key then some p' else pools k) obtained returned out := by
  obtain ⟨hlen, hcap⟩ := ResourcePool.get_error hget
  refine h.change h.books (fun _ _ => rfl) ?_ fun x hx => .inl hx
  rw [hlen, hcap]
  exact h.slots key p hpool

/-- A connection that is out can be given back. -/
theorem PoolBooks.put (h : PoolBooks pools obtained returned ((key, conn) :: out))
    (hpool : pools key = some p) (resource : Option Nat) :
    ∃ p', p.put resource = some p' ∧
      PoolBooks (fun k => if k = key then some p' else pools k) obtained
        ((key, conn) :: returned) out := by
  have hslots := h.slots key p hpool
  rw [countP_cons_self] at hslots
  refine ⟨_, if_pos (by omega), h.change (h.books.trans List.perm_middle)
    (fun k hk => (countP_cons_other hk).symm) ?_ fun x hx => .inl (List.mem_cons_of_mem _ hx)⟩
  show (p.resources ++ [resource]).length + _ = p.capacity
  rw [List.length_append, List.length_singleton]
  omega

end Books

/-! ## Steps and runs -/

def PoolSystem.held (s : PoolSystem) : List (String × Nat) := s.tasks.flatMap PoolTask.held

/-- The books balance when an operation has the connections of `hand` besides. -/
def PoolSystem.Balanced (s : PoolSystem) (hand : List (String × Nat)) : Prop :=
  PoolBooks s.pools s.obtained s.returned (hand ++ (s.held ++ s.pinged))

section Steps
variable {s s' : PoolSystem} {hand : List (String × Nat)} {key : String} {conn i : Nat}
  {t : PoolTask} {env : GetEnv}

theorem PoolSystem.Balanced.getConn_ok (h : s.Balanced hand)
    (hs : s.getConn key env = .ok (.ok conn, s')) :
    s'.Balanced ((key, conn) :: hand) ∧ s'.tasks = s.tasks := by
  unfold PoolSystem.getConn at hs
  split at hs
  · cases hs
  rename_i p hpool
  split at hs
  · cases hs
  · cases hs
  · rename_i conn' p' hget
    cases hs
    exact ⟨PoolBooks.get h hpool hget, rfl⟩

theorem PoolSystem.Balanced.getConn_error {err : String} (h : s.Balanced hand)
    (hs : s.getConn key env = .ok (.error err, s')) : s'.Balanced hand ∧ s'.tasks = s.tasks := by
  unfold PoolSystem.getConn at hs
  split at hs
  · cases hs
    exact ⟨h, rfl⟩
  rename_i p hpool
  split at hs
  · cases hs
  · rename_i err' p' hget
    cases hs
    exact ⟨PoolBooks.get_error h hpool hget, rfl⟩
  · cases hs

/-- The operation moves on: what it held and had in hand is what it holds and has
in hand now. -/
theorem PoolSystem.Balanced.setPhase (h : s.Balanced hand) (ht : s.tasks[i]? = some t)
    {phase : PoolPhase} {hand' : List (String × Nat)}
    (hsame : hand ++ t.held = hand' ++ PoolTask.held { t with phase := phase }) :
    (s.setPhase i t phase).Balanced hand' := by
  refine PoolBooks.perm h (List.perm_iff_count.mpr fun x => ?_)
  have hset := (flatMap_set_perm PoolTask.held { t with phase := phase } ht).count_eq x
  have hcount := congrArg (List.count x) hsame
  simp only [PoolSystem.held, PoolSystem.setPhase, List.count_append] at hset hcount ⊢
  omega

/-- Giving back the connection that an operation holds. -/
theorem PoolSystem.Balanced.releaseConn (h : s.Balanced []) (ht : s.tasks[i]? = some t)
    (hheld : t.held = [(key, conn)]) {phase : PoolPhase}
    (hphase : PoolTask.held { t with phase := phase } = []) (closed : Bool) :
    ∃ s', s.releaseConn key conn closed = .ok s' ∧ (s'.setPhase i t phase).Balanced [] := by
  have hhand : (s.setPhase i t phase).Balanced [(key, conn)] :=
    h.setPhase ht (by rw [hheld, hphase]; rfl)
  obtain ⟨p, hpool⟩ := PoolBooks.opened hhand (key, conn) List.mem_cons_self
  obtain ⟨p', hput, hbooks⟩ := PoolBooks.put hhand hpool (if closed then none else some conn)
  have hpool' : s.pools key = some p := hpool
  refine ⟨{ s.setPool key p' with returned := (key, conn) :: s.returned }, ?_, hbooks⟩
  simp only [PoolSystem.releaseConn, hpool', hput]

/-- A step leaves balanced books, and it does not panic. -/
def Fine : Except PoolFault PoolSystem → Prop
  | .ok s' => s'.Balanced []
  | .error fault => fault ≠ .panic

theorem PoolSystem.getConn_ne_panic : s.getConn key env ≠ .error .panic := by
  unfold PoolSystem.getConn
  split
  · exact nofun
  · split <;> exact nofun

/-- `GetConn` from a phase without a connection, to one with the new connection or
to the end. -/
theorem PoolSystem.Balanced.take (h : s.Balanced []) (ht : s.tasks[i]? = some t)
    (hheld : t.held = []) {next : Nat → PoolPhase}
    (hnext : ∀ conn, PoolTask.held { t with phase := next conn } = [(t.server.poolKey, conn)]) :
    Fine (match s.getConn t.server.poolKey env with
      | .error fault => .error fault
      | .ok (.error _, s') => .ok (s'.setPhase i t .done)
      | .ok (.ok conn, s') => .ok (s'.setPhase i t (next conn))) := by
  split
  · rename_i fault hs
    rintro rfl
    exact PoolSystem.getConn_ne_panic hs
  · rename_i err s' hs
    obtain ⟨hb, htasks⟩ := h.getConn_error hs
    exact hb.setPhase (by rw [htasks]; exact ht) (by rw [hheld]; rfl)
  · rename_i conn s' hs
    obtain ⟨hb, htasks⟩ := h.getConn_ok hs
    exact hb.setPhase (by rw [htasks]; exact ht) (by rw [hheld, hnext]; rfl)

theorem PoolSystem.Balanced.taskStep (h : s.Balanced []) (ht : s.tasks[i]? = some t)
    (m : PoolMove) : Fine (s.taskStep i t m) := by
  obtain ⟨kind, server, phase⟩ := t
  cases m with
  | start kind server => exact nofun
  | getConn j env =>
    cases phase with
    | getConn => exact h.take ht rfl fun _ => rfl
    | check => exact h.take ht rfl fun _ => rfl
    | _ => exact nofun
  | exchanged j result =>
    cases phase with
    | exchange conn => exact h.setPhase ht rfl
    | _ => exact nofun
  | pinged j err =>
    cases phase with
    | ping conn =>
      cases err with
      | some err => exact h.setPhase ht rfl
      | none =>
        -- the connection leaves the hands of the operation and joins the pinged ones
        have hhand : (s.setPhase i ⟨kind, server, .ping conn⟩ .done).Balanced
            [(server.poolKey, conn)] := h.setPhase ht rfl
        have hmove : ((server.poolKey, conn) ::
            ((s.setPhase i ⟨kind, server, .ping conn⟩ .done).held ++ s.pinged)).Perm
            ((s.setPhase i ⟨kind, server, .ping conn⟩ .done).held ++
              (server.poolKey, conn) :: s.pinged) := List.perm_middle.symm
        exact PoolBooks.perm hhand hmove
    | _ => exact nofun
  | releaseConn j =>
    cases phase with
    | release conn err =>
      have hend : PoolTask.held ⟨kind, server, afterRelease err⟩ = [] := by
        unfold afterRelease
        split <;> rfl
      obtain ⟨s', hs, hb⟩ := h.releaseConn ht rfl hend err.isSome
      simp only [PoolSystem.taskStep, hs]
      exact hb
    | discard conn =>
      have hend : PoolTask.held ⟨kind, server, .check⟩ = [] := rfl
      obtain ⟨s', hs, hb⟩ := h.releaseConn ht rfl hend true
      simp only [PoolSystem.taskStep, hs]
      exact hb
    | _ => exact nofun

theorem PoolSystem.Balanced.start (h : s.Balanced []) (hnew : t.held = []) :
    PoolSystem.Balanced { s with tasks := s.tasks ++ [t] } [] := by
  refine PoolBooks.perm h (List.Perm.of_eq ?_)
  simp only [PoolSystem.held, List.flatMap_append, List.flatMap_singleton, hnew, List.append_nil]

theorem PoolSystem.Balanced.step (h : s.Balanced []) (m : PoolMove) : Fine (s.step m) := by
  have htask : ∀ m : PoolMove, Fine (match m.task with
      | none => .error .disabled
      | some i =>
        match s.tasks[i]? with
        | none => .error .disabled
        | some t => s.taskStep i t m) := by
    intro m
    split
    · exact nofun
    · split
      · exact nofun
      · rename_i t ht
        exact h.taskStep ht m
  cases m with
  | start kind server =>
    cases kind with
    | getData => exact h.start rfl
    | putData => exact h.start rfl
  | getConn i env => exact htask (.getConn i env)
  | exchanged i result => exact htask (.exchanged i result)
  | pinged i err => exact htask (.pinged i err)
  | releaseConn i => exact htask (.releaseConn i)

theorem PoolRun.balanced (h : PoolRun s) : s.Balanced [] := by
  refine Reach.invariant (I := fun s => PoolSystem.Balanced s []) ?_ ?_ h
  · rintro s ⟨htasks, hob, hre, hpi, hpools⟩
    have hout : s.held ++ s.pinged = [] := by rw [PoolSystem.held, htasks, hpi]; rfl
    unfold PoolSystem.Balanced
    rw [hout, hob, hre]
    refine ⟨.rfl, ?_, nofun⟩
    intro key p hp
    obtain ⟨capacity, rfl⟩ := hpools key p hp
    simp [newResourcePool]
  · intro s m s' _ hb hs
    have hfine := hb.step m
    rw [hs] at hfine
    exact hfine

/-- No `Put` meets a full pool. -/
theorem PoolRun.ne_panic (h : PoolRun s) (m : PoolMove) : s.step m ≠ .error .panic := by
  intro hs
  have hfine := h.balanced.step m
  rw [hs] at hfine
  exact hfine rfl

theorem PoolSystem.Idle.held_eq (h : s.Idle) : s.held = [] := by
  unfold PoolSystem.held
  rw [List.flatMap_eq_nil_iff]
  intro t ht
  simp only [PoolTask.held, h t ht]

/-- When no operation is in progress, everything taken from the pools has been given
back once and the pools are full again, exactly if no ping of `CheckConnPool` has
succeeded. -/
theorem pools_are_full_iff (h : PoolRun s) (hidle : s.Idle) :
    (s.returned.Perm s.obtained ∧
      ∀ key p, s.pools key = some p → p.resources.length = p.capacity) ↔ s.pinged = [] := by
  have hb : PoolBooks s.pools s.obtained s.returned s.pinged := by
    have hb := h.balanced
    unfold PoolSystem.Balanced at hb
    rwa [hidle.held_eq] at hb
  constructor
  · rintro ⟨hperm, _⟩
    have hlen := (hperm.trans hb.books).length_eq
    rw [List.length_append] at hlen
    exact List.length_eq_zero_iff.mp (by omega)
  · intro hnone
    refine ⟨?_, ?_⟩
    · have hbooks := hb.books
      rw [hnone, List.append_nil] at hbooks
      exact hbooks.symm
    · intro key p hp
      have hslots := hb.slots key p hp
      rw [hnone] at hslots
      exact hslots

end Steps

/-! ## A ping that succeeds -/

def poolServer : ChunkServer := ⟨7, "10.0.0.1", 8000, 1, 0, 1000, 0, 0⟩

/-- One server, with a pool of one connection. -/
def onePool : PoolSystem where
  pools := fun key => if key = poolServer.poolKey then some (newResourcePool 1) else none
  tasks := []
  nextConn := 0
  obtained := []
  returned := []
  pinged := []

theorem onePool_fresh : onePool.Fresh := by
  refine ⟨rfl, rfl, rfl, rfl, ?_⟩
  intro key p hp
  simp only [onePool] at hp
  split at hp
  · exact ⟨1, (Option.some.inj hp).symm⟩
  · cases hp

/-- What is to be seen of the one pool. -/
def PoolSystem.summary (s : PoolSystem) :
    List PoolPhase × List (String × Nat) × Option ResourcePool × Nat × Nat :=
  (s.tasks.map PoolTask.phase, s.pinged, s.pools poolServer.poolKey, s.obtained.length,
    s.returned.length)

theorem onePool_play {moves : List PoolMove} {r : List PoolPhase × List (String × Nat) ×
      Option ResourcePool × Nat × Nat}
    (h : (play (fun s m => (PoolSystem.step s m).toOption) moves onePool).map
      PoolSystem.summary = some r) : ∃ s, PoolRun s ∧ s.summary = r := by
  obtain ⟨s, hs, hr⟩ := Option.map_eq_some_iff.mp h
  refine ⟨s, Reach.play ?_ moves (.init onePool_fresh) hs, hr⟩
  intro s m s' hstep
  cases hm : s.step m with
  | error fault => rw [hm] at hstep; cases hstep
  | ok t =>
    rw [hm] at hstep
    exact congrArg Except.ok (Option.some.inj hstep)

theorem idle_of_phases {s : PoolSystem} {phases : List PoolPhase}
    (h : s.tasks.map PoolTask.phase = phases) (hdone : ∀ phase ∈ phases, phase = .done) :
    s.Idle := by
  intro t ht
  exact hdone _ (h ▸ List.mem_map.mpr ⟨t, ht, rfl⟩)

/-- An upload meets an `EOF`, the ping fails as well, and the server is gone. -/
def goneMoves : List PoolMove :=
  [.start .putData poolServer, .getConn 0 ⟨false, none⟩, .exchanged 0 (.ioError "EOF"),
    .releaseConn 0, .getConn 0 ⟨false, none⟩, .pinged 0 (some "EOF"), .releaseConn 0,
    .getConn 0 ⟨false, some "connection refused"⟩]

theorem pools_are_full_gone :
    ∃ s, PoolRun s ∧ s.Idle ∧ s.obtained.length = 2 ∧ s.returned.Perm s.obtained ∧
      ∀ key p, s.pools key = some p → p.resources.length = p.capacity := by
  have hplay : (play (fun s m => (PoolSystem.step s m).toOption) goneMoves onePool).map
      PoolSystem.summary = some ([.done], [], some ⟨1, [none]⟩, 2, 2) := by decide +kernel
  obtain ⟨s, hrun, hsum⟩ := onePool_play hplay
  simp only [PoolSystem.summary, Prod.mk.injEq] at hsum
  obtain ⟨hphases, hpinged, _, hob, _⟩ := hsum
  have hidle : s.Idle := idle_of_phases hphases (by simp)
  exact ⟨s, hrun, hidle, hob, (pools_are_full_iff hrun hidle).mpr hpinged⟩

/-- A download meets an `EOF`, and the server answers the ping. -/
def leakMoves : List PoolMove :=
  [.start .getData poolServer, .getConn 0 ⟨false, none⟩, .exchanged 0 (.ioError "EOF"),
    .releaseConn 0, .getConn 0 ⟨false, none⟩, .pinged 0 none]

/-- The connection that answered is not given back: the pool stays empty for good. -/
theorem ping_leaks_connection :
    ∃ s, PoolRun s ∧ s.Idle ∧ s.obtained.length = 2 ∧ s.returned.length = 1 ∧
      s.pools poolServer.poolKey = some ⟨1, []⟩ := by
  have hplay : (play (fun s m => (PoolSystem.step s m).toOption) leakMoves onePool).map
      PoolSystem.summary = some ([.done], [("10.0.0.1:8000", 1)], some ⟨1, []⟩, 2, 1) := by
    decide +kernel
  obtain ⟨s, hrun, hsum⟩ := onePool_play hplay
  simp only [PoolSystem.summary, Prod.mk.injEq] at hsum
  obtain ⟨hphases, _, hpool, hob, hre⟩ := hsum
  exact ⟨s, hrun, idle_of_phases hphases (by simp), hob, hre, hpool⟩

end Speedy.Imageserver
