import JuiceMount.Lib.Transition
import JuiceMount.RespProxy.Leases

/-! The Mac's lease client against the proxy's lease of one project. A round trip is three steps: the
request is sent, the proxy executes it, the client goes on with the reply; other goroutines, other
principals and admitted writes come between. -/
namespace JuiceMount.Nfs
open RespProxy

/-- What a drain needs to know about its project. -/
structure LeaseDecision where
  held : Bool := false
  heldBy : String := ""
  epoch : ℕ := 0
  foreignBefore : ℕ := 0
  deriving DecidableEq, Repr

def LeaseDecision.taints (d : LeaseDecision) (acceptedEpoch : ℕ) : Bool :=
  0<d.foreignBefore && acceptedEpoch<d.foreignBefore

section Base

inductive SpoolBaseKind
  | unknown | absent | present | weak | claimed | moved | replace | atomicConflict
  deriving DecidableEq, Repr

/-- What a row knew about the backend file at its name when the write opened. -/
structure SpoolBase where
  kind : SpoolBaseKind := .unknown
  ino : ℕ := 0
  mtimeNs : ℤ := 0
  ctimeNs : ℤ := 0
  len : ℤ := 0
  deriving DecidableEq, Repr

/-- The fields of a stat that the base is compared with. -/
structure FileStat where
  ino : ℕ
  mtimeSec : ℤ
  mtimeNsec : ℤ
  ctimeNs : ℤ
  size : ℤ
  deriving DecidableEq, Repr

def FileStat.mtimeNs (st : FileStat) : ℤ := st.mtimeSec*10^9+st.mtimeNsec

def drainBaseAllowsInPlace (base : SpoolBase) (st : FileStat) (tainted : Bool) : Bool × String :=
  match base.kind with
  | .unknown =>
    if tainted then (false,"row predates base tracking and another Mac held the project since") else (true,"")
  | .absent => (false,"a file appeared at a name that was new when the write opened")
  | .atomicConflict => (false,"atomic save could not verify the previous destination")
  | .present =>
    if st.ino=base.ino && st.mtimeNs=base.mtimeNs && st.ctimeNs=base.ctimeNs && st.size=base.len then
      (true,"")
    else (false,"the file changed since the write opened")
  | .claimed =>
    if st.ino ≠ base.ino then (false,"the file this drain started writing was replaced")
    else if tainted then (false,"another Mac held the project after this drain started")
    else (true,"")
  | .moved =>
    if tainted then (false,"another Mac held the project after this renamed save was accepted")
    else if st.ino = base.ino && st.mtimeNs = base.mtimeNs && st.size = base.len then (true,"")
    else (false,"the renamed file changed since the write opened")
  | .weak =>
    if st.size = base.len && st.mtimeSec = base.mtimeNs.tdiv (10^9) && !tainted then (true,"")
    else (false,"the file changed since the write opened (offline base)")
  | .replace => (false,"unrecognised base identity")

end Base

section Proxy

/-- The clock and what else a grant reads. `counter` is the epoch counter before a first grant. -/
structure GrantInput where
  now : ℤ := 0
  checkoutMax : ℤ := 0
  label : String := ""
  counter : ℕ := 0
  deriving DecidableEq, Repr

/-- INCR on every grant and on every end; a renewal keeps the epoch. -/
def transitionEpoch (op : TransitionOp) (l : Lease) (counter : ℕ) : ℕ :=
  match op with
  | .renew => l.epoch
  | .grant | .stop => if l.epoch=0 then counter+1 else l.epoch+1

/-- `grantLocked` with a confirmed transition: the lease afterwards and foreign_since. -/
def grantLocked (l : Lease) (p : Principal) (mode : LeaseMode) (ttl : ℤ) (i : GrantInput) : Lease × Bool :=
  match grantLockedStart l p i.now i.checkoutMax mode ttl i.label with
  | .unresolved | .heldByOther _ => (l,false)
  | .send op next => (grantLockedEnd op p next (transitionEpoch op l i.counter),l.foreignSince p.name)

/-- `endLocked` with a confirmed transition. -/
def endLocked (l : Lease) (now : ℤ) : Lease :=
  match endLockedStart (some l) now with
  | .send next => endLockedEnd next (transitionEpoch .stop l 0)
  | _ => l

def holderStr (name host : String) : String := if name = "" then "" else name++"@"++host

inductive AcquireStatus
  | granted | renewed | held
  deriving DecidableEq, Repr

/-- [status, epoch, holder, expires_ms, foreign_since]; the client does not read expires_ms. -/
structure AcquireReply where
  status : AcquireStatus
  epoch : ℕ
  holder : String
  foreignSince : Bool
  deriving DecidableEq, Repr

/-- `none` is the error reply of a lease whose last transition is not resolved. -/
def cmdAcquire (l : Lease) (p : Principal) (mode : LeaseMode) (ttl : ℤ) (i : GrantInput) : Lease × Option AcquireReply :=
  if l.unresolved then (l,none)
  else
    let wasMine := l.held && l.holder=p.name
    let s := grantLocked l p mode ttl i
    let status := if s.1.holder≠p.name then .held else if wasMine then .renewed else .granted
    (s.1,some ⟨status,s.1.epoch,holderStr s.1.holder s.1.host,s.2⟩)

/-- A record of the HEARTBEAT reply: project, epoch, held or lost. -/
structure HeartbeatRecord where
  proj : ℕ
  epoch : ℕ
  held : Bool
  deriving DecidableEq, Repr

/-- HEARTBEAT, on the one project; `pending` lists it. -/
def cmdHeartbeat (l : Lease) (p : Principal) (pending : Bool) (now : ℤ) : Lease × List HeartbeatRecord :=
  if l.holder=p.name then
    if l.unresolved then (l,[⟨l.proj,l.epoch,false⟩])
    else (heartbeatLease p.name (fun _ => pending) now l,[⟨l.proj,l.epoch,true⟩])
  else (l,if pending then [⟨l.proj,l.epoch,false⟩] else [])

inductive ReleaseStatus
  | released | notHolder | staleEpoch
  deriving DecidableEq, Repr

/-- `none` is the error reply of a lease whose last transition is not resolved. -/
def cmdRelease (l : Lease) (p : Principal) (epoch : ℕ) (now : ℤ) : Lease × Option ReleaseStatus :=
  if l.unresolved then (l,none)
  else if !l.held || l.holder≠p.name then (l,some .notHolder)
  else if l.epoch≠epoch then (l,some .staleEpoch)
  else (endLocked l now,some .released)

end Proxy

/-- `confirmedAt` is `none` for the zero time. -/
structure ProjectLeaseState where
  held : Bool := false
  epoch : ℕ := 0
  mode : LeaseMode := .none
  inode : ℕ := 0
  confirmedAt : Option ℤ := none
  foreignBefore : ℕ := 0
  heldBy : String := ""
  releaseWanted : Bool := false
  deriving DecidableEq, Repr

namespace ProjectLeaseState

/-- 45 s, in nanoseconds. -/
def projectLeaseFresh : ℤ := 45*10^9

def fresh (st : ProjectLeaseState) (now : ℤ) : Bool :=
  st.held && st.confirmedAt.any (fun t => now-t<projectLeaseFresh)

/-- The section of `acquire` that records the reply. -/
def recordAcquire (st : ProjectLeaseState) (mode : LeaseMode) (r : AcquireReply) (now : ℤ) :
    ProjectLeaseState × LeaseDecision :=
  match r.status with
  | .granted | .renewed =>
    -- a later RENEWED reports foreign_since 0: the boundary stays for the lifetime of the grant
    let boundary := if r.foreignSince && r.status=.granted then r.epoch else st.foreignBefore
    ({ st with held := true, heldBy := "", epoch := r.epoch, mode := mode, confirmedAt := some now
               foreignBefore := boundary },
      { held := true, epoch := r.epoch, foreignBefore := boundary })
  | .held =>
    ({ st with held := false, heldBy := r.holder, epoch := r.epoch, confirmedAt := none },
      { heldBy := r.holder, epoch := r.epoch })

/-- The last section of `heartbeat`. -/
def recordHeartbeat (st : ProjectLeaseState) (records : List HeartbeatRecord) (now : ℤ) : ProjectLeaseState :=
  if st.inode=0 then st
  else
    match records.reverse.find? (fun r => r.held && r.proj=st.inode) with
    | some r => { st with held := true, epoch := r.epoch, confirmedAt := some now }
    | none => if st.held then { st with held := false, confirmedAt := none } else st

def noteRefused (st : ProjectLeaseState) (holder : String) : ProjectLeaseState :=
  { st with held := false, confirmedAt := none, heldBy := if holder ≠ "" then holder else st.heldBy }

/-- The last section of `releaseNow`. -/
def recordRelease (st : ProjectLeaseState) : ProjectLeaseState :=
  { st with releaseWanted := false, held := false, confirmedAt := none }

end ProjectLeaseState

/-- A JM.LEASE call of the client, as far as it has come. `gate` marks an ACQUIRE that a drain waits
for in leaseGate; `none` is an error reply. -/
inductive LeaseRpc
  | acquire (gate : Bool) (mode : LeaseMode) (ttl : ℤ)
  | acquired (gate : Bool) (mode : LeaseMode) (reply : Option AcquireReply)
  | heartbeat (pending : Bool)
  | heartbeatDone (records : List HeartbeatRecord)
  | status (records : List HeartbeatRecord)
  | release (epoch : ℕ)
  | released (reply : Option ReleaseStatus)
  deriving DecidableEq, Repr

/-- The lease at the proxy, the client's record of the project, and the calls on their way.
`tenures` lists every grant with its epoch; `decided` is what leaseGate answered in the last step. -/
structure LeaseClientState where
  lease : Lease
  client : ProjectLeaseState := {}
  calls : List LeaseRpc := []
  tenures : List (String × ℕ) := []
  decided : Option LeaseDecision := none

namespace LeaseClientState

def withLease (s : LeaseClientState) (l : Lease) : LeaseClientState :=
  { s with lease := l, tenures := if !s.lease.held && l.held then (l.holder,l.epoch)::s.tenures else s.tenures }

/-- leaseGate: a project that another principal holds parks the row, and an error proceeds without a
lease. -/
def decide (s : LeaseClientState) (d : LeaseDecision) : LeaseClientState :=
  { s with decided := if !d.held && d.heldBy ≠ "" then none else some d }

def execute (s : LeaseClientState) (me : Principal) (k : ℕ) (i : GrantInput) : Option LeaseClientState :=
  match s.calls[k]? with
  | some (.acquire gate mode ttl) =>
    let r := cmdAcquire s.lease me mode ttl i
    some { s.withLease r.1 with calls := s.calls.set k (.acquired gate mode r.2) }
  | some (.heartbeat pending) =>
    let r := cmdHeartbeat s.lease me pending i.now
    some { s.withLease r.1 with calls := s.calls.set k (.heartbeatDone r.2) }
  | some (.release epoch) =>
    let r := cmdRelease s.lease me epoch i.now
    some { s.withLease r.1 with calls := s.calls.set k (.released r.2) }
  | _ => none

def reply (s : LeaseClientState) (k : ℕ) (now : ℤ) : Option LeaseClientState :=
  let rest := s.calls.eraseIdx k
  match s.calls[k]? with
  | some (.acquired gate mode (some r)) =>
    let rec_ := s.client.recordAcquire mode r now
    let t := { s with client := rec_.1, calls := rest }
    some (if gate then t.decide rec_.2 else t)
  | some (.acquired gate _ none) =>
    let t := { s with calls := rest }
    some (if gate then t.decide {} else t)
  | some (.heartbeatDone records) => some { s with client := s.client.recordHeartbeat records now, calls := rest }
  | some (.released (some _)) => some { s with client := s.client.recordRelease, calls := rest }
  | some (.released none) => some { s with calls := rest }
  | _ => none

end LeaseClientState

/-- `grant` is an admitted write of any principal that finds the project free, the ACQUIRE of another
principal, or a request of this client that is executed after its caller gave up. `stop` is an expiry,
a break, or a release by another client. -/
inductive LeaseClientAction
  | grant (p : Principal) (mode : LeaseMode) (ttl : ℤ) (i : GrantInput)
  | stop (now : ℤ)
  | ensureForDrain (now : ℤ)
  | acquire (mode : LeaseMode) (ttl : ℤ)
  | heartbeat (pending : Bool)
  | askInode (k : ℕ)
  | gotInode (k : ℕ) (ok : Bool)
  | release
  | wantRelease
  | execute (k : ℕ) (i : GrantInput)
  | reply (k : ℕ) (now : ℤ)
  | lose (k : ℕ)
  | noteRefused (holder : String)
  | restart
  deriving DecidableEq, Repr

def leaseClientStep (me : Principal) (s₀ : LeaseClientState) (a : LeaseClientAction) : Option LeaseClientState :=
  let s : LeaseClientState := { s₀ with decided := none }
  match a with
  | .grant p mode ttl i => some (s.withLease (grantLocked s.lease p mode ttl i).1)
  | .stop now => some (s.withLease (endLocked s.lease now))
  | .ensureForDrain now =>
    if s.client.fresh now then
      some (s.decide { held := true, epoch := s.client.epoch, foreignBefore := s.client.foreignBefore })
    else some { s with calls := s.calls++[.acquire true .auto 0] }
  | .acquire mode ttl => some { s with calls := s.calls++[.acquire false mode ttl] }
  | .heartbeat pending => some { s with calls := s.calls++[.heartbeat pending] }
  | .askInode k =>
    match s.calls[k]? with
    | some (.heartbeatDone records) =>
      if s.client.held && s.client.inode=0 then some { s with calls := s.calls.set k (.status records) } else none
    | _ => none
  | .gotInode k ok =>
    match s.calls[k]? with
    | some (.status records) =>
      some { s with
        client := if ok then { s.client with inode := s.lease.proj } else s.client
        calls := s.calls.set k (.heartbeatDone records) }
    | _ => none
  | .release => some { s with calls := s.calls++[.release s.client.epoch] }
  | .wantRelease => some { s with client := { s.client with releaseWanted := true } }
  | .execute k i => s.execute me k i
  | .reply k now => s.reply k now
  | .lose k =>
    -- the call fails with a network error or runs into its timeout
    match s.calls[k]? with
    | some (.acquire true _ _) | some (.acquired true _ _) => some ({ s with calls := s.calls.eraseIdx k }.decide {})
    | some _ => some { s with calls := s.calls.eraseIdx k }
    | none => none
  | .noteRefused holder => some { s with client := s.client.noteRefused holder }
  | .restart => some { s with client := {}, calls := [] }

end JuiceMount.Nfs
