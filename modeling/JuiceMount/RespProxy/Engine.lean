import JuiceMount.Lib.RWLock
import JuiceMount.Lib.Transition
import JuiceMount.RespProxy.Leases

/-! The lease engine as interleaved goroutines. One action is one blocking lock operation or
one section under the engine mutex, so any two goroutines interleave between them. The
placement of a unit against the tree is an input (`Plan`); what Redis answers, the clock and
which upstream kill is confirmed are inputs of the single actions. -/
namespace JuiceMount.RespProxy

/-- The sorted set of project roots a unit writes in; inode numbers start at 1. -/
structure ProjSet where
  list : List ℕ
  sorted : list.Pairwise (· < ·)
  pos : 0 ∉ list
  deriving DecidableEq, Repr

/-- What `Decide` has found before it looks at leases: a refusal (grants, an unresolvable
write, placement, the root entry gate), a unit of dir-stat rows only, or its projects. -/
inductive Plan
  | refuse (d : Denial)
  | dirStat (locs : List Location)
  | place (projs : ProjSet)
  deriving DecidableEq, Repr

structure UnitReq where
  principal : Principal
  mode : Mode
  topology : Bool
  plan : Plan
  deriving DecidableEq, Repr

def UnitReq.bypass (r : UnitReq) : Bool :=
  r.principal.kind=.admin || r.principal.kind=.bg || r.mode=.passthrough

/-- How far the unit's own commands got on its upstream connection. `dead` is a unit whose
connection is confirmed gone from Redis, or that was never sent. -/
inductive Wire
  | unsent | sent | executed (committed : Bool) | answered | dead
  deriving DecidableEq, Repr

/-- Nothing the unit sent can still commit unseen: its reply was read, or it is dead. -/
def Wire.final : Wire → Bool
  | .answered | .dead => true
  | _ => false

/-- Where the goroutine in `Decide` stands. -/
inductive Pc
  | topoWait
  | fencing (todo : List ℕ)
  | touching
  | granting (todo : List ℕ)
  | grantHeld (q : ℕ) (rest : List ℕ)
  | grantSent (q : ℕ) (rest : List ℕ) (op : TransitionOp) (old next : Lease)
  | rolling (todo : List ℕ)
  | rollHeld (q : ℕ) (rest : List ℕ)
  | rollEnding (q : ℕ) (rest : List ℕ)
  | rollSent (q : ℕ) (rest : List ℕ) (old next : Lease)
  | admitted
  | denied
  deriving DecidableEq, Repr

/-- The project whose fence this place of the code holds for writing. -/
def Pc.writing : Pc → Option ℕ
  | .grantHeld q _ | .grantSent q _ _ _ _ | .rollHeld q _ | .rollEnding q _ | .rollSent q _ _ _ => some q
  | _ => none

/-- The fence-hold timer runs: `deny` arms it before the rollback, `admit` before returning. -/
def Pc.armed : Pc → Bool
  | .rolling _ | .rollHeld _ _ | .rollEnding _ _ | .rollSent _ _ _ _ | .admitted | .denied => true
  | _ => false

/-- `fences` are the read sides held. `created` is a ghost record of the tenures this unit's
own grants created, with their epochs. -/
structure UnitTask where
  req : UnitReq
  pc : Pc := .topoWait
  topo : Bool := false
  fences : List ℕ := []
  attempt : ℕ := 0
  granted : List ℕ := []
  epochs : GoMap ℕ ℕ := []
  verdict : Option Denial := none
  released : Bool := false
  timedOut : Bool := false
  wire : Wire := .unsent
  created : List (ℕ × ℕ) := []
  deriving DecidableEq, Repr

/-- The lease operations outside `Decide`, one project each: JM.LEASE ACQUIRE, RELEASE and
BREAK, and the sweeper's and the flusher's section for one candidate. -/
inductive LeaseOp
  | acquire (p : Principal) (q : ℕ) (mode : LeaseMode) (ttl : ℤ)
  | release (p : Principal) (q : ℕ) (ep : ℕ)
  | breakLease (p : Principal) (q : ℕ)
  | expire (q : ℕ)
  | flush (q : ℕ)
  deriving DecidableEq, Repr

def LeaseOp.proj : LeaseOp → ℕ
  | .acquire _ q _ _ | .release _ q _ | .breakLease _ q | .expire q | .flush q => q

/-- Commands refused before they reach a fence: ACQUIRE by webdav, BREAK by a non-admin. -/
def LeaseOp.allowed : LeaseOp → Bool
  | .acquire p _ _ _ => p.kind≠.webdav
  | .breakLease p _ => p.kind=.admin
  | _ => true

inductive OpPc
  | waiting
  | held
  | ending
  | grantSent (op : TransitionOp) (old next : Lease)
  | endSent (old next : Lease)
  | flushSent (sent : FlushFields)
  | finished
  deriving DecidableEq, Repr

def OpPc.writing : OpPc → Bool
  | .waiting | .finished => false
  | _ => true

structure OpTask where
  op : LeaseOp
  pc : OpPc := .waiting
  deriving DecidableEq, Repr

inductive Task
  | idle
  | unit (u : UnitTask)
  | op (o : OpTask)
  deriving DecidableEq, Repr

structure Engine where
  leases : ℕ → Option Lease
  fences : ℕ → RWLock ℕ
  topo : RWLock ℕ
  tasks : ℕ → Task
  cfg : LeaseCfg

/-- What the outside decides about one section: the clock, the epoch Redis answers (`none`
for an error or a lost reply) and the label of the project. -/
structure Input where
  now : ℤ := 0
  reply : Option ℕ := none
  label : String := ""
  deriving DecidableEq, Repr

namespace Engine

def setTask (s : Engine) (t : ℕ) (k : Task) : Engine :=
  { s with tasks := Function.update s.tasks t k }

def setFence (s : Engine) (q : ℕ) (f : RWLock ℕ) : Engine :=
  { s with fences := Function.update s.fences q f }

def setLease (s : Engine) (q : ℕ) (l : Lease) : Engine :=
  { s with leases := Function.update s.leases q (some l) }

def mapLeases (s : Engine) (f : ℕ → Lease → Lease) : Engine :=
  { s with leases := fun q => (s.leases q).map (f q) }

def leaseLocked (s : Engine) (q : ℕ) : Lease := (s.leases q).getD { proj := q }

/-- Drop the read sides `qs` of task `t`. -/
def releaseFences (s : Engine) (t : ℕ) (qs : List ℕ) : Engine :=
  { s with fences := fun q => if q∈qs then (s.fences q).runlock t else s.fences q }

/-- `releaseLocked`: the fences and the topology lock, at most once. -/
def releaseUnit (s : Engine) (t : ℕ) (u : UnitTask) : Engine :=
  if u.released then s.setTask t (.unit u)
  else
    let s' := s.releaseFences t u.fences
    { s' with topo := if u.req.topology then s.topo.unlock t else s.topo.runlock t }.setTask t
      (.unit { u with fences := [], topo := false, released := true })

/-- `deny`: the read sides go at once, the topology lock stays until Done; the rollback of the
unit's grants follows. -/
def deny (s : Engine) (t : ℕ) (u : UnitTask) (d : Denial) : Engine :=
  (s.releaseFences t u.fences).setTask t
    (.unit { u with fences := [], verdict := some d, pc := .rolling u.granted })

end Engine

/-- The holder check's findings over the projects so far. -/
structure HolderCheck where
  unresolved : ℕ := 0
  other : Option Lease := none
  free : List ℕ := []
  epochs : GoMap ℕ ℕ := []
  deriving DecidableEq, Repr

def checkProject (p : String) (leases : ℕ → Option Lease) (c : HolderCheck) (pr : ℕ) :
    HolderCheck :=
  match leases pr with
  | none => { c with free := c.free++[pr] }
  | some l =>
    if l.unresolved then { c with unresolved := pr }
    else if !l.held then { c with free := c.free++[pr] }
    else if l.holder≠p then { c with other := c.other <|> some l }
    else { c with epochs := c.epochs.set pr l.epoch }

def checkProjects (p : String) (leases : ℕ → Option Lease) (projs : List ℕ)
    (epochs : GoMap ℕ ℕ) : HolderCheck :=
  projs.foldl (checkProject p leases) { epochs := epochs }

/-- `DirStatGrace`, five minutes. -/
def dirStatGrace : ℤ := 300000

/-- The principal holds the project now, or stopped holding it within the grace. -/
def heldWithin (p : String) (now : ℤ) : Option Lease → Bool
  | none => false
  | some l =>
    !l.unresolved && (l.holder=p ||
      match l.recent.get? p with
      | none => false
      | some stopped => now-stopped≤dirStatGrace)

def dirStatProjects (locs : List Location) : List ℕ :=
  (((locs.filter (fun l => l.kind=.project)).map (·.proj)).dedup).mergeSort

/-- The refusal of `leaseDenial`, with the holder's fields when there is one. -/
def leaseDenial (r : Reason) (proj : ℕ) (l : Option Lease) : Denial :=
  match l with
  | none => { reason := r, proj := proj }
  | some l =>
    if l.held then { reason := r, proj := proj, holder := l.holder, host := l.host, epoch := l.epoch }
    else { reason := r, proj := proj }

/-- The first dir-stat place the principal may not write, as a refusal. -/
def dirStatDenial (p : String) (now : ℤ) (leases : ℕ → Option Lease) :
    List Location → Option Denial
  | [] => none
  | l::ls =>
    match l.kind with
    | .root | .derivatives => dirStatDenial p now leases ls
    | .project =>
      if heldWithin p now (leases l.proj) then dirStatDenial p now leases ls
      else some (leaseDenial .bgOnly l.proj (leases l.proj))
    | _ => some { reason := .bgOnly }

def firstUnresolved (leases : ℕ → Option Lease) (projs : List ℕ) : ℕ :=
  (projs.find? (fun pr => (leases pr).any (·.unresolved))).getD 0

/-- The section that looks at the leases once every fence is held for reading. -/
def Engine.check (s : Engine) (t : ℕ) (u : UnitTask) (now : ℤ) : Option Engine :=
  let p := u.req.principal.name
  match u.req.plan with
  | .refuse _ => none
  | .dirStat locs =>
    let bad := firstUnresolved s.leases (dirStatProjects locs)
    if bad≠0 then some (s.deny t u { reason := .leaseHeld, proj := bad })
    else if u.req.bypass then some (s.setTask t (.unit { u with pc := .admitted }))
    else
      match dirStatDenial p now s.leases locs with
      | some d => some (s.deny t u d)
      | none => some (s.setTask t (.unit { u with pc := .admitted }))
  | .place projs =>
    let c := checkProjects p s.leases projs.list u.epochs
    let u := { u with epochs := c.epochs }
    if c.unresolved≠0 then some (s.deny t u { reason := .leaseHeld, proj := c.unresolved })
    else if u.req.bypass then some (s.setTask t (.unit { u with pc := .admitted }))
    else
      match c.other with
      | some l => some (s.deny t u
          { reason := if projs.list.length > 1 then .xProject else .leaseHeld
            proj := l.proj, holder := l.holder, host := l.host, epoch := l.epoch })
      | none =>
        match c.free with
        | [] => some (s.setTask t (.unit { u with pc := .touching }))
        | pr::_ =>
          if u.attempt ≥ 3 then some (s.deny t u { reason := .leaseHeld, proj := pr })
          else some ((s.releaseFences t u.fences).setTask t
            (.unit { u with fences := [], pc := .granting c.free }))

/-- The next section of a goroutine in `Decide` (`none`: it waits for a lock, or is through). -/
def Engine.unitStep (s : Engine) (t : ℕ) (u : UnitTask) (i : Input) : Option Engine :=
  match u.pc with
  | .topoWait =>
    (if u.req.topology then s.topo.lock t else s.topo.rlock t).map (fun topo =>
      let s := { s with topo := topo }
      let u := { u with topo := true }
      match u.req.plan with
      | .refuse d => s.deny t u d
      | .dirStat locs => s.setTask t (.unit { u with pc := .fencing (dirStatProjects locs) })
      | .place projs =>
        if projs.list=[] then s.setTask t (.unit { u with pc := .admitted })
        else s.setTask t (.unit { u with pc := .fencing projs.list }))
  | .fencing (q::rest) =>
    ((s.fences q).rlock t).map (fun f =>
      (s.setFence q f).setTask t (.unit { u with fences := u.fences++[q], pc := .fencing rest }))
  | .fencing [] => s.check t u i.now
  | .touching =>
    match u.req.plan with
    | .place projs =>
      some ((s.mapLeases (fun q l =>
          if q∈projs.list then touchLease u.req.principal.name i.now l else l)).setTask t
        (.unit { u with pc := .admitted }))
    | _ => none
  | .granting (q::rest) =>
    ((s.fences q).lock t).map (fun f =>
      (s.setFence q f).setTask t (.unit { u with pc := .grantHeld q rest }))
  | .granting [] =>
    match u.req.plan with
    | .place projs =>
      some (s.setTask t (.unit { u with attempt := u.attempt+1, pc := .fencing projs.list }))
    | _ => none
  | .grantHeld q rest =>
    let l := s.leaseLocked q
    match grantLockedStart l u.req.principal i.now s.cfg.checkoutMax .auto 0 i.label with
    | .unresolved =>
      some (((s.setLease q l).setFence q ((s.fences q).unlock t)).deny t u
        { reason := .leaseHeld, proj := q })
    | .heldByOther _ =>
      some (((s.setLease q l).setFence q ((s.fences q).unlock t)).setTask t
        (.unit { u with pc := .granting rest }))
    | .send op next =>
      some ((s.setLease q { l with unresolved := true }).setTask t
        (.unit { u with pc := .grantSent q rest op l next }))
  | .grantSent q rest op old next =>
    match transition op old i.reply with
    | none =>
      some ((s.setFence q ((s.fences q).unlock t)).deny t u { reason := .leaseHeld, proj := q })
    | some ep =>
      let l := grantLockedEnd op u.req.principal next ep
      some (((s.setLease q l).setFence q ((s.fences q).unlock t)).setTask t
        (.unit { u with
          granted := if l.holder=u.req.principal.name then u.granted++[q] else u.granted
          created := if op=.grant then u.created++[(q,ep)] else u.created
          pc := .granting rest }))
  | .rolling (q::rest) =>
    ((s.fences q).lock t).map (fun f =>
      (s.setFence q f).setTask t (.unit { u with pc := .rollHeld q rest }))
  | .rolling [] => some (s.setTask t (.unit { u with pc := .denied }))
  | .rollHeld q rest =>
    if (s.leases q).any (fun l => l.holder=u.req.principal.name) then
      some (s.setTask t (.unit { u with pc := .rollEnding q rest }))
    else
      some ((s.setFence q ((s.fences q).unlock t)).setTask t (.unit { u with pc := .rolling rest }))
  | .rollEnding q rest =>
    match s.leases q,endLockedStart (s.leases q) i.now with
    | some l,.send next =>
      some ((s.setLease q { l with unresolved := true }).setTask t
        (.unit { u with pc := .rollSent q rest l next }))
    | _,_ =>
      some ((s.setFence q ((s.fences q).unlock t)).setTask t (.unit { u with pc := .rolling rest }))
  | .rollSent q rest old next =>
    match transition .stop old i.reply with
    | none =>
      some ((s.setFence q ((s.fences q).unlock t)).setTask t (.unit { u with pc := .rolling rest }))
    | some ep =>
      some (((s.setLease q (endLockedEnd next ep)).setFence q ((s.fences q).unlock t)).setTask t
        (.unit { u with pc := .rolling rest }))
  | .admitted => none
  | .denied => none

/-- The last section of a lease operation, or one that found nothing to do. -/
def Engine.opFinish (s : Engine) (t : ℕ) (o : OpTask) : Engine :=
  (s.setFence o.op.proj ((s.fences o.op.proj).unlock t)).setTask t (.op { o with pc := .finished })

def Engine.opStep (s : Engine) (t : ℕ) (o : OpTask) (i : Input) : Option Engine :=
  let q := o.op.proj
  match o.pc with
  | .waiting =>
    ((s.fences q).lock t).map (fun f => (s.setFence q f).setTask t (.op { o with pc := .held }))
  | .held =>
    match o.op with
    | .acquire p _ mode ttl =>
      let l := s.leaseLocked q
      match grantLockedStart l p i.now s.cfg.checkoutMax mode ttl i.label with
      | .send op next =>
        some ((s.setLease q { l with unresolved := true }).setTask t
          (.op { o with pc := .grantSent op l next }))
      | _ => some ((s.setLease q l).opFinish t o)
    | .release p _ ep =>
      if (s.leases q).any (fun l => !l.unresolved && l.held && l.holder=p.name && l.epoch=ep) then
        some (s.setTask t (.op { o with pc := .ending }))
      else some (s.opFinish t o)
    | .breakLease _ _ => some (s.setTask t (.op { o with pc := .ending }))
    | .expire _ =>
      if (s.leases q).any (fun l => (expiryReason l i.now s.cfg).isSome) then
        some (s.setTask t (.op { o with pc := .ending }))
      else some (s.opFinish t o)
    | .flush _ =>
      match s.leases q with
      | some l =>
        if flushable l then some (s.setTask t (.op { o with pc := .flushSent (flushFields l) }))
        else some (s.opFinish t o)
      | none => some (s.opFinish t o)
  | .ending =>
    match s.leases q,endLockedStart (s.leases q) i.now with
    | some l,.send next =>
      some ((s.setLease q { l with unresolved := true }).setTask t
        (.op { o with pc := .endSent l next }))
    | _,_ => some (s.opFinish t o)
  | .grantSent op old next =>
    match o.op,transition op old i.reply with
    | .acquire p _ _ _,some ep => some ((s.setLease q (grantLockedEnd op p next ep)).opFinish t o)
    | _,_ => some (s.opFinish t o)
  | .endSent old next =>
    match transition .stop old i.reply with
    | none => some (s.opFinish t o)
    | some ep => some ((s.setLease q (endLockedEnd next ep)).opFinish t o)
  | .flushSent sent =>
    match s.leases q with
    | some l => some ((s.setLease q (flushEnd l sent i.reply.isSome)).opFinish t o)
    | none => some (s.opFinish t o)
  | .finished => none

/-- One action of one goroutine, of Redis, or of the timer. -/
inductive Action
  | decide (t : ℕ) (req : UnitReq)
  | operate (t : ℕ) (op : LeaseOp)
  | advance (t : ℕ) (i : Input)
  | heartbeat (p : String) (pending : List ℕ) (now : ℤ)
  | loadCfg (c : LeaseCfg)
  | send (t : ℕ)
  | execute (t : ℕ) (committed : Bool)
  | reply (t : ℕ)
  | lost (t : ℕ) (killed : Bool)
  | timeout (t : ℕ) (killed : Bool)
  | abandon (t : ℕ)
  deriving DecidableEq, Repr

def UnitTask.returned (u : UnitTask) : Bool := u.pc=.admitted || u.pc=.denied

/-- The proxy core forwards the unit: an admitted one, or in observe mode and passthrough also
a refused one. -/
def UnitTask.forwarded (u : UnitTask) : Bool :=
  u.pc=.admitted || (u.pc=.denied && u.req.mode≠.enforce)

/-- What the outcome closures of a unit do. `reply` is Done with the unit's reply, `lost` Done
with a lost outcome (the upstream connection is killed first, and nothing is released when the
kill is not confirmed), `timeout` the fence-hold timer, `abandon` Done of a unit never sent. -/
def Engine.outcomeStep (s : Engine) (t : ℕ) (u : UnitTask) : Action → Option Engine
  | .send _ =>
    if u.forwarded && u.wire=.unsent && !u.released then
      some (s.setTask t (.unit { u with wire := .sent }))
    else none
  | .execute _ c =>
    if u.wire=.sent then some (s.setTask t (.unit { u with wire := .executed c })) else none
  | .reply _ =>
    match u.wire with
    | .executed _ => some (s.releaseUnit t { u with wire := .answered, timedOut := false })
    | _ => none
  | .lost _ killed =>
    if !u.returned then none
    else if u.released then some (s.setTask t (.unit { u with timedOut := false }))
    else if killed then some (s.releaseUnit t { u with wire := .dead })
    else some s
  | .timeout _ killed =>
    if !u.pc.armed then none
    else if u.released then some s
    else if killed then some (s.releaseUnit t { u with wire := .dead, timedOut := true })
    else some s
  | .abandon _ =>
    if u.returned && u.wire=.unsent then
      some (s.releaseUnit t { u with wire := .dead, timedOut := false })
    else none
  | _ => none

namespace Engine

def step (s : Engine) (a : Action) : Option Engine :=
  match a with
  | .decide t req =>
    if s.tasks t=.idle then some (s.setTask t (.unit { req := req })) else none
  | .operate t op =>
    if s.tasks t=.idle && op.allowed then some (s.setTask t (.op { op := op })) else none
  | .advance t i =>
    match s.tasks t with
    | .idle => none
    | .unit u => s.unitStep t u i
    | .op o => s.opStep t o i
  | .heartbeat p pending now =>
    some (s.mapLeases (fun _ l => heartbeatLease p (fun q => pending.contains q) now l))
  | .loadCfg c => some { s with cfg := c }
  | .send t | .execute t _ | .reply t | .lost t _ | .timeout t _ | .abandon t =>
    match s.tasks t with
    | .unit u => s.outcomeStep t u a
    | _ => none

/-- The engine as `Start` leaves it: any lease records, nobody holding a lock. -/
def start (leases : ℕ → Option Lease) (cfg : LeaseCfg) : Engine where
  leases := leases
  fences _ := .free
  topo := .free
  tasks _ := .idle
  cfg := cfg

end Engine
end JuiceMount.RespProxy
