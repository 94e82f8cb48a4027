import JuiceMount.Lib.Lists
import JuiceMount.Lib.Transition

/-! The privileged unmount helper. A receipt names a mount; a job drives it to its end, pass by pass: a
fresh snapshot of the mount table, the authority predicate, at most one unmount call. Retire, Cancel and
the timers of dropped owners reach the job through maps and flags under different locks, so each section
under a lock is one step; waits, snapshots and kernel calls take any time and may fail. -/
namespace JuiceMount.Unmountd

abbrev Text := List Char

/-- The kernel's `fsid_t`. -/
abbrev FSID := ℤ × ℤ

inductive MountType
  | nfs | macfuse
  deriving DecidableEq, Repr

def MountType.name : MountType → Text
  | .nfs => "nfs".toList
  | .macfuse => "macfuse".toList

/-- One row of the mount table. -/
structure Entry where
  fsid : FSID
  owner : ℕ
  type : Text
  mntOnName : Text
  mntFromName : Text
  deriving DecidableEq, Repr

structure Snapshot where
  boot : Text
  entries : List Entry
  deriving DecidableEq, Repr

inductive Liveness
  | unknown | alive | dead | wedged
  deriving DecidableEq, Repr

def Liveness.provenGone (l : Liveness) : Bool := l=.dead || l=.wedged

structure RetireRequest where
  liveness : Liveness := .unknown
  ejectNow : Bool := false
  deriving DecidableEq, Repr

def RetireRequest.wantsForce (r : RetireRequest) : Bool := r.ejectNow || r.liveness.provenGone

/-- A later request joins an earlier one; proof and "eject now" are sticky. -/
def RetireRequest.join (old req : RetireRequest) : RetireRequest where
  liveness := if req.liveness.provenGone || !old.liveness.provenGone then req.liveness else old.liveness
  ejectNow := old.ejectNow || req.ejectNow

structure Receipt where
  uid : ℕ
  boot : Text
  op : Text
  type : MountType
  fsid : FSID
  token : Text
  mntOnName : Text
  mntFromName : Text
  generation : ℕ
  deriving DecidableEq, Repr

structure JobKey where
  uid : ℕ
  op : Text
  deriving DecidableEq, Repr

def Receipt.key (r : Receipt) : JobKey := ⟨r.uid,r.op⟩

/-- What the code takes from its environment: `unicode.ToLower` and one bound of the policy. -/
structure Config where
  toLower : Char → Char
  toLower_slash : toLower '/' = '/'
  maxZeroPresent : ℕ

/-! ### The authority predicate -/

def tokenCarried (type : MountType) (token : Text) (generation : ℕ) (onName fromName : Text) : Bool :=
  match type with
  | .nfs => (":/jm-".toList++token).isSuffixOf fromName
  | .macfuse =>
    generation≠0 &&
      (['/']++token++['/']++(Nat.toDigits 16 generation).leftpad 16 '0'++"/mount".toList).isSuffixOf onName

inductive Refusal
  | caller | ambiguous | owner | type | strings | token | source
  deriving DecidableEq, Repr

inductive Verdict
  | act (descendants : List Entry)
  | absent
  | void
  | refused (why : Refusal)
  deriving DecidableEq, Repr

/-- The entry lies inside the receipt's mount, whatever the case of its path. -/
def foldedInside (cfg : Config) (r : Receipt) (e : Entry) : Bool :=
  (r.mntOnName.map cfg.toLower++['/']).isPrefixOf (e.mntOnName.map cfg.toLower)

/-- `Verify`: may the caller act on the receipt's mount, by this snapshot? -/
def verify (cfg : Config) (r : Receipt) (caller : ℕ) (snap : Snapshot) : Verdict :=
  if snap.boot≠r.boot then .void
  else if caller≠r.uid then .refused .caller
  else
    match snap.entries.filter fun e => e.fsid=r.fsid with
    | [] => .absent
    | [e] =>
      let others := snap.entries.filter fun o => o.fsid≠r.fsid
      if e.owner≠caller then .refused .owner
      else if e.type≠r.type.name then .refused .type
      else if e.mntOnName≠r.mntOnName || e.mntFromName≠r.mntFromName then .refused .strings
      else if !tokenCarried r.type r.token r.generation e.mntOnName e.mntFromName then .refused .token
      else if r.type=.nfs && others.any (fun o => o.mntFromName=r.mntFromName) then .refused .source
      else .act (others.filter (foldedInside cfg r))
    | _::_::_ => .refused .ambiguous

/-! ### Jobs -/

inductive State
  | registered | verify | ordinary | backoff | inKernel | waitNested | forceConfirm | force | verifyAbsent
  | retired | refusedIdentity | void | failed | anomaly | cancelled
  deriving DecidableEq, Repr

def State.terminal : State → Bool
  | .retired | .refusedIdentity | .void | .failed | .anomaly => true
  | _ => false

/-- What an unmount call returned. -/
inductive Errno
  | ok | enoent | ebusy | other
  deriving DecidableEq, Repr

/-- The history of a job, which the code does not keep. -/
inductive Event
  | asked (req : RetireRequest)
  | waited
  | snapStarted
  | verified (snap : Snapshot)
  | issued (force : Bool)
  deriving DecidableEq, Repr

/-- Where a job's goroutine is. -/
inductive Pc
  | top | clear | snapping
  | chosen (force nested : Bool)
  | issued (c : ℕ) (nested : Bool)
  | inKernel (c : ℕ)
  | postSnap | waiting
  | returned (st : State)
  | ending (st : State)
  | gone (st : State)
  deriving DecidableEq, Repr

structure Job where
  key : JobKey
  receipt : Receipt
  req : RetireRequest
  state : State := .verify
  forced : Bool := false
  cancelled : Bool := false
  pc : Pc := .top
  pending : Option ℕ := none
  cleanStreak : ℕ := 0
  zeroPresent : ℕ := 0
  /-- Newest first. -/
  log : List Event := []
  deriving DecidableEq, Repr

namespace Job

/-- The goroutine has stopped converging and leaves, or has left, the map of jobs. -/
def ended (j : Job) : Bool :=
  match j.pc with
  | .ending _ | .gone _ => true
  | _ => false

def isGone (j : Job) : Bool :=
  match j.pc with
  | .gone _ => true
  | _ => false

/-- `converge` returned a terminal result, and `run` has not ended the job yet. -/
def stopped (j : Job) : Bool :=
  match j.pc with
  | .returned st => st≠.cancelled
  | _ => false

def finish (st : State) (j : Job) : Job := { j with pc := .returned st, state := st }

def wait (st : State) (j : Job) : Job := { j with pc := .waiting, state := st }

def waited (j : Job) : Job := { j with pc := .top, log := .waited::j.log }

/-- `handle`: the result of one of the job's own calls. -/
def handle (j : Job) : Errno → Job
  | .ok => { j with pc := .postSnap, state := .verifyAbsent }
  | .enoent => { j with pc := .top, zeroPresent := 0 }
  | .ebusy => { j with zeroPresent := 0 }.wait .backoff
  | .other => j.finish .failed

def choose (j : Job) (descendants : List Entry) : Job :=
  if j.req.wantsForce then
    if descendants≠[] then { j with cleanStreak := 0 }.wait .waitNested
    else if j.cleanStreak+1<2 then { j with cleanStreak := j.cleanStreak+1 }.wait .forceConfirm
    else { j with cleanStreak := 0, pc := .chosen true false, state := .force }
  else { j with cleanStreak := 0, pc := .chosen false (descendants≠[]), state := .ordinary }

end Job

/-- What a step of a job does outside of it; `deleted` counts the files that could be removed. -/
inductive Effect
  | none
  | delete (deleted : ℕ)
  | issue (force : Bool)
  | remove (st : State)
  deriving DecidableEq, Repr

inductive JobAct
  | top
  | check
  | snapped (snap : Option Snapshot) (deleted : ℕ)
  | issue
  | watch
  | done
  | poll (snap : Option Snapshot) (deleted : ℕ)
  | post (snap : Option Snapshot) (deleted : ℕ)
  | wait
  | decide
  | remove

def goodSnap (snap : Option Snapshot) : Option Snapshot := snap.filter fun x => x.boot≠[]

namespace Job

def verified (cfg : Config) (j : Job) (snap : Option Snapshot) (deleted : ℕ) : Job × Effect :=
  match goodSnap snap with
  | none => (j.wait .verify,.none)
  | some snap =>
    let j := { j with log := .verified snap::j.log }
    match verify cfg j.receipt j.key.uid snap with
    | .void => (j.finish .void,.delete deleted)
    | .absent => (j.finish .retired,.delete deleted)
    | .refused _ => (j.finish .refusedIdentity,.none)
    | .act descendants => (j.choose descendants,.none)

def polled (cfg : Config) (j : Job) (snap : Option Snapshot) (deleted : ℕ) : Job × Effect :=
  match (goodSnap snap).map (verify cfg j.receipt j.key.uid) with
  | some .absent => (j.finish .retired,.delete deleted)
  | some .void => (j.finish .void,.delete deleted)
  | _ => (j.waited,.none)

def posted (cfg : Config) (j : Job) (snap : Option Snapshot) (deleted : ℕ) : Job × Effect :=
  match (goodSnap snap).map (verify cfg j.receipt j.key.uid) with
  | none => ({ j with pc := .top },.none)
  | some .void => (j.finish .void,.delete deleted)
  | some .absent => (j.finish .retired,.delete deleted)
  | some _ =>
    let j := { j with zeroPresent := j.zeroPresent+1 }
    (if cfg.maxZeroPresent≤j.zeroPresent then j.finish .anomaly else j.wait .backoff,.none)

/-- `issueFor`: under the lock that requests are merged under. -/
def issueFor (j : Job) (inflight : Option ℕ) (n : ℕ) (force nested : Bool) : Job × Effect :=
  if j.cancelled || (!force && j.req.wantsForce) then ({ j with cleanStreak := 0, pc := .top },.none)
  else if inflight.isSome then ({ j with pc := .top },.none)
  else ({ j with pc := .issued n nested, forced := j.forced || force, log := .issued force::j.log },.issue force)

/-- One step of the goroutine. `inflight` is the call in the kernel for its fsid, `n` the number of the
next call, and `closed` tells the result and the flavour of a call that is done. -/
def next (cfg : Config) (inflight : Option ℕ) (n : ℕ) (closed : ℕ → Option (Errno × Bool)) (j : Job) :
    JobAct → Option (Job × Effect)
  | .top =>
    if j.pc≠.top then none
    else
      match inflight.or j.pending with
      | some c => some ({ j with pc := .inKernel c, state := .inKernel },.none)
      | none => some ({ j with pc := .clear },.none)
  | .check =>
    if j.pc≠.clear then none
    else if j.cancelled then some (j.finish .cancelled,.none)
    else some ({ j with pc := .snapping, state := .verify, log := .snapStarted::j.log },.none)
  | .snapped snap deleted => if j.pc=.snapping then some (j.verified cfg snap deleted) else none
  | .issue =>
    match j.pc with
    | .chosen force nested => some (j.issueFor inflight n force nested)
    | _ => none
  | .watch =>
    match j.pc with
    | .issued c _ => some ({ j.waited with pending := some c },.none)
    | _ => none
  | .done =>
    match j.pc with
    | .issued c nested =>
      (closed c).map fun r => (if !r.2 && nested && r.1=.ebusy then j.waited.wait .waitNested else j.waited.handle r.1,.none)
    | .inKernel c =>
      (closed c).map fun r => (if j.pending=some c then { j.waited with pending := none }.handle r.1 else j.waited,.none)
    | _ => none
  | .poll snap deleted =>
    match j.pc with
    | .inKernel _ => some (j.polled cfg snap deleted)
    | _ => none
  | .post snap deleted => if j.pc=.postSnap then some (j.posted cfg snap deleted) else none
  | .wait => if j.pc=.waiting then some (j.waited,.none) else none
  | .decide =>
    match j.pc with
    | .returned st =>
      some (if st=.cancelled && !j.cancelled then { j with pc := .top, pending := none, cleanStreak := 0, zeroPresent := 0 }
        else { j with pc := .ending st },.none)
    | _ => none
  | .remove =>
    match j.pc with
    | .ending st => some ({ j with pc := .gone st },.remove st)
    | _ => none

def start (k : JobKey) (r : Receipt) (req : RetireRequest) : Job := { key := k, receipt := r, req := req, log := [.asked req] }

/-- `join`, for a job that has not ended. -/
def join (j : Job) (req : RetireRequest) : Job :=
  { j with req := j.req.join req, cancelled := false, log := .asked req::j.log }

end Job

/-! ### The service -/

/-- What the maps and the receipt store hold of one op. -/
structure Op where
  running : Option ℕ := none
  result : Option State := none
  orphan : Option ℕ := none
  withdrawn : Bool := false
  parked : Bool := false
  receipt : Option Receipt := none
  /-- The durable mark of a withdrawal. -/
  mark : Bool := false
  /-- History: a Cancel returned with a state that is not terminal, and no Retire began since; and
  whether it could write the durable mark. -/
  quiet : Bool := false
  durable : Bool := false
  deriving DecidableEq, Repr

structure KCall where
  fsid : FSID
  force : Bool
  key : JobKey
  /-- Set once the system call has returned. -/
  result : Option Errno := none
  closed : Bool := false
  deriving DecidableEq, Repr

inductive Answer
  | ok (st : State)
  | pending
  | notCancellable
  | failed
  deriving DecidableEq, Repr

inductive Kind
  | retire (req : RetireRequest)
  | timer (liveness : Liveness)
  | cancel
  deriving DecidableEq, Repr

/-- What a Cancel answers once it has marked the op: a state it has read, or that of the job then. -/
inductive Held
  | state (st : State)
  | job (i : ℕ)
  deriving DecidableEq, Repr

/-- Where a call is between two of its sections. -/
inductive Place
  -- Retire
  | clear | clearMark
  -- an orphan timer
  | armed | readMem | readMark
  | deciding (withdrawn : Bool)
  -- startOrJoin
  | lookup
  | joining (i : ℕ)
  | awaitGone (i : ℕ)
  | reading
  | starting (r : Receipt)
  | waiting (i : ℕ)
  -- Cancel
  | find | status
  | cancelling (i : ℕ)
  | awaitEnd (i : ℕ)
  | withdraw (h : Held)
  | marking (h : Held)
  | settling (h : Held) (marked : Bool)
  | answered (a : Answer)
  deriving DecidableEq, Repr

structure Thread where
  key : JobKey
  kind : Kind
  place : Place
  /-- History of a Retire: no Cancel of the op was under way when it began, and none has begun since. -/
  last : Bool := false
  /-- History: it joined a job whose convergence had already returned its result. -/
  stale : Bool := false
  deriving DecidableEq, Repr

def Thread.request (t : Thread) : RetireRequest :=
  match t.kind with
  | .retire req => req
  | .timer liveness => { liveness := liveness }
  | .cancel => {}

def Thread.cancels (t : Thread) : Bool :=
  t.kind=.cancel && (match t.place with | .answered _ => false | _ => true)

structure Service where
  ops : JobKey → Op := fun _ => {}
  jobs : List Job := []
  inflight : FSID → Option ℕ := fun _ => none
  calls : List KCall := []
  threads : List Thread := []

def Op.delete (deleted : ℕ) (o : Op) : Op :=
  { o with receipt := if 1≤deleted then none else o.receipt, mark := if 2≤deleted then false else o.mark }

def Op.remove (st : State) (o : Op) : Op :=
  if st.terminal then { o with running := none, result := some st, parked := false } else { o with running := none }

def Op.restart (o : Op) : Op :=
  { receipt := o.receipt, mark := o.mark, quiet := o.quiet && o.durable, durable := o.durable }

namespace Service

def upd (s : Service) (k : JobKey) (f : Op → Op) : Service := { s with ops := Function.update s.ops k (f (s.ops k)) }

def setJob (s : Service) (i : ℕ) (j : Job) : Service := { s with jobs := s.jobs.set i j }

def addJob (s : Service) (j : Job) : Service := { s with jobs := s.jobs++[j] }

def goto (s : Service) (n : ℕ) (t : Thread) (p : Place) : Service := { s with threads := s.threads.set n { t with place := p } }

def closed (s : Service) (c : ℕ) : Option (Errno × Bool) :=
  (s.calls[c]?).bind fun x => if x.closed then x.result.map (·,x.force) else none

def effect (s : Service) (j : Job) : Effect → Service
  | .none => s
  | .delete deleted => s.upd j.key (Op.delete deleted)
  | .issue force =>
    { s with
      calls := s.calls++[{ fsid := j.receipt.fsid, force := force, key := j.key }]
      inflight := Function.update s.inflight j.receipt.fsid (some s.calls.length) }
  | .remove st => s.upd j.key (Op.remove st)

def jobStep (cfg : Config) (s : Service) (i : ℕ) (a : JobAct) : Option Service :=
  (s.jobs[i]?).bind fun j =>
    (j.next cfg (s.inflight j.receipt.fsid) s.calls.length s.closed a).map fun r => (s.effect j r.2).setJob i r.1

/-- A request that has been joined or started is answered by its job; a timer does not wait. -/
def joined (s : Service) (n : ℕ) (t : Thread) (i : ℕ) : Service :=
  match t.kind with
  | .retire _ => s.goto n t (.waiting i)
  | _ => s.goto n t (.answered .pending)

/-- `startOrJoin` and the sections of Retire around it. -/
def requestStep (s : Service) (n : ℕ) (t : Thread) (io : Bool) : Option Service :=
  let o := s.ops t.key
  match t.place with
  | .clear => some ((s.upd t.key fun o => { o with withdrawn := false }).goto n t .clearMark)
  | .clearMark => some ((s.upd t.key fun o => { o with mark := o.mark && !io }).goto n t .lookup)
  | .lookup =>
    match o.running with
    | some i => some (s.goto n t (.joining i))
    | none => some (s.goto n t (if o.result=some .retired then .answered (.ok .retired) else .reading))
  | .joining i =>
    (s.jobs[i]?).map fun j =>
      if j.ended then s.goto n t (.awaitGone i)
      else (s.setJob i (j.join t.request)).joined n { t with stale := t.stale || j.stopped } i
  | .awaitGone i => (s.jobs[i]?).bind fun j => if j.isGone then some (s.goto n t .lookup) else none
  | .reading =>
    match o.receipt with
    | some r => some (s.goto n t (if io then .starting r else .answered .failed))
    | none => some (s.goto n t (.answered .failed))
  | .starting r =>
    if o.running.isSome then some (s.goto n t .lookup)
    else some (((s.addJob (.start t.key r t.request)).upd t.key fun o => { o with running := some s.jobs.length }).joined n t
      s.jobs.length)
  | .waiting i =>
    (s.jobs[i]?).map fun j =>
      match j.pc with
      | .gone st => s.goto n t (.answered (if io then .ok st else .pending))
      | _ => s.goto n t (.answered .pending)
  | _ => none

/-- An orphan timer up to its start; it reads the withdrawal before it takes the lock. -/
def timerStep (s : Service) (n : ℕ) (t : Thread) (io : Bool) : Option Service :=
  let o := s.ops t.key
  match t.place with
  | .armed => some (s.goto n t .readMem)
  | .readMem => some (s.goto n t (if o.withdrawn then .deciding true else .readMark))
  | .readMark => some (s.goto n t (.deciding (o.mark || !io)))
  | .deciding withdrawn =>
    if o.orphan≠some n then some (s.goto n t (.answered .pending))
    else if withdrawn then some ((s.upd t.key fun o => { o with orphan := none, parked := true }).goto n t (.answered .pending))
    else some ((s.upd t.key fun o => { o with orphan := none }).goto n t .lookup)
  | _ => s.requestStep n t io

/-- `Status` of an op that Cancel found without a job. -/
def statusOf (s : Service) (k : JobKey) (io : Bool) : Option State :=
  match (s.ops k).running.bind fun i => s.jobs[i]? with
  | some j => some j.state
  | none =>
    match (s.ops k).result with
    | some st => some st
    | none => if io && (s.ops k).receipt.isSome then some .registered else none

/-- Cancel returns; without an error and with a state that is not terminal the retirement is withdrawn. -/
def returns (s : Service) (n : ℕ) (t : Thread) (st : State) (marked : Bool) : Service :=
  (if st.terminal then s else s.upd t.key fun o => { o with quiet := true, durable := marked }).goto n t (.answered (.ok st))

def cancelStep (s : Service) (n : ℕ) (t : Thread) (io : Bool) : Option Service :=
  match t.place with
  | .find => some (s.goto n t (match (s.ops t.key).running with | some i => .cancelling i | none => .status))
  | .status =>
    some (match s.statusOf t.key io with
      | none => s.goto n t (.answered .failed)
      | some st => if st.terminal then s.goto n t (.answered (.ok st)) else s.goto n t (.withdraw (.state st)))
  | .cancelling i =>
    (s.jobs[i]?).map fun j =>
      if j.ended then s.goto n t (.awaitEnd i)
      else if !j.req.wantsForce && !j.forced && !j.state.terminal then
        (s.setJob i { j with cancelled := true }).goto n t (.withdraw (.job i))
      else s.goto n t (.answered .notCancellable)
  | .awaitEnd i =>
    (s.jobs[i]?).map fun j =>
      if j.state.terminal then s.goto n t (.answered (.ok j.state)) else s.goto n t (.withdraw (.state j.state))
  | .withdraw h => some ((s.upd t.key fun o => { o with withdrawn := true }).goto n t (.marking h))
  | .marking h =>
    let marked := io && (s.ops t.key).receipt.isSome
    some ((s.upd t.key fun o => { o with mark := o.mark || marked }).goto n t (.settling h marked))
  | .settling (.state st) marked => some (s.returns n t st marked)
  | .settling (.job i) marked => (s.jobs[i]?).map fun j => s.returns n t j.state marked
  | _ => none

def callStep (s : Service) (n : ℕ) (io : Bool) : Option Service :=
  (s.threads[n]?).bind fun t =>
    match t.kind with
    | .retire _ => s.requestStep n t io
    | .timer _ => s.timerStep n t io
    | .cancel => s.cancelStep n t io

end Service

inductive Act
  | register (r : Receipt) (snap : Snapshot)
  | retire (key : JobKey) (req : RetireRequest)
  | cancel (key : JobKey)
  | disconnected (key : JobKey) (liveness : Liveness)
  | reclaim (key : JobKey)
  | sweep (key : JobKey) (snap : Snapshot) (deleted : ℕ)
  /-- The next section of a call; `io` is how its file operation goes. -/
  | call (n : ℕ) (io : Bool)
  | job (i : ℕ) (a : JobAct)
  /-- An unmount call returns from the kernel, and its goroutine makes that known. -/
  | kernel (c : ℕ) (e : Errno)
  | settle (c : ℕ)
  | restart

namespace Service

def spawn (s : Service) (t : Thread) : Service := { s with threads := s.threads++[t] }

/-- A receipt is stored if the snapshot proves it and the op is unknown to this process and to the store. -/
def register (cfg : Config) (s : Service) (r : Receipt) (snap : Snapshot) : Option Service :=
  let o := s.ops r.key
  match verify cfg r r.uid snap with
  | .act _ =>
    if o.running.isSome || o.result.isSome || o.receipt.isSome then none
    else some (s.upd r.key fun o => { o with receipt := some r, mark := false, quiet := false })
  | _ => none

def retire (s : Service) (k : JobKey) (req : RetireRequest) : Service :=
  let last := !s.threads.any fun t => t.key=k && t.cancels
  (s.upd k fun o => { o with quiet := false }).spawn { key := k, kind := .retire req, place := .clear, last := last }

def cancel (s : Service) (k : JobKey) : Service :=
  let begun : Thread → Thread := fun t => if t.key=k then { t with last := false } else t
  { s with threads := s.threads.map begun++[{ key := k, kind := .cancel, place := .find }] }

def disconnected (s : Service) (k : JobKey) (liveness : Liveness) : Option Service :=
  if (s.ops k).receipt.isNone then none
  else some ((s.upd k fun o => { o with orphan := some s.threads.length }).spawn
    { key := k, kind := .timer liveness, place := .armed })

def reclaim (s : Service) (k : JobKey) : Service :=
  s.upd k fun o => if o.orphan.isSome then { o with orphan := none } else { o with parked := false }

/-- `SweepAtLaunch` for one receipt. -/
def sweep (cfg : Config) (s : Service) (k : JobKey) (snap : Snapshot) (deleted : ℕ) : Option Service :=
  (s.ops k).receipt.bind fun r =>
    match verify cfg r r.uid snap with
    | .void | .absent => some (s.upd k (Op.delete deleted))
    | _ => none

def kernel (s : Service) (c : ℕ) (e : Errno) : Option Service :=
  (s.calls[c]?).bind fun x =>
    if x.result.isSome then none else some { s with calls := s.calls.set c { x with result := some e } }

def settle (s : Service) (c : ℕ) : Option Service :=
  (s.calls[c]?).bind fun x =>
    if x.result.isNone || x.closed then none
    else some { s with calls := s.calls.set c { x with closed := true }, inflight := Function.update s.inflight x.fsid none }

def step (cfg : Config) (s : Service) : Act → Option Service
  | .register r snap => s.register cfg r snap
  | .retire k req => some (s.retire k req)
  | .cancel k => some (s.cancel k)
  | .disconnected k liveness => s.disconnected k liveness
  | .reclaim k => some (s.reclaim k)
  | .sweep k snap deleted => s.sweep cfg k snap deleted
  | .call n io => s.callStep n io
  | .job i a => s.jobStep cfg i a
  | .kernel c e => s.kernel c e
  | .settle c => s.settle c
  | .restart => some { ops := fun k => (s.ops k).restart }

end Service

end JuiceMount.Unmountd
