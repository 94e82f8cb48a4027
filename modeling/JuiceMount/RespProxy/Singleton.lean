import JuiceMount.RespProxy.Duration

/-! The singleton key: any number of proxy instances that acquire, renew and release it through
requests and replies of any delay, and the fence each of them derives from its own clock. All
clocks run at the rate of Redis's; a clock reading is the common time in nanoseconds. -/
namespace JuiceMount.RespProxy

structure SingletonCfg where
  singleton : Bool
  ttl : ℤ
  deriving DecidableEq, Repr

namespace SingletonCfg

def proofLifetime (c : SingletonCfg) : ℤ := c.ttl-c.ttl.tdiv 5

/-- How long the key lives from the execution of SET or PEXPIRE: whole milliseconds. -/
def keyLifetime (c : SingletonCfg) : ℤ := millis c.ttl*10^6

end SingletonCfg

/-- What `Start` or `renewLoop` is at. A request carries the clock reading it began with; the reply
is 1 for success. -/
inductive SingletonTask
  | idle
  | starting (id : ℕ) (start : ℤ) (reply : Option ℤ)
  | published
  | waiting
  | renewing
  | asking (id : ℕ) (start : ℤ) (reply : Option ℤ)
  | proved (start : ℤ)
  | over
  deriving DecidableEq, Repr

structure Instance where
  started : Bool := false
  lastRenew : Option ℤ := none
  singletonLost : Bool := false
  closed : Bool := false
  task : SingletonTask := .idle
  deriving DecidableEq, Repr

namespace Instance

/-- The value `fenced` returns. -/
def fenced (c : SingletonCfg) (x : Instance) (now : ℤ) : Bool :=
  if !c.singleton then false
  else if x.singletonLost || x.closed then true
  else
    match x.lastRenew with
    | none => true
    | some last => now-last ≥ c.proofLifetime

/-- What a call of `fenced` leaves: a lapsed proof is lost for good. -/
def callFenced (c : SingletonCfg) (x : Instance) (now : ℤ) : Instance :=
  match x.lastRenew with
  | none => x
  | some last =>
    if c.singleton && !x.singletonLost && !x.closed && now-last ≥ c.proofLifetime then
      { x with singletonLost := true }
    else x

/-- The end of `renewLoop`. -/
def lose (x : Instance) : Instance := { x with singletonLost := true, task := .over }

def answer (x : Instance) (id : ℕ) (r : ℤ) : Instance :=
  match x.task with
  | .starting id' start none => if id'=id then { x with task := .starting id' start (some r) } else x
  | .asking id' start none => if id'=id then { x with task := .asking id' start (some r) } else x
  | _ => x

end Instance

/-- SET NX PX, renewLua and releaseLua. -/
inductive SingletonOp
  | set | renew | release
  deriving DecidableEq, Repr

structure KeyRequest where
  id : ℕ
  inst : ℕ
  op : SingletonOp
  deriving DecidableEq, Repr

/-- `key` is the incarnation in the singleton key with its expiry; `net` are requests sent and not
executed, also those whose senders gave up. -/
structure SingletonState where
  now : ℤ
  key : Option (ℕ × ℤ)
  net : List KeyRequest := []
  ids : ℕ := 0
  insts : ℕ → Instance := fun _ => {}

namespace SingletonState

/-- GET of the key. -/
def holder (s : SingletonState) : Option ℕ := (s.key.filter (fun k => s.now<k.2)).map (·.1)

def fenced (cfg : ℕ → SingletonCfg) (s : SingletonState) (i : ℕ) : Bool := (s.insts i).fenced (cfg i) s.now

def put (s : SingletonState) (i : ℕ) (x : Instance) : SingletonState :=
  { s with insts := Function.update s.insts i x }

/-- Send a request; the task that waits for it is `wait` of its id. -/
def send (s : SingletonState) (i : ℕ) (op : SingletonOp) (x : Instance) : SingletonState :=
  { s.put i x with net := s.net++[⟨s.ids,i,op⟩], ids := s.ids+1 }

end SingletonState

inductive SingletonAction
  | tick (d : ℤ)
  | start (i : ℕ)
  | startDone (i : ℕ)
  | startFails (i : ℕ)
  | startCheck (i : ℕ)
  | renewBegin (i : ℕ)
  | renewSend (i : ℕ)
  | renewDone (i : ℕ)
  | renewFails (i : ℕ)
  | renewStore (i : ℕ)
  | call (i : ℕ)
  | close (i : ℕ)
  | release (i : ℕ)
  | exec (k : ℕ)
  deriving DecidableEq, Repr

def execRequest (cfg : ℕ → SingletonCfg) (s : SingletonState) (r : KeyRequest) : Option (ℕ × ℤ) × ℤ :=
  let mine := (r.inst,s.now+(cfg r.inst).keyLifetime)
  match r.op with
  | .set =>
    if (cfg r.inst).keyLifetime≤0 then (s.key,0)
    else if s.holder.isSome then (s.key,0)
    else (some mine,1)
  | .renew =>
    match s.holder with
    | none => (s.key,0)
    | some h => if h=r.inst then (some mine,1) else (s.key,-1)
  | .release => if s.holder=some r.inst then (none,1) else (s.key,0)

/-- One step. `close` fences before the key is released. -/
def singletonStep (cfg : ℕ → SingletonCfg) (s : SingletonState) : SingletonAction → Option SingletonState
  | .tick d => if d<0 then none else some { s with now := s.now+d }
  | .start i =>
    let x := s.insts i
    if x.started || x.closed then none
    else if !(cfg i).singleton then some (s.put i { x with started := true, task := .over })
    else some (s.send i .set { x with started := true, task := .starting s.ids s.now none })
  | .startDone i =>
    let x := s.insts i
    match x.task with
    | .starting _ start (some r) =>
      if r=1 then some (s.put i { x with lastRenew := some start, task := .published })
      else some (s.put i { x with task := .over })
    | _ => none
  | .startFails i =>
    let x := s.insts i
    match x.task with
    | .starting _ _ _ => some (s.put i { x with task := .over })
    | _ => none
  | .startCheck i =>
    let x := (s.insts i).callFenced (cfg i) s.now
    match (s.insts i).task with
    | .published =>
      if s.fenced cfg i then some (s.put i { x with task := .over }) else some (s.put i { x with task := .waiting })
    | _ => none
  | .renewBegin i =>
    let x := (s.insts i).callFenced (cfg i) s.now
    match (s.insts i).task with
    | .waiting => if s.fenced cfg i then some (s.put i x.lose) else some (s.put i { x with task := .renewing })
    | _ => none
  | .renewSend i =>
    let x := s.insts i
    match x.task with
    | .renewing => some (s.send i .renew { x with task := .asking s.ids s.now none })
    | _ => none
  | .renewDone i =>
    let x := (s.insts i).callFenced (cfg i) s.now
    match (s.insts i).task with
    | .asking _ start (some r) =>
      if s.fenced cfg i then some (s.put i x.lose)
      else if r=1 then some (s.put i { x with task := .proved start })
      else some (s.put i x.lose)
    | _ => none
  | .renewFails i =>
    let x := (s.insts i).callFenced (cfg i) s.now
    match (s.insts i).task with
    | .asking _ _ _ =>
      if s.fenced cfg i then some (s.put i x.lose) else some (s.put i { x with task := .waiting })
    | _ => none
  | .renewStore i =>
    let x := s.insts i
    match x.task with
    | .proved start => some (s.put i { x with lastRenew := some start, task := .waiting })
    | _ => none
  | .call i => some (s.put i ((s.insts i).callFenced (cfg i) s.now))
  | .close i => some (s.put i { s.insts i with closed := true })
  | .release i => if (s.insts i).closed then some (s.send i .release (s.insts i)) else none
  | .exec k =>
    match s.net[k]? with
    | none => none
    | some r =>
      let (key,reply) := execRequest cfg s r
      some { s.put r.inst ((s.insts r.inst).answer r.id reply) with key := key, net := s.net.eraseIdx k }

end JuiceMount.RespProxy
