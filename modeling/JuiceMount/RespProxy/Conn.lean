import JuiceMount.RespProxy.Facts

/-! The command side of one authenticated connection: how the command goroutine dispatches what
the client sends. A command yields the calls it makes on the reply queue, in order; the
decisions it asks for (credentials, guard and policy) come from outside as `Env`. -/
namespace JuiceMount.RespProxy

/-- The three subscription families. -/
inductive SubBase
  | channel | pattern | shard
  deriving DecidableEq, Repr

/-- A subscribe-family command, or the confirmation of one. -/
structure SubKind where
  base : SubBase
  un : Bool
  deriving DecidableEq, Repr

/-- The command names the connection tells apart. -/
inductive Verb
  | auth | hello | quit | select | multi | exec | discard | watch | unwatch | client
  | subscribe (kind : SubKind)
  | other
  deriving DecidableEq, Repr

def verbOf (name : Bytes) : Verb :=
  if name = ascii "AUTH" then .auth
  else if name = ascii "HELLO" then .hello
  else if name = ascii "QUIT" then .quit
  else if name = ascii "SELECT" then .select
  else if name = ascii "MULTI" then .multi
  else if name = ascii "EXEC" then .exec
  else if name = ascii "DISCARD" then .discard
  else if name = ascii "WATCH" then .watch
  else if name = ascii "UNWATCH" then .unwatch
  else if name = ascii "CLIENT" then .client
  else if name = ascii "SUBSCRIBE" then .subscribe ⟨.channel,false⟩
  else if name = ascii "UNSUBSCRIBE" then .subscribe ⟨.channel,true⟩
  else if name = ascii "PSUBSCRIBE" then .subscribe ⟨.pattern,false⟩
  else if name = ascii "PUNSUBSCRIBE" then .subscribe ⟨.pattern,true⟩
  else if name = ascii "SSUBSCRIBE" then .subscribe ⟨.shard,false⟩
  else if name = ascii "SUNSUBSCRIBE" then .subscribe ⟨.shard,true⟩
  else .other

/-- One command: its name in upper case, its arguments after the name and its class. Go folds
more than ASCII letters; `plain` says that Redis reads the same name. -/
structure Request where
  name : Bytes
  plain : Bool := true
  args : List Bytes := []
  cls : Class := .unknown
  script : Bool := false
  deriving DecidableEq, Repr

def Request.verb (r : Request) : Verb := verbOf r.name

def roArgs (r : Request) : Request :=
  if !r.script then r
  else if r.name = ascii "EVAL" then { r with name := ascii "EVAL_RO" }
  else if r.name = ascii "EVALSHA" then { r with name := ascii "EVALSHA_RO" }
  else r

/-- One pending reply position on a connection. -/
structure Slot where
  synth : Option Bytes := none
  drop : Bool := false
  exec : Bool := false
  execCount : ℕ := 0
  strip : ℕ := 0
  toRaw : Bool := false
  sub : Option SubKind := none
  subN : ℤ := 0
  deriving DecidableEq, Repr

/-- What a command does to the reply queue and the upstream connection: `forward`, `reply`,
`writeNoSlot`, and the wait for a SELECT's reply. -/
inductive Out
  | forward (r : Request) (s : Slot)
  | reply (b : Bytes)
  | noSlot (r : Request)
  | await (db : ℕ)
  deriving DecidableEq, Repr

structure TxnState where
  cmds : List Request := []
  poison : Option Bytes := none
  deriving DecidableEq, Repr

structure Conn where
  id : ℕ := 1
  principal : Bytes := []
  admin : Bool := false
  resp3 : Bool := false
  subscribed : Bool := false
  db : ℕ := 0
  txn : Option TxnState := none
  watched : List Bytes := []
  deriving DecidableEq, Repr

/-- What the proxy sends in place of an admitted command: an allocation with its owner record,
a drop of own slices (scripts), or a session heartbeat that only moves forward (ZADD GT). -/
inductive Rewrite
  | eval (args : List Bytes)
  | zadd (args : List Bytes)
  deriving DecidableEq, Repr

def Rewrite.request : Rewrite → Request
  | .eval args => { name := ascii "EVAL", args := args, cls := .script }
  | .zadd args => { name := ascii "ZADD", args := args, cls := .write }

/-- The answers a command gets from the authenticator (the principal it names, and whether that
is the admin), the guard, the policy, the audit log and the lease service. -/
structure Env where
  login : Option (Bytes × Bool) := none
  refusal : Option Bytes := none
  rewrite : Option Rewrite := none
  sliceUsed : List ℕ := []
  receipt : Option (List Bytes) := none
  served : Bytes := []
  deriving DecidableEq, Repr

/-- The unit `exec` decides: what the connection holds at that moment. -/
structure TxnUnit where
  db : ℕ
  watched : List Bytes
  cmds : List Request
  deriving DecidableEq, Repr

def errReply (msg : Bytes) : Bytes := ascii "-"++msg++ascii "\r\n"

def denyReply (reason : String) : Bytes :=
  errReply (ascii "JMDENY "++ascii reason++ascii " proj=0 holder=-@- epoch=0")

def wrongPass : Bytes := ascii "WRONGPASS invalid username-password pair or user is disabled."

def discardCmd : Request := { name := ascii "DISCARD", cls := .txn }
def execCmd : Request := { name := ascii "EXEC", cls := .txn }
def pingCmd : Request := { name := ascii "PING", cls := .conn }

def usedBitKey (id : ℕ) : Bytes := ascii "jmlease:v1:sused:"++ascii (toString (id/2^20))
def usedBitOffset (id : ℕ) : ℕ := id%2^20

def setBitCmd (id : ℕ) : Request :=
  { name := ascii "SETBIT", args := [usedBitKey id,ascii (toString (usedBitOffset id)),ascii "1"]
    cls := .adminW }

/-- `strconv.Atoi`, for a value that is not negative. -/
def atoi (b : Bytes) : Option ℕ :=
  let neg := b.head? = some 45
  let d := if neg || b.head? = some 43 then b.tail else b
  if d=[] || !d.all isDigit || decimal d ≥ 2^63 || (neg && decimal d≠0) then none
  else some (decimal d)

def needsGate (r : Request) : Bool :=
  match r.cls with
  | .read | .txn | .pubsub | .conn => false
  | .admin => r.name = ascii "CONFIG"
  | _ => true

/-- The options of HELLO after the version: whether credentials are among them, or the error. -/
def helloOpts : List Bytes → Bool → Except Bytes Bool
  | [],hasAuth => .ok hasAuth
  | o::rest,hasAuth =>
    if upper o = ascii "AUTH" then
      match rest with
      | _::_::rest => helloOpts rest true
      | _ => .error (errReply (ascii "ERR Syntax error in HELLO option 'auth'"))
    else if upper o = ascii "SETNAME" then
      match rest with
      | _::rest => helloOpts rest hasAuth
      | [] => .error (errReply (ascii "ERR Syntax error in HELLO option 'setname'"))
    else .error (errReply (ascii "ERR Syntax error in HELLO option"))

namespace Conn

def upstreamName (c : Conn) : Bytes := ascii "p:"++c.principal++ascii ":"++ascii (toString c.id)

def setNameCmd (c : Conn) : Request :=
  { name := ascii "CLIENT", args := [ascii "SETNAME",c.upstreamName], cls := .conn }

def bind (c : Conn) (login : Bytes × Bool) : Conn := { c with principal := login.1, admin := login.2 }

def auth (c : Conn) (r : Request) (env : Env) : Conn × List Out :=
  if r.args.length≠1 && r.args.length≠2 then
    (c,[.reply (errReply (ascii "ERR wrong number of arguments for 'auth' command"))])
  else
    match env.login with
    | none => (c,[.reply (errReply wrongPass)])
    | some l => (c.bind l,[.forward (c.bind l).setNameCmd { drop := true },.reply (ascii "+OK\r\n")])

def forwardHello (c : Conn) (r : Request) : Conn × List Out :=
  match r.args with
  | [] => (c,[.forward { name := ascii "HELLO", cls := .conn } {}])
  | ver::_ =>
    ({ c with resp3 := ver = ascii "3" },
      [.forward { name := ascii "HELLO", args := [ver,ascii "SETNAME",c.upstreamName], cls := .conn } {}])

def hello (c : Conn) (r : Request) (env : Env) : Conn × List Out :=
  match r.args with
  | [] => c.forwardHello r
  | ver::opts =>
    if ver ≠ ascii "2" && ver ≠ ascii "3" then
      (c,[.reply (errReply (ascii "NOPROTO unsupported protocol version"))])
    else
      match helloOpts opts false,env.login with
      | .error b,_ => (c,[.reply b])
      | .ok false,_ => c.forwardHello r
      | .ok true,none => (c,[.reply (errReply wrongPass)])
      | .ok true,some l => (c.bind l).forwardHello r

def selectDB (allowedDBs : List ℕ) (c : Conn) (r : Request) : List Out :=
  match r.args with
  | [a] =>
    match atoi a with
    | none => [.forward r {}]
    | some n =>
      if !c.admin && n ∉ allowedDBs then [.reply (denyReply "ADMIN_ONLY")]
      else [.forward r {},.await n]
  | _ => [.forward r {}]

def gateBare (r : Request) (env : Env) : List Out :=
  match env.refusal with
  | some b => [.reply b]
  | none => [.forward ((env.rewrite.map Rewrite.request).getD r) {}]

def subscribe (c : Conn) (r : Request) (kind : SubKind) : Conn × List Out :=
  if c.resp3 then
    let n : ℤ := if r.args=[] && kind.un then -1 else r.args.length
    (c,[.forward r { sub := some kind, subN := n }])
  else ({ c with subscribed := true },[.forward r { toRaw := true }])

/-- The unit of the transaction `t`. -/
def unit (c : Conn) (t : TxnState) : TxnUnit := { db := c.db, watched := c.watched, cmds := t.cmds }

/-- EXEC was held back. A refused body is discarded upstream; an admitted one gets its proxy
commands appended, whose results are stripped from the reply. -/
def exec (c : Conn) (t : TxnState) (env : Env) : Conn × List Out :=
  let refusal := match t.poison with
    | some _ => some (denyReply "UNKNOWN_KEY")
    | none => env.refusal
  let outs : List Out :=
    match refusal with
    | some b => [.forward discardCmd { drop := true },.reply b]
    | none =>
      let appended := env.sliceUsed.map setBitCmd++
        (env.receipt.map (fun args => (Rewrite.eval args).request)).toList
      appended.map (fun r => .forward r { drop := true })++
        [.forward execCmd
          { exec := true, strip := appended.length
            execCount := if env.receipt.isSome then t.cmds.length+appended.length else 0 }]
  ({ c with txn := none, watched := [] },outs)

/-- Commands that would change, at EXEC time, state the proxy tracks. -/
def poisons (r : Request) : Bool :=
  r.verb=.auth || r.verb=.hello || r.verb=.select || r.verb=.client || r.verb=.quit ||
    r.cls=.jmLocal || r.cls=.pubsub || r.cls=.forbidden

def inTxn (c : Conn) (t : TxnState) (r : Request) (env : Env) : Conn × List Out :=
  match r.verb with
  | .exec => c.exec t env
  | .discard => ({ c with txn := none, watched := [] },[.forward r {}])
  | .multi | .watch => (c,[.forward r {}])
  | _ =>
    if poisons r then
      ({ c with txn := some { t with poison := t.poison.or (some (r.name++ascii " inside MULTI")) } },
        [.reply (errReply (ascii "ERR proxy: "++r.name++ascii " is not allowed inside MULTI"))])
    else ({ c with txn := some { t with cmds := t.cmds++[r] } },[.forward (roArgs r) {}])

def maxWatched : ℕ := 8192

/-- What is left once the names are told apart: the class decides. -/
def byClass (c : Conn) (r : Request) (env : Env) : Conn × List Out :=
  match r.cls,r.verb with
  | .forbidden,_ => (c,[.reply (denyReply "ADMIN_ONLY")])
  | .jmLocal,_ => (c,[.reply env.served])
  | .pubsub,.subscribe kind => c.subscribe r kind
  | _,_ => if needsGate r then (c,gateBare (roArgs r) env) else (c,[.forward (roArgs r) {}])

/-- One command (`none`: the connection closes). -/
def command (allowedDBs : List ℕ) (c : Conn) (r : Request) (env : Env) : Option (Conn × List Out) :=
  if c.subscribed then
    match r.verb with
    | .subscribe _ | .quit => some (c,[.noSlot r])
    | _ => if r.name = ascii "PING" then some (c,[.noSlot r]) else none
  else
    match c.txn with
    | some t => some (c.inTxn t r env)
    | none =>
      some (match r.verb with
        | .auth => c.auth r env
        | .hello => c.hello r env
        | .quit => (c,[.forward r {}])
        | .select => (c,c.selectDB allowedDBs r)
        | .multi => ({ c with txn := some {} },[.forward r {}])
        | .exec | .discard => ({ c with watched := [] },[.forward r {}])
        | .watch =>
          ({ c with watched := c.watched++r.args.take (maxWatched-c.watched.length) },[.forward r {}])
        | .unwatch => ({ c with watched := [] },[.forward r {}])
        | .client =>
          if (r.args.head?.map upper) = some (ascii "SETNAME") && r.args.length ≥ 2 then
            (c,[.forward c.setNameCmd {}])
          else c.byClass r env
        | _ => c.byClass r env)

end Conn
end JuiceMount.RespProxy
