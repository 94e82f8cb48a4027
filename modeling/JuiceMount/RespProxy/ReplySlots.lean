import JuiceMount.Lib.Transition
import JuiceMount.RespProxy.Conn

/-! The reply queue of one authenticated connection. The command goroutine queues one slot for
every reply to come and writes upstream; the reply goroutine gives each upstream frame to the
slot at the head and writes the proxy's own replies when they get there. A step is one critical
section of either goroutine, one write upstream, or one answer of Redis. -/
namespace JuiceMount.RespProxy

/-- One result inside an EXEC reply, or a reply that is not an array. -/
inductive Scalar
  | str (b : Bytes)
  | err (b : Bytes)
  | other (b : Bytes)
  deriving DecidableEq, Repr

/-- An upstream reply. -/
inductive Value
  | scalar (v : Scalar)
  | null
  | array (es : List Scalar)
  deriving DecidableEq, Repr

/-- The channels of each family a client is subscribed to. -/
abbrev Subs := SubBase → List Bytes

def confirm (kind : SubKind) (S : Subs) (ch : Option Bytes) : Subs :=
  match ch with
  | none => S
  | some ch => fun b =>
    if b≠kind.base then S b
    else if kind.un then (S b).erase ch
    else (S b).insert ch

/-- A command written, or to be written, upstream. `owner` is the client command it serves,
`id` numbers the slots in the order they are queued. -/
structure Sent where
  id : ℕ
  owner : ℕ
  req : Request
  sub : Option SubKind := none
  deriving DecidableEq, Repr

/-- What Redis answered to a command: one frame, or the confirmations still to be read. -/
inductive Answer
  | frame (u : Sent) (v : Value)
  | confirms (u : Sent) (kind : SubKind) (chs : List (Option Bytes))
  deriving DecidableEq, Repr

structure Pending where
  slot : Slot
  id : ℕ
  owner : ℕ
  deriving DecidableEq, Repr

def Pending.waiting (p : Pending) : Bool := p.slot.synth.isNone

def Pending.facing (p : Pending) : Bool := !p.slot.drop

/-- What the client was sent for a slot. -/
inductive Source
  | frame (u : Sent) (v : Value)
  | proxy (b : Bytes)
  | confirmed (u : Sent)
  deriving DecidableEq, Repr

structure Delivered where
  place : Pending
  source : Source
  deriving DecidableEq, Repr

/-- The reply is the upstream answer to the slot's own command, or the proxy's own reply in the
slot; only a subscribe-family command is answered by confirmations alone. -/
def Delivered.Own (d : Delivered) : Prop :=
  match d.source with
  | .frame u _ => u.id=d.place.id ∧ u.owner=d.place.owner
  | .proxy b => d.place.slot.synth=some b
  | .confirmed u => u.id=d.place.id ∧ u.owner=d.place.owner ∧ d.place.slot.sub.isSome=true

/-- Why the connection is closed. -/
inductive Cause
  | desync | receipt | shutdown
  deriving DecidableEq, Repr

structure ReplyState where
  conn : Conn
  q : List Pending := []
  fwd : ℕ := 0
  qBytes : ℤ := 0
  overflow : Bool := false
  next : ℕ := 0
  -- the command goroutine
  taken : ℕ := 0
  todo : List Out := []
  sending : Option Sent := none
  stopped : Bool := false
  -- the wire and the Redis end
  up : List Sent := []
  down : List Answer := []
  rsubs : Subs := fun _ => []
  -- the reply goroutine
  draining : Bool := false
  subs : Subs := fun _ => []
  log : List Delivered := []
  closed : Option Cause := none

def slotCost : ℤ := 96

/-- The caps on one connection's queue. -/
structure Caps where
  bytes : ℤ
  replies : ℕ

namespace ReplyState

def enqueue (caps : Caps) (s : ReplyState) (slot : Slot) (cost : ℤ) : ReplyState :=
  let q := s.q++[{ slot := slot, id := s.next, owner := s.taken-1 }]
  let qBytes := s.qBytes+cost
  { s with
    q := q, qBytes := qBytes, next := s.next+1
    fwd := if slot.synth.isNone then s.fwd+1 else s.fwd
    overflow := s.overflow || qBytes > caps.bytes || q.length > caps.replies }

/-- `forward`: a slot over the cap is queued, but its command is not written. -/
def forward (caps : Caps) (s : ReplyState) (r : Request) (slot : Slot) (rest : List Out) : ReplyState :=
  let u : Sent := { id := s.next, owner := s.taken-1, req := r, sub := slot.sub }
  let t := s.enqueue caps slot slotCost
  if t.overflow then { t with sending := some u, todo := [], stopped := true }
  else { t with sending := some u, todo := rest }

/-- `reply`: with no forwarded reply pending, a PING goes ahead to wake the reply goroutine. -/
def reply (caps : Caps) (s : ReplyState) (b : Bytes) (rest : List Out) : ReplyState :=
  let synth : Slot := { synth := some b }
  let cost := slotCost+b.length
  if s.fwd=0 then
    let u : Sent := { id := s.next, owner := s.taken-1, req := pingCmd }
    { (s.enqueue caps { drop := true } slotCost).enqueue caps synth cost with
      sending := some u, todo := rest }
  else { s.enqueue caps synth cost with todo := rest }

def answered (s : ReplyState) : Option Source :=
  (s.log.find? (fun d => d.place.owner = s.taken-1)).map Delivered.source

def call (caps : Caps) (s : ReplyState) : Option ReplyState :=
  if s.stopped || s.sending.isSome then none
  else
    match s.todo with
    | [] => none
    | .forward r slot::rest => some (s.forward caps r slot rest)
    | .reply b::rest => some (s.reply caps b rest)
    | .await n::rest =>
      if s.q.any (fun p => p.owner = s.taken-1) then none
      else
        match s.answered with
        | some (.frame _ (.scalar (.str _))) =>
          some { s with todo := rest, conn := { s.conn with db := n } }
        | _ => some { s with todo := rest }
    | .noSlot _::_ => none

/-- RESP2 pub/sub turns the connection into a raw stream; it has no slots to align. -/
def rawOut : Out → Bool
  | .forward _ slot => slot.toRaw
  | .noSlot _ => true
  | _ => false

def take (allowedDBs : List ℕ) (s : ReplyState) (r : Request) (env : Env) : Option ReplyState :=
  if s.stopped || s.sending.isSome || s.todo≠[] then none
  else if s.overflow then some { s with stopped := true }
  else
    match s.conn.command allowedDBs r env with
    | none => some { s with stopped := true }
    | some (c,outs) =>
      if outs.any rawOut then none else some { s with conn := c, todo := outs, taken := s.taken+1 }

def channels (S : Subs) (kind : SubKind) (r : Request) : List (Option Bytes) :=
  if r.args≠[] then r.args.map some
  else if !kind.un then []
  else if S kind.base=[] then [none]
  else (S kind.base).map some

/-- Redis answers the next command: with a frame, or a RESP3 subscribe-family command with its
confirmations. -/
def answer (s : ReplyState) (v : Option Value) : Option ReplyState :=
  match s.up with
  | [] => none
  | u::up =>
    match v,u.sub with
    | some v,_ => some { s with up := up, down := s.down++[.frame u v] }
    | none,some kind =>
      let chs := channels s.rsubs kind u.req
      if chs=[] then none
      else some { s with
        up := up, down := s.down++[.confirms u kind chs]
        rsubs := chs.foldl (confirm kind) s.rsubs }
    | none,none => none

/-- A protected EXEC must have all its results, no error among them, and the receipt last. -/
def unconfirmed (slot : Slot) (v : Value) : Bool :=
  slot.strip > 0 && slot.execCount > 0 &&
    match v with
    | .null => false
    | .scalar _ => true
    | .array es =>
      es.length≠slot.execCount || es.any (fun e => match e with
        | .err _ => true
        | _ => false) || es.getLast? ≠ some (.str (ascii "OK"))

def pop (s : ReplyState) (ps : List Pending) : ReplyState :=
  { s with q := ps, fwd := s.fwd-1, qBytes := s.qBytes-slotCost }

/-- One confirmation; it belongs to the slot at the head when that is of its kind. -/
def pushFrame (s : ReplyState) (u : Sent) (kind : SubKind) (ch : Option Bytes) : ReplyState :=
  let t : ReplyState :=
    match s.q with
    | [] => s
    | p::ps =>
      if p.waiting && p.slot.sub=some kind then
        let n : ℤ :=
          (if p.slot.subN<0 then ((max (s.subs kind.base).length 1 : ℕ) : ℤ) else p.slot.subN)-1
        if n≤0 then { s.pop ps with log := s.log++[⟨p,.confirmed u⟩] }
        else { s with q := { p with slot := { p.slot with subN := n } }::ps }
      else s
  { t with subs := confirm kind t.subs ch }

def frame (s : ReplyState) : Option ReplyState :=
  if s.draining then none
  else
    match s.down with
    | [] => none
    | .frame u v::down =>
      match s.q with
      | [] => some { s with closed := some .desync }
      | p::ps =>
        if !p.waiting then some { s with closed := some .desync }
        else
          let t := { s.pop ps with down := down, draining := true }
          if p.slot.drop then some t
          else if unconfirmed p.slot v then some { t with closed := some .receipt }
          else some { t with log := t.log++[⟨p,.frame u v⟩] }
    | .confirms _ _ []::_ => none
    | .confirms u kind (ch::chs)::down =>
      let t := s.pushFrame u kind ch
      some { t with down := if chs=[] then down else .confirms u kind chs::down, draining := true }

end ReplyState

section Steps
variable (caps : Caps) (allowedDBs : List ℕ)

/-- The connection when its upstream was just dialled: the login is the first command. -/
def loginOuts (c : Conn) (hello : Option Request) : List Out :=
  .forward { name := ascii "CLIENT", args := [ascii "ID"], cls := .conn } { drop := true }::
    match hello with
    | none => [.forward c.setNameCmd { drop := true },.reply (ascii "+OK\r\n")]
    | some r => (c.forwardHello r).2

def ReplyState.start (c : Conn) (hello : Option Request) : ReplyState :=
  { conn := c, todo := loginOuts c hello, taken := 1 }

end Steps

end JuiceMount.RespProxy
