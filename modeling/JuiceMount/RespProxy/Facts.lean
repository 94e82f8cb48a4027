import JuiceMount.RespProxy.Keys

/-! A decision unit: the commands the guard looks at together, the keys they name and those they write. -/
namespace JuiceMount.RespProxy

/-- The commands the guard and the analysis tell apart. -/
inductive CmdName
  | hset | hsetnx | hmset | hdel | hincrby | hincrbyfloat | set | setnx | getset | setex | psetex
  | del | unlink | ltrim | rpush | lpush | rpushx | lpushx | zadd | zrem | sadd | srem
  | incr | incrby | decr | decrby | expire | pexpire | expireat | pexpireat | copy | config
  | publish
  | other (name : Bytes)
  deriving DecidableEq, Repr

inductive Class
  | read | write | txn | conn | pubsub | publish | script | admin | adminW | forbidden | jmLocal
  | unknown
  deriving DecidableEq, Repr

inductive KeyClass
  | counter | session | presence | linkBench | trashCreate | ownRecord | bg | farm | admin
  | project | channel | unknown
  deriving DecidableEq, Repr

inductive UnitKind
  | bare | txn
  deriving DecidableEq, Repr

/-- One command with its classification. `args` is the whole argv, the name included. -/
structure Cmd where
  name : CmdName
  cls : Class
  args : List Bytes
  keys : List KeyRef := []
  raw : List Bytes := []
  deriving DecidableEq, Repr

instance : Inhabited Cmd := ⟨{ name := .other [], cls := .unknown, args := [] }⟩

/-- One key written by one command; `cmd` is its index in the unit. -/
structure KeyWrite where
  cmd : ℕ
  key : KeyRef
  raw : Bytes
  cls : KeyClass
  deriving DecidableEq, Repr

/-- One decision unit: a bare command or the body of a MULTI. `inodeOwner` answers `none` for a
failed read and `some none` for a number the proxy never handed out. -/
structure DecisionUnit where
  kind : UnitKind
  db : ℕ := 0
  cmds : List Cmd
  watched : List Bytes := []
  writes : List KeyWrite := []
  project : List KeyWrite := []
  refInodes : List ℕ := []
  trashAlloc : ℕ := 0
  inodeOwner : Option (ℕ → Option (Option String)) := none
  inodeMark : Option (Option ℕ) := none
  mode : Mode := .enforce

def DecisionUnit.cmdOf (u : DecisionUnit) (w : KeyWrite) : Cmd := u.cmds.getD w.cmd default

def isHSet (c : CmdName) : Bool := c=.hset || c=.hsetnx || c=.hmset

def everySecond {α : Type*} : List α → List α
  | [] => []
  | [x] => [x]
  | x::_::xs => x::everySecond xs

def addNew (xs : List ℕ) (n : ℕ) : List ℕ := if n∈xs then xs else xs++[n]

end JuiceMount.RespProxy
