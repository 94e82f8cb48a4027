import Mathlib.Tactic

/-! The seam between the proxy core and the lease decision: principals, proxy modes, refusals
and the places of the tree a write can fall in. `Denial.Detail` is a log text no function
reads back, so refusals carry only what the client is sent. -/
namespace JuiceMount.RespProxy

/-- The role of an authenticated principal. -/
inductive Kind
  | mac | farm | manager | bg | webdav | admin
  deriving DecidableEq, Repr

structure Principal where
  name : String
  kind : Kind
  host : String
  deriving DecidableEq, Repr

/-- The machine's hostname; an empty one means the principal's name. -/
def Principal.hostName (p : Principal) : String := if p.host ≠ "" then p.host else p.name

/-- The proxy's enforcement mode. -/
inductive Mode
  | passthrough | observe | enforce
  deriving DecidableEq, Repr

/-- The second token of a refusal reply. -/
inductive Reason
  | leaseHeld | adminOnly | bgOnly | farmOnly | unknownKey | principalReadonly
  | xProject | authRequired | proxyFenced | notGranted | auditUnavailable
  deriving DecidableEq, Repr

structure Denial where
  reason : Reason
  proj : ℕ := 0
  holder : String := ""
  host : String := ""
  epoch : ℕ := 0
  deriving DecidableEq, Repr

/-- The namespace a directory or inode belongs to. -/
inductive NsKind
  | unknown | root | project | trash | derivatives
  deriving DecidableEq, Repr

/-- Where a directory sits. `proj` is the project root of a project or derivatives place,
`dir` the directory above the project depth of a root place. -/
structure Location where
  kind : NsKind
  proj : ℕ := 0
  depth : ℤ
  dir : ℕ := 0
  deriving DecidableEq, Repr

end JuiceMount.RespProxy
