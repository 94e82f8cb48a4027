import JuiceMount.Lib.GoMap
import JuiceMount.RespProxy.Policy

/-! The lease record of one project and its transitions. Every transition runs with the
project's fence held for writing; it reads and quarantines the record in one mutex section,
asks Redis, and installs the new record in a second one. The sections are separate
definitions here, so that other goroutines can be interleaved between them. -/
namespace JuiceMount.RespProxy

/-- `none` is the empty mode of a lease nobody holds. -/
inductive LeaseMode
  | none | auto | checkout
  deriving DecidableEq, Repr

/-- Times are milliseconds. `hist` is the last epoch each principal held, `recent` when it
stopped holding; `unresolved` marks a transition whose outcome is not known. -/
structure Lease where
  proj : ℕ
  holder : String := ""
  kind : Option Kind := .none
  host : String := ""
  epoch : ℕ := 0
  mode : LeaseMode := .none
  grantedMs : ℤ := 0
  lastWriteMs : ℤ := 0
  lastHbMs : ℤ := 0
  checkoutUntilMs : ℤ := 0
  pending : Bool := false
  label : String := ""
  hist : GoMap String ℕ := []
  recent : GoMap String ℤ := []
  dirty : Bool := false
  unresolved : Bool := false
  deriving DecidableEq, Repr

/-- The lifetimes of jmlease:v1:cfg, in milliseconds. -/
structure LeaseCfg where
  idle : ℤ
  orphan : ℤ
  checkoutMax : ℤ
  deriving DecidableEq, Repr

namespace Lease

def held (l : Lease) : Bool := l.holder ≠ ""

def liveMs (l : Lease) : ℤ := if l.lastWriteMs > l.lastHbMs then l.lastWriteMs else l.lastHbMs

/-- Another principal held the project after the principal's last epoch. -/
def foreignSince (l : Lease) (principal : String) : Bool :=
  l.hist.any (fun e => e.1≠principal && l.hist.getD principal 0<e.2)

def tenure (l : Lease) : String × ℕ × LeaseMode × Bool := (l.holder,l.epoch,l.mode,l.unresolved)

end Lease

/-- The operation names of leaseTransitionLua. -/
inductive TransitionOp
  | grant | renew | stop
  deriving DecidableEq, Repr

/-- What the first section of `grantLocked` decided. -/
inductive GrantStart
  | unresolved
  | heldByOther (l : Lease)
  | send (op : TransitionOp) (next : Lease)
  deriving DecidableEq, Repr

/-- The record a renewal by the holder asks for: same holder, same epoch. A checkout is
extended, but never past `checkoutMax` after the tenure's first grant. -/
def renewedLease (l : Lease) (now checkoutMax : ℤ) (mode : LeaseMode) (ttl : ℤ) : Lease :=
  let next := { l with lastHbMs := now }
  if mode=.checkout then
    let limit := l.grantedMs+checkoutMax
    { next with mode := .checkout, checkoutUntilMs := if now+ttl > limit then limit else now+ttl }
  else next

def grantedLease (l : Lease) (p : Principal) (now : ℤ) (mode : LeaseMode) (ttl : ℤ)
    (label : String) : Lease :=
  { l with
    holder := p.name, kind := some p.kind, host := p.hostName, mode := mode
    grantedMs := now, lastWriteMs := now, lastHbMs := now
    checkoutUntilMs := if mode=.checkout then now+ttl else 0
    pending := false
    label := if label ≠ "" then label else l.label
    recent := l.recent.erase p.name }

/-- First section of `grantLocked`, on the record `leaseLocked` returns. -/
def grantLockedStart (l : Lease) (p : Principal) (now checkoutMax : ℤ) (mode : LeaseMode)
    (ttl : ℤ) (label : String) : GrantStart :=
  if l.unresolved then .unresolved
  else if l.held && l.holder≠p.name then .heldByOther l
  else if l.held then .send .renew (renewedLease l now checkoutMax mode ttl)
  else .send .grant (grantedLease l p now mode ttl label)

/-- `transition`: the reply of leaseTransitionLua (`none` for an error or a malformed one)
must carry the epoch the operation produces. -/
def transition (op : TransitionOp) (old : Lease) (reply : Option ℕ) : Option ℕ :=
  match reply with
  | .none => .none
  | some ep =>
    match op with
    | .renew => if ep≠old.epoch then .none else some ep
    | .grant => if old.epoch≠0 && ep ≠ old.epoch+1 then .none else some ep
    | .stop => if ep ≠ old.epoch+1 then .none else some ep

/-- Second section of `grantLocked`: the record installed after a confirmed reply. -/
def grantLockedEnd (op : TransitionOp) (p : Principal) (next : Lease) (ep : ℕ) : Lease :=
  { next with
    epoch := ep, unresolved := false
    hist := if op=.grant then next.hist.set p.name ep else next.hist }

/-- What the first section of `endLocked` decided. -/
inductive EndStart
  | unresolved
  | notHeld
  | send (next : Lease)
  deriving DecidableEq, Repr

/-- First section of `endLocked`. -/
def endLockedStart (l : Option Lease) (now : ℤ) : EndStart :=
  match l with
  | .none => .notHeld
  | some l =>
    if l.unresolved then .unresolved
    else if !l.held then .notHeld
    else .send { l with
      recent := l.recent.set l.holder now
      holder := "", kind := .none, host := "", mode := .none
      checkoutUntilMs := 0, pending := false, dirty := false }

/-- Second section of `endLocked`. -/
def endLockedEnd (next : Lease) (ep : ℕ) : Lease := { next with epoch := ep, unresolved := false }

/-- `touch` on one record: an admitted write by the principal named `p`. -/
def touchLease (p : String) (now : ℤ) (l : Lease) : Lease :=
  if !l.unresolved && l.holder=p then { l with lastWriteMs := now, dirty := true } else l

/-- `heartbeat` on one record. -/
def heartbeatLease (p : String) (pending : ℕ → Bool) (now : ℤ) (l : Lease) : Lease :=
  if l.holder≠p then l
  else if l.unresolved then l
  else { l with lastHbMs := now, pending := pending l.proj, dirty := true }

inductive ExpiryReason
  | checkoutEnded | orphaned | idle
  deriving DecidableEq, Repr

/-- Why the lease should end now (`none`: it stays). -/
def expiryReason (l : Lease) (now : ℤ) (c : LeaseCfg) : Option ExpiryReason :=
  if !l.held || l.unresolved then .none
  else if l.mode=.checkout then
    if l.checkoutUntilMs > 0 && now ≥ l.checkoutUntilMs then some .checkoutEnded else .none
  else if now-l.liveMs ≥ c.orphan then some .orphaned
  else if now-l.lastWriteMs ≥ c.idle && !l.pending then some .idle
  else .none

/-- The fields `flushDirty` sends for one record. -/
structure FlushFields where
  write : ℤ
  hb : ℤ
  pending : Bool
  deriving DecidableEq, Repr

def flushFields (l : Lease) : FlushFields := ⟨l.lastWriteMs,l.lastHbMs,l.pending⟩

def flushable (l : Lease) : Bool := l.dirty && l.held && !l.unresolved

/-- Last section of `flushDirty` for one record: a failed reply quarantines it, and a record
touched meanwhile stays dirty. -/
def flushEnd (l : Lease) (sent : FlushFields) (ok : Bool) : Lease :=
  if !ok then { l with unresolved := true }
  else if flushFields l=sent then { l with dirty := false }
  else l

@[simp] theorem touchLease_tenure (p : String) (now : ℤ) (l : Lease) : (touchLease p now l).tenure=l.tenure := by
  unfold touchLease
  split <;> rfl

@[simp] theorem heartbeatLease_tenure (p : String) (pending : ℕ → Bool) (now : ℤ) (l : Lease) :
    (heartbeatLease p pending now l).tenure=l.tenure := by
  unfold heartbeatLease
  split
  · rfl
  · split <;> rfl

theorem flushEnd_identity (l : Lease) (sent : FlushFields) (ok : Bool) :
    (flushEnd l sent ok).holder=l.holder ∧ (flushEnd l sent ok).epoch=l.epoch ∧ (flushEnd l sent ok).mode=l.mode := by
  unfold flushEnd
  split
  · exact ⟨rfl,rfl,rfl⟩
  · split <;> exact ⟨rfl,rfl,rfl⟩

/-- A renewal asked for with mode auto leaves the mode of the tenure alone. -/
theorem renewedLease_identity (l : Lease) (now checkoutMax : ℤ) (mode : LeaseMode) (ttl : ℤ) :
    (renewedLease l now checkoutMax mode ttl).holder=l.holder ∧ (renewedLease l now checkoutMax mode ttl).epoch=l.epoch ∧
    (mode=.auto → (renewedLease l now checkoutMax mode ttl).mode=l.mode) := by
  unfold renewedLease
  split
  · rename_i h
    exact ⟨rfl,rfl,fun ha => by rw [h] at ha; cases ha⟩
  · exact ⟨rfl,rfl,fun _ => rfl⟩

theorem transition_renew {old : Lease} {reply : Option ℕ} {ep : ℕ}
    (h : transition .renew old reply=some ep) : ep=old.epoch := by
  cases reply with
  | none => cases h
  | some e =>
    simp only [transition] at h
    split_ifs at h
    · rename_i he
      cases h
      simpa using he

/-- A transition in flight is a renewal of the principal's own tenure, or the grant of a free
project. -/
theorem grantLockedStart_send {l next : Lease} {p : Principal} {now checkoutMax ttl : ℤ}
    {mode : LeaseMode} {label : String} {op : TransitionOp}
    (h : grantLockedStart l p now checkoutMax mode ttl label=.send op next) : (l.held=true ∧ l.holder=p.name ∧ op=.renew ∧
      next=renewedLease l now checkoutMax mode ttl) ∨
    (l.held=false ∧ op=.grant ∧ next=grantedLease l p now mode ttl label) := by
  unfold grantLockedStart at h
  split at h
  · cases h
  split at h
  · cases h
  rename_i hother
  split at h
  · rename_i hheld
    cases h
    refine .inl ⟨hheld,?_,rfl,rfl⟩
    simpa [hheld] using hother
  · rename_i hheld
    cases h
    exact .inr ⟨by simpa using hheld,rfl,rfl⟩

theorem endLockedStart_send {l next : Lease} {now : ℤ}
    (h : endLockedStart (some l) now = .send next) : l.held = true ∧ next.holder = "" := by
  simp only [endLockedStart] at h
  split_ifs at h
  · rename_i hheld
    cases h
    exact ⟨by simpa using hheld,rfl⟩

end JuiceMount.RespProxy
