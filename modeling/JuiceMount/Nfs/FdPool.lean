import JuiceMount.Lib.GoMap
import JuiceMount.Lib.Transition

/-! The pool of file descriptors. A Get that misses registers its open, drops the lock for the system
call and takes it again; what changes the file behind a path drops or marks the entries it covers and
poisons the opens in flight. Every atomic section under the pool's lock is one step, and so are the
return of an open and a close outside the lock. -/
namespace JuiceMount.Nfs.Fd

/-- A slot of the pool: a path, for reading or for writing. -/
structure FdKey where
  path : List Char
  write : Bool
  deriving DecidableEq

/-- A descriptor is named by the moment at which its open was registered. -/
structure PoolEntry where
  fd : ℕ
  lastUsed : ℤ
  refCount : ℤ
  stale : Bool := false
  deriving DecidableEq

structure PendingRef where
  refs : ℤ := 0
  since : ℤ := 0
  deriving DecidableEq

structure OrphanEntry where
  fd : ℕ
  orphaned : ℤ
  deriving DecidableEq

structure OpenRec where
  key : FdKey
  poisoned : Bool := false
  deriving DecidableEq

def OpenRec.poison (covered : FdKey → Bool) (r : OpenRec) : OpenRec :=
  { r with poisoned := r.poisoned || covered r.key }

/-- A Get or GetWrite that missed: inside the system call, or back from it with or without a descriptor. -/
structure Getter where
  key : FdKey
  returned : Option Bool := none
  deriving DecidableEq

/-- What a Get of the slot that began at `began` was given. -/
structure Handout where
  key : FdKey
  began : ℕ
  fd : ℕ
  deriving DecidableEq

/-- The pool, the calls in flight and the descriptors of the process: the slot each was opened for, those
that are open, and those a call is about to close outside the lock. -/
structure FDPool where
  stopped : Bool := false
  entries : GoMap FdKey PoolEntry := []
  orphans : List OrphanEntry := []
  pendingRefs : GoMap FdKey PendingRef := []
  openInFlight : GoMap ℕ OpenRec := []
  getters : GoMap ℕ Getter := []
  openedFor : GoMap ℕ FdKey := []
  live : List ℕ := []
  closing : List ℕ := []
  handouts : List Handout := []
  clock : ℕ := 0

def fdIdleTimeout : ℤ := 2*60*10^9
def fdOrphanGrace : ℤ := 2*60*10^9

namespace FDPool

/-- A descriptor is closed on the spot, or taken out to be closed when the lock is released. -/
def shut (p : FDPool) (underLock : Bool) (fd : ℕ) : FDPool :=
  if underLock then { p with live := p.live.filter (· ≠ fd) } else { p with closing := fd::p.closing }

def serve (p : FDPool) (k : FdKey) (e : PoolEntry) (began : ℕ) (now : ℤ) : FDPool :=
  { p with
    entries := p.entries.set k { e with lastUsed := now, refCount := e.refCount+1 }
    handouts := ⟨k,began,e.fd⟩::p.handouts }

def displaceStaleLocked (p : FDPool) (k : FdKey) (e : PoolEntry) (now : ℤ) : FDPool :=
  if e.refCount≤0 then shut { p with entries := p.entries.erase k } true e.fd
  else
    { p with
      entries := p.entries.erase k
      orphans := p.orphans++[⟨e.fd,now⟩]
      pendingRefs := p.pendingRefs.set k ⟨(p.pendingRefs.getD k {}).refs+e.refCount,now⟩ }

def beginOpenLocked (p : FDPool) (k : FdKey) : FDPool :=
  { p with
    openInFlight := p.openInFlight.set p.clock { key := k }
    getters := p.getters.set p.clock { key := k } }

/-- The first section of Get and GetWrite. -/
def get (p : FDPool) (k : FdKey) (now : ℤ) : FDPool :=
  if p.stopped then p
  else
    match p.entries.get? k with
    | some e => if e.stale then (p.displaceStaleLocked k e now).beginOpenLocked k else p.serve k e p.clock now
    | none => p.beginOpenLocked k

/-- os.Open or os.OpenFile returns. The empty name opens nothing. -/
def openReturns (p : FDPool) (t : ℕ) (ok : Bool) : Option FDPool :=
  match p.getters.get? t with
  | some ⟨k,none⟩ =>
    if ok then
      if k.path=[] then none
      else
        some { p with
          getters := p.getters.set t ⟨k,some true⟩
          openedFor := p.openedFor.set t k
          live := t::p.live }
    else some { p with getters := p.getters.set t ⟨k,some false⟩ }
  | _ => none

def endOpenLocked (p : FDPool) (t : ℕ) : FDPool :=
  { p with openInFlight := p.openInFlight.erase t, getters := p.getters.erase t }

def insert (p : FDPool) (k : FdKey) (t : ℕ) (now : ℤ) (poisoned : Bool) : FDPool :=
  { p with
    entries := p.entries.set k ⟨t,now,1+(p.pendingRefs.getD k {}).refs,poisoned⟩
    pendingRefs := p.pendingRefs.erase k
    handouts := ⟨k,t,t⟩::p.handouts }

/-- The section of Get and GetWrite after a successful open. -/
def settle (p : FDPool) (k : FdKey) (t : ℕ) (now : ℤ) (poisoned : Bool) : FDPool :=
  if p.stopped then p.shut false t
  else
    match p.entries.get? k with
    | some e => if e.stale then (p.displaceStaleLocked k e now).insert k t now poisoned else (p.serve k e t now).shut false t
    | none => p.insert k t now poisoned

/-- The section of Get and GetWrite after the open. -/
def finish (p : FDPool) (t : ℕ) (now : ℤ) : Option FDPool :=
  match p.getters.get? t with
  | some ⟨k,some ok⟩ =>
    let q := p.endOpenLocked t
    some (if ok then q.settle k t now ((p.openInFlight.get? t).any (·.poisoned)) else q)
  | _ => none

def poisonOpensLocked (p : FDPool) (covered : FdKey → Bool) : FDPool :=
  { p with openInFlight := p.openInFlight.map fun r => (r.1,r.2.poison covered) }

inductive Disposition where
  | keep
  | mark
  | drop
  deriving DecidableEq

/-- What becomes of an entry that a loop over the entries comes to. -/
def dispose (disposition : PoolEntry → Disposition) (underLock : Bool) (p : FDPool) (k : FdKey) : FDPool :=
  match p.entries.get? k with
  | none => p
  | some e =>
    match disposition e with
    | .keep => p
    | .mark => { p with entries := p.entries.set k { e with stale := true } }
    | .drop => shut { p with entries := p.entries.erase k } underLock e.fd

def invalidateEntryLocked (e : PoolEntry) : Disposition :=
  if e.refCount≤0 then .drop else if e.stale then .keep else .mark

def flushStale (p : FDPool) : FDPool :=
  let q := p.poisonOpensLocked fun _ => true
  q.entries.keys.foldl (dispose invalidateEntryLocked true) q

def slots (path : List Char) (includeWrite : Bool) : List FdKey :=
  if includeWrite then [⟨path,false⟩,⟨path,true⟩] else [⟨path,false⟩]

def invalidatePath (p : FDPool) (path : List Char) (includeWrite : Bool) : FDPool :=
  if path=[] then p
  else
    ((slots path includeWrite).foldl (dispose invalidateEntryLocked false) p).poisonOpensLocked
      fun k => k.path=path && (includeWrite || !k.write)

/-- strings.TrimSuffix(root,"/") -/
def trimSlash (root : List Char) : List Char :=
  if root.getLast? = some '/' then root.dropLast else root

def inScope (root : List Char) (includeWrite : Bool) (k : FdKey) : Bool :=
  (includeWrite || !k.write) && (k.path=root || (trimSlash root++['/']).isPrefixOf k.path)

def invalidateTree (p : FDPool) (root : List Char) (includeWrite : Bool) : FDPool :=
  if root=[] || root = ['/'] then p
  else
    ((p.entries.keys.filter (inScope root includeWrite)).foldl (dispose invalidateEntryLocked false) p).poisonOpensLocked
      (inScope root includeWrite)

/-- A release pays one ref of the entry at the key, or of the debt where there is none. -/
def release (p : FDPool) (k : FdKey) : FDPool :=
  match p.entries.get? k with
  | some e => if 0<e.refCount then { p with entries := p.entries.set k { e with refCount := e.refCount-1 } } else p
  | none =>
    match p.pendingRefs.get? k with
    | none => p
    | some r =>
      if r.refs-1≤0 then { p with pendingRefs := p.pendingRefs.erase k }
      else { p with pendingRefs := p.pendingRefs.set k { r with refs := r.refs-1 } }

def idle (now : ℤ) (e : PoolEntry) : Disposition :=
  if e.refCount≤0 ∧ (e.stale=true ∨ fdIdleTimeout < now-e.lastUsed) then .drop else .keep

def evict (p : FDPool) (now : ℤ) : FDPool :=
  let q := p.entries.keys.foldl (dispose (idle now) false) p
  { q with
    closing := (q.orphans.filter (fun o => fdOrphanGrace < now-o.orphaned)).map (·.fd)++q.closing
    orphans := q.orphans.filter fun o => ¬fdOrphanGrace < now-o.orphaned
    pendingRefs := q.pendingRefs.filter fun r => ¬fdOrphanGrace < now-r.2.since }

def stop (p : FDPool) : FDPool :=
  if p.stopped then p
  else
    { p with
      stopped := true
      entries := []
      orphans := []
      pendingRefs := []
      closing := p.entries.map (·.2.fd)++p.orphans.map (·.fd)++p.closing }

def close (p : FDPool) (fd : ℕ) : Option FDPool :=
  if fd∈p.closing then some { p with live := p.live.filter (· ≠ fd), closing := p.closing.erase fd } else none

end FDPool

inductive PoolOp where
  | get (k : FdKey) (now : ℤ)
  | openReturns (t : ℕ) (ok : Bool)
  | finish (t : ℕ) (now : ℤ)
  | release (k : FdKey)
  | invalidatePath (path : List Char) (includeWrite : Bool)
  | invalidateTree (root : List Char) (includeWrite : Bool)
  | flushStale
  | evict (now : ℤ)
  | stop
  | close (fd : ℕ)
  deriving DecidableEq

namespace FDPool

def apply (p : FDPool) : PoolOp → Option FDPool
  | .get k now => some (p.get k now)
  | .openReturns t ok => p.openReturns t ok
  | .finish t now => p.finish t now
  | .release k => some (p.release k)
  | .invalidatePath path includeWrite => some (p.invalidatePath path includeWrite)
  | .invalidateTree root includeWrite => some (p.invalidateTree root includeWrite)
  | .flushStale => some p.flushStale
  | .evict now => some (p.evict now)
  | .stop => some p.stop
  | .close fd => p.close fd

def tick (p : FDPool) : FDPool := { p with clock := p.clock+1 }

def step (p : FDPool) (op : PoolOp) : Option FDPool := (p.apply op).map tick

end FDPool

end JuiceMount.Nfs.Fd
