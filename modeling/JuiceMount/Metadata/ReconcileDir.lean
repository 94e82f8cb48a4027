import JuiceMount.Lib.Int64
import JuiceMount.Metadata.Mirror

/-! `reconcileDir`: one directory of the backend is read and its children are mirrored beneath the path
that the store has for its inode; children that are gone are pruned behind the guards. What the call
meets outside of the store is in `ReconcileEnv`, and the store is left as it is where the call gives up. -/
namespace JuiceMount.Metadata.Mirror
open JuiceMount.Lists Int64

/-- What a bounded Lstat says. -/
inductive Lstat
  | absent | present | timeout
  deriving DecidableEq, Repr

def scanInternalNamespaces : List Name := [".trash".toList,".juicemount".toList]

def scanFilteredPath (p : TreePath) : Bool := p.head?.any scanInternalNamespaces.contains

def scanFilteredDescendant (p : TreePath) : Bool := 1<p.length && scanFilteredPath p

/-- An AppleDouble sidecar. -/
def appleDouble (name : Name) : Bool := ['.','_'].isPrefixOf name

def bigEndian (bytes : List UInt8) : ℕ := bytes.foldl (fun n b => n*256+b.toNat) 0

/-- The inode and the type of a child; of the inode the low word is read. -/
def decodeDirChild (val : List UInt8) : Option (ℕ × UInt8) :=
  if val.length≠9 then none else some (bigEndian (val.drop 5),val.headD 0)

def decodeInodeAttrTime (attr : List UInt8) : Option (ℤ × ℤ) :=
  if attr.length<59 then none
  else
    let nsec := bigEndian ((attr.drop 31).take 4)
    if 1000000000≤nsec then none
    else some (int64 (bigEndian ((attr.drop 23).take 8))*1000000000+nsec,int64 (bigEndian ((attr.drop 51).take 8)))

/-- The zero time, in nanoseconds since 1970. -/
def zeroTime : ℤ := -62135596800*1000000000

structure DirChild where
  inode : ℕ
  path : TreePath
  isDir : Bool

/-- `raw` is the content of d < inode>, and `none` a read that failed; `attrs` are the attributes that were
read. `obs` is what accepted publications protect. The token of the call is valid at the start as
`admitted` says, for `admittedChunks` chunks and for the prune. `pinned` is `none` when the pins cannot
be read. -/
structure ReconcileEnv where
  admitted : Bool := true
  raw : Option (List (Name × List UInt8))
  attrs : ℕ → Option (List UInt8)
  obs : Observation := {}
  admittedChunks : ℕ
  pruneAdmitted : Bool := true
  degraded : Bool := false
  identity : Bool := true
  identityFresh : Bool := true
  spool : TreePath → Bool := fun _ => false
  spoolAgain : TreePath → Bool := fun _ => false
  pinned : Option (List TreePath) := some []
  fuseRoot : Bool := true
  lstat : TreePath → Lstat := fun _ => .present

def reconcileChildren (parent : TreePath) (raw : List (Name × List UInt8)) : List DirChild :=
  raw.filterMap (fun c =>
    match decodeDirChild c.2 with
    | none => none
    | some (inode,ft) =>
      if scanFilteredPath (parent++[c.1]) then none else some ⟨inode,parent++[c.1],ft=2⟩)

def freshNames (raw : List (Name × List UInt8)) : List Name :=
  (raw.filter (fun c => (decodeDirChild c.2).isSome)).map (·.1)

/-- The entry of a child that is new or has changed. A child without readable attributes is left alone,
a directory that is not known apart. -/
def reconcileChildEntry (attrs : ℕ → Option (List UInt8)) (s : Store) (c : DirChild) : Option Entry :=
  match (attrs c.inode).bind decodeInodeAttrTime,s.lookupByPath c.path with
  | none,some _ => none
  | none,none =>
    if c.isDir then some { path := c.path, isDir := true, size := 0, inode := c.inode, mtime := zeroTime } else none
  | some (mtime,size),existing =>
    let e : Entry :=
      { path := c.path, isDir := c.isDir, size := size, inode := c.inode, mtime := mtime, mtimeNsecKnown := true }
    match existing with
    | none => some e
    | some old =>
      if old.mtime=e.mtime && old.mtimeNsecKnown=e.mtimeNsecKnown && old.size=e.size && old.inode=e.inode &&
          !old.localOnly then none
      else some e

def buildReconcileChildEntries (children : List DirChild) (attrs : ℕ → Option (List UInt8)) (s : Store) : List Entry :=
  children.filterMap (reconcileChildEntry attrs s)

/-- The chunks in order, with whether all of them were published. -/
def applyReconcileUpserts (obs : Observation) : ℕ → Store → List (List Entry) → Store × Bool
  | _,s,[] => (s,true)
  | 0,s,_::_ => (s,false)
  | n+1,s,chunk::chunks =>
    match s.bulkInsertBatchWithEpoch chunk (some s.captureStoreEpoch) obs [] true with
    | none => (s,false)
    | some t => applyReconcileUpserts obs n t chunks

def subtreeLevels (s : Store) : ℕ → List Entry → List Entry
  | 0,_ => []
  | fuel+1,level =>
    let next := (level.filter (·.isDir)).flatMap (fun e => s.listChildren e.path)
    next++subtreeLevels s fuel next

/-- Every entry below a path, breadth first. There are no more levels than cached paths. -/
def collectSubtreeEntries (s : Store) (root : TreePath) : List Entry :=
  s.listChildren root++subtreeLevels s s.pathCache.length (s.listChildren root)

/-- A captured entry is still what the table and the cache have, and a directory has no other child. -/
def Store.conditionallyDeletable (s : Store) (entries : List Entry) (e : Entry) : Bool :=
  s.validateExpected e.version && (s.pathCache.get? e.path).all (·.version=e.version) &&
  (!e.isDir || (s.entries.all (fun c => parentPath c.1≠e.path || entries.any (·.path=c.1)) &&
    (s.childrenIdx.getD e.path []).all (fun c => entries.any (fun x => x.path=c.1 && x.version=c.2.version))))

def Store.deletePathsConditional (s : Store) (entries : List Entry) (obs : Observation) : Option Store :=
  let paths := entries.map (·.path)
  if entries.any (fun e => e.version=.zero || e.version.path≠e.path) || !decide paths.Nodup ||
      paths.any obs.paths.contains || !entries.all (s.conditionallyDeletable entries) then none
  else
    let cached := (entries.filter (·.isDir)).map (·.path)++(entries.filter (!·.isDir)).map (·.path)
    some (cached.foldl Store.removeCached (paths.foldl Store.deleteRow s))

/-- The children that are not in the fresh listing and may be pruned at all. -/
def pruneCandidates (children : List Entry) (fresh : List Name) : List Entry :=
  children.filter (fun c => !fresh.contains (baseName c.path) && !c.localOnly && !appleDouble (baseName c.path) &&
    !scanFilteredDescendant c.path)

/-- The entries without those that are protected, or above one that is. -/
def spareProtected (isProtected : Entry → Bool) (toDelete : List Entry) : List Entry :=
  toDelete.filter (fun e => !(toDelete.filter isProtected).any (fun x => e.path.isPrefixOf x.path))

/-- More than a quarter of the probes timed out, and four at least. -/
def fuseDegraded (lstat : TreePath → Lstat) (candidates : List Entry) : Bool :=
  let timeouts := candidates.countP (fun c => lstat c.path=.timeout)
  4≤timeouts && candidates.length < timeouts*4

def scopedPrune (env : ReconcileEnv) (s : Store) (parent : TreePath) (fresh : List Name) : Store :=
  if (s.listChildren parent).isEmpty || env.degraded || !env.identity then s
  else
    match env.pinned with
    | none => s
    | some pinned =>
      let candidates := (pruneCandidates (s.listChildren parent) fresh).filter
        (fun c => !env.spool c.path && !pinned.contains c.path)
      if env.fuseRoot && fuseDegraded env.lstat candidates then s
      else
        let verified := candidates.filter (fun c => !env.fuseRoot || env.lstat c.path=.absent)
        let toDelete := spareProtected (fun e => e.localOnly || pinned.contains e.path || env.spoolAgain e.path)
          (verified.flatMap (fun c => c::collectSubtreeEntries s c.path))
        if toDelete.isEmpty || !env.identityFresh || !env.pruneAdmitted then s
        else (s.deletePathsConditional toDelete env.obs).getD s

/-- The path whose children d < inode> has; the root is inode 1. -/
def reconcilePath (s : Store) (dirInode : ℕ) : Option TreePath :=
  if dirInode=1 then some [] else (s.lookupByInode dirInode).map (·.path)

def reconcileDir (env : ReconcileEnv) (s : Store) (dirInode : ℕ) : Store :=
  if !env.admitted then s
  else
    match reconcilePath s dirInode,env.raw with
    | some parent,some raw =>
      if scanFilteredPath parent then s
      else
        let toUpsert := buildReconcileChildEntries (reconcileChildren parent raw) env.attrs s
        match applyReconcileUpserts env.obs env.admittedChunks s (chunks 500 toUpsert) with
        | (t,true) => scopedPrune env t parent (freshNames raw)
        | (t,false) => t
    | _,_ => s

end JuiceMount.Metadata.Mirror
