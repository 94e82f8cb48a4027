import JuiceMount.Lib.GoMap
import JuiceMount.Lib.Lists

/-! The metadata mirror: the SQLite table of entries with its epoch and row tokens, and the three maps
in memory over it. A path is the list of its names, and the root is the empty one. Two entries are the
same object exactly if their publication number is the same. Calls of SQLite succeed. -/
namespace JuiceMount.Metadata.Mirror
open JuiceMount.Lists

abbrev Name := List Char

abbrev TreePath := List Name

/-- path.Dir of a clean path; "." is the empty path. -/
def parentPath (p : TreePath) : TreePath := p.dropLast

def below (d p : TreePath) : Bool := d.isPrefixOf p && p≠d

/-- path.Base of a clean path. -/
def baseName (p : TreePath) : Name := p.getLastD []

def streamPartialPrefix : Name := ".juicemount-streaming-".toList

def streamPartialName (name : Name) : Bool :=
  streamPartialPrefix.length<name.length && streamPartialPrefix.isPrefixOf name

/-- An observation of a path: of its row, or of its absence at an epoch. -/
inductive MirrorToken
  | zero
  | row (path : TreePath) (incarnation revision : ℕ)
  | absent (path : TreePath) (epoch : ℕ)
  deriving DecidableEq, Repr

def MirrorToken.path : MirrorToken → TreePath
  | .zero => []
  | .row p _ _ | .absent p _ => p

structure Entry where
  path : TreePath
  isDir : Bool
  size : ℤ
  inode : ℕ
  mtime : ℤ := 0
  mtimeNsecKnown : Bool := false
  localOnly : Bool := false
  version : MirrorToken := .zero
  cacheIdentity : ℕ := 0
  deriving DecidableEq, Repr

structure Row where
  isDir : Bool
  size : ℤ
  inode : ℕ
  mtime : ℤ
  mtimeNsecKnown : Bool
  localOnly : Bool
  incarnation : ℕ
  revision : ℕ
  deriving DecidableEq, Repr

def Row.entryAt (r : Row) (p : TreePath) : Entry where
  path := p
  isDir := r.isDir
  size := r.size
  inode := r.inode
  mtime := r.mtime
  mtimeNsecKnown := r.mtimeNsecKnown
  localOnly := r.localOnly

structure StoreEpoch where
  epoch : ℕ
  cacheGeneration : ℕ
  deriving DecidableEq, Repr

structure Store where
  entries : GoMap TreePath Row := []
  epoch : ℕ := 0
  nextIncarnation : ℕ := 1
  pathCache : GoMap TreePath Entry := []
  inodeCache : GoMap ℕ Entry := []
  childrenIdx : GoMap TreePath (GoMap TreePath Entry) := []
  cacheGeneration : ℕ := 0
  nextCacheIdentity : ℕ := 0
  deriving DecidableEq, Repr

/-- What an accepted publication protects. -/
structure Observation where
  paths : List TreePath := []
  inodes : List ℕ := []

namespace Store

def captureStoreEpoch (s : Store) : StoreEpoch := ⟨s.epoch,s.cacheGeneration⟩

def captureToken (s : Store) (p : TreePath) : MirrorToken :=
  match s.entries.get? p with
  | some r => .row p r.incarnation r.revision
  | none => .absent p s.epoch

def validateExpected (s : Store) : MirrorToken → Bool
  | .zero => false
  | .row p incarnation revision => s.captureToken p = .row p incarnation revision
  | .absent p epoch => s.captureToken p = .absent p epoch

def addToChildrenIdx (s : Store) (e : Entry) : Store :=
  { s with childrenIdx := s.childrenIdx.set (parentPath e.path) ((s.childrenIdx.getD (parentPath e.path) []).set e.path e) }

def removeFromChildrenIdx (s : Store) (e : Entry) : Store :=
  match s.childrenIdx.get? (parentPath e.path) with
  | none => s
  | some children =>
    if (children.erase e.path).isEmpty then { s with childrenIdx := s.childrenIdx.erase (parentPath e.path) }
    else { s with childrenIdx := s.childrenIdx.set (parentPath e.path) (children.erase e.path) }

/-- The inode of a displaced entry leads to the entry that took its path. -/
def evictPathOrphan (s : Store) (old new : Entry) : Store :=
  if old.inode=new.inode then s
  else
    match s.inodeCache.get? old.inode with
    | none => s
    | some cur =>
      if cur.cacheIdentity=old.cacheIdentity then { s with inodeCache := s.inodeCache.set old.inode new } else s

def evictInodeOrphan (s : Store) (new : Entry) : Store :=
  match s.inodeCache.get? new.inode with
  | none => s
  | some prev =>
    if prev.path=new.path then s
    else { s.removeFromChildrenIdx prev with pathCache := s.pathCache.erase prev.path }

def displace (s : Store) (e : Entry) : Store :=
  match s.pathCache.get? e.path with
  | none => s
  | some old => (s.removeFromChildrenIdx old).evictPathOrphan old e

def install (s : Store) (e : Entry) : Store :=
  addToChildrenIdx { s with
    inodeCache := s.inodeCache.set e.inode e
    pathCache := s.pathCache.set e.path e } e

def publishEntry (s : Store) (e : Entry) : Store :=
  let s := { s with nextCacheIdentity := s.nextCacheIdentity+1 }
  let e := { e with cacheIdentity := s.nextCacheIdentity }
  ((s.displace e).evictInodeOrphan e).install e

/-- The row of an upsert: the incarnation stays with the inode and the type. -/
def upsertedRow (s : Store) (e : Entry) : Row where
  isDir := e.isDir
  size := e.size
  inode := e.inode
  mtime := e.mtime
  mtimeNsecKnown := e.mtimeNsecKnown
  localOnly := e.localOnly
  incarnation :=
    match s.entries.get? e.path with
    | some r => if r.inode=e.inode && r.isDir=e.isDir then r.incarnation else s.nextIncarnation
    | none => s.nextIncarnation
  revision :=
    match s.entries.get? e.path with
    | some r => r.revision+1
    | none => 1

def upsert (s : Store) (e : Entry) : Store :=
  { s with
    entries := s.entries.set e.path (s.upsertedRow e)
    epoch := s.epoch+1
    nextIncarnation := s.nextIncarnation+1 }

def loadEntryVersion (s : Store) (e : Entry) : Entry := { e with version := s.captureToken e.path }

def publishExpected (s : Store) (expected : MirrorToken) (e : Entry) : Option Store :=
  let current :=
    match expected with
    | .zero => false
    | .row p _ _ | .absent p _ => p=e.path
  let conflict := (s.pathCache.get? e.path).any (·.version≠expected)
  if !current || streamPartialName (baseName e.path) || conflict || !s.validateExpected expected then none
  else
    let s := s.upsert e
    some (s.publishEntry (s.loadEntryVersion e))

def insert (s : Store) (e : Entry) : Store :=
  if e.version≠.zero then (s.publishExpected e.version e).getD s
  else if streamPartialName (baseName e.path) then s
  else
    let s := s.upsert e
    s.publishEntry (s.loadEntryVersion e)

/-- `preparedConflict`: a prepared creation holds the path, one above it or one below it. -/
def insertToCache (s : Store) (e : Entry) (preparedConflict : Bool) : Store :=
  if e.version≠.zero || streamPartialName (baseName e.path) || preparedConflict then s
  else { s.publishEntry e with cacheGeneration := s.cacheGeneration+1 }

def removeCached (s : Store) (p : TreePath) : Store :=
  match s.pathCache.get? p with
  | none => s
  | some e =>
    let inodeCache :=
      if (s.inodeCache.get? e.inode).any (·.cacheIdentity=e.cacheIdentity) then s.inodeCache.erase e.inode
      else s.inodeCache
    { s.removeFromChildrenIdx e with inodeCache, pathCache := s.pathCache.erase p }

def deleteRow (s : Store) (p : TreePath) : Store :=
  match s.entries.get? p with
  | none => s
  | some _ => { s with entries := s.entries.erase p, epoch := s.epoch+1 }

def delete (s : Store) (p : TreePath) : Store := (s.deleteRow p).removeCached p

def deleteFromCache (s : Store) (p : TreePath) : Store :=
  { s.removeCached p with cacheGeneration := s.cacheGeneration+1 }

def heldPaths (obs : Observation) (batch : List Entry) : List TreePath :=
  obs.paths++(batch.filter (fun e => obs.inodes.contains e.inode)).map (·.path)

/-- One entry of a batch in its transaction; the cache is as it was before the batch. -/
def upsertEntry (held : List TreePath) (s : Store × List Entry) (e : Entry) : Option (Store × List Entry) :=
  if streamPartialName (baseName e.path) || held.contains e.path then some s
  else
    let current :=
      match e.version with
      | .zero => true
      | .row p _ _ | .absent p _ =>
        p=e.path && (s.1.pathCache.get? e.path).all (·.version=e.version) && s.1.validateExpected e.version
    if !current then none
    else
      let t := s.1.upsert e
      some (t,s.2++[t.loadEntryVersion e])

def publishAll (s : Store) (committed : List Entry) : Store := committed.foldl publishEntry s

def batchRefused (s : Store) (batch : List Entry) (expected : Option StoreEpoch) (held : List TreePath)
    (invalidate : List TreePath) (reconcile : Bool) : Bool :=
  expected.any (· ≠ s.captureStoreEpoch) ||
  (reconcile && !held.isEmpty &&
    batch.any (fun e => e.isDir && !streamPartialName (baseName e.path) && !held.contains e.path)) ||
  invalidate.any (fun p => !held.contains p && !(batch.any (·.path=p) &&
    ((s.pathCache.get? p).isSome || (s.entries.get? p).isSome)))

/-- The rows of a batch, with the entries that are to be published; `none` rolls it back. -/
def commitBatch (s : Store) (batch : List Entry) (expected : Option StoreEpoch) (obs : Observation)
    (invalidate : List TreePath) (reconcile : Bool) : Option (Store × List Entry) :=
  let held := if expected.isSome then heldPaths obs batch else []
  if s.batchRefused batch expected held invalidate reconcile then none
  else batch.foldlM (upsertEntry held) (s,[])

def bulkInsertBatchWithEpoch (s : Store) (batch : List Entry) (expected : Option StoreEpoch) (obs : Observation)
    (invalidate : List TreePath) (reconcile : Bool) : Option Store :=
  (s.commitBatch batch expected obs invalidate reconcile).map (fun c => c.1.publishAll c.2)

def bulkInsertBatch (s : Store) (batch : List Entry) : Option Store := s.bulkInsertBatchWithEpoch batch none {} [] false

def bulkInsertBatches : Store → List (List Entry) → Store
  | s,[] => s
  | s,batch::batches =>
    match s.bulkInsertBatch batch with
    | none => s
    | some t => bulkInsertBatches t batches

def bulkInsert (s : Store) (entries : List Entry) (batchSize : ℤ) : Store :=
  s.bulkInsertBatches (chunks (if batchSize≤0 then 500 else batchSize.toNat) entries)

def scanMutationChunk : ℕ := 500

/-- One path of a prune chunk may go: it has a row of the type that is cached, and a directory has no
child outside of the chunk. The LIMIT of the child query is above the size of a chunk. -/
def scanDeletable (s : Store) (paths : List TreePath) (p : TreePath) : Bool :=
  match s.entries.get? p with
  | none => false
  | some r =>
    (s.pathCache.get? p).all (·.isDir=r.isDir) &&
    (!r.isDir || ((s.childrenIdx.getD p []).all (fun c => paths.contains c.1) &&
      s.entries.all (fun c => parentPath c.1≠p || paths.contains c.1)))

def scanDeletePathsBatch (s : Store) (paths : List TreePath) (expected : StoreEpoch) (obs : Observation) : Option Store :=
  if paths.isEmpty || scanMutationChunk<paths.length || !decide paths.Nodup || s.captureStoreEpoch≠expected ||
      paths.any obs.paths.contains || !paths.all (s.scanDeletable paths) then none
  else some ((paths.foldl deleteRow s |> paths.foldl removeCached))

def movedRows (s : Store) (oldDir : TreePath) (includeRoot : Bool) : List (TreePath × Row) :=
  s.entries.filter (fun c => below oldDir c.1 || (includeRoot && c.1=oldDir))

/-- The tokens of the cached paths of a subtree are those of the table. -/
def subtreeCurrent (s : Store) (d : TreePath) (includeRoot : Bool) : Bool :=
  s.pathCache.all (fun c => !(below d c.1 || (includeRoot && c.1=d)) || s.validateExpected c.2.version)

def rootCurrent (s : Store) (token : MirrorToken) : Bool :=
  (s.pathCache.get? token.path).all (·.version=token) && s.validateExpected token

/-- A moved row keeps its incarnation; the trigger counts an update that leaves the revision as it was. -/
def retag (s : Store) (p : TreePath) (r : Row) : Store :=
  match s.entries.get? p with
  | none => s
  | some row =>
    { s with
      entries := s.entries.set p { row with
        incarnation := r.incarnation
        revision := if r.revision+1=row.revision then row.revision+1 else r.revision+1 }
      epoch := s.epoch+1 }

def moveRow (oldDir newDir : TreePath) (c : Store × List Entry) (m : TreePath × Row) : Store × List Entry :=
  let e := m.2.entryAt (newDir++m.1.drop oldDir.length)
  let t := (c.1.upsert e).retag e.path m.2
  (t,c.2++[t.loadEntryVersion e])

def renameMirror (s : Store) (oldDir newDir : TreePath) (roots : List MirrorToken) (includeRoot : Bool) :
    Option (Store × List Entry) :=
  if oldDir=newDir || below oldDir newDir || !s.subtreeCurrent oldDir includeRoot || !s.subtreeCurrent newDir includeRoot ||
      !roots.all s.rootCurrent || (includeRoot && (s.movedRows oldDir includeRoot).isEmpty) then none
  else
    let moved := s.movedRows oldDir includeRoot
    let c := moved.foldl (moveRow oldDir newDir) ((moved.map (·.1)).foldl deleteRow s,[])
    some ((moved.map (·.1)).foldl removeCached c.1,c.2)

def renameSubtreeSync (s : Store) (oldDir newDir : TreePath) : Option (Store × List Entry) :=
  s.renameMirror oldDir newDir [] false

def renameExpected (s : Store) (source destination : MirrorToken) : Option (Store × List Entry) :=
  s.renameMirror source.path destination.path [source,destination] true

def lookupByInode (s : Store) (inode : ℕ) : Option Entry := s.inodeCache.get? inode

def lookupByPath (s : Store) (p : TreePath) : Option Entry := s.pathCache.get? p

def listChildren (s : Store) (p : TreePath) : List Entry := (s.childrenIdx.getD p []).map (·.2)

end Store

/-- The calls of the store. -/
inductive StoreOp
  | insert (e : Entry)
  | insertToCache (e : Entry) (preparedConflict : Bool)
  | delete (p : TreePath)
  | deleteFromCache (p : TreePath)
  | bulkInsert (entries : List Entry) (batchSize : ℤ)
  | publishExpected (expected : MirrorToken) (e : Entry)
  | scanDeletePathsBatch (paths : List TreePath) (expected : StoreEpoch) (obs : Observation)
  | renameSubtreeSync (oldDir newDir : TreePath)
  | renameExpected (source destination : MirrorToken)

def publishMoved (s : Store) (moved : Option (Store × List Entry)) : Store :=
  match moved with
  | none => s
  | some c => c.1.publishAll c.2

def storeStep (s : Store) : StoreOp → Store
  | .insert e => s.insert e
  | .insertToCache e preparedConflict => s.insertToCache e preparedConflict
  | .delete p => s.delete p
  | .deleteFromCache p => s.deleteFromCache p
  | .bulkInsert entries batchSize => s.bulkInsert entries batchSize
  | .publishExpected expected e => (s.publishExpected expected e).getD s
  | .scanDeletePathsBatch paths expected obs => (s.scanDeletePathsBatch paths expected obs).getD s
  | .renameSubtreeSync oldDir newDir => publishMoved s (s.renameSubtreeSync oldDir newDir)
  | .renameExpected source destination => publishMoved s (s.renameExpected source destination)

end JuiceMount.Metadata.Mirror
