import JuiceMount.Lib.Transition
import JuiceMount.Metadata.ReconcileDir

/-! The calls of the mirror that update a row in place or expect a token, and all calls together as steps
that may fail at any statement. A transaction that fails is rolled back, so that a call of one
transaction that fails changes nothing; a call of several keeps what it has committed. -/
namespace JuiceMount.Metadata.Mirror
open JuiceMount.Lists

/-- `Version.Revision++`, unless the version is zero. -/
def Entry.bumped (e : Entry) : Entry :=
  match e.version with
  | .row p incarnation revision => { e with version := .row p incarnation (revision+1) }
  | _ => e

namespace Store

def amend (s : Store) (identity : ℕ) (f : Entry → Entry) : Store :=
  let change := fun e : Entry => if e.cacheIdentity=identity then f e else e
  { s with
    pathCache := s.pathCache.map (fun c => (c.1,change c.2))
    inodeCache := s.inodeCache.map (fun c => (c.1,change c.2))
    childrenIdx := s.childrenIdx.map (fun d => (d.1,d.2.map (fun c => (c.1,change c.2)))) }

def amendCached (s : Store) (p : TreePath) (f : Entry → Entry) : Store :=
  match s.pathCache.get? p with
  | none => s
  | some e => s.amend e.cacheIdentity f

/-- An UPDATE of the row of a path; the trigger counts its revision. -/
def updateRow (s : Store) (p : TreePath) (f : Row → Row) : Store :=
  match s.entries.get? p with
  | none => s
  | some r =>
    { s with
      entries := s.entries.set p { f r with incarnation := r.incarnation, revision := r.revision+1 }
      epoch := s.epoch+1 }

/-- mtime.Unix(), in nanoseconds. -/
def wholeSeconds (mtime : ℤ) : ℤ := mtime/1000000000*1000000000

def updateSize (s : Store) (p : TreePath) (size mtime : ℤ) : Store :=
  (s.updateRow p (fun r => { r with size := max r.size size, mtime := wholeSeconds mtime, mtimeNsecKnown := false })).amendCached p
    (fun e => { e with size := max e.size size, mtime := mtime, mtimeNsecKnown := false }.bumped)

def setSizeExactExpected (s : Store) (expected : MirrorToken) (size mtime : ℤ) : Option Store :=
  match expected with
  | .row p incarnation revision =>
    if size<0 || (s.pathCache.get? p).any (·.version≠expected) then none
    else
      match s.entries.get? p with
      | none => none
      | some r =>
        if r.incarnation=incarnation && r.revision=revision then
          let row := { r with size := size, mtime := wholeSeconds mtime, mtimeNsecKnown := false }
          let s := s.updateRow p (fun _ => row)
          some (s.publishEntry (s.loadEntryVersion (row.entryAt p)))
        else none
  | _ => none

def deleteExpected (s : Store) (expected : MirrorToken) : Option (Store × MirrorToken) :=
  match expected with
  | .row p _ _ =>
    if (s.pathCache.get? p).any (·.version≠expected) || !s.validateExpected expected then none
    else some ((s.deleteRow p).removeCached p,(s.deleteRow p).captureToken p)
  | _ => none

def clearRow (s : Store) (p : TreePath) : Store := s.updateRow p (fun r => { r with localOnly := false })

def clearCached (s : Store) (p : TreePath) : Store := s.amendCached p (fun e => { e with localOnly := false }.bumped)

/-- All batches are committed before the cache follows; a batch that fails ends the call. -/
def bulkClearLocalOnly (s : Store) (paths : List TreePath) (failsAt : Option ℕ) : Store :=
  match failsAt.filter (· < (chunks 500 paths).length) with
  | some k => ((chunks 500 paths).take k).flatten.foldl clearRow s
  | none => paths.foldl clearCached (paths.foldl clearRow s)

/-- UPDATE … WHERE path=? AND local_only=1, which must affect one row. -/
def scanClearRow (s : Store) (p : TreePath) : Option Store :=
  if (s.entries.get? p).any (·.localOnly) then some (s.clearRow p) else none

def scanClearCached (s : Store) (p : TreePath) : Store :=
  if (s.pathCache.get? p).any (·.localOnly) then s.clearCached p else s

def scanClearLocalOnlyBatch (s : Store) (paths : List TreePath) (expected : StoreEpoch) (obs : Observation) : Option Store :=
  if paths.isEmpty || scanMutationChunk<paths.length || s.captureStoreEpoch≠expected then none
  else
    let free := paths.filter (fun p => !obs.paths.contains p)
    (free.foldlM scanClearRow s).map (fun t => free.foldl scanClearCached t)

def scanUpsertBatch (s : Store) (batch : List Entry) (expected : StoreEpoch) (obs : Observation) (invalidate : List TreePath) :
    Option Store :=
  if batch.isEmpty || 500<batch.length then none else s.bulkInsertBatchWithEpoch batch (some expected) obs invalidate false

def reconcileUpsertBatch (s : Store) (batch : List Entry) (expected : StoreEpoch) (obs : Observation) : Option Store :=
  if batch.isEmpty || 500<batch.length then none else s.bulkInsertBatchWithEpoch batch (some expected) obs [] true

/-- BulkInsert whose batch `k` fails. -/
def bulkInsertFailing (s : Store) (entries : List Entry) (batchSize : ℤ) (k : ℕ) : Store :=
  s.bulkInsertBatches ((chunks (if batchSize≤0 then 500 else batchSize.toNat) entries).take k)

end Store

/-- The calls, with those that fail. `failed` is a call of one transaction that fails at a statement. -/
inductive CasOp
  | failed
  | call (op : StoreOp)
  | bulkInsertFailing (entries : List Entry) (batchSize : ℤ) (k : ℕ)
  | updateSize (p : TreePath) (size mtime : ℤ)
  | setSizeExactExpected (expected : MirrorToken) (size mtime : ℤ)
  | deleteExpected (expected : MirrorToken)
  | bulkClearLocalOnly (paths : List TreePath) (failsAt : Option ℕ)
  | scanUpsertBatch (batch : List Entry) (expected : StoreEpoch) (obs : Observation) (invalidate : List TreePath)
  | reconcileUpsertBatch (batch : List Entry) (expected : StoreEpoch) (obs : Observation)
  | scanClearLocalOnlyBatch (paths : List TreePath) (expected : StoreEpoch) (obs : Observation)
  | deletePathsConditional (entries : List Entry) (obs : Observation)

def casStep (s : Store) : CasOp → Store
  | .failed => s
  | .call op => storeStep s op
  | .bulkInsertFailing entries batchSize k => s.bulkInsertFailing entries batchSize k
  | .updateSize p size mtime => s.updateSize p size mtime
  | .setSizeExactExpected expected size mtime => (s.setSizeExactExpected expected size mtime).getD s
  | .deleteExpected expected => ((s.deleteExpected expected).map (·.1)).getD s
  | .bulkClearLocalOnly paths failsAt => s.bulkClearLocalOnly paths failsAt
  | .scanUpsertBatch batch expected obs invalidate => (s.scanUpsertBatch batch expected obs invalidate).getD s
  | .reconcileUpsertBatch batch expected obs => (s.reconcileUpsertBatch batch expected obs).getD s
  | .scanClearLocalOnlyBatch paths expected obs => (s.scanClearLocalOnlyBatch paths expected obs).getD s
  | .deletePathsConditional entries obs => (s.deletePathsConditional entries obs).getD s

end JuiceMount.Metadata.Mirror
