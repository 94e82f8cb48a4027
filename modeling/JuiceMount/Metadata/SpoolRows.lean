import Mathlib.Tactic

/-! The spool_entries table: the row operations of the spool store as their SQL statements and the
three retirement triggers make them, for rows without a replacement witness. An operation that is
refused leaves the table as it is. -/
namespace JuiceMount.Metadata

abbrev Path := List Char

inductive DrainState
  | writing | ready | draining | done | failed
  deriving DecidableEq, Repr

structure SpoolRow where
  id : ℕ
  nfsPath : Path
  spoolFile : String
  size : ℕ := 0
  sha256 : List UInt8 := []
  drainState : DrainState := .writing
  pauseSince : ℤ := 0
  retryAfter : ℤ := 0
  waitProject : String := ""
  cloneHold : String := ""
  qualificationHold : String := ""
  punchedEnd : ℕ := 0
  retiredBy : ℕ := 0
  createdAt : ℤ := 0
  deriving DecidableEq, Repr

namespace SpoolRow

/-- drain_state IN ('writing','ready','draining'). -/
def active (r : SpoolRow) : Bool :=
  match r.drainState with
  | .writing | .ready | .draining => true
  | .done | .failed => false

def accepted (r : SpoolRow) : Bool :=
  match r.drainState with
  | .ready | .draining | .done => true
  | .failed => r.sha256.length=32
  | .writing => false

end SpoolRow

def under (dir p : Path) : Bool := p=dir || (dir++['/']).isPrefixOf p

def updateWhere (c : SpoolRow → Bool) (f : SpoolRow → SpoolRow) (rows : List SpoolRow) : List SpoolRow :=
  rows.map (fun r => if c r then f r else r)

def retire (by_ : ℕ) (c : SpoolRow → Bool) (rows : List SpoolRow) : List SpoolRow :=
  updateWhere (fun r => r.retiredBy=0 && c r) (fun r => { r with retiredBy := by_ }) rows

def retireOlder (n : SpoolRow) (rows : List SpoolRow) : List SpoolRow :=
  retire n.id (fun r => r.nfsPath=n.nfsPath && r.id<n.id) rows

/-- DELETE of one row, with spool_retire_accepted_delete. -/
def deleteRow (old : SpoolRow) (rows : List SpoolRow) : List SpoolRow :=
  let rest := rows.filter (·.id≠old.id)
  if old.retiredBy=0 && old.accepted then retireOlder old rest else rest

def newerExists (rows : List SpoolRow) (r : SpoolRow) : Bool :=
  rows.any (fun n => n.nfsPath=r.nfsPath && r.id<n.id && n.retiredBy=0)

/-- The rows that MarkDraining claims and ListReady returns; `noProjectLease` ignores project waits. -/
def claimable (rows : List SpoolRow) (now : ℤ) (noProjectLease : Bool) (r : SpoolRow) : Bool :=
  r.drainState = .ready && r.punchedEnd = 0 && r.cloneHold = "" && r.qualificationHold = "" &&
  (noProjectLease || r.waitProject = "") && r.retiredBy = 0 && r.retryAfter ≤ now && !newerExists rows r

/-- Ids are AUTOINCREMENT: a deleted id does not come back. -/
structure SpoolTable where
  rows : List SpoolRow := []
  nextId : ℕ := 1
  deriving DecidableEq, Repr

namespace SpoolTable

def update (t : SpoolTable) (c : SpoolRow → Bool) (f : SpoolRow → SpoolRow) : SpoolTable :=
  { t with rows := updateWhere c f t.rows }

def setState (state : DrainState) (r : SpoolRow) : SpoolRow := { r with drainState := state }

def insertWithBase (t : SpoolTable) (path : Path) (file : String) (now : ℤ) : SpoolTable :=
  if t.rows.any (fun r => r.nfsPath=path && r.active && r.retiredBy=0) then t
  else if t.rows.any (·.spoolFile=file) then t
  else
    { rows := t.rows++[{ id := t.nextId, nfsPath := path, spoolFile := file, createdAt := now }]
      nextId := t.nextId+1 }

def markReady (t : SpoolTable) (id size : ℕ) (sha : List UInt8) : SpoolTable :=
  match t.rows.find? (fun r => r.id=id && r.drainState=.writing) with
  | none => t
  | some old =>
    let rows := updateWhere (fun r => r.id=id && r.drainState=.writing)
      (fun r => { r with drainState := .ready, size := size, sha256 := sha }) t.rows
    { t with rows := if old.retiredBy=0 then retireOlder old rows else rows }

def reopenReady (t : SpoolTable) (id : ℕ) : SpoolTable :=
  t.update (fun r => r.id=id && r.drainState=.ready && r.punchedEnd=0 && r.retiredBy=0) (setState .writing)

def markDraining (t : SpoolTable) (id : ℕ) (noProjectLease : Bool) (now : ℤ) : SpoolTable :=
  t.update (fun r => r.id=id && claimable t.rows now noProjectLease r)
    (fun r => { r with drainState := .draining, waitProject := if noProjectLease then "" else r.waitProject })

def markDone (t : SpoolTable) (id : ℕ) : SpoolTable :=
  t.update (fun r => r.id=id && r.retiredBy=0) (setState .done)

def batchMarkDone (t : SpoolTable) (id : ℕ) (path : Path) (file : String) (size : ℕ) : SpoolTable :=
  t.update (fun r => r.id=id && r.nfsPath=path && r.spoolFile=file && r.size=size &&
    r.drainState=.draining && r.punchedEnd=0 && r.retiredBy=0) (setState .done)

def markFailed (t : SpoolTable) (id : ℕ) : SpoolTable := t.update (·.id=id) (setState .failed)

def failClaimedDrain (t : SpoolTable) (id : ℕ) (path : Path) (file hold : String) : SpoolTable :=
  t.update (fun r => r.id=id && r.nfsPath=path && r.spoolFile=file && r.drainState=.draining && r.retiredBy=0)
    (fun r => { r with drainState := .failed, qualificationHold := hold })

def holdUnqualified (t : SpoolTable) (id : ℕ) (path : Path) (file reason : String) : SpoolTable :=
  t.update (fun r => r.id=id && r.nfsPath=path && r.spoolFile=file &&
      (r.drainState=.writing || r.drainState=.ready || r.drainState=.failed))
    (fun r => { r with drainState := .failed, qualificationHold := reason })

def requeueAfter (t : SpoolTable) (id : ℕ) (since due : ℤ) : SpoolTable :=
  t.update (fun r => r.id=id && r.drainState=.draining)
    (fun r => { r with
      drainState := .ready
      pauseSince := if r.pauseSince=0 then since else r.pauseSince
      retryAfter := due })

def deferReady (t : SpoolTable) (id : ℕ) (due : ℤ) : SpoolTable :=
  t.update (fun r => r.id=id && r.drainState=.draining) (fun r => { r with drainState := .ready, retryAfter := due })

def holdForProject (t : SpoolTable) (id : ℕ) (project : String) : SpoolTable :=
  if project = "" then t
  else t.update (fun r => r.id=id && r.drainState=.draining)
    (fun r => { r with drainState := .ready, waitProject := project })

def releaseProjectHold (t : SpoolTable) (project : String) : SpoolTable :=
  t.update (·.waitProject = project) (fun r => { r with waitProject := "" })

def setPunchedEnd (t : SpoolTable) (id stop : ℕ) : SpoolTable :=
  t.update (·.id=id) (fun r => { r with punchedEnd := max r.punchedEnd stop })

def resetForRetry (t : SpoolTable) (id : ℕ) : SpoolTable :=
  t.update (fun r => r.id = id && r.drainState = .failed && r.qualificationHold = "" && r.retiredBy = 0 &&
      !newerExists t.rows r)
    (fun r => { r with drainState := .ready, pauseSince := 0, retryAfter := 0 })

def resumeFailedPaused (t : SpoolTable) (id : ℕ) : SpoolTable :=
  t.update (fun r => r.id = id && r.drainState = .failed && 0 < r.pauseSince && r.qualificationHold = "" &&
      r.retiredBy=0 && !newerExists t.rows r) (setState .ready)

def deleteOne (c : SpoolRow → Bool) (t : SpoolTable) (id : ℕ) : SpoolTable :=
  match t.rows.find? (fun r => r.id=id && c r) with
  | none => t
  | some old => { t with rows := deleteRow old t.rows }

def delete (t : SpoolTable) (id : ℕ) : SpoolTable := t.deleteOne (fun _ => true) id

/-- The cut-off and the completion holds select `old` among the done rows. -/
def deleteDone (t : SpoolTable) (old : List ℕ) : SpoolTable := old.foldl (deleteOne (·.drainState=.done)) t

def refuseLatestFailedUnder (t : SpoolTable) (dir : Path) : Bool :=
  t.rows.any (fun f => f.drainState=.failed && f.retiredBy=0 && under dir f.nfsPath && !newerExists t.rows f)

def deleteActiveByPath (t : SpoolTable) (path : Path) : SpoolTable :=
  if t.refuseLatestFailedUnder path then t
  else
    let ids := (t.rows.filter (fun r => r.nfsPath=path && r.active)).map (·.id)
    let last := ids.foldl max 0
    let rows := retire last (fun r => r.nfsPath=path && r.id<last) t.rows
    ids.foldl (deleteOne (fun _ => true)) { t with rows := rows }

/-- One row of a rename; `none` is the conflict that rolls the transaction back. A draining row is
deleted and comes back as a new ready row. -/
def moveRow (oldPath newPath : Path) (t : SpoolTable) (r : SpoolRow) : Option SpoolTable :=
  let target := newPath++r.nfsPath.drop oldPath.length
  if t.rows.any (fun x => x.nfsPath=target && x.retiredBy=0 && x.active) then none
  else
    let rows := retire r.id (fun x => (x.nfsPath=r.nfsPath && x.id<r.id) || x.nfsPath=target) t.rows
    if r.drainState=.draining then
      let n : SpoolRow := { r with id := t.nextId, nfsPath := target, drainState := .ready, waitProject := "" }
      let rows := deleteRow r rows++[n]
      some { rows := if n.retiredBy=0 then retireOlder n rows else rows, nextId := t.nextId+1 }
    else
      some { t with rows := updateWhere (·.id = r.id) (fun x => { x with nfsPath := target, waitProject := "" }) rows }

def moving (t : SpoolTable) (oldPath : Path) : List SpoolRow :=
  t.rows.filter (fun r => r.active && r.retiredBy=0 && under oldPath r.nfsPath)

/-- `order` is the order in which the SELECT yields the rows. -/
def migrateActivePaths (t : SpoolTable) (oldPath newPath : Path) (order : List SpoolRow) : SpoolTable :=
  if oldPath=[] || oldPath=newPath then t
  else if t.refuseLatestFailedUnder oldPath || t.refuseLatestFailedUnder newPath then t
  else (order.foldlM (moveRow oldPath newPath) t).getD t

def listReady (t : SpoolTable) (limit : ℕ) (includeWaiting : Bool) (now : ℤ) : List SpoolRow :=
  ((t.rows.filter (claimable t.rows now includeWaiting)).mergeSort (fun r r' => r.createdAt≤r'.createdAt)).take limit

end SpoolTable

inductive RowOp
  | insertWithBase (path : Path) (file : String) (now : ℤ)
  | markReady (id size : ℕ) (sha : List UInt8)
  | reopenReady (id : ℕ)
  | markDraining (id : ℕ) (noProjectLease : Bool) (now : ℤ)
  | markDone (id : ℕ)
  | batchMarkDone (id : ℕ) (path : Path) (file : String) (size : ℕ)
  | markFailed (id : ℕ)
  | failClaimedDrain (id : ℕ) (path : Path) (file hold : String)
  | holdUnqualified (id : ℕ) (path : Path) (file reason : String)
  | requeueAfter (id : ℕ) (since due : ℤ)
  | deferReady (id : ℕ) (due : ℤ)
  | holdForProject (id : ℕ) (project : String)
  | releaseProjectHold (project : String)
  | setPunchedEnd (id stop : ℕ)
  | resetForRetry (id : ℕ)
  | resumeFailedPaused (id : ℕ)
  | delete (id : ℕ)
  | deleteDone (old : List ℕ)
  | deleteActiveByPath (path : Path)
  | migrateActivePaths (oldPath newPath : Path) (order : List SpoolRow)
  deriving DecidableEq, Repr

def rowStep (t : SpoolTable) : RowOp → Option SpoolTable
  | .insertWithBase path file now => some (t.insertWithBase path file now)
  | .markReady id size sha => some (t.markReady id size sha)
  | .reopenReady id => some (t.reopenReady id)
  | .markDraining id noProjectLease now => some (t.markDraining id noProjectLease now)
  | .markDone id => some (t.markDone id)
  | .batchMarkDone id path file size => some (t.batchMarkDone id path file size)
  | .markFailed id => some (t.markFailed id)
  | .failClaimedDrain id path file hold => some (t.failClaimedDrain id path file hold)
  | .holdUnqualified id path file reason => some (t.holdUnqualified id path file reason)
  | .requeueAfter id since due => some (t.requeueAfter id since due)
  | .deferReady id due => some (t.deferReady id due)
  | .holdForProject id project => some (t.holdForProject id project)
  | .releaseProjectHold project => some (t.releaseProjectHold project)
  | .setPunchedEnd id stop => some (t.setPunchedEnd id stop)
  | .resetForRetry id => some (t.resetForRetry id)
  | .resumeFailedPaused id => some (t.resumeFailedPaused id)
  | .delete id => some (t.delete id)
  | .deleteDone old => some (t.deleteDone old)
  | .deleteActiveByPath path => some (t.deleteActiveByPath path)
  | .migrateActivePaths oldPath newPath order =>
    if order.isPerm (t.moving oldPath) then some (t.migrateActivePaths oldPath newPath order) else none

end JuiceMount.Metadata
