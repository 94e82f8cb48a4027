import JuiceMount.Lib.GoMap
import JuiceMount.Lib.SlashPath
import JuiceMount.Lib.Transition
import JuiceMount.Metadata.SpoolRows

/-! The custody ledger of the spool: one record per operation, advanced only from the exact record a caller
has seen, in transactions that also look at the spool rows and at the mirror. Those two change in any way
between the transactions. -/
namespace JuiceMount.Metadata.Custody
open SlashPath

abbrev Text := List Char

inductive Phase where
  | allocating
  | staged
  | checkpointPending
  | publishPending
  | published
  | canceled
  | quarantined
  deriving DecidableEq

structure SpoolCustody where
  operationID : Text
  sourceID : Text
  spoolID : ℤ
  spoolFile : Text
  sourceIdentity : Text
  storeID : Text
  incarnation : Text
  targetPath : Text
  targetRevision : ℤ
  epoch : ℤ := 1
  phase : Phase := .allocating
  stagePath : Text
  stageIdentity : Text := []
  targetEOF : ℤ
  stageEOF : ℤ := 0
  verifiedEnd : ℤ := 0
  punchedEnd : ℤ := 0
  publicIdentity : Text := []
  publishedRevision : ℤ := 0
  sourceCleanupClaimed : Bool := false
  stageCleanupClaimed : Bool := false
  deriving DecidableEq

structure MirrorToken where
  path : Text := []
  incarnation : Text := []
  revision : ℤ := 0
  storeID : Text := []
  epoch : ℤ := 0
  deriving DecidableEq

def MirrorToken.isZero (v : MirrorToken) : Bool := v.incarnation=[] && v.storeID=[]

structure MirrorRow where
  incarnation : Text
  revision : ℤ
  size : ℤ
  deriving DecidableEq

/-- The columns of a spool row that custody looks at. -/
structure SourceRow where
  nfsPath : Text
  spoolFile : Text
  size : ℤ
  punchedEnd : ℤ
  drainState : DrainState
  cloneHold : Text := []
  deriving DecidableEq

/-- The incarnation a spool row is bound to, and whether the binding is in its phase 'bound'. -/
structure Binding where
  incarnation : Text
  bound : Bool
  deriving DecidableEq

/-- What is not the ledger. -/
structure Surroundings where
  rows : GoMap ℤ SourceRow := []
  bindings : GoMap ℤ Binding := []
  entries : GoMap Text MirrorRow := []
  mirrorStoreID : Text := []
  mirrorEpoch : ℤ := 0
  deriving DecidableEq

structure Db extends Surroundings where
  custody : GoMap Text SpoolCustody := []

/-- 32 lower-case hexadecimal digits. -/
def validCustodyID (id : Text) : Bool := id.length = 32 && id.all "0123456789abcdef".toList.contains

/-- path.Clean leaves a relative name alone exactly if it has no empty, '.' or '..' component. -/
def plainComponents (name : Text) : Bool :=
  (splitSlash name).all fun c => c≠[] && c ≠ ['.'] && c ≠ ['.','.']

def validCustodyPath (name : Text) : Bool := plainComponents name && !name.contains '\x00'

def validPrivatePath (name : Text) : Bool :=
  match name with
  | '/'::rest => (rest=[] || plainComponents rest) && !name.contains '\x00'
  | _ => false

def validIdentity (identity : Text) : Bool := identity≠[] && !identity.contains '\x00'

/-- What scanCustody accepts. -/
def SpoolCustody.valid (c : SpoolCustody) : Bool :=
  validCustodyID c.operationID && validCustodyID c.sourceID && c.operationID≠c.sourceID &&
  0<c.spoolID && validPrivatePath c.spoolFile && validIdentity c.sourceIdentity &&
  c.storeID≠[] && c.incarnation≠[] && validCustodyPath c.targetPath &&
  1≤c.targetRevision && 1≤c.epoch && validPrivatePath c.stagePath &&
  c.stagePath≠c.spoolFile && 0≤c.targetEOF && 0≤c.stageEOF &&
  0≤c.verifiedEnd && c.verifiedEnd≤c.stageEOF && c.verifiedEnd≤c.targetEOF &&
  0≤c.punchedEnd && c.punchedEnd≤c.verifiedEnd

namespace Db

def loadCustody (db : Db) (operationID : Text) : Option SpoolCustody :=
  (db.custody.get? operationID).filter SpoolCustody.valid

def captureToken (db : Db) (path : Text) : MirrorToken :=
  match db.entries.get? path with
  | some e => { path, incarnation := e.incarnation, revision := e.revision }
  | none => { path, storeID := db.mirrorStoreID, epoch := db.mirrorEpoch }

def validateExpected (db : Db) (expected : MirrorToken) : Bool :=
  !expected.isZero && db.captureToken expected.path=expected

/-- The row holds the source of the operation and is bound to its incarnation. -/
def isSource (db : Db) (c : SpoolCustody) (r : SourceRow) : Bool :=
  r.spoolFile=c.spoolFile && r.nfsPath=c.targetPath && r.punchedEnd≤c.punchedEnd &&
  (r.drainState=.writing || r.drainState=.ready || r.drainState=.draining) && r.cloneHold=[] &&
  (db.bindings.get? c.spoolID).any fun b => b.incarnation=c.incarnation && b.bound

def custodySourceExists (db : Db) (c : SpoolCustody) : Bool := (db.rows.get? c.spoolID).any (db.isSource c)

/-- The row has its final size, which is the target of the operation. -/
def isFinal (c : SpoolCustody) (r : SourceRow) : Bool :=
  r.size=c.targetEOF && r.punchedEnd=c.punchedEnd && r.drainState=.draining && r.cloneHold=[]

def custodySourceFinalized (db : Db) (c : SpoolCustody) : Bool :=
  db.custodySourceExists c && (db.rows.get? c.spoolID).any (isFinal c)

/-- The UNIQUE columns beside the key. -/
def clashes (db : Db) (c : SpoolCustody) : Bool :=
  db.custody.any fun e => e.1≠c.operationID &&
    (e.2.sourceID=c.sourceID || e.2.spoolID=c.spoolID || e.2.stagePath=c.stagePath)

/-- The statement has found its row, which is the record the transaction has read. -/
def store (db : Db) (c : SpoolCustody) : Option Db :=
  if db.clashes c then none else some { db with custody := db.custody.set c.operationID c }

def beginSpoolCustody (db : Db) (id : ℤ) (row : SourceRow) (expected : MirrorToken)
    (operationID sourceID sourceIdentity stagePath : Text) : Option (Db × SpoolCustody) :=
  let c : SpoolCustody :=
    { operationID, sourceID, spoolID := id, spoolFile := row.spoolFile, sourceIdentity,
      storeID := db.mirrorStoreID, incarnation := expected.incarnation, targetPath := row.nfsPath,
      targetRevision := expected.revision, stagePath, targetEOF := row.size }
  if !validCustodyID operationID || !validCustodyID sourceID || operationID=sourceID ||
      !validIdentity sourceIdentity || !validPrivatePath stagePath || !validPrivatePath row.spoolFile ||
      stagePath=row.spoolFile || !validCustodyPath row.nfsPath || row.size<0 ||
      expected.path≠row.nfsPath || expected.incarnation=[] || !db.validateExpected expected ||
      !db.custodySourceExists c || db.mirrorStoreID=[] || (db.custody.get? operationID).isSome then none
  else (db.store c).bind fun db' => (db'.loadCustody operationID).map (db',·)

def advanceCustody (db : Db) (expected : SpoolCustody) (fn : SpoolCustody → Option Db) : Option (Db × SpoolCustody) :=
  if !validCustodyID expected.operationID || expected.epoch<1 then none
  else
    match db.loadCustody expected.operationID with
    | none => none
    | some current =>
      if current≠expected then none
      else
        (fn current).bind fun db' => (db'.loadCustody expected.operationID).bind fun next =>
          if next.epoch ≠ current.epoch+1 then none else some (db',next)

end Db

namespace SpoolCustody

def bound (c : SpoolCustody) (stageIdentity : Text) : SpoolCustody :=
  { c with phase := .staged, stageIdentity, epoch := c.epoch+1 }

def checkpoint (c : SpoolCustody) (sourceEOF stageEOF verifiedEnd punchedEnd : ℤ) : SpoolCustody :=
  { c with phase := .checkpointPending, stageEOF, verifiedEnd, punchedEnd, targetEOF := sourceEOF, epoch := c.epoch+1 }

def confirmed (c : SpoolCustody) : SpoolCustody := { c with phase := .staged, epoch := c.epoch+1 }

def retargeted (c : SpoolCustody) (id : ℤ) (row : SourceRow) (target : MirrorToken) : SpoolCustody :=
  { c with
    spoolID := id
    targetPath := row.nfsPath
    targetRevision := target.revision
    targetEOF := max row.size c.targetEOF
    epoch := c.epoch+1 }

/-- The record of which the source is looked for before a retarget. -/
def candidate (c : SpoolCustody) (id : ℤ) (row : SourceRow) : SpoolCustody :=
  { c with spoolID := id, targetPath := row.nfsPath, targetEOF := max row.size c.targetEOF }

def claimed (c : SpoolCustody) : SpoolCustody := { c with epoch := c.epoch+1 }

def publishing (c : SpoolCustody) : SpoolCustody := { c with phase := .publishPending, epoch := c.epoch+1 }

def publishedAs (c : SpoolCustody) (publicIdentity : Text) (revision : ℤ) : SpoolCustody :=
  { c with phase := .published, publicIdentity, publishedRevision := revision, epoch := c.epoch+1 }

def quarantine (c : SpoolCustody) : SpoolCustody := { c with phase := .quarantined, epoch := c.epoch+1 }

end SpoolCustody

/-- The private object of a cleanup claim; any other text is refused. -/
inductive PrivateObject where
  | source
  | stage
  deriving DecidableEq

namespace SpoolCustody

def identityOf (c : SpoolCustody) : PrivateObject → Text
  | .source => c.sourceIdentity
  | .stage => c.stageIdentity

def isCleanupClaimed (c : SpoolCustody) : PrivateObject → Bool
  | .source => c.sourceCleanupClaimed
  | .stage => c.stageCleanupClaimed

def cleaned (c : SpoolCustody) : PrivateObject → SpoolCustody
  | .source => { c with sourceCleanupClaimed := true, epoch := c.epoch+1 }
  | .stage => { c with stageCleanupClaimed := true, epoch := c.epoch+1 }

end SpoolCustody

namespace Db

def bindSpoolStage (db : Db) (expected : SpoolCustody) (sourceIdentity stageIdentity : Text) : Option (Db × SpoolCustody) :=
  if !validIdentity stageIdentity || !validIdentity sourceIdentity then none
  else
    db.advanceCustody expected fun c =>
      if c.phase≠.allocating || c.sourceIdentity≠sourceIdentity || !db.custodySourceExists c then none
      else db.store (c.bound stageIdentity)

def prepareSpoolCheckpoint (db : Db) (expected : SpoolCustody) (sourceIdentity stageIdentity : Text)
    (sourceEOF stageEOF verifiedEnd punchedEnd : ℤ) : Option (Db × SpoolCustody) :=
  db.advanceCustody expected fun c =>
    if c.phase≠.staged || c.sourceIdentity≠sourceIdentity || c.stageIdentity≠stageIdentity ||
        verifiedEnd<c.verifiedEnd || punchedEnd<c.punchedEnd || verifiedEnd<punchedEnd ||
        sourceEOF<c.targetEOF || stageEOF<c.stageEOF || stageEOF<verifiedEnd ||
        sourceEOF<stageEOF || sourceEOF<verifiedEnd ||
        (sourceEOF=c.targetEOF && verifiedEnd=c.verifiedEnd && punchedEnd=c.punchedEnd) ||
        !db.custodySourceExists c then none
    else db.store (c.checkpoint sourceEOF stageEOF verifiedEnd punchedEnd)

def confirmSpoolCheckpoint (db : Db) (expected : SpoolCustody) (sourceIdentity stageIdentity : Text) :
    Option (Db × SpoolCustody) :=
  db.advanceCustody expected fun c =>
    if c.phase≠.checkpointPending || c.sourceIdentity≠sourceIdentity || c.stageIdentity≠stageIdentity ||
        !db.custodySourceExists c || (db.rows.get? c.spoolID).map (·.punchedEnd)≠some c.punchedEnd then none
    else db.store c.confirmed

def retargetSpoolCustody (db : Db) (expected : SpoolCustody) (id : ℤ) (row : SourceRow) (target : MirrorToken) :
    Option (Db × SpoolCustody) :=
  if !validCustodyPath row.nfsPath || target.path≠row.nfsPath || target.incarnation=[] then none
  else
    db.advanceCustody expected fun c =>
      if (c.phase≠.allocating && c.phase≠.staged) || target.incarnation≠c.incarnation ||
          row.spoolFile≠c.spoolFile || row.size<0 || row.punchedEnd≠c.punchedEnd || !db.validateExpected target ||
          !db.custodySourceExists (c.candidate id row) then none
      else db.store (c.retargeted id row target)

/-- The row that ClaimPunchedSpool takes from 'ready' to 'draining'. -/
def isPunched (c : SpoolCustody) (r : SourceRow) : Bool :=
  r.nfsPath=c.targetPath && r.spoolFile=c.spoolFile && r.size=c.targetEOF &&
  r.punchedEnd=c.punchedEnd && r.drainState=.ready && r.cloneHold=[]

def claimPunchedSpool (db : Db) (expected : SpoolCustody) (target : MirrorToken) : Option (Db × SpoolCustody) :=
  db.advanceCustody expected fun c =>
    if c.phase≠.staged || c.punchedEnd≤0 || c.stageIdentity=[] || c.verifiedEnd<c.punchedEnd ||
        target.path≠c.targetPath || target.incarnation≠c.incarnation || target.revision≠c.targetRevision ||
        !db.validateExpected target || !db.custodySourceExists c then none
    else
      match (db.rows.get? c.spoolID).filter (isPunched c) with
      | none => none
      | some r => store { db with rows := db.rows.set c.spoolID { r with drainState := .draining } } c.claimed

def beginCustodyPublish (db : Db) (expected : SpoolCustody) (target : MirrorToken) (sourceIdentity stageIdentity : Text) :
    Option (Db × SpoolCustody) :=
  db.advanceCustody expected fun c =>
    if c.phase≠.staged || target.path≠c.targetPath || target.incarnation≠c.incarnation ||
        target.revision≠c.targetRevision || c.sourceIdentity≠sourceIdentity || c.stageIdentity≠stageIdentity ||
        c.stageEOF≠c.targetEOF || c.verifiedEnd≠c.targetEOF || !db.validateExpected target ||
        !db.custodySourceFinalized c then none
    else db.store c.publishing

def confirmCustodyPublished (db : Db) (expected : SpoolCustody) (published : MirrorToken) (publicIdentity : Text) :
    Option (Db × SpoolCustody) :=
  if !validIdentity publicIdentity then none
  else
    db.advanceCustody expected fun c =>
      if c.phase≠.publishPending || published.path≠c.targetPath || published.incarnation≠c.incarnation ||
          published.revision≤c.targetRevision || c.verifiedEnd≠c.targetEOF || c.stageEOF≠c.targetEOF ||
          !db.validateExpected published || (db.entries.get? c.targetPath).map (·.size)≠some c.targetEOF then none
      else db.store (c.publishedAs publicIdentity published.revision)

def cancelSpoolCustody (db : Db) (expected : SpoolCustody) : Option (Db × SpoolCustody) :=
  db.advanceCustody expected fun c =>
    if c.phase=.published || c.phase=.canceled || c.phase=.quarantined then none else db.store c.quarantine

def claimSpoolCleanup (db : Db) (expected : SpoolCustody) (published : MirrorToken) (publicIdentity : Text)
    (object : PrivateObject) (privateIdentity : Text) : Option (Db × SpoolCustody) :=
  db.advanceCustody expected fun c =>
    if c.phase≠.published || c.publicIdentity≠publicIdentity || !validIdentity publicIdentity ||
        published.path≠c.targetPath || published.incarnation≠c.incarnation ||
        published.revision≠c.publishedRevision || c.verifiedEnd≠c.targetEOF || c.stageEOF≠c.targetEOF ||
        c.stageIdentity=[] || !db.validateExpected published || privateIdentity ≠ c.identityOf object ||
        c.isCleanupClaimed object then none
    else db.store (c.cleaned object)

end Db

/-- A call that advances an operation from the record `expected`. -/
inductive Advance where
  | bind (sourceIdentity stageIdentity : Text)
  | prepare (sourceIdentity stageIdentity : Text) (sourceEOF stageEOF verifiedEnd punchedEnd : ℤ)
  | confirm (sourceIdentity stageIdentity : Text)
  | retarget (id : ℤ) (row : SourceRow) (target : MirrorToken)
  | claimPunched (target : MirrorToken)
  | beginPublish (target : MirrorToken) (sourceIdentity stageIdentity : Text)
  | confirmPublished (published : MirrorToken) (publicIdentity : Text)
  | cancel
  | claimCleanup (published : MirrorToken) (publicIdentity : Text) (object : PrivateObject) (privateIdentity : Text)
  deriving DecidableEq

def Db.advance (db : Db) (expected : SpoolCustody) : Advance → Option (Db × SpoolCustody)
  | .bind sourceIdentity stageIdentity => db.bindSpoolStage expected sourceIdentity stageIdentity
  | .prepare sourceIdentity stageIdentity sourceEOF stageEOF verifiedEnd punchedEnd =>
    db.prepareSpoolCheckpoint expected sourceIdentity stageIdentity sourceEOF stageEOF verifiedEnd punchedEnd
  | .confirm sourceIdentity stageIdentity => db.confirmSpoolCheckpoint expected sourceIdentity stageIdentity
  | .retarget id row target => db.retargetSpoolCustody expected id row target
  | .claimPunched target => db.claimPunchedSpool expected target
  | .beginPublish target sourceIdentity stageIdentity => db.beginCustodyPublish expected target sourceIdentity stageIdentity
  | .confirmPublished published publicIdentity => db.confirmCustodyPublished expected published publicIdentity
  | .cancel => db.cancelSpoolCustody expected
  | .claimCleanup published publicIdentity object privateIdentity =>
    db.claimSpoolCleanup expected published publicIdentity object privateIdentity

inductive Op where
  | begin (id : ℤ) (row : SourceRow) (expected : MirrorToken) (operationID sourceID sourceIdentity stagePath : Text)
  | advance (expected : SpoolCustody) (call : Advance)
  | change (surroundings : Surroundings)
  deriving DecidableEq

/-- The database with the history of what was granted: the source row that each publication began with,
the confirmed publications, the cancelled operations, those between a prepare and its confirm, and the
cleanup claims. -/
structure World where
  db : Db := {}
  finalRows : GoMap Text (Option SourceRow) := []
  confirmed : List Text := []
  cancelled : List Text := []
  prepared : List Text := []
  cleanups : List (Text × PrivateObject) := []

def World.record (w : World) (expected : SpoolCustody) (db : Db) : Advance → World
  | .prepare .. => { w with db, prepared := expected.operationID::w.prepared }
  | .confirm .. => { w with db, prepared := w.prepared.filter (· ≠ expected.operationID) }
  | .beginPublish .. =>
    { w with db, finalRows := w.finalRows.set expected.operationID (w.db.rows.get? expected.spoolID) }
  | .confirmPublished .. => { w with db, confirmed := expected.operationID::w.confirmed }
  | .cancel => { w with db, cancelled := expected.operationID::w.cancelled }
  | .claimCleanup _ _ object _ => { w with db, cleanups := (expected.operationID,object)::w.cleanups }
  | _ => { w with db }

def World.step (w : World) : Op → Option World
  | .begin id row expected operationID sourceID sourceIdentity stagePath =>
    some ((w.db.beginSpoolCustody id row expected operationID sourceID sourceIdentity stagePath).elim w
      fun granted => { w with db := granted.1 })
  | .advance expected call => some ((w.db.advance expected call).elim w fun granted => w.record expected granted.1 call)
  | .change surroundings => some { w with db := { w.db with toSurroundings := surroundings } }

end JuiceMount.Metadata.Custody
