import JuiceMount.RespProxy.SliceScope

/-! `Guard.Check`: the command gate, the classes that depend on the rest of the unit, the cleanup
records tied to what the unit itself writes, and the key-class gate. -/
namespace JuiceMount.RespProxy

/-- What an admitted unit teaches the guard once Redis confirmed it. -/
inductive GuardEffect
  | zeroAdd (field : Bytes) (owner : String) (ino : ℕ)
  | zeroDone (field : Bytes)
  | delAdd (member : Bytes) (owner : String)
  | delDone (member : Bytes)
  | release (sids : List ℕ)
  | sliceUsed (ids : List ℕ) (persist : Bool)
  | dropDone (fields : List Bytes)
  deriving DecidableEq, Repr

def GuardEffect.ownedBy (owner : String) : GuardEffect → GuardEffect
  | .zeroAdd f _ ino => .zeroAdd f owner ino
  | .delAdd m _ => .delAdd m owner
  | e => e

/-- The guard's own records, and the gates with a state of their own that may refuse a write:
the test of CONFIG GET parameters, the hourly trash directory, counters and sessions. The session
gate answers the inodes it refers to and the sessions that end. -/
structure GuardEnv extends SliceEnv where
  zeroRefs : GoMap Bytes (String × ℕ) := []
  dropped : GoMap Bytes String := []
  pendingDel : GoMap Bytes String := []
  safeConfigGet : List Bytes → Bool := fun _ => false
  hourlyTrashCreate : DecisionUnit → Except Denial ℕ := fun _ => .error (deny .bgOnly)
  counterGate : Principal → DecisionUnit → Cmd → KeyWrite → Option Denial := fun _ _ _ _ => none
  sessionGate : Principal → DecisionUnit → Cmd → KeyWrite → Except Denial (List ℕ × List ℕ) :=
    fun _ _ _ _ => .error (deny .bgOnly)

def baseClass (k : KeyRef) (c : CmdName) : KeyClass :=
  match k.group with
  | .counter => .counter
  | .session => .session
  | .presence => .presence
  | .linkbench => .linkBench
  | .farm => .farm
  | .lease | .admin => .admin
  | .bgmark | .gc => .bg
  | .quota => if c=.hdel then .project else .admin
  | .dirstat =>
    match c with
    | .hincrby | .hincrbyfloat | .hset | .hsetnx | .hmset | .hdel => .project
    | _ => .admin
  | .inode | .dentry => .project
  | .channel => .channel
  | .unknown => .unknown

def serverPrincipal (p : Principal) : Bool := p.kind=.farm || p.kind=.manager || p.kind=.admin

/-- The admin and the background principal pass the slice and trash rules. -/
def trusted (p : Principal) : Bool := p.kind=.admin || p.kind=.bg

def hasDBOption (args : List Bytes) : Bool := (args.drop 3).any (fun a => upper a = ascii "DB")

def integerArgsOK (c : Cmd) : Bool :=
  let idx : List ℕ := match c.name with
    | .incrby | .decrby | .expire | .pexpire | .expireat | .pexpireat | .setex | .psetex => [2]
    | .ltrim => [2,3]
    | .hincrby => [3]
    | _ => []
  idx.all (fun i => i<c.args.length && (redisInt (c.args.getD i [])).isSome)

/-- The keys a write command writes, with their context-free classes. -/
def keyWrites (i : ℕ) (c : Cmd) : List KeyWrite :=
  c.keys.zipIdx.map (fun k =>
    { cmd := i, key := k.1, raw := c.raw.getD k.2 [], cls := baseClass k.1 c.name })

/-- Step 1 for one command: the keys it writes. -/
def commandGate (env : GuardEnv) (p : Principal) (i : ℕ) (c : Cmd) : Except Denial (List KeyWrite) :=
  let admin := p.kind=.admin
  match c.cls with
  | .read | .txn | .pubsub | .conn => .ok []
  | .admin =>
    if c.name=.config && !admin && !env.safeConfigGet c.args then .error (deny .adminOnly) else .ok []
  | .forbidden => .error (deny .adminOnly)
  | .adminW | .unknown => if admin then .ok [] else .error (deny .adminOnly)
  | .script => if serverPrincipal p then .ok [] else .error (deny .adminOnly)
  | .jmLocal => .error (deny .unknownKey)
  | .publish =>
    if admin || (c.args.length ≥ 2 && c.args.getD 1 [] = ascii "juicemount:metadata") then .ok []
    else .error (deny .adminOnly)
  | .write =>
    if c.name=.copy && !admin && hasDBOption c.args then .error (deny .adminOnly)
    else if !admin && !integerArgsOK c then .error (deny .unknownKey)
    else .ok (keyWrites i c)

/-- Step 1: the writes of the whole unit. -/
def gateWrites (env : GuardEnv) (p : Principal) (cmds : List Cmd) : Except Denial (List KeyWrite) :=
  Loop.each (fun ws (e : Cmd × ℕ) =>
    match commandGate env p e.2 e.1 with
    | .error d => .error d
    | .ok new => .ok (ws++new)) [] cmds.zipIdx

section Refine
variable (u : DecisionUnit)

def writesNonTrashDentry : Bool := u.writes.any (fun w => w.key.shape=.dentry && !w.key.trash)

def setsTrashRoot : Bool :=
  u.writes.any (fun w => w.key.shape=.dentry && w.key.trash && w.key.ino=trashInode &&
    isHSet (u.cmdOf w).name)

/-- The class of a write below the trash; `hourly` is the trash directory this unit may create. -/
def refineClass (p : Principal) (hourly : ℕ) (w : KeyWrite) : KeyClass :=
  let name := (u.cmdOf w).name
  let root := w.key.shape=.dentry && w.key.ino=trashInode
  if !w.key.trash || (w.key.group≠.inode && w.key.group≠.dentry) then w.cls
  else if writesNonTrashDentry u && root then .bg
  else if writesNonTrashDentry u && u.kind=.txn then .project
  else if u.kind=.bare && name=.setnx && w.key.shape=.inode && w.key.ino=trashInode then
    .trashCreate
  else if trusted p && u.kind=.txn && setsTrashRoot u &&
      ((root && isHSet name) || (w.key.shape=.inode && (name=.set || name=.setnx))) then
    .trashCreate
  else if hourly≠0 && (root || (w.key.shape=.inode && w.key.ino=hourly)) then .trashCreate
  else .bg

/-- A transaction that writes the trash root must be exactly the creation of an hourly directory. -/
def hourlyOf (env : GuardEnv) (p : Principal) : Except Denial ℕ :=
  if u.kind=.txn && !writesNonTrashDentry u && setsTrashRoot u && !trusted p then
    if p.kind=.webdav then .error (deny .principalReadonly) else env.hourlyTrashCreate u
  else .ok 0

end Refine

section Cleanup
variable (env : GuardEnv) (u : DecisionUnit)

/-- What `anchorCleanup` has collected: the scope, the inodes referred to and the effects. -/
structure CleanupAcc where
  sc : SliceScope
  refs : List ℕ := []
  effects : List GuardEffect := []
  deriving DecidableEq, Repr

/-- One field of a sliceRef write. -/
def anchorField (c : Cmd) (acc : CleanupAcc) (f : SliceField) : Except Denial CleanupAcc :=
  if c.name = .hset && c.args.length = 4 && c.args.getD 3 [] = ascii "0" then
    match acc.sc.pushed.get? f.raw with
    | none => .error (deny .bgOnly)
    | some ino =>
      .ok { acc with refs := addNew acc.refs ino, effects := acc.effects++[.zeroAdd f.raw "" ino] }
  else if c.name=.hincrby then
    match redisInt (c.args.getD 3 []) with
    | none => .error (deny .bgOnly)
    | some n =>
      if n=0 || n = -2^63 then .error (deny .bgOnly)
      else if n<0 then
        .ok { acc with sc := { acc.sc with dec := acc.sc.dec.tally f.raw (-n) } }
      else
        match acc.sc.resolve env.toSliceEnv u f.raw with
        | .error d => .error d
        | .ok (sc,ino) => .ok { acc with sc := sc, refs := addNew acc.refs ino }
  else .error (deny .bgOnly)

/-- A delSlices write: its records are deferred decrements. -/
def anchorDelSlices (c : Cmd) (acc : CleanupAcc) : Except Denial CleanupAcc :=
  if c.name≠.hset || c.args.length≠4 then .error (deny .bgOnly)
  else
    let v := c.args.getD 3 []
    match delSliceField (c.args.getD 2 []) with
    | none => .error (deny .bgOnly)
    | some id =>
      if v.length=0 || v.length%12≠0 then .error (deny .bgOnly)
      else
        match acc.sc.pushedID.get? id with
        | none => .error (deny .bgOnly)
        | some ino =>
          .ok { acc with
            sc := { acc.sc with
              dec := (delSliceRecords v).foldl (fun m s => m.tally (sliceKeyOf s) 1) acc.sc.dec }
            refs := addNew acc.refs ino }

def anchorWrite (acc : CleanupAcc) (w : KeyWrite) : Except Denial CleanupAcc :=
  let c := u.cmdOf w
  if w.key.group≠.gc then .ok acc
  else
    match w.key.shape with
    | .global .delfiles | .global .detachedNodes =>
      match cleanupMembers c with
      | none | some [] => .error (deny .bgOnly)
      | some members =>
        if members.all (fun n => acc.sc.touched.contains n) then
          .ok { acc with
            refs := members.foldl addNew acc.refs
            effects := acc.effects++(if w.key.shape = .global .delfiles && c.name=.zadd then
              (everySecond (c.args.drop 3)).map (fun m => .delAdd m "") else []) }
        else .error (deny .bgOnly)
    | .global .sliceRef =>
      match sliceRefFields c with
      | none | some [] => .error (deny .bgOnly)
      | some fields => Loop.each (anchorField env u c) acc fields
    | .global .delSlices => anchorDelSlices c acc
    | _ => .error (deny .bgOnly)

def chargeField (acc : CleanupAcc) (e : Bytes × ℤ) : Except Denial CleanupAcc :=
  match acc.sc.payDecrement env.toSliceEnv u e.1 e.2 with
  | .error d => .error d
  | .ok (sc,ino) => .ok { acc with sc := sc, refs := addNew acc.refs ino }

/-- Tie every cleanup record of a project transaction to what the unit itself writes. -/
def anchorCleanup (sc : SliceScope) : Except Denial CleanupAcc :=
  match Loop.each (anchorWrite env u) { sc := sc } u.writes with
  | .error d => .error d
  | .ok acc => Loop.each (chargeField env u) acc (env.decOrder.visit acc.sc.dec)

/-- A transaction without project writes may only drop fields its principal set to zero. -/
def ownZeroRefDrop (p : Principal) : Except Denial (List ℕ × List GuardEffect) :=
  Loop.each (fun acc w =>
    let c := u.cmdOf w
    if w.key.shape ≠ .global .sliceRef || c.name≠.hdel || c.args.length<3 then
      .error (deny .bgOnly)
    else Loop.each (fun acc f =>
      match env.zeroRefs.get? f with
      | some (owner,ino) =>
        if owner=p.name then .ok (acc.1++[ino],acc.2++[.zeroDone f]) else .error (deny .bgOnly)
      | none => .error (deny .bgOnly)) acc (c.args.drop 2)) ([],[]) u.writes

/-- A bare HDEL sliceRef: every field was taken below zero, or allocated, by this principal. -/
def ownSliceDrop (p : Principal) (c : Cmd) : Except Denial (List GuardEffect) :=
  match sliceRefFields c with
  | none | some [] => .error (deny .bgOnly)
  | some fs =>
    match Loop.each (fun (acc : List Bytes) f =>
      if env.dropped.getD f.raw "" = p.name then .ok (acc++[f.raw])
      else
        match env.owner f.id with
        | none => .error (deny .bgOnly)
        | some owner => if owner=some p.name then .ok (acc++[f.raw]) else .error (deny .bgOnly)) [] fs with
    | .error d => .error d
    | .ok fields => .ok [.dropDone fields]

/-- A bare HINCRBY sliceRef: the rollback of a slice this principal allocated and never linked. -/
def compactionRollback (p : Principal) (c : Cmd) : Except Denial (List GuardEffect) :=
  match sliceRefFields c with
  | some [f] =>
    if c.args.length ≠ 4 || c.args.getD 3 [] ≠ ascii "-1" then .error (deny .bgOnly)
    else
      match env.owner f.id with
      | none => .error (deny .bgOnly)
      | some owner =>
        match env.used f.id with
        | none => .error (deny .bgOnly)
        | some used =>
          if owner=some p.name && !used then .ok [.sliceUsed [f.id] true] else .error (deny .bgOnly)
  | _ => .error (deny .bgOnly)

/-- A bare ZREM delfiles: every member was queued by this principal. -/
def ownDelfilesDrop (p : Principal) (c : Cmd) : Except Denial (List GuardEffect) :=
  if c.args.length<3 then .error (deny .bgOnly)
  else if (c.args.drop 2).all (fun m => env.pendingDel.getD m "" = p.name) then
    .ok ((c.args.drop 2).map .delDone)
  else .error (deny .bgOnly)

/-- The own-record rules for a bare write; `none` when none of them speaks about it. -/
def ownRecord (p : Principal) : Option (Except Denial (List GuardEffect)) :=
  let c := u.cmds.getD 0 default
  match u.writes with
  | [w] =>
    if u.kind≠.bare || trusted p then none
    else if w.key.shape = .global .sliceRef && c.name=.hdel then some (ownSliceDrop env p c)
    else if w.key.shape = .global .sliceRef && c.name=.hincrby then some (compactionRollback env p c)
    else if w.key.shape = .global .delfiles && c.name=.zrem then some (ownDelfilesDrop env p c)
    else none
  | _ => none

end Cleanup

/-- A link-bench write: deletion, or SET that expires within a minute. -/
def benchExpires : List Bytes → Bool
  | opt::v::rest =>
    match redisInt v with
    | some n =>
      if 0 < n && upper opt = ascii "EX" then n ≤ 60
      else if 0 < n && upper opt = ascii "PX" then n ≤ 60000
      else benchExpires (v::rest)
    | none => benchExpires (v::rest)
  | _ => false

def linkBenchOK (c : Cmd) : Bool :=
  match c.name with
  | .del | .unlink => true
  | .set => benchExpires (c.args.drop 3)
  | _ => false

/-- Step 2b for one write. -/
def classGate (env : GuardEnv) (p : Principal) (acc : DecisionUnit × List GuardEffect) (w : KeyWrite) :
    Except Denial (DecisionUnit × List GuardEffect) :=
  let (u,effects) := acc
  let c := u.cmdOf w
  let admin : Bool := p.kind=.admin
  let only (allowed : Bool) (r : Reason) : Except Denial (DecisionUnit × List GuardEffect) :=
    if allowed then .ok acc else .error (deny r)
  match w.cls with
  | .ownRecord => .ok acc
  | .trashCreate => only (p.kind≠.webdav) .principalReadonly
  | .counter =>
    if admin then .ok acc
    else
      match env.counterGate p u c w with
      | some d => .error d
      | none => .ok acc
  | .session =>
    match env.sessionGate p u c w with
    | .error d => .error d
    | .ok (refs,ended) =>
      .ok ({ u with refInodes := u.refInodes++refs },
        effects++if ended=[] then [] else [.release ended])
  | .presence => only (admin || w.key.suffix=p.hostName.toUTF8.toList) .adminOnly
  | .linkBench => only (admin || linkBenchOK c) .unknownKey
  | .bg => only (trusted p) .bgOnly
  | .farm => only (admin || p.kind=.farm || p.kind=.manager) .farmOnly
  | .admin => only admin .adminOnly
  | .project =>
    if p.kind=.webdav then .error (deny .principalReadonly)
    else .ok ({ u with project := u.project++[w] },effects)
  | .channel | .unknown => only admin .unknownKey

def checkSlices (env : GuardEnv) (p : Principal) (u : DecisionUnit) : Except Denial SliceScope :=
  if trusted p then .ok {} else (newSliceScope u).validatePushes env.toSliceEnv u p

/-- The cleanup records of a transaction: the unit with its references, and the effects. -/
def checkRecords (env : GuardEnv) (p : Principal) (u : DecisionUnit) (sc : SliceScope) :
    Except Denial (DecisionUnit × List GuardEffect) :=
  let gc := fun w : KeyWrite => w.key.group=.gc
  if u.kind=.txn && u.writes.any gc && !trusted p then
    if u.writes.any (fun w => w.cls=.project) then
      match anchorCleanup env u sc with
      | .error d => .error d
      | .ok acc =>
        .ok ({ u with
          writes := u.writes.map (fun w => if gc w then { w with cls := .project } else w)
          refInodes := acc.refs },acc.effects.map (.ownedBy p.name))
    else
      match ownZeroRefDrop env u p with
      | .error d => .error d
      | .ok (refs,effects) =>
        .ok ({ u with writes := u.writes.map (fun w => { w with cls := .project }), refInodes := refs },
          effects)
  else .ok (u,[])

/-- The unit after the command gate, with the classes of its trash writes refined. -/
def refinedUnit (env : GuardEnv) (p : Principal) (u : DecisionUnit) : Except Denial DecisionUnit :=
  match gateWrites env p u.cmds with
  | .error d => .error d
  | .ok ws =>
    let u := { u with writes := ws, project := [], refInodes := [] }
    match hourlyOf u env p with
    | .error d => .error d
    | .ok hourly => .ok { u with writes := ws.map (fun w => { w with cls := refineClass u p hourly w }) }

/-- `Guard.Check`: the unit with its writes, its project writes and the inodes its records refer
to, and the effects to commit. -/
def check (env : GuardEnv) (p : Principal) (u : DecisionUnit) :
    Except Denial (DecisionUnit × List GuardEffect) :=
  match refinedUnit env p u with
  | .error d => .error d
  | .ok u =>
    let own : Except Denial (DecisionUnit × List GuardEffect) :=
      match ownRecord env u p with
      | none => .ok (u,[])
      | some (.error d) => .error d
      | some (.ok effects) =>
        .ok ({ u with writes := u.writes.map (fun w => { w with cls := .ownRecord }) },effects)
    match own with
    | .error d => .error d
    | .ok (u,bare) =>
      match checkSlices env p u with
      | .error d => .error d
      | .ok sc =>
        match checkRecords env p u sc with
        | .error d => .error d
        | .ok (u,records) =>
          let first : List GuardEffect := if sc.firstUse=[] then [] else [.sliceUsed sc.firstUse false]
          Loop.each (classGate env p) (u,bare++records++first) u.writes

end JuiceMount.RespProxy
