import JuiceMount.Lib.Int64
import JuiceMount.Lib.Loop
import JuiceMount.RespProxy.Facts

/-! What one unit says about slices. `sliceScope` collects the references a unit adds and removes,
keyed by the exact sliceRef field k < id>_<size>; `validatePushes` admits a pushed slice as a first
link, against an increment or against a removed copy; `payDecrement` charges the decrements. -/
namespace JuiceMount.RespProxy

def deny (r : Reason) : Denial := { reason := r }

/-- A slice as a chunk element or a delSlices record names it. -/
structure SliceRef where
  id : ℕ
  size : ℕ
  deriving DecidableEq, Repr

/-- The sliceRef field of a slice. -/
def sliceKeyOf (s : SliceRef) : Bytes :=
  ascii "k"++ascii (toString s.id)++ascii "_"++ascii (toString s.size)

def chunkElem (v : Bytes) : Option SliceRef :=
  if v.length≠24 then none
  else some ⟨bigEndian ((v.drop 4).take 8),bigEndian ((v.drop 12).take 4)⟩

structure SliceField where
  raw : Bytes
  id : ℕ
  deriving DecidableEq, Repr

def sliceField (s : Bytes) : Option SliceField :=
  if s.length<4 || s.head? ≠ some 107 then none
  else
    match splitByte 95 s with
    | none => none
    | some (name,size) =>
      if name.length<2 then none
      else
        match digits (name.drop 1),digits size with
        | some id,some _ => some ⟨s,id⟩
        | _,_ => none

/-- The fields of a sliceRef write. -/
def sliceRefFields (c : Cmd) : Option (List SliceField) :=
  match c.name with
  | .hset | .hmset =>
    if c.args.length<4 || c.args.length%2≠0 then none
    else (everySecond (c.args.drop 2)).mapM sliceField
  | .hincrby | .hsetnx =>
    if c.args.length≠4 then none else [c.args.getD 2 []].mapM sliceField
  | .hdel => (c.args.drop 2).mapM sliceField
  | _ => none

def delSliceField (b : Bytes) : Option ℕ :=
  match splitByte 95 b with
  | some (x::xs,ts) => if (digits ts).isSome then digits (x::xs) else none
  | _ => none

/-- The (id,size) records of a delSlices value, twelve bytes each. -/
def delSliceRecords (v : Bytes) : List SliceRef :=
  (List.range (v.length/12)).map (fun i =>
    ⟨bigEndian ((v.drop (12*i)).take 8),bigEndian ((v.drop (12*i+8)).take 4)⟩)

def memberInode (r : Bytes) : Option ℕ :=
  match splitByte 58 r with
  | some (x::xs,len) => if (digits len).isSome then digits (x::xs) else none
  | _ => digits r

/-- The inodes a delfiles or detachedNodes write names. -/
def cleanupMembers (c : Cmd) : Option (List ℕ) :=
  match c.name with
  | .zadd =>
    if c.args.length<4 || c.args.length%2≠0 then none
    else if (everySecond (c.args.drop 2)).all (fun b => (redisInt b).isSome) then
      (everySecond (c.args.drop 3)).mapM memberInode
    else none
  | .zrem => (c.args.drop 2).mapM memberInode
  | _ => none

structure TrimOp where
  del : Bool := false
  start : ℤ := 0
  stop : ℤ := 0
  deriving DecidableEq, Repr

/-- The slice and chunk stores the guard reads. A read that fails is `none`; an id the proxy never
handed out has the owner `some none`. Go visits its maps in any order. -/
structure SliceEnv where
  owner : ℕ → Option (Option String)
  used : ℕ → Option Bool
  chunkElems : ℕ → Bytes → Option (List Bytes)
  watchConfirmed : Bool := true
  chunkOrder : GoMap.RangeOrder (Bytes × TrimOp) := .asListed _
  decOrder : GoMap.RangeOrder (Bytes × ℤ) := .asListed _

structure SliceScope where
  touched : List ℕ := []
  pushed : GoMap Bytes ℕ := []
  pushedID : GoMap ℕ ℕ := []
  inc : GoMap Bytes ℤ := []
  dec : GoMap Bytes ℤ := []
  rewritten : GoMap Bytes TrimOp := []
  removed : GoMap Bytes ℤ := []
  removedIn : GoMap Bytes Bytes := []
  firstUse : List ℕ := []
  read : Bool := false
  readErr : Option Denial := none
  badNumber : Option Denial := none
  deriving DecidableEq, Repr

namespace SliceScope

def noteInc (sc : SliceScope) (c : Cmd) (w : KeyWrite) : SliceScope :=
  if w.key.shape = .global .sliceRef && c.name=.hincrby && c.args.length=4 then
    match redisInt (c.args.getD 3 []) with
    | none => { sc with badNumber := some (deny .unknownKey) }
    | some n =>
      if 0<n then
        match sliceRefFields c with
        | some fs => { sc with inc := fs.foldl (fun m f => m.tally f.raw n) sc.inc }
        | none => sc
      else sc
  else sc

/-- One write to a chunk list: only the first may be the trim or delete that is credited, and a
second one makes the indices inexact. -/
def noteChunk (sc : SliceScope) (watched seen : Bool) (c : Cmd) (w : KeyWrite) : SliceScope :=
  if seen then
    if (sc.rewritten.get? w.raw).isSome && c.name≠.rpush && c.name≠.lpush then
      { sc with rewritten := sc.rewritten.erase w.raw }
    else sc
  else if c.name=.ltrim then
    if c.args.length≠4 then { sc with badNumber := some (deny .unknownKey) }
    else
      match redisInt (c.args.getD 2 []),redisInt (c.args.getD 3 []) with
      | some start,some stop =>
        if watched then { sc with rewritten := sc.rewritten.set w.raw { start := start, stop := stop } }
        else sc
      | _,_ => { sc with badNumber := some (deny .unknownKey) }
  else if !watched then sc
  else if c.name=.del || c.name=.unlink then
    { sc with rewritten := sc.rewritten.set w.raw { del := true } }
  else sc

/-- The loop body of `newSliceScope`; the second component lists the chunk keys written so far. -/
def note (u : DecisionUnit) (st : SliceScope × List Bytes) (w : KeyWrite) : SliceScope × List Bytes :=
  let c := u.cmdOf w
  let sc := st.1.noteInc c w
  if w.key.group=.gc || !w.key.hasIno then (sc,st.2)
  else
    let sc := { sc with touched := addNew sc.touched w.key.ino }
    if w.key.shape≠.chunk then (sc,st.2)
    else (sc.noteChunk (u.watched.contains w.raw) (st.2.contains w.raw) c w,w.raw::st.2)

end SliceScope

def newSliceScope (u : DecisionUnit) : SliceScope := (u.writes.foldl (SliceScope.note u) ({},[])).1

/-- Whether LTRIM keeps the element at place `i` of a list of `n`. -/
def TrimOp.keeps (op : TrimOp) (n i : ℕ) : Bool :=
  if op.del then false
  else
    let s := if op.start<0 then op.start+n else op.start
    let e := if op.stop<0 then op.stop+n else op.stop
    let s := if s<0 then 0 else s
    s ≤ i && i≤e

/-- The slices among the elements a trim or delete drops; a hole (id 0) is none. -/
def TrimOp.drops (op : TrimOp) (elems : List Bytes) : List SliceRef :=
  elems.zipIdx.filterMap (fun e =>
    if op.keeps elems.length e.2 then none
    else (chunkElem e.1).filter (fun s => s.id≠0))

namespace SliceScope
variable (env : SliceEnv) (u : DecisionUnit)

/-- The loop of `sideRead` over the rewritten chunks. -/
def readChunks : List (Bytes × TrimOp) → SliceScope → SliceScope × Option Denial
  | [],sc => (sc,none)
  | (key,op)::rest,sc =>
    match env.chunkElems u.db key with
    | none => ({ sc with readErr := some (deny .bgOnly) },some (deny .bgOnly))
    | some elems =>
      readChunks rest { sc with
        removed := (op.drops elems).foldl (fun m s => m.tally (sliceKeyOf s) 1) sc.removed
        removedIn := (op.drops elems).foldl (fun m s => m.set (sliceKeyOf s) key) sc.removedIn }

/-- Load every rewritten chunk once and count the copies its trim or delete removes. -/
def sideRead (sc : SliceScope) : SliceScope × Option Denial :=
  if sc.read || sc.readErr.isSome then (sc,sc.readErr)
  else
    let sc := { sc with read := true, removed := [], removedIn := [] }
    if sc.rewritten≠[] && !env.watchConfirmed then
      ({ sc with readErr := some (deny .bgOnly) },some (deny .bgOnly))
    else readChunks env u (env.chunkOrder.visit sc.rewritten) sc

/-- Rule (a): the first link of a slice allocated to this principal, inside MULTI only. -/
def firstLink (p : Principal) (thisUnit : List ℕ) (id : ℕ) : Except Denial Bool :=
  if u.kind=.txn && !thisUnit.contains id then
    match env.owner id with
    | none => .error (deny .bgOnly)
    | some owner =>
      if owner=some p.name then
        match env.used id with
        | none => .error (deny .bgOnly)
        | some used => .ok (!used)
      else .ok false
  else .ok false

/-- Rules (b) and (c): an increment of the same field, or a copy removed from the same chunk. -/
def payPush (sc : SliceScope) (raw f : Bytes) : Except Denial SliceScope :=
  if 0 < sc.inc.getD f 0 then .ok { sc with inc := sc.inc.set f (sc.inc.getD f 0-1) }
  else
    match sc.sideRead env u with
    | (_,some d) => .error d
    | (sc,none) =>
      if 0 < sc.removed.getD f 0 && sc.removedIn.getD f []=raw then
        .ok { sc with removed := sc.removed.set f (sc.removed.getD f 0-1) }
      else .error (deny .adminOnly)

/-- One pushed element; the second component lists the slice ids this unit pushed before. -/
def pushOne (p : Principal) (w : KeyWrite) (st : SliceScope × List ℕ) (v : Bytes) :
    Except Denial (SliceScope × List ℕ) :=
  match chunkElem v with
  | none => .error (deny .unknownKey)
  | some s =>
    if s.id=0 then .ok st
    else
      match firstLink env u p st.2 s.id with
      | .error d => .error d
      | .ok first =>
        match (if first then .ok { st.1 with firstUse := st.1.firstUse++[s.id] }
          else st.1.payPush env u w.raw (sliceKeyOf s) : Except Denial SliceScope) with
        | .error d => .error d
        | .ok sc =>
          .ok ({ sc with
            pushed := sc.pushed.set (sliceKeyOf s) w.key.ino
            pushedID := sc.pushedID.set s.id w.key.ino },s.id::st.2)

def pushWrite (p : Principal) (st : SliceScope × List ℕ) (w : KeyWrite) :
    Except Denial (SliceScope × List ℕ) :=
  if w.key.shape≠.chunk then .ok st
  else
    match (u.cmdOf w).name with
    | .rpush | .lpush | .rpushx | .lpushx =>
      Loop.each (pushOne env u p w) st ((u.cmdOf w).args.drop 2)
    | .ltrim | .del | .unlink => .ok st
    | _ => .error (deny .adminOnly)

/-- Every slice a unit pushes must be one the principal may reference. -/
def validatePushes (p : Principal) (sc : SliceScope) : Except Denial SliceScope :=
  match sc.badNumber with
  | some d => .error d
  | none =>
    match Loop.each (pushWrite env u p) (sc,[]) u.writes with
    | .error d => .error d
    | .ok st => .ok st.1

/-- Charge `n` decrements of field `f`; the chunk inode the slice belongs to. -/
def payDecrement (sc : SliceScope) (f : Bytes) (n : ℤ) : Except Denial (SliceScope × ℕ) :=
  match sc.sideRead env u with
  | (_,some d) => .error d
  | (sc,none) =>
    if n > int64 (sc.removed.getD f 0+sc.inc.getD f 0) then .error (deny .bgOnly)
    else
      match sc.removedIn.get? f with
      | some key => .ok (sc,(parseKey key).ino)
      | none =>
        match sc.pushed.get? f with
        | some ino => .ok (sc,ino)
        | none => .error (deny .bgOnly)

def resolve (sc : SliceScope) (f : Bytes) : Except Denial (SliceScope × ℕ) :=
  match sc.pushed.get? f with
  | some ino => .ok (sc,ino)
  | none =>
    match sc.sideRead env u with
    | (_,some d) => .error d
    | (sc,none) =>
      match sc.removedIn.get? f with
      | some key => .ok (sc,(parseKey key).ino)
      | none => .error (deny .bgOnly)

end SliceScope

end JuiceMount.RespProxy
