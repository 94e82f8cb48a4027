import JuiceMount.RespProxy.Caches

/-! Keys, fields and values as bytes: how the classifier maps a raw key to its JuiceFS shape,
and how the proxy reads numbers, directory entries and inode attributes. -/
namespace JuiceMount.RespProxy

/-- A Go string or byte slice. -/
abbrev Bytes := List UInt8

/-- The bytes of an ASCII literal. -/
def ascii (s : String) : Bytes := s.toList.map (fun c => UInt8.ofNat c.toNat)

/-- ASCII upper case. -/
def upper (b : Bytes) : Bytes := b.map (fun c => if 97≤c && c≤122 then c-32 else c)

/-- What follows the literal `p` in `b`. -/
def afterLit (p : String) (b : Bytes) : Option Bytes :=
  if (ascii p).isPrefixOf b then some (b.drop p.length) else none

/-- `bytes.IndexByte`: the bytes before and after the first `c`. -/
def splitByte (c : UInt8) (b : Bytes) : Option (Bytes × Bytes) :=
  match b with
  | [] => none
  | x::xs => if x=c then some ([],xs) else (splitByte c xs).map (fun r => (x::r.1,r.2))

def isDigit (c : UInt8) : Bool := 48≤c && c≤57

def decimal (b : Bytes) : ℕ := b.foldl (fun n c => n*10+(c.toNat-48)) 0

/-- `strconv.ParseUint` on a run of digits: it must fit 64 bits. -/
def parseUint (b : Bytes) : Option ℕ := if decimal b < 2^64 then some (decimal b) else none

/-- A canonical unsigned decimal: digits only, no leading zero except "0" itself. -/
def digits (b : Bytes) : Option ℕ :=
  if b=[] || b.length > 20 || (b.length > 1 && b.head? = some 48) then none
  else if b.all isDigit then parseUint b
  else none

/-- An integer as Redis's string2ll reads it. -/
def redisInt (b : Bytes) : Option ℤ :=
  if b.length=0 || b.length > 20 then none
  else if b = [48] then some 0
  else
    let neg := b.head? = some 45
    let d := if neg then b.tail else b
    match d with
    | [] => none
    | c::_ =>
      if c<49 || 57<c then none
      else if !d.all isDigit then none
      else
        match parseUint d with
        | none => none
        | some v =>
          if neg then (if v > 2^63 then none else some (-(v : ℤ)))
          else if v > 2^63-1 then none
          else some v

/-- The groups of keys the guard distinguishes. -/
inductive Group
  | inode | dentry | counter | dirstat | quota | gc | bgmark | session | admin | presence
  | linkbench | farm | lease | channel | unknown
  deriving DecidableEq, Repr

/-- The volume-wide keys. -/
inductive Global
  | setting | acl | nextinode | nextchunk | nextsession | nextTrash | usedSpace | totalInodes
  | lastCleanupSessions | lastCleanupFiles | lastCleanupTrash | nextCleanupSlices
  | dirDataLength | dirUsedSpace | dirUsedInodes | dirQuotaUsedSpace | dirQuotaUsedInodes
  | dirQuota | delfiles | sliceRef | delSlices | detachedNodes
  | allSessions | sessionInfos | sessions
  deriving DecidableEq, Repr

def Global.group : Global → Group
  | .setting | .acl => .admin
  | .nextinode | .nextchunk | .nextsession | .nextTrash | .usedSpace | .totalInodes
  | .lastCleanupSessions => .counter
  | .lastCleanupFiles | .lastCleanupTrash | .nextCleanupSlices => .bgmark
  | .dirDataLength | .dirUsedSpace | .dirUsedInodes | .dirQuotaUsedSpace | .dirQuotaUsedInodes =>
    .dirstat
  | .dirQuota => .quota
  | .delfiles | .sliceRef | .delSlices | .detachedNodes => .gc
  | .allSessions | .sessionInfos | .sessions => .session

/-- The names of `globalKeys`. -/
def globalKeys : List (String × Global) :=
  [("setting",.setting),("acl",.acl),("nextinode",.nextinode),("nextchunk",.nextchunk),
    ("nextsession",.nextsession),("nextTrash",.nextTrash),("usedSpace",.usedSpace),
    ("totalInodes",.totalInodes),("lastCleanupSessions",.lastCleanupSessions),
    ("lastCleanupFiles",.lastCleanupFiles),("lastCleanupTrash",.lastCleanupTrash),
    ("nextCleanupSlices",.nextCleanupSlices),("dirDataLength",.dirDataLength),
    ("dirUsedSpace",.dirUsedSpace),("dirUsedInodes",.dirUsedInodes),
    ("dirQuotaUsedSpace",.dirQuotaUsedSpace),("dirQuotaUsedInodes",.dirQuotaUsedInodes),
    ("dirQuota",.dirQuota),("delfiles",.delfiles),("sliceRef",.sliceRef),
    ("delSlices",.delSlices),("detachedNodes",.detachedNodes),("allSessions",.allSessions),
    ("sessionInfos",.sessionInfos),("sessions",.sessions)]

inductive Shape
  | inode | dentry | parent | xattr | symlink | chunk | flock | plock | locked | session
  | presence | linkBench | farm | jmFarm | jmCtl | lease | channel
  | global (g : Global)
  | unknown
  deriving DecidableEq, Repr

/-- One key mapped to its shape. -/
structure KeyRef where
  shape : Shape
  group : Group
  ino : ℕ := 0
  hasIno : Bool := false
  trash : Bool := false
  sid : ℕ := 0
  suffix : Bytes := []
  deriving DecidableEq, Repr

def inoKey (shape : Shape) (group : Group) (rest : Bytes) : Option KeyRef :=
  (digits rest).map (fun n =>
    { shape := shape, group := group, ino := n, hasIno := true, trash := isTrashIno n })

/-- A key of one of the proxy's own namespaces. The first two need a suffix. -/
def namespaceKey (k : Bytes) : Option KeyRef :=
  match afterLit "jum:presence:" k with
  | some (c::s) => some { shape := .presence, group := .presence, suffix := c::s }
  | _ =>
  match afterLit "jm:link-bench:" k with
  | some (c::s) => some { shape := .linkBench, group := .linkbench, suffix := c::s }
  | _ =>
  match afterLit "juicefarm:" k with
  | some s => some { shape := .farm, group := .farm, suffix := s }
  | none =>
  match afterLit "jmfarm:" k with
  | some s => some { shape := .jmFarm, group := .farm, suffix := s }
  | none =>
  match afterLit "jmctl:" k with
  | some s => some { shape := .jmCtl, group := .farm, suffix := s }
  | none =>
  match afterLit "jmlease:" k with
  | some s => some { shape := .lease, group := .lease, suffix := s }
  | none => if k = ascii "juicemount:metadata" then some { shape := .channel, group := .channel } else none

/-- The second switch of `ParseKey`: lock and session keys. The first matching text decides. -/
def lockKey (k : Bytes) : Option KeyRef :=
  match afterLit "lockf" k with
  | some s => inoKey .flock .inode s
  | none =>
  match afterLit "lockp" k with
  | some s => inoKey .plock .inode s
  | none =>
  match afterLit "locked" k with
  | some s => (digits s).map (fun n => { shape := .locked, group := .session, sid := n })
  | none =>
  match afterLit "session" k with
  | some s => (digits s).map (fun n => { shape := .session, group := .session, sid := n })
  | none => none

def letterKey (k : Bytes) : Option KeyRef :=
  match k with
  | c::rest =>
    if rest=[] then none
    else if c=105 then inoKey .inode .inode rest
    else if c=100 then inoKey .dentry .dentry rest
    else if c=112 then inoKey .parent .inode rest
    else if c=120 then inoKey .xattr .inode rest
    else if c=115 then inoKey .symlink .inode rest
    else if c=99 then
      match splitByte 95 rest with
      | some (x::xs,idx) => if (digits idx).isSome then inoKey .chunk .inode (x::xs) else none
      | _ => none
    else none
  | [] => none

def parseKey (k : Bytes) : KeyRef :=
  match globalKeys.find? (fun e => ascii e.1=k) with
  | some e => { shape := .global e.2, group := e.2.group }
  | none =>
    ((namespaceKey k).orElse (fun _ => (lockKey k).orElse (fun _ => letterKey k))).getD
      { shape := .unknown, group := .unknown }

def bigEndian (b : Bytes) : ℕ := b.foldl (fun n c => n*256+c.toNat) 0

/-- What a marshalled attribute says about placement. -/
structure AttrInfo where
  typ : UInt8
  parent : ℕ
  deriving DecidableEq, Repr

def typeFile : UInt8 := 1
example : parseKey (ascii "c12_3") = { shape := .chunk, group := .inode, ino := 12, hasIno := true } := by
  decide +kernel

end JuiceMount.RespProxy
