import JuiceMount.Metadata.ReconcileDir
import JuiceMount.RespProxy.Strconv

/-! The full SCAN of `syncMetadata`: the Lua batch that writes one line for each child of the directories
that a SCAN call returned, the parser of these lines, and the walk from an entry to the root over the
reverse map. The numbers of the script are doubles, and `tostring` prints 14 digits of them. -/
namespace JuiceMount.Metadata.Scan
open Mirror JuiceMount.Lists
open RespProxy (Bytes formatUint parseInt splitByte isDigit decimal)

/-- d < inode> with the names and values of its children, and i < inode>. -/
structure Backend where
  dirs : GoMap ℕ (List (Bytes × Bytes))
  attrs : ℕ → Option Bytes

/-- The quotient, rounded to the nearest and to the even one of two. -/
def roundHalfEven (n d : ℕ) : ℕ :=
  if 2*(n%d)<d || (2*(n%d)=d && n/d%2=0) then n/d else n/d+1

def double (n : ℕ) : ℕ :=
  if n < 2^53 then n else roundHalfEven n (2^(n.log2-52))*2^(n.log2-52)

/-- `tostring` of a whole number, that is %.14g of C. -/
def luaTostring (n : ℕ) : Bytes :=
  if n < 10^14 then formatUint n
  else
    let e := (formatUint n).length-1
    let m := roundHalfEven n (10^(e-13))
    let e := if m = 10^14 then e+1 else e
    let digits := formatUint (if m = 10^14 then 10^13 else m)
    let frac := (digits.tail.reverse.dropWhile (· = 48)).reverse
    digits.take 1++(if frac=[] then [] else 46::frac)++[101,43]++formatUint e

/-- Four bytes from the 1-based offset on. -/
def u32 (s : Bytes) (o : ℕ) : ℕ := bigEndian ((s.drop (o-1)).take 4)

def u64 (s : Bytes) (o : ℕ) : ℕ := double (u32 s o*2^32+u32 s (o+4))

def gi (v : Bytes) : Option ℕ := if v.length≠9 then none else some (u32 v 6)

/-- The numbers of a line that come from i < inode>. -/
structure LineAttr where
  valid : ℕ := 0
  mt : ℕ := 0
  ns : ℕ := 0
  sz : ℕ := 0

def lineAttr (attr : Option Bytes) : LineAttr :=
  match attr with
  | some a =>
    if 59≤a.length then
      { valid := if u32 a 32<1000000000 then 1 else 0, mt := u64 a 24, ns := u32 a 32, sz := u64 a 52 }
    else {}
  | none => {}

def colonLine (fields : List Bytes) (rest : Bytes) : Bytes := fields.foldr (fun f line => f++58::line) rest

/-- "v2", with which a precise line starts. -/
def lineVersion : Bytes := [118,50]

def batchLine (db : Backend) (key : ℕ) (child : Bytes × Bytes) : Option Bytes :=
  (gi child.2).map (fun ci =>
    let a := lineAttr (db.attrs ci)
    colonLine [lineVersion,luaTostring (child.2.headD 0).toNat,luaTostring a.valid,luaTostring a.mt,luaTostring a.ns,
      luaTostring a.sz,luaTostring ci,formatUint key] child.1)

/-- The lines for the keys that one SCAN call returned. -/
def luaScanBatch (db : Backend) (keys : List ℕ) : List Bytes :=
  keys.flatMap (fun key => (db.dirs.getD key []).filterMap (batchLine db key))

/-- `strings.SplitN`. -/
def splitN (c : UInt8) : ℕ → Bytes → List Bytes
  | 0,_ => []
  | 1,b => [b]
  | n+2,b =>
    match splitByte c b with
    | none => [b]
    | some (p,q) => p::splitN c (n+1) q

/-- `strconv.ParseUint`. -/
def parseUint (b : Bytes) : Option ℕ :=
  if b=[] || !b.all isDigit then none else if decimal b < 2^64 then some (decimal b) else none

structure ScanRawEntry where
  ft : ℤ
  attrValid : Bool
  mtime : ℤ
  size : ℤ
  mtimeNsec : ℤ
  mtimeNsecKnown : Bool
  inode : ℕ
  parentInode : Bytes
  name : Bytes
  deriving DecidableEq

/-- The fields after the version and without the nanoseconds, which are `nsec`. -/
def parseScanFields (known : Bool) (nsec : ℤ) : List Bytes → Option ScanRawEntry
  | [ft,valid,mt,sz,ino,parent,name] => do
    let ft ← parseInt ft
    if valid ≠ [48] ∧ valid ≠ [49] then none
    else
      let mt ← parseInt mt
      let sz ← parseInt sz
      let ino ← parseUint ino
      some
        { ft := ft
          attrValid := valid = [49]
          mtime := mt
          size := sz
          mtimeNsec := nsec
          mtimeNsecKnown := known && valid = [49]
          inode := ino
          parentInode := parent
          name := name }
  | _ => none

/-- A precise line is put together again without its nanoseconds. -/
def parseScanRawEntry (raw : Bytes) : Option ScanRawEntry :=
  if (lineVersion++[58]).isPrefixOf raw then
    match splitN 58 9 raw with
    | [_,ft,valid,mt,ns,sz,ino,parent,name] => do
      let nsec ← parseInt ns
      if nsec<0 ∨ 1000000000≤nsec then none
      else parseScanFields true nsec (splitN 58 7 (colonLine [ft,valid,mt,sz,ino,parent] name))
    | _ => none
  else parseScanFields false 0 (splitN 58 7 raw)

/-- What the SCAN has pulled: the entries, and for an inode its parent and its name. -/
structure Pulled where
  raws : List ScanRawEntry := []
  rev : GoMap Bytes (Bytes × Bytes) := []

def Pulled.add (p : Pulled) (raw : Bytes) : Option Pulled :=
  (parseScanRawEntry raw).map (fun e =>
    { raws := p.raws++[e], rev := p.rev.set (formatUint e.inode) (e.parentInode,e.name) })

/-- The answer of one SCAN call: the next cursor and keys of directories. -/
structure Reply where
  cursor : ℕ
  keys : List ℕ

/-- The calls up to cursor 0. A line that does not parse fails the SCAN; answers that end before
cursor 0 leave it unfinished. -/
def pull (db : Backend) : Pulled → List Reply → Option Pulled
  | _,[] => none
  | p,r::rs => do
    let p ← (luaScanBatch db r.keys).foldlM Pulled.add p
    if r.cursor=0 then some p else pull db p rs

/-- "1", the root. -/
def rootInode : Bytes := [49]

/-- At most so many levels up from `cur`; the names so far are `parts`. -/
def walkUp (rev : GoMap Bytes (Bytes × Bytes)) : ℕ → Bytes → List Bytes → Bytes × List Bytes
  | 0,cur,parts => (cur,parts)
  | d+1,cur,parts =>
    if cur=rootInode then (cur,parts)
    else
      match rev.get? cur with
      | none => (cur,parts)
      | some (up,name) => walkUp rev d up (name::parts)

def nameOf (b : Bytes) : Name := b.map (fun c => Char.ofNat c.toNat)

def pathOf (parts : List Bytes) : TreePath := parts.map nameOf

/-- `entryPath`, for what resolves to the root. -/
def resolvedPath (rev : GoMap Bytes (Bytes × Bytes)) (e : ScanRawEntry) : Option TreePath :=
  let (cur,parts) := walkUp rev 50 e.parentInode [e.name]
  if cur≠rootInode && e.parentInode≠rootInode then none else some (pathOf parts)

def modeDir : ℕ := 2^31

def modeSymlink : ℕ := 2^27

def modeForFiletype (ft : ℕ) : ℕ × Bool :=
  if ft=2 then (0o755+modeDir,true) else if ft=3 then (0o644+modeSymlink,false) else (0o644,false)

structure ScanEntry where
  entry : Entry
  mode : ℕ
  deriving DecidableEq

/-- What the reconstruction gives: `redisEntries`, `redisPaths` and `incompleteAttrs`. -/
structure Rebuilt where
  entries : List ScanEntry := []
  paths : List TreePath := []
  incompleteAttrs : Bool := false

def ScanRawEntry.mirrored (e : ScanRawEntry) (path : TreePath) : ScanEntry where
  entry :=
    { path := path
      isDir := (modeForFiletype (e.ft%256).toNat).2
      size := e.size
      inode := e.inode
      mtime := if e.mtimeNsecKnown || 0<e.mtime then e.mtime*1000000000+e.mtimeNsec else zeroTime
      mtimeNsecKnown := e.mtimeNsecKnown }
  mode := (modeForFiletype (e.ft%256).toNat).1

/-- One pulled entry. Without readable attributes only a directory that is not mirrored is kept. -/
def rebuildEntry (s : Store) (rev : GoMap Bytes (Bytes × Bytes)) (acc : Rebuilt) (e : ScanRawEntry) : Rebuilt :=
  match resolvedPath rev e with
  | none => acc
  | some path =>
    if scanFilteredPath path then acc
    else
      let acc := { acc with paths := acc.paths++[path], incompleteAttrs := acc.incompleteAttrs || !e.attrValid }
      if !e.attrValid && ((s.lookupByPath path).isSome || !(e.mirrored path).entry.isDir) then acc
      else { acc with entries := acc.entries++[e.mirrored path] }

def rebuild (s : Store) (p : Pulled) : Rebuilt := p.raws.foldl (rebuildEntry s p.rev) {}

end JuiceMount.Metadata.Scan
