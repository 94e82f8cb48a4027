import Mathlib.Data.Char
import Mathlib.Data.List.Lex
import JuiceMount.RespProxy.Keys
import JuiceMount.Lib.GoMap
import JuiceMount.Lib.Keyed
import JuiceMount.Lib.Utf8

/-! The Manager's principal store in memory, its store file, and the files it renders for the
Redis proxy: the principals table and the rollback fragment. A change is written file by file,
and any of the writes may fail. -/
namespace JuiceMount.Manager
open RespProxy (Bytes ascii)

/-! ### Text -/

/-- A string of a JSON request. -/
abbrev Text := List Char

scoped instance : LawfulBEq Text := inferInstance
scoped instance : LawfulBEq Bytes := inferInstance

/-- `unicode.IsSpace`. -/
def isSpace (c : Char) : Bool :=
  let n := c.toNat
  (9≤n && n≤13) || n=32 || n=0x85 || n=0xa0 || n=0x1680 || (0x2000≤n && n≤0x200a) || n=0x2028 ||
    n=0x2029 || n=0x202f || n=0x205f || n=0x3000

def trimSpace (s : Text) : Text := ((s.dropWhile isSpace).reverse.dropWhile isSpace).reverse

/-- `strings.TrimSuffix` of one slash. -/
def trimSlash (p : Text) : Text := if p.getLast? = some '/' then p.dropLast else p

def cleanText (s : Text) (max : ℕ) : Bytes :=
  (Utf8.encode ((trimSpace s).filter fun c => !(c.toNat<0x20 || c.toNat=0x7f))).take max

def isLowerHex (c : UInt8) : Bool := (48≤c && c≤57) || (97≤c && c≤102)

def isHex (c : UInt8) : Bool := isLowerHex c || (65≤c && c≤70)

def lowerByte (c : UInt8) : UInt8 := if 65≤c && c≤90 then c+32 else c

def hexDigit (n : ℕ) : UInt8 := UInt8.ofNat (if n<10 then 48+n else 87+n)

def hexEncode (b : Bytes) : Bytes := b.flatMap fun c => [hexDigit (c.toNat/16),hexDigit (c.toNat%16)]

/-! ### Records -/

inductive Status
  | pending | approved | revoked
  deriving DecidableEq, Repr

inductive KeyState
  | none | minting | active
  deriving DecidableEq, Repr

/-- A storage key the Manager stopped asking for; `seq` is 0 until a desired file omits it. -/
structure Removal where
  name : Bytes
  seq : ℕ := 0
  deriving DecidableEq, Repr

/-- A Mac's own storage key. -/
structure ObjKey where
  gen : ℕ := 0
  name : Bytes := []
  secret : Bytes := []
  state : KeyState := .none
  needsSecret : Bool := false
  mintSeq : ℕ := 0
  removing : List Removal := []
  deriving DecidableEq, Repr

/-- One Mac's enrolment record. -/
structure Mac where
  name : Bytes
  instanceID : Bytes
  host : Bytes
  label : Bytes := []
  status : Status := .pending
  argon2id : Bytes
  redisSHA256 : Bytes
  fingerprint : Bytes := []
  sourceIP : Bytes := []
  requestedAt : ℤ := 0
  decidedAt : ℤ := 0
  autoApproved : Bool := false
  pollTokenSHA256 : Bytes := []
  previousInstanceID : Bytes := []
  deviceDigest : Bytes := []
  deviceMismatch : Bool := false
  mismatchedDigest : Bytes := []
  person : Bytes := []
  personFromPrevious : Bytes := []
  autoApprovePending : Bool := false
  key : ObjKey := {}
  objKeyInUse : Bytes := []
  sharedKeyIssued : Bool := false
  deriving DecidableEq, Repr

inductive Access
  | all | granted
  deriving DecidableEq, Repr

structure Person where
  id : Bytes
  name : Bytes
  access : Access
  grants : List Text := []
  createdAt : ℤ := 0
  deriving DecidableEq, Repr

/-- The auto-approve window: its end, and what it has granted. -/
structure Window where
  until_ : Option ℤ := none
  max : ℕ := 0
  used : ℕ := 0
  perIP : GoMap Bytes ℕ := []
  deriving DecidableEq, Repr

def Window.isOpen (w : Window) (now : ℤ) : Bool := w.until_.any fun t => now<t

/-- The per-Mac storage keys of a store. -/
structure ObjKeys where
  seq : ℕ := 0
  gens : GoMap Bytes ℕ := []
  orphans : List Bytes := []
  orphanRemoving : List Removal := []
  deriving DecidableEq, Repr

/-- The store in memory. -/
structure Store where
  recs : List Mac := []
  window : Window := {}
  people : List Person := []
  restrictUnassigned : Bool := false
  objk : Option ObjKeys := none
  deriving DecidableEq, Repr

/-- What the code takes from its environment: hashes, the shared object key and the fold of names. -/
structure Config where
  hashSecret : ℕ → Bytes → Bytes
  verifySecret : Bytes → Bytes → Bool
  sha256Hex : Bytes → Bytes
  parseArgon2id : Bytes → Bool
  equalFold : Bytes → Bytes → Bool
  nfc : Text → Text
  nfd : Text → Text
  objectKey : Option (Bytes × Bytes)
  maxPending : ℕ

namespace Store

def mac (s : Store) (name : Bytes) : Option Mac := Keyed.find Mac.name s.recs name

def person (s : Store) (id : Bytes) : Option Person := Keyed.find Person.id s.people id

def putMac (s : Store) (m : Mac) : Store := { s with recs := Keyed.put Mac.name s.recs m }

def dropMac (s : Store) (name : Bytes) : Store := { s with recs := Keyed.drop Mac.name s.recs name }

def putPerson (s : Store) (p : Person) : Store := { s with people := Keyed.put Person.id s.people p }

def approved (s : Store) : List Mac :=
  (s.recs.filter fun r => r.status=.approved).insertionSort fun a b => a.name≤b.name

def sortedPeople (s : Store) : List Person := s.people.insertionSort fun a b => a.id≤b.id

def grantsInForce (s : Store) : Bool := s.restrictUnassigned || s.people.any fun p => p.access=.granted

end Store

/-! ### Files -/

/-- The principal store file. -/
structure StoreFile where
  recs : List Mac := []
  window : Window := {}
  people : List Person := []
  restrictUnassigned : Bool := false
  objKeys : ObjKeys := {}
  deriving DecidableEq, Repr

inductive Kind
  | mac | farm | manager | bg | webdav | admin
  | other (name : Bytes)
  deriving DecidableEq, Repr

structure PrincipalEntry where
  name : Bytes
  kind : Kind
  host : Bytes := []
  argon2id : Bytes
  disabled : Bool := false
  deriving DecidableEq, Repr

structure PersonEntry where
  id : Bytes
  name : Bytes
  access : Access
  grants : List Text
  devices : List Bytes
  deriving DecidableEq, Repr

/-- The principals table. A file without a version reads as version 0. -/
structure PrincipalsFile where
  version : ℕ := 0
  principals : List PrincipalEntry := []
  people : List PersonEntry := []
  restrictUnassigned : Bool := false
  deriving DecidableEq, Repr

/-- A line of the rollback fragment: user and password digest. -/
structure AclLine where
  name : Bytes
  sha : Bytes
  deriving DecidableEq, Repr

/-- A record and a person as their JSON reads back. -/
def Mac.stored (r : Mac) : Mac := { r with host := Utf8.coerce r.host, label := Utf8.coerce r.label }

def Person.stored (p : Person) : Person := { p with name := Utf8.coerce p.name }

/-- What `saveStoreLocked` writes. With per-Mac keys off the stored key history is carried through. -/
def Store.toFile (s : Store) (kept : ObjKeys) : StoreFile where
  recs := (s.recs.insertionSort fun a b => a.name≤b.name).map Mac.stored
  window := s.window
  people := s.sortedPeople.map Person.stored
  restrictUnassigned := s.restrictUnassigned
  objKeys := s.objk.getD kept

def Mac.entry (r : Mac) : PrincipalEntry := { name := r.name, kind := .mac, host := Utf8.coerce r.host, argon2id := r.argon2id }

def Mac.aclLine (r : Mac) : AclLine := ⟨r.name,r.redisSHA256⟩

def Person.entry (s : Store) (p : Person) : PersonEntry where
  id := p.id
  name := Utf8.coerce p.name
  access := p.access
  grants := p.grants
  devices := (s.approved.filter fun r => r.person≠[] && r.person=p.id).map Mac.name

def Store.wantsPeople (s : Store) : Bool := s.people≠[] || s.restrictUnassigned

def serverEntries (cur : Option PrincipalsFile) : List PrincipalEntry :=
  ((cur.getD {}).principals).filter fun e => e.kind≠.mac

/-- The table for a proxy that reads `format`. -/
def renderPrincipals (s : Store) (format : ℕ) (servers : List PrincipalEntry) : PrincipalsFile :=
  let v2 := s.wantsPeople && 2≤format
  { version := if v2 then 2 else 0
    principals := servers++s.approved.map Mac.entry
    people := if v2 then s.sortedPeople.map (Person.entry s) else []
    restrictUnassigned := v2 && s.restrictUnassigned }

/-- How the file operations of one operation go. `stores` are its writes of the store file in
order, `heartbeat` is the format a fresh heartbeat of the proxy names. -/
structure Io where
  ready : Bool := true
  table : Bool := true
  fragment : Bool := true
  undo : Bool := true
  gens : Bool := true
  stores : List Bool := []
  desired : Bool := true
  heartbeat : Option ℕ := some 2
  deriving DecidableEq, Repr

def Io.store (io : Io) (k : ℕ) : Bool := (io.stores[k]?).getD true

/-- The files, and what the Manager remembers of the proxy. -/
structure Files where
  store : StoreFile := {}
  table : Option PrincipalsFile := none
  fragment : List AclLine := []
  /-- The format the proxy last advertised, 0 if not known yet. -/
  format : ℕ := 0
  /-- The key history of a store that runs with per-Mac keys off. -/
  kept : ObjKeys := {}
  deriving DecidableEq, Repr

def fileFormat (cur : Option PrincipalsFile) : ℕ := max 1 (cur.getD {}).version

/-- `proxyFormatLocked`; it is asked only when there is something to say in format 2. -/
def Files.proxyFormat (f : Files) (io : Io) (s : Store) : ℕ :=
  if s.wantsPeople then io.heartbeat.getD (if f.format=0 then fileFormat f.table else f.format) else f.format

/-- Rewrite the table, then the fragment. A fragment that cannot be written puts the table back. -/
def writeProxyFiles (io : Io) (s : Store) (f : Files) : Files × Bool :=
  if io.ready=false then (f,false)
  else
    let format := f.proxyFormat io s
    let next := renderPrincipals s format (serverEntries f.table)
    if io.table=false then ({ f with format := format },false)
    else if io.fragment=false then
      (if io.undo then { f with format := format } else { f with format := format, table := some next },false)
    else ({ f with format := format, table := some next, fragment := s.approved.map Mac.aclLine },true)

/-- Write the store file, after the generations of the storage keys. -/
def saveStore (io : Io) (k : ℕ) (s : Store) (f : Files) : Files × Bool :=
  if s.objk.isSome && !io.gens then (f,false)
  else if io.store k then ({ f with store := s.toFile f.kept },true)
  else (f,false)

/-- `commitLocked`: the proxy's files when what they say changed, then the store file. -/
def commit (io : Io) (proxyChanged : Bool) (s : Store) (f : Files) : Files × Bool :=
  if proxyChanged then
    let r := writeProxyFiles io s f
    if r.2 then saveStore io 0 s r.1 else (r.1,false)
  else saveStore io 0 s f

end JuiceMount.Manager
