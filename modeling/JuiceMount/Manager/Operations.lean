import JuiceMount.Manager.ObjKeys
import JuiceMount.Lib.SlashPath
import JuiceMount.Lib.Transition

/-! The operations of the principal store as the critical sections they are made of: enrolment and
polls, approval, revocation, the auto-approve window, people and grants, and a restart. Enrolment
and approval drop the lock in between, so their calls wait in the state. -/
namespace JuiceMount.Manager
open RespProxy (Bytes ascii)

/-! ### Enrolment requests -/

structure EnrollRequest where
  instanceID : Text
  host : Text := []
  label : Text := []
  secret : Text := []
  pollToken : Text := []
  previousInstanceID : Text := []
  deviceDigest : Text := []
  objectKeyInUse : Text := []
  deriving DecidableEq, Repr

/-- A request whose fields have the forms the route asks for. -/
structure Enrolment where
  name : Bytes
  instanceID : Bytes
  host : Bytes
  label : Bytes
  secret : Bytes
  pollToken : Bytes
  previous : Bytes
  digest : Bytes
  inUse : Bytes
  deriving DecidableEq, Repr

def instanceIDOk (b : Bytes) : Bool :=
  b.length=36 && (List.range 36).all fun i =>
    if i=8 ∨ i=13 ∨ i=18 ∨ i=23 then b.getD i 0=45 else isHex (b.getD i 0)

/-- A letter, a digit or one of `._~-`. -/
def secretByte (c : UInt8) : Bool :=
  (65≤c && c≤90) || (97≤c && c≤122) || (48≤c && c≤57) || c=46 || c=95 || c=126 || c=45

def secretOk (b : Bytes) : Bool := 32≤b.length && b.length≤256 && b.all secretByte

def lowerHexOk (n : ℕ) (b : Bytes) : Bool := b.length=n && b.all isLowerHex

def macPrincipalName (instanceID : Bytes) : Bytes :=
  ascii "mac-"++((instanceID.filter (· ≠ 45)).map lowerByte).take 12

def validObjectKeyInUse (cfg : Config) (v principal : Bytes) : Bool :=
  match splitObjKeyName v with
  | some (p,_) => p=principal
  | none => cfg.objectKey.any (fun k => k.1 = v) || v = ascii "jm-client"

/-- The checks before the first lock; `none` is an invalid request. -/
def EnrollRequest.parse (cfg : Config) (q : EnrollRequest) : Option Enrolment :=
  let id := Utf8.encode (trimSpace q.instanceID)
  let previous := Utf8.encode (trimSpace q.previousInstanceID)
  let digest := Utf8.encode q.deviceDigest
  let inUse := Utf8.encode q.objectKeyInUse
  let name := macPrincipalName id
  if !instanceIDOk id then none
  else if previous≠[] && (!instanceIDOk previous || previous.map lowerByte = id.map lowerByte) then none
  else if digest≠[] && !lowerHexOk 32 digest then none
  else if inUse≠[] && !validObjectKeyInUse cfg inUse name then none
  else some ⟨name,id,cleanText q.host 64,cleanText q.label 128,Utf8.encode q.secret,Utf8.encode q.pollToken,previous,digest,inUse⟩

/-- `enrollFingerprint`: eight digits of a digest of the secret. -/
def enrollFingerprint (cfg : Config) (secret : Bytes) : Bytes :=
  let h := cfg.sha256Hex (ascii "jm-enroll-fingerprint"++[0]++secret)
  RespProxy.upper (h.take 4++ascii "-"++(h.drop 4).take 4)

structure Response where
  status : Status
  principal : Bytes
  fingerprint : Bytes
  pollToken : Option Bytes := none
  objectKey : Option (Bytes × Bytes) := none
  keyPending : Bool := false
  deriving DecidableEq, Repr

def withObjectKey (cfg : Config) (s : Store) (r : Response) (rec : Mac) : Response :=
  if r.status≠.approved then r
  else if s.objk.isSome then
    (if objKeyDeliverable rec then { r with objectKey := some (rec.key.name,rec.key.secret) } else { r with keyPending := true })
  else if rec.sharedKeyIssued then { r with objectKey := cfg.objectKey }
  else r

/-! ### The system -/

/-- An admitted Mac in a batch, with what identifies its record. -/
structure Candidate where
  name : Bytes
  requestedAt : ℤ
  argon2id : Bytes
  deriving DecidableEq, Repr

inductive Stage
  | proof | key | wait (keyName : Bytes) | commit
  deriving DecidableEq, Repr

/-- A call between two of its critical sections. -/
inductive Call
  | enroll (e : Enrolment) (ip : Bytes) (existing : Option Mac)
  | approve (name : Bytes) (stage : Stage)
  | pass (batch : List Candidate) (proven : Bool)
  | window (length : ℤ) (limit : ℕ) (proven : Bool)
  deriving DecidableEq, Repr

/-- An answer of the enrolment route, with the record it is for as it is then. -/
structure Answered where
  request : Enrolment
  record : Mac
  response : Response
  deriving DecidableEq, Repr

structure World where
  mem : Store := {}
  files : Files := {}
  calls : List Call := []
  answers : List Answered := []
  deriving DecidableEq, Repr

def markDeviceMismatch (p : Mac) (digest : Bytes) : Mac :=
  if digest=[] || p.deviceDigest=[] || digest=p.deviceDigest || p.deviceMismatch then p
  else { p with deviceMismatch := true, mismatchedDigest := digest }

/-- The shared key is handed to approved Macs while per-Mac keys are off. -/
def markSharedKeyIssued (cfg : Config) (s : Store) (p : Mac) : Mac :=
  if p.status=.approved && s.objk.isNone && cfg.objectKey.isSome then { p with sharedKeyIssued := true } else p

namespace Store

def autoAdmitted (s : Store) (r : Mac) (now : ℤ) : Bool :=
  r.status=.pending && r.autoApprovePending && s.window.isOpen now

def pendingCount (s : Store) (now : ℤ) : ℕ := (s.recs.filter fun r => r.status=.pending && !s.autoAdmitted r now).length

def pendingFromIP (s : Store) (now : ℤ) (ip : Bytes) : ℕ :=
  (s.recs.filter fun r => r.status=.pending && !s.autoAdmitted r now && r.sourceIP=ip).length

def maxPendingPerIP : ℕ := 4

def maxAutoApprovePerIP : ℕ := 2

def autoApprovable (s : Store) (now : ℤ) (ip : Bytes) : Bool :=
  s.window.isOpen now && s.window.used<s.window.max && s.window.perIP.getD ip 0 < maxAutoApprovePerIP

def overCaps (cfg : Config) (s : Store) (now : ℤ) (ip : Bytes) : Bool :=
  cfg.maxPending ≤ s.pendingCount now || maxPendingPerIP ≤ s.pendingFromIP now ip

def countAuto (s : Store) (ip : Bytes) : Store :=
  { s with window := { s.window with used := s.window.used+1, perIP := s.window.perIP.set ip (s.window.perIP.getD ip 0+1) } }

/-- The person of the Mac this one rotated from, if that person still exists. -/
def inheritPerson (s : Store) (p : Mac) : Mac × Bool :=
  if p.person≠[] || p.personFromPrevious=[] || (s.person p.personFromPrevious).isNone then (p,false)
  else ({ p with person := p.personFromPrevious },true)

end Store

namespace World

/-- Install a store once its file is written; a failed write leaves memory as it was. -/
def saveAs (io : Io) (k : ℕ) (s : Store) (w : World) : World × Bool :=
  let r := saveStore io k s w.files
  ({ w with mem := if r.2 then s else w.mem, files := r.1 },r.2)

/-- Install a store once it is committed. A failed commit takes the change in memory back. -/
def commitAs (io : Io) (proxyChanged : Bool) (s : Store) (w : World) : World × Bool :=
  let r := commit io proxyChanged s w.files
  ({ w with mem := if r.2 then s else w.mem, files := r.1 },r.2)

def answer (w : World) (e : Enrolment) (rec : Mac) (r : Response) : World :=
  { w with answers := w.answers++[⟨e,rec,r⟩] }

def noteMac (io : Io) (k : ℕ) (rec next : Mac) (w : World) : World :=
  if next=rec then w else (w.saveAs io k (w.mem.putMac next)).1

/-! ### Enrolment -/

/-- The key a Mac says its mount uses, while Macs have their own. -/
def inUseNoted (s : Store) (e : Enrolment) (r : Mac) : Mac :=
  if s.objk.isSome && e.inUse≠[] then { r with objKeyInUse := e.inUse } else r

def sharedNoted (cfg : Config) (s : Store) (r : Mac) : Mac :=
  if r.sharedKeyIssued then r else markSharedKeyIssued cfg s r

def noteOn (io : Io) (k : ℕ) (name : Bytes) (f : Mac → Mac) (w : World) : World :=
  match w.mem.mac name with
  | none => w
  | some r => w.noteMac io k r (f r)

def pollNotes (cfg : Config) (io : Io) (e : Enrolment) (w : World) : World :=
  let w := w.noteOn io 0 e.name fun r => markDeviceMismatch r e.digest
  let w := w.noteOn io 1 e.name (inUseNoted w.mem e)
  w.noteOn io 2 e.name (sharedNoted cfg w.mem)

def poll (cfg : Config) (io : Io) (e : Enrolment) (w : World) : World :=
  match w.mem.mac e.name with
  | none => w
  | some rec =>
    if rec.pollTokenSHA256=[] || cfg.sha256Hex e.pollToken≠rec.pollTokenSHA256 then w
    else
      let w' := w.pollNotes cfg io e
      match w'.mem.mac e.name with
      | none => w'
      | some now => w'.answer e now (withObjectKey cfg w'.mem
          { status := rec.status, principal := e.name, fingerprint := rec.fingerprint } now)

/-- The first section of an enrolment with a secret: look the record up, refuse over the caps. -/
def enrollStart (cfg : Config) (e : Enrolment) (ip : Bytes) (now : ℤ) (w : World) : World :=
  let existing := w.mem.mac e.name
  if existing.isNone && !w.mem.autoApprovable now ip && w.mem.overCaps cfg now ip then w
  else { w with calls := w.calls++[.enroll e ip existing] }

def reenrolled (cfg : Config) (s : Store) (e : Enrolment) (token : Bytes) (p : Mac) : Mac :=
  markSharedKeyIssued cfg s (inUseNoted s e (markDeviceMismatch { p with pollTokenSHA256 := cfg.sha256Hex token } e.digest))

/-- A re-enrolment: the secret was checked against the record as it was read before. -/
def reenroll (cfg : Config) (io : Io) (e : Enrolment) (existing : Mac) (token : Bytes) (w : World) : World :=
  if existing.instanceID.map lowerByte ≠ e.instanceID.map lowerByte || !cfg.verifySecret existing.argon2id e.secret then w
  else
    match w.mem.mac e.name with
    | none => w
    | some cur =>
      let next := reenrolled cfg w.mem e token cur
      let r := w.commitAs io false (w.mem.putMac next)
      if r.2 then r.1.answer e next (withObjectKey cfg w.mem
        { status := next.status, principal := e.name, fingerprint := next.fingerprint, pollToken := some token } next)
      else r.1

def newMac (cfg : Config) (s : Store) (e : Enrolment) (ip : Bytes) (salt : ℕ) (token : Bytes) (now : ℤ) : Mac where
  name := e.name
  instanceID := RespProxy.upper e.instanceID
  host := e.host
  label := e.label
  argon2id := cfg.hashSecret salt e.secret
  redisSHA256 := cfg.sha256Hex e.secret
  fingerprint := enrollFingerprint cfg e.secret
  sourceIP := ip
  requestedAt := now
  pollTokenSHA256 := cfg.sha256Hex token
  previousInstanceID := RespProxy.upper e.previous
  deviceDigest := e.digest
  objKeyInUse := if s.objk.isSome then e.inUse else []
  personFromPrevious :=
    if e.previous=[] then [] else ((s.mac (macPrincipalName (RespProxy.upper e.previous))).map Mac.person).getD []

/-- The record as the window admits it, with its key being minted if Macs have their own. -/
def admitted (s : Store) (m : Mac) (ip : Bytes) : Option (Store × Mac) :=
  match s.objk with
  | none => some (s.countAuto ip,{ m with autoApprovePending := true })
  | some c =>
    match startObjKeyMint c.gens m with
    | none => none
    | some (gens,m) => some ({ s.countAuto ip with objk := some { c with gens := gens } },{ m with autoApprovePending := true })

/-- Save a new record and, if its key is being minted, ask the key daemon for it. -/
def enrollSave (io : Io) (k : Keyd) (auto : Bool) (s : Store) (f : Files) : Store × Files × Bool :=
  let r := commit io false s f
  if r.2=false then (s,r.1,false)
  else if auto && s.objk.isSome then
    let d := writeObjKeysDesired io 1 k s r.1
    (d.1,d.2.1,d.2.2=.ok)
  else (s,r.1,true)

/-- A failed enrolment takes the record and its count back; generations stay raised. -/
def enrollUndo (io : Io) (auto : Bool) (name : Bytes) (window : Window) (s : Store) (f : Files) : Store × Files :=
  let s := { s.dropMac name with window := window }
  if auto && s.objk.isSome then (s,(saveStore io 2 s f).1) else (s,f)

/-- A first enrolment: the record holds the hash of this request's secret. -/
def enrollNew (cfg : Config) (io : Io) (k : Keyd) (e : Enrolment) (ip : Bytes) (salt : ℕ) (token : Bytes) (now : ℤ)
    (w : World) : World :=
  if (w.mem.mac e.name).isSome then w
  else
    let m := newMac cfg w.mem e ip salt token now
    let auto := w.mem.autoApprovable now ip
    if !auto && w.mem.overCaps cfg now ip then w
    else
      match if auto then admitted w.mem m ip else some (w.mem,m) with
      | none => w
      | some (s,m) =>
        let r := enrollSave io k auto (s.putMac m) w.files
        if r.2.2 then
          { w with mem := r.1, files := r.2.1 }.answer e m (withObjectKey cfg r.1
            { status := m.status, principal := e.name, fingerprint := m.fingerprint, pollToken := some token } m)
        else
          let u := enrollUndo io auto e.name w.mem.window r.1 r.2.1
          { w with mem := u.1, files := u.2 }

/-! ### Approval and revocation -/

/-- What `Approve` makes of the record, and whether the proxy's files change. -/
def approveRecord (cfg : Config) (s : Store) (now : ℤ) (p : Mac) : Option (Mac × Bool) :=
  if p.status=.approved then
    some (s.inheritPerson (markSharedKeyIssued cfg s { p with autoApproved := false }))
  else if s.objk.isSome && !objKeyDeliverable p then none
  else
    let p := markSharedKeyIssued cfg s { p with
      autoApprovePending := false, status := .approved, decidedAt := now, autoApproved := false }
    some ((s.inheritPerson p).1,true)

def approveCommit (cfg : Config) (io : Io) (name : Bytes) (now : ℤ) (w : World) : World :=
  match w.mem.mac name with
  | none => w
  | some cur =>
    match approveRecord cfg w.mem now cur with
    | none => w
    | some (next,changed) => (w.commitAs io changed (w.mem.putMac next)).1

/-- `requireProxyLive` rewrites the proxy's files, whatever the proxy then answers. -/
def requestReload (io : Io) (w : World) : World × Bool :=
  let r := writeProxyFiles io w.mem w.files
  ({ w with files := r.1 },r.2)

/-- `ensureObjKey` up to its wait: a Mac without a key gets the next generation. -/
def requestKey (io : Io) (k : Keyd) (name : Bytes) (w : World) : World × Option Bytes :=
  match w.mem.mac name,w.mem.objk with
  | some cur,some c =>
    if cur.key.name≠[] then (w,some cur.key.name)
    else
      match startObjKeyMint c.gens cur with
      | none => (w,none)
      | some (gens,next) =>
        let d := writeObjKeysDesired io 0 k { w.mem.putMac next with objk := some { c with gens := gens } } w.files
        if d.2.2=.ok then ({ w with mem := d.1, files := d.2.1 },some next.key.name)
        else ({ w with mem := d.1.putMac cur, files := d.2.1 },none)
  | _,_ => (w,none)

def revoked (now : ℤ) (p : Mac) : Mac :=
  if p.status=.revoked then retireObjKey p
  else retireObjKey { p with status := .revoked, autoApproved := false, autoApprovePending := false, decidedAt := now }

def revoke (io : Io) (name : Bytes) (now : ℤ) (w : World) : World :=
  match w.mem.mac name with
  | none => w
  | some cur => (w.commitAs io (cur.status=.approved) (w.mem.putMac (revoked now cur))).1

def forget (io : Io) (name : Bytes) (w : World) : World :=
  match w.mem.mac name with
  | none => w
  | some cur =>
    if cur.status≠.revoked || cur.key.name≠[] || cur.key.removing≠[] then w
    else (w.commitAs io false (w.mem.dropMac name)).1

/-! ### The auto-approve window -/

def dropAdmissions (s : Store) : Store :=
  { s with recs := s.recs.map fun r =>
      if r.status=.pending && r.autoApprovePending then { r with autoApprovePending := false } else r }

def candidates (s : Store) : List Candidate :=
  (s.recs.filter fun r => r.status=.pending && r.autoApprovePending && (s.objk.isNone || objKeyDeliverable r)).map
    fun r => ⟨r.name,r.requestedAt,r.argon2id⟩

/-- A pass takes its batch. With the window closed the admitted Macs wait for an admin. -/
def passStart (io : Io) (now : ℤ) (w : World) : World :=
  if w.mem.window.isOpen now then
    (if candidates w.mem=[] then w else { w with calls := w.calls++[.pass (candidates w.mem) false] })
  else if dropAdmissions w.mem=w.mem then w else (w.saveAs io 0 (dropAdmissions w.mem)).1

/-- The record of a candidate, if it is still the one that was taken and still waits. -/
def stillCandidate (s : Store) (c : Candidate) : Option Mac :=
  (s.mac c.name).filter fun r => r.status=.pending && r.autoApprovePending &&
    (s.objk.isNone || objKeyDeliverable r) && r.requestedAt=c.requestedAt && r.argon2id=c.argon2id

def autoApproved (cfg : Config) (s : Store) (now : ℤ) (r : Mac) : Mac :=
  markSharedKeyIssued cfg s { r with status := .approved, autoApproved := true, autoApprovePending := false, decidedAt := now }

def approveBatch (cfg : Config) (now : ℤ) (s : Store) (batch : List Candidate) : Store :=
  batch.foldl (fun s c =>
    match stillCandidate s c with
    | some r => s.putMac (autoApproved cfg s now r)
    | none => s) s

def passCommit (cfg : Config) (io : Io) (now : ℤ) (batch : List Candidate) (w : World) : World :=
  if !w.mem.window.isOpen now then w
  else
    let s := approveBatch cfg now w.mem batch
    if s=w.mem then w else (w.commitAs io true s).1

def maxAutoApproveWindow : ℤ := 14*24*3600*1000

def newWindow (length : ℤ) (limit : ℕ) (now : ℤ) (w : Window) : Window :=
  if length≤0 then { w with until_ := none }
  else { until_ := some (now+min length maxAutoApproveWindow), max := min (if limit=0 then 20 else limit) 200 }

def setWindow (io : Io) (length : ℤ) (limit : ℕ) (now : ℤ) (w : World) : World :=
  (w.saveAs io 0 { dropAdmissions w.mem with window := newWindow length limit now w.mem.window }).1

/-! ### A Mac at the collections route -/

/-- `macPerson`: the token proves the Mac; the first digest is recorded, a second one flags it. -/
def macPerson (cfg : Config) (io : Io) (instanceID token device : Bytes) (w : World) : World :=
  match w.mem.mac (macPrincipalName instanceID) with
  | none => w
  | some rec =>
    if !instanceIDOk instanceID || !lowerHexOk 64 token || !lowerHexOk 32 device || rec.pollTokenSHA256=[] ||
        rec.instanceID.map lowerByte ≠ instanceID.map lowerByte || cfg.sha256Hex token≠rec.pollTokenSHA256 then w
    else w.noteMac io 0 rec (if rec.deviceDigest=[] then { rec with deviceDigest := device } else markDeviceMismatch rec device)

end World

/-! ### People -/

def maxGrantLevels : ℕ := 2

def maxPeopleInStore : ℕ := 1024

def maxGrantsPerUser : ℕ := 256

def folderNameOk (c : Text) : Bool :=
  c≠[] && c ≠ ['.'] && c ≠ ['.','.'] && (Utf8.encode c).length≤255 && c.all fun x => !(x.toNat<0x20 || x.toNat=0x7f)

/-- A grant: one or two folder names, absolute, without a slash at the end. -/
def cleanGrantPath (path : Text) : Option Text :=
  let p := trimSpace path
  if p.head? ≠ some '/' then none
  else
    let t := trimSlash p
    let parts := SlashPath.splitSlash (t.drop 1)
    if t=[] || maxGrantLevels<parts.length || !parts.all folderNameOk then none else some t

/-- What a view of the volume says about a folder path; `none` if it cannot be read. -/
abbrev FolderView := Text → Option Bool

inductive Form
  | unread | ambiguous | missing | found (path : List Text)

/-- The forms of a name that the volume holds below `parts`; the exact name ends the search. -/
def heldForms (view : FolderView) (parts : List Text) : Bool → List Text → Option (List Text)
  | _,[] => some []
  | exact,v::vs =>
    match view (SlashPath.joined (parts++[v])) with
    | none => none
    | some true => if exact then some [v] else (heldForms view parts false vs).map (v::·)
    | some false => heldForms view parts false vs

/-- `volumeForm`: one component after the other in the form the volume holds. -/
def volumeForm (cfg : Config) (view : FolderView) : List Text → List Text → Form
  | parts,[] => .found parts
  | parts,c::cs =>
    match heldForms view parts true [c,cfg.nfc c,cfg.nfd c].eraseDups with
    | none => .unread
    | some [] => .missing
    | some [v] => volumeForm cfg view (parts++[v]) cs
    | some (_::_::_) => .ambiguous

/-- The path a grant is stored under; without a view of the volume as given. -/
def grantForm (cfg : Config) (view : Option FolderView) (c : Text) : Option Text :=
  match view with
  | none => some c
  | some view =>
    match volumeForm cfg view [] (SlashPath.splitSlash (c.drop 1)) with
    | .unread => none
    | .ambiguous => none
    | .missing => some c
    | .found parts => some ('/'::SlashPath.joined parts)

def newPersonID (random : Bytes) : Bytes := ascii "p-"++hexEncode random

inductive PeopleOp
  | create (random : Bytes) (name : Text) (now : ℤ)
  /-- Access is `none` where it is left alone, and `some none` for an unknown word. -/
  | update (id : Bytes) (name : Option Text) (access : Option (Option Access))
  | restrict (on : Bool)
  | delete (id : Bytes)
  | assign (device person : Bytes)
  | addGrant (id : Bytes) (path : Text) (view : Option FolderView)
  | removeGrant (id : Bytes) (path : Text)

namespace Store

def createPerson (cfg : Config) (random : Bytes) (name : Text) (now : ℤ) (s : Store) : Option Store :=
  let n := cleanText name 128
  if n=[] || maxPeopleInStore ≤ s.people.length || s.people.any (fun p => cfg.equalFold p.name n) then none
  else some (s.putPerson { id := newPersonID random, name := n, access := .all, createdAt := now })

def updatePerson (id : Bytes) (name : Option Text) (access : Option (Option Access)) (s : Store) : Option Store :=
  match s.person id with
  | none => none
  | some p =>
    let renamed := match name with
      | none => some p
      | some t => if cleanText t 128=[] then none else some { p with name := cleanText t 128 }
    match renamed,access with
    | none,_ => none
    | some p,none => some (s.putPerson p)
    | some _,some none => none
    | some p,some (some a) =>
      some { s.putPerson { p with access := a } with restrictUnassigned := s.restrictUnassigned || a = .granted }

def deletePerson (id : Bytes) (s : Store) : Option Store :=
  match s.person id with
  | none => none
  | some _ =>
    some { s with
      people := Keyed.drop Person.id s.people id
      recs := s.recs.map fun r => if r.person=id then { r with person := [] } else r }

def assignDevice (device person : Bytes) (s : Store) : Option Store :=
  match s.mac device with
  | none => none
  | some r => if person≠[] && (s.person person).isNone then none else some (s.putMac { r with person := person })

def addGrant (cfg : Config) (id : Bytes) (path : Text) (view : Option FolderView) (s : Store) : Option Store :=
  match (cleanGrantPath path).bind (grantForm cfg view) with
  | none => none
  | some c =>
    match s.person id with
    | none => none
    | some p =>
      if c∈p.grants then some s
      else if maxGrantsPerUser≤p.grants.length then none
      else some { s.putPerson { p with grants := (p.grants++[c]).insertionSort (· ≤ ·), access := .granted } with
        restrictUnassigned := true }

/-- A path that matches no grant names the one grant that is equal to it composed. -/
def grantNamed (cfg : Config) (p : Person) (c : Text) : Text :=
  if c∈p.grants then c
  else
    match p.grants.filter fun g => cfg.nfc g = cfg.nfc c with
    | [g] => g
    | _ => c

def removeGrant (cfg : Config) (id : Bytes) (path : Text) (s : Store) : Option Store :=
  match cleanGrantPath path with
  | none => none
  | some c =>
    match s.person id with
    | none => none
    | some p =>
      let kept := p.grants.filter fun g => g ≠ grantNamed cfg p c
      if kept.length=p.grants.length then none else some (s.putPerson { p with grants := kept })

def change (cfg : Config) (op : PeopleOp) (s : Store) : Option Store :=
  match op with
  | .create random name now => s.createPerson cfg random name now
  | .update id name access => s.updatePerson id name access
  | .restrict on => some { s with restrictUnassigned := on }
  | .delete id => s.deletePerson id
  | .assign device person => s.assignDevice device person
  | .addGrant id path view => s.addGrant cfg id path view
  | .removeGrant id path => s.removeGrant cfg id path

end Store

namespace World

/-- `changePeople`: on any error nothing changes in memory. `scope` says that the volume has no
quota above the project folders. -/
def changePeople (cfg : Config) (io : Io) (op : PeopleOp) (scope : Bool) (w : World) : World × Bool :=
  match w.mem.change cfg op with
  | none => (w,false)
  | some s => if !w.mem.grantsInForce && s.grantsInForce && !scope then (w,false) else w.commitAs io true s

/-! ### Restart -/

/-- The people of the store file; a record that names an unknown person is unassigned. -/
def loadPeople (f : StoreFile) : Option (List Person × List Mac) :=
  if f.people.any (fun p => p.id=[]) || !(f.people.map Person.id).Nodup then none
  else some (f.people,f.recs.map fun r => if r.person≠[] && (Keyed.find Person.id f.people r.person).isNone
    then { r with person := [] } else r)

/-- Every approved Mac may hold a shared key that an earlier Manager did not track. -/
def adoptSharedKeys (adopt : Bool) (recs : List Mac) : List Mac :=
  recs.map fun r => if adopt && r.status=.approved then { r with sharedKeyIssued := true } else r

/-- `NewPrincipalStore` up to the first write. -/
def load (cfg : Config) (perMac adopt : Bool) (gens : GoMap Bytes ℕ) (f : StoreFile) : Option Store :=
  if !f.recs.all (fun r => macNameOk r.name) then none
  else (loadPeople f).map fun l => {
    recs := adoptSharedKeys (adopt && cfg.objectKey.isSome) l.2
    window := f.window
    people := l.1
    restrictUnassigned := f.restrictUnassigned
    objk := if perMac then some { f.objKeys with gens := gens } else none }

/-- The files as a new process finds them; what it knew of the proxy is gone. -/
def reopened (f : Files) : Files := { f with format := 0, kept := f.store.objKeys }

def adoptSave (io : Io) (adopt : Bool) (s : Store) (f : Files) : Files × Bool :=
  if adopt then saveStore io 0 s f else (f,true)

/-- A new process: the store is loaded, the proxy's files are written from it, and with per-Mac
keys the desired file too. A start that fails leaves no Manager. -/
def restart (cfg : Config) (io io' : Io) (k : Keyd) (now : ℤ) (perMac adopt : Bool) (gens : GoMap Bytes ℕ) (w : World) :
    Option World :=
  match load cfg perMac adopt gens w.files.store with
  | none => none
  | some s =>
    let saved := adoptSave io adopt s (reopened w.files)
    let r := writeProxyFiles io s saved.1
    if saved.2 && r.2 then
      let c := reconcileObjKeys io' k now true s r.1
      some { w with mem := c.1, files := c.2.1, calls := [] }
    else none

end World

/-! ### Steps -/

inductive Act
  | poll (q : EnrollRequest) (io : Io)
  | enroll (q : EnrollRequest) (ip : Bytes) (now : ℤ)
  | enrollEnd (i : ℕ) (slot : Bool) (salt : ℕ) (token : Bytes) (now : ℤ) (io : Io) (k : Keyd)
  | approve (name : Bytes)
  | approveProof (i : ℕ) (live : Bool) (io : Io)
  | approveKey (i : ℕ) (io : Io) (k : Keyd)
  | approveWait (i : ℕ) (expired : Bool) (now : ℤ) (io : Io) (k : Keyd)
  | approveCommit (i : ℕ) (now : ℤ) (io : Io)
  | revoke (name : Bytes) (now : ℤ) (io : Io)
  | syncKeys (io : Io) (k : Keyd)
  | forget (name : Bytes) (io : Io)
  | pass (now : ℤ) (io : Io)
  | passProof (i : ℕ) (live : Bool) (io : Io)
  | passCommit (i : ℕ) (now : ℤ) (io : Io)
  | closeWindow (now : ℤ) (io : Io)
  | openWindow (length : ℤ) (limit : ℕ)
  | windowProof (i : ℕ) (live : Bool) (io : Io)
  | windowSet (i : ℕ) (now : ℤ) (io : Io)
  | reconcile (now : ℤ) (io : Io) (k : Keyd)
  | removeOrphans (names : List Bytes) (io : Io) (k : Keyd)
  | macPerson (instanceID token device : Bytes) (io : Io)
  | people (op : PeopleOp) (scope : Bool) (io : Io)
  | syncPeople (io : Io)
  | restart (io io' : Io) (k : Keyd) (now : ℤ) (perMac adopt : Bool) (gens : GoMap Bytes ℕ)

namespace World

def continue_ (w : World) (i : ℕ) (c : Call) : World := { w with calls := w.calls.set i c }

def finish (w : World) (i : ℕ) : World := { w with calls := w.calls.eraseIdx i }

def enrollSection (cfg : Config) (i : ℕ) (slot : Bool) (salt : ℕ) (token : Bytes) (now : ℤ) (io : Io) (k : Keyd)
    (w : World) : Option World :=
  match w.calls[i]? with
  | some (.enroll e ip existing) =>
    if slot=false then some (w.finish i)
    else
      match existing with
      | some old => some ((w.reenroll cfg io e old token).finish i)
      | none => some ((w.enrollNew cfg io k e ip salt token now).finish i)
  | _ => none

/-- Where `Approve` goes after the proof. -/
def afterProof (w : World) (i : ℕ) (name : Bytes) : World :=
  w.continue_ i (.approve name (if w.mem.objk.isSome then .key else .commit))

def approveProof (i : ℕ) (live : Bool) (io : Io) (w : World) : Option World :=
  match w.calls[i]? with
  | some (.approve name .proof) =>
    let r := w.requestReload io
    some (if r.2 && live then r.1.afterProof i name else r.1.finish i)
  | _ => none

def approveKey (i : ℕ) (io : Io) (k : Keyd) (w : World) : Option World :=
  match w.calls[i]? with
  | some (.approve name .key) =>
    let r := w.requestKey io k name
    some (match r.2 with
      | some keyName => r.1.continue_ i (.approve name (.wait keyName))
      | none => r.1.finish i)
  | _ => none

def approveWait (i : ℕ) (expired : Bool) (now : ℤ) (io : Io) (k : Keyd) (w : World) : Option World :=
  match w.calls[i]? with
  | some (.approve name (.wait keyName)) =>
    let c := reconcileObjKeys io k now false w.mem w.files
    let w := { w with mem := c.1, files := c.2.1 }
    match w.mem.mac name with
    | none => some (w.finish i)
    | some r =>
      if r.key.name≠keyName then some (w.finish i)
      else if objKeyDeliverable r then some (w.continue_ i (.approve name .commit))
      else if expired then some (w.finish i) else some w
  | _ => none

def approveEnd (cfg : Config) (i : ℕ) (now : ℤ) (io : Io) (w : World) : Option World :=
  match w.calls[i]? with
  | some (.approve name .commit) => some ((w.approveCommit cfg io name now).finish i)
  | _ => none

def passProof (i : ℕ) (live : Bool) (io : Io) (w : World) : Option World :=
  match w.calls[i]? with
  | some (.pass batch false) =>
    let r := w.requestReload io
    some (if r.2 && live then r.1.continue_ i (.pass batch true) else r.1.finish i)
  | _ => none

def passEnd (cfg : Config) (i : ℕ) (now : ℤ) (io : Io) (w : World) : Option World :=
  match w.calls[i]? with
  | some (.pass batch true) => some ((w.passCommit cfg io now batch).finish i)
  | _ => none

def windowProof (i : ℕ) (live : Bool) (io : Io) (w : World) : Option World :=
  match w.calls[i]? with
  | some (.window length limit false) =>
    let r := w.requestReload io
    some (if r.2 && live then r.1.continue_ i (.window length limit true) else r.1.finish i)
  | _ => none

def windowEnd (i : ℕ) (now : ℤ) (io : Io) (w : World) : Option World :=
  match w.calls[i]? with
  | some (.window length limit true) => some ((w.setWindow io length limit now).finish i)
  | _ => none

def syncKeys (io : Io) (k : Keyd) (w : World) : World :=
  let d := writeObjKeysDesired io 0 k w.mem w.files
  { w with mem := d.1, files := d.2.1 }

def pickOrphans (names : List Bytes) (c : ObjKeys) : ObjKeys :=
  { c with
    orphans := c.orphans.filter fun n => n ∉ names
    orphanRemoving := c.orphanRemoving++(c.orphans.filter fun n => n∈names).map fun n => { name := n } }

def withKeys (s : Store) (c : ObjKeys) : Store := { s with objk := some c }

/-- The admin's removal of orphan keys; every name must be an orphan now. -/
def removeOrphans (io : Io) (k : Keyd) (names : List Bytes) (w : World) : World :=
  match w.mem.objk with
  | none => w
  | some c =>
    let c := refreshObjKeyOrphans k w.mem.recs c
    if names=[] || !names.all (fun n => n∈c.orphans) then { w with mem := withKeys w.mem c }
    else
      let d := writeObjKeysDesired io 0 k (withKeys w.mem (pickOrphans names c)) w.files
      if d.2.2=.storeFailed then { w with mem := withKeys w.mem c, files := d.2.1 }
      else { w with mem := d.1, files := d.2.1 }

/-- The table is rewritten when the people it should carry differ from what it carries. -/
def syncPeople (io : Io) (w : World) : World :=
  let format := w.files.proxyFormat io w.mem
  if (w.mem.wantsPeople && 2≤format) = (2 ≤ fileFormat w.files.table) then { w with files := { w.files with format := format } }
  else (w.requestReload io).1

def step (cfg : Config) (w : World) : Act → Option World
  | .poll q io =>
    (q.parse cfg).bind fun e =>
      if e.secret=[] && lowerHexOk 64 e.pollToken then some (w.poll cfg io e) else none
  | .enroll q ip now =>
    (q.parse cfg).bind fun e => if secretOk e.secret && e.host≠[] then some (w.enrollStart cfg e ip now) else none
  | .enrollEnd i slot salt token now io k => w.enrollSection cfg i slot salt token now io k
  | .approve name =>
    (w.mem.mac name).map fun r =>
      { w with calls := w.calls++[.approve name (if r.status=.approved then .commit else .proof)] }
  | .approveProof i live io => w.approveProof i live io
  | .approveKey i io k => w.approveKey i io k
  | .approveWait i expired now io k => w.approveWait i expired now io k
  | .approveCommit i now io => w.approveEnd cfg i now io
  | .revoke name now io => some (w.revoke io name now)
  | .syncKeys io k => some (w.syncKeys io k)
  | .forget name io => some (w.forget io name)
  | .pass now io => some (w.passStart io now)
  | .passProof i live io => w.passProof i live io
  | .passCommit i now io => w.passEnd cfg i now io
  | .closeWindow now io => some (w.setWindow io 0 0 now)
  | .openWindow length limit => if 0<length then some { w with calls := w.calls++[.window length limit false] } else none
  | .windowProof i live io => w.windowProof i live io
  | .windowSet i now io => w.windowEnd i now io
  | .reconcile now io k =>
    let c := reconcileObjKeys io k now false w.mem w.files
    some { w with mem := c.1, files := c.2.1 }
  | .removeOrphans names io k => some (w.removeOrphans io k names)
  | .macPerson instanceID token device io => some (w.macPerson cfg io instanceID token device)
  | .people op scope io => some (w.changePeople cfg io op scope).1
  | .syncPeople io => some (w.syncPeople io)
  | .restart io io' k now perMac adopt gens => w.restart cfg io io' k now perMac adopt gens

end World

def plainConfig : Config where
  hashSecret _ secret := secret
  verifySecret hash secret := hash=secret
  sha256Hex b := b
  parseArgon2id _ := true
  equalFold a b := a=b
  nfc t := t
  nfd t := t
  objectKey := some (ascii "shared",ascii "key")
  maxPending := 32

/-- A Mac's request with a secret of 32 times this character. -/
def sampleRequest (c : Char) : EnrollRequest where
  instanceID := "00000000-0000-0000-0000-00000000000a".toList
  host := ['m']
  secret := List.replicate 32 c

def sampleName : Bytes := ascii "mac-000000000000"

end JuiceMount.Manager
