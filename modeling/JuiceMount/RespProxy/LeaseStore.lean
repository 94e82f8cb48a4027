import JuiceMount.RespProxy.Leases
import JuiceMount.RespProxy.Resp

/-! The persisted record of one project: its epoch counter and its lease hash in Redis, the two
scripts that write them, and the reader that accepts a record at start. A script runs atomically;
its reply may never arrive. -/
namespace JuiceMount.RespProxy
open Resp (byte)

def text (s : String) : Bytes := s.toUTF8.data.toList

def ofText (b : Bytes) : String := (String.fromUTF8? ⟨b.toArray⟩).getD ""

@[simp] theorem ofText_text (s : String) : ofText (text s)=s := by
  have hbytes : (⟨(text s).toArray⟩ : ByteArray)=s.toUTF8 := ByteArray.ext (by simp [text])
  unfold ofText String.fromUTF8?
  rw [hbytes,String.toUTF8_eq_toByteArray,dif_pos s.isValidUTF8]
  rfl

/-- What a Redis key holds. -/
inductive RedisVal
  | string (b : Bytes)
  | hash (h : GoMap Bytes Bytes)
  | other
  deriving DecidableEq

/-- The keys jmlease:v1:epoch:<proj> and jmlease:v1:p:<proj>; `none` is a missing key. -/
structure LeaseStore where
  counter : Option RedisVal := none
  hash : Option RedisVal := none
  deriving DecidableEq

/-- `GET`, `none` on a key of another type. -/
def stringOf : Option RedisVal → Option (Option Bytes)
  | none => some none
  | some (.string b) => some (some b)
  | some _ => none

/-- The hash at a key, `none` on a key of another type. -/
def hashOf : Option RedisVal → Option (Option (GoMap Bytes Bytes))
  | none => some none
  | some (.hash h) => some (some h)
  | some _ => none

/-- `HSET` with several fields. -/
def hset (h : GoMap Bytes Bytes) (fs : List (Bytes × Bytes)) : GoMap Bytes Bytes :=
  fs.foldl (fun m f => m.set f.1 f.2) h

def holderField : Bytes := ascii "holder"
def epochField : Bytes := ascii "epoch"

/-- `e:<principal>`, the last epoch the principal held. -/
def heldField (p : Bytes) : Bytes := ascii "e:"++p

def kindText : Option Kind → Bytes
  | none => []
  | some .mac => ascii "mac"
  | some .farm => ascii "farm"
  | some .manager => ascii "manager"
  | some .bg => ascii "bg"
  | some .webdav => ascii "webdav"
  | some .admin => ascii "admin"

def modeText : LeaseMode → Bytes
  | .none => []
  | .auto => ascii "auto"
  | .checkout => ascii "checkout"

def boolStr (b : Bool) : Bytes := if b then ascii "1" else ascii "0"

def leaseFields (next : Lease) (epoch : Bytes) : List (Bytes × Bytes) :=
  [(holderField,text next.holder),(ascii "kind",kindText next.kind),(ascii "host",text next.host),
    (epochField,epoch),(ascii "mode",modeText next.mode),
    (ascii "granted_ms",formatInt next.grantedMs),(ascii "last_write_ms",formatInt next.lastWriteMs),
    (ascii "last_hb_ms",formatInt next.lastHbMs),
    (ascii "checkout_until_ms",formatInt next.checkoutUntilMs),
    (ascii "pending",boolStr next.pending),(ascii "label",text next.label)]

/-- The script's `valid`: a positive decimal that fits 63 bits, compared as text. -/
def validEpoch (s : Bytes) : Bool :=
  match s with
  | [] => false
  | c::_ => 49≤c && c≤57 && s.all isDigit &&
      (s.length < 19 || (s.length = 19 && !List.lex (ascii "9223372036854775807") s))

def errorReply (s : String) : Resp.Value := .ofStr (byte '-') (ascii s)
def bulkReply (b : Bytes) : Resp.Value := .ofStr (byte '$') b

/-- The record the caller was looking at: epoch 0 and no holder when there is none. -/
def leaseExpected (h : Option (GoMap Bytes Bytes)) (epoch holder : Bytes) : Bool :=
  match h with
  | some h => h.get? epochField=some epoch && h.get? holderField=some holder
  | none => epoch = ascii "0" && holder = []

/-- leaseTransitionLua: everything expected is checked before anything is written. -/
def leaseTransitionLua (op : TransitionOp) (expectedEpoch expectedHolder : Bytes) (next : Lease)
    (st : LeaseStore) : LeaseStore × Resp.Value :=
  match stringOf st.counter,hashOf st.hash with
  | some counter,some h =>
    let hashEpoch := h.bind (fun h => h.get? epochField)
    let hashHolder := h.bind (fun h => h.get? holderField)
    if counter.any (fun c => !validEpoch c) then (st,errorReply "invalid lease counter")
    else if h.isSome && (!hashEpoch.any validEpoch || counter.isNone || hashEpoch≠counter ||
        hashHolder.isNone) then (st,errorReply "incoherent lease hash")
    else if !leaseExpected h expectedEpoch expectedHolder then (st,errorReply "lease changed")
    else if op = .grant && hashHolder.any (fun x => x ≠ []) then (st,errorReply "lease held")
    else if op ≠ .grant && hashHolder.all (fun x => x = []) then (st,errorReply "lease not held")
    else if op ≠ .renew && counter = some (ascii "9223372036854775807") then
      (st,errorReply "lease epoch overflow")
    else
      -- INCR on a grant and on an end
      let counter := if op=.renew then counter.getD [] else formatUint (counter.elim 0 decimal+1)
      let fields := leaseFields next counter++
        (if op=.grant then [(heldField (text next.holder),counter)] else [])
      ({ counter := some (.string counter), hash := some (.hash (hset (h.getD []) fields)) },
        bulkReply counter)
  | _,_ => (st,errorReply "lease key type mismatch")

/-- leaseFlushLua: write the touch fields of the same tenure. -/
def leaseFlushLua (epoch holder : Bytes) (f : FlushFields) (st : LeaseStore) :
    LeaseStore × Resp.Value :=
  match stringOf st.counter,hashOf st.hash with
  | some c,some h =>
    if c≠some epoch || h.bind (fun h => h.get? epochField)≠some epoch ||
        h.bind (fun h => h.get? holderField)≠some holder then
      (st,errorReply "lease flush tenure changed")
    else
      ({ st with hash := some (.hash (hset (h.getD [])
          [(ascii "last_write_ms",formatInt f.write),(ascii "last_hb_ms",formatInt f.hb),
            (ascii "pending",boolStr f.pending)])) },.ofInt 1)
  | _,_ => (st,errorReply "WRONGTYPE")

/-- `persistedLeaseEpoch`: a positive int64 in its one decimal form. -/
def persistedLeaseEpoch (raw : Bytes) : Option ℕ :=
  match parseInt raw with
  | some n => if n > 0 && formatInt n=raw then some n.toNat else none
  | none => none

/-- The epoch `transition` accepts from the script's reply; `none` is a lost one. -/
def transitionReply (op : TransitionOp) (old : Lease) (v : Option Resp.Value) : Option ℕ :=
  match v with
  | none => none
  | some v =>
    if v.err.isSome || v.type ≠ byte '$' || v.null then none
    else transition op old (persistedLeaseEpoch v.str)

/-- Why a persisted record is refused at start. -/
inductive LoadErr
  | redis | malformed | badCounter | malformedHash | duplicateEpoch | badHashEpoch | mismatch
  deriving DecidableEq, Repr

/-- The fields of the hash in turn: `epoch` must be there once and well formed. -/
def scanEpoch : List Resp.Value → Option ℕ → Except LoadErr (Option ℕ)
  | field::value::rest,seen =>
    if field.type ≠ byte '$' || field.null || value.type ≠ byte '$' || value.null then
      .error .malformedHash
    else if field.str=epochField then
      if seen.isSome then .error .duplicateEpoch
      else
        match persistedLeaseEpoch value.str with
        | none => .error .badHashEpoch
        | some n => scanEpoch rest (some n)
    else scanEpoch rest seen
  | _,seen => .ok seen

/-- `loadLeaseRecord`: the reply of loadLeaseRecordLua, accepted when the counter and the hash
carry the same epoch. -/
def loadLeaseRecord (v : Resp.Value) : Except LoadErr (List Resp.Value) :=
  if v.err.isSome then .error .redis
  else
    match v.elems with
    | [c,h] =>
      if v.type ≠ byte '*' || c.type ≠ byte '$' || c.null || h.type ≠ byte '*' || h.elems=[] ||
          h.elems.length%2≠0 then .error .malformed
      else
        match persistedLeaseEpoch c.str with
        | none => .error .badCounter
        | some counter =>
          match scanEpoch h.elems none with
          | .error e => .error e
          | .ok seen => if seen≠some counter then .error .mismatch else .ok h.elems
    | _ => .error .malformed

/-- loadLeaseRecordLua: the counter and all fields of the hash, in any order. -/
def loadLeaseRecordLua (order : GoMap.RangeOrder (Bytes × Bytes)) (st : LeaseStore) : Resp.Value :=
  match stringOf st.counter,hashOf st.hash with
  | some c,some h =>
    .ofElems (byte '*') [c.elim (.ofNull (byte '$')) bulkReply,
      .ofElems (byte '*') ((order.visit (h.getD [])).flatMap (fun f => [bulkReply f.1,bulkReply f.2]))]
  | _,_ => errorReply "WRONGTYPE"

/-- `strconv.ParseInt` with its error dropped: it returns the nearest bound for a number out of
range and 0 for no number. -/
def parseIntD (b : Bytes) : ℤ :=
  let neg := b.head? = some 45
  let d := if neg || b.head? = some 43 then b.tail else b
  match parseInt b with
  | some n => n
  | none => if d=[] || !d.all isDigit then 0 else if neg then -2^63 else 2^63-1

def kindOf (b : Bytes) : Option Kind :=
  [.mac,.farm,.manager,.bg,.webdav,.admin].find? (fun k => kindText (some k)=b)

def modeOf (b : Bytes) : LeaseMode :=
  if b = ascii "auto" then .auto else if b = ascii "checkout" then .checkout else .none

def loadField (l : Lease) (f val : Bytes) : Lease :=
  let n := parseIntD val
  if f=holderField then { l with holder := ofText val }
  else if f = ascii "kind" then { l with kind := kindOf val }
  else if f = ascii "host" then { l with host := ofText val }
  else if f=epochField then { l with epoch := n.toNat }
  else if f = ascii "mode" then { l with mode := modeOf val }
  else if f = ascii "granted_ms" then { l with grantedMs := n }
  else if f = ascii "last_write_ms" then { l with lastWriteMs := n }
  else if f = ascii "last_hb_ms" then { l with lastHbMs := n }
  else if f = ascii "checkout_until_ms" then { l with checkoutUntilMs := n }
  else if f = ascii "pending" then { l with pending := val = ascii "1" }
  else if f = ascii "label" then { l with label := ofText val }
  else if (ascii "e:").isPrefixOf f then { l with hist := l.hist.set (ofText (f.drop 2)) n.toNat }
  else l

def loadFields (l : Lease) : List Resp.Value → Lease
  | f::val::rest => loadFields (loadField l f.str val.str) rest
  | _ => l

/-- `loadLeases` for one project; a project without a hash has no record. A held lease gets a
fresh orphan window. -/
def loadLease (proj : ℕ) (startMs : ℤ) (order : GoMap.RangeOrder (Bytes × Bytes)) (st : LeaseStore) :
    Except LoadErr (Option Lease) :=
  if st.hash.isNone then .ok none
  else
    match loadLeaseRecord (loadLeaseRecordLua order st) with
    | .error e => .error e
    | .ok h =>
      let l := loadFields { proj := proj } h
      .ok (some (if l.held && l.lastHbMs<startMs then { l with lastHbMs := startMs } else l))

/-- A script call by the lease engine, with what its caller needs for the reply. -/
inductive LeaseCall
  | grant (op : TransitionOp) (p : Principal) (old next : Lease)
  | stop (old next : Lease)
  | flush (epoch : ℕ) (holder : String) (sent : FlushFields)

def LeaseCall.script : LeaseCall → LeaseStore → LeaseStore × Resp.Value
  | .grant op _ old next => leaseTransitionLua op (formatUint old.epoch) (text old.holder) next
  | .stop old next => leaseTransitionLua .stop (formatUint old.epoch) (text old.holder) next
  | .flush epoch holder sent => leaseFlushLua (formatUint epoch) (text holder) sent

/-- The lease engine and Redis on one project. `call` is the call whose caller holds the project's
fence, with the script's reply once it ran; `late` are calls whose callers gave up before the
script ran. -/
structure LeaseState where
  proj : ℕ
  mem : Option Lease := none
  call : Option (LeaseCall × Option Resp.Value) := none
  late : List LeaseCall := []
  store : LeaseStore := {}

namespace LeaseState

/-- `leaseLocked`. -/
def lease (s : LeaseState) : Lease := s.mem.getD { proj := s.proj }

/-- The caller goes on with the reply, or with an error for a lost one. -/
def finish (s : LeaseState) (c : LeaseCall) (v : Option Resp.Value) : LeaseState :=
  match c with
  | .grant op p old next =>
    match transitionReply op old v with
    | some ep => { s with mem := some (grantLockedEnd op p next ep), call := none }
    | none => { s with call := none }
  | .stop old next =>
    match transitionReply .stop old v with
    | some ep => { s with mem := some (endLockedEnd next ep), call := none }
    | none => { s with call := none }
  | .flush _ _ sent =>
    let ok := v.any (fun v => v.err.isNone && v.type = byte ':' && v.int=1)
    { s with mem := s.mem.map (fun l => flushEnd l sent ok), call := none }

end LeaseState

inductive LeaseAction
  | grant (p : Principal) (now checkoutMax : ℤ) (mode : LeaseMode) (ttl : ℤ) (label : String)
  | stop (now : ℤ)
  | flush
  | touch (p : String) (now : ℤ)
  | heartbeat (p : String) (pending : ℕ → Bool) (now : ℤ)
  | execute
  | deliver
  | lose
  | executeLate
  | restart (startMs : ℤ) (order : GoMap.RangeOrder (Bytes × Bytes))

/-- One step. Grants, ends and flushes start with the fence free; the script of the call runs at
most once, before or after its caller gave up. A new process starts from the persisted record once
no script of the old one is left to run. -/
def leaseStep (s : LeaseState) : LeaseAction → Option LeaseState
  | .grant p now checkoutMax mode ttl label =>
    if s.call.isSome then none
    else
      match grantLockedStart s.lease p now checkoutMax mode ttl label with
      | .send op next =>
        some { s with
          mem := some { s.lease with unresolved := true }
          call := some (.grant op p s.lease next,none) }
      | _ => some { s with mem := some s.lease }
  | .stop now =>
    if s.call.isSome then none
    else
      match endLockedStart s.mem now with
      | .send next =>
        some { s with
          mem := some { s.lease with unresolved := true }
          call := some (.stop s.lease next,none) }
      | _ => some s
  | .flush =>
    if s.call.isSome then none
    else if s.mem.any flushable then
      some { s with call := some (.flush s.lease.epoch s.lease.holder (flushFields s.lease),none) }
    else some s
  | .touch p now => some { s with mem := s.mem.map (touchLease p now) }
  | .heartbeat p pending now => some { s with mem := s.mem.map (heartbeatLease p pending now) }
  | .execute =>
    match s.call with
    | some (c,none) => some { s with store := (c.script s.store).1, call := some (c,some (c.script s.store).2) }
    | _ => none
  | .deliver =>
    match s.call with
    | some (c,some v) => some (s.finish c (some v))
    | _ => none
  | .lose =>
    match s.call with
    | some (c,none) => some { s.finish c none with late := c::s.late }
    | some (c,some _) => some (s.finish c none)
    | none => none
  | .executeLate =>
    match s.late with
    | c::rest => some { s with store := (c.script s.store).1, late := rest }
    | [] => none
  | .restart startMs order =>
    if s.late≠[] then none
    else
      match loadLease s.proj startMs order s.store with
      | .ok m => some { s with mem := m, call := none }
      | .error _ => none

end JuiceMount.RespProxy
