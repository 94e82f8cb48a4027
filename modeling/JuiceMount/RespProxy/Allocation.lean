import JuiceMount.Lib.Zset
import JuiceMount.Lib.Int64
import JuiceMount.RespProxy.SliceScope
import JuiceMount.RespProxy.LeaseStore

/-! Who received which inode and slice numbers: the batches INCRBY hands out, the ranges recorded
for them in Redis, the cache in front of those, and the gate that creates an inode only from its
writer's own batch. Lua's numbers are exact below 2^53, where the ids are taken to be. -/
namespace JuiceMount.RespProxy

/-- An id range and the principal it was handed to. -/
structure SliceRange where
  lo : ℕ
  hi : ℕ
  owner : String
  deriving DecidableEq, Repr

namespace SliceRange

def contains (r : SliceRange) (id : ℕ) : Bool := r.lo ≤ id && id≤r.hi

def member (r : SliceRange) : Bytes := formatUint r.lo++58::(formatUint r.hi++58::text r.owner)

end SliceRange

def memberLt (a b : Bytes) : Bool := a<b

def splitMember (m : Bytes) : Option (Bytes × Bytes × Bytes) :=
  match splitByte 58 m with
  | none => none
  | some (a,rest) => (splitByte 58 rest).map (fun r => (a,r.1,r.2))

/-- `string.match(m, '^(%d+):(%d+):(.+)$')`. -/
def luaMatch (m : Bytes) : Option (Bytes × Bytes × Bytes) :=
  (splitMember m).filter (fun p =>
    p.1≠[] && p.1.all isDigit && p.2.1≠[] && p.2.1.all isDigit && p.2.2≠[])

/-- One round of the merge loop: the owner's range ending just below `lo` is taken out, and `lo`
moves to its start. -/
def mergeOne (owner : Bytes) (acc : Zset Bytes × Bytes) (e : ℕ × Bytes) : Zset Bytes × Bytes :=
  match luaMatch e.2 with
  | none => acc
  | some (plo,phi,pown) =>
    if pown=owner && decimal phi+1 = decimal acc.2 then (acc.1.rem e.2,plo) else acc

/-- The merge loop over the ranges that end at lo-1. -/
def mergeBelow (z : Zset Bytes) (lo owner : Bytes) : Zset Bytes × Bytes :=
  (z.range (decimal lo-1) (decimal lo-1)).foldl (mergeOne owner) (z,lo)

/-- mergeRangeLua. -/
def mergeRangeLua (z : Zset Bytes) (r : SliceRange) : Zset Bytes :=
  let (z,lo) := mergeBelow z (formatUint r.lo) (text r.owner)
  z.add memberLt r.hi (lo++58::(formatUint r.hi++58::text r.owner))

/-- The recording half of inodeAllocLua; it formats the number again. -/
def inodeRecord (z : Zset Bytes) (r : SliceRange) : Zset Bytes :=
  let (z,lo) := mergeBelow z (formatUint r.lo) (text r.owner)
  z.add memberLt r.hi (formatUint (decimal lo)++58::(formatUint r.hi++58::text r.owner))

inductive IdKind
  | inode | chunk
  deriving DecidableEq, Repr

def IdKind.batch : IdKind → ℕ
  | .inode => 1024
  | .chunk => 4096

/-- A batch as an INCRBY handed it out. -/
structure Batch where
  kind : IdKind
  db : ℕ
  range : SliceRange
  deriving DecidableEq, Repr

/-- Redis, the proxy's memory, and what is on its way between them. `handed` is every batch so
far; `replies` are batches whose reply the proxy has not read, `records` slice ranges about to be
recorded, `found` ranges an Owner call read and is about to remember. -/
structure AllocState where
  next : GoMap (ℕ × IdKind) ℕ := []
  ranges : GoMap (ℕ × IdKind) (Zset Bytes) := []
  mark : GoMap ℕ ℕ := []
  cache : GoMap IdKind (List SliceRange) := []
  markV : Option ℕ := none
  handed : List Batch := []
  replies : List Batch := []
  records : List SliceRange := []
  found : List (IdKind × SliceRange) := []

def sliceCacheMax : ℕ := 1024

/-- `remember`: a full cache drops its older half. -/
def remember (cache : List SliceRange) (r : SliceRange) : List SliceRange :=
  (if cache.length ≥ sliceCacheMax then cache.drop (cache.length/2) else cache)++[r]

/-- `strconv.ParseUint`. -/
def parseUintText (b : Bytes) : Option ℕ := if b=[] || !b.all isDigit then none else parseUint b

/-- The answer of Owner's ZRANGE; `none` is the error for a malformed member. -/
def rangeAt (z : Zset Bytes) (id : ℕ) : Option (Option SliceRange) :=
  match (z.above id).head? with
  | none => some none
  | some e =>
    match splitMember e.2 with
    | none => none
    | some (a,b,owner) =>
      match parseUintText a,parseUintText b with
      | some lo,some hi => some (if id<lo || id > hi then none else some ⟨lo,hi,ofText owner⟩)
      | _,_ => some none

namespace AllocState
variable (s : AllocState)

def nextOf (db : ℕ) (k : IdKind) : ℕ := s.next.getD (db,k) 0

def rangesOf (db : ℕ) (k : IdKind) : Zset Bytes := s.ranges.getD (db,k) []

def cacheOf (k : IdKind) : List SliceRange := s.cache.getD k []

/-- The cache half of `redisRanges.Owner`: the newest range that holds the id. -/
def cacheOwner (k : IdKind) (id : ℕ) : Option String :=
  ((s.cacheOf k).reverse.find? (fun r => r.contains id)).map (·.owner)

def keepRange (k : IdKind) (r : SliceRange) : AllocState :=
  { s with cache := s.cache.set k (remember (s.cacheOf k) r) }

/-- The mark of inodeMarkLua and inodeAllocLua: set from nextinode if it is not there. -/
def withMark (db : ℕ) : AllocState :=
  if (s.mark.get? db).isSome then s else { s with mark := s.mark.set db (s.nextOf db .inode) }

def nextRange (db : ℕ) (k : IdKind) (owner : String) : SliceRange :=
  ⟨s.nextOf db k+1,s.nextOf db k+k.batch,owner⟩

/-- A bare INCRBY of one batch in the connection's database: inodeAllocLua, or a plain INCRBY whose
ids are recorded from the reply. -/
def alloc (k : IdKind) (db : ℕ) (owner : String) : AllocState :=
  let r := s.nextRange db k owner
  let t := match k with
    | .inode =>
      { s.withMark db with ranges := s.ranges.set (db,.inode) (inodeRecord (s.rangesOf db .inode) r) }
    | .chunk => s
  { t with
    next := s.next.set (db,k) r.hi
    handed := ⟨k,db,r⟩::s.handed
    replies := s.replies++[⟨k,db,r⟩] }

end AllocState

inductive AllocAction
  | alloc (k : IdKind) (db : ℕ) (owner : String)
  | hook (i : ℕ)
  | lose (i : ℕ)
  | record (i : ℕ)
  | recordFails (i : ℕ)
  | find (k : IdKind) (id : ℕ)
  | keep (i : ℕ)
  | inodeMark
  | restart

/-- One step; `vol` is VolumeDB, where the owners are read and slice ranges recorded. -/
def allocStep (vol : ℕ) (s : AllocState) : AllocAction → Option AllocState
  | .alloc k db owner => some (s.alloc k db owner)
  | .hook i =>
    match s.replies[i]? with
    | none => none
    | some b =>
      let t := { s.keepRange b.kind b.range with replies := s.replies.eraseIdx i }
      some (match b.kind with
        | .inode => t
        | .chunk => { t with records := s.records++[b.range] })
  | .lose i => if i<s.replies.length then some { s with replies := s.replies.eraseIdx i } else none
  | .record i =>
    match s.records[i]? with
    | none => none
    | some r =>
      some { s with
        records := s.records.eraseIdx i
        ranges := s.ranges.set (vol,.chunk) (mergeRangeLua (s.rangesOf vol .chunk) r) }
  | .recordFails i =>
    if i<s.records.length then some { s with records := s.records.eraseIdx i } else none
  | .find k id =>
    match rangeAt (s.rangesOf vol k) id with
    | some (some r) => some { s with found := s.found++[(k,r)] }
    | _ => some s
  | .keep i =>
    match s.found[i]? with
    | none => none
    | some e => some { s.keepRange e.1 e.2 with found := s.found.eraseIdx i }
  | .inodeMark =>
    if s.markV.isSome then some s
    else
      let t := s.withMark vol
      some { t with markV := t.mark.get? vol }
  | .restart =>
    some { s with cache := [], markV := none, replies := [], records := [], found := [] }

/-- One entry a unit sets for an inode: the directory and the type in the entry. -/
structure PlacedIn where
  dir : ℕ
  typ : UInt8
  deriving DecidableEq, Repr

/-- `newInodeGate`: an inode that does not exist yet is created in one directory, its Attr.Parent,
with the entry's type, from a number of the principal's own batch, or one handed out before batches
were recorded. -/
def newInodeGate (p : Principal) (u : DecisionUnit) (n : ℕ) (newHere : List PlacedIn)
    (attrs : GoMap ℕ AttrInfo) : Option Denial :=
  match attrs.get? n,newHere with
  | some a,[e] =>
    if a.parent≠e.dir then some (deny .unknownKey)
    else if a.typ≠e.typ then some (deny .unknownKey)
    else
      match u.inodeOwner with
      | none => some (deny .adminOnly)
      | some ask =>
        match ask n with
        | none => some (deny .bgOnly)
        | some (some owner) => if owner≠p.name then some (deny .adminOnly) else none
        | some none =>
          match u.inodeMark with
          | none => some (deny .adminOnly)
          | some none => some (deny .bgOnly)
          | some (some mark) => if n > mark then some (deny .adminOnly) else none
  | _,_ => some (deny .unknownKey)

end JuiceMount.RespProxy
