import JuiceMount.Lib.GoMap
import JuiceMount.Lib.Int64
import JuiceMount.Lib.Lists
import JuiceMount.Lib.Transition

/-! Publication of the bounded children of one directory-sized parent. A legacy child is named by its
targets and a tracked one by its index; a child whose record exists is not published again. The script
of a tracked parent can be cut after any of its writes. -/
namespace JuiceMount.FarmQueue.Shards
open JuiceMount.Lists Transition

abbrev Text := List Char

structure Parent where
  id : Text
  tracked : Bool
  planOnly : Bool
  shardCount : ℕ := 0

structure Child where
  id : Text
  targets : List Text
  shardIndex : ℕ
  shardCount : ℤ
  deriving DecidableEq

/-- %04d. -/
def pad4 (n : ℕ) : Text := List.replicate (4-(Nat.toDigits 10 n).length) '0'++Nat.toDigits 10 n

def shardInfix : Text := "-shard-".toList

/-- The ID of the tracked shard with this index. -/
def trackedShardID (parent : Parent) (i : ℕ) : Text := parent.id++shardInfix++pad4 (i+1)

/-- The ID by the targets; a repeated shard has its index as well. -/
def legacyShardID (digest : List Text → Text) (parent : Parent) (seen : List Text) (i : ℕ) (targets : List Text) : Text :=
  let id := parent.id++shardInfix++digest targets
  if seen.contains id then id++['-']++pad4 (i+1) else id

/-- The children of the pieces from index `i` on. -/
def namedShards (digest : List Text → Text) (parent : Parent) (count : ℤ) : ℕ → List Text → List (List Text) → List Child
  | _,_,[] => []
  | i,seen,ts::rest =>
    let id := if parent.tracked then trackedShardID parent i else legacyShardID digest parent seen i ts
    ⟨id,ts,i+1,count⟩::namedShards digest parent count (i+1) (id::seen) rest

/-- A count that the sum overflows to a negative number makes the allocation panic. -/
def newTargetShards (digest : List Text → Text) (parent : Parent) (targets : List Text) (maxTargets : ℤ) : Option (List Child) :=
  let count := (int64 (targets.length+maxTargets-1)).tdiv maxTargets
  if parent.id.all Char.isWhitespace || 0<parent.shardCount || maxTargets<1 || targets=[] ||
      (targets.length ≤ maxTargets && !parent.planOnly) || count<0 then none
  else some (namedShards digest parent count 0 [] (chunks maxTargets.toNat targets))

/-- The record of a child. Until it is filled it has none of what the script compares. `inLane` says that
the stored payload waits in its lane, and `published` is the marker of a tracked child. -/
structure Record where
  payload : Option (List Text) := none
  queued : Bool := true
  inLane : Bool := false
  published : Bool := false
  deriving DecidableEq

/-- What Redis has about the children of the parent. `pushed` are the children that were ever put into a
lane, with the targets they had then. -/
structure Store where
  records : GoMap Text Record := []
  pushed : List (Text × List Text) := []
  ledger : Bool := false
  members : List Text := []
  receipt : Bool := false
  dispatched : Bool := false

def Store.update (s : Store) (id : Text) (f : Record → Record) : Store :=
  { s with records := s.records.set id (f ((s.records.get? id).getD {})) }

/-- One write of the script. -/
inductive Write
  | openLedger
  | addMember (id : Text)
  | create (id : Text)
  | fill (id : Text) (targets : List Text)
  | push (id : Text) (targets : List Text)
  | publish (id : Text)
  | receipt
  | dispatch

def Store.write (s : Store) : Write → Store
  | .openLedger => { s with ledger := true }
  | .addMember id => { s with members := id::s.members }
  | .create id => s.update id (fun r => r)
  | .fill id ts => s.update id (fun r => { r with payload := some ts })
  | .push id ts => { s.update id (fun r => { r with inLane := true }) with pushed := (id,ts)::s.pushed }
  | .publish id => s.update id (fun r => { r with published := true })
  | .receipt => { s with receipt := true }
  | .dispatch => { s with dispatched := true }

/-- A record that is not one of this plan, or that was not published and has other targets. -/
def Store.refuses (s : Store) (c : Child) : Bool :=
  match s.records.get? c.id with
  | none => false
  | some r => r.payload.isNone || !s.ledger || !s.members.contains c.id || (!r.published && r.payload≠some c.targets)

def Store.childWrites (s : Store) (c : Child) : List Write :=
  match s.records.get? c.id with
  | none => [.create c.id,.fill c.id c.targets,.push c.id c.targets,.publish c.id]
  | some r =>
    if r.published then []
    else (if r.queued && !r.inLane then [.push c.id (r.payload.getD [])] else [])++[.publish c.id]

/-- The writes of the script, if it does not refuse. After the receipt there are none. -/
def Store.planWrites (s : Store) (children : List Child) : Option (List Write) :=
  if s.receipt then (if s.dispatched then some [] else none)
  else if s.dispatched || children.any s.refuses then none
  else
    some ((if s.ledger then [] else [.openLedger])++
      ((children.map (·.id)).filter (!s.members.contains ·)).map .addMember++
      children.flatMap s.childWrites++[.receipt,.dispatch])

/-- One run of the planner. `routed` says that the children got their routes, and `admitted` that the claim
is current where the parent is tracked. A run that `crash`es is cut after that many writes. -/
structure Run where
  targets : List Text
  maxTargets : ℤ
  routed : Bool := true
  admitted : Bool := true
  crash : Option ℕ := none

/-- The transaction of a legacy parent: the children without a record. -/
def Store.publishLegacy (s : Store) (children : List Child) : Store :=
  (children.filter (fun c => (s.records.get? c.id).isNone)).foldl
    (fun t c => { t.update c.id (fun r => { r with inLane := true }) with pushed := (c.id,c.targets)::t.pushed }) s

/-- The store after the run, and whether the run reports that the children are published. -/
def enqueueTargetShards (digest : List Text → Text) (parent : Parent) (r : Run) (s : Store) : Store × Bool :=
  match newTargetShards digest parent r.targets r.maxTargets with
  | none => (s,false)
  | some children =>
    if !r.routed then (s,false)
    else if parent.tracked then
      if !r.admitted then (s,false)
      else
        match s.planWrites children,r.crash with
        | none,_ => (s,false)
        | some ws,none => (ws.foldl Store.write s,true)
        | some ws,some k => ((ws.take k).foldl Store.write s,false)
    else
      match r.crash with
      | some 0 => (s,false)
      | some (_+1) => (s.publishLegacy children,false)
      | none => (s.publishLegacy children,true)

/-- A run, or what others do with the children: a worker claims one or returns it, perhaps with fewer
targets, the record of a finished one is cleared, and the planner's acknowledgement completes a receipt. -/
inductive Op
  | run (r : Run)
  | claim (id : Text)
  | requeue (id : Text) (targets : List Text)
  | clear (id : Text)
  | ack

def step (digest : List Text → Text) (parent : Parent) (s : Store) : Op → Option Store
  | .run r => some (enqueueTargetShards digest parent r s).1
  | .claim id =>
    match s.records.get? id with
    | some r => if r.inLane then some (s.update id (fun r => { r with inLane := false, queued := false })) else none
    | none => none
  | .requeue id ts =>
    match s.records.get? id with
    | some r =>
      if r.queued then none
      else
        some { s.update id (fun r => { r with payload := some ts, inLane := true, queued := true }) with
          pushed := (id,ts)::s.pushed }
    | none => none
  | .clear id =>
    match s.records.get? id with
    | some r => if r.queued then none else some { s with records := s.records.erase id }
    | none => none
  | .ack => if s.receipt then some { s with dispatched := true } else none

end JuiceMount.FarmQueue.Shards
