import JuiceMount.RespProxy.Keys
import JuiceMount.RespProxy.Leases

/-! `JM.LEASE HEARTBEAT`: the Mac's tick lists every project with uploads pending in one command; the proxy
resolves the list and then renews the Mac's leases. -/
namespace JuiceMount.RespProxy
open List

/-- Why a project name is refused, one constructor for each text of `errBadProj`. -/
inductive BadProj
  | badInode | inTrash | cannotResolve | notInside (kind : NsKind) | aboveDepth | cannotRead
  | noSuchDirectory (name : Bytes) | notDirectory (name : Bytes) | notProject | usage
  deriving DecidableEq, Repr

/-- The reply to an HGET of a directory entry. -/
inductive EntryReply
  | failed | null | str (v : Bytes)
  deriving DecidableEq, Repr

/-- What the engine reads while it resolves names: the directories in Redis, and what the ancestry answers
for a directory and for an inode (`none` for an error). -/
structure NameView where
  depth : ℕ
  hget : ℕ → Bytes → EntryReply
  resolveDir : ℕ → Option Location
  resolveInode : ℕ → Option (List Location)

def entryInode (v : Bytes) : Option ℕ :=
  if v.length≠9 then none else some ((v.drop 1).foldl (fun n c => n*2^8+c.toNat) 0)

def entryType (v : Bytes) : Option UInt8 := if v.length≠9 then none else v.head?

def typeDir : UInt8 := 2

/-- `strings.FieldsFunc` at slashes. -/
def pathParts (b : Bytes) : List Bytes := (b.splitOn 47).filter (fun part => part≠[])

namespace NameView

/-- The walk from `cur` down the names. -/
def walk (v : NameView) : ℕ → List Bytes → Except BadProj ℕ
  | cur,[] => .ok cur
  | cur,name::rest =>
    match v.hget cur name with
    | .failed => .error .cannotRead
    | .null => .error (.noSuchDirectory name)
    | .str e =>
      match entryInode e with
      | none => .error (.notDirectory name)
      | some n => if entryType e≠some typeDir then .error (.notDirectory name) else v.walk n rest

def resolveProj (v : NameView) (spec : Bytes) : Except BadProj ℕ :=
  match afterLit "ino:" spec with
  | some b =>
    match digits b with
    | none => .error .badInode
    | some n =>
      if n=0 then .error .badInode
      else if isTrashIno n then .error .inTrash
      else
        match v.resolveInode n with
        | none => .error .cannotResolve
        | some [] => .error (.notInside .unknown)
        | some (loc::_) => if loc.kind≠.project then .error (.notInside loc.kind) else .ok loc.proj
  | none =>
    match afterLit "path:" spec with
    | some b =>
      if (pathParts b).length<v.depth then .error .aboveDepth
      else
        match v.walk rootIno ((pathParts b).take v.depth) with
        | .error e => .error e
        | .ok cur =>
          match v.resolveDir cur with
          | none => .error .notProject
          | some loc => if loc.kind≠.project then .error .notProject else .ok loc.proj
    | none => .error .usage

/-- The loop of `cmdHeartbeat` over its arguments: it leaves at the first name that does not resolve. -/
def resolveAll (v : NameView) : List Bytes → Except BadProj (List ℕ)
  | [] => .ok []
  | spec::rest =>
    match v.resolveProj spec with
    | .error e => .error e
    | .ok proj =>
      match v.resolveAll rest with
      | .error e => .error e
      | .ok projs => .ok (proj::projs)

end NameView

/-- The engine's records, each under its own project (`leaseLocked` is all that adds one). -/
structure LeaseTable where
  leases : GoMap ℕ Lease
  proj_eq : ∀ e∈leases, e.2.proj=e.1

/-- One entry of the reply to a heartbeat. -/
structure HeartbeatRecord where
  proj : ℕ
  epoch : ℕ
  held : Bool
  mode : LeaseMode
  deriving DecidableEq, Repr

lemma heartbeatLease_proj (p : String) (pending : ℕ → Bool) (now : ℤ) (l : Lease) :
    (heartbeatLease p pending now l).proj=l.proj := by
  unfold heartbeatLease
  split_ifs <;> rfl

namespace LeaseTable

/-- The table after `heartbeat`: every lease of `p` is renewed, listed or not. -/
def heartbeat (t : LeaseTable) (p : String) (pending : List ℕ) (now : ℤ) : LeaseTable where
  leases := t.leases.map (fun e => (e.1,heartbeatLease p (fun n => pending.contains n) now e.2))
  proj_eq := by
    intro e he
    obtain ⟨x,hx,rfl⟩ := mem_map.mp he
    rw [heartbeatLease_proj]
    exact t.proj_eq x hx

/-- The reply: what `p` holds after the renewal, then what it lost. -/
def heartbeatReply (t : LeaseTable) (p : String) (pending : List ℕ) : List HeartbeatRecord :=
  let mine := (t.leases.map Prod.snd).filter (fun l => l.holder=p)
  let held := (mine.filter (fun l => !l.unresolved)).mergeSort (fun x y => x.proj≤y.proj)
  let others := pending.dedup.filter (fun n => (t.leases.get? n).all (fun l => l.holder≠p))
  let lost := ((mine.filter Lease.unresolved).map Lease.proj++others).mergeSort (fun x y => x≤y)
  held.map (fun l => ⟨l.proj,l.epoch,true,l.mode⟩)++
    lost.map (fun n => ⟨n,((t.leases.get? n).map Lease.epoch).getD 0,false,.none⟩)

def cmdHeartbeat (v : NameView) (p : String) (now : ℤ) (t : LeaseTable) (a : List Bytes) :
    Except BadProj (List HeartbeatRecord) × LeaseTable :=
  match v.resolveAll a with
  | .error e => (.error e,t)
  | .ok pending => (.ok (t.heartbeatReply p pending),t.heartbeat p pending now)

/-- The lease of `a/p`, its uploads waiting. -/
def waiting : LeaseTable where
  leases := [(3,{ proj := 3, holder := "mac", epoch := 1, mode := .auto, pending := true })]
  proj_eq := by decide

end LeaseTable
end JuiceMount.RespProxy
