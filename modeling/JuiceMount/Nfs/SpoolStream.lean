import JuiceMount.Lib.FileImage

/-! One spool entry while it is streamed to the backend: the lock-protected sections of `WriteAt`,
`Truncate` and reads, and the unlocked steps of `advanceStream` and `finishStreamSession`, each a
step of its own. Failures of the disk and of the backend are arguments of the steps. -/
namespace JuiceMount.Nfs
open FileImage

/-- `spoolStreamMinSize`, `spoolSealMargin`, `spoolSealHeadReserve`, `streamChunkSize` and
`punchBlockSize`. -/
structure StreamCfg where
  minSize : ℕ := 2^30
  sealMargin : ℕ := 2^26
  headReserve : ℕ := 2^26
  chunkSize : ℕ := 2^25
  blockSize : ℕ := 4096

structure SpoolExtent where
  start : ℕ
  stop : ℕ
  deriving DecidableEq, Repr

/-- The sweep of `insertExtent` over the extents in order of their starts. -/
def coalesce (last : SpoolExtent) : List SpoolExtent → List SpoolExtent
  | [] => [last]
  | x::exts =>
    if x.start≤last.stop then coalesce { last with stop := max last.stop x.stop } exts
    else last::coalesce x exts

def insertExtent (exts : List SpoolExtent) (s e : ℕ) : List SpoolExtent :=
  match List.insertionSort (fun x y : SpoolExtent => x.start≤y.start) (exts++[⟨s,e⟩]) with
  | [] => []
  | x::rest => coalesce x rest

def clipExtents (exts : List SpoolExtent) (size : ℕ) : List SpoolExtent :=
  (exts.filter (fun x => x.start<size)).map (fun x => { x with stop := min x.stop size })

def absorb (cend : ℕ) : List SpoolExtent → ℕ × List SpoolExtent
  | [] => (cend,[])
  | x::exts => if x.start≤cend then absorb (max cend x.stop) exts else (cend,x::exts)

def advanceContig (cend : ℕ) (exts : List SpoolExtent) (off stop : ℕ) : ℕ × List SpoolExtent :=
  if stop≤cend then (cend,exts)
  else if off≤cend then absorb stop exts
  else (cend,insertExtent exts off stop)

/-- The hidden sibling from `streamTempPath`, or the path of the file itself. -/
inductive DestPath
  | temp | real
  deriving DecidableEq, Repr

structure SpoolEntry where
  file : Image := .empty
  writtenEnd : ℕ := 0
  contiguousEnd : ℕ := 0
  writtenExtents : List SpoolExtent := []
  hashValid : Bool := true
  closed : Bool := false
  punchedEnd : ℕ := 0
  streamDest : Option DestPath := none

namespace SpoolEntry

/-- `SealedEnd`. -/
def sealedEnd (cfg : StreamCfg) (e : SpoolEntry) : ℕ :=
  if e.writtenEnd<cfg.minSize then 0
  else
    let sealed := min (e.contiguousEnd-cfg.sealMargin) (e.writtenEnd-cfg.sealMargin)
    if sealed≤cfg.headReserve then 0 else sealed

/-- The spool part of `WriteAt`: `p` is what reached the file, not empty. -/
def wrote (e : SpoolEntry) (p : Image) (off : ℕ) : SpoolEntry :=
  let prefixed := advanceContig e.contiguousEnd e.writtenExtents off (off+p.size)
  { e with
    file := e.file.writeAt p off
    writtenEnd := max e.writtenEnd (off+p.size)
    contiguousEnd := prefixed.1
    writtenExtents := prefixed.2
    hashValid := e.hashValid && !(off < e.writtenEnd : Bool) }

def truncate (e : SpoolEntry) (size : ℕ) : SpoolEntry :=
  if size=e.writtenEnd then e
  else
    { e with
      file := e.file.truncate size
      writtenEnd := size
      contiguousEnd := min e.contiguousEnd size
      writtenExtents := clipExtents e.writtenExtents size
      hashValid := false }

/-- `finalizeLocked`. -/
def finalize (e : SpoolEntry) : SpoolEntry :=
  { e with closed := true, contiguousEnd := max e.contiguousEnd e.writtenEnd }

end SpoolEntry

inductive ReadPlan
  | dest | spool | hold | eof
  deriving DecidableEq, Repr

/-- How far a read that the spool serves may go; `._` sidecars are never held. -/
def readEnd (e : SpoolEntry) (isAppleDouble : Bool) : ℕ :=
  if isAppleDouble then e.writtenEnd else e.contiguousEnd

def planReadAt (e : SpoolEntry) (writerActive isAppleDouble : Bool) (off : ℕ) : ReadPlan :=
  if off<e.punchedEnd then .dest
  else if off < readEnd e isAppleDouble then .spool
  else if !isAppleDouble && off<e.writtenEnd && writerActive then .hold
  else .eof

/-- A call of `WriteAt` that waits for the entry's lock: at its beginning, or after it waited for
capacity with the lock released. -/
structure WriteCall where
  data : Image
  off : ℕ
  parked : Bool

/-- What a write to the spool file reports as written, also when it fails part of the way. -/
def WriteCall.landed (c : WriteCall) (fail : Option ℕ) : Image :=
  match fail with
  | none => c.data
  | some n => c.data.take n

/-- A read routed at the destination, with the lock released. -/
structure DestRead where
  handle : ℕ
  off : ℕ
  count : ℕ
  path : DestPath

/-- How far an advance with its chunk in hand has come. -/
inductive ChunkStage
  | read | written | synced | verified | persisted
  deriving DecidableEq, Repr

/-- What `streamEntryOnce` is at. -/
inductive StreamTask
  | idle
  | opening
  | stepping
  | sealing
  | copying (start sealed : ℕ)
  | advance (stage : ChunkStage) (start : ℕ) (buf : Image)
  | punching (start sealed : ℕ)
  | finishing
  | tail (start : ℕ) (buf : Image)
  | tailWritten
  | publishing
  | renamed

/-- `inodes` are the backend's files, with the names of the partial and of the real file; `session`
is the file of the session's handles and `handles` the `destFD` of each read handle. `logical` is
the file as the acknowledged writes and truncates make it, and `returned` what the last step
handed to a reader. -/
structure StreamState where
  entry : SpoolEntry := {}
  inodes : ℕ → Image
  next : ℕ
  temp : Option ℕ := none
  real : Option ℕ
  session : Option ℕ := none
  task : StreamTask := .idle
  calls : List WriteCall := []
  handles : ℕ → Option ℕ := fun _ => none
  reads : List DestRead := []
  persisted : ℕ := 0
  published : Bool := false
  logical : Image := .empty
  returned : Option (ℕ × Image) := none

namespace StreamState

def inodeAt (s : StreamState) : DestPath → Option ℕ
  | .temp => s.temp
  | .real => s.real

def setInode (s : StreamState) (d : ℕ) (f : Image) : StreamState :=
  { s with inodes := Function.update s.inodes d f }

def writeSession (s : StreamState) (p : Image) (off : ℕ) : StreamState :=
  match s.session with
  | none => s
  | some d => s.setInode d ((s.inodes d).writeAt p off)

def spoilHash (s : StreamState) : StreamState := { s with entry := { s.entry with hashValid := false } }

/-- `writeBelowPunchedLocked`. `fail` is the number of bytes that reached the partial before the
write or its fsync failed; the part above the boundary is a call of its own. -/
def writeBelowPunched (s : StreamState) (c : WriteCall) (fail : Option ℕ) : StreamState :=
  match s.entry.streamDest.map s.inodeAt with
  | none => s
  | some none => s.spoilHash
  | some (some d) =>
    let below := c.data.take (s.entry.punchedEnd-c.off)
    match fail with
    | some n => s.spoilHash.setInode d ((s.inodes d).writeAt (below.take n) c.off)
    | none =>
      { s.spoilHash.setInode d ((s.inodes d).writeAt below c.off) with
        logical := s.logical.writeAt below c.off
        calls := if below.size=c.data.size then s.calls
          else s.calls++[⟨c.data.drop below.size,c.off+below.size,false⟩] }

/-- The rest of `WriteAt` once capacity is reserved. -/
def writeSpool (s : StreamState) (c : WriteCall) (fail : Option ℕ) : StreamState :=
  let p := c.landed fail
  if p.size=0 then s
  else { s with entry := s.entry.wrote p c.off, logical := s.logical.writeAt p c.off }

/-- `sessionFor`: open the partial, creating it if it is not there, and route readers at it. -/
def openSession (s : StreamState) : StreamState :=
  match s.session with
  | some _ => s
  | none =>
    let s := { s with entry := { s.entry with streamDest := some .temp } }
    match s.temp with
    | some d => { s with session := some d }
    | none => { s.setInode s.next .empty with temp := some s.next, session := some s.next, next := s.next+1 }

end StreamState

inductive StreamAction
  | writeAt (p : Image) (off : ℕ)
  | enter (k : ℕ) (room : Bool) (fail : Option ℕ)
  | resume (k : ℕ) (fail : Option ℕ)
  | giveUp (k : ℕ)
  | truncate (size : ℕ) (ok : Bool)
  | finalize
  | read (handle off count : ℕ) (writerActive isAppleDouble : Bool)
  | readDest (k : ℕ)
  | tick
  | openSession (ok : Bool)
  | recheck
  | sealChunk
  | readChunk
  | writeChunk (fail : Option ℕ)
  | syncChunk (ok : Bool)
  | verifyChunk (ok : Bool)
  | persistEnd (ok : Bool)
  | publishEnd
  | punch (ok : Bool)
  | finishRead
  | writeTail (fail : Option ℕ)
  | syncTail (ok : Bool)
  | rename (ok : Bool)
  | repoint

/-- `punchRange`, aligned inward. -/
def punchRange (cfg : StreamCfg) (f : Image) (off stop : ℕ) : Image :=
  let alignedOff := (off+cfg.blockSize-1)/cfg.blockSize*cfg.blockSize
  let alignedEnd := stop/cfg.blockSize*cfg.blockSize
  if alignedEnd≤alignedOff then f else f.punch alignedOff alignedEnd

/-- The steps of writers and readers. A call that finds the entry closed fails. -/
def clientStep (s : StreamState) : StreamAction → Option StreamState
  | .writeAt p off => if p.size=0 then some s else some { s with calls := s.calls++[⟨p,off,false⟩] }
  | .enter k room fail =>
    match s.calls[k]? with
    | none => none
    | some c =>
      if c.parked then none
      else
        let s := { s with calls := s.calls.eraseIdx k }
        if s.entry.closed then some s
        else if 0<s.entry.punchedEnd ∧ c.off<s.entry.punchedEnd then some (s.writeBelowPunched c fail)
        else if s.entry.writtenEnd < c.off+c.data.size ∧ !room then
          some { s with calls := s.calls++[{ c with parked := true }] }
        else some (s.writeSpool c fail)
  | .resume k fail =>
    match s.calls[k]? with
    | none => none
    | some c =>
      if !c.parked then none
      else
        let s := { s with calls := s.calls.eraseIdx k }
        -- only `closed` is looked at again, not the boundary
        if s.entry.closed then some s else some (s.writeSpool c fail)
  | .giveUp k =>
    match s.calls[k]? with
    | none => none
    | some c => if c.parked then some { s with calls := s.calls.eraseIdx k } else none
  | .truncate size ok =>
    if s.entry.closed || !ok then some s
    else some { s with entry := s.entry.truncate size, logical := s.logical.truncate size }
  | .finalize => some { s with entry := s.entry.finalize }
  | .read h off count active double =>
    match planReadAt s.entry active double off with
    | .dest =>
      match s.entry.streamDest with
      | none => some s
      | some path =>
        some { s with reads := s.reads++[⟨h,off,min count (s.entry.punchedEnd-off),path⟩] }
    | .spool =>
      let n := min count (min (readEnd s.entry double) s.entry.file.size-off)
      some { s with returned := some (off,s.entry.file.slice off n) }
    | .hold | .eof => some s
  | .readDest k =>
    match s.reads[k]? with
    | none => none
    | some r =>
      let s := { s with reads := s.reads.eraseIdx k }
      match (s.handles r.handle).or (s.inodeAt r.path) with
      | none => some s
      | some d =>
        let s := { s with handles := Function.update s.handles r.handle (some d) }
        -- a short read of the promised range is an error
        if (s.inodes d).size < r.off+r.count then some s
        else some { s with returned := some (r.off,(s.inodes d).slice r.off r.count) }
  | _ => none

/-- The steps of `streamEntryOnce`, which one goroutine runs. -/
def drainStep (cfg : StreamCfg) (s : StreamState) (a : StreamAction) : Option StreamState :=
  match s.task,a with
  | .idle,.tick =>
    if s.session.isSome && s.entry.closed then some { s with task := .finishing }
    else if !s.entry.hashValid || s.entry.sealedEnd cfg=0 then some { s with session := none }
    else some { s with task := .opening }
  | .opening,.openSession ok =>
    if ok then some { s.openSession with task := .stepping } else some { s with task := .idle }
  | .stepping,.recheck =>
    if !s.entry.hashValid || s.entry.sealedEnd cfg=0 then some { s with task := .idle }
    else some { s with task := .sealing }
  | .sealing,.sealChunk =>
    let start := s.entry.punchedEnd
    let sealed := max (s.entry.sealedEnd cfg) start
    if sealed ≤ start then some { s with task := .idle }
    else some { s with task := .copying start (min sealed (start+cfg.chunkSize)) }
  | .copying start sealed,.readChunk =>
    if s.entry.file.size<sealed then some { s with task := .idle }
    else some { s with task := .advance .read start (s.entry.file.slice start (sealed-start)) }
  | .advance .read start buf,.writeChunk fail =>
    match fail with
    | some n => some { s.writeSession (buf.take n) start with task := .idle }
    | none => some { s.writeSession buf start with task := .advance .written start buf }
  | .advance .written start buf,.syncChunk ok =>
    some { s with task := if ok then .advance .synced start buf else .idle }
  | .advance .synced start buf,.verifyChunk ok =>
    -- the partial has no other writer above the boundary: what is read back is the chunk
    some { s with task := if ok then .advance .verified start buf else .idle }
  | .advance .verified start buf,.persistEnd ok =>
    if ok then some { s with persisted := start+buf.size, task := .advance .persisted start buf }
    else some { s with task := .idle }
  | .advance .persisted start buf,.publishEnd =>
    some { s with
      entry := { s.entry with punchedEnd := max s.entry.punchedEnd (start+buf.size) }
      task := .punching start (start+buf.size) }
  | .punching start sealed,.punch ok =>
    if ok then
      some { s with entry := { s.entry with file := punchRange cfg s.entry.file start sealed }, task := .idle }
    else some { s with task := .idle }
  | .finishing,.finishRead =>
    let start := s.entry.punchedEnd
    let stop := s.entry.writtenEnd
    if stop ≤ start then some { s with task := .publishing }
    else if s.entry.file.size<stop then some { s with session := none, task := .idle }
    else some { s with task := .tail start (s.entry.file.slice start (stop-start)) }
  | .tail start buf,.writeTail fail =>
    match fail with
    | some n => some { s.writeSession (buf.take n) start with session := none, task := .idle }
    | none => some { s.writeSession buf start with task := .tailWritten }
  | .tailWritten,.syncTail ok =>
    if ok then some { s with task := .publishing } else some { s with session := none, task := .idle }
  | .publishing,.rename ok =>
    -- `renameStreamNoReplace`
    if !ok || s.real.isSome then some { s with session := none, task := .idle }
    else some { s with real := s.temp, temp := none, published := true, task := .renamed }
  | .renamed,.repoint =>
    some { s with entry := { s.entry with streamDest := some .real }, session := none, task := .idle }
  | _,_ => none

def streamStep (cfg : StreamCfg) (s : StreamState) (a : StreamAction) : Option StreamState :=
  let s := { s with returned := none }
  (clientStep s a).or (drainStep cfg s a)

/-- A new entry; the backend may have a file at the path already. -/
def newEntry (inodes : ℕ → Image) (next : ℕ) (real : Option ℕ) : StreamState :=
  { inodes := inodes, next := next, real := real }

end JuiceMount.Nfs
