import JuiceMount.Lib.Transition
import JuiceMount.Metadata.ReconcileDir

/-! The search index over the table of entries: entries_fts has no content of its own, so that a row must be
subtracted as it was added. With JM_FTS_DEFER a written row is marked in fts_pending and indexed later.
A step is a transaction; one that fails changes nothing. -/
namespace JuiceMount.Metadata.Search
open Mirror

/-- A row of the table, as far as it is indexed. -/
structure Row where
  rowid : ℤ
  name : Name
  path : TreePath
  deriving DecidableEq, Repr

/-- What entries_fts is told. -/
inductive Command
  | insert (r : Row)
  | delete (r : Row)
  | deleteAll

def Command.apply (index : List Row) : Command → List Row
  | .insert r => r::index
  | .delete r => index.erase r
  | .deleteAll => []

/-- What is subtracted is indexed, and what is added has a rowid that is not. -/
def Command.legal (index : List Row) : Command → Bool
  | .insert r => index.all (·.rowid≠r.rowid)
  | .delete r => index.contains r
  | .deleteAll => true

/-- The value of fts_index_epoch. -/
inductive Epoch
  | current | dirty
  deriving DecidableEq, Repr

structure Db where
  entries : List Row := []
  index : List Row := []
  pending : List ℤ := []
  epoch : Option Epoch := none
  deriving DecidableEq, Repr

def Db.rowOf (db : Db) (p : TreePath) : Option Row := db.entries.find? (·.path=p)

def Db.removeRow (db : Db) (p : TreePath) : Db := { db with entries := db.entries.filter (·.path≠p) }

/-- INSERT OR REPLACE. SQLite chooses a rowid that no other row has. -/
def Db.replaceRow (db : Db) (r : Row) : Option Db :=
  if (db.removeRow r.path).entries.any (·.rowid=r.rowid) then none
  else some { db with entries := r::(db.removeRow r.path).entries }

/-- A transaction, with whether its commands so far were legal. -/
structure Tx where
  db : Db
  legal : Bool := true

namespace Tx

def issue (t : Tx) (c : Command) : Tx := ⟨{ t.db with index := c.apply t.db.index },t.legal && c.legal t.db.index⟩

def clearPending (t : Tx) (rowid : ℤ) : Tx := { t with db := { t.db with pending := t.db.pending.filter (· ≠ rowid) } }

def markPending (t : Tx) (rowid : ℤ) : Tx :=
  if t.db.pending.contains rowid then t else { t with db := { t.db with pending := rowid::t.db.pending } }

end Tx

section Writers
variable (deferFTS : Bool)

def ftsDeleteOldRowid (t : Tx) (old : Row) : Tx :=
  if deferFTS then
    if t.db.pending.contains old.rowid then t.clearPending old.rowid
    else (t.issue (.delete old)).clearPending old.rowid
  else t.issue (.delete old)

def ftsInsertNew (t : Tx) (r : Row) : Tx := if deferFTS then t.markPending r.rowid else t.issue (.insert r)

def ftsExternalUpsert (t : Tx) (r : Row) : Option Tx :=
  (t.db.replaceRow r).map (fun db =>
    let replaced : Tx := { t with db := db }
    let cleared :=
      match t.db.rowOf r.path with
      | some old => ftsDeleteOldRowid deferFTS replaced old
      | none => replaced
    ftsInsertNew deferFTS cleared r)

def ftsExternalInsertAbsent (t : Tx) (r : Row) : Option Tx :=
  if (t.db.rowOf r.path).isSome then some t
  else (t.db.replaceRow r).map (fun db => ftsInsertNew deferFTS { t with db := db } r)

/-- One path of Delete and DeletePaths. -/
def deletePath (t : Tx) (p : TreePath) : Tx :=
  match t.db.rowOf p with
  | none => t
  | some old => ftsDeleteOldRowid deferFTS { t with db := t.db.removeRow p } old

def deleteMirrorRow (t : Tx) (p : TreePath) : Option Tx :=
  (t.db.rowOf p).map (fun old =>
    let cleared := ftsDeleteOldRowid deferFTS t old
    { cleared with db := cleared.db.removeRow p })

end Writers

/-- The statements of which the writers' transactions are made: a rename is `deleteMirrorRow` for each row
and then an upsert for each, a batch is upserts. -/
inductive Statement
  | upsert (r : Row)
  | insertAbsent (r : Row)
  | deletePath (p : TreePath)
  | deleteMirrorRow (p : TreePath)

def Statement.exec (deferFTS : Bool) (t : Tx) : Statement → Option Tx
  | .upsert r => ftsExternalUpsert deferFTS t r
  | .insertAbsent r => ftsExternalInsertAbsent deferFTS t r
  | .deletePath p => some (Search.deletePath deferFTS t p)
  | .deleteMirrorRow p => Search.deleteMirrorRow deferFTS t p

def transaction (deferFTS : Bool) (db : Db) (statements : List Statement) : Option Tx :=
  statements.foldlM (Statement.exec deferFTS) ⟨db,true⟩

/-- What a large load writes: rows alone. -/
inductive LoadStatement
  | upsert (r : Row)
  | insertAbsent (r : Row)

def LoadStatement.exec (db : Db) : LoadStatement → Option Db
  | .upsert r => db.replaceRow r
  | .insertAbsent r => if (db.rowOf r.path).isSome then some db else db.replaceRow r

def compactRow (t : Tx) (rowid : ℤ) : Tx :=
  let indexed :=
    match t.db.entries.find? (·.rowid=rowid) with
    | some r => t.issue (.insert r)
    | none => t
  indexed.clearPending rowid

def compactFTSBatch (db : Db) (limit : ℤ) : Tx :=
  ((db.pending.insertionSort (· ≤ ·)).take (if limit≤0 then 1 else limit.toNat)).foldl compactRow ⟨db,true⟩

def rebuildFTS (db : Db) : Tx :=
  let cleared : Tx := Tx.issue ⟨db,true⟩ .deleteAll
  let filled := db.entries.foldl (fun t r => t.issue (.insert r)) cleared
  { filled with db := { filled.db with pending := [], epoch := some .current } }

def ftsFullRebuildThreshold : ℕ := 5000

/-- A batch of GC: rows of the internal namespaces go, and the index does not follow. -/
def gcInternalNamespaces (db : Db) (selected : List TreePath) : Option Db :=
  if selected.length≤5000 && selected.all (fun p => scanFilteredDescendant p && (db.rowOf p).isSome) then
    some { db with
      entries := db.entries.filter (fun r => !selected.contains r.path)
      epoch := if selected.isEmpty then db.epoch else some .dirty }
  else none

def openRebuilds (db : Db) (forced : Bool) : Bool :=
  !db.pending.isEmpty || forced || (!db.entries.isEmpty && db.epoch.isNone) || db.epoch.any (· ≠ .current)

/-- `serving`: Open has returned; JM_FTS_DEFER is read once, and the index of a nonempty table counts as built. -/
inductive Phase
  | closed
  | opening (deferFTS : Bool)
  | serving (deferFTS ftsInitialized : Bool)
  deriving DecidableEq, Repr

/-- `loading`: a batch of a large load is committed and no rebuild since. -/
structure Store where
  db : Db := {}
  phase : Phase := .closed
  loading : Bool := false
  deriving DecidableEq, Repr

/-- `total` is the number of entries of the call that a batch of a load belongs to. Stopping is closing or
a crash. -/
inductive StoreOp
  | openDb (deferFTS : Bool)
  | gcInternalNamespaces (selected : List TreePath)
  | finishOpen (forced : Bool)
  | transaction (statements : List Statement)
  | loadBatch (total : ℕ) (batch : List LoadStatement)
  | markInitialized
  | compactFTSBatch (limit : ℤ)
  | rebuildFTS
  | stop

def Store.tx (s : Store) : StoreOp → Option Tx
  | .transaction statements =>
    match s.phase with
    | .serving deferFTS _ => Search.transaction deferFTS s.db statements
    | _ => none
  | .compactFTSBatch limit =>
    match s.phase with
    | .serving _ _ => some (Search.compactFTSBatch s.db limit)
    | _ => none
  | .rebuildFTS =>
    match s.phase with
    | .serving _ _ => some (Search.rebuildFTS s.db)
    | _ => none
  | _ => none

def step (s : Store) : StoreOp → Option Store
  | .openDb deferFTS => if s.phase=.closed then some { s with phase := .opening deferFTS } else none
  | .gcInternalNamespaces selected =>
    match s.phase with
    | .opening _ => (Search.gcInternalNamespaces s.db selected).map (fun db => { s with db := db })
    | _ => none
  | .finishOpen forced =>
    match s.phase with
    | .opening deferFTS =>
      let opened : Store := if openRebuilds s.db forced then { s with db := (Search.rebuildFTS s.db).db, loading := false } else s
      some { opened with phase := .serving deferFTS (!s.db.entries.isEmpty) }
    | _ => none
  | .loadBatch total batch =>
    match s.phase with
    | .serving _ ftsInitialized =>
      if ftsInitialized || total<ftsFullRebuildThreshold || total<batch.length then none
      else (batch.foldlM LoadStatement.exec s.db).map (fun db => { s with db := db, loading := true })
    | _ => none
  | .markInitialized =>
    match s.phase with
    | .serving deferFTS _ => some { s with phase := .serving deferFTS true }
    | _ => none
  | .transaction statements => (s.tx (.transaction statements)).map (fun t => { s with db := t.db })
  | .compactFTSBatch limit => (s.tx (.compactFTSBatch limit)).map (fun t => { s with db := t.db })
  | .rebuildFTS => (s.tx .rebuildFTS).map (fun t => { s with db := t.db, loading := false })
  | .stop => some { s with phase := .closed }

end JuiceMount.Metadata.Search
