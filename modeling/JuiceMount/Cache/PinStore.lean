import JuiceMount.Lib.Keyed
import JuiceMount.Lib.Transition

/-! The pin registry: the table of pinned files, and beside it the map of the admissions that reads rely on. An
operation holds the store mutex from its statement to its last report; a revoke of a reader takes the lock of
the map only. Generations are random and never drawn twice. -/
namespace JuiceMount.Cache.PinStore
open Transition List Keyed Option

inductive Status
  | unknown | pending | prefetching | ready | failed | unpinned
  deriving DecidableEq, Repr

/-- A row of the table, or a copy of one that a caller has. -/
structure Entry where
  path : String
  size : ℤ := 0
  status : Status := .pending
  pinRoot : String := ""
  generation : String := ""
  authority : List UInt8 := []
  deriving DecidableEq, Repr

def Entry.tag (e : Entry) : String × String := (e.path,e.generation)

/-- What an operation takes out of the map: RevokeReady, or the loop of Unpin. -/
inductive Sweep
  | path (path : String)
  | root (root : String)
  deriving DecidableEq, Repr

def Sweep.selects : Sweep → Entry → Bool
  | .path p,e => e.path=p
  | .root r,e => e.path=r || e.pinRoot=r

/-- Where the operation is that holds the store mutex: it sweeps, and `reports` comes first, or its SELECT has
found the row of the entry it is to admit. -/
inductive Holder
  | sweeping (todo : List Sweep) (reports : List Entry)
  | installing (e : Entry)
  deriving DecidableEq, Repr

/-- `calls` are the revokes outside of the mutex that have still to report, `held` the entries that callers were
given, and `used` the generations drawn so far. -/
structure Store where
  rows : List Entry
  ready : List Entry := []
  holder : Option Holder := none
  calls : List Entry := []
  reported : List (String × String) := []
  held : List Entry := []
  used : List String := []
  deriving DecidableEq, Repr

inductive Op
  | pin (path : String) (size : ℤ) (root gen : String)
  | pinMany (entries : List (Entry × String))
  | unpin (root : String)
  | unpinPath (path : String)
  | updateStatus (path : String) (status : Status)
  | updateStatusForEntry (e : Entry) (status : Status)
  | completeReady (e : Entry) (authority : List UInt8)
  | claimPrefetch (e : Entry) (gen : String)
  | requeueForRepair (e : Entry) (gen : String)
  | admitReady (e : Entry)
  deriving DecidableEq, Repr

def Op.drawn : Op → List String
  | .pin _ _ _ gen | .claimPrefetch _ gen | .requeueForRepair _ gen => [gen]
  | .pinMany entries => entries.map Prod.snd
  | _ => []

namespace Store

def pinned (e : Entry × String) : Entry :=
  { path := e.1.path, size := e.1.size, pinRoot := e.1.pinRoot, generation := e.2 }

/-- INSERT … ON CONFLICT(path) DO UPDATE, for the entries in turn. -/
def upsert (rows : List Entry) (entries : List (Entry × String)) : List Entry :=
  entries.foldl (fun rows e => Keyed.put Entry.path rows (pinned e)) rows

def pinAll (s : Store) (entries : List (Entry × String)) : Store :=
  { s with
    rows := upsert s.rows entries
    holder := some (.sweeping (entries.map fun e => .path e.1.path) [])
    used := entries.map Prod.snd++s.used }

/-- DELETE … WHERE `p`. -/
def delete (s : Store) (p : Entry → Bool) (sweep : Sweep) : Store :=
  { s with rows := s.rows.filter fun r => !p r, holder := some (.sweeping [sweep] []) }

/-- UPDATE … SET `f` WHERE path=? AND `p`. -/
def update (s : Store) (path : String) (p : Entry → Bool) (f : Entry → Entry) (todo : List Sweep) : Store :=
  { s with rows := s.rows.map fun r => if r.path=path && p r then f r else r, holder := some (.sweeping todo []) }

/-- The path is revoked if RowsAffected is not 0. -/
def affected (s : Store) (path : String) (p : Entry → Bool) : List Sweep :=
  if s.rows.any fun r => r.path=path && p r then [.path path] else []

def rotate (s : Store) (path : String) (p : Entry → Bool) (status : Status) (gen : String) : Store :=
  { s.update path p (fun r => { r with generation := gen, status := status, authority := [] }) (s.affected path p) with
    used := gen::s.used }

/-- The entry is a copy of one that the store gave out; the worker has set its authority. -/
def handed (s : Store) (e : Entry) : Bool :=
  s.held.any fun h => h.path=e.path && h.generation=e.generation && h.pinRoot=e.pinRoot

def exec (s : Store) : Op → Store
  | .pin path size root gen => s.pinAll [({ path := path, size := size, pinRoot := root },gen)]
  | .pinMany entries => s.pinAll entries
  | .unpin root => s.delete (fun r => r.pinRoot=root || r.path=root) (.root root)
  | .unpinPath path => s.delete (fun r => r.path=path) (.path path)
  | .updateStatus path status =>
    if status=.ready then s
    else s.update path (fun _ => true) (fun r => { r with status := status, authority := [] }) [.path path]
  | .updateStatusForEntry e status =>
    if status = .ready || e.generation = "" then s
    else
      let p := fun r : Entry => decide (r.generation=e.generation)
      s.update e.path p (fun r => { r with status := status, authority := [] }) (s.affected e.path p)
  | .completeReady e authority =>
    if e.generation = "" || authority = [] || e.size < 0 then s
    else s.update e.path (fun r => r.generation=e.generation && r.status=.prefetching)
      (fun r => { r with status := .ready, authority := authority }) []
  | .claimPrefetch e gen =>
    if e.generation = "" || e.status = .unknown then s
    else
      let p := fun r : Entry => decide (r.generation=e.generation) && decide (r.status=e.status)
      let s' := s.rotate e.path p .prefetching gen
      if s.affected e.path p≠[] && s.handed e then
        { s' with held := { e with generation := gen, status := .prefetching, authority := [] }::s.held }
      else s'
  | .requeueForRepair e gen =>
    if e.generation = "" then s
    else s.rotate e.path (fun r => r.generation=e.generation) .pending gen
  | .admitReady e =>
    if e.generation = "" || e.authority = [] then s
    else
      match s.rows.find? fun r => r.path=e.path && r.generation=e.generation with
      | none => s
      | some r => if r.status=.ready && r.authority=e.authority then { s with holder := some (.installing e) } else s

/-- Generations are new, and an admission is asked for with an entry of the store. -/
def enabled (s : Store) (op : Op) : Bool :=
  op.drawn.all (fun gen => gen ≠ "" && !s.used.contains gen) && decide op.drawn.Nodup &&
    match op with
    | .admitReady e => s.handed e
    | _ => true

def go (s : Store) : Holder → Store
  | .installing e => { s with ready := Keyed.put Entry.path s.ready e, holder := none }
  | .sweeping todo (e::reports) => { s with reported := e.tag::s.reported, holder := some (.sweeping todo reports) }
  | .sweeping [] [] => { s with holder := none }
  | .sweeping (sweep::todo) [] =>
    { s with
      ready := s.ready.filter fun e => !sweep.selects e
      holder := some (.sweeping todo (s.ready.filter sweep.selects)) }

def revoke (s : Store) (p : Entry → Bool) : Store :=
  { s with ready := s.ready.filter fun e => !p e, calls := s.ready.filter p++s.calls }

end Store

/-- `read` gives a caller the row at a place of the table. A statement that fails (`ok` is false) changes
nothing. -/
inductive Step
  | call (op : Op) (ok : Bool)
  | go
  | revokeReady (path : String)
  | revokeReadyIfGeneration (path gen : String)
  | report (i : ℕ)
  | read (i : ℕ)
  deriving DecidableEq, Repr

def step (s : Store) : Step → Option Store
  | .call op ok =>
    if s.holder=none && s.enabled op then some (if ok then s.exec op else s) else none
  | .go => s.holder.map s.go
  | .revokeReady path => some (s.revoke fun e => e.path=path)
  | .revokeReadyIfGeneration path gen => some (s.revoke fun e => e.path=path && e.generation=gen)
  | .report i =>
    s.calls[i]?.map fun e => { s with reported := e.tag::s.reported, calls := s.calls.eraseIdx i }
  | .read i =>
    if s.holder=none then s.rows[i]?.map fun r => { s with held := r::s.held } else none

def start (rows : List Entry) : Store := { rows := rows, used := rows.map Entry.generation }

def Holder.todo : Option Holder → List Sweep
  | some (.sweeping todo _) => todo
  | _ => []

def Holder.reports : Option Holder → List Entry
  | some (.sweeping _ reports) => reports
  | _ => []

/-- What was reported, and what the calls in flight have still to report. -/
def Store.reports (s : Store) : List (String × String) :=
  s.reported++(Holder.reports s.holder++s.calls).map Entry.tag

/-- The admissions of `s` that `s'` does not have. -/
def Store.gone (s s' : Store) : List (String × String) :=
  (s.ready.map Entry.tag).filter fun t => t ∉ s'.ready.map Entry.tag

def vanished (s : Store) : List Step → List (String × String)
  | [] => []
  | a::as => (step s a).elim [] fun s' => s.gone s'++vanished s' as

/-- The row that an admission belongs to. -/
structure Entry.Admits (r e : Entry) : Prop where
  path : r.path=e.path
  generation : r.generation=e.generation
  authority : r.authority=e.authority
  status : r.status=.ready
  pinRoot : r.pinRoot=e.pinRoot

/-- Every admission belongs to its row, or the operation that holds the mutex is about to take it out. The
generations `known` were drawn, and those of `old` are superseded. -/
structure Inv (known : List String) (old : List (String × String)) (s : Store) : Prop where
  rowKeys : (s.rows.map Entry.path).Nodup
  readyKeys : (s.ready.map Entry.path).Nodup
  known : known ⊆ s.used
  drawn : ∀ r∈s.rows, r.generation∈s.used
  old : ∀ t∈old, t.2∈s.used ∧ ∀ r∈s.rows, r.tag≠t
  handed : ∀ h∈s.held, h.generation∈s.used ∧
    ∀ r∈s.rows, r.path=h.path → r.generation=h.generation → r.pinRoot=h.pinRoot
  matched : ∀ e∈s.ready, (∃ sweep ∈ Holder.todo s.holder, sweep.selects e=true) ∨ ∃ r∈s.rows, r.Admits e
  installing : ∀ e, s.holder = some (.installing e) → ∃ r∈s.rows, r.Admits e

section Rows
variable {rows : List Entry} {entries : List (Entry × String)} {r : Entry}

lemma upsert_keys (h : (rows.map Entry.path).Nodup) : ((Store.upsert rows entries).map Entry.path).Nodup := by
  induction entries generalizing rows with
  | nil => exact h
  | cons e entries ih => exact ih (nodup_put h _)

lemma mem_upsert (h : r∈Store.upsert rows entries) : r∈rows ∨ r.generation∈entries.map Prod.snd := by
  induction entries generalizing rows with
  | nil => exact .inl h
  | cons e entries ih =>
    rw [map_cons,mem_cons]
    rcases ih h with h | h
    · rcases mem_put.mp h with rfl | ⟨h,-⟩
      · exact .inr (.inl rfl)
      · exact .inl h
    · exact .inr (.inr h)

lemma upsert_keeps (h : r∈rows) : r∈Store.upsert rows entries ∨ ∃ e∈entries, e.1.path=r.path := by
  induction entries generalizing rows with
  | nil => exact .inl h
  | cons e entries ih =>
    by_cases he : e.1.path=r.path
    · exact .inr ⟨e,mem_cons_self,he⟩
    · have hput : r∈Keyed.put Entry.path rows (Store.pinned e) := mem_put.mpr (.inr ⟨h,Ne.symm he⟩)
      obtain h | ⟨e',he',hp⟩ := ih hput
      · exact .inl h
      · exact .inr ⟨e',mem_cons_of_mem _ he',hp⟩

end Rows

namespace Inv
variable {s : Store} {known : List String} {old : List (String × String)} {e : Entry}

lemma row (h : Inv known old s) (htodo : Holder.todo s.holder=[]) (he : e∈s.ready) : ∃ r∈s.rows, r.Admits e :=
  (h.matched e he).resolve_left fun ⟨_,hin,_⟩ => by simp [htodo] at hin

/-- A row is new, with a generation that was not drawn before, or has the generation and the root of one that was
there; what belonged to a row that is not kept is taken out. -/
lemma statement (h : Inv known old s) (hfree : s.holder=none) {rows : List Entry} {todo : List Sweep} {used : List String}
    (hkeys : (rows.map Entry.path).Nodup) (hused : s.used ⊆ used)
    (hrows : ∀ r∈rows, r.generation∈used ∧ r.generation ∉ s.used ∨
      ∃ r₀∈s.rows, r.path=r₀.path ∧ r.generation=r₀.generation ∧ r.pinRoot=r₀.pinRoot)
    (hkept : ∀ r∈s.rows, r∈rows ∨ ∀ e, r.Admits e → ∃ sweep∈todo, sweep.selects e=true) :
    Inv known old {s with rows := rows, holder := some (.sweeping todo []), used := used} where
  rowKeys := hkeys
  readyKeys := h.readyKeys
  known gen hgen := hused (h.known hgen)
  drawn r hr := by
    obtain ⟨hnew,-⟩ | ⟨r₀,hr₀,-,hgen,-⟩ := hrows r hr
    · exact hnew
    · exact hgen ▸ hused (h.drawn r₀ hr₀)
  old t ht := by
    obtain ⟨hgen,hrow⟩ := h.old t ht
    refine ⟨hused hgen,fun r hr htag => ?_⟩
    subst htag
    obtain ⟨-,hnew⟩ | ⟨r₀,hr₀,hp,hg,-⟩ := hrows r hr
    · exact hnew hgen
    · exact hrow r₀ hr₀ (by rw [Entry.tag,Entry.tag,hp,hg])
  handed e he := by
    obtain ⟨hgen,hroot⟩ := h.handed e he
    refine ⟨hused hgen,fun r hr hpath hsame => ?_⟩
    obtain ⟨-,hnew⟩ | ⟨r₀,hr₀,hp,hg,hroot₀⟩ := hrows r hr
    · exact absurd (hsame ▸ hgen) hnew
    · exact hroot₀.trans (hroot r₀ hr₀ (hp ▸ hpath) (hg ▸ hsame))
  matched e he := by
    obtain ⟨r,hr,hadmits⟩ := h.row (by rw [hfree]; rfl) he
    exact (hkept r hr).symm.imp (fun hout => hout e hadmits) fun hin => ⟨r,hin,hadmits⟩
  installing := nofun

lemma pinAll (h : Inv known old s) (hfree : s.holder=none) {entries : List (Entry × String)}
    (hnew : ∀ gen∈entries.map Prod.snd, gen ∉ s.used) : Inv known old (s.pinAll entries) := by
  refine h.statement hfree (upsert_keys h.rowKeys) (subset_append_right _ _) (fun r hr => ?_) fun r hr => ?_
  · rcases mem_upsert hr with hr | hr
    · exact .inr ⟨r,hr,rfl,rfl,rfl⟩
    · exact .inl ⟨mem_append_left _ hr,hnew _ hr⟩
  · obtain hr | ⟨e,he,hp⟩ := upsert_keeps hr
    · exact .inl hr
    · exact .inr fun a ha => ⟨_,List.mem_map.mpr ⟨e,he,rfl⟩,by simp [Sweep.selects,hp,ha.path]⟩

lemma delete (h : Inv known old s) (hfree : s.holder=none) {p : Entry → Bool} {sweep : Sweep}
    (hsweep : ∀ r e, p r=true → r.Admits e → sweep.selects e=true) : Inv known old (s.delete p sweep) := by
  refine h.statement hfree (h.rowKeys.sublist (filter_sublist.map _)) (List.Subset.refl _)
    (fun r hr => .inr ⟨r,mem_of_mem_filter hr,rfl,rfl,rfl⟩) fun r hr => ?_
  by_cases hp : p r=true
  · exact .inr fun e he => ⟨sweep,mem_singleton_self sweep,hsweep r e hp he⟩
  · exact .inl (mem_filter.mpr ⟨hr,by simpa using hp⟩)

/-- An update leaves the path and the root of a row, and its generation unless the new one was just drawn. It
revokes what it changes, unless it changes only rows that are not ready. -/
lemma update (h : Inv known old s) (hfree : s.holder=none) {path : String} {p : Entry → Bool} {f : Entry → Entry}
    {todo : List Sweep} {used : List String} (hused : s.used ⊆ used)
    (hf : ∀ r, (f r).path=r.path ∧ (f r).pinRoot=r.pinRoot ∧
      ((f r).generation=r.generation ∨ (f r).generation∈used ∧ (f r).generation ∉ s.used))
    (htodo : .path path∈todo ∨ ∀ r∈s.rows, r.path=path → p r=true → r.status≠.ready) :
    Inv known old {s.update path p f todo with used := used} := by
  refine h.statement hfree ?_ hused (fun r hr => ?_) fun r hr => ?_
  · rw [Store.update,List.map_map]
    convert h.rowKeys using 2
    funext r
    rw [Function.comp_apply]
    split
    · exact (hf r).1
    · rfl
  · obtain ⟨r₀,hr₀,rfl⟩ := List.mem_map.mp hr
    obtain ⟨hpath,hroot,hgen⟩ := hf r₀
    split
    · exact hgen.symm.imp id fun hgen => ⟨r₀,hr₀,hpath,hgen,hroot⟩
    · exact .inr ⟨r₀,hr₀,rfl,rfl,rfl⟩
  · by_cases hp : (r.path=path && p r)=true
    · obtain ⟨hpath,hp⟩ : r.path=path ∧ p r=true := by simpa using hp
      refine .inr fun e he => ?_
      rcases htodo with hin | hnot
      · exact ⟨_,hin,by simp [Sweep.selects,← he.path,hpath]⟩
      · exact absurd he.status (hnot r hr hpath hp)
    · exact .inl (List.mem_map.mpr ⟨r,hr,if_neg hp⟩)

lemma affected (path : String) (p : Entry → Bool) : .path path∈s.affected path p ∨
    ∀ r∈s.rows, r.path=path → p r=true → r.status≠.ready := by
  unfold Store.affected
  split
  · exact .inl (mem_singleton_self _)
  · rename_i hnone
    exact .inr fun r hr hpath hp => absurd (List.any_eq_true.mpr ⟨r,hr,by simp [hpath,hp]⟩) hnone

lemma rotate (h : Inv known old s) (hfree : s.holder=none) (path : String) (p : Entry → Bool) (status : Status)
    {gen : String} (hnew : gen ∉ s.used) : Inv known old (s.rotate path p status gen) :=
  h.update hfree (subset_cons_self gen s.used) (fun _ => ⟨rfl,rfl,.inr ⟨mem_cons_self,hnew⟩⟩) (affected path p)

lemma hand (h : Inv known old s) (hgen : e.generation∈s.used)
    (hroot : ∀ r∈s.rows, r.path=e.path → r.generation=e.generation → r.pinRoot=e.pinRoot) :
    Inv known old {s with held := e::s.held} :=
  {h with handed := forall_mem_cons.mpr ⟨⟨hgen,hroot⟩,h.handed⟩}

lemma root_of_handed (h : Inv known old s) (he : s.handed e=true) {r : Entry} (hr : r∈s.rows)
    (hpath : r.path=e.path) (hgen : r.generation=e.generation) : r.pinRoot=e.pinRoot := by
  obtain ⟨g,hg,heq⟩ := List.any_eq_true.mp he
  simp only [Bool.and_eq_true,decide_eq_true_eq] at heq
  obtain ⟨⟨hp,hgen₀⟩,hroot⟩ := heq
  exact ((h.handed g hg).2 r hr (hpath.trans hp.symm) (hgen.trans hgen₀.symm)).trans hroot

lemma claimPrefetch (h : Inv known old s) {gen : String} (hfree : s.holder=none) (hnew : gen ∉ s.used) :
    Inv known old (s.exec (.claimPrefetch e gen)) := by
  simp only [Store.exec]
  split
  · exact h
  split
  · rename_i hhanded
    refine (h.rotate hfree e.path _ .prefetching hnew).hand mem_cons_self fun r hr hpath hgen => ?_
    obtain ⟨r₀,hr₀,rfl⟩ := List.mem_map.mp hr
    split at hgen <;> rename_i hchanged
    · simp only [Bool.and_eq_true,decide_eq_true_eq] at hchanged
      have hroot := h.root_of_handed (Bool.and_eq_true_iff.mp hhanded).2 hr₀ hchanged.1 hchanged.2.1
      rwa [if_pos (by simpa using hchanged)]
    · have hdrawn := h.drawn r₀ hr₀
      rw [hgen] at hdrawn
      exact absurd hdrawn hnew
  · exact h.rotate hfree e.path _ .prefetching hnew

lemma admitReady (h : Inv known old s) (hfree : s.holder=none) (hhanded : s.handed e=true) :
    Inv known old (s.exec (.admitReady e)) := by
  simp only [Store.exec]
  split
  · exact h
  split
  · exact h
  rename_i r hfind
  split
  · rename_i hready
    simp only [Bool.and_eq_true,decide_eq_true_eq] at hready
    have hr := mem_of_find?_eq_some hfind
    obtain ⟨hpath,hgen⟩ : r.path=e.path ∧ r.generation=e.generation := by simpa using find?_some hfind
    have hadmits : r.Admits e := ⟨hpath,hgen,hready.2,hready.1,h.root_of_handed hhanded hr hpath hgen⟩
    refine {h with matched := fun a ha => .inr (h.row (by rw [hfree]; rfl) ha), installing := fun a ha => ?_}
    obtain rfl : e=a := by simpa using ha
    exact ⟨r,hr,hadmits⟩
  · exact h

lemma exec (h : Inv known old s) {op : Op} (hfree : s.holder=none) (hen : s.enabled op=true) :
    Inv known old (s.exec op) := by
  simp only [Store.enabled,Bool.and_eq_true,List.all_eq_true] at hen
  obtain ⟨⟨hdrawn,-⟩,hcaller⟩ := hen
  have hnew : ∀ gen∈op.drawn, gen ∉ s.used := fun gen hgen => by
    simpa using (hdrawn gen hgen).2
  cases op with
  | pin path size root gen | pinMany entries => exact h.pinAll hfree hnew
  | unpin root =>
    refine h.delete hfree fun r e hp he => ?_
    simpa [Sweep.selects,← he.path,← he.pinRoot,or_comm] using hp
  | unpinPath path =>
    refine h.delete hfree fun r e hp he => ?_
    simpa [Sweep.selects,← he.path] using hp
  | claimPrefetch e gen => exact h.claimPrefetch hfree (hnew gen (mem_singleton_self gen))
  | admitReady e => exact h.admitReady hfree hcaller
  | updateStatus path status =>
    simp only [Store.exec]
    split
    · exact h
    · exact h.update hfree (List.Subset.refl _) (fun _ => ⟨rfl,rfl,.inl rfl⟩) (.inl (mem_singleton_self _))
  | updateStatusForEntry e status =>
    simp only [Store.exec]
    split
    · exact h
    · exact h.update hfree (List.Subset.refl _) (fun _ => ⟨rfl,rfl,.inl rfl⟩) (affected _ _)
  | completeReady e authority =>
    simp only [Store.exec]
    split
    · exact h
    · refine h.update hfree (List.Subset.refl _) (fun _ => ⟨rfl,rfl,.inl rfl⟩) (.inr fun r _ _ hp => ?_)
      simp only [Bool.and_eq_true,decide_eq_true_eq] at hp
      simp [hp.2]
  | requeueForRepair e gen =>
    simp only [Store.exec]
    split
    · exact h
    · exact h.rotate hfree e.path _ .pending (hnew gen (mem_singleton_self gen))

/-- The map changes, and with it what is to be taken out of it. -/
lemma swept (h : Inv known old s) {ready : List Entry} {holder : Option Holder} {calls : List Entry}
    {reported : List (String × String)} (hkeys : (ready.map Entry.path).Nodup)
    (hmatched : ∀ e∈ready, (∃ sweep∈Holder.todo holder, sweep.selects e=true) ∨ ∃ r∈s.rows, r.Admits e)
    (hinstall : ∀ e, holder=some (.installing e) → s.holder=holder) :
    Inv known old {s with ready := ready, holder := holder, calls := calls, reported := reported} :=
  {h with readyKeys := hkeys, matched := hmatched, installing := fun e he => h.installing e ((hinstall e he).trans he)}

end Inv

/-- What was to be reported, with what a step takes out, is reported or still to be. -/
def Accounts (s s' : Store) : Prop := s'.reports.Perm (s.reports++s.gone s')

section Steps
variable {s s' : Store} {known : List String} {old : List (String × String)}

lemma accounts_of_kept (hkept : ∀ e∈s.ready, ∃ a∈s'.ready, a.tag=e.tag) (hperm : s'.reports.Perm s.reports) :
    Accounts s s' := by
  have hnil : s.gone s'=[] := by
    refine filter_eq_nil_iff.mpr fun t ht => ?_
    obtain ⟨e,he,rfl⟩ := List.mem_map.mp ht
    obtain ⟨a,ha,htag⟩ := hkept e he
    simpa using ⟨a,ha,htag⟩
  rwa [Accounts,hnil,append_nil]

lemma accounts_of_filter (hkeys : (s.ready.map Entry.path).Nodup) {p : Entry → Bool}
    (h : s'.ready=s.ready.filter fun e => !p e)
    (hperm : s'.reports.Perm (s.reports++(s.ready.filter p).map Entry.tag)) : Accounts s s' := by
  have hgone : s.gone s'=(s.ready.filter p).map Entry.tag := by
    rw [Store.gone,List.filter_map]
    congr 1
    refine filter_congr fun e he => ?_
    rw [h,Function.comp_apply]
    cases hp : p e with
    | false =>
      have hin : e.tag∈(s.ready.filter fun e => !p e).map Entry.tag :=
        List.mem_map.mpr ⟨e,mem_filter.mpr ⟨he,by simp [hp]⟩,rfl⟩
      simp only [hin,not_true_eq_false,decide_false]
    | true =>
      simp only [decide_eq_true_eq,List.mem_map,mem_filter,not_exists,not_and]
      rintro a ⟨ha,hnot⟩ htag
      rw [eq_of_mem hkeys ha he (congrArg Prod.fst htag),hp] at hnot
      cases hnot
  rwa [Accounts,hgone]

lemma exec_frame (hfree : s.holder=none) (op : Op) : (s.exec op).ready=s.ready ∧ (s.exec op).reports=s.reports := by
  have hfree' : Holder.reports s.holder=[] := by rw [hfree]; rfl
  cases op <;> simp only [Store.exec] <;> (repeat' split) <;> refine ⟨rfl,?_⟩ <;>
    first | rfl | (unfold Store.reports; rw [hfree']; rfl)

lemma revoke_inv (h : Inv known old s) (p : Entry → Bool) : Inv known old (s.revoke p) ∧ Accounts s (s.revoke p) := by
  refine ⟨h.swept (h.readyKeys.sublist (filter_sublist.map _))
    (fun e he => h.matched e (mem_of_mem_filter he)) fun _ _ => rfl,accounts_of_filter h.readyKeys rfl ?_⟩
  refine perm_iff_count.mpr fun t => ?_
  simp only [Store.revoke,Store.reports,map_append,count_append]
  omega

lemma go_inv (h : Inv known old s) {holder : Holder} (hholder : s.holder=some holder) :
    Inv known old (s.go holder) ∧ Accounts s (s.go holder) := by
  have hmatched := h.matched
  rw [hholder] at hmatched
  match holder with
  | .sweeping todo (e::reports) =>
    refine ⟨h.swept h.readyKeys hmatched nofun,accounts_of_kept (fun a ha => ⟨a,ha,rfl⟩) ?_⟩
    simp only [Store.go,Store.reports,hholder,Holder.reports,cons_append,map_cons]
    exact perm_middle.symm
  | .sweeping [] [] =>
    refine ⟨h.swept h.readyKeys hmatched nofun,accounts_of_kept (fun a ha => ⟨a,ha,rfl⟩) ?_⟩
    simp [Store.go,Store.reports,hholder,Holder.reports]
  | .sweeping (sweep::todo) [] =>
    refine ⟨h.swept (h.readyKeys.sublist (filter_sublist.map _)) (fun e he => ?_) nofun,
      accounts_of_filter h.readyKeys rfl ?_⟩
    · obtain ⟨he,hsel⟩ := mem_filter.mp he
      simpa [Holder.todo,(by simpa using hsel : sweep.selects e=false)] using hmatched e he
    · refine perm_iff_count.mpr fun t => ?_
      simp only [Store.go,Store.reports,hholder,Holder.reports,map_append,count_append,map_nil,count_nil]
      omega
  | .installing e =>
    -- the row of the admission that is installed is that of the one it replaces
    obtain ⟨r,hr,hadmits⟩ := h.installing e hholder
    have hrow : ∀ a∈s.ready, ∃ r∈s.rows, r.Admits a := fun a ha => h.row (by rw [hholder]; rfl) ha
    refine ⟨h.swept (nodup_put h.readyKeys e) (fun a ha => .inr ?_) nofun,accounts_of_kept (fun a ha => ?_) ?_⟩
    · rcases mem_put.mp ha with rfl | ⟨ha,-⟩
      · exact ⟨r,hr,hadmits⟩
      · exact hrow a ha
    · by_cases hp : a.path=e.path
      · obtain ⟨r',hr',hadmits'⟩ := hrow a ha
        have hsame : r'=r := eq_of_mem h.rowKeys hr' hr (hadmits'.path.trans (hp.trans hadmits.path.symm))
        refine ⟨e,mem_put.mpr (.inl rfl),?_⟩
        rw [Entry.tag,Entry.tag,hp,← hadmits.generation,← hadmits'.generation,hsame]
      · exact ⟨a,mem_put.mpr (.inr ⟨ha,hp⟩),rfl⟩
    · simp [Store.go,Store.reports,hholder,Holder.reports]

lemma step_inv {a : Step} (h : Inv known old s) (hstep : step s a=some s') : Inv known old s' ∧ Accounts s s' := by
  cases a with
  | call op ok =>
    simp only [step,ite_none_right_eq_some,Bool.and_eq_true,decide_eq_true_eq,Option.some.injEq] at hstep
    obtain ⟨⟨hfree,hen⟩,rfl⟩ := hstep
    cases ok with
    | false => exact ⟨h,accounts_of_kept (fun a ha => ⟨a,ha,rfl⟩) .rfl⟩
    | true =>
      obtain ⟨hready,hreports⟩ := exec_frame hfree op
      exact ⟨h.exec hfree hen,accounts_of_kept (fun a ha => ⟨a,hready ▸ ha,rfl⟩) (.of_eq hreports)⟩
  | go =>
    obtain ⟨holder,hholder,rfl⟩ := map_eq_some_iff.mp hstep
    exact go_inv h hholder
  | revokeReady path | revokeReadyIfGeneration path gen =>
    obtain rfl := Option.some.inj hstep
    exact revoke_inv h _
  | report i =>
    obtain ⟨e,he,rfl⟩ := map_eq_some_iff.mp hstep
    obtain ⟨hi,rfl⟩ := List.getElem?_eq_some_iff.mp he
    refine ⟨{h with},accounts_of_kept (fun a ha => ⟨a,ha,rfl⟩) (perm_iff_count.mpr fun x => ?_)⟩
    have hcount := ((getElem_cons_eraseIdx_perm hi).map Entry.tag).count_eq x
    simp only [Store.reports,map_append,count_append,count_cons,map_cons] at hcount ⊢
    omega
  | read i =>
    simp only [step,ite_none_right_eq_some] at hstep
    obtain ⟨-,hstep⟩ := hstep
    obtain ⟨r,hr,rfl⟩ := map_eq_some_iff.mp hstep
    have hmem := mem_of_getElem? hr
    refine ⟨h.hand (h.drawn r hmem) fun r' hr' hpath _ => ?_,accounts_of_kept (fun a ha => ⟨a,ha,rfl⟩) .rfl⟩
    rw [eq_of_mem h.rowKeys hr' hmem hpath]

lemma run_inv {steps : List Step} (h : Inv known old s) (hrun : run step s steps=some s') :
    Inv known old s' ∧ s'.reports.Perm (s.reports++vanished s steps) := by
  induction steps generalizing s with
  | nil =>
    obtain rfl := Option.some.inj hrun
    exact ⟨h,by simp [vanished]⟩
  | cons a as ih =>
    obtain ⟨m,hm,hrest⟩ := run_cons_eq_some.mp hrun
    obtain ⟨hinv,hstep⟩ := step_inv h hm
    obtain ⟨hinv',hperm⟩ := ih hinv hrest
    refine ⟨hinv',hperm.trans ?_⟩
    rw [vanished,hm,elim_some,← append_assoc]
    exact hstep.append_right _

end Steps

end JuiceMount.Cache.PinStore
