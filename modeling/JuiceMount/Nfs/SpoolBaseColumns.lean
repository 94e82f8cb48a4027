import JuiceMount.Nfs.ProjectLease

/-! The base identity of a spool row in its four integer columns, and across a rename of the row. -/
namespace JuiceMount.Nfs
namespace SpoolBase

/-- The row's columns: inode, mtime, ctime and length, the kinds told apart by sentinels. -/
structure Columns where
  ino : ℤ
  mtimeNs : ℤ
  ctimeNs : ℤ
  len : ℤ
  deriving DecidableEq, Repr

/-- The inode fits the column: `Ino == 0 || Ino > 1<<62` is refused. -/
def InoFits (b : SpoolBase) : Prop := b.ino≠0 ∧ b.ino ≤ 2^62

instance (b : SpoolBase) : Decidable b.InoFits := inferInstanceAs (Decidable (_ ∧ _))

def columns (b : SpoolBase) : Columns :=
  match b.kind with
  | .absent => ⟨-1,0,0,0⟩
  | .atomicConflict => ⟨-1,0,-4,0⟩
  | .weak => ⟨-2,b.mtimeNs,0,b.len⟩
  | .present => if b.InoFits ∧ 0≤b.ctimeNs then ⟨b.ino,b.mtimeNs,b.ctimeNs,b.len⟩ else ⟨0,0,0,0⟩
  | .claimed => if b.InoFits then ⟨b.ino,0,-1,0⟩ else ⟨0,0,0,0⟩
  | .moved => if b.InoFits then ⟨b.ino,b.mtimeNs,-2,b.len⟩ else ⟨0,0,0,0⟩
  | .replace => if b.InoFits then ⟨b.ino,b.mtimeNs,-3,b.len⟩ else ⟨0,0,0,0⟩
  | .unknown => ⟨0,0,0,0⟩

def spoolBaseFromColumns (c : Columns) : SpoolBase :=
  if c.ino = -1 ∧ c.ctimeNs = -4 then { kind := .atomicConflict }
  else if c.ino = -1 then { kind := .absent }
  else if c.ino = -2 then { kind := .weak, mtimeNs := c.mtimeNs, len := c.len }
  else if 0<c.ino ∧ c.ctimeNs = -1 then { kind := .claimed, ino := c.ino.toNat }
  else if 0<c.ino ∧ c.ctimeNs = -2 then
    { kind := .moved, ino := c.ino.toNat, mtimeNs := c.mtimeNs, len := c.len }
  else if 0<c.ino ∧ c.ctimeNs = -3 then
    { kind := .replace, ino := c.ino.toNat, mtimeNs := c.mtimeNs, len := c.len }
  else if 0<c.ino then
    { kind := .present, ino := c.ino.toNat, mtimeNs := c.mtimeNs, ctimeNs := c.ctimeNs, len := c.len }
  else {}

/-- The base a pending row carries after a rename; `exact` marks the renamed file itself, `dest` is the
base of the name it takes. -/
def renamedSpoolBase (exact : Bool) (old dest : SpoolBase) : SpoolBase :=
  match old.kind with
  | .present => { kind := .moved, ino := old.ino, mtimeNs := old.mtimeNs, len := old.len }
  | .absent =>
    if exact then
      if dest.kind=.present then
        { kind := .replace, ino := dest.ino, mtimeNs := dest.mtimeNs, len := dest.len }
      else { kind := .atomicConflict }
    else old
  | .unknown | .weak => if exact then { kind := .atomicConflict } else old
  | .claimed | .moved | .replace | .atomicConflict => old

def Storable (b : SpoolBase) : Prop :=
  match b.kind with
  | .present => b.InoFits ∧ 0≤b.ctimeNs
  | .claimed | .moved | .replace => b.InoFits
  | .unknown | .absent | .weak | .atomicConflict => True

instance (b : SpoolBase) : Decidable b.Storable := by
  unfold Storable
  cases b.kind <;> infer_instance

abbrev Permits (b : SpoolBase) (st : FileStat) (tainted : Bool) : Prop :=
  (drainBaseAllowsInPlace b st tainted).1=true

/-- What is read back from the columns. -/
abbrev reread (b : SpoolBase) : SpoolBase := spoolBaseFromColumns b.columns

variable {b : SpoolBase}

lemma reread_unstorable (h : ¬ b.Storable) : b.reread = {} := by
  have hcols : b.columns = ⟨0,0,0,0⟩ := by
    unfold Storable at h
    unfold columns
    split at h <;> simp_all
  simp [reread,hcols,spoolBaseFromColumns]

lemma reread_permits (h : b.Storable) (st : FileStat) (tainted : Bool) :
    b.reread.Permits st tainted ↔ b.Permits st tainted := by
  have hpos : b.InoFits → 0<b.ino ∧ (b.ino:ℤ) ≠ -1 ∧ (b.ino:ℤ) ≠ -2 := by
    intro hfit
    have := hfit.1
    omega
  unfold Storable at h
  cases hk : b.kind with
  | unknown | absent | atomicConflict | weak =>
    simp [reread,Permits,columns,hk,spoolBaseFromColumns,drainBaseAllowsInPlace]
  | present =>
    simp only [hk] at h
    obtain ⟨hino,h1,h2⟩ := hpos h.1
    have hc : b.ctimeNs ≠ -1 ∧ b.ctimeNs ≠ -2 ∧ b.ctimeNs ≠ -3 := by omega
    simp [reread,Permits,columns,hk,h,spoolBaseFromColumns,drainBaseAllowsInPlace,hino,h1,h2,hc]
  | claimed | moved | replace =>
    simp only [hk] at h
    obtain ⟨hino,h1,h2⟩ := hpos h
    simp [reread,Permits,columns,hk,h,spoolBaseFromColumns,drainBaseAllowsInPlace,hino,h1,h2]

/-- Some status is refused by every base whose fields need room, and by one that allows nothing. -/
lemma refuses_some (hk : b.kind≠.unknown) (hw : b.kind≠.weak) (ctime : ℤ) :
    ∃ st : FileStat, st.ctimeNs=ctime ∧ ¬ b.Permits st false := by
  refine ⟨⟨b.ino+1,0,0,ctime,0⟩,rfl,?_⟩
  cases h : b.kind <;> simp_all [Permits,drainBaseAllowsInPlace]

lemma kind_of_unstorable (h : ¬ b.Storable) : b.kind≠.unknown ∧ b.kind≠.weak := by
  unfold Storable at h
  constructor <;> intro hk <;> simp [hk] at h

/-- The file had the status `before` and has `st` after a rename, which resets its ctime. Of a present base
it is the file that was seen: its ctime up to the rename is the recorded one. -/
structure RenamedFile (b : SpoolBase) (before st : FileStat) : Prop where
  ino : st.ino=before.ino
  mtimeSec : st.mtimeSec=before.mtimeSec
  mtimeNsec : st.mtimeNsec=before.mtimeNsec
  size : st.size=before.size
  ctime : b.kind=.present → before.ctimeNs=b.ctimeNs

lemma RenamedFile.mtimeNs {before st : FileStat} (h : RenamedFile b before st) : st.mtimeNs=before.mtimeNs := by
  rw [FileStat.mtimeNs,FileStat.mtimeNs,h.mtimeSec,h.mtimeNsec]

private lemma ite_fst_true {p : Prop} [Decidable p] (why : String) :
    (if p then (true,"") else (false,why)).1 = true ↔ p := by
  split <;> simp_all

lemma permits_of_renamed {b dest : SpoolBase} {exact : Bool} {before st : FileStat} {tainted : Bool}
    (hfile : RenamedFile b before st) (h : (renamedSpoolBase exact b dest).Permits st tainted) :
    b.Permits before tainted := by
  have hino := hfile.ino
  have hmt := hfile.mtimeNs
  have hsec := hfile.mtimeSec
  have hsize := hfile.size
  have hct := hfile.ctime
  cases hk : b.kind with
  | present =>
    -- the moved base compares all but the ctime, which the file still had
    cases tainted <;> simp_all [Permits,drainBaseAllowsInPlace,renamedSpoolBase,ite_fst_true]
  | absent =>
    -- neither the base of a replacing save nor the conflict base allows anything
    by_cases hd : dest.kind=.present <;> cases exact <;>
      simp_all [Permits,drainBaseAllowsInPlace,renamedSpoolBase]
  | unknown | weak => cases exact <;> simp_all [Permits,drainBaseAllowsInPlace,renamedSpoolBase]
  | claimed | moved | replace | atomicConflict => simp_all [Permits,drainBaseAllowsInPlace,renamedSpoolBase]

lemma kind_of_renamed_unstorable {b dest : SpoolBase} {exact : Bool}
    (h : ¬ (renamedSpoolBase exact b dest).Storable) : b.kind≠.unknown ∧ b.kind≠.weak := by
  constructor <;> intro hk <;> cases exact <;> simp [renamedSpoolBase,hk,Storable] at h

/-- Reading a base back from its columns, with or without a rename in between, allows no rewrite that the
base refused, exactly when what is written has room in the columns. -/
theorem reread_never_weaker_iff (b : SpoolBase) :
    ((∀ st tainted, b.reread.Permits st tainted → b.Permits st tainted) ↔ b.Storable) ∧
    ∀ exact dest, (∀ before st tainted, RenamedFile b before st →
      (renamedSpoolBase exact b dest).reread.Permits st tainted → b.Permits before tainted) ↔
      (renamedSpoolBase exact b dest).Storable := by
  refine ⟨⟨fun h => ?_,fun h st tainted => (reread_permits h st tainted).mp⟩,fun exact dest => ⟨fun h => ?_,?_⟩⟩
  · by_contra hs
    obtain ⟨hu,hw⟩ := kind_of_unstorable hs
    obtain ⟨st,-,hst⟩ := refuses_some hu hw 0
    exact hst (h st false (by rw [reread_unstorable hs]; rfl))
  · by_contra hs
    obtain ⟨hu,hw⟩ := kind_of_renamed_unstorable hs
    obtain ⟨st,hct,hst⟩ := refuses_some hu hw b.ctimeNs
    refine hst (h st st false ⟨rfl,rfl,rfl,rfl,fun _ => hct⟩ ?_)
    rw [reread_unstorable hs]
    rfl
  · intro hs before st tainted hfile hp
    exact permits_of_renamed hfile ((reread_permits hs st tainted).mp hp)

/-- A file seen with a ctime before 1970 and then rewritten by another program: the base refuses it, what the
columns kept of the base lets the row overwrite it. So does the base of an inode above the columns' range,
renamed or not. -/
theorem reread_weaker :
    (let b : SpoolBase := { kind := .present, ino := 7, mtimeNs := 5, ctimeNs := -1, len := 10 }
     let st : FileStat := ⟨7,9,0,9,3⟩
     b.reread.Permits st false ∧ ¬ b.Permits st false) ∧
    (let b : SpoolBase := { kind := .present, ino := 2^63, mtimeNs := 5, ctimeNs := 6, len := 10 }
     let before : FileStat := ⟨2^63,9,0,6,3⟩
     let st : FileStat := ⟨2^63,9,0,20,3⟩
     RenamedFile b before st ∧ (renamedSpoolBase true b {}).reread.Permits st false ∧
       ¬ b.Permits before false) := by
  refine ⟨by decide,⟨rfl,rfl,rfl,rfl,fun _ => rfl⟩,by decide,by decide⟩

end SpoolBase
end JuiceMount.Nfs
