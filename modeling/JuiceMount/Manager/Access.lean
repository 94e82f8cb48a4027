import JuiceMount.Manager.Stored

/-! Where a Mac may write under the proxy's rule for the table, and that operations which take access
away do not widen it. -/
namespace JuiceMount.Manager
open Transition List Keyed Store Bool
open RespProxy (Bytes ascii)

/-! ### The proxy's rule -/

def covers (grant folder : Text) : Bool := folder=grant || (grant++['/']).isPrefixOf folder

namespace PrincipalsFile

def personOf (t : PrincipalsFile) (mac : Bytes) : Option PersonEntry := t.people.find? fun p => mac∈p.devices

def grantsInForce (t : PrincipalsFile) : Bool := t.people.any (fun p => p.access=.granted) || t.restrictUnassigned

def mayWrite (t : PrincipalsFile) (mac : Bytes) (folder : Text) : Bool :=
  t.principals.any (fun e => e.kind=.mac && e.name=mac && !e.disabled) &&
    match t.personOf mac with
    | some p => p.access=.all || p.grants.any fun g => covers g folder
    | none => !t.grantsInForce

end PrincipalsFile

/-! ### The rule on the store -/

/-- What an approved record's Mac may write, from the store the table is made of. -/
def Store.allows (s : Store) (person : Bytes) (folder : Text) : Bool :=
  match s.person person with
  | some p => p.access=.all || p.grants.any fun g => covers g folder
  | none => !s.grantsInForce

section
variable {s : Store} {servers : List PrincipalEntry}

/-- A store without people has nothing to leave out of a table in the old format. -/
theorem renderPrincipals_people (s : Store) (servers : List PrincipalEntry) :
    (renderPrincipals s 2 servers).people=s.sortedPeople.map (Person.entry s) ∧
      (renderPrincipals s 2 servers).restrictUnassigned=s.restrictUnassigned := by
  cases hwants : s.wantsPeople with
  | true => simp [renderPrincipals,hwants]
  | false =>
    have hnone : s.people=[] ∧ s.restrictUnassigned=false := by simpa [wantsPeople] using hwants
    simp [renderPrincipals,hwants,sortedPeople,hnone]

lemma renderPrincipals_grantsInForce (s : Store) (servers : List PrincipalEntry) :
    (renderPrincipals s 2 servers).grantsInForce=s.grantsInForce := by
  obtain ⟨hpeople,hrestrict⟩ := renderPrincipals_people s servers
  unfold PrincipalsFile.grantsInForce grantsInForce
  rw [hpeople,hrestrict,Bool.or_comm,any_map]
  congr 1
  exact (perm_insertionSort _ _).any_eq

lemma mem_approved {r : Mac} : r∈s.approved ↔ r∈s.recs ∧ r.status=.approved := by
  unfold approved
  rw [mem_insertionSort,mem_filter,decide_eq_true_eq]

theorem mem_devices {p : Person} {name : Bytes} :
    name∈(Person.entry s p).devices ↔ ∃ r∈s.recs, r.status=.approved ∧ r.person≠[] ∧ r.person=p.id ∧ r.name=name := by
  change name∈(s.approved.filter _).map Mac.name ↔ _
  simp only [mem_map,mem_filter,mem_approved,and_eq_true,decide_eq_true_eq]
  constructor
  · rintro ⟨r,⟨⟨hr,hstatus⟩,hne,hid⟩,hname⟩
    exact ⟨r,hr,hstatus,hne,hid,hname⟩
  · rintro ⟨r,hr,hstatus,hne,hid,hname⟩
    exact ⟨r,⟨⟨hr,hstatus⟩,hne,hid⟩,hname⟩

/-- The proxy finds the person the store names for an approved Mac. -/
theorem personOf_render {cfg : Config} {w : World} (h : Stored cfg w) {r : Mac} (hr : r∈w.mem.recs)
    (hstatus : r.status=.approved) :
    (renderPrincipals w.mem 2 servers).personOf r.name=(w.mem.person r.person).map (Person.entry w.mem) := by
  have hdevices : ∀ p : Person, r.name∈(Person.entry w.mem p).devices ↔ r.person≠[] ∧ r.person=p.id := by
    intro p
    rw [mem_devices]
    constructor
    · rintro ⟨x,hx,-,hne,hid,hname⟩
      rw [eq_of_mem h.names hx hr hname] at hne hid
      exact ⟨hne,hid⟩
    · rintro ⟨hne,hid⟩
      exact ⟨r,hr,hstatus,hne,hid,rfl⟩
  unfold PrincipalsFile.personOf
  rw [(renderPrincipals_people w.mem servers).1]
  cases hfind : (w.mem.sortedPeople.map (Person.entry w.mem)).find? fun p => r.name∈p.devices with
  | none =>
    -- no person has the Mac, so none is named in its record
    cases hp : w.mem.person r.person with
    | none => rfl
    | some p =>
      have hmem : Person.entry w.mem p∈w.mem.sortedPeople.map (Person.entry w.mem) :=
        mem_map_of_mem ((mem_insertionSort _).mpr (find_mem hp))
      have hid : p.id=r.person := find_key hp
      have hnot := find?_eq_none.mp hfind _ hmem
      have hne : r.person≠[] := hid ▸ h.named p (find_mem hp)
      exact absurd (decide_eq_true ((hdevices p).mpr ⟨hne,hid.symm⟩)) hnot
  | some pe =>
    obtain ⟨p,hp,rfl⟩ := mem_map.mp (mem_of_find?_eq_some hfind)
    have hdev : r.name∈(Person.entry w.mem p).devices := by simpa using find?_some hfind
    obtain ⟨-,hid⟩ := (hdevices p).mp hdev
    have hfound : w.mem.person r.person=some p := by
      rw [hid]
      exact find_of_mem h.ids ((mem_insertionSort _).mp hp)
    rw [hfound,Option.map_some]

/-- The proxy's rule for the table is the rule on the store. -/
theorem mayWrite_render {cfg : Config} {w : World} (h : Stored cfg w) (hservers : ∀ e∈servers, e.kind≠.mac) {name : Bytes}
    {folder : Text} : (renderPrincipals w.mem 2 servers).mayWrite name folder=true ↔
      ∃ r∈w.mem.recs, r.name=name ∧ r.status=.approved ∧ w.mem.allows r.person folder=true := by
  have hlisted : (renderPrincipals w.mem 2 servers).principals.any (fun e => e.kind=.mac && e.name=name && !e.disabled)=true ↔
      ∃ r∈w.mem.recs, r.name=name ∧ r.status=.approved := by
    change (servers++w.mem.approved.map Mac.entry).any _ = true ↔ _
    rw [any_append,or_eq_true,any_map]
    constructor
    · rintro (hs | hm)
      · obtain ⟨e,he,hkind⟩ := List.any_eq_true.mp hs
        simp only [and_eq_true,decide_eq_true_eq] at hkind
        exact absurd hkind.1.1 (hservers e he)
      · obtain ⟨r,hr,hname⟩ := List.any_eq_true.mp hm
        obtain ⟨hr,hstatus⟩ := mem_approved.mp hr
        simp only [Function.comp_apply,and_eq_true,decide_eq_true_eq] at hname
        exact ⟨r,hr,hname.1.2,hstatus⟩
    · rintro ⟨r,hr,hname,hstatus⟩
      refine .inr (List.any_eq_true.mpr ⟨r,mem_approved.mpr ⟨hr,hstatus⟩,?_⟩)
      simp only [Function.comp_apply,and_eq_true,decide_eq_true_eq]
      exact ⟨⟨rfl,hname⟩,rfl⟩
  have hrule : ∀ r∈w.mem.recs, r.status=.approved → (match (renderPrincipals w.mem 2 servers).personOf r.name with
      | some p => p.access=.all || p.grants.any fun g => covers g folder
      | none => !(renderPrincipals w.mem 2 servers).grantsInForce)=w.mem.allows r.person folder := by
    intro r hr hstatus
    rw [personOf_render h hr hstatus,renderPrincipals_grantsInForce]
    unfold allows
    cases w.mem.person r.person <;> rfl
  unfold PrincipalsFile.mayWrite
  rw [and_eq_true,hlisted]
  constructor
  · rintro ⟨⟨r,hr,hname,hstatus⟩,hallowed⟩
    subst hname
    rw [hrule r hr hstatus] at hallowed
    exact ⟨r,hr,rfl,hstatus,hallowed⟩
  · rintro ⟨r,hr,hname,hstatus,hallowed⟩
    subst hname
    rw [hrule r hr hstatus]
    exact ⟨⟨r,hr,rfl,hstatus⟩,hallowed⟩

end

/-! ### Operations that take access away -/

/-- An operation that is not meant to give access. A new person's random ID is new; the last person
limited to grants is deleted only while unassigned Macs are restricted. -/
def Act.reduces (s : Store) : Act → Bool
  | .people (.create random _ _) _ _ => (s.person (newPersonID random)).isNone
  | .people (.update _ _ none) _ _ => true
  | .people (.delete id) _ _ => s.restrictUnassigned || (s.person id).all (fun p => p.access=.all) ||
      s.people.any fun p => p.id≠id && p.access=.granted
  | .people (.removeGrant _ _) _ _ => true
  | .revoke _ _ _ => true
  | .forget _ _ => true
  | .restart _ _ _ _ _ _ _ => true
  | _ => false

/-- No Mac that is approved before and after may write where it could not. -/
def Narrows (s s' : Store) : Prop :=
  ∀ r∈s.recs, r.status=.approved → ∀ r'∈s'.recs, r'.status=.approved → r'.name=r.name →
    ∀ folder, s'.allows r'.person folder=true → s.allows r.person folder=true

section
variable {cfg : Config} {w w' : World} {s s' : Store}

lemma Narrows.refl (hnodup : (s.recs.map Mac.name).Nodup) : Narrows s s := by
  intro r hr _ r' hr' _ hname folder h
  rw [eq_of_mem hnodup hr' hr hname] at h
  exact h

theorem Narrows.subset (hnodup : (s.recs.map Mac.name).Nodup) (hrecs : ∀ r'∈s'.recs, r'.status=.approved → r'∈s.recs)
    (hpeople : s'.people=s.people) (hrestrict : s'.restrictUnassigned=s.restrictUnassigned) : Narrows s s' := by
  intro r hr _ r' hr' hstatus hname folder h
  rw [eq_of_mem hnodup (hrecs r' hr' hstatus) hr hname] at h
  unfold allows person grantsInForce at h ⊢
  rw [hpeople,hrestrict] at h
  exact h

/-- A person is changed: not one who may write everywhere, and no new grant. -/
theorem Narrows.putPerson (hnodup : (s.recs.map Mac.name).Nodup) (hids : (s.people.map Person.id).Nodup) {p q : Person}
    (hp : p∈s.people) (hid : q.id=p.id)
    (haccess : q.access=p.access) (hgrants : ∀ g∈q.grants, g∈p.grants) : Narrows s (s.putPerson q) := by
  have hforce : (s.putPerson q).grantsInForce=s.grantsInForce := by
    refine congrArg (s.restrictUnassigned || ·) (eq_iff_iff.mpr ⟨fun h => ?_,fun h => ?_⟩)
    · obtain ⟨x,hx,hfx⟩ := List.any_eq_true.mp h
      rcases mem_put.mp hx with rfl | ⟨hx,-⟩
      · exact List.any_eq_true.mpr ⟨p,hp,haccess ▸ hfx⟩
      · exact List.any_eq_true.mpr ⟨x,hx,hfx⟩
    · obtain ⟨x,hx,hfx⟩ := List.any_eq_true.mp h
      by_cases hxq : x.id=q.id
      · rw [eq_of_mem hids hx hp (hxq.trans hid),← haccess] at hfx
        exact List.any_eq_true.mpr ⟨q,mem_put.mpr (.inl rfl),hfx⟩
      · exact List.any_eq_true.mpr ⟨x,mem_put.mpr (.inr ⟨hx,hxq⟩),hfx⟩
  intro r hr _ r' hr' _ hname folder h
  rw [eq_of_mem hnodup hr' hr hname] at h
  unfold allows at h ⊢
  rw [hforce] at h
  by_cases hperson : r.person=q.id
  · have hq : (s.putPerson q).person r.person=some q := by
      rw [hperson]
      exact find_put_self _ _
    have hfound : s.person r.person=some p := by
      rw [hperson,hid]
      exact find_of_mem hids hp
    rw [hq] at h
    rw [hfound]
    simp only [or_eq_true,decide_eq_true_eq,List.any_eq_true] at h ⊢
    rw [haccess] at h
    rcases h with h | ⟨g,hg,hcovers⟩
    · exact .inl h
    · exact .inr ⟨g,hgrants g hg,hcovers⟩
  · have hother : (s.putPerson q).person r.person=s.person r.person := find_put_ne hperson
    rw [hother] at h
    exact h

theorem Narrows.createPerson (h : Stored cfg w) {q : Person} (hid : q.id≠[]) (hnew : w.mem.person q.id=none)
    (hall : q.access=.all) : Narrows w.mem (w.mem.putPerson q) := by
  have hforce : (w.mem.putPerson q).grantsInForce=w.mem.grantsInForce := by
    refine congrArg (w.mem.restrictUnassigned || ·) (eq_iff_iff.mpr ⟨fun h => ?_,fun h => ?_⟩)
    · obtain ⟨x,hx,hfx⟩ := List.any_eq_true.mp h
      rcases mem_put.mp hx with rfl | ⟨hx,-⟩
      · rw [hall] at hfx
        cases hfx
      · exact List.any_eq_true.mpr ⟨x,hx,hfx⟩
    · obtain ⟨x,hx,hfx⟩ := List.any_eq_true.mp h
      exact List.any_eq_true.mpr ⟨x,mem_put.mpr (.inr ⟨hx,find_eq_none.mp hnew x hx⟩),hfx⟩
  intro r hr _ r' hr' _ hname folder hallows
  rw [eq_of_mem h.names hr' hr hname] at hallows
  have hne : r.person≠q.id := by
    intro hperson
    have hsome := h.assigned r hr (hperson ▸ hid)
    rw [hperson,hnew] at hsome
    cases hsome
  unfold allows at hallows ⊢
  rw [hforce] at hallows
  have hother : (w.mem.putPerson q).person r.person=w.mem.person r.person := find_put_ne hne
  rw [hother] at hallows
  exact hallows

/-- A deletion that leaves grants not in force found them not in force, and the person unlimited. -/
theorem deletePerson_grantsInForce {id : Bytes}
    (hreduces : (s.restrictUnassigned || (s.person id).all (fun p => p.access=.all) ||
      s.people.any fun p => p.id≠id && p.access=.granted)=true)
    (hrestrict : s'.restrictUnassigned=s.restrictUnassigned) (hpeople : s'.people=Keyed.drop Person.id s.people id)
    (hids : (s.people.map Person.id).Nodup) (hforce : s'.grantsInForce=false) :
    s.grantsInForce=false ∧ ∀ p, s.person id=some p → p.access=.all := by
  unfold grantsInForce at hforce ⊢
  rw [hrestrict,hpeople,Bool.or_eq_false_iff] at hforce
  obtain ⟨hoff,hothers⟩ := hforce
  have hother : ∀ x∈s.people, x.id≠id → x.access≠.granted := by
    intro x hx hne
    simpa using List.any_eq_false.mp hothers x (mem_drop.mpr ⟨hx,hne⟩)
  have hall : ∀ p, s.person id=some p → p.access=.all := by
    intro p hp
    rw [hoff,hp,Bool.false_or,Bool.or_eq_true] at hreduces
    rcases hreduces with hall | hscoped
    · simpa using hall
    · obtain ⟨x,hx,hscope⟩ := List.any_eq_true.mp hscoped
      simp only [Bool.and_eq_true,decide_eq_true_eq] at hscope
      exact absurd hscope.2 (hother x hx hscope.1)
  refine ⟨?_,hall⟩
  rw [hoff,Bool.false_or]
  refine List.any_eq_false.mpr fun x hx => ?_
  by_cases hid : x.id=id
  · have hfound : s.person id=some x := by
      rw [← hid]
      exact find_of_mem hids hx
    rw [hall x hfound]
    exact fun h => by cases h
  · simpa using hother x hx hid

lemma Narrows.deletePerson (h : Stored cfg w) {id : Bytes}
    (hreduces : (w.mem.restrictUnassigned || (w.mem.person id).all (fun p => p.access=.all) ||
      w.mem.people.any fun p => p.id≠id && p.access=.granted)=true) (hdelete : w.mem.deletePerson id=some s') :
    Narrows w.mem s' := by
  obtain ⟨⟨p,hp⟩,hs'⟩ := deletePerson_some hdelete
  have hpeople : s'.people=Keyed.drop Person.id w.mem.people id := by rw [hs']
  have hrestrict : s'.restrictUnassigned=w.mem.restrictUnassigned := by rw [hs']
  have hperson : ∀ n, n≠id → s'.person n=w.mem.person n := by
    intro n hn
    unfold person
    rw [hpeople]
    exact find_drop_ne hn
  have hnobody : s'.person []=none := by
    refine find_eq_none.mpr fun x hx => ?_
    rw [hpeople] at hx
    exact h.named x (mem_drop.mp hx).1
  intro r hr _ r' hr' _ hname folder hallows
  rw [hs'] at hr'
  obtain ⟨x,hx,rfl⟩ := mem_map.mp hr'
  have hxr : x=r := by
    refine eq_of_mem h.names hx hr ?_
    rw [← hname]
    split <;> rfl
  subst hxr
  unfold allows at hallows ⊢
  by_cases hid : x.person=id
  · -- a Mac of the person is unassigned now
    rw [if_pos hid,hnobody] at hallows
    obtain ⟨-,hall⟩ := deletePerson_grantsInForce hreduces hrestrict hpeople h.ids (by simpa using hallows)
    rw [hid,hp]
    simp [hall p hp]
  · rw [if_neg hid,hperson _ hid] at hallows
    cases hfound : w.mem.person x.person with
    | some q =>
      rw [hfound] at hallows
      exact hallows
    | none =>
      rw [hfound] at hallows
      obtain ⟨hoff,-⟩ := deletePerson_grantsInForce hreduces hrestrict hpeople h.ids (by simpa using hallows)
      simp [hoff]

/-! ### Steps -/

theorem commitAs_mem (io : Io) (changed : Bool) (s : Store) :
    (w.commitAs io changed s).1.mem=s ∨ (w.commitAs io changed s).1.mem=w.mem := by
  change (if _ then _ else _)=_ ∨ (if _ then _ else _)=_
  split
  · exact .inl rfl
  · exact .inr rfl

lemma Narrows.commitAs (h : Stored cfg w) (hs : Narrows w.mem s) (io : Io) (changed : Bool) :
    Narrows w.mem (w.commitAs io changed s).1.mem := by
  rcases commitAs_mem io changed s with hmem | hmem
  · rw [hmem]
    exact hs
  · rw [hmem]
    exact .refl h.names

lemma Narrows.changePeople (h : Stored cfg w) {op : PeopleOp} (io : Io) (scope : Bool)
    (hs : ∀ s, w.mem.change cfg op=some s → Narrows w.mem s) : Narrows w.mem (w.changePeople cfg io op scope).1.mem := by
  rcases changePeople_cases io op scope with hsame | ⟨s,hchange,hcommit⟩
  · rw [hsame]
    exact .refl h.names
  · rw [hcommit]
    exact .commitAs h (hs s hchange) io true

lemma revoked_status (now : ℤ) (r : Mac) : (World.revoked now r).status=.revoked := by
  unfold World.revoked
  split
  · rename_i hrevoked
    exact hrevoked
  · rfl

lemma Narrows.revoke (h : Stored cfg w) (io : Io) (name : Bytes) (now : ℤ) : Narrows w.mem (w.revoke io name now).mem := by
  unfold World.revoke
  split
  · exact .refl h.names
  rename_i cur hcur
  refine .commitAs h ?_ io _
  refine .subset h.names (fun r' hr' hstatus => ?_) rfl rfl
  rcases mem_put.mp hr' with rfl | ⟨hr',-⟩
  · rw [revoked_status] at hstatus
    cases hstatus
  · exact hr'

lemma Narrows.forget (h : Stored cfg w) (io : Io) (name : Bytes) : Narrows w.mem (w.forget io name).mem := by
  unfold World.forget
  split
  · exact .refl h.names
  · split
    · exact .refl h.names
    · refine .commitAs h ?_ io false
      exact .subset h.names (fun r' hr' _ => (mem_drop.mp hr').1) rfl rfl

/-- The people of the file are those of memory, up to the order and their names' bytes. -/
theorem Stored.person_file (h : Stored cfg w) (id : Bytes) :
    Keyed.find Person.id w.files.store.people id=(w.mem.person id).map Person.stored := by
  rw [h.onFile.people]
  have hperm := perm_insertionSort (fun a b : Person => a.id≤b.id) w.mem.people
  have hids : ((w.mem.sortedPeople.map Person.stored).map Person.id).Nodup := by
    rw [map_map]
    exact (hperm.map Person.id).nodup_iff.mpr h.ids
  cases hp : w.mem.person id with
  | none =>
    refine find_eq_none.mpr fun x hx => ?_
    obtain ⟨p,hmem,rfl⟩ := mem_map.mp hx
    exact find_eq_none.mp hp p (hperm.mem_iff.mp hmem)
  | some p =>
    have hmem : p.stored∈w.mem.sortedPeople.map Person.stored := mem_map_of_mem (hperm.mem_iff.mpr (find_mem hp))
    have hkey : p.id=id := find_key hp
    have hid : p.stored.id=id := hkey
    rw [Option.map_some,← hid]
    exact find_of_mem hids hmem

lemma Narrows.restart (h : Stored cfg w) {io io' : Io} {k : Keyd} {now : ℤ} {perMac adopt : Bool} {gens : GoMap Bytes ℕ}
    (hstart : w.restart cfg io io' k now perMac adopt gens=some w') : Narrows w.mem w'.mem := by
  obtain ⟨hidents,hpeople,hrestrict⟩ := h.reloaded hstart
  have hforce : w'.mem.grantsInForce=w.mem.grantsInForce := by
    unfold grantsInForce
    rw [hrestrict,h.onFile.restrict,hpeople,h.onFile.people,any_map]
    congr 1
    exact (perm_insertionSort _ _).any_eq
  intro r hr happroved r' hr' happroved' hname folder hallows
  have hmem := mem_map_of_mem (f := Mac.ident) hr'
  rw [hidents] at hmem
  rcases h.onFile.extra _ hmem with hmem | ⟨hpending,-⟩
  · obtain ⟨x,hx,hident⟩ := mem_of_ident hmem
    have hxr : x=r := eq_of_mem h.names hx hr ((congrArg Ident.name hident).trans hname)
    have hperson : r'.person=r.person := by
      rw [← hxr]
      exact (congrArg Ident.person hident).symm
    unfold allows at hallows ⊢
    have hfind : w'.mem.person r'.person=(w.mem.person r.person).map Person.stored := by
      unfold person
      rw [hpeople,hperson]
      exact h.person_file r.person
    rw [hfind,hforce] at hallows
    cases hp : w.mem.person r.person with
    | none | some p =>
      rw [hp] at hallows
      exact hallows
  · have hstatus : r'.status=.pending := hpending
    rw [happroved'] at hstatus
    cases hstatus

theorem step_narrows (h : Stored cfg w) {a : Act} (hreduces : a.reduces w.mem=true) (hstep : w.step cfg a=some w') :
    Narrows w.mem w'.mem := by
  cases a with
  | people op scope io =>
    cases hstep
    refine .changePeople h io scope fun s hs => ?_
    cases op with
    | create random name now =>
      obtain ⟨-,-,rfl⟩ := createPerson_some hs
      have hnew : w.mem.person (newPersonID random)=none := Option.isNone_iff_eq_none.mp hreduces
      exact .createPerson h (newPersonID_ne_nil random) hnew rfl
    | update id name access =>
      cases access with
      | some access => cases hreduces
      | none =>
        obtain ⟨p,q,hp,hren,hcases⟩ := updatePerson_some hs
        rcases hcases with ⟨-,haccess,rfl⟩ | ⟨a,ha,-⟩
        · refine .putPerson h.names h.ids (find_mem hp) (by rw [hren.rest]) haccess fun g hg => ?_
          rw [hren.rest] at hg
          exact hg
        · cases ha
    | delete id => exact .deletePerson h hreduces hs
    | removeGrant id path =>
      obtain ⟨g,p,hp,rfl⟩ := removeGrant_some hs
      exact .putPerson h.names h.ids (find_mem hp) rfl rfl fun x hx => (mem_filter.mp hx).1
    | _ => cases hreduces
  | revoke name now io =>
    cases hstep
    exact .revoke h io name now
  | forget name io =>
    cases hstep
    exact .forget h io name
  | restart io io' k now perMac adopt gens => exact .restart h hstep
  | _ => cases hreduces

/-- From every state that a Manager can reach, with writes failing anywhere, an operation that takes
access away lets no Mac that stays approved write where it could not. -/
theorem removal_never_widens (cfg : Config) {servers : List PrincipalEntry} (hservers : ∀ e ∈ servers, e.kind ≠ .mac)
    {acts : List Act} {w w' : World} {a : Act} (hrun : run (World.step cfg) (installed servers) acts = some w)
    (hreduces : a.reduces w.mem = true) (hstep : w.step cfg a = some w') {r r' : Mac} (hr : r ∈ w.mem.recs)
    (hr' : r' ∈ w'.mem.recs) (hbefore : r.status = .approved) (hafter : r'.status = .approved) (hname : r'.name = r.name)
    {folder : Text} (hmay : (renderPrincipals w'.mem 2 servers).mayWrite r'.name folder = true) :
    (renderPrincipals w.mem 2 servers).mayWrite r.name folder = true := by
  have hstored : Stored cfg w :=
    run_invariant (I := Stored cfg) (fun _ _ _ h hs => h.step hs) (installed_stored cfg servers) hrun
  obtain ⟨x,hx,hxname,-,hallows⟩ := (mayWrite_render (hstored.step hstep) hservers).mp hmay
  rw [eq_of_mem (hstored.step hstep).names hx hr' hxname] at hallows
  exact (mayWrite_render hstored hservers).mpr
    ⟨r,hr,rfl,hbefore,step_narrows hstored hreduces hstep r hr hbefore r' hr' hafter hname folder hallows⟩

end

section
variable {cfg : Config} {servers : List PrincipalEntry}

lemma reached_stored (r : Reached (World.step cfg) (installed servers)) : Stored cfg r.state :=
  run_invariant (fun _ _ _ h hs => h.step hs) (installed_stored cfg servers) r.run

/-- The proxy's rule on the table refines the rule on the store, in every state that a Manager reaches with
writes failing anywhere. -/
theorem table_refines_store (servers : {l : List PrincipalEntry // ∀ e ∈ l, e.kind ≠ .mac})
    (r : Reached (World.step cfg) (installed servers.1)) (name : Bytes) (folder : Text) :
    (renderPrincipals r.state.mem 2 servers.1).mayWrite name folder = true ↔
      ∃ m ∈ r.state.mem.recs, m.name = name ∧ m.status = .approved ∧ r.state.mem.allows m.person folder = true :=
  mayWrite_render (reached_stored r) servers.2

/-- A restart brings back the Manager that stopped, whichever of its writes failed: every Mac with its status,
secrets and person and none but pending ones besides, the people up to their names' bytes, the restriction. -/
theorem restart_restores (r : Reached (World.step cfg) (installed servers))
    (w : {w // ∃ io io' k now perMac adopt gens, r.state.restart cfg io io' k now perMac adopt gens = some w}) :
    (∀ m ∈ r.state.mem.recs, ∃ m' ∈ w.1.mem.recs, m'.ident = m.ident) ∧
    (∀ m' ∈ w.1.mem.recs, m'.status = .pending ∧ m'.person = [] ∨ ∃ m ∈ r.state.mem.recs, m.ident = m'.ident) ∧
    (∀ id, w.1.mem.person id = (r.state.mem.person id).map Person.stored) ∧
    w.1.mem.restrictUnassigned = r.state.mem.restrictUnassigned := by
  obtain ⟨w,io,io',k,now,perMac,adopt,gens,hstart⟩ := w
  have h := reached_stored r
  obtain ⟨hidents,hpeople,hrestrict⟩ := h.reloaded hstart
  refine ⟨fun m hm => ?_,fun m' hm' => ?_,fun id => ?_,hrestrict.trans h.onFile.restrict⟩
  · exact mem_of_ident (hidents ▸ h.onFile.kept _ (mem_map_of_mem hm))
  · exact (h.onFile.extra _ (hidents ▸ mem_map_of_mem hm')).symm.imp id mem_of_ident
  · rw [← h.person_file id,person,hpeople]

end

def samplePerson : Bytes := newPersonID [1,2,3,4,5,6,7,8]

/-- A Mac without a person, and a person limited to one folder; then the admin switches the
restriction of unassigned Macs off. -/
def grantActs : List Act :=
  approvalActs true++[.people (.create [1,2,3,4,5,6,7,8] ['p'] 0) true {},
    .people (.addGrant samplePerson ['/','a'] none) true {},.people (.restrict false) true {}]

def deletion : Act := .people (.delete samplePerson) true {}

lemma sample_step (acts : List Act) {a : Act} {p : World → World → Mac → Mac → Bool}
    (h : (run (World.step plainConfig) (installed sampleServers) acts).any (fun w => (w.step plainConfig a).any fun w' =>
      (w.mem.mac sampleName).any fun r => (w'.mem.mac sampleName).any fun r' => p w w' r r')=true) :
    ∃ w w' r r',run (World.step plainConfig) (installed sampleServers) acts=some w ∧ w.step plainConfig a=some w' ∧
      w.mem.mac sampleName=some r ∧ w'.mem.mac sampleName=some r' ∧ p w w' r r'=true := by
  obtain ⟨w,hw,h⟩ := (Option.any_eq_true _ _).mp h
  obtain ⟨w',hw',h⟩ := (Option.any_eq_true _ _).mp h
  obtain ⟨r,hr,h⟩ := (Option.any_eq_true _ _).mp h
  obtain ⟨r',hr',h⟩ := (Option.any_eq_true _ _).mp h
  exact ⟨w,w',r,r',hw,hw',hr,hr',h⟩

/-- With the restriction switched off, deleting the last limited person lets the other Mac write. -/
theorem deletion_widens : ∃ w w' r r', run (World.step plainConfig) (installed sampleServers) grantActs = some w ∧
    w.step plainConfig deletion = some w' ∧ r ∈ w.mem.recs ∧ r' ∈ w'.mem.recs ∧ r.status = .approved ∧ r'.status = .approved ∧
    r'.name = r.name ∧ (renderPrincipals w.mem 2 sampleServers).mayWrite r.name ['/','x'] = false ∧
    (renderPrincipals w'.mem 2 sampleServers).mayWrite r'.name ['/','x'] = true := by
  obtain ⟨w,w',r,r',hw,hw',hr,hr',hafter⟩ := sample_step grantActs (a := deletion)
    (p := fun w w' r r' => r.status=.approved && r'.status=.approved &&
      !(renderPrincipals w.mem 2 sampleServers).mayWrite sampleName ['/','x'] &&
      (renderPrincipals w'.mem 2 sampleServers).mayWrite sampleName ['/','x']) (by decide +kernel)
  simp only [and_eq_true,decide_eq_true_eq,not_eq_true'] at hafter
  obtain ⟨⟨⟨hstatus,hstatus'⟩,hbefore⟩,hafter⟩ := hafter
  refine ⟨w,w',r,r',hw,hw',mac_mem hr,mac_mem hr',hstatus,hstatus',(mac_name hr').trans (mac_name hr).symm,?_,?_⟩
  · rw [mac_name hr]
    exact hbefore
  · rw [mac_name hr']
    exact hafter

def assignedActs : List Act :=
  approvalActs true++[.people (.create [1,2,3,4,5,6,7,8] ['p'] 0) true {},.people (.assign sampleName samplePerson) true {},
    .people (.addGrant samplePerson ['/','a'] none) true {},.people (.addGrant samplePerson ['/','b'] none) true {}]

def grantRemoval : Act := .people (.removeGrant samplePerson ['/','b']) true {}

/-- What the Mac may write after one grant is gone it could write before. -/
theorem removal_never_widens_grant : ∃ w w' r r', run (World.step plainConfig) (installed sampleServers) assignedActs = some w ∧
    w.step plainConfig grantRemoval = some w' ∧ r ∈ w.mem.recs ∧ r' ∈ w'.mem.recs ∧
    (renderPrincipals w'.mem 2 sampleServers).mayWrite r'.name ['/','a','/','c'] = true ∧
    (renderPrincipals w.mem 2 sampleServers).mayWrite r.name ['/','a','/','c'] = true := by
  obtain ⟨w,w',r,r',hw,hw',hr,hr',hafter⟩ := sample_step assignedActs (a := grantRemoval)
    (p := fun w w' r r' => r.status=.approved && r'.status=.approved && grantRemoval.reduces w.mem &&
      (renderPrincipals w'.mem 2 sampleServers).mayWrite sampleName ['/','a','/','c']) (by decide +kernel)
  simp only [and_eq_true,decide_eq_true_eq] at hafter
  obtain ⟨⟨⟨hstatus,hstatus'⟩,hreduces⟩,hmay⟩ := hafter
  rw [← mac_name hr'] at hmay
  refine ⟨w,w',r,r',hw,hw',mac_mem hr,mac_mem hr',hmay,?_⟩
  exact removal_never_widens plainConfig (by decide) hw hreduces hw' (mac_mem hr) (mac_mem hr') hstatus hstatus'
    ((mac_name hr').trans (mac_name hr).symm) hmay

end JuiceMount.Manager
