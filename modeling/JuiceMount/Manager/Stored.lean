import JuiceMount.Manager.Moves

/-! The store file against memory. Whatever writes fail, every record and every person in memory is
in the store file; the file may still hold a pending record that memory has dropped. -/
namespace JuiceMount.Manager
open Transition List Keyed Mac World Store
open RespProxy (Bytes ascii)

/-- What the proxy's files say about a record apart from its person. -/
structure Cred where
  name : Bytes
  status : Status
  host : Bytes
  argon2id : Bytes
  redisSHA256 : Bytes
  deriving DecidableEq

def Mac.cred (r : Mac) : Cred := ⟨r.name,r.status,r.host,r.argon2id,r.redisSHA256⟩

lemma creds_of_cores {a b : List Mac} (h : b.map core=a.map core) : b.map cred=a.map cred := by
  have hmap : ∀ l : List Mac, l.map cred =
      (l.map core).map fun c => ⟨c.1.name,c.1.status,c.2,c.1.argon2id,c.1.redisSHA256⟩ := fun l => by
    rw [map_map]
    rfl
  rw [hmap,hmap,h]

/-! ### People operations -/

/-- What a change of people keeps. -/
structure Changed (s s' : Store) : Prop where
  objk : s'.objk=s.objk
  creds : s'.recs.map Mac.cred = s.recs.map Mac.cred
  ids : (s.people.map Person.id).Nodup → (s'.people.map Person.id).Nodup
  named : (∀ p∈s.people, p.id≠[]) → ∀ p∈s'.people, p.id≠[]
  assigned : (∀ r∈s.recs, r.person≠[] → (s.person r.person).isSome) →
    ∀ r∈s'.recs, r.person≠[] → (s'.person r.person).isSome

variable {s s' : Store} {cfg : Config} {m : Mac}

lemma person_putPerson {p : Person} {id : Bytes} (h : (s.person id).isSome) : ((s.putPerson p).person id).isSome := by
  by_cases hid : id=p.id
  · subst hid
    change (find Person.id (put Person.id s.people p) p.id).isSome
    rw [find_put_self]
    rfl
  · change (find Person.id (put Person.id s.people p) id).isSome
    rw [find_put_ne hid]
    exact h

theorem Changed.putPerson {p : Person} (hp : p.id≠[]) (hobjk : s'.objk=s.objk) (hrecs : s'.recs=s.recs)
    (hpeople : s'.people=(s.putPerson p).people) : Changed s s' where
  objk := hobjk
  creds := by rw [hrecs]
  ids := by
    rw [hpeople]
    exact fun h => nodup_put h p
  named := by
    rw [hpeople]
    intro h q hq
    rcases mem_put.mp hq with rfl | ⟨hq,-⟩
    · exact hp
    · exact h q hq
  assigned := by
    rw [hrecs]
    intro h r hr hperson
    unfold Store.person
    rw [hpeople]
    exact person_putPerson (h r hr hperson)

lemma Changed.deletePerson (id : Bytes) : Changed s {s with
    people := drop Person.id s.people id
    recs := s.recs.map fun r => if r.person=id then {r with person := []} else r} where
  objk := rfl
  creds := by
    rw [map_map]
    refine map_congr_left fun r _ => ?_
    rw [Function.comp_apply]
    split <;> rfl
  ids := fun h => nodup_drop h id
  named := fun h p hp => h p (mem_drop.mp hp).1
  assigned := by
    intro h r hr hperson
    obtain ⟨r₀,hr₀,rfl⟩ := mem_map.mp hr
    split at hperson
    · exact absurd rfl hperson
    · rename_i hid
      rw [if_neg hid]
      change (find Person.id (drop Person.id s.people id) r₀.person).isSome
      rw [find_drop_ne hid]
      exact h r₀ hr₀ hperson

lemma put_creds {recs : List Mac} {cur next : Mac} (hnodup : (recs.map name).Nodup) (hmem : cur∈recs)
    (hcred : next.cred=cur.cred) : (put name recs next).map cred=recs.map cred := by
  have hname : next.name=cur.name := congrArg Cred.name hcred
  unfold put
  rw [if_pos (by simp only [List.any_eq_true]; exact ⟨cur,hmem,by simp [hname]⟩),map_map]
  refine map_congr_left fun r hr => ?_
  rw [Function.comp_apply]
  split
  · rename_i h
    rw [hcred,eq_of_mem hnodup hr hmem (h.trans hname)]
  · rfl

lemma Changed.assign {r : Mac} {person : Bytes} (hnodup : (s.recs.map name).Nodup) (hr : r∈s.recs)
    (hperson : person≠[] → (s.person person).isSome) : Changed s (s.putMac {r with person := person}) where
  objk := rfl
  creds := put_creds hnodup hr rfl
  ids := id
  named := id
  assigned := by
    intro h q hq hne
    rcases mem_put.mp hq with rfl | ⟨hq,-⟩
    · exact hperson hne
    · exact h q hq hne

lemma newPersonID_ne_nil (random : Bytes) : newPersonID random≠[] := by
  intro h
  have := congrArg List.length h
  simp [newPersonID,ascii] at this

/-! What each operation makes of the store when it goes through. -/

section

lemma createPerson_some {random : Bytes} {name : Text} {now : ℤ} (h : s.createPerson cfg random name now=some s') :
    cleanText name 128≠[] ∧ s.people.length < maxPeopleInStore ∧
      s'=s.putPerson {id := newPersonID random, name := cleanText name 128, access := .all, createdAt := now} := by
  unfold createPerson at h
  dsimp only at h
  split_ifs at h
  · rename_i hok
    simp only [Bool.or_eq_true,decide_eq_true_eq,not_or,not_le] at hok
    cases h
    exact ⟨hok.1.1,hok.1.2,rfl⟩

/-- The person with a new name, if one is given. -/
structure Renamed (given : Option Text) (p q : Person) : Prop where
  name : q.name = match given with
    | none => p.name
    | some t => cleanText t 128
  filled : ∀ t, given=some t → cleanText t 128≠[]
  rest : q = { p with name := q.name, access := q.access }

variable {id : Bytes}

lemma updatePerson_some {name : Option Text} {access : Option (Option Access)}
    (h : s.updatePerson id name access=some s') : ∃ p q, s.person id=some p ∧ Renamed name p q ∧
      (access=none ∧ q.access=p.access ∧ s'=s.putPerson q ∨
        ∃ a, access=some (some a) ∧ q.access=a ∧
          s' = {s.putPerson q with restrictUnassigned := s.restrictUnassigned || a=.granted}) := by
  unfold updatePerson at h
  split at h
  · cases h
  rename_i p hp
  dsimp only at h
  have hrenamed : ∀ q a, (match name with
      | none => some p
      | some t => if cleanText t 128=[] then none else some {p with name := cleanText t 128})=some q →
      Renamed name p {q with access := a} ∧ q.access=p.access := by
    intro q a hq
    cases name with
    | none =>
      cases hq
      exact ⟨⟨rfl,fun _ ht => (by cases ht),rfl⟩,rfl⟩
    | some t =>
      dsimp only at hq
      split_ifs at hq
      · rename_i hfilled
        cases hq
        refine ⟨⟨rfl,fun t' ht => ?_,rfl⟩,rfl⟩
        cases ht
        exact hfilled
  split at h
  · cases h
  · rename_i q hq
    cases h
    obtain ⟨hren,haccess⟩ := hrenamed q q.access hq
    exact ⟨p,q,hp,hren,.inl ⟨rfl,haccess,rfl⟩⟩
  · cases h
  · rename_i q a hq
    cases h
    exact ⟨p,{q with access := a},hp,(hrenamed q a hq).1,.inr ⟨a,rfl,rfl,rfl⟩⟩

lemma deletePerson_some (h : s.deletePerson id=some s') : (∃ p, s.person id=some p) ∧
    s' = {s with
      people := drop Person.id s.people id
      recs := s.recs.map fun r => if r.person=id then {r with person := []} else r} := by
  unfold deletePerson at h
  split at h
  · cases h
  · rename_i p hp
    cases h
    exact ⟨⟨p,hp⟩,rfl⟩

lemma assignDevice_some {device person : Bytes} (h : s.assignDevice device person=some s') :
    ∃ r, s.mac device=some r ∧ (person≠[] → (s.person person).isSome) ∧ s'=s.putMac {r with person := person} := by
  unfold assignDevice at h
  split at h
  · cases h
  rename_i r hr
  split_ifs at h
  · rename_i hperson
    cases h
    refine ⟨r,hr,fun hne => ?_,rfl⟩
    simpa [hne,Option.isSome_iff_ne_none] using hperson

lemma addGrant_some {path : Text} {view : Option FolderView} (h : s.addGrant cfg id path view=some s') :
    s'=s ∨ ∃ c p, (cleanGrantPath path).bind (grantForm cfg view)=some c ∧ s.person id=some p ∧ c ∉ p.grants ∧
      p.grants.length < maxGrantsPerUser ∧
      s' = {s.putPerson {p with grants := (p.grants++[c]).insertionSort (· ≤ ·), access := .granted} with
        restrictUnassigned := true} := by
  unfold addGrant at h
  split at h
  · cases h
  rename_i c hc
  split at h
  · cases h
  · rename_i p hp
    split at h
    · cases h
      exact .inl rfl
    · rename_i hnew
      split_ifs at h
      · rename_i hroom
        cases h
        exact .inr ⟨c,p,hc,hp,hnew,not_le.mp hroom,rfl⟩

lemma removeGrant_some {path : Text} (h : s.removeGrant cfg id path=some s') :
    ∃ g p, s.person id=some p ∧ s'=s.putPerson {p with grants := p.grants.filter fun x => x≠g} := by
  unfold removeGrant at h
  split at h
  · cases h
  rename_i c hc
  split at h
  · cases h
  · rename_i p hp
    dsimp only at h
    split_ifs at h
    · cases h
      exact ⟨_,p,hp,rfl⟩

end

lemma change_changed {op : PeopleOp} (hnodup : (s.recs.map name).Nodup)
    (hnamed : ∀ p∈s.people, p.id≠[]) (h : s.change cfg op=some s') : Changed s s' := by
  have hfound : ∀ id p, s.person id=some p → p.id≠[] := fun _ p hp => hnamed p (find_mem hp)
  cases op with
  | create random name now =>
    obtain ⟨-,-,rfl⟩ := createPerson_some h
    exact .putPerson (newPersonID_ne_nil random) rfl rfl rfl
  | update id name access =>
    obtain ⟨p,q,hp,hren,hs'⟩ := updatePerson_some h
    have hq : q.id≠[] := by
      rw [hren.rest]
      exact hfound id p hp
    rcases hs' with ⟨-,-,rfl⟩ | ⟨a,-,-,rfl⟩
    · exact .putPerson hq rfl rfl rfl
    · exact .putPerson hq rfl rfl rfl
  | restrict on =>
    cases h
    exact ⟨rfl,rfl,fun h => h,fun h => h,fun h => h⟩
  | delete id =>
    obtain ⟨-,rfl⟩ := deletePerson_some h
    exact .deletePerson id
  | assign device person =>
    obtain ⟨r,hr,hperson,rfl⟩ := assignDevice_some h
    exact .assign hnodup (mac_mem hr) hperson
  | addGrant id path view =>
    rcases addGrant_some h with rfl | ⟨c,p,-,hp,-,-,rfl⟩
    · exact ⟨rfl,rfl,fun h => h,fun h => h,fun h => h⟩
    · refine .putPerson ?_ rfl rfl rfl
      exact hfound id p hp
  | removeGrant id path =>
    obtain ⟨g,p,hp,rfl⟩ := removeGrant_some h
    refine .putPerson ?_ rfl rfl rfl
    exact hfound id p hp

/-! ### The store file -/

/-- The store file holds the records and people of memory, and possibly pending records that memory
has dropped. -/
structure OnFile (s : Store) (f : StoreFile) : Prop where
  names : (f.recs.map Mac.name).Nodup
  kept : ∀ i ∈ s.recs.map Mac.ident, i ∈ f.recs.map Mac.ident
  extra : ∀ i ∈ f.recs.map Mac.ident, i ∈ s.recs.map Mac.ident ∨ i.status=.pending ∧ i.person=[]
  people : f.people = s.sortedPeople.map Person.stored
  restrict : f.restrictUnassigned=s.restrictUnassigned

lemma toFile_idents (s : Store) (kept : ObjKeys) : ((s.toFile kept).recs.map ident).Perm (s.recs.map ident) := by
  have hmap : (s.toFile kept).recs.map ident=(s.recs.insertionSort fun a b => a.name≤b.name).map ident := by
    change ((s.recs.insertionSort fun a b => a.name≤b.name).map stored).map ident=_
    rw [map_map]
    rfl
  rw [hmap]
  exact (perm_insertionSort _ _).map _

lemma names_of_idents (recs : List Mac) : recs.map name=(recs.map ident).map Ident.name := by
  rw [map_map]
  rfl

lemma toFile_names (s : Store) (kept : ObjKeys) (hnodup : (s.recs.map name).Nodup) :
    ((s.toFile kept).recs.map name).Nodup := by
  rw [names_of_idents] at hnodup ⊢
  exact ((toFile_idents s kept).map Ident.name).nodup_iff.mpr hnodup

lemma OnFile.ofToFile (hnodup : (s.recs.map name).Nodup) (kept : ObjKeys) : OnFile s (s.toFile kept) where
  names := toFile_names s kept hnodup
  kept := fun _ hi => (toFile_idents s kept).mem_iff.mpr hi
  extra := fun _ hi => .inl ((toFile_idents s kept).mem_iff.mp hi)
  people := rfl
  restrict := rfl

theorem OnFile.quiet {f : StoreFile} (h : OnFile s f) (hquiet : Quiet s s') : OnFile s' f := by
  refine ⟨h.names,?_,?_,?_,h.restrict.trans hquiet.restrict.symm⟩
  · rw [hquiet.idents]
    exact h.kept
  · rw [hquiet.idents]
    exact h.extra
  · rw [h.people,sortedPeople,sortedPeople,hquiet.people]

lemma Joined.idents (h : Joined s s' m) : s'.recs.map ident=s.recs.map ident++[m.ident] := by
  have hmap : ∀ l : List Mac, l.map ident=(l.map core).map Prod.fst := fun l => by
    rw [map_map]
    rfl
  rw [hmap,hmap,h.recs,map_append]
  rfl

lemma Joined.nodup (h : Joined s s' m) (hfresh : FreshMac cfg s m)
    (hnodup : (s.recs.map name).Nodup) : (s'.recs.map name).Nodup := by
  rw [names_of_idents,h.idents,map_append,← names_of_idents]
  refine nodup_append.mpr ⟨hnodup,nodup_singleton _,fun a ha b hb => ?_⟩
  obtain ⟨r,hr,rfl⟩ := mem_map.mp ha
  rw [map_singleton,mem_singleton] at hb
  rw [hb]
  exact hfresh.new r hr

/-- The file was written with a record that memory has dropped again. -/
theorem OnFile.dropped (hjoin : Joined s s' m) (hfresh : FreshMac cfg s m)
    (hnodup : (s.recs.map name).Nodup) (kept : ObjKeys) : OnFile s (s'.toFile kept) := by
  have hfile := OnFile.ofToFile (hjoin.nodup hfresh hnodup) kept
  refine ⟨hfile.names,fun i hi => ?_,fun i hi => ?_,?_,hfile.restrict.trans hjoin.restrict⟩
  · refine hfile.kept i ?_
    rw [hjoin.idents]
    exact mem_append_left _ hi
  · have hi' := (toFile_idents s' kept).mem_iff.mp hi
    rw [hjoin.idents,mem_append,mem_singleton] at hi'
    rcases hi' with hi' | rfl
    · exact .inl hi'
    · exact .inr ⟨hfresh.status,hfresh.person⟩
  · rw [hfile.people,sortedPeople,sortedPeople,hjoin.people]

/-! ### What writes leave of the store file -/

lemma writeProxyFiles_store (io : Io) (s : Store) (f : Files) :
    (writeProxyFiles io s f).1.store=f.store ∧ (writeProxyFiles io s f).1.kept=f.kept := by
  unfold writeProxyFiles
  dsimp only
  repeat' split
  all_goals exact ⟨rfl,rfl⟩

lemma saveStore_store (io : Io) (k : ℕ) (s : Store) (f : Files) :
    (saveStore io k s f).1.store=if (saveStore io k s f).2 then s.toFile f.kept else f.store := by
  unfold saveStore
  repeat' split
  all_goals simp_all

theorem commit_store (io : Io) (changed : Bool) (s : Store) (f : Files) :
    (commit io changed s f).1.store=if (commit io changed s f).2 then s.toFile f.kept else f.store := by
  obtain ⟨hstore,hkept⟩ := writeProxyFiles_store io s f
  unfold commit
  split
  · dsimp only
    split
    · rw [saveStore_store,hstore,hkept]
    · exact hstore
  · exact saveStore_store io 0 s f

/-! ### A restart -/

section
variable {perMac adopt : Bool} {gens : GoMap Bytes ℕ} {f : StoreFile}

lemma loadPeople_some {people : List Person} {recs : List Mac} (h : loadPeople f=some (people,recs)) :
    people=f.people ∧ (f.people.map Person.id).Nodup ∧ (∀ p∈f.people, p.id≠[]) ∧
      recs=f.recs.map fun r => if r.person≠[] && (find Person.id f.people r.person).isNone
        then {r with person := []} else r := by
  unfold loadPeople at h
  split_ifs at h
  · rename_i hok
    simp only [Bool.or_eq_true,List.any_eq_true,decide_eq_true_eq,Bool.not_eq_true',decide_eq_false_iff_not,not_or,not_exists,
      not_and,not_not] at hok
    cases h
    exact ⟨rfl,hok.2,hok.1,rfl⟩

theorem load_some (hassigned : ∀ r∈f.recs, r.person≠[] → (find Person.id f.people r.person).isSome)
    (h : load cfg perMac adopt gens f=some s) : s.recs.map core=f.recs.map core ∧ s.people=f.people ∧
      s.restrictUnassigned=f.restrictUnassigned ∧ (f.people.map Person.id).Nodup ∧ ∀ p∈f.people, p.id≠[] := by
  unfold load at h
  split at h
  · cases h
  obtain ⟨⟨people,recs⟩,hl,rfl⟩ := Option.map_eq_some_iff.mp h
  obtain ⟨rfl,hids,hnamed,rfl⟩ := loadPeople_some hl
  refine ⟨?_,rfl,rfl,hids,hnamed⟩
  unfold adoptSharedKeys
  rw [map_map,map_map]
  refine map_congr_left fun r hr => ?_
  have hkeep : (if r.person≠[] && (find Person.id f.people r.person).isNone then {r with person := []} else r)=r := by
    refine if_neg fun hlost => ?_
    simp only [Bool.and_eq_true,decide_eq_true_eq,Option.isNone_iff_eq_none] at hlost
    have hsome := hassigned r hr hlost.1
    rw [hlost.2] at hsome
    cases hsome
  rw [Function.comp_apply,Function.comp_apply,hkeep]
  split <;> rfl

end

lemma stored_stored (p : Person) : p.stored.stored=p.stored := by
  unfold Person.stored
  rw [Utf8.coerce_coerce]

lemma OnFile.sorted {f : StoreFile} (h : OnFile s f) :
    f.people=(f.people.insertionSort fun a b => a.id≤b.id).map Person.stored := by
  have hsorted : f.people.Pairwise fun a b => a.id≤b.id := by
    rw [h.people,pairwise_map]
    exact pairwise_insertionSort (fun a b : Person => a.id≤b.id) s.people
  rw [List.Pairwise.insertionSort_eq hsorted]
  nth_rewrite 2 [h.people]
  rw [map_map,h.people]
  exact (map_congr_left fun p _ => stored_stored p).symm

/-! ### The invariant -/

/-- What holds of every state of a Manager, whatever writes failed. -/
structure Stored (cfg : Config) (w : World) : Prop where
  names : (w.mem.recs.map Mac.name).Nodup
  ids : (w.mem.people.map Person.id).Nodup
  named : ∀ p∈w.mem.people, p.id≠[]
  assigned : ∀ r∈w.mem.recs, r.person≠[] → (w.mem.person r.person).isSome
  onFile : OnFile w.mem w.files.store
  parsed : Parsed cfg w

section
variable {w w' : World} {a : Act}

lemma mem_of_ident {recs : List Mac} {i : Ident} (h : i∈recs.map ident) : ∃ r∈recs, r.ident=i := mem_map.mp h

variable {io io' : Io} {k : Keyd} {now : ℤ} {perMac adopt : Bool} {gens : GoMap Bytes ℕ}

lemma Quiet.assigned (h : Quiet s s') (hassigned : ∀ r∈s.recs, r.person≠[] → (s.person r.person).isSome) :
    ∀ r∈s'.recs, r.person≠[] → (s'.person r.person).isSome := by
  intro r' hr' hne
  have hmem := mem_map_of_mem (f := ident) hr'
  rw [h.idents] at hmem
  obtain ⟨r,hr,hident⟩ := mem_of_ident hmem
  have hperson : r.person=r'.person := congrArg Ident.person hident
  rw [← hperson] at hne ⊢
  unfold Store.person
  rw [h.people]
  exact hassigned r hr hne

theorem OnFile.savedAs {f f' : Files} (h : OnFile s f.store) (hnodup : (s.recs.map name).Nodup)
    (hsaved : SavedAs (Quiet s) f f') : OnFile s f'.store := by
  rcases hsaved.store with hsame | ⟨t,ht,hstore⟩
  · rw [hsame]
    exact h
  · rw [hstore]
    exact (OnFile.ofToFile (by rw [ht.names]; exact hnodup) _).quiet ht.symm

theorem OnFile.committed {s t : Store} {f : Files} (h : OnFile s f.store) (hnodup : (t.recs.map name).Nodup) (io : Io)
    (changed : Bool) : OnFile (if (commit io changed t f).2 then t else s) (commit io changed t f).1.store := by
  rw [commit_store]
  split
  · exact .ofToFile hnodup _
  · exact h

theorem Stored.fileAssigned (h : Stored cfg w) : ∀ r∈w.files.store.recs, r.person≠[] →
    (find Person.id w.files.store.people r.person).isSome := by
  intro r hr hne
  rcases h.onFile.extra r.ident (mem_map_of_mem hr) with hmem | ⟨-,hperson⟩
  · obtain ⟨r',hr',hident⟩ := mem_of_ident hmem
    have hperson : r'.person=r.person := congrArg Ident.person hident
    rw [← hperson] at hne ⊢
    obtain ⟨p,hp⟩ := Option.isSome_iff_exists.mp (h.assigned r' hr' hne)
    have hfile : p.stored∈w.files.store.people := by
      rw [h.onFile.people]
      exact mem_map_of_mem ((mem_insertionSort _).mpr (find_mem hp))
    by_contra hnone
    have := find_eq_none.mp (Option.not_isSome_iff_eq_none.mp hnone) p.stored hfile
    have hkey : p.id=r'.person := find_key hp
    exact this hkey
  · exact absurd hperson hne

/-- A start that goes through: the store is loaded, the proxy's files are written, and the keys are
reconciled. -/
theorem restart_some (h : w.restart cfg io io' k now perMac adopt gens=some w') :
    ∃ s, load cfg perMac adopt gens w.files.store=some s ∧
      (writeProxyFiles io s (adoptSave io adopt s (reopened w.files)).1).2=true ∧ KeysOnly s w'.mem ∧
      SavedKeys s (writeProxyFiles io s (adoptSave io adopt s (reopened w.files)).1).1 w'.files ∧ w'.calls=[] := by
  unfold restart at h
  split at h
  · cases h
  rename_i s hload
  dsimp only at h
  split_ifs at h with hok
  have hkeys := reconcileObjKeys_keysOnly io' k now true s
    (writeProxyFiles io s (adoptSave io adopt s (reopened w.files)).1).1
  cases h
  exact ⟨s,hload,(Bool.and_eq_true_iff.mp hok).2,hkeys.1,hkeys.2,rfl⟩

lemma idents_of_cores {a b : List Mac} (h : b.map core=a.map core) : b.map ident=a.map ident := by
  have hmap : ∀ l : List Mac, l.map ident=(l.map core).map Prod.fst := fun l => by
    rw [map_map]
    rfl
  rw [hmap,hmap,h]

/-- A new process has the records and people of the store file. -/
theorem Stored.reloaded (h : Stored cfg w) (hstart : w.restart cfg io io' k now perMac adopt gens=some w') :
    w'.mem.recs.map ident=w.files.store.recs.map ident ∧ w'.mem.people=w.files.store.people ∧
      w'.mem.restrictUnassigned=w.files.store.restrictUnassigned := by
  obtain ⟨s,hload,-,hkeys,-⟩ := restart_some hstart
  obtain ⟨hcores,hpeople,hrestrict,-⟩ := load_some h.fileAssigned hload
  have hquiet := Quiet.ofKeys hkeys
  exact ⟨idents_of_cores (hquiet.recs.trans hcores),hquiet.people.trans hpeople,hquiet.restrict.trans hrestrict⟩

lemma Stored.restart (h : Stored cfg w)
    (hstart : w.restart cfg io io' k now perMac adopt gens=some w') : Stored cfg w' := by
  obtain ⟨s,hload,-,hkeys,hfiles,hcalls⟩ := restart_some hstart
  obtain ⟨hidents,hpeople',-⟩ := h.reloaded hstart
  obtain ⟨hcores,hpeople,hrestrict,hids,hnamed⟩ := load_some h.fileAssigned hload
  have hnames : (s.recs.map name).Nodup := by
    rw [names_of_idents,idents_of_cores hcores,← names_of_idents]
    exact h.onFile.names
  have hloaded : OnFile s w.files.store := by
    refine ⟨h.onFile.names,?_,?_,?_,hrestrict.symm⟩
    · rw [idents_of_cores hcores]
      exact fun _ hi => hi
    · rw [idents_of_cores hcores]
      exact fun _ hi => .inl hi
    · rw [sortedPeople,hpeople]
      exact h.onFile.sorted
  have hsaved : OnFile s (adoptSave io adopt s (reopened w.files)).1.store := by
    unfold adoptSave
    split
    · rw [saveStore_store]
      split
      · exact .ofToFile hnames _
      · exact hloaded
    · exact hloaded
  rw [← (writeProxyFiles_store io s _).1] at hsaved
  have hquiet := Quiet.ofKeys hkeys
  refine ⟨by rw [hquiet.names]; exact hnames,by rw [hpeople']; exact hids,by rw [hpeople']; exact hnamed,?_,
    (hsaved.savedAs hnames (.ofKeys hfiles)).quiet hquiet,fun e ip old he => ?_⟩
  · intro x hx hne
    have hmem := mem_map_of_mem (f := ident) hx
    rw [hidents] at hmem
    obtain ⟨y,hy,hident⟩ := mem_of_ident hmem
    have hperson : y.person=x.person := congrArg Ident.person hident
    unfold Store.person
    rw [hpeople',← hperson]
    exact h.fileAssigned y hy (hperson ▸ hne)
  · rw [hcalls] at he
    cases he

lemma Decided.assigned {changed : Bool} (h : Decided s s' changed)
    (hassigned : ∀ r∈s.recs, r.person≠[] → (s.person r.person).isSome) :
    ∀ r∈s'.recs, r.person≠[] → (s'.person r.person).isSome := by
  intro r' hr' hne
  obtain ⟨r,hr,-,-,hperson⟩ := h.origin r' hr'
  unfold Store.person
  rw [h.people]
  rcases hperson with hperson | hsome
  · rw [hperson] at hne ⊢
    exact hassigned r hr hne
  · exact hsome

lemma Joined.assigned {m : Mac} (h : Joined s s' m) (hm : m.person=[])
    (hassigned : ∀ r∈s.recs, r.person≠[] → (s.person r.person).isSome) :
    ∀ r∈s'.recs, r.person≠[] → (s'.person r.person).isSome := by
  intro r' hr' hne
  have hmem := mem_map_of_mem (f := ident) hr'
  rw [h.idents,mem_append,mem_singleton] at hmem
  rcases hmem with hmem | hmem
  · obtain ⟨r,hr,hident⟩ := mem_of_ident hmem
    have hperson : r.person=r'.person := congrArg Ident.person hident
    rw [← hperson] at hne ⊢
    unfold Store.person
    rw [h.people]
    exact hassigned r hr hne
  · have hperson : r'.person=m.person := congrArg Ident.person hmem
    exact absurd (hperson.trans hm) hne

lemma changePeople_cases (io : Io) (op : PeopleOp) (scope : Bool) : w.changePeople cfg io op scope=(w,false) ∨
      ∃ s, w.mem.change cfg op=some s ∧ w.changePeople cfg io op scope=w.commitAs io true s := by
  unfold changePeople
  split
  · exact .inl rfl
  · rename_i s hs
    split
    · exact .inl rfl
    · exact .inr ⟨s,hs,rfl⟩

lemma Changed.names (h : Changed s s') : s'.recs.map name=s.recs.map name := by
  have hmap : ∀ l : List Mac, l.map name=(l.map cred).map Cred.name := fun l => by
    rw [map_map]
    rfl
  rw [hmap,hmap,h.creds]

lemma Stored.quiet (h : Stored cfg w) (mem : Quiet w.mem w'.mem) (hfile : OnFile w'.mem w'.files.store)
    (hparsed : Parsed cfg w') : Stored cfg w' :=
  ⟨by rw [mem.names]; exact h.names,by rw [mem.people]; exact h.ids,by rw [mem.people]; exact h.named,mem.assigned h.assigned,
    hfile,hparsed⟩

theorem Stored.committed (h : Stored cfg w) {io : Io} {changed : Bool} {s : Store} (hnames : (s.recs.map name).Nodup)
    (hids : (s.people.map Person.id).Nodup) (hnamed : ∀ p∈s.people, p.id≠[])
    (hassigned : ∀ r∈s.recs, r.person≠[] → (s.person r.person).isSome)
    (hmem : w'.mem=if (commit io changed s w.files).2 then s else w.mem)
    (hfiles : w'.files=(commit io changed s w.files).1) (hparsed : Parsed cfg w') : Stored cfg w' := by
  have hfile : OnFile w'.mem w'.files.store := by
    rw [hmem,hfiles]
    exact h.onFile.committed hnames io changed
  split at hmem
  · exact ⟨by rw [hmem]; exact hnames,by rw [hmem]; exact hids,by rw [hmem]; exact hnamed,by rw [hmem]; exact hassigned,
      hfile,hparsed⟩
  · exact h.quiet (by rw [hmem]; exact .refl _) hfile hparsed

theorem Stored.step (h : Stored cfg w) (hstep : w.step cfg a=some w') : Stored cfg w' := by
  have hparsed := h.parsed.step hstep
  cases step_move h.names h.parsed hstep with
  | quiet a w' mem files => exact h.quiet mem ((h.onFile.savedAs h.names files).quiet mem) hparsed
  | reload a w' mem files =>
    refine h.quiet (by rw [mem]; exact .refl _) ?_ hparsed
    rw [mem,files,(writeProxyFiles_store a.io w.mem w.files).1]
    exact h.onFile
  | noticed a w' mem files =>
    refine h.quiet (by rw [mem]; exact .refl _) ?_ hparsed
    rw [mem,files]
    exact h.onFile
  | decide a s changed w' rewrites decided mem files =>
    exact h.committed decided.nodup (by rw [decided.people]; exact h.ids) (by rw [decided.people]; exact h.named)
      (decided.assigned h.assigned) mem files hparsed
  | enrolled a m w' s fresh mem saved files =>
    refine ⟨mem.nodup fresh h.names,by rw [mem.people]; exact h.ids,by rw [mem.people]; exact h.named,
      mem.assigned fresh.person h.assigned,?_,hparsed⟩
    rw [files]
    have hquiet : Quiet s w'.mem := ⟨mem.recs.trans saved.recs.symm,mem.people.trans saved.people.symm,
      mem.restrict.trans saved.restrict.symm⟩
    exact (OnFile.ofToFile (saved.nodup fresh h.names) _).quiet hquiet
  | notEnrolled a m w' fresh mem files =>
    refine h.quiet mem (OnFile.quiet ?_ mem) hparsed
    rcases files.store with hsame | ⟨s,hs | hs,hstore⟩
    · rw [hsame]
      exact h.onFile
    · rw [hstore]
      exact (OnFile.ofToFile (by rw [hs.names]; exact h.names) _).quiet hs.symm
    · rw [hstore]
      exact .dropped hs fresh h.names _
  | people op scope io =>
    rcases changePeople_cases io op scope with hsame | ⟨s,hs,hcommit⟩
    · rw [hsame]
      exact h
    · have hchanged := change_changed h.names h.named hs
      rw [hcommit] at hparsed ⊢
      exact h.committed (by rw [hchanged.names]; exact h.names) (hchanged.ids h.ids) (hchanged.named h.named)
        (hchanged.assigned h.assigned) rfl rfl hparsed
  | restart io io' k now perMac adopt gens w' starts => exact h.restart starts

end

/-- A fresh installation: the table holds the servers' entries only. -/
def installed (servers : List PrincipalEntry) : World := { files := { table := some { principals := servers } } }

lemma installed_stored (cfg : Config) (servers : List PrincipalEntry) : Stored cfg (installed servers) where
  names := nodup_nil
  ids := nodup_nil
  named := fun _ hp => by cases hp
  assigned := fun _ hr => by cases hr
  onFile := @OnFile.ofToFile {} nodup_nil {}
  parsed := fun _ _ _ hc => by cases hc

/-- A Mac enrols and is approved; the store file is written or not. -/
def approvalActs (stored : Bool) : List Act :=
  [.enroll (sampleRequest 's') [] 0,.enrollEnd 0 true 0 (List.replicate 64 97) 0 {} {},.approve sampleName,
    .approveProof 0 true {},.approveCommit 0 1 { stores := [stored] }]

def sampleServers : List PrincipalEntry := [{ name := ascii "farm", kind := .farm, argon2id := ascii "h" }]

end JuiceMount.Manager
