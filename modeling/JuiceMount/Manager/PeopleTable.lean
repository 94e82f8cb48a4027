import JuiceMount.Manager.Approved
import JuiceMount.Manager.Access
import JuiceMount.Manager.GrantPaths

/-! People in memory, in the store file and in the proxy's table. A people operation writes the table
first and the store file last; the table is made of what memory holds, and the proxy reads it back
as it is. -/
namespace JuiceMount.Manager
open Transition List Keyed Mac World
open RespProxy (Bytes ascii)

/-! ### People that the proxy accepts -/

structure PersonOk (p : Person) : Prop where
  id : RespProxy.personIDOk p.id=true
  name : RespProxy.personNameOk p.name=true
  text : Utf8.coerce p.name=p.name
  clean : ∀ g∈p.grants, RespProxy.cleanGrantPath g = .ok g
  sorted : p.grants.Pairwise (· < ·)
  few : p.grants.length ≤ maxGrantsPerUser

structure PeopleOk (s : Store) : Prop where
  person : ∀ p∈s.people, PersonOk p
  count : s.people.length ≤ maxPeopleInStore

/-- The cut of a name to 128 bytes splits no rune. -/
def nameKept (t : Text) : Bool := Utf8.coerce (cleanText t 128) = cleanText t 128

def PeopleOp.kept : PeopleOp → Bool
  | .create random name _ => random.length=8 && nameKept name
  | .update _ (some name) _ => nameKept name
  | _ => true

/-- A view of the volume shows folder names of at most 255 bytes. -/
def Act.Viewed : Act → Prop
  | .people (.addGrant _ _ (some view)) _ _ => Bounded view
  | _ => True

lemma insertionSort_strict {l : List Text} {c : Text} (hl : l.Pairwise (· < ·)) (hc : c ∉ l) :
    ((l++[c]).insertionSort (· ≤ ·)).Pairwise (· < ·) := by
  have hnodup : (l++[c]).Nodup := by
    refine nodup_append.mpr ⟨hl.imp fun {a b} h => ?_,nodup_singleton c,fun a ha b hb => ?_⟩
    · rintro rfl
      exact List.lt_irrefl _ h
    · rw [mem_singleton.mp hb]
      rintro rfl
      exact hc ha
  have hsorted := pairwise_insertionSort (fun a b : Text => a≤b) (l++[c])
  have hne : ((l++[c]).insertionSort (· ≤ ·)).Nodup := (perm_insertionSort _ _).nodup_iff.mpr hnodup
  exact (hsorted.and hne).imp fun h => Std.lt_of_le_of_ne h.1 h.2

lemma length_put_le (l : List Person) (p : Person) : (Keyed.put Person.id l p).length≤l.length+1 := by
  unfold Keyed.put
  split
  · rw [length_map]
    omega
  · rw [length_append,length_singleton]

variable {p : Person}

lemma length_put {l : List Person} {q : Person} (hp : p∈l) (hid : q.id=p.id) :
    (Keyed.put Person.id l q).length=l.length := by
  unfold Keyed.put
  rw [if_pos (by simp only [List.any_eq_true]; exact ⟨p,hp,by simp [hid]⟩),length_map]

variable {s s' : Store}

lemma PeopleOk.put (h : PeopleOk s) {q : Person} (hp : p∈s.people) (hq : PersonOk q) (hid : q.id=p.id)
    (hpeople : s'.people=(s.putPerson q).people) : PeopleOk s' := by
  refine ⟨fun x hx => ?_,?_⟩
  · rw [hpeople] at hx
    rcases mem_put.mp hx with rfl | ⟨hx,-⟩
    · exact hq
    · exact h.person x hx
  · rw [hpeople]
    exact (length_put hp hid).trans_le h.count

lemma PersonOk.withGrants (h : PersonOk p) (access : Access) {grants : List Text}
    (hclean : ∀ g∈grants, RespProxy.cleanGrantPath g=.ok g) (hsorted : grants.Pairwise (· < ·))
    (hfew : grants.length ≤ maxGrantsPerUser) : PersonOk {p with access := access, grants := grants} :=
  ⟨h.id,h.name,h.text,hclean,hsorted,hfew⟩

lemma PeopleOk.change {cfg : Config} {op : PeopleOp} (hlaws : FormLaws cfg) (h : PeopleOk s)
    (hkept : op.kept=true) (hviewed : ∀ id path view, op=.addGrant id path (some view) → Bounded view)
    (hs : s.change cfg op=some s') : PeopleOk s' := by
  cases op with
  | create random name now =>
    obtain ⟨-,hroom,rfl⟩ := createPerson_some hs
    obtain ⟨hlen,hname⟩ := Bool.and_eq_true_iff.mp hkept
    refine ⟨fun x hx => ?_,(length_put_le _ _).trans hroom⟩
    rcases mem_put.mp hx with rfl | ⟨hx,-⟩
    · exact ⟨newPersonID_ok (of_decide_eq_true hlen),cleanText_nameOk name,of_decide_eq_true hname,fun _ hg => (by cases hg),
        List.Pairwise.nil,Nat.zero_le _⟩
    · exact h.person x hx
  | update id name access =>
    obtain ⟨p,q,hp,hren,hcases⟩ := updatePerson_some hs
    have hmem := find_mem hp
    have hpok := h.person p hmem
    have hq : PersonOk q := by
      have hnames : RespProxy.personNameOk q.name=true ∧ Utf8.coerce q.name=q.name := by
        rw [hren.name]
        cases name with
        | none => exact ⟨hpok.name,hpok.text⟩
        | some t => exact ⟨cleanText_nameOk t,of_decide_eq_true hkept⟩
      have hgrants : q.grants=p.grants := by rw [hren.rest]
      refine ⟨by rw [hren.rest]; exact hpok.id,hnames.1,hnames.2,?_,?_,?_⟩
      · rw [hgrants]
        exact hpok.clean
      · rw [hgrants]
        exact hpok.sorted
      · rw [hgrants]
        exact hpok.few
    have hid : q.id=p.id := by rw [hren.rest]
    rcases hcases with ⟨-,-,rfl⟩ | ⟨a,-,-,rfl⟩
    · exact h.put hmem hq hid rfl
    · exact h.put hmem hq hid rfl
  | restrict on =>
    cases hs
    exact ⟨h.person,h.count⟩
  | delete id =>
    obtain ⟨-,rfl⟩ := deletePerson_some hs
    refine ⟨fun x hx => h.person x (mem_drop.mp hx).1,?_⟩
    exact (length_filter_le _ _).trans h.count
  | assign device person =>
    obtain ⟨r,-,-,rfl⟩ := assignDevice_some hs
    exact ⟨h.person,h.count⟩
  | addGrant id path view =>
    rcases addGrant_some hs with rfl | ⟨c,p,hc,hp,hnew,hroom,rfl⟩
    · exact h
    have hmem := find_mem hp
    have hpok := h.person p hmem
    have hclean : RespProxy.cleanGrantPath c=.ok c :=
      grantForm_clean hlaws (fun v hv => hviewed id path v (by rw [hv])) hc
    refine h.put hmem (hpok.withGrants .granted (fun g hg => ?_) (insertionSort_strict hpok.sorted hnew) ?_) rfl rfl
    · rw [mem_insertionSort,mem_append,mem_singleton] at hg
      rcases hg with hg | rfl
      · exact hpok.clean g hg
      · exact hclean
    · rw [length_insertionSort,length_append]
      exact hroom
  | removeGrant id path =>
    obtain ⟨g,p,hp,rfl⟩ := removeGrant_some hs
    have hmem := find_mem hp
    have hpok := h.person p hmem
    have hgrants := hpok.withGrants p.access (fun x hx => hpok.clean x (mem_filter.mp hx).1)
      (hpok.sorted.filter fun x => x≠g) ((length_filter_le _ _).trans hpok.few)
    exact h.put hmem hgrants rfl rfl

/-! ### The table is made of memory -/

lemma approved_cores_sorted (s : Store) : s.approved.map core =
    ((s.recs.filter fun r => r.status=.approved).map core).insertionSort fun a b => a.1.name≤b.1.name :=
  map_insertionSort _ _ core _ fun _ _ _ _ => Iff.rfl

lemma approved_of_cores (h : s'.recs.map core=s.recs.map core) : s'.approved.map core=s.approved.map core := by
  rw [approved_cores_sorted,approved_cores_sorted,approved_cores,approved_cores,h]

/-- The table depends on the approved Macs, the people and the restriction only. -/
theorem renderPrincipals_congr (hrecs : s'.approved.map core=s.approved.map core)
    (hpeople : s'.people=s.people) (hrestrict : s'.restrictUnassigned=s.restrictUnassigned) (format : ℕ)
    (servers : List PrincipalEntry) : renderPrincipals s' format servers=renderPrincipals s format servers := by
  have hcreds : s'.approved.map cred=s.approved.map cred := creds_of_cores hrecs
  have hdevices : ∀ (l : List Mac) (id : Bytes), (l.filter fun r => r.person≠[] && r.person=id).map name =
      ((l.map core).filter fun c => c.1.person≠[] && c.1.person=id).map fun c => c.1.name := by
    intro l id
    rw [filter_map,map_map]
    rfl
  have hentry : Person.entry s'=Person.entry s := by
    funext p
    unfold Person.entry
    rw [hdevices,hdevices,hrecs]
  have hwants : s'.wantsPeople=s.wantsPeople := by
    unfold Store.wantsPeople
    rw [hpeople,hrestrict]
  unfold renderPrincipals
  rw [(approved_entries hcreds).1,hwants,hrestrict,hentry,Store.sortedPeople,Store.sortedPeople,hpeople]

theorem renderPrincipals_format {format : ℕ} (h : s.wantsPeople=true → 2≤format)
    (servers : List PrincipalEntry) : renderPrincipals s format servers=renderPrincipals s 2 servers := by
  cases hwants : s.wantsPeople with
  | false => simp [renderPrincipals,hwants]
  | true => simp [renderPrincipals,hwants,h hwants]

lemma serverEntries_render {servers : List PrincipalEntry} (hservers : ∀ e∈servers, e.kind≠.mac) (s : Store) (format : ℕ) :
    serverEntries (some (renderPrincipals s format servers))=servers := by
  change (servers++s.approved.map entry).filter (fun e => e.kind≠.mac)=servers
  have hmacs : (s.approved.map entry).filter (fun e => e.kind≠.mac)=[] := by
    refine filter_eq_nil_iff.mpr fun e he => ?_
    obtain ⟨r,-,rfl⟩ := mem_map.mp he
    simp [entry]
  rw [filter_append,hmacs,append_nil]
  exact filter_eq_self.mpr fun e he => by simpa using hservers e he

/-- The table on disk is the one of memory, in format 2. -/
def Tabled (servers : List PrincipalEntry) (w : World) : Prop := w.files.table = some (renderPrincipals w.mem 2 servers)

lemma rendered_eq {servers : List PrincipalEntry} (hservers : ∀ e∈servers, e.kind≠.mac) {f : Files} {io : Io} {s s₀ : Store}
    (hbeat : io.heartbeat.any (2 ≤ ·)=true) (htable : f.table=some (renderPrincipals s₀ 2 servers)) :
    f.rendered io s=renderPrincipals s 2 servers := by
  unfold Files.rendered
  rw [htable,serverEntries_render hservers]
  refine renderPrincipals_format (fun hwants => ?_) servers
  obtain ⟨n,hn,htwo⟩ := (Option.any_eq_true _ _).mp hbeat
  unfold Files.proxyFormat
  rw [if_pos hwants,hn]
  exact of_decide_eq_true htwo

/-- What a step must meet: the proxy advertises format 2, whatever rewrites the table is written wholly,
and names are kept. -/
def Act.kept (w : World) (a : Act) : Bool :=
  a.io.heartbeat.any (2 ≤ ·) && Whole w a && match a with
    | .people op _ io => io.whole w.mem && op.kept
    | _ => true

section
variable {cfg : Config} {servers : List PrincipalEntry} {w w' : World} {a : Act}

lemma Tabled.quiet (h : Tabled servers w) (hquiet : Quiet w.mem w'.mem) (htable : w'.files.table=w.files.table) :
    Tabled servers w' := by
  unfold Tabled
  rw [htable,h,renderPrincipals_congr (approved_of_cores hquiet.recs) hquiet.people hquiet.restrict]

lemma Tabled.committed (hservers : ∀ e∈servers, e.kind≠.mac) (h : Tabled servers w) {io : Io} {s : Store}
    (hobjk : s.objk=w.mem.objk) (hbeat : io.heartbeat.any (2 ≤ ·)=true) (hwhole : io.whole w.mem=true)
    (hmem : w'.mem=if (commit io true s w.files).2 then s else w.mem) (hfiles : w'.files=(commit io true s w.files).1) :
    Tabled servers w' := by
  unfold Tabled
  rcases commit_cases hobjk hwhole w.files with ⟨hok,htable,-⟩ | ⟨hok,htable,-⟩
  · rw [if_pos hok] at hmem
    rw [hfiles,htable,hmem,rendered_eq hservers hbeat h]
  · rw [if_neg (by rw [hok]; exact Bool.false_ne_true)] at hmem
    rw [hfiles,htable,hmem]
    exact h

lemma Tabled.step (hservers : ∀ e∈servers, e.kind≠.mac) (h : Tabled servers w) (hstored : Stored cfg w)
    (hkept : a.kept w=true) (hstep : w.step cfg a=some w') : Tabled servers w' := by
  unfold Act.kept at hkept
  rw [Bool.and_eq_true,Bool.and_eq_true] at hkept
  obtain ⟨⟨hbeat,hwhole⟩,hpeople⟩ := hkept
  cases step_move hstored.names hstored.parsed hstep with
  | quiet a w' mem files | notEnrolled a m w' fresh mem files => exact h.quiet mem (by rw [files.rest])
  | reload a w' mem files =>
    unfold Tabled
    rw [files,mem]
    rcases writeProxyFiles_cases a.io w.mem w.files with ⟨-,htable,-⟩ | ⟨-,-,hsame | ⟨htable,-⟩⟩
    · rw [htable,rendered_eq hservers hbeat h]
    · rw [hsame]
      exact h
    · rw [htable,rendered_eq hservers hbeat h]
  | noticed a w' mem files => exact h.quiet (by rw [mem]; exact .refl _) (by rw [files])
  | decide a s changed w' rewrites decided mem files =>
    cases changed with
    | true =>
      have hio : a.io.whole w.mem=true := by simpa [Whole,rewrites rfl] using hwhole
      exact h.committed hservers decided.objk hbeat hio mem files
    | false =>
      have htable : w'.files.table=w.files.table := by
        rw [files]
        exact (saveStore_rest a.io 0 s w.files).1
      have hrender : renderPrincipals w'.mem 2 servers=renderPrincipals w.mem 2 servers := by
        rw [mem]
        split
        · refine renderPrincipals_congr ?_ decided.people decided.restrict 2 servers
          rw [approved_cores_sorted,approved_cores_sorted,decided.same rfl]
        · rfl
      unfold Tabled
      rw [htable,hrender]
      exact h
  | enrolled a m w' s fresh mem saved files =>
    have hcores : w'.mem.approved.map core=w.mem.approved.map core := by
      rw [approved_cores_sorted,approved_cores_sorted,approved_cores,approved_cores,mem.recs,filter_append,
        filter_cons_of_neg (by simp [core,ident,fresh.status]),filter_nil,append_nil]
    unfold Tabled
    rw [files,renderPrincipals_congr hcores mem.people mem.restrict]
    exact h
  | people op scope io =>
    rcases changePeople_cases io op scope with hsame | ⟨s,hs,hcommit⟩
    · rw [hsame]
      exact h
    · rw [hcommit]
      exact h.committed hservers (change_changed hstored.names hstored.named hs).objk hbeat (Bool.and_eq_true_iff.mp hpeople).1 rfl rfl
  | restart io io' k now perMac adopt gens w' starts =>
    obtain ⟨s,-,hwritten,hkeys,hfiles,-⟩ := restart_some starts
    have htable : (adoptSave io adopt s (reopened w.files)).1.table=some (renderPrincipals w.mem 2 servers) := by
      unfold adoptSave
      split
      · rw [(saveStore_rest io 0 s _).1]
        exact h
      · exact h
    generalize (adoptSave io adopt s (reopened w.files)).1=f at hwritten hfiles htable
    have htabled : Tabled servers {mem := s, files := (writeProxyFiles io s f).1} := by
      rcases writeProxyFiles_cases io s f with ⟨-,hrendered,-⟩ | ⟨hfailed,-⟩
      · exact hrendered.trans (congrArg some (rendered_eq hservers hbeat htable))
      · rw [hwritten] at hfailed
        cases hfailed
    exact htabled.quiet (.ofKeys hkeys) (by rw [hfiles.rest])

end

/-! ### Records the proxy accepts -/

structure IdentOk (cfg : Config) (i : Ident) : Prop where
  hash : cfg.parseArgon2id i.argon2id=true
  name : MacName i.name

/-- Every record in memory or on file came from an enrolment. -/
structure RecordsOk (cfg : Config) (w : World) : Prop where
  mem : ∀ i ∈ w.mem.recs.map Mac.ident, IdentOk cfg i
  file : ∀ i ∈ w.files.store.recs.map Mac.ident, IdentOk cfg i

section
variable {cfg : Config} {w w' : World} {a : Act} {s : Store}

lemma IdentOk.congr {r r' : Mac} (h : IdentOk cfg r.ident) (hname : r'.name=r.name) (hargon : r'.argon2id=r.argon2id) :
    IdentOk cfg r'.ident :=
  ⟨(congrArg cfg.parseArgon2id hargon).trans h.hash,(congrArg MacName hname).mpr h.name⟩

lemma FreshMac.identOk (hhash : ∀ salt secret, cfg.parseArgon2id (cfg.hashSecret salt secret)=true) {m : Mac}
    (h : FreshMac cfg s m) : IdentOk cfg m.ident := by
  obtain ⟨salt,secret,hargon⟩ := h.hashed
  obtain ⟨id,hid,hname⟩ := h.named
  exact ⟨(congrArg cfg.parseArgon2id hargon).trans (hhash salt secret),
    (congrArg MacName hname).mpr (macPrincipalName_macName hid)⟩

lemma identOk_toFile (h : ∀ i∈s.recs.map ident, IdentOk cfg i) (kept : ObjKeys) :
    ∀ i∈(s.toFile kept).recs.map ident, IdentOk cfg i := fun i hi => h i ((toFile_idents s kept).mem_iff.mp hi)

lemma Joined.identOk {s' : Store} {m : Mac} (h : Joined s s' m) (hs : ∀ i∈s.recs.map ident, IdentOk cfg i)
    (hm : IdentOk cfg m.ident) : ∀ i∈s'.recs.map ident, IdentOk cfg i := by
  intro i hi
  rw [h.idents,mem_append,mem_singleton] at hi
  rcases hi with hi | rfl
  · exact hs i hi
  · exact hm

lemma RecordsOk.committed (h : RecordsOk cfg w) {io : Io} {changed : Bool}
    (hs : ∀ i∈s.recs.map ident, IdentOk cfg i) (hmem : w'.mem=if (commit io changed s w.files).2 then s else w.mem)
    (hfiles : w'.files=(commit io changed s w.files).1) : RecordsOk cfg w' := by
  refine ⟨?_,?_⟩
  · rw [hmem]
    split
    · exact hs
    · exact h.mem
  · rw [hfiles,commit_store]
    split
    · exact identOk_toFile hs _
    · exact h.file

lemma RecordsOk.savedAs {P : Store → Prop} (h : RecordsOk cfg w) (hmem : Quiet w.mem w'.mem)
    (hP : ∀ s, P s → ∀ i∈s.recs.map ident, IdentOk cfg i) (hfiles : SavedAs P w.files w'.files) : RecordsOk cfg w' := by
  refine ⟨by rw [hmem.idents]; exact h.mem,?_⟩
  rcases hfiles.store with hsame | ⟨s,hs,hstore⟩
  · rw [hsame]
    exact h.file
  · rw [hstore]
    exact identOk_toFile (hP s hs) _

lemma RecordsOk.step (hhash : ∀ salt secret, cfg.parseArgon2id (cfg.hashSecret salt secret)=true) (h : RecordsOk cfg w)
    (hstored : Stored cfg w) (hstep : w.step cfg a=some w') : RecordsOk cfg w' := by
  have hquiet : ∀ s, Quiet w.mem s → ∀ i∈s.recs.map ident, IdentOk cfg i := fun s hs => by
    rw [hs.idents]
    exact h.mem
  cases step_move hstored.names hstored.parsed hstep with
  | quiet a w' mem files => exact h.savedAs mem hquiet files
  | reload a w' mem files =>
    refine ⟨by rw [mem]; exact h.mem,?_⟩
    rw [files,(writeProxyFiles_store a.io w.mem w.files).1]
    exact h.file
  | noticed a w' mem files => exact ⟨by rw [mem]; exact h.mem,by rw [files]; exact h.file⟩
  | decide a s changed w' rewrites decided mem files =>
    refine h.committed (fun i hi => ?_) mem files
    obtain ⟨r',hr',rfl⟩ := mem_map.mp hi
    obtain ⟨r,hr,hname,hargon,-⟩ := decided.origin r' hr'
    exact (h.mem r.ident (mem_map_of_mem hr)).congr hname hargon
  | enrolled a m w' s fresh mem saved files =>
    have hm := fresh.identOk hhash
    refine ⟨mem.identOk h.mem hm,?_⟩
    rw [files]
    exact identOk_toFile (saved.identOk h.mem hm) _
  | notEnrolled a m w' fresh mem files =>
    refine h.savedAs mem (fun s hs => ?_) files
    rcases hs with hs | hs
    · exact hquiet s hs
    · exact hs.identOk h.mem (fresh.identOk hhash)
  | people op scope io =>
    rcases changePeople_cases io op scope with hsame | ⟨s,hs,hcommit⟩
    · rw [hsame]
      exact h
    rw [hcommit]
    refine RecordsOk.committed h (fun i hi => ?_) rfl rfl
    obtain ⟨r',hr',rfl⟩ := mem_map.mp hi
    have hmem := mem_map_of_mem (f := cred) hr'
    rw [(change_changed hstored.names hstored.named hs).creds] at hmem
    obtain ⟨r,hr,hcred⟩ := mem_map.mp hmem
    exact (h.mem r.ident (mem_map_of_mem hr)).congr (congrArg Cred.name hcred).symm (congrArg Cred.argon2id hcred).symm
  | restart io io' k now perMac adopt gens w' starts =>
    obtain ⟨s,hload,-,hkeys,hfiles,-⟩ := restart_some starts
    have hs : ∀ i∈s.recs.map ident, IdentOk cfg i := by
      rw [idents_of_cores (load_some hstored.fileAssigned hload).1]
      exact h.file
    have hsaved : ∀ i∈(adoptSave io adopt s (reopened w.files)).1.store.recs.map ident, IdentOk cfg i := by
      unfold adoptSave
      split
      · rw [saveStore_store]
        split
        · exact identOk_toFile hs _
        · exact h.file
      · exact h.file
    rw [← (writeProxyFiles_store io s _).1] at hsaved
    have hloaded : RecordsOk cfg {mem := s, files := (writeProxyFiles io s
        (adoptSave io adopt s (reopened w.files)).1).1} := ⟨hs,hsaved⟩
    refine hloaded.savedAs (.ofKeys hkeys) (fun t ht => ?_) (SavedAs.ofKeys hfiles)
    rw [ht.idents]
    exact hs

end

/-! ### The proxy's reading -/

/-- Server entries that the proxy accepts, and that cannot be taken for a Mac. -/
structure ServersOk (cfg : Config) (servers : List PrincipalEntry) : Prop where
  entry : ∀ e∈servers, RespProxy.EntryOk cfg.parseArgon2id e
  kind : ∀ e∈servers, e.kind≠.mac
  name : ∀ e∈servers, ¬MacName e.name
  nodup : (servers.map PrincipalEntry.name).Nodup

section
variable {cfg : Config} {servers : List PrincipalEntry} {w : World}

lemma approved_names (h : Stored cfg w) : (w.mem.approved.map name).Nodup := by
  have hperm := perm_insertionSort (fun a b : Mac => a.name≤b.name) (w.mem.recs.filter fun r => r.status=.approved)
  exact (hperm.map name).nodup_iff.mpr (h.names.sublist (filter_sublist.map _))

lemma sortedPeople_ids (h : Stored cfg w) : (w.mem.sortedPeople.map Person.id).Nodup :=
  ((perm_insertionSort (fun a b : Person => a.id≤b.id) w.mem.people).map Person.id).nodup_iff.mpr h.ids

theorem devices_nodup (h : Stored cfg w) :
    ((w.mem.sortedPeople.map (Person.entry w.mem)).flatMap PersonEntry.devices).Nodup := by
  rw [flatMap_map,nodup_flatMap]
  refine ⟨fun p _ => ?_,?_⟩
  · exact (approved_names h).sublist (filter_sublist.map _)
  · have hids := sortedPeople_ids h
    rw [List.Nodup,pairwise_map] at hids
    refine hids.imp fun {p q} hne => ?_
    intro name hp hq
    obtain ⟨r,hr,-,-,hrp,hname⟩ := mem_devices.mp hp
    obtain ⟨r',hr',-,-,hrq,hname'⟩ := mem_devices.mp hq
    rw [eq_of_mem h.names hr' hr (hname'.trans hname.symm)] at hrq
    exact hne (hrp.symm.trans hrq)

lemma table_names (hservers : ServersOk cfg servers) (h : Stored cfg w) (hrecords : RecordsOk cfg w) :
    ((renderPrincipals w.mem 2 servers).principals.map PrincipalEntry.name).Nodup := by
  change ((servers++w.mem.approved.map entry).map PrincipalEntry.name).Nodup
  rw [map_append,map_map]
  refine nodup_append.mpr ⟨hservers.nodup,approved_names h,fun a ha b hb => ?_⟩
  obtain ⟨e,he,rfl⟩ := mem_map.mp ha
  obtain ⟨r,hr,rfl⟩ := mem_map.mp hb
  intro heq
  refine hservers.name e he ?_
  rw [heq]
  exact (hrecords.mem r.ident (mem_map_of_mem (mem_approved.mp hr).1)).name

lemma table_entries (hservers : ServersOk cfg servers) (hrecords : RecordsOk cfg w) :
    ∀ e∈(renderPrincipals w.mem 2 servers).principals, RespProxy.EntryOk cfg.parseArgon2id e := by
  intro e he
  rcases mem_append.mp he with he | he
  · exact hservers.entry e he
  · obtain ⟨r,hr,rfl⟩ := mem_map.mp he
    have hok := hrecords.mem r.ident (mem_map_of_mem (mem_approved.mp hr).1)
    exact ⟨hok.name.principalNameOk,rfl,hok.hash⟩

def Person.enforced (p : Person) : RespProxy.TablePerson := ⟨p.id,p.name,p.access=.granted,p.grants⟩

/-- The proxy accepts the table of memory and reads people, scopes and grants as they are stored. -/
theorem parsePrincipals_render (hservers : ServersOk cfg servers) (h : Stored cfg w) (hrecords : RecordsOk cfg w)
    (hpeople : PeopleOk w.mem) : ∃ ps, RespProxy.parsePrincipals cfg.parseArgon2id (renderPrincipals w.mem 2 servers)=.ok ps ∧
      ps.grantsInForce=w.mem.grantsInForce ∧
      ∀ r∈w.mem.recs, r.status=.approved → ps.personOf r.name=(w.mem.person r.person).map Person.enforced := by
  obtain ⟨hentries,hrestrict⟩ := renderPrincipals_people w.mem servers
  have hmem : ∀ p∈w.mem.sortedPeople, PersonOk p := fun p hp => hpeople.person p ((mem_insertionSort _).mp hp)
  have hversion : (renderPrincipals w.mem 2 servers).version≤RespProxy.principalsFormat := by
    change (if _ then 2 else 0)≤2
    split <;> decide
  have hold : (renderPrincipals w.mem 2 servers).version<2 → (renderPrincipals w.mem 2 servers).people=[] ∧
      (renderPrincipals w.mem 2 servers).restrictUnassigned=false := by
    cases hwants : w.mem.wantsPeople <;> simp [renderPrincipals,hwants]
  obtain ⟨ps,hps,hforce,hpersons⟩ := RespProxy.parsePrincipals_ok hversion hold (table_entries hservers hrecords)
    (table_names hservers h hrecords)
    (by
      rw [hentries,length_map,Store.sortedPeople,length_insertionSort]
      exact hpeople.count.trans (by decide))
    (by
      intro kinds hkinds pe hpe
      have hdevices := hkinds pe hpe
      rw [hentries] at hpe
      obtain ⟨p,hp,rfl⟩ := mem_map.mp hpe
      have hok := hmem p hp
      refine ⟨hok.id,?_,hok.few.trans (by decide),hok.clean,hok.sorted,hdevices⟩
      change RespProxy.personNameOk (Utf8.coerce p.name)=true
      rw [hok.text]
      exact hok.name)
    (by
      intro pe hpe d hd e he hname
      rw [hentries] at hpe
      obtain ⟨p,hp,rfl⟩ := mem_map.mp hpe
      obtain ⟨r,hr,-,-,-,hrd⟩ := mem_devices.mp hd
      rcases mem_append.mp he with he | he
      · refine absurd ?_ (hservers.name e he)
        rw [hname,← hrd]
        exact (hrecords.mem r.ident (mem_map_of_mem hr)).name
      · obtain ⟨r',-,rfl⟩ := mem_map.mp he
        rfl)
    (by
      rw [hentries,map_map]
      exact sortedPeople_ids h)
    (by
      rw [hentries]
      exact devices_nodup h)
  refine ⟨ps,hps,hforce.trans (renderPrincipals_grantsInForce w.mem servers),fun r hr hstatus => ?_⟩
  have hfound : (renderPrincipals w.mem 2 servers).personOf r.name=_ := personOf_render h hr hstatus
  unfold PrincipalsFile.personOf at hfound
  rw [hpersons r.name,hfound,Option.map_map]
  refine Option.map_congr fun p hp => ?_
  have hok := hpeople.person p (find_mem hp)
  change RespProxy.TablePerson.mk p.id (Utf8.coerce p.name) _ _ = _
  rw [hok.text]
  rfl

end

/-! ### Runs -/

/-- The laws of the functions the Manager is built on. -/
structure Laws (cfg : Config) : Prop extends FormLaws cfg where
  hash : ∀ salt secret, cfg.parseArgon2id (cfg.hashSecret salt secret)=true

/-- Memory, the store file and the table describe the same people, and the proxy enforces them. -/
structure PeopleAgree (cfg : Config) (servers : List PrincipalEntry) (w : World) : Prop where
  people : w.files.store.people=w.mem.sortedPeople
  restrict : w.files.store.restrictUnassigned=w.mem.restrictUnassigned
  assigned : ∀ name person, person≠[] → ((∃ r∈w.files.store.recs, r.name=name ∧ r.person=person) ↔
    ∃ r∈w.mem.recs, r.name=name ∧ r.person=person)
  table : w.files.table = some (renderPrincipals w.mem 2 servers)
  enforced : ∃ ps, RespProxy.parsePrincipals cfg.parseArgon2id (renderPrincipals w.mem 2 servers) = .ok ps ∧
    ps.grantsInForce=w.mem.grantsInForce ∧
    ∀ r∈w.mem.recs, r.status=.approved → ps.personOf r.name = (w.mem.person r.person).map Person.enforced

def FailsClean (cfg : Config) (w : World) (a : Act) : Prop :=
  ∀ op scope io, a = .people op scope io → (w.changePeople cfg io op scope).2=false →
    (w.changePeople cfg io op scope).1.mem=w.mem ∧ (w.changePeople cfg io op scope).1.files.store=w.files.store ∧
      (w.changePeople cfg io op scope).1.files.table=w.files.table

/-- The invariant of these runs. -/
structure PeopleInv (cfg : Config) (servers : List PrincipalEntry) (w : World) : Prop where
  stored : Stored cfg w
  records : RecordsOk cfg w
  people : PeopleOk w.mem
  tabled : Tabled servers w

section
variable {cfg : Config} {servers : List PrincipalEntry} {w w' : World} {a : Act}

lemma stored_people (h : Stored cfg w) (hok : PeopleOk w.mem) : w.files.store.people=w.mem.sortedPeople := by
  rw [h.onFile.people]
  refine (map_congr_left fun p hp => ?_).trans (map_id _)
  have htext := (hok.person p ((mem_insertionSort _).mp hp)).text
  unfold Person.stored
  rw [htext]
  rfl

lemma PeopleOk.congr {s s' : Store} (h : PeopleOk s) (hpeople : s'.people=s.people) : PeopleOk s' := by
  refine ⟨?_,?_⟩
  · rw [hpeople]
    exact h.person
  · rw [hpeople]
    exact h.count

lemma PeopleOk.step (hlaws : FormLaws cfg) (h : PeopleOk w.mem) (hstored : Stored cfg w) (hkept : a.kept w=true)
    (hviewed : a.Viewed) (hstep : w.step cfg a=some w') : PeopleOk w'.mem := by
  cases step_move hstored.names hstored.parsed hstep with
  | quiet a w' mem files | enrolled a m w' s fresh mem saved files | notEnrolled a m w' fresh mem files =>
    exact h.congr mem.people
  | reload a w' mem files | noticed a w' mem files => exact h.congr (by rw [mem])
  | decide a s changed w' rewrites decided mem files =>
    rw [mem]
    split
    · exact h.congr decided.people
    · exact h
  | people op scope io =>
    rcases changePeople_cases io op scope with hsame | ⟨s,hs,hcommit⟩
    · rw [hsame]
      exact h
    have hop : op.kept=true := by
      unfold Act.kept at hkept
      rw [Bool.and_eq_true] at hkept
      exact (Bool.and_eq_true_iff.mp hkept.2).2
    have hok : PeopleOk s := by
      refine h.change hlaws hop (fun id path view hview => ?_) hs
      subst hview
      exact hviewed
    rw [hcommit]
    rcases commitAs_mem io true s with hmem | hmem
    · rw [hmem]
      exact hok
    · rw [hmem]
      exact h
  | restart io io' k now perMac adopt gens w' starts =>
    have hpeople : w'.mem.people=w.mem.sortedPeople := (hstored.reloaded starts).2.1.trans (stored_people hstored h)
    refine ⟨fun p hp => ?_,?_⟩
    · rw [hpeople] at hp
      exact h.person p ((mem_insertionSort _).mp hp)
    · rw [hpeople,Store.sortedPeople,length_insertionSort]
      exact h.count

lemma PeopleInv.step (hlaws : Laws cfg) (hservers : ServersOk cfg servers) (h : PeopleInv cfg servers w)
    (hkept : a.kept w=true ∧ a.Viewed) (hstep : w.step cfg a=some w') : PeopleInv cfg servers w' where
  stored := h.stored.step hstep
  records := h.records.step hlaws.hash h.stored hstep
  people := h.people.step hlaws.toFormLaws h.stored hkept.1 hkept.2 hstep
  tabled := h.tabled.step hservers.kind h.stored hkept.1 hstep

lemma PeopleInv.installed (cfg : Config) (servers : List PrincipalEntry) : PeopleInv cfg servers (installed servers) where
  stored := installed_stored cfg servers
  records := ⟨fun _ hi => (by cases hi),fun _ hi => (by cases hi)⟩
  people := ⟨fun _ hp => (by cases hp),Nat.zero_le _⟩
  tabled := by
    change some _ = some _
    simp [renderPrincipals,Manager.installed,Store.wantsPeople,Store.approved]

lemma PeopleInv.agree (hservers : ServersOk cfg servers) (h : PeopleInv cfg servers w) : PeopleAgree cfg servers w where
  people := stored_people h.stored h.people
  restrict := h.stored.onFile.restrict
  assigned := by
    intro name person hne
    constructor
    · rintro ⟨r,hr,rfl,rfl⟩
      rcases h.stored.onFile.extra r.ident (mem_map_of_mem hr) with hmem | ⟨-,hperson⟩
      · obtain ⟨x,hx,hident⟩ := mem_of_ident hmem
        exact ⟨x,hx,congrArg Ident.name hident,congrArg Ident.person hident⟩
      · exact absurd hperson hne
    · rintro ⟨r,hr,rfl,rfl⟩
      obtain ⟨x,hx,hident⟩ := mem_of_ident (h.stored.onFile.kept r.ident (mem_map_of_mem hr))
      exact ⟨x,hx,congrArg Ident.name hident,congrArg Ident.person hident⟩
  table := h.tabled
  enforced := parsePrincipals_render hservers h.stored h.records h.people

lemma PeopleInv.failsClean (h : PeopleInv cfg servers w) (hkept : a.kept w=true) : FailsClean cfg w a := by
  rintro op scope io rfl hfailed
  rcases changePeople_cases io op scope with hsame | ⟨s,hs,hcommit⟩
  · rw [hsame]
    exact ⟨rfl,rfl,rfl⟩
  rw [hcommit] at hfailed ⊢
  have hwhole : io.whole w.mem=true := by
    unfold Act.kept at hkept
    rw [Bool.and_eq_true] at hkept
    exact (Bool.and_eq_true_iff.mp hkept.2).1
  have hno : (commit io true s w.files).2=false := hfailed
  refine ⟨?_,?_,?_⟩
  · change (if (commit io true s w.files).2 then s else w.mem)=w.mem
    rw [hno]
    rfl
  · change (commit io true s w.files).1.store=w.files.store
    rw [commit_store,hno]
    rfl
  · rcases commit_cases (change_changed h.stored.names h.stored.named hs).objk hwhole w.files with ⟨hok,-⟩ | ⟨-,htable,-⟩
    · rw [hno] at hok
      cases hok
    · exact htable

/-- In every run from a fresh installation with valid server entries whose steps are kept, memory, the
store file and the table describe the same people after every step, a people operation that fails
changes nothing, and the proxy accepts the table and enforces what the store says. -/
theorem people_all_or_nothing (hlaws : Laws cfg) (hservers : ServersOk cfg servers) {acts : List Act}
    (hkept : AllSteps (World.step cfg) (fun w a => a.kept w = true ∧ a.Viewed) (installed servers) acts) {w : World}
    (hrun : run (World.step cfg) (installed servers) acts = some w) :
    PeopleAgree cfg servers w ∧ AllSteps (World.step cfg) (FailsClean cfg) (installed servers) acts := by
  have hstep : ∀ w a w', PeopleInv cfg servers w → (a.kept w=true ∧ a.Viewed) → w.step cfg a=some w' →
      PeopleInv cfg servers w' := fun _ _ _ h hk hs => h.step hlaws hservers hk hs
  have hinv := run_invariant_of_allSteps hstep (PeopleInv.installed cfg servers) hkept hrun
  refine ⟨hinv.agree hservers,?_⟩
  exact hkept.of_invariant hstep (fun _ _ h hk => h.failsClean hk.1) (PeopleInv.installed cfg servers)

end

def unsavedPerson : Act := .people (.create [1,2,3,4,5,6,7,8] ['p'] 0) true { stores := [false] }

/-- A name whose 128th byte is the first of a rune of two. -/
def splitName : Text := List.replicate 127 'a'++['é']

/-- The failed operation is in the table and nowhere else; and a name that is cut inside a rune differs
between memory and the files. -/
theorem unsaved_person_listed :
    (∃ w w', run (World.step plainConfig) (installed sampleServers) (approvalActs true) = some w ∧
      w.step plainConfig unsavedPerson = some w' ∧ w'.mem = w.mem ∧ w'.files.store = w.files.store ∧
      ¬FailsClean plainConfig w unsavedPerson ∧ ¬PeopleAgree plainConfig sampleServers w') ∧
    ∃ w, run (World.step plainConfig) (installed sampleServers)
      [.people (.create [1,2,3,4,5,6,7,8] splitName 0) true {}] = some w ∧ ¬PeopleAgree plainConfig sampleServers w := by
  constructor
  · have hrun : (run (step plainConfig) (installed sampleServers) (approvalActs true)).any (fun w =>
        w.files.table.any (fun t => t.people=[]) &&
        match w.changePeople plainConfig { stores := [false] } (.create [1,2,3,4,5,6,7,8] ['p'] 0) true with
        | (w',ok) => !ok && w'.mem=w.mem && w'.files.store=w.files.store && w'.mem.people=[] &&
            w'.files.table.any (fun t => t.people≠[]))=true := by decide +kernel
    obtain ⟨w,hw,hafter⟩ := (Option.any_eq_true _ _).mp hrun
    simp only [Bool.and_eq_true,decide_eq_true_eq,Bool.not_eq_true'] at hafter
    obtain ⟨hbefore,⟨⟨⟨hfailed,hmem⟩,hstore⟩,hnone⟩,hlisted⟩ := hafter
    obtain ⟨t,ht,htpeople⟩ := (Option.any_eq_true _ _).mp hbefore
    obtain ⟨t',ht',htpeople'⟩ := (Option.any_eq_true _ _).mp hlisted
    refine ⟨w,_,hw,rfl,hmem,hstore,fun hclean => ?_,fun hagree => ?_⟩
    · have hsame := (hclean _ _ _ rfl hfailed).2.2
      rw [ht,ht'] at hsame
      cases hsame
      exact of_decide_eq_true htpeople' (of_decide_eq_true htpeople)
    · have htable := hagree.table
      change (w.changePeople plainConfig _ _ true).1.files.table=_ at htable
      rw [ht'] at htable
      have hpeople := (renderPrincipals_people (w.changePeople plainConfig { stores := [false] }
        (.create [1,2,3,4,5,6,7,8] ['p'] 0) true).1.mem sampleServers).1
      rw [Store.sortedPeople,hnone] at hpeople
      exact of_decide_eq_true htpeople' ((congrArg PrincipalsFile.people (Option.some.inj htable)).trans hpeople)
  · have hrun : (run (step plainConfig) (installed sampleServers)
        [.people (.create [1,2,3,4,5,6,7,8] splitName 0) true {}]).any (fun w =>
        !decide (w.files.store.people=w.mem.sortedPeople))=true := by decide +kernel
    obtain ⟨w,hw,hdiffer⟩ := (Option.any_eq_true _ _).mp hrun
    refine ⟨w,hw,fun hagree => ?_⟩
    simp [hagree.people] at hdiffer

lemma plainConfig_laws : Laws plainConfig := ⟨⟨fun _ h h' => ⟨h,h'⟩,fun _ h h' => ⟨h,h'⟩⟩,fun _ _ => rfl⟩

lemma sampleServers_ok : ServersOk plainConfig sampleServers := by
  refine ⟨fun e he => ?_,by decide,fun e he => ?_,by decide⟩
  · rw [mem_singleton.mp he]
    exact ⟨by decide,rfl,rfl⟩
  · rw [mem_singleton.mp he]
    rintro ⟨t,ht,-⟩
    have hhead : (ascii "farm").head? = some 109 := by
      rw [show ascii "farm" = ascii "mac-"++t from ht]
      rfl
    exact absurd hhead (by decide)

/-- A Mac of a person with two grants. -/
theorem people_all_or_nothing_grants : ∃ w, run (World.step plainConfig) (installed sampleServers) assignedActs = some w ∧
    w.mem.people.length = 1 ∧ PeopleAgree plainConfig sampleServers w := by
  have hrun : (run (step plainConfig) (installed sampleServers) assignedActs).any (fun w =>
      w.mem.people.length=1)=true := by decide +kernel
  obtain ⟨w,hw,hone⟩ := (Option.any_eq_true _ _).mp hrun
  refine ⟨w,hw,by simpa using hone,?_⟩
  have hchecked : AllSteps (step plainConfig) (fun w a => a.kept w=true) (installed sampleServers) assignedActs :=
    allSteps_of_check (by decide +kernel)
  have hviewed : AllSteps (step plainConfig) (fun _ a => a.Viewed) (installed sampleServers) assignedActs :=
    allSteps_of_forall fun a ha _ => by
      simp only [assignedActs,approvalActs,cons_append,nil_append,mem_cons,not_mem_nil,or_false] at ha
      rcases ha with rfl | rfl | rfl | rfl | rfl | rfl | rfl | rfl | rfl <;> trivial
  exact (people_all_or_nothing plainConfig_laws sampleServers_ok (hchecked.and hviewed) hw).1

end JuiceMount.Manager
