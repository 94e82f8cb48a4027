import JuiceMount.Manager.Stored

/-! The proxy's table and the rollback fragment against the approved records. A decision writes the
table and the fragment first and the store file last; if only the last write fails, memory takes the
decision back and the proxy's files keep it. -/
namespace JuiceMount.Manager
open Transition Mac List
open RespProxy (Bytes ascii)

def Files.macEntries (f : Files) : List PrincipalEntry := (f.table.getD {}).principals.filter fun e => e.kind=.mac

/-- The proxy's files hold the credentials of the approved Macs and no others, and the store file
has the same Macs approved as memory. -/
structure AcceptsApproved (w : World) : Prop where
  table : w.files.macEntries = w.mem.approved.map entry
  fragment : w.files.fragment = w.mem.approved.map aclLine
  stored : ∀ i : Ident, i.status=.approved → (i ∈ w.files.store.recs.map ident ↔ i ∈ w.mem.recs.map ident)

/-- When the proxy's files are written the store file is written too; when the fragment cannot be
written, the table is put back. -/
def Io.whole (s : Store) (io : Io) : Bool :=
  if !io.ready || !io.table then true else if io.fragment then (s.objk.isNone || io.gens) && io.store 0 else io.undo

def Whole (w : World) (a : Act) : Bool := !a.rewrites w.mem || a.io.whole w.mem

/-! ### Credentials -/

def Cred.entry (c : Cred) : PrincipalEntry := { name := c.name, kind := .mac, host := Utf8.coerce c.host, argon2id := c.argon2id }

def Cred.aclLine (c : Cred) : AclLine := ⟨c.name,c.redisSHA256⟩

lemma approved_creds (s : Store) : s.approved.map cred =
    ((s.recs.filter fun r => r.status=.approved).map cred).insertionSort fun a b => a.name≤b.name :=
  map_insertionSort _ _ cred _ fun _ _ _ _ => Iff.rfl

variable {s s' : Store}

lemma approved_entries (h : s'.approved.map cred=s.approved.map cred) :
    s'.approved.map entry=s.approved.map entry ∧ s'.approved.map aclLine=s.approved.map aclLine := by
  have hentry : ∀ l : List Mac, l.map entry=(l.map cred).map Cred.entry := fun l => by
    rw [map_map]
    rfl
  have hline : ∀ l : List Mac, l.map aclLine=(l.map cred).map Cred.aclLine := fun l => by
    rw [map_map]
    rfl
  rw [hentry,hentry,hline,hline,h]
  exact ⟨rfl,rfl⟩

theorem approved_of_creds (h : s'.recs.map cred=s.recs.map cred) : s'.approved.map cred=s.approved.map cred := by
  have hfilter : ∀ l : List Mac, (l.filter fun r => r.status=.approved).map cred =
      (l.map cred).filter fun c => c.status=.approved := fun l => by
    rw [filter_map]
    rfl
  rw [approved_creds,approved_creds,hfilter,hfilter,h]

lemma Decided.approved (h : Decided s s' false) : s'.approved.map cred=s.approved.map cred := by
  rw [approved_creds,approved_creds,creds_of_cores (h.same rfl)]

lemma Joined.approved {m : Mac} (h : Joined s s' m) (hm : m.status=.pending) :
    s'.approved.map cred=s.approved.map cred := by
  rw [approved_creds,approved_creds]
  refine congrArg _ (creds_of_cores ?_)
  rw [approved_cores,approved_cores,h.recs,filter_append,filter_cons_of_neg (by simp [core,ident,hm]),
    filter_nil,append_nil]

/-! ### The files -/

lemma renderPrincipals_macs (s : Store) (format : ℕ) (cur : Option PrincipalsFile) :
    (renderPrincipals s format (serverEntries cur)).principals.filter (fun e => e.kind=.mac)=s.approved.map entry := by
  have hservers : (serverEntries cur).filter (fun e => e.kind=.mac)=[] := by
    refine filter_eq_nil_iff.mpr fun e he => ?_
    simpa using (mem_filter.mp he).2
  have hmacs : (s.approved.map entry).filter (fun e => e.kind=.mac)=s.approved.map entry := by
    refine filter_eq_self.mpr fun e he => ?_
    obtain ⟨r,-,rfl⟩ := mem_map.mp he
    rfl
  change (serverEntries cur++s.approved.map entry).filter _ = _
  rw [filter_append,hservers,hmacs,nil_append]

def Files.rendered (f : Files) (io : Io) (s : Store) : PrincipalsFile :=
  renderPrincipals s (f.proxyFormat io s) (serverEntries f.table)

/-- A write of the proxy's files: both are written, or the fragment is as it was and the table too
unless it could not be put back. -/
theorem writeProxyFiles_cases (io : Io) (s : Store) (f : Files) :
    (writeProxyFiles io s f).2=true ∧ (writeProxyFiles io s f).1.table=some (f.rendered io s) ∧
        (writeProxyFiles io s f).1.fragment=s.approved.map aclLine ∧
        (io.ready=true ∧ io.table=true ∧ io.fragment=true) ∨
      (writeProxyFiles io s f).2=false ∧ (writeProxyFiles io s f).1.fragment=f.fragment ∧
        ((writeProxyFiles io s f).1.table=f.table ∨
          (writeProxyFiles io s f).1.table=some (f.rendered io s) ∧
            io.ready=true ∧ io.table=true ∧ io.fragment=false ∧ io.undo=false) := by
  unfold writeProxyFiles
  split
  · exact .inr ⟨rfl,rfl,.inl rfl⟩
  rename_i hready
  dsimp only
  split
  · exact .inr ⟨rfl,rfl,.inl rfl⟩
  · rename_i htable
    split
    · rename_i hfragment
      dsimp only
      split
      · exact .inr ⟨rfl,rfl,.inl rfl⟩
      · rename_i hundo
        refine .inr ⟨rfl,rfl,.inr ⟨rfl,?_⟩⟩
        exact ⟨by simpa using hready,by simpa using htable,hfragment,by simpa using hundo⟩
    · rename_i hfragment
      refine .inl ⟨rfl,rfl,rfl,?_⟩
      exact ⟨by simpa using hready,by simpa using htable,by simpa using hfragment⟩

lemma saveStore_rest (io : Io) (k : ℕ) (s : Store) (f : Files) :
    (saveStore io k s f).1.table=f.table ∧ (saveStore io k s f).1.fragment=f.fragment := by
  unfold saveStore
  repeat' split
  all_goals exact ⟨rfl,rfl⟩

/-- A commit that rewrites the proxy's files wholly: the three files are written, or the proxy's two
are as they were. -/
theorem commit_cases {io : Io} (hobjk : s'.objk=s.objk) (hwhole : io.whole s=true) (f : Files) :
    (commit io true s' f).2=true ∧ (commit io true s' f).1.table=some (f.rendered io s') ∧
        (commit io true s' f).1.fragment=s'.approved.map aclLine ∨
      (commit io true s' f).2=false ∧ (commit io true s' f).1.table=f.table ∧
        (commit io true s' f).1.fragment=f.fragment := by
  have hcommit : commit io true s' f=if (writeProxyFiles io s' f).2 then saveStore io 0 s' (writeProxyFiles io s' f).1
      else ((writeProxyFiles io s' f).1,false) := rfl
  rw [hcommit]
  rcases writeProxyFiles_cases io s' f with ⟨hok,htable,hfragment,hready,htab,hfrag⟩ | ⟨hok,hfragment,htable⟩
  · rw [if_pos hok]
    -- the store file follows
    have hsaved : ((s.objk.isNone || io.gens) && io.store 0)=true := by
      simpa [Io.whole,hready,htab,hfrag] using hwhole
    have hstore : (saveStore io 0 s' (writeProxyFiles io s' f).1).2=true := by
      obtain ⟨hgens,hwritten⟩ := Bool.and_eq_true_iff.mp hsaved
      have hgens' : ¬(s'.objk.isSome && !io.gens)=true := by
        rw [hobjk]
        cases hobj : s.objk <;> simp_all
      unfold saveStore
      rw [if_neg hgens',if_pos hwritten]
    obtain ⟨hrest,hrest'⟩ := saveStore_rest io 0 s' (writeProxyFiles io s' f).1
    exact .inl ⟨hstore,hrest.trans htable,hrest'.trans hfragment⟩
  · rw [if_neg (by rw [hok]; exact Bool.false_ne_true)]
    refine .inr ⟨rfl,?_,hfragment⟩
    rcases htable with hsame | ⟨-,hready,htab,hfrag,hundo⟩
    · exact hsame
    · simp [Io.whole,hready,htab,hfrag,hundo] at hwhole

lemma macEntries_rendered {f f' : Files} {io : Io} (h : f'.table=some (f.rendered io s)) :
    f'.macEntries=s.approved.map entry := by
  unfold Files.macEntries
  rw [h]
  exact renderPrincipals_macs s _ f.table

lemma macEntries_congr {f f' : Files} (h : f'.table=f.table) : f'.macEntries=f.macEntries := by
  unfold Files.macEntries
  rw [h]

/-! ### The invariant -/

/-- The part of the claim that is about the proxy's files. -/
structure Listed (w : World) : Prop where
  table : w.files.macEntries = w.mem.approved.map entry
  fragment : w.files.fragment = w.mem.approved.map aclLine

section
variable {cfg : Config} {w w' : World} {a : Act} {s : Store} {io : Io}

lemma Listed.congr (h : Listed w) (hcreds : w'.mem.approved.map cred=w.mem.approved.map cred)
    (htable : w'.files.macEntries=w.files.macEntries) (hfragment : w'.files.fragment=w.files.fragment) : Listed w' := by
  obtain ⟨hentries,hlines⟩ := approved_entries hcreds
  exact ⟨by rw [htable,hentries,h.table],by rw [hfragment,hlines,h.fragment]⟩

lemma Quiet.approved {s' : Store} (h : Quiet s s') : s'.approved.map cred=s.approved.map cred :=
  approved_of_creds (creds_of_cores h.recs)

lemma Listed.savedAs {P : Store → Prop} (h : Listed w) (hquiet : Quiet w.mem w'.mem) (hsaved : SavedAs P w.files w'.files) :
    Listed w' := by
  refine h.congr hquiet.approved (macEntries_congr ?_) ?_
  · rw [hsaved.rest]
  · rw [hsaved.rest]

/-- A store with the approved credentials of memory may be written to the proxy's files at any time. -/
theorem Listed.written (h : Listed w) (io : Io) (hs : s.approved.map cred=w.mem.approved.map cred)
    (hmem : w'.mem.approved.map cred=w.mem.approved.map cred)
    (htable : w'.files.table=(writeProxyFiles io s w.files).1.table)
    (hfragment : w'.files.fragment=(writeProxyFiles io s w.files).1.fragment) : Listed w' := by
  obtain ⟨hentries,hlines⟩ := approved_entries hs
  rcases writeProxyFiles_cases io s w.files with ⟨-,hwritten,hlist,-⟩ | ⟨-,hlist,hsame | ⟨hwritten,-⟩⟩
  · refine h.congr hmem ?_ ?_
    · rw [macEntries_rendered (htable.trans hwritten),hentries,h.table]
    · rw [hfragment,hlist,hlines,h.fragment]
  · exact h.congr hmem (macEntries_congr (htable.trans hsame)) (hfragment.trans hlist)
  · refine h.congr hmem ?_ (hfragment.trans hlist)
    rw [macEntries_rendered (htable.trans hwritten),hentries,h.table]

theorem Listed.committed (h : Listed w) (hobjk : s.objk=w.mem.objk)
    (hwhole : io.whole w.mem=true) (hmem : w'.mem=if (commit io true s w.files).2 then s else w.mem)
    (hfiles : w'.files=(commit io true s w.files).1) : Listed w' := by
  rcases commit_cases hobjk hwhole w.files with ⟨hok,htable,hfragment⟩ | ⟨hok,htable,hfragment⟩
  · rw [if_pos hok] at hmem
    refine ⟨?_,by rw [hfiles,hfragment,hmem]⟩
    rw [hfiles,macEntries_rendered htable,hmem]
  · rw [if_neg (by rw [hok]; exact Bool.false_ne_true)] at hmem
    exact h.congr (by rw [hmem]) (macEntries_congr (by rw [hfiles,htable])) (by rw [hfiles,hfragment])

theorem Listed.saved (h : Listed w) (hs : s.approved.map cred=w.mem.approved.map cred)
    (hmem : w'.mem=if (commit io false s w.files).2 then s else w.mem)
    (hfiles : w'.files=(commit io false s w.files).1) : Listed w' := by
  obtain ⟨htable,hfragment⟩ := saveStore_rest io 0 s w.files
  refine h.congr ?_ (macEntries_congr (by rw [hfiles]; exact htable)) (by rw [hfiles]; exact hfragment)
  rw [hmem]
  split
  · exact hs
  · rfl

/-- A people operation changes no credential, so its writes may stay halfway. -/
theorem Listed.people (h : Listed w) (hstored : Stored cfg w) (io : Io) (op : PeopleOp) (scope : Bool) :
    Listed (w.changePeople cfg io op scope).1 := by
  rcases changePeople_cases io op scope with hsame | ⟨s,hs,hcommit⟩
  · rw [hsame]
    exact h
  have hcreds := approved_of_creds (change_changed hstored.names hstored.named hs).creds
  rw [hcommit]
  have hwritten : ∀ f : Files, f.table=(writeProxyFiles io s w.files).1.table →
      f.fragment=(writeProxyFiles io s w.files).1.fragment → ∀ m : Store, (m=s ∨ m=w.mem) →
      Listed {w with mem := m, files := f} := by
    intro f htable hfragment m hm
    refine h.written io hcreds ?_ htable hfragment
    rcases hm with rfl | rfl
    · exact hcreds
    · rfl
  have hfiles : (commit io true s w.files).1.table=(writeProxyFiles io s w.files).1.table ∧
      (commit io true s w.files).1.fragment=(writeProxyFiles io s w.files).1.fragment := by
    unfold commit
    rw [if_pos rfl]
    dsimp only
    split
    · exact saveStore_rest io 0 s (writeProxyFiles io s w.files).1
    · exact ⟨rfl,rfl⟩
  refine hwritten _ hfiles.1 hfiles.2 _ ?_
  split
  · exact .inl rfl
  · exact .inr rfl

lemma Listed.restart {io' : Io} {k : Keyd} {now : ℤ} {perMac adopt : Bool} {gens : GoMap Bytes ℕ}
    (hstart : w.restart cfg io io' k now perMac adopt gens=some w') : Listed w' := by
  obtain ⟨s,-,hwritten,hkeys,hfiles,-⟩ := restart_some hstart
  generalize (World.adoptSave io adopt s (World.reopened w.files)).1=f at hwritten hfiles
  have hlisted : Listed {mem := s, files := (writeProxyFiles io s f).1} := by
    rcases writeProxyFiles_cases io s f with ⟨-,htable,hfragment,-⟩ | ⟨hfailed,-⟩
    · exact ⟨macEntries_rendered htable,hfragment⟩
    · rw [hwritten] at hfailed
      cases hfailed
  exact hlisted.savedAs (.ofKeys hkeys) (SavedAs.ofKeys hfiles)

lemma Listed.step (h : Listed w) (hstored : Stored cfg w) (hwhole : Whole w a=true) (hstep : w.step cfg a=some w') :
    Listed w' := by
  cases step_move hstored.names hstored.parsed hstep with
  | quiet a w' mem files | notEnrolled a m w' fresh mem files => exact h.savedAs mem files
  | reload a w' mem files => exact h.written a.io rfl (by rw [mem]) (by rw [files]) (by rw [files])
  | noticed a w' mem files => exact h.congr (by rw [mem]) (macEntries_congr (by rw [files])) (by rw [files])
  | decide a s changed w' rewrites decided mem files =>
    cases changed with
    | true =>
      have hio : a.io.whole w.mem=true := by simpa [Whole,rewrites rfl] using hwhole
      exact h.committed decided.objk hio mem files
    | false => exact h.saved decided.approved mem files
  | enrolled a m w' s fresh mem saved files =>
    exact h.congr (mem.approved fresh.status) (macEntries_congr (by rw [files])) (by rw [files])
  | people op scope io => exact h.people hstored io op scope
  | restart io io' k now perMac adopt gens w' starts => exact .restart starts

lemma installed_listed {servers : List PrincipalEntry} (hservers : ∀ e∈servers, e.kind≠.mac) :
    Listed (installed servers) := by
  refine ⟨?_,rfl⟩
  change servers.filter (fun e => e.kind=.mac)=[]
  exact filter_eq_nil_iff.mpr fun e he => by simpa using hservers e he

theorem Stored.approvedOnFile (h : Stored cfg w) {i : Ident} (hi : i.status=.approved) :
    i∈w.files.store.recs.map ident ↔ i∈w.mem.recs.map ident := by
  refine ⟨fun hfile => ?_,h.onFile.kept i⟩
  rcases h.onFile.extra i hfile with hmem | ⟨hpending,-⟩
  · exact hmem
  · rw [hi] at hpending
    cases hpending

/-- In every run of the Manager from a fresh installation in which decisions are written wholly or
not at all, the proxy's files list exactly the approved Macs, of memory and of the store file. -/
theorem proxy_lists_approved (cfg : Config) {servers : List PrincipalEntry} (hservers : ∀ e ∈ servers, e.kind ≠ .mac)
    {acts : List Act} (hwhole : AllSteps (World.step cfg) (fun w a => Whole w a = true) (installed servers) acts)
    {w : World} (hrun : run (World.step cfg) (installed servers) acts = some w) : AcceptsApproved w := by
  have hinv : Stored cfg w ∧ Listed w :=
    run_invariant_of_allSteps (I := fun w => Stored cfg w ∧ Listed w) (fun _ _ _ h hw hstep => ⟨h.1.step hstep,h.2.step h.1 hw hstep⟩)
      ⟨installed_stored cfg servers,installed_listed hservers⟩ hwhole hrun
  exact ⟨hinv.2.table,hinv.2.fragment,fun _ hi => hinv.1.approvedOnFile hi⟩

end

/-- An approval that was not saved is taken back in memory and stays in the table. -/
theorem unsaved_approval_listed : ∃ w, run (World.step plainConfig) (installed sampleServers) (approvalActs false) = some w ∧
    (w.mem.mac sampleName).any (fun r => r.status = .pending) = true ∧
    w.files.macEntries.any (fun e => e.name = sampleName) = true ∧ ¬AcceptsApproved w := by
  have hrun : (run (World.step plainConfig) (installed sampleServers) (approvalActs false)).any (fun w =>
      w.mem.approved=[] && (w.mem.mac sampleName).any (fun r => r.status=.pending) &&
        w.files.macEntries.any fun e => e.name=sampleName)=true := by decide +kernel
  obtain ⟨w,hw,hlate⟩ := (Option.any_eq_true _ _).mp hrun
  simp only [Bool.and_eq_true,decide_eq_true_eq] at hlate
  obtain ⟨⟨hnone,hpending⟩,hlisted⟩ := hlate
  refine ⟨w,hw,hpending,hlisted,fun haccepts => ?_⟩
  rw [haccepts.table,hnone] at hlisted
  cases hlisted

theorem proxy_lists_approved_sample : ∃ w,
    run (World.step plainConfig) (installed sampleServers) (approvalActs true) = some w ∧ w.mem.approved.length = 1 ∧
      AcceptsApproved w := by
  have hrun : (run (World.step plainConfig) (installed sampleServers) (approvalActs true)).any (fun w =>
      w.mem.approved.length=1)=true := by decide +kernel
  obtain ⟨w,hw,hone⟩ := (Option.any_eq_true _ _).mp hrun
  refine ⟨w,hw,by simpa using hone,?_⟩
  exact proxy_lists_approved plainConfig (by decide) (allSteps_of_check (by decide +kernel)) hw

end JuiceMount.Manager
