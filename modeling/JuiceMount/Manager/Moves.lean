import JuiceMount.Manager.Sections

/-! What a step of the Manager can do to the store and its files, as far as the proxy can tell.
Most steps are quiet: they keep every record's name, credential, status and person. -/
namespace JuiceMount.Manager
open List Keyed Option World Mac
open RespProxy (Bytes ascii)

/-- What the store file must keep of a record for the proxy. -/
structure Ident where
  name : Bytes
  status : Status
  argon2id : Bytes
  redisSHA256 : Bytes
  person : Bytes
  deriving DecidableEq

def Mac.ident (r : Mac) : Ident := ⟨r.name,r.status,r.argon2id,r.redisSHA256,r.person⟩

def Mac.core (r : Mac) : Ident × Bytes := (r.ident,r.host)

/-- No change that the proxy's files show. -/
structure Quiet (s s' : Store) : Prop where
  recs : s'.recs.map Mac.core = s.recs.map Mac.core
  people : s'.people=s.people
  restrict : s'.restrictUnassigned=s.restrictUnassigned

namespace Quiet
variable {s s' s'' : Store}

lemma refl (s : Store) : Quiet s s := ⟨rfl,rfl,rfl⟩

lemma trans (h : Quiet s s') (h' : Quiet s' s'') : Quiet s s'' :=
  ⟨h'.recs.trans h.recs,h'.people.trans h.people,h'.restrict.trans h.restrict⟩

lemma symm (h : Quiet s s') : Quiet s' s := ⟨h.recs.symm,h.people.symm,h.restrict.symm⟩

theorem map {f : Mac → Mac} (hf : ∀ r∈s.recs, (f r).core=r.core) (hrecs : s'.recs=s.recs.map f)
    (hpeople : s'.people=s.people) (hrestrict : s'.restrictUnassigned=s.restrictUnassigned) : Quiet s s' := by
  refine ⟨?_,hpeople,hrestrict⟩
  rw [hrecs,List.map_map]
  exact map_congr_left hf

lemma ofKeys (h : KeysOnly s s') : Quiet s s' := by
  refine ⟨?_,h.people,h.restrict⟩
  have hrecs := h.recs
  generalize s.recs=a at hrecs
  generalize s'.recs=b at hrecs
  induction hrecs with
  | nil => rfl
  | cons hr _ ih =>
    rw [map_cons,map_cons,ih,hr.same]
    rfl

lemma names (h : Quiet s s') : s'.recs.map name=s.recs.map name := by
  have hmap : ∀ l : List Mac, l.map name=(l.map core).map fun c => c.1.name := fun l => by
    rw [List.map_map]
    rfl
  rw [hmap,hmap,h.recs]

lemma idents (h : Quiet s s') : s'.recs.map ident=s.recs.map ident := by
  have hmap : ∀ l : List Mac, l.map ident=(l.map core).map Prod.fst := fun l => by
    rw [List.map_map]
    rfl
  rw [hmap,hmap,h.recs]

end Quiet

lemma put_cores {recs : List Mac} {cur next : Mac} (hnodup : (recs.map name).Nodup) (hmem : cur∈recs)
    (hcore : next.core=cur.core) : (Keyed.put name recs next).map core=recs.map core := by
  have hname : next.name=cur.name := congrArg (fun c => c.1.name) hcore
  unfold Keyed.put
  rw [if_pos (by simp only [List.any_eq_true]; exact ⟨cur,hmem,by simp [hname]⟩),List.map_map]
  refine map_congr_left fun r hr => ?_
  rw [Function.comp_apply]
  split
  · rename_i h
    rw [hcore,eq_of_mem hnodup hr hmem (h.trans hname)]
  · rfl

theorem Quiet.put {s : Store} {cur next : Mac} (hnodup : (s.recs.map name).Nodup) (hmem : cur∈s.recs)
    (hcore : next.core=cur.core) : Quiet s (s.putMac next) := ⟨put_cores hnodup hmem hcore,rfl,rfl⟩

lemma put_new {recs : List Mac} {m : Mac} (hnew : ∀ r∈recs, r.name≠m.name) : Keyed.put name recs m=recs++[m] := by
  unfold Keyed.put
  rw [if_neg (by simpa using hnew)]

/-- A store with one more record, pending and without a person. -/
structure Joined (s s' : Store) (m : Mac) : Prop where
  recs : s'.recs.map Mac.core = s.recs.map Mac.core++[m.core]
  people : s'.people=s.people
  restrict : s'.restrictUnassigned=s.restrictUnassigned

/-- The store file after a write of a store like this one, if it was written at all. -/
structure SavedAs (P : Store → Prop) (f f' : Files) : Prop where
  store : f'.store=f.store ∨ ∃ s, P s ∧ f'.store = s.toFile f.kept
  rest : f' = { f with store := f'.store }

namespace SavedAs
variable {P Q : Store → Prop} {f f' f'' : Files}

lemma refl (P : Store → Prop) (f : Files) : SavedAs P f f := ⟨.inl rfl,rfl⟩

lemma imp (h : SavedAs P f f') (hPQ : ∀ s, P s → Q s) : SavedAs Q f f' := by
  refine ⟨?_,h.rest⟩
  rcases h.store with hsame | ⟨s,hs,hstore⟩
  · exact .inl hsame
  · exact .inr ⟨s,hPQ s hs,hstore⟩

lemma trans (h : SavedAs P f f') (h' : SavedAs P f' f'') : SavedAs P f f'' := by
  have hrest : f'' = {f with store := f''.store} := by rw [h'.rest,h.rest]
  refine ⟨?_,hrest⟩
  rcases h'.store with hsame | ⟨s,hs,hstore⟩
  · rw [hsame]
    exact h.store
  · refine .inr ⟨s,hs,?_⟩
    rw [hstore,h.rest]

lemma ofSave {s : Store} (hs : P s) (io : Io) (k : ℕ) (f : Files) : SavedAs P f (saveStore io k s f).1 := by
  unfold saveStore
  split
  · exact refl P f
  · split
    · exact ⟨.inr ⟨s,hs,rfl⟩,rfl⟩
    · exact refl P f

lemma ofKeys {s : Store} (h : SavedKeys s f f') : SavedAs (Quiet s) f f' := by
  refine ⟨?_,h.rest⟩
  rcases h.store with hsame | ⟨s',hs',hstore⟩
  · exact .inl hsame
  · exact .inr ⟨s',.ofKeys hs',hstore⟩

end SavedAs

/-! ### The Macs of the window -/

def Mac.waits (r : Mac) : Bool := r.status=.pending && r.autoApprovePending

def Mac.auto (r : Mac) : Bool := r.status=.approved && r.autoApproved

def Mac.candidate (r : Mac) : Candidate := ⟨r.name,r.requestedAt,r.argon2id⟩

/-- The record of the same enrolment, neither admitted nor approved by the window anew. -/
structure Tame (r r' : Mac) : Prop where
  who : r'.candidate=r.candidate
  ip : r'.sourceIP=r.sourceIP
  waits : r'.waits=true → r.waits=true
  auto : r'.auto=true → r.auto=true

def Mac.standing (r : Mac) : Candidate × Bytes × Status × Bool × Bool :=
  (r.candidate,r.sourceIP,r.status,r.autoApprovePending,r.autoApproved)

namespace Tame
variable {r r' r'' : Mac}

lemma refl (r : Mac) : Tame r r := ⟨rfl,rfl,id,id⟩

lemma trans (h : Tame r r') (h' : Tame r' r'') : Tame r r'' :=
  ⟨h'.who.trans h.who,h'.ip.trans h.ip,fun hw => h.waits (h'.waits hw),fun ha => h.auto (h'.auto ha)⟩

lemma name (h : Tame r r') : r'.name=r.name := congrArg Candidate.name h.who

lemma ofStanding (h : r'.standing=r.standing) : Tame r r' := by
  simp only [standing,Prod.mk.injEq] at h
  obtain ⟨hwho,hip,hstatus,hpending,hauto⟩ := h
  refine ⟨hwho,hip,?_,?_⟩
  · rw [Mac.waits,Mac.waits,hstatus,hpending]
    exact id
  · rw [Mac.auto,Mac.auto,hstatus,hauto]
    exact id

theorem decided (hwho : r'.candidate=r.candidate) (hip : r'.sourceIP=r.sourceIP) (hstatus : r'.status≠.pending)
    (hauto : r'.autoApproved=false) : Tame r r' := by
  refine ⟨hwho,hip,fun hw => ?_,fun ha => ?_⟩
  · simp [Mac.waits,hstatus] at hw
  · simp [Mac.auto,hauto] at ha

/-- A change of the key may take the window's flag from a record, not give it. -/
theorem rekeyed (h : Rekeyed r r') : Tame r r' := by
  refine ⟨by rw [h.same]; rfl,by rw [h.same],?_,?_⟩
  · have hstatus : r'.status=r.status := by rw [h.same]
    unfold Mac.waits
    rw [hstatus,Bool.and_eq_true,Bool.and_eq_true]
    exact fun hw => ⟨hw.1,h.flag hw.2⟩
  · have hsame : r'.auto=r.auto := by
      rw [h.same]
      rfl
    rw [hsame]
    exact id

end Tame

/-- Every record comes from one with the same standing or more, under the same window. -/
structure Tamed (s s' : Store) : Prop where
  nodup : (s'.recs.map Mac.name).Nodup
  window : s'.window=s.window
  origin : ∀ r'∈s'.recs,∃ r∈s.recs, Tame r r'

namespace Tamed
variable {s s' s'' : Store}

lemma ofRecs (hnodup : (s.recs.map name).Nodup) (hrecs : s'.recs=s.recs) (hwindow : s'.window=s.window) : Tamed s s' where
  nodup := by rwa [hrecs]
  window := hwindow
  origin := fun r hr => ⟨r,hrecs ▸ hr,.refl r⟩

lemma refl (hnodup : (s.recs.map name).Nodup) : Tamed s s := ofRecs hnodup rfl rfl

lemma trans (h : Tamed s s') (h' : Tamed s' s'') : Tamed s s'' where
  nodup := h'.nodup
  window := h'.window.trans h.window
  origin := by
    intro r'' hr''
    obtain ⟨r',hr',ht'⟩ := h'.origin r'' hr''
    obtain ⟨r,hr,ht⟩ := h.origin r' hr'
    exact ⟨r,hr,ht.trans ht'⟩

lemma map {f : Mac → Mac} (hnodup : (s.recs.map name).Nodup) (hf : ∀ r, Tame r (f r)) (hrecs : s'.recs=s.recs.map f)
    (hwindow : s'.window=s.window) : Tamed s s' := by
  refine ⟨?_,hwindow,fun r' hr' => ?_⟩
  · rw [hrecs,List.map_map,show name ∘ f=name from funext fun r => (hf r).name]
    exact hnodup
  · obtain ⟨r,hr,rfl⟩ := List.mem_map.mp (hrecs ▸ hr')
    exact ⟨r,hr,hf r⟩

lemma put {cur next : Mac} (hnodup : (s.recs.map name).Nodup) (hmem : cur∈s.recs) (h : Tame cur next) :
    Tamed s (s.putMac next) where
  nodup := nodup_put hnodup next
  window := rfl
  origin := by
    intro r hr
    rcases mem_put.mp hr with rfl | ⟨hr,-⟩
    · exact ⟨cur,hmem,h⟩
    · exact ⟨r,hr,.refl r⟩

lemma ofKeys (hnodup : (s.recs.map name).Nodup) (h : KeysOnly s s') : Tamed s s' := by
  refine ⟨by rw [(Quiet.ofKeys h).names]; exact hnodup,h.window,?_⟩
  have hrecs := h.recs
  generalize s.recs=a at hrecs
  generalize s'.recs=b at hrecs
  induction hrecs with
  | nil => exact fun _ hr => by cases hr
  | cons hr _ ih =>
    intro r' hr'
    rcases mem_cons.mp hr' with rfl | hr'
    · exact ⟨_,mem_cons_self,.rekeyed hr⟩
    · obtain ⟨r,hmem,ht⟩ := ih r' hr'
      exact ⟨r,mem_cons_of_mem _ hmem,ht⟩

end Tamed

/-! ### Moves -/

/-- What an admin's decision, or the window's, leaves of the records. -/
structure Decided (s s' : Store) (proxyChanged : Bool) : Prop where
  objk : s'.objk=s.objk
  people : s'.people=s.people
  restrict : s'.restrictUnassigned=s.restrictUnassigned
  nodup : (s'.recs.map Mac.name).Nodup
  origin : ∀ r'∈s'.recs,∃ r∈s.recs, r'.name=r.name ∧ r'.argon2id=r.argon2id ∧
    (r'.person=r.person ∨ (s.person r'.person).isSome)
  same : proxyChanged=false →
    (s'.recs.filter fun r => r.status=.approved).map Mac.core = (s.recs.filter fun r => r.status=.approved).map Mac.core

/-- The step may have to rewrite the proxy's files for a decision about Macs. -/
def Act.rewrites (s : Store) : Act → Bool
  | .approveCommit _ _ _ => true
  | .revoke name _ _ => (s.mac name).any fun r => r.status=.approved
  | .passCommit _ _ _ => true
  | _ => false

/-- A record an enrolment may make. -/
structure FreshMac (cfg : Config) (s : Store) (m : Mac) : Prop where
  new : ∀ r∈s.recs, r.name≠m.name
  status : m.status=.pending
  person : m.person=[]
  hashed : ∃ salt secret, m.argon2id = cfg.hashSecret salt secret
  named : ∃ id, instanceIDOk id=true ∧ m.name = macPrincipalName id

/-- What a step does to the store and the files. -/
inductive Move (cfg : Config) (w : World) : Act → World → Prop
  | quiet (a : Act) (w' : World) (mem : Quiet w.mem w'.mem) (files : SavedAs (Quiet w.mem) w.files w'.files) : Move cfg w a w'
  | reload (a : Act) (w' : World) (mem : w'.mem=w.mem) (files : w'.files = (writeProxyFiles a.io w.mem w.files).1) :
      Move cfg w a w'
  | noticed (a : Act) (w' : World) (mem : w'.mem=w.mem)
      (files : w'.files = { w.files with format := w.files.proxyFormat a.io w.mem }) : Move cfg w a w'
  | decide (a : Act) (s : Store) (proxyChanged : Bool) (w' : World) (rewrites : proxyChanged=true → a.rewrites w.mem=true)
      (decided : Decided w.mem s proxyChanged)
      (mem : w'.mem = if (commit a.io proxyChanged s w.files).2 then s else w.mem)
      (files : w'.files = (commit a.io proxyChanged s w.files).1) : Move cfg w a w'
  | enrolled (a : Act) (m : Mac) (w' : World) (s : Store) (fresh : FreshMac cfg w.mem m) (mem : Joined w.mem w'.mem m)
      (saved : Joined w.mem s m) (files : w'.files = { w.files with store := s.toFile w.files.kept }) : Move cfg w a w'
  | notEnrolled (a : Act) (m : Mac) (w' : World) (fresh : FreshMac cfg w.mem m) (mem : Quiet w.mem w'.mem)
      (files : SavedAs (fun s => Quiet w.mem s ∨ Joined w.mem s m) w.files w'.files) : Move cfg w a w'
  | people (op : PeopleOp) (scope : Bool) (io : Io) : Move cfg w (.people op scope io) (w.changePeople cfg io op scope).1
  | restart (io io' : Io) (k : Keyd) (now : ℤ) (perMac adopt : Bool) (gens : GoMap Bytes ℕ) (w' : World)
      (starts : w.restart cfg io io' k now perMac adopt gens=some w') : Move cfg w (.restart io io' k now perMac adopt gens) w'

/-! ### The steps are such moves -/

lemma mac_mem {s : Store} {name : Bytes} {r : Mac} (h : s.mac name=some r) : r∈s.recs := find_mem h

lemma mac_name {s : Store} {name : Bytes} {r : Mac} (h : s.mac name=some r) : r.name=name := find_key h

section
variable {cfg : Config} {w w' w'' : World} {io : Io}

/-- A change of the store that neither the proxy nor the window sees, saved or not. -/
structure Calm (w w' : World) : Prop where
  mem : Quiet w.mem w'.mem
  files : SavedAs (Quiet w.mem) w.files w'.files
  tamed : Tamed w.mem w'.mem

def Mac.face (r : Mac) : (Ident × Bytes) × Candidate × Bytes × Status × Bool × Bool := (r.core,r.standing)

namespace Calm

lemma refl (hnodup : (w.mem.recs.map name).Nodup) : Calm w w := ⟨.refl _,.refl _ _,.refl hnodup⟩

lemma trans (h : Calm w w') (h' : Calm w' w'') : Calm w w'' :=
  ⟨h.mem.trans h'.mem,h.files.trans (h'.files.imp fun _ hs => h.mem.trans hs),h.tamed.trans h'.tamed⟩

lemma saveAs {s : Store} (h : Quiet w.mem s) (ht : Tamed w.mem s) (hnodup : (w.mem.recs.map name).Nodup) (io : Io) (k : ℕ) :
    Calm w (w.saveAs io k s).1 := by
  have hmem : (w.saveAs io k s).1.mem=s ∨ (w.saveAs io k s).1.mem=w.mem := by
    change (if _ then _ else _)=_ ∨ (if _ then _ else _)=_
    split
    · exact .inl rfl
    · exact .inr rfl
  refine ⟨?_,.ofSave h io k w.files,?_⟩
  · rcases hmem with hmem | hmem <;> rw [hmem]
    · exact h
    · exact .refl _
  · rcases hmem with hmem | hmem <;> rw [hmem]
    · exact ht
    · exact .refl hnodup

theorem put (hnodup : (w.mem.recs.map name).Nodup) {cur next : Mac} (hmem : cur∈w.mem.recs) (h : next.face=cur.face)
    (io : Io) (k : ℕ) : Calm w (w.saveAs io k (w.mem.putMac next)).1 :=
  saveAs (.put hnodup hmem (congrArg Prod.fst h)) (.put hnodup hmem (.ofStanding (congrArg Prod.snd h))) hnodup io k

lemma keys {s : Store} {f : Files} (hnodup : (w.mem.recs.map name).Nodup)
    (h : KeysOnly w.mem s ∧ SavedKeys w.mem w.files f) : Calm w {w with mem := s, files := f} :=
  ⟨.ofKeys h.1,.ofKeys h.2,.ofKeys hnodup h.1⟩

end Calm

lemma markDeviceMismatch_face (p : Mac) (digest : Bytes) : (markDeviceMismatch p digest).face=p.face := by
  unfold markDeviceMismatch
  split <;> rfl

lemma markSharedKeyIssued_face (cfg : Config) (s : Store) (p : Mac) : (markSharedKeyIssued cfg s p).face=p.face := by
  unfold markSharedKeyIssued
  split <;> rfl

lemma inUseNoted_face (s : Store) (e : Enrolment) (r : Mac) : (inUseNoted s e r).face=r.face := by
  unfold inUseNoted
  split <;> rfl

lemma sharedNoted_face (cfg : Config) (s : Store) (r : Mac) : (sharedNoted cfg s r).face=r.face := by
  unfold sharedNoted
  split
  · rfl
  · exact markSharedKeyIssued_face cfg s r

lemma dropAdmissions_quiet (s : Store) : Quiet s (dropAdmissions s) := by
  refine .map (fun r _ => ?_) rfl rfl rfl
  split <;> rfl

variable {s s' : Store} {cur next : Mac} {changed : Bool} {a : Act}

lemma dropAdmissions_tamed (hnodup : (s.recs.map name).Nodup) : Tamed s (dropAdmissions s) := by
  refine .map hnodup (fun r => ?_) rfl rfl
  split
  · exact ⟨rfl,rfl,fun hw => by simp [waits] at hw,id⟩
  · exact .refl r

section
variable (hnodup : (w.mem.recs.map Mac.name).Nodup)
include hnodup

lemma noteMac_calm {rec next : Mac} (hmem : rec∈w.mem.recs) (h : next.face=rec.face) (io : Io) (k : ℕ) :
    Calm w (w.noteMac io k rec next) := by
  unfold noteMac
  split
  · exact .refl hnodup
  · exact .put hnodup hmem h io k

lemma noteOn_calm {f : Mac → Mac} (hf : ∀ r, (f r).face=r.face) (io : Io) (k : ℕ) (name : Bytes) :
    Calm w (w.noteOn io k name f) := by
  unfold noteOn
  split
  · exact .refl hnodup
  · rename_i r hr
    exact noteMac_calm hnodup (mac_mem hr) (hf r) io k

lemma pollNotes_calm (e : Enrolment) : Calm w (w.pollNotes cfg io e) := by
  unfold pollNotes
  dsimp only
  have h1 := noteOn_calm hnodup (fun r => markDeviceMismatch_face r e.digest) io 0 e.name
  generalize w.noteOn io 0 e.name (fun r => markDeviceMismatch r e.digest)=w₁ at h1
  have h2 := noteOn_calm h1.tamed.nodup (inUseNoted_face w₁.mem e) io 1 e.name
  generalize w₁.noteOn io 1 e.name (inUseNoted w₁.mem e)=w₂ at h2
  exact (h1.trans h2).trans (noteOn_calm h2.tamed.nodup (sharedNoted_face cfg w₂.mem) io 2 e.name)

lemma poll_calm (e : Enrolment) : Calm w (w.poll cfg io e) := by
  have hnotes : Calm w (w.pollNotes cfg io e) := pollNotes_calm hnodup e
  unfold poll
  split
  · exact .refl hnodup
  split
  · exact .refl hnodup
  · dsimp only
    split
    · exact hnotes
    · exact ⟨hnotes.mem,hnotes.files,hnotes.tamed⟩

lemma reenroll_calm (e : Enrolment) (existing : Mac) (token : Bytes) : Calm w (w.reenroll cfg io e existing token) := by
  unfold reenroll
  split
  · exact .refl hnodup
  split
  · exact .refl hnodup
  · rename_i cur hcur
    dsimp only
    have hface : (reenrolled cfg w.mem e token cur).face=cur.face := by
      unfold reenrolled
      rw [markSharedKeyIssued_face,inUseNoted_face,markDeviceMismatch_face]
      rfl
    have hcalm : Calm w (w.commitAs io false (w.mem.putMac (reenrolled cfg w.mem e token cur))).1 :=
      .put hnodup (mac_mem hcur) hface io 0
    split
    · exact ⟨hcalm.mem,hcalm.files,hcalm.tamed⟩
    · exact hcalm

lemma requestKey_calm (k : Keyd) (name : Bytes) : Calm w (w.requestKey io k name).1 := by
  unfold requestKey
  split
  · rename_i cur c hcur hobjk
    split
    · exact .refl hnodup
    split
    · exact .refl hnodup
    · rename_i gens next hmint
      dsimp only
      have hnext := Rekeyed.mint hmint
      have hcore : next.core=cur.core := by
        rw [hnext.same]
        rfl
      have hput : Quiet w.mem {w.mem.putMac next with objk := some {c with gens := gens}} :=
        ⟨put_cores hnodup (mac_mem hcur) hcore,rfl,rfl⟩
      have htput : Tamed w.mem {w.mem.putMac next with objk := some {c with gens := gens}} :=
        (Tamed.put hnodup (mac_mem hcur) (.rekeyed hnext)).trans (.ofRecs (nodup_put hnodup next) rfl rfl)
      have hdesired := writeObjKeysDesired_keysOnly io 0 k {w.mem.putMac next with objk := some {c with gens := gens}} w.files
      have hfiles := (SavedAs.ofKeys hdesired.2).imp fun _ hs => hput.trans hs
      generalize writeObjKeysDesired io 0 k {w.mem.putMac next with objk := some {c with gens := gens}} w.files=d
        at hdesired hfiles
      have hquiet := hput.trans (.ofKeys hdesired.1)
      have htamed := htput.trans (.ofKeys htput.nodup hdesired.1)
      split
      · exact ⟨hquiet,hfiles,htamed⟩
      · -- the record is put back as it was
        obtain ⟨x,hx,hxcore⟩ := List.mem_map.mp (hquiet.recs ▸ List.mem_map_of_mem (mac_mem hcur) : cur.core∈d.1.recs.map core)
        refine ⟨hquiet.trans (.put htamed.nodup hx hxcore.symm),hfiles,nodup_put htamed.nodup cur,htamed.window,?_⟩
        intro r hr
        rcases mem_put.mp hr with rfl | ⟨hr,-⟩
        · exact ⟨r,mac_mem hcur,.refl r⟩
        · exact htamed.origin r hr
  · exact .refl hnodup

lemma passStart_calm (now : ℤ) : Calm w (w.passStart io now) := by
  have hidle : Calm w w := .refl hnodup
  unfold passStart
  split
  · split
    · exact hidle
    · exact ⟨hidle.mem,hidle.files,hidle.tamed⟩
  · split
    · exact hidle
    · exact .saveAs (dropAdmissions_quiet w.mem) (dropAdmissions_tamed hnodup) hnodup io 0

lemma macPerson_calm (id token device : Bytes) : Calm w (w.macPerson cfg io id token device) := by
  unfold macPerson
  split
  · exact .refl hnodup
  rename_i rec hrec
  split
  · exact .refl hnodup
  · refine noteMac_calm hnodup (mac_mem hrec) ?_ io 0
    split
    · rfl
    · exact markDeviceMismatch_face rec device

lemma removeOrphans_calm (k : Keyd) (names : List Bytes) : Calm w (w.removeOrphans io k names) := by
  have hkeys : ∀ c, KeysOnly w.mem (withKeys w.mem c) := fun _ => ⟨forall₂_refl _,rfl,rfl,rfl⟩
  unfold removeOrphans
  split
  · exact .refl hnodup
  rename_i c hc
  dsimp only
  have hdesired := writeObjKeysDesired_keysOnly io 0 k
    (withKeys w.mem (pickOrphans names (refreshObjKeyOrphans k w.mem.recs c))) w.files
  split
  · exact .keys hnodup ⟨hkeys _,.refl _ _⟩
  · split
    · exact .keys hnodup ⟨hkeys _,.from (hkeys _) hdesired.2⟩
    · exact .keys hnodup ⟨(hkeys _).trans hdesired.1,.from (hkeys _) hdesired.2⟩

end

/-! ### Decisions -/

lemma approved_cores (recs : List Mac) : (recs.filter fun r => r.status=.approved).map core =
    (recs.map core).filter fun c => c.1.status=.approved := by
  rw [List.filter_map]
  rfl

theorem put_unapproved {recs : List Mac} (hnodup : (recs.map name).Nodup) (hmem : cur∈recs)
    (hname : next.name=cur.name) (hcur : cur.status≠.approved) (hnext : next.status≠.approved) :
    (Keyed.put name recs next).filter (fun r => r.status=.approved)=recs.filter fun r => r.status=.approved := by
  unfold Keyed.put
  rw [if_pos (by simp only [List.any_eq_true]; exact ⟨cur,hmem,by simp [hname]⟩)]
  have hone : ∀ r∈recs, r.name=next.name → r=cur := fun r hr h => eq_of_mem hnodup hr hmem (h.trans hname)
  clear hmem hnodup
  induction recs with
  | nil => rfl
  | cons r recs ih =>
    have hrest := ih fun x hx => hone x (mem_cons_of_mem _ hx)
    rw [map_cons]
    by_cases hr : r.name=next.name
    · rw [if_pos hr,hone r mem_cons_self hr,filter_cons_of_neg (by simpa using hnext),
        filter_cons_of_neg (by simpa using hcur),hrest]
    · rw [if_neg hr,filter_cons,filter_cons,hrest]

lemma Decided.put (hnodup : (s.recs.map name).Nodup)
    (hmem : cur∈s.recs) (hname : next.name=cur.name) (hargon : next.argon2id=cur.argon2id)
    (hperson : next.person=cur.person ∨ (s.person next.person).isSome)
    (hsame : changed=false → next.core=cur.core ∨ cur.status≠.approved ∧ next.status≠.approved) :
    Decided s (s.putMac next) changed where
  objk := rfl
  people := rfl
  restrict := rfl
  nodup := nodup_put hnodup next
  origin := by
    intro r' hr'
    rcases mem_put.mp hr' with rfl | ⟨hr',-⟩
    · exact ⟨cur,hmem,hname,hargon,hperson⟩
    · exact ⟨r',hr',rfl,rfl,.inl rfl⟩
  same := by
    intro hchanged
    rcases hsame hchanged with hcore | ⟨hcur,hnext⟩
    · rw [approved_cores,approved_cores]
      exact congrArg _ (put_cores hnodup hmem hcore)
    · exact congrArg _ (put_unapproved hnodup hmem hname hcur hnext)

lemma inheritPerson_cases (s : Store) (p : Mac) :
    s.inheritPerson p=(p,false) ∨
      s.inheritPerson p=({p with person := p.personFromPrevious},true) ∧ (s.person p.personFromPrevious).isSome := by
  unfold Store.inheritPerson
  split
  · exact .inl rfl
  · rename_i h
    simp only [Bool.or_eq_true,not_or,isNone_iff_eq_none] at h
    exact .inr ⟨rfl,isSome_iff_ne_none.mpr h.2⟩

lemma core_fields {p q : Mac} (h : p.core=q.core) : p.name=q.name ∧ p.argon2id=q.argon2id ∧ p.person=q.person ∧ p.status=q.status :=
  ⟨congrArg (fun c => c.1.name) h,congrArg (fun c => c.1.argon2id) h,congrArg (fun c => c.1.person) h,
    congrArg (fun c => c.1.status) h⟩

lemma markSharedKeyIssued_core (cfg : Config) (s : Store) (p : Mac) : (markSharedKeyIssued cfg s p).core=p.core :=
  congrArg Prod.fst (markSharedKeyIssued_face cfg s p)

lemma approveRecord_decided {now : ℤ} (hnodup : (s.recs.map name).Nodup)
    (hmem : cur∈s.recs) (h : approveRecord cfg s now cur=some (next,changed)) : Decided s (s.putMac next) changed := by
  unfold approveRecord at h
  split at h
  · have hcore := core_fields (markSharedKeyIssued_core cfg s {cur with autoApproved := false})
    have hquiet : (markSharedKeyIssued cfg s {cur with autoApproved := false}).core=cur.core :=
      markSharedKeyIssued_core cfg s {cur with autoApproved := false}
    rcases inheritPerson_cases s (markSharedKeyIssued cfg s {cur with autoApproved := false}) with hp | ⟨hp,hsome⟩
    · rw [hp] at h
      cases h
      exact .put hnodup hmem hcore.1 hcore.2.1 (.inl hcore.2.2.1) fun _ => .inl hquiet
    · rw [hp] at h
      cases h
      exact .put hnodup hmem hcore.1 hcore.2.1 (.inr hsome) fun hf => by cases hf
  · split_ifs at h
    · dsimp only at h
      generalize hq : markSharedKeyIssued cfg s {cur with
        autoApprovePending := false, status := .approved, decidedAt := now, autoApproved := false} = q at h
      have hcore := core_fields (markSharedKeyIssued_core cfg s {cur with
        autoApprovePending := false, status := .approved, decidedAt := now, autoApproved := false})
      rw [hq] at hcore
      rcases inheritPerson_cases s q with hp | ⟨hp,hsome⟩
      · rw [hp] at h
        cases h
        exact .put hnodup hmem hcore.1 hcore.2.1 (.inl hcore.2.2.1) fun hf => by cases hf
      · rw [hp] at h
        cases h
        exact .put hnodup hmem hcore.1 hcore.2.1 (.inr hsome) fun hf => by cases hf

lemma revoked_decided (hnodup : (s.recs.map name).Nodup) (hmem : cur∈s.recs) (now : ℤ) :
    Decided s (s.putMac (revoked now cur)) (cur.status=.approved) := by
  have hfields : (revoked now cur).name=cur.name ∧ (revoked now cur).argon2id=cur.argon2id ∧
      (revoked now cur).person=cur.person ∧ (revoked now cur).status=.revoked := by
    unfold revoked
    split
    · rename_i h
      exact ⟨rfl,rfl,rfl,h⟩
    · exact ⟨rfl,rfl,rfl,rfl⟩
  refine .put hnodup hmem hfields.1 hfields.2.1 (.inl hfields.2.2.1) fun hf => .inr ⟨by simpa using hf,?_⟩
  rw [hfields.2.2.2]
  exact fun h => by cases h

lemma dropMac_decided (hnodup : (s.recs.map name).Nodup) (hmem : cur∈s.recs)
    (hcur : cur.status=.revoked) : Decided s (s.dropMac cur.name) false where
  objk := rfl
  people := rfl
  restrict := rfl
  nodup := nodup_drop hnodup _
  origin := fun r' hr' => ⟨r',(mem_drop.mp hr').1,rfl,rfl,.inl rfl⟩
  same := by
    intro _
    refine congrArg _ ?_
    change (s.recs.filter _).filter _ = _
    rw [List.filter_filter]
    refine filter_congr fun r hr => ?_
    -- an approved record has another name than the one that is dropped
    by_cases happroved : r.status=.approved
    · have hne : r.name≠cur.name := by
        intro hname
        rw [eq_of_mem hnodup hr hmem hname,hcur] at happroved
        cases happroved
      simp [happroved,hne]
    · simp [happroved]

lemma Decided.refl (hnodup : (s.recs.map name).Nodup) : Decided s s true :=
  ⟨rfl,rfl,rfl,hnodup,fun r hr => ⟨r,hr,rfl,rfl,.inl rfl⟩,fun hf => by cases hf⟩

lemma Decided.trans {s s' s'' : Store} (h : Decided s s' true) (h' : Decided s' s'' true) : Decided s s'' true where
  objk := h'.objk.trans h.objk
  people := h'.people.trans h.people
  restrict := h'.restrict.trans h.restrict
  nodup := h'.nodup
  origin := by
    intro r'' hr''
    obtain ⟨r',hr',hname',hargon',hperson'⟩ := h'.origin r'' hr''
    obtain ⟨r,hr,hname,hargon,hperson⟩ := h.origin r' hr'
    refine ⟨r,hr,hname'.trans hname,hargon'.trans hargon,?_⟩
    rcases hperson' with hp | hp
    · rw [hp]
      exact hperson
    · refine .inr ?_
      rw [Store.person,← h.people]
      exact hp
  same := fun hf => by cases hf

lemma approveBatch_decided (hnodup : (s.recs.map name).Nodup) (now : ℤ) (batch : List Candidate) :
    Decided s (approveBatch cfg now s batch) true := by
  induction batch generalizing s with
  | nil => exact .refl hnodup
  | cons c batch ih =>
    unfold approveBatch
    rw [foldl_cons]
    cases hc : stillCandidate s c with
    | none => exact ih hnodup
    | some r =>
      have hr : s.mac c.name=some r := by
        unfold stillCandidate at hc
        exact (filter_eq_some_iff.mp hc).1
      have hcore := core_fields (markSharedKeyIssued_core cfg s {r with
        status := .approved, autoApproved := true, autoApprovePending := false, decidedAt := now})
      have hput : Decided s (s.putMac (autoApproved cfg s now r)) true :=
        .put hnodup (mac_mem hr) hcore.1 hcore.2.1 (.inl hcore.2.2.1) fun hf => by cases hf
      exact hput.trans (ih hput.nodup)

/-! ### A first enrolment -/

variable {m : Mac} {ip : Bytes}

lemma Joined.keys {s s' s'' : Store} (h : Joined s s' m) (h' : KeysOnly s' s'') : Joined s s'' m := by
  have hquiet := Quiet.ofKeys h'
  exact ⟨hquiet.recs.trans h.recs,hquiet.people.trans h.people,hquiet.restrict.trans h.restrict⟩

theorem Joined.undo (h : Joined s s' m) (hnew : ∀ r∈s.recs, r.name≠m.name) (window : Window) :
    Quiet s {s'.dropMac m.name with window := window} := by
  refine ⟨?_,h.people,h.restrict⟩
  have hdrop : (s'.recs.filter fun r => r.name≠m.name).map core =
      (s'.recs.map core).filter fun c => c.1.name≠m.name := by
    rw [List.filter_map]
    rfl
  have hkeep : (s.recs.map core).filter (fun c => c.1.name≠m.name)=s.recs.map core := by
    refine filter_eq_self.mpr fun c hc => ?_
    obtain ⟨r,hr,rfl⟩ := List.mem_map.mp hc
    exact decide_eq_true (hnew r hr)
  change (s'.recs.filter fun r => r.name≠m.name).map core=_
  rw [hdrop,h.recs,filter_append,hkeep,filter_cons_of_neg (by simp [core,ident]),filter_nil,
    append_nil]

lemma admitted_fields {m' : Mac} (h : admitted s m ip=some (s',m')) :
    s'.recs=s.recs ∧ s'.people=s.people ∧ s'.restrictUnassigned=s.restrictUnassigned ∧
      m' = {m with key := m'.key, autoApprovePending := m'.autoApprovePending} := by
  unfold admitted at h
  split at h
  · cases h
    exact ⟨rfl,rfl,rfl,rfl⟩
  · split at h
    · cases h
    · rename_i hmint
      cases h
      exact ⟨rfl,rfl,rfl,by rw [(Rekeyed.mint hmint).same]⟩

theorem entered_fields {m' : Mac} {auto : Bool}
    (h : (if auto then admitted s m ip else some (s,m))=some (s',m')) :
    s'.recs=s.recs ∧ s'.people=s.people ∧ s'.restrictUnassigned=s.restrictUnassigned ∧
      m' = {m with key := m'.key, autoApprovePending := m'.autoApprovePending} := by
  split at h
  · exact admitted_fields h
  · cases h
    exact ⟨rfl,rfl,rfl,rfl⟩

lemma enrollSave_keys (io : Io) (k : Keyd) (auto : Bool) (s : Store) (f : Files) :
    KeysOnly s (enrollSave io k auto s f).1 ∧ SavedKeys s f (enrollSave io k auto s f).2.1 := by
  have hsave := saveStore_savedKeys (.refl s) io 0 f
  unfold enrollSave
  dsimp only
  split
  · exact ⟨.refl s,hsave⟩
  split
  · have hdesired := writeObjKeysDesired_keysOnly io 1 k s (commit io false s f).1
    refine ⟨hdesired.1,?_,?_⟩
    · rcases hdesired.2.store with hsame | ⟨s',hs',hstore⟩
      · rw [hsame]
        exact hsave.store
      · refine .inr ⟨s',hs',?_⟩
        rw [hstore,show (commit io false s f).1=(saveStore io 0 s f).1 from rfl,hsave.rest]
    · rw [hdesired.2.rest,show (commit io false s f).1=(saveStore io 0 s f).1 from rfl,hsave.rest]
  · exact ⟨.refl s,hsave⟩

theorem enrollSave_stored {k : Keyd} {auto : Bool} {f : Files} (h : (enrollSave io k auto s f).2.2=true) :
    ∃ s', KeysOnly s s' ∧ (enrollSave io k auto s f).2.1 = {f with store := s'.toFile f.kept} := by
  unfold enrollSave at h ⊢
  dsimp only at h ⊢
  split at h
  · cases h
  rename_i hok
  have hsaved : (commit io false s f).1 = {f with store := s.toFile f.kept} := by
    change (saveStore io 0 s f).1=_
    change ¬(saveStore io 0 s f).2=false at hok
    unfold saveStore at hok ⊢
    split
    · rename_i hgens
      simp [hgens] at hok
    · rename_i hgens
      split
      · rfl
      · rename_i hstore
        simp [hgens,hstore] at hok
  rw [if_neg hok]
  split
  · have hdesired := writeObjKeysDesired_keysOnly io 1 k s (commit io false s f).1
    generalize writeObjKeysDesired io 1 k s (commit io false s f).1=d at hdesired
    rcases hdesired.2.store with hsame | ⟨s',hs',hstore⟩
    · refine ⟨s,.refl s,?_⟩
      rw [hdesired.2.rest,hsame,hsaved]
    · refine ⟨s',hs',?_⟩
      rw [hdesired.2.rest,hstore,hsaved]
  · exact ⟨s,.refl s,hsaved⟩

lemma parse_name {q : EnrollRequest} {e : Enrolment} (h : q.parse cfg=some e) :
    instanceIDOk e.instanceID=true ∧ e.name=macPrincipalName e.instanceID := by
  unfold EnrollRequest.parse at h
  dsimp only at h
  split at h
  · cases h
  · rename_i hid
    repeat' split at h
    all_goals cases h
    exact ⟨by simpa using hid,rfl⟩

lemma enrollNew_move {k : Keyd} {e : Enrolment} {token : Bytes} {salt : ℕ} {now : ℤ}
    (hparsed : ∃ q : EnrollRequest, q.parse cfg=some e) (l : List Call) :
    Move cfg w a {w.enrollNew cfg io k e ip salt token now with calls := l} := by
  have hstill : Move cfg w a {w with calls := l} := .quiet a _ (.refl _) (.refl _ _)
  unfold enrollNew
  split
  · exact hstill
  rename_i hnone
  dsimp only
  split
  · exact hstill
  · split
    · exact hstill
    · rename_i s m hentered
      obtain ⟨hrecs,hpeople,hrestrict,hre⟩ := entered_fields hentered
      have hname : m.name=e.name := by
        rw [hre]
        rfl
      have hfresh : FreshMac cfg w.mem m := by
        obtain ⟨q,hq⟩ := hparsed
        refine ⟨?_,by rw [hre]; rfl,by rw [hre]; rfl,⟨salt,e.secret,by rw [hre]; rfl⟩,e.instanceID,(parse_name hq).1,?_⟩
        · rw [hname]
          exact find_eq_none.mp (not_isSome_iff_eq_none.mp hnone)
        · rw [hname]
          exact (parse_name hq).2
      have hjoin : Joined w.mem (s.putMac m) m := by
        refine ⟨?_,hpeople,hrestrict⟩
        change (Keyed.put name s.recs m).map core=_
        rw [hrecs,put_new hfresh.new,map_append]
        rfl
      have hkeys := enrollSave_keys io k (w.mem.autoApprovable now ip) (s.putMac m) w.files
      split
      · rename_i hok
        obtain ⟨s',hs',hfiles⟩ := enrollSave_stored hok
        exact .enrolled a m _ s' hfresh (hjoin.keys hkeys.1) (hjoin.keys hs') hfiles
      · generalize enrollSave io k (w.mem.autoApprovable now ip) (s.putMac m) w.files=r at hkeys
        have hundo := (hjoin.keys hkeys.1).undo hfresh.new w.mem.window
        rw [hname] at hundo
        have hsaved : SavedAs (fun s => Quiet w.mem s ∨ Joined w.mem s m) w.files r.2.1 := by
          refine ⟨?_,hkeys.2.rest⟩
          rcases hkeys.2.store with hsame | ⟨s',hs',hstore⟩
          · exact .inl hsame
          · exact .inr ⟨s',.inr (hjoin.keys hs'),hstore⟩
        refine .notEnrolled a m _ hfresh ?_ ?_
        · change Quiet w.mem (enrollUndo io _ e.name w.mem.window r.1 r.2.1).1
          unfold enrollUndo
          dsimp only
          split <;> exact hundo
        · change SavedAs _ w.files (enrollUndo io _ e.name w.mem.window r.1 r.2.1).2
          unfold enrollUndo
          dsimp only
          split
          · exact hsaved.trans (.ofSave (.inl hundo) io 2 _)
          · exact hsaved

/-! ### Every step -/

lemma Calm.move (h : Calm w w') (l : List Call) : Move cfg w a {w' with calls := l} := .quiet a _ h.mem h.files

lemma commitAs_move (hio : a.io=io) (hrewrites : changed=true → a.rewrites w.mem=true)
    (hdecided : Decided w.mem s changed) (l : List Call) : Move cfg w a {(w.commitAs io changed s).1 with calls := l} := by
  subst hio
  exact .decide a s changed _ hrewrites hdecided rfl rfl

lemma setWindow_move (length : ℤ) (limit : ℕ) (now : ℤ) (l : List Call) :
    Move cfg w a {w.setWindow io length limit now with calls := l} := by
  have hquiet := dropAdmissions_quiet w.mem
  have hnext : Quiet w.mem {dropAdmissions w.mem with window := newWindow length limit now w.mem.window} :=
    ⟨hquiet.recs,hquiet.people,hquiet.restrict⟩
  refine .quiet a _ ?_ (.ofSave hnext io 0 w.files)
  change Quiet w.mem (if _ then _ else w.mem)
  split
  · exact hnext
  · exact .refl _

section
variable (hnodup : (w.mem.recs.map Mac.name).Nodup)
include hnodup

lemma approveCommit_move (hio : a.io=io) (hrewrites : a.rewrites w.mem=true) (name : Bytes) (now : ℤ)
    (l : List Call) : Move cfg w a {w.approveCommit cfg io name now with calls := l} := by
  unfold approveCommit
  split
  · exact .quiet a _ (.refl _) (.refl _ _)
  · rename_i cur hcur
    split
    · exact .quiet a _ (.refl _) (.refl _ _)
    · rename_i next changed hnext
      exact commitAs_move hio (fun _ => hrewrites) (approveRecord_decided hnodup (mac_mem hcur) hnext) l

lemma passCommit_move (hio : a.io=io) (hrewrites : a.rewrites w.mem=true) (batch : List Candidate) (now : ℤ)
    (l : List Call) : Move cfg w a {w.passCommit cfg io now batch with calls := l} := by
  unfold passCommit
  split
  · exact .quiet a _ (.refl _) (.refl _ _)
  · dsimp only
    split
    · exact .quiet a _ (.refl _) (.refl _ _)
    · exact commitAs_move hio (fun _ => hrewrites) (approveBatch_decided hnodup now batch) l

lemma revoke_move (name : Bytes) (now : ℤ) (l : List Call) :
    Move cfg w (.revoke name now io) {w.revoke io name now with calls := l} := by
  unfold revoke
  split
  · exact .quiet _ _ (.refl _) (.refl _ _)
  · rename_i cur hcur
    refine commitAs_move rfl (fun hchanged => ?_) (revoked_decided hnodup (mac_mem hcur) now) l
    rw [Act.rewrites,hcur]
    exact hchanged

lemma forget_move (name : Bytes) (l : List Call) : Move cfg w (.forget name io) {w.forget io name with calls := l} := by
  unfold forget
  split
  · exact .quiet _ _ (.refl _) (.refl _ _)
  rename_i cur hcur
  split
  · exact .quiet _ _ (.refl _) (.refl _ _)
  · rename_i hrefused
    simp only [Bool.or_eq_true,not_or,decide_eq_true_eq,not_not] at hrefused
    have hdecided := dropMac_decided hnodup (mac_mem hcur) hrefused.1.1
    rw [mac_name hcur] at hdecided
    exact commitAs_move rfl (fun hchanged => by cases hchanged) hdecided l

theorem step_move (hparsed : Parsed cfg w) (h : w.step cfg a=some w') : Move cfg w a w' := by
  obtain ⟨v,l,hsection,rfl,-⟩ := step_section h
  cases hsection with
  | idle => exact .quiet a _ (.refl _) (.refl _ _)
  | reload => exact .reload a _ rfl rfl
  | poll q e io _ => exact (poll_calm hnodup e).move l
  | reenroll i slot salt token now io k e ip old _ => exact (reenroll_calm hnodup e old token).move l
  | enrollNew i slot salt token now io k e ip call => exact enrollNew_move (hparsed e ip none (mem_of_getElem? call)) l
  | requestKey i io k name => exact (requestKey_calm hnodup k name).move l
  | approveWait i expired now io k | reconcile now io k =>
    exact (Calm.keys hnodup (reconcileObjKeys_keysOnly io k now false w.mem w.files)).move l
  | approveCommit i now io name => exact approveCommit_move hnodup rfl rfl name now l
  | revoke name now io => exact revoke_move hnodup name now l
  | syncKeys io k => exact (Calm.keys hnodup (writeObjKeysDesired_keysOnly io 0 k w.mem w.files)).move l
  | forget name io => exact forget_move hnodup name l
  | pass now io => exact (passStart_calm hnodup now).move l
  | passCommit i now io batch _ => exact passCommit_move hnodup rfl rfl batch now l
  | closeWindow now io => exact setWindow_move 0 0 now l
  | windowSet i now io length limit => exact setWindow_move length limit now l
  | removeOrphans names io k => exact (removeOrphans_calm hnodup k names).move l
  | macPerson instanceID token device io => exact (macPerson_calm hnodup instanceID token device).move l
  | people op scope io =>
    rw [← Option.some.inj h]
    exact .people op scope io
  | syncPeople io =>
    unfold syncPeople
    dsimp only
    split
    · exact .noticed _ _ rfl rfl
    · exact .reload _ _ rfl rfl
  | restart io io' k now perMac adopt gens v _ => exact .restart io io' k now perMac adopt gens _ h

end

end

end JuiceMount.Manager
