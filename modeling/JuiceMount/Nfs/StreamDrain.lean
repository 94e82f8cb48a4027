import JuiceMount.Lib.Transition
import JuiceMount.Nfs.SpoolStream

/-! What streaming keeps of a file: below the punched boundary its bytes are in the copy on the
backend, from the boundary on they are in the spool file, and the published file is whole. The
steps that break this are named by `undisturbed`. -/
namespace JuiceMount.Nfs
open FileImage Transition StreamState Image Option

namespace StreamState

def copy (s : StreamState) : Option ℕ := if s.published then s.real else s.temp

def chunkEnd (s : StreamState) : ℕ :=
  match s.task with
  | .advance _ start buf => start+buf.size
  | _ => 0

end StreamState

/-- The steps that keep to what the stream has done: no write goes to the spool file below the
boundary or into a chunk in flight, no truncate below what was copied, no failed rewrite
that left bytes in the partial, and no new session for a published file. -/
def undisturbed (s : StreamState) : StreamAction → Bool
  | .enter k room fail =>
    match s.calls[k]? with
    | none => true
    | some c =>
      s.entry.closed ||
        if 0<s.entry.punchedEnd ∧ c.off<s.entry.punchedEnd then fail.all (· = 0)
        else (s.entry.writtenEnd < c.off+c.data.size && !room) || s.chunkEnd≤c.off
  | .resume k _ =>
    match s.calls[k]? with
    | none => true
    | some c => s.entry.closed || (s.entry.punchedEnd≤c.off && s.chunkEnd≤c.off)
  | .truncate size _ =>
    s.entry.closed || (((s.temp.map s.inodes).getD .empty).size ≤ size && s.chunkEnd ≤ size)
  | .openSession _ => s.session.isSome || !s.published
  | _ => true

/-- Where the bytes of the file are. -/
structure Content (s : StreamState) : Prop where
  fileSize : s.entry.file.size=s.entry.writtenEnd
  logicalSize : s.logical.size=s.entry.writtenEnd
  spool : ∀ i,s.entry.punchedEnd ≤ i → s.entry.file.byte i = s.logical.byte i
  within : s.entry.punchedEnd ≤ s.entry.writtenEnd
  dest : ∀ d,s.copy=some d → s.entry.punchedEnd ≤ (s.inodes d).size ∧
    (s.inodes d).size ≤ s.entry.writtenEnd ∧ ∀ i<s.entry.punchedEnd,(s.inodes d).byte i = s.logical.byte i
  copied : 0<s.entry.punchedEnd → s.copy≠none
  whole : s.published=true → s.entry.closed=true ∧ ∃ d,s.real=some d ∧ s.inodes d=s.logical

/-- Every name and handle of the destination leads to the copy. -/
structure Routing (s : StreamState) : Prop where
  real : s.entry.streamDest=some .real → s.published=true
  temp : s.published=true → s.temp=none
  handles : ∀ h d,s.handles h=some d → s.copy=some d
  reads : ∀ r∈s.reads,r.off+r.count ≤ s.entry.punchedEnd ∧ (r.path=.real → s.published=true)
  session : ∀ d,s.session=some d → s.copy=some d

def TaskFits (s : StreamState) : StreamTask → Prop
  | .idle | .opening => True
  | .stepping | .sealing => s.session≠none
  | .copying start _ => s.session≠none ∧ start=s.entry.punchedEnd
  | .advance stage start buf => s.session≠none ∧ start=s.entry.punchedEnd ∧
      start+buf.size ≤ s.entry.writtenEnd ∧ (∀ i<buf.size,buf.byte i = s.logical.byte (start+i)) ∧
      (stage≠.read → ∀ d,s.session=some d → start+buf.size ≤ (s.inodes d).size ∧
        ∀ i<buf.size,(s.inodes d).byte (start+i) = buf.byte i)
  | .punching _ sealed => sealed ≤ s.entry.punchedEnd
  | .finishing => s.entry.closed=true ∧ s.session≠none
  | .tail start buf => s.entry.closed=true ∧ s.session≠none ∧ start=s.entry.punchedEnd ∧
      start+buf.size=s.entry.writtenEnd ∧ ∀ i<buf.size,buf.byte i = s.logical.byte (start+i)
  | .tailWritten | .publishing => s.entry.closed=true ∧ ∃ d,s.session=some d ∧ s.inodes d=s.logical
  | .renamed => s.published=true

def ReadOk (s : StreamState) : Prop :=
  ∀ off im,s.returned = some (off,im) → ∀ i < im.size,im.byte i = s.logical.byte (off+i)

structure StreamInv (s : StreamState) : Prop where
  content : Content s
  routing : Routing s
  task : TaskFits s s.task
  read : ReadOk s
  live : s.task=.renamed ∨ s.published=false ∨ s.session=none

namespace StreamInv
variable {cfg : StreamCfg} {s t : StreamState}

variable {τ : StreamTask} {p : Image} {off d : ℕ} {a : StreamAction}

lemma same (h : TaskFits s τ) (hsession : t.session=s.session)
    (hpunched : t.entry.punchedEnd=s.entry.punchedEnd) (hend : t.entry.writtenEnd=s.entry.writtenEnd)
    (hclosed : t.entry.closed=s.entry.closed) (hinodes : t.inodes=s.inodes) (hlogical : t.logical=s.logical)
    (hpub : t.published=s.published) : TaskFits t τ := by
  cases τ <;> simp only [TaskFits,hsession,hpunched,hend,hclosed,hinodes,hlogical,hpub] at h ⊢ <;> exact h

lemma copy_of_open (h : Content s) (hopen : s.entry.closed=false) : s.published=false ∧ s.copy=s.temp := by
  have hpub : s.published=false := by
    by_contra hp
    rw [(h.whole (by simpa using hp)).1] at hopen
    cases hopen
  exact ⟨hpub,by simp [copy,hpub]⟩

lemma carry (h : TaskFits s τ) (hopen : s.entry.closed=false) (hsession : t.session=s.session)
    (hpunched : t.entry.punchedEnd=s.entry.punchedEnd) (hpub : t.published=s.published)
    (hchunk : ∀ stage start buf,τ=.advance stage start buf → start=s.entry.punchedEnd →
      start+buf.size ≤ s.entry.writtenEnd → start+buf.size≤t.entry.writtenEnd ∧
      (∀ i<buf.size,t.logical.byte (start+i)=s.logical.byte (start+i)) ∧
      (∀ d,s.session=some d → start+buf.size≤(s.inodes d).size → start+buf.size≤(t.inodes d).size ∧
        ∀ i<buf.size,(t.inodes d).byte (start+i)=(s.inodes d).byte (start+i))) : TaskFits t τ := by
  cases τ with
  | idle | opening => trivial
  | stepping | sealing =>
    change t.session≠none
    rw [hsession]
    exact h
  | copying start sealed =>
    change t.session≠none ∧ start=t.entry.punchedEnd
    rw [hsession,hpunched]
    exact h
  | advance stage start buf =>
    obtain ⟨hs,hstart,hend,hlogical,hdest⟩ := h
    obtain ⟨hend',hlogical',hdest'⟩ := hchunk stage start buf rfl hstart hend
    refine ⟨by rwa [hsession],by rwa [hpunched],hend',fun i hi => ?_,fun hstage d hd => ?_⟩
    · rw [hlogical i hi,hlogical' i hi]
    · rw [hsession] at hd
      obtain ⟨hsize,hbytes⟩ := hdest hstage d hd
      refine ⟨(hdest' d hd hsize).1,fun i hi => ?_⟩
      rw [(hdest' d hd hsize).2 i hi,hbytes i hi]
  | punching start sealed =>
    change sealed≤t.entry.punchedEnd
    rw [hpunched]
    exact h
  | renamed =>
    change t.published=true
    rw [hpub]
    exact h
  | finishing | tail _ _ | tailWritten | publishing =>
    have hclosed := h.1
    rw [hopen] at hclosed
    cases hclosed

lemma readOk_none (hret : s.returned=none) : ReadOk s := by
  intro off im hr
  rw [hret] at hr
  cases hr

lemma wrote (h : StreamInv s) (hopen : s.entry.closed=false)
    (hpunched : s.entry.punchedEnd≤off) (hchunk : s.chunkEnd≤off) (hret : s.returned=none) :
    StreamInv {s with entry := s.entry.wrote p off, logical := s.logical.writeAt p off} := by
  obtain ⟨hpub,hcopy⟩ := copy_of_open h.content hopen
  have hc := h.content
  refine ⟨⟨?_,?_,?_,?_,?_,hc.copied,?_⟩,{h.routing with},?_,readOk_none hret,h.live⟩
  · simp [SpoolEntry.wrote,hc.fileSize]
  · simp [SpoolEntry.wrote,hc.logicalSize]
  · intro i hi
    exact writeAt_agree (hc.spool i hi)
  · exact hc.within.trans (le_max_left _ _)
  · intro d hd
    obtain ⟨hlo,hhi,hbytes⟩ := hc.dest d hd
    refine ⟨hlo,hhi.trans (le_max_left _ _),fun i hi => ?_⟩
    rw [hbytes i hi]
    exact (writeAt_outside (.inl (lt_of_lt_of_le hi hpunched))).symm
  · exact fun hp => nomatch hpub.symm.trans hp
  · refine carry (τ := s.task) h.task hopen rfl rfl rfl fun stage start buf htask hstart hend => ?_
    simp only [chunkEnd,htask] at hchunk
    refine ⟨hend.trans (le_max_left _ _),fun i hi => writeAt_outside (.inl (by omega)),fun _ _ hsize =>
      ⟨hsize,fun _ _ => rfl⟩⟩

lemma truncate (h : StreamInv s) (hopen : s.entry.closed=false) {size : ℕ}
    (htemp : ((s.temp.map s.inodes).getD .empty).size ≤ size) (hchunk : s.chunkEnd ≤ size)
    (hret : s.returned=none) :
    StreamInv {s with entry := s.entry.truncate size, logical := s.logical.truncate size} := by
  obtain ⟨hpub,hcopy⟩ := copy_of_open h.content hopen
  have hc := h.content
  -- a truncate to the same size changes nothing
  by_cases hsame : size=s.entry.writtenEnd
  · have hentry : s.entry.truncate size=s.entry := by simp [SpoolEntry.truncate,hsame]
    have hlogical : s.logical.truncate size=s.logical :=
      eq_of_agree (by simp [hc.logicalSize,hsame]) fun i hi => truncate_byte hi
    rw [hentry,hlogical]
    exact h
  have hentry : s.entry.truncate size =
      {s.entry with
        file := s.entry.file.truncate size
        writtenEnd := size
        contiguousEnd := min s.entry.contiguousEnd size
        writtenExtents := clipExtents s.entry.writtenExtents size
        hashValid := false} := if_neg hsame
  have hdest : ∀ d,s.copy=some d → (s.inodes d).size ≤ size := by
    intro d hd
    rw [hcopy] at hd
    simpa [hd] using htemp
  have hwithin : s.entry.punchedEnd ≤ size := by
    by_cases hp : 0<s.entry.punchedEnd
    · obtain ⟨d,hd⟩ := ne_none_iff_exists'.mp (hc.copied hp)
      exact (hc.dest d hd).1.trans (hdest d hd)
    · omega
  rw [hentry]
  refine ⟨⟨rfl,rfl,?_,hwithin,?_,hc.copied,?_⟩,{h.routing with},?_,readOk_none hret,h.live⟩
  · intro i hi
    exact truncate_agree (hc.spool i hi)
  · intro d hd
    obtain ⟨hlo,hhi,hbytes⟩ := hc.dest d hd
    refine ⟨hlo,hdest d hd,fun i hi => ?_⟩
    rw [hbytes i hi]
    exact (truncate_byte (lt_of_lt_of_le hi hwithin)).symm
  · exact fun hp => nomatch hpub.symm.trans hp
  · refine carry (τ := s.task) h.task hopen rfl rfl rfl fun stage start buf htask hstart hend => ?_
    simp only [chunkEnd,htask] at hchunk
    exact ⟨hchunk,fun i hi => truncate_byte (by omega),fun _ _ hsize => ⟨hsize,fun _ _ => rfl⟩⟩

lemma below (h : StreamInv s) (hopen : s.entry.closed=false) (hd : s.copy=some d)
    (hp : off+p.size ≤ s.entry.punchedEnd) (hret : s.returned=none) :
    StreamInv {s.setInode d ((s.inodes d).writeAt p off) with logical := s.logical.writeAt p off} := by
  obtain ⟨hpub,hcopy⟩ := copy_of_open h.content hopen
  have hc := h.content
  have hw := hc.within
  obtain ⟨hlo,hhi,hbytes⟩ := hc.dest d hd
  have hself : Function.update s.inodes d ((s.inodes d).writeAt p off) d=(s.inodes d).writeAt p off := by simp
  refine ⟨⟨hc.fileSize,?_,?_,hw,?_,hc.copied,?_⟩,{h.routing with},?_,readOk_none hret,h.live⟩
  · have := hc.logicalSize
    change max s.logical.size (off+p.size)=s.entry.writtenEnd
    omega
  · intro i hi
    change s.entry.file.byte i=(s.logical.writeAt p off).byte i
    rw [hc.spool i hi]
    exact (writeAt_outside (.inr (hp.trans hi))).symm
  · intro d' hd'
    obtain rfl : d=d' := Option.some.inj (hd.symm.trans hd')
    simp only [setInode,hself,writeAt_size]
    exact ⟨by omega,by omega,fun i hi => writeAt_agree (hbytes i hi)⟩
  · exact fun hp => nomatch hpub.symm.trans hp
  · refine carry (τ := s.task) h.task hopen rfl rfl rfl fun stage start buf htask hstart hend => ?_
    refine ⟨hend,fun i hi => writeAt_outside (.inr (by omega)),fun ds hds hsize => ?_⟩
    obtain rfl : d=ds := Option.some.inj (hd.symm.trans (h.routing.session ds hds))
    simp only [setInode,hself]
    exact ⟨hsize.trans (le_max_left _ _),fun i hi => writeAt_outside (.inr (by omega))⟩

lemma client (h : StreamInv s) (calls : List WriteCall) (hashValid : Bool) :
    StreamInv {s with calls := calls, entry := {s.entry with hashValid := hashValid}} := by
  refine ⟨{h.content with},{h.routing with},?_,h.read,h.live⟩
  exact same h.task rfl rfl rfl rfl rfl rfl rfl

lemma calls (h : StreamInv s) (calls : List WriteCall) : StreamInv {s with calls := calls} :=
  h.client calls s.entry.hashValid

lemma finalize (h : StreamInv s) : StreamInv {s with entry := s.entry.finalize} := by
  refine ⟨{h.content with whole := fun hp => ⟨rfl,(h.content.whole hp).2⟩},
    {h.routing with},?_,h.read,h.live⟩
  have ht := h.task
  change TaskFits _ s.task
  generalize s.task=τ at ht
  cases τ with
  | finishing | tail _ _ | tailWritten | publishing => exact ⟨rfl,ht.2⟩
  | _ => exact ht

lemma reading (h : StreamInv s) {reads : List DestRead} {handles : ℕ → Option ℕ}
    (hreads : ∀ r∈reads,r.off+r.count ≤ s.entry.punchedEnd ∧ (r.path=.real → s.published=true))
    (hhandles : ∀ k d,handles k=some d → s.copy=some d) {returned : Option (ℕ × Image)}
    (hret : ∀ off im,returned=some (off,im) → ∀ i < im.size,im.byte i=s.logical.byte (off+i)) :
    StreamInv {s with reads := reads, handles := handles, returned := returned} := by
  refine ⟨{h.content with},{h.routing with handles := hhandles, reads := hreads},?_,hret,h.live⟩
  exact same h.task rfl rfl rfl rfl rfl rfl rfl

lemma inodeAt_copy (h : StreamInv s) {path : DestPath} (hreal : path=.real → s.published=true)
    (hd : s.inodeAt path=some d) : s.copy=some d := by
  cases path with
  | real => simpa [copy,inodeAt,hreal rfl] using hd
  | temp =>
    cases hp : s.published with
    | true =>
      rw [inodeAt,h.routing.temp hp] at hd
      cases hd
    | false => simpa [copy,inodeAt,hp] using hd

lemma writeBelowPunched (h : StreamInv s) (hopen : s.entry.closed=false) {c : WriteCall} {fail : Option ℕ}
    (hoff : c.off<s.entry.punchedEnd) (hfail : fail.all (· = 0)) (hret : s.returned=none) :
    StreamInv (s.writeBelowPunched c fail) := by
  unfold StreamState.writeBelowPunched
  have hs : StreamInv s.spoilHash := h.client s.calls false
  split
  · exact h
  · exact hs
  rename_i d hdest
  obtain ⟨path,hpath,hd⟩ := map_eq_some_iff.mp hdest
  have hcopy : s.copy=some d := h.inodeAt_copy (fun hp => h.routing.real (hp ▸ hpath)) hd
  have hbelow : c.off+(c.data.take (s.entry.punchedEnd-c.off)).size ≤ s.entry.punchedEnd := by
    have : (c.data.take (s.entry.punchedEnd-c.off)).size ≤ s.entry.punchedEnd-c.off := min_le_left _ _
    omega
  cases fail with
  | some n =>
    obtain rfl : n=0 := by simpa using hfail
    have hnil : (s.inodes d).writeAt ((c.data.take (s.entry.punchedEnd-c.off)).take 0) c.off=s.inodes d :=
      writeAt_nil (Nat.zero_min _) (hoff.le.trans (h.content.dest d hcopy).1)
    have hsame : s.spoilHash.setInode d (s.inodes d)=s.spoilHash := by
      simp [StreamState.setInode,StreamState.spoilHash]
    simp only [hnil,hsame]
    exact hs
  | none => exact (hs.below hopen hcopy hbelow hret).calls _

lemma writeSpool (h : StreamInv s) (hopen : s.entry.closed=false) {c : WriteCall} {fail : Option ℕ}
    (hpunched : s.entry.punchedEnd≤c.off) (hchunk : s.chunkEnd≤c.off) (hret : s.returned=none) :
    StreamInv (s.writeSpool c fail) := by
  simp only [StreamState.writeSpool]
  split
  · exact h
  · exact h.wrote hopen hpunched hchunk hret

lemma served (h : StreamInv s) {handle off count : ℕ} {active double : Bool}
    (hstep : clientStep s (.read handle off count active double)=some t) (hret : s.returned=none) : StreamInv t := by
  have hnone : ∀ off im,s.returned=some (off,im) → ∀ i < im.size,im.byte i=s.logical.byte (off+i) :=
    readOk_none hret
  simp only [clientStep] at hstep
  split at hstep
  · rename_i hplan
    have hlt : off<s.entry.punchedEnd := by
      by_contra hge
      simp only [planReadAt,hge,if_false] at hplan
      split at hplan
      · cases hplan
      · split at hplan <;> cases hplan
    split at hstep
    · cases hstep
      exact h
    rename_i path hpath
    cases hstep
    refine h.reading (fun r hr => ?_) h.routing.handles hnone
    obtain hr | rfl := List.mem_append.mp hr |>.imp_right List.mem_singleton.mp
    · exact h.routing.reads r hr
    · exact ⟨by dsimp only; omega,fun hp => h.routing.real (by rw [hpath]; exact congrArg some hp)⟩
  · rename_i hplan
    have hge : s.entry.punchedEnd≤off := by
      by_contra hlt
      simp [planReadAt,show off<s.entry.punchedEnd by omega] at hplan
    cases hstep
    refine h.reading h.routing.reads h.routing.handles ?_
    intro off' im hr i hi
    cases hr
    rw [slice_byte hi]
    exact h.content.spool _ (by omega)
  · cases hstep
    exact h
  · cases hstep
    exact h

lemma servedDest (h : StreamInv s) {k : ℕ} (hstep : clientStep s (.readDest k)=some t) (hret : s.returned=none) :
    StreamInv t := by
  have hnone : ∀ off im,s.returned=some (off,im) → ∀ i < im.size,im.byte i=s.logical.byte (off+i) :=
    readOk_none hret
  simp only [clientStep] at hstep
  split at hstep
  · cases hstep
  rename_i r hr
  obtain ⟨hend,hreal⟩ := h.routing.reads r (List.mem_of_getElem? hr)
  have hreads : ∀ q∈s.reads.eraseIdx k,q.off+q.count ≤ s.entry.punchedEnd ∧ (q.path=.real → s.published=true) :=
    fun q hq => h.routing.reads q ((List.eraseIdx_sublist _ _).subset hq)
  split at hstep
  · cases hstep
    exact h.reading hreads h.routing.handles hnone
  rename_i d hd
  have hcopy : s.copy=some d := by
    obtain hd | ⟨_,hd⟩ := or_eq_some_iff.mp hd
    · exact h.routing.handles _ d hd
    · exact h.inodeAt_copy hreal hd
  have hhandles : ∀ j d',Function.update s.handles r.handle (some d) j=some d' → s.copy=some d' := by
    intro j d' hj
    rw [Function.update_apply] at hj
    split at hj
    · cases hj
      exact hcopy
    · exact h.routing.handles j d' hj
  split at hstep
  · cases hstep
    exact h.reading hreads hhandles hnone
  cases hstep
  refine h.reading hreads hhandles ?_
  intro off im hr i hi
  cases hr
  rw [slice_byte hi]
  exact (h.content.dest d hcopy).2.2 _ (lt_of_lt_of_le (by simpa using hi) hend)

lemma clientStep (h : StreamInv s) (hret : s.returned=none) (hok : undisturbed s a=true)
    (hstep : Nfs.clientStep s a=some t) : StreamInv t := by
  cases a with simp only [Nfs.clientStep] at hstep
  | writeAt p off =>
    split at hstep <;> cases hstep
    · exact h
    · exact h.calls _
  | enter k room fail =>
    split at hstep
    · cases hstep
    rename_i c hc
    split at hstep
    · cases hstep
    have hs := h.calls (s.calls.eraseIdx k)
    split at hstep
    · cases hstep
      exact hs
    rename_i hopen
    simp only [Bool.not_eq_true] at hopen
    simp only [undisturbed,hc,hopen,Bool.false_or] at hok
    split at hstep
    · rename_i hbelow
      rw [if_pos hbelow] at hok
      cases hstep
      exact hs.writeBelowPunched hopen hbelow.2 hok hret
    rename_i hbelow
    rw [if_neg hbelow] at hok
    split at hstep
    · cases hstep
      exact h.calls _
    rename_i hroom
    cases hstep
    refine hs.writeSpool hopen (by dsimp only; omega) ?_ hret
    simp only [Bool.or_eq_true,Bool.and_eq_true,decide_eq_true_eq] at hok
    exact hok.resolve_left hroom
  | resume k fail =>
    split at hstep
    · cases hstep
    rename_i c hc
    split at hstep
    · cases hstep
    have hs := h.calls (s.calls.eraseIdx k)
    split at hstep
    · cases hstep
      exact hs
    rename_i hopen
    simp only [Bool.not_eq_true] at hopen
    simp only [undisturbed,hc,hopen,Bool.false_or,Bool.and_eq_true,decide_eq_true_eq] at hok
    cases hstep
    exact hs.writeSpool hopen hok.1 hok.2 hret
  | giveUp k =>
    split at hstep
    · cases hstep
    split at hstep <;> cases hstep
    exact h.calls _
  | truncate size ok =>
    split at hstep
    · cases hstep
      exact h
    rename_i hopen
    simp only [Bool.or_eq_true,not_or,Bool.not_eq_true] at hopen
    simp only [undisturbed,hopen.1,Bool.false_or,Bool.and_eq_true,decide_eq_true_eq] at hok
    cases hstep
    exact h.truncate hopen.1 hok.1 hok.2 hret
  | finalize =>
    cases hstep
    exact h.finalize
  | read handle off count active double => exact h.served hstep hret
  | readDest k => exact h.servedDest hstep hret
  | _ => cases hstep

lemma retask (h : StreamInv s) {σ : Option ℕ} (hσ : ∀ d,σ=some d → s.session=some d) {n : ℕ}
    (hlive : τ=.renamed ∨ s.published=false ∨ σ=none) (hfit : TaskFits {s with session := σ} τ) :
    StreamInv {s with session := σ, task := τ, persisted := n} := by
  exact ⟨{h.content with},{h.routing with session := fun d hd => h.routing.session d (hσ d hd)},
    same hfit rfl rfl rfl rfl rfl rfl rfl,h.read,hlive⟩

lemma writeSession_session : (s.writeSession p off).session=s.session := by
  unfold writeSession
  split <;> rfl

lemma writeSession_eq (hd : s.session=some d) : s.writeSession p off=s.setInode d ((s.inodes d).writeAt p off) := by
  simp [writeSession,hd]

lemma writeSession (h : StreamInv s) (hpub : s.published=false)
    (hlo : s.entry.punchedEnd≤off) (hhi : off+p.size ≤ s.entry.writtenEnd) {σ : Option ℕ}
    (hσ : ∀ d,σ=some d → s.session=some d)
    (hfit : TaskFits {s.writeSession p off with session := σ} τ) :
    StreamInv {s.writeSession p off with session := σ, task := τ} := by
  cases hsession : s.session with
  | none =>
    have hsame : s.writeSession p off=s := by simp [StreamState.writeSession,hsession]
    rw [hsame] at hfit ⊢
    exact h.retask hσ (.inr (.inl hpub)) hfit
  | some d =>
    rw [writeSession_eq hsession] at hfit ⊢
    have hc := h.content
    have hcopy := h.routing.session d hsession
    refine ⟨⟨hc.fileSize,hc.logicalSize,hc.spool,hc.within,?_,hc.copied,fun hp => ?_⟩,{h.routing with session := fun d hd => h.routing.session d (hσ d hd)},
      same hfit rfl rfl rfl rfl rfl rfl rfl,h.read,.inr (.inl hpub)⟩
    · intro d' hd'
      obtain rfl : d=d' := Option.some.inj (hcopy.symm.trans hd')
      obtain ⟨hl,hu,hbytes⟩ := hc.dest d hcopy
      simp only [StreamState.setInode,Function.update_self,writeAt_size]
      refine ⟨hl.trans (le_max_left _ _),max_le hu hhi,fun i hi => ?_⟩
      rw [writeAt_outside (.inl (lt_of_lt_of_le hi hlo))]
      exact hbytes i hi
    · exact nomatch hpub.symm.trans hp

lemma openSession (h : StreamInv s) (hpub : s.published=false) (hτ : τ=.stepping) :
    StreamInv {s.openSession with task := τ} := by
  subst hτ
  have hc := h.content
  cases hsession : s.session with
  | some d =>
    have hsame : s.openSession=s := by simp [openSession,hsession]
    rw [hsame]
    exact h.retask (n := s.persisted) (fun _ hd => hd) (.inr (.inl hpub)) (by simp [TaskFits,hsession])
  | none =>
    cases htemp : s.temp with
    | some d =>
      have hcopy : s.copy=some d := by simp [copy,hpub,htemp]
      have hopen : s.openSession =
          {s with entry := {s.entry with streamDest := some .temp}, session := some d} := by
        simp [openSession,hsession,htemp]
      rw [hopen]
      refine ⟨{h.content with},⟨by simp,h.routing.temp,
        h.routing.handles,h.routing.reads,fun d' hd' => ?_⟩,by simp [TaskFits],h.read,.inr (.inl hpub)⟩
      cases hd'
      exact hcopy
    | none =>
      -- nothing is streamed yet, so the empty partial has all there is to have
      have hcopy : s.copy=none := by simp [copy,hpub,htemp]
      have hzero : s.entry.punchedEnd=0 := by
        by_contra hne
        exact hc.copied (Nat.pos_of_ne_zero hne) hcopy
      have hopen : s.openSession = {s.setInode s.next .empty with
          entry := {s.entry with streamDest := some .temp}, temp := some s.next, session := some s.next,
          next := s.next+1} := by
        simp [openSession,hsession,htemp,setInode]
      have hnew : copy {s.setInode s.next .empty with
          entry := {s.entry with streamDest := some .temp}, temp := some s.next, session := some s.next,
          next := s.next+1, task := .stepping} = some s.next := by
        simp [copy,setInode,hpub]
      rw [hopen]
      refine ⟨⟨hc.fileSize,hc.logicalSize,hc.spool,hc.within,fun d hd => ?_,fun _ => ?_,fun hp => ?_⟩,⟨by simp,fun hp => ?_,
        fun k d hd => ?_,h.routing.reads,fun d hd => ?_⟩,by simp [TaskFits],h.read,.inr (.inl hpub)⟩
      · obtain rfl : s.next=d := Option.some.inj (hnew.symm.trans hd)
        simp [setInode,hzero,empty]
      · exact fun hn => some_ne_none _ (hnew.symm.trans hn)
      · exact absurd (hpub.symm.trans hp) Bool.false_ne_true
      · exact absurd (hpub.symm.trans hp) Bool.false_ne_true
      · have := h.routing.handles k d hd
        rw [hcopy] at this
        cases this
      · cases hd
        exact hnew

lemma unpublished (h : StreamInv s) (hsession : s.session≠none) (htask : s.task≠.renamed) : s.published=false :=
  (h.live.resolve_left htask).resolve_right hsession

lemma move (h : StreamInv s) (htask : s.task≠.renamed) (hfit : TaskFits s τ) :
    StreamInv {s with task := τ} :=
  h.retask (n := s.persisted) (fun _ hd => hd) (.inr (h.live.resolve_left htask)) hfit

lemma nextStage {stage stage' : ChunkStage} {start : ℕ} {buf : Image} (h : TaskFits s (.advance stage start buf))
    (hstage : stage≠.read) : TaskFits s (.advance stage' start buf) :=
  ⟨h.1,h.2.1,h.2.2.1,h.2.2.2.1,fun _ => h.2.2.2.2 hstage⟩

lemma giveUp (h : StreamInv s) : StreamInv {s with session := none, task := .idle} :=
  h.retask (σ := none) (n := s.persisted) nofun (.inr (.inr rfl)) trivial

lemma publishEnd (h : StreamInv s) {start : ℕ} {buf : Image} (htask : s.task=.advance .persisted start buf) :
    StreamInv {s with
      entry := {s.entry with punchedEnd := max s.entry.punchedEnd (start+buf.size)}
      task := .punching start (start+buf.size)} := by
  have hc := h.content
  have hfit := h.task
  rw [htask] at hfit
  obtain ⟨hsession,hstart,hend,hlogical,hdest⟩ := hfit
  obtain ⟨d,hd⟩ := ne_none_iff_exists'.mp hsession
  obtain ⟨hsize,hbytes⟩ := hdest nofun d hd
  have hcopy := h.routing.session d hd
  have hnew : max s.entry.punchedEnd (start+buf.size)=start+buf.size := by omega
  simp only [hnew]
  refine ⟨⟨hc.fileSize,hc.logicalSize,fun i hi => ?_,hend,fun d' hd' => ?_,fun _ => ?_,hc.whole⟩,⟨h.routing.real,
    h.routing.temp,h.routing.handles,fun r hr => ?_,h.routing.session⟩,?_,h.read,?_⟩
  · exact hc.spool i (by dsimp only at hi; omega)
  · obtain rfl : d=d' := Option.some.inj (hcopy.symm.trans hd')
    refine ⟨hsize,(hc.dest d hcopy).2.1,fun i hi => ?_⟩
    by_cases hold : i<s.entry.punchedEnd
    · exact (hc.dest d hcopy).2.2 i hold
    · obtain ⟨j,rfl⟩ : ∃ j,i=start+j := ⟨i-start,by omega⟩
      have hj : j<buf.size := by
        dsimp only at hi
        omega
      exact (hbytes j hj).trans (hlogical j hj)
  · exact fun hn => some_ne_none d (hcopy.symm.trans hn)
  · obtain ⟨hr,hreal⟩ := h.routing.reads r hr
    exact ⟨by dsimp only; omega,hreal⟩
  · exact le_rfl
  · exact .inr (.inl (h.unpublished hsession (by simp [htask])))

lemma punch (h : StreamInv s) {start sealed : ℕ} (htask : s.task=.punching start sealed) :
    StreamInv {s with entry := {s.entry with file := punchRange cfg s.entry.file start sealed}, task := .idle} := by
  have hc := h.content
  have hle : sealed ≤ s.entry.punchedEnd := by
    have hfit := h.task
    rw [htask] at hfit
    exact hfit
  have hfile : (punchRange cfg s.entry.file start sealed).size=s.entry.file.size ∧
      ∀ i,sealed ≤ i → (punchRange cfg s.entry.file start sealed).byte i=s.entry.file.byte i := by
    simp only [punchRange]
    split
    · exact ⟨rfl,fun _ _ => rfl⟩
    · refine ⟨rfl,fun i hi => punch_byte ?_⟩
      exact (Nat.div_mul_le_self _ _).trans hi
  refine ⟨⟨hfile.1.trans hc.fileSize,hc.logicalSize,fun i hi => ?_,hc.within,hc.dest,hc.copied,hc.whole⟩,
    {h.routing with},trivial,h.read,?_⟩
  · exact (hfile.2 i (hle.trans hi)).trans (hc.spool i hi)
  · obtain hl | hl := h.live
    · rw [htask] at hl
      cases hl
    · exact .inr hl

lemma rename (h : StreamInv s) (htask : s.task=.publishing) :
    StreamInv {s with real := s.temp, temp := none, published := true, task := .renamed} := by
  have hc := h.content
  have hfit := h.task
  rw [htask] at hfit
  obtain ⟨hclosed,d,hd,hwhole⟩ := hfit
  have hpub := h.unpublished (by simp [hd]) (by simp [htask])
  have hcopy : s.copy=s.temp := by simp [copy,hpub]
  have hnew : copy {s with real := s.temp, temp := none, published := true, task := .renamed} = s.copy :=
    hcopy.symm
  have htemp := h.routing.session d hd
  refine ⟨⟨hc.fileSize,hc.logicalSize,hc.spool,hc.within,?_,?_,fun _ => ⟨hclosed,d,?_,hwhole⟩⟩,⟨fun _ => rfl,fun _ => rfl,
    ?_,fun r hr => ⟨(h.routing.reads r hr).1,fun _ => rfl⟩,?_⟩,rfl,h.read,.inl rfl⟩
  · rw [hnew]
    exact hc.dest
  · rw [hnew]
    exact hc.copied
  · exact hcopy ▸ htemp
  · rw [hnew]
    exact h.routing.handles
  · rw [hnew]
    exact h.routing.session

lemma repoint (h : StreamInv s) (htask : s.task=.renamed) :
    StreamInv {s with entry := {s.entry with streamDest := some .real}, session := none, task := .idle} := by
  have hpub : s.published=true := by
    have hfit := h.task
    rw [htask] at hfit
    exact hfit
  exact ⟨{h.content with},{h.routing with real := fun _ => hpub, session := nofun},trivial,h.read,.inr (.inr rfl)⟩

lemma drainStep (h : StreamInv s) (hok : undisturbed s a=true) (hstep : Nfs.drainStep cfg s a=some t) : StreamInv t := by
  have hc := h.content
  have hfit := h.task
  simp only [Nfs.drainStep] at hstep
  split at hstep
  -- tick
  · rename_i htask
    split at hstep
    · rename_i hfinish
      simp only [Bool.and_eq_true,isSome_iff_ne_none] at hfinish
      cases hstep
      exact h.move (by simp [htask]) ⟨hfinish.2,hfinish.1⟩
    split at hstep <;> cases hstep
    · have := h.giveUp
      rw [← htask] at this
      exact this
    · exact h.move (by simp [htask]) trivial
  -- openSession
  · rename_i ok htask
    split at hstep <;> cases hstep
    · refine h.openSession ?_ rfl
      simp only [undisturbed,Bool.or_eq_true,Bool.not_eq_true',isSome_iff_ne_none] at hok
      obtain hsome | hpub := hok
      · exact h.unpublished hsome (by simp [htask])
      · exact hpub
    · exact h.move (by simp [htask]) trivial
  -- recheck
  · rename_i htask
    rw [htask] at hfit
    split at hstep <;> cases hstep
    · exact h.move (by simp [htask]) trivial
    · exact h.move (by simp [htask]) hfit
  -- sealChunk
  · rename_i htask
    rw [htask] at hfit
    split at hstep <;> cases hstep
    · exact h.move (by simp [htask]) trivial
    · exact h.move (by simp [htask]) ⟨hfit,rfl⟩
  -- readChunk
  · rename_i start sealed htask
    rw [htask] at hfit
    split at hstep <;> cases hstep
    · exact h.move (by simp [htask]) trivial
    rename_i hsize
    refine h.move (by simp [htask]) ⟨hfit.1,hfit.2,?_,fun i hi => ?_,fun hstage => absurd rfl hstage⟩
    · have := hc.fileSize
      have := hc.within
      have := hfit.2
      simp only [slice_size]
      omega
    · rw [slice_byte hi]
      exact hc.spool _ (by have := hfit.2; omega)
  -- writeChunk
  · rename_i start buf fail htask
    rw [htask] at hfit
    obtain ⟨hsession,hstart,hend,hlogical,_⟩ := hfit
    have hpub := h.unpublished hsession (by simp [htask])
    split at hstep <;> cases hstep
    · rename_i n
      have htake : (buf.take n).size≤buf.size := min_le_right _ _
      exact h.writeSession hpub (by omega) (by omega) (fun _ hd => writeSession_session ▸ hd) trivial
    refine h.writeSession hpub (by omega) hend (fun _ hd => writeSession_session ▸ hd) ?_
    obtain ⟨d,hd⟩ := ne_none_iff_exists'.mp hsession
    rw [writeSession_eq hd]
    refine ⟨hsession,hstart,hend,hlogical,fun _ d' hd' => ?_⟩
    obtain rfl : d=d' := Option.some.inj (hd.symm.trans hd')
    simp only [setInode,Function.update_self]
    exact ⟨le_max_right _ _,fun i hi => writeAt_inside hi⟩
  -- syncChunk
  · rename_i start buf ok htask
    rw [htask] at hfit
    cases hstep
    split
    · exact h.move (by simp [htask]) (nextStage hfit nofun)
    · exact h.move (by simp [htask]) trivial
  -- verifyChunk
  · rename_i start buf ok htask
    rw [htask] at hfit
    cases hstep
    split
    · exact h.move (by simp [htask]) (nextStage hfit nofun)
    · exact h.move (by simp [htask]) trivial
  -- persistEnd
  · rename_i start buf ok htask
    rw [htask] at hfit
    split at hstep <;> cases hstep
    · exact h.retask (fun _ hd => hd) (.inr (h.live.resolve_left (by simp [htask]))) (nextStage hfit nofun)
    · exact h.move (by simp [htask]) trivial
  -- publishEnd
  · rename_i start buf htask
    cases hstep
    exact h.publishEnd htask
  -- punch
  · rename_i start sealed ok htask
    split at hstep <;> cases hstep
    · exact h.punch htask
    · exact h.move (by simp [htask]) trivial
  -- finishRead
  · rename_i htask
    rw [htask] at hfit
    obtain ⟨hclosed,hsession⟩ := hfit
    split at hstep
    · rename_i hend
      cases hstep
      -- nothing above the boundary: the copy is the file
      refine h.move (by simp [htask]) ⟨hclosed,?_⟩
      obtain ⟨d,hd⟩ := ne_none_iff_exists'.mp hsession
      have hcopy := h.routing.session d hd
      obtain ⟨hlo,hhi,hbytes⟩ := hc.dest d hcopy
      have := hc.logicalSize
      refine ⟨d,hd,eq_of_agree (by omega) fun i hi => hbytes i (by omega)⟩
    split at hstep <;> cases hstep
    · exact h.giveUp
    rename_i hend hsize
    refine h.move (by simp [htask]) ⟨hclosed,hsession,rfl,?_,fun i hi => ?_⟩
    · simp only [slice_size]
      omega
    · rw [slice_byte hi]
      exact hc.spool _ (by omega)
  -- writeTail
  · rename_i start buf fail htask
    rw [htask] at hfit
    obtain ⟨hclosed,hsession,hstart,hend,hlogical⟩ := hfit
    have hpub := h.unpublished hsession (by simp [htask])
    split at hstep <;> cases hstep
    · rename_i n
      have htake : (buf.take n).size≤buf.size := min_le_right _ _
      exact h.writeSession (σ := none) hpub (by omega) (by omega) nofun trivial
    refine h.writeSession hpub (by omega) hend.le (fun _ hd => writeSession_session ▸ hd) ?_
    obtain ⟨d,hd⟩ := ne_none_iff_exists'.mp hsession
    obtain ⟨hlo,hhi,hbytes⟩ := hc.dest d (h.routing.session d hd)
    rw [writeSession_eq hd]
    refine ⟨hclosed,d,hd,?_⟩
    simp only [setInode,Function.update_self]
    have := hc.logicalSize
    refine eq_of_agree (by simp only [writeAt_size]; omega) fun i hi => ?_
    simp only [writeAt_size] at hi
    by_cases hold : i<start
    · rw [writeAt_outside (.inl hold)]
      exact hbytes i (by omega)
    · obtain ⟨j,rfl⟩ : ∃ j,i=start+j := ⟨i-start,by omega⟩
      rw [writeAt_inside (by omega)]
      exact hlogical j (by omega)
  -- syncTail
  · rename_i ok htask
    rw [htask] at hfit
    split at hstep <;> cases hstep
    · exact h.move (by simp [htask]) hfit
    · exact h.giveUp
  -- rename
  · rename_i ok htask
    split at hstep <;> cases hstep
    · exact h.giveUp
    · exact h.rename htask
  -- repoint
  · rename_i htask
    cases hstep
    exact h.repoint htask
  · cases hstep

lemma step (h : StreamInv s) (hok : undisturbed s a=true) (hstep : streamStep cfg s a=some t) : StreamInv t := by
  have hreset : StreamInv {s with returned := none} :=
    ⟨{h.content with},{h.routing with},same h.task rfl rfl rfl rfl rfl rfl rfl,
      readOk_none rfl,h.live⟩
  have hok' : undisturbed {s with returned := none} a=true := by
    cases a <;> exact hok
  obtain hclient | ⟨_,hdrain⟩ := or_eq_some_iff.mp hstep
  · exact hreset.clientStep rfl hok' hclient
  · exact hreset.drainStep hok' hdrain

lemma start (inodes : ℕ → Image) (next : ℕ) (real : Option ℕ) : StreamInv (newEntry inodes next real) := by
  refine ⟨⟨rfl,rfl,fun _ _ => rfl,le_rfl,?_,?_,?_⟩,⟨?_,?_,?_,?_,?_⟩,trivial,readOk_none rfl,.inr (.inl rfl)⟩ <;>
    simp [newEntry,copy]

end StreamInv

/-- In every run whose steps keep to what the stream has done, every byte handed to a reader is that
of the acknowledged writes and truncates, and a published file is that file as a whole. -/
theorem stream_loses_no_write (cfg : StreamCfg) (inodes : ℕ → Image) (next : ℕ) (real : Option ℕ) {t : StreamState}
    {as : List StreamAction}
    (hsafe : AllSteps (streamStep cfg) (fun s a => undisturbed s a = true) (newEntry inodes next real) as)
    (hrun : run (streamStep cfg) (newEntry inodes next real) as = some t) :
    (∀ off im,t.returned = some (off,im) → ∀ i < im.size,im.byte i = t.logical.byte (off+i)) ∧
    (t.published = true → ∃ d,t.real = some d ∧ t.inodes d = t.logical) := by
  have hinv : StreamInv t := run_invariant_of_allSteps (fun _ _ _ h hok hstep => StreamInv.step h hok hstep)
    (StreamInv.start inodes next real) hsafe hrun
  exact ⟨hinv.read,fun hp => (hinv.content.whole hp).2⟩

def writeGiB : List StreamAction := [.writeAt (.fill (2^30) 1) 0,.enter 0 true none]

def readChunk : List StreamAction := [.tick,.openSession true,.recheck,.sealChunk,.readChunk]

def storeChunk : List StreamAction :=
  [.writeChunk none,.syncChunk true,.verifyChunk true,.persistEnd true,.publishEnd,.punch true]

def finishFile : List StreamAction :=
  [.finalize,.tick,.finishRead,.writeTail none,.syncTail true,.rename true,.repoint]

/-- Byte 100, through the destination. -/
def readBack : List StreamAction := [.read 0 100 1 true false,.readDest 0]

def emptyBackend : StreamState := newEntry (fun _ => .empty) 0 none

/-- A streamed gibibyte is published whole and read back. -/
theorem gib_streams_through : ∃ t,run (streamStep {}) emptyBackend (writeGiB++readChunk++storeChunk++finishFile++readBack)
      = some t ∧ (∃ im,t.returned = some (100,im) ∧ im.size = 1 ∧ im.byte 0 = t.logical.byte 100) ∧
    t.logical.byte 100 = 1 ∧ ∃ d,t.real = some d ∧ t.inodes d = t.logical := by
  obtain ⟨t,ht,hobs⟩ := map_eq_some_iff.mp (show
    (run (streamStep {}) emptyBackend (writeGiB++readChunk++storeChunk++finishFile++readBack)).map
      (fun t => (t.published,t.logical.byte 100,t.returned.map (fun r => (r.1,r.2.size)))) =
      some (true,1,some (100,1)) by decide +kernel)
  simp only [Prod.mk.injEq,map_eq_some_iff] at hobs
  obtain ⟨hpub,hbyte,⟨off,im⟩,hret,rfl,hsize⟩ := hobs
  obtain ⟨hread,hwhole⟩ := stream_loses_no_write {} (fun _ => .empty) 0 none (allSteps_of_check (show checkSteps
    (streamStep {}) undisturbed emptyBackend (writeGiB++readChunk++storeChunk++finishFile++readBack)=true
    by decide +kernel)) ht
  exact ⟨t,ht,⟨im,hret,hsize,hread 100 im hret 0 (hsize ▸ Nat.one_pos)⟩,hbyte,hwhole hpub⟩

/-- Byte 100 as read, as it was last written, and the sizes of the published and of the written file. -/
def observed (t : StreamState) : Option UInt8 × UInt8 × Option ℕ × ℕ :=
  (t.returned.map (·.2.byte 0),t.logical.byte 100,t.real.map (fun d => (t.inodes d).size),t.logical.size)

/-- Lost: a rewrite of a chunk that was read and is not published; a write that waited for capacity while the
boundary passed it. A truncate below the boundary is published at the old size. A rewrite whose
fsync failed is read; after the file is published, the next session routes readers at an
empty partial. -/
theorem streamed_writes_lost :
    (run (streamStep {}) emptyBackend (writeGiB++readChunk++[.writeAt (.fill 1 2) 100,.enter 0 true none]++
      storeChunk++readBack)).map observed = some (some 1,2,none,2^30) ∧
    (run (streamStep {}) emptyBackend ([.writeAt (.fill 1 2) 100,.enter 0 false none,
      .writeAt (.fill (2^30) 1) 0,.enter 1 true none]++readChunk++storeChunk++[.resume 0 none]++readBack)).map
      observed = some (some 1,2,none,2^30) ∧
    (run (streamStep {}) emptyBackend (writeGiB++readChunk++storeChunk++[.truncate 10 true,.finalize,.tick,
      .finishRead,.rename true,.repoint])).map observed = some (none,0,some (2^25),10) ∧
    (run (streamStep {}) emptyBackend (writeGiB++readChunk++storeChunk++[.writeAt (.fill 1 2) 100,
      .enter 0 true (some 1)]++readBack)).map observed = some (some 2,1,none,2^30) ∧
    (run (streamStep {}) emptyBackend (writeGiB++readChunk++storeChunk++finishFile++readChunk++[.writeChunk none]++
      readBack)).map observed = some (some 0,1,some (2^30),2^30) := by
  refine ⟨?_,?_,?_,?_,?_⟩ <;> decide +kernel

end JuiceMount.Nfs
