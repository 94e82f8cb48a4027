import JuiceMount.Nfs.ProjectLease

/-! The boundary a foreign tenure leaves: as long as the proxy still reports it, or the GRANTED reply
that reports it is on its way, or the client has recorded it, no foreign tenure is forgotten. -/
namespace JuiceMount.Nfs
open RespProxy Transition List GoMap Option

/-- The boundary that a GRANTED reply with foreign_since carries. -/
def LeaseRpc.boundary : LeaseRpc → Option ℕ
  | .acquired _ _ (some r) => if r.foreignSince && r.status=.granted then some r.epoch else none
  | _ => none

def ForeignBefore (me : Principal) (tenures : List (String × ℕ)) (n : ℕ) : Prop :=
  ∀ t∈tenures,t.1≠me.name → t.2<n

/-- A step of the proxy that begins no tenure. -/
structure LeaseKept (l l' : Lease) : Prop where
  hist : l'.hist=l.hist
  epoch : l.epoch≤l'.epoch
  held : l'.held=true → l.held=true

lemma LeaseKept.refl (l : Lease) : LeaseKept l l := ⟨rfl,le_rfl,id⟩

/-- What a step of the proxy for the principal does to the lease. -/
inductive LeaseMove (p : Principal) (l l' : Lease) : Prop
  | same (kept : LeaseKept l l')
  | grant (free : l.held=false) (hist : l'.hist = l.hist.set p.name l'.epoch) (epoch : l.epoch<l'.epoch)
      (holder : l'.holder=p.name)

section Moves
variable {l : Lease} {p : Principal} {mode : LeaseMode} {ttl now : ℤ} {i : GrantInput}

lemma renewedLease_hist {checkoutMax : ℤ} : (renewedLease l now checkoutMax mode ttl).hist=l.hist := by
  unfold renewedLease
  split <;> rfl

lemma lt_transitionEpoch {counter : ℕ} : l.epoch<transitionEpoch .grant l counter := by
  simp only [transitionEpoch]
  split <;> omega

lemma grantLocked_free (hres : l.unresolved=false) (hfree : l.held=false) :
    grantLocked l p mode ttl i=(grantLockedEnd .grant p (grantedLease l p i.now mode ttl i.label)
      (transitionEpoch .grant l i.counter),l.foreignSince p.name) := by
  simp [grantLocked,grantLockedStart,hres,hfree]

lemma grantLocked_cases (l : Lease) (p : Principal) (mode : LeaseMode) (ttl : ℤ) (i : GrantInput) :
    (l.unresolved=true ∨ l.held=true) ∧ (grantLocked l p mode ttl i).1.hist=l.hist ∧
      (grantLocked l p mode ttl i).1.epoch=l.epoch ∧ (grantLocked l p mode ttl i).1.held=l.held ∨
    l.unresolved=false ∧ l.held=false ∧
      grantLocked l p mode ttl i=(grantLockedEnd .grant p (grantedLease l p i.now mode ttl i.label)
        (transitionEpoch .grant l i.counter),l.foreignSince p.name) := by
  cases hres : l.unresolved with
  | true => exact .inl (by simp [grantLocked,grantLockedStart,hres])
  | false =>
    cases hheld : l.held with
    | false => exact .inr ⟨rfl,rfl,grantLocked_free hres hheld⟩
    | true =>
      refine .inl ⟨.inr rfl,?_⟩
      by_cases hmine : l.holder=p.name
      · have hsend : grantLocked l p mode ttl i=(grantLockedEnd .renew p
            (renewedLease l i.now i.checkoutMax mode ttl) l.epoch,l.foreignSince p.name) := by
          simp [grantLocked,grantLockedStart,hres,hheld,hmine,transitionEpoch]
        have hholder : (renewedLease l i.now i.checkoutMax mode ttl).holder=l.holder :=
          (renewedLease_identity l i.now i.checkoutMax mode ttl).1
        rw [hsend]
        refine ⟨by simp [grantLockedEnd,renewedLease_hist],rfl,?_⟩
        simpa [grantLockedEnd,Lease.held,hholder] using hheld
      · simp [grantLocked,grantLockedStart,hres,hheld,hmine]

lemma grantLocked_move (l : Lease) (p : Principal) (mode : LeaseMode) (ttl : ℤ) (i : GrantInput) :
    LeaseMove p l (grantLocked l p mode ttl i).1 := by
  obtain ⟨_,hhist,hepoch,hheld⟩ | ⟨_,hfree,heq⟩ := grantLocked_cases l p mode ttl i
  · exact .same ⟨hhist,hepoch.ge,fun h => hheld ▸ h⟩
  · rw [heq]
    exact .grant hfree (by simp [grantLockedEnd,grantedLease]) lt_transitionEpoch rfl

lemma endLocked_kept (l : Lease) (now : ℤ) : LeaseKept l (endLocked l now) := by
  simp only [endLocked,endLockedStart]
  split
  · rename_i next hsend
    split_ifs at hsend
    cases hsend
    refine ⟨rfl,?_,fun h => by simp [endLockedEnd,Lease.held] at h⟩
    simp only [endLockedEnd,transitionEpoch]
    split <;> omega
  · exact .refl l

lemma cmdAcquire_move (l : Lease) (p : Principal) (mode : LeaseMode) (ttl : ℤ) (i : GrantInput) :
    LeaseMove p l (cmdAcquire l p mode ttl i).1 := by
  unfold cmdAcquire
  split
  · exact .same (.refl l)
  · exact grantLocked_move l p mode ttl i

lemma cmdHeartbeat_kept (l : Lease) (p : Principal) (pending : Bool) (now : ℤ) :
    LeaseKept l (cmdHeartbeat l p pending now).1 := by
  unfold cmdHeartbeat
  split
  · split
    · exact .refl l
    · unfold heartbeatLease
      split
      · exact .refl l
      · exact ⟨rfl,le_rfl,id⟩
  · exact .refl l

lemma cmdRelease_kept (l : Lease) (p : Principal) (epoch : ℕ) (now : ℤ) : LeaseKept l (cmdRelease l p epoch now).1 := by
  unfold cmdRelease
  split
  · exact .refl l
  split
  · exact .refl l
  split
  · exact .refl l
  · exact endLocked_kept l now

end Moves

/-- What the proxy keeps of the tenures. -/
structure HistInv (l : Lease) (tenures : List (String × ℕ)) : Prop where
  hist : ∀ q e,l.hist.get? q=some e → e≤l.epoch
  tenures : ∀ t∈tenures,t.2≤l.epoch ∧ ∃ e,l.hist.get? t.1=some e ∧ t.2≤e

def Known (me : Principal) (s : LeaseClientState) : Prop :=
  s.lease.foreignSince me.name=true ∨ ForeignBefore me s.tenures s.client.foreignBefore ∨
    ∃ c∈s.calls,∃ n,c.boundary=some n ∧ ForeignBefore me s.tenures n

structure TenureInv (me : Principal) (s : LeaseClientState) : Prop where
  proxy : HistInv s.lease s.tenures
  known : Known me s

/-- A decision with the lease held has a boundary after every foreign tenure. -/
def DecisionOk (me : Principal) (s : LeaseClientState) : Prop :=
  ∀ d,s.decided=some d → d.held=true → ForeignBefore me s.tenures d.foreignBefore

section Proxy
variable {s : LeaseClientState} {l : Lease} {me p : Principal}

lemma foreignSince_iff {principal : String} :
    l.foreignSince principal=true ↔ ∃ e∈l.hist,e.1≠principal ∧ l.hist.getD principal 0<e.2 := by
  simp [Lease.foreignSince]

lemma HistInv.own_le (h : HistInv l s.tenures) (q : String) : l.hist.getD q 0≤l.epoch := by
  unfold GoMap.getD
  cases hq : l.hist.get? q with
  | none => exact Nat.zero_le _
  | some e => exact h.hist q e hq

lemma withLease_tenures (h : LeaseKept s.lease l) : (s.withLease l).tenures=s.tenures := by
  simp only [LeaseClientState.withLease]
  refine if_neg fun hc => ?_
  simp only [Bool.and_eq_true,Bool.not_eq_true'] at hc
  rw [h.held hc.2] at hc
  cases hc.1

lemma HistInv.move (h : HistInv s.lease s.tenures) (hmove : LeaseMove p s.lease l) :
    HistInv (s.withLease l).lease (s.withLease l).tenures := by
  cases hmove with
  | same kept =>
    rw [withLease_tenures kept]
    refine ⟨fun q e he => (h.hist q e (kept.hist ▸ he)).trans kept.epoch,fun t ht => ?_⟩
    obtain ⟨hle,e,he,hte⟩ := h.tenures t ht
    exact ⟨hle.trans kept.epoch,e,(congrArg (GoMap.get? · t.1) kept.hist).trans he,hte⟩
  | grant free hist epoch holder =>
    have hget : ∀ q,l.hist.get? q=if q=p.name then some l.epoch else s.lease.hist.get? q := by
      intro q
      rw [hist,get?_set]
    refine ⟨fun q e he => ?_,fun t ht => ?_⟩
    · rw [show (s.withLease l).lease=l from rfl,hget] at he
      split at he
      · cases he
        exact le_rfl
      · exact (h.hist q e he).trans epoch.le
    · -- the new tenure carries the epoch of its grant, the others are older
      have hcases : t=(p.name,l.epoch) ∨ t∈s.tenures := by
        simp only [LeaseClientState.withLease] at ht
        split at ht
        · exact (mem_cons.mp ht).imp_left fun ht => by rw [ht,holder]
        · exact .inr ht
      obtain rfl | ht := hcases
      · exact ⟨le_rfl,l.epoch,by rw [show (s.withLease l).lease=l from rfl,hget,if_pos rfl],le_rfl⟩
      obtain ⟨hle,e,he,hte⟩ := h.tenures t ht
      refine ⟨hle.trans epoch.le,?_⟩
      rw [show (s.withLease l).lease=l from rfl,hget]
      split
      · exact ⟨_,rfl,hle.trans epoch.le⟩
      · exact ⟨e,he,hte⟩

/-- A grant to another principal is reported until this one is granted the project again. -/
lemma foreignSince_of_grant (h : HistInv s.lease s.tenures) (hp : p.name≠me.name)
    (hist : l.hist=s.lease.hist.set p.name l.epoch) (hepoch : s.lease.epoch<l.epoch) : l.foreignSince me.name=true := by
  refine foreignSince_iff.mpr ⟨(p.name,l.epoch),?_,hp,?_⟩
  · rw [hist]
    exact mem_cons_self
  · rw [hist,getD_set,if_neg (Ne.symm hp)]
    exact lt_of_le_of_lt (h.own_le me.name) hepoch

lemma foreignBefore_own {tenures : List (String × ℕ)} {n e : ℕ} (h : ForeignBefore me tenures n) :
    ForeignBefore me ((me.name,e)::tenures) n := by
  intro t ht hne
  obtain rfl | ht := mem_cons.mp ht
  · exact absurd rfl hne
  · exact h t ht hne

lemma ForeignBefore.withLease {n : ℕ} (h : ForeignBefore me s.tenures n) (holder : l.holder=me.name) :
    ForeignBefore me (s.withLease l).tenures n := by
  simp only [LeaseClientState.withLease]
  split
  · rw [holder]
    exact foreignBefore_own h
  · exact h

lemma Known.same (h : Known me s) (kept : LeaseKept s.lease l) : Known me (s.withLease l) := by
  have hfs : l.foreignSince me.name=s.lease.foreignSince me.name := by simp only [Lease.foreignSince,kept.hist]
  unfold Known
  rw [withLease_tenures kept,show (s.withLease l).lease=l from rfl,hfs]
  exact h

/-- What the client knows stays known in a step of the proxy, except where this principal is granted a
project that another one held since. -/
lemma Known.move (h : TenureInv me s) (hmove : LeaseMove p s.lease l)
    (hown : p.name=me.name → s.lease.held=false → s.lease.foreignSince me.name=false) : Known me (s.withLease l) := by
  cases hmove with
  | same kept => exact h.known.same kept
  | grant free hist epoch holder =>
    by_cases hp : p.name=me.name
    · obtain hfs | hbefore | ⟨c,hc,n,hn,hbefore⟩ := h.known
      · rw [hown hp free] at hfs
        cases hfs
      · exact .inr (.inl (hbefore.withLease (holder.trans hp)))
      · exact .inr (.inr ⟨c,hc,n,hn,hbefore.withLease (holder.trans hp)⟩)
    · exact .inl (foreignSince_of_grant h.proxy hp hist epoch)

end Proxy

section Client
variable {s t : LeaseClientState} {me : Principal} {k : ℕ}

lemma TenureInv.client (h : TenureInv me s) (hlease : t.lease=s.lease) (htenures : t.tenures=s.tenures)
    (hboundary : s.client.foreignBefore≤t.client.foreignBefore)
    (hcalls : ∀ c∈s.calls,∀ n,c.boundary=some n → n≤t.client.foreignBefore ∨ c∈t.calls) : TenureInv me t := by
  refine ⟨hlease ▸ htenures ▸ h.proxy,?_⟩
  unfold Known
  rw [hlease,htenures]
  refine h.known.imp_right fun hknown => ?_
  obtain hbefore | ⟨c,hc,n,hn,hbefore⟩ := hknown
  · exact .inl fun x hx hne => (hbefore x hx hne).trans_le hboundary
  · obtain hle | hc := hcalls c hc n hn
    · exact .inl fun x hx hne => (hbefore x hx hne).trans_le hle
    · exact .inr ⟨c,hc,n,hn,hbefore⟩

lemma TenureInv.recorded (h : TenureInv me s) (hfs : s.lease.foreignSince me.name=false)
    (hcalls : ∀ c∈s.calls,c.boundary=none) : ForeignBefore me s.tenures s.client.foreignBefore := by
  obtain hf | hbefore | ⟨c,hc,n,hn,_⟩ := h.known
  · rw [hfs] at hf
    cases hf
  · exact hbefore
  · rw [hcalls c hc] at hn
    cases hn

lemma mem_set_of_mem {c d e : LeaseRpc} {calls : List LeaseRpc} (hk : calls[k]? = some c) (hd : d∈calls)
    (hne : d≠c) : d∈calls.set k e := by
  obtain ⟨j,hj,rfl⟩ := getElem_of_mem hd
  have hkj : k≠j := by
    rintro rfl
    rw [getElem?_eq_getElem hj] at hk
    exact hne (Option.some.inj hk)
  exact mem_iff_getElem?.mpr ⟨j,by rw [getElem?_set_ne hkj,getElem?_eq_getElem hj]⟩

lemma mem_eraseIdx_of_mem {c d : LeaseRpc} {calls : List LeaseRpc} (hk : calls[k]? = some c) (hd : d∈calls)
    (hne : d≠c) : d∈calls.eraseIdx k := by
  obtain ⟨j,hj,rfl⟩ := getElem_of_mem hd
  refine mem_eraseIdx_iff_getElem?.mpr ⟨j,?_,getElem?_eq_getElem hj⟩
  rintro rfl
  rw [getElem?_eq_getElem hj] at hk
  exact hne (Option.some.inj hk)

lemma TenureInv.setCall (h : TenureInv me s) {c : LeaseRpc} (hk : s.calls[k]? = some c) (hc : c.boundary=none)
    (e : LeaseRpc) : TenureInv me {s with calls := s.calls.set k e} := by
  refine h.client rfl rfl le_rfl fun d hd n hn => .inr (mem_set_of_mem hk hd ?_)
  rintro rfl
  rw [hc] at hn
  cases hn

lemma TenureInv.endCall (h : TenureInv me s) {c : LeaseRpc} (hk : s.calls[k]? = some c) {st : ProjectLeaseState}
    {d : Option LeaseDecision} (hst : s.client.foreignBefore ≤ st.foreignBefore)
    (hc : ∀ n,c.boundary=some n → n ≤ st.foreignBefore) :
    TenureInv me {s with client := st, calls := s.calls.eraseIdx k, decided := d} := by
  refine h.client rfl rfl hst fun e he n hn => ?_
  by_cases hec : e=c
  · exact .inl (hc n (hec ▸ hn))
  · exact .inr (mem_eraseIdx_of_mem hk he hec)

lemma boundary_le_recordAcquire {st : ProjectLeaseState} {gate : Bool} {mode : LeaseMode} {r : AcquireReply} (now : ℤ)
    (hlate : ∀ n,(LeaseRpc.acquired gate mode (some r)).boundary=some n → st.foreignBefore≤n) :
    st.foreignBefore≤(st.recordAcquire mode r now).1.foreignBefore ∧
    ∀ n,(LeaseRpc.acquired gate mode (some r)).boundary=some n → n≤(st.recordAcquire mode r now).1.foreignBefore := by
  simp only [LeaseRpc.boundary] at hlate ⊢
  cases hstatus : r.status <;> cases hfs : r.foreignSince <;> simp_all [ProjectLeaseState.recordAcquire]

end Client

/-- A step in which no boundary is lost: this principal is not granted, other than by a reply it gets, a
project that another one held since; a GRANTED reply with foreign_since is not lost, and comes before the
boundary of a later one is recorded; the process does not restart with a foreign tenure before its last
grant; and leaseGate does not answer while another principal has held the project since, or while
another such reply is on its way. -/
def boundaryKept (me : Principal) (s : LeaseClientState) : LeaseClientAction → Bool
  | .grant p _ _ _ => p.name≠me.name || s.lease.held || !s.lease.foreignSince me.name
  | .lose k => s.calls[k]?.all (·.boundary.isNone)
  | .restart => s.lease.foreignSince me.name || s.lease.hist.all (·.1=me.name)
  | .ensureForDrain now =>
    !s.client.fresh now || (!s.lease.foreignSince me.name && s.calls.all (·.boundary.isNone))
  | .reply k _ =>
    match s.calls[k]? with
    | some (.acquired gate mode (some r)) =>
      (LeaseRpc.acquired gate mode (some r)).boundary.all (s.client.foreignBefore ≤ ·) &&
        (!gate || r.status=.held ||
          (!s.lease.foreignSince me.name && (s.calls.eraseIdx k).all (·.boundary.isNone)))
    | _ => true
  | _ => true

section Steps
variable {s t : LeaseClientState} {me : Principal} {k : ℕ}

lemma DecisionOk.none (h : t.decided=none) : DecisionOk me t := by
  intro d hd
  rw [h] at hd
  cases hd

lemma DecisionOk.unheld {d : LeaseDecision} (h : d.held=false) : DecisionOk me (s.decide d) := by
  intro d' hd hheld
  simp only [LeaseClientState.decide] at hd
  split_ifs at hd
  · cases hd
    rw [h] at hheld
    cases hheld

lemma TenureInv.move {l : Lease} {p : Principal} (h : TenureInv me s) (hmove : LeaseMove p s.lease l)
    (hown : p.name=me.name → s.lease.held=false → s.lease.foreignSince me.name=false) :
    TenureInv me (s.withLease l) := ⟨h.proxy.move hmove,Known.move h hmove hown⟩

lemma TenureInv.keep {l : Lease} (h : TenureInv me s) (kept : LeaseKept s.lease l) : TenureInv me (s.withLease l) :=
  ⟨h.proxy.move (p := me) (.same kept),h.known.same kept⟩

/-- The proxy executes a request. A grant of a project that another principal held since carries the
boundary in its reply. -/
lemma TenureInv.executeAcquire {i : GrantInput} {gate : Bool} {mode : LeaseMode} {ttl : ℤ} (h : TenureInv me s)
    (hk : s.calls[k]? = some (.acquire gate mode ttl)) :
    TenureInv me {s.withLease (cmdAcquire s.lease me mode ttl i).1 with
      calls := s.calls.set k (.acquired gate mode (cmdAcquire s.lease me mode ttl i).2)} := by
  have hmove := cmdAcquire_move s.lease me mode ttl i
  by_cases hfs : s.lease.held=false → s.lease.foreignSince me.name=false
  · exact (h.move hmove fun _ => hfs).setCall hk rfl _
  refine ⟨h.proxy.move hmove,?_⟩
  simp only [Classical.not_imp,Bool.not_eq_false] at hfs
  cases hres : s.lease.unresolved with
  | true =>
    have hnone : cmdAcquire s.lease me mode ttl i=(s.lease,none) := by simp [cmdAcquire,hres]
    rw [hnone]
    exact ((h.keep (.refl s.lease)).setCall hk rfl _).known
  | false =>
    set l := grantLockedEnd .grant me (grantedLease s.lease me i.now mode ttl i.label)
      (transitionEpoch .grant s.lease i.counter) with hl
    have hcmd : cmdAcquire s.lease me mode ttl i=(l,some ⟨.granted,l.epoch,holderStr l.holder l.host,true⟩) := by
      have hholder : l.holder=me.name := rfl
      simp [cmdAcquire,hres,grantLocked_free hres hfs.1,← hl,hholder,hfs]
    rw [hcmd] at hmove ⊢
    have hlen : k<s.calls.length := (List.getElem?_eq_some_iff.mp hk).1
    refine .inr (.inr ⟨.acquired gate mode (some ⟨.granted,l.epoch,holderStr l.holder l.host,true⟩),
      mem_iff_getElem?.mpr ⟨k,getElem?_set_self hlen⟩,l.epoch,rfl,?_⟩)
    refine ForeignBefore.withLease (fun x hx _ => ?_) rfl
    exact lt_of_le_of_lt (h.proxy.tenures x hx).1 lt_transitionEpoch

lemma TenureInv.execute {i : GrantInput} (h : TenureInv me s) (hstep : s.execute me k i=some t) : TenureInv me t := by
  simp only [LeaseClientState.execute] at hstep
  split at hstep
  · rename_i gate mode ttl hk
    cases hstep
    exact h.executeAcquire hk
  · rename_i pending hk
    cases hstep
    exact (h.keep (cmdHeartbeat_kept s.lease me pending i.now)).setCall hk rfl _
  · rename_i epoch hk
    cases hstep
    exact (h.keep (cmdRelease_kept s.lease me epoch i.now)).setCall hk rfl _
  · cases hstep

lemma TenureInv.replyAcquire {now : ℤ} {gate : Bool} {mode : LeaseMode} {r : AcquireReply} (h : TenureInv me s)
    (hd : s.decided=none) (hk : s.calls[k]? = some (.acquired gate mode (some r)))
    (hlate : ∀ n,(LeaseRpc.acquired gate mode (some r)).boundary=some n → s.client.foreignBefore≤n)
    (hgate : gate=true → r.status≠.held → s.lease.foreignSince me.name=false ∧ ∀ c∈s.calls.eraseIdx k,c.boundary=none)
    (hstep : s.reply k now=some t) : TenureInv me t ∧ DecisionOk me t := by
  simp only [LeaseClientState.reply,hk,Option.some.injEq] at hstep
  obtain ⟨hst,hc⟩ := boundary_le_recordAcquire now hlate
  set rec_ := s.client.recordAcquire mode r now with hrec
  have hinv : ∀ d,TenureInv me {s with client := rec_.1, calls := s.calls.eraseIdx k, decided := d} :=
    fun d => h.endCall hk hst hc
  cases gate with
  | false =>
    subst hstep
    exact ⟨hinv s.decided,.none hd⟩
  | true =>
    subst hstep
    refine ⟨hinv _,?_⟩
    by_cases hheld : r.status=.held
    · exact .unheld (by simp [hrec,ProjectLeaseState.recordAcquire,hheld])
    obtain ⟨hfs,hrest⟩ := hgate rfl hheld
    have hrecorded := (hinv s.decided).recorded hfs hrest
    have hsame : rec_.2.foreignBefore=rec_.1.foreignBefore := by
      cases hstatus : r.status <;> simp_all [ProjectLeaseState.recordAcquire]
    intro d hdec _
    simp only [if_true,LeaseClientState.decide] at hdec
    split_ifs at hdec
    · cases hdec
      exact hsame ▸ hrecorded

lemma TenureInv.reply {now : ℤ} (h : TenureInv me s) (hd : s.decided=none)
    (hok : boundaryKept me s (.reply k now)=true) (hstep : s.reply k now=some t) : TenureInv me t ∧ DecisionOk me t := by
  have hstep' := hstep
  simp only [LeaseClientState.reply] at hstep
  split at hstep
  · rename_i gate mode r hk
    simp only [boundaryKept,hk,Bool.and_eq_true,Bool.or_eq_true,Bool.not_eq_true',decide_eq_true_eq,
      List.all_eq_true,isNone_iff_eq_none] at hok
    refine h.replyAcquire hd hk (fun n hn => ?_) (fun hg hs => ?_) hstep'
    · have hle := hok.1
      rw [hn] at hle
      simpa using hle
    · rcases hok.2 with (hno | hheld) | hkept
      · rw [hg] at hno
        cases hno
      · exact absurd hheld hs
      · exact hkept
  · rename_i gate mode hk
    have hinv : ∀ d,TenureInv me {s with calls := s.calls.eraseIdx k, decided := d} :=
      fun d => h.endCall hk le_rfl nofun
    cases gate with
    | false =>
      cases hstep
      exact ⟨hinv s.decided,.none hd⟩
    | true =>
      cases hstep
      exact ⟨hinv _,.unheld rfl⟩
  · rename_i records hk
    cases hstep
    refine ⟨h.endCall hk ?_ nofun,.none hd⟩
    unfold ProjectLeaseState.recordHeartbeat
    split
    · exact le_rfl
    split
    · exact le_rfl
    split <;> exact le_rfl
  · rename_i status hk
    cases hstep
    exact ⟨h.endCall hk le_rfl nofun,.none hd⟩
  · rename_i hk
    cases hstep
    exact ⟨h.endCall hk le_rfl nofun,.none hd⟩
  · cases hstep

lemma TenureInv.lose (h : TenureInv me s) (hok : boundaryKept me s (.lose k)=true)
    {c : LeaseRpc} (hk : s.calls[k]? = some c) (d : Option LeaseDecision) :
    TenureInv me {s with calls := s.calls.eraseIdx k, decided := d} := by
  refine h.endCall hk le_rfl fun n hn => ?_
  simp only [boundaryKept,hk,all_some,hn] at hok
  cases hok

/-- A new process knows nothing; it need not, or the proxy will tell it. -/
lemma TenureInv.restart (h : TenureInv me s) (hok : boundaryKept me s .restart=true) :
    TenureInv me {s with client := {}, calls := [], decided := none} := by
  refine ⟨h.proxy,?_⟩
  simp only [boundaryKept,Bool.or_eq_true,List.all_eq_true,decide_eq_true_eq] at hok
  refine hok.imp id fun hown => .inl fun x hx hne => absurd ?_ hne
  obtain ⟨_,e,he,_⟩ := h.proxy.tenures x hx
  exact hown (x.1,e) (mem_of_get? he)

lemma TenureInv.step {a : LeaseClientAction} (h : TenureInv me s) (hok : boundaryKept me s a=true)
    (hstep : leaseClientStep me s a=some t) : TenureInv me t ∧ DecisionOk me t := by
  have h₀ : TenureInv me {s with decided := none} := ⟨h.proxy,h.known⟩
  cases a with simp only [leaseClientStep] at hstep
  | grant p mode ttl i =>
    cases hstep
    refine ⟨h₀.move (grantLocked_move s.lease p mode ttl i) fun hp hfree => ?_,.none rfl⟩
    simpa [boundaryKept,hp,hfree] using hok
  | stop now =>
    cases hstep
    exact ⟨h₀.keep (endLocked_kept s.lease now),.none rfl⟩
  | ensureForDrain now =>
    split at hstep
    · rename_i hfresh
      cases hstep
      refine ⟨⟨h.proxy,h.known⟩,?_⟩
      simp only [boundaryKept,hfresh,Bool.not_true,Bool.false_or,Bool.and_eq_true,Bool.not_eq_true',
        List.all_eq_true,isNone_iff_eq_none] at hok
      intro d hd _
      cases hd
      exact h.recorded hok.1 hok.2
    · cases hstep
      exact ⟨h.client rfl rfl le_rfl fun c hc _ _ => .inr (mem_append_left _ hc),.none rfl⟩
  | acquire mode ttl | heartbeat pending | release =>
    cases hstep
    exact ⟨h.client rfl rfl le_rfl fun c hc _ _ => .inr (mem_append_left _ hc),.none rfl⟩
  | askInode k =>
    split at hstep
    · rename_i records hk
      split_ifs at hstep
      cases hstep
      exact ⟨h₀.setCall hk rfl _,.none rfl⟩
    · cases hstep
  | gotInode k ok =>
    split at hstep
    case h_2 => cases hstep
    rename_i records hk
    cases hstep
    refine ⟨h.client rfl rfl ?_ fun c hc n hn => .inr (mem_set_of_mem hk hc ?_),.none rfl⟩
    · dsimp only
      split <;> exact le_rfl
    · rintro rfl
      cases hn
  | wantRelease | noteRefused holder =>
    cases hstep
    exact ⟨h.client rfl rfl le_rfl fun c hc _ _ => .inr hc,.none rfl⟩
  | execute k i =>
    refine ⟨h₀.execute hstep,.none ?_⟩
    simp only [LeaseClientState.execute] at hstep
    split at hstep <;> cases hstep <;> rfl
  | reply k now => exact h₀.reply rfl hok hstep
  | lose k =>
    split at hstep
    · rename_i hk
      cases hstep
      exact ⟨h₀.lose hok hk _,.unheld rfl⟩
    · rename_i hk
      cases hstep
      exact ⟨h₀.lose hok hk _,.unheld rfl⟩
    · rename_i hk
      cases hstep
      exact ⟨h₀.lose hok hk _,.none rfl⟩
    · cases hstep
  | restart =>
    cases hstep
    exact ⟨h.restart hok,.none rfl⟩

end Steps

lemma tenureInv_start (me : Principal) (proj : ℕ) : TenureInv me {lease := {proj := proj}} :=
  ⟨⟨nofun,nofun⟩,.inr (.inl nofun)⟩

/-- A foreign holder refuses every base that does not prove the inode untouched. -/
lemma drainBaseAllowsInPlace_tainted {base : SpoolBase} (st : FileStat)
    (hkind : base.kind=.claimed ∨ base.kind=.moved ∨ base.kind=.weak ∨ base.kind=.unknown) :
    (drainBaseAllowsInPlace base st true).1=false := by
  rcases hkind with h | h | h | h <;> simp only [drainBaseAllowsInPlace,h]
  · split <;> rfl
  · rfl
  · simp
  · rfl

/-- In every run whose steps keep the boundary, a row accepted before a foreign tenure is tainted when
leaseGate lets it proceed with the lease held, and is not drained in place on such a base. -/
theorem foreign_tenure_taints (me : Principal) (proj : ℕ) {as : List LeaseClientAction} {s : LeaseClientState}
    (hkept : AllSteps (leaseClientStep me) (fun s a => boundaryKept me s a = true) { lease := { proj := proj } } as)
    (hrun : run (leaseClientStep me) { lease := { proj := proj } } as = some s) {d : LeaseDecision}
    (hd : s.decided = some d) (hheld : d.held = true) {q : String} {e accepted : ℕ} (htenure : (q,e) ∈ s.tenures)
    (hq : q ≠ me.name) (haccepted : accepted < e) :
    d.taints accepted = true ∧ ∀ base st,(base.kind = .claimed ∨ base.kind = .moved ∨ base.kind = .weak ∨
      base.kind = .unknown) → (drainBaseAllowsInPlace base st (d.taints accepted)).1 = false := by
  have hinv : TenureInv me s ∧ DecisionOk me s :=
    run_invariant_of_allSteps (I := fun s => TenureInv me s ∧ DecisionOk me s)
      (fun _ _ _ h hok hstep => TenureInv.step h.1 hok hstep) ⟨tenureInv_start me proj,.none rfl⟩ hkept hrun
  have hbefore : e<d.foreignBefore := hinv.2 d hd hheld (q,e) htenure hq
  have htaint : d.taints accepted=true := by
    simp only [LeaseDecision.taints,Bool.and_eq_true,decide_eq_true_eq]
    omega
  refine ⟨htaint,fun base st hkind => ?_⟩
  rw [htaint]
  exact drainBaseAllowsInPlace_tainted st hkind

def macA : Principal := ⟨"mac-a",.mac,"Edit-Bay-1"⟩

def macB : Principal := ⟨"mac-b",.mac,"Edit-Bay-2"⟩

def gate : List LeaseClientAction := [.ensureForDrain 0,.execute 0 {},.reply 0 0]

/-- The row is accepted under epoch 1; the app stops, another Mac holds the project under epoch 3. -/
def foreignEdit : List LeaseClientAction :=
  gate++[.stop 0,.noteRefused "",.grant macB .auto 0 {},.stop 0]

def decision (accepted : ℕ) (s : LeaseClientState) : Option (Bool × ℕ × Bool) × List (String × ℕ) :=
  (s.decided.map (fun d => (d.held,d.epoch,d.taints accepted)),s.tenures)

def freeProject : LeaseClientState := { lease := { proj := 7 } }

theorem regrant_taints : ∃ s d,run (leaseClientStep macA) freeProject (foreignEdit++gate) = some s ∧
    s.decided = some d ∧ d.held = true ∧ ("mac-b",3) ∈ s.tenures ∧ d.taints 1 = true ∧
    (drainBaseAllowsInPlace {} ⟨5,0,0,0,0⟩ (d.taints 1)).1 = false := by
  obtain ⟨s,hs,hobs⟩ := map_eq_some_iff.mp (show (run (leaseClientStep macA) freeProject
    (foreignEdit++gate)).map (decision 1) = some (some (true,5,true),[("mac-a",5),("mac-b",3),("mac-a",1)]) by decide +kernel)
  simp only [decision,Prod.mk.injEq,map_eq_some_iff] at hobs
  obtain ⟨⟨d,hd,hheld,_,_⟩,htenures⟩ := hobs
  have hmem : ("mac-b",3) ∈ s.tenures := by simp [htenures]
  obtain ⟨htaint,hbase⟩ := foreign_tenure_taints macA 7 (allSteps_of_check (show checkSteps (leaseClientStep macA)
    (boundaryKept macA) freeProject (foreignEdit++gate) = true by decide +kernel)) hs hd hheld hmem
    (by decide) (show 1 < 3 by decide)
  exact ⟨s,d,hs,hd,hheld,hmem,htaint,hbase {} _ (.inr (.inr (.inr rfl)))⟩

/-- The GRANTED reply is lost, and the next ACQUIRE renews. -/
def lostReply : List LeaseClientAction := foreignEdit++[.acquire .auto 0,.execute 0 {},.lose 0]++gate

def writeFirst : List LeaseClientAction := foreignEdit++[.grant macA .auto 0 {}]++gate

def restarted : List LeaseClientAction := foreignEdit++gate++[.restart]++gate

/-- Another Mac comes and goes while the last confirmation is fresh. -/
def cachedGate : List LeaseClientAction := gate++[.stop 0,.grant macB .auto 0 {},.stop 0,.ensureForDrain 0]

def lateReply : List LeaseClientAction :=
  foreignEdit++[.acquire .auto 0,.execute 0 {},.stop 0,.grant macB .auto 0 {},.stop 0,.acquire .auto 0,.execute 1 {},
    .reply 1 0,.reply 0 0,.ensureForDrain 0]

theorem foreign_tenure_untainted : (run (leaseClientStep macA) freeProject lostReply).map (decision 1) =
      some (some (true,5,false),[("mac-a",5),("mac-b",3),("mac-a",1)]) ∧
    (run (leaseClientStep macA) freeProject writeFirst).map (decision 1) =
      some (some (true,5,false),[("mac-a",5),("mac-b",3),("mac-a",1)]) ∧
    (run (leaseClientStep macA) freeProject restarted).map (decision 1) =
      some (some (true,5,false),[("mac-a",5),("mac-b",3),("mac-a",1)]) ∧
    (run (leaseClientStep macA) freeProject cachedGate).map (decision 1) =
      some (some (true,1,false),[("mac-b",3),("mac-a",1)]) ∧
    (run (leaseClientStep macA) freeProject lateReply).map (decision 5) =
      some (some (true,5,false),[("mac-a",9),("mac-b",7),("mac-a",5),("mac-b",3),("mac-a",1)]) := by
  refine ⟨?_,?_,?_,?_,?_⟩ <;> decide +kernel

end JuiceMount.Nfs
