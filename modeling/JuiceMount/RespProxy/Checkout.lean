import JuiceMount.Lib.Transition
import JuiceMount.RespProxy.Duration
import JuiceMount.RespProxy.LeaseStore

/-! The lifetime of a checkout: JM.LEASE ACQUIRE with a client-chosen ttl, renewals, and the
deadline `expiryReason` tests. -/
namespace JuiceMount.RespProxy
open Transition Option

/-- The lifetimes of jmlease:v1:cfg, as the seconds `loadCfg` reads. -/
structure LifetimeCfg where
  idleS : ℤ
  orphanS : ℤ
  checkoutMaxS : ℤ
  deriving DecidableEq, Repr

namespace LifetimeCfg

/-- `defaultLeaseCfg`: 4 h, 10 min and 72 h. -/
def default : LifetimeCfg := ⟨4*3600,600,72*3600⟩

def checkoutMax (c : LifetimeCfg) : ℤ := seconds c.checkoutMaxS

def lease (c : LifetimeCfg) : LeaseCfg :=
  ⟨millis (seconds c.idleS),millis (seconds c.orphanS),millis c.checkoutMax⟩

end LifetimeCfg

/-- Why `cmdAcquire` answers with an error. -/
inductive AcquireErr
  | usage | principalReadonly | badMode | badTtl
  deriving DecidableEq, Repr

/-- `strings.ToLower`. Of the letters outside ASCII only the Kelvin sign has its lower case in the
words it is compared with. -/
def toLower : Bytes → Bytes
  | 226::132::170::rest => 107::toLower rest
  | c::rest => (if 65≤c && c≤90 then c+32 else c)::toLower rest
  | [] => []

/-- The ttl of an ACQUIRE in a configuration: a client's ttl only shortens the maximum. -/
def acquireTtl (c : LifetimeCfg) (n : Option ℤ) : ℤ :=
  match n with
  | none => c.checkoutMax
  | some n => if seconds n<c.checkoutMax then seconds n else c.checkoutMax

/-- The checks of `cmdAcquire` on what follows the project: mode and ttl_s, if there is one. -/
def acquireArgs (p : Principal) (args : List Bytes) : Except AcquireErr (LeaseMode × Option ℤ) :=
  let ttl : Bytes → LeaseMode → Except AcquireErr (LeaseMode × Option ℤ) := fun b mode =>
    match parseInt b with
    | some n => if n≤0 then .error .badTtl else .ok (mode,some n)
    | none => .error .badTtl
  let modeArg : Bytes → Option LeaseMode := fun b =>
    if toLower b = ascii "auto" then some .auto
    else if toLower b = ascii "checkout" then some .checkout
    else none
  match args with
  | [m] =>
    if p.kind=.webdav then .error .principalReadonly
    else
      match modeArg m with
      | none => .error .badMode
      | some mode => .ok (mode,none)
  | [m,t] =>
    if p.kind=.webdav then .error .principalReadonly
    else
      match modeArg m with
      | none => .error .badMode
      | some mode => ttl t mode
  | _ => .error .usage

/-- What can happen to the lease of one project while the process runs: ACQUIRE commands, grants
and renewals by admitted writes, and the other transitions. -/
inductive TenureAction
  | acquire (p : Principal) (args : List Bytes) (now : ℤ) (label : String)
  | write (p : Principal) (now : ℤ) (label : String)
  | stop (now : ℤ)
  | flush
  | touch (p : String) (now : ℤ)
  | heartbeat (p : String) (pending : ℕ → Bool) (now : ℤ)
  | execute
  | deliver
  | lose
  | executeLate

/-- One step. `grantLocked` reads the clock once, so the deadline it computes is the millisecond of
now plus ttl. A refused ACQUIRE changes nothing. -/
def tenureStep (c : LifetimeCfg) (s : LeaseState) : TenureAction → Option LeaseState
  | .acquire p args now label =>
    match acquireArgs p args with
    | .error _ => some s
    | .ok (mode,n) =>
      leaseStep s (.grant p (ms now) c.lease.checkoutMax mode (ms (now+acquireTtl c n)-ms now) label)
  | .write p now label => leaseStep s (.grant p (ms now) c.lease.checkoutMax .auto 0 label)
  | .stop now => leaseStep s (.stop (ms now))
  | .flush => leaseStep s .flush
  | .touch p now => leaseStep s (.touch p (ms now))
  | .heartbeat p pending now => leaseStep s (.heartbeat p pending (ms now))
  | .execute => leaseStep s .execute
  | .deliver => leaseStep s .deliver
  | .lose => leaseStep s .lose
  | .executeLate => leaseStep s .executeLate

/-- The clock is not before 1970, and a checkout's ttl_s, multiplied to nanoseconds in 64 bits,
does not reach back to it. -/
def ttlInRange : LeaseState → TenureAction → Bool
  | _,.acquire p args now _ =>
    0≤now &&
      match acquireArgs p args with
      | .ok (.checkout,some n) => 10^6 ≤ now+seconds n
      | _ => true
  | _,.write _ now _ => 0≤now
  | _,_ => true

/-- What a tenure keeps: it began after 1970, and a checkout has a deadline no later than the
maximum after that. -/
def LifetimeOk (max : ℤ) (l : Lease) : Prop :=
  l.held=true → 0≤l.grantedMs ∧
    (l.mode=.checkout → 0<l.checkoutUntilMs ∧ l.checkoutUntilMs ≤ l.grantedMs+max)

section Deadlines
variable {c : LifetimeCfg} {l next : Lease} {p : Principal} {now ttl max : ℤ} {mode : LeaseMode}

lemma checkoutMax_eq (hpos : 0<c.checkoutMaxS) (hfits : c.checkoutMaxS*10^9<2^63) :
    c.checkoutMax=c.checkoutMaxS*10^9 ∧ c.lease.checkoutMax=c.checkoutMaxS*10^3 := by
  have hns : c.checkoutMax=c.checkoutMaxS*10^9 := int64_of_range (by omega) hfits
  refine ⟨hns,?_⟩
  simp only [LifetimeCfg.lease,millis,hns]
  rw [Int.tdiv_eq_ediv_of_nonneg (by omega)]
  omega

lemma acquireTtl_deadline {n : Option ℤ} (hpos : 0<c.checkoutMaxS) (hfits : c.checkoutMaxS*10^9<2^63)
    (hnow : 0≤now) (hn : ∀ k,n=some k → 10^6≤now+seconds k) :
    0 < ms (now+acquireTtl c n) ∧ ms (now+acquireTtl c n) ≤ ms now+c.lease.checkoutMax := by
  obtain ⟨hns,hms⟩ := checkoutMax_eq hpos hfits
  have hle : acquireTtl c n≤c.checkoutMaxS*10^9 := by
    unfold acquireTtl
    rw [hns]
    cases n with
    | none => exact le_rfl
    | some k =>
      dsimp only
      split <;> omega
  have hge : 10^6≤now+acquireTtl c n := by
    unfold acquireTtl
    rw [hns]
    cases n with
    | none =>
      dsimp only
      omega
    | some k =>
      have hk := hn k rfl
      dsimp only
      split <;> omega
  rw [hms]
  unfold ms
  omega

lemma renewed_lifetime (h : LifetimeOk max l) (hmax : 0 < max) (httl : mode=.checkout → 0<now+ttl) :
    LifetimeOk max (renewedLease l now max mode ttl) := by
  intro hheld
  unfold renewedLease at hheld ⊢
  split at hheld
  · rename_i hmode
    obtain ⟨hgranted,_⟩ := h hheld
    simp only [if_pos hmode]
    refine ⟨hgranted,fun _ => ?_⟩
    have := httl hmode
    split <;> omega
  · rename_i hmode
    simp only [if_neg hmode]
    exact h hheld

lemma granted_lifetime {label : String} (hnow : 0≤now) (httl : mode=.checkout → 0<now+ttl ∧ now+ttl≤now+max) :
    LifetimeOk max (grantedLease l p now mode ttl label) := by
  intro _
  refine ⟨hnow,fun hmode => ?_⟩
  have hmode' : mode=.checkout := hmode
  simpa [grantedLease,hmode'] using httl hmode'

lemma sent_lifetime {label : String} {op : TransitionOp} (h : LifetimeOk max l) (hmax : 0 < max)
    (hnow : 0≤now) (httl : mode=.checkout → 0<now+ttl ∧ now+ttl≤now+max)
    (hsend : grantLockedStart l p now max mode ttl label=.send op next) : LifetimeOk max next := by
  obtain ⟨_,_,_,rfl⟩ | ⟨_,_,rfl⟩ := grantLockedStart_send hsend
  · exact renewed_lifetime h hmax (fun hm => (httl hm).1)
  · exact granted_lifetime hnow httl

end Deadlines

def Lease.span (l : Lease) : String × LeaseMode × ℤ × ℤ :=
  (l.holder,l.mode,l.grantedMs,l.checkoutUntilMs)

section Span
variable {max : ℤ} {l l' : Lease}

lemma LifetimeOk.congr (h : LifetimeOk max l) (hspan : l'.span=l.span) : LifetimeOk max l' := by
  simp only [Lease.span,Prod.mk.injEq] at hspan
  obtain ⟨hholder,hmode,hgranted,huntil⟩ := hspan
  unfold LifetimeOk Lease.held
  rw [hholder,hmode,hgranted,huntil]
  exact h

lemma LifetimeOk.free (h : l.held=false) : LifetimeOk max l := by
  intro hheld
  rw [h] at hheld
  cases hheld

lemma touchLease_span (p : String) (now : ℤ) (l : Lease) : (touchLease p now l).span=l.span := by
  unfold touchLease
  split <;> rfl

lemma heartbeatLease_span (p : String) (pending : ℕ → Bool) (now : ℤ) (l : Lease) :
    (heartbeatLease p pending now l).span=l.span := by
  unfold heartbeatLease
  split
  · rfl
  · split <;> rfl

lemma flushEnd_span (l : Lease) (sent : FlushFields) (ok : Bool) : (flushEnd l sent ok).span=l.span := by
  unfold flushEnd
  split
  · rfl
  · split <;> rfl

lemma lease_map_span {s t : LeaseState} {f : Lease → Lease} (hf : ∀ l,(f l).span=l.span)
    (hmem : t.mem=s.mem.map f) (hproj : t.proj=s.proj) : t.lease.span=s.lease.span := by
  unfold LeaseState.lease
  rw [hmem,hproj]
  cases s.mem with
  | none => rfl
  | some l => exact hf l

end Span

def CallOk (max : ℤ) : LeaseCall → Prop
  | .grant _ _ _ next => LifetimeOk max next
  | .stop _ next => next.held=false
  | .flush _ _ _ => True

/-- The lease in memory and the one on its way to Redis keep the bound. -/
structure LifetimeInv (max : ℤ) (s : LeaseState) : Prop where
  lease : LifetimeOk max s.lease
  call : ∀ c r,s.call = some (c,r) → CallOk max c

namespace LifetimeInv
-- the equations of a step are worked out here once, not in every lemma below
attribute [local simp] leaseStep

variable {max : ℤ} {s t : LeaseState}

lemma keep (h : LifetimeInv max s) (hspan : t.lease.span=s.lease.span)
    (hcall : t.call=none ∨ t.call.map (·.1)=s.call.map (·.1)) : LifetimeInv max t := by
  refine ⟨h.lease.congr hspan,fun c r hc => ?_⟩
  rw [hc] at hcall
  obtain hcall | hcall := hcall
  · cases hcall
  · obtain ⟨⟨c',r'⟩,hc',rfl⟩ := map_eq_some_iff.mp hcall.symm
    exact h.call c' r' hc'

lemma finish (h : LifetimeInv max s) {c : LeaseCall} (hc : CallOk max c) (v : Option Resp.Value) :
    LifetimeInv max (s.finish c v) := by
  have hdrop : LifetimeInv max {s with call := none} := h.keep rfl (.inl rfl)
  cases c with
  | grant op p old next =>
    simp only [LeaseState.finish]
    split
    · exact ⟨LifetimeOk.congr hc rfl,fun _ _ hcall => by cases hcall⟩
    · exact hdrop
  | stop old next =>
    simp only [LeaseState.finish]
    split
    · exact ⟨LifetimeOk.free hc,fun _ _ hcall => by cases hcall⟩
    · exact hdrop
  | flush epoch holder sent =>
    exact h.keep (lease_map_span (fun l => flushEnd_span l sent _) rfl rfl) (.inl rfl)

lemma grant (h : LifetimeInv max s) (hmax : 0 < max) {p : Principal} {now ttl : ℤ}
    {mode : LeaseMode} {label : String} (hnow : 0≤now) (httl : mode=.checkout → 0<now+ttl ∧ now+ttl≤now+max)
    (hstep : leaseStep s (.grant p now max mode ttl label)=some t) : LifetimeInv max t := by
  simp only [leaseStep] at hstep
  split_ifs at hstep
  split at hstep
  · rename_i op next hsend
    cases hstep
    refine ⟨h.lease.congr rfl,fun c r hc => ?_⟩
    cases hc
    exact sent_lifetime h.lease hmax hnow httl hsend
  · cases hstep
    exact h.keep rfl (.inr rfl)

lemma stop (h : LifetimeInv max s) {now : ℤ} (hstep : leaseStep s (.stop now)=some t) : LifetimeInv max t := by
  simp only [leaseStep] at hstep
  split_ifs at hstep
  split at hstep
  · rename_i next hsend
    cases hstep
    refine ⟨h.lease.congr rfl,fun c r hc => ?_⟩
    cases hc
    cases hm : s.mem with
    | none =>
      rw [hm] at hsend
      cases hsend
    | some l =>
      rw [hm] at hsend
      simp [CallOk,Lease.held,(endLockedStart_send hsend).2]
  · cases hstep
    exact h

lemma flush (h : LifetimeInv max s) (hstep : leaseStep s .flush=some t) : LifetimeInv max t := by
  simp only [leaseStep] at hstep
  split at hstep
  · cases hstep
  split at hstep
  · cases hstep
    refine ⟨h.lease.congr rfl,fun c r hc => ?_⟩
    cases hc
    exact trivial
  · cases hstep
    exact h

lemma execute (h : LifetimeInv max s) (hstep : leaseStep s .execute=some t) : LifetimeInv max t := by
  simp only [leaseStep] at hstep
  split at hstep
  · rename_i c hc
    cases hstep
    exact h.keep rfl (.inr (by rw [hc]; rfl))
  · cases hstep

lemma deliver (h : LifetimeInv max s) (hstep : leaseStep s .deliver=some t) : LifetimeInv max t := by
  simp only [leaseStep] at hstep
  split at hstep
  · rename_i c v hc
    cases hstep
    exact h.finish (h.call c _ hc) _
  · cases hstep

lemma lose (h : LifetimeInv max s) (hstep : leaseStep s .lose=some t) : LifetimeInv max t := by
  simp only [leaseStep] at hstep
  split at hstep
  · rename_i c hc
    cases hstep
    exact (h.finish (h.call c _ hc) none).keep rfl (.inr rfl)
  · rename_i c v hc
    cases hstep
    exact h.finish (h.call c _ hc) none
  · cases hstep

lemma executeLate (h : LifetimeInv max s) (hstep : leaseStep s .executeLate=some t) : LifetimeInv max t := by
  simp only [leaseStep] at hstep
  split at hstep
  · cases hstep
    exact h.keep rfl (.inr rfl)
  · cases hstep

lemma step {c : LifetimeCfg} {a : TenureAction} (hpos : 0<c.checkoutMaxS)
    (hfits : c.checkoutMaxS*10^9<2^63) (h : LifetimeInv c.lease.checkoutMax s)
    (hg : ttlInRange s a=true) (hstep : tenureStep c s a=some t) : LifetimeInv c.lease.checkoutMax t := by
  have hmax : 0<c.lease.checkoutMax := by
    rw [(checkoutMax_eq hpos hfits).2]
    omega
  cases a with
  | acquire p args now label =>
    simp only [tenureStep] at hstep
    simp only [ttlInRange,Bool.and_eq_true,decide_eq_true_eq] at hg
    obtain ⟨hnow,hn⟩ := hg
    split at hstep
    · cases hstep
      exact h
    rename_i mode n hargs
    rw [hargs] at hn
    refine h.grant hmax (by unfold ms; omega) (fun hmode => ?_) hstep
    subst hmode
    have hk : ∀ k,n=some k → 10^6≤now+seconds k := by
      rintro k rfl
      simpa using hn
    have := acquireTtl_deadline hpos hfits hnow hk
    omega
  | write p now label =>
    have hnow : 0≤now := by simpa [ttlInRange] using hg
    exact h.grant hmax (by unfold ms; omega) (fun hmode => by cases hmode) hstep
  | stop now => exact h.stop hstep
  | flush => exact h.flush hstep
  | touch p now =>
    cases hstep
    exact h.keep (lease_map_span (touchLease_span p (ms now)) rfl rfl) (.inr rfl)
  | heartbeat p pending now =>
    cases hstep
    exact h.keep (lease_map_span (heartbeatLease_span p pending (ms now)) rfl rfl) (.inr rfl)
  | execute => exact h.execute hstep
  | deliver => exact h.deliver hstep
  | lose => exact h.lose hstep
  | executeLate => exact h.executeLate hstep

end LifetimeInv

lemma expiryReason_of_lifetime {max now : ℤ} {l : Lease} {c : LeaseCfg} (h : LifetimeOk max l)
    (hheld : l.held=true) (hres : l.unresolved=false) (hmode : l.mode=.checkout)
    (hnow : l.grantedMs+max≤now) : expiryReason l now c=some .checkoutEnded := by
  obtain ⟨hpos,hle⟩ := (h hheld).2 hmode
  have htime : l.checkoutUntilMs≤now := by omega
  simp [expiryReason,hheld,hres,hmode,hpos,htime]

lemma endLockedStart_held {l : Lease} (now : ℤ) (hheld : l.held=true) (hres : l.unresolved=false) :
    ∃ next, endLockedStart (some l) now=.send next ∧ ∀ ep,(endLockedEnd next ep).held=false := by
  simp only [endLockedStart,hheld,hres]
  exact ⟨_,rfl,fun ep => rfl⟩

/-- In every run whose checkout requests stay in range of the clock, a checkout has expired
`checkoutMax` after its tenure was granted, the sweep then ends it, and its deadline never passes
that point. -/
theorem checkout_lifetime_bounded (c : LifetimeCfg) (hpos : 0 < c.checkoutMaxS)
    (hfits : c.checkoutMaxS*10^9 < 2^63) (s t : LeaseState) (as : List TenureAction)
    (hidle : s.call = none) (hstart : LifetimeOk c.lease.checkoutMax s.lease)
    (hrange : Transition.AllSteps (tenureStep c) (fun s a => ttlInRange s a = true) s as)
    (hrun : Transition.run (tenureStep c) s as = some t) (l : Lease) (hl : t.mem = some l)
    (hheld : l.held = true) (hmode : l.mode = .checkout) : l.checkoutUntilMs ≤ l.grantedMs+c.lease.checkoutMax ∧
    (l.unresolved = false → ∀ now,l.grantedMs+c.lease.checkoutMax ≤ now → expiryReason l now c.lease = some .checkoutEnded ∧
      ∃ next, endLockedStart t.mem now = .send next ∧ ∀ ep,(endLockedEnd next ep).held = false) := by
  have hinv : LifetimeInv c.lease.checkoutMax s := ⟨hstart,fun _ _ hc => by rw [hidle] at hc; cases hc⟩
  have ht := run_invariant_of_allSteps
    (fun s a t h hg hs => LifetimeInv.step hpos hfits h hg hs) hinv hrange hrun
  have hlease : t.lease=l := by simp [LeaseState.lease,hl]
  have hok : LifetimeOk c.lease.checkoutMax l := hlease ▸ ht.lease
  refine ⟨((hok hheld).2 hmode).2,fun hres now hnow => ?_⟩
  refine ⟨expiryReason_of_lifetime hok hheld hres hmode hnow,?_⟩
  rw [hl]
  exact endLockedStart_held now hheld hres

def checkoutRun (ttl : String) : List TenureAction :=
  [.acquire ⟨"m:a",.mac,"mac-a"⟩ [ascii "checkout",ascii ttl] 1790000000000000000 "",.execute,.deliver]

def tenureOf (t : LeaseState) : Option (Bool × Bool × LeaseMode × ℤ × ℤ) :=
  t.mem.map (fun l => (l.held,l.unresolved,l.mode,l.checkoutUntilMs,l.grantedMs))

/-- An hour's checkout is over after an hour, and has expired at the maximum. -/
theorem hour_checkout_expires :
    ∃ t l,Transition.run (tenureStep .default) { proj := 7 } (checkoutRun "3600") = some t ∧
      t.mem = some l ∧ l.checkoutUntilMs = 1790003600000 ∧
      expiryReason l (1790000000000+72*3600*1000) LifetimeCfg.default.lease = some .checkoutEnded := by
  have hrun : (Transition.run (tenureStep .default) { proj := 7 } (checkoutRun "3600")).map tenureOf =
      some (some (true,false,.checkout,1790003600000,1790000000000)) := by
    decide +kernel
  obtain ⟨t,ht,hmem⟩ := map_eq_some_iff.mp hrun
  obtain ⟨l,hl,hlease⟩ := map_eq_some_iff.mp hmem
  simp only [Prod.mk.injEq] at hlease
  obtain ⟨hheld,hres,hmode,huntil,hgranted⟩ := hlease
  have hrange := allSteps_of_check (show Transition.checkSteps (tenureStep .default) ttlInRange
    { proj := 7 } (checkoutRun "3600") = true by decide +kernel)
  have hbound := checkout_lifetime_bounded .default (by decide) (by decide) { proj := 7 } t _ rfl
    (LifetimeOk.free rfl) hrange ht l hl hheld hmode
  refine ⟨t,l,ht,hl,huntil,(hbound.2 hres _ ?_).1⟩
  rw [hgranted]
  decide

/-- A ttl_s of 9223372037 wraps to a negative duration, the deadline is negative, and the checkout
never expires. -/
theorem wrapped_checkout_never_expires :
    ∃ t l,Transition.run (tenureStep .default) { proj := 7 } (checkoutRun "9223372037") = some t ∧
      t.mem = some l ∧ l.held = true ∧ l.unresolved = false ∧ l.mode = .checkout ∧
      l.grantedMs = 1790000000000 ∧ ∀ now,expiryReason l now LifetimeCfg.default.lease = none := by
  have hrun : (Transition.run (tenureStep .default) { proj := 7 } (checkoutRun "9223372037")).map
      tenureOf = some (some (true,false,.checkout,-7433372036710,1790000000000)) := by
    decide +kernel
  obtain ⟨t,ht,hmem⟩ := map_eq_some_iff.mp hrun
  obtain ⟨l,hl,hlease⟩ := map_eq_some_iff.mp hmem
  simp only [Prod.mk.injEq] at hlease
  obtain ⟨hheld,hres,hmode,huntil,hgranted⟩ := hlease
  refine ⟨t,l,ht,hl,hheld,hres,hmode,hgranted,fun now => ?_⟩
  simp [expiryReason,hheld,hres,hmode,huntil]

end JuiceMount.RespProxy
