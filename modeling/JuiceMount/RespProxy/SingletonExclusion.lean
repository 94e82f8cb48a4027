import JuiceMount.Lib.Transition
import JuiceMount.RespProxy.Singleton

/-! Exclusion of the singleton: every proof of ownership that still counts has the key behind it, and
a fence that was seen is never lifted. -/
namespace JuiceMount.RespProxy
open Transition Instance List SingletonState

namespace Instance
variable {c : SingletonCfg} {x : Instance} {now : ℤ}

/-- The starts of confirmed requests: the published proof and one on its way to be. -/
def proofs (x : Instance) : List ℤ :=
  x.lastRenew.toList++match x.task with
    | .starting _ start (some r) | .asking _ start (some r) => if r=1 then [start] else []
    | .proved start => [start]
    | _ => []

/-- The start of a request that may still be executed for this task. -/
def pendingStart (x : Instance) : Option ℤ :=
  match x.task with
  | .starting _ start _ | .asking _ start _ => some start
  | _ => none

@[simp] lemma callFenced_lastRenew : (x.callFenced c now).lastRenew=x.lastRenew := by
  unfold callFenced
  split
  · rfl
  · split <;> rfl

@[simp] lemma callFenced_task : (x.callFenced c now).task=x.task := by
  unfold callFenced
  split
  · rfl
  · split <;> rfl

@[simp] lemma callFenced_closed : (x.callFenced c now).closed=x.closed := by
  unfold callFenced
  split
  · rfl
  · split <;> rfl

@[simp] lemma callFenced_started : (x.callFenced c now).started=x.started := by
  unfold callFenced
  split
  · rfl
  · split <;> rfl

lemma callFenced_lost (h : x.singletonLost=true) : (x.callFenced c now).singletonLost=true := by
  unfold callFenced
  split
  · exact h
  · split
    · rfl
    · exact h

lemma callFenced_sticks (hstarted : x.lastRenew≠none) (h : x.fenced c now=true) :
    (x.callFenced c now).singletonLost=true ∨ (x.callFenced c now).closed=true := by
  cases hl : x.lastRenew with
  | none => exact absurd hl hstarted
  | some last =>
    cases hs : c.singleton with
    | false => simp [fenced,hs] at h
    | true =>
      cases hlost : x.singletonLost with
      | true => exact .inl (callFenced_lost hlost)
      | false =>
        cases hclosed : x.closed with
        | true => exact .inr (by simp [hclosed])
        | false =>
          simp only [fenced,hs,hlost,hclosed,hl,Bool.not_true,Bool.or_self,Bool.false_eq_true,if_false] at h
          exact .inl (by simp [callFenced,hl,hs,hlost,hclosed,by simpa using h])

lemma fenced_of_lost (hs : c.singleton=true) (h : x.singletonLost=true ∨ x.closed=true) : x.fenced c now=true := by
  obtain h | h := h <;> simp [fenced,hs,h]

/-- What a reply leaves of an instance: the request that waited for it may have become a proof. -/
structure Answered (x y : Instance) (r : ℤ) : Prop where
  lost : y.singletonLost=x.singletonLost
  closed : y.closed=x.closed
  last : y.lastRenew=x.lastRenew
  started : y.started=x.started
  pending : y.pendingStart=x.pendingStart
  proofs : ∀ start∈y.proofs,start∈x.proofs ∨ (r=1 ∧ x.pendingStart=some start)
  idle : x.task=.idle → y.task=.idle
  starting : ∀ id start q,y.task = .starting id start q → ∃ q',x.task = .starting id start q'

lemma answer_answered (x : Instance) (id : ℕ) (r : ℤ) : Answered x (x.answer id r) r := by
  have hsame : Answered x x r := ⟨rfl,rfl,rfl,rfl,rfl,fun _ h => .inl h,fun h => h,fun _ _ q h => ⟨q,h⟩⟩
  have hproof : ∀ start start',start'∈x.lastRenew.toList++(if r=1 then [start] else []) →
      x.pendingStart=some start → start'∈x.proofs ∨ (r=1 ∧ x.pendingStart=some start') := by
    intro start start' hmem hpending
    rcases mem_append.mp hmem with hmem | hmem
    · exact .inl (mem_append_left _ hmem)
    · split at hmem
      · rename_i h1
        rw [mem_singleton.mp hmem]
        exact .inr ⟨h1,hpending⟩
      · cases hmem
  unfold answer
  split
  · rename_i id' start htask
    split
    · exact ⟨rfl,rfl,rfl,rfl,by simp [pendingStart,htask],fun start' h => hproof start start' h (by simp [pendingStart,htask]),
        by simp [htask],by simp [htask]⟩
    · exact hsame
  · rename_i id' start htask
    split
    · exact ⟨rfl,rfl,rfl,rfl,by simp [pendingStart,htask],fun start' h => hproof start start' h (by simp [pendingStart,htask]),
        by simp [htask],by simp⟩
    · exact hsame
  · exact hsame

end Instance

def Backed (cfg : ℕ → SingletonCfg) (s : SingletonState) (i : ℕ) (start : ℤ) : Prop :=
  start ≤ s.now ∧ (s.now < start+(cfg i).keyLifetime →
    ∃ expiry,s.key = some (i,expiry) ∧ start+(cfg i).keyLifetime≤expiry)

structure SingletonInv (cfg : ℕ → SingletonCfg) (s : SingletonState) : Prop where
  backed : ∀ i,(s.insts i).closed=false → ∀ start ∈ (s.insts i).proofs,Backed cfg s i start
  pending : ∀ i start,(s.insts i).pendingStart=some start → start ≤ s.now
  released : ∀ r∈s.net,r.op=.release → (s.insts r.inst).closed=true
  fresh : ∀ i,(s.insts i).started=false → (s.insts i).lastRenew=none ∧ (s.insts i).task=.idle
  starting : ∀ i id start r,(s.insts i).task = .starting id start r → (s.insts i).lastRenew=none

namespace SingletonInv
variable {cfg : ℕ → SingletonCfg} {s : SingletonState} {i : ℕ} {x : Instance} {key : Option (ℕ × ℤ)}

lemma insts_put (j : ℕ) : (s.put i x).insts j=if j=i then x else s.insts j := by
  simp [put,Function.update_apply]

/-- One instance goes on, and the key with it: every proof is backed, and only a closed instance releases. -/
lemma update (h : SingletonInv cfg s) {net : List KeyRequest} {ids : ℕ}
    (hkeep : ∀ j,(s.insts j).closed=false → ∀ start∈(s.insts j).proofs,Backed cfg {s with key := key} j start)
    (hnet : ∀ r∈net,r∈s.net ∨ (r.inst=i ∧ (r.op=.release → x.closed=true)))
    (hclosed : (s.insts i).closed=true → x.closed=true)
    (hproofs : (s.insts i).closed=false → ∀ start∈x.proofs,
      start∈(s.insts i).proofs ∨ Backed cfg {s with key := key} i start)
    (hpending : ∀ start,x.pendingStart=some start → start ≤ s.now)
    (hfresh : x.started=false → x.lastRenew=none ∧ x.task=.idle)
    (hstarting : ∀ id start r,x.task=.starting id start r → x.lastRenew=none) :
    SingletonInv cfg {s.put i x with key := key, net := net, ids := ids} := by
  have hinst : ∀ {P : ℕ → Instance → Prop},P i x → (∀ j,P j (s.insts j)) → ∀ j,P j ((s.put i x).insts j) := by
    intro P hx hs j
    rw [insts_put]
    split
    · rename_i hj
      exact hj ▸ hx
    · exact hs j
  refine ⟨?_,?_,?_,?_,?_⟩
  · refine hinst (P := fun j y => y.closed=false → ∀ start∈y.proofs,Backed cfg {s with key := key} j start) ?_ hkeep
    intro hx start hstart
    have hopen : (s.insts i).closed=false := by
      by_contra hc
      simp [hclosed (by simpa using hc)] at hx
    exact (hproofs hopen start hstart).elim (hkeep i hopen start) id
  · exact hinst (P := fun _ y => ∀ start,y.pendingStart=some start → start ≤ s.now) hpending h.pending
  · intro r hr hop
    rcases hnet r hr with hr | ⟨rfl,hx⟩
    · exact hinst (P := fun j y => (s.insts j).closed=true → y.closed=true) hclosed (fun _ hc => hc) r.inst
        (h.released r hr hop)
    · simpa [put] using hx hop
  · exact hinst (P := fun _ y => y.started=false → y.lastRenew=none ∧ y.task=.idle) hfresh h.fresh
  · exact hinst (P := fun _ y => ∀ id start r,y.task=.starting id start r → y.lastRenew=none) hstarting
      h.starting

lemma tick (h : SingletonInv cfg s) {d : ℤ} (hd : 0≤d) : SingletonInv cfg {s with now := s.now+d} := by
  refine ⟨fun i hc start hstart => ?_,fun i start hp => ?_,h.released,h.fresh,h.starting⟩
  · obtain ⟨hle,hkey⟩ := h.backed i hc start hstart
    refine ⟨by dsimp only; omega,fun hlt => hkey ?_⟩
    dsimp only at hlt
    omega
  · have := h.pending i start hp
    dsimp only
    omega

/-- Redis executes a request: what counted before still has its key, and a success backs the
request's own start. -/
lemma exec_backed (h : SingletonInv cfg s) {r : KeyRequest} (hr : r∈s.net) {reply : ℤ}
    (hexec : execRequest cfg s r=(key,reply)) :
    (∀ i,(s.insts i).closed=false → ∀ start∈(s.insts i).proofs,
      Backed cfg {s with key := key} i start) ∧
    (r.op≠.release → reply=1 → ∀ start,start ≤ s.now → Backed cfg {s with key := key} r.inst start) := by
  -- a proof that counts shows in `holder`
  have hholder : ∀ i,(s.insts i).closed=false → ∀ start∈(s.insts i).proofs,
      s.now<start+(cfg i).keyLifetime → s.holder=some i := by
    intro i hc start hstart hlt
    obtain ⟨expiry,hkey,hle⟩ := (h.backed i hc start hstart).2 hlt
    have hlive : s.now<expiry := by omega
    simp [holder,hkey,Option.filter,hlive]
  have hsame : key=s.key → ∀ i,(s.insts i).closed=false → ∀ start∈(s.insts i).proofs,
      Backed cfg {s with key := key} i start := by
    rintro rfl i hc start hstart
    exact h.backed i hc start hstart
  have hmine : ∀ start,start ≤ s.now →
      Backed cfg {s with key := some (r.inst,s.now+(cfg r.inst).keyLifetime)} r.inst start :=
    fun start hle => ⟨hle,fun _ => ⟨_,rfl,by omega⟩⟩
  cases hop : r.op with simp only [execRequest,hop] at hexec
  | set =>
    split at hexec
    · cases hexec
      exact ⟨hsame rfl,fun _ h1 => by cases h1⟩
    split at hexec
    · cases hexec
      exact ⟨hsame rfl,fun _ h1 => by cases h1⟩
    · rename_i hfree
      cases hexec
      refine ⟨fun i hc start hstart => ⟨(h.backed i hc start hstart).1,fun hlt => ?_⟩,fun _ _ => hmine⟩
      rw [hholder i hc start hstart hlt] at hfree
      simp at hfree
  | renew =>
    split at hexec
    · cases hexec
      exact ⟨hsame rfl,fun _ h1 => by cases h1⟩
    rename_i holder hheld
    split at hexec
    · rename_i hself
      subst hself
      cases hexec
      refine ⟨fun i hc start hstart => ⟨(h.backed i hc start hstart).1,fun hlt => ?_⟩,fun _ _ => hmine⟩
      have hi := hholder i hc start hstart hlt
      rw [hheld] at hi
      obtain rfl := Option.some.inj hi
      exact (hmine start (h.backed _ hc start hstart).1).2 hlt
    · cases hexec
      exact ⟨hsame rfl,fun _ h1 => by cases h1⟩
  | release =>
    refine ⟨?_,fun hne => absurd rfl hne⟩
    split at hexec
    · rename_i hheld
      cases hexec
      intro i hc start hstart
      refine ⟨(h.backed i hc start hstart).1,fun hlt => ?_⟩
      have hi := hholder i hc start hstart hlt
      rw [hheld] at hi
      obtain rfl := Option.some.inj hi
      rw [h.released r hr hop] at hc
      cases hc
    · cases hexec
      exact hsame rfl

lemma exec (h : SingletonInv cfg s) {k : ℕ} {r : KeyRequest} (hr : s.net[k]? = some r) {reply : ℤ} (hexec : execRequest cfg s r=(key,reply)) :
    SingletonInv cfg {s.put r.inst ((s.insts r.inst).answer r.id reply) with
      key := key, net := s.net.eraseIdx k} := by
  have hmem : r∈s.net := mem_of_getElem? hr
  obtain ⟨hkeep,hnew⟩ := h.exec_backed hmem hexec
  have ha := (s.insts r.inst).answer_answered r.id reply
  refine h.update hkeep (fun q hq => .inl ((eraseIdx_sublist _ _).subset hq)) ha.closed.trans
    (fun hopen start hstart => (ha.proofs start hstart).imp_right fun hnow => ?_) (fun start hp => ?_)
    (fun hns => ?_) (fun id start q ht => ?_)
  · refine hnew (fun hrel => ?_) hnow.1 start (h.pending _ _ hnow.2)
    rw [h.released r hmem hrel] at hopen
    cases hopen
  · exact h.pending _ _ (ha.pending ▸ hp)
  · obtain ⟨hlast,htask⟩ := h.fresh _ (ha.started ▸ hns)
    exact ⟨ha.last.trans hlast,ha.idle htask⟩
  · obtain ⟨q',ht'⟩ := ha.starting id start q ht
    exact ha.last.trans (h.starting _ id start q' ht')

end SingletonInv

/-- What a step leaves of the fence of instance `i`: the loss stays, and a proof is published only by
Start or by a renewal. -/
structure FenceKept (s : SingletonState) (a : SingletonAction) (i : ℕ) (y : Instance) : Prop where
  lost : (s.insts i).singletonLost=true → y.singletonLost=true
  closed : (s.insts i).closed=true → y.closed=true
  last : y.lastRenew = (s.insts i).lastRenew ∨ (∃ id start r,(s.insts i).task = .starting id start r) ∨
    a = .renewStore i

lemma FenceKept.put {s : SingletonState} {a : SingletonAction} {i j : ℕ} {x : Instance} (h : FenceKept s a j x) :
    FenceKept s a i ((s.put j x).insts i) := by
  rw [SingletonInv.insts_put]
  split
  · rename_i hi
    exact hi ▸ h
  · exact ⟨id,id,.inl rfl⟩

/-- What a section of instance `i` leaves of it: no proof that was not there before. -/
structure Turn (s : SingletonState) (a : SingletonAction) (i : ℕ) (x : Instance) : Prop extends FenceKept s a i x where
  proofs : ∀ start∈x.proofs,start ∈ (s.insts i).proofs
  pending : ∀ start,x.pendingStart=some start → start ≤ s.now
  fresh : x.started=false → x.lastRenew=none ∧ x.task=.idle
  starting : ∀ id start r,x.task = .starting id start r → x.lastRenew=none

/-- Everything a step can do. -/
inductive SingletonMove (cfg : ℕ → SingletonCfg) (s : SingletonState) (a : SingletonAction) : SingletonState → Prop
  | tick (d : ℤ) (hd : 0≤d) : SingletonMove cfg s a { s with now := s.now+d }
  | turn (i : ℕ) (x : Instance) (net : List KeyRequest) (ids : ℕ) (hx : Turn s a i x)
      (hnet : ∀ r∈net,r∈s.net ∨ (r.inst=i ∧ (r.op=.release → x.closed=true))) :
      SingletonMove cfg s a { s.put i x with net := net, ids := ids }
  | exec (k : ℕ) (r : KeyRequest) (hr : s.net[k]? = some r) :
      SingletonMove cfg s a { s.put r.inst ((s.insts r.inst).answer r.id (execRequest cfg s r).2) with
        key := (execRequest cfg s r).1, net := s.net.eraseIdx k }

namespace SingletonInv
variable {cfg : ℕ → SingletonCfg} {s t : SingletonState} {i : ℕ} {x : Instance} {a : SingletonAction}

lemma started (h : SingletonInv cfg s) (hne : (s.insts i).task≠.idle) : (s.insts i).started=true := by
  by_contra hs
  exact hne (h.fresh i (by simpa using hs)).2

lemma leave (h : SingletonInv cfg s) (hne : (s.insts i).task≠.idle)
    (hlost : (s.insts i).singletonLost=true → x.singletonLost=true) (hclosed : x.closed=(s.insts i).closed)
    (hlast : x.lastRenew=(s.insts i).lastRenew) (hst : x.started=(s.insts i).started)
    (htask : x.task=.waiting ∨ x.task=.renewing ∨ x.task=.over ∨ ∃ start,x.task=.proved start ∧
      start∈(s.insts i).proofs) : Turn s a i x := by
  refine ⟨⟨hlost,hclosed.trans,.inl hlast⟩,fun start hstart => ?_,?_,fun hs => ?_,?_⟩
  · rw [proofs,hlast,mem_append] at hstart
    obtain hstart | hstart := hstart
    · exact mem_append_left _ hstart
    · obtain ht | ht | ht | ⟨start',ht,hmem⟩ := htask <;> rw [ht] at hstart <;> simp at hstart
      exact hstart ▸ hmem
  · obtain ht | ht | ht | ⟨_,ht,_⟩ := htask <;> simp [pendingStart,ht]
  · rw [hst,h.started hne] at hs
    cases hs
  · obtain ht | ht | ht | ⟨_,ht,_⟩ := htask <;> simp [ht]

lemma called (h : SingletonInv cfg s) (hne : (s.insts i).task≠.idle) {k : SingletonTask}
    (hk : k=.waiting ∨ k=.renewing ∨ k=.over ∨ ∃ start,k=.proved start ∧ start∈(s.insts i).proofs) :
    Turn s a i {(s.insts i).callFenced (cfg i) s.now with task := k} :=
  h.leave hne callFenced_lost (by simp) (by simp) (by simp) hk

lemma loses (h : SingletonInv cfg s) (hne : (s.insts i).task≠.idle) :
    Turn s a i ((s.insts i).callFenced (cfg i) s.now).lose :=
  h.leave hne (fun _ => rfl) (by simp [lose]) (by simp [lose]) (by simp [lose])
    (by simp [lose])

theorem move (h : SingletonInv cfg s) (hstep : singletonStep cfg s a=some t) : SingletonMove cfg s a t := by
  have hput : ∀ {i x},Turn s a i x → SingletonMove cfg s a (s.put i x) :=
    fun hx => .turn _ _ s.net s.ids hx fun _ hr => .inl hr
  have hsend : ∀ {i x op},Turn s a i x → (op=.release → x.closed=true) → SingletonMove cfg s a (s.send i op x) := by
    intro i x op hx hop
    refine .turn _ _ _ _ hx fun r hr => ?_
    obtain hr | rfl := mem_append.mp hr |>.imp_right mem_singleton.mp
    · exact .inl hr
    · exact .inr ⟨rfl,hop⟩
  cases a with simp only [singletonStep] at hstep
  | tick d =>
    split_ifs at hstep
    · cases hstep
      exact .tick d (by omega)
  | start i =>
    split at hstep
    · cases hstep
    rename_i hnot
    simp only [Bool.or_eq_true,not_or,Bool.not_eq_true] at hnot
    obtain ⟨hlast,htask⟩ := h.fresh i hnot.1
    split at hstep <;> cases hstep
    · exact hput ⟨⟨id,id,.inl rfl⟩,by simp [proofs,hlast],by simp [pendingStart],by simp,by simp⟩
    · exact hsend ⟨⟨id,id,.inl rfl⟩,by simp [proofs,hlast],by simp [pendingStart],by simp,by simp [hlast]⟩
        nofun
  | startDone i =>
    split at hstep
    · rename_i id' start r htask
      split at hstep <;> cases hstep
      · rename_i h1
        exact hput ⟨⟨id,id,.inr (.inl ⟨_,_,_,htask⟩)⟩,by simp [proofs,htask,h1],by simp [pendingStart],
          by simp [h.started (i := i) (by simp [htask])],by simp⟩
      · exact hput (h.leave (by simp [htask]) id rfl rfl rfl (by simp))
    · cases hstep
  | startFails i =>
    split at hstep <;> cases hstep
    rename_i htask
    exact hput (h.leave (by simp [htask]) id rfl rfl rfl (by simp))
  | startCheck i =>
    split at hstep
    · rename_i htask
      split at hstep <;> cases hstep <;> exact hput (h.called (by simp [htask]) (by simp))
    · cases hstep
  | renewBegin i | renewFails i =>
    split at hstep
    · rename_i htask
      split at hstep <;> cases hstep
      · exact hput (h.loses (by simp [htask]))
      · exact hput (h.called (by simp [htask]) (by simp))
    · cases hstep
  | renewSend i =>
    split at hstep <;> cases hstep
    rename_i htask
    exact hsend ⟨⟨id,id,.inl rfl⟩,by simp [proofs,htask],by simp [pendingStart],
      by simp [h.started (i := i) (by simp [htask])],by simp⟩ nofun
  | renewDone i =>
    split at hstep
    case h_2 => cases hstep
    rename_i id' start r htask
    have hne : (s.insts i).task≠.idle := by simp [htask]
    split at hstep
    · cases hstep
      exact hput (h.loses hne)
    split at hstep <;> cases hstep
    · rename_i h1
      exact hput (h.called hne (.inr (.inr (.inr ⟨start,rfl,by simp [proofs,htask,h1]⟩))))
    · exact hput (h.loses hne)
  | renewStore i =>
    split at hstep <;> cases hstep
    rename_i start htask
    exact hput ⟨⟨id,id,.inr (.inr rfl)⟩,by simp [proofs,htask],by simp [pendingStart],
      by simp [h.started (i := i) (by simp [htask])],by simp⟩
  | call i =>
    cases hstep
    exact hput ⟨⟨callFenced_lost,by simp,.inl (by simp)⟩,by simp [proofs],
      by simpa [pendingStart] using h.pending i,by simpa using h.fresh i,by simpa using h.starting i⟩
  | close i =>
    cases hstep
    exact hput ⟨⟨id,fun _ => rfl,.inl rfl⟩,by simp [proofs],h.pending i,h.fresh i,h.starting i⟩
  | release i =>
    split at hstep <;> cases hstep
    rename_i hclosed
    exact hsend ⟨⟨id,id,.inl rfl⟩,fun _ h => h,h.pending i,h.fresh i,h.starting i⟩ fun _ => hclosed
  | exec k =>
    split at hstep <;> cases hstep
    exact .exec k _ ‹_›

lemma step (h : SingletonInv cfg s) (hstep : singletonStep cfg s a=some t) : SingletonInv cfg t := by
  cases h.move hstep with
  | tick d hd => exact h.tick hd
  | turn i x net ids hx hnet =>
    exact h.update h.backed hnet hx.closed (fun _ start hstart => .inl (hx.proofs start hstart)) hx.pending hx.fresh
      hx.starting
  | exec k r hr => exact h.exec hr rfl

lemma fence_kept (h : SingletonInv cfg s) (hstep : singletonStep cfg s a=some t) (i : ℕ) :
    s.now≤t.now ∧ FenceKept s a i (t.insts i) := by
  cases h.move hstep with
  | tick d hd => exact ⟨by dsimp only; omega,id,id,.inl rfl⟩
  | turn j x net ids hx hnet => exact ⟨le_rfl,hx.toFenceKept.put⟩
  | exec k r hr =>
    have ha := (s.insts r.inst).answer_answered r.id (execRequest cfg s r).2
    exact ⟨le_rfl,FenceKept.put ⟨ha.lost.trans,ha.closed.trans,.inl ha.last⟩⟩

lemma exclusion (h : SingletonInv cfg s)
    (hms : ∀ i,(cfg i).singleton=true → (cfg i).proofLifetime≤(cfg i).keyLifetime) {i j : ℕ} (hi : (cfg i).singleton=true) (hj : (cfg j).singleton=true) (hfi : s.fenced cfg i=false)
    (hfj : s.fenced cfg j=false) : i=j := by
  have hkey : ∀ i,(cfg i).singleton=true → s.fenced cfg i=false → ∃ expiry,s.key=some (i,expiry) := by
    intro i hs hf
    simp only [SingletonState.fenced,Instance.fenced,hs,Bool.not_true,Bool.false_eq_true,if_false] at hf
    split_ifs at hf with hopen
    simp only [Bool.or_eq_true,not_or,Bool.not_eq_true] at hopen
    split at hf
    · cases hf
    rename_i last hlast
    have hback := h.backed i hopen.2 last (by simp [proofs,hlast])
    have hms := hms i hs
    obtain ⟨expiry,hkey,_⟩ := hback.2 (by simp at hf; omega)
    exact ⟨expiry,hkey⟩
  obtain ⟨ei,hei⟩ := hkey i hi hfi
  obtain ⟨ej,hej⟩ := hkey j hj hfj
  rw [hei] at hej
  simpa using congrArg (Option.map (·.1)) hej

end SingletonInv

/-- The instance whose `fenced` the step calls. -/
def callsFenced : SingletonAction → Option ℕ
  | .call i | .startCheck i | .renewBegin i | .renewDone i | .renewFails i => some i
  | _ => none

/-- A renewal is published while the proof before it still counts. -/
def renewsInTime (cfg : ℕ → SingletonCfg) (s : SingletonState) : SingletonAction → Bool
  | .renewStore i => !s.fenced cfg i
  | _ => true

section Runs
variable {cfg : ℕ → SingletonCfg} {s t : SingletonState} {i : ℕ}

lemma lost_run (h : SingletonInv cfg s) (hlost : (s.insts i).singletonLost=true ∨ (s.insts i).closed=true)
    {as : List SingletonAction} (hrun : run (singletonStep cfg) s as=some t) :
    (t.insts i).singletonLost=true ∨ (t.insts i).closed=true := by
  refine (run_invariant (I := fun s => SingletonInv cfg s ∧
    ((s.insts i).singletonLost=true ∨ (s.insts i).closed=true)) (fun s a t hs hstep => ?_) ⟨h,hlost⟩ hrun).2
  have hkept := (hs.1.fence_kept hstep i).2
  exact ⟨hs.1.step hstep,hs.2.imp hkept.lost hkept.closed⟩

/-- A lapsed proof stays lapsed while every renewal comes in time. -/
lemma fenced_step {a : SingletonAction} (h : SingletonInv cfg s) (hstarted : (s.insts i).lastRenew≠none)
    (hf : s.fenced cfg i=true) (hin : renewsInTime cfg s a=true) (hstep : singletonStep cfg s a=some t) :
    (t.insts i).lastRenew≠none ∧ t.fenced cfg i=true := by
  obtain ⟨hnow,hkept⟩ := h.fence_kept hstep i
  have hlast : (t.insts i).lastRenew=(s.insts i).lastRenew := by
    obtain hlast | ⟨id,start,r,htask⟩ | rfl := hkept.last
    · exact hlast
    · exact absurd (h.starting i id start r htask) hstarted
    · simp [renewsInTime,hf] at hin
  refine ⟨hlast ▸ hstarted,?_⟩
  cases hl : (s.insts i).lastRenew with
  | none => exact absurd hl hstarted
  | some last =>
    cases hs : (cfg i).singleton with
    | false => simp [SingletonState.fenced,Instance.fenced,hs] at hf
    | true =>
      by_cases hgone : (s.insts i).singletonLost=true ∨ (s.insts i).closed=true
      · exact fenced_of_lost hs (hgone.imp hkept.lost hkept.closed)
      have hlapsed : (cfg i).proofLifetime ≤ s.now-last := by
        simpa [SingletonState.fenced,Instance.fenced,hs,hl,hgone] using hf
      simp only [SingletonState.fenced,Instance.fenced,hs,hlast,hl,Bool.not_true,Bool.false_eq_true,if_false]
      split
      · rfl
      · simp
        omega

lemma called_step {a : SingletonAction} (hcalls : callsFenced a=some i) (hstarted : (s.insts i).lastRenew≠none)
    (hf : s.fenced cfg i=true) (hstep : singletonStep cfg s a=some t) :
    (t.insts i).singletonLost=true ∨ (t.insts i).closed=true := by
  have hsticks := callFenced_sticks hstarted hf
  cases a with
  | call j =>
    obtain rfl := Option.some.inj hcalls
    cases hstep
    simpa [put] using hsticks
  | startCheck j =>
    obtain rfl := Option.some.inj hcalls
    simp only [singletonStep,hf,if_true] at hstep
    split at hstep <;> cases hstep
    simpa [put] using hsticks
  | renewBegin j | renewDone j | renewFails j =>
    obtain rfl := Option.some.inj hcalls
    simp only [singletonStep,hf,if_true] at hstep
    split at hstep <;> cases hstep
    exact .inl (by simp [put,lose])
  | _ => cases hcalls

end Runs

/-- No two singleton instances are unfenced at once, whatever the delays, when no proof counts longer
than its key lives. An instance that was fenced after Start stays fenced: in any run, once a call
of `fenced` has seen it, and without one, while renewals are published before the proof lapses. -/
theorem singleton_exclusion (cfg : ℕ → SingletonCfg)
    (hms : ∀ i,(cfg i).singleton = true → (cfg i).proofLifetime ≤ (cfg i).keyLifetime)
    {s t : SingletonState} (hnet : s.net = []) (hfresh : ∀ i,s.insts i = {}) {as : List SingletonAction}
    (hrun : run (singletonStep cfg) s as = some t) : (∀ i j,(cfg i).singleton = true → (cfg j).singleton = true → i ≠ j →
      t.fenced cfg i = true ∨ t.fenced cfg j = true) ∧
    ∀ i,(cfg i).singleton = true → (t.insts i).lastRenew ≠ none → t.fenced cfg i = true →
      ∀ (bs : List SingletonAction) (u : SingletonState),run (singletonStep cfg) t bs = some u →
      bs.head?.bind callsFenced = some i ∨
        AllSteps (singletonStep cfg) (fun s a => renewsInTime cfg s a = true) t bs → u.fenced cfg i = true := by
  have hinv : SingletonInv cfg t := by
    refine run_invariant (fun _ _ _ h hstep => SingletonInv.step h hstep) ?_ hrun
    refine ⟨?_,?_,?_,?_,?_⟩ <;> simp [hnet,hfresh,proofs,pendingStart]
  refine ⟨fun i j hi hj hne => ?_,fun i hs hstarted hf bs u hbs hcase => ?_⟩
  · by_contra hboth
    simp only [not_or,Bool.not_eq_true] at hboth
    exact hne (hinv.exclusion hms hi hj hboth.1 hboth.2)
  obtain hcalled | hsteps := hcase
  · cases bs with
    | nil => cases hcalled
    | cons a bs =>
      obtain ⟨m,hm,hrest⟩ := run_cons_eq_some.mp hbs
      exact fenced_of_lost hs (lost_run (hinv.step hm) (called_step hcalled hstarted hf hm) hrest)
  · have hkeep := run_invariant_of_allSteps
      (I := fun s => SingletonInv cfg s ∧ (s.insts i).lastRenew≠none ∧ s.fenced cfg i=true)
      (fun _ _ _ h hin hstep => ⟨h.1.step hstep,fenced_step h.1 h.2.1 h.2.2 hin hstep⟩)
      ⟨hinv,hstarted,hf⟩ hsteps hbs
    exact hkeep.2.2

def freshSingletons : SingletonState := { now := 0, key := none }

/-- Ten seconds for both: the second instance starts when the first one's key has expired. -/
def takeoverRun : List SingletonAction :=
  [.start 0,.exec 0,.startDone 0,.startCheck 0,.tick (seconds 10),.start 1,.exec 0,.startDone 1,.startCheck 1]

/-- The first instance has lapsed, and stays fenced when its delayed renewal is answered. -/
theorem takeover_is_exclusive : ∃ t, run (singletonStep fun _ => ⟨true,seconds 10⟩) freshSingletons takeoverRun = some t ∧
    t.fenced (fun _ => ⟨true,seconds 10⟩) 1 = false ∧ t.fenced (fun _ => ⟨true,seconds 10⟩) 0 = true ∧
    ∀ u,run (singletonStep fun _ => ⟨true,seconds 10⟩) t [.renewBegin 0,.tick (seconds 1)] = some u →
      u.fenced (fun _ => ⟨true,seconds 10⟩) 0 = true := by
  obtain ⟨t,ht,hobs⟩ := Option.map_eq_some_iff.mp (show
    (run (singletonStep fun _ => ⟨true,seconds 10⟩) freshSingletons takeoverRun).map
      (fun t => (t.fenced (fun _ => ⟨true,seconds 10⟩) 1,(t.insts 0).lastRenew)) = some (false,some 0)
    by decide +kernel)
  simp only [Prod.mk.injEq] at hobs
  obtain ⟨hexcl,hstays⟩ := singleton_exclusion (fun _ => ⟨true,seconds 10⟩) (fun _ _ => by decide) rfl
    (fun _ => rfl) ht
  have hf : t.fenced (fun _ => ⟨true,seconds 10⟩) 0=true :=
    (hexcl 0 1 rfl rfl (by decide)).resolve_right (by simp [hobs.1])
  exact ⟨t,ht,hobs.1,hf,fun u hu => hstays 0 rfl (by simp [hobs.2]) hf _ u hu (.inl rfl)⟩

/-- With 1.9 ms a proof counts 1.52 ms and the key lives one: two instances are unfenced together.
With ten seconds, a renewal checked at 7.9 s and published after 8 s ends the fence in between. -/
theorem singleton_shared_and_fence_lifted : ((run (singletonStep fun _ => ⟨true,1900000⟩) freshSingletons
      [.start 0,.exec 0,.startDone 0,.startCheck 0,.tick 1000000,.start 1,.exec 0,.startDone 1,.startCheck 1]).map
      fun t => (t.fenced (fun _ => ⟨true,1900000⟩) 0,t.fenced (fun _ => ⟨true,1900000⟩) 1)) = some (false,false) ∧
    ((run (singletonStep fun _ => ⟨true,seconds 10⟩) freshSingletons
      [.start 0,.exec 0,.startDone 0,.startCheck 0,.tick 7900000000,.renewBegin 0,.renewSend 0,.exec 0,.renewDone 0,
        .tick 200000000]).map fun t => ((t.insts 0).lastRenew,t.fenced (fun _ => ⟨true,seconds 10⟩) 0,
        (singletonStep (fun _ => ⟨true,seconds 10⟩) t (.renewStore 0)).map
          fun u => u.fenced (fun _ => ⟨true,seconds 10⟩) 0)) = some (some 0,true,some false) := by
  constructor <;> decide +kernel

end JuiceMount.RespProxy
