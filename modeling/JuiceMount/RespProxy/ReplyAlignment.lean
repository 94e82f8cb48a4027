import JuiceMount.RespProxy.ReplySlots

/-! Alignment of the reply queue with the upstream connection, and the order of what the client
is sent. The slots that wait for an upstream frame, in queue order, are those of the answers not
read yet, then of the commands not answered yet, then of the command still to be written. -/
namespace JuiceMount.RespProxy
open ReplyState Pending List Option

def wantN (kind : SubKind) (r : Request) : ℤ := if r.args=[] && kind.un then -1 else r.args.length

/-- The slot is that of the command. -/
structure Fits (p : Pending) (u : Sent) : Prop where
  id : p.id=u.id
  owner : p.owner=u.owner
  sub : p.slot.sub=u.sub
  count : ∀ kind,u.sub=some kind → p.slot.drop=false ∧ p.slot.subN = wantN kind u.req

/-- A subscribe-family slot counts the confirmations still to come; one for every channel of its
family learns their number at the first. -/
def Remaining (S : Subs) (kind : SubKind) (n : ℤ) (chs : List (Option Bytes)) : Prop :=
  chs≠[] ∧ (n=chs.length ∨ n<0 ∧ chs.length = max (S kind.base).length 1)

/-- The waiting slots `ps` against the answers and the commands `ups` behind them. `S` is what
the reply goroutine knows of the subscriptions before these answers, `r` what Redis has. -/
def Aligned (r : Subs) (ups : List Sent) : List Answer → Subs → List Pending → Prop
  | [],S,ps => S=r ∧ List.Forall₂ Fits ps ups
  | .frame u _::as,S,ps =>
    ∃ p ps',ps = p::ps' ∧ u.id=p.id ∧ u.owner=p.owner ∧ Aligned r ups as S ps'
  | .confirms u kind chs::as,S,ps =>
    ∃ p ps',ps = p::ps' ∧ u.id=p.id ∧ u.owner=p.owner ∧
      (p.slot.drop=false ∧ p.slot.sub=some kind ∧ Remaining S kind p.slot.subN chs) ∧
      Aligned r ups as (chs.foldl (confirm kind) S) ps'

def Out.facing : Out → Bool
  | .forward _ slot => !slot.drop
  | .reply _ => true
  | _ => false

def OutOk : Out → Prop
  | .forward r slot => slot.synth=none ∧
      ∀ kind,slot.sub=some kind → slot.drop=false ∧ slot.subN = wantN kind r
  | .noSlot _ => False
  | _ => True

def owed (s : ReplyState) : List ℕ := (s.todo.filter Out.facing).map (fun _ => s.taken-1)

structure RInv (s : ReplyState) : Prop where
  fwd : s.fwd = (s.q.filter waiting).length
  head : s.draining=false → ∀ p ps,s.q = p::ps → p.waiting=true
  aligned : Aligned s.rsubs (s.up++s.sending.toList) s.down s.subs (s.q.filter waiting)
  synths : ∀ p∈s.q,p.waiting=false → p.facing=true
  order : ∃ rest,s.log.map (fun d => d.place.owner)++(s.q.filter Pending.facing).map owner++rest =
    List.range s.taken ∧ (s.stopped=false → rest = owed s)
  own : ∀ d∈s.log,d.Own
  calls : ∀ o∈s.todo,OutOk o
  opened : s.closed=none

section Alignment
variable {r S : Subs} {ups : List Sent} {as : List Answer} {ps : List Pending} {u : Sent}

lemma Aligned.behind {r' : Subs} {ups' : List Sent} (h : Aligned r ups as S ps) (bs : List Answer) (qs : List Pending)
    (hend : ∀ {ps},List.Forall₂ Fits ps ups → Aligned r' ups' bs r (ps++qs)) : Aligned r' ups' (as++bs) S (ps++qs) := by
  induction as generalizing S ps with
  | nil =>
    obtain ⟨rfl,hf⟩ := h
    exact hend hf
  | cons a as ih =>
    cases a with
    | frame v _ =>
      obtain ⟨p,ps',rfl,hid,how,hrest⟩ := h
      exact ⟨p,ps'++qs,rfl,hid,how,ih hrest⟩
    | confirms v kind chs =>
      obtain ⟨p,ps',rfl,hid,how,hrem,hrest⟩ := h
      exact ⟨p,ps'++qs,rfl,hid,how,hrem,ih hrest⟩

lemma Aligned.snoc {p : Pending} (h : Aligned r ups as S ps) (hf : Fits p u) : Aligned r (ups++[u]) as S (ps++[p]) := by
  have := h.behind [] [p] fun hups => ⟨rfl,rel_append hups (.cons hf .nil)⟩
  rwa [append_nil] at this

lemma Aligned.answer {r' : Subs} {b : Answer} (h : Aligned r (u::ups) as S ps)
    (hend : ∀ {p ps},Fits p u → List.Forall₂ Fits ps ups → Aligned r' ups [b] r (p::ps)) :
    Aligned r' ups (as++[b]) S ps := by
  have := h.behind [b] [] fun {ps} hups => by
    rw [append_nil]
    cases hups with
    | cons hfit hrest => exact hend hfit hrest
  rwa [append_nil] at this

lemma Aligned.answer_frame (v : Value) (h : Aligned r (u::ups) as S ps) : Aligned r ups (as++[.frame u v]) S ps :=
  h.answer fun hfit hrest => ⟨_,_,rfl,hfit.id.symm,hfit.owner.symm,rfl,hrest⟩

lemma channels_remaining {kind : SubKind} {q : Request} (h : channels S kind q≠[]) :
    Remaining S kind (wantN kind q) (channels S kind q) := by
  refine ⟨h,?_⟩
  unfold channels at h ⊢
  by_cases hargs : q.args=[]
  · simp only [hargs,ne_eq,not_true_eq_false,if_false] at h ⊢
    cases hk : kind.un with
    | false => simp [hk] at h
    | true =>
      refine .inr ⟨by simp [wantN,hargs,hk],?_⟩
      simp only [Bool.not_true,Bool.false_eq_true,if_false]
      split
      · rename_i hempty
        simp [hempty]
      · rename_i hne
        have : 1≤(S kind.base).length := length_pos_iff.mpr hne
        simp [this]
  · exact .inl (by simp [wantN,hargs])

lemma Aligned.answer_confirms {kind : SubKind} (hsub : u.sub=some kind)
    (hne : channels r kind u.req≠[]) (h : Aligned r (u::ups) as S ps) :
    Aligned ((channels r kind u.req).foldl (confirm kind) r) ups (as++[.confirms u kind (channels r kind u.req)]) S ps := by
  refine h.answer fun hfit hrest => ?_
  obtain ⟨hdrop,hn⟩ := hfit.count kind hsub
  exact ⟨_,_,rfl,hfit.id.symm,hfit.owner.symm,⟨hdrop,hfit.sub.trans hsub,hn ▸ channels_remaining hne⟩,rfl,hrest⟩

end Alignment

/-- What the two goroutines keep for the client, whether the connection is still open or not. -/
structure Kept (s : ReplyState) : Prop where
  noDesync : s.closed≠some .desync
  order : ∃ rest,s.log.map (fun d => d.place.owner)++rest = List.range s.taken
  own : ∀ d∈s.log,d.Own
  inv : s.closed=none → RInv s

lemma RInv.kept {s : ReplyState} (h : RInv s) : Kept s := by
  obtain ⟨rest,hrest,_⟩ := h.order
  exact ⟨by simp [h.opened],⟨_,by rw [← append_assoc]; exact hrest⟩,h.own,fun _ => h⟩

section Steps
variable {caps : Caps} {allowedDBs : List ℕ} {s t : ReplyState}

lemma filter_snoc (f : Pending → Bool) (q : List Pending) (p : Pending) :
    (q++[p]).filter f=q.filter f++(if f p then [p] else []) := by
  rw [filter_append]
  cases h : f p <;> simp [List.filter,h]

lemma head_snoc {q : List Pending} {p : Pending} (h : ∀ x xs,q=x::xs → x.waiting=true)
    (hp : q=[] → p.waiting=true) : ∀ x xs,q++[p]=x::xs → x.waiting=true := by
  intro x xs hx
  cases q with
  | nil =>
    cases hx
    exact hp rfl
  | cons y ys =>
    cases hx
    exact h _ ys rfl

variable {q : Request} {outs : List Out} {env : Env}

lemma owed_cons {o : Out} (h : s.todo=o::outs) :
    owed s=(if o.facing then [s.taken-1] else [])++(outs.filter Out.facing).map (fun _ => s.taken-1) := by
  unfold owed
  rw [h,filter_cons]
  split <;> simp

lemma RInv.send (h : RInv s) (caps : Caps) (cost : ℤ) {slot : Slot} (hok : OutOk (.forward q slot))
    (hcalls : ∀ o∈outs,OutOk o) (hstop : s.stopped=false) (hsend : s.sending=none)
    (howed : owed s=(if slot.drop then [] else [s.taken-1])++(outs.filter Out.facing).map (fun _ => s.taken-1)) :
    RInv {s.enqueue caps slot cost with
      sending := some {id := s.next, owner := s.taken-1, req := q, sub := slot.sub}, todo := outs} := by
  obtain ⟨hsynth,hsub⟩ := hok
  set p : Pending := {slot := slot, id := s.next, owner := s.taken-1} with hp
  have hwait : p.waiting=true := by simp [hp,waiting,hsynth]
  have hfilter : (s.q++[p]).filter waiting=s.q.filter waiting++[p] := by rw [filter_snoc,if_pos hwait]
  obtain ⟨rest,hrest,hdue⟩ := h.order
  refine ⟨?_,fun hd => head_snoc (h.head hd) fun _ => hwait,?_,
    forall_mem_append.mpr ⟨h.synths,forall_mem_singleton.mpr fun hw => ?_⟩,⟨_,?_,fun _ => rfl⟩,h.own,hcalls,
    h.opened⟩
  · simp only [enqueue,hsynth,isNone_none,if_true]
    rw [hfilter,h.fwd,length_append]
    rfl
  · have halign := h.aligned.snoc (p := p) (u := {id := s.next, owner := s.taken-1, req := q, sub := slot.sub})
      ⟨rfl,rfl,rfl,hsub⟩
    rw [hsend] at halign
    simp only [enqueue]
    rw [hfilter]
    simpa using halign
  · rw [hwait] at hw
    cases hw
  · have hfacing : p.facing=!slot.drop := rfl
    simp only [enqueue,owed]
    rw [← hrest,hdue hstop,howed,filter_snoc,hfacing]
    cases slot.drop <;> simp

lemma RInv.forward (h : RInv s) {slot : Slot}
    (htodo : s.todo=.forward q slot::outs) (hstop : s.stopped=false) (hsend : s.sending=none) :
    RInv (s.forward caps q slot outs) := by
  have hsent : RInv {s.enqueue caps slot slotCost with
      sending := some {id := s.next, owner := s.taken-1, req := q, sub := slot.sub}, todo := outs} := by
    refine h.send caps _ (h.calls _ (by rw [htodo]; simp)) (fun o ho => h.calls o (by rw [htodo]; simp [ho])) hstop hsend ?_
    rw [owed_cons htodo]
    cases hd : slot.drop <;> simp [Out.facing,hd]
  unfold ReplyState.forward
  dsimp only
  split
  · obtain ⟨rest,hrest,_⟩ := hsent.order
    exact {hsent with calls := by simp, order := ⟨rest,hrest,nofun⟩}
  · exact hsent

lemma RInv.queueSynth (h : RInv s) {b : Bytes} {cost : ℤ} (htodo : s.todo=.reply b::outs) (hstop : s.stopped=false)
    (hne : s.q≠[]) : RInv {s.enqueue caps {synth := some b} cost with todo := outs} := by
  set p : Pending := {slot := {synth := some b}, id := s.next, owner := s.taken-1} with hp
  have hfilter : (s.q++[p]).filter waiting=s.q.filter waiting := by
    rw [filter_snoc,if_neg (by simp [hp,waiting]),append_nil]
  obtain ⟨rest,hrest,hdue⟩ := h.order
  refine ⟨?_,fun hd => head_snoc (h.head hd) fun hemp => absurd hemp hne,?_,
    forall_mem_append.mpr ⟨h.synths,forall_mem_singleton.mpr fun _ => rfl⟩,⟨_,?_,fun _ => rfl⟩,h.own,
    fun o ho => h.calls o (by rw [htodo]; simp [ho]),h.opened⟩
  · simp only [enqueue]
    rw [hfilter]
    exact h.fwd
  · simp only [enqueue]
    rw [hfilter]
    exact h.aligned
  · have hfacing : p.facing=true := rfl
    simp only [enqueue,owed]
    rw [← hrest,hdue hstop,owed_cons htodo,filter_snoc,hfacing]
    simp [Out.facing]

/-- `reply` queues the proxy's own reply, behind a PING when nothing else would wake the reply
goroutine. -/
lemma RInv.reply (h : RInv s) {b : Bytes} (htodo : s.todo=.reply b::outs)
    (hstop : s.stopped=false) (hsend : s.sending=none) : RInv (s.reply caps b outs) := by
  unfold ReplyState.reply
  split
  · have hok : OutOk (.forward pingCmd {drop := true}) := ⟨rfl,nofun⟩
    have hping := h.send caps slotCost hok h.calls hstop hsend rfl
    exact hping.queueSynth htodo hstop (append_ne_nil_of_right_ne_nil _ (cons_ne_nil _ _))
  · rename_i hbusy
    exact h.queueSynth htodo hstop fun hemp => hbusy (by rw [h.fwd,hemp]; rfl)

lemma RInv.call (h : RInv s) (hcall : s.call caps=some t) : RInv t := by
  unfold ReplyState.call at hcall
  split at hcall
  · cases hcall
  rename_i hfree
  simp only [Bool.or_eq_true,not_or,Bool.not_eq_true,isSome_eq_false_iff,
    isNone_iff_eq_none] at hfree
  have hskip : ∀ {c : Conn} {n : ℕ} {outs : List Out},s.todo=.await n::outs →
      RInv {s with todo := outs, conn := c} := by
    intro c n outs htodo
    obtain ⟨rest,hrest,hdue⟩ := h.order
    refine {h with order := ⟨rest,hrest,fun hs => ?_⟩, calls := fun o ho => h.calls o (by rw [htodo]; simp [ho])}
    rw [hdue hs,owed_cons htodo]
    simp [Out.facing,owed]
  split at hcall
  · cases hcall
  · rename_i htodo
    cases hcall
    exact h.forward htodo hfree.1 hfree.2
  · rename_i htodo
    cases hcall
    exact h.reply htodo hfree.1 hfree.2
  · rename_i htodo
    split_ifs at hcall
    · split at hcall <;> cases hcall
      · exact hskip htodo
      · exact hskip htodo
  · cases hcall

lemma RInv.answer (h : RInv s) {v : Option Value} (hans : s.answer v=some t) : RInv t := by
  unfold ReplyState.answer at hans
  split at hans
  · cases hans
  rename_i u up hup
  have halign := h.aligned
  rw [hup] at halign
  split at hans
  · cases hans
    exact {h with aligned := halign.answer_frame _}
  · rename_i kind hsub
    dsimp only at hans
    split_ifs at hans
    · rename_i hne
      cases hans
      exact {h with aligned := halign.answer_confirms hsub hne}
  · cases hans

/-- Outside the drain loop the slot of the next answer is the head of the queue. -/
lemma RInv.head_slot (h : RInv s) (hdr : s.draining=false) {p : Pending} {ps : List Pending}
    (hf : s.q.filter waiting=p::ps) : ∃ qs,s.q=p::qs ∧ p.waiting=true ∧ qs.filter waiting=ps := by
  cases hq : s.q with
  | nil => simp [hq] at hf
  | cons x xs =>
    have hx := h.head hdr x xs hq
    rw [hq,filter_cons_of_pos hx] at hf
    cases hf
    exact ⟨xs,rfl,hx,rfl⟩

lemma Remaining.next {S : Subs} {kind : SubKind} {n : ℤ} {ch : Option Bytes}
    {chs : List (Option Bytes)} (h : Remaining S kind n (ch::chs)) :
    (if n<0 then ((max (S kind.base).length 1 : ℕ) : ℤ) else n)-1=chs.length := by
  rcases h.2 with rfl | ⟨hneg,hlen⟩
  · have : ¬((ch::chs).length : ℤ)<0 := by omega
    rw [if_neg this]
    simp
  · rw [if_pos hneg,← hlen]
    simp

lemma RInv.push (h : RInv s) (hdr : s.draining=false) {u : Sent} {kind : SubKind}
    {ch : Option Bytes} {chs : List (Option Bytes)} {down : List Answer}
    (hdown : s.down=.confirms u kind (ch::chs)::down) :
    RInv {s.pushFrame u kind ch with
      down := if chs=[] then down else .confirms u kind chs::down, draining := true} := by
  obtain ⟨rest,hrest,hdue⟩ := h.order
  have halign := h.aligned
  rw [hdown] at halign
  obtain ⟨p,ps,hps,hid,how,⟨hdrop,hsub,hrem⟩,hnext⟩ := halign
  obtain ⟨qs,hq,hw,hqs⟩ := h.head_slot hdr hps
  have hsynths : ∀ x∈qs,x.waiting=false → x.facing=true :=
    fun x hx => h.synths x (by rw [hq]; simp [hx])
  rw [hq,filter_cons_of_pos (by simp [Pending.facing,hdrop])] at hrest
  rw [← hqs] at hnext
  have hcount := hrem.next
  simp only [pushFrame,hq,hw,hsub,Bool.true_and,decide_true,if_true,hcount]
  by_cases hlast : chs=[]
  · subst hlast
    simp only [length_nil,Nat.cast_zero,le_refl,if_true]
    refine ⟨?_,nofun,hnext,hsynths,⟨rest,?_,hdue⟩,
      forall_mem_append.mpr ⟨h.own,forall_mem_singleton.mpr ⟨hid,how,by simp [hsub]⟩⟩,h.calls,h.opened⟩
    · simp only [pop]
      rw [h.fwd,hps,hqs]
      rfl
    · simpa [pop] using hrest
  · have hpos : ¬(chs.length : ℤ)≤0 := by
      have := length_pos_iff.mpr hlast
      omega
    simp only [hpos,hlast,if_false]
    set p' : Pending :=
      {p with slot := {p.slot with sub := some kind, subN := (chs.length : ℤ)}} with hp'
    have hw' : p'.waiting=true := hw
    refine ⟨?_,nofun,?_,forall_mem_cons.mpr ⟨fun hxw => ?_,hsynths⟩,⟨rest,?_,hdue⟩,h.own,h.calls,h.opened⟩
    · simp only
      rw [filter_cons_of_pos hw',h.fwd,hps,hqs]
      rfl
    · simp only
      rw [filter_cons_of_pos hw']
      exact ⟨p',_,rfl,hid,how,⟨hdrop,rfl,hlast,.inl rfl⟩,hnext⟩
    · rw [hw'] at hxw
      cases hxw
    · simp only
      rw [filter_cons_of_pos (by simp [Pending.facing,hp',hdrop])]
      exact hrest

lemma RInv.frame (h : RInv s) (hframe : s.frame=some t) : Kept t := by
  unfold ReplyState.frame at hframe
  split_ifs at hframe with hdr
  simp only [Bool.not_eq_true] at hdr
  obtain ⟨rest,hrest,hdue⟩ := h.order
  split at hframe
  · cases hframe
  · rename_i u v down hdown
    have halign := h.aligned
    rw [hdown] at halign
    obtain ⟨p,ps,hps,hid,how,hnext⟩ := halign
    obtain ⟨qs,hq,hw,hqs⟩ := h.head_slot hdr hps
    have hfwd : s.fwd-1=(qs.filter waiting).length := by
      rw [h.fwd,hps,hqs]
      rfl
    have hsynths : ∀ x∈qs,x.waiting=false → x.facing=true :=
      fun x hx => h.synths x (by rw [hq]; simp [hx])
    rw [← hqs] at hnext
    rw [hq] at hrest
    simp only [hq,hw,Bool.not_true,Bool.false_eq_true,if_false] at hframe
    split at hframe
    · rename_i hdrop
      cases hframe
      have hinv : RInv {s.pop qs with down := down, draining := true} := by
        refine ⟨hfwd,nofun,hnext,hsynths,⟨rest,?_,hdue⟩,h.own,h.calls,h.opened⟩
        rwa [filter_cons_of_neg (by simp [Pending.facing,hdrop])] at hrest
      exact hinv.kept
    · rename_i hdrop
      rw [filter_cons_of_pos (by simpa [Pending.facing] using hdrop)] at hrest
      split at hframe
      · cases hframe
        refine ⟨by simp,⟨p.owner::(qs.filter Pending.facing).map owner++rest,?_⟩,h.own,
          nofun⟩
        simpa [pop] using hrest
      cases hframe
      have hinv : RInv {s.pop qs with
          down := down, draining := true, log := (s.pop qs).log++[⟨p,.frame u v⟩]} := by
        refine ⟨hfwd,nofun,hnext,hsynths,⟨rest,?_,hdue⟩,
          forall_mem_append.mpr ⟨h.own,forall_mem_singleton.mpr ⟨hid,how⟩⟩,h.calls,h.opened⟩
        simpa [pop] using hrest
      exact hinv.kept
  · cases hframe
  · rename_i u kind ch chs down hdown
    cases hframe
    exact (h.push hdr hdown).kept

/-- A client command makes exactly one call the client sees the reply of. -/
def OneReply (outs : List Out) : Prop :=
  (∀ o∈outs,OutOk o) ∧ (outs.filter Out.facing).length=1

lemma oneReply_reply (b : Bytes) : OneReply [.reply b] := ⟨by simp [OutOk],rfl⟩

lemma oneReply_forward (q : Request) : OneReply [.forward q {}] := ⟨by simp [OutOk],rfl⟩

lemma oneReply_forwardHello (c : Conn) (q : Request) : OneReply (c.forwardHello q).2 := by
  unfold Conn.forwardHello
  split <;> exact oneReply_forward _

lemma oneReply_dropped (q : Request) (h : OneReply outs) : OneReply (.forward q {drop := true}::outs) := by
  refine ⟨fun o ho => ?_,by simpa [Out.facing,List.filter] using h.2⟩
  rcases mem_cons.mp ho with rfl | ho
  · exact ⟨rfl,nofun⟩
  · exact h.1 o ho

lemma oneReply_exec (c : Conn) (x : TxnState) (env : Env) : OneReply (c.exec x env).2 := by
  have happ : ∀ (rs : List Request) {outs : List Out},OneReply outs →
      OneReply (rs.map (fun q => Out.forward q {drop := true})++outs) := by
    intro rs outs h
    induction rs with
    | nil => exact h
    | cons q rs ih => exact oneReply_dropped q ih
  unfold Conn.exec
  dsimp only
  split
  · exact oneReply_dropped _ (oneReply_reply _)
  · exact happ _ ⟨by simp [OutOk],rfl⟩

lemma oneReply_byClass {c : Conn} (hraw : (c.byClass q env).2.any rawOut=false) : OneReply (c.byClass q env).2 := by
  unfold Conn.byClass at hraw ⊢
  split
  · exact oneReply_reply _
  · exact oneReply_reply _
  · rename_i kind _ _
    simp only [Conn.subscribe] at hraw ⊢
    split
    · exact ⟨by simp [OutOk,wantN],rfl⟩
    · rename_i h1 h2 h3
      simp [h1,h2,h3,rawOut] at hraw
  · split
    · unfold Conn.gateBare
      split
      · exact oneReply_reply _
      · exact oneReply_forward _
    · exact oneReply_forward _

lemma oneReply_inTxn (c : Conn) (x : TxnState) (q : Request) (env : Env) : OneReply (c.inTxn x q env).2 := by
  unfold Conn.inTxn
  split
  · exact oneReply_exec c x env
  · exact oneReply_forward _
  · exact oneReply_forward _
  · exact oneReply_forward _
  · split
    · exact oneReply_reply _
    · exact oneReply_forward _

lemma oneReply_auth (c : Conn) (q : Request) (env : Env) : OneReply (c.auth q env).2 := by
  unfold Conn.auth
  split
  · exact oneReply_reply _
  split
  · exact oneReply_reply _
  · exact oneReply_dropped _ (oneReply_reply _)

lemma oneReply_hello (c : Conn) (q : Request) (env : Env) : OneReply (c.hello q env).2 := by
  unfold Conn.hello
  split
  · exact oneReply_forwardHello _ _
  split
  · exact oneReply_reply _
  split
  · exact oneReply_reply _
  · exact oneReply_forwardHello _ _
  · exact oneReply_reply _
  · exact oneReply_forwardHello _ _

lemma oneReply_selectDB (c : Conn) (q : Request) : OneReply (c.selectDB allowedDBs q) := by
  unfold Conn.selectDB
  split
  · split
    · exact oneReply_forward _
    · split
      · exact oneReply_reply _
      · exact ⟨by simp [OutOk],rfl⟩
  · exact oneReply_forward _

/-- Every command outside RESP2 pub/sub gets exactly one reply. -/
lemma oneReply_command {c d : Conn} (h : c.command allowedDBs q env=some (d,outs))
    (hraw : outs.any rawOut=false) : OneReply outs := by
  unfold Conn.command at h
  split at h
  · split at h
    · cases h
      simp [rawOut] at hraw
    · cases h
      simp [rawOut] at hraw
    · split at h <;> cases h
      simp [rawOut] at hraw
  split at h
  · rename_i x _
    have := oneReply_inTxn c x q env
    simp only [Option.some.injEq] at h
    rwa [h] at this
  simp only [Option.some.injEq] at h
  have hout : outs=(d,outs).2 := rfl
  rw [hout,← h] at hraw ⊢
  cases hv : q.verb <;> simp only [hv] at hraw ⊢
  case auth => exact oneReply_auth c q env
  case hello => exact oneReply_hello c q env
  case select => exact oneReply_selectDB c q
  case client =>
    split
    · exact oneReply_forward _
    · rename_i hname
      simp only [hname,if_false,Bool.false_eq_true] at hraw
      exact oneReply_byClass hraw
  case subscribe => exact oneReply_byClass hraw
  case other => exact oneReply_byClass hraw
  all_goals exact oneReply_forward _

lemma RInv.take (h : RInv s) (htake : s.take allowedDBs q env=some t) : RInv t := by
  obtain ⟨rest,hrest,hdue⟩ := h.order
  have hstop : RInv {s with stopped := true} := {h with order := ⟨rest,hrest,nofun⟩}
  unfold ReplyState.take at htake
  split at htake
  · cases htake
  rename_i hfree
  simp only [ne_eq,decide_not,Bool.or_eq_true,Bool.not_eq_true',decide_eq_false_iff_not,not_or,
    Bool.not_eq_true,not_not] at hfree
  split at htake
  · cases htake
    exact hstop
  split at htake
  · cases htake
    exact hstop
  rename_i c outs hcmd
  split_ifs at htake with hraw
  cases htake
  obtain ⟨hok,hone⟩ := oneReply_command hcmd (by simpa using hraw)
  refine {h with order := ⟨[s.taken],?_,fun _ => ?_⟩, calls := hok}
  · rw [hdue hfree.1.1] at hrest
    simp only [owed,hfree.2,filter_nil,map_nil,append_nil] at hrest
    rw [hrest,range_succ]
  · obtain ⟨o,ho⟩ := length_eq_one_iff.mp hone
    simp [owed,ho]

end Steps

section Progress
variable (caps : Caps) (allowedDBs : List ℕ) {s t : ReplyState}

def unread : List Answer → ℕ
  | [] => 0
  | .frame _ _::as => unread as+1
  | .confirms _ _ chs::as => unread as+chs.length

variable {caps allowedDBs}

end Progress

end JuiceMount.RespProxy
