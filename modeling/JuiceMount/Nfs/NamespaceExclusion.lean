import JuiceMount.Nfs.Namespace

/-! Exclusion by name over whole runs: operations of overlapping names are never active together, and
a ticket whose name was owned at any moment since its admission has an old generation. -/
namespace JuiceMount.Nfs
open Transition NamespaceCoordinator GoMap Option Function

namespace NamespaceCoordinator

def readers (c : NamespaceCoordinator) (name : List Char) : ℕ := c.tickets.countP (fun e => e.2.name=name)

lemma generation_addTicket (c : NamespaceCoordinator) (name : List Char) (e x : ℕ) :
    ((c.addTicket name e).epochs x).generation=(c.epochs x).generation := by
  by_cases hx : x=e
  · simp only [hx,addTicket,update_self]
  · simp only [addTicket,update_of_ne hx]

end NamespaceCoordinator

/-- What a step does. -/
inductive NamespaceMove (c : NamespaceCoordinator) : NamespaceCoordinator → Prop
  | refused : NamespaceMove c c
  | begin {held : List (List Char)} (clean : ∀ n∈held,∃ raw,n = cleanNamespaceName raw)
      (free : ∀ n∈held,∀ i op,c.active.get? i=some op → op.overlaps n=false) :
      NamespaceMove c { c with
        active := c.active.set c.nextOp { names := held }, nextOp := c.nextOp+1
        epochs := c.reads.foldl (invalidate held) c.epochs }
  | flag {i : ℕ} {op op' : NamespaceOperation} (found : c.active.get? i=some op) (names : op'.names=op.names)
      (failed : op.failed=true → op'.failed=true) : NamespaceMove c { c with active := c.active.set i op' }
  | finish {i : ℕ} {op : NamespaceOperation} (found : c.active.get? i=some op) (unfailed : ¬op.failed=true) :
      NamespaceMove c { c with active := c.active.erase i }
  | ticket {name : List Char} (free : c.readErrorLocked name true=none) :
      NamespaceMove c ((c.readEpoch name).2.addTicket name (c.readEpoch name).1)
  | release {r : ℕ} {d : NamespaceCoordinator} (done : c.release r=some d) : NamespaceMove c d
  | stop : NamespaceMove c { c with stopping := true }

lemma NamespaceMove.of_step {c d : NamespaceCoordinator} {a : NamespaceAction} (h : namespaceStep c a=some d) :
    NamespaceMove c d := by
  cases a with
  | begin names =>
    cases h
    unfold NamespaceCoordinator.begin
    split
    · exact .refused
    simp only
    split
    · exact .refused
    rename_i hfree
    refine .begin (fun n hn => ?_) fun n hn i op hop => ?_
    · obtain ⟨raw,-,rfl⟩ := List.mem_map.mp hn
      exact ⟨raw,rfl⟩
    · by_contra hover
      exact hfree (List.any_eq_true.mpr ⟨n,hn,List.any_eq_true.mpr ⟨_,mem_of_get? hop,by simpa using hover⟩⟩)
  | mark i mutated poison | blockReads i =>
    obtain ⟨op,hop,rfl⟩ := map_eq_some_iff.mp h
    exact .flag hop rfl id
  | finish i err =>
    simp only [namespaceStep,NamespaceCoordinator.finish] at h
    split at h
    · cases h
    rename_i op hop
    split at h
    · cases h
    split at h <;> cases h
    · exact .flag hop rfl fun _ => rfl
    · exact .finish hop ‹_›
  | admitRead name =>
    cases h
    unfold NamespaceCoordinator.admitRead
    simp only
    split
    · exact .refused
    · rename_i hfree
      exact .ticket (by simpa using hfree)
  | release r => exact .release h
  | stop =>
    cases h
    exact .stop

structure NamespaceInv (c : NamespaceCoordinator) : Prop where
  opFresh : ∀ i op,c.active.get? i=some op → i<c.nextOp
  clean : ∀ i op,c.active.get? i=some op → ∀ n∈op.names,∃ raw,n = cleanNamespaceName raw
  apart : ∀ i j op op',c.active.get? i=some op → c.active.get? j=some op' → i≠j →
    ∀ n∈op.names,op'.overlaps n=false
  ticketFresh : ∀ r ticket,c.tickets.get? r=some ticket → r<c.nextTicket
  ticketKeys : c.tickets.keys.Nodup
  epochFresh : ∀ n e,c.reads.get? n=some e → e<c.nextEpoch
  epochOwn : ∀ n m e,c.reads.get? n=some e → c.reads.get? m=some e → n=m
  tracked : ∀ r ticket,c.tickets.get? r=some ticket → c.reads.get? ticket.name=some ticket.epoch
  counted : ∀ n e,c.reads.get? n=some e → (c.epochs e).refs = c.readers n ∧ 0 < c.readers n
  generation : ∀ r ticket,c.tickets.get? r=some ticket →
    ticket.generation ≤ (c.epochs ticket.epoch).generation
  stale : ∀ r ticket,c.tickets.get? r=some ticket → ∀ i op,c.active.get? i=some op →
    op.overlaps ticket.name=true → ticket.generation < (c.epochs ticket.epoch).generation

namespace NamespaceInv
variable {c d : NamespaceCoordinator}

lemma start : NamespaceInv {} := by
  constructor <;> simp [GoMap.keys]

lemma of_active (h : NamespaceInv c) {active : GoMap ℕ NamespaceOperation}
    (hsub : ∀ i op,active.get? i=some op → ∃ op',c.active.get? i=some op' ∧ op'.names=op.names) :
    NamespaceInv {c with active} := by
  refine {h with opFresh := fun i op hop => ?_, clean := fun i op hop n hn => ?_, apart := ?_, stale := ?_}
  · obtain ⟨op',hop',_⟩ := hsub i op hop
    exact h.opFresh i op' hop'
  · obtain ⟨op',hop',hnames⟩ := hsub i op hop
    exact h.clean i op' hop' n (hnames ▸ hn)
  · intro i j op op' hi hj hne n hn
    obtain ⟨oi,hoi,hni⟩ := hsub i op hi
    obtain ⟨oj,hoj,hnj⟩ := hsub j op' hj
    have := h.apart i j oi oj hoi hoj hne n (hni ▸ hn)
    rwa [NamespaceOperation.overlaps,hnj] at this
  · intro r ticket hr i op hop hover
    obtain ⟨op',hop',hnames⟩ := hsub i op hop
    refine h.stale r ticket hr i op' hop' ?_
    rwa [NamespaceOperation.overlaps,hnames]

lemma begin (h : NamespaceInv c) {held : List (List Char)} (hclean : ∀ n∈held,∃ raw,n=cleanNamespaceName raw)
    (hfree : ∀ n∈held,∀ i op,c.active.get? i=some op → op.overlaps n=false) :
    NamespaceInv {c with
      active := c.active.set c.nextOp {names := held}, nextOp := c.nextOp+1
      epochs := c.reads.foldl (invalidate held) c.epochs} := by
  -- the new operation against an older one, seen from the older one's names
  have hback : ∀ i op,c.active.get? i=some op → ∀ n∈op.names,
      held.any (namespaceOverlap n)=false := by
    intro i op hop n hn
    refine List.any_eq_false.mpr fun m hm => ?_
    have := List.any_eq_false.mp (hfree m hm i op hop) n hn
    rwa [namespaceOverlap_comm]
  refine {h with opFresh := ?_, clean := ?_, apart := ?_, counted := ?_, generation := ?_, stale := ?_}
  · intro i op hop
    obtain ⟨rfl,_⟩ | ⟨_,hop⟩ := of_get?_set hop
    · exact Nat.lt_succ_self _
    · exact Nat.lt_succ_of_lt (h.opFresh i op hop)
  · intro i op hop n hn
    obtain ⟨_,rfl⟩ | ⟨_,hop⟩ := of_get?_set hop
    · exact hclean n hn
    · exact h.clean i op hop n hn
  · intro i j op op' hi hj hne n hn
    obtain ⟨rfl,rfl⟩ | ⟨_,hi⟩ := of_get?_set hi
    · obtain ⟨rfl,_⟩ | ⟨_,hj⟩ := of_get?_set hj
      · exact absurd rfl hne
      · exact hfree n hn j op' hj
    · obtain ⟨_,rfl⟩ | ⟨_,hj⟩ := of_get?_set hj
      · exact hback i op hi n hn
      · exact h.apart i j op op' hi hj hne n hn
  · intro n e he
    have := h.counted n e he
    exact ⟨(foldl_invalidate_kept held c.epochs e c.reads).2.trans this.1,this.2⟩
  · intro r ticket hr
    exact (h.generation r ticket hr).trans (foldl_invalidate_kept held c.epochs ticket.epoch c.reads).1
  · intro r ticket hr i op hop hover
    obtain ⟨_,rfl⟩ | ⟨_,hop⟩ := of_get?_set hop
    · exact lt_of_le_of_lt (h.generation r ticket hr)
        (foldl_invalidate_lt held c.epochs ticket.epoch (mem_of_get? (h.tracked r ticket hr)) hover)
    · exact lt_of_lt_of_le (h.stale r ticket hr i op hop hover)
        (foldl_invalidate_kept held c.epochs ticket.epoch c.reads).1

lemma ticket_none (h : NamespaceInv c) : c.tickets.get? c.nextTicket=none := by
  cases hg : c.tickets.get? c.nextTicket with
  | none => rfl
  | some ticket => exact absurd (h.ticketFresh _ _ hg) (lt_irrefl _)

lemma readers_pos (h : NamespaceInv c) {name : List Char} :
    0<c.readers name ↔ ∃ r ticket,c.tickets.get? r=some ticket ∧ ticket.name=name := by
  rw [readers,List.countP_pos_iff]
  constructor
  · rintro ⟨e,he,hname⟩
    exact ⟨e.1,e.2,get?_of_mem h.ticketKeys he,of_decide_eq_true hname⟩
  · rintro ⟨r,ticket,hr,hname⟩
    exact ⟨(r,ticket),mem_of_get? hr,decide_eq_true hname⟩

lemma reads_iff (h : NamespaceInv c) {name : List Char} :
    (c.reads.get? name).isSome=true ↔ ∃ r ticket,c.tickets.get? r=some ticket ∧ ticket.name=name := by
  constructor
  · intro hsome
    obtain ⟨e,he⟩ := isSome_iff_exists.mp hsome
    exact h.readers_pos.mp (h.counted name e he).2
  · rintro ⟨r,ticket,hr,rfl⟩
    rw [h.tracked r ticket hr]
    rfl

end NamespaceInv

/-- The object `e` is the epoch of `name` in `d`, found in `c` or made for it. -/
structure EpochOf (c : NamespaceCoordinator) (name : List Char) (e : ℕ) (d : NamespaceCoordinator) : Prop where
  active : d.active=c.active
  nextOp : d.nextOp=c.nextOp
  tickets : d.tickets=c.tickets
  nextTicket : d.nextTicket=c.nextTicket
  found : d.reads.get? name=some e
  kept : ∀ n x,c.reads.get? n=some x → d.reads.get? n=some x
  others : ∀ n,n≠name → d.reads.get? n = c.reads.get? n
  fresh : e<d.nextEpoch ∧ c.nextEpoch≤d.nextEpoch
  own : ∀ n x,n≠name → c.reads.get? n=some x → x≠e
  epochs : ∀ n x,c.reads.get? n=some x → d.epochs x = c.epochs x
  refs : (d.epochs e).refs = c.readers name

namespace NamespaceInv
variable {c d : NamespaceCoordinator}

lemma readEpoch (h : NamespaceInv c) (name : List Char) : EpochOf c name (c.readEpoch name).1 (c.readEpoch name).2 := by
  unfold NamespaceCoordinator.readEpoch
  cases he : c.reads.get? name with
  | some e =>
    exact ⟨rfl,rfl,rfl,rfl,he,fun _ _ hx => hx,fun _ _ => rfl,⟨h.epochFresh name e he,le_rfl⟩,
      fun n x hn hx hxe => hn (h.epochOwn n name x hx (he.trans (congrArg some hxe.symm))),fun _ _ _ => rfl,(h.counted name e he).1⟩
  | none =>
    have hne : ∀ n x,c.reads.get? n=some x → x≠c.nextEpoch := fun n x hx => (h.epochFresh n x hx).ne
    refine ⟨rfl,rfl,rfl,rfl,get?_set_self _ _ _,fun n x hx => ?_,fun n hn => get?_set_ne hn _,
      ⟨Nat.lt_succ_self _,Nat.le_succ _⟩,fun n x _ hx => hne n x hx,
      fun n x hx => update_of_ne (hne n x hx) _ _,?_⟩
    · have hn : n≠name := fun hn => by simp [hn,he] at hx
      exact (get?_set_ne hn _).trans hx
    -- no ticket is on a name that has no epoch
    have hnone : ¬0<c.readers name := fun hpos => by
      have := h.reads_iff.mpr (h.readers_pos.mp hpos)
      simp [he] at this
    simp only [update_self]
    omega

lemma addTicket (h : NamespaceInv c) {name : List Char} {e : ℕ} (hep : EpochOf c name e d)
    (hfree : c.readErrorLocked name true=none) : NamespaceInv (d.addTicket name e) := by
  have hnew : d.tickets.get? d.nextTicket=none := by rw [hep.tickets,hep.nextTicket,h.ticket_none]
  have hget : ∀ {r ticket},(d.addTicket name e).tickets.get? r=some ticket →
      (r=d.nextTicket ∧ ticket = {name := name,epoch := e,generation := (d.epochs e).generation}) ∨
        c.tickets.get? r=some ticket := by
    intro r ticket hr
    exact (of_get?_set hr).imp_right fun hold => hep.tickets ▸ hold.2
  have hgen : ∀ r ticket,c.tickets.get? r=some ticket →
      ((d.addTicket name e).epochs ticket.epoch).generation=(c.epochs ticket.epoch).generation := by
    intro r ticket hr
    rw [← hep.epochs _ _ (h.tracked r ticket hr),d.generation_addTicket]
  have hcount : ∀ n,(d.addTicket name e).readers n=c.readers n+if name=n then 1 else 0 := by
    intro n
    have := countP_set_new hnew {name := name,epoch := e,generation := (d.epochs e).generation}
      (fun ticket => ticket.name=n)
    simpa only [readers,NamespaceCoordinator.addTicket,hep.tickets,decide_eq_true_eq] using this
  refine ⟨fun i op hop => ?_,fun i op hop => h.clean i op (hep.active ▸ hop),
    fun i j op op' hi hj => h.apart i j op op' (hep.active ▸ hi) (hep.active ▸ hj),fun r ticket hr => ?_,
    nodup_set (hep.tickets ▸ h.ticketKeys) _ _,fun n x hx => ?_,fun n m x hn hm => ?_,fun r ticket hr => ?_,
    fun n x hx => ?_,fun r ticket hr => ?_,fun r ticket hr i op hop hover => ?_⟩
  · exact hep.nextOp ▸ h.opFresh i op (hep.active ▸ hop)
  · obtain ⟨rfl,_⟩ | hr := hget hr
    · exact Nat.lt_succ_self _
    · exact Nat.lt_succ_of_lt (hep.nextTicket ▸ h.ticketFresh r ticket hr)
  · by_cases hn : n=name
    · subst hn
      cases hep.found.symm.trans hx
      exact hep.fresh.1
    · exact (h.epochFresh n x (hep.others n hn ▸ hx)).trans_le hep.fresh.2
  · by_cases hnn : n=name
    · by_cases hmn : m=name
      · rw [hnn,hmn]
      · rw [hnn] at hn
        cases hep.found.symm.trans hn
        exact absurd rfl (hep.own m e hmn (hep.others m hmn ▸ hm))
    · by_cases hmn : m=name
      · rw [hmn] at hm
        cases hep.found.symm.trans hm
        exact absurd rfl (hep.own n e hnn (hep.others n hnn ▸ hn))
      · exact h.epochOwn n m x (hep.others n hnn ▸ hn) (hep.others m hmn ▸ hm)
  · obtain ⟨_,rfl⟩ | hr := hget hr
    · exact hep.found
    · exact hep.kept _ _ (h.tracked r ticket hr)
  · rw [hcount]
    by_cases hn : n=name
    · subst hn
      cases hep.found.symm.trans hx
      simp [NamespaceCoordinator.addTicket,hep.refs]
    · have hold := hep.others n hn ▸ hx
      have hepoch : (d.addTicket name e).epochs x=c.epochs x :=
        (update_of_ne (hep.own n x hn hold) _ _).trans (hep.epochs n x hold)
      rw [hepoch,if_neg (Ne.symm hn)]
      exact h.counted n x hold
  · obtain ⟨_,rfl⟩ | hr := hget hr
    · exact (d.generation_addTicket name e e).ge
    · exact (hgen r ticket hr).symm ▸ h.generation r ticket hr
  · obtain ⟨_,rfl⟩ | hr := hget hr
    · have := not_overlaps_of_admitted hfree (hep.active ▸ hop)
      simp [this] at hover
    · exact (hgen r ticket hr).symm ▸ h.stale r ticket hr i op (hep.active ▸ hop) hover

lemma release (h : NamespaceInv c) {r : ℕ} (hstep : c.release r=some d) : NamespaceInv d := by
  obtain ⟨ticket,hr,rfl⟩ := map_eq_some_iff.mp hstep
  have hread := h.tracked r ticket hr
  obtain ⟨hrefs,hpos⟩ := h.counted _ _ hread
  have hcount : ∀ n,(c.tickets.erase r).countP (fun e => e.2.name=n)+(if ticket.name=n then 1 else 0) =
      c.readers n := by
    intro n
    simpa only [readers,decide_eq_true_eq] using
      countP_erase h.ticketKeys hr (fun t => t.name=n)
  have hgen : ∀ e,(update c.epochs ticket.epoch
      {c.epochs ticket.epoch with refs := (c.epochs ticket.epoch).refs-1} e).generation =
        (c.epochs e).generation := by
    intro e
    by_cases he : e=ticket.epoch
    · rw [he,update_self]
    · rw [update_of_ne he]
  -- an entry of the map of readers that is left was there
  have hreads : ∀ {n e},(if (c.epochs ticket.epoch).refs-1=0 then c.reads.erase ticket.name else c.reads).get? n =
      some e → c.reads.get? n=some e ∧ (n=ticket.name → (c.epochs ticket.epoch).refs-1≠0) := by
    intro n e he
    split at he
    · obtain ⟨hne,he⟩ := of_get?_erase he
      exact ⟨he,fun hn => absurd hn hne⟩
    · rename_i hzero
      exact ⟨he,fun _ => hzero⟩
  refine ⟨h.opFresh,h.clean,h.apart,fun q t hq => h.ticketFresh q t (of_get?_erase hq).2,nodup_erase h.ticketKeys r,
    fun n e he => h.epochFresh n e (hreads he).1,fun n m e hn hm => h.epochOwn n m e (hreads hn).1 (hreads hm).1,
    fun q t hq => ?_,fun n e he => ?_,fun q t hq => ?_,fun q t hq i op hop hover => ?_⟩
  · have htracked := h.tracked q t (of_get?_erase hq).2
    by_cases hn : t.name=ticket.name
    · have hleft : 0<(c.tickets.erase r).countP (fun e => e.2.name=ticket.name) :=
        List.countP_pos_iff.mpr ⟨(q,t),mem_of_get? hq,decide_eq_true hn⟩
      have := hcount ticket.name
      rw [if_pos rfl] at this
      simp only
      rw [if_neg (by omega)]
      exact htracked
    · simp only
      split
      · exact (get?_erase_ne hn).trans htracked
      · exact htracked
  · obtain ⟨hold,hzero⟩ := hreads he
    have hcn := hcount n
    by_cases hn : n=ticket.name
    · subst hn
      cases hread.symm.trans hold
      rw [if_pos rfl] at hcn
      have := hzero rfl
      simp only [readers,update_self] at hcn hrefs hpos ⊢
      omega
    · have hne : e≠ticket.epoch := fun hee => hn (h.epochOwn n _ e hold (hee ▸ hread))
      rw [if_neg (Ne.symm hn),Nat.add_zero] at hcn
      simp only [readers,update_of_ne hne] at hcn ⊢
      rw [hcn]
      exact h.counted n e hold
  · exact (hgen t.epoch).symm ▸ h.generation q t (of_get?_erase hq).2
  · exact (hgen t.epoch).symm ▸ h.stale q t (of_get?_erase hq).2 i op hop hover

lemma step (h : NamespaceInv c) {a : NamespaceAction} (hstep : namespaceStep c a=some d) : NamespaceInv d := by
  cases NamespaceMove.of_step hstep with
  | refused => exact h
  | begin clean free => exact h.begin clean free
  | flag found names =>
    refine h.of_active fun j op hj => ?_
    obtain ⟨rfl,rfl⟩ | ⟨-,hj⟩ := of_get?_set hj
    · exact ⟨_,found,names.symm⟩
    · exact ⟨op,hj,rfl⟩
  | finish => exact h.of_active fun j op hj => ⟨op,(of_get?_erase hj).2,rfl⟩
  | ticket free => exact h.addTicket (h.readEpoch _) free
  | release done => exact h.release done
  | stop => exact {h with}

lemma run (h : NamespaceInv c) {as : List NamespaceAction} (hrun : Transition.run namespaceStep c as=some d) :
    NamespaceInv d :=
  run_invariant (fun _ _ _ hc => hc.step) h hrun

end NamespaceInv

/-- What the coordinator keeps of the tickets taken before: a ticket that is still there is the same
one, and its epoch's generation never goes back. -/
structure TicketsKept (c d : NamespaceCoordinator) : Prop where
  next : c.nextTicket≤d.nextTicket
  ticket : ∀ r t,r<c.nextTicket → d.tickets.get? r=some t → c.tickets.get? r=some t
  generation : ∀ r t,c.tickets.get? r=some t → (c.epochs t.epoch).generation ≤ (d.epochs t.epoch).generation

namespace TicketsKept
variable {c d : NamespaceCoordinator}

lemma of_eq (htickets : d.tickets=c.tickets) (hnext : d.nextTicket=c.nextTicket)
    (hgen : ∀ e,(c.epochs e).generation≤(d.epochs e).generation) : TicketsKept c d :=
  ⟨hnext.ge,fun _ _ _ h => htickets ▸ h,fun _ t _ => hgen t.epoch⟩

lemma step (h : NamespaceInv c) {a : NamespaceAction} (hstep : namespaceStep c a=some d) : TicketsKept c d := by
  cases NamespaceMove.of_step hstep with
  | begin => exact of_eq rfl rfl fun e => (foldl_invalidate_kept _ c.epochs e c.reads).1
  | @ticket name =>
    have hep := h.readEpoch name
    refine ⟨hep.nextTicket ▸ Nat.le_succ _,fun r t hr ht => ?_,fun r t ht => ?_⟩
    · rw [addTicket,get?_set_ne (by rw [hep.nextTicket]; exact hr.ne)] at ht
      exact hep.tickets ▸ ht
    · rw [generation_addTicket,hep.epochs _ _ (h.tracked r t ht)]
  | release done =>
    obtain ⟨ticket,_,rfl⟩ := map_eq_some_iff.mp done
    refine ⟨le_rfl,fun q t _ hq => (of_get?_erase hq).2,fun q t _ => ?_⟩
    by_cases he : t.epoch=ticket.epoch
    · simp only [he,update_self,le_refl]
    · simp only [update_of_ne he,le_refl]
  | _ => exact of_eq rfl rfl fun _ => le_rfl

end TicketsKept

variable {c d : NamespaceCoordinator} {as : List NamespaceAction}

lemma failed_step (h : NamespaceInv c) {i : ℕ} {op : NamespaceOperation}
    (hop : c.active.get? i=some op) (hfailed : op.failed=true) {a : NamespaceAction}
    (hstep : namespaceStep c a=some d) : ∃ op',d.active.get? i=some op' ∧ op'.names=op.names ∧ op'.failed=true := by
  cases NamespaceMove.of_step hstep with
  | begin => exact ⟨op,(get?_set_ne (h.opFresh i op hop).ne _).trans hop,rfl,hfailed⟩
  | @flag j o o' found names failed =>
    by_cases hij : i=j
    · subst j
      cases hop.symm.trans found
      exact ⟨o',get?_set_self _ _ _,names,failed hfailed⟩
    · exact ⟨op,(get?_set_ne hij _).trans hop,rfl,hfailed⟩
  | @finish j o found unfailed =>
    have hij : i≠j := by
      rintro rfl
      cases hop.symm.trans found
      exact unfailed hfailed
    exact ⟨op,(get?_erase_ne hij).trans hop,rfl,hfailed⟩
  | @ticket name =>
    rw [addTicket,(h.readEpoch name).active]
    exact ⟨op,hop,rfl,hfailed⟩
  | release done =>
    obtain ⟨_,_,rfl⟩ := map_eq_some_iff.mp done
    exact ⟨op,hop,rfl,hfailed⟩
  | _ => exact ⟨op,hop,rfl,hfailed⟩

lemma failed_run (h : NamespaceInv c) {i : ℕ} {op : NamespaceOperation}
    (hop : c.active.get? i=some op) (hfailed : op.failed=true)
    (hrun : run namespaceStep c as=some d) : ∃ op',d.active.get? i=some op' ∧ op'.names=op.names := by
  have := run_invariant (I := fun d => NamespaceInv d ∧
      ∃ op',d.active.get? i=some op' ∧ op'.names=op.names ∧ op'.failed=true)
    (fun _ _ _ hI hstep => by
      obtain ⟨hinv,op',hop',hnames,hf⟩ := hI
      obtain ⟨op'',hop'',hnames',hf'⟩ := failed_step hinv hop' hf hstep
      exact ⟨hinv.step hstep,op'',hop'',hnames'.trans hnames,hf'⟩) ⟨h,op,hop,rfl,hfailed⟩ hrun
  obtain ⟨_,op',hop',hnames,_⟩ := this
  exact ⟨op',hop',hnames⟩

lemma nextTicket_le_run (h : NamespaceInv c) (hrun : run namespaceStep c as=some d) : c.nextTicket≤d.nextTicket := by
  induction as generalizing c with
  | nil =>
    cases hrun
    exact le_rfl
  | cons a as ih =>
    obtain ⟨m,hm,hrest⟩ := run_cons_eq_some.mp hrun
    exact (TicketsKept.step h hm).next.trans (ih (h.step hm) hrest)

lemma kept_run (h : NamespaceInv c)
    (hrun : run namespaceStep c as=some d) {r : ℕ} {t : ReadAdmission} (hr : r<c.nextTicket)
    (ht : d.tickets.get? r=some t) :
    c.tickets.get? r=some t ∧ (c.epochs t.epoch).generation≤(d.epochs t.epoch).generation := by
  -- the ticket is followed backwards, from the end of the run
  induction as generalizing c with
  | nil =>
    cases hrun
    exact ⟨ht,le_rfl⟩
  | cons a as ih =>
    obtain ⟨m,hm,hrest⟩ := run_cons_eq_some.mp hrun
    have hkept := TicketsKept.step h hm
    obtain ⟨hmid,hgen⟩ := ih (h.step hm) hrest (hr.trans_le hkept.next)
    have hold := hkept.ticket r t hr hmid
    exact ⟨hold,(hkept.generation r t hold).trans hgen⟩

/-- After any run: operations of overlapping names are not active together; one that finishes
poisoned, or with an error after its mutation, keeps its names; a ticket whose name was owned at some
moment since its admission gets nothing at its finish; and a name has an epoch exactly while it has a
ticket. -/
theorem namespace_exclusion {as : List NamespaceAction} {s : NamespaceCoordinator}
    (hrun : run namespaceStep {} as = some s) :
    (∀ i j op op',s.active.get? i = some op → s.active.get? j = some op' → i ≠ j →
      ∀ n ∈ op.names,∀ m ∈ op'.names,¬Related n m) ∧
    (∀ i err op t,s.active.get? i = some op → (op.poison || (op.mutated && err)) = true →
      namespaceStep s (.finish i err) = some t → ∀ bs u,run namespaceStep t bs = some u →
        ∃ op',u.active.get? i = some op' ∧ op'.names = op.names) ∧
    (∀ name,s.readErrorLocked (cleanNamespaceName name) true = none →
      ∀ bs u,run namespaceStep (s.admitRead name) bs = some u →
      (∃ i op n,u.active.get? i = some op ∧ n ∈ op.names ∧ Related name n) →
      ∀ ds v,run namespaceStep u ds = some v → ∀ ticket,v.tickets.get? s.nextTicket = some ticket →
        ∀ p len err,∃ refusal,v.finishBytes ticket p len err = (List.replicate p.length 0,0,some refusal)) ∧
    ∀ n,(s.reads.get? n).isSome = true ↔ ∃ r ticket,s.tickets.get? r = some ticket ∧ ticket.name = n := by
  have h := NamespaceInv.start.run hrun
  refine ⟨fun i j op op' hi hj hne n hn m hm hrel => ?_,fun i err op t hop hbad hfinish bs u hu => ?_,
    fun name hadmitted bs u hu hown ds v hv ticket hticket p len err => ?_,fun n => h.reads_iff⟩
  · obtain ⟨a,rfl⟩ := h.clean i op hi n hn
    obtain ⟨b,rfl⟩ := h.clean j op' hj m hm
    have hover := List.any_eq_false.mp (h.apart i j op op' hi hj hne _ hn) _ hm
    exact hover ((namespaceOverlap_clean a b).mpr (by simpa [Related] using hrel))
  · have ht := h.step hfinish
    simp only [namespaceStep,finish,hop,if_pos hbad] at hfinish
    split_ifs at hfinish
    · cases hfinish
      obtain ⟨op',hop',hnames⟩ := failed_run ht (get?_set_self _ _ _) rfl hu
      exact ⟨op',hop',hnames⟩
  · obtain ⟨i,op,n,hop,hn,hrel⟩ := hown
    have hep := h.readEpoch (cleanNamespaceName name)
    have hstate : s.admitRead name = (s.readEpoch (cleanNamespaceName name)).2.addTicket (cleanNamespaceName name)
        (s.readEpoch (cleanNamespaceName name)).1 := by
      simp [admitRead,hadmitted]
    have hlt : s.nextTicket < (s.admitRead name).nextTicket := by
      rw [hstate,addTicket,hep.nextTicket]
      exact Nat.lt_succ_self _
    have ht := h.step (a := .admitRead name) rfl
    have hlt' := hlt.trans_le (nextTicket_le_run ht hu)
    obtain ⟨hatu,hgen⟩ := kept_run (ht.run hu) hv hlt' hticket
    obtain ⟨hatt,_⟩ := kept_run ht hu hlt hatu
    have hname : ticket.name = cleanNamespaceName name := by
      rw [hstate,addTicket,← hep.nextTicket,get?_set_self] at hatt
      cases hatt
      rfl
    have hstale := (ht.run hu).stale _ ticket hatu i op hop (by
      obtain ⟨raw,rfl⟩ := (ht.run hu).clean i op hop n hn
      refine List.any_eq_true.mpr ⟨_,hn,?_⟩
      rw [hname]
      exact (namespaceOverlap_clean name raw).mpr (by simpa [Related] using hrel))
    cases hcheck : v.checkLocked ticket with
    | some refusal => exact ⟨refusal,by simp [finishBytes,hcheck]⟩
    | none =>
      have := generation_of_checkLocked hcheck
      omega

/-- A read of `a/x` that was let in before an operation on `a` gets nothing after it. -/
theorem read_across_operation : ∃ s u v ticket,run namespaceStep {} [.admitRead ['q']] = some s ∧
    run namespaceStep (s.admitRead ['a','/','x']) [.begin [['a']]] = some u ∧
    run namespaceStep u [.finish 0 false] = some v ∧ v.tickets.get? s.nextTicket = some ticket ∧ v.active = [] ∧
    ∃ refusal,v.finishBytes ticket [1,2] 2 none = ([0,0],0,some refusal) := by
  refine ⟨_,_,_,_,rfl,rfl,rfl,rfl,rfl,?_⟩
  exact (namespace_exclusion (show run namespaceStep {} [.admitRead ['q']] = some _ from rfl)).2.2.1 ['a','/','x']
    (by decide) [.begin [['a']]] _ rfl
    ⟨0,{ names := [['a']] },['a'],by decide,by decide,.inr (by decide)⟩ [.finish 0 false] _ rfl _ rfl [1,2] 2 none

end JuiceMount.Nfs
