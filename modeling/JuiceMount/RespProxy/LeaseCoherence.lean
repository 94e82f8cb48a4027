import JuiceMount.Lib.Transition
import JuiceMount.RespProxy.Decimals

/-! What a resolved lease in memory says about the persisted record, whatever replies are lost. -/
namespace JuiceMount.RespProxy
open List GoMap Transition Option LeaseState
open Resp (byte)

section Fields
variable {h : GoMap Bytes Bytes} {fs : List (Bytes × Bytes)} {k v : Bytes}

lemma hset_other (hk : ∀ f∈fs,f.1≠k) : (hset h fs).get? k=h.get? k := by
  induction fs generalizing h with
  | nil => rfl
  | cons f fs ih =>
    have hf : k≠f.1 := Ne.symm (hk f mem_cons_self)
    exact (ih (fun g hg => hk g (mem_cons_of_mem _ hg))).trans (get?_set_ne hf _)

lemma hset_mem (hnodup : (fs.map Prod.fst).Nodup) (hkv : (k,v)∈fs) : (hset h fs).get? k=some v := by
  induction fs generalizing h with
  | nil => cases hkv
  | cons f fs ih =>
    obtain ⟨hf,hfs⟩ := nodup_cons.mp hnodup
    obtain heq | hmem := mem_cons.mp hkv
    · subst heq
      have hrest : ∀ g∈fs,g.1≠k := fun g hg hgk => hf (List.mem_map.mpr ⟨g,hg,hgk⟩)
      calc (hset (h.set k v) fs).get? k=(h.set k v).get? k := hset_other hrest
        _ = some v := get?_set_self h k v
    · exact ih hfs hmem

lemma nodup_hset (hk : h.keys.Nodup) : (hset h fs).keys.Nodup := by
  induction fs generalizing h with
  | nil => exact hk
  | cons f fs ih => exact ih (nodup_set hk _ _)

/-- The fields a transition or a flush writes besides `e:<principal>`. -/
def recordFields : List Bytes :=
  [holderField,ascii "kind",ascii "host",epochField,ascii "mode",ascii "granted_ms",
    ascii "last_write_ms",ascii "last_hb_ms",ascii "checkout_until_ms",ascii "pending",ascii "label"]

lemma heldField_ne {f : Bytes} (hf : f∈recordFields) (p : Bytes) : heldField p≠f := by
  have htake : ∀ f ∈ recordFields,f.take 2 ≠ ascii "e:" := by decide
  rintro rfl
  refine htake _ hf ?_
  simp [heldField,ascii]

lemma heldField_injective {p q : Bytes} (h : heldField p=heldField q) : p=q :=
  append_cancel_left h

lemma leaseFields_names (next : Lease) (e : Bytes) : (leaseFields next e).map Prod.fst=recordFields := rfl

end Fields

/-- A record with counter `c` and hash `h`: the hash carries the counter's epoch, no principal is
recorded with a later one, and no two with the same. -/
structure Recorded (st : LeaseStore) (c : ℕ) (h : GoMap Bytes Bytes) : Prop where
  counter : st.counter = some (.string (formatUint c))
  hash : st.hash = some (.hash h)
  epoch : h.get? epochField = some (formatUint c)
  holder : ∃ x : String,h.get? holderField = some (text x)
  nodup : h.keys.Nodup
  past : ∀ p v,h.get? (heldField p)=some v → ∃ n≤c,v = formatUint n
  once : ∀ p q v,h.get? (heldField p)=some v → h.get? (heldField q)=some v → p=q

def StoreOk (st : LeaseStore) : Prop := (st.counter=none ∧ st.hash=none) ∨ ∃ c h,Recorded st c h

namespace LeaseStore

/-- The epoch counter as a number; a missing one counts from 0. -/
def epoch (st : LeaseStore) : ℕ :=
  match st.counter with
  | some (.string b) => decimal b
  | _ => 0

def heldEpoch (st : LeaseStore) (p : Bytes) : Option Bytes :=
  match st.hash with
  | some (.hash h) => h.get? (heldField p)
  | _ => none

end LeaseStore

variable {st : LeaseStore}

lemma Recorded.epoch_eq {c : ℕ} {h : GoMap Bytes Bytes} (hr : Recorded st c h) : st.epoch=c := by
  simp [LeaseStore.epoch,hr.counter]

lemma Recorded.heldEpoch_eq {c : ℕ} {h : GoMap Bytes Bytes} (hr : Recorded st c h)
    (p : Bytes) : st.heldEpoch p=h.get? (heldField p) := by
  simp [LeaseStore.heldEpoch,hr.hash]

/-- The holder and epoch in memory are those of the hash and of the counter. -/
def Agrees (l : Lease) (st : LeaseStore) : Prop :=
  (st.counter = none ∧ st.hash = none ∧ l.holder = "" ∧ l.epoch = 0) ∨
    ∃ h,Recorded st l.epoch h ∧ h.get? holderField = some (text l.holder)

/-- The hash a transition leaves: `grant` records the epoch as the holder's. -/
def writtenHash (op : TransitionOp) (next : Lease) (epoch : Bytes) (h : GoMap Bytes Bytes) :
    GoMap Bytes Bytes :=
  hset h (leaseFields next epoch++(if op=.grant then [(heldField (text next.holder),epoch)] else []))

section Written
variable {op : TransitionOp} {next : Lease} {e f : Bytes} {h : GoMap Bytes Bytes}

lemma writtenHash_record (hf : f∈recordFields) :
    (writtenHash op next e h).get? f=(hset h (leaseFields next e)).get? f := by
  unfold writtenHash
  rw [hset,foldl_append]
  refine hset_other (fun g hg => ?_)
  split at hg
  · cases mem_singleton.mp hg
    exact heldField_ne hf _
  · cases hg

lemma writtenHash_holder : (writtenHash op next e h).get? holderField=some (text next.holder) :=
  (writtenHash_record (by decide)).trans (hset_mem (leaseFields_names next e ▸ by decide) (by simp [leaseFields]))

lemma writtenHash_epoch : (writtenHash op next e h).get? epochField=some e :=
  (writtenHash_record (by decide)).trans (hset_mem (leaseFields_names next e ▸ by decide) (by simp [leaseFields]))

lemma writtenHash_granted (hop : op=.grant) : (writtenHash op next e h).get? (heldField (text next.holder))=some e := by
  unfold writtenHash
  rw [hset,foldl_append,if_pos hop]
  exact get?_set_self _ _ _

lemma writtenHash_held {p : Bytes} (hp : p≠text next.holder ∨ op≠.grant) :
    (writtenHash op next e h).get? (heldField p)=h.get? (heldField p) := by
  refine hset_other (fun g hg => ?_)
  obtain hg | hg := mem_append.mp hg
  · have hname : g.1∈recordFields := leaseFields_names next e ▸ List.mem_map_of_mem hg
    exact Ne.symm (heldField_ne hname p)
  · split at hg
    · rename_i hop
      cases mem_singleton.mp hg
      exact fun heq => hp.elim (fun hne => hne (heldField_injective heq).symm) (fun hne => hne hop)
    · cases hg

lemma recorded_written {c c' : ℕ} (hpast : ∀ p v,h.get? (heldField p)=some v → ∃ n≤c,v=formatUint n)
    (honce : ∀ p q v,h.get? (heldField p)=some v → h.get? (heldField q)=some v → p=q)
    (hnodup : h.keys.Nodup) (hle : c≤c') (hlt : op=.grant → c<c') :
    Recorded ⟨some (.string (formatUint c')),some (.hash (writtenHash op next (formatUint c') h))⟩ c'
      (writtenHash op next (formatUint c') h) where
  counter := rfl
  hash := rfl
  epoch := writtenHash_epoch
  holder := ⟨_,writtenHash_holder⟩
  nodup := nodup_hset hnodup
  past p v hv := by
    by_cases hp : p≠text next.holder ∨ op≠.grant
    · rw [writtenHash_held hp] at hv
      obtain ⟨n,hn,rfl⟩ := hpast p v hv
      exact ⟨n,by omega,rfl⟩
    · simp only [not_or,ne_eq,not_not] at hp
      obtain ⟨rfl,hop⟩ := hp
      rw [writtenHash_granted hop] at hv
      cases hv
      exact ⟨c',le_rfl,rfl⟩
  once p q v hp hq := by
    -- the epoch just recorded is later than every one recorded before
    have hnew : ∀ r,op=.grant → r≠text next.holder →
        (writtenHash op next (formatUint c') h).get? (heldField r)≠some (formatUint c') := by
      intro r hop hr hv
      rw [writtenHash_held (.inl hr)] at hv
      obtain ⟨n,hn,heq⟩ := hpast r _ hv
      have := formatUint_injective heq
      have := hlt hop
      omega
    by_cases hop : op=.grant
    · by_cases hp' : p=text next.holder
      · by_cases hq' : q=text next.holder
        · rw [hp',hq']
        · rw [hp',writtenHash_granted hop] at hp
          cases hp
          exact absurd hq (hnew q hop hq')
      · by_cases hq' : q=text next.holder
        · rw [hq',writtenHash_granted hop] at hq
          cases hq
          exact absurd hp (hnew p hop hp')
        · rw [writtenHash_held (.inl hp')] at hp
          rw [writtenHash_held (.inl hq')] at hq
          exact honce p q v hp hq
    · rw [writtenHash_held (.inr hop)] at hp hq
      exact honce p q v hp hq

end Written

/-- What a transition script does: it refuses and writes nothing, or it writes the next record over
the one it finds, with the next epoch unless it renews. -/
lemma leaseTransitionLua_cases (op : TransitionOp) (e x : Bytes) (next : Lease) (hst : StoreOk st) :
    ((leaseTransitionLua op e x next st).1=st ∧ (leaseTransitionLua op e x next st).2.err.isSome=true) ∨
    ∃ c' h h0,c'=st.epoch+(if op=.renew then 0 else 1) ∧ leaseTransitionLua op e x next st =
        (⟨some (.string (formatUint c')),some (.hash h)⟩,bulkReply (formatUint c')) ∧
      Recorded (leaseTransitionLua op e x next st).1 c' h ∧ h=writtenHash op next (formatUint c') h0 ∧
      (∀ p,h0.get? (heldField p)=st.heldEpoch p) := by
  have herr : ∀ m,(errorReply m).err.isSome=true := fun m => by
    simp [errorReply,Resp.Value.err,Resp.Value.ofStr,Resp.Value.type]
  generalize hR : leaseTransitionLua op e x next st=R
  obtain ⟨hc,hh⟩ | ⟨c,h,hr⟩ := hst
  · have hzero : st.epoch=0 := by simp [LeaseStore.epoch,hc]
    have hheld : ∀ p,st.heldEpoch p=none := fun p => by simp [LeaseStore.heldEpoch,hh]
    simp only [leaseTransitionLua,hc,hh,stringOf,hashOf] at hR
    iterate 5
      split at hR
      · subst hR
        exact .inl ⟨rfl,herr _⟩
    rename_i hgrant
    split at hR
    · subst hR
      exact .inl ⟨rfl,herr _⟩
    have hop : op=.grant := by simpa using hgrant
    subst hop hR
    refine .inr ⟨1,writtenHash .grant next (formatUint 1) [],[],by simp [hzero],rfl,?_,rfl,fun p => (hheld p).symm⟩
    exact recorded_written (c := 0) (by simp) (by simp) nodup_nil (by omega) (by omega)
  · have hepoch := hr.epoch_eq
    simp only [leaseTransitionLua,hr.counter,hr.hash,stringOf,hashOf] at hR
    iterate 6
      split at hR
      · subst hR
        exact .inl ⟨rfl,herr _⟩
    have hcount : (if op=.renew then (some (formatUint c)).getD [] else
        formatUint ((some (formatUint c)).elim 0 decimal+1)) =
        formatUint (c+(if op=.renew then 0 else 1)) := by
      split <;> simp
    rw [hcount] at hR
    subst hR
    rw [hepoch]
    refine .inr ⟨_,writtenHash op next _ h,h,rfl,rfl,?_,rfl,fun p => (hr.heldEpoch_eq p).symm⟩
    refine recorded_written hr.past hr.once hr.nodup (by omega) (fun hop => ?_)
    subst hop
    simp

/-- What a flush does: it refuses and writes nothing, or it changes fields that are neither holder
nor epoch. -/
lemma leaseFlushLua_cases (e x : Bytes) (f : FlushFields) (hst : StoreOk st) : ((leaseFlushLua e x f st).1=st) ∨
    ∃ c h h',Recorded st c h ∧ Recorded (leaseFlushLua e x f st).1 c h' ∧
      h'.get? holderField=h.get? holderField ∧ ∀ p,h'.get? (heldField p)=h.get? (heldField p) := by
  generalize hR : leaseFlushLua e x f st=R
  obtain ⟨hc,hh⟩ | ⟨c,h,hr⟩ := hst
  · simp only [leaseFlushLua,hc,hh,stringOf,hashOf] at hR
    left
    split at hR
    · exact (congrArg Prod.fst hR).symm
    · rename_i hno
      simp at hno
  · simp only [leaseFlushLua,hr.counter,hr.hash,stringOf,hashOf] at hR
    split at hR
    · exact .inl (congrArg Prod.fst hR).symm
    right
    subst hR
    have hother : ∀ k,k ∉ recordFields ∨ k=holderField ∨ k=epochField →
        ∀ g ∈ [(ascii "last_write_ms",formatInt f.write),(ascii "last_hb_ms",formatInt f.hb),
          (ascii "pending",boolStr f.pending)],g.1 ≠ k := by
      intro k hk g hg hgk
      have hnames : ∀ n ∈ [ascii "last_write_ms",ascii "last_hb_ms",ascii "pending"],
          n∈recordFields ∧ n≠holderField ∧ n≠epochField := by decide
      obtain ⟨hmem,hholder,hepoch⟩ := hnames k (by
        rw [← hgk]
        exact List.mem_map_of_mem hg)
      obtain hk | hk | hk := hk
      · exact hk hmem
      · exact hholder hk
      · exact hepoch hk
    have hheld : ∀ p,heldField p ∉ recordFields := fun p hp => heldField_ne hp p rfl
    refine ⟨c,h,_,hr,⟨rfl,rfl,?_,?_,nodup_hset hr.nodup,?_,?_⟩,?_,?_⟩
    · exact (hset_other (hother _ (.inr (.inr rfl)))).trans hr.epoch
    · obtain ⟨x',hx'⟩ := hr.holder
      exact ⟨x',(hset_other (hother _ (.inr (.inl rfl)))).trans hx'⟩
    · intro p v hv
      exact hr.past p v ((hset_other (hother _ (.inl (hheld p)))).symm.trans hv)
    · intro p q v hp hq
      exact hr.once p q v ((hset_other (hother _ (.inl (hheld p)))).symm.trans hp)
        ((hset_other (hother _ (.inl (hheld q)))).symm.trans hq)
    · exact hset_other (hother _ (.inr (.inl rfl)))
    · exact fun p => hset_other (hother _ (.inl (hheld p)))

/-- A later record: the counter has not gone back, and an epoch newly recorded for a principal is
later than the counter was. -/
structure LaterRecord (st st' : LeaseStore) : Prop where
  epoch : st.epoch ≤ st'.epoch
  held : ∀ p v,st'.heldEpoch p=some v → st.heldEpoch p=some v ∨ ∃ n,v = formatUint n ∧ st.epoch<n

lemma LaterRecord.refl (st : LeaseStore) : LaterRecord st st := ⟨le_rfl,fun _ _ hv => .inl hv⟩

lemma LaterRecord.trans {a b c : LeaseStore} (hab : LaterRecord a b) (hbc : LaterRecord b c) : LaterRecord a c := by
  refine ⟨hab.epoch.trans hbc.epoch,fun p v hv => ?_⟩
  obtain hb | ⟨n,rfl,hn⟩ := hbc.held p v hv
  · exact hab.held p v hb
  · exact .inr ⟨n,rfl,lt_of_le_of_lt hab.epoch hn⟩

def LeaseCall.advances (c : LeaseCall) (st : LeaseStore) : Bool :=
  match c with
  | .grant op _ _ _ => op≠.renew && (c.script st).2.err.isNone
  | .stop _ _ => (c.script st).2.err.isNone
  | .flush _ _ _ => false

/-- The reply of a transition script: an error, or the epoch of the record now stored. -/
def Answered (next : Lease) (st : LeaseStore) (v : Resp.Value) : Prop :=
  v.err.isSome=true ∨
    ∃ c h,Recorded st c h ∧ h.get? holderField = some (text next.holder) ∧ v = bulkReply (formatUint c)

section Scripts
variable (op : TransitionOp) (e x : Bytes) (next : Lease)

lemma bulkReply_err (b : Bytes) : (bulkReply b).err=none := by
  rfl

lemma transition_store (hst : StoreOk st) : StoreOk (leaseTransitionLua op e x next st).1 ∧
      LaterRecord st (leaseTransitionLua op e x next st).1 ∧
      Answered next (leaseTransitionLua op e x next st).1 (leaseTransitionLua op e x next st).2 ∧
      (leaseTransitionLua op e x next st).1.epoch=st.epoch+
        (if op≠.renew && (leaseTransitionLua op e x next st).2.err.isNone then 1 else 0) := by
  obtain ⟨hsame,herr⟩ | ⟨c,h,h0,rfl,hrun,hr,rfl,hheld⟩ := leaseTransitionLua_cases op e x next hst
  · rw [hsame]
    refine ⟨hst,.refl st,.inl herr,?_⟩
    have : (leaseTransitionLua op e x next st).2.err.isNone=false := by
      simpa [isSome_iff_ne_none] using herr
    simp [this]
  · have hepoch := hr.epoch_eq
    refine ⟨.inr ⟨_,_,hr⟩,⟨by omega,fun p v hv => ?_⟩,.inr ⟨_,_,hr,writtenHash_holder,by rw [hrun]⟩,?_⟩
    · rw [hr.heldEpoch_eq] at hv
      by_cases hp : p≠text next.holder ∨ op≠.grant
      · rw [writtenHash_held hp,hheld] at hv
        exact .inl hv
      · simp only [not_or,ne_eq,not_not] at hp
        obtain ⟨rfl,rfl⟩ := hp
        rw [writtenHash_granted rfl] at hv
        cases hv
        exact .inr ⟨_,rfl,by simp⟩
    · rw [hepoch,hrun,bulkReply_err]
      by_cases hop : op=.renew <;> simp [hop]

lemma flush_store (f : FlushFields) (hst : StoreOk st) :
    StoreOk (leaseFlushLua e x f st).1 ∧ LaterRecord st (leaseFlushLua e x f st).1 ∧
      (leaseFlushLua e x f st).1.epoch=st.epoch ∧ ∀ l,Agrees l st → Agrees l (leaseFlushLua e x f st).1 := by
  obtain hsame | ⟨c,h,h',hr,hr',hholder,hheld⟩ := leaseFlushLua_cases e x f hst
  · rw [hsame]
    exact ⟨hst,.refl st,rfl,fun _ hl => hl⟩
  refine ⟨.inr ⟨c,h',hr'⟩,⟨by rw [hr.epoch_eq,hr'.epoch_eq],fun p v hv => .inl ?_⟩,
    by rw [hr.epoch_eq,hr'.epoch_eq],fun l hl => ?_⟩
  · rw [hr'.heldEpoch_eq,hheld] at hv
    rw [hr.heldEpoch_eq,hv]
  · obtain ⟨hc,_⟩ | ⟨g,hg,hgl⟩ := hl
    · rw [hr.counter] at hc
      cases hc
    · -- both describe the record before the flush
      have hc : l.epoch=c := by rw [← hg.epoch_eq,hr.epoch_eq]
      have hgh : g=h := by
        have := hg.hash.symm.trans hr.hash
        simpa using this
      subst hgh
      exact .inr ⟨h',hc ▸ hr',hholder.trans hgl⟩

/-- Every script keeps the record whole and later; the counter moves by one when a grant or an end
takes effect, and by nothing else. -/
theorem script_store (c : LeaseCall) (hst : StoreOk st) : StoreOk (c.script st).1 ∧ LaterRecord st (c.script st).1 ∧
      (c.script st).1.epoch=st.epoch+(if c.advances st then 1 else 0) := by
  cases c with
  | grant op p old next =>
    obtain ⟨h1,h2,_,h4⟩ := transition_store op (formatUint old.epoch) (text old.holder) next hst
    exact ⟨h1,h2,h4⟩
  | stop old next =>
    obtain ⟨h1,h2,_,h4⟩ := transition_store .stop (formatUint old.epoch) (text old.holder) next hst
    exact ⟨h1,h2,by simpa [LeaseCall.advances,LeaseCall.script] using h4⟩
  | flush ep holder sent =>
    obtain ⟨h1,h2,h3,_⟩ := flush_store (formatUint ep) (text holder) sent hst
    exact ⟨h1,h2,by simpa [LeaseCall.advances,LeaseCall.script] using h3⟩

end Scripts

section Load
variable {es : List (Bytes × Bytes)} {n : ℕ} {raw : Bytes}

lemma persistedLeaseEpoch_eq (h : persistedLeaseEpoch raw=some n) : raw=formatUint n ∧ parseIntD raw=n := by
  obtain ⟨_,hn,rfl⟩ := persistedLeaseEpoch_eq_some.mp h
  simp [parseIntD,parseInt_formatUint hn]

/-- The fields of a hash as HGETALL returns them. -/
def fieldReplies (es : List (Bytes × Bytes)) : List Resp.Value :=
  es.flatMap (fun f => [bulkReply f.1,bulkReply f.2])

lemma scanEpoch_ok {seen r : Option ℕ} (h : scanEpoch (fieldReplies es) seen=.ok r) :
    (∀ m,seen=some m → r=some m ∧ ∀ v,(epochField,v) ∉ es) ∧
      (seen=none → ∀ n,r=some n → ∀ v,(epochField,v)∈es ↔ v=formatUint n) ∧
      (seen=none → r=none → ∀ v,(epochField,v) ∉ es) := by
  induction es generalizing seen with
  | nil =>
    cases h
    exact ⟨fun m hm => ⟨hm,by simp⟩,fun hs n hn => by simp [hs] at hn,fun _ _ => by simp⟩
  | cons f es ih =>
    obtain ⟨k,b⟩ := f
    have hstr : ∀ b : Bytes,(bulkReply b).str=b := fun _ => rfl
    have hok : ∀ b : Bytes,(bulkReply b).type=byte '$' ∧ (bulkReply b).null=false := fun _ => ⟨rfl,rfl⟩
    have hcons : fieldReplies ((k,b)::es)=bulkReply k::bulkReply b::fieldReplies es := rfl
    rw [hcons] at h
    simp only [scanEpoch,hstr,(hok k).1,(hok k).2,(hok b).1,(hok b).2,ne_eq,not_true,decide_false,
      Bool.or_self,Bool.false_eq_true,if_false] at h
    by_cases hk : k=epochField
    · subst hk
      simp only [if_true] at h
      cases seen with
      | some m => simp at h
      | none =>
        simp only [isSome_none,Bool.false_eq_true,if_false] at h
        cases hp : persistedLeaseEpoch b with
        | none => simp [hp] at h
        | some m =>
          simp only [hp] at h
          obtain ⟨rfl,hno⟩ := (ih h).1 m rfl
          obtain ⟨rfl,_⟩ := persistedLeaseEpoch_eq hp
          refine ⟨nofun,fun _ n hn v => ?_,nofun⟩
          cases hn
          simp [hno]
    · rw [if_neg hk] at h
      have hmem : ∀ v,(epochField,v)∈(k,b)::es ↔ (epochField,v)∈es := fun v => by
        simp [Ne.symm hk]
      simpa only [hmem] using ih h

lemma loadLeaseRecord_ok {v : Resp.Value} {hs : List Resp.Value} (h : loadLeaseRecord v=.ok hs) :
    ∃ c t n,v.elems=[c,t] ∧ t.elems=hs ∧ c.null=false ∧ persistedLeaseEpoch c.str=some n ∧
      scanEpoch hs none=.ok (some n) := by
  unfold loadLeaseRecord at h
  split_ifs at h
  split at h
  case h_2 => cases h
  rename_i c t helems
  split at h
  · cases h
  rename_i hshape
  split at h
  · cases h
  rename_i n hn
  split at h
  · cases h
  rename_i seen hseen
  split_ifs at h with hsame
  cases h
  simp only [not_not] at hsame
  subst hsame
  refine ⟨c,t,n,helems,rfl,?_,hn,hseen⟩
  by_contra hnull
  simp [hnull] at hshape

theorem loaded_epochs_agree {order : GoMap.RangeOrder (Bytes × Bytes)}
    {hs : List Resp.Value} (h : loadLeaseRecord (loadLeaseRecordLua order st)=.ok hs) :
    ∃ c m,st.counter=some (.string c) ∧ st.hash=some (.hash m) ∧ hs=fieldReplies (order.visit m) ∧
      ∀ v,(epochField,v)∈m ↔ v=c := by
  obtain ⟨c,t,n,helems,rfl,hnull,hn,hscan⟩ := loadLeaseRecord_ok h
  unfold loadLeaseRecordLua at helems
  split at helems
  case h_2 => cases helems
  rename_i oc oh hc hh
  simp only [Resp.Value.ofElems,Resp.Value.elems,List.cons.injEq,and_true] at helems
  obtain ⟨rfl,rfl⟩ := helems
  cases oc with
  | none => cases hnull
  | some b =>
    have hcounter : st.counter=some (.string b) := by
      cases hst : st.counter with
      | none => simp [hst,stringOf] at hc
      | some x => cases x <;> simp_all [stringOf]
    obtain ⟨rfl,_⟩ := persistedLeaseEpoch_eq hn
    have hvisit := (scanEpoch_ok hscan).2.1 rfl n rfl
    cases oh with
    | none =>
      have hnil : order.visit []=[] := perm_nil.mp (order.perm [])
      simp only [getD_none,hnil,not_mem_nil,false_iff] at hvisit
      exact absurd rfl (hvisit (formatUint n))
    | some m =>
      have hhash : st.hash=some (.hash m) := by
        cases hst : st.hash with
        | none => simp [hst,hashOf] at hh
        | some x => cases x <;> simp_all [hashOf]
      refine ⟨_,m,hcounter,hhash,rfl,fun v => ?_⟩
      rw [← hvisit v]
      exact ((order.perm m).mem_iff).symm

lemma loadFields_eq (l : Lease) (es : List (Bytes × Bytes)) :
    loadFields l (fieldReplies es)=es.foldl (fun l f => loadField l f.1 f.2) l := by
  induction es generalizing l with
  | nil => rfl
  | cons f es ih => exact ih (loadField l f.1 f.2)

lemma foldl_loadField {α : Type*} {g : Lease → α} {k b : Bytes} {val : Bytes → α}
    (hset : ∀ l v,g (loadField l k v)=val v) (hother : ∀ l f v,f≠k → g (loadField l f v)=g l)
    (hnodup : (es.map Prod.fst).Nodup) (hmem : (k,b)∈es) (l : Lease) :
    g (es.foldl (fun l f => loadField l f.1 f.2) l)=val b := by
  have hrest : ∀ (es : List (Bytes × Bytes)) (l : Lease),(∀ f∈es,f.1≠k) →
      g (es.foldl (fun l f => loadField l f.1 f.2) l)=g l := by
    intro es
    induction es with
    | nil => simp
    | cons f es ih =>
      intro l hf
      rw [foldl_cons,ih _ (fun e he => hf e (mem_cons_of_mem _ he)),
        hother l _ _ (hf f mem_cons_self)]
  induction es generalizing l with
  | nil => cases hmem
  | cons f es ih =>
    obtain ⟨hf,hes⟩ := nodup_cons.mp hnodup
    obtain rfl | hmem := mem_cons.mp hmem
    · rw [foldl_cons,hrest es _ (fun e he hek => hf (List.mem_map.mpr ⟨e,he,hek⟩)),hset]
    · exact ih hes hmem _

lemma loadField_holder (l : Lease) (f v : Bytes) :
    (loadField l f v).holder=if f=holderField then ofText v else l.holder := by
  simp only [loadField,apply_ite Lease.holder,ite_self]

lemma loadField_epoch (l : Lease) (f v : Bytes) :
    (loadField l f v).epoch=if f=epochField then (parseIntD v).toNat else l.epoch := by
  simp only [loadField,apply_ite Lease.epoch,ite_self]
  by_cases h : f=epochField
  · subst h
    rw [if_neg (by decide),if_neg (by decide),if_neg (by decide)]
  · simp only [if_neg h,ite_self]

lemma loadLease_agrees {proj : ℕ} {startMs : ℤ} {order : GoMap.RangeOrder (Bytes × Bytes)}
    {m : Option Lease} (hst : StoreOk st)
    (h : loadLease proj startMs order st=.ok m) : Agrees (m.getD {proj := proj}) st := by
  obtain ⟨hc,hh⟩ | ⟨c,g,hr⟩ := hst
  · simp only [loadLease,hh,isNone_none,if_true] at h
    cases h
    exact .inl ⟨hc,hh,rfl,rfl⟩
  simp only [loadLease,hr.hash,isNone_some,Bool.false_eq_true,if_false] at h
  cases hload : loadLeaseRecord (loadLeaseRecordLua order st) with
  | error e => simp [hload] at h
  | ok hs =>
    simp only [hload] at h
    obtain ⟨c',t,n,_,_,_,hn,hscan⟩ := loadLeaseRecord_ok hload
    obtain ⟨b,g',hb,hg',rfl,hepochs⟩ := loaded_epochs_agree hload
    cases hr.hash.symm.trans hg'
    cases hr.counter.symm.trans hb
    obtain ⟨x,hx⟩ := hr.holder
    have hnodup : ((order.visit g).map Prod.fst).Nodup :=
      ((order.perm g).map Prod.fst).nodup_iff.mpr hr.nodup
    have hmem : ∀ e,e∈g → e∈order.visit g := fun e he => (order.perm g).mem_iff.mpr he
    have hholder := foldl_loadField (g := Lease.holder) (k := holderField)
      (fun l v => by rw [loadField_holder,if_pos rfl])
      (fun l f v hf => by rw [loadField_holder,if_neg hf])
      hnodup (hmem _ (mem_of_get? hx)) {proj := proj}
    have hepoch := foldl_loadField (g := Lease.epoch) (k := epochField)
      (fun l v => by rw [loadField_epoch,if_pos rfl])
      (fun l f v hf => by rw [loadField_epoch,if_neg hf])
      hnodup (hmem _ (mem_of_get? hr.epoch)) {proj := proj}
    rw [← loadFields_eq] at hholder hepoch
    -- the epoch was parsed once before
    have hparse : (parseIntD (formatUint c)).toNat=c := by
      have hc := (scanEpoch_ok hscan).2.1 rfl n rfl (formatUint c)
      have heq := formatUint_injective (hc.mp (hmem _ (mem_of_get? hr.epoch)))
      obtain ⟨hstr,hval⟩ := persistedLeaseEpoch_eq hn
      rw [heq,← hstr,hval,Int.toNat_natCast]
    have hl : Agrees (loadFields {proj := proj} (fieldReplies (order.visit g))) st := by
      refine .inr ⟨g,?_,?_⟩
      · rw [hepoch,hparse]
        exact hr
      · rw [hholder,ofText_text]
        exact hx
    cases h
    split
    · exact hl
    · exact hl

end Load

/-- What holds between two steps. A caller waiting for a transition has quarantined the lease; one
waiting for a flush has not, and the record is still the lease's. -/
structure LeaseInv (s : LeaseState) : Prop where
  store : StoreOk s.store
  late : s.late≠[] → s.lease.unresolved=true ∧ s.call=none
  idle : s.call=none → s.lease.unresolved=false → Agrees s.lease s.store
  grant : ∀ op p old next r,s.call = some (.grant op p old next,r) →
    s.lease.unresolved=true ∧ ∀ v,r=some v → Answered next s.store v
  stop : ∀ old next r,s.call = some (.stop old next,r) →
    s.lease.unresolved=true ∧ ∀ v,r=some v → Answered next s.store v
  flush : ∀ e x f r,s.call = some (.flush e x f,r) → s.mem.isSome=true ∧ Agrees s.lease s.store

lemma Agrees.congr {l l' : Lease} (h : Agrees l st) (hholder : l'.holder=l.holder)
    (hepoch : l'.epoch=l.epoch) : Agrees l' st := by
  unfold Agrees
  rw [hholder,hepoch]
  exact h

lemma Answered.agrees {next l : Lease} {v : Resp.Value} {op : TransitionOp}
    {old : Lease} {ep : ℕ} (h : Answered next st v) (hep : transitionReply op old (some v)=some ep)
    (hholder : l.holder=next.holder) (hepoch : l.epoch=ep) : Agrees l st := by
  simp only [transitionReply] at hep
  split_ifs at hep with hok
  obtain herr | ⟨c,g,hr,hg,rfl⟩ := h
  · simp [herr] at hok
  have hstr : (bulkReply (formatUint c)).str=formatUint c := rfl
  rw [hstr] at hep
  have hc : persistedLeaseEpoch (formatUint c)=some ep := by
    cases hp : persistedLeaseEpoch (formatUint c) with
    | none => simp [hp,transition] at hep
    | some n =>
      rw [hp] at hep
      cases op <;> simp only [transition] at hep <;> split at hep <;> first | exact hep | cases hep
  have heq := formatUint_injective (persistedLeaseEpoch_eq hc).1
  refine .inr ⟨g,?_,?_⟩
  · rw [hepoch,← heq]
    exact hr
  · rw [hholder]
    exact hg

namespace LeaseInv
variable {s t : LeaseState}

lemma late_nil (h : LeaseInv s) {c : LeaseCall × Option Resp.Value} (hc : s.call=some c) : s.late=[] := by
  by_contra hne
  cases (h.late hne).2.symm.trans hc

lemma retouched {m : Option Lease} (h : LeaseInv s) (hsome : m.isSome=s.mem.isSome ∨ s.call=none)
    (hholder : (m.getD {proj := s.proj}).holder=s.lease.holder)
    (hepoch : (m.getD {proj := s.proj}).epoch=s.lease.epoch)
    (hres : (m.getD {proj := s.proj}).unresolved=s.lease.unresolved) :
    LeaseInv {s with mem := m} where
  store := h.store
  late hne := ⟨hres.trans (h.late hne).1,(h.late hne).2⟩
  idle hc hr := (h.idle hc (hres.symm.trans hr)).congr hholder hepoch
  grant op p old next r hc := ⟨hres.trans (h.grant op p old next r hc).1,(h.grant op p old next r hc).2⟩
  stop old next r hc := ⟨hres.trans (h.stop old next r hc).1,(h.stop old next r hc).2⟩
  flush e x f r hc := by
    obtain ⟨hm,ha⟩ := h.flush e x f r hc
    refine ⟨?_,ha.congr hholder hepoch⟩
    obtain hsome | hnone := hsome
    · exact hsome.trans hm
    · cases hnone.symm.trans hc

variable {c : LeaseCall}

lemma quarantined (h : LeaseInv s) (hres : s.lease.unresolved=false) (hc : ∀ e x f,c≠.flush e x f) :
    LeaseInv {s with mem := some {s.lease with unresolved := true}, call := some (c,none)} where
  store := h.store
  late hne := by
    rw [(h.late hne).1] at hres
    cases hres
  idle hnone := by cases hnone
  grant op p old next r hsent := by
    cases hsent
    exact ⟨rfl,nofun⟩
  stop old next r hsent := by
    cases hsent
    exact ⟨rfl,nofun⟩
  flush e x f r hsent := by
    cases hsent
    exact absurd rfl (hc e x f)

lemma grantStart (h : LeaseInv s) {p : Principal} {now checkoutMax ttl : ℤ}
    {mode : LeaseMode} {label : String} {op : TransitionOp} {next : Lease}
    (hsend : grantLockedStart s.lease p now checkoutMax mode ttl label=.send op next) :
    LeaseInv {s with
      mem := some {s.lease with unresolved := true}
      call := some (.grant op p s.lease next,none)} := by
  refine h.quarantined ?_ nofun
  by_contra hres
  have hu : s.lease.unresolved=true := by simpa using hres
  simp [grantLockedStart,hu] at hsend

lemma endStart (h : LeaseInv s) {now : ℤ} {next : Lease}
    (hsend : endLockedStart s.mem now=.send next) :
    LeaseInv {s with
      mem := some {s.lease with unresolved := true}
      call := some (.stop s.lease next,none)} := by
  refine h.quarantined ?_ nofun
  cases hm : s.mem with
  | none => simp [hm,endLockedStart] at hsend
  | some l =>
    by_contra hres
    have hu : l.unresolved=true := by simpa [lease,hm] using hres
    simp [hm,endLockedStart,hu] at hsend

lemma flushStart (h : LeaseInv s) (hcall : s.call=none) (hm : s.mem.any flushable=true) :
    LeaseInv {s with
      call := some (.flush s.lease.epoch s.lease.holder (flushFields s.lease),none)} := by
  obtain ⟨l,hl,hf⟩ : ∃ l,s.mem=some l ∧ flushable l=true := by
    cases hs : s.mem with
    | none => simp [hs] at hm
    | some l => exact ⟨l,rfl,by simpa [hs] using hm⟩
  have hlease : s.lease=l := by simp [lease,hl]
  have hres : s.lease.unresolved=false := by
    simp only [flushable,Bool.and_eq_true,Bool.not_eq_true'] at hf
    rw [hlease]
    exact hf.2
  exact {
    store := h.store
    late := fun hne => by
      rw [(h.late hne).1] at hres
      cases hres
    idle := nofun
    grant := fun op p old next r hc => by cases hc
    stop := fun old next r hc => by cases hc
    flush := fun e x f r hc => ⟨by simp [hl],h.idle hcall hres⟩}

lemma execute (h : LeaseInv s) (hcall : s.call=some (c,none)) :
    LeaseInv {s with store := (c.script s.store).1, call := some (c,some (c.script s.store).2)} where
  store := (script_store c h.store).1
  late hne := absurd (h.late_nil hcall) hne
  idle hnone := by cases hnone
  grant op p old next r hc := by
    cases hc
    refine ⟨(h.grant op p old next none hcall).1,fun v hv => ?_⟩
    cases hv
    exact (transition_store op _ _ next h.store).2.2.1
  stop old next r hc := by
    cases hc
    refine ⟨(h.stop old next none hcall).1,fun v hv => ?_⟩
    cases hv
    exact (transition_store .stop _ _ next h.store).2.2.1
  flush e x f r hc := by
    cases hc
    obtain ⟨hm,ha⟩ := h.flush e x f none hcall
    exact ⟨hm,(flush_store _ _ f h.store).2.2.2 _ ha⟩

lemma released {m : Option Lease} (h : LeaseInv s) (hlate : s.late=[])
    (ha : (m.getD {proj := s.proj}).unresolved=false → Agrees (m.getD {proj := s.proj}) s.store) :
    LeaseInv {s with mem := m, call := none} where
  store := h.store
  late hne := absurd hlate hne
  idle _ hr := ha hr
  grant op p old next r hc := by cases hc
  stop old next r hc := by cases hc
  flush e x f r hc := by cases hc

lemma finish (h : LeaseInv s) {r v : Option Resp.Value} (hcall : s.call=some (c,r))
    (hv : v=r ∨ v=none) : LeaseInv (s.finish c v) := by
  have hlate := h.late_nil hcall
  -- an epoch is taken only from the reply the script gave
  have hreply : ∀ {op old ep},transitionReply op old v=some ep → ∃ w,v=some w ∧ r=some w := by
    intro op old ep hep
    cases v with
    | none => cases hep
    | some w => exact ⟨w,rfl,by simpa [eq_comm] using hv⟩
  have hquiet : s.lease.unresolved=true → LeaseInv {s with call := none} := fun hres =>
    h.released hlate (fun hr => by
      have hr' : s.lease.unresolved=false := hr
      rw [hres] at hr'
      cases hr')
  cases c with
  | grant op p old next =>
    obtain ⟨hres,hans⟩ := h.grant op p old next r hcall
    simp only [finish]
    cases hep : transitionReply op old v with
    | none => exact hquiet hres
    | some ep =>
      obtain ⟨w,rfl,rfl⟩ := hreply hep
      exact h.released hlate (fun _ => (hans w rfl).agrees hep rfl rfl)
  | stop old next =>
    obtain ⟨hres,hans⟩ := h.stop old next r hcall
    simp only [finish]
    cases hep : transitionReply .stop old v with
    | none => exact hquiet hres
    | some ep =>
      obtain ⟨w,rfl,rfl⟩ := hreply hep
      exact h.released hlate (fun _ => (hans w rfl).agrees hep rfl rfl)
  | flush e x f =>
    obtain ⟨hm,ha⟩ := h.flush e x f r hcall
    simp only [finish]
    refine h.released hlate (fun _ => ?_)
    cases hs : s.mem with
    | none => simp [hs] at hm
    | some l =>
      obtain ⟨hholder,hepoch,_⟩ := flushEnd_identity l f
        (v.any (fun v => v.err.isNone && v.type=byte ':' && v.int=1))
      have hl : s.lease=l := by simp [lease,hs]
      rw [hl] at ha
      exact ha.congr hholder hepoch

lemma lost_unresolved (h : LeaseInv s) {r : Option Resp.Value}
    (hcall : s.call=some (c,r)) : (s.finish c none).lease.unresolved=true := by
  cases c with
  | grant op p old next => exact (h.grant op p old next r hcall).1
  | stop old next => exact (h.stop old next r hcall).1
  | flush e x f =>
    obtain ⟨hm,_⟩ := h.flush e x f r hcall
    cases hs : s.mem with
    | none => simp [hs] at hm
    | some l => simp [LeaseState.finish,LeaseState.lease,hs,flushEnd]

theorem step (h : LeaseInv s) {a : LeaseAction} (hstep : leaseStep s a=some t) : LeaseInv t := by
  have hmap : ∀ f : Lease → Lease,(∀ l,(f l).tenure=l.tenure) →
      LeaseInv {s with mem := s.mem.map f} := by
    intro f hf
    cases hm : s.mem with
    | none =>
      have hs : s = {s with mem := none} := by rw [← hm]
      rw [map_none,← hs]
      exact h
    | some l =>
      have hl : s.lease=l := by simp [lease,hm]
      have hten := hf l
      simp only [Lease.tenure,Prod.mk.injEq] at hten
      refine h.retouched (.inl (by simp [hm])) ?_ ?_ ?_ <;> rw [hl]
      · exact hten.1
      · exact hten.2.1
      · exact hten.2.2.2
  cases a with simp only [leaseStep] at hstep
  | grant p now checkoutMax mode ttl label =>
    split_ifs at hstep with hcall
    split at hstep
    · rename_i op next hsend
      cases hstep
      exact h.grantStart hsend
    · cases hstep
      exact h.retouched (.inr (by simpa using hcall)) rfl rfl rfl
  | stop now =>
    split_ifs at hstep
    split at hstep
    · rename_i next hsend
      cases hstep
      exact h.endStart hsend
    · cases hstep
      exact h
  | flush =>
    split at hstep
    · cases hstep
    rename_i hcall
    split at hstep
    · rename_i hm
      cases hstep
      exact h.flushStart (by simpa using hcall) hm
    · cases hstep
      exact h
  | touch p now =>
    cases hstep
    exact hmap _ (touchLease_tenure p now)
  | heartbeat p pending now =>
    cases hstep
    exact hmap _ (heartbeatLease_tenure p pending now)
  | execute =>
    split at hstep
    · rename_i c hcall
      cases hstep
      exact h.execute hcall
    · cases hstep
  | deliver =>
    split at hstep
    · rename_i c v hcall
      cases hstep
      exact h.finish hcall (.inl rfl)
    · cases hstep
  | lose =>
    split at hstep
    · rename_i c hcall
      cases hstep
      have hf := h.finish hcall (.inr rfl)
      have hcalled : (s.finish c none).call=none := by
        cases c <;> rfl
      exact {hf with late := fun _ => ⟨h.lost_unresolved hcall,hcalled⟩}
    · rename_i c v hcall
      cases hstep
      exact h.finish hcall (.inr rfl)
    · cases hstep
  | executeLate =>
    split at hstep
    case h_2 => cases hstep
    rename_i c rest hlate
    cases hstep
    obtain ⟨hres,hcall⟩ := h.late (by simp [hlate])
    exact {
      store := (script_store c h.store).1
      late := fun _ => ⟨hres,hcall⟩
      idle := fun _ hr => by
        have hr' : s.lease.unresolved=false := hr
        rw [hres] at hr'
        cases hr'
      grant := fun op p old next r hc => by cases hcall.symm.trans hc
      stop := fun old next r hc => by cases hcall.symm.trans hc
      flush := fun e x f r hc => by cases hcall.symm.trans hc}
  | restart startMs order =>
    split_ifs at hstep with hlate
    split at hstep
    · rename_i m hload
      cases hstep
      exact h.released (by simpa using hlate) (fun _ => loadLease_agrees h.store hload)
    · cases hstep

end LeaseInv

/-- The step runs a script that grants or ends the lease, and the script takes effect. -/
def LeaseState.advances (s : LeaseState) : LeaseAction → Bool
  | .execute =>
    match s.call with
    | some (c,none) => c.advances s.store
    | _ => false
  | .executeLate => s.late.head?.any (fun c => c.advances s.store)
  | _ => false

lemma step_record {s t : LeaseState} {a : LeaseAction} (h : StoreOk s.store)
    (hstep : leaseStep s a=some t) : LaterRecord s.store t.store ∧
      t.store.epoch=s.store.epoch+(if s.advances a then 1 else 0) := by
  have hsame : t.store=s.store → s.advances a=false → LaterRecord s.store t.store ∧
      t.store.epoch=s.store.epoch+(if s.advances a then 1 else 0) := by
    intro hst ha
    rw [hst,ha]
    exact ⟨.refl _,rfl⟩
  have hfinish : ∀ c v,(s.finish c v).store=s.store := by
    intro c v
    cases c <;> simp only [finish] <;> split <;> rfl
  cases a with simp only [leaseStep] at hstep
  | execute =>
    split at hstep
    · rename_i c hcall
      cases hstep
      simp only [advances,hcall]
      exact ⟨(script_store c h).2.1,(script_store c h).2.2⟩
    · cases hstep
  | executeLate =>
    split at hstep
    · rename_i c rest hlate
      cases hstep
      simp only [advances,hlate,head?_cons,any_some]
      exact ⟨(script_store c h).2.1,(script_store c h).2.2⟩
    · cases hstep
  | grant | stop | flush | restart =>
    refine hsame ?_ rfl
    repeat' split at hstep
    all_goals cases hstep
    all_goals rfl
  | touch | heartbeat =>
    cases hstep
    exact hsame rfl rfl
  | deliver | lose =>
    refine hsame ?_ rfl
    split at hstep <;> cases hstep
    all_goals exact hfinish _ _

/-- The states a run starts from: nothing in flight, and memory and record in agreement. -/
structure CoherentStart (s : LeaseState) : Prop where
  call : s.call=none
  late : s.late=[]
  store : StoreOk s.store
  agrees : Agrees s.lease s.store

lemma CoherentStart.inv {s : LeaseState} (h : CoherentStart s) : LeaseInv s where
  store := h.store
  late hne := absurd h.late hne
  idle _ _ := h.agrees
  grant op p old next r hc := by cases h.call.symm.trans hc
  stop old next r hc := by cases h.call.symm.trans hc
  flush e x f r hc := by cases h.call.symm.trans hc

/-- Whatever scripts run late or not at all and whatever replies are lost: a lease that is not
quarantined is the persisted one; the counter moves by one at each grant and each end and by
nothing else; no epoch is ever recorded for two principals; and a record accepted at start has one
epoch in its counter and its hash. -/
theorem lease_record_coherent {s t : LeaseState} {as : List LeaseAction} (h : CoherentStart s)
    (hrun : Transition.run leaseStep s as = some t) : (t.lease.unresolved = false → Agrees t.lease t.store) ∧
    (∀ a u,leaseStep t a = some u → u.store.epoch = t.store.epoch+(if t.advances a then 1 else 0)) ∧
    (∀ bs u,Transition.run leaseStep t bs = some u → t.store.epoch ≤ u.store.epoch ∧
      ∀ p q v,t.store.heldEpoch p = some v → u.store.heldEpoch q = some v → p = q) ∧
    (∀ order st hs,loadLeaseRecord (loadLeaseRecordLua order st) = .ok hs →
      ∃ c m,st.counter = some (.string c) ∧ st.hash = some (.hash m) ∧
        ∀ v,(epochField,v) ∈ m ↔ v = c) := by
  have hinv : LeaseInv t :=
    run_invariant (fun _ _ _ hi hs => hi.step hs) h.inv hrun
  refine ⟨fun hres => ?_,fun a u hstep => (step_record hinv.store hstep).2,fun bs u hbs => ?_,
    fun order st hs hload => ?_⟩
  · cases hc : t.call with
    | none => exact hinv.idle hc hres
    | some cr =>
      obtain ⟨c,r⟩ := cr
      cases c with
      | grant op p old next =>
        rw [(hinv.grant op p old next r hc).1] at hres
        cases hres
      | stop old next =>
        rw [(hinv.stop old next r hc).1] at hres
        cases hres
      | flush e x f => exact (hinv.flush e x f r hc).2
  · have hlater : LeaseInv u ∧ LaterRecord t.store u.store := by
      refine run_invariant (I := fun w => LeaseInv w ∧ LaterRecord t.store w.store) ?_
        ⟨hinv,.refl _⟩ hbs
      intro w a w' hw hstep
      exact ⟨hw.1.step hstep,hw.2.trans (step_record hw.1.store hstep).1⟩
    refine ⟨hlater.2.epoch,fun p q v hp hq => ?_⟩
    obtain ⟨_,hhash⟩ | ⟨c,g,hr⟩ := hinv.store
    · simp [LeaseStore.heldEpoch,hhash] at hp
    rw [hr.heldEpoch_eq] at hp
    obtain ⟨m,hm,rfl⟩ := hr.past p v hp
    obtain hold | ⟨n,heq,hn⟩ := hlater.2.held q _ hq
    · rw [hr.heldEpoch_eq] at hold
      exact hr.once p q _ hp hold
    · -- a later record would carry a later epoch
      have := formatUint_injective heq
      have := hr.epoch_eq
      omega
  · obtain ⟨c,m,hc,hm,_,hv⟩ := loaded_epochs_agree hload
    exact ⟨c,m,hc,hm,hv⟩

/-- A grant takes effect while its reply is lost; the next process finds the lease held, and the
holder's release is confirmed. -/
def lostGrant : List LeaseAction :=
  [.grant ⟨"m:a",.mac,"mac-a"⟩ 1000 500 .auto 0 "",.execute,.lose,
    .grant ⟨"m:b",.mac,"mac-b"⟩ 1001 500 .auto 0 "",.restart 2000 (GoMap.RangeOrder.asListed _),
    .stop 2001,.execute,.deliver]

theorem lost_grant_is_recovered :
    ∃ t,Transition.run leaseStep { proj := 7 } lostGrant = some t ∧ t.lease.epoch = 2 ∧
      Agrees t.lease t.store := by
  have hstart : CoherentStart { proj := 7 } := ⟨rfl,rfl,.inl ⟨rfl,rfl⟩,.inl ⟨rfl,rfl,rfl,rfl⟩⟩
  have hrun : (Transition.run leaseStep { proj := 7 } lostGrant).map
      (fun t => (t.lease.epoch,t.lease.unresolved)) = some (2,false) := by
    decide +kernel
  obtain ⟨t,ht,hlease⟩ := map_eq_some_iff.mp hrun
  obtain ⟨hepoch,hres⟩ := Prod.mk.inj hlease
  exact ⟨t,ht,hepoch,(lease_record_coherent hstart ht).1 hres⟩

end JuiceMount.RespProxy
