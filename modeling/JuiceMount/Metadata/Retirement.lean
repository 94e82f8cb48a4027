import JuiceMount.Lib.Transition
import JuiceMount.Metadata.SpoolRows

/-! Superseded saves: an active row is the newest of its path that is not retired, retirement is for
good, and a save that was finalized, moved to a path or taken from it leaves the older ones retired. -/
namespace JuiceMount.Metadata
open Transition List SpoolTable Metadata SpoolRow Bool

structure RowInv (t : SpoolTable) : Prop where
  ids : (t.rows.map (·.id)).Nodup
  fresh : ∀ r∈t.rows,0<r.id ∧ r.id<t.nextId
  pos : 0<t.nextId
  live : ∀ r∈t.rows,r.active=true → r.retiredBy=0
  top : ∀ r∈t.rows,r.active=true → ∀ n∈t.rows,n.nfsPath=r.nfsPath → n.retiredBy=0 → n.id≤r.id

/-- Ids are not reused and retirement is not taken back. -/
structure Kept (s t : SpoolTable) : Prop where
  next : s.nextId≤t.nextId
  rows : ∀ r∈t.rows,r.id<s.nextId → ∃ r₀∈s.rows,r₀.id=r.id ∧ (r₀.retiredBy≠0 → r.retiredBy≠0)

/-- No row of this id can be drained any more. -/
structure Retired (t : SpoolTable) (i : ℕ) : Prop where
  used : i<t.nextId
  rows : ∀ r∈t.rows,r.id=i → r.retiredBy≠0

section Basics
variable {s t u : SpoolTable} {rows : List SpoolRow} {r n : SpoolRow} {i : ℕ} {c : SpoolRow → Bool} {k : ℕ}
  {f : SpoolRow → SpoolRow}

lemma mem_updateWhere : r∈updateWhere c f rows ↔ ∃ x∈rows,(if c x then f x else x)=r := by
  simp [updateWhere]

lemma mem_updateWhere_cases (h : r∈updateWhere c f rows) : ∃ x∈rows,(c x=true ∧ r=f x) ∨ (¬c x=true ∧ r=x) := by
  obtain ⟨x,hx,rfl⟩ := mem_updateWhere.mp h
  by_cases hc : c x=true
  · exact ⟨x,hx,.inl ⟨hc,if_pos hc⟩⟩
  · exact ⟨x,hx,.inr ⟨hc,if_neg hc⟩⟩

lemma mem_updateWhere_of_not (hr : r∈rows) (hc : ¬c r=true) : r∈updateWhere c f rows :=
  mem_updateWhere.mpr ⟨r,hr,if_neg hc⟩

lemma updateWhere_ids (hid : ∀ r,(f r).id=r.id) : (updateWhere c f rows).map (·.id)=rows.map (·.id) := by
  simp only [updateWhere,map_map]
  refine map_congr_left fun r _ => ?_
  simp only [Function.comp_apply]
  split
  · exact hid r
  · rfl

lemma retire_ids : (retire k c rows).map (·.id)=rows.map (·.id) := updateWhere_ids fun _ => rfl

lemma mem_retire (h : r∈retire k c rows) :
    ∃ x∈rows,(x.retiredBy=0 ∧ c x=true ∧ r = {x with retiredBy := k}) ∨
      (¬(x.retiredBy=0 ∧ c x=true) ∧ r=x) := by
  obtain ⟨x,hx,rfl⟩ := mem_updateWhere.mp h
  refine ⟨x,hx,?_⟩
  by_cases hc : x.retiredBy=0 ∧ c x=true
  · exact .inl ⟨hc.1,hc.2,by simp [hc]⟩
  · exact .inr ⟨hc,if_neg (by simpa using hc)⟩

lemma mem_retire_of (hr : r∈rows) (hc : r.retiredBy=0 → ¬c r=true) : r∈retire k c rows := by
  refine mem_updateWhere_of_not hr fun h => ?_
  simp only [and_eq_true,decide_eq_true_eq] at h
  exact hc h.1 h.2

lemma retired_of_retire (hk : k≠0) (h : r∈retire k c rows) (hc : c r=true) : r.retiredBy≠0 := by
  obtain ⟨x,_,⟨_,_,rfl⟩ | ⟨hno,rfl⟩⟩ := mem_retire h
  · exact hk
  · exact fun hr0 => hno ⟨hr0,hc⟩

lemma older_iff {p : Path} : (r.nfsPath=p && r.id<k : Bool)=true ↔ r.nfsPath=p ∧ r.id<k := by
  simp

lemma Kept.refl (t : SpoolTable) : Kept t t := ⟨le_rfl,fun r hr _ => ⟨r,hr,rfl,id⟩⟩

lemma Kept.trans (h : Kept s t) (h' : Kept t u) : Kept s u := by
  refine ⟨h.next.trans h'.next,fun r hr hlt => ?_⟩
  obtain ⟨r₁,hr₁,hid₁,hret₁⟩ := h'.rows r hr (lt_of_lt_of_le hlt h.next)
  obtain ⟨r₀,hr₀,hid₀,hret₀⟩ := h.rows r₁ hr₁ (hid₁ ▸ hlt)
  exact ⟨r₀,hr₀,hid₀.trans hid₁,hret₁ ∘ hret₀⟩

lemma Retired.keep (h : Retired s i) (hk : Kept s t) : Retired t i := by
  refine ⟨lt_of_lt_of_le h.used hk.next,fun r hr hid => ?_⟩
  obtain ⟨r₀,hr₀,hid₀,hret⟩ := hk.rows r hr (hid ▸ h.used)
  exact hret (h.rows r₀ hr₀ (hid₀.trans hid))

lemma not_newerExists (h : newerExists rows r=false) (hn : n∈rows) (hpath : n.nfsPath=r.nfsPath)
    (hret : n.retiredBy=0) : n.id≤r.id := by
  by_contra hlt
  have : newerExists rows r=true := by
    simp only [newerExists,List.any_eq_true]
    exact ⟨n,hn,by simp [hpath,hret,not_le.mp hlt]⟩
  rw [h] at this
  cases this

/-- An update that leaves the id, the path and the retirement of a row. -/
def Steady (f : SpoolRow → SpoolRow) : Prop :=
  ∀ r,(f r).id=r.id ∧ (f r).nfsPath=r.nfsPath ∧ (f r).retiredBy=r.retiredBy

end Basics

namespace RowInv
variable {s t : SpoolTable} {r n : SpoolRow} {c : SpoolRow → Bool} {f : SpoolRow → SpoolRow}

lemma eq_of_id (h : RowInv t) (hr : r∈t.rows) (hn : n∈t.rows) (hid : r.id=n.id) : r=n :=
  inj_on_of_nodup_map h.ids hr hn hid

/-- An update of states: a row becomes active only as the newest one of its path. -/
lemma update (h : RowInv t) (hf : Steady f) (hact : ∀ r∈t.rows,c r=true → (f r).active=true → r.active=true ∨
      (r.retiredBy=0 ∧ newerExists t.rows r=false)) : RowInv (t.update c f) := by
  -- every row comes from one with the same id, path and retirement
  have horigin : ∀ r∈updateWhere c f t.rows,∃ x∈t.rows,x.id=r.id ∧ x.nfsPath=r.nfsPath ∧
      x.retiredBy=r.retiredBy ∧ (r.active=true → x.active=true ∨
        (x.retiredBy=0 ∧ newerExists t.rows x=false)) := by
    intro r hr
    obtain ⟨x,hx,⟨hc,rfl⟩ | ⟨_,rfl⟩⟩ := mem_updateWhere_cases hr
    · obtain ⟨hi,hp,hr0⟩ := hf x
      exact ⟨x,hx,hi.symm,hp.symm,hr0.symm,hact x hx hc⟩
    · exact ⟨r,hx,rfl,rfl,rfl,.inl⟩
  refine ⟨?_,fun r hr => ?_,h.pos,fun r hr ha => ?_,fun r hr ha n hn hpath hret => ?_⟩
  · exact (updateWhere_ids fun r => (hf r).1).symm ▸ h.ids
  · obtain ⟨x,hx,hi,_⟩ := horigin r hr
    exact hi ▸ h.fresh x hx
  · obtain ⟨x,hx,_,_,hr',hx'⟩ := horigin r hr
    obtain hxa | hxn := hx' ha
    · exact hr' ▸ h.live x hx hxa
    · exact hr' ▸ hxn.1
  obtain ⟨x,hx,hxi,hxp,_,hx'⟩ := horigin r hr
  obtain ⟨y,hy,hyi,hyp,hyr,_⟩ := horigin n hn
  rw [← hxi,← hyi]
  have hsame : y.nfsPath=x.nfsPath := by rw [hyp,hxp,hpath]
  obtain hxa | hxn := hx' ha
  · exact h.top x hx hxa y hy hsame (hyr.trans hret)
  · exact not_newerExists hxn.2 hy hsame (hyr.trans hret)

lemma retire (h : RowInv t) {k : ℕ} (hc : ∀ r∈t.rows,r.retiredBy=0 → c r=true → r.active=false) :
    RowInv {t with rows := Metadata.retire k c t.rows} := by
  have horigin : ∀ r∈Metadata.retire k c t.rows,∃ x∈t.rows,x.id=r.id ∧ x.nfsPath=r.nfsPath ∧
      x.active=r.active ∧ (r.active=true → r=x) ∧ (r.retiredBy=0 → k=0 ∨ x.retiredBy=0) := by
    intro r hr
    obtain ⟨x,hx,⟨hx0,hxc,rfl⟩ | ⟨_,rfl⟩⟩ := mem_retire hr
    · refine ⟨x,hx,rfl,rfl,rfl,fun ha => ?_,fun hk => .inl hk⟩
      have := hc x hx hx0 hxc
      rw [show x.active=true from ha] at this
      cases this
    · exact ⟨r,hx,rfl,rfl,rfl,fun _ => rfl,.inr⟩
  refine ⟨?_,fun r hr => ?_,h.pos,fun r hr ha => ?_,fun r hr ha n hn hpath hret => ?_⟩
  · exact retire_ids.symm ▸ h.ids
  · obtain ⟨x,hx,hi,_⟩ := horigin r hr
    exact hi ▸ h.fresh x hx
  · obtain ⟨x,hx,_,_,_,hsame,_⟩ := horigin r hr
    obtain rfl := hsame ha
    exact h.live r hx ha
  · obtain ⟨x,hx,_,_,_,hsame,_⟩ := horigin r hr
    obtain rfl := hsame ha
    obtain ⟨y,hy,⟨hy0,hyc,rfl⟩ | ⟨_,rfl⟩⟩ := mem_retire hn
    · exact h.top r hx ha y hy hpath hy0
    · exact h.top r hx ha n hy hpath hret

lemma filter (h : RowInv t) (p : SpoolRow → Bool) : RowInv {t with rows := t.rows.filter p} := by
  have hmem : ∀ r∈t.rows.filter p,r∈t.rows := fun r hr => mem_of_mem_filter hr
  exact ⟨h.ids.sublist (filter_sublist.map _),fun r hr => h.fresh r (hmem r hr),h.pos,fun r hr => h.live r (hmem r hr),
    fun r hr ha n hn => h.top r (hmem r hr) ha n (hmem n hn)⟩

lemma older_inactive (h : RowInv t) (hn : n∈t.rows) (hret : n.retiredBy=0) (hr : r∈t.rows)
    (hpath : r.nfsPath=n.nfsPath) (hlt : r.id<n.id) : r.active=false := by
  by_contra ha
  have := h.top r hr (by simpa using ha) n hn hpath.symm hret
  omega

lemma deleteRow (h : RowInv t) (hn : n∈t.rows) : RowInv {t with rows := deleteRow n t.rows} := by
  have hf := h.filter (·.id≠n.id)
  simp only [Metadata.deleteRow]
  split
  · rename_i hacc
    simp only [and_eq_true,decide_eq_true_eq] at hacc
    refine hf.retire fun r hr _ hc => ?_
    obtain ⟨hp,hlt⟩ := older_iff.mp hc
    exact h.older_inactive hn hacc.1 (mem_of_mem_filter hr) hp hlt
  · exact hf

lemma insert (h : RowInv t) (hid : n.id=t.nextId) (hret : n.retiredBy=0)
    (hfree : ∀ r∈t.rows,r.nfsPath=n.nfsPath → r.active=false) :
    RowInv {rows := t.rows++[n], nextId := t.nextId+1} := by
  have hmem : ∀ r∈t.rows++[n],r∈t.rows ∨ r=n := fun r hr =>
    (mem_append.mp hr).imp_right mem_singleton.mp
  refine ⟨?_,fun r hr => ?_,Nat.succ_pos _,fun r hr ha => ?_,fun r hr ha m hm hpath hm0 => ?_⟩
  · rw [map_append,nodup_append]
    refine ⟨h.ids,by simp,fun i hi j hj => ?_⟩
    obtain ⟨r,hr,rfl⟩ := mem_map.mp hi
    have := (h.fresh r hr).2
    simp only [map_cons,map_nil,mem_singleton] at hj
    omega
  · obtain hr | rfl := hmem r hr
    · have := h.fresh r hr
      exact ⟨this.1,by dsimp only; omega⟩
    · have := h.pos
      exact ⟨by omega,by dsimp only; omega⟩
  · obtain hr | rfl := hmem r hr
    · exact h.live r hr ha
    · exact hret
  obtain hr' | hrn := hmem r hr <;> obtain hm' | hmn := hmem m hm
  · exact h.top r hr' ha m hm' hpath hm0
  · rw [hfree r hr' (hmn ▸ hpath.symm)] at ha
    cases ha
  · have := (h.fresh m hm').2
    rw [hrn]
    omega
  · rw [hrn,hmn]

lemma move (h : RowInv t) {target : Path} (hclear : ∀ r∈t.rows,r.nfsPath=target → r.retiredBy≠0)
    (hf : ∀ r,(f r).id=r.id ∧ (f r).nfsPath=target ∧ (f r).retiredBy=r.retiredBy ∧ (f r).active=r.active)
    {k : ℕ} : RowInv (t.update (·.id=k) f) := by
  have horigin : ∀ r∈updateWhere (·.id=k) f t.rows,∃ x∈t.rows,x.id=r.id ∧ x.retiredBy=r.retiredBy ∧
      x.active=r.active ∧ (x.id=k ∧ r.nfsPath=target ∨ x.id≠k ∧ r.nfsPath=x.nfsPath) := by
    intro r hr
    obtain ⟨x,hx,⟨hk,rfl⟩ | ⟨hk,rfl⟩⟩ := mem_updateWhere_cases hr
    · obtain ⟨hi,hp,hr0,ha⟩ := hf x
      exact ⟨x,hx,hi.symm,hr0.symm,ha.symm,.inl ⟨of_decide_eq_true hk,hp⟩⟩
    · exact ⟨r,hx,rfl,rfl,rfl,.inr ⟨by simpa using hk,rfl⟩⟩
  refine ⟨?_,fun r hr => ?_,h.pos,fun r hr ha => ?_,fun r hr ha n hn hpath hret => ?_⟩
  · exact (updateWhere_ids fun r => (hf r).1).symm ▸ h.ids
  · obtain ⟨x,hx,hi,_⟩ := horigin r hr
    exact hi ▸ h.fresh x hx
  · obtain ⟨x,hx,_,hr0,hxa,_⟩ := horigin r hr
    exact hr0 ▸ h.live x hx (hxa.trans ha)
  obtain ⟨x,hx,hxi,hx0,hxa,hxp⟩ := horigin r hr
  obtain ⟨y,hy,hyi,hy0,_,hyp⟩ := horigin n hn
  rw [← hxi,← hyi]
  have hx0' := h.live x hx (hxa.trans ha)
  obtain ⟨hxk,hxt⟩ | ⟨hxk,hxs⟩ := hxp <;> obtain ⟨hyk,hyt⟩ | ⟨hyk,hys⟩ := hyp
  · omega
  · exact absurd (hy0.trans hret) (hclear y hy (by rw [← hys,hpath,hxt]))
  · exact absurd hx0' (hclear x hx (by rw [← hxs,← hpath,hyt]))
  · exact h.top x hx (hxa.trans ha) y hy (by rw [← hys,hpath,hxs]) (hy0.trans hret)

end RowInv

/-- Row `i` is retired, or row `k` of the same path still shows that it is superseded. -/
structure Shade (p : Path) (i k : ℕ) (t : SpoolTable) : Prop where
  used : i<t.nextId
  rows : ∀ r∈t.rows,r.id=i → r.retiredBy≠0 ∨
    (r.nfsPath=p ∧ ∃ n∈t.rows,n.id=k ∧ n.nfsPath=p ∧ n.retiredBy=0 ∧ n.accepted=true)

namespace Shade
variable {t : SpoolTable} {p : Path} {i k : ℕ} {n : SpoolRow} {c : SpoolRow → Bool}

lemma retire (h : Shade p i k t) (hik : i<k) {b : ℕ} (hb : b≠0)
    (hdown : ∀ x y : SpoolRow,x.nfsPath=p → y.nfsPath=p → x.id<y.id → c y=true → c x=true) :
    Shade p i k {t with rows := retire b c t.rows} := by
  refine ⟨h.used,fun r hr hid => ?_⟩
  obtain ⟨x,hx,⟨hx0,hxc,rfl⟩ | ⟨hx0,rfl⟩⟩ := mem_retire hr
  · exact .inl hb
  obtain hret | ⟨hp,m,hm,hmk,hmp,hm0,hma⟩ := h.rows r hx hid
  · exact .inl hret
  · by_cases hr0 : r.retiredBy=0
    · refine .inr ⟨hp,m,mem_retire_of hm fun _ hmc => ?_,hmk,hmp,hm0,hma⟩
      exact hx0 ⟨hr0,hdown r m hp hmp (by omega) hmc⟩
    · exact .inl hr0

lemma deleteRow (h : Shade p i k t) (hik : i<k) (hinv : RowInv t) (hn : n∈t.rows) :
    Shade p i k {t with rows := deleteRow n t.rows} := by
  simp only [Metadata.deleteRow]
  -- the row that shows it may be the one deleted; then the trigger fires
  by_cases hnk : n.id=k ∧ n.nfsPath=p ∧ n.retiredBy=0 ∧ n.accepted=true
  · rw [if_pos (by simp [hnk])]
    refine ⟨h.used,fun r hr hid => ?_⟩
    obtain ⟨x,hx,⟨_,_,rfl⟩ | ⟨hx0,rfl⟩⟩ := mem_retire hr
    · exact .inl (hinv.fresh n hn).1.ne'
    obtain hret | ⟨hp,_⟩ := h.rows r (mem_of_mem_filter hx) hid
    · exact .inl hret
    · exact .inl fun hr0 => hx0 ⟨hr0,older_iff.mpr ⟨hp.trans hnk.2.1.symm,by omega⟩⟩
  · have hfilter : Shade p i k {t with rows := t.rows.filter (·.id≠n.id)} := by
      refine ⟨h.used,fun r hr hid => ?_⟩
      obtain hret | ⟨hp,m,hm,hmk,hmp,hm0,hma⟩ := h.rows r (mem_of_mem_filter hr) hid
      · exact .inl hret
      · refine .inr ⟨hp,m,mem_filter.mpr ⟨hm,?_⟩,hmk,hmp,hm0,hma⟩
        simp only [ne_eq,decide_not,not_eq_true',decide_eq_false_iff_not]
        intro hmn
        obtain rfl := hinv.eq_of_id hm hn hmn
        exact hnk ⟨hmk,hmp,hm0,hma⟩
    split
    · refine hfilter.retire hik (hinv.fresh n hn).1.ne' fun x y hx hy hxy hc => ?_
      obtain ⟨hp,hlt⟩ := older_iff.mp hc
      exact older_iff.mpr ⟨hx.trans (hy.symm.trans hp),by omega⟩
    · exact hfilter

lemma insert (h : Shade p i k t) (hid : n.id=t.nextId) : Shade p i k {rows := t.rows++[n], nextId := t.nextId+1} := by
  have hused := h.used
  refine ⟨Nat.lt_succ_of_lt hused,fun r hr hri => ?_⟩
  obtain hr | rfl := (mem_append.mp hr).imp_right mem_singleton.mp
  · obtain hret | ⟨hp,m,hm,hrest⟩ := h.rows r hr hri
    · exact .inl hret
    · exact .inr ⟨hp,m,mem_append_left _ hm,hrest⟩
  · omega

lemma move (h : Shade p i k t) (hik : i<k) (hinv : RowInv t) (hn : n∈t.rows) (hact : n.active=true)
    (holder : ∀ r∈t.rows,r.nfsPath=n.nfsPath → r.id<n.id → r.retiredBy≠0) {f : SpoolRow → SpoolRow}
    (hf : ∀ r,(f r).id=r.id ∧ (f r).retiredBy=r.retiredBy) : Shade p i k (t.update (·.id=n.id) f) := by
  refine ⟨h.used,fun r hr hri => ?_⟩
  obtain ⟨x,hx,⟨hxn,rfl⟩ | ⟨_,rfl⟩⟩ := mem_updateWhere_cases hr
  -- the row that moves is the newest of its path and not superseded
  · obtain rfl := hinv.eq_of_id hx hn (of_decide_eq_true hxn)
    obtain hret | ⟨hp,m,hm,hmk,hmp,hm0,_⟩ := h.rows x hx ((hf x).1.symm.trans hri)
    · exact .inl ((hf x).2.symm ▸ hret)
    · have := hinv.top x hx hact m hm (hmp.trans hp.symm) hm0
      have := (hf x).1
      omega
  · obtain hret | ⟨hp,m,hm,hmk,hmp,hm0,hma⟩ := h.rows r hx hri
    · exact .inl hret
    by_cases hr0 : r.retiredBy=0
    · refine .inr ⟨hp,m,mem_updateWhere_of_not hm fun hmn => ?_,hmk,hmp,hm0,hma⟩
      obtain rfl := hinv.eq_of_id hm hn (of_decide_eq_true hmn)
      exact holder r hx (hp.trans hmp.symm) (by omega) hr0
    · exact .inl hr0

lemma update (h : Shade p i k t) {f : SpoolRow → SpoolRow} (hf : Steady f)
    (hacc : ∀ r,c r=true → r.accepted=true → (f r).accepted=true) : Shade p i k (t.update c f) := by
  refine ⟨h.used,fun r hr hri => ?_⟩
  obtain ⟨x,hx,hxi,hxp,hxr⟩ : ∃ x∈t.rows,x.id=r.id ∧ x.nfsPath=r.nfsPath ∧ x.retiredBy=r.retiredBy := by
    obtain ⟨x,hx,⟨_,rfl⟩ | ⟨_,rfl⟩⟩ := mem_updateWhere_cases hr
    · exact ⟨x,hx,(hf x).1.symm,(hf x).2.1.symm,(hf x).2.2.symm⟩
    · exact ⟨r,hx,rfl,rfl,rfl⟩
  obtain hret | ⟨hp,m,hm,hmk,hmp,hm0,hma⟩ := h.rows x hx (hxi.trans hri)
  · exact .inl (hxr ▸ hret)
  · refine .inr ⟨hxp.symm.trans hp,_,mem_updateWhere.mpr ⟨m,hm,rfl⟩,?_⟩
    split
    · rename_i hc
      exact ⟨(hf m).1.trans hmk,(hf m).2.1.trans hmp,(hf m).2.2.trans hm0,hacc m hc hma⟩
    · exact ⟨hmk,hmp,hm0,hma⟩

end Shade

namespace Kept
variable {t : SpoolTable} {n : SpoolRow} {c : SpoolRow → Bool} {f : SpoolRow → SpoolRow}

lemma update (hid : ∀ r,(f r).id=r.id) (hret : ∀ r,r.retiredBy≠0 → (f r).retiredBy≠0) : Kept t (t.update c f) := by
  refine ⟨le_rfl,fun r hr _ => ?_⟩
  obtain ⟨x,hx,⟨_,rfl⟩ | ⟨_,rfl⟩⟩ := mem_updateWhere_cases hr
  · exact ⟨x,hx,(hid x).symm,hret x⟩
  · exact ⟨r,hx,rfl,id⟩

lemma retire {b : ℕ} (hb : b≠0) : Kept t {t with rows := retire b c t.rows} :=
  update (t := t) (c := fun r => r.retiredBy=0 && c r) (f := fun r => {r with retiredBy := b}) (fun _ => rfl)
    fun _ _ => hb

lemma filter (p : SpoolRow → Bool) : Kept t {t with rows := t.rows.filter p} :=
  ⟨le_rfl,fun r hr _ => ⟨r,mem_of_mem_filter hr,rfl,id⟩⟩

lemma deleteRow (hn : n.id≠0) : Kept t {t with rows := deleteRow n t.rows} := by
  simp only [Metadata.deleteRow]
  split
  · exact (filter _).trans (retire hn)
  · exact filter _

lemma insert (hid : n.id=t.nextId) : Kept t {rows := t.rows++[n], nextId := t.nextId+1} := by
  refine ⟨Nat.le_succ _,fun r hr hlt => ?_⟩
  obtain hr | rfl := (mem_append.mp hr).imp_right mem_singleton.mp
  · exact ⟨r,hr,rfl,id⟩
  · omega

end Kept

/-- What an operation makes of the table. A row that is ready was there and not writing, or has
retired the older ones of its path; one that was accepted stays to show it, or has. -/
structure StepFacts (s t : SpoolTable) : Prop where
  inv : RowInv t
  kept : Kept s t
  settled : ∀ n∈t.rows,n.drainState=.ready →
    (∃ m∈s.rows,m.id=n.id ∧ m.nfsPath=n.nfsPath ∧ m.drainState≠.writing) ∨
    ∀ r∈t.rows,r.nfsPath=n.nfsPath → r.id<n.id → r.retiredBy≠0
  shade : ∀ n∈s.rows,n.retiredBy=0 → n.accepted=true →
    (∃ n'∈t.rows,n'.id=n.id ∧ n'.nfsPath=n.nfsPath ∧ n'.retiredBy=0) ∨
    ∀ r∈s.rows,r.nfsPath=n.nfsPath → r.id<n.id → Retired t r.id

namespace StepFacts
variable {s t : SpoolTable} {n : SpoolRow} {c : SpoolRow → Bool} {f : SpoolRow → SpoolRow}

lemma shade_of (h : RowInv s) (hshade : ∀ p i k,i<k → Shade p i k s → Shade p i k t) {n : SpoolRow}
    (hn : n∈s.rows) (hret : n.retiredBy=0) (hacc : n.accepted=true) :
    (∃ n'∈t.rows,n'.id=n.id ∧ n'.nfsPath=n.nfsPath ∧ n'.retiredBy=0) ∨
    ∀ r∈s.rows,r.nfsPath=n.nfsPath → r.id<n.id → Retired t r.id := by
  by_cases hex : ∃ n'∈t.rows,n'.id=n.id ∧ n'.nfsPath=n.nfsPath ∧ n'.retiredBy=0
  · exact .inl hex
  refine .inr fun r hr hpath hlt => ?_
  have hstart : Shade n.nfsPath r.id n.id s := by
    refine ⟨(h.fresh r hr).2,fun r' hr' hid => .inr ?_⟩
    obtain rfl := h.eq_of_id hr' hr hid
    exact ⟨hpath,n,hn,rfl,rfl,hret,hacc⟩
  have hend := hshade _ _ _ hlt hstart
  refine ⟨hend.used,fun r' hr' hid => ?_⟩
  obtain hgone | ⟨_,m,hm,hmk,hmp,hm0,_⟩ := hend.rows r' hr' hid
  · exact hgone
  · exact absurd ⟨m,hm,hmk,hmp,hm0⟩ hex

lemma refl (h : RowInv t) : StepFacts t t := by
  refine ⟨h,Kept.refl t,fun n hn hready => .inl ⟨n,hn,rfl,rfl,?_⟩,fun n hn hret _ => .inl ⟨n,hn,rfl,rfl,hret⟩⟩
  rw [hready]
  nofun

lemma update (h : RowInv t) (hf : Steady f) (hact : ∀ r∈t.rows,c r=true → (f r).active=true → r.active=true ∨
      (r.retiredBy=0 ∧ newerExists t.rows r=false))
    (hready : ∀ r∈t.rows,c r=true → (f r).drainState=.ready → r.drainState≠.writing) : StepFacts t (t.update c f) := by
  refine ⟨h.update hf hact,Kept.update (fun r => (hf r).1) fun r hr => (hf r).2.2.symm ▸ hr,fun n hn hn' => .inl ?_,
    fun n hn hn0 _ => .inl ?_⟩
  · obtain ⟨x,hx,⟨hc,rfl⟩ | ⟨_,rfl⟩⟩ := mem_updateWhere_cases hn
    · exact ⟨x,hx,(hf x).1.symm,(hf x).2.1.symm,hready x hx hc hn'⟩
    · exact ⟨n,hx,rfl,rfl,by rw [hn']; nofun⟩
  · refine ⟨_,mem_updateWhere.mpr ⟨n,hn,rfl⟩,?_⟩
    split
    · exact ⟨(hf n).1,(hf n).2.1,(hf n).2.2.trans hn0⟩
    · exact ⟨rfl,rfl,hn0⟩

end StepFacts

/-- Rows were deleted, with the trigger. -/
structure Thinned (s t : SpoolTable) : Prop where
  inv : RowInv t
  kept : Kept s t
  origin : ∀ n∈t.rows,∃ m∈s.rows,m.id=n.id ∧ m.nfsPath=n.nfsPath ∧ m.drainState=n.drainState
  shade : ∀ p i k,i<k → Shade p i k s → Shade p i k t

/-- A row of `s` had the id, path and state of `r`, which is retired if that one was. -/
def Stems (s : SpoolTable) (r : SpoolRow) : Prop :=
  ∃ m∈s.rows,m.id=r.id ∧ m.nfsPath=r.nfsPath ∧ m.drainState=r.drainState ∧ (m.retiredBy≠0 → r.retiredBy≠0)

namespace Thinned
variable {s t u : SpoolTable} {n : SpoolRow} {c : SpoolRow → Bool}

lemma refl (h : RowInv t) : Thinned t t := ⟨h,Kept.refl t,fun n hn => ⟨n,hn,rfl,rfl,rfl⟩,fun _ _ _ _ h => h⟩

lemma trans (h : Thinned s t) (h' : Thinned t u) : Thinned s u := by
  refine ⟨h'.inv,h.kept.trans h'.kept,fun n hn => ?_,fun p i k hik hs => h'.shade p i k hik (h.shade p i k hik hs)⟩
  obtain ⟨m,hm,hmi,hmp,hms⟩ := h'.origin n hn
  obtain ⟨l,hl,hli,hlp,hls⟩ := h.origin m hm
  exact ⟨l,hl,hli.trans hmi,hlp.trans hmp,hls.trans hms⟩

lemma facts (hs : RowInv s) (h : Thinned s t) : StepFacts s t := by
  refine ⟨h.inv,h.kept,fun n hn hready => .inl ?_,fun n hn hret hacc => StepFacts.shade_of hs h.shade hn hret hacc⟩
  obtain ⟨m,hm,hmi,hmp,hms⟩ := h.origin n hn
  exact ⟨m,hm,hmi,hmp,by rw [hms,hready]; nofun⟩

lemma retire (h : RowInv t) {b : ℕ} (hb : b≠0)
    (hc : ∀ r∈t.rows,r.retiredBy=0 → c r=true → r.active=false)
    (hdown : ∀ x y : SpoolRow,x.nfsPath=y.nfsPath → x.id<y.id → c y=true → c x=true) :
    Thinned t {t with rows := retire b c t.rows} := by
  refine ⟨h.retire hc,Kept.retire hb,fun n hn => ?_,fun p i k hik hs => hs.retire hik hb fun x y hx hy =>
    hdown x y (hx.trans hy.symm)⟩
  obtain ⟨x,hx,⟨_,_,rfl⟩ | ⟨_,rfl⟩⟩ := mem_retire hn
  · exact ⟨x,hx,rfl,rfl,rfl⟩
  · exact ⟨n,hx,rfl,rfl,rfl⟩

lemma retireOlder (h : RowInv t) (hn : n∈t.rows) (hret : n.retiredBy=0) :
    Thinned t {t with rows := retireOlder n t.rows} := by
  refine retire h (h.fresh n hn).1.ne' (fun r hr _ hc => ?_) fun x y hxy hlt hc => ?_
  · obtain ⟨hp,hlt⟩ := older_iff.mp hc
    exact h.older_inactive hn hret hr hp hlt
  · obtain ⟨hp,hy⟩ := older_iff.mp hc
    exact older_iff.mpr ⟨hxy.trans hp,hlt.trans hy⟩

lemma deleteRow (h : RowInv t) (hn : n∈t.rows) : Thinned t {t with rows := Metadata.deleteRow n t.rows} := by
  refine ⟨h.deleteRow hn,Kept.deleteRow (h.fresh n hn).1.ne',fun r hr => ?_,fun p i k hik hs => hs.deleteRow hik h hn⟩
  simp only [Metadata.deleteRow] at hr
  split at hr
  · obtain ⟨x,hx,⟨_,_,rfl⟩ | ⟨_,rfl⟩⟩ := mem_retire hr
    · exact ⟨x,mem_of_mem_filter hx,rfl,rfl,rfl⟩
    · exact ⟨r,mem_of_mem_filter hx,rfl,rfl,rfl⟩
  · exact ⟨r,mem_of_mem_filter hr,rfl,rfl,rfl⟩

lemma deleteOne (h : RowInv t) (id : ℕ) : Thinned t (deleteOne c t id) := by
  unfold SpoolTable.deleteOne
  split
  · exact refl h
  · rename_i old hold
    exact deleteRow h (mem_of_find?_eq_some hold)

lemma deleteMany (h : RowInv t) (ids : List ℕ) : Thinned t (ids.foldl (SpoolTable.deleteOne c) t) := by
  induction ids generalizing t with
  | nil => exact refl h
  | cons i ids ih =>
    have hone := deleteOne (c := c) h i
    exact hone.trans (ih hone.inv)

lemma stems (h : Thinned s t) (hs : RowInv s) (hn : n∈t.rows) : Stems s n := by
  obtain ⟨m,hm,hmi,hmp,hms⟩ := h.origin n hn
  obtain ⟨m',hm',hmi',hret⟩ := h.kept.rows n hn (hmi ▸ (hs.fresh m hm).2)
  obtain rfl := hs.eq_of_id hm hm' (hmi.trans hmi'.symm)
  exact ⟨m,hm,hmi,hmp,hms,hret⟩

end Thinned

/-- Before row `x` comes to `target` the histories of both names are retired, which leaves `rows`. -/
structure Cleared (t : SpoolTable) (rows : List SpoolRow) (x : SpoolRow) (target : Path) : Prop where
  thin : Thinned t { t with rows := rows }
  target : ∀ r∈rows,r.nfsPath=target → r.retiredBy≠0
  source : ∀ r∈rows,r.nfsPath=x.nfsPath → r.id<x.id → r.retiredBy≠0
  active : ∀ y∈t.rows,y.active=true → y∈rows

lemma Cleared.of_free {t : SpoolTable} {x : SpoolRow} {target : Path} (h : RowInv t) (hx : x∈t.rows)
    (hx0 : x.retiredBy=0) (hfree : ∀ r∈t.rows,r.nfsPath=target → r.active=false) :
    Cleared t (retire x.id (fun r => (r.nfsPath=x.nfsPath && r.id<x.id) || r.nfsPath=target) t.rows) x target := by
  set cond : SpoolRow → Bool := fun r => (r.nfsPath=x.nfsPath && r.id<x.id) || r.nfsPath=target
  have hcond : ∀ r,cond r=true ↔ (r.nfsPath=x.nfsPath ∧ r.id<x.id) ∨ r.nfsPath=target := fun r => by simp [cond]
  have hpos := (h.fresh x hx).1.ne'
  have hinactive : ∀ r∈t.rows,cond r=true → r.active=false := by
    intro r hr hc
    obtain ⟨hp,hlt⟩ | hp := (hcond r).mp hc
    · exact h.older_inactive hx hx0 hr hp hlt
    · exact hfree r hr hp
  refine ⟨Thinned.retire h hpos (fun r hr _ => hinactive r hr) fun a b hab hlt hb => ?_,fun r hr hp => ?_,
    fun r hr hp hlt => ?_,fun y hy hya => mem_retire_of hy fun _ hc => ?_⟩
  · exact (hcond a).mpr (((hcond b).mp hb).imp (fun hb => ⟨hab.trans hb.1,hlt.trans hb.2⟩) hab.trans)
  · exact retired_of_retire hpos hr ((hcond r).mpr (.inr hp))
  · exact retired_of_retire hpos hr ((hcond r).mpr (.inl ⟨hp,hlt⟩))
  · rw [hinactive y hy hc] at hya
    cases hya

/-- A rename under way from `s`, with the rows it has still to move. -/
structure Moved (s t : SpoolTable) (rest : List SpoolRow) : Prop where
  inv : RowInv t
  kept : Kept s t
  settled : ∀ n∈t.rows,n.drainState=.ready →
    (∃ m∈s.rows,m.id=n.id ∧ m.nfsPath=n.nfsPath ∧ m.drainState≠.writing) ∨
    ∀ r∈t.rows,r.nfsPath=n.nfsPath → r.id<n.id → r.retiredBy≠0
  shade : ∀ p i k,i<k → Shade p i k s → Shade p i k t
  pending : ∀ x∈rest,x∈t.rows ∧ x.active=true ∧ x.retiredBy=0
  distinct : (rest.map (·.id)).Nodup

namespace Moved
variable {s t t' : SpoolTable} {x y n : SpoolRow} {rest rows : List SpoolRow} {target : Path}

lemma settle (h : Moved s t rest) (hc : Cleared t rows x target) (horigin : ∀ r∈t'.rows,Stems t r ∨ r=n)
    (hn : n.nfsPath=target) (hclear : ∀ r∈t'.rows,r.nfsPath=target → r.id<n.id → r.retiredBy≠0) :
    ∀ m∈t'.rows,m.drainState=.ready → (∃ l∈s.rows,l.id=m.id ∧ l.nfsPath=m.nfsPath ∧ l.drainState≠.writing) ∨
      ∀ r∈t'.rows,r.nfsPath=m.nfsPath → r.id < m.id → r.retiredBy≠0 := by
  intro m hm hready
  obtain ⟨m₀,hm₀,hi,hp,hs,_⟩ | rfl := horigin m hm
  · obtain ⟨l,hl,hli,hlp,hls⟩ | hold := h.settled m₀ hm₀ (hs.trans hready)
    · exact .inl ⟨l,hl,hli.trans hi,hlp.trans hp,hls⟩
    refine .inr fun r hr hrp hrm => ?_
    obtain ⟨r₀,hr₀,hri,hrp₀,_,hret⟩ | rfl := horigin r hr
    · exact hret (hold r₀ hr₀ (by rw [hrp₀,hrp,hp]) (by omega))
    -- a ready row is active, and no active one was at the target
    · have hact : m₀.active=true := by simp [active,hs.trans hready]
      exact absurd (h.inv.live m₀ hm₀ hact)
        (hc.target m₀ (hc.active m₀ hm₀ hact) (by rw [hp,← hrp,hn]))
  · exact .inr fun r hr hrp => hclear r hr (hrp.trans hn)

lemma other (h : Moved s t (x::rest)) (hc : Cleared t rows x target) (hy : y∈rest) :
    y∈rows ∧ y.active=true ∧ y.retiredBy=0 ∧ y.id≠x.id := by
  obtain ⟨hyt,hya,hy0⟩ := h.pending y (mem_cons_of_mem x hy)
  refine ⟨hc.active y hyt hya,hya,hy0,fun hid => ?_⟩
  exact (nodup_cons.mp h.distinct).1 (mem_map.mpr ⟨y,hy,hid⟩)

lemma requeue (h : Moved s t (x::rest)) (hc : Cleared t rows x target) (hid : n.id=t.nextId)
    (hn : n.nfsPath=target) (hn0 : n.retiredBy=0) :
    Moved s {rows := retireOlder n (deleteRow x rows++[n]), nextId := t.nextId+1} rest := by
  obtain ⟨hxt,hxact,_⟩ := h.pending x mem_cons_self
  have hdel := Thinned.deleteRow hc.thin.inv (hc.active x hxt hxact)
  have hthin := hc.thin.trans hdel
  have htarget : ∀ r∈deleteRow x rows,r.nfsPath=target → r.retiredBy≠0 := by
    intro r hr hp
    obtain ⟨m,hm,_,hmp,_,hret⟩ := hdel.stems hc.thin.inv hr
    exact hret (hc.target m hm (hmp.trans hp))
  have hmem : ∀ r∈deleteRow x rows++[n],r∈deleteRow x rows ∨ r=n := fun r hr =>
    (mem_append.mp hr).imp_right mem_singleton.mp
  -- the trigger of the new row finds nothing to retire
  have hsame : retireOlder n (deleteRow x rows++[n])=deleteRow x rows++[n] := by
    refine (map_congr_left fun r hr => if_neg fun hcond => ?_).trans (map_id' _)
    simp only [and_eq_true,decide_eq_true_eq] at hcond
    obtain hr | rfl := hmem r hr
    · exact htarget r hr (hcond.2.1.trans hn) hcond.1
    · omega
  rw [hsame]
  have hinv := hthin.inv.insert hid hn0 fun r hr hp => by
    by_contra hact
    exact htarget r hr (hp.trans hn) (hthin.inv.live r hr (by simpa using hact))
  refine ⟨hinv,h.kept.trans (hthin.kept.trans (Kept.insert hid)),?_,fun p i k hik hs => ?_,fun y hy => ?_,
    (nodup_cons.mp h.distinct).2⟩
  · refine h.settle hc (fun r hr => ?_) hn fun r hr hp hlt => ?_
    · exact (hmem r hr).imp_left (hthin.stems h.inv)
    · obtain hr | rfl := hmem r hr
      · exact htarget r hr hp
      · exact absurd hlt (lt_irrefl _)
  · exact (hthin.shade p i k hik (h.shade p i k hik hs)).insert hid
  · obtain ⟨hyr,hya,hy0,hne⟩ := h.other hc hy
    refine ⟨mem_append_left _ ?_,hya,hy0⟩
    have hyf : y∈rows.filter (·.id≠x.id) := mem_filter.mpr ⟨hyr,by simpa using hne⟩
    unfold deleteRow
    split
    · refine mem_retire_of hyf fun _ hcond => ?_
      exact hc.source y hyr (older_iff.mp hcond).1 (older_iff.mp hcond).2 hy0
    · exact hyf

lemma relabel (h : Moved s t (x::rest)) (hc : Cleared t rows x target) :
    Moved s { t with rows := updateWhere (·.id = x.id) (fun r => { r with nfsPath := target, waitProject := "" }) rows }
      rest := by
  obtain ⟨hxt,hxact,_⟩ := h.pending x mem_cons_self
  have hx := hc.active x hxt hxact
  have hinv := hc.thin.inv
  have hmem : ∀ r ∈ updateWhere (·.id = x.id) (fun r => { r with nfsPath := target, waitProject := "" }) rows,
      r ∈ rows ∨ r = { x with nfsPath := target, waitProject := "" } := by
    intro r hr
    obtain ⟨y,hy,⟨hid,rfl⟩ | ⟨_,rfl⟩⟩ := mem_updateWhere_cases hr
    · obtain rfl := hinv.eq_of_id hy hx (of_decide_eq_true hid)
      exact .inr rfl
    · exact .inl hy
  refine ⟨hinv.move (f := fun r => { r with nfsPath := target, waitProject := "" }) hc.target fun r => ⟨rfl,rfl,rfl,rfl⟩,
    h.kept.trans (hc.thin.kept.trans (Kept.update (fun _ => rfl) fun _ h => h)),?_,fun p i k hik hs => ?_,
    fun y hy => ?_,(nodup_cons.mp h.distinct).2⟩
  · refine h.settle hc (fun r hr => (hmem r hr).imp_left (hc.thin.stems h.inv)) rfl fun r hr hp hlt => ?_
    obtain hr | rfl := hmem r hr
    · exact hc.target r hr hp
    · exact absurd hlt (lt_irrefl _)
  · exact (hc.thin.shade p i k hik (h.shade p i k hik hs)).move hik hinv hx hxact hc.source fun r => ⟨rfl,rfl⟩
  · obtain ⟨hyr,hya,hy0,hne⟩ := h.other hc hy
    exact ⟨mem_updateWhere_of_not hyr (by simpa using hne),hya,hy0⟩

lemma step {oldPath newPath : Path} (h : Moved s t (x::rest))
    (hmove : moveRow oldPath newPath t x=some t') : Moved s t' rest := by
  obtain ⟨hx,_,hx0⟩ := h.pending x mem_cons_self
  simp only [moveRow] at hmove
  split at hmove
  · cases hmove
  rename_i hdest
  have hfree : ∀ r∈t.rows,r.nfsPath=newPath++x.nfsPath.drop oldPath.length → r.active=false := by
    intro r hr hp
    by_contra hact
    have hact' : r.active=true := by simpa using hact
    exact hdest (List.any_eq_true.mpr ⟨r,hr,by simp [hp,hact',h.inv.live r hr hact']⟩)
  have hc := Cleared.of_free h.inv hx hx0 hfree
  split at hmove
  · cases hmove
    exact h.requeue hc rfl rfl hx0
  · cases hmove
    exact h.relabel hc

lemma steps {oldPath newPath : Path} (h : Moved s t rest)
    (hmove : rest.foldlM (moveRow oldPath newPath) t=some t') : Moved s t' [] := by
  induction rest generalizing t with
  | nil =>
    cases hmove
    exact h
  | cons x rest ih =>
    obtain ⟨u,hu,hrest⟩ := Option.bind_eq_some_iff.mp hmove
    exact ih (h.step hu) hrest

end Moved

namespace StepFacts
variable {s t : SpoolTable} {c : SpoolRow → Bool} {f : SpoolRow → SpoolRow}

lemma quiet (h : RowInv t) (hf : Steady f) (hact : ∀ r,c r=true → (f r).active=true → r.active=true)
    (hready : ∀ r,c r=true → (f r).drainState=.ready → r.drainState≠.writing) : StepFacts t (t.update c f) :=
  update h hf (fun r _ hc ha => .inl (hact r hc ha)) fun r _ => hready r

lemma ended (h : RowInv t) (hf : Steady f) (hoff : ∀ r,(f r).active=false) : StepFacts t (t.update c f) := by
  refine quiet h hf (fun r _ ha => ?_) fun r _ hr => ?_
  · rw [hoff r] at ha
    cases ha
  · have := hoff r
    simp [active,hr] at this

lemma sameState (h : RowInv t) (hf : Steady f)
    (hstate : ∀ r,(f r).drainState=r.drainState) : StepFacts t (t.update c f) := by
  refine quiet h hf (fun r _ ha => ?_) fun r _ hr => ?_
  · simpa only [active,hstate r] using ha
  · rw [← hstate r,hr]
    nofun

lemma requeued (h : RowInv t) (hf : Steady f) (hc : ∀ r,c r=true → r.drainState=.draining) : StepFacts t (t.update c f) :=
  quiet h hf (fun r hr _ => by simp [active,hc r hr]) fun r hr _ => by simp [hc r hr]

lemma insertWithBase (h : RowInv t) (path : Path) (file : String) (now : ℤ) :
    StepFacts t (t.insertWithBase path file now) := by
  unfold SpoolTable.insertWithBase
  split
  · exact refl h
  rename_i hactive
  split
  · exact refl h
  have hfree : ∀ r∈t.rows,r.nfsPath=path → r.active=false := by
    intro r hr hp
    by_contra ha
    have ha' : r.active=true := by simpa using ha
    exact hactive (List.any_eq_true.mpr ⟨r,hr,by simp [hp,ha',h.live r hr ha']⟩)
  refine ⟨h.insert rfl rfl hfree,Kept.insert rfl,fun n hn hready => .inl ?_,fun n hn hret _ => .inl
    ⟨n,mem_append_left _ hn,rfl,rfl,hret⟩⟩
  obtain hn | rfl := (mem_append.mp hn).imp_right mem_singleton.mp
  · exact ⟨n,hn,rfl,rfl,by rw [hready]; nofun⟩
  · cases hready

lemma markReady (h : RowInv t) (id size : ℕ) (sha : List UInt8) : StepFacts t (t.markReady id size sha) := by
  unfold SpoolTable.markReady
  split
  · exact refl h
  rename_i old hfind
  have hold := mem_of_find?_eq_some hfind
  have hprop := find?_some hfind
  simp only [and_eq_true,decide_eq_true_eq] at hprop
  have hret := h.live old hold (by simp [active,hprop.2])
  set c : SpoolRow → Bool := fun r => r.id=id && r.drainState=.writing with hc
  set f : SpoolRow → SpoolRow := fun r => {r with drainState := .ready, size := size, sha256 := sha} with hf
  have hcond : ∀ r,c r=true → r.id=id ∧ r.drainState=.writing := fun r hr => by simpa [hc] using hr
  have hsteady : Steady f := fun r => ⟨rfl,rfl,rfl⟩
  have hinv : RowInv (t.update c f) :=
    h.update hsteady fun r _ hr _ => .inl (by simp [active,(hcond r hr).2])
  have hnew : f old∈(t.update c f).rows := mem_updateWhere.mpr ⟨old,hold,if_pos (by simp [hc,hprop])⟩
  have hthin := Thinned.retireOlder hinv hnew hret
  have hkept : Kept t (t.update c f) := Kept.update (fun _ => rfl) fun _ h => h
  show StepFacts t {t with rows := if old.retiredBy=0 then retireOlder old (t.update c f).rows else (t.update c f).rows}
  rw [if_pos hret]
  refine ⟨hthin.inv,hkept.trans hthin.kept,fun n hn hready => ?_,fun n hn hn0 hacc =>
    shade_of h (fun p i k hik hs => hthin.shade p i k hik (hs.update hsteady fun r _ _ => rfl)) hn hn0 hacc⟩
  obtain ⟨m,hm,hmi,hmp,hms⟩ := hthin.origin n hn
  obtain ⟨x,hx,⟨hx',rfl⟩ | ⟨_,rfl⟩⟩ := mem_updateWhere_cases hm
  · -- the finalized row itself: the trigger has run over the older ones
    obtain rfl := h.eq_of_id hx hold ((hcond x hx').1.trans hprop.1.symm)
    refine .inr fun r hr hp hlt => retired_of_retire (h.fresh x hx).1.ne' hr (older_iff.mpr ⟨hp.trans hmp.symm,?_⟩)
    exact hlt.trans_eq hmi.symm
  · exact .inl ⟨m,hx,hmi,hmp,by rw [hms,hready]; nofun⟩

lemma foldl_max_mem (l : List ℕ) (a : ℕ) : l.foldl max a=a ∨ l.foldl max a∈l := by
  induction l generalizing a with
  | nil => exact .inl rfl
  | cons b l ih =>
    obtain hb | hb := ih (max a b)
    · obtain hab | hab := max_choice a b
      · exact .inl (hb.trans hab)
      · exact .inr (mem_cons.mpr (.inl (hb.trans hab)))
    · exact .inr (mem_cons_of_mem b hb)

lemma deleteActiveByPath (h : RowInv t) (path : Path) : StepFacts t (t.deleteActiveByPath path) := by
  unfold SpoolTable.deleteActiveByPath
  split
  · exact refl h
  set ids := (t.rows.filter (fun r => r.nfsPath=path && r.active)).map (·.id) with hids
  set last := ids.foldl max 0 with hlast
  show StepFacts t (ids.foldl (deleteOne fun _ => true)
    {t with rows := retire last (fun r => r.nfsPath=path && r.id<last) t.rows})
  obtain hzero | hmem := foldl_max_mem ids 0
  · have hsame : retire last (fun r => r.nfsPath=path && r.id<last) t.rows=t.rows := by
      rw [← hlast] at hzero
      simp [retire,updateWhere,hzero]
    rw [hsame]
    exact (Thinned.deleteMany h ids).facts h
  · obtain ⟨top,htop,htopid⟩ := mem_map.mp hmem
    obtain ⟨htop,hprop⟩ := mem_filter.mp htop
    simp only [and_eq_true,decide_eq_true_eq] at hprop
    have hthin := Thinned.retireOlder h htop (h.live top htop hprop.2)
    simp only [retireOlder,hprop.1,htopid] at hthin
    exact (hthin.trans (Thinned.deleteMany hthin.inv ids)).facts h

lemma moved_start (h : RowInv t) {oldPath : Path} {order : List SpoolRow} (horder : order.Perm (t.moving oldPath)) :
    Moved t t order := by
  have hfacts := refl h
  refine ⟨h,hfacts.kept,hfacts.settled,fun _ _ _ _ hs => hs,fun x hx => ?_,?_⟩
  · obtain ⟨hx,hprop⟩ := mem_filter.mp (horder.subset hx)
    simp only [and_eq_true,decide_eq_true_eq] at hprop
    exact ⟨hx,hprop.1.1,hprop.1.2⟩
  · exact (horder.map _).nodup_iff.mpr (h.ids.sublist (filter_sublist.map _))

lemma migrateActivePaths (h : RowInv t) {oldPath newPath : Path} {order : List SpoolRow}
    (horder : order.Perm (t.moving oldPath)) : StepFacts t (t.migrateActivePaths oldPath newPath order) := by
  unfold SpoolTable.migrateActivePaths
  split
  · exact refl h
  split
  · exact refl h
  cases hmove : order.foldlM (moveRow oldPath newPath) t with
  | none => exact refl h
  | some u =>
    have hend := (moved_start h horder).steps hmove
    exact ⟨hend.inv,hend.kept,hend.settled,fun n hn hret hacc => shade_of h hend.shade hn hret hacc⟩

lemma step (h : RowInv s) {op : RowOp} (hstep : rowStep s op=some t) : StepFacts s t := by
  cases op with
  | insertWithBase path file now =>
    cases hstep
    exact insertWithBase h path file now
  | markReady id size sha =>
    cases hstep
    exact markReady h id size sha
  | reopenReady id =>
    cases hstep
    refine quiet h (fun _ => ⟨rfl,rfl,rfl⟩) (fun r hc _ => ?_) (fun r _ hr => by cases hr)
    simp only [and_eq_true,decide_eq_true_eq] at hc
    simp [active,hc.1.1.2]
  | markDraining id noProjectLease now =>
    cases hstep
    refine quiet h (fun _ => ⟨rfl,rfl,rfl⟩) (fun r hc _ => ?_) (fun r _ hr => by cases hr)
    simp only [claimable,and_eq_true,decide_eq_true_eq] at hc
    simp [active,hc.2.1.1.1.1.1.1.1]
  | markDone id | batchMarkDone id path file size | markFailed id | failClaimedDrain id path file hold
  | holdUnqualified id path file reason =>
    cases hstep
    exact ended h (fun _ => ⟨rfl,rfl,rfl⟩) fun _ => rfl
  | requeueAfter id since due | deferReady id due =>
    cases hstep
    exact requeued h (fun _ => ⟨rfl,rfl,rfl⟩) fun r hc => by simp_all
  | holdForProject id project =>
    simp only [rowStep,SpoolTable.holdForProject,Option.some.injEq] at hstep
    split at hstep <;> subst hstep
    · exact refl h
    · exact requeued h (fun _ => ⟨rfl,rfl,rfl⟩) fun r hc => by simp_all
  | releaseProjectHold project | setPunchedEnd id stop =>
    cases hstep
    exact sameState h (fun _ => ⟨rfl,rfl,rfl⟩) fun _ => rfl
  | resetForRetry id =>
    cases hstep
    refine update h (fun _ => ⟨rfl,rfl,rfl⟩) (fun r _ hc _ => .inr ?_) (fun r _ hc _ => ?_) <;>
      simp only [and_eq_true,decide_eq_true_eq,not_eq_true'] at hc
    · exact ⟨hc.1.2,hc.2⟩
    · rw [hc.1.1.1.2]
      nofun
  | resumeFailedPaused id =>
    cases hstep
    refine update h (fun _ => ⟨rfl,rfl,rfl⟩) (fun r _ hc _ => .inr ?_) (fun r _ hc _ => ?_) <;>
      simp only [and_eq_true,decide_eq_true_eq,not_eq_true'] at hc
    · exact ⟨hc.1.2,hc.2⟩
    · rw [hc.1.1.1.1.2]
      nofun
  | delete id =>
    cases hstep
    exact (Thinned.deleteOne h id).facts h
  | deleteDone old =>
    cases hstep
    exact (Thinned.deleteMany h old).facts h
  | deleteActiveByPath path =>
    cases hstep
    exact deleteActiveByPath h path
  | migrateActivePaths oldPath newPath order =>
    simp only [rowStep] at hstep
    split_ifs at hstep with hperm
    cases hstep
    exact migrateActivePaths h (isPerm_iff.mp hperm)

end StepFacts

variable {t : SpoolTable}

lemma rowInv_of_run {s : SpoolTable} (h : RowInv s) {ops : List RowOp} (hrun : run rowStep s ops=some t) : RowInv t :=
  run_invariant (fun _ _ _ h hstep => (StepFacts.step h hstep).inv) h hrun

lemma rowInv_init : RowInv {} := ⟨nodup_nil,nofun,Nat.one_pos,nofun,nofun⟩

/-- From here on no row of this id is claimed for draining, nor listed. -/
def NeverDrains (t : SpoolTable) (i : ℕ) : Prop :=
  ∀ ops u,run rowStep t ops=some u → ∀ r∈u.rows,r.id=i → ∀ now noProjectLease,
    claimable u.rows now noProjectLease r=false ∧ ∀ limit,r ∉ u.listReady limit noProjectLease now

lemma claimable_of_mem_listReady {limit : ℕ} {includeWaiting : Bool} {now : ℤ} {r : SpoolRow}
    (h : r∈t.listReady limit includeWaiting now) : r∈t.rows ∧ claimable t.rows now includeWaiting r=true :=
  mem_filter.mp (mem_mergeSort.mp (mem_of_mem_take h))

lemma Retired.neverDrains {i : ℕ} (h : RowInv t) (hret : Retired t i) : NeverDrains t i := by
  intro ops u hrun r hr hid now noProjectLease
  have hlater : RowInv u ∧ Retired u i :=
    run_invariant (I := fun v => RowInv v ∧ Retired v i)
      (fun v op w hv hstep => ⟨(StepFacts.step hv.1 hstep).inv,hv.2.keep (StepFacts.step hv.1 hstep).kept⟩) ⟨h,hret⟩ hrun
  have hno : claimable u.rows now noProjectLease r=false := by
    simp [claimable,hlater.2.rows r hr hid]
  refine ⟨hno,fun limit hmem => ?_⟩
  rw [(claimable_of_mem_listReady hmem).2] at hno
  cases hno

/-- In every run: one active row to a path; a row that is finalized, or is ready where it was moved to,
leaves no older row of its path that can ever be drained; nor does an accepted row that is deleted,
collected or renamed away; and what is claimed is the newest row of its path that is not retired. -/
theorem superseded_saves_stay_retired {ops : List RowOp} {s : SpoolTable} (hrun : run rowStep {} ops = some s) :
    (∀ r ∈ s.rows,∀ r' ∈ s.rows,r.nfsPath = r'.nfsPath → r.active = true → r.retiredBy = 0 → r'.active = true →
      r'.retiredBy = 0 → r = r') ∧ (∀ r ∈ s.rows,∀ now noProjectLease,claimable s.rows now noProjectLease r = true →
      ∀ n ∈ s.rows,n.nfsPath = r.nfsPath → n.retiredBy = 0 → n.id ≤ r.id) ∧ ∀ op t,rowStep s op = some t →
      (∀ n ∈ t.rows,n.drainState = .ready →
        (∀ m ∈ s.rows,m.id = n.id → m.nfsPath = n.nfsPath → m.drainState = .writing) →
        ∀ r ∈ t.rows,r.nfsPath = n.nfsPath → r.id < n.id → NeverDrains t r.id) ∧
      ∀ n ∈ s.rows,n.retiredBy = 0 → n.accepted = true →
        (∀ n' ∈ t.rows,n'.id = n.id → n'.nfsPath = n.nfsPath → n'.retiredBy ≠ 0) →
        ∀ r ∈ s.rows,r.nfsPath = n.nfsPath → r.id < n.id → NeverDrains t r.id := by
  have h := rowInv_of_run rowInv_init hrun
  refine ⟨fun r hr r' hr' hpath ha h0 ha' h0' => ?_,fun r hr now noLease hclaim n hn hpath h0 => ?_,
    fun op t hstep => ⟨fun n hn hready hnew r hr hpath hlt => ?_,fun n hn h0 hacc hgone r hr hpath hlt => ?_⟩⟩
  · exact h.eq_of_id hr hr' (le_antisymm (h.top r' hr' ha' r hr hpath h0) (h.top r hr ha r' hr' hpath.symm h0'))
  · simp only [claimable,and_eq_true,not_eq_true'] at hclaim
    exact not_newerExists hclaim.2 hn hpath h0
  · have hfacts := StepFacts.step h hstep
    obtain ⟨m,hm,hid,hp,hw⟩ | hret := hfacts.settled n hn hready
    · exact absurd (hnew m hm hid hp) hw
    · refine Retired.neverDrains hfacts.inv ⟨(hfacts.inv.fresh r hr).2,fun x hx hid => ?_⟩
      rw [hfacts.inv.eq_of_id hx hr hid]
      exact hret r hr hpath hlt
  · have hfacts := StepFacts.step h hstep
    obtain ⟨n',hn',hid,hp,hr0⟩ | hret := hfacts.shade n hn h0 hacc
    · exact absurd hr0 (hgone n' hn' hid hp)
    · exact (hret r hr hpath hlt).neverDrains hfacts.inv

/-- Row ids are not given out twice and a retirement is not taken back: after whatever is done to the table, a
row with an id given out before is the row of then, retired if it was. -/
theorem row_ids_never_reused (r : Reached rowStep {}) (r' : Reached rowStep r.state) : Kept r.state r'.state := by
  have h := rowInv_of_run rowInv_init r.run
  exact (run_invariant (I := fun t => RowInv t ∧ Kept r.state t) (fun t op u ht hstep =>
    ⟨(StepFacts.step ht.1 hstep).inv,ht.2.trans (StepFacts.step ht.1 hstep).kept⟩) ⟨h,.refl _⟩ r'.run).2

def pathP : Path := ['p']

def pathQ : Path := ['q']

def secondSave : List RowOp :=
  [.insertWithBase pathP "1" 0,.markFailed 1,.insertWithBase pathP "2" 0,.markReady 2 5 (List.replicate 32 0)]

def stateAt (t : SpoolTable) : List (ℕ × Path × DrainState × ℕ) :=
  t.rows.map (fun r => (r.id,r.nfsPath,r.drainState,r.retiredBy))

/-- The first save is not drained after the second is deleted. -/
theorem deleted_successor_retires : ∃ s t,run rowStep {} secondSave = some s ∧ rowStep s (.delete 2) = some t ∧
    stateAt t = [(1,pathP,.failed,2)] ∧ NeverDrains t 1 := by
  obtain ⟨s,hs,hobs⟩ := Option.map_eq_some_iff.mp (show (run rowStep {} secondSave).map stateAt =
    some [(1,pathP,.failed,2),(2,pathP,.ready,0)] by decide +kernel)
  obtain ⟨t,ht,hobst⟩ := Option.map_eq_some_iff.mp (show (run rowStep {} (secondSave++[.delete 2])).map stateAt =
    some [(1,pathP,.failed,2)] by decide +kernel)
  have hstep : rowStep s (.delete 2) = some (s.delete 2) := rfl
  have htop : run rowStep {} (secondSave++[.delete 2]) = some (s.delete 2) :=
    run_append hs (run_cons_eq_some.mpr ⟨_,hstep,rfl⟩)
  obtain rfl : s.delete 2=t := Option.some.inj (htop.symm.trans ht)
  refine ⟨s,_,hs,hstep,hobst,?_⟩
  obtain ⟨r,hr,hr1⟩ := mem_map.mp (hobs ▸ mem_cons_self : (1,pathP,DrainState.failed,2) ∈ stateAt s)
  obtain ⟨n,hn,hn2⟩ := mem_map.mp (hobs ▸ mem_cons_of_mem _ mem_cons_self :
    (2,pathP,DrainState.ready,0) ∈ stateAt s)
  simp only [Prod.mk.injEq] at hr1 hn2
  rw [← hr1.1]
  refine ((superseded_saves_stay_retired hs).2.2 _ _ hstep).2 n hn hn2.2.2.2 (by simp [accepted,hn2.2.2.1])
    (fun n' hn' hid => ?_) r hr (hr1.2.1.trans hn2.2.1.symm) (by omega)
  have hmem : (n'.id,n'.nfsPath,n'.drainState,n'.retiredBy) ∈ stateAt (s.delete 2) := mem_map.mpr ⟨n',hn',rfl⟩
  rw [hobst] at hmem
  simp only [mem_singleton,Prod.mk.injEq] at hmem
  omega

/-- An older save renamed onto the path of a drained one is claimed. So is a failed one after a newer
row, never finalized, was retried and deleted. -/
theorem older_save_claimed_again :
    (run rowStep {} [.insertWithBase pathQ "1" 0,.markReady 1 5 [],.insertWithBase pathP "2" 0,.markReady 2 5 []]).map
      stateAt = some [(1,pathQ,.ready,0),(2,pathP,.ready,0)] ∧
    (run rowStep {} [.insertWithBase pathQ "1" 0,.markReady 1 5 [],.insertWithBase pathP "2" 0,.markReady 2 5 [],
      .markDraining 2 false 0,.markDone 2,.migrateActivePaths pathQ pathP
        [{ id := 1, nfsPath := pathQ, spoolFile := "1", size := 5, drainState := .ready }],.markDraining 1 false 0]).map
      stateAt = some [(1,pathP,.draining,0),(2,pathP,.done,1)] ∧
    (run rowStep {} [.insertWithBase pathP "1" 0,.markFailed 1,.insertWithBase pathP "2" 0,.markFailed 2,
      .resetForRetry 2]).map stateAt = some [(1,pathP,.failed,0),(2,pathP,.ready,0)] ∧
    (run rowStep {} [.insertWithBase pathP "1" 0,.markFailed 1,.insertWithBase pathP "2" 0,.markFailed 2,
      .resetForRetry 2,.markFailed 2,.delete 2,.resetForRetry 1,.markDraining 1 false 0]).map stateAt =
      some [(1,pathP,.draining,0)] := by
  refine ⟨?_,?_,?_,?_⟩ <;> decide +kernel

end JuiceMount.Metadata
