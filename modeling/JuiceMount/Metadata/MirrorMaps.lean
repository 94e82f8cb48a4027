import JuiceMount.Metadata.Mirror

/-! What each operation of the mirror does to the entry of a path, of an inode and of a directory's
child, as equations for a lookup after it. -/
namespace JuiceMount.Metadata.Mirror
open JuiceMount.Lists GoMap Option

namespace Store
variable {s : Store} {e : Entry} {p d : TreePath} {n : ℕ}

def childAt (s : Store) (d p : TreePath) : Option Entry := (s.childrenIdx.getD d []).get? p

@[simp] lemma childAt_add (s : Store) (e : Entry) (d p : TreePath) :
    (s.addToChildrenIdx e).childAt d p=if d=parentPath e.path ∧ p=e.path then some e else s.childAt d p := by
  simp only [childAt,addToChildrenIdx,getD_set]
  by_cases hd : d=parentPath e.path
  · subst d
    by_cases hp : p=e.path <;> simp [get?_set,hp]
  · simp [hd]

lemma erase_isEmpty {m : GoMap TreePath Entry} {k x : TreePath} (h : (m.erase k).isEmpty=true) :
    (m.erase k).get? x=none := by
  rw [List.isEmpty_iff.mp h]
  rfl

@[simp] lemma childAt_remove (s : Store) (e : Entry) (d p : TreePath) :
    (s.removeFromChildrenIdx e).childAt d p=if d=parentPath e.path ∧ p=e.path then none else s.childAt d p := by
  have herase : ∀ children : GoMap TreePath Entry,(children.erase e.path).get? p =
      if p=e.path then none else children.get? p := by
    intro children
    split
    · rename_i hp
      rw [hp,get?_erase_self]
    · rename_i hp
      exact get?_erase_ne hp
  unfold removeFromChildrenIdx
  cases hget : s.childrenIdx.get? (parentPath e.path) with
  | none =>
    by_cases hd : d=parentPath e.path ∧ p=e.path
    · simp [childAt,GoMap.getD,hd.1,hget]
    · simp [hd]
  | some children =>
    by_cases hd : d=parentPath e.path
    · subst d
      have hold : s.childAt (parentPath e.path) p=children.get? p := by simp [childAt,GoMap.getD,hget]
      simp only [hold,true_and,← herase]
      split
      · rename_i hempty
        simp [childAt,GoMap.getD,erase_isEmpty hempty]
      · simp [childAt,GoMap.getD]
    · rw [if_neg fun h => hd h.1]
      simp only
      split <;> simp [childAt,GoMap.getD,get?_erase_ne hd,get?_set_ne hd]

section Frames

@[simp] lemma addToChildrenIdx_pathCache (s : Store) (e : Entry) : (s.addToChildrenIdx e).pathCache=s.pathCache := rfl

@[simp] lemma addToChildrenIdx_inodeCache (s : Store) (e : Entry) : (s.addToChildrenIdx e).inodeCache=s.inodeCache := rfl

lemma removeFromChildrenIdx_eq (s : Store) (e : Entry) :
    s.removeFromChildrenIdx e = {s with childrenIdx := (s.removeFromChildrenIdx e).childrenIdx} := by
  unfold removeFromChildrenIdx
  split
  · rfl
  · split <;> rfl

@[simp] lemma removeFromChildrenIdx_pathCache (s : Store) (e : Entry) :
    (s.removeFromChildrenIdx e).pathCache=s.pathCache := by
  rw [removeFromChildrenIdx_eq]

@[simp] lemma removeFromChildrenIdx_inodeCache (s : Store) (e : Entry) :
    (s.removeFromChildrenIdx e).inodeCache=s.inodeCache := by
  rw [removeFromChildrenIdx_eq]

def durable (s : Store) : GoMap TreePath Row × ℕ × ℕ := (s.entries,s.epoch,s.nextIncarnation)

@[simp] lemma removeFromChildrenIdx_durable (s : Store) (e : Entry) : (s.removeFromChildrenIdx e).durable=s.durable := by
  rw [removeFromChildrenIdx_eq]
  rfl

@[simp] lemma removeFromChildrenIdx_nextCacheIdentity (s : Store) (e : Entry) :
    (s.removeFromChildrenIdx e).nextCacheIdentity=s.nextCacheIdentity := by
  rw [removeFromChildrenIdx_eq]

@[simp] lemma removeFromChildrenIdx_cacheGeneration (s : Store) (e : Entry) :
    (s.removeFromChildrenIdx e).cacheGeneration=s.cacheGeneration := by
  rw [removeFromChildrenIdx_eq]

end Frames

def marked (s : Store) (e : Entry) : Entry := { e with cacheIdentity := s.nextCacheIdentity+1 }

/-- The inode that a publication leads to the new owner of its path. -/
def redirected (s : Store) (e : Entry) : Option ℕ :=
  match s.pathCache.get? e.path with
  | none => none
  | some old =>
    if old.inode≠e.inode && (s.inodeCache.get? old.inode).any (·.cacheIdentity=old.cacheIdentity) then some old.inode
    else none

def evicted (s : Store) (e : Entry) : Option TreePath :=
  match s.inodeCache.get? e.inode with
  | none => none
  | some prev => if prev.path=e.path then none else some prev.path

lemma displace_pathCache (s : Store) (e : Entry) : (s.displace e).pathCache=s.pathCache := by
  unfold displace evictPathOrphan
  split
  · rfl
  · split
    · simp
    · split
      · simp
      · split <;> simp

lemma displace_inodeCache (s : Store) (e : Entry) (n : ℕ) :
    (s.displace e).inodeCache.get? n=if s.redirected e=some n then some e else s.inodeCache.get? n := by
  unfold displace redirected
  cases s.pathCache.get? e.path with
  | none => simp
  | some old =>
    have hcache := removeFromChildrenIdx_inodeCache s old
    simp only
    generalize s.removeFromChildrenIdx old=t at hcache ⊢
    unfold evictPathOrphan
    rw [← hcache]
    by_cases hino : old.inode=e.inode
    · simp [hino]
    obtain hcur | ⟨cur,hcur⟩ := eq_none_or_eq_some (t.inodeCache.get? old.inode)
    · simp [hino,hcur]
    · by_cases hid : cur.cacheIdentity=old.cacheIdentity
      · by_cases hn : n=old.inode
        · simp [hino,hcur,hid,hn]
        · simp [hino,hcur,hid,get?_set_ne hn,Ne.symm hn]
      · simp [hino,hcur,hid]

lemma displace_childAt (s : Store) (e : Entry) (d p : TreePath)
    (h : ∀ old,s.pathCache.get? e.path=some old → old.path=e.path) : (s.displace e).childAt d p =
      if d=parentPath e.path ∧ p=e.path ∧ (s.pathCache.get? e.path).isSome then none else s.childAt d p := by
  unfold displace
  cases hold : s.pathCache.get? e.path with
  | none => simp
  | some old =>
    have hframe : ∀ t : Store,(t.evictPathOrphan old e).childAt d p=t.childAt d p := by
      intro t
      unfold evictPathOrphan
      split
      · rfl
      · split
        · rfl
        · split <;> rfl
    simp only [hframe,childAt_remove,h old hold]
    simp

lemma displace_durable (s : Store) (e : Entry) : (s.displace e).durable=s.durable := by
  unfold displace evictPathOrphan
  split
  · rfl
  split
  · simp
  · split
    · simp
    · split
      · exact removeFromChildrenIdx_durable s _
      · simp

lemma evicted_eq_some (h : s.evicted e=some p) :
    ∃ prev,s.inodeCache.get? e.inode=some prev ∧ prev.path=p ∧ p≠e.path := by
  unfold evicted at h
  split at h
  · cases h
  · rename_i prev hprev
    split_ifs at h
    · rename_i hne
      cases h
      exact ⟨prev,hprev,rfl,hne⟩

lemma evictInodeOrphan_pathCache (s : Store) (e : Entry) (p : TreePath) :
    (s.evictInodeOrphan e).pathCache.get? p=if s.evicted e=some p then none else s.pathCache.get? p := by
  unfold evictInodeOrphan evicted
  cases s.inodeCache.get? e.inode with
  | none => simp
  | some prev =>
    by_cases hpath : prev.path=e.path
    · simp [hpath]
    · by_cases hp : p=prev.path
      · simp [hpath,hp]
      · simp [hpath,get?_erase_ne hp,Ne.symm hp]

lemma evictInodeOrphan_inodeCache (s : Store) (e : Entry) : (s.evictInodeOrphan e).inodeCache=s.inodeCache := by
  unfold evictInodeOrphan
  split
  · rfl
  · split <;> simp

lemma evictInodeOrphan_childAt (s : Store) (e : Entry) (d p : TreePath) :
    (s.evictInodeOrphan e).childAt d p=if d=parentPath p ∧ s.evicted e=some p then none else s.childAt d p := by
  unfold evictInodeOrphan evicted
  cases s.inodeCache.get? e.inode with
  | none => simp
  | some prev =>
    by_cases hpath : prev.path=e.path
    · simp [hpath]
    · have hframe : childAt {s.removeFromChildrenIdx prev with pathCache := s.pathCache.erase prev.path} d p =
          (s.removeFromChildrenIdx prev).childAt d p := rfl
      simp only [hpath,if_false,hframe,childAt_remove,Option.some.injEq]
      refine if_congr ⟨fun h => ⟨h.2 ▸ h.1,h.2.symm⟩,fun h => ⟨h.2 ▸ h.1,h.2.symm⟩⟩ rfl rfl

lemma evictInodeOrphan_durable (s : Store) (e : Entry) : (s.evictInodeOrphan e).durable=s.durable := by
  unfold evictInodeOrphan
  split
  · rfl
  · split
    · rfl
    · exact removeFromChildrenIdx_durable s _

section Publish
variable (s : Store) (e : Entry)


lemma redirected_ne (h : s.redirected e=some n) : n≠e.inode := by
  unfold redirected at h
  split at h
  · cases h
  · split_ifs at h with hcond
    cases h
    simp only [Bool.and_eq_true,decide_eq_true_eq] at hcond
    exact hcond.1

def numbered (s : Store) : Store := { s with nextCacheIdentity := s.nextCacheIdentity+1 }

lemma publishEntry_eq :
    s.publishEntry e=((s.numbered.displace (s.marked e)).evictInodeOrphan (s.marked e)).install (s.marked e) := rfl

lemma publishEntry_evicted : (s.numbered.displace (s.marked e)).evicted (s.marked e)=s.evicted e := by
  have hino : (s.numbered.displace (s.marked e)).inodeCache.get? (s.marked e).inode=s.inodeCache.get? e.inode := by
    rw [displace_inodeCache,if_neg fun h => redirected_ne _ _ h rfl]
    rfl
  unfold evicted
  rw [hino]
  rfl

lemma publishEntry_pathCache (p : TreePath) : (s.publishEntry e).pathCache.get? p =
    if p=e.path then some (s.marked e) else if s.evicted e=some p then none else s.pathCache.get? p := by
  rw [publishEntry_eq,install,addToChildrenIdx_pathCache,get?_set,evictInodeOrphan_pathCache,displace_pathCache,
    publishEntry_evicted]
  rfl

lemma publishEntry_inodeCache (n : ℕ) : (s.publishEntry e).inodeCache.get? n =
    if n=e.inode ∨ s.redirected e=some n then some (s.marked e) else s.inodeCache.get? n := by
  rw [publishEntry_eq,install,addToChildrenIdx_inodeCache,get?_set,evictInodeOrphan_inodeCache,displace_inodeCache]
  show (if n=e.inode then _ else if s.redirected e=some n then _ else s.inodeCache.get? n)=_
  by_cases hn : n=e.inode <;> simp [hn]

lemma publishEntry_childAt (h : ∀ old,s.pathCache.get? e.path=some old → old.path=e.path) (d p : TreePath) :
    (s.publishEntry e).childAt d p=if d=parentPath p ∧ p=e.path then some (s.marked e)
      else if d=parentPath p ∧ s.evicted e=some p then none else s.childAt d p := by
  rw [publishEntry_eq,install,childAt_add]
  show (if _ then _ else childAt (evictInodeOrphan _ _) d p)=_
  rw [evictInodeOrphan_childAt,publishEntry_evicted,displace_childAt s.numbered (s.marked e) d p h]
  show (if d=parentPath e.path ∧ p=e.path then _ else if _ then _ else
    if d=parentPath e.path ∧ p=e.path ∧ _ then _ else s.childAt d p)=_
  by_cases hp : p=e.path
  · subst p
    by_cases hd : d=parentPath e.path <;> simp [hd]
  · simp [hp]

lemma publishEntry_durable : (s.publishEntry e).durable=s.durable := by
  rw [publishEntry_eq]
  exact (evictInodeOrphan_durable _ _).trans (displace_durable _ _)

lemma evictInodeOrphan_nextCacheIdentity : (s.evictInodeOrphan e).nextCacheIdentity=s.nextCacheIdentity := by
  unfold evictInodeOrphan
  split
  · rfl
  · split <;> simp

lemma displace_nextCacheIdentity : (s.displace e).nextCacheIdentity=s.nextCacheIdentity := by
  unfold displace evictPathOrphan
  split
  · rfl
  · split
    · simp
    · split
      · simp
      · split <;> simp

lemma publishEntry_nextCacheIdentity : (s.publishEntry e).nextCacheIdentity=s.nextCacheIdentity+1 := by
  rw [publishEntry_eq]
  exact (evictInodeOrphan_nextCacheIdentity _ _).trans (displace_nextCacheIdentity _ _)

end Publish

section Remove
variable (s : Store) (p : TreePath)

lemma removeCached_pathCache (q : TreePath) : (s.removeCached p).pathCache.get? q=if q=p then none else s.pathCache.get? q := by
  unfold removeCached
  obtain hget | ⟨e,hget⟩ := eq_none_or_eq_some (s.pathCache.get? p)
  · rw [hget]
    by_cases hq : q=p
    · rw [if_pos hq,hq]
      exact hget
    · rw [if_neg hq]
  · by_cases hq : q=p
    · simp [hget,hq]
    · simp [hget,hq,get?_erase_ne hq]

lemma removeCached_inodeCache (h : ∀ e,s.pathCache.get? p=some e → s.inodeCache.get? e.inode=some e) (n : ℕ) :
    (s.removeCached p).inodeCache.get? n=if (s.pathCache.get? p).any (·.inode=n) then none else s.inodeCache.get? n := by
  unfold removeCached
  obtain hget | ⟨e,hget⟩ := eq_none_or_eq_some (s.pathCache.get? p)
  · simp [hget]
  · by_cases hn : n=e.inode
    · simp [hget,h e hget,hn]
    · simp [hget,h e hget,get?_erase_ne hn,Ne.symm hn]

lemma removeCached_childAt (h : ∀ e,s.pathCache.get? p=some e → e.path=p) (d q : TreePath) :
    (s.removeCached p).childAt d q =
      if d=parentPath q ∧ q=p ∧ (s.pathCache.get? p).isSome then none else s.childAt d q := by
  unfold removeCached
  obtain hget | ⟨e,hget⟩ := eq_none_or_eq_some (s.pathCache.get? p)
  · simp [hget]
  · have hframe := childAt_remove s e d q
    rw [h e hget] at hframe
    simp only [hget,isSome_some,and_true]
    refine Eq.trans (show _ = (s.removeFromChildrenIdx e).childAt d q from rfl) (hframe.trans ?_)
    refine if_congr ⟨fun hd => ⟨hd.2 ▸ hd.1,hd.2⟩,fun hd => ⟨hd.2 ▸ hd.1,hd.2⟩⟩ rfl rfl

lemma removeCached_durable : (s.removeCached p).durable=s.durable := by
  unfold removeCached
  split
  · rfl
  · exact removeFromChildrenIdx_durable s _

end Remove

section Groups

/-- A group has a child, and its children are of the directory and under their paths. -/
def Grouped (s : Store) : Prop :=
  ∀ d m,s.childrenIdx.get? d=some m → m≠[] ∧ ∀ c∈m,c.2.path=c.1 ∧ parentPath c.1=d

lemma Grouped.add (h : s.Grouped) (e : Entry) : (s.addToChildrenIdx e).Grouped := by
  intro d m hget
  obtain ⟨rfl,rfl⟩ | ⟨-,hget⟩ := of_get?_set hget
  · refine ⟨List.cons_ne_nil _ _,fun c hc => ?_⟩
    obtain rfl | hc := List.mem_cons.mp hc
    · exact ⟨rfl,rfl⟩
    · have hc := (List.mem_filter.mp hc).1
      obtain hnone | ⟨m,hm⟩ := eq_none_or_eq_some (s.childrenIdx.get? (parentPath e.path))
      · simp [GoMap.getD,hnone] at hc
      · rw [GoMap.getD,hm] at hc
        exact (h _ m hm).2 c hc
  · exact h d m hget

lemma Grouped.remove (h : s.Grouped) (e : Entry) : (s.removeFromChildrenIdx e).Grouped := by
  intro d m hget
  unfold removeFromChildrenIdx at hget
  split at hget
  · exact h d m hget
  rename_i children hchildren
  split at hget
  · exact h d m (of_get?_erase hget).2
  · rename_i hne
    obtain ⟨rfl,rfl⟩ | ⟨-,hget⟩ := of_get?_set hget
    · exact ⟨fun hnil => by simp [hnil] at hne,fun c hc => (h _ children hchildren).2 c (List.mem_filter.mp hc).1⟩
    · exact h d m hget

lemma Grouped.publishEntry (h : s.Grouped) (e : Entry) : (s.publishEntry e).Grouped := by
  have hdisplace : (s.numbered.displace (s.marked e)).Grouped := by
    unfold displace evictPathOrphan
    split
    · exact h
    rename_i old _
    have hremove : (s.numbered.removeFromChildrenIdx old).Grouped := Grouped.remove (s := s.numbered) h old
    split
    · exact hremove
    · split
      · exact hremove
      · split <;> exact hremove
  have hevict : ((s.numbered.displace (s.marked e)).evictInodeOrphan (s.marked e)).Grouped := by
    unfold evictInodeOrphan
    split
    · exact hdisplace
    · split
      · exact hdisplace
      · exact hdisplace.remove _
  exact Grouped.add (s := {(s.numbered.displace (s.marked e)).evictInodeOrphan (s.marked e) with
    inodeCache := _, pathCache := _}) hevict (s.marked e)

lemma Grouped.removeCached (h : s.Grouped) (p : TreePath) : (s.removeCached p).Grouped := by
  unfold Store.removeCached
  split
  · exact h
  · exact h.remove _

end Groups

/-- The three maps lead to each other. -/
structure Linked (s : Store) : Prop where
  path : ∀ p e,s.pathCache.get? p=some e → e.path=p
  inode : ∀ p e,s.pathCache.get? p=some e → s.inodeCache.get? e.inode=some e
  children : ∀ d p,s.childAt d p = if d = parentPath p then s.pathCache.get? p else none

namespace Linked
variable {t : Store} {f : Entry} {q : TreePath}

lemma published (h : Linked s) (hf : (s.publishEntry e).pathCache.get? q=some f) :
    (q=e.path ∧ f=s.marked e) ∨ (q≠e.path ∧ s.pathCache.get? q=some f ∧ f.inode≠e.inode) := by
  rw [publishEntry_pathCache] at hf
  split at hf
  · rename_i hq
    exact .inl ⟨hq,(Option.some.inj hf).symm⟩
  rename_i hq
  split_ifs at hf
  · rename_i hev
    refine .inr ⟨hq,hf,fun hino => hev ?_⟩
    have hprev := h.inode q f hf
    rw [hino] at hprev
    simp [evicted,hprev,h.path q f hf,hq]

lemma publish (h : Linked s) (e : Entry) : Linked (s.publishEntry e) := by
  refine ⟨fun q f hf => ?_,fun q f hf => ?_,fun d q => ?_⟩
  · obtain ⟨rfl,rfl⟩ | ⟨_,hold,_⟩ := h.published hf
    · rfl
    · exact h.path q f hold
  · rw [publishEntry_inodeCache]
    obtain ⟨rfl,rfl⟩ | ⟨hq,hold,hino⟩ := h.published hf
    · rw [if_pos (.inl rfl)]
    rw [if_neg,h.inode q f hold]
    rintro (heq | hred)
    · exact hino heq
    · -- the inode would be that of the entry that was at the path
      unfold redirected at hred
      split at hred
      · cases hred
      · rename_i old hget
        split_ifs at hred
        have hsame := (h.inode _ old hget).symm.trans (Option.some.inj hred ▸ h.inode q f hold)
        cases hsame
        exact hq ((h.path q f hold).symm.trans (h.path _ f hget))
  · rw [publishEntry_childAt s e (fun old hold => h.path _ old hold),publishEntry_pathCache,h.children]
    by_cases hd : d=parentPath q
    · by_cases hq : q=e.path <;> simp [hd,hq]
    · simp [hd]

lemma removed (hf : (s.removeCached p).pathCache.get? q=some f) : q≠p ∧ s.pathCache.get? q=some f := by
  rw [removeCached_pathCache] at hf
  split_ifs at hf
  · rename_i hq
    exact ⟨hq,hf⟩

lemma removeCached (h : Linked s) (p : TreePath) : Linked (s.removeCached p) := by
  refine ⟨fun q f hf => h.path q f (removed hf).2,fun q f hf => ?_,fun d q => ?_⟩
  · obtain ⟨hq,hold⟩ := removed hf
    rw [removeCached_inodeCache s p (fun e he => h.inode p e he),if_neg,h.inode q f hold]
    rw [Option.any_eq_true]
    rintro ⟨e,he,hino⟩
    have hsame := (h.inode p e he).symm.trans (of_decide_eq_true hino ▸ h.inode q f hold)
    cases hsame
    exact hq ((h.path q f hold).symm.trans (h.path p f he))
  · rw [removeCached_childAt s p (fun e he => h.path p e he),removeCached_pathCache,h.children]
    by_cases hd : d=parentPath q
    · by_cases hq : q=p
      · subst hq
        cases hget : s.pathCache.get? q <;> simp [hd]
      · simp [hd,hq]
    · simp [hd]

lemma congr (h : Linked s) (hpath : t.pathCache=s.pathCache) (hinode : t.inodeCache=s.inodeCache)
    (hchildren : t.childrenIdx=s.childrenIdx) : Linked t := by
  refine ⟨hpath ▸ h.path,fun q f hf => hinode ▸ h.inode q f (hpath ▸ hf),fun d q => ?_⟩
  rw [hpath,← h.children]
  simp only [childAt,hchildren]

end Linked

end Store

end JuiceMount.Metadata.Mirror
