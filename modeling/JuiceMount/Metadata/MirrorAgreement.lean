import JuiceMount.Lib.Transition
import JuiceMount.Metadata.MirrorMaps

/-! The maps in memory and the table agree after every sequence of calls: what the caches have is in the
table, and a row is out of the cache only because its inode was published at another path. -/
namespace JuiceMount.Metadata.Mirror
open JuiceMount.Lists Transition Store List GoMap Option

/-- The calls of a caller: a publication to the cache alone is followed by the durable one. -/
inductive MirrorOp
  | insert (e : Entry)
  | cachedInsert (e : Entry) (preparedConflict : Bool)
  | delete (p : TreePath)
  | cachedDelete (p : TreePath)
  | bulkInsert (entries : List Entry) (batchSize : ℤ)
  | publishExpected (expected : MirrorToken) (e : Entry)
  | scanDeletePathsBatch (paths : List TreePath) (expected : StoreEpoch) (obs : Observation)
  | renameSubtreeSync (oldDir newDir : TreePath)
  | renameExpected (source destination : MirrorToken)

def MirrorOp.calls : MirrorOp → List StoreOp
  | .insert e => [.insert e]
  | .cachedInsert e preparedConflict => [.insertToCache e preparedConflict,.insert e]
  | .delete p => [.delete p]
  | .cachedDelete p => [.deleteFromCache p,.delete p]
  | .bulkInsert entries batchSize => [.bulkInsert entries batchSize]
  | .publishExpected expected e => [.publishExpected expected e]
  | .scanDeletePathsBatch paths expected obs => [.scanDeletePathsBatch paths expected obs]
  | .renameSubtreeSync oldDir newDir => [.renameSubtreeSync oldDir newDir]
  | .renameExpected source destination => [.renameExpected source destination]

def publishedBatches : Store → List (List Entry) → List Entry
  | _,[] => []
  | s,batch::batches =>
    match s.commitBatch batch none {} [] false with
    | none => []
    | some c => c.2++publishedBatches (c.1.publishAll c.2) batches

def published (s : Store) : StoreOp → List Entry
  | .insert e =>
    if e.version≠.zero then if (s.publishExpected e.version e).isSome then [e] else []
    else if streamPartialName (baseName e.path) then [] else [e]
  | .insertToCache e preparedConflict =>
    if e.version≠.zero || streamPartialName (baseName e.path) || preparedConflict then [] else [e]
  | .publishExpected expected e => if (s.publishExpected expected e).isSome then [e] else []
  | .bulkInsert entries batchSize =>
    publishedBatches s (chunks (if batchSize≤0 then 500 else batchSize.toNat) entries)
  | .renameSubtreeSync oldDir newDir => ((s.renameSubtreeSync oldDir newDir).map (·.2)).getD []
  | .renameExpected source destination => ((s.renameExpected source destination).map (·.2)).getD []
  | .delete _ | .deleteFromCache _ | .scanDeletePathsBatch _ _ _ => []

/-- The store whose maps the publications of a call start from: a rename has taken out what it moves. -/
def publishedFrom (s : Store) : StoreOp → Store
  | .renameSubtreeSync oldDir newDir => ((s.renameSubtreeSync oldDir newDir).map (·.1)).getD s
  | .renameExpected source destination => ((s.renameExpected source destination).map (·.1)).getD s
  | _ => s

/-- The inode, if it leads to a cached path at all, leads to one of its own or to this path: it was not
displaced from a path that another inode has now. -/
def Store.undisplaced (s : Store) (e : Entry) : Bool :=
  match s.inodeCache.get? e.inode with
  | none => true
  | some prev => prev.inode=e.inode || prev.path=e.path || (s.pathCache.get? prev.path).isNone

def Store.allUndisplaced : Store → List Entry → Bool
  | _,[] => true
  | s,e::es => s.undisplaced e && (s.publishEntry e).allUndisplaced es

def undisplacedCalls : Store → List StoreOp → Bool
  | _,[] => true
  | s,call::calls => (publishedFrom s call).allUndisplaced (published s call) && undisplacedCalls (storeStep s call) calls

/-- The store, with the path at which each inode was published last. -/
structure Traced where
  store : Store := {}
  owner : GoMap ℕ TreePath := []

def own (owner : GoMap ℕ TreePath) (es : List Entry) : GoMap ℕ TreePath := es.foldl (fun o e => o.set e.inode e.path) owner

def tracedCall (t : Traced) (call : StoreOp) : Traced := ⟨storeStep t.store call,own t.owner (published t.store call)⟩

def tracedStep (t : Traced) (op : MirrorOp) : Option Traced := some (op.calls.foldl tracedCall t)

def Row.shows (r : Row) (e : Entry) : Prop := r.inode=e.inode ∧ r.isDir=e.isDir ∧ r.size=e.size

/-- What holds in every state; the rows of the `loose` paths are about to be written or published. -/
structure Agreement (s : Store) (owner : GoMap ℕ TreePath) (loose : List TreePath) : Prop where
  path : ∀ p e,s.pathCache.get? p=some e → e.path=p
  inode : ∀ p e,s.pathCache.get? p=some e → s.inodeCache.get? e.inode=some e
  children : ∀ d p,s.childAt d p = if d = parentPath p then s.pathCache.get? p else none
  groups : s.Grouped
  owned : ∀ p e,s.pathCache.get? p=some e → owner.get? e.inode=some p
  row : ∀ p e,s.pathCache.get? p=some e → p∈loose ∨ ∃ r,s.entries.get? p=some r ∧ r.shows e

/-- What holds besides if no displaced inode is published. -/
structure Exact (s : Store) (owner : GoMap ℕ TreePath) (loose : List TreePath) : Prop where
  own : ∀ n e,s.inodeCache.get? n=some e → e.inode=n → s.pathCache.get? e.path=some e
  exact : ∀ p r,s.entries.get? p=some r → s.pathCache.get? p=none → p∈loose ∨ owner.get? r.inode≠some p

lemma publishEntry_entries (s : Store) (e : Entry) : (s.publishEntry e).entries=s.entries :=
  congrArg Prod.fst (s.publishEntry_durable e)

lemma removeCached_entries (s : Store) (p : TreePath) : (s.removeCached p).entries=s.entries :=
  congrArg Prod.fst (s.removeCached_durable p)

namespace Agreement
variable {s t : Store} {owner : GoMap ℕ TreePath} {loose l : List TreePath} {e : Entry} {p : TreePath}

lemma linked (h : Agreement s owner loose) : s.Linked := ⟨h.path,h.inode,h.children⟩

lemma publish (h : Agreement s owner loose) (hloose : ∀ q∈loose,q≠e.path → q∈l)
    (hrow : e.path∈l ∨ ∃ r,s.entries.get? e.path=some r ∧ r.shows e) :
    Agreement (s.publishEntry e) (owner.set e.inode e.path) l := by
  have hlinked := h.linked.publish e
  refine ⟨hlinked.path,hlinked.inode,hlinked.children,h.groups.publishEntry e,fun q f hf => ?_,fun q f hf => ?_⟩
  · rw [get?_set]
    obtain ⟨rfl,rfl⟩ | ⟨_,hold,hino⟩ := h.linked.published hf
    · exact if_pos rfl
    · rw [if_neg hino]
      exact h.owned q f hold
  · rw [publishEntry_entries]
    obtain ⟨rfl,rfl⟩ | ⟨hq,hold,_⟩ := h.linked.published hf
    · exact hrow
    · exact (h.row q f hold).imp_left fun hmem => hloose q hmem hq

lemma removeCached (h : Agreement s owner loose) (hloose : ∀ q∈loose,q≠p → q∈l) : Agreement (s.removeCached p) owner l := by
  have hlinked := h.linked.removeCached p
  refine ⟨hlinked.path,hlinked.inode,hlinked.children,h.groups.removeCached p,
    fun q f hf => h.owned q f (Linked.removed hf).2,fun q f hf => ?_⟩
  obtain ⟨hq,hold⟩ := Linked.removed hf
  rw [removeCached_entries]
  exact (h.row q f hold).imp_left fun hmem => hloose q hmem hq

lemma durable (h : Agreement s owner loose) (hpath : t.pathCache=s.pathCache) (hinode : t.inodeCache=s.inodeCache)
    (hchildren : t.childrenIdx=s.childrenIdx) (hentries : ∀ q,q≠p → t.entries.get? q=s.entries.get? q) :
    Agreement t owner (p::loose) := by
  have hlinked := h.linked.congr hpath hinode hchildren
  refine ⟨hlinked.path,hlinked.inode,hlinked.children,fun d m hm => h.groups d m (hchildren ▸ hm),hpath ▸ h.owned,
    fun q f hf => ?_⟩
  by_cases hq : q=p
  · exact .inl (hq ▸ mem_cons_self)
  · rw [hentries q hq]
    exact (h.row q f (hpath ▸ hf)).imp_left (mem_cons_of_mem p)

end Agreement

namespace Exact
variable {s t : Store} {owner : GoMap ℕ TreePath} {loose l : List TreePath} {e : Entry} {p : TreePath}

lemma evicted (h : Exact s owner loose) (hclear : s.undisplaced e=true) (hev : s.evicted e=some p) {f : Entry}
    (hf : s.pathCache.get? p=some f) : f.inode=e.inode ∧ p≠e.path := by
  obtain ⟨prev,hprev,rfl,hne⟩ := evicted_eq_some hev
  have hino : prev.inode=e.inode := by
    simpa [undisplaced,hprev,hne,hf] using hclear
  have hcached := h.own e.inode prev hprev hino
  rw [hf,Option.some.injEq] at hcached
  exact ⟨hcached ▸ hino,hne⟩

lemma publish (ha : Agreement s owner loose) (h : Exact s owner loose) (hclear : s.undisplaced e=true)
    (hloose : ∀ q∈loose,q≠e.path → q∈l) : Exact (s.publishEntry e) (owner.set e.inode e.path) l := by
  refine ⟨fun n f hf hn => ?_,fun q r hr hnone => ?_⟩
  · rw [publishEntry_inodeCache] at hf
    split at hf
    · cases hf
      exact (s.publishEntry_pathCache e _).trans (if_pos rfl)
    rename_i hne
    rw [not_or] at hne
    have hcached := h.own n f hf hn
    rw [publishEntry_pathCache,if_neg,if_neg,hcached]
    · exact fun hev => hne.1 (hn.symm.trans (h.evicted hclear hev hcached).1)
    · -- the entry at the path would have been redirected
      intro hpath
      rw [hpath] at hcached
      refine hne.2 ?_
      simp only [Store.redirected,hcached]
      rw [if_pos,hn]
      simp [hn,hne.1,hf]
  · rw [publishEntry_entries] at hr
    rw [publishEntry_pathCache] at hnone
    split at hnone
    · cases hnone
    rename_i hq
    rw [get?_set]
    by_cases hino : r.inode=e.inode
    · rw [if_pos hino]
      exact .inr fun heq => hq (Option.some.inj heq).symm
    rw [if_neg hino]
    have hold : s.pathCache.get? q=none ∨ q∈loose := by
      split at hnone
      · rename_i hev
        obtain hget | ⟨f,hf⟩ := eq_none_or_eq_some (s.pathCache.get? q)
        · exact .inl hget
        · obtain hmem | ⟨r',hr',hshows⟩ := ha.row q f hf
          · exact .inr hmem
          · rw [hr,Option.some.injEq] at hr'
            subst r'
            exact absurd (hshows.1.trans (h.evicted hclear hev hf).1) hino
      · exact .inl hnone
    obtain hget | hmem := hold
    · exact (h.exact q r hr hget).imp_left fun hmem => hloose q hmem hq
    · exact .inl (hloose q hmem hq)

lemma removeCached (ha : Agreement s owner loose) (h : Exact s owner loose) (hloose : ∀ q∈loose,q≠p → q∈l)
    (hrow : p∈l ∨ s.entries.get? p=none) : Exact (s.removeCached p) owner l := by
  refine ⟨fun n f hf hn => ?_,fun q r hr hnone => ?_⟩
  · rw [removeCached_inodeCache s p fun e he => ha.inode p e he] at hf
    split_ifs at hf with hne
    have hcached := h.own n f hf hn
    rw [removeCached_pathCache,if_neg,hcached]
    intro hpath
    rw [hpath] at hcached
    exact hne (by simp [hcached,hn])
  · rw [removeCached_entries] at hr
    rw [removeCached_pathCache] at hnone
    by_cases hq : q=p
    · subst q
      obtain hmem | hgone := hrow
      · exact .inl hmem
      · rw [hgone] at hr
        cases hr
    · rw [if_neg hq] at hnone
      exact (h.exact q r hr hnone).imp_left fun hmem => hloose q hmem hq

lemma durable (h : Exact s owner loose) (hpath : t.pathCache=s.pathCache) (hinode : t.inodeCache=s.inodeCache)
    (hentries : ∀ q,q≠p → t.entries.get? q=s.entries.get? q) : Exact t owner (p::loose) := by
  refine ⟨hpath ▸ hinode ▸ h.own,fun q r hr hnone => ?_⟩
  by_cases hq : q=p
  · exact .inl (hq ▸ mem_cons_self)
  · rw [hentries q hq] at hr
    exact (h.exact q r hr (hpath ▸ hnone)).imp_left (mem_cons_of_mem p)

end Exact

/-- Both, with whether every publication so far was of an undisplaced inode. -/
def Mirrored (clear : Bool) (s : Store) (owner : GoMap ℕ TreePath) (loose : List TreePath) : Prop :=
  Agreement s owner loose ∧ (clear=true → Exact s owner loose)

namespace Mirrored
variable {s t : Store} {owner : GoMap ℕ TreePath} {loose l : List TreePath} {e : Entry} {p : TreePath} {x : Bool}

lemma publish (h : Mirrored x s owner loose) (hloose : ∀ q∈loose,q≠e.path → q∈l)
    (hrow : e.path∈l ∨ ∃ r,s.entries.get? e.path=some r ∧ r.shows e) :
    Mirrored (x && s.undisplaced e) (s.publishEntry e) (owner.set e.inode e.path) l := by
  refine ⟨h.1.publish hloose hrow,fun hclear => ?_⟩
  rw [Bool.and_eq_true] at hclear
  exact (h.2 hclear.1).publish h.1 hclear.2 hloose

lemma removeCached (h : Mirrored x s owner loose) (hloose : ∀ q∈loose,q≠p → q∈l)
    (hrow : p∈l ∨ s.entries.get? p=none) : Mirrored x (s.removeCached p) owner l :=
  ⟨h.1.removeCached hloose,fun hclear => (h.2 hclear).removeCached h.1 hloose hrow⟩

lemma loosen (h : Mirrored x s owner loose) (hmem : ∀ q∈loose,q∈l) : Mirrored x s owner l :=
  ⟨{h.1 with row := fun q f hf => (h.1.row q f hf).imp_left (hmem q)},fun hclear =>
    {h.2 hclear with exact := fun q r hr hnone => ((h.2 hclear).exact q r hr hnone).imp_left (hmem q)}⟩

lemma durable (h : Mirrored x s owner loose) (hpath : t.pathCache=s.pathCache) (hinode : t.inodeCache=s.inodeCache)
    (hchildren : t.childrenIdx=s.childrenIdx) (hentries : ∀ q,q≠p → t.entries.get? q=s.entries.get? q) :
    Mirrored x t owner (p::loose) :=
  ⟨h.1.durable hpath hinode hchildren hentries,fun hclear => (h.2 hclear).durable hpath hinode hentries⟩

lemma upsert (h : Mirrored x s owner loose) (e : Entry) : Mirrored x (s.upsert e) owner (e.path::loose) :=
  h.durable rfl rfl rfl fun _ hq => get?_set_ne hq _

lemma deleteRow (h : Mirrored x s owner loose) (p : TreePath) : Mirrored x (s.deleteRow p) owner (p::loose) := by
  unfold Store.deleteRow
  split
  · exact h.loosen fun _ => mem_cons_of_mem p
  · exact h.durable rfl rfl rfl fun _ hq => get?_erase_ne hq

end Mirrored

lemma deleteRow_self (s : Store) (p : TreePath) : (s.deleteRow p).entries.get? p=none := by
  unfold deleteRow
  split
  · assumption
  · exact get?_erase_self _ _

variable {s t : Store}

lemma deleteRow_none {q : TreePath} (h : s.entries.get? q=none) (p : TreePath) : (s.deleteRow p).entries.get? q=none := by
  by_cases hq : q=p
  · exact hq ▸ deleteRow_self s q
  · unfold deleteRow
    split
    · exact h
    · exact (get?_erase_ne hq).trans h

lemma upsert_shows (s : Store) (e : Entry) :
    ∃ r,(s.upsert e).entries.get? e.path=some r ∧ r.shows ((s.upsert e).loadEntryVersion e) :=
  ⟨s.upsertedRow e,get?_set_self _ _ _,rfl,rfl,rfl⟩

section Calls
variable {owner : GoMap ℕ TreePath} {loose : List TreePath} {x : Bool}

variable {e : Entry}

lemma Mirrored.write (h : Mirrored x s owner loose) (hloose : ∀ q∈loose,q=e.path) :
    Mirrored (x && s.undisplaced e) ((s.upsert e).publishEntry ((s.upsert e).loadEntryVersion e))
      (owner.set e.inode e.path) [] := by
  refine (h.upsert e).publish (fun q hq hne => ?_) (.inr (upsert_shows s e))
  obtain rfl | hq := mem_cons.mp hq
  · exact absurd rfl hne
  · exact absurd (hloose q hq) hne

lemma publishExpected_eq {expected : MirrorToken} {t : Store} (h : s.publishExpected expected e=some t) :
    t=(s.upsert e).publishEntry ((s.upsert e).loadEntryVersion e) := by
  unfold publishExpected at h
  extract_lets current conflict at h
  split_ifs at h
  · exact (Option.some.inj h).symm

lemma allUndisplaced_singleton (s : Store) (e : Entry) : s.allUndisplaced [e]=s.undisplaced e := Bool.and_true _

lemma Mirrored.publishExpected (h : Mirrored x s owner loose) (expected : MirrorToken)
    (hloose : ∀ q∈loose,q=e.path) (hclosed : s.publishExpected expected e=none → loose=[]) :
    Mirrored (x && s.allUndisplaced (if (s.publishExpected expected e).isSome then [e] else []))
      ((s.publishExpected expected e).getD s)
      (own owner (if (s.publishExpected expected e).isSome then [e] else [])) [] := by
  obtain hnone | ⟨t,hsome⟩ := eq_none_or_eq_some (s.publishExpected expected e)
  · rw [hnone]
    simpa [allUndisplaced,own] using hclosed hnone ▸ h
  · rw [hsome]
    simp only [isSome_some,if_true,getD_some,allUndisplaced_singleton]
    exact publishExpected_eq hsome ▸ h.write hloose

lemma Mirrored.insert (h : Mirrored x s owner loose) (hloose : ∀ q∈loose,q=e.path)
    (hskip : e.version≠.zero ∨ streamPartialName (baseName e.path)=true → loose=[]) :
    Mirrored (x && s.allUndisplaced (published s (.insert e))) (s.insert e) (own owner (published s (.insert e))) [] := by
  unfold published Store.insert
  by_cases hversion : e.version≠.zero
  · simp only [if_pos hversion]
    exact h.publishExpected _ hloose fun _ => hskip (.inl hversion)
  simp only [if_neg hversion]
  by_cases hpartial : streamPartialName (baseName e.path)=true
  · simp only [if_pos hpartial]
    simpa [Store.allUndisplaced,own] using hskip (.inr hpartial) ▸ h
  · simp only [if_neg hpartial,allUndisplaced_singleton]
    exact h.write hloose

lemma Mirrored.insertToCache (h : Mirrored x s owner []) (e : Entry) (preparedConflict : Bool) :
    ∃ loose,(∀ q∈loose,q=e.path) ∧ (e.version≠.zero ∨ streamPartialName (baseName e.path)=true → loose=[]) ∧
      Mirrored (x && s.allUndisplaced (published s (.insertToCache e preparedConflict))) (s.insertToCache e preparedConflict)
        (own owner (published s (.insertToCache e preparedConflict))) loose := by
  unfold published Store.insertToCache
  by_cases hskip : (e.version≠.zero || streamPartialName (baseName e.path) || preparedConflict)=true
  · refine ⟨[],nofun,fun _ => rfl,?_⟩
    simp only [if_pos hskip]
    simpa [Store.allUndisplaced,own] using h
  refine ⟨[e.path],fun q hq => mem_singleton.mp hq,fun hbad => ?_,?_⟩
  · simp only [Bool.or_eq_true,decide_eq_true_eq,not_or] at hskip
    exact absurd hbad (not_or.mpr ⟨hskip.1.1,hskip.1.2⟩)
  · simp only [if_neg hskip,allUndisplaced_singleton]
    have hp := h.publish (e := e) (l := [e.path]) nofun
      (.inl (mem_singleton_self _))
    exact ⟨{hp.1 with},fun hclear => {hp.2 hclear with}⟩

lemma Mirrored.delete (h : Mirrored x s owner loose) {p : TreePath} (hloose : ∀ q∈loose,q=p) :
    Mirrored x (s.delete p) owner [] := by
  refine (h.deleteRow p).removeCached (fun q hq hne => ?_) (.inr (deleteRow_self s p))
  obtain rfl | hq := mem_cons.mp hq
  · exact absurd rfl hne
  · exact absurd (hloose q hq) hne

lemma Mirrored.deleteFromCache (h : Mirrored x s owner []) (p : TreePath) : Mirrored x (s.deleteFromCache p) owner [p] := by
  have hr := h.removeCached (p := p) (l := [p]) nofun
    (.inl (mem_singleton_self p))
  exact ⟨{hr.1 with},fun hclear => {hr.2 hclear with}⟩

end Calls

/-- The two stores look up the same in memory. -/
structure SameMaps (s t : Store) : Prop where
  path : ∀ p,s.pathCache.get? p = t.pathCache.get? p
  inode : ∀ n,s.inodeCache.get? n = t.inodeCache.get? n
  next : s.nextCacheIdentity=t.nextCacheIdentity

lemma SameMaps.publish (h : SameMaps s t) (e : Entry) : SameMaps (s.publishEntry e) (t.publishEntry e) := by
  have hmarked : s.marked e=t.marked e := by simp only [marked,h.next]
  have hevicted : s.evicted e=t.evicted e := by simp only [evicted,h.inode]
  have hredirected : s.redirected e=t.redirected e := by
    unfold Store.redirected
    rw [h.path]
    cases t.pathCache.get? e.path with
    | none => rfl
    | some old => simp only [h.inode]
  refine ⟨fun p => ?_,fun n => ?_,?_⟩
  · rw [publishEntry_pathCache,publishEntry_pathCache,hmarked,hevicted,h.path]
  · rw [publishEntry_inodeCache,publishEntry_inodeCache,hmarked,hredirected,h.inode]
  · rw [publishEntry_nextCacheIdentity,publishEntry_nextCacheIdentity,h.next]

lemma SameMaps.publishAll (h : SameMaps s t) (es : List Entry) : SameMaps (s.publishAll es) (t.publishAll es) := by
  induction es generalizing s t with
  | nil => exact h
  | cons e es ih => exact ih (h.publish e)

lemma SameMaps.allUndisplaced (h : SameMaps s t) (es : List Entry) : s.allUndisplaced es=t.allUndisplaced es := by
  induction es generalizing s t with
  | nil => rfl
  | cons e es ih =>
    have hone : s.undisplaced e=t.undisplaced e := by simp only [undisplaced,h.inode,h.path]
    rw [allUndisplaced,allUndisplaced,hone,ih (h.publish e)]

lemma allUndisplaced_append (s : Store) (es fs : List Entry) :
    s.allUndisplaced (es++fs)=(s.allUndisplaced es && (s.publishAll es).allUndisplaced fs) := by
  induction es generalizing s with
  | nil => simp [allUndisplaced,publishAll]
  | cons e es ih =>
    rw [cons_append,allUndisplaced,allUndisplaced,ih,Bool.and_assoc]
    rfl

section Batches
variable {owner : GoMap ℕ TreePath} {x : Bool}

def LastShown (s : Store) (committed : List Entry) : Prop :=
  ∀ pre f post,committed = pre++f::post → (∀ g∈post,g.path≠f.path) → ∃ r,s.entries.get? f.path=some r ∧ r.shows f

variable {c c' : Store × List Entry} {held : List TreePath}

lemma upsertEntry_cases {e : Entry} (hstep : upsertEntry held c e=some c') :
    c'=c ∨ c'=(c.1.upsert e,c.2++[(c.1.upsert e).loadEntryVersion e]) := by
  unfold upsertEntry at hstep
  split at hstep
  · exact .inl (Option.some.inj hstep).symm
  extract_lets current at hstep
  split_ifs at hstep
  · exact .inr (Option.some.inj hstep).symm

/-- A transaction that has committed `c.2` so far; the maps are those of `s` still. -/
structure Committing (s : Store) (c : Store × List Entry) : Prop where
  shown : LastShown c.1 c.2
  same : SameMaps c.1 s
  mirrored : ∀ x owner loose,Mirrored x s owner loose → Mirrored x c.1 owner (c.2.map (·.path)++loose)

lemma Committing.start (s : Store) : Committing s (s,[]) :=
  ⟨fun pre f post hsplit => by simp at hsplit,⟨fun _ => rfl,fun _ => rfl,rfl⟩,fun _ _ _ hm => hm⟩

lemma Committing.write (h : Committing s c) {t : Store} {f : Entry}
    (hpath : t.pathCache=c.1.pathCache) (hinode : t.inodeCache=c.1.inodeCache) (hchildren : t.childrenIdx=c.1.childrenIdx)
    (hnext : t.nextCacheIdentity=c.1.nextCacheIdentity) (hentries : ∀ q,q≠f.path → t.entries.get? q=c.1.entries.get? q)
    (hshows : ∃ r,t.entries.get? f.path=some r ∧ r.shows f) : Committing s (t,c.2++[f]) := by
  refine ⟨fun pre g post hsplit hlast => ?_,⟨hpath ▸ h.same.path,hinode ▸ h.same.inode,hnext.trans h.same.next⟩,
    fun x owner loose hm => ?_⟩
  · obtain rfl | ⟨post',k,rfl⟩ := eq_nil_or_concat post
    · obtain ⟨_,hf⟩ := append_inj' hsplit rfl
      cases hf
      exact hshows
    rw [concat_eq_append] at hsplit hlast
    rw [← cons_append,← append_assoc] at hsplit
    obtain ⟨hcommitted,hk⟩ := append_inj' hsplit rfl
    cases hk
    have hne : g.path≠f.path := Ne.symm (hlast f (mem_append_right _ (mem_singleton_self _)))
    obtain ⟨r,hr,hg⟩ := h.shown pre g post' hcommitted fun k hk => hlast k (mem_append_left _ hk)
    exact ⟨r,(hentries _ hne).trans hr,hg⟩
  · have hu := h.mirrored x owner loose hm
    have hmem : ∀ q,q∈f.path::(c.2.map (·.path)++loose) → q∈(c.2++[f]).map (·.path)++loose := by
      intro q hq
      simp only [map_append,map_cons,map_nil,mem_append,mem_cons] at hq ⊢
      tauto
    exact (hu.durable hpath hinode hchildren hentries).loosen hmem

lemma Committing.upsertEntry (h : Committing s c) {e : Entry}
    (hstep : upsertEntry held c e=some c') : Committing s c' := by
  obtain rfl | rfl := upsertEntry_cases hstep
  · exact h
  · exact h.write rfl rfl rfl rfl (fun q hq => get?_set_ne hq _) (upsert_shows c.1 e)

lemma Committing.foldlM {batch : List Entry}
    (h : Committing s c) (hrun : batch.foldlM (Store.upsertEntry held) c=some c') : Committing s c' := by
  induction batch generalizing c with
  | nil =>
    cases hrun
    exact h
  | cons e batch ih =>
    rw [foldlM_cons] at hrun
    obtain ⟨m,hm,hrest⟩ := bind_eq_some_iff.mp hrun
    exact ih (h.upsertEntry hm) hrest

lemma committing_batch {batch : List Entry} {expected : Option StoreEpoch} {obs : Observation}
    {invalidate : List TreePath} {reconcile : Bool}
    (hc : s.commitBatch batch expected obs invalidate reconcile=some c) : Committing s c := by
  unfold Store.commitBatch at hc
  extract_lets held at hc
  split_ifs at hc
  exact (Committing.start s).foldlM hc

lemma Mirrored.publishAll {committed : List Entry} (h : Mirrored x s owner (committed.map (·.path)))
    (hshown : LastShown s committed) :
    Mirrored (x && s.allUndisplaced committed) (s.publishAll committed) (own owner committed) [] := by
  induction committed generalizing s owner x with
  | nil => simpa [allUndisplaced,publishAll,own] using h
  | cons f rest ih =>
    have hrow : f.path∈rest.map (·.path) ∨ ∃ r,s.entries.get? f.path=some r ∧ r.shows f := by
      by_cases hmem : f.path∈rest.map (·.path)
      · exact .inl hmem
      · exact .inr (hshown [] f rest rfl fun g hg heq => hmem (heq ▸ List.mem_map_of_mem hg))
    have hp := h.publish (e := f) (l := rest.map (·.path))
      (fun q hq hne => (mem_cons.mp hq).resolve_left hne) hrow
    rw [allUndisplaced,← Bool.and_assoc]
    refine ih hp fun pre g post hsplit hlast => ?_
    rw [publishEntry_entries]
    exact hshown (f::pre) g post (by rw [hsplit,cons_append]) hlast

lemma own_append (owner : GoMap ℕ TreePath) (es fs : List Entry) : own owner (es++fs)=own (own owner es) fs :=
  foldl_append

lemma Mirrored.bulkInsertBatches (h : Mirrored x s owner []) (batches : List (List Entry)) :
    Mirrored (x && s.allUndisplaced (publishedBatches s batches)) (s.bulkInsertBatches batches)
      (own owner (publishedBatches s batches)) [] := by
  induction batches generalizing s owner x with
  | nil => simpa [publishedBatches,bulkInsertBatches,allUndisplaced,own] using h
  | cons batch batches ih =>
    rw [publishedBatches,bulkInsertBatches,bulkInsertBatch,bulkInsertBatchWithEpoch]
    cases hc : s.commitBatch batch none {} [] false with
    | none => simpa [allUndisplaced,own] using h
    | some c =>
      have hdone := committing_batch hc
      have hm := hdone.mirrored x owner [] h
      rw [append_nil] at hm
      have hpub := hm.publishAll hdone.shown
      simp only [map_some]
      rw [own_append,allUndisplaced_append,← Bool.and_assoc,← hdone.same.allUndisplaced,
        ← (hdone.same.publishAll c.2).allUndisplaced]
      exact ih hpub

end Batches

section ScanDelete
variable {owner : GoMap ℕ TreePath} {x : Bool} {loose : List TreePath}

lemma Mirrored.foldl_deleteRow (h : Mirrored x s owner loose) (paths : List TreePath) :
    Mirrored x (paths.foldl Store.deleteRow s) owner (paths.reverse++loose) := by
  induction paths generalizing s loose with
  | nil => exact h
  | cons p paths ih =>
    rw [foldl_cons,reverse_cons,append_assoc]
    exact ih (h.deleteRow p)

lemma foldl_deleteRow_none {paths : List TreePath} {q : TreePath} (h : s.entries.get? q=none ∨ q∈paths) :
    (paths.foldl deleteRow s).entries.get? q=none := by
  induction paths generalizing s with
  | nil => exact h.resolve_right not_mem_nil
  | cons p paths ih =>
    refine ih ?_
    obtain hnone | hmem := h
    · exact .inl (deleteRow_none hnone p)
    · obtain rfl | hmem := mem_cons.mp hmem
      · exact .inl (deleteRow_self s q)
      · exact .inr hmem

lemma Mirrored.foldl_removeCached (h : Mirrored x s owner loose) (paths keep : List TreePath)
    (hloose : ∀ q∈loose,q∈paths ∨ q∈keep) (hgone : ∀ q∈paths,q∈keep ∨ s.entries.get? q=none) :
    Mirrored x (paths.foldl Store.removeCached s) owner keep := by
  induction paths generalizing s loose with
  | nil => exact h.loosen fun q hq => (hloose q hq).resolve_left not_mem_nil
  | cons p paths ih =>
    have hr := h.removeCached (p := p) (l := loose.filter (· ≠ p)++keep)
      (fun q hq hne => mem_append_left _ (mem_filter.mpr ⟨hq,decide_eq_true hne⟩))
      ((hgone p mem_cons_self).imp_left (mem_append_right _))
    refine ih hr (fun q hq => ?_) fun q hq => removeCached_entries s p ▸ hgone q (mem_cons_of_mem p hq)
    obtain hq | hq := mem_append.mp hq
    · obtain ⟨hq,hne⟩ := mem_filter.mp hq
      exact (hloose q hq).imp_left fun hmem => (mem_cons.mp hmem).resolve_left (of_decide_eq_true hne)
    · exact .inr hq

lemma Mirrored.scanDeletePathsBatch (h : Mirrored x s owner []) (paths : List TreePath) (expected : StoreEpoch)
    (obs : Observation) : Mirrored x ((s.scanDeletePathsBatch paths expected obs).getD s) owner [] := by
  unfold Store.scanDeletePathsBatch
  split
  · exact h
  · refine (h.foldl_deleteRow paths).foldl_removeCached paths [] (fun q hq => .inl ?_) fun q hq =>
      .inr (foldl_deleteRow_none (.inr hq))
    simpa using hq

end ScanDelete

section Rename
variable {owner : GoMap ℕ TreePath} {x : Bool}

lemma retag_maps (s : Store) (p : TreePath) (r : Row) : (s.retag p r).pathCache=s.pathCache ∧
    (s.retag p r).inodeCache=s.inodeCache ∧ (s.retag p r).childrenIdx=s.childrenIdx ∧
    (s.retag p r).nextCacheIdentity=s.nextCacheIdentity := by
  unfold retag
  split <;> exact ⟨rfl,rfl,rfl,rfl⟩

lemma retag_entries_ne {p q : TreePath} (hq : q≠p) (r : Row) : (s.retag p r).entries.get? q=s.entries.get? q := by
  unfold retag
  split
  · rfl
  · exact get?_set_ne hq _

lemma retag_shows {p : TreePath} {f : Entry} (h : ∃ row,s.entries.get? p=some row ∧ row.shows f) (r : Row) :
    ∃ row,(s.retag p r).entries.get? p=some row ∧ row.shows f := by
  obtain ⟨row,hrow,hshows⟩ := h
  unfold retag
  rw [hrow]
  exact ⟨_,get?_set_self _ _ _,hshows⟩

variable {c : Store × List Entry} {oldDir newDir : TreePath}

lemma Committing.moveRow (h : Committing s c) (oldDir newDir : TreePath) (m : TreePath × Row) :
    Committing s (moveRow oldDir newDir c m) := by
  set e := m.2.entryAt (newDir++m.1.drop oldDir.length) with he
  obtain ⟨hpath,hinode,hchildren,hnext⟩ := retag_maps (c.1.upsert e) e.path m.2
  exact h.write hpath hinode hchildren hnext
    (fun q hq => (retag_entries_ne hq m.2).trans (get?_set_ne hq _)) (retag_shows (upsert_shows c.1 e) m.2)

lemma Committing.foldl_moveRow {moved : List (TreePath × Row)}
    (h : Committing s c) : Committing s (moved.foldl (Store.moveRow oldDir newDir) c) := by
  induction moved generalizing c with
  | nil => exact h
  | cons m moved ih => exact ih (h.moveRow oldDir newDir m)

/-- What is committed after a move has the rows of the paths that it wrote, and no others. -/
lemma foldl_moveRow_none {moved : List (TreePath × Row)} {q : TreePath}
    (h : q∈c.2.map (·.path) ∨ c.1.entries.get? q=none) : q∈(moved.foldl (moveRow oldDir newDir) c).2.map (·.path) ∨
      (moved.foldl (moveRow oldDir newDir) c).1.entries.get? q=none := by
  induction moved generalizing c with
  | nil => exact h
  | cons m moved ih =>
    refine ih ?_
    simp only [moveRow]
    by_cases hq : q=newDir++m.1.drop oldDir.length
    · left
      rw [map_append]
      exact mem_append_right _ (hq ▸ mem_singleton_self _)
    · refine h.imp (fun hmem => ?_) fun hnone => ?_
      · rw [map_append]
        exact mem_append_left _ hmem
      · exact (retag_entries_ne hq m.2).trans ((get?_set_ne hq _).trans hnone)

lemma foldl_removeCached_entries (s : Store) (paths : List TreePath) : (paths.foldl removeCached s).entries=s.entries := by
  induction paths generalizing s with
  | nil => rfl
  | cons p paths ih => exact (ih _).trans (removeCached_entries s p)

lemma Mirrored.rename (h : Mirrored x s owner []) {roots : List MirrorToken} {includeRoot : Bool}
    (hc : s.renameMirror oldDir newDir roots includeRoot=some c) :
    Mirrored (x && c.1.allUndisplaced c.2) (c.1.publishAll c.2) (own owner c.2) [] := by
  unfold Store.renameMirror at hc
  split_ifs at hc
  extract_lets moved c' at hc
  cases hc
  have hdone : Committing _ c' := (Committing.start ((moved.map (·.1)).foldl Store.deleteRow s)).foldl_moveRow
  have hloose := hdone.mirrored x owner _ (h.foldl_deleteRow (moved.map (·.1)))
  have hremoved := hloose.foldl_removeCached (moved.map (·.1)) (c'.2.map (·.path))
    (fun q hq => ?_) fun q hq => ?_
  · refine hremoved.publishAll fun pre f post hsplit hlast => ?_
    rw [foldl_removeCached_entries]
    exact hdone.shown pre f post hsplit hlast
  · rw [append_nil] at hq
    obtain hq | hq := mem_append.mp hq
    · exact .inr hq
    · exact .inl (mem_reverse.mp hq)
  · exact foldl_moveRow_none (.inr (foldl_deleteRow_none (.inr hq)))

lemma Mirrored.publishMoved (h : Mirrored x s owner []) {roots : List MirrorToken}
    {includeRoot : Bool} {moved : Option (Store × List Entry)} (hm : s.renameMirror oldDir newDir roots includeRoot=moved) :
    Mirrored (x && ((moved.map (·.1)).getD s).allUndisplaced ((moved.map (·.2)).getD [])) (publishMoved s moved)
      (own owner ((moved.map (·.2)).getD [])) [] := by
  cases moved with
  | none => simpa [allUndisplaced,own,Mirror.publishMoved] using h
  | some c => exact h.rename hm

end Rename

lemma Mirrored.step {t t' : Traced} {op : MirrorOp} {x : Bool} (h : Mirrored x t.store t.owner [])
    (hstep : tracedStep t op=some t') : Mirrored (x && undisplacedCalls t.store op.calls) t'.store t'.owner [] := by
  cases hstep
  cases op <;> simp only [MirrorOp.calls,undisplacedCalls,foldl_cons,foldl_nil,Bool.and_true]
  case insert e => exact h.insert nofun fun _ => rfl
  case cachedInsert e preparedConflict =>
    obtain ⟨loose,hloose,hskip,hc⟩ := h.insertToCache e preparedConflict
    rw [← Bool.and_assoc]
    exact hc.insert hloose hskip
  case delete p =>
    simpa [published,allUndisplaced,own,tracedCall,storeStep] using h.delete (p := p) nofun
  case cachedDelete p =>
    simpa [published,allUndisplaced,own,tracedCall,storeStep] using
      (h.deleteFromCache p).delete (p := p) fun q hq => mem_singleton.mp hq
  case bulkInsert entries batchSize => exact h.bulkInsertBatches _
  case publishExpected expected e =>
    exact h.publishExpected expected nofun fun _ => rfl
  case scanDeletePathsBatch paths expected obs =>
    simpa [published,allUndisplaced,own,tracedCall,storeStep] using h.scanDeletePathsBatch paths expected obs
  case renameSubtreeSync oldDir newDir => exact h.publishMoved rfl
  case renameExpected source destination => exact h.publishMoved rfl

lemma Mirrored.start : Mirrored true {} [] [] := by
  refine ⟨⟨nofun,nofun,fun d p => ?_,nofun,nofun,nofun⟩,fun _ => ⟨nofun,nofun⟩⟩
  split <;> rfl

lemma agreement_of_run {ops : List MirrorOp} {t : Traced} (hrun : run tracedStep {} ops=some t) :
    Agreement t.store t.owner [] := by
  refine run_invariant (I := fun t => Agreement t.store t.owner []) (fun t op t' h hstep => ?_) Mirrored.start.1 hrun
  have hm : Mirrored false t.store t.owner [] := ⟨h,nofun⟩
  exact (hm.step hstep).1

/-- After every sequence of calls on an empty store: each cached path has a row with its inode, type and
size, the index of children is the cached paths by their parent, and the inode of a cached path leads
to it. A cached path is the one its inode was published at last; if no displaced inode was published,
every row of which this is true is cached, so that a path with a row goes only when its own inode is
published at another path. -/
theorem mirrors_agree {ops : List MirrorOp} {t : Traced} (hrun : run tracedStep {} ops = some t) :
    (∀ p e,t.store.pathCache.get? p = some e →
      (∃ r,t.store.entries.get? p = some r ∧ r.shows e) ∧ t.store.lookupByInode e.inode = some e ∧
        t.owner.get? e.inode = some p) ∧
    (∀ d p,t.store.childAt d p = if d = parentPath p then t.store.pathCache.get? p else none) ∧
    (∀ d m,t.store.childrenIdx.get? d = some m → m ≠ [] ∧ ∀ c ∈ m,c.2.path = c.1 ∧ parentPath c.1 = d) ∧
    (AllSteps tracedStep (fun t op => undisplacedCalls t.store op.calls = true) {} ops →
      ∀ p r,t.store.entries.get? p = some r →
        ((t.store.pathCache.get? p).isSome ↔ t.owner.get? r.inode = some p)) := by
  have hagree := agreement_of_run hrun
  have hshown : ∀ p e,t.store.pathCache.get? p=some e → ∃ r,t.store.entries.get? p=some r ∧ r.shows e :=
    fun p e he => (hagree.row p e he).resolve_left not_mem_nil
  refine ⟨fun p e he => ⟨hshown p e he,hagree.inode p e he,hagree.owned p e he⟩,hagree.children,hagree.groups,
    fun hclear p r hr => ?_⟩
  have hexact : Mirrored true t.store t.owner [] := by
    refine run_invariant_of_allSteps (I := fun t => Mirrored true t.store t.owner []) (fun t op t' h hG hstep => ?_)
      Mirrored.start hclear hrun
    have hm := h.step hstep
    rwa [hG] at hm
  obtain hnone | ⟨e,he⟩ := eq_none_or_eq_some (t.store.pathCache.get? p)
  · have hother := ((hexact.2 rfl).exact p r hr hnone).resolve_left not_mem_nil
    simp [hnone,hother]
  · obtain ⟨r',hr',hshows⟩ := hshown p e he
    rw [hr,Option.some.injEq] at hr'
    have howned := hagree.owned p e he
    rw [← hshows.1,← hr'] at howned
    simp [he,howned]

/-- A file that is created, replaced under a new inode and removed, with a second file beside it. -/
def replacedFile : List MirrorOp :=
  [.cachedInsert ⟨[['d'],['a']],false,3,1,0,false,true,.zero,0⟩ false,.insert ⟨[['d'],['a']],false,5,2,0,false,false,.zero,0⟩,
    .bulkInsert [⟨[['d'],['b']],false,7,3,0,false,false,.zero,0⟩] 0,.cachedDelete [['d'],['a']]]

theorem mirrors_agree_replaced : ∃ t,run tracedStep {} replacedFile = some t ∧
    (t.store.entries.get? [['d'],['b']]).map (·.inode) = some 3 ∧ (t.store.pathCache.get? [['d'],['b']]).isSome := by
  obtain ⟨t,hrun,hrow⟩ := map_eq_some_iff.mp (show (run tracedStep {} replacedFile).map
    (fun t => ((t.store.entries.get? [['d'],['b']]).map (·.inode),t.owner.get? 3)) = some (some 3,some [['d'],['b']])
    by decide +kernel)
  rw [Prod.mk.injEq] at hrow
  obtain ⟨r,hr,hino⟩ := map_eq_some_iff.mp hrow.1
  have hclear : AllSteps tracedStep (fun t op => undisplacedCalls t.store op.calls=true) {} replacedFile :=
    allSteps_of_check (by decide +kernel)
  exact ⟨t,hrun,hrow.1,((mirrors_agree hrun).2.2.2 hclear _ r hr).mpr (by rw [hino]; exact hrow.2)⟩

/-- The row of a path stays when its inode is published at another path, but the path is no longer cached; a
displaced inode that is published again takes out the path it was displaced from, which has another inode. -/
theorem row_without_cached_path :
    (∃ t,run tracedStep {} [.insert ⟨[['a']],false,3,1,0,false,false,.zero,0⟩,.insert ⟨[['b']],false,3,1,0,false,false,.zero,0⟩] =
      some t ∧ (t.store.entries.get? [['a']]).map (·.inode) = some 1 ∧ t.store.pathCache.get? [['a']] = none) ∧
    (∃ t,run tracedStep {} [.insert ⟨[['a']],false,3,1,0,false,false,.zero,0⟩,.insert ⟨[['a']],false,3,2,0,false,false,.zero,0⟩,
      .insert ⟨[['b']],false,3,1,0,false,false,.zero,0⟩] = some t ∧
      (t.store.entries.get? [['a']]).map (·.inode) = some 2 ∧ t.store.pathCache.get? [['a']] = none) := by
  constructor
  all_goals
    refine ⟨_,rfl,?_,?_⟩
    all_goals decide +kernel

end JuiceMount.Metadata.Mirror
