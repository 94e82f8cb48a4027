import JuiceMount.Metadata.MirrorAgreement
import JuiceMount.Metadata.ReconcileDir

/-! Where `reconcileDir` changes rows: beneath the path that its inode leads to. That path is of its own
directory unless the inode was displaced from it. -/
namespace JuiceMount.Metadata.Mirror
open JuiceMount.Lists Transition List GoMap Option Store

section Below
variable {d p q : TreePath}

lemma below_of_isPrefixOf (h : d <+: q) (hne : q≠d) : below d q=true := by
  simp [below,List.isPrefixOf_iff_prefix.mpr h,hne]

lemma below_append (d : TreePath) (name : Name) : below d (d++[name])=true :=
  below_of_isPrefixOf (prefix_append d [name]) (by simp)

lemma parentPath_prefix (p : TreePath) : parentPath p <+: p := List.dropLast_prefix p

lemma eq_nil_of_prefix_parentPath (h : p <+: parentPath p) : p=[] := by
  have hle := h.length_le
  rw [parentPath,length_dropLast] at hle
  exact length_eq_zero_iff.mp (by omega)

end Below

section Upserts
variable {s t : Store} {q : TreePath}

lemma foldlM_upsertEntry_frame {held : List TreePath} {batch : List Entry} {c c' : Store × List Entry}
    (hrun : batch.foldlM (upsertEntry held) c=some c') : c'.1.childrenIdx=c.1.childrenIdx ∧
      ∀ q,(∀ e∈batch,e.path≠q) → c'.1.entries.get? q=c.1.entries.get? q := by
  induction batch generalizing c with
  | nil =>
    cases hrun
    exact ⟨rfl,fun _ _ => rfl⟩
  | cons e batch ih =>
    rw [foldlM_cons] at hrun
    obtain ⟨m,hm,hrest⟩ := bind_eq_some_iff.mp hrun
    obtain ⟨hidx,hrows⟩ := ih hrest
    obtain rfl | rfl := upsertEntry_cases hm
    · exact ⟨hidx,fun q hq => hrows q fun f hf => hq f (mem_cons_of_mem e hf)⟩
    · refine ⟨hidx,fun q hq => ?_⟩
      rw [hrows q fun f hf => hq f (mem_cons_of_mem e hf)]
      exact get?_set_ne (Ne.symm (hq e mem_cons_self)) _

lemma publishAll_entries (s : Store) (es : List Entry) : (s.publishAll es).entries=s.entries := by
  induction es generalizing s with
  | nil => rfl
  | cons e es ih => exact (ih (s.publishEntry e)).trans (congrArg Prod.fst (s.publishEntry_durable e))

lemma Store.Grouped.publishAll (h : s.Grouped) (es : List Entry) : (s.publishAll es).Grouped := by
  induction es generalizing s with
  | nil => exact h
  | cons e es ih => exact ih (h.publishEntry e)

lemma bulkInsertBatchWithEpoch_frame {batch : List Entry} {expected : Option StoreEpoch} {obs : Observation}
    {invalidate : List TreePath} {reconcile : Bool}
    (h : s.bulkInsertBatchWithEpoch batch expected obs invalidate reconcile=some t) :
    (s.Grouped → t.Grouped) ∧ ∀ q,(∀ e∈batch,e.path≠q) → t.entries.get? q=s.entries.get? q := by
  obtain ⟨c,hc,rfl⟩ := map_eq_some_iff.mp h
  unfold commitBatch at hc
  extract_lets held at hc
  split_ifs at hc
  obtain ⟨hidx,hrows⟩ := foldlM_upsertEntry_frame hc
  refine ⟨fun hg => Store.Grouped.publishAll (fun d m hm => hg d m (hidx ▸ hm)) c.2,fun q hq => ?_⟩
  rw [publishAll_entries]
  exact hrows q hq

lemma applyReconcileUpserts_frame (obs : Observation) (n : ℕ) (s : Store) (batches : List (List Entry)) :
    (s.Grouped → (applyReconcileUpserts obs n s batches).1.Grouped) ∧ ∀ q,(∀ e∈batches.flatten,e.path≠q) →
        (applyReconcileUpserts obs n s batches).1.entries.get? q=s.entries.get? q := by
  induction batches generalizing n s with
  | nil => cases n <;> exact ⟨id,fun _ _ => rfl⟩
  | cons batch batches ih =>
    cases n with
    | zero => exact ⟨id,fun _ _ => rfl⟩
    | succ n =>
      rw [applyReconcileUpserts]
      cases hb : s.bulkInsertBatchWithEpoch batch (some s.captureStoreEpoch) obs [] true with
      | none => exact ⟨id,fun _ _ => rfl⟩
      | some t =>
        obtain ⟨hgroup,hrows⟩ := bulkInsertBatchWithEpoch_frame hb
        obtain ⟨hgroups,hrest⟩ := ih n t
        refine ⟨fun hg => hgroups (hgroup hg),fun q hq => ?_⟩
        rw [flatten_cons] at hq
        exact (hrest q fun e he => hq e (mem_append_right _ he)).trans
          (hrows q fun e he => hq e (mem_append_left _ he))

lemma mem_reconcileChildren {parent : TreePath} {raw : List (Name × List UInt8)} {c : DirChild}
    (h : c∈reconcileChildren parent raw) : ∃ name,c.path=parent++[name] := by
  obtain ⟨x,_,hx⟩ := mem_filterMap.mp h
  split at hx
  · cases hx
  · split_ifs at hx
    · cases hx
      exact ⟨x.1,rfl⟩

lemma reconcileChildEntry_path {attrs : ℕ → Option (List UInt8)} {c : DirChild} {e : Entry}
    (h : reconcileChildEntry attrs s c=some e) : e.path=c.path := by
  unfold reconcileChildEntry at h
  split at h
  · cases h
  · split_ifs at h
    cases h
    rfl
  · extract_lets f at h
    split at h
    · exact Option.some.inj h ▸ rfl
    · split_ifs at h
      · exact Option.some.inj h ▸ rfl

lemma upsert_path {parent : TreePath} {raw : List (Name × List UInt8)} {attrs : ℕ → Option (List UInt8)} {e : Entry}
    (h : e∈buildReconcileChildEntries (reconcileChildren parent raw) attrs s) : ∃ name,e.path=parent++[name] := by
  obtain ⟨c,hc,he⟩ := mem_filterMap.mp h
  obtain ⟨name,hname⟩ := mem_reconcileChildren hc
  exact ⟨name,(reconcileChildEntry_path he).trans hname⟩

end Upserts

section Prune
variable {s t : Store} {d parent q : TreePath} {x c : Entry}

lemma Store.Grouped.parent_of_listChildren (h : s.Grouped) (hx : x∈s.listChildren d) : parentPath x.path=d := by
  obtain ⟨y,hy,rfl⟩ := List.mem_map.mp hx
  obtain hnone | ⟨m,hm⟩ := eq_none_or_eq_some (s.childrenIdx.get? d)
  · simp [GoMap.getD,hnone] at hy
  · rw [GoMap.getD,hm] at hy
    obtain ⟨hpath,hparent⟩ := (h d m hm).2 y hy
    rw [hpath]
    exact hparent

lemma Store.Grouped.prefix_of_listChildren (h : s.Grouped) (hx : x∈s.listChildren d) : d <+: x.path :=
  h.parent_of_listChildren hx ▸ parentPath_prefix x.path

lemma subtreeLevels_prefix (h : s.Grouped) {fuel : ℕ} {level : List Entry} (hx : x∈subtreeLevels s fuel level) :
    ∃ e∈level,e.path <+: x.path := by
  induction fuel generalizing level with
  | zero => cases hx
  | succ fuel ih =>
    rw [subtreeLevels] at hx
    -- an entry of the next level is a child of one of this level
    have hnext : ∀ y∈(level.filter (·.isDir)).flatMap (fun e => s.listChildren e.path),∃ e∈level,e.path <+: y.path := by
      intro y hy
      obtain ⟨e,he,hy⟩ := mem_flatMap.mp hy
      exact ⟨e,(mem_filter.mp he).1,h.prefix_of_listChildren hy⟩
    obtain hx | hx := mem_append.mp hx
    · exact hnext x hx
    · obtain ⟨y,hy,hyx⟩ := ih hx
      obtain ⟨e,he,hey⟩ := hnext y hy
      exact ⟨e,he,hey.trans hyx⟩

lemma collectSubtreeEntries_prefix (h : s.Grouped) (hx : x∈collectSubtreeEntries s d) : d <+: x.path := by
  obtain hx | hx := mem_append.mp hx
  · exact h.prefix_of_listChildren hx
  · obtain ⟨e,he,hpre⟩ := subtreeLevels_prefix h hx
    exact (h.prefix_of_listChildren he).trans hpre

lemma root_not_nodup {isProtected : Entry → Bool} {verified : List Entry} (hc : c∈verified) (hpath : c.path=[])
    (hchild : c∈s.listChildren [])
    (hroot : []∈(spareProtected isProtected (verified.flatMap fun c => c::collectSubtreeEntries s c.path)).map (·.path)) :
    ¬((spareProtected isProtected (verified.flatMap fun c => c::collectSubtreeEntries s c.path)).map (·.path)).Nodup := by
  unfold spareProtected at hroot ⊢
  generalize hdel : (verified.flatMap fun c => c::collectSubtreeEntries s c.path)=toDelete at hroot ⊢
  set keep : Entry → Bool := fun e => !(toDelete.filter isProtected).any fun x => e.path.isPrefixOf x.path with hkeep
  obtain ⟨x,hx,hnil⟩ := List.mem_map.mp hroot
  have hkept : keep c=true := by
    have hsame := (mem_filter.mp hx).2
    rw [hkeep] at hsame ⊢
    simp only [hpath]
    simpa only [hnil] using hsame
  have hblock : (c::collectSubtreeEntries s c.path).Sublist toDelete := by
    rw [← hdel,flatMap_def]
    exact sublist_flatten_of_mem (List.mem_map_of_mem hc)
  have hagain : c∈collectSubtreeEntries s c.path := by
    rw [hpath]
    exact mem_append_left _ hchild
  have htwice : [c,c].Sublist toDelete := (List.Sublist.cons_cons c (singleton_sublist.mpr hagain)).trans hblock
  have hfilter := htwice.filter keep
  rw [filter_cons_of_pos hkept,filter_cons_of_pos hkept,filter_nil] at hfilter
  intro hnodup
  simpa using hnodup.sublist (hfilter.map (·.path))

lemma foldl_deleteRow_ne {paths : List TreePath} (hq : q ∉ paths) :
    (paths.foldl deleteRow s).entries.get? q=s.entries.get? q := by
  induction paths generalizing s with
  | nil => rfl
  | cons p paths ih =>
    rw [mem_cons,not_or] at hq
    rw [foldl_cons,ih hq.2]
    unfold deleteRow
    split
    · rfl
    · exact get?_erase_ne hq.1

lemma deletePathsConditional_frame {entries : List Entry} {obs : Observation}
    (h : s.deletePathsConditional entries obs=some t) :
    (entries.map (·.path)).Nodup ∧ ∀ q,q ∉ entries.map (·.path) → t.entries.get? q=s.entries.get? q := by
  unfold deletePathsConditional at h
  extract_lets paths cached at h
  split_ifs at h with hguard
  simp only [Bool.or_eq_true,not_or,Bool.not_eq_true',decide_eq_false_iff_not,not_not] at hguard
  cases h
  refine ⟨hguard.1.1.2,fun q hq => ?_⟩
  rw [foldl_removeCached_entries]
  exact foldl_deleteRow_ne hq

lemma scopedPrune_below (h : s.Grouped) {env : ReconcileEnv} {fresh : List Name}
    (hq : (scopedPrune env s parent fresh).entries.get? q≠s.entries.get? q) : below parent q=true := by
  unfold scopedPrune at hq
  split at hq
  · exact absurd rfl hq
  split at hq
  · exact absurd rfl hq
  extract_lets candidates verified toDelete at hq
  split at hq
  · exact absurd rfl hq
  split at hq
  · exact absurd rfl hq
  cases hdel : s.deletePathsConditional toDelete env.obs with
  | none =>
    rw [hdel] at hq
    exact absurd rfl hq
  | some t =>
    rw [hdel] at hq
    obtain ⟨hnodup,hrows⟩ := deletePathsConditional_frame hdel
    have hmem : q∈toDelete.map (·.path) := by
      by_contra hnot
      exact hq (hrows q hnot)
    obtain ⟨x,hx,rfl⟩ := List.mem_map.mp hmem
    obtain ⟨c,hc,hxc⟩ := mem_flatMap.mp (mem_filter.mp hx).1
    have hchild : c∈s.listChildren parent :=
      (mem_filter.mp (mem_filter.mp (mem_filter.mp hc).1).1).1
    have hcx : c.path <+: x.path := by
      obtain rfl | hxc := mem_cons.mp hxc
      · exact prefix_rfl
      · exact collectSubtreeEntries_prefix h hxc
    refine below_of_isPrefixOf ((h.prefix_of_listChildren hchild).trans hcx) fun heq => ?_
    have hparent := h.parent_of_listChildren hchild
    have hnil : c.path=[] := eq_nil_of_prefix_parentPath (hparent ▸ heq ▸ hcx)
    rw [hnil] at hparent
    have hroot : parent=[] := hparent.symm
    rw [hroot] at heq hchild
    exact root_not_nodup hc hnil hchild (heq ▸ hmem) hnodup

end Prune

lemma reconcileDir_below {s : Store} (h : s.Grouped) {env : ReconcileEnv} {n : ℕ} {q : TreePath}
    (hq : (reconcileDir env s n).entries.get? q≠s.entries.get? q) :
    ∃ parent,reconcilePath s n=some parent ∧ scanFilteredPath parent=false ∧ below parent q=true := by
  unfold reconcileDir at hq
  split at hq
  · exact absurd rfl hq
  split at hq
  · rename_i parent raw hparent _
    split at hq
    · exact absurd rfl hq
    rename_i hfilter
    extract_lets toUpsert at hq
    have hframe := applyReconcileUpserts_frame env.obs env.admittedChunks s (chunks 500 toUpsert)
    rw [chunks_flatten] at hframe
    refine ⟨parent,hparent,Bool.eq_false_iff.mpr hfilter,?_⟩
    by_contra hbelow
    have hrows := hframe.2 q fun e he heq => by
      obtain ⟨name,hname⟩ := upsert_path he
      exact hbelow (heq ▸ hname ▸ below_append parent name)
    split at hq
    · rename_i t ht
      rw [ht] at hframe hrows
      exact hbelow (scopedPrune_below (hframe.1 h) fun heq => hq (heq.trans hrows))
    · rename_i t ht
      rw [ht] at hrows
      exact hq hrows
  · exact absurd rfl hq

section Displaced
variable {s : Store} {n : ℕ} {e : Entry}

/-- The inode leads to a path whose cached entry is its own directory, or to one that is not mirrored. -/
def leadsToOwnDirectory (s : Store) (n : ℕ) : Bool :=
  match s.lookupByInode n with
  | none => true
  | some e => scanFilteredPath e.path || (s.pathCache.get? e.path).any (fun d => d.isDir && d.inode=n)

def attrOfSize (oneByte : Bool) : List UInt8 := List.replicate 58 0++[if oneByte then 1 else 0]

/-- The value of a file of inode 0 in a directory. -/
def fileValue : List UInt8 := 1::List.replicate 8 0

/-- The directory has one file, whose size is not the one that the store has. -/
def listedFile (s : Store) (parent : TreePath) : ReconcileEnv where
  raw := some [(['x'],fileValue)]
  attrs _ := some (attrOfSize ((s.lookupByPath (parent++[['x']])).any (·.size=0)))
  admittedChunks := 1
  degraded := true

lemma scanFilteredPath_child {parent : TreePath} (h : scanFilteredPath parent=false) :
    scanFilteredPath (parent++[['x']])=false := by
  cases parent with
  | nil => decide
  | cons => exact h

lemma decodeDirChild_fileValue : decodeDirChild fileValue=some (0,1) := by decide

lemma decodeInodeAttrTime_attrOfSize (oneByte : Bool) :
    decodeInodeAttrTime (attrOfSize oneByte)=some (0,if oneByte then 1 else 0) := by
  cases oneByte <;> decide

lemma listedFile_entries (s : Store) (parent : TreePath) : ∃ e,e.path=parent++[['x']] ∧ e.version=.zero ∧
    reconcileChildEntry (listedFile s parent).attrs s ⟨0,parent++[['x']],false⟩ = some e := by
  unfold reconcileChildEntry listedFile
  simp only [bind_some,decodeInodeAttrTime_attrOfSize]
  obtain hnone | ⟨old,hold⟩ := eq_none_or_eq_some (s.lookupByPath (parent++[['x']]))
  · rw [hnone]
    exact ⟨_,rfl,rfl,rfl⟩
  · rw [hold]
    by_cases hsize : old.size=0
    · simp [hsize]
    · simp [hsize]

lemma upsertedRow_ne (s : Store) (e : Entry) : some (s.upsertedRow e)≠s.entries.get? e.path := by
  intro heq
  have hrev : (s.upsertedRow e).revision=(s.upsertedRow e).revision+1 := by
    conv_lhs => rw [upsertedRow]
    rw [← heq]
  omega

lemma bulkInsertBatchWithEpoch_single (hversion : e.version=.zero) (hname : streamPartialName (baseName e.path)=false) :
    s.bulkInsertBatchWithEpoch [e] (some s.captureStoreEpoch) {} [] true =
      some ((s.upsert e).publishAll [(s.upsert e).loadEntryVersion e]) := by
  simp [bulkInsertBatchWithEpoch,commitBatch,batchRefused,heldPaths,upsertEntry,hversion,hname]

lemma reconcileDir_listedFile {parent : TreePath} (hpath : reconcilePath s n=some parent)
    (hfilter : scanFilteredPath parent=false) :
    (reconcileDir (listedFile s parent) s n).entries.get? (parent++[['x']])≠s.entries.get? (parent++[['x']]) := by
  obtain ⟨e,hpath_e,hversion,he⟩ := listedFile_entries s parent
  have hchildren : reconcileChildren parent [(['x'],fileValue)]=[⟨0,parent++[['x']],false⟩] := by
    simp [reconcileChildren,decodeDirChild_fileValue,scanFilteredPath_child hfilter]
  have hbuild : buildReconcileChildEntries (reconcileChildren parent [(['x'],fileValue)]) (listedFile s parent).attrs s=[e] := by
    simp [buildReconcileChildEntries,hchildren,he]
  have hname : streamPartialName (baseName e.path)=false := by
    rw [hpath_e,baseName,getLastD_concat]
    decide
  have hupserts : applyReconcileUpserts {} 1 s (chunks 500 [e]) =
      ((s.upsert e).publishAll [(s.upsert e).loadEntryVersion e],true) := by
    show applyReconcileUpserts {} 1 s [[e]]=_
    rw [applyReconcileUpserts,bulkInsertBatchWithEpoch_single hversion hname]
    rfl
  have hresult : (reconcileDir (listedFile s parent) s n).entries=(s.upsert e).entries := by
    unfold reconcileDir
    have hraw : (listedFile s parent).raw=some [(['x'],fileValue)] := rfl
    rw [hpath,hraw,if_neg (by simp [listedFile])]
    dsimp only
    rw [if_neg (Bool.eq_false_iff.mp hfilter),hbuild]
    have hall : applyReconcileUpserts (listedFile s parent).obs (listedFile s parent).admittedChunks s (chunks 500 [e])=_ :=
      hupserts
    rw [hall]
    simp only [scopedPrune,listedFile,Bool.or_true,Bool.true_or,if_true]
    exact publishAll_entries _ _
  rw [hresult,← hpath_e]
  exact fun heq => upsertedRow_ne s e ((get?_set_self ..).symm.trans heq)

end Displaced

/-- In every state of the store that calls lead to: `reconcileDir` of an inode changes rows only beneath a
path whose cached entry is a directory of that inode, whatever the backend has for it, exactly if the
inode is unknown or leads to the path of its own directory. -/
theorem reconcile_lands_on_own_directory {ops : List MirrorOp} {t : Traced} (hrun : run tracedStep {} ops = some t)
    {n : ℕ} (hn : n ≠ 1) : (∀ env q,(reconcileDir env t.store n).entries.get? q ≠ t.store.entries.get? q →
      ∃ d e,below d q = true ∧ t.store.pathCache.get? d = some e ∧ e.isDir = true ∧ e.inode = n) ↔
    leadsToOwnDirectory t.store n = true := by
  have hagree := agreement_of_run hrun
  have hpath : reconcilePath t.store n = (t.store.lookupByInode n).map (·.path) := if_neg hn
  unfold leadsToOwnDirectory
  cases hlook : t.store.lookupByInode n with
  | none =>
    rw [hlook] at hpath
    refine iff_of_true (fun env q hq => ?_) rfl
    obtain ⟨parent,hparent,_⟩ := reconcileDir_below hagree.groups hq
    rw [hpath] at hparent
    cases hparent
  | some e =>
    rw [hlook] at hpath
    simp only [Bool.or_eq_true,Option.any_eq_true,Bool.and_eq_true,decide_eq_true_eq]
    constructor
    · intro hall
      by_cases hfilter : scanFilteredPath e.path=true
      · exact .inl hfilter
      obtain ⟨d,f,hbelow,hf,hdir,hino⟩ := hall (listedFile t.store e.path) _
        (reconcileDir_listedFile hpath (Bool.eq_false_iff.mpr hfilter))
      -- a cached path has the inode's entry, so the directory over the file is the path itself
      have hsame := (hino ▸ hagree.inode d f hf).symm.trans hlook
      cases hsame
      rw [← hagree.path d e hf] at hf
      exact .inr ⟨e,hf,hdir,hino⟩
    · rintro hown env q hq
      obtain ⟨parent,hparent,hfilter,hbelow⟩ := reconcileDir_below hagree.groups hq
      rw [hpath] at hparent
      cases hparent
      obtain hskip | ⟨f,hf,hdir,hino⟩ := hown
      · rw [hskip] at hfilter
        cases hfilter
      · exact ⟨e.path,f,hbelow,hf,hdir,hino⟩

/-- A directory that is renamed keeps its inode, which leads to the new name. -/
theorem reconcile_lands_renamed : ∃ t,run tracedStep {} [.insert ⟨[['d']],true,0,5,0,false,false,.zero,0⟩,
      .renameExpected (.row [['d']] 1 1) (.absent [['e']] 1)] = some t ∧
    ∀ env q,(reconcileDir env t.store 5).entries.get? q ≠ t.store.entries.get? q →
      ∃ d e,below d q = true ∧ t.store.pathCache.get? d = some e ∧ e.isDir = true ∧ e.inode = 5 := by
  obtain ⟨t,hrun,hown⟩ := map_eq_some_iff.mp (show (run tracedStep {} [.insert ⟨[['d']],true,0,5,0,false,false,.zero,0⟩,
    .renameExpected (.row [['d']] 1 1) (.absent [['e']] 1)]).map
    (fun t => (leadsToOwnDirectory t.store 5,t.store.pathCache.get? [['e']] |>.map (·.inode))) = some (true,some 5)
    by decide +kernel)
  exact ⟨t,hrun,(reconcile_lands_on_own_directory hrun (by decide)).mpr (congrArg Prod.fst hown)⟩

/-- The directory d of inode 5 is replaced by one of inode 6. An event for inode 5 puts its file beneath d. -/
theorem reconcile_lands_on_replacement : ∃ t,run tracedStep {} [.insert ⟨[['d']],true,0,5,0,false,false,.zero,0⟩,
      .insert ⟨[['d']],true,0,6,0,false,false,.zero,0⟩] = some t ∧
    (t.store.pathCache.get? [['d']]).map (·.inode) = some 6 ∧ t.store.entries.get? [['d'],['x']] = none ∧
    ((reconcileDir (listedFile t.store [['d']]) t.store 5).entries.get? [['d'],['x']]).map (·.size) = some 0 := by
  refine ⟨_,rfl,?_,?_,?_⟩
  all_goals decide +kernel

end JuiceMount.Metadata.Mirror
