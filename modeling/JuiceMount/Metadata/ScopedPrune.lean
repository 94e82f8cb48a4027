import JuiceMount.Metadata.ReconcileScope

/-! What a scoped prune takes out of a mirror whose table and caches hold one tree: whole subtrees of
absent children, without what is protected and the directories over it. -/
namespace JuiceMount.Metadata.Mirror
open JuiceMount.Lists Transition List GoMap

/-- The table and the caches hold one tree: every row is cached with its token and its type, and every
path that is not of the root has a directory over it. -/
structure MirrorTree (s : Store) : Prop where
  cached : ∀ p e,s.pathCache.get? p=some e → e.path=p ∧
    ∃ r,s.entries.get? p=some r ∧ r.isDir=e.isDir ∧ e.version = .row p r.incarnation r.revision
  rows : ∀ p r,s.entries.get? p=some r → (s.pathCache.get? p).isSome
  children : ∀ d p,s.childAt d p = if d = parentPath p then s.pathCache.get? p else none
  groups : s.Grouped
  unique : ∀ d m,s.childrenIdx.get? d=some m → m.keys.Nodup
  parents : ∀ p e,s.pathCache.get? p=some e →
    p≠[] ∧ (parentPath p=[] ∨ ∃ d,s.pathCache.get? (parentPath p)=some d ∧ d.isDir=true)

section Selection
variable (env : ReconcileEnv) (s : Store) (parent : TreePath) (fresh : List Name) (pinned : List TreePath)

def verifiedRoots : List Entry :=
  ((pruneCandidates (s.listChildren parent) fresh).filter (fun c => !env.spool c.path && !pinned.contains c.path)).filter
    (fun c => !env.fuseRoot || env.lstat c.path=.absent)

def expandedRoots : List Entry :=
  (verifiedRoots env s parent fresh pinned).flatMap (fun c => c::collectSubtreeEntries s c.path)

def protectedEntry (e : Entry) : Bool := e.localOnly || pinned.contains e.path || env.spoolAgain e.path

def prunedEntries : List Entry := spareProtected (protectedEntry env pinned) (expandedRoots env s parent fresh pinned)

lemma scopedPrune_cases : scopedPrune env s parent fresh=s ∨ ∃ pinned,env.pinned=some pinned ∧
      scopedPrune env s parent fresh=(s.deletePathsConditional (prunedEntries env s parent fresh pinned) env.obs).getD s := by
  unfold scopedPrune
  split
  · exact .inl rfl
  split
  · exact .inl rfl
  rename_i pinned hpinned
  extract_lets candidates verified toDelete
  split
  · exact .inl rfl
  split
  · exact .inl rfl
  · exact .inr ⟨pinned,hpinned,rfl⟩

end Selection

namespace MirrorTree
variable {s : Store} {d p q : TreePath} {e x y : Entry} {fuel : ℕ} {level : List Entry}

lemma path_eq (h : MirrorTree s) (he : s.pathCache.get? p=some e) : e.path=p := (h.cached p e he).1

lemma mem_listChildren (h : MirrorTree s) : x∈s.listChildren d ↔ s.pathCache.get? x.path=some x ∧ parentPath x.path=d := by
  unfold Store.listChildren
  constructor
  · intro hx
    obtain ⟨c,hc,rfl⟩ := mem_map.mp hx
    obtain hnone | ⟨m,hm⟩ := Option.eq_none_or_eq_some (s.childrenIdx.get? d)
    · simp [GoMap.getD,hnone] at hc
    rw [GoMap.getD,hm] at hc
    obtain ⟨hpath,hparent⟩ := (h.groups d m hm).2 c hc
    have hget := get?_of_mem (h.unique d m hm) hc
    have hchild : s.childAt d c.1=some c.2 := by
      rw [Store.childAt,GoMap.getD,hm]
      exact hget
    rw [h.children,if_pos hparent.symm] at hchild
    rw [hpath]
    exact ⟨hchild,hparent⟩
  · rintro ⟨hcached,rfl⟩
    have hchild := h.children (parentPath x.path) x.path
    rw [if_pos rfl,hcached] at hchild
    exact mem_map.mpr ⟨_,mem_of_get? hchild,rfl⟩

lemma directory_over (h : MirrorTree s) (hq : s.pathCache.get? q=some x) (hpre : p <+: q) (hne : p≠q) (hp : p≠[]) :
    ∃ d,s.pathCache.get? p=some d ∧ d.isDir=true := by
  obtain ⟨ks,rfl⟩ := hpre
  induction ks using List.reverseRecOn generalizing x with
  | nil => simp at hne
  | append_singleton ks k ih =>
    have hparent : parentPath (p++(ks++[k]))=p++ks := by
      rw [parentPath,← append_assoc,dropLast_concat]
    obtain ⟨_,hroot | ⟨d,hd,hdir⟩⟩ := h.parents _ x hq
    · rw [hparent] at hroot
      exact absurd (append_eq_nil_iff.mp hroot).1 hp
    rw [hparent] at hd
    by_cases hks : ks=[]
    · subst ks
      rw [append_nil] at hd
      exact ⟨d,hd,hdir⟩
    · exact ih hd (by simpa using hks)

lemma length_le (h : MirrorTree s) (hq : s.pathCache.get? q=some x) : q.length ≤ s.pathCache.length := by
  have hnodup : ((List.range q.length).map fun i => q.take (i+1)).Nodup := by
    refine List.Nodup.map_on (fun i hi j hj heq => ?_) nodup_range
    have hlen := congrArg List.length heq
    rw [mem_range] at hi hj
    simp only [length_take] at hlen
    omega
  have hsub : ((List.range q.length).map fun i => q.take (i+1)) ⊆ s.pathCache.keys := by
    intro p hp
    obtain ⟨i,hi,rfl⟩ := mem_map.mp hp
    rw [mem_range] at hi
    by_cases heq : q.take (i+1)=q
    · rw [heq]
      exact mem_keys_of_get? hq
    have hne : q.take (i+1)≠[] := fun hnil => by
      have := congrArg List.length hnil
      rw [length_take,length_nil] at this
      omega
    obtain ⟨d,hd,_⟩ := h.directory_over hq (List.take_prefix _ q) heq hne
    exact mem_keys_of_get? hd
  have hle := (hnodup.subperm hsub).length_le
  simpa [GoMap.keys] using hle

lemma cached_child (h : MirrorTree s) {name : Name} (hx : s.pathCache.get? (d++[name])=some x) : x∈s.listChildren d := by
  rw [h.mem_listChildren,h.path_eq hx,parentPath,dropLast_concat]
  exact ⟨hx,rfl⟩

lemma mem_subtreeLevels (h : MirrorTree s) {name : Name} {names : List Name}
    (he : e∈level) (hdir : e.isDir=true) (hx : s.pathCache.get? (e.path++name::names)=some x)
    (hfuel : names.length<fuel) : x∈subtreeLevels s fuel level := by
  induction fuel generalizing level e name names with
  | zero => omega
  | succ fuel ih =>
    rw [subtreeLevels]
    have hnext : ∀ y∈s.listChildren e.path,y∈(level.filter (·.isDir)).flatMap fun e => s.listChildren e.path :=
      fun y hy => mem_flatMap.mpr ⟨e,mem_filter.mpr ⟨he,hdir⟩,hy⟩
    cases names with
    | nil => exact mem_append_left _ (hnext x (h.cached_child hx))
    | cons next names =>
      have hsplit : e.path++name::next::names=(e.path++[name])++next::names := by simp
      rw [hsplit] at hx
      obtain ⟨y,hy,hydir⟩ := h.directory_over hx (prefix_append _ _) (by simp) (by simp)
      rw [← h.path_eq hy] at hx
      exact mem_append_right _ (ih (hnext y (h.cached_child hy)) hydir hx (by simpa using hfuel))

lemma length_of_child (h : MirrorTree s) (hx : x∈s.listChildren d) : x.path.length=d.length+1 := by
  obtain ⟨hcached,hparent⟩ := h.mem_listChildren.mp hx
  have hpos := length_pos_iff.mpr (h.parents _ x hcached).1
  rw [← hparent,parentPath,length_dropLast]
  omega

lemma cached_of_subtreeLevels (h : MirrorTree s) (hx : x∈subtreeLevels s fuel level) :
    s.pathCache.get? x.path=some x ∧ ∃ e∈level,e.path.length<x.path.length := by
  induction fuel generalizing level with
  | zero => cases hx
  | succ fuel ih =>
    rw [subtreeLevels] at hx
    have hnext : ∀ y∈(level.filter (·.isDir)).flatMap (fun e => s.listChildren e.path),
        s.pathCache.get? y.path=some y ∧ ∃ e∈level,e.path.length<y.path.length := by
      intro y hy
      obtain ⟨e,he,hy⟩ := mem_flatMap.mp hy
      exact ⟨(h.mem_listChildren.mp hy).1,e,(mem_filter.mp he).1,by rw [h.length_of_child hy]; omega⟩
    obtain hx | hx := mem_append.mp hx
    · exact hnext x hx
    · obtain ⟨hcached,y,hy,hlt⟩ := ih hx
      obtain ⟨_,e,he,hle⟩ := hnext y hy
      exact ⟨hcached,e,he,hle.trans hlt⟩

lemma mem_collectSubtreeEntries (h : MirrorTree s) :
    x∈collectSubtreeEntries s d ↔ s.pathCache.get? x.path=some x ∧ below d x.path=true := by
  constructor
  · intro hx
    have hpre := collectSubtreeEntries_prefix h.groups hx
    have hfound : s.pathCache.get? x.path=some x ∧ d.length<x.path.length := by
      obtain hx | hx := mem_append.mp hx
      · exact ⟨(h.mem_listChildren.mp hx).1,by rw [h.length_of_child hx]; omega⟩
      · obtain ⟨hcached,e,he,hlt⟩ := h.cached_of_subtreeLevels hx
        rw [h.length_of_child he] at hlt
        exact ⟨hcached,by omega⟩
    exact ⟨hfound.1,below_of_isPrefixOf hpre fun heq => by rw [heq] at hfound; omega⟩
  · rintro ⟨hcached,hbelow⟩
    simp only [below,Bool.and_eq_true,List.isPrefixOf_iff_prefix,decide_eq_true_eq] at hbelow
    obtain ⟨⟨names,hnames⟩,hne⟩ := hbelow
    rw [← hnames] at hcached
    cases names with
    | nil =>
      rw [append_nil] at hnames
      exact absurd hnames.symm hne
    | cons name names =>
      cases names with
      | nil => exact mem_append_left _ (h.cached_child hcached)
      | cons next names =>
        have hdeep := h.length_le hcached
        have hsplit : d++name::next::names=(d++[name])++next::names := by simp
        rw [hsplit] at hcached
        obtain ⟨y,hy,hydir⟩ := h.directory_over hcached (prefix_append _ _) (by simp) (by simp)
        rw [← h.path_eq hy] at hcached
        refine mem_append_right _ (h.mem_subtreeLevels (h.cached_child hy) hydir hcached ?_)
        simp only [length_append,length_cons] at hdeep
        omega

lemma listChildren_nodup (h : MirrorTree s) (d : TreePath) : ((s.listChildren d).map (·.path)).Nodup := by
  unfold Store.listChildren
  obtain hnone | ⟨m,hm⟩ := Option.eq_none_or_eq_some (s.childrenIdx.get? d)
  · simp [GoMap.getD,hnone]
  · rw [GoMap.getD,hm,Option.getD_some,map_map]
    have hkeys : m.map ((·.path) ∘ (·.2))=m.keys := map_congr_left fun c hc => ((h.groups d m hm).2 c hc).1
    rw [hkeys]
    exact h.unique d m hm

/-- Levels are apart by their depth, and in a level the parts are apart by their parents. -/
lemma subtreeLevels_nodup (h : MirrorTree s) {n : ℕ} (hnodup : (level.map (·.path)).Nodup)
    (hdepth : ∀ e∈level,e.path.length=n) : ((subtreeLevels s fuel level).map (·.path)).Nodup := by
  induction fuel generalizing n level with
  | zero => exact nodup_nil
  | succ fuel ih =>
    rw [subtreeLevels]
    set next := (level.filter (·.isDir)).flatMap fun e => s.listChildren e.path with hdef
    have hdirs : ((level.filter (·.isDir)).map (·.path)).Nodup := hnodup.sublist (filter_sublist.map _)
    have hnext : (next.map (·.path)).Nodup := by
      rw [hdef,map_flatMap]
      refine nodup_flatMap_of_source (g := parentPath) hdirs (fun e _ => h.listChildren_nodup e.path) fun e _ y hy => ?_
      obtain ⟨x,hx,rfl⟩ := mem_map.mp hy
      exact (h.mem_listChildren.mp hx).2
    have hlength : ∀ y∈next,y.path.length=n+1 := by
      intro y hy
      obtain ⟨e,he,hy⟩ := mem_flatMap.mp hy
      rw [h.length_of_child hy,hdepth e (mem_filter.mp he).1]
    rw [map_append]
    refine hnext.append (ih hnext hlength) fun p hp hq => ?_
    obtain ⟨x,hx,rfl⟩ := mem_map.mp hp
    obtain ⟨y,hy,hxy⟩ := mem_map.mp hq
    obtain ⟨_,e,he,hlt⟩ := h.cached_of_subtreeLevels hy
    rw [hxy,hlength x hx,hlength e he] at hlt
    omega

lemma collectSubtreeEntries_nodup (h : MirrorTree s) (d : TreePath) : ((collectSubtreeEntries s d).map (·.path)).Nodup := by
  have hchildren := h.listChildren_nodup d
  unfold collectSubtreeEntries
  rw [map_append]
  refine hchildren.append (h.subtreeLevels_nodup hchildren fun e he => h.length_of_child he) fun p hp hq => ?_
  obtain ⟨x,hx,rfl⟩ := mem_map.mp hp
  obtain ⟨y,hy,hxy⟩ := mem_map.mp hq
  obtain ⟨_,e,he,hlt⟩ := h.cached_of_subtreeLevels hy
  rw [hxy,h.length_of_child hx,h.length_of_child he] at hlt
  omega

end MirrorTree

section Pruned
variable {env : ReconcileEnv} {s : Store} {parent : TreePath} {fresh : List Name} {pinned : List TreePath} {x c : Entry}

lemma mem_verifiedRoots (h : MirrorTree s) (hc : c∈verifiedRoots env s parent fresh pinned) :
    s.pathCache.get? c.path=some c ∧ parentPath c.path=parent ∧ baseName c.path ∉ fresh ∧ c.localOnly=false ∧
      env.spool c.path=false ∧ c.path ∉ pinned ∧ (env.fuseRoot=true → env.lstat c.path=.absent) := by
  simp only [verifiedRoots,pruneCandidates,mem_filter,h.mem_listChildren,Bool.and_eq_true,Bool.not_eq_true',
    Bool.or_eq_true,decide_eq_true_eq,contains_eq_mem,decide_eq_false_iff_not] at hc
  obtain ⟨⟨⟨⟨hcached,hparent⟩,⟨⟨hfresh,hlocal⟩,_⟩,_⟩,hspool,hpinned⟩,hlstat⟩ := hc
  exact ⟨hcached,hparent,hfresh,hlocal,hspool,hpinned,fun hroot => hlstat.resolve_left (by simp [hroot])⟩

lemma mem_expandedRoots (h : MirrorTree s) : x∈expandedRoots env s parent fresh pinned ↔
    s.pathCache.get? x.path=some x ∧ ∃ c∈verifiedRoots env s parent fresh pinned,c.path <+: x.path := by
  simp only [expandedRoots,mem_flatMap,mem_cons,h.mem_collectSubtreeEntries]
  constructor
  · rintro ⟨c,hc,rfl | ⟨hcached,hbelow⟩⟩
    · exact ⟨(mem_verifiedRoots h hc).1,x,hc,prefix_rfl⟩
    · simp only [below,Bool.and_eq_true,List.isPrefixOf_iff_prefix] at hbelow
      exact ⟨hcached,c,hc,hbelow.1⟩
  · rintro ⟨hcached,c,hc,hpre⟩
    refine ⟨c,hc,?_⟩
    by_cases heq : x.path=c.path
    · have hsame := (mem_verifiedRoots h hc).1
      rw [← heq,hcached] at hsame
      exact .inl (Option.some.inj hsame)
    · exact .inr ⟨hcached,below_of_isPrefixOf hpre heq⟩

lemma expandedRoots_nodup (h : MirrorTree s) : ((expandedRoots env s parent fresh pinned).map (·.path)).Nodup := by
  have hroots : ((verifiedRoots env s parent fresh pinned).map (·.path)).Nodup :=
    (h.listChildren_nodup parent).sublist (((filter_sublist.trans filter_sublist).trans filter_sublist).map _)
  have hdepth : ∀ c∈verifiedRoots env s parent fresh pinned,c.path.length=parent.length+1 := by
    intro c hc
    obtain ⟨hcached,hparent,_⟩ := mem_verifiedRoots h hc
    exact h.length_of_child (h.mem_listChildren.mpr ⟨hcached,hparent⟩)
  unfold expandedRoots
  rw [map_flatMap]
  -- the root of a path is its first part of that depth
  refine nodup_flatMap_of_source (g := List.take (parent.length+1)) hroots (fun c hc => ?_) fun c hc y hy => ?_
  · rw [map_cons]
    refine nodup_cons.mpr ⟨fun hmem => ?_,h.collectSubtreeEntries_nodup c.path⟩
    obtain ⟨x,hx,heq⟩ := mem_map.mp hmem
    have hbelow := (h.mem_collectSubtreeEntries.mp hx).2
    rw [heq] at hbelow
    simp [below] at hbelow
  · obtain ⟨x,hx,rfl⟩ := mem_map.mp hy
    have hpre : c.path <+: x.path := by
      obtain rfl | hx := mem_cons.mp hx
      · exact prefix_rfl
      · exact collectSubtreeEntries_prefix h.groups hx
    rw [← hdepth c hc]
    exact (prefix_iff_eq_take.mp hpre).symm

lemma mem_prunedEntries (hx : x∈prunedEntries env s parent fresh pinned) : x∈expandedRoots env s parent fresh pinned ∧
      ∀ y∈expandedRoots env s parent fresh pinned,protectedEntry env pinned y=true → ¬x.path <+: y.path := by
  obtain ⟨hexpanded,hspared⟩ := mem_filter.mp hx
  refine ⟨hexpanded,fun y hy hprotected hpre => ?_⟩
  rw [Bool.not_eq_true',List.any_eq_false] at hspared
  exact hspared y (mem_filter.mpr ⟨hy,hprotected⟩) (List.isPrefixOf_iff_prefix.mpr hpre)

lemma prunedEntries_closed (h : MirrorTree s) {y : Entry} (hx : x∈prunedEntries env s parent fresh pinned)
    (hy : s.pathCache.get? y.path=some y) (hpre : x.path <+: y.path) : y∈prunedEntries env s parent fresh pinned := by
  obtain ⟨hexpanded,hspared⟩ := mem_prunedEntries hx
  obtain ⟨_,c,hc,hroot⟩ := (mem_expandedRoots h).mp hexpanded
  refine mem_filter.mpr ⟨(mem_expandedRoots h).mpr ⟨hy,c,hc,hroot.trans hpre⟩,?_⟩
  rw [Bool.not_eq_true',List.any_eq_false]
  intro z hz hyz
  obtain ⟨hz,hprotected⟩ := mem_filter.mp hz
  exact hspared z hz hprotected (hpre.trans (List.isPrefixOf_iff_prefix.mp hyz))

lemma deletePathsConditional_admits (h : MirrorTree s)
    (hheld : ∀ e∈prunedEntries env s parent fresh pinned,e.path ∉ env.obs.paths) :
    (s.deletePathsConditional (prunedEntries env s parent fresh pinned) env.obs).isSome=true := by
  set entries := prunedEntries env s parent fresh pinned with hentries
  have hcached : ∀ e∈entries,s.pathCache.get? e.path=some e := fun e he =>
    ((mem_expandedRoots h).mp (mem_prunedEntries he).1).1
  have hversion : ∀ e∈entries,¬e.version=.zero ∧ e.version.path=e.path := by
    intro e he
    obtain ⟨_,r,_,_,htoken⟩ := h.cached e.path e (hcached e he)
    simp [htoken,MirrorToken.path]
  have hnodup : (entries.map (·.path)).Nodup := (expandedRoots_nodup h).sublist (filter_sublist.map _)
  -- a child of a pruned directory is pruned with it, in the table and in the cache
  have hselected : ∀ e∈entries,∀ p y,s.pathCache.get? p=some y → parentPath p=e.path → y∈entries ∧ y.path=p := by
    intro e he p y hy hparent
    have hpath := h.path_eq hy
    refine ⟨prunedEntries_closed h he (by rw [hpath]; exact hy) ?_,hpath⟩
    rw [hpath,← hparent]
    exact parentPath_prefix p
  have hdeletable : ∀ e∈entries,s.conditionallyDeletable entries e=true := by
    intro e he
    obtain ⟨_,r,hr,_,htoken⟩ := h.cached e.path e (hcached e he)
    have hrows : ∀ c∈s.entries,parentPath c.1≠e.path ∨ entries.any (·.path=c.1)=true := by
      intro c hc
      by_cases hparent : parentPath c.1=e.path
      · obtain hnone | ⟨row,hrow⟩ := Option.eq_none_or_eq_some (s.entries.get? c.1)
        · exact absurd (mem_map.mpr ⟨c,hc,rfl⟩) (not_mem_keys hnone)
        · obtain ⟨y,hy⟩ := Option.isSome_iff_exists.mp (h.rows c.1 row hrow)
          obtain ⟨hmem,hpath⟩ := hselected e he c.1 y hy hparent
          exact .inr (List.any_eq_true.mpr ⟨y,hmem,decide_eq_true hpath⟩)
      · exact .inl hparent
    have hgroup : ∀ c∈s.childrenIdx.getD e.path [],
        entries.any (fun x => x.path=c.1 && x.version=c.2.version)=true := by
      intro c hc
      have hchild : c.2∈s.listChildren e.path := mem_map.mpr ⟨c,hc,rfl⟩
      obtain ⟨hget,hparent⟩ := h.mem_listChildren.mp hchild
      have hkey : c.2.path=c.1 := by
        obtain hnone | ⟨m,hm⟩ := Option.eq_none_or_eq_some (s.childrenIdx.get? e.path)
        · simp [GoMap.getD,hnone] at hc
        · rw [GoMap.getD,hm] at hc
          exact ((h.groups e.path m hm).2 c hc).1
      exact List.any_eq_true.mpr ⟨c.2,(hselected e he _ c.2 hget hparent).1,by simp [hkey]⟩
    simp only [Store.conditionallyDeletable,hcached e he,htoken,Store.validateExpected,Store.captureToken,hr,decide_true,
      Option.all_some,Bool.true_and,Bool.or_eq_true,Bool.and_eq_true,List.all_eq_true,decide_eq_true_eq]
    exact .inr ⟨hrows,hgroup⟩
  have hpaths : ∀ p∈entries.map (·.path),p ∉ env.obs.paths := by
    intro p hp
    obtain ⟨e,he,rfl⟩ := mem_map.mp hp
    exact hheld e he
  unfold Store.deletePathsConditional
  rw [if_neg]
  · rfl
  · simp only [Bool.or_eq_true,List.any_eq_true,not_or,not_exists,not_and,decide_eq_true_eq,Bool.not_eq_true',
      decide_eq_false_iff_not,not_not,List.all_eq_false,contains_eq_mem,Bool.not_eq_true]
    exact ⟨⟨⟨hversion,hnodup⟩,hpaths⟩,fun e he => by simp [hdeletable e he]⟩

lemma deletePathsConditional_removes {t : Store} {entries : List Entry} {obs : Observation}
    (hdel : s.deletePathsConditional entries obs=some t) (hx : x∈entries) : t.entries.get? x.path=none := by
  unfold Store.deletePathsConditional at hdel
  extract_lets paths cached at hdel
  split_ifs at hdel
  cases hdel
  rw [foldl_removeCached_entries]
  exact foldl_deleteRow_none (.inr (mem_map_of_mem hx))

lemma scopedPrune_removed {q : TreePath} (hrow : (s.entries.get? q).isSome=true)
    (hgone : (scopedPrune env s parent fresh).entries.get? q=none) :
    ∃ pinned t,env.pinned=some pinned ∧ scopedPrune env s parent fresh=t ∧
      s.deletePathsConditional (prunedEntries env s parent fresh pinned) env.obs=some t ∧
      ∃ x∈prunedEntries env s parent fresh pinned,x.path=q := by
  obtain hsame | ⟨pinned,hpinned,hprune⟩ := scopedPrune_cases env s parent fresh
  · rw [hsame] at hgone
    simp [hgone] at hrow
  cases hdel : s.deletePathsConditional (prunedEntries env s parent fresh pinned) env.obs with
  | none =>
    rw [hprune,hdel,Option.getD_none] at hgone
    simp [hgone] at hrow
  | some t =>
    rw [hdel,Option.getD_some] at hprune
    refine ⟨pinned,t,hpinned,hprune,hdel,?_⟩
    by_contra hnot
    have hframe := (deletePathsConditional_frame hdel).2 q fun hmem => hnot (mem_map.mp hmem)
    rw [hprune,hframe] at hgone
    simp [hgone] at hrow

end Pruned

/-- A row that a scoped prune deletes has nothing protected at it or below it, and everything below it is
deleted too. It lies at or below a child of the directory that is absent from the listing, is not
protected and answered ENOENT, when there is a mount to ask. No other row changes. Only a path that an
accepted publication holds refuses the deletion. -/
theorem scoped_prune_spares_protected {s : Store} (h : MirrorTree s) (env : ReconcileEnv) (parent : TreePath)
    (fresh : List Name) : (∀ q,(s.entries.get? q).isSome = true → (scopedPrune env s parent fresh).entries.get? q = none →
      (∀ x e,s.pathCache.get? x = some e → q <+: x → e.localOnly = false ∧ env.spoolAgain x = false ∧
        ∀ pinned,env.pinned = some pinned → x ∉ pinned) ∧
      (∀ x,q <+: x → (scopedPrune env s parent fresh).entries.get? x = none) ∧
      ∃ c e,s.pathCache.get? c = some e ∧ c <+: q ∧ parentPath c = parent ∧ baseName c ∉ fresh ∧ e.localOnly = false ∧
        env.spool c = false ∧ (∀ pinned,env.pinned = some pinned → c ∉ pinned) ∧
        (env.fuseRoot = true → env.lstat c = .absent)) ∧
    (∀ q,(scopedPrune env s parent fresh).entries.get? q = s.entries.get? q ∨
      (scopedPrune env s parent fresh).entries.get? q = none) ∧
    ∀ pinned,(∀ e ∈ prunedEntries env s parent fresh pinned,e.path ∉ env.obs.paths) →
      (s.deletePathsConditional (prunedEntries env s parent fresh pinned) env.obs).isSome = true := by
  refine ⟨fun q hrow hgone => ?_,fun q => ?_,fun pinned => deletePathsConditional_admits h⟩
  · obtain ⟨pinned,t,hpinned,hprune,hdel,x,hx,rfl⟩ := scopedPrune_removed hrow hgone
    have hpins : ∀ y,y ∉ pinned → ∀ set,env.pinned=some set → y ∉ set := by
      intro y hy set hset
      rw [hpinned,Option.some.injEq] at hset
      exact hset ▸ hy
    obtain ⟨hexpanded,hspared⟩ := mem_prunedEntries hx
    obtain ⟨hcached,c,hc,hroot⟩ := (mem_expandedRoots h).mp hexpanded
    refine ⟨fun y e he hpre => ?_,fun y hpre => ?_,?_⟩
    · have hpath := h.path_eq he
      have hmem : e ∈ expandedRoots env s parent fresh pinned :=
        (mem_expandedRoots h).mpr ⟨by rw [hpath]; exact he,c,hc,by rw [hpath]; exact hroot.trans hpre⟩
      have hfree : protectedEntry env pinned e≠true := fun hprotected => hspared e hmem hprotected (by rw [hpath]; exact hpre)
      simp only [protectedEntry,hpath,ne_eq,Bool.or_eq_true,not_or,Bool.not_eq_true,contains_eq_mem,
        decide_eq_false_iff_not] at hfree
      exact ⟨hfree.1.1,hfree.2,hpins y hfree.1.2⟩
    · rw [hprune]
      obtain hnone | ⟨r,hr⟩ := Option.eq_none_or_eq_some (s.entries.get? y)
      · by_cases hmem : y ∈ (prunedEntries env s parent fresh pinned).map (·.path)
        · obtain ⟨e,he,rfl⟩ := mem_map.mp hmem
          exact deletePathsConditional_removes hdel he
        · rw [(deletePathsConditional_frame hdel).2 y hmem]
          exact hnone
      · obtain ⟨e,he⟩ := Option.isSome_iff_exists.mp (h.rows y r hr)
        have hpath := h.path_eq he
        have hmem := prunedEntries_closed h hx (by rw [hpath]; exact he) (by rw [hpath]; exact hpre)
        rw [← hpath]
        exact deletePathsConditional_removes hdel hmem
    · obtain ⟨hget,hparent,hfresh,hlocal,hspool,hfree,hlstat⟩ := mem_verifiedRoots h hc
      exact ⟨c.path,c,hget,hroot,hparent,hfresh,hlocal,hspool,hpins c.path hfree,hlstat⟩
  · obtain hsame | ⟨pinned,_,hprune⟩ := scopedPrune_cases env s parent fresh
    · exact .inl (by rw [hsame])
    cases hdel : s.deletePathsConditional (prunedEntries env s parent fresh pinned) env.obs with
    | none =>
      rw [hprune,hdel]
      exact .inl rfl
    | some t =>
      rw [hprune,hdel,Option.getD_some]
      by_cases hmem : q ∈ (prunedEntries env s parent fresh pinned).map (·.path)
      · obtain ⟨e,he,rfl⟩ := mem_map.mp hmem
        exact .inr (deletePathsConditional_removes hdel he)
      · exact .inl ((deletePathsConditional_frame hdel).2 q hmem)

def twoFiles : Store :=
  [StoreOp.insert ⟨[['d']],true,0,5,0,false,false,.zero,0⟩,.insert ⟨[['d'],['a']],false,1,6,0,false,false,.zero,0⟩,
    .insert ⟨[['d'],['b']],false,1,7,0,false,false,.zero,0⟩].foldl storeStep {}

/-- Every Lstat answers ENOENT, and these paths are pinned. -/
def allAbsent (pinned : List TreePath) : ReconcileEnv where
  raw := some []
  attrs _ := none
  admittedChunks := 1
  pinned := some pinned
  lstat _ := .absent

lemma twoFiles_tree : MirrorTree twoFiles := by
  have hagree := agreement_of_run (show run tracedStep {} [.insert ⟨[['d']],true,0,5,0,false,false,.zero,0⟩,
    .insert ⟨[['d'],['a']],false,1,6,0,false,false,.zero,0⟩,.insert ⟨[['d'],['b']],false,1,7,0,false,false,.zero,0⟩] =
    some ⟨twoFiles,_⟩ from rfl)
  have hcached : ∀ c∈twoFiles.pathCache,(twoFiles.entries.get? c.1).any (fun r => r.isDir=c.2.isDir &&
      c.2.version=.row c.1 r.incarnation r.revision)=true := by decide +kernel
  have hrows : ∀ c∈twoFiles.entries,(twoFiles.pathCache.get? c.1).isSome=true := by decide +kernel
  have hunique : ∀ c∈twoFiles.childrenIdx,c.2.keys.Nodup := by decide +kernel
  have hparents : ∀ c∈twoFiles.pathCache,c.1≠[] ∧
      (parentPath c.1=[] ∨ (twoFiles.pathCache.get? (parentPath c.1)).any (·.isDir)=true) := by decide +kernel
  refine ⟨fun p e he => ⟨hagree.path p e he,?_⟩,fun p r hr => hrows _ (mem_of_get? hr),hagree.children,hagree.groups,
    fun d m hm => hunique _ (mem_of_get? hm),fun p e he => ?_⟩
  · obtain ⟨r,hr,hsame⟩ := (Option.any_eq_true _ _).mp (hcached _ (mem_of_get? he))
    simp only [Bool.and_eq_true,decide_eq_true_eq] at hsame
    exact ⟨r,hr,hsame⟩
  · obtain ⟨hne,hparent⟩ := hparents _ (mem_of_get? he)
    exact ⟨hne,hparent.imp_right fun hdir => (Option.any_eq_true _ _).mp hdir⟩

/-- The pinned file stays with its directory, and the other file goes. -/
theorem scoped_prune_spares_pinned :
    ((scopedPrune (allAbsent [[['d'],['b']]]) twoFiles [] []).entries.get? [['d']]).isSome = true ∧
    (scopedPrune (allAbsent [[['d'],['b']]]) twoFiles [] []).entries.get? [['d'],['a']] = none := by
  refine ⟨?_,by decide +kernel⟩
  rw [Option.isSome_iff_ne_none]
  intro hgone
  obtain ⟨hspared,_⟩ := (scoped_prune_spares_protected twoFiles_tree (allAbsent [[['d'],['b']]]) [] []).1 [['d']]
    (by decide +kernel) hgone
  obtain ⟨e,he⟩ := Option.isSome_iff_exists.mp (show (twoFiles.pathCache.get? [['d'],['b']]).isSome = true by decide +kernel)
  exact (hspared _ e he (by decide)).2.2 _ rfl (mem_singleton_self _)

/-- A descendant goes without the absent root, which is over a pinned file. Without a mount to ask the
row of a path goes that Lstat would have found. A directory goes over a pinned path that has no row. -/
theorem descendant_pruned_without_root :
    (((scopedPrune (allAbsent [[['d'],['b']]]) twoFiles [] []).entries.get? [['d'],['a']]).isSome = false ∧
      ((scopedPrune (allAbsent [[['d'],['b']]]) twoFiles [] []).entries.get? [['d']]).isSome = true) ∧
    ((scopedPrune { allAbsent [] with fuseRoot := false, lstat := fun _ => .present } twoFiles [] []).entries.get?
      [['d']]).isSome = false ∧
    ((scopedPrune (allAbsent [[['d'],['c']]]) twoFiles [] []).entries.get? [['d']]).isSome = false := by
  refine ⟨⟨?_,?_⟩,?_,?_⟩
  all_goals decide +kernel

end JuiceMount.Metadata.Mirror
