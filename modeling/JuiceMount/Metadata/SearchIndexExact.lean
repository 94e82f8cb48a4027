import JuiceMount.Metadata.SearchIndex

/-! The search index has the rows that are not pending, once each and as they are, whenever a store is
serving and no large load is under way. -/
namespace JuiceMount.Metadata.Search
open Mirror Transition List Option

/-- The keys of the table. -/
structure Rowed (db : Db) : Prop where
  paths : (db.entries.map (·.path)).Nodup
  rowids : (db.entries.map (·.rowid)).Nodup

/-- A marker is that of a row, and what has no marker is indexed. -/
structure Indexed (db : Db) : Prop extends Rowed db where
  marked : ∀ n∈db.pending,∃ r∈db.entries,r.rowid=n
  once : db.pending.Nodup
  nodup : db.index.Nodup
  exact : ∀ r,r∈db.index ↔ r∈db.entries ∧ r.rowid ∉ db.pending

/-- Without deferral there are no markers. -/
structure Session (deferFTS : Bool) (db : Db) : Prop extends Indexed db where
  direct : deferFTS=false → db.pending=[]

lemma rowOf_some {db : Db} {p : TreePath} {r : Row} (h : db.rowOf p=some r) : r∈db.entries ∧ r.path=p :=
  ⟨mem_of_find?_eq_some h,of_decide_eq_true (find?_some (p := fun x : Row => decide (x.path=p)) h)⟩

lemma rowOf_none {db : Db} {p : TreePath} (h : db.rowOf p=none) : ∀ r∈db.entries,r.path≠p := by
  intro r hr
  simpa using find?_eq_none.mp h r hr

section Rows
variable {db : Db} {r x : Row} {p : TreePath} {db' : Db}

lemma Rowed.eq_of_path (h : Rowed db) (hr : r∈db.entries) (hx : x∈db.entries) (heq : r.path=x.path) : r=x :=
  inj_on_of_nodup_map h.paths hr hx heq

lemma Rowed.eq_of_rowid (h : Rowed db) (hr : r∈db.entries) (hx : x∈db.entries) (heq : r.rowid=x.rowid) : r=x :=
  inj_on_of_nodup_map h.rowids hr hx heq

lemma Rowed.filter (h : Rowed db) {f : Row → Bool} (hentries : db'.entries=db.entries.filter f) : Rowed db' := by
  constructor
  · rw [hentries]
    exact h.paths.sublist (filter_sublist.map _)
  · rw [hentries]
    exact h.rowids.sublist (filter_sublist.map _)

lemma Rowed.removeRow (h : Rowed db) (p : TreePath) : Rowed (db.removeRow p) := h.filter rfl

lemma mem_removeRow : r∈(db.removeRow p).entries ↔ r∈db.entries ∧ r.path≠p := by
  simp [Db.removeRow]

lemma Rowed.cons (h : Rowed db) (hentries : db'.entries=r::db.entries)
    (hpath : ∀ x∈db.entries,x.path≠r.path) (hrowid : ∀ x∈db.entries,x.rowid≠r.rowid) : Rowed db' := by
  rw [show Rowed db' ↔ (db'.entries.map (·.path)).Nodup ∧ (db'.entries.map (·.rowid)).Nodup from
    ⟨fun h => ⟨h.paths,h.rowids⟩,fun h => ⟨h.1,h.2⟩⟩,hentries]
  simp only [map_cons,nodup_cons,List.mem_map,not_exists,not_and]
  exact ⟨⟨hpath,h.paths⟩,hrowid,h.rowids⟩

lemma replaceRow_eq_some (h : db.replaceRow r=some db') :
    db' = {db with entries := r::(db.removeRow r.path).entries} ∧ ∀ x∈(db.removeRow r.path).entries,x.rowid≠r.rowid := by
  unfold Db.replaceRow at h
  split_ifs at h
  · rename_i hfree
    exact ⟨(Option.some.inj h).symm,by simpa using hfree⟩

lemma Rowed.replaceRow (h : Rowed db) (hreplace : db.replaceRow r=some db') : Rowed db' := by
  obtain ⟨rfl,hfree⟩ := replaceRow_eq_some hreplace
  exact (h.removeRow r.path).cons rfl (fun x hx => (mem_removeRow.mp hx).2) hfree

end Rows

section Statements
variable {deferFTS : Bool} {t t' : Tx} {r old : Row} {p : TreePath}

lemma ftsDeleteOldRowid_entries (t : Tx) (old : Row) (entries : List Row) :
    ftsDeleteOldRowid deferFTS {t with db := {t.db with entries := entries}} old =
      {ftsDeleteOldRowid deferFTS t old with db := {(ftsDeleteOldRowid deferFTS t old).db with entries := entries}} := by
  unfold ftsDeleteOldRowid
  split
  · split <;> rfl
  · rfl

lemma ftsDeleteOldRowid_same (t : Tx) (old : Row) : (ftsDeleteOldRowid deferFTS t old).db.entries=t.db.entries ∧
    (ftsDeleteOldRowid deferFTS t old).db.epoch=t.db.epoch := by
  unfold ftsDeleteOldRowid
  split
  · split <;> exact ⟨rfl,rfl⟩
  · exact ⟨rfl,rfl⟩

lemma ftsDeleteOldRowid_index (h : Session deferFTS t.db) (old : Row) :
    (ftsDeleteOldRowid deferFTS t old).db.index=(if old.rowid∈t.db.pending then t.db.index else t.db.index.erase old) ∧
    (ftsDeleteOldRowid deferFTS t old).db.pending=t.db.pending.filter (· ≠ old.rowid) ∧
    (ftsDeleteOldRowid deferFTS t old).legal=(t.legal && (decide (old.rowid∈t.db.pending) || t.db.index.contains old)) := by
  unfold ftsDeleteOldRowid
  cases deferFTS with
  | false =>
    have hnil := h.direct rfl
    simp [Tx.issue,Command.apply,Command.legal,hnil]
  | true =>
    by_cases hmem : old.rowid∈t.db.pending
    · simp [Tx.clearPending,hmem]
    · simp [Tx.clearPending,Tx.issue,Command.apply,Command.legal,hmem]

lemma Session.remove (h : Session deferFTS t.db) (hold : t.db.rowOf p=some old) :
    Session deferFTS ((ftsDeleteOldRowid deferFTS t old).db.removeRow p) ∧
      (ftsDeleteOldRowid deferFTS t old).legal=t.legal := by
  obtain ⟨hmem,rfl⟩ := rowOf_some hold
  obtain ⟨hindex,hpending,hlegal⟩ := ftsDeleteOldRowid_index h old
  have hentries : ∀ x,x∈((ftsDeleteOldRowid deferFTS t old).db.removeRow old.path).entries ↔ x∈t.db.entries ∧ x≠old := by
    intro x
    rw [mem_removeRow,(ftsDeleteOldRowid_same t old).1]
    exact and_congr_right fun hx => not_congr ⟨h.eq_of_path hx hmem,fun heq => heq ▸ rfl⟩
  have hrowid : ∀ x∈t.db.entries,x≠old → x.rowid≠old.rowid := fun x hx hne heq => hne (h.eq_of_rowid hx hmem heq)
  have hpend : ∀ n,n∈((ftsDeleteOldRowid deferFTS t old).db.removeRow old.path).pending ↔ n∈t.db.pending ∧ n≠old.rowid := by
    intro n
    show n∈(ftsDeleteOldRowid deferFTS t old).db.pending ↔ _
    rw [hpending,mem_filter,decide_eq_true_eq]
  refine ⟨⟨⟨h.filter (f := fun x => x.path≠old.path) ?_,fun n hn => ?_,?_,?_,fun x => ?_⟩,fun hd => ?_⟩,?_⟩
  · rw [← (ftsDeleteOldRowid_same t old).1]
    rfl
  · obtain ⟨hn,hne⟩ := (hpend n).mp hn
    obtain ⟨x,hx,rfl⟩ := h.marked n hn
    exact ⟨x,(hentries x).mpr ⟨hx,fun heq => hne (heq ▸ rfl)⟩,rfl⟩
  · show (ftsDeleteOldRowid deferFTS t old).db.pending.Nodup
    rw [hpending]
    exact h.once.filter _
  · show (ftsDeleteOldRowid deferFTS t old).db.index.Nodup
    rw [hindex]
    split
    · exact h.nodup
    · exact h.nodup.erase old
  · rw [hentries,hpend]
    show x∈(ftsDeleteOldRowid deferFTS t old).db.index ↔ _
    rw [hindex]
    by_cases hmarked : old.rowid∈t.db.pending
    · rw [if_pos hmarked,h.exact]
      constructor
      · rintro ⟨hx,hfree⟩
        exact ⟨⟨hx,fun heq => hfree (heq ▸ hmarked)⟩,fun hn => hfree hn.1⟩
      · rintro ⟨⟨hx,hne⟩,hfree⟩
        exact ⟨hx,fun hn => hfree ⟨hn,hrowid x hx hne⟩⟩
    · rw [if_neg hmarked,h.nodup.mem_erase_iff,h.exact]
      constructor
      · rintro ⟨hne,hx,hfree⟩
        exact ⟨⟨hx,hne⟩,fun hn => hfree hn.1⟩
      · rintro ⟨⟨hx,hne⟩,hfree⟩
        exact ⟨hne,hx,fun hn => hfree ⟨hn,hrowid x hx hne⟩⟩
  · show (ftsDeleteOldRowid deferFTS t old).db.pending=[]
    rw [hpending,h.direct hd]
    rfl
  · rw [hlegal]
    by_cases hmarked : old.rowid∈t.db.pending
    · simp [hmarked]
    · simp [(h.exact old).mpr ⟨hmem,hmarked⟩]

lemma Session.add (h : Session deferFTS t.db) (hpath : ∀ x∈t.db.entries,x.path≠r.path)
    (hrowid : ∀ x∈t.db.entries,x.rowid≠r.rowid) :
    Session deferFTS (ftsInsertNew deferFTS {t with db := {t.db with entries := r::t.db.entries}} r).db ∧
      (ftsInsertNew deferFTS {t with db := {t.db with entries := r::t.db.entries}} r).legal=t.legal := by
  have hnew : r ∉ t.db.entries := fun hmem => hpath r hmem rfl
  have hunmarked : r.rowid ∉ t.db.pending := by
    intro hn
    obtain ⟨x,hx,heq⟩ := h.marked _ hn
    exact hrowid x hx heq
  have hrowed : Rowed {t.db with entries := r::t.db.entries} := h.toRowed.cons rfl hpath hrowid
  unfold ftsInsertNew
  cases deferFTS with
  | false =>
    refine ⟨⟨⟨⟨hrowed.paths,hrowed.rowids⟩,fun n hn => ?_,h.once,?_,fun x => ?_⟩,h.direct⟩,?_⟩
    · obtain ⟨x,hx,heq⟩ := h.marked n hn
      exact ⟨x,mem_cons_of_mem r hx,heq⟩
    · exact nodup_cons.mpr ⟨fun hmem => hnew ((h.exact r).mp hmem).1,h.nodup⟩
    · show x∈r::t.db.index ↔ x∈r::t.db.entries ∧ x.rowid ∉ t.db.pending
      rw [mem_cons,mem_cons,h.exact]
      constructor
      · rintro (rfl | ⟨hx,hfree⟩)
        · exact ⟨.inl rfl,hunmarked⟩
        · exact ⟨.inr hx,hfree⟩
      · rintro ⟨rfl | hx,hfree⟩
        · exact .inl rfl
        · exact .inr ⟨hx,hfree⟩
    · refine Bool.and_eq_left_iff_imp.mpr fun _ => List.all_eq_true.mpr fun x hx => ?_
      exact decide_eq_true (hrowid x ((h.exact x).mp hx).1)
  | true =>
    have hmark : Tx.markPending {t with db := {t.db with entries := r::t.db.entries}} r.rowid =
        {t with db := {t.db with entries := r::t.db.entries, pending := r.rowid::t.db.pending}} := by
      unfold Tx.markPending
      rw [if_neg (by simpa using hunmarked)]
    rw [if_pos rfl,hmark]
    refine ⟨⟨⟨⟨hrowed.paths,hrowed.rowids⟩,fun n hn => ?_,nodup_cons.mpr ⟨hunmarked,h.once⟩,h.nodup,fun x => ?_⟩,nofun⟩,rfl⟩
    · obtain rfl | hn := mem_cons.mp hn
      · exact ⟨r,mem_cons_self,rfl⟩
      · obtain ⟨x,hx,heq⟩ := h.marked n hn
        exact ⟨x,mem_cons_of_mem r hx,heq⟩
    · show x∈t.db.index ↔ x∈r::t.db.entries ∧ x.rowid ∉ r.rowid::t.db.pending
      rw [h.exact,mem_cons,mem_cons,not_or]
      constructor
      · rintro ⟨hx,hfree⟩
        exact ⟨.inr hx,hrowid x hx,hfree⟩
      · rintro ⟨rfl | hx,hne,hfree⟩
        · exact absurd rfl hne
        · exact ⟨hx,hfree⟩

/-- A session after a statement whose commands were legal if those before it were. -/
def Kept (deferFTS : Bool) (t t' : Tx) : Prop := Session deferFTS t'.db ∧ t'.legal=t.legal

lemma ftsExternalUpsert_kept (h : Session deferFTS t.db) (hexec : ftsExternalUpsert deferFTS t r=some t') :
    Kept deferFTS t t' := by
  obtain ⟨db,hreplace,rfl⟩ := map_eq_some_iff.mp hexec
  obtain ⟨rfl,hfree⟩ := replaceRow_eq_some hreplace
  obtain hnone | ⟨old,hold⟩ := eq_none_or_eq_some (t.db.rowOf r.path)
  · have hpath := rowOf_none hnone
    have hkeep : (t.db.removeRow r.path).entries=t.db.entries :=
      filter_eq_self.mpr fun x hx => decide_eq_true (hpath x hx)
    rw [hkeep] at hfree
    simp only [hnone,hkeep]
    exact h.add hpath hfree
  · obtain ⟨hremoved,hlegal⟩ := h.remove hold
    simp only [hold,ftsDeleteOldRowid_entries]
    have hsame : (ftsDeleteOldRowid deferFTS t old).db.removeRow r.path =
        {(ftsDeleteOldRowid deferFTS t old).db with entries := (t.db.removeRow r.path).entries} := by
      rw [Db.removeRow,(ftsDeleteOldRowid_same t old).1]
      rfl
    rw [hsame] at hremoved
    obtain ⟨hadded,hlegal'⟩ := Session.add
      (t := {ftsDeleteOldRowid deferFTS t old with
        db := {(ftsDeleteOldRowid deferFTS t old).db with entries := (t.db.removeRow r.path).entries}})
      hremoved (fun x hx => (mem_removeRow.mp hx).2) hfree
    exact ⟨hadded,hlegal'.trans hlegal⟩

lemma ftsExternalInsertAbsent_kept (h : Session deferFTS t.db) (hexec : ftsExternalInsertAbsent deferFTS t r=some t') :
    Kept deferFTS t t' := by
  unfold ftsExternalInsertAbsent at hexec
  split at hexec
  · cases hexec
    exact ⟨h,rfl⟩
  rename_i hnone
  have hupsert : ftsExternalUpsert deferFTS t r=some t' := by
    unfold ftsExternalUpsert
    rw [not_isSome_iff_eq_none.mp hnone]
    exact hexec
  exact ftsExternalUpsert_kept h hupsert

lemma deletePath_kept (h : Session deferFTS t.db) (p : TreePath) : Kept deferFTS t (deletePath deferFTS t p) := by
  unfold deletePath
  obtain hnone | ⟨old,hold⟩ := eq_none_or_eq_some (t.db.rowOf p)
  · rw [hnone]
    exact ⟨h,rfl⟩
  · obtain ⟨hremoved,hlegal⟩ := h.remove hold
    rw [hold]
    simp only [Db.removeRow,ftsDeleteOldRowid_entries]
    rw [Db.removeRow,(ftsDeleteOldRowid_same t old).1] at hremoved
    exact ⟨hremoved,hlegal⟩

lemma deleteMirrorRow_kept (h : Session deferFTS t.db) (hexec : deleteMirrorRow deferFTS t p=some t') :
    Kept deferFTS t t' := by
  obtain ⟨old,hold,rfl⟩ := map_eq_some_iff.mp hexec
  exact h.remove hold

lemma Session.exec (h : Session deferFTS t.db) {statement : Statement} (hexec : statement.exec deferFTS t=some t') :
    Kept deferFTS t t' := by
  cases statement with
  | upsert r => exact ftsExternalUpsert_kept h hexec
  | insertAbsent r => exact ftsExternalInsertAbsent_kept h hexec
  | deletePath p =>
    cases hexec
    exact deletePath_kept h p
  | deleteMirrorRow p => exact deleteMirrorRow_kept h hexec

lemma Session.statements (h : Session deferFTS t.db) {statements : List Statement}
    (hexec : statements.foldlM (Statement.exec deferFTS) t=some t') : Kept deferFTS t t' := by
  induction statements generalizing t with
  | nil =>
    cases hexec
    exact ⟨h,rfl⟩
  | cons statement statements ih =>
    rw [foldlM_cons] at hexec
    obtain ⟨m,hm,hrest⟩ := bind_eq_some_iff.mp hexec
    obtain ⟨hsession,hlegal⟩ := h.exec hm
    obtain ⟨hsession',hlegal'⟩ := ih hsession hrest
    exact ⟨hsession',hlegal'.trans hlegal⟩

end Statements

section Compaction
variable {deferFTS : Bool} {t : Tx}

lemma Session.compactRow (h : Session deferFTS t.db) {n : ℤ} (hn : n∈t.db.pending) :
    Kept deferFTS t (compactRow t n) ∧ (compactRow t n).db.pending=t.db.pending.filter (· ≠ n) := by
  obtain ⟨r,hr,rfl⟩ := h.marked n hn
  have hfind : t.db.entries.find? (·.rowid=r.rowid)=some r := by
    obtain hnone | ⟨x,hx⟩ := eq_none_or_eq_some (t.db.entries.find? (·.rowid=r.rowid))
    · exact absurd (decide_eq_true rfl) (find?_eq_none.mp hnone r hr)
    · have heq := find?_some (p := fun x : Row => decide (x.rowid=r.rowid)) hx
      rw [hx,h.eq_of_rowid (mem_of_find?_eq_some hx) hr (of_decide_eq_true heq)]
  have hrow : Search.compactRow t r.rowid=(t.issue (.insert r)).clearPending r.rowid := by
    unfold Search.compactRow
    rw [hfind]
  have hunindexed : ∀ x∈t.db.index,x.rowid≠r.rowid := fun x hx heq => ((h.exact x).mp hx).2 (heq ▸ hn)
  have hpend : ∀ n,n∈t.db.pending.filter (· ≠ r.rowid) ↔ n∈t.db.pending ∧ n≠r.rowid := by simp
  rw [hrow]
  refine ⟨⟨⟨⟨⟨h.paths,h.rowids⟩,fun m hm => h.marked m ((hpend m).mp hm).1,h.once.filter _,?_,fun x => ?_⟩,fun hd => ?_⟩,?_⟩,rfl⟩
  · exact nodup_cons.mpr ⟨fun hmem => hunindexed r hmem rfl,h.nodup⟩
  · show x∈r::t.db.index ↔ x∈t.db.entries ∧ x.rowid ∉ t.db.pending.filter (· ≠ r.rowid)
    rw [mem_cons,h.exact,hpend]
    constructor
    · rintro (rfl | ⟨hx,hfree⟩)
      · exact ⟨hr,fun hm => hm.2 rfl⟩
      · exact ⟨hx,fun hm => hfree hm.1⟩
    · rintro ⟨hx,hfree⟩
      by_cases heq : x.rowid=r.rowid
      · exact .inl (h.eq_of_rowid hx hr heq)
      · exact .inr ⟨hx,fun hm => hfree ⟨hm,heq⟩⟩
  · rw [h.direct hd] at hn
    cases hn
  · exact Bool.and_eq_left_iff_imp.mpr fun _ => List.all_eq_true.mpr fun x hx => decide_eq_true (hunindexed x hx)

lemma Session.compactRows (h : Session deferFTS t.db) {rowids : List ℤ} (hnodup : rowids.Nodup)
    (hpending : ∀ n∈rowids,n∈t.db.pending) : Kept deferFTS t (rowids.foldl Search.compactRow t) := by
  induction rowids generalizing t with
  | nil => exact ⟨h,rfl⟩
  | cons n rowids ih =>
    obtain ⟨⟨hsession,hlegal⟩,hrest⟩ := h.compactRow (hpending n mem_cons_self)
    rw [nodup_cons] at hnodup
    obtain ⟨hsession',hlegal'⟩ := ih hsession hnodup.2 fun m hm => by
      rw [hrest,mem_filter]
      exact ⟨hpending m (mem_cons_of_mem n hm),decide_eq_true fun heq => hnodup.1 (heq ▸ hm)⟩
    exact ⟨hsession',hlegal'.trans hlegal⟩

lemma Session.compactFTSBatch {db : Db} (h : Session deferFTS db) (limit : ℤ) :
    Kept deferFTS ⟨db,true⟩ (Search.compactFTSBatch db limit) := by
  have hperm := perm_insertionSort (· ≤ ·) db.pending
  refine Session.compactRows h ?_ fun n hn => hperm.mem_iff.mp (mem_of_mem_take hn)
  exact (hperm.nodup_iff.mpr h.once).sublist (take_sublist _ _)

end Compaction

section Rebuild

lemma foldl_insert (entries : List Row) (t : Tx) :
    (entries.foldl (fun t r => t.issue (.insert r)) t).db = {t.db with index := entries.reverse++t.db.index} ∧
    ((entries.map (·.rowid)++t.db.index.map (·.rowid)).Nodup →
      (entries.foldl (fun t r => t.issue (.insert r)) t).legal=t.legal) := by
  induction entries generalizing t with
  | nil => exact ⟨rfl,fun _ => rfl⟩
  | cons r entries ih =>
    obtain ⟨hdb,hlegal⟩ := ih (t.issue (.insert r))
    refine ⟨?_,fun hnodup => ?_⟩
    · rw [foldl_cons,hdb]
      simp [Tx.issue,Command.apply]
    · have hperm : (entries.map (·.rowid)++r.rowid::t.db.index.map (·.rowid)).Nodup :=
        (perm_middle.nodup_iff).mpr hnodup
      rw [foldl_cons,hlegal hperm]
      rw [map_cons,cons_append,nodup_cons] at hnodup
      refine Bool.and_eq_left_iff_imp.mpr fun _ => List.all_eq_true.mpr fun x hx => decide_eq_true fun heq => ?_
      exact hnodup.1 (mem_append_right _ (List.mem_map.mpr ⟨x,hx,heq⟩))

lemma rebuildFTS_db (db : Db) : (rebuildFTS db).db =
    {entries := db.entries, index := db.entries.reverse, pending := [], epoch := some .current} := by
  unfold rebuildFTS
  simp only [(foldl_insert db.entries _).1]
  simp [Tx.issue,Command.apply]

lemma Rowed.rebuildFTS {db : Db} (h : Rowed db) (deferFTS : Bool) : Kept deferFTS ⟨db,true⟩ (Search.rebuildFTS db) := by
  have hdb := rebuildFTS_db db
  constructor
  · rw [hdb]
    refine ⟨⟨⟨h.paths,h.rowids⟩,nofun,nodup_nil,?_,fun r => ?_⟩,fun _ => rfl⟩
    · exact nodup_reverse.mpr (List.Nodup.of_map _ h.paths)
    · simp
  · refine (foldl_insert db.entries _).2 ?_
    simpa [Tx.issue,Command.apply] using h.rowids

end Rebuild

section Runs

variable {db : Db} {deferFTS : Bool} {s : Store}

lemma Rowed.congr {db' : Db} (h : Rowed db) (hentries : db'.entries=db.entries) : Rowed db' :=
  ⟨hentries ▸ h.paths,hentries ▸ h.rowids⟩

lemma ftsInsertNew_entries (t : Tx) (r : Row) : (ftsInsertNew deferFTS t r).db.entries=t.db.entries := by
  unfold ftsInsertNew Tx.markPending
  split
  · split <;> rfl
  · rfl

lemma Rowed.exec {t t' : Tx} {statement : Statement} (h : Rowed t.db)
    (hexec : statement.exec deferFTS t=some t') : Rowed t'.db := by
  cases statement with
  | upsert r =>
    obtain ⟨db,hreplace,rfl⟩ := map_eq_some_iff.mp hexec
    refine (h.replaceRow hreplace).congr ?_
    rw [ftsInsertNew_entries]
    split
    · exact (ftsDeleteOldRowid_same _ _).1
    · rfl
  | insertAbsent r =>
    simp only [Statement.exec,ftsExternalInsertAbsent] at hexec
    split at hexec
    · cases hexec
      exact h
    · obtain ⟨db,hreplace,rfl⟩ := map_eq_some_iff.mp hexec
      exact (h.replaceRow hreplace).congr (ftsInsertNew_entries _ r)
  | deletePath p =>
    cases hexec
    unfold Search.deletePath
    split
    · exact h
    · exact (h.removeRow p).congr (ftsDeleteOldRowid_same _ _).1
  | deleteMirrorRow p =>
    obtain ⟨old,_,rfl⟩ := map_eq_some_iff.mp hexec
    exact (h.congr (ftsDeleteOldRowid_same t old).1).removeRow p

lemma Rowed.foldlM {σ α : Type*} {f : σ → α → Option σ} (view : σ → Db)
    (hf : ∀ s a s',Rowed (view s) → f s a=some s' → Rowed (view s')) {s s' : σ} {as : List α} (h : Rowed (view s))
    (hrun : as.foldlM f s=some s') : Rowed (view s') := by
  induction as generalizing s with
  | nil =>
    cases hrun
    exact h
  | cons a as ih =>
    rw [foldlM_cons] at hrun
    obtain ⟨m,hm,hrest⟩ := bind_eq_some_iff.mp hrun
    exact ih (hf s a m h hm) hrest

lemma Rowed.load {db' : Db} {statement : LoadStatement} (h : Rowed db) (hexec : statement.exec db=some db') :
    Rowed db' := by
  cases statement with
  | upsert r => exact h.replaceRow hexec
  | insertAbsent r =>
    simp only [LoadStatement.exec] at hexec
    split at hexec
    · cases hexec
      exact h
    · exact h.replaceRow hexec

lemma compactFTSBatch_entries (db : Db) (limit : ℤ) : (compactFTSBatch db limit).db.entries=db.entries := by
  have hfold : ∀ (rowids : List ℤ) (t : Tx),(rowids.foldl compactRow t).db.entries=t.db.entries := by
    intro rowids
    induction rowids with
    | nil => exact fun _ => rfl
    | cons n rowids ih =>
      intro t
      refine (ih _).trans ?_
      unfold compactRow
      dsimp only [Tx.clearPending]
      split <;> rfl
  exact hfold _ _

/-- What holds in every state: a store whose index is behind has the dirty mark or is in a large load. -/
structure Valid (s : Store) : Prop where
  rowed : Rowed s.db
  clean : s.loading=false → s.db.epoch=some .dirty ∨ Indexed s.db
  serving : ∀ deferFTS ftsInitialized,s.phase = .serving deferFTS ftsInitialized → s.loading=false → Session deferFTS s.db

lemma Valid.finishOpen (h : Valid s) {forced : Bool} (hskip : openRebuilds s.db forced=false)
    (hload : s.loading=false) : Session deferFTS s.db := by
  simp only [openRebuilds,Bool.or_eq_false_iff,Bool.not_eq_false',List.isEmpty_iff] at hskip
  obtain hdirty | hindexed := h.clean hload
  · rw [hdirty] at hskip
    exact absurd hskip.2 (by decide)
  · exact ⟨hindexed,fun _ => hskip.1.1.1⟩

lemma Valid.step {s' : Store} {op : StoreOp} (h : Valid s) (hstep : step s op=some s') : Valid s' := by
  cases op with simp only [Search.step] at hstep
  | openDb deferFTS =>
    split_ifs at hstep
    cases hstep
    exact ⟨h.rowed,h.clean,nofun⟩
  | gcInternalNamespaces selected =>
    split at hstep
    case h_2 => cases hstep
    rename_i deferFTS hphase
    obtain ⟨db,hdb,rfl⟩ := map_eq_some_iff.mp hstep
    unfold Search.gcInternalNamespaces at hdb
    split at hdb
    case isFalse => cases hdb
    cases hdb
    refine ⟨h.rowed.filter rfl,fun hload => ?_,fun d i hserving => ?_⟩
    · cases selected with
      | nil =>
        simpa using h.clean hload
      | cons p selected => exact .inl rfl
    · rw [hphase] at hserving
      cases hserving
  | finishOpen forced =>
    split at hstep
    case h_2 => cases hstep
    rename_i deferFTS hphase
    cases hstep
    by_cases hrebuild : openRebuilds s.db forced=true
    · simp only [if_pos hrebuild]
      have hsession := (h.rowed.rebuildFTS deferFTS).1
      refine ⟨hsession.toRowed,fun _ => .inr hsession.toIndexed,fun d i hserving _ => ?_⟩
      cases hserving
      exact hsession
    · simp only [if_neg hrebuild]
      refine ⟨h.rowed,h.clean,fun d i hserving hload => ?_⟩
      cases hserving
      exact h.finishOpen (Bool.eq_false_iff.mpr hrebuild) hload
  | transaction statements =>
    obtain ⟨t,ht,rfl⟩ := map_eq_some_iff.mp hstep
    simp only [Store.tx] at ht
    split at ht
    case h_2 => cases ht
    rename_i deferFTS ftsInitialized hphase
    have hrowed : Rowed t.db := Rowed.foldlM Tx.db (fun t a t' => Rowed.exec) h.rowed ht
    have hkept : s.loading=false → Session deferFTS t.db := fun hload =>
      (Session.statements (h.serving _ _ hphase hload) ht).1
    refine ⟨hrowed,fun hload => .inr (hkept hload).toIndexed,fun d i hserving hload => ?_⟩
    rw [hphase] at hserving
    cases hserving
    exact hkept hload
  | loadBatch total batch =>
    split at hstep
    · split_ifs at hstep
      · obtain ⟨db,hdb,rfl⟩ := map_eq_some_iff.mp hstep
        exact ⟨Rowed.foldlM id (fun db a db' => Rowed.load) h.rowed hdb,nofun,fun _ _ _ => nofun⟩
    · cases hstep
  | markInitialized =>
    split at hstep
    · rename_i deferFTS ftsInitialized hphase
      cases hstep
      refine ⟨h.rowed,h.clean,fun d i hserving => ?_⟩
      cases hserving
      exact h.serving _ _ hphase
    · cases hstep
  | compactFTSBatch limit =>
    obtain ⟨t,ht,rfl⟩ := map_eq_some_iff.mp hstep
    simp only [Store.tx] at ht
    split at ht
    case h_2 => cases ht
    rename_i deferFTS ftsInitialized hphase
    cases ht
    have hkept : s.loading=false → Session deferFTS (Search.compactFTSBatch s.db limit).db := fun hload =>
      ((h.serving _ _ hphase hload).compactFTSBatch limit).1
    refine ⟨h.rowed.congr (compactFTSBatch_entries s.db limit),fun hload => .inr (hkept hload).toIndexed,
      fun d i hserving hload => ?_⟩
    rw [hphase] at hserving
    cases hserving
    exact hkept hload
  | rebuildFTS =>
    obtain ⟨t,ht,rfl⟩ := map_eq_some_iff.mp hstep
    simp only [Store.tx] at ht
    split at ht
    · cases ht
      have hsession := fun deferFTS => (h.rowed.rebuildFTS deferFTS).1
      exact ⟨(hsession false).toRowed,fun _ => .inr (hsession false).toIndexed,fun d i _ _ => hsession d⟩
    · cases ht
  | stop =>
    cases hstep
    exact ⟨h.rowed,h.clean,nofun⟩

/-- The index is the rows without those that are pending, each once. -/
def Db.IndexExact (db : Db) : Prop :=
  db.index.Perm (db.entries.filter (fun r => !db.pending.contains r.rowid)) ∧ ∀ n∈db.pending,∃ r∈db.entries,r.rowid=n

lemma Indexed.indexExact (h : Indexed db) : db.IndexExact := by
  have hnodup : db.entries.Nodup := List.Nodup.of_map _ h.paths
  refine ⟨(perm_ext_iff_of_nodup h.nodup (hnodup.filter _)).mpr fun r => ?_,h.marked⟩
  rw [h.exact,mem_filter]
  simp

lemma Session.legal {ftsInitialized : Bool} (hphase : s.phase=.serving deferFTS ftsInitialized)
    (h : Session deferFTS s.db) {op : StoreOp} {t : Tx} (ht : s.tx op=some t) : t.legal=true := by
  cases op <;> simp only [Store.tx,hphase] at ht
  case transaction statements => exact (Session.statements (t := ⟨s.db,true⟩) h ht).2
  case compactFTSBatch limit =>
    cases ht
    exact (h.compactFTSBatch limit).2
  case rebuildFTS =>
    cases ht
    exact (h.toRowed.rebuildFTS deferFTS).2
  all_goals cases ht

end Runs

/-- After every sequence of transactions, restarts and crashes from a new database. Outside of a large load
the index is the rows that are not pending, or it is marked dirty. In a serving store it is never marked
dirty: the index is exact, it is all rows once nothing is pending, and the next transaction adds only
what is not indexed and subtracts only what is. A rebuild makes the index exact from any state. -/
theorem search_index_matches_mirror {ops : List StoreOp} {s : Store} (hrun : run step {} ops = some s) :
    (s.loading = false → s.db.epoch = some .dirty ∨ s.db.IndexExact) ∧
    (∀ deferFTS ftsInitialized,s.phase = .serving deferFTS ftsInitialized → s.loading = false →
      s.db.IndexExact ∧ (s.db.pending = [] → s.db.index.Perm s.db.entries) ∧ ∀ op t,s.tx op = some t → t.legal = true) ∧
    (∀ s',step s .rebuildFTS = some s' → s'.db.IndexExact ∧ s'.db.pending = [] ∧ s'.db.index.Perm s'.db.entries) := by
  have hvalid : Valid s := by
    refine run_invariant (fun s op s' h hstep => h.step hstep) ?_ hrun
    exact ⟨⟨nodup_nil,nodup_nil⟩,fun _ => .inr ⟨⟨nodup_nil,nodup_nil⟩,nofun,nodup_nil,
      nodup_nil,fun r => by simp⟩,nofun⟩
  have hall : ∀ db : Db,db.IndexExact → db.pending=[] → db.index.Perm db.entries := by
    intro db hexact hnil
    have hperm := hexact.1
    simpa [hnil] using hperm
  refine ⟨fun hload => (hvalid.clean hload).imp_right Indexed.indexExact,fun deferFTS ftsInitialized hphase hload => ?_,
    fun s' hstep => ?_⟩
  · have hsession := hvalid.serving _ _ hphase hload
    exact ⟨hsession.indexExact,hall _ hsession.indexExact,fun op t => hsession.legal hphase⟩
  · obtain ⟨t,ht,rfl⟩ := map_eq_some_iff.mp hstep
    simp only [Store.tx] at ht
    split at ht
    · cases ht
      have hsession := (hvalid.rowed.rebuildFTS false).1
      exact ⟨hsession.indexExact,hsession.direct rfl,hall _ hsession.indexExact (hsession.direct rfl)⟩
    · cases ht

/-- Two files are written with deferral, one of them is indexed, the other is renamed, and the flag is taken
back at a restart. -/
def deferredRename : List StoreOp :=
  [.openDb true,.finishOpen false,.transaction [.upsert ⟨1,['a'],[['a']]⟩,.upsert ⟨2,['b'],[['b']]⟩],.compactFTSBatch 1,
    .transaction [.deleteMirrorRow [['b']],.upsert ⟨2,['c'],[['c']]⟩],.stop,.openDb false,.finishOpen false,
    .transaction [.deletePath [['a']]]]

theorem search_index_matches_renamed : ∃ s,run step {} deferredRename = some s ∧ s.phase = .serving false true ∧
    s.db.entries = [⟨2,['c'],[['c']]⟩] ∧ s.db.index.Perm s.db.entries := by
  obtain ⟨s,hs,hview⟩ := map_eq_some_iff.mp (show (run step {} deferredRename).map
    (fun s => (s.phase,s.loading,s.db.pending,s.db.entries)) =
      some (Phase.serving false true,false,[],[⟨2,['c'],[['c']]⟩]) by decide +kernel)
  simp only [Prod.mk.injEq] at hview
  obtain ⟨hphase,hload,hpending,hentries⟩ := hview
  exact ⟨s,hs,hphase,hentries,((search_index_matches_mirror hs).2.1 _ _ hphase hload).2.1 hpending⟩

/-- The namespace GC of an Open commits a row away that stays indexed until the rebuild; the first batch of a
large load commits a row that is neither indexed nor pending. -/
theorem index_behind_bare_rows :
    (∃ s,run step {} [.openDb false,.finishOpen false,.transaction [.upsert ⟨1,['x'],[".trash".toList,['x']]⟩],.stop,
      .openDb false,.gcInternalNamespaces [[".trash".toList,['x']]]] = some s ∧
      s.db.entries = [] ∧ s.db.index = [⟨1,['x'],[".trash".toList,['x']]⟩] ∧ s.db.pending = []) ∧
    (∃ s,run step {} [.openDb false,.finishOpen false,.loadBatch 5000 [.upsert ⟨1,['x'],[['x']]⟩]] = some s ∧
      s.db.entries = [⟨1,['x'],[['x']]⟩] ∧ s.db.index = [] ∧ s.db.pending = []) := by
  constructor
  all_goals
    refine ⟨_,rfl,?_,?_,?_⟩
    all_goals decide +kernel

end JuiceMount.Metadata.Search
