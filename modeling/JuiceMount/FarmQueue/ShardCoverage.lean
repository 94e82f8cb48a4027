import JuiceMount.FarmQueue.Shards

/-! What a successful publication covers. The ID of a legacy child tells its targets, so a record that
exists is one of a child with these targets. The ID of a tracked child does not: the targets of a run are
covered where the published shards have the targets that the run has at their index. -/
namespace JuiceMount.FarmQueue.Shards
open JuiceMount.Lists Transition Store List GoMap Option

section Names
variable {digest : List Text → Text} {parent : Parent} {pieces : Set (List Text)}

lemma ofDigitChars_zeros (k : ℕ) (l : Text) : Nat.ofDigitChars 10 (List.replicate k '0'++l) 0=Nat.ofDigitChars 10 l 0 := by
  induction k with
  | zero => rfl
  | succ k ih => rw [replicate_succ,cons_append,Nat.ofDigitChars_cons]; simpa using ih

lemma pad4_injective : Function.Injective pad4 := fun m n h => by
  have hm := ofDigitChars_zeros (4-(Nat.toDigits 10 m).length) (Nat.toDigits 10 m)
  have hn := ofDigitChars_zeros (4-(Nat.toDigits 10 n).length) (Nat.toDigits 10 n)
  rw [Nat.ofDigitChars_ten_toDigits] at hm hn
  rw [← hm,← hn]
  exact congrArg (Nat.ofDigitChars 10 · 0) h

lemma trackedShardID_injective (parent : Parent) : Function.Injective (trackedShardID parent) := fun i j h => by
  have := pad4_injective (append_cancel_left h)
  omega

/-- A digest of 16 characters without a collision among the pieces. -/
structure Digest (digest : List Text → Text) (pieces : Set (List Text)) : Prop where
  length : ∀ ts,(digest ts).length=16
  injOn : Set.InjOn digest pieces

/-- The ID is one of a legacy child with these targets; `suffix` is empty or the index. -/
def Named (digest : List Text → Text) (parent : Parent) (id : Text) (ts : List Text) : Prop :=
  ∃ suffix,id = parent.id++shardInfix++digest ts++suffix

lemma Digest.append_inj (h : Digest digest pieces) {ts ts' : List Text} {a b : Text}
    (heq : parent.id++shardInfix++digest ts++a=parent.id++shardInfix++digest ts'++b) : digest ts=digest ts' ∧ a=b := by
  rw [append_assoc,append_assoc (parent.id++shardInfix)] at heq
  exact List.append_inj (append_cancel_left heq) (by rw [h.length,h.length])

lemma Digest.named_unique (h : Digest digest pieces) {id : Text} {ts ts' : List Text} (hn : Named digest parent id ts)
    (hn' : Named digest parent id ts') (hts : ts∈pieces) (hts' : ts'∈pieces) : ts=ts' := by
  obtain ⟨a,rfl⟩ := hn
  obtain ⟨b,heq⟩ := hn'
  exact h.injOn hts hts' (h.append_inj heq).1

lemma legacyShardID_cases (digest : List Text → Text) (parent : Parent) (seen : List Text) (i : ℕ) (ts : List Text) :
    (legacyShardID digest parent seen i ts=parent.id++shardInfix++digest ts++[] ∧
      legacyShardID digest parent seen i ts ∉ seen) ∨
    legacyShardID digest parent seen i ts=parent.id++shardInfix++digest ts++(['-']++pad4 (i+1)) := by
  by_cases hseen : seen.contains (parent.id++shardInfix++digest ts)=true
  · refine .inr ?_
    simp only [legacyShardID,if_pos hseen]
    rw [append_assoc]
  · refine .inl ?_
    simp only [legacyShardID,if_neg hseen,append_nil,true_and]
    exact fun hmem => hseen (contains_iff_mem.mpr hmem)

lemma named_legacyShardID (seen : List Text) (i : ℕ) (ts : List Text) :
    Named digest parent (legacyShardID digest parent seen i ts) ts := by
  obtain ⟨h,_⟩ | h := legacyShardID_cases digest parent seen i ts
  · exact ⟨_,h⟩
  · exact ⟨_,h⟩

/-- The names given before index `i`: without a suffix, or with one of an earlier index. -/
def Before (digest : List Text → Text) (parent : Parent) (i : ℕ) (seen : List Text) : Prop :=
  ∀ id∈seen,∃ ts suffix,id = parent.id++shardInfix++digest ts++suffix ∧
    (suffix=[] ∨ ∃ j < i,suffix = ['-']++pad4 (j+1))

variable {i : ℕ} {seen : List Text}

lemma Before.legacyShardID_not_mem (hd : Digest digest pieces) (h : Before digest parent i seen)
    (ts : List Text) : legacyShardID digest parent seen i ts ∉ seen := by
  intro hmem
  obtain ⟨_,hfresh⟩ | heq := legacyShardID_cases digest parent seen i ts
  · exact hfresh hmem
  obtain ⟨ts',suffix,heq',hs⟩ := h _ hmem
  obtain ⟨_,hsuffix⟩ := hd.append_inj (heq.symm.trans heq')
  obtain rfl | ⟨j,hj,rfl⟩ := hs
  · cases hsuffix
  · have := pad4_injective (append_cancel_left hsuffix)
    omega

lemma Before.cons (h : Before digest parent i seen) (ts : List Text) :
    Before digest parent (i+1) (legacyShardID digest parent seen i ts::seen) := by
  intro id hid
  obtain rfl | hid := mem_cons.mp hid
  · obtain ⟨heq,_⟩ | heq := legacyShardID_cases digest parent seen i ts
    · exact ⟨ts,_,heq,.inl rfl⟩
    · exact ⟨ts,_,heq,.inr ⟨i,by omega,rfl⟩⟩
  · obtain ⟨ts',suffix,heq,hs⟩ := h id hid
    exact ⟨ts',suffix,heq,hs.imp_right fun ⟨j,hj,hp⟩ => ⟨j,by omega,hp⟩⟩

attribute [local simp] namedShards

lemma namedShards_targets (digest : List Text → Text) (parent : Parent) (count : ℤ) (i : ℕ) (seen : List Text) (parts : List (List Text)) :
    (namedShards digest parent count i seen parts).map (·.targets)=parts := by
  induction parts generalizing i seen with
  | nil => rfl
  | cons ts parts ih => simp only [namedShards,map_cons,ih]

lemma namedShards_tracked (ht : parent.tracked=true) {count : ℤ}
    {parts : List (List Text)} {c : Child} (h : c∈namedShards digest parent count i seen parts) :
    ∃ j,c.id=trackedShardID parent (i+j) ∧ parts[j]? = some c.targets := by
  induction parts generalizing i seen with
  | nil => cases h
  | cons ts parts ih =>
    simp only [namedShards,ht,if_true] at h
    obtain rfl | h := mem_cons.mp h
    · exact ⟨0,rfl,rfl⟩
    · obtain ⟨j,hid,hj⟩ := ih h
      exact ⟨j+1,by rw [hid,Nat.add_assoc,Nat.add_comm 1 j],by simpa using hj⟩

lemma namedShards_legacy (ht : parent.tracked=false) {count : ℤ}
    {parts : List (List Text)} {c : Child} (h : c∈namedShards digest parent count i seen parts) :
    Named digest parent c.id c.targets := by
  induction parts generalizing i seen with
  | nil => cases h
  | cons ts parts ih =>
    simp only [namedShards,ht,Bool.false_eq_true,if_false] at h
    obtain rfl | h := mem_cons.mp h
    · exact named_legacyShardID seen i ts
    · exact ih h

lemma namedShards_nodup_tracked (ht : parent.tracked=true) (count : ℤ) (i : ℕ) (seen : List Text)
    (parts : List (List Text)) : ((namedShards digest parent count i seen parts).map (·.id)).Nodup := by
  induction parts generalizing i seen with
  | nil => simp
  | cons ts parts ih =>
    simp only [namedShards,ht,if_true,map_cons,nodup_cons]
    refine ⟨fun hmem => ?_,ih _ _⟩
    obtain ⟨c,hc,hid⟩ := List.mem_map.mp hmem
    obtain ⟨j,hj,_⟩ := namedShards_tracked ht hc
    have := trackedShardID_injective parent (hj.symm.trans hid)
    omega

lemma namedShards_nodup_legacy (hd : Digest digest pieces) (ht : parent.tracked=false) (count : ℤ)
    (h : Before digest parent i seen) (parts : List (List Text)) :
    ((namedShards digest parent count i seen parts).map (·.id)).Nodup ∧
      ∀ c∈namedShards digest parent count i seen parts,c.id ∉ seen := by
  induction parts generalizing i seen with
  | nil => simp
  | cons ts parts ih =>
    obtain ⟨hnodup,hfresh⟩ := ih (h.cons ts)
    simp only [namedShards,ht,Bool.false_eq_true,if_false,map_cons,nodup_cons,mem_cons,
      forall_eq_or_imp]
    refine ⟨⟨fun hmem => ?_,hnodup⟩,h.legacyShardID_not_mem hd ts,fun c hc hseen => hfresh c hc (mem_cons_of_mem _ hseen)⟩
    obtain ⟨c,hc,hid⟩ := List.mem_map.mp hmem
    exact hfresh c hc (hid ▸ mem_cons_self)

theorem newTargetShards_spec (hd : Digest digest pieces) {targets : List Text} {maxTargets : ℤ} {children : List Child}
    (h : newTargetShards digest parent targets maxTargets=some children) :
    (children.map (·.id)).Nodup ∧ (∀ c∈children,(c.targets.length : ℤ) ≤ maxTargets) ∧
      (∀ t∈targets,∃ c∈children,t∈c.targets) ∧ (parent.tracked=true → ∀ c∈children,∃ j,c.id=trackedShardID parent j ∧
        (chunks maxTargets.toNat targets)[j]? = some c.targets) ∧
      (parent.tracked=false → ∀ c∈children,Named digest parent c.id c.targets) := by
  unfold newTargetShards at h
  extract_lets count at h
  split_ifs at h with hguard
  simp only [Bool.or_eq_true,decide_eq_true_eq,not_or,not_lt] at hguard
  obtain rfl := Option.some.inj h
  have hmax : 0 < maxTargets.toNat := by omega
  have htargets := namedShards_targets digest parent count 0 [] (chunks maxTargets.toNat targets)
  refine ⟨?_,fun c hc => ?_,fun t ht => ?_,fun htr c hc => ?_,fun hle c hc => namedShards_legacy hle hc⟩
  · cases htr : parent.tracked with
    | true => exact namedShards_nodup_tracked htr _ _ _ _
    | false => exact (namedShards_nodup_legacy hd htr _ (fun id hid => absurd hid not_mem_nil) _).1
  · have hpiece : c.targets∈chunks maxTargets.toNat targets := htargets ▸ List.mem_map_of_mem hc
    have := (chunks_length hmax hpiece).2
    omega
  · rw [← chunks_flatten maxTargets.toNat targets,← htargets] at ht
    obtain ⟨piece,hpiece,ht⟩ := mem_flatten.mp ht
    obtain ⟨c,hc,rfl⟩ := List.mem_map.mp hpiece
    exact ⟨c,hc,ht⟩
  · obtain ⟨j,hid,hj⟩ := namedShards_tracked htr hc
    exact ⟨j,by simpa using hid,hj⟩

end Names

def Run.pieces (r : Run) : List (List Text) := chunks r.maxTargets.toNat r.targets

/-- The runs of the operations have their pieces among the given ones. -/
def Op.Within (pieces : Set (List Text)) : Op → Prop
  | .run r => ∀ ts∈r.pieces,ts∈pieces
  | _ => True

/-- The walk did not move against what is published: a shard of a tracked parent that has been published was
queued with the targets that the run has at its index. -/
def Run.Steady (parent : Parent) (s : Store) (r : Run) : Prop :=
  parent.tracked=true → ∀ shard∈r.pieces.zipIdx,
    (s.receipt=true ∨ (s.records.get? (trackedShardID parent shard.2)).any (·.published)=true) →
    (trackedShardID parent shard.2,shard.1)∈s.pushed

instance (parent : Parent) (s : Store) (r : Run) : Decidable (r.Steady parent s) := by
  unfold Run.Steady
  infer_instance

section Coverage
variable {digest : List Text → Text} {parent : Parent} {pieces : Set (List Text)}

/-- Where the targets of a record are known: they were pushed, or the script filled the record and was cut
there. A record of a legacy parent belongs to a child that was pushed. -/
structure Store.Sound (digest : List Text → Text) (parent : Parent) (pieces : Set (List Text)) (s : Store) : Prop where
  filled : ∀ id r ts,s.records.get? id=some r → r.payload=some ts →
    (id,ts)∈s.pushed ∨ (parent.tracked=true ∧ r.queued=true ∧ r.inLane=false ∧ r.published=false)
  legacy : parent.tracked=false → ∀ id r,s.records.get? id=some r →
    ∃ ts∈pieces,(id,ts)∈s.pushed ∧ Named digest parent id ts

lemma Store.get?_update (s : Store) (id x : Text) (f : Record → Record) :
    (s.update id f).records.get? x=if x=id then some (f ((s.records.get? id).getD {})) else s.records.get? x :=
  get?_set ..

@[simp] lemma Store.pushed_update (s : Store) (id : Text) (f : Record → Record) : (s.update id f).pushed=s.pushed := rfl

lemma Store.pushed_subset_write (s : Store) (w : Write) : s.pushed ⊆ (s.write w).pushed := by
  cases w <;> simp [Store.write]

lemma Store.pushed_subset_foldl (s : Store) (ws : List Write) : s.pushed ⊆ (ws.foldl Store.write s).pushed := by
  induction ws generalizing s with
  | nil => simp
  | cons w ws ih => exact List.Subset.trans (s.pushed_subset_write w) (ih _)

variable {ws : List Write} {s t : Store} {r : Run} {c : Child} {children : List Child}

lemma Store.pushed_of_push {id : Text} {ts : List Text} (s : Store) (h : Write.push id ts∈ws) :
    (id,ts)∈(ws.foldl Store.write s).pushed := by
  induction ws generalizing s with
  | nil => cases h
  | cons w ws ih =>
    obtain rfl | h := mem_cons.mp h
    · exact pushed_subset_foldl _ ws mem_cons_self
    · exact ih _ h

def Store.Ready (s : Store) : Write → Prop
  | .create id => s.records.get? id=none
  | .fill id _ => s.records.get? id = some {}
  | .push id ts => ∃ r,s.records.get? id=some r ∧ r.payload=some ts
  | .publish id => ∃ r ts,s.records.get? id=some r ∧ r.payload=some ts ∧ (id,ts)∈s.pushed
  | _ => True

def Store.Safe : Store → List Write → Prop
  | _,[] => True
  | s,w::ws => s.Ready w ∧ (s.write w).Safe ws

lemma Store.safe_append {ws vs : List Write} (h : s.Safe ws) (h' : (ws.foldl Store.write s).Safe vs) : s.Safe (ws++vs) := by
  induction ws generalizing s with
  | nil => exact h'
  | cons w ws ih => exact ⟨h.1,ih h.2 h'⟩

lemma Store.safe_of_forall (h : ∀ w∈ws,∀ t : Store,t.Ready w) : s.Safe ws := by
  induction ws generalizing s with
  | nil => trivial
  | cons w ws ih => exact ⟨h w mem_cons_self s,ih (fun v hv => h v (mem_cons_of_mem w hv))⟩

lemma Store.Sound.changed (h : s.Sound digest parent pieces) {id : Text} {r : Record}
    (hrec : ∀ x,t.records.get? x=if x=id then some r else s.records.get? x) (hp : s.pushed ⊆ t.pushed)
    (hr : ∀ ts,r.payload=some ts →
      (id,ts)∈t.pushed ∨ (parent.tracked=true ∧ r.queued=true ∧ r.inLane=false ∧ r.published=false))
    (hl : parent.tracked=false → ∃ ts∈pieces,(id,ts)∈t.pushed ∧ Named digest parent id ts) :
    t.Sound digest parent pieces where
  filled x q ts hq hpay := by
    rw [hrec] at hq
    split at hq
    · subst x
      obtain rfl := Option.some.inj hq
      exact hr ts hpay
    · exact (h.filled x q ts hq hpay).imp_left (hp ·)
  legacy ht x q hq := by
    rw [hrec] at hq
    split at hq
    · subst x
      exact hl ht
    · obtain ⟨ts,hts,hmem,hn⟩ := h.legacy ht x q hq
      exact ⟨ts,hts,hp hmem,hn⟩

lemma Store.Sound.write (h : s.Sound digest parent pieces) (ht : parent.tracked=true) {w : Write}
    (hw : s.Ready w) : (s.write w).Sound digest parent pieces := by
  have hl : ∀ {p : Prop},parent.tracked=false → p := fun hl => absurd (ht.symm.trans hl) (by decide)
  cases w with
  | create id =>
    have hnone : s.records.get? id=none := hw
    refine h.changed (s.get?_update id · fun r => r) (List.Subset.refl _) (fun ts hpay => ?_) hl
    rw [hnone] at hpay
    cases hpay
  | fill id ts =>
    have hnew : s.records.get? id=some {} := hw
    refine h.changed (s.get?_update id · fun r => {r with payload := some ts}) (List.Subset.refl _)
      (fun _ _ => .inr ⟨ht,?_⟩) hl
    simp [hnew]
  | push id ts =>
    obtain ⟨r,hr,hpay⟩ := hw
    refine h.changed (s.get?_update id · fun r => {r with inLane := true}) (subset_cons_self _ _)
      (fun ts' hpay' => .inl ?_) hl
    rw [hr] at hpay'
    obtain rfl := Option.some.inj (hpay.symm.trans hpay')
    exact mem_cons_self
  | publish id =>
    obtain ⟨r,ts,hr,hpay,hmem⟩ := hw
    refine h.changed (s.get?_update id · fun r => {r with published := true}) (List.Subset.refl _)
      (fun ts' hpay' => .inl ?_) hl
    rw [hr] at hpay'
    obtain rfl := Option.some.inj (hpay.symm.trans hpay')
    exact hmem
  | openLedger | addMember | receipt | dispatch => exact ⟨h.filled,h.legacy⟩

lemma Store.Sound.foldl_take (h : s.Sound digest parent pieces) (ht : parent.tracked=true)
    (hs : s.Safe ws) (k : ℕ) : ((ws.take k).foldl Store.write s).Sound digest parent pieces := by
  induction ws generalizing s k with
  | nil => simpa using h
  | cons w ws ih =>
    cases k with
    | zero => simpa using h
    | succ k => exact ih (h.write ht hs.1) hs.2 k

lemma Store.get?_childWrites {x : Text} (hx : x≠c.id) :
    ((s.childWrites c).foldl Store.write t).records.get? x=t.records.get? x := by
  have hother : ∀ (t : Store) f,(t.update c.id f).records.get? x=t.records.get? x := fun t f =>
    (t.get?_update c.id x f).trans (if_neg hx)
  unfold childWrites
  split
  · simp only [foldl_cons,foldl_nil,Store.write,hother]
  · split
    · rfl
    · split
      · simp only [cons_append,nil_append,foldl_cons,foldl_nil,Store.write,hother]
      · simp only [nil_append,foldl_cons,foldl_nil,Store.write,hother]

lemma Store.Sound.safe_childWrites (h : t.Sound digest parent pieces)
    (hget : t.records.get? c.id=s.records.get? c.id) (hok : s.refuses c=false) : t.Safe (s.childWrites c) := by
  unfold childWrites
  unfold refuses at hok
  cases hr : s.records.get? c.id with
  | none =>
    rw [hr] at hget
    refine ⟨hget,?_,?_,?_,trivial⟩
    · simp [Ready,Store.write,get?_update,hget]
    · simp [Ready,Store.write,get?_update]
    · simp [Ready,Store.write,get?_update]
  | some r =>
    rw [hr] at hget hok
    simp only [Bool.or_eq_false_iff,isNone_eq_false_iff] at hok
    obtain ⟨ts,hts⟩ := isSome_iff_exists.mp hok.1.1.1
    have hsound := h.filled c.id r ts hget hts
    cases hpub : r.published with
    | true =>
      simp only [hpub,if_true]
      trivial
    | false =>
      simp only [hpub,Bool.false_eq_true,if_false]
      by_cases hlane : (r.queued && !r.inLane)=true
      · simp only [if_pos hlane,hts,getD_some,cons_append,nil_append]
        refine ⟨⟨r,hget,hts⟩,?_,trivial⟩
        simp [Ready,Store.write,get?_update,hget,hts]
      · simp only [if_neg hlane,nil_append]
        refine ⟨⟨r,ts,hget,hts,hsound.resolve_right fun hq => hlane ?_⟩,trivial⟩
        simp [hq.2.1,hq.2.2.1]

lemma Store.Sound.safe_children (h : t.Sound digest parent pieces) (ht : parent.tracked=true)
    (hnodup : (children.map (·.id)).Nodup)
    (hget : ∀ c∈children,t.records.get? c.id=s.records.get? c.id) (hok : ∀ c∈children,s.refuses c=false) :
    t.Safe (children.flatMap s.childWrites) := by
  induction children generalizing t with
  | nil => trivial
  | cons c children ih =>
    obtain ⟨hfresh,hnodup⟩ := nodup_cons.mp hnodup
    have hsafe := h.safe_childWrites (hget c mem_cons_self) (hok c mem_cons_self)
    have hnext := h.foldl_take ht hsafe (s.childWrites c).length
    rw [take_length] at hnext
    rw [flatMap_cons]
    refine safe_append hsafe (ih hnext hnodup (fun d hd => ?_) (fun d hd => hok d (mem_cons_of_mem c hd)))
    have hne : d.id≠c.id := fun heq => hfresh (List.mem_map.mpr ⟨d,hd,heq⟩)
    rw [get?_childWrites hne]
    exact hget d (mem_cons_of_mem c hd)

lemma Store.Sound.safe_planWrites (h : s.Sound digest parent pieces) (ht : parent.tracked=true)
    (hnodup : (children.map (·.id)).Nodup) (hws : s.planWrites children=some ws) : s.Safe ws := by
  unfold planWrites at hws
  split at hws
  · split_ifs at hws
    obtain rfl := Option.some.inj hws
    trivial
  split at hws
  · cases hws
  rename_i hrefuse
  obtain rfl := Option.some.inj hws
  simp only [Bool.or_eq_true,List.any_eq_true,not_or,not_exists,not_and,Bool.not_eq_true] at hrefuse
  have hledger : s.Safe (if s.ledger then [] else [.openLedger]) := by
    split
    · trivial
    · exact ⟨trivial,trivial⟩
  have hopened := h.foldl_take ht hledger (if s.ledger then [] else [Write.openLedger]).length
  rw [take_length] at hopened
  set opened := (if s.ledger then [] else [Write.openLedger]).foldl Store.write s with hopen
  have hmembers : ∀ t : Store,t.Safe (((children.map (·.id)).filter (!s.members.contains ·)).map .addMember) := by
    intro t
    refine safe_of_forall (fun w hw u => ?_)
    obtain ⟨_,_,rfl⟩ := List.mem_map.mp hw
    trivial
  have hsound := hopened.foldl_take ht (hmembers opened)
    (((children.map (·.id)).filter (!s.members.contains ·)).map Write.addMember).length
  rw [take_length] at hsound
  have hrecords : opened.records=s.records := by
    rw [hopen]
    split <;> rfl
  have hkept : ∀ (ids : List Text) (t : Store),((ids.map Write.addMember).foldl Store.write t).records=t.records := by
    intro ids
    induction ids with
    | nil => exact fun _ => rfl
    | cons x ids ih => exact fun t => ih _
  refine safe_append (safe_append (safe_append hledger (hmembers opened)) ?_) ⟨trivial,trivial,trivial⟩
  rw [foldl_append]
  refine hsound.safe_children ht hnodup (fun c _ => ?_) (fun c hc => hrefuse.2 c hc)
  rw [hkept,hrecords]

lemma Store.publishLegacy_eq (s : Store) (children : List Child) :
    s.publishLegacy children=((children.filter (fun c => (s.records.get? c.id).isNone)).map
      (fun c => Write.push c.id c.targets)).foldl Store.write s := by
  rw [foldl_map]
  rfl

lemma Store.Sound.push_legacy (h : s.Sound digest parent pieces) (ht : parent.tracked=false)
    (hmem : c.targets∈pieces) (hc : Named digest parent c.id c.targets) :
    (s.write (.push c.id c.targets)).Sound digest parent pieces := by
  refine h.changed (s.get?_update c.id · fun r => {r with inLane := true}) (subset_cons_self _ _)
    (fun ts hpay => .inl (mem_cons_of_mem _ ?_)) (fun _ => ⟨c.targets,hmem,mem_cons_self,hc⟩)
  cases hr : s.records.get? c.id with
  | none =>
    rw [hr] at hpay
    cases hpay
  | some r =>
    rw [hr] at hpay
    exact (h.filled c.id r ts hr hpay).resolve_right fun hq => absurd (ht.symm.trans hq.1) (by decide)

lemma Store.Sound.publishLegacy (h : s.Sound digest parent pieces) (ht : parent.tracked=false)
    (hnamed : ∀ c∈children,c.targets∈pieces ∧ Named digest parent c.id c.targets) :
    (s.publishLegacy children).Sound digest parent pieces := by
  rw [publishLegacy_eq,foldl_map]
  replace hnamed : ∀ c∈children.filter (fun c => (s.records.get? c.id).isNone),
      c.targets∈pieces ∧ Named digest parent c.id c.targets := fun c hc => hnamed c (mem_filter.mp hc).1
  generalize children.filter (fun c => (s.records.get? c.id).isNone)=missing at hnamed
  induction missing generalizing s with
  | nil => exact h
  | cons c missing ih =>
    obtain ⟨hmem,hc⟩ := hnamed c mem_cons_self
    exact ih (h.push_legacy ht hmem hc) (fun d hd => hnamed d (mem_cons_of_mem c hd))

lemma newTargetShards_pieces (h : newTargetShards digest parent r.targets r.maxTargets=some children) (hc : c∈children) :
    c.targets∈r.pieces := by
  unfold newTargetShards at h
  extract_lets count at h
  split_ifs at h
  · obtain rfl := Option.some.inj h
    rw [Run.pieces,← namedShards_targets digest parent count 0 [] (chunks r.maxTargets.toNat r.targets)]
    exact List.mem_map_of_mem hc

lemma enqueueTargetShards_cases (digest : List Text → Text) (parent : Parent) (r : Run) (s : Store) :
    enqueueTargetShards digest parent r s=(s,false) ∨
    ∃ children,newTargetShards digest parent r.targets r.maxTargets=some children ∧
      ((parent.tracked=true ∧ ∃ ws k ok,s.planWrites children=some ws ∧ (ok=true → ws.length≤k) ∧
          enqueueTargetShards digest parent r s=((ws.take k).foldl Store.write s,ok)) ∨
        (parent.tracked=false ∧ ∃ ok,enqueueTargetShards digest parent r s=(s.publishLegacy children,ok))) := by
  unfold enqueueTargetShards
  cases newTargetShards digest parent r.targets r.maxTargets with
  | none => exact .inl rfl
  | some children =>
    cases r.routed with
    | false => exact .inl rfl
    | true =>
      cases ht : parent.tracked with
      | true =>
        cases r.admitted with
        | false => exact .inl rfl
        | true =>
          cases hws : s.planWrites children with
          | none => exact .inl (by simp [hws])
          | some ws =>
            refine .inr ⟨children,rfl,.inl ⟨rfl,?_⟩⟩
            cases r.crash with
            | none => exact ⟨ws,ws.length,true,hws,fun _ => le_rfl,by simp [hws]⟩
            | some k => exact ⟨ws,k,false,hws,nofun,by simp [hws]⟩
      | false =>
        match r.crash with
        | some 0 => exact .inl rfl
        | some (_+1) => exact .inr ⟨children,rfl,.inr ⟨rfl,false,rfl⟩⟩
        | none => exact .inr ⟨children,rfl,.inr ⟨rfl,true,rfl⟩⟩

lemma Store.Sound.run (hd : Digest digest pieces) (h : s.Sound digest parent pieces)
    (hr : ∀ ts∈r.pieces,ts∈pieces) : (enqueueTargetShards digest parent r s).1.Sound digest parent pieces := by
  obtain heq | ⟨children,hc,⟨ht,ws,k,ok,hws,_,heq⟩ | ⟨ht,ok,heq⟩⟩ := enqueueTargetShards_cases digest parent r s
  · rwa [heq]
  · rw [heq]
    exact h.foldl_take ht (h.safe_planWrites ht (newTargetShards_spec hd hc).1 hws) k
  · rw [heq]
    obtain ⟨_,_,_,_,hlegacy⟩ := newTargetShards_spec hd hc
    exact h.publishLegacy ht (fun c hmem => ⟨hr _ (newTargetShards_pieces hc hmem),hlegacy ht c hmem⟩)

lemma Store.Sound.step (hd : Digest digest pieces) (h : s.Sound digest parent pieces) {op : Op}
    (hop : op.Within pieces) (hstep : step digest parent s op=some t) : t.Sound digest parent pieces := by
  cases op with
  | run r =>
    obtain rfl := Option.some.inj hstep
    exact h.run hd hop
  | claim id =>
    simp only [Shards.step] at hstep
    cases hr : s.records.get? id with
    | none => rw [hr] at hstep; cases hstep
    | some r =>
      rw [hr] at hstep
      obtain ⟨hlane,hstep⟩ := ite_none_right_eq_some.mp hstep
      obtain rfl := Option.some.inj hstep
      refine h.changed (s.get?_update id · _) (List.Subset.refl _) (fun ts hpay => .inl ?_) (fun ht => h.legacy ht id r hr)
      rw [hr] at hpay
      exact (h.filled id r ts hr hpay).resolve_right fun hq => absurd (hlane.symm.trans hq.2.2.1) (by decide)
  | requeue id ts =>
    simp only [Shards.step] at hstep
    cases hr : s.records.get? id with
    | none => rw [hr] at hstep; cases hstep
    | some r =>
      rw [hr] at hstep
      obtain ⟨_,hstep⟩ := ite_none_left_eq_some.mp hstep
      obtain rfl := Option.some.inj hstep
      refine h.changed (s.get?_update id · fun r => {r with payload := some ts, inLane := true, queued := true})
        (subset_cons_self _ _) (fun ts' hpay => .inl ?_) (fun ht => ?_)
      · obtain rfl := Option.some.inj hpay
        exact mem_cons_self
      · obtain ⟨ts',hts,hmem,hn⟩ := h.legacy ht id r hr
        exact ⟨ts',hts,mem_cons_of_mem _ hmem,hn⟩
  | clear id =>
    simp only [Shards.step] at hstep
    cases hr : s.records.get? id with
    | none => rw [hr] at hstep; cases hstep
    | some r =>
      rw [hr] at hstep
      obtain ⟨_,hstep⟩ := ite_none_left_eq_some.mp hstep
      obtain rfl := Option.some.inj hstep
      have hkept : ∀ x q,(s.records.erase id).get? x=some q → s.records.get? x=some q := by
        intro x q hq
        by_cases hx : x=id
        · rw [hx,get?_erase_self] at hq
          cases hq
        · rwa [get?_erase_ne hx] at hq
      exact ⟨fun x q ts hq hpay => h.filled x q ts (hkept x q hq) hpay,fun ht x q hq => h.legacy ht x q (hkept x q hq)⟩
  | ack =>
    obtain ⟨_,hstep⟩ := ite_none_right_eq_some.mp hstep
    obtain rfl := Option.some.inj hstep
    exact ⟨h.filled,h.legacy⟩

lemma Store.Sound.pushed_planWrites (h : s.Sound digest parent pieces) (hsteady : r.Steady parent s)
    (ht : parent.tracked=true) (hws : s.planWrites children=some ws)
    (hc : c∈children) {i : ℕ} (hid : c.id=trackedShardID parent i) (hi : r.pieces[i]? = some c.targets) :
    (c.id,c.targets)∈(ws.foldl Store.write s).pushed := by
  have hpast := hsteady ht (c.targets,i) (mem_zipIdx_iff_getElem?.mpr hi)
  rw [← hid] at hpast
  unfold planWrites at hws
  split at hws
  · rename_i hreceipt
    exact s.pushed_subset_foldl ws (hpast (.inl hreceipt))
  split at hws
  · cases hws
  rename_i hrefuse
  simp only [Bool.or_eq_true,List.any_eq_true,not_or,not_exists,not_and,Bool.not_eq_true] at hrefuse
  have hok := hrefuse.2 c hc
  have hsub : ∀ w∈s.childWrites c,w∈ws := by
    intro w hw
    obtain rfl := Option.some.inj hws
    exact mem_append_left _ (mem_append_right _ (mem_flatMap.mpr ⟨c,hc,hw⟩))
  unfold refuses at hok
  unfold childWrites at hsub
  cases hr : s.records.get? c.id with
  | none =>
    rw [hr] at hsub
    exact s.pushed_of_push (hsub _ (by simp))
  | some q =>
    rw [hr] at hsub hok
    cases hpub : q.published with
    | true => exact s.pushed_subset_foldl ws (hpast (.inr (by rw [hr]; exact hpub)))
    | false =>
      simp only [hpub,Bool.false_eq_true,if_false,Bool.not_false,Bool.true_and,Bool.or_eq_false_iff,ne_eq,decide_not,
        Bool.not_eq_false',decide_eq_true_eq] at hsub hok
      have hpay : q.payload=some c.targets := hok.2
      by_cases hlane : (q.queued && !q.inLane)=true
      · exact s.pushed_of_push (hsub _ (by simp [hlane,hpay]))
      · refine s.pushed_subset_foldl ws ((h.filled c.id q _ hr hpay).resolve_right fun hq => hlane ?_)
        simp [hq.2.1,hq.2.2.1]

lemma Store.Sound.pushed_publishLegacy (hd : Digest digest pieces) (h : s.Sound digest parent pieces)
    (ht : parent.tracked=false) (hc : c∈children) (hin : c.targets∈pieces)
    (hn : Named digest parent c.id c.targets) : (c.id,c.targets)∈(s.publishLegacy children).pushed := by
  rw [publishLegacy_eq]
  cases hr : s.records.get? c.id with
  | none =>
    refine s.pushed_of_push (List.mem_map.mpr ⟨c,mem_filter.mpr ⟨hc,?_⟩,rfl⟩)
    simp [hr]
  | some q =>
    obtain ⟨ts,hts,hmem,hn'⟩ := h.legacy ht c.id q hr
    obtain rfl := hd.named_unique hn hn' hin hts
    exact s.pushed_subset_foldl _ hmem

/-- From any store that earlier runs and the workers leave, a run that reports success has bounded children
with distinct IDs, and each of its targets is in a child that was queued. -/
theorem published_run_covers_targets (hd : Digest digest pieces) {ops : List Op} (hops : ∀ op ∈ ops,op.Within pieces)
    {s : Store} (hrun : run (step digest parent) {} ops = some s) {r : Run} (hr : ∀ ts ∈ r.pieces,ts ∈ pieces)
    (hsteady : r.Steady parent s) (hok : (enqueueTargetShards digest parent r s).2 = true) :
    ∃ children,newTargetShards digest parent r.targets r.maxTargets = some children ∧
      (children.map (·.id)).Nodup ∧ (∀ c ∈ children,(c.targets.length : ℤ) ≤ r.maxTargets) ∧
      ∀ target ∈ r.targets,∃ id ts,(id,ts) ∈ (enqueueTargetShards digest parent r s).1.pushed ∧ target ∈ ts := by
  have hsound : s.Sound digest parent pieces := by
    refine run_invariant_of_allSteps (G := fun _ op => op.Within pieces) (I := Store.Sound digest parent pieces)
      (fun _ _ _ h hop hstep => h.step hd hop hstep) ⟨?_,?_⟩ (allSteps_of_forall fun op hop _ => hops op hop) hrun
    · exact fun _ _ _ h => absurd h (by simp [GoMap.get?])
    · exact fun _ _ _ h => absurd h (by simp [GoMap.get?])
  obtain heq | ⟨children,hc,hcase⟩ := enqueueTargetShards_cases digest parent r s
  · rw [heq] at hok
    cases hok
  obtain ⟨hnodup,hbound,hcover,htracked,hlegacy⟩ := newTargetShards_spec hd hc
  refine ⟨children,hc,hnodup,hbound,fun target htarget => ?_⟩
  obtain ⟨c,hmem,hin⟩ := hcover target htarget
  refine ⟨c.id,c.targets,?_,hin⟩
  obtain ⟨ht,ws,k,ok,hws,hall,heq⟩ | ⟨ht,ok,heq⟩ := hcase
  · rw [heq] at hok ⊢
    obtain ⟨i,hid,hi⟩ := htracked ht c hmem
    simp only [take_of_length_le (hall hok)]
    exact hsound.pushed_planWrites hsteady ht hws hmem hid hi
  · rw [heq]
    exact hsound.pushed_publishLegacy hd ht hmem (hr _ (newTargetShards_pieces hc hmem)) (hlegacy ht c hmem)

/-- The first 16 characters of the targets. -/
def headDigest (targets : List Text) : Text := (targets.flatten++List.replicate 16 '.').take 16

/-- A plan that is cut after its first shard and ends in a second run, which walks one more clip. -/
theorem cut_plan_completed :
    ∃ s,run (step headDigest ⟨['p'],true,true,0⟩) {} [.run { targets := [['a'],['b']], maxTargets := 1, crash := some 7 }] = some s ∧
      ∀ target ∈ [['a'],['b'],['c']],∃ id ts,
        (id,ts) ∈ (enqueueTargetShards headDigest ⟨['p'],true,true,0⟩ { targets := [['a'],['b'],['c']], maxTargets := 1 } s).1.pushed ∧
          target ∈ ts := by
  have hinj : ∀ ts ∈ [[['a']],[['b']],[['c']]],∀ ts' ∈ [[['a']],[['b']],[['c']]],headDigest ts = headDigest ts' → ts=ts' := by
    decide
  have hd : Digest headDigest {ts | ts ∈ [[['a']],[['b']],[['c']]]} :=
    ⟨fun ts => by simp [headDigest],fun ts hts ts' hts' => hinj ts hts ts' hts'⟩
  have hrun : (run (step headDigest ⟨['p'],true,true,0⟩) {}
      [.run { targets := [['a'],['b']], maxTargets := 1, crash := some 7 }]).any (fun s =>
        decide (Run.Steady ⟨['p'],true,true,0⟩ s { targets := [['a'],['b'],['c']], maxTargets := 1 }) &&
        (enqueueTargetShards headDigest ⟨['p'],true,true,0⟩ { targets := [['a'],['b'],['c']], maxTargets := 1 } s).2)=true := by
    decide +kernel
  obtain ⟨s,hs,hok⟩ := (Option.any_eq_true _ _).mp hrun
  rw [Bool.and_eq_true,decide_eq_true_eq] at hok
  obtain ⟨_,_,_,_,hcover⟩ := published_run_covers_targets hd
    (by simp only [mem_singleton,forall_eq]; exact fun ts hts => by revert ts hts; decide)
    hs (r := { targets := [['a'],['b'],['c']], maxTargets := 1 }) (fun ts hts => by revert ts hts; decide) hok.1 hok.2
  exact ⟨s,hs,hcover⟩

/-- The first shard was published when the first run was cut. The walk of the second run finds a clip before
it, so that the clip has the first index; the run reports success, and no child ever has the clip. -/
theorem moved_walk_loses_target :
    ∃ s,run (step headDigest ⟨['p'],true,true,0⟩) {} [.run { targets := [['a'],['b']], maxTargets := 1, crash := some 7 }] = some s ∧
      (enqueueTargetShards headDigest ⟨['p'],true,true,0⟩ { targets := [['c'],['a'],['b']], maxTargets := 1 } s).2 = true ∧
      ∀ child ∈ (enqueueTargetShards headDigest ⟨['p'],true,true,0⟩ { targets := [['c'],['a'],['b']], maxTargets := 1 } s).1.pushed,
        ['c'] ∉ child.2 := by
  refine ⟨_,rfl,?_,?_⟩ <;> decide +kernel

end Coverage

end JuiceMount.FarmQueue.Shards
