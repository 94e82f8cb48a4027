import JuiceMount.Lib.Transition
import JuiceMount.RespProxy.Allocation

/-! RecordsBatch ranges are disjoint unions of the batches their owners received, so neither the cache
nor Redis names a principal that did not receive an id, and no inode is created from another's
batch. -/
namespace JuiceMount.RespProxy
open AllocState List GoMap Transition Option SliceRange Zset

lemma colon_not_mem (n : ℕ) : (58 : UInt8) ∉ formatUint n := fun h => absurd (mem_formatUint h).2 (by decide)

section Members
variable {r r' : SliceRange}

@[simp] lemma splitMember_member (a b : ℕ) (o : Bytes) :
    splitMember (formatUint a++58::(formatUint b++58::o))=some (formatUint a,formatUint b,o) := by
  simp [splitMember,splitByte_eq_some.mpr ⟨rfl,colon_not_mem _⟩]

lemma member_injective (h : r.member=r'.member) : r=r' := by
  have hs : splitMember r.member=splitMember r'.member := by rw [h]
  simp only [member,splitMember_member,Option.some.injEq,Prod.mk.injEq] at hs
  obtain ⟨hlo,hhi,ho⟩ := hs
  have howner : r.owner=r'.owner := by rw [← ofText_text r.owner,ho,ofText_text]
  cases r
  cases r'
  obtain rfl := formatUint_injective hlo
  obtain rfl := formatUint_injective hhi
  obtain rfl := howner
  rfl

lemma luaMatch_member : luaMatch r.member=none ∨
    luaMatch r.member=some (formatUint r.lo,formatUint r.hi,text r.owner) := by
  simp only [luaMatch,member,splitMember_member,Option.filter]
  split
  · exact .inr rfl
  · exact .inl rfl

end Members

def Apart (r r' : SliceRange) : Prop := r.hi<r'.lo ∨ r'.hi<r.lo

/-- The ids from `lo` to `hi` are consecutive batches handed to `owner`. -/
inductive Stretch (handed : List Batch) (k : IdKind) (owner : String) : ℕ → ℕ → Prop
  | batch {b : Batch} (hb : b∈handed) (hk : b.kind=k) (ho : b.range.owner=owner) :
    Stretch handed k owner b.range.lo b.range.hi
  | next {lo mid : ℕ} {b : Batch} (h : Stretch handed k owner lo mid) (hb : b∈handed)
      (hk : b.kind=k) (ho : b.range.owner=owner) (hlo : b.range.lo = mid+1) :
    Stretch handed k owner lo b.range.hi

namespace Stretch
variable {handed handed' : List Batch} {k : IdKind} {owner : String} {lo hi : ℕ}

lemma mono (h : Stretch handed k owner lo hi) (hsub : ∀ b∈handed,b∈handed') : Stretch handed' k owner lo hi := by
  induction h with
  | batch hb hk ho => exact .batch (hsub _ hb) hk ho
  | next _ hb hk ho hlo ih => exact .next ih (hsub _ hb) hk ho hlo

lemma handed_of_mem (h : Stretch handed k owner lo hi) {id : ℕ} (hlo : lo ≤ id) (hhi : id≤hi) :
    ∃ b∈handed,b.kind=k ∧ b.range.owner=owner ∧ b.range.lo ≤ id ∧ id≤b.range.hi := by
  induction h with
  | batch hb hk ho => exact ⟨_,hb,hk,ho,hlo,hhi⟩
  | @next lo mid b _ hb hk ho hnext ih =>
    by_cases hmid : id ≤ mid
    · exact ih hlo hmid
    · exact ⟨b,hb,hk,ho,by omega,hhi⟩

lemma bounds {next : ℕ} (h : Stretch handed k owner lo hi)
    (hb : ∀ b∈handed,b.kind=k → 1≤b.range.lo ∧ b.range.lo≤b.range.hi ∧ b.range.hi≤next) : 1≤lo ∧ lo≤hi ∧ hi≤next := by
  induction h with
  | batch hm hk _ => exact hb _ hm hk
  | next _ hm hk _ hlo ih =>
    have := hb _ hm hk
    omega

end Stretch

/-- What holds of the recorded ranges of one allocator. -/
structure RangesOk (handed : List Batch) (k : IdKind) (z : Zset Bytes) : Prop where
  sorted : z.Sorted
  members : ∀ e∈z,∃ r : SliceRange,e = (r.hi,r.member) ∧ Stretch handed k r.owner r.lo r.hi
  apart : ∀ r r' : SliceRange,(r.hi,r.member)∈z → (r'.hi,r'.member)∈z → r≠r' → Apart r r'

section Merge
variable {z : Zset Bytes} {owner : String} {lo : ℕ}

variable {r : SliceRange} {handed : List Batch} {k : IdKind}

lemma mergeOne_below {acc : Zset Bytes × Bytes} {e : ℕ × Bytes} (he : e=(r.hi,r.member))
    (hne : r.hi+1≠decimal acc.2) : mergeOne (text owner) acc e=acc := by
  subst he
  unfold mergeOne
  obtain hm | hm := luaMatch_member (r := r)
  · rw [hm]
  · rw [hm]
    simp [hne]

lemma foldl_mergeOne_done {l : Zset Bytes} {acc : Zset Bytes × Bytes}
    (hl : ∀ e∈l,∃ r : SliceRange,e=(r.hi,r.member) ∧ r.hi+1≠decimal acc.2) :
    l.foldl (mergeOne (text owner)) acc=acc := by
  induction l with
  | nil => rfl
  | cons e l ih =>
    obtain ⟨r,he,hne⟩ := hl e mem_cons_self
    rw [foldl_cons,mergeOne_below he hne]
    exact ih (fun x hx => hl x (mem_cons_of_mem _ hx))

lemma foldl_mergeOne (z : Zset Bytes) (owner : String) {l : Zset Bytes}
    (hl : ∀ e∈l,∃ r : SliceRange,e=(r.hi,r.member) ∧ r.hi+1=lo ∧ r.lo≤r.hi) :
    l.foldl (mergeOne (text owner)) (z,formatUint lo)=(z,formatUint lo) ∨
    ∃ r : SliceRange,(r.hi,r.member)∈l ∧ r.owner=owner ∧ r.hi+1=lo ∧
      l.foldl (mergeOne (text owner)) (z,formatUint lo)=(z.rem r.member,formatUint r.lo) := by
  induction l with
  | nil => exact .inl rfl
  | cons e l ih =>
    have hrest := fun x hx => hl x (mem_cons_of_mem _ hx)
    obtain ⟨r,rfl,hhi,hle⟩ := hl e mem_cons_self
    have hone : mergeOne (text owner) (z,formatUint lo) (r.hi,r.member)=(z,formatUint lo) ∨
        (r.owner=owner ∧
          mergeOne (text owner) (z,formatUint lo) (r.hi,r.member)=(z.rem r.member,formatUint r.lo)) := by
      unfold mergeOne
      obtain hm | hm := luaMatch_member (r := r)
      · rw [hm]
        exact .inl rfl
      · rw [hm]
        by_cases ho : text r.owner=text owner
        · refine .inr ⟨?_,by simp [ho,hhi]⟩
          rw [← ofText_text r.owner,ho,ofText_text]
        · exact .inl (by simp [ho])
    obtain hone | ⟨ho,hone⟩ := hone
    · rw [foldl_cons,hone]
      obtain h | ⟨r',hmem,h⟩ := ih hrest
      · exact .inl h
      · exact .inr ⟨r',mem_cons_of_mem _ hmem,h⟩
    refine .inr ⟨r,mem_cons_self,ho,hhi,?_⟩
    rw [foldl_cons,hone]
    refine foldl_mergeOne_done (fun x hx => ?_)
    obtain ⟨r',hx',hhi',_⟩ := hrest x hx
    refine ⟨r',hx',?_⟩
    rw [decimal_formatUint]
    omega

lemma mergeBelow_cases (owner : String) (h : RangesOk handed k z) (hlo : 1≤lo)
    (hbounds : ∀ r : SliceRange,(r.hi,r.member)∈z → r.lo≤r.hi) :
    mergeBelow z (formatUint lo) (text owner)=(z,formatUint lo) ∨
    ∃ r : SliceRange,(r.hi,r.member)∈z ∧ r.owner=owner ∧ r.hi+1=lo ∧
      mergeBelow z (formatUint lo) (text owner)=(z.rem r.member,formatUint r.lo) := by
  unfold mergeBelow
  rw [decimal_formatUint]
  have hl : ∀ e∈z.range (lo-1) (lo-1),∃ r : SliceRange,e=(r.hi,r.member) ∧ r.hi+1=lo ∧ r.lo≤r.hi := by
    intro e he
    obtain ⟨hmem,hge,hle⟩ := mem_range.mp he
    obtain ⟨r,rfl,_⟩ := h.members e hmem
    exact ⟨r,rfl,by dsimp only at hge hle; omega,hbounds r hmem⟩
  obtain h | ⟨r,hmem,ho,hhi,h⟩ := foldl_mergeOne z owner hl
  · exact .inl h
  · exact .inr ⟨r,(mem_range.mp hmem).1,ho,hhi,h⟩

/-- The set after a batch was recorded: it is added as it is, or joined to its owner's range just
below. -/
def RecordsBatch (z : Zset Bytes) (r : SliceRange) (z' : Zset Bytes) : Prop :=
  z' = z.add memberLt r.hi r.member ∨
  ∃ q : SliceRange,(q.hi,q.member)∈z ∧ q.owner=r.owner ∧ q.hi+1=r.lo ∧
    z' = (z.rem q.member).add memberLt r.hi (SliceRange.member ⟨q.lo,r.hi,r.owner⟩)

lemma recorded_of_merge (h : RangesOk handed k z)
    (hlo : 1≤r.lo) (hbounds : ∀ q : SliceRange,(q.hi,q.member)∈z → q.lo≤q.hi) :
    RecordsBatch z r (mergeRangeLua z r) ∧ RecordsBatch z r (inodeRecord z r) := by
  unfold mergeRangeLua inodeRecord
  obtain hm | ⟨q,hmem,ho,hhi,hm⟩ := mergeBelow_cases r.owner h hlo hbounds
  · rw [hm]
    refine ⟨.inl rfl,.inl ?_⟩
    simp [member]
  · rw [hm]
    refine ⟨.inr ⟨q,hmem,ho,hhi,rfl⟩,.inr ⟨q,hmem,ho,hhi,?_⟩⟩
    simp [member]

/-- How one more batch `r` shows in the recorded ranges: as the range `R` that ends with it. -/
structure RecordedAs (handed : List Batch) (k : IdKind) (z : Zset Bytes) (r R : SliceRange)
    (z' : Zset Bytes) : Prop where
  hi : R.hi=r.hi
  lo : R.lo≤r.lo
  stretch : Stretch handed k R.owner R.lo R.hi
  sorted : z'.Sorted
  mem : (R.hi,R.member)∈z'
  rest : ∀ e∈z',e = (R.hi,R.member) ∨ ∃ x : SliceRange,e = (x.hi,x.member) ∧ e∈z ∧ Apart x R
  covers : ∀ x : SliceRange,(x.hi,x.member)∈z → (x.hi,x.member)∈z' ∨ (R.lo≤x.lo ∧ x.hi≤R.hi)
  apart : ∀ x : SliceRange,x.lo≤x.hi → Apart x r → (∀ q : SliceRange,(q.hi,q.member)∈z → Apart x q) →
    Apart x R

lemma record_spec {z' : Zset Bytes}
    (h : RangesOk handed k z) (hbounds : ∀ q : SliceRange,(q.hi,q.member)∈z → 1≤q.lo ∧ q.lo≤q.hi)
    (hb : ∃ b∈handed,b.kind=k ∧ b.range=r) (hr : r.lo≤r.hi)
    (hapart : ∀ q : SliceRange,(q.hi,q.member)∈z → Apart q r) (hrec : RecordsBatch z r z') :
    ∃ R,RecordedAs handed k z r R z' := by
  obtain ⟨b,hbm,hbk,rfl⟩ := hb
  obtain rfl | ⟨q,hq,ho,hnext,rfl⟩ := hrec
  · refine ⟨b.range,rfl,le_rfl,.batch hbm hbk rfl,sorted_add h.sorted,
      mem_add.mpr (.inl rfl),?_,?_,fun x _ hx _ => hx⟩
    · intro e he
      obtain rfl | ⟨he,_⟩ := mem_add.mp he
      · exact .inl rfl
      · obtain ⟨x,rfl,_⟩ := h.members e he
        exact .inr ⟨x,rfl,he,hapart x he⟩
    · intro x hx
      by_cases hne : x.member=b.range.member
      · obtain rfl := member_injective hne
        exact .inr ⟨le_rfl,le_rfl⟩
      · exact .inl (mem_add.mpr (.inr ⟨hx,hne⟩))
  · have hqb := hbounds q hq
    have hstretch : Stretch handed k b.range.owner q.lo b.range.hi := by
      obtain ⟨q',he,hs⟩ := h.members _ hq
      obtain rfl := member_injective (Prod.mk.inj he).2
      exact .next (ho ▸ hs) hbm hbk rfl hnext.symm
    -- what lies apart from both halves lies apart from their union
    have hjoin : ∀ x : SliceRange,x.lo≤x.hi → Apart x b.range → Apart x q →
        Apart x ⟨q.lo,b.range.hi,b.range.owner⟩ := by
      intro x hx hxr hxq
      unfold Apart at hxr hxq ⊢
      dsimp only
      omega
    refine ⟨⟨q.lo,b.range.hi,b.range.owner⟩,rfl,by dsimp only; omega,hstretch,
      sorted_add (sorted_rem h.sorted),mem_add.mpr (.inl rfl),?_,?_,?_⟩
    · intro e he
      obtain rfl | ⟨he,_⟩ := mem_add.mp he
      · exact .inl rfl
      · obtain ⟨he,hne⟩ := mem_rem.mp he
        obtain ⟨x,rfl,_⟩ := h.members e he
        have hxq : x≠q := fun hxq => hne (by rw [hxq])
        exact .inr ⟨x,rfl,he,hjoin x (hbounds x he).2 (hapart x he) (h.apart x q he hq hxq)⟩
    · intro x hx
      by_cases hxq : x.member=q.member
      · obtain rfl := member_injective hxq
        exact .inr ⟨le_rfl,by dsimp only; omega⟩
      · by_cases hne : x.member=member ⟨q.lo,b.range.hi,b.range.owner⟩
        · obtain rfl := member_injective hne
          exact .inr ⟨le_rfl,le_rfl⟩
        · exact .inl (mem_add.mpr (.inr ⟨mem_rem.mpr ⟨hx,hxq⟩,hne⟩))
    · intro x hx hxr hxz
      exact hjoin x hx hxr (hxz q hq)

lemma RecordedAs.ok {r R : SliceRange} {z' : Zset Bytes}
    (hR : RecordedAs handed k z r R z') (h : RangesOk handed k z) : RangesOk handed k z' := by
  refine ⟨hR.sorted,?_,?_⟩
  · intro e he
    obtain rfl | ⟨x,rfl,hx,_⟩ := hR.rest e he
    · exact ⟨R,rfl,hR.stretch⟩
    · exact h.members _ hx
  · intro x x' hx hx' hne
    obtain he | ⟨y,he,hy,hapart⟩ := hR.rest _ hx
    · obtain rfl := member_injective (Prod.mk.inj he).2
      obtain he' | ⟨y',he',_,hapart'⟩ := hR.rest _ hx'
      · exact absurd (member_injective (Prod.mk.inj he').2).symm hne
      · obtain rfl := member_injective (Prod.mk.inj he').2
        exact hapart'.symm
    · obtain rfl := member_injective (Prod.mk.inj he).2
      obtain he' | ⟨y',he',hy',_⟩ := hR.rest _ hx'
      · obtain rfl := member_injective (Prod.mk.inj he').2
        exact hapart
      · exact h.apart x x' hy hy' hne

end Merge

/-- Batches, recorded and remembered ranges, and what is still on its way. -/
structure AllocInv (vol : ℕ) (s : AllocState) : Prop where
  batches : ∀ b∈s.handed,b.db=vol ∧ 1≤b.range.lo ∧ b.range.lo≤b.range.hi ∧
    b.range.hi ≤ s.nextOf vol b.kind
  small : ∀ k,s.nextOf vol k < 2^53
  apart : ∀ b∈s.handed,∀ b'∈s.handed,b.kind=b'.kind → b≠b' → Apart b.range b'.range
  ranges : ∀ k,RangesOk s.handed k (s.rangesOf vol k)
  cached : ∀ k,∀ r ∈ s.cacheOf k,Stretch s.handed k r.owner r.lo r.hi
  found : ∀ e∈s.found,Stretch s.handed e.1 e.2.owner e.2.lo e.2.hi
  replies : ∀ b∈s.replies,b∈s.handed
  records : ∀ r∈s.records,∃ b∈s.handed,b.kind=.chunk ∧ b.range=r
  repliesApart : s.replies.Pairwise (fun b b' => b.kind=.chunk → b'.kind=.chunk → Apart b.range b'.range)
  recordsApart : s.records.Pairwise Apart
  crossApart : ∀ b∈s.replies,b.kind=.chunk → ∀ r∈s.records,Apart b.range r
  replyOpen : ∀ b∈s.replies,b.kind=.chunk → ∀ q : SliceRange,
    (q.hi,q.member) ∈ s.rangesOf vol .chunk → Apart q b.range
  recordOpen : ∀ r∈s.records,∀ q : SliceRange,(q.hi,q.member) ∈ s.rangesOf vol .chunk → Apart q r
  marked : ∀ m,s.mark.get? vol=some m → m ≤ s.nextOf vol .inode ∧
    (∀ b∈s.handed,b.kind=.inode → m<b.range.lo) ∧
    ∀ id,m < id → id ≤ s.nextOf vol .inode →
      ∃ r : SliceRange,(r.hi,r.member) ∈ s.rangesOf vol .inode ∧ r.lo ≤ id ∧ id≤r.hi
  unmarked : s.mark.get? vol=none → ∀ b∈s.handed,b.kind≠.inode
  markV : ∀ m,s.markV=some m → s.mark.get? vol=some m

/-- Batches are taken in the volume's database, below 2^53. -/
def inVolume (vol : ℕ) (s : AllocState) : AllocAction → Bool
  | .alloc k db _ => db=vol && s.nextOf vol k+k.batch < 2^53
  | _ => true

lemma Apart.symm {r r' : SliceRange} (h : Apart r r') : Apart r' r := Or.symm h

lemma pairwise_eraseIdx {α : Type*} {R : α → α → Prop} (hR : ∀ a b,R a b → R b a) {l : List α} {i : ℕ}
    {x : α} (h : l.Pairwise R) (hx : l[i]? = some x) : ∀ y∈l.eraseIdx i,R x y := by
  obtain ⟨hi,rfl⟩ := List.getElem?_eq_some_iff.mp hx
  have hperm := getElem_cons_eraseIdx_perm hi
  exact (pairwise_cons.mp ((hperm.pairwise_iff (fun {a b} => hR a b)).mpr h)).1

lemma mem_remember {l : List SliceRange} {r x : SliceRange} (h : x∈remember l r) : x∈l ∨ x=r := by
  simp only [remember,mem_append,mem_singleton] at h
  refine h.imp_left (fun h => ?_)
  split at h
  · exact mem_of_mem_drop h
  · exact h

section Lookup
variable {handed : List Batch} {k : IdKind} {z : Zset Bytes} {id : ℕ}

lemma parseUintText_formatUint (n : ℕ) : parseUintText (formatUint n)=if n<2^64 then some n else none := by
  simp [parseUintText,formatUint_ne_nil,all_isDigit_formatUint,parseUint]

lemma rangeAt_first {q : SliceRange} (h : (z.above id).head? = some (q.hi,q.member))
    (hq : q.lo≤q.hi ∧ q.hi<2^64) : rangeAt z id=some (if q.lo ≤ id ∧ id≤q.hi then some q else none) := by
  have hlo : q.lo<2^64 := by omega
  unfold rangeAt
  rw [h]
  simp only [member,splitMember_member,parseUintText_formatUint,hlo,hq.2,if_true,ofText_text]
  congr 1
  by_cases hin : q.lo ≤ id ∧ id≤q.hi
  · rw [if_pos hin,if_neg (by simp; omega)]
  · rw [if_neg hin,if_pos (by simp; omega)]

/-- ZRANGE never answers with a malformed member, and what it answers is a recorded range that
holds the id. -/
lemma rangeAt_sound (id : ℕ) (h : RangesOk handed k z)
    (hsmall : ∀ q : SliceRange,(q.hi,q.member)∈z → q.lo≤q.hi ∧ q.hi<2^64) :
    ∃ ans,rangeAt z id=some ans ∧ ∀ r,ans=some r → (r.hi,r.member)∈z ∧ r.lo ≤ id ∧ id≤r.hi := by
  cases hfirst : (z.above id).head? with
  | none => exact ⟨none,by simp [rangeAt,hfirst],by simp⟩
  | some e =>
    have he := (first_above h.sorted hfirst).1
    obtain ⟨q,rfl,_⟩ := h.members e he
    refine ⟨_,rangeAt_first hfirst (hsmall q he),fun r hr => ?_⟩
    split_ifs at hr with hin
    cases hr
    exact ⟨he,hin⟩

lemma rangeAt_complete {q : SliceRange} (h : RangesOk handed k z)
    (hsmall : ∀ q : SliceRange,(q.hi,q.member)∈z → q.lo≤q.hi ∧ q.hi<2^64)
    (hq : (q.hi,q.member)∈z) (hlo : q.lo ≤ id) (hhi : id≤q.hi) : rangeAt z id=some (some q) := by
  cases hfirst : (z.above id).head? with
  | none =>
    have hmem : (q.hi,q.member)∈z.above id := by simp [above,hq,hhi]
    rw [head?_eq_none_iff.mp hfirst] at hmem
    cases hmem
  | some e =>
    obtain ⟨he,hge,hle⟩ := first_above h.sorted hfirst
    obtain ⟨x,rfl,_⟩ := h.members e he
    -- the first range also reaches up to the id, so it cannot be another one
    obtain rfl : x=q := by
      by_contra hne
      have hmin := hle _ hq hhi
      have hapart := h.apart x q he hq hne
      have hx := (hsmall x he).1
      unfold Apart at hapart
      dsimp only at hge hmin
      omega
    rw [rangeAt_first hfirst (hsmall x he),if_pos ⟨hlo,hhi⟩]

end Lookup

namespace AllocInv
variable {vol : ℕ} {s t : AllocState}

variable {k : IdKind} {r : SliceRange}

lemma range_bounds (h : AllocInv vol s) {q : SliceRange}
    (hq : (q.hi,q.member)∈s.rangesOf vol k) : 1≤q.lo ∧ q.lo≤q.hi ∧ q.hi ≤ s.nextOf vol k := by
  obtain ⟨q',he,hs⟩ := (h.ranges k).members _ hq
  obtain rfl := member_injective (Prod.mk.inj he).2
  exact hs.bounds (fun b hb hk => hk ▸ (h.batches b hb).2)

lemma keep (h : AllocInv vol s) (hr : Stretch s.handed k r.owner r.lo r.hi) : AllocInv vol (s.keepRange k r) := by
  have hcached : ∀ k',∀ x∈(s.keepRange k r).cacheOf k',Stretch s.handed k' x.owner x.lo x.hi := by
    intro k' x hx
    simp only [cacheOf,keepRange,getD_set] at hx
    split at hx
    · rename_i hk
      subst hk
      obtain hx | rfl := mem_remember hx
      · exact h.cached _ x hx
      · exact hr
    · exact h.cached k' x hx
  exact {h with cached := hcached}

/-- The mark is set to nextinode: no later batch is at or below it. -/
lemma withMark (h : AllocInv vol s) : AllocInv vol (s.withMark vol) := by
  unfold AllocState.withMark
  split
  · exact h
  rename_i hnone
  have hget : s.mark.get? vol=none := by simpa using hnone
  refine {h with marked := ?_, unmarked := ?_, markV := ?_}
  · intro m hm
    obtain rfl : s.nextOf vol .inode=m := by simpa using hm
    refine ⟨le_rfl,fun b hb hk => absurd hk (h.unmarked hget b hb),fun id hlo hhi => ?_⟩
    exact absurd (show id ≤ s.nextOf vol .inode from hhi) (by omega)
  · intro hm
    simp at hm
  · intro m hm
    rw [h.markV m hm] at hget
    cases hget

lemma forget (h : AllocInv vol s) {replies : List Batch} {records : List SliceRange}
    {found : List (IdKind × SliceRange)} (hreplies : replies.Sublist s.replies)
    (hrecords : records.Sublist s.records) (hfound : found.Sublist s.found) :
    AllocInv vol {s with replies := replies, records := records, found := found} :=
  {h with
    found := fun e he => h.found e (hfound.subset he)
    replies := fun b hb => h.replies b (hreplies.subset hb)
    records := fun r hr => h.records r (hrecords.subset hr)
    repliesApart := h.repliesApart.sublist hreplies
    recordsApart := h.recordsApart.sublist hrecords
    crossApart := fun b hb hk r hr => h.crossApart b (hreplies.subset hb) hk r (hrecords.subset hr)
    replyOpen := fun b hb => h.replyOpen b (hreplies.subset hb)
    recordOpen := fun r hr => h.recordOpen r (hrecords.subset hr)}

section Alloc
variable {owner : String}

lemma nextOf_alloc (k' : IdKind) :
    (s.alloc k vol owner).nextOf vol k'=if k'=k then s.nextOf vol k+k.batch else s.nextOf vol k' := by
  cases k <;> cases k' <;>
    simp [alloc,nextOf,nextRange,getD_set]

lemma nextOf_le_alloc (k' : IdKind) : s.nextOf vol k'≤(s.alloc k vol owner).nextOf vol k' := by
  rw [nextOf_alloc]
  split
  · rename_i hk
    subst hk
    omega
  · exact le_rfl

lemma handed_alloc : (s.alloc k vol owner).handed = ⟨k,vol,s.nextRange vol k owner⟩::s.handed := by
  cases k <;> rfl

lemma batch_pos (k : IdKind) : 1≤k.batch := by cases k <;> decide

lemma alloc_batches (h : AllocInv vol s) : ∀ b∈(s.alloc k vol owner).handed,b.db=vol ∧
    1≤b.range.lo ∧ b.range.lo≤b.range.hi ∧ b.range.hi≤(s.alloc k vol owner).nextOf vol b.kind := by
  intro b hb
  rw [handed_alloc] at hb
  obtain rfl | hb := mem_cons.mp hb
  · have := batch_pos k
    refine ⟨rfl,?_,?_,?_⟩
    · simp [nextRange]
    · simp only [nextRange]
      omega
    · rw [nextOf_alloc]
      simp [nextRange]
  · obtain ⟨hdb,hlo,hle,hhi⟩ := h.batches b hb
    exact ⟨hdb,hlo,hle,hhi.trans (nextOf_le_alloc b.kind)⟩

lemma batch_below (h : AllocInv vol s) {b : Batch} (hb : b∈s.handed) (hk : b.kind=k) :
    Apart b.range (s.nextRange vol k owner) := by
  have hhi := (h.batches b hb).2.2.2
  rw [hk] at hhi
  exact .inl (by simp only [nextRange]; omega)

lemma alloc_apart (h : AllocInv vol s) : ∀ b∈(s.alloc k vol owner).handed,
    ∀ b'∈(s.alloc k vol owner).handed,b.kind=b'.kind → b≠b' → Apart b.range b'.range := by
  intro b hb b' hb' hk hne
  rw [handed_alloc] at hb hb'
  obtain rfl | hb := mem_cons.mp hb
  · obtain rfl | hb' := mem_cons.mp hb'
    · exact absurd rfl hne
    · exact (h.batch_below hb' hk.symm).symm
  · obtain rfl | hb' := mem_cons.mp hb'
    · exact h.batch_below hb hk
    · exact h.apart b hb b' hb' hk hne

lemma alloc_small (h : AllocInv vol s) (hfits : s.nextOf vol k+k.batch<2^53) (k' : IdKind) :
    (s.alloc k vol owner).nextOf vol k'<2^53 := by
  rw [nextOf_alloc]
  split
  · exact hfits
  · exact h.small k'

lemma range_below (h : AllocInv vol s) {q : SliceRange} (hq : (q.hi,q.member)∈s.rangesOf vol k) :
    Apart q (s.nextRange vol k owner) :=
  .inl (by have := (h.range_bounds hq).2.2; simp only [nextRange]; omega)

lemma RangesOk.mono {handed handed' : List Batch} {z : Zset Bytes} (h : RangesOk handed k z)
    (hsub : ∀ b∈handed,b∈handed') : RangesOk handed' k z :=
  ⟨h.sorted,fun e he => (h.members e he).imp (fun _ hr => ⟨hr.1,hr.2.mono hsub⟩),h.apart⟩

lemma subset_alloc : ∀ b∈s.handed,b∈(s.alloc k vol owner).handed := fun b hb => by
  rw [handed_alloc]
  exact mem_cons_of_mem _ hb

lemma inode_recorded (h : AllocInv vol s) (owner : String) : ∃ R,RecordedAs (s.alloc .inode vol owner).handed .inode
    (s.rangesOf vol .inode) (s.nextRange vol .inode owner) R ((s.alloc .inode vol owner).rangesOf vol .inode) := by
  have hpos := batch_pos .inode
  have hok : RangesOk (s.alloc .inode vol owner).handed .inode (s.rangesOf vol .inode) :=
    RangesOk.mono (h.ranges .inode) subset_alloc
  have hinode : (s.alloc .inode vol owner).rangesOf vol .inode =
      inodeRecord (s.rangesOf vol .inode) (s.nextRange vol .inode owner) := by
    simp [alloc,rangesOf,getD_set]
  rw [hinode]
  exact record_spec hok (fun q hq => ⟨(h.range_bounds hq).1,(h.range_bounds hq).2.1⟩)
    ⟨_,by rw [handed_alloc]; exact mem_cons_self,rfl,rfl⟩
    (by simp only [nextRange]; omega) (fun q hq => h.range_below hq)
    (recorded_of_merge hok (by simp [nextRange]) (fun q hq => (h.range_bounds hq).2.1)).2

lemma alloc_withMark : s.alloc .inode vol owner=(s.withMark vol).alloc .inode vol owner := by
  have hsome : ((s.withMark vol).mark.get? vol).isSome=true := by
    unfold AllocState.withMark
    split
    · assumption
    · simp
  have hidem : (s.withMark vol).withMark vol=s.withMark vol := if_pos hsome
  unfold alloc
  rw [hidem]
  by_cases hm : (s.mark.get? vol).isSome=true
  · simp [AllocState.withMark,hm]
  · simp [AllocState.withMark,hm,AllocState.nextRange,AllocState.nextOf,AllocState.rangesOf]

lemma allocMarked (h : AllocInv vol s) (hmark : k=.inode → (s.mark.get? vol).isSome=true)
    (hfits : s.nextOf vol k+k.batch<2^53) : AllocInv vol (s.alloc k vol owner) := by
  have hsub : ∀ b∈s.handed,b∈(s.alloc k vol owner).handed := subset_alloc
  obtain ⟨hmarked,hmarkV,hcache,hrecords,hfound⟩ : (s.alloc k vol owner).mark=s.mark ∧
      (s.alloc k vol owner).markV=s.markV ∧ (s.alloc k vol owner).cache=s.cache ∧
      (s.alloc k vol owner).records=s.records ∧ (s.alloc k vol owner).found=s.found := by
    cases k with
    | inode => simp [AllocState.alloc,AllocState.withMark,hmark rfl]
    | chunk => exact ⟨rfl,rfl,rfl,rfl,rfl⟩
  have hreplies : (s.alloc k vol owner).replies=s.replies++[⟨k,vol,s.nextRange vol k owner⟩] := by cases k <;> rfl
  have hchunk : (s.alloc k vol owner).rangesOf vol .chunk=s.rangesOf vol .chunk := by
    cases k <;> simp [alloc,rangesOf,getD_set]
  have hnew : ⟨k,vol,s.nextRange vol k owner⟩ ∈ (s.alloc k vol owner).handed := by
    rw [handed_alloc]
    exact mem_cons_self
  refine ⟨alloc_batches h,alloc_small h hfits,alloc_apart h,fun k' => ?_,
    fun k' r hr => (h.cached k' r (by rwa [cacheOf,hcache] at hr)).mono hsub,fun e he => (h.found e (hfound ▸ he)).mono hsub,
    ?_,fun r hr => ?_,?_,hrecords ▸ h.recordsApart,?_,?_,by rw [hchunk,hrecords]; exact h.recordOpen,fun m hm => ?_,
    fun hm b hb => ?_,by rw [hmarked,hmarkV]; exact h.markV⟩
  · cases k' with
    | chunk =>
      rw [hchunk]
      exact RangesOk.mono (h.ranges .chunk) hsub
    | inode =>
      cases k with
      | chunk => exact RangesOk.mono (h.ranges .inode) hsub
      | inode =>
        obtain ⟨R,hR⟩ := h.inode_recorded owner
        exact hR.ok (RangesOk.mono (h.ranges .inode) hsub)
  · rw [hreplies]
    exact forall_mem_append.mpr ⟨fun b hb => hsub b (h.replies b hb),forall_mem_singleton.mpr hnew⟩
  · obtain ⟨b,hb,hk⟩ := h.records r (hrecords ▸ hr)
    exact ⟨b,hsub b hb,hk⟩
  · rw [hreplies]
    refine pairwise_append.mpr ⟨h.repliesApart,pairwise_singleton _ _,fun b hb b' hb' hk hk' => ?_⟩
    obtain rfl := mem_singleton.mp hb'
    exact h.batch_below (h.replies b hb) (hk.trans hk'.symm)
  · rw [hrecords,hreplies]
    refine forall_mem_append.mpr ⟨h.crossApart,forall_mem_singleton.mpr fun hk r hr => ?_⟩
    obtain ⟨b,hb,hbk,rfl⟩ := h.records r hr
    exact (h.batch_below hb (hbk.trans hk.symm)).symm
  · rw [hchunk,hreplies]
    refine forall_mem_append.mpr ⟨h.replyOpen,forall_mem_singleton.mpr fun hk q hq => ?_⟩
    obtain rfl : k=.chunk := hk
    exact h.range_below hq
  · rw [hmarked] at hm
    obtain ⟨hle,hbelow,hcover⟩ := h.marked m hm
    cases k with
    | chunk =>
      have hnext : (s.alloc .chunk vol owner).nextOf vol .inode=s.nextOf vol .inode := by
        rw [nextOf_alloc]
        rfl
      rw [hnext]
      refine ⟨hle,fun b hb hk => ?_,hcover⟩
      rw [handed_alloc] at hb
      obtain rfl | hb := mem_cons.mp hb
      · cases hk
      · exact hbelow b hb hk
    | inode =>
      have hnext : (s.alloc .inode vol owner).nextOf vol .inode=(s.nextRange vol .inode owner).hi := by
        rw [nextOf_alloc]
        rfl
      obtain ⟨R,hR⟩ := h.inode_recorded owner
      rw [hnext]
      refine ⟨by simp only [nextRange]; omega,fun b hb hk => ?_,fun id hlo hhi => ?_⟩
      · rw [handed_alloc] at hb
        obtain rfl | hb := mem_cons.mp hb
        · simp only [nextRange]
          omega
        · exact hbelow b hb hk
      · by_cases hid : id ≤ s.nextOf vol .inode
        · obtain ⟨x,hx,hxlo,hxhi⟩ := hcover id hlo hid
          obtain hx | ⟨hRlo,hRhi⟩ := hR.covers x hx
          · exact ⟨x,hx,hxlo,hxhi⟩
          · exact ⟨R,hR.mem,by omega,by omega⟩
        · refine ⟨R,hR.mem,?_,by rw [hR.hi]; exact hhi⟩
          have hRlo := hR.lo
          simp only [nextRange] at hRlo
          omega
  · rw [hmarked] at hm
    rw [handed_alloc] at hb
    obtain rfl | hb := mem_cons.mp hb
    · rintro rfl
      simp [hm] at hmark
    · exact h.unmarked hm b hb

lemma alloc (h : AllocInv vol s) (hfits : s.nextOf vol k+k.batch<2^53) : AllocInv vol (s.alloc k vol owner) := by
  cases k with
  | chunk => exact h.allocMarked nofun hfits
  | inode =>
    rw [alloc_withMark]
    refine h.withMark.allocMarked (fun _ => ?_) ?_ <;> unfold AllocState.withMark <;> split
    · assumption
    · simp
    · exact hfits
    · exact hfits

end Alloc

lemma hook (h : AllocInv vol s) {i : ℕ} {b : Batch} (hb : s.replies[i]? = some b) :
    AllocInv vol {s.keepRange b.kind b.range with replies := s.replies.eraseIdx i} ∧
    (b.kind=.chunk → AllocInv vol {s.keepRange b.kind b.range with
      replies := s.replies.eraseIdx i, records := s.records++[b.range]}) := by
  have hmem : b∈s.replies := mem_of_getElem? hb
  have hkeep : AllocInv vol {s.keepRange b.kind b.range with replies := s.replies.eraseIdx i} :=
    (h.keep (.batch (h.replies b hmem) rfl rfl)).forget (eraseIdx_sublist _ _) (.refl _) (.refl _)
  have hother := pairwise_eraseIdx (fun a b hab hb ha => (hab ha hb).symm) h.repliesApart hb
  refine ⟨hkeep,fun hk => {hkeep with records := ?_, recordsApart := ?_, crossApart := ?_, recordOpen := ?_}⟩
  · intro r hr
    obtain hr | rfl := by simpa using hr
    · exact h.records r hr
    · exact ⟨b,h.replies b hmem,hk,rfl⟩
  · refine pairwise_append.mpr ⟨h.recordsApart,pairwise_singleton _ _,fun r hr r' hr' => ?_⟩
    obtain rfl := mem_singleton.mp hr'
    exact (h.crossApart b hmem hk r hr).symm
  · intro b' hb' hk' r hr
    obtain hr | rfl := by simpa using hr
    · exact hkeep.crossApart b' hb' hk' r hr
    · exact (hother b' hb' hk hk').symm
  · intro r hr
    obtain hr | rfl := by simpa using hr
    · exact h.recordOpen r hr
    · exact h.replyOpen b hmem hk

lemma record (h : AllocInv vol s) {i : ℕ} (hr : s.records[i]? = some r) : AllocInv vol {s with
      records := s.records.eraseIdx i
      ranges := s.ranges.set (vol,.chunk) (mergeRangeLua (s.rangesOf vol .chunk) r)} := by
  have hmem : r∈s.records := mem_of_getElem? hr
  have hdrop : AllocInv vol {s with records := s.records.eraseIdx i} :=
    h.forget (.refl _) (eraseIdx_sublist _ _) (.refl _)
  have hother := pairwise_eraseIdx (fun _ _ => Apart.symm) h.recordsApart hr
  obtain ⟨b,hb,hbk,rfl⟩ := h.records r hmem
  have hbb := h.batches b hb
  obtain ⟨R,hR⟩ := record_spec (h.ranges .chunk)
    (fun q hq => ⟨(h.range_bounds hq).1,(h.range_bounds hq).2.1⟩) ⟨b,hb,hbk,rfl⟩ hbb.2.2.1
    (fun q hq => h.recordOpen _ hmem q hq)
    (recorded_of_merge (h.ranges .chunk) hbb.2.1 (fun q hq => (h.range_bounds hq).2.1)).1
  -- what is apart from all recorded ranges and from the new batch is apart from what it became
  have hopen : ∀ x : SliceRange,x.lo≤x.hi → Apart b.range x →
      (∀ q : SliceRange,(q.hi,q.member)∈s.rangesOf vol .chunk → Apart q x) →
      ∀ q : SliceRange,(q.hi,q.member)∈mergeRangeLua (s.rangesOf vol .chunk) b.range → Apart q x := by
    intro x hx hbx hxz q hq
    obtain he | ⟨y,he,hy,_⟩ := hR.rest _ hq
    · obtain rfl := member_injective (Prod.mk.inj he).2
      exact (hR.apart x hx hbx.symm (fun y hy => (hxz y hy).symm)).symm
    · obtain rfl := member_injective (Prod.mk.inj he).2
      exact hxz q hy
  have hrange : ∀ x∈s.records,x.lo≤x.hi := by
    intro x hx
    obtain ⟨b',hb',_,rfl⟩ := h.records x hx
    exact (h.batches b' hb').2.2.1
  set t : AllocState := {s with
    records := s.records.eraseIdx i
    ranges := s.ranges.set (vol,.chunk) (mergeRangeLua (s.rangesOf vol .chunk) b.range)} with ht
  have hchunk : t.rangesOf vol .chunk=mergeRangeLua (s.rangesOf vol .chunk) b.range := by
    simp [ht,rangesOf,getD_set]
  have hinode : t.rangesOf vol .inode=s.rangesOf vol .inode := by
    simp [ht,rangesOf,getD_set]
  refine {hdrop with ranges := ?_, replyOpen := ?_, recordOpen := ?_, marked := ?_}
  · intro k
    cases k with
    | inode =>
      rw [hinode]
      exact h.ranges .inode
    | chunk =>
      rw [hchunk]
      exact hR.ok (h.ranges .chunk)
  · intro b' hb' hk'
    rw [hchunk]
    exact hopen b'.range (h.batches b' (h.replies b' hb')).2.2.1
      (h.crossApart b' hb' hk' _ hmem).symm (h.replyOpen b' hb' hk')
  · intro r' hr'
    rw [hchunk]
    have hr'mem := (eraseIdx_sublist _ _).subset hr'
    exact hopen r' (hrange r' hr'mem) (hother r' hr') (h.recordOpen r' hr'mem)
  · rw [hinode]
    exact hdrop.marked

lemma range_small (h : AllocInv vol s) {q : SliceRange}
    (hq : (q.hi,q.member)∈s.rangesOf vol k) : q.lo≤q.hi ∧ q.hi<2^64 := by
  have := h.range_bounds hq
  have := h.small k
  omega

lemma find (h : AllocInv vol s) {id : ℕ} (hr : rangeAt (s.rangesOf vol k) id=some (some r)) :
    AllocInv vol {s with found := s.found++[(k,r)]} := by
  obtain ⟨ans,hans,hsound⟩ := rangeAt_sound id (h.ranges k) (fun q hq => h.range_small hq)
  obtain rfl := Option.some.inj (hans.symm.trans hr)
  have hmem := (hsound r rfl).1
  obtain ⟨q,he,hs⟩ := (h.ranges k).members _ hmem
  obtain rfl := member_injective (Prod.mk.inj he).2
  refine {h with found := fun e he => ?_}
  obtain he | rfl := by simpa using he
  · exact h.found e he
  · exact hs

lemma step {a : AllocAction} (h : AllocInv vol s) (hvol : inVolume vol s a=true)
    (hstep : allocStep vol s a=some t) : AllocInv vol t := by
  cases a with simp only [allocStep] at hstep
  | alloc k db owner =>
    simp only [inVolume,Bool.and_eq_true,decide_eq_true_eq] at hvol
    obtain ⟨rfl,hfits⟩ := hvol
    cases hstep
    exact h.alloc hfits
  | hook i =>
    split at hstep
    · cases hstep
    rename_i b hb
    cases hk : b.kind with
    | inode =>
      rw [hk] at hstep
      cases hstep
      simpa [hk] using (h.hook hb).1
    | chunk =>
      rw [hk] at hstep
      cases hstep
      simpa [hk] using (h.hook hb).2 hk
  | lose i =>
    split at hstep <;> cases hstep
    exact h.forget (eraseIdx_sublist _ _) (.refl _) (.refl _)
  | record i =>
    split at hstep <;> cases hstep
    rename_i r hr
    exact h.record hr
  | recordFails i =>
    split at hstep <;> cases hstep
    exact h.forget (.refl _) (eraseIdx_sublist _ _) (.refl _)
  | find k id =>
    split at hstep <;> cases hstep
    · rename_i r hr
      exact h.find hr
    · exact h
  | keep i =>
    split at hstep <;> cases hstep
    rename_i e he
    exact (h.keep (h.found e (mem_of_getElem? he))).forget (.refl _) (.refl _)
      (eraseIdx_sublist _ _)
  | inodeMark =>
    split at hstep <;> cases hstep
    · exact h
    · have hm := h.withMark
      exact ⟨hm.batches,hm.small,hm.apart,hm.ranges,hm.cached,hm.found,hm.replies,hm.records,
        hm.repliesApart,hm.recordsApart,hm.crossApart,hm.replyOpen,hm.recordOpen,hm.marked,hm.unmarked,
        fun m hmv => hmv⟩
  | restart =>
    cases hstep
    have hf := h.forget (nil_sublist s.replies) (nil_sublist s.records)
      (nil_sublist s.found)
    exact ⟨hf.batches,hf.small,hf.apart,hf.ranges,fun k r hr => (by cases hr),hf.found,hf.replies,
      hf.records,hf.repliesApart,hf.recordsApart,hf.crossApart,hf.replyOpen,hf.recordOpen,hf.marked,
      hf.unmarked,fun m hm => (by cases hm)⟩

end AllocInv

/-- The id is in a batch handed to `owner`. -/
def Receives (s : AllocState) (k : IdKind) (id : ℕ) (owner : String) : Prop :=
  ∃ b∈s.handed,b.kind=k ∧ b.range.owner=owner ∧ b.range.lo ≤ id ∧ id≤b.range.hi

section Answers
variable {vol : ℕ} {s t : AllocState} {k : IdKind} {id : ℕ} {owner owner' : String}

lemma AllocInv.receives_unique (h : AllocInv vol s) (ho : Receives s k id owner)
    (ho' : Receives s k id owner') : owner=owner' := by
  obtain ⟨b,hb,hk,rfl,hlo,hhi⟩ := ho
  obtain ⟨b',hb',hk',rfl,hlo',hhi'⟩ := ho'
  by_contra hne
  have hbb : b≠b' := fun he => hne (by rw [he])
  have hapart := h.apart b hb b' hb' (hk.trans hk'.symm) hbb
  unfold Apart at hapart
  omega

lemma AllocInv.cacheOwner_sound (h : AllocInv vol s) (ho : s.cacheOwner k id=some owner) : Receives s k id owner := by
  obtain ⟨r,hr,rfl⟩ := map_eq_some_iff.mp ho
  have hin := find?_some hr
  have hmem := mem_reverse.mp (mem_of_find?_eq_some hr)
  simp only [SliceRange.contains,Bool.and_eq_true,decide_eq_true_eq] at hin
  exact (h.cached k r hmem).handed_of_mem hin.1 hin.2

lemma AllocInv.receives_of_range (h : AllocInv vol s) {r : SliceRange}
    (hr : (r.hi,r.member)∈s.rangesOf vol k) (hlo : r.lo ≤ id) (hhi : id≤r.hi) : Receives s k id r.owner := by
  obtain ⟨q,he,hs⟩ := (h.ranges k).members _ hr
  obtain rfl := member_injective (Prod.mk.inj he).2
  exact hs.handed_of_mem hlo hhi

lemma AllocInv.rangeAt_receives (h : AllocInv vol s) (k : IdKind) (id : ℕ) :
    ∃ ans,rangeAt (s.rangesOf vol k) id=some ans ∧ ∀ r,ans=some r → Receives s k id r.owner := by
  obtain ⟨ans,hans,hsound⟩ := rangeAt_sound id (h.ranges k) (fun q hq => h.range_small hq)
  refine ⟨ans,hans,fun r hr => ?_⟩
  obtain ⟨hmem,hlo,hhi⟩ := hsound r hr
  exact h.receives_of_range hmem hlo hhi

lemma kept_step {a : AllocAction} (hstep : allocStep vol s a=some t) :
    (∀ b∈s.handed,b∈t.handed) ∧ ∀ m,s.mark.get? vol=some m → t.mark.get? vol=some m := by
  have hmark : ∀ db m,s.mark.get? vol=some m → (s.withMark db).mark.get? vol=some m := by
    intro db m hm
    unfold withMark
    split
    · exact hm
    · rename_i hnone
      have hne : vol≠db := by
        rintro rfl
        simp [hm] at hnone
      exact (get?_set_ne hne _).trans hm
  cases a with
  | alloc k db owner =>
    cases hstep
    cases k with
    | inode => exact ⟨fun b hb => mem_cons_of_mem _ hb,hmark db⟩
    | chunk => exact ⟨fun b hb => mem_cons_of_mem _ hb,fun m hm => hm⟩
  | inodeMark =>
    simp only [allocStep] at hstep
    split at hstep <;> cases hstep
    · exact ⟨fun b hb => hb,fun m hm => hm⟩
    · refine ⟨fun b hb => ?_,hmark vol⟩
      unfold withMark
      split <;> exact hb
  | hook i =>
    simp only [allocStep] at hstep
    split at hstep <;> cases hstep
    split <;> exact ⟨fun b hb => hb,fun m hm => hm⟩
  | lose i | record i | recordFails i | find k id | keep i =>
    simp only [allocStep] at hstep
    split at hstep <;> cases hstep <;> exact ⟨fun b hb => hb,fun m hm => hm⟩
  | restart =>
    cases hstep
    exact ⟨fun b hb => hb,fun m hm => hm⟩

lemma kept_run {as : List AllocAction} (hrun : Transition.run (allocStep vol) s as=some t) :
    (∀ b∈s.handed,b∈t.handed) ∧ ∀ m,s.mark.get? vol=some m → t.mark.get? vol=some m :=
  run_invariant
    (I := fun t => (∀ b∈s.handed,b∈t.handed) ∧ ∀ m,s.mark.get? vol=some m → t.mark.get? vol=some m)
    (fun _ _ _ hi hstep => ⟨fun b hb => (kept_step hstep).1 b (hi.1 b hb),
      fun m hm => (kept_step hstep).2 m (hi.2 m hm)⟩) ⟨fun _ hb => hb,fun _ hm => hm⟩ hrun

end Answers

/-- What `Owner` can answer for an id in a state: a range in the cache, or what ZRANGE finds. -/
def Answers (vol : ℕ) (s : AllocState) (k : IdKind) (id : ℕ) (ans : Option String) : Prop :=
  (ans.isSome=true ∧ s.cacheOwner k id=ans) ∨
  (rangeAt (s.rangesOf vol k) id).map (fun r => r.map (·.owner))=some ans

/-- An admitted new inode: its number is the principal's, or it was handed out before the mark. -/
lemma newInodeGate_admits {p : Principal} {u : DecisionUnit} {n : ℕ} {newHere : List PlacedIn}
    {attrs : GoMap ℕ AttrInfo} {ask : ℕ → Option (Option String)} {ans : Option String}
    (h : newInodeGate p u n newHere attrs=none) (hask : u.inodeOwner=some ask)
    (hans : ask n=some ans) : ans=some p.name ∨ (ans=none ∧ ∃ m,u.inodeMark=some (some m) ∧ n ≤ m) := by
  unfold newInodeGate at h
  rw [hask] at h
  split at h
  case h_2 => cases h
  split_ifs at h
  simp only [hans] at h
  cases ans with
  | some owner =>
    by_cases ho : owner=p.name
    · exact .inl (by rw [ho])
    · simp [ho] at h
  | none =>
    refine .inr ⟨rfl,?_⟩
    cases hmark : u.inodeMark with
    | none => simp [hmark] at h
    | some mark =>
      cases mark with
      | none => simp [hmark] at h
      | some m => exact ⟨m,rfl,by simpa [hmark] using h⟩

/-- Nothing has been handed out or remembered yet. -/
structure AllocStart (vol : ℕ) (s : AllocState) : Prop where
  handed : s.handed=[]
  replies : s.replies=[]
  records : s.records=[]
  found : s.found=[]
  cache : s.cache=[]
  ranges : ∀ k,s.rangesOf vol k=[]
  mark : s.mark.get? vol=none
  markV : s.markV=none
  small : ∀ k,s.nextOf vol k < 2^53

lemma AllocStart.inv {vol : ℕ} {s : AllocState} (h : AllocStart vol s) : AllocInv vol s := by
  have hcache : ∀ k,s.cacheOf k=[] := fun k => by simp [cacheOf,h.cache,GoMap.getD]
  refine ⟨?_,h.small,?_,fun k => ⟨?_,?_,?_⟩,?_,?_,?_,?_,?_,?_,?_,?_,?_,?_,?_,?_⟩
  all_goals simp [h.handed,h.replies,h.records,h.found,hcache,h.ranges,h.mark,h.markV,Zset.Sorted]

/-- In every run whose batches are taken in the volume's database: recorded ranges are disjoint
unions of their owner's batches; `Owner` never names a principal that did not receive the id, and no
id has two; every inode number above the mark has its owner recorded; and no inode number handed to
one principal is created by another, before or after. -/
theorem allocation_ownership {vol : ℕ} {s t : AllocState} {as : List AllocAction} (hstart : AllocStart vol s)
    (hvol : Transition.AllSteps (allocStep vol) (fun s a => inVolume vol s a = true) s as)
    (hrun : Transition.run (allocStep vol) s as = some t) : (∀ k,RangesOk t.handed k (t.rangesOf vol k)) ∧
    (∀ k id ans,Answers vol t k id ans → ∀ owner,ans = some owner → Receives t k id owner) ∧
    (∀ k id owner owner',Receives t k id owner → Receives t k id owner' → owner = owner') ∧
    (∀ m,t.mark.get? vol = some m → ∀ id,m < id → id ≤ t.nextOf vol .inode → ∃ owner,Receives t .inode id owner ∧
        (rangeAt (t.rangesOf vol .inode) id).map (fun r => r.map (·.owner)) = some (some owner)) ∧
    (∀ v bs w cs,Transition.run (allocStep vol) t bs = some v → Transition.run (allocStep vol) v cs = some w →
      Transition.AllSteps (allocStep vol) (fun s a => inVolume vol s a = true) t (bs++cs) →
      ∀ p u n newHere attrs ask ans,u.inodeOwner = some ask → ask n = some ans →
        Answers vol t .inode n ans → (∀ m,u.inodeMark = some (some m) → v.mark.get? vol = some m) →
        newInodeGate p u n newHere attrs = none → ∀ owner,Receives w .inode n owner → owner = p.name) := by
  have hinv : AllocInv vol t := run_invariant_of_allSteps
    (fun _ _ _ hi hg hs => AllocInv.step hi hg hs) hstart.inv hvol hrun
  have hanswers : ∀ k id ans,Answers vol t k id ans → ∀ owner,ans=some owner → Receives t k id owner := by
    rintro k id ans (⟨_,hc⟩ | hz) owner rfl
    · exact hinv.cacheOwner_sound hc
    · obtain ⟨r,hr,hsound⟩ := hinv.rangeAt_receives k id
      rw [hr] at hz
      obtain ⟨q,rfl,rfl⟩ := map_eq_some_iff.mp (Option.some.inj hz)
      exact hsound q rfl
  refine ⟨hinv.ranges,hanswers,fun k id owner owner' => hinv.receives_unique,?_,?_⟩
  · intro m hm id hlo hhi
    obtain ⟨r,hr,hrlo,hrhi⟩ := (hinv.marked m hm).2.2 id hlo hhi
    refine ⟨r.owner,hinv.receives_of_range hr hrlo hrhi,?_⟩
    rw [rangeAt_complete (hinv.ranges .inode) (fun q hq => hinv.range_small hq) hr hrlo hrhi]
    rfl
  · intro v bs w cs hv hw hlater p u n newHere attrs ask ans hask hans hanswer hmark hgate owner howner
    have hinvw : AllocInv vol w := run_invariant_of_allSteps
      (fun _ _ _ hi hg hs => AllocInv.step hi hg hs) hinv hlater (run_append hv hw)
    obtain rfl | ⟨_,m,hm,hle⟩ := newInodeGate_admits hgate hask hans
    · obtain ⟨b,hb,hrest⟩ := hanswers .inode n _ hanswer p.name rfl
      have hlater : Receives w .inode n p.name := ⟨b,(kept_run hw).1 b ((kept_run hv).1 b hb),hrest⟩
      exact hinvw.receives_unique howner hlater
    · obtain ⟨b,hb,hk,_,hlo,_⟩ := howner
      have := (hinvw.marked m ((kept_run hw).2 m (hmark m hm))).2.1 b hb hk
      omega

/-- Two Macs take inode batches, and one a slice batch that is recorded late. -/
def batchRun : List AllocAction :=
  [.alloc .inode 1 "m:a",.hook 0,.alloc .chunk 1 "m:a",.alloc .inode 1 "m:b",.hook 1,.hook 0,.record 0,
    .find .inode 5]

theorem batch_run_owned : ∃ t,Transition.run (allocStep 1) {} batchRun = some t ∧ ∃ owner,Receives t .inode 1500 owner ∧
        (rangeAt (t.rangesOf 1 .inode) 1500).map (fun r => r.map (·.owner)) = some (some owner) := by
  have hstart : AllocStart 1 {} := by
    refine ⟨rfl,rfl,rfl,rfl,rfl,fun k => rfl,rfl,rfl,fun k => ?_⟩
    change 0 < 2^53
    decide
  have hrun : (Transition.run (allocStep 1) {} batchRun).map
      (fun t => (t.mark.get? 1,t.nextOf 1 .inode)) = some (some 0,2048) := by
    decide +kernel
  obtain ⟨t,ht,hobs⟩ := map_eq_some_iff.mp hrun
  obtain ⟨hmark,hnext⟩ := Prod.mk.inj hobs
  have hvol := allSteps_of_check (show Transition.checkSteps (allocStep 1) (inVolume 1) {}
    batchRun = true by decide +kernel)
  obtain ⟨_,_,_,hcover,_⟩ := allocation_ownership hstart hvol ht
  exact ⟨t,ht,hcover 0 hmark 1500 (by omega) (by omega)⟩

/-- A connection that never selected the volume takes batches in database 0. -/
def otherDatabaseRun : List AllocAction :=
  [.alloc .inode 1 "m:a",.hook 0,.alloc .chunk 1 "m:a",.hook 0,.record 0,
    .alloc .inode 0 "m:b",.hook 0,.alloc .chunk 0 "m:b",.hook 0,.record 0]

/-- The volume's inode 5 was handed to one Mac and may be created by another, and two recorded
slice ranges are the same ids. -/
theorem other_database_shares_ids :
    ∃ t,Transition.run (allocStep 1) {} otherDatabaseRun = some t ∧
      (⟨.inode,1,⟨1,1024,"m:a"⟩⟩ : Batch) ∈ t.handed ∧
      newInodeGate ⟨"m:b",.mac,"mac-b"⟩
        { kind := .txn, cmds := [], inodeOwner := some (fun n => some (t.cacheOwner .inode n)) }
        5 [⟨1,typeFile⟩] [(5,⟨typeFile,1⟩)] = none ∧
      t.rangesOf 1 .chunk = [(4096,member ⟨1,4096,"m:a"⟩),(4096,member ⟨1,4096,"m:b"⟩)] := by
  have hrun : (Transition.run (allocStep 1) {} otherDatabaseRun).map
      (fun t => (decide ((⟨.inode,1,⟨1,1024,"m:a"⟩⟩ : Batch) ∈ t.handed),t.cacheOwner .inode 5,
        t.rangesOf 1 .chunk)) =
      some (true,some "m:b",
        [(4096,member ⟨1,4096,"m:a"⟩),(4096,member ⟨1,4096,"m:b"⟩)]) := by
    decide +kernel
  obtain ⟨t,ht,hobs⟩ := map_eq_some_iff.mp hrun
  simp only [Prod.mk.injEq,decide_eq_true_eq] at hobs
  obtain ⟨hhanded,hcache,hranges⟩ := hobs
  refine ⟨t,ht,hhanded,?_,hranges⟩
  simp [newInodeGate,GoMap.get?,hcache]

end JuiceMount.RespProxy
