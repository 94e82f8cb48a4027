import JuiceMount.RespProxy.Decimals

/-! The keys behind the shapes of the classifier: `ParseKey` gives a key the one reference that the
key is built from, and every other text the unknown shape. -/
namespace JuiceMount.RespProxy
open List

/-- The keys JuiceFS builds from an inode, chunks apart. -/
def inodeKeys : List (String × Shape × Group) :=
  [("i",.inode,.inode),("d",.dentry,.dentry),("p",.parent,.inode),("x",.xattr,.inode),
    ("s",.symlink,.inode),("lockf",.flock,.inode),("lockp",.plock,.inode)]

def sessionKeys : List (String × Shape) := [("locked",.locked),("session",.session)]

/-- The namespaces a key can lie in; the first two have no key without a suffix. -/
def namespaces : List (String × Shape × Group × Bool) :=
  [("jum:presence:",.presence,.presence,true),("jm:link-bench:",.linkBench,.linkbench,true),
    ("juicefarm:",.farm,.farm,false),("jmfarm:",.jmFarm,.farm,false),("jmctl:",.jmCtl,.farm,false),
    ("jmlease:",.lease,.lease,false)]

/-- The key of a reference, as the volume and the proxy's own namespaces write it. -/
inductive Names : Bytes → KeyRef → Prop
  | volume {e} (he : e∈globalKeys) : Names (ascii e.1) { shape := .global e.2, group := e.2.group }
  | space {e} {suffix : Bytes} (he : e∈namespaces) (hs : e.2.2.2=true → suffix≠[]) :
      Names (ascii e.1++suffix) { shape := e.2.1, group := e.2.2.1, suffix := suffix }
  | channel : Names (ascii "juicemount:metadata") { shape := .channel, group := .channel }
  | session {e} {n : ℕ} (he : e∈sessionKeys) (hn : n < 2^64) :
      Names (ascii e.1++formatUint n) { shape := e.2, group := .session, sid := n }
  | inode {e} {n : ℕ} (he : e∈inodeKeys) (hn : n < 2^64) : Names (ascii e.1++formatUint n)
      { shape := e.2.1, group := e.2.2, ino := n, hasIno := true, trash := isTrashIno n }
  | chunk {n i : ℕ} (hn : n < 2^64) (hi : i < 2^64) : Names (ascii "c"++formatUint n++ascii "_"++formatUint i)
      { shape := .chunk, group := .inode, ino := n, hasIno := true, trash := isTrashIno n }

variable {k s rest : Bytes} {p : String} {r : KeyRef} {n : ℕ}

lemma afterLit_eq_some : afterLit p k=some s ↔ k=ascii p++s := by
  have hlen : (ascii p).length=p.length := by simp [ascii,String.length_toList]
  simp only [afterLit,List.isPrefixOf_iff_prefix,← hlen]
  constructor
  · intro h
    split_ifs at h with hp
    obtain ⟨t,rfl⟩ := hp
    cases h
    simp
  · rintro rfl
    simp

lemma inoKey_eq_some {sh : Shape} {g : Group} : inoKey sh g s=some r ↔ ∃ n<2^64,s=formatUint n ∧
    r = {shape := sh, group := g, ino := n, hasIno := true, trash := isTrashIno n} := by
  simp only [inoKey,Option.map_eq_some_iff,digits_eq_some,and_assoc,eq_comm (b := r)]

namespace Names

lemma of_afterLit {sh : Shape} {g : Group} {b : Bool} (hk : afterLit p k=some s) (he : (p,sh,g,b)∈namespaces)
    (hs : b=true → s≠[]) : Names k {shape := sh, group := g, suffix := s} := by
  rw [afterLit_eq_some.mp hk]
  exact .space he hs

lemma of_namespaceKey (h : namespaceKey k=some r) : Names k r := by
  unfold namespaceKey at h
  split at h
  · cases h
    exact of_afterLit ‹_› (b := true) (by decide) (by simp)
  split at h
  · cases h
    exact of_afterLit ‹_› (b := true) (by decide) (by simp)
  iterate 4
    split at h
    · cases h
      exact of_afterLit ‹_› (b := false) (by decide) nofun
  split_ifs at h with hk
  cases h
  rw [hk]
  exact .channel

lemma of_inoKey {sh : Shape} {g : Group} (hk : k=ascii p++s) (he : (p,sh,g)∈inodeKeys)
    (h : inoKey sh g s=some r) : Names k r := by
  obtain ⟨n,hn,rfl,rfl⟩ := inoKey_eq_some.mp h
  rw [hk]
  exact .inode he hn

lemma of_digits {sh : Shape} (hk : k=ascii p++s) (he : (p,sh)∈sessionKeys)
    (h : (digits s).map (fun n => {shape := sh, group := .session, sid := n : KeyRef})=some r) : Names k r := by
  obtain ⟨n,hs,rfl⟩ := Option.map_eq_some_iff.mp h
  obtain ⟨hn,rfl⟩ := digits_eq_some.mp hs
  rw [hk]
  exact .session he hn

lemma of_lockKey (h : lockKey k=some r) : Names k r := by
  unfold lockKey at h
  split at h
  · exact of_inoKey (afterLit_eq_some.mp ‹_›) (by decide) h
  split at h
  · exact of_inoKey (afterLit_eq_some.mp ‹_›) (by decide) h
  split at h
  · exact of_digits (afterLit_eq_some.mp ‹_›) (by decide) h
  split at h
  · exact of_digits (afterLit_eq_some.mp ‹_›) (by decide) h
  · cases h

lemma of_letterKey (h : letterKey k=some r) : Names k r := by
  unfold letterKey at h
  split at h
  · rename_i c rest
    split_ifs at h with hrest hi hd hp hx hs hc
    · exact of_inoKey (p := "i") (by rw [hi]; rfl) (by decide) h
    · exact of_inoKey (p := "d") (by rw [hd]; rfl) (by decide) h
    · exact of_inoKey (p := "p") (by rw [hp]; rfl) (by decide) h
    · exact of_inoKey (p := "x") (by rw [hx]; rfl) (by decide) h
    · exact of_inoKey (p := "s") (by rw [hs]; rfl) (by decide) h
    · split at h
      · rename_i x xs idx hsplit
        split_ifs at h with hidx
        obtain ⟨n,hn,hx,rfl⟩ := inoKey_eq_some.mp h
        obtain ⟨i,hi⟩ := Option.isSome_iff_exists.mp hidx
        obtain ⟨hlt,rfl⟩ := digits_eq_some.mp hi
        rw [hc,(splitByte_eq_some.mp hsplit).1,hx]
        simpa [ascii] using Names.chunk hn hlt
      · cases h
  · cases h

/-- No volume-wide key holds a digit. -/
lemma parseKey_digits (hd : ∃ c∈k,isDigit c=true) (hspace : namespaceKey k=none)
    (h : lockKey k=some r ∨ lockKey k=none ∧ letterKey k=some r) : parseKey k=r := by
  have hall : globalKeys.all (fun e => (ascii e.1).all (fun c => !isDigit c))=true := by decide +kernel
  have hnone : globalKeys.find? (fun e => ascii e.1=k)=none := by
    refine find?_eq_none.mpr fun e he hk => ?_
    obtain ⟨c,hc,hdigit⟩ := hd
    rw [← of_decide_eq_true hk] at hc
    have := List.all_eq_true.mp (List.all_eq_true.mp hall e he) c hc
    simp [hdigit] at this
  rw [parseKey,hnone,hspace]
  obtain h | ⟨h,h'⟩ := h
  · rw [h]
    rfl
  · rw [h,h']
    rfl

lemma parseKey_eq (h : Names k r) : parseKey k=r := by
  cases h with
  | volume he =>
    have hall : globalKeys.all (fun e => parseKey (ascii e.1) = {shape := .global e.2, group := e.2.group})=true := by
      decide +kernel
    exact of_decide_eq_true (List.all_eq_true.mp hall _ he)
  | @space e suffix he hs =>
    simp only [namespaces,mem_cons,not_mem_nil,or_false] at he
    obtain rfl | rfl | rfl | rfl | rfl | rfl := he
    · cases suffix with
      | nil => exact absurd rfl (hs rfl)
      | cons c t => rfl
    · cases suffix with
      | nil => exact absurd rfl (hs rfl)
      | cons c t => rfl
    all_goals rfl
  | channel => decide +kernel
  | @session e n he hn =>
    obtain ⟨c,l,hcl,hlo,hhi⟩ := head_formatUint n
    have hd : ∃ d∈ascii e.1++formatUint n,isDigit d=true := ⟨c,by simp [hcl],by simp [isDigit,hlo,hhi]⟩
    have hsid : ∀ sh,(digits (formatUint n)).map (fun n => ({shape := sh, group := .session, sid := n} : KeyRef))=_ :=
      fun _ => congrArg _ (digits_eq_some.mpr ⟨hn,rfl⟩)
    simp only [sessionKeys,mem_cons,not_mem_nil,or_false] at he
    obtain rfl | rfl := he <;> exact parseKey_digits hd rfl (.inl (hsid _))
  | @inode e n he hn =>
    obtain ⟨c,l,hcl,hlo,hhi⟩ := head_formatUint n
    have hd : ∃ d∈ascii e.1++(c::l),isDigit d=true := ⟨c,by simp,by simp [isDigit,hlo,hhi]⟩
    have hino : ∀ sh g,inoKey sh g (c::l)=_ := fun sh g => inoKey_eq_some.mpr ⟨n,hn,hcl.symm,rfl⟩
    rw [hcl]
    simp only [inodeKeys,mem_cons,not_mem_nil,or_false] at he
    obtain rfl | rfl | rfl | rfl | rfl | rfl | rfl := he
    iterate 4 exact parseKey_digits hd rfl (.inr ⟨rfl,hino _ _⟩)
    · have hne : c≠101 := by
        rintro rfl
        exact absurd hhi (by decide)
      refine parseKey_digits hd rfl (.inr ⟨?_,hino _ _⟩)
      simp [lockKey,afterLit,ascii,hne.symm]
    iterate 2 exact parseKey_digits hd rfl (.inl (hino _ _))
  | @chunk n i hn hi =>
    obtain ⟨c,l,hcl,hlo,hhi⟩ := head_formatUint n
    have hsplit : splitByte 95 (c::l++95::formatUint i)=some (c::l,formatUint i) :=
      splitByte_eq_some.mpr ⟨rfl,fun h => absurd (mem_formatUint (hcl ▸ h)).2 (by decide)⟩
    have hk : ascii "c"++formatUint n++ascii "_"++formatUint i = 99::(c::l++95::formatUint i) := by simp [hcl,ascii]
    rw [hk]
    refine parseKey_digits ⟨c,by simp,by simp [isDigit,hlo,hhi]⟩ rfl (.inr ⟨rfl,?_⟩)
    have hidx : (digits (formatUint i)).isSome=true := by rw [digits_eq_some.mpr ⟨hi,rfl⟩]; rfl
    have hkey : letterKey (99::(c::l++95::formatUint i))=inoKey .chunk .inode (c::l) := by
      simp only [letterKey,hsplit,hidx]
      rfl
    exact hkey.trans (inoKey_eq_some.mpr ⟨n,hn,hcl.symm,rfl⟩)

lemma of_parseKey (h : parseKey k ≠ {shape := .unknown, group := .unknown}) : Names k (parseKey k) := by
  unfold parseKey at h ⊢
  split at h
  · rename_i e he
    rw [← of_decide_eq_true (find?_some (p := fun e : String × Global => decide (ascii e.1=k)) he)]
    exact .volume (mem_of_find?_eq_some he)
  · cases hs : namespaceKey k with
    | some r => exact of_namespaceKey hs
    | none =>
      cases hl : lockKey k with
      | some r => exact of_lockKey hl
      | none =>
        cases hc : letterKey k with
        | some r => exact of_letterKey hc
        | none =>
          rw [hs,hl,hc] at h
          exact absurd rfl h

lemma shape_ne (h : Names k r) : r.shape≠.unknown := by
  have hspaces : ∀ e∈namespaces,e.2.1≠.unknown := by decide
  have hsessions : ∀ e∈sessionKeys,e.2≠.unknown := by decide
  have hinodes : ∀ e∈inodeKeys,e.2.1≠.unknown := by decide
  cases h with
  | volume | channel | chunk => simp
  | space he => exact hspaces _ he
  | session he => exact hsessions _ he
  | inode he => exact hinodes _ he

lemma inode_key {e : String × Shape × Group} (he : e∈inodeKeys) (h : Names k r) (hs : r.shape=e.2.1) :
    k=ascii e.1++formatUint r.ino := by
  have hvolume : ∀ e∈inodeKeys,∀ e'∈globalKeys,Shape.global e'.2≠e.2.1 := by decide
  have hspace : ∀ e∈inodeKeys,∀ e'∈namespaces,e'.2.1≠e.2.1 := by decide
  have hsession : ∀ e∈inodeKeys,∀ e'∈sessionKeys,e'.2≠e.2.1 := by decide
  have hother : ∀ e∈inodeKeys,Shape.channel≠e.2.1 ∧ Shape.chunk≠e.2.1 := by decide
  have hname : ∀ e∈inodeKeys,∀ e'∈inodeKeys,e'.2.1=e.2.1 → e'.1=e.1 := by decide
  cases h with
  | volume he' => exact absurd hs (hvolume e he _ he')
  | space he' => exact absurd hs (hspace e he _ he')
  | channel => exact absurd hs (hother e he).1
  | session he' => exact absurd hs (hsession e he _ he')
  | inode he' => rw [hname e he _ he' hs]
  | chunk => exact absurd hs (hother e he).2

end Names

/-- A key parses to the reference it is built from, and a text that is no key to the unknown shape;
the references of two keys of inodes differ in shape or inode, chunks of one inode apart. -/
theorem parseKey_exact (k : Bytes) :
    (∀ r,Names k r ↔ parseKey k=r ∧ r ≠ { shape := .unknown, group := .unknown }) ∧
    ((parseKey k).trash=true ↔ (parseKey k).hasIno=true ∧ trashInode ≤ (parseKey k).ino) ∧
    ∀ k',(parseKey k).hasIno=true → (parseKey k').shape = (parseKey k).shape →
      (parseKey k').ino = (parseKey k).ino → k'=k ∨ (parseKey k).shape=.chunk := by
  refine ⟨fun r => ⟨fun h => ⟨h.parseKey_eq,fun hr => h.shape_ne (congrArg KeyRef.shape hr)⟩,?_⟩,?_,fun k' hino hshape hsame => ?_⟩
  · rintro ⟨rfl,h⟩
    exact .of_parseKey h
  all_goals
    by_cases hk : parseKey k = { shape := .unknown, group := .unknown }
    · simp_all
    have h := Names.of_parseKey hk
  · generalize parseKey k=r at h
    cases h <;> simp [isTrashIno]
  · have h' := Names.of_parseKey (k := k') fun hu => h.shape_ne (hshape.symm.trans (congrArg KeyRef.shape hu))
    revert hshape hsame hino
    generalize parseKey k=r at h ⊢
    cases h with
    | volume | space | channel | session => simp
    | chunk => simp
    | inode he =>
      intro _ hshape hsame
      exact .inl (by rw [h'.inode_key he hshape,hsame])

end JuiceMount.RespProxy
