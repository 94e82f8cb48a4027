import JuiceMount.Metadata.ScanRows

/-! The tree that a full SCAN rebuilds. A path of the backend is a chain of children from the root
(`Located`). Where the inodes fit a word and the sizes and times print as whole numbers, every line
says what is stored, the walk to the root finds the chain of an entry, and the entries are those of the
paths with at most 51 names. -/
namespace JuiceMount.Metadata.Scan
open Mirror JuiceMount.Lists List GoMap Option Backend
open RespProxy (Bytes formatUint parseInt splitByte isDigit decimal)

section Numbers

lemma foldl_bigEndian (bytes : List UInt8) (n : ℕ) :
    bytes.foldl (fun n b => n*256+b.toNat) n=n*256^bytes.length+bigEndian bytes := by
  unfold bigEndian
  induction bytes generalizing n with
  | nil => simp
  | cons b bytes ih =>
    simp only [foldl_cons,length_cons]
    rw [ih (n*256+b.toNat),ih (0*256+b.toNat)]
    ring

lemma bigEndian_append (a b : List UInt8) : bigEndian (a++b)=bigEndian a*256^b.length+bigEndian b := by
  conv_lhs => rw [bigEndian,foldl_append,foldl_bigEndian b]
  rfl

lemma bigEndian_lt (bytes : List UInt8) : bigEndian bytes<256^bytes.length := by
  induction bytes using List.reverseRecOn with
  | nil => decide
  | append_singleton bytes b ih =>
    rw [bigEndian_append,length_append]
    have hb := b.toNat_lt
    have hone : bigEndian [b]=b.toNat := by simp [bigEndian]
    simp only [length_singleton,hone,pow_succ,pow_zero] at hb ⊢
    omega

lemma u32_lt (s : Bytes) (o : ℕ) : u32 s o<2^32 := by
  refine (bigEndian_lt _).trans_le ?_
  calc 256^((s.drop (o-1)).take 4).length≤256^4 := Nat.pow_le_pow_right (by decide) (length_take_le _ _)
    _ = 2^32 := by norm_num

lemma double_of_lt {n : ℕ} (h : n<2^53) : double n=n := if_pos h

lemma words_eq {s : Bytes} {o : ℕ} (ho : 1≤o) (hlen : o+7 ≤ s.length) :
    u32 s o*2^32+u32 s (o+4)=bigEndian ((s.drop (o-1)).take 8) := by
  have hsplit : (s.drop (o-1)).take 8=(s.drop (o-1)).take 4++(s.drop (o+4-1)).take 4 := by
    rw [show (8 : ℕ)=4+4 from rfl,take_add,drop_drop]
    congr 3
    omega
  rw [hsplit,bigEndian_append,u32,u32]
  have hl : ((s.drop (o+4-1)).take 4).length=4 := by
    rw [length_take,length_drop]
    omega
  rw [hl]
  norm_num

lemma luaTostring_of_lt {n : ℕ} (h : n<10^14) : luaTostring n=formatUint n := if_pos h

lemma colon_not_mem_formatUint (n : ℕ) : (58 : UInt8) ∉ formatUint n := fun h =>
  absurd (RespProxy.mem_formatUint h).2 (by decide)

lemma parseUint_formatUint {n : ℕ} (h : n<2^64) : parseUint (formatUint n)=some n := by
  simpa [parseUint,RespProxy.formatUint_ne_nil,RespProxy.all_isDigit_formatUint] using h

end Numbers

section Lines

lemma splitN_colonLine (fields : List Bytes) (h : ∀ f∈fields,(58 : UInt8) ∉ f) (rest : Bytes) :
    splitN 58 (fields.length+1) (colonLine fields rest)=fields++[rest] := by
  induction fields with
  | nil => rfl
  | cons f fields ih =>
    have hsplit : splitByte 58 (f++58::colonLine fields rest)=some (f,colonLine fields rest) :=
      RespProxy.splitByte_eq_some.mpr ⟨rfl,h f mem_cons_self⟩
    have ih := ih (fun g hg => h g (mem_cons_of_mem f hg))
    simp only [colonLine,foldr_cons,length_cons] at ih hsplit ⊢
    simp only [splitN,hsplit,ih,cons_append]

/-- The numbers of a line print as whole numbers. -/
structure LineAttr.Fits (a : LineAttr) : Prop where
  valid : a.valid=0 ∨ a.valid=1
  mt : a.mt < 10^14
  ns : a.ns<1000000000
  sz : a.sz < 10^14

def rowOf (db : Backend) (key : ℕ) (child : Bytes × Bytes) : ScanRawEntry :=
  let ci := u32 child.2 6
  let a := lineAttr (db.attrs ci)
  { ft := (child.2.headD 0).toNat
    attrValid := a.valid=1
    mtime := a.mt
    size := a.sz
    mtimeNsec := a.ns
    mtimeNsecKnown := a.valid=1
    inode := ci
    parentInode := formatUint key
    name := child.1 }

lemma parseScanFields_formatted {ft valid mt sz ino : ℕ} (known : Bool) (nsec : ℤ) (parent name : Bytes) (hft : ft<2^63)
    (hvalid : valid=0 ∨ valid=1) (hmt : mt<2^63) (hsz : sz<2^63) (hino : ino<2^64) :
    parseScanFields known nsec [formatUint ft,formatUint valid,formatUint mt,formatUint sz,formatUint ino,parent,name] =
      some
        { ft := ft
          attrValid := valid=1
          mtime := mt
          size := sz
          mtimeNsec := nsec
          mtimeNsecKnown := known && valid=1
          inode := ino
          parentInode := parent
          name := name } := by
  have h0 : formatUint 0=[48] := by decide
  have h1 : formatUint 1=[49] := by decide
  simp only [parseScanFields,RespProxy.parseInt_formatUint hft,RespProxy.parseInt_formatUint hmt,
    RespProxy.parseInt_formatUint hsz,parseUint_formatUint hino,bind_eq_bind,bind_some]
  obtain rfl | rfl := hvalid <;> simp [h0,h1]

/-- The fields of a precise line, none of which has a colon, are found again. -/
lemma parseScanRawEntry_colonLine {ft valid mt ns sz ino parent : Bytes}
    (h : ∀ f∈[ft,valid,mt,ns,sz,ino,parent],(58 : UInt8) ∉ f) (name : Bytes) :
    parseScanRawEntry (colonLine [lineVersion,ft,valid,mt,ns,sz,ino,parent] name) =
      (parseInt ns).bind (fun nsec =>
        if nsec<0 ∨ 1000000000≤nsec then none
        else parseScanFields true nsec [ft,valid,mt,sz,ino,parent,name]) := by
  have hversion : (58 : UInt8) ∉ lineVersion := by decide
  have hprefix : (lineVersion++[58]).isPrefixOf (colonLine [lineVersion,ft,valid,mt,ns,sz,ino,parent] name)=true := by
    simp [colonLine,lineVersion,List.isPrefixOf]
  have hsplit := splitN_colonLine [lineVersion,ft,valid,mt,ns,sz,ino,parent] (by simpa [hversion] using h) name
  have hrejoined := splitN_colonLine [ft,valid,mt,sz,ino,parent] (fun f hf => h f (by simp at hf ⊢; tauto)) name
  simp only [length_cons,length_nil,Nat.reduceAdd,cons_append,nil_append] at hsplit hrejoined
  rw [parseScanRawEntry,if_pos hprefix,hsplit]
  simp only [hrejoined]
  rfl

theorem parseScanRawEntry_line {db : Backend} (key : ℕ) {child : Bytes × Bytes} (hlen : child.2.length=9)
    (hfit : (lineAttr (db.attrs (u32 child.2 6))).Fits) :
    (batchLine db key child).bind parseScanRawEntry=some (rowOf db key child) := by
  have hgi : gi child.2=some (u32 child.2 6) := if_neg (not_not_intro hlen)
  have hft := (child.2.headD 0).toNat_lt
  have hci := u32_lt child.2 6
  obtain ⟨hvalid,hmt,hns,hsz⟩ := hfit
  set a := lineAttr (db.attrs (u32 child.2 6)) with ha
  have hv : a.valid<10^14 := by omega
  have hnsec : ¬ ((a.ns : ℤ)<0 ∨ 1000000000≤(a.ns : ℤ)) := by omega
  simp only [batchLine,hgi,map_some,bind_some,← ha]
  rw [luaTostring_of_lt (by omega : (child.2.headD 0).toNat<10^14),luaTostring_of_lt hv,luaTostring_of_lt hmt,
    luaTostring_of_lt (by omega : a.ns<10^14),luaTostring_of_lt hsz,
    luaTostring_of_lt (by omega : u32 child.2 6<10^14),
    parseScanRawEntry_colonLine (by simp [colon_not_mem_formatUint]),
    RespProxy.parseInt_formatUint (by omega : a.ns<2^63),bind_some,if_neg hnsec,
    parseScanFields_formatted true a.ns _ _ (by omega) hvalid (by omega) (by omega) (by omega)]
  simp [rowOf,← ha]

end Lines

section Pull
variable {db : Backend}

def Backend.children (db : Backend) (dir : ℕ) : List (Bytes × Bytes) := db.dirs.getD dir []

/-- The keys that were returned before the SCAN was over. -/
def scanned : List Reply → List ℕ
  | [] => []
  | r::rs => if r.cursor=0 then r.keys else r.keys++scanned rs

def rowsOf (db : Backend) (keys : List ℕ) : List ScanRawEntry :=
  keys.flatMap (fun key => (db.children key).map (rowOf db key))

def revOf (rev : GoMap Bytes (Bytes × Bytes)) (raws : List ScanRawEntry) : GoMap Bytes (Bytes × Bytes) :=
  raws.foldl (fun rev e => rev.set (formatUint e.inode) (e.parentInode,e.name)) rev

/-- Every child has a value of nine bytes, and numbers that fit. -/
structure Backend.Readable (db : Backend) : Prop where
  sized : ∀ dir child,child ∈ db.children dir → child.2.length=9
  fits : ∀ dir child,child ∈ db.children dir → (lineAttr (db.attrs (u32 child.2 6))).Fits

lemma foldlM_add {lines : List Bytes} {rows : List ScanRawEntry}
    (h : List.Forall₂ (fun line row => parseScanRawEntry line=some row) lines rows) (p : Pulled) :
    lines.foldlM Pulled.add p=some ⟨p.raws++rows,revOf p.rev rows⟩ := by
  induction h generalizing p with
  | nil => simp [revOf]
  | cons hline _ ih =>
    simp only [foldlM_cons,Pulled.add,hline,map_some,bind_eq_bind,bind_some,ih]
    simp [revOf]

lemma batchLines_parse (h : db.Readable) (key : ℕ) {children : List (Bytes × Bytes)}
    (hc : ∀ child∈children,child∈db.children key) : List.Forall₂ (fun line row => parseScanRawEntry line=some row)
      (children.filterMap (batchLine db key)) (children.map (rowOf db key)) := by
  induction children with
  | nil => exact .nil
  | cons child children ih =>
    have hmem := hc child mem_cons_self
    obtain ⟨line,hline,hparse⟩ := bind_eq_some_iff.mp
      (parseScanRawEntry_line key (h.sized key child hmem) (h.fits key child hmem))
    rw [filterMap_cons_some hline,map_cons]
    exact .cons hparse (ih (fun c hc' => hc c (mem_cons_of_mem child hc')))

lemma luaScanBatch_parse (h : db.Readable) (keys : List ℕ) :
    List.Forall₂ (fun line row => parseScanRawEntry line=some row) (luaScanBatch db keys) (rowsOf db keys) := by
  induction keys with
  | nil => exact .nil
  | cons key keys ih =>
    simp only [luaScanBatch,rowsOf,flatMap_cons]
    exact rel_append (batchLines_parse h key (fun _ => id)) ih

lemma rowsOf_append (db : Backend) (keys more : List ℕ) : rowsOf db (keys++more)=rowsOf db keys++rowsOf db more :=
  flatMap_append

theorem pull_eq (h : db.Readable) {replies : List Reply} (hdone : ∃ r∈replies,r.cursor=0) (p : Pulled) : pull db p replies =
      some ⟨p.raws++rowsOf db (scanned replies),revOf p.rev (rowsOf db (scanned replies))⟩ := by
  induction replies generalizing p with
  | nil => simp at hdone
  | cons r rs ih =>
    simp only [pull,foldlM_add (luaScanBatch_parse h r.keys),bind_eq_bind,bind_some,scanned]
    by_cases hr : r.cursor=0
    · simp only [hr,if_true]
    have hrest : ∃ r∈rs,r.cursor=0 := by
      obtain ⟨x,hx,hzero⟩ := hdone
      obtain rfl | hx := mem_cons.mp hx
      · exact absurd hzero hr
      · exact ⟨x,hx,hzero⟩
    simp only [if_neg hr,ih hrest,rowsOf_append,append_assoc,revOf,foldl_append]

lemma mem_rowsOf {keys : List ℕ} {e : ScanRawEntry} :
    e∈rowsOf db keys ↔ ∃ dir∈keys,∃ child∈db.children dir,rowOf db dir child=e := by
  simp [rowsOf]

lemma revOf_sound {raws : List ScanRawEntry} {cur up name : Bytes} (h : (revOf [] raws).get? cur=some (up,name)) :
    ∃ e∈raws,formatUint e.inode=cur ∧ e.parentInode=up ∧ e.name=name := by
  induction raws using List.reverseRecOn with
  | nil => simp [revOf] at h
  | append_singleton raws e ih =>
    simp only [revOf,foldl_append,foldl_cons,foldl_nil] at h ih
    obtain ⟨rfl,hnew⟩ | ⟨-,h⟩ := of_get?_set h
    · cases hnew
      exact ⟨e,by simp,rfl,rfl,rfl⟩
    · obtain ⟨x,hx,hrest⟩ := ih h
      exact ⟨x,by simp [hx],hrest⟩

lemma revOf_isSome {raws : List ScanRawEntry} {e : ScanRawEntry} (h : e∈raws) :
    ((revOf [] raws).get? (formatUint e.inode)).isSome := by
  induction raws using List.reverseRecOn with
  | nil => simp at h
  | append_singleton raws x ih =>
    simp only [revOf,foldl_append,foldl_cons,foldl_nil] at ih ⊢
    rw [get?_set]
    split
    · rfl
    · rename_i hne
      obtain h | h := mem_append.mp h
      · exact ih h
      · obtain rfl := mem_singleton.mp h
        exact absurd rfl hne

end Pull

section Tree

def storedInode (val : Bytes) : ℕ := bigEndian (val.drop 1)

/-- The directory is found over these names from the root. -/
inductive Located (db : Backend) : ℕ → List Bytes → Prop
  | root : Located db 1 []
  | child {dir : ℕ} {path : List Bytes} {child : Bytes × Bytes} : Located db dir path → child ∈ db.children dir →
      Located db (storedInode child.2) (path++[child.1])

def storedSeconds (attr : Bytes) : ℤ := int64 (bigEndian ((attr.drop 23).take 8))

def storedNsec (attr : Bytes) : ℕ := bigEndian ((attr.drop 31).take 4)

def storedSize (attr : Bytes) : ℤ := int64 (bigEndian ((attr.drop 51).take 8))

def storedEntry (path : List Bytes) (child : Bytes × Bytes) (attr : Bytes) : ScanEntry where
  entry :=
    { path := pathOf (path++[child.1])
      isDir := child.2.headD 0=2
      size := storedSize attr
      inode := storedInode child.2
      mtime := storedSeconds attr*1000000000+storedNsec attr
      mtimeNsecKnown := true }
  mode := (modeForFiletype (child.2.headD 0).toNat).1

/-- Attributes that are complete, with a time and a size of at most 14 digits. -/
structure AttrFits (attr : Bytes) : Prop where
  nsec : storedNsec attr<1000000000
  seconds : 0 ≤ storedSeconds attr ∧ storedSeconds attr < 10^14
  size : 0 ≤ storedSize attr ∧ storedSize attr < 10^14

/-- A tree of directories, with links of files. The inodes that are reached from the root fit a word,
and no other child has the low word of a directory. -/
structure Backend.Tree (db : Backend) : Prop where
  names : ∀ dir,((db.children dir).map (·.1)).Nodup
  sized : ∀ dir child,child ∈ db.children dir → child.2.length=9
  root : ∀ dir child,child ∈ db.children dir → storedInode child.2≠1
  single : ∀ dir dir' child child',child ∈ db.children dir → child' ∈ db.children dir' →
    u32 child.2 6 = u32 child'.2 6 → db.children (u32 child.2 6)≠[] → dir=dir' ∧ child=child'
  word : ∀ dir path child,Located db dir path → child ∈ db.children dir → storedInode child.2 < 2^32
  fits : ∀ dir child attr,child ∈ db.children dir → db.attrs (u32 child.2 6)=some attr → 59≤attr.length →
    AttrFits attr
  attr : ∀ dir path child,Located db dir path → child ∈ db.children dir →
    ∃ attr,db.attrs (storedInode child.2)=some attr ∧ 59≤attr.length

lemma int64_of_nonneg {n : ℕ} (hn : n<2^64) (h : 0 ≤ int64 n) : int64 n=n := by
  rw [int64_eq] at h ⊢
  unfold overflows at h ⊢
  omega

lemma u64_stored {s : Bytes} {o : ℕ} (ho : 1≤o) (hlen : o+7 ≤ s.length) (h : 0 ≤ int64 (bigEndian ((s.drop (o-1)).take 8)))
    (hlt : int64 (bigEndian ((s.drop (o-1)).take 8))<10^14) :
    (u64 s o : ℤ)=int64 (bigEndian ((s.drop (o-1)).take 8)) := by
  have hbound : bigEndian ((s.drop (o-1)).take 8)<2^64 := by
    refine (bigEndian_lt _).trans_le ?_
    calc 256^((s.drop (o-1)).take 8).length≤256^8 := Nat.pow_le_pow_right (by decide) (length_take_le _ _)
      _ = 2^64 := by norm_num
  have heq := int64_of_nonneg hbound h
  rw [heq] at hlt
  rw [heq,u64,words_eq ho hlen,double_of_lt (by omega)]

lemma lineAttr_stored {attr : Bytes} (hlen : 59≤attr.length) (h : AttrFits attr) :
    (lineAttr (some attr)).valid=1 ∧ ((lineAttr (some attr)).mt : ℤ)=storedSeconds attr ∧
      (lineAttr (some attr)).ns=storedNsec attr ∧ ((lineAttr (some attr)).sz : ℤ)=storedSize attr := by
  have hns : u32 attr 32<1000000000 := h.nsec
  simp only [lineAttr,if_pos hlen,if_pos hns,true_and]
  exact ⟨u64_stored (by decide) (by omega) h.seconds.1 h.seconds.2,rfl,
    u64_stored (by decide) (by omega) h.size.1 h.size.2⟩

lemma lineAttr_fits {attr : Option Bytes} (h : ∀ a,attr=some a → 59≤a.length → AttrFits a) : (lineAttr attr).Fits := by
  cases attr with
  | none => exact ⟨.inl rfl,by decide,by decide,by decide⟩
  | some a =>
    by_cases hlen : 59≤a.length
    · have hfit := h a rfl hlen
      obtain ⟨hvalid,hmt,hns,hsz⟩ := lineAttr_stored hlen hfit
      have := hfit.seconds.2
      have := hfit.size.2
      exact ⟨.inr hvalid,by omega,hns ▸ hfit.nsec,by omega⟩
    · simp only [lineAttr,if_neg hlen]
      exact ⟨.inl rfl,by decide,by decide,by decide⟩

lemma u32_eq_storedInode {val : Bytes} (hlen : val.length=9) (h : storedInode val<2^32) :
    u32 val 6=storedInode val := by
  have hsplit : val.drop 1=(val.drop 1).take 4++(val.drop 5).take 4 := by
    have htail : (val.drop 5).take 4=(val.drop 1).drop 4 := by
      rw [drop_drop,take_of_length_le (by rw [length_drop]; omega)]
    rw [htail,take_append_drop]
  have hl : ((val.drop 5).take 4).length=4 := by
    rw [length_take,length_drop]
    omega
  unfold storedInode u32 at *
  rw [hsplit,bigEndian_append,hl] at h ⊢
  norm_num at h ⊢
  omega

variable {db : Backend}

lemma Backend.Tree.readable (h : db.Tree) : db.Readable where
  sized := h.sized
  fits dir child hc := lineAttr_fits (fun a ha hlen => h.fits dir child a hc ha hlen)

variable {dir d : ℕ} {path : List Bytes}

lemma Backend.Tree.inode_eq (h : db.Tree) {child : Bytes × Bytes}
    (hloc : Located db dir path) (hc : child∈db.children dir) : u32 child.2 6=storedInode child.2 :=
  u32_eq_storedInode (h.sized dir child hc) (h.word dir path child hloc hc)

lemma Backend.Tree.mirrored_row (h : db.Tree) {child : Bytes × Bytes}
    (hloc : Located db dir path) (hc : child∈db.children dir) :
    (rowOf db dir child).attrValid=true ∧ ∃ attr,db.attrs (storedInode child.2)=some attr ∧ 59≤attr.length ∧
      (rowOf db dir child).mirrored (pathOf (path++[child.1]))=storedEntry path child attr := by
  obtain ⟨attr,hattr,hlen⟩ := h.attr dir path child hloc hc
  have hinode := h.inode_eq hloc hc
  have hfit := h.fits dir child attr hc (hinode ▸ hattr) hlen
  obtain ⟨hvalid,hmt,hns,hsz⟩ := lineAttr_stored hlen hfit
  have hft := (child.2.headD 0).toNat_lt
  have hbyte : (((child.2.headD 0).toNat : ℤ)%256).toNat=(child.2.headD 0).toNat := by omega
  have hdir : (modeForFiletype (child.2.headD 0).toNat).2=decide (child.2.headD 0=2) := by
    have hiff : (child.2.headD 0).toNat=2 ↔ child.2.headD 0=2 := by
      rw [← UInt8.toNat_inj]
      rfl
    unfold modeForFiletype
    by_cases h2 : (child.2.headD 0).toNat=2
    · rw [if_pos h2,decide_eq_true (hiff.mp h2)]
    · rw [if_neg h2,decide_eq_false (mt hiff.mpr h2)]
      split <;> rfl
  refine ⟨by simp [rowOf,hinode,hattr,hvalid],attr,hattr,hlen,?_⟩
  simp only [ScanRawEntry.mirrored,storedEntry,rowOf,hinode,hattr,hvalid,hmt,hns,hsz,hbyte,hdir,decide_true,
    Bool.true_or,if_true]

lemma formatUint_one : formatUint 1=rootInode := by decide

lemma formatUint_eq_root {n : ℕ} : formatUint n=rootInode ↔ n=1 := by
  rw [← formatUint_one]
  exact RespProxy.formatUint_injective.eq_iff

lemma Backend.Tree.walkUp_located (h : db.Tree) {raws : List ScanRawEntry}
    (hall : ∀ dir child,child∈db.children dir → rowOf db dir child∈raws)
    (honly : ∀ e∈raws,∃ dir,∃ child∈db.children dir,rowOf db dir child=e)
    (hloc : Located db dir path) (hkey : db.children dir≠[]) (hd : path.length≤d) (parts : List Bytes) :
    walkUp (revOf [] raws) d (formatUint dir) parts=(rootInode,path++parts) := by
  induction hloc generalizing d parts with
  | root => cases d <;> simp [walkUp,formatUint_one]
  | @child dir path child hloc hc ih =>
    cases d with
    | zero => simp at hd
    | succ d =>
      have hne : formatUint (storedInode child.2)≠rootInode := mt formatUint_eq_root.mp (h.root dir child hc)
      have hrow := hall dir child hc
      have hinode := h.inode_eq hloc hc
      obtain ⟨⟨up,name⟩,hget⟩ := isSome_iff_exists.mp (revOf_isSome hrow)
      obtain ⟨e,he,hcur,rfl,rfl⟩ := revOf_sound hget
      obtain ⟨dir',child',hc',rfl⟩ := honly e he
      have hsame : u32 child.2 6=u32 child'.2 6 := (RespProxy.formatUint_injective hcur).symm
      obtain ⟨rfl,rfl⟩ := h.single dir dir' child child' hc hc' hsame (hinode ▸ hkey)
      have hcell : (revOf [] raws).get? (formatUint (storedInode child.2))=some (formatUint dir,child.1) := by
        rw [← hinode]
        exact hget
      simp only [walkUp,if_neg hne,hcell]
      rw [ih (ne_nil_of_mem hc) (by simp at hd; omega),append_assoc]
      rfl

lemma located_root {parts found : List Bytes} (h : (formatUint dir,parts)=(rootInode,found)) :
    ∃ path,Located db dir path ∧ path.length≤d ∧ found=path++parts := by
  obtain ⟨hdir,rfl⟩ := Prod.mk.injEq .. ▸ h
  obtain rfl := formatUint_eq_root.mp hdir
  exact ⟨[],.root,Nat.zero_le d,rfl⟩

lemma Backend.Tree.located_of_walkUp (h : db.Tree) {raws : List ScanRawEntry}
    (honly : ∀ e∈raws,∃ dir,∃ child∈db.children dir,rowOf db dir child=e)
    {parts found : List Bytes} (hw : walkUp (revOf [] raws) d (formatUint dir) parts=(rootInode,found)) :
    ∃ path,Located db dir path ∧ path.length≤d ∧ found=path++parts := by
  induction d generalizing dir parts with
  | zero => exact located_root hw
  | succ d ih =>
    by_cases hdir : formatUint dir=rootInode
    · simp only [walkUp,if_pos hdir] at hw
      exact located_root hw
    simp only [walkUp,if_neg hdir] at hw
    split at hw
    · exact located_root hw
    · rename_i up name hget
      obtain ⟨e,he,hcur,rfl,rfl⟩ := revOf_sound hget
      obtain ⟨dir',child,hc,rfl⟩ := honly e he
      obtain ⟨path,hloc,hle,rfl⟩ := ih hw
      have hn : u32 child.2 6=dir := RespProxy.formatUint_injective hcur
      refine ⟨path++[child.1],?_,by simpa using hle,by simp [rowOf]⟩
      rw [← hn,h.inode_eq hloc hc]
      exact .child hloc hc

lemma Backend.Tree.located_unique (h : db.Tree) {dir dir' : ℕ} (hd : Located db dir path)
    (hd' : Located db dir' path) : dir=dir' := by
  induction hd generalizing dir' with
  | root =>
    generalize hp : ([] : List Bytes)=p at hd'
    cases hd' with
    | root => rfl
    | child => simp at hp
  | @child dir path child hloc hc ih =>
    generalize hp : path++[child.1]=p at hd'
    cases hd' with
    | root => simp at hp
    | @child dir' path' child' hloc' hc' =>
      obtain ⟨rfl,hname⟩ := append_inj' hp rfl
      obtain rfl := ih hloc'
      have hsame : child=child' := inj_on_of_nodup_map (h.names dir) hc hc' (singleton_injective hname)
      rw [hsame]

end Tree

section Rebuild
variable {db : Backend} {s : Store} {rev : GoMap Bytes (Bytes × Bytes)}

def rebuiltEntry (s : Store) (rev : GoMap Bytes (Bytes × Bytes)) (e : ScanRawEntry) : Option ScanEntry :=
  (resolvedPath rev e).bind (fun path =>
    if scanFilteredPath path || (!e.attrValid && ((s.lookupByPath path).isSome || !(e.mirrored path).entry.isDir))
    then none else some (e.mirrored path))

def rebuiltPath (rev : GoMap Bytes (Bytes × Bytes)) (e : ScanRawEntry) : Option TreePath :=
  (resolvedPath rev e).filter (fun path => !scanFilteredPath path)

lemma rebuildEntry_eq (acc : Rebuilt) (e : ScanRawEntry) : rebuildEntry s rev acc e =
      ⟨acc.entries++(rebuiltEntry s rev e).toList,acc.paths++(rebuiltPath rev e).toList,
        acc.incompleteAttrs || (!e.attrValid && (rebuiltPath rev e).isSome)⟩ := by
  unfold rebuildEntry rebuiltEntry rebuiltPath
  cases resolvedPath rev e with
  | none => simp
  | some path =>
    simp only [bind_some,filter_some]
    cases scanFilteredPath path with
    | true => simp
    | false =>
      cases !e.attrValid && ((s.lookupByPath path).isSome || !(e.mirrored path).entry.isDir) with
      | true => simp
      | false => simp

lemma rebuild_fold (raws : List ScanRawEntry) (acc : Rebuilt) : raws.foldl (rebuildEntry s rev) acc =
      ⟨acc.entries++raws.filterMap (rebuiltEntry s rev),acc.paths++raws.filterMap (rebuiltPath rev),
        acc.incompleteAttrs || raws.any (fun e => !e.attrValid && (rebuiltPath rev e).isSome)⟩ := by
  induction raws generalizing acc with
  | nil => simp
  | cons e raws ih =>
    rw [foldl_cons,ih,rebuildEntry_eq]
    simp only [append_assoc,any_cons,Bool.or_assoc,Rebuilt.mk.injEq,and_true]
    constructor
    · cases h : rebuiltEntry s rev e with
      | none => simp [filterMap_cons_none h]
      | some x => simp [filterMap_cons_some h]
    · cases h : rebuiltPath rev e with
      | none => simp [filterMap_cons_none h]
      | some x => simp [filterMap_cons_some h]

lemma nameOf_injective : Function.Injective nameOf := by
  refine map_injective_iff.mpr (fun a b h => ?_)
  have hval : ∀ c : UInt8,(Char.ofNat c.toNat).toNat=c.toNat := by
    intro c
    have := c.toNat_lt
    rw [Char.ofNat,dif_pos (.inl (by omega))]
    rfl
  have := congrArg Char.toNat h
  rw [hval,hval] at this
  exact UInt8.toNat_inj.mp this

lemma pathOf_injective : Function.Injective pathOf := map_injective_iff.mpr nameOf_injective

/-- The rows are those of all children, each at least once. -/
structure Complete (db : Backend) (raws : List ScanRawEntry) : Prop where
  all : ∀ dir child,child ∈ db.children dir → rowOf db dir child∈raws
  only : ∀ e∈raws,∃ dir,∃ child ∈ db.children dir,rowOf db dir child=e

variable {raws : List ScanRawEntry}

lemma Backend.Tree.resolvedPath_iff (h : db.Tree) (hraws : Complete db raws) {dir : ℕ} {child : Bytes × Bytes}
    (hc : child∈db.children dir) {q : TreePath} : resolvedPath (revOf [] raws) (rowOf db dir child)=some q ↔
      ∃ path,Located db dir path ∧ path.length≤50 ∧ q=pathOf (path++[child.1]) := by
  have hparent : (rowOf db dir child).parentInode=formatUint dir := rfl
  have hname : (rowOf db dir child).name=child.1 := rfl
  rw [resolvedPath,hparent,hname]
  constructor
  · intro hq
    obtain ⟨cur,found,hw⟩ : ∃ cur found,walkUp (revOf [] raws) 50 (formatUint dir) [child.1]=(cur,found) := ⟨_,_,rfl⟩
    simp only [hw] at hq
    by_cases hcur : cur=rootInode
    · subst cur
      simp only [ne_eq,not_true_eq_false,decide_false,Bool.false_and,Bool.false_eq_true,if_false,
        Option.some.injEq] at hq
      obtain ⟨path,hloc,hle,rfl⟩ := h.located_of_walkUp hraws.only hw
      exact ⟨path,hloc,hle,hq.symm⟩
    · -- a child of the root is not walked at all
      exfalso
      have hdir : formatUint dir=rootInode := by
        by_contra hne
        simp [hcur,hne] at hq
      rw [walkUp,if_pos hdir,Prod.mk.injEq] at hw
      exact hcur (hw.1 ▸ hdir)
  · rintro ⟨path,hloc,hle,rfl⟩
    rw [h.walkUp_located hraws.all hraws.only hloc (ne_nil_of_mem hc) hle]
    simp

/-- A child on a path from the root, with its attributes. -/
structure Backend.Stored (db : Backend) (dir : ℕ) (path : List Bytes) (child : Bytes × Bytes) (attr : Bytes) : Prop where
  located : Located db dir path
  mem : child ∈ db.children dir
  depth : path.length≤50
  outside : scanFilteredPath (pathOf (path++[child.1]))=false
  attrs : db.attrs (storedInode child.2)=some attr

lemma Backend.Tree.rebuiltEntry_iff (h : db.Tree) (hraws : Complete db raws) {x : ScanEntry} :
    (∃ e∈raws,rebuiltEntry s (revOf [] raws) e=some x) ↔
      ∃ dir path child attr,db.Stored dir path child attr ∧ x=storedEntry path child attr := by
  constructor
  · rintro ⟨e,he,hx⟩
    obtain ⟨dir,child,hc,rfl⟩ := hraws.only e he
    obtain ⟨q,hq,hx⟩ := bind_eq_some_iff.mp hx
    obtain ⟨path,hloc,hle,rfl⟩ := (h.resolvedPath_iff hraws hc).mp hq
    obtain ⟨hvalid,attr,hattr,_,hrow⟩ := h.mirrored_row hloc hc
    by_cases hf : scanFilteredPath (pathOf (path++[child.1]))
    · simp [hf] at hx
    · simp only [hf,hvalid,hrow,Bool.not_true,Bool.false_and,Bool.or_self,Bool.false_eq_true,if_false,
        Option.some.injEq] at hx
      exact ⟨dir,path,child,attr,⟨hloc,hc,hle,by simpa using hf,hattr⟩,hx.symm⟩
  · rintro ⟨dir,path,child,attr,⟨hloc,hc,hle,hf,hattr⟩,rfl⟩
    obtain ⟨hvalid,attr',hattr',_,hrow⟩ := h.mirrored_row hloc hc
    obtain rfl : attr'=attr := Option.some.inj (hattr'.symm.trans hattr)
    refine ⟨_,hraws.all dir child hc,bind_eq_some_iff.mpr
      ⟨_,(h.resolvedPath_iff hraws hc).mpr ⟨path,hloc,hle,rfl⟩,?_⟩⟩
    simp [hf,hvalid,hrow]

lemma Backend.Tree.rebuiltPath_iff (h : db.Tree) (hraws : Complete db raws) {q : TreePath} :
    (∃ e∈raws,rebuiltPath (revOf [] raws) e=some q) ↔
      ∃ dir path child attr,db.Stored dir path child attr ∧ q=pathOf (path++[child.1]) := by
  constructor
  · rintro ⟨e,he,hq⟩
    obtain ⟨dir,child,hc,rfl⟩ := hraws.only e he
    obtain ⟨hq,hf⟩ := filter_eq_some_iff.mp hq
    obtain ⟨path,hloc,hle,rfl⟩ := (h.resolvedPath_iff hraws hc).mp hq
    obtain ⟨attr,hattr,_⟩ := h.attr dir path child hloc hc
    exact ⟨dir,path,child,attr,⟨hloc,hc,hle,by simpa using hf,hattr⟩,rfl⟩
  · rintro ⟨dir,path,child,attr,⟨hloc,hc,hle,hf,_⟩,rfl⟩
    exact ⟨_,hraws.all dir child hc,filter_eq_some_iff.mpr
      ⟨(h.resolvedPath_iff hraws hc).mpr ⟨path,hloc,hle,rfl⟩,by simp [hf]⟩⟩

lemma Backend.Tree.stored_valid (h : db.Tree) (hraws : Complete db raws) {e : ScanRawEntry} (he : e∈raws)
    (hp : (rebuiltPath (revOf [] raws) e).isSome) : e.attrValid=true := by
  obtain ⟨q,hq⟩ := isSome_iff_exists.mp hp
  obtain ⟨dir,child,hc,rfl⟩ := hraws.only e he
  obtain ⟨path,hloc,_,_⟩ := (h.resolvedPath_iff hraws hc).mp (filter_eq_some_iff.mp hq).1
  exact (h.mirrored_row hloc hc).1

lemma Backend.Tree.stored_unique (h : db.Tree) {dir dir' : ℕ} {path path' : List Bytes} {child child' : Bytes × Bytes}
    {attr attr' : Bytes} (hx : db.Stored dir path child attr) (hy : db.Stored dir' path' child' attr')
    (hp : pathOf (path++[child.1])=pathOf (path'++[child'.1])) : dir=dir' ∧ path=path' ∧ child=child' ∧ attr=attr' := by
  obtain ⟨rfl,hname⟩ := append_inj' (pathOf_injective hp) rfl
  obtain rfl := h.located_unique hx.located hy.located
  obtain rfl := inj_on_of_nodup_map (h.names dir) hx.mem hy.mem (singleton_injective hname)
  exact ⟨rfl,rfl,rfl,Option.some.inj (hx.attrs.symm.trans hy.attrs)⟩

end Rebuild

section Reconcile
variable {db : Backend}

/-- d < inode> as reconcileDir reads it. -/
def Backend.raw (db : Backend) (dir : ℕ) : List (Name × List UInt8) := (db.children dir).map (fun c => (nameOf c.1,c.2))

lemma Backend.Tree.reconcile_child (h : db.Tree) {dir : ℕ} {path : List Bytes} {child : Bytes × Bytes} {attr : Bytes}
    (hloc : Located db dir path) (hc : child∈db.children dir) (hattr : db.attrs (storedInode child.2)=some attr) :
    decodeDirChild child.2=some (storedInode child.2,child.2.headD 0) ∧
      reconcileChildEntry db.attrs {} ⟨storedInode child.2,pathOf (path++[child.1]),child.2.headD 0=2⟩ =
        some (storedEntry path child attr).entry := by
  have hlen := h.sized dir child hc
  have hinode := h.inode_eq hloc hc
  obtain ⟨attr',hattr',hl⟩ := h.attr dir path child hloc hc
  obtain rfl : attr'=attr := Option.some.inj (hattr'.symm.trans hattr)
  have hfit := h.fits dir child attr' hc (hinode ▸ hattr) hl
  have hdecode : decodeInodeAttrTime attr' =
      some (storedSeconds attr'*1000000000+storedNsec attr',storedSize attr') := by
    have hns : ¬ 1000000000≤bigEndian ((attr'.drop 31).take 4) := Nat.not_le.mpr hfit.nsec
    simp only [decodeInodeAttrTime,if_neg (Nat.not_lt.mpr hl),if_neg hns]
    rfl
  constructor
  · rw [decodeDirChild,if_neg (not_not_intro hlen),← hinode,u32,
      take_of_length_le (by rw [length_drop]; omega)]
  · have hnone : ({} : Store).lookupByPath (pathOf (path++[child.1]))=none := rfl
    simp only [reconcileChildEntry,hattr,bind_some,hdecode,hnone]
    rfl

lemma Backend.Tree.reconcile_iff (h : db.Tree) {dir : ℕ} {path : List Bytes} (hloc : Located db dir path)
    (hle : path.length≤50) {e : Entry} :
    e∈buildReconcileChildEntries (reconcileChildren (pathOf path) (db.raw dir)) db.attrs {} ↔
      ∃ child attr,db.Stored dir path child attr ∧ e=(storedEntry path child attr).entry := by
  have hpath : ∀ name,pathOf path++[nameOf name]=pathOf (path++[name]) := fun name => by simp [pathOf]
  simp only [buildReconcileChildEntries,mem_filterMap,reconcileChildren,raw,List.mem_map]
  constructor
  · rintro ⟨c,⟨_,⟨child,hc,rfl⟩,hchild⟩,he⟩
    obtain ⟨attr,hattr,_⟩ := h.attr dir path child hloc hc
    obtain ⟨hdecode,hentry⟩ := h.reconcile_child hloc hc hattr
    simp only [hdecode,hpath] at hchild
    split_ifs at hchild
    · rename_i hf
      obtain rfl := Option.some.inj hchild
      rw [hentry] at he
      exact ⟨child,attr,⟨hloc,hc,hle,by simpa using hf,hattr⟩,(Option.some.inj he).symm⟩
  · rintro ⟨child,attr,⟨_,hc,_,hf,hattr⟩,rfl⟩
    obtain ⟨hdecode,hentry⟩ := h.reconcile_child hloc hc hattr
    refine ⟨_,⟨_,⟨child,hc,rfl⟩,?_⟩,hentry⟩
    simp only [hdecode,hpath,hf,Bool.false_eq_true,if_false]

end Reconcile

/-- A SCAN of a tree that does not change gives the stored entries of the paths with at most 51 names, one
for a path, and for each directory what reconcileDir decodes. -/
theorem scan_rebuilds_stored_tree {db : Backend} (h : db.Tree) {replies : List Reply}
    (hdone : ∃ r ∈ replies,r.cursor = 0) (hcover : ∀ dir,db.children dir ≠ [] → dir ∈ scanned replies) (s : Store) :
    ∃ p,pull db {} replies = some p ∧ (rebuild s p).incompleteAttrs = false ∧ (∀ x,x ∈ (rebuild s p).entries ↔
        ∃ dir path child attr,db.Stored dir path child attr ∧ x = storedEntry path child attr) ∧
      (∀ x ∈ (rebuild s p).entries,∀ y ∈ (rebuild s p).entries,x.entry.path = y.entry.path → x = y) ∧
      (∀ q,q ∈ (rebuild s p).paths ↔ ∃ x ∈ (rebuild s p).entries,x.entry.path = q) ∧
      ∀ dir path,Located db dir path → path.length ≤ 50 → ∀ e,
        e ∈ buildReconcileChildEntries (reconcileChildren (pathOf path) (db.raw dir)) db.attrs {} ↔
          ∃ x ∈ (rebuild s p).entries,x.entry = e ∧ parentPath e.path = pathOf path := by
  set raws := rowsOf db (scanned replies) with hraws
  have hc : Complete db raws :=
    ⟨fun dir child hchild => mem_rowsOf.mpr ⟨dir,hcover dir (ne_nil_of_mem hchild),child,hchild,rfl⟩,
      fun e he => (mem_rowsOf.mp he).imp fun _ => And.right⟩
  have hrebuild : rebuild s ⟨raws,revOf [] raws⟩ = ⟨raws.filterMap (rebuiltEntry s (revOf [] raws)),
      raws.filterMap (rebuiltPath (revOf [] raws)),
      raws.any (fun e => !e.attrValid && (rebuiltPath (revOf [] raws) e).isSome)⟩ := by
    rw [rebuild,rebuild_fold]
    simp
  have hentries : ∀ x,x ∈ (rebuild s ⟨raws,revOf [] raws⟩).entries ↔
      ∃ dir path child attr,db.Stored dir path child attr ∧ x = storedEntry path child attr := fun x => by
    rw [hrebuild,mem_filterMap]
    exact h.rebuiltEntry_iff hc
  refine ⟨⟨raws,revOf [] raws⟩,by simpa using pull_eq h.readable hdone {},?_,hentries,?_,?_,?_⟩
  · rw [hrebuild,List.any_eq_false]
    intro e he hbad
    simp only [Bool.and_eq_true,Bool.not_eq_true'] at hbad
    rw [h.stored_valid hc he hbad.2] at hbad
    cases hbad.1
  · intro x hx y hy hp
    obtain ⟨_,_,_,_,hstored,rfl⟩ := (hentries x).mp hx
    obtain ⟨_,_,_,_,hstored',rfl⟩ := (hentries y).mp hy
    obtain ⟨_,rfl,rfl,rfl⟩ := h.stored_unique hstored hstored' hp
    rfl
  · intro q
    rw [hrebuild,mem_filterMap,h.rebuiltPath_iff hc]
    constructor
    · rintro ⟨dir,path,child,attr,hx,rfl⟩
      exact ⟨_,mem_filterMap.mpr (h.rebuiltEntry_iff hc |>.mpr ⟨dir,path,child,attr,hx,rfl⟩),rfl⟩
    · rintro ⟨x,hx,rfl⟩
      obtain ⟨dir,path,child,attr,hstored,rfl⟩ := (h.rebuiltEntry_iff hc).mp (mem_filterMap.mp hx)
      exact ⟨dir,path,child,attr,hstored,rfl⟩
  · intro dir path hloc hle e
    rw [h.reconcile_iff hloc hle]
    constructor
    · rintro ⟨child,attr,hx,rfl⟩
      refine ⟨_,(hentries _).mpr ⟨dir,path,child,attr,hx,rfl⟩,rfl,?_⟩
      simp [storedEntry,parentPath,pathOf]
    · rintro ⟨_,hx,rfl,hparent⟩
      obtain ⟨dir',path',child,attr,hstored,rfl⟩ := (hentries _).mp hx
      have hpath : path'=path := by
        refine pathOf_injective ?_
        simpa [storedEntry,parentPath,pathOf] using hparent
      subst hpath
      obtain rfl := h.located_unique hstored.located hloc
      exact ⟨child,attr,hstored,rfl⟩

def Backend.rows (db : Backend) : List (ℕ × Bytes × Bytes) := db.dirs.flatMap (fun d => d.2.map (fun c => (d.1,c)))

lemma Backend.mem_rows {db : Backend} {dir : ℕ} {child : Bytes × Bytes} (h : child∈db.children dir) :
    (dir,child)∈db.rows := by
  cases hget : db.dirs.get? dir with
  | none => simp [children,GoMap.getD,hget] at h
  | some cs =>
    rw [children,GoMap.getD,hget,getD_some] at h
    exact mem_flatMap.mpr ⟨(dir,cs),mem_of_get? hget,List.mem_map.mpr ⟨child,h,rfl⟩⟩

/-- A file of 2001 with 7 bytes. -/
def sampleAttr : Bytes := List.replicate 27 0++[60,0,0,0,0,0,0,5]++List.replicate 23 0++[7]

def linkedBackend : Backend where
  dirs := [(1,[([97,58,98],[2,0,0,0,0,0,0,0,2])]),
    (2,[([102],[1,0,0,0,0,0,0,0,3]),([103],[1,0,0,0,0,0,0,0,3])])]
  attrs := fun _ => some sampleAttr

lemma linkedBackend_tree : linkedBackend.Tree where
  names dir := by
    cases hget : linkedBackend.dirs.get? dir with
    | none => simp [children,GoMap.getD,hget]
    | some cs =>
      rw [children,GoMap.getD,hget,getD_some]
      exact (by decide : ∀ d∈linkedBackend.dirs,(d.2.map (·.1)).Nodup) _ (mem_of_get? hget)
  sized _ _ h := (by decide : ∀ x∈linkedBackend.rows,x.2.2.length=9) _ (mem_rows h)
  root _ _ h := (by decide : ∀ x∈linkedBackend.rows,storedInode x.2.2≠1) _ (mem_rows h)
  single _ _ _ _ h h' heq hne := by
    have hall : ∀ x∈linkedBackend.rows,∀ y∈linkedBackend.rows,u32 x.2.2 6=u32 y.2.2 6 →
        linkedBackend.children (u32 x.2.2 6)≠[] → x=y := by decide
    exact Prod.mk.inj (hall _ (mem_rows h) _ (mem_rows h') heq hne)
  word _ _ _ _ h := (by decide : ∀ x∈linkedBackend.rows,storedInode x.2.2<2^32) _ (mem_rows h)
  fits _ _ attr _ ha _ := by
    obtain rfl : sampleAttr=attr := Option.some.inj ha
    refine ⟨?_,?_,?_⟩ <;> decide +kernel
  attr _ _ _ _ _ := ⟨sampleAttr,rfl,by decide⟩

/-- The second link is found, with the keys in another order and one of them twice. -/
theorem scan_rebuilds_linked_file : ∃ p,pull linkedBackend {} [⟨7,[2]⟩,⟨3,[1,2]⟩,⟨0,[]⟩] = some p ∧
      storedEntry [[97,58,98]] ([103],[1,0,0,0,0,0,0,0,3]) sampleAttr ∈ (rebuild {} p).entries := by
  have hcover : ∀ dir,linkedBackend.children dir≠[] → dir ∈ scanned [⟨7,[2]⟩,⟨3,[1,2]⟩,⟨0,[]⟩] := by
    intro dir hne
    obtain ⟨child,hc⟩ := exists_mem_of_ne_nil _ hne
    exact (by decide : ∀ x∈linkedBackend.rows,x.1 ∈ scanned [⟨7,[2]⟩,⟨3,[1,2]⟩,⟨0,[]⟩]) _ (mem_rows hc)
  obtain ⟨p,hp,_,hentries,_⟩ := scan_rebuilds_stored_tree linkedBackend_tree ⟨⟨0,[]⟩,by simp,rfl⟩ hcover {}
  refine ⟨p,hp,(hentries _).mpr ⟨2,_,_,_,⟨?_,by decide,by decide,by decide,rfl⟩,rfl⟩⟩
  exact @Located.child linkedBackend 1 [] ([97,58,98],[2,0,0,0,0,0,0,0,2]) .root (by decide)

def wideBackend : Backend where
  dirs := [(1,[([120],[1,0,0,0,1,0,0,0,2])])]
  attrs := fun n => if n = 2^32+2 then some sampleAttr else none

/-- Directories "x" in one another, 52 of them. -/
def deepBackend : Backend where
  dirs := (List.range 52).map (fun i => (i+1,[([120],[2,0,0,0,0,0,0,0,UInt8.ofNat (i+2)])]))
  attrs := fun _ => some sampleAttr

lemma deepBackend_located {n : ℕ} (h : n≤51) : Located deepBackend (n+1) (List.replicate n [120]) := by
  induction n with
  | zero => exact .root
  | succ n ih =>
    have hchild : ([120],[2,0,0,0,0,0,0,0,UInt8.ofNat (n+2)])∈deepBackend.children (n+1) ∧
        storedInode [2,0,0,0,0,0,0,0,UInt8.ofNat (n+2)]=n+2 :=
      (by decide +kernel : ∀ n<51,([120],[2,0,0,0,0,0,0,0,UInt8.ofNat (n+2)])∈deepBackend.children (n+1) ∧
        storedInode [2,0,0,0,0,0,0,0,UInt8.ofNat (n+2)]=n+2) n (by omega)
    have := (ih (by omega)).child hchild.1
    rw [hchild.2,← replicate_succ'] at this
    exact this

/-- A file whose inode does not fit a word is not found, nor is the 52nd directory of a path. -/
theorem wide_inode_and_deep_path_lost : (([120],[1,0,0,0,1,0,0,0,2]) ∈ wideBackend.children 1 ∧
      wideBackend.attrs (storedInode [1,0,0,0,1,0,0,0,2]) = some sampleAttr ∧
      ∃ p,pull wideBackend {} [⟨0,[1]⟩] = some p ∧ (rebuild {} p).entries = []) ∧
    Located deepBackend 52 (List.replicate 51 [120]) ∧ ([120],[2,0,0,0,0,0,0,0,53]) ∈ deepBackend.children 52 ∧
      ∃ p,pull deepBackend {} [⟨0,deepBackend.dirs.keys⟩] = some p ∧
        ∀ x ∈ (rebuild {} p).entries,x.entry.path ≠ pathOf (List.replicate 52 [120]) := by
  have hwide : (pull wideBackend {} [⟨0,[1]⟩]).any (fun p => (rebuild {} p).entries.isEmpty)=true := by decide +kernel
  have hdeep : (pull deepBackend {} [⟨0,deepBackend.dirs.keys⟩]).any
      (fun p => (rebuild {} p).entries.all (fun x => x.entry.path.length<52))=true := by decide +kernel
  obtain ⟨p,hp,hempty⟩ := (Option.any_eq_true _ _).mp hwide
  obtain ⟨q,hq,hshort⟩ := (Option.any_eq_true _ _).mp hdeep
  refine ⟨⟨by decide,by decide,p,hp,List.isEmpty_iff.mp hempty⟩,deepBackend_located (n := 51) le_rfl,
    by decide +kernel,q,hq,?_⟩
  intro x hx hpath
  have hlt := of_decide_eq_true (List.all_eq_true.mp hshort x hx)
  rw [hpath] at hlt
  simp [pathOf] at hlt

end JuiceMount.Metadata.Scan
