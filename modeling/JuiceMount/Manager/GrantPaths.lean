import JuiceMount.Manager.Stored
import JuiceMount.RespProxy.Principals

/-! What the Manager stores about people passes the proxy's own checks: grants in the form the volume
holds, cleaned names, person IDs and the names of Macs. -/
namespace JuiceMount.Manager
open List RespProxy SlashPath
open RespProxy (Bytes ascii)

/-! ### Folder names -/

/-- A folder name that both validators accept. -/
structure FolderName (c : Text) : Prop where
  ok : folderNameOk c=true
  slash : '/' ∉ c

variable {c : Text}

lemma FolderName.plain (h : FolderName c) : SlashPath.Plain c := by
  have hok := h.ok
  unfold folderNameOk at hok
  simp only [Bool.and_eq_true,decide_eq_true_eq] at hok
  exact ⟨h.slash,hok.1.1.1.1,hok.1.1.1.2,hok.1.1.2⟩

lemma FolderName.componentError (h : FolderName c) : componentError c=none := by
  have hplain := h.plain
  have hok := h.ok
  unfold folderNameOk at hok
  simp only [Bool.and_eq_true,decide_eq_true_eq] at hok
  have hclean : c.any (fun x => x.toNat<0x20 || x.toNat=0x7f)=false := by
    refine List.any_eq_false.mpr fun x hx => ?_
    simpa using List.all_eq_true.mp hok.2 x hx
  have hlen : ¬maxGrantNameLen<(Utf8.encode c).length := not_lt.mpr hok.1.2
  unfold RespProxy.componentError
  rw [if_neg (by simp [hplain.nonempty,hplain.dot,hplain.dots]),if_neg hlen,hclean]
  rfl

/-- A path made of such names is its own canonical form. -/
theorem cleanGrantPath_joined {parts : List Text} (hne : parts≠[]) (hfew : parts.length ≤ maxGrantDepth)
    (hparts : ∀ c∈parts, FolderName c) : RespProxy.cleanGrantPath ('/'::joined parts)=.ok ('/'::joined parts) := by
  have hplain : ∀ c∈parts, SlashPath.Plain c := fun c hc => (hparts c hc).plain
  have hsplit := splitSlash_joined hplain hne
  have hjoined : joined parts≠[] := by
    intro hnil
    rw [hnil] at hsplit
    exact (hplain [] (hsplit ▸ mem_cons_self)).nonempty rfl
  have htrim : trimSlash ('/'::joined parts) = '/'::joined parts := by
    refine if_neg fun hlast => ?_
    rw [getLast?_cons_of_ne_nil hjoined] at hlast
    have hmem := nil_mem_split hlast
    rw [hsplit] at hmem
    exact (hplain [] hmem).nonempty rfl
  have herrors : parts.findSome? componentError=none :=
    findSome?_eq_none_iff.mpr fun c hc => (hparts c hc).componentError
  unfold RespProxy.cleanGrantPath
  rw [htrim,drop_one,tail_cons,hsplit,herrors,if_neg (by simp),if_neg (cons_ne_nil _ _),if_neg (not_lt.mpr hfew)]

/-! ### Grants in the form the volume holds -/

/-- Normal forms of a folder name are folder names, apart from their length. -/
structure FormLaws (cfg : Config) : Prop where
  nfc : ∀ c, SlashPath.Plain c → (∀ x∈c, ¬(x.toNat<0x20 ∨ x.toNat=0x7f)) →
    SlashPath.Plain (cfg.nfc c) ∧ ∀ x ∈ cfg.nfc c, ¬(x.toNat<0x20 ∨ x.toNat=0x7f)
  nfd : ∀ c, SlashPath.Plain c → (∀ x∈c, ¬(x.toNat<0x20 ∨ x.toNat=0x7f)) →
    SlashPath.Plain (cfg.nfd c) ∧ ∀ x ∈ cfg.nfd c, ¬(x.toNat<0x20 ∨ x.toNat=0x7f)

def Bounded (view : FolderView) : Prop :=
  ∀ parts c, view (SlashPath.joined (parts++[c]))=some true → (Utf8.encode c).length≤255

lemma FolderName.of (hplain : SlashPath.Plain c) (hclean : ∀ x∈c, ¬(x.toNat<0x20 ∨ x.toNat=0x7f))
    (hlen : (Utf8.encode c).length≤255) : FolderName c := by
  refine ⟨?_,hplain.slash⟩
  unfold folderNameOk
  simp only [Bool.and_eq_true,decide_eq_true_eq,List.all_eq_true]
  refine ⟨⟨⟨⟨hplain.nonempty,hplain.dot⟩,hplain.dots⟩,hlen⟩,fun x hx => ?_⟩
  simpa using hclean x hx

lemma FolderName.clean (h : FolderName c) : ∀ x∈c, ¬(x.toNat<0x20 ∨ x.toNat=0x7f) := by
  intro x hx
  have hok := h.ok
  unfold folderNameOk at hok
  simp only [Bool.and_eq_true,List.all_eq_true] at hok
  simpa using hok.2 x hx

section
variable {cfg : Config} {view : FolderView} {parts out : List Text}

theorem heldForms_mem {vs : List Text} {exact_ : Bool} (h : heldForms view parts exact_ vs=some out) :
    ∀ v∈out, v∈vs ∧ view (joined (parts++[v]))=some true := by
  induction vs generalizing exact_ out with
  | nil =>
    cases h
    exact fun _ hv => by cases hv
  | cons x vs ih =>
    unfold heldForms at h
    split at h
    · cases h
    · rename_i hview
      split at h
      · cases h
        intro v hv
        rw [mem_singleton.mp hv]
        exact ⟨mem_cons_self,hview⟩
      · obtain ⟨rest,hrest,rfl⟩ := Option.map_eq_some_iff.mp h
        intro v hv
        rcases mem_cons.mp hv with rfl | hv
        · exact ⟨mem_cons_self,hview⟩
        · exact ⟨mem_cons_of_mem _ (ih hrest v hv).1,(ih hrest v hv).2⟩
    · intro v hv
      exact ⟨mem_cons_of_mem _ (ih h v hv).1,(ih h v hv).2⟩

lemma heldForm_folderName (hlaws : FormLaws cfg) (hview : Bounded view) {c v : Text} (hc : FolderName c) (h : heldForms view parts true [c,cfg.nfc c,cfg.nfd c].eraseDups=some out) (hv : v∈out) : FolderName v := by
  obtain ⟨hmem,htrue⟩ := heldForms_mem h v hv
  have hlen := hview parts v htrue
  rw [mem_eraseDups] at hmem
  simp only [mem_cons,not_mem_nil,or_false] at hmem
  rcases hmem with rfl | rfl | rfl
  · exact hc
  · exact .of (hlaws.nfc c hc.plain hc.clean).1 (hlaws.nfc c hc.plain hc.clean).2 hlen
  · exact .of (hlaws.nfd c hc.plain hc.clean).1 (hlaws.nfd c hc.plain hc.clean).2 hlen

lemma volumeForm_found (hlaws : FormLaws cfg) (hview : Bounded view) {cs : List Text}
    (hparts : ∀ c∈parts, FolderName c) (hcs : ∀ c∈cs, FolderName c) (h : volumeForm cfg view parts cs=.found out) :
    (∀ c∈out, FolderName c) ∧ out.length=parts.length+cs.length := by
  induction cs generalizing parts with
  | nil =>
    cases h
    exact ⟨hparts,rfl⟩
  | cons c cs ih =>
    unfold volumeForm at h
    split at h
    · cases h
    · cases h
    · rename_i v hheld
      have hv := heldForm_folderName hlaws hview (hcs c mem_cons_self) hheld mem_cons_self
      have hparts' : ∀ x∈parts++[v], FolderName x := by
        intro x hx
        rcases mem_append.mp hx with hx | hx
        · exact hparts x hx
        · rw [mem_singleton.mp hx]
          exact hv
      obtain ⟨hout,hlen⟩ := ih hparts' (fun x hx => hcs x (mem_cons_of_mem _ hx)) h
      refine ⟨hout,?_⟩
      rw [hlen,length_append,length_singleton,length_cons]
      omega
    · cases h

/-- A grant that the Manager accepts, split into its folder names. -/
theorem cleanGrantPath_some {path t : Text} (h : cleanGrantPath path=some t) :
    ∃ parts, parts≠[] ∧ parts.length ≤ maxGrantLevels ∧ (∀ c∈parts, FolderName c) ∧ t = '/'::joined parts ∧
      splitSlash (t.drop 1)=parts := by
  unfold cleanGrantPath at h
  dsimp only at h
  split at h
  · cases h
  rename_i hhead
  split_ifs at h
  · rename_i hok
    simp only [Bool.or_eq_true,decide_eq_true_eq,not_or,Bool.not_eq_true',Bool.not_eq_false,not_lt] at hok
    obtain ⟨⟨hne,hfew⟩,hall⟩ := hok
    cases h
    generalize hp : trimSpace path=p at hhead hne hfew hall ⊢
    refine ⟨_,splitSlash_ne_nil _,hfew,fun c hc => ?_,?_,rfl⟩
    · exact ⟨List.all_eq_true.mp hall c hc,slash_not_mem_split hc⟩
    · rw [joined_splitSlash]
      have hfirst : (trimSlash p).head? = some '/' := by
        rw [not_not] at hhead
        unfold trimSlash at hne ⊢
        split
        · rename_i hlast
          rw [if_pos hlast] at hne
          cases p with
          | nil => cases hhead
          | cons x p =>
            cases p with
            | nil => exact absurd rfl hne
            | cons y p => exact hhead
        · exact hhead
      cases htrim : trimSlash p with
      | nil => exact absurd htrim hne
      | cons x t =>
        rw [htrim] at hfirst
        cases hfirst
        rfl

theorem grantForm_clean (hlaws : FormLaws cfg) {view : Option FolderView} (hview : ∀ v, view=some v → Bounded v)
    {path c : Text} (h : (cleanGrantPath path).bind (grantForm cfg view)=some c) : RespProxy.cleanGrantPath c=.ok c := by
  obtain ⟨t,ht,hform⟩ := Option.bind_eq_some_iff.mp h
  obtain ⟨parts,hne,hfew,hparts,rfl,hsplit⟩ := cleanGrantPath_some ht
  have hdepth : parts.length ≤ maxGrantDepth := hfew.trans (by decide)
  have hsame := cleanGrantPath_joined hne hdepth hparts
  unfold grantForm at hform
  split at hform
  · cases hform
    exact hsame
  rename_i v
  rw [hsplit] at hform
  split at hform
  · cases hform
  · cases hform
  · cases hform
    exact hsame
  · rename_i out hout
    cases hform
    obtain ⟨hfolders,hlen⟩ := volumeForm_found hlaws (hview v rfl) (fun _ hx => by cases hx) hparts hout
    rw [length_nil,Nat.zero_add] at hlen
    refine cleanGrantPath_joined ?_ (hlen ▸ hdepth) hfolders
    intro hnil
    rw [hnil] at hlen
    exact hne (eq_nil_of_length_eq_zero hlen.symm)

end

/-! ### Names and IDs -/

lemma utf8EncodeChar_ge {c : Char} (hc : ¬c.toNat<0x20) {b : UInt8} (hb : b∈String.utf8EncodeChar c) : 32≤b.toNat := by
  have hv : 32≤c.val.toNat := not_lt.mp hc
  have hvalid : c.val.toNat<55296 ∨ 57343<c.val.toNat ∧ c.val.toNat<1114112 := c.valid
  have hbyte : ∀ n, 32≤n → n<256 → 32≤(UInt8.ofNat n).toNat := fun n hn hn' => by simp; omega
  unfold String.utf8EncodeChar at hb
  generalize c.val.toNat=v at hv hvalid hb
  dsimp only at hb
  split at hb
  · rw [mem_singleton.mp hb]
    exact hbyte v hv (by omega)
  split at hb
  · simp only [mem_cons,not_mem_nil,or_false] at hb
    rcases hb with rfl | rfl <;> exact hbyte _ (by omega) (by omega)
  · split at hb
    · simp only [mem_cons,not_mem_nil,or_false] at hb
      rcases hb with rfl | rfl | rfl <;> exact hbyte _ (by omega) (by omega)
    · simp only [mem_cons,not_mem_nil,or_false] at hb
      rcases hb with rfl | rfl | rfl | rfl <;> exact hbyte _ (by omega) (by omega)

theorem cleanText_ge {t : Text} {n : ℕ} {b : UInt8} (hb : b∈cleanText t n) : 32≤b.toNat := by
  have hmem := mem_of_mem_take hb
  obtain ⟨c,hc,hbc⟩ := mem_flatMap.mp hmem
  have hclean := (mem_filter.mp hc).2
  simp only [Bool.not_eq_true',Bool.or_eq_false_iff,decide_eq_false_iff_not] at hclean
  exact utf8EncodeChar_ge hclean.1 hbc

lemma cleanText_nameOk (t : Text) : personNameOk (cleanText t 128)=true := by
  unfold personNameOk
  rw [Bool.and_eq_true,decide_eq_true_eq,List.all_eq_true]
  refine ⟨(length_take_le _ _).trans (by decide),fun b hb => ?_⟩
  have hge := cleanText_ge hb
  have hne : ∀ x : UInt8, x.toNat<32 → b≠x := fun x hx heq => by
    rw [heq] at hge
    omega
  simp [hne 13 (by decide),hne 10 (by decide),hne 0 (by decide)]

lemma hexDigit_alnum {n : ℕ} (hn : n<16) : isAlnum (hexDigit n)=true := by
  interval_cases n <;> decide

lemma newPersonID_ok {random : Bytes} (h : random.length=8) : personIDOk (newPersonID random)=true := by
  have hlen : (hexEncode random).length=16 := by
    unfold hexEncode
    rw [length_flatMap]
    simp [h]
  have hall : ∀ b∈hexEncode random, isAlnum b=true := by
    intro b hb
    obtain ⟨c,-,hbc⟩ := mem_flatMap.mp hb
    have hc := c.toNat_lt
    simp only [mem_cons,not_mem_nil,or_false] at hbc
    rcases hbc with rfl | rfl
    · exact hexDigit_alnum (by omega)
    · exact hexDigit_alnum (by omega)
  change (isAlnum 112 && (45::hexEncode random).length≤63 &&
    (45::hexEncode random).all fun c => isAlnum c || c=46 || c=95 || c=45)=true
  rw [Bool.and_eq_true,Bool.and_eq_true]
  refine ⟨⟨by decide,by simp [hlen]⟩,?_⟩
  rw [all_cons,Bool.and_eq_true]
  refine ⟨by decide,List.all_eq_true.mpr fun b hb => ?_⟩
  rw [hall b hb]
  rfl

def MacName (b : Bytes) : Prop := ∃ t, b = ascii "mac-"++t ∧ ∀ c ∈ t, isLowerHex c = true

lemma isLowerHex_iff {c : UInt8} : isLowerHex c=true ↔ 48≤c.toNat ∧ c.toNat≤57 ∨ 97≤c.toNat ∧ c.toNat≤102 := by
  simp [isLowerHex,UInt8.le_iff_toNat_le]

lemma lowerByte_hex {c : UInt8} (h : isHex c=true) : isLowerHex (lowerByte c)=true := by
  unfold isHex at h
  rw [Bool.or_eq_true,isLowerHex_iff] at h
  rw [isLowerHex_iff]
  unfold lowerByte
  simp only [Bool.and_eq_true,decide_eq_true_eq,UInt8.le_iff_toNat_le] at h ⊢
  split
  · rename_i hupper
    rw [UInt8.toNat_add]
    simp at hupper h ⊢
    omega
  · rename_i hlower
    simp at hlower h
    omega

lemma macPrincipalName_macName {id : Bytes} (h : instanceIDOk id=true) : MacName (macPrincipalName id) := by
  refine ⟨_,rfl,fun c hc => ?_⟩
  obtain ⟨x,hx,rfl⟩ := mem_map.mp (mem_of_mem_take hc)
  obtain ⟨hmem,hne⟩ := mem_filter.mp hx
  refine lowerByte_hex ?_
  unfold instanceIDOk at h
  simp only [Bool.and_eq_true,decide_eq_true_eq,List.all_eq_true,mem_range] at h
  obtain ⟨i,hi,rfl⟩ := mem_iff_getElem.mp hmem
  have hpos := h.2 i (by omega)
  have hget : id.getD i 0=id[i] := by simp [List.getD,hi]
  rw [hget] at hpos
  split at hpos
  · exact absurd (of_decide_eq_true hpos) (of_decide_eq_true hne)
  · exact hpos

lemma MacName.principalNameOk {b : Bytes} (h : MacName b) : principalNameOk b=true := by
  obtain ⟨t,rfl,ht⟩ := h
  unfold RespProxy.principalNameOk
  rw [Bool.and_eq_true,all_append,Bool.and_eq_true]
  refine ⟨by simp [ascii],by decide,List.all_eq_true.mpr fun c hc => ?_⟩
  have hhex := isLowerHex_iff.mp (ht c hc)
  have hne : ∀ x : UInt8, (x.toNat<48 ∨ 57<x.toNat ∧ x.toNat<97) → c≠x := fun x hx heq => by
    rw [heq] at hhex
    omega
  simp [hne 32 (by decide),hne 9 (by decide),hne 13 (by decide),hne 10 (by decide),hne 64 (by decide)]

end JuiceMount.Manager
