import JuiceMount.Manager.Records
import JuiceMount.Lib.SlashPath

/-! The proxy's reading of the principals table: every entry and every person is validated, and a
table with one bad row is refused as a whole. -/
namespace JuiceMount.RespProxy
open List GoMap
open scoped Manager
open Manager (Text Access PrincipalEntry PersonEntry PrincipalsFile trimSlash)

/-! ### Grants -/

inductive GrantError
  | notAbsolute | root | tooDeep | badComponent | longComponent | control
  deriving DecidableEq, Repr

def maxGrantDepth : ℕ := 16

def maxGrantNameLen : ℕ := 255

def componentError (c : Text) : Option GrantError :=
  if c=[] || c = ['.'] || c = ['.','.'] then some .badComponent
  else if maxGrantNameLen < (Utf8.encode c).length then some .longComponent
  else if c.any (fun x => x.toNat<0x20 || x.toNat=0x7f) then some .control
  else none

def cleanGrantPath (p : Text) : Except GrantError Text :=
  if p.head? ≠ some '/' then .error .notAbsolute
  else if trimSlash p=[] then .error .root
  else if maxGrantDepth < (SlashPath.splitSlash ((trimSlash p).drop 1)).length then .error .tooDeep
  else
    match (SlashPath.splitSlash ((trimSlash p).drop 1)).findSome? componentError with
    | some e => .error e
    | none => .ok (trimSlash p)

/-! ### The table -/

structure Listed where
  kind : Manager.Kind
  host : Bytes
  deriving DecidableEq, Repr

/-- A person of the table; a limited one writes only inside the grants. -/
structure TablePerson where
  id : Bytes
  name : Bytes
  limited : Bool
  grants : List Text
  deriving DecidableEq, Repr

structure Principals where
  byName : GoMap Bytes Listed := []
  people : GoMap Bytes TablePerson := []
  limited : Bool := false
  restrict : Bool := false
  nPeople : ℕ := 0
  deriving DecidableEq, Repr

/-- Why a table is refused, with the index of the row. -/
inductive ParseError
  | version (n : ℕ) | peopleVersion | restrictVersion
  | badName (i : ℕ) | unknownKind (i : ℕ) | duplicateName (i : ℕ) | badHash (i : ℕ)
  | tooManyPeople | badID (i : ℕ) | duplicateID (i : ℕ) | badPersonName (i : ℕ) | tooManyGrants (i : ℕ)
  | badGrant (i : ℕ) (e : GrantError) | deviceKind (i : ℕ) (device : Bytes) | deviceTaken (i : ℕ) (device : Bytes)
  deriving DecidableEq, Repr

def principalsFormat : ℕ := 2

/-- A name without blanks, line ends and `@`. -/
def principalNameOk (b : Bytes) : Bool := b≠[] && b.all fun c => c≠32 && c≠9 && c≠13 && c≠10 && c≠64

def kindKnown : Manager.Kind → Bool
  | .other _ => false
  | _ => true

/-- The rows of principals. A disabled one is checked and left out. -/
def parseEntries (parseArgon2id : Bytes → Bool) :
    ℕ → List PrincipalEntry → GoMap Bytes Listed → Except ParseError (GoMap Bytes Listed)
  | _,[],m => .ok m
  | i,e::es,m =>
    if !principalNameOk e.name then .error (.badName i)
    else if !kindKnown e.kind then .error (.unknownKind i)
    else if (m.get? e.name).isSome then .error (.duplicateName i)
    else if !parseArgon2id e.argon2id then .error (.badHash i)
    else parseEntries parseArgon2id (i+1) es (if e.disabled then m else m.set e.name ⟨e.kind,e.host⟩)

/-! ### People -/

def isAlnum (c : UInt8) : Bool := (65≤c && c≤90) || (97≤c && c≤122) || (48≤c && c≤57)

def personIDOk : Bytes → Bool
  | [] => false
  | c::cs => isAlnum c && cs.length≤63 && cs.all fun c => isAlnum c || c=46 || c=95 || c=45

def maxPeople : ℕ := 4096

def maxGrants : ℕ := 1024

def personNameOk (b : Bytes) : Bool := b.length≤256 && b.all fun c => c≠13 && c≠10 && c≠0

def parseGrants : List Text → List Text → Except GrantError (List Text)
  | [],seen => .ok seen
  | g::gs,seen =>
    match cleanGrantPath g with
    | .error e => .error e
    | .ok c => parseGrants gs (if c∈seen then seen else seen++[c])

def parseDevices (kinds : GoMap Bytes Manager.Kind) (i : ℕ) (p : TablePerson) :
    List Bytes → GoMap Bytes TablePerson → Except ParseError (GoMap Bytes TablePerson)
  | [],m => .ok m
  | d::ds,m =>
    if (kinds.get? d).any (· ≠ .mac) then .error (.deviceKind i d)
    else if (m.get? d).isSome then .error (.deviceTaken i d)
    else parseDevices kinds i p ds (m.set d p)

def parsePeopleFrom (kinds : GoMap Bytes Manager.Kind) : ℕ → List PersonEntry → List Bytes → Principals → Except ParseError Principals
  | _,[],_,ps => .ok ps
  | i,pe::l,ids,ps =>
    if !personIDOk pe.id then .error (.badID i)
    else if pe.id∈ids then .error (.duplicateID i)
    else if !personNameOk pe.name then .error (.badPersonName i)
    else if maxGrants<pe.grants.length then .error (.tooManyGrants i)
    else
      match parseGrants pe.grants [] with
      | .error e => .error (.badGrant i e)
      | .ok grants =>
        let p : TablePerson := ⟨pe.id,pe.name,pe.access=.granted,grants.insertionSort (· ≤ ·)⟩
        match parseDevices kinds i p pe.devices ps.people with
        | .error e => .error e
        | .ok m => parsePeopleFrom kinds (i+1) l (pe.id::ids)
            { ps with people := m, limited := ps.limited || p.limited, nPeople := ps.nPeople+1 }

/-- The kinds of the entries by name; a later entry replaces an earlier one. -/
def kindsOf (entries : List PrincipalEntry) : GoMap Bytes Manager.Kind := entries.foldl (fun m e => GoMap.set m e.name e.kind) []

def parsePeople (ps : Principals) (people : List PersonEntry) (entries : List PrincipalEntry) : Except ParseError Principals :=
  if maxPeople<people.length then .error .tooManyPeople
  else parsePeopleFrom (kindsOf entries) 0 people [] ps

/-- The table after its JSON was read. -/
def parsePrincipals (parseArgon2id : Bytes → Bool) (f : PrincipalsFile) : Except ParseError Principals :=
  if principalsFormat<f.version then .error (.version f.version)
  else if f.version<2 && f.people≠[] then .error .peopleVersion
  else if f.version<2 && f.restrictUnassigned then .error .restrictVersion
  else
    match parseEntries parseArgon2id 0 f.principals [] with
    | .error e => .error e
    | .ok m =>
      match parsePeople { byName := m } f.people f.principals with
      | .error e => .error e
      | .ok ps => .ok { ps with restrict := f.restrictUnassigned }

namespace Principals

def personOf (ps : Principals) (name : Bytes) : Option TablePerson := ps.people.get? name

def grantsInForce (ps : Principals) : Bool := ps.limited || ps.restrict

end Principals

/-! ### Tables that are accepted -/

structure EntryOk (parseArgon2id : Bytes → Bool) (e : PrincipalEntry) : Prop where
  name : principalNameOk e.name=true
  kind : kindKnown e.kind=true
  hash : parseArgon2id e.argon2id=true

theorem parseEntries_ok {parseArgon2id : Bytes → Bool} {es : List PrincipalEntry} (hok : ∀ e∈es, EntryOk parseArgon2id e)
    (hnodup : (es.map PrincipalEntry.name).Nodup) (i : ℕ) {m : GoMap Bytes Listed} (hnew : ∀ e∈es, m.get? e.name=none) :
    ∃ m', parseEntries parseArgon2id i es m=.ok m' := by
  induction es generalizing i m with
  | nil => exact ⟨m,rfl⟩
  | cons e es ih =>
    have he := hok e mem_cons_self
    rw [map_cons,nodup_cons] at hnodup
    unfold parseEntries
    rw [he.name,he.kind,he.hash,hnew e mem_cons_self]
    refine ih (fun x hx => hok x (mem_cons_of_mem _ hx)) hnodup.2 (i+1) fun x hx => ?_
    have hx' := hnew x (mem_cons_of_mem _ hx)
    split
    · exact hx'
    · have hne : x.name≠e.name := fun hname => hnodup.1 (hname ▸ mem_map_of_mem hx)
      rw [get?_set_ne hne]
      exact hx'

theorem parseGrants_ok {gs : List Text} (hclean : ∀ g∈gs, cleanGrantPath g=.ok g) {seen : List Text}
    (hnodup : (seen++gs).Nodup) : parseGrants gs seen=.ok (seen++gs) := by
  induction gs generalizing seen with
  | nil => rw [parseGrants,append_nil]
  | cons g gs ih =>
    have hnew : g ∉ seen := fun hg => (nodup_append.mp hnodup).2.2 g hg g mem_cons_self rfl
    have hassoc : seen++g::gs=seen++[g]++gs := by rw [append_assoc,singleton_append]
    rw [parseGrants,hclean g mem_cons_self]
    dsimp only
    rw [if_neg hnew,hassoc]
    rw [hassoc] at hnodup
    exact ih (fun x hx => hclean x (mem_cons_of_mem _ hx)) hnodup

theorem parseDevices_ok {kinds : GoMap Bytes Manager.Kind} {p : TablePerson} {ds : List Bytes}
    (hkinds : ∀ d∈ds, (kinds.get? d).any (· ≠ .mac)=false) (hnodup : ds.Nodup) (i : ℕ) {m : GoMap Bytes TablePerson}
    (hfree : ∀ d∈ds, m.get? d=none) : ∃ m', parseDevices kinds i p ds m=.ok m' ∧
      ∀ d, m'.get? d=if d∈ds then some p else m.get? d := by
  induction ds generalizing m with
  | nil => exact ⟨m,rfl,fun d => (if_neg not_mem_nil).symm⟩
  | cons d ds ih =>
    rw [nodup_cons] at hnodup
    have hrest : ∀ x∈ds, (m.set d p).get? x=none := by
      intro x hx
      have hne : x≠d := fun hxd => hnodup.1 (hxd ▸ hx)
      rw [get?_set_ne hne]
      exact hfree x (mem_cons_of_mem _ hx)
    obtain ⟨m',hparse,hget⟩ := ih (fun x hx => hkinds x (mem_cons_of_mem _ hx)) hnodup.2 hrest
    refine ⟨m',?_,fun x => ?_⟩
    · rw [parseDevices,hkinds d mem_cons_self,hfree d mem_cons_self]
      exact hparse
    · rw [hget x,get?_set]
      by_cases hx : x∈ds
      · rw [if_pos hx,if_pos (mem_cons_of_mem _ hx)]
      · rw [if_neg hx]
        by_cases hxd : x=d
        · rw [if_pos hxd,if_pos (hxd ▸ mem_cons_self)]
        · rw [if_neg hxd,if_neg fun h => (mem_cons.mp h).elim hxd hx]

def TablePerson.of (pe : PersonEntry) : TablePerson := ⟨pe.id,pe.name,pe.access=.granted,pe.grants⟩

structure PersonEntryOk (kinds : GoMap Bytes Manager.Kind) (pe : PersonEntry) : Prop where
  id : personIDOk pe.id=true
  name : personNameOk pe.name=true
  few : pe.grants.length ≤ maxGrants
  clean : ∀ g∈pe.grants, cleanGrantPath g = .ok g
  sorted : pe.grants.Pairwise (· < ·)
  devices : ∀ d∈pe.devices, (kinds.get? d).any (· ≠ .mac)=false

theorem parsePeopleFrom_ok {kinds : GoMap Bytes Manager.Kind} {l : List PersonEntry} (hok : ∀ pe∈l, PersonEntryOk kinds pe)
    (hids : (l.map PersonEntry.id).Nodup) (hdevices : (l.flatMap PersonEntry.devices).Nodup) (i : ℕ) (ids : List Bytes)
    (hnew : ∀ pe∈l, pe.id ∉ ids) (ps : Principals) (hfree : ∀ d∈l.flatMap PersonEntry.devices, ps.people.get? d=none) :
    ∃ ps', parsePeopleFrom kinds i l ids ps=.ok ps' ∧ ps'.restrict=ps.restrict ∧
      ps'.limited=(ps.limited || l.any fun pe => pe.access=.granted) ∧
      ∀ d, ps'.people.get? d=((l.find? fun pe => d∈pe.devices).map TablePerson.of).or (ps.people.get? d) := by
  induction l generalizing i ids ps with
  | nil => exact ⟨ps,rfl,rfl,by simp,fun d => rfl⟩
  | cons pe l ih =>
    have hpe := hok pe mem_cons_self
    rw [map_cons,nodup_cons] at hids
    rw [flatMap_cons,nodup_append] at hdevices
    have hnodup : pe.grants.Nodup := by
      refine List.Pairwise.imp (fun {a b} h => ?_) hpe.sorted
      rintro rfl
      exact List.lt_irrefl _ h
    have hsort : pe.grants.insertionSort (· ≤ ·)=pe.grants :=
      List.Pairwise.insertionSort_eq (hpe.sorted.imp fun h => le_of_lt h)
    have hgrants : parseGrants pe.grants []=.ok pe.grants := parseGrants_ok hpe.clean hnodup
    have hhere : ∀ d∈pe.devices, ps.people.get? d=none := fun d hd => hfree d (by simp [hd])
    obtain ⟨m,hm,hget⟩ := parseDevices_ok (p := TablePerson.of pe) hpe.devices hdevices.1 i hhere
    have hrest : ∀ d∈l.flatMap PersonEntry.devices, m.get? d=none := by
      intro d hd
      rw [hget d,if_neg fun hpd => hdevices.2.2 d hpd d hd rfl]
      exact hfree d (by rw [flatMap_cons]; exact mem_append_right _ hd)
    have hids' : ∀ x∈l, x.id ∉ pe.id::ids := by
      intro x hx hmem
      rcases mem_cons.mp hmem with hsame | hold
      · exact hids.1 (hsame ▸ mem_map_of_mem hx)
      · exact hnew x (mem_cons_of_mem _ hx) hold
    obtain ⟨ps',hparse,hrestrict,hlimited,hpeople⟩ := ih (fun x hx => hok x (mem_cons_of_mem _ hx)) hids.2 hdevices.2.1 (i+1)
      (pe.id::ids) hids' {ps with people := m, limited := ps.limited || (TablePerson.of pe).limited, nPeople := ps.nPeople+1} hrest
    refine ⟨ps',?_,hrestrict,?_,fun d => ?_⟩
    · rw [parsePeopleFrom,hpe.id,hpe.name,hgrants,if_neg (by simp),if_neg (hnew pe mem_cons_self),if_neg (by simp),
        if_neg (not_lt.mpr hpe.few)]
      dsimp only
      rw [hsort]
      change (match parseDevices kinds i (TablePerson.of pe) pe.devices ps.people with
        | .error e => _
        | .ok m => _)=_
      rw [hm]
      exact hparse
    · rw [hlimited,any_cons,Bool.or_assoc]
      rfl
    · rw [hpeople d,hget d]
      by_cases hd : d∈pe.devices
      · have hnone : l.find? (fun pe => decide (d∈pe.devices))=none := by
          refine find?_eq_none.mpr fun x hx hdx => ?_
          exact hdevices.2.2 d hd d (mem_flatMap.mpr ⟨x,hx,of_decide_eq_true hdx⟩) rfl
        rw [hnone,if_pos hd,find?_cons_of_pos (by simpa using hd)]
        rfl
      · rw [if_neg hd,find?_cons_of_neg (by simpa using hd)]

theorem kindsOf_get? {es : List PrincipalEntry} {d : Bytes} {k : Manager.Kind} (h : (kindsOf es).get? d=some k) :
    ∃ e∈es, e.name=d ∧ e.kind=k := by
  have hfold : ∀ (es : List PrincipalEntry) (m : GoMap Bytes Manager.Kind),
      (es.foldl (fun m e => GoMap.set m e.name e.kind) m).get? d=some k →
      (∃ e∈es, e.name=d ∧ e.kind=k) ∨ m.get? d=some k := by
    intro es
    induction es with
    | nil => exact fun _ h => .inr h
    | cons e es ih =>
      intro m h
      rcases ih _ h with ⟨x,hx,hname,hkind⟩ | hget
      · exact .inl ⟨x,mem_cons_of_mem _ hx,hname,hkind⟩
      · obtain ⟨rfl,rfl⟩ | ⟨-,hget⟩ := of_get?_set hget
        · exact .inl ⟨e,mem_cons_self,rfl,rfl⟩
        · exact .inr hget
  rcases hfold es [] h with hfound | hnil
  · exact hfound
  · cases hnil

theorem parsePrincipals_ok {parseArgon2id : Bytes → Bool} {f : PrincipalsFile} (hversion : f.version≤principalsFormat)
    (hold : f.version<2 → f.people=[] ∧ f.restrictUnassigned=false)
    (hentries : ∀ e∈f.principals, EntryOk parseArgon2id e) (hnames : (f.principals.map PrincipalEntry.name).Nodup)
    (hfew : f.people.length ≤ maxPeople)
    (hpeople : ∀ kinds, (∀ pe∈f.people, ∀ d∈pe.devices, (kinds.get? d).any (· ≠ .mac)=false) →
      ∀ pe∈f.people, PersonEntryOk kinds pe)
    (hmacs : ∀ pe∈f.people, ∀ d∈pe.devices, ∀ e∈f.principals, e.name=d → e.kind=.mac)
    (hids : (f.people.map PersonEntry.id).Nodup) (hdevices : (f.people.flatMap PersonEntry.devices).Nodup) :
    ∃ ps, parsePrincipals parseArgon2id f=.ok ps ∧
      ps.grantsInForce=(f.people.any (fun pe => pe.access=.granted) || f.restrictUnassigned) ∧
      ∀ d, ps.personOf d=(f.people.find? fun pe => d∈pe.devices).map TablePerson.of := by
  obtain ⟨m,hm⟩ := parseEntries_ok hentries hnames 0 (m := []) fun _ _ => rfl
  have hkinds : ∀ pe∈f.people, ∀ d∈pe.devices, ((kindsOf f.principals).get? d).any (· ≠ .mac)=false := by
    intro pe hpe d hd
    cases hget : (kindsOf f.principals).get? d with
    | none => rfl
    | some k =>
      obtain ⟨e,he,hname,hkind⟩ := kindsOf_get? hget
      simp [← hkind,hmacs pe hpe d hd e he hname]
  obtain ⟨ps,hps,hrestrict,hlimited,hpersons⟩ := parsePeopleFrom_ok (hpeople _ hkinds) hids hdevices 0 []
    (fun _ _ => not_mem_nil) {byName := m} fun _ _ => rfl
  refine ⟨{ps with restrict := f.restrictUnassigned},?_,?_,fun d => ?_⟩
  · unfold parsePrincipals
    rw [if_neg (not_lt.mpr hversion)]
    split
    · rename_i hbad
      simp only [Bool.and_eq_true,decide_eq_true_eq] at hbad
      exact absurd (hold hbad.1).1 hbad.2
    split
    · rename_i hbad
      simp only [Bool.and_eq_true,decide_eq_true_eq] at hbad
      rw [(hold hbad.1).2] at hbad
      cases hbad.2
    · rw [hm]
      dsimp only
      unfold parsePeople
      rw [if_neg (not_lt.mpr hfew),hps]
  · change (ps.limited || f.restrictUnassigned)=_
    rw [hlimited,Bool.false_or]
  · change ps.people.get? d=_
    rw [hpersons d]
    exact Option.or_none

end JuiceMount.RespProxy
