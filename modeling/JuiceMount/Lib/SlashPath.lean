import Mathlib.Tactic

/-! Slash-separated names: the components that are left of a rooted path when it is cleaned, and the
cleaned name. One name is a component prefix of another exactly if it is the whole of it or a
string prefix that ends at a slash. -/
namespace JuiceMount.SlashPath
open List

def splitSlash : List Char → List (List Char)
  | [] => [[]]
  | c::cs =>
    if c = '/' then []::splitSlash cs
    else
      match splitSlash cs with
      | [] => [[c]]
      | w::ws => (c::w)::ws

/-- One component of a rooted path, on the stack of those before it. -/
def cleanStep (stack : List (List Char)) (c : List Char) : List (List Char) :=
  if c=[] || c = ['.'] then stack else if c = ['.','.'] then stack.tail else c::stack

/-- The components of path.Clean("/"+name). -/
def components (name : List Char) : List (List Char) := ((splitSlash name).foldl cleanStep []).reverse

def joined (cs : List (List Char)) : List Char := List.intercalate ['/'] cs

def terminated (cs : List (List Char)) : List Char := cs.flatMap (·++['/'])

/-- What a component of a clean path looks like. -/
structure Plain (c : List Char) : Prop where
  slash : '/' ∉ c
  nonempty : c≠[]
  dot : c ≠ ['.']
  dots : c ≠ ['.','.']

section Components
variable {cs ds : List (List Char)} {name c : List Char}

lemma slash_not_mem_split (h : c∈splitSlash name) : '/' ∉ c := by
  induction name generalizing c with
  | nil =>
    obtain rfl := mem_singleton.mp h
    simp
  | cons x name ih =>
    simp only [splitSlash] at h
    split at h
    · obtain rfl | h := mem_cons.mp h
      · simp
      · exact ih h
    rename_i hx
    split at h
    · obtain rfl := mem_singleton.mp h
      simpa using Ne.symm hx
    · rename_i w ws hws
      obtain rfl | h := mem_cons.mp h
      · have hw := ih (hws ▸ mem_cons_self : w∈splitSlash name)
        simp [Ne.symm hx,hw]
      · exact ih (hws ▸ mem_cons_of_mem w h)

lemma plain_foldl {words : List (List Char)} (hwords : ∀ c∈words,'/' ∉ c) {stack : List (List Char)}
    (hstack : ∀ c∈stack,Plain c) : ∀ c∈words.foldl cleanStep stack,Plain c := by
  induction words generalizing stack with
  | nil => exact hstack
  | cons w words ih =>
    refine ih (fun c hc => hwords c (mem_cons_of_mem w hc)) fun c hc => ?_
    simp only [cleanStep] at hc
    split at hc
    · exact hstack c hc
    rename_i hw
    split at hc
    · exact hstack c (mem_of_mem_tail hc)
    · rename_i hdots
      obtain rfl | hc := mem_cons.mp hc
      · simp only [Bool.or_eq_true,decide_eq_true_eq,not_or] at hw
        exact ⟨hwords c mem_cons_self,hw.1,hw.2,hdots⟩
      · exact hstack c hc

lemma plain_components (h : c∈components name) : Plain c :=
  plain_foldl (fun _ => slash_not_mem_split) (fun _ hc => absurd hc not_mem_nil) c (mem_reverse.mp h)

lemma joined_slash (h : cs≠[]) : joined cs++['/']=terminated cs := by
  induction cs with
  | nil => exact absurd rfl h
  | cons c cs ih =>
    cases cs with
    | nil => simp [joined,terminated]
    | cons d cs =>
      have hstep : joined (c::d::cs)=c++['/']++joined (d::cs) := by simp [joined]
      rw [hstep,append_assoc,ih (cons_ne_nil d cs)]
      simp [terminated]

lemma append_slash_prefix {d xs ys : List Char} (hc : '/' ∉ c) (hd : '/' ∉ d)
    (h : d++ '/'::ys <+: c++ '/'::xs) : d=c ∧ ys <+: xs := by
  induction d generalizing c with
  | nil =>
    cases c with
    | nil => exact ⟨rfl,(cons_prefix_cons.mp h).2⟩
    | cons x c => exact absurd ((cons_prefix_cons.mp h).1 ▸ mem_cons_self) hc
  | cons x d ih =>
    cases c with
    | nil => exact absurd ((cons_prefix_cons.mp h).1 ▸ mem_cons_self) hd
    | cons y c =>
      obtain ⟨rfl,hrest⟩ := cons_prefix_cons.mp h
      obtain ⟨rfl,hys⟩ := ih (fun hm => hc (mem_cons_of_mem x hm)) (fun hm => hd (mem_cons_of_mem x hm)) hrest
      exact ⟨rfl,hys⟩

lemma prefix_terminated (hcs : ∀ c∈cs,Plain c) (hds : ∀ d∈ds,Plain d) : terminated ds <+: terminated cs ↔ ds <+: cs := by
  constructor
  · intro h
    induction ds generalizing cs with
    | nil => exact List.nil_prefix
    | cons d ds ih =>
      have hd := hds d mem_cons_self
      cases cs with
      | nil =>
        have := prefix_nil.mp h
        simp [terminated] at this
      | cons c cs =>
        have hsplit : ∀ (w : List Char) (ws : List (List Char)),terminated (w::ws)=w++ '/'::terminated ws := by
          simp [terminated]
        rw [hsplit,hsplit] at h
        obtain ⟨rfl,hrest⟩ := append_slash_prefix (hcs c mem_cons_self).slash hd.slash h
        exact cons_prefix_cons.mpr ⟨rfl,ih (fun x hx => hcs x (mem_cons_of_mem d hx))
          (fun x hx => hds x (mem_cons_of_mem d hx)) hrest⟩
  · rintro ⟨rest,rfl⟩
    exact ⟨terminated rest,by simp [terminated]⟩

lemma joined_slash_prefix (hcs : ∀ c∈cs,Plain c) (hds : ∀ d∈ds,Plain d) (hne : ds≠[]) :
    joined ds++['/'] <+: joined cs ↔ ds <+: cs ∧ ds≠cs := by
  rw [joined_slash hne]
  by_cases hnil : cs=[]
  · subst cs
    simp only [joined,intercalate_nil,prefix_nil]
    refine ⟨fun h => ?_,fun h => absurd h.1 hne⟩
    cases ds with
    | nil => exact absurd rfl hne
    | cons d ds => simp [terminated] at h
  · have hjoin := joined_slash hnil
    constructor
    · intro h
      have hle := (prefix_terminated hcs hds).mp (hjoin ▸ h.trans (prefix_append _ _))
      refine ⟨hle,?_⟩
      rintro rfl
      have hlen := h.length_le
      rw [← hjoin] at hlen
      simp at hlen
    · rintro ⟨hle,hneq⟩
      have hpre := (prefix_terminated hcs hds).mpr hle
      rw [← hjoin] at hpre
      obtain heq | hlt := prefix_concat_iff.mp hpre
      · refine absurd ?_ hneq
        have hback : terminated cs <+: terminated ds := by rw [heq,hjoin]
        exact hle.eq_of_length_le ((prefix_terminated hds hcs).mp hback).length_le
      · exact hlt

lemma joined_injective (hcs : ∀ c∈cs,Plain c) (hds : ∀ d∈ds,Plain d) (hnc : cs≠[]) (hnd : ds≠[])
    (h : joined cs=joined ds) : cs=ds := by
  have hterm : terminated cs=terminated ds := by rw [← joined_slash hnc,← joined_slash hnd,h]
  have hle := (prefix_terminated hds hcs).mp (hterm ▸ prefix_rfl)
  exact hle.eq_of_length_le ((prefix_terminated hcs hds).mp (hterm ▸ prefix_rfl)).length_le

lemma joined_ne_dot (hcs : ∀ c∈cs,Plain c) (hne : cs≠[]) : joined cs≠['.'] := by
  intro h
  cases cs with
  | nil => exact hne rfl
  | cons c cs =>
    have hc := hcs c mem_cons_self
    cases cs with
    | nil => exact hc.dot (by simpa [joined] using h)
    | cons d cs =>
      have hmem : '/'∈joined (c::d::cs) := by simp [joined]
      rw [h] at hmem
      simp at hmem

lemma splitSlash_plain (h : '/' ∉ c) : splitSlash c=[c] := by
  induction c with
  | nil => rfl
  | cons x c ih =>
    obtain ⟨hx,hc⟩ := not_or.mp (mt mem_cons.mpr h)
    simp only [splitSlash,if_neg (Ne.symm hx),ih hc]

lemma splitSlash_append (h : '/' ∉ c) (rest : List Char) : splitSlash (c++ '/'::rest)=c::splitSlash rest := by
  induction c with
  | nil => simp [splitSlash]
  | cons x c ih =>
    obtain ⟨hx,hc⟩ := not_or.mp (mt mem_cons.mpr h)
    simp only [cons_append,splitSlash,if_neg (Ne.symm hx),ih hc]

lemma splitSlash_joined (hcs : ∀ c∈cs,Plain c) (hne : cs≠[]) : splitSlash (joined cs)=cs := by
  induction cs with
  | nil => exact absurd rfl hne
  | cons c cs ih =>
    have hc := (hcs c mem_cons_self).slash
    cases cs with
    | nil => simpa [joined] using splitSlash_plain hc
    | cons d cs =>
      have hstep : joined (c::d::cs)=c++ '/'::joined (d::cs) := by simp [joined]
      rw [hstep,splitSlash_append hc,ih (fun x hx => hcs x (mem_cons_of_mem c hx)) (cons_ne_nil d cs)]

lemma splitSlash_ne_nil (name : List Char) : splitSlash name≠[] := by
  cases name with
  | nil => exact cons_ne_nil _ _
  | cons x name =>
    simp only [splitSlash]
    split
    · exact cons_ne_nil _ _
    · split <;> exact cons_ne_nil _ _

lemma joined_splitSlash (name : List Char) : joined (splitSlash name)=name := by
  induction name with
  | nil => rfl
  | cons x name ih =>
    obtain ⟨w,ws,hws⟩ := exists_cons_of_ne_nil (splitSlash_ne_nil name)
    rw [hws] at ih
    simp only [splitSlash,hws]
    split
    · rename_i hx
      rw [hx,← ih]
      simp [joined]
    · rw [← ih]
      cases ws <;> simp [joined]

lemma splitSlash_append_slash (name rest : List Char) :
    splitSlash (name++ '/'::rest)=splitSlash name++splitSlash rest := by
  induction name with
  | nil => simp [splitSlash]
  | cons x name ih =>
    obtain ⟨w,ws,hws⟩ := exists_cons_of_ne_nil (splitSlash_ne_nil name)
    simp only [cons_append,splitSlash,ih,hws]
    split <;> rfl

lemma nil_mem_split (h : name.getLast? = some '/') : []∈splitSlash name := by
  obtain ⟨front,rfl⟩ := getLast?_eq_some_iff.mp h
  rw [splitSlash_append_slash]
  exact mem_append_right _ mem_cons_self

lemma foldl_cleanStep (hcs : ∀ c∈cs,Plain c) (stack : List (List Char)) : cs.foldl cleanStep stack=cs.reverse++stack := by
  induction cs generalizing stack with
  | nil => rfl
  | cons c cs ih =>
    have hc := hcs c mem_cons_self
    have hstep : cleanStep stack c=c::stack := by simp [cleanStep,hc.nonempty,hc.dot,hc.dots]
    rw [foldl_cons,hstep,ih fun x hx => hcs x (mem_cons_of_mem c hx)]
    simp

lemma components_joined (hcs : ∀ c∈cs,Plain c) : components (joined cs)=cs := by
  by_cases hne : cs=[]
  · subst cs
    rfl
  · rw [components,splitSlash_joined hcs hne,foldl_cleanStep hcs]
    simp

end Components

end JuiceMount.SlashPath
