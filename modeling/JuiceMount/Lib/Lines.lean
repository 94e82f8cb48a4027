import Mathlib.Data.List.Infix
import Mathlib.Tactic

/-! Files of lines. A line ends with a separator; what follows the last separator is a torn line,
left by a write that stopped. -/
namespace JuiceMount.Lines
open List

variable {α : Type*} {sep : α}

def render (sep : α) (ls : List (List α)) : List α := ls.flatMap fun l => l++[sep]

@[simp] lemma render_nil : render sep ([] : List (List α))=[] := rfl

@[simp] lemma render_cons (l : List α) (ls : List (List α)) :
    render sep (l::ls)=l++sep::render sep ls := by simp [render]

@[simp] lemma render_append (ls ls' : List (List α)) :
    render sep (ls++ls')=render sep ls++render sep ls' := by simp [render]

variable [DecidableEq α]

/-- The complete lines, each with the offset it starts at; `acc` is what was read of the current
one, which starts at `start`. -/
def scan (sep : α) (start : ℕ) (acc : List α) : List α → List (ℕ × List α)
  | [] => []
  | b::rest =>
    if b=sep then (start,acc)::scan sep (start+acc.length+1) [] rest else scan sep start (acc++[b]) rest

def torn (sep : α) (acc : List α) : List α → List α
  | [] => acc
  | b::rest => if b=sep then torn sep [] rest else torn sep (acc++[b]) rest

attribute [local simp] scan torn

def lines (sep : α) (data : List α) : List (List α) := (scan sep 0 [] data).map Prod.snd

lemma scan_map_snd (start start' : ℕ) (acc data : List α) :
    (scan sep start acc data).map Prod.snd=(scan sep start' acc data).map Prod.snd := by
  induction data generalizing start start' acc with
  | nil => rfl
  | cons b rest ih =>
    simp only [scan]
    split
    · simp only [map_cons,List.cons.injEq,true_and]
      exact ih _ _ _
    · exact ih _ _ _

variable {l t : List α} {ls : List (List α)}

lemma scan_line (start : ℕ) (acc : List α) (hl : sep ∉ l) (rest : List α) :
    scan sep start acc (l++sep::rest)=(start,acc++l)::scan sep (start+(acc++l).length+1) [] rest := by
  induction l generalizing acc with
  | nil => simp
  | cons b l ih =>
    simp only [mem_cons,not_or] at hl
    rw [cons_append,scan,if_neg (Ne.symm hl.1),ih _ hl.2]
    simp

lemma scan_free (start : ℕ) (acc : List α) (ht : sep ∉ t) : scan sep start acc t=[] := by
  induction t generalizing acc with
  | nil => rfl
  | cons b t ih =>
    simp only [mem_cons,not_or] at ht
    rw [scan,if_neg (Ne.symm ht.1),ih _ ht.2]

lemma torn_line (acc : List α) (hl : sep ∉ l) (rest : List α) : torn sep acc (l++sep::rest)=torn sep [] rest := by
  induction l generalizing acc with
  | nil => simp
  | cons b l ih =>
    simp only [mem_cons,not_or] at hl
    rw [cons_append,torn,if_neg (Ne.symm hl.1),ih _ hl.2]

lemma torn_free (acc : List α) (ht : sep ∉ t) : torn sep acc t=acc++t := by
  induction t generalizing acc with
  | nil => simp
  | cons b t ih =>
    simp only [mem_cons,not_or] at ht
    rw [torn,if_neg (Ne.symm ht.1),ih _ ht.2]
    simp

lemma lines_cons (hl : sep ∉ l) (rest : List α) : lines sep (l++sep::rest)=l::lines sep rest := by
  rw [lines,scan_line 0 [] hl]
  simp only [map_cons,nil_append,List.cons.injEq,true_and,lines]
  exact scan_map_snd _ _ _ _

lemma lines_render_append (hls : ∀ l∈ls, sep ∉ l) (data : List α) :
    lines sep (render sep ls++data)=ls++lines sep data := by
  induction ls with
  | nil => rfl
  | cons l ls ih =>
    rw [render_cons,append_assoc,cons_append,lines_cons (hls l (by simp)),
      ih fun x hx => hls x (by simp [hx])]
    rfl

lemma torn_render_append (hls : ∀ l∈ls, sep ∉ l) (data : List α) :
    torn sep [] (render sep ls++data)=torn sep [] data := by
  induction ls with
  | nil => rfl
  | cons l ls ih =>
    rw [render_cons,append_assoc,cons_append,torn_line [] (hls l (by simp)),
      ih fun x hx => hls x (by simp [hx])]

lemma lines_free (ht : sep ∉ t) : lines sep t=[] := by
  rw [lines,scan_free 0 [] ht]
  rfl

/-- Every file is its complete lines followed by a torn one. -/
theorem exists_render (sep : α) (data : List α) : ∃ ls t, data=render sep ls++t ∧ (∀ l∈ls, sep ∉ l) ∧ sep ∉ t := by
  induction data with
  | nil => exact ⟨[],[],rfl,by simp,by simp⟩
  | cons b data ih =>
    obtain ⟨ls,t,rfl,hls,ht⟩ := ih
    by_cases hb : b=sep
    · subst hb
      exact ⟨[]::ls,t,by simp,by simpa using hls,ht⟩
    cases ls with
    | nil => exact ⟨[],b::t,rfl,by simp,by simp [Ne.symm hb,ht]⟩
    | cons l ls =>
      refine ⟨(b::l)::ls,t,by simp,?_,ht⟩
      simp only [mem_cons,forall_eq_or_imp] at hls ⊢
      exact ⟨by simp [Ne.symm hb,hls.1],hls.2⟩

lemma lines_eq (hls : ∀ l∈ls, sep ∉ l) (ht : sep ∉ t) : lines sep (render sep ls++t)=ls := by
  rw [lines_render_append hls,lines_free ht,append_nil]

lemma torn_eq (hls : ∀ l∈ls, sep ∉ l) (ht : sep ∉ t) : torn sep [] (render sep ls++t)=t := by
  rw [torn_render_append hls,torn_free [] ht,nil_append]

lemma render_lines_append_torn (sep : α) (data : List α) : render sep (lines sep data)++torn sep [] data=data := by
  obtain ⟨ls,t,rfl,hls,ht⟩ := exists_render sep data
  rw [lines_eq hls ht,torn_eq hls ht]

theorem infix_of_mem_lines {data l : List α} (hl : l∈lines sep data) : l <:+: data := by
  obtain ⟨before,after,hls⟩ := append_of_mem hl
  refine ⟨render sep before,sep::(render sep after++torn sep [] data),?_⟩
  conv_rhs => rw [← render_lines_append_torn sep data,hls]
  simp

theorem lines_after_sep (u rest : List α) : lines sep (u++sep::rest)=lines sep (u++[sep])++lines sep rest := by
  obtain ⟨ls,t,rfl,hls,ht⟩ := exists_render sep u
  rw [append_assoc,append_assoc,lines_render_append hls,lines_render_append hls,lines_cons ht,
    lines_cons ht]
  simp [lines_free]

end JuiceMount.Lines
