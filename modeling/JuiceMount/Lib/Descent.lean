import Mathlib.Tactic

/-! Recursive-descent readers of a byte stream. A frame is announced by its first bytes, which
say how many frames are nested in it; a reader calls itself for each of them, with one call less
left on its stack. -/
namespace JuiceMount.Descent

/-- Ways to end a read that no caller can handle. -/
inductive Crash
  | stackOverflow | badAllocation
  deriving DecidableEq, Repr

/-- A read returns a result and the bytes it left, returns an error, or takes the process down. -/
inductive Outcome (ε α β : Type*)
  | ok (a : α) (rest : List β)
  | err (e : ε)
  | crash (c : Crash)
  deriving DecidableEq, Repr

variable {ε α β γ : Type*}

namespace Outcome

def andThen (x : Outcome ε α β) (f : α → List β → Outcome ε γ β) : Outcome ε γ β :=
  match x with
  | ok a rest => f a rest
  | err e => err e
  | crash c => crash c

def isCrash : Outcome ε α β → Bool
  | crash _ => true
  | _ => false

def Same : Outcome ε α β → Outcome ε γ β → Prop
  | ok _ r,ok _ r' => r=r'
  | err _,err _ => True
  | crash _,crash _ => True
  | _,_ => False

attribute [local simp] isCrash Same

lemma andThen_eq_ok {x : Outcome ε α β} {f : α → List β → Outcome ε γ β} {c : γ} {r : List β} :
    x.andThen f=ok c r ↔ ∃ a m,x=ok a m ∧ f a m=ok c r := by
  cases x <;> simp [andThen]

@[simp] lemma andThen_ok (a : α) (r : List β) (f : α → List β → Outcome ε γ β) :
    (ok a r : Outcome ε α β).andThen f=f a r := rfl

@[simp] lemma andThen_err (e : ε) (f : α → List β → Outcome ε γ β) :
    (err e : Outcome ε α β).andThen f=err e := rfl

@[simp] lemma andThen_crash (c : Crash) (f : α → List β → Outcome ε γ β) :
    (crash c : Outcome ε α β).andThen f=crash c := rfl

@[simp] lemma andThen_pure (x : Outcome ε α β) : x.andThen ok=x := by
  cases x <;> rfl

lemma same_map (x : Outcome ε α β) (g : α → γ) : (x.andThen (fun a r => ok (g a) r)).Same x := by
  cases x <;> simp

lemma Same.map_right {δ : Type*} {x : Outcome ε α β} {y : Outcome ε γ β} (h : x.Same y) (g : γ → δ) :
    x.Same (y.andThen (fun c r => ok (g c) r)) := by
  cases x <;> cases y <;> simp_all

lemma Same.ok_left {x : Outcome ε α β} {c : γ} {r : List β} (h : x.Same (ok c r)) : ∃ a,x=ok a r := by
  cases x <;> simp_all

lemma Same.err_left {x : Outcome ε α β} {e : ε} (h : x.Same (err e : Outcome ε γ β)) : ∃ e',x=err e' := by
  cases x <;> simp_all

lemma Same.crash_left {x : Outcome ε α β} {y : Outcome ε γ β} (h : x.Same y) (hy : y.isCrash=true) : x.isCrash=true := by
  cases x <;> cases y <;> simp_all

end Outcome

/-- Read `n` frames in turn. -/
def times (f : List β → Outcome ε α β) : ℕ → List β → Outcome ε (List α) β
  | 0,s => .ok [] s
  | n+1,s => (f s).andThen (fun a m => (times f n m).andThen (fun as r => .ok (a::as) r))

attribute [local simp] times Outcome.isCrash Outcome.Same

lemma of_times_succ {f : List β → Outcome ε α β} {n : ℕ} {s r : List β} {as : List α} (h : times f (n+1) s=.ok as r) :
    ∃ a m as',f s=.ok a m ∧ times f n m=.ok as' r ∧ as=a::as' := by
  rw [times] at h
  obtain ⟨a,m,ha,hrest⟩ := Outcome.andThen_eq_ok.mp h
  obtain ⟨as',m',has,hok⟩ := Outcome.andThen_eq_ok.mp hrest
  cases hok
  exact ⟨a,m,as',ha,has,rfl⟩

lemma times_mono {f g : List β → Outcome ε α β} (hfg : ∀ s a r,f s=.ok a r → g s=.ok a r) {n : ℕ}
    {s r : List β} {as : List α} (h : times f n s=.ok as r) : times g n s=.ok as r := by
  induction n generalizing s as with
  | zero => exact h
  | succ n ih =>
    obtain ⟨a,m,as',ha,has,rfl⟩ := of_times_succ h
    simp [hfg s a m ha,ih has]

lemma length_of_times {f : List β → Outcome ε α β} {n : ℕ} {s r : List β} {as : List α}
    (h : times f n s=.ok as r) : as.length=n := by
  induction n generalizing s as with
  | zero =>
    cases h
    rfl
  | succ n ih =>
    obtain ⟨a,m,as',ha,has,rfl⟩ := of_times_succ h
    rw [List.length_cons,ih has]

lemma times_written {f : List β → Outcome ε α β} {w : α → List β}
    (hf : ∀ s a r,f s=.ok a r → s=w a++r) {n : ℕ} {s r : List β} {as : List α}
    (h : times f n s=.ok as r) : s=(as.map w).flatten++r := by
  induction n generalizing s as with
  | zero =>
    cases h
    simp
  | succ n ih =>
    obtain ⟨a,m,as',ha,has,rfl⟩ := of_times_succ h
    rw [hf s a m ha,ih has]
    simp

lemma same_times_succ (f : List β → Outcome ε α β) (n : ℕ) (s : List β) (g : List α → α → γ) :
    ((times f n s).andThen (fun as m => (f m).andThen (fun a r => .ok (g as a) r))).Same (times f (n+1) s) := by
  induction n generalizing s g with
  | zero => cases h : f s <;> simp [h]
  | succ n ih =>
    cases h : f s with
    | err e | crash c => simp [h]
    | ok a m =>
      have hleft : (times f (n+1) s).andThen (fun as m => (f m).andThen (fun b r => .ok (g as b) r)) =
          (times f n m).andThen (fun as q => (f q).andThen (fun b r => .ok (g (a::as) b) r)) := by
        simp only [times,h,Outcome.andThen_ok]
        cases times f n m <;> rfl
      have hright : times f (n+1+1) s=(times f (n+1) m).andThen (fun as r => .ok (a::as) r) := by
        rw [times,h]
        rfl
      rw [hleft,hright]
      exact (ih m _).map_right _

/-- What the first bytes of a frame announce: nothing a reader accepts, a count it cannot hold, a
frame that ends at `rest`, or `n` frames nested from `rest` on. -/
inductive Announced (β : Type*)
  | refused
  | overflow
  | leaf (rest : List β)
  | nest (n : ℕ) (rest : List β)

/-- `n` whole frames stand at the head of `s`, and `r` follows them. -/
inductive Frames (ask : List β → Announced β) : ℕ → List β → List β → Prop
  | nil {s} : Frames ask 0 s s
  | leaf {n s m r} (h : ask s = .leaf m) (hr : Frames ask n m r) : Frames ask (n+1) s r
  | nest {n k s m m' r} (h : ask s = .nest k m) (hk : Frames ask k m m') (hr : Frames ask n m' r) :
      Frames ask (n+1) s r

/-- A reader with `room` calls left on its stack cannot finish: the stack is too small for the
nesting, or a frame it comes to announces a count it cannot hold. -/
inductive Fault (ask : List β → Announced β) : ℕ → List β → Prop
  | stack {s} : Fault ask 0 s
  | overflow {room s} (h : ask s=.overflow) : Fault ask (room+1) s
  | nested {room k i s m m'} (h : ask s = .nest k m) (hi : i<k) (hm : Frames ask i m m')
      (hf : Fault ask room m') : Fault ask (room+1) s

section Frames
variable {ask ask' : List β → Announced β} {m n : ℕ} {s q r r' : List β}

lemma Frames.append (h : Frames ask m s q) (h' : Frames ask n q r) : Frames ask (n+m) s r := by
  induction h with
  | nil => exact h'
  | leaf hl _ ih => exact .leaf hl (ih h')
  | nest hk hm _ _ ih => exact .nest hk hm (ih h')

lemma Frames.unique (h : Frames ask n s r) (h' : Frames ask n s r') : r=r' := by
  induction h generalizing r' with
  | nil => cases h'; rfl
  | leaf hl _ ih =>
    cases h' with
    | leaf hl' hr' =>
      cases hl.symm.trans hl'
      exact ih hr'
    | nest hk' => cases hl.symm.trans hk'
  | nest hk _ _ ihm ih =>
    cases h' with
    | leaf hl' => cases hk.symm.trans hl'
    | nest hk' hm' hr' =>
      cases hk.symm.trans hk'
      cases ihm hm'
      exact ih hr'

lemma Frames.suffix (hleaf : ∀ s m,ask s=.leaf m → m <:+ s)
    (hnest : ∀ s k m,ask s=.nest k m → m <:+ s) (h : Frames ask n s r) : r <:+ s := by
  induction h with
  | nil => exact List.suffix_refl _
  | leaf hl _ ih => exact ih.trans (hleaf _ _ hl)
  | nest hk _ _ ihm ih => exact ih.trans (ihm.trans (hnest _ _ _ hk))

lemma Frames.mono (hleaf : ∀ s m,ask s=.leaf m → ask' s=.leaf m)
    (hnest : ∀ s k m,ask s=.nest k m → ask' s=.nest k m) (h : Frames ask n s r) : Frames ask' n s r := by
  induction h with
  | nil => exact .nil
  | leaf hl _ ih => exact .leaf (hleaf _ _ hl) ih
  | nest hk _ _ ihm ih => exact .nest (hnest _ _ _ hk) ihm ih

/-- A reader that takes no more nested frames than announced stops at a frame boundary no later
than the announced end: whole frames are left up to there. -/
lemma Frames.short (hleaf : ∀ s m,ask s=.leaf m → ask' s=.leaf m)
    (hnest : ∀ s j m,ask s=.nest j m → ∃ k,ask' s=.nest k m ∧ j≤k)
    (h : Frames ask n s r) {k : ℕ} (hk : n≤k) (h' : Frames ask' k s r') : ∃ i,Frames ask' i r r' := by
  induction h generalizing k r' with
  | nil => exact ⟨k,h'⟩
  | leaf hl _ ih =>
    cases h' with
    | nil => omega
    | leaf hl' hr' =>
      cases (hleaf _ _ hl).symm.trans hl'
      exact ih (by omega) hr'
    | nest hk' => cases (hleaf _ _ hl).symm.trans hk'
  | nest hj _ _ ihm ih =>
    obtain ⟨k',hk',hle⟩ := hnest _ _ _ hj
    cases h' with
    | nil => omega
    | leaf hl' => cases hk'.symm.trans hl'
    | nest hk'' hm' hr' =>
      cases hk'.symm.trans hk''
      -- what is left inside the frame joins the frames after it
      obtain ⟨i,hi⟩ := ihm hle hm'
      exact ih (by omega) (hi.append hr')

end Frames

/-- What a reader returns, given what was announced to it and the reader for nested frames. -/
def Answers : Announced β → Outcome ε α β → (List β → Outcome ε α β) → Prop
  | .refused,x,_ => ∃ e,x = .err e
  | .overflow,x,_ => x.isCrash=true
  | .leaf m,x,_ => ∃ a,x = .ok a m
  | .nest k m,x,g => x.Same (times g k m)

/-- `f` reads the frames that `ask` announces: this ties a reader's code to its announcements,
one header at a time. -/
structure Follows (ask : List β → Announced β) (f : ℕ → List β → Outcome ε α β) : Prop where
  stack : ∀ s,(f 0 s).isCrash=true
  answers : ∀ room s,Answers (ask s) (f (room+1) s) (f room)

section Follows
variable {ask : List β → Announced β} {f : ℕ → List β → Outcome ε α β} {room n : ℕ} {s r : List β}

lemma Follows.refused (h : Follows ask f) (room : ℕ) (hs : ask s=.refused) : ∃ e,f (room+1) s=.err e := by
  simpa [hs,Answers] using h.answers room s

lemma Follows.overflow (h : Follows ask f) (room : ℕ) (hs : ask s=.overflow) : (f (room+1) s).isCrash=true := by
  simpa [hs,Answers] using h.answers room s

lemma Follows.leaf {m : List β} (h : Follows ask f) (room : ℕ) (hs : ask s=.leaf m) : ∃ a,f (room+1) s=.ok a m := by
  simpa [hs,Answers] using h.answers room s

lemma Follows.nest {k : ℕ} {m : List β} (h : Follows ask f) (room : ℕ) (hs : ask s=.nest k m) :
    (f (room+1) s).Same (times (f room) k m) := by
  simpa [hs,Answers] using h.answers room s

lemma times_frames {g : List β → Outcome ε α β} {as : List α}
    (hg : ∀ s a r,g s=.ok a r → Frames ask 1 s r) (h : times g n s=.ok as r) : Frames ask n s r := by
  induction n generalizing s as with
  | zero =>
    cases h
    exact .nil
  | succ n ih =>
    obtain ⟨a,m,as',ha,has,rfl⟩ := of_times_succ h
    exact (hg s a m ha).append (ih has)

lemma times_crash {g : List β → Outcome ε α β} (h : (times g n s).isCrash=true) :
    ∃ i<n,∃ as m,times g i s=.ok as m ∧ (g m).isCrash=true := by
  induction n generalizing s with
  | zero => cases h
  | succ n ih =>
    cases hg : g s with
    | err e => simp [hg] at h
    | crash c => exact ⟨0,by omega,[],s,rfl,by simp [hg]⟩
    | ok a m =>
      have hrest : (times g n m).isCrash=true := by
        cases ht : times g n m <;> simp_all
      obtain ⟨i,hi,as,m',hok,hc⟩ := ih hrest
      exact ⟨i+1,by omega,a::as,m',by simp [hg,hok],hc⟩

lemma times_crash_of {g : List β → Outcome ε α β} {i : ℕ} {m : List β} (hi : i<n)
    (hm : (∃ as,times g i s=.ok as m) ∨ (times g i s).isCrash=true)
    (hc : (g m).isCrash=true) : (times g n s).isCrash=true := by
  induction i generalizing n s with
  | zero =>
    obtain ⟨as,has⟩ := hm.resolve_right (by simp)
    cases has
    obtain ⟨n,rfl⟩ := Nat.exists_eq_add_of_lt hi
    cases hg : g m <;> simp_all
  | succ i ih =>
    obtain ⟨n,rfl⟩ : ∃ n',n=n'+1 := ⟨n-1,by omega⟩
    cases hg : g s with
    | err e =>
      have hbad : ¬((∃ as,times g (i+1) s=.ok as m) ∨ (times g (i+1) s).isCrash=true) := by
        simp [hg]
      exact absurd hm hbad
    | crash c => simp [hg]
    | ok a q =>
      have hrest : (times g n q).isCrash=true := by
        refine ih (by omega) ?_
        cases ht : times g i q <;> simp_all
      cases ht : times g n q <;> simp_all

/-- What a reader accepts is one frame. -/
theorem Follows.frames (h : Follows ask f) {a : α} (hok : f room s=.ok a r) : Frames ask 1 s r := by
  induction room generalizing s r a with
  | zero =>
    have := h.stack s
    rw [hok] at this
    cases this
  | succ room ih =>
    cases hask : ask s with
    | refused =>
      obtain ⟨e,he⟩ := h.refused room hask
      cases hok.symm.trans he
    | overflow =>
      have := h.overflow room hask
      rw [hok] at this
      cases this
    | leaf m =>
      obtain ⟨b,hb⟩ := h.leaf room hask
      cases hok.symm.trans hb
      exact .leaf hask .nil
    | nest k m =>
      have hsame := h.nest room hask
      rw [hok] at hsame
      cases ht : times (f room) k m with
      | ok as q =>
        rw [ht] at hsame
        cases hsame
        exact .nest hask (times_frames (fun _ _ _ hx => ih hx) ht) .nil
      | err e | crash c =>
        rw [ht] at hsame
        cases hsame

lemma Follows.times_of_frames (h : Follows ask f) (hf : Frames ask n s r) (room : ℕ) :
    (∃ as,times (f room) n s=.ok as r) ∨ (times (f room) n s).isCrash=true := by
  -- one frame read, the rest follows; a crash of either part is a crash of the whole
  have join : ∀ {room n s m r},((∃ a,f room s=.ok a m) ∨ (f room s).isCrash=true) →
      ((∃ as,times (f room) n m=.ok as r) ∨ (times (f room) n m).isCrash=true) →
      (∃ as,times (f room) (n+1) s=.ok as r) ∨ (times (f room) (n+1) s).isCrash=true := by
    intro room n s m r ha has
    obtain ⟨a,ha⟩ | hc := ha
    · obtain ⟨as,has⟩ | hc := has
      · exact .inl ⟨a::as,by simp [ha,has]⟩
      · refine .inr ?_
        cases ht : times (f room) n m <;> simp_all
    · refine .inr ?_
      cases ht : f room s <;> simp_all
  induction hf generalizing room with
  | nil => exact .inl ⟨[],rfl⟩
  | leaf hl _ ih =>
    refine join ?_ (ih room)
    cases room with
    | zero => exact .inr (h.stack _)
    | succ room => exact .inl (h.leaf room hl)
  | nest hk _ _ ihm ih =>
    refine join ?_ (ih room)
    cases room with
    | zero => exact .inr (h.stack _)
    | succ room =>
      have hsame := h.nest room hk
      obtain ⟨as,has⟩ | hc := ihm room
      · rw [has] at hsame
        exact .inl hsame.ok_left
      · exact .inr (hsame.crash_left hc)

/-- A reader crashes exactly on the streams with a fault. -/
theorem Follows.crash_iff (h : Follows ask f) : (f room s).isCrash=true ↔ Fault ask room s := by
  constructor
  · intro hc
    induction room generalizing s with
    | zero => exact .stack
    | succ room ih =>
      cases hask : ask s with
      | refused =>
        obtain ⟨e,he⟩ := h.refused room hask
        rw [he] at hc
        cases hc
      | overflow => exact .overflow hask
      | leaf m =>
        obtain ⟨a,ha⟩ := h.leaf room hask
        rw [ha] at hc
        cases hc
      | nest k m =>
        have hsame := h.nest room hask
        cases ht : times (f room) k m with
        | ok as q =>
          rw [ht] at hsame
          obtain ⟨b,hb⟩ := hsame.ok_left
          rw [hb] at hc
          cases hc
        | err e =>
          rw [ht] at hsame
          obtain ⟨e',he⟩ := hsame.err_left
          rw [he] at hc
          cases hc
        | crash c =>
          have hcr : (times (f room) k m).isCrash=true := by
            rw [ht]
            rfl
          obtain ⟨i,hi,as,m',hok,hcr'⟩ := times_crash hcr
          exact .nested hask hi (times_frames (fun _ _ _ hx => h.frames hx) hok) (ih hcr')
  · intro hf
    induction hf with
    | stack => exact h.stack _
    | overflow ho => exact h.overflow _ ho
    | nested hk hi hm _ ih =>
      exact (h.nest _ hk).crash_left (times_crash_of hi (h.times_of_frames hm _) ih)

end Follows
end JuiceMount.Descent
