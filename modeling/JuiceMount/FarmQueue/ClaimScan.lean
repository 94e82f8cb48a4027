import JuiceMount.Lib.Lists
import JuiceMount.Lib.Transition

/-! The bounded claim scan: the polls of one worker over its ready lanes, between which others enqueue and
claim. A lane is listed from its claim end, so that an index is a position of the script. -/
namespace JuiceMount.FarmQueue.ClaimScan
open JuiceMount.Lists Transition List

/-- A ready entry. History: in its lane since the call began, refused by a poll of the call, inspected by the
pass under way, and enqueued since the lane was first polled and never inspected. -/
structure Entry (α : Type*) where
  raw : α
  stayed : Bool := false
  refused : Bool := false
  inspected : Bool := false
  fresh : Bool := false
  deriving DecidableEq, Repr

/-- A lane with its sequence number, and what the worker's `claimScanState` has of it. -/
structure Lane (α : Type*) where
  entries : List (Entry α)
  seq : ℕ := 0
  cursor : ℕ := 0
  seen : Option ℕ := none
  owed : ℕ := 0
  covered : Bool := false
  deriving DecidableEq, Repr

namespace Lane
variable {α : Type*} (l : Lane α)

def first : ℕ := if l.cursor<l.entries.length then l.cursor else 0

def stop (limit : ℕ) : ℕ := min l.entries.length (l.first+limit)

/-- How many of the newest entries are owed an inspection, with what arrived since the last poll. -/
def debt : ℕ := min l.entries.length (l.owed+l.seen.elim 0 fun n => l.seq-n)

def window (limit : ℕ) : List ℕ := List.range' l.first (l.stop limit-l.first)

/-- The oldest owed entries, of which those in the window are not inspected again. -/
def region (limit : ℕ) : List ℕ := List.range' (l.entries.length-l.debt) (min l.debt limit)

/-- The entries after those at `ps` were refused. A window at the claim end begins a pass. -/
def refuse (ps : List ℕ) : List (Entry α) :=
  l.entries.mapIdx fun i e =>
    if i∈ps then { e with refused := true, inspected := true, fresh := false }
    else { e with inspected := e.inspected && l.first ≠ 0 }

/-- What `observe` records of the script's report for the lane. -/
def observe (cursor owed : ℕ) (entries : List (Entry α)) : Lane α :=
  { l with
    entries := entries, cursor := cursor, seen := some l.seq, owed := owed
    covered := if 0<owed then false else if cursor=0 then true else l.covered }

/-- The script over one lane, and the raw it claims. `copy` is the occurrence of that raw which LREM meets. -/
def poll [DecidableEq α] (limit : ℕ) (eligible : α → Bool) (copy : ℕ) : Lane α × Option α :=
  let count := l.entries.length
  let eligibleAt (p : ℕ) : Bool := (l.entries[p]?).any fun e => eligible e.raw
  let rawAt (p : ℕ) : Option α := (l.entries[p]?).map Entry.raw
  let claimed (p : ℕ) : ℕ := if rawAt copy = rawAt p then copy else p
  match (l.window limit).find? eligibleAt with
  | some p =>
    (l.observe p (if count-1-p<l.debt then l.debt-1 else l.debt)
      ((l.refuse (List.range' l.first (p-l.first))).eraseIdx (claimed p)),rawAt p)
  | none =>
    match ((l.region limit).filter fun p => p<l.first || l.stop limit≤p).find? eligibleAt with
    | some p =>
      let next := if p<l.first then l.stop limit-1 else l.stop limit
      (l.observe (if count-1≤next then 0 else next) (l.debt-(p-(count-l.debt)+1))
        ((l.refuse (l.window limit++List.range' (count-l.debt) (p-(count-l.debt)))).eraseIdx (claimed p)),rawAt p)
    | none =>
      (l.observe (if count ≤ l.stop limit then 0 else l.stop limit) (l.debt-min l.debt limit)
        (l.refuse (l.window limit++l.region limit)),none)

end Lane

inductive Act (α : Type*)
  | enqueue (lane : ℕ) (raw : α)
  | take (lane position : ℕ)
  | restart
  | poll (eligible : α → Bool) (copy : ℕ)

section Steps
variable {α : Type*} [DecidableEq α] (limit : ℕ)

/-- One run of the script: the lanes it reports on, those behind the one it claims from, and the claim. -/
def pollLanes (eligible : α → Bool) (copy : ℕ) : List (Lane α) → List (Lane α) × List (Lane α) × Option α
  | [] => ([],[],none)
  | l::ls =>
    match l.poll limit eligible copy with
    | (l',some raw) => ([l'],ls,some raw)
    | (l',none) => (l'::(pollLanes eligible copy ls).1,(pollLanes eligible copy ls).2)

/-- `take` is the claim of another worker, or one of this worker whose reply was lost; `restart` begins a call
with timeout 0. -/
def step (ls : List (Lane α)) : Act α → Option (List (Lane α))
  | .enqueue i raw => (ls[i]?).map fun l => ls.set i { l with
      entries := l.entries++[{ raw := raw, fresh := l.seen.isSome }], seq := l.seq+1 }
  | .take i p => (ls[i]?).map fun l => ls.set i { l with entries := l.entries.eraseIdx p }
  | .restart => some (ls.map fun l => { l with
      cursor := 0, covered := false
      entries := l.entries.map fun e => { e with stayed := true, refused := false } })
  | .poll eligible copy =>
    let r := pollLanes limit eligible copy ls
    let lanes := r.1++r.2.1
    some (if lanes.all Lane.covered then lanes.map fun l => { l with covered := false } else lanes)

end Steps

def start {α : Type*} (lanes : List (List α × ℕ)) : List (Lane α) :=
  lanes.map fun l => { entries := l.1.map fun raw => { raw := raw }, seq := l.2 }

/-- Others claim at or beyond the cursor of this worker. A poll finds no raw twice in a lane, and claims the
entry at the claim end only if it is the last one or something is owed. -/
def orderly {α : Type*} [DecidableEq α] (ls : List (Lane α)) : Act α → Bool
  | .take i p => (ls[i]?).all fun l => l.cursor≤p
  | .poll eligible _ => ls.all fun l => (l.entries.map Entry.raw).Nodup &&
      (l.first≠0 || l.debt≠0 || l.entries.length≤1 || !(l.entries[0]?).any fun e => eligible e.raw)
  | _ => true

namespace Lane
variable {α : Type*} {l : Lane α} {limit i : ℕ} {e : Entry α} {ps : List ℕ}

/-- Everything before the cursor is inspected, and what is fresh lies among the newest that are owed. -/
structure Ok (l : Lane α) : Prop where
  bound : l.cursor≤l.entries.length
  passed : ∀ i e, l.entries[i]? = some e → i<l.cursor → e.inspected=true ∧ e.refused=true
  owes : ∀ i e, l.entries[i]? = some e → e.fresh=true →
    ∃ n, l.seen=some n ∧ l.entries.length-i ≤ l.owed+(l.seq-n)
  known : ∀ n, l.seen=some n → n≤l.seq
  covers : l.covered=true → ∀ e∈l.entries, e.stayed=true → e.refused=true

/-- What holds right after a poll: a lane that is reported covered was inspected to its end. -/
structure Polled (l : Lane α) : Prop where
  swept : l.cursor=0 → l.owed=0 → ∀ e∈l.entries, e.inspected=true ∧ e.refused=true
  owes : ∀ i e, l.entries[i]? = some e → e.fresh=true → l.entries.length-i≤l.owed

lemma first_le : l.first≤l.cursor := by
  unfold first
  split <;> omega

lemma first_lt (h : l.first≠0) : l.first<l.entries.length := by
  unfold first at h ⊢
  split at h <;> simp_all

lemma mem_window {p : ℕ} : p∈l.window limit ↔ l.first≤p ∧ p<l.stop limit := by
  rw [window,mem_range'_1]
  omega

namespace Ok

lemma refuse (h : l.Ok) (he : (l.refuse ps)[i]? = some e) :
    i<l.entries.length ∧ (i∈ps ∨ i<l.first → e.inspected=true ∧ e.refused=true) ∧
    (e.fresh=true → i ∉ ps ∧ l.entries.length-i≤l.debt) ∧ (l.covered=true → e.stayed=true → e.refused=true) := by
  simp only [Lane.refuse,getElem?_mapIdx,Option.map_eq_some_iff] at he
  obtain ⟨e₀,he₀,rfl⟩ := he
  have hlt := (List.getElem?_eq_some_iff.mp he₀).1
  refine ⟨hlt,fun hi => ?_,fun hf => ?_,fun hc hs => ?_⟩
  · split
    · exact ⟨rfl,rfl⟩
    · have hfirst := hi.resolve_left ‹_›
      have := first_le (l := l)
      obtain ⟨hin,href⟩ := h.passed i e₀ he₀ (by omega)
      exact ⟨by simp [hin]; omega,href⟩
  · split_ifs at hf
    · obtain ⟨n,hn,hle⟩ := h.owes i e₀ he₀ hf
      exact ⟨‹_›,by simp only [debt,hn,Option.elim_some]; omega⟩
  · split
    · rfl
    · exact h.covers hc e₀ (mem_of_getElem? he₀) (by split at hs <;> exact hs)

/-- A report keeps the invariant if what lies before its cursor was refused and what it owes reaches back to
the oldest fresh entry. The entry at `p` is claimed, or there is none. -/
lemma observe {p cursor owed n : ℕ} (h : l.Ok) (hn : n=(l.entries.eraseIdx p).length) (hbound : cursor≤n)
    (hpassed : ∀ j<l.entries.length, j≠p → (if j<p then j else j-1)<cursor → j∈ps ∨ j<l.first)
    (howes : ∀ j<l.entries.length, j≠p → j ∉ ps → l.entries.length-j≤l.debt → n-(if j<p then j else j-1)≤owed)
    (hswept : cursor=0 → owed=0 → ∀ j<l.entries.length, j≠p → j∈ps ∨ j<l.first) :
    (l.observe cursor owed ((l.refuse ps).eraseIdx p)).Ok ∧ (l.observe cursor owed ((l.refuse ps).eraseIdx p)).Polled := by
  have hlen : ((l.refuse ps).eraseIdx p).length=n := by simp [hn,Lane.refuse,length_eraseIdx]
  have hold : ∀ i e, ((l.refuse ps).eraseIdx p)[i]? = some e →
      ∃ j, (l.refuse ps)[j]? = some e ∧ j≠p ∧ (if j<p then j else j-1)=i := by
    intro i e he
    rw [getElem?_eraseIdx] at he
    split at he
    · exact ⟨i,he,by omega,if_pos ‹_›⟩
    · exact ⟨i+1,he,by omega,if_neg (by omega)⟩
  have hfresh : ∀ i e, ((l.refuse ps).eraseIdx p)[i]? = some e → e.fresh=true →
      ((l.refuse ps).eraseIdx p).length-i≤owed := by
    intro i e he hf
    obtain ⟨j,hj,hne,rfl⟩ := hold i e he
    obtain ⟨hlt,-,hnew,-⟩ := h.refuse hj
    exact hlen ▸ howes j hlt hne (hnew hf).1 (hnew hf).2
  have hall : cursor=0 → owed=0 → ∀ e∈(l.refuse ps).eraseIdx p, e.inspected=true ∧ e.refused=true := by
    intro hc ho e he
    obtain ⟨i,hi⟩ := mem_iff_getElem?.mp he
    obtain ⟨j,hj,hne,-⟩ := hold i e hi
    exact (h.refuse hj).2.1 (hswept hc ho j (h.refuse hj).1 hne)
  refine ⟨⟨hlen ▸ hbound,fun i e he hi => ?_,fun i e he hf => ⟨_,rfl,(hfresh i e he hf).trans (Nat.le_add_right _ _)⟩,?_,
    fun hc e he hs => ?_⟩,hall,hfresh⟩
  · obtain ⟨j,hj,hne,rfl⟩ := hold i e he
    exact (h.refuse hj).2.1 (hpassed j (h.refuse hj).1 hne hi)
  · rintro n ⟨⟩
    exact le_rfl
  simp only [Lane.observe] at hc
  split_ifs at hc with howed hcursor
  · exact (hall hcursor (by omega) e he).2
  · obtain ⟨i,hi⟩ := mem_iff_getElem?.mp he
    obtain ⟨j,hj,-⟩ := hold i e hi
    exact (h.refuse hj).2.2.2 hc hs

lemma poll [DecidableEq α] {eligible : α → Bool} (h : l.Ok) (copy : ℕ) (hlimit : 0<limit)
    (hraws : (l.entries.map Entry.raw).Nodup) (hhead : l.first≠0 ∨ l.debt≠0 ∨ l.entries.length≤1 ∨
      ((l.entries[0]?).any fun e => eligible e.raw)=false) :
    (l.poll limit eligible copy).1.Ok ∧ (l.poll limit eligible copy).1.Polled := by
  have hfirst := first_lt (l := l)
  have hstop : l.stop limit=min l.entries.length (l.first+limit) := rfl
  have hdebt : l.debt≤l.entries.length := min_le_left _ _
  -- no raw is there twice, so LREM meets the claimed entry itself
  have hcopy : ∀ p<l.entries.length,
      (if (l.entries[copy]?).map Entry.raw=(l.entries[p]?).map Entry.raw then copy else p)=p := by
    intro p hp
    split
    · rename_i heq
      rw [← getElem?_map,← getElem?_map] at heq
      exact ((getElem?_inj (by simpa using hp) hraws).mp heq.symm).symm
    · rfl
  unfold Lane.poll
  dsimp only
  split
  · rename_i p hw
    obtain ⟨hlo,hhi⟩ := mem_window.mp (mem_of_find?_eq_some hw)
    rw [hcopy p (by omega)]
    have hn := length_eraseIdx_of_lt (show p<l.entries.length by omega)
    refine h.observe hn.symm (by omega) ?_ ?_ ?_ <;> simp only [mem_range'_1]
    · intro j hj hne hi
      split at hi <;> omega
    · intro j hj hne hps hd
      split_ifs <;> omega
    · intro hp howed j hj hne
      subst hp
      rcases hhead with hne | hne | hone | hno
      · omega
      · split at howed <;> omega
      · omega
      · exact absurd (find?_some hw) (by simp [hno])
  · split
    · rename_i p hr
      obtain ⟨hp,hout⟩ := mem_filter.mp (mem_of_find?_eq_some hr)
      rw [region,mem_range'_1] at hp
      simp only [Bool.or_eq_true,decide_eq_true_eq] at hout
      rw [hcopy p (by omega)]
      have hn := length_eraseIdx_of_lt (show p<l.entries.length by omega)
      refine h.observe hn.symm (by split_ifs <;> omega) ?_ ?_ ?_ <;>
        simp only [mem_append,mem_window,mem_range'_1]
      · intro j hj hne hi
        split_ifs at hi <;> omega
      · intro j hj hne hps hd
        split_ifs <;> omega
      · intro hc howed j hj hne
        split_ifs at hc <;> omega
    · have hn := congrArg List.length (eraseIdx_of_length_le (le_refl l.entries.length))
      rw [← eraseIdx_of_length_le (k := l.entries.length) (l := l.refuse _) (by simp [Lane.refuse])]
      refine h.observe hn.symm (by split <;> omega) ?_ ?_ ?_ <;>
        simp only [mem_append,mem_window,region,mem_range'_1]
      · intro j hj hne hi
        split_ifs at hi <;> omega
      · intro j hj hne hps hd
        rw [if_pos hj]
        omega
      · intro hc howed j hj hne
        split_ifs at hc <;> omega

lemma enqueue (h : l.Ok) (raw : α) :
    Ok {l with entries := l.entries++[{raw := raw, fresh := l.seen.isSome}], seq := l.seq+1} := by
  have hbound := h.bound
  refine ⟨by simp only [length_append]; omega,fun i e he hi => ?_,fun i e he hf => ?_,
    fun n hn => (h.known n hn).trans (Nat.le_succ _),
    fun hc => forall_mem_append.mpr ⟨h.covers hc,forall_mem_singleton.mpr nofun⟩⟩
  · rw [getElem?_append_left (by dsimp only at hi; omega)] at he
    exact h.passed i e he hi
  · simp only [length_append,length_singleton]
    obtain he | ⟨rfl,rfl⟩ := getElem?_concat_some he
    · obtain ⟨n,hn,hle⟩ := h.owes i e he hf
      have := h.known n hn
      exact ⟨n,hn,by omega⟩
    · obtain ⟨n,hn⟩ := Option.isSome_iff_exists.mp hf
      have := h.known n hn
      exact ⟨n,hn,by omega⟩

lemma take (h : l.Ok) {p : ℕ} (hp : l.cursor≤p) : Ok {l with entries := l.entries.eraseIdx p} := by
  have hbound := h.bound
  refine ⟨by rw [length_eraseIdx]; dsimp only; split <;> omega,fun i e he hi => ?_,fun i e he hf => ?_,h.known,
    fun hc e he => h.covers hc e (mem_of_mem_eraseIdx he)⟩ <;>
    rw [getElem?_eraseIdx] at he
  · rw [if_pos (by dsimp only at hi; omega)] at he
    exact h.passed i e he hi
  · rw [length_eraseIdx]
    split at he <;> obtain ⟨n,hn,hle⟩ := h.owes _ e he hf <;> refine ⟨n,hn,?_⟩
    · split <;> dsimp only <;> omega
    · have := (List.getElem?_eq_some_iff.mp he).1
      split <;> dsimp only <;> omega

end Ok
end Lane

section Runs
variable {α : Type*} [DecidableEq α] {limit : ℕ} {ls : List (Lane α)}

/-- A poll that is orderly: every lane keeps the invariant, and those reported on are as a poll leaves them. -/
lemma pollLanes_ok (hlimit : 0<limit) {eligible : α → Bool} {copy : ℕ}
    (h : ∀ l∈ls, l.Ok) (horder : orderly ls (.poll eligible copy)=true) :
    (∀ l∈(pollLanes limit eligible copy ls).1,l.Ok ∧ l.Polled) ∧ ∀ l∈(pollLanes limit eligible copy ls).2.1,l.Ok := by
  induction ls with
  | nil => exact ⟨nofun,nofun⟩
  | cons l ls ih =>
    simp only [orderly,all_cons,Bool.and_eq_true,Bool.or_eq_true,decide_eq_true_eq,Bool.not_eq_true'] at horder
    obtain ⟨⟨hraws,hhead⟩,hrest⟩ := horder
    obtain ⟨hl,hls⟩ := forall_mem_cons.mp h
    have hone := hl.poll copy hlimit hraws (by simpa only [or_assoc] using hhead)
    unfold pollLanes
    split <;> rename_i heq <;> rw [heq] at hone
    · exact ⟨forall_mem_singleton.mpr hone,hls⟩
    · obtain ⟨hreported,hbehind⟩ := ih hls hrest
      exact ⟨forall_mem_cons.mpr ⟨hone,hreported⟩,hbehind⟩

lemma step_ok (hlimit : 0<limit) {a : Act α} {ls' : List (Lane α)} (h : ∀ l∈ls, l.Ok)
    (horder : orderly ls a=true) (hstep : step limit ls a=some ls') : ∀ l∈ls', l.Ok := by
  cases a with
  | enqueue i raw =>
    obtain ⟨l,hl,rfl⟩ := Option.map_eq_some_iff.mp hstep
    exact forall_mem_set h ((h l (mem_of_getElem? hl)).enqueue raw)
  | take i p =>
    obtain ⟨l,hl,rfl⟩ := Option.map_eq_some_iff.mp hstep
    simp only [orderly,hl,Option.all_some,decide_eq_true_eq] at horder
    exact forall_mem_set h ((h l (mem_of_getElem? hl)).take horder)
  | restart =>
    obtain rfl := Option.some.inj hstep
    refine forall_mem_map.mpr fun l hl => ⟨Nat.zero_le _,nofun,fun i e he hf => ?_,(h l hl).known,nofun⟩
    rw [getElem?_map] at he
    obtain ⟨e₀,he₀,rfl⟩ := Option.map_eq_some_iff.mp he
    simpa using (h l hl).owes i e₀ he₀ hf
  | poll eligible copy =>
    obtain rfl := Option.some.inj hstep
    obtain ⟨hreported,hbehind⟩ := pollLanes_ok hlimit h horder
    have hall := forall_mem_append.mpr ⟨fun l hl => (hreported l hl).1,hbehind⟩
    split
    · exact forall_mem_map.mpr fun l hl => {hall l hl with covers := nofun}
    · exact hall

/-- In an orderly run, a lane that a poll reports covered (cursor 0, nothing owed) was inspected to its end in
the pass that ends there; what was enqueued since the lane's first poll and never inspected is among the newest
that the worker owes; and when all lanes are covered, what has been ready since the call began was refused. -/
theorem covered_lanes_inspected (hlimit : 0 < limit) (lanes : List (List α × ℕ)) (acts : List (Act α))
    (hrun : run (step limit) (start lanes) acts = some ls)
    (horder : AllSteps (step limit) (fun ls a => orderly ls a = true) (start lanes) acts)
    (eligible : α → Bool) (copy : ℕ) (hpoll : orderly ls (.poll eligible copy) = true) :
    let r := pollLanes limit eligible copy ls
    (∀ l ∈ r.1, l.cursor = 0 → l.owed = 0 → ∀ e ∈ l.entries, e.inspected = true) ∧
    (∀ l ∈ r.1, ∀ i e, l.entries[i]? = some e → e.fresh = true → l.entries.length-i ≤ l.owed) ∧
    ((r.1++r.2.1).all Lane.covered = true →
      ∀ l ∈ r.1++r.2.1, ∀ e ∈ l.entries, e.stayed = true → e.refused = true) := by
  have hstart : ∀ l ∈ start lanes, l.Ok := by
    refine forall_mem_map.mpr fun l _ => ⟨Nat.zero_le _,nofun,fun i e he hf => ?_,nofun,nofun⟩
    rw [getElem?_map] at he
    obtain ⟨_,_,rfl⟩ := Option.map_eq_some_iff.mp he
    cases hf
  have hok := run_invariant_of_allSteps (I := fun ls : List (Lane α) => ∀ l∈ls, l.Ok)
    (fun _ _ _ h ho hs => step_ok hlimit h ho hs) hstart horder hrun
  obtain ⟨hreported,hbehind⟩ := pollLanes_ok hlimit hok hpoll
  refine ⟨fun l hl hc ho e he => ((hreported l hl).2.swept hc ho e he).1,fun l hl => (hreported l hl).2.owes,
    fun hall l hl => ?_⟩
  have hl' := forall_mem_append.mpr ⟨fun l hl => (hreported l hl).1,hbehind⟩ l hl
  exact hl'.covers (List.all_eq_true.mp hall l hl)

end Runs

/-- A lane of 1, 2, 3 with 4 arriving, polled by two: the poll after both is the last of its pass. -/
theorem covered_lanes_inspected_four :
    ∃ ls, run (step 2) (start [([1,2,3],0)]) [.restart,.poll (· == 9) 0,.enqueue 0 4,.take 0 2] = some ls ∧
      let r := pollLanes 2 (· == 9) 0 ls
      r.1 ≠ [] ∧ (r.1++r.2.1).all Lane.covered = true ∧
        ∀ l ∈ r.1++r.2.1, ∀ e ∈ l.entries, e.stayed = true → e.refused = true :=
  ⟨_,rfl,by decide,by decide,(covered_lanes_inspected (by decide) [([1,2,3],0)]
    [.restart,.poll (· == 9) 0,.enqueue 0 4,.take 0 2] rfl (allSteps_of_check (by decide)) (· == 9) 0
    (by decide)).2.2 (by decide)⟩

/-- With a window of one, another worker takes the entry just passed: 2 slides below the cursor, and the call
ends without it. A claim at the claim end leaves the cursor at 0, and is taken for a pass. -/
theorem slid_entry_missed :
    (∃ ls, run (step 1) (start [([1,2,3],0)]) [.restart,.poll (· == 2) 0,.take 0 0] = some ls ∧
      let r := pollLanes 1 (· == 2) 0 ls
      (r.1++r.2.1).all Lane.covered = true ∧ r.2.2 = none ∧
        ∃ l ∈ r.1, ∃ e ∈ l.entries, e.raw = 2 ∧ e.stayed = true ∧ e.inspected = false) ∧
    ∃ l ∈ (pollLanes 1 (· == 1) 0 (start [([1,2],0)])).1, l.cursor = 0 ∧ l.owed = 0 ∧
      ∃ e ∈ l.entries, e.inspected = false :=
  ⟨⟨_,rfl,by decide⟩,by decide⟩

end JuiceMount.FarmQueue.ClaimScan
