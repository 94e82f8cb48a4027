import JuiceMount.Lib.Transition
import JuiceMount.RespProxy.Conn
import JuiceMount.RespProxy.Decimals

/-! The proxy's record of what a connection WATCHes, against the Redis end of the connection.
The proxy mirrors Redis from the command stream alone: it clears and collects watched keys and
takes the unit's database from its own state, while Redis watches a key in the database that was
selected when the WATCH ran. -/
namespace JuiceMount.RespProxy
open List Transition

/-- How Redis answers a command: `+OK`, `+QUEUED`, an error or any other value. -/
inductive UpReply
  | ok | queued | error | value
  deriving DecidableEq, Repr

def UpReply.plus (r : UpReply) : Bool := r=.ok || r=.queued

/-- What decides inside Redis and is not in the command: whether an ordinary command is well
formed, and whether a watched key was changed. -/
structure Oracle where
  accepts : Bool := true
  clean : Bool := true
  deriving DecidableEq, Repr

/-- The Redis end of a connection. -/
structure Upstream where
  db : ℕ := 0
  multi : Bool := false
  dirty : Bool := false
  queue : List Request := []
  watching : List (ℕ × Bytes) := []
  deriving DecidableEq, Repr

namespace Upstream

def reject (u : Upstream) : Upstream × UpReply := ({ u with dirty := u.dirty || u.multi },.error)

/-- A command that runs at once, or inside EXEC. `dbs` is the number of databases. -/
def perform (dbs : ℕ) (u : Upstream) (r : Request) : Upstream × UpReply :=
  match r.verb with
  | .select =>
    match r.args with
    | [a] =>
      match redisInt a with
      | some n => if 0≤n && n<dbs then ({ u with db := n.toNat },.ok) else (u,.error)
      | none => (u,.error)
    | _ => (u,.error)
  | .unwatch => if r.args=[] then ({ u with watching := [] },.ok) else (u,.error)
  | _ => (u,.value)

def closeTxn (u : Upstream) : Upstream :=
  { u with multi := false, dirty := false, queue := [], watching := [] }

def apply (dbs : ℕ) (o : Oracle) (u : Upstream) (r : Request) : Upstream × UpReply :=
  if !r.plain then u.reject
  else
    match r.verb with
    | .multi =>
      if r.args≠[] then u.reject
      else if u.multi then (u,.error)
      else ({ u with multi := true, dirty := false, queue := [] },.ok)
    | .exec =>
      if r.args≠[] then u.reject
      else if !u.multi then (u,.error)
      else if u.dirty || !o.clean then (u.closeTxn,.value)
      else ((u.queue.foldl (fun u r => (u.perform dbs r).1) u).closeTxn,.value)
    | .discard =>
      if r.args≠[] then u.reject
      else if !u.multi then (u,.error)
      else (u.closeTxn,.ok)
    | .watch =>
      if r.args=[] then u.reject
      else if u.multi then (u,.error)
      else ({ u with watching := u.watching++r.args.map (fun k => (u.db,k)) },.ok)
    | _ =>
      if !o.accepts then u.reject
      else if u.multi then ({ u with queue := u.queue++[r] },.queued)
      else u.perform dbs r

end Upstream

/-- A connection with its Redis end, which has executed everything forwarded so far. -/
structure Session where
  conn : Conn
  up : Upstream := {}
  deriving DecidableEq, Repr

/-- One client command, with the answers it meets. -/
structure ClientStep where
  req : Request
  env : Env := {}
  oracles : List Oracle := []
  deriving DecidableEq, Repr

section Session
variable (dbs : ℕ) (allowedDBs : List ℕ)

/-- Send what a command forwards, in order; `last` is the latest reply. -/
def deliver : List Out → List Oracle → UpReply → Session → Session
  | [],_,_,s => s
  | .forward r _::outs,os,_,s =>
    let (u,reply) := s.up.apply dbs (os.headD {}) r
    deliver outs os.tail reply { s with up := u }
  | .noSlot r::outs,os,_,s =>
    let (u,reply) := s.up.apply dbs (os.headD {}) r
    deliver outs os.tail reply { s with up := u }
  | .reply _::outs,os,last,s => deliver outs os last s
  | .await n::outs,os,last,s =>
    deliver outs os last (if last.plus then { s with conn := { s.conn with db := n } } else s)

def sessionStep (s : Session) (a : ClientStep) : Option Session :=
  (s.conn.command allowedDBs a.req a.env).map (fun r =>
    deliver dbs r.2 a.oracles .error { s with conn := r.1 })

end Session

/-- Redis answers `+OK` to a WATCH the proxy records. -/
def watchAnswered (dbs : ℕ) (s : Session) (a : ClientStep) : Bool :=
  s.conn.txn.isSome || a.req.verb≠.watch || a.req.args=[] ||
    (s.up.apply dbs (a.oracles.headD {}) a.req).2=.ok

/-- The steps on which the proxy's record stays true: MULTI and DISCARD are ones Redis takes as
such, and no other database is selected while keys are watched. -/
def steady (c : Conn) (r : Request) : Bool :=
  match c.txn,r.verb with
  | none,.multi => r.plain && r.args=[]
  | none,.select => c.watched=[] || r.args.length≠1 || atoi (r.args.headD [])=some c.db
  | some _,.discard => r.plain && r.args=[]
  | _,_ => true

/-- The proxy's record agrees with Redis. -/
structure Tracked (s : Session) : Prop where
  multi : s.up.multi=s.conn.txn.isSome
  db : s.up.db=s.conn.db
  watch : ∀ k∈s.conn.watched,(s.conn.db,k)∈s.up.watching
  queue : ∀ r∈s.up.queue,r.verb≠.select

/-- What commands outside the record leave alone at the Redis end. -/
structure Upstream.Same (u v : Upstream) : Prop where
  db : v.db=u.db
  multi : v.multi=u.multi
  watching : v.watching=u.watching
  queue : ∀ r∈v.queue,r∈u.queue ∨ r.verb≠.select

lemma Upstream.Same.refl (u : Upstream) : u.Same u := ⟨rfl,rfl,rfl,fun _ h => .inl h⟩

lemma Upstream.Same.trans {u v w : Upstream} (h : u.Same v) (h' : v.Same w) : u.Same w :=
  ⟨h'.db.trans h.db,h'.multi.trans h.multi,h'.watching.trans h.watching,
    fun r hr => (h'.queue r hr).elim (h.queue r) .inr⟩

/-- The proxy's part of the record is unchanged too. -/
structure Conn.Same (c d : Conn) : Prop where
  db : d.db=c.db
  txn : d.txn.isSome=c.txn.isSome
  watched : d.watched=c.watched

lemma Tracked.same {s s' : Session} (h : Tracked s) (hc : s.conn.Same s'.conn)
    (hu : s.up.Same s'.up) : Tracked s' where
  multi := by rw [hu.multi,hc.txn,h.multi]
  db := by rw [hu.db,hc.db,h.db]
  watch := by
    rw [hc.db,hc.watched,hu.watching]
    exact h.watch
  queue := fun r hr => (hu.queue r hr).elim (h.queue r) id

section Steps
variable (dbs : ℕ) {allowedDBs : List ℕ}

lemma reject_same (u : Upstream) : u.Same u.reject.1 := ⟨rfl,rfl,rfl,fun _ h => .inl h⟩

/-- A command that is not about transactions, watches or databases; UNWATCH is one while it
is only queued. -/
def Quiet (u : Upstream) (r : Request) : Prop :=
  match r.verb with
  | .select | .multi | .exec | .discard | .watch => False
  | .unwatch => u.multi=true
  | _ => True

variable {r : Request} {u : Upstream} {s : Session}

lemma queued_same (u : Upstream) (h : r.verb≠.select) : u.Same {u with queue := u.queue++[r]} := by
  refine ⟨rfl,rfl,rfl,fun x hx => ?_⟩
  rcases mem_append.mp hx with hx | hx
  · exact .inl hx
  · rw [mem_singleton.mp hx]
    exact .inr h

lemma apply_quiet (o : Oracle) (h : Quiet u r) : u.Same (u.apply dbs o r).1 := by
  have hsel : r.verb≠.select := fun hv => by simp [Quiet,hv] at h
  unfold Upstream.apply
  split
  · exact reject_same u
  unfold Quiet at h
  split
  iterate 4
    rename_i hv
    simp only [hv] at h
  split
  · exact reject_same u
  split
  · exact queued_same u hsel
  rename_i hmulti
  unfold Upstream.perform
  split
  · rename_i hv
    exact absurd hv hsel
  · rename_i hun
    simp only [hun] at h
    exact absurd h hmulti
  · exact .refl u

lemma apply_in_multi (o : Oracle) (hu : u.multi=true)
    (hv : r.verb=.multi ∨ r.verb=.watch) : u.Same (u.apply dbs o r).1 := by
  unfold Upstream.apply
  split
  · exact reject_same u
  · rcases hv with hv | hv <;> simp only [hv] <;> split
    · exact reject_same u
    · exact .refl u
    · exact reject_same u
    · exact .refl u

lemma apply_no_multi (o : Oracle) (hu : u.multi=false)
    (hv : r.verb=.exec ∨ r.verb=.discard) : u.Same (u.apply dbs o r).1 := by
  unfold Upstream.apply
  split
  · exact reject_same u
  · rcases hv with hv | hv <;> simp only [hv,hu,Bool.not_false,if_true] <;> split
    · exact reject_same u
    · exact .refl u
    · exact reject_same u
    · exact .refl u

def QuietOut (u : Upstream) : Out → Prop
  | .forward r _ => Quiet u r
  | .noSlot r => Quiet u r
  | .reply _ => True
  | .await _ => False

lemma quietOut_same {u v : Upstream} (h : u.Same v) {o : Out} (ho : QuietOut u o) : QuietOut v o := by
  cases o with
  | forward r _ | noSlot r =>
    simp only [QuietOut,Quiet,h.multi] at ho ⊢
    exact ho
  | reply _ => trivial
  | await _ => exact ho

lemma deliver_quiet {outs : List Out} (os : List Oracle) (last : UpReply) (h : ∀ o∈outs,QuietOut s.up o) :
    (deliver dbs outs os last s).conn=s.conn ∧ s.up.Same (deliver dbs outs os last s).up := by
  induction outs generalizing os last s with
  | nil => exact ⟨rfl,.refl _⟩
  | cons o outs ih =>
    have ho := h o (by simp)
    have hrest := fun x hx => h x (mem_cons_of_mem o hx)
    cases o with
    | forward r sl | noSlot r =>
      have hs := apply_quiet dbs (os.headD {}) ho
      have := ih os.tail (s.up.apply dbs (os.headD {}) r).2
        (s := {s with up := (s.up.apply dbs (os.headD {}) r).1})
        (fun x hx => quietOut_same hs (hrest x hx))
      exact ⟨this.1,hs.trans this.2⟩
    | reply b => exact ih os last hrest
    | await n => exact ho.elim

lemma quiet_of_verb (h : r.verb≠.select ∧ r.verb≠.multi ∧ r.verb≠.exec ∧ r.verb≠.discard ∧
      r.verb≠.watch ∧ r.verb≠.unwatch) : Quiet u r := by
  unfold Quiet
  split <;> simp_all

lemma quiet_other (h : r.verb=.other) : Quiet u r :=
  quiet_of_verb (by simp [h])

lemma roArgs_quiet (h : Quiet u r) : Quiet u (roArgs r) := by
  unfold roArgs
  split
  · exact h
  split
  · exact quiet_other rfl
  split
  · exact quiet_other rfl
  · exact h

lemma gateBare_quiet (env : Env) (h : Quiet u r) : ∀ o∈Conn.gateBare r env,QuietOut u o := by
  unfold Conn.gateBare
  split
  · simp [QuietOut]
  · cases env.rewrite with
    | none => simpa [QuietOut] using h
    | some w => cases w <;> simpa [QuietOut] using quiet_other rfl

lemma byClass_quiet (c : Conn) (env : Env) (h : Quiet u r) :
    c.Same (c.byClass r env).1 ∧ ∀ o∈(c.byClass r env).2,QuietOut u o := by
  unfold Conn.byClass
  split
  · exact ⟨⟨rfl,rfl,rfl⟩,by simp [QuietOut]⟩
  · exact ⟨⟨rfl,rfl,rfl⟩,by simp [QuietOut]⟩
  · unfold Conn.subscribe
    split <;> exact ⟨⟨rfl,rfl,rfl⟩,by simpa [QuietOut] using h⟩
  · split
    · exact ⟨⟨rfl,rfl,rfl⟩,gateBare_quiet env (roArgs_quiet h)⟩
    · exact ⟨⟨rfl,rfl,rfl⟩,by simpa [QuietOut] using roArgs_quiet h⟩

lemma setNameCmd_quiet (u : Upstream) (c : Conn) : Quiet u c.setNameCmd := by
  have h : c.setNameCmd.verb=.client := rfl
  exact quiet_of_verb (by simp [h])

lemma auth_quiet (u : Upstream) (c : Conn) (r : Request) (env : Env) :
    c.Same (c.auth r env).1 ∧ ∀ o∈(c.auth r env).2,QuietOut u o := by
  unfold Conn.auth
  split
  · exact ⟨⟨rfl,rfl,rfl⟩,by simp [QuietOut]⟩
  split
  · exact ⟨⟨rfl,rfl,rfl⟩,by simp [QuietOut]⟩
  · exact ⟨⟨rfl,rfl,rfl⟩,by simpa [QuietOut] using setNameCmd_quiet u _⟩

lemma forwardHello_quiet (u : Upstream) (c : Conn) (r : Request) :
    c.Same (c.forwardHello r).1 ∧ ∀ o∈(c.forwardHello r).2,QuietOut u o := by
  have hquiet : ∀ args,Quiet u { name := ascii "HELLO", args := args, cls := .conn } := fun args => by
    have h : (({ name := ascii "HELLO", args := args, cls := .conn } : Request)).verb = .hello := rfl
    exact quiet_of_verb (by simp [h])
  unfold Conn.forwardHello
  split <;> exact ⟨⟨rfl,rfl,rfl⟩,by simpa [QuietOut] using hquiet _⟩

lemma hello_quiet (u : Upstream) (c : Conn) (r : Request) (env : Env) :
    c.Same (c.hello r env).1 ∧ ∀ o∈(c.hello r env).2,QuietOut u o := by
  unfold Conn.hello
  split
  · exact forwardHello_quiet u c r
  split
  · exact ⟨⟨rfl,rfl,rfl⟩,by simp [QuietOut]⟩
  split
  · exact ⟨⟨rfl,rfl,rfl⟩,by simp [QuietOut]⟩
  · exact forwardHello_quiet u c r
  · exact ⟨⟨rfl,rfl,rfl⟩,by simp [QuietOut]⟩
  · rename_i l _ _
    obtain ⟨⟨hdb,htxn,hw⟩,hq⟩ := forwardHello_quiet u (c.bind l) r
    exact ⟨⟨hdb,htxn,hw⟩,hq⟩

lemma Tracked.quiet (h : Tracked s) {c : Conn} {outs : List Out} (os : List Oracle)
    (hq : s.conn.Same c ∧ ∀ o∈outs,QuietOut s.up o) :
    Tracked (deliver dbs outs os .error {s with conn := c}) := by
  obtain ⟨hconn,hup⟩ := deliver_quiet dbs os .error
    (s := {s with conn := c}) hq.2
  exact h.same (by rw [hconn]; exact hq.1) hup

lemma atoi_of_redisInt {b : Bytes} {v : ℤ} (h : redisInt b=some v) (hv : 0≤v) : atoi b=some v.toNat := by
  obtain ⟨_,hhi,rfl⟩ := redisInt_eq_some.mp h
  obtain ⟨n,rfl⟩ := Int.eq_ofNat_of_zero_le hv
  obtain ⟨c,l,hcl,hlo,_⟩ := head_formatUint n
  have hminus : c≠45 := by rintro rfl; exact absurd hlo (by decide)
  have hplus : c≠43 := by rintro rfl; exact absurd hlo (by decide)
  have hall := all_isDigit_formatUint n
  have hdec := decimal_formatUint n
  rw [formatInt,if_neg hv.not_gt,Int.toNat_natCast,hcl]
  rw [hcl] at hall hdec
  simpa [atoi,hminus,hplus,hall,hdec] using hhi

lemma apply_select (o : Oracle) (hu : u.multi=false) (hv : r.verb=.select) :
    u.Same (u.apply dbs o r).1 ∧ (u.apply dbs o r).2=.error ∨
      ∃ a n,r.args=[a] ∧ atoi a=some n ∧ (u.apply dbs o r)=({u with db := n},.ok) := by
  unfold Upstream.apply
  split
  · exact .inl ⟨reject_same u,rfl⟩
  simp only [hv]
  split
  · exact .inl ⟨reject_same u,rfl⟩
  simp only [hu,Bool.false_eq_true,if_false,Upstream.perform,hv]
  split
  · rename_i a hargs
    split
    · rename_i n hn
      split
      · rename_i hrange
        simp only [Bool.and_eq_true,decide_eq_true_eq] at hrange
        exact .inr ⟨a,n.toNat,hargs,atoi_of_redisInt hn hrange.1,rfl⟩
      · exact .inl ⟨.refl u,rfl⟩
    · exact .inl ⟨.refl u,rfl⟩
  · exact .inl ⟨.refl u,rfl⟩

lemma Tracked.select (h : Tracked s) (htxn : s.conn.txn=none) (hv : r.verb=.select) (os : List Oracle)
    (hsteady : s.conn.watched=[] ∨ r.args.length≠1 ∨ atoi (r.args.headD [])=some s.conn.db) :
    Tracked (deliver dbs (s.conn.selectDB allowedDBs r) os .error s) := by
  have hu : s.up.multi=false := by rw [h.multi,htxn]; rfl
  -- nothing but the record of the two databases can change
  have hmoved : ∀ n a,r.args=[a] → atoi a=some n →
      Tracked {s with up := {s.up with db := n}, conn := {s.conn with db := n}} := by
    intro n a hargs hn
    refine ⟨h.multi,rfl,fun k hk => ?_,h.queue⟩
    rcases hsteady with hempty | hlen | hsame
    · simp [hempty] at hk
    · simp [hargs] at hlen
    · have : n=s.conn.db := by simpa [hargs,hn] using hsame
      subst this
      exact h.watch k hk
  have hsame : ∀ {u : Upstream},s.up.Same u → Tracked {s with up := u} :=
    fun hs => h.same ⟨rfl,rfl,rfl⟩ hs
  unfold Conn.selectDB
  split
  · rename_i a hargs
    split
    · rename_i hnone
      rcases apply_select dbs (os.headD {}) hu hv with ⟨hs,_⟩ | ⟨a',n,hargs',hn,_⟩
      · exact hsame hs
      · rw [hargs] at hargs'
        cases hargs'
        rw [hnone] at hn
        cases hn
    · rename_i n hn
      split
      · exact h
      rcases apply_select dbs (os.headD {}) hu hv with ⟨hs,hrep⟩ | ⟨a',n',hargs',hn',heq⟩
      · simp only [deliver,hrep,UpReply.plus]
        exact hsame hs
      · rw [hargs] at hargs'
        cases hargs'
        rw [hn] at hn'
        cases hn'
        simp only [deliver,heq,UpReply.plus]
        exact hmoved n a hargs hn
  · rename_i hargs
    rcases apply_select dbs (os.headD {}) hu hv with ⟨hs,_⟩ | ⟨a',n,hargs',_,_⟩
    · exact hsame hs
    · exact (hargs a' hargs').elim

lemma foldl_perform_db {queue : List Request} (h : ∀ r∈queue,r.verb≠.select) (u : Upstream) :
    (queue.foldl (fun u r => (u.perform dbs r).1) u).db=u.db := by
  induction queue generalizing u with
  | nil => rfl
  | cons r queue ih =>
    rw [foldl_cons,ih (fun x hx => h x (mem_cons_of_mem r hx))]
    unfold Upstream.perform
    split
    · rename_i hv
      exact absurd hv (h r (by simp))
    · split <;> rfl
    · rfl

lemma apply_close (o : Oracle) (hu : u.multi=true) (hq : ∀ r∈u.queue,r.verb≠.select) (hp : r.plain=true) (ha : r.args=[])
    (hv : r.verb=.exec ∨ r.verb=.discard) : (u.apply dbs o r).1.db=u.db ∧ (u.apply dbs o r).1.multi=false ∧
      (u.apply dbs o r).1.queue=[] := by
  unfold Upstream.apply
  simp only [hp,Bool.not_true,Bool.false_eq_true,if_false,ha,ne_eq,not_true]
  rcases hv with hv | hv <;> simp only [hv,hu,Bool.not_true,Bool.false_eq_true,if_false]
  · split
    · exact ⟨rfl,rfl,rfl⟩
    · exact ⟨foldl_perform_db dbs hq u,rfl,rfl⟩
  · exact ⟨rfl,rfl,rfl⟩

lemma tracked_closed (hdb : s.up.db=s.conn.db) (hm : s.up.multi=false)
    (hq : s.up.queue=[]) (ht : s.conn.txn=none) (hw : s.conn.watched=[]) : Tracked s :=
  ⟨by rw [hm,ht]; rfl,hdb,by simp [hw],by simp [hq]⟩

lemma deliver_append (outs outs' : List Out) (os : List Oracle) (last : UpReply) (s : Session)
    (h : ∀ o∈outs,∃ r sl,o=.forward r sl) : ∃ last',deliver dbs (outs++outs') os last s =
      deliver dbs outs' (os.drop outs.length) last' (deliver dbs outs os last s) := by
  induction outs generalizing os last s with
  | nil => exact ⟨last,rfl⟩
  | cons o outs ih =>
    obtain ⟨r,sl,rfl⟩ := h o (by simp)
    have := ih os.tail (s.up.apply dbs (os.headD {}) r).2
      {s with up := (s.up.apply dbs (os.headD {}) r).1}
      (fun x hx => h x (mem_cons_of_mem _ hx))
    simpa [deliver] using this

lemma Tracked.exec (h : Tracked s) {t : TxnState} (htxn : s.conn.txn=some t) (env : Env) (os : List Oracle) :
    Tracked (deliver dbs (s.conn.exec t env).2 os .error {s with conn := (s.conn.exec t env).1}) := by
  have hu : s.up.multi=true := by rw [h.multi,htxn]; rfl
  have hclose : ∀ {u : Upstream} {r : Request} (o : Oracle),s.up.Same u → r.plain=true → r.args=[] →
      (r.verb=.exec ∨ r.verb=.discard) →
      Tracked {conn := {s.conn with txn := none, watched := []}, up := (u.apply dbs o r).1} := by
    intro u r o hs hp ha hv
    obtain ⟨hdb,hm,hq⟩ := apply_close dbs o (hs.multi.trans hu)
      (fun x hx => (hs.queue x hx).elim (h.queue x) id) hp ha hv
    exact tracked_closed (hdb.trans (hs.db.trans h.db)) hm hq rfl rfl
  unfold Conn.exec
  dsimp only
  split
  · exact hclose (r := discardCmd) (os.headD {}) (.refl _) rfl rfl (.inr rfl)
  -- the appended commands are queued, then EXEC runs
  set appended := env.sliceUsed.map setBitCmd++
    (env.receipt.map (fun args => (Rewrite.eval args).request)).toList with happ
  have hquiet : ∀ o∈appended.map (fun r => Out.forward r {drop := true}),QuietOut s.up o := by
    intro o ho
    obtain ⟨r,hr,rfl⟩ := mem_map.mp ho
    rw [happ] at hr
    refine quiet_other ?_
    rcases mem_append.mp hr with hr | hr
    · obtain ⟨id,_,rfl⟩ := mem_map.mp hr
      rfl
    · cases hrec : env.receipt with
      | none => simp [hrec] at hr
      | some args =>
        simp only [hrec,Option.map_some,Option.toList_some,mem_singleton] at hr
        subst hr
        rfl
  obtain ⟨last,happend⟩ := deliver_append dbs
    (appended.map (fun r => Out.forward r {drop := true})) [.forward execCmd _] os .error
    {s with conn := {s.conn with txn := none, watched := []}}
    (fun o ho => by
      obtain ⟨r,_,rfl⟩ := mem_map.mp ho
      exact ⟨r,_,rfl⟩)
  rw [happend]
  obtain ⟨hconn,hup⟩ := deliver_quiet dbs os .error
    (s := {s with conn := {s.conn with txn := none, watched := []}}) hquiet
  simp only [deliver,hconn]
  exact hclose (r := execCmd) _ hup rfl rfl (.inl rfl)

lemma Tracked.inTxn (h : Tracked s) {t : TxnState} (htxn : s.conn.txn=some t)
    (r : Request) (env : Env) (os : List Oracle)
    (hsteady : r.verb=.discard → r.plain=true ∧ r.args=[]) :
    Tracked (deliver dbs (s.conn.inTxn t r env).2 os .error
      {s with conn := (s.conn.inTxn t r env).1}) := by
  have hu : s.up.multi=true := by rw [h.multi,htxn]; rfl
  have hnot : r.verb=.multi ∨ r.verb=.watch →
      Tracked (deliver dbs [.forward r {}] os .error s) := fun hv =>
    h.same ⟨rfl,rfl,rfl⟩ (apply_in_multi dbs (os.headD {}) hu hv)
  unfold Conn.inTxn
  split
  · exact h.exec dbs htxn env os
  · rename_i hv
    obtain ⟨hp,ha⟩ := hsteady hv
    obtain ⟨hdb,hm,hq⟩ := apply_close dbs (os.headD {}) hu h.queue hp ha (.inr hv)
    exact tracked_closed (hdb.trans h.db) hm hq rfl rfl
  · rename_i hv
    exact hnot (.inl hv)
  · rename_i hv
    exact hnot (.inr hv)
  · rename_i h1 h2 h3 h4
    split
    · exact h.quiet dbs os ⟨⟨rfl,by simp [htxn],rfl⟩,by simp [QuietOut]⟩
    rename_i hpoison
    have hsel : r.verb≠.select := fun hv => hpoison (by simp [Conn.poisons,hv])
    have hquiet : Quiet s.up r := by
      unfold Quiet
      split <;> simp_all
    exact h.quiet dbs os ⟨⟨rfl,by simp [htxn],rfl⟩,by simpa [QuietOut] using roArgs_quiet hquiet⟩

lemma apply_watch {o : Oracle} (hv : r.verb=.watch) (h : (u.apply dbs o r).2=.ok) :
    (u.apply dbs o r).1 = {u with watching := u.watching++r.args.map (fun k => (u.db,k))} := by
  unfold Upstream.apply at h ⊢
  split at h
  · cases h
  · simp only [hv] at h ⊢
    split at h
    · cases h
    · split_ifs at h
      · simp_all

lemma apply_unwatch (o : Oracle) (hu : u.multi=false) (hv : r.verb=.unwatch) :
    (u.apply dbs o r).1.db=u.db ∧ (u.apply dbs o r).1.multi=false ∧ (u.apply dbs o r).1.queue=u.queue := by
  unfold Upstream.apply
  split
  · exact ⟨rfl,hu,rfl⟩
  simp only [hv]
  split
  · exact ⟨rfl,hu,rfl⟩
  simp only [hu,Bool.false_eq_true,if_false,Upstream.perform,hv]
  split
  · exact ⟨rfl,rfl,rfl⟩
  · exact ⟨rfl,hu,rfl⟩

lemma Tracked.unwatched (h : Tracked s) {c : Conn}
    (hc : c.txn=none ∧ c.db=s.conn.db ∧ c.watched=[]) (hdb : u.db=s.up.db)
    (hm : u.multi=false) (hq : ∀ r∈u.queue,r∈s.up.queue ∨ r.verb≠.select) :
    Tracked {conn := c, up := u} :=
  ⟨by rw [hm,hc.1]; rfl,by rw [hdb,hc.2.1,h.db],by simp [hc.2.2],
    fun r hr => (hq r hr).elim (h.queue r) id⟩

lemma sessionStep_tracked {s s' : Session} {a : ClientStep} (h : Tracked s)
    (hw : watchAnswered dbs s a=true) (hsteady : steady s.conn a.req=true)
    (hstep : sessionStep dbs allowedDBs s a=some s') : Tracked s' := by
  obtain ⟨⟨c,outs⟩,hcmd,rfl⟩ := Option.map_eq_some_iff.mp hstep
  unfold Conn.command at hcmd
  split at hcmd
  · -- a RESP2 pub/sub connection
    have hquiet : Quiet s.up a.req → Tracked (deliver dbs [.noSlot a.req] a.oracles .error s) :=
      fun hq => h.quiet dbs a.oracles ⟨⟨rfl,rfl,rfl⟩,by simpa [QuietOut] using hq⟩
    split at hcmd
    · rename_i kind hv
      cases hcmd
      exact hquiet (quiet_of_verb (by simp [hv]))
    · rename_i hv
      cases hcmd
      exact hquiet (quiet_of_verb (by simp [hv]))
    · split at hcmd <;> cases hcmd
      rename_i hping
      exact hquiet (quiet_other (by rw [Request.verb,hping]; rfl))
  · cases htxn : s.conn.txn with
    | some t =>
      simp only [htxn,Option.some.injEq] at hcmd
      have hin := h.inTxn dbs htxn a.req a.env a.oracles (fun hv => by
        simpa [steady,htxn,hv] using hsteady)
      rw [hcmd] at hin
      exact hin
    | none =>
      have hu : s.up.multi=false := by rw [h.multi,htxn]; rfl
      simp only [htxn,Option.some.injEq] at hcmd
      have hclass : Quiet s.up a.req → Tracked (deliver dbs (s.conn.byClass a.req a.env).2 a.oracles
          .error {s with conn := (s.conn.byClass a.req a.env).1}) :=
        fun hq => h.quiet dbs a.oracles (byClass_quiet s.conn a.env hq)
      cases hv : a.req.verb with simp only [hv] at hcmd
      | auth =>
        have := h.quiet dbs a.oracles (auth_quiet s.up s.conn a.req a.env)
        rwa [hcmd] at this
      | hello =>
        have := h.quiet dbs a.oracles (hello_quiet s.up s.conn a.req a.env)
        rwa [hcmd] at this
      | quit =>
        cases hcmd
        exact h.quiet dbs a.oracles
          ⟨⟨rfl,rfl,rfl⟩,by simpa [QuietOut] using quiet_of_verb (by simp [hv])⟩
      | select =>
        cases hcmd
        exact h.select dbs htxn hv a.oracles (by simpa [steady,htxn,hv,or_assoc] using hsteady)
      | multi =>
        cases hcmd
        obtain ⟨hp,ha⟩ : a.req.plain=true ∧ a.req.args=[] := by
          simpa [steady,htxn,hv] using hsteady
        have hup : (s.up.apply dbs (a.oracles.headD {}) a.req).1 =
            {s.up with multi := true, dirty := false, queue := []} := by
          simp [Upstream.apply,hp,hv,ha,hu]
        simp only [deliver,hup]
        exact ⟨rfl,h.db,h.watch,by simp⟩
      | exec =>
        cases hcmd
        have hs := apply_no_multi dbs (a.oracles.headD {}) hu (.inl hv)
        exact h.unwatched ⟨rfl,rfl,rfl⟩ hs.db (hs.multi.trans hu) hs.queue
      | discard =>
        cases hcmd
        have hs := apply_no_multi dbs (a.oracles.headD {}) hu (.inr hv)
        exact h.unwatched ⟨rfl,rfl,rfl⟩ hs.db (hs.multi.trans hu) hs.queue
      | watch =>
        cases hcmd
        by_cases hargs : a.req.args=[]
        · have hs : s.up.Same (s.up.apply dbs (a.oracles.headD {}) a.req).1 := by
            unfold Upstream.apply
            split
            · exact reject_same s.up
            · simp only [hv]
              exact reject_same s.up
          exact h.same ⟨rfl,by rw [htxn]; rfl,by simp [deliver,hargs]⟩ hs
        · have hup := apply_watch dbs (o := a.oracles.headD {}) hv
            (by simpa [watchAnswered,htxn,hv,hargs] using hw)
          simp only [deliver,hup]
          refine ⟨hu,h.db,fun k hk => ?_,h.queue⟩
          rcases mem_append.mp hk with hk | hk
          · exact mem_append_left _ (h.watch k hk)
          · refine mem_append_right _ (mem_map.mpr ⟨k,mem_of_mem_take hk,?_⟩)
            rw [h.db]
      | unwatch =>
        cases hcmd
        obtain ⟨hdb,hm,hq⟩ := apply_unwatch dbs (a.oracles.headD {}) hu hv
        exact h.unwatched ⟨rfl,rfl,rfl⟩ hdb hm (fun r hr => .inl (hq ▸ hr))
      | client =>
        split at hcmd
        · cases hcmd
          exact h.quiet dbs a.oracles
            ⟨⟨rfl,rfl,rfl⟩,by simpa [QuietOut] using setNameCmd_quiet s.up s.conn⟩
        · have := hclass (quiet_of_verb (by simp [hv]))
          rwa [hcmd] at this
      | subscribe kind =>
        have := hclass (quiet_of_verb (by simp [hv]))
        rwa [hcmd] at this
      | other =>
        have := hclass (quiet_other hv)
        rwa [hcmd] at this

end Steps

/-- Over every sequence of client commands in which Redis answers `+OK` to each WATCH, MULTI and
DISCARD are ones Redis takes as such and no other database is selected while keys are watched:
whenever a transaction is open, every key of the unit that `exec` would build is watched by
Redis on this connection, in the unit's database. -/
theorem unit_watches_in_its_db {dbs : ℕ} {allowedDBs : List ℕ} {c : Conn} {as : List ClientStep}
    {s : Session} (hc : c.txn = none ∧ c.db = 0 ∧ c.watched = [])
    (hsteps : Transition.AllSteps (sessionStep dbs allowedDBs)
      (fun s a => (watchAnswered dbs s a && steady s.conn a.req) = true) { conn := c } as)
    (h : Transition.run (sessionStep dbs allowedDBs) { conn := c } as = some s) :
    ∀ t,s.conn.txn = some t →
      ∀ k ∈ (s.conn.unit t).watched,((s.conn.unit t).db,k) ∈ s.up.watching := by
  have hstart : Tracked { conn := c } :=
    ⟨by rw [hc.1]; rfl,hc.2.1.symm,by simp [hc.2.2],by simp⟩
  have htracked := run_invariant_of_allSteps (I := Tracked)
    (fun _ _ _ hI hG hstep =>
      sessionStep_tracked _ hI (Bool.and_eq_true_iff.mp hG).1 (Bool.and_eq_true_iff.mp hG).2 hstep)
    hstart hsteps h
  exact fun t _ k hk => htracked.watch k hk

def watchReq (k : Bytes) : Request := { name := ascii "WATCH", args := [k], cls := .txn }
def selectReq (n : Bytes) : Request := { name := ascii "SELECT", args := [n], cls := .conn }
def multiReq : Request := { name := ascii "MULTI", cls := .txn }

/-- WATCH and MULTI in database 1, selected before anything is watched. -/
def steadySteps : List ClientStep :=
  [{ req := selectReq (ascii "1") },{ req := watchReq (ascii "c5_0") },{ req := multiReq }]

/-- The same commands with the SELECT after the WATCH. -/
def driftSteps : List ClientStep :=
  [{ req := watchReq (ascii "c5_0") },{ req := selectReq (ascii "1") },{ req := multiReq }]

/-- A key watched after the SELECT is watched in the unit's database. -/
theorem selected_then_watched :
    ∃ s t,Transition.run (sessionStep 16 [0,1]) { conn := {} } steadySteps = some s ∧
      s.conn.txn = some t ∧ (s.conn.unit t).watched = [ascii "c5_0"] ∧
      ((s.conn.unit t).db,ascii "c5_0") ∈ s.up.watching := by
  have hrun : (Transition.run (sessionStep 16 [0,1]) { conn := {} } steadySteps).map
      (fun s => (s.conn.txn,s.conn.watched)) = some (some {},[ascii "c5_0"]) := by decide +kernel
  obtain ⟨s,hs,hobs⟩ := Option.map_eq_some_iff.mp hrun
  simp only [Prod.mk.injEq] at hobs
  have := unit_watches_in_its_db ⟨rfl,rfl,rfl⟩
    (allSteps_of_check (by decide +kernel)) hs {} hobs.1
  exact ⟨s,{},hs,hobs.1,hobs.2,this _ (by simp [Conn.unit,hobs.2])⟩

/-- Redis answers `+OK` to the WATCH, and still the unit's key is watched in another database
than the unit's. -/
theorem watched_then_selected :
    Transition.AllSteps (sessionStep 16 [0,1]) (fun s a => watchAnswered 16 s a = true)
        { conn := {} } driftSteps ∧
      ∃ s t,Transition.run (sessionStep 16 [0,1]) { conn := {} } driftSteps = some s ∧
        s.conn.txn = some t ∧ ascii "c5_0" ∈ (s.conn.unit t).watched ∧
        ((s.conn.unit t).db,ascii "c5_0") ∉ s.up.watching := by
  have hrun : (Transition.run (sessionStep 16 [0,1]) { conn := {} } driftSteps).map
      (fun s => (s.conn.txn,decide (ascii "c5_0" ∈ s.conn.watched),
        decide ((s.conn.db,ascii "c5_0") ∈ s.up.watching))) = some (some {},true,false) := by
    decide +kernel
  obtain ⟨s,hs,hobs⟩ := Option.map_eq_some_iff.mp hrun
  simp only [Prod.mk.injEq,decide_eq_true_eq,decide_eq_false_iff_not] at hobs
  exact ⟨allSteps_of_check (by decide +kernel),s,{},hs,hobs.1,hobs.2.1,hobs.2.2⟩

end JuiceMount.RespProxy
