import JuiceMount.AuditLog.ChainCheck

/-! What the Manager's anchors prove about an audit directory that anybody may have edited since
they were taken. The check runs forwards, the argument backwards: an anchored line is the honest
one, so the line before it hashes to what the honest line named, and so on to the first line on
disk. -/
namespace JuiceMount.AuditLog
open List Option
open RespProxy (Bytes ascii)

/-- All lines the writer ever wrote, from the very first record on. -/
structure Honest (codec : Codec) (history : List Bytes) : Prop where
  chained : Chained codec history
  root : ∀ l ∈ history.head?, prevOf codec l=some zeroHash
  increasing : (history.map (seqOf codec)).Pairwise (· < ·)
  positive : ∀ l∈history, seqOf codec l≠0

def logLines (dir : List Entry) : List Bytes := linesFrom 0 (segments dir)

/-- The directory of the honest log at some moment: later lines were not written yet, older ones
may have been removed by retention. -/
def HonestState (history : List Bytes) (dir : List Entry) : Prop := logLines dir <:+: history

/-- The anchors the Manager records: the head of a first full check, then the heads of `follow`. -/
inductive Taken (codec : Codec) (history : List Bytes) : Anchor → Prop
  | first {dir : List Entry} (state : HonestState history dir)
      (ok : (verifyAnchors codec dir []).report.ok=true) (found : (verifyAnchors codec dir []).head.seq≠0) :
      Taken codec history (verifyAnchors codec dir []).head
  | next {dir : List Entry} {a : Anchor} {maxSeq : ℕ} (last : Taken codec history a)
      (state : HonestState history dir) (ok : (follow codec dir a maxSeq).report.ok=true)
      (found : (follow codec dir a maxSeq).head.seq≠0) :
      Taken codec history (follow codec dir a maxSeq).head

/-- No piece of a file in the directory has the digest of a different honest line, nor the digest
that stands for "no line before". -/
structure CollisionFree (codec : Codec) (history : List Bytes) (dir : List Entry) : Prop where
  same : ∀ e∈dir,∀ x, x <:+: e.data → ∀ y∈history, codec.digest x = codec.digest y → x=y
  nonzero : ∀ e∈dir,∀ x, x <:+: e.data → codec.digest x≠zeroHash

section
variable {codec : Codec} {history : List Bytes} {dir : List Entry} {x y : Bytes}

lemma Honest.eq_of_seq (h : Honest codec history) (hx : x∈history) (hy : y∈history)
    (hxy : seqOf codec x=seqOf codec y) : x=y :=
  inj_on_of_nodup_map (h.increasing.imp fun hlt => hlt.ne) hx hy hxy

lemma exists_entry_of_segment {seg : Segment} (h : seg∈segments dir) : ∃ e∈dir, e.data=seg.data := by
  unfold segments at h
  obtain ⟨e,he,hseg⟩ := mem_filterMap.mp ((mem_insertionSort _).mp h)
  refine ⟨e,he,?_⟩
  unfold Entry.toSegment at hseg
  split_ifs at hseg
  obtain ⟨n,-,rfl⟩ := map_eq_some_iff.mp hseg
  rfl

lemma infix_of_mem_linesFrom {segs : List Segment} {start : ℕ} {l : Bytes} (hl : l∈linesFrom start segs) :
    ∃ seg∈segs, l <:+: seg.data := by
  induction segs generalizing start with
  | nil => cases hl
  | cons seg segs ih =>
    rcases mem_append.mp hl with hl | hl
    · refine ⟨seg,by simp,?_⟩
      exact (Lines.infix_of_mem_lines hl).trans (drop_suffix _ _).isInfix
    · obtain ⟨seg',hseg',h⟩ := ih hl
      exact ⟨seg',by simp [hseg'],h⟩

lemma CollisionFree.eq_of_digest (cf : CollisionFree codec history dir) {seg : Segment}
    (hseg : seg∈segments dir) (hx : x <:+: seg.data) (hy : y∈history) (hxy : codec.digest x=codec.digest y) : x=y := by
  obtain ⟨e,he,hdata⟩ := exists_entry_of_segment hseg
  exact cf.same e he x (hdata ▸ hx) y hy hxy

lemma CollisionFree.line_eq (cf : CollisionFree codec history dir) (hx : x∈logLines dir)
    (hy : y∈history) (hxy : codec.digest x=codec.digest y) : x=y := by
  obtain ⟨seg,hseg,hpart⟩ := infix_of_mem_linesFrom hx
  exact cf.eq_of_digest hseg hpart hy hxy

lemma CollisionFree.line_nonzero (cf : CollisionFree codec history dir) (hx : x∈logLines dir) :
    codec.digest x≠zeroHash := by
  obtain ⟨seg,hseg,hpart⟩ := infix_of_mem_linesFrom hx
  obtain ⟨e,he,hdata⟩ := exists_entry_of_segment hseg
  exact cf.nonzero e he x (hdata ▸ hpart)

end

/-! ### Every anchor from the start on meets a line -/

lemma anchorMap_concat (as : List Anchor) (a : Anchor) : anchorMap (as++[a])=(anchorMap as).set a.seq a.hash := by
  simp [anchorMap]

lemma exists_anchor_of_get? {as : List Anchor} {s : ℕ} {want : Hash} (h : (anchorMap as).get? s=some want) :
    ∃ a∈as, a.seq=s ∧ a.hash=want := by
  induction as using List.reverseRecOn with
  | nil => cases h
  | append_singleton as a ih =>
    rw [anchorMap_concat] at h
    obtain ⟨rfl,rfl⟩ | ⟨-,h⟩ := GoMap.of_get?_set h
    · exact ⟨a,by simp,rfl,rfl⟩
    · obtain ⟨b,hb,hbs⟩ := ih h
      exact ⟨b,by simp [hb],hbs⟩

lemma anchorMap_isSome {as : List Anchor} {a : Anchor} (ha : a∈as) : ((anchorMap as).get? a.seq).isSome := by
  induction as using List.reverseRecOn with
  | nil => cases ha
  | append_singleton as b ih =>
    rw [anchorMap_concat,GoMap.get?_set]
    split
    · rfl
    · rename_i hne
      rcases mem_append.mp ha with ha | ha
      · exact ih ha
      · exact absurd (congrArg Anchor.seq (mem_singleton.mp ha)) hne

section
variable {codec : Codec} {segs : List Segment} {anchors : List Anchor} {ls : List Bytes} {c : ChainCheck}

lemma Walked.pairwise_after (hw : Walked codec c ls c') : (ls.map (seqOf codec)).Pairwise After :=
  (isChain_iff_pairwise.mp hw.increasing).tail

lemma Walked.startSeq_le (hw : Walked codec (.fresh segs anchors) ls c) {l : Bytes} (hl : l∈ls) :
    c.report.startSeq ≤ seqOf codec l := by
  cases hls : ls with
  | nil => simp [hls] at hl
  | cons x xs =>
    subst hls
    have hstart := (hw.start_eq rfl x rfl).1
    rcases mem_cons.mp hl with rfl | hl
    · exact hstart.le
    · have hafter := rel_of_pairwise_cons hw.pairwise_after (List.mem_map_of_mem (f := seqOf codec) hl)
      unfold After at hafter
      omega

theorem Walked.nodup_hits (hw : Walked codec c ls c') (hpos : ∀ b∈anchors, b.seq≠0) :
    ((ls.filter fun l => ((anchorMap anchors).get? (seqOf codec l)).isSome).map (seqOf codec)).Nodup := by
  have hsub : ((ls.filter fun l => ((anchorMap anchors).get? (seqOf codec l)).isSome).map (seqOf codec)).Pairwise
      After := hw.pairwise_after.sublist (filter_sublist.map _)
  refine hsub.imp_of_mem fun {x y} hx _ hxy => ?_
  obtain ⟨l,hl,rfl⟩ := List.mem_map.mp hx
  obtain ⟨want,hwant⟩ := isSome_iff_exists.mp (mem_filter.mp hl).2
  obtain ⟨b,hb,hseq,-⟩ := exists_anchor_of_get? hwant
  have hne := hpos b hb
  unfold After at hxy
  omega

/-- As many lines met an anchor as there are anchors from the start on, so every one of them did. -/
theorem Walked.exists_line (hw : Walked codec (.fresh segs anchors) ls c) (hpos : ∀ b∈anchors, b.seq≠0)
    (hcount : (anchors.filter fun a => c.report.startSeq≤a.seq).length=c.anchorsHit)
    {a : Anchor} (ha : a∈anchors) (hstart : c.report.startSeq≤a.seq) : ∃ l∈ls, seqOf codec l=a.seq := by
  by_contra hnone
  simp only [not_exists,not_and] at hnone
  set counted := anchors.filter fun a => c.report.startSeq≤a.seq
  set hits := ls.filter fun l => ((anchorMap anchors).get? (seqOf codec l)).isSome
  have hhits : c.anchorsHit=hits.length := by
    rw [hw.anchorsHit_eq,countP_eq_length_filter]
    simp [ChainCheck.fresh,hits]
  have hsubset : hits.map (seqOf codec) ⊆ (counted.filter fun b => b.seq≠a.seq).map Anchor.seq := by
    intro s hs
    obtain ⟨l,hl,rfl⟩ := List.mem_map.mp hs
    obtain ⟨hl,hsome⟩ := mem_filter.mp hl
    obtain ⟨want,hwant⟩ := isSome_iff_exists.mp hsome
    obtain ⟨b,hb,hseq,-⟩ := exists_anchor_of_get? hwant
    refine List.mem_map.mpr ⟨b,?_,hseq⟩
    have hle := hw.startSeq_le hl
    have hne := hnone l hl
    simp only [mem_filter,counted,hb,true_and,decide_eq_true_eq]
    exact ⟨by omega,by simpa [hseq] using hne⟩
  have hle : (hits.map (seqOf codec)).length≤_ :=
    (subperm_of_subset (hw.nodup_hits hpos) hsubset).length_le
  have hlt : (counted.filter fun b => b.seq≠a.seq).length<counted.length := by
    refine length_filter_lt_length_iff_exists.mpr ⟨a,?_,by simp⟩
    simp only [counted,mem_filter,ha,true_and,decide_eq_true_eq]
    exact hstart
  simp only [length_map] at hle
  omega

end

/-! ### Backwards along the chain -/
section
variable {codec : Codec} {history : List Bytes} {dir : List Entry} {anchors : List Anchor}

/-- An anchor of the honest history that is not older than the log on disk, which verifies: the
lines on disk up to the anchored one are consecutive lines of the history. -/
theorem stretch_of_verify (honest : Honest codec history) (cf : CollisionFree codec history dir)
    (hanchors : ∀ a∈anchors, AnchorOf codec history a)
    (hok : (verifyAnchors codec dir anchors).report.ok=true) {a : Anchor} (ha : a∈anchors)
    (hstart : (verifyAnchors codec dir anchors).report.startSeq≤a.seq) :
    ∃ older upTo line newer later, logLines dir=upTo++line::later ∧ history=older++upTo++line::newer ∧
      seqOf codec line=a.seq ∧ codec.digest line=a.hash := by
  obtain ⟨c,head,hwalk,hconclude,hreport⟩ := verifySegments_ok hok
  have hw : Walked codec (.fresh (segments dir) anchors) (logLines dir) c := (walkSegments_on hwalk).1
  have hokc : c.report.ok=false := by
    have h : (walkSegments codec 0 (.fresh (segments dir) anchors) {} 0 (segments dir)).check.report.ok=_ :=
      walkSegments_ok 0 {} 0 (segments dir)
    rw [hwalk] at h
    exact h
  obtain ⟨-,-,hcount⟩ := (ChainCheck.conclude_ok hokc).mp hconclude
  rw [verifyAnchors,hreport,ChainCheck.conclude_startSeq] at hstart
  have hpos : ∀ b∈anchors, b.seq≠0 := by
    intro b hb
    obtain ⟨l,hl,hseq,-⟩ := hanchors b hb
    exact hseq ▸ honest.positive l hl
  obtain ⟨l,hl,hseq⟩ := hw.exists_line hpos hcount ha hstart
  -- The line on disk with the anchor's number has the anchor's hash, so it is the honest line.
  obtain ⟨x,hx,hxseq,hxhash⟩ := hanchors a ha
  obtain ⟨want,hwant⟩ := isSome_iff_exists.mp (anchorMap_isSome ha)
  obtain ⟨b,hb,hbseq,hbhash⟩ := exists_anchor_of_get? hwant
  obtain ⟨y,hy,hyseq,hyhash⟩ := hanchors b hb
  have hyx : y=x := honest.eq_of_seq hy hx (by omega)
  have hdigest : codec.digest l=codec.digest x := by
    have hwant' : (ChainCheck.fresh (segments dir) anchors).bySeq.get? (seqOf codec l)=some want := by
      rw [hseq]
      exact hwant
    rw [hw.anchored hl hwant',← hbhash,hyhash,hyx]
  have hlx : l=x := cf.line_eq hl hx hdigest
  subst hlx
  obtain ⟨upTo,later,hlines⟩ := append_of_mem hl
  obtain ⟨before,newer,hhistory⟩ := append_of_mem hx
  have hdisk : Chained codec (upTo++[l]) := hw.chained.infix ⟨[],later,by simp [hlines]⟩
  have hhonest : Chained codec (before++[l]) := honest.chained.infix ⟨[],newer,by simp [hhistory]⟩
  have hroot : ∀ y∈(before++[l]).head?, prevOf codec y=some zeroHash := by
    intro y hy
    refine honest.root y ?_
    rw [hhistory]
    simpa using hy
  have hsuffix : upTo <:+ before := hdisk.suffix_of_last hhonest hroot
    (fun p hp q hq => cf.line_eq (by simp [hlines,hp]) (by simp [hhistory,hq]))
    (fun p hp => cf.line_nonzero (by simp [hlines,hp]))
  obtain ⟨older,rfl⟩ := hsuffix
  exact ⟨older,upTo,l,newer,later,hlines,hhistory,hseq,hxhash.symm⟩

end

/-! ### Following from an anchor -/
section
variable {codec : Codec} {history : List Bytes} {dir : List Entry} {a : Anchor} {maxSeq : ℕ}

lemma fromSegment_suffix {base : Bytes} {segs found : List Segment} (h : fromSegment base segs=some found) :
    found <:+ segs := by
  induction segs with
  | nil => cases h
  | cons seg segs ih =>
    rw [fromSegment] at h
    cases hrest : fromSegment base segs with
    | some r =>
      rw [hrest] at h
      cases h
      exact (ih hrest).trans (suffix_cons _ _)
    | none =>
      rw [hrest] at h
      dsimp only at h
      split_ifs at h
      cases h
      exact suffix_rfl

lemma linesFrom_append (segs segs' : List Segment) : linesFrom 0 (segs++segs')=linesFrom 0 segs++linesFrom 0 segs' := by
  induction segs with
  | nil => rfl
  | cons seg segs ih => simp only [cons_append,linesFrom,ih,append_assoc]

theorem exists_line_of_inPlace {seg : Segment} (h : anchorInPlace codec seg a=true) :
    ∃ line, (seg.data.drop a.offset).take (a.stop-a.offset)=line++[newline] ∧ codec.digest line=a.hash ∧
      line <:+: seg.data := by
  simp only [anchorInPlace,Bool.and_eq_true,decide_eq_true_eq] at h
  obtain ⟨⟨-,hlast⟩,hdigest⟩ := h
  have hbuf := dropLast_append_getLast? newline hlast
  refine ⟨_,hbuf.symm,hdigest,?_⟩
  exact (List.dropLast_prefix _).isInfix.trans
    ((List.take_prefix _ _).isInfix.trans (drop_suffix _ _).isInfix)

theorem lines_after_anchor {seg : Segment} (h : anchorInPlace codec seg a=true) (hoff : a.offset<a.stop) :
    Lines.lines newline (seg.data.drop a.stop) <:+ Lines.lines newline seg.data := by
  obtain ⟨line,hline,-,-⟩ := exists_line_of_inPlace h
  have hsplit : seg.data=(seg.data.take a.offset++line)++newline::seg.data.drop a.stop := by
    calc seg.data=seg.data.take a.offset++seg.data.drop a.offset := (take_append_drop _ _).symm
      _ = seg.data.take a.offset++((seg.data.drop a.offset).take (a.stop-a.offset)++
            (seg.data.drop a.offset).drop (a.stop-a.offset)) := by simp only [take_append_drop]
      _ = _ := by
        rw [hline,drop_drop,Nat.add_sub_cancel' hoff.le]
        simp
  refine ⟨Lines.lines newline ((seg.data.take a.offset++line)++[newline]),?_⟩
  conv_rhs => rw [hsplit,Lines.lines_after_sep]

theorem follow_ok (h : (follow codec dir a maxSeq).report.ok=true) :
    (fromSegment a.segment (segments dir)=none ∧ (verifyAnchors codec dir [a]).report.ok=true ∧
      ((follow codec dir a maxSeq).head=a ∨
        (follow codec dir a maxSeq).head=(verifyAnchors codec dir [a]).head)) ∨
    ∃ seg rest, fromSegment a.segment (segments dir)=some (seg::rest) ∧ a.offset<a.stop ∧ anchorInPlace codec seg a=true ∧
      ∃ c, walkSegments codec maxSeq (.resume (segments dir) a) a a.stop (seg::rest) =
        .on c (follow codec dir a maxSeq).head := by
  unfold follow at h ⊢
  cases hfrom : fromSegment a.segment (segments dir) with
  | none =>
    rw [hfrom] at h
    refine .inl ⟨rfl,h,?_⟩
    dsimp only
    split
    · exact .inl rfl
    · exact .inr rfl
  | some found =>
    rw [hfrom] at h
    cases found with
    | nil => cases h
    | cons seg rest =>
      dsimp only at h ⊢
      split at h
      case isTrue => cases h
      case isFalse hoff =>
        rw [if_neg hoff]
        split at h
        case isFalse => cases h
        case isTrue hplace =>
          rw [if_pos hplace]
          have hok : (walkSegments codec maxSeq (.resume (segments dir) a) a a.stop (seg::rest)).check.report.ok =
              false := walkSegments_ok maxSeq a a.stop (seg::rest)
          cases hwalk : walkSegments codec maxSeq (.resume (segments dir) a) a a.stop (seg::rest) with
          | on c head => exact .inr ⟨seg,rest,rfl,by omega,hplace,c,hwalk⟩
          | stopped c | unreadable c =>
            rw [hwalk] at h hok
            exact absurd (h.symm.trans hok) (by simp)

lemma Walked.head_eq {c c' : ChainCheck} {ls : List Bytes} (h : Walked codec c ls c') :
    c'.head=c.head ∨ AnchorOf codec ls c'.head := by
  cases h with
  | nil => exact .inl rfl
  | @snoc ls d _ seg n off l hw hl =>
    obtain ⟨hseq,hhash⟩ := ChainCheck.head_of_line hl
    exact .inr ⟨l,by simp,hseq,hhash⟩

theorem verify_head {anchors : List Anchor} (h : (verifyAnchors codec dir anchors).report.ok=true)
    (hfound : (verifyAnchors codec dir anchors).head.seq≠0) :
    AnchorOf codec (logLines dir) (verifyAnchors codec dir anchors).head := by
  obtain ⟨c,head,hwalk,-,-⟩ := verifySegments_ok h
  have hhead : (verifyAnchors codec dir anchors).head=c.head := by
    simp only [verifyAnchors,verifySegments,hwalk]
  rw [hhead] at hfound ⊢
  rcases (walkSegments_on hwalk).1.head_eq with hc | hc
  · rw [hc] at hfound
    exact absurd rfl hfound
  · exact hc

/-- Every anchor the Manager records is of a line of the history. -/
theorem Taken.anchorOf (h : Taken codec history a) : AnchorOf codec history a := by
  induction h with
  | first state ok found => exact (verify_head ok found).mono state.subset
  | @next dir a maxSeq _ state ok found ih =>
    rcases follow_ok ok with ⟨-,hverify,hhead⟩ | ⟨seg,rest,hfrom,hoff,hplace,c,hwalk⟩
    · rcases hhead with hhead | hhead
      · rw [hhead]
        exact ih
      · rw [hhead] at found ⊢
        exact (verify_head hverify found).mono state.subset
    · rcases (walkSegments_on hwalk).2 with hhead | hhead
      · rw [hhead]
        exact ih
      refine hhead.mono (List.Subset.trans ?_ state.subset)
      obtain ⟨older,hsegs⟩ := fromSegment_suffix hfrom
      have hlines : logLines dir=linesFrom 0 older++linesFrom 0 (seg::rest) := by
        rw [logLines,← hsegs,linesFrom_append]
      intro l hl
      rw [hlines,mem_append]
      right
      rcases mem_append.mp hl with hl | hl
      · exact mem_append_left _ ((lines_after_anchor hplace hoff).subset hl)
      · exact mem_append_right _ hl

theorem chained_of_follow {c c' : ChainCheck} {line : Bytes} {ls : List Bytes} (hw : Walked codec c ls c')
    (hc : c.started=true) (hprev : c.prev=codec.digest line) (hseq : c.lastSeq=seqOf codec line) (hpos : c.lastSeq≠0) :
    Chained codec (line::ls) ∧ ((line::ls).map (seqOf codec)).Pairwise (· < ·) := by
  constructor
  · have hhead := hw.head_prev hc
    have hsingle : Chained codec [line] := isChain_singleton line
    refine HashChain.linked_append.mpr ⟨hsingle,hw.chained,fun x hx y hy => ?_⟩
    cases hx
    exact (hhead y hy).trans (congrArg some hprev)
  · have hchain := hw.increasing
    rw [hseq] at hchain hpos
    have hpair : ((line::ls).map (seqOf codec)).Pairwise After := isChain_iff_pairwise.mp hchain
    have hfirst : ∀ s∈ls.map (seqOf codec), seqOf codec line<s := by
      intro s hs
      have hafter := rel_of_pairwise_cons hpair hs
      unfold After at hafter
      omega
    refine pairwise_cons.mpr ⟨hfirst,?_⟩
    refine (List.Pairwise.tail hpair).imp_of_mem fun {x y} hx _ hxy => ?_
    have hlt := hfirst x hx
    unfold After at hxy
    omega

end

/-- Tampering before an anchor shows. If the whole log verifies, then its lines up to any anchored
one that it reaches back to are the honest ones. If following from an anchor succeeds, then the
anchored line is in place and everything behind it chains on, or the anchor's segment is gone and
the whole log was verified instead. -/
theorem anchors_expose_tampering (codec : Codec) {history : List Bytes} {dir : List Entry}
    (honest : Honest codec history) (cf : CollisionFree codec history dir) :
    (∀ anchors : List Anchor, (∀ a ∈ anchors, Taken codec history a) →
      (verifyAnchors codec dir anchors).report.ok = true →
      ∀ newest ∈ anchors, (verifyAnchors codec dir anchors).report.startSeq ≤ newest.seq →
        ∃ older upTo line newer later, logLines dir = upTo++line::later ∧ history = older++upTo++line::newer ∧
          seqOf codec line = newest.seq ∧ codec.digest line = newest.hash) ∧
    ∀ (a : Anchor) (maxSeq : ℕ), Taken codec history a → (follow codec dir a maxSeq).report.ok = true →
      (∃ seg rest line, fromSegment a.segment (segments dir) = some (seg::rest) ∧
        (seg.data.drop a.offset).take (a.stop-a.offset) = line++[newline] ∧
        line ∈ history ∧ seqOf codec line = a.seq ∧ codec.digest line = a.hash ∧
        Chained codec (line::linesFrom a.stop (seg::rest)) ∧
        ((line::linesFrom a.stop (seg::rest)).map (seqOf codec)).Pairwise (· < ·)) ∨
      (fromSegment a.segment (segments dir) = none ∧ Chained codec (logLines dir) ∧
        ((verifyAnchors codec dir [a]).report.startSeq ≤ a.seq →
          ∃ line ∈ logLines dir, line ∈ history ∧ seqOf codec line = a.seq ∧ codec.digest line = a.hash)) := by
  refine ⟨fun anchors taken hok a ha hstart => ?_,fun a maxSeq taken hok => ?_⟩
  · exact stretch_of_verify honest cf (fun b hb => (taken b hb).anchorOf) hok ha hstart
  · rcases follow_ok hok with ⟨hgone,hverify,-⟩ | ⟨seg,rest,hfrom,hoff,hplace,c,hwalk⟩
    · obtain ⟨c,head,hwalk,-,-⟩ := verifySegments_ok hverify
      refine .inr ⟨hgone,(walkSegments_on hwalk).1.chained,fun hstart => ?_⟩
      have hanchors : ∀ b ∈ [a], AnchorOf codec history b := by
        intro b hb
        rw [mem_singleton.mp hb]
        exact taken.anchorOf
      obtain ⟨older,upTo,line,newer,later,hlines,hhistory,hseq,hhash⟩ :=
        stretch_of_verify honest cf hanchors hverify (mem_singleton.mpr rfl) hstart
      exact ⟨line,by simp [hlines],by simp [hhistory],hseq,hhash⟩
    · obtain ⟨line,hbytes,hdigest,hpart⟩ := exists_line_of_inPlace hplace
      obtain ⟨x,hx,hxseq,hxhash⟩ := taken.anchorOf
      have hseg : seg ∈ segments dir := (fromSegment_suffix hfrom).subset (by simp)
      have hline : line=x := cf.eq_of_digest hseg hpart hx (hdigest.trans hxhash)
      subst hline
      have hpos : a.seq≠0 := hxseq ▸ honest.positive line hx
      obtain ⟨hchained,hincreasing⟩ := chained_of_follow (walkSegments_on hwalk).1 rfl hxhash hxseq hpos
      exact .inl ⟨seg,rest,line,hfrom,hbytes,hx,hxseq.symm,hdigest,hchained,hincreasing⟩

/-! ### A log whose anchored segment retention removed -/

def sampleDigest (x : Bytes) : Hash := '1'::x.map fun b => Char.ofNat b.toNat

/-- Lines of a number, a retained start (0: not a retention record) and the line before. -/
def sampleUnmarshal : Bytes → Option Record
  | seq::start::rest =>
    some { seq := seq.toNat, ts := 0, type := if start=0 then .intent else .retention
           startSeq := start.toNat, startPrev := sampleDigest (rest.drop 2)
           prev := if rest=[] then zeroHash else sampleDigest rest }
  | _ => none

def sampleCodec : Codec where
  marshal _ := []
  unmarshal := sampleUnmarshal
  digest := sampleDigest
  oversize _ := false
  clip := id

/-- Two records, and the retention record that names the second as the start. -/
def sampleHistory : List Bytes := [[1,0],[2,0,1,0],[3,2,2,0,1,0]]

def sampleOldest : Entry := ⟨ascii "audit-00000000000000000001.jsonl",true,Lines.render newline (sampleHistory.take 1)⟩
def sampleNewest : Entry := ⟨ascii "audit-00000000000000000002.jsonl",true,Lines.render newline (sampleHistory.drop 1)⟩

def sampleAnchor : Anchor :=
  { seq := 1, hash := sampleDigest [1,0], segment := sampleOldest.name, offset := 0, stop := 3 }

lemma sampleDigest_injective : Function.Injective sampleDigest := by
  intro x y h
  refine map_injective_iff.mpr (fun b d hbd => ?_) (List.cons.inj h).2
  have hvalid : ∀ n<256, (Char.ofNat n).toNat=n := by
    intro n hn
    have hn : n.isValidChar := .inl (by omega)
    rw [Char.ofNat,dif_pos hn]
    rfl
  have hnat : b.toNat=d.toNat := by rw [← hvalid _ b.toNat_lt,← hvalid _ d.toNat_lt,hbd]
  exact UInt8.toNat_inj.mp hnat

lemma sample_collisionFree (dir : List Entry) : CollisionFree sampleCodec sampleHistory dir where
  same _ _ _ _ _ _ h := sampleDigest_injective h
  nonzero _ _ _ _ h := by cases (List.cons.inj h).1

lemma sample_honest : Honest sampleCodec sampleHistory where
  chained := by
    unfold Chained HashChain.Linked
    decide
  root := by
    intro l hl
    cases hl
    rfl
  increasing := by decide
  positive := by decide

lemma sample_taken : Taken sampleCodec sampleHistory sampleAnchor := by
  have hstate : HonestState sampleHistory [sampleOldest] := by
    refine ⟨[],sampleHistory.drop 1,?_⟩
    decide +kernel
  have hhead : (verifyAnchors sampleCodec [sampleOldest] []).head=sampleAnchor := by decide +kernel
  exact hhead ▸ Taken.first hstate (by decide +kernel) (by decide +kernel)

/-- The newest anchor of the complete log is in place, and so is everything before it. -/
theorem anchors_expose_tampering_sample :
    ∃ older upTo line newer later, logLines [sampleOldest,sampleNewest] = upTo++line::later ∧
      sampleHistory = older++upTo++line::newer ∧ seqOf sampleCodec line = 1 ∧
      sampleCodec.digest line = sampleDigest [1,0] :=
  (anchors_expose_tampering sampleCodec sample_honest (sample_collisionFree [sampleOldest,sampleNewest])).1
    [sampleAnchor] (by simpa using sample_taken) (by decide +kernel) sampleAnchor (by simp) (by decide +kernel)

/-- Retention removed the anchored line with its segment: following from the anchor succeeds, and
the line is nowhere in the log. -/
theorem follow_ok_line_removed : Honest sampleCodec sampleHistory ∧ CollisionFree sampleCodec sampleHistory [sampleNewest] ∧
      Taken sampleCodec sampleHistory sampleAnchor ∧ (follow sampleCodec [sampleNewest] sampleAnchor 0).report.ok = true ∧
      ¬AnchorOf sampleCodec (logLines [sampleNewest]) sampleAnchor := by
  refine ⟨sample_honest,sample_collisionFree _,sample_taken,by decide +kernel,?_⟩
  have hlines : logLines [sampleNewest] = sampleHistory.drop 1 := by decide +kernel
  rw [hlines]
  rintro ⟨l,hl,hseq,-⟩
  have hother : ∀ x ∈ sampleHistory.drop 1, seqOf sampleCodec x≠1 := by decide +kernel
  exact hother l hl hseq.symm

end JuiceMount.AuditLog
