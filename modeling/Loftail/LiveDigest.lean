import Loftail.DigestUpdate
import Loftail.LiveAlerts

/-! # The digest kept live is the digest rebuilt -/
namespace Loftail

namespace LiveController

variable {c : LiveController}

/-- The document a batch has come to: its records and runs in place, the rules' ids resolved. -/
def arrived (c : LiveController) (more : Bytes) : Document :=
  ((c.document.appendBytes more).reread.updateRunsAfterAppend c.document.index.records.length).resolveHighlighters

/-- A rule that the re-read trailing record comes to match matches a newer record of the batch too. -/
def DigestForeseen (c : LiveController) (more : Bytes) : Prop :=
  ∀i row,row+1=c.document.index.records.length→(c.arrived more).digestMatch i row=true→
    c.document.digestMatch i row=false→
      ∃next,row<next ∧ next<(c.arrived more).index.records.length ∧ (c.arrived more).digestMatch i next=true

/-- The records in the run bound. -/
def inBoundCount (c : LiveController) : ℕ :=
  (List.range c.document.index.records.length).countP (fun row => c.document.inRunBound (c.document.recordAt row))

/-- The digest shows what its slots name. -/
structure DigestReady (c : LiveController) : Prop where
  kept : c.Kept
  published : c.document.DigestPublished

/-- What a batch with records in it does to the digest. -/
theorem tick_arrived (hp : Placed c.document.source c.document.index.records) (more : Bytes) :
    (c.document.index.records=[] ∧ (c.tick more).document.index.records=[] ∧
        (c.tick more).document.digest=c.document.digest ∧ (c.tick more).document.digestLast=c.document.digestLast) ∨
      ∃e changed,Document.Arrived c.document e changed ∧ e.digestMatch=(c.arrived more).digestMatch ∧
        e.index.records=(c.arrived more).index.records ∧ (c.tick more).document.digestMatch=e.digestMatch ∧
        (c.tick more).document.newestSlots=e.newestSlots ∧
        (c.tick more).inBoundCount=(List.range e.index.records.length).countP
        (fun r => e.inRunBound (e.recordAt r)) ∧
        (((c.tick more).document=e ∧ e.highlighters.anyEnabled .live=false) ∨
          (c.tick more).document=e.updateDigestAfterAppend c.document.index.records.length changed
            (c.document.index.records.length-1)) := by
  obtain ⟨tail,l,t,hscan,⟨rfl,he⟩ | ⟨hne,he⟩⟩ := c.tick_cases more
  · have hrec : c.document.index.records=[] := hscan.records_of_tail_nil hp (List.prefix_append _ _)
    refine Or.inl ⟨hrec,?_,?_,?_⟩ <;> rw [he]
    · exact hrec
    · rfl
    · rfl
  · have harrived : c.arrived more=((c.document.appendBytes more).ingestRuns tail l t).resolveHighlighters := by
      rw [arrived,hscan.reread]
      rfl
    have hview : ingested (c.document.appendBytes more) tail l t=
        {c.arrived more with filtered := ((c.document.appendBytes more).ingestView tail l t).filtered} := by
      rw [harrived,ingested,Document.ingestView_eq]
      rfl
    have hdoc := congrArg LiveController.document he
    rw [runMatchActions_document] at hdoc
    have hset := c.tick_toSetup more
    have hlen := c.tick_length more hp
    refine Or.inr ⟨ingested (c.document.appendBytes more) tail l t,
      (c.document.appendBytes more).provisionalChanged tail,?_,?_,?_,?_,?_,?_,?_⟩
    · refine ⟨?_,?_,?_,?_,fun row hrow => ?_,fun hun row hrow => ?_,fun hc => ?_,rfl⟩
      · rw [ingested,Document.ingestView_eq,Document.ingestRuns_eq]
        rfl
      · rw [ingested,Document.ingestView_eq,Document.ingestRuns_eq]
        rfl
      · rw [ingested,Document.ingestView_eq,Document.ingestRuns_eq]
        rfl
      · rw [hdoc] at hlen
        exact hlen
      · rw [← tick_recordAt hp hrow more,hdoc]
        rfl
      · obtain ⟨rest,hrest⟩ := Document.records_eq_of_unchanged hun
        have hrow' : row<(c.document.appendBytes more).index.records.length := hrow
        rw [Document.recordAt,ingested_index,Document.ingestIndex_records,hrest,List.getD_eq_getElem?_getD,
          List.getElem?_append_left hrow',← List.getD_eq_getElem?_getD]
        rfl
      · simp only [Document.provisionalChanged,Bool.and_eq_true,decide_eq_true_eq] at hc
        exact hc.1
    · rw [hview]
      rfl
    · rw [hview]
    · rw [hdoc]
      rfl
    · rw [hdoc]
      exact Document.newestSlots_congr rfl rfl (fun _ => rfl) fun _ _ => rfl
    · rw [inBoundCount,hdoc]
      rfl
    · rw [he]
      unfold runMatchActions
      dsimp only
      split
      · rename_i hgate
        exact Or.inl ⟨rfl,by simpa using hgate⟩
      · exact Or.inr rfl

/-- The digest's readiness is kept by every batch, whatever it brings. -/
theorem DigestReady.tick (h : c.DigestReady) (more : Bytes) : (c.tick more).DigestReady := by
  have hp := h.kept.consistent.placed
  refine ⟨h.kept.tick more,?_⟩
  rcases tick_arrived hp more with ⟨hrec,hrec',hdig,hlast⟩ | ⟨e,changed,ha,-,-,-,-,-,⟨hd,hgate⟩ | hd⟩
  · have hords : (c.tick more).document.digestOrdinals=c.document.digestOrdinals :=
      Document.digestOrdinals_congr hlast fun o ho => by
        have hlt := h.published.range _ ho
        rw [hrec,List.length_nil] at hlt
        omega
    have hrules := c.tick_rules more
    refine ⟨by rw [hdig,hords,hrec',h.published.digest,hrec],by rw [hlast,hrec',← hrec]; exact h.published.range,
      ?_,?_⟩
    · rw [hlast]
      simpa only [Document.digestLive,hrules] using h.published.live
    · rw [hlast,hrules]
      exact h.published.length
  · -- No rule acts on what arrives, so no slot names a row.
    rw [hd]
    have hneg (i : ℕ) (s : ℤ) (hs : c.document.digestLast[i]?=some s) : s<0 := by
      by_contra hnn
      have hl := h.published.live i s hs (by omega)
      rw [← ha.digestLive] at hl
      rw [(Document.digestLive_anyEnabled hl).2] at hgate
      cases hgate
    have hnamed (o : ℕ) (ho : (o : ℤ)∈c.document.digestLast) : False := by
      obtain ⟨i,hi⟩ := List.mem_iff_getElem?.mp ho
      have := hneg i _ hi
      omega
    have hords : e.digestOrdinals=c.document.digestOrdinals :=
      Document.digestOrdinals_congr ha.digestLast fun o ho => (hnamed o ho).elim
    refine ⟨?_,?_,?_,?_⟩
    · refine @Document.Arrived.kept _ _ _ ha h.published e.digestLast ?_ fun o ho => ?_
      · rw [ha.digest,h.published.digest]
        exact hords
      · have ho := Document.mem_digestOrdinals ho
        rw [ha.digestLast] at ho
        exact (hnamed o ho).elim
    · rw [ha.digestLast]
      exact fun s hs => (h.published.range s hs).trans_le (by exact_mod_cast ha.length)
    · rw [ha.digestLast]
      exact fun i s hs hnn => absurd (hneg i s hs) (by omega)
    · rw [ha.digestLast,ha.rules]
      exact h.published.length
  · rw [hd]
    exact ha.published_update h.published

/-- Only a batch and a rebuild touch the digest. -/
theorem act_digest (c : LiveController) {a : Action} (ha : ∀m,a≠.append m) (hr : a≠.refreshHighlighting) :
    (c.act a).document.digest=c.document.digest ∧ (c.act a).document.digestLast=c.document.digestLast ∧
      (c.act a).document.highlighters=c.document.highlighters := by
  cases a with
  | append m => exact absurd rfl (ha m)
  | refreshHighlighting => exact absurd rfl hr
  | setRunStart pattern regex cs =>
    simp only [act,onDocument,Document.setRunStart,Document.selectLastRun]
    rw [Document.recomputeViewBounds_eq,Document.detectRuns_eq]
    exact ⟨rfl,rfl,rfl⟩
  | detectRuns =>
    simp only [act,onDocument]
    rw [Document.detectRuns_eq]
    exact ⟨rfl,rfl,rfl⟩
  | selectRun i =>
    simp only [act,onDocument,Document.selectRun]
    rw [Document.recomputeViewBounds_eq]
    exact ⟨rfl,rfl,rfl⟩
  | selectLastRun =>
    simp only [act,onDocument,Document.selectLastRun]
    rw [Document.recomputeViewBounds_eq]
    exact ⟨rfl,rfl,rfl⟩
  | applyFilters => simp only [act,onDocument,Document.applyFilters]; split <;> exact ⟨rfl,rfl,rfl⟩
  | runStats i => simp only [act,onDocument,Document.runStatsOf]; split <;> exact ⟨rfl,rfl,rfl⟩
  | fileStats => exact ⟨rfl,rfl,rfl⟩
  | runBaseTimestamp row =>
    simp only [act,onDocument,Document.runBaseTimestamp]
    split
    · exact ⟨rfl,rfl,rfl⟩
    · split
      · exact ⟨rfl,rfl,rfl⟩
      · split <;> exact ⟨rfl,rfl,rfl⟩

theorem Kept.act (h : c.Kept) (a : Action) : (c.act a).Kept :=
  ⟨h.consistent.act a,act_boundsSettled h.bounds a,act_interned h.interned a⟩

theorem DigestReady.act (h : c.DigestReady) (a : Action) : (c.act a).DigestReady := by
  by_cases ha : ∃m,a=.append m
  · obtain ⟨m,rfl⟩ := ha
    exact h.tick m
  refine ⟨h.kept.act a,?_⟩
  by_cases hr : a=.refreshHighlighting
  · subst hr
    refine Document.rebuildDigest_published (d:=c.document.resolveHighlighters) (fun _ => rfl) fun hvis => ?_
    have hd : c.document.digest=_ := h.published.digest
    have hords : ({c.document.resolveHighlighters with digestLast := c.document.resolveHighlighters.newestSlots} :
        Document).digestOrdinals=c.document.digestOrdinals := by
      rw [hvis]
      show c.document.digest.visible=_
      rw [hd]
      rfl
    rw [hords]
    exact hd
  · obtain ⟨hdig,hlast,hhl⟩ := c.act_digest (fun m hm => ha ⟨m,hm⟩) hr
    have hidx := (c.keepsRuns_act (a:=a) (fun m hm => ha ⟨m,hm⟩)).index
    have hords : (c.act a).document.digestOrdinals=c.document.digestOrdinals :=
      Document.digestOrdinals_congr hlast fun o _ => by simp only [Document.recordAt,hidx]
    refine ⟨by rw [hdig,hords,hidx]; exact h.published.digest,by rw [hlast,hidx]; exact h.published.range,?_,?_⟩
    · rw [hlast]
      simpa only [Document.digestLive,hhl] using h.published.live
    · rw [hlast,hhl]
      exact h.published.length

private theorem session_digestReady (c : LiveController) (content : Bytes) (actions : List Action) :
    ((c.reopened content).session actions).DigestReady := by
  have hopen : (c.reopened content).DigestReady := by
    refine ⟨c.session_kept content [],?_⟩
    obtain ⟨idx,hidx,-⟩ := Indexed.of_index c.document.indexer content
    have hidx' : ({c.document with filtered := .cleared,source := content} :
      Document).clearDigest.invalidateRunMemos.indexer.index
      content (fun _ => true)=some (true,idx) := hidx
    have hdoc : ∃d : Document,(c.reopened content).document=d ∧ d.digestLast=[] ∧
        d.digest=.setVisible c.document.index.records [] [] := by
      refine ⟨_,rfl,?_,?_⟩ <;> simp only [reopened,onDocument,Document.rescan,hidx',Document.selectLastRun] <;>
        rw [Document.recomputeViewBounds_eq,Document.detectRuns_eq] <;> rfl
    obtain ⟨d,hd,hlast,hdig⟩ := hdoc
    rw [hd]
    have hords : d.digestOrdinals=[] := by
      refine List.eq_nil_iff_forall_not_mem.mpr fun o ho => ?_
      have ho := Document.mem_digestOrdinals ho
      simp [hlast] at ho
    refine ⟨?_,by simp [hlast],by simp [hlast],Or.inl hlast⟩
    rw [hdig,hords]
    exact Document.setVisible_congr (by simp)
  have hrun : ∀(actions : List Action) (c : LiveController),c.DigestReady→(c.session actions).DigestReady := by
    intro actions
    induction actions with
    | nil => exact fun c h => h
    | cons a as ih => exact fun c h => ih _ (h.act a)
  exact hrun actions _ hopen

/-- The slots are the newest matches. -/
structure DigestSettled (c : LiveController) : Prop where
  ready : c.DigestReady
  slots : c.document.digestLast=c.document.newestSlots
  resolved : c.document.index.records≠[]→c.document.RulesResolved

/-- A batch takes no record out of the run bound. -/
theorem tick_inBoundCount (h : c.Kept) (more : Bytes) : c.inBoundCount≤(c.tick more).inBoundCount := by
  have hlen := c.tick_length more h.consistent.placed
  have hsame : c.inBoundCount=(List.range c.document.index.records.length).countP
      (fun row => (c.tick more).document.inRunBound ((c.tick more).document.recordAt row)) :=
    List.countP_congr fun row hrow => by
      rw [tick_inRunBound h.consistent h.bounds more (List.mem_range.mp hrow)]
  rw [hsame]
  exact (List.range_sublist.mpr hlen).countP_le

theorem newestSlots_empty {d : Document} (h : d.index.records=[]) :
    d.newestSlots=d.highlighters.rules.map (fun _ => (-1 : ℤ)) := by
  refine List.ext_getElem (by simp [Document.newestSlots]) fun i hi hi' => ?_
  simp [Document.newestSlots,Document.newest,Document.findLastMatchBefore,h,Document.findBack]

/-- What a rule says of a row is what it said, where the row's record is. -/
theorem tick_digestMatch (h : c.DigestSettled) (more : Bytes) (i : ℕ) {row : ℕ}
    (hrow : row<c.document.index.records.length)
    (hrec : (c.tick more).document.recordAt row=c.document.recordAt row) :
    (c.tick more).document.digestMatch i row=c.document.digestMatch i row := by
  have hk := h.ready.kept
  have hres := h.resolved (List.ne_nil_of_length_pos (by omega))
  have hrule : (c.tick more).document.digestRule i=c.document.digestRule i := by
    simp only [Document.digestRule,tick_rules]
  unfold Document.digestMatch
  rw [tick_inRunBound hk.consistent hk.bounds more hrow,hrule,
    tick_ruleMatchesRow hk.consistent.placed hk.interned hres more hrow hrec]

/-- The step. -/
theorem DigestSettled.tick (h : c.DigestSettled) {more : Bytes} (hf : c.DigestForeseen more)
    (hcount : (c.tick more).inBoundCount≤kDigestLookback) : (c.tick more).DigestSettled := by
  have hk := h.ready.kept
  have hp := hk.consistent.placed
  refine ⟨h.ready.tick more,?_,fun hne => tick_resolved hp hne⟩
  rcases tick_arrived hp more with ⟨hrec,hrec',-,hlast⟩ | ⟨e,changed,ha,hmatch,hrecs,hmatch',hslots,hcount',hcase⟩
  · rw [hlast,h.slots,newestSlots_empty hrec,newestSlots_empty hrec',tick_rules]
  rw [hslots]
  rcases hcase with ⟨hd,hgate⟩ | hd
  · -- No rule acts on what arrives.
    have hdead (i : ℕ) : e.digestLive i=false := by
      by_contra hl
      rw [(Document.digestLive_anyEnabled (Bool.not_eq_false _ ▸ hl)).2] at hgate
      cases hgate
    rw [hd,ha.digestLast,h.slots,Document.newestSlots_dead (fun _ => ha.resolved) hdead,ha.rules,
      Document.newestSlots_dead h.resolved fun i => (ha.digestLive i).symm.trans (hdead i)]
  · rw [hd]
    have hrow (row : ℕ) (hrow : row<c.document.index.records.length)
        (hrec : e.recordAt row=c.document.recordAt row) :
        (c.tick more).document.recordAt row=c.document.recordAt row := by
      rw [hd,Document.updateDigestAfterAppend_eq]
      exact hrec
    refine ha.update_newest h.slots (hcount'.symm.trans_le hcount)
      ((tick_inBoundCount hk more).trans hcount) fun i =>
      ⟨fun row hlt => ?_,fun hc row hlt => ?_,fun row hlast hm hm' => ?_⟩
    · rw [← hmatch']
      exact tick_digestMatch h more i (by omega) (hrow row (by omega) (ha.front row hlt))
    · rw [← hmatch']
      exact tick_digestMatch h more i hlt (hrow row hlt (ha.last hc row hlt))
    · rw [hmatch] at hm ⊢
      rw [hrecs]
      exact hf i row hlast hm hm'

private theorem run_inBoundCount (h : c.Kept) (chunks : List Bytes) :
    c.inBoundCount≤(c.run chunks).inBoundCount := by
  induction chunks generalizing c with
  | nil => exact le_rfl
  | cons m ms ih => exact (tick_inBoundCount h m).trans (ih (h.tick m))

theorem DigestSettled.run (h : c.DigestSettled) {chunks : List Bytes}
    (hf : EachAppend DigestForeseen c (chunks.map Action.append))
    (hcount : (c.run chunks).inBoundCount≤kDigestLookback) :
    (c.run chunks).DigestSettled := by
  induction chunks generalizing c with
  | nil => exact h
  | cons m ms ih =>
    have hlater : (c.tick m).inBoundCount≤((c.tick m).run ms).inBoundCount :=
      run_inBoundCount (h.ready.kept.tick m) ms
    exact ih (h.tick hf.1 (hlater.trans hcount)) hf.2 hcount

/-- What a settled digest shows is what a rebuild shows, from nothing published before. -/
theorem DigestSettled.rebuilt (h : c.DigestSettled) :
    c.document.digestLast=c.document.clearDigest.rebuildDigest.digestLast ∧
      c.document.digest=c.document.clearDigest.rebuildDigest.digest := by
  have hres : c.document.clearDigest.index.records≠[]→c.document.clearDigest.RulesResolved := h.resolved
  have hslots : c.document.clearDigest.rebuildDigest.digestLast=c.document.newestSlots :=
    (Document.rebuildDigest_slots hres).trans (Document.newestSlots_congr rfl rfl (fun _ => rfl) fun _ _ => rfl)
  have hpublished := Document.rebuildDigest_published hres fun hvis => by
    rw [hvis]
    rfl
  refine ⟨hslots.symm ▸ h.slots,?_⟩
  have hidx : c.document.clearDigest.rebuildDigest.index=c.document.index := by
    rw [Document.rebuildDigest_eq]
    rfl
  have hlast : c.document.clearDigest.rebuildDigest.digestLast=c.document.digestLast := hslots.trans h.slots.symm
  rw [hpublished.digest,h.ready.published.digest,hidx,
    Document.digestOrdinals_congr hlast fun o _ => by simp only [Document.recordAt,hidx]]

/-- The digest live is the digest rebuilt: after any session, once it has been rebuilt for the
run bound that is in force, whatever batches arrive leave the slots, the copies and the order
of a rebuild over the whole index, as long as no batch completes a match in the record
before it and brings none newer. -/
theorem session_digest (c : LiveController) (content : Bytes) (actions : List Action) (chunks : List Bytes)
    (hf : EachAppend DigestForeseen (((c.reopened content).session actions).act .refreshHighlighting)
      (chunks.map Action.append))
    (hcount : ((((c.reopened content).session actions).act .refreshHighlighting).run
      chunks).inBoundCount≤kDigestLookback) :
    let d := ((((c.reopened content).session actions).act .refreshHighlighting).run chunks).document
    d.digestLast=d.clearDigest.rebuildDigest.digestLast ∧ d.digest=d.clearDigest.rebuildDigest.digest := by
  have hready := (session_digestReady c content actions).act .refreshHighlighting
  have hset : (((c.reopened content).session actions).act .refreshHighlighting).DigestSettled := by
    have hd : (((c.reopened content).session actions).act .refreshHighlighting).document=
        ((c.reopened content).session actions).document.resolveHighlighters.rebuildDigest := rfl
    have hres : ((c.reopened content).session actions).document.resolveHighlighters.RulesResolved := rfl
    refine ⟨hready,?_,fun _ => ?_⟩
    · rw [hd,Document.rebuildDigest_slots fun _ => hres,Document.rebuildDigest_eq]
      exact Document.newestSlots_congr rfl rfl (fun _ => rfl) fun _ _ => rfl
    · rw [hd,Document.rebuildDigest_eq]
      exact hres
  exact (hset.run hf hcount).rebuilt

/-- A rule that lists every record with `ab` in it. -/
def abInDigest : HighlighterSet :=
  ⟨[⟨true,{MatchCriteria.none with text := ⟨true,false,.set .ascii (latin1 "ab") false .sensitive⟩},
    .digestOnly⟩],[]⟩

/-- Whole lines: the digest moves on to the record that has come. -/
theorem session_digest_whole_lines :
    let c : LiveController := (⟨{Document.bracketed with highlighters := abInDigest},.none⟩ :
      LiveController).reopened (ascii "[ab\n")
    let d := ((c.act .refreshHighlighting).run [ascii "[ab\n"]).document
    d.digestLast=d.clearDigest.rebuildDigest.digestLast ∧ d.digest=d.clearDigest.rebuildDigest.digest := by
  refine session_digest ⟨{Document.bracketed with highlighters := abInDigest},.none⟩ (ascii "[ab\n") []
    [ascii "[ab\n"]
    ⟨fun i row hrow hm hm' => ?_,trivial⟩ (by decide)
  have hz : row=0 := Nat.succ_injective (hrow.trans (by decide))
  subst hz
  cases i with
  | zero => exact ⟨1,by decide,by decide,by decide⟩
  | succ i =>
    have hrule : (LiveController.arrived
      ((((⟨{Document.bracketed with highlighters := abInDigest},.none⟩ : LiveController).reopened
        (ascii "[ab\n")).session []).act .refreshHighlighting) (ascii "[ab\n")).digestRule (i+1)=false := rfl
    rw [Document.digestMatch,hrule,Bool.and_false,Bool.false_and] at hm
    cases hm

/-- A match completed by the second half of its line: the rebuild finds it, the update does not. -/
theorem session_digest_split_line :
    let c : LiveController := (⟨{Document.bracketed with highlighters := abInDigest},.none⟩ :
      LiveController).reopened (ascii "[a")
    let d := ((c.act .refreshHighlighting).run [ascii "b\n"]).document
    d.digestLast≠d.clearDigest.rebuildDigest.digestLast := by decide

end LiveController

end Loftail
