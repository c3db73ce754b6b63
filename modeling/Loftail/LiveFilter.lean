import Loftail.FilteredAppend
import Loftail.ViewBounds

/-! # Filtering what has been appended is filtering from scratch

A batch takes rows back from the row the emission is taken up at. What is left is what a
pass over some rows of the new index emits before that row, whichever of the rows before
the provisional one a match there had pulled in. -/
namespace Loftail
open ContextEmitter FilteredIndex

namespace ContextEmitter

section Step
variable {inBound isMatch : ℕ→Bool} {before after : ℕ}

/-- What one more row emits. -/
theorem pass_succ (n : ℕ) : pass inBound isMatch before after (n+1)=
    ((emitRow inBound isMatch before after (pass inBound isMatch before after n).1 n).1,
      (pass inBound isMatch before after n).2++
        (emitRow inBound isMatch before after (pass inBound isMatch before after n).1 n).2) := by
  rw [pass_add (Nat.le_succ n),show n+1-n=1 by omega]
  simp [emitRows]

/-- The leading rows of a match, then the match. -/
theorem pass_succ_match {n : ℕ} (hm : (inBound n && isMatch n)=true) : (pass inBound isMatch before after (n+1)).2=
    (pass inBound isMatch before after n).2++
      ((leadWindow inBound (pass inBound isMatch before after n).1.lastEmitted before n).map (fun q => (q,true))++
        [(n,false)]) := by
  obtain ⟨hin,hmatch⟩ := (Bool.and_eq_true _ _).mp hm
  simp [pass_succ,emitRow,hin,hmatch]

/-- A row that is no match emits itself at most. -/
theorem pass_succ_other {n : ℕ} (hm : (inBound n && isMatch n)=false) :
    ((pass inBound isMatch before after (n+1)).2.filter (·.1<n))=(pass inBound isMatch before after n).2 := by
  have hkept : (pass inBound isMatch before after n).2.filter (·.1<n)=(pass inBound isMatch before after n).2 :=
    List.filter_eq_self.mpr fun e he => by simpa using (pass_passed n).below e he
  rw [pass_succ,List.filter_append,hkept]
  cases hin : inBound n with
  | false => simp [emitRow,hin]
  | true =>
    have hmatch : isMatch n=false := by simpa [hin] using hm
    simp only [emitRow,hin,hmatch,Bool.not_true,Bool.false_eq_true,if_false]
    split <;> simp

/-- The last row is the last match if it is a match at all. -/
theorem lastMatchRow_pass (n : ℕ) :
    decide (lastMatchRow (pass inBound isMatch before after (n+1)).2=(n : ℤ))=(inBound n && isMatch n) := by
  have hbelow := lastMatchRow_lt (@pass_passed inBound isMatch before after n).below
  cases hm : inBound n && isMatch n with
  | true => simp [pass_succ_match hm,lastMatchRow,← List.append_assoc]
  | false =>
    have hstate (k : ℕ) : lastMatchRow (pass inBound isMatch before after k).2=
      (pass inBound isMatch before after k).1.lastMatch := by
      rw [← (pass_passed k).state]
      rfl
    have hsame : (pass inBound isMatch before after (n+1)).1.lastMatch=
      (pass inBound isMatch before after n).1.lastMatch := by
      rw [pass_succ]
      cases hin : inBound n with
      | false => simp [emitRow,hin]
      | true =>
        have hmatch : isMatch n=false := by simpa [hin] using hm
        simp only [emitRow,hin,hmatch,Bool.not_true,Bool.false_eq_true,if_false]
        split <;> rfl
    rw [hstate,hsame,← hstate]
    exact decide_eq_false (by omega)

theorem windowBack_le (r need : ℕ) : Document.windowBack inBound r need≤r := by
  induction r generalizing need with
  | zero => exact le_rfl
  | succ p ih =>
    rw [Document.windowBack]
    split
    · split
      · exact Nat.le_succ p
      · exact (ih _).trans (Nat.le_succ p)
    · exact (ih _).trans (Nat.le_succ p)

private theorem windowBack_congr {inBound' : ℕ→Bool} {r : ℕ} (h : ∀q<r,inBound' q=inBound q) (need : ℕ) :
    Document.windowBack inBound' r need=Document.windowBack inBound r need := by
  induction r generalizing need with
  | zero => rfl
  | succ p ih =>
    have hp : ∀q<p,inBound' q=inBound q := fun q hq => h q (hq.trans (Nat.lt_succ_self p))
    rw [Document.windowBack,Document.windowBack,h p (Nat.lt_succ_self p),ih hp,ih hp]

/-- The leading window of a row begins where the walk back from it ends. -/
theorem windowBack_le_lead {e : ℤ} {r q : ℕ} (h : q∈leadWindow inBound e before r) :
    Document.windowBack inBound r before≤q := by
  induction r generalizing before with
  | zero => cases before <;> simp [leadWindow] at h
  | succ p ih =>
    rw [leadWindow] at h
    split at h
    · rename_i hcond
      split at h
      · rename_i hin
        rw [Document.windowBack,if_pos hin]
        rcases List.mem_append.mp h with h | h
        · split
          · have hz : before-1=0 := by omega
            rw [hz] at h
            cases p <;> simp [leadWindow] at h
          · exact ih h
        · rw [List.mem_singleton.mp h]
          split
          · exact le_rfl
          · exact windowBack_le _ _
      · rename_i hin
        rw [Document.windowBack,if_neg hin]
        exact ih h
    · simp at h

/-- Below a row no match there has pulled rows in from, the last row emits nothing. -/
theorem pass_succ_below {n c : ℕ} (hc : c≤n)
    (h : (inBound n && isMatch n)=true→before=0 ∨ c≤Document.windowBack inBound n before) :
    (pass inBound isMatch before after (n+1)).2.filter
    (·.1<c)=(pass inBound isMatch before after n).2.filter (·.1<c) := by
  cases hm : inBound n && isMatch n with
  | true =>
    have hlead : ((leadWindow inBound (pass inBound isMatch before after n).1.lastEmitted before n).map
        (fun q => ((q,true) : Emitted))).filter (·.1<c)=[] := by
      refine List.filter_eq_nil_iff.mpr fun e he => ?_
      obtain ⟨q,hq,rfl⟩ := List.mem_map.mp he
      rcases h hm with hz | hle
      · rw [hz] at hq
        cases n <;> simp [leadWindow] at hq
      · have := windowBack_le_lead hq
        simp only [decide_eq_true_eq]
        omega
    simp [pass_succ_match hm,hlead,hc]
  | false =>
    conv_rhs => rw [← pass_succ_other hm,List.filter_filter]
    refine List.filter_congr fun e _ => ?_
    by_cases he : e.1<c
    · simp [he,he.trans_le hc]
    · simp [he]

end Step

end ContextEmitter

namespace Document

/-- The pass over the first `n` rows with the document's own axes and context. -/
def viewPass (d : Document) (n : ℕ) : ContextState×List Emitted :=
  pass (fun row => d.inContextStream (d.recordAt row)) (fun row => d.matchesTextAxis (d.recordAt row))
    d.contextBefore d.contextAfter n

theorem applyFilters_filtered (d : Document) : d.applyFilters.filtered=
    if !d.viewRestricted && !d.filters.anyActive then .cleared
    else shown d.index.records (d.viewPass d.index.records.length).2 := by
  unfold applyFilters
  split
  · rfl
  · exact setVisible_shown (pass_passed d.index.records.length).ascend

private theorem applyFilters_idem (d : Document) :
    d.applyFilters.filtered=d.applyFilters.applyFilters.filtered := by
  have he : d.applyFilters={d with filtered := d.applyFilters.filtered} := by
    unfold applyFilters
    split <;> rfl
  rw [applyFilters_filtered d.applyFilters,applyFilters_filtered d,he]
  rfl

/-- A row that a batch has left what it was. -/
structure SameRow (d e : Document) (row : ℕ) : Prop where
  record : e.recordAt row=d.recordAt row
  stream : e.inContextStream (e.recordAt row)=d.inContextStream (d.recordAt row)
  text : e.matchesTextAxis (e.recordAt row)=d.matchesTextAxis (d.recordAt row)

private theorem acceptsInView_eq (d : Document) (r : Record) :
    d.acceptsInView r=(d.inContextStream r && d.matchesTextAxis r) := by
  simp only [acceptsInView,matchesFilters,FilterSet.accepts,inContextStream,matchesTextAxis]
  cases d.filters.text.active <;> simp [Bool.and_assoc]

variable {d e : Document}

theorem viewPass_congr (hset : e.toSetup=d.toSetup) {n : ℕ} (h : ∀row<n,SameRow d e row) :
    e.viewPass n=d.viewPass n := by
  rw [viewPass,viewPass,hset]
  exact pass_congr (fun q hq => (h q hq).stream) fun q hq => (h q hq).text

/-- A document `e` after a batch, `d` before it; the view has not been looked at yet. -/
structure Grown (d e : Document) (changed : Bool) : Prop where
  setup : e.toSetup=d.toSetup
  length : d.index.records.length≤e.index.records.length
  front : ∀row,row+1<d.index.records.length→SameRow d e row
  last : changed=false→∀row<d.index.records.length,SameRow d e row
  filtered : e.filtered=shown d.index.records (d.viewPass d.index.records.length).2

/-- The rows kept are those a pass over the new index has emitted at some point. -/
theorem Grown.candidateStart {changed : Bool} (h : Grown d e changed) :
    ∃c b,e.candidateStart d.index.records.length (d.index.records.length-1) changed=c ∧ c≤b ∧
      b≤e.index.records.length ∧ (∀row<c,SameRow d e row) ∧
      (d.viewPass d.index.records.length).2.filter (·.1<c)=(e.viewPass b).2.filter (·.1<c) := by
  have hlen := h.length
  by_cases hz : d.index.records.length=0
  · exact ⟨0,0,by simp [Document.candidateStart,hz],le_rfl,Nat.zero_le _,by simp,by simp⟩
  obtain ⟨base,hbase⟩ := Nat.exists_eq_succ_of_ne_zero hz
  rw [Nat.succ_eq_add_one] at hbase
  have hfront : ∀row<base,SameRow d e row := fun row hrow => h.front row (by omega)
  have hfiltered := h.filtered
  have hlast := h.last
  rw [hbase] at hlen hfiltered hlast ⊢
  rw [Nat.add_sub_cancel]
  -- Whether the provisional row was a match, as the view tells it, and whether it is one now.
  have hwas : decide (e.filtered.lastMatchSource=(base : ℤ))=
      (d.inContextStream (d.recordAt base) && d.matchesTextAxis (d.recordAt base)) := by
    rw [hfiltered,lastMatchSource_shown,viewPass,lastMatchRow_pass]
  have hstart : e.candidateStart (base+1) base changed=if !changed then base+1
      else if decide (0<e.contextBefore) &&
        ((d.inContextStream (d.recordAt base) && d.matchesTextAxis (d.recordAt base)) !=
        (e.inContextStream (e.recordAt base) && e.matchesTextAxis (e.recordAt base))) then
        e.contextWindowStart base e.contextBefore else base := by
    simp only [Document.candidateStart,hwas,acceptsInView_eq]
    rfl
  have hbefore : e.contextBefore=d.contextBefore := congrArg Setup.contextBefore h.setup
  have hafter : e.contextAfter=d.contextAfter := congrArg Setup.contextAfter h.setup
  rw [hstart]
  cases changed with
  | false => exact ⟨base+1,base+1,rfl,le_rfl,hlen,hlast rfl,by rw [viewPass_congr h.setup (hlast rfl)]⟩
  | true =>
    by_cases hboth : (d.inContextStream (d.recordAt base) && d.matchesTextAxis (d.recordAt base))=true ∧
        (e.inContextStream (e.recordAt base) && e.matchesTextAxis (e.recordAt base))=true
    · -- A match that stays one: nothing that the axes say has changed.
      obtain ⟨hw,hn⟩ := hboth
      refine ⟨base,base+1,by simp [hw,hn],Nat.le_succ _,hlen,hfront,?_⟩
      obtain ⟨hw₁,hw₂⟩ := (Bool.and_eq_true _ _).mp hw
      obtain ⟨hn₁,hn₂⟩ := (Bool.and_eq_true _ _).mp hn
      rw [viewPass,viewPass,hbefore,hafter]
      congr 2
      refine (pass_congr (fun q hq => ?_) fun q hq => ?_).symm
      · rcases Nat.lt_succ_iff_lt_or_eq.mp hq with hlt | rfl
        · exact (hfront q hlt).stream
        · rw [hn₁,hw₁]
      · rcases Nat.lt_succ_iff_lt_or_eq.mp hq with hlt | rfl
        · exact (hfront q hlt).text
        · rw [hn₂,hw₂]
    · -- Otherwise the rows kept are those before any it had pulled in.
      have hkept (c : ℕ) (hc : c≤base) (hlead : (d.inContextStream (d.recordAt base) &&
          d.matchesTextAxis (d.recordAt base))=true→d.contextBefore=0 ∨
            c≤windowBack (fun row => d.inContextStream (d.recordAt row)) base d.contextBefore) :
          (d.viewPass (base+1)).2.filter (·.1<c)=(e.viewPass base).2.filter (·.1<c) := by
        rw [viewPass_congr h.setup hfront,viewPass,viewPass]
        exact pass_succ_below hc hlead
      have hback : windowBack (fun row => e.inContextStream (e.recordAt row)) base e.contextBefore=
          windowBack (fun row => d.inContextStream (d.recordAt row)) base d.contextBefore := by
        rw [hbefore]
        exact windowBack_congr (fun q hq => (hfront q hq).stream) _
      have hle := @windowBack_le (fun row => d.inContextStream (d.recordAt row)) base d.contextBefore
      simp only [Bool.not_true,Bool.false_eq_true,if_false]
      split
      · rename_i hflip
        have hpos : d.contextBefore≠0 := by
          rw [← hbefore]
          intro hzero
          simp [hzero] at hflip
        rw [contextWindowStart,if_neg (by rw [hbefore]; exact hpos),hback]
        exact ⟨_,base,rfl,hle,by omega,fun row hrow => hfront row (by omega),hkept _ hle fun _ => Or.inr le_rfl⟩
      · rename_i hflip
        refine ⟨base,base,rfl,le_rfl,by omega,hfront,hkept base le_rfl fun hw => Or.inl ?_⟩
        have hn : (e.inContextStream (e.recordAt base) && e.matchesTextAxis (e.recordAt base))=false :=
          Bool.eq_false_iff.mpr fun hn => hboth ⟨hw,hn⟩
        rw [hw,hn,hbefore] at hflip
        simpa using hflip

/-- Rows from `c` on taken back from the view. -/
theorem popVisible_shown {records : List Record} {out : List Emitted} (hf : d.filtered=shown records out)
    (hasc : out.Pairwise (fun a b => a.1<b.1)) (c : ℕ) : d.popVisible (d.filtered.trailingCountFrom c)=
      {d with filtered := shown records (out.filter (fun e => decide (e.1<c)))} := by
  rw [hf,trailingCountFrom_shown]
  unfold popVisible
  split
  · have hpop := @pop_shown records _ hasc c d.index.records
    rw [← hf] at hpop
    exact congrArg (fun f => {d with filtered := f}) hpop
  · rename_i hz
    obtain ⟨hrows,hsplit⟩ := rowsFrom_ascend hasc c
    have hnil : out.filter (fun e => !decide (e.1<c))=[] := List.eq_nil_of_length_eq_zero (by omega)
    rw [hnil,List.append_nil] at hsplit
    rw [hsplit,← hf]

private theorem resumeState_shown {records : List Record} {out : List Emitted} (hf : d.filtered=shown records out) :
    d.resumeState=readBack out := by
  simp only [resumeState,hf,lastMatchSource_shown,trailingCountFrom_shown]
  rw [shown,lastVisibleSource_shownWith]
  rfl

private theorem appendPassing_shown {out es : List Emitted} (hf : d.filtered=shown d.index.records out)
    (hasc : (out++es).Pairwise (fun a b => a.1<b.1)) : (d.appendPassing es).filtered=shown d.index.records
    (out++es) := by
  unfold appendPassing
  split
  · rename_i hnil
    rw [List.isEmpty_iff.mp hnil,List.append_nil,hf]
  · rw [hf]
    exact append_shown hasc d.index.records

/-- The step: the view taken back and emitted again is the view of one pass. -/
theorem Grown.extendVisible {changed : Bool} (h : Grown d e changed) :
    (e.extendVisible d.index.records.length (d.index.records.length-1) changed).filtered=
      shown e.index.records (e.viewPass e.index.records.length).2 := by
  obtain ⟨c,b,hc,hcb,hbn,hsame,hrows⟩ := h.candidateStart
  have hasc : (d.viewPass d.index.records.length).2.Pairwise (fun a b => a.1<b.1) := (pass_passed _).ascend
  have hpop : e.popVisible (e.filtered.trailingCountFrom c)=
      {e with filtered := shown e.index.records ((e.viewPass b).2.filter (·.1<c))} := by
    rw [popVisible_shown h.filtered hasc c,hrows]
    refine congrArg (fun f => {e with filtered := f}) (shown_congr fun row hrow => ?_).symm
    have hlt : row.1<c := by simpa using (List.mem_filter.mp hrow).2
    exact (hsame row.1 hlt).record
  have hresume := @pass_resume (fun row => e.inContextStream (e.recordAt row))
    (fun row => e.matchesTextAxis (e.recordAt row)) e.contextBefore e.contextAfter _ _ _ hcb hbn
  unfold Document.extendVisible
  simp only [hc,hpop]
  rw [@resumeState_shown _ _ ((e.viewPass b).2.filter (·.1<c)) rfl]
  have happ := @appendPassing_shown {e with filtered := shown e.index.records ((e.viewPass b).2.filter (·.1<c))}
    ((e.viewPass b).2.filter (·.1<c)) ((emitWithContext c e.index.records.length e.contextBefore e.contextAfter
      (readBack ((e.viewPass b).2.filter (·.1<c))) (fun row => e.inContextStream (e.recordAt row))
        fun row => e.matchesTextAxis (e.recordAt row)).2) rfl (by
      rw [viewPass,hresume]
      exact (pass_passed _).ascend)
  refine happ.trans ?_
  rw [viewPass,hresume]
  rfl

end Document

namespace LiveController

variable {c : LiveController}

/-- A batch with records in it, and what it leaves besides the view, the digest and the rules' ids. -/
theorem tick_document (c : LiveController) (more : Bytes) : ∃tail l t,Scanned
    (c.document.appendBytes more) tail l t ∧
    ((tail=[] ∧ (c.tick more).document={c.document.appendBytes more with
        index := {c.document.index with loggers := l,threads := t}}) ∨
      (tail≠[] ∧ ∃highlighters digest last,
        (c.tick more).document={(c.document.appendBytes more).ingestRuns tail l t with
        filtered := ((c.document.appendBytes more).ingestView tail l t).filtered
        highlighters := highlighters,digest := digest,digestLast := last})) := by
  obtain ⟨tail,l,t,hscan,⟨hnil,he⟩ | ⟨hne,he⟩⟩ := c.tick_cases more
  · exact ⟨tail,l,t,hscan,Or.inl ⟨hnil,by rw [he]⟩⟩
  · refine ⟨tail,l,t,hscan,Or.inr ⟨hne,(ingested (c.document.appendBytes more) tail l t).highlighters,
      (c.tick more).document.digest,(c.tick more).document.digestLast,?_⟩⟩
    rw [he,runMatchActions_document]
    simp only [ingested]
    rw [Document.ingestView_eq]
    rfl

/-- A row whose record a batch has left is left by all the axes. -/
theorem tick_sameRow (hc : c.Consistent) (hb : c.document.BoundsSettled) (more : Bytes) {row : ℕ}
    (hrow : row<c.document.index.records.length)
    (hrec : (c.tick more).document.recordAt row=c.document.recordAt row) :
    Document.SameRow c.document (c.tick more).document row where
  record := hrec
  stream := by
    rw [Document.inContextStream,tick_inRunBound hc hb more hrow,hrec,tick_toSetup]
    rfl
  text := by
    rw [Document.matchesTextAxis,hrec,tick_toSetup,
      Document.messageText_congr (c.tick_toSetup more) (tick_recordBytes hc.placed hrow more)]
    rfl

/-- The view is what a pass over the index gives. -/
def FilterSettled (c : LiveController) : Prop := c.document.filtered=c.document.applyFilters.filtered

private theorem tick_filterSettled (hc : c.Consistent) (hb : c.document.BoundsSettled) (hf : c.FilterSettled)
    (more : Bytes) :
    (c.tick more).FilterSettled := by
  have hset := c.tick_toSetup more
  have hlen := c.tick_length more hc.placed
  have hrestricted : (c.tick more).document.viewRestricted=c.document.viewRestricted := by
    rw [(tick_boundsSettled hb more).restricted,hb.restricted,(tick_selected hb more).2]
  have hfilters : (c.tick more).document.filters=c.document.filters := congrArg Setup.filters hset
  unfold FilterSettled at hf ⊢
  rw [Document.applyFilters_filtered] at hf ⊢
  rw [hrestricted,hfilters]
  obtain ⟨tail,l,t,hscan,⟨rfl,he⟩ | ⟨hne,hs,dg,last,he⟩⟩ := c.tick_document more
  · have hrec : c.document.index.records=[] := hscan.records_of_tail_nil hc.placed (List.prefix_append _ _)
    have hfd : (c.tick more).document.filtered=c.document.filtered := by
      rw [he]
      rfl
    have hrec' : (c.tick more).document.index.records=[] := by
      rw [he]
      exact hrec
    rw [hfd,hf,hrec,hrec']
    rfl
  · by_cases hopen : (!c.document.viewRestricted && !c.document.filters.anyActive)=true
    · -- The identity view.
      rw [if_pos hopen] at hf ⊢
      rw [he]
      unfold Document.ingestView
      rw [Document.ingestRuns_eq]
      simp [Document.appendBytes,hf,FilteredIndex.cleared]
    · rw [if_neg hopen] at hf ⊢
      have hsame (row : ℕ) (hrow : row<c.document.index.records.length)
          (hrec : (c.tick more).document.recordAt row=c.document.recordAt row) :
          Document.SameRow c.document ((c.document.appendBytes more).ingestRuns tail l t) row := by
        have h := tick_sameRow hc hb more hrow hrec
        rw [he] at h
        exact ⟨h.record,h.stream,h.text⟩
      have hgrown : Document.Grown c.document ((c.document.appendBytes more).ingestRuns tail l t)
          ((c.document.appendBytes more).provisionalChanged tail) := by
        refine ⟨?_,?_,fun row hrow => hsame row (by omega) (tick_recordAt hc.placed hrow more),
          fun hun row hrow => ?_,?_⟩
        · rw [he] at hset
          exact hset
        · rw [he] at hlen
          exact hlen
        · obtain ⟨rest,hrest⟩ := Document.records_eq_of_unchanged hun
          refine hsame row hrow ?_
          rw [he,Document.ingestRuns_eq]
          simp only [Document.recordAt,Document.ingestIndex_records,hrest]
          have hrow' : row<(c.document.appendBytes more).index.records.length := hrow
          rw [List.getD_eq_getElem?_getD,List.getElem?_append_left hrow',← List.getD_eq_getElem?_getD]
          rfl
        · rw [Document.ingestRuns_eq]
          exact hf
      have hext := hgrown.extendVisible
      rw [he]
      have hactive : (c.document.appendBytes more).filtered.active=true := by
        show c.document.filtered.active=true
        rw [hf]
        rfl
      unfold Document.ingestView
      simp only [hactive,Bool.not_true,Bool.false_eq_true,if_false]
      exact hext

/-- Filtering live is filtering from scratch: in every session, once the filters have been
applied, whatever batches arrive leave the view a pass over the whole index gives. -/
theorem run_filtered (c : LiveController) (content : Bytes) (actions : List Action) (chunks : List Bytes) :
    let d := ((((c.reopened content).session actions).act .applyFilters).run chunks).document
    d.filtered=d.applyFilters.filtered := by
  have hc := ((c.reopened_consistent content).session actions).act .applyFilters
  have hb := act_boundsSettled (session_boundsSettled (c.reopened_boundsSettled content) actions) .applyFilters
  have hf : (((c.reopened content).session actions).act .applyFilters).FilterSettled := by
    exact Document.applyFilters_idem _
  exact (run_induct (P:=fun c' => c'.Consistent ∧ c'.document.BoundsSettled ∧ c'.FilterSettled)
    (fun c' m h => ⟨h.1.tick m,tick_boundsSettled h.2.1 m,tick_filterSettled h.1 h.2.1 h.2.2 m⟩)
      ⟨hc,hb,hf⟩ chunks).2.2

end LiveController

end Loftail
