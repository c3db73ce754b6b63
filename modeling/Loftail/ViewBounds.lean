import Loftail.RunList

/-! # The run the view is bound to

The bounds follow the selected run through a whole session, and no batch moves them over a
record that was there before it. -/
namespace Loftail

/-- The selected run, if run starts are looked for and one is selected. -/
def RunSelection.selection (s : RunSelection) (active : Bool) : Option Run :=
  if !active || s.selectedRun<0 then none else s.runs[s.selectedRun.toNat]?

/-- A selection with the bounds of its selected run. -/
def RunSelection.bounded (s : RunSelection) (active : Bool) : RunSelection :=
  match s.selection active with
  | none => {s with viewRestricted := false,viewStart := -(2^63),viewEnd := none}
  | some run => {s with viewRestricted := true,viewStart := run.startOffset
                        viewEnd := s.runs[s.selectedRun.toNat+1]?.map (fun next => (next.startOffset : ℤ))}

private theorem RunSelection.bounded_idem (s : RunSelection) (active : Bool) :
    (s.bounded active).bounded active=s.bounded active := by
  have hkept : (s.bounded active).runs=s.runs ∧ (s.bounded active).selectedRun=s.selectedRun := by
    unfold bounded
    split <;> exact ⟨rfl,rfl⟩
  have hsel : (s.bounded active).selection active=s.selection active := by
    simp only [selection,hkept.1,hkept.2]
  conv_lhs => rw [bounded.eq_def,hsel,hkept.1,hkept.2]
  cases h : s.selection active <;> simp [bounded,h]

namespace Document

variable {d e : Document}

/-- The bounds look at the rule, the runs and the selection alone. -/
theorem recomputeViewBounds_toRunSelection (d : Document) :
    d.recomputeViewBounds.toRunSelection=d.toRunSelection.bounded d.runStartActive := by
  unfold recomputeViewBounds RunSelection.bounded RunSelection.selection
  dsimp only
  split
  · rfl
  · cases d.runs[d.selectedRun.toNat]? <;> rfl

/-- The bounds are those of the selected run, and the selected run is one of the runs. -/
structure BoundsSettled (d : Document) : Prop where
  bounds : d.toRunSelection=d.toRunSelection.bounded d.runStartActive
  selected : d.runsDetected=true→d.selectedRun<d.runs.length

namespace BoundsSettled

theorem congr (h : BoundsSettled d) (hset : e.toSetup=d.toSetup) (hsel : e.toRunSelection=d.toRunSelection) :
    BoundsSettled e where
  bounds := by rw [hsel,hset,← h.bounds]
  selected := by
    rw [hsel,runsDetected_congr hset]
    exact h.selected

/-- A recomputation settles the bounds. -/
theorem recomputed (h : d.runsDetected=true→d.selectedRun<d.runs.length) : BoundsSettled d.recomputeViewBounds where
  bounds := by rw [recomputeViewBounds_toRunSelection,recomputeViewBounds_toSetup,RunSelection.bounded_idem]
  selected := by
    rw [recomputeViewBounds_runs,recomputeViewBounds_selectedRun,runsDetected_congr d.recomputeViewBounds_toSetup]
    exact h

theorem restricted (h : BoundsSettled d) : d.viewRestricted=(d.selection d.runStartActive).isSome := by
  have hr := congrArg RunSelection.viewRestricted h.bounds
  rw [hr,RunSelection.bounded]
  cases d.selection d.runStartActive <;> rfl

theorem inRunBound (h : BoundsSettled d) (r : Record) : d.inRunBound r=
    match d.selection d.runStartActive with
    | none => true
    | some run => decide (run.startOffset≤r.offset) &&
      match d.runs[d.selectedRun.toNat+1]? with
      | some next => decide (r.offset<next.startOffset)
      | none => true := by
  have hr := congrArg RunSelection.viewRestricted h.bounds
  have hs := congrArg RunSelection.viewStart h.bounds
  have he := congrArg RunSelection.viewEnd h.bounds
  rw [Document.inRunBound,hr,hs,he,RunSelection.bounded]
  cases d.selection d.runStartActive with
  | none => rfl
  | some run => cases d.runs[d.selectedRun.toNat+1]? <;> simp

end BoundsSettled

theorem boundsSettled_selectLastRun (d : Document) : BoundsSettled d.selectLastRun :=
  .recomputed fun _ => Int.sub_one_lt_of_le le_rfl

private theorem boundsSettled_selectRun (d : Document) (index : ℤ) : BoundsSettled (d.selectRun index) := by
  refine .recomputed fun _ => ?_
  simp only
  split <;> omega

theorem boundsSettled_detectRuns (d : Document) : BoundsSettled d.detectRuns := by
  unfold detectRuns
  dsimp only
  split
  · rename_i h
    exact .recomputed fun hd => absurd hd (by simpa using h)
  · split
    · exact .recomputed fun _ => Int.sub_one_lt_of_le le_rfl
    · rename_i h
      refine .recomputed fun _ => ?_
      simp only [Bool.or_eq_true,decide_eq_true_eq,not_or,ge_iff_le,not_le] at h
      exact h.2

/-- A fold over rows none of which starts a run finds none. -/
theorem foldl_foldRun_none {rows : List ℕ} (h : rows.any d.startsRun=false) (runs : List Run) :
    rows.foldl d.foldRun runs=runs := by
  induction rows with
  | nil => rfl
  | cons i is ih =>
    rw [List.any_cons,Bool.or_eq_false_iff] at h
    rw [List.foldl_cons,foldRun,if_neg (by simp [h.1]),ih h.2]

/-- Settled bounds stay settled under new runs, whether or not the update recomputed them. -/
theorem BoundsSettled.update (h : BoundsSettled d) (n : ℕ) : BoundsSettled (d.updateRunsAfterAppend n) := by
  cases hd : d.runsDetected with
  | false =>
    have he : d.updateRunsAfterAppend n=d := by simp [updateRunsAfterAppend,hd]
    rwa [he]
  | true =>
    obtain ⟨added,hadd,-⟩ := d.foldl_foldRun_added d.runs (List.range' n (d.index.records.length-n))
    unfold updateRunsAfterAppend
    simp only [hd,Bool.not_true,Bool.false_eq_true,if_false]
    split
    · refine .recomputed fun _ => ?_
      simp only [hadd,List.length_append]
      have := h.selected hd
      omega
    · rename_i hany
      rw [foldl_foldRun_none (by simpa using hany)]
      exact h

end Document

namespace LiveController

variable {c : LiveController}

/-- What a batch leaves of the runs and the bounds is what the update of the runs leaves. -/
theorem tick_selection (c : LiveController) (more : Bytes) :
    (c.tick more).document.toRunSelection=c.document.toRunSelection ∨
    ∃tail l t,(c.tick more).document.toRunSelection=
    (((c.document.appendBytes more).ingestIndex tail l t).updateRunsAfterAppend
      c.document.index.records.length).toRunSelection := by
  obtain ⟨tail,l,t,-,⟨-,he⟩ | ⟨-,he⟩⟩ := c.tick_cases more
  · exact Or.inl (by rw [he]; rfl)
  · refine Or.inr ⟨tail,l,t,?_⟩
    rw [he,runMatchActions_document]
    simp only [ingested]
    rw [Document.ingestView_eq]
    rfl

theorem tick_boundsSettled (h : c.document.BoundsSettled) (more : Bytes) :
    (c.tick more).document.BoundsSettled := by
  rcases c.tick_selection more with hsel | ⟨tail,l,t,hsel⟩
  · exact h.congr (c.tick_toSetup more) hsel
  · refine Document.BoundsSettled.congr (Document.BoundsSettled.update (h.congr ?_ ?_) _) ?_ hsel
    · rw [Document.ingestIndex_eq]
      rfl
    · rw [Document.ingestIndex_eq]
      rfl
    · rw [tick_toSetup,Document.updateRunsAfterAppend_toSetup,Document.ingestIndex_eq]
      rfl

theorem act_boundsSettled (h : c.document.BoundsSettled) (a : Action) : (c.act a).document.BoundsSettled := by
  cases a with
  | append m => exact tick_boundsSettled h m
  | setRunStart pattern regex cs => exact Document.boundsSettled_selectLastRun _
  | detectRuns => exact Document.boundsSettled_detectRuns _
  | selectRun i => exact Document.boundsSettled_selectRun _ i
  | selectLastRun => exact Document.boundsSettled_selectLastRun _
  | applyFilters =>
    refine h.congr ?_ ?_ <;> simp only [act,onDocument,Document.applyFilters] <;> split <;> rfl
  | refreshHighlighting =>
    refine h.congr ?_ ?_ <;> simp only [act,onDocument,Document.refreshHighlighting] <;>
      rw [Document.rebuildDigest_eq] <;> rfl
  | runStats i => 
    refine h.congr ?_ ?_ <;> simp only [act,onDocument,Document.runStatsOf] <;> split <;> rfl
  | fileStats => exact h.congr rfl rfl
  | runBaseTimestamp row =>
    refine h.congr ?_ ?_ <;> simp only [act,onDocument,Document.runBaseTimestamp] <;> split <;>
      first | rfl | (split <;> first | rfl | (split <;> rfl))

theorem reopened_boundsSettled (c : LiveController) (content : Bytes) :
    (c.reopened content).document.BoundsSettled := by
  obtain ⟨idx,hidx,-⟩ := Indexed.of_index c.document.indexer content
  have hidx' : ({c.document with filtered := .cleared,source := content} :
    Document).clearDigest.invalidateRunMemos.indexer.index
    content (fun _ => true)=some (true,idx) := hidx
  simp only [reopened,onDocument,Document.rescan,hidx']
  exact Document.boundsSettled_selectLastRun _

theorem session_boundsSettled (h : c.document.BoundsSettled) (actions : List Action) :
    (c.session actions).document.BoundsSettled := by
  induction actions generalizing c with
  | nil => exact h
  | cons a as ih => exact ih (act_boundsSettled h a)

/-- A batch selects no other run. -/
theorem tick_selected (h : c.document.BoundsSettled) (more : Bytes) :
    (c.tick more).document.selectedRun=c.document.selectedRun ∧
      (c.tick more).document.selection (c.tick more).document.runStartActive=
        c.document.selection c.document.runStartActive := by
  have hactive : (c.tick more).document.runStartActive=c.document.runStartActive :=
    congrArg Setup.runStartActive (c.tick_toSetup more)
  have hsel : (c.tick more).document.selectedRun=c.document.selectedRun := by
    rcases c.tick_selection more with hsel | ⟨tail,l,t,hsel⟩
    · rw [hsel]
    · rw [hsel]
      unfold Document.updateRunsAfterAppend
      rw [Document.ingestIndex_eq]
      split
      · rfl
      · dsimp only
        split <;> simp [Document.appendBytes]
  refine ⟨hsel,?_⟩
  unfold RunSelection.selection
  rw [hactive,hsel]
  split
  · rfl
  · rename_i hopen
    obtain ⟨added,hadd,-⟩ := c.tick_added more
    by_cases hd : c.document.runsDetected=true
    · have hlt := h.selected hd
      rw [hadd,List.getElem?_append_left]
      simp only [Bool.or_eq_true,decide_eq_true_eq,not_or,not_lt] at hopen
      omega
    · rw [tick_runs,if_neg hd]

/-- A batch moves the bounds over no record that was there. -/
theorem tick_inRunBound (hc : c.Consistent) (h : c.document.BoundsSettled) (more : Bytes) {row : ℕ}
    (hrow : row<c.document.index.records.length) :
    (c.tick more).document.inRunBound ((c.tick more).document.recordAt row)=
      c.document.inRunBound (c.document.recordAt row) := by
  obtain ⟨hselected,hselection⟩ := tick_selected h more
  rw [(tick_boundsSettled h more).inRunBound,h.inRunBound,hselection,hselected,tick_offset hc.placed hrow more]
  cases hs : c.document.selection c.document.runStartActive with
  | none => rfl
  | some run =>
    -- Only the end of the last run can have moved, to a record behind all there were.
    have hrun : c.document.runs[c.document.selectedRun.toNat]?=some run := by
      unfold RunSelection.selection at hs
      split at hs
      · cases hs
      · exact hs
    have hlt := (List.getElem?_eq_some_iff.mp hrun).1
    obtain ⟨added,hadd,hmem⟩ := c.tick_added more
    have hne : c.document.runs≠[] := List.ne_nil_of_length_pos (Nat.zero_lt_of_lt hlt)
    rw [hadd]
    by_cases hnext : c.document.selectedRun.toNat+1<c.document.runs.length
    · rw [List.getElem?_append_left hnext]
    · rw [List.getElem?_append_right (by omega),List.getElem?_eq_none (l:=c.document.runs) (by omega)]
      cases ha : added[c.document.selectedRun.toNat+1-c.document.runs.length]? with
      | none => rfl
      | some next =>
        obtain ⟨i,hi,hilt,rfl⟩ := hmem hne next (List.mem_of_getElem? ha)
        have hbefore : (c.document.recordAt row).offset<((c.tick more).document.recordAt i).offset := by
          rw [← tick_offset hc.placed hrow more]
          obtain ⟨-,-,-,-,-,hp⟩ := c.tick_records more hc.placed
          exact recordAt_ascend hp (by omega) hilt
        simp [Document.makeRun,hbefore]

end LiveController

end Loftail
