import Loftail.ViewBounds
import Mathlib.Data.List.GetD

/-! # The selected run and the records it bounds the view to

Seven operations change the run list, the selection in it and the bounds, while records are added
behind the ones that are there. -/
namespace Loftail

namespace Document

/-- Following the last run, the selection moves to the run that is last now. -/
def retargetLastRun (d : Document) : Document×Bool :=
  if !d.followLastRun then (d,false)
  else if d.lastRunIndex=d.selectedRun then (d,false)
  else ({d with selectedRun := d.lastRunIndex}.recomputeViewBounds,true)

/-- A persisted selection is found again by its offset, then by its timestamp. -/
def selectRunByStart (d : Document) (startOffset startTimestamp : ℤ) : Document :=
  let best := match d.runs.findIdx? (fun r => (r.startOffset : ℤ)=startOffset) with
    | some i => some i
    | none => if startTimestamp≠kNoTimestamp then d.runs.findIdx?
      (fun r => r.startTimestamp=startTimestamp) else none
  match best with
  | some i => d.selectRun i
  | none => d.selectLastRun

end Document

/-- Records that grew out of others: the trailing one may have been replaced where it stood. -/
structure RowsGrown (old new : List Record) : Prop where
  offsets : old.map Record.offset<+:new.map Record.offset
  ascend : new.Pairwise (fun r s => r.offset<s.offset)

/-- Records keep the place they start at. -/
theorem RowsGrown.recordAt {old new : List Record} (h : RowsGrown old new) {i : ℕ} (hi : i<old.length) :
    (new.getD i default).offset=(old.getD i default).offset := by
  have hle : old.length≤new.length := by simpa using h.offsets.length_le
  have hget := h.offsets.getElem (by simpa using hi : i<(old.map Record.offset).length)
  rw [List.getD_eq_getElem _ _ hi,List.getD_eq_getElem _ _ (hi.trans_le hle)]
  simpa using hget.symm

/-- What may happen to the runs, in any order. -/
inductive RunEvent
  | grow (source : Bytes) (index : RecordIndex)
  | setRunStart (pattern : Text) (regex : Bool) (cs : CaseSensitivity)
  | detectRuns
  | updateRunsAfterAppend (oldRecordCount : ℕ)
  | selectRun (index : ℤ)
  | selectLastRun
  | selectRunByStart (startOffset startTimestamp : ℤ)
  | retargetLastRun

/-- A document, and how many of its records were looked at for run starts. -/
structure RunSession where
  document : Document
  looked : ℕ

namespace RunSession

/-- The index only grows, and no record that was looked at is given to the update again. -/
def Allowed (s : RunSession) : RunEvent→Prop
  | .grow _ index => RowsGrown s.document.index.records index.records
  | .updateRunsAfterAppend oldRecordCount => s.looked ≤ oldRecordCount
  | _ => True

def step (s : RunSession) : RunEvent→RunSession
  | .grow source index => ⟨{s.document with source := source,index := index},s.looked⟩
  | .setRunStart pattern regex cs => ⟨s.document.setRunStart pattern regex cs,s.document.index.records.length⟩
  | .detectRuns => ⟨s.document.detectRuns,s.document.index.records.length⟩
  | .updateRunsAfterAppend n => ⟨s.document.updateRunsAfterAppend n,s.document.index.records.length⟩
  | .selectRun index => ⟨s.document.selectRun index,s.looked⟩
  | .selectLastRun => ⟨s.document.selectLastRun,s.looked⟩
  | .selectRunByStart startOffset startTimestamp =>
    ⟨s.document.selectRunByStart startOffset startTimestamp,s.looked⟩
  | .retargetLastRun => ⟨s.document.retargetLastRun.1,s.looked⟩

def run (s : RunSession) (events : List RunEvent) : RunSession := events.foldl step s

/-- Every event is one that may happen when it does. -/
def AllAllowed : RunSession→List RunEvent→Prop
  | _,[] => True
  | s,e::es => s.Allowed e ∧ AllAllowed (s.step e) es

/-- A document whose records were read and that no run start was set on. -/
def opened (platform : Platform) (format : LogFormat) (decoder : Decoder) (sourceZone : Zone) (source : Bytes)
    (index : RecordIndex) : RunSession :=
  ⟨{Document.make platform format decoder sourceZone with source := source,index := index},0⟩

end RunSession

namespace Document

variable {d : Document} {looked : ℕ}

/-- The runs divide the records that were looked at, each starts where its first record does, and one
of them or none is selected. -/
structure RunsStand (d : Document) (looked : ℕ) : Prop where
  settled : d.BoundsSettled
  least : -1 ≤ d.selectedRun
  selected : d.selectedRun<d.runs.length
  idle : d.runsDetected=false→d.runs=[]
  divided : RunsPartition d.runs looked
  looked : looked ≤ d.index.records.length
  starts : ∀r∈d.runs,r.startOffset=(d.recordAt r.startRecord).offset
  ascend : d.index.records.Pairwise (fun r s => r.offset<s.offset)

private theorem recomputeViewBounds_followLastRun (d : Document) :
    d.recomputeViewBounds.followLastRun=d.followLastRun := by
  rw [recomputeViewBounds_eq]

/-- The fold makes runs that start where their records do. -/
theorem foldl_foldRun_starts (rows : List ℕ) {runs : List Run}
    (h : ∀r∈runs,r.startOffset=(d.recordAt r.startRecord).offset) :
    ∀r∈rows.foldl d.foldRun runs,r.startOffset=(d.recordAt r.startRecord).offset := by
  induction rows generalizing runs with
  | nil => exact h
  | cons i rows ih =>
    refine ih fun r hr => ?_
    unfold foldRun at hr
    split at hr
    · obtain hr | hr := List.mem_append.mp hr
      · split at hr
        · obtain rfl := List.mem_singleton.mp hr
          rfl
        · exact h r hr
      · obtain rfl := List.mem_singleton.mp hr
        rfl
    · exact h r hr

theorem detectRuns_selectedRun (d : Document) : d.detectRuns.selectedRun=
    if d.runsDetected && (d.followLastRun || decide (d.selectedRun≥d.detectedRuns.length)) then
      (d.detectedRuns.length : ℤ)-1 else d.selectedRun := by
  unfold detectRuns detectedRuns
  dsimp only
  cases hon : d.runsDetected with
  | true =>
    have hon' : ({d with runs := []}.invalidateRunMemos).runsDetected=true := hon
    simp only [hon',Bool.not_true,Bool.false_eq_true,if_false,if_true,Bool.true_and,recomputeViewBounds_selectedRun]
    split
    · rename_i hlast
      exact (if_pos hlast).symm
    · rename_i hkept
      exact (if_neg hkept).symm
  | false =>
    have hon' : ({d with runs := []}.invalidateRunMemos).runsDetected=false := hon
    simp only [hon',Bool.not_false,if_true,recomputeViewBounds_selectedRun]
    rfl

theorem updateRunsAfterAppend_selectedRun (d : Document) (n : ℕ) :
    (d.updateRunsAfterAppend n).selectedRun=d.selectedRun ∧
      (d.updateRunsAfterAppend n).followLastRun=d.followLastRun := by
  unfold updateRunsAfterAppend
  split
  · exact ⟨rfl,rfl⟩
  · dsimp only
    split
    · exact ⟨recomputeViewBounds_selectedRun _,recomputeViewBounds_followLastRun _⟩
    · exact ⟨rfl,rfl⟩

namespace RunsStand

/-- Another run selected, or none, followed or not. -/
theorem reselect (h : RunsStand d looked) {selected : ℤ} (hleast : -1 ≤ selected) (hlt : selected<d.runs.length)
    (follow : Bool) :
    RunsStand ({d with selectedRun := selected,followLastRun := follow}.recomputeViewBounds) looked where
  settled := .recomputed fun _ => hlt
  least := by rwa [recomputeViewBounds_selectedRun]
  selected := by rwa [recomputeViewBounds_selectedRun,recomputeViewBounds_runs]
  idle := by
    rw [runsDetected_congr (recomputeViewBounds_toSetup _),recomputeViewBounds_runs]
    exact h.idle
  divided := by
    rw [recomputeViewBounds_runs]
    exact h.divided
  looked := by
    rw [recomputeViewBounds_index]
    exact h.looked
  starts := by
    intro r hr
    rw [recomputeViewBounds_runs] at hr
    rw [Document.recordAt,recomputeViewBounds_index]
    exact h.starts r hr
  ascend := by
    rw [recomputeViewBounds_index]
    exact h.ascend

theorem lastRunIndex_least (d : Document) : -1 ≤ d.lastRunIndex := by
  unfold lastRunIndex
  omega

theorem lastRunIndex_lt (d : Document) : d.lastRunIndex<d.runs.length := Int.sub_one_lt_of_le le_rfl

theorem selectLastRun (h : RunsStand d looked) : RunsStand d.selectLastRun looked :=
  h.reselect (lastRunIndex_least d) (lastRunIndex_lt d) true

theorem selectRun (h : RunsStand d looked) (index : ℤ) : RunsStand (d.selectRun index) looked := by
  refine h.reselect ?_ ?_ _
  · split <;> omega
  · split <;> omega

theorem selectRunByStart (h : RunsStand d looked) (startOffset startTimestamp : ℤ) :
    RunsStand (d.selectRunByStart startOffset startTimestamp) looked := by
  unfold Document.selectRunByStart
  dsimp only
  split
  · exact h.selectRun _
  · exact h.selectLastRun

theorem retargetLastRun (h : RunsStand d looked) : RunsStand d.retargetLastRun.1 looked := by
  unfold Document.retargetLastRun
  split
  · exact h
  · split
    · exact h
    · exact h.reselect (lastRunIndex_least d) (lastRunIndex_lt d) _

/-- Records behind those there were bound no run anew. -/
theorem grow (h : RunsStand d looked) {source : Bytes} {index : RecordIndex}
    (hgrown : RowsGrown d.index.records index.records) :
    RunsStand {d with source := source,index := index} looked where
  settled := h.settled.congr rfl rfl
  least := h.least
  selected := h.selected
  idle := h.idle
  divided := h.divided
  looked := h.looked.trans (by simpa using hgrown.offsets.length_le)
  starts := fun r hr => (h.starts r hr).trans (hgrown.recordAt ((h.divided.inside r hr).trans_le h.looked)).symm
  ascend := hgrown.ascend

/-- A detection divides all records anew. -/
theorem detected {e : Document} (h : RunsStand d looked) (hkeeps : KeepsRuns d e) (hruns : e.runs=e.detectedRuns)
    (hsettled : e.BoundsSettled) (hleast : -1 ≤ e.selectedRun) (hselected : e.selectedRun<e.runs.length) :
    RunsStand e d.index.records.length where
  settled := hsettled
  least := hleast
  selected := hselected
  idle := by
    intro hoff
    rw [hruns,detectedRuns,hoff]
    rfl
  divided := by
    rw [hruns,← hkeeps.index]
    exact e.detectedRuns_partition
  looked := by rw [hkeeps.index]
  starts := by
    rw [hruns,detectedRuns]
    split
    · exact foldl_foldRun_starts _ (by simp)
    · simp
  ascend := by
    rw [hkeeps.index]
    exact h.ascend

theorem detectRuns (h : RunsStand d looked) : RunsStand d.detectRuns d.index.records.length := by
  have hruns := d.detectRuns_settled
  have hset : d.detectRuns.toSetup=d.toSetup := by rw [detectRuns_eq]
  have hbounds := boundsSettled_detectRuns d
  cases hon : d.runsDetected with
  | true =>
    have hselected := hbounds.selected (by rwa [runsDetected_congr hset])
    refine h.detected (keepsRuns_detectRuns d) hruns hbounds ?_ hselected
    rw [detectRuns_selectedRun]
    split
    · omega
    · exact h.least
  | false =>
    have hnone : d.detectRuns.runs=[] := by rw [detectRuns_runs,detectedRuns,hon]; rfl
    have hkept : d.detectRuns.selectedRun=d.selectedRun := by rw [detectRuns_selectedRun,hon]; rfl
    have hlt := h.selected
    rw [h.idle hon] at hlt
    refine h.detected (keepsRuns_detectRuns d) hruns hbounds ?_ ?_
    · rw [hkept]
      exact h.least
    · rw [hkept,hnone]
      exact hlt

theorem setRunStart (h : RunsStand d looked) (pattern : Text) (regex : Bool) (cs : CaseSensitivity) :
    RunsStand (d.setRunStart pattern regex cs) d.index.records.length := by
  have hkeeps := keepsRuns_setRunStart d pattern regex cs
  refine h.detected hkeeps ?_ (boundsSettled_selectLastRun _) ?_ ?_
  · exact (keepsRuns_selectLastRun _).settled (detectRuns_settled _)
  · rw [Document.setRunStart,Document.selectLastRun,recomputeViewBounds_selectedRun]
    exact lastRunIndex_least _
  · rw [Document.setRunStart,Document.selectLastRun,recomputeViewBounds_selectedRun,recomputeViewBounds_runs]
    exact lastRunIndex_lt _

/-- New runs are put behind those there were. -/
theorem update (h : RunsStand d looked) {n : ℕ} (hn : looked ≤ n) :
    RunsStand (d.updateRunsAfterAppend n) d.index.records.length := by
  obtain ⟨added,hadd,-⟩ := d.foldl_foldRun_added d.runs (List.range' n (d.index.records.length-n))
  have hruns := d.updateRunsAfterAppend_runs n
  have hlonger : d.runs.length≤(d.updateRunsAfterAppend n).runs.length := by
    rw [hruns]
    split
    · simp [hadd]
    · exact le_rfl
  have hpart := d.foldl_foldRun_partition (h.divided.mono hn) (d.index.records.length-n)
  refine ⟨h.settled.update n,?_,?_,?_,?_,?_,?_,?_⟩
  · rw [(d.updateRunsAfterAppend_selectedRun n).1]
    exact h.least
  · rw [(d.updateRunsAfterAppend_selectedRun n).1]
    have := h.selected
    omega
  · rw [runsDetected_congr (d.updateRunsAfterAppend_toSetup n),hruns]
    intro hoff
    rw [hoff]
    exact h.idle hoff
  · rw [hruns]
    split
    · by_cases hlen : n≤d.index.records.length
      · rwa [Nat.add_sub_cancel' hlen] at hpart
      · rw [Nat.sub_eq_zero_of_le (not_le.mp hlen).le]
        exact h.divided.mono h.looked
    · exact h.divided.mono h.looked
  · rw [updateRunsAfterAppend_index]
  · intro r hr
    rw [Document.recordAt,updateRunsAfterAppend_index]
    rw [hruns] at hr
    split at hr
    · exact foldl_foldRun_starts _ h.starts r hr
    · exact h.starts r hr
  · rw [updateRunsAfterAppend_index]
    exact h.ascend

/-- Records lie in the order of their rows. -/
theorem offset_lt (h : RunsStand d looked) {i j : ℕ} (hi : i<d.index.records.length)
    (hj : j<d.index.records.length) :
    (d.recordAt i).offset<(d.recordAt j).offset ↔ i<j := by
  have hasc := List.pairwise_iff_getElem.mp h.ascend
  rw [Document.recordAt,Document.recordAt,List.getD_eq_getElem _ _ hi,List.getD_eq_getElem _ _ hj]
  constructor
  · intro hlt
    by_contra hge
    obtain heq | hgt := (not_lt.mp hge).eq_or_lt
    · simp only [heq] at hlt
      exact lt_irrefl _ hlt
    · exact lt_asymm hlt (hasc j i hj hi hgt)
  · exact hasc i j hi hj

theorem active (h : RunsStand d looked) (hne : d.runs≠[]) : d.runStartActive=true := by
  by_contra hoff
  apply hne
  apply h.idle
  simp [runsDetected,hoff]

theorem selection_none (h : d.selectedRun=-1) : d.selection d.runStartActive=none := by
  simp [RunSelection.selection,h]

theorem selection_some (h : RunsStand d looked) {i : ℕ} {run : Run} (hi : d.selectedRun=i)
    (hrun : d.runs[i]?=some run) :
    d.selection d.runStartActive=some run := by
  have hne : d.runs≠[] := by
    intro hnil
    simp [hnil] at hrun
  rw [RunSelection.selection,h.active hne,hi,if_neg (by simp)]
  exact hrun

/-- One of the runs is selected, or none is. -/
theorem selected_cases (h : RunsStand d looked) :
    d.selectedRun=-1 ∨ ∃(i : ℕ) (run : Run),d.selectedRun=i ∧ d.runs[i]?=some run := by
  obtain hneg | hpos := lt_or_ge d.selectedRun 0
  · exact Or.inl (le_antisymm (by omega) h.least)
  · obtain ⟨i,hi⟩ := Int.eq_ofNat_of_zero_le hpos
    have hlt : i<d.runs.length := by
      have := h.selected
      omega
    exact Or.inr ⟨i,d.runs[i],hi,List.getElem?_eq_getElem hlt⟩

/-- Without a run the view has no bound. -/
theorem unbounded (h : RunsStand d looked) (hnone : d.selectedRun=-1) :
    d.viewRestricted=false ∧ ∀r,d.inRunBound r=true := by
  constructor
  · rw [h.settled.restricted,selection_none hnone]
    rfl
  · intro r
    rw [h.settled.inRunBound,selection_none hnone]

/-- With one it has that run's. -/
theorem bounded (h : RunsStand d looked) {i : ℕ} {run : Run} (hi : d.selectedRun=i) (hrun : d.runs[i]?=some run) :
    d.viewRestricted=true ∧ d.viewStart=run.startOffset ∧
      d.viewEnd=d.runs[i+1]?.map (fun next => (next.startOffset : ℤ)) := by
  have hsome := h.selection_some hi hrun
  have hset : d.toRunSelection.bounded d.runStartActive={d.toRunSelection with
      viewRestricted := true,viewStart := run.startOffset
      viewEnd := d.runs[i+1]?.map (fun next => (next.startOffset : ℤ))} := by
    have hto : d.selectedRun.toNat=i := by rw [hi,Int.toNat_natCast]
    rw [RunSelection.bounded,hsome,hto]
  have hb := h.settled.bounds.trans hset
  exact ⟨congrArg RunSelection.viewRestricted hb,congrArg RunSelection.viewStart hb,
    congrArg RunSelection.viewEnd hb⟩

/-- The records in bound are the run's. -/
theorem inBound (h : RunsStand d looked) {i : ℕ} {run : Run} (hi : d.selectedRun=i)
    (hrun : d.runs[i]?=some run) {row : ℕ} (hrow : row<d.index.records.length) :
    d.inRunBound (d.recordAt row)=true ↔ run.startRecord ≤ row ∧ row<d.endOf i := by
  have inside : ∀r∈d.runs,r.startRecord<d.index.records.length := fun r hr =>
    (h.divided.inside r hr).trans_le h.looked
  have hmem := List.mem_of_getElem? hrun
  have hstart : run.startOffset≤(d.recordAt row).offset ↔ run.startRecord ≤ row := by
    rw [h.starts run hmem,← not_lt,h.offset_lt hrow (inside run hmem),not_lt]
  rw [h.settled.inRunBound,h.selection_some hi hrun]
  simp only [hi,Int.toNat_natCast,Document.endOf,Bool.and_eq_true,decide_eq_true_eq,hstart]
  cases hnext : d.runs[i+1]? with
  | none => simp [hrow]
  | some next =>
    have hmem' := List.mem_of_getElem? hnext
    have hend : (d.recordAt row).offset<next.startOffset ↔ row<next.startRecord := by
      rw [h.starts next hmem',h.offset_lt hrow (inside next hmem')]
    simp [hend]

end RunsStand

/-- Where the selected run starts, if one is selected. -/
def selectedStart (d : Document) : Option ℕ := (d.selection d.runStartActive).map Run.startOffset

private theorem RunsStand.selectedStart_update (h : RunsStand d looked) (n : ℕ) :
    (d.updateRunsAfterAppend n).selectedStart=d.selectedStart := by
  have hactive : (d.updateRunsAfterAppend n).runStartActive=d.runStartActive :=
    congrArg Setup.runStartActive (d.updateRunsAfterAppend_toSetup n)
  have hsel := (d.updateRunsAfterAppend_selectedRun n).1
  have hruns := d.updateRunsAfterAppend_runs n
  unfold selectedStart RunSelection.selection
  rw [hactive,hsel]
  split
  · rfl
  · rename_i hopen
    rw [hruns]
    split
    · obtain ⟨added,hadd,-⟩ := d.foldl_foldRun_added d.runs (List.range' n (d.index.records.length-n))
      have := h.selected
      simp only [Bool.or_eq_true,decide_eq_true_eq,not_or,not_lt] at hopen
      rw [hadd,List.getElem?_append_left (by omega)]
    · rfl

/-- Followed, the last run is selected; not followed, the selection is left. -/
theorem retargetLastRun_follows (h : d.followLastRun=true) : d.retargetLastRun.1.selectedRun=d.lastRunIndex := by
  rw [retargetLastRun,h]
  simp only [Bool.not_true,Bool.false_eq_true,if_false]
  split
  · rename_i hlast
    exact hlast.symm
  · exact recomputeViewBounds_selectedRun _

private theorem retargetLastRun_kept (h : d.followLastRun=false) : d.retargetLastRun=(d,false) := by
  rw [retargetLastRun,h]
  rfl

end Document

namespace RunSession

variable {s : RunSession} {e : RunEvent} {events : List RunEvent}

private theorem stands_step (h : s.document.RunsStand s.looked) (hallowed : s.Allowed e) :
    (s.step e).document.RunsStand (s.step e).looked := by
  cases e with
  | grow source index => exact h.grow hallowed
  | setRunStart pattern regex cs => exact h.setRunStart pattern regex cs
  | detectRuns => exact h.detectRuns
  | updateRunsAfterAppend oldRecordCount => exact h.update hallowed
  | selectRun index => exact h.selectRun index
  | selectLastRun => exact h.selectLastRun
  | selectRunByStart startOffset startTimestamp => exact h.selectRunByStart startOffset startTimestamp
  | retargetLastRun => exact h.retargetLastRun

private theorem stands_run (h : s.document.RunsStand s.looked) (hallowed : s.AllAllowed events) :
    (s.run events).document.RunsStand (s.run events).looked := by
  induction events generalizing s with
  | nil => exact h
  | cons e events ih => exact ih (stands_step h hallowed.1) hallowed.2

private theorem stands_opened (platform : Platform) (format : LogFormat) (decoder : Decoder) (sourceZone : Zone)
    (source : Bytes) {index : RecordIndex} (hascend : index.records.Pairwise (fun r s => r.offset<s.offset)) :
    (opened platform format decoder sourceZone source index).document.RunsStand 0 where
  settled := ⟨rfl,fun hon => by cases hon⟩
  least := le_rfl
  selected := by
    change (-1 : ℤ) < (0 : ℕ)
    decide
  idle := fun _ => rfl
  divided := .nil 0
  looked := Nat.zero_le _
  starts := fun r hr => by cases hr
  ascend := hascend

/-- Bytes arrive, the runs are brought up to them, or the selection is asked to follow. -/
def Arrives : RunEvent→Prop
  | .grow _ _ | .updateRunsAfterAppend _ | .retargetLastRun => True
  | _ => False

/-- In every state a session reaches the view is bound to the selected run's records, or to none when no
run is selected; a followed selection is moved to the last run, and one that is not followed stays. -/
theorem run_bounds_view (platform : Platform) (format : LogFormat) (decoder : Decoder) (sourceZone : Zone)
    (source : Bytes)
    {index : RecordIndex} (hascend : index.records.Pairwise (fun r s => r.offset<s.offset)) {events : List RunEvent}
    (hallowed : (opened platform format decoder sourceZone source index).AllAllowed events) {t : RunSession}
    (ht : (opened platform format decoder sourceZone source index).run events=t) :
    (t.document.selectedRun=-1 ∨ ∃(i : ℕ) (run : Run),t.document.selectedRun=i ∧ t.document.runs[i]?=some run) ∧
    (t.document.viewRestricted=false ↔ t.document.selectedRun=-1) ∧
    (t.document.selectedRun=-1→∀r,t.document.inRunBound r=true) ∧
    (∀(i : ℕ) (run : Run),t.document.selectedRun=i→t.document.runs[i]?=some run→
      t.document.viewStart=run.startOffset ∧
      t.document.viewEnd=t.document.runs[i+1]?.map (fun next => (next.startOffset : ℤ)) ∧
      ∀row<t.document.index.records.length,
        (t.document.inRunBound (t.document.recordAt row)=true ↔ run.startRecord ≤ row ∧ row<t.document.endOf i)) ∧
    (t.document.followLastRun=true→(t.step .retargetLastRun).document.selectedRun=t.document.lastRunIndex) ∧
    (t.document.followLastRun=false→∀e,Arrives e→t.Allowed e→
      (t.step e).document.selectedStart=t.document.selectedStart ∧ (t.step e).document.followLastRun=false) := by
  have h := ht ▸ stands_run (stands_opened platform format decoder sourceZone source hascend) hallowed
  refine ⟨h.selected_cases,?_,fun hnone => (h.unbounded hnone).2,fun i run hi hrun => ?_,?_,?_⟩
  · constructor
    · intro hopen
      obtain hnone | ⟨i,run,hi,hrun⟩ := h.selected_cases
      · exact hnone
      · rw [(h.bounded hi hrun).1] at hopen
        cases hopen
    · exact fun hnone => (h.unbounded hnone).1
  · obtain ⟨-,hstart,hend⟩ := h.bounded hi hrun
    exact ⟨hstart,hend,fun row hrow => h.inBound hi hrun hrow⟩
  · exact Document.retargetLastRun_follows
  · intro hpin e harrives hallowed
    cases e with
    | grow source index => exact ⟨rfl,hpin⟩
    | updateRunsAfterAppend n =>
      exact ⟨h.selectedStart_update n,(t.document.updateRunsAfterAppend_selectedRun n).2.trans hpin⟩
    | retargetLastRun =>
      rw [step,Document.retargetLastRun_kept hpin]
      exact ⟨rfl,hpin⟩
    | _ => exact absurd harrives id

/-- A log of lines that each begin a run, read on while the first run is looked at. -/
theorem run_bounds_view_pinned : ∃t : RunSession,(opened .ascii (.plain [0x5B]) .latin1 (.fixed 0)
    [0x5B,0x0A,0x5B,0x0A]
      {RecordIndex.empty with records := [⟨0,0,2,0,0,1,.unknown⟩,⟨2,0,2,0,0,1,.unknown⟩]}).run
        [.setRunStart [0x5B] false .sensitive,.selectRun 0,.grow [0x5B,0x0A,0x5B,0x0A,0x5B,0x0A]
          {RecordIndex.empty with records := [⟨0,0,2,0,0,1,.unknown⟩,⟨2,0,2,0,0,1,.unknown⟩,
            ⟨4,0,2,0,0,1,.unknown⟩]},.updateRunsAfterAppend 2]=t ∧
    t.document.runs.length=3 ∧ (t.document.viewRestricted=false ↔ t.document.selectedRun=-1) := by
  refine ⟨_,rfl,?_,?_⟩
  · decide
  · refine (run_bounds_view .ascii (.plain [0x5B]) .latin1 (.fixed 0) [0x5B,0x0A,0x5B,0x0A] (by decide) ?_ rfl).2.1
    refine ⟨trivial,trivial,⟨?_,?_⟩,?_,trivial⟩
    · decide
    · decide
    · change 2 ≤ 2
      decide

end RunSession

namespace LiveController

/-- What a batch makes of the index is growth. -/
theorem tick_grown {c : LiveController} (hp : Placed c.document.source c.document.index.records) (more : Bytes) :
    RowsGrown c.document.index.records (c.tick more).document.index.records where
  offsets := by
    have hlen := c.tick_length more hp
    rw [List.prefix_iff_getElem]
    refine ⟨by simpa using hlen,fun i hi => ?_⟩
    rw [List.length_map] at hi
    have hoff := tick_offset hp hi more
    rw [Document.recordAt,Document.recordAt,List.getD_eq_getElem _ _ hi,List.getD_eq_getElem _ _
      (hi.trans_le hlen)] at hoff
    simpa using hoff.symm
  ascend := by
    obtain ⟨tail,-,-,-,-,hplaced⟩ := c.tick_records more hp
    exact hplaced.ascend

end LiveController

end Loftail
