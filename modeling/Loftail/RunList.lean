import Loftail.IncrementalIndex
import Loftail.RunQueries

/-! # The run list, kept up batch by batch

New records are folded onto the runs already there. What the fold made of the trailing
record before its last bytes came is never looked at again. -/
namespace Loftail

/-- Runs that divide the first `n` records among themselves. -/
structure RunsPartition (runs : List Run) (n : ℕ) : Prop where
  first : ∀r∈runs.head?,r.startRecord=0
  ascend : runs.Pairwise (fun r s => r.startRecord<s.startRecord)
  inside : ∀r∈runs,r.startRecord<n
  preamble : ∀r∈runs.tail,r.isPreamble=false

namespace RunsPartition

variable {runs : List Run} {n : ℕ}

theorem nil (n : ℕ) : RunsPartition [] n := ⟨by simp,.nil,by simp,by simp⟩

theorem mono {m : ℕ} (h : RunsPartition runs n) (hnm : n ≤ m) : RunsPartition runs m :=
  ⟨h.first,h.ascend,fun r hr => (h.inside r hr).trans_le hnm,h.preamble⟩

/-- A run that starts behind all others. -/
theorem concat (h : RunsPartition runs n) {run : Run} (hs : run.startRecord=n) (hp : run.isPreamble=false)
    (hne : runs=[]→n=0) : RunsPartition (runs++[run]) (n+1) where
  first := by
    cases runs with
    | nil => simp [hs,hne rfl]
    | cons r rs => simpa using h.first
  ascend := by
    refine List.pairwise_append.mpr ⟨h.ascend,by simp,fun r hr s hs' => ?_⟩
    rw [List.mem_singleton.mp hs',hs]
    exact h.inside r hr
  inside := by
    intro r hr
    rcases List.mem_append.mp hr with hr | hr
    · exact (h.inside r hr).trans (Nat.lt_succ_self n)
    · rw [List.mem_singleton.mp hr,hs]
      exact Nat.lt_succ_self n
  preamble := by
    cases runs with
    | nil => simp
    | cons r rs =>
      intro s hs'
      rw [List.cons_append,List.tail_cons] at hs'
      rcases List.mem_append.mp hs' with hs' | hs'
      · exact h.preamble s hs'
      · rw [List.mem_singleton.mp hs',hp]

end RunsPartition

/-- How many of `n` records fall to each run. -/
def runCounts (n : ℕ) : List Run→List ℕ
  | [] => []
  | run::rest => ((rest.head?.map Run.startRecord).getD n-run.startRecord)::runCounts n rest

private theorem RunsPartition.counts_sum {runs : List Run} {n : ℕ} (h : RunsPartition runs n) (hne : runs≠[]) :
    (runCounts n runs).sum=n := by
  have hgen : ∀(rs : List Run) (r : Run),(r::rs).Pairwise (fun r s => r.startRecord<s.startRecord)→
      (∀s∈r::rs,s.startRecord<n)→(runCounts n (r::rs)).sum=n-r.startRecord := by
    intro rs
    induction rs with
    | nil =>
      intro r _ _
      simp [runCounts]
    | cons s rs ih =>
      intro r hasc hin
      obtain ⟨hlt,hasc⟩ := List.pairwise_cons.mp hasc
      have hs := ih s hasc (fun x hx => hin x (by simp [hx]))
      have h₁ := hlt s (by simp)
      have h₂ := hin s (by simp)
      rw [runCounts,List.sum_cons,hs]
      simp only [List.head?_cons,Option.map_some,Option.getD_some]
      omega
  obtain ⟨r,rs,rfl⟩ := List.exists_cons_of_ne_nil hne
  rw [hgen rs r h.ascend h.inside,h.first r (by simp)]
  omega

private theorem runRecordCount_eq (d : Document) (i : ℕ) :
    d.runRecordCount i=(runCounts d.index.records.length d.runs).getD i 0 := by
  unfold Document.runRecordCount
  generalize d.index.records.length=n
  induction d.runs generalizing i with
  | nil => simp [runCounts]
  | cons r rs ih =>
    cases i with
    | zero => cases rs <;> simp [runCounts]
    | succ i => simpa [runCounts] using ih i

private theorem runRecordCount_sum (d : Document) :
    ((List.range d.runs.length).map d.runRecordCount).sum=(runCounts d.index.records.length d.runs).sum := by
  have hlen : (runCounts d.index.records.length d.runs).length=d.runs.length := by
    induction d.runs with
    | nil => rfl
    | cons r rs ih => simp [runCounts,ih]
  congr 1
  refine List.ext_getElem (by simp [hlen]) fun i hi hi' => ?_
  simp [runRecordCount_eq,List.getD_eq_getElem?_getD,List.getElem?_eq_getElem hi']

namespace Document

variable {d e : Document}

/-- The runs a detection from scratch finds. -/
def detectedRuns (d : Document) : List Run :=
  if d.runsDetected then (List.range d.index.records.length).foldl d.foldRun [] else []

@[simp] theorem detectRuns_runs (d : Document) : d.detectRuns.runs=d.detectedRuns := by
  unfold detectRuns detectedRuns
  dsimp only
  by_cases h : d.runsDetected=true
  · have h' : ({d with runs := []}.invalidateRunMemos).runsDetected=true := h
    rw [if_pos h,h']
    simp only [Bool.not_true,Bool.false_eq_true,if_false,recomputeViewBounds_runs]
    split <;> rfl
  · have hd : d.runsDetected=false := by simpa using h
    have h' : ({d with runs := []}.invalidateRunMemos).runsDetected=false := hd
    rw [if_neg h,h']
    simp only [Bool.not_false,if_true,recomputeViewBounds_runs]
    rfl

private theorem foldRun_partition (d : Document) {runs : List Run} {n : ℕ} (h : RunsPartition runs n) :
    RunsPartition (d.foldRun runs n) (n+1) := by
  unfold foldRun
  split
  · cases runs with
    | nil =>
      by_cases hn : 0<n
      · have hpre : RunsPartition [d.makeRun 0 true] n :=
          ⟨by simp [makeRun],by simp,by simpa [makeRun] using hn,by simp⟩
        simpa [hn] using @RunsPartition.concat _ _ hpre (d.makeRun n false) rfl rfl (by simp)
      · have hz : n=0 := by omega
        simpa [hz] using @RunsPartition.concat _ _ (RunsPartition.nil 0) (d.makeRun 0 false) rfl rfl (fun _ => rfl)
    | cons r rs => simpa using @RunsPartition.concat _ _ h (d.makeRun n false) rfl rfl (by simp)
  · exact h.mono (Nat.le_succ n)

theorem foldl_foldRun_partition (d : Document) {runs : List Run} {n : ℕ} (h : RunsPartition runs n) (k : ℕ) :
    RunsPartition ((List.range' n k).foldl d.foldRun runs) (n+k) := by
  induction k generalizing runs n with
  | zero => simpa using h
  | succ k ih =>
    have hi := ih (d.foldRun_partition h)
    rw [List.range'_succ,List.foldl_cons]
    rwa [show n+(k+1)=n+1+k by omega]

theorem detectedRuns_partition (d : Document) : RunsPartition d.detectedRuns d.index.records.length := by
  unfold detectedRuns
  split
  · have h := d.foldl_foldRun_partition (RunsPartition.nil 0) d.index.records.length
    rwa [Nat.zero_add,← List.range_eq_range'] at h
  · exact .nil _

theorem startsRun_congr {i : ℕ} (hset : e.toSetup=d.toSetup)
    (hl : e.recordFirstLine (e.recordAt i)=d.recordFirstLine (d.recordAt i)) : e.startsRun i=d.startsRun i := by
  simp only [startsRun,hset,hl]

theorem makeRun_congr {i : ℕ} (ho : (e.recordAt i).offset=(d.recordAt i).offset)
    (ht : (e.recordAt i).timestamp=(d.recordAt i).timestamp)
    (hl : e.recordFirstLine (e.recordAt i)=d.recordFirstLine (d.recordAt i)) (preamble : Bool) :
    e.makeRun i preamble=d.makeRun i preamble := by
  simp only [makeRun,ho,ht,hl]

/-- A fold over rows sees their verdicts and labels alone. -/
theorem foldl_foldRun_congr {rows : List ℕ} {runs : List Run} (hs : ∀i∈rows,e.startsRun i=d.startsRun i)
    (hm : ∀i∈rows,d.startsRun i=true→e.makeRun i false=d.makeRun i false)
    (h0 : (∃i∈rows,0 < i)→e.makeRun 0 true=d.makeRun 0 true) :
    rows.foldl e.foldRun runs=rows.foldl d.foldRun runs := by
  induction rows generalizing runs with
  | nil => rfl
  | cons i is ih =>
    have hi : e.foldRun runs i=d.foldRun runs i := by
      unfold foldRun
      rw [hs i (by simp)]
      cases hd : d.startsRun i with
      | false => rfl
      | true =>
        rw [hm i (by simp) hd]
        by_cases hp : 0 < i
        · rw [h0 ⟨i,by simp,hp⟩]
        · simp [hp]
    rw [List.foldl_cons,List.foldl_cons,hi]
    exact ih (fun j hj => hs j (by simp [hj])) (fun j hj => hm j (by simp [hj]))
      (fun ⟨j,hj,hp⟩ => h0 ⟨j,by simp [hj],hp⟩)

/-- The fold only appends runs, and to runs it began with only those of the rows it sees. -/
theorem foldl_foldRun_added (d : Document) (runs : List Run) (rows : List ℕ) :
    ∃added,rows.foldl d.foldRun runs=runs++added ∧ (runs≠[]→∀r∈added,∃i∈rows,r=d.makeRun i false) := by
  induction rows generalizing runs with
  | nil => exact ⟨[],by simp,by simp⟩
  | cons i is ih =>
    obtain ⟨added,hadd,hmem⟩ := ih (d.foldRun runs i)
    have hmem' (hne : d.foldRun runs i≠[]) (r : Run) (hr : r∈added) : ∃j∈i::is,r=d.makeRun j false := by
      obtain ⟨j,hj,he⟩ := hmem hne r hr
      exact ⟨j,List.mem_cons_of_mem _ hj,he⟩
    rw [List.foldl_cons,hadd]
    unfold foldRun at hmem' ⊢
    cases hs : d.startsRun i with
    | false => exact ⟨added,by simp,fun hne => hmem' (by simpa [hs] using hne)⟩
    | true =>
      cases runs with
      | nil => exact ⟨_,by simp; rfl,by simp⟩
      | cons r rs =>
        refine ⟨d.makeRun i false::added,by simp,fun _ s hs' => ?_⟩
        rcases List.mem_cons.mp hs' with rfl | hs'
        · exact ⟨i,by simp,rfl⟩
        · exact hmem' (by simp [hs]) s hs'

theorem runsDetected_congr (h : e.toSetup=d.toSetup) : e.runsDetected=d.runsDetected := by
  simp only [runsDetected,h]

theorem foldRun_congr (hset : e.toSetup=d.toSetup) (hs : e.source=d.source) (hi : e.index=d.index) :
    e.foldRun=d.foldRun := by
  have hbytes (r : Record) : e.recordBytes r=d.recordBytes r := by simp only [recordBytes,hs]
  have hline (r : Record) : e.recordFirstLine r=d.recordFirstLine r := recordFirstLine_congr hset (hbytes r)
  have hat (i : ℕ) : e.recordAt i=d.recordAt i := by simp only [recordAt,hi]
  have hstart : e.startsRun=d.startsRun := by
    funext i
    simp only [startsRun,hline,hat,hset]
  have hmake : e.makeRun=d.makeRun := by
    funext i p
    simp only [makeRun,hline,hat]
  funext runs i
  simp only [foldRun,hstart,hmake]

theorem updateRunsAfterAppend_runs (d : Document) (n : ℕ) : (d.updateRunsAfterAppend n).runs=
    if d.runsDetected then (List.range' n (d.index.records.length-n)).foldl d.foldRun d.runs else d.runs := by
  unfold updateRunsAfterAppend
  cases d.runsDetected with
  | false => rfl
  | true =>
    simp only [Bool.not_true,Bool.false_eq_true,if_false,if_true]
    split
    · rw [recomputeViewBounds_runs]
    · rfl

end Document

namespace LiveController

variable {c : LiveController}

/-- A tick folds the new rows onto the runs there were. -/
theorem tick_runs (c : LiveController) (more : Bytes) : (c.tick more).document.runs=
    if c.document.runsDetected then (List.range' c.document.index.records.length
      ((c.tick more).document.index.records.length-c.document.index.records.length)).foldl
        (c.tick more).document.foldRun c.document.runs
    else c.document.runs := by
  obtain ⟨tail,l,t,hscan,⟨rfl,he⟩ | ⟨hne,he⟩⟩ := c.tick_cases more
  · rw [he]
    simp [Document.appendBytes]
  · have hview : (ingested (c.document.appendBytes more) tail l t).runs=
        ((c.document.appendBytes more).ingestRuns tail l t).runs := by
      unfold ingested
      rw [Document.ingestView_eq]
      rfl
    have hset : (c.tick more).document.toSetup=((c.document.appendBytes more).ingestIndex tail l t).toSetup := by
      rw [tick_toSetup,Document.ingestIndex_eq]
      rfl
    have hsrc : (c.tick more).document.source=((c.document.appendBytes more).ingestIndex tail l t).source := by
      rw [tick_source,Document.ingestIndex_eq]
      rfl
    have hidx : (c.tick more).document.index=((c.document.appendBytes more).ingestIndex tail l t).index := by
      rw [he,runMatchActions_index,ingested_index]
    have hruns : ((c.document.appendBytes more).ingestIndex tail l t).runs=c.document.runs := by
      rw [Document.ingestIndex_eq]
      rfl
    have hdet : ((c.document.appendBytes more).ingestIndex tail l t).runsDetected=c.document.runsDetected := by
      rw [Document.ingestIndex_eq]
      rfl
    rw [Document.foldRun_congr hset hsrc hidx,hidx,he,runMatchActions_document]
    simp only [hview]
    rw [Document.ingestRuns,Document.updateRunsAfterAppend_runs,hruns,hdet]
    rfl

/-- A batch appends runs, and to runs there were only those of new rows. -/
theorem tick_added (c : LiveController) (more : Bytes) : ∃added,(c.tick more).document.runs=c.document.runs++added ∧
    (c.document.runs≠[]→∀r∈added,∃i,c.document.index.records.length ≤ i ∧
      i<(c.tick more).document.index.records.length ∧
      r=(c.tick more).document.makeRun i false) := by
  rw [tick_runs]
  split
  · obtain ⟨added,hadd,hmem⟩ := (c.tick more).document.foldl_foldRun_added c.document.runs
      (List.range' c.document.index.records.length
        ((c.tick more).document.index.records.length-c.document.index.records.length))
    refine ⟨added,hadd,fun hne r hr => ?_⟩
    obtain ⟨i,hi,he⟩ := hmem hne r hr
    have hi := List.mem_range'_1.mp hi
    exact ⟨i,hi.1,by omega,he⟩
  · exact ⟨[],by simp,by simp⟩

/-- The re-read trailing record begins a run if it did before, under the label it had. -/
def KeepsTrailingRun (c : LiveController) (more : Bytes) : Prop :=
  c.document.runsDetected=true→∀base,c.document.index.records.length=base+1→
    (c.document.appendBytes more).reread.startsRun base=c.document.startsRun base ∧
      (c.document.startsRun base=true→
        (c.document.appendBytes more).reread.recordFirstLine ((c.document.appendBytes more).reread.recordAt base)=
            c.document.recordFirstLine (c.document.recordAt base) ∧
          ((c.document.appendBytes more).reread.recordAt base).timestamp=(c.document.recordAt base).timestamp)

/-- What the document holds of a run is what a detection would find. -/
def RunsSettled (c : LiveController) : Prop := c.document.runs=c.document.detectedRuns

private theorem tick_settled (hp : Placed c.document.source c.document.index.records)
    (h : c.RunsSettled) {more : Bytes} (hk : c.KeepsTrailingRun more) : (c.tick more).RunsSettled := by
  have hlen := c.tick_length more hp
  have hset := c.tick_toSetup more
  have hdet : (c.tick more).document.runsDetected=c.document.runsDetected := Document.runsDetected_congr hset
  unfold RunsSettled at h ⊢
  rw [tick_runs,Document.detectedRuns,hdet,h,Document.detectedRuns]
  cases hd : c.document.runsDetected with
  | false => rfl
  | true =>
    have hk := hk hd
    have hreadline (i : ℕ) : (c.document.appendBytes more).reread.recordFirstLine
        ((c.document.appendBytes more).reread.recordAt i)=
          (c.tick more).document.recordFirstLine ((c.tick more).document.recordAt i) := by
      rw [reread_recordAt hp]
      exact Document.recordFirstLine_congr (c.reread_toSetup more) (c.reread_recordBytes more _)
    -- The rows before the last are as they were; the last is by assumption.
    have hstart (i : ℕ) (hi : i<c.document.index.records.length) :
        (c.tick more).document.startsRun i=c.document.startsRun i := by
      by_cases hlast : i+1<c.document.index.records.length
      · exact Document.startsRun_congr hset (tick_firstLine hp hlast more)
      · rw [← (hk i (by omega)).1]
        exact (Document.startsRun_congr (c.reread_toSetup more) (hreadline i)).symm
    have hmake (i : ℕ) (hi : i<c.document.index.records.length) (hs : c.document.startsRun i=true) :
        (c.tick more).document.makeRun i false=c.document.makeRun i false := by
      refine Document.makeRun_congr (tick_offset hp hi more) ?_ ?_ false
      · by_cases hlast : i+1<c.document.index.records.length
        · rw [tick_recordAt hp hlast]
        · rw [← ((hk i (by omega)).2 hs).2,reread_recordAt hp]
      · by_cases hlast : i+1<c.document.index.records.length
        · exact tick_firstLine hp hlast more
        · rw [← hreadline,((hk i (by omega)).2 hs).1]
    have hzero (hi : 1<c.document.index.records.length) :
        (c.tick more).document.makeRun 0 true=c.document.makeRun 0 true :=
      Document.makeRun_congr (tick_offset hp (by omega) more) (by rw [tick_recordAt hp hi])
        (tick_firstLine hp hi more) true
    have hrange : List.range (c.tick more).document.index.records.length=
        List.range c.document.index.records.length++List.range' c.document.index.records.length
          ((c.tick more).document.index.records.length-c.document.index.records.length) := by
      have happ := List.range'_append_1 (s:=0) (m:=c.document.index.records.length)
        (n:=(c.tick more).document.index.records.length-c.document.index.records.length)
      rw [Nat.zero_add,Nat.add_sub_cancel' hlen] at happ
      rw [List.range_eq_range',List.range_eq_range',happ]
    simp only [if_true]
    rw [hrange,List.foldl_append]
    congr 1
    refine (Document.foldl_foldRun_congr (fun i hi => hstart i (List.mem_range.mp hi))
      (fun i hi hs => hmake i (List.mem_range.mp hi) hs) (fun ⟨i,hi,hpos⟩ => hzero ?_)).symm
    have := List.mem_range.mp hi
    omega

end LiveController

namespace Document

variable {d : Document}

/-- A step that touches neither the file nor its index, and the run list only to detect it anew. -/
structure KeepsRuns (d e : Document) : Prop where
  source : e.source=d.source
  index : e.index=d.index
  runs : (e.toSetup=d.toSetup ∧ e.runs=d.runs) ∨ e.runs=e.detectedRuns

theorem KeepsRuns.settled {e : Document} (h : KeepsRuns d e) (hd : d.runs=d.detectedRuns) :
    e.runs=e.detectedRuns := by
  rcases h.runs with ⟨hset,hr⟩ | hr
  · rw [hr,hd,detectedRuns,detectedRuns,runsDetected_congr hset,foldRun_congr hset h.source h.index,h.index]
  · exact hr

theorem KeepsRuns.partition {e : Document} (h : KeepsRuns d e) (hd : RunsPartition d.runs d.index.records.length) :
    RunsPartition e.runs e.index.records.length := by
  rcases h.runs with ⟨-,hr⟩ | hr
  · rwa [hr,h.index]
  · rw [hr]
    exact e.detectedRuns_partition

theorem detectRuns_eq (d : Document) : d.detectRuns={d with
    toRunSelection := d.detectRuns.toRunSelection,toRunMemos := .fresh} := by
  unfold detectRuns
  dsimp only
  split
  · rw [recomputeViewBounds_eq]
    rfl
  · split <;> rw [recomputeViewBounds_eq] <;> rfl

theorem detectRuns_settled (d : Document) : d.detectRuns.runs=d.detectRuns.detectedRuns := by
  have hset : d.detectRuns.toSetup=d.toSetup := by rw [detectRuns_eq]
  have hsrc : d.detectRuns.source=d.source := by rw [detectRuns_eq]
  have hidx : d.detectRuns.index=d.index := by rw [detectRuns_eq]
  rw [detectRuns_runs,detectedRuns,detectedRuns,runsDetected_congr hset,foldRun_congr hset hsrc hidx,hidx]

theorem keepsRuns_detectRuns (d : Document) : KeepsRuns d d.detectRuns where
  source := by rw [detectRuns_eq]
  index := by rw [detectRuns_eq]
  runs := Or.inr d.detectRuns_settled

theorem keepsRuns_selectLastRun (d : Document) : KeepsRuns d d.selectLastRun where
  source := by simp [selectLastRun]
  index := by simp [selectLastRun]
  runs := Or.inl (by simp [selectLastRun])

private theorem keepsRuns_selectRun (d : Document) (i : ℤ) : KeepsRuns d (d.selectRun i) where
  source := by simp [selectRun]
  index := by simp [selectRun]
  runs := Or.inl (by simp [selectRun])

theorem keepsRuns_applyFilters (d : Document) : KeepsRuns d d.applyFilters where
  source := by unfold applyFilters; split <;> rfl
  index := by unfold applyFilters; split <;> rfl
  runs := Or.inl (by unfold applyFilters; split <;> exact ⟨rfl,rfl⟩)

theorem keepsRuns_refreshHighlighting (d : Document) : KeepsRuns d d.refreshHighlighting where
  source := by rw [refreshHighlighting,rebuildDigest_eq]; rfl
  index := by rw [refreshHighlighting,rebuildDigest_eq]; rfl
  runs := Or.inl (by rw [refreshHighlighting,rebuildDigest_eq]; exact ⟨rfl,rfl⟩)

theorem keepsRuns_memos (d : Document) (m : RunMemos) : KeepsRuns d {d with toRunMemos := m} :=
  ⟨rfl,rfl,Or.inl ⟨rfl,rfl⟩⟩

theorem KeepsRuns.trans {e f : Document} (h : KeepsRuns d e) (h' : KeepsRuns e f) : KeepsRuns d f where
  source := h'.source.trans h.source
  index := h'.index.trans h.index
  runs := by
    rcases h'.runs with ⟨hset,hr⟩ | hr
    · rcases h.runs with ⟨hset',hr'⟩ | hr'
      · exact Or.inl ⟨hset.trans hset',hr.trans hr'⟩
      · exact Or.inr (h'.settled hr')
    · exact Or.inr hr

/-- A new rule is detected at once. -/
theorem keepsRuns_setRunStart (d : Document) (pattern : Text) (regex : Bool) (cs : CaseSensitivity) :
    KeepsRuns d (d.setRunStart pattern regex cs) where
  source := by rw [setRunStart,(keepsRuns_selectLastRun _).source,(keepsRuns_detectRuns _).source]
  index := by rw [setRunStart,(keepsRuns_selectLastRun _).index,(keepsRuns_detectRuns _).index]
  runs := Or.inr ((keepsRuns_selectLastRun _).settled (detectRuns_settled _))

/-- What opening a file anew leaves. -/
theorem rescan_spec (d : Document) (content : Bytes) :
    (d.rescan content).toSetup=d.toSetup ∧ (d.rescan content).source=content ∧
      Indexed d.indexer content (d.rescan content).index ∧
      (d.rescan content).runs=(d.rescan content).detectedRuns := by
  obtain ⟨idx,hidx,hindexed⟩ := Indexed.of_index d.indexer content
  set e : Document := {d with filtered := .cleared,source := content}.clearDigest.invalidateRunMemos with he
  have hscan : d.rescan content={e with index := idx}.detectRuns.selectLastRun := by
    unfold rescan
    dsimp only
    rw [← he]
    have hi : e.indexer.index content (fun _ => true)=some (true,idx) := hidx
    rw [hi]
  have hk := (keepsRuns_detectRuns {e with index := idx}).trans (keepsRuns_selectLastRun _)
  rw [hscan]
  refine ⟨?_,hk.source,by rwa [hk.index],(keepsRuns_selectLastRun _).settled (detectRuns_settled _)⟩
  rw [selectLastRun,recomputeViewBounds_toSetup]
  show ({e with index := idx} : Document).detectRuns.toSetup=d.toSetup
  rw [detectRuns_eq]
  rfl

end Document

namespace LiveController

variable {c : LiveController}

theorem keepsRuns_act (c : LiveController) {a : Action} (ha : ∀m,a≠.append m) :
    Document.KeepsRuns c.document (c.act a).document := by
  cases a with
  | append m => exact absurd rfl (ha m)
  | setRunStart pattern regex cs => exact Document.keepsRuns_setRunStart _ _ _ _
  | detectRuns => exact Document.keepsRuns_detectRuns _
  | selectRun i => exact Document.keepsRuns_selectRun _ i
  | selectLastRun => exact Document.keepsRuns_selectLastRun _
  | applyFilters => exact Document.keepsRuns_applyFilters _
  | refreshHighlighting => exact Document.keepsRuns_refreshHighlighting _
  | runStats i =>
    show Document.KeepsRuns _ (c.document.runStatsOf i).1
    unfold Document.runStatsOf
    split
    · exact Document.keepsRuns_memos _ c.document.toRunMemos
    · exact Document.keepsRuns_memos _ _
  | fileStats => exact Document.keepsRuns_memos _ _
  | runBaseTimestamp row =>
    show Document.KeepsRuns _ (c.document.runBaseTimestamp row).1
    unfold Document.runBaseTimestamp
    split
    · exact Document.keepsRuns_memos _ c.document.toRunMemos
    · split
      · exact Document.keepsRuns_memos _ _
      · dsimp only
        split <;> exact Document.keepsRuns_memos _ _

/-- What holds of an open log whatever has happened to it. -/
structure Consistent (c : LiveController) : Prop where
  placed : Placed c.document.source c.document.index.records
  partition : RunsPartition c.document.runs c.document.index.records.length

theorem Consistent.tick (h : c.Consistent) (more : Bytes) : (c.tick more).Consistent where
  placed := by
    obtain ⟨-,-,-,-,-,hp⟩ := c.tick_records more h.placed
    exact hp
  partition := by
    have hlen := c.tick_length more h.placed
    rw [tick_runs]
    split
    · have hf := (c.tick more).document.foldl_foldRun_partition h.partition
        ((c.tick more).document.index.records.length-c.document.index.records.length)
      rwa [Nat.add_sub_cancel' hlen] at hf
    · exact h.partition.mono hlen

theorem Consistent.act (h : c.Consistent) (a : Action) : (c.act a).Consistent := by
  by_cases ha : ∃m,a=.append m
  · obtain ⟨m,rfl⟩ := ha
    exact h.tick m
  · have hk := c.keepsRuns_act (a:=a) (fun m hm => ha ⟨m,hm⟩)
    exact ⟨by rw [hk.source,hk.index]; exact h.placed,hk.partition h.partition⟩

theorem Consistent.session (h : c.Consistent) (actions : List Action) : (c.session actions).Consistent := by
  induction actions generalizing c with
  | nil => exact h
  | cons a as ih => exact ih (h.act a)

/-- A controller that has just opened a file. -/
def reopened (c : LiveController) (content : Bytes) : LiveController := c.onDocument (fun d => d.rescan content)

theorem reopened_consistent (c : LiveController) (content : Bytes) : (c.reopened content).Consistent where
  placed := by
    obtain ⟨-,hsrc,hidx,-⟩ := c.document.rescan_spec content
    show Placed (c.document.rescan content).source (c.document.rescan content).index.records
    rw [hsrc]
    exact (placed_of_lineFold hidx.views).1
  partition := by
    obtain ⟨-,-,-,hruns⟩ := c.document.rescan_spec content
    show RunsPartition (c.document.rescan content).runs (c.document.rescan content).index.records.length
    rw [hruns]
    exact Document.detectedRuns_partition _

/-- A condition on every batch of a session, where the batch arrives. -/
def EachAppend (P : LiveController→Bytes→Prop) : LiveController→List Action→Prop
  | _,[] => True
  | c,.append m::as => P c m ∧ EachAppend P (c.tick m) as
  | c,a::as => EachAppend P (c.act a) as

theorem RunsSettled.session (hc : c.Consistent) (h : c.RunsSettled) {actions : List Action}
    (hk : EachAppend KeepsTrailingRun c actions) : (c.session actions).RunsSettled := by
  induction actions generalizing c with
  | nil => exact h
  | cons a as ih =>
    by_cases ha : ∃m,a=.append m
    · obtain ⟨m,rfl⟩ := ha
      exact ih (hc.tick m) (tick_settled hc.placed h hk.1) hk.2
    · have hrest : EachAppend KeepsTrailingRun (c.act a) as := by
        cases a with
        | append m => exact absurd ⟨m,rfl⟩ ha
        | _ => exact hk
      exact ih (hc.act a) ((c.keepsRuns_act (fun m hm => ha ⟨m,hm⟩)).settled h) hrest

/-- In every session the runs divide the records among themselves; and where every batch
keeps the run start of the trailing record, they are the runs a detection would find. -/
theorem session_runs (c : LiveController) (content : Bytes) (actions : List Action) :
    let d := ((c.reopened content).session actions).document
    RunsPartition d.runs d.index.records.length ∧
      (d.runs≠[]→((List.range d.runs.length).map d.runRecordCount).sum=d.index.records.length) ∧
      (EachAppend KeepsTrailingRun (c.reopened content) actions→d.runs=d.detectRuns.runs) := by
  have hc := c.reopened_consistent content
  have hp := (hc.session actions).partition
  refine ⟨hp,fun hne => ?_,fun hk => ?_⟩
  · rw [runRecordCount_sum,hp.counts_sum hne]
  · rw [Document.detectRuns_runs]
    exact RunsSettled.session hc (c.document.rescan_spec content).2.2.2 hk

/-- Markers on whole lines. -/
theorem session_runs_whole_lines :
    let c : LiveController := (⟨.bracketed,.none⟩ : LiveController).reopened [0x5B,0x61,0x0A]
    let d := (c.session [.setRunStart (latin1 "a") false .sensitive,.append [0x5B,0x61,0x62,0x0A]]).document
    d.runs=d.detectRuns.runs := by
  refine (session_runs ⟨.bracketed,.none⟩ [0x5B,0x61,0x0A]
    [.setRunStart (latin1 "a") false .sensitive,.append [0x5B,0x61,0x62,0x0A]]).2.2 ⟨fun _ base hb => ?_,trivial⟩
  have hz : base=0 := Nat.succ_injective (hb.symm.trans (by decide))
  subst hz
  decide

/-- A marker split between two batches: the detection finds the run, the update does not. -/
theorem session_runs_split_marker :
    let c : LiveController := (⟨.bracketed,.none⟩ : LiveController).reopened [0x5B,0x61]
    let d := (c.session [.setRunStart (latin1 "ab") false .sensitive,.append [0x62,0x0A]]).document
    d.runs≠d.detectRuns.runs := by decide

end LiveController

end Loftail
