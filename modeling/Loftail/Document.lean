import Loftail.ContextEmitter
import Loftail.FilteredIndex
import Loftail.Highlight
import Loftail.Indexer

/-! # One open log: its index, and everything derived from the index -/
namespace Loftail

/-- One program start and the records up to the next. -/
structure Run where
  startRecord : ℕ
  startOffset : ℕ
  startTimestamp : ℤ
  firstLine : Text
  isPreamble : Bool
  deriving DecidableEq

/-- A base instant and the cursor its search gave up at; -1 before any search. -/
structure Baseline where
  ts : ℤ
  scanned : ℤ
  deriving DecidableEq

def Baseline.fresh : Baseline := ⟨kNoTimestamp,-1⟩

structure RunStats where
  firstTimestamp : ℤ
  lastTimestamp : ℤ
  fatal : ℕ
  error : ℕ
  warn : ℕ
  deriving DecidableEq

def RunStats.zero : RunStats := ⟨kNoTimestamp,kNoTimestamp,0,0,0⟩

/-- Statistics folded so far and the cursor they were folded up to. -/
structure RunStatsMemo where
  stats : RunStats
  scanned : ℤ
  deriving DecidableEq

def RunStatsMemo.fresh : RunStatsMemo := ⟨.zero,-1⟩

/-- What a document is read and shown with. No batch of appended bytes changes it. -/
structure Setup where
  platform : Platform
  format : LogFormat
  decoder : Decoder
  sourceZone : Zone
  displayZone : Zone
  filters : FilterSet
  contextBefore : ℕ
  contextAfter : ℕ
  runStartMatcher : TextMatcher
  runStartActive : Bool

/-- The run list, the run selected in it and the byte interval that run bounds the view to. -/
structure RunSelection where
  runs : List Run
  selectedRun : ℤ
  followLastRun : Bool
  viewRestricted : Bool
  viewStart : ℤ
  viewEnd : Option ℤ

/-- What queries about runs have left behind. -/
structure RunMemos where
  runBase : List Baseline
  fileBase : Baseline
  runHint : ℤ
  runStats : List RunStatsMemo
  fileStats : RunStatsMemo

def RunMemos.fresh : RunMemos := ⟨[],.fresh,-1,[],.fresh⟩

structure Document extends Setup,RunSelection,RunMemos where
  source : Bytes
  index : RecordIndex
  filtered : FilteredIndex
  highlighters : HighlighterSet
  digest : FilteredIndex
  digestLast : List ℤ

/-- A document that nothing has been read into. -/
def Document.make (platform : Platform) (format : LogFormat) (decoder : Decoder) (sourceZone : Zone) : Document :=
  {platform,format,decoder,sourceZone,displayZone := sourceZone,filters := .inert,contextBefore := 0
   contextAfter := 0,runStartMatcher := .empty,runStartActive := false,runs := [],selectedRun := -1
   followLastRun := true,viewRestricted := false,viewStart := -(2^63),viewEnd := none,toRunMemos := .fresh
   source := [],index := .empty,filtered := .cleared,highlighters := ⟨[],[]⟩
   digest := .setVisible [] [] [],digestLast := []}

/-- A document of records that begin with a bracket. -/
def Document.bracketed : Document := .make .ascii (.plain (Loftail.latin1 "[")) .latin1 (.fixed 0)

/-- A document of records that begin with a level. -/
def Document.levelled : Document := .make .ascii .levelled .latin1 (.fixed 0)

/-- The indexer over this document's format, decoder and zone. -/
def Setup.indexer (d : Setup) : Indexer :=
  {platform := d.platform,format := d.format,decoder := d.decoder,sourceZone := d.sourceZone
   chunkBytes := kChunkBytes,chunk := by decide}

namespace Document

/-- `Document::kMaxContext`. -/
def kMaxContext : ℤ := 1000

def recordBytes (d : Document) (rec : Record) : Bytes := bytesAt d.source rec.offset rec.length

/-- The record at a row; every caller is in range. -/
def recordAt (d : Document) (row : ℕ) : Record := d.index.records.getD row default

def recordFirstLine (d : Document) (rec : Record) : Text :=
  if (d.recordBytes rec).isEmpty then [] else (d.decoder.firstLine (d.recordBytes rec)).1

/-- Trailing newlines and carriage returns chopped. -/
def chopNewlines (text : Text) : Text := (text.reverse.dropWhile (fun c => c=0x0A || c=0x0D)).reverse

/-- The text the message axis searches: the tail of the first line past the record
prefix, then the continuation lines. -/
def messageText (d : Document) (rec : Record) : Text :=
  let bytes := d.recordBytes rec
  if bytes.isEmpty then []
  else if d.format.msgGroup≤0 then chopNewlines (d.decoder.decode bytes)
  else
    let (firstLine,firstEnd) := d.decoder.firstLine bytes
    let value := match d.format.recordStartRe.exec firstLine with
      | some m => firstLine.drop m.capturedEnd
      | none => firstLine
    if firstEnd<bytes.length then
      let rest := chopNewlines (d.decoder.decode (bytes.drop firstEnd))
      if rest.isEmpty then value else value++0x0A::rest
    else value

/-! The visible subset. -/

def setContext (d : Document) (before after : ℤ) : Document :=
  {d with contextBefore := (max 0 (min before kMaxContext)).toNat
          contextAfter := (max 0 (min after kMaxContext)).toNat}

def inRunBound (d : Document) (r : Record) : Bool :=
  !d.viewRestricted || (decide (d.viewStart≤r.offset) &&
    match d.viewEnd with
    | some e => decide ((r.offset : ℤ)<e)
    | none => true)

def matchesFilters (d : Document) (r : Record) : Bool := d.filters.accepts d.platform r (d.messageText r)

def acceptsInView (d : Document) (r : Record) : Bool := d.inRunBound r && d.matchesFilters r

def inContextStream (d : Document) (r : Record) : Bool := d.inRunBound r && d.filters.acceptsIntegerAxes r

def matchesTextAxis (d : Document) (r : Record) : Bool :=
  if !d.filters.text.active then true else d.filters.acceptsText d.platform (d.messageText r)

/-- The walk back to the `need`-th in-bound row under `row`. -/
def windowBack (inBound : ℕ→Bool) : ℕ→ℕ→ℕ
  | 0,_ => 0
  | r+1,need =>
    if inBound r then (if need≤1 then r else windowBack inBound r (need-1)) else windowBack inBound r need

def contextWindowStart (d : Document) (row before : ℕ) : ℕ :=
  if before=0 then row else windowBack (fun r => d.inContextStream (d.recordAt r)) row before

def applyFilters (d : Document) : Document :=
  if !d.viewRestricted && !d.filters.anyActive then {d with filtered := .cleared} else
    let out := (emitWithContext 0 d.index.records.length d.contextBefore d.contextAfter .initial
      (fun row => d.inContextStream (d.recordAt row)) (fun row => d.matchesTextAxis (d.recordAt row))).2
    {d with filtered := .setVisible d.index.records (out.map Prod.fst) (out.map Prod.snd)}

/-! Runs. -/

def lastRunIndex (d : Document) : ℤ := (d.runs.length : ℤ)-1

/-- The run starts are looked for at all. -/
def runsDetected (d : Document) : Bool :=
  d.runStartActive && !d.runStartMatcher.isEmpty && d.runStartMatcher.valid

/-- The byte interval of the selected run. The last run has no end: no offset reaches the
greatest `qint64`. -/
def recomputeViewBounds (d : Document) : Document :=
  let open_ := {d with viewRestricted := false,viewStart := -(2^63),viewEnd := none}
  if !d.runStartActive || d.selectedRun<0 then open_ else
    match d.runs[d.selectedRun.toNat]? with
    | none => open_
    | some run => {d with viewRestricted := true
                          viewStart := run.startOffset
                          viewEnd := d.runs[d.selectedRun.toNat+1]?.map (fun next => (next.startOffset : ℤ))}

def makeRun (d : Document) (startRecord : ℕ) (preamble : Bool) : Run :=
  let r := d.recordAt startRecord
  ⟨startRecord,r.offset,r.timestamp,d.recordFirstLine r,preamble⟩

def startsRun (d : Document) (i : ℕ) : Bool :=
  d.runStartMatcher.matches d.platform (d.recordFirstLine (d.recordAt i))

/-- A record onto the runs so far: a marker opens a run, the first one after a preamble. -/
def foldRun (d : Document) (runs : List Run) (i : ℕ) : List Run :=
  if d.startsRun i then
    (if runs.isEmpty && decide (0 < i) then [d.makeRun 0 true] else runs)++[d.makeRun i false]
  else runs

def invalidateRunMemos (d : Document) : Document :=
  {d with toRunMemos := .fresh}

def detectRuns (d : Document) : Document :=
  let d := {d with runs := []}.invalidateRunMemos
  if !d.runsDetected then d.recomputeViewBounds else
    let d := {d with runs := (List.range d.index.records.length).foldl d.foldRun []}
    let d := if d.followLastRun || decide (d.selectedRun≥d.runs.length) then
      {d with selectedRun := d.lastRunIndex} else d
    d.recomputeViewBounds

def updateRunsAfterAppend (d : Document) (oldRecordCount : ℕ) : Document :=
  if !d.runsDetected then d else
    let n := d.index.records.length
    let rows := List.range' oldRecordCount (n-oldRecordCount)
    let changed := rows.any d.startsRun
    let d := {d with runs := rows.foldl d.foldRun d.runs}
    if changed then d.recomputeViewBounds else d

def selectRun (d : Document) (index : ℤ) : Document :=
  let selected := if 0 ≤ index ∧ index<d.runs.length then index else -1
  {d with selectedRun := selected
          followLastRun := decide (0 ≤ selected) && decide (selected=d.lastRunIndex)}.recomputeViewBounds

def selectLastRun (d : Document) : Document :=
  {d with followLastRun := true,selectedRun := d.lastRunIndex}.recomputeViewBounds

def setRunStart (d : Document) (pattern : Text) (regex : Bool) (cs : CaseSensitivity) : Document :=
  {d with runStartMatcher := .set d.platform pattern regex cs
          runStartActive := !pattern.isEmpty}.detectRuns.selectLastRun

def runRecordCount (d : Document) (i : ℕ) : ℕ :=
  match d.runs[i]? with
  | none => 0
  | some run => (match d.runs[i+1]? with
      | some next => next.startRecord
      | none => d.index.records.length)-run.startRecord

/-! The source. -/

/-- The file has grown. -/
def appendBytes (d : Document) (more : Bytes) : Document := {d with source := d.source++more}

/-- The digest is always active: no digest is no row. -/
def clearDigest (d : Document) : Document :=
  {d with digestLast := [],digest := .setVisible d.index.records [] []}

/-- The file is read again from its beginning. -/
def rescan (d : Document) (source : Bytes) : Document :=
  let d := {d with filtered := .cleared,source := source}.clearDigest.invalidateRunMemos
  match d.indexer.index source (fun _ => true) with
  | none => d
  | some (_,idx) => {d with index := idx}.detectRuns.selectLastRun

def resolveHighlighters (d : Document) : Document :=
  {d with highlighters := d.highlighters.resolve d.index d.format d.displayZone}

/-! What each step leaves alone. -/

/-- Only the view bounds move. -/
theorem recomputeViewBounds_eq (d : Document) : d.recomputeViewBounds={d with
    viewRestricted := d.recomputeViewBounds.viewRestricted,viewStart := d.recomputeViewBounds.viewStart
    viewEnd := d.recomputeViewBounds.viewEnd} := by
  unfold recomputeViewBounds
  dsimp only
  split
  · rfl
  · split <;> rfl

@[simp] theorem recomputeViewBounds_toSetup (d : Document) : d.recomputeViewBounds.toSetup=d.toSetup := by
  rw [recomputeViewBounds_eq]

@[simp] theorem recomputeViewBounds_source (d : Document) : d.recomputeViewBounds.source=d.source := by
  rw [recomputeViewBounds_eq]

@[simp] theorem recomputeViewBounds_index (d : Document) : d.recomputeViewBounds.index=d.index := by
  rw [recomputeViewBounds_eq]

@[simp] theorem recomputeViewBounds_runs (d : Document) : d.recomputeViewBounds.runs=d.runs := by
  rw [recomputeViewBounds_eq]

@[simp] theorem recomputeViewBounds_selectedRun (d : Document) :
    d.recomputeViewBounds.selectedRun=d.selectedRun := by rw [recomputeViewBounds_eq]

/-- Only the run list and the bounds it gives move. -/
theorem updateRunsAfterAppend_eq (d : Document) (n : ℕ) : d.updateRunsAfterAppend n={d with
    toRunSelection := (d.updateRunsAfterAppend n).toRunSelection} := by
  unfold updateRunsAfterAppend
  split
  · rfl
  · dsimp only
    split
    · rw [recomputeViewBounds_eq]
    · rfl

@[simp] theorem updateRunsAfterAppend_toSetup (d : Document) (n : ℕ) :
    (d.updateRunsAfterAppend n).toSetup=d.toSetup := by rw [updateRunsAfterAppend_eq]

@[simp] theorem updateRunsAfterAppend_index (d : Document) (n : ℕ) :
    (d.updateRunsAfterAppend n).index=d.index := by rw [updateRunsAfterAppend_eq]

end Document

end Loftail
