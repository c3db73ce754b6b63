import Loftail.LiveController

/-! # Questions about runs, their answers memoised -/
namespace Loftail

namespace RunStats

/-- One record onto the statistics of those before it. -/
def fold (s : RunStats) (r : Record) : RunStats :=
  let s := if r.timestamp≠kNoTimestamp then
    {s with firstTimestamp := if s.firstTimestamp=kNoTimestamp then r.timestamp else s.firstTimestamp
            lastTimestamp := r.timestamp} else s
  match r.priority with
  | .fatal => {s with fatal := s.fatal+1}
  | .error => {s with error := s.error+1}
  | .warn => {s with warn := s.warn+1}
  | .unknown | .trace | .debug | .info => s

end RunStats

namespace RunStatsMemo

/-- The memo brought up to `stop`. An end that moved back makes it start over. -/
def foldStats (memo : RunStatsMemo) (records : List Record) (start stop : ℕ) : RunStatsMemo :=
  let memo := if memo.scanned<start || memo.scanned>stop then ⟨.zero,start⟩ else memo
  ⟨((records.take stop).drop memo.scanned.toNat).foldl RunStats.fold memo.stats,max memo.scanned stop⟩

end RunStatsMemo

namespace Baseline

/-- The first timestamp from `start` up to `stop`, its search taken up where it gave up. -/
def resolve (b : Baseline) (records : List Record) (start stop : ℕ) : Baseline :=
  if b.ts≠kNoTimestamp then b else
    let scanned := if b.scanned<0 then start else b.scanned.toNat
    let rows := (records.take stop).drop scanned
    let skipped := (rows.takeWhile (fun r => r.timestamp=kNoTimestamp)).length
    match rows[skipped]? with
    | some r => ⟨r.timestamp,scanned+skipped⟩
    | none => ⟨kNoTimestamp,max scanned stop⟩

end Baseline

namespace Document

/-- The row at which run `i` ends. -/
def endOf (d : Document) (i : ℕ) : ℕ :=
  match d.runs[i+1]? with
  | some next => next.startRecord
  | none => d.index.records.length

def runStatsOf (d : Document) (i : ℕ) : Document×RunStats :=
  match d.runs[i]? with
  | none => (d,.zero)
  | some run =>
    let memos := resized .fresh d.runStats d.runs.length
    let memo := (memos.getD i .fresh).foldStats d.index.records run.startRecord (d.endOf i)
    ({d with runStats := memos.set i memo},memo.stats)

def fileStatsOf (d : Document) : Document×RunStats :=
  let memo := d.fileStats.foldStats d.index.records 0 d.index.records.length
  ({d with fileStats := memo},memo.stats)

/-- The last run that starts at or before a row, the hint tried first. -/
def runIndexAt (d : Document) (row : ℕ) : ℤ :=
  let hinted := match (if 0≤d.runHint then d.runs[d.runHint.toNat]? else none) with
    | some run => decide (run.startRecord≤row) && decide (row<d.endOf d.runHint.toNat)
    | none => false
  if hinted then d.runHint else (d.runs.takeWhile (fun r => decide (r.startRecord≤row))).length-1

def runBaseTimestamp (d : Document) (sourceRow : ℕ) : Document×ℤ :=
  if sourceRow≥d.index.records.length then (d,kNoTimestamp)
  else if d.runs.isEmpty then
    let base := d.fileBase.resolve d.index.records 0 d.index.records.length
    ({d with fileBase := base},base.ts)
  else
    let bases := resized .fresh d.runBase d.runs.length
    let i := d.runIndexAt sourceRow
    match (if 0 ≤ i then d.runs[i.toNat]? else none) with
    | none => ({d with runBase := bases},kNoTimestamp)
    | some run =>
      let base := (bases.getD i.toNat .fresh).resolve d.index.records run.startRecord (d.endOf i.toNat)
      ({d with runBase := bases.set i.toNat base,runHint := i},base.ts)

end Document

/-- What may happen to an open log, in any order. -/
inductive Action
  | append (more : Bytes)
  | setRunStart (pattern : Text) (regex : Bool) (cs : CaseSensitivity)
  | detectRuns
  | selectRun (index : ℤ)
  | selectLastRun
  | applyFilters
  | refreshHighlighting
  | runStats (i : ℕ)
  | fileStats
  | runBaseTimestamp (sourceRow : ℕ)

namespace LiveController

def onDocument (c : LiveController) (f : Document→Document) : LiveController := {c with document := f c.document}

def act (c : LiveController) : Action→LiveController
  | .append more => c.tick more
  | .setRunStart pattern regex cs => c.onDocument (fun d => d.setRunStart pattern regex cs)
  | .detectRuns => c.onDocument Document.detectRuns
  | .selectRun i => c.onDocument (fun d => d.selectRun i)
  | .selectLastRun => c.onDocument Document.selectLastRun
  | .applyFilters => c.onDocument Document.applyFilters
  | .refreshHighlighting => c.onDocument Document.refreshHighlighting
  | .runStats i => c.onDocument (fun d => (d.runStatsOf i).1)
  | .fileStats => c.onDocument (fun d => d.fileStatsOf.1)
  | .runBaseTimestamp row => c.onDocument (fun d => (d.runBaseTimestamp row).1)

def session (c : LiveController) (actions : List Action) : LiveController := actions.foldl act c

end LiveController

end Loftail
