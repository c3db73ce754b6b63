import Loftail.LiveController
import Loftail.SpooledLogSource

/-! # The watch over a spooled document

A tick reads the spool several times, and the fetcher goes on between the reads. The owner of the
document answers a request to resume it, or does not; the grace period is over, or is not. -/
namespace Loftail
open Reads

/-- What opening a log settles from its first bytes, its externals as functions of them. The
provider has no format where the pattern does not compile. -/
structure Opening where
  detect : Bytes→Decoder
  formatFor : Bytes→Option LogFormat
  sourceZone : LogFormat→Zone
  displayZone : Zone→Zone

/-- One encoding, one zone, and no format but the one there is. -/
def Opening.plain : Opening := ⟨fun _ => .latin1,fun _ => none,fun _ => .fixed 0,id⟩

namespace Document

/-- The bytes a format is settled against. -/
def kSampleBytes : ℕ := 64*1024

def clearIndex (d : Document) : Document :=
  let d := {d with index := RecordIndex.empty,filtered := .cleared}.clearDigest
  let d := {d with runs := [],selectedRun := -1}.recomputeViewBounds.invalidateRunMemos
  {d with index := d.index.rebuildBlockSums}

/-- The encoding, the format and the zones of a log with these contents. -/
def settle (d : Document) (p : Opening) (content : Bytes) : Document :=
  let sample := content.take kSampleBytes
  let format := (p.formatFor sample).getD d.format
  {d with decoder := p.detect sample,format := format,sourceZone := p.sourceZone format
          displayZone := p.displayZone (p.sourceZone format)}

/-- Read again from the beginning, and everything derived from the index with it. -/
def reload (d : Document) (content : Bytes) : Document :=
  let d := (d.rescan content).refreshHighlighting
  if d.filters.anyActive || d.viewRestricted then d.applyFilters else d

end Document

/-- The live controller of a spooled document, the document's source, its states, and the size
the source had when the index was last brought up to date. -/
structure SpoolWatch where
  controller : LiveController
  source : SpooledLogSource
  formatSettled : Bool
  waiting : Bool
  stale : Bool
  lastSize : ℕ
  completed : Bool

/-- What a tick finds outside the spool: the owner answers, the grace period is not over. -/
structure Tick where
  answers : Bool
  withinGrace : Bool

/-- All the source's bytes. -/
def SpooledLogSource.content (src : SpooledLogSource) : Reads SourceSpool Bytes :=
  look fun s => (s.files src.generation).take src.size

namespace SpoolWatch
variable (p : Opening)

def document (w : SpoolWatch) : Document := w.controller.document

def setDocument (w : SpoolWatch) (d : Document) : SpoolWatch :=
    {w with controller := {w.controller with document := d}}

def syncBaseline (w : SpoolWatch) : SpoolWatch := {w with lastSize := w.source.size}

/-- A document that has nothing to show cannot be stale. -/
def beginStale (w : SpoolWatch) : SpoolWatch := {w with stale := w.stale || !w.waiting}

def endStale (w : SpoolWatch) : SpoolWatch := {w with stale := false}

def beginWaiting (w : SpoolWatch) : SpoolWatch :=
  {w.setDocument w.document.clearIndex with waiting := true,stale := false,lastSize := 0}

def canShowCachedWhileGone (w : SpoolWatch) : Bool := !w.document.index.records.isEmpty

/-- The registry finds the live spool, so that the log opens anew. -/
def doRescan (w : SpoolWatch) : Reads SourceSpool SpoolWatch := do
  let src ← SpooledLogSource.openSource
  let content ← src.content
  return {w.setDocument (w.document.reload content) with source := src}.syncBaseline

/-- `Document::resume`: where no format was settled yet, it is now. -/
def resume (w : SpoolWatch) : Reads SourceSpool SpoolWatch := do
  let src ← SpooledLogSource.openSource
  let content ← src.content
  let d := if w.formatSettled then w.document else w.document.settle p content
  return {w.setDocument (d.reload content) with
    source := src,waiting := false,formatSettled := w.formatSettled || decide (0 < content.length)}

/-- Whether the tail scan has nothing to report. -/
def tailEmpty (d : Document) : Bool :=
  match d.indexer.scanAppendedTail d.source d.startOffset d.index.loggers d.index.threads with
  | none => true
  | some (tail,_,_) => tail.isEmpty

def ingestAppended (w : SpoolWatch) : Reads SourceSpool SpoolWatch := do
  let content ← w.source.content
  let w := w.setDocument {w.document with source := content}
  let ingested := {w with controller := w.controller.ingestAppended}
  return if tailEmpty w.document then ingested else ingested.syncBaseline

/-- The owner resumes the document, or the bytes land by the format there is. -/
def settleFirstBytes (answers : Bool) (w : SpoolWatch) : Reads SourceSpool SpoolWatch := do
  let w ← if answers then w.resume p else Pure.pure w
  if w.waiting then return w
  if w.formatSettled then return w.syncBaseline else w.ingestAppended

def start (answers : Bool) (w : SpoolWatch) : Reads SourceSpool SpoolWatch := do
  if w.waiting || w.formatSettled then return w.syncBaseline
  let src ← w.source.refreshSize
  let w := {w with source := src}
  if src.size=0 then return w.syncBaseline
  let w ← w.settleFirstBytes p answers
  return w.syncBaseline

/-- A document opened over a spool: it waits where the origin is gone or has not answered. -/
def openDocument (d : Document) : Reads SourceSpool SpoolWatch := do
  let src ← SpooledLogSource.openSource
  let content ← src.content
  let d := d.settle p content
  let settled := decide (0 < content.length)
  let gone ← SpooledLogSource.originVanished
  let early ← if gone then Pure.pure false else SpooledLogSource.notReadyYet
  if gone || early then return ⟨⟨d.clearIndex,.none⟩,src,settled,true,false,0,false⟩
  return ⟨⟨d.reload content,.none⟩,src,settled,false,false,0,false⟩

def checkWhileWaiting (tick : Tick) (w : SpoolWatch) : Reads SourceSpool SpoolWatch := do
  let gone ← SpooledLogSource.originVanished
  let early ← if gone then Pure.pure false else SpooledLogSource.notReadyYet
  if gone || early || !tick.answers then return w
  let w ← w.resume p
  return w.syncBaseline

/-- A source that was complete before its size was refreshed has no more to give. -/
def finish (sourceFinished : Bool) (w : SpoolWatch) : SpoolWatch := {w with completed := sourceFinished}

/-- The bytes that arrived, whether they are the first. -/
def takeArrived (tick : Tick) (sourceFinished : Bool) (w : SpoolWatch) : Reads SourceSpool SpoolWatch := do
  if !w.formatSettled && decide (0 < w.source.size) then
    let w ← w.settleFirstBytes p tick.answers
    return if w.waiting then w else w.finish sourceFinished
  else if w.lastSize < w.source.size then
    let w ← w.ingestAppended
    return w.finish sourceFinished
  else return w.syncBaseline.finish sourceFinished

/-- A stale document stays so until its source delivers. -/
def checkDelivery (w : SpoolWatch) : Reads SourceSpool SpoolWatch := do
  if w.stale then
    let delivering ← SpooledLogSource.isDelivering
    return if delivering then w.endStale else w.beginStale
  else return w.endStale

/-- The source is refreshed: replaced or truncated, it is read again; gone, its records are
shown as long as there are any. -/
def checkRefreshed (tick : Tick) (sourceFinished replaced : Bool) (w : SpoolWatch) :
    Reads SourceSpool SpoolWatch := do
  if replaced || w.source.truncated || decide (w.source.size < w.lastSize) then w.endStale.doRescan
  else
    let gone ← SpooledLogSource.originVanished
    if gone then
      return if tick.withinGrace then w else if w.canShowCachedWhileGone then w.beginStale else w.beginWaiting
    else
      let w ← w.checkDelivery
      w.takeArrived p tick sourceFinished

/-- The refresh adopts the generation it finds. -/
def refresh (tick : Tick) (sourceFinished replaced : Bool) (w : SpoolWatch) : Reads SourceSpool SpoolWatch := do
  let src ← w.source.refreshSize
  {w with source := src}.checkRefreshed p tick sourceFinished replaced

/-- What a stale document shows stays until the source that replaced its own has something. -/
def checkReplaced (tick : Tick) (sourceFinished replaced : Bool) (w : SpoolWatch) :
    Reads SourceSpool SpoolWatch := do
  if replaced && w.stale then
    let early ← SpooledLogSource.notReadyYet
    if early then return w.beginStale else w.refresh p tick sourceFinished replaced
  else w.refresh p tick sourceFinished replaced

/-- `LiveController::checkNow`. The state is read before the size, the replacement test and the
readiness of a stale document's source before the refresh. -/
def checkNow (tick : Tick) (w : SpoolWatch) : Reads SourceSpool SpoolWatch := do
  if w.completed then return w
  if w.waiting then w.checkWhileWaiting p tick
  else
    let sourceFinished ← SpooledLogSource.isComplete
    let replaced ← w.source.wasReplaced
    w.checkReplaced p tick sourceFinished replaced

end SpoolWatch

end Loftail
