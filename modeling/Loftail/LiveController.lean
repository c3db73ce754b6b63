import Loftail.Digest

/-! # What a watch tick does with the bytes that have arrived -/
namespace Loftail

/-- What one batch of appended records matched. -/
structure BatchAlerts where
  tabMatches : ℕ
  notifyMatches : ℕ
  deriving DecidableEq

def BatchAlerts.none : BatchAlerts := ⟨0,0⟩

structure LiveController where
  document : Document
  lastAlerts : BatchAlerts

namespace Document

/-- The records after a batch: the re-read trailing record in its place, the new ones behind it. -/
def mergeTail (d : Document) (tail : List Record) (loggers threads : InternTable) : Document :=
  {d with index := {records := d.index.records.dropLast++tail,loggers := loggers,threads := threads
                    blockSums := d.index.blockSums}}

def extendBlockSums (d : Document) (validCount : ℕ) : Document :=
  {d with index := d.index.extendBlockSums validCount}

/-- Where the emission is taken up again: past the trailing record when that has not
changed, at it when it has, and at the start of its leading window when it also
turned into a match or out of one. -/
def candidateStart (d : Document) (oldCount base : ℕ) (provisionalChanged : Bool) : ℕ :=
  if oldCount=0 then 0
  else if !provisionalChanged then base+1
  else
    let wasMatch := decide (d.filtered.lastMatchSource=base)
    let nowMatch := d.acceptsInView (d.recordAt base)
    if decide (0<d.contextBefore) && (wasMatch != nowMatch) then d.contextWindowStart base d.contextBefore else base

/-- Trailing rows taken back, `popCount` of them. -/
def popVisible (d : Document) (popCount : ℕ) : Document :=
  if 0<popCount then
    let popped := FilteredIndex.popLastVisible^[popCount] d.filtered
    {d with filtered := popped.extendCompactSums (popped.recordCount d.index.records)}
  else d

/-- The emitter's state, read back off the visible rows. -/
def resumeState (d : Document) : ContextState :=
  let lastMatch := d.filtered.lastMatchSource
  ⟨d.filtered.lastVisibleSource,lastMatch,
    if 0≤lastMatch then d.filtered.trailingCountFrom (lastMatch+1) else 0⟩

def appendPassing (d : Document) (passing : List Emitted) : Document :=
  if passing.isEmpty then d else
    let appended := passing.foldl (fun f e => f.appendVisible e.1 (d.recordAt e.1) e.2) d.filtered
    {d with filtered := appended.extendCompactSums (d.filtered.recordCount d.index.records)}

/-- The visible subset after a batch. -/
def extendVisible (d : Document) (oldCount base : ℕ) (provisionalChanged : Bool) : Document :=
  let start := d.candidateStart oldCount base provisionalChanged
  let d := d.popVisible (d.filtered.trailingCountFrom start)
  let passing := (emitWithContext start d.index.records.length d.contextBefore d.contextAfter d.resumeState
    (fun row => d.inContextStream (d.recordAt row)) (fun row => d.matchesTextAxis (d.recordAt row))).2
  d.appendPassing passing

/-- Where the tail is scanned from: the last record, which is provisional. -/
def startOffset (d : Document) : ℕ :=
  match d.index.records.getLast? with
  | some last => last.offset
  | none => d.decoder.bomLength

/-- Whether the trailing record was re-read as another. -/
def provisionalChanged (d : Document) (tail : List Record) : Bool :=
  decide (0<d.index.records.length) && decide (tail.head?≠d.index.records.getLast?)

/-- On the identity view a batch that changed no record extends no sums. -/
def skipsSums (d : Document) (tail : List Record) : Bool :=
  !d.filtered.active && decide (tail.length=if 0<d.index.records.length then 1 else 0) && !d.provisionalChanged tail

/-- The source index after a batch, its sums right again. -/
def ingestIndex (d : Document) (tail : List Record) (loggers threads : InternTable) : Document :=
  let oldCount := d.index.records.length
  let merged := d.mergeTail tail loggers threads
  if d.skipsSums tail then merged
  else merged.extendBlockSums (if d.provisionalChanged tail then oldCount-1 else oldCount)

/-- The run list takes the new records in before any of them is offered to the view. -/
def ingestRuns (d : Document) (tail : List Record) (loggers threads : InternTable) : Document :=
  (d.ingestIndex tail loggers threads).updateRunsAfterAppend d.index.records.length

def ingestView (d : Document) (tail : List Record) (loggers threads : InternTable) : Document :=
  let e := d.ingestRuns tail loggers threads
  if !d.filtered.active then e
  else e.extendVisible d.index.records.length (d.index.records.length-1) (d.provisionalChanged tail)

/-! What the ingest steps leave alone. -/

private theorem popVisible_eq (d : Document) (n : ℕ) :
    d.popVisible n={d with filtered := (d.popVisible n).filtered} := by
  unfold popVisible
  split <;> rfl

private theorem appendPassing_eq (d : Document) (passing : List Emitted) :
    d.appendPassing passing={d with filtered := (d.appendPassing passing).filtered} := by
  unfold appendPassing
  split <;> rfl

private theorem extendVisible_eq (d : Document) (oldCount base : ℕ) (changed : Bool) :
    d.extendVisible oldCount base changed=
      {d with filtered := (d.extendVisible oldCount base changed).filtered} := by
  unfold extendVisible
  dsimp only
  rw [appendPassing_eq,popVisible_eq]

theorem ingestIndex_eq (d : Document) (tail : List Record) (l t : InternTable) :
    d.ingestIndex tail l t={d with index := (d.ingestIndex tail l t).index} := by
  unfold ingestIndex
  dsimp only
  split <;> rfl

theorem ingestRuns_eq (d : Document) (tail : List Record) (l t : InternTable) :
    d.ingestRuns tail l t={d with index := (d.ingestIndex tail l t).index
                                  toRunSelection := (d.ingestRuns tail l t).toRunSelection} := by
  unfold ingestRuns
  rw [updateRunsAfterAppend_eq,ingestIndex_eq]

theorem ingestView_eq (d : Document) (tail : List Record) (l t : InternTable) :
    d.ingestView tail l t={d.ingestRuns tail l t with filtered := (d.ingestView tail l t).filtered} := by
  unfold ingestView
  dsimp only
  split
  · rfl
  · rw [extendVisible_eq]

end Document

namespace LiveController

/-- The new in-bound records that win a rule of an action. -/
def countMatches (d : Document) (firstNewRow : ℕ) (winner : ActionMatch→ℤ) : ℕ :=
  (List.range' firstNewRow (d.index.records.length-firstNewRow)).countP (fun row =>
    d.inRunBound (d.recordAt row) && decide (0≤winner (d.highlighters.matchActions d.platform (d.recordAt row)
      .tabNotify (d.messageText (d.recordAt row)))))

def runMatchActions (c : LiveController) (firstNewRow : ℕ) (provisionalChanged : Bool) (provisionalRow : ℕ) :
    LiveController :=
  let d := c.document
  if !d.highlighters.anyEnabled .live then ⟨d,.none⟩ else
    let alerts := if d.highlighters.anyEnabled .tabNotify then
      ⟨countMatches d firstNewRow ActionMatch.tab,countMatches d firstNewRow ActionMatch.notify⟩
        else BatchAlerts.none
    ⟨d.updateDigestAfterAppend firstNewRow provisionalChanged provisionalRow,alerts⟩

def ingestAppended (c : LiveController) : LiveController :=
  let d := c.document
  match d.indexer.scanAppendedTail d.source d.startOffset d.index.loggers d.index.threads with
  | none => c
  | some (tail,loggers,threads) =>
    if tail.isEmpty then
      {c with document := {d with index := {d.index with loggers := loggers,threads := threads}}}
    else
      {c with document := (d.ingestView tail loggers threads).resolveHighlighters}.runMatchActions
        d.index.records.length (d.provisionalChanged tail) (d.index.records.length-1)

/-- Only the digest moves under the match actions. -/
theorem runMatchActions_document (c : LiveController) (n : ℕ) (changed : Bool) (row : ℕ) :
    (c.runMatchActions n changed row).document={c.document with
      digest := (c.runMatchActions n changed row).document.digest
      digestLast := (c.runMatchActions n changed row).document.digestLast} := by
  unfold runMatchActions
  dsimp only
  split
  · rfl
  · exact Document.updateDigestAfterAppend_eq _ _ _ _

/-- A watch tick that found the file grown. -/
def tick (c : LiveController) (more : Bytes) : LiveController :=
  {c with document := c.document.appendBytes more}.ingestAppended

/-- The ticks of a file that grows chunk by chunk. -/
def run (c : LiveController) (chunks : List Bytes) : LiveController := chunks.foldl tick c

end LiveController

end Loftail
