import Loftail.Decoder
import Loftail.LogFormat
import Loftail.RecordIndex
import Loftail.TimestampParser

/-! # The single forward pass that builds an index -/
namespace Loftail

/-- `Indexer::kChunkBytes`. -/
def kChunkBytes : ℕ := 4*1024*1024

/-- `LogSource::bytes`. -/
def bytesAt (source : Bytes) (pos want : ℕ) : Bytes := (source.drop pos).take want

/-- An indexer. The window size is a parameter, so that what it cannot change is a theorem. -/
structure Indexer where
  platform : Platform
  format : LogFormat
  decoder : Decoder
  sourceZone : Zone
  chunkBytes : ℕ
  chunk : 0<chunkBytes

/-- What the scan carries from line to line. `currentRecord` is the record open for
continuations. -/
structure ScanState where
  records : List Record
  loggers : InternTable
  threads : InternTable
  currentRecord : Option ℕ
  currentIsParsed : Bool

/-- The fields read from the line that opens a record. -/
structure LineFields where
  priority : Priority
  logger : Option Text
  thread : Option Text
  timestamp : ℤ

/-- What a line outside every parsed record carries. -/
def LineFields.plain : LineFields := ⟨.unknown,none,none,kNoTimestamp⟩

/-- Interning of a field the pattern may lack. -/
def internField (t : InternTable) : Option Text→ℕ×InternTable
  | some name => t.intern name
  | none => (0,t)

namespace Indexer

def tsParser (ix : Indexer) : TimestampParser := .make ix.platform ix.format.impliedDateFormat ix.sourceZone

/-- The text of a field, when the pattern has it. -/
def fieldText (ix : Indexer) (start : Match) (tail : Option Match) (group : ℤ) : Option Text :=
  if group>0 then some ((ix.format.matchFor start tail group).captured group.toNat) else none

def fields (ix : Indexer) (text : Text) (m : Match) : LineFields :=
  let tail := ix.format.tailMatch text
  {priority := ((ix.fieldText m tail ix.format.prioGroup).map parsePriority).getD .unknown
   logger := ix.fieldText m tail ix.format.loggerGroup
   thread := ix.fieldText m tail ix.format.threadGroup
   timestamp := ((ix.fieldText m tail ix.format.dateGroup).map (ix.tsParser.parse ix.platform)).getD kNoTimestamp}

end Indexer

namespace ScanState

/-- A record of its own, on one line. -/
def appendRecord (s : ScanState) (fileOffset byteLen : ℕ) (f : LineFields) (parsed : Bool) : ScanState :=
  let logger := internField s.loggers f.logger
  let thread := internField s.threads f.thread
  {records := s.records++[⟨fileOffset,f.timestamp,min byteLen kMaxLength,logger.1,thread.1,1,f.priority⟩]
   loggers := logger.2
   threads := thread.2
   currentRecord := some s.records.length
   currentIsParsed := parsed}

/-- A continuation of the record at `i`. -/
def extendRecord (s : ScanState) (i byteLen : ℕ) : ScanState :=
  {s with records := s.records.modify i (fun r =>
    {r with length := min (r.length+byteLen) kMaxLength
            lineCount := if r.lineCount<kMaxLineCount then r.lineCount+1 else r.lineCount})}

end ScanState

namespace Indexer

def processLine (ix : Indexer) (s : ScanState) (fileOffset byteLen : ℕ) (text : Text) : ScanState :=
  match ix.format.startMatch text with
  | some m => s.appendRecord fileOffset byteLen (ix.fields text m) true
  | none =>
    match s.currentRecord,s.currentIsParsed with
    | some i,true => s.extendRecord i byteLen
    | _,_ => s.appendRecord fileOffset byteLen .plain false

/-- The lines of one window, from `scan` on. At the end of the file the last line needs
no newline. -/
def walk (ix : Indexer) (pos : ℕ) (buf : Bytes) (atEof : Bool) : ℕ→ℕ→ScanState→Option (ℕ×ScanState)
  | 0,_,_ => none
  | fuel+1,scan,s =>
    if scan<buf.length then
      let e := ix.decoder.lineEnd buf scan
      if !e.2 && !atEof then some (scan,s) else
        let contentLen := (e.1-scan)-(if e.2 then ix.decoder.unitSize else 0)
        let text := ix.decoder.decodeLine ((buf.drop scan).take contentLen)
        ix.walk pos buf atEof fuel e.1 (ix.processLine s (pos+scan) (e.1-scan) text)
    else some (scan,s)

/-- One window at `pos`, grown while it shows no whole line. -/
def window (ix : Indexer) (source : Bytes) (pos : ℕ) : ℕ→ℕ→ScanState→Option (Bytes×ℕ×ScanState)
  | 0,_,_ => none
  | fuel+1,want,s =>
    let buf := bytesAt source pos want
    if buf.isEmpty then some (buf,0,s) else
      let atEof := decide (pos+buf.length≥source.length)
      match ix.walk pos buf atEof (buf.length+1) 0 s with
      | none => none
      | some (scan,s') =>
        if scan>0 || atEof || want≥source.length-pos then some (buf,scan,s')
        else ix.window source pos fuel (min (source.length-pos) (want*2)) s'

/-- The pass from `pos`. `onChunk` cancels by answering false, and is asked once for a
position, so that it may be any function of it. -/
def scanFrom (ix : Indexer) (source : Bytes) (onChunk : ℕ→Bool) : ℕ→ℕ→ScanState→Option (Bool×ScanState)
  | 0,_,_ => none
  | fuel+1,pos,s =>
    if pos<source.length then
      match ix.window source pos (source.length-pos+1) (min ix.chunkBytes (source.length-pos)) s with
      | none => none
      | some (buf,scan,s') =>
        if buf.isEmpty || scan=0 then some (true,s') else
          if onChunk (pos+scan) then ix.scanFrom source onChunk fuel (pos+scan) s'
          else some (false,s')
    else some (true,s)

def forwardScan (ix : Indexer) (source : Bytes) (startPos : ℕ) (records : List Record)
    (loggers threads : InternTable) (onChunk : ℕ→Bool) : Option (Bool×ScanState) :=
  ix.scanFrom source onChunk (source.length-startPos+1) startPos ⟨records,loggers,threads,none,false⟩

/-- The index of a whole source. -/
def index (ix : Indexer) (source : Bytes) (progress : ℕ→Bool) : Option (Bool×RecordIndex) :=
  (ix.forwardScan source ix.decoder.bomLength [] .empty .empty progress).map (fun (done,s) =>
    (done,(RecordIndex.mk s.records s.loggers s.threads []).rebuildBlockSums))

def scanAppendedTail (ix : Indexer) (source : Bytes) (startOffset : ℕ) (loggers threads : InternTable) :
    Option (List Record×InternTable×InternTable) :=
  (ix.forwardScan source startOffset [] loggers threads (fun _ => true)).map (fun (_,s) =>
    (s.records,s.loggers,s.threads))

end Indexer

end Loftail
