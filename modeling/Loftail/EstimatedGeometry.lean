import Loftail.RecordIndex
import Mathlib.Algebra.Order.Floor.Ring
import Mathlib.Data.Rat.Floor
import Mathlib.Logic.Function.Basic

/-! # Heights of wrapped rows: measured where they have been looked at, estimated elsewhere -/
namespace Loftail
open BlockPrefixSums

/-- `std::llround`: to the nearest, halves away from zero. -/
def llround (q : ℚ) : ℤ := if q<0 then -⌊-q+1/2⌋ else ⌊q+1/2⌋

/-- The display-line model of a wrapped view. It is bound to an index that lives on; every
operation is given that index as it then is. -/
structure EstimatedGeometry where
  wrapWidth : ℤ
  blockPhysical : List ℤ
  blockLines : List ℤ
  blockMeasuredPhysical : List ℤ
  recordLines : ℕ→Option (List ℕ)
  linePrefix : List ℤ
  total : ℤ
  measuredVisual : ℤ
  measuredPhysical : ℤ
  measuredBlocks : ℕ
  boundRecords : ℕ
  tailLines : ℕ

namespace EstimatedGeometry

/-- How many of `n` records a block holds. -/
def recordsInBlock (n block : ℕ) : ℕ := min (block*kBlockSize+kBlockSize) n-block*kBlockSize

def measuredRecordsInBlock (g : EstimatedGeometry) (block : ℕ) : ℕ :=
  if block<g.blockLines.length then ((g.recordLines block).getD []).length else 0

def isBlockMeasured (g : EstimatedGeometry) (n block : ℕ) : Bool :=
  decide (0<recordsInBlock n block) && decide (g.measuredRecordsInBlock block=recordsInBlock n block)

/-- Measured visual lines over measured physical lines, at least 1. -/
def expansionFactor (g : EstimatedGeometry) : ℚ :=
  if g.measuredPhysical≤0 then 1 else max 1 ((g.measuredVisual : ℚ)/g.measuredPhysical)

/-- `EstimatedGeometry::blockLines`: the lines of a block, measured or estimated. -/
def blockLinesOf (g : EstimatedGeometry) (n block : ℕ) : ℤ :=
  if g.blockPhysical.length≤block then 0 else
    let measured := max 0 (g.blockLines.getD block 0)
    if g.isBlockMeasured n block then measured else
      let rest := max 0 (g.blockPhysical.getD block 0-g.blockMeasuredPhysical.getD block 0)
      measured+max rest (llround (rest*g.expansionFactor))

/-- The running total of some heights, written down before each of them. -/
def prefixLoop (height : ℕ→ℤ) (blocks : ℕ) : List ℤ×ℤ :=
  (List.range blocks).foldl (fun (sums,acc) b => (sums++[acc],acc+height b)) ([],0)

def rebuild (g : EstimatedGeometry) (n : ℕ) : EstimatedGeometry :=
  let sums := prefixLoop (g.blockLinesOf n) g.blockPhysical.length
  {g with linePrefix := sums.1++[sums.2],total := sums.2}

/-- The aggregates, counted anew. -/
def recount (g : EstimatedGeometry) (n : ℕ) : EstimatedGeometry :=
  let blocks := List.range g.blockLines.length
  let cached := blocks.filter (fun b => 0≤g.blockLines.getD b 0)
  {g with measuredVisual := (cached.map (fun b => g.blockLines.getD b 0)).sum
          measuredPhysical := (cached.map (fun b => g.blockMeasuredPhysical.getD b 0)).sum
          measuredBlocks := blocks.countP (g.isBlockMeasured n)}

def refreshTotals (g : EstimatedGeometry) (n : ℕ) : EstimatedGeometry := (g.recount n).rebuild n

/-- The physical lines of some rows. -/
def physical (rows : List Record) : ℤ := BlockPrefixSums.total RecordIndex.displayLines rows

/-- The physical lines of a block, by the prefix sums of the index. -/
def physicalOf (idx : RecordIndex) (block : ℕ) : ℤ :=
  (idx.firstLineOfRecord (min (block*kBlockSize+kBlockSize) idx.records.length) : ℤ)-
    idx.firstLineOfRecord (block*kBlockSize)

/-- The display lines of the trailing record. -/
def tailOf (rows : List Record) : ℕ := (rows.getLast?.map RecordIndex.displayLines).getD 0

def reset (idx : RecordIndex) (wrapWidth : ℤ) : EstimatedGeometry :=
  let n := idx.records.length
  let blocks := blocksFor n kBlockSize
  {wrapWidth := max 1 wrapWidth
   blockPhysical := (List.range blocks).map (physicalOf idx)
   blockLines := List.replicate blocks (-1)
   blockMeasuredPhysical := List.replicate blocks 0
   recordLines := fun _ => none
   linePrefix := [],total := 0,measuredVisual := 0,measuredPhysical := 0,measuredBlocks := 0
   boundRecords := n
   tailLines := tailOf idx.records : EstimatedGeometry}.rebuild n

def invalidateMeasurements (g : EstimatedGeometry) (n : ℕ) : EstimatedGeometry :=
  {g with blockLines := g.blockLines.map (fun _ => -1)
          blockMeasuredPhysical := g.blockMeasuredPhysical.map (fun _ => 0)
          recordLines := fun _ => none
          measuredVisual := 0,measuredPhysical := 0,measuredBlocks := 0}.rebuild n

def setWrapWidth (g : EstimatedGeometry) (n : ℕ) (wrapWidth : ℤ) : EstimatedGeometry×Bool :=
  let w := max 1 wrapWidth
  if w=g.wrapWidth then (g,false) else ({g with wrapWidth := w}.invalidateMeasurements n,true)

/-- One block's measured rows and the two totals derived from them. -/
def setBlockMeasurement (g : EstimatedGeometry) (idx : RecordIndex) (block : ℕ) (lines : List ℕ) :
    EstimatedGeometry :=
  if lines=[] then
    {g with recordLines := Function.update g.recordLines block none
            blockLines := g.blockLines.set block (-1)
            blockMeasuredPhysical := g.blockMeasuredPhysical.set block 0}
  else
    {g with recordLines := Function.update g.recordLines block (some lines)
            blockLines := g.blockLines.set block lines.sum
            blockMeasuredPhysical := g.blockMeasuredPhysical.set block
              (physical ((idx.records.drop (block*kBlockSize)).take lines.length))}

/-- Heights of a block's records from its `first`-th on. -/
def measureBlock (g : EstimatedGeometry) (idx : RecordIndex) (block : ℤ) (visualLines : List ℕ) (first : ℤ) :
    EstimatedGeometry :=
  if block<0 ∨ block≥g.blockLines.length then g else
    let b := block.toNat
    let count := recordsInBlock idx.records.length b
    if count=0 then g else
      let first := (max first 0).toNat
      let have_ := g.measuredRecordsInBlock b
      if first>have_ then g
      else if first=0 ∧ have_=count then g
      else
        let kept := ((g.recordLines b).getD []).take first
        (g.setBlockMeasurement idx b (kept++visualLines.take (count-kept.length))).refreshTotals idx.records.length

def truncateBlockMeasurement (g : EstimatedGeometry) (idx : RecordIndex) (block keep : ℕ) : EstimatedGeometry :=
  if g.blockLines.length≤block then g else
    match g.recordLines block with
    | none => g
    | some cached => if cached.length≤keep then g else g.setBlockMeasurement idx block (cached.take keep)

/-- Blocks past the first that can have changed, and blocks that were not there, start unmeasured. -/
def resizedTail (blank : ℤ) (xs : List ℤ) (firstBlock blocks : ℕ) : List ℤ :=
  (resized 0 (xs.mapIdx (fun b v => if firstBlock<b then blank else v)) blocks).mapIdx
    (fun b v => if xs.length≤b then blank else v)

/-- Every block past `firstBlock` new or gone, the physical totals from it on read anew. -/
def regrown (g : EstimatedGeometry) (idx : RecordIndex) (firstBlock : ℕ) : EstimatedGeometry :=
  let blocks := blocksFor idx.records.length kBlockSize
  {g with boundRecords := idx.records.length
          tailLines := tailOf idx.records
          recordLines := fun b => if firstBlock<b ∨ blocks≤b then none else g.recordLines b
          blockLines := resizedTail (-1) g.blockLines firstBlock blocks
          blockMeasuredPhysical := resizedTail 0 g.blockMeasuredPhysical firstBlock blocks
          blockPhysical := (resized 0 g.blockPhysical blocks).mapIdx
            (fun b v => if firstBlock≤b then physicalOf idx b else v)}

/-- What the bound index has grown by. The trailing record it had is the first that can have moved. -/
def syncTail (g : EstimatedGeometry) (idx : RecordIndex) : EstimatedGeometry×Bool :=
  let n := idx.records.length
  if n=g.boundRecords ∧ tailOf idx.records=g.tailLines then (g,false) else
    let firstDirty := min g.boundRecords n-1
    let firstBlock := firstDirty/kBlockSize
    (((g.regrown idx firstBlock).truncateBlockMeasurement idx firstBlock
      (firstDirty-firstBlock*kBlockSize)).refreshTotals n,true)

end EstimatedGeometry

end Loftail
