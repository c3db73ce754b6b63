import Loftail.Document
import Mathlib.Data.List.Destutter
import Mathlib.Data.List.Sort

/-! # The newest match of every digest rule -/
namespace Loftail

/-- `Document::kDigestLookback`. -/
def kDigestLookback : ℕ := 100000

namespace Document

def ruleMatchesRow (d : Document) (i row : ℕ) : Bool :=
  d.highlighters.ruleMatches d.platform i (d.recordAt row) (d.messageText (d.recordAt row))

/-- Whether rule `i` carries the digest action. -/
def digestRule (d : Document) (i : ℕ) : Bool :=
  match d.highlighters.rules[i]? with
  | some rule => rule.actions.digest
  | none => false

/-- `std::stable_sort` by timestamp. -/
def byTimestamp (d : Document) (ordinals : List ℕ) : List ℕ :=
  ordinals.insertionSort (fun a b => (d.recordAt a).timestamp≤(d.recordAt b).timestamp)

def placeable (d : Document) (o : ℕ) : Bool := (d.recordAt o).timestamp≠kNoTimestamp

/-- The placeable slots refilled from a list, the others left as they are. -/
def refill (placeable : ℕ→Bool) : List ℕ→List ℕ→List ℕ
  | [],_ => []
  | o::os,cs => if placeable o then
      match cs with
      | c::cs => c::refill placeable os cs
      | [] => o::refill placeable os []
    else o::refill placeable os cs

/-- The deduplicated rows the slots name, in timestamp order. -/
def digestOrdinals (d : Document) : List ℕ :=
  let rows := (d.digestLast.filter (fun s => decide (0 ≤ s))).map Int.toNat
  let ordinals := (rows.insertionSort (·≤·)).destutter (·≠·)
  refill d.placeable ordinals (d.byTimestamp (ordinals.filter d.placeable))

def publishDigest (d : Document) (force : Bool) : Document :=
  if !force && decide (d.digestOrdinals=d.digest.visible) then d
  else {d with digest := .setVisible d.index.records d.digestOrdinals []}

/-- One row of the backward walk: the rules it answers, and how many are left. -/
def answerRow (d : Document) (row : ℕ) : ℕ→List ℤ→ℕ→List ℤ×ℕ
  | _,[],outstanding => ([],outstanding)
  | i,s::slots,outstanding =>
    if outstanding=0 then (s::slots,0) else
      let hit := decide (s<0) && d.digestRule i && d.ruleMatchesRow i row
      let rest := answerRow d row (i+1) slots (if hit then outstanding-1 else outstanding)
      ((if hit then (row : ℤ) else s)::rest.1,rest.2)

/-- The backward walk from under `row`, `fence` in-bound records at most. -/
def walkBack (d : Document) : ℕ→ℕ→List ℤ→ℕ→List ℤ
  | 0,_,slots,_ => slots
  | row+1,fence,slots,outstanding =>
    if outstanding=0 then slots
    else if !d.inRunBound (d.recordAt row) then d.walkBack row fence slots outstanding
    else match fence with
      | 0 => slots
      | fence+1 =>
        let next := d.answerRow row 0 slots outstanding
        d.walkBack row fence next.1 next.2

def rebuildDigest (d : Document) : Document :=
  let blank := d.highlighters.rules.map (fun _ => (-1 : ℤ))
  if !d.highlighters.anyEnabled .digestOnly then {d with digestLast := blank}.publishDigest false else
    let outstanding := d.highlighters.rules.countP (fun r => r.enabled && r.actions.digest && r.criteria.anyActive)
    {d with digestLast := d.walkBack d.index.records.length kDigestLookback blank outstanding}.publishDigest false

/-- The walk of `findLastMatchBefore`: the newest match of a rule under `row`. -/
def findBack (d : Document) (ruleIndex : ℕ) : ℕ→ℕ→ℤ
  | 0,_ => -1
  | row+1,fence =>
    if !d.inRunBound (d.recordAt row) then d.findBack ruleIndex row fence
    else match fence with
      | 0 => -1
      | fence+1 => if d.ruleMatchesRow ruleIndex row then row else d.findBack ruleIndex row fence

/-- The newest match at a row under `stop`. -/
def findLastMatchBefore (d : Document) (ruleIndex stop : ℕ) : ℤ :=
  d.findBack ruleIndex (min stop d.index.records.length) kDigestLookback

/-- A slot that names the re-read trailing record: kept, or found again behind it. -/
def recheckSlot (d : Document) (row i : ℕ) (s : ℤ) : ℤ :=
  if s≠row then s
  else if d.inRunBound (d.recordAt row) && d.ruleMatchesRow i row then s
  else d.findLastMatchBefore i row

/-- Whether a new row becomes a rule's newest match. -/
def advances (d : Document) (row i : ℕ) (s : ℤ) : Bool :=
  decide (s≠row) && d.digestRule i && d.ruleMatchesRow i row

/-- One new row over all slots, and whether any has changed so far. -/
def advanceRow (d : Document) (st : List ℤ×Bool) (row : ℕ) : List ℤ×Bool :=
  if !d.inRunBound (d.recordAt row) then st
  else (st.1.mapIdx (fun i s => if d.advances row i s then (row : ℤ) else s),
    st.2 || (st.1.mapIdx (fun i s => d.advances row i s)).any id)

/-- The slots after a batch, and whether any of them was touched: those that name the re-read
record are looked at again, then the new rows advance them. -/
def updatedSlots (d : Document) (firstNewRow : ℕ) (recheck : Bool) (provisionalRow : ℕ) : List ℤ×Bool :=
  let slots := if recheck then d.digestLast.mapIdx (d.recheckSlot provisionalRow) else d.digestLast
  let named := recheck && d.digestLast.any (fun s => decide (s=(provisionalRow : ℤ)))
  (List.range' firstNewRow (d.index.records.length-firstNewRow)).foldl d.advanceRow (slots,named)

/-- Whether a published copy of the re-read record is stale. -/
def staleRow (d : Document) (recheck : Bool) (provisionalRow : ℕ) : Bool :=
  recheck && (d.digestLast.mapIdx (fun i s => decide ((s : ℤ)=provisionalRow) &&
    d.inRunBound (d.recordAt provisionalRow) && d.ruleMatchesRow i provisionalRow)).any id

def updateDigestAfterAppend (d : Document) (firstNewRow : ℕ) (provisionalChanged : Bool) (provisionalRow : ℕ) :
    Document :=
  let blank := d.highlighters.rules.map (fun _ => (-1 : ℤ))
  if !d.highlighters.anyEnabled .digestOnly then {d with digestLast := blank}.publishDigest false
  else if d.digestLast.length≠d.highlighters.rules.length then d.rebuildDigest
  else
    let recheck := provisionalChanged && decide (provisionalRow<d.index.records.length)
    let updated := d.updatedSlots firstNewRow recheck provisionalRow
    if updated.2 then {d with digestLast := updated.1}.publishDigest (d.staleRow recheck provisionalRow)
    else {d with digestLast := updated.1}

def refreshHighlighting (d : Document) : Document := d.resolveHighlighters.rebuildDigest

/-! What the digest steps leave alone. -/

theorem publishDigest_eq (d : Document) (force : Bool) : d.publishDigest force={d with
    digest := (d.publishDigest force).digest} := by
  unfold publishDigest
  split <;> rfl

theorem rebuildDigest_eq (d : Document) : d.rebuildDigest={d with
    digest := d.rebuildDigest.digest,digestLast := d.rebuildDigest.digestLast} := by
  unfold rebuildDigest
  dsimp only
  split <;> rw [publishDigest_eq]

theorem updateDigestAfterAppend_eq (d : Document) (n : ℕ) (changed : Bool) (row : ℕ) :
    d.updateDigestAfterAppend n changed row={d with
      digest := (d.updateDigestAfterAppend n changed row).digest
      digestLast := (d.updateDigestAfterAppend n changed row).digestLast} := by
  unfold updateDigestAfterAppend
  dsimp only
  split
  · rw [publishDigest_eq]
  · split
    · rw [rebuildDigest_eq]
    · split
      · rw [publishDigest_eq]
      · rfl

end Document

end Loftail
