import Loftail.RecordIndex

/-! # The visible subset, with a compact index of its own -/
namespace Loftail

/-- View rows to source ordinals, which of them are context, and copies of their records. -/
structure FilteredIndex where
  active : Bool
  ascending : Bool
  visible : List ℕ
  context : List Bool
  contextCount : ℕ
  compact : RecordIndex

namespace FilteredIndex

/-- The identity view; also what `clear` leaves. -/
def cleared : FilteredIndex := ⟨false,true,[],[],0,.empty⟩

def strictlyAscending : List ℕ→Bool
  | a::b::rest => decide (a<b) && strictlyAscending (b::rest)
  | _ => true

/-- A subset of `source`; no flags mean that every row is a match. -/
def setVisible (source : List Record) (visible : List ℕ) (context : List Bool) : FilteredIndex :=
  let context := (context++List.replicate (visible.length-context.length) false).take visible.length
  {active := true
   ascending := strictlyAscending visible
   visible := visible
   context := context
   contextCount := context.count true
   compact := (RecordIndex.mk (visible.map (fun s => source.getD s default)) .empty .empty []).rebuildBlockSums}

def recordCount (f : FilteredIndex) (source : List Record) : ℕ :=
  if f.active then f.compact.records.length else source.length

/-- The ordinal of the last visible match, or -1. -/
def lastMatchSource (f : FilteredIndex) : ℤ :=
  match (f.visible.zip f.context).reverse.find? (fun e => !e.2) with
  | some e => e.1
  | none => -1

/-- How many trailing rows have an ordinal at or past `minSourceRow`. -/
def trailingCountFrom (f : FilteredIndex) (minSourceRow : ℤ) : ℕ :=
  (f.visible.reverse.takeWhile (fun v : ℕ => decide (minSourceRow≤(v : ℤ)))).length

def lastVisibleSource (f : FilteredIndex) : ℤ :=
  match f.visible.getLast? with
  | some v => v
  | none => -1

def popLastVisible (f : FilteredIndex) : FilteredIndex :=
  if f.visible.isEmpty then f else
    {f with contextCount := f.contextCount-(if f.context.getLastD false then 1 else 0)
            context := f.context.dropLast
            visible := f.visible.dropLast
            compact := {f.compact with records := f.compact.records.dropLast}}

def appendVisible (f : FilteredIndex) (sourceRow : ℕ) (rec : Record) (context : Bool) : FilteredIndex :=
  {f with ascending := f.ascending && (f.visible.isEmpty || decide (f.lastVisibleSource<sourceRow))
          visible := f.visible++[sourceRow]
          context := f.context++[context]
          contextCount := f.contextCount+(if context then 1 else 0)
          compact := {f.compact with records := f.compact.records++[rec]}}

def extendCompactSums (f : FilteredIndex) (validCount : ℤ) : FilteredIndex :=
  {f with compact := f.compact.extendBlockSums validCount}

end FilteredIndex

end Loftail
