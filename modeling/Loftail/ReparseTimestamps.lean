import Loftail.Document
import Loftail.LineFold

/-! # Timestamps read again in another zone -/
namespace Loftail
open DelimitedLines StartGroups

namespace Setup

/-- `%d` implies UTC, `%D` local time. -/
def inferSourceZone (d : Setup) : Zone :=
    if d.format.impliedZone=.utc then d.platform.utcZone else d.platform.systemZone

/-- The zone a choice settles on. -/
def settledZone (d : Setup) (sourceZone : Zone) : Zone :=
    if sourceZone.isValid then sourceZone else d.inferSourceZone

def timestampParser (d : Setup) (zone : Zone) : TimestampParser := .make d.platform d.format.impliedDateFormat zone

/-- The indexer of an open in some zone. -/
def indexerIn (d : Setup) (zone : Zone) : Indexer := {d.indexer with sourceZone := zone}

end Setup

namespace Document

/-- One record of the pass over the index: its date field is read again, its place is not. -/
def reparseRecord (d : Document) (rec : Record) : Record :=
  if rec.timestamp=kNoTimestamp then rec
  else if (d.recordBytes rec).isEmpty then rec
  else
    match d.format.recordRe.exec (d.recordFirstLine rec) with
    | some m =>
      {rec with timestamp := (d.timestampParser d.sourceZone).parse d.platform (m.captured
        d.format.dateGroup.toNat)}
    | none => rec

/-- `Document::reparseTimestamps`, without the display zone that follows the source zone. -/
def reparseTimestamps (d : Document) (sourceZone : Zone) : Document :=
  let d := {d with sourceZone := d.settledZone sourceZone}.invalidateRunMemos
  -- no date field: the source zone is inert
  if d.format.dateGroup≤0 then d
  else {d with index := {d.index with records := d.index.records.map d.reparseRecord}}

end Document

/-! ## What a record's lines say of its date -/

namespace Setup

/-- The text of the date field, as the indexer takes it from the line that opens a record. -/
def dateText (d : Setup) (line : Bytes) : Option Text :=
  let text := d.decoder.lineText line
  (d.format.startMatch text).bind fun m =>
    if d.format.dateGroup>0 then
      some ((d.format.matchFor m (d.format.tailMatch text) d.format.dateGroup).captured d.format.dateGroup.toNat)
    else none

/-- The timestamp indexing gives a record in some zone. -/
def indexedTimestamp (d : Setup) (zone : Zone) (ls : List Bytes) : ℤ :=
  ((d.dateText (ls.headD [])).map ((d.timestampParser zone).parse d.platform)).getD kNoTimestamp

/-- The first line, as the second reading finds it in the record's bytes. -/
def rereadLine (d : Setup) (ls : List Bytes) : Text := (d.decoder.firstLine (ls.flatten.take kMaxLength)).1

/-- The second reading of a timestamp. -/
def rereadTimestamp (d : Setup) (zone : Zone) (ls : List Bytes) (timestamp : ℤ) : ℤ :=
  if timestamp=kNoTimestamp then timestamp
  else
    match d.format.recordRe.exec (d.rereadLine ls) with
    | some m => (d.timestampParser zone).parse d.platform (m.captured d.format.dateGroup.toNat)
    | none => timestamp

/-- The lines of each record. -/
def recordLines (d : Setup) (content : Bytes) : List (List Bytes) :=
  (d.indexer.lineGroups content d.decoder.bomLength).map Group.elems

/-- Where the records of these lines lie. -/
def recordSpans : ℕ→List (List Bytes)→List (ℕ×ℕ)
  | _,[] => []
  | pos,ls::rest => (pos,min ls.flatten.length kMaxLength)::recordSpans (pos+ls.flatten.length) rest

end Setup

/-- Where a record lies. -/
def Record.place (r : Record) : ℕ×ℕ := (r.offset,r.length)

variable {d : Document} {content : Bytes} {zone : Zone}

private theorem lineFields_timestamp (zone : Zone) (line : Bytes) : ((d.indexerIn zone).lineFields line).timestamp=
    ((d.dateText line).map ((d.timestampParser zone).parse d.platform)).getD kNoTimestamp := by
  have hformat : (d.indexerIn zone).format=d.format := rfl
  have hdecoder : (d.indexerIn zone).decoder=d.decoder := rfl
  rw [Indexer.lineFields,hformat,hdecoder,Setup.dateText]
  cases hm : d.format.startMatch (d.decoder.lineText line) with
  | none => rfl
  | some m =>
    have hplatform : (d.indexerIn zone).platform=d.platform := rfl
    have hparser : (d.indexerIn zone).tsParser=d.timestampParser zone := rfl
    simp only [Indexer.fields,Indexer.fieldText,hformat,hplatform,hparser,Option.bind_some]

/-- What a pass over the content in some zone leaves: each record in its place, with its timestamp. -/
structure IndexedIn (d : Document) (zone : Zone) (content : Bytes) (rs : List Record) : Prop where
  places : rs.map Record.place=Setup.recordSpans d.decoder.bomLength (d.recordLines content)
  timestamps : rs.map Record.timestamp=(d.recordLines content).map (d.indexedTimestamp zone)

private theorem groupViews_places {ix : Indexer} {pos : ℕ} {gs : List (Group ix.isStart)} :
    (ix.groupViews pos gs).map (fun v => (v.offset,v.length))=Setup.recordSpans pos (gs.map Group.elems) := by
  induction gs generalizing pos with
  | nil => rfl
  | cons g gs ih =>
    rw [Indexer.groupViews,List.map_cons,ih]
    rfl

private theorem groupViews_timestamps {ix : Indexer} {pos : ℕ} {gs : List (Group ix.isStart)} :
    (ix.groupViews pos gs).map RecordView.timestamp=(gs.map Group.elems).map
      (fun ls => (ix.lineFields (ls.headD [])).timestamp) := by
  induction gs generalizing pos with
  | nil => rfl
  | cons g gs ih =>
    rw [Indexer.groupViews,List.map_cons,ih]
    rfl

/-- An open indexes the content. -/
theorem index_indexed (d : Document) (zone : Zone) (content : Bytes) :
    ∃idx : RecordIndex,(d.indexerIn zone).index content (fun _ => true)=some (true,idx) ∧
      IndexedIn d zone content idx.records := by
  have hscan := (d.indexerIn zone).forwardScan_scanned content (d.indexerIn zone).decoder.bomLength [] .empty .empty
  obtain ⟨rs,hrs,hview,-⟩ :=
    ((d.indexerIn zone).scanned_holds content (d.indexerIn zone).decoder.bomLength [] .empty .empty).records
  refine ⟨_,by rw [Indexer.index,hscan]; rfl,?_⟩
  have hrecords : ((d.indexerIn zone).scanned content (d.indexerIn zone).decoder.bomLength
    [] .empty .empty).records=rs := by
    rw [hrs,List.nil_append]
  constructor
  · have h := congrArg (List.map fun v : RecordView => (v.offset,v.length)) hview
    rw [List.map_map,groupViews_places] at h
    change List.map Record.place (Indexer.scanned _ _ _ _ _ _).records=_
    rw [hrecords]
    exact h
  · have h := congrArg (List.map RecordView.timestamp) hview
    rw [List.map_map,groupViews_timestamps] at h
    have hopen : (fun ls : List Bytes => ((d.indexerIn zone).lineFields (ls.headD [])).timestamp)=
        d.indexedTimestamp zone := funext fun ls => lineFields_timestamp zone _
    rw [hopen] at h
    change List.map Record.timestamp (Indexer.scanned _ _ _ _ _ _).records=_
    rw [hrecords]
    exact h

/-! ## The second reading -/

/-- The bytes of a record are those of its lines, as far as a length reaches. -/
theorem recordBytes_place {pos : ℕ} {ls : List Bytes} {rest : Bytes} {r : Record}
    (hplace : r.place=(pos,min ls.flatten.length kMaxLength)) (hsource : d.source.drop pos=ls.flatten++rest) :
    d.recordBytes r=ls.flatten.take kMaxLength := by
  obtain ⟨hoffset,hlength⟩ := Prod.mk.inj hplace
  rw [Document.recordBytes,bytesAt,hoffset,hlength,hsource]
  rw [List.take_append_of_le_length (by omega)]
  rw [List.take_eq_take_iff]
  omega

/-- One record of the pass. -/
theorem reparseRecord_timestamp {ls : List Bytes} {r : Record} (hbytes : d.recordBytes r=ls.flatten.take kMaxLength)
    (hne : ls.flatten≠[]) : (d.reparseRecord r).timestamp=d.rereadTimestamp d.sourceZone ls r.timestamp := by
  have hsome : (ls.flatten.take kMaxLength).isEmpty=false := by
    cases hls : ls.flatten with
    | nil => exact absurd hls hne
    | cons b bs => rfl
  have hline : d.recordFirstLine r=d.rereadLine ls := by
    rw [Document.recordFirstLine,hbytes,hsome]
    rfl
  rw [Document.reparseRecord,hbytes,hsome,hline,Setup.rereadTimestamp]
  by_cases hnone : r.timestamp=kNoTimestamp
  · rw [if_pos hnone,if_pos hnone]
  · rw [if_neg hnone,if_neg hnone]
    cases d.format.recordRe.exec (d.rereadLine ls) <;> rfl

private theorem reparseRecord_place (r : Record) : (d.reparseRecord r).place=r.place := by
  rw [Document.reparseRecord]
  split
  · rfl
  · split
    · rfl
    · split <;> rfl

/-- The whole pass: a record after another. -/
theorem reparse_timestamps {pos : ℕ} {lss : List (List Bytes)} {rs : List Record}
    (hplaces : rs.map Record.place=Setup.recordSpans pos lss) (hsource : d.source.drop pos=lss.flatten.flatten)
    (hne : ∀ls∈lss,ls.flatten≠[]) :
    (rs.map d.reparseRecord).map Record.timestamp=
      List.zipWith (d.rereadTimestamp d.sourceZone) lss (rs.map Record.timestamp) := by
  induction lss generalizing pos rs with
  | nil =>
    obtain rfl : rs=[] := List.map_eq_nil_iff.mp hplaces
    rfl
  | cons ls lss ih =>
    obtain ⟨r,rs,rfl⟩ := List.exists_cons_of_ne_nil (l:=rs) (by rintro rfl; cases hplaces)
    obtain ⟨hplace,hplaces⟩ := List.cons.inj hplaces
    have hsplit : d.source.drop pos=ls.flatten++lss.flatten.flatten := by
      rw [hsource,List.flatten_cons,List.flatten_append]
    have hbytes := recordBytes_place hplace hsplit
    have hrest : d.source.drop (pos+ls.flatten.length)=lss.flatten.flatten := by
      rw [← List.drop_drop,hsplit,List.drop_left]
    rw [List.map_cons,List.map_cons,reparseRecord_timestamp hbytes (hne ls (List.mem_cons_self ..)),
      ih hplaces hrest fun ls hls => hne ls (List.mem_cons_of_mem _ hls)]
    rfl

private theorem recordLines_flatten (d : Setup) (content : Bytes) :
    (d.recordLines content).flatten.flatten=content.drop d.decoder.bomLength := by
  rw [Setup.recordLines,Indexer.lineGroups,groups_flatten,lines_flatten]

private theorem recordLines_ne_nil (d : Setup) (content : Bytes) : ∀ls∈d.recordLines content,ls.flatten≠[] := by
  intro ls hls
  obtain ⟨g,hg,rfl⟩ := List.mem_map.mp hls
  have hmem : g.head∈(d.recordLines content).flatten :=
    List.mem_flatten.mpr ⟨g.elems,hls,List.mem_cons_self ..⟩
  rw [Setup.recordLines,Indexer.lineGroups,groups_flatten] at hmem
  have hhead : g.head≠[] := lines_ne_nil_of_mem d.indexer.decoder.finder hmem
  simp [Group.elems,hhead]

namespace Document

/-- The document after an open in some zone. -/
def openIn (d : Document) (sourceZone : Zone) (content : Bytes) : Document :=
  match (d.indexerIn (d.settledZone sourceZone)).index content (fun _ => true) with
  | some (_,index) => {d with sourceZone := d.settledZone sourceZone,source := content,index}
  | none => d

def timestamps (d : Document) : List ℤ := d.index.records.map Record.timestamp

/-- A document is as an open of another in some zone left it. -/
structure Reads (e d : Document) (zone : Zone) (content : Bytes) : Prop where
  base : {e.toSetup with sourceZone := d.sourceZone}=d.toSetup
  source : e.source=content
  places : e.index.records.map Record.place=Setup.recordSpans d.decoder.bomLength (d.recordLines content)
  timestamps : e.timestamps=(d.recordLines content).map (d.indexedTimestamp zone)

theorem openIn_reads (d : Document) (sourceZone : Zone) (content : Bytes) :
    (d.openIn sourceZone content).Reads d (d.settledZone sourceZone) content := by
  obtain ⟨index,hindex,hindexed⟩ := index_indexed d (d.settledZone sourceZone) content
  have hopen : d.openIn sourceZone content=
    {d with sourceZone := d.settledZone sourceZone,source := content,index} := by
    rw [openIn,hindex]
  rw [hopen]
  exact ⟨rfl,rfl,hindexed.places,hindexed.timestamps⟩

/-- The second reading of a record's date says what indexing it in the other zone says: a date that the one zone
does not have the other does not have either, a first line that the whole expression does not match has one
instant in both, and one that it matches has a date of the same instant in both readings. -/
def Rereadable (d : Setup) (zone next : Zone) (ls : List Bytes) : Prop :=
  if d.indexedTimestamp zone ls=kNoTimestamp then d.indexedTimestamp next ls=kNoTimestamp
  else
    match d.format.recordRe.exec (d.rereadLine ls) with
    | some m => (d.timestampParser next).parse d.platform (m.captured d.format.dateGroup.toNat)=
      d.indexedTimestamp next ls
    | none => d.indexedTimestamp zone ls=d.indexedTimestamp next ls

theorem rereadable_iff {d : Setup} {zone next : Zone} {ls : List Bytes} : Rereadable d zone next ls ↔
    d.rereadTimestamp next ls (d.indexedTimestamp zone ls)=d.indexedTimestamp next ls := by
  rw [Rereadable,Setup.rereadTimestamp]
  split
  · rename_i h
    rw [h]
    exact eq_comm
  · cases d.format.recordRe.exec (d.rereadLine ls) <;> exact Iff.rfl

/-- Without a date field no record has a timestamp. -/
theorem indexedTimestamp_undated {d : Setup} (h : d.format.dateGroup≤0) (zone : Zone) (ls : List Bytes) :
    d.indexedTimestamp zone ls=kNoTimestamp := by
  rw [Setup.indexedTimestamp,Setup.dateText]
  cases d.format.startMatch (d.decoder.lineText (ls.headD [])) with
  | none => rfl
  | some m => simp [not_lt.mpr h]

/-- The state the pass runs in. -/
def settled (d : Document) (sourceZone : Zone) : Document :=
  {d with sourceZone := d.settledZone sourceZone}.invalidateRunMemos

private theorem reparseTimestamps_undated {d : Document} (h : d.format.dateGroup≤0) (sourceZone : Zone) :
    d.reparseTimestamps sourceZone=d.settled sourceZone := if_pos h

private theorem reparseTimestamps_dated {d : Document} (h : ¬d.format.dateGroup≤0) (sourceZone : Zone) :
    (d.reparseTimestamps sourceZone).index.records=d.index.records.map (d.settled sourceZone).reparseRecord ∧
    (d.reparseTimestamps sourceZone).toSetup=(d.settled sourceZone).toSetup ∧
    (d.reparseTimestamps sourceZone).source=d.source := by
  have hdated : d.reparseTimestamps sourceZone=
    {d.settled sourceZone with index := {(d.settled sourceZone).index with
      records := (d.settled sourceZone).index.records.map (d.settled sourceZone).reparseRecord}} := if_neg h
  rw [hdated]
  exact ⟨rfl,rfl,rfl⟩

/-- What does not look at the source zone is the same of both. -/
theorem Reads.same {e d : Document} {zone : Zone} {α : Type} (f : Setup→α)
    (hf : ∀(s : Setup) (z : Zone),f {s with sourceZone := z}=f s) (h : e.Reads d zone content) :
    f e.toSetup=f d.toSetup := by
  rw [← hf e.toSetup d.sourceZone,h.base]

/-- The pass over what an open in some zone left. -/
theorem Reads.reparse {e d : Document} {zone : Zone} (h : e.Reads d zone content) (next : Zone) :
    (e.reparseTimestamps next).timestamps=(d.recordLines content).map
      (fun ls => d.rereadTimestamp (d.settledZone next) ls (d.indexedTimestamp zone ls)) ∧
    {(e.reparseTimestamps next).toSetup with sourceZone := d.sourceZone}=d.toSetup ∧
    (e.reparseTimestamps next).source=content ∧
    (e.reparseTimestamps next).index.records.map Record.place=
      Setup.recordSpans d.decoder.bomLength (d.recordLines content) := by
  by_cases hdate : e.format.dateGroup≤0
  · rw [reparseTimestamps_undated hdate]
    refine ⟨?_,h.base,h.source,h.places⟩
    have hkept : (e.settled next).timestamps=e.timestamps := rfl
    have hformat := h.same Setup.format fun _ _ => rfl
    have hnone : d.indexedTimestamp zone=fun _ => kNoTimestamp :=
      funext fun ls => indexedTimestamp_undated (hformat ▸ hdate) zone ls
    rw [hkept,h.timestamps,hnone]
    rfl
  · obtain ⟨hrecords,hsetup,hsource⟩ := reparseTimestamps_dated hdate next
    have hcontent : (e.settled next).source=content := h.source
    have hdrop : (e.settled next).source.drop d.decoder.bomLength=(d.recordLines content).flatten.flatten := by
      rw [hcontent,recordLines_flatten]
    have hpass := reparse_timestamps h.places hdrop (recordLines_ne_nil d.toSetup content)
    have hzone : (e.settled next).sourceZone=d.settledZone next :=
      h.same (fun s => s.settledZone next) fun _ _ => rfl
    have hreread : e.rereadTimestamp (d.settledZone next)=d.rereadTimestamp (d.settledZone next) :=
      h.same (fun s => s.rereadTimestamp (d.settledZone next)) fun _ _ => rfl
    have hsettled : (e.settled next).rereadTimestamp (d.settledZone next)=e.rereadTimestamp
      (d.settledZone next) := rfl
    have hstamps : e.index.records.map Record.timestamp=(d.recordLines content).map
      (d.indexedTimestamp zone) := h.timestamps
    refine ⟨?_,by rw [hsetup]; exact h.base,by rw [hsource]; exact h.source,?_⟩
    · change List.map Record.timestamp (e.reparseTimestamps next).index.records=_
      rw [hrecords,hpass,hstamps,hzone,hsettled,hreread,List.zipWith_map_right,List.zipWith_self]
    · have hplace : Record.place∘(e.settled next).reparseRecord=Record.place := funext reparseRecord_place
      rw [hrecords,List.map_map,hplace]
      exact h.places

/-- Where every record is rereadable, the pass leaves what an open in the other zone leaves. -/
theorem Reads.next {e d : Document} {zone next : Zone} (h : e.Reads d zone content)
    (hlines : ∀ls∈d.recordLines content,Rereadable d.toSetup zone (d.settledZone next) ls) :
    (e.reparseTimestamps next).Reads d (d.settledZone next) content := by
  obtain ⟨hstamps,hbase,hsource,hplaces⟩ := h.reparse next
  refine ⟨hbase,hsource,hplaces,hstamps.trans ?_⟩
  apply List.map_congr_left
  intro ls hls
  exact rereadable_iff.mp (hlines ls hls)

/-- A run of passes, each from the zone the last one left. -/
theorem Reads.run {e d : Document} {first : Zone} {zones : List Zone} (h : e.Reads d (d.settledZone first) content)
    (hchain : (first::zones).IsChain fun zone next =>
      ∀ls∈d.recordLines content,Rereadable d.toSetup (d.settledZone zone) (d.settledZone next) ls) :
    (zones.foldl reparseTimestamps e).Reads d
    (d.settledZone ((first::zones).getLast (List.cons_ne_nil _ _))) content := by
  induction zones generalizing first e with
  | nil => exact h
  | cons next zones ih =>
    rw [List.isChain_cons_cons] at hchain
    rw [List.foldl_cons,List.getLast_cons (List.cons_ne_nil _ _)]
    exact ih (h.next hchain.1) hchain.2

/-- Reading the timestamps again gives those of an open in the other zone just where every record is rereadable
between the two; and where it is at each step of a run of zones, the run ends with those of its last. -/
theorem reparsed_timestamps (d : Document) (content : Bytes) (first : Zone) :
    (∀next,((d.openIn first content).reparseTimestamps next).timestamps=(d.openIn next content).timestamps ↔
      ∀ls∈d.recordLines content,Rereadable d.toSetup (d.settledZone first) (d.settledZone next) ls) ∧
    ∀zones : List Zone,
      ((first::zones).IsChain fun zone next =>
        ∀ls∈d.recordLines content,Rereadable d.toSetup (d.settledZone zone) (d.settledZone next) ls) → 
      (zones.foldl reparseTimestamps (d.openIn first content)).timestamps=
        (d.openIn ((first::zones).getLast (List.cons_ne_nil _ _)) content).timestamps := by
  have hopen := openIn_reads d first content
  constructor
  · intro next
    rw [(hopen.reparse next).1,(openIn_reads d next content).timestamps,List.map_inj_left]
    constructor
    · intro h ls hls
      exact rereadable_iff.mpr (h ls hls)
    · intro h ls hls
      exact rereadable_iff.mp (h ls hls)
  · intro zones hchain
    rw [(hopen.run hchain).timestamps,(openIn_reads d _ content).timestamps]

/-- `^(date)\s(.*)`, with a date of sixteen characters. -/
def datedLine (pattern : Text) (captures : ℕ) : Regex :=
  ⟨pattern,true,captures,fun text =>
    if text[16]?=some 0x20 then
      some ⟨fun i => if i=1 then text.take 16 else if i=captures then text.drop 17 else [],text.length⟩
    else none⟩

/-- `%d{%Y-%m-%d %H:%M} %m%n`. -/
def dated : Document :=
  let literal (c : UInt16) : DateToken := ⟨.literal,0,c,false⟩
  let field (kind : DateTokenKind) (width : ℕ) : DateToken := ⟨kind,width,0,false⟩
  let tokens := [field .year4 4,literal 0x2D,field .monthNumber 2,literal 0x2D,field .day 2,literal 0x20,
    field .hour24 2,literal 0x3A,field .minute 2]
  .make .ascii {LogFormat.empty with
    recordRe := datedLine (latin1 "^(date) (.*)$") 2,recordStartRe := datedLine (latin1 "^(date) ") 1,
    dateGroup := 1,msgGroup := 2,impliedDateFormat := ⟨[],tokens⟩} .latin1 (.fixed 0)

/-- A zone whose clocks go from two to three on the last day of March. -/
def springZone : Zone :=
  {Zone.fixed 3600000 with instant := fun t =>
    if t.year=2024 && t.month=3 && t.day=31 && t.hour=2 then none else (Zone.fixed 3600000).instant t}

/-- Half past two that day, which the first zone does not have, stays unread in one that does. -/
theorem reparsed_timestamps_skipped : ¬∀(d : Document) (content : Bytes) (first next : Zone),
    ((d.openIn first content).reparseTimestamps next).timestamps=(d.openIn next content).timestamps := by
  intro h
  have hread := h dated (ascii "2024-03-31 02:30 x\n") springZone (.fixed 0)
  revert hread
  decide +kernel

/-- A day earlier both zones have it: there and back again. -/
theorem reparsed_timestamps_restored :
    ([.fixed 0,springZone].foldl reparseTimestamps
      (dated.openIn springZone (ascii "2024-03-30 02:30 x\n"))).timestamps=
      (dated.openIn springZone (ascii "2024-03-30 02:30 x\n")).timestamps := by
  apply (reparsed_timestamps dated (ascii "2024-03-30 02:30 x\n") springZone).2 [.fixed 0,springZone]
  have hlines : dated.recordLines (ascii "2024-03-30 02:30 x\n")=[[ascii "2024-03-30 02:30 x\n"]] :=
    by decide +kernel
  simp only [hlines,List.isChain_cons_cons,List.mem_singleton,forall_eq,rereadable_iff]
  decide +kernel

end Document

end Loftail
