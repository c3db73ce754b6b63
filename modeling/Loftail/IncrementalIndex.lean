import Loftail.LiveIngest

/-! # Incremental ingest is one pass over the grown file

The last record is read again from its beginning. Its first line can only have been
extended, and a decision made on a part of it stands, so that the records before it
are the records the pass over the whole file finds there. -/
namespace Loftail
open DelimitedLines StartGroups

namespace Indexer

/-- A record-start decision made true on a partial last line stays true for every
extension of that line. -/
def StartsStay (ix : Indexer) : Prop :=
  ∀p q : Bytes,p≠[]→ix.decoder.finder.find p=none→p<+:q→
    (ix.decoder.finder.Terminated q ∨ ix.decoder.finder.find q=none)→ix.isStart p=true→ix.isStart q=true

/-- The same of the line a content ends with, and of what comes behind it. -/
def StaysWith (ix : Indexer) (content more : Bytes) : Prop :=
  ∀p q : Bytes,p≠[]→p<:+content→ix.decoder.finder.find p=none→p<+:q→q<+:p++more→
    (ix.decoder.finder.Terminated q ∨ ix.decoder.finder.find q=none)→ix.isStart p=true→ix.isStart q=true

variable {ix : Indexer} {content more : Bytes}

theorem StartsStay.staysWith (h : ix.StartsStay) (content more : Bytes) : ix.StaysWith content more :=
  fun p q hp _ hfind hpq _ => h p q hp hfind hpq

theorem staysWith_nil (ix : Indexer) (more : Bytes) : ix.StaysWith [] more :=
  fun _ _ hp hsuffix => absurd (List.suffix_nil.mp hsuffix) hp

/-- Growth reaches the last group only. -/
theorem lineGroups_grow (hstay : ix.StaysWith content more) {start : ℕ} {gs : List (Group ix.isStart)}
    {g : Group ix.isStart} (h : ix.lineGroups content start=gs++[g]) :
    ix.lineGroups (content++more) start=gs++ix.lineGroups (content++more) (start+ix.spans gs) := by
  obtain ⟨hsplit,hinit,hlast⟩ := groups_split h
  rw [List.map_singleton,List.flatten_singleton] at hsplit hlast
  have hx : content.drop start≠[] := by
    intro hnil
    rw [hnil,lines_nil] at hsplit
    exact g.elems_ne_nil (List.append_eq_nil_iff.mp hsplit.symm).2
  have hle : start≤content.length := by
    by_contra hgt
    exact hx (List.drop_of_length_le (by omega))
  -- The last line of the group is the last line of the content.
  obtain ⟨front,last,hel⟩ : ∃front last,g.elems=front++[last] :=
    (List.eq_nil_or_concat' g.elems).resolve_left g.elems_ne_nil
  have hlines : lines ix.decoder.finder (content.drop start)=((gs.map Group.elems).flatten++front)++[last] := by
    rw [hsplit,hel,List.append_assoc]
  have hgrown : lines ix.decoder.finder ((content++more).drop start)=
      (gs.map Group.elems).flatten++(front++lines ix.decoder.finder (last++more)) := by
    rw [List.drop_append_of_le_length hle,lines_grow _ hlines,List.append_assoc]
  have hne : last≠[] := by
    have hmem : last∈lines ix.decoder.finder (content.drop start) := by
      rw [hlines]
      simp
    exact lines_ne_nil_of_mem _ hmem
  have hshape := lines_last ix.decoder.finder hlines
  obtain ⟨last',rest,hlast',hpre,hsame⟩ := lines_grow_head ix.decoder.finder hne hshape more
  have hcut : Boundary ix.isStart (gs.map Group.elems).flatten (front++lines ix.decoder.finder (last++more)) := by
    refine boundary_of_last h _ fun b hb hopen => ?_
    cases front with
    | cons a as =>
      rw [Group.elems,List.cons_append,List.cons.injEq] at hel
      simp only [List.cons_append,List.head?_cons,Option.mem_some_iff] at hb
      rwa [← hb,← hel.1]
    | nil =>
      rw [Group.elems,List.nil_append,List.cons.injEq] at hel
      rw [List.nil_append,hlast',List.head?_cons,Option.mem_some_iff] at hb
      rw [hel.1] at hopen
      rcases hshape with hterm | hpart
      · rwa [← hb,hsame hterm]
      · rw [← hb]
        have hl' : ix.decoder.finder.Terminated last' ∨ ix.decoder.finder.find last'=none := by
          cases rest with
          | nil => exact @lines_last _ ix.decoder.finder (last++more) _ [] hlast'
          | cons r rs =>
            have hcons : lines ix.decoder.finder (last++more)=(last'::(r::rs).dropLast)++
              [(r::rs).getLast (by simp)] := by
              rw [hlast',List.cons_append,List.dropLast_append_getLast]
            exact Or.inl (lines_terminated ix.decoder.finder hcons last' (by simp))
        have hsuffix : last<:+content := by
          refine List.IsSuffix.trans ?_ (List.drop_suffix start content)
          rw [← lines_flatten (f:=ix.decoder.finder) (content.drop start),hlines,List.flatten_append,
            List.flatten_singleton]
          exact List.suffix_append ..
        have hcomes : last'<+:last++more := by
          rw [← lines_flatten (f:=ix.decoder.finder) (last++more),hlast',List.flatten_cons]
          exact List.prefix_append ..
        exact hstay last last' hne hsuffix hpart hpre hcomes hl' hopen
  have hwhole : ix.lineGroups (content++more) start=gs++groups ix.isStart
    (front++lines ix.decoder.finder (last++more)) := by
    rw [lineGroups,hgrown,groups_append hcut,hinit]
  rw [hwhole,lineGroups_restart hwhole]

end Indexer

/-- An index that says of a file what one pass over the file says. -/
structure Indexed (ix : Indexer) (content : Bytes) (idx : RecordIndex) : Prop where
  views : idx.records.map (Record.view idx.loggers idx.threads)=ix.lineFold content ix.decoder.bomLength
  interned : ∀r∈idx.records,r.Interned idx.loggers idx.threads
  sums : idx.SumsValid

namespace Indexed

variable {ix : Indexer} {content : Bytes}

/-- The pass itself gives such an index. -/
theorem of_index (ix : Indexer) (content : Bytes) :
    ∃idx,ix.index content (fun _ => true)=some (true,idx) ∧ Indexed ix content idx := by
  have h := ix.scanned_holds content ix.decoder.bomLength [] .empty .empty
  obtain ⟨rs,hrs,hview,hids⟩ := h.records
  rw [List.nil_append] at hrs
  refine ⟨_,by rw [Indexer.index,Indexer.forwardScan_scanned]; rfl,?_,?_,RecordIndex.rebuildBlockSums_valid _⟩
  · rw [hrs]
    exact hview
  · rw [hrs]
    exact hids

/-- Two such indexes of one file have the same records and the same sums. -/
theorem unique {idx idx' : RecordIndex} (h : Indexed ix content idx) (h' : Indexed ix content idx') :
    idx.records.map (Record.view idx.loggers idx.threads)=idx'.records.map (Record.view idx'.loggers idx'.threads) ∧
      idx.blockSums=idx'.blockSums := by
  have hv := h.views.trans h'.views.symm
  refine ⟨hv,?_⟩
  have hl : idx.records.map RecordIndex.displayLines=idx'.records.map RecordIndex.displayLines := by
    have hm := congrArg (List.map (fun v : RecordView => min v.lineCount kDisplayLineCap)) hv
    rw [List.map_map,List.map_map] at hm
    exact hm
  rw [h.sums,h'.sums]
  exact BlockPrefixSums.blockSums_congr kBlockSize hl

/-- The records before the provisional one and the scanned tail are those of the grown file. -/
theorem ingest_views {d : Document} {tail : List Record} {l t : InternTable} {more : Bytes}
    (hstay : d.indexer.StaysWith content more) (h : Indexed d.indexer content d.index) (hs : d.source=content++more)
    (hscan : Scanned d tail l t) : (d.index.records.dropLast++tail).map (Record.view l t)=
      d.indexer.lineFold d.source d.indexer.decoder.bomLength := by
  have hold : d.index.records.dropLast.map (Record.view l t)=
      (d.indexer.lineFold content d.indexer.decoder.bomLength).dropLast := by
    rw [← h.views,← List.map_dropLast]
    exact List.map_congr_left fun r hr =>
      (h.interned r (List.dropLast_subset _ hr)).view hscan.loggers hscan.threads
  rw [List.map_append,hscan.views,hold,hs]
  rcases List.eq_nil_or_concat' (d.indexer.lineGroups content d.indexer.decoder.bomLength) with hgs | ⟨gs,g,hgs⟩
  · have hfold : d.indexer.lineFold content d.indexer.decoder.bomLength=[] := by
      rw [Indexer.lineFold,hgs]
      rfl
    have hrec : d.index.records=[] := by simpa [hfold] using h.views
    have hstart : d.startOffset=d.indexer.decoder.bomLength := by
      simp [Document.startOffset,hrec,Setup.indexer]
    rw [hfold,hstart]
    rfl
  · have hview := h.views
    rw [Indexer.lineFold,hgs,Indexer.groupViews_append] at hview
    have hstart : d.startOffset=d.indexer.decoder.bomLength+d.indexer.spans gs := by
      have hlast := congrArg List.getLast? hview
      rw [List.getLast?_map] at hlast
      simp only [Indexer.groupViews,List.getLast?_concat] at hlast
      obtain ⟨r,hr,hv⟩ := Option.map_eq_some_iff.mp hlast
      have ho := congrArg RecordView.offset hv
      simpa [Document.startOffset,hr,Record.view,Indexer.groupView] using ho
    rw [hstart,Indexer.lineFold,Indexer.lineFold,Indexer.lineFold,hgs,Indexer.groupViews_append,
      Indexer.lineGroups_grow hstay hgs,Indexer.groupViews_append]
    simp only [Indexer.groupViews,List.dropLast_concat]

/-- The step: the batch that brings `more` leaves the index of the grown file. -/
theorem ingest {d : Document} {tail : List Record} {l t : InternTable} {more : Bytes}
    (hstay : d.indexer.StaysWith content more) (h : Indexed d.indexer content d.index) (hs : d.source=content++more)
    (hscan : Scanned d tail l t) (hne : tail≠[]) : Indexed d.indexer d.source (d.ingestIndex tail l t).index := by
  refine ⟨?_,?_,Document.ingestIndex_sums h.sums hne⟩
  · rw [Document.ingestIndex_records,Document.ingestIndex_loggers,Document.ingestIndex_threads]
    exact ingest_views hstay h hs hscan
  · rw [Document.ingestIndex_records,Document.ingestIndex_loggers,Document.ingestIndex_threads]
    intro r hr
    rcases List.mem_append.mp hr with hr | hr
    · exact (h.interned r (List.dropLast_subset _ hr)).extend hscan.loggers hscan.threads
    · exact hscan.interned r hr

/-- The step over a whole tick. -/
theorem tick {c : LiveController} {more : Bytes} (hstay : c.document.indexer.StaysWith c.document.source more)
    (h : Indexed c.document.indexer c.document.source c.document.index) :
    Indexed (c.tick more).document.indexer (c.tick more).document.source (c.tick more).document.index := by
  obtain ⟨tail,l,t,hscan,⟨rfl,he⟩ | ⟨hne,he⟩⟩ := c.tick_cases more
  · have hrec : c.document.index.records=[] :=
      hscan.records_of_tail_nil (placed_of_lineFold h.views).1 (List.prefix_append _ _)
    have hfold := ingest_views (d:=c.document.appendBytes more) hstay h rfl hscan
    rw [LiveController.tick_toSetup,he]
    refine ⟨?_,by simp [hrec],by simpa [RecordIndex.SumsValid,hrec] using h.sums⟩
    simpa [Document.appendBytes,hrec] using hfold
  · rw [LiveController.tick_toSetup,he,LiveController.runMatchActions_source,LiveController.runMatchActions_index,
      LiveController.ingested_source,LiveController.ingested_index]
    exact ingest (d:=c.document.appendBytes more) hstay h rfl hscan hne

/-- The run: every prefix leaves the index of the file as it then is. -/
theorem run {c : LiveController} (hstay : c.document.indexer.StartsStay)
    (h : Indexed c.document.indexer c.document.source c.document.index) (chunks : List Bytes) :
    Indexed c.document.indexer (c.document.source++chunks.flatten) (c.run chunks).document.index := by
  have hrun := LiveController.run_induct (P:=fun c' => c'.document.indexer.StartsStay ∧
      Indexed c'.document.indexer c'.document.source c'.document.index)
    (fun c' m h' => ⟨by rw [LiveController.tick_toSetup]; exact h'.1,h'.2.tick (h'.1.staysWith _ m)⟩)
      ⟨hstay,h⟩ chunks
  simpa using hrun.2

end Indexed

namespace Indexer

private theorem lineText_starts (line : Bytes) : Decoder.latin1.lineText line<+:line.map UInt8.toUInt16 :=
  (Decoder.decodeLine_prefix _ _).trans (List.IsPrefix.map _ (List.take_prefix _ _))

private theorem lineText_head {c : Byte} (hcr : c≠0x0D) (hlf : c≠0x0A) (bs : Bytes) :
    [c.toUInt16]<+:Decoder.latin1.lineText (c::bs) := by
  have hhead : ∃cs,Decoder.latin1.lineContent (c::bs)=c::cs := by
    cases bs with
    | nil =>
      refine ⟨[],?_⟩
      have hnot : ¬Decoder.latin1.finder.Terminated [c] := by
        simp [LineFinder.Terminated,Decoder.newline,Decoder.latin1,Decoder.byteLineEnd,hlf]
      rw [Decoder.lineContent,if_neg hnot]
      rfl
    | cons b bs =>
      refine ⟨(b::bs).take (bs.length+1-if Decoder.latin1.finder.Terminated (c::b::bs) then 1 else 0),?_⟩
      have hlen : (c::b::bs).length-(if Decoder.latin1.finder.Terminated (c::b::bs) then 1 else 0)=
          bs.length+1-(if Decoder.latin1.finder.Terminated (c::b::bs) then 1 else 0)+1 := by
        simp only [List.length_cons]
        split <;> omega
      have hunit : Decoder.latin1.unitSize=1 := rfl
      rw [Decoder.lineContent,hunit,hlen,List.take_succ_cons]
  obtain ⟨cs,hcs⟩ := hhead
  have hne : c.toUInt16≠0x0D := fun h => hcr (by
    have := congrArg UInt16.toNat h
    exact UInt8.toNat_inj.mp (by simpa using this))
  rw [Decoder.lineText,hcs]
  exact Decoder.decodeLine_head (d:=.latin1) rfl hne

/-- One character at the head of a line decides for every extension of the line. -/
theorem startsStay_plain {ix : Indexer} (c : Byte) (hf : ix.format=.plain [c.toUInt16]) (hd : ix.decoder=.latin1)
    (hcr : c≠0x0D) (hlf : c≠0x0A) : ix.StartsStay := by
  have hstart (line : Bytes) : ix.isStart line=true ↔ [c.toUInt16]<+:Decoder.latin1.lineText line := by
    simp [isStart,LogFormat.startMatch,LogFormat.haveFormat,hf,hd,LogFormat.plain,Regex.usable,Regex.literal]
  intro p q hp _ hpq _ hs
  cases p with
  | nil => exact absurd rfl hp
  | cons b bs =>
    have hb : [c.toUInt16]<+:(b::bs).map UInt8.toUInt16 := ((hstart _).mp hs).trans (lineText_starts _)
    rw [List.map_cons,List.cons_prefix_cons] at hb
    have hbc : b=c := UInt8.toNat_inj.mp (by
      have := congrArg UInt16.toNat hb.1
      simpa using this.symm)
    obtain ⟨rest,rfl⟩ := hpq
    rw [hstart,List.cons_append,hbc]
    exact lineText_head hcr hlf _

end Indexer

/-- A controller over a file that has just been indexed. -/
def LiveController.opened (c : LiveController) (content : Bytes) (idx : RecordIndex) : LiveController :=
  {c with document := {c.document with source := content,index := idx}}

/-- Growing prefixes ingested one by one leave the records and the sums of one pass over the last. -/
theorem run_index_eq_pass (c : LiveController) (first : Bytes) (chunks : List Bytes)
    (hstay : c.document.indexer.StartsStay) :
    ∃idx₀ idx,c.document.indexer.index first (fun _ => true)=some (true,idx₀) ∧
      c.document.indexer.index (first++chunks.flatten) (fun _ => true)=some (true,idx) ∧
      ((c.opened first idx₀).run chunks).document.index.records.map
        (Record.view ((c.opened first idx₀).run chunks).document.index.loggers
          ((c.opened first idx₀).run chunks).document.index.threads)=
        idx.records.map (Record.view idx.loggers idx.threads) ∧
      ((c.opened first idx₀).run chunks).document.index.blockSums=idx.blockSums := by
  obtain ⟨idx₀,h₀,hfirst⟩ := Indexed.of_index c.document.indexer first
  obtain ⟨idx,h,hall⟩ := Indexed.of_index c.document.indexer (first++chunks.flatten)
  have hrun := Indexed.run (c:=c.opened first idx₀) hstay hfirst chunks
  exact ⟨idx₀,idx,h₀,h,hrun.unique hall⟩

/-- `[a` and half a line, then the other half and a new record. -/
theorem run_index_eq_pass_bracketed : ∃idx₀ idx,
    Document.bracketed.indexer.index [0x5B,0x61,0x0A,0x62] (fun _ => true)=some (true,idx₀) ∧
      Document.bracketed.indexer.index [0x5B,0x61,0x0A,0x62,0x63,0x0A,0x5B,0x64,0x0A]
      (fun _ => true)=some (true,idx) ∧
      (((⟨.bracketed,.none⟩ : LiveController).opened [0x5B,0x61,0x0A,0x62] idx₀).run
        [[0x63],[0x0A,0x5B,0x64,0x0A]]).document.index.blockSums=idx.blockSums := by
  obtain ⟨idx₀,idx,h₀,h,-,hsums⟩ := run_index_eq_pass ⟨.bracketed,.none⟩ [0x5B,0x61,0x0A,0x62]
    [[0x63],[0x0A,0x5B,0x64,0x0A]] (Indexer.startsStay_plain 0x5B (by rfl) rfl (by decide) (by decide))
  exact ⟨idx₀,idx,h₀,h,hsums⟩

end Loftail
