import Loftail.LineFold
import Loftail.LiveController

/-! # What a batch of appended bytes does to the index

Whatever the batch holds, the records before the provisional one stay, the tail comes
after them, every record stays inside the file and the sums stay those of the records. -/
namespace Loftail
open DelimitedLines StartGroups BlockPrefixSums

namespace Indexer

variable {ix : Indexer}

private theorem span_pos (g : Group ix.isStart) (h : ∀l∈g.elems,l≠[]) : 0 < ix.span g := by
  have hh := List.length_pos_of_ne_nil (h g.head (by simp [Group.elems]))
  simp only [span,Group.elems,List.flatten_cons,List.length_append]
  omega

private theorem mem_lineGroups_ne_nil {content : Bytes} {start : ℕ} {g : Group ix.isStart}
    (hg : g∈ix.lineGroups content start) {l : Bytes} (hl : l∈g.elems) : l≠[] := by
  have hf := @groups_flatten _ ix.isStart (lines ix.decoder.finder (content.drop start))
  refine @lines_ne_nil_of_mem _ ix.decoder.finder (content.drop start) _ ?_
  rw [← hf]
  exact List.mem_flatten.mpr ⟨g.elems,List.mem_map.mpr ⟨g,hg,rfl⟩,hl⟩

/-- Where a record of the fold lies. -/
theorem mem_groupViews {start : ℕ} {gs : List (Group ix.isStart)} (hg : ∀g∈gs,0 < ix.span g) {v : RecordView}
    (hv : v∈ix.groupViews start gs) : start≤v.offset ∧ 0<v.length ∧ v.offset+v.length ≤ start+ix.spans gs := by
  induction gs generalizing start with
  | nil => simp [groupViews] at hv
  | cons g gs ih =>
    have hpos := hg g (by simp)
    simp only [groupViews,List.mem_cons] at hv
    simp only [spans,List.map_cons,List.sum_cons]
    rcases hv with rfl | hv
    · have hmax : 0<kMaxLength := by decide
      simp only [groupView]
      omega
    · have h := ih (fun k hk => hg k (by simp [hk])) hv
      simp only [spans] at h
      omega

private theorem groupViews_ascend {start : ℕ} {gs : List (Group ix.isStart)} (hg : ∀g∈gs,0 < ix.span g) :
    (ix.groupViews start gs).Pairwise (fun v w => v.offset<w.offset) := by
  induction gs generalizing start with
  | nil => exact .nil
  | cons g gs ih =>
    refine List.pairwise_cons.mpr ⟨fun w hw => ?_,ih fun k hk => hg k (by simp [hk])⟩
    have h := mem_groupViews (fun k hk => hg k (by simp [hk])) hw
    have := hg g (by simp)
    simp only [groupView]
    omega

end Indexer

/-- Records in file order, each with bytes of its own, none reaching past the end of the file. -/
structure Placed (content : Bytes) (records : List Record) : Prop where
  ascend : records.Pairwise (fun r s => r.offset<s.offset)
  pos : ∀r∈records,0<r.length
  inside : ∀r∈records,r.offset+r.length≤content.length

/-- Records a pass has found are placed, from its start on. -/
theorem placed_of_lineFold {ix : Indexer} {content : Bytes} {start : ℕ} {rs : List Record} {l t : InternTable}
    (h : rs.map (Record.view l t)=ix.lineFold content start) : Placed content rs ∧ ∀r∈rs,start≤r.offset := by
  have hg : ∀g∈ix.lineGroups content start,0 < ix.span g :=
    fun g hg => Indexer.span_pos g fun _ hl => Indexer.mem_lineGroups_ne_nil hg hl
  have hmem : ∀r∈rs,start≤r.offset ∧ 0<r.length ∧ r.offset+r.length ≤ start+(content.length-start) := by
    intro r hr
    have hv : r.view l t∈ix.groupViews start (ix.lineGroups content start) := by
      rw [← Indexer.lineFold,← h]
      exact List.mem_map.mpr ⟨r,hr,rfl⟩
    have hm := Indexer.mem_groupViews hg hv
    rwa [Indexer.spans_lineGroups] at hm
  refine ⟨⟨?_,fun r hr => (hmem r hr).2.1,fun r hr => ?_⟩,fun r hr => (hmem r hr).1⟩
  · have ha : (ix.lineFold content start).Pairwise (fun v w => v.offset<w.offset) := Indexer.groupViews_ascend hg
    rw [← h,List.pairwise_map] at ha
    exact ha
  · have hm := hmem r hr
    omega

/-- A tail as the scan from the provisional record reports it. -/
structure Scanned (d : Document) (tail : List Record) (loggers threads : InternTable) : Prop where
  scan : d.indexer.scanAppendedTail d.source d.startOffset d.index.loggers d.index.threads=some
    (tail,loggers,threads)
  views : tail.map (Record.view loggers threads)=d.indexer.lineFold d.source d.startOffset
  interned : ∀r∈tail,r.Interned loggers threads
  loggers : d.index.loggers.Extends loggers
  threads : d.index.threads.Extends threads

theorem exists_scanned (d : Document) : ∃tail loggers threads,Scanned d tail loggers threads := by
  have h := d.indexer.scanned_holds d.source d.startOffset [] d.index.loggers d.index.threads
  obtain ⟨rs,hrs,hview,hids⟩ := h.records
  rw [List.nil_append] at hrs
  exact ⟨_,_,_,by rw [Indexer.scanAppendedTail,Indexer.forwardScan_scanned]; rfl,by rw [hrs]; exact hview,
    by rw [hrs]; exact hids,h.loggers,h.threads⟩

namespace Scanned

variable {d : Document} {tail : List Record} {l t : InternTable}

theorem tail_placed (h : Scanned d tail l t) : Placed d.source tail ∧ ∀r∈tail,d.startOffset≤r.offset :=
  placed_of_lineFold h.views

/-- The tail begins with the provisional record. -/
theorem tail_head (h : Scanned d tail l t) {r : Record} (hr : r∈tail.head?) : r.offset=d.startOffset := by
  obtain ⟨rest,rfl⟩ := List.head?_eq_some_iff.mp hr
  have hv := h.views
  rw [Indexer.lineFold] at hv
  cases hg : d.indexer.lineGroups d.source d.startOffset with
  | nil =>
    rw [hg] at hv
    simp [Indexer.groupViews] at hv
  | cons g gs =>
    rw [hg,List.map_cons,Indexer.groupViews,List.cons.injEq] at hv
    have ho := congrArg RecordView.offset hv.1
    simpa [Record.view,Indexer.groupView] using ho

/-- Only a file without records yields no tail. -/
theorem records_of_tail_nil {old : Bytes} (h : Scanned d [] l t) (hp : Placed old d.index.records)
    (hs : old<+:d.source) : d.index.records=[] := by
  by_contra hne
  obtain ⟨rs,last,hrs⟩ := (List.eq_nil_or_concat' d.index.records).resolve_left hne
  have hl : d.index.records.getLast?=some last := by simp [hrs]
  have hpos := hp.pos last (by simp [hrs])
  have hin := hp.inside last (by simp [hrs])
  have hlen := hs.length_le
  have hv := congrArg List.length h.views
  rw [List.map_nil,List.length_nil,Indexer.lineFold,Indexer.groupViews_length] at hv
  have hnil : d.indexer.lineGroups d.source d.startOffset=[] := List.eq_nil_of_length_eq_zero hv.symm
  have hsp := Indexer.spans_lineGroups d.indexer d.source d.startOffset
  rw [hnil,Indexer.spans_nil] at hsp
  simp only [Document.startOffset,hl] at hsp
  omega

end Scanned

namespace Document

variable {d : Document} {tail : List Record} {l t : InternTable}

@[simp] theorem ingestIndex_records (d : Document) (tail : List Record) (l t : InternTable) :
    (d.ingestIndex tail l t).index.records=d.index.records.dropLast++tail := by
  unfold ingestIndex
  dsimp only
  split <;> simp [mergeTail,extendBlockSums]

@[simp] theorem ingestIndex_loggers (d : Document) (tail : List Record) (l t : InternTable) :
    (d.ingestIndex tail l t).index.loggers=l := by
  unfold ingestIndex
  dsimp only
  split <;> simp [mergeTail,extendBlockSums]

@[simp] theorem ingestIndex_threads (d : Document) (tail : List Record) (l t : InternTable) :
    (d.ingestIndex tail l t).index.threads=t := by
  unfold ingestIndex
  dsimp only
  split <;> simp [mergeTail,extendBlockSums]

theorem dropLast_append_last {records : List Record} {r : Record} (h : records.getLast?=some r) :
    records.dropLast++[r]=records := by
  obtain ⟨rs,rfl⟩ := List.getLast?_eq_some_iff.mp h
  simp

theorem records_eq_of_unchanged (h : d.provisionalChanged tail=false) :
    ∃rest,d.index.records.dropLast++tail=d.index.records++rest := by
  cases hl : d.index.records.getLast? with
  | none =>
    have hn : d.index.records=[] := List.getLast?_eq_none_iff.mp hl
    exact ⟨tail,by simp [hn]⟩
  | some last =>
    have hpos : 0<d.index.records.length := by
      cases hr : d.index.records with
      | nil => simp [hr] at hl
      | cons a as => simp
    have hhead : tail.head?=some last := by simpa [provisionalChanged,hpos,hl] using h
    obtain ⟨rest,rfl⟩ := List.head?_eq_some_iff.mp hhead
    exact ⟨rest,by rw [← List.singleton_append,← List.append_assoc,dropLast_append_last hl]⟩

/-- The sums stay right whichever record they are extended from. -/
theorem ingestIndex_sums (hs : d.index.SumsValid) (hne : tail≠[]) : (d.ingestIndex tail l t).index.SumsValid := by
  have hlen := List.length_pos_of_ne_nil hne
  unfold ingestIndex
  dsimp only
  by_cases hskip : d.skipsSums tail=true
  · rw [if_pos hskip]
    simp only [skipsSums,Bool.and_eq_true,Bool.not_eq_true',decide_eq_true_eq] at hskip
    obtain ⟨rest,hrest⟩ := records_eq_of_unchanged hskip.2
    have hsame : d.index.records.dropLast++tail=d.index.records := by
      have hl := congrArg List.length hrest
      simp only [List.length_append,List.length_dropLast] at hl
      have h1 := hskip.1.2
      have hz : rest=[] := List.eq_nil_of_length_eq_zero (by split at h1 <;> omega)
      rw [hrest,hz,List.append_nil]
    simpa [mergeTail,RecordIndex.SumsValid,hsame] using hs
  · rw [if_neg hskip]
    cases hc : d.provisionalChanged tail with
    | true =>
      simp only [if_true]
      refine @RecordIndex.extendBlockSums_valid _ d.index.records _ hs (Nat.sub_le _ _) ?_ ?_
      · simp [mergeTail]
      · simp [mergeTail,← List.dropLast_eq_take]
    | false =>
      obtain ⟨rest,hrest⟩ := records_eq_of_unchanged hc
      simp only [Bool.false_eq_true,if_false]
      refine @RecordIndex.extendBlockSums_valid _ d.index.records _ hs le_rfl ?_ ?_
      · simp [mergeTail,hrest]
      · simp [mergeTail,hrest]

/-- The records of the grown file are placed in it. -/
theorem placed_ingest {old : Bytes} (hp : Placed old d.index.records) (hs : old<+:d.source)
    (h : Scanned d tail l t) :
    Placed d.source (d.index.records.dropLast++tail) where
  ascend := by
    refine List.pairwise_append.mpr
      ⟨hp.ascend.sublist (List.dropLast_sublist _),h.tail_placed.1.ascend,fun r hr s hs' => ?_⟩
    have ho := h.tail_placed.2 s hs'
    cases hl : d.index.records.getLast? with
    | none => simp [List.getLast?_eq_none_iff.mp hl] at hr
    | some last =>
      have ha := hp.ascend
      rw [← dropLast_append_last hl] at ha
      have hlt := (List.pairwise_append.mp ha).2.2 r hr last (by simp)
      simp only [startOffset,hl] at ho
      omega
  pos := by
    intro r hr
    rcases List.mem_append.mp hr with hr | hr
    · exact hp.pos r (List.dropLast_subset _ hr)
    · exact h.tail_placed.1.pos r hr
  inside := by
    intro r hr
    rcases List.mem_append.mp hr with hr | hr
    · exact (hp.inside r (List.dropLast_subset _ hr)).trans hs.length_le
    · exact h.tail_placed.1.inside r hr

/-- The document with the bytes that have arrived indexed, and nothing else brought up to date. -/
def reread (d : Document) : Document :=
  match d.indexer.scanAppendedTail d.source d.startOffset d.index.loggers d.index.threads with
  | some (tail,loggers,threads) => d.ingestIndex tail loggers threads
  | none => d

/-! What a record's bytes say is the same in every file that begins with the one it lies in. -/

section Texts
variable {e : Document} {r : Record}

private theorem recordBytes_grow (hs : d.source<+:e.source) (hr : r.offset+r.length≤d.source.length) :
    e.recordBytes r=d.recordBytes r := by
  obtain ⟨more,hmore⟩ := hs
  unfold recordBytes bytesAt
  rw [← hmore,List.drop_append_of_le_length (by omega),List.take_append_of_le_length
    (by simp only [List.length_drop]; omega)]

theorem recordFirstLine_congr (hset : e.toSetup=d.toSetup) (hb : e.recordBytes r=d.recordBytes r) :
    e.recordFirstLine r=d.recordFirstLine r := by
  simp only [recordFirstLine,hb,hset]

theorem messageText_congr (hset : e.toSetup=d.toSetup) (hb : e.recordBytes r=d.recordBytes r) :
    e.messageText r=d.messageText r := by
  simp only [messageText,hb,hset]

end Texts

/-- Rows before the provisional one keep their records. -/
theorem recordAt_ingest {row : ℕ} (h : row+1<d.index.records.length) (rest : List Record) :
    (d.index.records.dropLast++rest).getD row default=d.recordAt row := by
  have hlt : row<d.index.records.dropLast.length := by
    rw [List.length_dropLast]
    omega
  simp only [recordAt,List.getD_eq_getElem?_getD]
  rw [List.getElem?_append_left hlt,List.getElem?_dropLast,if_pos (by rw [List.length_dropLast] at hlt; exact hlt)]

end Document

theorem Scanned.reread {d : Document} {tail : List Record} {l t : InternTable} (h : Scanned d tail l t) :
    d.reread=d.ingestIndex tail l t := by simp only [Document.reread,h.scan]

@[simp] theorem Document.reread_toSetup (d : Document) : d.reread.toSetup=d.toSetup := by
  obtain ⟨tail,l,t,h⟩ := exists_scanned d
  rw [h.reread,Document.ingestIndex_eq]

@[simp] theorem Document.reread_source (d : Document) : d.reread.source=d.source := by
  obtain ⟨tail,l,t,h⟩ := exists_scanned d
  rw [h.reread,Document.ingestIndex_eq]

namespace LiveController

/-- The document a batch with records in it leaves, before its digest is brought up to date. -/
def ingested (d : Document) (tail : List Record) (l t : InternTable) : Document :=
  (d.ingestView tail l t).resolveHighlighters

/-- A batch without records leaves all but the intern tables; any other replaces the tail. -/
theorem tick_cases (c : LiveController) (more : Bytes) : ∃tail l t,Scanned (c.document.appendBytes more) tail l t ∧
    ((tail=[] ∧ c.tick more={c with document := {c.document.appendBytes more with
        index := {c.document.index with loggers := l,threads := t}}}) ∨
      (tail≠[] ∧ c.tick more=(⟨ingested (c.document.appendBytes more) tail l t,c.lastAlerts⟩ :
        LiveController).runMatchActions
        c.document.index.records.length ((c.document.appendBytes more).provisionalChanged tail)
        (c.document.index.records.length-1))) := by
  obtain ⟨tail,l,t,h⟩ := exists_scanned (c.document.appendBytes more)
  refine ⟨tail,l,t,h,?_⟩
  have hs := h.scan
  cases tail with
  | nil =>
    refine Or.inl ⟨rfl,?_⟩
    simp only [tick,ingestAppended,hs,List.isEmpty_nil,if_true]
    rfl
  | cons r rs =>
    refine Or.inr ⟨by simp,?_⟩
    simp only [tick,ingestAppended,hs,List.isEmpty_cons,Bool.false_eq_true,if_false]
    rfl

@[simp] theorem ingested_index (d : Document) (tail : List Record) (l t : InternTable) :
    (ingested d tail l t).index=(d.ingestIndex tail l t).index := by
  unfold ingested
  rw [Document.ingestView_eq,Document.ingestRuns_eq]
  rfl

@[simp] theorem ingested_toSetup (d : Document) (tail : List Record) (l t : InternTable) :
    (ingested d tail l t).toSetup=d.toSetup := by
  unfold ingested
  rw [Document.ingestView_eq,Document.ingestRuns_eq]
  rfl

@[simp] theorem ingested_source (d : Document) (tail : List Record) (l t : InternTable) :
    (ingested d tail l t).source=d.source := by
  unfold ingested
  rw [Document.ingestView_eq,Document.ingestRuns_eq]
  rfl

@[simp] theorem runMatchActions_index (c : LiveController) (n : ℕ) (changed : Bool) (row : ℕ) :
    (c.runMatchActions n changed row).document.index=c.document.index := by rw [runMatchActions_document]

@[simp] theorem runMatchActions_toSetup (c : LiveController) (n : ℕ) (changed : Bool) (row : ℕ) :
    (c.runMatchActions n changed row).document.toSetup=c.document.toSetup := by rw [runMatchActions_document]

@[simp] theorem runMatchActions_source (c : LiveController) (n : ℕ) (changed : Bool) (row : ℕ) :
    (c.runMatchActions n changed row).document.source=c.document.source := by rw [runMatchActions_document]

@[simp] theorem tick_source (c : LiveController) (more : Bytes) :
    (c.tick more).document.source=c.document.source++more := by
  obtain ⟨tail,l,t,-,⟨-,h⟩ | ⟨-,h⟩⟩ := c.tick_cases more
  · rw [h]
    rfl
  · rw [h,runMatchActions_source,ingested_source]
    rfl

@[simp] theorem tick_toSetup (c : LiveController) (more : Bytes) :
    (c.tick more).document.toSetup=c.document.toSetup := by
  obtain ⟨tail,l,t,-,⟨-,h⟩ | ⟨-,h⟩⟩ := c.tick_cases more
  · rw [h]
    rfl
  · rw [h,runMatchActions_toSetup,ingested_toSetup]
    rfl

/-- The records after a tick: those before the provisional one, then the tail. -/
theorem tick_records (c : LiveController) (more : Bytes) (hp : Placed c.document.source c.document.index.records) :
    ∃tail,(c.tick more).document.index.records=c.document.index.records.dropLast++tail ∧
      (c.document.index.records≠[]→tail≠[]) ∧ (∀r∈tail.head?,r.offset=c.document.startOffset) ∧
      (c.document.appendBytes more).reread.index.records=(c.tick more).document.index.records ∧
      Placed (c.tick more).document.source (c.tick more).document.index.records := by
  obtain ⟨tail,l,t,hscan,⟨rfl,he⟩ | ⟨hne,he⟩⟩ := c.tick_cases more
  · have hrec : c.document.index.records=[] := hscan.records_of_tail_nil hp (List.prefix_append _ _)
    refine ⟨[],?_,fun h => absurd hrec h,by simp,?_,?_⟩
    · rw [he]
      simp [hrec]
    · rw [hscan.reread,he]
      simp [hrec,Document.appendBytes]
    · rw [he]
      simp only [hrec]
      exact ⟨.nil,by simp,by simp⟩
  · have hrec : (c.tick more).document.index.records=c.document.index.records.dropLast++tail := by
      rw [he,runMatchActions_index,ingested_index,Document.ingestIndex_records]
      rfl
    refine ⟨tail,hrec,fun _ => hne,fun r hr => hscan.tail_head hr,?_,?_⟩
    · rw [hscan.reread,Document.ingestIndex_records,hrec]
      rfl
    · rw [tick_source,hrec]
      exact Document.placed_ingest (d:=c.document.appendBytes more) hp (List.prefix_append _ _) hscan

theorem tick_length (c : LiveController) (more : Bytes) (hp : Placed c.document.source c.document.index.records) :
    c.document.index.records.length≤(c.tick more).document.index.records.length := by
  obtain ⟨tail,hrec,hne,-⟩ := c.tick_records more hp
  rw [hrec,List.length_append,List.length_dropLast]
  cases hr : c.document.index.records with
  | nil => simp
  | cons r rs =>
    have := List.length_pos_of_ne_nil (hne (by simp [hr]))
    simp only [List.length_cons]
    omega

/-- Rows before the provisional one keep their records. -/
theorem tick_recordAt {c : LiveController} {row : ℕ} (hp : Placed c.document.source c.document.index.records)
    (h : row+1<c.document.index.records.length) (more : Bytes) :
    (c.tick more).document.recordAt row=c.document.recordAt row := by
  obtain ⟨tail,hrec,-⟩ := c.tick_records more hp
  rw [Document.recordAt,hrec,Document.recordAt_ingest h]

/-- The record at a row in range is one of the records. -/
theorem recordAt_mem {d : Document} {row : ℕ} (h : row<d.index.records.length) :
    d.recordAt row∈d.index.records := by
  rw [Document.recordAt,List.getD_eq_getElem?_getD,List.getElem?_eq_getElem h,Option.getD_some]
  exact List.getElem_mem h

/-- Later rows lie further on in the file. -/
theorem recordAt_ascend {d : Document} {row next : ℕ} (hp : Placed d.source d.index.records) (h : row<next)
    (hn : next<d.index.records.length) : (d.recordAt row).offset<(d.recordAt next).offset := by
  simp only [Document.recordAt,List.getD_eq_getElem?_getD]
  rw [List.getElem?_eq_getElem (h.trans hn),List.getElem?_eq_getElem hn]
  exact List.pairwise_iff_getElem.mp hp.ascend row next (h.trans hn) hn h

/-- And the bytes of those records. -/
theorem tick_recordBytes {c : LiveController} {row : ℕ} (hp : Placed c.document.source c.document.index.records)
    (h : row<c.document.index.records.length) (more : Bytes) :
    (c.tick more).document.recordBytes (c.document.recordAt row)=c.document.recordBytes (c.document.recordAt row) :=
  Document.recordBytes_grow (by rw [tick_source]; exact List.prefix_append _ _) (hp.inside _ (recordAt_mem h))

theorem tick_firstLine {c : LiveController} {row : ℕ} (hp : Placed c.document.source c.document.index.records)
    (h : row+1<c.document.index.records.length) (more : Bytes) :
    (c.tick more).document.recordFirstLine ((c.tick more).document.recordAt row)=
      c.document.recordFirstLine (c.document.recordAt row) := by
  rw [tick_recordAt hp h]
  exact Document.recordFirstLine_congr (tick_toSetup c more) (tick_recordBytes hp (by omega) more)

/-- The provisional record is read again where it stands. -/
theorem tick_offset {c : LiveController} {row : ℕ} (hp : Placed c.document.source c.document.index.records)
    (h : row<c.document.index.records.length) (more : Bytes) :
    ((c.tick more).document.recordAt row).offset=(c.document.recordAt row).offset := by
  by_cases hlast : row+1<c.document.index.records.length
  · rw [tick_recordAt hp hlast]
  · obtain ⟨tail,hrec,hne,hhead,-⟩ := c.tick_records more hp
    obtain ⟨rs,last,hrs⟩ := (List.eq_nil_or_concat' c.document.index.records).resolve_left (by
      intro hnil
      simp [hnil] at h)
    obtain ⟨r,rest,hrest⟩ := List.exists_cons_of_ne_nil (hne (by simp [hrs]))
    have hrow : row=rs.length := by
      simp only [hrs,List.length_append,List.length_singleton] at h hlast
      omega
    have hnew : (c.tick more).document.recordAt row=r := by
      simp [Document.recordAt,hrec,hrs,hrest,hrow,List.getD_eq_getElem?_getD]
    have hold : c.document.recordAt row=last := by
      simp [Document.recordAt,hrs,hrow,List.getD_eq_getElem?_getD]
    rw [hnew,hold,hhead r (by simp [hrest])]
    simp [Document.startOffset,hrs]

/-- What a tick leaves of the records is what reading the new bytes makes of them. -/
theorem reread_recordAt {c : LiveController} (hp : Placed c.document.source c.document.index.records) (more : Bytes)
    (row : ℕ) : (c.document.appendBytes more).reread.recordAt row=(c.tick more).document.recordAt row := by
  obtain ⟨tail,-,-,-,h,-⟩ := c.tick_records more hp
  simp only [Document.recordAt,h]

theorem reread_recordBytes (c : LiveController) (more : Bytes) (r : Record) :
    (c.document.appendBytes more).reread.recordBytes r=(c.tick more).document.recordBytes r := by
  simp only [Document.recordBytes,Document.reread_source,tick_source]
  rfl

theorem reread_toSetup (c : LiveController) (more : Bytes) :
    (c.document.appendBytes more).reread.toSetup=(c.tick more).document.toSetup := by
  rw [Document.reread_toSetup,tick_toSetup]
  rfl

/-- What every tick keeps, a run of ticks keeps. -/
theorem run_induct {P : LiveController→Prop} (hstep : ∀c more,P c→P (c.tick more)) {c : LiveController} (h : P c)
    (chunks : List Bytes) : P (c.run chunks) := by
  induction chunks generalizing c with
  | nil => exact h
  | cons m ms ih => exact ih (hstep c m h)

@[simp] theorem run_source (c : LiveController) (chunks : List Bytes) :
    (c.run chunks).document.source=c.document.source++chunks.flatten := by
  induction chunks generalizing c with
  | nil => simp [run]
  | cons m ms ih =>
    have h := ih (c.tick m)
    simpa [run] using h

@[simp] theorem run_toSetup (c : LiveController) (chunks : List Bytes) :
    (c.run chunks).document.toSetup=c.document.toSetup :=
  run_induct (P:=fun c' => c'.document.toSetup=c.document.toSetup) (fun c m h => by rw [tick_toSetup,h]) rfl chunks

end LiveController

end Loftail
