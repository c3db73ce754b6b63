import Loftail.FirstSeen
import Loftail.RunList

/-! # The intern tables of a followed log

Every line that opens a record interns its names, also one whose end has not been written:
what the tables hold after a batch depends on what the batch before it read. -/
namespace Loftail
open DelimitedLines StartGroups FirstSeen

/-- The two fields of a record that are interned. -/
inductive NameColumn | logger | thread
  deriving DecidableEq,Inhabited,Repr

namespace NameColumn

def field : NameColumn→LineFields→Option Text
  | logger => LineFields.logger
  | thread => LineFields.thread

/-- The table a field is interned in. -/
def table : NameColumn→InternTable×InternTable→InternTable
  | logger => Prod.fst
  | thread => Prod.snd

end NameColumn

def ScanState.tables (s : ScanState) : InternTable×InternTable := (s.loggers,s.threads)

def RecordIndex.tables (idx : RecordIndex) : InternTable×InternTable := (idx.loggers,idx.threads)

private theorem internField_names (t : InternTable) (name : Option Text) :
    (internField t name).2.names=seeAll t.names name.toList := by
  cases name with
  | none => rfl
  | some name =>
    change (t.intern name).2.names=see t.names name
    rw [t.intern_names]
    by_cases h : name∈t.names
    · rw [if_pos h,see_old h]
    · rw [if_neg h,see_new h]

namespace Indexer

variable {ix : Indexer} {column : NameColumn}

/-- The names of the lines that open a record. -/
def names (ix : Indexer) (column : NameColumn) (ls : List Bytes) : List Text :=
  ls.filterMap fun line => column.field (ix.lineFields line)

theorem names_cons (line : Bytes) (ls : List Bytes) :
    ix.names column (line::ls)=(column.field (ix.lineFields line)).toList++ix.names column ls := by
  rw [names,List.filterMap_cons]
  cases column.field (ix.lineFields line) <;> rfl

theorem names_append (ls more : List Bytes) : ix.names column (ls++more)=ix.names column ls++ix.names column more :=
  List.filterMap_append

/-- A line that opens no record has no names. -/
theorem field_continuation {line : Bytes} (h : ix.isStart line=false) : column.field (ix.lineFields line)=none := by
  have hnone : ix.format.startMatch (ix.decoder.lineText line)=none := by
    rwa [isStart,Option.isSome_eq_false_iff,Option.isNone_iff_eq_none] at h
  rw [lineFields,hnone]
  cases column <;> rfl

private theorem names_continuations {ls : List Bytes} (h : ∀line∈ls,ix.isStart line=false) :
    ix.names column ls=[] :=
  List.filterMap_eq_nil_iff.mpr fun line hline => field_continuation (h line hline)

theorem appendRecord_tables (s : ScanState) (pos len : ℕ) (f : LineFields) (parsed : Bool) :
    (column.table (s.appendRecord pos len f parsed).tables).names=
      seeAll (column.table s.tables).names (column.field f).toList := by
  cases column <;> exact internField_names _ _

/-- One line interns its names. -/
theorem lineStep_tables (s : ScanState) (pos : ℕ) (line : Bytes) :
    (column.table (ix.lineStep s pos line).tables).names=
      seeAll (column.table s.tables).names (column.field (ix.lineFields line)).toList := by
  cases hm : ix.format.startMatch (ix.decoder.lineText line) with
  | some m =>
    rw [lineStep,processLine,lineFields,hm]
    exact appendRecord_tables ..
  | none =>
    have hnone : column.field (ix.lineFields line)=none := field_continuation (by rw [isStart,hm]; rfl)
    rw [lineStep,processLine,hm,hnone]
    dsimp only
    split
    · rfl
    · rw [appendRecord_tables]
      cases column <;> rfl

/-- All lines intern theirs in their order. -/
theorem foldLines_tables (s : ScanState) (pos : ℕ) (ls : List Bytes) :
    (column.table (foldLines ix.lineStep pos s ls).tables).names=seeAll (column.table s.tables).names
    (ix.names column ls) := by
  induction ls generalizing pos s with
  | nil => rfl
  | cons line ls ih => rw [foldLines,ih,lineStep_tables,names_cons,seeAll_append]

/-- What one pass over the content interns. -/
def internedNames (ix : Indexer) (column : NameColumn) (content : Bytes) : List Text :=
  seeAll [[]] (ix.names column (lines ix.decoder.finder (content.drop ix.decoder.bomLength)))

theorem index_tables {content : Bytes} {idx : RecordIndex} (h : ix.index content (fun _ => true)=some (true,idx)) :
    (column.table idx.tables).names=ix.internedNames column content := by
  rw [index,forwardScan_scanned] at h
  obtain rfl := Prod.ext_iff.mp (Option.some.inj h) |>.2
  have hall := @foldLines_tables ix column ⟨[],.empty,.empty,none,false⟩ ix.decoder.bomLength
    (lines ix.decoder.finder (content.drop ix.decoder.bomLength))
  have hempty : (column.table (ScanState.tables ⟨[],.empty,.empty,none,false⟩)).names=[[]] :=
    by cases column <;> rfl
  rw [hempty] at hall
  exact hall

end Indexer

theorem Scanned.tables {d : Document} {tail : List Record} {l t : InternTable} (h : Scanned d tail l t)
    (column : NameColumn) : (column.table (l,t)).names=seeAll (column.table d.index.tables).names
      (d.indexer.names column (lines d.decoder.finder (d.source.drop d.startOffset))) := by
  have hscan := h.scan
  rw [Indexer.scanAppendedTail,Indexer.forwardScan_scanned] at hscan
  obtain ⟨-,htables⟩ := Prod.ext_iff.mp (Option.some.inj hscan)
  rw [← show _=(l,t) from htables]
  exact Indexer.foldLines_tables ..

namespace Document

/-- The lines before the provisional record. -/
def settledLines (d : Document) : List Bytes :=
  lines d.decoder.finder ((d.source.take d.startOffset).drop d.decoder.bomLength)

/-- The lines from the provisional record on. -/
def tailLines (d : Document) : List Bytes := lines d.decoder.finder (d.source.drop d.startOffset)

/-- The index stands at a record: the lines before it are settled, and one record is all that follows. -/
structure Tailed (d : Document) : Prop where
  reach : d.decoder.bomLength≤d.startOffset
  inside : d.index.records≠[]→d.startOffset<d.source.length
  cut : ∀more,lines d.decoder.finder ((d.source++more).drop d.decoder.bomLength)=
    d.settledLines++lines d.decoder.finder ((d.source++more).drop d.startOffset)
  rest : ∀line∈d.tailLines.tail,d.indexer.isStart line=false

/-- The name that the provisional record has as it stands. -/
def provisionalName (d : Document) (column : NameColumn) : Option Text :=
  d.tailLines.head?.bind fun line => column.field (d.indexer.lineFields line)

/-- The name the provisional record has was known before it, or is still the first new one once `more` has
arrived. -/
def NameStands (d : Document) (column : NameColumn) (more : Bytes) : Prop :=
  ∀name∈d.provisionalName column,
    name∈[]::d.indexer.names column d.settledLines ∨
      ((d.indexer.names column (d.appendBytes more).tailLines).find? fun a =>
        a∉[]::d.indexer.names column d.settledLines)=some name

instance (d : Document) (column : NameColumn) (more : Bytes) : Decidable (d.NameStands column more) :=
  inferInstanceAs (Decidable (∀_∈_,_))

/-- The tables are those of one pass over the bytes present. -/
def NamesExact (d : Document) : Prop :=
  ∃idx,d.indexer.index d.source (fun _ => true)=some (true,idx) ∧ d.index.loggers=idx.loggers ∧
    d.index.threads=idx.threads

variable {d e : Document} {more : Bytes} {column : NameColumn}

theorem namesExact_iff : d.NamesExact ↔ ∀column : NameColumn,
    (column.table d.index.tables).names=d.indexer.internedNames column d.source := by
  obtain ⟨idx,hidx,-⟩ := Indexed.of_index d.indexer d.source
  constructor
  · rintro ⟨idx,hidx,hlog,hthr⟩ column
    rw [← Indexer.index_tables hidx,RecordIndex.tables,hlog,hthr]
    rfl
  · intro h
    refine ⟨idx,hidx,InternTable.ext ?_,InternTable.ext ?_⟩
    · exact (h .logger).trans (Indexer.index_tables hidx).symm
    · exact (h .thread).trans (Indexer.index_tables hidx).symm

/-- One record is all the tail gives the tables. -/
theorem Tailed.names_tail (h : d.Tailed) :
    d.indexer.names column d.tailLines=(d.provisionalName column).toList := by
  rw [provisionalName]
  have hrest := h.rest
  cases htail : d.tailLines with
  | nil => rfl
  | cons line rest =>
    rw [htail,List.tail_cons] at hrest
    rw [Indexer.names_cons,Indexer.names_continuations hrest,List.append_nil]
    rfl

/-- Only where no record has been found yet is there nothing to read. -/
theorem Tailed.unread (h : d.Tailed) (hfold : d.indexer.lineFold (d.source++more) d.startOffset=[]) :
    d.index.records=[] ∧ (d.source++more).drop d.startOffset=[] := by
  have hspan := Indexer.spans_lineGroups d.indexer (d.source++more) d.startOffset
  have hgroups : d.indexer.lineGroups (d.source++more) d.startOffset=[] := by
    have hlen := congrArg List.length hfold
    rw [Indexer.lineFold,Indexer.groupViews_length] at hlen
    exact List.eq_nil_of_length_eq_zero hlen
  rw [hgroups,Indexer.spans_nil,List.length_append] at hspan
  constructor
  · by_contra hne
    have hlt := h.inside hne
    omega
  · rw [List.drop_eq_nil_iff,List.length_append]
    omega

/-- The records a scan has found leave the index at the last of them. -/
theorem Tailed.step {tail : List Record} {l t : InternTable} (h : d.Tailed) (hset : e.toSetup=d.toSetup)
    (hsource : e.source=d.source++more) (hrecords : e.index.records=d.index.records.dropLast++tail)
    (hviews : tail.map (Record.view l t)=d.indexer.lineFold e.source d.startOffset) : e.Tailed := by
  have hdecoder : e.decoder=d.decoder := congrArg Setup.decoder hset
  have hindexer : e.indexer=d.indexer := congrArg Setup.indexer hset
  have hlines := h.cut more
  rw [← hsource] at hlines
  rcases List.eq_nil_or_concat' (d.indexer.lineGroups e.source d.startOffset) with hgs | ⟨gs,g,hgs⟩
  · -- Nothing is there to read: no record has been found yet.
    have hfold : d.indexer.lineFold e.source d.startOffset=[] := by rw [Indexer.lineFold,hgs]; rfl
    have htail : tail=[] := by rwa [hfold,List.map_eq_nil_iff] at hviews
    rw [hsource] at hfold
    obtain ⟨hrec,hnone⟩ := h.unread hfold
    rw [← hsource] at hnone
    have hempty : e.index.records=[] := by rw [hrecords,htail,hrec]; rfl
    have hstart : e.startOffset=e.decoder.bomLength := by rw [startOffset,hempty]; rfl
    have hold : d.startOffset=d.decoder.bomLength := by rw [startOffset,hrec]; rfl
    refine ⟨hstart.ge,fun hne => absurd hempty hne,fun more' => ?_,?_⟩
    · rw [settledLines,hstart,List.drop_take,Nat.sub_self,List.take_zero,lines_nil,List.nil_append]
    · rw [tailLines,hstart,hdecoder,← hold,hnone,lines_nil]
      exact fun line hline => by cases hline
  · -- The last group is the last record, and what precedes it is settled.
    obtain ⟨r,hr,hoffset⟩ : ∃r,tail.getLast?=some r ∧ r.offset=d.startOffset+d.indexer.spans gs := by
      have hlast := congrArg List.getLast? hviews
      rw [Indexer.lineFold,hgs,Indexer.groupViews_append,List.getLast?_map] at hlast
      simp only [Indexer.groupViews,List.getLast?_concat] at hlast
      obtain ⟨r,hr,hview⟩ := Option.map_eq_some_iff.mp hlast
      exact ⟨r,hr,congrArg RecordView.offset hview⟩
    have hstart : e.startOffset=d.startOffset+d.indexer.spans gs := by
      rw [startOffset,hrecords,List.getLast?_append_of_ne_nil _ (by rintro rfl; cases hr),hr]
      exact hoffset
    have hcut : lines d.decoder.finder (e.source.drop d.startOffset)=(gs.map Group.elems).flatten++g.elems := by
      rw [← @groups_flatten _ d.indexer.isStart (lines d.decoder.finder (e.source.drop d.startOffset))]
      change ((d.indexer.lineGroups e.source d.startOffset).map Group.elems).flatten=_
      rw [hgs,List.map_append,List.flatten_append,List.map_singleton,List.flatten_singleton]
    rw [Indexer.spans_eq] at hstart
    have hlast : lines d.decoder.finder (e.source.drop e.startOffset)=g.elems := hstart ▸ lines_from _ hcut
    have hreach : d.decoder.bomLength≤e.startOffset := h.reach.trans (hstart ▸ Nat.le_add_right _ _)
    have hgrown (more' : Bytes) : lines d.decoder.finder ((e.source++more').drop d.decoder.bomLength)=
        (d.settledLines++(gs.map Group.elems).flatten)++lines d.decoder.finder
          ((e.source++more').drop e.startOffset) := by
      have hall := h.cut (more++more')
      rw [← List.append_assoc,← hsource] at hall
      rw [hall,lines_grown _ hcut g.elems_ne_nil,← hstart,List.append_assoc]
    have hsettled : e.settledLines=d.settledLines++(gs.map Group.elems).flatten := by
      have hnow := hgrown []
      rw [List.append_nil] at hnow
      rw [settledLines,hdecoder]
      exact lines_between _ hreach hnow
    refine ⟨hdecoder ▸ hreach,fun _ => hstart ▸ begins_inside _ hcut g.elems_ne_nil,fun more' => ?_,?_⟩
    · rw [hdecoder,hsettled,hgrown]
    · rw [tailLines,hdecoder,hlast,hindexer]
      intro line hline
      cases hopen : d.indexer.isStart g.head with
      | true => exact g.continues line hline
      | false => rw [Group.elems,g.alone hopen] at hline; cases hline

/-- With exact tables every name is one that a line present has. -/
theorem NamesExact.present (h : d.NamesExact) : ∀name∈(column.table d.index.tables).names,
    name=[] ∨ ∃line∈lines d.decoder.finder (d.source.drop d.decoder.bomLength),
      column.field (d.indexer.lineFields line)=some name := by
  intro name hname
  rw [namesExact_iff.mp h column,Indexer.internedNames,mem_seeAll,List.mem_singleton,Indexer.names,
    List.mem_filterMap] at hname
  exact hname

/-- A file just read leaves the tables of the pass that read it. -/
theorem rescan_namesExact (d : Document) (content : Bytes) : (d.rescan content).NamesExact := by
  obtain ⟨idx,hidx,-⟩ := Indexed.of_index d.indexer content
  obtain ⟨hset,hsource,-⟩ := d.rescan_spec content
  have hindex : (d.rescan content).index=idx := by
    set e : Document := {d with filtered := .cleared,source := content}.clearDigest.invalidateRunMemos with he
    have hi : e.indexer.index content (fun _ => true)=some (true,idx) := hidx
    rw [rescan,← he,hi]
    exact ((keepsRuns_detectRuns {e with index := idx}).trans (keepsRuns_selectLastRun _)).index
  have hsame : (d.rescan content).indexer=d.indexer := congrArg Setup.indexer hset
  exact ⟨idx,by rw [hsame,hsource]; exact hidx,by rw [hindex],by rw [hindex]⟩

private theorem rescan_tailed (d : Document) (content : Bytes) : (d.rescan content).Tailed := by
  obtain ⟨hset,hsource,hindexed,-⟩ := d.rescan_spec content
  have hblank : Tailed {d with source := [],index := .empty} := by
    refine ⟨le_rfl,fun hne => absurd rfl hne,fun more => ?_,fun line hline => ?_⟩
    · have hnone : settledLines {d with source := [],index := .empty}=[] := by
        rw [settledLines,List.take_nil,List.drop_nil,lines_nil]
      rw [hnone,List.nil_append]
      rfl
    · rw [tailLines,List.drop_nil,lines_nil] at hline
      cases hline
  refine @Tailed.step _ (d.rescan content) content _ (d.rescan content).index.loggers
    (d.rescan content).index.threads hblank
    hset (hsource.trans (List.nil_append _).symm) (List.nil_append _).symm ?_
  rw [hsource]
  exact hindexed.views

end Document

namespace LiveController

variable {c : LiveController} {more : Bytes} {column : NameColumn}

private theorem tick_tailed (h : c.document.Tailed) (more : Bytes) : (c.tick more).document.Tailed := by
  obtain ⟨tail,l,t,hscan,hcase⟩ := c.tick_cases more
  refine @Document.Tailed.step _ _ more tail l t h (c.tick_toSetup more) (c.tick_source more) ?_
    (by rw [tick_source]; exact hscan.views)
  rcases hcase with ⟨rfl,he⟩ | ⟨-,he⟩
  · have hnone : c.document.index.records=[] := (h.unread hscan.views.symm).1
    rw [he]
    simp [hnone]
  · rw [he,runMatchActions_index,ingested_index,Document.ingestIndex_records]
    rfl

/-- A tick sees the names of the lines from the provisional record on. -/
theorem tick_interns (c : LiveController) (more : Bytes) (column : NameColumn) :
    (column.table (c.tick more).document.index.tables).names=seeAll (column.table c.document.index.tables).names
      (c.document.indexer.names column (c.document.appendBytes more).tailLines) := by
  obtain ⟨tail,l,t,hscan,hcase⟩ := c.tick_cases more
  have htables : (c.tick more).document.index.tables=(l,t) := by
    rcases hcase with ⟨rfl,he⟩ | ⟨-,he⟩
    · rw [he]
      rfl
    · rw [he,runMatchActions_index,ingested_index,RecordIndex.tables,Document.ingestIndex_loggers,
        Document.ingestIndex_threads]
  rw [htables]
  exact hscan.tables column

/-- The step: exact tables stay exact just where the provisional record's names stand. -/
theorem tick_namesExact (h : c.document.Tailed) (hexact : c.document.NamesExact) (more : Bytes) :
    (c.tick more).document.NamesExact ↔ ∀column,c.document.NameStands column more := by
  have hindexer : (c.tick more).document.indexer=c.document.indexer := congrArg Setup.indexer (c.tick_toSetup more)
  rw [Document.namesExact_iff]
  refine forall_congr' fun column => ?_
  have hold : (column.table c.document.index.tables).names=
      seeAll (seeAll [[]] (c.document.indexer.names column c.document.settledLines))
        (c.document.provisionalName column).toList := by
    have hnow := h.cut []
    rw [List.append_nil] at hnow
    rw [Document.namesExact_iff.mp hexact column,Indexer.internedNames,← seeAll_append,← h.names_tail,
      ← Indexer.names_append]
    exact congrArg (fun ls => seeAll [[]] (c.document.indexer.names column ls)) hnow
  have hnew : c.document.indexer.internedNames column (c.document.source++more)=
      seeAll (seeAll [[]] (c.document.indexer.names column c.document.settledLines))
        (c.document.indexer.names column (c.document.appendBytes more).tailLines) := by
    rw [← seeAll_append,← Indexer.names_append]
    exact congrArg (fun ls => seeAll [[]] (c.document.indexer.names column ls)) (h.cut more)
  rw [tick_interns,hindexer,tick_source,hold,hnew,Document.NameStands]
  cases c.document.provisionalName column with
  | none => simp
  | some name =>
    have hmem (a : Text) : a∈seeAll [[]] (c.document.indexer.names column c.document.settledLines) ↔
        a∈[]::c.document.indexer.names column c.document.settledLines := by
      rw [mem_seeAll,List.mem_singleton,List.mem_cons]
    simp only [Option.toList_some,seeAll_cons,seeAll_nil,Option.mem_some_iff,forall_eq']
    rw [seeAll_early]
    simp only [hmem]

/-- In a run from an open the tables are exact after every batch just where the provisional record's names stand
at every batch; and where they are exact, every name is one that a line present has. -/
theorem run_names (c : LiveController) (content : Bytes) (chunks : List Bytes) :
    ((∀k≤chunks.length,((c.reopened content).run (chunks.take k)).document.NamesExact) ↔
      ∀(k : ℕ) (more : Bytes),chunks[k]?=some more→
        ∀column,((c.reopened content).run (chunks.take k)).document.NameStands column more) ∧
    ∀k≤chunks.length,((c.reopened content).run (chunks.take k)).document.NamesExact→
      ∀(column : NameColumn),∀name∈(column.table
        ((c.reopened content).run (chunks.take k)).document.index.tables).names,
        name=[] ∨ ∃line∈lines c.document.decoder.finder
            ((content++(chunks.take k).flatten).drop c.document.decoder.bomLength),
          column.field (c.document.indexer.lineFields line)=some name := by
  have hset : (c.reopened content).document.toSetup=c.document.toSetup := (c.document.rescan_spec content).1
  constructor
  · have hrun : ∀d : LiveController,d.document.Tailed→d.document.NamesExact→
        ((∀k≤chunks.length,(d.run (chunks.take k)).document.NamesExact) ↔
          ∀(k : ℕ) (more : Bytes),chunks[k]?=some more→∀column,
            (d.run (chunks.take k)).document.NameStands column more) := by
      induction chunks with
      | nil =>
        intro d _ hexact
        refine iff_of_true (fun k _ => ?_) fun k more hk => by cases hk
        rw [List.take_nil]
        exact hexact
      | cons m ms ih =>
        intro d htailed hexact
        have hstep := tick_namesExact htailed hexact m
        have hnext := tick_tailed htailed m
        constructor
        · intro h k more hk
          have hfirst : (d.tick m).document.NamesExact := h 1 (by simp)
          cases k with
          | zero =>
            obtain rfl := Option.some.inj hk
            exact hstep.mp hfirst
          | succ k =>
            exact (ih _ hnext hfirst).mp (fun j hj => h (j+1) (Nat.succ_le_succ hj)) k more hk
        · intro h k hk
          have hfirst := hstep.mpr (h 0 m rfl)
          cases k with
          | zero => exact hexact
          | succ k =>
            exact (ih _ hnext hfirst).mpr (fun j more hj => h (j+1) more hj) k (Nat.le_of_succ_le_succ hk)
    exact hrun _ (c.document.rescan_tailed content) (c.document.rescan_namesExact content)
  · intro k _ hexact column name hname
    have hsource : ((c.reopened content).run (chunks.take k)).document.source=content++(chunks.take k).flatten := by
      rw [run_source]
      exact congrArg (·++_) (c.document.rescan_spec content).2.1
    have hsetup := ((c.reopened content).run_toSetup (chunks.take k)).trans hset
    have hpresent := hexact.present name hname
    rw [hsource] at hpresent
    rw [show ((c.reopened content).run (chunks.take k)).document.decoder=c.document.decoder from
      congrArg Setup.decoder hsetup,
      show ((c.reopened content).run (chunks.take k)).document.indexer=c.document.indexer from
        congrArg Setup.indexer hsetup] at hpresent
    exact hpresent

/-- `%c:%m%n`, whose logger ends at the last colon before a blank. -/
def named : Document :=
  let line (pattern : Text) (captures : ℕ) : Regex :=
    ⟨pattern,true,captures,fun text =>
      let word := text.takeWhile fun u => !isSpace u
      let name := (word.reverse.dropWhile (·≠0x3A)).tail.reverse
      if name.isEmpty then none
      else some ⟨fun i => if i=1 then name else if i=2 then text.drop (name.length+1) else [],name.length+1⟩⟩
  .make .ascii {LogFormat.empty with
    recordRe := line (latin1 "^(\\S+):(.*)$") 2,recordStartRe := line (latin1 "^(\\S+):") 1
    loggerGroup := 1,msgGroup := 2} .latin1 (.fixed 0)

/-- A logger cut after its first colons stays in the table when the rest of it has arrived. -/
theorem run_names_partial : ¬∀(c : LiveController) (content : Bytes) (chunks : List Bytes),
    ∀k≤chunks.length,((c.reopened content).run (chunks.take k)).document.NamesExact := by
  intro h
  have hexact := h ⟨named,.none⟩ (ascii "net::ht") [ascii "tp:up\n"] 1 le_rfl
  have hnames := Document.namesExact_iff.mp hexact .logger
  revert hnames
  decide +kernel

/-- Two batches of whole lines. -/
theorem run_names_whole : ∀k≤2,(((⟨named,.none⟩ : LiveController).reopened (ascii "net::http:up\n")).run
    ([ascii "gui:shown\n",ascii "net::http:down\n"].take k)).document.NamesExact := by
  apply (run_names ⟨named,.none⟩ (ascii "net::http:up\n") [ascii "gui:shown\n",ascii "net::http:down\n"]).1.mpr
  intro k more hk column
  match k,hk with
  | 0,rfl => cases column <;> decide +kernel
  | 1,rfl => cases column <;> decide +kernel

end LiveController

end Loftail
