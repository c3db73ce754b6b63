import Loftail.LineFold
import Loftail.PatternCompiler

/-! # The preview of a format

A loop over a sample of its own, which stops as soon as it has rows enough: the rows it shows are the
first records that indexing the sample opens. -/
namespace Loftail
open DelimitedLines StartGroups

/-- One record of the preview. -/
structure PreviewRow where
  matched : Bool
  fields : List Text
  rawFirstLine : Text
  deriving DecidableEq

structure PreviewResult where
  headers : List Text
  rows : List PreviewRow
  matchedCount : ℕ
  totalCount : ℕ
  deriving DecidableEq

/-- The column continuation lines are folded into. -/
def messageColumn (format : CompiledFormat) : Option ℕ := format.fields.findIdx? (fun f => f.role=.message)

namespace FormatPreview

/-- The rows so far, and the row that is open for continuations. -/
structure State where
  rows : List PreviewRow
  matchedCount : ℕ
  openRow : Option ℕ
  openMatched : Bool

def State.initial : State := ⟨[],0,none,false⟩

/-- What `recordRe` captures of a field on a line. -/
def captured (format : CompiledFormat) (line : Text) (f : Field) : Text :=
  match format.recordRe.exec line with
  | some fm => if f.group>0 then fm.captured f.group else []
  | none => []

/-- A continuation line onto the message of a row. -/
def foldLine (format : CompiledFormat) (line : Text) (row : PreviewRow) : PreviewRow :=
  match messageColumn format with
  | some msgCol => {row with fields := row.fields.modify msgCol (fun text => text++0x0A::line)}
  | none => row

/-- One line onto the rows so far. -/
def previewLine (format : CompiledFormat) (s : State) (line : Text) : State :=
  if (format.startMatch line).isSome then
    {rows := s.rows++[⟨true,format.fields.map (captured format line),line⟩],matchedCount := s.matchedCount+1
     openRow := some s.rows.length,openMatched := true}
  else match s.openRow,s.openMatched with
    | some row,true => {s with rows := s.rows.modify row (foldLine format line)}
    | _,_ => {s with rows := s.rows++[⟨false,format.fields.map (fun _ => []),line⟩],openRow := some s.rows.length
                     openMatched := false}

/-- The loop from `pos` on. -/
def previewFrom (format : CompiledFormat) (sample : Bytes) (decoder : Decoder) (maxRecords : ℤ) :
    ℕ→ℕ→State→Option State
  | 0,_,_ => none
  | fuel+1,pos,s =>
    if pos<sample.length ∧ (s.rows.length : ℤ) < maxRecords then
      let e := decoder.lineEnd sample pos
      let contentLen := (e.1-pos)-(if e.2 then decoder.unitSize else 0)
      let line := decoder.decodeLine ((sample.drop pos).take contentLen)
      if e.1≤pos then some s else previewFrom format sample decoder maxRecords fuel e.1 (previewLine format s line)
    else some s

def build (format : CompiledFormat) (sample : Bytes) (decoder : Decoder) (maxRecords : ℤ) : Option PreviewResult :=
  (previewFrom format sample decoder maxRecords (sample.length+1) decoder.bomLength .initial).map fun s =>
    ⟨format.fields.map Field.name,s.rows,s.matchedCount,s.rows.length⟩

/-! The loop over the lines. -/

/-- The loop, given the lines. -/
def previewLines (format : CompiledFormat) (decoder : Decoder) (maxRecords : ℕ) : List Bytes→State→State
  | [],s => s
  | l::ls,s =>
    if s.rows.length < maxRecords then previewLines format decoder maxRecords ls
      (previewLine format s (decoder.lineText l))
    else s

private theorem previewFrom_lines (format : CompiledFormat) (sample : Bytes) (decoder : Decoder)
    (maxRecords : ℤ) (fuel : ℕ) {pos : ℕ}
    (s : State) (hfuel : sample.length-pos<fuel) : previewFrom format sample decoder maxRecords fuel pos s=
      some (previewLines format decoder maxRecords.toNat (lines decoder.finder (sample.drop pos)) s) := by
  induction fuel generalizing pos s with
  | zero => omega
  | succ fuel ih =>
    have hmore : (s.rows.length : ℤ) < maxRecords ↔ s.rows.length < maxRecords.toNat := by omega
    rw [previewFrom]
    by_cases hpos : pos<sample.length
    · have hne : sample.drop pos≠[] := by
        simp
        omega
      cases hn : decoder.newline (sample.drop pos) with
      | some k =>
        have hk := @LineFinder.le _ decoder.finder (sample.drop pos) _ hn
        have hp := @LineFinder.pos _ decoder.finder (sample.drop pos) _ hn
        rw [List.length_drop] at hk
        have hlen : ((sample.drop pos).take k).length=k := by
          simp
          omega
        have hterm : decoder.finder.Terminated ((sample.drop pos).take k) :=
          @LineFinder.terminated_take _ decoder.finder (sample.drop pos) _ hn
        have htext : decoder.decodeLine ((sample.drop pos).take (k-decoder.unitSize))=
            decoder.lineText ((sample.drop pos).take k) := by
          rw [Decoder.lineText,Decoder.lineContent,if_pos hterm,hlen,List.take_take,
            Nat.min_eq_left (Nat.sub_le _ _)]
        rw [lines_of_find decoder.finder hn,previewLines]
        simp only [hpos,hmore,true_and,Decoder.lineEnd_of_newline hn,if_true,Nat.add_sub_cancel_left,htext]
        split
        · rw [if_neg (by omega),ih _ (by omega),List.drop_drop]
        · rfl
      | none =>
        have hnot : ¬decoder.finder.Terminated (sample.drop pos) := by
          intro hterm
          rw [LineFinder.Terminated] at hterm
          cases hn.symm.trans hterm
        have htext : decoder.decodeLine ((sample.drop pos).take (sample.length-pos-0))=decoder.lineText
          (sample.drop pos) := by
          rw [Decoder.lineText,Decoder.lineContent,if_neg hnot,List.length_drop]
        rw [lines_of_unfound decoder.finder hne hn,previewLines,previewLines]
        simp only [hpos,hmore,true_and,Decoder.lineEnd_of_none hn,Bool.false_eq_true,if_false,htext]
        split
        · rw [if_neg (by omega),ih _ (by omega),List.drop_length,lines_nil,previewLines]
        · rfl
    · rw [if_neg (by simp [hpos]),List.drop_of_length_le (by omega),lines_nil,previewLines]

/-! The rows and the records. -/

section Rows
variable {ix : Indexer} {fields : List Field} {s : State} {gs : List (Group ix.isStart)}

/-- The row of a record, with what is folded of it. -/
def rowOf (ix : Indexer) (fields : List Field) (g : Group ix.isStart) : PreviewRow :=
  if ix.isStart g.head then
    (g.tail.map ix.decoder.lineText).foldl (fun row line => foldLine ⟨ix.format,fields⟩ line row)
      ⟨true,fields.map (captured ⟨ix.format,fields⟩ (ix.decoder.lineText g.head)),ix.decoder.lineText g.head⟩
  else ⟨false,fields.map (fun _ => []),ix.decoder.lineText g.head⟩

theorem foldl_foldLine (format : CompiledFormat) (more : List Text) (row : PreviewRow) :
    more.foldl (fun row line => foldLine format line row) row={row with
      fields := match messageColumn format with
        | some msgCol => row.fields.modify msgCol (fun text => text++more.flatMap (0x0A::·))
        | none => row.fields} := by
  induction more generalizing row with
  | nil =>
    cases hcol : messageColumn format with
    | none => rfl
    | some msgCol =>
      have hsame : (fun text : Text => text++[].flatMap (0x0A::·))=id := by
        funext text
        exact List.append_nil text
      change row={row with fields := row.fields.modify msgCol (fun text => text++[].flatMap (0x0A::·))}
      rw [hsame,List.modify_id]
  | cons line more ih =>
    rw [List.foldl_cons,ih,foldLine]
    cases messageColumn format with
    | none => rfl
    | some msgCol =>
      have hmodify : ∀xs : List Text,(xs.modify msgCol (fun text => text++0x0A::line)).modify msgCol
          (fun text => text++more.flatMap (0x0A::·))=xs.modify msgCol
            (fun text => text++(line::more).flatMap (0x0A::·)) := by
        intro xs
        rw [List.modify_modify_eq]
        congr 1
        funext text
        simp
      simp only [hmodify]

theorem rowOf_matched (g : Group ix.isStart) : (rowOf ix fields g).matched=ix.isStart g.head ∧
    (rowOf ix fields g).rawFirstLine=ix.decoder.lineText g.head := by
  unfold rowOf
  split
  · rename_i hstart
    rw [foldl_foldLine]
    exact ⟨hstart.symm,rfl⟩
  · rename_i hstart
    exact ⟨by simpa using hstart,rfl⟩

/-- What the loop holds once the lines of these records went through it. -/
structure Previewed (ix : Indexer) (fields : List Field) (s : State) (gs : List (Group ix.isStart)) : Prop where
  rows : s.rows=gs.map (rowOf ix fields)
  matchedCount : s.matchedCount=gs.countP (fun g => ix.isStart g.head)
  openRow : s.openRow=if gs=[] then none else some (gs.length-1)
  openMatched : ∀g∈gs.getLast?,s.openMatched=ix.isStart g.head

theorem previewed_initial : Previewed ix fields .initial [] := ⟨rfl,rfl,rfl,fun g hg => by cases hg⟩

/-- The step lemma: one line of the loop is one line onto the records. -/
theorem previewed_line (h : Previewed ix fields s gs) (line : Bytes) :
    Previewed ix fields (previewLine ⟨ix.format,fields⟩ s (ix.decoder.lineText line))
    (push gs.reverse line).reverse := by
  have hlen : s.rows.length=gs.length := by rw [h.rows,List.length_map]
  have alone : ∀{t : State} {matched : Bool},ix.isStart line=matched→
      t=⟨s.rows++[rowOf ix fields (.single ix.isStart line)],s.matchedCount+(if matched then 1 else 0),
        some s.rows.length,matched⟩→
      Previewed ix fields t (gs++[.single ix.isStart line]) := by
    rintro t matched hm rfl
    refine ⟨?_,?_,?_,?_⟩
    · rw [h.rows,List.map_append]
      rfl
    · rw [List.countP_append,h.matchedCount,List.countP_singleton,Group.head_single,hm]
    · change some s.rows.length=_
      rw [if_neg (by simp),hlen,List.length_append,List.length_singleton,Nat.add_sub_cancel]
    · intro g hg
      rw [List.getLast?_concat,Option.mem_some_iff] at hg
      rw [← hg]
      exact hm.symm
  cases hm : ix.isStart line with
  | true =>
    have hstart : (ix.format.startMatch (ix.decoder.lineText line)).isSome=true := hm
    rw [push_start _ hm,List.reverse_cons,List.reverse_reverse]
    apply alone hm
    rw [previewLine,if_pos hstart,rowOf,if_pos (by exact hm)]
    rfl
  | false =>
    have hstart : (ix.format.startMatch (ix.decoder.lineText line)).isSome=false := hm
    have hrow : rowOf ix fields (.single ix.isStart line)=⟨false,fields.map (fun _ => []),
      ix.decoder.lineText line⟩ := by
      rw [rowOf,if_neg (by simpa using hm)]
      rfl
    obtain rfl | ⟨gs,g,rfl⟩ := List.eq_nil_or_concat' gs
    · rw [List.reverse_nil,push_alone hm (by simp)]
      apply alone hm
      rw [previewLine,if_neg (by simp [hstart]),h.openRow,hrow]
      rfl
    · have hopen := h.openRow
      have hparsed := h.openMatched g (by simp)
      rw [if_neg (by simp),List.length_append,List.length_singleton,Nat.add_sub_cancel] at hopen
      cases hg : ix.isStart g.head with
      | true =>
        rw [List.reverse_append,List.reverse_singleton,List.singleton_append,push_join g _ hg hm,List.reverse_cons,
          List.reverse_reverse,previewLine,if_neg (by simp [hstart]),hopen,hparsed,hg]
        have hext : rowOf ix fields (g.extend line hg hm)=foldLine ⟨ix.format,fields⟩ (ix.decoder.lineText line)
            (rowOf ix fields g) := by
          rw [rowOf,rowOf,if_pos hg,if_pos (by exact hg)]
          have htail : (g.extend line hg hm).tail=g.tail++[line] := rfl
          rw [htail,List.map_append,List.foldl_append]
          rfl
        refine ⟨?_,?_,?_,?_⟩
        · simp only [h.rows,List.map_append,List.map_cons,List.map_nil,hext]
          have hat : gs.length=(gs.map (rowOf ix fields)).length := by simp
          rw [hat,Indexer.modify_last]
        · rw [h.matchedCount,List.countP_append,List.countP_append]
          rfl
        · rw [if_neg (by simp),List.length_append,List.length_singleton,Nat.add_sub_cancel]
        · intro k hk
          rw [List.getLast?_concat,Option.mem_some_iff] at hk
          rw [← hk]
          exact hg.symm
      | false =>
        rw [push_alone hm (by simpa using hg),List.reverse_cons,List.reverse_reverse]
        apply alone hm
        rw [previewLine,if_neg (by simp [hstart]),hopen,hparsed,hg,hrow]
        rfl

/-- The loop to its end: all lines, or up to the one that opens the last row there is room for. -/
theorem previewed_lines {maxRecords : ℕ} {before : List Bytes} (ls : List Bytes)
    (h : Previewed ix fields s (groups ix.isStart before))
    (hroom : (groups ix.isStart before).length < maxRecords) :
    ∃taken rest,ls=taken++rest ∧
      Previewed ix fields (previewLines ⟨ix.format,fields⟩ ix.decoder maxRecords ls s)
      (groups ix.isStart (before++taken)) ∧
      (rest=[] ∧ (groups ix.isStart (before++taken)).length < maxRecords ∨
        ∃gs g,groups ix.isStart (before++taken)=gs++[g] ∧ gs.length+1=maxRecords ∧ g.tail=[]) := by
  induction ls generalizing before s with
  | nil =>
    refine ⟨[],[],rfl,?_,Or.inl ⟨rfl,?_⟩⟩
    · rw [List.append_nil]
      exact h
    · rwa [List.append_nil]
  | cons l ls ih =>
    have hlen : s.rows.length=(groups ix.isStart before).length := by rw [h.rows,List.length_map]
    have hnext := previewed_line h l
    rw [← groups_concat] at hnext
    have hstep : previewLines ⟨ix.format,fields⟩ ix.decoder maxRecords (l::ls) s=
        previewLines ⟨ix.format,fields⟩ ix.decoder maxRecords ls
          (previewLine ⟨ix.format,fields⟩ s (ix.decoder.lineText l)) := by
      rw [previewLines,if_pos (by rwa [hlen])]
    rw [hstep]
    by_cases hmore : (groups ix.isStart (before++[l])).length < maxRecords
    · obtain ⟨taken,rest,rfl,hprev,hend⟩ := ih hnext hmore
      exact ⟨l::taken,rest,rfl,by simpa using hprev,by simpa using hend⟩
    · -- The line opened the last row: the loop is left.
      have hfull : (previewLine ⟨ix.format,fields⟩ s (ix.decoder.lineText l)).rows.length=
          (groups ix.isStart (before++[l])).length := by rw [hnext.rows,List.length_map]
      have hstop : previewLines ⟨ix.format,fields⟩ ix.decoder maxRecords ls (previewLine ⟨ix.format,fields⟩ s
          (ix.decoder.lineText l))=previewLine ⟨ix.format,fields⟩ s (ix.decoder.lineText l) := by
        cases ls with
        | nil => rfl
        | cons l' ls => rw [previewLines,if_neg (by rwa [hfull])]
      have hopened : groups ix.isStart (before++[l])=groups ix.isStart before++[.single ix.isStart l] := by
        rw [groups_concat] at hmore ⊢
        cases hl : ix.isStart l with
        | true => rw [push_start _ hl,List.reverse_cons,List.reverse_reverse]
        | false =>
          obtain hnil | ⟨gs,g,hgs⟩ := List.eq_nil_or_concat' (groups ix.isStart before)
          · rw [hnil]
            rw [List.reverse_nil,push_alone hl (by simp)]
            rfl
          · rw [hgs] at hmore hroom ⊢
            rw [List.reverse_append,List.reverse_singleton,List.singleton_append] at hmore ⊢
            cases hg : ix.isStart g.head with
            | true =>
              rw [push_join g _ hg hl] at hmore
              simp at hmore hroom
              omega
            | false =>
              rw [push_alone hl (by simpa using hg)]
              simp
      refine ⟨[l],ls,rfl,?_,Or.inr ⟨_,_,hopened,?_,rfl⟩⟩
      · rwa [hstop]
      · rw [hopened,List.length_append,List.length_singleton] at hmore
        omega

/-- The rows are those of the first records; of the last one there is room for nothing is folded. -/
theorem previewLines_rows (ix : Indexer) (fields : List Field) (maxRecords : ℕ) (ls : List Bytes) :
    ∃shown : List (Group ix.isStart),Previewed ix fields
        (previewLines ⟨ix.format,fields⟩ ix.decoder maxRecords ls .initial) shown ∧
      shown.length=min maxRecords (groups ix.isStart ls).length ∧
      ∀(i : ℕ) (g : Group ix.isStart),shown[i]?=some g→∃whole,(groups ix.isStart ls)[i]?=some whole ∧
      g.head=whole.head ∧
        (g.tail=whole.tail ∨ g.tail=[]) := by
  cases maxRecords with
  | zero =>
    have hnone : previewLines ⟨ix.format,fields⟩ ix.decoder 0 ls .initial=.initial := by
      cases ls with
      | nil => rfl
      | cons l ls => rw [previewLines,if_neg (by simp)]
    rw [hnone]
    exact ⟨[],previewed_initial,by simp,fun i g hg => by simp at hg⟩
  | succ maxRecords =>
    obtain ⟨taken,rest,rfl,hprev,hend⟩ := @previewed_lines ix fields .initial (maxRecords+1) [] ls previewed_initial
      (Nat.succ_pos maxRecords)
    rw [List.nil_append] at hprev hend
    refine ⟨_,hprev,?_⟩
    obtain ⟨rfl,hlt⟩ | ⟨gs,g,hgs,hlen,htail⟩ := hend
    · rw [List.append_nil]
      exact ⟨by omega,fun i g hg => ⟨g,hg,rfl,Or.inl rfl⟩⟩
    · obtain ⟨g',later,hall,hhead⟩ := groups_continue hgs rest
      rw [hgs,hall]
      refine ⟨?_,fun i k hk => ?_⟩
      · simp
        omega
      · by_cases hi : i<gs.length
        · rw [List.getElem?_append_left hi] at hk ⊢
          exact ⟨k,hk,rfl,Or.inl rfl⟩
        · rw [List.getElem?_append_right (by omega)] at hk ⊢
          have hlast := (List.getElem?_eq_some_iff.mp hk).1
          rw [List.length_singleton] at hlast
          have hz : i-gs.length=0 := by omega
          rw [hz] at hk ⊢
          obtain rfl : g=k := by simpa using hk
          exact ⟨g',rfl,hhead.symm,Or.inr htail⟩

end Rows

/-! The records of the pass. -/

section Records
variable {ix : Indexer}

private theorem groupViews_getElem (pos : ℕ) (gs : List (Group ix.isStart)) (i : ℕ) :
    (ix.groupViews pos gs)[i]?=gs[i]?.map (ix.groupView (pos+ix.spans (gs.take i))) := by
  induction gs generalizing pos i with
  | nil => rfl
  | cons g gs ih =>
    cases i with
    | zero => simp [Indexer.groupViews]
    | succ i =>
      rw [Indexer.groupViews,List.getElem?_cons_succ,List.getElem?_cons_succ,ih,List.take_succ_cons]
      simp [Indexer.spans,Nat.add_assoc]

/-- Record `i` of a pass is group `i`, and its lines are read where it lies. -/
theorem record_lines {source : Bytes} {start i : ℕ} {l t : InternTable} {rs : List Record} {r : Record}
    (hview : rs.map (Record.view l t)=ix.lineFold source start) (hr : rs[i]?=some r) :
    ∃g,(ix.lineGroups source start)[i]?=some g ∧ g.elems<+:lines ix.decoder.finder (source.drop r.offset) ∧
      r.lineCount=min g.elems.length kMaxLineCount := by
  have hat := congrArg (fun vs : List RecordView => vs[i]?) hview
  simp only [List.getElem?_map,hr,Indexer.lineFold,groupViews_getElem,Option.map_some] at hat
  obtain ⟨g,hg,hgview⟩ := Option.map_eq_some_iff.mp hat.symm
  have hoffset : start+ix.spans ((ix.lineGroups source start).take i)=r.offset := congrArg RecordView.offset hgview
  refine ⟨g,hg,?_,(congrArg RecordView.lineCount hgview).symm⟩
  have hsplit := Indexer.lineGroups_restart (List.take_append_drop i (ix.lineGroups source start)).symm
  rw [hoffset,Indexer.lineGroups] at hsplit
  have hflat := @groups_flatten _ ix.isStart (lines ix.decoder.finder (source.drop r.offset))
  obtain ⟨hi,rfl⟩ := List.getElem?_eq_some_iff.mp hg
  rw [hsplit,List.drop_eq_getElem_cons hi,List.map_cons,List.flatten_cons] at hflat
  exact ⟨_,hflat⟩

end Records

/-- The preview lists the first records of the pass over the same bytes: each is matched where a start line
opened it, shows its first line, and what `recordRe` captures there, with continuation lines folded into
the message. -/
theorem build_agrees (ix : Indexer) (fields : List Field) (sample : Bytes) (maxRecords : ℤ) :
    ∃s rows,ix.forwardScan sample ix.decoder.bomLength [] .empty .empty (fun _ => true)=some (true,s) ∧
      build ⟨ix.format,fields⟩ sample ix.decoder maxRecords=
        some ⟨fields.map Field.name,rows,rows.countP PreviewRow.matched,rows.length⟩ ∧
      rows.length=min maxRecords.toNat s.records.length ∧
      ∀(i : ℕ) (row : PreviewRow) (r : Record),rows[i]?=some row→s.records[i]?=some r→
        ∃line more folded,line::more<+:lines ix.decoder.finder (sample.drop r.offset) ∧
          r.lineCount=min (more.length+1) kMaxLineCount ∧
          row.rawFirstLine=ix.decoder.lineText line ∧ (row.matched=true ↔ ix.isStart line=true) ∧
          (folded=more ∨ folded=[]) ∧
          (row.matched=true→∀(k : ℕ) (field : Field),fields[k]?=some field → row.fields[k]?=some
            (captured ⟨ix.format,fields⟩ (ix.decoder.lineText line) field++
              if messageColumn ⟨ix.format,fields⟩=some k then folded.flatMap
              (fun l => 0x0A::ix.decoder.lineText l) else [])) := by
  have hholds := ix.scanned_holds sample ix.decoder.bomLength [] .empty .empty
  obtain ⟨rs,hrecords,hview,-⟩ := hholds.records
  rw [List.nil_append] at hrecords
  obtain ⟨shown,hprev,hlen,hwhole⟩ := previewLines_rows ix fields maxRecords.toNat
    (lines ix.decoder.finder (sample.drop ix.decoder.bomLength))
  have hcount : rs.length=(ix.lineGroups sample ix.decoder.bomLength).length := by
    have hl := congrArg List.length hview
    rwa [List.length_map,Indexer.groupViews_length] at hl
  refine ⟨_,shown.map (rowOf ix fields),ix.forwardScan_scanned sample _ _ _ _,?_,?_,fun i row r hrow hr => ?_⟩
  · rw [build,previewFrom_lines _ _ _ _ _ _ (by omega),Option.map_some,hprev.matchedCount,hprev.rows,
      List.countP_map]
    congr 3
    funext g
    exact (rowOf_matched g).1.symm
  · rw [List.length_map,hlen,hrecords,hcount]
    rfl
  · rw [hrecords] at hr
    obtain ⟨whole,hwholeAt,hlines,hlineCount⟩ := record_lines hview hr
    rw [List.getElem?_map] at hrow
    obtain ⟨g,hg,rfl⟩ := Option.map_eq_some_iff.mp hrow
    obtain ⟨whole',hat,hhead,htail⟩ := hwhole i g hg
    obtain rfl : whole'=whole := Option.some.inj (hat.symm.trans hwholeAt)
    refine ⟨whole'.head,whole'.tail,g.tail,hlines,hlineCount,?_,?_,htail,fun hmatched k field hfield => ?_⟩
    · rw [(rowOf_matched g).2,hhead]
    · rw [(rowOf_matched g).1,hhead]
    · rw [(rowOf_matched g).1] at hmatched
      rw [rowOf,if_pos hmatched,foldl_foldLine,← hhead,List.flatMap_map]
      cases hcol : messageColumn ⟨ix.format,fields⟩ with
      | none => simp [hfield]
      | some msgCol =>
        simp only [List.getElem?_modify,List.getElem?_map,hfield,Option.map_some,Option.some.injEq]
        split <;> simp

end FormatPreview

end Loftail
