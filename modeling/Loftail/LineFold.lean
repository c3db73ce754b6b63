import Loftail.Indexer
import Loftail.StartGroups

/-! # The line fold the forward pass stands for

Every line either opens a record or joins one, and windows, their size and their growth
have no part in it. -/
namespace Loftail
open DelimitedLines StartGroups

/-- A record with its ids resolved. -/
structure RecordView where
  offset : ℕ
  length : ℕ
  lineCount : ℕ
  timestamp : ℤ
  priority : Priority
  logger : Text
  thread : Text
  deriving DecidableEq

def Record.view (loggers threads : InternTable) (r : Record) : RecordView :=
  ⟨r.offset,r.length,r.lineCount,r.timestamp,r.priority,loggers.name r.loggerId,threads.name r.threadId⟩

/-- Ids that their tables have given out. -/
def Record.Interned (loggers threads : InternTable) (r : Record) : Prop :=
  r.loggerId<loggers.names.length ∧ r.threadId<threads.names.length

theorem Record.Interned.extend {l l' t t' : InternTable} {r : Record} (h : r.Interned l t)
    (hl : l.Extends l') (ht : t.Extends t') : r.Interned l' t' :=
  ⟨Nat.lt_of_lt_of_le h.1 hl.length_le,Nat.lt_of_lt_of_le h.2 ht.length_le⟩

theorem Record.Interned.view {l l' t t' : InternTable} {r : Record} (h : r.Interned l t)
    (hl : l.Extends l') (ht : t.Extends t') : r.view l' t'=r.view l t := by
  simp [Record.view,hl.name h.1,ht.name h.2]

theorem internField_extends (t : InternTable) (name : Option Text) : t.Extends (internField t name).2 := by
  cases name with
  | none => exact .refl t
  | some n => exact t.intern_extends n

theorem internField_lt (t : InternTable) (name : Option Text) :
    (internField t name).1<(internField t name).2.names.length := by
  cases name with
  | none => exact t.length_pos
  | some n => exact t.intern_lt n

@[simp] theorem internField_name (t : InternTable) (name : Option Text) :
    (internField t name).2.name (internField t name).1=name.getD [] := by
  cases name <;> simp [internField]

namespace Indexer

variable (ix : Indexer)

/-- The record-start decision, on a whole line. -/
def isStart (line : Bytes) : Bool := (ix.format.startMatch (ix.decoder.lineText line)).isSome

/-- The fields a record takes from its first line. -/
def lineFields (line : Bytes) : LineFields :=
  match ix.format.startMatch (ix.decoder.lineText line) with
  | some m => ix.fields (ix.decoder.lineText line) m
  | none => .plain

/-- How many bytes a group spans. -/
def span (g : Group ix.isStart) : ℕ := g.elems.flatten.length

/-- The record of a group of lines that begins at `pos`. -/
def groupView (pos : ℕ) (g : Group ix.isStart) : RecordView :=
  let f := ix.lineFields g.head
  ⟨pos,min (ix.span g) kMaxLength,min g.elems.length kMaxLineCount,f.timestamp,f.priority,f.logger.getD [],
    f.thread.getD []⟩

def groupViews : ℕ→List (Group ix.isStart)→List RecordView
  | _,[] => []
  | pos,g::gs => ix.groupView pos g::groupViews (pos+ix.span g) gs

/-- The groups the lines from `startPos` on fall into. -/
def lineGroups (content : Bytes) (startPos : ℕ) : List (Group ix.isStart) :=
  groups ix.isStart (lines ix.decoder.finder (content.drop startPos))

/-- The reference: one record a group. -/
def lineFold (content : Bytes) (startPos : ℕ) : List RecordView :=
  ix.groupViews startPos (ix.lineGroups content startPos)

/-- One whole line through the scan. -/
def lineStep (s : ScanState) (pos : ℕ) (line : Bytes) : ScanState :=
  ix.processLine s pos line.length (ix.decoder.lineText line)

/-- Bytes of several groups. -/
def spans (gs : List (Group ix.isStart)) : ℕ := (gs.map ix.span).sum

@[simp] theorem spans_nil : ix.spans []=0 := rfl

theorem groupViews_append (pos : ℕ) (gs hs : List (Group ix.isStart)) :
    ix.groupViews pos (gs++hs)=ix.groupViews pos gs++ix.groupViews (pos+ix.spans gs) hs := by
  induction gs generalizing pos with
  | nil => rfl
  | cons g gs ih => simp [groupViews,ih,spans,Nat.add_assoc]

theorem groupViews_length (pos : ℕ) (gs : List (Group ix.isStart)) : (ix.groupViews pos gs).length=gs.length := by
  induction gs generalizing pos with
  | nil => rfl
  | cons g gs ih => simp [groupViews,ih]

theorem spans_eq (gs : List (Group ix.isStart)) : ix.spans gs=(gs.map Group.elems).flatten.flatten.length := by
  induction gs with
  | nil => rfl
  | cons g gs ih =>
    simp only [spans,List.map_cons,List.sum_cons,List.flatten_cons,List.flatten_append,List.length_append] at ih ⊢
    rw [ih]
    rfl

theorem spans_groups (ls : List Bytes) : ix.spans (groups ix.isStart ls)=ls.flatten.length := by
  rw [spans_eq,groups_flatten]

/-- What the scan state holds once the lines of `gs` have been processed after `pre`. -/
structure Holds (start : ℕ) (pre : List Record) (l t : InternTable) (s : ScanState)
    (gs : List (Group ix.isStart)) : Prop where
  records : ∃rs,s.records=pre++rs ∧ rs.map (Record.view s.loggers s.threads)=ix.groupViews start gs ∧
    ∀r∈rs,r.Interned s.loggers s.threads
  loggers : l.Extends s.loggers
  threads : t.Extends s.threads
  current : s.currentRecord=if gs=[] then none else some (pre.length+gs.length-1)
  parsed : ∀g∈gs.getLast?,s.currentIsParsed=ix.isStart g.head

variable {ix} {start : ℕ} {pre : List Record} {l t : InternTable} {s : ScanState} {gs : List (Group ix.isStart)}

private theorem holds_initial : ix.Holds start pre l t ⟨pre,l,t,none,false⟩ [] where
  records := ⟨[],by simp,rfl,by simp⟩
  loggers := .refl l
  threads := .refl t
  current := rfl
  parsed := by simp

private theorem saturate_add (a b m : ℕ) : min (min a m+b) m=min (a+b) m := by omega

private theorem saturate_succ (a m : ℕ) : (if min a m < m then min a m+1 else min a m)=min (a+1) m := by
  split <;> omega

theorem modify_last {α : Type*} (xs : List α) (a : α) (f : α→α) :
    (xs++[a]).modify xs.length f=xs++[f a] := by
  induction xs with
  | nil => rfl
  | cons x xs ih => simp [ih]

/-- A line that opens a record, or stands alone, is one group more. -/
private theorem holds_append (h : ix.Holds start pre l t s gs) {line : Bytes} {f : LineFields} {parsed : Bool}
    (hf : ix.lineFields line=f) (hp : ix.isStart line=parsed) :
    ix.Holds start pre l t (s.appendRecord (start+ix.spans gs) line.length f parsed)
      (gs++[.single ix.isStart line]) := by
  obtain ⟨rs,hrs,hview,hids⟩ := h.records
  have hlen : rs.length=gs.length := by
    have hl := congrArg List.length hview
    rwa [List.length_map,groupViews_length] at hl
  have hle := internField_extends s.loggers f.logger
  have hte := internField_extends s.threads f.thread
  refine ⟨⟨rs++[⟨start+ix.spans gs,f.timestamp,min line.length kMaxLength,(internField s.loggers f.logger).1,
    (internField s.threads f.thread).1,1,f.priority⟩],by simp [ScanState.appendRecord,hrs],?_,?_⟩,
    h.loggers.trans hle,h.threads.trans hte,?_,?_⟩
  · have hold : rs.map (Record.view (internField s.loggers f.logger).2 (internField s.threads f.thread).2)=
        rs.map (Record.view s.loggers s.threads) :=
      List.map_congr_left fun r hr => (hids r hr).view hle hte
    rw [List.map_append,ScanState.appendRecord,hold,hview,groupViews_append]
    simp [groupViews,groupView,Record.view,hf,span,kMaxLineCount]
  · intro r hr
    rcases List.mem_append.mp hr with hr | hr
    · exact (hids r hr).extend hle hte
    · rw [List.mem_singleton.mp hr]
      exact ⟨internField_lt _ _,internField_lt _ _⟩
  · simp [ScanState.appendRecord,hrs,hlen]
  · intro g hg
    rw [List.getLast?_concat,Option.mem_some_iff] at hg
    subst hg
    exact hp.symm

/-- A continuation lengthens the last group. -/
private theorem holds_extend {g : Group ix.isStart} (h : ix.Holds start pre l t s (gs++[g])) {line : Bytes}
    (hg : ix.isStart g.head=true) (hn : ix.isStart line=false) :
    ix.Holds start pre l t (s.extendRecord (pre.length+gs.length) line.length) (gs++[g.extend line hg hn]) := by
  obtain ⟨rs,hrs,hview,hids⟩ := h.records
  have hlen : rs.length=gs.length+1 := by
    have hl := congrArg List.length hview
    rwa [List.length_map,groupViews_length,List.length_append,List.length_singleton] at hl
  obtain ⟨rs,r,rfl⟩ : ∃rs' r,rs=rs'++[r] := by
    rcases List.eq_nil_or_concat' rs with rfl | h
    · simp at hlen
    · exact h
  have hrl : rs.length=gs.length := by simpa using hlen
  rw [List.map_append,groupViews_append] at hview
  obtain ⟨hinit,hlast⟩ := List.append_inj hview (by simp [hrl,groupViews_length])
  simp only [List.map_cons,List.map_nil,groupViews,List.cons.injEq,and_true] at hlast
  have hmod : s.records.modify (pre.length+gs.length) (fun r =>
      {r with length := min (r.length+line.length) kMaxLength
              lineCount := if r.lineCount<kMaxLineCount then r.lineCount+1 else r.lineCount})=
      pre++(rs++[{r with length := min (r.length+line.length) kMaxLength
                         lineCount := if r.lineCount<kMaxLineCount then r.lineCount+1 else r.lineCount}]) := by
    have hi : pre.length+gs.length=(pre++rs).length := by simp [hrl]
    rw [hrs,← List.append_assoc,hi,modify_last,List.append_assoc]
  refine ⟨⟨_,hmod,?_,?_⟩,h.loggers,h.threads,?_,?_⟩
  · rw [List.map_append,groupViews_append]
    refine congrArg₂ (·++·) hinit ?_
    simp only [List.map_cons,List.map_nil,groupViews,List.cons.injEq,and_true]
    have ho := congrArg RecordView.offset hlast
    have hL := congrArg RecordView.length hlast
    have hc := congrArg RecordView.lineCount hlast
    have ht := congrArg RecordView.timestamp hlast
    have hp := congrArg RecordView.priority hlast
    have hlo := congrArg RecordView.logger hlast
    have hth := congrArg RecordView.thread hlast
    simp only [Record.view,groupView] at ho hL hc ht hp hlo hth
    simp only [Record.view,groupView,ScanState.extendRecord,span,Group.elems_extend,Group.head_extend,
      List.flatten_append,List.length_append,List.flatten_singleton,List.length_singleton,RecordView.mk.injEq]
    simp only [span] at hL
    refine ⟨ho,?_,?_,ht,hp,hlo,hth⟩
    · rw [hL,saturate_add]
    · rw [hc,saturate_succ]
  · intro x hx
    rcases List.mem_append.mp hx with hx | hx
    · exact hids x (by simp [hx])
    · rw [List.mem_singleton.mp hx]
      exact hids r (by simp)
  · have hc := h.current
    rw [if_neg (by simp),List.length_append] at hc ⊢
    exact hc
  · intro k hk
    have hp := h.parsed g (by simp)
    rw [List.getLast?_concat,Option.mem_some_iff] at hk
    subst hk
    simpa [ScanState.extendRecord] using hp

/-- The step lemma: one line through the scan is one line onto the groups. -/
theorem holds_lineStep (h : ix.Holds start pre l t s gs) (line : Bytes) :
    ix.Holds start pre l t (ix.lineStep s (start+ix.spans gs) line) (push gs.reverse line).reverse := by
  cases hm : ix.format.startMatch (ix.decoder.lineText line) with
  | some m =>
    have hs : ix.isStart line=true := by simp [isStart,hm]
    rw [push_start _ hs,List.reverse_cons,List.reverse_reverse,lineStep,processLine,hm]
    exact holds_append h (by simp [lineFields,hm]) hs
  | none =>
    have hs : ix.isStart line=false := by simp [isStart,hm]
    have hf : ix.lineFields line=.plain := by simp [lineFields,hm]
    rcases List.eq_nil_or_concat' gs with rfl | ⟨gs,g,rfl⟩
    · have hc := h.current
      simp only [if_true] at hc
      rw [List.reverse_nil,push_alone hs (by simp),lineStep,processLine,hm,hc]
      exact holds_append h hf hs
    · have hc := h.current
      have hp := h.parsed g (by simp)
      rw [if_neg (by simp),List.length_append,List.length_singleton] at hc
      cases hg : ix.isStart g.head with
      | true =>
        have hi : pre.length+(gs.length+1)-1=pre.length+gs.length := by omega
        rw [List.reverse_append,List.reverse_singleton,List.singleton_append,push_join g _ hg hs,
          List.reverse_cons,List.reverse_reverse,lineStep,processLine,hm,hc,hp,hg,hi]
        exact holds_extend h hg hs
      | false =>
        rw [push_alone hs (by simpa using hg),List.reverse_cons,List.reverse_reverse,lineStep,processLine,
          hm,hc,hp,hg]
        exact holds_append h hf hs

/-- The run lemma: all lines through the scan are all their groups. -/
theorem holds_foldLines (ls : List Bytes) :
    ix.Holds start pre l t (foldLines ix.lineStep start ⟨pre,l,t,none,false⟩ ls) (groups ix.isStart ls) := by
  have h := @foldLines_induct _ _ ix.lineStep
    (fun pos s done => pos=start+done.flatten.length ∧ ix.Holds start pre l t s (groups ix.isStart done))
    (by
      rintro pos s done line ⟨hpos,h⟩
      refine ⟨by simp [hpos,Nat.add_assoc],?_⟩
      rw [groups_concat,hpos,← spans_groups]
      exact holds_lineStep h line)
    start ⟨pre,l,t,none,false⟩ [] ⟨by simp,holds_initial⟩ ls
  simpa using h.2

section Windows

/-- The walk over a window processes the lines the window shows. -/
private theorem walk_eq (pos : ℕ) (buf : Bytes) (atEof : Bool) (fuel scan : ℕ) (s : ScanState)
    (hs : scan≤buf.length) (hf : buf.length-scan<fuel) :
    ix.walk pos buf atEof fuel scan s=
      some (scan+(shownLines ix.decoder.finder atEof (buf.drop scan)).flatten.length,
        foldLines ix.lineStep (pos+scan) s (shownLines ix.decoder.finder atEof (buf.drop scan))) := by
  induction fuel generalizing scan s with
  | zero => omega
  | succ fuel ih =>
    rw [walk]
    by_cases hlt : scan<buf.length
    · rw [if_pos hlt]
      cases hn : ix.decoder.newline (buf.drop scan) with
      | some k =>
        have hk := @LineFinder.le _ ix.decoder.finder (buf.drop scan) _ hn
        have hp := @LineFinder.pos _ ix.decoder.finder (buf.drop scan) _ hn
        rw [List.length_drop] at hk
        have hlen : ((buf.drop scan).take k).length=k := by simp; omega
        have hterm : ix.decoder.finder.Terminated ((buf.drop scan).take k) :=
          @LineFinder.terminated_take _ ix.decoder.finder (buf.drop scan) _ hn
        have htext : ix.decoder.decodeLine ((buf.drop scan).take (k-ix.decoder.unitSize))=
            ix.decoder.lineText ((buf.drop scan).take k) := by
          rw [Decoder.lineText,Decoder.lineContent,if_pos hterm,hlen,List.take_take,
            Nat.min_eq_left (Nat.sub_le _ _)]
        simp only [Decoder.lineEnd_of_newline hn,Bool.not_true,Bool.false_and,Bool.false_eq_true,if_false,
          if_true,Nat.add_sub_cancel_left]
        rw [ih (scan+k) _ (by omega) (by omega),shownLines_of_find ix.decoder.finder atEof hn,htext]
        simp only [foldLines,lineStep,List.flatten_cons,List.length_append,hlen,List.drop_drop,Nat.add_assoc]
      | none =>
        have hne : buf.drop scan≠[] := by simp; omega
        have hnot : ¬ix.decoder.finder.Terminated (buf.drop scan) := by
          simp [LineFinder.Terminated,hn]
        simp only [Decoder.lineEnd_of_none hn,Bool.not_false,Bool.true_and]
        rw [shownLines_of_unfound ix.decoder.finder atEof hne hn]
        cases atEof with
        | false => simp
        | true =>
          have htext : ix.decoder.decodeLine ((buf.drop scan).take (buf.length-scan-0))=
              ix.decoder.lineText (buf.drop scan) := by
            rw [Decoder.lineText,Decoder.lineContent,if_neg hnot,List.length_drop]
          simp only [Bool.not_true,Bool.false_eq_true,if_false,if_true,htext]
          rw [ih buf.length _ le_rfl (by omega)]
          simp [foldLines,lineStep]
          omega
    · have he : scan=buf.length := by omega
      rw [if_neg hlt]
      subst he
      simp

/-- A window at `pos` ends with the lines it shows, one at least. -/
theorem window_eq (source : Bytes) {pos : ℕ} (hpos : pos<source.length) (fuel want : ℕ) (s : ScanState)
    (hw : 0<want) (hwant : want ≤ source.length-pos) (hf : source.length-pos-want<fuel) :
    ∃w atEof,(atEof=true→(source.drop pos).length≤w) ∧ shownLines ix.decoder.finder atEof
    ((source.drop pos).take w)≠[] ∧
      (source.drop pos).take w≠[] ∧
      ix.window source pos fuel want s=some ((source.drop pos).take w,
        (shownLines ix.decoder.finder atEof ((source.drop pos).take w)).flatten.length,
        foldLines ix.lineStep pos s (shownLines ix.decoder.finder atEof ((source.drop pos).take w))) := by
  induction fuel generalizing want with
  | zero => omega
  | succ fuel ih =>
    have hlen : (bytesAt source pos want).length=want := by simp [bytesAt]; omega
    have hne : bytesAt source pos want≠[] := List.ne_nil_of_length_pos (by omega)
    have hwalk := @walk_eq ix pos (bytesAt source pos want)
      (decide (pos+(bytesAt source pos want).length≥source.length))
      ((bytesAt source pos want).length+1) 0 s (by omega) (by omega)
    simp only [List.drop_zero,Nat.zero_add,Nat.add_zero] at hwalk
    have hmem : ∀atEof,shownLines ix.decoder.finder atEof (bytesAt source pos want)≠[]→
        0<(shownLines ix.decoder.finder atEof (bytesAt source pos want)).flatten.length := by
      intro atEof h
      obtain ⟨a,as,ha⟩ := List.exists_cons_of_ne_nil h
      have hin : a∈lines ix.decoder.finder (bytesAt source pos want) :=
        (List.mem_filter.mp (show a∈shownLines ix.decoder.finder atEof _ by rw [ha]; simp)).1
      have := List.length_pos_of_ne_nil (lines_ne_nil_of_mem _ hin)
      rw [ha,List.flatten_cons,List.length_append]
      omega
    rw [window]
    simp only [List.isEmpty_iff,hne,if_false,hwalk]
    by_cases heof : pos+(bytesAt source pos want).length≥source.length
    · have hshown : shownLines ix.decoder.finder true (bytesAt source pos want)≠[] := by
        rw [shownLines]
        simpa using hne ∘ (lines_eq_nil _).mp
      refine ⟨want,true,fun _ => by simp; omega,hshown,hne,?_⟩
      simp only [heof,decide_true,Bool.or_true,Bool.true_or,if_true]
      rfl
    · by_cases hz : shownLines ix.decoder.finder false (bytesAt source pos want)=[]
      · have hgrow : ¬want≥source.length-pos := by omega
        simp only [heof,decide_false,hz,List.flatten_nil,List.length_nil,foldLines_nil,Bool.or_false,hgrow,
          gt_iff_lt,lt_irrefl,Bool.false_eq_true,if_false]
        exact ih (min (source.length-pos) (want*2)) (by omega) (by omega) (by omega)
      · refine ⟨want,false,fun h => by simp at h,hz,hne,?_⟩
        have := hmem false hz
        simp only [heof,decide_false,Bool.or_false,gt_iff_lt,this,decide_true,Bool.true_or,if_true]
        rfl

theorem scanFrom_eq (source : Bytes) {onChunk : ℕ→Bool} (hc : ∀p,onChunk p=true) (fuel pos : ℕ) (s : ScanState)
    (hf : source.length-pos<fuel) :
    ix.scanFrom source onChunk fuel pos s=
      some (true,foldLines ix.lineStep pos s (lines ix.decoder.finder (source.drop pos))) := by
  induction fuel generalizing pos s with
  | zero => omega
  | succ fuel ih =>
    rw [scanFrom]
    by_cases hpos : pos<source.length
    · rw [if_pos hpos]
      have hchunk := ix.chunk
      obtain ⟨w,atEof,hw,hshown,hne,heq⟩ := @window_eq ix source _ hpos (source.length-pos+1)
        (min ix.chunkBytes (source.length-pos)) s (by omega) (by omega) (by omega)
      have hlines := lines_of_shownLines ix.decoder.finder (source.drop pos) w atEof hw
      generalize hls : shownLines ix.decoder.finder atEof ((source.drop pos).take w)=ls at *
      have hpos' : 0<ls.flatten.length := by
        obtain ⟨a,as,ha⟩ := List.exists_cons_of_ne_nil hshown
        have hin : a∈lines ix.decoder.finder ((source.drop pos).take w) := by
          refine (List.mem_filter.mp (show a∈shownLines ix.decoder.finder atEof _ from ?_)).1
          rw [hls,ha]
          simp
        have := List.length_pos_of_ne_nil (lines_ne_nil_of_mem _ hin)
        rw [ha,List.flatten_cons,List.length_append]
        omega
      have hz : ls.flatten.length≠0 := by omega
      have hempty : ((source.drop pos).take w).isEmpty=false := by simpa using hne
      simp only [heq,hempty,hz,Bool.or_self,decide_false,Bool.false_eq_true,if_false,hc,if_true]
      rw [ih (pos+ls.flatten.length) _ (by omega),hlines,foldLines_append,List.drop_drop]
    · rw [if_neg hpos,List.drop_of_length_le (by omega),lines_nil,foldLines_nil]

end Windows

/-- The scan state a pass ends with. -/
def scanned (ix : Indexer) (source : Bytes) (startPos : ℕ) (records : List Record) (loggers threads : InternTable) :
    ScanState :=
  foldLines ix.lineStep startPos ⟨records,loggers,threads,none,false⟩
    (lines ix.decoder.finder (source.drop startPos))

theorem forwardScan_scanned (ix : Indexer) (source : Bytes) (startPos : ℕ) (records : List Record)
    (loggers threads : InternTable) : ix.forwardScan source startPos records loggers threads (fun _ => true)=
      some (true,ix.scanned source startPos records loggers threads) :=
  scanFrom_eq source (fun _ => rfl) _ _ _ (Nat.lt_succ_self _)

theorem scanned_holds (ix : Indexer) (source : Bytes) (startPos : ℕ) (records : List Record)
    (loggers threads : InternTable) :
    ix.Holds startPos records loggers threads (ix.scanned source startPos records loggers threads)
      (ix.lineGroups source startPos) :=
  holds_foldLines _

/-- Spans that follow one another from `start` to `stop`. -/
def Tiles : ℕ→ℕ→List Record→Prop
  | start,stop,[] => start=stop
  | start,stop,r::rs => r.offset=start ∧ Tiles (start+r.length) stop rs

private theorem tiles_of_views {l t : InternTable} {start : ℕ} {rs : List Record} {gs : List (Group ix.isStart)}
    (h : rs.map (Record.view l t)=ix.groupViews start gs) (hg : ∀g∈gs,ix.span g≤kMaxLength) :
    Tiles start (start+ix.spans gs) rs := by
  induction gs generalizing start rs with
  | nil =>
    have hn : rs=[] := by simpa [groupViews] using h
    subst hn
    rfl
  | cons g gs ih =>
    cases rs with
    | nil => simp [groupViews] at h
    | cons r rs =>
      simp only [List.map_cons,groupViews,List.cons.injEq] at h
      have ho := congrArg RecordView.offset h.1
      have hl := congrArg RecordView.length h.1
      simp only [Record.view,groupView,Nat.min_eq_left (hg g (by simp))] at ho hl
      refine ⟨ho,?_⟩
      rw [hl]
      have hi := ih h.2 (fun k hk => hg k (by simp [hk]))
      simpa [spans,Nat.add_assoc] using hi

theorem spans_lineGroups (ix : Indexer) (source : Bytes) (startPos : ℕ) :
    ix.spans (ix.lineGroups source startPos)=source.length-startPos := by
  rw [lineGroups,spans_groups,lines_flatten,List.length_drop]

/-- A pass may begin at any record another pass found. -/
theorem lineGroups_restart {ix : Indexer} {source : Bytes} {startPos : ℕ} {gs hs : List (Group ix.isStart)}
    (h : ix.lineGroups source startPos=gs++hs) : ix.lineGroups source (startPos+ix.spans gs)=hs := by
  obtain ⟨hl,-,hr⟩ := groups_split h
  rw [lineGroups,spans_eq,← List.drop_drop,lines_split _ hl,hr]

/-- The same indexer reading through windows of another size. -/
def withWindow (ix : Indexer) (w : {c : ℕ // 0<c}) : Indexer := {ix with chunkBytes := w.1,chunk := w.2}

/-- The pass is the fold, through windows of every size: a record for each group of lines,
each in its place, no byte left out, and the same from any record on. A group is a
start line with the lines that joined it, or one line outside every parsed record. -/
theorem forwardScan_lineFold (ix : Indexer) (source : Bytes) (startPos : ℕ) (records : List Record)
    (loggers threads : InternTable) :
    ∃s rs,(∀w,(ix.withWindow w).forwardScan source startPos records loggers threads (fun _ => true)=some (true,s)) ∧
      s.records=records++rs ∧ rs.map (Record.view s.loggers s.threads)=ix.lineFold source startPos ∧
      loggers.Extends s.loggers ∧ threads.Extends s.threads ∧
      ((ix.lineGroups source startPos).map Group.elems).flatten=lines ix.decoder.finder (source.drop startPos) ∧
      ((∀g∈ix.lineGroups source startPos,ix.span g<2^32)→Tiles startPos (max startPos source.length) rs) ∧
      ∀gs hs,ix.lineGroups source startPos=gs++hs→ix.lineFold source (startPos+ix.spans gs)=
        ix.groupViews (startPos+ix.spans gs) hs := by
  have h := ix.scanned_holds source startPos records loggers threads
  obtain ⟨rs,hrs,hview,-⟩ := h.records
  refine ⟨_,rs,fun w => (ix.withWindow w).forwardScan_scanned source startPos records loggers threads,hrs,hview,
    h.loggers,h.threads,groups_flatten _,fun hg => ?_,fun gs hs hcut => ?_⟩
  · have ht := tiles_of_views hview (fun g hg' => Nat.le_pred_of_lt (hg g hg'))
    have he : startPos+ix.spans (ix.lineGroups source startPos)=max startPos source.length := by
      rw [spans_lineGroups]
      omega
    rwa [he] at ht
  · rw [lineFold,lineGroups_restart hcut]

end Indexer

end Loftail
