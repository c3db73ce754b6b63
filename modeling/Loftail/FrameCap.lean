import Mathlib.Data.List.TakeWhile
import Loftail.PartialFrame
import Loftail.MarkerWindow

/-! # The cap on a frame's buffer

The cap cuts at the first occurrence of the begin marker, which need not be at the start of a line as the
reader wants it. -/
namespace Loftail
open LineSearch

section Lines
variable {α : Type*} [DecidableEq α] {sep : α}

theorem unendedLine_unbroken {line : List α} (h : sep∉line) : unendedLine sep line=line := by
  rw [unendedLine,List.splitOn_eq_singleton h]
  rfl

theorem unendedLine_line {line : List α} (h : sep∉line) (text : List α) :
    unendedLine sep (line++sep::text)=unendedLine sep text := by
  rw [unendedLine,unendedLine,List.splitOn_append_cons_self_of_not_mem h]
  cases hs : text.splitOn sep with
  | nil => exact absurd hs (List.splitOn_ne_nil _ _)
  | cons l ls => rfl

theorem frontLine_line {line : List α} (h : sep∉line) (text : List α) : frontLine sep (line++sep::text)=line := by
  rw [frontLine,List.splitOn_append_cons_self_of_not_mem h]
  rfl

end Lines

/-- How much of a buffer is kept while its frame is awaited. -/
def kFrameBufferCap : ℕ := 4*1024*1024

def capFrameBuffer (buffer : Bytes) (frame : SerialFrame) : Bytes :=
  if buffer.length≤kFrameBufferCap then buffer
  else
    match indexOf (beginMarker frame.token) buffer 0 with
    | some markerAt => if 0 < markerAt then buffer.drop markerAt else buffer
    -- No frame has begun yet, so that the oldest bytes go.
    | none => buffer.drop (buffer.length-kFrameBufferCap)

/-- How much the cap drops. -/
def capCut (buffer : Bytes) (frame : SerialFrame) : ℕ :=
  if buffer.length≤kFrameBufferCap then 0
  else (indexOf (beginMarker frame.token) buffer 0).getD (buffer.length-kFrameBufferCap)

/-- The loop over a command's answer, the buffer capped whenever a chunk has arrived. -/
def awaitCapped (frame : SerialFrame) (buffer : Bytes) : List Bytes→FramedAnswer
  | [] => readFramedAnswer buffer frame
  | chunk::chunks =>
    let answer := readFramedAnswer buffer frame
    if answer.state=.incomplete then awaitCapped frame (capFrameBuffer (buffer++chunk) frame) chunks else answer

/-- Whether the first line of a buffer is one that opens a frame, or may become one. -/
def MayOpen (marker kept : Bytes) : Prop :=
  if newline∈kept then marker<+:trimBlanks (frontLine newline kept)
  else newline∉marker ∧ (marker<+:kept.dropWhile isBlank ∨ kept.dropWhile isBlank<+:marker)

/-- A cut behind the white space that a line begins with, or one that leaves a line which opens no frame. -/
def SoundCut (marker before kept : Bytes) : Prop := (unendedLine newline before).all isBlank=true ∨
    ¬MayOpen marker kept

instance (marker kept : Bytes) : Decidable (MayOpen marker kept) := by
  unfold MayOpen
  infer_instance

def SoundCap (buffer : Bytes) (frame : SerialFrame) : Prop :=
  SoundCut (beginMarker frame.token) (buffer.take (capCut buffer frame)) (capFrameBuffer buffer frame)

/-- Every cap of a run is sound. -/
def CapsSoundly (frame : SerialFrame) (buffer : Bytes) : List Bytes→Prop
  | [] => True
  | chunk::chunks => (readFramedAnswer buffer frame).state=.incomplete→
      SoundCap (buffer++chunk) frame ∧ CapsSoundly frame (capFrameBuffer (buffer++chunk) frame) chunks

/-- What is read of an answer, besides how much of the buffer it takes. -/
def FramedAnswer.result (answer : FramedAnswer) : Bool×FrameState×Bytes×ℤ :=
  (answer.shortPayload,answer.state,answer.output,answer.exitCode)

variable {marker token before kept later line : Bytes} {frame : SerialFrame} {buffer : Bytes}

private theorem trimEnd_start (s : Bytes) : trimEnd s<+:s := by
  rw [trimEnd,← List.reverse_suffix,List.reverse_reverse]
  exact List.dropWhile_suffix _

/-- A line of the marker holds it behind its leading white space. -/
theorem marked_drop (h : marker<+:trimBlanks line) : marker<+:line.dropWhile isBlank := h.trans (trimEnd_start _)

private theorem trimBlanks_blanks {blanks : Bytes} (h : blanks.all isBlank=true) (line : Bytes) :
    trimBlanks (blanks++line)=trimBlanks line := by
  rw [trimBlanks,List.dropWhile_append_of_pos fun b hb => List.all_eq_true.mp h b hb]
  rfl

/-- White space aside, a line that is not all white space begins within its first part that is not. -/
theorem dropWhile_within {head : Bytes} (h : head.all isBlank=false) (more : Bytes) :
    ∃i < head.length,(head++more).dropWhile isBlank=(head++more).drop i := by
  obtain ⟨b,hb,hblank⟩ := List.all_eq_false.mp h
  have hne : head.dropWhile isBlank≠[] := by
    intro hnil
    exact hblank (List.dropWhile_eq_nil_iff.mp hnil b hb)
  have hsplit := List.takeWhile_append_dropWhile (p:=isBlank) (l:=head)
  have hlen := congrArg List.length hsplit
  have hpos := List.length_pos_iff.mpr hne
  rw [List.length_append] at hlen
  refine ⟨(head.takeWhile isBlank).length,by omega,?_⟩
  rw [List.dropWhile_append,if_neg (by simpa using hne)]
  have hdrop : (List.takeWhile isBlank head++(List.dropWhile isBlank head++more)).drop
    (List.takeWhile isBlank head).length=
      List.dropWhile isBlank head++more := List.drop_left
  rw [← List.append_assoc,hsplit] at hdrop
  exact hdrop.symm

/-- Where no marker begins in the head, a line that begins there is not the marker's, unless the head is white
space. -/
theorem unmarked_of_free {head more : Bytes} (hfree : ∀i < head.length,¬marker<+:(head++more).drop i)
    (hline : head.all isBlank=false) : ¬marker<+:trimBlanks (head++more) := by
  intro h
  obtain ⟨i,hi,hdrop⟩ := dropWhile_within hline more
  exact hfree i hi (hdrop ▸ marked_drop h)

def isMarked (marker line : Bytes) : Bool := marker.isPrefixOf (trimBlanks line)

theorem isMarked_iff : isMarked marker line=true↔marker<+:trimBlanks line := List.isPrefixOf_iff_prefix

theorem endOfMarkerLine_eq : endOfMarkerLine buffer marker 0=
    (lineWhere newline (isMarked marker) buffer (buffer.length+1) 0).map (·.2) := rfl

theorem newline_unendedLine (text : Bytes) : newline∉unendedLine newline text := by
  induction text using line_induction newline with
  | hlast last hlast =>
    rw [unendedLine_unbroken hlast]
    exact hlast
  | hline first text hfirst ih =>
    rw [unendedLine_line hfirst]
    exact ih

theorem free_line {last rest : Bytes} (h : ∀i < last.length,¬marker<+:(last++(line++newline::rest)).drop i) :
    ∀i < last.length,¬marker<+:(last++line).drop i := by
  intro i hi hmark
  apply h i hi
  rw [← List.append_assoc,List.drop_append_of_le_length (by simp; omega)]
  exact hmark.trans (List.prefix_append ..)

/-- The lines that a head ends are passed. -/
theorem lineWhere_ended {head rest : Bytes} {n : ℕ} (hfree : ∀i < head.length,¬marker<+:(head++rest).drop i)
    (hn : (head++rest).length < n) :
    ∃k,k+(unendedLine newline head).length=head.length ∧
      (∀i < (unendedLine newline head).length,¬marker<+:(unendedLine newline head++rest).drop i) ∧
      (lineWhere newline (isMarked marker) (head++rest) n 0).map (·.2)=
        (lineWhere newline (isMarked marker) (unendedLine newline head++rest) n 0).map (k+·.2) := by
  induction head using line_induction newline generalizing n with
  | hlast last hlast =>
    rw [unendedLine_unbroken hlast]
    exact ⟨0,Nat.zero_add _,hfree,by simp only [Nat.zero_add]⟩
  | hline first text hfirst ih =>
    have hnot : isMarked marker first=false := by
      rw [Bool.eq_false_iff,ne_eq,isMarked_iff]
      intro hmark
      obtain ⟨before,hbefore⟩ := List.dropWhile_suffix (l:=first) isBlank
      have hlen := congrArg List.length hbefore
      rw [List.length_append] at hlen
      apply hfree before.length (by simp; omega)
      have hshape : first++newline::text++rest=before++(first.dropWhile isBlank++(newline::text++rest)) := by
        rw [← List.append_assoc,hbefore,List.append_assoc]
      rw [hshape,List.drop_left]
      exact (marked_drop hmark).trans (List.prefix_append ..)
    have hrest : ∀i < text.length,¬marker<+:(text++rest).drop i := by
      intro i hi hmark
      apply hfree (first.length+1+i) (by simp; omega)
      have hshape : first++newline::text++rest=(first++[newline])++(text++rest) := by simp
      have hlen : first.length+1+i=(first++[newline]).length+i := by simp
      rw [hshape,hlen,List.drop_length_add_append]
      exact hmark
    rw [unendedLine_line hfirst]
    simp only [List.length_append,List.length_cons] at hn
    obtain ⟨n,rfl⟩ : ∃k,n=k+1 := ⟨n-1,by omega⟩
    obtain ⟨k,hk,hkept,hfrom⟩ := ih hrest (n:=n) (by simp; omega)
    refine ⟨first.length+1+k,by simp; omega,hkept,?_⟩
    have hfuel : lineWhere newline (isMarked marker) (unendedLine newline text++rest) (n+1) 0=
        lineWhere newline (isMarked marker) (unendedLine newline text++rest) n 0 := by
      apply lineWhere_fuel
      · simp; omega
      · simp; omega
    have hmoved := congrArg (Option.map (first.length+1+·)) hfrom
    rw [Option.map_map,Option.map_map] at hmoved
    rw [List.append_assoc,List.cons_append,lineWhere_second hfirst _ hnot,hfuel,Option.map_map]
    refine hmoved.trans ?_
    congr 1
    funext r
    exact (Nat.add_assoc ..).symm

/-- Where the marker's line ends, behind a head in which no marker begins. -/
theorem endOfMarkerLine_behind {head rest : Bytes} (hfree : ∀i < head.length,¬marker<+:(head++rest).drop i)
    (hcut : (unendedLine newline head).all isBlank=true ∨
      (newline∈rest→¬marker<+:trimBlanks (frontLine newline rest))) :
    endOfMarkerLine (head++rest) marker 0=(endOfMarkerLine rest marker 0).map (head.length+·) := by
  obtain ⟨k,hk,hkept,hended⟩ := lineWhere_ended hfree (Nat.lt_succ_self _)
  have hunbroken := newline_unendedLine head
  rw [endOfMarkerLine_eq,hended,endOfMarkerLine_eq,Option.map_map]
  generalize unendedLine newline head=last at *
  by_cases hrest : newline∈rest
  · obtain ⟨line,rest,rfl,hline⟩ := List.eq_append_cons_of_mem hrest
    rw [frontLine_line hline] at hcut
    have hsame : isMarked marker (last++line)=isMarked marker line := by
      cases hblank : last.all isBlank with
      | true => rw [isMarked,isMarked,trimBlanks_blanks hblank]
      | false =>
        have hnot := hcut.resolve_left (by simp [hblank]) hrest
        rw [Bool.eq_iff_iff,isMarked_iff,isMarked_iff]
        exact iff_of_false (unmarked_of_free (free_line hkept) hblank) hnot
    have hpart := congrArg (Option.map (k+·)) (lineWhere_behind_part hunbroken hline rest hsame
      (n:=(head++(line++newline::rest)).length) (m:=(line++newline::rest).length) (by simp; omega) (by simp; omega))
    rw [Option.map_map,Option.map_map] at hpart
    refine hpart.trans ?_
    congr 1
    funext r
    simp only [Function.comp_apply,← Nat.add_assoc,hk]
  · have hnot : newline∉last++rest := by simp [hunbroken,hrest]
    rw [lineWhere_unended hnot,lineWhere_unended hrest]
    rfl

/-- A cut within a line whose rest shows the marker moves where the frame begins. -/
theorem endOfMarkerLine_moved {head rest : Bytes} (hfree : ∀i < head.length,¬marker<+:(head++rest).drop i)
    (hcut : (unendedLine newline head).all isBlank=false) (hended : newline∈rest)
    (hmark : marker<+:trimBlanks (frontLine newline rest)) :
    endOfMarkerLine (head++rest) marker 0≠(endOfMarkerLine rest marker 0).map (head.length+·) := by
  obtain ⟨k,hk,hkept,hpassed⟩ := lineWhere_ended hfree (Nat.lt_succ_self _)
  have hunbroken := newline_unendedLine head
  rw [endOfMarkerLine_eq,hpassed,endOfMarkerLine_eq,Option.map_map]
  generalize unendedLine newline head=last at *
  obtain ⟨line,rest,rfl,hline⟩ := List.eq_append_cons_of_mem hended
  rw [frontLine_line hline] at hmark
  have hboth : newline∉last++line := by simp [hunbroken,hline]
  have hnot : isMarked marker (last++line)=false := by
    rw [Bool.eq_false_iff,ne_eq,isMarked_iff]
    exact unmarked_of_free (free_line hkept) hcut
  rw [lineWhere_first hline rest (isMarked_iff.mpr hmark),← List.append_assoc,
    lineWhere_second hboth rest hnot,Option.map_map]
  intro heq
  obtain ⟨r,hr,hat⟩ := Option.map_eq_some_iff.mp heq
  have hlt := lineWhere_lt hr
  simp only [Function.comp_apply,List.length_append] at hat
  omega

/-! ## What is read behind a head -/

def PayloadBound.shift (n : ℕ) (bound : PayloadBound) : PayloadBound :=
  ⟨bound.short,bound.payloadEnd.map (n+·),n+bound.searchFrom⟩

section
variable {head rest : Bytes} {payloadStart : ℕ} {bound : PayloadBound}

theorem markerLine_shift (marker : Bytes) (start : ℕ) :
    markerLine (head++rest) marker (head.length+start)=
      (markerLine rest marker start).map fun r => (head.length+r.1,head.length+r.2) := by
  rw [markerLine,markerLine,lineWhere_shift]
  congr 1
  apply lineWhere_fuel
  · rw [List.length_append]
    omega
  · omega

private theorem endOfMarkerLine_shift (marker : Bytes) (start : ℕ) :
    (endOfMarkerLine (head++rest) marker (head.length+start)).isSome=
    (endOfMarkerLine rest marker start).isSome := by
  rw [endOfMarkerLine,endOfMarkerLine,markerLine_shift,Option.isSome_map,Option.isSome_map,Option.isSome_map]

private theorem payloadBound_shift :
    payloadBound (head++rest) frame (head.length+payloadStart)=
      (payloadBound rest frame payloadStart).map (PayloadBound.shift head.length) := by
  unfold payloadBound
  by_cases hscan : frame.expected < 0
  · rw [if_pos hscan,if_pos hscan]
    rfl
  · rw [if_neg hscan,if_neg hscan]
    simp only [Nat.add_assoc head.length payloadStart,mid_shift,indexOf_shift]
    generalize payloadStart+frame.expected.toNat=fullEnd
    have hfit : head.length+fullEnd+(newline::endMarker frame.token).length≤(head++rest).length↔
        fullEnd+(newline::endMarker frame.token).length≤rest.length := by
      rw [List.length_append]
      omega
    have hpast : (head++rest).length < head.length+fullEnd+(newline::endMarker frame.token).length↔
        rest.length < fullEnd+(newline::endMarker frame.token).length := by
      rw [List.length_append]
      omega
    simp only [hfit,hpast]
    split
    · rfl
    · cases hindex : indexOf (newline::endMarker frame.token) rest payloadStart with
      | none =>
        simp only [Option.map_none,Option.filter_none]
        split <;> rfl
      | some pos =>
        simp only [Option.map_some,Option.filter_some,Nat.add_assoc head.length pos,endOfMarkerLine_shift]
        cases (endOfMarkerLine rest (endMarker frame.token) (pos+1)).isSome with
        | false =>
          simp only [Bool.false_eq_true,if_false]
          split <;> rfl
        | true =>
          simp only [if_true,Nat.add_lt_add_iff_left]
          split <;> rfl

private theorem scannedEnd_shift {statusLineStart : ℕ} :
    scannedEnd (head++rest) frame (head.length+payloadStart) (head.length+statusLineStart)=
      head.length+scannedEnd rest frame payloadStart statusLineStart := by
  unfold scannedEnd
  by_cases hlt : payloadStart < statusLineStart
  · have hback : head.length+statusLineStart-1=head.length+(statusLineStart-1) := by omega
    have hget : ∀n,(head++rest)[head.length+n]?=rest[n]? := fun n => by
      rw [List.getElem?_append_right (Nat.le_add_right _ _),Nat.add_sub_cancel_left]
    simp only [Nat.add_lt_add_iff_left,hback,hget]
    split
    · by_cases hcr : payloadStart < statusLineStart-1
      · have hback' : head.length+(statusLineStart-1)-1=head.length+(statusLineStart-1-1) := by omega
        simp only [hback',hget]
        split <;> rfl
      · simp [hcr]
    · rfl
  · rw [if_neg (by omega),if_neg (by omega)]

private theorem answerAt_shift :
    (answerAt (head++rest) frame (head.length+payloadStart) (bound.shift head.length)).result=
      (answerAt rest frame payloadStart bound).result := by
  unfold answerAt PayloadBound.shift
  dsimp only
  rw [markerLine_shift]
  cases markerLine rest (endMarker frame.token) bound.searchFrom with
  | none => rfl
  | some r =>
    obtain ⟨statusLineStart,statusLineEnd⟩ := r
    have hend : (bound.payloadEnd.map (head.length+·)).getD
        (scannedEnd (head++rest) frame (head.length+payloadStart) (head.length+statusLineStart))=
          head.length+bound.payloadEnd.getD (scannedEnd rest frame payloadStart statusLineStart) := by
      rw [scannedEnd_shift]
      cases bound.payloadEnd <;> rfl
    simp only [Option.map_some,hend,Nat.add_lt_add_iff_left,Nat.add_sub_add_left,mid_shift]
    split
    · rfl
    · split <;> rfl

/-- An answer is the same behind a head that does not change where it begins. -/
theorem readFramedAnswer_behind
    (hbegin : endOfMarkerLine (head++rest) (beginMarker frame.token) 0=
      (endOfMarkerLine rest (beginMarker frame.token) 0).map (head.length+·)) :
    (readFramedAnswer (head++rest) frame).result=(readFramedAnswer rest frame).result := by
  unfold readFramedAnswer
  rw [hbegin]
  cases endOfMarkerLine rest (beginMarker frame.token) 0 with
  | none => rfl
  | some payloadStart =>
    simp only [Option.map_some,payloadBound_shift]
    cases payloadBound rest frame payloadStart with
    | none => rfl
    | some bound => exact answerAt_shift

end

/-! ## The cap -/

theorem capFrameBuffer_eq (buffer : Bytes) (frame : SerialFrame) :
    capFrameBuffer buffer frame=buffer.drop (capCut buffer frame) := by
  unfold capFrameBuffer capCut
  by_cases hsmall : buffer.length≤kFrameBufferCap
  · rw [if_pos hsmall,if_pos hsmall,List.drop_zero]
  · rw [if_neg hsmall,if_neg hsmall]
    cases indexOf (beginMarker frame.token) buffer 0 with
    | none => rw [Option.getD_none]
    | some markerAt =>
      cases markerAt with
      | zero => simp only [Nat.lt_irrefl,if_false,Option.getD_some,List.drop_zero]
      | succ markerAt => simp only [Nat.succ_pos,if_true,Option.getD_some]

theorem take_capFrameBuffer (buffer : Bytes) (frame : SerialFrame) :
    buffer.take (capCut buffer frame)++capFrameBuffer buffer frame=buffer := by
  rw [capFrameBuffer_eq,List.take_append_drop]

/-- No marker begins in what the cap drops. -/
theorem capCut_free (hfits : (beginMarker frame.token).length≤kFrameBufferCap) {i : ℕ}
    (hi : i < capCut buffer frame) :
    ¬beginMarker frame.token<+:(buffer++later).drop i := by
  intro hmark
  have hindex : indexOf (beginMarker frame.token) buffer 0=firstAt (beginMarker frame.token) buffer := by
    rw [indexOf,List.drop_zero]
    cases firstAt (beginMarker frame.token) buffer with
    | none => rfl
    | some i => exact congrArg some (Nat.zero_add i)
  have hearly : i+(beginMarker frame.token).length≤buffer.length→
      ∃j ≤ i,firstAt (beginMarker frame.token) buffer=some j := by
    intro hlen
    apply firstAt_of_prefix
    rw [List.drop_append_of_le_length (by omega)] at hmark
    apply List.prefix_of_prefix_length_le hmark (List.prefix_append ..)
    rw [List.length_drop]
    omega
  unfold capCut at hi
  split at hi
  · exact absurd hi (Nat.not_lt_zero i)
  · rw [hindex] at hi
    cases hfirst : firstAt (beginMarker frame.token) buffer with
    | none =>
      rw [hfirst,Option.getD_none] at hi
      obtain ⟨j,-,hj⟩ := hearly (by omega)
      rw [hfirst] at hj
      cases hj
    | some markerAt =>
      rw [hfirst,Option.getD_some] at hi
      have hlen := (firstAt_some hfirst).length_le
      have hpos : 0 < (beginMarker frame.token).length := Nat.succ_pos _
      rw [List.length_drop] at hlen
      obtain ⟨j,hj,heq⟩ := hearly (by omega)
      rw [hfirst] at heq
      cases heq
      omega

/-- A line that shows the marker when more has come may become one. -/
theorem mayOpen_of_marked (hended : newline∈kept++later)
    (hmark : marker<+:trimBlanks (frontLine newline (kept++later))) :
    MayOpen marker kept := by
  unfold MayOpen
  by_cases hkept : newline∈kept
  · obtain ⟨line,rest,rfl,hline⟩ := List.eq_append_cons_of_mem hkept
    rw [if_pos hkept,frontLine_line hline]
    rwa [List.append_assoc,List.cons_append,frontLine_line hline] at hmark
  · obtain ⟨line,rest,rfl,hline⟩ := List.eq_append_cons_of_mem ((List.mem_append.mp hended).resolve_left hkept)
    have hboth : newline∉kept++line := by simp [hkept,hline]
    rw [if_neg hkept]
    rw [← List.append_assoc,frontLine_line hboth] at hmark
    have hdrop := marked_drop hmark
    constructor
    · exact fun hmem => hboth ((List.dropWhile_suffix _).subset (hdrop.subset hmem))
    · rw [List.dropWhile_append] at hdrop
      split at hdrop
      · rename_i hblank
        rw [List.isEmpty_iff.mp hblank]
        exact .inr List.nil_prefix
      · exact List.prefix_or_prefix_of_prefix hdrop (List.prefix_append ..)

/-- A line that may become the marker's does when the right bytes come. -/
theorem marked_of_mayOpen (h : MayOpen (beginMarker token) kept) :
    ∃later,newline∈kept++later ∧ beginMarker token<+:trimBlanks (frontLine newline (kept++later)) := by
  unfold MayOpen at h
  by_cases hkept : newline∈kept
  · rw [if_pos hkept] at h
    exact ⟨[],by rwa [List.append_nil],by rwa [List.append_nil]⟩
  · rw [if_neg hkept] at h
    obtain ⟨hline,hpart⟩ := h
    -- What the marker still lacks, and a byte that keeps its end from being trimmed.
    have hrest : ∃rest,newline∉rest ∧ beginMarker token<+:kept.dropWhile isBlank++rest := by
      obtain hwhole | hpart := hpart
      · exact ⟨[],List.not_mem_nil,hwhole.trans (List.prefix_append ..)⟩
      · obtain ⟨rest,hrest⟩ := hpart
        refine ⟨rest,fun hmem => hline ?_,⟨[],by rw [hrest,List.append_nil]⟩⟩
        rw [← hrest]
        exact List.mem_append_right _ hmem
    obtain ⟨rest,hrest,hmark⟩ := hrest
    have hboth : newline∉kept++(rest++[0x78]) := by
      simp only [List.mem_append,List.mem_singleton,not_or]
      exact ⟨hkept,hrest,by decide⟩
    refine ⟨(rest++[0x78])++[newline],by simp,?_⟩
    rw [← List.append_assoc,frontLine_line hboth]
    have hsolid : Solid (kept.dropWhile isBlank++(rest++[0x78])) := solid_append (solid_append ⟨0x78,rfl,by decide⟩)
    have hdrop : (kept++(rest++[0x78])).dropWhile isBlank=kept.dropWhile isBlank++(rest++[0x78]) := by
      rw [List.dropWhile_append]
      split
      · rename_i hblank
        rw [List.isEmpty_iff.mp hblank,List.nil_append] at hmark ⊢
        obtain ⟨more,rfl⟩ := hmark
        rfl
      · rfl
    rw [trimBlanks,hdrop,trimEnd_solid hsolid,← List.append_assoc]
    exact hmark.trans (List.prefix_append ..)

private theorem unendedLine_take (buffer : Bytes) (frame : SerialFrame)
    (hfits : (beginMarker frame.token).length≤kFrameBufferCap)
    (later : Bytes) : ∀i < (buffer.take (capCut buffer frame)).length,
      ¬beginMarker frame.token<+:(buffer.take
        (capCut buffer frame)++(capFrameBuffer buffer frame++later)).drop i := by
  intro i hi
  rw [← List.append_assoc,take_capFrameBuffer]
  rw [List.length_take] at hi
  exact capCut_free hfits (by omega)

/-- A cap leaves where a frame begins, whatever comes later, exactly where it cuts at a line's start or leaves
no line that can open a frame. -/
theorem soundCap_iff (hfits : (beginMarker frame.token).length≤kFrameBufferCap) :
    SoundCap buffer frame ↔ ∀later,endOfMarkerLine (buffer++later) (beginMarker frame.token) 0=
      (endOfMarkerLine (capFrameBuffer buffer frame++later) (beginMarker frame.token) 0).map
        ((buffer.take (capCut buffer frame)).length+·) := by
  have hfree := unendedLine_take buffer frame hfits
  have hsplit : ∀later,buffer++later=buffer.take (capCut buffer frame)++(capFrameBuffer buffer frame++later) := by
    intro later
    rw [← List.append_assoc,take_capFrameBuffer]
  constructor
  · intro h later
    rw [hsplit]
    apply endOfMarkerLine_behind (hfree later)
    exact h.imp_right fun hnot hended hmark => hnot (mayOpen_of_marked hended hmark)
  · intro h
    by_contra hnot
    rw [SoundCap,SoundCut,not_or,not_not,Bool.not_eq_true] at hnot
    obtain ⟨later,hended,hmark⟩ := marked_of_mayOpen hnot.2
    have hmoved := h later
    rw [hsplit] at hmoved
    exact endOfMarkerLine_moved (hfree later) hnot.1 hended hmark hmoved

private theorem capFrameBuffer_result (hfits : (beginMarker frame.token).length≤kFrameBufferCap)
    (h : SoundCap buffer frame)
    (later : Bytes) : (readFramedAnswer (capFrameBuffer buffer frame++later) frame).result=
      (readFramedAnswer (buffer++later) frame).result := by
  have hbegin := (soundCap_iff hfits).mp h later
  have hsplit : buffer++later=buffer.take (capCut buffer frame)++(capFrameBuffer buffer frame++later) := by
    rw [← List.append_assoc,take_capFrameBuffer]
  rw [hsplit] at hbegin ⊢
  exact (readFramedAnswer_behind hbegin).symm

private theorem awaitCapped_of_agree (hfits : (beginMarker frame.token).length≤kFrameBufferCap) {capped : Bytes}
    {chunks : List Bytes} (hagree : ∀later,(readFramedAnswer (capped++later) frame).result=(readFramedAnswer
      (buffer++later) frame).result) (h : CapsSoundly frame capped chunks) :
    (awaitCapped frame capped chunks).result=(awaitAnswer frame buffer chunks).result := by
  have hnow := hagree []
  rw [List.append_nil,List.append_nil] at hnow
  induction chunks generalizing capped buffer with
  | nil => exact hnow
  | cons chunk chunks ih =>
    have hstate : (readFramedAnswer capped frame).state=(readFramedAnswer buffer frame).state :=
      congrArg (fun result => result.2.1) hnow
    unfold awaitCapped awaitAnswer
    dsimp only
    rw [hstate]
    split
    · rename_i hincomplete
      obtain ⟨hsound,hrest⟩ := h (hstate.trans hincomplete)
      have hagree' : ∀later,(readFramedAnswer (capFrameBuffer (capped++chunk) frame++later) frame).result=
          (readFramedAnswer (buffer++chunk++later) frame).result := by
        intro later
        rw [capFrameBuffer_result hfits hsound,List.append_assoc,List.append_assoc]
        exact hagree (chunk++later)
      have hnow' := hagree' []
      rw [List.append_nil,List.append_nil] at hnow'
      exact ih hagree' hrest hnow'
    · exact hnow

/-- Where every cap of a run cuts at a line's start, or leaves a line that opens no frame, the answer is what it is
without a cap; any other cap moves where a frame begins, for some bytes that come later. -/
theorem capped_answer (frame : SerialFrame) (hfits : (beginMarker frame.token).length≤kFrameBufferCap) :
    (∀buffer chunks,CapsSoundly frame buffer chunks→
      (awaitCapped frame buffer chunks).result=(awaitAnswer frame buffer chunks).result) ∧
    ∀buffer,SoundCap buffer frame ↔ ∀later,endOfMarkerLine (buffer++later) (beginMarker frame.token) 0=
      (endOfMarkerLine (capFrameBuffer buffer frame++later) (beginMarker frame.token) 0).map
        ((buffer.take (capCut buffer frame)).length+·) := by
  constructor
  · intro buffer chunks h
    exact awaitCapped_of_agree hfits (fun _ => rfl) h
  · exact fun buffer => soundCap_iff hfits

/-! ## Noise of the cap's length -/

/-- The frame of a session's first run. -/
def firstFrame : SerialFrame := ⟨frameToken 10 1,-1⟩

def echoed : Bytes := framedCommand (ascii "cat x") firstFrame false

/-- A line of noise. -/
def noiseLine (n : ℕ) (rest : Bytes) : Bytes := List.replicate n 0x6E++newline::rest

section
variable {n p : ℕ} {rest : Bytes}

theorem noiseLine_eq (n : ℕ) (rest : Bytes) : noiseLine n rest=noiseLine n []++rest := by simp [noiseLine]

private theorem newline_noise (n : ℕ) : newline∉List.replicate n (0x6E : Byte) := by
  intro hmem
  exact absurd (List.eq_of_mem_replicate hmem) (by decide)

theorem noiseLine_free (token rest : Bytes) :
    ∀i < (noiseLine n []).length,¬beginMarker token<+:(noiseLine n []++rest).drop i := by
  intro i hi hmark
  obtain ⟨more,hmore⟩ := hmark
  have hhead : (noiseLine n []++rest)[i]?=some 0x4C := by
    have hzero : ((noiseLine n []++rest).drop i)[0]?=some 0x4C := by rw [← hmore]; rfl
    simpa using hzero
  rw [List.getElem?_append_left hi] at hhead
  have hmem := List.mem_of_getElem? hhead
  simp only [noiseLine,List.mem_append,List.mem_singleton] at hmem
  obtain hmem | hmem := hmem
  · exact absurd (List.eq_of_mem_replicate hmem) (by decide)
  · exact absurd hmem (by decide)

theorem noiseLine_unended (rest : Bytes) : unendedLine newline (noiseLine n rest)=unendedLine newline rest :=
  unendedLine_line (newline_noise n) rest

theorem readFramedAnswer_noise (frame : SerialFrame) (rest : Bytes) :
    (readFramedAnswer (noiseLine n rest) frame).result=(readFramedAnswer rest frame).result := by
  rw [noiseLine_eq]
  apply readFramedAnswer_behind
  apply endOfMarkerLine_behind (noiseLine_free frame.token rest)
  left
  rw [noiseLine_unended]
  rfl

theorem capCut_noise {frame : SerialFrame} (hn : kFrameBufferCap≤n)
    (h : firstAt (beginMarker frame.token) rest=some p) :
    capCut (noiseLine n rest) frame=(noiseLine n []).length+p := by
  have hlong : ¬(noiseLine n rest).length≤kFrameBufferCap := by
    rw [noiseLine,List.length_append,List.length_replicate,List.length_cons]
    omega
  rw [capCut,if_neg hlong,indexOf,List.drop_zero,noiseLine_eq,firstAt_past (noiseLine_free frame.token rest),h,
    Option.map_some,Option.map_some,Option.getD_some,Nat.zero_add]

private theorem cap_noise {frame : SerialFrame} (hn : kFrameBufferCap≤n)
    (h : firstAt (beginMarker frame.token) rest=some p) :
    capFrameBuffer (noiseLine n rest) frame=rest.drop p := by
  rw [capFrameBuffer_eq,capCut_noise hn h,noiseLine_eq n rest,List.drop_length_add_append]

theorem firstFrame_empty : (readFramedAnswer [] firstFrame).state=.incomplete := rfl

theorem firstFrame_fits : (beginMarker firstFrame.token).length≤kFrameBufferCap := by decide

/-- The reply of `cat` to the command. -/
def replied : Bytes := framed firstFrame.token (ascii "ok") 0

/-- After noise the cap makes the echo of a command the line that opens its frame. -/
theorem echoed_capped (hn : kFrameBufferCap≤n) :
    (awaitCapped firstFrame [] [noiseLine n echoed,replied]).result=(false,.complete,ascii "\nLFB-a1\nok",0) := by
  have hmark : firstAt (beginMarker firstFrame.token) echoed=some 16 := by decide +kernel
  have hwait : (readFramedAnswer (echoed.drop 16) firstFrame).state=.incomplete := by decide +kernel
  have hcap : capFrameBuffer (echoed.drop 16++replied) firstFrame=echoed.drop 16++replied := by decide +kernel
  simp only [awaitCapped,firstFrame_empty,if_true,List.nil_append,cap_noise hn hmark,hwait,hcap]
  decide +kernel

private theorem echoed_uncapped : (awaitAnswer firstFrame [] [noiseLine n echoed,replied]).result=(false,
    .complete,ascii "ok",0) := by
  have hwait : (readFramedAnswer (noiseLine n echoed) firstFrame).state=.incomplete := by
    have hnoise := congrArg (fun result => result.2.1) (readFramedAnswer_noise (n:=n) firstFrame echoed)
    refine Eq.trans hnoise ?_
    decide +kernel
  have hshape : noiseLine n echoed++replied=noiseLine n (echoed++replied) := by
    rw [noiseLine_eq,List.append_assoc,← noiseLine_eq]
  simp only [awaitAnswer,firstFrame_empty,if_true,List.nil_append,hwait,hshape,readFramedAnswer_noise]
  decide +kernel

/-- Noise and a whole frame behind it are capped soundly. -/
theorem replied_soundly (hn : kFrameBufferCap≤n) : CapsSoundly firstFrame [] [noiseLine n replied] := by
  intro _
  have hmark : firstAt (beginMarker firstFrame.token) replied=some 1 := by decide +kernel
  refine ⟨.inl ?_,trivial⟩
  rw [List.nil_append,capCut_noise hn hmark,noiseLine_eq n replied,List.take_length_add_append,← noiseLine_eq,
    noiseLine_unended]
  decide +kernel

end

theorem capped_answer_noise :
    (awaitCapped firstFrame [] [noiseLine kFrameBufferCap replied]).result=
      (awaitAnswer firstFrame [] [noiseLine kFrameBufferCap replied]).result :=
  (capped_answer firstFrame firstFrame_fits).1 [] _ (replied_soundly (Nat.le_refl _))

/-- With its echo before it the reply is read otherwise than without a cap. -/
theorem capped_answer_echoed : (beginMarker firstFrame.token).length≤kFrameBufferCap ∧
    replied.length≤kFrameBufferCap ∧
    (awaitAnswer firstFrame [] [noiseLine kFrameBufferCap echoed,replied]).result=(false,.complete,ascii "ok",0) ∧
    (awaitCapped firstFrame [] [noiseLine kFrameBufferCap echoed,replied]).result=
      (false,.complete,ascii "\nLFB-a1\nok",0) :=
  ⟨firstFrame_fits,by decide,echoed_uncapped,echoed_capped (Nat.le_refl _)⟩

end Loftail
