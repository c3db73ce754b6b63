import Loftail.Backtracking
import Loftail.DateReading
import Loftail.Document
import Loftail.FieldGroups
import Loftail.WholeCharacters

/-! # The message that is searched and the message that is shown

The search takes what follows the record-start match; the Message cell takes the message's own group of the whole
match. -/
namespace Loftail
open RegularLanguage RegularLanguage.Re

/-- The cell of a field that is decoded from the record's bytes. -/
def Document.fieldCell (d : Document) (rec : Record) (field : Field) : Text :=
  let bytes := d.recordBytes rec
  if bytes.isEmpty then []
  else
    let (firstLine,firstEnd) := d.decoder.firstLine bytes
    let value := match d.format.recordRe.exec firstLine with
      | some m => if 0 < field.group then m.captured field.group else []
      -- The line of an unparsed record is its message.
      | none => if field.role=.message then firstLine else []
    if field.role=.message ∧ firstEnd<bytes.length then
      let rest := chopNewlines (d.decoder.decode (bytes.drop firstEnd))
      if rest.isEmpty then value else value++0x0A::rest
    else value

/-! ## What the engine answers -/

abbrev Engine (p : Platform) (pair : UInt16→UInt16→Bool) : Type := Trials (CharClass.language p pair)

/-- `$` also stands before a last newline. -/
def Expression.endsAt (e : Expression) (line : Text) (t : ℕ×List Text) : Bool :=
  !e.closed || t.1=line.length || line.drop t.1=[0x0A]

def matchOf (line : Text) (t : ℕ×List Text) : Match where
  captured
    | 0 => line.take t.1
    | i+1 => t.2.getD i []
  capturedEnd := t.1

/-- An expression as the engine reads its text. -/
def Expression.asRead (e : Expression) : Expression := ⟨e.body.asRead,e.closed⟩

/-- The first trial that ends where the expression may. -/
def Engine.exec {p : Platform} {pair : UInt16→UInt16→Bool} (T : Engine p pair) (e : Expression) (line : Text) :
    Option Match :=
  ((T.run e.body line).find? (e.endsAt line)).map (matchOf line)

/-- The platform's engine answers so; it refuses a text with an unpaired surrogate, be it a pattern or a line. -/
structure Platform.Backtracks (p : Platform) {pair : UInt16→UInt16→Bool} (T : Engine p pair)
    (e : Expression) : Prop where
  paired : (p.compile e.text .sensitive).isValid=true→Paired e.text
  exec (line : Text) : (p.compile e.text .sensitive).exec line=if Paired line then T.exec e.asRead line else none

/-! ## What the engine finds of a message -/

section
variable {p : Platform} {pair : UInt16→UInt16→Bool} {T : Engine p pair} {line text : Text}
  {before after : List Pattern}
  {e : Expression} {t u : ℕ×List Text} {n : ℕ} {padded : Bool}

private theorem prefixFree_any (p : Platform) (pair : UInt16→UInt16→Bool) : PrefixFree
    (CharClass.language p pair .any) := by
  rintro u hu v hv h
  rcases hu with ⟨c,rfl,hc,-⟩ | ⟨hi,lo,rfl,hhi,-⟩ <;> rcases hv with ⟨d,rfl,hd,-⟩ | ⟨hi',lo',rfl,hhi',-⟩
  · exact h.eq_of_length rfl
  · obtain ⟨rfl,-⟩ := List.cons_prefix_cons.mp h
    rw [surrogate_false.mp hc |>.1] at hhi'
    cases hhi'
  · exact absurd h.length_le (by simp)
  · exact h.eq_of_length rfl

private theorem first_any (h : 0x0A∉text) (hpaired : Paired text) : T.First (.rep (.cls .any) .star) text
    (text.length,[]) := by
  apply Trials.first_all (prefixFree_any p pair)
  refine (mem_star_characters (q:=.star) rfl (fun _ => surrogate_any) fun _ => trivial).mpr ⟨hpaired,fun c hc => ?_⟩
  exact decide_eq_true fun heq => h (heq ▸ hc)

/-- The text behind white space is of whole characters. -/
theorem paired_dropWhile (h : Paired text) : Paired (text.dropWhile isAsciiSpace) := by
  have hspaces : ∀spaces : Text,(∀c∈spaces,isAsciiSpace c=true)→Paired (spaces++text.dropWhile isAsciiSpace)→
      Paired (text.dropWhile isAsciiSpace) := by
    intro spaces hall hpaired
    induction spaces with
    | nil => exact hpaired
    | cons c spaces ih =>
      have hc : isSurrogate c=false := by
        rw [← Bool.not_eq_true]
        intro hsurrogate
        have hnot := surrogate_notSpace hsurrogate
        rw [hall c List.mem_cons_self] at hnot
        cases hnot
      exact ih (fun d hd => hall d (List.mem_cons_of_mem _ hd)) ((paired_cons hc).mp hpaired)
  apply hspaces (text.takeWhile isAsciiSpace) fun c hc => List.mem_takeWhile_imp hc
  rwa [List.takeWhile_append_dropWhile]

/-- A message as the engine reads it. -/
def messageRow (padded : Bool) : List Pattern := Pattern.row (messageRegex padded)

theorem messageRow_marks : ∀r∈messageRow padded,Pattern.IsMark r := by
  cases padded with
  | false => exact List.forall_mem_singleton.mpr nofun
  | true => exact List.forall_mem_cons.mpr ⟨nofun,List.forall_mem_cons.mpr
    ⟨nofun,List.forall_mem_singleton.mpr nofun⟩⟩

/-- A message takes the rest of its line, a padded one without the white space before it. -/
theorem first_message (h : 0x0A∉text) (hpaired : Paired text) : T.First (.all (messageRow padded)) text
    (text.length,[if padded then text.dropWhile isAsciiSpace else text]) := by
  have hgroup : ∀{text},0x0A∉text→Paired text→T.First (.all [.group (.all [.rep (.cls .any) .star])]) text
    (text.length,[text]) := by
    intro text h hpaired
    have hfirst := (Trials.first_singleton.mpr (first_any (T:=T) h hpaired)).group
    rw [List.take_length] at hfirst
    exact Trials.first_singleton.mpr hfirst
  cases padded with
  | false => exact hgroup h hpaired
  | true =>
    have hspace := Trials.first_singleton.mpr (Trials.first_run (T:=T) (s:=text) (k:=.space) (p:=isAsciiSpace) rfl)
    have hsplit := List.takeWhile_append_dropWhile (p:=isAsciiSpace) (l:=text)
    have hdrop : (text.takeWhile isAsciiSpace++text.dropWhile isAsciiSpace).drop
      (text.takeWhile isAsciiSpace).length=
        text.dropWhile isAsciiSpace := List.drop_left
    have hlen := congrArg List.length hsplit
    rw [List.length_append] at hlen
    rw [hsplit] at hdrop
    have hrest : 0x0A∉text.dropWhile isAsciiSpace := fun hmem => h ((List.dropWhile_suffix _).subset hmem)
    have hvalue := hgroup hrest (paired_dropWhile hpaired)
    have hnothing := Trials.first_singleton.mpr (Trials.first_run (T:=T) (s:=[]) (k:=.space) (p:=isAsciiSpace) rfl)
    rw [← List.drop_length (l:=text.dropWhile isAsciiSpace)] at hnothing
    have htail := hvalue.append hnothing
    rw [← hdrop] at htail
    have hall := hspace.append htail
    simp only [List.drop_length,List.takeWhile_nil,List.length_nil,Nat.add_zero,List.append_nil,List.nil_append,
      hdrop,hlen] at hall
    exact hall

/-- What a message takes is a part of the text. -/
theorem message_trial (h : u∈T.run (.all (messageRow padded)) text) :
    u.1 ≤ text.length ∧ ∃i j,i+j ≤ u.1 ∧ u.2=[(text.drop i).take j] := by
  refine ⟨(Trials.mem_run.mp ⟨u.2,h⟩).1,?_⟩
  have hgroup : ∀{text u},u∈T.run (.all [.group (.all [.rep (.cls .any) .star])]) text→u.2=[text.take u.1] := by
    intro text u h
    rw [Trials.run_all_singleton,T.run_group,Trials.run_all_singleton] at h
    obtain ⟨t,ht,rfl⟩ := List.mem_map.mp h
    rw [List.length_eq_zero_iff.mp (Trials.caps_run ht)]
  cases padded with
  | false => exact ⟨0,u.1,(Nat.zero_add _).le,hgroup h⟩
  | true =>
    have hrow : messageRow true=[.rep (.cls .space) .star]++
      ([.group (.all [.rep (.cls .any) .star])]++[.rep (.cls .space) .star]) := rfl
    rw [hrow,Trials.run_all_append] at h
    obtain ⟨t,ht,h⟩ := List.mem_flatMap.mp h
    obtain ⟨v,hv,rfl⟩ := List.mem_map.mp h
    rw [Trials.run_all_append] at hv
    obtain ⟨w,hw,hv⟩ := List.mem_flatMap.mp hv
    obtain ⟨x,hx,rfl⟩ := List.mem_map.mp hv
    refine ⟨t.1,w.1,by simp only; omega,?_⟩
    rw [hgroup hw,List.length_eq_zero_iff.mp (Trials.caps_run ht),List.length_eq_zero_iff.mp (Trials.caps_run hx)]
    rfl

/-- What can be matched by nothing at all is matched by it at the end. -/
theorem first_nothing {r : Pattern} (h : []∈Pattern.language p pair r) : ∃caps,T.First r [] (0,caps) := by
  obtain ⟨caps,hcaps⟩ := (Trials.mem_run (T:=T) (r:=r) (s:=[]) (n:=0)).mpr ⟨Nat.le_refl _,h⟩
  cases hrun : T.run r [] with
  | nil =>
    rw [hrun] at hcaps
    cases hcaps
  | cons t ts =>
    have hle := (Trials.mem_run.mp ⟨t.2,(hrun ▸ List.mem_cons_self : t∈T.run r [])⟩).1
    refine ⟨t.2,?_⟩
    rw [Trials.First,hrun,List.head?_cons]
    congr 1
    exact Prod.ext (Nat.le_zero.mp hle) rfl

/-- The first trial is the answer where it ends as the expression does. -/
theorem exec_first (h : T.First e.body line t) (hend : e.closed=true→t.1=line.length) :
    T.exec e line=some (matchOf line t) := by
  obtain ⟨ts,hts⟩ := List.head?_eq_some_iff.mp h
  have hok : e.endsAt line t=true := by
    unfold Expression.endsAt
    cases hclosed : e.closed with
    | false => simp
    | true => simp [hend hclosed]
  rw [Engine.exec,hts,List.find?_cons_of_pos hok]
  rfl

theorem exec_none (h : T.run e.body line=[]) : T.exec e line=none := by
  rw [Engine.exec,h]
  rfl

/-- The whole expression as it is read, its first message with what stands before and after it. -/
def wholeOf (before : List Pattern) (padded : Bool) (after : List Pattern) : Expression :=
  ⟨.all (before++(messageRow padded++after)),true⟩

def startOf (before : List Pattern) : Expression := ⟨.all before,false⟩

/-- What a message shows of the text behind the start of its record. -/
def shownOf (padded : Bool) (text : Text) : Text := if padded then text.dropWhile isAsciiSpace else text

/-- Where nothing need follow the message it takes the rest of the line. -/
theorem whole_first (h : T.First (.all before) line t) (hline : 0x0A∉line) (hpaired : Paired (line.drop t.1))
    (hafter : []∈Pattern.language p pair (.all after)) :
    ∃caps,T.exec (wholeOf before padded after) line=
      some (matchOf line (line.length,t.2++(shownOf padded (line.drop t.1)::caps))) := by
  have hin : t∈T.run (.all before) line := List.mem_of_mem_head? h
  have hle := (Trials.mem_run.mp ⟨t.2,hin⟩).1
  have hmessage : T.First (.all (messageRow padded)) (line.drop t.1)
    ((line.drop t.1).length,[shownOf padded (line.drop t.1)]) :=
    first_message (fun hmem => hline (List.mem_of_mem_drop hmem)) hpaired
  obtain ⟨caps,hnothing⟩ := first_nothing (T:=T) hafter
  rw [← List.drop_length (l:=line.drop t.1)] at hnothing
  have hall := h.append (hmessage.append hnothing)
  have hlen : t.1+((line.drop t.1).length+0)=line.length := by
    rw [List.length_drop]
    omega
  rw [hlen] at hall
  exact ⟨caps,exec_first hall fun _ => rfl⟩

/-- What has no start has no whole. -/
theorem whole_none (h : T.run (.all before) line=[]) : T.exec (wholeOf before padded after) line=none := by
  apply exec_none
  rw [wholeOf,Trials.run_all_append,h]
  rfl

theorem captured_message (caps caps' : List Text) (value : Text) (n : ℕ) :
    (matchOf line (n,caps++(value::caps'))).captured (caps.length+1)=value := by
  simp [matchOf]

/-- A whole match gives the message a part of the line, which ends before the line does where something must
follow. -/
theorem whole_message {m : Match} (hline : 0x0A∉line) (hm : T.exec (wholeOf before padded after) line=some m) :
    ∃i tail,line=line.take i++m.captured (groupCount (.all before)+1)++tail ∧
      ([]∉Pattern.language p pair (.all after)→tail≠[]) := by
  obtain ⟨w,hw,rfl⟩ := Option.map_eq_some_iff.mp hm
  have hend : w.1=line.length := by
    have hends := List.find?_some hw
    have hnewline : line.drop w.1≠[0x0A] := fun heq => hline (List.mem_of_mem_drop (heq▸List.mem_singleton_self _))
    simpa [Expression.endsAt,wholeOf,hnewline] using hends
  have hin := List.mem_of_find?_eq_some hw
  rw [wholeOf,Trials.run_all_append] at hin
  obtain ⟨t,ht,hin⟩ := List.mem_flatMap.mp hin
  obtain ⟨v,hv,rfl⟩ := List.mem_map.mp hin
  rw [Trials.run_all_append] at hv
  obtain ⟨u,hu,hv⟩ := List.mem_flatMap.mp hv
  obtain ⟨x,hx,rfl⟩ := List.mem_map.mp hv
  obtain ⟨hxle,hxin⟩ := Trials.mem_run.mp ⟨x.2,hx⟩
  obtain ⟨hule,i,j,hij,hcaps⟩ := message_trial hu
  simp only [List.length_drop] at hend hxle hule
  have hcount : groupCount (.all before)=t.2.length := (Trials.caps_run ht).symm
  refine ⟨t.1+i,line.drop (t.1+i+j),?_,fun hafter hnil => hafter ?_⟩
  · rw [hcount,hcaps,List.singleton_append,captured_message,List.drop_drop]
    conv_lhs => rw [← List.take_append_drop (t.1+i) line,← List.take_append_drop j
      (line.drop (t.1+i)),List.drop_drop]
    rw [List.append_assoc]
  · have hzero : x.1=0 := by
      have hlen := congrArg List.length hnil
      rw [List.length_drop,List.length_nil] at hlen
      omega
    rwa [hzero,List.take_zero] at hxin

end

/-! ## The record's two texts -/

namespace Compilation

/-- What stands before the first message of a pattern, as the engine reads it. -/
def beforeMessage (s : Compilation) : List Pattern := Pattern.readRow (Pattern.row s.recordStart.body)

/-- What follows it. -/
def afterMessage (s : Compilation) : List Pattern :=
  Pattern.readRow (((s.pieces.dropWhile fun piece => !piece.isMessage).tail.map Piece.regex).flatMap Pattern.row)

/-- Whether the first message is given a minimum width. -/
def PaddedMessage (s : Compilation) : Prop := ∃piece,s.pieces.find? Piece.isMessage=some piece ∧
    piece.regex=messageRegex true

/-- What lets the search and the cell take the same of a first line in which `start` is the match of the
record's start. Where nothing need follow the message, a padded one must not begin with white space. Where
something must, the line is no whole record and its start is empty, or the start has gone past the beginning of
the message, by as much as follows the message, and the text is there what it is at that beginning. -/
def SameText (p : Platform) (pair : UInt16→UInt16→Bool) (s : Compilation) (f : LogFormat) (group : ℕ) (line : Text)
    (start : Match) : Prop :=
  ([]∈Pattern.language p pair (.all s.afterMessage)→
    s.PaddedMessage→startsWith isAsciiSpace (line.drop start.capturedEnd)=false) ∧
  ([]∉Pattern.language p pair (.all s.afterMessage)→
    match f.recordRe.exec line with
    | none => start.capturedEnd=0
    | some m => ∃i tail,tail≠[] ∧ line=line.take i++m.captured group++tail ∧ start.capturedEnd=i+tail.length ∧
        line.drop start.capturedEnd<+:line.drop i)

end Compilation

/-- A decoder finds a line feed only where there is one. -/
def Decoder.Lined (d : Decoder) : Prop := ∀content,d.newline content=none→0x0A∉d.decode content

section
variable {d : Document} {rec : Record} {field : Field}

private theorem byteLineEnd_before {bytes : Bytes} {k : ℕ} (h : Decoder.byteLineEnd bytes=some k) :
    Decoder.byteLineEnd (bytes.take (k-1))=none := by
  induction bytes generalizing k with
  | nil => cases h
  | cons b bytes ih =>
    rw [Decoder.byteLineEnd] at h
    split at h
    · obtain rfl := Option.some.inj h
      rfl
    · rename_i hb
      obtain ⟨j,hj,rfl⟩ := Option.map_eq_some_iff.mp h
      cases j with
      | zero => rfl
      | succ j =>
        have hrest := ih hj
        rw [Nat.add_sub_cancel] at hrest ⊢
        rw [List.take_succ_cons,Decoder.byteLineEnd,if_neg hb,hrest]
        rfl

theorem unitLineEnd_before {x y : Byte} {bytes : Bytes} {k : ℕ} (h : Decoder.unitLineEnd x y bytes=some k) :
    Decoder.unitLineEnd x y (bytes.take (k-2))=none := by
  fun_induction Decoder.unitLineEnd x y bytes generalizing k with
  | case1 a b bs hab =>
    obtain rfl := Option.some.inj h
    rfl
  | case2 a b bs hab ih =>
    obtain ⟨j,hj,rfl⟩ := Option.map_eq_some_iff.mp h
    have hrest := ih hj
    rcases j with - | - | j
    · rfl
    · rfl
    · change Decoder.unitLineEnd x y (bs.take j)=none at hrest
      show Decoder.unitLineEnd x y ((a::b::bs).take (j+2))=none
      rw [List.take_succ_cons,List.take_succ_cons,Decoder.unitLineEnd,if_neg hab,hrest]
      rfl
  | case3 xs hx => cases h

/-- Before a line's end there is none. -/
theorem newline_before {decoder : Decoder} {bytes : Bytes} {k : ℕ} (h : decoder.newline bytes=some k) :
    decoder.newline (bytes.take (k-decoder.unitSize))=none := by
  have hunit := decoder.unit
  unfold Decoder.newline at h ⊢
  split at h
  · rename_i hone
    rw [if_pos hone,hone]
    exact byteLineEnd_before h
  · rename_i hone
    have htwo : decoder.unitSize=2 := by
      cases hres : decoder.resolved <;> rw [hres,Encoding.unit] at hunit
      all_goals first | exact hunit | exact absurd hunit hone
    rw [if_neg hone,htwo]
    split at h
    · rename_i hle
      rw [if_pos hle]
      exact unitLineEnd_before h
    · rename_i hle
      rw [if_neg hle]
      exact unitLineEnd_before h

/-- No line feed is left in the text of a first line. -/
theorem line_recordFirstLine (h : d.decoder.Lined) : 0x0A∉d.recordFirstLine rec := by
  have hline : ∀content,d.decoder.newline content=none→0x0A∉d.decoder.decodeLine content := by
    intro content hnone
    unfold Decoder.decodeLine
    dsimp only
    split
    · exact fun hmem => h content hnone (List.dropLast_subset _ hmem)
    · exact h content hnone
  unfold Document.recordFirstLine
  split
  · exact List.not_mem_nil
  · apply hline
    unfold Decoder.lineEnd
    rw [List.drop_zero]
    cases hnewline : d.decoder.newline (d.recordBytes rec) with
    | none => simpa using hnewline
    | some k => simpa using newline_before hnewline

/-- What the search takes of a first line. -/
def searchedOf (f : LogFormat) (line : Text) : Text :=
  match f.recordStartRe.exec line with
  | some m => line.drop m.capturedEnd
  | none => line

/-- What the message of a group shows of it. -/
def cellOf (f : LogFormat) (group : ℕ) (line : Text) : Text :=
  match f.recordRe.exec line with
  | some m => if 0 < group then m.captured group else []
  | none => line

/-- The continuation lines are the same on both sides. -/
theorem messageText_iff (hbytes : d.recordBytes rec≠[]) (hgroup : 0 < d.format.msgGroup)
    (hrole : field.role=.message) :
    d.messageText rec=d.fieldCell rec field ↔
      searchedOf d.format (d.recordFirstLine rec)=cellOf d.format field.group (d.recordFirstLine rec) := by
  have hempty : (d.recordBytes rec).isEmpty=false := List.isEmpty_eq_false_iff.mpr hbytes
  have hpos : ¬d.format.msgGroup≤0 := not_le.mpr hgroup
  simp only [Document.messageText,Document.fieldCell,Document.recordFirstLine,hempty,Bool.false_eq_true,
    if_false,if_neg hpos,hrole,if_true,true_and,searchedOf,cellOf]
  split
  · split
    · exact Iff.rfl
    · exact List.append_left_inj _
  · exact Iff.rfl

end

/-! ## The compiled pattern -/

private theorem groups_eq (r : Pattern) : Pattern.groups r=groupCount r := by
  induction r with
  | empty => rfl
  | cls k => rfl
  | seq a b iha ihb => exact congrArg₂ (·+·) iha ihb
  | alt a b iha ihb => exact congrArg₂ (·+·) iha ihb
  | rep r q ih => exact ih
  | plain r ih => exact ih
  | group r ih => exact congrArg (·+1) ih

private theorem messageRegex_padded {padded : Bool} : messageRegex padded=messageRegex true ↔ padded=true := by
  cases padded with
  | false => exact iff_of_false (fun h => by cases h) Bool.false_ne_true
  | true => exact iff_of_true rfl rfl

section
variable {p : Platform} {pattern : Text} {s : Compilation} {field : Field}

private theorem fields_at {before after : List Piece} {piece : Piece} (hs : s.pieces=before++piece::after)
    (hbefore : ∀other∈before,other.isField=true → other.role≠.message) (hpiece : piece.isField=true)
    (hrole : piece.role=.message) (hfield : s.fields.find? (·.role=.message)=some field) :
    field.role=.message ∧ field.group=(before.filter Piece.isField).length+1 := by
  unfold Compilation.fields at hfield
  rw [hs,List.filter_append,List.filter_cons_of_pos hpiece,List.zipIdx_append,List.map_append,List.find?_append,
    List.zipIdx_cons,List.map_cons,List.find?_cons_of_pos (by simp [hrole])] at hfield
  have hnone (f : Piece×ℕ→Field) (hf : ∀entry,(f entry).role=entry.1.role) :
      ((before.filter Piece.isField).zipIdx.map f).find? (fun field => decide (field.role=.message))=none := by
    rw [List.find?_eq_none]
    intro other hother
    obtain ⟨⟨q,n⟩,hq,rfl⟩ := List.mem_map.mp hother
    obtain ⟨hin,hisField⟩ := List.mem_filter.mp (List.fst_mem_of_mem_zipIdx hq)
    simpa [hf] using hbefore q hin hisField
  rw [hnone _ (fun _ => rfl),Option.none_or,Option.some.injEq] at hfield
  subst hfield
  exact ⟨hrole,by simp⟩

/-- The pieces around the first message, whose group is the one after those of the fields before it. -/
theorem around_message (hs : compilePieces p pattern=.ok s) (hfield : s.fields.find? (·.role=.message)=some field) :
    ∃padded,s.record.asRead=wholeOf s.beforeMessage padded s.afterMessage ∧ (s.PaddedMessage ↔ padded=true) ∧
      field.role=.message ∧ field.group=groupCount (.all s.beforeMessage)+1 ∧ 0 < s.format.groupOf .message := by
  have hcounted := compilePieces_counted hs
  have hin := List.mem_of_find?_eq_some hfield
  have hmem : ∃piece∈s.pieces,piece.isField=true ∧ piece.role=.message := by
    obtain ⟨i,hi⟩ := List.mem_iff_getElem?.mp hin
    obtain ⟨piece,hpiece,hrole,-⟩ := fields_get hi
    obtain ⟨hpiece,hisField⟩ := List.mem_filter.mp (List.mem_of_getElem? hpiece)
    exact ⟨piece,hpiece,hisField,hrole.symm.trans
      (of_decide_eq_true (List.find?_some (p:=fun field : Field => decide (field.role=FieldRole.message)) hfield))⟩
  have hmessages : ∃piece∈s.pieces,piece.isMessage=true := by
    obtain ⟨piece,hpiece,hisField,hrole⟩ := hmem
    exact ⟨piece,hpiece,by rw [(hcounted.sound piece hpiece).message,hisField,hrole]; rfl⟩
  have hsplit : s.pieces=(s.pieces.takeWhile fun piece => !piece.isMessage)++s.pieces.dropWhile fun piece =>
    !piece.isMessage :=
    List.takeWhile_append_dropWhile.symm
  have hbefore : ∀other∈s.pieces.takeWhile fun piece => !piece.isMessage,other.isMessage=false :=
    fun other hother => by simpa using List.mem_takeWhile_imp hother
  rcases pieces_from_message s with hdrop | ⟨message,after,hdrop,hpiece,hmessage⟩
  · obtain ⟨piece,hpiece,hmessage⟩ := hmessages
    have hnone := List.dropWhile_eq_nil_iff.mp hdrop piece hpiece
    rw [hmessage] at hnone
    cases hnone
  · rw [hdrop] at hsplit
    obtain ⟨hisField,hrole,padded,hregex⟩ := message_pieces hs hpiece hmessage
    have hfound : s.pieces.find? Piece.isMessage=some message := by
      rw [hsplit,List.find?_append,List.find?_eq_none.mpr fun other hother =>
        by simp [hbefore other hother],Option.none_or,List.find?_cons_of_pos hmessage]
    have hothers : ∀other∈s.pieces.takeWhile fun piece => !piece.isMessage,other.isField=true →
      other.role≠.message := by
      intro other hother hisField' hrole'
      have hsound := (hcounted.sound other ((List.takeWhile_sublist _).subset hother)).message
      rw [hbefore other hother,hisField',hrole'] at hsound
      cases hsound
    obtain ⟨hfieldRole,hgroup⟩ := fields_at hsplit hothers hisField hrole hfield
    refine ⟨padded,?_,?_,hfieldRole,?_,?_⟩
    · have hbody : Pattern.row s.record.body=Pattern.row s.recordStart.body++
          (messageRow padded++(after.map Piece.regex).flatMap Pattern.row) := by
        show Pattern.row (.all (s.pieces.map Piece.regex))=_
        rw [hsplit,List.map_append,Pattern.row_all,List.flatMap_append,List.map_cons,List.flatMap_cons,hregex,
          ← Pattern.row_all]
        rfl
      rw [Expression.asRead,Pattern.asRead,hbody,Pattern.readRow_append,Pattern.readRow_marks messageRow_marks,
        wholeOf,Compilation.beforeMessage,Compilation.afterMessage,hdrop,List.tail_cons]
      · rfl
      · intro r hr
        rw [List.head?_append_of_ne_nil _ (by cases padded <;> exact List.cons_ne_nil _ _)] at hr
        exact messageRow_marks r (List.mem_of_head? hr)
    · unfold Compilation.PaddedMessage
      rw [hfound,← messageRegex_padded,← hregex]
      constructor
      · rintro ⟨piece,heq,hpadded⟩
        obtain rfl := Option.some.inj heq
        exact hpadded
      · exact fun hpadded => ⟨message,rfl,hpadded⟩
    · have hsound : ∀piece∈s.pieces.takeWhile fun piece => !piece.isMessage,piece.Sound :=
        fun piece hpiece => hcounted.sound piece ((List.takeWhile_sublist _).subset hpiece)
      rw [hgroup,Compilation.beforeMessage,Pattern.groupCount_readRow,Pattern.groupCount_row,← groups_eq]
      exact congrArg (·+1) (groups_pieces hsound).symm
    · rcases hcounted.names .message (by decide) with ⟨-,hnot⟩ | ⟨i,-,hindex⟩
      · refine absurd (List.mem_map.mpr ⟨message,List.mem_filter.mpr ⟨hpiece,hisField⟩,hrole⟩) hnot
      · rw [hindex]
        omega

end

section
variable {p : Platform} {pair : UInt16→UInt16→Bool} {T : Engine p pair} {s : Compilation} {padded : Bool}
  {f : LogFormat}
  {line : Text} {group : ℕ}

private theorem drop_eq_self {α : Type} {n : ℕ} {l : List α} (h : n ≤ l.length) : l.drop n=l ↔ n=0 := by
  constructor
  · intro heq
    have hlen := congrArg List.length heq
    rw [List.length_drop] at hlen
    omega
  · rintro rfl
    rfl

/-- A part of a line is its text from `n` on exactly where that begins as far behind the part's beginning as the
line goes on behind it, with the same text. -/
theorem part_eq_drop {value tail : Text} {i n : ℕ} (hpart : line=line.take i++value++tail) (htail : tail≠[])
    (hn : n ≤ line.length) : line.drop n=value ↔ n=i+tail.length ∧ line.drop n<+:line.drop i := by
  have hlen := congrArg List.length hpart
  have hpos := List.length_pos_of_ne_nil htail
  simp only [List.length_append,List.length_take] at hlen
  have hi : (line.take i).length=i := by
    rw [List.length_take]
    omega
  have hrest := congrArg (List.drop i) hpart
  rw [List.append_assoc,List.drop_left' hi] at hrest
  rw [hrest]
  constructor
  · intro heq
    have hcount := congrArg List.length heq
    rw [List.length_drop] at hcount
    exact ⟨by omega,heq ▸ List.prefix_append _ _⟩
  · rintro ⟨hcount,hbegins⟩
    have hsame : (line.drop n).length=value.length := by
      rw [List.length_drop]
      omega
    exact (List.prefix_of_prefix_length_le hbegins (List.prefix_append _ _) hsame.le).eq_of_length hsame

/-- The two texts of a line. -/
theorem searched_iff (hstart : f.recordStartRe.exec line=if Paired line then T.exec
    (startOf s.beforeMessage) line else none) (hrecord : f.recordRe.exec line=if Paired line then T.exec
      (wholeOf s.beforeMessage padded s.afterMessage) line else none)
    (hgroup : group=groupCount (.all s.beforeMessage)+1) (hpadded : s.PaddedMessage ↔ padded=true)
    (hline : 0x0A∉line) (htidy : Pattern.Tidy (.all s.beforeMessage)) :
    searchedOf f line=cellOf f group line ↔ ∀start,f.recordStartRe.exec line=some start→
    s.SameText p pair f group line start := by
  by_cases hpaired : Paired line
  swap
  · rw [if_neg hpaired] at hstart hrecord
    rw [searchedOf,cellOf,hstart,hrecord]
    exact iff_of_true rfl fun _ h => nomatch h
  rw [if_pos hpaired] at hstart hrecord
  cases hrun : T.run (.all s.beforeMessage) line with
  | nil =>
    have hnone : T.exec (startOf s.beforeMessage) line=none := exec_none hrun
    rw [searchedOf,cellOf,hstart,hrecord,whole_none hrun,hnone]
    exact iff_of_true rfl fun _ h => nomatch h
  | cons t ts =>
    have hfirst : T.First (.all s.beforeMessage) line t := by
      rw [Trials.First,hrun]
      rfl
    have hopen : T.exec (startOf s.beforeMessage) line=some (matchOf line t) := exec_first hfirst fun h =>
      Bool.noConfusion h
    obtain ⟨hle,htake⟩ := Trials.mem_run.mp ⟨t.2,List.mem_of_mem_head? hfirst⟩
    have hrest : Paired (line.drop t.1) := by
      rw [← List.take_append_drop t.1 line] at hpaired
      exact (htidy.paired htake).of_append hpaired
    rw [hopen] at hstart
    rw [searchedOf,cellOf,hstart]
    simp only [Option.some.injEq,forall_eq']
    rw [Compilation.SameText]
    have hend : (matchOf line t).capturedEnd=t.1 := rfl
    rw [hend]
    by_cases hafter : []∈Pattern.language p pair (.all s.afterMessage)
    · obtain ⟨caps,hwhole⟩ : ∃caps,T.exec (wholeOf s.beforeMessage padded s.afterMessage) line=
          some (matchOf line (line.length,t.2++(shownOf padded (line.drop t.1)::caps))) :=
            whole_first hfirst hline hrest hafter
      have hcount : groupCount (.all s.beforeMessage)=t.2.length :=
        (Trials.caps_run (List.mem_of_mem_head? hfirst)).symm
      rw [hrecord,hwhole]
      simp only [hgroup,hcount,Nat.succ_pos,if_true,captured_message,hafter,not_true_eq_false,false_implies,
        and_true,true_implies,hpadded]
      cases padded with
      | false => exact iff_of_true rfl fun h => Bool.noConfusion h
      | true => exact (eq_comm.trans dropWhile_eq_self).trans ⟨fun h _ => h,fun h => h rfl⟩
    · simp only [hafter,false_implies,true_and,not_false_eq_true,true_implies]
      rw [hrecord]
      cases hm : T.exec (wholeOf s.beforeMessage padded s.afterMessage) line with
      | none => exact drop_eq_self hle
      | some m =>
        obtain ⟨i,tail,hpart,htail⟩ := whole_message hline hm
        rw [← hgroup] at hpart
        simp only [hgroup,Nat.succ_pos,if_true] at hpart ⊢
        constructor
        · intro heq
          exact ⟨i,tail,htail hafter,hpart,(part_eq_drop hpart (htail hafter) hle).mp heq⟩
        · rintro ⟨i,tail,htail,hpart,hsame⟩
          exact (part_eq_drop hpart htail hle).mpr hsame

end

/-- The text that is searched is the text of the Message cell exactly where the record's start is not found in
its first line or leaves the cell's text. -/
theorem message_cell {p : Platform} {pair : UInt16→UInt16→Bool} (T : Engine p pair) {pattern : Text}
    {f : CompiledFormat} {field : Field} (hc : PatternCompiler.compile p pattern=.ok f)
    (hfield : f.fields.find? (·.role=.message)=some field)
    (hruns : ∀s,compilePieces p pattern=.ok s→p.Backtracks T s.record ∧ p.Backtracks T s.recordStart) :
    ∃s,compilePieces p pattern=.ok s ∧ ∀(d : Document) (rec : Record),d.format=f.toLogFormat→d.decoder.Lined→
      (d.messageText rec=d.fieldCell rec field ↔ ∀start,f.recordStartRe.exec (d.recordFirstLine rec)=some start→
        s.SameText p pair f.toLogFormat field.group (d.recordFirstLine rec) start) := by
  obtain ⟨s,hs,-,hvalid,hrecord,hstart,hfields,hgroupOf⟩ := compile_parts hc
  rw [hfields] at hfield
  obtain ⟨hrunsRecord,hrunsStart⟩ := hruns s hs
  obtain ⟨padded,hwhole,hpadded,hrole,hgroup,hpos⟩ := around_message hs hfield
  have hexec : ∀line,f.recordRe.exec line=if Paired line then T.exec
    (wholeOf s.beforeMessage padded s.afterMessage) line else none := by
    intro line
    rw [hrecord,hrunsRecord.exec line,hwhole]
  have hexec' : ∀line,f.recordStartRe.exec line=if Paired line then T.exec
    (startOf s.beforeMessage) line else none := by
    intro line
    rw [hstart]
    exact hrunsStart.exec line
  have htidy : Pattern.Tidy (.all s.beforeMessage) := by
    have hsound : ∀piece∈s.pieces.takeWhile fun piece => !piece.isMessage,piece.Sound :=
      fun piece hpiece => (compilePieces_counted hs).sound piece ((List.takeWhile_sublist _).subset hpiece)
    have htext : Paired (Pattern.text s.recordStart.body) := by
      have hpaired := hrunsStart.paired hvalid
      rw [Expression.text,show s.recordStart.closed=false from rfl,if_neg Bool.false_ne_true,
        List.append_nil] at hpaired
      exact (paired_cons (u:=0x5E) (by decide)).mp hpaired
    exact Pattern.tidy_all.mpr (Pattern.tidy_readRow
      (Pattern.tidy_row (Pattern.tidy_text (shaped_pieces hsound) htext)))
  have hindex : 0 < f.msgGroup := lt_of_lt_of_eq hpos (hgroupOf .message).symm
  refine ⟨s,hs,fun d rec hformat hlined => ?_⟩
  have hfirst : 0x0A∉d.recordFirstLine rec := line_recordFirstLine hlined
  have hlines := searched_iff (hexec' _) (hexec _) hgroup hpadded hfirst htidy
  by_cases hbytes : d.recordBytes rec=[]
  · have hline : d.recordFirstLine rec=[] := by
      rw [Document.recordFirstLine,hbytes]
      rfl
    have hboth : d.messageText rec=[] ∧ d.fieldCell rec field=[] := by
      constructor
      · rw [Document.messageText,hbytes]
        rfl
      · rw [Document.fieldCell,hbytes]
        rfl
    rw [hline] at hlines ⊢
    refine iff_of_true (hboth.1.trans hboth.2.symm) (hlines.mp ?_)
    have hsearched : searchedOf f.toLogFormat []=[] := by
      rw [searchedOf]
      split
      · exact List.drop_nil
      · rfl
    rw [hsearched,cellOf,hexec,if_pos paired_nil]
    split
    · rename_i m hm
      obtain ⟨i,tail,hpart,-⟩ := whole_message List.not_mem_nil hm
      have hcaptured := (List.append_eq_nil_iff.mp (List.append_eq_nil_iff.mp hpart.symm).1).2
      rw [hgroup,hcaptured,ite_self]
    · rfl
  · rw [messageText_iff hbytes (by rw [hformat]; exact hindex) hrole,hformat]
    exact hlines

/-! ## `%m (%c)` and `%p %m` -/

/-- `^(.*)\s+\((\S+)\)$` of a line whose brackets hold no bracket. -/
def bracketedEnd (line : Text) : Option Match :=
  match line.reverse with
  | 0x29::rest =>
    let logger := rest.takeWhile fun c => c≠0x28 && !isAsciiSpace c
    match rest.drop logger.length with
    | 0x28::0x20::message =>
      if logger=[] then none
      else some ⟨fun i => if i=0 then line else if i=1 then message.reverse else if i=2 then
        logger.reverse else [],line.length⟩
    | _ => none
  | _ => none

/-- A platform whose engine knows the two expressions of `%m (%c)`. -/
def trailedPlatform : Platform :=
  {Platform.ascii with
   compile := fun text _ => ⟨text,true,0,if text=latin1 "^" then fun _ => some ⟨fun _ => [],0⟩ else bracketedEnd⟩}

/-- A log of one line. -/
def trailedLog (f : CompiledFormat) : Document :=
  (Document.make trailedPlatform f.toLogFormat .latin1 (.fixed 0)).rescan (ascii "hello (a.b.c)")

/-- A field behind the message is searched with it and shown without it. -/
theorem message_cell_trailed :
    ((PatternCompiler.compile trailedPlatform (latin1 "%m (%c)%n")).toOption.bind fun f =>
      (f.fields.find? (·.role=.message)).map fun field =>
        ((trailedLog f).index.records.length,(trailedLog f).messageText ((trailedLog f).recordAt 0),
          (trailedLog f).fieldCell ((trailedLog f).recordAt 0) field))=
      some (1,latin1 "hello (a.b.c)",latin1 "hello") := by
  decide +kernel

/-- What `%p %m` compiles to. -/
def levelledPieces : Compilation :=
  ⟨[makeFieldPiece (.rep (.cls .notSpace) .plus) .priority false false,
    ⟨compileLiteral [0x20],false,.message,false,[]⟩,
    makeFieldPiece (.rep (.cls .any) .star) .message false true],[],2,
      {LogFormat.empty with prioGroup := 1,msgGroup := 2}⟩

noncomputable def asciiEngine : Engine Platform.ascii fun _ _ => false := Trials.exhaustive _

/-- A platform whose engine tries the two expressions of `%p %m`. -/
noncomputable def levelledPlatform : Platform :=
  {Platform.ascii with
   compile := fun text _ => ⟨text,true,0,fun line =>
    if Paired line then
      if text=levelledPieces.record.text then asciiEngine.exec levelledPieces.record.asRead line
      else asciiEngine.exec levelledPieces.recordStart.asRead line
    else none⟩}

noncomputable def levelledEngine : Engine levelledPlatform fun _ _ => false := asciiEngine

private theorem latin1_lined : Decoder.latin1.Lined := by
  intro content hnone hmem
  have hbytes : ∀bytes,Decoder.byteLineEnd bytes=none→0x0A∉bytes := by
    intro bytes h
    induction bytes with
    | nil => exact List.not_mem_nil
    | cons b bytes ih =>
      rw [Decoder.byteLineEnd] at h
      split at h
      · cases h
      · rename_i hb
        rw [List.mem_cons,not_or]
        exact ⟨fun heq => hb heq.symm,ih (Option.map_eq_none_iff.mp h)⟩
  obtain ⟨b,hb,heq⟩ := List.mem_map.mp hmem
  have hbyte : b=0x0A := by
    apply UInt8.toNat_inj.mp
    have hnat := congrArg UInt16.toNat heq
    rwa [UInt8.toNat_toUInt16] at hnat
  exact hbytes content hnone (hbyte ▸ hb)

theorem levelled_pieces : compilePieces levelledPlatform (latin1 "%p %m%n")=.ok levelledPieces := by rfl

private theorem levelled_backtracks : ∀s,compilePieces levelledPlatform (latin1 "%p %m%n")=.ok s→
    levelledPlatform.Backtracks levelledEngine s.record ∧
    levelledPlatform.Backtracks levelledEngine s.recordStart := by
  have htext : levelledPieces.recordStart.text≠levelledPieces.record.text := by decide +kernel
  rw [levelled_pieces]
  rintro s ⟨⟩
  have hpaired : Paired levelledPieces.record.text ∧ Paired levelledPieces.recordStart.text := by decide +kernel
  constructor
  · refine ⟨fun _ => hpaired.1,fun line => ?_⟩
    show (if Paired line then if levelledPieces.record.text=levelledPieces.record.text then _ else _ else none)=_
    rw [if_pos (rfl : levelledPieces.record.text=_)]
    rfl
  · refine ⟨fun _ => hpaired.2,fun line => ?_⟩
    show (if Paired line then if levelledPieces.recordStart.text=levelledPieces.record.text then
      _ else _ else none)=_
    rw [if_neg htext]
    rfl

/-- A log of one record of `%p %m`. -/
noncomputable def levelledLog (f : CompiledFormat) : Document :=
  (Document.make levelledPlatform f.toLogFormat .latin1 (.fixed 0)).rescan (ascii "INFO a (b)")

theorem message_cell_levelled :
    ∃f field,PatternCompiler.compile levelledPlatform (latin1 "%p %m%n")=.ok f ∧
      f.fields.find? (·.role=.message)=some field ∧
      (levelledLog f).messageText ⟨0,0,10,0,0,1,default⟩=(levelledLog f).fieldCell
      ⟨0,0,10,0,0,1,default⟩ field := by
  obtain ⟨f,hf⟩ : ∃f,PatternCompiler.compile levelledPlatform (latin1 "%p %m%n")=.ok f := by
    unfold PatternCompiler.compile
    rw [levelled_pieces]
    exact ⟨_,rfl⟩
  have hfields : f.fields=levelledPieces.fields := by
    obtain ⟨s,hs,-,-,-,-,hfields,-⟩ := compile_parts hf
    rw [levelled_pieces] at hs
    rw [hfields,← Except.ok.inj hs]
  have hfield : f.fields.find? (·.role=.message)=some ⟨.message,latin1 "Message",2⟩ := by
    rw [hfields]
    rfl
  refine ⟨f,_,hf,hfield,?_⟩
  obtain ⟨s,hs,hsame⟩ := message_cell levelledEngine hf hfield levelled_backtracks
  rw [levelled_pieces] at hs
  obtain rfl := Except.ok.inj hs
  refine (hsame (levelledLog f) _ rfl latin1_lined).mpr fun start _ => ⟨fun _ => ?_,fun hafter => absurd rfl hafter⟩
  rintro ⟨piece,hpiece,hpadded⟩
  obtain rfl := Option.some.inj hpiece
  cases hpadded

end Loftail
