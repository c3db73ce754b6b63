import Loftail.PatternCompiler
import Loftail.RegexGroups

/-! # The groups of a compiled pattern are its fields -/
namespace Loftail
open RegularLanguage QString

namespace Pattern
section
variable {r a b : Pattern} {rs : List Pattern} {q : Quantifier}

/-- Text that no parenthesis before it would read as an option. -/
def Starts (r : Pattern) : Prop := ∃u t,text r=u::t ∧ u≠0x3F ∧ u≠0x2A

theorem Starts.seq (h : Starts a) : Starts (.seq a b) := by
  obtain ⟨u,t,ht,hu⟩ := h
  exact ⟨u,t++text b,by rw [text,ht,List.cons_append],hu⟩

theorem Starts.rep (h : Starts r) : Starts (.rep r q) := by
  obtain ⟨u,t,ht,hu⟩ := h
  exact ⟨u,t++quantifierText q,by rw [text,ht,List.cons_append],hu⟩

private theorem starts_plain (r : Pattern) : Starts (.plain r) := ⟨0x28,_,rfl,by decide,by decide⟩

theorem starts_escaped (u : UInt16) (s : Text) : Starts (.cls (.escaped (u::s))) := by
  obtain ⟨t,ht | ⟨hplain,ht⟩⟩ := escape_head u s
  · exact ⟨_,_,ht,by decide,by decide⟩
  · have hsigns : isPlain 0x3F=false ∧ isPlain 0x2A=false := by decide
    refine ⟨_,_,ht,?_,?_⟩
    · rintro rfl
      exact Bool.false_ne_true (hsigns.1.symm.trans hplain)
    · rintro rfl
      exact Bool.false_ne_true (hsigns.2.symm.trans hplain)

theorem shaped_all (h : ∀r∈rs,Shaped r) : Shaped (.all rs) := by
  induction rs with
  | nil => trivial
  | cons r rs ih => exact ⟨h r List.mem_cons_self,ih fun r hr => h r (List.mem_cons_of_mem _ hr)⟩

theorem groups_all (h : ∀r∈rs,groups r=0) : groups (.all rs)=0 := by
  induction rs with
  | nil => rfl
  | cons r rs ih =>
    show groups r+groups (.all rs)=0
    rw [h r List.mem_cons_self,ih fun r hr => h r (List.mem_cons_of_mem _ hr)]

theorem text_all (rs : List Pattern) : text (.all rs)=(rs.map text).flatten := by
  induction rs with
  | nil => rfl
  | cons r rs ih =>
    rw [List.map_cons,List.flatten_cons,← ih]
    rfl

end
end Pattern

/-! ### Dates -/

section
variable {item : DateItem} {items : List DateItem} {isLetter : UInt16→Bool} {fmt : Text}
  {following code : UInt16} {offset : ℤ}
  {dot : Bool}

/-- A fragment that opens no group, and none by what stands before it. -/
structure DateItem.Inert (item : DateItem) : Prop where
  shaped : Pattern.Shaped item.regex
  groups : Pattern.groups item.regex=0
  starts : Pattern.Starts item.regex

theorem starts_cls {k : CharClass} {u : UInt16} {t : Text} (h : k.text=u::t) (hu : u≠0x3F ∧ u≠0x2A) :
    Pattern.Starts (.cls k) := ⟨u,t,h,hu⟩

private theorem inert_numeric (kind : DateTokenKind) (digits : ℕ) (spacePadded : Bool) (qt : String) :
    (DateItem.numeric kind digits spacePadded qt).Inert := by
  cases spacePadded with
  | false => exact ⟨trivial,rfl,.rep (starts_cls rfl (by decide))⟩
  | true => exact ⟨⟨trivial,trivial⟩,rfl,.seq (starts_cls rfl (by decide))⟩

private theorem inert_name (kind : DateTokenKind) (qt : String) (dot : Bool) :
    (DateItem.name kind qt dot).Inert := by
  cases dot with
  | false => exact ⟨⟨trivial,trivial⟩,rfl,.seq (.rep (starts_cls rfl (by decide)))⟩
  | true => exact ⟨trivial,rfl,.rep (starts_cls rfl (by decide))⟩

theorem inert_meridiem {first : CharClass} {second : String} (hfirst : Pattern.Starts (.cls first))
    (hshaped : Pattern.Shaped (.cls first)) (hsecond : ∀c∈latin1 second,isPlain c=true) (qt : String) (dot : Bool) :
    (DateItem.meridiem first second qt dot).Inert :=
  ⟨⟨hshaped,fun c hc => .inl (hsecond c hc)⟩,rfl,.seq hfirst⟩

private theorem inert_digits (n : ℕ) (qt : Text) (token : DateToken) : DateItem.Inert ⟨Pattern.digits n,qt,token⟩ :=
  ⟨trivial,rfl,.rep (starts_cls rfl (by decide))⟩

private theorem inert_millisFrac : DateItem.millisFrac.Inert :=
  ⟨⟨trivial,⟨trivial,trivial⟩,trivial⟩,rfl,.seq (.rep (starts_cls rfl (by decide)))⟩

private theorem inert_epochSeconds : DateItem.epochSeconds.Inert := ⟨trivial,rfl,.rep (starts_cls rfl (by decide))⟩

private theorem inert_utcOffset : DateItem.utcOffset.Inert := by
  have hcolon : Pattern.Shaped (.cls (.verbatim (latin1 ":"))) := fun c hc => .inr (by simpa [latin1] using hc)
  have hzulu : Pattern.Shaped (.cls (.verbatim (latin1 "Z"))) := by
    intro c hc
    obtain rfl : c=0x5A := by simpa [latin1] using hc
    exact .inl (by decide)
  exact ⟨⟨⟨trivial,trivial,hcolon,trivial⟩,hzulu⟩,rfl,Pattern.starts_plain _⟩

private theorem inert_zoneName (dot : Bool) : (DateItem.zoneName dot).Inert :=
  ⟨⟨trivial,trivial⟩,rfl,.seq (starts_cls rfl (by decide))⟩

theorem inert_skipDigit : DateItem.skipDigit.Inert := ⟨trivial,rfl,starts_cls rfl (by decide)⟩

private theorem inert_tab : DateItem.tab.Inert := ⟨trivial,rfl,starts_cls rfl (by decide)⟩

private theorem inert_percent : DateItem.percent.Inert := ⟨trivial,rfl,Pattern.starts_escaped 0x25 []⟩

private theorem inert_literal (isLetter : UInt16→Bool) (c : UInt16) : (DateItem.literal isLetter c).Inert :=
  ⟨trivial,rfl,Pattern.starts_escaped c []⟩

/-- No code of a date adds a group. -/
theorem inert_code (h : dateCode code dot=some item) : item.Inert := by
  have hletters : ∀c : UInt16,c=0x4D ∨ c=0x6D → isPlain c=true := by
    rintro c (rfl | rfl) <;> decide
  have hupper : ∀c∈latin1 "M",isPlain c=true := fun c hc => hletters c (.inl (by simpa [latin1] using hc))
  have hlower : ∀c∈latin1 "m",isPlain c=true := fun c hc => hletters c (.inr (by simpa [latin1] using hc))
  have htable : ∀x∈dateTable dot,x.2.Inert := by
    simp only [dateTable,List.forall_mem_cons]
    refine ⟨?Y,?y,?m,?d,?e,?b,?h,?B,?a,?A,?H,?k,?I,?l,?M,?S,?p,?P,?q,inert_millisFrac,inert_epochSeconds,
      inert_utcOffset,
      inert_zoneName _,?j,?C,?g,?U,?V,?W,?G,inert_skipDigit,inert_skipDigit,inert_tab,inert_percent,by simp⟩
    case b | h | B | a | A => exact inert_name ..
    case p => exact inert_meridiem (starts_cls rfl (by decide)) (by trivial) hupper _ _
    case P => exact inert_meridiem (starts_cls rfl (by decide)) (by trivial) hlower _ _
    case q | j | C | g | U | V | W | G => exact inert_digits ..
    all_goals exact inert_numeric ..
  exact htable _ (dateCode_mem h)

/-- A date is no group but the one around it. -/
theorem date_inert {t : DateTranslation} (h : translateDateFormat isLetter fmt offset=.ok t) :
    Pattern.Shaped t.regex ∧ Pattern.groups t.regex=0 ∧ t.regex.text.head?≠some 0x3F ∧
    t.regex.text.head?≠some 0x2A := by
  have hall := translateDateFormat_all (inert_literal isLetter) (fun _ _ _ => inert_code) h
  refine ⟨Pattern.shaped_all ?_,?_,?_⟩
  · intro r hr
    obtain ⟨item,hitem,rfl⟩ := List.mem_map.mp hr
    exact (hall item hitem).shaped
  · apply Pattern.groups_all
    intro r hr
    obtain ⟨item,hitem,rfl⟩ := List.mem_map.mp hr
    exact (hall item hitem).groups
  · rw [DateTranslation.regex,Pattern.text_all]
    cases hitems : t.items with
    | nil => simp
    | cons item items =>
      obtain ⟨u,t,ht,hu⟩ := (hall item (hitems▸List.mem_cons_self)).starts
      simp [ht,hu]

end

/-! ### Pieces -/

section
variable {piece : Piece} {pieces : List Piece} {base : Pattern} {role : FieldRole} {hasMinWidth isMessage : Bool}
  {p : Platform} {s s' : Compilation} {spec : UInt16} {rest after left : Text} {j : ℤ}

/-- A field is one group, with white space at most around it; anything else is none. -/
structure Piece.Sound (piece : Piece) : Prop where
  shaped : Pattern.Shaped piece.regex
  groups : Pattern.groups piece.regex=if piece.isField then 1 else 0
  message : piece.isMessage=(piece.isField && piece.role=.message)
  field : piece.isField=true → ∃base padding,piece.regex.text=padding++latin1 "("++base.text++latin1 ")"++padding ∧
    Pattern.Shaped base ∧ Pattern.groups base=0 ∧ Opens 0 padding ∧ Whole padding

private theorem literal_sound (text : Text) : Piece.Sound ⟨compileLiteral text,false,.message,false,[]⟩ := by
  have hrun : ∀r∈(text.splitBy fun a b => isSpace a==isSpace b).map fun run =>
      if run.any isSpace then Re.rep (.cls CharClass.space) .plus else .cls (.escaped run),
      Pattern.Shaped r ∧ Pattern.groups r=0 := by
    intro r hr
    obtain ⟨run,-,rfl⟩ := List.mem_map.mp hr
    split
    · exact ⟨trivial,rfl⟩
    · exact ⟨trivial,rfl⟩
  exact ⟨Pattern.shaped_all fun r hr => (hrun r hr).1,Pattern.groups_all fun r hr => (hrun r hr).2,rfl,
    fun h => nomatch h⟩

theorem field_sound (hshaped : Pattern.Shaped base) (hgroups : Pattern.groups base=0)
    (hhead : base.text.head?≠some 0x3F ∧ base.text.head?≠some 0x2A) (hmessage : isMessage=decide (role=.message)) :
    (makeFieldPiece base role hasMinWidth isMessage).Sound := by
  have hspace : Opens 0 (latin1 "\\s*") := fun _ => rfl
  have hwhole : Whole (latin1 "\\s*") := by
    rintro u ⟨⟩
    decide
  cases hasMinWidth with
  | false =>
    refine ⟨⟨hshaped,hhead⟩,by simp [makeFieldPiece,Pattern.groups,hgroups],by simp [makeFieldPiece,hmessage],
    fun _ => ?_⟩
    exact ⟨base,[],by simp [makeFieldPiece,Pattern.text],hshaped,hgroups,fun _ => rfl,fun u hu => nomatch hu⟩
  | true =>
    refine ⟨⟨trivial,⟨hshaped,hhead⟩,trivial⟩,by simp [makeFieldPiece,Pattern.groups,hgroups],
      by simp [makeFieldPiece,hmessage],fun _ => ?_⟩
    refine ⟨base,latin1 "\\s*",?_,hshaped,hgroups,hspace,hwhole⟩
    have hpadding : Pattern.text (.rep (.cls .space) .star)=latin1 "\\s*" := by decide
    simp only [makeFieldPiece,if_true,Pattern.text] at hpadding ⊢
    rw [hpadding]
    simp

theorem Piece.Sound.named (h : piece.Sound) (name : Text) : Piece.Sound {piece with name} :=
  ⟨h.shaped,h.groups,h.message,h.field⟩

/-- A base that opens no group, and none by what stands before it. -/
def Pattern.Calm (base : Pattern) : Prop :=
  Pattern.Shaped base ∧ Pattern.groups base=0 ∧ base.text.head?≠some 0x3F ∧ base.text.head?≠some 0x2A

/-- Every field but a date is one run of a class. -/
theorem fieldOf_calm {found : Pattern×FieldRole×Bool} (h : fieldOf spec=some found) :
    Pattern.Calm found.1 ∧ found.2.1≠.date := by
  have hword : Pattern.Calm (.rep (.cls .notSpace) .plus) := ⟨trivial,rfl,by decide⟩
  have hnumber : Pattern.Calm (.rep (.cls .digit) .plus) := ⟨trivial,rfl,by decide⟩
  have hfree : Pattern.Calm kFreeText := ⟨trivial,rfl,by decide⟩
  have hmessage : Pattern.Calm (.rep (.cls .any) .star) := ⟨trivial,rfl,by decide⟩
  have htable : ∀x∈fieldTable,Pattern.Calm x.2.1 ∧ x.2.2.1≠.date := by
    simp only [fieldTable,List.forall_mem_cons]
    exact ⟨⟨hword,by decide⟩,⟨hword,by decide⟩,⟨hword,by decide⟩,⟨hword,by decide⟩,⟨hword,by decide⟩,
      ⟨hword,by decide⟩,
      ⟨hnumber,by decide⟩,⟨hword,by decide⟩,⟨hword,by decide⟩,⟨hnumber,by decide⟩,⟨hnumber,by decide⟩,
        ⟨hword,by decide⟩,
      ⟨hword,by decide⟩,⟨hfree,by decide⟩,⟨hfree,by decide⟩,⟨hfree,by decide⟩,⟨hmessage,by decide⟩,by simp⟩
  exact htable _ (fieldOf_mem h)

/-! ### The loop -/

/-- The roles that the format has an index for. -/
def indexedRoles : List FieldRole := [.date,.priority,.logger,.thread,.message]

/-- The index of a role, -1 where the pattern has no such field. -/
def LogFormat.groupOf (f : LogFormat) : FieldRole→ℤ
  | .date => f.dateGroup
  | .priority => f.prioGroup
  | .logger => f.loggerGroup
  | .thread => f.threadGroup
  | .message => f.msgGroup
  | _ => -1

private theorem groupOf_setGroup (f : LogFormat) {role role' : FieldRole} (group : ℤ) (h : role'∈indexedRoles) :
    (f.setGroup role group).groupOf role'=if role=role' then group else f.groupOf role' := by
  cases role' <;> first | (cases role <;> rfl) | exact absurd h (by decide)

/-- An index that names the place of its role, counted from 1, and is -1 where there is none. -/
def Names (index : ℤ) (role : FieldRole) (roles : List FieldRole) : Prop :=
  index=-1 ∧ role∉roles ∨ ∃i : ℕ,roles[i]?=some role ∧ index=i+1

def Compilation.fieldRoles (s : Compilation) : List FieldRole := (s.pieces.filter Piece.isField).map Piece.role

/-- Every piece is sound, the counter counts the fields, and every index names the field it is for. -/
structure Compilation.Counted (s : Compilation) : Prop where
  sound : ∀piece∈s.pieces,piece.Sound
  counter : s.groupCounter=s.fieldRoles.length
  names : ∀role∈indexedRoles,Names (s.format.groupOf role) role s.fieldRoles

private theorem start_counted : Compilation.start.Counted := by
  refine ⟨fun _ h => (nomatch h),rfl,fun role hrole => .inl ⟨?_,fun h => (nomatch h)⟩⟩
  cases role <;> rfl

theorem Compilation.Counted.flushLiteral (h : s.Counted) : s.flushLiteral.Counted := by
  rw [Compilation.flushLiteral]
  split
  case isTrue => exact h
  case isFalse =>
    have hroles : Compilation.fieldRoles ⟨s.pieces++[⟨compileLiteral s.literalBuf,false,.message,false,[]⟩],
      [],s.groupCounter,s.format⟩=s.fieldRoles := by simp [Compilation.fieldRoles]
    refine ⟨?_,h.counter.trans (congrArg List.length hroles.symm),fun role hrole => hroles▸h.names role hrole⟩
    intro piece hpiece
    rcases List.mem_append.mp hpiece with hpiece | hpiece
    · exact h.sound piece hpiece
    · obtain rfl := List.mem_singleton.mp hpiece
      exact literal_sound s.literalBuf

theorem Names.append {index : ℤ} {role role' : FieldRole} {roles : List FieldRole} (h : Names index role roles)
    (hne : role'≠role) : Names index role (roles++[role']) := by
  rcases h with ⟨hindex,hrole⟩ | ⟨i,hi,hindex⟩
  · exact .inl ⟨hindex,by simp [hrole,hne.symm]⟩
  · have hlt := (List.getElem?_eq_some_iff.mp hi).1
    exact .inr ⟨i,by rw [List.getElem?_append_left hlt,hi],hindex⟩

theorem Compilation.Counted.append (h : s.Counted) (hpiece : piece.Sound) (hfield : piece.isField=true) :
    (s.append piece).Counted := by
  have hroles : (s.append piece).fieldRoles=s.fieldRoles++[piece.role] := by
    simp [Compilation.fieldRoles,Compilation.append,hfield]
  refine ⟨?_,?_,?_⟩
  · intro other hother
    rcases List.mem_append.mp hother with hother | hother
    · exact h.sound other hother
    · obtain rfl := List.mem_singleton.mp hother
      exact hpiece
  · rw [hroles,List.length_append,← h.counter]
    rfl
  · intro role hrole
    rw [hroles]
    show Names ((s.format.setGroup piece.role (s.groupCounter+1)).groupOf role) role _
    rw [groupOf_setGroup _ _ hrole]
    split
    case isTrue hsame =>
      refine .inr ⟨s.fieldRoles.length,?_,by rw [h.counter]⟩
      rw [List.getElem?_append_right (Nat.le_refl _),Nat.sub_self,hsame]
      rfl
    case isFalse hother => exact (h.names role hrole).append hother

theorem Compilation.Counted.date (h : s.Counted) (dates : DateFormat) (zone : TimeSpec) :
    Compilation.Counted {s with format := {s.format with impliedDateFormat := dates,impliedZone := zone}} := by
  refine ⟨h.sound,h.counter,fun role hrole => ?_⟩
  have hnames := h.names role hrole
  cases role <;> exact hnames

theorem Compilation.Counted.literal (h : s.Counted) (text : Text) : Compilation.Counted
    {s with literalBuf := text} :=
  ⟨h.sound,h.counter,h.names⟩

theorem Compilation.Counted.simple (h : s.Counted) (hcalm : Pattern.Calm base) (name : Text) :
    (s.emitSimpleField base role hasMinWidth name).Counted := by
  refine h.flushLiteral.append (Piece.Sound.named (field_sound hcalm.1 hcalm.2.1 hcalm.2.2 ?_) name) ?_
  · rfl
  · rw [makeFieldPiece]

/-- One conversion is a literal, nothing at all, or the next group. -/
theorem convert_counted (h : s.Counted) (hc : convert p s hasMinWidth spec after j=.ok (s',left)) : s'.Counted := by
  rw [convert] at hc
  split at hc
  case isTrue =>
    obtain ⟨rfl,-⟩ := Prod.mk.inj (Except.ok.inj hc)
    exact h.literal _
  case isFalse =>
    split at hc
    case isTrue =>
      split at hc
      case h_1 => cases hc
      case h_2 =>
        obtain ⟨t,ht,hc⟩ := bind_ok hc
        obtain ⟨rfl,-⟩ := Prod.mk.inj (Except.ok.inj hc)
        obtain ⟨hshaped,hgroups,hhead⟩ := date_inert ht
        refine Compilation.Counted.date (h.flushLiteral.append (field_sound hshaped hgroups hhead ?_) ?_) _ _
        · decide
        · rw [makeFieldPiece]
    case isFalse =>
      split at hc
      case isTrue =>
        obtain ⟨rfl,-⟩ := Prod.mk.inj (Except.ok.inj hc)
        exact h.flushLiteral
      case isFalse =>
        split at hc
        case h_1 => cases hc
        case h_2 hfound =>
          obtain ⟨rfl,-⟩ := Prod.mk.inj (Except.ok.inj hc)
          exact h.simple (fieldOf_calm hfound).1 _
        case h_3 hfound =>
          split at hc
          case h_1 => cases hc
          case h_2 =>
            obtain ⟨rfl,-⟩ := Prod.mk.inj (Except.ok.inj hc)
            exact h.simple (fieldOf_calm hfound).1 _

private theorem conversion_counted (h : s.Counted) (hc : conversion p s rest j=.ok (s',left)) : s'.Counted := by
  rw [conversion] at hc
  split at hc
  case isTrue => cases hc
  case isFalse =>
    split at hc
    case h_1 => cases hc
    case h_2 => exact convert_counted h hc

/-- The loop keeps the count. -/
theorem compileLoop_counted (h : s.Counted) {text : Text} {skip : ℕ} {i : ℤ}
    (hc : compileLoop p text skip i s=.ok s') : s'.Counted := by
  induction text generalizing skip i s with
  | nil =>
    cases skip <;>
    · obtain rfl := Except.ok.inj hc
      exact h
  | cons ch rest ih =>
    cases skip with
    | succ skip => exact ih h hc
    | zero =>
      rw [compileLoop] at hc
      split at hc
      case isTrue => exact ih (h.literal _) hc
      case isFalse =>
        obtain ⟨⟨later,left⟩,hconversion,hc⟩ := bind_ok hc
        exact ih (conversion_counted h hconversion) hc

theorem compilePieces_counted {pattern : Text} (hc : compilePieces p pattern=.ok s) : s.Counted := by
  rw [compilePieces] at hc
  split at hc
  case isTrue => cases hc
  case isFalse =>
    cases hloop : compileLoop p pattern 0 0 .start with
    | error e =>
      rw [hloop] at hc
      cases hc
    | ok last =>
      rw [hloop] at hc
      obtain rfl := Except.ok.inj hc
      exact (compileLoop_counted start_counted hloop).flushLiteral

end

/-! ### The compiled pattern -/

/-- What the engine promises of one text: it keeps its pattern, an unpaired surrogate makes it invalid, and a
valid pattern has the groups that its text opens. -/
structure Platform.CountsGroups (p : Platform) (text : Text) : Prop where
  pattern (c : CaseSensitivity) : (p.compile text c).pattern=text
  unpaired {c : CaseSensitivity} : holdsUnpaired text=true → (p.compile text c).isValid=false
  counts {c : CaseSensitivity} {n : ℕ} : (p.compile text c).isValid=true → capturingGroups text=some n →
    (p.compile text c).captureCount=n

/-- The same of the two texts that a conversion pattern is compiled to, and of no other. -/
def Platform.CountsCompiled (p : Platform) (pattern : Text) : Prop :=
  ∀{s : Compilation},compilePieces p pattern=.ok s → p.CountsGroups s.record.text ∧
    p.CountsGroups s.recordStart.text

/-- The groups of a format are its fields, in order: the field at `i` is the group that opens as the one after
`i` others. -/
structure CompiledFormat.Numbered (f : CompiledFormat) : Prop where
  count : f.recordRe.captureCount=f.fields.length
  group {i : ℕ} {field : Field} : f.fields[i]?=some field → field.group=i+1 ∧
    ∃before inside after,f.recordRe.pattern=before++latin1 "("++inside++latin1 ")"++after ∧
      capturingGroups before=some i ∧ capturingGroups inside=some 0
  index {role : FieldRole} : role∈indexedRoles → f.groupOf role=-1 ∧ (∀field∈f.fields,field.role≠role) ∨
    ∃field∈f.fields,field.role=role ∧ f.groupOf role=field.group
  start : f.recordStartRe.captureCount=(f.fields.takeWhile fun field => field.role≠.message).length
  start_first : ∃later,f.recordRe.pattern=f.recordStartRe.pattern++later

section
variable {pieces : List Piece} {piece : Piece} {p : Platform} {s : Compilation} {e : Expression} {i : ℕ}

/-- A pattern that the engine accepts has no half of a pair in it. -/
theorem Platform.CountsGroups.paired {text : Text} {c : CaseSensitivity} (hp : p.CountsGroups text)
    (hvalid : (p.compile text c).isValid=true) : Paired text := by
  rw [Paired,← Bool.not_eq_true]
  exact fun hlone => Bool.false_ne_true ((hp.unpaired hlone).symm.trans hvalid)

theorem groups_pieces (h : ∀piece∈pieces,piece.Sound) :
    Pattern.groups (.all (pieces.map Piece.regex))=(pieces.filter Piece.isField).length := by
  induction pieces with
  | nil => rfl
  | cons piece pieces ih =>
    show Pattern.groups piece.regex+Pattern.groups (.all (pieces.map Piece.regex))=_
    rw [(h piece List.mem_cons_self).groups,ih fun other hother => h other (List.mem_cons_of_mem _ hother),
      List.filter_cons]
    split
    · rw [List.length_cons,Nat.add_comm]
    · rw [Nat.zero_add]

theorem shaped_pieces (h : ∀piece∈pieces,piece.Sound) : Pattern.Shaped (.all (pieces.map Piece.regex)) := by
  apply Pattern.shaped_all
  intro r hr
  obtain ⟨piece,hpiece,rfl⟩ := List.mem_map.mp hr
  exact (h piece hpiece).shaped

theorem whole_sign {u : UInt16} (h : isLowSurrogate u=false) : Whole [u] := by
  rintro v ⟨⟩
  exact h

/-- The anchors of an expression open nothing. -/
theorem opens_expression (hshaped : Pattern.Shaped e.body) (hp : Paired e.text) :
    Paired e.body.text ∧ Opens (Pattern.groups e.body) e.text := by
  have hstart : Opens 0 [0x5E] := opens_unit (by decide)
  have hend : Opens 0 (if e.closed then [0x24] else []) := by
    split
    · exact opens_unit (by decide)
    · exact fun _ => rfl
  have hwhole : Whole (if e.closed then [0x24] else []) := by
    split
    · exact whole_sign (by decide)
    · exact fun u hu => nomatch hu
  have hshape : e.text=([0x5E]++e.body.text)++if e.closed then [0x24] else [] := rfl
  rw [hshape] at hp ⊢
  have hbody := ((paired_append (Pattern.whole_text hshaped)).mp ((paired_append hwhole).mp hp).1).2
  have hall := (hstart.append (Pattern.opens_text hshaped hbody)).append hend
  rw [Nat.zero_add,Nat.add_zero] at hall
  exact ⟨hbody,hall⟩

/-- The field at `i` has `i` fields before it. -/
theorem field_split (h : (pieces.filter Piece.isField)[i]?=some piece) :
    ∃l r,pieces=l++piece::r ∧ (l.filter Piece.isField).length=i ∧ piece.isField=true := by
  induction pieces generalizing i with
  | nil => simp at h
  | cons other pieces ih =>
    rw [List.filter_cons] at h
    split at h
    case isTrue hfield =>
      cases i with
      | zero =>
        obtain rfl := Option.some.inj h
        exact ⟨[],pieces,rfl,rfl,hfield⟩
      | succ i =>
        obtain ⟨l,r,rfl,hlen,hpiece⟩ := ih h
        exact ⟨other::l,r,rfl,by rw [List.filter_cons,if_pos hfield,List.length_cons,hlen],hpiece⟩
    case isFalse hfield =>
      obtain ⟨l,r,rfl,hlen,hpiece⟩ := ih h
      exact ⟨other::l,r,rfl,by rw [List.filter_cons,if_neg hfield,hlen],hpiece⟩

theorem text_pieces (l r : List Piece) (piece : Piece) : Pattern.text (.all ((l++piece::r).map Piece.regex))=
    Pattern.text (.all (l.map Piece.regex))++(piece.regex.text++Pattern.text (.all (r.map Piece.regex))) := by
  simp only [Pattern.text_all,List.map_append,List.map_cons,List.flatten_append,List.flatten_cons]

/-- A piece has its own groups and no others. -/
theorem piece_groups (hsound : ∀piece∈pieces,piece.Sound)
    (hp : Paired (Pattern.text (.all (pieces.map Piece.regex))))
    (hpiece : piece∈pieces) : capturingGroups piece.regex.text=some (if piece.isField then 1 else 0) := by
  obtain ⟨l,r,rfl⟩ := List.append_of_mem hpiece
  have hthis := hsound piece hpiece
  have hr := shaped_pieces fun other hother =>
    hsound other (List.mem_append_right _ (List.mem_cons_of_mem _ hother))
  rw [text_pieces] at hp
  have hwhole := whole_append (Pattern.whole_text hthis.shaped) (Pattern.whole_text hr)
  have hpaired := ((paired_append (Pattern.whole_text hr)).mp ((paired_append hwhole).mp hp).2).1
  rw [(Pattern.opens_text hthis.shaped hpaired).capturing,hthis.groups]

/-- Where the group of a field opens. -/
theorem field_group (hsound : ∀piece∈s.pieces,piece.Sound) (hp : Paired s.record.text)
    (h : (s.pieces.filter Piece.isField)[i]?=some piece) :
    ∃before inside after,s.record.text=before++latin1 "("++inside++latin1 ")"++after ∧
    capturingGroups before=some i ∧
      capturingGroups inside=some 0 := by
  obtain ⟨l,r,hpieces,hlen,hfield⟩ := field_split h
  have hpiece : piece∈s.pieces := by simp [hpieces]
  have hl : ∀other∈l,other.Sound := fun other hother => hsound other (by simp [hpieces,hother])
  have hr : ∀other∈r,other.Sound := fun other hother => hsound other (by simp [hpieces,hother])
  have hthis := hsound piece hpiece
  obtain ⟨base,padding,htext,hshaped,hgroups,hopens,hwhole⟩ := hthis.field hfield
  have hbody : Pattern.text (.all (s.pieces.map Piece.regex))=
      Pattern.text (.all (l.map Piece.regex))++(piece.regex.text++Pattern.text (.all (r.map Piece.regex))) := by
    rw [hpieces,text_pieces]
  have hpaired : Paired (Pattern.text (.all (s.pieces.map Piece.regex))) :=
    (opens_expression (e:=s.record) (shaped_pieces hsound) hp).1
  have hrest := whole_append (Pattern.whole_text hthis.shaped) (Pattern.whole_text (shaped_pieces hr))
  rw [hbody] at hpaired
  obtain ⟨hpl,hpr⟩ := (paired_append hrest).mp hpaired
  have hpiecePaired := ((paired_append (Pattern.whole_text (shaped_pieces hr))).mp hpr).1
  have hparen : Whole (latin1 ")") := whole_sign (by decide)
  rw [htext] at hpiecePaired
  have hinside := ((paired_append (Pattern.whole_text hshaped)).mp
    ((paired_append hparen).mp ((paired_append hwhole).mp hpiecePaired).1).1).2
  have hstart : Opens 0 [0x5E] := opens_unit (by decide)
  have hbefore := (hstart.append (Pattern.opens_text (shaped_pieces hl) hpl)).append hopens
  rw [groups_pieces hl,hlen,Nat.zero_add,Nat.add_zero] at hbefore
  refine ⟨[0x5E]++Pattern.text (.all (l.map Piece.regex))++padding,base.text,
    padding++Pattern.text (.all (r.map Piece.regex))++[0x24],?_,hbefore.capturing,?_⟩
  · have hshape : s.record.text=[0x5E]++Pattern.text (.all (s.pieces.map Piece.regex))++[0x24] := rfl
    rw [hshape,hbody,htext]
    simp only [List.append_assoc]
  · rw [(Pattern.opens_text hshaped hinside).capturing,hgroups]

/-- The fields before the first message. -/
theorem fields_before (h : ∀piece∈pieces,piece.Sound) :
    ((pieces.takeWhile fun piece => !piece.isMessage).filter Piece.isField).map Piece.role=
      ((pieces.filter Piece.isField).map Piece.role).takeWhile (·≠.message) := by
  induction pieces with
  | nil => rfl
  | cons piece pieces ih =>
    have hmessage := (h piece List.mem_cons_self).message
    have hrest := ih fun other hother => h other (List.mem_cons_of_mem _ hother)
    rw [List.takeWhile_cons,List.filter_cons]
    cases hfield : piece.isField with
    | false =>
      rw [hfield,Bool.false_and] at hmessage
      rw [hmessage]
      simpa [hfield] using hrest
    | true =>
      rw [hfield,Bool.true_and] at hmessage
      by_cases hrole : piece.role=.message
      · simp [hmessage,hrole]
      · simpa [hmessage,hrole,hfield] using hrest

theorem compile_parts {pattern : Text} {f : CompiledFormat} (h : PatternCompiler.compile p pattern=.ok f) :
    ∃s,compilePieces p pattern=.ok s ∧ (p.compile s.record.text .sensitive).isValid=true ∧
      (p.compile s.recordStart.text .sensitive).isValid=true ∧
      f.recordRe=p.compile s.record.text .sensitive ∧ f.recordStartRe=p.compile s.recordStart.text .sensitive ∧
      f.fields=s.fields ∧ ∀role,f.groupOf role=s.format.groupOf role := by
  obtain ⟨s,hs,h⟩ := bind_ok h
  refine ⟨s,hs,?_⟩
  simp only at h
  split at h
  case isTrue => cases h
  case isFalse hvalid =>
    simp only [Bool.or_eq_true,Bool.not_eq_true',not_or,Bool.not_eq_false] at hvalid
    cases h
    exact ⟨hvalid.1,hvalid.2,rfl,rfl,rfl,fun role => by cases role <;> rfl⟩

theorem fields_get {field : Field} (h : s.fields[i]?=some field) :
    ∃piece,(s.pieces.filter Piece.isField)[i]?=some piece ∧ field.role=piece.role ∧ field.group=i+1 := by
  rw [Compilation.fields,List.getElem?_map,Option.map_eq_some_iff] at h
  obtain ⟨⟨piece,n⟩,hget,rfl⟩ := h
  rw [List.getElem?_zipIdx,Option.map_eq_some_iff] at hget
  obtain ⟨piece',hget,heq⟩ := hget
  obtain ⟨rfl,rfl⟩ := Prod.mk.inj heq
  exact ⟨piece',hget,rfl,by simp⟩

private theorem fields_roles (s : Compilation) : s.fields.map Field.role=s.fieldRoles := by
  apply List.ext_getElem?
  intro i
  rw [Compilation.fields,Compilation.fieldRoles,List.getElem?_map,List.getElem?_map,List.getElem?_map,
    List.getElem?_zipIdx]
  cases (s.pieces.filter Piece.isField)[i]? <;> rfl

/-- The capturing groups of a compiled pattern are its fields, and nothing in it but a field opens one. -/
theorem groups_are_fields (p : Platform) (pattern : Text) (hp : p.CountsCompiled pattern) (f : CompiledFormat)
    (h : PatternCompiler.compile p pattern=.ok f) :
    f.Numbered ∧ ∃s,compilePieces p pattern=.ok s ∧
      f.recordRe.pattern=[0x5E]++(s.pieces.map fun piece => piece.regex.text).flatten++[0x24] ∧
      ∀piece∈s.pieces,capturingGroups piece.regex.text=some (if piece.isField then 1 else 0) := by
  obtain ⟨s,hs,hvalid,hvalid',hrecord,hstart,hfields,hgroupOf⟩ := compile_parts h
  have hcounted := compilePieces_counted hs
  obtain ⟨hrec,hbeg⟩ := hp hs
  have hpaired := hrec.paired hvalid
  have hpaired' := hbeg.paired hvalid'
  have hbefore : ∀piece∈s.pieces.takeWhile fun piece => !piece.isMessage,piece.Sound :=
    fun piece hpiece => hcounted.sound piece ((List.takeWhile_sublist _).subset hpiece)
  obtain ⟨hbody,hopens⟩ := opens_expression (e:=s.record) (shaped_pieces hcounted.sound) hpaired
  obtain ⟨-,hopens'⟩ := opens_expression (e:=s.recordStart) (shaped_pieces hbefore) hpaired'
  have hroles := fields_roles s
  have hlength : s.fields.length=(s.pieces.filter Piece.isField).length := by simp [Compilation.fields]
  have htext : s.record.text=[0x5E]++(s.pieces.map fun piece => piece.regex.text).flatten++[0x24] := by
    have hshape : s.record.text=[0x5E]++Pattern.text (.all (s.pieces.map Piece.regex))++[0x24] := rfl
    rw [hshape,Pattern.text_all,List.map_map]
    rfl
  refine ⟨⟨?_,?_,?_,?_,?_⟩,s,hs,by rw [hrecord,hrec.pattern,htext],fun piece hpiece => ?_⟩
  rotate_right
  · exact piece_groups hcounted.sound hbody hpiece
  · have hall := hrec.counts hvalid hopens.capturing
    rw [Compilation.record,groups_pieces hcounted.sound,← hlength] at hall
    rw [hrecord,hfields]
    exact hall
  · intro i field hfield
    rw [hfields] at hfield
    obtain ⟨piece,hpiece,-,hgroup⟩ := fields_get hfield
    refine ⟨hgroup,?_⟩
    rw [hrecord,hrec.pattern]
    exact field_group hcounted.sound hpaired hpiece
  · intro role hrole
    rw [hfields,hgroupOf]
    rcases hcounted.names role hrole with ⟨hnone,hnot⟩ | ⟨i,hi,hname⟩
    · refine .inl ⟨hnone,fun field hfield heq => hnot ?_⟩
      rw [← hroles,← heq]
      exact List.mem_map_of_mem hfield
    · rw [← hroles,List.getElem?_map,Option.map_eq_some_iff] at hi
      obtain ⟨field,hfield,hrole'⟩ := hi
      obtain ⟨-,-,-,hgroup⟩ := fields_get hfield
      exact .inr ⟨field,List.mem_of_getElem? hfield,hrole',by rw [hgroup,hname,Nat.cast_succ]⟩
  · have hall := hbeg.counts hvalid' hopens'.capturing
    rw [Compilation.recordStart,groups_pieces hbefore] at hall
    have hlen := congrArg List.length (fields_before hcounted.sound)
    rw [List.length_map] at hlen
    have hkept : (s.fields.takeWhile fun field => field.role≠.message).length=
        ((s.fields.map Field.role).takeWhile (·≠.message)).length := by
      rw [List.takeWhile_map,List.length_map]
      rfl
    rw [hstart,hfields,hkept,hroles]
    exact hall.trans hlen
  · rw [hrecord,hstart,hrec.pattern,hbeg.pattern,htext]
    have hsplit : s.pieces=(s.pieces.takeWhile fun piece => !piece.isMessage)++s.pieces.dropWhile fun piece =>
      !piece.isMessage :=
      List.takeWhile_append_dropWhile.symm
    have hopening : s.recordStart.text=[0x5E]++((s.pieces.takeWhile fun piece => !piece.isMessage).map fun piece =>
        piece.regex.text).flatten := by
      have hshape : s.recordStart.text=[0x5E]++Pattern.text
        (.all ((s.pieces.takeWhile fun piece => !piece.isMessage).map
          Piece.regex))++[] := rfl
      rw [hshape,Pattern.text_all,List.map_map,List.append_nil]
      rfl
    refine ⟨((s.pieces.dropWhile fun piece => !piece.isMessage).map fun piece =>
      piece.regex.text).flatten++[0x24],?_⟩
    rw [hopening]
    conv_lhs => rw [hsplit]
    simp only [List.map_append,List.flatten_append,List.append_assoc]

end

/-- An engine that counts what a pattern opens. -/
def countingPlatform : Platform :=
  {Platform.ascii with
   compile := fun text _ =>
    {Regex.empty with pattern := text,isValid := !holdsUnpaired text,captureCount := (capturingGroups text).getD 0}}

theorem countingPlatform_counts (text : Text) : countingPlatform.CountsGroups text where
  pattern _ := rfl
  unpaired h := by simp [countingPlatform,h]
  counts _ h := by simp [countingPlatform,h]

theorem groups_are_fields_levelled :
    ∃f,PatternCompiler.compile countingPlatform (latin1 "%-5p [%t] %m%n")=.ok f ∧
    f.recordRe.captureCount=f.fields.length := by
  cases h : PatternCompiler.compile countingPlatform (latin1 "%-5p [%t] %m%n") with
  | error e =>
    have hok : (PatternCompiler.compile countingPlatform (latin1 "%-5p [%t] %m%n")).isOk=true := by decide +kernel
    rw [h] at hok
    cases hok
  | ok f => exact ⟨f,rfl,(groups_are_fields countingPlatform _
    (fun _ => ⟨countingPlatform_counts _,countingPlatform_counts _⟩) f h).1.count⟩

end Loftail
