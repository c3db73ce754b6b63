import Mathlib.Data.List.SplitBy
import Loftail.DateTranslation
import Loftail.Platform

/-! # Compiling a conversion pattern -/
namespace Loftail
open RegularLanguage

inductive FieldRole
  | date | priority | logger | thread | message | fileName | lineNumber | method
  | location | threadName | processId | hostname | elapsed | ndc | mdc | envVar
  deriving DecidableEq,Repr

/-- The header of a column. -/
def fieldName : FieldRole→Text
  | .date => latin1 "Time"
  | .priority => latin1 "Priority"
  | .logger => latin1 "Subsystem"
  | .thread => latin1 "Thread"
  | .message => latin1 "Message"
  | .fileName => latin1 "File"
  | .lineNumber => latin1 "Line"
  | .method => latin1 "Method"
  | .location => latin1 "Location"
  | .threadName => latin1 "Thread name"
  | .processId => latin1 "PID"
  | .hostname => latin1 "Host"
  | .elapsed => latin1 "Elapsed"
  | .ndc => latin1 "NDC"
  | .mdc => latin1 "MDC"
  | .envVar => latin1 "Env"

structure Field where
  role : FieldRole
  name : Text
  group : ℕ
  deriving DecidableEq

/-- A compiled pattern with its columns. -/
structure CompiledFormat extends LogFormat where
  fields : List Field

/-- One chunk of the pattern: a literal, or a field that is one capturing group. -/
structure Piece where
  regex : Pattern
  isField : Bool
  role : FieldRole
  isMessage : Bool
  name : Text

/-- An expression from the start of the line, `closed` to its end. -/
structure Expression where
  body : Pattern
  closed : Bool

def Expression.text (e : Expression) : Text := 0x5E::e.body.text++if e.closed then [0x24] else []

def kDefaultDateFormat : Text := latin1 "%Y-%m-%d %H:%M:%S"

def kFreeText : Pattern := .rep (.cls .any) .lazyStar

/-- A run of white space matches any; everything else matches itself. -/
def compileLiteral (text : Text) : Pattern :=
  .all ((text.splitBy fun a b => isSpace a==isSpace b).map fun run =>
    if run.any isSpace then .rep (.cls .space) .plus else .cls (.escaped run))

/-- With a minimum width the padding around the value is taken too. -/
def makeFieldPiece (base : Pattern) (role : FieldRole) (hasMinWidth isMessage : Bool) : Piece :=
  let padding : Pattern := .rep (.cls .space) .star
  ⟨if hasMinWidth then .seq padding (.seq (.group base) padding) else .group base,true,role,isMessage,[]⟩

def LogFormat.setGroup (f : LogFormat) (role : FieldRole) (group : ℤ) : LogFormat :=
  match role with
  | .date => {f with dateGroup := group}
  | .priority => {f with prioGroup := group}
  | .logger => {f with loggerGroup := group}
  | .thread => {f with threadGroup := group}
  | .message => {f with msgGroup := group}
  | _ => f

/-- What the loop has built. -/
structure Compilation where
  pieces : List Piece
  literalBuf : Text
  groupCounter : ℕ
  format : LogFormat

namespace Compilation

def start : Compilation := ⟨[],[],0,.empty⟩

def flushLiteral (s : Compilation) : Compilation :=
  if s.literalBuf=[] then s
  else {s with pieces := s.pieces++[⟨compileLiteral s.literalBuf,false,.message,false,[]⟩],literalBuf := []}

/-- Appends a field, which is the next group. -/
def append (s : Compilation) (piece : Piece) : Compilation :=
  {s with
   pieces := s.pieces++[piece]
   groupCounter := s.groupCounter+1
   format := s.format.setGroup piece.role (s.groupCounter+1)}

def emitSimpleField (s : Compilation) (base : Pattern) (role : FieldRole) (hasMinWidth : Bool) (name : Text) :
    Compilation :=
  s.flushLiteral.append {makeFieldPiece base role hasMinWidth (role=.message) with name := name}

/-- The whole pattern. -/
def record (s : Compilation) : Expression := ⟨.all (s.pieces.map Piece.regex),true⟩

/-- What precedes the first message. -/
def recordStart (s : Compilation) : Expression :=
  ⟨.all ((s.pieces.takeWhile fun piece => !piece.isMessage).map Piece.regex),false⟩

/-- The columns, numbered as their groups are. -/
def fields (s : Compilation) : List Field :=
  (s.pieces.filter Piece.isField).zipIdx.map fun (piece,n) =>
    ⟨piece.role,if piece.name.isEmpty then fieldName piece.role else piece.name,n+1⟩

end Compilation

/-- Past `[-][digits][.digits]`, and whether there was a minimum width. -/
def scanModifier (isDigit : UInt16→Bool) (text : Text) : Bool×Text :=
  let text := if text.head?=some 0x2D then text.tail else text
  let after := text.dropWhile isDigit
  (!(text.takeWhile isDigit).isEmpty,if after.head?=some 0x2E then after.tail.dropWhile isDigit else after)

/-- An argument in braces, if one starts here, and what follows it; none when it is never closed. -/
def scanBraceArg (text : Text) : Option (Option Text×Text) :=
  if text.head?=some 0x7B then
    let content := text.tail
    let left := content.dropWhile fun c => c≠0x7D
    if left=[] then none else some (some (content.takeWhile fun c => c≠0x7D),left.tail)
  else some (none,text)

/-- The fields other than dates, and whether they take an argument. -/
def fieldOf (spec : UInt16) : Option (Pattern×FieldRole×Bool) :=
  let word : Pattern := .rep (.cls .notSpace) .plus
  let number : Pattern := .rep (.cls .digit) .plus
  if spec=unit 'p' then some (word,.priority,false)
  else if spec=unit 'c' then some (word,.logger,true)
  else if spec=unit 't' then some (word,.thread,false)
  else if spec=unit 'T' then some (word,.threadName,false)
  else if spec=unit 'F' ∨ spec=unit 'b' then some (word,.fileName,false)
  else if spec=unit 'L' then some (number,.lineNumber,false)
  else if spec=unit 'l' then some (word,.location,false)
  else if spec=unit 'M' then some (word,.method,false)
  else if spec=unit 'i' then some (number,.processId,false)
  else if spec=unit 'r' then some (number,.elapsed,false)
  else if spec=unit 'h' ∨ spec=unit 'H' then some (word,.hostname,false)
  else if spec=unit 'x' then some (kFreeText,.ndc,false)
  else if spec=unit 'X' then some (kFreeText,.mdc,true)
  else if spec=unit 'E' then some (kFreeText,.envVar,true)
  else if spec=unit 'm' then some (.rep (.cls .any) .star,.message,false)
  else none

/-- The specifiers with the fields they stand for. -/
def fieldTable : List (UInt16×Pattern×FieldRole×Bool) :=
  let word : Pattern := .rep (.cls .notSpace) .plus
  let number : Pattern := .rep (.cls .digit) .plus
  [(unit 'p',word,.priority,false),(unit 'c',word,.logger,true),(unit 't',word,.thread,false),
    (unit 'T',word,.threadName,false),(unit 'F',word,.fileName,false),(unit 'b',word,.fileName,false),
    (unit 'L',number,.lineNumber,false),(unit 'l',word,.location,false),(unit 'M',word,.method,false),
    (unit 'i',number,.processId,false),(unit 'r',number,.elapsed,false),(unit 'h',word,.hostname,false),
    (unit 'H',word,.hostname,false),(unit 'x',kFreeText,.ndc,false),(unit 'X',kFreeText,.mdc,true),
    (unit 'E',kFreeText,.envVar,true),(unit 'm',.rep (.cls .any) .star,.message,false)]

private theorem fieldOf_table : ∀x∈fieldTable,fieldOf x.1=some x.2 := by
  simp only [fieldTable,List.forall_mem_cons]
  repeat' constructor
  simp

private theorem fieldOf_none {spec : UInt16} (h : spec∉fieldTable.map Prod.fst) : fieldOf spec=none := by
  simp only [fieldTable,List.map_cons,List.mem_cons,not_or] at h
  simp only [fieldOf,h,or_self,if_false]

theorem fieldOf_mem {spec : UInt16} {found : Pattern×FieldRole×Bool} (h : fieldOf spec=some found) :
    (spec,found)∈fieldTable := by
  by_cases hmem : spec∈fieldTable.map Prod.fst
  · obtain ⟨x,hx,rfl⟩ := List.mem_map.mp hmem
    rw [fieldOf_table x hx] at h
    obtain rfl := Option.some_inj.mp h
    exact hx
  · rw [fieldOf_none hmem] at h
    cases h

/-- The header of a column that shows one entry. -/
def entryName (role : FieldRole) (key : Text) : Text :=
  if key=[] then []
  else match role with
    | .mdc => latin1 "MDC["++key++[0x5D]
    | .envVar => latin1 "Env["++key++[0x5D]
    | _ => []

def unterminatedBrace (spec : UInt16) : Text := latin1 "'"++specText spec++latin1 "\x7b' has no closing '\x7d'"

/-- One conversion: what follows its percent sign up to its specifier has been read. -/
def convert (p : Platform) (s : Compilation) (hasMinWidth : Bool) (spec : UInt16) (after : Text) (j : ℤ) :
    Except CompileError (Compilation×Text) :=
  if spec=unit '%' then .ok ({s with literalBuf := s.literalBuf++[0x25]},after)
  else if spec=unit 'd' ∨ spec=unit 'D' then
    match scanBraceArg after with
    | none => .error ⟨.unterminatedDateBrace,unterminatedBrace spec,j+1⟩
    | some (arg,left) => do
      let (innerFmt,fmtOffset) : Text×ℤ := match arg with
        | some inner => (inner,j+2)
        | none => (kDefaultDateFormat,j)
      let t ← translateDateFormat p.isLetter innerFmt fmtOffset
      let s := s.flushLiteral.append (makeFieldPiece t.regex .date hasMinWidth false)
      .ok ({s with format := {s.format with
              impliedDateFormat := t.format
              impliedZone := if spec=unit 'd' then .utc else .localTime}},left)
  else if spec=unit 'n' then .ok (s.flushLiteral,after)
  else
    match fieldOf spec with
    | none => .error ⟨.unknownSpecifier,latin1 "Unknown conversion specifier '"++specText spec++latin1 "'",j⟩
    | some (base,role,false) => .ok (s.emitSimpleField base role hasMinWidth [],after)
    | some (base,role,true) =>
      match scanBraceArg after with
      | none => .error ⟨.unterminatedBrace,unterminatedBrace spec,j+1⟩
      | some (arg,left) => .ok (s.emitSimpleField base role hasMinWidth (entryName role (arg.getD [])),left)

/-- A conversion from behind its percent sign, which stands at `percentPos`. -/
def conversion (p : Platform) (s : Compilation) (rest : Text) (percentPos : ℤ) : Except CompileError
    (Compilation×Text) :=
  if rest=[] then .error ⟨.danglingPercent,latin1 "Pattern ends with a stray '%'",percentPos⟩
  else
    match scanModifier p.isDigit rest with
    | (_,[]) => .error ⟨.danglingPercent,latin1 "Modifier is not followed by a specifier",percentPos⟩
    | (hasMinWidth,spec::after) =>
      convert p s hasMinWidth spec after (percentPos+1+(rest.length-(after.length+1) : ℕ))

/-- The loop from position `i`; a conversion has taken the first `skip` characters. -/
def compileLoop (p : Platform) : Text→ℕ→ℤ → Compilation→Except CompileError Compilation
  | [],_,_,s => .ok s
  | _::rest,skip+1,i,s => compileLoop p rest skip (i+1) s
  | ch::rest,0,i,s =>
    if ch≠0x25 then compileLoop p rest 0 (i+1) {s with literalBuf := s.literalBuf++[ch]}
    else do
      let (s,left) ← conversion p s rest i
      compileLoop p rest (rest.length-left.length) (i+1) s

/-- The pieces of a pattern. -/
def compilePieces (p : Platform) (pattern : Text) : Except CompileError Compilation :=
  if pattern=[] then .error ⟨.emptyPattern,latin1 "Pattern is empty",0⟩
  else (compileLoop p pattern 0 0 .start).map Compilation.flushLiteral

namespace PatternCompiler

def compile (p : Platform) (pattern : Text) : Except CompileError CompiledFormat := do
  let s ← compilePieces p pattern
  let recordRe := p.compile s.record.text .sensitive
  let recordStartRe := p.compile s.recordStart.text .sensitive
  if !recordRe.isValid || !recordStartRe.isValid then
    .error ⟨.invalidRegex,latin1 "Internal error: generated an invalid regular expression",-1⟩
  else .ok {s.format with recordRe := recordRe,recordStartRe := recordStartRe,fields := s.fields}

end PatternCompiler

/-! ### What holds of every piece -/

section
variable {p : Platform} {s s' : Compilation} {Q : Piece→Prop} {spec : UInt16}
  {after left rest pattern : Text} {hasMinWidth : Bool} {j : ℤ}

/-- What holds of every kind of piece that the loop appends. -/
structure Kinds (p : Platform) (Q : Piece→Prop) : Prop where
  literal (text : Text) : Q ⟨compileLiteral text,false,.message,false,[]⟩
  date (base : Pattern) (hasMinWidth : Bool) : Q (makeFieldPiece base .date hasMinWidth false)
  field {spec : UInt16} {base : Pattern} {role : FieldRole} {takes : Bool} (hasMinWidth : Bool) (name : Text) :
    fieldOf spec=some (base,role,takes)→Q {makeFieldPiece base role hasMinWidth (role=.message) with name := name}

theorem flushLiteral_all (hQ : Kinds p Q) (h : ∀piece∈s.pieces,Q piece) : ∀piece∈s.flushLiteral.pieces,Q piece := by
  rw [Compilation.flushLiteral]
  split
  · exact h
  · intro piece hpiece
    rcases List.mem_append.mp hpiece with hpiece | hpiece
    · exact h piece hpiece
    · obtain rfl := List.mem_singleton.mp hpiece
      exact hQ.literal _

theorem append_all {piece : Piece} (h : ∀other∈s.pieces,Q other) (hpiece : Q piece) :
    ∀other∈(s.append piece).pieces,Q other := by
  intro other hother
  rcases List.mem_append.mp hother with hother | hother
  · exact h other hother
  · rw [List.mem_singleton.mp hother]
    exact hpiece

private theorem convert_all (hQ : Kinds p Q) (h : ∀piece∈s.pieces,Q piece)
    (hc : convert p s hasMinWidth spec after j=.ok (s',left)) : ∀piece∈s'.pieces,Q piece := by
  rw [convert] at hc
  split at hc
  case isTrue =>
    obtain ⟨rfl,-⟩ := Prod.mk.inj (Except.ok.inj hc)
    exact h
  case isFalse =>
    split at hc
    case isTrue =>
      split at hc
      case h_1 => cases hc
      case h_2 =>
        obtain ⟨t,ht,hc⟩ := bind_ok hc
        obtain ⟨rfl,-⟩ := Prod.mk.inj (Except.ok.inj hc)
        exact fun other hother => append_all (flushLiteral_all hQ h) (hQ.date t.regex hasMinWidth) other hother
    case isFalse =>
      split at hc
      case isTrue =>
        obtain ⟨rfl,-⟩ := Prod.mk.inj (Except.ok.inj hc)
        exact flushLiteral_all hQ h
      case isFalse =>
        split at hc
        case h_1 => cases hc
        case h_2 hfound =>
          obtain ⟨rfl,-⟩ := Prod.mk.inj (Except.ok.inj hc)
          exact fun other hother => append_all (flushLiteral_all hQ h) (hQ.field hasMinWidth [] hfound) other hother
        case h_3 hfound =>
          split at hc
          case h_1 => cases hc
          case h_2 =>
            obtain ⟨rfl,-⟩ := Prod.mk.inj (Except.ok.inj hc)
            exact fun other hother =>
              append_all (flushLiteral_all hQ h) (hQ.field hasMinWidth _ hfound) other hother

private theorem compileLoop_all (hQ : Kinds p Q) (h : ∀piece∈s.pieces,Q piece) {text : Text} {skip : ℕ} {i : ℤ}
    (hc : compileLoop p text skip i s=.ok s') : ∀piece∈s'.pieces,Q piece := by
  induction text generalizing skip i s with
  | nil =>
    cases skip <;>
    · obtain rfl := Except.ok.inj hc
      exact h
  | cons ch rest ih =>
    cases skip with
    | succ skip => exact ih h hc
    | zero =>
      rw [compileLoop] at hc
      split at hc
      case isTrue =>
        refine ih ?_ hc
        exact h
      case isFalse =>
        obtain ⟨⟨later,left⟩,hconversion,hc⟩ := bind_ok hc
        rw [conversion] at hconversion
        split at hconversion
        case isTrue => cases hconversion
        case isFalse =>
          split at hconversion
          case h_1 => cases hconversion
          case h_2 => exact ih (convert_all hQ h hconversion) hc

private theorem compilePieces_all (hQ : Kinds p Q) (hc : compilePieces p pattern=.ok s) :
    ∀piece∈s.pieces,Q piece := by
  rw [compilePieces] at hc
  split at hc
  case isTrue => cases hc
  case isFalse =>
    cases hloop : compileLoop p pattern 0 0 .start with
    | error e =>
      rw [hloop] at hc
      cases hc
    | ok last =>
      rw [hloop] at hc
      obtain rfl := Except.ok.inj hc
      exact flushLiteral_all hQ (compileLoop_all hQ (fun _ h => absurd h List.not_mem_nil) hloop)

/-- A message, with what a minimum width lets stand around it. -/
def messageRegex (padded : Bool) : Pattern := (makeFieldPiece (.rep (.cls .any) .star) .message padded true).regex

private theorem fieldOf_message {found : Pattern×FieldRole×Bool} (h : fieldOf spec=some found) :
    found.2.1=.message→found.1=.rep (.cls .any) .star := by
  have htable : ∀x∈fieldTable,x.2.2.1=.message→x.2.1=.rep (.cls .any) .star := by
    simp only [fieldTable,List.forall_mem_cons]
    exact ⟨nofun,nofun,nofun,nofun,nofun,nofun,nofun,nofun,nofun,nofun,nofun,nofun,nofun,nofun,nofun,nofun,
      fun _ => trivial,by simp⟩
  exact htable _ (fieldOf_mem h)

/-- Every message is one run of any characters. -/
theorem message_pieces (hc : compilePieces p pattern=.ok s) {piece : Piece} (hpiece : piece∈s.pieces)
    (hmessage : piece.isMessage=true) : piece.isField=true ∧ piece.role=.message ∧
    ∃padded,piece.regex=messageRegex padded := by
  have hQ : Kinds p fun piece => piece.isMessage=true→
      piece.isField=true ∧ piece.role=.message ∧ ∃padded,piece.regex=messageRegex padded := by
    refine ⟨fun _ h => Bool.noConfusion h,?_,?_⟩
    · intro base padded h
      cases padded <;> exact Bool.noConfusion h
    · intro spec base role takes padded name hfound hmessage
      have hrole : role=.message := by
        cases padded <;> exact of_decide_eq_true hmessage
      obtain rfl := fieldOf_message hfound hrole
      subst hrole
      exact ⟨by cases padded <;> rfl,by cases padded <;> rfl,padded,by cases padded <;> rfl⟩
  exact compilePieces_all hQ hc piece hpiece hmessage

/-- What comes from the first message on. -/
theorem pieces_from_message (s : Compilation) : (s.pieces.dropWhile fun piece => !piece.isMessage)=[] ∨
    ∃message after,(s.pieces.dropWhile fun piece => !piece.isMessage)=message::after ∧ message∈s.pieces ∧
    message.isMessage=true := by
  cases hdrop : s.pieces.dropWhile fun piece => !piece.isMessage with
  | nil => exact .inl rfl
  | cons message after =>
    have hhead := List.head?_dropWhile_not (fun piece : Piece => !piece.isMessage) s.pieces
    rw [hdrop] at hhead
    exact .inr ⟨message,after,rfl,(List.dropWhile_sublist _).subset (hdrop▸List.mem_cons_self),by simpa using hhead⟩

end

end Loftail
