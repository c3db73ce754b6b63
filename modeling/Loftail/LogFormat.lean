import Loftail.Record

/-! # A compiled pattern: two regular expressions and what their groups mean -/
namespace Loftail

/-- A match of a regular expression. A group that took no part, and one the expression
does not have, answer the empty text. -/
structure Match where
  captured : ℕ→Text
  capturedEnd : ℕ

/-- A regular expression; its engine is a function of the subject. -/
structure Regex where
  pattern : Text
  isValid : Bool
  captureCount : ℕ
  exec : Text→Option Match

namespace Regex

/-- A default-constructed expression. -/
def empty : Regex := ⟨[],true,0,fun _ => none⟩

/-- The anchored literal `^s`. -/
def literal (s : Text) : Regex :=
  ⟨0x5E::s,true,0,fun text => if s.isPrefixOf text then some ⟨fun i => if i=0 then s else [],s.length⟩ else none⟩

/-- `^([A-Z]+) `. -/
def word : Regex :=
  ⟨latin1 "^([A-Z]+) ",true,1,fun text =>
    let w := text.takeWhile (fun c => 0x41≤c && c≤0x5A)
    if !w.isEmpty && text[w.length]?=some 0x20 then
      some ⟨fun i => if i=0 then w++[0x20] else if i=1 then w else [],w.length+1⟩
    else none⟩

/-- Whether a stage that consults the expression has anything to consult. -/
def usable (re : Regex) : Bool := !re.pattern.isEmpty && re.isValid

end Regex

inductive DateTokenKind
  | literal | year4 | year2 | monthNumber | monthName | day | hour24 | hour12 | minute | second
  | millis | millisFrac | amPm | epochSeconds | utcOffset | skipDigits | skipWord
  deriving DecidableEq,Inhabited,Repr

/-- One field of a translated date format. -/
structure DateToken where
  kind : DateTokenKind
  width : ℕ
  literal : UInt16
  literalDotFollows : Bool
  deriving DecidableEq,Inhabited

structure DateFormat where
  qtFormat : Text
  tokens : List DateToken
  deriving DecidableEq,Inhabited

inductive TimeSpec | localTime | utc
  deriving DecidableEq,Inhabited,Repr

/-- What everything downstream of the pattern binds to. A group is -1 when the pattern
omits its field. -/
structure LogFormat where
  recordRe : Regex
  recordStartRe : Regex
  dateGroup : ℤ
  prioGroup : ℤ
  loggerGroup : ℤ
  threadGroup : ℤ
  msgGroup : ℤ
  impliedDateFormat : DateFormat
  impliedZone : TimeSpec

namespace LogFormat

/-- What a default construction holds. -/
def empty : LogFormat := ⟨.empty,.empty,-1,-1,-1,-1,-1,default,.localTime⟩

/-- Records that begin with a literal and carry nothing but their message. -/
def plain (s : Text) : LogFormat :=
  {LogFormat.empty with recordRe := .literal s,recordStartRe := .literal s,msgGroup := 1}

/-- `%p %m`. -/
def levelled : LogFormat :=
  {LogFormat.empty with recordRe := .word,recordStartRe := .word,prioGroup := 1,msgGroup := 2}

/-- Whether there is a record-start decision to make at all. -/
def haveFormat (f : LogFormat) : Bool := f.recordStartRe.usable

/-- How many groups the record-start expression captures. -/
def startCaptures (f : LogFormat) : ℕ := if f.haveFormat then f.recordStartRe.captureCount else 0

/-- Whether some field lies past the record-start expression. -/
def needsTailMatch (f : LogFormat) : Bool :=
  f.haveFormat && f.recordRe.usable &&
    (decide (f.dateGroup>f.startCaptures) || decide (f.prioGroup>f.startCaptures) ||
      decide (f.loggerGroup>f.startCaptures) || decide (f.threadGroup>f.startCaptures))

/-- The match a group is read from. -/
def matchFor (f : LogFormat) (start : Match) (tail : Option Match) (group : ℤ) : Match :=
  match tail with
  | some t => if group>f.startCaptures then t else start
  | none => start

/-- The start match of a line, when its format has one. -/
def startMatch (f : LogFormat) (text : Text) : Option Match :=
  if f.haveFormat then f.recordStartRe.exec text else none

/-- The second match of a line that opens a record. -/
def tailMatch (f : LogFormat) (text : Text) : Option Match :=
  if f.needsTailMatch then f.recordRe.exec text else none

end LogFormat

end Loftail
