import Loftail.PatternCompiler
import Loftail.PatternLanguage

/-! # The lines a conversion pattern renders

What a log4cplus layout writes, told from the pattern and from the values it prints. -/
namespace Loftail

/-- The last `width` decimal digits of a number. -/
def decimal : ℕ→ℕ→Text
  | 0,_ => []
  | width+1,n => decimal width (n/10)++[0x30+(n%10).toUInt16]

/-- Two places, the first a space before a single digit. -/
def spaced (n : ℕ) : Text := if n<10 then 0x20::decimal 1 n else decimal 2 n

/-- A moment as a calendar and a clock show it. -/
structure Moment where
  year : ℕ
  month : Fin 12
  day : Fin 31
  hour : Fin 24
  minute : Fin 60
  second : Fin 61
  millis : Fin 1000
  micros : Fin 1000
  weekday : Fin 7
  yearDay : Fin 366
  weekFromSunday : Fin 54
  weekFromMonday : Fin 54
  isoYear : ℕ
  isoWeek : Fin 54
  epoch : ℕ
  west : Bool
  offsetHours : Fin 24
  offsetMinutes : Fin 60
  zone : Text
  year_digits : 1000≤year ∧ year<10000
  isoYear_digits : 1000 ≤ isoYear ∧ isoYear<10000
  epoch_digits : epoch<10^12

/-- The names a process prints. -/
structure Locale where
  month : Fin 12→Text
  shortMonth : Fin 12→Text
  weekday : Fin 7→Text
  shortWeekday : Fin 7→Text
  meridiem : Bool→Text
  smallMeridiem : Bool→Text

namespace Moment
variable (m : Moment) (loc : Locale)

def hour12 : ℕ := if m.hour.val%12=0 then 12 else m.hour.val%12

def afternoon : Bool := decide (12 ≤ m.hour.val)

def clock : Text := decimal 2 m.hour++latin1 ":"++decimal 2 m.minute++latin1 ":"++decimal 2 m.second

/-- The date and time of the C locale, `%c`. -/
def dateAndTime : Text :=
  loc.shortWeekday m.weekday++latin1 " "++loc.shortMonth m.month++latin1 " "++spaced
    (m.day+1)++latin1 " "++m.clock++
    latin1 " "++decimal 4 m.year

def slashed : Text := decimal 2 (m.month+1)++latin1 "/"++decimal 2 (m.day+1)++latin1 "/"++decimal 2 m.year

/-- What one code of a date format prints; log4cplus has `%q`, `%Q` and `%s` of its own. -/
def printed (code : UInt16) : Text :=
  if code=unit 'Y' then decimal 4 m.year
  else if code=unit 'y' then decimal 2 m.year
  else if code=unit 'C' then decimal 2 (m.year/100)
  else if code=unit 'm' then decimal 2 (m.month+1)
  else if code=unit 'd' then decimal 2 (m.day+1)
  else if code=unit 'e' then spaced (m.day+1)
  else if code=unit 'b' ∨ code=unit 'h' then loc.shortMonth m.month
  else if code=unit 'B' then loc.month m.month
  else if code=unit 'a' then loc.shortWeekday m.weekday
  else if code=unit 'A' then loc.weekday m.weekday
  else if code=unit 'H' then decimal 2 m.hour
  else if code=unit 'k' then spaced m.hour
  else if code=unit 'I' then decimal 2 m.hour12
  else if code=unit 'l' then spaced m.hour12
  else if code=unit 'M' then decimal 2 m.minute
  else if code=unit 'S' then decimal 2 m.second
  else if code=unit 'p' then loc.meridiem m.afternoon
  else if code=unit 'P' then loc.smallMeridiem m.afternoon
  else if code=unit 'q' then decimal 3 m.millis
  else if code=unit 'Q' then decimal 3 m.millis++latin1 "."++decimal 3 m.micros
  else if code=unit 's' then number m.epoch
  else if code=unit 'z' then (if m.west then latin1 "-" else latin1 "+")++decimal 2 m.offsetHours++
    decimal 2 m.offsetMinutes
  else if code=unit 'Z' then m.zone
  else if code=unit 'j' then decimal 3 (m.yearDay+1)
  else if code=unit 'g' then decimal 2 m.isoYear
  else if code=unit 'G' then decimal 4 m.isoYear
  else if code=unit 'U' then decimal 2 m.weekFromSunday
  else if code=unit 'V' then decimal 2 m.isoWeek
  else if code=unit 'W' then decimal 2 m.weekFromMonday
  else if code=unit 'u' then decimal 1 (if m.weekday.val=0 then 7 else m.weekday.val)
  else if code=unit 'w' then decimal 1 m.weekday
  else if code=unit 't' then latin1 "\t"
  else if code=unit '%' then latin1 "%"
  else if code=unit 'c' then m.dateAndTime loc
  else if code=unit 'D' ∨ code=unit 'x' then m.slashed
  else if code=unit 'F' then decimal 4 m.year++latin1 "-"++decimal 2 (m.month+1)++latin1 "-"++decimal 2 (m.day+1)
  else if code=unit 'r' then
    decimal 2 m.hour12++latin1 ":"++decimal 2 m.minute++latin1 ":"++decimal 2 m.second++latin1 " "++
      loc.meridiem m.afternoon
  else if code=unit 'R' then decimal 2 m.hour++latin1 ":"++decimal 2 m.minute
  else if code=unit 'T' ∨ code=unit 'X' then m.clock
  else []

/-- A date text. -/
def strftime : Text→Text
  | [] => []
  | [c] => [c]
  | c::code::rest => if c≠0x25 then c::strftime (code::rest) else m.printed loc code++strftime rest

end Moment

/-- A conversion as a pattern spells it, the value it prints and the spaces that pad it. A maximum
width only chooses among the values. -/
structure Conversion where
  leftAlign : Bool
  minWidth : Text
  maxWidth : Option Text
  spec : UInt16
  arg : Option Text
  value : Text
  pad : ℕ

/-- The specifiers an argument in braces may follow. -/
def argumentSpecs : List UInt16 := [unit 'c',unit 'X',unit 'E',unit 'd',unit 'D']

namespace Conversion
variable (p : Platform) (loc : Locale) (c : Conversion)

def modifier : Text :=
  (if c.leftAlign then [0x2D] else [])++c.minWidth++match c.maxWidth with
    | none => []
    | some digits => 0x2E::digits

def argText : Text :=
  match c.arg with
  | none => []
  | some arg => 0x7B::arg++[0x7D]

def text : Text := 0x25::c.modifier++c.spec::c.argText

def rendered : Text :=
  if c.leftAlign then c.value++List.replicate c.pad 0x20 else List.replicate c.pad 0x20++c.value

def IsDate : Prop := c.spec=unit 'd' ∨ c.spec=unit 'D'

def IsName : Prop :=
  c.spec∈[unit 'p',unit 'c',unit 't',unit 'T',unit 'F',unit 'b',unit 'l',unit 'M',unit 'h',unit 'H']

def IsNumber : Prop := c.spec∈[unit 'L',unit 'i',unit 'r']

def IsContext : Prop := c.spec∈[unit 'x',unit 'X',unit 'E']

def IsMessage : Prop := c.spec=unit 'm'

def TakesArgument : Prop := c.spec∈argumentSpecs

/-- The value is one that the specifier prints. -/
def Prints : Prop :=
  (c.spec=0x25 ∧ c.value=[0x25] ∧ c.pad=0) ∨
    (c.IsDate ∧ ∃m : Moment,c.value=m.strftime loc (c.arg.getD kDefaultDateFormat)) ∨
    (c.IsName ∧ c.value≠[] ∧ ∀x∈c.value,isAsciiSpace x=false) ∨
    (c.IsNumber ∧ c.value≠[] ∧ ∀x∈c.value,isAsciiDigit x=true) ∨
    c.IsContext ∨ (c.IsMessage ∧ ∀x∈c.value,x≠0x0A)

/-- How the modifier and the argument are spelt. -/
structure Spelled : Prop where
  minWidth : ∀x∈c.minWidth,p.isDigit x=true
  maxWidth : ∀digits∈c.maxWidth,∀x∈digits,p.isDigit x=true
  pad : c.minWidth=[]→c.pad=0
  arg : ∀arg∈c.arg,c.TakesArgument ∧ ∀x∈arg,x≠0x7D

end Conversion

inductive Element
  | literal (c : UInt16)
  | conversion (c : Conversion)

def Element.text : Element→Text
  | .literal c => [c]
  | .conversion c => c.text

def Element.rendered : Element→Text
  | .literal c => [c]
  | .conversion c => c.rendered

/-- The pattern some elements spell. -/
def patternOf (es : List Element) : Text := es.flatMap Element.text

/-- The line they render. -/
def lineOf (es : List Element) : Text := es.flatMap Element.rendered

/-- A pattern with a value for each of its conversions, `%n` only at its end. -/
inductive Rendering (p : Platform) (loc : Locale) : List Element→Prop
  | newlines {cs : List Conversion}
      (h : ∀c∈cs,c.Spelled p ∧ c.spec=unit 'n' ∧ c.value=[] ∧ c.pad=0) : Rendering p loc (cs.map .conversion)
  | literal {c : UInt16} {es : List Element} (h : c≠0x25) (tail : Rendering p loc es) :
    Rendering p loc (.literal c::es)
  | conversion {c : Conversion} {es : List Element} (hs : c.Spelled p) (h : c.Prints loc)
      (brace : c.TakesArgument→c.arg=none→(patternOf es).head?≠some 0x7B) (tail : Rendering p loc es) :
      Rendering p loc (.conversion c::es)

/-! ## What the compiled expressions do not take -/

/-- Letters, and one dot at most where the format spells none after them. -/
def IsNameRun (p : Platform) (pair : UInt16→UInt16→Bool) (dot : Bool) (name : Text) : Prop :=
  ∃letters : List Text,letters≠[] ∧ (∀l∈letters,l∈CharClass.language p pair .letter) ∧
    (name=letters.flatten ∨ dot=false ∧ name=letters.flatten++[0x2E])

def IsZoneName : Text→Prop
  | [] => False
  | c::rest => isZoneStart c=true ∧ ∀x∈rest,isZoneRest x=true

namespace Moment
variable (p : Platform) (pair : UInt16→UInt16→Bool) (loc : Locale) (m : Moment)

/-- A code prints a name of the shape it is compiled to. -/
def CodeFits (code : UInt16) (dot : Bool) : Prop :=
  (code=unit 'b' ∨ code=unit 'h'→IsNameRun p pair dot (loc.shortMonth m.month)) ∧
    (code=unit 'B'→IsNameRun p pair dot (loc.month m.month)) ∧
    (code=unit 'a'→IsNameRun p pair dot (loc.shortWeekday m.weekday)) ∧
    (code=unit 'A'→IsNameRun p pair dot (loc.weekday m.weekday)) ∧
    (code=unit 'p' ∨ code=unit 'r'→loc.meridiem m.afternoon∈[latin1 "AM",latin1 "PM"]) ∧
    (code=unit 'P'→loc.smallMeridiem m.afternoon∈[latin1 "am",latin1 "pm"]) ∧
    (code=unit 'Z'→IsZoneName m.zone) ∧
    (code=unit 'c'→IsNameRun p pair false (loc.shortWeekday m.weekday) ∧
      IsNameRun p pair false (loc.shortMonth m.month))

/-- Every code of a format does; `following` comes after it. -/
def Fits (following : UInt16) : Text→Prop
  | [] => True
  | [_] => True
  | c::code::rest =>
    if c≠0x25 then Fits following (code::rest)
    else m.CodeFits p pair loc code (rest.head?.getD following=0x2E) ∧ Fits following rest

end Moment

/-- The white space of the pattern's own text is ASCII's; no value holds an unpaired surrogate; no context value
breaks the line; and every date prints names of the shape they are compiled to, with no NUL of its format before
an octal digit. -/
def Element.Fits (p : Platform) (pair : UInt16→UInt16→Bool) (loc : Locale) : Element→Prop
  | .literal c => isSpace c=true→isAsciiSpace c=true
  | .conversion c =>
    Paired c.value ∧ (c.IsContext→∀x∈c.value,x≠0x0A) ∧
      (c.IsDate→Apart (c.arg.getD kDefaultDateFormat) ∧ ∃m :
        Moment,c.value=m.strftime loc (c.arg.getD kDefaultDateFormat) ∧
        m.Fits p pair loc 0 (c.arg.getD kDefaultDateFormat))

/-- What an element adds to the escaped text of the expression. -/
def Element.signs : Element→List (Option UInt16)
  | .literal c => [some c]
  | .conversion c => if c.spec=0x25 then [some 0x25] else if c.spec=unit 'n' then [] else [none]

/-- The condition on a pattern and its values under which the line they render is a record of the pattern. -/
structure Fitting (p : Platform) (pair : UInt16→UInt16→Bool) (loc : Locale) (es : List Element) : Prop where
  each : ∀e∈es,e.Fits p pair loc
  /-- No NUL of the literal text stands directly before an octal digit. -/
  clear : Pattern.Clear (es.flatMap Element.signs)
  paired : Paired (lineOf es)

end Loftail
