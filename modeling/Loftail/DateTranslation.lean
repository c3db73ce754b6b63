import Loftail.LogFormat
import Loftail.RegularLanguage

/-! # Translating a date format into an expression and the tokens that read it back -/
namespace Loftail
open RegularLanguage

/-- What a compiled expression is built of: text escaped or as it stands, and the classes. -/
inductive CharClass
  | escaped (s : Text)
  | verbatim (s : Text)
  | tab
  | digit
  | spaceOrDigit
  | space
  | notSpace
  | any
  | letter
  | upperMeridiem
  | lowerMeridiem
  | sign
  | zoneStart
  | zoneRest
  deriving DecidableEq

/-- Not escaped by `QRegularExpression::escape`. -/
def isPlain (c : UInt16) : Bool := (0x30≤c && c≤0x39) || (0x41≤c && c≤0x5A) || (0x61≤c && c≤0x7A) || c=0x5F

/-- `QRegularExpression::escape`. A surrogate pair is escaped as one. -/
def escape : Text→Text
  | [] => []
  | h::l::s =>
    if h=0 then latin1 "\\0"++escape (l::s)
    else if isPlain h then h::escape (l::s)
    else if 0xD800≤h && h≤0xDBFF then 0x5C::h::l::escape s
    else 0x5C::h::escape (l::s)
  | [c] => if c=0 then latin1 "\\0" else if isPlain c then [c] else [0x5C,c]

def CharClass.text : CharClass→Text
  | .escaped s => escape s
  | .verbatim s => s
  | .tab => latin1 "\\t"
  | .digit => latin1 "\\d"
  | .spaceOrDigit => latin1 "[ \\d]"
  | .space => latin1 "\\s"
  | .notSpace => latin1 "\\S"
  | .any => latin1 "."
  | .letter => latin1 "\\p\x7bL\x7d"
  | .upperMeridiem => latin1 "[AP]"
  | .lowerMeridiem => latin1 "[ap]"
  | .sign => latin1 "[+-]"
  | .zoneStart => latin1 "[A-Za-z]"
  | .zoneRest => latin1 "[A-Za-z0-9_/+-]"

def number (n : ℕ) : Text := (Nat.toDigits 10 n).map fun c => c.toNat.toUInt16

def quantifierText : Quantifier→Text
  | .exactly n => 0x7B::number n++[0x7D]
  | .between least most => 0x7B::number least++0x2C::number most++[0x7D]
  | .star => latin1 "*"
  | .lazyStar => latin1 "*?"
  | .plus => latin1 "+"
  | .optional => latin1 "?"

abbrev Pattern := Re CharClass

namespace Pattern

/-- The expression as the compiler writes it. -/
def text : Pattern→Text
  | .empty => []
  | .cls k => k.text
  | .seq a b => text a++text b
  | .alt a b => text a++latin1 "|"++text b
  | .rep r q => text r++quantifierText q
  | .group r => latin1 "("++text r++latin1 ")"
  | .plain r => latin1 "(?:"++text r++latin1 ")"

def digits (n : ℕ) : Pattern := .rep (.cls .digit) (.exactly n)

def digitsBetween (least most : ℕ) : Pattern := .rep (.cls .digit) (.between least most)

end Pattern

inductive CompileErrorCode
  | emptyPattern | danglingPercent | unknownSpecifier | unterminatedDateBrace | unterminatedBrace
  | unsupportedDateCode | danglingPercentInDate | invalidRegex
  deriving DecidableEq,Repr

structure CompileError where
  code : CompileErrorCode
  message : Text
  offset : ℤ
  deriving DecidableEq

def specText (spec : UInt16) : Text := [0x25,spec]

/-- What one code of a date format contributes. -/
structure DateItem where
  regex : Pattern
  qt : Text
  token : DateToken

structure DateTranslation where
  items : List DateItem

namespace DateTranslation

def regex (t : DateTranslation) : Pattern := .all (t.items.map DateItem.regex)

def kDefaultQtDateFormat : Text := latin1 "yyyy-MM-dd HH:mm:ss"

/-- A format only of codes Qt cannot spell shows the default. -/
def format (t : DateTranslation) : DateFormat :=
  let qt := (t.items.map DateItem.qt).flatten
  ⟨if qt.isEmpty then kDefaultQtDateFormat else qt,t.items.map DateItem.token⟩

end DateTranslation

namespace DateItem

/-- A numeric field, which some codes pad with a space. -/
def numeric (kind : DateTokenKind) (digits : ℕ) (spacePadded : Bool) (qt : String) : DateItem :=
  ⟨if spacePadded then .seq (.cls .spaceOrDigit) (Pattern.digits (digits-1)) else Pattern.digits digits,latin1 qt,
    ⟨kind,digits,0,false⟩⟩

/-- A name: letters, and the dot a locale's abbreviation may end in unless the format claims it. -/
def name (kind : DateTokenKind) (qt : String) (dotIsLiteral : Bool) : DateItem :=
  ⟨if dotIsLiteral then .rep (.cls .letter) .plus
    else .seq (.rep (.cls .letter) .plus) (.rep (.cls (.escaped [0x2E])) .optional),
    latin1 qt,⟨kind,0,0,dotIsLiteral⟩⟩

def meridiem (first : CharClass) (second qt : String) (dotIsLiteral : Bool) : DateItem :=
  ⟨.seq (.cls first) (.cls (.verbatim (latin1 second))),latin1 qt,⟨.amPm,0,0,dotIsLiteral⟩⟩

def millis : DateItem := ⟨Pattern.digits 3,latin1 "zzz",⟨.millis,3,0,false⟩⟩

/-- Milliseconds, and a remainder with a dot before it or none. -/
def millisFrac : DateItem :=
  ⟨.seq (Pattern.digits 3) (.rep (.plain (.alt (.seq (.cls (.escaped [0x2E])) (Pattern.digitsBetween 1 6))
    (Pattern.digitsBetween 1 6)))
    .optional),latin1 "zzz",⟨.millisFrac,3,0,false⟩⟩

def epochSeconds : DateItem := ⟨Pattern.digitsBetween 1 12,[],⟨.epochSeconds,12,0,false⟩⟩

def utcOffset : DateItem :=
  ⟨.plain (.alt (.seq (.cls .sign)
    (.seq (Pattern.digits 2) (.seq (.rep (.cls (.verbatim (latin1 ":"))) .optional) (Pattern.digits 2))))
    (.cls (.verbatim (latin1 "Z")))),latin1 "t",⟨.utcOffset,0,0,false⟩⟩

def zoneName (dotIsLiteral : Bool) : DateItem :=
  ⟨.seq (.cls .zoneStart) (.rep (.cls .zoneRest) .star),latin1 "t",⟨.skipWord,0,0,dotIsLiteral⟩⟩

/-- Digits that carry nothing. -/
def skipDigits (n : ℕ) : DateItem := ⟨Pattern.digits n,[],⟨.skipDigits,n,0,false⟩⟩

def skipDigit : DateItem := ⟨.cls .digit,[],⟨.skipDigits,1,0,false⟩⟩

/-- A literal character; letters are quoted for Qt. -/
def literal (isLetter : UInt16→Bool) (c : UInt16) : DateItem :=
  ⟨.cls (.escaped [c]),if isLetter c then [0x27,c,0x27] else [c],⟨.literal,0,c,false⟩⟩

def tab : DateItem := ⟨.cls .tab,[0x27,0x09,0x27],⟨.literal,0,0x09,false⟩⟩

def percent : DateItem := ⟨.cls (.escaped [0x25]),[0x25],⟨.literal,0,0x25,false⟩⟩

end DateItem

/-- The code of an ASCII character. -/
def unit (c : Char) : UInt16 := c.toNat.toUInt16

/-- What a shorthand code stands for. -/
def expansionOf (code : UInt16) : Text :=
  if code=unit 'c' then latin1 "%a %b %e %H:%M:%S %Y"
  else if code=unit 'D' then latin1 "%m/%d/%y"
  else if code=unit 'F' then latin1 "%Y-%m-%d"
  else if code=unit 'r' then latin1 "%I:%M:%S %p"
  else if code=unit 'R' then latin1 "%H:%M"
  else if code=unit 'T' then latin1 "%H:%M:%S"
  else if code=unit 'x' then latin1 "%m/%d/%y"
  else if code=unit 'X' then latin1 "%H:%M:%S"
  else []

/-- The codes that are no shorthand; `dot` says that a literal dot comes straight after. -/
def dateCode (code : UInt16) (dot : Bool) : Option DateItem :=
  if code=unit 'Y' then some (.numeric .year4 4 false "yyyy")
  else if code=unit 'y' then some (.numeric .year2 2 false "yy")
  else if code=unit 'm' then some (.numeric .monthNumber 2 false "MM")
  else if code=unit 'd' then some (.numeric .day 2 false "dd")
  else if code=unit 'e' then some (.numeric .day 2 true "d")
  else if code=unit 'b' ∨ code=unit 'h' then some (.name .monthName "MMM" dot)
  else if code=unit 'B' then some (.name .monthName "MMMM" dot)
  else if code=unit 'a' then some (.name .skipWord "ddd" dot)
  else if code=unit 'A' then some (.name .skipWord "dddd" dot)
  else if code=unit 'H' then some (.numeric .hour24 2 false "HH")
  else if code=unit 'k' then some (.numeric .hour24 2 true "H")
  else if code=unit 'I' then some (.numeric .hour12 2 false "hh")
  else if code=unit 'l' then some (.numeric .hour12 2 true "h")
  else if code=unit 'M' then some (.numeric .minute 2 false "mm")
  else if code=unit 'S' then some (.numeric .second 2 false "ss")
  else if code=unit 'p' then some (.meridiem .upperMeridiem "M" "AP" dot)
  else if code=unit 'P' then some (.meridiem .lowerMeridiem "m" "ap" dot)
  else if code=unit 'q' then some .millis
  else if code=unit 'Q' then some .millisFrac
  else if code=unit 's' then some .epochSeconds
  else if code=unit 'z' then some .utcOffset
  else if code=unit 'Z' then some (.zoneName dot)
  else if code=unit 'j' then some (.skipDigits 3)
  else if code=unit 'C' ∨ code=unit 'g' ∨ code=unit 'U' ∨ code=unit 'V' ∨ code=unit 'W' then some (.skipDigits 2)
  else if code=unit 'G' then some (.skipDigits 4)
  else if code=unit 'u' ∨ code=unit 'w' then some .skipDigit
  else if code=unit 't' then some .tab
  else if code=unit '%' then some .percent
  else none

/-- The codes with what each contributes. -/
def dateTable (dot : Bool) : List (UInt16×DateItem) :=
  [(unit 'Y',.numeric .year4 4 false "yyyy"),(unit 'y',.numeric .year2 2 false "yy"),
    (unit 'm',.numeric .monthNumber 2 false "MM"),(unit 'd',.numeric .day 2 false "dd"),
      (unit 'e',.numeric .day 2 true "d"),
    (unit 'b',.name .monthName "MMM" dot),(unit 'h',.name .monthName "MMM" dot),
      (unit 'B',.name .monthName "MMMM" dot),
    (unit 'a',.name .skipWord "ddd" dot),(unit 'A',.name .skipWord "dddd" dot),
      (unit 'H',.numeric .hour24 2 false "HH"),
    (unit 'k',.numeric .hour24 2 true "H"),(unit 'I',.numeric .hour12 2 false "hh"),
      (unit 'l',.numeric .hour12 2 true "h"),
    (unit 'M',.numeric .minute 2 false "mm"),(unit 'S',.numeric .second 2 false "ss"),
    (unit 'p',.meridiem .upperMeridiem "M" "AP" dot),(unit 'P',.meridiem .lowerMeridiem "m" "ap" dot),
      (unit 'q',.millis),
    (unit 'Q',.millisFrac),(unit 's',.epochSeconds),(unit 'z',.utcOffset),(unit 'Z',.zoneName dot),
      (unit 'j',.skipDigits 3),
    (unit 'C',.skipDigits 2),(unit 'g',.skipDigits 2),(unit 'U',.skipDigits 2),(unit 'V',.skipDigits 2),
    (unit 'W',.skipDigits 2),(unit 'G',.skipDigits 4),(unit 'u',.skipDigit),(unit 'w',.skipDigit),(unit 't',.tab),
    (unit '%',.percent)]

private theorem dateCode_table {dot : Bool} : ∀x∈dateTable dot,dateCode x.1 dot=some x.2 := by
  simp only [dateTable,List.forall_mem_cons]
  repeat' constructor
  simp

private theorem dateCode_none {code : UInt16} {dot : Bool} (h : code∉(dateTable dot).map Prod.fst) :
    dateCode code dot=none := by
  simp only [dateTable,List.map_cons,List.mem_cons,not_or] at h
  simp only [dateCode,h,or_self,if_false]

theorem dateCode_mem {code : UInt16} {dot : Bool} {item : DateItem} (h : dateCode code dot=some item) :
    (code,item)∈dateTable dot := by
  by_cases hmem : code∈(dateTable dot).map Prod.fst
  · obtain ⟨x,hx,rfl⟩ := List.mem_map.mp hmem
    rw [dateCode_table x hx] at h
    obtain rfl := Option.some_inj.mp h
    exact hx
  · rw [dateCode_none hmem] at h
    cases h

/-- The error for a code that is none. -/
def unsupported (code : UInt16) (offset : ℤ) : CompileError :=
  ⟨.unsupportedDateCode,
    if code=unit 'n' then
      latin1 "A newline ('"++specText code++latin1 "') inside a timestamp cannot appear within one log line"
    else latin1 "Unsupported date code '"++specText code++latin1 "' inside %d\x7b...\x7d",offset⟩

/-- The loop over a format; `composite` translates what a shorthand stands for. What follows the
whole format is 0 where nothing does. -/
def translateWith (isLetter : UInt16→Bool) (composite : Text→ℤ→UInt16→Except CompileError (List DateItem))
    (following : UInt16) : Text→ℤ→Except CompileError (List DateItem)
  | [],_ => .ok []
  | c::rest,offset =>
    if c≠0x25 then do
      let items ← translateWith isLetter composite following rest (offset+1)
      .ok (.literal isLetter c::items)
    else
      match rest with
      | [] => .error ⟨.danglingPercentInDate,latin1 "Date format ends with a stray '%'",offset⟩
      | code::rest =>
        let next := rest.head?.getD following
        if expansionOf code≠[] then do
          let expanded ← composite (expansionOf code) offset next
          let items ← translateWith isLetter composite following rest (offset+2)
          .ok (expanded++items)
        else
          match dateCode code (next=0x2E) with
          | none => .error (unsupported code offset)
          | some item => do
            let items ← translateWith isLetter composite following rest (offset+2)
            .ok (item::items)

/-- An expansion has no shorthand in it. -/
def translateExpansion (isLetter : UInt16→Bool) (fmt : Text) (offset : ℤ) (following : UInt16) :
    Except CompileError (List DateItem) :=
  translateWith isLetter (fun _ _ _ => .ok []) following fmt offset

def translateDateFormat (isLetter : UInt16→Bool) (fmt : Text) (baseOffset : ℤ) :
    Except CompileError DateTranslation :=
  (translateWith isLetter (translateExpansion isLetter) 0 fmt baseOffset).map DateTranslation.mk

/-! ### What holds of every item -/

theorem bind_ok {ε α β : Type} {x : Except ε α} {f : α→Except ε β} {b : β} (h : (x>>=f)=.ok b) :
    ∃a,x=.ok a ∧ f a=.ok b := by
  cases x with
  | error e => cases h
  | ok a => exact ⟨a,rfl,h⟩

section
variable {isLetter : UInt16→Bool} {P : DateItem→Prop}

/-- What holds of literals, of codes and of what shorthands stand for holds of every item of a format. -/
theorem translateWith_all (hliteral : ∀c,P (.literal isLetter c))
    (hcode : ∀code dot item,dateCode code dot=some item → P item)
    {composite : Text→ℤ→UInt16→Except CompileError (List DateItem)}
    (hcomposite : ∀fmt offset next items,composite fmt offset next=.ok items → ∀item∈items,P item)
    {following : UInt16} :
    ∀(fmt : Text) (offset : ℤ) (items : List DateItem),
    translateWith isLetter composite following fmt offset=.ok items →
      ∀item∈items,P item
  | [],_,items,h => by
    obtain rfl := Except.ok.inj h
    simp
  | c::rest,offset,items,h => by
    rw [translateWith.eq_def] at h
    simp only at h
    split at h
    case isTrue hc =>
      obtain ⟨later,hlater,h⟩ := bind_ok h
      obtain rfl := Except.ok.inj h
      intro item hitem
      rcases List.mem_cons.mp hitem with rfl | hitem
      · exact hliteral c
      · exact translateWith_all hliteral hcode hcomposite rest _ later hlater item hitem
    case isFalse hc =>
      cases rest with
      | nil => cases h
      | cons code rest =>
        simp only at h
        split at h
        case isTrue hexpand =>
          obtain ⟨expanded,hexpanded,h⟩ := bind_ok h
          obtain ⟨later,hlater,h⟩ := bind_ok h
          obtain rfl := Except.ok.inj h
          intro item hitem
          rcases List.mem_append.mp hitem with hitem | hitem
          · exact hcomposite _ _ _ _ hexpanded item hitem
          · exact translateWith_all hliteral hcode hcomposite rest _ later hlater item hitem
        case isFalse hexpand =>
          split at h
          case h_1 => cases h
          case h_2 first hfirst =>
            obtain ⟨later,hlater,h⟩ := bind_ok h
            obtain rfl := Except.ok.inj h
            intro item hitem
            rcases List.mem_cons.mp hitem with rfl | hitem
            · exact hcode _ _ _ hfirst
            · exact translateWith_all hliteral hcode hcomposite rest _ later hlater item hitem

theorem translateDateFormat_all {fmt : Text} {offset : ℤ} {t : DateTranslation}
    (hliteral : ∀c,P (.literal isLetter c)) (hcode : ∀code dot item,dateCode code dot=some item → P item)
    (h : translateDateFormat isLetter fmt offset=.ok t) :
    ∀item∈t.items,P item := by
  rw [translateDateFormat] at h
  cases hitems : translateWith isLetter (translateExpansion isLetter) 0 fmt offset with
  | error e =>
    rw [hitems] at h
    cases h
  | ok items =>
    rw [hitems] at h
    obtain rfl := Except.ok.inj h
    refine translateWith_all hliteral hcode ?_ fmt offset items hitems
    intro e n f items hexpanded
    refine translateWith_all hliteral hcode ?_ e n items hexpanded
    rintro _ _ _ items ⟨⟩
    simp

end

end Loftail
