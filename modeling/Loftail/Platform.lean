import Loftail.LogFormat

/-! # What the code takes from its platform -/
namespace Loftail

inductive CaseSensitivity | insensitive | sensitive
  deriving DecidableEq,Inhabited,Repr

/-- A calendar date and a time of day, in no zone. -/
structure LocalDateTime where
  year : ℤ
  month : ℕ
  day : ℕ
  hour : ℕ
  minute : ℕ
  second : ℕ
  msec : ℕ
  deriving DecidableEq,Inhabited

/-- A time zone: a partial function from local date-times to instants. `stretched` is
what `toMSecsSinceEpoch` says of a date-time that has none. -/
structure Zone where
  isValid : Bool
  instant : LocalDateTime→Option ℤ
  stretched : LocalDateTime→ℤ

/-- What the code takes from Qt and the machine: Unicode classes, the locale, the clock,
the zones and the compiler of regular expressions. -/
structure Platform where
  isDigit : UInt16→Bool
  isLetter : UInt16→Bool
  toLower : Text→Text
  toUpper : UInt16→UInt16
  shortMonth : ℕ→Text
  longMonth : ℕ→Text
  currentYear : ℤ
  currentMSecs : ℤ
  fixedOffset : ℤ→Zone
  fromString : Text→Text→Option LocalDateTime
  systemZone : Zone
  utcZone : Zone
  foldCase : Text→Text
  compile : Text→CaseSensitivity→Regex

/-- A zone that was never set. -/
def Zone.invalid : Zone := ⟨false,fun _ => none,fun _ => 0⟩

/-- Days from 1970-01-01 to a date of the Gregorian calendar. -/
def daysFromCivil (year : ℤ) (month day : ℕ) : ℤ :=
  let y := if month≤2 then year-1 else year
  let era := y/400
  let yoe := y-era*400
  let doy : ℤ := (153*((month : ℤ)+(if month>2 then -3 else 9))+2)/5+day-1
  era*146097+(yoe*365+yoe/4-yoe/100+doy)-719468

example : daysFromCivil 1970 1 1=0 ∧ daysFromCivil 2024 2 29=19782 := by decide

/-- A zone a fixed number of milliseconds east of UTC. -/
def Zone.fixed (offset : ℤ) : Zone :=
  let msecs (t : LocalDateTime) : ℤ :=
    ((daysFromCivil t.year t.month t.day*24+t.hour)*60+t.minute)*60000+t.second*1000+t.msec-offset
  ⟨true,fun t => some (msecs t),msecs⟩

/-- A machine in the C locale. -/
def Platform.ascii : Platform :=
  let lower (c : UInt16) : UInt16 := if 0x41≤c && c≤0x5A then c+0x20 else c
  {isDigit := fun c => 0x30≤c && c≤0x39
   isLetter := fun c => (0x41≤c && c≤0x5A) || (0x61≤c && c≤0x7A)
   toLower := List.map lower
   toUpper := fun c => if 0x61≤c && c≤0x7A then c-0x20 else c
   shortMonth := fun _ => []
   longMonth := fun _ => []
   currentYear := 1970
   currentMSecs := 0
   fixedOffset := fun s => .fixed (s*1000)
   fromString := fun _ _ => none
   systemZone := .fixed 0
   utcZone := .fixed 0
   foldCase := List.map lower
   compile := fun s _ => {Regex.empty with pattern := s}}

end Loftail
