import Loftail.Highlight
import Loftail.JsonValues
import Loftail.Rendering
import Loftail.TimestampParser

/-! # Criteria and rules as they are saved -/
namespace Loftail
open TimestampParser

/-- `QJsonValue::toBool`. -/
def Json.toBoolOr (fallback : Bool) : Json→Bool
  | .bool b => b
  | _ => fallback

@[simp] theorem Json.toBoolOr_bool (fallback b : Bool) : (Json.bool b).toBoolOr fallback=b := rfl

/-- An entry that is written where there is something to say. -/
def Json.optional (written : Bool) (key : String) (v : Json) : List (String×Json) := if written then
    [(key,v)] else []

namespace PriorityChoice

def kPriorityByIndex : List Priority := [.trace,.debug,.info,.warn,.error,.fatal]

def «at» (index : ℤ) : Priority := kPriorityByIndex.getD (max 0 (min index 5)).toNat .trace

/-- `Unknown` has no selector entry and falls back to the widest minimum. -/
def indexOf (p : Priority) : ℤ := if p∈kPriorityByIndex then kPriorityByIndex.idxOf p else 0

end PriorityChoice

/-! ## Times -/

/-- What `Qt::ISODate` prints: whole seconds. -/
def isoText (t : LocalDateTime) : Text :=
  decimal 4 t.year.toNat++0x2D::(decimal 2 t.month++0x2D::(decimal 2 t.day++0x54::(decimal 2 t.hour++
    0x3A::(decimal 2 t.minute++0x3A::decimal 2 t.second))))

/-- The times of the machine's own clock, and `QDateTime::fromString` under `Qt::ISODate`. -/
structure IsoDates where
  onClock : LocalDateTime→Bool
  fromString : Text→Option LocalDateTime

namespace IsoDates

/-- The form has room for four digits of the year. -/
def printable (iso : IsoDates) (t : LocalDateTime) : Bool :=
  dateValid t.year t.month t.day && timeValid t.hour t.minute t.second t.msec && iso.onClock t &&
    decide (0≤t.year ∧ t.year≤9999)

def toText (iso : IsoDates) : Option LocalDateTime→Text
  | some t => if iso.printable t then isoText t else []
  | none => []

/-- The documented reading of what was printed. -/
structure Lawful (iso : IsoDates) : Prop where
  isoText : ∀t,iso.printable t=true → iso.fromString (isoText t)=some {t with msec := 0}
  empty : iso.fromString []=none

/-- What a bound is after it was written and read. -/
def reread (iso : IsoDates) (bound : Option LocalDateTime) : Option LocalDateTime :=
  (bound.filter iso.printable).map fun t => {t with msec := 0}

theorem Lawful.reread {iso : IsoDates} (h : iso.Lawful) (bound : Option LocalDateTime) :
    iso.fromString (iso.toText bound)=iso.reread bound := by
  cases bound with
  | none => exact h.empty
  | some t =>
    by_cases hp : iso.printable t
    · simp [toText,IsoDates.reread,Option.filter,hp,h.isoText t hp]
    · simp [toText,IsoDates.reread,Option.filter,hp,h.empty]

/-! A machine whose clock shows every time, reading the printed form alone. -/

def numberOf (ds : Text) : ℕ := ds.foldl (fun n d => n*10+(d.toNat-0x30)) 0

/-- A number, and what follows its separator. -/
def readNumber (width : ℕ) (s : Text) : ℕ×Text := (numberOf (s.take width),s.drop (width+1))

def readPlain (s : Text) : Option LocalDateTime :=
  let year := readNumber 4 s
  let month := readNumber 2 year.2
  let day := readNumber 2 month.2
  let hour := readNumber 2 day.2
  let minute := readNumber 2 hour.2
  let second := readNumber 2 minute.2
  if s.length=19 then some ⟨year.1,month.1,day.1,hour.1,minute.1,second.1,0⟩ else none

def plain : IsoDates := ⟨fun _ => true,readPlain⟩

private theorem digit_value {d : ℕ} (h : d<10) : (0x30+d.toUInt16).toNat-0x30=d := by
  revert d
  decide

theorem length_decimal (width n : ℕ) : (decimal width n).length=width := by
  induction width generalizing n with
  | zero => rfl
  | succ width ih => rw [decimal,List.length_append,ih,List.length_singleton]

/-- A number is read back from its digits, as far as they reach. -/
theorem numberOf_decimal {width n : ℕ} (h : n < 10^width) : numberOf (decimal width n)=n := by
  induction width generalizing n with
  | zero =>
    rw [pow_zero,Nat.lt_one_iff] at h
    rw [h]
    rfl
  | succ width ih =>
    have hhigh : n/10 < 10^width := by
      rw [pow_succ] at h
      omega
    have hih := ih hhigh
    rw [numberOf] at hih ⊢
    rw [decimal,List.foldl_append,hih,List.foldl_cons,List.foldl_nil,digit_value (Nat.mod_lt n (by decide))]
    omega

theorem readNumber_decimal {width n : ℕ} (h : n < 10^width) (c : UInt16) (rest : Text) :
    readNumber width (decimal width n++c::rest)=(n,rest) := by
  have hlength := length_decimal width n
  have hdrop : (decimal width n++c::rest).drop (width+1)=rest := by
    rw [← List.drop_drop,List.drop_left' hlength,List.drop_one,List.tail_cons]
  rw [readNumber,List.take_left' hlength,numberOf_decimal h,hdrop]

private theorem readNumber_last {width n : ℕ} (h : n < 10^width) : (readNumber width (decimal width n)).1=n := by
  rw [readNumber,List.take_of_length_le (length_decimal width n).le,numberOf_decimal h]

private theorem daysInMonth_le (year : ℤ) (month : ℕ) : daysInMonth year month≤31 := by
  rw [daysInMonth]
  split
  · split <;> decide
  · split <;> decide

private theorem printable_iff {iso : IsoDates} {t : LocalDateTime} (h : iso.printable t=true) :
    (0≤t.year ∧ t.year≤9999) ∧ t.month≤12 ∧ t.day≤31 ∧ t.hour<24 ∧ t.minute<60 ∧ t.second<60 := by
  simp only [printable,dateValid,timeValid,Bool.and_eq_true,decide_eq_true_eq] at h
  have hmax := daysInMonth_le t.year t.month
  omega

private theorem plain_fromString (s : Text) : plain.fromString s=readPlain s := rfl

theorem plain_lawful : plain.Lawful where
  empty := rfl
  isoText t h := by
    obtain ⟨hyear,hmonth,hday,hhour,hminute,hsecond⟩ := printable_iff h
    have hlength : (Loftail.isoText t).length=19 := by
      simp [Loftail.isoText,length_decimal]
    rw [plain_fromString,readPlain,if_pos hlength,Loftail.isoText,readNumber_decimal (by omega),
      readNumber_decimal (by omega),
      readNumber_decimal (by omega),readNumber_decimal (by omega),readNumber_decimal (by omega),
      readNumber_last (by omega),Int.toNat_of_nonneg hyear.1]

end IsoDates

/-! ## Criteria -/

/-- What an index holds under these criteria. -/
def MatchCriteria.selects (p : Platform) (c : MatchCriteria) (absent : AbsentField) (noOps : NoOpAxes)
    (idx : RecordIndex) (format : LogFormat) (displayZone : Zone) (r : Record) (message : Text) : Bool :=
  (c.resolve idx.loggers idx.threads format displayZone absent noOps).accepts p r message

/-- Sorted without regard to case, for files that compare well. -/
def namesToArray (p : Platform) (names : List Text) : List Json :=
  (names.mergeSort fun a b => decide (p.foldCase a≤p.foldCase b)).map .string

def addName (out : List Text) (s : Text) : List Text := if !s.isEmpty && !out.contains s then out++[s] else out

def arrayToNames (a : List Json) : List Text := (a.map Json.toText).foldl addName []

/-- The portable criteria with what only the editors read. -/
structure PortableCriteria (p : Platform) extends MatchCriteria where
  loggerRestrictive : Bool
  threadRestrictive : Bool
  /-- The expression was compiled when the pattern was set. -/
  compiled : text.matcher=.set p text.matcher.pattern text.matcher.regex text.matcher.cs

namespace PortableCriteria
variable {p : Platform} {iso : IsoDates}

/-- Nothing configured. -/
def off : PortableCriteria p :=
  {MatchCriteria.none with loggerRestrictive := false,threadRestrictive := false,compiled := rfl}

/-- A name list implies an answer; the key says what differs from it. -/
def coverageEntry (key : String) (coversAll : Bool) (names : List Text) : List (String×Json) :=
  Json.optional (coversAll != names.isEmpty) key (.bool coversAll)

def toJson (iso : IsoDates) (c : PortableCriteria p) : List (String×Json) :=
  [("priorityEnabled",Json.bool c.priorityEnabled),
    ("minPriorityIndex",Json.number (PriorityChoice.indexOf c.minPriority)),
    ("loggerEnabled",Json.bool c.loggerEnabled),("loggerChecked",Json.array (namesToArray p c.loggerNames)),
    ("threadEnabled",Json.bool c.threadEnabled),("threadChecked",Json.array (namesToArray p c.threadNames))]++
  Json.optional c.loggerRestrictive "loggerRestrictive" (.bool true)++
  Json.optional c.threadRestrictive "threadRestrictive" (.bool true)++
  coverageEntry "loggerCoversAll" c.loggerCoversAll c.loggerNames++
  coverageEntry "threadCoversAll" c.threadCoversAll c.threadNames++
  [("textEnabled",Json.bool c.text.enabled),("text",Json.string c.text.matcher.pattern),
    ("textRegex",Json.bool c.text.matcher.regex),("textCase",Json.bool (decide (c.text.matcher.cs=.sensitive))),
    ("textNegate",Json.bool c.text.negate),("timeEnabled",Json.bool c.timeEnabled),
    ("timeStart",Json.string (iso.toText c.start)),("timeEnd",Json.string (iso.toText c.stop))]

/-- Where the key is absent, the list says whether it covers everything. -/
def readCoverage (o : List (String×Json)) (key : String) (names : List Text) : Bool :=
  if (Json.find? o key).isSome then (Json.value o key).toBoolOr true else names.isEmpty

def fromJson (p : Platform) (iso : IsoDates) (o : List (String×Json)) : PortableCriteria p :=
  let loggerNames := arrayToNames (Json.value o "loggerChecked").toArray
  let threadNames := arrayToNames (Json.value o "threadChecked").toArray
  {priorityEnabled := (Json.value o "priorityEnabled").toBoolOr true
   minPriority := PriorityChoice.at ((Json.value o "minPriorityIndex").toInt 0)
   loggerEnabled := (Json.value o "loggerEnabled").toBoolOr true
   loggerNames := loggerNames
   threadEnabled := (Json.value o "threadEnabled").toBoolOr false
   threadNames := threadNames
   loggerRestrictive := (Json.value o "loggerRestrictive").toBoolOr false
   threadRestrictive := (Json.value o "threadRestrictive").toBoolOr false
   loggerCoversAll := readCoverage o "loggerCoversAll" loggerNames
   threadCoversAll := readCoverage o "threadCoversAll" threadNames
   text := ⟨(Json.value o "textEnabled").toBoolOr false,(Json.value o "textNegate").toBoolOr false,
     .set p (Json.value o "text").toText ((Json.value o "textRegex").toBoolOr false)
       (if (Json.value o "textCase").toBoolOr false then .sensitive else .insensitive)⟩
   compiled := rfl
   timeEnabled := (Json.value o "timeEnabled").toBoolOr false
   start := iso.fromString (Json.value o "timeStart").toText
   stop := iso.fromString (Json.value o "timeEnd").toText}

end PortableCriteria

/-! ## Rules -/

namespace HighlightPalette

def kSlotCount : ℤ := 27

def kDefault : ℤ := -1

def isSlot (index : ℤ) : Bool := decide (0 ≤ index ∧ index < kSlotCount)

end HighlightPalette

/-- A rule with the two colours of its Colour action. -/
structure PortableRule (p : Platform) where
  enabled : Bool
  criteria : PortableCriteria p
  actions : HighlightActions
  background : ℤ
  foreground : ℤ

namespace PortableRule
variable {p : Platform} {iso : IsoDates}

/-- The rule as it is matched. -/
def rule (h : PortableRule p) : HighlightRule := ⟨h.enabled,h.criteria.toMatchCriteria,h.actions⟩

def priorityFromToken (s : Text) (fallback : Priority) : Priority :=
  if s.isEmpty then fallback else if parsePriority s=.unknown then fallback else parsePriority s

/-- The two-axis rules that were written before there were five. -/
def legacyCriteriaFromJson (p : Platform) (o : List (String×Json)) : PortableCriteria p :=
  {MatchCriteria.none with
   loggerEnabled := (Json.value o "matchLogger").toBoolOr false
   loggerNames := arrayToNames (Json.value o "loggerNames").toArray
   priorityEnabled := (Json.value o "matchPriority").toBoolOr false
   minPriority := priorityFromToken (Json.value o "minPriority").toText .warn
   loggerRestrictive := false
   threadRestrictive := false
   compiled := rfl}

def actionsToJson (a : HighlightActions) : List Json :=
  let token (has : Bool) (t : String) : List Json := if has then [.string (latin1 t)] else []
  token a.color "color"++token a.digest "digest"++token a.tab "tab"++token a.notify "notify"

/-- Unknown tokens are ignored. -/
def actionsFromJson (a : List Json) : HighlightActions :=
  let has (token : String) := a.any fun v => v.toText=latin1 token
  ⟨has "color",has "digest",has "tab",has "notify"⟩

/-- Colour alone, which a rule does when nothing is said. -/
def colourOnly : HighlightActions := ⟨true,false,false,false⟩

def toJson (iso : IsoDates) (h : PortableRule p) : List (String×Json) :=
  [("enabled",Json.bool h.enabled),("match",Json.object (h.criteria.toJson iso))]++
  Json.optional (decide (h.actions≠colourOnly)) "actions" (.array (actionsToJson h.actions))++
  [("background",Json.number h.background),("foreground",Json.number h.foreground)]

/-- A corrupt index reads as the default. -/
def readSlot (v : Json) : ℤ :=
  let i := v.toInt HighlightPalette.kDefault
  if HighlightPalette.isSlot i then i else HighlightPalette.kDefault

def fromJson (p : Platform) (iso : IsoDates) (o : List (String×Json)) : PortableRule p where
  enabled := (Json.value o "enabled").toBoolOr true
  criteria :=
    if (Json.value o "match").isObject then .fromJson p iso (Json.value o "match").toObject
    else legacyCriteriaFromJson p o
  -- presence, never emptiness: no action at all is an answer too
  actions :=
    if (Json.find? o "actions").isSome then actionsFromJson (Json.value o "actions").toArray else colourOnly
  background := readSlot (Json.value o "background")
  foreground := readSlot (Json.value o "foreground")

end PortableRule
end Loftail
