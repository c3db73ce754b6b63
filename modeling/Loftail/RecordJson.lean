import Loftail.FramedRoundTrip
import Loftail.LogFileStore
import Loftail.PercentEncoding
import Loftail.CriteriaJson

/-! # A log's record as it is filed -/
namespace Loftail

abbrev JsonObject := List (String×Json)

/-! ## The profile -/

/-- How the source zone is chosen; only a fixed offset has seconds. -/
inductive ZoneChoice
  | default
  | «local»
  | utc
  | fixedOffset (seconds : {n : ℤ//isInt n=true})
  deriving DecidableEq

/-- `QString::toInt`, of what is ASCII; 0 where it is not ok. -/
def QString.toInt (s : Text) : ℤ :=
  if s.all (· < 0x80) then (Loftail.toInt (s.map UInt16.toUInt8)).getD 0 else 0

namespace ZoneChoice

def toText : ZoneChoice→Text
  | .default => latin1 "default"
  | .local => latin1 "local"
  | .utc => latin1 "utc"
  | .fixedOffset seconds => latin1 "offset:"++(printed seconds).map UInt8.toUInt16

private theorem isInt_getD {o : Option ℤ} (h : ∀n,o=some n → isInt n=true) : isInt (o.getD 0)=true := by
  cases o with
  | none => rfl
  | some n => exact h n rfl

private theorem isInt_toInt (s : Text) : isInt (QString.toInt s)=true := by
  rw [QString.toInt]
  split
  · exact isInt_getD fun n h => (Option.filter_eq_some_iff.mp h).2
  · rfl

def fromText (s : Text) : ZoneChoice :=
  if s=latin1 "local" then .local
  else if s=latin1 "utc" then .utc
  else if (latin1 "offset:").isPrefixOf s then .fixedOffset ⟨QString.toInt (s.drop 7),isInt_toInt _⟩
  else .default

end ZoneChoice

inductive TimeDisplay | asWritten | localTime | utc | epochSeconds | runSeconds | sincePrevious
  deriving DecidableEq

namespace TimeDisplay

def toText : TimeDisplay→Text
  | .asWritten => latin1 "asWritten"
  | .localTime => latin1 "local"
  | .utc => latin1 "utc"
  | .epochSeconds => latin1 "epochSeconds"
  | .runSeconds => latin1 "runSeconds"
  | .sincePrevious => latin1 "sincePrevious"

def fromText (s : Text) : TimeDisplay :=
  if s=latin1 "local" then .localTime
  else if s=latin1 "utc" then .utc
  else if s=latin1 "epochSeconds" then .epochSeconds
  else if s=latin1 "runSeconds" then .runSeconds
  else if s=latin1 "sincePrevious" then .sincePrevious
  else .asWritten

end TimeDisplay

/-- The encoding is the number of its enumerator: a cast makes it of any number. -/
structure FormatSettings where
  pattern : Text
  encoding : UInt8
  sourceZone : ZoneChoice
  timeDisplay : TimeDisplay
  runStartPattern : Text
  runStartIsRegex : Bool
  runStartCaseSensitive : Bool
  deriving DecidableEq

/-- The wrap mode is the number of its enumerator as well. -/
structure LogProfile where
  format : FormatSettings
  wrapMode : UInt8
  configPath : Text
  restartScript : Text
  serialProfile : Text
  deriving DecidableEq

namespace LogProfile

def kBuiltInPattern : Text := latin1 "%d\x7b%Y-%m-%d %H:%M:%S,%q\x7d [%t] %-5p %c - %m%n"

def builtIn : LogProfile := ⟨⟨kBuiltInPattern,0,.default,.asWritten,[],false,false⟩,0,[],[],[]⟩

/-- `logProfileToJson`. -/
def toJson (p : LogProfile) : JsonObject :=
  [("pattern",.string p.format.pattern),("encoding",.number p.format.encoding.toNat),
    ("sourceZone",.string p.format.sourceZone.toText),("timeDisplay",.string p.format.timeDisplay.toText),
    ("runStartPattern",.string p.format.runStartPattern),("runStartRegex",.bool p.format.runStartIsRegex),
    ("runStartCase",.bool p.format.runStartCaseSensitive),("wrapMode",.number p.wrapMode.toNat),
    ("configPath",.string p.configPath),("restartScript",.string p.restartScript),
    ("serialProfile",.string p.serialProfile)]

/-- `logProfileFromJson`: an empty pattern is an answer, an absent one is not. -/
def fromJson (o : JsonObject) : LogProfile where
  format :=
    {pattern := if (Json.find? o "pattern").isSome then (Json.value o "pattern").toText else builtIn.format.pattern
     encoding := UInt8.ofInt ((Json.value o "encoding").toInt 0)
     sourceZone := .fromText (Json.value o "sourceZone").toText
     timeDisplay := .fromText (Json.value o "timeDisplay").toText
     runStartPattern := (Json.value o "runStartPattern").toText
     runStartIsRegex := (Json.value o "runStartRegex").toBool
     runStartCaseSensitive := (Json.value o "runStartCase").toBool}
  wrapMode := UInt8.ofInt ((Json.value o "wrapMode").toInt 0)
  configPath := (Json.value o "configPath").toText
  restartScript := (Json.value o "restartScript").toText
  serialProfile := (Json.value o "serialProfile").toText

end LogProfile

/-! ## The rules a log opens with -/

namespace HighlightPalette

def kInk : ℤ := 8

def kPaper : ℤ := 26

def kSlotsPerBand : ℤ := 9

/-- The neutral that reads on each slot, band after band. -/
def textOn : List ℤ :=
  [kPaper,kPaper,kPaper,kPaper,kPaper,kPaper,kPaper,kPaper,kPaper,
   kPaper,kInk,kInk,kInk,kInk,kPaper,kPaper,kInk,kPaper,
   kInk,kInk,kInk,kInk,kInk,kInk,kInk,kInk,kInk]

def readableTextSlot (index : ℤ) : ℤ := if isSlot index then textOn.getD index.toNat kPaper else kPaper

end HighlightPalette

namespace PortableRule
variable {p : Platform}

/-- A level, coloured and nothing else. -/
def level (p : Platform) (minimum : Priority) (background : ℤ) : PortableRule p :=
  ⟨true,{PortableCriteria.off with priorityEnabled := true,minPriority := minimum},colourOnly,background,
    HighlightPalette.readableTextSlot background⟩

/-- `HighlighterSet::defaults`. -/
def defaults (p : Platform) : List (PortableRule p) :=
  [level p .fatal (1*HighlightPalette.kSlotsPerBand+0),level p .error (0*HighlightPalette.kSlotsPerBand+0),
    level p .warn (2*HighlightPalette.kSlotsPerBand+2)]

/-- Two bounds are the same when neither names an instant, or both name the same one. -/
def sameBound (sameInstant : LocalDateTime→LocalDateTime→Bool) : Option LocalDateTime→Option LocalDateTime→Bool
  | none,none => true
  | some a,some b => sameInstant a b
  | _,_ => false

/-- What was typed, and nothing derived from it. -/
def sameText (a b : TextFilter) : Bool :=
  decide (a.enabled=b.enabled ∧ a.negate=b.negate ∧ a.matcher.pattern=b.matcher.pattern ∧
    a.matcher.regex=b.matcher.regex ∧ a.matcher.cs=b.matcher.cs)

/-- `MatchCriteria::operator==`. -/
def sameCriteria (sameInstant : LocalDateTime→LocalDateTime→Bool) (a b : PortableCriteria p) : Bool :=
  decide (a.priorityEnabled=b.priorityEnabled ∧ a.minPriority=b.minPriority ∧ a.loggerEnabled=b.loggerEnabled ∧
    a.loggerNames=b.loggerNames ∧ a.threadEnabled=b.threadEnabled ∧ a.threadNames=b.threadNames ∧
    a.loggerCoversAll=b.loggerCoversAll ∧ a.threadCoversAll=b.threadCoversAll ∧
    a.loggerRestrictive=b.loggerRestrictive ∧ a.threadRestrictive=b.threadRestrictive ∧
      a.timeEnabled=b.timeEnabled) &&
    sameBound sameInstant a.start b.start && sameBound sameInstant a.stop b.stop && sameText a.text b.text

/-- `HighlightRule::operator==`. -/
def sameRule (sameInstant : LocalDateTime→LocalDateTime→Bool) (a b : PortableRule p) : Bool :=
  decide (a.enabled=b.enabled ∧ a.actions=b.actions ∧ a.background=b.background ∧ a.foreground=b.foreground) &&
    sameCriteria sameInstant a.criteria b.criteria

/-- The whole list in order. -/
def sameRules (sameInstant : LocalDateTime→LocalDateTime→Bool) : List (PortableRule p)→List (PortableRule p)→Bool
  | [],[] => true
  | a::as,b::bs => sameRule sameInstant a b && sameRules sameInstant as bs
  | _,_ => false

/-- `HighlighterSet::fromJson`. -/
def rulesFromJson (p : Platform) (iso : IsoDates) (a : List Json) : List (PortableRule p) :=
  a.map fun v => fromJson p iso v.toObject

end PortableRule

/-! ## The record -/

/-- The settings of one log, with their sections in JSON where the source keeps them so. -/
abbrev LogRecord := LogFileSettings LogProfile JsonObject (List Json)

namespace LogRecord
variable {p : Platform} {iso : IsoDates}

/-- `filterStateSaysNothing`. -/
def filterStateSaysNothing (p : Platform) (iso : IsoDates) (state : JsonObject) : Bool :=
  if state.isEmpty then true
  else if (Json.value state "contextBefore").toInt 0≠0 then false
  else if (Json.value state "contextAfter").toInt 0≠0 then false
  else
    let c := PortableCriteria.fromJson p iso state
    if c.priorityEnabled && !decide (c.minPriority=PriorityChoice.at 0) then false
    else if c.loggerEnabled && !c.loggerCoversAll then false
    else if c.threadEnabled && !c.threadCoversAll then false
    else if c.timeEnabled then false
    else if c.text.active then false
    else true

/-- What the sections of a record say. `sameInstant` is `QDateTime::operator==` of two valid bounds. -/
def sections (p : Platform) (iso : IsoDates) (sameInstant : LocalDateTime→LocalDateTime→Bool) :
    SectionRules JsonObject (List Json) where
  noFilters := []
  isEmpty := List.isEmpty
  filterStateSaysNothing := filterStateSaysNothing p iso
  areDefaults a := PortableRule.sameRules sameInstant (PortableRule.rulesFromJson p iso a) (PortableRule.defaults p)

def addressToJson (address : String) : Json := .string (QString.ofCodePoints address.toList)

def addressFromJson (v : Json) : String := String.ofList (QString.codePoints v.toText)

/-- `QJsonValue::toDouble` with a default, taken for a whole number. -/
def toOffset (fallback : ℤ) (v : Json) : ℤ := if v.isDouble then v.toDoubleQint64 else fallback

/-- The least timestamp is left out rather than written as a double. -/
def runToJson (r : StoredRun) : JsonObject :=
  [("all",Json.bool r.all),("startOffset",Json.number (toDouble r.startOffset))]++
  Json.optional (decide (r.startTimestamp≠StoredRun.kNoTimestamp)) "startTimestamp"
    (.number (toDouble r.startTimestamp))

def runFromJson (o : JsonObject) : StoredRun where
  all := (Json.value o "all").toBool
  startOffset := toOffset (-1) (Json.value o "startOffset")
  startTimestamp :=
    if (Json.find? o "startTimestamp").isSome then toOffset 0
      (Json.value o "startTimestamp") else StoredRun.kNoTimestamp

def profileToJson : Option LogProfile→Json
  | some profile => .object profile.toJson
  | none => .string (latin1 "inherited")

def toJson (s : LogRecord) : JsonObject :=
  [("schemaVersion",Json.number kRecordVersion),("address",addressToJson s.address),
    ("profile",profileToJson s.profile)]++
  Json.optional (!s.filters.isEmpty) "filters" (.object s.filters)++
  Json.optional s.highlighters.isSome "highlighters" (.array (s.highlighters.getD []))++
  Json.optional (!s.run.saysNothing) "run" (.object (runToJson s.run))

/-- `Schema::versionOf`. -/
def versionOf (root : JsonObject) : ℤ :=
  let v := Json.value root "schemaVersion"
  if v.isDouble then (if v.toInt 0>0 then v.toInt 0 else 0) else 0

/-- A slot file as the store sees it: presence, never emptiness, decides of the rules. -/
def slotDoc (o : JsonObject) : SlotDoc LogProfile JsonObject (List Json) where
  version := versionOf o
  settings :=
    {address := addressFromJson (Json.value o "address")
     profile :=
       if (Json.value o "profile").isObject then some (.fromJson (Json.value o "profile").toObject) else none
     filters := (Json.value o "filters").toObject
     highlighters := if (Json.find? o "highlighters").isSome then some
       (Json.value o "highlighters").toArray else none
     run := runFromJson (Json.value o "run").toObject}

/-- `LogFileSettings::fromJson`; there is one version, and nothing to migrate. -/
def fromJson (o : JsonObject) : Option LogRecord := (slotDoc o).fromJson

/-! ## What a record has for an effect -/

def effectiveProfile (s : LogRecord) (inherited : LogProfile) : LogProfile := s.profile.getD inherited

def effectiveRules (p : Platform) (iso : IsoDates) (s : LogRecord) : List (PortableRule p) :=
  match s.highlighters with
  | some rules => PortableRule.rulesFromJson p iso rules
  | none => PortableRule.defaults p

/-- What the filters of a log select of it. -/
def selects (p : Platform) (iso : IsoDates) (s : LogRecord) (idx : RecordIndex) (format : LogFormat)
    (displayZone : Zone) (r : Record) (message : Text) : Bool :=
  (PortableCriteria.fromJson p iso s.filters).selects p .matches .collapse idx format displayZone r message

/-- The records shown before and after each match. -/
def context (s : LogRecord) : ℤ×ℤ :=
  ((Json.value s.filters "contextBefore").toInt 0,(Json.value s.filters "contextAfter").toInt 0)

end LogRecord

/-- The run a log is opened on. -/
inductive RunChoice
  | all
  | last
  | byStart (offset timestamp : ℤ)
  deriving DecidableEq

def StoredRun.choice (r : StoredRun) : RunChoice :=
  if r.all then .all else if r.startOffset < 0 then .last else .byStart r.startOffset r.startTimestamp

end Loftail
