import Loftail.Platform

/-! # The match axes, and the predicate chain over them -/
namespace Loftail

/-- One text query: a substring or a regular expression. -/
structure TextMatcher where
  pattern : Text
  regex : Bool
  cs : CaseSensitivity
  re : Regex
  valid : Bool

namespace TextMatcher

def empty : TextMatcher := ⟨[],false,.insensitive,.empty,true⟩

def set (p : Platform) (pattern : Text) (regex : Bool) (cs : CaseSensitivity) : TextMatcher :=
  let re := if regex && !pattern.isEmpty then p.compile pattern cs else .empty
  ⟨pattern,regex,cs,re,if regex && !pattern.isEmpty then re.isValid else true⟩

def isEmpty (m : TextMatcher) : Bool := m.pattern.isEmpty

/-- `QString::contains`. -/
def contains (p : Platform) (text pattern : Text) : CaseSensitivity→Bool
  | .sensitive => text.tails.any pattern.isPrefixOf
  | .insensitive => (p.foldCase text).tails.any (p.foldCase pattern).isPrefixOf

/-- An empty query matches everything, a broken expression nothing. -/
def «matches» (p : Platform) (m : TextMatcher) (text : Text) : Bool :=
  if m.pattern.isEmpty then true
  else if m.regex then m.valid && (m.re.exec text).isSome
  else contains p text m.pattern m.cs

end TextMatcher

structure TextFilter where
  enabled : Bool
  negate : Bool
  matcher : TextMatcher

namespace TextFilter

def off : TextFilter := ⟨false,false,.empty⟩

def active (t : TextFilter) : Bool := t.enabled && !t.matcher.isEmpty

end TextFilter

/-- The resolved axes: interned ids, UTC milliseconds, a compiled expression. -/
structure FilterSet where
  priorityEnabled : Bool
  minPriority : Priority
  loggerEnabled : Bool
  loggerIds : List ℕ
  threadEnabled : Bool
  threadIds : List ℕ
  timeEnabled : Bool
  startMs : ℤ
  endMs : ℤ
  text : TextFilter
  absentFieldMatches : Bool

namespace FilterSet

def kMinTime : ℤ := -(2^63)

def kMaxTime : ℤ := 2^63-1

/-- No axis is on. -/
def inert : FilterSet := ⟨false,.trace,false,[],false,[],false,kMinTime,kMaxTime,.off,true⟩

def anyActive (fs : FilterSet) : Bool :=
  fs.priorityEnabled || fs.loggerEnabled || fs.threadEnabled || fs.timeEnabled || fs.text.active

/-- One axis: what it makes of a record that lacks its field, and of one that has it. -/
def axis (fs : FilterSet) (enabled absent passes : Bool) : Bool :=
  !enabled || (if absent then fs.absentFieldMatches else passes)

def acceptsPriority (fs : FilterSet) (r : Record) : Bool :=
  fs.axis fs.priorityEnabled (r.priority=.unknown) (fs.minPriority.toNat≤r.priority.toNat)

def acceptsLogger (fs : FilterSet) (r : Record) : Bool :=
  fs.axis fs.loggerEnabled (r.loggerId=0) (fs.loggerIds.contains r.loggerId)

def acceptsThread (fs : FilterSet) (r : Record) : Bool :=
  fs.axis fs.threadEnabled (r.threadId=0) (fs.threadIds.contains r.threadId)

def acceptsTime (fs : FilterSet) (r : Record) : Bool :=
  fs.axis fs.timeEnabled (r.timestamp=kNoTimestamp) (fs.startMs≤r.timestamp && r.timestamp≤fs.endMs)

def acceptsIntegerAxes (fs : FilterSet) (r : Record) : Bool :=
  fs.acceptsPriority r && fs.acceptsLogger r && fs.acceptsThread r && fs.acceptsTime r

def acceptsText (p : Platform) (fs : FilterSet) (message : Text) : Bool :=
  if !fs.text.active then true else (fs.text.matcher.matches p message)!=fs.text.negate

/-- Integers first, the decoded message last and only when its axis is on. -/
def accepts (p : Platform) (fs : FilterSet) (r : Record) (message : Text) : Bool :=
  fs.acceptsIntegerAxes r && (!fs.text.active || fs.acceptsText p message)

end FilterSet

inductive AbsentField | «matches» | doesNotMatch
  deriving DecidableEq,Inhabited,Repr

inductive NoOpAxes | collapse | keep
  deriving DecidableEq,Inhabited,Repr

/-- The portable axes: names, levels and wall clock. -/
structure MatchCriteria where
  priorityEnabled : Bool
  minPriority : Priority
  loggerEnabled : Bool
  loggerNames : List Text
  threadEnabled : Bool
  threadNames : List Text
  loggerCoversAll : Bool
  threadCoversAll : Bool
  timeEnabled : Bool
  start : Option LocalDateTime
  stop : Option LocalDateTime
  text : TextFilter

namespace MatchCriteria

/-- Nothing configured. -/
def none : MatchCriteria := ⟨false,.trace,false,[],false,[],true,true,false,.none,.none,.off⟩

def anyActive (c : MatchCriteria) : Bool :=
  c.priorityEnabled || c.loggerEnabled || c.threadEnabled || c.timeEnabled || c.text.active

/-- The ids of the names a table holds; the others match nothing until they appear. -/
def resolveIds (table : InternTable) (names : List Text) : List ℕ := names.filterMap table.idOf

def resolve (c : MatchCriteria) (loggers threads : InternTable) (format : LogFormat) (displayZone : Zone)
    (absent : AbsentField) (noOps : NoOpAxes) : FilterSet :=
  let collapse := decide (noOps=.collapse)
  let timeEnabled := c.timeEnabled && decide (format.dateGroup>0)
  {priorityEnabled := c.priorityEnabled && (!collapse || decide (c.minPriority≠.trace))
   minPriority := c.minPriority
   loggerEnabled := c.loggerEnabled && !(collapse && c.loggerCoversAll)
   loggerIds := resolveIds loggers c.loggerNames
   threadEnabled := c.threadEnabled && !(collapse && c.threadCoversAll) && decide (format.threadGroup>0)
   threadIds := resolveIds threads c.threadNames
   timeEnabled := timeEnabled
   startMs := if timeEnabled then (c.start.bind displayZone.instant).getD FilterSet.kMinTime else FilterSet.kMinTime
   endMs := if timeEnabled then (c.stop.bind displayZone.instant).getD FilterSet.kMaxTime else FilterSet.kMaxTime
   text := c.text
   absentFieldMatches := decide (absent=.matches)}

end MatchCriteria

end Loftail
